import DDBMS.Recovery.LogRecord
import Mathlib.Data.List.Basic

/-!
# `FaultTolerance.CoordinatorBackup` — the results that a backup keeps

`CoordinatorBackup` (`fault_tolerance/coordinator_backup.h`), with its file open. `WriteCoordinatorBackup` appends the 16
bytes of a `PrepareResult`. `ReadBackwards` starts at the last record and goes back, not record by record but byte by byte:
between two records it reads the end of one and the beginning of the next as a record of its own (`straddle`). So it
returns the last result unless one of these, behind the last record of the transaction, has its id by chance and another
result (`reads_last_iff`).
-/

namespace DDBMS

structure PrepareResult where
  txn_id : txn_id_t
  prepare_res : Bool
  deriving DecidableEq, Repr

/-- The byte of a `bool`. -/
def boolByte (b : Bool) : UInt8 := if b then 1 else 0

/-- The `bool` of a byte; any other byte is not one. -/
def byteBool (b : UInt8) : Option Bool := if b = 0 then some false else if b = 1 then some true else none

theorem byteBool_eq_some {b : UInt8} {v : Bool} : byteBool b = some v ↔ b = boolByte v := by
  unfold byteBool
  split
  · rename_i h
    subst h
    cases v <;> decide
  · rename_i h0
    split
    · rename_i h
      subst h
      cases v <;> decide
    · rename_i h1
      cases v <;> simp [boolByte, h0, h1]

/-- `sizeof(PrepareResult)`: the `bool` is padded to the alignment of the id. -/
def PrepareResult.size : Nat := 16

/-- The memory image, with zeros as padding. -/
def PrepareResult.image (pr : PrepareResult) : Bytes :=
  leBytes 8 pr.txn_id.toNat ++ (boolByte pr.prepare_res :: List.replicate 7 0)

@[simp] theorem PrepareResult.length_image (pr : PrepareResult) : pr.image.length = PrepareResult.size := by
  simp [PrepareResult.image, PrepareResult.size]

structure CoordinatorBackup where
  coor_backup_file_ : Bytes := []
  deriving Repr

namespace CoordinatorBackup

def WriteCoordinatorBackup (b : CoordinatorBackup) (pr : PrepareResult) : CoordinatorBackup :=
  { b with coor_backup_file_ := b.coor_backup_file_ ++ pr.image }

/-- The id and the byte of the result, in what is read at `pos`. -/
def readAtPos (file : Bytes) (pos : Nat) : Nat × UInt8 := (ofLe ((file.drop pos).take 8), file.getD (pos + 8) 0)

/-- The loop of `ReadBackwards`, from `pos` down to the start of the file. -/
def readLoop (file : Bytes) (txn_id : txn_id_t) (pos : Nat) : Option Bool :=
  let pr := readAtPos file pos
  if txn_id.toNat = pr.1 then byteBool pr.2
  else match pos with
    | 0 => some false
    | pos + 1 => readLoop file txn_id pos

/-- In a file that is too short for a record, `pos` starts below zero. -/
def ReadBackwards (b : CoordinatorBackup) (txn_id : txn_id_t) : Option Bool :=
  if b.coor_backup_file_.length < PrepareResult.size then some false
  else readLoop b.coor_backup_file_ txn_id (b.coor_backup_file_.length - PrepareResult.size)

/-! ## What is read in the file -/

/-- The records written one after the other, from an empty file. -/
def written (rs : List PrepareResult) : CoordinatorBackup := rs.foldl WriteCoordinatorBackup {}

/-- A record, where it stands. -/
def aligned (pr : PrepareResult) : Nat × UInt8 := (pr.txn_id.toNat, boolByte pr.prepare_res)

/-- What is read `k + 1` bytes behind the start of a record that another one follows. -/
def straddleAt (pr next : PrepareResult) (k : Nat) : Nat × UInt8 := readAtPos (pr.image ++ next.image) (k + 1)

def straddle (pr next : PrepareResult) : List (Nat × UInt8) := (List.range 15).map (straddleAt pr next)

/-- Everything that is read between the records. -/
def straddles : List PrepareResult → List (Nat × UInt8)
  | pr :: next :: rs => straddle pr next ++ straddles (next :: rs)
  | [] | [_] => []

/-- Everything that is read in the file, from its start. -/
def windows : List PrepareResult → List (Nat × UInt8)
  | pr :: next :: rs => aligned pr :: (straddle pr next ++ windows (next :: rs))
  | [pr] => [aligned pr]
  | [] => []

/-- The result byte behind the last of these ids that is the id asked for. -/
def lastMatch (txn_id : txn_id_t) (ws : List (Nat × UInt8)) : Option UInt8 :=
  ws.foldl (fun last w => if txn_id.toNat = w.1 then some w.2 else last) none

/-- The result that was written last for the id. -/
def lastResult (txn_id : txn_id_t) (rs : List PrepareResult) : Option Bool :=
  rs.foldl (fun last pr => if pr.txn_id = txn_id then some pr.prepare_res else last) none

/-- The records from the last one with the id on; all of them, if there is none. -/
def sinceLast (txn_id : txn_id_t) : List PrepareResult → List PrepareResult
  | [] => []
  | pr :: rs => if rs.any (fun pr => pr.txn_id = txn_id) then sinceLast txn_id rs else pr :: rs

section Last

variable {α β : Type} {p : α → Prop} [DecidablePred p] {f : α → β}

/-- The last of some elements is the last of the later ones, if there is one. -/
theorem foldl_last (as : List α) (b : Option β) : as.foldl (fun last a => if p a then some (f a) else last) b =
    (as.foldl (fun last a => if p a then some (f a) else last) none).or b := by
  induction as generalizing b with
  | nil => rfl
  | cons a as ih =>
      rw [List.foldl_cons, List.foldl_cons, ih, ih (if p a then some (f a) else none), Option.or_assoc]
      split <;> rfl

theorem foldl_last_none {as : List α} (h : ∀ a ∈ as, ¬ p a) (b : Option β) :
    as.foldl (fun last a => if p a then some (f a) else last) b = b := by
  induction as with
  | nil => rfl
  | cons a as ih =>
      rw [List.foldl_cons, if_neg (h a List.mem_cons_self)]
      exact ih fun x hx => h x (List.mem_cons_of_mem a hx)

end Last

variable {txn_id : txn_id_t} {rs : List PrepareResult} {pr : PrepareResult}

theorem lastMatch_append (ws ws' : List (Nat × UInt8)) :
    lastMatch txn_id (ws ++ ws') = (lastMatch txn_id ws').or (lastMatch txn_id ws) := by
  rw [lastMatch, List.foldl_append, foldl_last]
  rfl

theorem lastMatch_cons (w : Nat × UInt8) (ws : List (Nat × UInt8)) :
    lastMatch txn_id (w :: ws) = (lastMatch txn_id ws).or (if txn_id.toNat = w.1 then some w.2 else none) :=
  foldl_last ws _

theorem written_file (rs : List PrepareResult) : (written rs).coor_backup_file_ = rs.flatMap PrepareResult.image := by
  have hall : ∀ b : CoordinatorBackup, (rs.foldl WriteCoordinatorBackup b).coor_backup_file_ =
      b.coor_backup_file_ ++ rs.flatMap PrepareResult.image := by
    induction rs with
    | nil => intro b; simp
    | cons pr rs ih =>
        intro b
        rw [List.foldl_cons, ih, List.flatMap_cons, WriteCoordinatorBackup, List.append_assoc]
  exact hall {}

/-- The loop takes the last of what can be read up to `pos`. -/
theorem readLoop_eq (file : Bytes) (txn_id : txn_id_t) (pos : Nat) : readLoop file txn_id pos =
    match lastMatch txn_id ((List.range (pos + 1)).map (readAtPos file)) with
    | some b => byteBool b
    | none => some false := by
  induction pos with
  | zero =>
      rw [readLoop, List.range_one, List.map_singleton, lastMatch_cons]
      by_cases h : txn_id.toNat = (readAtPos file 0).1
      · simp [h, lastMatch]
      · simp [h, lastMatch]
  | succ pos ih =>
      rw [readLoop, List.range_succ, List.map_append, List.map_singleton, lastMatch_append, lastMatch_cons]
      by_cases h : txn_id.toNat = (readAtPos file (pos + 1)).1
      · simp [h, lastMatch]
      · simp [h, lastMatch, ih]

theorem readAtPos_left {a : Bytes} {pos : Nat} (h : pos + 9 ≤ a.length) (c : Bytes) :
    readAtPos (a ++ c) pos = readAtPos a pos := by
  rw [readAtPos, readAtPos, List.drop_append_of_le_length (by omega),
    List.take_append_of_le_length (by rw [List.length_drop]; omega), List.getD_eq_getElem?_getD,
    List.getElem?_append_left (by omega), List.getD_eq_getElem?_getD]

theorem readAtPos_right (a c : Bytes) (pos : Nat) : readAtPos (a ++ c) (a.length + pos) = readAtPos c pos := by
  rw [readAtPos, readAtPos, List.drop_append, List.drop_eq_nil_of_le (by omega), List.nil_append,
    List.getD_eq_getElem?_getD, List.getElem?_append_right (by omega), List.getD_eq_getElem?_getD]
  have hpos : a.length + pos - a.length = pos := by omega
  have hbyte : a.length + pos + 8 - a.length = pos + 8 := by omega
  rw [hpos, hbyte]

theorem readAtPos_image (pr : PrepareResult) (c : Bytes) : readAtPos (pr.image ++ c) 0 = aligned pr := by
  rw [readAtPos_left (by simp [PrepareResult.size]), readAtPos, PrepareResult.image, List.drop_zero,
    List.take_left' (length_leBytes 8 _), ofLe_leBytes, Nat.mod_eq_of_lt (show _ < 256 ^ 8 from UInt64.toNat_lt pr.txn_id),
    List.getD_eq_getElem?_getD, List.getElem?_append_right (by simp)]
  simp [aligned]

/-- **What is read in the file**: every record, and what lies between two of them. -/
theorem windows_eq (pr : PrepareResult) (rs : List PrepareResult) :
    (List.range (PrepareResult.size * rs.length + 1)).map (readAtPos ((pr :: rs).flatMap PrepareResult.image)) =
      windows (pr :: rs) := by
  induction rs generalizing pr with
  | nil =>
      rw [List.flatMap_cons]
      exact congrArg (fun w => [w]) (readAtPos_image pr _)
  | cons next rs ih =>
      have hrange : PrepareResult.size * (next :: rs).length + 1 = 16 + (PrepareResult.size * rs.length + 1) := by
        rw [List.length_cons, PrepareResult.size]
        omega
      have hnext : readAtPos ((pr :: next :: rs).flatMap PrepareResult.image) ∘ (16 + ·) =
          readAtPos ((next :: rs).flatMap PrepareResult.image) := by
        funext pos
        have h := readAtPos_right pr.image ((next :: rs).flatMap PrepareResult.image) pos
        rwa [PrepareResult.length_image] at h
      have hstraddle : (List.range 15).map (readAtPos ((pr :: next :: rs).flatMap PrepareResult.image) ∘ Nat.succ) =
          straddle pr next := by
        refine List.map_congr_left fun k hk => ?_
        have hlt := List.mem_range.mp hk
        rw [List.flatMap_cons, List.flatMap_cons, ← List.append_assoc]
        refine readAtPos_left ?_ _
        rw [List.length_append, PrepareResult.length_image, PrepareResult.length_image, PrepareResult.size]
        omega
      rw [hrange, List.range_add, List.map_append, List.map_map, hnext, ih next, List.range_succ_eq_map, List.map_cons,
        List.map_map, hstraddle, windows, List.flatMap_cons, readAtPos_image]
      rfl

theorem ReadBackwards_eq (txn_id : txn_id_t) (rs : List PrepareResult) : (written rs).ReadBackwards txn_id =
    match lastMatch txn_id (windows rs) with
    | some b => byteBool b
    | none => some false := by
  rw [ReadBackwards, written_file]
  cases rs with
  | nil => rfl
  | cons pr rs =>
      have hlen : ((pr :: rs).flatMap PrepareResult.image).length = PrepareResult.size * rs.length + PrepareResult.size := by
        have hall : ∀ rs : List PrepareResult, (rs.flatMap PrepareResult.image).length = PrepareResult.size * rs.length := by
          intro rs
          induction rs with
          | nil => rfl
          | cons pr rs ih =>
              rw [List.flatMap_cons, List.length_append, PrepareResult.length_image, ih, List.length_cons, Nat.mul_succ,
                Nat.add_comm]
        rw [hall, List.length_cons, Nat.mul_succ]
      rw [hlen, if_neg (by omega), Nat.add_sub_cancel, readLoop_eq, windows_eq]

/-! ## The last result -/

/-- Behind the last record with the id only what lies between the records can be taken for another one. -/
theorem lastMatch_windows_cons (pr : PrepareResult) (hrs : ∀ x ∈ rs, x.txn_id ≠ txn_id) :
    lastMatch txn_id (windows (pr :: rs)) =
      (lastMatch txn_id (straddles (pr :: rs))).or (if pr.txn_id = txn_id then some (boolByte pr.prepare_res) else none) := by
  have haligned : ∀ pr : PrepareResult, (if txn_id.toNat = (aligned pr).1 then some (aligned pr).2 else none) =
      if pr.txn_id = txn_id then some (boolByte pr.prepare_res) else none := by
    intro pr
    refine if_congr ?_ rfl rfl
    rw [aligned, UInt64.toNat_inj, eq_comm]
  induction rs generalizing pr with
  | nil => rw [windows, lastMatch_cons, haligned]; rfl
  | cons next rs ih =>
      have hnext := ih next fun x hx => hrs x (List.mem_cons_of_mem _ hx)
      rw [if_neg (hrs next List.mem_cons_self), Option.or_none] at hnext
      rw [windows, straddles, lastMatch_cons, lastMatch_append, lastMatch_append, haligned, hnext]

theorem lastResult_cons (pr : PrepareResult) (rs : List PrepareResult) : lastResult txn_id (pr :: rs) =
    (lastResult txn_id rs).or (if pr.txn_id = txn_id then some pr.prepare_res else none) :=
  foldl_last rs _

/-- **The last match** in the file. -/
theorem lastMatch_windows (txn_id : txn_id_t) (rs : List PrepareResult) : lastMatch txn_id (windows rs) =
    (lastMatch txn_id (straddles (sinceLast txn_id rs))).or ((lastResult txn_id rs).map boolByte) := by
  induction rs with
  | nil => rfl
  | cons pr rs ih =>
      rw [sinceLast, lastResult_cons]
      by_cases hany : rs.any (fun pr => pr.txn_id = txn_id) = true
      · -- a later record has the id
        obtain ⟨x, hx, hid⟩ := List.any_eq_true.mp hany
        obtain ⟨v, hv⟩ : ∃ v, lastResult txn_id rs = some v := by
          obtain ⟨before, after, rfl⟩ := List.append_of_mem hx
          rw [lastResult, List.foldl_append, List.foldl_cons, if_pos (of_decide_eq_true hid), foldl_last]
          cases after.foldl _ none <;> exact ⟨_, rfl⟩
        obtain ⟨next, rs, rfl⟩ := List.exists_cons_of_ne_nil (List.ne_nil_of_mem hx)
        rw [if_pos hany, windows, lastMatch_cons, lastMatch_append, ih, hv]
        cases lastMatch txn_id (straddles (sinceLast txn_id (next :: rs))) <;> rfl
      · have hnone : ∀ x ∈ rs, x.txn_id ≠ txn_id := fun x hx hid =>
          hany (List.any_eq_true.mpr ⟨x, hx, decide_eq_true hid⟩)
        have hlast : lastResult txn_id rs = none := foldl_last_none hnone none
        rw [if_neg hany, lastMatch_windows_cons pr hnone, hlast, Option.none_or]
        split <;> rfl

/-- The result that was written last for the id; `false` if there is none. -/
def expected (txn_id : txn_id_t) (rs : List PrepareResult) : Bool := (lastResult txn_id rs).getD false

/-- **The backup returns what was last recorded** if and only if what is taken for a record of the transaction between two
    of the records behind its last one, if anything is, ends with the same result. -/
theorem reads_last_iff (txn_id : txn_id_t) (rs : List PrepareResult) :
    (written rs).ReadBackwards txn_id = some (expected txn_id rs) ↔
      ∀ b, lastMatch txn_id (straddles (sinceLast txn_id rs)) = some b → b = boolByte (expected txn_id rs) := by
  rw [ReadBackwards_eq, lastMatch_windows]
  cases hmatch : lastMatch txn_id (straddles (sinceLast txn_id rs)) with
  | none =>
      rw [Option.none_or]
      refine ⟨fun _ b hb => (by cases hb), fun _ => ?_⟩
      rw [expected]
      cases lastResult txn_id rs with
      | none => rfl
      | some v => exact byteBool_eq_some.mpr rfl
  | some b =>
      rw [Option.some_or]
      constructor
      · rintro h b' hb'
        obtain rfl := Option.some.inj hb'
        exact byteBool_eq_some.mp h
      · exact fun h => byteBool_eq_some.mpr (h b rfl)

/-- Transaction 1 is not recorded: the result of transaction 5, with the beginning of the id 257 behind it, looks like it. -/
theorem reads_wrong : (written [⟨5, true⟩, ⟨257, false⟩]).ReadBackwards 1 = some true ∧
    expected 1 [⟨5, true⟩, ⟨257, false⟩] = false := by
  decide

end CoordinatorBackup
end DDBMS
