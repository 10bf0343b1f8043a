import DDBMS.Storage.DiskCrash
import DDBMS.Storage.SkipListMap

/-!
# `Storage.NewestTable` — which of the SSTables answers

Memtables are added one after the other, and a search should take the value of the last one that has the key (`newestHit`).
`LevelZero::search` walks from the oldest table to the newest and stops at the first hit, so it takes the one of the first
memtable (`oldestHit`). The two agree exactly when that memtable has the same value (`newest_wins_iff`).
-/

namespace DDBMS

/-- The value that a memtable has for a key. -/
def SkipList.valueOf (m : SkipList) (key : Bytes) : Option Bytes := (m.found key).join

/-- The value in the last memtable that has the key. -/
def newestHit (ms : List SkipList) (key : Bytes) : Option Bytes := ms.reverse.findSome? fun m => m.valueOf key

/-- The value in the first memtable that has the key. -/
def oldestHit (ms : List SkipList) (key : Bytes) : Option Bytes := ms.findSome? fun m => m.valueOf key

/-- Memtables are added under the numbers from `no` on. -/
def LevelZero.addAll (snappy : Snappy) : List SkipList → UInt64 → LevelZero × Dir → Option (LevelZero × Dir)
  | [], _, l => some l
  | m :: ms, no, l => do
    let l ← l.1.add snappy l.2 m no
    addAll snappy ms (no + 1) l

/-- `add(memtable_i, i)` for each of them, from a new directory. -/
def LevelZero.ofMemtables (snappy : Snappy) (ms : List SkipList) : Option (LevelZero × Dir) := do
  let l ← LevelZero.new {}
  addAll snappy ms 0 l

def DiskStorage.addAll (snappy : Snappy) : List SkipList → DiskStorage × Dir → Option (DiskStorage × Dir)
  | [], d => some d
  | m :: ms, d => do
    let d ← d.1.add snappy d.2 m
    addAll snappy ms d

/-- `add(memtable_i)` for each of them, from a new directory. -/
def DiskStorage.ofMemtables (snappy : Snappy) (ms : List SkipList) : Option (DiskStorage × Dir) := do
  let d ← DiskStorage.new {}
  addAll snappy ms d

variable {snappy : Snappy} {ms : List SkipList} {ess ssts : List (List (Bytes × Bytes))}

/-! ## The values of the memtables -/

theorem valueOf_holds {m : SkipList} {es : List (Bytes × Bytes)} (h : m.Holds es) (key : Bytes) :
    m.valueOf key = es.lookup key := by
  rw [SkipList.valueOf, SkipList.found, h.get, Option.map_some]
  cases es.lookup key <;> rfl

theorem oldestHit_holds (h : List.Forall₂ SkipList.Holds ms ess) (key : Bytes) : oldestHit ms key = firstHit ess key := by
  induction h with
  | nil => rfl
  | cons hm _ ih =>
      rw [oldestHit] at ih
      rw [oldestHit, firstHit, List.findSome?_cons, List.findSome?_cons, valueOf_holds hm, ih, firstHit]

theorem exists_holds (h : ∀ m ∈ ms, Reachable (FunStep SkipList.step) SkipList.new m) :
    ∃ ess, List.Forall₂ SkipList.Holds ms ess := by
  induction ms with
  | nil => exact ⟨[], .nil⟩
  | cons m ms ih =>
      obtain ⟨es, hrun⟩ := h m List.mem_cons_self
      obtain ⟨ess, hess⟩ := ih (fun m hm => h m (List.mem_cons_of_mem _ hm))
      exact ⟨_ :: ess, .cons (SkipList.holds_of_run hrun) hess⟩

/-! ## The tables -/

theorem LevelZero.addAll_tables (hms : List.Forall₂ SkipList.Holds ms ess) {no : UInt64} {l l' : LevelZero × Dir}
    (h : List.Forall₂ (TableFile snappy l.2) l.1.ssts_ ssts) (hno : ∀ n ∈ l.1.ssts_, n < no)
    (hroom : no.toNat + ms.length < 2 ^ 64) (hadd : addAll snappy ms no l = some l') :
    List.Forall₂ (TableFile snappy l'.2) l'.1.ssts_ (ssts ++ ess) := by
  induction hms generalizing no l ssts with
  | nil =>
      obtain rfl := Option.some.inj hadd
      rwa [List.append_nil]
  | @cons m es ms ess hm _ ih =>
      rw [List.length_cons] at hroom
      obtain ⟨l₁, hl, hrest⟩ := Option.bind_eq_some_iff.mp hadd
      obtain ⟨hssts, htables⟩ := add_tables h hm (fun hmem => absurd (hno _ hmem) (UInt64.lt_irrefl _)) hl
      have hsucc : (no + 1).toNat = no.toNat + 1 := toNat_succ (by omega)
      have hall := ih htables ?_ (by omega) hrest
      · rwa [List.append_assoc] at hall
      · -- the next number is above all of them
        intro n hn
        rw [UInt64.lt_iff_toNat_lt, hsucc]
        rcases List.mem_append.mp (hssts ▸ hn) with hn | hn
        · have := UInt64.lt_iff_toNat_lt.mp (hno n hn)
          omega
        · rw [List.mem_singleton.mp hn]
          omega

theorem DiskStorage.addAll_represents (hms : List.Forall₂ SkipList.Holds ms ess) {d d' : DiskStorage × Dir}
    (h : DiskRepresents snappy d.1 d.2 ssts) (hroom : ssts.length + ms.length < 2 ^ 64)
    (hadd : addAll snappy ms d = some d') : DiskRepresents snappy d'.1 d'.2 (ssts ++ ess) := by
  induction hms generalizing d ssts with
  | nil =>
      obtain rfl := Option.some.inj hadd
      rwa [List.append_nil]
  | @cons m es ms ess hm _ ih =>
      rw [List.length_cons] at hroom
      obtain ⟨d₁, hd, hrest⟩ := Option.bind_eq_some_iff.mp hadd
      have hall := ih (h.add hm (by omega) hd) (by rw [List.length_append, List.length_singleton]; omega) hrest
      rwa [List.append_assoc] at hall

/-- The adds succeed unless some memtable is too big. -/
theorem LevelZero.addAll_isSome (hms : List.Forall₂ SkipList.Holds ms ess) {g : Nat} (hg : snappy.Grows g)
    (hfit : ∀ es ∈ ess, Fits g es) (no : UInt64) (l : LevelZero × Dir) : ∃ l', addAll snappy ms no l = some l' := by
  induction hms generalizing no l with
  | nil => exact ⟨l, rfl⟩
  | @cons m es ms ess hm _ ih =>
      obtain ⟨file, hfile⟩ := TableBuilder.create_sstable_isSome hm hg (hfit es List.mem_cons_self)
      simp only [addAll, LevelZero.add, hfile, Option.bind_eq_bind, Option.bind_some]
      exact ih (fun es hes => hfit es (List.mem_cons_of_mem _ hes)) _ _

theorem DiskStorage.addAll_isSome (hms : List.Forall₂ SkipList.Holds ms ess) {g : Nat} (hg : snappy.Grows g)
    (hfit : ∀ es ∈ ess, Fits g es) (d : DiskStorage × Dir) : ∃ d', addAll snappy ms d = some d' := by
  induction hms generalizing d with
  | nil => exact ⟨d, rfl⟩
  | @cons m es ms ess hm _ ih =>
      obtain ⟨d₁, dir₁, hadd⟩ := DiskRepresents.add_isSome d.1 d.2 hm hg (hfit es List.mem_cons_self)
      simp only [addAll, hadd, Option.bind_eq_bind, Option.bind_some]
      exact ih (fun es hes => hfit es (List.mem_cons_of_mem _ hes)) _

/-- A search finds what the first memtable has. -/
theorem LevelZero.search_ofMemtables (hinv : snappy.Inverts) (hms : List.Forall₂ SkipList.Holds ms ess)
    (hlen : ms.length < 2 ^ 64) {l : LevelZero × Dir} (hl : ofMemtables snappy ms = some l) (key : Bytes) :
    l.1.search snappy l.2 key = some (lookupResult (oldestHit ms key)) := by
  rw [ofMemtables, Option.bind_eq_bind, Option.bind_eq_some_iff] at hl
  obtain ⟨l₀, hnew, hadd⟩ := hl
  obtain rfl := Option.some.inj hnew
  have hroom : UInt64.toNat 0 + ms.length < 2 ^ 64 := by simpa using hlen
  have htables := addAll_tables hms .nil (by intro n hn; cases hn) hroom hadd
  rw [oldestHit_holds hms]
  exact searchLoop_spec hinv htables key

theorem DiskStorage.search_ofMemtables (hinv : snappy.Inverts) (hms : List.Forall₂ SkipList.Holds ms ess)
    (hlen : ms.length < 2 ^ 64) {d : DiskStorage × Dir} (hd : ofMemtables snappy ms = some d) (key : Bytes) :
    d.1.search snappy d.2 key = some (lookupResult (oldestHit ms key)) := by
  rw [ofMemtables, Option.bind_eq_bind, Option.bind_eq_some_iff] at hd
  obtain ⟨d₀, hnew, hadd⟩ := hd
  have hstart : DiskRepresents snappy d₀.1 d₀.2 [] := by
    obtain rfl := Option.some.inj hnew
    exact ⟨.nil, by simp, rfl, rfl, rfl, rfl⟩
  have hall := addAll_represents hms hstart (by simpa using hlen) hadd
  rw [oldestHit_holds hms]
  exact searchLoop_spec hinv hall.tables key

/-! ## The newest table -/

/-- The last memtable that has the key answers. -/
def NewestWins (result : Option (Bool × Bytes)) (ms : List SkipList) (key : Bytes) : Prop :=
  result = some (lookupResult (newestHit ms key))

theorem newestWins_iff_of_oldest (ms : List SkipList) (key : Bytes) :
    NewestWins (some (lookupResult (oldestHit ms key))) ms key ↔ oldestHit ms key = newestHit ms key := by
  rw [NewestWins, Option.some.injEq]
  exact ⟨lookupResult_inj, fun h => by rw [h]⟩

/-- Two memtables of one pair each, and the tables of both. -/
theorem exists_tables (key value key' value' : Bytes) (hfit : Fits 3 [(key, value)]) (hfit' : Fits 3 [(key', value')]) :
    ∃ m m' l d, List.Forall₂ SkipList.Holds [m, m'] [[(key, value)], [(key', value')]] ∧
      (∀ x ∈ [m, m'], Reachable (FunStep SkipList.step) SkipList.new x) ∧
      LevelZero.ofMemtables SnappyLiterals.snappy [m, m'] = some l ∧
      DiskStorage.ofMemtables SnappyLiterals.snappy [m, m'] = some d := by
  obtain ⟨m, hm, hholds⟩ := Disk.exists_memtable key value
  obtain ⟨m', hm', hholds'⟩ := Disk.exists_memtable key' value'
  have hms : List.Forall₂ SkipList.Holds [m, m'] [[(key, value)], [(key', value')]] := .cons hholds (.cons hholds' .nil)
  have hfits : ∀ es ∈ [[(key, value)], [(key', value')]], Fits 3 es := by
    rintro es hes
    rcases List.mem_pair.mp hes with rfl | rfl
    · exact hfit
    · exact hfit'
  obtain ⟨l, hl⟩ := LevelZero.addAll_isSome hms SnappyLiterals.grows hfits 0 _
  obtain ⟨d, hd⟩ := DiskStorage.addAll_isSome hms SnappyLiterals.grows hfits _
  refine ⟨m, m', l, d, hms, ?_, hl, hd⟩
  rintro x hx
  rcases List.mem_pair.mp hx with rfl | rfl
  · exact hm
  · exact hm'

end DDBMS
