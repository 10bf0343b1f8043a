import DDBMS.Lib.Scan
import DDBMS.Storage.BlockCodec

/-!
# `Storage.BlockScan` — scanning a block of arbitrary bytes

Blocks are read from disk without a check, so the length fields of an entry can be anything. Here the offsets are what
the code has, `uint64_t`s that wrap around, and one turn of each loop is a function of its own (`Word.getTurn`,
`Word.advance`).

The iterator adds up the lengths of the strings it has cut out of the block, which are inside it, so it moves forward
whatever the bytes are. `Block::get` adds up the length fields. It moves forward unless the sum of an entry carries
(`Carries`), and then it can go round in circles.
-/

namespace DDBMS
namespace Block

open StateTransition

/-- A `uint64_t`. -/
def word (n : Nat) : Nat := n % 2 ^ 64

theorem word_of_lt {n : Nat} (h : n < 2 ^ 64) : word n = n := Nat.mod_eq_of_lt h

namespace Word

/-- What one turn of the loop of `get` does. -/
inductive Turn where
  | found (value : Bytes)
  | notFound
  | next (pos : Nat)
  deriving Repr, DecidableEq

def getTurn (b : Block) (key : Bytes) (pos : Nat) : Option Turn :=
  if pos < b.restart_offset_ then do
    let key_size ← readAt 8 b.block_content_ pos
    let value_offset := word (pos + 8 + key_size)
    let value_size ← readAt 8 b.block_content_ value_offset
    let s ← substr b.block_content_ (word (pos + 8)) key_size
    if s = key then
      let value ← substr b.block_content_ (word (value_offset + 8)) value_size
      some (.found value)
    else some (.next (word (value_offset + value_size + 8)))
  else some .notFound

/-- The next position of the loop of `get`; it ends with a result or with an error. -/
def getNext (b : Block) (key : Bytes) (pos : Nat) : Option Nat :=
  match getTurn b key pos with
  | some (.next pos) => some pos
  | _ => none

def extract_keyvalue (b : Block) (it : Iter) : Option Iter := do
  guard (it.Valid b = true)
  let key_size ← readAt 8 b.block_content_ it.current_
  let key ← substr b.block_content_ (word (it.current_ + 8)) key_size
  let value_offset := word (it.current_ + 8 + key_size)
  let value_size ← readAt 8 b.block_content_ value_offset
  let value ← substr b.block_content_ (word (value_offset + 8)) value_size
  some { it with key_ := key, value_ := value }

def SeekToFirst (b : Block) (it : Iter) : Option Iter :=
  let it := { it with current_ := 0 }
  if it.Valid b then extract_keyvalue b it else some it

def Next (b : Block) (it : Iter) : Option Iter :=
  let it := { it with current_ := word (it.current_ + (8 * 2 + it.key_.length + it.value_.length)) }
  if it.Valid b then extract_keyvalue b it else some it

/-- A traversal calls `Next` while the iterator is valid; it ends there or with an error. -/
def advance (b : Block) (it : Iter) : Option Iter := if it.Valid b then Next b it else none

end Word

/-- The restart offset is inside the content, which is a string. -/
structure Inside (b : Block) : Prop where
  restart : b.restart_offset_ ≤ b.block_content_.length
  size : b.block_content_.length ≤ max_size

/-- Both scans end, and every turn moves their position forward. -/
structure ScansEnd (b : Block) : Prop where
  get : ∀ key, Halts (Word.getNext b key) 0 ∧ Increases (Word.getNext b key) id 0
  iter : ∀ it first, Word.SeekToFirst b it = some first →
    Halts (Word.advance b) first ∧ Increases (Word.advance b) Iter.current_ first

/-! ## Entries -/

/-- The length fields of an entry at `pos`. -/
def lengthsAt (b : Block) (pos : Nat) : Option (Nat × Nat) := do
  let key_size ← readAt 8 b.block_content_ pos
  let value_size ← readAt 8 b.block_content_ (word (pos + 8 + key_size))
  some (key_size, value_size)

/-- The lengths of an entry at `pos`, with the two fields themselves, add up to zero or run over the end of the words. -/
def Carries (pos key_size value_size : Nat) : Prop :=
  word (8 * 2 + key_size + value_size) = 0 ∨ 2 ^ 64 ≤ pos + word (8 * 2 + key_size + value_size)

/-- Entries stand at the start of the block, and each behind another one. -/
inductive EntryAt (b : Block) : Nat → Prop where
  | first : 0 < b.restart_offset_ → EntryAt b 0
  | behind {pos key_size value_size : Nat} : EntryAt b pos → b.lengthsAt pos = some (key_size, value_size) →
      word (pos + (8 * 2 + key_size + value_size)) < b.restart_offset_ →
      EntryAt b (word (pos + (8 * 2 + key_size + value_size)))

variable {b : Block} {key : Bytes} {pos pos' key_size value_size : Nat}

theorem EntryAt.lt (h : b.EntryAt pos) : pos < b.restart_offset_ := by
  cases h with
  | first h => exact h
  | behind _ _ h => exact h

theorem readAt_fits {n : Nat} (h : readAt 8 b.block_content_ pos = some n) : pos + 8 ≤ b.block_content_.length := by
  unfold readAt at h
  split at h
  · assumption
  · cases h

theorem lengthsAt_eq_some_iff : b.lengthsAt pos = some (key_size, value_size) ↔
    readAt 8 b.block_content_ pos = some key_size ∧
      readAt 8 b.block_content_ (word (pos + 8 + key_size)) = some value_size := by
  simp only [lengthsAt, Option.bind_eq_bind, Option.bind_eq_some_iff, Option.some.injEq, Prod.mk.injEq]
  constructor
  · rintro ⟨k, hk, v, hv, rfl, rfl⟩
    exact ⟨hk, hv⟩
  · rintro ⟨hk, hv⟩
    exact ⟨key_size, hk, value_size, hv, rfl, rfl⟩

/-- Without a carry the position moves forward by the lengths. -/
theorem lt_word_add_iff {d : Nat} (hpos : pos < 2 ^ 64) :
    pos < word (pos + d) ↔ ¬ (word d = 0 ∨ 2 ^ 64 ≤ pos + word d) := by
  unfold word
  omega

theorem word_next : word (word (pos + 8 + key_size) + value_size + 8) = word (pos + (8 * 2 + key_size + value_size)) := by
  unfold word
  omega

theorem length_substr_le {s t : Bytes} {pos count : Nat} (h : substr s pos count = some t) :
    pos ≤ s.length ∧ t.length ≤ s.length - pos := by
  unfold substr at h
  split at h
  · obtain rfl := Option.some.inj h
    rename_i hpos
    refine ⟨hpos, ?_⟩
    rw [List.length_take, List.length_drop]
    exact min_le_right _ _
  · cases h

/-! ## `get` -/

theorem getNext_eq_some (h : Word.getNext b key pos = some pos') :
    pos < b.restart_offset_ ∧ ∃ key_size value_size, b.lengthsAt pos = some (key_size, value_size) ∧
      pos' = word (pos + (8 * 2 + key_size + value_size)) := by
  unfold Word.getNext at h
  split at h
  · rename_i q hturn
    obtain rfl := Option.some.inj h
    unfold Word.getTurn at hturn
    split at hturn
    · rename_i hlt
      simp only [Option.bind_eq_bind, Option.bind_eq_some_iff] at hturn
      obtain ⟨key_size, hk, value_size, hv, s, -, hturn⟩ := hturn
      refine ⟨hlt, key_size, value_size, lengthsAt_eq_some_iff.mpr ⟨hk, hv⟩, ?_⟩
      split at hturn
      · obtain ⟨value, -, hturn⟩ := Option.bind_eq_some_iff.mp hturn
        cases hturn
      · cases hturn
        exact word_next
    · cases hturn
  · cases h

/-- A key that is too long is not found, so its scan passes every entry. -/
theorem getNext_of_long (hin : b.Inside) (hkey : b.block_content_.length < key.length) (hlt : pos < b.restart_offset_)
    (h : b.lengthsAt pos = some (key_size, value_size)) :
    Word.getNext b key pos = some (word (pos + (8 * 2 + key_size + value_size))) := by
  obtain ⟨hk, hv⟩ := lengthsAt_eq_some_iff.mp h
  have hfits := readAt_fits hk
  have hsize := hin.size
  have hword : word (pos + 8) = pos + 8 := word_of_lt (by unfold max_size at hsize; omega)
  have hs : substr b.block_content_ (pos + 8) key_size =
      some ((b.block_content_.drop (pos + 8)).take key_size) := if_pos hfits
  have hne : (b.block_content_.drop (pos + 8)).take key_size ≠ key := by
    intro heq
    have hle := (length_substr_le hs).2
    rw [heq] at hle
    omega
  have hturn : Word.getTurn b key pos = some (.next (word (pos + (8 * 2 + key_size + value_size)))) := by
    unfold Word.getTurn
    rw [if_pos hlt]
    simp only [hk, hv, hword, hs, Option.bind_eq_bind, Option.bind_some, if_neg hne, word_next]
  rw [Word.getNext, hturn]

/-- The scan for a key stands on entries. -/
theorem EntryAt.of_reaches (h : Reaches (Word.getNext b key) 0 pos) (hlt : pos < b.restart_offset_) :
    b.EntryAt pos := by
  induction h with
  | refl => exact .first hlt
  | tail _ hstep ih =>
      obtain ⟨hpos, key_size, value_size, hlen, rfl⟩ := getNext_eq_some hstep
      exact .behind (ih hpos) hlen hlt

/-- The scan for a key that is too long comes to every entry. -/
theorem EntryAt.reaches (hin : b.Inside) (hkey : b.block_content_.length < key.length) (h : b.EntryAt pos) :
    Reaches (Word.getNext b key) 0 pos := by
  induction h with
  | first => exact Relation.ReflTransGen.refl
  | behind hat hlen _ ih => exact ih.tail (getNext_of_long hin hkey hat.lt hlen)

/-- No entry of the block carries. -/
def NoCarry (b : Block) : Prop :=
  ∀ pos key_size value_size, b.EntryAt pos → b.lengthsAt pos = some (key_size, value_size) →
    ¬ Carries pos key_size value_size

theorem Inside.lt_word (hin : b.Inside) (hlt : pos < b.restart_offset_) : pos < 2 ^ 64 := by
  have hrestart := hin.restart
  have hsize := hin.size
  unfold max_size at hsize
  omega

theorem NoCarry.increases (hin : b.Inside) (h : b.NoCarry) (key : Bytes) : Increases (Word.getNext b key) id 0 := by
  intro pos pos' hreach hnext
  obtain ⟨hlt, key_size, value_size, hlen, rfl⟩ := getNext_eq_some hnext
  exact (lt_word_add_iff (hin.lt_word hlt)).mpr (h pos key_size value_size (.of_reaches hreach hlt) hlen)

theorem NoCarry.of_increases (hin : b.Inside) (hkey : b.block_content_.length < key.length)
    (h : Increases (Word.getNext b key) id 0) : b.NoCarry := by
  intro pos key_size value_size hat hlen
  exact (lt_word_add_iff (hin.lt_word hat.lt)).mp
    (h pos _ (hat.reaches hin hkey) (getNext_of_long hin hkey hat.lt hlen))

/-- What the loop of `get` answers from one turn on. -/
def Word.Turn.answer (go : Nat → Option (Bool × Bytes)) : Word.Turn → Option (Bool × Bytes)
  | .found value => some (true, value)
  | .notFound => some (false, [])
  | .next pos => go pos

/-- Where the sum stays inside the words, the turn is the one of `Block.getLoop`, which counts in `Nat`. -/
theorem getLoop_succ (hin : b.Inside) (fuel : Nat) (hsum : ∀ key_size value_size,
      b.lengthsAt pos = some (key_size, value_size) → pos + (8 * 2 + key_size + value_size) < 2 ^ 64) :
    b.getLoop key (fuel + 1) pos = (Word.getTurn b key pos).bind (Word.Turn.answer (b.getLoop key fuel)) := by
  rw [getLoop, Word.getTurn]
  split
  · rename_i hlt
    cases hk : readAt 8 b.block_content_ pos with
    | none => rfl
    | some key_size =>
        have hfits := readAt_fits hk
        have hsize := hin.size
        unfold max_size at hsize
        by_cases hwrap : pos + 8 + key_size < 2 ^ 64
        · simp only [Option.bind_eq_bind, Option.bind_some, word_of_lt hwrap]
          cases hv : readAt 8 b.block_content_ (pos + 8 + key_size) with
          | none => rfl
          | some value_size =>
              have hlen : b.lengthsAt pos = some (key_size, value_size) :=
                lengthsAt_eq_some_iff.mpr ⟨hk, by rwa [word_of_lt hwrap]⟩
              have hlt := hsum _ _ hlen
              simp only [Option.bind_some, word_of_lt (show pos + 8 < 2 ^ 64 by omega),
                word_of_lt (show pos + 8 + key_size + 8 < 2 ^ 64 by omega),
                word_of_lt (show pos + 8 + key_size + value_size + 8 < 2 ^ 64 by omega)]
              cases substr b.block_content_ (pos + 8) key_size with
              | none => rfl
              | some s =>
                  by_cases hs : s = key
                  · simp only [Option.bind_some, if_pos hs]
                    cases substr b.block_content_ (pos + 8 + key_size + 8) value_size <;> rfl
                  · simp only [Option.bind_some, if_neg hs]
                    rfl
        · -- a sum that wraps is outside the block in `Nat`, and in words it would be too long
          have hout : readAt 8 b.block_content_ (pos + 8 + key_size) = none := if_neg (by omega)
          have hnone : readAt 8 b.block_content_ (word (pos + 8 + key_size)) = none := by
            cases hv : readAt 8 b.block_content_ (word (pos + 8 + key_size)) with
            | none => rfl
            | some value_size =>
                have hlt := hsum _ _ (lengthsAt_eq_some_iff.mpr ⟨hk, hv⟩)
                omega
          simp only [Option.bind_eq_bind, Option.bind_some, hout, hnone, Option.bind_none]
  · rfl

/-! ## The iterator -/

/-- A valid iterator holds strings that it has cut out of the content behind its position. -/
def Cut (b : Block) (it : Iter) : Prop :=
  it.Valid b = true → it.current_ + 8 + it.key_.length ≤ b.block_content_.length ∧
    it.value_.length + 8 ≤ b.block_content_.length

theorem Cut.of_extract {it it' : Iter} (hin : b.Inside) (h : Word.extract_keyvalue b it = some it') :
    b.Cut it' ∧ it'.current_ = it.current_ := by
  simp only [Word.extract_keyvalue, Option.bind_eq_bind, Option.bind_eq_some_iff] at h
  obtain ⟨_, -, key_size, hk, key, hkey, value_size, hv, value, hvalue, hres⟩ := h
  obtain rfl := Option.some.inj hres
  have hsize := hin.size
  unfold max_size at hsize
  have hfits := readAt_fits hk
  have hfits' := readAt_fits hv
  obtain ⟨-, hklen⟩ := length_substr_le hkey
  obtain ⟨-, hvlen⟩ := length_substr_le hvalue
  rw [word_of_lt (by omega)] at hklen
  rw [word_of_lt (n := word (it.current_ + 8 + key_size) + 8) (by omega)] at hvlen
  exact ⟨fun _ => ⟨by show it.current_ + 8 + key.length ≤ _; omega, by show value.length + 8 ≤ _; omega⟩, rfl⟩

/-- Loading an entry, or standing at the end. -/
theorem Cut.of_load {it it' : Iter} (hin : b.Inside)
    (h : (if it.Valid b then Word.extract_keyvalue b it else some it) = some it') :
    b.Cut it' ∧ it'.current_ = it.current_ := by
  split at h
  · exact Cut.of_extract hin h
  · rename_i hinvalid
    obtain rfl := Option.some.inj h
    exact ⟨fun hvalid => absurd hvalid hinvalid, rfl⟩

theorem advance_lt {it it' : Iter} (h : Word.advance b it = some it') : it.current_ < b.restart_offset_ := by
  unfold Word.advance at h
  split at h
  · rename_i hvalid
    exact of_decide_eq_true hvalid
  · cases h

theorem Cut.advance {it it' : Iter} (hin : b.Inside) (hcut : b.Cut it) (h : Word.advance b it = some it') :
    b.Cut it' ∧ it.current_ < it'.current_ := by
  unfold Word.advance at h
  split at h
  · rename_i hvalid
    obtain ⟨hk, hv⟩ := hcut hvalid
    have hsize := hin.size
    unfold max_size at hsize
    obtain ⟨hcut', hcur⟩ := Cut.of_load hin h
    refine ⟨hcut', ?_⟩
    rw [hcur]
    show it.current_ < word _
    rw [word_of_lt (by omega)]
    omega
  · cases h

/-- **A traversal moves forward and ends**, whatever the bytes of the block are. -/
theorem Inside.iter_ends (hin : b.Inside) {it first : Iter} (h : Word.SeekToFirst b it = some first) :
    Halts (Word.advance b) first ∧ Increases (Word.advance b) Iter.current_ first := by
  obtain ⟨hfirst, -⟩ := Cut.of_load hin h
  have hcut : ∀ i, Reaches (Word.advance b) first i → b.Cut i := by
    intro i hreach
    induction hreach with
    | refl => exact hfirst
    | tail _ hstep ih => exact (ih.advance hin hstep).1
  have hinc : Increases (Word.advance b) Iter.current_ first :=
    fun i j hreach hstep => ((hcut i hreach).advance hin hstep).2
  exact ⟨hinc.halts fun _ _ => advance_lt, hinc⟩

/-- **Scans end exactly without a carry.** The traversals always end; the loop of `get` moves forward at every turn, and
    so ends, for every key if and only if no entry of the block carries. -/
theorem scansEnd_iff (hin : b.Inside) : b.ScansEnd ↔ b.NoCarry := by
  constructor
  · intro h
    have hkey : b.block_content_.length < (List.replicate (b.block_content_.length + 1) (0 : UInt8)).length := by simp
    exact .of_increases hin hkey (h.get _).2
  · intro h
    refine ⟨fun key => ?_, fun it first hfirst => hin.iter_ends hfirst⟩
    have hinc := h.increases hin key
    exact ⟨hinc.halts fun pos pos' hnext => (getNext_eq_some hnext).1, hinc⟩

/-- A block with one key size, `2 ^ 64 - 8`: the entry ends where it starts. -/
def corrupt : Bytes := leBytes 8 (2 ^ 64 - 8) ++ (leBytes 8 1 ++ (leBytes 8 0 ++ leBytes 8 8))

/-- The block opens, and the search for a key in it goes on forever. -/
theorem not_scansEnd_corrupt :
    ∃ b, Block.new corrupt = some b ∧ b.Inside ∧ ¬ Halts (Word.getNext b [97]) 0 ∧ ¬ b.ScansEnd := by
  have hnew : Block.new corrupt = some ⟨corrupt, 8, 1, [0]⟩ := rfl
  have hturn : Word.getNext ⟨corrupt, 8, 1, [0]⟩ [97] 0 = some 0 := by decide
  exact ⟨_, hnew, ⟨by decide, by decide⟩, not_halts_of_fixed hturn, fun h => not_halts_of_fixed hturn (h.get [97]).1⟩

/-- A block with the entries that a builder writes for two pairs. -/
def twoPairs : Bytes := encodeEntry [97] [98] ++ (encodeEntry [97, 98] [] ++ (leBytes 8 1 ++ (leBytes 8 0 ++ leBytes 8 36)))

/-- It is scanned to its end. -/
theorem scansEnd_iff_twoPairs : ∃ b, Block.new twoPairs = some b ∧ b.ScansEnd := by
  have hnew : Block.new twoPairs = some ⟨twoPairs, 36, 1, [0]⟩ := rfl
  have hlen : Block.lengthsAt ⟨twoPairs, 36, 1, [0]⟩ 0 = some (1, 1) := by decide
  have hlen₂ : Block.lengthsAt ⟨twoPairs, 36, 1, [0]⟩ 18 = some (2, 0) := by decide
  have hat : ∀ pos, EntryAt ⟨twoPairs, 36, 1, [0]⟩ pos → pos = 0 ∨ pos = 18 := by
    intro pos hat
    induction hat with
    | first => exact Or.inl rfl
    | behind _ hlen' hlt ih =>
        rcases ih with rfl | rfl
        · obtain ⟨rfl, rfl⟩ := Prod.mk.inj (Option.some.inj (hlen.symm.trans hlen'))
          exact Or.inr (by decide)
        · obtain ⟨rfl, rfl⟩ := Prod.mk.inj (Option.some.inj (hlen₂.symm.trans hlen'))
          exact absurd hlt (by decide)
  refine ⟨_, hnew, (scansEnd_iff ⟨by decide, by decide⟩).mpr fun pos key_size value_size hentry hlen' => ?_⟩
  rcases hat pos hentry with rfl | rfl
  · obtain ⟨rfl, rfl⟩ := Prod.mk.inj (Option.some.inj (hlen.symm.trans hlen'))
    unfold Carries
    decide
  · obtain ⟨rfl, rfl⟩ := Prod.mk.inj (Option.some.inj (hlen₂.symm.trans hlen'))
    unfold Carries
    decide

end Block
end DDBMS
