import DDBMS.Storage.BlockRestarts
import Mathlib.Data.List.TakeWhile

/-!
# `Storage.BlockSeek` — seeking in a block

`SeekToLast` starts at the last restart point and `Seek` at the first entry, and both walk. In a block with an entry
they end where they should (`SeekToLastRight`, `SeekRight`), with the key and the value of that place loaded. A block
without entries still has the restart point `0`: `SeekToLast` loads what is not there, and `Seek` begins with it.
-/

namespace DDBMS

namespace Block

variable {b : Block} {es done todo : List (Bytes × Bytes)} {e : Bytes × Bytes} {key : Bytes}

/-- A block that a builder produced from the entries `es`. -/
def Produced (es : List (Bytes × Bytes)) (b : Block) : Prop :=
  ∃ bb c bb', ({} : BlockBuilder).addAll es = some bb ∧ bb.finish = some (c, bb') ∧ Block.new c = some b

theorem Produced.restarts (h : Produced es b) : b.Restarts es ∧ SortedAssoc.Sorted es := by
  obtain ⟨bb, c, bb', hadd, hfin, hnew⟩ := h
  obtain ⟨b', hnew', h'⟩ := restarts_of_finish (BlockBuilder.marked_nil.addAll_some hadd) hfin
  obtain rfl := Option.some.inj (hnew.symm.trans hnew')
  exact ⟨h', BlockBuilder.marked_nil.addAll_sorted List.Pairwise.nil hadd⟩

/-- The last restart point is one of the entries. -/
theorem Restarts.getLast?_restarts (h : b.Restarts es) (hne : es ≠ []) :
    ∃ i, i < es.length ∧ b.restarts_.getLast? = some (entryOffset es i) := by
  refine ⟨StorageOption.RESTART_INTERVAL * ((es.length - 1) / StorageOption.RESTART_INTERVAL), ?_, ?_⟩
  · have hpos := List.length_pos_iff.mpr hne
    have hle := restart_le (Nat.lt_succ_self ((es.length - 1) / StorageOption.RESTART_INTERVAL))
    omega
  · rw [h.restarts, restartOffsets, restartCount, List.range_succ, List.map_append, List.map_singleton,
      List.getLast?_concat]

namespace Iter

variable {it : Iter}

/-- The iterator stands on the entry at position `i`, with the key and the value of that entry. -/
structure StandsOn (b : Block) (es : List (Bytes × Bytes)) (i : Nat) (it : Iter) : Prop where
  current : it.current_ = entryOffset es i
  loaded : ∃ e, es[i]? = some e ∧ it.Key b = some e.1 ∧ it.Value b = some e.2

/-- `SeekToLast` ends on the last entry, or is invalid if there is none. -/
def SeekToLastRight (b : Block) (es : List (Bytes × Bytes)) (it : Iter) : Prop :=
  ∃ it', it.SeekToLast b = some it' ∧
    (es ≠ [] ∧ it'.StandsOn b es (es.length - 1) ∨ es = [] ∧ it'.Valid b = false)

/-- The iterator stands on the first entry whose key is not less, or is invalid if there is none. -/
def AtFirst (b : Block) (es : List (Bytes × Bytes)) (key : Bytes) (it : Iter) : Prop :=
  (∃ i, it.StandsOn b es i ∧ (∀ e, es[i]? = some e → key ≤ e.1) ∧ ∀ j e, j < i → es[j]? = some e → e.1 < key) ∨
    (∀ e ∈ es, e.1 < key) ∧ it.Valid b = false

def SeekRight (b : Block) (es : List (Bytes × Bytes)) (key : Bytes) (it : Iter) : Prop :=
  ∃ it', it.Seek b key = some it' ∧ it'.AtFirst b es key

theorem At.standsOn (h : At b done (e :: todo) it) : it.StandsOn b (done ++ e :: todo) done.length := by
  refine ⟨?_, e, by simp, h.key_value⟩
  rw [h.current, entryOffset_append le_rfl, entryOffset_length]

theorem At.invalid (h : At b done [] it) : it.Valid b = false := by
  rw [Bool.eq_false_iff, Ne, h.valid_iff]
  simp

/-- Loading an entry that is there. -/
theorem extract_spec (h : b.Reads (done ++ e :: todo)) (hc : it.current_ = (encodeEntries done).length) :
    ∃ it', it.extract_keyvalue b = some it' ∧ At b done (e :: todo) it' := by
  obtain ⟨it', hload, hat⟩ := load_spec h hc
  have hvalid : it.Valid b = true := by
    rw [Valid, decide_eq_true_eq, hc]
    exact h.lt_iff.mpr (by simp)
  rw [if_pos hvalid] at hload
  exact ⟨it', hload, hat⟩

/-- The end test of `SeekToLast` asks whether there is another entry. -/
theorem At.next_lt_iff (h : At b done (e :: todo) it) :
    it.current_ + 8 * 2 + it.key_.length + it.value_.length < b.restart_offset_ ↔ todo ≠ [] := by
  obtain ⟨hk, hv⟩ := h.loaded e rfl
  have hreads : b.Reads ((done ++ [e]) ++ todo) := by simpa using h.reads
  rw [← hreads.lt_iff, h.current, hk, hv]
  simp only [encodeEntries_append, encodeEntries_cons, encodeEntries_nil, List.append_nil, List.length_append,
    length_encodeEntry]
  constructor <;> intro hlt <;> omega

/-- The loop of `SeekToLast` walks to the last entry. -/
theorem lastLoop_spec : ∀ (todo done : List (Bytes × Bytes)) (e : Bytes × Bytes) (it : Iter) (fuel : Nat),
    At b done (e :: todo) it → todo.length < fuel →
    ∃ it', lastLoop b fuel it = some it' ∧ it'.StandsOn b (done ++ e :: todo) (done.length + todo.length) := by
  intro todo
  induction todo with
  | nil =>
      intro done e it fuel h hfuel
      obtain ⟨fuel, rfl⟩ := Nat.exists_eq_add_one_of_ne_zero (Nat.ne_of_gt hfuel)
      have hend := not_lt.mp (mt h.next_lt_iff.mp (not_not.mpr rfl))
      exact ⟨it, by rw [lastLoop, if_pos hend], h.standsOn⟩
  | cons f todo ih =>
      intro done e it fuel h hfuel
      obtain ⟨fuel, rfl⟩ := Nat.exists_eq_add_one_of_ne_zero (Nat.ne_of_gt (Nat.zero_lt_of_lt hfuel))
      have hgo : ¬ b.restart_offset_ ≤ it.current_ + 8 * 2 + it.key_.length + it.value_.length :=
        not_le.mpr (h.next_lt_iff.mpr (by simp))
      obtain ⟨it₁, hnext, h₁⟩ := h.next
      obtain ⟨it', hloop, hon⟩ := ih (done ++ [e]) f it₁ fuel h₁ (by simpa using hfuel)
      refine ⟨it', ?_, ?_⟩
      · rw [lastLoop]
        simp only [if_neg hgo, hnext, Option.bind_eq_bind, Option.bind_some, hloop]
      · have hlen : (done ++ [e]).length + todo.length = done.length + (f :: todo).length := by
          simp only [List.length_append, List.length_cons, List.length_nil]
          omega
        rwa [List.append_assoc, hlen] at hon

/-- **`SeekToLast`** where there is an entry. -/
theorem seekToLast_spec (h : b.Restarts es) (hne : es ≠ []) (it : Iter) :
    ∃ it', it.SeekToLast b = some it' ∧ it'.StandsOn b es (es.length - 1) := by
  obtain ⟨i, hi, hlast⟩ := h.getLast?_restarts hne
  have hsplit : es.take i ++ es[i] :: es.drop (i + 1) = es := by
    rw [List.getElem_cons_drop, List.take_append_drop]
  have hreads : b.Reads (es.take i ++ es[i] :: es.drop (i + 1)) := by rw [hsplit]; exact h.reads
  have hcurrent : ({ it with current_ := entryOffset es i } : Iter).current_ = (encodeEntries (es.take i)).length := rfl
  obtain ⟨it₁, hload, hat⟩ := extract_spec hreads hcurrent
  have hlen := length_le_encodeEntries es
  obtain ⟨it', hloop, hon⟩ := lastLoop_spec _ _ _ it₁ (b.restart_offset_ + 1) hat
    (by rw [List.length_drop, h.reads.restart_offset]; omega)
  refine ⟨it', ?_, ?_⟩
  · simp only [SeekToLast, hlast, Option.bind_eq_bind, Option.bind_some, hload, hloop]
  · have hpos : (es.take i).length + (es.drop (i + 1)).length = es.length - 1 := by
      rw [List.length_take, List.length_drop]
      omega
    rwa [hsplit, hpos] at hon

theorem At.atFirst (h : At b done (e :: todo) it) (hless : ∀ x ∈ done, x.1 < key) (hge : key ≤ e.1) :
    it.AtFirst b (done ++ e :: todo) key := by
  refine Or.inl ⟨done.length, h.standsOn, ?_, ?_⟩
  · intro x hx
    rw [List.getElem?_append_right le_rfl, Nat.sub_self, List.getElem?_cons_zero] at hx
    rwa [← Option.some.inj hx]
  · intro j x hj hx
    rw [List.getElem?_append_left hj] at hx
    exact hless x (List.mem_of_getElem? hx)

/-- The loop of `Seek` passes the entries with a smaller key. -/
theorem seekLoop_spec : ∀ (todo done : List (Bytes × Bytes)) (e : Bytes × Bytes) (it : Iter) (fuel : Nat),
    At b done (e :: todo) it → (∀ x ∈ done, x.1 < key) → todo.length < fuel →
    ∃ it', seekLoop b key fuel it = some it' ∧ it'.AtFirst b (done ++ e :: todo) key := by
  intro todo
  induction todo with
  | nil =>
      intro done e it fuel h hless hfuel
      obtain ⟨fuel, rfl⟩ := Nat.exists_eq_add_one_of_ne_zero (Nat.ne_of_gt hfuel)
      rw [seekLoop, (h.loaded e rfl).1]
      by_cases hlt : e.1 < key
      · obtain ⟨it₁, hnext, h₁⟩ := h.next
        refine ⟨it₁, ?_, Or.inr ⟨?_, h₁.invalid⟩⟩
        · simp [if_pos hlt, hnext, h₁.invalid]
        · intro x hx
          rcases List.mem_append.mp hx with hx | hx
          · exact hless x hx
          · rwa [List.mem_singleton.mp hx]
      · exact ⟨it, if_neg hlt, h.atFirst hless (not_lt.mp hlt)⟩
  | cons f todo ih =>
      intro done e it fuel h hless hfuel
      obtain ⟨fuel, rfl⟩ := Nat.exists_eq_add_one_of_ne_zero (Nat.ne_of_gt (Nat.zero_lt_of_lt hfuel))
      rw [seekLoop, (h.loaded e rfl).1]
      by_cases hlt : e.1 < key
      · obtain ⟨it₁, hnext, h₁⟩ := h.next
        have hvalid : it₁.Valid b = true := h₁.valid_iff.mpr (by simp)
        have hless₁ : ∀ x ∈ done ++ [e], x.1 < key := by
          intro x hx
          rcases List.mem_append.mp hx with hx | hx
          · exact hless x hx
          · rwa [List.mem_singleton.mp hx]
        obtain ⟨it', hloop, hfirst⟩ := ih (done ++ [e]) f it₁ fuel h₁ hless₁ (by simpa using hfuel)
        rw [List.append_assoc] at hfirst
        refine ⟨it', ?_, hfirst⟩
        simp only [if_pos hlt, hnext, Option.bind_eq_bind, Option.bind_some, if_pos hvalid, hloop]
      · exact ⟨it, if_neg hlt, h.atFirst hless (not_lt.mp hlt)⟩

/-- **`Seek`** where there is an entry. -/
theorem seek_spec (h : b.Restarts es) (hsorted : SortedAssoc.Sorted es) (hne : es ≠ []) (key : Bytes) (it : Iter) :
    it.SeekRight b es key := by
  obtain ⟨it₁, hlast, hon⟩ := seekToLast_spec h hne it
  obtain ⟨top, htop, hkey, -⟩ := hon.loaded
  have hkey₁ : it₁.key_ = top.1 := by
    have hvalid : it₁.Valid b = true := by
      rw [Key] at hkey
      by_contra hnot
      simp [hnot] at hkey
    simpa [Key, hvalid] using hkey
  rw [SeekRight, Seek, hlast]
  simp only [Option.bind_eq_bind, Option.bind_some, hkey₁]
  by_cases hlt : top.1 < key
  · refine ⟨_, if_pos hlt, Or.inr ⟨fun e he => ?_, by simp [Valid]⟩⟩
    obtain ⟨i, hi, rfl⟩ := List.mem_iff_getElem.mp he
    have hi' : i ≤ es.length - 1 := by omega
    have htop' : es[es.length - 1] = top := by
      rw [List.getElem?_eq_getElem (by omega)] at htop
      exact Option.some.inj htop
    rcases Nat.lt_or_eq_of_le hi' with hlow | rfl
    · have hmono := List.pairwise_iff_getElem.mp hsorted i (es.length - 1) hi (by omega) hlow
      exact lt_trans (htop' ▸ hmono) hlt
    · rwa [htop']
  · obtain ⟨e, todo, rfl⟩ := List.exists_cons_of_ne_nil hne
    obtain ⟨it₂, hfirst, hat⟩ := seekToFirst_spec h.reads it₁
    have hlen := length_le_encodeEntries (e :: todo)
    rw [List.length_cons] at hlen
    obtain ⟨it', hloop, hend⟩ := seekLoop_spec todo [] e it₂ (b.restart_offset_ + 1) hat (by simp)
      (by rw [h.reads.restart_offset]; omega)
    exact ⟨it', by rw [if_neg hlt, hfirst, Option.bind_some, hloop], hend⟩

/-- Without entries the first load asks for an entry that is not there. -/
theorem seekToLast_nil (h : b.Restarts []) (it : Iter) : it.SeekToLast b = none := by
  have hoff : b.restart_offset_ = 0 := h.reads.restart_offset
  have hlast : b.restarts_.getLast? = some 0 := by rw [h.restarts]; rfl
  simp [SeekToLast, hlast, extract_keyvalue, Valid, hoff]

/-- **Seeking is right exactly in a block with an entry.** -/
theorem seeks_right_iff (h : Produced es b) (it : Iter) :
    (it.SeekToLastRight b es ∧ ∀ key, it.SeekRight b es key) ↔ es ≠ [] := by
  obtain ⟨hr, hsorted⟩ := h.restarts
  constructor
  · rintro ⟨⟨it', hlast, -⟩, -⟩ rfl
    rw [seekToLast_nil hr] at hlast
    cases hlast
  · intro hne
    obtain ⟨it', hlast, hon⟩ := seekToLast_spec hr hne it
    exact ⟨⟨it', hlast, Or.inl ⟨hne, hon⟩⟩, fun key => seek_spec hr hsorted hne key it⟩

end Iter

/-- The block that a builder finishes without any `add`. -/
def emptyBlock : Block := ⟨leBytes 8 1 ++ leBytes 8 0 ++ leBytes 8 0, 0, 1, [0]⟩

theorem produced_emptyBlock : Produced [] emptyBlock :=
  ⟨{}, emptyBlock.block_content_, ⟨emptyBlock.block_content_, [], [0], 0, true⟩, rfl, rfl, rfl⟩

/-- Three entries, the second without a value. -/
def threeEntries : List (Bytes × Bytes) := [([1], [2]), ([1, 7], []), ([3], [4, 5])]

theorem Iter.seeks_right_iff_threeEntries : ∃ b, Produced threeEntries b ∧
    (((NewIterator b).SeekToLastRight b threeEntries ∧ ∀ key, (NewIterator b).SeekRight b threeEntries key) ↔
      threeEntries ≠ []) := by
  have h : Produced threeEntries
      ⟨encodeEntry [1] [2] ++ encodeEntry [1, 7] [] ++ encodeEntry [3] [4, 5] ++ leBytes 8 1 ++ leBytes 8 0 ++ leBytes 8 55,
        55, 1, [0]⟩ :=
    ⟨⟨encodeEntry [1] [2] ++ encodeEntry [1, 7] [] ++ encodeEntry [3] [4, 5], [3], [0], 3, false⟩, _,
      ⟨_, [3], [0], 3, true⟩, rfl, rfl, rfl⟩
  exact ⟨_, h, Iter.seeks_right_iff h _⟩

/-- A block without entries: both seeks fail an assertion. -/
theorem Iter.seeks_wrong_on_empty : Produced [] emptyBlock ∧
    ¬ (NewIterator emptyBlock).SeekToLastRight emptyBlock [] ∧
    ¬ (NewIterator emptyBlock).SeekRight emptyBlock [] [97] := by
  have hnone := Iter.seekToLast_nil produced_emptyBlock.restarts.1 (NewIterator emptyBlock)
  refine ⟨produced_emptyBlock, ?_, ?_⟩
  · rintro ⟨it', h, -⟩
    rw [hnone] at h
    cases h
  · rintro ⟨it', h, -⟩
    rw [Iter.Seek, hnone] at h
    cases h

end Block
end DDBMS
