import DDBMS.Storage.BlockCodec
import Mathlib.Data.List.Range

/-!
# `Storage.BlockRestarts` — the restart points of a block

A builder notes the offset of every `RESTART_INTERVAL`-th entry (`Marked`), and `finish` writes these offsets behind
the entries. A block made of the content has them back (`Block.Restarts`), besides reading the entries; so the whole
of what was added comes back: the restart points, the entries in order, and each value by its key.
-/

namespace DDBMS

/-- The number of bytes in front of the entry at position `i`. -/
def entryOffset (es : List (Bytes × Bytes)) (i : Nat) : Nat := (encodeEntries (es.take i)).length

/-- How many restart points `n` entries have: one for each started interval, and one for no entry at all. -/
def restartCount (n : Nat) : Nat := (n - 1) / StorageOption.RESTART_INTERVAL + 1

/-- The offsets of the entries `0`, `RESTART_INTERVAL`, `2 * RESTART_INTERVAL`, … -/
def restartOffsets (es : List (Bytes × Bytes)) : List Nat :=
  (List.range (restartCount es.length)).map fun j => entryOffset es (StorageOption.RESTART_INTERVAL * j)

@[simp] theorem length_restartOffsets (es : List (Bytes × Bytes)) :
    (restartOffsets es).length = restartCount es.length := by
  simp [restartOffsets]

theorem entryOffset_append {es fs : List (Bytes × Bytes)} {i : Nat} (h : i ≤ es.length) :
    entryOffset (es ++ fs) i = entryOffset es i := by
  rw [entryOffset, List.take_append_of_le_length h, entryOffset]

theorem entryOffset_le (es : List (Bytes × Bytes)) (i : Nat) : entryOffset es i ≤ (encodeEntries es).length := by
  conv_rhs => rw [← List.take_append_drop i es]
  rw [encodeEntries_append, List.length_append, entryOffset]
  omega

@[simp] theorem entryOffset_length (es : List (Bytes × Bytes)) :
    entryOffset es es.length = (encodeEntries es).length := by
  rw [entryOffset, List.take_length]

/-- Restart points stand at entries that are there already. -/
theorem restart_le {n j : Nat} (h : j < restartCount n) : StorageOption.RESTART_INTERVAL * j ≤ n - 1 := by
  unfold restartCount StorageOption.RESTART_INTERVAL at *
  omega

/-- The intervals are full: the next entry gets a restart point. -/
theorem restartOffsets_append_full {es : List (Bytes × Bytes)} (e : Bytes × Bytes) (hne : es ≠ [])
    (hfull : (es.length - 1) % StorageOption.RESTART_INTERVAL + 1 = StorageOption.RESTART_INTERVAL) :
    restartOffsets (es ++ [e]) = restartOffsets es ++ [(encodeEntries es).length] := by
  have hpos := List.length_pos_iff.mpr hne
  have hcount : restartCount (es.length + 1) = restartCount es.length + 1 := by
    unfold restartCount StorageOption.RESTART_INTERVAL at *
    omega
  have hlast : StorageOption.RESTART_INTERVAL * restartCount es.length = es.length := by
    unfold restartCount StorageOption.RESTART_INTERVAL at *
    omega
  rw [restartOffsets, List.length_append, List.length_singleton, hcount, List.range_succ, List.map_append,
    List.map_singleton, hlast, entryOffset_append le_rfl, entryOffset_length, restartOffsets]
  refine congrArg (· ++ _) (List.map_congr_left fun j hj => ?_)
  have hle := restart_le (List.mem_range.mp hj)
  exact entryOffset_append (by omega)

/-- There is room in the interval: the restart points stay. -/
theorem restartOffsets_append_room {es : List (Bytes × Bytes)} (e : Bytes × Bytes)
    (hroom : es = [] ∨ (es.length - 1) % StorageOption.RESTART_INTERVAL + 1 ≠ StorageOption.RESTART_INTERVAL) :
    restartOffsets (es ++ [e]) = restartOffsets es := by
  have hcount : restartCount (es.length + 1) = restartCount es.length := by
    unfold restartCount StorageOption.RESTART_INTERVAL at *
    rcases hroom with rfl | hroom
    · rfl
    · omega
  rw [restartOffsets, List.length_append, List.length_singleton, hcount, restartOffsets]
  refine List.map_congr_left fun j hj => ?_
  have hle := restart_le (List.mem_range.mp hj)
  exact entryOffset_append (by omega)

/-- The content of a block: the entries, the restart points with their number, and where these words begin. -/
def blockContent (es : List (Bytes × Bytes)) : Bytes :=
  encodeEntries es ++ (leBytes 8 (restartOffsets es).length ++
    ((restartOffsets es).flatMap (leBytes 8) ++ leBytes 8 (encodeEntries es).length))

theorem length_blockContent (es : List (Bytes × Bytes)) :
    (blockContent es).length = (encodeEntries es).length + 8 * restartCount es.length + 16 := by
  simp only [blockContent, List.length_append, length_leBytes, length_flatMap_leBytes, length_restartOffsets]
  omega

namespace BlockBuilder

variable {b b' : BlockBuilder} {es fs : List (Bytes × Bytes)} {key value c : Bytes}

/-- The calls of `add`, one for each entry. -/
def addAll (b : BlockBuilder) (es : List (Bytes × Bytes)) : Option BlockBuilder :=
  es.foldlM (fun b e => b.add e.1 e.2) b

/-- The builder took the entries `es` and noted where the intervals start. -/
structure Marked (b : BlockBuilder) (es : List (Bytes × Bytes)) : Prop where
  built : Built b es
  offsets : b.restarts_ = restartOffsets es
  count : b.counter_ = if es = [] then 0 else (es.length - 1) % StorageOption.RESTART_INTERVAL + 1

theorem marked_nil : Marked {} [] := ⟨built_nil, rfl, rfl⟩

theorem marked_reset : Marked reset [] := marked_nil

/-- What `add` does besides appending. -/
theorem add_restarts (hadd : b.add key value = some b') :
    b'.restarts_ = b.restart.restarts_ ∧ b'.counter_ = b.restart.counter_ + 1 := by
  simp only [BlockBuilder.add, Option.bind_eq_bind, Option.bind_eq_some_iff] at hadd
  obtain ⟨-, -, -, -, -, -, u₁, -, u₂, -, u₃, -, u₄, -, hb'⟩ := hadd
  obtain rfl := Option.some.inj hb'
  exact ⟨rfl, rfl⟩

theorem Marked.add_some (h : Marked b es) (hadd : b.add key value = some b') :
    Marked b' (es ++ [(key, value)]) := by
  obtain ⟨hrestarts, hcounter⟩ := add_restarts hadd
  refine ⟨h.built.add_some hadd, ?_, ?_⟩
  · rw [hrestarts, BlockBuilder.restart]
    split
    · rename_i hfull
      have hne : es ≠ [] := by
        rintro rfl
        rw [h.count] at hfull
        exact absurd hfull (by decide)
      rw [h.count, if_neg hne] at hfull
      rw [restartOffsets_append_full _ hne hfull]
      show b.restarts_ ++ [b.buffer_.length] = _
      rw [h.offsets, h.built.buffer]
    · rename_i hroom
      rw [h.offsets]
      refine (restartOffsets_append_room _ ?_).symm
      by_cases hne : es = []
      · exact Or.inl hne
      · rw [h.count, if_neg hne] at hroom
        exact Or.inr hroom
  · have hsnoc : es ++ [(key, value)] ≠ [] := by simp
    have hc := h.count
    rw [if_neg hsnoc, hcounter, BlockBuilder.restart, List.length_append, List.length_singleton,
      Nat.add_sub_cancel]
    by_cases hne : es = []
    · subst hne
      rw [if_pos rfl] at hc
      rw [if_neg (by rw [hc]; decide), hc]
      rfl
    · have hpos := List.length_pos_iff.mpr hne
      rw [if_neg hne] at hc
      unfold StorageOption.RESTART_INTERVAL at *
      split
      · show 0 + 1 = _
        omega
      · omega

/-- A run of `add`s. -/
theorem Marked.addAll_some {fs : List (Bytes × Bytes)} (h : Marked b es) (hadd : b.addAll fs = some b') :
    Marked b' (es ++ fs) := by
  induction fs generalizing b es with
  | nil =>
      obtain rfl := Option.some.inj hadd
      rwa [List.append_nil]
  | cons e fs ih =>
      rw [addAll, List.foldlM_cons] at hadd
      obtain ⟨b₁, hb₁, hadd⟩ := Option.bind_eq_some_iff.mp hadd
      have h' := ih (h.add_some hb₁) hadd
      rwa [List.append_assoc] at h'

theorem Marked.addAll_sorted (h : Marked b es) (hsorted : SortedAssoc.Sorted es) (hadd : b.addAll fs = some b') :
    SortedAssoc.Sorted (es ++ fs) := by
  induction fs generalizing b es with
  | nil => rwa [List.append_nil]
  | cons e fs ih =>
      rw [addAll, List.foldlM_cons] at hadd
      obtain ⟨b₁, hb₁, hadd⟩ := Option.bind_eq_some_iff.mp hadd
      have h' := ih (h.add_some hb₁) (h.built.add_sorted hsorted hb₁) hadd
      rwa [List.append_assoc] at h'

/-- Entries in order are all taken as long as they fit into a string. -/
theorem Marked.addAll_isSome {fs : List (Bytes × Bytes)} (h : Marked b es)
    (hsorted : SortedAssoc.Sorted (es ++ fs)) (hfit : (encodeEntries (es ++ fs)).length ≤ max_size) :
    ∃ b', b.addAll fs = some b' := by
  induction fs generalizing b es with
  | nil => exact ⟨b, rfl⟩
  | cons e fs ih =>
      rw [List.append_cons] at hsorted hfit
      have hkey : ∀ x ∈ es, x.1 < e.1 := fun x hx =>
        (List.pairwise_append.mp (List.pairwise_append.mp hsorted).1).2.2 x hx e (by simp)
      have hfit₁ : (encodeEntries (es ++ [e])).length ≤ max_size := by
        rw [encodeEntries_append, List.length_append] at hfit
        omega
      obtain ⟨b₁, hb₁⟩ := h.built.add_isSome e.1 e.2 hkey hfit₁
      obtain ⟨b', hb'⟩ := ih (h.add_some hb₁) hsorted hfit
      refine ⟨b', ?_⟩
      rw [addAll, List.foldlM_cons, hb₁]
      exact hb'

/-- `finish` writes the offsets behind the entries. -/
theorem Marked.finish_some (h : Marked b es) (hfin : b.finish = some (c, b')) :
    c = blockContent es ∧ c.length ≤ max_size := by
  rw [blockContent, ← h.built.buffer, ← h.offsets]
  exact finish_eq_some hfin

theorem Marked.length_restarts (h : Marked b es) : b.restarts_.length = restartCount es.length := by
  rw [h.offsets, length_restartOffsets]

theorem Marked.estimated_size_eq (h : Marked b es) : b.estimated_size = (blockContent es).length := by
  rw [estimated_size, h.built.buffer, h.length_restarts, length_blockContent]
  omega

/-- The content of the entries fits into a string exactly when `finish` returns. -/
theorem Marked.finish_isSome_iff (h : Marked b es) : (∃ c b', b.finish = some (c, b')) ↔
    (encodeEntries es).length + 8 * restartCount es.length + 16 ≤ max_size := by
  have hlen := h.length_restarts
  rw [← h.built.buffer, ← hlen]
  constructor
  · rintro ⟨c, b', hfin⟩
    obtain ⟨rfl, hfit⟩ := h.finish_some hfin
    rwa [length_blockContent, ← hlen, ← h.built.buffer] at hfit
  · intro hfit
    obtain ⟨c, b', hfin, -⟩ := finish_of_fits hfit
    exact ⟨c, b', hfin⟩

end BlockBuilder

namespace Block

variable {b : Block} {es : List (Bytes × Bytes)} {c : Bytes}

/-- The block reads the entries `es` and knows where their intervals start. -/
structure Restarts (b : Block) (es : List (Bytes × Bytes)) : Prop where
  reads : b.Reads es
  restarts : b.restarts_ = restartOffsets es
  restart_size : b.restart_size_ = (restartOffsets es).length

/-- The words that were written one after the other. -/
theorem read_words {rs : List Nat} (h : ∀ r ∈ rs, r < 256 ^ 8) : ∀ pre post : Bytes,
    (List.range rs.length).mapM (fun j => readAt 8 (pre ++ (rs.flatMap (leBytes 8) ++ post)) (pre.length + 8 * j)) =
      some rs := by
  induction rs with
  | nil => intro pre post; rfl
  | cons r rs ih =>
      intro pre post
      have hfirst : readAt 8 (pre ++ ((r :: rs).flatMap (leBytes 8) ++ post)) (pre.length + 8 * 0) = some r := by
        rw [List.flatMap_cons, List.append_assoc]
        exact readAt_mid (h r List.mem_cons_self) pre _
      have hrest := ih (fun x hx => h x (List.mem_cons_of_mem r hx)) (pre ++ leBytes 8 r) post
      have hstep : ∀ j, readAt 8 (pre ++ leBytes 8 r ++ (rs.flatMap (leBytes 8) ++ post))
            ((pre ++ leBytes 8 r).length + 8 * j) =
          readAt 8 (pre ++ ((r :: rs).flatMap (leBytes 8) ++ post)) (pre.length + 8 * (j + 1)) := by
        intro j
        rw [List.flatMap_cons, List.append_assoc, List.append_assoc, List.length_append, length_leBytes]
        congr 1
        omega
      simp only [hstep] at hrest
      rw [List.length_cons, List.range_succ_eq_map, List.mapM_cons, hfirst, List.mapM_map]
      exact congrArg (fun o : Option (List Nat) => o >>= fun l => some (r :: l)) hrest

/-- The constructor reads back the offsets that `finish` wrote. -/
theorem restarts_of_finish {bb bb' : BlockBuilder} (h : bb.Marked es) (hfin : bb.finish = some (c, bb')) :
    ∃ b, Block.new c = some b ∧ b.Restarts es := by
  obtain ⟨hc, hfit⟩ := h.finish_some hfin
  rw [blockContent] at hc
  obtain ⟨hlen, hoff, hsize⟩ := read_trailer hc hfit
  have hmax := max_size_lt
  have hbytes : ∀ r ∈ restartOffsets es, r < 256 ^ 8 := by
    intro r hr
    obtain ⟨j, -, rfl⟩ := List.mem_map.mp hr
    have hle := entryOffset_le es (StorageOption.RESTART_INTERVAL * j)
    omega
  have hwords := read_words hbytes (encodeEntries es ++ leBytes 8 (restartOffsets es).length)
    (leBytes 8 (encodeEntries es).length)
  rw [List.append_assoc, ← hc, List.length_append, length_leBytes] at hwords
  have hrange : (c.length - 8 - ((encodeEntries es).length + 8) + 7) / 8 = (restartOffsets es).length := by omega
  refine ⟨⟨c, (encodeEntries es).length, (restartOffsets es).length, restartOffsets es⟩, ?_,
    ⟨⟨_, hc⟩, rfl, by omega⟩, rfl, rfl⟩
  simp only [Block.new, hoff, hsize, hrange, hwords, Option.bind_eq_bind, Option.bind_some]
  rw [if_neg (by omega)]

namespace Iter

variable {it : Iter}

/-- The loop `while (Valid()) { Key(); Value(); Next(); }` reads these entries, and the iterator is invalid then. -/
inductive Yields (b : Block) : Iter → List (Bytes × Bytes) → Prop
  | done {it : Iter} (hvalid : it.Valid b = false) : Yields b it []
  | entry {it it' : Iter} {key value : Bytes} {es : List (Bytes × Bytes)} (hvalid : it.Valid b = true)
      (hkey : it.Key b = some key) (hvalue : it.Value b = some value) (hnext : it.Next b = some it')
      (hrest : Yields b it' es) : Yields b it ((key, value) :: es)

theorem At.key_value {done todo : List (Bytes × Bytes)} {e : Bytes × Bytes} (h : At b done (e :: todo) it) :
    it.Key b = some e.1 ∧ it.Value b = some e.2 := by
  have hvalid : it.Valid b = true := h.valid_iff.mpr (by simp)
  obtain ⟨hkey, hvalue⟩ := h.loaded e rfl
  simp [Key, Value, hvalid, hkey, hvalue]

theorem At.yields {todo : List (Bytes × Bytes)} : ∀ {done : List (Bytes × Bytes)} {it : Iter},
    At b done todo it → Yields b it todo := by
  induction todo with
  | nil =>
      intro done it h
      refine Yields.done ?_
      rw [Bool.eq_false_iff, Ne, h.valid_iff]
      simp
  | cons e todo ih =>
      intro done it h
      obtain ⟨hkey, hvalue⟩ := h.key_value
      obtain ⟨it', hnext, h'⟩ := h.next
      exact Yields.entry (h.valid_iff.mpr (by simp)) hkey hvalue hnext (ih h')

end Iter

/-- **Blocks round-trip.** Entries in increasing order go into a fresh or reset builder and come out of the block:
the restart points, the entries in order, and each value by its key. The builder takes them exactly when the
finished string is not too long to be one. -/
theorem round_trip {b₀ : BlockBuilder} (hb₀ : b₀ = {} ∨ b₀ = BlockBuilder.reset) (hsorted : SortedAssoc.Sorted es) :
    ((∃ bb c bb', b₀.addAll es = some bb ∧ bb.finish = some (c, bb')) ↔
      (encodeEntries es).length + 8 * restartCount es.length + 16 ≤ max_size) ∧
    ∀ bb c bb', b₀.addAll es = some bb → bb.finish = some (c, bb') →
      ∃ b, Block.new c = some b ∧
        b.restarts_ = restartOffsets es ∧ b.restart_size_ = restartCount es.length ∧
        (∀ it : Iter, ∃ it', it.SeekToFirst b = some it' ∧ it'.Yields b es) ∧
        (∀ k v, (k, v) ∈ es → b.get k = some (true, v)) ∧
        (∀ k, (∀ v, (k, v) ∉ es) → b.get k = some (false, [])) := by
  have hstart : b₀.Marked [] := by
    rcases hb₀ with rfl | rfl
    · exact BlockBuilder.marked_nil
    · exact BlockBuilder.marked_reset
  refine ⟨⟨?_, ?_⟩, ?_⟩
  · rintro ⟨bb, c, bb', hadd, hfin⟩
    exact (hstart.addAll_some hadd).finish_isSome_iff.mp ⟨c, bb', hfin⟩
  · intro hfit
    have hspace : (encodeEntries ([] ++ es)).length ≤ max_size := by rw [List.nil_append]; omega
    obtain ⟨bb, hadd⟩ := hstart.addAll_isSome hsorted hspace
    obtain ⟨c, bb', hfin⟩ := (hstart.addAll_some hadd).finish_isSome_iff.mpr hfit
    exact ⟨bb, c, bb', hadd, hfin⟩
  · intro bb c bb' hadd hfin
    obtain ⟨b, hnew, h⟩ := restarts_of_finish (hstart.addAll_some hadd) hfin
    rw [List.nil_append] at h
    refine ⟨b, hnew, h.restarts, by rw [h.restart_size, length_restartOffsets], ?_, ?_, ?_⟩
    · intro it
      obtain ⟨it', hseek, hat⟩ := Iter.seekToFirst_spec h.reads it
      exact ⟨it', hseek, hat.yields⟩
    · intro k v hmem
      rw [h.reads.get, SortedAssoc.lookup_of_mem hsorted hmem]
    · intro k hnot
      have hlookup : es.lookup k = none := SortedAssoc.lookup_of_ne fun e he hk => hnot e.2 (hk ▸ he)
      rw [h.reads.get, hlookup]

theorem round_trip_two : ((∃ bb c bb', ({} : BlockBuilder).addAll [([1], [2]), ([3], [])] = some bb ∧
        bb.finish = some (c, bb')) ↔
      (encodeEntries [([1], [2]), ([3], [])]).length + 8 * restartCount 2 + 16 ≤ max_size) ∧
    ∀ bb c bb', ({} : BlockBuilder).addAll [([1], [2]), ([3], [])] = some bb → bb.finish = some (c, bb') →
      ∃ b, Block.new c = some b ∧
        b.restarts_ = restartOffsets [([1], [2]), ([3], [])] ∧ b.restart_size_ = restartCount 2 ∧
        (∀ it : Iter, ∃ it', it.SeekToFirst b = some it' ∧ it'.Yields b [([1], [2]), ([3], [])]) ∧
        (∀ k v, (k, v) ∈ [(([1] : Bytes), ([2] : Bytes)), ([3], [])] → b.get k = some (true, v)) ∧
        (∀ k, (∀ v, (k, v) ∉ [(([1] : Bytes), ([2] : Bytes)), ([3], [])]) → b.get k = some (false, [])) :=
  round_trip (Or.inl rfl) (by simp [SortedAssoc.Sorted]; decide)

end Block
end DDBMS
