import DDBMS.Storage.SkipListMap
import DDBMS.Storage.TableStack

/-!
# `Storage.TableFormat` — what a table file depends on

On the contents: two skip lists with the same pairs can differ in every pointer and every height, but both represent the
one sorted list of these pairs, which is all that `create_sstable` takes from them (`create_sstable_eq`).

And on `Option::BLOCK_COMPRESSED`, at which `writeBlock` and `loadBlock` both branch. `format` is what they do to the
bytes of a block; `Table` is about `format snappy true`. Without compression `writeBlock` writes the block, and
`loadBlock` reads it into a buffer that it then drops: it makes a `Block` of the empty string, whose constructor reads in
front of it. So no table opens, not even the index block.
-/

namespace DDBMS

open SortedAssoc

namespace SkipList

variable {s t : SkipList} {es fs : List (Bytes × Bytes)}

/-- `s` and `t` store the same pairs. -/
def SamePairs (s t : SkipList) : Prop :=
  ∀ key value, s.get key = some (true, value) ↔ t.get key = some (true, value)

theorem Holds.get_eq_some_iff (h : s.Holds es) {key value : Bytes} :
    s.get key = some (true, value) ↔ es.lookup key = some value := by
  rw [h.get]
  cases es.lookup key <;> simp [lookupResult]

theorem Holds.eq_of_samePairs (hs : s.Holds es) (ht : t.Holds fs) (h : s.SamePairs t) : es = fs := by
  obtain ⟨m, hm⟩ := hs.sorted.denotes
  refine hm.unique (.of_lookup ht.sorted fun key => ?_)
  rw [hm.lookup]
  refine Option.ext fun value => ?_
  rw [← hs.get_eq_some_iff, ← ht.get_eq_some_iff]
  exact h key value

theorem Holds.samePairs (hs : s.Holds es) (ht : t.Holds es) : s.SamePairs t := by
  intro key value
  rw [hs.get_eq_some_iff, ht.get_eq_some_iff]

end SkipList

namespace TableBuilder

/-- **Files are canonical.** Whatever the operations and the heights that led to them, skip lists with the same pairs
    are written to the same bytes. -/
theorem create_sstable_canonical {snappy : Snappy} {es fs : List SkipList.Event} {s t : SkipList}
    (hs : Run (FunStep SkipList.step) SkipList.new es s) (ht : Run (FunStep SkipList.step) SkipList.new fs t)
    (hsame : s.SamePairs t) : create_sstable snappy s = create_sstable snappy t := by
  have hs := SkipList.holds_of_run hs
  have ht := SkipList.holds_of_run ht
  rw [create_sstable_eq hs, create_sstable_eq ht, hs.eq_of_samePairs ht hsame]

/-- The pairs of `threePuts`, put in another order, at other heights and without the deleted key. -/
def twoPuts : List SkipList.Event := [.put [] [0, 49] 3, .put [98] [51] 0]

theorem create_sstable_canonical_twoPuts :
    ∃ s t file, Run (FunStep SkipList.step) SkipList.new threePuts s ∧ Run (FunStep SkipList.step) SkipList.new twoPuts t ∧
      s.getMaxHeight ≠ t.getMaxHeight ∧ create_sstable SnappyLiterals.snappy s = some file ∧
      create_sstable SnappyLiterals.snappy t = some file := by
  obtain ⟨s, hs, hmax⟩ : ∃ s, Run (FunStep SkipList.step) SkipList.new threePuts s ∧ s.getMaxHeight = 12 :=
    Run.exists_of_map (by decide +kernel)
  obtain ⟨t, ht, hboth⟩ : ∃ t, Run (FunStep SkipList.step) SkipList.new twoPuts t ∧
      ((create_sstable SnappyLiterals.snappy t).isSome, t.getMaxHeight) = (true, 4) :=
    Run.exists_of_map (f := fun t => ((create_sstable SnappyLiterals.snappy t).isSome, t.getMaxHeight))
      (by decide +kernel)
  obtain ⟨hfile, hmax'⟩ := Prod.mk.inj hboth
  obtain ⟨file, hfile⟩ := Option.isSome_iff_exists.mp hfile
  have hsame : s.SamePairs t := by
    have hpairs : threePuts.foldl SkipList.entriesStep [] = twoPuts.foldl SkipList.entriesStep [] := by decide
    have ht' := SkipList.holds_of_run ht
    rw [← hpairs] at ht'
    exact (SkipList.holds_of_run hs).samePairs ht'
  exact ⟨s, t, file, hs, ht, by omega, (create_sstable_canonical hs ht hsame).trans hfile, hfile⟩

end TableBuilder

/-! ## Without compression -/

namespace StorageOption

/-- What `writeBlock` makes of the content of a block, and `loadBlock` of the bytes it has read. -/
def format (snappy : Snappy) (BLOCK_COMPRESSED : Bool) : Snappy where
  Compress block_content := if BLOCK_COMPRESSED then snappy.Compress block_content else block_content
  Uncompress buffer := if BLOCK_COMPRESSED then snappy.Uncompress buffer else []

theorem format_true (snappy : Snappy) : format snappy true = snappy := rfl

end StorageOption

namespace SSTable

open StorageOption

/-- The answers of `get` on a table with the entries `es`, written and opened under the option. -/
def answer (snappy : Snappy) (BLOCK_COMPRESSED : Bool) (es : List (Bytes × Bytes)) (key : Bytes) :
    Option (Bool × Bytes) := do
  let file ← TableBuilder.writeEntries (format snappy BLOCK_COMPRESSED) es
  let t ← SSTable.new (format snappy BLOCK_COMPRESSED) file
  t.get (format snappy BLOCK_COMPRESSED) key

/-- The table gives every key the answer it gives with compression. -/
def ReadableUncompressed (snappy : Snappy) (es : List (Bytes × Bytes)) : Prop :=
  ∀ key, ∃ r, answer snappy true es key = some r ∧ answer snappy false es key = some r

variable {snappy : Snappy} {es : List (Bytes × Bytes)}

/-- Without compression every block is empty, and has no trailer. -/
theorem loadBlock_uncompressed (file : Bytes) (block_offset block_size : Nat) :
    loadBlock (format snappy false) file block_offset block_size = none := by
  rw [loadBlock]
  split <;> rfl

theorem new_uncompressed (file : Bytes) : SSTable.new (format snappy false) file = none := by
  simp only [SSTable.new, loadBlock_uncompressed, Option.bind_eq_bind, Option.bind_none, Option.bind_fun_none]
  split <;> rfl

theorem answer_uncompressed (key : Bytes) : answer snappy false es key = none := by
  simp only [answer, new_uncompressed, Option.bind_eq_bind, Option.bind_none, Option.bind_fun_none]

/-- With compression the table answers, if it is not too big. -/
theorem answer_compressed {g : Nat} (hinv : snappy.Inverts) (hg : snappy.Grows g) (hsorted : SortedAssoc.Sorted es)
    (hfit : Fits g es) (key : Bytes) : answer snappy true es key = some (lookupResult (es.lookup key)) := by
  obtain ⟨file, hfile⟩ := TableBuilder.writeEntries_isSome hsorted hg hfit
  obtain ⟨t, ht, hget⟩ := (TableBuilder.writeEntries_some hfile).get hinv hsorted
  simp only [answer, format_true, hfile, ht, hget, Option.bind_eq_bind, Option.bind_some]

/-- **The uncompressed format cannot be read.** No table answers any key. -/
theorem not_readableUncompressed (snappy : Snappy) (es : List (Bytes × Bytes)) : ¬ ReadableUncompressed snappy es := by
  intro h
  obtain ⟨r, -, hr⟩ := h []
  rw [answer_uncompressed] at hr
  cases hr

/-- The table of one entry is written in both formats, and answers in one of them. -/
theorem not_readableUncompressed_single :
    SortedAssoc.Sorted [([97], [98])] ∧
      (TableBuilder.writeEntries (format SnappyLiterals.snappy false) [([97], [98])]).isSome = true ∧
      answer SnappyLiterals.snappy true [([97], [98])] [97] = some (true, [98]) ∧
      ¬ ReadableUncompressed SnappyLiterals.snappy [([97], [98])] := by
  refine ⟨List.pairwise_singleton _ _, by decide +kernel, ?_, ?_⟩
  · exact answer_compressed SnappyLiterals.inverts SnappyLiterals.grows (List.pairwise_singleton _ _) (by decide) [97]
  · intro h
    obtain ⟨r, -, hr⟩ := h [97]
    rw [answer_uncompressed] at hr
    cases hr

end SSTable
end DDBMS
