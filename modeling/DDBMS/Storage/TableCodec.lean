import DDBMS.Storage.BlockCodec
import DDBMS.Storage.SkipListOps
import DDBMS.Storage.Table
import Mathlib.Data.List.Forall2

/-!
# `Storage.TableCodec` — a memtable survives the trip through an SSTable file

While it runs, the builder keeps this invariant (`Built`): the entries so far are the blocks `bs`, which are in
the file, followed by `cur`, which are in the data block; the index has one entry for each of `bs`, with its
last key and a handle that points at it (`BlockAt`). The handle keeps pointing at its block while the file
grows. `finish` turns this into a table file (`IsTable`).

`SSTable::get` takes the first index entry whose last key is not below the key, which is the block the key
belongs to (`SortedAssoc.lookup_flatten`), and looks it up there. It reads the block into the stack, so a block
that is too big for the stack ends the program (`searchBlocks`).
-/

namespace DDBMS

open SortedAssoc BlockBuilder

/-- The last key of a list of entries. -/
def lastKey (es : List (Bytes × Bytes)) : Bytes := (es.getLast?.map Prod.fst).getD []

theorem lastKey_append (es : List (Bytes × Bytes)) (e : Bytes × Bytes) : lastKey (es ++ [e]) = e.1 := by
  simp [lastKey]

/-- The last key of a sorted list is its largest. -/
theorem lastKey_spec {es : List (Bytes × Bytes)} (h : Sorted es) (hne : es ≠ []) :
    (∃ e ∈ es, e.1 = lastKey es) ∧ ∀ e ∈ es, e.1 ≤ lastKey es := by
  obtain ⟨es', x, rfl⟩ := (List.eq_nil_or_concat es).resolve_left hne
  rw [List.concat_eq_append] at h ⊢
  rw [lastKey_append]
  refine ⟨⟨x, by simp, rfl⟩, fun e he => ?_⟩
  rcases List.mem_append.mp he with he | he
  · exact le_of_lt ((List.pairwise_append.mp h).2.2 e he x (by simp))
  · rw [List.mem_singleton.mp he]

section

variable {snappy : Snappy} {file s : Bytes} {es : List (Bytes × Bytes)}

/-- The handle `s` points at a compressed block of the entries `es`. -/
structure BlockAt (snappy : Snappy) (file s : Bytes) (es : List (Bytes × Bytes)) : Prop where
  file_fits : file.length ≤ max_file
  block : ∃ pre c post, file = pre ++ (snappy.Compress c ++ post) ∧ IsContent es c ∧
    s = leBytes 8 pre.length ++ leBytes 8 (snappy.Compress c).length

theorem BlockAt.grow (h : BlockAt snappy file s es) {b : Bytes} (hfit : (file ++ b).length ≤ max_file) :
    BlockAt snappy (file ++ b) s es := by
  obtain ⟨pre, c, post, hfile, hc, hs⟩ := h.block
  exact ⟨hfit, pre, c, post ++ b, by rw [hfile]; simp, hc, hs⟩

theorem BlockAt.length (h : BlockAt snappy file s es) : s.length = 16 := by
  obtain ⟨pre, c, post, -, -, rfl⟩ := h.block
  simp

/-- The size that a handle says. -/
def sizeAt (s : Bytes) : Nat := (readAt 8 s 8).getD 0

/-- A handle can be read, and its block be loaded if the stack has room for it. -/
theorem BlockAt.load (h : BlockAt snappy file s es) (hinv : snappy.Inverts) :
    ∃ off b, readAt 8 s 0 = some off ∧ readAt 8 s 8 = some (sizeAt s) ∧ b.Reads es ∧ ∀ stack,
      SSTable.loadBlock snappy file off (sizeAt s) stack = if SSTable.OnStack stack (sizeAt s) then some b else none := by
  obtain ⟨pre, c, post, hfile, hc, rfl⟩ := h.block
  have hfit := h.file_fits
  have hlt : max_file < 256 ^ 8 := by decide
  have hlen : file.length = pre.length + (snappy.Compress c).length + post.length := by
    rw [hfile]
    simp only [List.length_append]
    omega
  obtain ⟨b, hb, hreads⟩ := Block.reads_of_isContent hc
  have hsize : readAt 8 (leBytes 8 pre.length ++ leBytes 8 (snappy.Compress c).length) 8 =
      some (snappy.Compress c).length := by
    have := readAt_mid (w := 8) (n := (snappy.Compress c).length) (by omega) (leBytes 8 pre.length) []
    simpa using this
  have hat : sizeAt (leBytes 8 pre.length ++ leBytes 8 (snappy.Compress c).length) = (snappy.Compress c).length := by
    rw [sizeAt, hsize, Option.getD_some]
  refine ⟨pre.length, b, readAt_mid (n := pre.length) (by omega) [] _, by rw [hat]; exact hsize, hreads, fun stack => ?_⟩
  rw [hat]
  unfold SSTable.loadBlock
  rw [hfile, List.drop_left, List.take_left, hinv c, hb, ← hfile]
  refine if_congr ?_ rfl rfl
  exact and_iff_left (by omega)

/-- A file of the blocks `bs`, and an index of them, whose handle `s` ends the file. -/
structure Layout (snappy : Snappy) (file : Bytes) (bs : List (List (Bytes × Bytes))) (idx : List (Bytes × Bytes)) (s : Bytes) :
    Prop where
  blocks : List.Forall₂ (fun e b => b ≠ [] ∧ e.1 = lastKey b ∧ BlockAt snappy file e.2 b) idx bs
  index : BlockAt snappy file s idx
  footer : ∃ pre, file = pre ++ s

/-- A file with the entries `es`: blocks, and an index of them whose handle ends the file. -/
structure IsTable (snappy : Snappy) (file : Bytes) (es : List (Bytes × Bytes)) : Prop where
  layout : ∃ (bs : List (List (Bytes × Bytes))) (idx : List (Bytes × Bytes)) (s : Bytes), es = bs.flatten ∧
    Layout snappy file bs idx s

theorem blocks_ne_nil {P : Bytes × Bytes → List (Bytes × Bytes) → Prop} {idx : List (Bytes × Bytes)}
    {bs : List (List (Bytes × Bytes))} (h : List.Forall₂ (fun e b => b ≠ [] ∧ P e b) idx bs) :
    ∀ b ∈ bs, b ≠ [] := by
  induction h with
  | nil => simp
  | cons hb _ ih =>
      intro b hmem
      rcases List.mem_cons.mp hmem with rfl | hmem
      · exact hb.1
      · exact ih b hmem

/-- An index entry is about one of the blocks. -/
theorem index_mem {P : Bytes × Bytes → List (Bytes × Bytes) → Prop} {idx : List (Bytes × Bytes)}
    {bs : List (List (Bytes × Bytes))}
    (h : List.Forall₂ (fun e b => b ≠ [] ∧ e.1 = lastKey b ∧ P e b) idx bs) :
    ∀ e ∈ idx, ∃ b ∈ bs, b ≠ [] ∧ e.1 = lastKey b := by
  induction h with
  | nil => simp
  | @cons e b idx bs hb _ ih =>
      intro e' hmem
      rcases List.mem_cons.mp hmem with rfl | hmem
      · exact ⟨b, List.mem_cons_self, hb.1, hb.2.1⟩
      · obtain ⟨b', hb', he'⟩ := ih e' hmem
        exact ⟨b', List.mem_cons_of_mem _ hb', he'⟩

/-! ## Reading -/

/-- The result of the search in the blocks, of which those that the stack has no room for cannot be read. -/
def searchBlocks (stack : Option Nat) (key : Bytes) : List (Bytes × Bytes) → List (List (Bytes × Bytes)) → Option (Bool × Bytes)
  | e :: idx, b :: bs =>
    if key ≤ lastKey b then if SSTable.OnStack stack (sizeAt e.2) then some (lookupResult (b.lookup key)) else none
    else searchBlocks stack key idx bs
  | _, _ => some (false, [])

/-- Where there is room for all blocks, the first one whose last key is not below the key is searched. -/
theorem searchBlocks_of_fits {stack : Option Nat} {P : Bytes × Bytes → List (Bytes × Bytes) → Prop} {idx : List (Bytes × Bytes)}
    {bs : List (List (Bytes × Bytes))} (h : List.Forall₂ P idx bs) (hfits : ∀ e ∈ idx, SSTable.OnStack stack (sizeAt e.2))
    (key : Bytes) :
    searchBlocks stack key idx bs = some (lookupResult ((bs.find? fun b => key ≤ lastKey b).bind (List.lookup key))) := by
  induction h with
  | nil => rfl
  | @cons e b idx bs _ _ ih =>
      rw [searchBlocks]
      by_cases hkey : key ≤ lastKey b
      · rw [if_pos hkey, if_pos (hfits e List.mem_cons_self), List.find?_cons_of_pos (by simpa using hkey), Option.bind_some]
      · rw [if_neg hkey, List.find?_cons_of_neg (by simpa using hkey)]
        exact ih fun e he => hfits e (List.mem_cons_of_mem _ he)

/-- The search for the last key of a block that there is no room for. -/
theorem searchBlocks_of_big {stack : Option Nat} {P : Bytes × Bytes → List (Bytes × Bytes) → Prop} {idx : List (Bytes × Bytes)}
    {bs : List (List (Bytes × Bytes))} (h : List.Forall₂ (fun e b => b ≠ [] ∧ P e b) idx bs) (hsorted : Sorted bs.flatten)
    {e : Bytes × Bytes} (he : e ∈ idx) (hbig : ¬ SSTable.OnStack stack (sizeAt e.2)) :
    ∃ key, searchBlocks stack key idx bs = none ∧ ∃ b ∈ bs, b ≠ [] ∧ key = lastKey b := by
  induction h with
  | nil => cases he
  | @cons d b idx bs hb hbs ih =>
      rw [List.flatten_cons] at hsorted
      obtain ⟨hsortedb, hrest, hcross⟩ := List.pairwise_append.mp hsorted
      rcases List.mem_cons.mp he with rfl | he
      · refine ⟨lastKey b, ?_, b, List.mem_cons_self, hb.1, rfl⟩
        rw [searchBlocks, if_pos (le_refl _), if_neg hbig]
      · obtain ⟨key, hnone, b', hb', hne', rfl⟩ := ih hrest he
        refine ⟨lastKey b', ?_, b', List.mem_cons_of_mem _ hb', hne', rfl⟩
        -- the keys of a later block are larger
        obtain ⟨x, hx, hxl⟩ := (lastKey_spec hsortedb hb.1).1
        obtain ⟨y, hy, hyl⟩ := (lastKey_spec ((List.pairwise_flatten.mp hrest).1 b' hb') hne').1
        have hlt := hcross x hx y (List.mem_flatten.mpr ⟨b', hb', hy⟩)
        rw [hxl, hyl] at hlt
        rw [searchBlocks, if_neg (not_le_of_gt hlt)]
        exact hnone

/-- The loop of `get` searches the blocks from its index entry on. -/
theorem getLoop_spec {t : SSTable} {key : Bytes} (hinv : snappy.Inverts) (stack : Option Nat) :
    ∀ (todo done : List (Bytes × Bytes)) (bs : List (List (Bytes × Bytes))) (it : Block.Iter) (fuel : Nat),
      Block.Iter.At t.index_block_ done todo it →
      List.Forall₂ (fun e b => b ≠ [] ∧ e.1 = lastKey b ∧ BlockAt snappy t.ifs_ e.2 b) todo bs →
      todo.length < fuel → t.getLoop snappy key stack fuel it = searchBlocks stack key todo bs := by
  intro todo
  induction todo with
  | nil =>
      intro done bs it fuel hat hbs hfuel
      obtain ⟨fuel, rfl⟩ : ∃ f, fuel = f + 1 := ⟨fuel - 1, by simp at hfuel; omega⟩
      cases hbs
      rw [SSTable.getLoop, if_neg (by rw [hat.valid_iff]; simp)]
      rfl
  | cons e todo ih =>
      intro done bs it fuel hat hbs hfuel
      obtain ⟨fuel, rfl⟩ : ∃ f, fuel = f + 1 := ⟨fuel - 1, by simp at hfuel; omega⟩
      cases hbs with
      | cons hb hbs =>
          rename_i b bs
          obtain ⟨-, hlast, hblock⟩ := hb
          obtain ⟨hk, hv⟩ := hat.loaded e rfl
          rw [SSTable.getLoop, if_pos (by rw [hat.valid_iff]; simp), searchBlocks]
          by_cases hkey : key ≤ it.key_
          -- the first block whose last key is not below the key
          · obtain ⟨off, blk, hoff, hsize, hreads, hload⟩ := hblock.load hinv
            have hle : key ≤ lastKey b := by rw [← hlast, ← hk]; exact hkey
            rw [if_pos hkey, if_pos hle, hv]
            simp only [hoff, hsize, hload, Option.bind_eq_bind, Option.bind_some]
            split
            · rw [Option.bind_some, hreads.get key]
              cases b.lookup key <;> rfl
            · rfl
          · have hle : ¬ key ≤ lastKey b := by rw [← hlast, ← hk]; exact hkey
            obtain ⟨it', hnext, hat'⟩ := hat.next
            rw [if_neg hkey, if_neg hle]
            simp only [hnext, Option.bind_eq_bind, Option.bind_some]
            exact ih _ bs it' fuel hat' hbs (by simpa using hfuel)

section Layout

variable {bs : List (List (Bytes × Bytes))} {idx : List (Bytes × Bytes)} {stack : Option Nat}

/-- **The constructor** on a table file: it loads the index block. -/
theorem Layout.new (h : Layout snappy file bs idx s) (hinv : snappy.Inverts) :
    ∃ b : Block, b.Reads idx ∧ ∀ stack,
      SSTable.new snappy file stack = if SSTable.OnStack stack (sizeAt s) then some ⟨file, b⟩ else none := by
  obtain ⟨pre, hfile⟩ := h.footer
  obtain ⟨off, b, hoff, hsize, hreads, hload⟩ := h.index.load hinv
  have hs := h.index.length
  have hlen : file.length = pre.length + 16 := by rw [hfile, List.length_append, hs]
  have hat0 : readAt 8 file (file.length - 16) = readAt 8 s 0 := by
    unfold readAt
    rw [if_pos (by omega), if_pos (by omega), hlen, Nat.add_sub_cancel, hfile, List.drop_left]
    rfl
  have hat8 : readAt 8 file (file.length - 8) = readAt 8 s 8 := by
    unfold readAt
    rw [if_pos (by omega), if_pos (by omega), show file.length - 8 = pre.length + 8 by omega, hfile,
      ← List.drop_drop, List.drop_left]
  refine ⟨b, hreads, fun stack => ?_⟩
  simp only [SSTable.new, hat0, hat8, hoff, hsize, hload, Option.bind_eq_bind, Option.bind_some]
  rw [if_neg (by omega)]
  split <;> rfl

/-- **`SSTable::get`** on a table file searches its blocks. -/
theorem Layout.get (h : Layout snappy file bs idx s) (hinv : snappy.Inverts) {b : Block} (hreads : b.Reads idx)
    (stack : Option Nat) (key : Bytes) :
    SSTable.get snappy ⟨file, b⟩ key stack = searchBlocks stack key idx bs := by
  obtain ⟨it, hit, hat⟩ := Block.Iter.seekToFirst_spec hreads b.NewIterator
  have hlen := length_le_encodeEntries idx
  simp only [SSTable.get, hit, Option.bind_eq_bind, Option.bind_some]
  exact getLoop_spec hinv stack idx [] bs it _ hat h.blocks (by rw [hreads.restart_offset]; omega)

/-- The stack has room for the index block and for each data block. -/
def RoomForAll (stack : Option Nat) (idx : List (Bytes × Bytes)) (s : Bytes) : Prop :=
  SSTable.OnStack stack (sizeAt s) ∧ ∀ e ∈ idx, SSTable.OnStack stack (sizeAt e.2)

theorem roomForAll_none (idx : List (Bytes × Bytes)) (s : Bytes) : RoomForAll none idx s :=
  ⟨fun _ h => absurd h (Option.not_mem_none _), fun _ _ _ h => absurd h (Option.not_mem_none _)⟩

/-- A table whose blocks all fit into the stack is a lookup in its entries. -/
theorem Layout.get_of_fits (h : Layout snappy file bs idx s) (hinv : snappy.Inverts) (hsorted : Sorted bs.flatten)
    (hfits : RoomForAll stack idx s) :
    ∃ t, SSTable.new snappy file stack = some t ∧
      ∀ key, t.get snappy key stack = some (lookupResult (bs.flatten.lookup key)) := by
  obtain ⟨b, hreads, hnew⟩ := h.new hinv
  refine ⟨⟨file, b⟩, by rw [hnew, if_pos hfits.1], fun key => ?_⟩
  rw [h.get hinv hreads, searchBlocks_of_fits h.blocks hfits.2, lookup_flatten hsorted]
  intro b hb
  exact lastKey_spec ((List.pairwise_flatten.mp hsorted).1 b hb) (blocks_ne_nil h.blocks b hb)

/-- A block that does not fit is not read. -/
theorem Layout.fits_of_get (h : Layout snappy file bs idx s) (hinv : snappy.Inverts) (hsorted : Sorted bs.flatten) {t : SSTable}
    (hnew : SSTable.new snappy file stack = some t) (hget : ∀ key, t.get snappy key stack ≠ none) : RoomForAll stack idx s := by
  obtain ⟨b, hreads, heq⟩ := h.new hinv
  replace heq := heq stack
  rw [hnew] at heq
  split at heq
  · rename_i hindex
    obtain rfl := Option.some.inj heq
    refine ⟨hindex, fun e he => ?_⟩
    by_contra hbig
    obtain ⟨key, hnone, -⟩ := searchBlocks_of_big h.blocks hsorted he hbig
    exact hget key ((h.get hinv hreads stack key).trans hnone)
  · cases heq

end Layout

/-- **`SSTable::get`** on a table file is a lookup in its entries. -/
theorem IsTable.get (h : IsTable snappy file es) (hinv : snappy.Inverts) (hsorted : Sorted es) :
    ∃ t, SSTable.new snappy file = some t ∧
      ∀ key, t.get snappy key = some (lookupResult (es.lookup key)) := by
  obtain ⟨bs, idx, s, rfl, hlayout⟩ := h.layout
  exact hlayout.get_of_fits hinv hsorted (roomForAll_none idx s)

end
end DDBMS
