import DDBMS.Storage.TableBuild

/-!
# `Storage.TableStack` — the round trip, and the stack it takes

`SSTable::loadBlock` reads a block into `char buffer[block_size]`, an array on the stack. A block ends only with the entry that
fills it, so it is as big as its last value, and the index grows with the number of blocks: nothing keeps either of them below
the size of a stack.

`sstable_get_iff` is the round trip: an SSTable opens on the file of a memtable, and answers every key as `SkipList::get` does,
if and only if the stack has room for each block of the file. Which blocks these are is known from the pairs (`tableBlocks`).
-/

namespace DDBMS

open SortedAssoc

namespace SSTable

variable {snappy : Snappy} {file : Bytes} {stack : Option Nat}

@[simp] theorem onStack_none (size : Nat) : OnStack none size := fun _ h => absurd h (Option.not_mem_none _)

@[simp] theorem onStack_some {room size : Nat} : OnStack (some room) size ↔ size ≤ room := by
  simp [OnStack]

/-- The file is a table whose blocks all fit into the stack. -/
def FileFits (snappy : Snappy) (stack : Option Nat) (file : Bytes) : Prop :=
  ∃ bs idx s, Layout snappy file bs idx s ∧ RoomForAll stack idx s

/-- **Where the blocks fit** the stack makes no difference. -/
theorem FileFits.reads (h : FileFits snappy stack file) (hinv : snappy.Inverts) :
    ∃ t, SSTable.new snappy file stack = some t ∧ SSTable.new snappy file = some t ∧
      ∀ key, t.get snappy key stack = t.get snappy key := by
  obtain ⟨bs, idx, s, hlayout, hroom⟩ := h
  obtain ⟨b, hreads, hnew⟩ := hlayout.new hinv
  refine ⟨⟨file, b⟩, by rw [hnew, if_pos hroom.1], by rw [hnew, if_pos (onStack_none _)], fun key => ?_⟩
  rw [hlayout.get hinv hreads, hlayout.get hinv hreads, searchBlocks_of_fits hlayout.blocks hroom.2,
    searchBlocks_of_fits hlayout.blocks (roomForAll_none idx s).2]

end SSTable

namespace TableBuilder

variable {snappy : Snappy} {es : List (Bytes × Bytes)} {m : SkipList} {file : Bytes} {stack : Option Nat}

/-- The file of a memtable is a table whose blocks fit, if those of its entries do. -/
theorem create_sstable_fits (h : m.Holds es) (hf : create_sstable snappy m = some file)
    (hfits : ∀ b ∈ tableBlocks snappy es, SSTable.OnStack stack (blockSize snappy b)) : SSTable.FileFits snappy stack file := by
  obtain ⟨s, hlayout, hroom⟩ := writeEntries_layout (create_sstable_eq h ▸ hf)
  exact ⟨_, _, s, hlayout, (hroom stack).mpr hfits⟩

/-- Reading the file back, block by block, for a memtable that holds `es`. -/
theorem create_sstable_get_iff (h : m.Holds es) (hinv : snappy.Inverts) (hf : create_sstable snappy m = some file)
    (stack : Option Nat) :
    (∃ t, SSTable.new snappy file stack = some t ∧ ∀ key, ∃ r, t.get snappy key stack = some r ∧ m.get key = some r) ↔
      ∀ b ∈ tableBlocks snappy es, SSTable.OnStack stack (blockSize snappy b) := by
  obtain ⟨s, hlayout, hroom⟩ := writeEntries_layout (create_sstable_eq h ▸ hf)
  have hsorted : Sorted (cutBlocks [] es).flatten := by
    rw [flatten_cutBlocks]
    exact h.sorted
  rw [← hroom stack]
  constructor
  · rintro ⟨t, hnew, hget⟩
    refine hlayout.fits_of_get hinv hsorted hnew fun key hnone => ?_
    obtain ⟨r, hr, -⟩ := hget key
    rw [hnone] at hr
    cases hr
  · intro hfits
    obtain ⟨t, hnew, hget⟩ := hlayout.get_of_fits hinv hsorted hfits
    rw [flatten_cutBlocks, List.nil_append] at hget
    exact ⟨t, hnew, fun key => ⟨_, hget key, h.get key⟩⟩

/-- **Round trip.** For every reachable skip list that `create_sstable` writes to a file, an SSTable opens on the
    file, and its `get` answers as the skip list's, if and only if the stack has room for each block. -/
theorem sstable_get_iff (hinv : snappy.Inverts) {es : List SkipList.Event} (hrun : Run (FunStep SkipList.step) SkipList.new es m)
    (hf : create_sstable snappy m = some file) (room : Nat) :
    (∃ t, SSTable.new snappy file (some room) = some t ∧
      ∀ key, ∃ r, t.get snappy key (some room) = some r ∧ m.get key = some r) ↔
      ∀ b ∈ tableBlocks snappy (es.foldl SkipList.entriesStep []), blockSize snappy b ≤ room := by
  simpa only [SSTable.onStack_some] using create_sstable_get_iff (SkipList.holds_of_run hrun) hinv hf (some room)

/-- Three keys, one of them empty and one deleted again. -/
def threePuts : List SkipList.Event :=
  [.put [98] [50] 2, .put [] [0, 49] 0, .put [97] [] 13, .put [98] [51] 1, .del [97]]

theorem sstable_get_iff_threePuts :
    ∃ m file t, Run (FunStep SkipList.step) SkipList.new threePuts m ∧
      create_sstable SnappyLiterals.snappy m = some file ∧
      SSTable.new SnappyLiterals.snappy file (some 256) = some t ∧
      ∀ key, ∃ r, t.get SnappyLiterals.snappy key (some 256) = some r ∧ m.get key = some r := by
  obtain ⟨m, hrun, hm⟩ : ∃ m, Run (FunStep SkipList.step) SkipList.new threePuts m ∧
      (create_sstable SnappyLiterals.snappy m).isSome = true :=
    Run.exists_of_map (f := fun m => (create_sstable SnappyLiterals.snappy m).isSome) (by decide +kernel)
  obtain ⟨file, hf⟩ := Option.isSome_iff_exists.mp hm
  obtain ⟨t, ht, hget⟩ := (sstable_get_iff SnappyLiterals.inverts hrun hf 256).mpr (by decide +kernel)
  exact ⟨m, file, t, hrun, hf, ht, hget⟩

/-- The numbers below `n`, one behind the other: no four bytes in a row come again soon. -/
def counting (n : Nat) : Bytes := (List.range n).flatMap (leBytes 4)

theorem length_counting (n : Nat) : (counting n).length = 4 * n := by
  rw [counting, List.length_flatMap, List.map_congr_left (g := fun _ => 4) fun i _ => length_leBytes 4 i]
  simp [Nat.mul_comm]

/-- One pair, with a value that fills the block alone. -/
theorem cutBlocks_single {key value : Bytes} (h : StorageOption.BLOCK_SPACE ≤ value.length) :
    cutBlocks [] [(key, value)] = [[(key, value)]] := by
  have hcontent : StorageOption.BLOCK_SPACE ≤ (blockContent [(key, value)]).length := by
    rw [length_blockContent]
    simp only [encodeEntries_cons, encodeEntries_nil, List.append_nil, length_encodeEntry]
    omega
  rw [cutBlocks, List.nil_append, if_pos hcontent, cutBlocks, if_pos rfl]

/-- A memtable with one value of 9 MiB: its block does not fit into a stack of 8 MiB. -/
theorem overflows_of_length {V : Bytes} (hV : V.length = 9437184) (hholds : m.Holds [([97], V)]) :
    ∃ file, create_sstable SnappyLiterals.snappy m = some file ∧
      ¬ ∃ t, SSTable.new SnappyLiterals.snappy file (some 8388608) = some t ∧
        ∀ key, ∃ r, t.get SnappyLiterals.snappy key (some 8388608) = some r ∧ m.get key = some r := by
  have hfit : Fits 3 [([97], V)] := by
    have hmax : max_file = 2 ^ 63 - 1 := rfl
    unfold Fits
    rw [entriesCost_eq, hmax]
    simp only [bytesOf_cons, bytesOf_nil, hV, List.length_cons, List.length_nil]
    omega
  obtain ⟨file, hf⟩ := create_sstable_isSome hholds SnappyLiterals.grows hfit
  refine ⟨file, hf, fun hget => ?_⟩
  -- the pair is a block of its own
  have hmem : [([97], V)] ∈ tableBlocks SnappyLiterals.snappy [([97], V)] := by
    rw [tableBlocks, cutBlocks_single (by rw [hV, StorageOption.BLOCK_SPACE]; norm_num)]
    exact List.mem_append_left _ (List.mem_singleton_self _)
  have hroom := SSTable.onStack_some.mp ((create_sstable_get_iff hholds SnappyLiterals.inverts hf _).mp hget _ hmem)
  have hcompressed : 2 * (blockContent [([97], V)]).length ≤ blockSize SnappyLiterals.snappy [([97], V)] :=
    SnappyLiterals.le_length_Compress _
  rw [length_blockContent, encodeEntries_cons, List.length_append, length_encodeEntry] at hcompressed
  dsimp only at hcompressed
  omega

/-- A value of 9 MiB. -/
def bigPut : List SkipList.Event := [.put [97] (counting (9 * 2 ^ 18)) 0]

/-- **The block of a big value** does not fit into a stack of 8 MiB. -/
theorem sstable_get_overflows :
    ∃ m file, Run (FunStep SkipList.step) SkipList.new bigPut m ∧ create_sstable SnappyLiterals.snappy m = some file ∧
      ¬ ∃ t, SSTable.new SnappyLiterals.snappy file (some (2 ^ 23)) = some t ∧
        ∀ key, ∃ r, t.get SnappyLiterals.snappy key (some (2 ^ 23)) = some r ∧ m.get key = some r := by
  obtain ⟨m, hrun, hholds⟩ := SkipList.holds_run bigPut
  have hlen : (counting (9 * 2 ^ 18)).length = 9437184 := by
    rw [length_counting]
    norm_num
  obtain ⟨file, hf, hnot⟩ := overflows_of_length hlen hholds
  exact ⟨m, file, hrun, hf, hnot⟩

end TableBuilder
end DDBMS
