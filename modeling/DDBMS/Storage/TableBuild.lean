import DDBMS.Storage.BlockRestarts
import DDBMS.Storage.TableCodec

/-!
# `Storage.TableBuild` — the table builder

Each operation of the builder keeps `Built`, so a file that `create_sstable` writes is a table with the entries
of the memtable (`create_sstable_some`). It does write one unless the memtable is too big for a string or a
file (`create_sstable_isSome`): no assertion of the builders can fail, since the iterator visits the keys in
increasing order.

Where the builder ends a block is known from the entries alone (`cutBlocks`), and so are the blocks of the file, the
index block included, with their sizes (`writeEntries_layout`).
-/

namespace DDBMS

open SortedAssoc BlockBuilder

/-- Compression blows a block up at most `g`-fold. -/
def Snappy.Grows (snappy : Snappy) (g : Nat) : Prop := ∀ b, (snappy.Compress b).length ≤ g * (b.length + 1)

/-- A bound for the content of a block of `es`, and a bit. -/
def blockCost (es : List (Bytes × Bytes)) : Nat := (encodeEntries es).length + 8 * es.length + 25

/-- A bound for all blocks of `es`, however they are cut. -/
def entriesCost (es : List (Bytes × Bytes)) : Nat := (encodeEntries es).length + 33 * es.length

/-- The file stays below the limit whatever the blocks are. -/
def Fits (g : Nat) (es : List (Bytes × Bytes)) : Prop := (g + 1) * (2 * entriesCost es + 25) + 16 ≤ max_file

instance (g : Nat) (es : List (Bytes × Bytes)) : Decidable (Fits g es) := inferInstanceAs (Decidable (_ ≤ _))

theorem entriesCost_append (es fs : List (Bytes × Bytes)) :
    entriesCost (es ++ fs) = entriesCost es + entriesCost fs := by
  simp only [entriesCost, encodeEntries_append, List.length_append]
  omega

theorem entriesCost_eq (es : List (Bytes × Bytes)) : entriesCost es = bytesOf es + 49 * es.length := by
  induction es with
  | nil => rfl
  | cons e es ih =>
      have : e :: es = [e] ++ es := rfl
      rw [this, entriesCost_append, bytesOf_append, ih]
      simp only [entriesCost, encodeEntries_cons, encodeEntries_nil, List.append_nil, length_encodeEntry,
        bytesOf_cons, bytesOf_nil, List.length_cons, List.length_nil, List.length_append]
      omega

theorem Fits.prefix {g : Nat} {es fs : List (Bytes × Bytes)} (h : Fits g (es ++ fs)) : Fits g es := by
  unfold Fits at *
  rw [entriesCost_append] at h
  have : (g + 1) * (2 * entriesCost es + 25) ≤ (g + 1) * (2 * (entriesCost es + entriesCost fs) + 25) :=
    Nat.mul_le_mul_left _ (by omega)
  omega

/-- What `Fits` gives without the compression. -/
theorem Fits.plain {g : Nat} {es : List (Bytes × Bytes)} (h : Fits g es) :
    2 * entriesCost es + 25 + 16 ≤ max_size ∧ g * (2 * entriesCost es + 25) + 16 ≤ max_file := by
  have hmax : max_file = max_size := rfl
  unfold Fits at h
  rw [Nat.add_mul, Nat.one_mul] at h
  omega

theorem sum_blockCost_le {bs : List (List (Bytes × Bytes))} (h : ∀ b ∈ bs, b ≠ []) :
    (bs.map blockCost).sum ≤ entriesCost bs.flatten := by
  induction bs with
  | nil => simp
  | cons b bs ih =>
      have hb : 0 < b.length := List.length_pos_iff.mpr (h b List.mem_cons_self)
      have := ih (fun b hb => h b (List.mem_cons_of_mem _ hb))
      rw [List.map_cons, List.sum_cons, List.flatten_cons, entriesCost_append]
      have : blockCost b ≤ entriesCost b := by
        unfold blockCost entriesCost
        omega
      omega

/-! ## Where the blocks end -/

/-- The size of a block in the file. -/
def blockSize (snappy : Snappy) (es : List (Bytes × Bytes)) : Nat := (snappy.Compress (blockContent es)).length

/-- The entries in blocks, `cur` in the first: a block ends with the entry with which its content reaches `BLOCK_SPACE`. -/
def cutBlocks (cur : List (Bytes × Bytes)) : List (Bytes × Bytes) → List (List (Bytes × Bytes))
  | [] => if cur = [] then [] else [cur]
  | e :: es =>
    if (blockContent (cur ++ [e])).length ≥ StorageOption.BLOCK_SPACE then (cur ++ [e]) :: cutBlocks [] es
    else cutBlocks (cur ++ [e]) es

/-- The index of blocks that are one behind the other from `offset` on. -/
def indexEntries (snappy : Snappy) : Nat → List (List (Bytes × Bytes)) → List (Bytes × Bytes)
  | _, [] => []
  | offset, b :: bs =>
    (lastKey b, leBytes 8 offset ++ leBytes 8 (blockSize snappy b)) :: indexEntries snappy (offset + blockSize snappy b) bs

/-- The blocks of a table with the entries `es`: the data blocks, and the index block. -/
def tableBlocks (snappy : Snappy) (es : List (Bytes × Bytes)) : List (List (Bytes × Bytes)) :=
  cutBlocks [] es ++ [indexEntries snappy 0 (cutBlocks [] es)]

theorem flatten_cutBlocks (cur es : List (Bytes × Bytes)) : (cutBlocks cur es).flatten = cur ++ es := by
  induction es generalizing cur with
  | nil =>
      rw [cutBlocks]
      split
      · rename_i hnil
        rw [hnil]
        rfl
      · simp
  | cons e es ih =>
      rw [cutBlocks]
      split
      · rw [List.flatten_cons, ih]
        simp
      · rw [ih]
        simp

/-- Blocks that go on as others have the same entries. -/
theorem flatten_of_cut {bs bs' : List (List (Bytes × Bytes))} {cur cur' es : List (Bytes × Bytes)}
    (h : ∀ fs, bs' ++ cutBlocks cur' fs = bs ++ cutBlocks cur (es ++ fs)) : bs'.flatten ++ cur' = bs.flatten ++ cur ++ es := by
  have hflat := congrArg List.flatten (h [])
  rw [List.flatten_append, List.flatten_append, flatten_cutBlocks, flatten_cutBlocks] at hflat
  simpa using hflat

theorem indexEntries_snoc (snappy : Snappy) (offset : Nat) (bs : List (List (Bytes × Bytes))) (b : List (Bytes × Bytes)) :
    indexEntries snappy offset (bs ++ [b]) = indexEntries snappy offset bs ++
      [(lastKey b, leBytes 8 (offset + (bs.map (blockSize snappy)).sum) ++ leBytes 8 (blockSize snappy b))] := by
  induction bs generalizing offset with
  | nil => rfl
  | cons c bs ih =>
      rw [List.cons_append, indexEntries, indexEntries, ih, List.map_cons, List.sum_cons, ← Nat.add_assoc]
      rfl

theorem sizeAt_handle {offset size : Nat} (h : size ≤ max_file) : sizeAt (leBytes 8 offset ++ leBytes 8 size) = size := by
  have hlt : max_file < 256 ^ 8 := by decide
  have hread := readAt_mid (w := 8) (n := size) (by omega) (leBytes 8 offset) []
  rw [List.append_nil, length_leBytes] at hread
  rw [sizeAt, hread, Option.getD_some]

/-- The index says the sizes of the blocks. -/
theorem map_sizeAt_indexEntries {snappy : Snappy} {bs : List (List (Bytes × Bytes))} (offset : Nat)
    (h : (bs.map (blockSize snappy)).sum ≤ max_file) :
    (indexEntries snappy offset bs).map (fun e => sizeAt e.2) = bs.map (blockSize snappy) := by
  induction bs generalizing offset with
  | nil => rfl
  | cons b bs ih =>
      rw [List.map_cons, List.sum_cons] at h
      rw [indexEntries, List.map_cons, List.map_cons, sizeAt_handle (by omega), ih _ (by omega)]

namespace TableBuilder

variable {snappy : Snappy} {t t' : TableBuilder} {bs : List (List (Bytes × Bytes))}
  {es idx cur : List (Bytes × Bytes)} {key value : Bytes}

/-- The entries so far are `bs.flatten ++ cur`: `bs` are in the file, `cur` in the data block. -/
structure Built (snappy : Snappy) (t : TableBuilder) (bs : List (List (Bytes × Bytes)))
    (idx cur : List (Bytes × Bytes)) : Prop where
  blocks : List.Forall₂ (fun e b => b ≠ [] ∧ e.1 = lastKey b ∧ BlockAt snappy t.file_ e.2 b) idx bs
  data : t.datablock_.Marked cur
  index : t.indexblock_.Marked idx
  entries : idx = indexEntries snappy 0 bs
  offset : t.offset_ = t.file_.length
  length : t.file_.length = (bs.map (blockSize snappy)).sum
  file : t.file_.length ≤ max_file
  last : cur ≠ [] → t.last_key_ = lastKey cur
  size : ∀ g, snappy.Grows g → t.file_.length ≤ g * (bs.map blockCost).sum

theorem built_nil : Built snappy {} [] [] [] :=
  ⟨List.Forall₂.nil, marked_nil, marked_nil, rfl, rfl, rfl, by simp, fun h => absurd rfl h, fun _ _ => by simp⟩

/-! ## Writing a block -/

theorem ofstreamWrite_eq_some {file b file' : Bytes} :
    ofstreamWrite file b = some file' ↔ file ++ b = file' ∧ file'.length ≤ max_file :=
  bounded_eq_some List.length_append

/-- Writing a block appends its compressed content and yields a handle that points at it. -/
theorem writeContent_some {block : BlockBuilder} {s : Bytes} (hb : block.Marked es)
    (hoff : t.offset_ = t.file_.length) (h : t.writeContent snappy block = some (t', s)) :
    (blockContent es).length + 1 ≤ blockCost es ∧ t'.file_ = t.file_ ++ snappy.Compress (blockContent es) ∧
      s = leBytes 8 t.file_.length ++ leBytes 8 (blockSize snappy es) ∧ BlockAt snappy t'.file_ s es ∧
      t' = { t with file_ := t'.file_, size_ := t'.size_, offset_ := t'.file_.length } := by
  simp only [writeContent, Option.bind_eq_bind, Option.bind_eq_some_iff] at h
  obtain ⟨⟨c, b'⟩, hfin, file, hfile, hres⟩ := h
  obtain ⟨rfl, hfit⟩ := ofstreamWrite_eq_some.mp hfile
  obtain ⟨rfl, rfl⟩ := Prod.mk.inj (Option.some.inj hres)
  obtain ⟨hc, hlen⟩ := hb.built.finish_some hfin
  obtain ⟨rfl, -⟩ := hb.finish_some hfin
  refine ⟨by unfold blockCost; omega, rfl, by rw [hoff]; rfl,
    ⟨hfit, t.file_, blockContent es, [], by simp, hc, by rw [hoff]⟩, ?_⟩
  simp [hoff]

theorem writeContent_isSome {block : BlockBuilder} {g : Nat} (hb : block.Marked es) (hg : snappy.Grows g)
    (hfit : blockCost es ≤ max_size) (hfile : t.file_.length + g * blockCost es ≤ max_file) :
    ∃ t' s, t.writeContent snappy block = some (t', s) ∧
      t'.file_.length ≤ t.file_.length + g * blockCost es := by
  obtain ⟨c, b', hfin, hlen⟩ := hb.built.finish_isSome (by unfold blockCost at hfit; omega)
  have hgrow : (snappy.Compress c).length ≤ g * blockCost es :=
    le_trans (hg c) (Nat.mul_le_mul_left _ (by unfold blockCost; omega))
  have hwrite : ofstreamWrite t.file_ (snappy.Compress c) = some (t.file_ ++ snappy.Compress c) :=
    ofstreamWrite_eq_some.mpr ⟨rfl, by rw [List.length_append]; omega⟩
  refine ⟨{ t with
    file_ := t.file_ ++ snappy.Compress c
    size_ := (snappy.Compress c).length
    offset_ := t.offset_ + (snappy.Compress c).length },
    leBytes 8 t.offset_ ++ leBytes 8 (snappy.Compress c).length, ?_, ?_⟩
  · simp only [writeContent, hfin, hwrite, Option.bind_eq_bind, Option.bind_some]
  · rw [List.length_append]
    omega

theorem Forall₂.grow {file b : Bytes} (h : List.Forall₂
      (fun (e : Bytes × Bytes) b => b ≠ [] ∧ e.1 = lastKey b ∧ BlockAt snappy file e.2 b) idx bs)
    (hfit : (file ++ b).length ≤ max_file) : List.Forall₂
      (fun (e : Bytes × Bytes) b' => b' ≠ [] ∧ e.1 = lastKey b' ∧ BlockAt snappy (file ++ b) e.2 b') idx bs :=
  h.imp (fun _ _ ⟨hne, hl, hb⟩ => ⟨hne, hl, hb.grow hfit⟩)

/-- `writeBlock(&datablock_)` moves the current entries into the file. -/
theorem Built.writeDataBlock (h : Built snappy t bs idx cur) (hne : cur ≠ [])
    (hw : t.writeDataBlock snappy = some t') :
    ∃ idx', Built snappy t' (bs ++ [cur]) idx' [] := by
  simp only [TableBuilder.writeDataBlock, Option.bind_eq_bind, Option.bind_eq_some_iff] at hw
  obtain ⟨⟨u, s⟩, hu, ib, hib, hres⟩ := hw
  obtain ⟨hlen, hfile, hs, hat, heq⟩ := writeContent_some h.data h.offset hu
  obtain rfl := Option.some.inj hres
  have hidx : u.indexblock_ = t.indexblock_ := by rw [heq]
  have hlast : u.last_key_ = lastKey cur := by rw [heq]; exact h.last hne
  dsimp only at hib
  rw [hidx, hlast] at hib
  refine ⟨idx ++ [(lastKey cur, s)], ?_, marked_reset, h.index.add_some hib, ?_, ?_, ?_, hat.file_fits,
    fun h => absurd rfl h, ?_⟩
  · have hfit := hat.file_fits
    rw [hfile] at hfit
    have hold := Forall₂.grow h.blocks hfit
    rw [← hfile] at hold
    exact List.rel_append hold (List.Forall₂.cons ⟨hne, rfl, hat⟩ List.Forall₂.nil)
  · rw [indexEntries_snoc, Nat.zero_add, ← h.length, ← h.entries, hs]
  · show u.offset_ = u.file_.length
    rw [heq]
  · show u.file_.length = _
    rw [hfile, List.length_append, h.length, List.map_append, List.sum_append]
    simp [blockSize]
  · intro g hg
    show u.file_.length ≤ _
    rw [hfile, List.length_append, List.map_append, List.sum_append, Nat.mul_add]
    have := h.size g hg
    have := le_trans (hg (blockContent cur)) (Nat.mul_le_mul_left g hlen)
    simp only [List.map_cons, List.map_nil, List.sum_cons, List.sum_nil, Nat.add_zero]
    omega

/-- The index of blocks is no bigger than the blocks. -/
theorem encodeEntries_index_le {P : Bytes × Bytes → List (Bytes × Bytes) → Prop}
    (h : List.Forall₂ (fun e b => b ≠ [] ∧ e.1 = lastKey b ∧ P e b) idx bs)
    (hP : ∀ e b, P e b → e.2.length = 16) :
    (encodeEntries idx).length + 8 * idx.length ≤ entriesCost bs.flatten := by
  induction h with
  | nil => simp
  | @cons e b idx bs hb _ ih =>
      obtain ⟨hne, hlast, hp⟩ := hb
      obtain ⟨b', x, rfl⟩ := (List.eq_nil_or_concat b).resolve_left hne
      rw [List.concat_eq_append, lastKey_append] at hlast
      have := hP _ _ hp
      rw [List.flatten_cons, entriesCost_append, List.concat_eq_append, entriesCost_append]
      have hx : entriesCost [x] = x.1.length + x.2.length + 49 := by
        rw [entriesCost_eq]
        simp
      simp only [encodeEntries_cons, List.length_append, length_encodeEntry, List.length_cons]
      rw [hlast]
      omega

theorem Built.index_le (h : Built snappy t bs idx cur) :
    (encodeEntries idx).length + 8 * idx.length ≤ entriesCost bs.flatten :=
  encodeEntries_index_le h.blocks (fun _ _ hb => hb.length)

theorem Built.writeDataBlock_isSome {g : Nat} (h : Built snappy t bs idx cur) (hne : cur ≠ [])
    (hsorted : Sorted (bs.flatten ++ cur)) (hg : snappy.Grows g) (hfit : Fits g (bs.flatten ++ cur)) :
    ∃ t', t.writeDataBlock snappy = some t' := by
  obtain ⟨hplain, hgplain⟩ := hfit.plain
  rw [entriesCost_append] at hplain hgplain
  have hcur : blockCost cur ≤ entriesCost cur := by
    have := List.length_pos_iff.mpr hne
    unfold blockCost entriesCost
    omega
  -- the file has room for the block
  have hfile : t.file_.length + g * blockCost cur ≤ max_file := by
    have h1 := h.size g hg
    have h2 := Nat.mul_le_mul_left g (sum_blockCost_le (blocks_ne_nil h.blocks))
    have h3 := Nat.mul_le_mul_left g hcur
    have h4 : g * entriesCost bs.flatten + g * entriesCost cur ≤
        g * (2 * (entriesCost bs.flatten + entriesCost cur) + 25) := by
      rw [← Nat.mul_add]
      exact Nat.mul_le_mul_left g (by omega)
    omega
  obtain ⟨u, s, hu, -⟩ := writeContent_isSome h.data hg (by omega) hfile
  obtain ⟨-, -, -, hat, heq⟩ := writeContent_some h.data h.offset hu
  have hidx : u.indexblock_ = t.indexblock_ := by rw [heq]
  have hlast : u.last_key_ = lastKey cur := by rw [heq]; exact h.last hne
  -- and the index block for its entry, whose key is behind all others
  obtain ⟨ib, hib⟩ := h.index.built.add_isSome (lastKey cur) s (by
    intro e he
    obtain ⟨b, hb, hbne, heb⟩ := index_mem h.blocks e he
    obtain ⟨hs, hscur, hcross⟩ := List.pairwise_append.mp hsorted
    obtain ⟨x, hx, hxb⟩ := (lastKey_spec ((List.pairwise_flatten.mp hs).1 b hb) hbne).1
    obtain ⟨y, hy, hyc⟩ := (lastKey_spec hscur hne).1
    rw [heb, ← hxb, ← hyc]
    exact hcross x (List.mem_flatten.mpr ⟨b, hb, hx⟩) y hy) (by
    have h1 := h.index_le
    have h2 := hat.length
    obtain ⟨cur', x, rfl⟩ := (List.eq_nil_or_concat cur).resolve_left hne
    rw [List.concat_eq_append, lastKey_append]
    rw [List.concat_eq_append, entriesCost_append, show entriesCost [x] = x.1.length + x.2.length + 49 by
      rw [entriesCost_eq]; simp] at hplain
    simp only [encodeEntries_append, encodeEntries_cons, encodeEntries_nil, List.append_nil,
      List.length_append, length_encodeEntry, h2]
    omega)
  refine ⟨{ u with indexblock_ := ib, datablock_ := BlockBuilder.reset }, ?_⟩
  simp only [TableBuilder.writeDataBlock, hu, Option.bind_eq_bind, Option.bind_some, hidx, hlast, hib]

/-! ## The operations -/

/-- `flush` leaves no current entries. -/
theorem Built.flush (h : Built snappy t bs idx cur) (hf : t.flush snappy = some t') :
    ∃ idx', Built snappy t' (bs ++ cutBlocks cur []) idx' [] := by
  unfold TableBuilder.flush at hf
  rw [cutBlocks]
  split at hf
  · rename_i hempty
    obtain rfl := Option.some.inj hf
    obtain rfl := h.data.built.empty_iff.mp hempty
    rw [if_pos rfl, List.append_nil]
    exact ⟨idx, h⟩
  · rename_i hne
    have hcur : cur ≠ [] := fun hc => hne (h.data.built.empty_iff.mpr hc)
    rw [if_neg hcur]
    exact h.writeDataBlock hcur hf

theorem Built.flush_isSome {g : Nat} (h : Built snappy t bs idx cur)
    (hsorted : Sorted (bs.flatten ++ cur)) (hg : snappy.Grows g) (hfit : Fits g (bs.flatten ++ cur)) :
    ∃ t', t.flush snappy = some t' := by
  unfold TableBuilder.flush
  split
  · exact ⟨t, rfl⟩
  · rename_i hne
    exact h.writeDataBlock_isSome (fun hc => hne (h.data.built.empty_iff.mpr hc)) hsorted hg hfit

/-- The builder with the entry in the data block, before a flush. -/
theorem Built.addData {d : BlockBuilder} (h : Built snappy t bs idx cur)
    (hd : t.datablock_.add key value = some d) :
    Built snappy { t with last_key_ := key, datablock_ := d, num_entries_ := t.num_entries_ + 1 } bs idx
      (cur ++ [(key, value)]) :=
  ⟨h.blocks, h.data.add_some hd, h.index, h.entries, h.offset, h.length, h.file,
    fun _ => (lastKey_append cur (key, value)).symm, h.size⟩

/-- **`add`** adds the entry, and ends the block if it is full. -/
theorem Built.add (h : Built snappy t bs idx cur) (ha : t.add snappy key value = some t') :
    ∃ bs' idx' cur', Built snappy t' bs' idx' cur' ∧
      ∀ fs, bs' ++ cutBlocks cur' fs = bs ++ cutBlocks cur ([(key, value)] ++ fs) := by
  simp only [TableBuilder.add, Option.bind_eq_bind, Option.bind_eq_some_iff] at ha
  obtain ⟨d, hd, hrest⟩ := ha
  have h' := h.addData hd
  have hsize : d.estimated_size = (blockContent (cur ++ [(key, value)])).length := h'.data.estimated_size_eq
  rw [hsize] at hrest
  split at hrest
  · rename_i hfull
    obtain ⟨idx', hb⟩ := h'.flush hrest
    refine ⟨_, idx', [], hb, fun fs => ?_⟩
    rw [cutBlocks, if_neg (by simp), List.append_assoc, List.singleton_append, List.singleton_append, cutBlocks, if_pos hfull]
  · rename_i hroom
    obtain rfl := Option.some.inj hrest
    refine ⟨bs, idx, _, h', fun fs => ?_⟩
    rw [List.singleton_append, cutBlocks, if_neg hroom]

theorem Built.add_isSome {g : Nat} (h : Built snappy t bs idx cur)
    (hsorted : Sorted (bs.flatten ++ cur ++ [(key, value)])) (hg : snappy.Grows g)
    (hfit : Fits g (bs.flatten ++ cur ++ [(key, value)])) : ∃ t', t.add snappy key value = some t' := by
  obtain ⟨d, hd⟩ := h.data.built.add_isSome key value
    (fun e he => (List.pairwise_append.mp hsorted).2.2 e (List.mem_append_right _ he) (key, value) (by simp)) (by
      have hplain := hfit.plain.1
      rw [List.append_assoc, entriesCost_append] at hplain
      unfold entriesCost at hplain
      omega)
  have h' := h.addData hd
  rw [List.append_assoc] at hsorted hfit
  simp only [TableBuilder.add, hd, Option.bind_eq_bind, Option.bind_some]
  split
  · exact h'.flush_isSome hsorted hg hfit
  · exact ⟨_, rfl⟩

/-- **`finish`** completes the file. -/
theorem Built.finish (h : Built snappy t bs idx cur) (hf : t.finish snappy = some t') :
    ∃ s, Layout snappy t'.file_ (bs ++ cutBlocks cur []) (indexEntries snappy 0 (bs ++ cutBlocks cur [])) s ∧
      sizeAt s = blockSize snappy (indexEntries snappy 0 (bs ++ cutBlocks cur [])) ∧
      ((bs ++ cutBlocks cur []).map (blockSize snappy)).sum ≤ max_file := by
  simp only [TableBuilder.finish, TableBuilder.writeIndexBlock, Option.bind_eq_bind,
    Option.bind_eq_some_iff] at hf
  obtain ⟨u, hu, ⟨v, s⟩, hv, file, hfile, hres⟩ := hf
  obtain ⟨idx', hb⟩ := h.flush hu
  obtain ⟨-, hvfile, hs, hat, heq⟩ := writeContent_some hb.index hb.offset hv
  obtain ⟨rfl, hfit⟩ := ofstreamWrite_eq_some.mp hfile
  obtain rfl := Option.some.inj hres
  have hvfit := hat.file_fits
  rw [hvfile] at hvfit
  have hblocks := Forall₂.grow hb.blocks hvfit
  rw [← hvfile] at hblocks
  have hlen : blockSize snappy idx' ≤ max_file := by
    rw [List.length_append] at hvfit
    exact Nat.le_trans (Nat.le_add_left _ _) hvfit
  rw [← hb.entries, ← hb.length]
  exact ⟨s, ⟨Forall₂.grow hblocks hfit, hat.grow hfit, v.file_, rfl⟩, by rw [hs, sizeAt_handle hlen], hb.file⟩

theorem Built.finish_isSome {g : Nat} (h : Built snappy t bs idx cur)
    (hsorted : Sorted (bs.flatten ++ cur)) (hg : snappy.Grows g) (hfit : Fits g (bs.flatten ++ cur)) :
    ∃ t', t.finish snappy = some t' := by
  obtain ⟨u, hu⟩ := h.flush_isSome hsorted hg hfit
  obtain ⟨idx', hb⟩ := h.flush hu
  obtain ⟨bs', hbs'⟩ : ∃ bs', bs' = bs ++ cutBlocks cur [] := ⟨_, rfl⟩
  have hflat : bs'.flatten = bs.flatten ++ cur := by
    rw [hbs', List.flatten_append, flatten_cutBlocks, List.append_nil]
  rw [← hbs'] at hb
  rw [← hflat] at hfit
  obtain ⟨hplain, hgplain⟩ := hfit.plain
  have hidx : blockCost idx' ≤ entriesCost bs'.flatten + 25 := by
    have := hb.index_le
    unfold blockCost
    omega
  have hfile : u.file_.length + g * blockCost idx' + 16 ≤ max_file := by
    have h1 := hb.size g hg
    have h2 := Nat.mul_le_mul_left g (sum_blockCost_le (blocks_ne_nil hb.blocks))
    have h3 := Nat.mul_le_mul_left g hidx
    have h4 : g * entriesCost bs'.flatten + g * (entriesCost bs'.flatten + 25) =
        g * (2 * entriesCost bs'.flatten + 25) := by
      rw [← Nat.mul_add]
      congr 1
      omega
    omega
  obtain ⟨v, s, hv, hlen⟩ := writeContent_isSome (t := u) hb.index hg (by omega) (by omega)
  obtain ⟨-, -, -, hat, -⟩ := writeContent_some hb.index hb.offset hv
  have hs := hat.length
  have hwrite : ofstreamWrite v.file_ s = some (v.file_ ++ s) := by
    rw [ofstreamWrite_eq_some, List.length_append]
    exact ⟨rfl, by omega⟩
  refine ⟨{ v with file_ := v.file_ ++ s, indexblock_ := BlockBuilder.reset }, ?_⟩
  simp only [TableBuilder.finish, TableBuilder.writeIndexBlock, hu, hv, hwrite, Option.bind_eq_bind,
    Option.bind_some]

/-! ## A whole memtable -/

/-- Entries added one after the other. -/
def addEntries (snappy : Snappy) (t : TableBuilder) (es : List (Bytes × Bytes)) : Option TableBuilder :=
  es.foldlM (fun t e => t.add snappy e.1 e.2) t

/-- The file of a table with the entries `es`. -/
def writeEntries (snappy : Snappy) (es : List (Bytes × Bytes)) : Option Bytes := do
  let t ← ({} : TableBuilder).addEntries snappy es
  let t ← t.finish snappy
  some t.file_

theorem addEntries_cons (e : Bytes × Bytes) (es : List (Bytes × Bytes)) :
    t.addEntries snappy (e :: es) = (t.add snappy e.1 e.2).bind fun t => t.addEntries snappy es := by
  rw [addEntries, List.foldlM_cons]
  rfl

theorem Built.addEntries (h : Built snappy t bs idx cur) (ha : t.addEntries snappy es = some t') :
    ∃ bs' idx' cur', Built snappy t' bs' idx' cur' ∧ ∀ fs, bs' ++ cutBlocks cur' fs = bs ++ cutBlocks cur (es ++ fs) := by
  induction es generalizing t bs idx cur with
  | nil =>
      obtain rfl := Option.some.inj ha
      exact ⟨bs, idx, cur, h, fun _ => rfl⟩
  | cons e es ih =>
      rw [addEntries_cons] at ha
      obtain ⟨u, hu, ha⟩ := Option.bind_eq_some_iff.mp ha
      obtain ⟨bs₁, idx₁, cur₁, h₁, hcut₁⟩ := h.add hu
      obtain ⟨bs', idx', cur', h', hcut'⟩ := ih h₁ ha
      exact ⟨bs', idx', cur', h', fun fs => (hcut' fs).trans (hcut₁ (es ++ fs))⟩

theorem Built.addEntries_isSome {g : Nat} (h : Built snappy t bs idx cur)
    (hsorted : Sorted (bs.flatten ++ cur ++ es)) (hg : snappy.Grows g) (hfit : Fits g (bs.flatten ++ cur ++ es)) :
    ∃ t', t.addEntries snappy es = some t' := by
  induction es generalizing t bs idx cur with
  | nil => exact ⟨t, rfl⟩
  | cons e es ih =>
      have hsplit : bs.flatten ++ cur ++ e :: es = (bs.flatten ++ cur ++ [(e.1, e.2)]) ++ es := by simp
      rw [hsplit] at hsorted hfit
      obtain ⟨u, hu⟩ := h.add_isSome (List.pairwise_append.mp hsorted).1 hg hfit.prefix
      obtain ⟨bs₁, idx₁, cur₁, h₁, hcut₁⟩ := h.add hu
      rw [← flatten_of_cut hcut₁] at hsorted hfit
      obtain ⟨t', ht'⟩ := ih h₁ hsorted hfit
      exact ⟨t', by rw [addEntries_cons, hu]; exact ht'⟩

/-- **What a builder writes**: the blocks of the entries, and the index of them. -/
theorem writeEntries_layout {file : Bytes} (hf : writeEntries snappy es = some file) :
    ∃ s, Layout snappy file (cutBlocks [] es) (indexEntries snappy 0 (cutBlocks [] es)) s ∧
      ∀ stack, RoomForAll stack (indexEntries snappy 0 (cutBlocks [] es)) s ↔
        ∀ b ∈ tableBlocks snappy es, SSTable.OnStack stack (blockSize snappy b) := by
  simp only [writeEntries, Option.bind_eq_bind, Option.bind_eq_some_iff] at hf
  obtain ⟨t, ht, u, hu, hfile⟩ := hf
  obtain ⟨bs, idx, cur, hb, hcut⟩ := built_nil.addEntries ht
  obtain rfl := Option.some.inj hfile
  have hblocks : bs ++ cutBlocks cur [] = cutBlocks [] es := by
    rw [hcut, List.append_nil]
    rfl
  obtain ⟨s, hlayout, hindex, hsum⟩ := hb.finish hu
  rw [hblocks] at hlayout hindex hsum
  refine ⟨s, hlayout, fun stack => ?_⟩
  have hsizes : (indexEntries snappy 0 (cutBlocks [] es)).map (fun e => sizeAt e.2) = (cutBlocks [] es).map (blockSize snappy) :=
    map_sizeAt_indexEntries 0 hsum
  have hdata : (∀ e ∈ indexEntries snappy 0 (cutBlocks [] es), SSTable.OnStack stack (sizeAt e.2)) ↔
      ∀ b ∈ cutBlocks [] es, SSTable.OnStack stack (blockSize snappy b) := by
    rw [← List.forall_mem_map (f := fun e : Bytes × Bytes => sizeAt e.2) (P := SSTable.OnStack stack), hsizes,
      List.forall_mem_map]
  rw [RoomForAll, hindex, hdata, tableBlocks, List.forall_mem_append, List.forall_mem_singleton, and_comm]

/-- **What a builder writes** is a table with the entries added. -/
theorem writeEntries_some {file : Bytes} (hf : writeEntries snappy es = some file) : IsTable snappy file es := by
  obtain ⟨s, hlayout, -⟩ := writeEntries_layout hf
  exact ⟨_, _, s, (flatten_cutBlocks [] es).symm, hlayout⟩

theorem writeEntries_isSome {g : Nat} (hsorted : Sorted es) (hg : snappy.Grows g) (hfit : Fits g es) :
    ∃ file, writeEntries snappy es = some file := by
  obtain ⟨t, ht⟩ := built_nil.addEntries_isSome (by simpa using hsorted) hg (by simpa using hfit)
  obtain ⟨bs, idx, cur, hb, hcut⟩ := built_nil.addEntries ht
  have hes : bs.flatten ++ cur = es := flatten_of_cut hcut
  obtain ⟨u, hu⟩ := hb.finish_isSome (by rwa [hes]) hg (by rwa [hes])
  exact ⟨u.file_, by simp only [writeEntries, ht, hu, Option.bind_eq_bind, Option.bind_some]⟩

section Memtable

variable {m : SkipList} {file : Bytes}

/-- The loop of `create_sstable` adds the nodes that are left. By induction on them. -/
theorem addAll_eq : ∀ (suf pre : List Addr) (fuel : Nat) (t : TableBuilder), m.Repr (pre ++ suf) →
    suf.length ≤ fuel → TableBuilder.addAll snappy m fuel suf.head? t = t.addEntries snappy (suf.map m.entry) := by
  intro suf
  induction suf with
  | nil =>
      intro pre fuel t _ _
      cases fuel <;> rfl
  | cons a suf ih =>
      intro pre fuel t hr hfuel
      cases fuel with
      | zero => simp at hfuel
      | succ fuel =>
          have hr' : m.Repr ((pre ++ [a]) ++ suf) := by simpa using hr
          rw [List.map_cons, addEntries_cons]
          simp only [List.head?_cons, TableBuilder.addAll, hr.iteratorNext, Option.bind_eq_bind, Option.bind_some]
          exact congrArg _ (funext fun u => ih (pre ++ [a]) fuel u hr' (by simpa using hfuel))

/-- `create_sstable` writes the entries of the memtable. -/
theorem create_sstable_eq (h : m.Holds es) : create_sstable snappy m = writeEntries snappy es := by
  obtain ⟨ns, hr, rfl⟩ := h
  simp only [create_sstable, hr.seekToFirst, Option.bind_eq_bind, Option.bind_some]
  rw [addAll_eq ns [] m.size {} hr (le_of_eq hr.num_entries.symm)]
  rfl

/-- **What `create_sstable` writes** is a table with the entries of the memtable. -/
theorem create_sstable_some (h : m.Holds es) (hf : create_sstable snappy m = some file) :
    IsTable snappy file es :=
  writeEntries_some (create_sstable_eq h ▸ hf)

/-- **`create_sstable` writes a file** unless the memtable is too big. -/
theorem create_sstable_isSome {g : Nat} (h : m.Holds es) (hg : snappy.Grows g) (hfit : Fits g es) :
    ∃ file, create_sstable snappy m = some file := by
  rw [create_sstable_eq h]
  exact writeEntries_isSome h.sorted hg hfit

end Memtable
end TableBuilder

/-! ## A compressor

The Snappy format without back references: the length of the content as a varint, then each byte as a literal
of length one. -/

namespace SnappyLiterals

def varint : Nat → Nat → Bytes
  | 0, _ => []
  | fuel + 1, n =>
    if n < 128 then [UInt8.ofNat n] else UInt8.ofNat (n % 128 + 128) :: varint fuel (n / 128)

def literals (b : Bytes) : Bytes := b.flatMap fun x => [0, x]

def ofLiterals : Bytes → Bytes
  | _ :: x :: rest => x :: ofLiterals rest
  | _ => []

def snappy : Snappy where
  Compress b := varint (b.length + 1) b.length ++ literals b
  Uncompress b := ofLiterals (b.dropWhile (fun x => 128 ≤ x)).tail

theorem dropWhile_varint (rest : Bytes) : ∀ fuel n, n < fuel →
    ((varint fuel n ++ rest).dropWhile (fun x => 128 ≤ x)).tail = rest := by
  intro fuel
  induction fuel with
  | zero => intro n h; omega
  | succ fuel ih =>
      intro n h
      rw [varint]
      split
      · rename_i hn
        have : ¬ (128 : UInt8) ≤ UInt8.ofNat n := by
          rw [UInt8.le_iff_toNat_le, UInt8.toNat_ofNat']
          have : (128 : UInt8).toNat = 128 := rfl
          omega
        rw [List.singleton_append, List.dropWhile_cons_of_neg (by simpa using this), List.tail_cons]
      · have : (128 : UInt8) ≤ UInt8.ofNat (n % 128 + 128) := by
          rw [UInt8.le_iff_toNat_le, UInt8.toNat_ofNat']
          have : (128 : UInt8).toNat = 128 := rfl
          omega
        rw [List.cons_append, List.dropWhile_cons_of_pos (by simpa using this)]
        exact ih (n / 128) (by omega)

theorem ofLiterals_literals (b : Bytes) : ofLiterals (literals b) = b := by
  induction b with
  | nil => rfl
  | cons x b ih =>
      show x :: ofLiterals (literals b) = x :: b
      rw [ih]

theorem inverts : snappy.Inverts := by
  intro b
  show ofLiterals ((varint (b.length + 1) b.length ++ literals b).dropWhile (fun x => 128 ≤ x)).tail = b
  rw [dropWhile_varint _ _ _ (Nat.lt_succ_self _), ofLiterals_literals]

theorem length_varint_le : ∀ fuel n, (varint fuel n).length ≤ fuel := by
  intro fuel
  induction fuel with
  | zero => intro n; simp [varint]
  | succ fuel ih =>
      intro n
      rw [varint]
      split
      · simp
      · have := ih (n / 128)
        simp only [List.length_cons]
        omega

theorem length_literals (b : Bytes) : (literals b).length = 2 * b.length := by
  induction b with
  | nil => rfl
  | cons x b ih =>
      simp only [literals, List.flatMap_cons, List.length_append, List.length_cons, List.length_nil] at ih ⊢
      omega

theorem grows : snappy.Grows 3 := by
  intro b
  have h1 := length_varint_le (b.length + 1) b.length
  show (varint (b.length + 1) b.length ++ literals b).length ≤ 3 * (b.length + 1)
  rw [List.length_append, length_literals]
  omega

theorem le_length_Compress (b : Bytes) : 2 * b.length ≤ (snappy.Compress b).length := by
  show _ ≤ (varint (b.length + 1) b.length ++ literals b).length
  rw [List.length_append, length_literals]
  exact Nat.le_add_left _ _

end SnappyLiterals

end DDBMS
