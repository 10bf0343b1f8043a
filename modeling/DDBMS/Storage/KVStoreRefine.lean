import DDBMS.Storage.KVStoreBeta
import DDBMS.Storage.TableBuild

/-!
# `Storage.KVStoreRefine` — the store over its contents

The abstract store (`Contents`) is a sorted association list for the memtable and a list of them for the
SSTables, oldest first. `Represents` ties a concrete store to it: the memtable holds `mem`, and the files named
in `level_0/index` are tables of `ssts`. Every operation of the concrete store, with all its files, does what
the abstract one says, and opening the directory of a store gives back the same tables.

What the abstract store says is what the code does, not what a map does: a lookup that misses the memtable takes
the value of the oldest table that has the key, and deleting a key of the memtable just removes it there.
-/

namespace DDBMS

open SortedAssoc

/-- The contents of a store. -/
structure Contents where
  mem : List (Bytes × Bytes) := []
  ssts : List (List (Bytes × Bytes)) := []

/-- The value of the first table that has the key. -/
def firstHit (ssts : List (List (Bytes × Bytes))) (key : Bytes) : Option Bytes :=
  ssts.findSome? (List.lookup key)

/-- The empty value is a tombstone. -/
def visible (v : Option Bytes) : Option Bytes := v.filter (fun v => v ≠ [])

theorem visible_some {v : Bytes} (h : v ≠ []) : visible (some v) = some v := by
  simp [visible, Option.filter, h]

theorem visible_eq_none {o : Option Bytes} : visible o = none ↔ ∀ v, o = some v → v = [] := by
  cases o with
  | none => simp [visible]
  | some v => simp [visible, Option.filter]

namespace Contents

/-- What the store finds for a key, a tombstone included. -/
def value (c : Contents) (key : Bytes) : Option Bytes := (c.mem.lookup key).or (firstHit c.ssts key)

def put (c : Contents) (key value : Bytes) : Contents :=
  if bytesOf (SortedAssoc.put key value c.mem) > StorageOption.SSTABLE_SPACE then
    ⟨[], c.ssts ++ [SortedAssoc.put key value c.mem]⟩
  else { c with mem := SortedAssoc.put key value c.mem }

def del (c : Contents) (key : Bytes) : Contents × Bool :=
  if (c.mem.lookup key).isSome then ({ c with mem := erase key c.mem }, true)
  else if (visible (firstHit c.ssts key)).isSome then
    ({ c with mem := SortedAssoc.put key [] c.mem }, true)
  else (c, false)

end Contents

theorem lookupResult_fst (o : Option Bytes) : (lookupResult o).1 = o.isSome := by cases o <;> rfl

theorem lookupResult_inj {o o' : Option Bytes} (h : lookupResult o = lookupResult o') : o = o' := by
  cases o <;> cases o' <;> simp_all [lookupResult]

/-- The test `result.first && result.second != ""`. -/
theorem visible_test (o : Option Bytes) :
    ((lookupResult o).1 = true ∧ (lookupResult o).2 ≠ []) ↔ (visible o).isSome = true := by
  cases o with
  | none => simp [lookupResult, visible]
  | some v => by_cases hv : v = [] <;> simp [lookupResult, visible, Option.filter, hv]

theorem visible_result (o : Option Bytes) :
    (if (lookupResult o).1 = true ∧ (lookupResult o).2 ≠ [] then some (lookupResult o)
      else some (false, [])) = some (lookupResult (visible o)) := by
  cases o with
  | none => simp [lookupResult, visible]
  | some v => by_cases hv : v = [] <;> simp [lookupResult, visible, Option.filter, hv]

/-- The file of number `no` is a table of `es`. -/
def TableFile (snappy : Snappy) (dir : Dir) (no : UInt64) (es : List (Bytes × Bytes)) : Prop :=
  Sorted es ∧ ∃ file, dir.sst no = some file ∧ IsTable snappy file es

/-- The disk part of a store holds the tables `ssts`, in memory and in the files. -/
structure DiskRepresents (snappy : Snappy) (d : DiskStorage) (dir : Dir)
    (ssts : List (List (Bytes × Bytes))) : Prop where
  tables : List.Forall₂ (TableFile snappy dir) d.level0_.ssts_ ssts
  numbers : ∀ no ∈ d.level0_.ssts_, no < d.no_
  no_eq : d.no_.toNat = ssts.length
  size_eq : d.level0_.size_ = d.no_
  index : dir.index = (d.level0_.save_meta dir).index
  metaFile : dir.metaFile = (d.save_meta dir).metaFile

/-- `s` is a store with the contents `c`. -/
structure Represents (snappy : Snappy) (s : KVStore_beta) (c : Contents) : Prop where
  memtable : s.memtable_.Holds c.mem
  disk : DiskRepresents snappy s.diskstorage_ s.dir c.ssts

/-- A reader of `s` finds the contents `c`. How the files are numbered does not matter for this. -/
structure Finds (snappy : Snappy) (s : KVStore_beta) (c : Contents) : Prop where
  memtable : s.memtable_.Holds c.mem
  tables : List.Forall₂ (TableFile snappy s.dir) s.diskstorage_.level0_.ssts_ c.ssts

theorem Represents.finds {snappy : Snappy} {s : KVStore_beta} {c : Contents} (h : Represents snappy s c) :
    Finds snappy s c := ⟨h.memtable, h.disk.tables⟩

variable {snappy : Snappy} {s s' : KVStore_beta} {c : Contents} {key value : Bytes}

/-! ## Reading -/

theorem searchLoop_spec (hinv : snappy.Inverts) {dir : Dir} {nos : List UInt64}
    {ssts : List (List (Bytes × Bytes))} (h : List.Forall₂ (TableFile snappy dir) nos ssts) (key : Bytes) :
    LevelZero.searchLoop snappy dir key nos = some (lookupResult (firstHit ssts key)) := by
  induction h with
  | nil => rfl
  | @cons no es nos ssts hfile _ ih =>
      obtain ⟨hsorted, file, hno, htable⟩ := hfile
      obtain ⟨t, ht, hget⟩ := htable.get hinv hsorted
      simp only [LevelZero.searchLoop, hno, ht, hget, Option.bind_eq_bind, Option.bind_some,
        lookupResult_fst]
      cases hl : es.lookup key with
      | none => simpa [firstHit, List.findSome?_cons, hl] using ih
      | some v => simp [firstHit, hl]

theorem Finds.search (h : Finds snappy s c) (hinv : snappy.Inverts) (key : Bytes) :
    s.search snappy key = some (lookupResult (firstHit c.ssts key)) :=
  searchLoop_spec hinv h.tables key

/-- **`get`** returns the visible value. -/
theorem Finds.get (h : Finds snappy s c) (hinv : snappy.Inverts) (key : Bytes) :
    s.get snappy key = some (lookupResult (visible (c.value key))) := by
  rw [← visible_result]
  simp only [KVStore_beta.get, h.memtable.contains, h.memtable.get, h.search hinv, Option.bind_eq_bind,
    Option.bind_some, Contents.value]
  cases hl : (c.mem.lookup key).isSome with
  | true =>
      obtain ⟨v, hv⟩ := Option.isSome_iff_exists.mp hl
      simp only [hv, Option.some_or]
      rfl
  | false =>
      rw [Option.isSome_eq_false_iff, Option.isNone_iff_eq_none] at hl
      simp only [hl, Option.none_or]
      rfl

theorem Represents.search (h : Represents snappy s c) (hinv : snappy.Inverts) (key : Bytes) :
    s.search snappy key = some (lookupResult (firstHit c.ssts key)) := h.finds.search hinv key

theorem Represents.get (h : Represents snappy s c) (hinv : snappy.Inverts) (key : Bytes) :
    s.get snappy key = some (lookupResult (visible (c.value key))) := h.finds.get hinv key

/-! ## A new table -/

theorem forall₂_imp_mem {α β : Type} {R S : α → β → Prop} {l : List α} {m : List β}
    (h : List.Forall₂ R l m) (hS : ∀ a ∈ l, ∀ b, R a b → S a b) : List.Forall₂ S l m := by
  induction h with
  | nil => exact List.Forall₂.nil
  | cons hr _ ih =>
      exact List.Forall₂.cons (hS _ List.mem_cons_self _ hr)
        (ih (fun a ha => hS a (List.mem_cons_of_mem _ ha)))

theorem tableFile_other {dir : Dir} {no n : UInt64} {es : List (Bytes × Bytes)} {file : Bytes}
    (h : TableFile snappy dir n es) (hne : n ≠ no) :
    TableFile snappy { dir with sst := fun x => if x = no then some file else dir.sst x } n es := by
  obtain ⟨hs, f, hf, ht⟩ := h
  exact ⟨hs, f, by simpa [hne] using hf, ht⟩

theorem toNat_succ {n : UInt64} (h : n.toNat + 1 < 2 ^ 64) : (n + 1).toNat = n.toNat + 1 := by
  rw [UInt64.toNat_add, UInt64.toNat_one, Nat.mod_eq_of_lt h]

/-- A table in a new file comes behind the others. -/
theorem LevelZero.add_tables {l l' : LevelZero} {dir dir' : Dir} {ssts : List (List (Bytes × Bytes))} {m : SkipList}
    {es : List (Bytes × Bytes)} {no : UInt64} (h : List.Forall₂ (TableFile snappy dir) l.ssts_ ssts) (hm : m.Holds es)
    (hno : no ∉ l.ssts_) (hadd : l.add snappy dir m no = some (l', dir')) :
    l'.ssts_ = l.ssts_ ++ [no] ∧ List.Forall₂ (TableFile snappy dir') l'.ssts_ (ssts ++ [es]) := by
  simp only [LevelZero.add, Option.bind_eq_bind, Option.bind_eq_some_iff] at hadd
  obtain ⟨file, hfile, hl⟩ := hadd
  obtain ⟨rfl, rfl⟩ := Prod.mk.inj (Option.some.inj hl)
  refine ⟨rfl, List.rel_append ?_ (List.Forall₂.cons ⟨hm.sorted, file, by simp [LevelZero.save_meta],
    TableBuilder.create_sstable_some hm hfile⟩ List.Forall₂.nil)⟩
  exact forall₂_imp_mem h (fun n hn es' hes' => tableFile_other hes' (fun heq => hno (heq ▸ hn)))

/-- **A spill** adds the memtable as the newest table. -/
theorem DiskRepresents.add {d d' : DiskStorage} {dir dir' : Dir} {ssts : List (List (Bytes × Bytes))}
    {m : SkipList} {es : List (Bytes × Bytes)} (h : DiskRepresents snappy d dir ssts) (hm : m.Holds es)
    (hroom : ssts.length + 1 < 2 ^ 64) (hadd : d.add snappy dir m = some (d', dir')) :
    DiskRepresents snappy d' dir' (ssts ++ [es]) := by
  simp only [DiskStorage.add, Option.bind_eq_bind, Option.bind_eq_some_iff] at hadd
  obtain ⟨⟨l, dir₁⟩, hl, hres⟩ := hadd
  obtain ⟨rfl, rfl⟩ := Prod.mk.inj (Option.some.inj hres)
  have hno : (d.no_ + 1).toNat = d.no_.toNat + 1 := toNat_succ (by rw [h.no_eq]; exact hroom)
  -- the new file has a new number
  have hfresh : d.no_ ∉ d.level0_.ssts_ := fun hmem => absurd (h.numbers _ hmem) (UInt64.lt_irrefl _)
  obtain ⟨hssts, htables⟩ := LevelZero.add_tables h.tables hm hfresh hl
  simp only [LevelZero.add, Option.bind_eq_bind, Option.bind_eq_some_iff] at hl
  obtain ⟨file, -, hl⟩ := hl
  obtain ⟨rfl, rfl⟩ := Prod.mk.inj (Option.some.inj hl)
  refine ⟨?_, ?_, ?_, ?_, rfl, rfl⟩
  · exact htables
  · intro n hn
    rw [UInt64.lt_iff_toNat_lt]
    show n.toNat < (d.no_ + 1).toNat
    rw [hno]
    rcases List.mem_append.mp hn with hn | hn
    · have := UInt64.lt_iff_toNat_lt.mp (h.numbers n hn)
      omega
    · rw [List.mem_singleton.mp hn]
      omega
  · show (d.no_ + 1).toNat = _
    rw [hno, h.no_eq, List.length_append]
    rfl
  · show d.level0_.size_ + 1 = d.no_ + 1
    rw [h.size_eq]

/-- A spill succeeds unless the memtable is too big. -/
theorem DiskRepresents.add_isSome (d : DiskStorage) (dir : Dir) {m : SkipList} {es : List (Bytes × Bytes)}
    {g : Nat} (hm : m.Holds es) (hg : snappy.Grows g) (hfit : Fits g es) :
    ∃ d' dir', d.add snappy dir m = some (d', dir') := by
  obtain ⟨file, hfile⟩ := TableBuilder.create_sstable_isSome hm hg hfit
  simp only [DiskStorage.add, LevelZero.add, hfile, Option.bind_eq_bind, Option.bind_some]
  exact ⟨_, _, rfl⟩

theorem Represents.addTable {m : SkipList} {es : List (Bytes × Bytes)} (h : Represents snappy s c)
    (hm : m.Holds es) (hroom : c.ssts.length + 1 < 2 ^ 64) (hadd : s.addTable snappy m = some s') :
    Represents snappy s' ⟨es, c.ssts ++ [es]⟩ := by
  simp only [KVStore_beta.addTable, Option.bind_eq_bind, Option.bind_eq_some_iff] at hadd
  obtain ⟨⟨d', dir'⟩, hd, hres⟩ := hadd
  obtain rfl := Option.some.inj hres
  exact ⟨hm, h.disk.add hm hroom hd⟩

/-! ## The operations -/

/-- The step spills the memtable. -/
def Contents.Spills (c : Contents) (key value : Bytes) : Prop :=
  bytesOf (SortedAssoc.put key value c.mem) > StorageOption.SSTABLE_SPACE

instance (c : Contents) (key value : Bytes) : Decidable (c.Spills key value) :=
  inferInstanceAs (Decidable (bytesOf _ > _))

theorem Contents.put_of_spills (h : c.Spills key value) :
    c.put key value = ⟨[], c.ssts ++ [SortedAssoc.put key value c.mem]⟩ := if_pos h

theorem Contents.put_of_not_spills (h : ¬ c.Spills key value) :
    c.put key value = { c with mem := SortedAssoc.put key value c.mem } := if_neg h

/-- **`put`.** -/
theorem Represents.put {ones : Nat} (h : Represents snappy s c)
    (hroom : c.Spills key value → c.ssts.length + 1 < 2 ^ 64)
    (hput : s.put snappy key value ones = some s') : Represents snappy s' (c.put key value) := by
  obtain ⟨m, hm, hholds⟩ := h.memtable.put key value ones
  simp only [KVStore_beta.put, hm, Option.bind_eq_bind, Option.bind_some, hholds.space] at hput
  by_cases hspill : c.Spills key value
  · rw [if_pos (show bytesOf _ > _ from hspill), Option.bind_eq_some_iff] at hput
    obtain ⟨u, hu, hres⟩ := hput
    obtain rfl := Option.some.inj hres
    rw [Contents.put_of_spills hspill]
    exact ⟨SkipList.Holds.clear _, (h.addTable hholds (hroom hspill) hu).disk⟩
  · rw [if_neg (show ¬ bytesOf _ > _ from hspill)] at hput
    obtain rfl := Option.some.inj hput
    rw [Contents.put_of_not_spills hspill]
    exact ⟨hholds, h.disk⟩

/-- `put` succeeds unless the memtable gets too big. -/
theorem Represents.put_isSome {g : Nat} (h : Represents snappy s c) (hg : snappy.Grows g) (key value : Bytes)
    (ones : Nat) (hfit : Fits g (SortedAssoc.put key value c.mem)) :
    ∃ s', s.put snappy key value ones = some s' := by
  obtain ⟨m, hm, hholds⟩ := h.memtable.put key value ones
  simp only [KVStore_beta.put, hm, Option.bind_eq_bind, Option.bind_some]
  split
  · obtain ⟨d, dir, hd⟩ := DiskRepresents.add_isSome s.diskstorage_ s.dir hholds hg hfit
    simp only [KVStore_beta.addTable, hd, Option.bind_eq_bind, Option.bind_some]
    exact ⟨_, rfl⟩
  · exact ⟨_, rfl⟩

/-- **`del`.** -/
theorem Represents.del (h : Represents snappy s c) (hinv : snappy.Inverts) (key : Bytes) (ones : Nat) :
    ∃ s', s.del snappy key ones = some (s', (c.del key).2) ∧ Represents snappy s' (c.del key).1 := by
  simp only [KVStore_beta.del, h.memtable.contains, Option.bind_eq_bind, Option.bind_some, Contents.del]
  split
  · obtain ⟨m, hm, hholds⟩ := h.memtable.del key
    simp only [hm, Option.bind_some]
    exact ⟨_, rfl, hholds, h.disk⟩
  · simp only [h.search hinv, Option.bind_some]
    by_cases hv : (visible (firstHit c.ssts key)).isSome = true
    · rw [if_pos ((visible_test _).mpr hv), if_pos hv]
      obtain ⟨m, hm, hholds⟩ := h.memtable.put key [] ones
      simp only [hm, Option.bind_some]
      exact ⟨_, rfl, hholds, h.disk⟩
    · rw [if_neg (fun ht => hv ((visible_test _).mp ht)), if_neg hv]
      exact ⟨s, rfl, h⟩

/-- **`flush`** adds a table unless the memtable is empty, and leaves the memtable as it is. -/
def Contents.flush (c : Contents) : Contents := if c.mem = [] then c else ⟨c.mem, c.ssts ++ [c.mem]⟩

theorem Represents.flush (h : Represents snappy s c) (hroom : c.ssts.length + 1 < 2 ^ 64)
    (hflush : s.flush snappy = some s') : Represents snappy s' c.flush := by
  unfold KVStore_beta.flush at hflush
  unfold Contents.flush
  rw [h.memtable.empty] at hflush
  split at hflush
  · rename_i hempty
    obtain rfl := Option.some.inj hflush
    rw [if_pos (List.isEmpty_iff.mp hempty)]
    exact h
  · rename_i hne
    rw [if_neg (fun hn => hne (List.isEmpty_iff.mpr hn))]
    exact h.addTable h.memtable hroom hflush

/-! ## Opening -/

theorem readNos_flatMap (nos : List UInt64) :
    LevelZero.readNos nos.length (nos.flatMap fun no => leBytes 8 no.toNat) = some nos := by
  induction nos with
  | nil => rfl
  | cons no nos ih =>
      have hread := readAt_mid (w := 8) (UInt64.toNat_lt no) [] (nos.flatMap fun no => leBytes 8 no.toNat)
      have hdrop : ((leBytes 8 no.toNat ++ nos.flatMap fun no => leBytes 8 no.toNat).drop 8) =
          nos.flatMap fun no => leBytes 8 no.toNat := by
        have := @List.drop_left _ (leBytes 8 no.toNat) (nos.flatMap fun no => leBytes 8 no.toNat)
        rwa [length_leBytes] at this
      simp only [List.nil_append, List.length_nil] at hread
      simp only [List.length_cons, LevelZero.readNos, List.flatMap_cons, hread, hdrop, ih,
        Option.bind_eq_bind, Option.bind_some, UInt64.ofNat_toNat]

/-- The constructor of `LevelZero` reads what `save_meta` has written. -/
theorem LevelZero.new_of_index {l : LevelZero} {dir : Dir} (hindex : dir.index = (l.save_meta dir).index)
    (hlen : l.ssts_.length = l.size_.toNat) : LevelZero.new dir = some (l, dir) := by
  have h0 := readAt_mid (w := 8) (UInt64.toNat_lt l.size_) []
    (leBytes 8 l.num_entries_.toNat ++ l.ssts_.flatMap fun no => leBytes 8 no.toNat)
  have h8 := readAt_mid (w := 8) (UInt64.toNat_lt l.num_entries_) (leBytes 8 l.size_.toNat)
    (l.ssts_.flatMap fun no => leBytes 8 no.toNat)
  have h16 : (leBytes 8 l.size_.toNat ++ (leBytes 8 l.num_entries_.toNat ++
      l.ssts_.flatMap fun no => leBytes 8 no.toNat)).drop 16 =
      l.ssts_.flatMap fun no => leBytes 8 no.toNat := by
    have := @List.drop_left _ (leBytes 8 l.size_.toNat ++ leBytes 8 l.num_entries_.toNat)
      (l.ssts_.flatMap fun no => leBytes 8 no.toNat)
    rwa [List.length_append, length_leBytes, length_leBytes, List.append_assoc] at this
  have hnos := readNos_flatMap l.ssts_
  rw [hlen] at hnos
  rw [List.nil_append, List.length_nil] at h0
  rw [length_leBytes] at h8
  simp only [LevelZero.new, hindex, LevelZero.save_meta, h0, h8, h16, hnos, Option.bind_eq_bind,
    Option.bind_some, UInt64.ofNat_toNat]

/-- So does the one of `DiskStorage`. -/
theorem DiskStorage.new_of_meta {d : DiskStorage} {dir : Dir} (hindex : dir.index = (d.level0_.save_meta dir).index)
    (hlen : d.level0_.ssts_.length = d.level0_.size_.toNat) (hmeta : dir.metaFile = (d.save_meta dir).metaFile) :
    DiskStorage.new dir = some (d, dir) := by
  have hread := readAt_mid (w := 8) (UInt64.toNat_lt d.no_) [] []
  rw [List.nil_append, List.append_nil, List.length_nil] at hread
  simp only [DiskStorage.new, LevelZero.new_of_index hindex hlen, hmeta, DiskStorage.save_meta, hread,
    Option.bind_eq_bind, Option.bind_some, UInt64.ofNat_toNat]

section Opening

variable {d : DiskStorage} {dir : Dir} {ssts : List (List (Bytes × Bytes))}

theorem DiskRepresents.length_ssts (h : DiskRepresents snappy d dir ssts) :
    d.level0_.ssts_.length = d.level0_.size_.toNat := by
  rw [h.tables.length_eq, h.size_eq, h.no_eq]

/-- Opening the directory of a store finds its tables. -/
theorem DiskRepresents.new (h : DiskRepresents snappy d dir ssts) : DiskStorage.new dir = some (d, dir) :=
  DiskStorage.new_of_meta h.index h.length_ssts h.metaFile

end Opening

/-- **Opening** the directory of a store gives a store with its tables and an empty memtable. -/
theorem Represents.new (h : Represents snappy s c) :
    ∃ s', KVStore_beta.new s.dir = some s' ∧ Represents snappy s' ⟨[], c.ssts⟩ := by
  refine ⟨⟨SkipList.new, s.diskstorage_, s.dir⟩, ?_, SkipList.holds_init _ 1, h.disk⟩
  simp only [KVStore_beta.new, h.disk.new, Option.bind_eq_bind, Option.bind_some]

/-- A store on an empty directory is empty. -/
theorem represents_empty (h : KVStore_beta.new {} = some s) : Represents snappy s {} := by
  obtain rfl := Option.some.inj h
  exact ⟨SkipList.holds_init _ 1, List.Forall₂.nil, by simp, rfl, rfl, rfl, rfl⟩

/-! ## When a memtable may become a table

As long as the memtable is in memory its values win; as the newest table it loses against every older one. So
nothing changes for the reader exactly when the two agree on every key both have. -/

/-- Every key of `mem` that some table has is there with the same value. -/
def AgreesOn (mem : List (Bytes × Bytes)) (ssts : List (List (Bytes × Bytes))) : Prop :=
  ∀ key v v', mem.lookup key = some v → firstHit ssts key = some v' → v' = v

/-- The same, in terms of a concrete memtable and store. -/
def KVStore_beta.Agrees (snappy : Snappy) (s : KVStore_beta) (m : SkipList) : Prop :=
  ∀ key v v', m.get key = some (true, v) → s.search snappy key = some (true, v') → v' = v

theorem lookupResult_eq_true {o : Option Bytes} {v : Bytes} : lookupResult o = (true, v) ↔ o = some v := by
  cases o <;> simp [lookupResult]

theorem Represents.agrees_iff {m : SkipList} {es : List (Bytes × Bytes)} (h : Represents snappy s c)
    (hinv : snappy.Inverts) (hm : m.Holds es) : s.Agrees snappy m ↔ AgreesOn es c.ssts := by
  unfold KVStore_beta.Agrees AgreesOn
  simp only [hm.get, h.search hinv, Option.some.injEq, lookupResult_eq_true]

theorem firstHit_append (ssts : List (List (Bytes × Bytes))) (mem : List (Bytes × Bytes)) (key : Bytes) :
    firstHit (ssts ++ [mem]) key = (firstHit ssts key).or (mem.lookup key) := by
  simp only [firstHit, List.findSome?_append, List.findSome?_cons, List.findSome?_nil]
  cases mem.lookup key <;> rfl

theorem AgreesOn.firstHit_append {mem : List (Bytes × Bytes)} {ssts : List (List (Bytes × Bytes))}
    (h : AgreesOn mem ssts) (key : Bytes) :
    firstHit (ssts ++ [mem]) key = (mem.lookup key).or (firstHit ssts key) := by
  rw [DDBMS.firstHit_append]
  cases hm : mem.lookup key with
  | none => simp
  | some v =>
      cases hf : firstHit ssts key with
      | none => rfl
      | some v' => rw [Option.some_or, Option.some_or, h key v v' hm hf]

theorem visible_inj {v v' : Bytes} (h : visible (some v) = visible (some v')) : v = v' := by
  by_cases hv : v = [] <;> by_cases hv' : v' = [] <;> simp_all [visible, Option.filter]

/-- Readers see no difference if and only if the memtable agrees with the tables. -/
theorem agreesOn_iff {mem : List (Bytes × Bytes)} {ssts : List (List (Bytes × Bytes))} :
    (∀ key, visible (firstHit (ssts ++ [mem]) key) = visible ((mem.lookup key).or (firstHit ssts key))) ↔
      AgreesOn mem ssts := by
  constructor
  · intro h key v v' hm hf
    have := h key
    rw [firstHit_append, hm, hf, Option.some_or, Option.some_or] at this
    exact visible_inj this
  · intro h key
    rw [h.firstHit_append]

end DDBMS
