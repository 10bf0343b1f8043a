import DDBMS.Storage.NewestTable

/-!
# `Storage.LevelZeroReopen` — Level 0 survives reopening

A directory is opened as a `LevelZero`, tables are added, and at any moment the object is made again from the same
directory. Every `add` rewrites the index file, so the file always says what the object knows (`Indexed`), and the
next object is the same one: the tables in their order, both counters, and the answer of every search. That the
numbers are distinct is not used.
-/

namespace DDBMS

/-- `ssts_.max_size()`: an `SSTableId` is a string and a number, 40 bytes. -/
def max_ssts : Nat := max_size / 40

namespace LevelZero

/-- What happens to a directory and the object on it. -/
inductive Op where
  | add (memtable : SkipList) (no : UInt64)
  | reopen

/-- `emplace_back` throws once the vector is full. -/
def step (snappy : Snappy) (s : LevelZero × Dir) : Op → Option (LevelZero × Dir)
  | .add memtable no => do
    guard (s.1.ssts_.length < max_ssts)
    s.1.add snappy s.2 memtable no
  | .reopen => LevelZero.new s.2

/-- The tables that were added, in order. -/
def added : List Op → List (UInt64 × SkipList)
  | [] => []
  | .add memtable no :: ops => (no, memtable) :: added ops
  | .reopen :: ops => added ops

/-- The number of entries of all of them. -/
def entries (tables : List (UInt64 × SkipList)) : Nat := (tables.map fun t => t.2.size).sum

variable {snappy : Snappy} {s t : LevelZero × Dir} {ops : List Op} {tables : List (UInt64 × SkipList)}

theorem added_append (ops ops' : List Op) : added (ops ++ ops') = added ops ++ added ops' := by
  induction ops with
  | nil => rfl
  | cons op ops ih =>
      cases op with
      | add memtable no => exact congrArg ((no, memtable) :: ·) ih
      | reopen => exact ih

/-- The object has taken these tables, and the index file says so. -/
structure Indexed (tables : List (UInt64 × SkipList)) (s : LevelZero × Dir) : Prop where
  index : s.2.index = (s.1.save_meta s.2).index
  room : s.1.ssts_.length ≤ max_ssts
  size : s.1.size_.toNat = s.1.ssts_.length
  ssts : s.1.ssts_ = tables.map Prod.fst
  num_entries : s.1.num_entries_ = UInt64.ofNat (entries tables)

/-- A new directory. -/
theorem new_indexed {dir : Dir} (hdir : dir.index = none) (hnew : LevelZero.new dir = some s) : Indexed [] s := by
  simp only [LevelZero.new, hdir] at hnew
  obtain rfl := Option.some.inj hnew
  exact ⟨rfl, Nat.zero_le _, rfl, rfl, rfl⟩

/-- Reopening finds the same object. -/
theorem Indexed.new (h : Indexed tables s) : LevelZero.new s.2 = some s :=
  new_of_index h.index h.size.symm

theorem Indexed.add {memtable : SkipList} {no : UInt64} (h : Indexed tables s) (hroom : s.1.ssts_.length < max_ssts)
    (hadd : s.1.add snappy s.2 memtable no = some t) : Indexed (tables ++ [(no, memtable)]) t := by
  simp only [LevelZero.add, Option.bind_eq_bind, Option.bind_eq_some_iff] at hadd
  obtain ⟨file, -, ht⟩ := hadd
  obtain rfl := Option.some.inj ht
  have hmax : max_ssts < 2 ^ 64 := by decide
  have hsize := h.size
  refine ⟨rfl, ?_, ?_, ?_, ?_⟩
  · show (s.1.ssts_ ++ [no]).length ≤ max_ssts
    rw [List.length_append, List.length_singleton]
    omega
  · show (s.1.size_ + 1).toNat = (s.1.ssts_ ++ [no]).length
    rw [toNat_succ (by omega), List.length_append, List.length_singleton, hsize]
  · show s.1.ssts_ ++ [no] = _
    rw [h.ssts, List.map_append]
    rfl
  · show s.1.num_entries_ + UInt64.ofNat memtable.size = _
    rw [h.num_entries, ← UInt64.ofNat_add, entries, entries, List.map_append, List.sum_append]
    simp

theorem Indexed.step {op : Op} (h : Indexed tables s) (hstep : LevelZero.step snappy s op = some t) :
    Indexed (tables ++ added [op]) t := by
  cases op with
  | add memtable no =>
      simp only [LevelZero.step, guard, Option.bind_eq_bind, Option.bind_eq_some_iff] at hstep
      obtain ⟨u, hu, hadd⟩ := hstep
      have hroom : s.1.ssts_.length < max_ssts := by
        by_contra hnot
        rw [if_neg hnot] at hu
        cases hu
      exact h.add hroom hadd
  | reopen =>
      have hstep' : LevelZero.new s.2 = some t := hstep
      rw [h.new] at hstep'
      obtain rfl := Option.some.inj hstep'
      rwa [added, added, List.append_nil]

/-- The index file keeps up with the object in every run. -/
theorem run_indexed {dir : Dir} {s₀ : LevelZero × Dir} (hdir : dir.index = none) (hnew : LevelZero.new dir = some s₀)
    (hrun : Run (FunStep (step snappy)) s₀ ops s) : Indexed (added ops) s :=
  Run.history (I := fun ops s => Indexed (added ops) s) (new_indexed hdir hnew)
    (fun ops _ _ _ h hstep => added_append ops _ ▸ h.step hstep) hrun

/-- **Level 0 survives reopening.** After any adds and reopenings on a directory, the object that is made from it
replaces the one before: the same tables, both counters, and the same answer to every search. -/
theorem reopen_same {dir : Dir} {s₀ : LevelZero × Dir} (hdir : dir.index = none) (hnew : LevelZero.new dir = some s₀)
    (hrun : Run (FunStep (step snappy)) s₀ ops s) :
    ∃ l dir', LevelZero.new s.2 = some (l, dir') ∧
      l.ssts_ = s.1.ssts_ ∧ l.ssts_ = (added ops).map Prod.fst ∧
      l.size_.toNat = l.ssts_.length ∧
      l.num_entries_ = UInt64.ofNat (entries (added ops)) ∧
      ∀ key, l.search snappy dir' key = s.1.search snappy s.2 key := by
  have h := run_indexed hdir hnew hrun
  exact ⟨s.1, s.2, h.new, rfl, h.ssts, h.size, h.num_entries, fun key => rfl⟩

/-- An add that fits is a step. -/
theorem step_add_isSome {m : SkipList} {es : List (Bytes × Bytes)} {g : Nat} (hm : m.Holds es) (hg : snappy.Grows g)
    (hfit : Fits g es) (hroom : s.1.ssts_.length < max_ssts) (no : UInt64) :
    ∃ t, FunStep (step snappy) s (.add m no) t := by
  obtain ⟨file, hfile⟩ := TableBuilder.create_sstable_isSome hm hg hfit
  simp only [FunStep, LevelZero.step, guard, if_pos hroom, LevelZero.add, hfile, Option.bind_eq_bind]
  exact ⟨_, rfl⟩

/-- Two tables, the object made again after each of them. -/
theorem reopen_same_two : ∃ m m' : SkipList, ∃ s₀ s : LevelZero × Dir, LevelZero.new {} = some s₀ ∧
    Run (FunStep (step SnappyLiterals.snappy)) s₀ [.add m 7, .reopen, .add m' 3, .reopen] s ∧
    ∃ l dir', LevelZero.new s.2 = some (l, dir') ∧
      l.ssts_ = s.1.ssts_ ∧ l.ssts_ = (added [.add m 7, .reopen, .add m' 3, .reopen]).map Prod.fst ∧
      l.size_.toNat = l.ssts_.length ∧
      l.num_entries_ = UInt64.ofNat (entries (added [.add m 7, .reopen, .add m' 3, .reopen])) ∧
      ∀ key, l.search SnappyLiterals.snappy dir' key = s.1.search SnappyLiterals.snappy s.2 key := by
  obtain ⟨m, -, hm⟩ := Disk.exists_memtable [97] [49]
  obtain ⟨m', -, hm'⟩ := Disk.exists_memtable [98] [50]
  obtain ⟨s₀, hnew⟩ : ∃ s₀, LevelZero.new {} = some s₀ := ⟨_, rfl⟩
  have h₀ := new_indexed rfl hnew
  have hroom₀ : s₀.1.ssts_.length < max_ssts := by
    rw [h₀.ssts]
    decide
  obtain ⟨s₁, hadd⟩ := step_add_isSome hm SnappyLiterals.grows (by decide) hroom₀ 7
  have h₁ := h₀.step hadd
  have hroom₁ : s₁.1.ssts_.length < max_ssts := by
    rw [h₁.ssts]
    exact show 1 < max_ssts by decide
  obtain ⟨s₂, hadd'⟩ := step_add_isSome hm' SnappyLiterals.grows (by decide) hroom₁ 3
  have h₂ := h₁.step hadd'
  have hrun : Run (FunStep (step SnappyLiterals.snappy)) s₀ [.add m 7, .reopen, .add m' 3, .reopen] s₂ :=
    .cons hadd (.cons h₁.new (.cons hadd' (.single h₂.new)))
  exact ⟨m, m', s₀, s₂, hnew, hrun, reopen_same rfl hnew hrun⟩

end LevelZero
end DDBMS
