import DDBMS.Lib.Run
import DDBMS.Storage.KVStoreRefine

/-!
# `Storage.DiskCrash` — a crash while an SSTable is added

`DiskStorage::add` writes three files, one after the other: the SSTable, `level_0/index` with its number, and `meta` with
the next number. A crash leaves the first few of them (`Step.crash`), and the next `DiskStorage` on the directory reads
what is there.

Behind the first write nothing refers to the new file, so the directory is still that of the old `DiskStorage`
(`DiskRepresents.write_sst`). Behind the second, `index` lists a number that `meta` will hand out again
(`reopen_between`): this is the one point that `Ok` excludes.
-/

namespace DDBMS

open SortedAssoc

/-- One file is written: an SSTable, `level_0/index`, or `meta`. -/
inductive FileWrite where
  | sst (no : UInt64) (file : Bytes)
  | index (level0 : LevelZero)
  | metaFile (s : DiskStorage)
  deriving Repr

def Dir.write (dir : Dir) : FileWrite → Dir
  | .sst no file => { dir with sst := fun x => if x = no then some file else dir.sst x }
  | .index level0 => level0.save_meta dir
  | .metaFile s => s.save_meta dir

/-- The file numbers in `level_0/index`. -/
def Dir.listed (dir : Dir) : List UInt64 :=
  match LevelZero.new dir with
  | some (level0, _) => level0.ssts_
  | none => []

namespace DiskStorage

variable (snappy : Snappy)

/-- What `add` leaves in memory. -/
def added (s : DiskStorage) (memtable : SkipList) : DiskStorage :=
  ⟨s.no_ + 1, s.level0_.ssts_ ++ [s.no_], s.level0_.size_ + 1, s.level0_.num_entries_ + UInt64.ofNat memtable.size⟩

/-- The files that `add` writes. -/
def addWrites (s : DiskStorage) (memtable : SkipList) : Option (List FileWrite) := do
  let file ← TableBuilder.create_sstable snappy memtable
  some [.sst s.no_ file, .index (s.added memtable).level0_, .metaFile (s.added memtable)]

/-- **`add` is these writes**, one after the other. -/
theorem add_eq (s : DiskStorage) (dir : Dir) (memtable : SkipList) : s.add snappy dir memtable =
    (s.addWrites snappy memtable).map fun ws => (s.added memtable, ws.foldl Dir.write dir) := by
  cases hfile : TableBuilder.create_sstable snappy memtable with
  | none => simp [add, LevelZero.add, addWrites, hfile]
  | some file =>
      simp only [add, LevelZero.add, addWrites, hfile, Option.bind_eq_bind, Option.bind_some, Option.map_some]
      rfl

end DiskStorage

/-! ## Runs -/

/-- The directory, the `DiskStorage` on it unless the process has crashed, and every file written so far with the
    directory it was written to. -/
structure Disk where
  dir : Dir
  open_ : Option DiskStorage := none
  writes : List (Dir × FileWrite) := []

/-- Writes with the directories they are done on. -/
def performed (dir : Dir) : List FileWrite → List (Dir × FileWrite)
  | [] => []
  | w :: ws => (dir, w) :: performed (dir.write w) ws

namespace Disk

inductive Event where
  | add (memtable : SkipList)
  /-- a crash in `add`, after the first `reached` of its writes -/
  | crash (memtable : SkipList) (reached : Nat)
  | restart

/-- One step. The memtable is one that the operations of `SkipList` build. -/
inductive Step (snappy : Snappy) : Disk → Event → Disk → Prop
  | add {d : Disk} {s : DiskStorage} {m : SkipList} {ws : List FileWrite} (hopen : d.open_ = some s)
      (hm : Reachable (FunStep SkipList.step) SkipList.new m) (hws : s.addWrites snappy m = some ws) :
      Step snappy d (.add m) ⟨ws.foldl Dir.write d.dir, some (s.added m), d.writes ++ performed d.dir ws⟩
  | crash {d : Disk} {s : DiskStorage} {m : SkipList} {ws : List FileWrite} {reached : Nat} (hopen : d.open_ = some s)
      (hm : Reachable (FunStep SkipList.step) SkipList.new m) (hws : s.addWrites snappy m = some ws) :
      Step snappy d (.crash m reached) ⟨(ws.take reached).foldl Dir.write d.dir, none,
        d.writes ++ performed d.dir (ws.take reached)⟩
  | restart {d : Disk} {s : DiskStorage} {dir : Dir} (hnew : DiskStorage.new d.dir = some (s, dir)) :
      Step snappy d .restart ⟨dir, some s, d.writes⟩

/-- No crash falls between the writes of `index` and `meta`, and the file number does not wrap around. -/
def Ok (d : Disk) : Event → Prop
  | .add _ => ∀ s, d.open_ = some s → s.no_.toNat + 1 < 2 ^ 64
  | .crash _ reached => reached ≠ 2 ∧ ∀ s, d.open_ = some s → s.no_.toNat + 1 < 2 ^ 64
  | .restart => True

/-- No SSTable that `index` listed was written. -/
def NoOverwrite (d : Disk) : Prop := ∀ dir no file, (dir, FileWrite.sst no file) ∈ d.writes → no ∉ dir.listed

end Disk

variable {snappy : Snappy} {s : DiskStorage} {dir : Dir} {ssts : List (List (Bytes × Bytes))} {m : SkipList}

/-! ## What each write leaves -/

theorem DiskRepresents.listed (h : DiskRepresents snappy s dir ssts) : dir.listed = s.level0_.ssts_ := by
  rw [Dir.listed, LevelZero.new_of_index h.index h.length_ssts]

/-- The next number is not listed. -/
theorem DiskRepresents.no_not_listed (h : DiskRepresents snappy s dir ssts) : s.no_ ∉ dir.listed := by
  rw [h.listed]
  intro hmem
  exact absurd (h.numbers _ hmem) (UInt64.lt_irrefl _)

/-- **Behind the first write**, nothing refers to the new file. -/
theorem DiskRepresents.write_sst (h : DiskRepresents snappy s dir ssts) (file : Bytes) :
    DiskRepresents snappy s (dir.write (.sst s.no_ file)) ssts := by
  constructor
  · apply forall₂_imp_mem h.tables
    intro no hno es hes
    apply tableFile_other hes
    rintro rfl
    exact absurd (h.numbers _ hno) (UInt64.lt_irrefl _)
  · exact h.numbers
  · exact h.no_eq
  · exact h.size_eq
  · exact h.index
  · exact h.metaFile

/-- **Behind all writes.** -/
theorem DiskRepresents.write_all {es : List (Bytes × Bytes)} {ws : List FileWrite}
    (h : DiskRepresents snappy s dir ssts) (hm : m.Holds es) (hroom : s.no_.toNat + 1 < 2 ^ 64)
    (hws : s.addWrites snappy m = some ws) :
    DiskRepresents snappy (s.added m) (ws.foldl Dir.write dir) (ssts ++ [es]) := by
  apply h.add hm (by rw [← h.no_eq]; exact hroom)
  rw [DiskStorage.add_eq, hws]
  rfl

theorem firstHit_mono {key v : Bytes} (h : firstHit ssts key = some v) (more : List (List (Bytes × Bytes))) :
    firstHit (ssts ++ more) key = some v := by
  rw [firstHit, List.findSome?_append, show ssts.findSome? (List.lookup key) = some v from h, Option.some_or]

/-- **Behind the second write**, `index` lists the number that the next `DiskStorage` gives to its next table. -/
theorem DiskRepresents.reopen_between {ws : List FileWrite} (h : DiskRepresents snappy s dir ssts)
    (hroom : s.no_.toNat + 1 < 2 ^ 64) (hws : s.addWrites snappy m = some ws) {dir' : Dir}
    (hdir : dir' = (ws.take 2).foldl Dir.write dir) :
    DiskStorage.new dir' = some (⟨s.no_, (s.added m).level0_⟩, dir') ∧ s.no_ ∈ dir'.listed := by
  obtain ⟨file, hfile, hlist⟩ := Option.bind_eq_some_iff.mp hws
  obtain rfl := Option.some.inj hlist
  obtain rfl := hdir
  have hlen : (s.added m).level0_.ssts_.length = (s.added m).level0_.size_.toNat := by
    show (s.level0_.ssts_ ++ [s.no_]).length = (s.level0_.size_ + 1).toNat
    rw [List.length_append, h.length_ssts, toNat_succ (by rw [h.size_eq]; exact hroom)]
    rfl
  constructor
  · exact @DiskStorage.new_of_meta ⟨s.no_, (s.added m).level0_⟩ _ rfl hlen h.metaFile
  · rw [Dir.listed, @LevelZero.new_of_index (s.added m).level0_ _ rfl hlen]
    exact List.mem_append_right _ List.mem_cons_self

/-- What `search` finds, it finds when there are more tables. -/
theorem DiskRepresents.search_mono {s' : DiskStorage} {dir' : Dir} {more : List (List (Bytes × Bytes))}
    (hinv : snappy.Inverts) (h : DiskRepresents snappy s dir ssts) (h' : DiskRepresents snappy s' dir' (ssts ++ more))
    {key v : Bytes} (hfound : s.search snappy dir key = some (true, v)) :
    s'.search snappy dir' key = some (true, v) := by
  have hsearch : s.search snappy dir key = some (lookupResult (firstHit ssts key)) := searchLoop_spec hinv h.tables key
  have hsearch' : s'.search snappy dir' key = some (lookupResult (firstHit (ssts ++ more) key)) :=
    searchLoop_spec hinv h'.tables key
  rw [hsearch, Option.some.injEq, lookupResult_eq_true] at hfound
  rw [hsearch', firstHit_mono hfound]
  rfl

namespace Disk

variable {d d' : Disk} {e : Event}

/-- The directory is that of a `DiskStorage` with the tables `ssts`, which is the open one if there is one. -/
structure Stands (snappy : Snappy) (ssts : List (List (Bytes × Bytes))) (d : Disk) : Prop where
  represents : ∃ s, DiskRepresents snappy s d.dir ssts ∧ ∀ s', d.open_ = some s' → s' = s
  noOverwrite : NoOverwrite d

theorem Stands.represents_open (h : Stands snappy ssts d) (hopen : d.open_ = some s) :
    DiskRepresents snappy s d.dir ssts := by
  obtain ⟨s', hs', heq⟩ := h.represents
  exact heq s hopen ▸ hs'

/-- Any beginning of the writes of `add` leaves the listed files alone. -/
theorem Stands.noOverwrite_take {ws : List FileWrite} (h : Stands snappy ssts d) (hopen : d.open_ = some s)
    (hws : s.addWrites snappy m = some ws) (n : Nat) {dir : Dir} {no : UInt64} {file : Bytes}
    (hmem : (dir, FileWrite.sst no file) ∈ d.writes ++ performed d.dir (ws.take n)) : no ∉ dir.listed := by
  rcases List.mem_append.mp hmem with hmem | hmem
  · exact h.noOverwrite dir no file hmem
  · obtain ⟨file', hfile, hlist⟩ := Option.bind_eq_some_iff.mp hws
    obtain rfl := Option.some.inj hlist
    -- only the first write is of an SSTable
    have hfirst : (dir, FileWrite.sst no file) = (d.dir, .sst s.no_ file') := by
      cases n with
      | zero => cases hmem
      | succ n =>
          rw [List.take_succ_cons, performed] at hmem
          rcases List.mem_cons.mp hmem with hmem | hmem
          · exact hmem
          · rcases n with _ | _ | n
            all_goals simp [performed] at hmem
    obtain ⟨rfl, hsst⟩ := Prod.mk.inj hfirst
    obtain ⟨rfl, -⟩ := FileWrite.sst.inj hsst
    exact (h.represents_open hopen).no_not_listed

/-- **Step lemma.** Tables only come. -/
theorem Stands.step (h : Stands snappy ssts d) (hstep : Guarded Ok (Step snappy) d e d') :
    ∃ more, Stands snappy (ssts ++ more) d' := by
  obtain ⟨hok, hstep⟩ := hstep
  cases hstep with
  | @add s m ws hopen hm hws =>
      have hrepr := h.represents_open hopen
      obtain ⟨es, hrun⟩ := hm
      have hall := hrepr.write_all (SkipList.holds_of_run hrun) (hok s hopen) hws
      refine ⟨[_], ⟨_, hall, fun s' hs' => (Option.some.inj hs').symm⟩, ?_⟩
      intro dir no file hmem
      rw [← List.take_length (l := ws)] at hmem
      exact h.noOverwrite_take hopen hws _ hmem
  | @crash s m ws reached hopen hm hws =>
      have hrepr := h.represents_open hopen
      obtain ⟨es, hrun⟩ := hm
      obtain ⟨hbetween, hroom⟩ := hok
      have hall := hrepr.write_all (SkipList.holds_of_run hrun) (hroom s hopen) hws
      -- whatever has been written, no listed file was
      have hover : NoOverwrite ⟨(ws.take reached).foldl Dir.write d.dir, none,
          d.writes ++ performed d.dir (ws.take reached)⟩ :=
        fun dir no file hmem => h.noOverwrite_take hopen hws reached hmem
      obtain ⟨file, hfile, hlist⟩ := Option.bind_eq_some_iff.mp hws
      obtain rfl := Option.some.inj hlist
      -- no storage is open behind the crash
      have hclosed : ∀ t s' : DiskStorage, none = some s' → s' = t := fun _ s' hs' => absurd hs'.symm (Option.some_ne_none s')
      -- nothing written, the table, the table and the index, everything
      rcases reached with _ | _ | _ | n
      · exact ⟨[], ⟨s, by rw [List.append_nil]; exact hrepr, hclosed _⟩, hover⟩
      · exact ⟨[], ⟨s, by rw [List.append_nil]; exact hrepr.write_sst file, hclosed _⟩, hover⟩
      · exact absurd rfl hbetween
      · refine ⟨[es.foldl SkipList.entriesStep []], ⟨s.added m, ?_, hclosed _⟩, hover⟩
        rw [List.take_of_length_le (by simp)]
        exact hall
  | @restart s dir hnew =>
      obtain ⟨s', hs', -⟩ := h.represents
      rw [hs'.new] at hnew
      obtain ⟨rfl, rfl⟩ := Prod.mk.inj (Option.some.inj hnew)
      refine ⟨[], ⟨s', by rw [List.append_nil]; exact hs', fun s hs => (Option.some.inj hs).symm⟩, h.noOverwrite⟩

/-- **Nothing less will do**: an add after a crash between `index` and `meta` writes a listed SSTable. -/
theorem Stands.overwrites {d₁ d₂ d₃ : Disk} {m' : SkipList} (h : Stands snappy ssts d) (hopen : d.open_ = some s)
    (hroom : s.no_.toNat + 1 < 2 ^ 64) (hcrash : Step snappy d (.crash m 2) d₁) (hrestart : Step snappy d₁ .restart d₂)
    (hadd : Step snappy d₂ (.add m') d₃) : ¬ NoOverwrite d₃ := by
  cases hcrash with
  | @crash s' _ ws _ hopen' _ hws =>
      obtain rfl := Option.some.inj (hopen.symm.trans hopen')
      obtain ⟨hreopen, hlisted⟩ := (h.represents_open hopen).reopen_between hroom hws rfl
      cases hrestart with
      | restart hnew =>
          obtain ⟨rfl, rfl⟩ := Prod.mk.inj (Option.some.inj (hreopen.symm.trans hnew))
          cases hadd with
          | add hopen₂ _ hws' =>
              obtain rfl := Option.some.inj hopen₂
              obtain ⟨file, hfile, hlist⟩ := Option.bind_eq_some_iff.mp hws'
              obtain rfl := Option.some.inj hlist
              intro hno
              exact hno _ s.no_ file (List.mem_append_right _ List.mem_cons_self) hlisted

theorem stands_new {s₀ : DiskStorage} {dir₀ : Dir} (hopen : DiskStorage.new {} = some (s₀, dir₀)) :
    Stands snappy [] ⟨dir₀, some s₀, []⟩ := by
  obtain ⟨rfl, rfl⟩ := Prod.mk.inj (Option.some.inj hopen)
  exact ⟨⟨_, ⟨.nil, by simp, rfl, rfl, rfl, rfl⟩, fun s' hs' => (Option.some.inj hs').symm⟩, by simp [NoOverwrite]⟩

/-- **Adding an SSTable is safe from crashes**, in every run whose steps all meet `Ok`: no listed SSTable is written, and
    what a search finds, every later search finds. -/
theorem add_crash_safe (hinv : snappy.Inverts) {s₀ : DiskStorage} {dir₀ : Dir}
    (hopen : DiskStorage.new {} = some (s₀, dir₀)) {es : List Event}
    (hrun : Run (Guarded Ok (Step snappy)) ⟨dir₀, some s₀, []⟩ es d) :
    NoOverwrite d ∧ ∀ s, d.open_ = some s → ∀ fs d' s', Run (Guarded Ok (Step snappy)) d fs d' → d'.open_ = some s' →
      ∀ key v, s.search snappy d.dir key = some (true, v) → s'.search snappy d'.dir key = some (true, v) := by
  -- the tables only grow, along any run
  have hgrow : ∀ {d d' : Disk} {es : List Event} {ssts}, Run (Guarded Ok (Step snappy)) d es d' →
      Stands snappy ssts d → ∃ more, Stands snappy (ssts ++ more) d' := by
    intro d d' es ssts hrun hstands
    apply hrun.invariant (I := fun d' => ∃ more, Stands snappy (ssts ++ more) d')
    · rintro d₁ e d₂ ⟨more, h₁⟩ hstep
      obtain ⟨more', h₂⟩ := h₁.step hstep
      exact ⟨more ++ more', by rw [← List.append_assoc]; exact h₂⟩
    · exact ⟨[], by rw [List.append_nil]; exact hstands⟩
  obtain ⟨ssts, hstands⟩ := hgrow hrun (stands_new hopen)
  refine ⟨hstands.noOverwrite, ?_⟩
  intro s hs fs d' s' hrun' hs' key v hfound
  obtain ⟨more, hstands'⟩ := hgrow hrun' hstands
  exact (hstands.represents_open hs).search_mono hinv (hstands'.represents_open hs') hfound

/-! ## A crash behind the SSTable, and one behind the index -/

/-- A memtable of one pair. -/
theorem exists_memtable (key value : Bytes) :
    ∃ m, Reachable (FunStep SkipList.step) SkipList.new m ∧ m.Holds [(key, value)] := by
  obtain ⟨m, hrun, hholds⟩ := SkipList.holds_run [.put key value 0]
  exact ⟨m, ⟨_, hrun⟩, hholds⟩

theorem addWrites_isSome (s : DiskStorage) {es : List (Bytes × Bytes)} {g : Nat} (hm : m.Holds es)
    (hg : snappy.Grows g) (hfit : Fits g es) : ∃ ws, s.addWrites snappy m = some ws := by
  obtain ⟨file, hfile⟩ := TableBuilder.create_sstable_isSome hm hg hfit
  exact ⟨_, by rw [DiskStorage.addWrites, hfile]; rfl⟩

theorem add_step {ws : List FileWrite} (hopen : d.open_ = some s)
    (hm : Reachable (FunStep SkipList.step) SkipList.new m) (hws : s.addWrites snappy m = some ws) :
    ∃ d', Step snappy d (.add m) d' ∧ d'.dir = ws.foldl Dir.write d.dir ∧ d'.open_ = some (s.added m) :=
  ⟨_, .add hopen hm hws, rfl, rfl⟩

theorem crash_step {ws : List FileWrite} (hopen : d.open_ = some s)
    (hm : Reachable (FunStep SkipList.step) SkipList.new m) (hws : s.addWrites snappy m = some ws) (reached : Nat) :
    ∃ d', Step snappy d (.crash m reached) d' ∧ d'.dir = (ws.take reached).foldl Dir.write d.dir :=
  ⟨_, .crash hopen hm hws, rfl⟩

theorem restart_step (hnew : DiskStorage.new d.dir = some (s, d.dir)) :
    ∃ d', Step snappy d .restart d' ∧ d'.open_ = some s := ⟨_, .restart hnew, rfl⟩

/-- A table is added, and a crash cuts the next add off behind the SSTable. -/
theorem add_crash_safe_behindTable : ∃ s₀ dir₀ m m' d d' s s', DiskStorage.new {} = some (s₀, dir₀) ∧
    Run (Guarded Ok (Step SnappyLiterals.snappy)) ⟨dir₀, some s₀, []⟩ [.add m] d ∧ d.open_ = some s ∧
    Run (Guarded Ok (Step SnappyLiterals.snappy)) d ([.crash m' 1] ++ [.restart]) d' ∧ d'.open_ = some s' ∧
    s.search SnappyLiterals.snappy d.dir [97] = some (true, [49]) ∧
    s'.search SnappyLiterals.snappy d'.dir [97] = some (true, [49]) := by
  obtain ⟨s₀, dir₀, hopen⟩ : ∃ s₀ dir₀, DiskStorage.new {} = some (s₀, dir₀) := ⟨_, _, rfl⟩
  obtain ⟨m, hm, hholds⟩ := exists_memtable [97] [49]
  obtain ⟨m', hm', hholds'⟩ := exists_memtable [98] [50]
  have hstart := @stands_new SnappyLiterals.snappy _ _ hopen
  have hopen₀ : (⟨dir₀, some s₀, []⟩ : Disk).open_ = some s₀ := rfl
  have hrepr := hstart.represents_open hopen₀
  have hno : s₀.no_.toNat = 0 := hrepr.no_eq
  -- the add
  obtain ⟨ws, hws⟩ := addWrites_isSome s₀ hholds SnappyLiterals.grows (by decide)
  have hall := hrepr.write_all hholds (by rw [hno]; decide) hws
  obtain ⟨d₁, hadd, hdir₁, hopen₁⟩ := add_step hopen₀ hm hws
  have hadd' : Guarded Ok (Step SnappyLiterals.snappy) ⟨dir₀, some s₀, []⟩ (.add m) d₁ := by
    refine ⟨?_, hadd⟩
    rintro s hs
    rw [← Option.some.inj hs, hno]
    decide
  rw [← hdir₁] at hall
  have hno₁ : (s₀.added m).no_.toNat = 1 := hall.no_eq
  have hfound : (s₀.added m).search SnappyLiterals.snappy d₁.dir [97] = some (true, [49]) :=
    searchLoop_spec SnappyLiterals.inverts hall.tables [97]
  -- the crash and the restart
  obtain ⟨ws', hws'⟩ := addWrites_isSome (s₀.added m) hholds' SnappyLiterals.grows (by decide)
  obtain ⟨d₂, hcrash, hdir₂⟩ := crash_step hopen₁ hm' hws' 1
  have hcrash' : Guarded Ok (Step SnappyLiterals.snappy) d₁ (.crash m' 1) d₂ := by
    refine ⟨⟨by decide, ?_⟩, hcrash⟩
    rintro s hs
    rw [← Option.some.inj (hopen₁.symm.trans hs), hno₁]
    decide
  obtain ⟨file, hfile, hlist⟩ := Option.bind_eq_some_iff.mp hws'
  have hbehind := hall.write_sst file
  rw [show d₁.dir.write (.sst (s₀.added m).no_ file) = d₂.dir by rw [hdir₂, ← Option.some.inj hlist]; rfl] at hbehind
  obtain ⟨d₃, hrestart, hopen₃⟩ := restart_step hbehind.new
  have hrestart' : Guarded Ok (Step SnappyLiterals.snappy) d₂ .restart d₃ := ⟨trivial, hrestart⟩
  have hrun := (Run.single hcrash').tail hrestart'
  refine ⟨s₀, dir₀, m, m', d₁, d₃, _, _, hopen, Run.single hadd', hopen₁, hrun, hopen₃, hfound, ?_⟩
  exact (add_crash_safe SnappyLiterals.inverts hopen (Run.single hadd')).2 _ hopen₁ _ _ _ hrun hopen₃ [97] [49] hfound

/-- The first add is cut off behind `index`; after the restart, the second add writes the same file. -/
theorem add_overwrites : ¬ ∀ (s₀ : DiskStorage) (dir₀ : Dir) (es : List Event) (d : Disk),
    DiskStorage.new {} = some (s₀, dir₀) → Run (Step SnappyLiterals.snappy) ⟨dir₀, some s₀, []⟩ es d →
    NoOverwrite d := by
  intro hall
  obtain ⟨s₀, dir₀, hopen⟩ : ∃ s₀ dir₀, DiskStorage.new {} = some (s₀, dir₀) := ⟨_, _, rfl⟩
  obtain ⟨m, hm, hholds⟩ := exists_memtable [97] [49]
  obtain ⟨m', hm', hholds'⟩ := exists_memtable [98] [50]
  have hstart := @stands_new SnappyLiterals.snappy _ _ hopen
  have hopen₀ : (⟨dir₀, some s₀, []⟩ : Disk).open_ = some s₀ := rfl
  have hrepr := hstart.represents_open hopen₀
  have hroom : s₀.no_.toNat + 1 < 2 ^ 64 := by
    rw [show s₀.no_.toNat = 0 from hrepr.no_eq]
    decide
  obtain ⟨ws, hws⟩ := addWrites_isSome s₀ hholds SnappyLiterals.grows (by decide)
  obtain ⟨d₁, hcrash, hdir₁⟩ := crash_step hopen₀ hm hws 2
  obtain ⟨hreopen, -⟩ := hrepr.reopen_between hroom hws hdir₁
  obtain ⟨d₂, hrestart, hopen₂⟩ := @restart_step SnappyLiterals.snappy _ _ hreopen
  obtain ⟨ws', hws'⟩ := addWrites_isSome ⟨s₀.no_, (s₀.added m).level0_⟩ hholds' SnappyLiterals.grows (by decide)
  obtain ⟨d₃, hadd, -, -⟩ := add_step hopen₂ hm' hws'
  have hrun := ((Run.single hcrash).tail hrestart).tail hadd
  exact hstart.overwrites hopen₀ hroom hcrash hrestart hadd (hall s₀ dir₀ _ _ hopen hrun)

end Disk
end DDBMS
