import DDBMS.Lib.Slots
import DDBMS.Storage.DiskCrash
import DDBMS.Storage.KVStoreMap

/-!
# `Storage.KVStoreReaders` — reading while a memtable is spilled

`KVStore_beta::put` holds the mutex while it adds its memtable to the disk, but `get` gives the mutex up before it
searches there. `LevelZero::add` puts the new number into `ssts_` before it writes the file, so a search that starts in
between has the number among those it visits, and opens a file that is missing or half written (`visit_appended`). And
`emplace_back` may move the vector under a search.

`add` and `search` are taken here step by step: `add` from `Put.full` to `Put.indexed`, `search` one SSTable at a time.
Nothing is lost by that: without another call in between they are `KVStore_beta.put` (`spill_run`) and `LevelZero.search`
(`search_run`).
-/

namespace DDBMS
namespace KVStoreReaders

/-- Where `put` stands. From `full` on it holds the mutex. -/
inductive Put where
  | idle
  /-- in front of `diskstorage_.add` -/
  | full
  /-- `emplace_back` has returned; the file is not finished -/
  | appended
  | written
  | counted
  /-- `LevelZero::add` has returned -/
  | indexed
  deriving Repr, DecidableEq

/-- Where a `get` stands whose key was not in the memtable. -/
inductive Pc where
  /-- the mutex has been given up -/
  | unlocked
  /-- in front of entry `i` of the vector, which had `last` entries in memory `buffer` when the loop began -/
  | loop (i last buffer : Nat)
  | returned (result : Bool × Bytes)
  /-- an assertion has failed -/
  | failed
  deriving Repr, DecidableEq

structure Get where
  key : Bytes
  pc : Pc := .unlocked
  deriving Repr, DecidableEq

/-- What a search finds when it opens a file. `written` is what `create_sstable` had finished under that number. -/
structure Opened where
  no : UInt64
  file : Option Bytes
  written : Option Bytes
  deriving Repr, DecidableEq

structure State where
  store : KVStore_beta
  /-- the capacity of `ssts_` -/
  capacity : Nat
  /-- how often `ssts_` has moved to new memory -/
  buffer : Nat := 0
  put : Put := .idle
  gets : List Get := []
  written : UInt64 → Option Bytes
  opened : List Opened := []

namespace State

/-- Before any call: all files that are there are finished. -/
def init (store : KVStore_beta) (capacity : Nat) : State :=
  { store := store, capacity := capacity, written := store.dir.sst }

def ssts (s : State) : List UInt64 := s.store.diskstorage_.level0_.ssts_

/-- The number of the next SSTable. -/
def no (s : State) : UInt64 := s.store.diskstorage_.no_

def setGet (s : State) (j : Nat) (get : Get) : State := { s with gets := s.gets.set j get }

def setLevel0 (s : State) (level0 : LevelZero) : State :=
  { s with store := { s.store with diskstorage_ := ⟨s.no, level0⟩ } }

def setDir (s : State) (dir : Dir) : State := { s with store := { s.store with dir := dir } }

/-- The file of the next SSTable. -/
def writeFile (s : State) (file : Bytes) : State := s.setDir (s.store.dir.write (.sst s.no file))

/-- `ssts_.emplace_back`. -/
def append (s : State) : State :=
  { s.setLevel0 { s.store.diskstorage_.level0_ with ssts_ := s.ssts ++ [s.no] } with put := .appended }

/-- `create_sstable` has written this file. -/
def write (s : State) (file : Bytes) : State :=
  { s.writeFile file with put := .written, written := Function.update s.written s.no (some file) }

/-- `++size_` and `num_entries_ += memtable.size()`. -/
def count (s : State) : State :=
  let l := s.store.diskstorage_.level0_
  { s.setLevel0 ⟨l.ssts_, l.size_ + 1, l.num_entries_ + UInt64.ofNat s.store.memtable_.size⟩ with put := .counted }

/-- `LevelZero::save_meta`. -/
def index (s : State) : State :=
  { s.setDir (s.store.diskstorage_.level0_.save_meta s.store.dir) with put := .indexed }

/-- `no_++`, `DiskStorage::save_meta` and `memtable_.clear`. -/
def finish (s : State) : State :=
  let d : DiskStorage := ⟨s.no + 1, s.store.diskstorage_.level0_⟩
  { s with store := ⟨s.store.memtable_.clear, d, d.save_meta s.store.dir⟩, put := .idle }

/-- The entry that a search in memory `buffer` reads. What memory holds that the vector has given up is `stale`. -/
def entry (s : State) (i buffer : Nat) (stale : UInt64) : UInt64 :=
  if buffer = s.buffer then s.ssts.getD i stale else stale

end State

/-- What `get` returns for what the search has returned. -/
def finalResult (result : Bool × Bytes) : Bool × Bytes :=
  if result.1 = true ∧ result.2 ≠ [] then result else (false, [])

/-- The body of the loop of `LevelZero::search` at entry `i`, on the file that it opens. -/
def visitPc (snappy : Snappy) (key : Bytes) (i last buffer : Nat) (file : Option Bytes) : Pc :=
  match (do
    let ifs ← file
    let sstable ← SSTable.new snappy ifs
    sstable.get snappy key) with
  | none => .failed
  | some result => if result.1 then .returned (finalResult result) else .loop (i + 1) last buffer

inductive Event where
  | put (key value : Bytes) (ones : Nat)
  /-- `ssts_.emplace_back`; `capacity` is that of the new memory, if it takes any -/
  | append (capacity : Nat)
  /-- the first `reached` bytes are in the file -/
  | writing (reached : Nat)
  /-- `create_sstable` returns -/
  | write
  | count
  | index
  | finish
  | get (key : Bytes)
  /-- `get` number `j` starts its search -/
  | begin (j : Nat)
  | visit (j : Nat) (stale : UInt64)
  /-- the loop is at its end -/
  | leave (j : Nat)
  deriving Repr

/-- One step; `none` is a step that waits. -/
def step (snappy : Snappy) (s : State) : Event → Option State
  | .put key value ones =>
    if s.put = .idle then do
      let memtable ← s.store.memtable_.put key value ones
      some { s with
        store := { s.store with memtable_ := memtable }
        put := if memtable.space > StorageOption.SSTABLE_SPACE then .full else .idle }
    else none
  | .append capacity =>
    if s.put = .full then
      if s.ssts.length < s.capacity then some s.append
      else if s.ssts.length < capacity then some { s.append with capacity := capacity, buffer := s.buffer + 1 }
      else none
    else none
  | .writing reached =>
    if s.put = .appended then do
      let file ← TableBuilder.create_sstable snappy s.store.memtable_
      some (s.writeFile (file.take reached))
    else none
  | .write =>
    if s.put = .appended then do
      let file ← TableBuilder.create_sstable snappy s.store.memtable_
      some (s.write file)
    else none
  | .count => if s.put = .written then some s.count else none
  | .index => if s.put = .counted then some s.index else none
  | .finish => if s.put = .indexed then some s.finish else none
  | .get key =>
    if s.put = .idle then do
      let contained ← s.store.memtable_.contains key
      if contained then
        let result ← s.store.memtable_.get key
        some { s with gets := s.gets ++ [⟨key, .returned (finalResult result)⟩] }
      else some { s with gets := s.gets ++ [⟨key, .unlocked⟩] }
    else none
  | .begin j => do
    let get ← s.gets[j]?
    if get.pc = .unlocked then some (s.setGet j { get with pc := .loop 0 s.ssts.length s.buffer }) else none
  | .visit j stale => do
    let get ← s.gets[j]?
    match get.pc with
    | .loop i last buffer =>
      if i < last then
        let no := s.entry i buffer stale
        let file := s.store.dir.sst no
        some { s.setGet j { get with pc := visitPc snappy get.key i last buffer file } with
          opened := s.opened ++ [⟨no, file, s.written no⟩] }
      else none
    | _ => none
  | .leave j => do
    let get ← s.gets[j]?
    match get.pc with
    | .loop i last _ =>
      if i < last then none else some (s.setGet j { get with pc := .returned (finalResult (false, [])) })
    | _ => none

/-- The file was there, and it was the finished one. -/
def Opened.Finished (o : Opened) : Prop := ∃ file, o.file = some file ∧ o.written = some file

/-- A search visits the vector where it is, and not the number that `add` has appended and not yet written. -/
def VisitOk (s : State) : Event → Prop
  | .visit j _ => ∀ get ∈ s.gets[j]?, match get.pc with
    | .loop i _ buffer => buffer = s.buffer ∧ (s.put = .appended → s.ssts[i]? ≠ some s.no)
    | _ => True
  | _ => True

variable {snappy : Snappy} {s s' : State} {i j last buffer : Nat} {get : Get}

/-! ## What a step does -/

/-- The branches of a step, with what each has found. -/
inductive Steps (snappy : Snappy) (s : State) : Event → State → Prop where
  | put {key value : Bytes} {ones : Nat} {memtable : SkipList} (hput : s.put = .idle)
      (hmemtable : s.store.memtable_.put key value ones = some memtable) :
      Steps snappy s (.put key value ones) { s with
        store := { s.store with memtable_ := memtable }
        put := if memtable.space > StorageOption.SSTABLE_SPACE then .full else .idle }
  | append {capacity : Nat} (hput : s.put = .full) (hroom : s.ssts.length < s.capacity) :
      Steps snappy s (.append capacity) s.append
  | move {capacity : Nat} (hput : s.put = .full) (hroom : ¬ s.ssts.length < s.capacity) :
      Steps snappy s (.append capacity) { s.append with capacity := capacity, buffer := s.buffer + 1 }
  | writing {reached : Nat} {file : Bytes} (hput : s.put = .appended)
      (hfile : TableBuilder.create_sstable snappy s.store.memtable_ = some file) :
      Steps snappy s (.writing reached) (s.writeFile (file.take reached))
  | write {file : Bytes} (hput : s.put = .appended)
      (hfile : TableBuilder.create_sstable snappy s.store.memtable_ = some file) : Steps snappy s .write (s.write file)
  | count (hput : s.put = .written) : Steps snappy s .count s.count
  | index (hput : s.put = .counted) : Steps snappy s .index s.index
  | finish (hput : s.put = .indexed) : Steps snappy s .finish s.finish
  | found {key : Bytes} {result : Bool × Bytes} (hput : s.put = .idle)
      (hcontains : s.store.memtable_.contains key = some true) (hget : s.store.memtable_.get key = some result) :
      Steps snappy s (.get key) { s with gets := s.gets ++ [⟨key, .returned (finalResult result)⟩] }
  | unlock {key : Bytes} (hput : s.put = .idle) (hcontains : s.store.memtable_.contains key = some false) :
      Steps snappy s (.get key) { s with gets := s.gets ++ [⟨key, .unlocked⟩] }
  | begin {j : Nat} {get : Get} (hget : s.gets[j]? = some get) (hpc : get.pc = .unlocked) :
      Steps snappy s (.begin j) (s.setGet j { get with pc := .loop 0 s.ssts.length s.buffer })
  | visit {j i last buffer : Nat} {stale : UInt64} {get : Get} (hget : s.gets[j]? = some get)
      (hpc : get.pc = .loop i last buffer) (hi : i < last) :
      Steps snappy s (.visit j stale) { s.setGet j { get with
          pc := visitPc snappy get.key i last buffer (s.store.dir.sst (s.entry i buffer stale)) } with
        opened := s.opened ++ [⟨s.entry i buffer stale, s.store.dir.sst (s.entry i buffer stale),
          s.written (s.entry i buffer stale)⟩] }
  | leave {j i last buffer : Nat} {get : Get} (hget : s.gets[j]? = some get) (hpc : get.pc = .loop i last buffer)
      (hi : ¬ i < last) : Steps snappy s (.leave j) (s.setGet j { get with pc := .returned (finalResult (false, [])) })

theorem step_cases {e : Event} (h : step snappy s e = some s') : Steps snappy s e s' := by
  cases e with
  | put key value ones =>
      obtain ⟨hput, hrest⟩ := Option.ite_none_right_eq_some.mp h
      obtain ⟨memtable, hmemtable, hrest⟩ := Option.bind_eq_some_iff.mp hrest
      obtain rfl := Option.some.inj hrest
      exact .put hput hmemtable
  | append capacity =>
      obtain ⟨hput, hrest⟩ := Option.ite_none_right_eq_some.mp h
      split at hrest
      · rename_i hroom
        obtain rfl := Option.some.inj hrest
        exact .append hput hroom
      · rename_i hroom
        obtain ⟨-, hrest⟩ := Option.ite_none_right_eq_some.mp hrest
        obtain rfl := Option.some.inj hrest
        exact .move hput hroom
  | writing reached =>
      obtain ⟨hput, hrest⟩ := Option.ite_none_right_eq_some.mp h
      obtain ⟨file, hfile, hrest⟩ := Option.bind_eq_some_iff.mp hrest
      obtain rfl := Option.some.inj hrest
      exact .writing hput hfile
  | write =>
      obtain ⟨hput, hrest⟩ := Option.ite_none_right_eq_some.mp h
      obtain ⟨file, hfile, hrest⟩ := Option.bind_eq_some_iff.mp hrest
      obtain rfl := Option.some.inj hrest
      exact .write hput hfile
  | count =>
      obtain ⟨hput, hrest⟩ := Option.ite_none_right_eq_some.mp h
      obtain rfl := Option.some.inj hrest
      exact .count hput
  | index =>
      obtain ⟨hput, hrest⟩ := Option.ite_none_right_eq_some.mp h
      obtain rfl := Option.some.inj hrest
      exact .index hput
  | finish =>
      obtain ⟨hput, hrest⟩ := Option.ite_none_right_eq_some.mp h
      obtain rfl := Option.some.inj hrest
      exact .finish hput
  | get key =>
      obtain ⟨hput, hrest⟩ := Option.ite_none_right_eq_some.mp h
      obtain ⟨contained, hcontains, hrest⟩ := Option.bind_eq_some_iff.mp hrest
      cases contained with
      | true =>
          obtain ⟨result, hget, hrest⟩ := Option.bind_eq_some_iff.mp hrest
          obtain rfl := Option.some.inj hrest
          exact .found hput hcontains hget
      | false =>
          obtain rfl := Option.some.inj hrest
          exact .unlock hput hcontains
  | begin j =>
      obtain ⟨get, hget, hrest⟩ := Option.bind_eq_some_iff.mp h
      obtain ⟨hpc, hrest⟩ := Option.ite_none_right_eq_some.mp hrest
      obtain rfl := Option.some.inj hrest
      exact .begin hget hpc
  | visit j stale =>
      obtain ⟨get, hget, hrest⟩ := Option.bind_eq_some_iff.mp h
      split at hrest
      · rename_i hpc
        obtain ⟨hi, hrest⟩ := Option.ite_none_right_eq_some.mp hrest
        obtain rfl := Option.some.inj hrest
        exact .visit hget hpc hi
      · cases hrest
  | leave j =>
      obtain ⟨get, hget, hrest⟩ := Option.bind_eq_some_iff.mp h
      split at hrest
      · rename_i hpc
        obtain ⟨hi, hrest⟩ := Option.ite_none_left_eq_some.mp hrest
        obtain rfl := Option.some.inj hrest
        exact .leave hget hpc hi
      · cases hrest

/-! ## The invariant -/

/-- Every file in `ssts_` is finished, but for the one that `add` is writing. -/
def Tables (s : State) : Prop := ∀ no ∈ s.ssts, (s.put = .appended → no ≠ s.no) →
  ∃ file, s.store.dir.sst no = some file ∧ s.written no = some file

/-- A search is in memory that the vector has given up, or the vector has not lost entries since. -/
def Loops (s : State) : Prop := ∀ (j : Nat) (get : Get), s.gets[j]? = some get → ∀ i last buffer,
  get.pc = .loop i last buffer → buffer < s.buffer ∨ buffer = s.buffer ∧ last ≤ s.ssts.length

/-- Outside the time in which the file is written, all are finished. -/
theorem Tables.all (h : Tables s) (hput : s.put ≠ .appended) {no : UInt64} (hno : no ∈ s.ssts) :
    ∃ file, s.store.dir.sst no = some file ∧ s.written no = some file := h no hno fun happended => absurd happended hput

theorem Tables.step {e : Event} (h : Tables s) (hst : step snappy s e = some s') : Tables s' := by
  cases step_cases hst with
  | put hput =>
      exact fun no hno _ => h.all (by rw [hput]; exact Put.noConfusion) hno
  | append hput | move hput =>
      -- the new number is the one that is left out
      intro no hno hne
      rcases List.mem_append.mp hno with hold | hnew
      · exact h.all (by rw [hput]; exact Put.noConfusion) hold
      · exact absurd (List.mem_singleton.mp hnew) (hne rfl)
  | writing hput hfile =>
      intro no hno hne
      obtain ⟨file, hsst, hwritten⟩ := h no hno hne
      refine ⟨file, ?_, hwritten⟩
      exact (if_neg (hne hput)).trans hsst
  | write hput hfile =>
      intro no hno _
      by_cases hsame : no = s.no
      · subst hsame
        exact ⟨_, if_pos rfl, Function.update_self _ _ _⟩
      · obtain ⟨file, hsst, hwritten⟩ := h no hno fun _ => hsame
        exact ⟨file, (if_neg hsame).trans hsst, (Function.update_of_ne hsame _ _).trans hwritten⟩
  | count hput | index hput | finish hput =>
      exact fun no hno _ => h.all (by rw [hput]; exact Put.noConfusion) hno
  | found | unlock | begin | visit | leave => exact h

/-- One `get` moves. -/
theorem Loops.setGet (h : Loops s) {get' : Get} (hpc : ∀ i last buffer, get'.pc = .loop i last buffer →
    buffer < s.buffer ∨ buffer = s.buffer ∧ last ≤ s.ssts.length) : Loops (s.setGet j get') := by
  intro k get hget
  rcases Slots.get_set hget with ⟨-, rfl⟩ | ⟨-, hold⟩
  · exact hpc
  · exact h k get hold

theorem Loops.step {e : Event} (h : Loops s) (hst : step snappy s e = some s') : Loops s' := by
  cases step_cases hst with
  | put | writing | write | count | index | finish => exact h
  | append =>
      intro j get hget i last buffer hpc
      rcases h j get hget i last buffer hpc with hless | ⟨hsame, hlast⟩
      · exact Or.inl hless
      · exact Or.inr ⟨hsame, hlast.trans (List.length_append ▸ Nat.le_add_right _ _)⟩
  | move =>
      intro j get hget i last buffer hpc
      rcases h j get hget i last buffer hpc with hless | ⟨hsame, -⟩
      · exact Or.inl (Nat.lt_succ_of_lt hless)
      · exact Or.inl (hsame ▸ Nat.lt_succ_self _)
  | found | unlock =>
      intro j get hget i last buffer hpc
      rcases Slots.get_snoc hget with hold | ⟨-, rfl⟩
      · exact h j get hold i last buffer hpc
      · cases hpc
  | begin =>
      apply h.setGet
      intro i last buffer hpc
      obtain ⟨-, rfl, rfl⟩ := Pc.loop.inj hpc
      exact Or.inr ⟨rfl, Nat.le_refl _⟩
  | @visit j i last buffer stale get hget hpc hi =>
      apply h.setGet
      intro i' last' buffer' hpc'
      obtain ⟨rfl, rfl⟩ : last = last' ∧ buffer = buffer' := by
        simp only [visitPc] at hpc'
        split at hpc'
        · cases hpc'
        · split at hpc'
          · cases hpc'
          · exact (Pc.loop.inj hpc').2
      exact h j get hget i last buffer hpc
  | leave =>
      apply h.setGet
      intro i last buffer hpc
      cases hpc

/-- The invariant of a run. -/
structure Inv (s : State) : Prop where
  tables : Tables s
  loops : Loops s
  opened : ∀ o ∈ s.opened, o.Finished

/-- **Step lemma.** -/
theorem Inv.step {e : Event} (h : Inv s) (hst : Guarded VisitOk (FunStep (step snappy)) s e s') : Inv s' := by
  obtain ⟨hok, hst⟩ := hst
  refine ⟨h.tables.step hst, h.loops.step hst, ?_⟩
  cases step_cases hst with
  | put | append | move | writing | write | count | index | finish | found | unlock | begin | leave => exact h.opened
  | @visit j i last buffer stale get hget hpc hi =>
      intro o ho
      rcases List.mem_append.mp ho with hold | hnew
      · exact h.opened o hold
      · obtain rfl := List.mem_singleton.mp hnew
        have hok := hok get hget
        rw [hpc] at hok
        obtain ⟨rfl, hne⟩ := hok
        -- the search reads an entry that the vector has
        have hlen : i < s.ssts.length := by
          rcases h.loops j get hget i last s.buffer hpc with hless | ⟨-, hlast⟩
          · exact absurd hless (Nat.lt_irrefl _)
          · exact Nat.lt_of_lt_of_le hi hlast
        have hentry : s.entry i s.buffer stale = s.ssts[i] := by
          rw [State.entry, if_pos rfl, List.getD_eq_getElem?_getD, List.getElem?_eq_getElem hlen, Option.getD_some]
        rw [hentry]
        refine h.tables _ (List.getElem_mem hlen) fun happended hno => hne happended ?_
        rw [List.getElem?_eq_getElem hlen, hno]

theorem Inv.init {store : KVStore_beta} {capacity : Nat}
    (hfiles : ∀ no ∈ store.diskstorage_.level0_.ssts_, (store.dir.sst no).isSome) : Inv (State.init store capacity) := by
  constructor
  · intro no hno _
    obtain ⟨file, hfile⟩ := Option.isSome_iff_exists.mp (hfiles no hno)
    exact ⟨file, hfile, hfile⟩
  · intro j get hget
    cases hget
  · exact fun o ho => absurd ho List.not_mem_nil

/-! ## Calls without another in between -/

section Calls

variable {key value file : Bytes} {ones capacity : Nat} {m : SkipList}

theorem step_put (hput : s.put = .idle) (hm : s.store.memtable_.put key value ones = some m)
    (hspace : m.space > StorageOption.SSTABLE_SPACE) : step snappy s (.put key value ones) =
      some { s with store := { s.store with memtable_ := m }, put := .full } := by
  simp only [step, if_pos hput, hm, Option.bind_eq_bind, Option.bind_some, if_pos hspace]

/-- `append` changes `ssts_`, and where it is if there is no room. -/
theorem step_append (snappy : Snappy) (hput : s.put = .full) (hcapacity : s.ssts.length < capacity) :
    ∃ capacity' buffer', step snappy s (.append capacity) = some { s.append with capacity := capacity', buffer := buffer' } ∧
      (s.ssts.length < s.capacity → buffer' = s.buffer) ∧ (¬ s.ssts.length < s.capacity → capacity' = capacity) := by
  by_cases hroom : s.ssts.length < s.capacity
  · refine ⟨s.capacity, s.buffer, ?_, fun _ => rfl, absurd hroom⟩
    simp only [step, if_pos hput, if_pos hroom]
    rfl
  · refine ⟨capacity, s.buffer + 1, ?_, fun h => absurd h hroom, fun _ => rfl⟩
    simp only [step, if_pos hput, if_neg hroom, if_pos hcapacity]

theorem step_write (hput : s.put = .appended) (hfile : TableBuilder.create_sstable snappy s.store.memtable_ = some file) :
    step snappy s .write = some (s.write file) := by
  simp only [step, if_pos hput, hfile, Option.bind_eq_bind, Option.bind_some]

theorem step_count (hput : s.put = .written) : step snappy s .count = some s.count := if_pos hput

theorem step_index (hput : s.put = .counted) : step snappy s .index = some s.index := if_pos hput

theorem step_finish (hput : s.put = .indexed) : step snappy s .finish = some s.finish := if_pos hput

/-- A `put` that spills, event by event. -/
def spill (key value : Bytes) (ones capacity : Nat) : List Event :=
  [.put key value ones, .append capacity, .write, .count, .index, .finish]

/-- **`put`** is its steps. -/
theorem spill_run (hput : s.put = .idle) (hm : s.store.memtable_.put key value ones = some m)
    (hspace : m.space > StorageOption.SSTABLE_SPACE) (hfile : TableBuilder.create_sstable snappy m = some file)
    (hcapacity : s.ssts.length < capacity) :
    ∃ s', Run (Guarded VisitOk (FunStep (step snappy))) s (spill key value ones capacity) s' ∧
      s.store.put snappy key value ones = some s'.store ∧ s'.put = .idle ∧ s'.gets = s.gets ∧ s'.opened = s.opened ∧
      s'.ssts = s.ssts ++ [s.no] ∧ s'.no = s.no + 1 ∧ s'.store.memtable_ = m.clear ∧
      (¬ s.ssts.length < s.capacity → s'.capacity = capacity) := by
  have hfull : step snappy s (.put key value ones) = some _ := step_put hput hm hspace
  let full : State := { s with store := { s.store with memtable_ := m }, put := .full }
  obtain ⟨capacity', buffer', happend, -, hcapacity'⟩ := step_append snappy (s := full) rfl hcapacity
  refine ⟨_, Run.cons ⟨trivial, hfull⟩ (Run.cons ⟨trivial, happend⟩ (Run.cons ⟨trivial, step_write rfl hfile⟩
    (Run.cons ⟨trivial, step_count rfl⟩ (Run.cons ⟨trivial, step_index rfl⟩ (Run.single ⟨trivial, step_finish rfl⟩))))),
    ?_, rfl, rfl, rfl, rfl, rfl, rfl, hcapacity'⟩
  simp only [KVStore_beta.put, hm, Option.bind_eq_bind, Option.bind_some, if_pos hspace, KVStore_beta.addTable,
    DiskStorage.add, LevelZero.add, hfile]
  rfl

theorem step_unlock (hput : s.put = .idle) (hcontains : s.store.memtable_.contains key = some false) :
    step snappy s (.get key) = some { s with gets := s.gets ++ [⟨key, .unlocked⟩] } := by
  simp only [step, if_pos hput, hcontains, Option.bind_eq_bind, Option.bind_some, Bool.false_eq_true, if_false]

theorem step_begin (hget : s.gets[j]? = some ⟨key, .unlocked⟩) :
    step snappy s (.begin j) = some (s.setGet j ⟨key, .loop 0 s.ssts.length s.buffer⟩) := by
  simp only [step, hget, Option.bind_eq_bind, Option.bind_some, if_true]

theorem step_visit (hget : s.gets[j]? = some ⟨key, .loop i last buffer⟩) (hi : i < last) (stale : UInt64) :
    step snappy s (.visit j stale) = some {
      s.setGet j ⟨key, visitPc snappy key i last buffer (s.store.dir.sst (s.entry i buffer stale))⟩ with
      opened := s.opened ++ [⟨s.entry i buffer stale, s.store.dir.sst (s.entry i buffer stale),
        s.written (s.entry i buffer stale)⟩] } := by
  simp only [step, hget, Option.bind_eq_bind, Option.bind_some, if_pos hi]

theorem step_leave (hget : s.gets[j]? = some ⟨key, .loop i last buffer⟩) (hi : ¬ i < last) :
    step snappy s (.leave j) = some (s.setGet j ⟨key, .returned (finalResult (false, []))⟩) := by
  simp only [step, hget, Option.bind_eq_bind, Option.bind_some, if_neg hi]

/-- **`LevelZero::search`** is its visits. -/
theorem search_run {rest : List UInt64} {result : Bool × Bytes}
    (hget : s.gets[j]? = some ⟨key, .loop i s.ssts.length s.buffer⟩) (hrest : s.ssts.drop i = rest)
    (hsearch : LevelZero.searchLoop snappy s.store.dir key rest = some result) :
    ∃ es s', Run (FunStep (step snappy)) s es s' ∧ s'.gets[j]? = some ⟨key, .returned (finalResult result)⟩ ∧
      s'.store = s.store := by
  induction rest generalizing s i with
  | nil =>
      obtain rfl := Option.some.inj hsearch
      have hi : ¬ i < s.ssts.length := Nat.not_lt.mpr (List.drop_eq_nil_iff.mp hrest)
      exact ⟨_, _, Run.single (step_leave hget hi), Slots.get_set_self hget, rfl⟩
  | cons no rest ih =>
      have hno : s.ssts[i]? = some no := by
        rw [← List.head?_drop, hrest]
        rfl
      have hi : i < s.ssts.length := (List.getElem?_eq_some_iff.mp hno).1
      have hentry : s.entry i s.buffer 0 = no := by
        rw [State.entry, if_pos rfl, List.getD_eq_getElem?_getD, hno, Option.getD_some]
      obtain ⟨ifs, hifs, hsearch⟩ := Option.bind_eq_some_iff.mp hsearch
      obtain ⟨sstable, hsstable, hsearch⟩ := Option.bind_eq_some_iff.mp hsearch
      obtain ⟨found, hfound, hsearch⟩ := Option.bind_eq_some_iff.mp hsearch
      have hvisit : step snappy s (.visit j 0) = some _ := step_visit hget hi 0
      simp only [hentry, hifs, visitPc, Option.bind_eq_bind, Option.bind_some, hsstable, hfound] at hvisit
      split at hsearch
      · rename_i hhit
        obtain rfl := Option.some.inj hsearch
        rw [if_pos hhit] at hvisit
        exact ⟨_, _, Run.single hvisit, Slots.get_set_self hget, rfl⟩
      · rename_i hmiss
        rw [if_neg hmiss] at hvisit
        have hdrop : s.ssts.drop (i + 1) = rest := by
          rw [← List.tail_drop, hrest]
          rfl
        obtain ⟨es, s', hrun, hreturned, hstore⟩ := ih (s := { s.setGet j ⟨key, .loop (i + 1) s.ssts.length s.buffer⟩ with
          opened := s.opened ++ [⟨no, some ifs, s.written no⟩] }) (Slots.get_set_self hget) hdrop hsearch
        exact ⟨_, s', Run.cons hvisit hrun, hreturned, hstore⟩

theorem get_eq (store : KVStore_beta) (key : Bytes) : store.get snappy key = (store.memtable_.contains key).bind fun contained =>
    (if contained then store.memtable_.get key else store.search snappy key).map finalResult := by
  unfold KVStore_beta.get
  congr
  funext contained
  have hfinal : ∀ o : Option (Bool × Bytes), (o.bind fun result => if result.1 = true ∧ result.2 ≠ [] then some result
      else some (false, [])) = o.map finalResult := by
    intro o
    cases o with
    | none => rfl
    | some result => exact (apply_ite some _ _ _).symm
  cases contained with
  | true => exact hfinal _
  | false => exact hfinal _

/-- **`get`** is its steps. -/
theorem get_run {result : Bool × Bytes} (hput : s.put = .idle) (hresult : s.store.get snappy key = some result) :
    ∃ es s', Run (FunStep (step snappy)) s es s' ∧ s'.gets[s.gets.length]? = some ⟨key, .returned result⟩ ∧
      s'.store = s.store := by
  rw [get_eq] at hresult
  obtain ⟨contained, hcontains, hresult⟩ := Option.bind_eq_some_iff.mp hresult
  obtain ⟨found, hfound, rfl⟩ := Option.map_eq_some_iff.mp hresult
  cases contained with
  | true =>
      have hfound : s.store.memtable_.get key = some found := hfound
      have hstep : step snappy s (.get key) = some { s with gets := s.gets ++ [⟨key, .returned (finalResult found)⟩] } := by
        simp only [step, if_pos hput, hcontains, hfound, Option.bind_eq_bind, Option.bind_some, if_true]
      exact ⟨_, _, Run.single hstep, List.getElem?_concat_length, rfl⟩
  | false =>
      have hfound : LevelZero.searchLoop snappy s.store.dir key s.ssts = some found := hfound
      let unlocked : State := { s with gets := s.gets ++ [⟨key, .unlocked⟩] }
      have hlast : unlocked.gets[s.gets.length]? = some ⟨key, .unlocked⟩ := List.getElem?_concat_length
      obtain ⟨es, s', hrun, hreturned, hstore⟩ := search_run (i := 0)
        (s := unlocked.setGet s.gets.length ⟨key, .loop 0 s.ssts.length s.buffer⟩) (Slots.get_set_self hlast) rfl hfound
      exact ⟨_, s', Run.cons (step_unlock hput hcontains) (Run.cons (step_begin hlast) hrun), hreturned, hstore⟩

/-- One big value spills an empty memtable. -/
theorem spills {store : KVStore_beta} (h : store.memtable_.Holds []) {V : Bytes} (hV : V.length = StorageOption.SSTABLE_SPACE) :
    ∃ m file, store.memtable_.put [97] V 0 = some m ∧ m.space > StorageOption.SSTABLE_SPACE ∧
      TableBuilder.create_sstable SnappyLiterals.snappy m = some file := by
  obtain ⟨m, hm, hholds⟩ := h.put [97] V 0
  have hholds : m.Holds [([97], V)] := hholds
  obtain ⟨file, hfile⟩ := TableBuilder.create_sstable_isSome hholds SnappyLiterals.grows (KVStore_beta.fits_single hV)
  refine ⟨m, file, hm, ?_, hfile⟩
  rw [hholds.space, bytesOf_cons, bytesOf_nil, hV]
  show _ < _
  simp only [List.length_cons, List.length_nil]
  omega

end Calls

theorem new_empty {store : KVStore_beta} (h : KVStore_beta.new {} = some store) : store.memtable_.Holds [] ∧
    (State.init store 0).ssts = [] ∧ (State.init store 0).no = 0 ∧ store.dir.sst = fun _ => none := by
  obtain rfl := Option.some.inj h
  exact ⟨SkipList.holds_init _ 1, rfl, rfl, rfl⟩

/-! ## Every run -/

/-- **Readers open finished files**, in every run whose visits all meet `VisitOk`, from a store that has all its files. -/
theorem readers_open_finished {store : KVStore_beta}
    (hfiles : ∀ no ∈ store.diskstorage_.level0_.ssts_, (store.dir.sst no).isSome) {capacity : Nat}
    {es : List Event}
    (hrun : Run (Guarded VisitOk (FunStep (step snappy))) (State.init store capacity) es s) : ∀ o ∈ s.opened, o.Finished :=
  (hrun.invariant (I := Inv) (fun _ _ _ => Inv.step) (Inv.init hfiles)).opened

/-- A search starts while there is one table, and visits it while the next one is being added. -/
def searchOld (V W : Bytes) : List Event :=
  .get [98] :: (spill [97] V 0 2 ++ [.begin 0, .put [97] W 0, .append 3, .visit 0 0])

theorem readers_open_finished_searchOld : ∃ s₀ s, KVStore_beta.new {} = some s₀ ∧
    Run (Guarded VisitOk (FunStep (step SnappyLiterals.snappy))) (State.init s₀ 0)
      (searchOld (KVStore_beta.bigValue 1) (KVStore_beta.bigValue 2)) s ∧
    s.put = .appended ∧ s.opened ≠ [] ∧ ∀ o ∈ s.opened, o.Finished := by
  obtain ⟨s₀, hopen⟩ : ∃ s₀, KVStore_beta.new {} = some s₀ := ⟨_, rfl⟩
  obtain ⟨hempty, hssts, hno, -⟩ := new_empty hopen
  -- the first table
  have hunlock : step SnappyLiterals.snappy (State.init s₀ 0) (.get [98]) = some _ := step_unlock rfl (hempty.contains [98])
  obtain ⟨m, file, hm, hspace, hfile⟩ := spills hempty (KVStore_beta.length_bigValue 1)
  obtain ⟨t, hspill, -, htput, htgets, htopened, htssts, htno, htmemtable, htcapacity⟩ :=
    spill_run (s := { State.init s₀ 0 with gets := [⟨[98], .unlocked⟩] }) rfl hm hspace hfile
      (show (State.init s₀ 0).ssts.length < 2 by rw [hssts]; decide)
  replace htssts : t.ssts = [0] := htssts.trans (by rw [← hno, ← List.nil_append [(State.init s₀ 0).no], ← hssts]; rfl)
  replace htno : t.no = 1 := htno.trans (congrArg (· + 1) hno)
  have hroom : t.ssts.length < t.capacity := by
    rw [htssts, htcapacity (Nat.not_lt_zero _)]
    decide
  -- the search, and the second table
  let begun : State := t.setGet 0 ⟨[98], .loop 0 t.ssts.length t.buffer⟩
  have hbegin : step SnappyLiterals.snappy t (.begin 0) = some begun := step_begin (by rw [htgets]; rfl)
  have hcleared : t.store.memtable_.Holds [] := by
    rw [htmemtable]
    exact SkipList.Holds.clear m
  obtain ⟨m', -, hm', hspace', -⟩ := spills hcleared (KVStore_beta.length_bigValue 2)
  let full : State := { begun with store := { t.store with memtable_ := m' }, put := .full }
  have hput : step SnappyLiterals.snappy begun (.put [97] (KVStore_beta.bigValue 2) 0) = some full :=
    step_put htput hm' hspace'
  obtain ⟨capacity', buffer', happend, hbuffer, -⟩ := step_append SnappyLiterals.snappy (s := full) rfl
    (show t.ssts.length < 3 by rw [htssts]; decide)
  obtain rfl := hbuffer hroom
  have hget : (t.gets.set 0 ⟨[98], .loop 0 t.ssts.length t.buffer⟩)[0]? = some ⟨[98], .loop 0 t.ssts.length t.buffer⟩ :=
    Slots.get_set_self (x := ⟨[98], .unlocked⟩) (by rw [htgets]; rfl)
  have hfirst : 0 < t.ssts.length := by
    rw [htssts]
    decide
  have hrun := Run.cons (e := Event.get [98]) ⟨trivial, hunlock⟩ (hspill.append (Run.cons (e := Event.begin 0) ⟨trivial, hbegin⟩
    (Run.cons (e := Event.put [97] _ 0) ⟨trivial, hput⟩ (Run.cons (e := Event.append 3) ⟨trivial, happend⟩
      (Run.single (e := Event.visit 0 0) ⟨?_, step_visit hget hfirst 0⟩)))))
  · refine ⟨s₀, _, hopen, hrun, rfl, ?_, readers_open_finished ?_ hrun⟩
    · exact List.append_ne_nil_of_right_ne_nil _ (List.cons_ne_nil _ _)
    · intro no hmem
      rw [show s₀.diskstorage_.level0_.ssts_ = [] from hssts] at hmem
      cases hmem
  · intro get hmem
    obtain rfl := Option.some.inj (hget.symm.trans hmem)
    refine ⟨rfl, fun _ hfirst => ?_⟩
    have hfirst : (t.ssts ++ [t.no])[0]? = some t.no := hfirst
    rw [htssts, htno] at hfirst
    cases hfirst

/-- A search starts while the first table is being added. -/
def searchNew (V : Bytes) : List Event := [.get [98], .put [97] V 0, .append 1, .begin 0, .visit 0 0]

/-- **A file that is not there** is opened. -/
theorem opens_missing : ∃ s₀ s, KVStore_beta.new {} = some s₀ ∧
    Run (FunStep (step SnappyLiterals.snappy)) (State.init s₀ 0) (searchNew (KVStore_beta.bigValue 1)) s ∧
    ¬ ∀ o ∈ s.opened, o.Finished := by
  obtain ⟨s₀, hopen⟩ : ∃ s₀, KVStore_beta.new {} = some s₀ := ⟨_, rfl⟩
  obtain ⟨hempty, hssts, -, hsst⟩ := new_empty hopen
  have hunlock : step SnappyLiterals.snappy (State.init s₀ 0) (.get [98]) = some _ := step_unlock rfl (hempty.contains [98])
  obtain ⟨m, -, hm, hspace, -⟩ := spills hempty (KVStore_beta.length_bigValue 1)
  have hput : step SnappyLiterals.snappy { State.init s₀ 0 with gets := [⟨[98], .unlocked⟩] }
      (.put [97] (KVStore_beta.bigValue 1) 0) = some _ := step_put rfl hm hspace
  let full : State := { State.init s₀ 0 with gets := [⟨[98], .unlocked⟩], store := { s₀ with memtable_ := m }, put := .full }
  obtain ⟨capacity', buffer', happend, -, -⟩ := step_append SnappyLiterals.snappy (s := full) rfl
    (show (State.init s₀ 0).ssts.length < 1 by rw [hssts]; decide)
  refine ⟨s₀, _, hopen, Run.cons hunlock (Run.cons hput (Run.cons happend (Run.cons (step_begin rfl)
    (Run.single (step_visit (Slots.get_set_self rfl) ?_ 0))))), ?_⟩
  · show 0 < ((State.init s₀ 0).ssts ++ [(State.init s₀ 0).no]).length
    rw [hssts]
    exact Nat.zero_lt_one
  · intro hall
    obtain ⟨file, hfile, -⟩ := hall _ (List.mem_singleton_self _)
    cases (congrFun hsst _).symm.trans hfile

/-! ## The other visits -/

/-- Numbers from `no_` on have no finished file, but for the one that `add` has written. -/
def Fresh (s : State) : Prop := ∀ n file, s.written n = some file →
  n.toNat < s.no.toNat ∨ n = s.no ∧ (s.put = .written ∨ s.put = .counted ∨ s.put = .indexed)

/-- The file number does not wrap around. -/
def NumberOk (s : State) : Event → Prop
  | .finish => s.no.toNat + 1 < 2 ^ 64
  | _ => True

/-- Before the file is written, the old ones are those below. -/
theorem Fresh.below (h : Fresh s) (hput : s.put = .idle ∨ s.put = .full ∨ s.put = .appended) {n : UInt64} {file : Bytes}
    (hn : s.written n = some file) : n.toNat < s.no.toNat := by
  rcases h n file hn with hless | ⟨-, hlater⟩
  · exact hless
  · rcases hput with hput | hput | hput <;> rw [hput] at hlater <;> simp at hlater

theorem Fresh.step {e : Event} (h : Fresh s) (hst : Guarded NumberOk (FunStep (step snappy)) s e s') : Fresh s' := by
  obtain ⟨hok, hst⟩ := hst
  cases step_cases hst with
  | put hput => exact fun n file hn => Or.inl (h.below (Or.inl hput) hn)
  | append hput | move hput => exact fun n file hn => Or.inl (h.below (Or.inr (Or.inl hput)) hn)
  | writing hput => exact fun n file hn => Or.inl (h.below (Or.inr (Or.inr hput)) hn)
  | write hput =>
      intro n file hn
      by_cases hsame : n = s.no
      · exact Or.inr ⟨hsame, Or.inl rfl⟩
      · exact Or.inl (h.below (Or.inr (Or.inr hput)) ((Function.update_of_ne hsame _ _).symm.trans hn))
  | count hput =>
      intro n file hn
      exact (h n file hn).imp_right fun hlast => ⟨hlast.1, Or.inr (Or.inl rfl)⟩
  | index hput =>
      intro n file hn
      exact (h n file hn).imp_right fun hlast => ⟨hlast.1, Or.inr (Or.inr rfl)⟩
  | finish hput =>
      intro n file hn
      have hnext : (s.no + 1).toNat = s.no.toNat + 1 := toNat_succ hok
      refine Or.inl (lt_of_lt_of_eq ?_ hnext.symm)
      rcases h n file hn with hless | ⟨rfl, -⟩
      · exact Nat.lt_succ_of_lt hless
      · exact Nat.lt_succ_self _
  | found | unlock | begin | visit | leave => exact h

/-- **A visit of the number that `add` has appended** opens a file that is not finished, in any run in which the number does
    not wrap around. -/
theorem visit_appended {store : KVStore_beta} {capacity : Nat} (hstore : Fresh (State.init store capacity)) {es : List Event}
    {stale : UInt64} (hrun : Run (Guarded NumberOk (FunStep (step snappy))) (State.init store capacity) es s)
    (hget : s.gets[j]? = some get)
    (hpc : get.pc = .loop i last buffer) (hentry : s.entry i buffer stale = s.no) (hput : s.put = .appended)
    (hst : step snappy s (.visit j stale) = some s') : ¬ ∀ o ∈ s'.opened, o.Finished := by
  have hfresh : Fresh s := hrun.invariant (I := Fresh) (fun _ _ _ => Fresh.step) hstore
  intro hall
  cases step_cases hst with
  | visit hget' hpc' hi =>
      obtain rfl := Option.some.inj (hget.symm.trans hget')
      obtain ⟨rfl, rfl, rfl⟩ := Pc.loop.inj (hpc.symm.trans hpc')
      obtain ⟨file, -, hwritten⟩ := hall _ (List.mem_append_right _ (List.mem_singleton_self _))
      rw [hentry] at hwritten
      exact absurd (hfresh.below (Or.inr (Or.inr hput)) hwritten) (Nat.lt_irrefl _)

end KVStoreReaders
end DDBMS
