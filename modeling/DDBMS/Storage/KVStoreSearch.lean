import DDBMS.Storage.KVStoreReaders

/-!
# `Storage.KVStoreSearch` — what a search next to a spill finds

A search of the disk holds no mutex, so memtables are filled and spilled while it is on its way (`Storage.KVStoreReaders`). If
nobody writes its key meanwhile, and its visits are the ones of `VisitOk`, it finds what the store has (`Sought.search`).

The store is the one without the `put` that is in progress; where that stands is `Spilling`, and what the search sees of it is
`Views`.
-/

namespace DDBMS
namespace KVStoreReaders

/-- What the SSTable of a number has for a key. -/
def tableGet (snappy : Snappy) (dir : Dir) (key : Bytes) (no : UInt64) : Option (Bool × Bytes) := do
  let ifs ← dir.sst no
  let sstable ← SSTable.new snappy ifs
  sstable.get snappy key

/-- `get` up to where it gives the mutex up, or returns. -/
def lookPc (store : KVStore_beta) (key : Bytes) : Option Pc := do
  let contained ← store.memtable_.contains key
  if contained then
    let result ← store.memtable_.get key
    some (.returned (finalResult result))
  else some .unlocked

/-- One step of the search in a store that looks like `s`. -/
def searchPc (snappy : Snappy) (s : State) (key : Bytes) (stale : UInt64) : Pc → Option Pc
  | .unlocked => some (.loop 0 s.ssts.length s.buffer)
  | .loop i last buffer =>
    if i < last then some (visitPc snappy key i last buffer (s.store.dir.sst (s.entry i buffer stale)))
    else some (.returned (finalResult (false, [])))
  | .returned _ | .failed => none

/-- The steps of `LevelZero::add`. -/
def Event.adds : Event → Bool
  | .append _ | .writing _ | .write | .count | .index => true
  | _ => false

/-- `VisitOk`, of one search. -/
def SearchOk (s : State) : Pc → Prop
  | .loop i last buffer => i < last → buffer = s.buffer ∧ (s.put = .appended → s.ssts[i]? ≠ some s.no)
  | _ => True

/-- The SSTable is there, and does not have the key. -/
def Misses (snappy : Snappy) (dir : Dir) (key : Bytes) (no : UInt64) : Prop :=
  ∃ result, tableGet snappy dir key no = some result ∧ result.1 = false

/-- Where a search for a key stands that `store` does not have where it has looked. -/
def Sought (snappy : Snappy) (store : KVStore_beta) (s : State) (key : Bytes) : Pc → Prop
  | .unlocked => store.memtable_.contains key = some false
  | .loop i last buffer => store.memtable_.contains key = some false ∧
      (buffer < s.buffer ∨ buffer = s.buffer ∧ last ≤ s.ssts.length) ∧
      ∀ n no, store.diskstorage_.level0_.ssts_[n]? = some no → n < i ∨ last ≤ n → Misses snappy store.dir key no
  | .returned _ | .failed => False

/-- To a search for the key, `s` is the store: behind the tables of the store are only those that it may not visit, and those
    that do not have the key. -/
structure Views (snappy : Snappy) (store : KVStore_beta) (key : Bytes) (s : State) : Prop where
  tables : store.diskstorage_.level0_.ssts_ <+: s.ssts
  files : ∀ no ∈ store.diskstorage_.level0_.ssts_, s.store.dir.sst no = store.dir.sst no
  more : ∀ (n : Nat) no, store.diskstorage_.level0_.ssts_.length ≤ n → s.ssts[n]? = some no →
    s.put = .appended ∧ no = s.no ∨ Misses snappy s.store.dir key no

variable {snappy : Snappy} {store store' : KVStore_beta} {s s' : State} {key : Bytes} {pc pc' : Pc} {stale : UInt64} {dir : Dir}
  {no : UInt64} {nos : List UInt64} {i j last buffer : Nat} {result : Bool × Bytes} {get : Get}

/-! ## The steps of `get` -/

theorem visitPc_eq (snappy : Snappy) (dir : Dir) (key : Bytes) (i last buffer : Nat) (no : UInt64) :
    visitPc snappy key i last buffer (dir.sst no) = match tableGet snappy dir key no with
      | none => .failed
      | some result => if result.1 then .returned (finalResult result) else .loop (i + 1) last buffer := rfl

theorem visitPc_misses (h : Misses snappy dir key no) (i last buffer : Nat) :
    visitPc snappy key i last buffer (dir.sst no) = .loop (i + 1) last buffer := by
  obtain ⟨result, htable, hmiss⟩ := h
  simp [visitPc_eq, htable, hmiss]

/-- `searchPc` is what a search of `step` does. -/
theorem step_search (hget : s.gets[j]? = some get) (hpc : searchPc snappy s get.key stale get.pc = some pc) :
    ∃ e s', step snappy s e = some s' ∧ s'.gets = s.gets.set j { get with pc := pc } ∧ s'.store = s.store := by
  obtain ⟨key, old⟩ := get
  cases old with
  | returned | failed => cases hpc
  | unlocked =>
      obtain rfl := Option.some.inj hpc
      exact ⟨.begin j, _, step_begin hget, rfl, rfl⟩
  | loop i last buffer =>
      by_cases hi : i < last
      · obtain rfl := Option.some.inj ((if_pos hi).symm.trans hpc)
        exact ⟨.visit j stale, _, step_visit hget hi stale, rfl, rfl⟩
      · obtain rfl := Option.some.inj ((if_neg hi).symm.trans hpc)
        exact ⟨.leave j, _, step_leave hget hi, rfl, rfl⟩

/-- `lookPc` is what a `get` of `step` does at first. -/
theorem step_look (hput : s.put = .idle) (hpc : lookPc s.store key = some pc) :
    step snappy s (.get key) = some { s with gets := s.gets ++ [⟨key, pc⟩] } := by
  obtain ⟨contained, hcontains, hpc⟩ := Option.bind_eq_some_iff.mp hpc
  cases contained with
  | true =>
      obtain ⟨result, hget, hpc⟩ := Option.bind_eq_some_iff.mp hpc
      obtain rfl := Option.some.inj hpc
      simp [step, hput, hcontains, hget]
  | false =>
      obtain rfl := Option.some.inj hpc
      exact step_unlock hput hcontains

/-! ## What a search finds -/

/-- The loop looks at the first table. -/
theorem searchLoop_cons (snappy : Snappy) (dir : Dir) (key : Bytes) (no : UInt64) (nos : List UInt64) :
    LevelZero.searchLoop snappy dir key (no :: nos) = (tableGet snappy dir key no).bind fun result =>
      if result.1 then some result else LevelZero.searchLoop snappy dir key nos := by
  simp only [LevelZero.searchLoop, tableGet, Option.bind_eq_bind, Option.bind_assoc]

/-- Tables that do not have the key are passed by. -/
theorem searchLoop_misses (h : ∀ no ∈ nos, Misses snappy dir key no) (rest : List UInt64) :
    LevelZero.searchLoop snappy dir key (nos ++ rest) = LevelZero.searchLoop snappy dir key rest := by
  induction nos with
  | nil => rfl
  | cons no nos ih =>
      obtain ⟨result, htable, hmiss⟩ := h no List.mem_cons_self
      rw [List.cons_append, searchLoop_cons, htable, Option.bind_some, hmiss, if_neg Bool.false_ne_true]
      exact ih fun no hno => h no (List.mem_cons_of_mem _ hno)

/-- The table that has the key ends the loop. -/
theorem searchLoop_hit (htable : tableGet snappy dir key no = some result) (hhit : result.1 = true) (rest : List UInt64) :
    LevelZero.searchLoop snappy dir key (no :: rest) = some result := by
  rw [searchLoop_cons, htable, Option.bind_some, if_pos hhit]

theorem get_of_search (hcontains : store.memtable_.contains key = some false)
    (hsearch : LevelZero.searchLoop snappy store.dir key store.diskstorage_.level0_.ssts_ = some result) :
    store.get snappy key = some (finalResult result) := by
  have hsearch : store.search snappy key = some result := hsearch
  rw [get_eq, hcontains, Option.bind_some, if_neg Bool.false_ne_true, hsearch]
  rfl

/-- **The memtable** has the key, or the search begins. -/
theorem look_outcome (s : State) (h : lookPc store key = some pc) :
    (∃ result, pc = .returned result ∧ store.get snappy key = some result) ∨ Sought snappy store s key pc := by
  obtain ⟨contained, hcontains, h⟩ := Option.bind_eq_some_iff.mp h
  cases contained with
  | true =>
      obtain ⟨result, hget, h⟩ := Option.bind_eq_some_iff.mp h
      obtain rfl := Option.some.inj h
      refine Or.inl ⟨_, rfl, ?_⟩
      rw [get_eq, hcontains, Option.bind_some, if_pos rfl, hget]
      rfl
  | false =>
      obtain rfl := Option.some.inj h
      exact Or.inr hcontains

/-- **A search goes on**, or it returns what the store has. -/
theorem Sought.search (h : Sought snappy store s key pc) (hviews : Views snappy store key s)
    (hreads : ∀ no ∈ store.diskstorage_.level0_.ssts_, (tableGet snappy store.dir key no).isSome) (hok : SearchOk s pc)
    (hst : searchPc snappy s key stale pc = some pc') :
    (∃ result, pc' = .returned result ∧ store.get snappy key = some result) ∨ Sought snappy store s key pc' := by
  have hlength := hviews.tables.length_le
  cases pc with
  | returned | failed => exact h.elim
  | unlocked =>
      obtain rfl := Option.some.inj hst
      refine Or.inr ⟨h, Or.inr ⟨rfl, Nat.le_refl _⟩, fun n no hn hout => ?_⟩
      have hlt := (List.getElem?_eq_some_iff.mp hn).1
      omega
  | loop i last buffer =>
      obtain ⟨hcontains, hbuffer, hmisses⟩ := h
      by_cases hi : i < last
      · obtain rfl := Option.some.inj ((if_pos hi).symm.trans hst)
        obtain ⟨rfl, hnot⟩ := hok hi
        have hlast : i < s.ssts.length := by omega
        have hentry : s.entry i s.buffer stale = s.ssts[i] := by
          rw [State.entry, if_pos rfl, List.getD_eq_getElem?_getD, List.getElem?_eq_getElem hlast, Option.getD_some]
        rw [hentry]
        -- the search goes on behind a table without the key
        have hpasses : (∀ no, store.diskstorage_.level0_.ssts_[i]? = some no → Misses snappy store.dir key no) →
            Sought snappy store s key (.loop (i + 1) last s.buffer) := by
          refine fun hmiss => ⟨hcontains, hbuffer, fun n no hn hout => ?_⟩
          by_cases hni : n = i
          · exact hmiss no (hni ▸ hn)
          · exact hmisses n no hn (by omega)
        by_cases hstore : i < store.diskstorage_.level0_.ssts_.length
        · have hsame : s.ssts[i] = store.diskstorage_.level0_.ssts_[i] := (hviews.tables.getElem hstore).symm
          rw [hsame, hviews.files _ (List.getElem_mem hstore)]
          obtain ⟨result, hresult⟩ := Option.isSome_iff_exists.mp (hreads _ (List.getElem_mem hstore))
          cases hhit : result.1 with
          | true =>
              refine Or.inl ⟨finalResult result, by simp [visitPc_eq, hresult, hhit], get_of_search hcontains ?_⟩
              rw [← List.take_append_drop i store.diskstorage_.level0_.ssts_, searchLoop_misses, List.drop_eq_getElem_cons hstore]
              · exact searchLoop_hit hresult hhit _
              · intro no hno
                obtain ⟨n, hn, rfl⟩ := List.mem_take_iff_getElem.mp hno
                exact hmisses n _ (List.getElem?_eq_getElem _) (Or.inl (by omega))
          | false =>
              have hmiss : Misses snappy store.dir key store.diskstorage_.level0_.ssts_[i] := ⟨result, hresult, hhit⟩
              rw [visitPc_misses hmiss]
              refine Or.inr (hpasses fun no hno => ?_)
              rw [List.getElem?_eq_getElem hstore] at hno
              exact Option.some.inj hno ▸ hmiss
        · have hno : s.ssts[i]? = some s.ssts[i] := List.getElem?_eq_getElem hlast
          rcases hviews.more i _ (Nat.not_lt.mp hstore) hno with ⟨happended, hnew⟩ | hmiss
          · exact absurd (hno.trans (congrArg some hnew)) (hnot happended)
          · rw [visitPc_misses hmiss]
            refine Or.inr (hpasses fun no hno => ?_)
            exact absurd (List.getElem?_eq_some_iff.mp hno).1 hstore
      · obtain rfl := Option.some.inj ((if_neg hi).symm.trans hst)
        refine Or.inl ⟨_, rfl, get_of_search hcontains ?_⟩
        rw [← List.append_nil store.diskstorage_.level0_.ssts_, searchLoop_misses]
        · rfl
        · intro no hno
          obtain ⟨n, hn, rfl⟩ := List.mem_iff_getElem.mp hno
          exact hmisses n _ (List.getElem?_eq_getElem hn) (by omega)

theorem Sought.contains (h : Sought snappy store s key pc) : store.memtable_.contains key = some false := by
  cases pc with
  | unlocked => exact h
  | loop => exact h.1
  | returned | failed => exact h.elim

/-- What a search has found, it has found when the vector has grown or moved. -/
theorem Sought.moves (h : Sought snappy store s key pc)
    (hmoves : s.buffer < s'.buffer ∨ s'.buffer = s.buffer ∧ s.ssts.length ≤ s'.ssts.length) : Sought snappy store s' key pc := by
  cases pc with
  | unlocked | returned | failed => exact h
  | loop i last buffer =>
      obtain ⟨hcontains, hbuffer, hmisses⟩ := h
      exact ⟨hcontains, by omega, hmisses⟩

/-- A step moves the vector, or keeps what it has. -/
theorem moves_step {e : Event} (hst : step snappy s e = some s') :
    s.buffer < s'.buffer ∨ s'.buffer = s.buffer ∧ s.ssts.length ≤ s'.ssts.length := by
  cases step_cases hst with
  | put | writing | write | count | index | finish | found | unlock | begin | visit | leave =>
      exact Or.inr ⟨rfl, Nat.le_refl _⟩
  | append => exact Or.inr ⟨rfl, List.length_append ▸ Nat.le_add_right _ _⟩
  | move => exact Or.inl (Nat.lt_succ_self _)

/-! ## A `put` that spills -/

/-- The store behind `memtable_.put`. -/
def filled (store : KVStore_beta) (m : SkipList) : State :=
  { State.init { store with memtable_ := m } 0 with put := .full }

/-- `s` is the store in a `put` that spills the memtable `m`. -/
inductive Spilling (snappy : Snappy) (store : KVStore_beta) (m : SkipList) (s : State) : Prop where
  | full (hput : s.put = .full) (hstore : s.store = (filled store m).store)
  | appended {sst : UInt64 → Option Bytes} (hput : s.put = .appended)
      (hstore : s.store = ((filled store m).append.setDir { store.dir with sst := sst }).store)
      (hsst : ∀ no, no ≠ store.diskstorage_.no_ → sst no = store.dir.sst no)
  | written {file : Bytes} (hput : s.put = .written) (hfile : TableBuilder.create_sstable snappy m = some file)
      (hstore : s.store = ((filled store m).append.write file).store)
  | counted {file : Bytes} (hput : s.put = .counted) (hfile : TableBuilder.create_sstable snappy m = some file)
      (hstore : s.store = ((filled store m).append.write file).count.store)
  | indexed {file : Bytes} (hput : s.put = .indexed) (hfile : TableBuilder.create_sstable snappy m = some file)
      (hstore : s.store = ((filled store m).append.write file).count.index.store)

section Spilling

variable {m : SkipList} {value : Bytes} {ones : Nat}

theorem spilling_put (hst : step snappy s (.put key value ones) = some s') (hfull : s'.put = .full) :
    ∃ m, s.store.memtable_.put key value ones = some m ∧ m.space > StorageOption.SSTABLE_SPACE ∧ Spilling snappy s.store m s' := by
  cases step_cases hst with
  | @put _ _ _ m hput hm =>
      dsimp only at hfull
      split at hfull
      · rename_i hspace
        exact ⟨m, hm, hspace, .full (if_pos hspace) rfl⟩
      · cases hfull

/-- **A step of `LevelZero::add`.** -/
theorem Spilling.step {e : Event} (h : Spilling snappy store m s) (he : e.adds = true) (hst : step snappy s e = some s') :
    Spilling snappy store m s' := by
  cases step_cases hst with
  | put | found | unlock | begin | visit | leave | finish => cases he
  | append hput | move hput =>
      cases h with
      | full _ hstore =>
          refine @Spilling.appended _ _ _ _ store.dir.sst rfl ?_ fun _ _ => rfl
          simp only [State.append, State.setLevel0, State.setDir, State.ssts, State.no, hstore]
          rfl
      | appended h | written h | counted h | indexed h => cases hput.symm.trans h
  | @writing reached file hput hfile =>
      cases h with
      | @appended sst _ hstore hsst =>
          refine @Spilling.appended _ _ _ _
            (fun no => if no = store.diskstorage_.no_ then some (file.take reached) else sst no) hput ?_ ?_
          · simp only [State.writeFile, State.setDir, State.no, Dir.write, hstore]
            rfl
          · exact fun no hno => (if_neg hno).trans (hsst no hno)
      | full h | written h | counted h | indexed h => cases hput.symm.trans h
  | @write file hput hfile =>
      cases h with
      | @appended sst _ hstore hsst =>
          have hfile : TableBuilder.create_sstable snappy m = some file := by
            rw [hstore] at hfile
            exact hfile
          have hdir : (fun no => if no = store.diskstorage_.no_ then some file else sst no) =
              fun no => if no = store.diskstorage_.no_ then some file else store.dir.sst no := by
            funext no
            split
            · rfl
            · exact hsst no (by assumption)
          refine .written rfl hfile ?_
          simp only [State.write, State.writeFile, State.setDir, State.no, Dir.write, hstore]
          exact congrArg (fun sst => (⟨m, _, { store.dir with sst := sst }⟩ : KVStore_beta)) hdir
      | full h | written h | counted h | indexed h => cases hput.symm.trans h
  | count hput =>
      cases h with
      | written _ hfile hstore =>
          refine .counted rfl hfile ?_
          simp only [State.count, State.setLevel0, State.no, hstore]
      | full h | appended h | counted h | indexed h => cases hput.symm.trans h
  | index hput =>
      cases h with
      | counted _ hfile hstore =>
          refine .indexed rfl hfile ?_
          simp only [State.index, State.setDir, hstore]
      | full h | appended h | written h | indexed h => cases hput.symm.trans h

/-- **`put`** is at its end. -/
theorem Spilling.finish (h : Spilling snappy store m s) (hput : s.put = .indexed)
    (hm : store.memtable_.put key value ones = some m) (hspace : m.space > StorageOption.SSTABLE_SPACE) :
    store.put snappy key value ones = some s.finish.store := by
  cases h with
  | indexed _ hfile hstore =>
      simp only [KVStore_beta.put, hm, Option.bind_eq_bind, Option.bind_some, if_pos hspace, KVStore_beta.addTable,
        DiskStorage.add, LevelZero.add, hfile, State.finish, State.no, hstore]
      rfl
  | full h | appended h | written h | counted h => cases hput.symm.trans h

/-- `put` keeps the tables that are there. -/
theorem put_tables (h : store.put snappy key value ones = some store') :
    store.diskstorage_.level0_.ssts_ <+: store'.diskstorage_.level0_.ssts_ := by
  obtain ⟨m, -, h⟩ := Option.bind_eq_some_iff.mp h
  split at h
  · simp only [KVStore_beta.addTable, DiskStorage.add, LevelZero.add, Option.bind_eq_bind, Option.bind_eq_some_iff,
      Option.some.injEq] at h
    obtain ⟨_, ⟨_, ⟨_, ⟨file, -, rfl⟩, rfl⟩, rfl⟩, rfl⟩ := h
    exact List.prefix_append _ _
  · obtain rfl := Option.some.inj h
    exact List.prefix_rfl

/-- **What a search sees** of it, if the new table does not have the key. -/
theorem Spilling.views (h : Spilling snappy store m s)
    (hfresh : store.diskstorage_.no_ ∉ store.diskstorage_.level0_.ssts_)
    (hmiss : ∀ file dir, TableBuilder.create_sstable snappy m = some file →
      dir.sst store.diskstorage_.no_ = some file → Misses snappy dir key store.diskstorage_.no_) : Views snappy store key s := by
  have hold : ∀ no ∈ store.diskstorage_.level0_.ssts_, no ≠ store.diskstorage_.no_ := by
    rintro no hno rfl
    exact hfresh hno
  -- behind the tables of the store is the new one
  have hnew : ∀ {ssts : List UInt64}, ssts = store.diskstorage_.level0_.ssts_ ++ [store.diskstorage_.no_] →
      ∀ (n : Nat) no, store.diskstorage_.level0_.ssts_.length ≤ n → ssts[n]? = some no → no = store.diskstorage_.no_ := by
    rintro _ rfl n no hn hno
    rw [List.getElem?_append_right hn] at hno
    exact List.mem_singleton.mp (List.mem_of_getElem? hno)
  have hwritten : ∀ {file : Bytes}, TableBuilder.create_sstable snappy m = some file →
      s.ssts = store.diskstorage_.level0_.ssts_ ++ [store.diskstorage_.no_] →
      (s.store.dir.sst = fun no => if no = store.diskstorage_.no_ then some file else store.dir.sst no) →
      Views snappy store key s := by
    intro file hfile hssts hsst
    refine ⟨hssts ▸ List.prefix_append _ _, fun no hno => ?_, fun n no hn hno => Or.inr ?_⟩
    · rw [hsst]
      exact if_neg (hold no hno)
    · obtain rfl := hnew hssts n no hn hno
      refine hmiss file _ hfile ?_
      rw [hsst]
      exact if_pos rfl
  cases h with
  | full hput hstore =>
      have hssts : s.ssts = store.diskstorage_.level0_.ssts_ := by rw [State.ssts, hstore]; rfl
      refine ⟨hssts ▸ List.prefix_rfl, fun no _ => by rw [hstore]; rfl, fun n no hn hno => ?_⟩
      have hlt := (List.getElem?_eq_some_iff.mp hno).1
      rw [hssts] at hlt
      exact absurd hn (Nat.not_le.mpr hlt)
  | @appended sst hput hstore hsst =>
      have hssts : s.ssts = store.diskstorage_.level0_.ssts_ ++ [store.diskstorage_.no_] := by rw [State.ssts, hstore]; rfl
      refine ⟨hssts ▸ List.prefix_append _ _, fun no hno => ?_, fun n no hn hno => Or.inl ⟨hput, ?_⟩⟩
      · rw [hstore]
        exact hsst no (hold no hno)
      · rw [hnew hssts n no hn hno, State.no, hstore]
        rfl
  | written hput hfile hstore =>
      exact hwritten hfile (by rw [State.ssts, hstore]; rfl) (by rw [hstore]; rfl)
  | counted hput hfile hstore =>
      exact hwritten hfile (by rw [State.ssts, hstore]; rfl) (by rw [hstore]; rfl)
  | indexed hput hfile hstore =>
      exact hwritten hfile (by rw [State.ssts, hstore]; rfl) (by rw [hstore]; rfl)

theorem views_self (hstore : s.store = store) : Views snappy store key s where
  tables := by
    subst hstore
    exact List.prefix_rfl
  files no _ := by rw [hstore]
  more n no hn hno := by
    have hlt := (List.getElem?_eq_some_iff.mp hno).1
    rw [State.ssts, hstore] at hlt
    exact absurd hn (Nat.not_le.mpr hlt)

end Spilling

/-! ## Puts and deletions of other keys -/

/-- `c'` is `c` with other keys changed, or spilled. -/
structure Spares (key : Bytes) (c c' : Contents) : Prop where
  mem : c.mem.lookup key = none → c'.mem.lookup key = none
  ssts : ∀ (n : Nat) es, c'.ssts[n]? = some es → c.ssts[n]? = some es ∨ (c.mem.lookup key = none → es.lookup key = none)

section Contents

variable {c c' : Contents} {es : List (Bytes × Bytes)} {m : SkipList} {k v : Bytes}

theorem tableGet_of_file (hinv : snappy.Inverts) (h : TableFile snappy dir no es) (key : Bytes) :
    tableGet snappy dir key no = some (lookupResult (es.lookup key)) := by
  obtain ⟨hsorted, file, hno, htable⟩ := h
  obtain ⟨t, ht, hget⟩ := htable.get hinv hsorted
  simp [tableGet, hno, ht, hget]

theorem misses_iff (hinv : snappy.Inverts) (h : TableFile snappy dir no es) :
    Misses snappy dir key no ↔ es.lookup key = none := by
  unfold Misses
  rw [tableGet_of_file hinv h key]
  simp [lookupResult_fst]

/-- The new table does not have the key. -/
theorem misses_created (hinv : snappy.Inverts) (hm : m.Holds es) (hnone : es.lookup key = none) {file : Bytes}
    (hfile : TableBuilder.create_sstable snappy m = some file) (hno : dir.sst no = some file) : Misses snappy dir key no :=
  (misses_iff hinv ⟨hm.sorted, file, hno, TableBuilder.create_sstable_some hm hfile⟩).mpr hnone

theorem file_of_number (hr : Represents snappy store c) {n : Nat}
    (hno : store.diskstorage_.level0_.ssts_[n]? = some no) : ∃ es, c.ssts[n]? = some es ∧ TableFile snappy store.dir no es := by
  obtain ⟨hlen, hfiles⟩ := List.forall₂_iff_get.mp hr.disk.tables
  obtain ⟨hn, rfl⟩ := List.getElem?_eq_some_iff.mp hno
  exact ⟨_, List.getElem?_eq_getElem (hlen ▸ hn), hfiles n hn (hlen ▸ hn)⟩

theorem number_of_table (hr : Represents snappy store c) {n : Nat} (hes : c.ssts[n]? = some es) :
    ∃ no, store.diskstorage_.level0_.ssts_[n]? = some no ∧ TableFile snappy store.dir no es := by
  obtain ⟨hlen, hfiles⟩ := List.forall₂_iff_get.mp hr.disk.tables
  obtain ⟨hn, rfl⟩ := List.getElem?_eq_some_iff.mp hes
  exact ⟨_, List.getElem?_eq_getElem (hlen ▸ hn), hfiles n (hlen ▸ hn) hn⟩

/-- All tables can be read. -/
theorem tableGet_isSome (hr : Represents snappy store c) (hinv : snappy.Inverts)
    (hno : no ∈ store.diskstorage_.level0_.ssts_) : (tableGet snappy store.dir key no).isSome := by
  obtain ⟨n, hn⟩ := List.mem_iff_getElem?.mp hno
  obtain ⟨es, -, hfile⟩ := file_of_number hr hn
  rw [tableGet_of_file hinv hfile]
  rfl

theorem contains_eq_false (hr : Represents snappy store c) :
    store.memtable_.contains key = some false ↔ c.mem.lookup key = none := by
  rw [hr.memtable.contains key]
  simp

theorem spares_put (hk : key ≠ k) : Spares key c (c.put k v) := by
  by_cases hs : c.Spills k v
  · rw [Contents.put_of_spills hs]
    refine ⟨fun _ => rfl, fun n es hes => ?_⟩
    rcases Slots.get_snoc hes with hold | ⟨-, rfl⟩
    · exact Or.inl hold
    · exact Or.inr fun hnone => (SortedAssoc.lookup_put_ne hk _ _).trans hnone
  · rw [Contents.put_of_not_spills hs]
    exact ⟨fun hnone => (SortedAssoc.lookup_put_ne hk _ _).trans hnone, fun _ _ => Or.inl⟩

theorem spares_tombstone (hk : key ≠ k) : Spares key c { c with mem := SortedAssoc.put k [] c.mem } :=
  ⟨fun hnone => (SortedAssoc.lookup_put_ne hk _ _).trans hnone, fun _ _ => Or.inl⟩

theorem spares_erase (hk : key ≠ k) : Spares key c { c with mem := SortedAssoc.erase k c.mem } :=
  ⟨fun hnone => (SortedAssoc.lookup_erase_ne hk _).trans hnone, fun _ _ => Or.inl⟩

/-- **What a search has found** stays so when other keys are put or deleted. -/
theorem Sought.spares (h : Sought snappy store s key pc) (hinv : snappy.Inverts) (hr : Represents snappy store c)
    (hr' : Represents snappy store' c') (hspares : Spares key c c') : Sought snappy store' s key pc := by
  cases pc with
  | returned | failed => exact h
  | unlocked => exact (contains_eq_false hr').mpr (hspares.mem ((contains_eq_false hr).mp h))
  | loop i last buffer =>
      obtain ⟨hcontains, hbuffer, hmisses⟩ := h
      have hnone := (contains_eq_false hr).mp hcontains
      refine ⟨(contains_eq_false hr').mpr (hspares.mem hnone), hbuffer, fun n no hno hout => ?_⟩
      obtain ⟨es, hes, hfile⟩ := file_of_number hr' hno
      refine (misses_iff hinv hfile).mpr ?_
      rcases hspares.ssts n es hes with hold | hnew
      · obtain ⟨no', hno', hfile'⟩ := number_of_table hr hold
        exact (misses_iff hinv hfile').mp (hmisses n no' hno' hout)
      · exact hnew hnone

end Contents

end KVStoreReaders
end DDBMS
