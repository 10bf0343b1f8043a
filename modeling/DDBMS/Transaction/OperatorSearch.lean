import DDBMS.Transaction.OperatorStore

/-!
# `Transaction.OperatorSearch` — what a `get` reads

The search of a `get` overlaps the writes of other requests, and the spills that they make. They are at other keys, since the
request has its row locked (`Served.exclusive`), so the search finds what the store has for its key (`Searching`), and the store
follows the log (`follows_step`).
-/

namespace DDBMS
namespace BenchmarkService

open Restart (replay)
open KVStore (afterPutLog_calls afterDelLog_calls)
open KVStoreReaders (Sought Spilling Views spares_put spares_erase spares_tombstone)
open LogManager (logs_append logs_wake)
open Lock_manager (Access Operation)

/-- The `put` that is spilling is one whose record is logged, and every search stands where its key was not found. -/
structure Searching (snappy : Snappy) (w : World) : Prop where
  spill : ∀ s, w.disk.spill = some s → ∃ key value lsn m, w.kv.calls s.p = .putStore key value lsn ∧
    w.kv.store.memtable_.put key value s.ones = some m ∧ m.space > StorageOption.SSTABLE_SPACE ∧
    Spilling snappy w.kv.store m s.state
  searches : ∀ x ∈ w.requests, ∀ pc, x.phase = .getting pc → Sought snappy w.kv.store w.view x.key pc

/-- The store shows `m`, follows the log, and is searched. -/
structure Follows (snappy : Snappy) (w : World) (m : Bytes → Option Bytes) : Prop where
  told : Told snappy w.kv w.requests m
  searching : Searching snappy w

section Step

variable {snappy : Snappy} {nw : Bool} {used : Finset Nat} {w w' : World} {kv' : KVStore.World} {p q ones : Nat} {x y : Request}
  {e : Event} {m : Bytes → Option Bytes} {key : Bytes} {value : Option Bytes} {pc pc' : KVStoreReaders.Pc} {stale : UInt64}
  {disk : Disk} {c c' : Contents}

theorem view_congr (hstore : w'.kv.store = w.kv.store) (hdisk : w'.disk = w.disk) : w'.view = w.view := by
  unfold World.view
  rw [hstore, hdisk]

theorem view_of_none (hspill : w.disk.spill = none) :
    w.view = { KVStoreReaders.State.init w.kv.store w.disk.capacity with buffer := w.disk.buffer } := by
  unfold World.view
  rw [hspill]

theorem view_of_some {s : Spill} (hspill : w.disk.spill = some s) : w.view = s.state := by
  unfold World.view
  rw [hspill]

/-- Nothing moves in the store, and no search has come to something new. -/
theorem Searching.congr (h : Searching snappy w) (hstore : w'.kv.store = w.kv.store) (hdisk : w'.disk = w.disk)
    (hcalls : ∀ s, w.disk.spill = some s → w'.kv.calls s.p = w.kv.calls s.p)
    (hsearches : ∀ x ∈ w'.requests, ∀ pc, x.phase = .getting pc → x ∈ w.requests ∨ Sought snappy w.kv.store w.view x.key pc) :
    Searching snappy w' where
  spill s hs := by
    rw [hdisk] at hs
    rw [hstore, hcalls s hs]
    exact h.spill s hs
  searches x hx pc hphase := by
    rw [hstore, view_congr hstore hdisk]
    rcases hsearches x hx pc hphase with hold | hsought
    · exact h.searches x hold pc hphase
    · exact hsought

/-- The key of a search is not written meanwhile. -/
theorem key_ne_of_getting (hserved : Served used w.lock w.requests) (hy : w.requests[q]? = some y) (hstoring : y.phase = .storing)
    (hop : y.op_type ≠ .Get) (hx : x ∈ w.requests) (hphase : x.phase = .getting pc) : x.key ≠ y.key := by
  intro hkey
  obtain ⟨p, hp⟩ := List.mem_iff_getElem?.mp hx
  obtain rfl := hserved.exclusive hy hp (by rw [hstoring]; rfl) (by rw [hphase]; rfl) hkey.symm hop
  obtain rfl := Option.some.inj (hp.symm.trans hy)
  cases hphase.symm.trans hstoring

theorem Follows.key_ne (h : Follows snappy w m) (hserved : Served used w.lock w.requests)
    (hpending : pending? (w.kv.calls q) = some (key, value)) (hx : x ∈ w.requests) (hphase : x.phase = .getting pc) :
    x.key ≠ key := by
  have hbusy : w.kv.calls q ≠ .idle := by
    intro hidle
    rw [hidle] at hpending
    cases hpending
  obtain ⟨y, hy, hstoring, hserves⟩ := h.told.serves q hbusy
  obtain ⟨rfl, hop⟩ := hserves.of_pending hpending
  exact key_ne_of_getting hserved hy hstoring hop hx hphase

/-- A table that is being written does not have the key of a search. -/
theorem Follows.views (h : Follows snappy w m) (hinv : snappy.Inverts) (hserved : Served used w.lock w.requests)
    (hx : x ∈ w.requests) (hphase : x.phase = .getting pc) : Views snappy w.kv.store x.key w.view := by
  cases hspill : w.disk.spill with
  | none => exact KVStoreReaders.views_self (by rw [view_of_none hspill]; rfl)
  | some s =>
      rw [view_of_some hspill]
      obtain ⟨key, value, lsn, memtable, hcall, hput, -, hspilling⟩ := h.searching.spill s hspill
      obtain ⟨c, hr, -⟩ := h.told.shows
      obtain ⟨memtable', hput', hholds⟩ := hr.memtable.put key value s.ones
      obtain rfl := Option.some.inj (hput.symm.trans hput')
      refine hspilling.views (fun hmem => absurd (hr.disk.numbers _ hmem) (UInt64.lt_irrefl _)) fun file dir hfile hno => ?_
      refine KVStoreReaders.misses_created hinv hholds ?_ hfile hno
      have hne : x.key ≠ key := h.key_ne (q := s.p) hserved (by rw [hcall]; rfl) hx hphase
      rw [SortedAssoc.lookup_put_ne hne]
      exact (KVStoreReaders.contains_eq_false hr).mp (h.searching.searches x hx pc hphase).contains

/-- **A search** returns what the store has, or goes on. -/
theorem Follows.search (h : Follows snappy w m) (hinv : snappy.Inverts) (hserved : Served used w.lock w.requests)
    (hx : x ∈ w.requests) (hphase : x.phase = .getting pc) (hok : KVStoreReaders.SearchOk w.view pc)
    (hpc : KVStoreReaders.searchPc snappy w.view x.key stale pc = some pc') :
    (∃ result, pc' = .returned result ∧ w.kv.store.get snappy x.key = some result) ∨
      Sought snappy w.kv.store w.view x.key pc' := by
  obtain ⟨c, hr, -⟩ := h.told.shows
  exact (h.searching.searches x hx pc hphase).search (h.views hinv hserved hx hphase)
    (fun no hno => KVStoreReaders.tableGet_isSome hr hinv hno) hok hpc

/-- `get` has come to `pc`. -/
theorem Searching.sought (h : Searching snappy w)
    (hpc : (∃ result, pc = .returned result ∧ w.kv.store.get snappy x.key = some result) ∨
      Sought snappy w.kv.store w.view x.key pc) : Searching snappy (w.sought p x pc) := by
  refine h.congr (by rw [sought_kv]) (sought_disk w p x pc) (fun s _ => by rw [sought_kv]) fun y hy pc' hphase => ?_
  rw [sought_requests] at hy
  rcases List.mem_or_eq_of_mem_set hy with hy | rfl
  · exact Or.inl hy
  · rcases hpc with ⟨result, rfl, -⟩ | hsought
    · cases hphase
    · right
      cases pc with
      | returned | failed => exact hsought.elim
      | unlocked | loop =>
          obtain rfl := Phase.getting.inj hphase
          exact hsought

theorem Told.sought (h : Told snappy w.kv w.requests m) (hx : w.requests[p]? = some x) (hidle : w.kv.calls p = .idle) :
    Told snappy (w.sought p x pc).kv (w.sought p x pc).requests m := by
  rw [sought_kv, sought_requests]
  exact h.setPhase hx hidle

/-- What a `get` that has come to `pc` has read. -/
theorem Told.shows_sought (h : Told snappy w.kv w.requests m) (hinv : snappy.Inverts) (hx : w.requests[p]? = some x)
    (hphase : x.phase.holds = true) (hne : x.phase ≠ .storing)
    (hpc : (∃ result, pc = .returned result ∧ w.kv.store.get snappy x.key = some result) ∨
      Sought snappy w.kv.store w.view x.key pc) : Shows w (w.sought p x pc) m m := by
  rcases hpc with ⟨result, rfl, hget⟩ | hsought
  · refine .access (List.mem_of_getElem? hx) hphase (Or.inr ⟨_, rfl⟩) (fun _ => hne) rfl ?_
    obtain rfl := Option.some.inj ((h.get hinv x.key).symm.trans hget)
    simp [Access.apply, seen_lookupResult]
  · cases pc with
    | returned | failed => exact hsought.elim
    | unlocked | loop => exact .same rfl rfl

/-- **The store moves on** with other keys. -/
theorem Searching.stored (h : Searching snappy w) (hinv : snappy.Inverts) (hr : Represents snappy w.kv.store c)
    (hr' : Represents snappy kv'.store c') (hnone : disk.spill = none)
    (hspares : ∀ x ∈ w.requests, ∀ pc, x.phase = .getting pc → KVStoreReaders.Spares x.key c c')
    (hbuffer : disk.buffer = w.view.buffer)
    (hssts : w.view.ssts.length ≤ kv'.store.diskstorage_.level0_.ssts_.length) {accesses : List (Access Bytes (Option Bytes))} :
    Searching snappy ⟨w.lock, kv', disk, w.requests, accesses⟩ where
  spill s hs := by cases hnone.symm.trans hs
  searches x hx pc hphase := by
    refine ((h.searches x hx pc hphase).spares hinv hr hr' (hspares x hx pc hphase)).moves (Or.inr ?_)
    rw [view_of_none (w := ⟨w.lock, kv', disk, w.requests, accesses⟩) hnone]
    exact ⟨hbuffer, hssts⟩

theorem stored_cases (h : w.stored? p ones = some disk) : w.disk.spill = none ∧ disk = w.disk ∨
    ∃ s, w.disk.spill = some s ∧ s.p = p ∧ s.ones = ones ∧ s.state.put = .indexed ∧
      disk = { capacity := s.state.capacity, buffer := s.state.buffer } := by
  unfold World.stored? at h
  split at h
  · rename_i s hspill
    obtain ⟨⟨hp, hones, hput⟩, h⟩ := Option.ite_none_right_eq_some.mp h
    exact Or.inr ⟨s, hspill, hp, hones, hput, (Option.some.inj h).symm⟩
  · rename_i hspill
    obtain ⟨-, h⟩ := Option.ite_none_left_eq_some.mp h
    exact Or.inl ⟨hspill, (Option.some.inj h).symm⟩

/-- A `del` is not the one that spills. -/
theorem Searching.stored_of_del (h : Searching snappy w) {inMem : Bool} {lsn : Int}
    (hcall : w.kv.calls p = .delStore key inMem lsn) (hdisk : w.stored? p ones = some disk) : w.disk.spill = none ∧ disk = w.disk := by
  rcases stored_cases hdisk with hnone | ⟨s, hspill, rfl, -, -, -⟩
  · exact hnone
  · obtain ⟨key, value, lsn, m, hcall', -⟩ := h.spill s hspill
    cases hcall.symm.trans hcall'

/-- **The store** of a write, or of the last part of it. -/
theorem Follows.store (h : Follows snappy w m) (hinv : snappy.Inverts) (hserved : Served used w.lock w.requests)
    (hok : StoreOk snappy w (.store p ones)) (hpending : pending? (w.kv.calls p) = some (key, value))
    (hdisk : w.stored? p ones = some disk) (hkv : KVStore.next snappy w.kv (.store p ones) = some kv')
    {accesses : List (Access Bytes (Option Bytes))} : Searching snappy ⟨w.lock, kv', disk, w.requests, accesses⟩ := by
  obtain ⟨c, hr, -⟩ := h.told.shows
  have hne : ∀ x ∈ w.requests, ∀ pc, x.phase = .getting pc → x.key ≠ key := fun x hx pc => h.key_ne hserved hpending hx
  cases KVStore.next_cases hkv with
  | @storePut _ _ k v lsn memtable store hcall hmem hstore =>
      have hroom : c.Spills k v → c.ssts.length + 1 < 2 ^ 64 := fun hs => (hok.spills hinv hr hcall hs).2
      rw [hcall] at hpending
      obtain ⟨rfl, -⟩ := Prod.mk.inj (Option.some.inj hpending)
      have hr' := hr.put hroom hstore
      rcases stored_cases hdisk with ⟨hspill, rfl⟩ | ⟨s, hspill, rfl, rfl, hput, rfl⟩
      · refine h.searching.stored hinv hr (by rw [KVStore.noteSpill_store]; exact hr') hspill
          (fun x hx pc hphase => spares_put (hne x hx pc hphase)) (by rw [view_of_none hspill]) ?_
        rw [KVStore.noteSpill_store, view_of_none hspill]
        exact (KVStoreReaders.put_tables hstore).length_le
      · -- the steps of the `put` have come to the store that it makes
        obtain ⟨key, value, lsn', m, hcall', hm, hspace, hspilling⟩ := h.searching.spill s hspill
        obtain ⟨rfl, rfl, -⟩ := KVStore.Call.putStore.inj (hcall.symm.trans hcall')
        obtain rfl := Option.some.inj ((hspilling.finish hput hm hspace).symm.trans hstore)
        refine h.searching.stored hinv hr (by rw [KVStore.noteSpill_store]; exact hr') rfl
          (fun x hx pc hphase => spares_put (hne x hx pc hphase)) (by rw [view_of_some hspill]) ?_
        rw [KVStore.noteSpill_store, view_of_some hspill]
        exact Nat.le_refl _
  | @storeDelMem _ _ k lsn memtable b hcall hmem =>
      obtain ⟨memtable', hmem', hholds⟩ := hr.memtable.del k
      obtain ⟨rfl, -⟩ := Prod.mk.inj (Option.some.inj (hmem.symm.trans hmem'))
      obtain ⟨hspill, rfl⟩ := h.searching.stored_of_del hcall hdisk
      rw [hcall] at hpending
      obtain ⟨rfl, -⟩ := Prod.mk.inj (Option.some.inj hpending)
      have hr' : Represents snappy { w.kv.store with memtable_ := memtable } { c with mem := SortedAssoc.erase k c.mem } :=
        ⟨hholds, hr.disk⟩
      refine h.searching.stored hinv hr hr' hspill (fun x hx pc hphase => spares_erase (hne x hx pc hphase))
        (by rw [view_of_none hspill]) ?_
      rw [view_of_none hspill]
      exact Nat.le_refl _
  | @storeDelDisk _ _ k lsn memtable hcall hmem =>
      obtain ⟨memtable', hmem', hholds⟩ := hr.memtable.put k [] ones
      obtain rfl := Option.some.inj (hmem.symm.trans hmem')
      obtain ⟨hspill, rfl⟩ := h.searching.stored_of_del hcall hdisk
      rw [hcall] at hpending
      obtain ⟨rfl, -⟩ := Prod.mk.inj (Option.some.inj hpending)
      have hr' : Represents snappy { w.kv.store with memtable_ := memtable } { c with mem := SortedAssoc.put k [] c.mem } :=
        ⟨hholds, hr.disk⟩
      refine h.searching.stored hinv hr hr' hspill (fun x hx pc hphase => spares_tombstone (hne x hx pc hphase))
        (by rw [view_of_none hspill]) ?_
      rw [view_of_none hspill]
      exact Nat.le_refl _

/-- A thread that has nothing to store goes on in the log. -/
theorem Searching.quiet (h : Searching snappy w) {lock : Lock_manager.World} {requests : List Request}
    {accesses : List (Access Bytes (Option Bytes))} (hstore : kv'.store = w.kv.store)
    (hcalls : ∀ q, q ≠ p → kv'.calls q = w.kv.calls q) (hnot : pending? (w.kv.calls p) = none)
    (hrequests : ∀ x ∈ requests, ∀ pc, x.phase = .getting pc → x ∈ w.requests) :
    Searching snappy ⟨lock, kv', w.disk, requests, accesses⟩ := by
  refine h.congr hstore rfl (fun s hs => hcalls s.p ?_) fun x hx pc hphase => Or.inl (hrequests x hx pc hphase)
  rintro rfl
  obtain ⟨key, value, lsn, m, hcall, -⟩ := h.spill s hs
  rw [hcall] at hnot
  cases hnot

/-- A request goes on, and not to a search. -/
theorem mem_of_getting {phase : Phase} (hphase : ∀ pc, phase ≠ .getting pc) (hy : y ∈ w.requests.set p { x with phase := phase })
    (hgetting : y.phase = .getting pc) : y ∈ w.requests := by
  rcases List.mem_or_eq_of_mem_set hy with hy | rfl
  · exact hy
  · exact absurd hgetting (hphase pc)

/-! ## A step -/

/-- **Step lemma** of the searches. -/
theorem searching_step (hinv : snappy.Inverts) (hserved : Served used w.lock w.requests) (hfollows : Follows snappy w m)
    (hok : StoreOk snappy w e) (hst : next snappy nw w e = some w') : Searching snappy w' := by
  have h := hfollows.searching
  cases next_cases hst with
  | SendOperator hrow hlock =>
      refine h.congr rfl rfl (fun _ _ => rfl) fun x hx pc hphase => ?_
      rcases List.mem_append.mp hx with hx | hx
      · exact Or.inl hx
      · rw [List.mem_singleton.mp hx] at hphase
        cases hphase
  | lock hlock => exact h.congr rfl rfl (fun _ _ => rfl) fun x hx _ _ => Or.inl hx
  | granted | refused | finish =>
      exact h.congr rfl rfl (fun _ _ => rfl) fun y hy pc hphase => Or.inl (mem_of_getting (fun _ => Phase.noConfusion) hy hphase)
  | @get p stale x pc hx hphase hmutex hspill hpc => exact h.sought (KVStoreReaders.look_outcome w.view hpc)
  | @search p stale x pc pc' hx hphase hpc =>
      exact h.sought (hfollows.search hinv hserved (List.mem_of_getElem? hx) hphase (hok x hx pc hphase) hpc)
  | @put p stale x kv hx hphase hop hkv =>
      have hidle := hfollows.told.idle hx (by rw [hphase]; exact Phase.noConfusion)
      cases KVStore.next_cases hkv with
      | @put _ _ _ _ _ log hlog =>
          refine h.quiet (p := p) (KVStore.afterPutLog_store ..) (fun q hq => ?_) (by rw [hidle]; rfl)
            fun y hy pc => mem_of_getting (fun _ => Phase.noConfusion) hy
          rw [afterPutLog_calls, if_neg hq]
  | @del p stale x kv hx hphase hop hspill hkv | @absent p stale x kv hx hphase hop hspill hkv =>
      have hidle := hfollows.told.idle hx (by rw [hphase]; exact Phase.noConfusion)
      cases KVStore.next_cases hkv with
      | absent =>
          exact h.quiet (p := p) rfl (fun _ _ => rfl) (by rw [hidle]; rfl)
            fun y hy pc => mem_of_getting (fun _ => Phase.noConfusion) hy
      | del hfound hlog =>
          refine h.quiet (p := p) (KVStore.afterDelLog_store ..) (fun q hq => ?_) (by rw [hidle]; rfl)
            fun y hy pc => mem_of_getting (fun _ => Phase.noConfusion) hy
          rw [afterDelLog_calls, if_neg hq]
  | @log e kv hkv =>
      cases KVStore.next_cases hkv with
      | log hidle hlog => exact h.congr rfl rfl (fun _ _ => rfl) fun x hx _ _ => Or.inl hx
  | @wake p kv hkv =>
      cases KVStore.next_cases hkv with
      | wakePut hcall hlog =>
          refine h.quiet (p := p) (KVStore.afterPutLog_store ..) (fun q hq => ?_) (by rw [hcall]; rfl) fun y hy _ _ => hy
          rw [afterPutLog_calls, if_neg hq]
      | wakeDel hcall hlog =>
          refine h.quiet (p := p) (KVStore.afterDelLog_store ..) (fun q hq => ?_) (by rw [hcall]; rfl) fun y hy _ _ => hy
          rw [afterDelLog_calls, if_neg hq]
  | @spill p ones key value lsn state hcall hmutex hspill hstate hfull =>
      have hstore : w.view.store = w.kv.store := by rw [view_of_none hspill]; rfl
      obtain ⟨m, hm, hspace, hspilling⟩ := KVStoreReaders.spilling_put hstate hfull
      rw [hstore] at hm hspilling
      refine ⟨fun s hs => ?_, fun x hx pc hphase => ?_⟩
      · obtain rfl := Option.some.inj hs
        exact ⟨key, value, lsn, m, hcall, hm, hspace, hspilling⟩
      · exact (h.searches x hx pc hphase).moves (KVStoreReaders.moves_step hstate)
  | @add e s state he hspill hstate =>
      refine ⟨fun s' hs => ?_, fun x hx pc hphase => ?_⟩
      · obtain rfl := Option.some.inj hs
        obtain ⟨key, value, lsn, m, hcall, hm, hspace, hspilling⟩ := h.spill s hspill
        exact ⟨key, value, lsn, m, hcall, hm, hspace, hspilling.step he hstate⟩
      · have hsought := h.searches x hx pc hphase
        rw [view_of_some hspill] at hsought
        exact hsought.moves (KVStoreReaders.moves_step hstate)
  | @store p ones x key value kv disk hx hpending hdisk hkv => exact hfollows.store hinv hserved hok hpending hdisk hkv

/-- **Step lemma** of what the store shows. -/
theorem told_step (hinv : snappy.Inverts) (hserved : Served used w.lock w.requests) (hfollows : Follows snappy w m)
    (hok : StoreOk snappy w e) (hst : next snappy nw w e = some w') :
    ∃ m', Told snappy w'.kv w'.requests m' ∧ Shows w w' m m' := by
  have h := hfollows.told
  cases next_cases hst with
  | SendOperator hrow hlock =>
      refine ⟨m, h.congr fun q y hy _ _ => ?_, .same rfl rfl⟩
      rw [List.getElem?_append_left (List.getElem?_eq_some_iff.mp hy).1]
      exact hy
  | lock hlock => exact ⟨m, h, .same rfl rfl⟩
  | granted hx hphase | refused hx hphase =>
      exact ⟨m, h.setPhase hx (h.idle hx (by rw [hphase]; exact fun h => by cases h)), .same rfl rfl⟩
  | @get p stale x pc hx hphase hmutex hspill hpc =>
      have hidle := h.idle hx (by rw [hphase]; exact fun h => by cases h)
      exact ⟨m, h.sought hx hidle, h.shows_sought hinv hx (by rw [hphase]; rfl) (by rw [hphase]; exact Phase.noConfusion)
        (KVStoreReaders.look_outcome w.view hpc)⟩
  | @search p stale x pc pc' hx hphase hpc =>
      have hidle := h.idle hx (by rw [hphase]; exact fun h => by cases h)
      have hmem := List.mem_of_getElem? hx
      exact ⟨m, h.sought hx hidle, h.shows_sought hinv hx (by rw [hphase]; rfl) (by rw [hphase]; exact Phase.noConfusion)
        (hfollows.search hinv hserved hmem hphase (hok x hx pc hphase) hpc)⟩
  | @put p stale x kv hx hphase hop hkv =>
      have hidle := h.idle hx (by rw [hphase]; decide)
      have hlen : 32 + x.key.length + x.value.length < 2 ^ 31 := hok x hx
      cases KVStore.next_cases hkv with
      | @put _ _ _ _ _ log hlog =>
          obtain ⟨hlogs, hsame⟩ := logs_append hlog
          exact ⟨m, h.afterPutLog hserved hx (by rw [hphase]; rfl) hop (by rw [hidle]; rfl) (writes_putRecord hlen) hlogs hsame,
            .same rfl rfl⟩
  | @del p stale x kv hx hphase hop hspill hkv hbusy =>
      have hidle := h.idle hx (by rw [hphase]; decide)
      have hlen : 32 + x.key.length + x.value.length < 2 ^ 31 := hok x hx
      cases KVStore.next_cases hkv with
      | absent => exact absurd hidle hbusy
      | del hfound hlog =>
          obtain ⟨hlogs, hsame⟩ := logs_append hlog
          exact ⟨m, h.afterDelLog hserved hx (by rw [hphase]; rfl) hop (by rw [hidle]; rfl) (writes_delRecord (by omega)) hlogs
            hsame, .same rfl rfl⟩
  | @absent p stale x kv hx hphase hop hspill hkv hidle' =>
      have hidle := h.idle hx (by rw [hphase]; decide)
      have hmem := List.mem_of_getElem? hx
      obtain ⟨c, hc, hm⟩ := h.shows
      unfold KVStore.next at hkv
      dsimp only at hkv
      split at hkv
      · rw [hc.finds.found hinv] at hkv
        cases hfound : c.found x.key with
        | none =>
            rw [hfound] at hkv
            obtain rfl := Option.some.inj hkv
            refine ⟨m, h.setPhase hx hidle, .access hmem (by rw [hphase]; rfl) (Or.inl (by rw [hop]; decide))
              (fun _ => by rw [hphase]; exact Phase.noConfusion) rfl ?_⟩
            -- `del` has found nothing
            have hnone : m x.key = none := by
              rw [← hm x.key, Contents.value]
              unfold Contents.found at hfound
              cases hl : c.mem.lookup x.key with
              | some v =>
                  rw [hl] at hfound
                  cases hfound
              | none =>
                  rw [hl] at hfound
                  exact Option.map_eq_none_iff.mp hfound
            simp [Access.apply, hnone]
        | some found =>
            rw [hfound] at hkv
            obtain ⟨log, -, rfl⟩ := Option.map_eq_some_iff.mp hkv
            rw [afterDelLog_calls, if_pos rfl] at hidle'
            split at hidle' <;> cases hidle'
      · cases hkv
  | @log e kv hkv =>
      cases KVStore.next_cases hkv with
      | log hidle hlog =>
          refine ⟨m, h.log_silent ?_ hidle hlog, .same rfl rfl⟩
          rintro t r rfl
          exact hok
  | @wake p kv hkv =>
      have hback := h.backed p
      cases KVStore.next_cases hkv with
      | @wakePut _ t key value add_writeset log hcall hlog =>
          obtain ⟨x, hx, hphase, hserves⟩ := h.serves p (by rw [hcall]; exact fun h => by cases h)
          rw [hcall] at hserves hback
          obtain ⟨hop, rfl, rfl⟩ := hserves
          obtain ⟨r, hwaiting, hr⟩ := hback
          obtain ⟨hlogs, hsame⟩ := logs_wake hlog hwaiting
          have hset : Told snappy (w.kv.afterPutLog p t x.key x.value add_writeset log)
              (w.requests.set p { x with phase := .storing }) m :=
            h.afterPutLog hserved hx (by rw [hphase]; rfl) hop (by rw [hcall]; rfl) hr hlogs hsame
          rw [← hphase, Slots.set_self hx] at hset
          exact ⟨m, hset, .same rfl rfl⟩
      | @wakeDel _ t key value inMem add_writeset log hcall hlog =>
          obtain ⟨x, hx, hphase, hserves⟩ := h.serves p (by rw [hcall]; exact fun h => by cases h)
          rw [hcall] at hserves hback
          obtain ⟨hop, rfl⟩ := hserves
          obtain ⟨r, hwaiting, hr⟩ := hback
          obtain ⟨hlogs, hsame⟩ := logs_wake hlog hwaiting
          have hset : Told snappy (w.kv.afterDelLog p t x.key value inMem add_writeset log)
              (w.requests.set p { x with phase := .storing }) m :=
            h.afterDelLog hserved hx (by rw [hphase]; rfl) hop (by rw [hcall]; rfl) hr hlogs hsame
          rw [← hphase, Slots.set_self hx] at hset
          exact ⟨m, hset, .same rfl rfl⟩
  | spill | add => exact ⟨m, h, .same rfl rfl⟩
  | @store p ones x key value kv disk hx hpending hdisk hkv =>
      have hbusy : w.kv.calls p ≠ .idle := by
        intro hidle
        rw [hidle] at hpending
        cases hpending
      obtain ⟨y, hy, hphase, hserves⟩ := h.serves p hbusy
      obtain rfl := Option.some.inj (hx.symm.trans hy)
      obtain ⟨rfl, hop⟩ := hserves.of_pending hpending
      have hstored := h.store hinv hok hpending hkv
      have hwrites : (∃ v, Operation.write (visible value) = Operation.read v) → x.phase ≠ .storing := by
        rintro ⟨v, hread⟩
        cases hread
      exact ⟨_, hstored, .access (List.mem_of_getElem? hx) (by rw [hphase]; rfl) (Or.inl hop) hwrites rfl rfl⟩
  | @finish p x hx hphase hidle => exact ⟨m, h.setPhase hx hidle, .same rfl rfl⟩

/-- **Step lemma.** -/
theorem follows_step (hinv : snappy.Inverts) (hserved : Served used w.lock w.requests) (h : Follows snappy w m)
    (hok : StoreOk snappy w e) (hst : next snappy nw w e = some w') : ∃ m', Follows snappy w' m' ∧ Shows w w' m m' := by
  obtain ⟨m', htold, hshows⟩ := told_step hinv hserved h hok hst
  exact ⟨m', ⟨htold, searching_step hinv hserved h hok hst⟩, hshows⟩

end Step

/-! ## Calls without another in between -/

section Calls

variable {snappy : Snappy} {nw : Bool} {w : World} {kv kv' : KVStore.World} {p ones : Nat} {x : Request} {key : Bytes}
  {value : Option Bytes} {disk : Disk}

theorem next_store (hx : w.requests[p]? = some x) (hpending : pending? (w.kv.calls p) = some (key, value))
    (hdisk : w.stored? p ones = some disk) (hkv : KVStore.next snappy w.kv (.store p ones) = some kv) :
    next snappy nw w (.store p ones) = some (({ w with kv := kv, disk := disk } : World).access x (.write (visible value))) := by
  simp [next, hx, hpending, hdisk, hkv]

theorem next_add {e : KVStoreReaders.Event} {s : Spill} {state : KVStoreReaders.State} (he : e.adds = true)
    (hspill : w.disk.spill = some s) (hstate : KVStoreReaders.step snappy s.state e = some state) :
    next snappy nw w (.add e) = some { w with disk := { w.disk with spill := some { s with state := state } } } := by
  simp [next, he, hspill, hstate]

/-- A `put` that spills has written a table. -/
theorem created_of_put {store store' : KVStore_beta} {k v : Bytes} {m : SkipList} (h : store.put snappy k v ones = some store')
    (hm : store.memtable_.put k v ones = some m) (hspace : m.space > StorageOption.SSTABLE_SPACE) :
    ∃ file, TableBuilder.create_sstable snappy m = some file := by
  simp only [KVStore_beta.put, hm, Option.bind_eq_bind, Option.bind_some, if_pos hspace, KVStore_beta.addTable, DiskStorage.add,
    LevelZero.add, Option.bind_eq_some_iff] at h
  obtain ⟨_, ⟨_, ⟨_, ⟨file, hfile, -⟩, -⟩, -⟩, -⟩ := h
  exact ⟨file, hfile⟩

/-- **The store of a write** is its steps. -/
theorem store_run (hx : w.requests[p]? = some x) (hpending : pending? (w.kv.calls p) = some (key, value))
    (hmutex : w.kv.mutex_ = none) (hspill : w.disk.spill = none) (hkv : KVStore.next snappy w.kv (.store p ones) = some kv) :
    ∃ es disk, Run (FunStep (next snappy nw)) w es
      (({ w with kv := kv, disk := disk } : World).access x (.write (visible value))) ∧ disk.spill = none := by
  cases hspills : w.spills p ones with
  | false =>
      have hdisk : w.stored? p ones = some w.disk := by simp [World.stored?, hspill, hspills]
      exact ⟨_, w.disk, Run.single (next_store hx hpending hdisk hkv), hspill⟩
  | true =>
      cases KVStore.next_cases hkv with
      | storeDelMem hcall | storeDelDisk hcall => simp [World.spills, hcall] at hspills
      | @storePut _ _ k v lsn m store hcall hm hstore =>
          have hspace : m.space > StorageOption.SSTABLE_SPACE := by simpa [World.spills, hcall, hm] using hspills
          obtain ⟨file, hfile⟩ := created_of_put hstore hm hspace
          have hidle : w.view.put = .idle := by rw [view_of_none hspill]; rfl
          have hview : w.view.store = w.kv.store := by rw [view_of_none hspill]; rfl
          let full : KVStoreReaders.State := { w.view with store := { w.view.store with memtable_ := m }, put := .full }
          have hput : KVStoreReaders.step snappy w.view (.put k v ones) = some full :=
            KVStoreReaders.step_put hidle (by rw [hview]; exact hm) hspace
          have hfull : next snappy nw w (.spill p ones) =
              some { w with disk := { w.disk with spill := some ⟨p, ones, full⟩ } } := by
            simp only [next, hcall, hmutex, hspill, and_self, if_true, hput, Option.bind_eq_bind, Option.bind_some]
            rfl
          obtain ⟨capacity, buffer, happend, -, -⟩ :=
            KVStoreReaders.step_append snappy (s := full) rfl (Nat.lt_succ_self full.ssts.length)
          exact ⟨_, _, Run.cons hfull (Run.cons (next_add rfl rfl happend)
            (Run.cons (next_add rfl rfl (KVStoreReaders.step_write rfl hfile))
              (Run.cons (next_add rfl rfl (KVStoreReaders.step_count rfl))
                (Run.cons (next_add rfl rfl (KVStoreReaders.step_index rfl))
                  (Run.single (next_store hx hpending (if_pos ⟨rfl, rfl, rfl⟩) hkv)))))), rfl⟩

theorem next_get {stale : Nat → UInt8} {pc : KVStoreReaders.Pc} (hx : w.requests[p]? = some x) (hphase : x.phase = .locked)
    (hop : x.op_type = .Get) (hmutex : w.kv.mutex_ = none) (hspill : w.disk.spill = none)
    (hpc : KVStoreReaders.lookPc w.kv.store x.key = some pc) : next snappy nw w (.operate p stale) = some (w.sought p x pc) := by
  simp [next, operate, hx, hphase, hop, hmutex, hspill, hpc]

theorem next_search {stale : UInt64} {pc pc' : KVStoreReaders.Pc} (hx : w.requests[p]? = some x) (hphase : x.phase = .getting pc)
    (hpc : KVStoreReaders.searchPc snappy w.view x.key stale pc = some pc') :
    next snappy nw w (.search p stale) = some (w.sought p x pc') := by
  simp [next, hx, hphase, hpc]

/-- A request whose `get` has come to `pc` goes on from there. -/
theorem sought_sought (pc pc' : KVStoreReaders.Pc) (hpc : ∀ result, pc ≠ .returned result) :
    (w.sought p x pc).sought p { x with phase := .ofPc pc } pc' = w.sought p x pc' := by
  have hrequests : (w.requests.set p { x with phase := .ofPc pc }).set p { x with phase := .ofPc pc' } =
      w.requests.set p { x with phase := .ofPc pc' } := List.set_set ..
  cases pc with
  | returned result => exact absurd rfl (hpc result)
  | unlocked | loop | failed =>
      cases pc' <;> exact congrArg (fun requests => ({ w with requests := requests, accesses := _ } : World)) hrequests

/-- **The search** is its visits. -/
theorem search_run {i : Nat} {rest : List UInt64} {result : Bool × Bytes} (hx : w.requests[p]? = some x)
    (hrest : w.view.ssts.drop i = rest) (hsearch : LevelZero.searchLoop snappy w.view.store.dir x.key rest = some result) :
    ∃ es, Run (FunStep (next snappy nw)) (w.sought p x (.loop i w.view.ssts.length w.view.buffer)) es
      (w.sought p x (.returned (KVStoreReaders.finalResult result))) := by
  have hat : ∀ i, (w.sought p x (.loop i w.view.ssts.length w.view.buffer)).requests[p]? =
      some { x with phase := .getting (.loop i w.view.ssts.length w.view.buffer) } := fun i => Slots.get_set_self hx
  have hview : ∀ i, (w.sought p x (.loop i w.view.ssts.length w.view.buffer)).view = w.view := fun i => view_congr rfl rfl
  -- a step from entry `i`
  have hstep : ∀ {i pc'}, KVStoreReaders.searchPc snappy w.view x.key 0 (.loop i w.view.ssts.length w.view.buffer) = some pc' →
      next snappy nw (w.sought p x (.loop i w.view.ssts.length w.view.buffer)) (.search p 0) = some (w.sought p x pc') := by
    intro i pc' hpc
    rw [← sought_sought (.loop i w.view.ssts.length w.view.buffer) pc' fun _ => KVStoreReaders.Pc.noConfusion]
    exact next_search (hat i) rfl (by rw [hview]; exact hpc)
  induction rest generalizing i with
  | nil =>
      obtain rfl := Option.some.inj hsearch
      have hi : ¬ i < w.view.ssts.length := Nat.not_lt.mpr (List.drop_eq_nil_iff.mp hrest)
      exact ⟨_, Run.single (hstep (if_neg hi))⟩
  | cons no rest ih =>
      have hno : w.view.ssts[i]? = some no := by
        rw [← List.head?_drop, hrest]
        rfl
      have hi : i < w.view.ssts.length := (List.getElem?_eq_some_iff.mp hno).1
      have hentry : w.view.entry i w.view.buffer 0 = no := by
        rw [KVStoreReaders.State.entry, if_pos rfl, List.getD_eq_getElem?_getD, hno, Option.getD_some]
      rw [KVStoreReaders.searchLoop_cons] at hsearch
      obtain ⟨found, hfound, hsearch⟩ := Option.bind_eq_some_iff.mp hsearch
      have hvisit := hstep (if_pos hi)
      rw [hentry, KVStoreReaders.visitPc_eq, hfound] at hvisit
      dsimp only at hvisit
      split at hsearch
      · rename_i hhit
        obtain rfl := Option.some.inj hsearch
        rw [if_pos hhit] at hvisit
        exact ⟨_, Run.single hvisit⟩
      · rename_i hmiss
        rw [if_neg hmiss] at hvisit
        have hdrop : w.view.ssts.drop (i + 1) = rest := by
          rw [← List.tail_drop, hrest]
          rfl
        obtain ⟨es, hrun⟩ := ih hdrop hsearch
        exact ⟨_, Run.cons hvisit hrun⟩

/-- **`get`** is its steps. -/
theorem get_run {result : Bool × Bytes} (hx : w.requests[p]? = some x) (hphase : x.phase = .locked) (hop : x.op_type = .Get)
    (hmutex : w.kv.mutex_ = none) (hspill : w.disk.spill = none) (hget : w.kv.store.get snappy x.key = some result) :
    ∃ es, Run (FunStep (next snappy nw)) w es ((w.setPhase p x (.returned true)).access x (.read (seen result))) := by
  have hview : w.view.store = w.kv.store := by rw [view_of_none hspill]; rfl
  rw [KVStoreReaders.get_eq] at hget
  obtain ⟨contained, hcontains, hget⟩ := Option.bind_eq_some_iff.mp hget
  obtain ⟨found, hfound, rfl⟩ := Option.map_eq_some_iff.mp hget
  cases contained with
  | true =>
      have hfound : w.kv.store.memtable_.get x.key = some found := hfound
      have hlook : KVStoreReaders.lookPc w.kv.store x.key = some (.returned (KVStoreReaders.finalResult found)) := by
        simp [KVStoreReaders.lookPc, hcontains, hfound]
      exact ⟨[.operate p fun _ => 0], Run.single (next_get hx hphase hop hmutex hspill hlook)⟩
  | false =>
      have hlook : KVStoreReaders.lookPc w.kv.store x.key = some .unlocked := by simp [KVStoreReaders.lookPc, hcontains]
      have hfound : LevelZero.searchLoop snappy w.view.store.dir x.key w.view.ssts = some found := by
        rw [KVStoreReaders.State.ssts, hview]
        exact hfound
      obtain ⟨es, hrun⟩ : ∃ es, Run (FunStep (next snappy nw)) (w.sought p x (.loop 0 w.view.ssts.length w.view.buffer)) es
          (w.sought p x (.returned (KVStoreReaders.finalResult found))) := search_run hx rfl hfound
      have hat : (w.sought p x .unlocked).requests[p]? = some { x with phase := .getting .unlocked } := Slots.get_set_self hx
      have hbegin : next snappy nw (w.sought p x .unlocked) (.search p 0) =
          some (w.sought p x (.loop 0 w.view.ssts.length w.view.buffer)) := by
        rw [← sought_sought .unlocked (.loop 0 w.view.ssts.length w.view.buffer) fun _ => KVStoreReaders.Pc.noConfusion]
        have hview' : (w.sought p x .unlocked).view = w.view := view_congr rfl rfl
        exact next_search hat rfl (by rw [hview']; rfl)
      exact ⟨.operate p (fun _ => 0) :: _, Run.cons (next_get hx hphase hop hmutex hspill hlook) (Run.cons hbegin hrun)⟩

end Calls

end BenchmarkService
end DDBMS
