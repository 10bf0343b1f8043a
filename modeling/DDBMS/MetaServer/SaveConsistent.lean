import DDBMS.MetaServer.SaveMeta

/-!
# `MetaServer.SaveConsistent` — when saved catalogs are consistent

While the saver is at work, some requests come too late for it: they insert their table behind the saver, and what they write
is not in the file. All others write in front of it. What the saver reads is then the catalog without the late requests
(`Saving`), however many steps of the requests come between two of its own. `Apart` says where the saver may stand for that.

* `saved_consistent`: in a run whose steps meet `Apart` every file is consistent;
* `half_built`: in other runs a file may have a table that is half built.
-/

namespace DDBMS
namespace SaveMeta

open MetaServer

variable {s s' : State} {i j : Nat} {call call' : Call}

/-! ## Catalogs that are alike -/

/-- The same names of databases, the same databases where `P`, and the same nodes if `N`. -/
structure Alike (P : Bytes → Prop) (N : Prop) (m m' : MetaServer) : Prop where
  keys : m.db_map_.keys = m'.db_map_.keys
  dbs : ∀ db_name, P db_name → m.db_map_.find? db_name = m'.db_map_.find? db_name
  nodes : N → m.ip_node_map_ = m'.ip_node_map_

section Alike

variable {P Q : Bytes → Prop} {N N' : Prop} {m m' m'' : MetaServer} {w : Write} {db_name tab_name : Bytes}

theorem Alike.refl (m : MetaServer) : Alike P N m m := ⟨rfl, fun _ _ => rfl, fun _ => rfl⟩

theorem Alike.trans (h : Alike P N m m') (h' : Alike P N m' m'') : Alike P N m m'' :=
  ⟨h.keys.trans h'.keys, fun d hd => (h.dbs d hd).trans (h'.dbs d hd), fun hn => (h.nodes hn).trans (h'.nodes hn)⟩

theorem Alike.mono (h : Alike P N m m') (hP : ∀ d, Q d → P d) (hN : N' → N) : Alike Q N' m m' :=
  ⟨h.keys, fun d hd => h.dbs d (hP d hd), fun hn => h.nodes (hN hn)⟩

/-- A write where the catalogs need not be the same. -/
theorem Alike.apply_left (h : Alike P N m m') (hdb : ¬ P db_name)
    (hnodes : N → (w.apply db_name tab_name m).ip_node_map_ = m.ip_node_map_) :
    Alike P N (w.apply db_name tab_name m) m' := by
  refine ⟨w.keys.trans h.keys, fun d hd => ?_, fun hn => (hnodes hn).trans (h.nodes hn)⟩
  have hne : d ≠ db_name := fun heq => hdb (heq ▸ hd)
  exact (w.find?_ne hne).trans (h.dbs d hd)

theorem Alike.apply_both (h : Alike P N m m') (hdb : P db_name) :
    Alike P N (w.apply db_name tab_name m) (w.apply db_name tab_name m') := by
  refine ⟨(w.keys.trans h.keys).trans w.keys.symm, fun d hd => ?_, fun hn => w.nodes_congr (h.nodes hn)⟩
  by_cases heq : d = db_name
  · subst heq
    exact w.find?_congr (h.dbs d hd)
  · exact ((w.find?_ne heq).trans (h.dbs d hd)).trans (w.find?_ne heq).symm

theorem Alike.of_apply (h : Alike P N (w.apply db_name tab_name m) m') (hdb : ¬ P db_name) (hN : ¬ N) : Alike P N m m' := by
  refine ⟨w.keys.symm.trans h.keys, fun d hd => ?_, fun hn => absurd hn hN⟩
  have hne : d ≠ db_name := fun heq => hdb (heq ▸ hd)
  exact (w.find?_ne hne).symm.trans (h.dbs d hd)

end Alike

/-! ## The phases -/

/-- The database has been written. -/
def Phase.Read (phase : Phase) (db_name : Bytes) : Prop := ¬ phase.Unreached db_name ∧ ¬ phase.Reading db_name

def Phase.InNodes : Phase → Prop
  | .nodeLoop _ => True
  | .start | .dbLoop _ | .tabLoop _ _ _ => False

/-- No database comes twice. -/
def Phase.Nodup : Phase → Prop
  | .dbLoop dbs => dbs.Nodup
  | .tabLoop db_name _ dbs => (db_name :: dbs).Nodup
  | .start | .nodeLoop _ => True

section Phases

variable {phase : Phase} {m m' : MetaServer} {db_name : Bytes}

/-- From one point of the loops to the next. -/
inductive Phase.Next (m : MetaServer) : Phase → Phase → Prop where
  | start : Next m .start (.dbLoop m.db_map_.keys)
  /-- the database is not there -/
  | skip {d : Bytes} {rest : List Bytes} : Next m (.dbLoop (d :: rest)) (.dbLoop rest)
  | db {d : Bytes} {tabs rest : List Bytes} : Next m (.dbLoop (d :: rest)) (.tabLoop d tabs rest)
  | dbs : Next m (.dbLoop []) (.nodeLoop m.ip_node_map_.keys)
  | tab {d t : Bytes} {rest dbs : List Bytes} : Next m (.tabLoop d (t :: rest) dbs) (.tabLoop d rest dbs)
  | tabs {d : Bytes} {dbs : List Bytes} : Next m (.tabLoop d [] dbs) (.dbLoop dbs)
  | node {n : Bytes} {rest : List Bytes} : Next m (.nodeLoop (n :: rest)) (.nodeLoop rest)
  | nodes : Next m (.nodeLoop []) (.nodeLoop [])

theorem Phase.next_cases (phase : Phase) (m : MetaServer) : Phase.Next m phase (phase.next m).1 := by
  cases phase with
  | start => exact .start
  | dbLoop dbs =>
      cases dbs with
      | nil => exact .dbs
      | cons d rest =>
          rw [Phase.next]
          cases m.db_map_.find? d with
          | none => exact .skip
          | some dms => exact .db
  | tabLoop d tabs dbs =>
      cases tabs with
      | nil => exact .tabs
      | cons t rest => exact .tab
  | nodeLoop nodes =>
      cases nodes with
      | nil => exact .nodes
      | cons n rest => exact .node

section Next

variable {phase' : Phase}

theorem Phase.Nodup.next (h : phase.Nodup) (hnext : Phase.Next m phase phase') : phase'.Nodup := by
  cases hnext with
  | start => exact m.db_map_.nodup
  | db | tab => exact h
  | skip | tabs => exact (List.nodup_cons.mp h).2
  | dbs | node | nodes => trivial

/-- What is still to come was to come before. -/
theorem Phase.Next.unreached (hnext : Phase.Next m phase phase') (h : phase'.Unreached db_name) :
    phase.Unreached db_name := by
  cases hnext with
  | start => trivial
  | skip | db => exact List.mem_cons_of_mem _ h
  | tab | tabs => exact h
  | dbs | node | nodes => exact h.elim

/-- A database is reached from where it was to come, or was being written. -/
theorem Phase.Next.reading (hnext : Phase.Next m phase phase') (h : phase'.Reading db_name) :
    phase.Unreached db_name ∨ phase.Reading db_name := by
  cases hnext with
  | db => exact Or.inl (List.mem_cons.mpr (Or.inl (Eq.symm h)))
  | tab => exact Or.inr h
  | start | skip | dbs | tabs | node | nodes => exact h.elim

theorem Phase.Read.next (h : phase.Read db_name) (hnext : Phase.Next m phase phase') : phase'.Read db_name := by
  refine ⟨fun hunreached => h.1 (hnext.unreached hunreached), fun hreading => ?_⟩
  rcases hnext.reading hreading with hunreached | hbefore
  · exact h.1 hunreached
  · exact h.2 hbefore

/-- A database is still to come unless it is the next one. -/
theorem Phase.Unreached.next (h : phase.Unreached db_name) (hnext : Phase.Next m phase phase')
    (hkey : db_name ∈ m.db_map_.keys) (hother : db_name ∉ phase.nextDb) : phase'.Unreached db_name := by
  cases hnext with
  | start => exact hkey
  | skip | db =>
      refine (List.mem_cons.mp h).resolve_left ?_
      rintro rfl
      exact hother rfl
  | dbs => exact absurd h List.not_mem_nil
  | tab | tabs => exact h
  | node | nodes => exact h.elim

/-- The next database does not come again. -/
theorem Phase.Next.reached {d : Bytes} {rest : List Bytes} (hnext : Phase.Next m (.dbLoop (d :: rest)) phase')
    (hnodup : (d :: rest).Nodup) : ¬ phase'.Unreached d := by
  cases hnext with
  | skip | db => exact (List.nodup_cons.mp hnodup).1

theorem Phase.InNodes.next (h : phase.InNodes) (hnext : Phase.Next m phase phase') : phase'.InNodes := by
  cases hnext with
  | start | skip | db | dbs | tab | tabs => exact h.elim
  | node | nodes => trivial

theorem Phase.Through.next (h : phase.Through) (hnext : Phase.Next m phase phase') : phase'.Through := by
  cases hnext with
  | start | skip | db | dbs | tab | tabs | node => exact h.elim
  | nodes => trivial

end Next

/-- **A step of the loops** depends on what is read in it. -/
theorem Phase.next_congr (hnodup : phase.Nodup) (h : Alike (fun d => ¬ (phase.next m).1.Unreached d ∧ ¬ phase.Read d)
    ((phase.next m).1.InNodes ∧ ¬ phase.Through) m m') : phase.next m = phase.next m' := by
  cases phase with
  | start =>
      have hsize : m.db_map_.size = m'.db_map_.size := by
        rw [UnorderedMap.size, UnorderedMap.size, ← List.length_map Prod.fst, ← List.length_map Prod.fst]
        exact congrArg List.length h.keys
      rw [Phase.next, Phase.next, h.keys, hsize]
  | dbLoop dbs =>
      cases dbs with
      | nil => rw [Phase.next, Phase.next, h.nodes ⟨trivial, id⟩]
      | cons d rest =>
          have hreached := ((Phase.dbLoop (d :: rest)).next_cases m).reached hnodup
          rw [Phase.next, Phase.next, h.dbs d ⟨hreached, fun hread => hread.1 List.mem_cons_self⟩]
  | tabLoop d tabs dbs =>
      cases tabs with
      | nil => rfl
      | cons t rest =>
          rw [Phase.next, Phase.next, table?, table?,
            h.dbs d ⟨(List.nodup_cons.mp hnodup).1, fun hread => hread.2 rfl⟩]
  | nodeLoop nodes =>
      cases nodes with
      | nil => rfl
      | cons n rest => rw [Phase.next, Phase.next, h.nodes ⟨trivial, id⟩]

/-- A table goes into a map that the saver has come to: the saver is not reading it. -/
theorem Phase.Allows.not_reading {request : Request} (h : phase.Allows request) (hread : ¬ phase.Unreached request.db_name) :
    ¬ phase.Reading request.db_name := by
  cases request with
  | CreateTable request => exact h
  | CreatePartitionTable request =>
      intro hreading
      have hthrough := h.resolve_left hread
      cases phase with
      | nodeLoop => exact hreading
      | start | dbLoop | tabLoop => exact hthrough

/-- Either the table has no nodes, or the saver reads none any more. -/
theorem Phase.Allows.through {request : Request} (h : phase.Allows request) (hread : ¬ phase.Unreached request.db_name) :
    phase.Through ∨ ∃ request', request = .CreateTable request' := by
  cases request with
  | CreateTable request => exact Or.inr ⟨request, rfl⟩
  | CreatePartitionTable request => exact Or.inl (h.resolve_left hread)

end Phases

/-! ## A save -/

/-- The catalog without the requests that came too late for the saver. -/
def State.without (s : State) (late : List Nat) : MetaServer := apply s.start (s.log.filter fun l => l.call ∉ late)

/-- While the saver is at work: some requests have come too late, behind the saver, and its file will be the catalog without
    them; the others are in front of it while they build their tables. -/
structure Saving (s : State) (saver : Saver) (late : List Nat) : Prop where
  nodup : saver.phase.Nodup
  behind : ∀ i ∈ late, ∃ call, s.calls[i]? = some call ∧ (call.pc.Building ∨ call.pc.Done) ∧
    saver.phase.Read call.request.db_name ∧ (saver.phase.Through ∨ ∃ request, call.request = .CreateTable request)
  front : ∀ (i : Nat) (call : Call), s.calls[i]? = some call → call.pc.Building → i ∉ late →
    saver.phase.Unreached call.request.db_name
  alike : Alike (fun d => ¬ saver.phase.Read d) (¬ saver.phase.Through) s.catalog (s.without late)
  file : ∀ m, Alike (fun d => ¬ saver.phase.Unreached d) saver.phase.InNodes (s.without late) m →
    saver.file ++ saver.phase.left m = m.out

section Saving

variable {saver : Saver} {late : List Nat}

theorem Made.saving (h : Made s) : Saving s ⟨.start, []⟩ [] := by
  have hall : s.without [] = s.catalog := by
    rw [State.without, List.filter_eq_self.mpr fun l _ => decide_eq_true List.not_mem_nil, ← h.catalog]
  refine ⟨trivial, fun i hi => absurd hi List.not_mem_nil, fun _ _ _ _ _ => trivial, ?_, fun m _ => List.nil_append _⟩
  rw [hall]
  exact Alike.refl _

/-- The saver goes on. -/
theorem Saving.next (h : Saving s saver late)
    (hkeys : ∀ call ∈ s.calls, call.pc.Building → call.request.db_name ∈ s.catalog.db_map_.keys)
    (hnone : ∀ db_name ∈ saver.phase.nextDb, ∀ call ∈ s.calls, call.request.db_name = db_name → ¬ call.pc.Building) :
    Saving s ⟨(saver.phase.next s.catalog).1, saver.file ++ (saver.phase.next s.catalog).2⟩ late := by
  have hgo := saver.phase.next_cases s.catalog
  constructor
  · exact h.nodup.next hgo
  · intro i hi
    obtain ⟨call, hcall, hstands, hread, hthrough⟩ := h.behind i hi
    exact ⟨call, hcall, hstands, hread.next hgo, hthrough.imp_left fun hthrough => hthrough.next hgo⟩
  · intro i call hcall hbuilding hi
    have hmem := List.mem_of_getElem? hcall
    exact (h.front i call hcall hbuilding hi).next hgo (hkeys call hmem hbuilding)
      fun hnext => hnone _ hnext call hmem rfl hbuilding
  · exact h.alike.mono (fun d hd hread => hd (hread.next hgo)) fun hnot hthrough => hnot (hthrough.next hgo)
  · intro m hm
    have hnext : saver.phase.next s.catalog = saver.phase.next m :=
      Phase.next_congr h.nodup ((h.alike.mono (fun d hd => hd.2) fun hn => hn.2).trans
        (hm.mono (fun d hd => hd.1) fun hn => hn.1))
    have hfile := h.file m (hm.mono (fun d hd hunreached => hd (hgo.unreached hunreached)) fun hnodes => hnodes.next hgo)
    rw [hnext, List.append_assoc, ← Phase.left_next]
    exact hfile

/-- One request moves, and writes nothing. -/
theorem Saving.move {pc : Pc} (h : Saving s saver late) (hcall : s.calls[i]? = some call)
    (hcalls : s'.calls = s.calls.set i { call with pc := pc }) (hcatalog : s'.catalog = s.catalog)
    (hwithout : s'.without late = s.without late)
    (hbuilding : pc.Building → i ∉ late → saver.phase.Unreached call.request.db_name)
    (hstands : call.pc.Building ∨ call.pc.Done → pc.Building ∨ pc.Done) : Saving s' saver late := by
  constructor
  · exact h.nodup
  · intro j hj
    obtain ⟨r, hr, hbefore, hread⟩ := h.behind j hj
    by_cases hi : j = i
    · subst hi
      obtain rfl := Option.some.inj (hcall.symm.trans hr)
      exact ⟨{ call with pc := pc }, by rw [hcalls]; exact Slots.get_set_self hcall, hstands hbefore, hread⟩
    · exact ⟨r, by rw [hcalls, List.getElem?_set_ne (Ne.symm hi)]; exact hr, hbefore, hread⟩
  · intro j r hr hb hj
    rw [hcalls] at hr
    rcases Slots.get_set hr with ⟨rfl, rfl⟩ | ⟨-, hold⟩
    · exact hbuilding hb hj
    · exact h.front j r hold hb hj
  · rw [hcatalog, hwithout]
    exact h.alike
  · rw [hwithout]
    exact h.file

/-- A write of a request that came too late. -/
theorem without_late (s : State) (call : Call) (w : Write) (hi : i ∈ late) :
    (s.write i call w).without late = s.without late := by
  rw [State.without, State.without, State.write, List.filter_append, List.filter_cons_of_neg (by simpa using hi),
    List.filter_nil, List.append_nil]

/-- A write of another one. -/
theorem without_early (s : State) (call : Call) (w : Write) (hi : i ∉ late) :
    (s.write i call w).without late = w.apply call.request.db_name call.request.tab_name (s.without late) := by
  rw [State.without, State.without, State.write, List.filter_append, List.filter_cons_of_pos (by simpa using hi),
    List.filter_nil, apply_snoc]

/-- A request that came too late writes behind the saver. -/
theorem Saving.write_late {w : Write} (h : Saving s saver late) (hi : i ∈ late)
    (hread : saver.phase.Read call.request.db_name)
    (hnodes : ¬ saver.phase.Through →
      (w.apply call.request.db_name call.request.tab_name s.catalog).ip_node_map_ = s.catalog.ip_node_map_) :
    Saving (s.write i call w) saver late := by
  refine ⟨h.nodup, h.behind, h.front, ?_, ?_⟩
  · rw [without_late s call w hi]
    exact h.alike.apply_left (fun hnot => hnot hread) hnodes
  · rw [without_late s call w hi]
    exact h.file

/-- Another one writes in front of it. -/
theorem Saving.write_early {w : Write} (h : Saving s saver late) (hi : i ∉ late)
    (hunreached : saver.phase.Unreached call.request.db_name) : Saving (s.write i call w) saver late := by
  refine ⟨h.nodup, h.behind, h.front, ?_, ?_⟩
  · rw [without_early s call w hi]
    exact h.alike.apply_both fun hread => hread.1 hunreached
  · intro m hm
    rw [without_early s call w hi] at hm
    refine h.file m (hm.of_apply (fun hnot => hnot hunreached) ?_)
    -- behind the databases none is still to come
    intro hnodes
    cases hphase : saver.phase with
    | start | dbLoop | tabLoop =>
        rw [hphase] at hnodes
        exact hnodes
    | nodeLoop =>
        rw [hphase] at hunreached
        exact hunreached

/-- A table goes into a map behind the saver. -/
theorem Saving.insert_late {w : Write} {pc : Pc} (h : Saving s saver late) (hcall : s.calls[i]? = some call)
    (hread : saver.phase.Read call.request.db_name)
    (hthrough : saver.phase.Through ∨ ∃ request, call.request = .CreateTable request) (hstands : pc.Building ∨ pc.Done)
    (hlog : ∀ l ∈ s.log, l.call ≠ i)
    (hnodes : (w.apply call.request.db_name call.request.tab_name s.catalog).ip_node_map_ = s.catalog.ip_node_map_) :
    Saving ((s.write i call w).setPc i call pc) saver (i :: late) := by
  have hwithout : (s.write i call w).without (i :: late) = s.without late := by
    rw [without_late s call w List.mem_cons_self, State.without, State.without]
    refine congrArg _ (List.filter_congr fun l hl => ?_)
    simp only [List.mem_cons, hlog l hl, false_or]
  have hself : (s.calls.set i { call with pc := pc })[i]? = some { call with pc := pc } := Slots.get_set_self hcall
  constructor
  · exact h.nodup
  · intro j hj
    by_cases hi : j = i
    · subst hi
      exact ⟨_, hself, hstands, hread, hthrough⟩
    · obtain ⟨r, hr, hrest⟩ := h.behind j ((List.mem_cons.mp hj).resolve_left hi)
      exact ⟨r, (List.getElem?_set_ne (Ne.symm hi)).trans hr, hrest⟩
  · intro j r hr hbuilding hj
    obtain ⟨hi, hlate⟩ := not_or.mp fun hor => hj (List.mem_cons.mpr hor)
    exact h.front j r ((List.getElem?_set_ne (Ne.symm hi)).symm.trans hr) hbuilding hlate
  · show Alike _ _ (w.apply call.request.db_name call.request.tab_name s.catalog) ((s.write i call w).without (i :: late))
    rw [hwithout]
    exact h.alike.apply_left (fun hnot => hnot hread) fun _ => hnodes
  · show ∀ m, Alike _ _ ((s.write i call w).without (i :: late)) m → _
    rw [hwithout]
    exact h.file

/-- A save that is through has a consistent file. -/
theorem Saving.consistent {file : List Put} (h : Saving s ⟨.nodeLoop [], file⟩ late) (hmade : Made s) : s.Consistent file := by
  refine ⟨(s.log.map Logged.call).filter fun i => i ∉ late, ?_, ?_⟩
  · intro i hi
    obtain ⟨hmem, hlate⟩ := List.mem_filter.mp hi
    obtain ⟨l, hl, rfl⟩ := List.mem_map.mp hmem
    obtain ⟨call, hcall, hstands⟩ := hmade.logged l hl
    exact ⟨call, hcall, hstands.resolve_left fun hbuilding => h.front l.call call hcall hbuilding (of_decide_eq_true hlate)⟩
  · have hmade : s.made ((s.log.map Logged.call).filter fun i => i ∉ late) = s.without late := by
      rw [State.made, State.without]
      refine congrArg _ (List.filter_congr fun l hl => ?_)
      have hmem : l.call ∈ s.log.map Logged.call := List.mem_map_of_mem hl
      simp only [List.mem_filter, hmem, true_and, decide_eq_true_eq]
    rw [hmade, ← h.file _ (Alike.refl _)]
    exact (List.append_nil _).symm

end Saving

/-! ## Runs -/

/-- The invariant of a run. -/
structure Inv (s : State) : Prop where
  held : Held s
  made : Made s
  keys : ∀ call ∈ s.calls, call.pc.Building → call.request.db_name ∈ s.catalog.db_map_.keys
  saving : ∀ saver, s.saver = some saver → ∃ late, Saving s saver late
  files : ∀ file ∈ s.files, s.Consistent file

/-- One request moves, and is not in front of the insertion. -/
theorem keys_move {pc : Pc} (h : ∀ call ∈ s.calls, call.pc.Building → call.request.db_name ∈ s.catalog.db_map_.keys)
    (hcall : s.calls[i]? = some call) (hcalls : s'.calls = s.calls.set i { call with pc := pc })
    (hcatalog : s'.catalog.db_map_.keys = s.catalog.db_map_.keys) (hpc : pc.Building → call.pc.Building) :
    ∀ call ∈ s'.calls, call.pc.Building → call.request.db_name ∈ s'.catalog.db_map_.keys := by
  intro r hr hbuilding
  rw [hcatalog]
  rw [hcalls] at hr
  rcases List.mem_or_eq_of_mem_set hr with hold | rfl
  · exact h r hold hbuilding
  · exact h call (List.mem_of_getElem? hcall) (hpc hbuilding)

theorem Inv.keys_step {e : Event} (h : Inv s) (hst : FunStep step s e s') :
    ∀ call ∈ s'.calls, call.pc.Building → call.request.db_name ∈ s'.catalog.db_map_.keys := by
  cases step_cases hst with
  | request =>
      intro r hr hbuilding
      rcases List.mem_append.mp hr with hold | hnew
      · exact h.keys r hold hbuilding
      · obtain rfl := List.mem_singleton.mp hnew
        exact hbuilding.elim
  | share hcall | check hcall =>
      refine keys_move h.keys hcall rfl rfl ?_
      split <;> exact fun hbuilding => hbuilding.elim
  | latch hcall => exact keys_move h.keys hcall rfl rfl fun hbuilding => hbuilding.elim
  | @insert i order location call db tabs hcall hpc hdb =>
      intro r hr hbuilding
      have hkeys : (Write.apply call.request.db_name call.request.tab_name s.catalog (.insert order location)).db_map_.keys =
          s.catalog.db_map_.keys := Write.keys _
      show _ ∈ (Write.apply call.request.db_name call.request.tab_name s.catalog (.insert order location)).db_map_.keys
      rw [hkeys]
      rcases List.mem_or_eq_of_mem_set hr with hold | rfl
      · exact h.keys r hold hbuilding
      · exact List.mem_map_of_mem (UnorderedMap.find?_eq_some_iff.mp hdb)
  | @run i call st todo locals locals' w hcall hpc hrun =>
      have hbefore : call.pc.Building := by
        rw [hpc]
        trivial
      cases w with
      | none => exact keys_move h.keys hcall rfl rfl fun _ => hbefore
      | some w => exact keys_move h.keys hcall rfl w.keys fun _ => hbefore
  | leave hcall hpc =>
      exact keys_move h.keys hcall rfl (congrArg (fun m : MetaServer => m.db_map_.keys) (h.held.last hcall hpc))
        fun hbuilding => hbuilding.elim
  | lock | write | unlock => exact h.keys

theorem Inv.saving_step {e : Event} (h : Inv s) (hst : Guarded Apart (FunStep step) s e s') :
    ∀ saver, s'.saver = some saver → ∃ late, Saving s' saver late := by
  obtain ⟨hok, hst⟩ := hst
  intro saver hs
  cases step_cases hst with
  | request =>
      obtain ⟨late, hsaving⟩ := h.saving saver hs
      refine ⟨late, hsaving.nodup, ?_, ?_, hsaving.alike, hsaving.file⟩
      · intro i hi
        obtain ⟨call, hcall, hrest⟩ := hsaving.behind i hi
        exact ⟨call, (List.getElem?_append_left (List.getElem?_eq_some_iff.mp hcall).1).trans hcall, hrest⟩
      · intro i call hcall hbuilding hi
        rcases Slots.get_snoc hcall with hold | ⟨-, rfl⟩
        · exact hsaving.front i call hold hbuilding hi
        · exact hbuilding.elim
  | share hcall hpc hsaver => cases hsaver.symm.trans hs
  | latch hcall hpc =>
      obtain ⟨late, hsaving⟩ := h.saving saver hs
      refine ⟨late, hsaving.move hcall rfl rfl rfl (fun hbuilding _ => hbuilding.elim) ?_⟩
      rw [hpc]
      rintro (hstands | hstands) <;> exact hstands.elim
  | check hcall hpc hdb =>
      obtain ⟨late, hsaving⟩ := h.saving saver hs
      refine ⟨late, hsaving.move hcall rfl rfl rfl ?_ ?_⟩
      · split <;> exact fun hbuilding _ => hbuilding.elim
      · rw [hpc]
        rintro (hstands | hstands) <;> exact hstands.elim
  | @insert i order location call db tabs hcall hpc hdb htabs =>
      obtain ⟨late, hsaving⟩ := h.saving saver hs
      have hallows := hok saver hs call hcall
      -- the request has written nothing yet
      have hnot : ¬ (call.pc.Building ∨ call.pc.Done) := by
        rw [hpc]
        rintro (hstands | hstands) <;> exact hstands
      by_cases hunreached : saver.phase.Unreached call.request.db_name
      · have hi : i ∉ late := by
          intro hi
          obtain ⟨r, hr, hstands, -⟩ := hsaving.behind i hi
          obtain rfl := Option.some.inj (hcall.symm.trans hr)
          exact hnot hstands
        exact ⟨late, (hsaving.write_early hi hunreached).move (s := s.write i call (.insert order location)) hcall rfl rfl rfl
          (fun _ _ => hunreached) fun hstands => absurd hstands hnot⟩
      · have hread : saver.phase.Read call.request.db_name := ⟨hunreached, hallows.not_reading hunreached⟩
        have hlog : ∀ l ∈ s.log, l.call ≠ i := by
          rintro l hl rfl
          obtain ⟨r, hr, hstands⟩ := h.made.logged l hl
          obtain rfl := Option.some.inj (hcall.symm.trans hr)
          exact hnot hstands
        exact ⟨_, hsaving.insert_late hcall hread (hallows.through hunreached) (building_or_done _ _) hlog rfl⟩
  | @run i call st todo locals locals' w hcall hpc hrun =>
      have hbefore : call.pc.Building := by
        rw [hpc]
        trivial
      cases w with
      | none =>
          obtain ⟨late, hsaving⟩ := h.saving saver hs
          exact ⟨late, hsaving.move hcall rfl rfl rfl (fun _ => hsaving.front i call hcall hbefore)
            fun _ => building_or_done _ _⟩
      | some w =>
          obtain ⟨late, hsaving⟩ := h.saving saver hs
          refine ⟨late, Saving.move (s := s.write i call w) ?_ hcall rfl rfl rfl
            (fun _ => hsaving.front i call hcall hbefore) fun _ => building_or_done _ _⟩
          by_cases hi : i ∈ late
          · obtain ⟨r, hr, -, hread, hthrough⟩ := hsaving.behind i hi
            obtain rfl := Option.some.inj (hcall.symm.trans hr)
            refine hsaving.write_late hi hread fun hnot => ?_
            obtain ⟨request, hrequest⟩ := hthrough.resolve_left hnot
            obtain ⟨htodo, -⟩ := h.held.untyped i call request _ _ hcall hrequest hpc
            exact ((htodo st List.mem_cons_self).run hrun).nodes
          · exact hsaving.write_early hi (hsaving.front i call hcall hbefore hi)
  | leave hcall hpc =>
      obtain ⟨late, hsaving⟩ := h.saving saver hs
      exact ⟨late, hsaving.move hcall rfl (h.held.last hcall hpc) rfl (fun hbuilding _ => hbuilding.elim)
        fun _ => Or.inr trivial⟩
  | lock hsaver =>
      obtain rfl := Option.some.inj hs
      obtain ⟨hnodup, hbehind, hfront, halike, hfile⟩ := h.made.saving
      exact ⟨[], hnodup, hbehind, hfront, halike, hfile⟩
  | write hsaver hphase =>
      obtain rfl := Option.some.inj hs
      obtain ⟨late, hsaving⟩ := h.saving _ hsaver
      obtain ⟨hnodup, hbehind, hfront, halike, hfile⟩ := hsaving.next h.keys (hok _ hsaver)
      exact ⟨late, hnodup, hbehind, hfront, halike, hfile⟩
  | unlock => cases hs

/-- **Step lemma.** -/
theorem Inv.step {e : Event} (h : Inv s) (hst : Guarded Apart (FunStep step) s e s') : Inv s' := by
  refine ⟨h.held.step hst.2, h.made.step h.held hst.2, h.keys_step hst.2, h.saving_step hst, ?_⟩
  obtain ⟨-, hst⟩ := hst
  have hfiles : ∀ file ∈ s.files, s'.Consistent file := fun file hfile => (h.files file hfile).step hst
  cases step_cases hst with
  | @run i call st todo locals locals' w =>
      cases w with
      | none => exact hfiles
      | some w => exact hfiles
  | unlock hsaver =>
      intro file hfile
      rcases List.mem_append.mp hfile with hold | hnew
      · exact hfiles file hold
      · obtain rfl := List.mem_singleton.mp hnew
        obtain ⟨late, hsaving⟩ := h.saving _ hsaver
        exact (hsaving.consistent h.made).step hst
  | _ => exact hfiles

theorem Inv.init (m : MetaServer) : Inv (State.init m) := by
  constructor
  · constructor
    · intro i j call call' hcall
      cases hcall
    · intro i call request todo locals hcall
      cases hcall
  · exact ⟨rfl, fun l hl => absurd hl List.not_mem_nil⟩
  · exact fun call hcall => absurd hcall List.not_mem_nil
  · intro saver hsaver
    cases hsaver
  · exact fun file hfile => absurd hfile List.not_mem_nil

/-- **Saved catalogs are consistent**, in every run whose steps meet `Apart`. -/
theorem saved_consistent {m : MetaServer} {es : List Event} (hrun : Run (Guarded Apart (FunStep step)) (State.init m) es s) :
    ∀ file ∈ s.files, s.Consistent file := (hrun.invariant (I := Inv) (fun _ _ _ => Inv.step) (Inv.init m)).files

/-- A catalog with two empty databases. -/
def twoDbs : MetaServer :=
  { db_map_ := ⟨[([100], ⟨0, [100], .empty⟩), ([101], ⟨0, [101], .empty⟩)], by decide, by decide⟩ }

/-- A table with one column. -/
def smallTable (db_name : Bytes) : Request := .CreateTable ⟨db_name, [116], [[99]], [0]⟩

/-- The saver has written the first database when a table goes into it; another table is made in the second one before the
    saver comes there. -/
def saveBetween : List Event :=
  [.request (smallTable [100]), .share 0, .latch 0, .check 0, .request (smallTable [101]), .share 1, .latch 1, .check 1,
    .lock, .write, .write, .write, .insert 0 .front (0, 0), .insert 1 .front (0, 0), .run 1, .run 1, .run 0, .run 1, .run 1,
    .run 1, .write, .write, .write, .write, .unlock]

theorem saved_consistent_saveBetween : ∃ s, Run (Guarded Apart (FunStep step)) (State.init twoDbs) saveBetween s ∧
    s.files ≠ [] ∧ ∀ file ∈ s.files, s.Consistent file := by
  obtain ⟨s, hrun, hfiles⟩ : ∃ s, Run (Guarded Apart (FunStep step)) (State.init twoDbs) saveBetween s ∧
      s.files.length = 1 := Run.exists_guarded_of_map (by decide +kernel)
  refine ⟨s, hrun, ?_, saved_consistent hrun⟩
  intro hnil
  rw [hnil] at hfiles
  cases hfiles

/-- The saver comes when the table is in the map, and nothing else is done. -/
def saveHalf : List Event :=
  [.request (smallTable [100]), .share 0, .latch 0, .check 0, .insert 0 .front (0, 0), .lock, .write, .write, .write, .write,
    .write, .write, .write, .unlock]

/-- **A half-built table** is saved. -/
theorem half_built : ∃ s, Run (FunStep step) (State.init twoDbs) saveHalf s ∧ ¬ ∀ file ∈ s.files, s.Consistent file := by
  obtain ⟨s, hrun, hmap⟩ : ∃ s, Run (FunStep step) (State.init twoDbs) saveHalf s ∧
      (s.files.map fun file => decide (file = s.start.out), s.log.map Logged.call, s.calls.map fun call => decide call.pc.Done)
        = ([false], [0], [false]) :=
    Run.exists_of_map (f := fun s : State => (s.files.map fun file => decide (file = s.start.out), s.log.map Logged.call,
      s.calls.map fun call => decide call.pc.Done)) (by decide +kernel)
  obtain ⟨hfiles, hrest⟩ := Prod.mk.inj hmap
  obtain ⟨hlog, hcalls⟩ := Prod.mk.inj hrest
  refine ⟨s, hrun, fun hall => ?_⟩
  obtain ⟨file, hfile, hdiff⟩ := List.map_eq_singleton_iff.mp hfiles
  obtain ⟨A, hdone, hout⟩ := hall file (by rw [hfile]; exact List.mem_singleton_self _)
  -- the request is not done, so its writes do not count
  have hnone : s.log.filter (fun l => l.call ∈ A) = [] := by
    rw [List.filter_eq_nil_iff]
    intro l hl hmem
    have hzero : l.call ∈ s.log.map Logged.call := List.mem_map_of_mem hl
    rw [hlog, List.mem_singleton] at hzero
    obtain ⟨call, hcall, hpc⟩ := hdone l.call (of_decide_eq_true hmem)
    have hmap : decide call.pc.Done ∈ s.calls.map fun call => decide call.pc.Done :=
      List.mem_map_of_mem (List.mem_of_getElem? hcall)
    rw [hcalls, List.mem_singleton] at hmap
    exact of_decide_eq_false hmap hpc
  rw [State.made, hnone] at hout
  exact of_decide_eq_false hdiff hout

end SaveMeta
end DDBMS
