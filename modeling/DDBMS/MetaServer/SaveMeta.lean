import DDBMS.Lib.Run
import DDBMS.Lib.Slots
import DDBMS.MetaServer.CreateStatements

/-!
# `MetaServer.SaveMeta` — saving the catalog while tables are created

The thread `save_meta` of `main` (`meta_server/meta_server_rpc.cpp`) holds the mutex of the `MetaServer` while it writes the
catalog. `CreateTable` and `CreatePartitionTable` share that mutex only until they have the mutex of their database, and build
their table under the latter. So the two do not exclude each other.

A file is consistent if it is the catalog that all writes of some requests make, and none of the others
(`State.Consistent`). Whatever the requests do, the catalog is what their writes have made of the first one, in order (`Made`);
a request that nothing comes between is a request of `MetaService` (`handled_alone`).
-/

namespace DDBMS
namespace SaveMeta

open MetaServer

inductive Request where
  | CreateTable (request : CreateTableRequest)
  | CreatePartitionTable (request : CreatePartitonTableRequest)
  deriving Repr

namespace Request

def db_name : Request → Bytes
  | .CreateTable request => request.db_name
  | .CreatePartitionTable request => request.db_name

def tab_name : Request → Bytes
  | .CreateTable request => request.tab_name
  | .CreatePartitionTable request => request.tab_name

/-- Nothing stands against the new table. -/
def Accepts (m : MetaServer) (db : DbMetaServer) : Request → Prop
  | .CreateTable request => request.tab_name ∉ db.tabs_.keys
  | .CreatePartitionTable request => request.tab_name ∉ db.tabs_.keys ∧
      request.partition_type ≠ PartitionType.NONE_PARTITION ∧ ¬ size_t request.replica_cnt < m.ip_node_map_.size

instance instDecidableAccepts (m : MetaServer) (db : DbMetaServer) : (request : Request) → Decidable (request.Accepts m db)
  | .CreateTable request => inferInstanceAs (Decidable (request.tab_name ∉ db.tabs_.keys))
  | .CreatePartitionTable request => inferInstanceAs (Decidable (request.tab_name ∉ db.tabs_.keys ∧
      request.partition_type ≠ PartitionType.NONE_PARTITION ∧ ¬ size_t request.replica_cnt < m.ip_node_map_.size))

def statements : Request → List Statement
  | .CreateTable request => request.statements
  | .CreatePartitionTable request => request.statements

/-- What is left when all statements have run: the last assignment of `CreateTable`. -/
def last : Request → MetaServer → MetaServer
  | .CreateTable request, m =>
    (Write.field (.partition_type PartitionType.NONE_PARTITION)).apply request.db_name request.tab_name m
  | .CreatePartitionTable _, m => m

end Request

/-- Where a request stands. -/
inductive Pc where
  /-- in front of the mutex of the `MetaServer` -/
  | received
  /-- shares the mutex of the `MetaServer`; the database is there -/
  | shared
  /-- has the mutex of the database only -/
  | latched
  /-- in front of the insertion into the table map -/
  | accepted
  | building (todo : List Statement) (locals : Locals)
  | returned
  deriving Repr

structure Call where
  request : Request
  pc : Pc := .received
  deriving Repr

/-- The request shares the mutex of the `MetaServer`. -/
def Pc.shares : Pc → Bool
  | .shared => true
  | .received | .latched | .accepted | .building _ _ | .returned => false

/-- The request has the mutex of its database. -/
def Pc.latch : Pc → Bool
  | .latched | .accepted | .building _ _ => true
  | .received | .shared | .returned => false

/-- The table is in the map, and not finished. -/
def Pc.Building : Pc → Prop
  | .building (_ :: _) _ => True
  | _ => False

/-- The table is finished, or there is none. -/
def Pc.Done : Pc → Prop
  | .building [] _ | .returned => True
  | _ => False

/-- Where the loops of `operator<<` stand, with the keys that they have in front of them. -/
inductive Phase where
  | start
  | dbLoop (dbs : List Bytes)
  /-- in the loop of a database over its tables -/
  | tabLoop (db_name : Bytes) (tabs dbs : List Bytes)
  | nodeLoop (nodes : List Bytes)
  deriving Repr

/-- What comes next, and what is written before that. -/
def Phase.next (m : MetaServer) : Phase → Phase × List Put
  | .start => (.dbLoop m.db_map_.keys, [num m.db_map_.size, nl])
  | .dbLoop (db_name :: rest) => (m.db_map_.find? db_name).elim (.dbLoop rest, []) fun dms =>
    (.tabLoop db_name dms.tabs_.keys rest, [num dms.next_oid_.toInt, sp, .field dms.name_, sp, num dms.tabs_.size, nl])
  | .dbLoop [] => (.nodeLoop m.ip_node_map_.keys, [num m.ip_node_map_.size, nl])
  | .tabLoop db_name (tab_name :: rest) dbs =>
    (.tabLoop db_name rest dbs, (m.table? db_name tab_name).elim [] fun tms => tms.out ++ [nl])
  | .tabLoop _ [] rest => (.dbLoop rest, [nl])
  | .nodeLoop (server_name :: rest) =>
    (.nodeLoop rest, (m.ip_node_map_.find? server_name).elim [] fun node => [.field server_name, sp] ++ (node.out ++ [nl]))
  | .nodeLoop [] => (.nodeLoop [], [])

/-- The database is still to come. -/
def Phase.Unreached (db_name : Bytes) : Phase → Prop
  | .start => True
  | .dbLoop dbs | .tabLoop _ _ dbs => db_name ∈ dbs
  | .nodeLoop _ => False

/-- The database is being written. -/
def Phase.Reading (db_name : Bytes) : Phase → Prop
  | .tabLoop name _ _ => name = db_name
  | .start | .dbLoop _ | .nodeLoop _ => False

/-- Nothing is left to write. -/
def Phase.Through : Phase → Prop
  | .nodeLoop [] => True
  | _ => False

/-- The database that is next. -/
def Phase.nextDb : Phase → Option Bytes
  | .dbLoop dbs => dbs.head?
  | .start | .tabLoop _ _ _ | .nodeLoop _ => none

structure Saver where
  phase : Phase
  file : List Put

/-- A write, and the request that it belongs to. -/
structure Logged where
  call : Nat
  db_name : Bytes
  tab_name : Bytes
  write : Write

structure State where
  catalog : MetaServer
  /-- the catalog before all requests -/
  start : MetaServer
  calls : List Call := []
  /-- all writes -/
  log : List Logged := []
  /-- the saver, while it has the mutex of the `MetaServer` -/
  saver : Option Saver := none
  files : List (List Put) := []

inductive Event where
  | request (request : Request)
  | share (i : Nat)
  | latch (i : Nat)
  | check (i : Nat)
  | insert (i : Nat) (order : Order Bytes TabMetaServer) (location : table_oid_t × DuplicateType)
  | run (i : Nat)
  | leave (i : Nat)
  | lock
  | write
  | unlock

namespace State

def init (m : MetaServer) : State := { catalog := m, start := m }

def setPc (s : State) (i : Nat) (call : Call) (pc : Pc) : State := { s with calls := s.calls.set i { call with pc := pc } }

/-- A write of call `i`. -/
def write (s : State) (i : Nat) (call : Call) (w : Write) : State :=
  { s with
    catalog := w.apply call.request.db_name call.request.tab_name s.catalog
    log := s.log ++ [⟨i, call.request.db_name, call.request.tab_name, w⟩] }

end State

/-- One step; `none` is a step that waits, or undefined behaviour. -/
def step (s : State) : Event → Option State
  | .request request => some { s with calls := s.calls ++ [{ request := request }] }
  | .share i => do
    let call ← s.calls[i]?
    match call.pc with
    | .received =>
      if s.saver.isNone then
        some (s.setPc i call (if (s.catalog.db_map_.find? call.request.db_name).isSome then .shared else .returned))
      else none
    | _ => none
  | .latch i => do
    let call ← s.calls[i]?
    match call.pc with
    | .shared =>
      if ∀ other ∈ s.calls, other.request.db_name = call.request.db_name → other.pc.latch = false then
        some (s.setPc i call .latched)
      else none
    | _ => none
  | .check i => do
    let call ← s.calls[i]?
    match call.pc with
    | .latched => do
      let db ← s.catalog.db_map_.find? call.request.db_name
      some (s.setPc i call (if call.request.Accepts s.catalog db then .accepted else .returned))
    | _ => none
  | .insert i order location => do
    let call ← s.calls[i]?
    match call.pc with
    | .accepted => do
      let db ← s.catalog.db_map_.find? call.request.db_name
      let _ ← db.tabs_.assign order call.request.tab_name (newTable location)
      some ((s.write i call (.insert order location)).setPc i call (.building call.request.statements {}))
    | _ => none
  | .run i => do
    let call ← s.calls[i]?
    match call.pc with
    | .building (st :: todo) locals => do
      let (w, locals) ← st.run call.request.db_name call.request.tab_name s.catalog locals
      some ((w.elim s fun w => s.write i call w).setPc i call (.building todo locals))
    | _ => none
  | .leave i => do
    let call ← s.calls[i]?
    match call.pc with
    | .building [] _ => some { s.setPc i call .returned with catalog := call.request.last s.catalog }
    | _ => none
  | .lock =>
    if s.saver.isNone ∧ ∀ call ∈ s.calls, call.pc.shares = false then
      some { s with saver := some ⟨.start, []⟩ }
    else none
  | .write => do
    let saver ← s.saver
    match saver.phase with
    | .nodeLoop [] => none
    | phase => some { s with saver := some ⟨(phase.next s.catalog).1, saver.file ++ (phase.next s.catalog).2⟩ }
  | .unlock => do
    let saver ← s.saver
    match saver.phase with
    | .nodeLoop [] => some { s with saver := none, files := s.files ++ [saver.file] }
    | _ => none

/-! ## Consistent files -/

/-- A catalog with these writes. -/
def apply (m : MetaServer) (log : List Logged) : MetaServer :=
  log.foldl (fun m l => l.write.apply l.db_name l.tab_name m) m

/-- All writes of the requests `A`, and none of the others. -/
def State.made (s : State) (A : List Nat) : MetaServer := apply s.start (s.log.filter fun l => l.call ∈ A)

/-- The file is a catalog before or after each request: the requests `A` are finished. -/
def State.Consistent (s : State) (file : List Put) : Prop :=
  ∃ A : List Nat, (∀ i ∈ A, ∃ call, s.calls[i]? = some call ∧ call.pc.Done) ∧ file = (s.made A).out

/-- The saver may be at this point when the table goes into the map. A partitioned table is written into the nodes too. -/
def Phase.Allows (phase : Phase) : Request → Prop
  | .CreateTable request => ¬ phase.Reading request.db_name
  | .CreatePartitionTable request => phase.Unreached request.db_name ∨ phase.Through

/-- The saver does not come to a database while a table of it is being built, and no table goes into a map that the saver is
    reading, nor a partitioned one into a map that it has read while there is more to read. -/
def Apart (s : State) : Event → Prop
  | .write => ∀ saver ∈ s.saver, ∀ db_name ∈ saver.phase.nextDb, ∀ call ∈ s.calls, call.request.db_name = db_name →
      ¬ call.pc.Building
  | .insert i _ _ => ∀ saver ∈ s.saver, ∀ call ∈ s.calls[i]?, saver.phase.Allows call.request
  | _ => True

section Decide

instance instDecidableBuilding : (pc : Pc) → Decidable pc.Building
  | .building (_ :: _) _ => isTrue trivial
  | .building [] _ | .received | .shared | .latched | .accepted | .returned => isFalse id

instance instDecidableDone : (pc : Pc) → Decidable pc.Done
  | .building [] _ | .returned => isTrue trivial
  | .building (_ :: _) _ | .received | .shared | .latched | .accepted => isFalse id

instance instDecidableUnreached (db_name : Bytes) : (phase : Phase) → Decidable (phase.Unreached db_name)
  | .start => isTrue trivial
  | .dbLoop dbs | .tabLoop _ _ dbs => inferInstanceAs (Decidable (db_name ∈ dbs))
  | .nodeLoop _ => isFalse id

instance instDecidableReading (db_name : Bytes) : (phase : Phase) → Decidable (phase.Reading db_name)
  | .tabLoop name _ _ => inferInstanceAs (Decidable (name = db_name))
  | .start | .dbLoop _ | .nodeLoop _ => isFalse id

instance instDecidableThrough : (phase : Phase) → Decidable phase.Through
  | .nodeLoop [] => isTrue trivial
  | .nodeLoop (_ :: _) | .start | .dbLoop _ | .tabLoop _ _ _ => isFalse id

instance instDecidableAllows (phase : Phase) : (request : Request) → Decidable (phase.Allows request)
  | .CreateTable request => inferInstanceAs (Decidable (¬ phase.Reading request.db_name))
  | .CreatePartitionTable request => inferInstanceAs (Decidable (phase.Unreached request.db_name ∨ phase.Through))

instance instDecidableApart (s : State) : (e : Event) → Decidable (Apart s e)
  | .write => inferInstanceAs (Decidable (∀ saver ∈ s.saver, ∀ db_name ∈ saver.phase.nextDb, ∀ call ∈ s.calls,
      call.request.db_name = db_name → ¬ call.pc.Building))
  | .insert i _ _ => inferInstanceAs (Decidable (∀ saver ∈ s.saver, ∀ call ∈ s.calls[i]?, saver.phase.Allows call.request))
  | .request _ | .share _ | .latch _ | .check _ | .run _ | .leave _ | .lock | .unlock => isTrue trivial

end Decide

variable {s s' : State} {i j : Nat} {call call' : Call}

/-! ## What a step does -/

/-- The branches of a step, with what each has found. -/
inductive Steps (s : State) : Event → State → Prop where
  | request {request : Request} : Steps s (.request request) { s with calls := s.calls ++ [{ request := request }] }
  | share {i : Nat} {call : Call} (hcall : s.calls[i]? = some call) (hpc : call.pc = .received) (hsaver : s.saver = none) :
      Steps s (.share i)
        (s.setPc i call (if (s.catalog.db_map_.find? call.request.db_name).isSome then .shared else .returned))
  | latch {i : Nat} {call : Call} (hcall : s.calls[i]? = some call) (hpc : call.pc = .shared)
      (hfree : ∀ other ∈ s.calls, other.request.db_name = call.request.db_name → other.pc.latch = false) :
      Steps s (.latch i) (s.setPc i call .latched)
  | check {i : Nat} {call : Call} {db : DbMetaServer} (hcall : s.calls[i]? = some call) (hpc : call.pc = .latched)
      (hdb : s.catalog.db_map_.find? call.request.db_name = some db) :
      Steps s (.check i) (s.setPc i call (if call.request.Accepts s.catalog db then .accepted else .returned))
  | insert {i : Nat} {order : Order Bytes TabMetaServer} {location : table_oid_t × DuplicateType} {call : Call}
      {db : DbMetaServer} {tabs : UnorderedMap Bytes TabMetaServer} (hcall : s.calls[i]? = some call)
      (hpc : call.pc = .accepted) (hdb : s.catalog.db_map_.find? call.request.db_name = some db)
      (htabs : db.tabs_.assign order call.request.tab_name (newTable location) = some tabs) :
      Steps s (.insert i order location)
        ((s.write i call (.insert order location)).setPc i call (.building call.request.statements {}))
  | run {i : Nat} {call : Call} {st : Statement} {todo : List Statement} {locals locals' : Locals} {w : Option Write}
      (hcall : s.calls[i]? = some call) (hpc : call.pc = .building (st :: todo) locals)
      (hrun : st.run call.request.db_name call.request.tab_name s.catalog locals = some (w, locals')) :
      Steps s (.run i) ((w.elim s fun w => s.write i call w).setPc i call (.building todo locals'))
  | leave {i : Nat} {call : Call} {locals : Locals} (hcall : s.calls[i]? = some call) (hpc : call.pc = .building [] locals) :
      Steps s (.leave i) { s.setPc i call .returned with catalog := call.request.last s.catalog }
  | lock (hsaver : s.saver = none) : Steps s .lock { s with saver := some ⟨.start, []⟩ }
  | write {phase : Phase} {file : List Put} (hsaver : s.saver = some ⟨phase, file⟩) (hphase : phase ≠ .nodeLoop []) :
      Steps s .write { s with saver := some ⟨(phase.next s.catalog).1, file ++ (phase.next s.catalog).2⟩ }
  | unlock {file : List Put} (hsaver : s.saver = some ⟨.nodeLoop [], file⟩) :
      Steps s .unlock { s with saver := none, files := s.files ++ [file] }

theorem step_cases {e : Event} (h : step s e = some s') : Steps s e s' := by
  cases e with
  | request request =>
      obtain rfl := Option.some.inj h
      exact .request
  | share i =>
      obtain ⟨call, hcall, hrest⟩ := Option.bind_eq_some_iff.mp h
      split at hrest
      · rename_i hpc
        obtain ⟨hsaver, hrest⟩ := Option.ite_none_right_eq_some.mp hrest
        obtain rfl := Option.some.inj hrest
        exact .share hcall hpc (Option.isNone_iff_eq_none.mp hsaver)
      · cases hrest
  | latch i =>
      obtain ⟨call, hcall, hrest⟩ := Option.bind_eq_some_iff.mp h
      split at hrest
      · rename_i hpc
        obtain ⟨hfree, hrest⟩ := Option.ite_none_right_eq_some.mp hrest
        obtain rfl := Option.some.inj hrest
        exact .latch hcall hpc hfree
      · cases hrest
  | check i =>
      obtain ⟨call, hcall, hrest⟩ := Option.bind_eq_some_iff.mp h
      split at hrest
      · rename_i hpc
        obtain ⟨db, hdb, hrest⟩ := Option.bind_eq_some_iff.mp hrest
        obtain rfl := Option.some.inj hrest
        exact .check hcall hpc hdb
      · cases hrest
  | insert i order location =>
      obtain ⟨call, hcall, hrest⟩ := Option.bind_eq_some_iff.mp h
      split at hrest
      · rename_i hpc
        obtain ⟨db, hdb, hrest⟩ := Option.bind_eq_some_iff.mp hrest
        obtain ⟨tabs, htabs, hrest⟩ := Option.bind_eq_some_iff.mp hrest
        obtain rfl := Option.some.inj hrest
        exact .insert hcall hpc hdb htabs
      · cases hrest
  | run i =>
      obtain ⟨call, hcall, hrest⟩ := Option.bind_eq_some_iff.mp h
      split at hrest
      · rename_i hpc
        obtain ⟨⟨w, locals'⟩, hrun, hrest⟩ := Option.bind_eq_some_iff.mp hrest
        obtain rfl := Option.some.inj hrest
        exact .run hcall hpc hrun
      · cases hrest
  | leave i =>
      obtain ⟨call, hcall, hrest⟩ := Option.bind_eq_some_iff.mp h
      split at hrest
      · rename_i hpc
        obtain rfl := Option.some.inj hrest
        exact .leave hcall hpc
      · cases hrest
  | lock =>
      obtain ⟨⟨hsaver, -⟩, hrest⟩ := Option.ite_none_right_eq_some.mp h
      obtain rfl := Option.some.inj hrest
      exact .lock (Option.isNone_iff_eq_none.mp hsaver)
  | write =>
      obtain ⟨⟨phase, file⟩, hsaver, hrest⟩ := Option.bind_eq_some_iff.mp h
      split at hrest
      · cases hrest
      · rename_i hphase
        obtain rfl := Option.some.inj hrest
        exact .write hsaver hphase
  | unlock =>
      obtain ⟨⟨phase, file⟩, hsaver, hrest⟩ := Option.bind_eq_some_iff.mp h
      split at hrest
      · rename_i hphase
        obtain rfl := Option.some.inj hrest
        rw [show phase = .nodeLoop [] from hphase] at hsaver
        exact .unlock hsaver
      · cases hrest

/-! ## What the saver writes -/

def outDb (m : MetaServer) (db_name : Bytes) : List Put := (m.db_map_.find? db_name).elim [] fun dms => dms.out ++ [nl]

def outTab (m : MetaServer) (db_name tab_name : Bytes) : List Put :=
  (m.table? db_name tab_name).elim [] fun tms => tms.out ++ [nl]

def outNode (m : MetaServer) (server_name : Bytes) : List Put :=
  (m.ip_node_map_.find? server_name).elim [] fun node => [.field server_name, sp] ++ (node.out ++ [nl])

def outNodes (m : MetaServer) : List Put := [num m.ip_node_map_.size, nl] ++ m.ip_node_map_.keys.flatMap (outNode m)

/-- What is left to write of a catalog. -/
def Phase.left (m : MetaServer) : Phase → List Put
  | .start => m.out
  | .dbLoop dbs => dbs.flatMap (outDb m) ++ outNodes m
  | .tabLoop db_name tabs dbs => tabs.flatMap (outTab m db_name) ++ ([nl] ++ (dbs.flatMap (outDb m) ++ outNodes m))
  | .nodeLoop nodes => nodes.flatMap (outNode m)

theorem out_eq (m : MetaServer) : m.out = [num m.db_map_.size, nl] ++ (m.db_map_.keys.flatMap (outDb m) ++ outNodes m) := by
  have hdbs : m.db_map_.keys.flatMap (outDb m) = m.db_map_.entries.flatMap fun entry => entry.2.out ++ [nl] :=
    UnorderedMap.flatMap_keys fun _ dms => DbMetaServer.out dms ++ [nl]
  have hnodes : m.ip_node_map_.keys.flatMap (outNode m) =
      m.ip_node_map_.entries.flatMap fun entry => [.field entry.1, sp] ++ (entry.2.out ++ [nl]) :=
    UnorderedMap.flatMap_keys fun server_name node => [.field server_name, sp] ++ (Node.out node ++ [nl])
  rw [hdbs, outNodes, hnodes, MetaServer.out]

theorem outDb_eq {m : MetaServer} {db_name : Bytes} {dms : DbMetaServer} (h : m.db_map_.find? db_name = some dms) :
    outDb m db_name = [num dms.next_oid_.toInt, sp, .field dms.name_, sp, num dms.tabs_.size, nl] ++
      (dms.tabs_.keys.flatMap (outTab m db_name) ++ [nl]) := by
  have htabs : dms.tabs_.keys.flatMap (outTab m db_name) = dms.tabs_.entries.flatMap fun entry => entry.2.out ++ [nl] := by
    rw [← UnorderedMap.flatMap_keys fun _ tms => TabMetaServer.out tms ++ [nl]]
    apply List.flatMap_congr
    intro tab_name _
    rw [outTab, table?, h]
    rfl
  rw [outDb, h, htabs, Option.elim_some, DbMetaServer.out, List.append_assoc]

/-- **One step of the loops** on the catalog that they write. -/
theorem Phase.left_next (m : MetaServer) (phase : Phase) :
    phase.left m = (phase.next m).2 ++ (phase.next m).1.left m := by
  cases phase with
  | start => exact out_eq m
  | dbLoop dbs =>
      cases dbs with
      | nil => rfl
      | cons db_name rest =>
          rw [Phase.left, Phase.next, List.flatMap_cons]
          cases hdb : m.db_map_.find? db_name with
          | none =>
              rw [outDb, hdb]
              rfl
          | some dms =>
              rw [outDb_eq hdb, Option.elim_some, Phase.left]
              simp only [List.append_assoc]
  | tabLoop db_name tabs dbs =>
      cases tabs with
      | nil => rfl
      | cons tab_name rest =>
          rw [Phase.left, Phase.next, Phase.left, List.flatMap_cons, List.append_assoc]
          rfl
  | nodeLoop nodes =>
      cases nodes with
      | nil => rfl
      | cons server_name rest => rfl

/-! ## The mutexes of the databases -/

/-- One request at a time has the mutex of a database, and `CreateTable` leaves the partition type of its table alone. -/
structure Held (s : State) : Prop where
  exclusive : ∀ (i j : Nat) (call call' : Call), s.calls[i]? = some call → s.calls[j]? = some call' →
    call.pc.latch = true → call'.pc.latch = true → call.request.db_name = call'.request.db_name → i = j
  untyped : ∀ (i : Nat) (call : Call) request todo locals, s.calls[i]? = some call → call.request = .CreateTable request →
    call.pc = .building todo locals →
    (∀ st ∈ todo, st.Unpartitioned) ∧ s.catalog.Untyped request.db_name request.tab_name

/-- One request moves. It gets the mutex when no other has it, and without it it changes nothing; with it, no table of another
    database. -/
theorem Held.move {pc : Pc} (h : Held s) (hcall : s.calls[i]? = some call)
    (hcalls : s'.calls = s.calls.set i { call with pc := pc })
    (hlatch : pc.latch = true → call.pc.latch = true ∨
      ∀ other ∈ s.calls, other.request.db_name = call.request.db_name → other.pc.latch = false)
    (hcatalog : s'.catalog = s.catalog ∨ call.pc.latch = true ∧ ∀ db_name tab_name, db_name ≠ call.request.db_name →
      s'.catalog.table? db_name tab_name = s.catalog.table? db_name tab_name)
    (hself : ∀ request todo locals, call.request = .CreateTable request → pc = .building todo locals →
      (∀ st ∈ todo, st.Unpartitioned) ∧ s'.catalog.Untyped request.db_name request.tab_name) : Held s' := by
  -- the others that have a mutex have one of another database, or the request has had it before
  have hsole : ∀ (j : Nat) (other : Call), s.calls[j]? = some other → j ≠ i → other.pc.latch = true → pc.latch = true →
      call.request.db_name ≠ other.request.db_name := by
    intro j other hother hj hheld hnow hdb
    rcases hlatch hnow with hbefore | hfree
    · exact hj (h.exclusive i j call other hcall hother hbefore hheld hdb).symm
    · rw [hfree other (List.mem_of_getElem? hother) hdb.symm] at hheld
      cases hheld
  constructor
  · intro j k r r' hr hr' hheld hheld' hdb
    rw [hcalls] at hr hr'
    rcases Slots.get_set hr with ⟨rfl, rfl⟩ | ⟨hj, hold⟩
    · rcases Slots.get_set hr' with ⟨rfl, -⟩ | ⟨hk, hold'⟩
      · rfl
      · exact absurd hdb (hsole k r' hold' hk hheld' hheld)
    · rcases Slots.get_set hr' with ⟨rfl, rfl⟩ | ⟨-, hold'⟩
      · exact absurd hdb.symm (hsole j r hold hj hheld hheld')
      · exact h.exclusive j k r r' hold hold' hheld hheld' hdb
  · intro j r request todo locals hr hrequest hpc
    rw [hcalls] at hr
    rcases Slots.get_set hr with ⟨-, rfl⟩ | ⟨hj, hold⟩
    · exact hself request todo locals hrequest hpc
    · obtain ⟨htodo, htable⟩ := h.untyped j r request todo locals hold hrequest hpc
      refine ⟨htodo, ?_⟩
      rcases hcatalog with hsame | ⟨hheld, hother⟩
      · rw [hsame]
        exact htable
      · have hdb : request.db_name ≠ call.request.db_name := by
          intro hdb
          refine hj (h.exclusive j i r call hold hcall (by rw [hpc]; rfl) hheld ?_)
          rw [hrequest]
          exact hdb
        intro tms htms
        rw [hother _ _ hdb] at htms
        exact htable tms htms

/-- The last assignment of a request changes nothing. -/
theorem Held.last (h : Held s) (hcall : s.calls[i]? = some call) {locals : Locals} (hpc : call.pc = .building [] locals) :
    call.request.last s.catalog = s.catalog := by
  cases hrequest : call.request with
  | CreateTable request => exact (h.untyped i call request [] locals hcall hrequest hpc).2.last
  | CreatePartitionTable request => rfl

theorem Held.step {e : Event} (h : Held s) (hst : FunStep step s e s') : Held s' := by
  cases step_cases hst with
  | @request request =>
      constructor
      · intro j k r r' hr hr' hheld hheld' hdb
        rcases Slots.get_snoc hr with hold | ⟨-, rfl⟩
        · rcases Slots.get_snoc hr' with hold' | ⟨-, rfl⟩
          · exact h.exclusive j k r r' hold hold' hheld hheld' hdb
          · cases hheld'
        · cases hheld
      · intro j r request todo locals hr hrequest hpc
        rcases Slots.get_snoc hr with hold | ⟨-, rfl⟩
        · exact h.untyped j r request todo locals hold hrequest hpc
        · cases hpc
  | share hcall hpc hsaver =>
      refine h.move hcall rfl ?_ (Or.inl rfl) ?_
      · intro hheld
        split at hheld <;> cases hheld
      · intro request todo locals hrequest hbuilding
        split at hbuilding <;> cases hbuilding
  | latch hcall hpc hfree =>
      refine h.move hcall rfl (fun _ => Or.inr hfree) (Or.inl rfl) ?_
      intro request todo locals hrequest hbuilding
      cases hbuilding
  | check hcall hpc hdb =>
      refine h.move hcall rfl (fun _ => Or.inl (by rw [hpc]; rfl)) (Or.inl rfl) ?_
      intro request todo locals hrequest hbuilding
      split at hbuilding <;> cases hbuilding
  | @insert i order location call db tabs hcall hpc hdb htabs =>
      have hheld : call.pc.latch = true := by rw [hpc]; rfl
      refine h.move hcall rfl (fun _ => Or.inl hheld) (Or.inr ⟨hheld, fun _ _ => Write.table?_ne _⟩) ?_
      intro request todo locals hrequest hbuilding
      obtain ⟨rfl, -⟩ := Pc.building.inj hbuilding
      rw [hrequest] at hdb htabs ⊢
      refine ⟨unpartitioned_statements request, ?_⟩
      intro tms htms
      have hnew : (State.write s i call (.insert order location)).catalog.table? request.db_name request.tab_name =
          some (newTable location) := by
        rw [State.write, hrequest]
        exact Write.table?_insert hdb htabs
      obtain rfl := Option.some.inj (hnew.symm.trans htms)
      rfl
  | @run i call st todo locals locals' w hcall hpc hrun =>
      have hheld : call.pc.latch = true := by rw [hpc]; rfl
      cases w with
      | none =>
          refine h.move hcall rfl (fun _ => Or.inl hheld) (Or.inl rfl) ?_
          intro request todo' locals'' hrequest hbuilding
          obtain ⟨rfl, -⟩ := Pc.building.inj hbuilding
          obtain ⟨htodo, htable⟩ := h.untyped i call request _ _ hcall hrequest hpc
          exact ⟨fun st hst => htodo st (List.mem_cons_of_mem _ hst), htable⟩
      | some w =>
          refine h.move hcall rfl (fun _ => Or.inl hheld) (Or.inr ⟨hheld, fun _ _ => Write.table?_ne w⟩) ?_
          intro request todo' locals'' hrequest hbuilding
          obtain ⟨rfl, -⟩ := Pc.building.inj hbuilding
          obtain ⟨htodo, htable⟩ := h.untyped i call request _ _ hcall hrequest hpc
          refine ⟨fun st hst => htodo st (List.mem_cons_of_mem _ hst), ?_⟩
          show (w.apply call.request.db_name call.request.tab_name s.catalog).Untyped request.db_name request.tab_name
          rw [hrequest] at hrun ⊢
          exact htable.apply ((htodo st List.mem_cons_self).run hrun)
  | leave hcall hpc =>
      refine h.move hcall rfl ?_ (Or.inl (h.last hcall hpc)) ?_
      · intro hheld
        cases hheld
      · intro request todo locals hrequest hbuilding
        cases hbuilding
  | lock | write | unlock => exact ⟨h.exclusive, h.untyped⟩

/-! ## The catalog and the writes -/

theorem apply_snoc (m : MetaServer) (log : List Logged) (l : Logged) :
    apply m (log ++ [l]) = l.write.apply l.db_name l.tab_name (apply m log) := List.foldl_concat _ _ _ _

/-- Whatever the requests do, the catalog is what their writes make. -/
structure Made (s : State) : Prop where
  catalog : s.catalog = apply s.start s.log
  logged : ∀ l ∈ s.log, ∃ call, s.calls[l.call]? = some call ∧ (call.pc.Building ∨ call.pc.Done)

theorem building_or_done (todo : List Statement) (locals : Locals) :
    (Pc.building todo locals).Building ∨ (Pc.building todo locals).Done := by
  cases todo with
  | nil => exact Or.inr trivial
  | cons => exact Or.inl trivial

/-- One request moves, and does not leave its table. -/
theorem logged_move {pc : Pc} {l : Logged}
    (h : ∃ call, s.calls[l.call]? = some call ∧ (call.pc.Building ∨ call.pc.Done)) (hcall : s.calls[i]? = some call)
    (hpc : call.pc.Building ∨ call.pc.Done → pc.Building ∨ pc.Done) :
    ∃ call', (s.calls.set i { call with pc := pc })[l.call]? = some call' ∧ (call'.pc.Building ∨ call'.pc.Done) := by
  obtain ⟨r, hr, hstands⟩ := h
  by_cases hi : l.call = i
  · subst hi
    obtain rfl := Option.some.inj (hcall.symm.trans hr)
    exact ⟨_, Slots.get_set_self hcall, hpc hstands⟩
  · exact ⟨r, (List.getElem?_set_ne (Ne.symm hi)).trans hr, hstands⟩

/-- A write of a request that then stands in its table, or has finished it. -/
theorem Made.write {pc : Pc} (h : Made s) (hcall : s.calls[i]? = some call) (w : Write) (hpc : pc.Building ∨ pc.Done) :
    Made ((s.write i call w).setPc i call pc) := by
  constructor
  · show w.apply call.request.db_name call.request.tab_name s.catalog = apply s.start (s.log ++ [_])
    rw [apply_snoc, ← h.catalog]
  · intro l hl
    rcases List.mem_append.mp hl with hold | hnew
    · exact logged_move (h.logged l hold) hcall fun _ => hpc
    · obtain rfl := List.mem_singleton.mp hnew
      exact ⟨_, Slots.get_set_self hcall, hpc⟩

theorem Made.step {e : Event} (h : Made s) (hheld : Held s) (hst : FunStep step s e s') : Made s' := by
  cases step_cases hst with
  | request =>
      refine ⟨h.catalog, fun l hl => ?_⟩
      obtain ⟨call, hcall, hstands⟩ := h.logged l hl
      exact ⟨call, (List.getElem?_append_left (List.getElem?_eq_some_iff.mp hcall).1).trans hcall, hstands⟩
  | share hcall hpc | latch hcall hpc | check hcall hpc =>
      refine ⟨h.catalog, fun l hl => logged_move (h.logged l hl) hcall ?_⟩
      rw [hpc]
      rintro (hstands | hstands) <;> exact hstands.elim
  | insert hcall => exact h.write hcall _ (building_or_done _ _)
  | @run i call st todo locals locals' w hcall =>
      cases w with
      | none => exact ⟨h.catalog, fun l hl => logged_move (h.logged l hl) hcall fun _ => building_or_done _ _⟩
      | some w => exact h.write hcall w (building_or_done _ _)
  | leave hcall hpc =>
      refine ⟨(hheld.last hcall hpc).trans h.catalog, fun l hl => logged_move (h.logged l hl) hcall fun _ => Or.inr trivial⟩
  | lock | write | unlock => exact ⟨h.catalog, h.logged⟩

/-! ## Consistent files -/

/-- A request that is done stays so, and writes no more. -/
theorem State.Consistent.step {e : Event} {file : List Put} (h : s.Consistent file) (hst : FunStep step s e s') :
    s'.Consistent file := by
  obtain ⟨A, hdone, rfl⟩ := h
  -- the request that moves is not one of them, unless it leaves
  have hmove : ∀ {i : Nat} {call : Call} {pc : Pc}, s.calls[i]? = some call → (call.pc.Done → pc.Done) →
      ∀ j ∈ A, ∃ call', (s.calls.set i { call with pc := pc })[j]? = some call' ∧ call'.pc.Done := by
    intro i call pc hcall hpc j hj
    obtain ⟨r, hr, hstands⟩ := hdone j hj
    by_cases hi : j = i
    · subst hi
      obtain rfl := Option.some.inj (hcall.symm.trans hr)
      exact ⟨_, Slots.get_set_self hcall, hpc hstands⟩
    · exact ⟨r, (List.getElem?_set_ne (Ne.symm hi)).trans hr, hstands⟩
  have hwrite : ∀ {i : Nat} {call : Call} {w : Write}, s.calls[i]? = some call → ¬ call.pc.Done →
      (s.write i call w).made A = s.made A := by
    intro i call w hcall hpc
    have hi : i ∉ A := by
      intro hi
      obtain ⟨r, hr, hstands⟩ := hdone i hi
      obtain rfl := Option.some.inj (hcall.symm.trans hr)
      exact hpc hstands
    rw [State.made, State.made, State.write, List.filter_append, List.filter_cons_of_neg (by simpa using hi),
      List.filter_nil, List.append_nil]
  cases step_cases hst with
  | request =>
      refine ⟨A, fun j hj => ?_, rfl⟩
      obtain ⟨r, hr, hstands⟩ := hdone j hj
      exact ⟨r, (List.getElem?_append_left (List.getElem?_eq_some_iff.mp hr).1).trans hr, hstands⟩
  | share hcall hpc | latch hcall hpc | check hcall hpc =>
      refine ⟨A, hmove hcall ?_, rfl⟩
      rw [hpc]
      exact fun hstands => hstands.elim
  | insert hcall hpc =>
      have hnot : ¬ (Pc.accepted).Done := id
      refine ⟨A, hmove hcall fun hstands => absurd hstands (by rw [hpc]; exact hnot), ?_⟩
      exact congrArg MetaServer.out (hwrite hcall (by rw [hpc]; exact hnot)).symm
  | @run i call st todo locals locals' w hcall hpc hrun =>
      have hnot : ¬ call.pc.Done := by
        rw [hpc]
        exact id
      cases w with
      | none => exact ⟨A, hmove hcall fun hstands => absurd hstands hnot, rfl⟩
      | some w => exact ⟨A, hmove hcall fun hstands => absurd hstands hnot, congrArg MetaServer.out (hwrite hcall hnot).symm⟩
  | leave hcall hpc => exact ⟨A, hmove hcall fun _ => trivial, rfl⟩
  | lock | write | unlock => exact ⟨A, hdone, rfl⟩

/-! ## One request alone -/

/-- **Steps of one request** in a row: what is left of it gives what all of it gives. -/
theorem runAll_run {request : Request} {todo : List Statement} {locals : Locals} {n : Nat}
    (hcall : s.calls[i]? = some ⟨request, .building todo locals⟩)
    (hrun : Run (FunStep step) s (List.replicate n (.run i)) s') :
    ∃ todo' locals', s'.calls[i]? = some ⟨request, .building todo' locals'⟩ ∧
      runAll request.db_name request.tab_name todo (s.catalog, locals) =
        runAll request.db_name request.tab_name todo' (s'.catalog, locals') := by
  induction n generalizing s' with
  | zero =>
      obtain rfl := hrun.nil_inv
      exact ⟨todo, locals, hcall, rfl⟩
  | succ n ih =>
      rw [List.replicate_succ'] at hrun
      obtain ⟨t, ht, hst⟩ := hrun.snoc_inv
      obtain ⟨todo', locals', hcall', hleft⟩ := ih ht
      cases step_cases hst with
      | @run i call st rest before after w hcall'' hpc hst =>
          obtain rfl := Option.some.inj (hcall'.symm.trans hcall'')
          obtain ⟨rfl, rfl⟩ := Pc.building.inj hpc
          refine ⟨rest, after, ?_, ?_⟩
          · cases w with
            | none => exact Slots.get_set_self hcall'
            | some w => exact Slots.get_set_self hcall'
          · rw [hleft, runAll, hst]
            cases w with
            | none => rfl
            | some w => rfl

/-- **A request that nothing comes between** is a request of `MetaService`. -/
theorem handled_alone {order : Order Bytes TabMetaServer} {location : table_oid_t × DuplicateType} {n : Nat} (h : Held s)
    (hrun : Run (FunStep step) s (.check i :: .insert i order location :: (List.replicate n (.run i) ++ [.leave i])) s') :
    ∃ e, s.catalog.handle e = some s'.catalog := by
  obtain ⟨s₁, hcheck, hrun₁⟩ := hrun.cons_inv
  obtain ⟨s₂, hinsert, hrun₂⟩ := hrun₁.cons_inv
  obtain ⟨s₃, hrun₃, hleave⟩ := hrun₂.snoc_inv
  have h₂ : Held s₂ := (h.step hcheck).step hinsert
  have h₃ : Held s₃ := hrun₃.invariant (fun _ _ _ ht hst => ht.step hst) h₂
  cases step_cases hcheck with
  | @check i call db hcall hpc hdb =>
      cases step_cases hinsert with
      | insert hcall₁ hpc₁ hdb₁ htabs =>
          obtain rfl := Option.some.inj ((Slots.get_set_self hcall).symm.trans hcall₁)
          obtain rfl := Option.some.inj (hdb.symm.trans hdb₁)
          have haccepts : call.request.Accepts s.catalog db := by
            by_contra hnot
            rw [if_neg hnot] at hpc₁
            cases hpc₁
          obtain ⟨todo, locals, hcall₃, hall⟩ := runAll_run (Slots.get_set_self hcall₁) hrun₃
          cases step_cases hleave with
          | leave hcall' hpc' =>
              obtain rfl := Option.some.inj (hcall₃.symm.trans hcall')
              obtain ⟨rfl, rfl⟩ := Pc.building.inj hpc'
              show ∃ e, s.catalog.handle e = some (call.request.last s₃.catalog)
              rw [h₃.last hcall' rfl]
              obtain ⟨request, pc⟩ := call
              cases request with
              | CreateTable request =>
                  obtain ⟨order', horder'⟩ := CreateTable_statements hdb haccepts htabs hall
                  exact ⟨.CreateTable order' location request, by rw [handle, horder']; rfl⟩
              | CreatePartitionTable request =>
                  obtain ⟨hnew, htype, hreplicas⟩ := haccepts
                  obtain ⟨order', horder'⟩ := CreatePartitionTable_statements hdb hnew htype hreplicas htabs hall
                  exact ⟨.CreatePartitionTable order' request, by rw [handle, horder']; rfl⟩

end SaveMeta
end DDBMS
