import DDBMS.MetaServer.MetaService

/-!
# `MetaServer.CreateStatements` — the requests that create a table, statement by statement

What `CreateTable` and `CreatePartitionTable` do with the mutex of their database (`meta_server/meta_server_rpc.cpp`). The new
`TabMetaServer` goes into the table map first, and is filled in there. A `Statement` is what the source says; a `Write` is
what it does to the catalog, with the values that it has found.

All statements in a row are `MetaServer.CreateTable` (`CreateTable_statements`) and `MetaServer.CreatePartitionTable`
(`CreatePartitionTable_statements`).
-/

namespace DDBMS
namespace MetaServer

/-! ## Writes -/

/-- A field of the new table. -/
inductive Field where
  | name (name : Bytes)
  | column_name (column_name : Bytes)
  | column_type (column_type : ColType)
  | oid (oid : table_oid_t)
  | partition_key_name (partition_key_name : Bytes)
  | partition_cnt_ (partition_cnt_ : partition_id_t)
  | partition_type (partition_type : PartitionType)
  | partition_key_type (partition_key_type : ColType)
  | partitions (pm : ParMeta)
  | table_id (table_id : table_oid_t)
  | duplicate_type (duplicate_type : DuplicateType)
  | partition_list (loc : PhyPartitionLocation)
  deriving Repr

/-- The assignment, or the `push_back`. -/
def Field.set (tms : TabMetaServer) : Field → TabMetaServer
  | .name v => { tms with name := v }
  | .column_name v => { tms with col_info := ⟨tms.col_info.column_name ++ [v], tms.col_info.column_type⟩ }
  | .column_type v => { tms with col_info := ⟨tms.col_info.column_name, tms.col_info.column_type ++ [v]⟩ }
  | .oid v => { tms with oid := v }
  | .partition_key_name v => { tms with partition_key_name := v }
  | .partition_cnt_ v => { tms with partition_cnt_ := v }
  | .partition_type v => { tms with partition_type := v }
  | .partition_key_type v => { tms with partition_key_type := v }
  | .partitions pm => { tms with partitions := tms.partitions ++ [pm] }
  | .table_id v => { tms with table_location_ := { tms.table_location_ with table_oid_ := v } }
  | .duplicate_type v => { tms with table_location_ := { tms.table_location_ with duplicate_type_ := v } }
  | .partition_list loc =>
    { tms with table_location_ := { tms.table_location_ with partiton_list_ := tms.table_location_.partiton_list_ ++ [loc] } }

inductive Write where
  /-- the new table goes into the map -/
  | insert (order : Order Bytes TabMetaServer) (location : table_oid_t × DuplicateType)
  | field (field : Field)
  | next_oid (next_oid : table_oid_t)
  | leader_par_cnt (server_name : Bytes)
  | follower_par_cnt (server_name : Bytes)

/-- `new TabMetaServer()`; `location` is as for `CreateTable`. -/
def newTable (location : table_oid_t × DuplicateType) : TabMetaServer :=
  { oid := 0, name := [], col_info := ⟨[], []⟩, partition_type := PartitionType.NONE_PARTITION, partition_key_name := [],
    partition_key_type := ColType.TYPE_INT, partition_cnt_ := 0, partitions := [],
    table_location_ := ⟨location.1, location.2, []⟩ }

def modifyDb (m : MetaServer) (db_name : Bytes) (f : DbMetaServer → DbMetaServer) : MetaServer :=
  { m with db_map_ := m.db_map_.modify db_name f }

def modifyNode (m : MetaServer) (server_name : Bytes) (f : Node → Node) : MetaServer :=
  { m with ip_node_map_ := m.ip_node_map_.modify server_name f }

/-- A write of the request that creates `tab_name` in `db_name`. -/
def Write.apply (db_name tab_name : Bytes) (m : MetaServer) : Write → MetaServer
  | .insert order location => m.modifyDb db_name fun db =>
    { db with tabs_ := (db.tabs_.assign order tab_name (newTable location)).getD db.tabs_ }
  | .field f => m.modifyDb db_name fun db => { db with tabs_ := db.tabs_.modify tab_name fun tms => f.set tms }
  | .next_oid oid => m.modifyDb db_name fun db => { db with next_oid_ := oid }
  | .leader_par_cnt server_name =>
    m.modifyNode server_name fun node => { node with leader_par_cnt := node.leader_par_cnt + 1 }
  | .follower_par_cnt server_name =>
    m.modifyNode server_name fun node => { node with follower_par_cnt := node.follower_par_cnt + 1 }

/-! ## Statements -/

inductive Statement where
  /-- a field gets a value of the request -/
  | field (field : Field)
  /-- a repeated field of the request is read behind its end -/
  | behindEnd
  /-- `tms->oid = get_next_oid()` -/
  | oid
  /-- `set_next_oid(tms->oid + 1)` -/
  | next_oid
  /-- `set_table_id(tms->oid)` -/
  | table_id
  /-- the search for the leader, and its place in `replic_loc` -/
  | leader
  | leader_par_cnt
  /-- the search for a follower, and its place in `replic_loc` -/
  | follower
  | follower_par_cnt
  /-- `mutable_partition_list().push_back(loc)` -/
  | location (p_id : partition_id_t) (replica_cnt : Int32)
  deriving Repr

/-- The variables of the loop over the partitions: `min_leader_node` or `min_follower_node` with its name, `replic_loc`,
    and `s`. -/
structure Locals where
  node : Option (Bytes × Node) := none
  replic_loc : List ReplicaLocation := []
  s : List Bytes := []
  deriving Repr, DecidableEq

def table? (m : MetaServer) (db_name tab_name : Bytes) : Option TabMetaServer := do
  let db ← m.db_map_.find? db_name
  db.tabs_.find? tab_name

/-- What a statement writes, if anything, and the variables after it. -/
def Statement.run (db_name tab_name : Bytes) (m : MetaServer) (locals : Locals) : Statement → Option (Option Write × Locals)
  | .field f => some (some (.field f), locals)
  | .behindEnd => none
  | .oid => do
    let db ← m.db_map_.find? db_name
    some (some (.field (.oid db.next_oid_)), locals)
  | .next_oid => do
    let tms ← m.table? db_name tab_name
    some (some (.next_oid (tms.oid + 1)), locals)
  | .table_id => do
    let tms ← m.table? db_name tab_name
    some (some (.field (.table_id tms.oid)), locals)
  | .leader => do
    let (server_name, node) ← pickNode Node.activate Node.leader_par_cnt m.ip_node_map_.entries
    some (none, ⟨some (server_name, node), [⟨node.ip_addr, node.port, Replica_Role.Leader⟩], []⟩)
  | .leader_par_cnt => do
    let (server_name, node) ← locals.node
    some (some (.leader_par_cnt server_name), { locals with s := node.ip_addr :: locals.s })
  | .follower => do
    let (server_name, node) ← pickNode (fun node => node.activate && !locals.s.contains node.ip_addr)
      Node.follower_par_cnt m.ip_node_map_.entries
    some (none, { locals with
      node := some (server_name, node)
      replic_loc := locals.replic_loc ++ [⟨node.ip_addr, node.port, Replica_Role.Follower⟩] })
  | .follower_par_cnt => do
    let (server_name, node) ← locals.node
    some (some (.follower_par_cnt server_name), { locals with s := node.ip_addr :: locals.s })
  | .location p_id replica_cnt => do
    let tms ← m.table? db_name tab_name
    some (some (.field (.partition_list ⟨tms.oid, p_id, replica_cnt, locals.replic_loc⟩)), locals)

/-- The loop over the columns. -/
def columnStatements : List Bytes → List Int32 → List Statement
  | [], _ => []
  | name :: col_name, [] => .field (.column_name name) :: .behindEnd :: columnStatements col_name []
  | name :: col_name, type :: col_type =>
    .field (.column_name name) :: .field (.column_type type) :: columnStatements col_name col_type

/-- The first `switch`. -/
def typeStatements (partition_key_type : Int32) : List Statement :=
  if partition_key_type = PartitionType.RANGE_PARTITION then [.field (.partition_type PartitionType.RANGE_PARTITION)]
  else if partition_key_type = PartitionType.HASH_PARTITION then [.field (.partition_type PartitionType.HASH_PARTITION)]
  else []

/-- The second `switch`. -/
def keyStatements (partition_key_type : Int32) : List Statement :=
  if partition_key_type = ColType.TYPE_INT then [.field (.partition_key_type ColType.TYPE_INT)]
  else if partition_key_type = ColType.TYPE_STRING then [.field (.partition_key_type ColType.TYPE_STRING)]
  else if partition_key_type = ColType.TYPE_FLOAT then [.field (.partition_key_type ColType.TYPE_FLOAT)]
  else []

/-- The loop that pushes the partitions. -/
def partitionStatements (range : List StringRange) (cnt : Nat) : List Statement :=
  (List.range cnt).map fun i => match range[i]? with
    | some r => .field (.partitions ⟨112 :: decimalNat i, Int32.ofNat i, r.min_range, r.max_range⟩)
    | none => .behindEnd

/-- The nodes of one partition. -/
def placeStatements (replica_cnt : Int32) (p_id : partition_id_t) : List Statement :=
  [.leader, .leader_par_cnt] ++ (List.replicate (replica_cnt.toInt - 1).toNat [Statement.follower, .follower_par_cnt]).flatten ++
    [.location p_id replica_cnt]

end MetaServer

open MetaServer

/-- `CreateTable`, but for the last assignment, of `partition_type`. -/
def CreateTableRequest.statements (request : CreateTableRequest) : List Statement :=
  .field (.name request.tab_name) :: (columnStatements request.col_name request.col_type ++ [.oid, .next_oid])

/-- `CreatePartitionTable`. -/
def CreatePartitonTableRequest.statements (request : CreatePartitonTableRequest) : List Statement :=
  .field (.name request.tab_name) :: (columnStatements request.col_name request.col_type ++
    [.oid, .next_oid, .field (.partition_key_name request.partition_key_name),
      .field (.partition_cnt_ request.partition_cnt)] ++
    typeStatements request.partition_key_type ++ keyStatements request.partition_key_type ++
    partitionStatements request.range request.partition_cnt.toInt.toNat ++
    [.table_id, .field (.duplicate_type
      (if request.has_replica then DuplicateType.DUPLICATE else DuplicateType.NOT_DUPLICATE))] ++
    (List.range request.partition_cnt.toInt.toNat).flatMap fun i => placeStatements request.replica_cnt (Int32.ofNat i))

namespace MetaServer

/-- Statements in a row. -/
def runAll (db_name tab_name : Bytes) : List Statement → MetaServer × Locals → Option (MetaServer × Locals)
  | [], ml => some ml
  | st :: sts, ml => do
    let (write, locals) ← st.run db_name tab_name ml.1 ml.2
    runAll db_name tab_name sts (write.elim ml.1 fun w => w.apply db_name tab_name ml.1, locals)

/-! ## What a write leaves alone -/

section Frame

variable {m : MetaServer} {db_name tab_name db_name' tab_name' : Bytes}

theorem find?_modifyDb_self (f : DbMetaServer → DbMetaServer) :
    (m.modifyDb db_name f).db_map_.find? db_name = (m.db_map_.find? db_name).map f := UnorderedMap.find?_modify_self f

/-- A write changes no other database. -/
theorem Write.find?_ne (w : Write) (h : db_name' ≠ db_name) :
    (w.apply db_name tab_name m).db_map_.find? db_name' = m.db_map_.find? db_name' := by
  cases w with
  | insert | field | next_oid => exact UnorderedMap.find?_modify_ne _ h
  | leader_par_cnt | follower_par_cnt => rfl

theorem Write.table?_ne (w : Write) (h : db_name' ≠ db_name) :
    (w.apply db_name tab_name m).table? db_name' tab_name' = m.table? db_name' tab_name' := by
  rw [table?, table?, w.find?_ne h]

theorem Write.keys (w : Write) : (w.apply db_name tab_name m).db_map_.keys = m.db_map_.keys := by
  cases w with
  | insert | field | next_oid => exact UnorderedMap.keys_modify _
  | leader_par_cnt | follower_par_cnt => rfl

/-- A write does the same to two catalogs where they are the same. -/
theorem Write.find?_congr (w : Write) {m' : MetaServer} (h : m.db_map_.find? db_name = m'.db_map_.find? db_name) :
    (w.apply db_name tab_name m).db_map_.find? db_name = (w.apply db_name tab_name m').db_map_.find? db_name := by
  cases w with
  | insert | field | next_oid =>
      rw [Write.apply, Write.apply, find?_modifyDb_self, find?_modifyDb_self, h]
  | leader_par_cnt | follower_par_cnt => exact h

theorem Write.nodes_congr (w : Write) {m' : MetaServer} (h : m.ip_node_map_ = m'.ip_node_map_) :
    (w.apply db_name tab_name m).ip_node_map_ = (w.apply db_name tab_name m').ip_node_map_ := by
  cases w with
  | insert | field | next_oid => exact h
  | leader_par_cnt | follower_par_cnt =>
      rw [Write.apply, Write.apply, modifyNode, modifyNode, h]

theorem Write.table?_insert {order : Order Bytes TabMetaServer} {location : table_oid_t × DuplicateType} {db : DbMetaServer}
    {tabs : UnorderedMap Bytes TabMetaServer} (hdb : m.db_map_.find? db_name = some db)
    (htabs : db.tabs_.assign order tab_name (newTable location) = some tabs) :
    ((Write.insert order location).apply db_name tab_name m).table? db_name tab_name = some (newTable location) := by
  rw [Write.apply, table?, find?_modifyDb_self, hdb]
  show ((db.tabs_.assign order tab_name (newTable location)).getD db.tabs_).find? tab_name = _
  rw [htabs]
  exact UnorderedMap.find?_assign_self htabs

theorem Write.table?_field (f : Field) : ((Write.field f).apply db_name tab_name m).table? db_name tab_name =
    (m.table? db_name tab_name).map f.set := by
  rw [Write.apply, table?, find?_modifyDb_self, table?]
  cases m.db_map_.find? db_name with
  | none => rfl
  | some db => exact UnorderedMap.find?_modify_self _

theorem Write.table?_next_oid (oid : table_oid_t) :
    ((Write.next_oid oid).apply db_name tab_name m).table? db_name tab_name = m.table? db_name tab_name := by
  rw [Write.apply, table?, find?_modifyDb_self, table?]
  cases m.db_map_.find? db_name <;> rfl

/-! ## The partition type of an unpartitioned table -/

/-- The table has the partition type that it was made with, if it is there. -/
def Untyped (m : MetaServer) (db_name tab_name : Bytes) : Prop :=
  ∀ tms, m.table? db_name tab_name = some tms → tms.partition_type = PartitionType.NONE_PARTITION

def Field.Untyped : Field → Prop
  | .partition_type _ => False
  | _ => True

/-- A statement that `CreateTable` may have. -/
def Statement.Unpartitioned : Statement → Prop
  | .field f => f.Untyped
  | .behindEnd | .oid | .next_oid => True
  | .table_id | .leader | .leader_par_cnt | .follower | .follower_par_cnt | .location _ _ => False

/-- A write that it may do then. -/
def Write.Unpartitioned : Write → Prop
  | .field f => f.Untyped
  | .next_oid _ => True
  | .insert _ _ | .leader_par_cnt _ | .follower_par_cnt _ => False

theorem Statement.Unpartitioned.run {st : Statement} {locals locals' : Locals} {w : Write} (h : st.Unpartitioned)
    (hrun : st.run db_name tab_name m locals = some (some w, locals')) : w.Unpartitioned := by
  cases st with
  | field f =>
      obtain ⟨hw, -⟩ := Prod.mk.inj (Option.some.inj hrun)
      obtain rfl := Option.some.inj hw
      exact h
  | behindEnd => cases hrun
  | oid | next_oid =>
      obtain ⟨x, -, hx⟩ := Option.bind_eq_some_iff.mp hrun
      obtain ⟨hw, -⟩ := Prod.mk.inj (Option.some.inj hx)
      obtain rfl := Option.some.inj hw
      exact trivial
  | table_id | leader | leader_par_cnt | follower | follower_par_cnt | location => exact h.elim

theorem Write.Unpartitioned.nodes {w : Write} (h : w.Unpartitioned) :
    (w.apply db_name tab_name m).ip_node_map_ = m.ip_node_map_ := by
  cases w with
  | insert | leader_par_cnt | follower_par_cnt => exact h.elim
  | field | next_oid => rfl

theorem Field.Untyped.set {f : Field} (h : f.Untyped) (tms : TabMetaServer) :
    (f.set tms).partition_type = tms.partition_type := by
  cases f with
  | partition_type => exact h.elim
  | _ => rfl

theorem Untyped.apply {w : Write} (h : m.Untyped db_name tab_name) (hw : w.Unpartitioned) :
    (w.apply db_name tab_name m).Untyped db_name tab_name := by
  intro tms htms
  cases w with
  | insert => exact hw.elim
  | field f =>
      rw [Write.table?_field] at htms
      obtain ⟨tms', htms', rfl⟩ := Option.map_eq_some_iff.mp htms
      rw [Field.Untyped.set hw]
      exact h tms' htms'
  | next_oid =>
      rw [Write.table?_next_oid] at htms
      exact h tms htms
  | leader_par_cnt | follower_par_cnt => exact hw.elim

/-- **The last assignment of `CreateTable`** writes what is there already. -/
theorem Untyped.last (h : m.Untyped db_name tab_name) :
    (Write.field (.partition_type PartitionType.NONE_PARTITION)).apply db_name tab_name m = m := by
  have htabs : ∀ db, m.db_map_.find? db_name = some db →
      db.tabs_.modify tab_name (Field.partition_type PartitionType.NONE_PARTITION).set = db.tabs_ := by
    intro db hdb
    apply UnorderedMap.modify_eq_self
    intro tms htms
    have htype := h tms (by rw [table?, hdb]; exact htms)
    show { tms with partition_type := PartitionType.NONE_PARTITION } = tms
    rw [← htype]
  rw [Write.apply, modifyDb, UnorderedMap.modify_eq_self]
  intro db hdb
  show { db with tabs_ := db.tabs_.modify tab_name (Field.partition_type PartitionType.NONE_PARTITION).set } = db
  rw [htabs db hdb]

theorem unpartitioned_columns {col_name : List Bytes} {col_type : List Int32} :
    ∀ st ∈ columnStatements col_name col_type, st.Unpartitioned := by
  induction col_name generalizing col_type with
  | nil => exact fun st hst => absurd hst List.not_mem_nil
  | cons name col_name ih =>
      cases col_type with
      | nil => exact List.forall_mem_cons.mpr ⟨trivial, List.forall_mem_cons.mpr ⟨trivial, ih⟩⟩
      | cons type col_type => exact List.forall_mem_cons.mpr ⟨trivial, List.forall_mem_cons.mpr ⟨trivial, ih⟩⟩

theorem unpartitioned_statements (request : CreateTableRequest) : ∀ st ∈ request.statements, st.Unpartitioned := by
  intro st hst
  rcases List.mem_cons.mp hst with rfl | hst
  · trivial
  · rcases List.mem_append.mp hst with hst | hst
    · exact unpartitioned_columns st hst
    · simp only [List.mem_cons, List.not_mem_nil, or_false] at hst
      rcases hst with rfl | rfl
      · trivial
      · trivial

end Frame

/-! ## The statements in a row -/

/-- What the statements of one request work on. -/
structure Draft where
  next_oid : table_oid_t
  nodes : UnorderedMap Bytes Node
  tms : TabMetaServer
  locals : Locals := {}

/-- The catalog with a draft in it; `m` is the catalog behind the insertion. -/
def Draft.catalog (d : Draft) (m : MetaServer) (db_name tab_name : Bytes) : MetaServer :=
  { m.modifyDb db_name fun db => { db with next_oid_ := d.next_oid, tabs_ := db.tabs_.modify tab_name fun _ => d.tms } with
    ip_node_map_ := d.nodes }

/-- A statement on a draft. -/
def Statement.exec (d : Draft) : Statement → Option Draft
  | .field f => some { d with tms := f.set d.tms }
  | .behindEnd => none
  | .oid => some { d with tms := { d.tms with oid := d.next_oid } }
  | .next_oid => some { d with next_oid := d.tms.oid + 1 }
  | .table_id => some { d with tms := (Field.table_id d.tms.oid).set d.tms }
  | .leader => do
    let (server_name, node) ← pickNode Node.activate Node.leader_par_cnt d.nodes.entries
    some { d with locals := ⟨some (server_name, node), [⟨node.ip_addr, node.port, Replica_Role.Leader⟩], []⟩ }
  | .leader_par_cnt => do
    let (server_name, node) ← d.locals.node
    some { d with
      nodes := d.nodes.modify server_name fun node => { node with leader_par_cnt := node.leader_par_cnt + 1 }
      locals := { d.locals with s := node.ip_addr :: d.locals.s } }
  | .follower => do
    let (server_name, node) ← pickNode (fun node => node.activate && !d.locals.s.contains node.ip_addr)
      Node.follower_par_cnt d.nodes.entries
    some { d with locals := { d.locals with
      node := some (server_name, node)
      replic_loc := d.locals.replic_loc ++ [⟨node.ip_addr, node.port, Replica_Role.Follower⟩] } }
  | .follower_par_cnt => do
    let (server_name, node) ← d.locals.node
    some { d with
      nodes := d.nodes.modify server_name fun node => { node with follower_par_cnt := node.follower_par_cnt + 1 }
      locals := { d.locals with s := node.ip_addr :: d.locals.s } }
  | .location p_id replica_cnt =>
    some { d with tms := (Field.partition_list ⟨d.tms.oid, p_id, replica_cnt, d.locals.replic_loc⟩).set d.tms }

section Drafts

variable {m : MetaServer} {db : DbMetaServer} {tms : TabMetaServer} {db_name tab_name : Bytes}

theorem Draft.find? (d : Draft) (hdb : m.db_map_.find? db_name = some db) :
    (d.catalog m db_name tab_name).db_map_.find? db_name =
      some { db with next_oid_ := d.next_oid, tabs_ := db.tabs_.modify tab_name fun _ => d.tms } := by
  show (m.modifyDb db_name _).db_map_.find? db_name = _
  rw [find?_modifyDb_self, hdb]
  rfl

theorem Draft.table? (d : Draft) (hdb : m.db_map_.find? db_name = some db) (htms : db.tabs_.find? tab_name = some tms) :
    (d.catalog m db_name tab_name).table? db_name tab_name = some d.tms := by
  rw [MetaServer.table?, d.find? hdb]
  show (db.tabs_.modify tab_name fun _ => d.tms).find? tab_name = _
  rw [UnorderedMap.find?_modify_self, htms]
  rfl

theorem modifyDb_modifyDb (f g : DbMetaServer → DbMetaServer) :
    (m.modifyDb db_name f).modifyDb db_name g = m.modifyDb db_name fun db => g (f db) := by
  rw [modifyDb, modifyDb, modifyDb, UnorderedMap.modify_modify]

/-- A field of the draft is set. -/
theorem Draft.apply_field (d : Draft) (f : Field) : (Write.field f).apply db_name tab_name (d.catalog m db_name tab_name) =
    { d with tms := f.set d.tms }.catalog m db_name tab_name := by
  have hdbs : (m.modifyDb db_name fun db => { db with
      next_oid_ := d.next_oid, tabs_ := db.tabs_.modify tab_name fun _ => d.tms }).modifyDb db_name (fun db =>
        { db with tabs_ := db.tabs_.modify tab_name fun tms => f.set tms }) =
      m.modifyDb db_name fun db => { db with
        next_oid_ := d.next_oid, tabs_ := db.tabs_.modify tab_name fun _ => f.set d.tms } := by
    rw [modifyDb_modifyDb]
    simp only [UnorderedMap.modify_modify]
  exact congrArg (fun m' : MetaServer => { m' with ip_node_map_ := d.nodes }) hdbs

theorem Draft.apply_next_oid (d : Draft) (oid : table_oid_t) :
    (Write.next_oid oid).apply db_name tab_name (d.catalog m db_name tab_name) =
      { d with next_oid := oid }.catalog m db_name tab_name := by
  have hdbs : (m.modifyDb db_name fun db => { db with
      next_oid_ := d.next_oid, tabs_ := db.tabs_.modify tab_name fun _ => d.tms }).modifyDb db_name (fun db =>
        { db with next_oid_ := oid }) =
      m.modifyDb db_name fun db => { db with next_oid_ := oid, tabs_ := db.tabs_.modify tab_name fun _ => d.tms } :=
    modifyDb_modifyDb _ _
  exact congrArg (fun m' : MetaServer => { m' with ip_node_map_ := d.nodes }) hdbs

/-- **A statement** does to the catalog what it does to the draft. -/
theorem Statement.run_exec (st : Statement) (d : Draft) (hdb : m.db_map_.find? db_name = some db)
    (htms : db.tabs_.find? tab_name = some tms) :
    (st.run db_name tab_name (d.catalog m db_name tab_name) d.locals).map (fun (w, locals) =>
      (w.elim (d.catalog m db_name tab_name) fun w => w.apply db_name tab_name (d.catalog m db_name tab_name), locals)) =
    (st.exec d).map fun d => (d.catalog m db_name tab_name, d.locals) := by
  cases st with
  | field f => exact congrArg some (congrArg (·, d.locals) (d.apply_field f))
  | behindEnd => rfl
  | oid =>
      rw [Statement.run, d.find? hdb]
      exact congrArg some (congrArg (·, d.locals) (d.apply_field (.oid d.next_oid)))
  | next_oid =>
      rw [Statement.run, d.table? hdb htms]
      exact congrArg some (congrArg (·, d.locals) (d.apply_next_oid _))
  | table_id =>
      rw [Statement.run, d.table? hdb htms]
      exact congrArg some (congrArg (·, d.locals) (d.apply_field _))
  | location p_id replica_cnt =>
      rw [Statement.run, d.table? hdb htms]
      exact congrArg some (congrArg (·, d.locals) (d.apply_field _))
  | leader =>
      rw [Statement.run, Statement.exec]
      show ((pickNode _ _ d.nodes.entries).bind _).map _ = ((pickNode _ _ d.nodes.entries).bind _).map _
      cases pickNode Node.activate Node.leader_par_cnt d.nodes.entries <;> rfl
  | follower =>
      rw [Statement.run, Statement.exec]
      show ((pickNode _ _ d.nodes.entries).bind _).map _ = ((pickNode _ _ d.nodes.entries).bind _).map _
      cases pickNode (fun node => node.activate && !d.locals.s.contains node.ip_addr) Node.follower_par_cnt
        d.nodes.entries <;> rfl
  | leader_par_cnt | follower_par_cnt =>
      obtain ⟨next_oid, nodes, tms, ⟨node, replic_loc, s⟩⟩ := d
      cases node <;> rfl

theorem runAll_exec (sts : List Statement) (d : Draft) (hdb : m.db_map_.find? db_name = some db)
    (htms : db.tabs_.find? tab_name = some tms) :
    runAll db_name tab_name sts (d.catalog m db_name tab_name, d.locals) =
      (sts.foldlM Statement.exec d).map fun d => (d.catalog m db_name tab_name, d.locals) := by
  induction sts generalizing d with
  | nil => rfl
  | cons st sts ih =>
      have hst := st.run_exec d hdb htms
      rw [runAll, List.foldlM_cons]
      cases hexec : st.exec d with
      | none =>
          rw [hexec, Option.map_none, Option.map_eq_none_iff] at hst
          simp only [hst, Option.bind_eq_bind, Option.bind_none, Option.map_none]
      | some d' =>
          rw [hexec, Option.map_some] at hst
          obtain ⟨⟨w, locals⟩, hrun, hw⟩ := Option.map_eq_some_iff.mp hst
          simp only [hrun, Option.bind_eq_bind, Option.bind_some]
          rw [← ih d']
          exact congrArg (runAll db_name tab_name sts) hw

end Drafts

/-! ## `CreateTable` and `CreatePartitionTable` -/

section Requests

variable {m m' : MetaServer} {db : DbMetaServer} {tabs : UnorderedMap Bytes TabMetaServer} {order : Order Bytes TabMetaServer}
  {location : table_oid_t × DuplicateType} {db_name tab_name : Bytes} {locals : Locals}

/-- A draft that is there already. -/
theorem Draft.catalog_self (d : Draft) (hnodes : m.ip_node_map_ = d.nodes) (hdb : m.db_map_.find? db_name = some db)
    (hoid : db.next_oid_ = d.next_oid) (htms : db.tabs_.find? tab_name = some d.tms) : d.catalog m db_name tab_name = m := by
  have htabs : db.tabs_.modify tab_name (fun _ => d.tms) = db.tabs_ :=
    UnorderedMap.modify_eq_self fun tms htms' => Option.some.inj (htms.symm.trans htms')
  rw [Draft.catalog, modifyDb, UnorderedMap.modify_eq_self, ← hnodes]
  intro db' hdb'
  obtain rfl := Option.some.inj (hdb.symm.trans hdb')
  rw [htabs, ← hoid]

/-- The database behind the insertion. -/
theorem find?_insert (hdb : m.db_map_.find? db_name = some db)
    (htabs : db.tabs_.assign order tab_name (newTable location) = some tabs) :
    ((Write.insert order location).apply db_name tab_name m).db_map_.find? db_name = some { db with tabs_ := tabs } := by
  rw [Write.apply, find?_modifyDb_self, hdb, Option.map_some, htabs]
  rfl

/-- A finished draft might have been put into the catalog as a whole. -/
theorem Draft.addTable (d : Draft) (hdb : m.db_map_.find? db_name = some db) (hnew : tab_name ∉ db.tabs_.keys)
    (htabs : db.tabs_.assign order tab_name (newTable location) = some tabs) (hname : d.tms.name = tab_name)
    (hoid : d.next_oid = db.next_oid_ + 1) : ∃ order', { m with ip_node_map_ := d.nodes }.addTable order' db db_name d.tms =
      some (d.catalog ((Write.insert order location).apply db_name tab_name m) db_name tab_name) := by
  obtain ⟨order', horder'⟩ := UnorderedMap.assign_modify hnew htabs d.tms
  refine ⟨order', ?_⟩
  have hdbs : m.db_map_.modify db_name (fun _ => { db with
      next_oid_ := d.next_oid, tabs_ := tabs.modify tab_name fun _ => d.tms }) =
      m.db_map_.modify db_name fun db' => { db' with
        next_oid_ := d.next_oid
        tabs_ := ((db'.tabs_.assign order tab_name (newTable location)).getD db'.tabs_).modify tab_name fun _ => d.tms } := by
    apply UnorderedMap.modify_congr
    intro db' hdb'
    obtain rfl := Option.some.inj (hdb.symm.trans hdb')
    rw [htabs, Option.getD_some]
  rw [MetaServer.addTable, hname, horder', ← hoid, Draft.catalog, Write.apply, modifyDb_modifyDb]
  exact congrArg (fun dbs => some (⟨dbs, d.nodes⟩ : MetaServer)) hdbs

/-- The statements behind the insertion have made a draft. -/
theorem runAll_insert {sts : List Statement} (hdb : m.db_map_.find? db_name = some db)
    (htabs : db.tabs_.assign order tab_name (newTable location) = some tabs)
    (hrun : runAll db_name tab_name sts ((Write.insert order location).apply db_name tab_name m, {}) = some (m', locals)) :
    ∃ d, sts.foldlM Statement.exec ⟨db.next_oid_, m.ip_node_map_, newTable location, {}⟩ = some d ∧
      d.catalog ((Write.insert order location).apply db_name tab_name m) db_name tab_name = m' := by
  have hdb₀ := find?_insert hdb htabs
  have htms := UnorderedMap.find?_assign_self htabs
  have hexec := runAll_exec sts ⟨db.next_oid_, m.ip_node_map_, newTable location, {}⟩ hdb₀ htms
  rw [Draft.catalog_self _ rfl hdb₀ rfl htms, hrun] at hexec
  obtain ⟨d, hd, hcatalog⟩ := Option.map_eq_some_iff.mp hexec.symm
  exact ⟨d, hd, congrArg Prod.fst hcatalog⟩

theorem exec_columns (col_name : List Bytes) (col_type : List Int32) (d : Draft) :
    (columnStatements col_name col_type).foldlM Statement.exec d = (columns col_name col_type).map fun cols =>
      { d with tms := { d.tms with col_info := ⟨d.tms.col_info.column_name ++ cols.column_name,
        d.tms.col_info.column_type ++ cols.column_type⟩ } } := by
  induction col_name generalizing col_type d with
  | nil =>
      have hcolumns : columns [] col_type = some ⟨[], []⟩ := by simp [columns]
      rw [hcolumns, Option.map_some, List.append_nil, List.append_nil]
      rfl
  | cons name col_name ih =>
      cases col_type with
      | nil => rfl
      | cons type col_type =>
          have hfold : (columnStatements (name :: col_name) (type :: col_type)).foldlM Statement.exec d =
              (columnStatements col_name col_type).foldlM Statement.exec
                { d with tms := (Field.column_type type).set ((Field.column_name name).set d.tms) } := rfl
          rw [hfold, ih]
          by_cases hlen : col_name.length ≤ col_type.length
          · have hlen' : (name :: col_name).length ≤ (type :: col_type).length := Nat.succ_le_succ hlen
            rw [columns, columns, if_pos hlen, if_pos hlen', Option.map_some, Option.map_some]
            simp only [Field.set, List.length_cons, List.take_succ_cons, List.append_assoc, List.singleton_append]
          · have hlen' : ¬ (name :: col_name).length ≤ (type :: col_type).length := fun h => hlen (Nat.le_of_succ_le_succ h)
            rw [columns, columns, if_neg hlen, if_neg hlen']
            rfl

/-- **`CreateTable`** is the insertion and its statements. -/
theorem CreateTable_statements {request : CreateTableRequest} (hdb : m.db_map_.find? request.db_name = some db)
    (hnew : request.tab_name ∉ db.tabs_.keys)
    (htabs : db.tabs_.assign order request.tab_name (newTable location) = some tabs)
    (hrun : runAll request.db_name request.tab_name request.statements
      ((Write.insert order location).apply request.db_name request.tab_name m, {}) = some (m', locals)) :
    ∃ order', m.CreateTable order' location request = some (m', some db.next_oid_) := by
  obtain ⟨d, hd, rfl⟩ := runAll_insert hdb htabs hrun
  rw [CreateTableRequest.statements, List.foldlM_cons, Statement.exec, Option.bind_eq_bind, Option.bind_some,
    List.foldlM_append, exec_columns] at hd
  obtain ⟨_, hmap, hd⟩ := Option.bind_eq_some_iff.mp hd
  obtain ⟨cols, hcols, rfl⟩ := Option.map_eq_some_iff.mp hmap
  have hd := Option.some.inj hd
  have hname : d.tms.name = request.tab_name := by subst hd; rfl
  have hoid : d.next_oid = db.next_oid_ + 1 := by subst hd; rfl
  obtain ⟨order', horder'⟩ := d.addTable hdb hnew htabs hname hoid
  subst hd
  refine ⟨order', ?_⟩
  rw [CreateTable, hdb]
  show (if request.tab_name ∈ db.tabs_.keys then _ else _) = _
  rw [if_neg hnew, hcols]
  exact congrArg (Option.bind · _) horder'

/-! ### The parts of `CreatePartitionTable` -/

/-- The first `switch`, on a table that has no type yet. -/
theorem exec_type (partition_key_type : Int32) (d : Draft) (h : d.tms.partition_type = PartitionType.NONE_PARTITION) :
    (typeStatements partition_key_type).foldlM Statement.exec d =
      some { d with tms := { d.tms with partition_type := partitionTypeOf partition_key_type } } := by
  rw [typeStatements, partitionTypeOf]
  by_cases hrange : partition_key_type = PartitionType.RANGE_PARTITION
  · rw [if_pos hrange, if_pos hrange]
    rfl
  · rw [if_neg hrange, if_neg hrange]
    by_cases hhash : partition_key_type = PartitionType.HASH_PARTITION
    · rw [if_pos hhash, if_pos hhash]
      rfl
    · rw [if_neg hhash, if_neg hhash, ← h]
      rfl

/-- The second `switch`. -/
theorem exec_key (partition_key_type : Int32) (d : Draft) (h : d.tms.partition_key_type = ColType.TYPE_INT) :
    (keyStatements partition_key_type).foldlM Statement.exec d =
      some { d with tms := { d.tms with partition_key_type := colTypeOf partition_key_type } } := by
  rw [keyStatements, colTypeOf]
  by_cases hint : partition_key_type = ColType.TYPE_INT
  · obtain rfl := hint
    rfl
  · rw [if_neg hint]
    by_cases hstring : partition_key_type = ColType.TYPE_STRING
    · rw [if_pos hstring, if_pos hstring]
      rfl
    · rw [if_neg hstring, if_neg hstring]
      by_cases hfloat : partition_key_type = ColType.TYPE_FLOAT
      · rw [if_pos hfloat, if_pos hfloat]
        rfl
      · rw [if_neg hfloat, if_neg hfloat, ← h]
        rfl

theorem exec_partitions (range : List StringRange) (cnt : Nat) (d : Draft) :
    (partitionStatements range cnt).foldlM Statement.exec d = (partitionsOf range cnt).map fun partitions =>
      { d with tms := { d.tms with partitions := d.tms.partitions ++ partitions } } := by
  induction cnt with
  | zero =>
      rw [partitionsOf, Option.map_some, List.append_nil]
      rfl
  | succ i ih =>
      rw [partitionStatements, List.range_succ, List.map_append, List.foldlM_append]
      show (List.foldlM Statement.exec d (partitionStatements range i)).bind _ = _
      rw [ih, partitionsOf]
      cases partitionsOf range i with
      | none => rfl
      | some partitions =>
          cases hr : range[i]? with
          | none => simp [hr, Statement.exec]
          | some r => simp [hr, Statement.exec, Field.set]

theorem p_id_partitionsOf {range : List StringRange} {cnt : Nat} {partitions : List ParMeta}
    (h : partitionsOf range cnt = some partitions) :
    partitions.map ParMeta.p_id = (List.range cnt).map fun i => Int32.ofNat i := by
  induction cnt generalizing partitions with
  | zero =>
      obtain rfl := Option.some.inj h
      rfl
  | succ i ih =>
      obtain ⟨before, hbefore, h⟩ := Option.bind_eq_some_iff.mp h
      obtain ⟨r, -, h⟩ := Option.bind_eq_some_iff.mp h
      obtain rfl := Option.some.inj h
      rw [List.map_append, ih hbefore, List.range_succ, List.map_append]
      rfl

theorem exec_followers {j : Nat} {d d' : Draft}
    (h : (List.replicate j [Statement.follower, .follower_par_cnt]).flatten.foldlM Statement.exec d = some d') :
    placeFollowers j d.nodes d.locals.s d.locals.replic_loc = some (d'.nodes, d'.locals.replic_loc) ∧ d'.tms = d.tms ∧
      d'.next_oid = d.next_oid := by
  induction j generalizing d with
  | zero =>
      obtain rfl := Option.some.inj h
      exact ⟨rfl, rfl, rfl⟩
  | succ j ih =>
      rw [List.replicate_succ, List.flatten_cons, List.foldlM_append] at h
      obtain ⟨d₁, hd₁, h⟩ := Option.bind_eq_some_iff.mp h
      obtain ⟨d₀, hd₀, hd₁⟩ := Option.bind_eq_some_iff.mp hd₁
      obtain ⟨⟨server_name, node⟩, hpick, hd₀⟩ := Option.bind_eq_some_iff.mp hd₀
      obtain rfl := Option.some.inj hd₀
      obtain rfl := Option.some.inj hd₁
      obtain ⟨hplace, htms, hoid⟩ := ih h
      refine ⟨?_, htms, hoid⟩
      rw [placeFollowers, hpick]
      exact hplace

/-- The nodes of one partition. -/
theorem exec_place {replica_cnt : Int32} {p_id : partition_id_t} {d d' : Draft}
    (h : (placeStatements replica_cnt p_id).foldlM Statement.exec d = some d') :
    ∃ replic_loc, placeReplicas replica_cnt d.nodes = some (d'.nodes, replic_loc) ∧
      d'.tms = (Field.partition_list ⟨d.tms.oid, p_id, replica_cnt, replic_loc⟩).set d.tms ∧ d'.next_oid = d.next_oid := by
  rw [placeStatements, List.foldlM_append, List.foldlM_append] at h
  obtain ⟨d₂, hd₂, h⟩ := Option.bind_eq_some_iff.mp h
  obtain ⟨d₁, hd₁, hd₂⟩ := Option.bind_eq_some_iff.mp hd₂
  obtain ⟨d₀, hd₀, hd₁⟩ := Option.bind_eq_some_iff.mp hd₁
  obtain ⟨⟨server_name, node⟩, hpick, hd₀⟩ := Option.bind_eq_some_iff.mp hd₀
  obtain rfl := Option.some.inj hd₀
  obtain rfl := Option.some.inj hd₁
  obtain ⟨hplace, htms, hoid⟩ := exec_followers hd₂
  obtain rfl := Option.some.inj h
  refine ⟨d₂.locals.replic_loc, ?_, ?_, hoid⟩
  · rw [placeReplicas, hpick]
    exact hplace
  · show (Field.partition_list ⟨d₂.tms.oid, p_id, replica_cnt, d₂.locals.replic_loc⟩).set d₂.tms = _
    rw [htms]

/-- The loop over the partitions. -/
theorem exec_places {replica_cnt : Int32} {partitions : List ParMeta} {d d' : Draft}
    (h : (partitions.flatMap fun pm => placeStatements replica_cnt pm.p_id).foldlM Statement.exec d = some d') :
    ∃ locs, placePartitions d.tms.oid replica_cnt partitions d.nodes = some (d'.nodes, locs) ∧
      d'.tms = { d.tms with table_location_ := { d.tms.table_location_ with
        partiton_list_ := d.tms.table_location_.partiton_list_ ++ locs } } ∧
      d'.next_oid = d.next_oid := by
  induction partitions generalizing d with
  | nil =>
      obtain rfl := Option.some.inj h
      exact ⟨[], rfl, by rw [List.append_nil], rfl⟩
  | cons pm partitions ih =>
      rw [List.flatMap_cons, List.foldlM_append] at h
      obtain ⟨d₁, hd₁, h⟩ := Option.bind_eq_some_iff.mp h
      obtain ⟨replic_loc, hplace, htms₁, hoid₁⟩ := exec_place hd₁
      obtain ⟨locs, hplaces, htms, hoid⟩ := ih h
      refine ⟨⟨d.tms.oid, pm.p_id, replica_cnt, replic_loc⟩ :: locs, ?_, ?_, hoid.trans hoid₁⟩
      · rw [htms₁] at hplaces
        exact placePartitions_cons_iff.mpr ⟨_, _, _, hplace, hplaces, rfl⟩
      · rw [htms, htms₁]
        simp only [Field.set, List.append_assoc, List.singleton_append]

/-- **`CreatePartitionTable`** is the insertion and its statements. -/
theorem CreatePartitionTable_statements {request : CreatePartitonTableRequest}
    (hdb : m.db_map_.find? request.db_name = some db) (hnew : request.tab_name ∉ db.tabs_.keys)
    (htype : request.partition_type ≠ PartitionType.NONE_PARTITION)
    (hreplicas : ¬ size_t request.replica_cnt < m.ip_node_map_.size)
    (htabs : db.tabs_.assign order request.tab_name (newTable location) = some tabs)
    (hrun : runAll request.db_name request.tab_name request.statements
      ((Write.insert order location).apply request.db_name request.tab_name m, {}) = some (m', locals)) :
    ∃ order', m.CreatePartitionTable order' request = some (m', some db.next_oid_) := by
  obtain ⟨d, hd, rfl⟩ := runAll_insert hdb htabs hrun
  rw [CreatePartitonTableRequest.statements, List.foldlM_cons, Statement.exec, Option.bind_eq_bind, Option.bind_some] at hd
  simp only [List.foldlM_append, exec_columns] at hd
  -- the drafts between the loops and the `switch`es, the last one first
  obtain ⟨d₆, hd₆, hplaces⟩ := Option.bind_eq_some_iff.mp hd
  obtain ⟨d₅, hd₅, hd₆⟩ := Option.bind_eq_some_iff.mp hd₆
  obtain ⟨d₄, hd₄, hd₅⟩ := Option.bind_eq_some_iff.mp hd₅
  obtain ⟨d₃, hd₃, hd₄⟩ := Option.bind_eq_some_iff.mp hd₄
  obtain ⟨d₂, hd₂, hd₃⟩ := Option.bind_eq_some_iff.mp hd₃
  obtain ⟨d₁, hd₁, hd₂⟩ := Option.bind_eq_some_iff.mp hd₂
  obtain ⟨cols, hcols, rfl⟩ := Option.map_eq_some_iff.mp hd₁
  obtain rfl := Option.some.inj hd₂
  rw [exec_type _ _ rfl] at hd₃
  obtain rfl := Option.some.inj hd₃
  rw [exec_key _ _ rfl] at hd₄
  obtain rfl := Option.some.inj hd₄
  rw [exec_partitions] at hd₅
  obtain ⟨partitions, hpartitions, hd₅⟩ := Option.map_eq_some_iff.mp hd₅
  obtain rfl := Option.some.inj hd₆
  have hnodes : d₅.nodes = m.ip_node_map_ := by rw [← hd₅]
  have hnext : d₅.next_oid = db.next_oid_ + 1 := by rw [← hd₅]
  have htms₅ : d₅.tms =
      { oid := db.next_oid_, name := request.tab_name, col_info := cols,
        partition_type := partitionTypeOf request.partition_key_type, partition_key_name := request.partition_key_name,
        partition_key_type := colTypeOf request.partition_key_type, partition_cnt_ := request.partition_cnt,
        partitions := partitions, table_location_ := ⟨location.1, location.2, []⟩ } := by
    rw [← hd₅]
    rfl
  clear hd₅
  have hids := p_id_partitionsOf hpartitions
  have hflat : ((List.range request.partition_cnt.toInt.toNat).flatMap fun i =>
      placeStatements request.replica_cnt (Int32.ofNat i)) =
      partitions.flatMap fun pm => placeStatements request.replica_cnt pm.p_id := by
    rw [← List.flatMap_map ParMeta.p_id (placeStatements request.replica_cnt), hids, List.flatMap_map]
  rw [hflat] at hplaces
  obtain ⟨locs, hplace, htms, hoid⟩ := exec_places hplaces
  simp only [Field.set, htms₅, hnodes] at hplace htms
  have hname : d.tms.name = request.tab_name := by rw [htms]
  obtain ⟨order', horder'⟩ := d.addTable hdb hnew htabs hname (hoid.trans hnext)
  refine ⟨order', ?_⟩
  rw [CreatePartitionTable, hdb]
  show (if request.tab_name ∈ db.tabs_.keys then _ else _) = _
  rw [if_neg hnew, if_neg htype, if_neg hreplicas, hcols, hpartitions]
  rw [htms] at horder'
  simp only [Option.bind_eq_bind, Option.bind_some, hplace]
  exact congrArg (Option.bind · _) horder'

end Requests

end MetaServer
end DDBMS
