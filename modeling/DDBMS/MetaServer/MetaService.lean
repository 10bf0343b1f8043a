import DDBMS.MetaServer.Catalog

/-!
# `MetaServer.MetaService` — the requests that change the catalog

`CreateDataBase`, `CreateTable`, `CreatePartitionTable` and `NodeRegister` of `MetaServiceImpl`
(`meta_server/meta_server_rpc.h`, `meta_server_rpc.cpp`). `none` is undefined behaviour: a repeated field of the request
read behind its end, or a partition for which no node is found (the pointer to the node is then not initialised).

A request that inserts into a map comes with the iteration order that the map has then.
-/

namespace DDBMS

structure CreateTableRequest where
  db_name : Bytes
  tab_name : Bytes
  col_name : List Bytes
  col_type : List Int32
  deriving Repr

/-- `CreatePartitonTableRequest::Range` -/
structure StringRange where
  min_range : Bytes
  max_range : Bytes
  deriving Repr

structure CreatePartitonTableRequest where
  db_name : Bytes
  tab_name : Bytes
  partition_type : Int32
  partition_key_name : Bytes
  partition_key_type : Int32
  partition_cnt : Int32
  range : List StringRange
  has_replica : Bool
  replica_cnt : Int32
  col_name : List Bytes
  col_type : List Int32
  deriving Repr

structure RegisterRequest where
  server_name : Bytes
  server_listen_port : UInt32
  deriving Repr

namespace MetaServer

def CreateDataBase (order : Order Bytes DbMetaServer) (m : MetaServer) (db_name : Bytes) : Option (MetaServer × Bool) :=
  if db_name ∈ m.db_map_.keys then some (m, false)
  else do
    let db_map_ ← m.db_map_.assign order db_name ⟨0, db_name, .empty⟩
    some ({ m with db_map_ := db_map_ }, true)

/-- The loop over the columns of a request. -/
def columns (col_name : List Bytes) (col_type : List Int32) : Option Column_info :=
  if col_name.length ≤ col_type.length then some ⟨col_name, col_type.take col_name.length⟩ else none

/-- The table goes into the database, with the next table id. -/
def addTable (order : Order Bytes TabMetaServer) (m : MetaServer) (db : DbMetaServer) (db_name : Bytes)
    (tms : TabMetaServer) : Option MetaServer := do
  let tabs_ ← db.tabs_.assign order tms.name tms
  some { m with db_map_ := m.db_map_.modify db_name fun _ => { db with next_oid_ := db.next_oid_ + 1, tabs_ := tabs_ } }

/-- The result is the new table id, if there is one. `location` is what is in memory where the `PhyTableLocation` comes to
    lie: its constructor sets neither the table id nor the duplicate type. -/
def CreateTable (order : Order Bytes TabMetaServer) (location : table_oid_t × DuplicateType) (m : MetaServer)
    (request : CreateTableRequest) : Option (MetaServer × Option table_oid_t) :=
  match m.db_map_.find? request.db_name with
  | none => some (m, none)
  | some db =>
    if request.tab_name ∈ db.tabs_.keys then some (m, none)
    else do
      let col_info ← columns request.col_name request.col_type
      let m ← m.addTable order db request.db_name
        { oid := db.next_oid_, name := request.tab_name, col_info := col_info, partition_type := PartitionType.NONE_PARTITION,
          partition_key_name := [], partition_key_type := ColType.TYPE_INT, partition_cnt_ := 0, partitions := [],
          table_location_ := ⟨location.1, location.2, []⟩ }
      some (m, some db.next_oid_)

/-! ## Replicas -/

/-- The first of the candidates with the smallest count, in iteration order. -/
def pickNode (candidate : Node → Bool) (cnt : Node → Int32) (nodes : List (Bytes × Node)) : Option (Bytes × Node) :=
  (nodes.foldl (fun (min : Int32 × Option (Bytes × Node)) node =>
    if candidate node.2 = true ∧ cnt node.2 < min.1 then (cnt node.2, some node) else min) (Int32.maxValue, none)).2

/-- The loop over the followers. `s` are the addresses that have the partition. -/
def placeFollowers : Nat → UnorderedMap Bytes Node → List Bytes → List ReplicaLocation →
    Option (UnorderedMap Bytes Node × List ReplicaLocation)
  | 0, nodes, _, replic_loc => some (nodes, replic_loc)
  | j + 1, nodes, s, replic_loc => do
    let (server_name, node) ← pickNode (fun node => node.activate && !s.contains node.ip_addr) Node.follower_par_cnt
      nodes.entries
    placeFollowers j
      (nodes.modify server_name fun node => { node with follower_par_cnt := node.follower_par_cnt + 1 })
      (node.ip_addr :: s) (replic_loc ++ [⟨node.ip_addr, node.port, Replica_Role.Follower⟩])

/-- The nodes of one partition. -/
def placeReplicas (replica_cnt : Int32) (nodes : UnorderedMap Bytes Node) :
    Option (UnorderedMap Bytes Node × List ReplicaLocation) := do
  let (server_name, node) ← pickNode Node.activate Node.leader_par_cnt nodes.entries
  placeFollowers (replica_cnt.toInt - 1).toNat
    (nodes.modify server_name fun node => { node with leader_par_cnt := node.leader_par_cnt + 1 })
    [node.ip_addr] [⟨node.ip_addr, node.port, Replica_Role.Leader⟩]

/-- The loop over the partitions. -/
def placePartitions (oid : table_oid_t) (replica_cnt : Int32) : List ParMeta → UnorderedMap Bytes Node →
    Option (UnorderedMap Bytes Node × List PhyPartitionLocation)
  | [], nodes => some (nodes, [])
  | pm :: partitions, nodes => do
    let (nodes, replic_loc) ← placeReplicas replica_cnt nodes
    let (nodes, locs) ← placePartitions oid replica_cnt partitions nodes
    some (nodes, ⟨oid, pm.p_id, replica_cnt, replic_loc⟩ :: locs)

/-- The partitions `p0`, `p1` and so on, with the bounds of the request. -/
def partitionsOf (range : List StringRange) : Nat → Option (List ParMeta)
  | 0 => some []
  | i + 1 => do
    let partitions ← partitionsOf range i
    let r ← range[i]?
    some (partitions ++ [⟨112 :: decimalNat i, Int32.ofNat i, r.min_range, r.max_range⟩])

/-- The first `switch`, which looks at the type of the partition key. -/
def partitionTypeOf (partition_key_type : Int32) : PartitionType :=
  if partition_key_type = PartitionType.RANGE_PARTITION then PartitionType.RANGE_PARTITION
  else if partition_key_type = PartitionType.HASH_PARTITION then PartitionType.HASH_PARTITION
  else PartitionType.NONE_PARTITION

/-- The second `switch`. -/
def colTypeOf (partition_key_type : Int32) : ColType :=
  if partition_key_type = ColType.TYPE_STRING then ColType.TYPE_STRING
  else if partition_key_type = ColType.TYPE_FLOAT then ColType.TYPE_FLOAT
  else ColType.TYPE_INT

/-- `size_t(replica_cnt)` -/
def size_t (replica_cnt : Int32) : Nat := (replica_cnt.toInt % 2 ^ 64).toNat

theorem size_t_eq {replica_cnt : Int32} (hcnt : 0 ≤ replica_cnt.toInt) : (size_t replica_cnt : Int) = replica_cnt.toInt := by
  have hlt := replica_cnt.toInt_lt
  rw [size_t]
  omega

def CreatePartitionTable (order : Order Bytes TabMetaServer) (m : MetaServer) (request : CreatePartitonTableRequest) :
    Option (MetaServer × Option table_oid_t) :=
  match m.db_map_.find? request.db_name with
  | none => some (m, none)
  | some db =>
    if request.tab_name ∈ db.tabs_.keys then some (m, none)
    else if request.partition_type = PartitionType.NONE_PARTITION then some (m, none)
    else if size_t request.replica_cnt < m.ip_node_map_.size then some (m, none)
    else do
      let col_info ← columns request.col_name request.col_type
      let partitions ← partitionsOf request.range request.partition_cnt.toInt.toNat
      let (nodes, locs) ← placePartitions db.next_oid_ request.replica_cnt partitions m.ip_node_map_
      let m ← { m with ip_node_map_ := nodes }.addTable order db request.db_name
        { oid := db.next_oid_, name := request.tab_name, col_info := col_info,
          partition_type := partitionTypeOf request.partition_key_type, partition_key_name := request.partition_key_name,
          partition_key_type := colTypeOf request.partition_key_type, partition_cnt_ := request.partition_cnt,
          partitions := partitions,
          table_location_ := ⟨db.next_oid_,
            if request.has_replica then DuplicateType.DUPLICATE else DuplicateType.NOT_DUPLICATE, locs⟩ }
      some (m, some db.next_oid_)

/-- `ip` is the address that the request comes from. -/
def NodeRegister (order : Order Bytes Node) (m : MetaServer) (ip : Bytes) (request : RegisterRequest) :
    Option MetaServer :=
  if request.server_name ∈ m.ip_node_map_.keys then
    some { m with ip_node_map_ := m.ip_node_map_.modify request.server_name fun node => { node with activate := true } }
  else do
    let ip_node_map_ ← m.ip_node_map_.assign order request.server_name
      ⟨ip, request.server_listen_port.toInt32, true, 0, 0⟩
    some { m with ip_node_map_ := ip_node_map_ }

/-! ## What a request does -/

section Cases

variable {m m' : MetaServer}

theorem ip_node_map_addTable {order : Order Bytes TabMetaServer} {db : DbMetaServer} {db_name : Bytes}
    {tms : TabMetaServer} (h : m.addTable order db db_name tms = some m') : m'.ip_node_map_ = m.ip_node_map_ := by
  obtain ⟨tabs_, -, hres⟩ := Option.bind_eq_some_iff.mp h
  obtain rfl := Option.some.inj hres
  rfl

theorem CreateDataBase_cases {order : Order Bytes DbMetaServer} {db_name : Bytes} {b : Bool}
    (h : m.CreateDataBase order db_name = some (m', b)) : m' = m ∨ ∃ db_map_, db_name ∉ m.db_map_.keys ∧
      m.db_map_.assign order db_name ⟨0, db_name, .empty⟩ = some db_map_ ∧ m' = { m with db_map_ := db_map_ } := by
  unfold CreateDataBase at h
  split at h
  · obtain ⟨rfl, -⟩ := Prod.mk.inj (Option.some.inj h)
    exact Or.inl rfl
  · rename_i hnew
    obtain ⟨db_map_, hassign, hres⟩ := Option.bind_eq_some_iff.mp h
    obtain ⟨rfl, -⟩ := Prod.mk.inj (Option.some.inj hres)
    exact Or.inr ⟨db_map_, hnew, hassign, rfl⟩

/-- The first partition, and the others. -/
theorem placePartitions_cons_iff {oid : table_oid_t} {replica_cnt : Int32} {pm : ParMeta} {partitions : List ParMeta}
    {nodes nodes' : UnorderedMap Bytes Node} {locs : List PhyPartitionLocation} :
    placePartitions oid replica_cnt (pm :: partitions) nodes = some (nodes', locs) ↔
      ∃ nodes₁ replic_loc locs₁, placeReplicas replica_cnt nodes = some (nodes₁, replic_loc) ∧
        placePartitions oid replica_cnt partitions nodes₁ = some (nodes', locs₁) ∧
        locs = ⟨oid, pm.p_id, replica_cnt, replic_loc⟩ :: locs₁ := by
  constructor
  · intro h
    obtain ⟨⟨nodes₁, replic_loc⟩, hplace, hrest⟩ := Option.bind_eq_some_iff.mp h
    obtain ⟨⟨nodes₂, locs₁⟩, hall, hres⟩ := Option.bind_eq_some_iff.mp hrest
    obtain ⟨rfl, rfl⟩ := Prod.mk.inj (Option.some.inj hres)
    exact ⟨nodes₁, replic_loc, locs₁, hplace, hall, rfl⟩
  · rintro ⟨nodes₁, replic_loc, locs₁, hplace, hall, rfl⟩
    exact Option.bind_eq_some_iff.mpr ⟨_, hplace, Option.bind_eq_some_iff.mpr ⟨_, hall, rfl⟩⟩

/-- Nothing, or a new table. -/
theorem CreateTable_cases {order : Order Bytes TabMetaServer} {location : table_oid_t × DuplicateType}
    {request : CreateTableRequest} {res : Option table_oid_t} (h : m.CreateTable order location request = some (m', res)) :
    (m' = m ∧ res = none) ∨ ∃ db col_info, m.db_map_.find? request.db_name = some db ∧ request.tab_name ∉ db.tabs_.keys ∧
      columns request.col_name request.col_type = some col_info ∧
      m.addTable order db request.db_name
        { oid := db.next_oid_, name := request.tab_name, col_info := col_info, partition_type := PartitionType.NONE_PARTITION,
          partition_key_name := [], partition_key_type := ColType.TYPE_INT, partition_cnt_ := 0, partitions := [],
          table_location_ := ⟨location.1, location.2, []⟩ } = some m' ∧ res = some db.next_oid_ := by
  unfold CreateTable at h
  split at h
  · obtain ⟨rfl, rfl⟩ := Prod.mk.inj (Option.some.inj h)
    exact Or.inl ⟨rfl, rfl⟩
  · rename_i db hdb
    split at h
    · obtain ⟨rfl, rfl⟩ := Prod.mk.inj (Option.some.inj h)
      exact Or.inl ⟨rfl, rfl⟩
    · rename_i hnew
      obtain ⟨col_info, hcol, h⟩ := Option.bind_eq_some_iff.mp h
      obtain ⟨m₂, hadd, hres⟩ := Option.bind_eq_some_iff.mp h
      obtain ⟨rfl, rfl⟩ := Prod.mk.inj (Option.some.inj hres)
      exact Or.inr ⟨db, col_info, hdb, hnew, hcol, hadd, rfl⟩

/-- Nothing, or a new table and its nodes. -/
theorem CreatePartitionTable_cases {order : Order Bytes TabMetaServer} {request : CreatePartitonTableRequest}
    {res : Option table_oid_t} (h : m.CreatePartitionTable order request = some (m', res)) :
    (m' = m ∧ res = none) ∨ ∃ db col_info partitions nodes locs, m.db_map_.find? request.db_name = some db ∧
      request.tab_name ∉ db.tabs_.keys ∧ columns request.col_name request.col_type = some col_info ∧
      partitionsOf request.range request.partition_cnt.toInt.toNat = some partitions ∧
      placePartitions db.next_oid_ request.replica_cnt partitions m.ip_node_map_ = some (nodes, locs) ∧
      { m with ip_node_map_ := nodes }.addTable order db request.db_name
        { oid := db.next_oid_, name := request.tab_name, col_info := col_info,
          partition_type := partitionTypeOf request.partition_key_type, partition_key_name := request.partition_key_name,
          partition_key_type := colTypeOf request.partition_key_type, partition_cnt_ := request.partition_cnt,
          partitions := partitions,
          table_location_ := ⟨db.next_oid_,
            if request.has_replica then DuplicateType.DUPLICATE else DuplicateType.NOT_DUPLICATE, locs⟩ } = some m' ∧
      res = some db.next_oid_ := by
  unfold CreatePartitionTable at h
  split at h
  · obtain ⟨rfl, rfl⟩ := Prod.mk.inj (Option.some.inj h)
    exact Or.inl ⟨rfl, rfl⟩
  · rename_i db hdb
    rcases ite_eq_iff.mp h with ⟨-, hres⟩ | ⟨hnew, h⟩
    · obtain ⟨rfl, rfl⟩ := Prod.mk.inj (Option.some.inj hres)
      exact Or.inl ⟨rfl, rfl⟩
    -- the two other refusals
    iterate 2
      rcases ite_eq_iff.mp h with ⟨-, hres⟩ | ⟨-, h⟩
      · obtain ⟨rfl, rfl⟩ := Prod.mk.inj (Option.some.inj hres)
        exact Or.inl ⟨rfl, rfl⟩
    obtain ⟨col_info, hcol, h⟩ := Option.bind_eq_some_iff.mp h
    obtain ⟨partitions, hparts, h⟩ := Option.bind_eq_some_iff.mp h
    obtain ⟨⟨nodes, locs⟩, hplace, h⟩ := Option.bind_eq_some_iff.mp h
    obtain ⟨m₂, hadd, hres⟩ := Option.bind_eq_some_iff.mp h
    obtain ⟨rfl, rfl⟩ := Prod.mk.inj (Option.some.inj hres)
    exact Or.inr ⟨db, col_info, partitions, nodes, locs, hdb, hnew, hcol, hparts, hplace, hadd, rfl⟩

/-- A node that is active again, or a new one. -/
theorem NodeRegister_cases {order : Order Bytes Node} {ip : Bytes} {request : RegisterRequest}
    (h : m.NodeRegister order ip request = some m') :
    m' = { m with ip_node_map_ := m.ip_node_map_.modify request.server_name fun node => { node with activate := true } } ∨
      ∃ nodes, request.server_name ∉ m.ip_node_map_.keys ∧ m.ip_node_map_.assign order request.server_name
        ⟨ip, request.server_listen_port.toInt32, true, 0, 0⟩ = some nodes ∧ m' = { m with ip_node_map_ := nodes } := by
  unfold NodeRegister at h
  split at h
  · exact Or.inl (Option.some.inj h).symm
  · rename_i hnew
    obtain ⟨nodes, hassign, hres⟩ := Option.bind_eq_some_iff.mp h
    exact Or.inr ⟨nodes, hnew, hassign, (Option.some.inj hres).symm⟩

end Cases

/-! ## Runs -/

inductive Event where
  | CreateDataBase (order : Order Bytes DbMetaServer) (db_name : Bytes)
  | CreateTable (order : Order Bytes TabMetaServer) (location : table_oid_t × DuplicateType) (request : CreateTableRequest)
  | CreatePartitionTable (order : Order Bytes TabMetaServer) (request : CreatePartitonTableRequest)
  | NodeRegister (order : Order Bytes Node) (ip : Bytes) (request : RegisterRequest)

/-- One request. -/
def handle (m : MetaServer) : Event → Option MetaServer
  | .CreateDataBase order db_name => (m.CreateDataBase order db_name).map Prod.fst
  | .CreateTable order location request => (m.CreateTable order location request).map Prod.fst
  | .CreatePartitionTable order request => (m.CreatePartitionTable order request).map Prod.fst
  | .NodeRegister order ip request => m.NodeRegister order ip request

/-- Names are not empty and have no white space, and neither do the bounds of a partition, which may be empty for hash
    partitions. A repeated field has fewer than `2 ^ 31` elements. -/
def Event.Valid : Event → Prop
  | .CreateDataBase _ db_name => Word db_name
  | .CreateTable _ _ request => Word request.tab_name ∧ (∀ name ∈ request.col_name, Word name) ∧
      request.col_name.length < 2 ^ 31
  | .CreatePartitionTable _ request => Word request.tab_name ∧ (∀ name ∈ request.col_name, Word name) ∧
      request.col_name.length < 2 ^ 31 ∧ Word request.partition_key_name ∧
      ∀ r ∈ request.range, NoSpace r.min_range ∧ NoSpace r.max_range ∧
        (request.partition_type ≠ PartitionType.HASH_PARTITION → r.min_range ≠ [] ∧ r.max_range ≠ [])
  | .NodeRegister _ ip request => Word request.server_name ∧ Word ip

end MetaServer
end DDBMS
