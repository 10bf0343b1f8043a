import DDBMS.Lib.TokenStream
import DDBMS.Lib.UnorderedMap

/-!
# `MetaServer.Catalog` — the catalog and its stream operators

The data of `MetaServer` (`meta_server/meta_server.h`, `table_location.h`, `partition_location.h`) without its `Oracle` and
its mutexes, and the operators `<<` and `>>` that write it to the meta file and read it back. Each `<<` is the list of its
insertions, each `>>` a reader. An `enum class` is the number it is cast from: requests cast whatever number they have.
-/

namespace DDBMS

abbrev MetaServer.table_oid_t := Int32
abbrev MetaServer.partition_id_t := Int32

abbrev ColType := Int32

namespace ColType
def TYPE_INT : ColType := 0
def TYPE_FLOAT : ColType := 1
def TYPE_STRING : ColType := 2
end ColType

abbrev PartitionType := Int32

namespace PartitionType
/-- no partitions -/
def NONE_PARTITION : PartitionType := 0
def RANGE_PARTITION : PartitionType := 1
def HASH_PARTITION : PartitionType := 2
end PartitionType

abbrev Replica_Role := Int32

namespace Replica_Role
def INVALID_ROLE : Replica_Role := 0
def Leader : Replica_Role := 1
def Follower : Replica_Role := 2
end Replica_Role

abbrev DuplicateType := Int64

namespace DuplicateType
def NOT_DUPLICATE : DuplicateType := 0
def DUPLICATE : DuplicateType := 1
end DuplicateType

structure ReplicaLocation where
  ip_addr_ : Bytes
  port_ : Int32
  role_ : Replica_Role
  deriving Repr, DecidableEq

structure PhyPartitionLocation where
  table_oid_ : MetaServer.table_oid_t
  p_id_ : MetaServer.partition_id_t
  replica_cnt_ : Int32
  repliaca_location_ : List ReplicaLocation
  deriving Repr, DecidableEq

structure PhyTableLocation where
  table_oid_ : MetaServer.table_oid_t
  duplicate_type_ : DuplicateType
  partiton_list_ : List PhyPartitionLocation
  deriving Repr, DecidableEq

structure ParMeta where
  name : Bytes
  p_id : MetaServer.partition_id_t
  min_range : Bytes
  max_range : Bytes
  deriving Repr, DecidableEq

structure Column_info where
  column_name : List Bytes
  column_type : List ColType
  deriving Repr, DecidableEq

/-- A registered node. -/
structure MetaServer.Node where
  ip_addr : Bytes
  port : Int32
  activate : Bool
  leader_par_cnt : Int32
  follower_par_cnt : Int32
  deriving Repr, DecidableEq

structure TabMetaServer where
  oid : MetaServer.table_oid_t
  name : Bytes
  col_info : Column_info
  partition_type : PartitionType
  partition_key_name : Bytes
  partition_key_type : ColType
  partition_cnt_ : MetaServer.partition_id_t
  partitions : List ParMeta
  table_location_ : PhyTableLocation
  deriving Repr, DecidableEq

structure DbMetaServer where
  next_oid_ : MetaServer.table_oid_t
  name_ : Bytes
  tabs_ : UnorderedMap Bytes TabMetaServer

structure MetaServer where
  db_map_ : UnorderedMap Bytes DbMetaServer := .empty
  ip_node_map_ : UnorderedMap Bytes MetaServer.Node := .empty

/-! ## `operator<<` -/

/-- A number. -/
def num (i : Int) : Put := .field (decimal i)

/-- `' '` -/
def sp : Put := .sep 32

/-- `'\n'` and `std::endl` -/
def nl : Put := .sep 10

def ParMeta.out (pm : ParMeta) : List Put :=
  [.field pm.name, sp, num pm.p_id.toInt, sp, .field pm.min_range, sp, .field pm.max_range, nl]

/-- One column. -/
def Column_info.outColumn (c : Bytes × ColType) : List Put := [.field c.1, sp, num c.2.toInt, nl]

/-- Nothing stands between the number of columns and the first column. -/
def Column_info.out (cols : Column_info) : List Put :=
  num cols.column_name.length :: (cols.column_name.zip cols.column_type).flatMap outColumn

def MetaServer.Node.out (node : MetaServer.Node) : List Put :=
  [.field node.ip_addr, sp, num node.port.toInt, sp, num node.leader_par_cnt.toInt, sp,
    num node.follower_par_cnt.toInt, nl]

def ReplicaLocation.out (repli_loc : ReplicaLocation) : List Put :=
  [.field repli_loc.ip_addr_, sp, num repli_loc.port_.toInt, sp, num repli_loc.role_.toInt, nl]

def PhyPartitionLocation.out (phyparloc : PhyPartitionLocation) : List Put :=
  [num phyparloc.table_oid_.toInt, sp, num phyparloc.p_id_.toInt, sp, num phyparloc.replica_cnt_.toInt, sp,
    num phyparloc.repliaca_location_.length, nl] ++ phyparloc.repliaca_location_.flatMap ReplicaLocation.out

def PhyTableLocation.out (phytabloc : PhyTableLocation) : List Put :=
  [num phytabloc.table_oid_.toInt, sp, num phytabloc.duplicate_type_.toInt32.toInt, sp,
    num phytabloc.partiton_list_.length, nl] ++ phytabloc.partiton_list_.flatMap PhyPartitionLocation.out

/-- The fields in front of the columns. -/
def TabMetaServer.outHead (tab : TabMetaServer) : List Put :=
  [num tab.oid.toInt, sp, .field tab.name, sp, num tab.partition_type.toInt, sp, .field tab.partition_key_name, sp,
    num tab.partition_key_type.toInt, sp, num tab.partition_cnt_.toInt, sp, num tab.partitions.length, nl]

def TabMetaServer.out (tab : TabMetaServer) : List Put :=
  tab.outHead ++ (tab.col_info.out ++ (tab.partitions.flatMap ParMeta.out ++ tab.table_location_.out))

def DbMetaServer.out (db : DbMetaServer) : List Put :=
  [num db.next_oid_.toInt, sp, .field db.name_, sp, num db.tabs_.size, nl] ++
    db.tabs_.entries.flatMap fun entry => entry.2.out ++ [nl]

def MetaServer.out (m : MetaServer) : List Put :=
  [num m.db_map_.size, nl] ++ ((m.db_map_.entries.flatMap fun entry => entry.2.out ++ [nl]) ++
    ([num m.ip_node_map_.size, nl] ++
      m.ip_node_map_.entries.flatMap fun entry => [.field entry.1, sp] ++ (entry.2.out ++ [nl])))

/-! ## `operator>>` -/

def readParMeta : Reader ParMeta := do
  let name ← getString
  let p_id ← getInt32
  let min_range ← getString
  let max_range ← getString
  pure ⟨name, p_id, min_range, max_range⟩

def readColumn : Reader (Bytes × ColType) := do
  let tmp_name ← getString
  let tmp_type ← getInt32
  pure (tmp_name, tmp_type)

def readColumn_info : Reader Column_info := do
  let size ← getInt32
  let cols ← readN size.toInt.toNat readColumn
  pure ⟨cols.map Prod.fst, cols.map Prod.snd⟩

def readNode : Reader MetaServer.Node := do
  let ip_addr ← getString
  let port ← getInt32
  let leader_par_cnt ← getInt32
  let follower_par_cnt ← getInt32
  pure ⟨ip_addr, port, false, leader_par_cnt, follower_par_cnt⟩

def readReplicaLocation : Reader ReplicaLocation := do
  let ip_addr_ ← getString
  let port_ ← getInt32
  let role_ ← getInt32
  pure ⟨ip_addr_, port_, role_⟩

def readPhyPartitionLocation : Reader PhyPartitionLocation := do
  let table_oid_ ← getInt32
  let p_id_ ← getInt32
  let replica_cnt_ ← getInt32
  let n ← getSize
  let repliaca_location_ ← readN n readReplicaLocation
  pure ⟨table_oid_, p_id_, replica_cnt_, repliaca_location_⟩

def readPhyTableLocation : Reader PhyTableLocation := do
  let table_oid_ ← getInt32
  let duplicate_type_ ← getInt32
  let n ← getSize
  let partiton_list_ ← readN n readPhyPartitionLocation
  pure ⟨table_oid_, duplicate_type_.toInt64, partiton_list_⟩

def readTabMetaServer : Reader TabMetaServer := do
  let oid ← getInt32
  let name ← getString
  let partition_type ← getInt32
  let partition_key_name ← getString
  let partition_key_type ← getInt32
  let partition_cnt_ ← getInt32
  let n ← getSize
  let col_info ← readColumn_info
  let partitions ← readN n readParMeta
  let table_location_ ← readPhyTableLocation
  pure ⟨oid, name, col_info, partition_type, partition_key_name, partition_key_type, partition_cnt_, partitions,
    table_location_⟩

def readDbMetaServer : Reader DbMetaServer := do
  let next_oid_ ← getInt32
  let name_ ← getString
  let n ← getSize
  let tabs ← readN n readTabMetaServer
  let tabs_ ← ofOption (UnorderedMap.empty.assignAll .front (tabs.map fun tms => (tms.name, tms)))
  pure ⟨next_oid_, name_, tabs_⟩

/-- A node with its server name. -/
def readServer : Reader (Bytes × MetaServer.Node) := do
  let server_name ← getString
  let node ← readNode
  pure (server_name, node)

def readMetaServer : Reader MetaServer := do
  let n ← getSize
  let dbs ← readN n readDbMetaServer
  let db_map_ ← ofOption (UnorderedMap.empty.assignAll .front (dbs.map fun db => (db.name_, db)))
  let n ← getSize
  let nodes ← readN n readServer
  let ip_node_map_ ← ofOption (UnorderedMap.empty.assignAll .front nodes)
  pure ⟨db_map_, ip_node_map_⟩

/-! ## The same catalog -/

structure DbMetaServer.Same (db db' : DbMetaServer) : Prop where
  next_oid_ : db.next_oid_ = db'.next_oid_
  name_ : db.name_ = db'.name_
  tabs_ : ∀ name, db.tabs_.find? name = db'.tabs_.find? name

/-- `activate` apart. -/
def MetaServer.Node.Same (node node' : MetaServer.Node) : Prop := { node with activate := false } = { node' with activate := false }

/-- The same databases and nodes, in whatever order. -/
structure MetaServer.Same (m m' : MetaServer) : Prop where
  db_map_ : ∀ name, Option.Rel DbMetaServer.Same (m.db_map_.find? name) (m'.db_map_.find? name)
  ip_node_map_ : ∀ name, Option.Rel MetaServer.Node.Same (m.ip_node_map_.find? name) (m'.ip_node_map_.find? name)

/-- What is written is read as it was written, field by field, and gives the same catalog. -/
def MetaServer.RoundTrips (m : MetaServer) : Prop :=
  ∃ m' is, readMetaServer ⟨textOf m.out, []⟩ = some (m', is) ∧ is.consumed = fieldsOf m.out ∧ m.Same m'

end DDBMS
