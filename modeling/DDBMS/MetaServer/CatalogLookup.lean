import DDBMS.MetaServer.ReplicaLocation

/-!
# `MetaServer.CatalogLookup` — lookups in a catalog of pointers

The maps of the catalog hold pointers, and a pointer may be null: a lookup takes `db_map_[db_name]` and
`gettablemap()[table_name]` before it compares with `nullptr`, and `operator[]` inserts a null pointer for a name that is not
there. The requests of `MetaServer.MetaService` again, for maps with null pointers: they ask with `count` whether a name is
there, and what they then find they dereference. `none` is undefined behaviour, as before.

A catalog without null pointers behaves as it does there (`CreateTable_embed` and so on).
-/

namespace DDBMS
namespace MetaServer

/-- A `DbMetaServer`; a table may be a null pointer. -/
structure DbCatalog where
  next_oid_ : table_oid_t
  name_ : Bytes
  tabs_ : UnorderedMap Bytes (Option TabMetaServer)

/-- A `MetaServer`; a database may be a null pointer. -/
structure Catalog where
  db_map_ : UnorderedMap Bytes (Option DbCatalog) := .empty
  ip_node_map_ : UnorderedMap Bytes Node := .empty

/-- `operator<<` -/
def DbCatalog.out (db : DbCatalog) : Option (List Put) := do
  let tabs ← db.tabs_.entries.mapM Prod.snd
  some ([num db.next_oid_.toInt, sp, .field db.name_, sp, num db.tabs_.size, nl] ++ tabs.flatMap fun tms => tms.out ++ [nl])

namespace Catalog

/-! ## Lookups -/

/-- `m[k]` of a map of pointers. -/
def subscript {ν : Type} (order : Order Bytes (Option ν)) (m : UnorderedMap Bytes (Option ν)) (k : Bytes) :
    Option (UnorderedMap Bytes (Option ν) × Option ν) :=
  match m.find? k with
  | some v => some (m, v)
  | none => (m.assign order k none).map fun m => (m, none)

/-- The orders that the two maps have after an insertion. -/
structure Orders where
  db_map_ : Order Bytes (Option DbCatalog)
  tabs_ : Order Bytes (Option TabMetaServer)

/-- The first part of each lookup, up to the table. -/
def findTable (orders : Orders) (c : Catalog) (db_name table_name : Bytes) :
    Option (Catalog × Except MetaServerError TabMetaServer) := do
  let (db_map_, dms) ← subscript orders.db_map_ c.db_map_ db_name
  match dms with
  | none => some ({ c with db_map_ := db_map_ }, .error .NO_DATABASE)
  | some dms =>
    let (tabs_, tms) ← subscript orders.tabs_ dms.tabs_ table_name
    let c := { c with db_map_ := db_map_.modify db_name fun _ => some { dms with tabs_ := tabs_ } }
    match tms with
    | none => some (c, .error .NO_TABLE)
    | some tms => some (c, .ok tms)

/-- A lookup that takes its answer from the table. -/
def lookup {α : Type} (orders : Orders) (c : Catalog) (db_name table_name : Bytes)
    (answer : TabMetaServer → Option (Except Thrown α)) : Option (Catalog × Except Thrown α) := do
  let (c, tms) ← c.findTable orders db_name table_name
  match tms with
  | .error err => some (c, .error (.MetaServerErrorException err))
  | .ok tms => (answer tms).map fun res => (c, res)

def getPartitionKey (orders : Orders) (c : Catalog) (db_name table_name : Bytes) : Option (Catalog × Except Thrown Bytes) :=
  c.lookup orders db_name table_name fun tms => some (.ok tms.partition_key_name)

def GetColInfor (orders : Orders) (c : Catalog) (db_name table_name : Bytes) :
    Option (Catalog × Except Thrown Column_info) :=
  c.lookup orders db_name table_name fun tms => some (.ok tms.col_info)

def getReplicaLocationList (orders : Orders) (hash : Hash) (c : Catalog)
    (db_name table_name partitionKeyName min_range max_range : Bytes) : Option (Catalog × Except Thrown Locations) :=
  c.lookup orders db_name table_name fun tms => locationList hash tms partitionKeyName min_range max_range

/-- The loops of `UpdatePartitionLeader`, which change this table location. -/
def updateLeader (tab_loc : PhyTableLocation) (p_id : partition_id_t) (ip_addr : Bytes) : PhyTableLocation × Bool :=
  if tab_loc.duplicate_type_ ≠ DuplicateType.DUPLICATE then (tab_loc, false)
  else match tab_loc.partiton_list_.findIdx? fun loc => loc.p_id_ = p_id with
    | none => (tab_loc, false)
    | some i =>
      let setRole (repli_loc : ReplicaLocation) : ReplicaLocation :=
        { repli_loc with role_ := if repli_loc.ip_addr_ = ip_addr then Replica_Role.Leader else Replica_Role.Follower }
      ({ tab_loc with partiton_list_ := tab_loc.partiton_list_.modify i fun loc =>
          { loc with repliaca_location_ := loc.repliaca_location_.map setRole } }, true)

/-- The location that is changed is a copy: `auto tab_loc = (*tms).table_location_`. It is gone when the function returns. -/
def UpdatePartitionLeader (orders : Orders) (c : Catalog) (db_name tab_name : Bytes) (p_id : partition_id_t)
    (ip_addr : Bytes) : Option (Catalog × Except Thrown Bool) :=
  c.lookup orders db_name tab_name fun tms =>
    let (_, res) := updateLeader tms.table_location_ p_id ip_addr
    some (.ok res)

/-! ## Requests -/

def CreateDataBase (order : Order Bytes (Option DbCatalog)) (c : Catalog) (db_name : Bytes) : Option (Catalog × Bool) :=
  if c.db_map_.count db_name = 1 then some (c, false)
  else do
    let db_map_ ← c.db_map_.assign order db_name (some ⟨0, db_name, .empty⟩)
    some ({ c with db_map_ := db_map_ }, true)

/-- The table goes into the database, with the next table id. -/
def addTable (order : Order Bytes (Option TabMetaServer)) (c : Catalog) (db : DbCatalog) (db_name : Bytes)
    (tms : TabMetaServer) : Option Catalog := do
  let tabs_ ← db.tabs_.assign order tms.name (some tms)
  some { c with
    db_map_ := c.db_map_.modify db_name fun _ => some { db with next_oid_ := db.next_oid_ + 1, tabs_ := tabs_ } }

def CreateTable (order : Order Bytes (Option TabMetaServer)) (location : table_oid_t × DuplicateType) (c : Catalog)
    (request : CreateTableRequest) : Option (Catalog × Option table_oid_t) :=
  match c.db_map_.find? request.db_name with
  | none => some (c, none)
  | some none => none
  | some (some db) =>
    if db.tabs_.count request.tab_name = 1 then some (c, none)
    else do
      let col_info ← columns request.col_name request.col_type
      let c ← c.addTable order db request.db_name
        { oid := db.next_oid_, name := request.tab_name, col_info := col_info, partition_type := PartitionType.NONE_PARTITION,
          partition_key_name := [], partition_key_type := ColType.TYPE_INT, partition_cnt_ := 0, partitions := [],
          table_location_ := ⟨location.1, location.2, []⟩ }
      some (c, some db.next_oid_)

def CreatePartitionTable (order : Order Bytes (Option TabMetaServer)) (c : Catalog) (request : CreatePartitonTableRequest) :
    Option (Catalog × Option table_oid_t) :=
  match c.db_map_.find? request.db_name with
  | none => some (c, none)
  | some none => none
  | some (some db) =>
    if db.tabs_.count request.tab_name = 1 then some (c, none)
    else if request.partition_type = PartitionType.NONE_PARTITION then some (c, none)
    else if size_t request.replica_cnt < c.ip_node_map_.size then some (c, none)
    else do
      let col_info ← columns request.col_name request.col_type
      let partitions ← partitionsOf request.range request.partition_cnt.toInt.toNat
      let (nodes, locs) ← placePartitions db.next_oid_ request.replica_cnt partitions c.ip_node_map_
      let c ← { c with ip_node_map_ := nodes }.addTable order db request.db_name
        { oid := db.next_oid_, name := request.tab_name, col_info := col_info,
          partition_type := partitionTypeOf request.partition_key_type, partition_key_name := request.partition_key_name,
          partition_key_type := colTypeOf request.partition_key_type, partition_cnt_ := request.partition_cnt,
          partitions := partitions,
          table_location_ := ⟨db.next_oid_,
            if request.has_replica then DuplicateType.DUPLICATE else DuplicateType.NOT_DUPLICATE, locs⟩ }
      some (c, some db.next_oid_)

def NodeRegister (order : Order Bytes Node) (c : Catalog) (ip : Bytes) (request : RegisterRequest) : Option Catalog :=
  if c.ip_node_map_.count request.server_name = 1 then
    some { c with ip_node_map_ := c.ip_node_map_.modify request.server_name fun node => { node with activate := true } }
  else do
    let ip_node_map_ ← c.ip_node_map_.assign order request.server_name
      ⟨ip, request.server_listen_port.toInt32, true, 0, 0⟩
    some { c with ip_node_map_ := ip_node_map_ }

/-- `operator<<` -/
def out (c : Catalog) : Option (List Put) := do
  let dbs ← c.db_map_.entries.mapM fun entry => entry.2.bind DbCatalog.out
  some ([num c.db_map_.size, nl] ++ ((dbs.flatMap fun text => text ++ [nl]) ++ ([num c.ip_node_map_.size, nl] ++
    c.ip_node_map_.entries.flatMap fun entry => [.field entry.1, sp] ++ (entry.2.out ++ [nl]))))

/-! ## What a lookup changes -/

section Lookups

variable {c c' : Catalog} {orders : Orders} {db_name table_name : Bytes} {dms : DbCatalog} {tms : TabMetaServer}

theorem subscript_found {ν : Type} {order : Order Bytes (Option ν)} {m : UnorderedMap Bytes (Option ν)} {k : Bytes}
    {v : Option ν} (h : m.find? k = some v) : subscript order m k = some (m, v) := by
  rw [subscript, h]

/-- A pointer that is there, null or not, and a null pointer that is put in. -/
theorem subscript_cases {ν : Type} {order : Order Bytes (Option ν)} {m m' : UnorderedMap Bytes (Option ν)} {k : Bytes}
    {v : Option ν} (h : subscript order m k = some (m', v)) :
    (m.find? k = some v ∧ m' = m) ∨ (k ∉ m.keys ∧ v = none ∧ m.assign order k none = some m') := by
  unfold subscript at h
  split at h
  · rename_i w hw
    obtain ⟨rfl, rfl⟩ := Prod.mk.inj (Option.some.inj h)
    exact Or.inl ⟨hw, rfl⟩
  · rename_i hnone
    obtain ⟨m₁, hassign, hres⟩ := Option.map_eq_some_iff.mp h
    obtain ⟨rfl, rfl⟩ := Prod.mk.inj hres
    exact Or.inr ⟨UnorderedMap.find?_eq_none_iff.mp hnone, rfl, hassign⟩

/-- A database that has been looked at is what it was. -/
theorem modify_found (h : c.db_map_.find? db_name = some (some dms)) :
    ({ c with db_map_ := c.db_map_.modify db_name fun _ => some { dms with tabs_ := dms.tabs_ } } : Catalog) = c := by
  have hself : (c.db_map_.modify db_name fun _ => some { dms with tabs_ := dms.tabs_ }) = c.db_map_ :=
    UnorderedMap.modify_eq_self fun v hv => Option.some.inj (h.symm.trans hv)
  rw [hself]

/-- A table that is there is found, and nothing changes. -/
theorem findTable_found (hdb : c.db_map_.find? db_name = some (some dms))
    (htms : dms.tabs_.find? table_name = some (some tms)) : c.findTable orders db_name table_name = some (c, .ok tms) := by
  have hself := modify_found hdb
  rw [findTable, subscript_found hdb]
  dsimp only [Option.bind_eq_bind, Option.bind_some]
  rw [subscript_found htms]
  dsimp only [Option.bind_some]
  rw [hself]

/-- What the first part of a lookup does: it finds the table, or a null pointer, or puts a null pointer in. -/
inductive FindTable (orders : Orders) (c : Catalog) (db_name table_name : Bytes) :
    Catalog → Except MetaServerError TabMetaServer → Prop
  | found {dms : DbCatalog} {tms : TabMetaServer} (hdb : c.db_map_.find? db_name = some (some dms))
      (htms : dms.tabs_.find? table_name = some (some tms)) : FindTable orders c db_name table_name c (.ok tms)
  | nullDb (hdb : c.db_map_.find? db_name = some none) : FindTable orders c db_name table_name c (.error .NO_DATABASE)
  | newDb {db_map_ : UnorderedMap Bytes (Option DbCatalog)} (hdb : db_name ∉ c.db_map_.keys)
      (hassign : c.db_map_.assign orders.db_map_ db_name none = some db_map_) :
      FindTable orders c db_name table_name { c with db_map_ := db_map_ } (.error .NO_DATABASE)
  | nullTable {dms : DbCatalog} (hdb : c.db_map_.find? db_name = some (some dms))
      (htms : dms.tabs_.find? table_name = some none) : FindTable orders c db_name table_name c (.error .NO_TABLE)
  | newTable {dms : DbCatalog} {tabs_ : UnorderedMap Bytes (Option TabMetaServer)}
      (hdb : c.db_map_.find? db_name = some (some dms)) (htms : table_name ∉ dms.tabs_.keys)
      (hassign : dms.tabs_.assign orders.tabs_ table_name none = some tabs_) : FindTable orders c db_name table_name
        { c with db_map_ := c.db_map_.modify db_name fun _ => some { dms with tabs_ := tabs_ } } (.error .NO_TABLE)

theorem findTable_cases {res : Except MetaServerError TabMetaServer}
    (h : c.findTable orders db_name table_name = some (c', res)) : FindTable orders c db_name table_name c' res := by
  obtain ⟨⟨db_map_, dms⟩, hsub, h⟩ := Option.bind_eq_some_iff.mp h
  rcases subscript_cases hsub with ⟨hdb, rfl⟩ | ⟨hdb, rfl, hassign⟩
  · cases dms with
    | none =>
        obtain ⟨rfl, rfl⟩ := Prod.mk.inj (Option.some.inj h)
        exact .nullDb hdb
    | some dms =>
        obtain ⟨⟨tabs_, tms⟩, hsub, h⟩ := Option.bind_eq_some_iff.mp h
        dsimp only at h
        rcases subscript_cases hsub with ⟨htms, rfl⟩ | ⟨htms, rfl, hassign⟩
        · rw [modify_found hdb] at h
          cases tms with
          | none =>
              obtain ⟨rfl, rfl⟩ := Prod.mk.inj (Option.some.inj h)
              exact .nullTable hdb htms
          | some tms =>
              obtain ⟨rfl, rfl⟩ := Prod.mk.inj (Option.some.inj h)
              exact .found hdb htms
        · obtain ⟨rfl, rfl⟩ := Prod.mk.inj (Option.some.inj h)
          exact .newTable hdb htms hassign
  · obtain ⟨rfl, rfl⟩ := Prod.mk.inj (Option.some.inj h)
    exact .newDb hdb hassign

/-- What a lookup does: what its first part does, and no more. -/
theorem lookup_cases {α : Type} {answer : TabMetaServer → Option (Except Thrown α)} {res : Except Thrown α}
    (h : c.lookup orders db_name table_name answer = some (c', res)) :
    (∃ tms, FindTable orders c db_name table_name c' (.ok tms) ∧ answer tms = some res) ∨
      ∃ err, FindTable orders c db_name table_name c' (.error err) ∧ res = .error (.MetaServerErrorException err) := by
  obtain ⟨⟨c₁, tms⟩, hfind, h⟩ := Option.bind_eq_some_iff.mp h
  have hcases := findTable_cases hfind
  cases tms with
  | error err =>
      obtain ⟨rfl, rfl⟩ := Prod.mk.inj (Option.some.inj h)
      exact Or.inr ⟨err, hcases, rfl⟩
  | ok tms =>
      obtain ⟨res, hanswer, heq⟩ := Option.map_eq_some_iff.mp h
      obtain ⟨rfl, rfl⟩ := Prod.mk.inj heq
      exact Or.inl ⟨tms, hcases, hanswer⟩

end Lookups

/-! ## Without null pointers -/

section Embed

variable {m : MetaServer} {db : DbMetaServer} {db_name table_name : Bytes} {tms : TabMetaServer}

/-- The database in memory. -/
def ofDb (db : DbMetaServer) : DbCatalog := ⟨db.next_oid_, db.name_, db.tabs_.map some⟩

/-- The catalog in memory, as requests make it. -/
def embed (m : MetaServer) : Catalog := ⟨m.db_map_.map fun db => some (ofDb db), m.ip_node_map_⟩

theorem find?_embed (m : MetaServer) (db_name : Bytes) :
    (embed m).db_map_.find? db_name = (m.db_map_.find? db_name).map fun db => some (ofDb db) := UnorderedMap.find?_map _

theorem CreateDataBase_embed (order' : Order Bytes (Option DbCatalog)) : ∃ order : Order Bytes DbMetaServer,
    (embed m).CreateDataBase order' db_name = (m.CreateDataBase order db_name).map fun res => (embed res.1, res.2) := by
  obtain ⟨order, horder⟩ := UnorderedMap.assign_map (m := m.db_map_) (k := db_name) (fun db => some (ofDb db)) order'
    ⟨0, db_name, .empty⟩
  refine ⟨order, ?_⟩
  rw [Catalog.CreateDataBase, MetaServer.CreateDataBase]
  have hcount : (embed m).db_map_.count db_name = 1 ↔ db_name ∈ m.db_map_.keys := by
    rw [UnorderedMap.count_eq_one_iff, embed, UnorderedMap.keys_map]
  by_cases hold : db_name ∈ m.db_map_.keys
  · rw [if_pos (hcount.mpr hold), if_pos hold]
    rfl
  · rw [if_neg (mt hcount.mp hold), if_neg hold]
    have hassign : (embed m).db_map_.assign order' db_name (some ⟨0, db_name, .empty⟩) =
        (m.db_map_.assign order db_name ⟨0, db_name, .empty⟩).map (UnorderedMap.map fun db => some (ofDb db)) := horder
    rw [hassign]
    cases m.db_map_.assign order db_name ⟨0, db_name, .empty⟩ <;> rfl

theorem addTable_embed (order' : Order Bytes (Option TabMetaServer)) : ∃ order : Order Bytes TabMetaServer,
    (embed m).addTable order' (ofDb db) db_name tms = (m.addTable order db db_name tms).map embed := by
  obtain ⟨order, horder⟩ := UnorderedMap.assign_map (m := db.tabs_) (k := tms.name) some order' tms
  refine ⟨order, ?_⟩
  have hassign : (ofDb db).tabs_.assign order' tms.name (some tms) =
      (db.tabs_.assign order tms.name tms).map (UnorderedMap.map some) := horder
  rw [Catalog.addTable, MetaServer.addTable, hassign]
  cases db.tabs_.assign order tms.name tms with
  | none => rfl
  | some tabs_ =>
      show some _ = some _
      rw [Option.some.injEq]
      show Catalog.mk _ _ = Catalog.mk _ _
      congr 1
      exact UnorderedMap.map_modify (fun db => some (ofDb db)) fun _ => rfl

theorem bind_embed (o : Option MetaServer) (oid : Option table_oid_t) :
    ((o.map embed).bind fun c => some (c, oid)) = (o.bind fun m => some (m, oid)).map fun res => (embed res.1, res.2) := by
  cases o <;> rfl

theorem count_ofDb {db : DbMetaServer} {name : Bytes} : (ofDb db).tabs_.count name = 1 ↔ name ∈ db.tabs_.keys := by
  rw [UnorderedMap.count_eq_one_iff, ofDb, UnorderedMap.keys_map]

theorem CreateTable_embed (order' : Order Bytes (Option TabMetaServer)) (location : table_oid_t × DuplicateType)
    (request : CreateTableRequest) : ∃ order : Order Bytes TabMetaServer,
      (embed m).CreateTable order' location request =
        (m.CreateTable order location request).map fun res => (embed res.1, res.2) := by
  unfold Catalog.CreateTable MetaServer.CreateTable
  rw [find?_embed]
  cases m.db_map_.find? request.db_name with
  | none => exact ⟨.front, rfl⟩
  | some db =>
      dsimp only [Option.map_some]
      by_cases hold : request.tab_name ∈ db.tabs_.keys
      · exact ⟨.front, by rw [if_pos (count_ofDb.mpr hold), if_pos hold]; rfl⟩
      simp only [if_neg hold, if_neg (mt count_ofDb.mp hold)]
      cases columns request.col_name request.col_type with
      | none => exact ⟨.front, rfl⟩
      | some col_info =>
          obtain ⟨order, hadd⟩ := @addTable_embed m db request.db_name
            { oid := db.next_oid_, name := request.tab_name, col_info := col_info,
              partition_type := PartitionType.NONE_PARTITION, partition_key_name := [],
              partition_key_type := ColType.TYPE_INT, partition_cnt_ := 0, partitions := [],
              table_location_ := ⟨location.1, location.2, []⟩ } order'
          exact ⟨order, (congrArg (fun o => o.bind fun c => some (c, some db.next_oid_)) hadd).trans (bind_embed _ _)⟩

theorem CreatePartitionTable_embed (order' : Order Bytes (Option TabMetaServer)) (request : CreatePartitonTableRequest) :
    ∃ order : Order Bytes TabMetaServer, (embed m).CreatePartitionTable order' request =
      (m.CreatePartitionTable order request).map fun res => (embed res.1, res.2) := by
  unfold Catalog.CreatePartitionTable MetaServer.CreatePartitionTable
  rw [find?_embed]
  cases m.db_map_.find? request.db_name with
  | none => exact ⟨.front, rfl⟩
  | some db =>
      have hnodes : (embed m).ip_node_map_ = m.ip_node_map_ := rfl
      dsimp only [Option.map_some]
      rw [hnodes]
      by_cases hold : request.tab_name ∈ db.tabs_.keys
      · exact ⟨.front, by rw [if_pos (count_ofDb.mpr hold), if_pos hold]; rfl⟩
      simp only [if_neg hold, if_neg (mt count_ofDb.mp hold)]
      by_cases htype : request.partition_type = PartitionType.NONE_PARTITION
      · exact ⟨.front, by rw [if_pos htype, if_pos htype]; rfl⟩
      simp only [if_neg htype]
      by_cases hcnt : size_t request.replica_cnt < m.ip_node_map_.size
      · exact ⟨.front, by rw [if_pos hcnt, if_pos hcnt]; rfl⟩
      simp only [if_neg hcnt]
      cases columns request.col_name request.col_type with
      | none => exact ⟨.front, rfl⟩
      | some col_info =>
          cases partitionsOf request.range request.partition_cnt.toInt.toNat with
          | none => exact ⟨.front, rfl⟩
          | some partitions =>
              have hoid : (ofDb db).next_oid_ = db.next_oid_ := rfl
              simp only [hoid, Option.bind_eq_bind, Option.bind_some]
              cases placePartitions db.next_oid_ request.replica_cnt partitions m.ip_node_map_ with
              | none => exact ⟨.front, rfl⟩
              | some placed =>
                  obtain ⟨nodes, locs⟩ := placed
                  obtain ⟨order, hadd⟩ := @addTable_embed { m with ip_node_map_ := nodes } db request.db_name _ order'
                  exact ⟨order, (congrArg (fun o => o.bind fun c => some (c, some db.next_oid_)) hadd).trans
                    (bind_embed _ _)⟩

theorem NodeRegister_embed (order : Order Bytes Node) (ip : Bytes) (request : RegisterRequest) :
    (embed m).NodeRegister order ip request = (m.NodeRegister order ip request).map embed := by
  have hnodes : (embed m).ip_node_map_ = m.ip_node_map_ := rfl
  rw [Catalog.NodeRegister, MetaServer.NodeRegister, hnodes]
  by_cases hold : request.server_name ∈ m.ip_node_map_.keys
  · rw [if_pos (UnorderedMap.count_eq_one_iff.mpr hold), if_pos hold]
    rfl
  · rw [if_neg (mt UnorderedMap.count_eq_one_iff.mp hold), if_neg hold]
    cases m.ip_node_map_.assign order request.server_name ⟨ip, request.server_listen_port.toInt32, true, 0, 0⟩ <;> rfl

theorem mapM_some {α β γ : Type} (f : α → β) (g : β → Option γ) (h : α → γ) (hg : ∀ x, g (f x) = some (h x)) (l : List α) :
    (l.map f).mapM g = some (l.map h) := by
  induction l with
  | nil => rfl
  | cons x l ih => rw [List.map_cons, List.mapM_cons, hg, ih, List.map_cons]; rfl

theorem out_ofDb (db : DbMetaServer) : (ofDb db).out = some db.out := by
  have hsize : (ofDb db).tabs_.size = db.tabs_.size := UnorderedMap.size_map _
  have htabs : (ofDb db).tabs_.entries.mapM Prod.snd = some (db.tabs_.entries.map Prod.snd) :=
    mapM_some (fun e : Bytes × TabMetaServer => (e.1, some e.2)) Prod.snd Prod.snd (fun _ => rfl) db.tabs_.entries
  rw [DbCatalog.out, htabs, hsize, DbMetaServer.out]
  show some _ = some _
  rw [List.flatMap_map]
  rfl

/-- It is written as it was. -/
theorem out_embed (m : MetaServer) : (embed m).out = some m.out := by
  have hsize : (embed m).db_map_.size = m.db_map_.size := UnorderedMap.size_map _
  have hdbs : (embed m).db_map_.entries.mapM (fun entry => entry.2.bind DbCatalog.out) =
      some (m.db_map_.entries.map fun entry => entry.2.out) :=
    mapM_some (fun e : Bytes × DbMetaServer => (e.1, some (ofDb e.2))) (fun entry => entry.2.bind DbCatalog.out)
      (fun entry => entry.2.out) (fun entry => out_ofDb entry.2) m.db_map_.entries
  rw [Catalog.out, hdbs, hsize, MetaServer.out]
  show some _ = some _
  rw [List.flatMap_map]
  rfl

theorem find?_embed_some (hdb : m.db_map_.find? db_name = some db) :
    (embed m).db_map_.find? db_name = some (some (ofDb db)) := by
  rw [find?_embed, hdb, Option.map_some]

theorem find?_ofDb_some (htms : db.tabs_.find? table_name = some tms) :
    (ofDb db).tabs_.find? table_name = some (some tms) := by
  show (db.tabs_.map some).find? table_name = some (some tms)
  rw [UnorderedMap.find?_map, htms, Option.map_some]

/-- A table that is there is found, and nothing changes. -/
theorem findTable_embed (orders : Orders) (hdb : m.db_map_.find? db_name = some db)
    (htms : db.tabs_.find? table_name = some tms) :
    (embed m).findTable orders db_name table_name = some (embed m, .ok tms) :=
  findTable_found (find?_embed_some hdb) (find?_ofDb_some htms)

end Embed

end Catalog
end MetaServer
end DDBMS
