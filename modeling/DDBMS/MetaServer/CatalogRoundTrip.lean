import DDBMS.Lib.Run
import DDBMS.MetaServer.CatalogRead
import DDBMS.MetaServer.MetaService

/-!
# `MetaServer.CatalogRoundTrip` — the catalogs that requests make

Every request keeps the catalog well-formed (`MetaServer.Ok`), so the catalogs that requests make round-trip exactly when
all their tables are `Readable` (`MetaServer.roundTrips_iff`). No catalog with a table that `CreateTable` has made is one of
them: `table_is_lost`.
-/

namespace DDBMS
namespace MetaServer

variable {m m' : MetaServer} {nodes nodes' : UnorderedMap Bytes Node} {range : List StringRange}

/-! ## Replicas -/

/-- Nodes have a name and an address. -/
def NodesOk (nodes : UnorderedMap Bytes Node) : Prop := ∀ e ∈ nodes.entries, Word e.1 ∧ Word e.2.ip_addr

theorem NodesOk.modify (h : NodesOk nodes) {server_name : Bytes} {f : Node → Node} (hf : ∀ n, (f n).ip_addr = n.ip_addr) :
    NodesOk (nodes.modify server_name f) := by
  intro e he
  rcases UnorderedMap.mem_modify.mp he with ⟨-, hmem⟩ | ⟨node, hmem, rfl⟩
  · exact h e hmem
  · obtain ⟨hname, hip⟩ := h _ hmem
    exact ⟨hname, by rw [hf]; exact hip⟩

theorem pickNode_mem {candidate : Node → Bool} {cnt : Node → Int32} {es : List (Bytes × Node)} {e : Bytes × Node}
    (h : pickNode candidate cnt es = some e) : e ∈ es := by
  have hfold : ∀ (es : List (Bytes × Node)) (min : Int32 × Option (Bytes × Node)) (e : Bytes × Node),
      (es.foldl (fun (min : Int32 × Option (Bytes × Node)) node =>
        if candidate node.2 = true ∧ cnt node.2 < min.1 then (cnt node.2, some node) else min) min).2 = some e →
      e ∈ es ∨ min.2 = some e := by
    intro es
    induction es with
    | nil => exact fun _ _ h => Or.inr h
    | cons node es ih =>
        intro min e h
        rcases ih _ e h with hmem | hmin
        · exact Or.inl (List.mem_cons_of_mem _ hmem)
        · dsimp only at hmin
          split at hmin
          · obtain rfl := Option.some.inj hmin
            exact Or.inl List.mem_cons_self
          · exact Or.inr hmin
  rcases hfold es _ e h with hmem | hmin
  · exact hmem
  · cases hmin

theorem placeFollowers_ok {j : Nat} {s : List Bytes} {locs locs' : List ReplicaLocation} (hnodes : NodesOk nodes)
    (hlocs : ∀ r ∈ locs, Word r.ip_addr_) (h : placeFollowers j nodes s locs = some (nodes', locs')) :
    NodesOk nodes' ∧ (∀ r ∈ locs', Word r.ip_addr_) ∧ locs'.length = locs.length + j := by
  induction j generalizing nodes s locs with
  | zero =>
      obtain ⟨rfl, rfl⟩ := Prod.mk.inj (Option.some.inj h)
      exact ⟨hnodes, hlocs, rfl⟩
  | succ j ih =>
      obtain ⟨⟨server_name, node⟩, hpick, hrest⟩ := Option.bind_eq_some_iff.mp h
      obtain ⟨-, hip⟩ := hnodes _ (pickNode_mem hpick)
      have hmore : ∀ r ∈ locs ++ [⟨node.ip_addr, node.port, Replica_Role.Follower⟩], Word r.ip_addr_ := by
        intro r hr
        rcases List.mem_append.mp hr with hr | hr
        · exact hlocs r hr
        · rw [List.mem_singleton.mp hr]
          exact hip
      have hcounted : NodesOk (nodes.modify server_name fun node =>
          { node with follower_par_cnt := node.follower_par_cnt + 1 }) := hnodes.modify (fun _ => rfl)
      obtain ⟨hnodes', hlocs', hlen⟩ := ih hcounted hmore hrest
      refine ⟨hnodes', hlocs', ?_⟩
      rw [hlen, List.length_append, List.length_singleton]
      omega

theorem placeReplicas_ok {replica_cnt : Int32} {locs : List ReplicaLocation} (hnodes : NodesOk nodes)
    (h : placeReplicas replica_cnt nodes = some (nodes', locs)) :
    NodesOk nodes' ∧ (∀ r ∈ locs, Word r.ip_addr_) ∧ locs.length < 2 ^ 64 := by
  obtain ⟨⟨server_name, node⟩, hpick, hrest⟩ := Option.bind_eq_some_iff.mp h
  obtain ⟨-, hip⟩ := hnodes _ (pickNode_mem hpick)
  have hleader : ∀ r ∈ [(⟨node.ip_addr, node.port, Replica_Role.Leader⟩ : ReplicaLocation)], Word r.ip_addr_ := by
    intro r hr
    rw [List.mem_singleton.mp hr]
    exact hip
  have hcounted : NodesOk (nodes.modify server_name fun node =>
      { node with leader_par_cnt := node.leader_par_cnt + 1 }) := hnodes.modify (fun _ => rfl)
  obtain ⟨hnodes', hlocs, hlen⟩ := placeFollowers_ok hcounted hleader hrest
  refine ⟨hnodes', hlocs, ?_⟩
  have hcnt := replica_cnt.toInt_lt
  rw [hlen, List.length_singleton]
  omega

theorem placePartitions_ok {oid : table_oid_t} {replica_cnt : Int32} {partitions : List ParMeta}
    {locs : List PhyPartitionLocation} (hnodes : NodesOk nodes)
    (h : placePartitions oid replica_cnt partitions nodes = some (nodes', locs)) :
    NodesOk nodes' ∧ (∀ loc ∈ locs, loc.Ok) ∧ locs.length = partitions.length := by
  induction partitions generalizing nodes locs with
  | nil =>
      obtain ⟨rfl, rfl⟩ := Prod.mk.inj (Option.some.inj h)
      exact ⟨hnodes, by simp, rfl⟩
  | cons pm partitions ih =>
      obtain ⟨nodes₁, replic_loc, locs₁, hplace, hall, rfl⟩ := placePartitions_cons_iff.mp h
      obtain ⟨hnodes₁, hips, hsize⟩ := placeReplicas_ok hnodes hplace
      obtain ⟨hnodes₂, hlocs, hlen⟩ := ih hnodes₁ hall
      refine ⟨hnodes₂, ?_, by rw [List.length_cons, List.length_cons, hlen]⟩
      intro loc hloc
      rcases List.mem_cons.mp hloc with rfl | hloc
      · exact ⟨hsize, hips⟩
      · exact hlocs loc hloc

theorem partitionsOf_ok {n : Nat} {partitions : List ParMeta}
    (hrange : ∀ r ∈ range, NoSpace r.min_range ∧ NoSpace r.max_range) (h : partitionsOf range n = some partitions) :
    (∀ pm ∈ partitions, pm.Ok) ∧ partitions.length = n := by
  induction n generalizing partitions with
  | zero =>
      obtain rfl := Option.some.inj h
      exact ⟨by simp, rfl⟩
  | succ i ih =>
      obtain ⟨ps, hps, hrest⟩ := Option.bind_eq_some_iff.mp h
      obtain ⟨r, hr, hres⟩ := Option.bind_eq_some_iff.mp hrest
      obtain rfl := Option.some.inj hres
      obtain ⟨hok, hlen⟩ := ih hps
      obtain ⟨hmin, hmax⟩ := hrange r (List.mem_of_getElem? hr)
      refine ⟨?_, by rw [List.length_append, hlen, List.length_singleton]⟩
      intro pm hpm
      rcases List.mem_append.mp hpm with hpm | hpm
      · exact hok pm hpm
      · rw [List.mem_singleton.mp hpm]
        refine ⟨⟨List.cons_ne_nil _ _, ?_⟩, ?_, hmin, hmax⟩
        · intro c hc
          rcases List.mem_cons.mp hc with rfl | hc
          · rfl
          · exact isspace_eq_false_of_isdigit (isdigit_decimalNat hc)
        · rintro c hc
          obtain rfl := Option.some.inj hc
          rfl

/-! ## Requests -/

theorem columns_ok {col_name : List Bytes} {col_type : List Int32} {cols : Column_info}
    (hnames : ∀ name ∈ col_name, Word name) (hsize : col_name.length < 2 ^ 31)
    (h : columns col_name col_type = some cols) : cols.Ok := by
  unfold columns at h
  split at h
  · rename_i hle
    obtain rfl := Option.some.inj h
    exact ⟨by rw [List.length_take, Nat.min_eq_left hle], hsize, hnames⟩
  · cases h

theorem addTable_ok {order : Order Bytes TabMetaServer} {db : DbMetaServer} {db_name : Bytes} {tms : TabMetaServer}
    (hok : m.Ok) (hdb : m.db_map_.find? db_name = some db) (htms : tms.Ok)
    (h : m.addTable order db db_name tms = some m') : m'.Ok := by
  obtain ⟨tabs_, hassign, hres⟩ := Option.bind_eq_some_iff.mp h
  obtain rfl := Option.some.inj hres
  obtain ⟨hname, hdbOk⟩ := hok.dbs _ (UnorderedMap.find?_eq_some_iff.mp hdb)
  refine ⟨?_, hok.nodes⟩
  intro e he
  rcases UnorderedMap.mem_modify.mp he with ⟨-, hmem⟩ | ⟨_, -, rfl⟩
  · exact hok.dbs e hmem
  · refine ⟨hname, hdbOk.name, ?_⟩
    intro t ht
    rcases (UnorderedMap.mem_assign hassign).mp ht with rfl | ⟨-, hmem⟩
    · exact ⟨rfl, htms⟩
    · exact hdbOk.tabs t hmem

theorem Ok.CreateDataBase {order : Order Bytes DbMetaServer} {db_name : Bytes} {b : Bool} (hok : m.Ok) (hname : Word db_name)
    (h : m.CreateDataBase order db_name = some (m', b)) : m'.Ok := by
  rcases CreateDataBase_cases h with rfl | ⟨db_map_, -, hassign, rfl⟩
  · exact hok
  · refine ⟨?_, hok.nodes⟩
    intro e he
    rcases (UnorderedMap.mem_assign hassign).mp he with rfl | ⟨-, hmem⟩
    · exact ⟨rfl, hname, fun t ht => absurd ht List.not_mem_nil⟩
    · exact hok.dbs e hmem

/-- A table without partitions. -/
theorem Ok.CreateTable {order : Order Bytes TabMetaServer} {location : table_oid_t × DuplicateType}
    {request : CreateTableRequest} {res : Option table_oid_t} (hok : m.Ok) (htab : Word request.tab_name)
    (hcols : ∀ name ∈ request.col_name, Word name) (hsize : request.col_name.length < 2 ^ 31)
    (h : m.CreateTable order location request = some (m', res)) : m'.Ok := by
  rcases CreateTable_cases h with ⟨rfl, -⟩ | ⟨db, col_info, hdb, -, hcol, hadd, -⟩
  · exact hok
  · apply addTable_ok hok hdb ?_ hadd
    exact { name := htab, key_name := fun c hc => absurd hc List.not_mem_nil,
            col_info := columns_ok hcols hsize hcol, size := by simp, partitions := by simp,
            locations := by simp, location := by simp, duplicate_type := fun hne => absurd rfl hne }

/-- A table with partitions: its nodes count one replica more, and keep their names and addresses. -/
theorem Ok.CreatePartitionTable {order : Order Bytes TabMetaServer} {request : CreatePartitonTableRequest}
    {res : Option table_oid_t} (hok : m.Ok) (htab : Word request.tab_name) (hcols : ∀ name ∈ request.col_name, Word name)
    (hsize : request.col_name.length < 2 ^ 31) (hkey : Word request.partition_key_name)
    (hrange : ∀ r ∈ request.range, NoSpace r.min_range ∧ NoSpace r.max_range)
    (h : m.CreatePartitionTable order request = some (m', res)) : m'.Ok := by
  rcases CreatePartitionTable_cases h with
    ⟨rfl, -⟩ | ⟨db, col_info, partitions, nodes, locs, hdb, -, hcol, hparts, hplace, hadd, -⟩
  · exact hok
  · obtain ⟨hpm, hlen⟩ := partitionsOf_ok hrange hparts
    obtain ⟨hnodes, hlocs, hlocsLen⟩ := placePartitions_ok hok.nodes hplace
    have hcnt : partitions.length < 2 ^ 64 := by
      have hlt := request.partition_cnt.toInt_lt
      omega
    have hok' : MetaServer.Ok { m with ip_node_map_ := nodes } := ⟨hok.dbs, hnodes⟩
    apply addTable_ok hok' hdb ?_ hadd
    exact { name := htab, key_name := hkey.nospace, col_info := columns_ok hcols hsize hcol, size := hcnt,
            partitions := hpm, locations := by rw [hlocsLen]; exact hcnt, location := hlocs,
            duplicate_type := fun _ => by dsimp only; split <;> rfl }

theorem Ok.NodeRegister {order : Order Bytes Node} {ip : Bytes} {request : RegisterRequest} (hok : m.Ok)
    (hname : Word request.server_name) (hip : Word ip) (h : m.NodeRegister order ip request = some m') : m'.Ok := by
  rcases NodeRegister_cases h with rfl | ⟨nodes, -, hassign, rfl⟩
  · exact ⟨hok.dbs, NodesOk.modify hok.nodes (fun _ => rfl)⟩
  · refine ⟨hok.dbs, ?_⟩
    intro e he
    rcases (UnorderedMap.mem_assign hassign).mp he with rfl | ⟨-, hmem⟩
    · exact ⟨hname, hip⟩
    · exact hok.nodes e hmem

/-- **One request** keeps the catalog well-formed. -/
theorem Ok.handle {e : Event} (hok : m.Ok) (hvalid : e.Valid) (h : m.handle e = some m') : m'.Ok := by
  cases e with
  | CreateDataBase order db_name =>
      obtain ⟨⟨m₁, b⟩, hreq, rfl⟩ := Option.map_eq_some_iff.mp h
      exact hok.CreateDataBase hvalid hreq
  | CreateTable order location request =>
      obtain ⟨⟨m₁, res⟩, hreq, rfl⟩ := Option.map_eq_some_iff.mp h
      obtain ⟨htab, hcols, hsize⟩ := hvalid
      exact hok.CreateTable htab hcols hsize hreq
  | CreatePartitionTable order request =>
      obtain ⟨⟨m₁, res⟩, hreq, rfl⟩ := Option.map_eq_some_iff.mp h
      obtain ⟨htab, hcols, hsize, hkey, hrange⟩ := hvalid
      exact hok.CreatePartitionTable htab hcols hsize hkey (fun r hr => ⟨(hrange r hr).1, (hrange r hr).2.1⟩) hreq
  | NodeRegister order ip request => exact hok.NodeRegister hvalid.1 hvalid.2 h

/-- **Every catalog that requests make is well-formed.** -/
theorem ok_of_run {es : List Event} (hvalid : ∀ e ∈ es, e.Valid) (hrun : Run (FunStep handle) {} es m) : m.Ok := by
  have hall : (∀ e ∈ es, e.Valid) → m.Ok := by
    apply hrun.history (I := fun es m => (∀ e ∈ es, e.Valid) → m.Ok)
    · exact fun _ => ⟨fun e he => absurd he List.not_mem_nil, fun e he => absurd he List.not_mem_nil⟩
    · intro es m e m' ih hstep hv
      exact (ih (fun e he => hv e (List.mem_append_left _ he))).handle (hv e (by simp)) hstep
  exact hall hvalid

/-- **The catalogs that round-trip**, among those that requests make. -/
theorem roundTrips_iff {es : List Event} (hvalid : ∀ e ∈ es, e.Valid) (hrun : Run (FunStep handle) {} es m) :
    m.RoundTrips ↔ m.Readable := roundTrips_iff_readable (ok_of_run hvalid hrun)

/-! ## A partitioned table, and one that is not -/

/-- A node, a database, and a table with one partition on the node. -/
def partitioned : List Event :=
  [.NodeRegister .front [49] ⟨[110], 8000⟩, .CreateDataBase .front [100],
    .CreatePartitionTable .front ⟨[100], [116], PartitionType.RANGE_PARTITION, [107], ColType.TYPE_INT, 1, [⟨[49], [57]⟩],
      false, 1, [[107]], [ColType.TYPE_INT]⟩]

/-- What `Readable` looks at, for each table. -/
def tables (m : MetaServer) : List (Bytes × Column_info × List ParMeta) :=
  m.db_map_.entries.flatMap fun d => d.2.tabs_.entries.map fun t =>
    (t.2.partition_key_name, t.2.col_info, t.2.partitions)

theorem mem_tables {d : Bytes × DbMetaServer} {t : Bytes × TabMetaServer} (hd : d ∈ m.db_map_.entries)
    (ht : t ∈ d.2.tabs_.entries) : (t.2.partition_key_name, t.2.col_info, t.2.partitions) ∈ tables m :=
  List.mem_flatMap.mpr ⟨d, hd, List.mem_map_of_mem ht⟩

theorem partitioned_valid : ∀ e ∈ partitioned, e.Valid := by
  intro e he
  simp only [partitioned, List.mem_cons, List.not_mem_nil, or_false] at he
  rcases he with rfl | rfl | rfl
  · exact ⟨by decide, by decide⟩
  · show Word [100]
    decide
  · exact ⟨by decide, by decide, by decide, by decide, by decide⟩

theorem exists_partitioned : ∃ m, Run (FunStep handle) {} partitioned m ∧ m.Readable ∧
    (m.db_map_.find? [100]).map (fun db => db.tabs_.size) = some 1 := by
  obtain ⟨m, hrun, hm⟩ : ∃ m, Run (FunStep handle) {} partitioned m ∧
      (tables m, (m.db_map_.find? [100]).map fun db => db.tabs_.size) =
        ([([107], ⟨[[107]], [0]⟩, [⟨[112, 48], 0, [49], [57]⟩])], some 1) :=
    Run.exists_of_map (f := fun m : MetaServer => (tables m, (m.db_map_.find? [100]).map fun db => db.tabs_.size)) (by decide)
  obtain ⟨htables, hsize⟩ := Prod.mk.inj hm
  refine ⟨m, hrun, ?_, hsize⟩
  intro d hd t ht
  have hmem := mem_tables hd ht
  rw [htables] at hmem
  obtain ⟨hkey, hrest⟩ := Prod.mk.inj (List.mem_singleton.mp hmem)
  obtain ⟨hcols, hparts⟩ := Prod.mk.inj hrest
  constructor
  · rw [hkey]
    decide
  · rw [hparts]
    decide
  · rw [hcols]
    rintro name hname
    obtain rfl := Option.some.inj hname
    decide
  · rw [hcols]
    intro hnil
    cases hnil

theorem roundTrips_iff_partitioned : ∃ m, Run (FunStep handle) {} partitioned m ∧ m.RoundTrips := by
  obtain ⟨m, hrun, hreadable, -⟩ := exists_partitioned
  exact ⟨m, hrun, (roundTrips_iff partitioned_valid hrun).mpr hreadable⟩

/-- A database, and a table with one column. -/
def unpartitioned : List Event :=
  [.CreateDataBase .front [100], .CreateTable .front (0, 0) ⟨[100], [116], [[107]], [ColType.TYPE_INT]⟩]

/-- **A table is lost**: `CreateTable` leaves the partition key name empty, and the reader takes the next field for it. -/
theorem table_is_lost : ¬ ∀ (es : List Event) (m : MetaServer), (∀ e ∈ es, e.Valid) → Run (FunStep handle) {} es m →
    m.RoundTrips := by
  intro hall
  obtain ⟨m, hrun, htables⟩ : ∃ m, Run (FunStep handle) {} unpartitioned m ∧
      tables m = [([], ⟨[[107]], [0]⟩, [])] := by
    apply Run.exists_of_map
    decide
  have hvalid : ∀ e ∈ unpartitioned, e.Valid := by
    intro e he
    simp only [unpartitioned, List.mem_cons, List.not_mem_nil, or_false] at he
    rcases he with rfl | rfl
    · show Word [100]
      decide
    · exact ⟨by decide, by decide, by decide⟩
  have hreadable := (roundTrips_iff_readable (ok_of_run hvalid hrun)).mp (hall _ m hvalid hrun)
  -- the table has no partition key name
  have hmem : ([], ⟨[[107]], [0]⟩, []) ∈ tables m := by rw [htables]; exact List.mem_singleton.mpr rfl
  obtain ⟨d, hd, hmem⟩ := List.mem_flatMap.mp hmem
  obtain ⟨t, ht, htable⟩ := List.mem_map.mp hmem
  exact (hreadable d hd t ht).key_name (congrArg Prod.fst htable)

end MetaServer
end DDBMS
