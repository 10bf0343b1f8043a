import DDBMS.MetaServer.FailedLookup
import DDBMS.MetaServer.Placement

/-!
# `MetaServer.LeaderChange` — whether a change of the leader takes effect

`UpdatePartitionLeader` changes a copy of the table location and returns `true`; the table in the catalog stays as it is. So
a change takes effect only when there is nothing to change (`leader_change_iff`).
-/

namespace DDBMS
namespace MetaServer
namespace Catalog

/-- The catalog with another table under this name. -/
def setTable (c : Catalog) (db_name tab_name : Bytes) (tms : TabMetaServer) : Catalog :=
  { c with db_map_ := c.db_map_.modify db_name fun dms =>
      dms.map fun dms => { dms with tabs_ := dms.tabs_.modify tab_name fun _ => some tms } }

/-- A table of the catalog, and one of its partitions. -/
structure HasPartition (c : Catalog) (db_name tab_name : Bytes) (p_id : partition_id_t) (tms : TabMetaServer)
    (loc : PhyPartitionLocation) : Prop where
  table : ∃ dms, c.db_map_.find? db_name = some (some dms) ∧ dms.tabs_.find? tab_name = some (some tms)
  partition : tms.table_location_.partiton_list_.find? (fun loc => loc.p_id_ = p_id) = some loc

/-- `r` is the only replica at this address. -/
def OnlyReplica (loc : PhyPartitionLocation) (ip_addr : Bytes) (r : ReplicaLocation) : Prop :=
  loc.repliaca_location_.filter (fun r => r.ip_addr_ = ip_addr) = [r]

/-- The table with the roles of the replicas of this partition taken out. -/
def withoutRoles (tms : TabMetaServer) (p_id : partition_id_t) : TabMetaServer :=
  { tms with table_location_ := { tms.table_location_ with
      partiton_list_ := tms.table_location_.partiton_list_.map fun loc =>
        if loc.p_id_ = p_id then { loc with repliaca_location_ := loc.repliaca_location_.map fun r =>
          { r with role_ := Replica_Role.INVALID_ROLE } } else loc } }

/-- `tms'` is `tms` with other roles of the replicas of one partition: `r` is the leader, and the others are followers. -/
structure LeaderIs (tms tms' : TabMetaServer) (p_id : partition_id_t) (ip_addr : Bytes) (r : ReplicaLocation) : Prop where
  leader : tms'.table_location_.getReplicaLocation p_id = some { r with role_ := Replica_Role.Leader }
  others : ∀ loc', tms'.table_location_.partiton_list_.find? (fun loc => loc.p_id_ = p_id) = some loc' →
    ∀ r' ∈ loc'.repliaca_location_, r'.ip_addr_ ≠ ip_addr → r'.role_ = Replica_Role.Follower
  rest : withoutRoles tms' p_id = withoutRoles tms p_id

/-- The change takes effect if it returns `true` for the address of one replica; else the catalog is as it was. -/
def TakesEffect (c c' : Catalog) (db_name tab_name : Bytes) (p_id : partition_id_t) (ip_addr : Bytes) :
    Except Thrown Bool → Prop
  | .ok true => ∀ tms loc r, c.HasPartition db_name tab_name p_id tms loc → OnlyReplica loc ip_addr r →
      ∃ tms', c' = c.setTable db_name tab_name tms' ∧ LeaderIs tms tms' p_id ip_addr r
  | _ => c' = c

/-- There is nothing to change: the replica is the leader of its partition, and the others are followers. -/
def NothingToChange (c : Catalog) (db_name tab_name : Bytes) (p_id : partition_id_t) (ip_addr : Bytes) : Prop :=
  ∀ tms loc r, c.HasPartition db_name tab_name p_id tms loc →
    tms.table_location_.duplicate_type_ = DuplicateType.DUPLICATE → OnlyReplica loc ip_addr r →
      r.role_ = Replica_Role.Leader ∧ ∀ r' ∈ loc.repliaca_location_, r'.ip_addr_ ≠ ip_addr → r'.role_ = Replica_Role.Follower

variable {c c' : Catalog} {orders : Orders} {db_name tab_name ip_addr : Bytes} {p_id : partition_id_t}
variable {tms tms' : TabMetaServer} {loc : PhyPartitionLocation} {r : ReplicaLocation} {res : Except Thrown Bool}

/-- A table that is put in is there. -/
theorem setTable_table {dms : DbCatalog} (hdb : c.db_map_.find? db_name = some (some dms))
    (htms : dms.tabs_.find? tab_name = some (some tms)) (h : c = c.setTable db_name tab_name tms') : tms' = tms := by
  have hfind := congrArg (fun c : Catalog => c.db_map_.find? db_name) h
  dsimp only [setTable] at hfind
  rw [UnorderedMap.find?_modify_self, hdb] at hfind
  have htabs := congrArg DbCatalog.tabs_ (Option.some.inj (Option.some.inj hfind))
  rw [htabs] at htms
  dsimp only at htms
  rw [UnorderedMap.find?_modify_self] at htms
  obtain ⟨v, -, hv⟩ := Option.map_eq_some_iff.mp htms
  exact Option.some.inj hv

theorem OnlyReplica.unique (h : OnlyReplica loc ip_addr r) {r' : ReplicaLocation} (hr' : r' ∈ loc.repliaca_location_)
    (hip : r'.ip_addr_ = ip_addr) : r' = r := by
  have hin : r' ∈ loc.repliaca_location_.filter fun r => r.ip_addr_ = ip_addr :=
    List.mem_filter.mpr ⟨hr', decide_eq_true hip⟩
  rw [h] at hin
  exact List.mem_singleton.mp hin

theorem OnlyReplica.mem (h : OnlyReplica loc ip_addr r) : r ∈ loc.repliaca_location_ ∧ r.ip_addr_ = ip_addr := by
  have hin : r ∈ loc.repliaca_location_.filter fun r => r.ip_addr_ = ip_addr := by
    rw [h]
    exact List.mem_singleton_self r
  obtain ⟨hmem, hip⟩ := List.mem_filter.mp hin
  exact ⟨hmem, of_decide_eq_true hip⟩

theorem getReplicaLocation_eq (hloc : tms.table_location_.partiton_list_.find? (fun loc => loc.p_id_ = p_id) = some loc) :
    tms.table_location_.getReplicaLocation p_id = loc.get_replica_location Replica_Role.Leader := by
  rw [PhyTableLocation.getReplicaLocation, hloc]
  rfl

/-- The table as it is has this leader when there is nothing to change. -/
theorem leaderIs_self_iff (hloc : tms.table_location_.partiton_list_.find? (fun loc => loc.p_id_ = p_id) = some loc)
    (hr : OnlyReplica loc ip_addr r) : LeaderIs tms tms p_id ip_addr r ↔
      r.role_ = Replica_Role.Leader ∧
        ∀ r' ∈ loc.repliaca_location_, r'.ip_addr_ ≠ ip_addr → r'.role_ = Replica_Role.Follower := by
  obtain ⟨hmem, hip⟩ := hr.mem
  constructor
  · intro h
    have hleader := h.leader
    rw [getReplicaLocation_eq hloc, PhyPartitionLocation.get_replica_location] at hleader
    have heq := hr.unique (List.mem_of_find?_eq_some hleader) hip
    exact ⟨(congrArg ReplicaLocation.role_ heq).symm, h.others loc hloc⟩
  · rintro ⟨hleader, hothers⟩
    refine ⟨?_, fun loc' hloc' => ?_, rfl⟩
    · have hself : { r with role_ := Replica_Role.Leader } = r := by rw [← hleader]
      rw [getReplicaLocation_eq hloc, hself, PhyPartitionLocation.get_replica_location]
      -- a replica with the role of the leader is not one of the others
      obtain ⟨r', hr'⟩ := Option.isSome_iff_exists.mp
        (List.find?_isSome (p := fun r => decide (r.role_ = Replica_Role.Leader)) |>.mpr
          ⟨r, hmem, decide_eq_true hleader⟩)
      have hrole : r'.role_ = Replica_Role.Leader := by simpa using List.find?_some hr'
      have hin := List.mem_of_find?_eq_some hr'
      by_cases hip' : r'.ip_addr_ = ip_addr
      · rw [hr', hr.unique hin hip']
      · rw [hothers r' hin hip'] at hrole
        exact absurd hrole (by decide)
    · obtain rfl := Option.some.inj (hloc.symm.trans hloc')
      exact hothers

/-- The copy is changed if and only if the table is a duplicate table with this partition. -/
theorem updateLeader_true {tab_loc : PhyTableLocation} (h : (updateLeader tab_loc p_id ip_addr).2 = true) :
    tab_loc.duplicate_type_ = DuplicateType.DUPLICATE := by
  by_contra hne
  rw [updateLeader, if_pos hne] at h
  cases h

theorem updateLeader_false {tab_loc : PhyTableLocation} (h : (updateLeader tab_loc p_id ip_addr).2 = false)
    (hdup : tab_loc.duplicate_type_ = DuplicateType.DUPLICATE) :
    tab_loc.partiton_list_.find? (fun loc => loc.p_id_ = p_id) = none := by
  rw [updateLeader, if_neg (not_not.mpr hdup)] at h
  split at h
  · rename_i hnone
    rw [List.findIdx?_eq_none_iff] at hnone
    rw [List.find?_eq_none]
    exact fun loc hloc => by rw [hnone loc hloc]; exact Bool.false_ne_true
  · cases h

theorem HasPartition.table_eq {dms : DbCatalog} {tms₂ : TabMetaServer} (h : c.HasPartition db_name tab_name p_id tms₂ loc)
    (hdb : c.db_map_.find? db_name = some (some dms)) (htms : dms.tabs_.find? tab_name = some (some tms)) : tms₂ = tms := by
  obtain ⟨dms₂, hdb₂, htms₂⟩ := h.table
  obtain rfl := Option.some.inj (Option.some.inj (hdb.symm.trans hdb₂))
  exact Option.some.inj (Option.some.inj (htms₂.symm.trans htms))

theorem setTable_self {dms : DbCatalog} (hdb : c.db_map_.find? db_name = some (some dms))
    (htms : dms.tabs_.find? tab_name = some (some tms)) : c.setTable db_name tab_name tms = c := by
  have htabs : dms.tabs_.modify tab_name (fun _ => some tms) = dms.tabs_ :=
    UnorderedMap.modify_eq_self fun v hv => Option.some.inj (htms.symm.trans hv)
  have hdbs : c.db_map_.modify db_name (fun dms => dms.map fun dms =>
      { dms with tabs_ := dms.tabs_.modify tab_name fun _ => some tms }) = c.db_map_ := by
    apply UnorderedMap.modify_eq_self
    intro v hv
    obtain rfl := Option.some.inj (hdb.symm.trans hv)
    rw [Option.map_some, htabs]
  rw [setTable, hdbs]

/-- A lookup that fails has not found a partition. -/
theorem FindTable.no_partition {err : MetaServerError} (h : FindTable orders c db_name tab_name c' (.error err)) :
    ¬ c.HasPartition db_name tab_name p_id tms loc := by
  rintro ⟨⟨dms, hdms, htms⟩, -⟩
  cases h with
  | nullDb hdb =>
      rw [hdb] at hdms
      cases hdms
  | newDb hdb hassign => exact hdb (UnorderedMap.mem_keys_of_find? hdms)
  | nullTable hdb hnull =>
      obtain rfl := Option.some.inj (Option.some.inj (hdb.symm.trans hdms))
      rw [hnull] at htms
      cases htms
  | newTable hdb hnew hassign =>
      obtain rfl := Option.some.inj (Option.some.inj (hdb.symm.trans hdms))
      exact hnew (UnorderedMap.mem_keys_of_find? htms)

/-- For a table that is there, the change takes effect when there is nothing to change. -/
theorem takesEffect_found_iff {dms : DbCatalog} (hdb : c.db_map_.find? db_name = some (some dms))
    (htms : dms.tabs_.find? tab_name = some (some tms)) :
    TakesEffect c c db_name tab_name p_id ip_addr (.ok (updateLeader tms.table_location_ p_id ip_addr).2) ↔
      c.NothingToChange db_name tab_name p_id ip_addr := by
  cases hres : (updateLeader tms.table_location_ p_id ip_addr).2 with
  | true =>
      constructor
      · intro htakes tms₂ loc r hpart _ honly
        obtain ⟨tms', hset, hleader⟩ := htakes tms₂ loc r hpart honly
        obtain rfl := hpart.table_eq hdb htms
        obtain rfl := setTable_table hdb htms hset
        exact (leaderIs_self_iff hpart.partition honly).mp hleader
      · intro hnothing tms₂ loc r hpart honly
        obtain rfl := hpart.table_eq hdb htms
        exact ⟨tms₂, (setTable_self hdb htms).symm,
          (leaderIs_self_iff hpart.partition honly).mpr (hnothing _ loc r hpart (updateLeader_true hres) honly)⟩
  | false =>
      refine ⟨fun _ tms₂ loc r hpart hdup _ => ?_, fun _ => rfl⟩
      obtain rfl := hpart.table_eq hdb htms
      have hpartition := hpart.partition
      rw [updateLeader_false hres hdup] at hpartition
      cases hpartition

/-- **A change of the leader takes effect** if and only if there are entries for its names, and there is nothing to change. -/
theorem leader_change_iff (h : c.UpdatePartitionLeader orders db_name tab_name p_id ip_addr = some (c', res)) :
    TakesEffect c c' db_name tab_name p_id ip_addr res ↔
      c.HasEntries db_name tab_name ∧ c.NothingToChange db_name tab_name p_id ip_addr := by
  rcases lookup_cases h with ⟨tms, hfound, hanswer⟩ | ⟨err, hfailed, rfl⟩
  · obtain rfl := Option.some.inj hanswer
    cases hfound with
    | found hdb htms =>
        have hentries : c.HasEntries db_name tab_name := by
          refine ⟨UnorderedMap.mem_keys_of_find? hdb, fun dms hdms => ?_⟩
          obtain rfl := Option.some.inj (Option.some.inj (hdb.symm.trans hdms))
          exact UnorderedMap.mem_keys_of_find? htms
        rw [and_iff_right hentries]
        exact takesEffect_found_iff hdb htms
  · constructor
    · intro hsame
      obtain rfl : c' = c := hsame
      obtain ⟨hdb, htable⟩ := hfailed.hasEntries
      refine ⟨⟨hdb, fun dms hdms => ?_⟩, fun tms loc r hpart => absurd hpart hfailed.no_partition⟩
      obtain ⟨dms', hdms', hin⟩ := htable dms hdms
      obtain rfl := Option.some.inj (Option.some.inj (hdms.symm.trans hdms'))
      exact hin
    · exact fun hboth => hfailed.unchanged hboth.1

/-- A table with one partition, whose leader is on the node at `[2]`. -/
theorem exists_twoReplicas : ∃ m db tms, Run (FunStep handle) {} [.CreateDataBase .front [100],
    .NodeRegister .front [1] ⟨[65], 10⟩, .NodeRegister .front [2] ⟨[66], 20⟩, .CreatePartitionTable .front twoReplicas] m ∧
    m.db_map_.find? [100] = some db ∧ db.tabs_.find? [116] = some tms ∧
    tms.table_location_ = ⟨0, DuplicateType.DUPLICATE,
      [⟨0, 0, 2, [⟨[2], 20, Replica_Role.Leader⟩, ⟨[1], 10, Replica_Role.Follower⟩]⟩]⟩ := by
  obtain ⟨m, hrun, htable⟩ : ∃ m, Run (FunStep handle) {} [.CreateDataBase .front [100],
      .NodeRegister .front [1] ⟨[65], 10⟩, .NodeRegister .front [2] ⟨[66], 20⟩, .CreatePartitionTable .front twoReplicas] m ∧
      (m.table? [100] [116]).map TabMetaServer.table_location_ = some ⟨0, DuplicateType.DUPLICATE,
        [⟨0, 0, 2, [⟨[2], 20, Replica_Role.Leader⟩, ⟨[1], 10, Replica_Role.Follower⟩]⟩]⟩ :=
    Run.exists_of_map (f := fun m : MetaServer => (m.table? [100] [116]).map TabMetaServer.table_location_) (by decide)
  obtain ⟨tms, htms, hlocation⟩ := Option.map_eq_some_iff.mp htable
  obtain ⟨db, hdb, htab⟩ := Option.bind_eq_some_iff.mp htms
  exact ⟨m, db, tms, hrun, hdb, htab, hlocation⟩

theorem UpdatePartitionLeader_embed {m : MetaServer} {db : DbMetaServer} (orders : Orders)
    (hdb : m.db_map_.find? db_name = some db) (htms : db.tabs_.find? tab_name = some tms) :
    (embed m).UpdatePartitionLeader orders db_name tab_name p_id ip_addr =
      some (embed m, .ok (updateLeader tms.table_location_ p_id ip_addr).2) := by
  rw [UpdatePartitionLeader, lookup, findTable_embed orders hdb htms]
  rfl

/-- The leader at `[2]` asks to be the leader. -/
theorem leader_change_iff_leader : ∃ (c : Catalog) (orders : Orders),
    c.UpdatePartitionLeader orders [100] [116] 0 [2] = some (c, .ok true) ∧ TakesEffect c c [100] [116] 0 [2] (.ok true) := by
  obtain ⟨m, db, tms, -, hdb, htms, hlocation⟩ := exists_twoReplicas
  have hcall : (embed m).UpdatePartitionLeader ⟨.front, .front⟩ [100] [116] 0 [2] = some (embed m, .ok true) := by
    rw [UpdatePartitionLeader_embed _ hdb htms, hlocation]
    rfl
  have hdms := find?_embed_some hdb
  have htab := find?_ofDb_some htms
  refine ⟨embed m, _, hcall, (leader_change_iff hcall).mpr ⟨⟨UnorderedMap.mem_keys_of_find? hdms, ?_⟩, ?_⟩⟩
  · intro dms hdms'
    obtain rfl := Option.some.inj (Option.some.inj (hdms.symm.trans hdms'))
    exact UnorderedMap.mem_keys_of_find? htab
  · intro tms₂ loc r hpart _ honly
    obtain rfl := hpart.table_eq hdms htab
    have hloc := hpart.partition
    rw [hlocation] at hloc
    obtain rfl := Option.some.inj hloc
    obtain rfl := List.singleton_inj.mp honly
    decide

/-- The follower at `[1]` asks to be the leader, and the leader stays at `[2]`. -/
theorem leader_stays : ¬ ∀ (es : List Event) (m : MetaServer) (orders : Orders) (c' : Catalog) (db_name tab_name : Bytes)
    (p_id : partition_id_t) (ip_addr : Bytes) (res : Except Thrown Bool), Run (FunStep handle) {} es m →
      (embed m).UpdatePartitionLeader orders db_name tab_name p_id ip_addr = some (c', res) →
        TakesEffect (embed m) c' db_name tab_name p_id ip_addr res := by
  intro hall
  obtain ⟨m, db, tms, hrun, hdb, htms, hlocation⟩ := exists_twoReplicas
  have hcall : (embed m).UpdatePartitionLeader ⟨.front, .front⟩ [100] [116] 0 [1] = some (embed m, .ok true) := by
    rw [UpdatePartitionLeader_embed _ hdb htms, hlocation]
    rfl
  have hdms := find?_embed_some hdb
  have htab := find?_ofDb_some htms
  have hpart : (embed m).HasPartition [100] [116] 0 tms
      ⟨0, 0, 2, [⟨[2], 20, Replica_Role.Leader⟩, ⟨[1], 10, Replica_Role.Follower⟩]⟩ :=
    ⟨⟨ofDb db, hdms, htab⟩, by rw [hlocation]; rfl⟩
  obtain ⟨tms', hset, hleader⟩ := hall _ m _ _ _ _ _ _ _ hrun hcall tms _ ⟨[1], 10, Replica_Role.Follower⟩ hpart rfl
  obtain rfl := setTable_table hdms htab hset
  have hlead := hleader.leader
  rw [hlocation] at hlead
  exact absurd hlead (by decide)

end Catalog
end MetaServer
end DDBMS
