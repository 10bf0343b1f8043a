import DDBMS.Lib.Run
import DDBMS.MetaServer.CreateStatements

/-!
# `MetaServer.Placement` — where `CreatePartitionTable` puts the replicas

Every partition gets a leader and followers, one after the other: each time the active node with the smallest count, and
for a follower one whose address has no replica of the partition yet. When there is no such node the pointer to it is used
uninitialised.

What is placed is always as it should be (`placePartitions_spec`); the question is whether there is a node each time. The
check in front, that the number of replicas is not smaller than the number of nodes, is the wrong way round: so there is one
only when every node gets a replica of every partition (`placement_sound_iff`).
-/

namespace DDBMS
namespace MetaServer

/-- Servers, each with the role of the replica that is placed on it. -/
abbrev Placed := List (Bytes × Replica_Role)

/-- The counts of a server after some placements. -/
def Node.raisedBy (ps : Placed) (server_name : Bytes) (node : Node) : Node :=
  { node with
    leader_par_cnt := node.leader_par_cnt + Int32.ofNat (ps.count (server_name, Replica_Role.Leader))
    follower_par_cnt := node.follower_par_cnt + Int32.ofNat (ps.count (server_name, Replica_Role.Follower)) }

/-- The replica is on this server, which is registered and active, and has this role. -/
def Serves (nodes : UnorderedMap Bytes Node) (p : Bytes × Replica_Role) (r : ReplicaLocation) : Prop :=
  ∃ node, nodes.find? p.1 = some node ∧ node.activate = true ∧ r = ⟨node.ip_addr, node.port, p.2⟩

variable {nodes nodes' : UnorderedMap Bytes Node} {es : List (Bytes × Node)} {e : Bytes × Node} {ps qs : Placed}
variable {candidate : Node → Bool} {cnt : Node → Int32} {s : List Bytes} {p : Bytes × Replica_Role} {r : ReplicaLocation}

/-! ## Picking a node -/

/-- The fold of `pickNode`, from any start. -/
theorem pick_fold (candidate : Node → Bool) (cnt : Node → Int32) (es : List (Bytes × Node))
    (start : Int32 × Option (Bytes × Node)) : ∃ res, es.foldl (fun (min : Int32 × Option (Bytes × Node)) node =>
      if candidate node.2 = true ∧ cnt node.2 < min.1 then (cnt node.2, some node) else min) start = res ∧
    (res = start ∨ ∃ e ∈ es, candidate e.2 = true ∧ cnt e.2 < start.1 ∧ res = (cnt e.2, some e)) ∧
    res.1 ≤ start.1 ∧ ∀ e ∈ es, candidate e.2 = true → res.1 ≤ cnt e.2 := by
  induction es generalizing start with
  | nil => exact ⟨start, rfl, Or.inl rfl, Int32.le_refl _, by simp⟩
  | cons e es ih =>
      rw [List.foldl_cons]
      by_cases he : candidate e.2 = true ∧ cnt e.2 < start.1
      · rw [if_pos he]
        obtain ⟨res, hres, hfrom, hle, hmin⟩ := ih (cnt e.2, some e)
        refine ⟨res, hres, Or.inr ?_, Int32.le_trans hle (Int32.le_of_lt he.2), ?_⟩
        · rcases hfrom with rfl | ⟨x, hx, hcand, hlt, rfl⟩
          · exact ⟨e, List.mem_cons_self, he.1, he.2, rfl⟩
          · exact ⟨x, List.mem_cons_of_mem _ hx, hcand, Int32.lt_trans hlt he.2, rfl⟩
        · intro x hx hcand
          rcases List.mem_cons.mp hx with rfl | hx
          · exact hle
          · exact hmin x hx hcand
      · rw [if_neg he]
        obtain ⟨res, hres, hfrom, hle, hmin⟩ := ih start
        refine ⟨res, hres, ?_, hle, ?_⟩
        · rcases hfrom with rfl | ⟨x, hx, hrest⟩
          · exact Or.inl rfl
          · exact Or.inr ⟨x, List.mem_cons_of_mem _ hx, hrest⟩
        · intro x hx hcand
          rcases List.mem_cons.mp hx with rfl | hx
          · have hnot : ¬ cnt x.2 < start.1 := fun hlt => he ⟨hcand, hlt⟩
            exact Int32.le_trans hle (Int32.not_lt.mp hnot)
          · exact hmin x hx hcand

/-- The node that is picked. -/
theorem pickNode_spec (h : pickNode candidate cnt es = some e) :
    e ∈ es ∧ candidate e.2 = true ∧ cnt e.2 < Int32.maxValue := by
  obtain ⟨res, hres, hfrom, -, -⟩ := pick_fold candidate cnt es (Int32.maxValue, none)
  rw [pickNode, hres] at h
  rcases hfrom with rfl | ⟨x, hx, hcand, hlt, rfl⟩
  · cases h
  · obtain rfl := Option.some.inj h
    exact ⟨hx, hcand, hlt⟩

/-- A node is picked when there is a candidate whose count is not the largest number. -/
theorem pickNode_exists (he : e ∈ es) (hcand : candidate e.2 = true) (hlt : cnt e.2 < Int32.maxValue) :
    ∃ e', pickNode candidate cnt es = some e' := by
  obtain ⟨res, hres, hfrom, -, hmin⟩ := pick_fold candidate cnt es (Int32.maxValue, none)
  rw [pickNode, hres]
  rcases hfrom with rfl | ⟨x, -, -, -, rfl⟩
  · exact absurd hlt (Int32.not_lt.mpr (hmin e he hcand))
  · exact ⟨x, rfl⟩

/-! ## Counts -/

/-- The nodes after some placements. -/
def raise (nodes : UnorderedMap Bytes Node) (ps : Placed) : UnorderedMap Bytes Node :=
  nodes.update fun server_name node => node.raisedBy ps server_name

theorem raisedBy_nil (server_name : Bytes) (node : Node) : node.raisedBy [] server_name = node := by
  simp [Node.raisedBy]

theorem raisedBy_append (ps qs : Placed) (server_name : Bytes) (node : Node) :
    node.raisedBy (ps ++ qs) server_name = (node.raisedBy ps server_name).raisedBy qs server_name := by
  simp only [Node.raisedBy, List.count_append, Int32.ofNat_add, Int32.add_assoc]

theorem raisedBy_other {server_name : Bytes} {role : Replica_Role} {name : Bytes} (h : name ≠ server_name) (node : Node) :
    node.raisedBy [(server_name, role)] name = node := by
  simp [Node.raisedBy, h.symm]

theorem raise_nil (nodes : UnorderedMap Bytes Node) : raise nodes [] = nodes := by
  rw [raise]
  simp only [raisedBy_nil]
  exact UnorderedMap.update_id

theorem raise_append (nodes : UnorderedMap Bytes Node) (ps qs : Placed) :
    raise nodes (ps ++ qs) = raise (raise nodes ps) qs := by
  rw [raise, raise, raise, UnorderedMap.update_update]
  exact UnorderedMap.update_congr fun name node _ => raisedBy_append ps qs name node

theorem raise_perm (h : ps.Perm qs) : raise nodes ps = raise nodes qs := by
  apply UnorderedMap.update_congr
  intro name node _
  rw [Node.raisedBy, Node.raisedBy, h.count_eq, h.count_eq]

theorem find?_raise (nodes : UnorderedMap Bytes Node) (ps : Placed) (name : Bytes) :
    (raise nodes ps).find? name = (nodes.find? name).map (Node.raisedBy ps name) := UnorderedMap.find?_update _

/-- One replica more. -/
theorem modify_replica (nodes : UnorderedMap Bytes Node) {server_name : Bytes} {role : Replica_Role} {f : Node → Node}
    (hf : ∀ node, f node = node.raisedBy [(server_name, role)] server_name) :
    nodes.modify server_name f = raise nodes [(server_name, role)] := by
  rw [UnorderedMap.modify_eq_update]
  apply UnorderedMap.update_congr
  intro name node _
  by_cases hname : name = server_name
  · rw [if_pos hname, hf, hname]
  · rw [if_neg hname, raisedBy_other hname]

/-- One leader more. -/
theorem modify_leader (nodes : UnorderedMap Bytes Node) (server_name : Bytes) :
    (nodes.modify server_name fun node => { node with leader_par_cnt := node.leader_par_cnt + 1 }) =
      raise nodes [(server_name, Replica_Role.Leader)] :=
  modify_replica nodes fun node => by simp [Node.raisedBy, Replica_Role.Leader, Replica_Role.Follower]

/-- One follower more. -/
theorem modify_follower (nodes : UnorderedMap Bytes Node) (server_name : Bytes) :
    (nodes.modify server_name fun node => { node with follower_par_cnt := node.follower_par_cnt + 1 }) =
      raise nodes [(server_name, Replica_Role.Follower)] :=
  modify_replica nodes fun node => by simp [Node.raisedBy, Replica_Role.Leader, Replica_Role.Follower]

/-- The counts do not matter for who serves. -/
theorem serves_raise (qs : Placed) : Serves (raise nodes qs) p r ↔ Serves nodes p r := by
  unfold Serves
  rw [find?_raise]
  constructor
  · rintro ⟨node', hfind, hactive, hr⟩
    obtain ⟨node, hnode, rfl⟩ := Option.map_eq_some_iff.mp hfind
    exact ⟨node, hnode, hactive, hr⟩
  · rintro ⟨node, hnode, hactive, hr⟩
    exact ⟨node.raisedBy qs p.1, by rw [hnode]; rfl, hactive, hr⟩

/-- All of these are served. -/
abbrev ServesAll (nodes : UnorderedMap Bytes Node) : Placed → List ReplicaLocation → Prop := List.Forall₂ (Serves nodes)

theorem servesAll_raise {rs : List ReplicaLocation} (qs : Placed) : ServesAll (raise nodes qs) ps rs ↔ ServesAll nodes ps rs :=
  ⟨fun h => h.imp fun _ _ hserves => (serves_raise qs).mp hserves,
    fun h => h.imp fun _ _ hserves => (serves_raise qs).mpr hserves⟩

theorem ServesAll.mem {rs : List ReplicaLocation} (h : ServesAll nodes ps rs) (hp : p ∈ ps) : ∃ r ∈ rs, Serves nodes p r := by
  induction h with
  | nil => cases hp
  | @cons q r' ps rs hserves _ ih =>
      rcases List.mem_cons.mp hp with rfl | hp
      · exact ⟨r', List.mem_cons_self, hserves⟩
      · obtain ⟨r, hr, hserves⟩ := ih hp
        exact ⟨r, List.mem_cons_of_mem _ hr, hserves⟩

/-- The addresses of the replicas are those of the servers. -/
theorem ServesAll.ips {rs : List ReplicaLocation} (h : ServesAll nodes ps rs) :
    rs.map ReplicaLocation.ip_addr_ = ps.map fun p => ((nodes.find? p.1).map Node.ip_addr).getD [] := by
  induction h with
  | nil => rfl
  | cons hserves _ ih =>
      obtain ⟨node, hfind, -, rfl⟩ := hserves
      rw [List.map_cons, List.map_cons, ih, hfind]
      rfl

/-- Different addresses belong to different servers. -/
theorem ServesAll.servers_nodup {rs : List ReplicaLocation} (h : ServesAll nodes ps rs)
    (hips : (rs.map ReplicaLocation.ip_addr_).Nodup) : (ps.map Prod.fst).Nodup := by
  rw [h.ips] at hips
  refine List.Nodup.of_map (fun name => ((nodes.find? name).map Node.ip_addr).getD []) ?_
  rw [List.map_map]
  exact hips

/-! ## The followers -/

/-- These servers get the followers. -/
def followers (names : List Bytes) : Placed := names.map fun name => (name, Replica_Role.Follower)

/-- What the loop over the followers has done: the servers that it has picked, and their replicas. -/
structure FollowersPlaced (nodes : UnorderedMap Bytes Node) (s : List Bytes) (j : Nat) (names : List Bytes)
    (rs : List ReplicaLocation) : Prop where
  length : names.length = j
  serves : ServesAll nodes (followers names) rs
  ips : (rs.map ReplicaLocation.ip_addr_).Nodup
  fresh : ∀ r ∈ rs, r.ip_addr_ ∉ s
  counts : ∀ name ∈ names, ∀ node, nodes.find? name = some node → node.follower_par_cnt < Int32.maxValue

/-- One follower in front of the others. -/
theorem FollowersPlaced.cons {j : Nat} {names : List Bytes} {rs : List ReplicaLocation} {server_name : Bytes} {node : Node}
    (hfind : nodes.find? server_name = some node) (hactive : node.activate = true) (hfresh : node.ip_addr ∉ s)
    (hlt : node.follower_par_cnt < Int32.maxValue)
    (h : FollowersPlaced (raise nodes [(server_name, Replica_Role.Follower)]) (node.ip_addr :: s) j names rs) :
    FollowersPlaced nodes s (j + 1) (server_name :: names) (⟨node.ip_addr, node.port, Replica_Role.Follower⟩ :: rs) := by
  have hserves := (servesAll_raise _).mp h.serves
  -- the other servers have other addresses
  have hother : ∀ name ∈ names, name ≠ server_name := by
    rintro name hname rfl
    obtain ⟨r, hr, n, hn, -, rfl⟩ := hserves.mem (List.mem_map_of_mem hname)
    obtain rfl := Option.some.inj (hfind.symm.trans hn)
    exact h.fresh _ hr List.mem_cons_self
  constructor
  · rw [List.length_cons, h.length]
  · exact .cons ⟨node, hfind, hactive, rfl⟩ hserves
  · refine List.nodup_cons.mpr ⟨?_, h.ips⟩
    intro hin
    obtain ⟨r, hr, hip⟩ := List.mem_map.mp hin
    exact h.fresh r hr (by rw [hip]; exact List.mem_cons_self)
  · intro r hr
    rcases List.mem_cons.mp hr with rfl | hr
    · exact hfresh
    · exact fun hs => h.fresh r hr (List.mem_cons_of_mem _ hs)
  · intro name hname n hn
    rcases List.mem_cons.mp hname with rfl | hname
    · obtain rfl := Option.some.inj (hfind.symm.trans hn)
      exact hlt
    · refine h.counts name hname n ?_
      rw [find?_raise, hn, Option.map_some, raisedBy_other (hother name hname)]

/-- **The loop over the followers** picks different servers, at new addresses. -/
theorem placeFollowers_spec {j : Nat} {locs locs' : List ReplicaLocation}
    (h : placeFollowers j nodes s locs = some (nodes', locs')) : ∃ names rs, FollowersPlaced nodes s j names rs ∧
      locs' = locs ++ rs ∧ nodes' = raise nodes (followers names) := by
  induction j generalizing nodes s locs with
  | zero =>
      obtain ⟨rfl, rfl⟩ := Prod.mk.inj (Option.some.inj h)
      exact ⟨[], [], ⟨rfl, .nil, List.nodup_nil, by simp, by simp⟩, (List.append_nil _).symm, (raise_nil _).symm⟩
  | succ j ih =>
      obtain ⟨⟨server_name, node⟩, hpick, hrest⟩ := Option.bind_eq_some_iff.mp h
      obtain ⟨hmem, hcand, hlt⟩ := pickNode_spec hpick
      rw [Bool.and_eq_true, Bool.not_eq_true', List.contains_eq_mem, decide_eq_false_iff_not] at hcand
      dsimp only at hrest
      rw [modify_follower] at hrest
      obtain ⟨names, rs, hplaced, rfl, rfl⟩ := ih hrest
      refine ⟨server_name :: names, _ :: rs, .cons (UnorderedMap.find?_eq_some_iff.mpr hmem) hcand.1 hcand.2 hlt hplaced,
        List.append_assoc _ _ _, ?_⟩
      rw [← raise_append]
      rfl

/-- Addresses at which a follower can be placed. -/
structure Available (nodes : UnorderedMap Bytes Node) (s ips : List Bytes) : Prop where
  nodup : ips.Nodup
  fresh : ∀ ip ∈ ips, ip ∉ s
  node : ∀ ip ∈ ips, ∃ name node, nodes.find? name = some node ∧ node.activate = true ∧ node.ip_addr = ip ∧
    node.follower_par_cnt < Int32.maxValue

/-- When one of them has been taken, or none. -/
theorem Available.erase {ips : List Bytes} {server_name : Bytes} {node : Node} (h : Available nodes s ips)
    (hfind : nodes.find? server_name = some node) :
    Available (raise nodes [(server_name, Replica_Role.Follower)]) (node.ip_addr :: s) (ips.erase node.ip_addr) := by
  constructor
  · exact h.nodup.erase _
  · intro ip hip hin
    obtain ⟨hne, hip⟩ := h.nodup.mem_erase_iff.mp hip
    rcases List.mem_cons.mp hin with heq | hin
    · exact hne heq
    · exact h.fresh ip hip hin
  · intro ip hip
    obtain ⟨hne, hip⟩ := h.nodup.mem_erase_iff.mp hip
    obtain ⟨name, n, hn, hactive, rfl, hlt⟩ := h.node ip hip
    have hname : name ≠ server_name := by
      rintro rfl
      obtain rfl := Option.some.inj (hfind.symm.trans hn)
      exact hne rfl
    exact ⟨name, n, by rw [find?_raise, hn, Option.map_some, raisedBy_other hname], hactive, rfl, hlt⟩

/-- **There is a node for every follower** when there are enough addresses. -/
theorem placeFollowers_exists {j : Nat} {ips : List Bytes} {locs : List ReplicaLocation} (h : Available nodes s ips)
    (hlen : j ≤ ips.length) : ∃ res, placeFollowers j nodes s locs = some res := by
  induction j generalizing nodes s ips locs with
  | zero => exact ⟨_, rfl⟩
  | succ j ih =>
      obtain ⟨ip, hip⟩ := List.exists_mem_of_length_pos (show 0 < ips.length by omega)
      obtain ⟨name, n, hn, hactive, rfl, hlt⟩ := h.node ip hip
      have hcand : (n.activate && !s.contains n.ip_addr) = true := by
        rw [hactive, List.contains_eq_mem, decide_eq_false (h.fresh _ hip)]
        rfl
      obtain ⟨⟨server_name, node⟩, hpick⟩ := @pickNode_exists nodes.entries (name, n)
        (fun node => node.activate && !s.contains node.ip_addr) Node.follower_par_cnt
        (UnorderedMap.find?_eq_some_iff.mp hn) hcand hlt
      have hfind := UnorderedMap.find?_eq_some_iff.mpr (pickNode_spec hpick).1
      have hleft : j ≤ (ips.erase node.ip_addr).length := by
        rw [List.length_erase]
        split <;> omega
      obtain ⟨res, hres⟩ := @ih _ _ _ (locs ++ [⟨node.ip_addr, node.port, Replica_Role.Follower⟩]) (h.erase hfind) hleft
      refine ⟨res, Option.bind_eq_some_iff.mpr ⟨_, hpick, ?_⟩⟩
      dsimp only
      rw [modify_follower]
      exact hres

/-! ## The replicas of a partition -/

/-- These replicas of a partition are as they should be: as many as the request says, on different servers, which are
    registered and active, and with one leader. -/
structure Placement (nodes : UnorderedMap Bytes Node) (replica_cnt : Int32) (ps : Placed) (rs : List ReplicaLocation) :
    Prop where
  length : (rs.length : Int) = replica_cnt.toInt
  servers : (ps.map Prod.fst).Nodup
  serves : ServesAll nodes ps rs
  leader : (ps.map Prod.snd).count Replica_Role.Leader = 1
  role : ∀ p ∈ ps, p.2 = Replica_Role.Leader ∨ p.2 = Replica_Role.Follower

theorem Placement.of_raise {replica_cnt : Int32} {rs : List ReplicaLocation}
    (h : Placement (raise nodes qs) replica_cnt ps rs) : Placement nodes replica_cnt ps rs :=
  ⟨h.length, h.servers, (servesAll_raise _).mp h.serves, h.leader, h.role⟩

/-- The leader and the followers of one partition. -/
structure ReplicasPlaced (nodes : UnorderedMap Bytes Node) (replica_cnt : Int32) (server_name : Bytes) (names : List Bytes)
    (rs : List ReplicaLocation) : Prop where
  pick : ∃ node, pickNode Node.activate Node.leader_par_cnt nodes.entries = some (server_name, node)
  length : names.length = (replica_cnt.toInt - 1).toNat
  serves : ServesAll nodes ((server_name, Replica_Role.Leader) :: followers names) rs
  ips : (rs.map ReplicaLocation.ip_addr_).Nodup
  counts : ∀ name ∈ names, ∀ node, nodes.find? name = some node → node.follower_par_cnt < Int32.maxValue

theorem map_fst_followers (names : List Bytes) : (followers names).map Prod.fst = names := by
  rw [followers, List.map_map]
  exact List.map_id _

theorem ReplicasPlaced.servers {replica_cnt : Int32} {server_name : Bytes} {names : List Bytes} {rs : List ReplicaLocation}
    (h : ReplicasPlaced nodes replica_cnt server_name names rs) : (server_name :: names).Nodup := by
  have hnodup := h.serves.servers_nodup h.ips
  rwa [List.map_cons, map_fst_followers] at hnodup

/-- **What `placeReplicas` places.** -/
theorem placeReplicas_spec {replica_cnt : Int32} {rs : List ReplicaLocation}
    (h : placeReplicas replica_cnt nodes = some (nodes', rs)) : ∃ server_name names,
      ReplicasPlaced nodes replica_cnt server_name names rs ∧
      nodes' = raise nodes ((server_name, Replica_Role.Leader) :: followers names) := by
  obtain ⟨⟨server_name, node⟩, hpick, hrest⟩ := Option.bind_eq_some_iff.mp h
  obtain ⟨hmem, hactive, -⟩ := pickNode_spec hpick
  have hfind := UnorderedMap.find?_eq_some_iff.mpr hmem
  dsimp only at hrest
  rw [modify_leader] at hrest
  obtain ⟨names, rs, hplaced, rfl, rfl⟩ := placeFollowers_spec hrest
  have hserves := (servesAll_raise _).mp hplaced.serves
  refine ⟨server_name, names, ⟨⟨node, hpick⟩, hplaced.length, .cons ⟨node, hfind, hactive, rfl⟩ hserves, ?_, ?_⟩, ?_⟩
  · refine List.nodup_cons.mpr ⟨?_, hplaced.ips⟩
    intro hin
    obtain ⟨r, hr, hip⟩ := List.mem_map.mp hin
    exact hplaced.fresh r hr (List.mem_singleton.mpr hip)
  · intro name hname n hn
    have hraised := hplaced.counts name hname (n.raisedBy [(server_name, Replica_Role.Leader)] name)
      (by rw [find?_raise, hn, Option.map_some])
    simpa [Node.raisedBy, Replica_Role.Leader, Replica_Role.Follower] using hraised
  · rw [← raise_append]
    rfl

/-- The replicas are as they should be, unless the request wants no replica at all. -/
theorem ReplicasPlaced.placement {replica_cnt : Int32} {server_name : Bytes} {names : List Bytes} {rs : List ReplicaLocation}
    (h : ReplicasPlaced nodes replica_cnt server_name names rs) (hcnt : 1 ≤ replica_cnt.toInt) :
    Placement nodes replica_cnt ((server_name, Replica_Role.Leader) :: followers names) rs := by
  constructor
  · have hlen := h.serves.length_eq
    rw [List.length_cons, followers, List.length_map, h.length] at hlen
    omega
  · rw [List.map_cons, map_fst_followers]
    exact h.servers
  · exact h.serves
  · have hnone : ((followers names).map Prod.snd).count Replica_Role.Leader = 0 := by
      rw [followers, List.map_map]
      refine List.count_eq_zero.mpr fun hin => ?_
      obtain ⟨name, -, hrole⟩ := List.mem_map.mp hin
      exact absurd hrole (show Replica_Role.Follower ≠ Replica_Role.Leader by decide)
    rw [List.map_cons, List.count_cons_self, hnone]
  · intro p hp
    rcases List.mem_cons.mp hp with rfl | hp
    · exact Or.inl rfl
    · obtain ⟨name, -, rfl⟩ := List.mem_map.mp hp
      exact Or.inr rfl

/-! ## Every node has a replica -/

/-- The partition gets a replica on every node: these are as many as the request says, all active, at different addresses. -/
structure Everywhere (nodes : UnorderedMap Bytes Node) (replica_cnt : Int32) : Prop where
  all : (nodes.size : Int) = replica_cnt.toInt
  active : ∀ e ∈ nodes.entries, e.2.activate = true
  ips : (nodes.entries.map fun e => e.2.ip_addr).Nodup

theorem Everywhere.raise {replica_cnt : Int32} (h : Everywhere nodes replica_cnt) (qs : Placed) :
    Everywhere (raise nodes qs) replica_cnt := by
  constructor
  · rw [MetaServer.raise, UnorderedMap.size_update]
    exact h.all
  · intro e he
    obtain ⟨x, hx, rfl⟩ := List.mem_map.mp he
    exact h.active x hx
  · show ((nodes.entries.map _).map _).Nodup
    rw [List.map_map]
    exact h.ips

/-- The counts leave room for so many partitions with a replica on every node: each time there is a node for the leader, and
    the other nodes do not have the largest number of followers yet. -/
def Room : Nat → UnorderedMap Bytes Node → Prop
  | 0, _ => True
  | k + 1, nodes => ∃ server_name node, pickNode Node.activate Node.leader_par_cnt nodes.entries = some (server_name, node) ∧
      (∀ e ∈ nodes.entries, e.1 ≠ server_name → e.2.follower_par_cnt < Int32.maxValue) ∧
      Room k (raise nodes ((server_name, Replica_Role.Leader) :: followers (nodes.keys.erase server_name)))

/-- The addresses of all nodes, found by their names. -/
theorem map_ips (nodes : UnorderedMap Bytes Node) :
    nodes.keys.map (fun name => ((nodes.find? name).map Node.ip_addr).getD []) = nodes.entries.map fun e => e.2.ip_addr := by
  rw [UnorderedMap.keys, List.map_map]
  apply List.map_congr_left
  intro e he
  show ((nodes.find? e.1).map Node.ip_addr).getD [] = e.2.ip_addr
  rw [UnorderedMap.find?_eq_some_iff.mpr he]
  rfl

/-- Where there are no more nodes than replicas, all of them have one. -/
theorem ReplicasPlaced.perm_keys {replica_cnt : Int32} {server_name : Bytes} {names : List Bytes} {rs : List ReplicaLocation}
    (h : ReplicasPlaced nodes replica_cnt server_name names rs) (hcnt : 1 ≤ replica_cnt.toInt)
    (hsize : (nodes.size : Int) ≤ replica_cnt.toInt) : (server_name :: names).Perm nodes.keys := by
  have hsub : server_name :: names ⊆ nodes.keys := by
    intro name hname
    obtain ⟨p, hp, rfl⟩ : ∃ p ∈ (server_name, Replica_Role.Leader) :: followers names, p.1 = name := by
      rw [← List.mem_map, List.map_cons, map_fst_followers]
      exact hname
    obtain ⟨r, -, node, hfind, -, -⟩ := h.serves.mem hp
    exact List.mem_map_of_mem (UnorderedMap.find?_eq_some_iff.mp hfind)
  apply (List.subperm_of_subset h.servers hsub).perm_of_length_le
  rw [UnorderedMap.keys, List.length_map, List.length_cons, h.length]
  have hle : nodes.entries.length = nodes.size := rfl
  omega

theorem ReplicasPlaced.everywhere {replica_cnt : Int32} {server_name : Bytes} {names : List Bytes} {rs : List ReplicaLocation}
    (h : ReplicasPlaced nodes replica_cnt server_name names rs) (hperm : (server_name :: names).Perm nodes.keys)
    (hcnt : 1 ≤ replica_cnt.toInt) : Everywhere nodes replica_cnt := by
  constructor
  · have hlen := hperm.length_eq
    rw [List.length_cons, h.length, UnorderedMap.keys, List.length_map] at hlen
    show (nodes.entries.length : Int) = replica_cnt.toInt
    omega
  · intro e he
    have hname : e.1 ∈ server_name :: names := hperm.mem_iff.mpr (List.mem_map_of_mem he)
    obtain ⟨p, hp, heq⟩ : ∃ p ∈ (server_name, Replica_Role.Leader) :: followers names, p.1 = e.1 := by
      rw [← List.mem_map, List.map_cons, map_fst_followers]
      exact hname
    obtain ⟨r, -, node, hfind, hactive, -⟩ := h.serves.mem hp
    rw [heq, UnorderedMap.find?_eq_some_iff.mpr he] at hfind
    obtain rfl := Option.some.inj hfind
    exact hactive
  · have hips := h.ips
    rw [h.serves.ips, ← Function.comp_def (fun name => ((nodes.find? name).map Node.ip_addr).getD []) Prod.fst, ← List.map_map,
      List.map_cons, map_fst_followers, (hperm.map _).nodup_iff, map_ips] at hips
    exact hips

/-- The order of the followers does not matter to the counts. -/
theorem raise_others {server_name : Bytes} {names : List Bytes} (hperm : (server_name :: names).Perm nodes.keys) :
    raise nodes ((server_name, Replica_Role.Leader) :: followers (nodes.keys.erase server_name)) =
      raise nodes ((server_name, Replica_Role.Leader) :: followers names) := by
  obtain ⟨-, hothers⟩ := List.cons_perm_iff_perm_erase.mp hperm
  exact raise_perm ((hothers.symm.map _).cons _)

/-- **There is a node for every replica** when every node is to have one. -/
theorem placeReplicas_exists {replica_cnt : Int32} {server_name : Bytes} {node : Node} (h : Everywhere nodes replica_cnt)
    (hpick : pickNode Node.activate Node.leader_par_cnt nodes.entries = some (server_name, node))
    (hroom : ∀ e ∈ nodes.entries, e.1 ≠ server_name → e.2.follower_par_cnt < Int32.maxValue) :
    ∃ res, placeReplicas replica_cnt nodes = some res := by
  obtain ⟨hmem, -, -⟩ := pickNode_spec hpick
  have hfind := UnorderedMap.find?_eq_some_iff.mpr hmem
  have hip : node.ip_addr ∈ nodes.entries.map fun e => e.2.ip_addr :=
    List.mem_map_of_mem (f := fun e : Bytes × Node => e.2.ip_addr) hmem
  have havailable : Available (MetaServer.raise nodes [(server_name, Replica_Role.Leader)]) [node.ip_addr]
      ((nodes.entries.map fun e => e.2.ip_addr).erase node.ip_addr) := by
    refine ⟨h.ips.erase _, ?_, ?_⟩
    · intro ip hin hs
      exact (h.ips.mem_erase_iff.mp hin).1 (List.mem_singleton.mp hs)
    · intro ip hin
      obtain ⟨hne, hin⟩ := h.ips.mem_erase_iff.mp hin
      obtain ⟨e, he, rfl⟩ := List.mem_map.mp hin
      have hother : e.1 ≠ server_name := by
        rintro rfl
        obtain rfl := Option.some.inj (hfind.symm.trans (UnorderedMap.find?_eq_some_iff.mpr he))
        exact hne rfl
      refine ⟨e.1, e.2, ?_, h.active e he, rfl, hroom e he hother⟩
      rw [find?_raise, UnorderedMap.find?_eq_some_iff.mpr he, Option.map_some, raisedBy_other hother]
  have hlen : (replica_cnt.toInt - 1).toNat ≤ ((nodes.entries.map fun e => e.2.ip_addr).erase node.ip_addr).length := by
    rw [List.length_erase_of_mem hip, List.length_map]
    have hall : (nodes.entries.length : Int) = replica_cnt.toInt := h.all
    omega
  obtain ⟨res, hres⟩ := @placeFollowers_exists _ _ _ _ [⟨node.ip_addr, node.port, Replica_Role.Leader⟩] havailable hlen
  refine ⟨res, Option.bind_eq_some_iff.mpr ⟨_, hpick, ?_⟩⟩
  dsimp only
  rw [modify_leader]
  exact hres

/-! ## The loop over the partitions -/

/-- The replicas of all partitions, and the servers that they are placed on. -/
abbrev AllPlaced (nodes : UnorderedMap Bytes Node) (replica_cnt : Int32) :
    List Placed → List PhyPartitionLocation → Prop :=
  List.Forall₂ fun ps loc => Placement nodes replica_cnt ps loc.repliaca_location_

/-- **What `placePartitions` places.** -/
theorem placePartitions_spec {oid : table_oid_t} {replica_cnt : Int32} {partitions : List ParMeta}
    {locs : List PhyPartitionLocation} (hcnt : 1 ≤ replica_cnt.toInt)
    (h : placePartitions oid replica_cnt partitions nodes = some (nodes', locs)) :
    ∃ placed : List Placed, AllPlaced nodes replica_cnt placed locs ∧ nodes' = raise nodes placed.flatten ∧
      locs.map PhyPartitionLocation.p_id_ = partitions.map ParMeta.p_id := by
  induction partitions generalizing nodes locs with
  | nil =>
      obtain ⟨rfl, rfl⟩ := Prod.mk.inj (Option.some.inj h)
      exact ⟨[], .nil, (raise_nil _).symm, rfl⟩
  | cons pm partitions ih =>
      obtain ⟨nodes₁, replic_loc, locs₁, hplace, hall, rfl⟩ := placePartitions_cons_iff.mp h
      obtain ⟨server_name, names, hplaced, rfl⟩ := placeReplicas_spec hplace
      obtain ⟨placed, hplacement, rfl, hids⟩ := ih hall
      refine ⟨((server_name, Replica_Role.Leader) :: followers names) :: placed, ?_, ?_, ?_⟩
      · exact .cons (hplaced.placement hcnt) (hplacement.imp fun _ _ hp => hp.of_raise)
      · rw [List.flatten_cons, raise_append]
      · rw [List.map_cons, List.map_cons, hids]

/-- With as many replicas as nodes, or more, it places one on every node. -/
theorem placePartitions_everywhere {oid : table_oid_t} {replica_cnt : Int32} {partitions : List ParMeta}
    {locs : List PhyPartitionLocation} (hcnt : 1 ≤ replica_cnt.toInt) (hsize : (nodes.size : Int) ≤ replica_cnt.toInt)
    (h : placePartitions oid replica_cnt partitions nodes = some (nodes', locs)) :
    (partitions = [] ∨ Everywhere nodes replica_cnt) ∧ Room partitions.length nodes := by
  induction partitions generalizing nodes locs with
  | nil => exact ⟨Or.inl rfl, trivial⟩
  | cons pm partitions ih =>
      obtain ⟨nodes₁, replic_loc, locs₁, hplace, hall, rfl⟩ := placePartitions_cons_iff.mp h
      obtain ⟨server_name, names, hplaced, rfl⟩ := placeReplicas_spec hplace
      have hperm := hplaced.perm_keys hcnt hsize
      obtain ⟨node, hpick⟩ := hplaced.pick
      refine ⟨Or.inr (hplaced.everywhere hperm hcnt), server_name, node, hpick, ?_, ?_⟩
      · intro e he hother
        have hname : e.1 ∈ server_name :: names := hperm.mem_iff.mpr (List.mem_map_of_mem he)
        exact hplaced.counts e.1 (List.mem_of_ne_of_mem hother hname) e.2 (UnorderedMap.find?_eq_some_iff.mpr he)
      · rw [raise_others hperm]
        exact (ih (by rwa [raise, UnorderedMap.size_update]) hall).2

/-- **It finds a node for every replica** when every node is to have one and the counts leave room. -/
theorem placePartitions_exists {oid : table_oid_t} {replica_cnt : Int32} {partitions : List ParMeta}
    (h : Everywhere nodes replica_cnt) (hroom : Room partitions.length nodes) :
    ∃ res, placePartitions oid replica_cnt partitions nodes = some res := by
  induction partitions generalizing nodes with
  | nil => exact ⟨_, rfl⟩
  | cons pm partitions ih =>
      obtain ⟨server_name, node, hpick, hcounts, hroom⟩ := hroom
      obtain ⟨⟨nodes₁, replic_loc⟩, hplace⟩ := placeReplicas_exists h hpick hcounts
      obtain ⟨server_name', names, hplaced, rfl⟩ := placeReplicas_spec hplace
      obtain ⟨node', hpick'⟩ := hplaced.pick
      obtain ⟨rfl, -⟩ := Prod.mk.inj (Option.some.inj (hpick.symm.trans hpick'))
      have hcnt : 1 ≤ replica_cnt.toInt := by
        have hpos := List.length_pos_of_mem (pickNode_spec hpick).1
        have hall : (nodes.entries.length : Int) = replica_cnt.toInt := h.all
        omega
      rw [raise_others (hplaced.perm_keys hcnt (le_of_eq h.all))] at hroom
      obtain ⟨res, hres⟩ := ih (h.raise _) hroom
      exact ⟨_, Option.bind_eq_some_iff.mpr ⟨_, hplace, Option.bind_eq_some_iff.mpr ⟨_, hres, rfl⟩⟩⟩

/-! ## Requests -/

/-- The checks in front turn the request down. -/
def Refused (m : MetaServer) (request : CreatePartitonTableRequest) : Prop :=
  ∀ db, m.db_map_.find? request.db_name = some db → request.tab_name ∈ db.tabs_.keys ∨
    request.partition_type = PartitionType.NONE_PARTITION ∨ size_t request.replica_cnt < m.ip_node_map_.size

/-- The request has a type for every column and a range for every partition, and the table map of the database is not full. -/
structure Complete (m : MetaServer) (request : CreatePartitonTableRequest) : Prop where
  columns : request.col_name.length ≤ request.col_type.length
  ranges : request.partition_cnt.toInt.toNat ≤ request.range.length
  tabs : ∀ db, m.db_map_.find? request.db_name = some db → db.tabs_.size + 1 < 2 ^ 64

/-- What a new table is made of, when the request is not turned down. -/
structure Creation (m : MetaServer) (request : CreatePartitonTableRequest) where
  db : DbMetaServer
  col_info : Column_info
  partitions : List ParMeta
  nodes : UnorderedMap Bytes Node
  locs : List PhyPartitionLocation
  found : m.db_map_.find? request.db_name = some db
  cols : columns request.col_name request.col_type = some col_info
  parts : partitionsOf request.range request.partition_cnt.toInt.toNat = some partitions
  place : placePartitions db.next_oid_ request.replica_cnt partitions m.ip_node_map_ = some (nodes, locs)

section Requests

variable {order : Order Bytes TabMetaServer} {m m' : MetaServer} {request : CreatePartitonTableRequest} {db : DbMetaServer}
variable {tms : TabMetaServer}

/-- The new table. -/
def Creation.table (c : Creation m request) : TabMetaServer :=
  { oid := c.db.next_oid_, name := request.tab_name, col_info := c.col_info,
    partition_type := partitionTypeOf request.partition_key_type, partition_key_name := request.partition_key_name,
    partition_key_type := colTypeOf request.partition_key_type, partition_cnt_ := request.partition_cnt,
    partitions := c.partitions,
    table_location_ := ⟨c.db.next_oid_,
      if request.has_replica then DuplicateType.DUPLICATE else DuplicateType.NOT_DUPLICATE, c.locs⟩ }

theorem CreatePartitionTable_refused (h : m.Refused request) : m.CreatePartitionTable order request = some (m, none) := by
  unfold CreatePartitionTable
  split
  · rfl
  · rename_i db hdb
    rcases h db hdb with hkey | htype | hcnt
    · rw [if_pos hkey]
    · rw [if_pos htype, ite_self]
    · rw [if_pos hcnt, ite_self, ite_self]

/-- **A request that is not turned down** makes a table, if it does anything defined. -/
theorem CreatePartitionTable_iff (h : ¬ m.Refused request) {res : Option table_oid_t} :
    m.CreatePartitionTable order request = some (m', res) ↔ ∃ c : Creation m request,
      { m with ip_node_map_ := c.nodes }.addTable order c.db request.db_name c.table = some m' ∧ res = some c.db.next_oid_ := by
  simp only [Refused, not_forall, not_or] at h
  obtain ⟨db, hdb, hkey, htype, hcnt⟩ := h
  rw [CreatePartitionTable, hdb]
  dsimp only
  rw [if_neg hkey, if_neg htype, if_neg hcnt]
  constructor
  · intro h
    obtain ⟨col_info, hcol, h⟩ := Option.bind_eq_some_iff.mp h
    obtain ⟨partitions, hparts, h⟩ := Option.bind_eq_some_iff.mp h
    obtain ⟨⟨nodes, locs⟩, hplace, h⟩ := Option.bind_eq_some_iff.mp h
    obtain ⟨m₂, hadd, hres⟩ := Option.bind_eq_some_iff.mp h
    obtain ⟨rfl, rfl⟩ := Prod.mk.inj (Option.some.inj hres)
    exact ⟨⟨db, col_info, partitions, nodes, locs, hdb, hcol, hparts, hplace⟩, hadd, rfl⟩
  · rintro ⟨c, hadd, rfl⟩
    obtain rfl := Option.some.inj (hdb.symm.trans c.found)
    refine Option.bind_eq_some_iff.mpr ⟨_, c.cols, Option.bind_eq_some_iff.mpr ⟨_, c.parts, ?_⟩⟩
    exact Option.bind_eq_some_iff.mpr ⟨_, c.place, Option.bind_eq_some_iff.mpr ⟨_, hadd, rfl⟩⟩

/-- A new table can be found. -/
theorem addTable_table? {db_name : Bytes} (hdb : m.db_map_.find? db_name = some db)
    (h : m.addTable order db db_name tms = some m') : m'.table? db_name tms.name = some tms := by
  obtain ⟨tabs_, hassign, hres⟩ := Option.bind_eq_some_iff.mp h
  obtain rfl := Option.some.inj hres
  rw [table?, UnorderedMap.find?_modify_self, hdb]
  exact UnorderedMap.find?_assign_self hassign

/-- A new table is added when its name is new and the table map is not full. -/
theorem addTable_exists {db_name : Bytes} (hnew : tms.name ∉ db.tabs_.keys) (hsize : db.tabs_.size + 1 < 2 ^ 64) :
    ∃ m', m.addTable order db db_name tms = some m' := by
  rw [addTable, UnorderedMap.assign, dif_neg hnew, dif_pos hsize]
  exact ⟨_, rfl⟩

theorem columns_exists {col_name : List Bytes} {col_type : List Int32} :
    (∃ col_info, columns col_name col_type = some col_info) ↔ col_name.length ≤ col_type.length := by
  unfold columns
  split <;> simp_all

/-- There are partitions when there are enough ranges. -/
theorem partitionsOf_exists {range : List StringRange} {cnt : Nat} :
    (∃ partitions, partitionsOf range cnt = some partitions) ↔ cnt ≤ range.length := by
  induction cnt with
  | zero => exact ⟨fun _ => Nat.zero_le _, fun _ => ⟨[], rfl⟩⟩
  | succ i ih =>
      constructor
      · rintro ⟨partitions, h⟩
        obtain ⟨before, -, h⟩ := Option.bind_eq_some_iff.mp h
        obtain ⟨r, hr, -⟩ := Option.bind_eq_some_iff.mp h
        exact (List.getElem?_eq_some_iff.mp hr).1
      · intro hlt
        obtain ⟨before, hbefore⟩ := ih.mpr (Nat.le_of_succ_le hlt)
        rw [partitionsOf, hbefore, List.getElem?_eq_getElem hlt]
        exact ⟨_, rfl⟩

theorem Creation.length_partitions (c : Creation m request) : c.partitions.length = request.partition_cnt.toInt.toNat := by
  have hids := congrArg List.length (p_id_partitionsOf c.parts)
  rwa [List.length_map, List.length_map, List.length_range] at hids

/-- A request that is not turned down: the table is new, and the number of replicas passes the check. -/
theorem not_refused_iff (hdb : m.db_map_.find? request.db_name = some db) : ¬ m.Refused request ↔
    request.tab_name ∉ db.tabs_.keys ∧ request.partition_type ≠ PartitionType.NONE_PARTITION ∧
      m.ip_node_map_.size ≤ size_t request.replica_cnt := by
  simp only [Refused, hdb, Option.some.injEq, forall_eq', not_or, not_lt, ne_eq]

theorem exists_db_of_not_refused (h : ¬ m.Refused request) : ∃ db, m.db_map_.find? request.db_name = some db := by
  by_contra hnone
  exact h fun db hdb => absurd ⟨db, hdb⟩ hnone

/-! ## When a table is created -/

/-- Every node gets a replica of every partition, and the counts leave room for them. -/
structure Placeable (m : MetaServer) (request : CreatePartitonTableRequest) : Prop where
  everywhere : Everywhere m.ip_node_map_ request.replica_cnt
  room : Room request.partition_cnt.toInt.toNat m.ip_node_map_

/-- The counts leave room for the leaders of so many partitions. -/
def LeaderRoom : Nat → UnorderedMap Bytes Node → Prop
  | 0, _ => True
  | k + 1, nodes => ∃ server_name node, pickNode Node.activate Node.leader_par_cnt nodes.entries = some (server_name, node) ∧
      LeaderRoom k (raise nodes [(server_name, Replica_Role.Leader)])

/-- There is a node for every replica: for one on every node, or for the leaders alone when the request wants no replica. -/
def HasNodes (m : MetaServer) (request : CreatePartitonTableRequest) : Prop :=
  request.partition_cnt.toInt ≤ 0 ∨ (1 ≤ request.replica_cnt.toInt ∧ m.Placeable request) ∨
    (request.replica_cnt.toInt < 1 ∧ LeaderRoom request.partition_cnt.toInt.toNat m.ip_node_map_)

/-- Partitions without followers. -/
theorem placePartitions_leaders {oid : table_oid_t} {replica_cnt : Int32} {partitions : List ParMeta}
    (hcnt : replica_cnt.toInt < 1) : (∃ res, placePartitions oid replica_cnt partitions nodes = some res) ↔
      LeaderRoom partitions.length nodes := by
  induction partitions generalizing nodes with
  | nil => exact ⟨fun _ => trivial, fun _ => ⟨_, rfl⟩⟩
  | cons pm partitions ih =>
      have hnone : (replica_cnt.toInt - 1).toNat = 0 := by omega
      constructor
      · rintro ⟨res, h⟩
        obtain ⟨nodes₁, replic_loc, locs₁, hplace, hall, -⟩ := placePartitions_cons_iff.mp h
        obtain ⟨⟨server_name, node⟩, hpick, hleader⟩ := Option.bind_eq_some_iff.mp hplace
        dsimp only at hleader
        rw [modify_leader, hnone] at hleader
        obtain ⟨rfl, -⟩ := Prod.mk.inj (Option.some.inj hleader)
        exact ⟨server_name, node, hpick, ih.mp ⟨_, hall⟩⟩
      · rintro ⟨server_name, node, hpick, hroom⟩
        obtain ⟨res₂, hall⟩ := ih.mpr hroom
        have hplace : placeReplicas replica_cnt nodes = some (raise nodes [(server_name, Replica_Role.Leader)],
            [⟨node.ip_addr, node.port, Replica_Role.Leader⟩]) := by
          rw [placeReplicas, hpick, hnone, ← modify_leader]
          rfl
        exact ⟨_, placePartitions_cons_iff.mpr ⟨_, _, _, hplace, hall, rfl⟩⟩

/-- **There are nodes** for all partitions of a request that passes the check. -/
theorem placePartitions_iff {oid : table_oid_t} {partitions : List ParMeta} (h : ¬ m.Refused request)
    (hlen : partitions.length = request.partition_cnt.toInt.toNat) :
    (∃ res, placePartitions oid request.replica_cnt partitions m.ip_node_map_ = some res) ↔ m.HasNodes request := by
  by_cases hnone : request.partition_cnt.toInt ≤ 0
  · obtain rfl : partitions = [] := List.length_eq_zero_iff.mp (by omega)
    exact ⟨fun _ => Or.inl hnone, fun _ => ⟨_, rfl⟩⟩
  rw [HasNodes, or_iff_right hnone, ← hlen]
  by_cases hcnt : 1 ≤ request.replica_cnt.toInt
  · rw [or_iff_left (fun hless => by omega), and_iff_right hcnt]
    constructor
    · rintro ⟨⟨nodes, locs⟩, hplace⟩
      obtain ⟨db, hdb⟩ := exists_db_of_not_refused h
      obtain ⟨-, -, hsize⟩ := (not_refused_iff hdb).mp h
      have hvalue := size_t_eq (show 0 ≤ request.replica_cnt.toInt by omega)
      obtain ⟨rfl | heverywhere, hroom⟩ := placePartitions_everywhere hcnt (by omega) hplace
      · rw [List.length_nil] at hlen
        omega
      · exact ⟨heverywhere, hlen ▸ hroom⟩
    · rintro ⟨heverywhere, hroom⟩
      exact placePartitions_exists heverywhere (hlen ▸ hroom)
  · rw [or_iff_right (fun hmore => hcnt hmore.1), placePartitions_leaders (by omega), and_iff_right (by omega)]

/-- **A table is created** by a request that is not turned down if and only if it is complete and has nodes. -/
theorem created_iff (h : ¬ m.Refused request) : (∃ m' oid, m.CreatePartitionTable order request = some (m', some oid)) ↔
    m.Complete request ∧ m.HasNodes request := by
  constructor
  · rintro ⟨m', oid, hres⟩
    obtain ⟨c, hadd, -⟩ := (CreatePartitionTable_iff h).mp hres
    refine ⟨⟨columns_exists.mp ⟨_, c.cols⟩, partitionsOf_exists.mp ⟨_, c.parts⟩, ?_⟩,
      (placePartitions_iff h c.length_partitions).mp ⟨_, c.place⟩⟩
    intro db hdb
    obtain rfl := Option.some.inj (c.found.symm.trans hdb)
    obtain ⟨tabs_, hassign, -⟩ := Option.bind_eq_some_iff.mp hadd
    rw [← UnorderedMap.size_assign_of_not_mem ((not_refused_iff c.found).mp h).1 hassign]
    exact tabs_.size_lt
  · rintro ⟨hcomplete, hnodes⟩
    obtain ⟨db, hdb⟩ := exists_db_of_not_refused h
    obtain ⟨col_info, hcols⟩ := columns_exists.mpr hcomplete.columns
    obtain ⟨partitions, hparts⟩ := partitionsOf_exists.mpr hcomplete.ranges
    have hlen := congrArg List.length (p_id_partitionsOf hparts)
    rw [List.length_map, List.length_map, List.length_range] at hlen
    obtain ⟨⟨nodes, locs⟩, hplace⟩ := (@placePartitions_iff m request db.next_oid_ _ h hlen).mpr hnodes
    let c : Creation m request := ⟨db, col_info, partitions, nodes, locs, hdb, hcols, hparts, hplace⟩
    obtain ⟨m', hadd⟩ := @addTable_exists order { m with ip_node_map_ := nodes } db c.table request.db_name
      ((not_refused_iff hdb).mp h).1 (hcomplete.tabs db hdb)
    exact ⟨m', db.next_oid_, (CreatePartitionTable_iff h).mpr ⟨c, hadd, rfl⟩⟩

/-- What has been created is found under its name. -/
theorem Creation.table? (c : Creation m request)
    (hadd : { m with ip_node_map_ := c.nodes }.addTable order c.db request.db_name c.table = some m') :
    m'.table? request.db_name request.tab_name = some c.table := by
  have hdb : ({ m with ip_node_map_ := c.nodes } : MetaServer).db_map_.find? request.db_name = some c.db := c.found
  exact addTable_table? hdb hadd

/-! ## The placement is sound -/

/-- The request is turned down and nothing changes, or a table is created with so many partitions as the request says, whose
    replicas are all placed as they should be and counted at their nodes. -/
def PlacementSound (order : Order Bytes TabMetaServer) (m : MetaServer) (request : CreatePartitonTableRequest) : Prop :=
  (∃ m', m.CreatePartitionTable order request = some (m', none) ∧ m' = m) ∨
  ∃ m' oid tms placed, m.CreatePartitionTable order request = some (m', some oid) ∧
    m'.table? request.db_name request.tab_name = some tms ∧
    tms.partitions.length = request.partition_cnt.toInt.toNat ∧
    tms.table_location_.partiton_list_.map PhyPartitionLocation.p_id_ = tms.partitions.map ParMeta.p_id ∧
    AllPlaced m.ip_node_map_ request.replica_cnt placed tms.table_location_.partiton_list_ ∧
    m'.ip_node_map_ = raise m.ip_node_map_ placed.flatten

/-- A partition with replicas as they should be has at least one. -/
theorem AllPlaced.one_le {replica_cnt : Int32} {placed : List Placed} {locs : List PhyPartitionLocation}
    (h : AllPlaced nodes replica_cnt placed locs) (hlocs : locs ≠ []) : 1 ≤ replica_cnt.toInt := by
  cases h with
  | nil => exact absurd rfl hlocs
  | @cons ps loc placed locs hp _ =>
      have hmem : Replica_Role.Leader ∈ ps.map Prod.snd := List.count_pos_iff.mp (by rw [hp.leader]; exact Nat.one_pos)
      have hpos := List.length_pos_of_mem hmem
      rw [List.length_map, hp.serves.length_eq] at hpos
      have hlen := hp.length
      omega

/-- Where a replica goes to every node, there is a node. -/
theorem Placeable.one_le (h : m.Placeable request) (hpos : 0 < request.partition_cnt.toInt) :
    1 ≤ request.replica_cnt.toInt := by
  have hroom := h.room
  obtain ⟨k, hk⟩ : ∃ k, request.partition_cnt.toInt.toNat = k + 1 := ⟨request.partition_cnt.toInt.toNat - 1, by omega⟩
  rw [hk] at hroom
  obtain ⟨server_name, node, hpick, -⟩ := hroom
  have hnodes := List.length_pos_of_mem (pickNode_spec hpick).1
  have hall : (m.ip_node_map_.entries.length : Int) = request.replica_cnt.toInt := h.everywhere.all
  omega

/-- What is placed for a table that is created, when the request wants a replica of each partition. -/
theorem Creation.placed (c : Creation m request) (h : request.partition_cnt.toInt ≤ 0 ∨ 1 ≤ request.replica_cnt.toInt) :
    ∃ placed, AllPlaced m.ip_node_map_ request.replica_cnt placed c.locs ∧ c.nodes = raise m.ip_node_map_ placed.flatten ∧
      c.locs.map PhyPartitionLocation.p_id_ = c.partitions.map ParMeta.p_id := by
  rcases h with hnone | hcnt
  · have hnil : c.partitions = [] := List.length_eq_zero_iff.mp (by rw [c.length_partitions]; omega)
    have hplace := c.place
    rw [hnil] at hplace ⊢
    obtain ⟨hnodes, hlocs⟩ := Prod.mk.inj (Option.some.inj hplace)
    rw [← hnodes, ← hlocs]
    exact ⟨[], .nil, (raise_nil _).symm, rfl⟩
  · exact placePartitions_spec hcnt c.place

/-- **Replica placement is sound** if and only if the request is turned down, or it is complete and makes no partitions, or
    partitions with a replica on every node. -/
theorem placement_sound_iff (order : Order Bytes TabMetaServer) (m : MetaServer) (request : CreatePartitonTableRequest) :
    PlacementSound order m request ↔ m.Refused request ∨
      (m.Complete request ∧ (request.partition_cnt.toInt ≤ 0 ∨ m.Placeable request)) := by
  by_cases hrefused : m.Refused request
  · exact ⟨fun _ => Or.inl hrefused, fun _ => Or.inl ⟨m, CreatePartitionTable_refused hrefused, rfl⟩⟩
  rw [or_iff_right hrefused]
  constructor
  · rintro (⟨m', hres, -⟩ | ⟨m', oid, tms, placed, hres, -, hlen, hids, hplaced, -⟩)
    · obtain ⟨c, -, hnone⟩ := (CreatePartitionTable_iff hrefused).mp hres
      cases hnone
    · obtain ⟨hcomplete, hnone | ⟨-, hplaceable⟩ | ⟨hless, -⟩⟩ := (created_iff hrefused).mp ⟨m', oid, hres⟩
      · exact ⟨hcomplete, Or.inl hnone⟩
      · exact ⟨hcomplete, Or.inr hplaceable⟩
      · refine ⟨hcomplete, Or.inl (not_lt.mp fun hpos => ?_)⟩
        -- a partition would have a replica
        have hlocs : tms.table_location_.partiton_list_ ≠ [] := by
          intro hnil
          have hsame := congrArg List.length hids
          rw [hnil, List.length_map, List.length_map, List.length_nil] at hsame
          omega
        have hcnt := hplaced.one_le hlocs
        omega
  · rintro ⟨hcomplete, hplaceable⟩
    have hcnt : request.partition_cnt.toInt ≤ 0 ∨ 1 ≤ request.replica_cnt.toInt := by
      rcases hplaceable with hnone | hplaceable
      · exact Or.inl hnone
      · by_cases hpos : 0 < request.partition_cnt.toInt
        · exact Or.inr (hplaceable.one_le hpos)
        · exact Or.inl (not_lt.mp hpos)
    have hnodes : m.HasNodes request := by
      rcases hplaceable with hnone | hplaceable
      · exact Or.inl hnone
      · exact hcnt.imp_right fun hcnt => Or.inl ⟨hcnt, hplaceable⟩
    obtain ⟨m', oid, hres⟩ := (@created_iff order m request hrefused).mpr ⟨hcomplete, hnodes⟩
    obtain ⟨c, hadd, -⟩ := (CreatePartitionTable_iff hrefused).mp hres
    obtain ⟨placed, hplaced, hraise, hids⟩ := c.placed hcnt
    refine Or.inr ⟨m', oid, c.table, placed, hres, c.table? hadd, c.length_partitions, hids, hplaced, ?_⟩
    obtain ⟨tabs_, -, hm'⟩ := Option.bind_eq_some_iff.mp hadd
    obtain rfl := Option.some.inj hm'
    exact hraise

end Requests

/-- Two replicas of one partition, `[0, 9]`. -/
def twoReplicas : CreatePartitonTableRequest :=
  { db_name := [100], tab_name := [116], partition_type := PartitionType.RANGE_PARTITION, partition_key_name := [107],
    partition_key_type := ColType.TYPE_INT, partition_cnt := 1, range := [⟨[48], [57]⟩], has_replica := true, replica_cnt := 2,
    col_name := [[107]], col_type := [ColType.TYPE_INT] }

/-- There is no node for the second replica when only one node is registered. -/
theorem follower_unset : ¬ ∀ (es : List Event) (m : MetaServer) (order : Order Bytes TabMetaServer)
    (request : CreatePartitonTableRequest), Run (FunStep handle) {} es m → PlacementSound order m request := by
  intro hall
  obtain ⟨m, hrun, hnone⟩ : ∃ m, Run (FunStep handle) {} [.CreateDataBase .front [100], .NodeRegister .front [1] ⟨[65], 10⟩] m ∧
      (m.CreatePartitionTable .front twoReplicas).isNone = true :=
    Run.exists_of_map (f := fun m : MetaServer => (m.CreatePartitionTable .front twoReplicas).isNone) (by decide)
  rw [Option.isNone_iff_eq_none] at hnone
  rcases hall _ m .front twoReplicas hrun with ⟨_, hres, -⟩ | ⟨_, _, _, _, hres, -⟩
  · rw [hnone] at hres
    cases hres
  · rw [hnone] at hres
    cases hres

end MetaServer
end DDBMS
