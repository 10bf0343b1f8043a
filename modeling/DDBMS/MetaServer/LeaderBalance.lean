import DDBMS.MetaServer.Placement
import Mathlib.Algebra.BigOperators.Group.List.Basic

/-!
# `MetaServer.LeaderBalance` — the leaders are spread evenly

Each partition gets its leader on the active node that has the fewest. Whatever the order of the nodes, the smallest of
some counts that differ by at most one may grow by one (`WithinOne.grow`), so the counts of the active nodes stay as close as
they were, and add up to the number of partitions that were placed (`Spread`). The nodes stay the same as long as nobody
registers.
-/

namespace DDBMS

/-- No two of the counts differ by more than one. -/
def WithinOne (vs : List Int) : Prop := ∀ v ∈ vs, ∀ w ∈ vs, v ≤ w + 1

/-- The smallest count grows by one. -/
theorem WithinOne.grow {lo hi : List Int} {v : Int} (h : WithinOne (lo ++ v :: hi)) (hmin : ∀ w ∈ lo ++ v :: hi, v ≤ w) :
    WithinOne (lo ++ (v + 1) :: hi) := by
  have hold : ∀ x ∈ lo ++ (v + 1) :: hi, x = v + 1 ∨ x ∈ lo ++ v :: hi := by
    intro x hx
    simp only [List.mem_append, List.mem_cons] at hx ⊢
    rcases hx with hx | rfl | hx
    · exact Or.inr (Or.inl hx)
    · exact Or.inl rfl
    · exact Or.inr (Or.inr (Or.inr hx))
  intro x hx y hy
  rcases hold x hx with rfl | hx'
  · rcases hold y hy with rfl | hy'
    · omega
    · have := hmin y hy'
      omega
  · rcases hold y hy with rfl | hy'
    · have := h x hx' v (by simp)
      omega
    · exact h x hx' y hy'

namespace MetaServer

/-- The numbers of leaders of the active nodes. -/
def leaderCounts (nodes : UnorderedMap Bytes Node) : List Int :=
  (nodes.entries.filter fun e => e.2.activate).map fun e => e.2.leader_par_cnt.toInt

/-- So many leaders are spread evenly over the active nodes. -/
structure Spread (nodes : UnorderedMap Bytes Node) (placed : Nat) : Prop where
  even : WithinOne (leaderCounts nodes)
  total : (leaderCounts nodes).sum = placed

variable {nodes nodes' : UnorderedMap Bytes Node} {placed : Nat}

/-! ## One leader more -/

/-- The node that is picked has the smallest count. -/
theorem pickNode_min {candidate : Node → Bool} {cnt : Node → Int32} {es : List (Bytes × Node)} {e : Bytes × Node}
    (h : pickNode candidate cnt es = some e) : ∀ x ∈ es, candidate x.2 = true → cnt e.2 ≤ cnt x.2 := by
  obtain ⟨res, hres, hfrom, -, hmin⟩ := pick_fold candidate cnt es (Int32.maxValue, none)
  rw [pickNode, hres] at h
  rcases hfrom with rfl | ⟨x, -, -, -, rfl⟩
  · cases h
  · obtain rfl := Option.some.inj h
    exact hmin

/-- A count below the largest number does not wrap around. -/
theorem toInt_succ {n : Int32} (h : n < Int32.maxValue) : (n + 1).toInt = n.toInt + 1 := by
  have hlt := Int32.lt_iff_toInt_lt.mp h
  have hle := n.le_toInt
  have hmax : Int32.maxValue.toInt = 2147483647 := rfl
  rw [Int32.toInt_add]
  show (n.toInt + 1).bmod (2 ^ 32) = n.toInt + 1
  rw [Int.bmod_eq_of_le (by omega) (by omega)]

/-- The followers are no leaders. -/
theorem count_leader (server_name name : Bytes) (names : List Bytes) :
    ((server_name, Replica_Role.Leader) :: followers names).count (name, Replica_Role.Leader) =
      if server_name = name then 1 else 0 := by
  have hnone : (followers names).count (name, Replica_Role.Leader) = 0 := by
    refine List.count_eq_zero.mpr fun hin => ?_
    obtain ⟨x, -, hx⟩ := List.mem_map.mp hin
    exact absurd (congrArg Prod.snd hx) (show Replica_Role.Follower ≠ Replica_Role.Leader by decide)
  rw [List.count_cons, hnone]
  by_cases hname : server_name = name
  · subst hname
    simp
  · simp [hname]

/-- What `raise` does to the counts: the one of the leader grows, all others stay. -/
theorem leaderCounts_raise {server_name : Bytes} {node : Node} (names : List Bytes)
    (hmem : (server_name, node) ∈ nodes.entries) (hactive : node.activate = true)
    (hlt : node.leader_par_cnt < Int32.maxValue) : ∃ lo hi,
      leaderCounts nodes = lo ++ node.leader_par_cnt.toInt :: hi ∧
      leaderCounts (raise nodes ((server_name, Replica_Role.Leader) :: followers names)) =
        lo ++ (node.leader_par_cnt.toInt + 1) :: hi := by
  obtain ⟨before, after, hsplit⟩ := List.append_of_mem hmem
  have hnodup := nodes.nodup
  rw [hsplit, List.map_append, List.map_cons] at hnodup
  have hothers : ∀ e ∈ before ++ after, server_name ≠ e.1 := by
    intro e he heq
    have hdisj := List.nodup_middle.mp hnodup
    rw [← List.map_append] at hdisj
    have hin : e.1 ∈ (before ++ after).map Prod.fst := List.mem_map_of_mem he
    rw [← heq] at hin
    exact (List.nodup_cons.mp hdisj).1 hin
  -- the other nodes keep their number of leaders
  have hkeep : ∀ es : List (Bytes × Node), (∀ e ∈ es, server_name ≠ e.1) →
      (((es.map fun e => (e.1, e.2.raisedBy ((server_name, Replica_Role.Leader) :: followers names) e.1)).filter
        fun e => e.2.activate).map fun e => e.2.leader_par_cnt.toInt) =
      (es.filter fun e => e.2.activate).map fun e => e.2.leader_par_cnt.toInt := by
    intro es hes
    rw [List.filter_map, List.map_map]
    refine List.map_congr_left fun e he => ?_
    have hne := hes e (List.mem_filter.mp he).1
    simp [Node.raisedBy, count_leader, hne]
  refine ⟨(before.filter fun e => e.2.activate).map fun e => e.2.leader_par_cnt.toInt,
    (after.filter fun e => e.2.activate).map fun e => e.2.leader_par_cnt.toInt, ?_, ?_⟩
  · rw [leaderCounts, hsplit, List.filter_append,
      List.filter_cons_of_pos (p := fun e : Bytes × Node => e.2.activate) (a := (server_name, node)) hactive,
      List.map_append, List.map_cons]
  · have hself : (node.raisedBy ((server_name, Replica_Role.Leader) :: followers names) server_name).leader_par_cnt.toInt =
        node.leader_par_cnt.toInt + 1 := by
      rw [Node.raisedBy, count_leader, if_pos rfl, ← toInt_succ hlt]
      rfl
    rw [leaderCounts, raise, UnorderedMap.update]
    dsimp only
    rw [hsplit, List.map_append, List.map_cons, List.filter_append,
      List.filter_cons_of_pos (p := fun e : Bytes × Node => e.2.activate)
        (a := (server_name, node.raisedBy ((server_name, Replica_Role.Leader) :: followers names) server_name)) hactive,
      List.map_append, List.map_cons, hself, hkeep before fun e he => hothers e (List.mem_append_left _ he),
      hkeep after fun e he => hothers e (List.mem_append_right _ he)]

/-- The leader and the followers of one partition. -/
theorem Spread.placeReplicas {replica_cnt : Int32} {rs : List ReplicaLocation} (h : Spread nodes placed)
    (hplace : MetaServer.placeReplicas replica_cnt nodes = some (nodes', rs)) : Spread nodes' (placed + 1) := by
  obtain ⟨server_name, names, hplaced, rfl⟩ := placeReplicas_spec hplace
  obtain ⟨node, hpick⟩ := hplaced.pick
  obtain ⟨hmem, hactive, hlt⟩ := pickNode_spec hpick
  obtain ⟨lo, hi, hold, hnew⟩ := leaderCounts_raise names hmem hactive hlt
  have hmin : ∀ w ∈ leaderCounts nodes, node.leader_par_cnt.toInt ≤ w := by
    intro w hw
    obtain ⟨e, he, rfl⟩ := List.mem_map.mp hw
    obtain ⟨he, hcand⟩ := List.mem_filter.mp he
    exact Int32.le_iff_toInt_le.mp (pickNode_min hpick e he hcand)
  have heven := h.even
  have htotal := h.total
  rw [hold] at hmin heven htotal
  constructor
  · rw [hnew]
    exact heven.grow hmin
  · rw [hnew, List.sum_append, List.sum_cons]
    rw [List.sum_append, List.sum_cons] at htotal
    push_cast
    omega

/-- The loop over the partitions. -/
theorem Spread.placePartitions {oid : table_oid_t} {replica_cnt : Int32} {partitions : List ParMeta}
    {locs : List PhyPartitionLocation} (h : Spread nodes placed)
    (hplace : MetaServer.placePartitions oid replica_cnt partitions nodes = some (nodes', locs)) :
    Spread nodes' (placed + partitions.length) := by
  induction partitions generalizing nodes placed locs with
  | nil =>
      obtain ⟨rfl, -⟩ := Prod.mk.inj (Option.some.inj hplace)
      exact h
  | cons pm partitions ih =>
      obtain ⟨nodes₁, rs, locs₁, hone, hall, rfl⟩ := placePartitions_cons_iff.mp hplace
      have hlast := ih (h.placeReplicas hone) hall
      rwa [Nat.add_assoc, Nat.add_comm 1, ← List.length_cons (a := pm)] at hlast

/-! ## Requests -/

/-- The set of nodes stays. -/
def Event.KeepsNodes : Event → Prop
  | .NodeRegister _ _ _ => False
  | .CreateDataBase _ _ | .CreateTable _ _ _ | .CreatePartitionTable _ _ => True

/-- How many partitions a request places: all of those it asks for, if it creates the table. -/
def partitionsPlaced (m : MetaServer) : Event → Nat
  | .CreatePartitionTable order request =>
    match m.CreatePartitionTable order request with
    | some (_, some _) => request.partition_cnt.toInt.toNat
    | _ => 0
  | .CreateDataBase _ _ | .CreateTable _ _ _ | .NodeRegister _ _ _ => 0

/-- One request, with the number of all partitions placed so far. -/
def handleCounting (w : MetaServer × Nat) (e : Event) : Option (MetaServer × Nat) :=
  (handle w.1 e).map fun m => (m, w.2 + w.1.partitionsPlaced e)

/-- **What one request leaves of the balance.** -/
theorem Spread.handle {m m' : MetaServer} {e : Event} (h : Spread m.ip_node_map_ placed) (he : e.KeepsNodes)
    (hstep : MetaServer.handle m e = some m') : Spread m'.ip_node_map_ (placed + m.partitionsPlaced e) := by
  cases e with
  | CreateDataBase order db_name =>
      obtain ⟨⟨m₁, b⟩, hcreate, rfl⟩ := Option.map_eq_some_iff.mp hstep
      rcases CreateDataBase_cases hcreate with rfl | ⟨db_map_, -, -, rfl⟩
      · exact h
      · exact h
  | CreateTable order location request =>
      obtain ⟨⟨m₁, res⟩, hcreate, rfl⟩ := Option.map_eq_some_iff.mp hstep
      rcases CreateTable_cases hcreate with ⟨rfl, -⟩ | ⟨db, col_info, -, -, -, hadd, -⟩
      · exact h
      · rw [ip_node_map_addTable hadd]
        exact h
  | CreatePartitionTable order request =>
      obtain ⟨⟨m₁, res⟩, hcreate, rfl⟩ := Option.map_eq_some_iff.mp hstep
      rw [partitionsPlaced, hcreate]
      rcases CreatePartitionTable_cases hcreate with ⟨rfl, rfl⟩ |
        ⟨db, col_info, partitions, nodes, locs, -, -, -, hparts, hplace, hadd, rfl⟩
      · exact h
      · have hlen := congrArg List.length (p_id_partitionsOf hparts)
        rw [List.length_map, List.length_map, List.length_range] at hlen
        rw [ip_node_map_addTable hadd, ← hlen]
        exact h.placePartitions hplace
  | NodeRegister order ip request => exact absurd he id

/-- **The leaders are spread evenly.** On nodes that have no leaders yet, whatever is created: the numbers of leaders of two
    active nodes differ by at most one, and all of them together are the partitions that were placed. -/
theorem leaders_even {m₀ : MetaServer}
    (hzero : ∀ e ∈ m₀.ip_node_map_.entries, e.2.activate = true → e.2.leader_par_cnt = 0) {es : List Event}
    {w : MetaServer × Nat} (hrun : Run (Guarded (fun _ e => e.KeepsNodes) (FunStep handleCounting)) (m₀, 0) es w) :
    (∀ e ∈ w.1.ip_node_map_.entries, ∀ f ∈ w.1.ip_node_map_.entries, e.2.activate = true → f.2.activate = true →
      (e.2.leader_par_cnt.toInt - f.2.leader_par_cnt.toInt).natAbs ≤ 1) ∧
    ((w.1.ip_node_map_.entries.filter fun e => e.2.activate).map fun e => e.2.leader_par_cnt.toInt).sum = w.2 := by
  have hstart : Spread m₀.ip_node_map_ 0 := by
    have hall : ∀ v ∈ leaderCounts m₀.ip_node_map_, v = 0 := by
      intro v hv
      obtain ⟨e, he, rfl⟩ := List.mem_map.mp hv
      obtain ⟨he, hactive⟩ := List.mem_filter.mp he
      rw [hzero e he hactive]
      rfl
    constructor
    · intro v hv w hw
      rw [hall v hv, hall w hw]
      exact Int.zero_le_ofNat 1
    · exact List.sum_eq_zero hall
  have hspread : Spread w.1.ip_node_map_ w.2 := by
    refine Run.invariant (I := fun w : MetaServer × Nat => Spread w.1.ip_node_map_ w.2) ?_ hrun hstart
    rintro u e v h ⟨he, hstep⟩
    obtain ⟨m', hm', rfl⟩ := Option.map_eq_some_iff.mp hstep
    exact h.handle he hm'
  refine ⟨?_, hspread.total⟩
  intro e he f hf hactive hactive'
  have hmem : ∀ e ∈ w.1.ip_node_map_.entries, e.2.activate = true →
      e.2.leader_par_cnt.toInt ∈ leaderCounts w.1.ip_node_map_ :=
    fun e he hactive => List.mem_map_of_mem (List.mem_filter.mpr ⟨he, hactive⟩)
  have hle := hspread.even _ (hmem e he hactive) _ (hmem f hf hactive')
  have hge := hspread.even _ (hmem f hf hactive') _ (hmem e he hactive)
  omega

/-- Three partitions with a leader and a follower each. -/
def threePartitions : CreatePartitonTableRequest :=
  { twoReplicas with partition_cnt := 3, range := [⟨[48], [51]⟩, ⟨[52], [54]⟩, ⟨[55], [57]⟩] }

/-- Two nodes get three leaders. -/
theorem leaders_even_two : ∃ m₀ w, Run (FunStep handle) {} [.CreateDataBase .front [100],
      .NodeRegister .front [1] ⟨[65], 10⟩, .NodeRegister .front [2] ⟨[66], 10⟩] m₀ ∧
    Run (Guarded (fun _ e => e.KeepsNodes) (FunStep handleCounting)) (m₀, 0)
      [.CreatePartitionTable .front threePartitions] w ∧ w.2 = 3 ∧
    (∀ e ∈ w.1.ip_node_map_.entries, ∀ f ∈ w.1.ip_node_map_.entries, e.2.activate = true → f.2.activate = true →
      (e.2.leader_par_cnt.toInt - f.2.leader_par_cnt.toInt).natAbs ≤ 1) ∧
    ((w.1.ip_node_map_.entries.filter fun e => e.2.activate).map fun e => e.2.leader_par_cnt.toInt).sum = w.2 := by
  obtain ⟨m₀, hrun₀, hm₀⟩ : ∃ m₀, Run (FunStep handle) {} [.CreateDataBase .front [100],
      .NodeRegister .front [1] ⟨[65], 10⟩, .NodeRegister .front [2] ⟨[66], 10⟩] m₀ ∧
      (m₀.ip_node_map_.entries.all (fun e => e.2.leader_par_cnt = 0) &&
        ((handleCounting (m₀, 0) (.CreatePartitionTable .front threePartitions)).map Prod.snd == some 3)) = true :=
    Run.exists_of_map (f := fun m₀ : MetaServer => m₀.ip_node_map_.entries.all (fun e => e.2.leader_par_cnt = 0) &&
      ((handleCounting (m₀, 0) (.CreatePartitionTable .front threePartitions)).map Prod.snd == some 3)) (by decide)
  rw [Bool.and_eq_true, beq_iff_eq] at hm₀
  obtain ⟨hall, hcount⟩ := hm₀
  obtain ⟨w, hw, hplaced⟩ := Option.map_eq_some_iff.mp hcount
  have hzero : ∀ e ∈ m₀.ip_node_map_.entries, e.2.activate = true → e.2.leader_par_cnt = 0 :=
    fun e he _ => of_decide_eq_true (List.all_eq_true.mp hall e he)
  have hrun : Run (Guarded (fun _ e => e.KeepsNodes) (FunStep handleCounting)) (m₀, 0)
      [.CreatePartitionTable .front threePartitions] w := .single ⟨trivial, hw⟩
  exact ⟨m₀, w, hrun₀, hrun, hplaced, leaders_even hzero hrun⟩

end MetaServer
end DDBMS
