import DDBMS.Lib.Run
import DDBMS.MetaServer.MetaService

/-!
# `MetaServer.NewCoordinator` — which node is the new coordinator

`MetaServiceImpl::GetNewCoordinator` answers with the node behind the faulty one in the iteration order of `ip_node_map_`.
All requests but one leave this order as it is (`addresses_handle`); registering a new node may change it in any way, and
then the node behind the faulty one may be another (`register_changes`). So the answers for a faulty node agree as long as
no new node is registered between them.
-/

namespace DDBMS
namespace MetaServer

/-- The loop of `GetNewCoordinator`: `nodes` is the map, `rest` what the iterator has in front of it. -/
def nextNode (nodes : List (Bytes × Node)) (fault_ip : Bytes) (port : UInt32) :
    List (Bytes × Node) → Option (Bytes × UInt32)
  | [] => none
  | e :: rest =>
    if e.2.ip_addr = fault_ip ∧ e.2.port.toUInt32 = port then
      -- the next node, or the first one
      ((e :: rest).tail.head?.or nodes.head?).map fun next => (next.2.ip_addr, next.2.port.toUInt32)
    else nextNode nodes fault_ip port rest

/-- `none` is a response with nothing set: the faulty node is not registered. -/
def GetNewCoordinator (m : MetaServer) (fault_ip : Bytes) (port : UInt32) : Option (Bytes × UInt32) :=
  nextNode m.ip_node_map_.entries fault_ip port m.ip_node_map_.entries

/-! ## Runs -/

/-- An answer: the faulty node, the new coordinator, and how many nodes were registered. -/
structure Answer where
  fault : Bytes × UInt32
  coor : Bytes × UInt32
  registered : Nat
  deriving Repr, DecidableEq

/-- The catalog and the answers so far. -/
structure Election where
  meta_server_ : MetaServer
  answers : List Answer := []

inductive Query where
  | GetNewCoordinator (fault_ip : Bytes) (port : UInt32)
  | request (e : Event)

/-- One request. -/
def elect (w : Election) : Query → Option Election
  | .GetNewCoordinator fault_ip port =>
    some (match w.meta_server_.GetNewCoordinator fault_ip port with
      | some coor => { w with answers := w.answers ++ [⟨(fault_ip, port), coor, w.meta_server_.ip_node_map_.size⟩] }
      | none => w)
  | .request e => (w.meta_server_.handle e).map fun m => { w with meta_server_ := m }

/-- All answers for one faulty node name the same new coordinator. -/
def Agree (answers : List Answer) : Prop := ∀ a ∈ answers, ∀ b ∈ answers, a.fault = b.fault → a.coor = b.coor

/-- Since a faulty node was last answered, no new node was registered. -/
def QueryOk (w : Election) : Query → Prop
  | .GetNewCoordinator fault_ip port =>
    ∀ a ∈ w.answers, a.fault = (fault_ip, port) → a.registered = w.meta_server_.ip_node_map_.size
  | .request _ => True

instance instDecidableQueryOk (w : Election) : (q : Query) → Decidable (QueryOk w q)
  | .GetNewCoordinator fault_ip port => inferInstanceAs (Decidable (∀ a ∈ w.answers,
      a.fault = (fault_ip, port) → a.registered = w.meta_server_.ip_node_map_.size))
  | .request _ => inferInstanceAs (Decidable True)

/-! ## What the answer depends on -/

/-- The addresses of the nodes, in iteration order. -/
def addresses (nodes : UnorderedMap Bytes Node) : List (Bytes × UInt32) :=
  nodes.entries.map fun e => (e.2.ip_addr, e.2.port.toUInt32)

variable {m m' : MetaServer} {nodes nodes' : UnorderedMap Bytes Node} {w w' : Election}

theorem nextNode_congr {es es' rest rest' : List (Bytes × Node)} {fault_ip : Bytes} {port : UInt32}
    (h : es.map (fun e => (e.2.ip_addr, e.2.port.toUInt32)) = es'.map fun e => (e.2.ip_addr, e.2.port.toUInt32))
    (hrest : rest.map (fun e => (e.2.ip_addr, e.2.port.toUInt32)) = rest'.map fun e => (e.2.ip_addr, e.2.port.toUInt32)) :
    nextNode es fault_ip port rest = nextNode es' fault_ip port rest' := by
  induction rest generalizing rest' with
  | nil =>
      rw [List.map_nil, eq_comm, List.map_eq_nil_iff] at hrest
      rw [hrest]
      rfl
  | cons e rest ih =>
      cases rest' with
      | nil => cases hrest
      | cons e' rest' =>
          obtain ⟨he, hrest⟩ := List.cons.inj hrest
          obtain ⟨hip, hport⟩ := Prod.mk.inj he
          rw [nextNode, nextNode, hip, hport, ih hrest]
          have hhead : ∀ l l' : List (Bytes × Node),
              l.map (fun e => (e.2.ip_addr, e.2.port.toUInt32)) = l'.map (fun e => (e.2.ip_addr, e.2.port.toUInt32)) →
              l.head?.map (fun e => (e.2.ip_addr, e.2.port.toUInt32)) = l'.head?.map fun e => (e.2.ip_addr, e.2.port.toUInt32) :=
            fun l l' heq => by rw [← List.head?_map, ← List.head?_map, heq]
          rw [List.tail_cons, List.tail_cons, Option.map_or, Option.map_or, hhead _ _ hrest, hhead _ _ h]

/-- **The answer depends on the addresses only.** -/
theorem GetNewCoordinator_congr (h : addresses m.ip_node_map_ = addresses m'.ip_node_map_) (fault_ip : Bytes)
    (port : UInt32) : m.GetNewCoordinator fault_ip port = m'.GetNewCoordinator fault_ip port := nextNode_congr h h

theorem size_eq_of_addresses (h : addresses nodes = addresses nodes') : nodes.size = nodes'.size := by
  have hlen := congrArg List.length h
  rwa [addresses, addresses, List.length_map, List.length_map] at hlen

/-! ## What leaves the addresses as they are -/

theorem addresses_modify {server_name : Bytes} {f : Node → Node}
    (hf : ∀ n, (f n).ip_addr = n.ip_addr ∧ (f n).port = n.port) :
    addresses (nodes.modify server_name f) = addresses nodes := by
  rw [addresses, addresses, UnorderedMap.modify, List.map_map]
  apply List.map_congr_left
  intro e _
  show ((if e.1 = server_name then (e.1, f e.2) else e).2.ip_addr,
    (if e.1 = server_name then (e.1, f e.2) else e).2.port.toUInt32) = _
  split
  · rw [(hf e.2).1, (hf e.2).2]
  · rfl

theorem addresses_placeFollowers {j : Nat} {s : List Bytes} {locs locs' : List ReplicaLocation}
    (h : placeFollowers j nodes s locs = some (nodes', locs')) : addresses nodes' = addresses nodes := by
  induction j generalizing nodes s locs with
  | zero =>
      obtain ⟨rfl, -⟩ := Prod.mk.inj (Option.some.inj h)
      rfl
  | succ j ih =>
      obtain ⟨⟨server_name, node⟩, -, hrest⟩ := Option.bind_eq_some_iff.mp h
      rw [ih hrest]
      exact addresses_modify (fun _ => ⟨rfl, rfl⟩)

theorem addresses_placePartitions {oid : table_oid_t} {replica_cnt : Int32} {partitions : List ParMeta}
    {locs : List PhyPartitionLocation} (h : placePartitions oid replica_cnt partitions nodes = some (nodes', locs)) :
    addresses nodes' = addresses nodes := by
  induction partitions generalizing nodes locs with
  | nil =>
      obtain ⟨rfl, -⟩ := Prod.mk.inj (Option.some.inj h)
      rfl
  | cons pm partitions ih =>
      obtain ⟨nodes₁, replic_loc, locs₁, hplace, hall, rfl⟩ := placePartitions_cons_iff.mp h
      obtain ⟨⟨server_name, node⟩, -, hfollowers⟩ := Option.bind_eq_some_iff.mp hplace
      rw [ih hall, addresses_placeFollowers hfollowers]
      exact addresses_modify (fun _ => ⟨rfl, rfl⟩)

theorem ip_node_map_CreateDataBase {order : Order Bytes DbMetaServer} {db_name : Bytes} {b : Bool}
    (h : m.CreateDataBase order db_name = some (m', b)) : m'.ip_node_map_ = m.ip_node_map_ := by
  rcases CreateDataBase_cases h with rfl | ⟨db_map_, -, -, rfl⟩
  · rfl
  · rfl

theorem ip_node_map_CreateTable {order : Order Bytes TabMetaServer} {location : table_oid_t × DuplicateType}
    {request : CreateTableRequest} {res : Option table_oid_t} (h : m.CreateTable order location request = some (m', res)) :
    m'.ip_node_map_ = m.ip_node_map_ := by
  rcases CreateTable_cases h with ⟨rfl, -⟩ | ⟨db, col_info, -, -, -, hadd, -⟩
  · rfl
  · exact ip_node_map_addTable hadd

/-- The nodes of the partitions change their counts. -/
theorem addresses_CreatePartitionTable {order : Order Bytes TabMetaServer} {request : CreatePartitonTableRequest}
    {res : Option table_oid_t} (h : m.CreatePartitionTable order request = some (m', res)) :
    addresses m'.ip_node_map_ = addresses m.ip_node_map_ := by
  rcases CreatePartitionTable_cases h with ⟨rfl, -⟩ | ⟨db, col_info, partitions, nodes, locs, -, -, -, -, hplace, hadd, -⟩
  · rfl
  · rw [ip_node_map_addTable hadd]
    exact addresses_placePartitions hplace

/-- **A request** leaves the addresses as they are, or registers one more node. -/
theorem addresses_handle {e : Event} (h : m.handle e = some m') :
    addresses m'.ip_node_map_ = addresses m.ip_node_map_ ∨ m'.ip_node_map_.size = m.ip_node_map_.size + 1 := by
  cases e with
  | CreateDataBase order db_name =>
      obtain ⟨⟨m₁, b⟩, hreq, rfl⟩ := Option.map_eq_some_iff.mp h
      exact Or.inl (congrArg addresses (ip_node_map_CreateDataBase hreq))
  | CreateTable order location request =>
      obtain ⟨⟨m₁, res⟩, hreq, rfl⟩ := Option.map_eq_some_iff.mp h
      exact Or.inl (congrArg addresses (ip_node_map_CreateTable hreq))
  | CreatePartitionTable order request =>
      obtain ⟨⟨m₁, res⟩, hreq, rfl⟩ := Option.map_eq_some_iff.mp h
      exact Or.inl (addresses_CreatePartitionTable hreq)
  | NodeRegister order ip request =>
      rcases NodeRegister_cases h with rfl | ⟨nodes, hnew, hassign, rfl⟩
      · exact Or.inl (addresses_modify (fun _ => ⟨rfl, rfl⟩))
      · exact Or.inr (UnorderedMap.size_assign_of_not_mem hnew hassign)

/-! ## Agreement -/

/-- Answers of now are what the map says now, and answers agree. -/
structure Standing (w : Election) : Prop where
  agree : Agree w.answers
  registered : ∀ a ∈ w.answers, a.registered ≤ w.meta_server_.ip_node_map_.size
  current : ∀ a ∈ w.answers, a.registered = w.meta_server_.ip_node_map_.size →
    w.meta_server_.GetNewCoordinator a.fault.1 a.fault.2 = some a.coor

/-- **One request.** -/
theorem Standing.step {q : Query} (h : Standing w) (hstep : Guarded QueryOk (FunStep elect) w q w') : Standing w' := by
  obtain ⟨hok, hstep⟩ := hstep
  cases q with
  | GetNewCoordinator fault_ip port =>
      obtain rfl := Option.some.inj hstep
      cases hcoor : w.meta_server_.GetNewCoordinator fault_ip port with
      | none => exact h
      | some coor =>
          -- an earlier answer for this node is what the map says now
          have hsame : ∀ a ∈ w.answers, a.fault = (fault_ip, port) → a.coor = coor := by
            intro a ha hfault
            have hnow := h.current a ha (hok a ha hfault)
            rw [hfault, hcoor] at hnow
            exact (Option.some.inj hnow).symm
          constructor
          · intro a ha b hb hfault
            rcases List.mem_append.mp ha with ha | ha <;> rcases List.mem_append.mp hb with hb | hb
            · exact h.agree a ha b hb hfault
            · obtain rfl := List.mem_singleton.mp hb
              exact hsame a ha hfault
            · obtain rfl := List.mem_singleton.mp ha
              exact (hsame b hb hfault.symm).symm
            · rw [List.mem_singleton.mp ha, List.mem_singleton.mp hb]
          · intro a ha
            rcases List.mem_append.mp ha with ha | ha
            · exact h.registered a ha
            · rw [List.mem_singleton.mp ha]
          · intro a ha hnow
            rcases List.mem_append.mp ha with ha | ha
            · exact h.current a ha hnow
            · rw [List.mem_singleton.mp ha]
              exact hcoor
  | request e =>
      obtain ⟨m, hm, rfl⟩ := Option.map_eq_some_iff.mp hstep
      rcases addresses_handle hm with haddr | hnew
      · have hsize := size_eq_of_addresses haddr
        refine ⟨h.agree, fun a ha => by rw [hsize]; exact h.registered a ha, ?_⟩
        intro a ha hnow
        rw [GetNewCoordinator_congr haddr]
        exact h.current a ha (hnow.trans hsize)
      · refine ⟨h.agree, fun a ha => ?_, fun a ha hnow => ?_⟩
        · have hle := h.registered a ha
          rw [hnew]
          omega
        · have hle := h.registered a ha
          rw [hnew] at hnow
          omega

/-- **Agreement**, in every run of queries and other requests in which no new node is registered between two queries of a
    faulty node. -/
theorem coordinators_agree {qs : List Query} (hrun : Run (Guarded QueryOk (FunStep elect)) ⟨m, []⟩ qs w) :
    Agree w.answers := by
  have hstart : Standing ⟨m, []⟩ := ⟨by simp [Agree], by simp, by simp⟩
  exact (hrun.invariant (fun _ _ _ h hstep => h.step hstep) hstart).agree

/-- A node that registers again and a new database leave the answer as it is. -/
theorem coordinators_agree_again :
    ∃ w, Run (Guarded QueryOk (FunStep elect)) ⟨{}, []⟩
      [.request (.NodeRegister .front [1] ⟨[65], 10⟩), .request (.NodeRegister .front [2] ⟨[66], 20⟩),
        .GetNewCoordinator [1] 10, .request (.CreateDataBase .front [68]),
        .request (.NodeRegister .front [3] ⟨[66], 30⟩), .GetNewCoordinator [1] 10] w ∧
      w.answers = [⟨([1], 10), ([2], 20), 2⟩, ⟨([1], 10), ([2], 20), 2⟩] ∧ Agree w.answers := by
  obtain ⟨w, hrun, hanswers⟩ : ∃ w, Run (Guarded QueryOk (FunStep elect)) ⟨{}, []⟩
      [.request (.NodeRegister .front [1] ⟨[65], 10⟩), .request (.NodeRegister .front [2] ⟨[66], 20⟩),
        .GetNewCoordinator [1] 10, .request (.CreateDataBase .front [68]),
        .request (.NodeRegister .front [3] ⟨[66], 30⟩), .GetNewCoordinator [1] 10] w ∧
      w.answers = [⟨([1], 10), ([2], 20), 2⟩, ⟨([1], 10), ([2], 20), 2⟩] :=
    Run.exists_guarded_of_map (f := Election.answers) (by decide)
  exact ⟨w, hrun, hanswers, coordinators_agree hrun⟩

/-! ## A new node between two answers -/

/-- A third node comes to stand in front of the one that was named. -/
theorem coordinators_disagree :
    ¬ ∀ (m : MetaServer) (qs : List Query) (w : Election), Run (FunStep elect) ⟨m, []⟩ qs w → Agree w.answers := by
  intro hagree
  obtain ⟨w, hrun, hanswers⟩ : ∃ w, Run (FunStep elect) ⟨{}, []⟩
      [.request (.NodeRegister .front [1] ⟨[65], 10⟩), .request (.NodeRegister .front [2] ⟨[66], 20⟩),
        .GetNewCoordinator [1] 10, .request (.NodeRegister .front [3] ⟨[67], 30⟩), .GetNewCoordinator [1] 10] w ∧
      w.answers = [⟨([1], 10), ([2], 20), 2⟩, ⟨([1], 10), ([3], 30), 3⟩] :=
    Run.exists_of_map (f := Election.answers) (by decide)
  have h := hagree _ _ _ hrun
  rw [hanswers] at h
  revert h
  unfold Agree
  decide

theorem exists_of_nextNode {es rest : List (Bytes × Node)} {fault_ip : Bytes} {port : UInt32} {coor : Bytes × UInt32}
    (h : nextNode es fault_ip port rest = some coor) :
    ∃ pre e post, rest = pre ++ e :: post ∧ e.2.ip_addr = fault_ip ∧ e.2.port.toUInt32 = port := by
  induction rest with
  | nil => cases h
  | cons e rest ih =>
      rw [nextNode] at h
      split at h
      · rename_i hmatch
        exact ⟨[], e, rest, rfl, hmatch⟩
      · obtain ⟨pre, e', post, rfl, hmatch⟩ := ih h
        exact ⟨e :: pre, e', post, rfl, hmatch⟩

/-- **A new node** at another address than the one named can come to stand right behind the faulty one, and is then named
    instead. -/
theorem register_changes {fault_ip ip : Bytes} {port : UInt32} {coor : Bytes × UInt32} {request : RegisterRequest}
    (hcoor : m.GetNewCoordinator fault_ip port = some coor) (hnew : request.server_name ∉ m.ip_node_map_.keys)
    (hroom : m.ip_node_map_.size + 1 < 2 ^ 64) (hother : (ip, request.server_listen_port) ≠ coor) :
    ∃ order m', m.NodeRegister order ip request = some m' ∧
      m'.GetNewCoordinator fault_ip port = some (ip, request.server_listen_port) ∧
      m'.GetNewCoordinator fault_ip port ≠ m.GetNewCoordinator fault_ip port := by
  obtain ⟨pre, e, post, hsplit, hip, hport⟩ := exists_of_nextNode hcoor
  let node : Node := ⟨ip, request.server_listen_port.toInt32, true, 0, 0⟩
  -- the faulty node first, then the new one
  have hperm : (e :: (request.server_name, node) :: (pre ++ post)).Perm
      ((request.server_name, node) :: m.ip_node_map_.entries) := by
    rw [hsplit]
    exact (List.Perm.swap _ _ _).trans (List.Perm.cons _ List.perm_middle.symm)
  obtain ⟨order, horder⟩ := Order.exists_of_perm hperm
  have hanswer : nextNode (e :: (request.server_name, node) :: (pre ++ post)) fault_ip port
      (e :: (request.server_name, node) :: (pre ++ post)) = some (ip, request.server_listen_port) := by
    rw [nextNode, if_pos ⟨hip, hport⟩]
    rfl
  have hassign : m.ip_node_map_.assign order request.server_name node =
      some (m.ip_node_map_.insert order request.server_name node hnew hroom) := by
    rw [UnorderedMap.assign, dif_neg hnew, dif_pos hroom]
  have hthen : (⟨m.db_map_, m.ip_node_map_.insert order request.server_name node hnew hroom⟩ :
      MetaServer).GetNewCoordinator fault_ip port = some (ip, request.server_listen_port) := by
    rw [← horder] at hanswer
    exact hanswer
  refine ⟨order, ⟨m.db_map_, m.ip_node_map_.insert order request.server_name node hnew hroom⟩, ?_, hthen, ?_⟩
  · rw [NodeRegister, if_neg hnew]
    exact Option.bind_eq_some_iff.mpr ⟨_, hassign, rfl⟩
  · rw [hthen, hcoor]
    exact fun heq => hother (Option.some.inj heq)

end MetaServer
end DDBMS
