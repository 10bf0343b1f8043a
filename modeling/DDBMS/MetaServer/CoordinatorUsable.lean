import DDBMS.MetaServer.NewCoordinator

/-!
# `MetaServer.CoordinatorUsable` — whether the new coordinator can be used

`GetNewCoordinator` takes the node that stands behind the faulty one in the iteration order, and the first node behind the
last. It does not look at `activate`, and the node behind the only one is this one itself. So the answer is a usable node if
and only if the node that stands there is one (`usable_iff`).
-/

namespace DDBMS
namespace MetaServer

/-- The address of a node, as a request names it. -/
def Node.address (node : Node) : Bytes × UInt32 := (node.ip_addr, node.port.toUInt32)

/-- The nodes that are registered. -/
def Registered (m : MetaServer) (node : Node) : Prop := ∃ server_name, (server_name, node) ∈ m.ip_node_map_.entries

/-- A node that can take over has this address. -/
def Usable (m : MetaServer) (fault coor : Bytes × UInt32) : Prop :=
  coor ≠ fault ∧ ∃ node, m.Registered node ∧ node.activate = true ∧ node.address = coor

/-- The answer for a faulty node is usable whenever there is a usable node, and never the faulty node itself. -/
def AnswersUsable (m : MetaServer) (fault : Bytes × UInt32) : Prop :=
  ∃ coor, m.GetNewCoordinator fault.1 fault.2 = some coor ∧ coor ≠ fault ∧
    ((∃ other, m.Usable fault other) → m.Usable fault coor)

/-- `next` stands behind the first node with this address, in iteration order and around the end. -/
def StandsBehind (m : MetaServer) (fault : Bytes × UInt32) (next : Node) : Prop :=
  ∃ pre e post, m.ip_node_map_.entries = pre ++ e :: post ∧ (∀ x ∈ pre, x.2.address ≠ fault) ∧ e.2.address = fault ∧
    ((post ++ pre ++ [e]).head?.map Prod.snd) = some next

variable {m : MetaServer} {fault : Bytes × UInt32} {nodes rest : List (Bytes × Node)} {node next : Node}

/-! ## The search -/

theorem nextNode_split {pre post : List (Bytes × Node)} {e : Bytes × Node} (hpre : ∀ x ∈ pre, x.2.address ≠ fault)
    (he : e.2.address = fault) :
    nextNode nodes fault.1 fault.2 (pre ++ e :: post) = (post.head?.or nodes.head?).map fun x => x.2.address := by
  induction pre with
  | nil =>
      rw [List.nil_append, nextNode, if_pos ⟨congrArg Prod.fst he, congrArg Prod.snd he⟩]
      rfl
  | cons x pre ih =>
      have hx : ¬ (x.2.ip_addr = fault.1 ∧ x.2.port.toUInt32 = fault.2) :=
        fun heq => hpre x List.mem_cons_self (Prod.ext heq.1 heq.2)
      rw [List.cons_append, nextNode, if_neg hx]
      exact ih fun y hy => hpre y (List.mem_cons_of_mem _ hy)

/-- Where the faulty node stands. -/
theorem exists_split (hnode : ∃ x ∈ rest, x.2.address = fault) :
    ∃ pre e post, rest = pre ++ e :: post ∧ (∀ x ∈ pre, x.2.address ≠ fault) ∧ e.2.address = fault := by
  induction rest with
  | nil => simp at hnode
  | cons y rest ih =>
      by_cases hy : y.2.address = fault
      · exact ⟨[], y, rest, rfl, by simp, hy⟩
      · obtain ⟨x, hx, heq⟩ := hnode
        rcases List.mem_cons.mp hx with rfl | hx
        · exact absurd heq hy
        · obtain ⟨pre, e, post, rfl, hpre, he⟩ := ih ⟨x, hx, heq⟩
          refine ⟨y :: pre, e, post, rfl, ?_, he⟩
          intro z hz
          rcases List.mem_cons.mp hz with rfl | hz
          · exact hy
          · exact hpre z hz

/-- **The answer** is the address of the node that stands behind the faulty one. -/
theorem GetNewCoordinator_eq (h : m.StandsBehind fault next) : m.GetNewCoordinator fault.1 fault.2 = some next.address := by
  obtain ⟨pre, e, post, hnodes, hpre, he, hnext⟩ := h
  obtain ⟨x, hx, rfl⟩ := Option.map_eq_some_iff.mp hnext
  rw [GetNewCoordinator]
  conv_lhs => rw [hnodes]
  rw [nextNode_split hpre he]
  have hhead : post.head?.or (pre ++ e :: post).head? = some x := by
    rw [← hx]
    cases post <;> cases pre <;> rfl
  rw [hhead]
  rfl

/-- Some node stands behind a registered one, and is registered too. -/
theorem exists_standsBehind (h : m.Registered node) : ∃ next, m.StandsBehind node.address next ∧ m.Registered next := by
  obtain ⟨server_name, hmem⟩ := h
  obtain ⟨pre, e, post, hnodes, hpre, he⟩ := exists_split ⟨_, hmem, rfl⟩
  obtain ⟨x, hx⟩ : ∃ x, (post ++ pre ++ [e]).head? = some x := by
    cases post <;> cases pre <;> exact ⟨_, rfl⟩
  refine ⟨x.2, ⟨pre, e, post, hnodes, hpre, he, by rw [hx]; rfl⟩, x.1, ?_⟩
  have hin := List.mem_of_mem_head? (Option.mem_def.mpr hx)
  rw [hnodes]
  simp only [List.mem_append, List.mem_cons, List.not_mem_nil, or_false] at hin ⊢
  tauto

/-- **The new coordinator is usable** if and only if the node behind the faulty one has another address, and a node of that
    address is active unless no node of another address is. -/
theorem usable_iff (m : MetaServer) {faulty : Node} (hfaulty : m.Registered faulty) :
    m.AnswersUsable faulty.address ↔ ∃ next, m.StandsBehind faulty.address next ∧ next.address ≠ faulty.address ∧
      ((∃ node, m.Registered node ∧ node.activate = true ∧ node.address = next.address) ∨
        ∀ node, m.Registered node → node.activate = true → node.address = faulty.address) := by
  constructor
  · rintro ⟨coor, hcoor, hne, husable⟩
    obtain ⟨next, hnext, -⟩ := exists_standsBehind hfaulty
    obtain rfl := Option.some.inj ((GetNewCoordinator_eq hnext).symm.trans hcoor)
    refine ⟨next, hnext, hne, ?_⟩
    by_cases hother : ∃ other, m.Usable faulty.address other
    · exact Or.inl (husable hother).2
    · refine Or.inr fun node hnode hactive => ?_
      by_contra haddress
      exact hother ⟨node.address, haddress, node, hnode, hactive, rfl⟩
  · rintro ⟨next, hnext, hne, hactive⟩
    refine ⟨next.address, GetNewCoordinator_eq hnext, hne, ?_⟩
    rintro ⟨other, hother, node, hnode, hon, haddress⟩
    rcases hactive with hsome | hnone
    · exact ⟨hne, hsome⟩
    · exact absurd (haddress.symm.trans (hnone node hnode hon)) hother

/-- Two nodes have registered. -/
theorem usable_iff_twoNodes : ∃ m, Run (FunStep handle) {} [.NodeRegister .front [1] ⟨[65], 10⟩,
    .NodeRegister .front [2] ⟨[66], 20⟩] m ∧ m.AnswersUsable ([1], 10) := by
  obtain ⟨m, hrun, hnodes⟩ : ∃ m, Run (FunStep handle) {} [.NodeRegister .front [1] ⟨[65], 10⟩,
      .NodeRegister .front [2] ⟨[66], 20⟩] m ∧
      m.ip_node_map_.entries = [([66], ⟨[2], 20, true, 0, 0⟩), ([65], ⟨[1], 10, true, 0, 0⟩)] :=
    Run.exists_of_map (f := fun m : MetaServer => m.ip_node_map_.entries) (by decide)
  have hfaulty : m.Registered ⟨[1], 10, true, 0, 0⟩ := ⟨[65], by rw [hnodes]; decide⟩
  refine ⟨m, hrun, (usable_iff m hfaulty).mpr ⟨⟨[2], 20, true, 0, 0⟩, ?_, by decide, Or.inl ?_⟩⟩
  · exact ⟨[([66], ⟨[2], 20, true, 0, 0⟩)], ([65], ⟨[1], 10, true, 0, 0⟩), [], hnodes, by decide, by decide, by decide⟩
  · exact ⟨⟨[2], 20, true, 0, 0⟩, ⟨[66], by rw [hnodes]; decide⟩, rfl, rfl⟩

/-- The only node is its own successor. -/
theorem only_node_is_named : ¬ ∀ (es : List Event) (m : MetaServer) (faulty : Node), Run (FunStep handle) {} es m →
    m.Registered faulty → m.AnswersUsable faulty.address := by
  intro hall
  obtain ⟨m, hrun, hnodes⟩ : ∃ m, Run (FunStep handle) {} [.NodeRegister .front [1] ⟨[65], 10⟩] m ∧
      m.ip_node_map_.entries = [([65], ⟨[1], 10, true, 0, 0⟩)] :=
    Run.exists_of_map (f := fun m : MetaServer => m.ip_node_map_.entries) (by decide)
  have hfaulty : m.Registered ⟨[1], 10, true, 0, 0⟩ := ⟨[65], by rw [hnodes]; decide⟩
  have hbehind : m.StandsBehind ([1], 10) ⟨[1], 10, true, 0, 0⟩ :=
    ⟨[], ([65], ⟨[1], 10, true, 0, 0⟩), [], hnodes, by decide, by decide, by decide⟩
  obtain ⟨coor, hcoor, hne, -⟩ := hall _ m _ hrun hfaulty
  exact hne (Option.some.inj (hcoor.symm.trans (GetNewCoordinator_eq hbehind)))

end MetaServer
end DDBMS
