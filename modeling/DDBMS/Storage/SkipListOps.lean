import DDBMS.Storage.SkipListRepr

/-!
# `Storage.SkipListOps` — the operations of the skip list

Each operation of the pointer structure does to the sorted association list it represents what its name says:
`Holds.put`, `Holds.del`, `Holds.clear`, and the iterator visits the pairs in order. None of them gets stuck.
`holds_run` puts them together for every run.
-/

namespace DDBMS
namespace SkipList

open SortedAssoc

variable {s t : SkipList} {ns lo hi : List Addr} {key value : Bytes}

/-! ## One pointer, one node -/

/-- `t` is `s` with other pointers. -/
structure Relinked (s t : SkipList) : Prop where
  head : t.head_ = s.head_
  tail : t.tail_ = s.tail_
  allocated : t.allocated = s.allocated
  node : ∀ a, (t.nodes a).key_ = (s.nodes a).key_ ∧ (t.nodes a).value_ = (s.nodes a).value_ ∧
    (t.nodes a).height_ = (s.nodes a).height_ ∧ (t.nodes a).nexts_.length = (s.nodes a).nexts_.length

theorem Relinked.refl (s : SkipList) : Relinked s s := ⟨rfl, rfl, rfl, fun _ => ⟨rfl, rfl, rfl, rfl⟩⟩

theorem Relinked.trans {u : SkipList} (h₁ : Relinked s t) (h₂ : Relinked t u) : Relinked s u := by
  refine ⟨h₂.head.trans h₁.head, h₂.tail.trans h₁.tail, h₂.allocated.trans h₁.allocated, fun a => ?_⟩
  obtain ⟨k₁, v₁, e₁, l₁⟩ := h₁.node a
  obtain ⟨k₂, v₂, e₂, l₂⟩ := h₂.node a
  exact ⟨k₂.trans k₁, v₂.trans v₁, e₂.trans e₁, l₂.trans l₁⟩

theorem Relinked.entry_eq (h : Relinked s t) : t.entry = s.entry := by
  funext a
  obtain ⟨hk, hv, -, -⟩ := h.node a
  exact Prod.ext hk hv

theorem Relinked.tall_eq (h : Relinked s t) (i : Nat) : t.tall i = s.tall i := by
  funext a
  simp only [tall, (h.node a).2.2.1]

theorem Relinked.getMaxHeight_eq (h : Relinked s t) : t.getMaxHeight = s.getMaxHeight := by
  rw [getMaxHeight, getMaxHeight, h.head]
  exact (h.node _).2.2.1

/-- Writing one pointer. -/
theorem setNext_spec {a b : Addr} {i : Nat} (hi : i < (s.nodes a).nexts_.length) :
    ∃ t, s.setNext a i b = some t ∧ Relinked s t ∧ t.num_entries_ = s.num_entries_ ∧
      t.num_bytes_ = s.num_bytes_ ∧
      ∀ x j, t.next x j = if x = a ∧ j = i then some b else s.next x j := by
  refine ⟨_, if_pos hi, ⟨rfl, rfl, rfl, fun x => ?_⟩, rfl, rfl, fun x j => ?_⟩
  · by_cases hx : x = a
    · subst hx; simp
    · simp [hx]
  · by_cases hx : x = a
    · subst hx
      by_cases hj : j = i
      · subst hj; simp [next, hi]
      · simp [next, hj, Ne.symm hj]
    · simp [next, hx]

@[simp] theorem setNode_self (a : Addr) (n : Node) : (s.setNode a n).nodes a = n := by simp [setNode]

theorem setNode_ne {a b : Addr} (n : Node) (h : b ≠ a) : (s.setNode a n).nodes b = s.nodes b := by
  simp [setNode, h]

/-- New values and new garbage leave the structure alone. -/
theorem Repr.frame (h : Repr s ns) (hhead : t.head_ = s.head_) (htail : t.tail_ = s.tail_)
    (halloc : s.allocated ≤ t.allocated)
    (hnodes : ∀ a ∈ s.head_ :: ns, (t.nodes a).height_ = (s.nodes a).height_ ∧
      (t.nodes a).nexts_ = (s.nodes a).nexts_)
    (hsorted : Sorted (ns.map t.entry)) (hentries : t.num_entries_ = ns.length)
    (hbytes : t.num_bytes_ = bytesOf (ns.map t.entry)) : Repr t ns := by
  have hmax : t.getMaxHeight = s.getMaxHeight := by
    rw [getMaxHeight, getMaxHeight, hhead]
    exact (hnodes _ List.mem_cons_self).1
  constructor
  · rw [hhead]; exact h.nodup
  · rw [hhead, htail]; exact h.tail_notMem
  · rw [hhead, htail]; exact fun a ha => lt_of_lt_of_le (h.alloc a ha) halloc
  · rw [hhead]
    intro a ha
    rw [(hnodes a ha).1, (hnodes a ha).2]
    exact h.nexts_length a ha
  · rw [hhead, hmax]
    intro a ha
    rw [(hnodes a ha).1]
    exact h.height a ha
  · rw [hhead, htail, hmax]
    intro i hi
    have hf : (s.head_ :: ns).filter (t.tall i) = (s.head_ :: ns).filter (s.tall i) :=
      List.filter_congr (fun a ha => by simp only [tall, (hnodes a ha).1])
    rw [hf]
    refine Chain.congr_sources (h.chain i hi) (fun a ha b hab => ?_)
    have hmem := (List.mem_filter.mp ha).1
    show t.next a i = some b
    rw [next, (hnodes a hmem).2]
    exact hab
  · exact hsorted
  · exact hentries
  · exact hbytes

/-- The node may stand in the list. -/
structure Fits (s : SkipList) (a : Addr) : Prop where
  ne_tail : a ≠ s.tail_
  alloc : a < s.allocated
  nexts_length : (s.nodes a).nexts_.length = (s.nodes a).height_
  height : 0 < (s.nodes a).height_ ∧ (s.nodes a).height_ ≤ s.getMaxHeight

theorem Repr.fits (h : Repr s ns) {a : Addr} (ha : a ∈ s.head_ :: ns) : s.Fits a where
  ne_tail := fun heq => h.tail_notMem (heq ▸ ha)
  alloc := h.alloc a (List.mem_cons_of_mem _ ha)
  nexts_length := h.nexts_length a ha
  height := h.height a ha

/-- The list of `u` is made of nodes of `s`, whose pointers `u` has changed: what is said of the nodes is said of `s`, the
    levels are those of `u`. A node that was not in the list must fit into it. -/
theorem Relinked.repr {u : SkipList} {ns' : List Addr} (hrel : Relinked s u) (h : Repr s ns)
    (hnodup : (s.head_ :: ns').Nodup) (hnodes : ∀ a ∈ ns', a ∈ ns ∨ s.Fits a)
    (hchain : ∀ i < s.getMaxHeight, ((s.head_ :: ns').filter (s.tall i) ++ [s.tail_]).IsChain (u.Linked i))
    (hsorted : Sorted (ns'.map s.entry)) (hentries : u.num_entries_ = ns'.length)
    (hbytes : u.num_bytes_ = bytesOf (ns'.map s.entry)) : Repr u ns' := by
  have hfits : ∀ a ∈ s.head_ :: ns', s.Fits a := by
    intro a ha
    rcases List.mem_cons.mp ha with rfl | ha
    · exact h.fits List.mem_cons_self
    · rcases hnodes a ha with hmem | hfit
      · exact h.fits (List.mem_cons_of_mem _ hmem)
      · exact hfit
  constructor
  · rw [hrel.head]
    exact hnodup
  · rw [hrel.head, hrel.tail]
    exact fun ht => (hfits _ ht).ne_tail rfl
  · rw [hrel.head, hrel.tail, hrel.allocated]
    intro a ha
    rcases List.mem_cons.mp ha with rfl | ha
    · exact h.alloc _ List.mem_cons_self
    · exact (hfits a ha).alloc
  · rw [hrel.head]
    intro a ha
    obtain ⟨-, -, hh, hl⟩ := hrel.node a
    rw [hh, hl]
    exact (hfits a ha).nexts_length
  · rw [hrel.head, hrel.getMaxHeight_eq]
    intro a ha
    rw [(hrel.node a).2.2.1]
    exact (hfits a ha).height
  · rw [hrel.head, hrel.tail, hrel.getMaxHeight_eq]
    intro i hi
    rw [hrel.tall_eq]
    exact hchain i hi
  · rw [hrel.entry_eq]
    exact hsorted
  · exact hentries
  · rw [hrel.entry_eq]
    exact hbytes

/-- The bytes of one node more. -/
theorem bytesOf_insert (s : SkipList) (lo hi : List Addr) (n : Addr) :
    bytesOf ((lo ++ n :: hi).map s.entry) =
      bytesOf ((lo ++ hi).map s.entry) + (s.nodes n).key_.length + (s.nodes n).value_.length := by
  simp only [List.map_append, List.map_cons, bytesOf_append, bytesOf_cons, entry]
  omega

/-! ## The new node of `put` -/

theorem random_height_pos (ones : Nat) : 0 < random_height ones ∧ random_height ones ≤ max_height_ := by
  unfold random_height max_height_
  split <;> omega

section Enlarge

variable {height : Nat}

theorem enlargeHeight_head (h : Repr s ns) : (s.enlargeHeight height).nodes s.head_ =
    { s.nodes s.head_ with
      height_ := height
      nexts_ := (s.nodes s.head_).nexts_ ++ List.replicate (height - (s.nodes s.head_).height_) s.tail_ } := by
  have hne : s.head_ ≠ s.tail_ := fun heq => h.tail_notMem (by rw [← heq]; exact List.mem_cons_self)
  rw [enlargeHeight]
  exact (setNode_ne _ hne).trans (setNode_self _ _)

theorem enlargeHeight_mem (h : Repr s ns) {a : Addr} (ha : a ∈ ns) :
    (s.enlargeHeight height).nodes a = s.nodes a := by
  have hhead : a ≠ s.head_ := by
    rintro rfl
    exact (List.nodup_cons.mp h.nodup).1 ha
  have htail : a ≠ s.tail_ := by
    rintro rfl
    exact h.tail_notMem (List.mem_cons_of_mem _ ha)
  rw [enlargeHeight]
  exact (setNode_ne _ htail).trans (setNode_ne _ hhead)

theorem enlargeHeight_max (h : Repr s ns) : (s.enlargeHeight height).getMaxHeight = height := by
  show ((s.enlargeHeight height).nodes s.head_).height_ = height
  rw [enlargeHeight_head h]

/-- On the old levels the same nodes are tall, on the new ones only the head. -/
theorem enlargeHeight_filter (h : Repr s ns) {l : List Addr}
    (hl : ∀ a ∈ l, a ∈ ns) {i : Nat} (hi : i < height) :
    (s.head_ :: l).filter ((s.enlargeHeight height).tall i) =
      if i < s.getMaxHeight then (s.head_ :: l).filter (s.tall i) else [s.head_] := by
  have hhead : (s.enlargeHeight height).tall i s.head_ = true := by
    simp [tall, enlargeHeight_head h, hi]
  have hrest : l.filter ((s.enlargeHeight height).tall i) = l.filter (s.tall i) :=
    List.filter_congr (fun a ha => by simp only [tall, enlargeHeight_mem h (hl a ha)])
  rw [List.filter_cons_of_pos hhead, hrest]
  split
  · rename_i hlt
    rw [List.filter_cons_of_pos (show s.tall i s.head_ = true by simpa [tall, getMaxHeight] using hlt)]
  · rename_i hge
    have : l.filter (s.tall i) = [] := by
      rw [List.filter_eq_nil_iff]
      intro a ha
      have := (h.height a (List.mem_cons_of_mem _ (hl a ha))).2
      simp only [tall, decide_eq_true_eq]
      omega
    rw [this]

theorem Repr.enlargeHeight (h : Repr s ns) (hgt : s.getMaxHeight < height) :
    Repr (s.enlargeHeight height) ns := by
  have hlen : (s.nodes s.head_).nexts_.length = s.getMaxHeight := h.nexts_length _ List.mem_cons_self
  have hmax : (s.nodes s.head_).height_ = s.getMaxHeight := rfl
  have hentry : ns.map (s.enlargeHeight height).entry = ns.map s.entry :=
    List.map_congr_left (fun a ha => by rw [entry, entry, enlargeHeight_mem h ha])
  constructor
  · exact h.nodup
  · exact h.tail_notMem
  · exact h.alloc
  · intro a ha
    rcases List.mem_cons.mp ha with rfl | ha
    · show ((s.enlargeHeight height).nodes s.head_).nexts_.length =
        ((s.enlargeHeight height).nodes s.head_).height_
      rw [enlargeHeight_head h, List.length_append, List.length_replicate, hlen, hmax]
      exact Nat.add_sub_cancel' (le_of_lt hgt)
    · rw [enlargeHeight_mem h ha]
      exact h.nexts_length a (List.mem_cons_of_mem _ ha)
  · rw [enlargeHeight_max h]
    intro a ha
    rcases List.mem_cons.mp ha with rfl | ha
    · show 0 < ((s.enlargeHeight height).nodes s.head_).height_ ∧
        ((s.enlargeHeight height).nodes s.head_).height_ ≤ height
      rw [enlargeHeight_head h]
      exact ⟨Nat.zero_lt_of_lt hgt, le_refl _⟩
    · rw [enlargeHeight_mem h ha]
      obtain ⟨h0, h1⟩ := h.height a (List.mem_cons_of_mem _ ha)
      exact ⟨h0, le_trans h1 (le_of_lt hgt)⟩
  · rw [enlargeHeight_max h]
    intro i hi
    show ((s.head_ :: ns).filter ((s.enlargeHeight height).tall i) ++ [s.tail_]).IsChain _
    rw [enlargeHeight_filter h (fun _ ha => ha) hi]
    split
    · rename_i hlt
      -- an old level: the head keeps its pointers
      refine Chain.congr_sources (h.chain i hlt) (fun a ha b hab => ?_)
      show ((s.enlargeHeight height).nodes a).nexts_[i]? = some b
      rcases List.mem_cons.mp (List.mem_filter.mp ha).1 with rfl | ha
      · rw [enlargeHeight_head h]
        exact (List.getElem?_append_left (hlen ▸ hlt)).trans hab
      · rw [enlargeHeight_mem h ha]
        exact hab
    · rename_i hge
      -- a new level: the head points to the tail
      refine List.isChain_cons_cons.mpr ⟨?_, List.isChain_singleton _⟩
      show ((s.enlargeHeight height).nodes s.head_).nexts_[i]? = some s.tail_
      rw [enlargeHeight_head h, List.getElem?_append_right (hlen ▸ Nat.not_lt.mp hge), hlen, hmax,
        List.getElem?_replicate, if_pos (by omega)]
  · rw [hentry]; exact h.sorted
  · exact h.num_entries
  · rw [hentry]; exact h.num_bytes

theorem Prevs.enlargeHeight (h : Repr s (lo ++ hi)) {prevs : Nat → Addr} (hp : Prevs s lo prevs) :
    Prevs (s.enlargeHeight height) lo
      (fun i => if s.getMaxHeight ≤ i ∧ i < height then s.head_ else prevs i) := by
  intro i hi
  rw [enlargeHeight_max h] at hi
  show ((s.head_ :: lo).filter ((s.enlargeHeight height).tall i)).getLast? =
    some (if s.getMaxHeight ≤ i ∧ i < height then s.head_ else prevs i)
  rw [enlargeHeight_filter h (fun _ ha => List.mem_append_left _ ha) hi]
  by_cases hlt : i < s.getMaxHeight
  · rw [if_pos hlt, if_neg (by omega)]
    exact hp i hlt
  · rw [if_neg hlt, if_pos ⟨Nat.not_lt.mp hlt, hi⟩]
    rfl

end Enlarge

/-! ## `put` -/

/-- **Linking.** The loop of `put` makes `prevs i` point to the node and the node to what `prevs i` pointed to,
    on the levels below `k`, and changes no other pointer. By induction on the level. -/
theorem link_spec {node : Addr} {prevs : Nat → Addr} : ∀ k,
    (∀ i < k, i < (s.nodes (prevs i)).nexts_.length ∧ i < (s.nodes node).nexts_.length ∧ prevs i ≠ node) →
    ∃ t, s.link node prevs k = some t ∧ Relinked s t ∧ t.num_entries_ = s.num_entries_ ∧
      t.num_bytes_ = s.num_bytes_ ∧ ∀ a i, t.next a i =
        if i < k ∧ a = prevs i then some node
        else if i < k ∧ a = node then s.next (prevs i) i else s.next a i := by
  intro k
  induction k with
  | zero => exact fun _ => ⟨s, rfl, Relinked.refl s, rfl, rfl, fun a i => by simp⟩
  | succ k ih =>
      intro hlen
      obtain ⟨t, ht, hrel, hent, hby, hnext⟩ := ih (fun i hi => hlen i (Nat.lt_succ_of_lt hi))
      obtain ⟨hp, hn, hne⟩ := hlen k (Nat.lt_succ_self k)
      obtain ⟨b, hb⟩ : ∃ b, s.next (prevs k) k = some b := ⟨_, List.getElem?_eq_getElem hp⟩
      have htb : t.next (prevs k) k = some b := by
        rw [hnext, if_neg (by omega), if_neg (by omega)]
        exact hb
      obtain ⟨u, hu, hrel', hent', hby', hnext'⟩ :=
        setNext_spec (s := t) (a := node) (b := b) (i := k) (by rw [(hrel.node node).2.2.2]; exact hn)
      obtain ⟨v, hv, hrel'', hent'', hby'', hnext''⟩ :=
        setNext_spec (s := u) (a := prevs k) (b := node) (i := k) (by
          rw [(hrel'.node _).2.2.2, (hrel.node _).2.2.2]; exact hp)
      refine ⟨v, ?_, (hrel.trans hrel').trans hrel'', hent''.trans (hent'.trans hent),
        hby''.trans (hby'.trans hby), fun a i => ?_⟩
      · simp only [link, ht, Option.bind_eq_bind, Option.bind_some, htb, hu, hv]
      · rw [hnext'', hnext', hnext]
        by_cases hik : i = k
        · subst hik
          by_cases ha : a = prevs i
          · simp [ha]
          · by_cases han : a = node
            · simp [han, hb, Ne.symm hne]
            · simp [ha, han]
        · have hiff : i < k + 1 ↔ i < k := by omega
          simp [hik, hiff]

/-- `prevs` points to nodes before the cut. -/
theorem Prevs.mem {prevs : Nat → Addr} (hp : Prevs s lo prevs) {i : Nat} (hi' : i < s.getMaxHeight) :
    prevs i ∈ s.head_ :: lo := (List.mem_filter.mp (List.mem_of_getLast? (hp i hi'))).1

/-- They are on the level. -/
theorem Prevs.lt_height {prevs : Nat → Addr} (hp : Prevs s lo prevs) {i : Nat} (hi' : i < s.getMaxHeight) :
    i < (s.nodes (prevs i)).height_ := by
  have htall := (List.mem_filter.mp (List.mem_of_getLast? (hp i hi'))).2
  simpa [tall] using htall

/-- A node of the first part of the list. -/
theorem mem_nodes_of_mem {a : Addr} (ha : a ∈ s.head_ :: lo) (hi : List Addr) : a ∈ s.head_ :: (lo ++ hi) := by
  rw [← List.cons_append]
  exact List.mem_append_left _ ha

/-- One level of the list with the new node. Below the height of the node it is linked in; above nothing changes. -/
theorem Repr.link_level {u : SkipList} {n : Addr} {prevs : Nat → Addr} {k i : Nat} (h : Repr s (lo ++ hi))
    (hp : Prevs s lo prevs) (hn : n ∉ s.head_ :: (lo ++ hi)) (hheight : (s.nodes n).height_ = k)
    (hnext : ∀ a i, u.next a i = if i < k ∧ a = prevs i then some n
      else if i < k ∧ a = n then s.next (prevs i) i else s.next a i) (hi' : i < s.getMaxHeight) :
    ((s.head_ :: (lo ++ n :: hi)).filter (s.tall i) ++ [s.tail_]).IsChain (u.Linked i) := by
  have hnd : ((s.head_ :: lo) ++ hi).Nodup := List.cons_append .. ▸ h.nodup
  have hmem := hp.mem hi'
  have hchain := h.chain i hi'
  rw [← List.cons_append, List.filter_append, List.append_assoc] at hchain
  rw [← List.cons_append, List.filter_append, List.append_assoc]
  have hA : ∀ a ∈ (s.head_ :: lo).filter (s.tall i), a ≠ n := by
    rintro a ha rfl
    exact hn (mem_nodes_of_mem (List.mem_filter.mp ha).1 hi)
  have hC : ∀ a ∈ hi.filter (s.tall i), a ≠ n ∧ a ≠ prevs i := by
    intro a ha
    have hah := (List.mem_filter.mp ha).1
    refine ⟨?_, ?_⟩
    · rintro rfl
      exact hn (by simp [hah])
    · rintro rfl
      exact (List.nodup_append.mp hnd).2.2 _ hmem _ hah rfl
  by_cases hik : i < k
  · rw [List.filter_cons_of_pos (show s.tall i n = true by simp [tall, hheight, hik]), List.cons_append]
    refine Chain.insert hchain (List.Nodup.filter _ (List.nodup_append.mp hnd).1) (hp i hi') ?_ ?_ ?_ ?_
    · intro a ha hne b hab
      show u.next a i = some b
      rw [hnext, if_neg (by simp [hne]), if_neg (by simp [hA a ha])]
      exact hab
    · intro a ha b hab
      show u.next a i = some b
      rw [hnext, if_neg (by simp [(hC a ha).2]), if_neg (by simp [(hC a ha).1])]
      exact hab
    · show u.next (prevs i) i = some n
      rw [hnext, if_pos ⟨hik, rfl⟩]
    · intro b hb
      have hnp : n ≠ prevs i := by
        rintro rfl
        exact hn (mem_nodes_of_mem hmem hi)
      show u.next n i = some b
      rw [hnext, if_neg (by simp [hnp]), if_pos ⟨hik, rfl⟩]
      exact hb
  · rw [List.filter_cons_of_neg (show ¬ s.tall i n = true by simp [tall, hheight, hik])]
    rw [← List.append_assoc] at hchain ⊢
    refine Chain.congr_sources hchain (fun a _ b hab => ?_)
    show u.next a i = some b
    rw [hnext, if_neg (by simp [hik]), if_neg (by simp [hik])]
    exact hab

/-- The node `put` has found a place for, linked in. -/
theorem Repr.link {u : SkipList} {n : Addr} {prevs : Nat → Addr} {k : Nat} (h : Repr s (lo ++ hi))
    (hp : Prevs s lo prevs) (hn : n ∉ s.head_ :: (lo ++ hi)) (hnt : n ≠ s.tail_) (hna : n < s.allocated)
    (hlen : (s.nodes n).nexts_.length = k) (hheight : (s.nodes n).height_ = k) (hk : 0 < k)
    (hmax : k ≤ s.getMaxHeight) (hsorted : Sorted ((lo ++ n :: hi).map s.entry)) (hrel : Relinked s u)
    (hnext : ∀ a i, u.next a i = if i < k ∧ a = prevs i then some n
      else if i < k ∧ a = n then s.next (prevs i) i else s.next a i)
    (hentries : u.num_entries_ = s.num_entries_ + 1)
    (hbytes : u.num_bytes_ = s.num_bytes_ + (s.nodes n).key_.length + (s.nodes n).value_.length) :
    Repr u (lo ++ n :: hi) := by
  have hperm : (s.head_ :: (lo ++ n :: hi)).Perm (n :: s.head_ :: (lo ++ hi)) :=
    (List.Perm.cons s.head_ List.perm_middle).trans (List.Perm.swap n s.head_ _)
  refine hrel.repr h (hperm.nodup_iff.mpr (List.nodup_cons.mpr ⟨hn, h.nodup⟩)) (fun a ha => ?_)
    (fun i hi' => h.link_level hp hn hheight hnext hi') hsorted ?_ ?_
  · -- the new node fits, the others are old
    by_cases han : a = n
    · subst han
      exact .inr ⟨hnt, hna, hlen.trans hheight.symm, hheight ▸ ⟨hk, hmax⟩⟩
    · left
      simp only [List.mem_append, List.mem_cons] at ha ⊢
      tauto
  · rw [hentries, h.num_entries]
    simp only [List.length_append, List.length_cons]
    omega
  · rw [hbytes, h.num_bytes, bytesOf_insert]

/-- The node of the key is there: only its value changes. -/
theorem Repr.setValue {x : Addr} (h : Repr s (lo ++ x :: hi)) (value : Bytes) :
    Repr { s.setNode x { s.nodes x with value_ := value } with
      num_bytes_ := s.num_bytes_ - (s.nodes x).value_.length + value.length } (lo ++ x :: hi) ∧
    (lo ++ x :: hi).map (SkipList.entry { s.setNode x { s.nodes x with value_ := value } with
      num_bytes_ := s.num_bytes_ - (s.nodes x).value_.length + value.length }) =
      lo.map s.entry ++ ((s.nodes x).key_, value) :: hi.map s.entry := by
  -- the node stands once, so the other entries stay
  have hnd := (List.nodup_cons.mp h.nodup).2
  have hlo : x ∉ lo := fun hx => (List.nodup_append.mp hnd).2.2 x hx x List.mem_cons_self rfl
  have hhi : x ∉ hi := (List.nodup_cons.mp (List.nodup_append.mp hnd).2.1).1
  have hne : ∀ a, a ≠ x → (SkipList.entry { s.setNode x { s.nodes x with value_ := value } with
      num_bytes_ := s.num_bytes_ - (s.nodes x).value_.length + value.length }) a = s.entry a := by
    intro a ha
    show ((s.setNode x _).nodes a |>.key_, (s.setNode x _).nodes a |>.value_) = _
    rw [setNode_ne _ ha]
    rfl
  have hself : (SkipList.entry { s.setNode x { s.nodes x with value_ := value } with
      num_bytes_ := s.num_bytes_ - (s.nodes x).value_.length + value.length }) x =
      ((s.nodes x).key_, value) := by
    show ((s.setNode x _).nodes x |>.key_, (s.setNode x _).nodes x |>.value_) = _
    rw [setNode_self]
  have hmap : (lo ++ x :: hi).map (SkipList.entry { s.setNode x { s.nodes x with value_ := value } with
      num_bytes_ := s.num_bytes_ - (s.nodes x).value_.length + value.length }) =
      lo.map s.entry ++ ((s.nodes x).key_, value) :: hi.map s.entry := by
    rw [List.map_append, List.map_cons, hself,
      List.map_congr_left (fun a ha => hne a (fun hax => hlo (hax ▸ ha))),
      List.map_congr_left (fun a ha => hne a (fun hax => hhi (hax ▸ ha)))]
  refine ⟨h.frame rfl rfl (le_refl _) (fun a _ => ?_) ?_ h.num_entries ?_, hmap⟩
  · show ((s.setNode x _).nodes a).height_ = _ ∧ ((s.setNode x _).nodes a).nexts_ = _
    by_cases ha : a = x
    · subst ha; rw [setNode_self]; exact ⟨rfl, rfl⟩
    · rw [setNode_ne _ ha]; exact ⟨rfl, rfl⟩
  · rw [hmap]
    have hs := h.sorted
    rw [List.map_append, List.map_cons] at hs
    rw [Sorted, List.pairwise_append, List.pairwise_cons] at hs ⊢
    exact ⟨hs.1, ⟨fun e he => hs.2.1.1 e he, hs.2.1.2⟩,
      fun a ha b hb => by
        rcases List.mem_cons.mp hb with rfl | hb
        · exact hs.2.2 a ha (s.entry x) List.mem_cons_self
        · exact hs.2.2 a ha b (List.mem_cons_of_mem _ hb)⟩
  · rw [hmap]
    show s.num_bytes_ - (s.nodes x).value_.length + value.length = _
    rw [h.num_bytes]
    simp only [List.map_append, List.map_cons, bytesOf_append, bytesOf_cons, entry]
    omega

/-- The key is not there: a new node goes in at the cut. -/
theorem Repr.insert (h : Repr s (lo ++ hi)) {prevs : Nat → Addr} (hp : Prevs s lo prevs) (height : Nat)
    (value : Bytes)
    (hpos : 0 < height) (hmax : height ≤ s.getMaxHeight) (hlo : ∀ e ∈ lo.map s.entry, e.1 < key)
    (hhi : ∀ e ∈ hi.map s.entry, key < e.1) :
    ∃ t ns', SkipList.link { s.setNode s.allocated (newNode key value height) with
        allocated := s.allocated + 1 } s.allocated prevs height = some t ∧
      Repr { t with
        num_entries_ := t.num_entries_ + 1, num_bytes_ := t.num_bytes_ + key.length + value.length } ns' ∧
      ns'.map t.entry = SortedAssoc.put key value ((lo ++ hi).map s.entry) := by
  obtain ⟨u, hu⟩ : ∃ u, u = { s.setNode s.allocated (newNode key value height) with
      allocated := s.allocated + 1 } := ⟨_, rfl⟩
  -- the new node is no node of the list
  have hfresh : ∀ a ∈ s.tail_ :: s.head_ :: (lo ++ hi), a ≠ s.allocated := fun a ha =>
    ne_of_lt (h.alloc a ha)
  have hold : ∀ a, a ≠ s.allocated → u.nodes a = s.nodes a := by
    intro a ha
    rw [hu]
    exact setNode_ne _ ha
  have hnew : u.nodes s.allocated = newNode key value height := by
    rw [hu]
    exact setNode_self _ _
  have hentry : ∀ a ∈ lo ++ hi, u.entry a = s.entry a := fun a ha => by
    rw [entry, entry, hold a (hfresh a (by simp only [List.mem_cons]; tauto))]
  have hmap : (lo ++ hi).map u.entry = (lo ++ hi).map s.entry := List.map_congr_left hentry
  have hhead : u.head_ = s.head_ := by rw [hu]; rfl
  have htail : u.tail_ = s.tail_ := by rw [hu]; rfl
  have hheadne : s.head_ ≠ s.allocated := hfresh _ (by simp)
  have hur : Repr u (lo ++ hi) := by
    refine h.frame hhead htail (by rw [hu]; exact Nat.le_succ _) (fun a ha => ?_) ?_ ?_ ?_
    · rw [hold a (hfresh a (List.mem_cons_of_mem _ ha))]; exact ⟨rfl, rfl⟩
    · rw [hmap]; exact h.sorted
    · rw [hu]; exact h.num_entries
    · rw [hmap, hu]; exact h.num_bytes
  have humax : u.getMaxHeight = s.getMaxHeight := by
    rw [getMaxHeight, getMaxHeight, hhead, hold _ hheadne]
  have hup : Prevs u lo prevs := by
    intro i hi'
    have hf : (u.head_ :: lo).filter (u.tall i) = (s.head_ :: lo).filter (s.tall i) := by
      rw [hhead]
      refine List.filter_congr (fun a ha => ?_)
      simp only [tall]
      rw [hold a (hfresh a (by simp only [List.mem_cons, List.mem_append] at ha ⊢; tauto))]
    rw [hf]
    exact hp i (humax ▸ hi')
  -- every pointer that the loop writes is there
  have hlens : ∀ i < height, i < (u.nodes (prevs i)).nexts_.length ∧
      i < (u.nodes s.allocated).nexts_.length ∧ prevs i ≠ s.allocated := by
    intro i hi'
    have hlt := lt_of_lt_of_le hi' hmax
    have hmem := mem_nodes_of_mem (hp.mem hlt) hi
    have hne := hfresh (prevs i) (List.mem_cons_of_mem _ hmem)
    refine ⟨?_, ?_, hne⟩
    · rw [hold _ hne, h.nexts_length _ hmem]
      exact hp.lt_height hlt
    · rw [hnew]
      simpa [newNode] using hi'
  obtain ⟨t, ht, hrel, hent, hby, hnext⟩ := link_spec height hlens
  have hsplit : ((lo ++ s.allocated :: hi).map u.entry) = SortedAssoc.put key value
      ((lo ++ hi).map s.entry) := by
    have hn : u.entry s.allocated = (key, value) := by rw [entry, hnew]; rfl
    rw [List.map_append, List.map_append, put_append hlo, put_of_gt hhi, List.map_cons, hn,
      List.map_congr_left (fun a ha => hentry a (List.mem_append_left _ ha)),
      List.map_congr_left (fun a ha => hentry a (List.mem_append_right _ ha))]
  have hresult := hur.link (n := s.allocated) (k := height)
    (u := { t with
      num_entries_ := t.num_entries_ + 1, num_bytes_ := t.num_bytes_ + key.length + value.length })
    hup
    (by rw [hhead]; exact fun hn => hfresh _ (List.mem_cons_of_mem _ hn) rfl)
    (by rw [htail]; exact (hfresh _ List.mem_cons_self).symm)
    (by rw [hu]; exact Nat.lt_succ_self _)
    (by rw [hnew]; simp [newNode]) (by rw [hnew]; rfl) hpos (by rw [humax]; exact hmax)
    (by rw [hsplit]; exact sorted_put h.sorted)
    ⟨hrel.head, hrel.tail, hrel.allocated, hrel.node⟩ hnext (by rw [← hent])
    (by rw [hnew, ← hby]; rfl)
  refine ⟨t, lo ++ s.allocated :: hi, by rw [← hu]; exact ht, hresult, ?_⟩
  rw [hrel.entry_eq]
  exact hsplit

/-- **`put`** puts the pair, whatever height the new node draws. -/
theorem Holds.put {es : List (Bytes × Bytes)} (h : s.Holds es) (key value : Bytes) (ones : Nat) :
    ∃ t, s.put key value ones = some t ∧ t.Holds (SortedAssoc.put key value es) := by
  obtain ⟨ns, hr, rfl⟩ := h
  obtain ⟨lo, hi, rfl, hcut⟩ := hr.cut key
  obtain ⟨prevs, hfind, hprevs⟩ := findGreatorOrEqual_spec hr hcut
  by_cases hx : hi.headD s.tail_ ≠ s.tail_ ∧ (s.nodes (hi.headD s.tail_)).key_ = key
  -- the key is there: its value changes
  · cases hi with
    | nil => exact absurd rfl hx.1
    | cons x hi =>
        have hk : (s.nodes x).key_ = key := hx.2
        obtain ⟨hrepr, hmap⟩ := hr.setValue value
        refine ⟨_, ?_, lo ++ x :: hi, hrepr, ?_⟩
        · simp only [SkipList.put, hfind, Option.bind_eq_bind, Option.bind_some]
          rw [if_pos hx]
          rfl
        · rw [hmap, List.map_append, put_append hcut.entries_lt, List.map_cons, hk,
            show s.entry x = (key, (s.nodes x).value_) by rw [entry, hk], put_cons_self]
  · have hgt : ∀ e ∈ hi.map s.entry, key < e.1 := by
      cases hi with
      | nil => simp
      | cons x hi =>
          have hxt : x ≠ s.tail_ := by
            rintro rfl
            exact hr.tail_notMem (by simp)
          obtain ⟨hgt, hne⟩ := hr.entries_gt hcut
          intro e he
          rcases List.mem_cons.mp he with rfl | he
          · exact hne (fun hk => hx ⟨hxt, hk⟩)
          · exact hgt e he
    -- the key is not there: a node of a random height goes in
    obtain ⟨hpos, -⟩ := random_height_pos ones
    simp only [SkipList.put, hfind, Option.bind_eq_bind, Option.bind_some]
    rw [if_neg hx]
    by_cases hbig : random_height ones > s.getMaxHeight
    -- the new node is the tallest, so the head grows first
    · have hr' := hr.enlargeHeight hbig
      have hmap : (lo ++ hi).map (s.enlargeHeight (random_height ones)).entry = (lo ++ hi).map s.entry :=
        List.map_congr_left (fun a ha => by rw [entry, entry, enlargeHeight_mem hr ha])
      have hlo := hcut.entries_lt
      rw [← List.map_congr_left (fun a ha => show (s.enlargeHeight (random_height ones)).entry a = s.entry a by
        rw [entry, entry, enlargeHeight_mem hr (List.mem_append_left _ ha)])] at hlo
      rw [← List.map_congr_left (fun a ha => show (s.enlargeHeight (random_height ones)).entry a = s.entry a by
        rw [entry, entry, enlargeHeight_mem hr (List.mem_append_right _ ha)])] at hgt
      obtain ⟨t, ns', ht, hrepr, hput⟩ := hr'.insert (hprevs.enlargeHeight hr) (random_height ones)
        value hpos (by rw [enlargeHeight_max hr]) hlo hgt
      rw [if_pos hbig]
      refine ⟨_, ?_, ns', hrepr, by rw [← hmap]; exact hput⟩
      rw [ht]
      rfl
    · have hprevs' : Prevs s lo
          (fun i => if s.getMaxHeight ≤ i ∧ i < random_height ones then s.head_ else prevs i) := by
        intro i hi'
        rw [hprevs i hi']
        exact congrArg some (if_neg (by omega)).symm
      obtain ⟨t, ns', ht, hrepr, hput⟩ := hr.insert hprevs' (random_height ones) value hpos
        (by omega) hcut.entries_lt hgt
      rw [if_neg hbig]
      refine ⟨_, ?_, ns', hrepr, hput⟩
      rw [ht]
      rfl

/-! ## `del` -/

/-- **Unlinking.** The loop of `del` makes `prevs i` point to what the node points to, on the levels below
    `k`, and changes no other pointer. By induction on the level. -/
theorem unlink_spec {node : Addr} {prevs : Nat → Addr} : ∀ k,
    (∀ i < k, i < (s.nodes (prevs i)).nexts_.length ∧ i < (s.nodes node).nexts_.length ∧ prevs i ≠ node) →
    ∃ t, s.unlink node prevs k = some t ∧ Relinked s t ∧ t.num_entries_ = s.num_entries_ ∧
      t.num_bytes_ = s.num_bytes_ ∧
      ∀ a i, t.next a i = if i < k ∧ a = prevs i then s.next node i else s.next a i := by
  intro k
  induction k with
  | zero => exact fun _ => ⟨s, rfl, Relinked.refl s, rfl, rfl, fun a i => by simp⟩
  | succ k ih =>
      intro hlen
      obtain ⟨t, ht, hrel, hent, hby, hnext⟩ := ih (fun i hi => hlen i (Nat.lt_succ_of_lt hi))
      obtain ⟨hp, hn, -⟩ := hlen k (Nat.lt_succ_self k)
      obtain ⟨b, hb⟩ : ∃ b, s.next node k = some b := ⟨_, List.getElem?_eq_getElem hn⟩
      have htb : t.next node k = some b := by
        rw [hnext, if_neg (by omega)]
        exact hb
      obtain ⟨u, hu, hrel', hent', hby', hnext'⟩ :=
        setNext_spec (s := t) (a := prevs k) (b := b) (i := k) (by rw [(hrel.node _).2.2.2]; exact hp)
      refine ⟨u, ?_, hrel.trans hrel', hent'.trans hent, hby'.trans hby, fun a i => ?_⟩
      · simp only [unlink, ht, Option.bind_eq_bind, Option.bind_some, htb, hu]
      · rw [hnext', hnext]
        by_cases hik : i = k
        · subst hik
          by_cases ha : a = prevs i
          · simp [ha, hb]
          · simp [ha]
        · have hiff : i < k + 1 ↔ i < k := by omega
          simp [hik, hiff]

/-- One level of the list without the node behind the cut. -/
theorem Repr.unlink_level {u : SkipList} {n : Addr} {prevs : Nat → Addr} {i : Nat} (h : Repr s (lo ++ n :: hi))
    (hp : Prevs s lo prevs) (hnext : ∀ a i, u.next a i =
      if i < (s.nodes n).height_ ∧ a = prevs i then s.next n i else s.next a i) (hi' : i < s.getMaxHeight) :
    ((s.head_ :: (lo ++ hi)).filter (s.tall i) ++ [s.tail_]).IsChain (u.Linked i) := by
  have hnd : ((s.head_ :: lo) ++ n :: hi).Nodup := List.cons_append .. ▸ h.nodup
  have hchain := h.chain i hi'
  rw [← List.cons_append, List.filter_append, List.append_assoc] at hchain
  rw [← List.cons_append, List.filter_append, List.append_assoc]
  have hC : ∀ a ∈ hi.filter (s.tall i), a ≠ prevs i := by
    rintro a ha rfl
    exact (List.nodup_append.mp hnd).2.2 _ (hp.mem hi') _ (List.mem_cons_of_mem _ (List.mem_filter.mp ha).1) rfl
  by_cases hik : i < (s.nodes n).height_
  · rw [List.filter_cons_of_pos (show s.tall i n = true by simpa [tall] using hik), List.cons_append] at hchain
    refine Chain.remove hchain (List.Nodup.filter _ (List.nodup_append.mp hnd).1) (hp i hi') ?_ ?_ ?_
    · intro a ha hne b hab
      show u.next a i = some b
      rw [hnext, if_neg (by simp [hne])]
      exact hab
    · intro a ha b hab
      show u.next a i = some b
      rw [hnext, if_neg (by simp [hC a ha])]
      exact hab
    · intro b hb
      show u.next (prevs i) i = some b
      rw [hnext, if_pos ⟨hik, rfl⟩]
      exact hb
  · -- the node is not on this level
    rw [List.filter_cons_of_neg (show ¬ s.tall i n = true by simpa [tall] using hik)] at hchain
    rw [← List.append_assoc] at hchain ⊢
    refine Chain.congr_sources hchain (fun a _ b hab => ?_)
    show u.next a i = some b
    rw [hnext, if_neg (by simp [hik])]
    exact hab

/-- The list without the node behind the cut. -/
theorem Repr.unlink {u : SkipList} {n : Addr} {prevs : Nat → Addr} (h : Repr s (lo ++ n :: hi))
    (hp : Prevs s lo prevs) (hrel : Relinked s u)
    (hnext : ∀ a i, u.next a i =
      if i < (s.nodes n).height_ ∧ a = prevs i then s.next n i else s.next a i)
    (hentries : u.num_entries_ = s.num_entries_ - 1)
    (hbytes : u.num_bytes_ = s.num_bytes_ - (s.nodes n).key_.length - (s.nodes n).value_.length) :
    Repr u (lo ++ hi) := by
  have hsublist : (lo ++ hi).Sublist (lo ++ n :: hi) := (List.sublist_cons_self n hi).append_left lo
  refine hrel.repr h (h.nodup.sublist (hsublist.cons_cons s.head_)) (fun a ha => .inl (hsublist.subset ha))
    (fun i hi' => h.unlink_level hp hnext hi') ?_ ?_ ?_
  · exact h.sorted.sublist (hsublist.map _)
  · rw [hentries, h.num_entries]
    simp only [List.length_append, List.length_cons]
    omega
  · rw [hbytes, h.num_bytes, bytesOf_insert]
    omega

/-- **`del`** erases the key, and says whether it was there. -/
theorem Holds.del {es : List (Bytes × Bytes)} (h : s.Holds es) (key : Bytes) :
    ∃ t, s.del key = some (t, (es.lookup key).isSome) ∧ t.Holds (erase key es) := by
  obtain ⟨ns, hr, rfl⟩ := h
  obtain ⟨lo, hi, rfl, hcut⟩ := hr.cut key
  obtain ⟨prevs, hfind, hprevs⟩ := findGreatorOrEqual_spec hr hcut
  have hlook := hr.lookup_eq hcut
  have hlo : erase key (lo.map s.entry) = lo.map s.entry :=
    erase_of_ne (fun e he => ne_of_lt (hcut.entries_lt e he))
  simp only [SkipList.del, hfind, Option.bind_eq_bind, Option.bind_some]
  by_cases hx : hi.headD s.tail_ ≠ s.tail_ ∧ (s.nodes (hi.headD s.tail_)).key_ = key
  · rw [if_neg (by tauto)]
    rw [if_pos hx] at hlook
    cases hi with
    | nil => exact absurd rfl hx.1
    | cons n hi =>
        have hk : (s.nodes n).key_ = key := hx.2
        have hmem : n ∈ s.head_ :: (lo ++ n :: hi) := by simp
        obtain ⟨-, hn⟩ := hr.height n hmem
        have hnd : ((s.head_ :: lo) ++ n :: hi).Nodup := List.cons_append .. ▸ hr.nodup
        -- every pointer that the loop writes is there
        have hlens : ∀ i < (s.nodes n).height_, i < (s.nodes (prevs i)).nexts_.length ∧
            i < (s.nodes n).nexts_.length ∧ prevs i ≠ n := by
          intro i hi'
          have hlt := lt_of_lt_of_le hi' hn
          have hp := hprevs.mem hlt
          rw [hr.nexts_length _ (mem_nodes_of_mem hp (n :: hi)), hr.nexts_length _ hmem]
          refine ⟨hprevs.lt_height hlt, hi', ?_⟩
          exact fun heq => (List.nodup_append.mp hnd).2.2 _ hp n List.mem_cons_self heq
        obtain ⟨t, ht, hrel, hent, hby, hnext⟩ := unlink_spec _ hlens
        have hresult := hr.unlink (u := { t with
          num_entries_ := t.num_entries_ - 1
          num_bytes_ := t.num_bytes_ - (s.nodes n).key_.length - (s.nodes n).value_.length })
          hprevs ⟨hrel.head, hrel.tail, hrel.allocated, hrel.node⟩ hnext (by rw [← hent]) (by rw [← hby])
        refine ⟨_, ?_, lo ++ hi, hresult, ?_⟩
        · rw [hlook]
          show (s.unlink n prevs (s.nodes n).height_).bind _ = _
          rw [ht]
          rfl
        · show (lo ++ hi).map t.entry = _
          have hgt := (hr.entries_gt hcut).1
          rw [hrel.entry_eq, List.map_append, List.map_append, erase_append, hlo, List.map_cons,
            show s.entry n = (key, (s.nodes n).value_) by rw [entry, hk], erase_cons_self,
            erase_of_ne (fun e he => ne_of_gt (hgt e he))]
  · rw [if_pos (by tauto)]
    rw [if_neg hx] at hlook
    refine ⟨s, by rw [hlook]; rfl, lo ++ hi, hr, ?_⟩
    rw [List.lookup_eq_none_iff] at hlook
    rw [erase_of_ne (fun e he => ?_)]
    exact fun hk => absurd (hlook e he) (by simp [hk])

/-! ## The rest -/

theorem holds_init (nodes : Addr → Node) (allocated : Nat) : (init nodes allocated).Holds [] := by
  refine ⟨[], ⟨List.nodup_singleton _, ?_, ?_, ?_, ?_, ?_, List.Pairwise.nil, rfl, rfl⟩, rfl⟩
  · simp [init]
  · intro a ha
    show a < allocated + 2
    simp only [init, List.mem_cons, List.not_mem_nil, or_false] at ha
    rcases ha with rfl | rfl <;> simp
  · intro a ha
    obtain rfl : a = allocated := by simpa [init] using ha
    simp [init, newNode]
  · intro a ha
    obtain rfl : a = allocated := by simpa [init] using ha
    simp [init, newNode, getMaxHeight]
  · intro i hi
    obtain rfl : i = 0 := by simpa [init, newNode, getMaxHeight] using hi
    simp [init, newNode, tall, Linked, next]

/-- **`clear`** leaves an empty list. -/
theorem Holds.clear (s : SkipList) : s.clear.Holds [] := holds_init s.nodes s.allocated

theorem Holds.sorted {es : List (Bytes × Bytes)} (h : s.Holds es) : Sorted es := by
  obtain ⟨ns, hr, rfl⟩ := h
  exact hr.sorted

theorem Holds.size {es : List (Bytes × Bytes)} (h : s.Holds es) : s.size = es.length := by
  obtain ⟨ns, hr, rfl⟩ := h
  rw [List.length_map]
  exact hr.num_entries

theorem Holds.space {es : List (Bytes × Bytes)} (h : s.Holds es) : s.space = bytesOf es := by
  obtain ⟨ns, hr, rfl⟩ := h
  exact hr.num_bytes

theorem Holds.empty {es : List (Bytes × Bytes)} (h : s.Holds es) : s.empty = es.isEmpty := by
  have hs : s.num_entries_ = es.length := h.size
  rw [SkipList.empty, hs]
  cases es <;> rfl

/-- On level 0 every node is linked to its successor. -/
theorem Repr.next_zero (h : Repr s ns) {pre suf : List Addr} {a : Addr}
    (ha : s.head_ :: ns = pre ++ a :: suf) : s.next a 0 = some (suf.headD s.tail_) := by
  have hc : ((s.head_ :: ns) ++ [s.tail_]).IsChain (s.Linked 0) := h.levels.zero.chain
  rw [ha, List.append_assoc, List.cons_append] at hc
  have hc := (List.isChain_split.mp hc).2
  cases suf with
  | nil => exact (List.isChain_cons_cons.mp hc).1
  | cons b suf => exact (List.isChain_cons_cons.mp hc).1

/-- What an iterator stands on: nothing at the end, else the first of the remaining nodes. -/
theorem Repr.iterator_eq (h : Repr s ns) {suf : List Addr} (hsuf : ∀ a ∈ suf, a ∈ ns) :
    (if suf.headD s.tail_ = s.tail_ then none else some (suf.headD s.tail_)) = suf.head? := by
  cases suf with
  | nil => simp
  | cons b suf =>
      have : b ≠ s.tail_ := by
        rintro rfl
        exact h.tail_notMem (List.mem_cons_of_mem _ (hsuf _ List.mem_cons_self))
      simp [this]

theorem Repr.seekToFirst (h : Repr s ns) : s.seekToFirst = some ns.head? := by
  simp only [SkipList.seekToFirst, h.next_zero (show s.head_ :: ns = [] ++ s.head_ :: ns from rfl),
    Option.bind_eq_bind, Option.bind_some]
  rw [h.iterator_eq (fun _ ha => ha)]

theorem Repr.iteratorNext {pre suf : List Addr} {a : Addr} (h : Repr s (pre ++ a :: suf)) :
    s.iteratorNext a = some suf.head? := by
  simp only [SkipList.iteratorNext,
    h.next_zero (show s.head_ :: (pre ++ a :: suf) = (s.head_ :: pre) ++ a :: suf from rfl), Option.bind_eq_bind,
    Option.bind_some]
  rw [h.iterator_eq (fun b hb => by simp [hb])]

/-! ## Runs -/

/-- The abstract step. -/
def entriesStep (es : List (Bytes × Bytes)) : Event → List (Bytes × Bytes)
  | .put key value _ => SortedAssoc.put key value es
  | .del key => erase key es
  | .clear => []

/-- **Step lemma.** -/
theorem Holds.step {es : List (Bytes × Bytes)} (h : s.Holds es) (e : Event) :
    ∃ t, s.step e = some t ∧ t.Holds (entriesStep es e) := by
  cases e with
  | put key value ones => exact h.put key value ones
  | del key =>
      obtain ⟨t, ht, hes⟩ := h.del key
      exact ⟨t, by simp [SkipList.step, ht], hes⟩
  | clear => exact ⟨s.clear, rfl, Holds.clear s⟩

/-- **The skip list refines a sorted association list.** Every run of operations succeeds, and ends in a skip
    list that holds what the operations leave. -/
theorem holds_run (es : List Event) :
    ∃ t, Run (FunStep SkipList.step) new es t ∧ t.Holds (es.foldl entriesStep []) := by
  induction es using List.reverseRecOn with
  | nil => exact ⟨new, Run.refl, holds_init _ 1⟩
  | append_singleton es e ih =>
      obtain ⟨t, hrun, ht⟩ := ih
      obtain ⟨u, hu, hes⟩ := ht.step e
      refine ⟨u, Run.tail hrun hu, ?_⟩
      rw [List.foldl_append]
      exact hes

/-- Every reachable skip list holds some pairs. -/
theorem holds_of_run {es : List Event} (h : Run (FunStep SkipList.step) new es t) :
    t.Holds (es.foldl entriesStep []) := by
  refine h.history (I := fun es s => s.Holds (es.foldl entriesStep [])) (holds_init _ 1) ?_
  intro es s e u hs hst
  obtain ⟨u', hu', hes⟩ := Holds.step hs e
  obtain rfl : u' = u := Option.some.inj (hu'.symm.trans hst)
  rw [List.foldl_append]
  exact hes

end SkipList
end DDBMS
