import DDBMS.Storage.SkipList
import Mathlib.Data.List.Chain
import Mathlib.Tactic.Cases
import Mathlib.Tactic.IntervalCases

/-!
# `Storage.SkipListSearch` — the searches of the skip list

The searches follow pointers only, so what they need of the heap is its levels (`Levels`): from `head_`, each level is a
linked list of the nodes that are tall enough for it. A key cuts the nodes, and the loops walk down the levels along
this cut: a turn goes to the next tall node before the cut or, at the last of them, one level down
(`Levels.level_step`). The nodes before the cut and the levels that are still ahead bound the number of turns.

`search_eq_scan` compares them with scans, which look at one node after the other.
-/

namespace DDBMS
namespace SkipList

variable {s : SkipList} {ns lo hi : List Addr} {key : Bytes}

/-- A node has a pointer on level `i`. -/
def tall (s : SkipList) (i : Nat) (a : Addr) : Bool := i < (s.nodes a).height_

def Linked (s : SkipList) (i : Nat) (a b : Addr) : Prop := s.next a i = some b

/-- The chain from `head_` along `nexts_[i]` goes through `l`, with increasing keys, and then to `tail_`. -/
structure Level (s : SkipList) (i : Nat) (l : List Addr) : Prop where
  chain : (s.head_ :: (l ++ [s.tail_])).IsChain (s.Linked i)
  inner : s.tail_ ∉ s.head_ :: l
  increasing : l.Pairwise fun a b => (s.nodes a).key_ < (s.nodes b).key_

/-- The levels of a skip list with the nodes `ns`. -/
structure Levels (s : SkipList) (ns : List Addr) : Prop where
  /-- level 0 has all nodes -/
  zero : s.Level 0 ns
  /-- the others have those of level 0 that are taller -/
  level : ∀ i < s.getMaxHeight, s.Level i (ns.filter fun a => i < (s.nodes a).height_)
  num_entries : s.num_entries_ = ns.length
  height : ∀ a ∈ ns, 1 ≤ (s.nodes a).height_ ∧ (s.nodes a).height_ ≤ (s.nodes s.head_).height_

/-! ## Cuts -/

/-- The nodes `ns = lo ++ hi` are cut at `key`. -/
structure Cut (s : SkipList) (key : Bytes) (lo hi : List Addr) : Prop where
  lt : ∀ a ∈ lo, (s.nodes a).key_ < key
  ge : ∀ a ∈ hi, ¬ (s.nodes a).key_ < key

/-- `prevs` holds, for each level, the last node before the cut that is tall enough. -/
def Prevs (s : SkipList) (lo : List Addr) (prevs : Nat → Addr) : Prop :=
  ∀ i < s.getMaxHeight, ((s.head_ :: lo).filter (s.tall i)).getLast? = some (prevs i)

/-- A sorted list of nodes cut at a key. -/
theorem exists_cut {α : Type*} (f : α → Bytes) (key : Bytes) {ns : List α}
    (h : ns.Pairwise (fun a b => f a < f b)) :
    ∃ lo hi, ns = lo ++ hi ∧ (∀ a ∈ lo, f a < key) ∧ ∀ a ∈ hi, ¬ f a < key := by
  induction ns with
  | nil => exact ⟨[], [], rfl, by simp, by simp⟩
  | cons a ns ih =>
      obtain ⟨hhead, htail⟩ := List.pairwise_cons.mp h
      by_cases ha : f a < key
      · obtain ⟨lo, hi, rfl, hlo, hhi⟩ := ih htail
        refine ⟨a :: lo, hi, rfl, ?_, hhi⟩
        intro b hb
        rcases List.mem_cons.mp hb with rfl | hb
        · exact ha
        · exact hlo b hb
      · refine ⟨[], a :: ns, rfl, by simp, ?_⟩
        intro b hb
        rcases List.mem_cons.mp hb with rfl | hb
        · exact ha
        · exact fun hlt => ha (lt_trans (hhead b hb) hlt)

theorem Levels.cut (h : s.Levels ns) (key : Bytes) : ∃ lo hi, ns = lo ++ hi ∧ Cut s key lo hi := by
  obtain ⟨lo, hi, hns, hlo, hhi⟩ := exists_cut (fun a => (s.nodes a).key_) key h.zero.increasing
  exact ⟨lo, hi, hns, hlo, hhi⟩

/-! ## One turn -/

/-- No node is taller than the head. -/
theorem Levels.height_le (h : s.Levels ns) {a : Addr} (ha : a ∈ s.head_ :: ns) :
    (s.nodes a).height_ ≤ s.getMaxHeight := by
  rcases List.mem_cons.mp ha with rfl | ha
  · exact le_refl _
  · exact (h.height a ha).2

/-- Every node is on level 0. -/
theorem Levels.filter_tall_zero (h : s.Levels ns) {l : List Addr} (hl : ∀ a ∈ l, a ∈ ns) :
    l.filter (s.tall 0) = l := by
  rw [List.filter_eq_self]
  intro a ha
  simpa [tall] using Nat.lt_of_succ_le (h.height a (hl a ha)).1

/-- On level `i`, a node before the cut points to the next tall node, in front of the cut or behind it. -/
theorem Levels.next_eq (h : s.Levels (lo ++ hi)) {i : Nat} (hlt : i < s.getMaxHeight) {pre suf : List Addr}
    {x : Addr} (hx : s.head_ :: lo = pre ++ x :: suf) (htall : i < (s.nodes x).height_) {b : Addr}
    {rest : List Addr} (hb : suf.filter (s.tall i) ++ (hi.filter (s.tall i) ++ [s.tail_]) = b :: rest) :
    s.next x i = some b := by
  have hhead : s.tall i s.head_ = true := by simpa [tall, getMaxHeight] using hlt
  have hxt : s.tall i x = true := by simpa [tall] using htall
  have hc : (s.head_ :: ((lo ++ hi).filter (s.tall i) ++ [s.tail_])).IsChain (s.Linked i) := (h.level i hlt).chain
  rw [← List.cons_append, ← List.filter_cons_of_pos hhead, ← List.cons_append, hx, List.filter_append,
    List.filter_append, List.filter_cons_of_pos hxt, List.append_assoc, List.append_assoc, List.cons_append, hb] at hc
  exact (List.isChain_cons_cons.mp (List.isChain_split.mp hc).2).1

/-- What stands behind the cut on level `i`: the end of the list, or a node of `hi`. -/
theorem Levels.behind (h : s.Levels (lo ++ hi)) (i : Nat) :
    ∃ b rest, hi.filter (s.tall i) ++ [s.tail_] = b :: rest ∧ (b = s.tail_ ∨ b ∈ hi) ∧
      (i = 0 → b = hi.headD s.tail_) := by
  cases hf : hi.filter (s.tall i) with
  | nil =>
      refine ⟨s.tail_, [], rfl, Or.inl rfl, ?_⟩
      rintro rfl
      rw [h.filter_tall_zero (fun a ha => List.mem_append_right lo ha)] at hf
      rw [hf]
      rfl
  | cons b rest =>
      have hb : b ∈ hi := (List.mem_filter.mp (hf ▸ List.mem_cons_self : b ∈ hi.filter (s.tall i))).1
      refine ⟨b, rest ++ [s.tail_], rfl, Or.inr hb, ?_⟩
      rintro rfl
      rw [h.filter_tall_zero (fun a ha => List.mem_append_right lo ha)] at hf
      rw [hf]
      rfl

/-- **One turn of a search.** On level `i`, a node before the cut points to the next tall node before the cut; the last
    of them points behind the cut. -/
theorem Levels.level_step (h : s.Levels (lo ++ hi)) {i : Nat} {pre suf : List Addr} {x : Addr}
    (hx : s.head_ :: lo = pre ++ x :: suf) (htall : i < (s.nodes x).height_) :
    (∃ r suf₁ suf₂, suf = suf₁ ++ r :: suf₂ ∧ s.next x i = some r ∧ r ∈ lo ∧ r ≠ s.tail_ ∧ i < (s.nodes r).height_) ∨
    ∃ b, s.next x i = some b ∧ (b = s.tail_ ∨ b ∈ hi) ∧ (i = 0 → b = hi.headD s.tail_) ∧
      ((s.head_ :: lo).filter (s.tall i)).getLast? = some x := by
  have hxlo : x ∈ s.head_ :: lo := by rw [hx]; simp
  have hmax : i < s.getMaxHeight :=
    lt_of_lt_of_le htall (h.height_le (List.cons_append ▸ List.mem_append_left hi hxlo))
  cases hsuf : suf.filter (s.tall i) with
  | cons r rs =>
      obtain ⟨suf₁, suf₂, rfl, -, hr, -⟩ := List.filter_eq_cons_iff.mp hsuf
      have hrlo : r ∈ lo := by
        cases pre with
        | nil => rw [(List.cons.inj hx).2]; simp
        | cons c pre => rw [(List.cons.inj hx).2]; simp
      refine Or.inl ⟨r, suf₁, suf₂, rfl, h.next_eq hmax hx htall (by rw [hsuf, List.cons_append]), hrlo, ?_, ?_⟩
      · rintro rfl
        exact h.zero.inner (List.mem_cons_of_mem _ (List.mem_append_left _ hrlo))
      · simpa [tall] using hr
  | nil =>
      obtain ⟨b, rest, hb, hbhi, hzero⟩ := h.behind i
      refine Or.inr ⟨b, h.next_eq hmax hx htall (by rw [hsuf]; exact hb), hbhi, hzero, ?_⟩
      rw [hx, List.filter_append, List.filter_cons_of_pos (by simpa [tall] using htall), hsuf,
        List.getLast?_concat]

/-! ## The loops -/

/-- **The search loop.** From a node `x` before the cut that is tall enough, it descends to level 0, returns the
    first node behind the cut, and fills `prevs` on the levels it passes. The induction is on the fuel, which
    bounds the nodes and levels still ahead. -/
theorem findLoop_spec (h : s.Levels (lo ++ hi)) (hcut : Cut s key lo hi) :
    ∀ (fuel : Nat) (x : Addr) (height : Nat) (pre suf : List Addr) (prevs : Nat → Addr),
      s.head_ :: lo = pre ++ x :: suf → height < (s.nodes x).height_ → suf.length + height < fuel →
      ∃ prevs', s.findLoop key fuel x height prevs = some (hi.headD s.tail_, prevs') ∧
        (∀ i ≤ height, ((s.head_ :: lo).filter (s.tall i)).getLast? = some (prevs' i)) ∧
        ∀ i > height, prevs' i = prevs i := by
  intro fuel
  induction fuel with
  | zero => intro x height pre suf prevs _ _ hfuel; omega
  | succ fuel ih =>
      intro x height pre suf prevs hx htall hfuel
      rcases h.level_step hx htall with
        ⟨r, suf₁, suf₂, rfl, hnext, hrlo, hrtail, hr⟩ | ⟨b, hnext, hbhi, hzero, hlast⟩
      · -- the next tall node is before the cut: go there
        have hloop : s.findLoop key (fuel + 1) x height prevs = s.findLoop key fuel r height prevs := by
          simp only [findLoop, hnext, Option.bind_eq_bind, Option.bind_some]
          rw [if_pos ⟨hrtail, hcut.lt r hrlo⟩]
        rw [hloop]
        refine ih r height (pre ++ x :: suf₁) suf₂ prevs (by rw [hx]; simp) hr ?_
        rw [List.length_append, List.length_cons] at hfuel
        omega
      · -- the next tall node is behind the cut: `x` is the last one before it
        have hstop : ¬(b ≠ s.tail_ ∧ (s.nodes b).key_ < key) := by
          rintro ⟨hne, hlt⟩
          exact hcut.ge b (hbhi.resolve_left hne) hlt
        have hloop : s.findLoop key (fuel + 1) x height prevs =
            (let prevs := fun i => if i = height then x else prevs i
            if height = 0 then some (b, prevs) else s.findLoop key fuel x (height - 1) prevs) := by
          simp only [findLoop, hnext, Option.bind_eq_bind, Option.bind_some]
          rw [if_neg hstop]
        rw [hloop]
        by_cases h0 : height = 0
        · subst h0
          refine ⟨fun i => if i = 0 then x else prevs i, by simp [hzero rfl], ?_, ?_⟩
          · intro i hi0
            obtain rfl : i = 0 := by omega
            simpa using hlast
          · intro i hi0
            simp [show i ≠ 0 by omega]
        · obtain ⟨prevs', hfind, hle, hgt⟩ := ih x (height - 1) pre suf
            (fun i => if i = height then x else prevs i) hx (by omega) (by omega)
          refine ⟨prevs', by simpa [h0] using hfind, ?_, ?_⟩
          · intro i hi'
            by_cases hih : i = height
            · subst hih
              rw [hgt i (by omega), if_pos rfl]
              exact hlast
            · exact hle i (by omega)
          · intro i hi'
            rw [hgt i (by omega), if_neg (by omega)]

/-- The loop of `findLessThan` and `findLast` ends at the last node before the cut. -/
theorem lastLoop_spec (h : s.Levels (lo ++ hi)) {before : Addr → Bool} (hlo : ∀ a ∈ lo, before a = true)
    (hhi : ∀ a ∈ hi, ¬ before a = true) :
    ∀ (fuel : Nat) (x : Addr) (level : Nat) (pre suf : List Addr),
      s.head_ :: lo = pre ++ x :: suf → level < (s.nodes x).height_ → suf.length + level < fuel →
      s.lastLoop before fuel x level = (s.head_ :: lo).getLast? := by
  intro fuel
  induction fuel with
  | zero => intro x level pre suf _ _ hfuel; omega
  | succ fuel ih =>
      intro x level pre suf hx htall hfuel
      rcases h.level_step hx htall with
        ⟨r, suf₁, suf₂, rfl, hnext, hrlo, hrtail, hr⟩ | ⟨b, hnext, hbhi, -, hlast⟩
      · simp only [lastLoop, hnext, Option.bind_eq_bind, Option.bind_some]
        rw [if_pos ⟨hrtail, hlo r hrlo⟩]
        refine ih r level (pre ++ x :: suf₁) suf₂ (by rw [hx]; simp) hr ?_
        rw [List.length_append, List.length_cons] at hfuel
        omega
      · have hstop : ¬(b ≠ s.tail_ ∧ before b = true) := by
          rintro ⟨hne, hgo⟩
          exact hhi b (hbhi.resolve_left hne) hgo
        simp only [lastLoop, hnext, Option.bind_eq_bind, Option.bind_some]
        rw [if_neg hstop]
        split
        · rename_i h0
          subst h0
          have hxlo : x ∈ s.head_ :: lo := by rw [hx]; simp
          have hhead : s.tall 0 s.head_ = true := by
            have := h.height_le (List.cons_append ▸ List.mem_append_left hi hxlo)
            simpa [tall, getMaxHeight] using Nat.zero_lt_of_lt (lt_of_lt_of_le htall this)
          rw [List.filter_cons_of_pos hhead, h.filter_tall_zero (fun a ha => List.mem_append_left hi ha)] at hlast
          exact hlast.symm
        · exact ih x (level - 1) pre suf hx (by omega) (by omega)

/-- **`findGreatorOrEqual`** returns the first node behind the cut, and `prevs` for every level. -/
theorem Levels.findGreatorOrEqual (h : s.Levels (lo ++ hi)) (hhead : 0 < s.getMaxHeight) (hcut : Cut s key lo hi) :
    ∃ prevs, s.findGreatorOrEqual key = some (hi.headD s.tail_, prevs) ∧ Prevs s lo prevs := by
  have hmax : (s.nodes s.head_).height_ = s.getMaxHeight := rfl
  obtain ⟨prevs, hfind, hle, -⟩ := findLoop_spec h hcut (s.num_entries_ + s.getMaxHeight) s.head_
    (s.getMaxHeight - 1) [] lo (fun _ => 0) rfl (by omega) (by
      rw [h.num_entries, List.length_append]
      omega)
  exact ⟨prevs, hfind, fun i hi' => hle i (by omega)⟩

/-- From the top of the head, for either backward search. -/
theorem Levels.lastLoop_head (h : s.Levels (lo ++ hi)) (hhead : 0 < s.getMaxHeight) {before : Addr → Bool}
    (hlo : ∀ a ∈ lo, before a = true) (hhi : ∀ a ∈ hi, ¬ before a = true) :
    s.lastLoop before (s.num_entries_ + s.getMaxHeight) s.head_ (s.getMaxHeight - 1) = (s.head_ :: lo).getLast? := by
  have hmax : (s.nodes s.head_).height_ = s.getMaxHeight := rfl
  refine lastLoop_spec h hlo hhi _ s.head_ _ [] lo rfl (by omega) ?_
  rw [h.num_entries, List.length_append]
  omega

theorem Levels.findLessThan (h : s.Levels (lo ++ hi)) (hhead : 0 < s.getMaxHeight) (hcut : Cut s key lo hi) :
    s.findLessThan key = (s.head_ :: lo).getLast? :=
  h.lastLoop_head hhead (fun a ha => decide_eq_true (hcut.lt a ha)) (fun a ha => by simpa using hcut.ge a ha)

theorem Levels.findLast (h : s.Levels ns) (hhead : 0 < s.getMaxHeight) : s.findLast = (s.head_ :: ns).getLast? := by
  have h' : s.Levels (ns ++ []) := by rwa [List.append_nil]
  exact h'.lastLoop_head hhead (fun _ _ => rfl) (by simp)

/-! ## Scans -/

/-- The first of the nodes whose key is not less than `key`, or `tail_`. -/
def scanGreatorOrEqual (s : SkipList) (key : Bytes) (ns : List Addr) : Addr :=
  (ns.find? fun a => key ≤ (s.nodes a).key_).getD s.tail_

/-- The last of the nodes whose key is less than `key`, or `head_`. -/
def scanLessThan (s : SkipList) (key : Bytes) (ns : List Addr) : Addr :=
  (ns.filter fun a => (s.nodes a).key_ < key).getLast?.getD s.head_

/-- The last of the nodes, or `head_`. -/
def scanLast (s : SkipList) (ns : List Addr) : Addr := ns.getLast?.getD s.head_

/-- In a list that is cut at the key, the first one is behind the cut. -/
theorem Cut.scanGreatorOrEqual (hcut : Cut s key lo hi) : s.scanGreatorOrEqual key (lo ++ hi) = hi.headD s.tail_ := by
  have hlo : (lo.find? fun a => key ≤ (s.nodes a).key_) = none := by
    rw [List.find?_eq_none]
    intro a ha
    simpa using hcut.lt a ha
  rw [SkipList.scanGreatorOrEqual, List.find?_append, hlo, Option.none_or]
  cases hi with
  | nil => rfl
  | cons a hi =>
      rw [List.find?_cons_of_pos (by simpa using hcut.ge a List.mem_cons_self)]
      rfl

/-- Of the nodes of a level, the last one is before the cut. -/
theorem Cut.scanLessThan (hcut : Cut s key lo hi) (on : Addr → Bool) :
    s.scanLessThan key ((lo ++ hi).filter on) = (lo.filter on).getLast?.getD s.head_ := by
  have hlo : (lo.filter on).filter (fun a => (s.nodes a).key_ < key) = lo.filter on := by
    rw [List.filter_eq_self]
    intro a ha
    simpa using hcut.lt a (List.mem_filter.mp ha).1
  have hhi : (hi.filter on).filter (fun a => (s.nodes a).key_ < key) = [] := by
    rw [List.filter_eq_nil_iff]
    intro a ha
    simpa using hcut.ge a (List.mem_filter.mp ha).1
  rw [SkipList.scanLessThan, List.filter_append, List.filter_append, hlo, hhi, List.append_nil]

/-- **The searches agree with scans.** On every skip list with the right levels, whatever its heights, each search comes
    to an end and returns what a scan of level 0 returns, and `prevs` is what a scan of each level returns. -/
theorem search_eq_scan (h : s.Levels ns) (hhead : 0 < s.getMaxHeight) (key : Bytes) :
    (∃ prevs, s.findGreatorOrEqual key = some (s.scanGreatorOrEqual key ns, prevs) ∧
      ∀ i < s.getMaxHeight, prevs i = s.scanLessThan key (ns.filter fun a => i < (s.nodes a).height_)) ∧
    s.findLessThan key = some (s.scanLessThan key ns) ∧
    s.findLast = some (s.scanLast ns) := by
  obtain ⟨lo, hi, rfl, hcut⟩ := h.cut key
  refine ⟨?_, ?_, ?_⟩
  · obtain ⟨prevs, hfind, hprevs⟩ := h.findGreatorOrEqual hhead hcut
    refine ⟨prevs, by rw [hfind, hcut.scanGreatorOrEqual], fun i hi' => ?_⟩
    have htall : s.tall i s.head_ = true := by simpa [tall, getMaxHeight] using hi'
    have hlast := hprevs i hi'
    rw [List.filter_cons_of_pos htall, List.getLast?_cons] at hlast
    rw [hcut.scanLessThan]
    exact (Option.some.inj hlast).symm
  · have hscan := hcut.scanLessThan fun _ => true
    rw [List.filter_true, List.filter_true] at hscan
    rw [h.findLessThan hhead hcut, hscan, List.getLast?_cons]
  · rw [h.findLast hhead, List.getLast?_cons]
    rfl

/-- Two nodes, the second of which is also on level 1. -/
def twoNodes : SkipList where
  nodes
    | 1 => ⟨[], [], [3, 4], 2⟩
    | 2 => ⟨[], [], [0, 0], 2⟩
    | 3 => ⟨[97], [], [4], 1⟩
    | 4 => ⟨[98], [], [2, 2], 2⟩
    | _ => newNode [] [] 0
  allocated := 5
  head_ := 1
  tail_ := 2
  num_entries_ := 2
  num_bytes_ := 2

theorem levels_twoNodes : twoNodes.Levels [3, 4] := by
  have hlevel : ∀ i < 2, twoNodes.Level i ([3, 4].filter fun a => i < (twoNodes.nodes a).height_) := by
    intro i hi
    interval_cases i
    · exact ⟨by simp [Linked, next, twoNodes], by simp [twoNodes], by simp [twoNodes]; decide⟩
    · exact ⟨by simp [Linked, next, twoNodes], by simp [twoNodes], by simp [twoNodes]⟩
  exact ⟨hlevel 0 (by decide), hlevel, rfl, by simp [twoNodes]⟩

theorem search_eq_scan_twoNodes :
    (∃ prevs, twoNodes.findGreatorOrEqual [98] = some (4, prevs) ∧
      ∀ i < 2, prevs i = twoNodes.scanLessThan [98] ([3, 4].filter fun a => i < (twoNodes.nodes a).height_)) ∧
    twoNodes.findLessThan [98] = some 3 ∧ twoNodes.findLast = some 4 :=
  search_eq_scan levels_twoNodes (by decide) [98]

end SkipList
end DDBMS
