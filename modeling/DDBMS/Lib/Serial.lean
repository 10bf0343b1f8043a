import DDBMS.Lib.Run
import Mathlib.Data.List.Nodup
import Mathlib.Data.List.Perm.Lattice
import Mathlib.Logic.Relation

/-!
# `Lib.Serial` — two-phase locking makes schedules serial

A schedule is a list of operations of several owners on one state. An operation may refuse: a read that is recorded with
its answer refuses a state that would give another answer. So two schedules that `execute` alike from every state give the
same answers and the same final state.

* **Reordering.** Operations of different owners that do not commute must stand in an order that is fixed for the two
  owners. Then the operations of each owner can be moved together, one owner behind the other (`execute_serial`).
* **Locking.** `Locking` is the abstract machine of two-phase locking: an owner acquires and strengthens locks, gives locks
  up and acquires none from then on, and operates only under locks that permit it. Conflicting operations need locks that
  exclude each other. The order of the owners is that of their last acquisitions, and every run of the machine is serial in
  that order (`Locking.Inv.serial_answers`).

* **Sites.** Owners who lock and operate at several sites (`Sites`) keep to two-phase locking together: one order of the owners is
  right at every site (`Sites.inv_step`).

Owners, items, modes, operations and states are any types. A system is shown to be serializable by a simulation: each of its
steps is some steps of the machine.
-/

namespace DDBMS
namespace Serial

universe u v w x y z

/-! ## Schedules -/

section Schedules

variable {α : Type u} {σ : Type v} {τ : Type w} (apply : α → σ → Option σ)

/-- The operations one after the other. -/
def execute : List α → σ → Option σ
  | [], s => some s
  | a :: ops, s => (apply a s).bind (execute ops)

/-- The two orders of two operations cannot be told apart. -/
def Commute (a b : α) : Prop := ∀ s, (apply a s).bind (apply b) = (apply b s).bind (apply a)

/-- All operations of the first owner, then those of the second, and so on. -/
def serial [DecidableEq τ] (owner : α → τ) (order : List τ) (ops : List α) : List α :=
  order.flatMap fun t => ops.filter fun a => owner a = t

variable {apply} {a b : α} {ops ops' : List α} {s : σ}

theorem execute_append : execute apply (ops ++ ops') s = (execute apply ops s).bind (execute apply ops') := by
  induction ops generalizing s with
  | nil => rfl
  | cons a ops ih =>
      rw [List.cons_append, execute, execute, Option.bind_assoc]
      exact congrArg _ (funext fun s' => ih)

/-- An operation moves behind operations that it commutes with. -/
theorem execute_move (h : ∀ b ∈ ops, Commute apply a b) :
    execute apply (a :: (ops ++ ops')) s = execute apply (ops ++ a :: ops') s := by
  induction ops generalizing s with
  | nil => rfl
  | cons b ops ih =>
      have hcomm := h b List.mem_cons_self s
      have hrest : ∀ s, execute apply (a :: (ops ++ ops')) s = execute apply (ops ++ a :: ops') s :=
        fun s => ih (fun c hc => h c (List.mem_cons_of_mem _ hc))
      calc execute apply (a :: b :: (ops ++ ops')) s
          = ((apply a s).bind (apply b)).bind (execute apply (ops ++ ops')) := by
            rw [Option.bind_assoc]
            rfl
        _ = (apply b s).bind fun s' => execute apply (a :: (ops ++ ops')) s' := by
            rw [hcomm, Option.bind_assoc]
            rfl
        _ = execute apply (b :: (ops ++ a :: ops')) s := by
            rw [execute]
            exact congrArg _ (funext hrest)

variable [DecidableEq τ] {owner : α → τ} {t u : τ} {order : List τ}

/-- The operations of one owner move to the front, if they commute with what the others do before them. -/
theorem execute_front (h : ops.Pairwise fun a b => owner a ≠ t → owner b = t → Commute apply a b) :
    execute apply ops s =
      execute apply ((ops.filter fun a => owner a = t) ++ ops.filter fun a => owner a ≠ t) s := by
  induction ops generalizing s with
  | nil => rfl
  | cons a ops ih =>
      obtain ⟨ha, hops⟩ := List.pairwise_cons.mp h
      have hrest : execute apply (a :: ops) s =
          execute apply (a :: ((ops.filter fun a => owner a = t) ++ ops.filter fun a => owner a ≠ t)) s := by
        rw [execute, execute]
        exact congrArg _ (funext fun s' => ih hops)
      rw [hrest]
      by_cases hat : owner a = t
      · rw [List.filter_cons_of_pos (by simpa using hat), List.filter_cons_of_neg (by simpa using hat), List.cons_append]
      · rw [List.filter_cons_of_neg (by simpa using hat), List.filter_cons_of_pos (by simpa using hat)]
        apply execute_move
        intro b hb
        obtain ⟨hmem, hbt⟩ := List.mem_filter.mp hb
        exact ha b hmem hat (by simpa using hbt)

theorem serial_filter_ne (h : t ∉ order) : serial owner order (ops.filter fun a => owner a ≠ t) = serial owner order ops := by
  unfold serial
  refine List.flatMap_congr (fun u hu => ?_)
  rw [List.filter_filter]
  refine List.filter_congr (fun a _ => ?_)
  by_cases hau : owner a = u
  · have hne : owner a ≠ t := fun hat => h (hat ▸ hau ▸ hu)
    simp [hau, hau ▸ hne]
  · simp [hau]

/-- **A schedule is serial** in every order of the owners that agrees with the order of the operations that do not
    commute. By induction on the owners: the first one has no such operation behind one of another owner. -/
theorem execute_serial (hnodup : order.Nodup) (hmem : ∀ a ∈ ops, owner a ∈ order)
    (h : ops.Pairwise fun a b => owner a = owner b ∨ Commute apply a b ∨ [owner a, owner b].Sublist order) :
    execute apply ops s = execute apply (serial owner order ops) s := by
  induction order generalizing ops s with
  | nil =>
      have hnil : ops = [] := List.eq_nil_iff_forall_not_mem.mpr fun a ha => absurd (hmem a ha) List.not_mem_nil
      rw [hnil]
      rfl
  | cons t order ih =>
      obtain ⟨ht, hnodup⟩ := List.nodup_cons.mp hnodup
      have hbehind : ∀ {a b}, owner a ≠ t → [owner a, owner b].Sublist (t :: order) → [owner a, owner b].Sublist order := by
        intro a b hat hsub
        rcases List.sublist_cons_iff.mp hsub with hsub | ⟨r, hr, -⟩
        · exact hsub
        · exact absurd (List.cons.inj hr).1 hat
      rw [execute_front (t := t)]
      · show _ = execute apply ((ops.filter fun a => owner a = t) ++ serial owner order ops) s
        rw [execute_append, execute_append, ← serial_filter_ne ht]
        refine congrArg _ (funext fun s' => ih hnodup ?_ ?_)
        · intro a ha
          obtain ⟨hops, hne⟩ := List.mem_filter.mp ha
          exact (List.mem_cons.mp (hmem a hops)).resolve_left (by simpa using hne)
        · refine List.Pairwise.imp_of_mem ?_ (h.sublist List.filter_sublist)
          intro a b ha _ hab
          have hat : owner a ≠ t := by simpa using (List.mem_filter.mp ha).2
          exact hab.imp_right (Or.imp_right (hbehind hat))
      · refine h.imp ?_
        intro a b hab hat hbt
        rcases hab with hsame | hcomm | hsub
        · exact absurd (hsame.trans hbt) hat
        · exact hcomm
        · -- the owner of `a` would come first
          have hb := (hbehind hat hsub).subset (List.mem_cons_of_mem _ List.mem_cons_self)
          rw [hbt] at hb
          exact absurd hb ht

end Schedules

/-! ## Two-phase locking -/

/-- A discipline of locks: which modes go together, and which locks permit an operation. -/
structure Discipline (τ : Type u) (ι : Type v) (μ : Type w) (α : Type x) (σ : Type y) where
  compatible : μ → μ → Prop
  owner : α → τ
  apply : α → σ → Option σ
  permits : (ι → Option μ) → α → Prop
  /-- Operations of different owners that do not commute need locks on one item that do not go together. -/
  excludes : ∀ {a b h h'}, owner a ≠ owner b → ¬ Commute apply a b → permits h a → permits h' b →
    ∃ l m n, h l = some m ∧ h' l = some n ∧ ¬ compatible m n
  /-- Nothing is permitted without a lock. -/
  needs : ∀ {a h}, permits h a → ∃ l m, h l = some m

/-- What two-phase locking knows: who holds what, who has given up a lock, in which order the owners have acquired their
    last locks, and what has been done. -/
structure Locking (τ : Type u) (ι : Type v) (μ : Type w) (α : Type x) where
  held : τ → ι → Option μ
  closed : τ → Prop
  order : List τ
  log : List α

namespace Locking

section Machine

variable {τ : Type u} {ι : Type v} {μ : Type w} {α : Type x} {σ : Type y} (D : Discipline τ ι μ α σ)

/-- A mode that goes with no more modes than another. -/
def Covers (M m : μ) : Prop := ∀ n, D.compatible M n → D.compatible m n

theorem Covers.trans {D : Discipline τ ι μ α σ} {m n o : μ} (h : Covers D m n) (h' : Covers D n o) : Covers D m o :=
  fun x hx => h' x (h x hx)

/-- The locks `h` under which somebody has operated are still in force, or he has given them up and comes before
    everybody who holds a lock that they exclude. -/
def Guarded (s : Locking τ ι μ α) (t : τ) (h : ι → Option μ) : Prop :=
  ∀ l m, h l = some m → (∃ n, s.held t l = some n ∧ Covers D n m) ∨
    (s.closed t ∧ ∀ u n, u ≠ t → s.held u l = some n → ¬ D.compatible m n → [t, u].Sublist s.order)

structure Inv (s : Locking τ ι μ α) : Prop where
  exclusive : ∀ t u l m n, t ≠ u → s.held t l = some m → s.held u l = some n → D.compatible m n
  guarded : ∀ a ∈ s.log, ∃ h, D.permits h a ∧ Guarded D s (D.owner a) h
  ordered : s.log.Pairwise fun a b => D.owner a ≠ D.owner b → ¬ Commute D.apply a b →
    s.closed (D.owner a) ∧ [D.owner a, D.owner b].Sublist s.order
  nodup : s.order.Nodup
  holders : ∀ t l m, s.held t l = some m → t ∈ s.order
  owners : ∀ a ∈ s.log, D.owner a ∈ s.order

/-- Nobody holds or has done anything. -/
def init : Locking τ ι μ α where
  held _ _ := none
  closed _ := False
  order := []
  log := []

theorem inv_init : Inv D (init : Locking τ ι μ α) where
  exclusive _ _ _ _ _ _ h := by cases h
  guarded _ h := absurd h List.not_mem_nil
  ordered := List.Pairwise.nil
  nodup := List.nodup_nil
  holders _ _ _ h := by cases h
  owners _ h := absurd h List.not_mem_nil

/-- **An operation** is done under the locks of its owner. What does not commute with it has been done under locks that are
    no longer in force, so by an owner who comes first. -/
theorem Inv.access {D : Discipline τ ι μ α σ} {s : Locking τ ι μ α} (h : Inv D s) (a : α)
    (hpermits : D.permits (s.held (D.owner a)) a) : Inv D { s with log := s.log ++ [a] } where
  exclusive := h.exclusive
  guarded := by
    intro b hb
    rcases List.mem_append.mp hb with hb | hb
    · exact h.guarded b hb
    · obtain rfl := List.mem_singleton.mp hb
      exact ⟨_, hpermits, fun l m hm => Or.inl ⟨m, hm, fun _ hn => hn⟩⟩
  ordered := by
    refine List.pairwise_append.mpr ⟨h.ordered, List.pairwise_singleton _ _, ?_⟩
    intro b hb c hc hne hcomm
    obtain rfl := List.mem_singleton.mp hc
    obtain ⟨hb', hpermits', hguarded⟩ := h.guarded b hb
    obtain ⟨l, m, n, hm, hn, hexcl⟩ := D.excludes hne hcomm hpermits' hpermits
    rcases hguarded l m hm with ⟨M, hM, hcovers⟩ | ⟨hclosed, hbefore⟩
    · exact absurd (hcovers n (h.exclusive _ _ l M n hne hM hn)) hexcl
    · exact ⟨hclosed, hbefore _ n (Ne.symm hne) hn hexcl⟩
  nodup := h.nodup
  holders := h.holders
  owners := by
    intro b hb
    rcases List.mem_append.mp hb with hb | hb
    · exact h.owners b hb
    · obtain rfl := List.mem_singleton.mp hb
      obtain ⟨l, m, hm⟩ := D.needs hpermits
      exact h.holders _ l m hm

end Machine

section Steps

variable {τ : Type u} {ι : Type v} {μ : Type w} {α : Type x} {σ : Type y} [DecidableEq τ] [DecidableEq ι]
  (D : Discipline τ ι μ α σ)

def setHeld (held : τ → ι → Option μ) (t : τ) (l : ι) (m : Option μ) : τ → ι → Option μ :=
  fun u k => if u = t ∧ k = l then m else held u k

inductive Step (s : Locking τ ι μ α) : Locking τ ι μ α → Prop where
  /-- a new lock, or a stronger one -/
  | acquire (t : τ) (l : ι) (m : μ) (hopen : ¬ s.closed t) (hcovers : ∀ n, s.held t l = some n → Covers D m n)
      (hfree : ∀ u n, u ≠ t → s.held u l = some n → D.compatible m n ∧ D.compatible n m) :
      Step s { s with held := setHeld s.held t l (some m), order := s.order.erase t ++ [t] }
  | release (t : τ) (l : ι) :
      Step s { s with held := setHeld s.held t l none, closed := fun u => u = t ∨ s.closed u }
  | access (a : α) (hpermits : D.permits (s.held (D.owner a)) a) : Step s { s with log := s.log ++ [a] }

variable {D} {s s' : Locking τ ι μ α} {t u v : τ} {l k : ι} {m n : μ} {order : List τ}

theorem setHeld_cases {held : τ → ι → Option μ} {x : Option μ} (h : setHeld held t l x u k = some n) :
    (u = t ∧ k = l ∧ x = some n) ∨ (¬ (u = t ∧ k = l) ∧ held u k = some n) := by
  unfold setHeld at h
  split at h
  · rename_i hut
    exact Or.inl ⟨hut.1, hut.2, h⟩
  · rename_i hut
    exact Or.inr ⟨hut, h⟩

/-! ### The order when somebody acquires a lock -/

omit [DecidableEq ι] in
theorem sublist_bump (h : [u, t].Sublist order) (hu : u ≠ v) : [u, t].Sublist (order.erase v ++ [v]) := by
  by_cases htv : t = v
  · subst htv
    have hmem : u ∈ order.erase t := (List.mem_erase_of_ne hu).mpr (h.subset List.mem_cons_self)
    exact (List.singleton_sublist.mpr hmem).append (List.Sublist.refl [t])
  · have herase := h.erase v
    rw [List.erase_of_not_mem (by simp [hu.symm, Ne.symm htv])] at herase
    exact herase.trans (List.sublist_append_left _ _)

omit [DecidableEq ι] in
theorem sublist_last (h : u ∈ order) (hne : u ≠ t) : [u, t].Sublist (order.erase t ++ [t]) :=
  (List.singleton_sublist.mpr ((List.mem_erase_of_ne hne).mpr h)).append (List.Sublist.refl [t])

omit [DecidableEq ι] in
theorem mem_bump (h : u ∈ order) : u ∈ order.erase v ++ [v] := by
  by_cases huv : u = v
  · subst huv
    exact List.mem_append_right _ List.mem_cons_self
  · exact List.mem_append_left _ ((List.mem_erase_of_ne huv).mpr h)

omit [DecidableEq ι] in
theorem nodup_bump (h : order.Nodup) : (order.erase v ++ [v]).Nodup := by
  refine (h.erase v).append (List.nodup_singleton v) ?_
  rw [List.disjoint_singleton]
  exact h.not_mem_erase

omit [DecidableEq ι] in
/-- **An owner who has given up no lock** moves to the end of the order: nobody has a place behind him to keep. -/
theorem Inv.bump (h : Inv D s) (hopen : ¬ s.closed t) : Inv D { s with order := s.order.erase t ++ [t] } where
  exclusive := h.exclusive
  guarded := by
    intro a ha
    obtain ⟨g, hpermits, hguarded⟩ := h.guarded a ha
    refine ⟨g, hpermits, ?_⟩
    intro k m hm
    rcases hguarded k m hm with hheld | ⟨hclosed, hbefore⟩
    · exact Or.inl hheld
    · exact Or.inr ⟨hclosed, fun u n hu hn hexcl => sublist_bump (hbefore u n hu hn hexcl) (fun hat => hopen (hat ▸ hclosed))⟩
  ordered := by
    refine h.ordered.imp ?_
    intro a b hab hne hcomm
    obtain ⟨hclosed, hsub⟩ := hab hne hcomm
    exact ⟨hclosed, sublist_bump hsub (fun hat => hopen (hat ▸ hclosed))⟩
  nodup := nodup_bump h.nodup
  holders u k m hm := mem_bump (h.holders u k m hm)
  owners a ha := mem_bump (h.owners a ha)

/-- **A lock is acquired** by an owner who has given up none, so he has no place to lose in the order. -/
theorem Inv.acquire (h : Inv D s) (hopen : ¬ s.closed t) (hcovers : ∀ n, s.held t l = some n → Covers D m n)
    (hfree : ∀ u n, u ≠ t → s.held u l = some n → D.compatible m n ∧ D.compatible n m) :
    Inv D { s with held := setHeld s.held t l (some m), order := s.order.erase t ++ [t] } where
  exclusive := by
    intro u v k m' n' hne hu hv
    rcases setHeld_cases hu with ⟨rfl, rfl, hm⟩ | ⟨-, hu'⟩
    · obtain rfl := Option.some.inj hm
      rcases setHeld_cases hv with ⟨rfl, -, -⟩ | ⟨-, hv'⟩
      · exact absurd rfl hne
      · exact (hfree v n' (Ne.symm hne) hv').1
    · rcases setHeld_cases hv with ⟨rfl, rfl, hn⟩ | ⟨-, hv'⟩
      · obtain rfl := Option.some.inj hn
        exact (hfree u m' hne hu').2
      · exact h.exclusive u v k m' n' hne hu' hv'
  guarded := by
    intro a ha
    obtain ⟨g, hpermits, hguarded⟩ := (h.bump hopen).guarded a ha
    refine ⟨g, hpermits, ?_⟩
    intro k m' hm'
    rcases hguarded k m' hm' with ⟨n', hn', hc⟩ | ⟨hclosed, hbefore⟩
    · left
      by_cases hat : D.owner a = t ∧ k = l
      · obtain ⟨hat, rfl⟩ := hat
        subst hat
        exact ⟨m, if_pos ⟨rfl, rfl⟩, (hcovers n' hn').trans hc⟩
      · exact ⟨n', (if_neg hat).trans hn', hc⟩
    · have hat : D.owner a ≠ t := fun hat => hopen (hat ▸ hclosed)
      refine Or.inr ⟨hclosed, ?_⟩
      intro u n' hu hheld hexcl
      rcases setHeld_cases hheld with ⟨rfl, rfl, -⟩ | ⟨-, hheld⟩
      · exact sublist_last (h.owners a ha) hat
      · exact hbefore u n' hu hheld hexcl
  ordered := (h.bump hopen).ordered
  nodup := nodup_bump h.nodup
  holders := by
    intro u k n' hheld
    rcases setHeld_cases hheld with ⟨rfl, -, -⟩ | ⟨-, hheld⟩
    · exact List.mem_append_right _ List.mem_cons_self
    · exact mem_bump (h.holders u k n' hheld)
  owners := fun a ha => mem_bump (h.owners a ha)

omit [DecidableEq τ] [DecidableEq ι] in
/-- An owner gives up a lock that is none of these. -/
theorem Inv.close (h : Inv D s) (t : τ) : Inv D { s with closed := fun u => u = t ∨ s.closed u } where
  exclusive := h.exclusive
  guarded := by
    intro a ha
    obtain ⟨g, hpermits, hguarded⟩ := h.guarded a ha
    exact ⟨g, hpermits, fun k m hm => (hguarded k m hm).imp_right fun hc => ⟨Or.inr hc.1, hc.2⟩⟩
  ordered := h.ordered.imp fun hab hne hcomm => ⟨Or.inr (hab hne hcomm).1, (hab hne hcomm).2⟩
  nodup := h.nodup
  holders := h.holders
  owners := h.owners

/-- **A lock is given up**: nobody holds one that it excludes, so its owner comes first as far as it goes. -/
theorem Inv.release (h : Inv D s) (t : τ) (l : ι) :
    Inv D { s with held := setHeld s.held t l none, closed := fun u => u = t ∨ s.closed u } where
  exclusive := by
    intro u v k m' n' hne hu hv
    rcases setHeld_cases hu with ⟨-, -, hm⟩ | ⟨-, hu⟩
    · cases hm
    rcases setHeld_cases hv with ⟨-, -, hn⟩ | ⟨-, hv⟩
    · cases hn
    exact h.exclusive u v k m' n' hne hu hv
  guarded := by
    intro a ha
    obtain ⟨g, hpermits, hguarded⟩ := h.guarded a ha
    refine ⟨g, hpermits, ?_⟩
    intro k m' hm'
    rcases hguarded k m' hm' with ⟨n', hn', hc⟩ | ⟨hclosed, hbefore⟩
    · by_cases hat : D.owner a = t ∧ k = l
      · refine Or.inr ⟨Or.inl hat.1, ?_⟩
        intro u n hu hheld hexcl
        rcases setHeld_cases hheld with ⟨-, -, hn⟩ | ⟨-, hheld⟩
        · cases hn
        · exact absurd (hc n (h.exclusive _ _ k n' n (Ne.symm hu) hn' hheld)) hexcl
      · exact Or.inl ⟨n', (if_neg hat).trans hn', hc⟩
    · refine Or.inr ⟨Or.inr hclosed, ?_⟩
      intro u n hu hheld hexcl
      rcases setHeld_cases hheld with ⟨-, -, hn⟩ | ⟨-, hheld⟩
      · cases hn
      · exact hbefore u n hu hheld hexcl
  ordered := (h.close t).ordered
  nodup := h.nodup
  holders := by
    intro u k n' hheld
    rcases setHeld_cases hheld with ⟨-, -, hn⟩ | ⟨-, hheld⟩
    · cases hn
    · exact h.holders u k n' hheld
  owners := h.owners

theorem inv_step (h : Inv D s) (hst : Step D s s') : Inv D s' := by
  cases hst with
  | acquire t l m hopen hcovers hfree => exact h.acquire hopen hcovers hfree
  | release t l => exact h.release t l
  | access a hpermits => exact h.access a hpermits

theorem inv_steps (h : Inv D s) (hst : Relation.ReflTransGen (Step D) s s') : Inv D s' := by
  induction hst with
  | refl => exact h
  | tail _ hst ih => exact inv_step ih hst

omit [DecidableEq ι] in
/-- **Two-phase locking is serializable**: from every state, the schedule does and answers the same as the owners one after
    the other, in the order of their last acquisitions. -/
theorem Inv.serial_answers (h : Inv D s) (x : σ) :
    execute D.apply s.log x = execute D.apply (serial D.owner s.order s.log) x := by
  refine execute_serial h.nodup h.owners (h.ordered.imp ?_)
  intro a b hab
  by_cases hne : D.owner a = D.owner b
  · exact Or.inl hne
  · by_cases hcomm : Commute D.apply a b
    · exact Or.inr (Or.inl hcomm)
    · exact Or.inr (Or.inr (hab hne hcomm).2)

omit [DecidableEq τ] [DecidableEq ι] in
/-- Who does not hold what has permitted him to operate is closed. -/
theorem Inv.closed_of_access (h : Inv D s) {a : α} (ha : a ∈ s.log)
    (hnone : ∀ g, D.permits g a → ∃ l m, g l = some m ∧ s.held (D.owner a) l = none) : s.closed (D.owner a) := by
  obtain ⟨g, hpermits, hguarded⟩ := h.guarded a ha
  obtain ⟨l, m, hm, hl⟩ := hnone g hpermits
  rcases hguarded l m hm with ⟨n, hn, -⟩ | ⟨hclosed, -⟩
  · cases hl.symm.trans hn
  · exact hclosed

/-! ### The order as time goes on -/

/-- Who is closed stays so and in the order, before those who stand behind him or come in later. -/
structure Keeps (closed closed' : τ → Prop) (order order' : List τ) : Prop where
  stays : ∀ t, closed t → closed' t
  mem : ∀ t, t ∈ order → t ∈ order'
  before : ∀ t u, closed t → t ∈ order → (u ∉ order ∨ [t, u].Sublist order) → u ∉ order' ∨ [t, u].Sublist order'

omit [DecidableEq τ] in
theorem keeps_refl (closed : τ → Prop) (order : List τ) : Keeps closed closed order order :=
  ⟨fun _ h => h, fun _ h => h, fun _ _ _ _ h => h⟩

theorem keeps_step (hst : Step D s s') : Keeps s.closed s'.closed s.order s'.order := by
  cases hst with
  | acquire v l m hopen =>
      refine ⟨fun _ h => h, fun _ => mem_bump, ?_⟩
      intro t u hclosed ht hbefore
      have htv : t ≠ v := fun htv => hopen (htv ▸ hclosed)
      rcases hbefore with hu | hsub
      · by_cases huv : u = v
        · subst huv
          exact Or.inr (sublist_last ht htv)
        · left
          intro hmem
          rcases List.mem_append.mp hmem with hmem | hmem
          · exact hu (List.mem_of_mem_erase hmem)
          · exact huv (List.mem_singleton.mp hmem)
      · exact Or.inr (sublist_bump hsub htv)
  | release v l => exact ⟨fun _ h => Or.inr h, fun _ h => h, fun _ _ _ _ h => h⟩
  | access => exact keeps_refl _ _

end Steps

end Locking

/-! ## Several sites -/

/-- Machines at several sites, for the same owners. Locks and operations are those of a site; whether an owner has given up a
    lock, and his place in the order, are the same everywhere. -/
structure Sites (ν : Type z) (τ : Type u) (ι : Type v) (μ : Type w) (α : Type x) where
  held : ν → τ → ι → Option μ
  closed : τ → Prop
  order : List τ
  log : ν → List α

namespace Sites

section Machine

variable {ν : Type z} {τ : Type u} {ι : Type v} {μ : Type w} {α : Type x} {σ : Type y} [DecidableEq ν]
  {D : Discipline τ ι μ α σ} {s : Sites ν τ ι μ α} {n k : ν} {x : Locking τ ι μ α}

def init : Sites ν τ ι μ α where
  held _ _ _ := none
  closed _ := False
  order := []
  log _ := []

/-- The machine of one site. -/
def site (s : Sites ν τ ι μ α) (n : ν) : Locking τ ι μ α := ⟨s.held n, s.closed, s.order, s.log n⟩

/-- The machine of one site has moved. -/
def set (s : Sites ν τ ι μ α) (n : ν) (x : Locking τ ι μ α) : Sites ν τ ι μ α where
  held := Function.update s.held n x.held
  closed := x.closed
  order := x.order
  log := Function.update s.log n x.log

@[simp] theorem site_set_self : (s.set n x).site n = x := by simp [site, set]

@[simp] theorem set_site : s.set n (s.site n) = s := by simp [site, set]

theorem site_set_ne (h : k ≠ n) : (s.set n x).site k = { s.site k with closed := x.closed, order := x.order } := by
  simp [site, set, Function.update_of_ne h]

variable [DecidableEq τ] [DecidableEq ι]

/-- **A site moves**, and the others know. -/
theorem inv_step (h : ∀ n, Locking.Inv D (s.site n)) (hst : Locking.Step D (s.site n) x) :
    ∀ k, Locking.Inv D ((s.set n x).site k) := by
  intro k
  by_cases hk : k = n
  · subst hk
    rw [site_set_self]
    exact Locking.inv_step (h k) hst
  · rw [site_set_ne hk]
    cases hst with
    | acquire t l m hopen hcovers hfree => exact (h k).bump hopen
    | release t l => exact (h k).close t
    | access a hpermits => exact h k

end Machine

end Sites
end Serial
end DDBMS
