import Mathlib.Data.List.Chain
import Mathlib.Data.List.Nodup

/-!
# `Lib.Chain` — singly linked lists

A linked list from a first node to an end marker `t` is a list of nodes followed by `t` in which each element
points to the next one: `List.IsChain R (l ++ [t])`, with `R a b` for "`a` points to `b`". An update of the
heap changes `R` into some `S`. The two updates of a linked list, inserting behind a node and unlinking the
node behind it, change the pointer of one node and leave the others alone.
-/

namespace DDBMS
namespace Chain

variable {α : Type*} {R S : α → α → Prop}

/-- Only the pointers of the nodes before the end marker matter. -/
theorem congr_sources {l : List α} {t : α} (h : (l ++ [t]).IsChain R)
    (hS : ∀ a ∈ l, ∀ b, R a b → S a b) : (l ++ [t]).IsChain S := by
  induction l with
  | nil => exact List.isChain_singleton t
  | cons a l ih =>
      have hl := ih (List.IsChain.tail h) (fun x hx => hS x (List.mem_cons_of_mem _ hx))
      cases l with
      | nil =>
          simp only [List.cons_append, List.nil_append, List.isChain_cons_cons] at h ⊢
          exact ⟨hS a List.mem_cons_self t h.1, hl⟩
      | cons c l =>
          simp only [List.cons_append, List.isChain_cons_cons] at h hl ⊢
          exact ⟨hS a List.mem_cons_self c h.1, hl⟩

variable {A C : List α} {n p t : α}

/-- The part up to and including `p` keeps its inner pointers. -/
theorem congr_upto (h : A.IsChain R) (hnd : A.Nodup) (hp : A.getLast? = some p)
    (hA : ∀ a ∈ A, a ≠ p → ∀ b, R a b → S a b) : A.IsChain S := by
  obtain ⟨A', rfl⟩ : ∃ A', A = A' ++ [p] := by
    rcases List.eq_nil_or_concat A with rfl | ⟨A', x, rfl⟩
    · cases hp
    · refine ⟨A', ?_⟩
      rw [List.concat_eq_append, List.getLast?_concat] at hp
      rw [List.concat_eq_append, Option.some.inj hp]
  refine congr_sources h (fun a ha b hab => hA a (List.mem_append_left _ ha) ?_ b hab)
  rintro rfl
  exact (List.nodup_append.mp hnd).2.2 a ha a (List.mem_singleton_self a) rfl

/-- Insert `n` behind `p`. -/
theorem insert (h : (A ++ (C ++ [t])).IsChain R) (hnd : A.Nodup) (hp : A.getLast? = some p)
    (hA : ∀ a ∈ A, a ≠ p → ∀ b, R a b → S a b) (hC : ∀ a ∈ C, ∀ b, R a b → S a b)
    (hpn : S p n) (hn : ∀ b, R p b → S n b) : (A ++ n :: (C ++ [t])).IsChain S := by
  obtain ⟨h₁, h₂, h₁₂⟩ := List.isChain_append.mp h
  refine List.isChain_append.mpr ⟨congr_upto h₁ hnd hp hA, ?_, ?_⟩
  · refine List.isChain_cons.mpr ⟨fun y hy => hn y (h₁₂ p hp y hy), congr_sources h₂ hC⟩
  · intro x hx y hy
    obtain rfl : p = x := Option.some.inj (hp.symm.trans hx)
    obtain rfl : n = y := Option.some.inj hy
    exact hpn

/-- Unlink the node `n` behind `p`. -/
theorem remove (h : (A ++ n :: (C ++ [t])).IsChain R) (hnd : A.Nodup) (hp : A.getLast? = some p)
    (hA : ∀ a ∈ A, a ≠ p → ∀ b, R a b → S a b) (hC : ∀ a ∈ C, ∀ b, R a b → S a b)
    (hpn : ∀ b, R n b → S p b) : (A ++ (C ++ [t])).IsChain S := by
  obtain ⟨h₁, h₂, -⟩ := List.isChain_append.mp h
  obtain ⟨hn, h₂⟩ := List.isChain_cons.mp h₂
  refine List.isChain_append.mpr ⟨congr_upto h₁ hnd hp hA, congr_sources h₂ hC, ?_⟩
  intro x hx y hy
  obtain rfl : p = x := Option.some.inj (hp.symm.trans hx)
  exact hpn y (hn y hy)

end Chain
end DDBMS
