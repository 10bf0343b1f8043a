import Mathlib.Computability.StateTransition

/-!
# `Lib.Scan` — loops that move a position forward

A loop is a partial function `next : σ → Option σ`: the state of the next turn, or `none` if this turn is the last one.
`Halts next s` says that the loop from `s` ends after finitely many turns. `Increases next f s` says that every turn
makes `f` larger; if it stays bounded while the loop goes on, the loop ends (`Increases.halts`).
-/

namespace DDBMS

open Relation StateTransition

universe u

variable {σ : Type u} {next : σ → Option σ} {f : σ → Nat} {s t : σ}

/-- The loop from `s` ends. -/
def Halts (next : σ → Option σ) (s : σ) : Prop := (eval next s).Dom

/-- Every turn of the loop from `s` makes `f` larger. -/
def Increases (next : σ → Option σ) (f : σ → Nat) (s : σ) : Prop :=
  ∀ t u, Reaches next s t → next t = some u → f t < f u

theorem halts_iff : Halts next s ↔ ∃ t, Reaches next s t ∧ next t = none := by
  rw [Halts, Part.dom_iff_mem]
  exact exists_congr fun _ => mem_eval

theorem Halts.of_none (h : next s = none) : Halts next s := halts_iff.mpr ⟨s, ReflTransGen.refl, h⟩

theorem Halts.of_next (h : next s = some t) (ht : Halts next t) : Halts next s := by
  rw [Halts, reaches_eval (ReflTransGen.single h)]
  exact ht

/-- A turn that does not move is repeated forever. -/
theorem not_halts_of_fixed (h : next s = some s) : ¬ Halts next s := by
  have hfixed : ∀ t, Reaches next s t → t = s := by
    intro t hreach
    induction hreach with
    | refl => rfl
    | tail _ hstep ih =>
        rw [ih] at hstep
        exact Option.some.inj (hstep.symm.trans h)
  rw [halts_iff]
  rintro ⟨t, hreach, hend⟩
  rw [hfixed t hreach, h] at hend
  cases hend

theorem Increases.of_next (h : Increases next f s) (ht : next s = some t) : Increases next f t :=
  fun _ _ hreach => h _ _ (ReflTransGen.head ht hreach)

/-- **A loop that moves forward ends**, if it only goes on below a bound. By induction on what is left below the
    bound. -/
theorem Increases.halts (h : Increases next f s) {bound : Nat} (hbound : ∀ t u, next t = some u → f t < bound) :
    Halts next s := by
  generalize hleft : bound - f s = left
  induction left using Nat.strong_induction_on generalizing s with
  | _ left ih =>
      cases hs : next s with
      | none => exact .of_none hs
      | some t =>
          have hlt := h s t ReflTransGen.refl hs
          have hin := hbound s t hs
          exact .of_next hs (ih (bound - f t) (by omega) (h.of_next hs) rfl)

end DDBMS
