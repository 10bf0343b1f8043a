import Mathlib.Logic.Relation
import Mathlib.Data.List.Induction

/-!
# `Lib.Run` — runs of labelled transition systems

A system is a step relation `step : σ → ε → σ → Prop` between states, labelled by events. `Run step s es t`
is a finite run from `s` to `t` whose labels, in order, are `es`. Everything here is generic: states and
events are arbitrary types.

The rules a client uses:
* `Run.invariant` — an invariant preserved by each step holds at the end of a run;
* `Run.history` — the same for an invariant that also mentions the events so far;
* `Run.append` / `Run.split` — runs compose and decompose along their event lists;
* `Run.functional` — a partial step function has one run for each list of events;
* `Guarded` — the steps of a system that meet a condition; a run of `Guarded ok step` is a run all of
  whose steps meet `ok`.
-/

namespace DDBMS

universe u v

variable {σ : Type u} {ε : Type v} {step : σ → ε → σ → Prop}

/-- A finite run; the events are listed oldest first. -/
inductive Run (step : σ → ε → σ → Prop) : σ → List ε → σ → Prop where
  | refl {s : σ} : Run step s [] s
  | tail {s t u : σ} {es : List ε} {e : ε} : Run step s es t → step t e u → Run step s (es ++ [e]) u

/-- The steps of `step` that meet `ok` in the state they start from. -/
def Guarded (ok : σ → ε → Prop) (step : σ → ε → σ → Prop) (s : σ) (e : ε) (t : σ) : Prop :=
  ok s e ∧ step s e t

/-- The step relation of a partial step function. -/
def FunStep (next : σ → ε → Option σ) (s : σ) (e : ε) (t : σ) : Prop := next s e = some t

namespace Run

/-- **Invariant rule.** What each step preserves, a run preserves. -/
theorem invariant {I : σ → Prop} (hstep : ∀ s e t, I s → step s e t → I t)
    {s t : σ} {es : List ε} (h : Run step s es t) (hs : I s) : I t := by
  induction h with
  | refl => exact hs
  | tail _ hst ih => exact hstep _ _ _ ih hst

/-- **History rule.** An invariant of the state and of the events that led to it. -/
theorem history {I : List ε → σ → Prop} {s₀ : σ} (h0 : I [] s₀)
    (hstep : ∀ es s e t, I es s → step s e t → I (es ++ [e]) t)
    {t : σ} {es : List ε} (h : Run step s₀ es t) : I es t := by
  induction h with
  | refl => exact h0
  | tail _ hst ih => exact hstep _ _ _ _ ih hst

theorem single {s t : σ} {e : ε} (h : step s e t) : Run step s [e] t := by
  have := Run.tail Run.refl h
  simpa using this

theorem append {s t u : σ} {es fs : List ε} (h₁ : Run step s es t) (h₂ : Run step t fs u) :
    Run step s (es ++ fs) u := by
  induction h₂ with
  | refl => simpa using h₁
  | tail _ hst ih =>
      rw [← List.append_assoc]
      exact Run.tail ih hst

theorem cons {s t u : σ} {e : ε} {es : List ε} (h : step s e t) (hr : Run step t es u) :
    Run step s (e :: es) u :=
  (Run.single h).append hr

theorem nil_inv {s t : σ} (h : Run step s [] t) : s = t := by
  generalize hes : ([] : List ε) = es at h
  cases h with
  | refl => rfl
  | tail => exact absurd hes (by simp)

theorem snoc_inv {s u : σ} {es : List ε} {e : ε} (h : Run step s (es ++ [e]) u) :
    ∃ t, Run step s es t ∧ step t e u := by
  generalize hfs : es ++ [e] = fs at h
  cases h with
  | refl => exact absurd hfs (by simp)
  | tail hr hst =>
      obtain ⟨rfl, he⟩ := List.append_inj' hfs rfl
      obtain rfl : e = _ := by simpa using he
      exact ⟨_, hr, hst⟩

/-- A run along `es ++ fs` passes through a state between the two parts. -/
theorem split {s u : σ} {es fs : List ε} (h : Run step s (es ++ fs) u) :
    ∃ t, Run step s es t ∧ Run step t fs u := by
  induction fs using List.reverseRecOn generalizing u with
  | nil => exact ⟨u, by simpa using h, Run.refl⟩
  | append_singleton fs f ih =>
      rw [← List.append_assoc] at h
      obtain ⟨w, hw, hf⟩ := snoc_inv h
      obtain ⟨t, ht, hfs⟩ := ih hw
      exact ⟨t, ht, Run.tail hfs hf⟩

theorem cons_inv {s u : σ} {e : ε} {es : List ε} (h : Run step s (e :: es) u) :
    ∃ t, step s e t ∧ Run step t es u := by
  rw [← List.singleton_append] at h
  obtain ⟨t, ht, hes⟩ := split h
  rw [← List.nil_append [e]] at ht
  obtain ⟨w, hw, he⟩ := snoc_inv ht
  obtain rfl := nil_inv hw
  exact ⟨t, he, hes⟩

theorem mono {step' : σ → ε → σ → Prop} (hsub : ∀ s e t, step s e t → step' s e t)
    {s t : σ} {es : List ε} (h : Run step s es t) : Run step' s es t := by
  induction h with
  | refl => exact Run.refl
  | tail _ hst ih => exact Run.tail ih (hsub _ _ _ hst)

/-- A run of guarded steps is a run. -/
theorem of_guarded {ok : σ → ε → Prop} {s t : σ} {es : List ε}
    (h : Run (Guarded ok step) s es t) : Run step s es t :=
  h.mono (fun _ _ _ hg => hg.2)

/-- Steps of a partial step function, folded over an event list. -/
theorem of_foldlM {next : σ → ε → Option σ} :
    ∀ {es : List ε} {s t : σ}, es.foldlM next s = some t → Run (FunStep next) s es t := by
  intro es
  induction es with
  | nil =>
      intro s t h
      obtain rfl : s = t := by simpa using h
      exact Run.refl
  | cons e es ih =>
      intro s t h
      rw [List.foldlM_cons] at h
      obtain ⟨u, hu, hes⟩ := Option.bind_eq_some_iff.mp h
      exact Run.cons hu (ih hes)

/-- A partial step function has one run for each list of events. -/
theorem functional {next : σ → ε → Option σ} {s t u : σ} {es : List ε} (ht : Run (FunStep next) s es t)
    (hu : Run (FunStep next) s es u) : t = u := by
  induction ht generalizing u with
  | refl => exact hu.nil_inv
  | tail _ hst ih =>
      obtain ⟨v, hv, hst'⟩ := hu.snoc_inv
      obtain rfl := ih hv
      exact Option.some.inj (hst.symm.trans hst')

/-- A concrete run, from what its last state looks like through `f`. -/
theorem exists_of_map {next : σ → ε → Option σ} {β : Type*} {f : σ → β} {es : List ε} {s : σ} {x : β}
    (h : (es.foldlM next s).map f = some x) : ∃ t, Run (FunStep next) s es t ∧ f t = x := by
  obtain ⟨t, ht, hx⟩ := Option.map_eq_some_iff.mp h
  exact ⟨t, of_foldlM ht, hx⟩

/-- The same for guarded steps, checking the guard along the way. -/
theorem exists_guarded_of_map {ok : σ → ε → Prop} [∀ s e, Decidable (ok s e)] {next : σ → ε → Option σ}
    {β : Type*} {f : σ → β} {es : List ε} {s : σ} {x : β}
    (h : (es.foldlM (fun s e => if ok s e then next s e else none) s).map f = some x) :
    ∃ t, Run (Guarded ok (FunStep next)) s es t ∧ f t = x := by
  obtain ⟨t, ht, hx⟩ := exists_of_map h
  refine ⟨t, ht.mono ?_, hx⟩
  intro s e t hst
  by_cases hok : ok s e
  · exact ⟨hok, by simpa [FunStep, hok] using hst⟩
  · simp [FunStep, hok] at hst

end Run

/-- The states a run from `s₀` reaches. -/
def Reachable (step : σ → ε → σ → Prop) (s₀ t : σ) : Prop := ∃ es, Run step s₀ es t

theorem Reachable.invariant {I : σ → Prop} {s₀ t : σ} (h : Reachable step s₀ t) (h0 : I s₀)
    (hstep : ∀ s e t, I s → step s e t → I t) : I t := by
  obtain ⟨_, hr⟩ := h
  exact hr.invariant hstep h0

end DDBMS
