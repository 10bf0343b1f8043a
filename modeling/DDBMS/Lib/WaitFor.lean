import Mathlib.Data.Fintype.Card
import Mathlib.Data.Set.Finite.Basic
import Mathlib.Logic.Relation
import Mathlib.Order.WellFounded

/-!
# `Lib.WaitFor` — wait-for graphs

The members of a finite set wait for each other: `R t u` says that `t` waits for `u`. A member that waits for nobody, or need not
wait, is an end. From every member the graph leads to an end or to a cycle.
-/

namespace DDBMS
namespace WaitFor

universe u

variable {α : Type u} {p : α → Prop} {R : α → α → Prop} {End : α → Prop} {S : Finset α} {t : α}

/-- `b` leads to `a`, among the members with `p`. -/
def Ahead (R : α → α → Prop) (a b : Subtype p) : Prop := Relation.TransGen R b.1 a.1

/-- Without a cycle there is no endless way. -/
theorem wellFounded_ahead [Finite (Subtype p)] (h : ∀ a : Subtype p, ¬ Relation.TransGen R a.1 a.1) :
    WellFounded (Ahead (p := p) R) := by
  have htrans : IsTrans (Subtype p) (Ahead R) := ⟨fun _ _ _ hab hbc => Relation.TransGen.trans hbc hab⟩
  have hirrefl : Std.Irrefl (Ahead (p := p) R) := ⟨h⟩
  exact Finite.wellFounded_of_trans_of_irrefl _

/-- **An end or a cycle.** Among the members that `t` leads to, if none is on a cycle, there is a last one, and it is an end. -/
theorem exists_end_or_cycle (h : ∀ t ∈ S, End t ∨ ∃ u ∈ S, R t u) (ht : t ∈ S) :
    ∃ u ∈ S, Relation.ReflTransGen R t u ∧ (End u ∨ Relation.TransGen R u u) := by
  by_contra hno
  have hfinite : Finite (Subtype fun u => u ∈ S ∧ Relation.ReflTransGen R t u) :=
    (S.finite_toSet.subset fun u hu => hu.1).to_subtype
  have hwf : WellFounded (Ahead (p := fun u => u ∈ S ∧ Relation.ReflTransGen R t u) R) :=
    wellFounded_ahead fun a hcycle => hno ⟨a.1, a.2.1, a.2.2, Or.inr hcycle⟩
  obtain ⟨⟨u, hu, hpath⟩, -, hlast⟩ := hwf.has_min Set.univ ⟨⟨t, ht, .refl⟩, trivial⟩
  rcases h u hu with hend | ⟨v, hv, huv⟩
  · exact hno ⟨u, hu, hpath, Or.inl hend⟩
  · exact hlast ⟨v, hv, hpath.tail huv⟩ trivial (.single huv)

end WaitFor
end DDBMS
