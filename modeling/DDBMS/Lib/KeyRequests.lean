import Mathlib.Data.List.Perm.Basic
import Mathlib.Data.List.Nodup

/-!
# `Lib.KeyRequests` — keys by request

A loop goes through distinct keys and takes each once for every request that looks the same to it. `select` is what it takes.
It returns the requests themselves iff no key looks like a request for another one, and the requests follow the order of the
keys (`select_eq_iff`).
-/

namespace DDBMS

variable {κ : Type} [DecidableEq κ] (same : κ → κ → Bool)

/-- What the loop takes for the requests `cols`. -/
def select (cols keys : List κ) : List κ := keys.flatMap fun k => List.replicate (cols.countP (same k)) k

variable {same} {cols keys : List κ}

theorem count_select (hnodup : keys.Nodup) (k : κ) :
    (select same cols keys).count k = if k ∈ keys then cols.countP (same k) else 0 := by
  induction keys with
  | nil => rfl
  | cons k' keys ih =>
    obtain ⟨hk', hkeys⟩ := List.nodup_cons.mp hnodup
    have hcons : select same cols (k' :: keys) = List.replicate (cols.countP (same k')) k' ++ select same cols keys := by
      rw [select, List.flatMap_cons]
      rfl
    rw [hcons, List.count_append, List.count_replicate, ih hkeys]
    by_cases heq : k' = k
    · subst heq
      simp [hk']
    · simp [heq, Ne.symm heq]

/-- The selection keeps the order of the keys. -/
theorem select_pairwise (hnodup : keys.Nodup) :
    (select same cols keys).Pairwise fun a b => keys.idxOf a ≤ keys.idxOf b := by
  have hkeys : keys.Pairwise fun a b => keys.idxOf a ≤ keys.idxOf b := by
    rw [List.pairwise_iff_getElem]
    intro i j hi hj hij
    rw [hnodup.idxOf_getElem i hi, hnodup.idxOf_getElem j hj]
    exact Nat.le_of_lt hij
  refine List.pairwise_flatMap.mpr ⟨fun k _ => ?_, hkeys.imp fun hle x hx y hy => ?_⟩
  · exact List.pairwise_replicate.mpr (Or.inr (Nat.le_refl _))
  · rwa [List.eq_of_mem_replicate hx, List.eq_of_mem_replicate hy]

/-- A request of no other key looks the same if just as many look the same as are equal. -/
theorem same_imp_eq (hrefl : ∀ k, same k k) {k : κ} (hcount : cols.countP (same k) = cols.count k) {c : κ}
    (hc : c ∈ cols) (hsame : same k c) : k = c := by
  have hsub : (cols.filter fun x => x == k).Sublist (cols.filter (same k)) := by
    refine List.monotone_filter_right cols fun x hx => ?_
    rw [beq_iff_eq.mp hx]
    exact hrefl k
  have heq := hsub.eq_of_length (by
    rw [← List.countP_eq_length_filter, ← List.countP_eq_length_filter, hcount]
    rfl)
  have hmem : c ∈ cols.filter fun x => x == k := heq ▸ List.mem_filter.mpr ⟨hc, hsame⟩
  exact (beq_iff_eq.mp (List.mem_filter.mp hmem).2).symm

/-- The requested keys come out as they are iff no other key looks like one of them and they are in the order of the keys. -/
theorem select_eq_iff (hrefl : ∀ k, same k k) (hnodup : keys.Nodup) (hsub : ∀ c ∈ cols, c ∈ keys) :
    select same cols keys = cols ↔
      (∀ k ∈ keys, ∀ c ∈ cols, same k c → k = c) ∧ cols.Pairwise fun a b => keys.idxOf a ≤ keys.idxOf b := by
  constructor
  · intro heq
    constructor
    · intro k hk c hc hsame
      have hcount : (select same cols keys).count k = if k ∈ keys then cols.countP (same k) else 0 :=
        count_select hnodup k
      rw [heq, if_pos hk] at hcount
      exact same_imp_eq hrefl hcount.symm hc hsame
    · have hpairwise : (select same cols keys).Pairwise fun a b => keys.idxOf a ≤ keys.idxOf b := select_pairwise hnodup
      rwa [heq] at hpairwise
  · rintro ⟨hsame, hpairwise⟩
    have hperm : (select same cols keys).Perm cols := by
      rw [List.perm_iff_count]
      intro k
      rw [count_select hnodup]
      split
      · rename_i hk
        refine List.countP_congr fun c hc => ?_
        rw [beq_iff_eq]
        exact ⟨fun h => (hsame k hk c hc h).symm, fun h => h ▸ hrefl c⟩
      · rename_i hk
        exact (List.count_eq_zero.mpr fun hc => hk (hsub k hc)).symm
    refine List.Perm.eq_of_pairwise (fun a b ha hb hab hba => ?_) (select_pairwise hnodup) hpairwise hperm
    have hakeys : a ∈ keys := hsub a (hperm.mem_iff.mp ha)
    exact (List.idxOf_inj hakeys).mp (Nat.le_antisymm hab hba)

end DDBMS
