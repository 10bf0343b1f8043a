import DDBMS.Lib.SortedAssoc
import Mathlib.Algebra.GroupWithZero.Nat
import Mathlib.Data.Finmap

/-!
# `Lib.SortedFinmap` — sorted association lists are finite maps

`Denotes l m` says that the entries of the finite map `m` are those of the list `l`, whose keys strictly increase. The
updates of the list are those of the map, and what is counted or summed over the list is counted or summed over the map.
`total` is such a sum, with what an update adds to it.
-/

namespace DDBMS
namespace SortedAssoc

/-! ## Totals -/

section Total

variable {κ ν : Type}

/-- The sum of `f` over the entries of a map. -/
def total (f : κ → ν → Nat) (m : Finmap fun _ : κ => ν) : Nat := (m.entries.map fun e => f e.1 e.2).sum

theorem card_keys (m : Finmap fun _ : κ => ν) : m.keys.card = total (fun _ _ => 1) m := by
  show (m.entries.map Sigma.fst).card = _
  rw [Multiset.card_map, total, Multiset.map_const', Multiset.sum_replicate, Nat.nsmul_eq_mul, Nat.mul_one]

variable [DecidableEq κ] {m : Finmap fun _ : κ => ν} {f : κ → ν → Nat} {k : κ} {v w : ν}

theorem total_insert (h : k ∉ m) : total f (m.insert k v) = f k v + total f m := by
  rw [total, Finmap.entries_insert_of_notMem h, Multiset.map_cons, Multiset.sum_cons, total]

theorem insert_erase (k : κ) (v : ν) (m : Finmap fun _ : κ => ν) : (m.erase k).insert k v = m.insert k v := by
  refine Finmap.ext_lookup fun j => ?_
  by_cases hj : j = k
  · subst hj
    rw [Finmap.lookup_insert, Finmap.lookup_insert]
  · rw [Finmap.lookup_insert_of_ne _ hj, Finmap.lookup_insert_of_ne _ hj, Finmap.lookup_erase_ne hj]

theorem insert_lookup (h : m.lookup k = some v) : m.insert k v = m := by
  refine Finmap.ext_lookup fun j => ?_
  by_cases hj : j = k
  · subst hj
    rw [Finmap.lookup_insert, h]
  · rw [Finmap.lookup_insert_of_ne _ hj]

theorem erase_of_notMem (h : k ∉ m) : m.erase k = m := by
  refine Finmap.ext_lookup fun j => ?_
  by_cases hj : j = k
  · subst hj
    rw [Finmap.lookup_erase, Finmap.lookup_eq_none.mpr h]
  · rw [Finmap.lookup_erase_ne hj]

theorem total_erase (h : m.lookup k = some v) : f k v + total f (m.erase k) = total f m := by
  rw [← total_insert (Finmap.notMem_erase_self (a := k) (s := m)), insert_erase, insert_lookup h]

/-- The old value goes, the new one comes. -/
theorem total_update (h : m.lookup k = some v) : total f (m.insert k w) + f k v = total f m + f k w := by
  rw [← insert_erase, total_insert Finmap.notMem_erase_self, ← total_erase h]
  omega

end Total

/-! ## Lists of entries -/

/-- An entry of a list as an entry of a map. -/
def toEntry {κ ν : Type} (e : κ × ν) : Sigma fun _ : κ => ν := ⟨e.1, e.2⟩

theorem keys_toEntry {κ ν : Type} (l : List (κ × ν)) : (l.map toEntry).keys = l.map Prod.fst := List.map_map

variable {κ ν : Type} [LinearOrder κ] {l : List (κ × ν)} {m : Finmap fun _ : κ => ν}

theorem Sorted.nodupKeys (h : Sorted l) : (l.map toEntry).NodupKeys := by
  rw [List.NodupKeys, keys_toEntry, List.Nodup, List.pairwise_map]
  exact h.imp (fun hlt => ne_of_lt hlt)

/-- The list has the entries of the map, in order. -/
structure Denotes (l : List (κ × ν)) (m : Finmap fun _ : κ => ν) : Prop where
  sorted : Sorted l
  entries : m.entries = (l.map toEntry : List (Sigma fun _ : κ => ν))

theorem Sorted.denotes (h : Sorted l) : ∃ m : Finmap fun _ : κ => ν, Denotes l m :=
  ⟨⟨_, Multiset.coe_nodupKeys.mpr h.nodupKeys⟩, h, rfl⟩

/-- A map has one sorted list of entries. -/
theorem Denotes.unique {l' : List (κ × ν)} (h : Denotes l m) (h' : Denotes l' m) : l = l' := by
  have hperm : (l.map toEntry).Perm (l'.map toEntry) := Multiset.coe_eq_coe.mp (h.entries.symm.trans h'.entries)
  have hinj : Function.Injective (toEntry (κ := κ) (ν := ν)) := by
    rintro ⟨k, v⟩ ⟨k', v'⟩ heq
    cases heq
    rfl
  refine List.Perm.eq_of_pairwise ?_ h.sorted h'.sorted ((List.map_perm_map_iff hinj).mp hperm)
  exact fun a b _ _ hab hba => absurd hab (lt_asymm hba)

theorem Denotes.nil : Denotes ([] : List (κ × ν)) ∅ := ⟨List.Pairwise.nil, rfl⟩

theorem Denotes.card (h : Denotes l m) : m.keys.card = l.length := by
  show m.entries.keys.card = _
  rw [h.entries, Multiset.coe_keys, keys_toEntry, Multiset.coe_card, List.length_map]

/-- A sum over the entries. -/
theorem Denotes.total (h : Denotes l m) (f : κ → ν → Nat) : total f m = (l.map fun e => f e.1 e.2).sum := by
  rw [SortedAssoc.total, h.entries, Multiset.map_coe, Multiset.sum_coe, List.map_map]
  rfl

variable [DecidableEq κ] [BEq κ] [LawfulBEq κ]

omit [LinearOrder κ] in
theorem dlookup_toEntry (k : κ) (l : List (κ × ν)) : (l.map toEntry).dlookup k = l.lookup k := by
  induction l with
  | nil => rfl
  | cons e l ih =>
      obtain ⟨j, v⟩ := e
      by_cases h : k = j
      · subst h
        simp [toEntry]
      · rw [List.map_cons, List.dlookup_cons_ne _ _ h, ih, List.lookup_cons, beq_false_of_ne h]

theorem Denotes.lookup (h : Denotes l m) (k : κ) : m.lookup k = l.lookup k := by
  have hm : m = AList.toFinmap ⟨l.map toEntry, h.sorted.nodupKeys⟩ := Finmap.ext h.entries
  rw [hm, Finmap.lookup_toFinmap]
  exact dlookup_toEntry k l

/-- The lookups determine the map. -/
theorem Denotes.of_lookup (hs : Sorted l) (h : ∀ k, m.lookup k = l.lookup k) : Denotes l m := by
  obtain ⟨m', hm'⟩ := hs.denotes
  obtain rfl : m = m' := Finmap.ext_lookup fun k => (h k).trans (hm'.lookup k).symm
  exact hm'

theorem Denotes.isSome_lookup (h : Denotes l m) (k : κ) : (l.lookup k).isSome = decide (k ∈ m) := by
  rw [← h.lookup, Bool.eq_iff_iff, decide_eq_true_iff]
  exact Finmap.lookup_isSome

theorem Denotes.put (h : Denotes l m) (k : κ) (v : ν) : Denotes (SortedAssoc.put k v l) (m.insert k v) := by
  refine .of_lookup (sorted_put h.sorted) fun j => ?_
  by_cases hj : j = k
  · subst hj
    rw [Finmap.lookup_insert, lookup_put_self]
  · rw [Finmap.lookup_insert_of_ne _ hj, lookup_put_ne hj, h.lookup]

theorem Denotes.erase (h : Denotes l m) (k : κ) : Denotes (SortedAssoc.erase k l) (m.erase k) := by
  refine .of_lookup (h.sorted.filter _) fun j => ?_
  by_cases hj : j = k
  · subst hj
    rw [Finmap.lookup_erase, lookup_erase_self]
  · rw [Finmap.lookup_erase_ne hj, lookup_erase_ne hj, h.lookup]

omit [BEq κ] [LawfulBEq κ] in
theorem Denotes.isEmpty_iff (h : Denotes l m) : l.isEmpty = true ↔ m = ∅ := by
  rw [List.isEmpty_iff, ← List.length_eq_zero_iff, ← h.card, Finset.card_eq_zero]
  constructor
  · intro hkeys
    refine Finmap.ext_lookup fun k => ?_
    rw [Finmap.lookup_empty, Finmap.lookup_eq_none, ← Finmap.mem_keys, hkeys]
    exact Finset.notMem_empty k
  · rintro rfl
    rfl

end SortedAssoc
end DDBMS
