import Mathlib.Algebra.Group.Nat.Defs
import Mathlib.Data.List.Forall2
import Mathlib.Data.List.Perm.Basic
import Mathlib.Data.List.Nodup

/-!
# `Lib.UnorderedMap` — hash maps that are iterated

A `std::unordered_map` is a list of its entries in iteration order, with different keys. Changing the value of a key keeps
the order; inserting a new key may change it in any way, which an `Order` stands for. Its size is a `size_t`, so an
insertion into a full map fails.

What a client knows without the order: `mem_assign` for one assignment, `assignAll_spec` for a map built
from a list of entries.
-/

namespace DDBMS

universe u v

variable {κ : Type u} {ν : Type v} [DecidableEq κ]

structure UnorderedMap (κ : Type u) (ν : Type v) where
  entries : List (κ × ν)
  nodup : (entries.map Prod.fst).Nodup
  size_lt : entries.length < 2 ^ 64

/-- The iteration order after an insertion, as a function of the entries. -/
def Order (κ : Type u) (ν : Type v) : Type (max u v) :=
  { f : List (κ × ν) → List (κ × ν) // ∀ es, (f es).Perm es }

/-- New entries come first. -/
def Order.front : Order κ ν := ⟨id, fun es => List.Perm.refl es⟩

/-- Some hash function gives the order. -/
theorem Order.exists_of_perm {es es' : List (κ × ν)} (h : es'.Perm es) : ∃ order : Order κ ν, order.1 es = es' := by
  classical
  refine ⟨⟨fun l => if l = es then es' else l, fun l => ?_⟩, if_pos rfl⟩
  show (if l = es then es' else l).Perm l
  by_cases hl : l = es
  · rw [if_pos hl, hl]
    exact h
  · rw [if_neg hl]

namespace UnorderedMap

def empty : UnorderedMap κ ν := ⟨[], List.nodup_nil, Nat.two_pow_pos 64⟩

def keys (m : UnorderedMap κ ν) : List κ := m.entries.map Prod.fst

def size (m : UnorderedMap κ ν) : Nat := m.entries.length

def find? (m : UnorderedMap κ ν) (k : κ) : Option ν := m.entries.lookup k

/-- One or none. -/
def count (m : UnorderedMap κ ν) (k : κ) : Nat := m.keys.count k

/-- A change of the value of a key, where it stands. -/
def modify (m : UnorderedMap κ ν) (k : κ) (f : ν → ν) : UnorderedMap κ ν where
  entries := m.entries.map fun e => if e.1 = k then (e.1, f e.2) else e
  nodup := by
    have hkeys : (m.entries.map fun e => if e.1 = k then (e.1, f e.2) else e).map Prod.fst = m.entries.map Prod.fst := by
      rw [List.map_map]
      apply List.map_congr_left
      intro e _
      show (if e.1 = k then (e.1, f e.2) else e).1 = e.1
      split <;> rfl
    rw [hkeys]
    exact m.nodup
  size_lt := by
    rw [List.length_map]
    exact m.size_lt

/-- A change of every value, where it stands. -/
def update (m : UnorderedMap κ ν) (f : κ → ν → ν) : UnorderedMap κ ν where
  entries := m.entries.map fun e => (e.1, f e.1 e.2)
  nodup := by
    rw [List.map_map]
    exact m.nodup
  size_lt := by
    rw [List.length_map]
    exact m.size_lt

/-- A function of every value, where it stands. -/
def map {ν' : Type*} (f : ν → ν') (m : UnorderedMap κ ν) : UnorderedMap κ ν' where
  entries := m.entries.map fun e => (e.1, f e.2)
  nodup := by
    rw [List.map_map]
    exact m.nodup
  size_lt := by
    rw [List.length_map]
    exact m.size_lt

/-- A new key. -/
def insert (order : Order κ ν) (m : UnorderedMap κ ν) (k : κ) (v : ν) (hk : k ∉ m.keys) (hsize : m.size + 1 < 2 ^ 64) :
    UnorderedMap κ ν where
  entries := order.1 ((k, v) :: m.entries)
  nodup := by
    rw [((order.2 _).map Prod.fst).nodup_iff]
    exact List.nodup_cons.mpr ⟨hk, m.nodup⟩
  size_lt := by
    rw [(order.2 _).length_eq]
    exact hsize

/-- `m[k] = v`. -/
def assign (order : Order κ ν) (m : UnorderedMap κ ν) (k : κ) (v : ν) : Option (UnorderedMap κ ν) :=
  if hk : k ∈ m.keys then some (m.modify k fun _ => v)
  else if hsize : m.size + 1 < 2 ^ 64 then some (m.insert order k v hk hsize)
  else none

/-- Assignments one after the other. -/
def assignAll (order : Order κ ν) : UnorderedMap κ ν → List (κ × ν) → Option (UnorderedMap κ ν)
  | m, [] => some m
  | m, e :: es => (m.assign order e.1 e.2).bind fun m => assignAll order m es

variable {m m' : UnorderedMap κ ν} {k k' : κ} {v v' : ν} {order : Order κ ν}

/-! ## Entries and lookups -/

theorem lookup_eq_some_iff {es : List (κ × ν)} (h : (es.map Prod.fst).Nodup) :
    es.lookup k = some v ↔ (k, v) ∈ es := by
  induction es with
  | nil => simp
  | cons e es ih =>
      obtain ⟨hnew, hrest⟩ := List.nodup_cons.mp h
      obtain ⟨k', v'⟩ := e
      rw [List.lookup_cons, List.mem_cons, Prod.mk.injEq]
      by_cases hk : k = k'
      · subst hk
        rw [beq_self_eq_true, Option.some.injEq]
        constructor
        · rintro rfl
          exact Or.inl ⟨rfl, rfl⟩
        · rintro (⟨-, rfl⟩ | hmem)
          · rfl
          · exact absurd (List.mem_map_of_mem hmem) hnew
      · rw [beq_eq_false_iff_ne.mpr hk, ih hrest]
        exact ⟨Or.inr, fun hor => hor.resolve_left fun heq => hk heq.1⟩

theorem find?_eq_some_iff : m.find? k = some v ↔ (k, v) ∈ m.entries := lookup_eq_some_iff m.nodup

theorem find?_eq_none_iff : m.find? k = none ↔ k ∉ m.keys := by
  rw [Option.eq_none_iff_forall_ne_some]
  constructor
  · intro h hk
    obtain ⟨⟨k', v⟩, hmem, rfl⟩ := List.mem_map.mp hk
    exact h v (find?_eq_some_iff.mpr hmem)
  · intro hk v hv
    exact hk (List.mem_map_of_mem (find?_eq_some_iff.mp hv))

theorem count_eq_one_iff : m.count k = 1 ↔ k ∈ m.keys := by
  constructor
  · intro h
    exact List.count_pos_iff.mp (Nat.lt_of_lt_of_eq Nat.one_pos h.symm)
  · exact List.count_eq_one_of_mem m.nodup

theorem mem_keys_of_find? (h : m.find? k = some v) : k ∈ m.keys := List.mem_map_of_mem (find?_eq_some_iff.mp h)

/-! ## Changes -/

@[simp] theorem keys_modify (f : ν → ν) : (m.modify k f).keys = m.keys := by
  rw [keys, modify, List.map_map]
  apply List.map_congr_left
  intro e _
  show (if e.1 = k then (e.1, f e.2) else e).1 = e.1
  split <;> rfl

theorem mem_modify {f : ν → ν} {e : κ × ν} : e ∈ (m.modify k f).entries ↔
    (e.1 ≠ k ∧ e ∈ m.entries) ∨ ∃ v, (k, v) ∈ m.entries ∧ e = (k, f v) := by
  rw [modify, List.mem_map]
  constructor
  · rintro ⟨e', hmem, heq⟩
    split at heq
    · rename_i hk
      subst hk
      exact Or.inr ⟨e'.2, hmem, heq.symm⟩
    · rename_i hk
      exact Or.inl ⟨heq ▸ hk, heq ▸ hmem⟩
  · rintro (⟨hk, hmem⟩ | ⟨v, hmem, rfl⟩)
    · exact ⟨e, hmem, if_neg hk⟩
    · exact ⟨(k, v), hmem, if_pos rfl⟩

omit [DecidableEq κ] in
theorem mem_insert {hk : k ∉ m.keys} {hsize : m.size + 1 < 2 ^ 64} {e : κ × ν} :
    e ∈ (m.insert order k v hk hsize).entries ↔ e = (k, v) ∨ e ∈ m.entries := by
  rw [insert, (order.2 _).mem_iff, List.mem_cons]

/-- **One assignment.** -/
theorem mem_assign (h : m.assign order k v = some m') {e : κ × ν} :
    e ∈ m'.entries ↔ e = (k, v) ∨ (e.1 ≠ k ∧ e ∈ m.entries) := by
  unfold assign at h
  split at h
  · rename_i hk
    obtain rfl := Option.some.inj h
    obtain ⟨⟨k', v'⟩, hmem, rfl⟩ := List.mem_map.mp hk
    rw [mem_modify]
    constructor
    · rintro (hother | ⟨w, -, rfl⟩)
      · exact Or.inr hother
      · exact Or.inl rfl
    · rintro (rfl | hother)
      · exact Or.inr ⟨v', hmem, rfl⟩
      · exact Or.inl hother
  · rename_i hk
    split at h
    · obtain rfl := Option.some.inj h
      rw [mem_insert]
      constructor
      · rintro (rfl | hmem)
        · exact Or.inl rfl
        · refine Or.inr ⟨?_, hmem⟩
          rintro rfl
          exact hk (List.mem_map_of_mem hmem)
      · rintro (rfl | ⟨-, hmem⟩)
        · exact Or.inl rfl
        · exact Or.inr hmem
    · cases h

theorem find?_assign_self (h : m.assign order k v = some m') : m'.find? k = some v :=
  find?_eq_some_iff.mpr ((mem_assign h).mpr (Or.inl rfl))

/-- The keys after an assignment; the old ones are told from the new one. -/
theorem mem_keys_assign (h : m.assign order k v = some m') : k' ∈ m'.keys ↔ k' = k ∨ k' ≠ k ∧ k' ∈ m.keys := by
  constructor
  · intro hkey
    obtain ⟨e, he, rfl⟩ := List.mem_map.mp hkey
    rcases (mem_assign h).mp he with rfl | ⟨hne, hmem⟩
    · exact Or.inl rfl
    · exact Or.inr ⟨hne, List.mem_map_of_mem hmem⟩
  · rintro (rfl | ⟨hne, hkey⟩)
    · exact mem_keys_of_find? (find?_assign_self h)
    · obtain ⟨e, he, rfl⟩ := List.mem_map.mp hkey
      exact List.mem_map_of_mem ((mem_assign h).mpr (Or.inr ⟨hne, he⟩))

theorem find?_assign_ne (h : m.assign order k v = some m') (hk : k' ≠ k) : m'.find? k' = m.find? k' := by
  apply Option.ext
  intro w
  rw [find?_eq_some_iff, find?_eq_some_iff, mem_assign h]
  constructor
  · rintro (heq | ⟨-, hmem⟩)
    · exact absurd (congrArg Prod.fst heq) hk
    · exact hmem
  · exact fun hmem => Or.inr ⟨hk, hmem⟩

theorem find?_modify_self (f : ν → ν) : (m.modify k f).find? k = (m.find? k).map f := by
  cases hk : m.find? k with
  | none =>
      rw [find?_eq_none_iff] at hk
      rw [Option.map_none, find?_eq_none_iff, keys_modify]
      exact hk
  | some v =>
      rw [find?_eq_some_iff] at hk
      rw [Option.map_some, find?_eq_some_iff, mem_modify]
      exact Or.inr ⟨v, hk, rfl⟩

theorem find?_modify_ne (f : ν → ν) (hk : k' ≠ k) : (m.modify k f).find? k' = m.find? k' := by
  apply Option.ext
  intro v
  rw [find?_eq_some_iff, find?_eq_some_iff, mem_modify]
  constructor
  · rintro (⟨-, hmem⟩ | ⟨w, -, heq⟩)
    · exact hmem
    · exact absurd (congrArg Prod.fst heq) hk
  · exact fun hmem => Or.inl ⟨hk, hmem⟩

omit [DecidableEq κ] in
theorem ext_entries (h : m.entries = m'.entries) : m = m' := by
  obtain ⟨es, hnodup, hsize⟩ := m
  obtain rfl : es = m'.entries := h
  rfl

/-- A change depends on what it does to the value. -/
theorem modify_congr {f g : ν → ν} (h : ∀ v, m.find? k = some v → f v = g v) : m.modify k f = m.modify k g := by
  apply ext_entries
  apply List.map_congr_left
  intro e he
  by_cases hk : e.1 = k
  · rw [if_pos hk, if_pos hk, h e.2 (find?_eq_some_iff.mpr (hk ▸ he))]
  · rw [if_neg hk, if_neg hk]

/-- A change that leaves the value as it is. -/
theorem modify_eq_self {f : ν → ν} (h : ∀ v, m.find? k = some v → f v = v) : m.modify k f = m := by
  rw [modify_congr (g := id) h]
  apply ext_entries
  show (m.entries.map fun e => if e.1 = k then (e.1, e.2) else e) = m.entries
  rw [List.map_congr_left (g := id), List.map_id]
  intro e _
  exact ite_self e

theorem modify_modify (f g : ν → ν) : (m.modify k f).modify k g = m.modify k fun v => g (f v) := by
  apply ext_entries
  show ((m.entries.map fun e => if e.1 = k then (e.1, f e.2) else e).map fun e => if e.1 = k then (e.1, g e.2) else e) =
    m.entries.map fun e => if e.1 = k then (e.1, g (f e.2)) else e
  rw [List.map_map]
  apply List.map_congr_left
  intro e _
  by_cases hk : e.1 = k
  · simp only [Function.comp_apply, if_pos hk]
  · simp only [Function.comp_apply, if_neg hk]

/-- A change of one value is one of all values. -/
theorem modify_eq_update (f : ν → ν) : m.modify k f = m.update fun k' v => if k' = k then f v else v := by
  apply ext_entries
  apply List.map_congr_left
  intro e _
  show (if e.1 = k then (e.1, f e.2) else e) = (e.1, if e.1 = k then f e.2 else e.2)
  split <;> rfl

omit [DecidableEq κ] in
theorem update_update (f g : κ → ν → ν) : (m.update f).update g = m.update fun k v => g k (f k v) := by
  apply ext_entries
  show (m.entries.map _).map _ = _
  rw [List.map_map]
  rfl

omit [DecidableEq κ] in
theorem update_congr {f g : κ → ν → ν} (h : ∀ k v, (k, v) ∈ m.entries → f k v = g k v) : m.update f = m.update g := by
  apply ext_entries
  apply List.map_congr_left
  intro e he
  rw [h e.1 e.2 he]

omit [DecidableEq κ] in
theorem update_id : (m.update fun _ v => v) = m := by
  apply ext_entries
  exact List.map_id _

omit [DecidableEq κ] in
@[simp] theorem keys_update (f : κ → ν → ν) : (m.update f).keys = m.keys := by
  rw [keys, update, List.map_map]
  rfl

omit [DecidableEq κ] in
@[simp] theorem size_update (f : κ → ν → ν) : (m.update f).size = m.size := List.length_map _

theorem find?_update (f : κ → ν → ν) : (m.update f).find? k = (m.find? k).map (f k) := by
  cases hk : m.find? k with
  | none =>
      rw [find?_eq_none_iff] at hk
      rw [Option.map_none, find?_eq_none_iff, keys_update]
      exact hk
  | some v =>
      rw [find?_eq_some_iff] at hk
      rw [Option.map_some, find?_eq_some_iff]
      exact List.mem_map.mpr ⟨(k, v), hk, rfl⟩

section Map

variable {ν' : Type*} (f : ν → ν')

omit [DecidableEq κ] in
@[simp] theorem keys_map : (m.map f).keys = m.keys := by
  rw [keys, map, List.map_map]
  rfl

omit [DecidableEq κ] in
@[simp] theorem size_map : (m.map f).size = m.size := List.length_map _

theorem find?_map : (m.map f).find? k = (m.find? k).map f := by
  cases hk : m.find? k with
  | none =>
      rw [find?_eq_none_iff] at hk
      rw [Option.map_none, find?_eq_none_iff, keys_map]
      exact hk
  | some v =>
      rw [find?_eq_some_iff] at hk
      rw [Option.map_some, find?_eq_some_iff]
      exact List.mem_map.mpr ⟨(k, v), hk, rfl⟩

/-- A change of one value, before or after the function. -/
theorem map_modify {g : ν → ν} {g' : ν' → ν'} (h : ∀ v, g' (f v) = f (g v)) :
    (m.map f).modify k g' = (m.modify k g).map f := by
  apply ext_entries
  show (m.entries.map _).map _ = (m.entries.map _).map _
  rw [List.map_map, List.map_map]
  apply List.map_congr_left
  intro e _
  show (if e.1 = k then (e.1, g' (f e.2)) else (e.1, f e.2)) =
    ((if e.1 = k then (e.1, g e.2) else e).1, f (if e.1 = k then (e.1, g e.2) else e).2)
  split
  · rw [h]
  · rfl

/-- An assignment, before or after the function: some order before it gives the order after it. -/
theorem assign_map (order' : Order κ ν') (v : ν) :
    ∃ order : Order κ ν, (m.map f).assign order' k (f v) = (m.assign order k v).map (UnorderedMap.map f) := by
  by_cases hk : k ∈ m.keys
  · refine ⟨.front, ?_⟩
    rw [assign, dif_pos (by rwa [keys_map]), assign, dif_pos hk, Option.map_some, map_modify f fun _ => rfl]
  by_cases hsize : m.size + 1 < 2 ^ 64
  · have hall : List.Forall₂ (fun (e' : κ × ν') (e : κ × ν) => e' = (e.1, f e.2))
        (((k, v) :: m.entries).map fun e => (e.1, f e.2)) ((k, v) :: m.entries) := by
      rw [List.forall₂_map_left_iff, List.forall₂_same]
      exact fun _ _ => rfl
    obtain ⟨es, hes, hperm⟩ := List.perm_comp_forall₂ (order'.2 _) hall
    obtain ⟨order, horder⟩ := Order.exists_of_perm hperm
    refine ⟨order, ?_⟩
    rw [assign, dif_neg (by rwa [keys_map]), dif_pos (by rwa [size_map]), assign, dif_neg hk, dif_pos hsize, Option.map_some,
      Option.some.injEq]
    apply ext_entries
    show order'.1 ((k, f v) :: m.entries.map _) = (order.1 ((k, v) :: m.entries)).map fun e => (e.1, f e.2)
    rw [horder]
    refine List.forall₂_eq_eq_eq ▸ List.forall₂_map_right_iff.mpr hes
  · refine ⟨.front, ?_⟩
    rw [assign, dif_neg (by rwa [keys_map]), dif_neg (by rwa [size_map]), assign, dif_neg hk, dif_neg hsize, Option.map_none]

end Map

/-- The size of a map is how many keys can be found. -/
theorem size_congr (h : ∀ k, m.find? k = m'.find? k) : m.size = m'.size := by
  have hkeys : m.keys.Perm m'.keys := by
    refine (List.perm_ext_iff_of_nodup m.nodup m'.nodup).mpr fun k => not_iff_not.mp ?_
    show k ∉ m.keys ↔ k ∉ m'.keys
    rw [← find?_eq_none_iff, ← find?_eq_none_iff, h k]
  have hlen := hkeys.length_eq
  rwa [keys, keys, List.length_map, List.length_map] at hlen

/-- A value that is changed after its key has been inserted might have been inserted in the first place. -/
theorem assign_modify (hk : k ∉ m.keys) (h : m.assign order k v = some m') (v' : ν) :
    ∃ order' : Order κ ν, m.assign order' k v' = some (m'.modify k fun _ => v') := by
  rw [assign, dif_neg hk] at h
  split at h
  · rename_i hsize
    obtain rfl := Option.some.inj h
    have hperm : ((m.insert order k v hk hsize).modify k fun _ => v').entries.Perm ((k, v') :: m.entries) := by
      refine ((order.2 ((k, v) :: m.entries)).map fun e => if e.1 = k then (e.1, v') else e).trans ?_
      rw [List.map_cons, if_pos rfl, List.map_congr_left (g := id), List.map_id]
      intro e he
      exact if_neg fun (heq : e.1 = k) => hk (heq ▸ List.mem_map_of_mem he)
    obtain ⟨order', horder⟩ := Order.exists_of_perm hperm
    refine ⟨order', ?_⟩
    rw [assign, dif_neg hk, dif_pos hsize, Option.some.injEq]
    exact ext_entries horder
  · cases h

/-- The values of the keys, in iteration order. -/
theorem flatMap_keys {β : Type*} (g : κ → ν → List β) : m.keys.flatMap (fun k => (m.find? k).elim [] (g k)) =
    m.entries.flatMap fun e => g e.1 e.2 := by
  rw [keys, List.flatMap_map]
  apply List.flatMap_congr
  intro e he
  rw [find?_eq_some_iff.mpr he]
  rfl

/-- A new key makes the map larger by one. -/
theorem size_assign_of_not_mem (hk : k ∉ m.keys) (h : m.assign order k v = some m') : m'.size = m.size + 1 := by
  rw [assign, dif_neg hk] at h
  split at h
  · obtain rfl := Option.some.inj h
    exact (order.2 _).length_eq
  · cases h

/-- **A map built from a list** of entries with different keys has these entries. -/
theorem assignAll_spec {es : List (κ × ν)} (hnodup : ((m.entries ++ es).map Prod.fst).Nodup)
    (hsize : (m.entries ++ es).length < 2 ^ 64) :
    ∃ m', m.assignAll order es = some m' ∧ ∀ e, e ∈ m'.entries ↔ e ∈ m.entries ∨ e ∈ es := by
  induction es generalizing m with
  | nil => exact ⟨m, rfl, fun e => by simp⟩
  | cons e es ih =>
      obtain ⟨k, v⟩ := e
      have hperm : (m.entries ++ (k, v) :: es).Perm ((k, v) :: m.entries ++ es) := List.perm_middle
      have hnodup' := ((hperm.map Prod.fst).nodup_iff).mp hnodup
      -- the key is new, so the map grows by this entry
      have hk : k ∉ m.keys := by
        obtain ⟨hnew, -⟩ := List.nodup_cons.mp hnodup'
        intro hk
        apply hnew
        show k ∈ (m.entries ++ es).map Prod.fst
        rw [List.map_append]
        exact List.mem_append_left _ hk
      have hroom : m.size + 1 < 2 ^ 64 := by
        rw [List.length_append, List.length_cons] at hsize
        show m.entries.length + 1 < 2 ^ 64
        omega
      have hassign : m.assign order k v = some (m.insert order k v hk hroom) := by
        rw [assign, dif_neg hk, dif_pos hroom]
      have hinsert : (m.insert order k v hk hroom).entries.Perm ((k, v) :: m.entries) := order.2 _
      obtain ⟨m', hm', hmem⟩ := ih (m := m.insert order k v hk hroom)
        ((((hinsert.append_right es).map Prod.fst).nodup_iff).mpr hnodup')
        (by rw [(hinsert.append_right es).length_eq, ← hperm.length_eq]; exact hsize)
      refine ⟨m', ?_, ?_⟩
      · rw [assignAll, hassign, Option.bind_some, hm']
      · intro e
        rw [hmem, mem_insert, List.mem_cons, or_assoc, or_left_comm]

/-- **A copy.** A map built from entries that are related to those of `m`, key by key, is related to `m`. -/
theorem assignAll_copy {ν' : Type v} {R : ν → ν' → Prop} {order : Order κ ν'} {es : List (κ × ν')}
    (h : List.Forall₂ (fun e e' => e'.1 = e.1 ∧ R e.2 e'.2) m.entries es) :
    ∃ m', (empty : UnorderedMap κ ν').assignAll order es = some m' ∧ ∀ k, Option.Rel R (m.find? k) (m'.find? k) := by
  have hkeys : es.map Prod.fst = m.entries.map Prod.fst := by
    clear order
    generalize m.entries = l at h
    induction h with
    | nil => rfl
    | cons he _ ih => rw [List.map_cons, List.map_cons, he.1, ih]
  obtain ⟨m', hm', hmem⟩ := @assignAll_spec κ ν' _ empty order es
    (by show (es.map Prod.fst).Nodup; rw [hkeys]; exact m.nodup)
    (by show es.length < 2 ^ 64; rw [← h.length_eq]; exact m.size_lt)
  have hentries : ∀ e, e ∈ m'.entries ↔ e ∈ es := fun e => by rw [hmem]; exact or_iff_right List.not_mem_nil
  refine ⟨m', hm', ?_⟩
  intro k
  cases hk : m.find? k with
  | none =>
      have hnone : m'.find? k = none := by
        rw [find?_eq_none_iff] at hk ⊢
        intro hmem'
        obtain ⟨e, he, rfl⟩ := List.mem_map.mp hmem'
        apply hk
        rw [keys, ← hkeys]
        exact List.mem_map_of_mem ((hentries e).mp he)
      rw [hnone]
      exact .none
  | some v =>
      -- the entry that was made from this one
      have hcopy : ∀ {l : List (κ × ν)} {l' : List (κ × ν')}, List.Forall₂ (fun e e' => e'.1 = e.1 ∧ R e.2 e'.2) l l' →
          (k, v) ∈ l → ∃ v', (k, v') ∈ l' ∧ R v v' := by
        intro l l' hall
        induction hall with
        | nil => simp
        | @cons e e' l l' he _ ih =>
            intro hin
            rcases List.mem_cons.mp hin with rfl | hin
            · exact ⟨e'.2, List.mem_cons.mpr (Or.inl (Prod.ext he.1.symm rfl)), he.2⟩
            · obtain ⟨v', hv', hR⟩ := ih hin
              exact ⟨v', List.mem_cons_of_mem _ hv', hR⟩
      obtain ⟨v', hv', hR⟩ := hcopy h (find?_eq_some_iff.mp hk)
      rw [find?_eq_some_iff.mpr ((hentries _).mpr hv')]
      exact .some hR

end UnorderedMap
end DDBMS
