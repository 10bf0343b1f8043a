import Mathlib.Data.List.Nodup
import Mathlib.Data.List.Induction
import Mathlib.Data.List.Sublists

/-!
# `Lib.Lru` — lists in the order of the last use

`touch cap used k` is what a cache of `cap` keys keeps when `k` is used: `k` comes to the front, and if it was not there and
the cache is full, the last key goes. Keys are dropped with `List.erase`. `lastUse` is the time of the last use of a key in a
sequence of uses and drops, and `kept` what the cache has behind it: different keys, at most `cap`, the more recently used
ones first (`kept_nodup`, `length_kept_le`, `kept_ordered`).
-/

namespace DDBMS
namespace Lru

universe u

variable {κ : Type u} [DecidableEq κ]

def touch (cap : Nat) (used : List κ) (k : κ) : List κ :=
  k :: (if k ∈ used then used.erase k else if used.length = cap then used.dropLast else used)

inductive Use (κ : Type u) where
  | touch (k : κ)
  | drop (k : κ)
  deriving DecidableEq

def step (cap : Nat) (used : List κ) : Use κ → List κ
  | .touch k => touch cap used k
  | .drop k => used.erase k

/-- What a cache keeps. -/
def kept (cap : Nat) (uses : List (Use κ)) : List κ := uses.foldl (step cap) []

/-- The time of the last use: the number of uses and drops up to it. -/
def lastUse (uses : List (Use κ)) (k : κ) : Nat :=
  uses.length - (uses.reverse.findIdx fun use => use = .touch k)

variable {cap : Nat} {used : List κ} {uses : List (Use κ)} {use : Use κ} {k : κ}

theorem kept_snoc (cap : Nat) (uses : List (Use κ)) (use : Use κ) :
    kept cap (uses ++ [use]) = step cap (kept cap uses) use := by
  rw [kept, List.foldl_append]
  rfl

theorem erase_last (h : used.Nodup) (hlast : used.getLast? = some k) : used.erase k = used.dropLast := by
  obtain ⟨init, rfl⟩ := List.getLast?_eq_some_iff.mp hlast
  have hmem : k ∉ init := fun hmem => (List.nodup_append.mp h).2.2 k hmem k (List.mem_singleton_self k) rfl
  rw [List.erase_append_right _ hmem, List.erase_cons_head, List.append_nil, List.dropLast_concat]

/-- What stays behind the key that is used. -/
theorem sublist_rest (cap : Nat) (used : List κ) (k : κ) :
    (if k ∈ used then used.erase k else if used.length = cap then used.dropLast else used).Sublist used := by
  split
  · exact List.erase_sublist
  · split
    · exact List.dropLast_sublist used
    · exact List.Sublist.refl used

theorem notMem_rest (h : used.Nodup) :
    k ∉ (if k ∈ used then used.erase k else if used.length = cap then used.dropLast else used) := by
  split
  · exact h.not_mem_erase
  · rename_i hk
    split
    · exact fun hmem => hk ((List.dropLast_sublist used).subset hmem)
    · exact hk

theorem nodup_step (h : used.Nodup) (use : Use κ) : (step cap used use).Nodup := by
  cases use with
  | touch k => exact List.nodup_cons.mpr ⟨notMem_rest h, h.sublist (sublist_rest cap used k)⟩
  | drop k => exact h.erase k

theorem length_step_le (hcap : 0 < cap) (h : used.length ≤ cap) (use : Use κ) : (step cap used use).length ≤ cap := by
  cases use with
  | touch k =>
      show (touch cap used k).length ≤ cap
      rw [touch, List.length_cons]
      split
      · rename_i hk
        have := List.length_pos_of_mem hk
        rw [List.length_erase_of_mem hk]
        omega
      · split
        · rw [List.length_dropLast]
          omega
        · omega
  | drop k => exact le_trans List.length_erase_le h

theorem kept_nodup (cap : Nat) (uses : List (Use κ)) : (kept cap uses).Nodup := by
  induction uses using List.reverseRecOn with
  | nil => exact List.nodup_nil
  | append_singleton uses use ih =>
      rw [kept_snoc]
      exact nodup_step ih use

theorem length_kept_le (hcap : 0 < cap) (uses : List (Use κ)) : (kept cap uses).length ≤ cap := by
  induction uses using List.reverseRecOn with
  | nil => exact Nat.zero_le cap
  | append_singleton uses use ih =>
      rw [kept_snoc]
      exact length_step_le hcap ih use

/-! ## The order -/

theorem lastUse_le (uses : List (Use κ)) (k : κ) : lastUse uses k ≤ uses.length := Nat.sub_le _ _

theorem lastUse_snoc (uses : List (Use κ)) (use : Use κ) (k : κ) :
    lastUse (uses ++ [use]) k = if use = .touch k then uses.length + 1 else lastUse uses k := by
  rw [lastUse, List.reverse_append, List.reverse_singleton, List.singleton_append, List.length_append,
    List.length_singleton, List.findIdx_cons]
  by_cases h : use = .touch k
  · simp [h]
  · simp [h, lastUse]

/-- **The more recently used keys come first.** -/
theorem kept_ordered (cap : Nat) (uses : List (Use κ)) :
    (kept cap uses).Pairwise fun a b => lastUse uses b < lastUse uses a := by
  induction uses using List.reverseRecOn with
  | nil => exact List.Pairwise.nil
  | append_singleton uses use ih =>
      have hnd := kept_nodup cap uses
      rw [kept_snoc]
      cases use with
      | touch k =>
          -- the others keep their times, which are before the new one
          have hother : ∀ a ∈ (if k ∈ kept cap uses then (kept cap uses).erase k else
              if (kept cap uses).length = cap then (kept cap uses).dropLast else kept cap uses),
              lastUse (uses ++ [.touch k]) a = lastUse uses a := by
            intro a ha
            have hne : (Use.touch k : Use κ) ≠ .touch a := by
              rintro heq
              obtain rfl := Use.touch.inj heq
              exact notMem_rest hnd ha
            rw [lastUse_snoc, if_neg hne]
          refine List.pairwise_cons.mpr ⟨fun a ha => ?_, ?_⟩
          · have hle := lastUse_le uses a
            rw [hother a ha, lastUse_snoc, if_pos rfl]
            omega
          · refine (ih.sublist (sublist_rest cap (kept cap uses) k)).imp_of_mem fun {a b} ha hb hlt => ?_
            rw [hother a ha, hother b hb]
            exact hlt
      | drop k =>
          refine (ih.sublist List.erase_sublist).imp fun {a b} hlt => ?_
          rw [lastUse_snoc, lastUse_snoc, if_neg (by simp), if_neg (by simp)]
          exact hlt

/-- The last key is the one whose use is the longest ago. -/
theorem lastUse_last_lt {other : κ} (hlast : (kept cap uses).getLast? = some k) (hother : other ∈ kept cap uses)
    (hne : other ≠ k) : lastUse uses k < lastUse uses other := by
  obtain ⟨init, hinit⟩ := List.getLast?_eq_some_iff.mp hlast
  have horder := kept_ordered cap uses
  rw [hinit] at horder hother
  have hmem : other ∈ init := (List.mem_append.mp hother).resolve_right fun h => hne (List.mem_singleton.mp h)
  exact (List.pairwise_append.mp horder).2.2 other hmem k (List.mem_singleton_self k)

end Lru
end DDBMS
