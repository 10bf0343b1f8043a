import Mathlib.Data.List.Basic
import Mathlib.Logic.Relation

/-!
# `Lib.DurableLog` — a log of which a part survives crashes

What a write-ahead log is for: records are appended, a prefix of them becomes durable, and a crash loses some of the rest. What
is durable once is a prefix of every later log (`kept_steps`), at the same positions (`getElem?_steps`).

Records are any type. A log manager is shown to be such a log by a simulation.
-/

namespace DDBMS

universe u

/-- The records of a log, of which the first `durable` survive. -/
@[ext]
structure DurableLog (ρ : Type u) where
  records : List ρ
  durable : Nat
  le : durable ≤ records.length

namespace DurableLog

variable {ρ : Type u} {s s' : DurableLog ρ} {r : ρ} {i : Nat}

/-- An empty log. -/
def empty : DurableLog ρ := ⟨[], 0, Nat.le_refl _⟩

/-- What survives. -/
def kept (s : DurableLog ρ) : List ρ := s.records.take s.durable

theorem length_kept : s.kept.length = s.durable := by
  rw [kept, List.length_take, Nat.min_eq_left s.le]

theorem kept_prefix : s.kept <+: s.records := List.take_prefix _ _

inductive Step (s : DurableLog ρ) : DurableLog ρ → Prop where
  | append (r : ρ) : Step s ⟨s.records ++ [r], s.durable, by rw [List.length_append]; exact Nat.le_add_right_of_le s.le⟩
  /-- more of the records become durable -/
  | sync (n : Nat) (hle : s.durable ≤ n) (hn : n ≤ s.records.length) : Step s ⟨s.records, n, hn⟩
  /-- the records behind the first `n` are lost -/
  | crash (n : Nat) (hle : s.durable ≤ n) (hn : n ≤ s.records.length) :
      Step s ⟨s.records.take n, n, Nat.le_of_eq (by rw [List.length_take, Nat.min_eq_left hn])⟩

/-- **Step lemma.** -/
theorem kept_step (h : Step s s') : s.kept <+: s'.kept := by
  cases h with
  | append r =>
      have hsame : (s.records ++ [r]).take s.durable = s.records.take s.durable := List.take_append_of_le_length s.le
      exact ⟨[], by rw [List.append_nil]; exact hsame.symm⟩
  | sync n hle hn => exact List.take_prefix_take_left hle
  | crash n hle hn =>
      show s.records.take s.durable <+: (s.records.take n).take n
      rw [List.take_take, Nat.min_self]
      exact List.take_prefix_take_left hle

/-- **What is durable stays**, through any number of crashes. -/
theorem kept_steps (h : Relation.ReflTransGen Step s s') : s.kept <+: s'.kept := by
  induction h with
  | refl => exact List.prefix_rfl
  | tail _ hst ih => exact ih.trans (kept_step hst)

/-- A durable record stays where it is. -/
theorem getElem?_steps (h : Relation.ReflTransGen Step s s') (hi : i < s.durable) (hr : s.records[i]? = some r) :
    i < s'.durable ∧ s'.records[i]? = some r := by
  obtain ⟨q, hq⟩ := kept_steps h
  have hlt : i < s.kept.length := by rwa [length_kept]
  have hkept : s.kept[i]? = some r := by rw [DurableLog.kept, List.getElem?_take_of_lt hi, hr]
  have hlen : s.durable ≤ s'.durable := by
    rw [← length_kept, ← length_kept (s := s'), ← hq, List.length_append]
    exact Nat.le_add_right _ _
  refine ⟨Nat.lt_of_lt_of_le hi hlen, ?_⟩
  have hkept' : s'.kept[i]? = some r := by rw [← hq, List.getElem?_append_left hlt, hkept]
  rwa [DurableLog.kept, List.getElem?_take_of_lt (Nat.lt_of_lt_of_le hi hlen)] at hkept'

end DurableLog
end DDBMS
