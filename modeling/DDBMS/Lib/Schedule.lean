import Mathlib.Logic.Function.Basic
import Mathlib.Data.List.Basic
import Mathlib.Data.List.Induction
import Mathlib.Tactic.Tauto

/-!
# `Lib.Schedule` — logs of transactions that keep exclusive locks

A log is a list of operations of transactions on a store, which maps keys to values: a transaction begins, writes keys
(`none` removes the key), and commits or aborts. `replay` applies all writes in order; `committedStore` applies only
those of the committed transactions.

A log is `Strict` when no two unfinished transactions write the same key and a transaction aborts only after it has put
back what it wrote. Then the two stores differ only at keys of unfinished transactions, and there the committed value is
the one from before the transaction's first write (`Strict.keySpec`).

`undo` takes back the writes of the unfinished transactions, the last one first, and puts `inverse k v` in place of
a write of `v` to `k`. It reaches the committed store if and only if `inverse` is right at the first write of each
unfinished transaction to each key (`Strict.undo_eq_iff`).

Transactions, keys and values are any types with decidable equality.
-/

namespace DDBMS
namespace Schedule

universe u v w

inductive Op (τ : Type u) (κ : Type v) (ν : Type w) where
  | begin (t : τ)
  | write (t : τ) (k : κ) (v : Option ν)
  | commit (t : τ)
  | abort (t : τ)
  deriving DecidableEq, Repr

variable {τ : Type u} {κ : Type v} {ν : Type w}

def Op.txn : Op τ κ ν → τ
  | .begin t | .write t _ _ | .commit t | .abort t => t

/-- The transaction has begun and not ended. -/
def Active (log : List (Op τ κ ν)) (t : τ) : Prop := .begin t ∈ log ∧ .commit t ∉ log ∧ .abort t ∉ log

/-- The transaction has written the key. -/
def Writes (log : List (Op τ κ ν)) (t : τ) (k : κ) : Prop := ∃ v, .write t k v ∈ log

/-! ## Stores -/

section Store

variable [DecidableEq κ]

/-- The effect of an operation on a store. -/
def apply (m : κ → Option ν) : Op τ κ ν → κ → Option ν
  | .write _ k v => Function.update m k v
  | .begin _ | .commit _ | .abort _ => m

/-- All writes of a log, in order, on a store. -/
def replayFrom (m : κ → Option ν) (log : List (Op τ κ ν)) : κ → Option ν := log.foldl apply m

/-- All writes of a log, in order. -/
def replay (log : List (Op τ κ ν)) : κ → Option ν := replayFrom (fun _ => none) log

variable {m m' : κ → Option ν} {log : List (Op τ κ ν)} {k : κ}

theorem replayFrom_append (m : κ → Option ν) (log log' : List (Op τ κ ν)) :
    replayFrom m (log ++ log') = replayFrom (replayFrom m log) log' := List.foldl_append

theorem replay_snoc (log : List (Op τ κ ν)) (o : Op τ κ ν) : replay (log ++ [o]) = apply (replay log) o :=
  replayFrom_append _ log [o]

/-- An operation changes the key it writes. -/
theorem apply_other {o : Op τ κ ν} (h : ∀ t v, o ≠ .write t k v) : apply m o k = m k := by
  cases o with
  | write t j v =>
      apply Function.update_of_ne
      rintro rfl
      exact h t v rfl
  | begin | commit | abort => rfl

/-- A key depends on its own past. -/
theorem replayFrom_congr (h : m k = m' k) : replayFrom m log k = replayFrom m' log k := by
  induction log generalizing m m' with
  | nil => exact h
  | cons o log ih =>
      apply ih
      by_cases ho : ∃ t v, o = .write t k v
      · obtain ⟨t, v, rfl⟩ := ho
        simp only [apply, Function.update_self]
      · have hne : ∀ t v, o ≠ .write t k v := fun t v heq => ho ⟨t, v, heq⟩
        rw [apply_other hne, apply_other hne, h]

theorem replayFrom_other (h : ∀ t v, .write t k v ∉ log) : replayFrom m log k = m k := by
  induction log generalizing m with
  | nil => rfl
  | cons o log ih =>
      have hrest : ∀ t v, .write t k v ∉ log := fun t v hmem => h t v (List.mem_cons_of_mem _ hmem)
      refine (ih hrest).trans (apply_other ?_)
      rintro t v rfl
      exact h t v List.mem_cons_self

/-- Leaving out operations that do not write the key. -/
theorem replayFrom_filter {p : Op τ κ ν → Bool} (h : ∀ t v, .write t k v ∈ log → p (.write t k v) = true) :
    replayFrom m (log.filter p) k = replayFrom m log k := by
  induction log generalizing m with
  | nil => rfl
  | cons o log ih =>
      have hrest : ∀ t v, .write t k v ∈ log → p (.write t k v) = true :=
        fun t v hmem => h t v (List.mem_cons_of_mem _ hmem)
      rw [List.filter_cons]
      split
      · exact ih hrest
      · rename_i hp
        refine (ih hrest).trans (replayFrom_congr ?_)
        refine (apply_other ?_).symm
        rintro t v rfl
        exact hp (h t v List.mem_cons_self)

/-- After a write of the key the store before it does not matter. -/
theorem replayFrom_write (m m' : κ → Option ν) {t : τ} {v : Option ν} :
    replayFrom m (.write t k v :: log) k = replayFrom m' (.write t k v :: log) k := by
  show replayFrom (Function.update m k v) log k = replayFrom (Function.update m' k v) log k
  apply replayFrom_congr
  rw [Function.update_self, Function.update_self]

end Store

/-! ## Strict logs -/

section Strict

variable [DecidableEq τ] [DecidableEq κ] [DecidableEq ν]

instance (log : List (Op τ κ ν)) (t : τ) : Decidable (Active log t) :=
  inferInstanceAs (Decidable (_ ∧ _ ∧ _))

/-- The writes of the committed transactions, in order. -/
def committedStore (log : List (Op τ κ ν)) : κ → Option ν :=
  replay (log.filter fun o => .commit o.txn ∈ log)

/-- Every key the transaction wrote is back to what it was before its first write. -/
def Restored (log : List (Op τ κ ν)) (t : τ) : Prop :=
  ∀ pre k v post, log = pre ++ .write t k v :: post → ¬ Writes pre t k → replay log k = replay pre k

/-- The logs of runs under exclusive locks. -/
inductive Strict : List (Op τ κ ν) → Prop
  | nil : Strict []
  | begin {log : List (Op τ κ ν)} {t : τ} (h : Strict log) (hnew : ∀ o ∈ log, o.txn ≠ t) :
      Strict (log ++ [.begin t])
  | write {log : List (Op τ κ ν)} {t : τ} (h : Strict log) (hactive : Active log t) (k : κ) (v : Option ν)
      (hlock : ∀ u, Active log u → Writes log u k → u = t) : Strict (log ++ [.write t k v])
  | commit {log : List (Op τ κ ν)} {t : τ} (h : Strict log) (hactive : Active log t) : Strict (log ++ [.commit t])
  | abort {log : List (Op τ κ ν)} {t : τ} (h : Strict log) (hactive : Active log t) (hrestored : Restored log t) :
      Strict (log ++ [.abort t])

variable {log pre post : List (Op τ κ ν)} {t u : τ} {k : κ} {v : Option ν} {o : Op τ κ ν}

omit [DecidableEq τ] [DecidableEq κ] [DecidableEq ν] in
theorem mem_snoc {a : Op τ κ ν} : a ∈ log ++ [o] ↔ a ∈ log ∨ a = o := by
  rw [List.mem_append, List.mem_singleton]

omit [DecidableEq τ] [DecidableEq κ] [DecidableEq ν] in
theorem writes_snoc_of_ne (h : ∀ v, o ≠ .write u k v) : Writes (log ++ [o]) u k ↔ Writes log u k := by
  constructor
  · rintro ⟨v, hv⟩
    rcases mem_snoc.mp hv with hv | rfl
    · exact ⟨v, hv⟩
    · exact absurd rfl (h v)
  · rintro ⟨v, hv⟩
    exact ⟨v, mem_snoc.mpr (Or.inl hv)⟩

omit [DecidableEq τ] [DecidableEq κ] [DecidableEq ν] in
theorem active_begin (hnew : ∀ o ∈ log, o.txn ≠ t) :
    Active (log ++ [.begin t]) u ↔ Active log u ∨ u = t := by
  have hc : .commit t ∉ log := fun hmem => hnew _ hmem rfl
  have ha : .abort t ∉ log := fun hmem => hnew _ hmem rfl
  simp only [Active, mem_snoc, reduceCtorEq, or_false, Op.begin.injEq]
  constructor
  · rintro ⟨h | h, hrest⟩
    · exact Or.inl ⟨h, hrest⟩
    · exact Or.inr h
  · rintro (⟨h, hrest⟩ | rfl)
    · exact ⟨Or.inl h, hrest⟩
    · exact ⟨Or.inr rfl, hc, ha⟩

omit [DecidableEq τ] [DecidableEq κ] [DecidableEq ν] in
theorem active_write : Active (log ++ [.write t k v]) u ↔ Active log u := by
  simp only [Active, mem_snoc, reduceCtorEq, or_false]

omit [DecidableEq τ] [DecidableEq κ] [DecidableEq ν] in
theorem active_commit : Active (log ++ [.commit t]) u ↔ Active log u ∧ u ≠ t := by
  simp only [Active, mem_snoc, reduceCtorEq, or_false, Op.commit.injEq]
  tauto

omit [DecidableEq τ] [DecidableEq κ] [DecidableEq ν] in
theorem active_abort : Active (log ++ [.abort t]) u ↔ Active log u ∧ u ≠ t := by
  simp only [Active, mem_snoc, reduceCtorEq, or_false, Op.abort.injEq]
  tauto

omit [DecidableEq τ] [DecidableEq κ] [DecidableEq ν] in
/-- An operation concerns its transaction. -/
theorem active_snoc_other (h : o.txn ≠ t) : Active (log ++ [o]) t ↔ Active log t := by
  have hne : ∀ {a : Op τ κ ν}, a.txn = t → (a ∈ log ++ [o] ↔ a ∈ log) := by
    intro a ha
    rw [mem_snoc, or_iff_left]
    rintro rfl
    exact h ha
  unfold Active
  rw [hne rfl, hne rfl, hne rfl]

/-! ## Exclusive writes -/

/-- The log is `Exclusive` when each operation is `Allowed` behind those before it. -/
def Allowed (log : List (Op τ κ ν)) : Op τ κ ν → Prop
  | .begin t => ∀ o ∈ log, o.txn ≠ t
  | .write t k _ => Active log t ∧ ∀ u, Active log u → Writes log u k → u = t
  | .commit t | .abort t => Active log t

/-- The locks of a strict log, without what an abort needs. -/
inductive Exclusive : List (Op τ κ ν) → Prop
  | nil : Exclusive []
  | snoc {log : List (Op τ κ ν)} {o : Op τ κ ν} (h : Exclusive log) (ho : Allowed log o) : Exclusive (log ++ [o])

omit [DecidableEq τ] [DecidableEq ν] in
theorem Strict.exclusive (h : Strict log) : Exclusive log := by
  induction h with
  | nil => exact .nil
  | begin _ hnew ih => exact .snoc ih hnew
  | write _ hactive k v hlock ih => exact .snoc ih ⟨hactive, hlock⟩
  | commit _ hactive ih => exact .snoc ih hactive
  | abort _ hactive _ ih => exact .snoc ih hactive

omit [DecidableEq τ] [DecidableEq κ] [DecidableEq ν] in
theorem Exclusive.of_snoc (h : Exclusive (log ++ [o])) : Exclusive log ∧ Allowed log o := by
  generalize hall : log ++ [o] = all at h
  cases h with
  | nil => simp at hall
  | snoc h ho =>
      obtain ⟨rfl, heq⟩ := List.append_inj' hall rfl
      obtain rfl := List.singleton_inj.mp heq
      exact ⟨h, ho⟩

omit [DecidableEq τ] [DecidableEq κ] [DecidableEq ν] in
/-- A transaction begins once, and then is active until it ends. -/
theorem Allowed.cases (h : Allowed log o) : (∃ t, o = .begin t ∧ ∀ a ∈ log, a.txn ≠ t) ∨ Active log o.txn := by
  cases o with
  | begin t => exact Or.inl ⟨t, rfl, h⟩
  | write t k v => exact Or.inr h.1
  | commit t => exact Or.inr h
  | abort t => exact Or.inr h

omit [DecidableEq τ] [DecidableEq κ] [DecidableEq ν] in
theorem writes_of_snoc (h : Writes (log ++ [o]) t k) : Writes log t k ∨ ∃ v, o = .write t k v := by
  obtain ⟨v, hv⟩ := h
  rcases mem_snoc.mp hv with hv | hv
  · exact Or.inl ⟨v, hv⟩
  · exact Or.inr ⟨v, hv.symm⟩

omit [DecidableEq τ] [DecidableEq κ] [DecidableEq ν] in
/-- A transaction that has written has begun before. -/
theorem active_of_writes (h : Allowed log o) (ht : Active (log ++ [o]) t) (hw : Writes log t k) : Active log t := by
  by_cases heq : o.txn = t
  · subst heq
    rcases h.cases with ⟨u, rfl, hnew⟩ | hactive
    · obtain ⟨v, hv⟩ := hw
      exact absurd rfl (hnew _ hv)
    · exact hactive
  · exact (active_snoc_other heq).mp ht

omit [DecidableEq τ] [DecidableEq κ] [DecidableEq ν] in
/-- **Exclusive writes**: no two unfinished transactions have written the same key. -/
theorem Exclusive.unique (h : Exclusive log) (ht : Active log t) (hu : Active log u) (hwt : Writes log t k)
    (hwu : Writes log u k) : t = u := by
  induction h with
  | nil =>
      obtain ⟨v, hv⟩ := hwt
      cases hv
  | snoc h ho ih =>
      rcases writes_of_snoc hwt with hwt' | ⟨v, rfl⟩
      · have ht' := active_of_writes ho ht hwt'
        rcases writes_of_snoc hwu with hwu' | ⟨v, rfl⟩
        · exact ih ht' (active_of_writes ho hu hwu') hwt' hwu'
        · exact ho.2 t ht' hwt'
      · rcases writes_of_snoc hwu with hwu' | ⟨x, hx⟩
        · exact (ho.2 u (active_of_writes ho hu hwu') hwu').symm
        · exact (Op.write.inj hx).1

omit [DecidableEq τ] [DecidableEq κ] [DecidableEq ν] in
/-- A transaction's first write of a key. -/
theorem Writes.first (h : Writes log t k) : ∃ pre v post, log = pre ++ .write t k v :: post ∧ ¬ Writes pre t k := by
  induction log using List.reverseRecOn with
  | nil =>
      obtain ⟨v, hv⟩ := h
      cases hv
  | append_singleton log o ih =>
      by_cases hw : Writes log t k
      · obtain ⟨pre, v, post, rfl, hfirst⟩ := ih hw
        exact ⟨pre, v, post ++ [o], by rw [List.append_assoc, List.cons_append], hfirst⟩
      · rcases writes_of_snoc h with h | ⟨v, rfl⟩
        · exact absurd h hw
        · exact ⟨log, v, [], rfl, hw⟩

/-! ## The committed store, step by step -/

/-- What is not of a committed transaction adds nothing. -/
theorem committedStore_snoc (hcommit : ∀ t, o ≠ .commit t) (hnot : .commit o.txn ∉ log) :
    committedStore (log ++ [o]) = committedStore log := by
  have hmem : ∀ t, .commit t ∈ log ++ [o] ↔ .commit t ∈ log := by
    intro t
    rw [mem_snoc]
    exact ⟨fun h => h.elim id (fun heq => absurd heq.symm (hcommit t)), Or.inl⟩
  simp only [committedStore, hmem, List.filter_append, List.filter_cons, List.filter_nil, hnot, decide_false,
    Bool.false_eq_true, if_false, List.append_nil]

theorem committedStore_commit (log : List (Op τ κ ν)) (t : τ) :
    committedStore (log ++ [.commit t]) = replay (log.filter fun o => .commit o.txn ∈ log ∨ o.txn = t) := by
  have hlast : decide (Op.commit t ∈ log ∨ Op.txn (.commit t : Op τ κ ν) = t) = true := by simp [Op.txn]
  simp only [committedStore, mem_snoc, Op.commit.injEq, List.filter_append, List.filter_cons, List.filter_nil]
  rw [if_pos (by simp [Op.txn]), replay_snoc]
  rfl

/-- A commit changes the keys the transaction wrote. -/
theorem committedStore_commit_other (h : ¬ Writes log t k) :
    committedStore (log ++ [.commit t]) k = committedStore log k := by
  have hsub : log.filter (fun o => .commit o.txn ∈ log) =
      (log.filter fun o => .commit o.txn ∈ log ∨ o.txn = t).filter (fun o => .commit o.txn ∈ log) := by
    rw [List.filter_filter]
    apply List.filter_congr
    intro o _
    by_cases ho : .commit o.txn ∈ log <;> simp [ho]
  rw [committedStore_commit, committedStore, hsub]
  refine (replayFrom_filter ?_).symm
  intro u v hmem
  obtain ⟨hwrite, hor⟩ := List.mem_filter.mp hmem
  rcases of_decide_eq_true hor with hc | hu
  · exact decide_eq_true hc
  · obtain rfl : u = t := hu
    exact absurd ⟨v, hwrite⟩ h

/-- A commit of the last writer of a key gives the key its present value. -/
theorem committedStore_commit_self (hlog : log = pre ++ .write t k v :: post)
    (hrest : ∀ u x, .write u k x ∈ post → u = t) : committedStore (log ++ [.commit t]) k = replay log k := by
  have hself : decide (.commit t ∈ log ∨ Op.txn (.write t k v : Op τ κ ν) = t) = true := decide_eq_true (Or.inr rfl)
  have hcut : log.filter (fun o => .commit o.txn ∈ log ∨ o.txn = t) =
      pre.filter (fun o => .commit o.txn ∈ log ∨ o.txn = t) ++
        .write t k v :: post.filter (fun o => .commit o.txn ∈ log ∨ o.txn = t) := by
    conv_lhs => rw [hlog]
    rw [List.filter_append, ← hlog]
    congr 1
    exact List.filter_cons_of_pos (by simp [Op.txn])
  rw [committedStore_commit, hcut, hlog, replay, replay, replayFrom_append, replayFrom_append, ← hlog]
  -- the write of the key hides what stands before it
  rw [replayFrom_write _ (replayFrom (fun _ => none) pre)]
  apply replayFrom_filter
  intro u x hmem
  exact decide_eq_true (Or.inr (hrest u x hmem))

/-! ## What a strict log leaves at a key -/

/-- Either no unfinished transaction has written the key, and it has its committed value; or exactly one has, it has
    written it last, and the committed value is the one from before its first write. -/
inductive KeySpec (log : List (Op τ κ ν)) (k : κ) : Prop
  | free (hfree : ∀ t, Active log t → ¬ Writes log t k) (heq : replay log k = committedStore log k)
  | held (t : τ) (pre : List (Op τ κ ν)) (v : Option ν) (post : List (Op τ κ ν))
      (hlog : log = pre ++ .write t k v :: post) (hactive : Active log t) (hfirst : ¬ Writes pre t k)
      (hrest : ∀ u x, .write u k x ∈ post → u = t) (huniq : ∀ u, Active log u → Writes log u k → u = t)
      (heq : replay pre k = committedStore log k)

omit [DecidableEq τ] [DecidableEq κ] [DecidableEq ν] in
/-- An unfinished transaction is not committed. -/
theorem Active.not_committed (h : Active log t) : .commit t ∉ log := h.2.1

theorem keySpec_begin (h : KeySpec log k) (hnew : ∀ o ∈ log, o.txn ≠ t) : KeySpec (log ++ [.begin t]) k := by
  have hcommitted := committedStore_snoc (o := .begin t) (by simp) (fun hmem => hnew _ hmem rfl)
  have hwrites : ∀ u, Writes (log ++ [.begin t]) u k ↔ Writes log u k := fun u => writes_snoc_of_ne (by simp)
  -- the new transaction has written nothing
  have hnone : ¬ Writes log t k := fun ⟨v, hv⟩ => hnew _ hv rfl
  cases h with
  | free hfree heq =>
      apply KeySpec.free
      · intro u hu
        rw [hwrites]
        rcases (active_begin hnew).mp hu with hu | rfl
        · exact hfree u hu
        · exact hnone
      · rw [replay_snoc, hcommitted]
        exact heq
  | held t' pre v post hlog hactive hfirst hrest huniq heq =>
      refine KeySpec.held t' pre v (post ++ [.begin t]) ?_ ?_ hfirst ?_ ?_ ?_
      · rw [hlog, List.append_assoc, List.cons_append]
      · exact (active_begin hnew).mpr (Or.inl hactive)
      · intro u x hmem
        rcases mem_snoc.mp hmem with hmem | hmem
        · exact hrest u x hmem
        · cases hmem
      · intro u hu hw
        rw [hwrites] at hw
        rcases (active_begin hnew).mp hu with hu | rfl
        · exact huniq u hu hw
        · exact absurd hw hnone
      · rw [hcommitted]
        exact heq

theorem keySpec_write {j : κ} (h : KeySpec log k) (hactive : Active log t)
    (hlock : ∀ u, Active log u → Writes log u j → u = t) : KeySpec (log ++ [.write t j v]) k := by
  have hcommitted := committedStore_snoc (o := .write t j v) (by simp) hactive.not_committed
  by_cases hjk : j = k
  · subst hjk
    cases h with
    | free hfree heq =>
        -- the transaction takes the key
        refine KeySpec.held t log v [] rfl (active_write.mpr hactive) (hfree t hactive) ?_ ?_ ?_
        · intro u x hmem
          cases hmem
        · rintro u hu ⟨x, hx⟩
          rcases mem_snoc.mp hx with hx | hx
          · exact hlock u (active_write.mp hu) ⟨x, hx⟩
          · exact (Op.write.inj hx).1
        · rw [hcommitted]
          exact heq
    | held t' pre v' post hlog hactive' hfirst hrest huniq heq =>
        have hw : Writes log t' j := ⟨v', by rw [hlog]; simp⟩
        obtain rfl : t' = t := hlock t' hactive' hw
        refine KeySpec.held t' pre v' (post ++ [.write t' j v]) ?_ (active_write.mpr hactive) hfirst ?_ ?_ ?_
        · rw [hlog, List.append_assoc, List.cons_append]
        · intro u x hmem
          rcases mem_snoc.mp hmem with hmem | hmem
          · exact hrest u x hmem
          · exact (Op.write.inj hmem).1
        · rintro u hu ⟨x, hx⟩
          rcases mem_snoc.mp hx with hx | hx
          · exact hlock u (active_write.mp hu) ⟨x, hx⟩
          · exact (Op.write.inj hx).1
        · rw [hcommitted]
          exact heq
  · have hwrites : ∀ u, Writes (log ++ [.write t j v]) u k ↔ Writes log u k := by
      intro u
      apply writes_snoc_of_ne
      intro x hx
      exact hjk (Op.write.inj hx).2.1
    have hkey : apply (replay log) (.write t j v) k = replay log k :=
      apply_other (fun u x hx => hjk (Op.write.inj hx).2.1)
    cases h with
    | free hfree heq =>
        apply KeySpec.free
        · intro u hu
          rw [hwrites]
          exact hfree u (active_write.mp hu)
        · rw [replay_snoc, hkey, hcommitted]
          exact heq
    | held t' pre v' post hlog hactive' hfirst hrest huniq heq =>
        refine KeySpec.held t' pre v' (post ++ [.write t j v]) ?_ (active_write.mpr hactive') hfirst ?_ ?_ ?_
        · rw [hlog, List.append_assoc, List.cons_append]
        · intro u x hmem
          rcases mem_snoc.mp hmem with hmem | hmem
          · exact hrest u x hmem
          · exact absurd (Op.write.inj hmem).2.1.symm hjk
        · intro u hu hw
          rw [hwrites] at hw
          exact huniq u (active_write.mp hu) hw
        · rw [hcommitted]
          exact heq

/-- The end of a transaction that has not written the key. -/
theorem KeySpec.ended (h : KeySpec log k) (hact : ∀ u, Active (log ++ [o]) u ↔ Active log u ∧ u ≠ t)
    (hwrites : ∀ u, Writes (log ++ [o]) u k ↔ Writes log u k) (happly : apply (replay log) o = replay log)
    (hnot : ∀ u x, o ≠ .write u k x) (hnone : ¬ Writes log t k)
    (hcommitted : committedStore (log ++ [o]) k = committedStore log k) : KeySpec (log ++ [o]) k := by
  cases h with
  | free hfree heq =>
      apply KeySpec.free
      · intro u hu
        rw [hwrites]
        exact hfree u ((hact u).mp hu).1
      · rw [replay_snoc, happly, hcommitted]
        exact heq
  | held t' pre v post hlog hactive hfirst hrest huniq heq =>
      have hw : Writes log t' k := ⟨v, by rw [hlog]; simp⟩
      have hne : t' ≠ t := by
        rintro rfl
        exact hnone hw
      refine KeySpec.held t' pre v (post ++ [o]) ?_ ((hact t').mpr ⟨hactive, hne⟩) hfirst ?_ ?_ ?_
      · rw [hlog, List.append_assoc, List.cons_append]
      · intro u x hmem
        rcases mem_snoc.mp hmem with hmem | hmem
        · exact hrest u x hmem
        · exact absurd hmem.symm (hnot u x)
      · intro u hu hw
        rw [hwrites] at hw
        exact huniq u ((hact u).mp hu).1 hw
      · rw [hcommitted]
        exact heq

theorem keySpec_commit (h : KeySpec log k) (hactive : Active log t) : KeySpec (log ++ [.commit t]) k := by
  have hwrites : ∀ u, Writes (log ++ [.commit t]) u k ↔ Writes log u k := fun u => writes_snoc_of_ne (by simp)
  by_cases hw : Writes log t k
  · -- the key gets its committed value
    cases h with
    | free hfree heq => exact absurd hw (hfree t hactive)
    | held t' pre v post hlog hactive' hfirst hrest huniq heq =>
        obtain rfl : t = t' := huniq t hactive hw
        apply KeySpec.free
        · intro u hu hw'
          obtain ⟨hu, hne⟩ := active_commit.mp hu
          exact hne (huniq u hu ((hwrites u).mp hw'))
        · rw [replay_snoc, committedStore_commit_self hlog hrest]
          rfl
  · exact h.ended (fun u => active_commit) hwrites rfl (by simp) hw (committedStore_commit_other hw)

theorem keySpec_abort (h : KeySpec log k) (hactive : Active log t) (hrestored : Restored log t) :
    KeySpec (log ++ [.abort t]) k := by
  have hwrites : ∀ u, Writes (log ++ [.abort t]) u k ↔ Writes log u k := fun u => writes_snoc_of_ne (by simp)
  have hcommitted := committedStore_snoc (o := .abort t) (by simp) hactive.not_committed
  by_cases hw : Writes log t k
  · -- the key is back to its committed value
    cases h with
    | free hfree heq => exact absurd hw (hfree t hactive)
    | held t' pre v post hlog hactive' hfirst hrest huniq heq =>
        obtain rfl : t = t' := huniq t hactive hw
        apply KeySpec.free
        · intro u hu hw'
          obtain ⟨hu, hne⟩ := active_abort.mp hu
          exact hne (huniq u hu ((hwrites u).mp hw'))
        · rw [replay_snoc, hcommitted, ← heq]
          exact hrestored pre k v post hlog hfirst
  · exact h.ended (fun u => active_abort) hwrites rfl (by simp) hw (congrFun hcommitted k)

/-- **What a strict log leaves at a key.** -/
theorem Strict.keySpec (h : Strict log) (k : κ) : KeySpec log k := by
  induction h with
  | nil =>
      apply KeySpec.free
      · rintro t - ⟨v, hv⟩
        cases hv
      · rfl
  | begin _ hnew ih => exact keySpec_begin ih hnew
  | write _ hactive j v hlock ih => exact keySpec_write ih hactive hlock
  | commit _ hactive ih => exact keySpec_commit ih hactive
  | abort _ hactive hrestored ih => exact keySpec_abort ih hactive hrestored

/-! ## Undo -/

/-- A write is taken back. -/
def undoOp (inverse : κ → Option ν → Option ν) (m : κ → Option ν) : Op τ κ ν → κ → Option ν
  | .write _ k v => Function.update m k (inverse k v)
  | .begin _ | .commit _ | .abort _ => m

/-- The writes of some transactions are taken back, the last one first. -/
def undoFrom (inverse : κ → Option ν → Option ν) (active : τ → Prop) [DecidablePred active] (m : κ → Option ν)
    (log : List (Op τ κ ν)) : κ → Option ν :=
  log.foldr (fun o m => if active o.txn then undoOp inverse m o else m) m

/-- Redo everything, then undo the unfinished transactions. -/
def undo (inverse : κ → Option ν → Option ν) (log : List (Op τ κ ν)) : κ → Option ν :=
  undoFrom inverse (Active log) (replay log) log

section Undo

variable {inverse : κ → Option ν → Option ν} {active : τ → Prop} [DecidablePred active] {m : κ → Option ν}

omit [DecidableEq τ] [DecidableEq ν] in
theorem undoFrom_snoc (inverse : κ → Option ν → Option ν) (m : κ → Option ν) (log : List (Op τ κ ν))
    (o : Op τ κ ν) : undoFrom inverse active m (log ++ [o]) =
      undoFrom inverse active (if active o.txn then undoOp inverse m o else m) log := List.foldr_append

omit [DecidableEq τ] [DecidableEq ν] in
/-- A key that none of the transactions has written. -/
theorem undoFrom_other (h : ∀ u x, .write u k x ∈ log → ¬ active u) : undoFrom inverse active m log k = m k := by
  induction log with
  | nil => rfl
  | cons o log ih =>
      have hrest := ih (fun u x hmem => h u x (List.mem_cons_of_mem _ hmem))
      show (if active o.txn then undoOp inverse (undoFrom inverse active m log) o
        else undoFrom inverse active m log) k = m k
      split
      · rename_i ho
        rw [← hrest]
        cases o with
        | write t j v =>
            apply Function.update_of_ne
            rintro rfl
            exact h t v List.mem_cons_self ho
        | begin | commit | abort => rfl
      · exact hrest

omit [DecidableEq τ] [DecidableEq ν] in
/-- The first write of a key is taken back last. -/
theorem undoFrom_first (hactive : active t) (hfirst : ∀ u x, .write u k x ∈ pre → ¬ active u) :
    undoFrom inverse active m (pre ++ .write t k v :: post) k = inverse k v := by
  rw [undoFrom, List.foldr_append]
  refine (undoFrom_other hfirst).trans ?_
  rw [List.foldr_cons, if_pos (show active (Op.write t k v : Op τ κ ν).txn from hactive)]
  exact Function.update_self ..

end Undo

omit [DecidableEq τ] [DecidableEq κ] [DecidableEq ν] in
/-- The first write of a transaction to a key is at one place. -/
theorem first_unique {pre' post' : List (Op τ κ ν)} {v' : Option ν} (h : ¬ Writes pre t k) (h' : ¬ Writes pre' t k)
    (heq : pre ++ .write t k v :: post = pre' ++ .write t k v' :: post') : pre = pre' ∧ v = v' := by
  induction pre generalizing pre' with
  | nil =>
      cases pre' with
      | nil => exact ⟨rfl, (Op.write.inj (List.cons.inj heq).1).2.2⟩
      | cons o pre' =>
          obtain ⟨rfl, -⟩ := List.cons.inj heq
          exact absurd ⟨v, List.mem_cons_self⟩ h'
  | cons o pre ih =>
      cases pre' with
      | nil =>
          obtain ⟨rfl, -⟩ := List.cons.inj heq
          exact absurd ⟨v', List.mem_cons_self⟩ h
      | cons o' pre' =>
          obtain ⟨rfl, htail⟩ := List.cons.inj heq
          obtain ⟨rfl, hv⟩ := ih (fun ⟨x, hx⟩ => h ⟨x, List.mem_cons_of_mem _ hx⟩)
            (fun ⟨x, hx⟩ => h' ⟨x, List.mem_cons_of_mem _ hx⟩) htail
          exact ⟨rfl, hv⟩

/-- Undo at a key that no unfinished transaction has written. -/
theorem undo_free (inverse : κ → Option ν → Option ν) (h : ∀ t, Active log t → ¬ Writes log t k) :
    undo inverse log k = replay log k :=
  undoFrom_other (fun u x hmem hu => h u hu ⟨x, hmem⟩)

/-- Undo at a key that an unfinished transaction has written. -/
theorem Exclusive.undo_held (h : Exclusive log) (inverse : κ → Option ν → Option ν)
    (hlog : log = pre ++ .write t k v :: post) (ht : Active log t) (hfirst : ¬ Writes pre t k) :
    undo inverse log k = inverse k v := by
  have hwt : Writes log t k := ⟨v, by rw [hlog]; simp⟩
  have hpre : ∀ u x, .write u k x ∈ pre → ¬ Active log u := by
    intro u x hmem hu
    have hwu : Writes log u k := ⟨x, by rw [hlog]; exact List.mem_append_left _ hmem⟩
    obtain rfl := h.unique ht hu hwt hwu
    exact hfirst ⟨x, hmem⟩
  have hundo : undoFrom inverse (Active log) (replay log) (pre ++ .write t k v :: post) k = inverse k v :=
    undoFrom_first ht hpre
  rwa [← hlog] at hundo

omit [DecidableEq τ] [DecidableEq κ] [DecidableEq ν] in
/-- What a log has in it, a longer one has. -/
theorem Writes.snoc (h : Writes log t k) : Writes (log ++ [o]) t k := by
  obtain ⟨v, hv⟩ := h
  exact ⟨v, List.mem_append_left _ hv⟩

/-- Another write of a key by the transaction that has it changes nothing for undo. -/
theorem Exclusive.undo_write (h : Exclusive log) (inverse : κ → Option ν → Option ν) (ht : Active log t)
    (hw : Writes log t k) (v : Option ν) : undo inverse (log ++ [.write t k v]) = undo inverse log := by
  have h' : Exclusive (log ++ [.write t k v]) := .snoc h ⟨ht, fun u hu hwu => h.unique hu ht hwu hw⟩
  funext j
  by_cases hheld : ∃ u, Active log u ∧ Writes log u j
  · obtain ⟨u, hu, hwu⟩ := hheld
    obtain ⟨pre, x, post, hlog, hfirst⟩ := hwu.first
    have hlog' : log ++ [.write t k v] = pre ++ .write u j x :: (post ++ [.write t k v]) := by
      rw [hlog, List.append_assoc, List.cons_append]
    rw [h.undo_held inverse hlog hu hfirst, h'.undo_held inverse hlog' (active_write.mpr hu) hfirst]
  · have hfree : ∀ u, Active log u → ¬ Writes log u j := fun u hu hwu => hheld ⟨u, hu, hwu⟩
    have hne : k ≠ j := by
      rintro rfl
      exact hfree t ht hw
    have hfree' : ∀ u, Active (log ++ [.write t k v]) u → ¬ Writes (log ++ [.write t k v]) u j := by
      intro u hu hwu
      rcases writes_of_snoc hwu with hwu | ⟨x, hx⟩
      · exact hfree u (active_write.mp hu) hwu
      · exact hne (Op.write.inj hx).2.1
    rw [undo_free inverse hfree, undo_free inverse hfree', replay_snoc]
    exact apply_other (fun u x hx => hne (Op.write.inj hx).2.1)

/-- The abort of a transaction whose writes have been taken back changes nothing for undo. -/
theorem Exclusive.undo_abort (h : Exclusive log) (inverse : κ → Option ν → Option ν) (ht : Active log t)
    (hback : ∀ pre k v post, log = pre ++ .write t k v :: post → ¬ Writes pre t k → replay log k = inverse k v) :
    undo inverse (log ++ [.abort t]) = undo inverse log := by
  have h' : Exclusive (log ++ [.abort t]) := .snoc h ht
  have hwrites : ∀ u j, Writes (log ++ [.abort t]) u j → Writes log u j := by
    intro u j hw
    rcases writes_of_snoc hw with hw | ⟨x, hx⟩
    · exact hw
    · cases hx
  funext j
  by_cases hheld : ∃ u, Active log u ∧ Writes log u j
  · obtain ⟨u, hu, hwu⟩ := hheld
    obtain ⟨pre, x, post, hlog, hfirst⟩ := hwu.first
    rw [h.undo_held inverse hlog hu hfirst]
    by_cases hut : u = t
    · subst hut
      have hfree' : ∀ s, Active (log ++ [.abort u]) s → ¬ Writes (log ++ [.abort u]) s j := by
        intro s hs hws
        obtain ⟨hs, hne⟩ := active_abort.mp hs
        exact hne (h.unique hs hu (hwrites s j hws) hwu)
      rw [undo_free inverse hfree', replay_snoc]
      exact hback pre j x post hlog hfirst
    · have hlog' : log ++ [.abort t] = pre ++ .write u j x :: (post ++ [.abort t]) := by
        rw [hlog, List.append_assoc, List.cons_append]
      exact h'.undo_held inverse hlog' (active_abort.mpr ⟨hu, hut⟩) hfirst
  · have hfree : ∀ u, Active log u → ¬ Writes log u j := fun u hu hwu => hheld ⟨u, hu, hwu⟩
    have hfree' : ∀ u, Active (log ++ [.abort t]) u → ¬ Writes (log ++ [.abort t]) u j :=
      fun u hu hwu => hfree u (active_abort.mp hu).1 (hwrites u j hwu)
    rw [undo_free inverse hfree, undo_free inverse hfree', replay_snoc]
    rfl

/-- The inverse is right at the first write of each unfinished transaction to each key. -/
def RightInverse (inverse : κ → Option ν → Option ν) (log : List (Op τ κ ν)) : Prop :=
  ∀ pre t k v post, log = pre ++ .write t k v :: post → Active log t → ¬ Writes pre t k →
    inverse k v = replay pre k

/-- **Undo.** Redoing a strict log and undoing its unfinished transactions gives the committed store if and only if
    the inverse is right where each of them first wrote each key. -/
theorem Strict.undo_eq_iff (h : Strict log) (inverse : κ → Option ν → Option ν) :
    undo inverse log = committedStore log ↔ RightInverse inverse log := by
  constructor
  · intro heq pre t k v post hlog hactive hfirst
    have hw : Writes log t k := ⟨v, by rw [hlog]; simp⟩
    cases h.keySpec k with
    | free hfree _ => exact absurd hw (hfree t hactive)
    | held t' pre' v' post' hlog' hactive' hfirst' hrest' huniq' heq' =>
        obtain rfl := huniq' t hactive hw
        obtain ⟨rfl, rfl⟩ := first_unique hfirst hfirst' (hlog.symm.trans hlog')
        rw [← h.exclusive.undo_held inverse hlog hactive hfirst, heq, heq']
  · intro hright
    funext k
    cases h.keySpec k with
    | free hfree heq =>
        rw [← heq]
        exact undo_free inverse hfree
    | held t pre v post hlog hactive hfirst hrest huniq heq =>
        rw [h.exclusive.undo_held inverse hlog hactive hfirst, ← heq]
        exact hright pre t k v post hlog hactive hfirst

end Strict

end Schedule
end DDBMS
