import DDBMS.Lib.Run
import DDBMS.Lib.Slots
import DDBMS.Storage.KVStoreRefine

/-!
# `Storage.KVStoreMap` — the store as a map

A map answers `get(k)` with the last `put(k, v)` that no `del(k)` follows (`lastPut`). The store answers so as
long as the value it finds for each key, in the memtable or in the oldest table that has the key, is that one.
Three kinds of calls break this: a `put` that spills a memtable whose value of some key differs from the one an
older table has, a `del` of a key of the memtable that an older table has too, and a `del` of a key whose
tombstone is in the memtable. `StepOk` excludes them, and in a run of such calls the store is a map
(`answers_like_map`). `stale_read` is a run without `del` that ends in a stale value.
-/

namespace DDBMS
namespace KVStore_beta

open SortedAssoc

/-- The value of the last `put(key, _)` not followed by a `del(key)`. -/
def lastPut (es : List Event) (key : Bytes) : Option Bytes :=
  es.foldl (fun r e => match e with
    | .put k v _ => if k = key then some v else r
    | .del k _ => if k = key then none else r
    | .get _ => r) none

/-- What a map returns for a call after the calls `es`. -/
def answer (es : List Event) : Event → Output
  | .put _ _ _ => .put
  | .get key => .get (lookupResult (lastPut es key))
  | .del key _ => .del (lastPut es key).isSome

/-- The outputs are those of a map. -/
def AnswersLikeMap (es : List Event) (outputs : List Output) : Prop :=
  outputs.length = es.length ∧
    ∀ pre e post, es = pre ++ e :: post → outputs[pre.length]? = some (answer pre e)

/-- The calls the interface asks for: keys and values of `put` are not empty. -/
def Event.Valid : Event → Prop
  | .put key value _ => key ≠ [] ∧ value ≠ []
  | _ => True

/-- A `put` that spills has a memtable that agrees with the older tables, and a file number left; a key that
    `del` finds in the memtable is no tombstone, and no table has a value for it. -/
def StepOk (snappy : Snappy) (w : World) : Event → Prop
  | .put key value ones => ∀ m, w.store.memtable_.put key value ones = some m →
      m.space > StorageOption.SSTABLE_SPACE →
      w.store.Agrees snappy m ∧ w.store.diskstorage_.no_.toNat + 1 < 2 ^ 64
  | .del key _ => ∀ v, w.store.memtable_.get key = some (true, v) →
      v ≠ [] ∧ ∀ v', w.store.search snappy key = some (true, v') → v' = []
  | .get _ => True

variable {snappy : Snappy}

theorem lastPut_snoc (es : List Event) (e : Event) (key : Bytes) :
    lastPut (es ++ [e]) key = match e with
      | .put k v _ => if k = key then some v else lastPut es key
      | .del k _ => if k = key then none else lastPut es key
      | .get _ => lastPut es key := by
  rw [lastPut, List.foldl_append]
  cases e <;> rfl

theorem AnswersLikeMap.snoc {es : List Event} {outputs : List Output} (h : AnswersLikeMap es outputs)
    (e : Event) : AnswersLikeMap (es ++ [e]) (outputs ++ [answer es e]) := by
  refine ⟨by simp [h.1], ?_⟩
  intro pre e' post heq
  rcases Slots.split_snoc heq with ⟨-, rfl, rfl⟩ | ⟨post', -, rfl⟩
  · rw [← h.1]
    simp
  · have hlt : pre.length < outputs.length := by rw [h.1]; simp
    rw [List.getElem?_append_left hlt]
    exact h.2 pre e' post' rfl

/-- The contents say what a map says. -/
def IsMap (c : Contents) (m : Bytes → Option Bytes) : Prop := ∀ key, visible (c.value key) = m key

section Steps

variable {c : Contents} {m : Bytes → Option Bytes}

theorem IsMap.put (h : IsMap c m) {key value : Bytes} (hv : value ≠ [])
    (hok : c.Spills key value → AgreesOn (SortedAssoc.put key value c.mem) c.ssts) :
    IsMap (c.put key value) (fun k => if key = k then some value else m k) := by
  have hmem : ∀ k, visible (((SortedAssoc.put key value c.mem).lookup k).or (firstHit c.ssts k)) =
      if key = k then some value else m k := by
    intro k
    by_cases hk : key = k
    · subst hk
      rw [lookup_put_self, Option.some_or, visible_some hv, if_pos rfl]
    · rw [lookup_put_ne (Ne.symm hk), if_neg hk]
      exact h k
  intro k
  by_cases hs : c.Spills key value
  · rw [Contents.put_of_spills hs, Contents.value, List.lookup_nil, Option.none_or,
      (hok hs).firstHit_append]
    exact hmem k
  · rw [Contents.put_of_not_spills hs]
    exact hmem k

theorem IsMap.del (h : IsMap c m) {key : Bytes}
    (hok : ∀ v, c.mem.lookup key = some v → v ≠ [] ∧ ∀ v', firstHit c.ssts key = some v' → v' = []) :
    IsMap (c.del key).1 (fun k => if key = k then none else m k) ∧ (c.del key).2 = (m key).isSome := by
  have hkey := h key
  unfold Contents.value at hkey
  unfold Contents.del
  cases hm : c.mem.lookup key with
  | some v =>
      -- in the memtable: erased, and nothing older shows
      obtain ⟨hv, hold⟩ := hok v hm
      rw [hm, Option.some_or, visible_some hv] at hkey
      rw [if_pos (Option.isSome_some), ← hkey]
      refine ⟨fun k => ?_, rfl⟩
      show visible (((erase key c.mem).lookup k).or (firstHit c.ssts k)) = if key = k then none else m k
      by_cases hk : key = k
      · subst hk
        rw [lookup_erase_self, Option.none_or, if_pos rfl]
        cases hf : firstHit c.ssts key with
        | none => rfl
        | some v' => rw [hold v' hf]; rfl
      · rw [lookup_erase_ne (Ne.symm hk), if_neg hk]
        exact h k
  | none =>
      rw [hm, Option.none_or] at hkey
      rw [if_neg (by simp), hkey]
      -- not in the memtable: a tombstone goes in if a table has the key
      by_cases hs : (m key).isSome = true
      · rw [if_pos hs, hs]
        refine ⟨fun k => ?_, rfl⟩
        show visible (((SortedAssoc.put key [] c.mem).lookup k).or (firstHit c.ssts k)) =
          if key = k then none else m k
        by_cases hk : key = k
        · subst hk
          rw [lookup_put_self, if_pos rfl]
          rfl
        · rw [lookup_put_ne (Ne.symm hk), if_neg hk]
          exact h k
      · have hnone : m key = none := by simpa using hs
        rw [if_neg hs]
        refine ⟨fun k => ?_, by rw [hnone]; rfl⟩
        show visible (c.value k) = if key = k then none else m k
        by_cases hk : key = k
        · subst hk
          rw [if_pos rfl, ← hnone]
          exact h key
        · rw [if_neg hk]
          exact h k

end Steps

/-- The invariant of a run: the store has contents that say what the map says, and answered like one. -/
def Inv (snappy : Snappy) (es : List Event) (w : World) : Prop :=
  (∃ c, Represents snappy w.store c ∧ IsMap c (lastPut es)) ∧ AnswersLikeMap es w.outputs

/-- **Step lemma.** -/
theorem inv_step (hinv : snappy.Inverts) {es : List Event} {w w' : World} {e : Event}
    (hI : Inv snappy es w) (hvalid : e.Valid)
    (hst : Guarded (StepOk snappy) (FunStep (next snappy)) w e w') : Inv snappy (es ++ [e]) w' := by
  obtain ⟨⟨c, hr, hmap⟩, hout⟩ := hI
  obtain ⟨hok, hst⟩ := hst
  cases e with
  | put key value ones =>
      obtain ⟨s', hput, rfl⟩ := put_of_next hst
      obtain ⟨m, hm, hholds⟩ := hr.memtable.put key value ones
      have hspill : c.Spills key value → AgreesOn (SortedAssoc.put key value c.mem) c.ssts ∧
          c.ssts.length + 1 < 2 ^ 64 := by
        intro hs
        obtain ⟨hag, hno⟩ := hok m hm (by rw [hholds.space]; exact hs)
        exact ⟨(hr.agrees_iff hinv hholds).mp hag, by rw [← hr.disk.no_eq]; exact hno⟩
      refine ⟨⟨_, hr.put (fun hs => (hspill hs).2) hput, ?_⟩, hout.snoc _⟩
      rw [funext (lastPut_snoc es (.put key value ones))]
      exact hmap.put hvalid.2 (fun hs => (hspill hs).1)
  | get key =>
      obtain ⟨r, hget, rfl⟩ := get_of_next hst
      rw [hr.get hinv, hmap key] at hget
      obtain rfl := Option.some.inj hget
      refine ⟨⟨c, hr, ?_⟩, hout.snoc (.get key)⟩
      rw [funext (lastPut_snoc es (.get key))]
      exact hmap
  | del key ones =>
      obtain ⟨s', b, hdel, rfl⟩ := del_of_next hst
      obtain ⟨t, ht, hrt⟩ := hr.del hinv key ones
      obtain ⟨rfl, rfl⟩ := Prod.mk.inj (Option.some.inj (hdel.symm.trans ht))
      have hok' : ∀ v, c.mem.lookup key = some v →
          v ≠ [] ∧ ∀ v', firstHit c.ssts key = some v' → v' = [] := by
        intro v hv
        obtain ⟨hne, hold⟩ := hok v (by rw [hr.memtable.get, hv]; rfl)
        exact ⟨hne, fun v' hv' => hold v' (by rw [hr.search hinv, hv']; rfl)⟩
      obtain ⟨hmap', hres⟩ := hmap.del hok'
      refine ⟨⟨_, hrt, ?_⟩, ?_⟩
      · rw [funext (lastPut_snoc es (.del key ones))]
        exact hmap'
      · rw [hres]
        exact hout.snoc (.del key ones)

/-! ## Building runs -/

section Build

variable {c : Contents} {w : World}

theorem next_put {g : Nat} (hr : Represents snappy w.store c) (hg : snappy.Grows g) (key value : Bytes)
    (ones : Nat) (hfit : Fits g (SortedAssoc.put key value c.mem)) (hroom : c.ssts.length + 1 < 2 ^ 64) :
    ∃ w', next snappy w (.put key value ones) = some w' ∧ Represents snappy w'.store (c.put key value) ∧
      w'.outputs = w.outputs ++ [.put] := by
  obtain ⟨s', hs'⟩ := hr.put_isSome hg key value ones hfit
  exact ⟨⟨s', w.outputs ++ [.put]⟩, by simp [next, call, hs'], hr.put (fun _ => hroom) hs', rfl⟩

theorem next_get (hr : Represents snappy w.store c) (hinv : snappy.Inverts) (key : Bytes) :
    ∃ w', next snappy w (.get key) = some w' ∧ w'.store = w.store ∧
      w'.outputs = w.outputs ++ [.get (lookupResult (visible (c.value key)))] :=
  ⟨⟨w.store, w.outputs ++ [.get (lookupResult (visible (c.value key)))]⟩,
    by simp [next, call, hr.get hinv], rfl, rfl⟩

theorem next_del (hr : Represents snappy w.store c) (hinv : snappy.Inverts) (key : Bytes) (ones : Nat) :
    ∃ w', next snappy w (.del key ones) = some w' ∧ Represents snappy w'.store (c.del key).1 ∧
      w'.outputs = w.outputs ++ [.del (c.del key).2] := by
  obtain ⟨s', hs', hr'⟩ := hr.del hinv key ones
  exact ⟨⟨s', w.outputs ++ [.del (c.del key).2]⟩, by simp [next, call, hs'], hr', rfl⟩

theorem stepOk_put (hr : Represents snappy w.store c) {key value : Bytes} (hsmall : ¬ c.Spills key value)
    (ones : Nat) : StepOk snappy w (.put key value ones) := by
  intro m hm hspace
  obtain ⟨m', hm', hholds⟩ := hr.memtable.put key value ones
  obtain rfl := Option.some.inj (hm.symm.trans hm')
  rw [hholds.space] at hspace
  exact absurd hspace hsmall

theorem stepOk_del (hr : Represents snappy w.store c) (hinv : snappy.Inverts) {key : Bytes}
    (hok : ∀ v, c.mem.lookup key = some v → v ≠ [] ∧ ∀ v', firstHit c.ssts key = some v' → v' = [])
    (ones : Nat) : StepOk snappy w (.del key ones) := by
  intro v hv
  rw [hr.memtable.get, Option.some.injEq, lookupResult_eq_true] at hv
  obtain ⟨hne, hold⟩ := hok v hv
  refine ⟨hne, fun v' hv' => hold v' ?_⟩
  rwa [hr.search hinv, Option.some.injEq, lookupResult_eq_true] at hv'

end Build

/-- **The store is a map**, in every run from an empty directory whose calls all meet `StepOk`. -/
theorem answers_like_map (hinv : snappy.Inverts) {s₀ : KVStore_beta} (hopen : KVStore_beta.new {} = some s₀)
    {es : List Event} (hvalid : ∀ e ∈ es, e.Valid) {w : World}
    (hrun : Run (Guarded (StepOk snappy) (FunStep (next snappy))) ⟨s₀, []⟩ es w) :
    AnswersLikeMap es w.outputs := by
  have hI : (∀ e ∈ es, e.Valid) → Inv snappy es w := by
    refine hrun.history (I := fun es w => (∀ e ∈ es, e.Valid) → Inv snappy es w) ?_ ?_
    · intro _
      refine ⟨⟨{}, represents_empty hopen, fun key => rfl⟩, rfl, ?_⟩
      intro pre e post heq
      exact absurd heq (by simp)
    · intro es w e w' ih hst hv
      exact inv_step hinv (ih (fun e he => hv e (List.mem_append_left _ he))) (hv e (by simp)) hst
  exact (hI hvalid).2

/-- Put a key, read it, delete it, read it again. -/
def putAndDelete : List Event := [.put [97] [49] 0, .get [97], .del [97] 1, .get [97]]

theorem answers_like_map_putAndDelete :
    ∃ s₀ w, KVStore_beta.new {} = some s₀ ∧
      Run (Guarded (StepOk SnappyLiterals.snappy) (FunStep (next SnappyLiterals.snappy))) ⟨s₀, []⟩
        putAndDelete w ∧ AnswersLikeMap putAndDelete w.outputs := by
  obtain ⟨s₀, hopen⟩ : ∃ s₀, KVStore_beta.new {} = some s₀ := ⟨_, rfl⟩
  have h₀ : Represents SnappyLiterals.snappy (⟨s₀, []⟩ : World).store {} := represents_empty hopen
  have hsmall : ¬ Contents.Spills {} [97] [49] := by decide
  obtain ⟨w₁, hw₁, h₁, -⟩ := next_put h₀ SnappyLiterals.grows [97] [49] 0 (by decide) (by decide)
  rw [Contents.put_of_not_spills hsmall] at h₁
  obtain ⟨w₂, hw₂, h₂, -⟩ := next_get h₁ SnappyLiterals.inverts [97]
  rw [← h₂] at h₁
  obtain ⟨w₃, hw₃, h₃, -⟩ := next_del h₁ SnappyLiterals.inverts [97] 1
  obtain ⟨w₄, hw₄, -, -⟩ := next_get h₃ SnappyLiterals.inverts [97]
  have hdel : StepOk SnappyLiterals.snappy w₂ (.del [97] 1) := by
    refine stepOk_del h₁ SnappyLiterals.inverts (fun v hv => ?_) 1
    obtain rfl : v = [49] := (Option.some.inj hv).symm
    exact ⟨by decide, fun v' hv' => (by cases hv')⟩
  have hrun : Run (Guarded (StepOk SnappyLiterals.snappy) (FunStep (next SnappyLiterals.snappy))) ⟨s₀, []⟩
      putAndDelete w₄ :=
    Run.cons ⟨stepOk_put h₀ hsmall 0, hw₁⟩ (Run.cons ⟨trivial, hw₂⟩
      (Run.cons ⟨hdel, hw₃⟩ (Run.single ⟨trivial, hw₄⟩)))
  refine ⟨s₀, w₄, hopen, hrun, answers_like_map SnappyLiterals.inverts hopen ?_ hrun⟩
  intro e he
  simp only [putAndDelete, List.mem_cons, List.not_mem_nil, or_false] at he
  rcases he with rfl | rfl | rfl | rfl
  · exact ⟨by decide, by decide⟩
  all_goals trivial

/-! ## A stale value -/

/-- A value that makes the memtable spill. -/
def bigValue (x : UInt8) : Bytes := List.replicate StorageOption.SSTABLE_SPACE x

theorem length_bigValue (x : UInt8) : (bigValue x).length = StorageOption.SSTABLE_SPACE :=
  List.length_replicate

theorem put_spills (ssts : List (List (Bytes × Bytes))) {X : Bytes}
    (hX : X.length = StorageOption.SSTABLE_SPACE) :
    (⟨[], ssts⟩ : Contents).put [97] X = ⟨[], ssts ++ [[([97], X)]]⟩ := by
  refine Contents.put_of_spills ?_
  show bytesOf [([97], X)] > _
  simp only [bytesOf_cons, bytesOf_nil, hX, List.length_cons, List.length_nil]
  omega

theorem fits_single {X : Bytes} (hX : X.length = StorageOption.SSTABLE_SPACE) : Fits 3 [([97], X)] := by
  have hspace : StorageOption.SSTABLE_SPACE = 2097152 := rfl
  have hmax : max_file = 2 ^ 63 - 1 := rfl
  unfold Fits
  rw [entriesCost_eq, hmax]
  simp only [bytesOf_cons, bytesOf_nil, hX, hspace, List.length_cons, List.length_nil]
  omega

/-- A key is put twice, each time with a value that spills the memtable, and read. -/
def putTwice (V W : Bytes) : List Event := [.put [97] V 0, .put [97] W 0, .get [97]]

/-- The read returns the first value. -/
theorem putTwice_outputs {V W : Bytes} (hV : V.length = StorageOption.SSTABLE_SPACE)
    (hW : W.length = StorageOption.SSTABLE_SPACE) {s₀ : KVStore_beta} (hopen : KVStore_beta.new {} = some s₀) :
    ∃ w, Run (FunStep (next SnappyLiterals.snappy)) ⟨s₀, []⟩ (putTwice V W) w ∧
      w.outputs = [.put, .put, .get (lookupResult (visible (some V)))] := by
  have h₀ : Represents SnappyLiterals.snappy (⟨s₀, []⟩ : World).store {} := represents_empty hopen
  obtain ⟨w₁, hw₁, h₁, ho₁⟩ := next_put h₀ SnappyLiterals.grows [97] V 0 (fits_single hV) (by decide)
  rw [put_spills [] hV] at h₁
  obtain ⟨w₂, hw₂, h₂, ho₂⟩ := next_put h₁ SnappyLiterals.grows [97] W 0 (fits_single hW) (by simp)
  rw [put_spills _ hW] at h₂
  obtain ⟨w₃, hw₃, -, ho₃⟩ := next_get h₂ SnappyLiterals.inverts [97]
  refine ⟨w₃, Run.cons hw₁ (Run.cons hw₂ (Run.single hw₃)), ?_⟩
  rw [ho₃, ho₂, ho₁]
  rfl

/-- **A stale read**: after two spilled puts of one key, `get` returns the older value. -/
theorem stale_read :
    ∃ s₀ w, KVStore_beta.new {} = some s₀ ∧ (∀ e ∈ putTwice (bigValue 1) (bigValue 2), e.Valid) ∧
      Run (FunStep (next SnappyLiterals.snappy)) ⟨s₀, []⟩ (putTwice (bigValue 1) (bigValue 2)) w ∧
      ¬ AnswersLikeMap (putTwice (bigValue 1) (bigValue 2)) w.outputs := by
  have hne : ∀ x, bigValue x ≠ [] := fun x h => by
    have := length_bigValue x
    rw [h] at this
    exact absurd this (by decide)
  have hdiff : bigValue 1 ≠ bigValue 2 := fun h => by
    have := congrArg List.head? h
    simp [bigValue, StorageOption.SSTABLE_SPACE] at this
  obtain ⟨s₀, hopen⟩ : ∃ s₀, KVStore_beta.new {} = some s₀ := ⟨_, rfl⟩
  obtain ⟨w, hrun, hout⟩ := putTwice_outputs (length_bigValue 1) (length_bigValue 2) hopen
  refine ⟨s₀, w, hopen, ?_, hrun, ?_⟩
  · intro e he
    simp only [putTwice, List.mem_cons, List.not_mem_nil, or_false] at he
    rcases he with rfl | rfl | rfl
    · exact ⟨by decide, hne 1⟩
    · exact ⟨by decide, hne 2⟩
    · trivial
  · rintro ⟨-, hget⟩
    have := hget [.put [97] (bigValue 1) 0, .put [97] (bigValue 2) 0] (.get [97]) [] rfl
    rw [hout] at this
    have heq : lookupResult (visible (some (bigValue 1))) = lookupResult (some (bigValue 2)) := by
      simpa [answer, lastPut] using this
    rw [visible_some (hne 1)] at heq
    exact hdiff (by simpa [lookupResult] using heq)

end KVStore_beta
end DDBMS
