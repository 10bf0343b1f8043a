import DDBMS.Storage.KVStoreMap

/-!
# `Storage.KVStoreReopen` — closing and opening a store

The destructor flushes the memtable into one more table; the store opened on the same directory finds it there,
as the newest table, behind all older ones. So a key reads as before exactly when no older table has another
value for it than the memtable had. `KVStore` flushes twice, which adds the same table twice and changes
nothing.
-/

namespace DDBMS
namespace KVStore_beta

variable {snappy : Snappy} {s : KVStore_beta} {c : Contents}

/-- A store opened on `dir` answers every `get` as `s` does. -/
def ReopensAs (snappy : Snappy) (dir : Dir) (s : KVStore_beta) : Prop :=
  ∃ s', new dir = some s' ∧ ∀ key, s'.get snappy key = s.get snappy key

/-- What a flushed store finds on disk. -/
theorem flush_firstHit (c : Contents) (key : Bytes) :
    firstHit c.flush.ssts key = (firstHit c.ssts key).or (c.mem.lookup key) := by
  unfold Contents.flush
  split
  · rename_i h
    rw [h, List.lookup_nil, Option.or_none]
  · exact firstHit_append c.ssts c.mem key

theorem flush_mem (c : Contents) : c.flush.mem = c.mem := by
  unfold Contents.flush
  split <;> rfl

theorem flush_length (c : Contents) : c.flush.ssts.length ≤ c.ssts.length + 1 := by
  unfold Contents.flush
  split <;> simp

/-- Opening the directory of `t`, whose tables have the value of the table or else of the memtable of `c`. -/
theorem reopensAs_iff {t : KVStore_beta} {d : Contents} (hinv : snappy.Inverts) (h : Represents snappy s c)
    (ht : Represents snappy t d)
    (hd : ∀ key, firstHit d.ssts key = (firstHit c.ssts key).or (c.mem.lookup key)) :
    ReopensAs snappy t.dir s ↔ s.Agrees snappy s.memtable_ := by
  obtain ⟨t', hopen, ht'⟩ := ht.new
  rw [h.agrees_iff hinv h.memtable, ← agreesOn_iff]
  have hget : ∀ key, t'.get snappy key = s.get snappy key ↔
      visible (firstHit (c.ssts ++ [c.mem]) key) = visible ((c.mem.lookup key).or (firstHit c.ssts key)) := by
    intro key
    rw [ht'.get hinv, h.get hinv, firstHit_append, ← hd key]
    show some (lookupResult (visible (firstHit d.ssts key))) = some (lookupResult (visible (c.value key))) ↔ _
    exact ⟨fun heq => lookupResult_inj (Option.some.inj heq), fun heq => by rw [heq]; rfl⟩
  constructor
  · rintro ⟨t'', hopen', hall⟩ key
    obtain rfl := Option.some.inj (hopen.symm.trans hopen')
    exact (hget key).mp (hall key)
  · exact fun hall => ⟨t', hopen, fun key => (hget key).mpr (hall key)⟩

/-- The destructor of `KVStore_beta`. -/
theorem destroy_iff (hinv : snappy.Inverts) (h : Represents snappy s c) (hroom : c.ssts.length + 1 < 2 ^ 64)
    {dir : Dir} (hd : s.destroy snappy = some dir) :
    ReopensAs snappy dir s ↔ s.Agrees snappy s.memtable_ := by
  obtain ⟨t, ht, hdir⟩ := Option.bind_eq_some_iff.mp hd
  obtain rfl := Option.some.inj hdir
  exact reopensAs_iff hinv h (h.flush hroom ht) (flush_firstHit c)

/-- The destructor of `KVStore`, which flushes first. -/
theorem destroyTwice_iff (hinv : snappy.Inverts) (h : Represents snappy s c)
    (hroom : c.ssts.length + 2 < 2 ^ 64) {dir : Dir} (hd : KVStore.destroy snappy s = some dir) :
    ReopensAs snappy dir s ↔ s.Agrees snappy s.memtable_ := by
  obtain ⟨t, ht, hd'⟩ := Option.bind_eq_some_iff.mp hd
  obtain ⟨u, hu, hdir⟩ := Option.bind_eq_some_iff.mp hd'
  obtain rfl := Option.some.inj hdir
  have hlen := flush_length c
  have h₁ := h.flush (by omega) ht
  refine reopensAs_iff hinv h (h₁.flush (by omega) hu) (fun key => ?_)
  rw [flush_firstHit, flush_firstHit, flush_mem]
  cases firstHit c.ssts key <;> cases c.mem.lookup key <;> rfl

/-- Closing succeeds unless the memtable is too big. -/
theorem destroy_isSome {g : Nat} (h : Represents snappy s c) (hg : snappy.Grows g) (hfit : Fits g c.mem) :
    ∃ dir, s.destroy snappy = some dir := by
  obtain ⟨d, dir, hd⟩ := DiskRepresents.add_isSome s.diskstorage_ s.dir h.memtable hg hfit
  unfold destroy flush
  split
  · exact ⟨s.dir, rfl⟩
  · exact ⟨dir, by simp [addTable, hd]⟩

/-- A reachable store has contents, with at most one table for each call. -/
theorem represents_of_run (hinv : snappy.Inverts) {s₀ : KVStore_beta} (hopen : new {} = some s₀)
    {es : List Event} {w : World} (hrun : Run (FunStep (next snappy)) ⟨s₀, []⟩ es w)
    (hlen : es.length < 2 ^ 64) : ∃ c, Represents snappy w.store c ∧ c.ssts.length ≤ es.length := by
  refine hrun.history (I := fun es w => es.length < 2 ^ 64 →
    ∃ c, Represents snappy w.store c ∧ c.ssts.length ≤ es.length) ?_ ?_ hlen
  · exact fun _ => ⟨{}, represents_empty hopen, le_refl _⟩
  · intro es w e w' ih hst hlt
    rw [List.length_append, List.length_singleton] at hlt ⊢
    obtain ⟨c, hr, hc⟩ := ih (by omega)
    obtain ⟨⟨s', o⟩, hcall, hw⟩ := Option.map_eq_some_iff.mp hst
    subst hw
    cases e with
    | put key value ones =>
        obtain ⟨s'', hput, hso⟩ := Option.map_eq_some_iff.mp hcall
        obtain ⟨rfl, -⟩ := Prod.mk.inj hso
        refine ⟨_, hr.put (fun _ => by omega) hput, ?_⟩
        unfold Contents.put
        split
        · simp only [List.length_append, List.length_singleton]
          omega
        · exact Nat.le_succ_of_le hc
    | get key =>
        obtain ⟨r, -, hso⟩ := Option.map_eq_some_iff.mp hcall
        obtain ⟨rfl, -⟩ := Prod.mk.inj hso
        exact ⟨c, hr, Nat.le_succ_of_le hc⟩
    | del key ones =>
        obtain ⟨⟨s'', b⟩, hdel, hso⟩ := Option.map_eq_some_iff.mp hcall
        obtain ⟨rfl, -⟩ := Prod.mk.inj hso
        obtain ⟨t, ht, hrt⟩ := hr.del hinv key ones
        obtain ⟨rfl, -⟩ := Prod.mk.inj (Option.some.inj (hdel.symm.trans ht))
        refine ⟨_, hrt, ?_⟩
        unfold Contents.del
        split
        · exact Nat.le_succ_of_le hc
        · split <;> exact Nat.le_succ_of_le hc

/-- **Close and reopen.** In every reachable state, for both kinds of store: the store opened on the directory
    that the destructor leaves answers every `get` as before if and only if every key of the memtable that some
    table has is there with the same value. -/
theorem reopen_get_iff (hinv : snappy.Inverts) {s₀ : KVStore_beta} (hopen : new {} = some s₀)
    {es : List Event} (hlen : es.length + 2 < 2 ^ 64) {w : World}
    (hrun : Run (FunStep (next snappy)) ⟨s₀, []⟩ es w) :
    (∀ dir, w.store.destroy snappy = some dir →
      (ReopensAs snappy dir w.store ↔ w.store.Agrees snappy w.store.memtable_)) ∧
    ∀ dir, KVStore.destroy snappy w.store = some dir →
      (ReopensAs snappy dir w.store ↔ w.store.Agrees snappy w.store.memtable_) := by
  obtain ⟨c, hr, hc⟩ := represents_of_run hinv hopen hrun (by omega)
  exact ⟨fun dir hd => destroy_iff hinv hr (by omega) hd,
    fun dir hd => destroyTwice_iff hinv hr (by omega) hd⟩

/-- A value that spills, and two keys that stay in the memtable. -/
def putBigThenOthers : List Event := [.put [97] (bigValue 1) 0, .put [98] [49] 0, .put [99] [50] 0]

/-- Closing after them loses nothing. -/
theorem reopen_get_iff_putBigThenOthers :
    ∃ s₀ w dir, new {} = some s₀ ∧ Run (FunStep (next SnappyLiterals.snappy)) ⟨s₀, []⟩ putBigThenOthers w ∧
      w.store.destroy SnappyLiterals.snappy = some dir ∧
      ReopensAs SnappyLiterals.snappy dir w.store := by
  obtain ⟨s₀, hopen⟩ : ∃ s₀, KVStore_beta.new {} = some s₀ := ⟨_, rfl⟩
  have h₀ : Represents SnappyLiterals.snappy (⟨s₀, []⟩ : World).store {} := represents_empty hopen
  obtain ⟨w₁, hw₁, h₁, -⟩ := next_put h₀ SnappyLiterals.grows [97] (bigValue 1) 0
    (fits_single (length_bigValue 1)) (by decide)
  rw [put_spills [] (length_bigValue 1)] at h₁
  obtain ⟨w₂, hw₂, h₂, -⟩ := next_put h₁ SnappyLiterals.grows [98] [49] 0 (by decide) (by simp)
  rw [Contents.put_of_not_spills (by decide)] at h₂
  obtain ⟨w₃, hw₃, h₃, -⟩ := next_put h₂ SnappyLiterals.grows [99] [50] 0 (by decide) (by simp)
  rw [Contents.put_of_not_spills (by decide)] at h₃
  obtain ⟨dir, hdir⟩ := destroy_isSome h₃ SnappyLiterals.grows (by decide)
  have hrun : Run (FunStep (next SnappyLiterals.snappy)) ⟨s₀, []⟩ putBigThenOthers w₃ :=
    Run.cons hw₁ (Run.cons hw₂ (Run.single hw₃))
  refine ⟨s₀, w₃, dir, hopen, hrun, hdir, ?_⟩
  rw [(reopen_get_iff SnappyLiterals.inverts hopen (by decide) hrun).1 dir hdir,
    h₃.agrees_iff SnappyLiterals.inverts h₃.memtable]
  -- the table has one key, and the memtable does not have it
  intro key v v' hm hf
  by_cases hkey : key = [97]
  · subst hkey
    cases hm
  · have hother : (key == [97]) = false := by simpa using hkey
    simp [firstHit, List.lookup_cons, hother] at hf

/-- One key, first with a value that spills, then with a small one that stays in the memtable. -/
def putBigThenSmall : List Event := [.put [97] (bigValue 1) 0, .put [97] [49] 0]

/-- **Reopening goes back**: the store is closed while the memtable holds the newer value. -/
theorem reopen_goes_back :
    ∃ s₀ w dir, new {} = some s₀ ∧ Run (FunStep (next SnappyLiterals.snappy)) ⟨s₀, []⟩ putBigThenSmall w ∧
      w.store.destroy SnappyLiterals.snappy = some dir ∧
      ¬ ReopensAs SnappyLiterals.snappy dir w.store := by
  obtain ⟨s₀, hopen⟩ : ∃ s₀, KVStore_beta.new {} = some s₀ := ⟨_, rfl⟩
  have h₀ : Represents SnappyLiterals.snappy (⟨s₀, []⟩ : World).store {} := represents_empty hopen
  obtain ⟨w₁, hw₁, h₁, -⟩ := next_put h₀ SnappyLiterals.grows [97] (bigValue 1) 0
    (fits_single (length_bigValue 1)) (by decide)
  rw [put_spills [] (length_bigValue 1)] at h₁
  obtain ⟨w₂, hw₂, h₂, -⟩ := next_put h₁ SnappyLiterals.grows [97] [49] 0 (by decide) (by simp)
  rw [Contents.put_of_not_spills (by decide)] at h₂
  obtain ⟨dir, hdir⟩ := destroy_isSome h₂ SnappyLiterals.grows (by decide)
  refine ⟨s₀, w₂, dir, hopen, Run.cons hw₁ (Run.single hw₂), hdir, ?_⟩
  rw [destroy_iff SnappyLiterals.inverts h₂ (by simp) hdir, h₂.agrees_iff SnappyLiterals.inverts h₂.memtable]
  intro hag
  have hbig := hag [97] [49] (bigValue 1) rfl rfl
  have hlen := length_bigValue 1
  rw [hbig] at hlen
  exact absurd hlen (by decide)

end KVStore_beta
end DDBMS
