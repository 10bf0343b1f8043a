import DDBMS.Storage.KVStoreDel
import DDBMS.Storage.KVStoreMap

/-!
# `Storage.MemtableBound` — how big the memtable gets

A `KVStore` has the calls of `KVStore_beta` (`using KVStore_beta::put`, `using KVStore_beta::del`) besides its own. A
`put` of either kind ends in `KVStore_beta::put`, which empties the memtable once it is larger than `SSTABLE_SPACE`. A
`del` of either kind writes a tombstone for a key that is only on disk, and nothing looks at the size then: the bound
holds as long as there is room for the keys of the tombstones (`RoomForTombstone`).
-/

namespace DDBMS

open SortedAssoc

/-! ## Bytes -/

/-- A new pair adds its bytes, an overwritten one takes some away. -/
theorem bytesOf_put_le (key value : Bytes) (es : List (Bytes × Bytes)) :
    bytesOf (put key value es) ≤ bytesOf es + key.length + value.length := by
  induction es with
  | nil => simp [put]
  | cons e es ih =>
      rw [put]
      split
      · simp only [bytesOf_cons]
        omega
      · split
        · simp only [bytesOf_cons]
          omega
        · simp only [bytesOf_cons]
          omega

theorem bytesOf_put_new {key : Bytes} (value : Bytes) {es : List (Bytes × Bytes)} (h : es.lookup key = none) :
    bytesOf (put key value es) = bytesOf es + key.length + value.length := by
  induction es with
  | nil => simp [put]
  | cons e es ih =>
      have hne : e.1 ≠ key := by
        rintro rfl
        simp at h
      have hrest : es.lookup key = none := by
        rw [List.lookup_cons] at h
        split at h
        · cases h
        · exact h
      rw [put, if_neg hne]
      split
      · simp only [bytesOf_cons, ih hrest]
        omega
      · simp only [bytesOf_cons]
        omega

theorem bytesOf_erase_le (key : Bytes) (es : List (Bytes × Bytes)) : bytesOf (erase key es) ≤ bytesOf es := by
  induction es with
  | nil => simp [erase]
  | cons e es ih =>
      rw [erase] at ih
      rw [erase, List.filter_cons]
      split
      · rw [bytesOf_cons, bytesOf_cons]
        omega
      · rw [bytesOf_cons]
        omega

/-! ## Calls on the memtable -/

/-- The memtable is a proper one and within the bound. -/
def SkipList.Bounded (m : SkipList) : Prop := ∃ es, m.Holds es ∧ bytesOf es ≤ StorageOption.SSTABLE_SPACE

theorem SkipList.Bounded.space {m : SkipList} (h : m.Bounded) : m.space ≤ StorageOption.SSTABLE_SPACE := by
  obtain ⟨es, hholds, hle⟩ := h
  rwa [hholds.space]

theorem SkipList.bounded_clear (m : SkipList) : m.clear.Bounded := ⟨[], Holds.clear m, Nat.zero_le _⟩

/-- There is room for a tombstone of the key. -/
def RoomForTombstone (s : KVStore_beta) (key : Bytes) : Prop :=
  s.memtable_.space + key.length ≤ StorageOption.SSTABLE_SPACE

variable {snappy : Snappy} {s s' : KVStore_beta} {key value : Bytes} {ones : Nat}

theorem SkipList.Bounded.tombstone {m : SkipList} (h : s.memtable_.Bounded) (hroom : RoomForTombstone s key)
    (hput : s.memtable_.put key [] ones = some m) : m.Bounded := by
  obtain ⟨es, hholds, -⟩ := h
  obtain ⟨m', hput', hholds'⟩ := hholds.put key [] ones
  obtain rfl := Option.some.inj (hput.symm.trans hput')
  have hle := bytesOf_put_le key [] es
  rw [RoomForTombstone, hholds.space] at hroom
  exact ⟨_, hholds', hle.trans (by simpa using hroom)⟩

theorem SkipList.Bounded.del {m m' : SkipList} {b : Bool} (h : m.Bounded) (hdel : m.del key = some (m', b)) :
    m'.Bounded := by
  obtain ⟨es, hholds, hle⟩ := h
  obtain ⟨m₁, hdel₁, hholds₁⟩ := hholds.del key
  obtain ⟨rfl, -⟩ := Prod.mk.inj (Option.some.inj (hdel.symm.trans hdel₁))
  exact ⟨_, hholds₁, (bytesOf_erase_le key es).trans hle⟩

namespace KVStore_beta

/-- `put` looks at the size. -/
theorem put_bounded (h : s.memtable_.Bounded) (hput : s.put snappy key value ones = some s') :
    s'.memtable_.Bounded := by
  obtain ⟨es, hholds, -⟩ := h
  obtain ⟨m, hm, hholds'⟩ := hholds.put key value ones
  simp only [KVStore_beta.put, hm, Option.bind_eq_bind, Option.bind_some, hholds'.space] at hput
  split at hput
  · obtain ⟨t, -, hs'⟩ := Option.bind_eq_some_iff.mp hput
    obtain rfl := Option.some.inj hs'
    exact SkipList.bounded_clear _
  · rename_i hle
    obtain rfl := Option.some.inj hput
    exact ⟨_, hholds', not_lt.mp hle⟩

/-- `del` does not. -/
theorem del_bounded {b : Bool} (h : s.memtable_.Bounded)
    (hroom : ∀ v, KVStore.found snappy s key = some (some (false, v)) → RoomForTombstone s key)
    (hdel : s.del snappy key ones = some (s', b)) : s'.memtable_.Bounded := by
  obtain ⟨contained, hcontains, hdel⟩ := Option.bind_eq_some_iff.mp hdel
  cases contained with
  | true =>
      obtain ⟨⟨m, b'⟩, hm, hres⟩ := Option.bind_eq_some_iff.mp hdel
      obtain ⟨rfl, -⟩ := Prod.mk.inj (Option.some.inj hres)
      exact h.del hm
  | false =>
      obtain ⟨result, hsearch, hdel⟩ := Option.bind_eq_some_iff.mp hdel
      split at hdel
      · rename_i hhit
        obtain ⟨m, hm, hres⟩ := Option.bind_eq_some_iff.mp hdel
        obtain ⟨rfl, -⟩ := Prod.mk.inj (Option.some.inj hres)
        have hfound : KVStore.found snappy s key = some (some (false, result.2)) := by
          simp only [KVStore.found, hcontains, Option.bind_eq_bind, Option.bind_some, Bool.false_eq_true, if_false,
            hsearch, if_pos hhit]
        exact h.tombstone (hroom _ hfound) hm
      · obtain ⟨rfl, -⟩ := Prod.mk.inj (Option.some.inj hdel)
        exact h

end KVStore_beta

/-! ## Runs -/

namespace KVStore

/-- A call of the base class, or a step of a logged call. -/
inductive MixedEvent where
  | plain (e : KVStore_beta.Event)
  | logged (e : Event)

/-- A plain call waits for `mutex_`. The history of LSNs is about logged calls alone. -/
def mixedNext (snappy : Snappy) (w : World) : MixedEvent → Option World
  | .plain e => if w.mutex_ = none then (w.store.call snappy e).map fun r => { w with store := r.1 } else none
  | .logged e => next snappy w e

/-- A step that writes a tombstone finds room for it. -/
def TombstonesFit (snappy : Snappy) (w : World) : MixedEvent → Prop
  | .plain (.del key _) => ∀ v, found snappy w.store key = some (some (false, v)) → RoomForTombstone w.store key
  | .logged (.store t _) => ∀ key lsn, w.calls t = .delStore key false lsn → RoomForTombstone w.store key
  | .plain _ | .logged _ => True

variable {w w' : World} {e : MixedEvent}

/-- What a step leaves of the bound. -/
theorem mixedNext_bounded (h : w.store.memtable_.Bounded) (hok : TombstonesFit snappy w e)
    (hstep : mixedNext snappy w e = some w') : w'.store.memtable_.Bounded := by
  cases e with
  | plain e =>
      rw [mixedNext] at hstep
      split at hstep
      · obtain ⟨⟨s, o⟩, hcall, rfl⟩ := Option.map_eq_some_iff.mp hstep
        cases e with
        | put key value ones =>
            obtain ⟨u, hput, hu⟩ := Option.map_eq_some_iff.mp hcall
            obtain ⟨rfl, -⟩ := Prod.mk.inj hu
            exact KVStore_beta.put_bounded h hput
        | get key =>
            obtain ⟨r, -, hu⟩ := Option.map_eq_some_iff.mp hcall
            obtain ⟨rfl, -⟩ := Prod.mk.inj hu
            exact h
        | del key ones =>
            obtain ⟨⟨u, b⟩, hdel, hu⟩ := Option.map_eq_some_iff.mp hcall
            obtain ⟨rfl, -⟩ := Prod.mk.inj hu
            exact KVStore_beta.del_bounded h hok hdel
      · cases hstep
  | logged e =>
      cases next_cases hstep with
      | log => exact h
      | put => rwa [afterPutLog_store]
      | absent => exact h
      | del => rwa [afterDelLog_store]
      | wakePut => rwa [afterPutLog_store]
      | wakeDel => rwa [afterDelLog_store]
      | storePut hcall hmem hstore =>
          rw [noteSpill_store]
          exact KVStore_beta.put_bounded h hstore
      | storeDelMem hcall hmem => exact h.del hmem
      | storeDelDisk hcall hmem => exact h.tombstone (hok _ _ hcall) hmem

/-- **The memtable stays bounded** in every run of plain and logged calls whose tombstones find room. -/
theorem memtable_bounded {dir : Dir} {store : KVStore_beta} (hopen : KVStore_beta.new dir = some store)
    {log : LogManager.World} {txns : Nat → Transaction} {es : List MixedEvent}
    (hrun : Run (Guarded (TombstonesFit snappy) (FunStep (mixedNext snappy))) (World.init log store txns) es w) :
    w.store.memtable_.space ≤ StorageOption.SSTABLE_SPACE := by
  have hstart : (World.init log store txns).store.memtable_.Bounded := by
    obtain ⟨d, -, hstore⟩ := Option.bind_eq_some_iff.mp hopen
    obtain rfl := Option.some.inj hstore
    exact ⟨[], SkipList.holds_init _ 1, Nat.zero_le _⟩
  exact (Run.invariant (I := fun w : World => w.store.memtable_.Bounded)
    (fun u e v h hstep => mixedNext_bounded h hstep.1 hstep.2) hrun hstart).space

/-! ## A tombstone too many -/

theorem plain_put {c : Contents} {g : Nat} (h : Represents snappy w.store c) (hmutex : w.mutex_ = none)
    (hg : snappy.Grows g) (hfit : Fits g (SortedAssoc.put key value c.mem)) (hroom : c.ssts.length + 1 < 2 ^ 64)
    (ones : Nat) : ∃ w', mixedNext snappy w (.plain (.put key value ones)) = some w' ∧
      Represents snappy w'.store (c.put key value) ∧ w'.mutex_ = none := by
  obtain ⟨s', hs'⟩ := h.put_isSome hg key value ones hfit
  refine ⟨{ w with store := s' }, ?_, h.put (fun _ => hroom) hs', hmutex⟩
  simp [mixedNext, hmutex, KVStore_beta.call, hs']

theorem plain_del {c : Contents} (h : Represents snappy w.store c) (hmutex : w.mutex_ = none)
    (hinv : snappy.Inverts) (key : Bytes) (ones : Nat) :
    ∃ w', mixedNext snappy w (.plain (.del key ones)) = some w' ∧ Represents snappy w'.store (c.del key).1 := by
  obtain ⟨s', hs', h'⟩ := h.del hinv key ones
  refine ⟨{ w with store := s' }, ?_, h'⟩
  simp [mixedNext, hmutex, KVStore_beta.call, hs']

section Overflow

variable {V W : Bytes}

/-- A key that is only in the table. -/
theorem del_tombstone (hV : V.length = StorageOption.SSTABLE_SPACE) {es : List (Bytes × Bytes)}
    (h : es.lookup [97] = none) : ((⟨es, [[([97], V)]]⟩ : Contents).del [97]).1.mem = put [97] [] es := by
  have hne : V ≠ [] := by
    rintro rfl
    exact absurd hV (by decide)
  have hhit : firstHit [[([97], V)]] [97] = some V := rfl
  simp [Contents.del, h, hhit, visible_some hne]

/-- The first put spills the memtable, so the key is in a table. -/
theorem exists_spilled_plain (hV : V.length = StorageOption.SSTABLE_SPACE) : ∃ store w, KVStore_beta.new {} = some store ∧
    mixedNext SnappyLiterals.snappy (start store) (.plain (.put [97] V 0)) = some w ∧
    Represents SnappyLiterals.snappy w.store ⟨[], [[([97], V)]]⟩ ∧ w.mutex_ = none := by
  obtain ⟨store, hopen⟩ : ∃ store, KVStore_beta.new {} = some store := ⟨_, rfl⟩
  have h₀ : Represents SnappyLiterals.snappy (start store).store {} := represents_empty hopen
  obtain ⟨w, hw, h, hmutex⟩ := plain_put h₀ rfl SnappyLiterals.grows (KVStore_beta.fits_single hV) (by decide) 0
  rw [KVStore_beta.put_spills [] hV] at h
  exact ⟨store, w, hopen, hw, h, hmutex⟩

/-- Behind a full memtable, a key of a table is deleted. -/
def fillAndDelete (V W : Bytes) : List MixedEvent :=
  [.plain (.put [97] V 0), .plain (.put [98] W 0), .plain (.del [97] 0)]

theorem fillAndDelete_space (hV : V.length = StorageOption.SSTABLE_SPACE) (hW : W.length + 1 = StorageOption.SSTABLE_SPACE) :
    ∃ store w, KVStore_beta.new {} = some store ∧
      Run (FunStep (mixedNext SnappyLiterals.snappy)) (start store) (fillAndDelete V W) w ∧
      w.store.memtable_.space = StorageOption.SSTABLE_SPACE + 1 := by
  obtain ⟨store, w₁, hopen, hput₁, h₁, hmutex₁⟩ := exists_spilled_plain hV
  have hput : put ([98] : Bytes) W [] = [([98], W)] := rfl
  have hbytes : bytesOf [([98], W)] = StorageOption.SSTABLE_SPACE := by
    rw [bytesOf_cons, bytesOf_nil, List.length_singleton, ← hW]
    exact Nat.add_comm 1 W.length
  have hfits : Fits 3 (put ([98] : Bytes) W []) := by
    have hspace : StorageOption.SSTABLE_SPACE = 2097152 := rfl
    have hmax : max_file = 2 ^ 63 - 1 := rfl
    unfold Fits
    rw [hput, entriesCost_eq, hmax, hbytes, hspace, List.length_singleton]
    omega
  obtain ⟨w₂, hput₂, h₂, hmutex₂⟩ := plain_put h₁ hmutex₁ SnappyLiterals.grows hfits (by simp) 0
  have hroom : ¬ (⟨[], [[([97], V)]]⟩ : Contents).Spills [98] W := by
    rw [Contents.Spills, hput, hbytes]
    exact lt_irrefl _
  rw [Contents.put_of_not_spills hroom] at h₂
  obtain ⟨w₃, hdel, h₃⟩ := plain_del h₂ hmutex₂ SnappyLiterals.inverts [97] 0
  refine ⟨store, w₃, hopen, .cons hput₁ (.cons hput₂ (.single hdel)), ?_⟩
  have habsent : [([98], W)].lookup ([97] : Bytes) = none := rfl
  rw [h₃.memtable.space]
  change bytesOf ((⟨[([98], W)], [[([97], V)]]⟩ : Contents).del [97]).1.mem = _
  rw [del_tombstone hV habsent, bytesOf_put_new [] habsent, hbytes, List.length_singleton]
  rfl

end Overflow

/-- The tombstone of a key of a table goes into an empty memtable. -/
theorem memtable_bounded_tombstone : ∃ store w, KVStore_beta.new {} = some store ∧
    Run (Guarded (TombstonesFit SnappyLiterals.snappy) (FunStep (mixedNext SnappyLiterals.snappy))) (start store)
      [.plain (.put [97] (KVStore_beta.bigValue 1) 0), .plain (.del [97] 0)] w ∧
    w.store.memtable_.space ≤ StorageOption.SSTABLE_SPACE := by
  obtain ⟨store, w₁, hopen, hput, h₁, hmutex⟩ := exists_spilled_plain (KVStore_beta.length_bigValue 1)
  obtain ⟨w₂, hdel, -⟩ := plain_del h₁ hmutex SnappyLiterals.inverts [97] 0
  have hfit : TombstonesFit SnappyLiterals.snappy w₁ (.plain (.del [97] 0)) := by
    intro v _
    rw [RoomForTombstone, h₁.memtable.space]
    show 0 + 1 ≤ StorageOption.SSTABLE_SPACE
    decide
  have hrun : Run (Guarded (TombstonesFit SnappyLiterals.snappy) (FunStep (mixedNext SnappyLiterals.snappy)))
      (start store) [.plain (.put [97] (KVStore_beta.bigValue 1) 0), .plain (.del [97] 0)] w₂ :=
    .cons ⟨show True from trivial, hput⟩ (.single ⟨hfit, hdel⟩)
  exact ⟨store, w₂, hopen, hrun, memtable_bounded hopen hrun⟩

/-- **The tombstone goes over the bound.** -/
theorem memtable_overflows : ∃ store w, KVStore_beta.new {} = some store ∧
    Run (FunStep (mixedNext SnappyLiterals.snappy)) (start store)
      (fillAndDelete (KVStore_beta.bigValue 1) (List.replicate (StorageOption.SSTABLE_SPACE - 1) 2)) w ∧
    ¬ w.store.memtable_.space ≤ StorageOption.SSTABLE_SPACE := by
  have hW : (List.replicate (StorageOption.SSTABLE_SPACE - 1) (2 : UInt8)).length + 1 = StorageOption.SSTABLE_SPACE := by
    rw [List.length_replicate]
    decide
  obtain ⟨store, w, hopen, hrun, hspace⟩ := fillAndDelete_space (KVStore_beta.length_bigValue 1) hW
  exact ⟨store, w, hopen, hrun, by rw [hspace]; exact Nat.not_succ_le_self _⟩

end KVStore
end DDBMS
