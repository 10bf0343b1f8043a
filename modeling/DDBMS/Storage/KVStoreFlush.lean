import DDBMS.Storage.KVStoreMap

/-!
# `Storage.KVStoreFlush` — explicit flushes

Two stores take the same calls, and one of them is flushed in between (`Together`). `flush` writes the memtable to disk
and keeps it, so nobody sees a difference at once: the memtables stay equal and both stores answer every `get` alike
(`Twin`). What an earlier flush left on disk shows later, when the key leaves the memtable: `del` of a key of the memtable
uncovers what is below it, and so does a `put` that spills. `TwinsOk` asks that the tables of the two stores answer alike
there; `Twin.del_iff` and `Twin.put_iff` say that nothing less will do.
-/

namespace DDBMS

open SortedAssoc

/-! ## Contents -/

/-- The same memtable, and the same answer to every `get`. -/
structure Twin (c d : Contents) : Prop where
  mem : c.mem = d.mem
  value : ∀ key, visible (c.value key) = visible (d.value key)

variable {c d : Contents} {key value : Bytes}

/-- **A flush** is not seen. -/
theorem Twin.flush (h : Twin c d) : Twin c.flush d := by
  unfold Contents.flush
  split
  · exact h
  · refine ⟨h.mem, ?_⟩
    intro key
    rw [← h.value key]
    -- the new table only has keys of the memtable
    cases hl : c.mem.lookup key with
    | some v => simp [Contents.value, hl]
    | none => simp [Contents.value, firstHit_append, hl]

/-- What both stores find below a key that is not in the memtable. -/
theorem Twin.below (h : Twin c d) (hkey : c.mem.lookup key = none) :
    visible (firstHit c.ssts key) = visible (firstHit d.ssts key) := by
  have hvalue := h.value key
  rwa [Contents.value, Contents.value, ← h.mem, hkey, Option.none_or, Option.none_or] at hvalue

/-- A pair in the memtable hides what is below it in both stores. -/
theorem Twin.put_mem (h : Twin c d) (key value : Bytes) : Twin { c with mem := SortedAssoc.put key value c.mem }
    { d with mem := SortedAssoc.put key value c.mem } := by
  refine ⟨rfl, ?_⟩
  intro k
  show visible (((SortedAssoc.put key value c.mem).lookup k).or (firstHit c.ssts k)) =
    visible (((SortedAssoc.put key value c.mem).lookup k).or (firstHit d.ssts k))
  by_cases hkey : k = key
  · subst hkey
    rw [lookup_put_self, Option.some_or, Option.some_or]
  · rw [lookup_put_ne hkey]
    have hvalue := h.value k
    rwa [Contents.value, Contents.value, ← h.mem] at hvalue

/-- **A put** is seen alike, unless it spills a memtable with a key that the tables of the two stores answer differently. -/
theorem Twin.put_iff (h : Twin c d) : Twin (c.put key value) (d.put key value) ↔
    (c.Spills key value → ∀ k v, (SortedAssoc.put key value c.mem).lookup k = some v →
      visible ((firstHit c.ssts k).or (some v)) = visible ((firstHit d.ssts k).or (some v))) := by
  have hspills : d.Spills key value ↔ c.Spills key value := by rw [Contents.Spills, Contents.Spills, h.mem]
  by_cases hs : c.Spills key value
  · rw [Contents.put_of_spills hs, Contents.put_of_spills (hspills.mpr hs), ← h.mem]
    constructor
    · intro htwin _ k v hk
      have hvalue := htwin.value k
      rwa [Contents.value, Contents.value, firstHit_append, firstHit_append, hk] at hvalue
    · intro hbelow
      refine ⟨rfl, ?_⟩
      intro k
      rw [Contents.value, Contents.value, firstHit_append, firstHit_append, List.lookup_nil, Option.none_or,
        Option.none_or]
      cases hk : (SortedAssoc.put key value c.mem).lookup k with
      | some v => exact hbelow hs k v hk
      | none =>
          have hne : k ≠ key := by
            rintro rfl
            rw [lookup_put_self] at hk
            cases hk
          rw [lookup_put_ne hne] at hk
          rw [Option.or_none, Option.or_none]
          exact h.below hk
  · rw [Contents.put_of_not_spills hs, Contents.put_of_not_spills (fun hd => hs (hspills.mp hd)), ← h.mem]
    exact ⟨fun _ hs' => absurd hs' hs, fun _ => h.put_mem key value⟩

/-- **A `del`** returns the same, and the memtables stay the same. -/
theorem Twin.del_eq (h : Twin c d) (key : Bytes) :
    (c.del key).2 = (d.del key).2 ∧ (c.del key).1.mem = (d.del key).1.mem := by
  unfold Contents.del
  rw [← h.mem]
  cases hk : c.mem.lookup key with
  | some v => exact ⟨rfl, rfl⟩
  | none =>
      have hnone : ¬ (none : Option Bytes).isSome = true := Bool.false_ne_true
      rw [if_neg hnone, if_neg hnone, h.below hk]
      split
      · exact ⟨rfl, rfl⟩
      · exact ⟨rfl, h.mem⟩

theorem Twin.put_mem_eq (h : Twin c d) (key value : Bytes) : (c.put key value).mem = (d.put key value).mem := by
  unfold Contents.put
  rw [h.mem]
  split <;> rfl

theorem Contents.del_ssts (c : Contents) (key : Bytes) : (c.del key).1.ssts = c.ssts := by
  unfold Contents.del
  split
  · rfl
  · split <;> rfl

/-- It is seen alike, unless it takes a key off the memtable that the tables of the two stores answer differently. -/
theorem Twin.del_iff (h : Twin c d) : Twin (c.del key).1 (d.del key).1 ↔
    ((c.mem.lookup key).isSome → visible (firstHit c.ssts key) = visible (firstHit d.ssts key)) := by
  unfold Contents.del
  rw [← h.mem]
  by_cases hk : (c.mem.lookup key).isSome = true
  · rw [if_pos hk, if_pos hk]
    -- both memtables lose the key, so what is below shows
    have hvalue : ∀ (e : Contents) k, (⟨erase key c.mem, e.ssts⟩ : Contents).value k =
        if key = k then firstHit e.ssts k else (c.mem.lookup k).or (firstHit e.ssts k) := by
      intro e k
      show ((erase key c.mem).lookup k).or (firstHit e.ssts k) = _
      by_cases hkey : key = k
      · subst hkey
        rw [lookup_erase_self, Option.none_or, if_pos rfl]
      · rw [lookup_erase_ne (Ne.symm hkey), if_neg hkey]
    constructor
    · intro htwin _
      have := htwin.value key
      rwa [hvalue c, hvalue d, if_pos rfl, if_pos rfl] at this
    · intro hbelow
      refine ⟨rfl, ?_⟩
      intro k
      rw [hvalue c, hvalue d]
      split
      · rename_i hkey
        exact hkey ▸ hbelow hk
      · have := h.value k
        rwa [Contents.value, Contents.value, ← h.mem] at this
  · rw [if_neg hk, if_neg hk, h.below (Option.not_isSome_iff_eq_none.mp hk)]
    refine ⟨fun _ hk' => absurd hk' hk, fun _ => ?_⟩
    split
    · exact h.put_mem key []
    · exact h

/-! ## Stores -/

namespace KVStore_beta

/-- A call, with the height draw of the store that is not flushed; or a flush of the other one. -/
inductive TwinEvent where
  | call (e : Event) (ones : Nat)
  | flush
  deriving Repr

/-- The same call with another height draw. -/
def Event.redraw (ones : Nat) : Event → Event
  | .put key value _ => .put key value ones
  | .get key => .get key
  | .del key _ => .del key ones

/-- The two stores. -/
structure Twins where
  flushed : World
  plain : World

/-- Both stores take a call, or the first one is flushed. -/
inductive Together (snappy : Snappy) : Twins → TwinEvent → Twins → Prop
  | call {t : Twins} {e : Event} {ones : Nat} {w w' : World} (hw : next snappy t.flushed e = some w)
      (hw' : next snappy t.plain (e.redraw ones) = some w') : Together snappy t (.call e ones) ⟨w, w'⟩
  | flush {t : Twins} {s : KVStore_beta} (hs : t.flushed.store.flush snappy = some s) :
      Together snappy t .flush { t with flushed := { t.flushed with store := s } }

/-- What `get` makes of a search result. -/
def shown (r : Bool × Bytes) : Bool × Bytes := if r.1 = true ∧ r.2 ≠ [] then r else (false, [])

/-- The next file number does not wrap around. -/
def Room (s : KVStore_beta) : Prop := s.diskstorage_.no_.toNat + 1 < 2 ^ 64

/-- When a key leaves the memtable, by `del` or because `put` spills it, the tables of both stores answer it alike. -/
def TwinsOk (snappy : Snappy) (t : Twins) : TwinEvent → Prop
  | .call (.put key value ones) _ => ∀ m, t.flushed.store.memtable_.put key value ones = some m →
      m.space > StorageOption.SSTABLE_SPACE → Room t.flushed.store ∧
      ∀ k v, m.get k = some (true, v) → ∀ r r', t.flushed.store.search snappy k = some r →
        t.plain.store.search snappy k = some r' →
        shown (if r.1 then r else (true, v)) = shown (if r'.1 then r' else (true, v))
  | .call (.del key _) _ => ∀ v, t.flushed.store.memtable_.get key = some (true, v) →
      ∀ r r', t.flushed.store.search snappy key = some r → t.plain.store.search snappy key = some r' →
        shown r = shown r'
  | .call (.get _) _ => True
  | .flush => Room t.flushed.store

variable {snappy : Snappy} {t t' : Twins} {e : TwinEvent}

theorem shown_lookupResult (o : Option Bytes) : shown (lookupResult o) = lookupResult (visible o) := by
  apply Option.some.inj
  rw [← visible_result, shown]
  split <;> rfl

theorem lookupResult_or (o : Option Bytes) (v : Bytes) :
    (if (lookupResult o).1 then lookupResult o else (true, v)) = lookupResult (o.or (some v)) := by
  cases o <;> rfl

/-- The two stores stand for contents that readers cannot tell apart, and have answered alike. -/
structure Alike (snappy : Snappy) (t : Twins) (c d : Contents) : Prop where
  flushed : Represents snappy t.flushed.store c
  plain : Represents snappy t.plain.store d
  twin : Twin c d
  fewer : d.ssts.length ≤ c.ssts.length
  outputs : t.flushed.outputs = t.plain.outputs

/-- `TwinsOk` of a `put`, in terms of contents. -/
theorem Alike.put_ok_iff (h : Alike snappy t c d) (hinv : snappy.Inverts) (key value : Bytes) (ones ones' : Nat) :
    TwinsOk snappy t (.call (.put key value ones) ones') ↔ (c.Spills key value → Room t.flushed.store ∧
      ∀ k v, (SortedAssoc.put key value c.mem).lookup k = some v →
        visible ((firstHit c.ssts k).or (some v)) = visible ((firstHit d.ssts k).or (some v))) := by
  obtain ⟨m, hm, hholds⟩ := h.flushed.memtable.put key value ones
  have hvisible : ∀ k v, (∀ r r', t.flushed.store.search snappy k = some r → t.plain.store.search snappy k = some r' →
      shown (if r.1 then r else (true, v)) = shown (if r'.1 then r' else (true, v))) ↔
      visible ((firstHit c.ssts k).or (some v)) = visible ((firstHit d.ssts k).or (some v)) := by
    intro k v
    rw [h.flushed.search hinv, h.plain.search hinv]
    constructor
    · intro hshown
      have heq := hshown _ _ rfl rfl
      rw [lookupResult_or, lookupResult_or, shown_lookupResult, shown_lookupResult] at heq
      exact lookupResult_inj heq
    · rintro heq r r' hr hr'
      obtain rfl := Option.some.inj hr
      obtain rfl := Option.some.inj hr'
      rw [lookupResult_or, lookupResult_or, shown_lookupResult, shown_lookupResult, heq]
  constructor
  · intro hok hspills
    obtain ⟨hroom, hbelow⟩ := hok m hm (by rw [hholds.space]; exact hspills)
    refine ⟨hroom, ?_⟩
    intro k v hk
    exact (hvisible k v).mp (hbelow k v (by rw [hholds.get, hk]; rfl))
  · intro hok m' hm' hspace
    obtain rfl := Option.some.inj (hm.symm.trans hm')
    obtain ⟨hroom, hbelow⟩ := hok (by rw [hholds.space] at hspace; exact hspace)
    refine ⟨hroom, ?_⟩
    intro k v hk
    rw [hholds.get, Option.some.injEq, lookupResult_eq_true] at hk
    exact (hvisible k v).mpr (hbelow k v hk)

/-- `TwinsOk` of a `del`, in terms of contents. -/
theorem Alike.del_ok_iff (h : Alike snappy t c d) (hinv : snappy.Inverts) (key : Bytes) (ones ones' : Nat) :
    TwinsOk snappy t (.call (.del key ones) ones') ↔
      ((c.mem.lookup key).isSome → visible (firstHit c.ssts key) = visible (firstHit d.ssts key)) := by
  constructor
  · intro hok hsome
    obtain ⟨v, hv⟩ := Option.isSome_iff_exists.mp hsome
    have heq := hok v (by rw [h.flushed.memtable.get, hv]; rfl) _ _ (h.flushed.search hinv key)
      (h.plain.search hinv key)
    rw [shown_lookupResult, shown_lookupResult] at heq
    exact lookupResult_inj heq
  · intro hok v hv r r' hr hr'
    rw [h.flushed.memtable.get, Option.some.injEq, lookupResult_eq_true] at hv
    rw [h.flushed.search hinv, Option.some.injEq] at hr
    rw [h.plain.search hinv, Option.some.injEq] at hr'
    rw [← hr, ← hr', shown_lookupResult, shown_lookupResult, hok (by rw [hv]; rfl)]

/-- **One step.** -/
theorem Alike.step (hinv : snappy.Inverts) (h : Alike snappy t c d)
    (hstep : Guarded (TwinsOk snappy) (Together snappy) t e t') : ∃ c' d', Alike snappy t' c' d' := by
  obtain ⟨hok, hstep⟩ := hstep
  have hfewer := h.fewer
  have hno := h.flushed.disk.no_eq
  cases hstep with
  | flush hs =>
      -- only the contents of the first store move down
      have hroom : t.flushed.store.diskstorage_.no_.toNat + 1 < 2 ^ 64 := hok
      refine ⟨c.flush, d, h.flushed.flush (by omega) hs, h.plain, h.twin.flush, ?_, h.outputs⟩
      unfold Contents.flush
      split
      · exact hfewer
      · rw [List.length_append]
        omega
  | @call e ones w w' hw hw' =>
      cases e with
      | put key value ones₁ =>
          obtain ⟨u, hput, rfl⟩ := put_of_next hw
          obtain ⟨u', hput', rfl⟩ := put_of_next hw'
          have hput_ok := (h.put_ok_iff hinv key value ones₁ ones).mp hok
          have hroom : c.Spills key value → c.ssts.length + 1 < 2 ^ 64 := fun hs => hno ▸ (hput_ok hs).1
          have hspills : d.Spills key value → c.Spills key value := by
            rw [Contents.Spills, Contents.Spills, h.twin.mem]
            exact id
          refine ⟨c.put key value, d.put key value, h.flushed.put hroom hput,
            h.plain.put (fun hs => by have := hroom (hspills hs); omega) hput',
            h.twin.put_iff.mpr (fun hs => (hput_ok hs).2), ?_, by rw [h.outputs]⟩
          unfold Contents.put
          rw [h.twin.mem]
          split
          · simpa using hfewer
          · exact hfewer
      | get key =>
          obtain ⟨r, hget, rfl⟩ := get_of_next hw
          obtain ⟨r', hget', rfl⟩ := get_of_next hw'
          -- both read the same contents
          rw [h.flushed.get hinv, h.twin.value] at hget
          rw [h.plain.get hinv] at hget'
          obtain rfl := Option.some.inj (hget.symm.trans hget')
          exact ⟨c, d, h.flushed, h.plain, h.twin, hfewer, by rw [h.outputs]⟩
      | del key ones₁ =>
          obtain ⟨u, b, hdel, rfl⟩ := del_of_next hw
          obtain ⟨u', b', hdel', rfl⟩ := del_of_next hw'
          obtain ⟨v, hv, hrepr⟩ := h.flushed.del hinv key ones₁
          obtain ⟨v', hv', hrepr'⟩ := h.plain.del hinv key ones
          obtain ⟨rfl, rfl⟩ := Prod.mk.inj (Option.some.inj (hdel.symm.trans hv))
          obtain ⟨rfl, rfl⟩ := Prod.mk.inj (Option.some.inj (hdel'.symm.trans hv'))
          have hdel_ok := (h.del_ok_iff hinv key ones₁ ones).mp hok
          refine ⟨(c.del key).1, (d.del key).1, hrepr, hrepr', h.twin.del_iff.mpr hdel_ok, ?_,
            by rw [h.outputs, (h.twin.del_eq key).1]⟩
          rw [Contents.del_ssts, Contents.del_ssts]
          exact hfewer

/-- **Nothing less will do**: after a call that does not meet `TwinsOk`, some `get` tells the two stores apart. -/
theorem Alike.ok_of_gets (hinv : snappy.Inverts) (h : Alike snappy t c d) (hstep : Together snappy t e t')
    (hroom : Room t.flushed.store)
    (hgets : ∀ key, t'.flushed.store.get snappy key = t'.plain.store.get snappy key) : TwinsOk snappy t e := by
  have hfewer := h.fewer
  have hno := h.flushed.disk.no_eq
  have hroom' : t.flushed.store.diskstorage_.no_.toNat + 1 < 2 ^ 64 := hroom
  -- equal answers are equal visible values
  have hvalue : ∀ {c' d'}, Represents snappy t'.flushed.store c' → Represents snappy t'.plain.store d' →
      ∀ key, visible (c'.value key) = visible (d'.value key) := by
    intro c' d' hc hd key
    have hget := hgets key
    rw [hc.get hinv, hd.get hinv, Option.some.injEq] at hget
    exact lookupResult_inj hget
  cases hstep with
  | flush => exact hroom
  | @call e ones w w' hw hw' =>
      cases e with
      | put key value ones₁ =>
          obtain ⟨u, hput, rfl⟩ := put_of_next hw
          obtain ⟨u', hput', rfl⟩ := put_of_next hw'
          have hc := h.flushed.put (fun _ => by omega) hput
          have hd := h.plain.put (fun _ => by omega) hput'
          apply (h.put_ok_iff hinv key value ones₁ ones).mpr
          intro hspills
          exact ⟨hroom, h.twin.put_iff.mp ⟨h.twin.put_mem_eq key value, hvalue hc hd⟩ hspills⟩
      | get key => trivial
      | del key ones₁ =>
          obtain ⟨u, b, hdel, rfl⟩ := del_of_next hw
          obtain ⟨u', b', hdel', rfl⟩ := del_of_next hw'
          obtain ⟨v, hv, hc⟩ := h.flushed.del hinv key ones₁
          obtain ⟨v', hv', hd⟩ := h.plain.del hinv key ones
          obtain ⟨rfl, rfl⟩ := Prod.mk.inj (Option.some.inj (hdel.symm.trans hv))
          obtain ⟨rfl, rfl⟩ := Prod.mk.inj (Option.some.inj (hdel'.symm.trans hv'))
          apply (h.del_ok_iff hinv key ones₁ ones).mpr
          exact h.twin.del_iff.mp ⟨(h.twin.del_eq key).2, hvalue hc hd⟩

/-! ## A deleted key that is read again -/

section Build

theorem next_flush {w : World} (h : Represents snappy w.store c) {g : Nat} (hg : snappy.Grows g) (hfit : Fits g c.mem)
    (hroom : c.ssts.length + 1 < 2 ^ 64) :
    ∃ s, w.store.flush snappy = some s ∧ Represents snappy s c.flush := by
  obtain ⟨s, hs⟩ : ∃ s, w.store.flush snappy = some s := by
    unfold KVStore_beta.flush
    split
    · exact ⟨_, rfl⟩
    · obtain ⟨disk, dir, hdisk⟩ :=
        DiskRepresents.add_isSome w.store.diskstorage_ w.store.dir h.memtable hg hfit
      simp only [KVStore_beta.addTable, hdisk, Option.bind_eq_bind, Option.bind_some]
      exact ⟨_, rfl⟩
  exact ⟨s, hs, h.flush hroom hs⟩

end Build

/-- A key is put, and one of the stores flushed. -/
theorem putAndFlush {s₀ : KVStore_beta} (hopen : KVStore_beta.new {} = some s₀) :
    ∃ t, Run (Guarded (TwinsOk SnappyLiterals.snappy) (Together SnappyLiterals.snappy)) ⟨⟨s₀, []⟩, ⟨s₀, []⟩⟩
        [.call (.put [97] [49] 0) 1, .flush] t ∧
      Alike SnappyLiterals.snappy t ⟨[([97], [49])], [[([97], [49])]]⟩ ⟨[([97], [49])], []⟩ ∧
      t.plain.outputs = [.put] := by
  have hempty : Represents SnappyLiterals.snappy (⟨s₀, []⟩ : World).store {} := represents_empty hopen
  have hsmall : ¬ Contents.Spills {} [97] [49] := by decide
  obtain ⟨w, hw, h, ho⟩ := next_put hempty SnappyLiterals.grows [97] [49] 0 (by decide) (by decide)
  obtain ⟨w', hw', h', ho'⟩ := next_put hempty SnappyLiterals.grows [97] [49] 1 (by decide) (by decide)
  rw [Contents.put_of_not_spills hsmall] at h h'
  obtain ⟨s, hs, hflushed⟩ := next_flush h SnappyLiterals.grows (by decide) (by decide)
  have hstart : Alike SnappyLiterals.snappy ⟨⟨s₀, []⟩, ⟨s₀, []⟩⟩ {} {} :=
    ⟨hempty, hempty, ⟨rfl, fun _ => rfl⟩, le_refl _, rfl⟩
  have hput : TwinsOk SnappyLiterals.snappy ⟨⟨s₀, []⟩, ⟨s₀, []⟩⟩ (.call (.put [97] [49] 0) 1) :=
    (hstart.put_ok_iff SnappyLiterals.inverts [97] [49] 0 1).mpr (fun hs => absurd hs hsmall)
  have hroom : Room w.store := by
    rw [Room, h.disk.no_eq]
    decide
  have htwin : Twin ⟨[([97], [49])], []⟩ ⟨[([97], [49])], []⟩ := ⟨rfl, fun _ => rfl⟩
  refine ⟨⟨{ w with store := s }, w'⟩, ?_, ?_, ho'⟩
  · have hfirst : Guarded (TwinsOk SnappyLiterals.snappy) (Together SnappyLiterals.snappy) ⟨⟨s₀, []⟩, ⟨s₀, []⟩⟩
        (.call (.put [97] [49] 0) 1) ⟨w, w'⟩ := ⟨hput, .call hw hw'⟩
    exact (Run.single hfirst).tail ⟨hroom, .flush hs⟩
  · exact ⟨hflushed, h', htwin.flush, by decide, by rw [ho, ho']⟩

end KVStore_beta
end DDBMS
