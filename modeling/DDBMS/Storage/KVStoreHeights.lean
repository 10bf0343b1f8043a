import DDBMS.Storage.KVStoreMap
import DDBMS.Storage.TableFormat

/-!
# `Storage.KVStoreHeights` — the heights of the memtable

`SkipList::put` draws the height of a new node from a random engine. Two stores that differ in the nodes of their memtables only
(`Same`) answer every call the same, and write the same files, byte for byte: `Same` is a simulation of the calls. So neither a
client nor the directory tells which heights were drawn (`heights_hidden`).
-/

namespace DDBMS

/-- A table depends on the contents of the memtable. -/
theorem LevelZero.add_congr {snappy : Snappy} {m m' : SkipList} {es : List (Bytes × Bytes)} (hm : m.Holds es)
    (hm' : m'.Holds es) (l : LevelZero) (dir : Dir) (no : UInt64) : l.add snappy dir m' no = l.add snappy dir m no := by
  unfold LevelZero.add
  rw [TableBuilder.create_sstable_eq hm, TableBuilder.create_sstable_eq hm', hm.size, hm'.size]

theorem DiskStorage.add_congr {snappy : Snappy} {m m' : SkipList} {es : List (Bytes × Bytes)} (hm : m.Holds es)
    (hm' : m'.Holds es) (d : DiskStorage) (dir : Dir) : d.add snappy dir m' = d.add snappy dir m := by
  unfold DiskStorage.add
  rw [LevelZero.add_congr hm hm']

namespace KVStore_beta

/-- The stores are the same, but for the nodes of the memtables. -/
structure Same (s t : KVStore_beta) : Prop where
  mem : ∃ es, s.memtable_.Holds es ∧ t.memtable_.Holds es
  diskstorage_ : t.diskstorage_ = s.diskstorage_
  dir : t.dir = s.dir

variable {snappy : Snappy} {s s' t u : KVStore_beta} {m m' : SkipList} {es : List (Bytes × Bytes)} {key value : Bytes} {b : Bool}

theorem Same.refl (h : s.memtable_.Holds es) : Same s s := ⟨⟨es, h, h⟩, rfl, rfl⟩

theorem Same.symm (h : Same s t) : Same t s := by
  obtain ⟨es, hs, ht⟩ := h.mem
  exact ⟨⟨es, ht, hs⟩, h.diskstorage_.symm, h.dir.symm⟩

theorem Same.trans (h : Same s t) (h' : Same t u) : Same s u := by
  obtain ⟨es, hs, ht⟩ := h.mem
  obtain ⟨fs, ht', hu⟩ := h'.mem
  obtain rfl : es = fs := ht.eq_of_samePairs ht' fun _ _ => Iff.rfl
  exact ⟨⟨es, hs, hu⟩, h'.diskstorage_.trans h.diskstorage_, h'.dir.trans h.dir⟩

/-- A store that has just been opened. -/
theorem same_new {dir : Dir} (hopen : KVStore_beta.new dir = some s) : Same s s := by
  obtain ⟨⟨d, dir'⟩, -, hs⟩ := Option.bind_eq_some_iff.mp hopen
  obtain rfl := Option.some.inj hs
  exact Same.refl (SkipList.holds_init _ 1)

/-! ## The calls -/

theorem Same.search (h : Same s t) (key : Bytes) : t.search snappy key = s.search snappy key := by
  unfold KVStore_beta.search
  rw [h.diskstorage_, h.dir]

theorem Same.get (h : Same s t) (key : Bytes) : t.get snappy key = s.get snappy key := by
  obtain ⟨es, hs, ht⟩ := h.mem
  unfold KVStore_beta.get
  rw [ht.contains, hs.contains, ht.get, hs.get, h.search]

/-- A spill. -/
theorem Same.addTable (h : Same s t) (hm : m.Holds es) (hm' : m'.Holds es) (hadd : s.addTable snappy m = some s') :
    ∃ t', t.addTable snappy m' = some t' ∧ Same s' t' := by
  obtain ⟨⟨d, dir⟩, hd, hs'⟩ := Option.bind_eq_some_iff.mp hadd
  obtain rfl := Option.some.inj hs'
  refine ⟨⟨m', d, dir⟩, ?_, ⟨es, hm, hm'⟩, rfl, rfl⟩
  unfold KVStore_beta.addTable
  rw [DiskStorage.add_congr hm hm', h.diskstorage_, h.dir, hd]
  rfl

/-- Another memtable. -/
theorem Same.setMem (h : Same s t) (hm : m.Holds es) (hm' : m'.Holds es) :
    Same { s with memtable_ := m } { t with memtable_ := m' } := ⟨⟨es, hm, hm'⟩, h.diskstorage_, h.dir⟩

theorem Same.put (h : Same s t) {ones : Nat} (ones' : Nat) (hput : s.put snappy key value ones = some s') :
    ∃ t', t.put snappy key value ones' = some t' ∧ Same s' t' := by
  obtain ⟨es, hs, ht⟩ := h.mem
  obtain ⟨m, hm, hholds⟩ := hs.put key value ones
  obtain ⟨m', hm', hholds'⟩ := ht.put key value ones'
  simp only [KVStore_beta.put, hm, hm', Option.bind_eq_bind, Option.bind_some, hholds.space, hholds'.space] at hput ⊢
  split at hput
  · rename_i hspace
    obtain ⟨u, hu, hs'⟩ := Option.bind_eq_some_iff.mp hput
    obtain rfl := Option.some.inj hs'
    obtain ⟨v, hv, hsame⟩ := h.addTable hholds hholds' hu
    rw [if_pos hspace, hv]
    exact ⟨_, rfl, hsame.setMem (SkipList.Holds.clear _) (SkipList.Holds.clear _)⟩
  · rename_i hspace
    obtain rfl := Option.some.inj hput
    rw [if_neg hspace]
    exact ⟨_, rfl, h.setMem hholds hholds'⟩

theorem Same.del (h : Same s t) {ones : Nat} (ones' : Nat) (hdel : s.del snappy key ones = some (s', b)) :
    ∃ t', t.del snappy key ones' = some (t', b) ∧ Same s' t' := by
  obtain ⟨es, hs, ht⟩ := h.mem
  simp only [KVStore_beta.del, hs.contains, ht.contains, h.search, Option.bind_eq_bind, Option.bind_some] at hdel ⊢
  split at hdel
  · -- the key is in the memtable
    rename_i hkey
    obtain ⟨m, hm, hholds⟩ := hs.del key
    obtain ⟨m', hm', hholds'⟩ := ht.del key
    rw [hm, Option.bind_some] at hdel
    obtain ⟨rfl, rfl⟩ := Prod.mk.inj (Option.some.inj hdel)
    rw [if_pos hkey, hm']
    exact ⟨_, rfl, h.setMem hholds hholds'⟩
  · rename_i hkey
    rw [if_neg hkey]
    obtain ⟨result, hresult, hdel⟩ := Option.bind_eq_some_iff.mp hdel
    rw [hresult, Option.bind_some]
    split at hdel
    · -- a tombstone
      rename_i hvalue
      obtain ⟨m, hm, hholds⟩ := hs.put key [] ones
      obtain ⟨m', hm', hholds'⟩ := ht.put key [] ones'
      rw [hm, Option.bind_some] at hdel
      obtain ⟨rfl, rfl⟩ := Prod.mk.inj (Option.some.inj hdel)
      rw [if_pos hvalue, hm']
      exact ⟨_, rfl, h.setMem hholds hholds'⟩
    · rename_i hvalue
      obtain ⟨rfl, rfl⟩ := Prod.mk.inj (Option.some.inj hdel)
      rw [if_neg hvalue]
      exact ⟨t, rfl, h⟩

theorem Same.flush (h : Same s t) (hflush : s.flush snappy = some s') : ∃ t', t.flush snappy = some t' ∧ Same s' t' := by
  obtain ⟨es, hs, ht⟩ := h.mem
  unfold KVStore_beta.flush at hflush ⊢
  rw [hs.empty] at hflush
  rw [ht.empty]
  split at hflush
  · rename_i hempty
    obtain rfl := Option.some.inj hflush
    rw [if_pos hempty]
    exact ⟨t, rfl, h⟩
  · rename_i hempty
    rw [if_neg hempty]
    exact h.addTable hs ht hflush

/-- The destructor leaves the same directory. -/
theorem Same.destroy (h : Same s t) {dir : Dir} (hdestroy : s.destroy snappy = some dir) : t.destroy snappy = some dir := by
  obtain ⟨s', hflush, hdir⟩ := Option.bind_eq_some_iff.mp hdestroy
  obtain rfl := Option.some.inj hdir
  obtain ⟨t', ht', hsame⟩ := h.flush hflush
  unfold KVStore_beta.destroy
  rw [ht', ← hsame.dir]
  rfl

/-! ## Runs -/

/-- The call, without the height draw. -/
def Event.plain : Event → Event
  | .put key value _ => .put key value 0
  | .get key => .get key
  | .del key _ => .del key 0

/-- **One call.** -/
theorem Same.call {e f : Event} {o : Output} (h : Same s t) (hplain : e.plain = f.plain)
    (hcall : s.call snappy e = some (s', o)) : ∃ t', t.call snappy f = some (t', o) ∧ Same s' t' := by
  cases e with
  | put key value ones =>
      cases f with
      | put key' value' ones' =>
          obtain ⟨rfl, rfl, -⟩ := Event.put.inj hplain
          obtain ⟨u, hput, hu⟩ := Option.map_eq_some_iff.mp hcall
          obtain ⟨rfl, rfl⟩ := Prod.mk.inj hu
          obtain ⟨t', ht', hsame⟩ := h.put ones' hput
          exact ⟨t', Option.map_eq_some_iff.mpr ⟨t', ht', rfl⟩, hsame⟩
      | get | del => cases hplain
  | get key =>
      cases f with
      | get key' =>
          obtain rfl := Event.get.inj hplain
          obtain ⟨r, hget, hu⟩ := Option.map_eq_some_iff.mp hcall
          obtain ⟨rfl, rfl⟩ := Prod.mk.inj hu
          exact ⟨t, Option.map_eq_some_iff.mpr ⟨r, (h.get key).trans hget, rfl⟩, h⟩
      | put | del => cases hplain
  | del key ones =>
      cases f with
      | del key' ones' =>
          obtain ⟨rfl, -⟩ := Event.del.inj hplain
          obtain ⟨⟨u, b⟩, hdel, hu⟩ := Option.map_eq_some_iff.mp hcall
          obtain ⟨rfl, rfl⟩ := Prod.mk.inj hu
          obtain ⟨t', ht', hsame⟩ := h.del ones' hdel
          exact ⟨t', Option.map_eq_some_iff.mpr ⟨(t', b), ht', rfl⟩, hsame⟩
      | put | get => cases hplain

/-- **Step lemma.** -/
theorem same_step {w w' v : World} {e f : Event} (h : Same w.store v.store) (hout : v.outputs = w.outputs)
    (hplain : e.plain = f.plain) (hst : next snappy w e = some w') :
    ∃ v', next snappy v f = some v' ∧ Same w'.store v'.store ∧ v'.outputs = w'.outputs := by
  obtain ⟨⟨s, o⟩, hcall, rfl⟩ := Option.map_eq_some_iff.mp hst
  obtain ⟨t, ht, hsame⟩ := h.call hplain hcall
  exact ⟨⟨t, v.outputs ++ [o]⟩, Option.map_eq_some_iff.mpr ⟨(t, o), ht, rfl⟩, hsame, by rw [hout]⟩

/-- **Run lemma.** -/
theorem same_run {es fs : List Event} {w w' : World} (hplain : es.map Event.plain = fs.map Event.plain)
    (hsame : Same w.store w.store) (h : Run (FunStep (next snappy)) w es w') :
    ∃ v', Run (FunStep (next snappy)) w fs v' ∧ Same w'.store v'.store ∧ v'.outputs = w'.outputs := by
  induction h generalizing fs with
  | refl =>
      obtain rfl := List.map_eq_nil_iff.mp hplain.symm
      exact ⟨w, .refl, hsame, rfl⟩
  | @tail w' w'' es e _ hst ih =>
      rw [List.map_append, List.map_singleton] at hplain
      obtain ⟨fs', last, rfl, hfs, hlast⟩ := List.map_eq_append_iff.mp hplain.symm
      obtain ⟨f, rfl, hf⟩ := List.map_eq_singleton_iff.mp hlast
      obtain ⟨v, hrun, hv, hout⟩ := ih hfs.symm
      obtain ⟨v', hv', hsame', hout'⟩ := same_step hv hout hf.symm hst
      exact ⟨v', hrun.tail hv', hsame', hout'⟩

/-- **The heights are hidden.** A run of calls on a store, with any other heights drawn, returns the same, and leaves the same
    files, now and when the store is closed. -/
theorem heights_hidden {dir : Dir} (hopen : KVStore_beta.new dir = some s) {es fs : List Event}
    (hplain : es.map Event.plain = fs.map Event.plain) {w : World} (h : Run (FunStep (next snappy)) ⟨s, []⟩ es w) :
    ∃ v, Run (FunStep (next snappy)) ⟨s, []⟩ fs v ∧ v.outputs = w.outputs ∧ v.store.dir = w.store.dir ∧
      v.store.destroy snappy = w.store.destroy snappy := by
  obtain ⟨v, hrun, hsame, hout⟩ := same_run hplain (same_new hopen) h
  refine ⟨v, hrun, hout, hsame.dir, ?_⟩
  cases hdestroy : w.store.destroy snappy with
  | some dir => exact hsame.destroy hdestroy
  | none =>
      cases hdestroy' : v.store.destroy snappy with
      | none => rfl
      | some dir' =>
          have := hsame.symm.destroy hdestroy'
          rw [hdestroy] at this
          nomatch this

/-- A key is put and read, at the height that `ones` makes. -/
def putAndRead (ones : Nat) : List Event := [.put [97] [49] ones, .get [97]]

theorem heights_hidden_putAndRead : ∃ s v w, KVStore_beta.new {} = some s ∧
    Run (FunStep (next SnappyLiterals.snappy)) ⟨s, []⟩ (putAndRead 0) w ∧
      Run (FunStep (next SnappyLiterals.snappy)) ⟨s, []⟩ (putAndRead 5) v ∧ v.outputs = w.outputs ∧
      v.store.dir = w.store.dir ∧ v.store.destroy SnappyLiterals.snappy = w.store.destroy SnappyLiterals.snappy := by
  obtain ⟨s, hopen⟩ : ∃ s, KVStore_beta.new {} = some s := ⟨_, rfl⟩
  have h₀ : Represents SnappyLiterals.snappy (⟨s, []⟩ : World).store {} := represents_empty hopen
  obtain ⟨w₁, hput, h₁, -⟩ := next_put h₀ SnappyLiterals.grows [97] [49] 0 (by decide) (by decide)
  obtain ⟨w₂, hget, -⟩ := next_get h₁ SnappyLiterals.inverts [97]
  have hrun : Run (FunStep (next SnappyLiterals.snappy)) ⟨s, []⟩ (putAndRead 0) w₂ := Run.cons hput (Run.single hget)
  obtain ⟨v, hv, hspec⟩ := heights_hidden hopen (show (putAndRead 0).map Event.plain = (putAndRead 5).map Event.plain from rfl) hrun
  exact ⟨s, v, w₂, hopen, hrun, hv, hspec⟩

end KVStore_beta
end DDBMS
