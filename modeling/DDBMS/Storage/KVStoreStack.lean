import DDBMS.Storage.KVStoreMap
import DDBMS.Storage.TableStack

/-!
# `Storage.KVStoreStack` — stores on a stack with a limit

A search reads the blocks of one table after the other into the stack (`SSTable::loadBlock`). Where each block of each table
fits, the limit makes no difference to `LevelZero`, `DiskStorage` and `KVStore_beta` (`search_onStack`, `get_onStack`,
`del_onStack`), and a store keeps to that as long as each memtable that it spills has such blocks (`tablesFit_step`). So the
runs of calls are the same with the limit and without (`run_onStack`), and what holds of the second holds of the first.
-/

namespace DDBMS

variable {snappy : Snappy} {stack : Option Nat}

/-- Each block of the table of a memtable fits into the stack. -/
def SkipList.BlocksFit (snappy : Snappy) (stack : Option Nat) (m : SkipList) : Prop :=
  ∃ es, m.Holds es ∧ ∀ b ∈ tableBlocks snappy es, SSTable.OnStack stack (blockSize snappy b)

namespace LevelZero

variable {dir dir' : Dir} {l l' : LevelZero} {m : SkipList} {no : UInt64}

/-- Each block of each table fits into the stack. -/
def TablesFit (snappy : Snappy) (stack : Option Nat) (dir : Dir) (ssts : List UInt64) : Prop :=
  ∀ no ∈ ssts, ∀ file ∈ dir.sst no, SSTable.FileFits snappy stack file

theorem searchLoop_onStack (hinv : snappy.Inverts) {ssts : List UInt64} (h : TablesFit snappy stack dir ssts) (key : Bytes) :
    searchLoop snappy dir key ssts stack = searchLoop snappy dir key ssts := by
  induction ssts with
  | nil => rfl
  | cons no ssts ih =>
      rw [searchLoop, searchLoop, ih fun no hno => h no (List.mem_cons_of_mem _ hno)]
      cases hfile : dir.sst no with
      | none => rfl
      | some file =>
          obtain ⟨t, hnew, hnew', hget⟩ := (h no List.mem_cons_self file hfile).reads hinv
          simp only [hnew, hnew', hget, Option.bind_eq_bind, Option.bind_some]

theorem search_onStack (hinv : snappy.Inverts) (h : TablesFit snappy stack dir l.ssts_) (key : Bytes) :
    l.search snappy dir key stack = l.search snappy dir key := searchLoop_onStack hinv h key

/-- **A new table** whose blocks fit comes behind the others. -/
theorem TablesFit.add (h : TablesFit snappy stack dir l.ssts_) (hm : m.BlocksFit snappy stack)
    (hadd : l.add snappy dir m no = some (l', dir')) : TablesFit snappy stack dir' l'.ssts_ := by
  simp only [LevelZero.add, Option.bind_eq_bind, Option.bind_eq_some_iff] at hadd
  obtain ⟨file, hfile, hl⟩ := hadd
  obtain ⟨rfl, rfl⟩ := Prod.mk.inj (Option.some.inj hl)
  obtain ⟨es, hholds, hblocks⟩ := hm
  intro n hn f hf
  have hf : f ∈ (if n = no then some file else dir.sst n) := hf
  split at hf
  · obtain rfl := Option.some.inj hf
    exact TableBuilder.create_sstable_fits hholds hfile hblocks
  · rename_i hne
    rcases List.mem_append.mp hn with hold | hnew
    · exact h n hold f hf
    · exact absurd (List.mem_singleton.mp hnew) hne

end LevelZero

theorem DiskStorage.search_onStack (hinv : snappy.Inverts) {d : DiskStorage} {dir : Dir}
    (h : LevelZero.TablesFit snappy stack dir d.level0_.ssts_) (key : Bytes) :
    d.search snappy dir key stack = d.search snappy dir key := LevelZero.search_onStack hinv h key

namespace KVStore_beta

variable {s s' : KVStore_beta} {m : SkipList} {key value : Bytes} {w w' : World} {e : Event}

def TablesFit (snappy : Snappy) (stack : Option Nat) (s : KVStore_beta) : Prop :=
  LevelZero.TablesFit snappy stack s.dir s.diskstorage_.level0_.ssts_

theorem search_onStack (hinv : snappy.Inverts) (h : s.TablesFit snappy stack) (key : Bytes) :
    s.search snappy key stack = s.search snappy key := DiskStorage.search_onStack hinv h key

theorem get_onStack (hinv : snappy.Inverts) (h : s.TablesFit snappy stack) (key : Bytes) :
    s.get snappy key stack = s.get snappy key := by
  rw [get, get, search_onStack hinv h]

theorem del_onStack (hinv : snappy.Inverts) (h : s.TablesFit snappy stack) (key : Bytes) (ones : Nat) :
    s.del snappy key ones stack = s.del snappy key ones := by
  rw [del, del, search_onStack hinv h]

/-- A store on an empty directory has no table. -/
theorem tablesFit_new (h : KVStore_beta.new {} = some s) : s.TablesFit snappy stack := by
  obtain rfl := Option.some.inj h
  exact fun no hno => absurd hno List.not_mem_nil

theorem TablesFit.addTable (h : s.TablesFit snappy stack) (hm : m.BlocksFit snappy stack)
    (hadd : s.addTable snappy m = some s') : s'.TablesFit snappy stack := by
  obtain ⟨⟨d, dir⟩, hd, hs'⟩ := Option.bind_eq_some_iff.mp hadd
  obtain rfl := Option.some.inj hs'
  obtain ⟨⟨l, dir'⟩, hl, hd'⟩ := Option.bind_eq_some_iff.mp hd
  obtain ⟨rfl, rfl⟩ := Prod.mk.inj (Option.some.inj hd')
  -- what is written afterwards is no table
  have hfits : LevelZero.TablesFit snappy stack dir' l.ssts_ := LevelZero.TablesFit.add h hm hl
  exact hfits

/-- **The destructor** writes the memtable once more. -/
theorem TablesFit.flush (h : s.TablesFit snappy stack) (hm : s.memtable_.empty = false → s.memtable_.BlocksFit snappy stack)
    (hflush : s.flush snappy = some s') : s'.TablesFit snappy stack := by
  unfold KVStore_beta.flush at hflush
  split at hflush
  · obtain rfl := Option.some.inj hflush
    exact h
  · rename_i hne
    exact h.addTable (hm (Bool.not_eq_true _ ▸ hne)) hflush

/-! ## Runs of calls -/

/-- One call, on a stack with this much room. -/
def callOn (snappy : Snappy) (stack : Option Nat) (s : KVStore_beta) : Event → Option (KVStore_beta × Output)
  | .put key value ones => (s.put snappy key value ones).map fun s => (s, .put)
  | .get key => (s.get snappy key stack).map fun r => (s, .get r)
  | .del key ones => (s.del snappy key ones stack).map fun (s, b) => (s, .del b)

def nextOn (snappy : Snappy) (stack : Option Nat) (w : World) (e : Event) : Option World :=
  (w.store.callOn snappy stack e).map fun (s, o) => ⟨s, w.outputs ++ [o]⟩

/-- A `put` that spills the memtable writes blocks that fit. -/
def SpillFits (snappy : Snappy) (stack : Option Nat) (w : World) : Event → Prop
  | .put key value ones => ∀ m, w.store.memtable_.put key value ones = some m → m.space > StorageOption.SSTABLE_SPACE →
      m.BlocksFit snappy stack
  | _ => True

theorem nextOn_eq (hinv : snappy.Inverts) (h : w.store.TablesFit snappy stack) (e : Event) :
    nextOn snappy stack w e = next snappy w e := by
  unfold nextOn next
  cases e with
  | put => rfl
  | get key => rw [callOn, call, get_onStack hinv h]
  | del key ones => rw [callOn, call, del_onStack hinv h]

/-- **Step lemma.** -/
theorem tablesFit_step (h : w.store.TablesFit snappy stack) (hok : SpillFits snappy stack w e) (hst : next snappy w e = some w') :
    w'.store.TablesFit snappy stack := by
  cases e with
  | put key value ones =>
      obtain ⟨s, hput, rfl⟩ := put_of_next hst
      obtain ⟨m, hm, hput⟩ := Option.bind_eq_some_iff.mp hput
      split at hput
      · rename_i hspace
        obtain ⟨u, hu, hs⟩ := Option.bind_eq_some_iff.mp hput
        obtain rfl := Option.some.inj hs
        have hfits : u.TablesFit snappy stack := h.addTable (hok m hm hspace) hu
        exact hfits
      · obtain rfl := Option.some.inj hput
        exact h
  | get key =>
      obtain ⟨r, -, rfl⟩ := get_of_next hst
      exact h
  | del key ones =>
      obtain ⟨s, b, hdel, rfl⟩ := del_of_next hst
      obtain ⟨contained, -, hdel⟩ := Option.bind_eq_some_iff.mp hdel
      split at hdel
      · obtain ⟨m, -, hs⟩ := Option.bind_eq_some_iff.mp hdel
        obtain ⟨rfl, -⟩ := Prod.mk.inj (Option.some.inj hs)
        exact h
      · obtain ⟨r, -, hdel⟩ := Option.bind_eq_some_iff.mp hdel
        split at hdel
        · obtain ⟨m, -, hs⟩ := Option.bind_eq_some_iff.mp hdel
          obtain ⟨rfl, -⟩ := Prod.mk.inj (Option.some.inj hs)
          exact h
        · obtain ⟨rfl, -⟩ := Prod.mk.inj (Option.some.inj hdel)
          exact h

/-- **The stack is big enough** for every run of calls whose spills write blocks that fit: it is a run without a limit. -/
theorem run_onStack (hinv : snappy.Inverts) {es : List Event} (h : w.store.TablesFit snappy stack)
    (hrun : Run (Guarded (SpillFits snappy stack) (FunStep (nextOn snappy stack))) w es w') :
    Run (Guarded (SpillFits snappy stack) (FunStep (next snappy))) w es w' ∧ w'.store.TablesFit snappy stack := by
  induction hrun with
  | refl => exact ⟨Run.refl, h⟩
  | tail _ hst ih =>
      obtain ⟨hrun, hfits⟩ := ih
      have hnext : next snappy _ _ = some _ := (nextOn_eq hinv hfits _).symm.trans hst.2
      exact ⟨Run.tail hrun ⟨hst.1, hnext⟩, tablesFit_step hfits hst.1 hnext⟩

end KVStore_beta
end DDBMS
