import DDBMS.Storage.Table

/-!
# `Storage.KVStoreBeta` — the key-value store

The model of `KVStore_beta` with what it is made of: `DiskStorage` and `LevelZero`
(`src/storage/KVStore_beta.cpp`, `DiskStorage.cpp`, `LevelZero.cpp`), on top of the memtable and the SSTable
files. The directory of the store is a value, `Dir`; a destroyed store leaves only that. What reads tables takes the
room on the stack, as in `Storage.Table`; the results about stores are about one without a limit, and carry over where all
blocks fit (`Storage.KVStoreStack`).

`KVStore` (`include/storage/KVStore_new.h`) does to the memtable and the files what `KVStore_beta` does, and its
destructor flushes once more before the one of its base class.
-/

namespace DDBMS

/-- The files of a store: `meta`, `level_0/index`, and `level_0/<no>.sst`. -/
structure Dir where
  metaFile : Option Bytes := none
  index : Option Bytes := none
  sst : UInt64 → Option Bytes := fun _ => none

structure LevelZero where
  ssts_ : List UInt64
  size_ : UInt64
  num_entries_ : UInt64
  deriving Repr

namespace LevelZero

variable (snappy : Snappy)

def save_meta (l : LevelZero) (dir : Dir) : Dir :=
  { dir with
    index := some (leBytes 8 l.size_.toNat ++ (leBytes 8 l.num_entries_.toNat ++
      l.ssts_.flatMap fun no => leBytes 8 no.toNat)) }

/-- The loop that reads `size` file numbers from a stream. -/
def readNos : Nat → Bytes → Option (List UInt64)
  | 0, _ => some []
  | size + 1, ifs => do
    let no ← readAt 8 ifs 0
    let ssts ← readNos size (ifs.drop 8)
    some (UInt64.ofNat no :: ssts)

/-- The constructor: a new directory, or what the index file says. No index file stands for no directory, which is what the code
    tests. -/
def new (dir : Dir) : Option (LevelZero × Dir) :=
  match dir.index with
  | none => some (⟨[], 0, 0⟩, save_meta ⟨[], 0, 0⟩ dir)
  | some ifs => do
    let size ← readAt 8 ifs 0
    let num_entries ← readAt 8 ifs 8
    let ssts ← readNos size (ifs.drop 16)
    some (⟨ssts, UInt64.ofNat size, UInt64.ofNat num_entries⟩, dir)

def add (l : LevelZero) (dir : Dir) (memtable : SkipList) (no : UInt64) : Option (LevelZero × Dir) := do
  let file ← TableBuilder.create_sstable snappy memtable
  let dir := { dir with sst := fun x => if x = no then some file else dir.sst x }
  let l := ⟨l.ssts_ ++ [no], l.size_ + 1, l.num_entries_ + UInt64.ofNat memtable.size⟩
  some (l, save_meta l dir)

/-- The loop of `search`, from the oldest SSTable to the newest. -/
def searchLoop (dir : Dir) (key : Bytes) (ssts : List UInt64) (stack : Option Nat := none) : Option (Bool × Bytes) :=
  match ssts with
  | [] => some (false, [])
  | no :: ssts => do
    let ifs ← dir.sst no
    let sstable ← SSTable.new snappy ifs stack
    let result ← sstable.get snappy key stack
    if result.1 then some result else searchLoop dir key ssts stack

def search (l : LevelZero) (dir : Dir) (key : Bytes) (stack : Option Nat := none) : Option (Bool × Bytes) :=
  searchLoop snappy dir key l.ssts_ stack

end LevelZero

structure DiskStorage where
  no_ : UInt64
  level0_ : LevelZero
  deriving Repr

namespace DiskStorage

variable (snappy : Snappy)

def save_meta (s : DiskStorage) (dir : Dir) : Dir := { dir with metaFile := some (leBytes 8 s.no_.toNat) }

/-- The constructor, with `read_meta`. -/
def new (dir : Dir) : Option (DiskStorage × Dir) := do
  let (level0, dir) ← LevelZero.new dir
  match dir.metaFile with
  | some ifs =>
    let no ← readAt 8 ifs 0
    some (⟨UInt64.ofNat no, level0⟩, dir)
  | none => some (⟨0, level0⟩, save_meta ⟨0, level0⟩ dir)

def add (s : DiskStorage) (dir : Dir) (memtable : SkipList) : Option (DiskStorage × Dir) := do
  let (level0, dir) ← s.level0_.add snappy dir memtable s.no_
  let s := ⟨s.no_ + 1, level0⟩
  some (s, save_meta s dir)

def search (s : DiskStorage) (dir : Dir) (key : Bytes) (stack : Option Nat := none) : Option (Bool × Bytes) :=
  s.level0_.search snappy dir key stack

end DiskStorage

/-- An open store, with its directory. -/
structure KVStore_beta where
  memtable_ : SkipList
  diskstorage_ : DiskStorage
  dir : Dir

namespace KVStore_beta

variable (snappy : Snappy)

/-- The constructor. -/
def new (dir : Dir) : Option KVStore_beta := do
  let (diskstorage, dir) ← DiskStorage.new dir
  some ⟨SkipList.new, diskstorage, dir⟩

/-- `diskstorage_.search`. -/
def search (s : KVStore_beta) (key : Bytes) (stack : Option Nat := none) : Option (Bool × Bytes) :=
  s.diskstorage_.search snappy s.dir key stack

/-- `diskstorage_.add`. -/
def addTable (s : KVStore_beta) (memtable : SkipList) : Option KVStore_beta := do
  let (diskstorage, dir) ← s.diskstorage_.add snappy s.dir memtable
  some ⟨memtable, diskstorage, dir⟩

/-- `ones` is the height draw of the memtable. -/
def put (s : KVStore_beta) (key value : Bytes) (ones : Nat) : Option KVStore_beta := do
  let memtable ← s.memtable_.put key value ones
  if memtable.space > StorageOption.SSTABLE_SPACE then
    let s ← s.addTable snappy memtable
    some { s with memtable_ := s.memtable_.clear }
  else some { s with memtable_ := memtable }

def get (s : KVStore_beta) (key : Bytes) (stack : Option Nat := none) : Option (Bool × Bytes) := do
  let contained ← s.memtable_.contains key
  let result ← if contained then s.memtable_.get key else s.search snappy key stack
  if result.1 = true ∧ result.2 ≠ [] then some result else some (false, [])

def del (s : KVStore_beta) (key : Bytes) (ones : Nat) (stack : Option Nat := none) : Option (KVStore_beta × Bool) := do
  let contained ← s.memtable_.contains key
  if contained then
    let (memtable, _) ← s.memtable_.del key
    some ({ s with memtable_ := memtable }, true)
  else
    let result ← s.search snappy key stack
    if result.1 = true ∧ result.2 ≠ [] then
      let memtable ← s.memtable_.put key [] ones
      some ({ s with memtable_ := memtable }, true)
    else some (s, false)

def flush (s : KVStore_beta) : Option KVStore_beta :=
  if s.memtable_.empty then some s else s.addTable snappy s.memtable_

/-- The destructor: what is left is the directory. -/
def destroy (s : KVStore_beta) : Option Dir := do
  let s ← s.flush snappy
  some s.dir

end KVStore_beta

/-- The destructor of `KVStore`, which runs before that of its base class. -/
def KVStore.destroy (snappy : Snappy) (s : KVStore_beta) : Option Dir := do
  let s ← s.flush snappy
  s.destroy snappy

/-! ## Calls -/

namespace KVStore_beta

inductive Event where
  | put (key value : Bytes) (ones : Nat)
  | get (key : Bytes)
  | del (key : Bytes) (ones : Nat)
  deriving Repr

/-- What a call returns. -/
inductive Output where
  | put
  | get (result : Bool × Bytes)
  | del (result : Bool)
  deriving DecidableEq, Repr

/-- One call. -/
def call (snappy : Snappy) (s : KVStore_beta) : Event → Option (KVStore_beta × Output)
  | .put key value ones => (s.put snappy key value ones).map fun s => (s, .put)
  | .get key => (s.get snappy key).map fun r => (s, .get r)
  | .del key ones => (s.del snappy key ones).map fun (s, b) => (s, .del b)

/-- A store and what the calls so far returned. -/
structure World where
  store : KVStore_beta
  outputs : List Output := []

def next (snappy : Snappy) (w : World) (e : Event) : Option World :=
  (w.store.call snappy e).map fun (s, o) => ⟨s, w.outputs ++ [o]⟩

section Next

variable {snappy : Snappy} {w w' : World} {key value : Bytes} {ones : Nat}

theorem put_of_next (h : next snappy w (.put key value ones) = some w') :
    ∃ s, w.store.put snappy key value ones = some s ∧ w' = ⟨s, w.outputs ++ [.put]⟩ := by
  obtain ⟨⟨s, o⟩, hcall, rfl⟩ := Option.map_eq_some_iff.mp h
  obtain ⟨u, hput, hu⟩ := Option.map_eq_some_iff.mp hcall
  obtain ⟨rfl, rfl⟩ := Prod.mk.inj hu
  exact ⟨u, hput, rfl⟩

theorem get_of_next (h : next snappy w (.get key) = some w') :
    ∃ r, w.store.get snappy key = some r ∧ w' = ⟨w.store, w.outputs ++ [.get r]⟩ := by
  obtain ⟨⟨s, o⟩, hcall, rfl⟩ := Option.map_eq_some_iff.mp h
  obtain ⟨r, hget, hu⟩ := Option.map_eq_some_iff.mp hcall
  obtain ⟨rfl, rfl⟩ := Prod.mk.inj hu
  exact ⟨r, hget, rfl⟩

theorem del_of_next (h : next snappy w (.del key ones) = some w') :
    ∃ s b, w.store.del snappy key ones = some (s, b) ∧ w' = ⟨s, w.outputs ++ [.del b]⟩ := by
  obtain ⟨⟨s, o⟩, hcall, rfl⟩ := Option.map_eq_some_iff.mp h
  obtain ⟨⟨u, b⟩, hdel, hu⟩ := Option.map_eq_some_iff.mp hcall
  obtain ⟨rfl, rfl⟩ := Prod.mk.inj hu
  exact ⟨u, b, hdel, rfl⟩

end Next

end KVStore_beta
end DDBMS
