import DDBMS.Lib.Bytes
import DDBMS.Lib.Run

/-!
# `Storage.SkipList` — the memtable

The model of `SkipList` (`src/storage/SkipList.cpp`) at the level of its pointers. Nodes live in a heap and
are named by their address; a freed node keeps its address, which is never used again. `none` is undefined
behaviour: a read or write outside a `nexts_` array. The search loop takes fuel; that it never runs out is part
of `findGreatorOrEqual_spec`.

The one random draw of `put` is an argument: `ones` is the number of ones `dist_(engine_)` yields before the
first zero.
-/

namespace DDBMS

/-- The address of a node; `nullptr` is 0. -/
abbrev Addr := Nat

structure Node where
  key_ : Bytes
  value_ : Bytes
  nexts_ : List Addr
  height_ : Nat
  deriving Repr

structure SkipList where
  /-- the heap -/
  nodes : Addr → Node
  /-- the next address `new` returns -/
  allocated : Nat
  head_ : Addr
  tail_ : Addr
  num_entries_ : Nat
  num_bytes_ : Nat

namespace SkipList

def max_height_ : Nat := 12

/-- `new Node(key, value, height)` leaves the array unset. -/
def newNode (key value : Bytes) (height : Nat) : Node := ⟨key, value, List.replicate height 0, height⟩

/-- `init` on a heap: an empty list with a head and a tail node. -/
def init (nodes : Addr → Node) (allocated : Nat) : SkipList where
  nodes a :=
    if a = allocated then { newNode [] [] 1 with nexts_ := [allocated + 1] }
    else if a = allocated + 1 then newNode [] [] 1
    else nodes a
  allocated := allocated + 2
  head_ := allocated
  tail_ := allocated + 1
  num_entries_ := 0
  num_bytes_ := 0

/-- The constructor. -/
def new : SkipList := init (fun _ => newNode [] [] 0) 1

/-- `clear` deletes every node and starts over. -/
def clear (s : SkipList) : SkipList := init s.nodes s.allocated

def size (s : SkipList) : Nat := s.num_entries_

def space (s : SkipList) : Nat := s.num_bytes_

def empty (s : SkipList) : Bool := s.num_entries_ == 0

def getMaxHeight (s : SkipList) : Nat := (s.nodes s.head_).height_

def random_height (ones : Nat) : Nat := if 1 + ones > max_height_ then max_height_ else 1 + ones

/-! ## Pointers -/

/-- `a->nexts_[i]`. -/
def next (s : SkipList) (a : Addr) (i : Nat) : Option Addr := (s.nodes a).nexts_[i]?

/-- `a->nexts_[i] = b`. -/
def setNext (s : SkipList) (a : Addr) (i : Nat) (b : Addr) : Option SkipList :=
  if i < (s.nodes a).nexts_.length then
    some { s with
      nodes := fun x => if x = a then { s.nodes a with nexts_ := (s.nodes a).nexts_.set i b } else s.nodes x }
  else none

def setNode (s : SkipList) (a : Addr) (n : Node) : SkipList :=
  { s with nodes := fun x => if x = a then n else s.nodes x }

def enlargeHeight (s : SkipList) (height : Nat) : SkipList :=
  let head := s.nodes s.head_
  let tail := s.nodes s.tail_
  let s := s.setNode s.head_ { head with
    height_ := height, nexts_ := head.nexts_ ++ List.replicate (height - head.height_) s.tail_ }
  s.setNode s.tail_ { tail with height_ := height, nexts_ := List.replicate height 0 }

/-! ## Searching -/

/-- The loop of `findGreatorOrEqual`: at node `x` on level `height`. -/
def findLoop (s : SkipList) (key : Bytes) : Nat → Addr → Nat → (Nat → Addr) → Option (Addr × (Nat → Addr))
  | 0, _, _, _ => none
  | fuel + 1, x, height, prevs => do
    let next ← s.next x height
    if next ≠ s.tail_ ∧ (s.nodes next).key_ < key then
      s.findLoop key fuel next height prevs
    else
      let prevs := fun i => if i = height then x else prevs i
      if height = 0 then some (next, prevs) else s.findLoop key fuel x (height - 1) prevs

/-- The node found and the array `prevs`, which a caller that passes `nullptr` ignores. -/
def findGreatorOrEqual (s : SkipList) (key : Bytes) : Option (Addr × (Nat → Addr)) :=
  s.findLoop key (s.num_entries_ + s.getMaxHeight) s.head_ (s.getMaxHeight - 1) (fun _ => 0)

/-- The loop that `findLessThan` and `findLast` share: at `node` on level `level`, on while `before` holds of the next
    node. -/
def lastLoop (s : SkipList) (before : Addr → Bool) : Nat → Addr → Nat → Option Addr
  | 0, _, _ => none
  | fuel + 1, node, level => do
    let next ← s.next node level
    if next ≠ s.tail_ ∧ before next = true then
      s.lastLoop before fuel next level
    else if level = 0 then some node
    else s.lastLoop before fuel node (level - 1)

def findLessThan (s : SkipList) (key : Bytes) : Option Addr :=
  s.lastLoop (fun next => (s.nodes next).key_ < key) (s.num_entries_ + s.getMaxHeight) s.head_ (s.getMaxHeight - 1)

def findLast (s : SkipList) : Option Addr :=
  s.lastLoop (fun _ => true) (s.num_entries_ + s.getMaxHeight) s.head_ (s.getMaxHeight - 1)

def get (s : SkipList) (key : Bytes) : Option (Bool × Bytes) := do
  let (node, _) ← s.findGreatorOrEqual key
  if node ≠ s.tail_ ∧ (s.nodes node).key_ = key then some (true, (s.nodes node).value_)
  else some (false, [])

def contains (s : SkipList) (key : Bytes) : Option Bool := do
  let (node, _) ← s.findGreatorOrEqual key
  some (node ≠ s.tail_ ∧ (s.nodes node).key_ = key)

/-! ## Updates -/

/-- The loop of `put` over the levels below `height`. -/
def link (s : SkipList) (node : Addr) (prevs : Nat → Addr) : Nat → Option SkipList
  | 0 => some s
  | i + 1 => do
    let s ← s.link node prevs i
    let next ← s.next (prevs i) i
    let s ← s.setNext node i next
    s.setNext (prevs i) i node

def put (s : SkipList) (key value : Bytes) (ones : Nat) : Option SkipList := do
  let (x, prevs) ← s.findGreatorOrEqual key
  if x ≠ s.tail_ ∧ (s.nodes x).key_ = key then
    some { s.setNode x { s.nodes x with value_ := value } with
      num_bytes_ := s.num_bytes_ - (s.nodes x).value_.length + value.length }
  else
    let height := random_height ones
    let prevs := fun i => if s.getMaxHeight ≤ i ∧ i < height then s.head_ else prevs i
    let s := if height > s.getMaxHeight then s.enlargeHeight height else s
    let node := s.allocated
    let s := { s.setNode node (newNode key value height) with allocated := s.allocated + 1 }
    let s ← s.link node prevs height
    some { s with
      num_entries_ := s.num_entries_ + 1
      num_bytes_ := s.num_bytes_ + key.length + value.length }

/-- The loop of `del` over the levels below `height`. -/
def unlink (s : SkipList) (node : Addr) (prevs : Nat → Addr) : Nat → Option SkipList
  | 0 => some s
  | i + 1 => do
    let s ← s.unlink node prevs i
    let next ← s.next node i
    s.setNext (prevs i) i next

def del (s : SkipList) (key : Bytes) : Option (SkipList × Bool) := do
  let (node, prevs) ← s.findGreatorOrEqual key
  if node = s.tail_ ∨ (s.nodes node).key_ ≠ key then some (s, false)
  else
    let n := s.nodes node
    let s ← s.unlink node prevs n.height_
    some ({ s with
      num_entries_ := s.num_entries_ - 1
      num_bytes_ := s.num_bytes_ - n.key_.length - n.value_.length }, true)

/-! ## Iterating -/

/-- Where an iterator stands; `none` is not valid. -/
abbrev Iterator := Option Addr

def seekToFirst (s : SkipList) : Option Iterator := do
  let node ← s.next s.head_ 0
  some (if node = s.tail_ then none else some node)

def seekToLast (s : SkipList) : Option Iterator := do
  let node ← s.findLast
  some (if node = s.head_ then none else some node)

def seek (s : SkipList) (key : Bytes) : Option Iterator := do
  let (node, _) ← s.findGreatorOrEqual key
  some (if node = s.tail_ then none else some node)

def iteratorNext (s : SkipList) (node : Addr) : Option Iterator := do
  let node ← s.next node 0
  some (if node = s.tail_ then none else some node)

def iteratorPrev (s : SkipList) (node : Addr) : Option Iterator := do
  let node ← s.findLessThan (s.nodes node).key_
  some (if node = s.head_ then none else some node)

/-! ## Runs -/

inductive Event where
  | put (key value : Bytes) (ones : Nat)
  | del (key : Bytes)
  | clear
  deriving Repr

def step (s : SkipList) : Event → Option SkipList
  | .put key value ones => s.put key value ones
  | .del key => (s.del key).map Prod.fst
  | .clear => some s.clear

end SkipList
end DDBMS
