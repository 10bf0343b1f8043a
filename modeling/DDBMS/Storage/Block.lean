import DDBMS.Lib.Bytes

/-!
# `Storage.Block` — blocks of an SSTable

The model of `BlockBuilder` and `Block` (`src/storage/BlockBuilder.cpp`, `src/storage/Block.cpp`). A block is a
byte string: entries, each a size and bytes for the key and for the value, then the number of restart points,
the restart points, and the offset at which this trailer starts.

`none` stands for a failed assertion, an exception of `std::string`, or a read outside the block. Offsets are
`Nat`: they index a string, and strings are shorter than `2 ^ 63`.
-/

namespace DDBMS

namespace StorageOption

def BLOCK_SPACE : Nat := 4 * 1024
def SSTABLE_SPACE : Nat := 2 * 1024 * 1024
def RESTART_INTERVAL : Nat := 20

end StorageOption

/-- `std::string::max_size()`. -/
def max_size : Nat := 2 ^ 63 - 1

/-- `std::string::append`, with its `std::length_error`. -/
def append (s t : Bytes) : Option Bytes := if s.length + t.length ≤ max_size then some (s ++ t) else none

/-- `std::string::substr`, with its `std::out_of_range`. -/
def substr (s : Bytes) (pos count : Nat) : Option Bytes :=
  if pos ≤ s.length then some ((s.drop pos).take count) else none

structure BlockBuilder where
  buffer_ : Bytes := []
  last_key_ : Bytes := []
  restarts_ : List Nat := [0]
  counter_ : Nat := 0
  finished_ : Bool := false
  deriving Repr

namespace BlockBuilder

def empty (b : BlockBuilder) : Bool := b.buffer_.isEmpty

/-- The restart point before an entry, once an interval is full. -/
def restart (b : BlockBuilder) : BlockBuilder :=
  if b.counter_ = StorageOption.RESTART_INTERVAL then
    { b with restarts_ := b.restarts_ ++ [b.buffer_.length], counter_ := 0 }
  else b

def add (b : BlockBuilder) (key value : Bytes) : Option BlockBuilder := do
  guard (b.finished_ = false)
  guard (b.counter_ ≤ StorageOption.RESTART_INTERVAL)
  guard (b.empty = true ∨ b.last_key_ < key)
  let b := b.restart
  let buffer ← append b.buffer_ (leBytes 8 key.length)
  let buffer ← append buffer key
  let buffer ← append buffer (leBytes 8 value.length)
  let buffer ← append buffer value
  some { b with buffer_ := buffer, last_key_ := key, counter_ := b.counter_ + 1 }

/-- The finished content, and the builder it leaves. -/
def finish (b : BlockBuilder) : Option (Bytes × BlockBuilder) := do
  let restarts_postion := b.buffer_.length
  let buffer ← append b.buffer_ (leBytes 8 b.restarts_.length)
  let buffer ← b.restarts_.foldlM (fun buffer i => append buffer (leBytes 8 i)) buffer
  let buffer ← append buffer (leBytes 8 restarts_postion)
  some (buffer, { b with buffer_ := buffer, finished_ := true })

def reset : BlockBuilder := {}

def estimated_size (b : BlockBuilder) : Nat := b.buffer_.length + b.restarts_.length * 8 + 8 * 2

end BlockBuilder

structure Block where
  block_content_ : Bytes
  restart_offset_ : Nat
  restart_size_ : Nat
  restarts_ : List Nat
  deriving Repr

namespace Block

/-- The constructor. -/
def new (block_content : Bytes) : Option Block := do
  if block_content.length < 8 then none
  let restart_offset ← readAt 8 block_content (block_content.length - 8)
  let restart_size ← readAt 8 block_content restart_offset
  let start := restart_offset + 8
  -- one read for each step of 8 from `start` below the offset of the last word
  let restarts ← (List.range ((block_content.length - 8 - start + 7) / 8)).mapM fun j =>
    readAt 8 block_content (start + 8 * j)
  some ⟨block_content, restart_offset, restart_size, restarts⟩

/-- The loop of `get` at `pos`. -/
def getLoop (b : Block) (key : Bytes) : Nat → Nat → Option (Bool × Bytes)
  | 0, _ => none
  | fuel + 1, pos =>
    if pos < b.restart_offset_ then do
      let key_size ← readAt 8 b.block_content_ pos
      let value_offset := pos + 8 + key_size
      let value_size ← readAt 8 b.block_content_ value_offset
      let s ← substr b.block_content_ (pos + 8) key_size
      if s = key then
        let value ← substr b.block_content_ (value_offset + 8) value_size
        some (true, value)
      else b.getLoop key fuel (value_offset + value_size + 8)
    else some (false, [])

/-- Every step moves `pos` forward. -/
def get (b : Block) (key : Bytes) : Option (Bool × Bytes) := b.getLoop key (b.restart_offset_ + 1) 0

structure Iter where
  current_ : Nat
  key_ : Bytes
  value_ : Bytes
  deriving Repr

namespace Iter

def Valid (b : Block) (it : Iter) : Bool := it.current_ < b.restart_offset_

def extract_keyvalue (b : Block) (it : Iter) : Option Iter := do
  guard (it.Valid b = true)
  let key_size ← readAt 8 b.block_content_ it.current_
  let key ← substr b.block_content_ (it.current_ + 8) key_size
  let value_offset := it.current_ + 8 + key_size
  let value_size ← readAt 8 b.block_content_ value_offset
  let value ← substr b.block_content_ (value_offset + 8) value_size
  some { it with key_ := key, value_ := value }

def SeekToFirst (b : Block) (it : Iter) : Option Iter :=
  let it := { it with current_ := 0 }
  if it.Valid b then it.extract_keyvalue b else some it

def Next (b : Block) (it : Iter) : Option Iter :=
  let it := { it with current_ := it.current_ + 8 * 2 + it.key_.length + it.value_.length }
  if it.Valid b then it.extract_keyvalue b else some it

def Key (b : Block) (it : Iter) : Option Bytes := do
  guard (it.Valid b = true)
  some it.key_

def Value (b : Block) (it : Iter) : Option Bytes := do
  guard (it.Valid b = true)
  some it.value_

/-- The loop of `SeekToLast`: on to the next entry while there is one. -/
def lastLoop (b : Block) : Nat → Iter → Option Iter
  | 0, _ => none
  | fuel + 1, it =>
    let next := it.current_ + 8 * 2 + it.key_.length + it.value_.length
    if b.restart_offset_ ≤ next then some it
    else do
      let it ← it.Next b
      lastLoop b fuel it

/-- `back()` of an empty vector is undefined; every step moves `current_` forward. -/
def SeekToLast (b : Block) (it : Iter) : Option Iter := do
  let last ← b.restarts_.getLast?
  let it ← extract_keyvalue b { it with current_ := last }
  lastLoop b (b.restart_offset_ + 1) it

/-- The loop of `Seek`. -/
def seekLoop (b : Block) (key : Bytes) : Nat → Iter → Option Iter
  | 0, _ => none
  | fuel + 1, it =>
    if it.key_ < key then do
      let it ← it.Next b
      if it.Valid b then seekLoop b key fuel it else some it
    else some it

def Seek (b : Block) (key : Bytes) (it : Iter) : Option Iter := do
  let it ← it.SeekToLast b
  if it.key_ < key then some { it with current_ := b.restart_offset_ }
  else
    let it ← it.SeekToFirst b
    seekLoop b key (b.restart_offset_ + 1) it

end Iter

def NewIterator (b : Block) : Iter := ⟨b.restart_offset_, [], []⟩

end Block
end DDBMS
