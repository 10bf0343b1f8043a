import DDBMS.Storage.Block
import DDBMS.Storage.SkipList

/-!
# `Storage.Table` — SSTable files

The model of `TableBuilder` and `SSTable` (`src/storage/TableBuilder.cpp`, `src/storage/SSTable.cpp`). A file
is the compressed data blocks, the compressed index block, which maps the last key of each data block to its
offset and size, and the offset and size of the index block.

`Snappy` stands for the compression library, which is not part of the repository. Blocks are compressed, as
`Option::BLOCK_COMPRESSED` is true.

`SSTable::loadBlock` reads a block into an array on the stack. How much room the stack has there is a parameter of what reads
tables; it is `none` where the stack has no limit.
-/

namespace DDBMS

structure Snappy where
  Compress : Bytes → Bytes
  Uncompress : Bytes → Bytes

/-- `Uncompress` inverts `Compress`. -/
def Snappy.Inverts (snappy : Snappy) : Prop := ∀ b, snappy.Uncompress (snappy.Compress b) = b

/-- The largest file `std::streamoff` can address. -/
def max_file : Nat := 2 ^ 63 - 1

/-- `ofstream::write` at the end of the file. -/
def ofstreamWrite (file b : Bytes) : Option Bytes :=
  if file.length + b.length ≤ max_file then some (file ++ b) else none

structure TableBuilder where
  file_ : Bytes := []
  offset_ : Nat := 0
  size_ : Nat := 0
  last_key_ : Bytes := []
  num_entries_ : Nat := 0
  datablock_ : BlockBuilder := {}
  indexblock_ : BlockBuilder := {}
  deriving Repr

namespace TableBuilder

variable (snappy : Snappy)

/-- What `writeBlock` does for either block: finish it, compress it, append it to the file. -/
def writeContent (t : TableBuilder) (block : BlockBuilder) : Option (TableBuilder × Bytes) := do
  let (block_content, _) ← block.finish
  let compressed := snappy.Compress block_content
  let file ← ofstreamWrite t.file_ compressed
  let size := compressed.length
  let s := leBytes 8 t.offset_ ++ leBytes 8 size
  some ({ t with file_ := file, size_ := size, offset_ := t.offset_ + size }, s)

/-- `writeBlock(&datablock_)`: the handle goes into the index. -/
def writeDataBlock (t : TableBuilder) : Option TableBuilder := do
  let (t, s) ← t.writeContent snappy t.datablock_
  let indexblock ← t.indexblock_.add t.last_key_ s
  some { t with indexblock_ := indexblock, datablock_ := BlockBuilder.reset }

/-- `writeBlock(&indexblock_)`: the handle goes to the end of the file. -/
def writeIndexBlock (t : TableBuilder) : Option TableBuilder := do
  let (t, s) ← t.writeContent snappy t.indexblock_
  let file ← ofstreamWrite t.file_ s
  some { t with file_ := file, indexblock_ := BlockBuilder.reset }

def flush (t : TableBuilder) : Option TableBuilder :=
  if t.datablock_.empty then some t else t.writeDataBlock snappy

def add (t : TableBuilder) (key value : Bytes) : Option TableBuilder := do
  let datablock ← t.datablock_.add key value
  let t := { t with last_key_ := key, datablock_ := datablock, num_entries_ := t.num_entries_ + 1 }
  if t.datablock_.estimated_size ≥ StorageOption.BLOCK_SPACE then t.flush snappy else some t

def finish (t : TableBuilder) : Option TableBuilder := do
  let t ← t.flush snappy
  t.writeIndexBlock snappy

/-- The loop of `create_sstable`. -/
def addAll (memtable : SkipList) : Nat → SkipList.Iterator → TableBuilder → Option TableBuilder
  | _, none, t => some t
  | 0, some _, _ => none
  | fuel + 1, some node, t => do
    let t ← t.add snappy (memtable.nodes node).key_ (memtable.nodes node).value_
    let iter ← memtable.iteratorNext node
    addAll memtable fuel iter t

/-- The file `create_sstable` writes. -/
def create_sstable (memtable : SkipList) : Option Bytes := do
  let iter ← memtable.seekToFirst
  let t ← addAll snappy memtable memtable.size iter {}
  let t ← t.finish snappy
  some t.file_

end TableBuilder

structure SSTable where
  ifs_ : Bytes
  index_block_ : Block

namespace SSTable

variable (snappy : Snappy)

/-- `char buffer[size]` fits into the stack. -/
def OnStack (stack : Option Nat) (size : Nat) : Prop := ∀ room ∈ stack, size ≤ room

instance (stack : Option Nat) (size : Nat) : Decidable (OnStack stack size) := inferInstanceAs (Decidable (∀ _ ∈ _, _))

def loadBlock (ifs : Bytes) (block_offset block_size : Nat) (stack : Option Nat := none) : Option Block :=
  if OnStack stack block_size ∧ block_offset + block_size ≤ ifs.length then
    Block.new (snappy.Uncompress ((ifs.drop block_offset).take block_size))
  else none

/-- The constructor, on an open file and without a block cache. -/
def new (ifs : Bytes) (stack : Option Nat := none) : Option SSTable := do
  if ifs.length < 16 then none
  let index_offset ← readAt 8 ifs (ifs.length - 16)
  let index_size ← readAt 8 ifs (ifs.length - 8)
  let index_block ← loadBlock snappy ifs index_offset index_size stack
  some ⟨ifs, index_block⟩

/-- The loop of `get` at an index entry. -/
def getLoop (t : SSTable) (key : Bytes) (stack : Option Nat) : Nat → Block.Iter → Option (Bool × Bytes)
  | 0, _ => none
  | fuel + 1, index_iter =>
    if index_iter.Valid t.index_block_ then
      if key ≤ index_iter.key_ then do
        let block_offset ← readAt 8 index_iter.value_ 0
        let block_size ← readAt 8 index_iter.value_ 8
        let data_block ← loadBlock snappy t.ifs_ block_offset block_size stack
        data_block.get key
      else do
        let index_iter ← index_iter.Next t.index_block_
        t.getLoop key stack fuel index_iter
    else some (false, [])

def get (t : SSTable) (key : Bytes) (stack : Option Nat := none) : Option (Bool × Bytes) := do
  let index_iter ← t.index_block_.NewIterator.SeekToFirst t.index_block_
  t.getLoop snappy key stack (t.index_block_.restart_offset_ + 1) index_iter

end SSTable
end DDBMS
