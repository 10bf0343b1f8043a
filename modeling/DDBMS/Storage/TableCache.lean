import Mathlib.Data.List.Infix
import Mathlib.Logic.Function.Basic
import DDBMS.Lib.Lru
import DDBMS.Storage.SkipList

/-!
# `Storage.TableCache` — the cache of open table files

`TableCache` keeps the streams of at most `TABLE_CACHE_SIZE` tables: a list of nodes, the last used first, and a map from a
table's number to an iterator of the list. A node and a stream have addresses that are not used twice; an operation on an
iterator whose node is erased, or on a stream that is deleted, has no value.

The cache does what an LRU cache does (`Lib.Lru`) until a table that is in it is closed: `close` erases the node and takes
the stream to delete from it afterwards (`correct_iff`).
-/

namespace DDBMS

def StorageOption.TABLE_CACHE_SIZE : Nat := 10

structure SSTableId where
  dir_ : String
  no_ : UInt64
  deriving DecidableEq

def SSTableId.name (id : SSTableId) : String := id.dir_ ++ "/" ++ toString id.no_ ++ ".sst"

/-- A `std::ifstream` made with `new`. -/
structure Ifstream where
  name : String
  is_open : Bool
  deleted : Bool
  deriving DecidableEq

/-- A node of the list: a table number and the address of its stream. -/
structure ListNode where
  addr : Addr
  first : UInt64
  second : Addr
  deriving DecidableEq

structure TableCache where
  lists_ : List ListNode := []
  map_ : UInt64 → Option Addr := fun _ => none
  streams : Addr → Option Ifstream := fun _ => none
  allocated : Addr := 0

namespace TableCache

/-- `*it`. An erased node has no value. -/
def deref (cache : TableCache) (it : Addr) : Option ListNode := cache.lists_.find? (·.addr = it)

def push_front (cache : TableCache) (first : UInt64) (second : Addr) : TableCache :=
  { cache with lists_ := ⟨cache.allocated, first, second⟩ :: cache.lists_, allocated := cache.allocated + 1 }

def erase (cache : TableCache) (it : Addr) : Option TableCache := do
  let _ ← cache.deref it
  return { cache with lists_ := cache.lists_.filter (·.addr ≠ it) }

/-- `map_[no] = lists_.begin()`. -/
def mapBegin (cache : TableCache) (no : UInt64) : TableCache :=
  { cache with map_ := Function.update cache.map_ no (cache.lists_.head?.map ListNode.addr) }

def mapErase (cache : TableCache) (no : UInt64) : TableCache :=
  { cache with map_ := Function.update cache.map_ no none }

/-- `new std::ifstream(name)`; `files` says which files can be opened. -/
def newStream (cache : TableCache) (files : String → Bool) (name : String) : TableCache × Addr :=
  ({ cache with
      streams := Function.update cache.streams cache.allocated (some ⟨name, files name, false⟩)
      allocated := cache.allocated + 1 }, cache.allocated)

/-- `ifs->close()`. -/
def closeStream (cache : TableCache) (ifs : Addr) : Option TableCache := do
  let stream ← cache.streams ifs
  guard (stream.deleted = false)
  return { cache with streams := Function.update cache.streams ifs (some { stream with is_open := false }) }

/-- `delete ifs`. -/
def deleteStream (cache : TableCache) (ifs : Addr) : Option TableCache := do
  let stream ← cache.streams ifs
  guard (stream.deleted = false)
  return { cache with
    streams := Function.update cache.streams ifs (some { stream with is_open := false, deleted := true }) }

/-- The branch of `open` for a full cache. -/
def evict (cache : TableCache) : Option TableCache := do
  let back ← cache.lists_.getLast?
  let cache := cache.mapErase back.first
  let cache ← cache.closeStream back.second
  let cache ← cache.deleteStream back.second
  return { cache with lists_ := cache.lists_.dropLast }

end TableCache

def TableCache.open (cache : TableCache) (files : String → Bool) (id : SSTableId) : Option (TableCache × Addr) :=
  match cache.map_ id.no_ with
  | some it => do
    let node ← cache.deref it
    let cache ← (cache.push_front node.first node.second).erase it
    let cache := cache.mapBegin id.no_
    let node ← cache.deref (← cache.map_ id.no_)
    return (cache, node.second)
  | none => do
    let cache ← if cache.lists_.length = StorageOption.TABLE_CACHE_SIZE then cache.evict else some cache
    let (cache, ifs) := cache.newStream files id.name
    return ((cache.push_front id.no_ ifs).mapBegin id.no_, ifs)

def TableCache.close (cache : TableCache) (id : SSTableId) : Option TableCache :=
  match cache.map_ id.no_ with
  | none => some cache
  | some it => do
    let node ← cache.deref it
    let cache ← cache.closeStream node.second
    let cache ← cache.erase it
    -- the iterator in the map is that of the node just erased
    let node ← cache.deref it
    let cache ← cache.deleteStream node.second
    return cache.mapErase id.no_

namespace TableCache

/-! ## Sequences of calls -/

/-- A call on an id of the directory; for `open`, with the files that can be opened at that time. -/
inductive Call where
  | opens (files : String → Bool) (no : UInt64)
  | closes (no : UInt64)

def Call.use : Call → Lru.Use UInt64
  | .opens _ no => .touch no
  | .closes no => .drop no

/-- The cache behind a call, and the stream it returns. -/
def call (dir : String) (cache : TableCache) : Call → Option (TableCache × Option Addr)
  | .opens files no => (cache.open files ⟨dir, no⟩).map fun r => (r.1, some r.2)
  | .closes no => (cache.close ⟨dir, no⟩).map fun cache => (cache, none)

def run (dir : String) (calls : List Call) : Option TableCache :=
  calls.foldlM (fun cache c => (cache.call dir c).map Prod.fst) {}

def numbers (cache : TableCache) : List UInt64 := cache.lists_.map ListNode.first

/-- What an LRU cache keeps. -/
def kept (calls : List Call) : List UInt64 := Lru.kept StorageOption.TABLE_CACHE_SIZE (calls.map Call.use)

def lastUse (calls : List Call) (no : UInt64) : Nat := Lru.lastUse (calls.map Call.use) no

/-- The open stream on a table's file. -/
def openStream (dir : String) (no : UInt64) : Ifstream := ⟨SSTableId.name ⟨dir, no⟩, true, false⟩

/-- A stream that is closed and deleted. -/
def deletedStream (dir : String) (no : UInt64) : Ifstream := ⟨SSTableId.name ⟨dir, no⟩, false, true⟩

/-- List and map describe the tables of an LRU cache, and the streams are open. -/
structure Keeps (dir : String) (calls : List Call) (cache : TableCache) : Prop where
  kept : cache.numbers = kept calls
  map : ∀ no, (∃ it, cache.map_ no = some it) ↔ no ∈ cache.numbers
  points : ∀ no it, cache.map_ no = some it → ∃ node, cache.deref it = some node ∧ node.first = no
  nodup : cache.numbers.Nodup
  size : cache.lists_.length ≤ StorageOption.TABLE_CACHE_SIZE
  order : cache.numbers.Pairwise fun a b => lastUse calls b < lastUse calls a
  streams : ∀ node ∈ cache.lists_, cache.streams node.second = some (openStream dir node.first)

/-- What a call does to a cache behind `calls`. -/
def Answers (dir : String) (calls : List Call) (cache cache' : TableCache) (ifs : Option Addr) : Call → Prop
  | .opens _ no =>
      (∃ a, ifs = some a ∧ cache'.streams a = some (openStream dir no)) ∧
      ∀ node ∈ cache.lists_, node.first ∉ cache'.numbers →
        cache.lists_.length = StorageOption.TABLE_CACHE_SIZE ∧ no ∉ cache.numbers ∧
        (∀ other ∈ cache.numbers, other ≠ node.first → lastUse calls node.first < lastUse calls other) ∧
        cache'.streams node.second = some (deletedStream dir node.first)
  | .closes no => ∀ other, other ∈ cache'.numbers ↔ other ∈ cache.numbers ∧ other ≠ no

/-- The cache is right behind every call of the sequence. -/
structure Correct (dir : String) (calls : List Call) : Prop where
  keeps : ∀ pre, pre <+: calls → ∃ cache, run dir pre = some cache ∧ cache.Keeps dir pre
  answers : ∀ pre c cache, pre ++ [c] <+: calls → run dir pre = some cache →
    ∃ cache' ifs, cache.call dir c = some (cache', ifs) ∧ Answers dir pre cache cache' ifs c

/-- `close` does not find its table in the cache; a table that `open` does not find has a file that can be opened. -/
def Fits (dir : String) (calls : List Call) : Call → Prop
  | .opens files no => no ∈ kept calls ∨ files (SSTableId.name ⟨dir, no⟩) = true
  | .closes no => no ∉ kept calls

/-! ## One call -/

/-- The cache without a node. -/
def dropped (cache : TableCache) (node : ListNode) : TableCache :=
  { cache.mapErase node.first with lists_ := cache.lists_.filter (·.addr ≠ node.addr) }

/-- List and map agree node by node, and every node has a stream of its own, open on its table's file. -/
structure Stands (dir : String) (cache : TableCache) : Prop where
  map : ∀ no it, cache.map_ no = some it ↔ ∃ node ∈ cache.lists_, node.first = no ∧ node.addr = it
  nodup : cache.numbers.Nodup
  addrs : (cache.lists_.map ListNode.addr).Nodup
  seconds : (cache.lists_.map ListNode.second).Nodup
  fresh : ∀ node ∈ cache.lists_, node.addr < cache.allocated ∧ node.second < cache.allocated
  streams : ∀ node ∈ cache.lists_, cache.streams node.second = some (openStream dir node.first)

variable {dir : String} {cache cache' : TableCache} {node back : ListNode} {no : UInt64} {ifs it : Addr}
  {calls : List Call} {files : String → Bool} {c : Call}

theorem mem_numbers : no ∈ cache.numbers ↔ ∃ node ∈ cache.lists_, node.first = no := List.mem_map

theorem Stands.new (dir : String) : Stands dir {} :=
  ⟨fun _ _ => by simp, List.nodup_nil, List.nodup_nil, List.nodup_nil, by simp, by simp⟩

theorem Stands.addr_eq (h : Stands dir cache) {m n : ListNode} (hm : m ∈ cache.lists_) (hn : n ∈ cache.lists_) :
    m.addr = n.addr ↔ m = n :=
  ⟨fun heq => List.inj_on_of_nodup_map h.addrs hm hn heq, congrArg _⟩

theorem Stands.first_eq (h : Stands dir cache) {m n : ListNode} (hm : m ∈ cache.lists_) (hn : n ∈ cache.lists_) :
    m.first = n.first ↔ m = n :=
  ⟨fun heq => List.inj_on_of_nodup_map h.nodup hm hn heq, congrArg _⟩

theorem Stands.map_node (h : Stands dir cache) (hnode : node ∈ cache.lists_) : cache.map_ node.first = some node.addr :=
  (h.map _ _).mpr ⟨node, hnode, rfl, rfl⟩

theorem Stands.map_none (h : Stands dir cache) (hno : no ∉ cache.numbers) : cache.map_ no = none := by
  cases hmap : cache.map_ no with
  | none => rfl
  | some it =>
      obtain ⟨node, hnode, hfirst, -⟩ := (h.map no it).mp hmap
      exact absurd (mem_numbers.mpr ⟨node, hnode, hfirst⟩) hno

theorem Stands.deref (h : Stands dir cache) (hnode : node ∈ cache.lists_) : cache.deref node.addr = some node := by
  rw [TableCache.deref]
  have hsome : (cache.lists_.find? (·.addr = node.addr)).isSome := by
    rw [List.find?_isSome]
    exact ⟨node, hnode, by simp⟩
  obtain ⟨found, hfound⟩ := Option.isSome_iff_exists.mp hsome
  have haddr : found.addr = node.addr := by simpa using List.find?_some hfound
  rw [hfound, (h.addr_eq (List.mem_of_find?_eq_some hfound) hnode).mp haddr]

/-- A node that is gone has no value. -/
theorem deref_erased (hfilter : cache.lists_ = cache'.lists_.filter (·.addr ≠ it)) : cache.deref it = none := by
  rw [TableCache.deref, hfilter, List.find?_eq_none]
  intro node hnode
  simpa using (List.mem_filter.mp hnode).2

theorem mem_dropped {m : ListNode} : m ∈ (cache.dropped node).lists_ ↔ m ∈ cache.lists_ ∧ m.addr ≠ node.addr := by
  simp [dropped]

theorem numbers_dropped (h : Stands dir cache) (hnode : node ∈ cache.lists_) :
    (cache.dropped node).numbers = cache.numbers.erase node.first := by
  rw [h.nodup.erase_eq_filter, numbers, numbers, List.filter_map]
  refine congrArg _ (List.filter_congr fun m hm => ?_)
  have hiff : m.addr = node.addr ↔ m.first = node.first := (h.addr_eq hm hnode).trans (h.first_eq hm hnode).symm
  rw [Bool.eq_iff_iff]
  simp [hiff]

theorem Stands.dropped (h : Stands dir cache) (hnode : node ∈ cache.lists_) : Stands dir (cache.dropped node) := by
  have hsub : (cache.dropped node).lists_.Sublist cache.lists_ := List.filter_sublist
  refine ⟨fun no it => ?_, h.nodup.sublist (hsub.map _), h.addrs.sublist (hsub.map _), h.seconds.sublist (hsub.map _),
    fun m hm => h.fresh m (hsub.subset hm), fun m hm => h.streams m (hsub.subset hm)⟩
  show Function.update cache.map_ node.first none no = some it ↔ _
  by_cases hno : no = node.first
  · subst hno
    simp only [Function.update_self, reduceCtorEq, false_iff]
    rintro ⟨m, hm, hfirst, -⟩
    obtain ⟨hm, hne⟩ := mem_dropped.mp hm
    exact hne ((h.addr_eq hm hnode).mpr ((h.first_eq hm hnode).mp hfirst))
  · rw [Function.update_of_ne hno, h.map]
    refine exists_congr fun m => ?_
    constructor
    · rintro ⟨hm, rfl, rfl⟩
      exact ⟨mem_dropped.mpr ⟨hm, fun haddr => hno (congrArg _ ((h.addr_eq hm hnode).mp haddr))⟩, rfl, rfl⟩
    · rintro ⟨hm, hrest⟩
      exact ⟨(mem_dropped.mp hm).1, hrest⟩

/-- Streams that no node has may change. -/
theorem Stands.streams_update (h : Stands dir cache) {streams : Addr → Option Ifstream} {allocated : Addr}
    (hle : cache.allocated ≤ allocated) (hkeep : ∀ node ∈ cache.lists_, streams node.second = cache.streams node.second) :
    Stands dir { cache with streams, allocated } := by
  refine ⟨h.map, h.nodup, h.addrs, h.seconds, fun node hnode => ?_, fun node hnode => ?_⟩
  · have := h.fresh node hnode
    exact ⟨this.1.trans_le hle, this.2.trans_le hle⟩
  · exact (hkeep node hnode).trans (h.streams node hnode)

/-- A table that is not in the cache comes to the front. -/
theorem Stands.push (h : Stands dir cache) (hno : no ∉ cache.numbers) (hifs : ∀ node ∈ cache.lists_, node.second ≠ ifs)
    (hlt : ifs < cache.allocated) (hopen : cache.streams ifs = some (openStream dir no)) :
    Stands dir ((cache.push_front no ifs).mapBegin no) := by
  refine ⟨fun no' it => ?_, List.nodup_cons.mpr ⟨hno, h.nodup⟩, List.nodup_cons.mpr ⟨?_, h.addrs⟩,
    List.nodup_cons.mpr ⟨?_, h.seconds⟩, ?_, ?_⟩
  · show Function.update cache.map_ no (some cache.allocated) no' = some it ↔ ∃ node ∈ _ :: cache.lists_, _
    rw [List.exists_mem_cons_iff]
    by_cases heq : no' = no
    · subst heq
      rw [Function.update_self, Option.some.injEq]
      refine ⟨fun hit => .inl ⟨rfl, hit⟩, ?_⟩
      rintro (⟨-, hit⟩ | ⟨node, hnode, hfirst, -⟩)
      · exact hit
      · exact absurd (mem_numbers.mpr ⟨node, hnode, hfirst⟩) hno
    · rw [Function.update_of_ne heq, h.map]
      refine ⟨.inr, ?_⟩
      rintro (⟨hfirst, -⟩ | hmem)
      · exact absurd hfirst.symm heq
      · exact hmem
  · rw [List.mem_map]
    rintro ⟨node, hnode, haddr⟩
    exact absurd haddr (h.fresh node hnode).1.ne
  · rw [List.mem_map]
    rintro ⟨node, hnode, hsecond⟩
    exact hifs node hnode hsecond
  · refine List.forall_mem_cons.mpr ⟨⟨Nat.lt_succ_self _, Nat.lt_succ_of_lt hlt⟩, fun node hnode => ?_⟩
    have := h.fresh node hnode
    exact ⟨Nat.lt_succ_of_lt this.1, Nat.lt_succ_of_lt this.2⟩
  · exact List.forall_mem_cons.mpr ⟨hopen, h.streams⟩

theorem streams_newStream (cache : TableCache) (files : String → Bool) (name : String) :
    (cache.newStream files name).1.streams cache.allocated = some ⟨name, files name, false⟩ := Function.update_self ..

@[simp] theorem numbers_push (cache : TableCache) (no : UInt64) (ifs : Addr) :
    ((cache.push_front no ifs).mapBegin no).numbers = no :: cache.numbers := rfl

theorem closeStream_eq {stream : Ifstream} (hstream : cache.streams ifs = some stream) (hdeleted : stream.deleted = false) :
    cache.closeStream ifs = some { cache with
      streams := Function.update cache.streams ifs (some { stream with is_open := false }) } := by
  rw [closeStream, hstream]
  simp [hdeleted]

theorem deleteStream_eq {stream : Ifstream} (hstream : cache.streams ifs = some stream) (hdeleted : stream.deleted = false) :
    cache.deleteStream ifs = some { cache with
      streams := Function.update cache.streams ifs (some { stream with is_open := false, deleted := true }) } := by
  rw [deleteStream, hstream]
  simp [hdeleted]

theorem erase_eq (hderef : cache.deref it = some node) :
    cache.erase it = some { cache with lists_ := cache.lists_.filter (·.addr ≠ it) } := by
  rw [erase, hderef]
  rfl

/-- `open` on a table in the cache. -/
theorem Stands.open_hit (h : Stands dir cache) (files : String → Bool) (hnode : node ∈ cache.lists_) :
    cache.open files ⟨dir, node.first⟩ =
      some (((cache.dropped node).push_front node.first node.second).mapBegin node.first, node.second) := by
  have hne : cache.allocated ≠ node.addr := (h.fresh node hnode).1.ne'
  have hderef : (cache.push_front node.first node.second).deref node.addr = some node := by
    rw [TableCache.deref, push_front, List.find?_cons_of_neg (by simpa using hne)]
    exact h.deref hnode
  have herase : (cache.push_front node.first node.second).erase node.addr =
      some { cache.push_front node.first node.second with
        lists_ := ⟨cache.allocated, node.first, node.second⟩ :: cache.lists_.filter (·.addr ≠ node.addr) } := by
    rw [erase_eq hderef, push_front, List.filter_cons_of_pos (by simpa using hne)]
  rw [TableCache.open, h.map_node hnode]
  simp only [h.deref hnode, Option.bind_eq_bind, Option.bind_some]
  rw [herase]
  simp only [Option.bind_some, mapBegin, push_front, TableCache.deref, List.head?_cons, Option.map_some,
    Function.update_self, decide_true, List.find?_cons_of_pos, TableCache.dropped, mapErase, Function.update_idem]
  rfl

/-- The last node goes, and its stream is closed and deleted. -/
theorem Stands.evict (h : Stands dir cache) (hback : cache.lists_.getLast? = some back) :
    cache.evict = some { cache.dropped back with
      streams := Function.update cache.streams back.second (some (deletedStream dir back.first)) } := by
  have hmem : back ∈ cache.lists_ := List.mem_of_getLast? hback
  have hlast : cache.lists_.filter (·.addr ≠ back.addr) = cache.lists_.dropLast := by
    have hnd : cache.lists_.Nodup := h.addrs.of_map _
    rw [← Lru.erase_last hnd hback, hnd.erase_eq_filter]
    refine List.filter_congr fun node hnode => ?_
    have hiff := h.addr_eq hnode hmem
    rw [Bool.eq_iff_iff]
    simp [hiff]
  have hclose : (cache.mapErase back.first).closeStream back.second = some { cache.mapErase back.first with
      streams := Function.update cache.streams back.second (some { openStream dir back.first with is_open := false }) } :=
    closeStream_eq (h.streams back hmem) rfl
  rw [TableCache.evict, hback]
  simp only [Option.bind_eq_bind, Option.bind_some]
  rw [hclose, Option.bind_some, deleteStream_eq (Function.update_self ..) rfl, Option.bind_some, Function.update_idem,
    TableCache.dropped, hlast]
  rfl

/-- `open` on a table that is not in the cache. -/
theorem open_miss (hmap : cache.map_ no = none) (files : String → Bool) :
    cache.open files ⟨dir, no⟩ =
      (if cache.lists_.length = StorageOption.TABLE_CACHE_SIZE then cache.evict else some cache).map fun cache =>
        (((cache.newStream files (SSTableId.name ⟨dir, no⟩)).1.push_front no cache.allocated).mapBegin no,
          cache.allocated) := by
  rw [TableCache.open, hmap]
  simp only [Option.bind_eq_bind]
  by_cases hfull : cache.lists_.length = StorageOption.TABLE_CACHE_SIZE
  · rw [if_pos hfull, if_pos hfull, Option.map_eq_bind]
    rfl
  · rw [if_neg hfull, if_neg hfull]
    rfl

/-- Before a new table comes in, a full cache has given its last table away, and any other cache nothing. -/
theorem Stands.room (h : Stands dir cache) :
    ∃ cache', (if cache.lists_.length = StorageOption.TABLE_CACHE_SIZE then cache.evict else some cache) = some cache' ∧
      Stands dir cache' ∧ cache'.allocated = cache.allocated ∧
      cache'.numbers =
        (if cache.numbers.length = StorageOption.TABLE_CACHE_SIZE then cache.numbers.dropLast else cache.numbers) ∧
      ∀ node ∈ cache.lists_, node.first ∉ cache'.numbers →
        cache.lists_.length = StorageOption.TABLE_CACHE_SIZE ∧ cache.numbers.getLast? = some node.first ∧
        cache'.streams node.second = some (deletedStream dir node.first) := by
  have hlength : cache.numbers.length = cache.lists_.length := List.length_map _
  rw [hlength]
  by_cases hfull : cache.lists_.length = StorageOption.TABLE_CACHE_SIZE
  · have hpos : 0 < cache.lists_.length := by
      rw [hfull]
      decide
    obtain ⟨back, hback⟩ := Option.isSome_iff_exists.mp (List.getLast?_isSome.mpr (List.ne_nil_of_length_pos hpos))
    have hmem : back ∈ cache.lists_ := List.mem_of_getLast? hback
    have hlast : cache.numbers.getLast? = some back.first := by rw [numbers, List.getLast?_map, hback, Option.map_some]
    have hstands := h.dropped hmem
    rw [if_pos hfull, if_pos hfull, h.evict hback]
    refine ⟨_, rfl, hstands.streams_update le_rfl fun node hnode => Function.update_of_ne ?_ _ _, rfl, ?_, ?_⟩
    · obtain ⟨hnode, hne⟩ := mem_dropped.mp hnode
      exact fun hsecond => hne (congrArg _ (List.inj_on_of_nodup_map h.seconds hnode hmem hsecond))
    · show (cache.dropped back).numbers = cache.numbers.dropLast
      rw [numbers_dropped h hmem, Lru.erase_last h.nodup hlast]
    · intro node hnode hgone
      obtain rfl : node = back := by
        by_contra hne
        refine hgone ?_
        show node.first ∈ (cache.dropped back).numbers
        exact mem_numbers.mpr ⟨node, mem_dropped.mpr ⟨hnode, fun haddr => hne ((h.addr_eq hnode hmem).mp haddr)⟩, rfl⟩
      exact ⟨hfull, hlast, Function.update_self ..⟩
  · rw [if_neg hfull, if_neg hfull]
    exact ⟨cache, rfl, h, rfl, rfl, fun node hnode hgone => absurd (mem_numbers.mpr ⟨node, hnode, rfl⟩) hgone⟩

theorem kept_snoc (calls : List Call) (c : Call) :
    kept (calls ++ [c]) = Lru.step StorageOption.TABLE_CACHE_SIZE (kept calls) c.use := by
  rw [kept, List.map_append]
  exact Lru.kept_snoc _ _ _

/-- `open` on a table that can be opened. -/
theorem Stands.opens (h : Stands dir cache) (hkept : cache.numbers = kept calls)
    (hfits : no ∈ kept calls ∨ files (SSTableId.name ⟨dir, no⟩) = true) :
    ∃ cache' ifs, cache.open files ⟨dir, no⟩ = some (cache', ifs) ∧ Stands dir cache' ∧
      cache'.numbers = Lru.touch StorageOption.TABLE_CACHE_SIZE (kept calls) no ∧
      Answers dir calls cache cache' (some ifs) (.opens files no) := by
  by_cases hno : no ∈ cache.numbers
  · obtain ⟨node, hnode, rfl⟩ := mem_numbers.mp hno
    have hdropped := numbers_dropped h hnode
    have hpush : Stands dir (((cache.dropped node).push_front node.first node.second).mapBegin node.first) := by
      refine (h.dropped hnode).push ?_ (fun m hm hsecond => ?_) (h.fresh node hnode).2 (h.streams node hnode)
      · rw [hdropped]
        exact h.nodup.not_mem_erase
      · obtain ⟨hm, hne⟩ := mem_dropped.mp hm
        exact hne (congrArg _ (List.inj_on_of_nodup_map h.seconds hm hnode hsecond))
    refine ⟨_, _, h.open_hit files hnode, hpush, ?_, ⟨_, rfl, h.streams node hnode⟩, fun m hm hgone => ?_⟩
    · rw [numbers_push, hdropped, Lru.touch, if_pos (hkept ▸ hno), hkept]
    · refine absurd ?_ hgone
      rw [numbers_push, hdropped]
      by_cases heq : m.first = node.first
      · exact heq ▸ List.mem_cons_self
      · exact List.mem_cons_of_mem _ ((List.mem_erase_of_ne heq).mpr (mem_numbers.mpr ⟨m, hm, rfl⟩))
  · have hopen := hfits.resolve_left (hkept ▸ hno)
    obtain ⟨mid, hroom, hmid, halloc, hnumbers, hevicted⟩ := h.room
    have hmidNo : no ∉ mid.numbers := by
      rw [hnumbers]
      split
      · exact fun hmem => hno ((List.dropLast_sublist _).subset hmem)
      · exact hno
    -- the new stream has an address that no node has
    have hnew : Stands dir (mid.newStream files (SSTableId.name ⟨dir, no⟩)).1 :=
      hmid.streams_update (Nat.le_succ _) fun node hnode => Function.update_of_ne (hmid.fresh node hnode).2.ne _ _
    have hstream : (mid.newStream files (SSTableId.name ⟨dir, no⟩)).1.streams mid.allocated = some (openStream dir no) := by
      rw [streams_newStream, hopen]
      rfl
    refine ⟨_, _, (open_miss (h.map_none hno) files).trans (congrArg _ hroom),
      hnew.push hmidNo (fun node hnode => (hmid.fresh node hnode).2.ne) (Nat.lt_succ_self _) hstream, ?_,
      ⟨_, rfl, hstream⟩, fun node hnode hgone => ?_⟩
    · rw [numbers_push, Lru.touch, if_neg (hkept ▸ hno), ← hkept]
      exact congrArg _ hnumbers
    · obtain ⟨hfull, hlast, hdeleted⟩ := hevicted node hnode fun hmem => hgone (List.mem_cons_of_mem _ hmem)
      refine ⟨hfull, hno, fun other hother hne => ?_, ?_⟩
      · rw [hkept, kept] at hlast hother
        exact Lru.lastUse_last_lt hlast hother hne
      · refine (Function.update_of_ne ?_ _ _).trans hdeleted
        exact halloc ▸ (h.fresh node hnode).2.ne

/-- What a call does in a cache that stands. -/
theorem Stands.call (h : Stands dir cache) (hkept : cache.numbers = kept calls) (hfits : Fits dir calls c) :
    ∃ cache' ifs, cache.call dir c = some (cache', ifs) ∧ Stands dir cache' ∧ cache'.numbers = kept (calls ++ [c]) ∧
      Answers dir calls cache cache' ifs c := by
  rw [kept_snoc]
  cases c with
  | opens files no =>
      obtain ⟨cache', ifs, hopen, hstands, hnumbers, hanswers⟩ := h.opens hkept hfits
      refine ⟨cache', some ifs, ?_, hstands, hnumbers, hanswers⟩
      rw [TableCache.call, hopen, Option.map_some]
  | closes no =>
      have hno : no ∉ cache.numbers := hkept ▸ hfits
      refine ⟨cache, none, ?_, h, ?_, fun other => ⟨fun hmem => ⟨hmem, ?_⟩, And.left⟩⟩
      · rw [TableCache.call, TableCache.close, h.map_none hno, Option.map_some]
      · rw [hkept]
        exact (List.erase_of_not_mem hfits).symm
      · rintro rfl
        exact hno hmem

/-- `close` on a table in the cache: the stream to delete is taken from the node that is gone. -/
theorem close_hit (hmap : cache.map_ no = some it) : cache.close ⟨dir, no⟩ = none := by
  rw [TableCache.close, hmap]
  simp only [Option.bind_eq_bind, Option.bind_eq_none_iff]
  intro node hnode closed hclosed erased herased
  have hgone : erased.deref it = none := by
    simp only [erase, Option.bind_eq_bind, Option.bind_eq_some_iff] at herased
    obtain ⟨-, -, herased⟩ := herased
    obtain rfl := Option.some.inj herased
    exact deref_erased rfl
  rw [hgone]
  exact fun _ h => nomatch h

/-! ## Whole sequences -/

theorem run_snoc (dir : String) (calls : List Call) (c : Call) :
    run dir (calls ++ [c]) = (run dir calls).bind fun cache => (cache.call dir c).map Prod.fst := by
  rw [run, List.foldlM_append]
  refine Option.bind_congr fun cache _ => ?_
  simp

theorem Stands.keeps (h : Stands dir cache) (hkept : cache.numbers = kept calls) : cache.Keeps dir calls := by
  refine ⟨hkept, fun no => ?_, fun no it hit => ?_, h.nodup, ?_, ?_, h.streams⟩
  · rw [mem_numbers]
    constructor
    · rintro ⟨it, hit⟩
      obtain ⟨node, hnode, hfirst, -⟩ := (h.map no it).mp hit
      exact ⟨node, hnode, hfirst⟩
    · rintro ⟨node, hnode, rfl⟩
      exact ⟨_, h.map_node hnode⟩
  · obtain ⟨node, hnode, rfl, rfl⟩ := (h.map no it).mp hit
    exact ⟨node, h.deref hnode, rfl⟩
  · have hlength : cache.lists_.length = (kept calls).length := hkept ▸ (List.length_map _).symm
    rw [hlength]
    exact Lru.length_kept_le (by decide) _
  · rw [hkept]
    exact Lru.kept_ordered _ _

theorem run_stands (dir : String) (calls : List Call) (hfits : ∀ pre c, pre ++ [c] <+: calls → Fits dir pre c) :
    ∃ cache, run dir calls = some cache ∧ Stands dir cache ∧ cache.numbers = kept calls := by
  induction calls using List.reverseRecOn with
  | nil => exact ⟨{}, rfl, .new dir, rfl⟩
  | append_singleton calls c ih =>
      obtain ⟨cache, hrun, hstands, hkept⟩ := ih fun pre d h => hfits pre d (h.trans (List.prefix_append _ _))
      obtain ⟨cache', ifs, hcall, hstands', hkept', -⟩ := hstands.call hkept (hfits calls c List.prefix_rfl)
      refine ⟨cache', ?_, hstands', hkept'⟩
      rw [run_snoc, hrun, Option.bind_some, hcall, Option.map_some]

/-- **The cache is a correct LRU cache exactly until a table in it is closed**, as far as the files of the tables can be
    opened. -/
theorem correct_iff (dir : String) (calls : List Call) :
    Correct dir calls ↔ ∀ pre c, pre ++ [c] <+: calls → Fits dir pre c := by
  constructor
  · intro h pre c hpre
    obtain ⟨cache, hrun, hkeeps⟩ := h.keeps pre ((List.prefix_append _ _).trans hpre)
    obtain ⟨cache', ifs, hcall, hanswers⟩ := h.answers pre c cache hpre hrun
    cases c with
    | opens files no =>
        refine or_iff_not_imp_left.mpr fun hno => ?_
        obtain ⟨⟨a, hifs, hstream⟩, -⟩ := hanswers
        have hmap : cache.map_ no = none := by
          rw [Option.eq_none_iff_forall_ne_some]
          exact fun it hit => hno (hkeeps.kept ▸ (hkeeps.map no).mp ⟨it, hit⟩)
        -- the stream is a new one, and says whether the file could be opened
        rw [call, open_miss hmap] at hcall
        simp only [Option.map_map, Option.map_eq_some_iff, Function.comp_apply, Prod.mk.injEq] at hcall
        obtain ⟨mid, -, rfl, rfl⟩ := hcall
        obtain rfl := Option.some.inj hifs
        have hnew := (mid.streams_newStream files (SSTableId.name ⟨dir, no⟩)).symm.trans hstream
        exact congrArg Ifstream.is_open (Option.some.inj hnew)
    | closes no =>
        intro hno
        rw [← hkeeps.kept] at hno
        obtain ⟨it, hit⟩ := (hkeeps.map no).mpr hno
        rw [call, close_hit hit] at hcall
        cases hcall
  · intro hfits
    refine ⟨fun pre hpre => ?_, fun pre c cache hpre hrun => ?_⟩
    · obtain ⟨cache, hrun, hstands, hkept⟩ := run_stands dir pre fun p c h => hfits p c (h.trans hpre)
      exact ⟨cache, hrun, hstands.keeps hkept⟩
    · obtain ⟨cache', hrun', hstands, hkept⟩ :=
        run_stands dir pre fun p c h => hfits p c (h.trans ((List.prefix_append _ _).trans hpre))
      obtain rfl := Option.some.inj (hrun.symm.trans hrun')
      obtain ⟨cache'', ifs, hcall, -, -, hanswers⟩ := hstands.call hkept (hfits pre c hpre)
      exact ⟨cache'', ifs, hcall, hanswers⟩

/-- A table is opened and closed again: `close` has no value. -/
theorem not_correct_openClose : ¬ Correct "d" [.opens (fun _ => true) 1, .closes 1] := by
  intro h
  obtain ⟨cache, hrun, -⟩ := h.keeps _ List.prefix_rfl
  have hnone : run "d" [.opens (fun _ => true) 1, .closes 1] = none := rfl
  cases hnone.symm.trans hrun

end TableCache
end DDBMS
