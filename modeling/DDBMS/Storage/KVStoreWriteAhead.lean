import DDBMS.Storage.KVStoreLogged
import DDBMS.Storage.KVStoreRefine

/-!
# `Storage.KVStoreWriteAhead` — write-ahead logging of the store

A call of `KVStore::put` appends its record to the log buffer and goes on before the flush thread has written it. If its
pair makes the memtable spill, the pair is in an SSTable before its record is in the log file:
`KVStore_beta::put` never waits for `persistent_lsn_`, and `LogManager::Flush`, which would, is never called. So the
write-ahead rule holds in the runs that meet `FlushedFirst` and fails in others.

`Matches` ties the history to the store: the keys of `memLsns` are those of the memtable, and the keys of `tables` are
those of the SSTables.
-/

namespace DDBMS
namespace KVStore

open SortedAssoc

variable {snappy : Snappy}

/-- **The write-ahead rule**: each entry of an SSTable has its record in the log file, and its LSN is published. -/
def WriteAhead (w : World) : Prop :=
  ∀ table ∈ w.tables, ∀ e ∈ table, e.2 ≤ w.log.mgr.persistent_lsn_ ∧ w.log.InFile e.1 e.2

/-! ## The history is about the store -/

/-- The history has the keys of the store. -/
structure Matches (snappy : Snappy) (w : World) (c : Contents) : Prop where
  represents : Represents snappy w.store c
  mem : w.memLsns.map Prod.fst = c.mem.map Prod.fst
  tables : w.tables.map (List.map Prod.fst) = c.ssts.map (List.map Prod.fst)

/-- What `put` does to the history. -/
theorem Matches.put {w : World} {c : Contents} (h : Matches snappy w c) {t ones : Nat} {key value : Bytes} {lsn : Int}
    {m : SkipList} {s : KVStore_beta} (hroom : c.ssts.length + 1 < 2 ^ 64)
    (hm : w.store.memtable_.put key value ones = some m) (hs : w.store.put snappy key value ones = some s) :
    Matches snappy (({ w.setCall t .idle with store := s } : World).noteSpill (SortedAssoc.put key lsn w.memLsns)
      (m.space > StorageOption.SSTABLE_SPACE)) (c.put key value) := by
  obtain ⟨m', hm', hholds⟩ := h.represents.memtable.put key value ones
  obtain rfl := Option.some.inj (hm.symm.trans hm')
  have hkeys := keys_put h.mem key lsn value
  have hr := h.represents.put (fun _ => hroom) hs
  rw [hholds.space]
  by_cases hspill : c.Spills key value
  · rw [decide_eq_true (show bytesOf _ > _ from hspill)]
    rw [Contents.put_of_spills hspill] at hr ⊢
    refine ⟨hr, rfl, ?_⟩
    show (w.tables ++ [_]).map _ = (c.ssts ++ [_]).map _
    rw [List.map_append, List.map_append, h.tables, List.map_singleton, List.map_singleton, hkeys]
  · rw [decide_eq_false (show ¬ bytesOf _ > _ from hspill)]
    rw [Contents.put_of_not_spills hspill] at hr ⊢
    exact ⟨hr, hkeys, h.tables⟩

theorem matches_step {w w' : World} {c : Contents} {e : Event} (h : Matches snappy w c)
    (hroom : c.ssts.length + 1 < 2 ^ 64) (hst : next snappy w e = some w') :
    ∃ c', Matches snappy w' c' ∧ c'.ssts.length ≤ c.ssts.length + 1 := by
  -- most steps leave the store alone
  have hsame : ∀ {v : World}, v.store = w.store → v.memLsns = w.memLsns → v.tables = w.tables →
      ∃ c', Matches snappy v c' ∧ c'.ssts.length ≤ c.ssts.length + 1 := by
    intro v hstore hmem htables
    refine ⟨c, ⟨?_, ?_, ?_⟩, Nat.le_succ _⟩
    · rw [hstore]
      exact h.represents
    · rw [hmem]
      exact h.mem
    · rw [htables]
      exact h.tables
  cases next_cases hst with
  | log hidle hlog => exact hsame rfl rfl rfl
  | absent => exact hsame rfl rfl rfl
  | put hlog | wakePut hcall hlog =>
      unfold World.afterPutLog
      split <;> exact hsame rfl rfl rfl
  | del hfound hlog | wakeDel hcall hlog =>
      unfold World.afterDelLog
      split <;> exact hsame rfl rfl rfl
  | @storePut t ones key value lsn memtable store hcall hmem hstore =>
      refine ⟨_, h.put hroom hmem hstore, ?_⟩
      unfold Contents.put
      split
      · rw [List.length_append, List.length_singleton]
      · exact Nat.le_succ _
  | @storeDelMem t ones key lsn memtable b hcall hmem =>
      obtain ⟨memtable', hmem', hholds⟩ := h.represents.memtable.del key
      obtain ⟨rfl, -⟩ := Prod.mk.inj (Option.some.inj (hmem.symm.trans hmem'))
      exact ⟨⟨erase key c.mem, c.ssts⟩, ⟨⟨hholds, h.represents.disk⟩, keys_erase h.mem key, h.tables⟩, Nat.le_succ _⟩
  | @storeDelDisk t ones key lsn memtable hcall hmem =>
      -- the tombstone
      obtain ⟨memtable', hmem', hholds⟩ := h.represents.memtable.put key [] ones
      obtain rfl := Option.some.inj (hmem.symm.trans hmem')
      exact ⟨⟨SortedAssoc.put key [] c.mem, c.ssts⟩, ⟨⟨hholds, h.represents.disk⟩, keys_put h.mem key lsn [], h.tables⟩,
        Nat.le_succ _⟩

/-- **The history is about the store**: in every run from an empty directory the tables of the history have the keys
    of the SSTable files, tombstones included. -/
theorem matches_run {log : LogManager.World} {s₀ : KVStore_beta} {txns : Nat → Transaction} {es : List Event}
    {w : World} (hopen : KVStore_beta.new {} = some s₀)
    (h : Run (FunStep (next snappy)) (World.init log s₀ txns) es w) (hlen : es.length < 2 ^ 64) :
    ∃ c, Matches snappy w c ∧ c.ssts.length ≤ es.length := by
  refine h.history (I := fun es w => es.length < 2 ^ 64 → ∃ c, Matches snappy w c ∧ c.ssts.length ≤ es.length)
    ?_ ?_ hlen
  · exact fun _ => ⟨{}, ⟨represents_empty hopen, rfl, rfl⟩, le_refl _⟩
  · intro es w e w' ih hst hlt
    rw [List.length_append, List.length_singleton] at hlt ⊢
    obtain ⟨c, hm, hc⟩ := ih (by omega)
    obtain ⟨c', hm', hc'⟩ := matches_step hm (by omega) hst
    exact ⟨c', hm', by omega⟩

/-! ## Building runs

One thread puts keys `0`, `1`, ... with a value of 45000 bytes. A record takes nearly a whole log buffer, and 46 pairs
fit into the memtable. -/

/-- Pairs with the keys below `n`. -/
def keyed {β : Type} (f : Nat → β) (n : Nat) : List (Bytes × β) :=
  (List.range n).map fun i => ([UInt8.ofNat i], f i)

theorem keyed_succ {β : Type} (f : Nat → β) (n : Nat) : keyed f (n + 1) = keyed f n ++ [([UInt8.ofNat n], f n)] := by
  rw [keyed, List.range_succ, List.map_append]
  rfl

theorem put_keyed {β : Type} (f : Nat → β) {n : Nat} (hn : n < 256) :
    SortedAssoc.put [UInt8.ofNat n] (f n) (keyed f n) = keyed f (n + 1) := by
  have hlt : ∀ e ∈ keyed f n, e.1 < [UInt8.ofNat n] := by
    intro e he
    obtain ⟨i, hi, rfl⟩ := List.mem_map.mp he
    rw [List.mem_range] at hi
    apply List.Lex.rel
    rw [UInt8.lt_iff_toNat_lt, UInt8.toNat_ofNat', UInt8.toNat_ofNat', Nat.mod_eq_of_lt (by omega),
      Nat.mod_eq_of_lt (by omega)]
    exact hi
  have hput : SortedAssoc.put [UInt8.ofNat n] (f n) (keyed f n ++ []) =
      keyed f n ++ SortedAssoc.put [UInt8.ofNat n] (f n) [] := put_append hlt
  rw [List.append_nil] at hput
  rw [hput, keyed_succ]
  rfl

theorem bytesOf_keyed (V : Bytes) (n : Nat) : bytesOf (keyed (fun _ => V) n) = n * (1 + V.length) := by
  induction n with
  | zero => exact (Nat.zero_mul _).symm
  | succ n ih =>
      rw [keyed_succ, bytesOf_append, ih, bytesOf_cons, bytesOf_nil, Nat.succ_mul, Nat.add_zero]
      rfl

theorem fits_keyed {V : Bytes} (hV : V.length = 45000) {n : Nat} (hn : n ≤ 47) :
    Fits 3 (keyed (fun _ => V) n) := by
  have hmax : max_file = 2 ^ 63 - 1 := rfl
  have hlen : (keyed (fun _ => V) n).length = n := by rw [keyed, List.length_map, List.length_range]
  unfold Fits
  rw [entriesCost_eq, bytesOf_keyed, hV, hlen, hmax]
  omega

section Build

variable {V : Bytes} {w : World} {n : Nat}

/-- The store holds `n` pairs in its memtable and no table. -/
structure Loaded (V : Bytes) (w : World) (n : Nat) : Prop where
  represents : Represents SnappyLiterals.snappy w.store ⟨keyed (fun _ => V) n, []⟩
  mutex : w.mutex_ = none
  memLsns : w.memLsns = keyed (fun i => (i : Int)) n
  tables : w.tables = []

/-- The log has `n` records and `offset` bytes in its buffer, and has published `p`. -/
structure LogAt (log : LogManager.World) (n offset : Nat) (p : Int) : Prop where
  inv : LogManager.Inv log
  quiet : LogManager.Quiet log offset
  length : log.appended.length = n
  persistent : log.mgr.persistent_lsn_ = p

theorem LogAt.next_lsn {log : LogManager.World} {offset : Nat} {p : Int} (h : LogAt log n offset p) (hn : n < 2 ^ 31) :
    log.mgr.next_lsn_ = n := by
  rw [h.inv.next_lsn, h.length, wrap32_of_lt] <;> omega

/-- The first half of a put: its record is in the log buffer. -/
theorem next_put (hV : V.length = 45000) {p : Int} (hlog : LogAt w.log n 0 p) (hcall : w.calls 0 = .idle)
    (hn : n < 2 ^ 31) :
    ∃ w', Guarded (FlushedFirst SnappyLiterals.snappy) (FunStep (next SnappyLiterals.snappy)) w
        (.put 0 0 [UInt8.ofNat n] V true) w' ∧
      LogAt w'.log (n + 1) 45033 p ∧ w'.calls 0 = .putStore [UInt8.ofNat n] V n ∧
      (Loaded V w n → Loaded V w' n) := by
  have hshort : 32 + [UInt8.ofNat n].length + V.length < 2 ^ 31 := by
    rw [hV]
    simp
  obtain ⟨hsized, hkey⟩ := putRecord_sized (w.txns 0) hshort
  generalize hrec : putRecord (w.txns 0) [UInt8.ofNat n] V = r at hsized hkey
  have hlen : r.encode.length = 45033 := by
    have htuple : r.IsTuple := by
      rw [← hrec]
      exact Or.inl rfl
    have hvalue : r.value.length = 45000 := by
      rw [← hrec, ← hV]
      apply congrArg List.length
      apply List.take_of_length_le
      show V.length ≤ (UInt32.ofNat V.length).toNat
      rw [UInt32.toNat_ofNat', hV]
    rw [LogManager.length_key_value htuple, hkey, hvalue, LogRecord.HEADER_SIZE, List.length_singleton]
  obtain ⟨happend, hq⟩ := LogManager.next_append (t := 0) hlog.inv hlog.quiet hsized
    (by rw [hlen, LOG_BUFFER_SIZE_eq]; decide)
  have hstep : next SnappyLiterals.snappy w (.put 0 0 [UInt8.ofNat n] V true) =
      some (w.afterPutLog 0 0 [UInt8.ofNat n] V true (w.log.appendNow 0 r)) := by
    simp only [next, hcall, if_pos, hrec, happend, Option.map_some]
  have hafter : w.afterPutLog 0 0 [UInt8.ofNat n] V true (w.log.appendNow 0 r) =
      { (w.setTxn 0 ((w.txns 0).logged w.log.mgr.next_lsn_ ⟨.INSERT_TUPLE, [UInt8.ofNat n], []⟩ true)).setCall 0
        (.putStore [UInt8.ofNat n] V w.log.mgr.next_lsn_) with log := w.log.appendNow 0 r } := by
    rw [World.afterPutLog, hq.waiting, Option.isSome_none, if_neg Bool.false_ne_true]
  refine ⟨_, ⟨hshort, hstep⟩, ?_, ?_, ?_⟩
  · rw [afterPutLog_log]
    refine ⟨?_, ?_, ?_, hlog.persistent⟩
    · exact LogManager.inv_step (e := .append 0 r) hlog.inv ⟨hsized, happend⟩
    · rwa [hlen] at hq
    · rw [LogManager.appendNow_appended, List.length_append, hlog.length]
      rfl
  · rw [hafter, ← hlog.next_lsn hn]
    rfl
  · intro hw
    rw [hafter]
    exact ⟨hw.represents, hw.mutex, hw.memLsns, hw.tables⟩

/-- A flush, next to the store. -/
def flush : List Event := [.log .swap, .log .write, .log .store, .log .reset]

theorem run_flush {offset : Nat} {p : Int} (hlog : LogAt w.log n offset p) (hpos : 0 < offset) (hn : n < 2 ^ 31) :
    ∃ log', Run (Guarded (FlushedFirst SnappyLiterals.snappy) (FunStep (next SnappyLiterals.snappy))) w flush
        { w with log := log' } ∧ LogAt log' n 0 (n - 1) := by
  obtain ⟨w₁, w₂, w₃, w₄, h₁, h₂, h₃, h₄, hq, happ, -, hpers⟩ := LogManager.flush_steps hlog.quiet hpos
  have hrun : Run (Guarded (FlushedFirst SnappyLiterals.snappy) (FunStep (next SnappyLiterals.snappy))) w flush
      { w with log := w₄ } :=
    Run.cons ⟨trivial, next_log rfl h₁⟩ (Run.cons ⟨trivial, next_log rfl h₂⟩
      (Run.cons ⟨trivial, next_log rfl h₃⟩ (Run.single ⟨trivial, next_log rfl h₄⟩)))
  refine ⟨w₄, hrun, ?_, hq, by rw [happ, hlog.length], ?_⟩
  · have hI₁ := LogManager.inv_step (e := .swap) hlog.inv ⟨trivial, h₁⟩
    have hI₂ := LogManager.inv_step (e := .write) hI₁ ⟨trivial, h₂⟩
    have hI₃ := LogManager.inv_step (e := .store) hI₂ ⟨trivial, h₃⟩
    exact LogManager.inv_step (e := .reset) hI₃ ⟨trivial, h₄⟩
  · rw [hpers, hlog.next_lsn hn, wrap32_of_lt] <;> omega

/-- The memtable after one more pair. -/
theorem Loaded.space (hV : V.length = 45000) (hn : n < 47) (hw : Loaded V w n) {m : SkipList}
    (hm : w.store.memtable_.put [UInt8.ofNat n] V 0 = some m) : m.space = (n + 1) * 45001 := by
  obtain ⟨m', hm', hholds⟩ := hw.represents.memtable.put [UInt8.ofNat n] V 0
  obtain rfl := Option.some.inj (hm.symm.trans hm')
  rw [hholds.space, put_keyed (fun _ => V) (show n < 256 by omega), bytesOf_keyed, hV]

/-- The second half of a put spills the memtable if it has 46 pairs before. -/
theorem next_store (hV : V.length = 45000) (hn : n < 47) (hw : Loaded V w n)
    (hcall : w.calls 0 = .putStore [UInt8.ofNat n] V n) :
    ∃ w', next SnappyLiterals.snappy w (.store 0 0) = some w' ∧ w'.log = w.log ∧ w'.calls 0 = .idle ∧
      (n < 46 → Loaded V w' (n + 1)) ∧ (n = 46 → w'.tables = [keyed (fun i => (i : Int)) 47] ∧ w'.mutex_ = none ∧
        Represents SnappyLiterals.snappy w'.store ⟨[], [keyed (fun _ => V) 47]⟩) := by
  have hentries := put_keyed (fun _ => V) (show n < 256 by omega)
  have hlsns := put_keyed (fun i => (i : Int)) (show n < 256 by omega)
  obtain ⟨m, hm, -⟩ := hw.represents.memtable.put [UInt8.ofNat n] V 0
  obtain ⟨s, hs⟩ := hw.represents.put_isSome SnappyLiterals.grows [UInt8.ofNat n] V 0
    (by rw [hentries]; exact fits_keyed hV (by omega))
  have hspace := hw.space hV hn hm
  have hstep : next SnappyLiterals.snappy w (.store 0 0) =
      some (({ w.setCall 0 .idle with store := s } : World).noteSpill
        (SortedAssoc.put [UInt8.ofNat n] (n : Int) w.memLsns) (m.space > StorageOption.SSTABLE_SPACE)) := by
    simp only [next, hcall, hw.mutex, if_pos, hm, hs, Option.bind_eq_bind, Option.bind_some]
  have hr := hw.represents.put (fun _ => by simp) hs
  have hlimit : StorageOption.SSTABLE_SPACE = 2097152 := rfl
  refine ⟨_, hstep, ?_, ?_, ?_, ?_⟩
  · unfold World.noteSpill
    split <;> rfl
  · unfold World.noteSpill
    split <;> rfl
  · intro hlt
    have hsmall : ¬ m.space > StorageOption.SSTABLE_SPACE := by
      rw [hspace, hlimit]
      omega
    have hnot : ¬ Contents.Spills ⟨keyed (fun _ => V) n, []⟩ [UInt8.ofNat n] V := by
      unfold Contents.Spills
      rw [hentries, bytesOf_keyed, hV, hlimit]
      omega
    rw [Contents.put_of_not_spills hnot, hentries] at hr
    rw [decide_eq_false hsmall, hw.memLsns, hlsns]
    exact ⟨hr, hw.mutex, rfl, hw.tables⟩
  · rintro rfl
    have hbig : m.space > StorageOption.SSTABLE_SPACE := by
      rw [hspace, hlimit]
      decide
    have hspills : Contents.Spills ⟨keyed (fun _ => V) 46, []⟩ [UInt8.ofNat 46] V := by
      unfold Contents.Spills
      rw [hentries, bytesOf_keyed, hV, hlimit]
      decide
    rw [Contents.put_of_spills hspills, hentries] at hr
    rw [decide_eq_true hbig, hw.memLsns, hlsns]
    refine ⟨?_, hw.mutex, hr⟩
    show w.tables ++ [_] = _
    rw [hw.tables, List.nil_append]

/-- It meets the condition if nothing spills, or all LSNs are published. -/
theorem flushedFirst_store (hV : V.length = 45000) (hn : n < 47) (hw : Loaded V w n)
    (hcall : w.calls 0 = .putStore [UInt8.ofNat n] V n)
    (hpers : n = 46 → 46 ≤ w.log.mgr.persistent_lsn_) :
    FlushedFirst SnappyLiterals.snappy w (.store 0 0) := by
  intro key value lsn hcall' m hm hspill e he
  obtain ⟨rfl, rfl, rfl⟩ := Call.putStore.inj (hcall.symm.trans hcall')
  have hlimit : StorageOption.SSTABLE_SPACE = 2097152 := rfl
  rw [hw.space hV hn hm, hlimit] at hspill
  obtain rfl : n = 46 := by omega
  rw [hw.memLsns, put_keyed (fun i => (i : Int)) (show 46 < 256 by decide)] at he
  obtain ⟨i, hi, rfl⟩ := List.mem_map.mp he
  rw [List.mem_range] at hi
  exact le_trans (show (i : Int) ≤ 46 by omega) (hpers rfl)

end Build

/-- The calls of one put, and a flush. -/
def putRound (V : Bytes) (n : Nat) : List Event := [.put 0 0 [UInt8.ofNat n] V true, .store 0 0] ++ flush

/-- The start of a run. -/
def start (s₀ : KVStore_beta) : World :=
  World.init (LogManager.World.init LogManager.zeros LogManager.zeros) s₀ (fun _ => { txn_id_ := 1 })

/-- Up to 46 puts, each flushed. -/
theorem run_putRounds {V : Bytes} (hV : V.length = 45000) {s₀ : KVStore_beta} (hopen : KVStore_beta.new {} = some s₀)
    {n : Nat} (hn : n ≤ 46) :
    ∃ w, Run (Guarded (FlushedFirst SnappyLiterals.snappy) (FunStep (next SnappyLiterals.snappy))) (start s₀)
        ((List.range n).flatMap (putRound V)) w ∧
      LogAt w.log n 0 (n - 1) ∧ w.calls 0 = .idle ∧ Loaded V w n := by
  induction n with
  | zero =>
      refine ⟨start s₀, Run.refl, ?_, rfl, represents_empty hopen, rfl, rfl, rfl⟩
      exact ⟨LogManager.inv_init _ _, LogManager.quiet_init _ _, rfl, rfl⟩
  | succ n ih =>
      obtain ⟨w, hrun, hlog, hcall, hw⟩ := ih (by omega)
      obtain ⟨w₁, hput, hlog₁, hcall₁, hw₁⟩ := next_put hV hlog hcall (by omega)
      have hw₁ := hw₁ hw
      obtain ⟨w₂, hstore, hlogeq, hcall₂, hw₂, -⟩ := next_store hV (by omega) hw₁ hcall₁
      have hw₂ := hw₂ (by omega)
      rw [← hlogeq] at hlog₁
      obtain ⟨log', hflush, hlog'⟩ := run_flush hlog₁ (by decide) (by omega)
      have hok := flushedFirst_store hV (by omega) hw₁ hcall₁ (fun heq => by omega)
      refine ⟨{ w₂ with log := log' }, ?_, hlog', hcall₂, hw₂.represents, hw₂.mutex, hw₂.memLsns, hw₂.tables⟩
      rw [List.range_succ, List.flatMap_append, List.flatMap_singleton]
      exact hrun.append (Run.cons hput (Run.cons ⟨hok, hstore⟩ hflush))

/-- The value of the runs below. -/
def wideValue : Bytes := List.replicate 45000 0

theorem length_wideValue : wideValue.length = 45000 := List.length_replicate

/-! ## The rule -/

/-- **Write-ahead logging**, in every run of the store, of its log and of other users of the log, all of whose
    steps meet `FlushedFirst`, while LSNs last. -/
theorem write_ahead {a b : Vector UInt8 LOG_BUFFER_SIZE} {store : KVStore_beta} {txns : Nat → Transaction}
    {es : List Event} {w : World}
    (h : Run (Guarded (FlushedFirst snappy) (FunStep (next snappy)))
      (World.init (LogManager.World.init a b) store txns) es w)
    (hlen : w.log.appended.length < 2 ^ 31) : WriteAhead w := by
  have hI := inv_run (LogManager.inv_init a b) h hlen
  intro table ht e he
  obtain ⟨hlogged, hle⟩ := hI.tables table ht e he
  exact ⟨hle, hI.log.inFile hlen hlogged hle⟩

/-- The memtable spills after a flush. -/
def spillAfterFlush : List Event :=
  (List.range 46).flatMap (putRound wideValue) ++
    ([.put 0 0 [UInt8.ofNat 46] wideValue true] ++ (flush ++ [.store 0 0]))

theorem write_ahead_spillAfterFlush :
    ∃ s₀ w, KVStore_beta.new {} = some s₀ ∧
      Run (Guarded (FlushedFirst SnappyLiterals.snappy) (FunStep (next SnappyLiterals.snappy))) (start s₀)
        spillAfterFlush w ∧ w.tables.length = 1 ∧ WriteAhead w := by
  obtain ⟨s₀, hopen⟩ : ∃ s₀, KVStore_beta.new {} = some s₀ := ⟨_, rfl⟩
  obtain ⟨w, hrun, hlog, hcall, hw⟩ := run_putRounds length_wideValue hopen (le_refl 46)
  obtain ⟨w₁, hput, hlog₁, hcall₁, hw₁⟩ := next_put length_wideValue hlog hcall (by decide)
  obtain ⟨log', hflush, hlog'⟩ := run_flush hlog₁ (by decide) (by decide)
  have hw₁ := hw₁ hw
  have hw₂ : Loaded wideValue { w₁ with log := log' } 46 := ⟨hw₁.represents, hw₁.mutex, hw₁.memLsns, hw₁.tables⟩
  have hok : FlushedFirst SnappyLiterals.snappy { w₁ with log := log' } (.store 0 0) :=
    flushedFirst_store length_wideValue (by decide) hw₂ hcall₁ (fun _ => le_of_eq hlog'.persistent.symm)
  obtain ⟨w₃, hstore, hlogeq, -, -, htables⟩ := next_store length_wideValue (by decide) hw₂ hcall₁
  have hall : Run (Guarded (FlushedFirst SnappyLiterals.snappy) (FunStep (next SnappyLiterals.snappy))) (start s₀)
      spillAfterFlush w₃ :=
    hrun.append ((Run.single hput).append (hflush.append (Run.single ⟨hok, hstore⟩)))
  refine ⟨s₀, w₃, hopen, hall, by rw [(htables rfl).1]; rfl, write_ahead hall ?_⟩
  rw [hlogeq]
  show log'.appended.length < 2 ^ 31
  rw [hlog'.length]
  decide

/-- The same without the last flush. -/
def spillBeforeFlush : List Event :=
  (List.range 46).flatMap (putRound wideValue) ++ [.put 0 0 [UInt8.ofNat 46] wideValue true, .store 0 0]

/-- **An SSTable ahead of the log**: the last put spills the memtable while its record is in the log buffer. -/
theorem spill_before_flush :
    ∃ s₀ w, KVStore_beta.new {} = some s₀ ∧
      Run (FunStep (next SnappyLiterals.snappy)) (start s₀) spillBeforeFlush w ∧ ¬ WriteAhead w := by
  obtain ⟨s₀, hopen⟩ : ∃ s₀, KVStore_beta.new {} = some s₀ := ⟨_, rfl⟩
  obtain ⟨w, hrun, hlog, hcall, hw⟩ := run_putRounds length_wideValue hopen (le_refl 46)
  obtain ⟨w₁, hput, hlog₁, hcall₁, hw₁⟩ := next_put length_wideValue hlog hcall (by decide)
  obtain ⟨w₂, hstore, hlogeq, -, -, htables⟩ := next_store length_wideValue (by decide) (hw₁ hw) hcall₁
  refine ⟨s₀, w₂, hopen, hrun.of_guarded.append (Run.cons hput.2 (Run.single hstore)), ?_⟩
  intro hahead
  rw [← hlogeq] at hlog₁
  -- the last LSN is 46, the published one 45
  have hlast : ([UInt8.ofNat 46], (46 : Int)) ∈ keyed (fun i => (i : Int)) 47 := by
    rw [keyed_succ]
    exact List.mem_append_right _ List.mem_cons_self
  obtain ⟨hle, -⟩ := hahead (keyed (fun i => (i : Int)) 47) (by rw [(htables rfl).1]; exact List.mem_cons_self) _ hlast
  rw [hlog₁.persistent] at hle
  exact absurd hle (by decide)

end KVStore
end DDBMS
