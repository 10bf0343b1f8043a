import DDBMS.Recovery.LogManagerOrder

/-!
# `Recovery.LogManagerDurable` — what `persistent_lsn_` promises

A record whose LSN is at most `persistent_lsn_` is in the file, and `persistent_lsn_` never goes back, as long as the LSNs
have not wrapped. This is what a client of the log may rely on, together with what one call of `AppendLogRecord` does
to the records (`append_cases`, `wake_cases`).
-/

namespace DDBMS
namespace LogManager

open LogRecord (encode)

variable {w w' : World} {t : Nat} {r : LogRecord} {e : Event}

/-! ## What a step does to the records -/

theorem append_cases (h : next w (.append t r) = some w') : w.waiting t = none ∧
    (w' = { w.setWaiting t (some r) with mgr := { w.mgr with needFlush_ := true } } ∨ w' = w.appendNow t r) := by
  cases next_cases h with
  | wait hnone => exact ⟨hnone, Or.inl rfl⟩
  | append hnone => exact ⟨hnone, Or.inr rfl⟩

theorem wake_cases (h : next w (.wake t) = some w') :
    ∃ r, w.waiting t = some r ∧ (w' = w ∨ w' = w.appendNow t r) := by
  cases next_cases h with
  | sleep hwaiting => exact ⟨_, hwaiting, Or.inl rfl⟩
  | wake hwaiting => exact ⟨_, hwaiting, Or.inr rfl⟩

/-- What becomes of a record that thread `t` hands to the log. -/
inductive Logs (w w' : World) (t : Nat) (r : LogRecord) : Prop where
  | waits (hwait : w'.waiting t = some r) (happended : w'.appended = w.appended)
  | appends (hwait : w'.waiting t = none) (lsn : Int) (happended : w'.appended = w.appended ++ [r.SetLsn lsn])

/-- The other threads wait for what they waited for. -/
def SameWaits (w w' : World) (t : Nat) : Prop := ∀ u, u ≠ t → w'.waiting u = w.waiting u

theorem sameWaits_set (w : World) (x : Option LogRecord) : SameWaits w (w.setWaiting t x) t := fun _ hu => if_neg hu

theorem logs_append (h : next w (.append t r) = some w') : Logs w w' t r ∧ SameWaits w w' t := by
  obtain ⟨-, rfl | rfl⟩ := append_cases h
  · exact ⟨.waits (if_pos rfl) rfl, sameWaits_set w _⟩
  · exact ⟨.appends (if_pos rfl) _ appendNow_appended, sameWaits_set w none⟩

theorem logs_wake (h : next w (.wake t) = some w') (hr : w.waiting t = some r) : Logs w w' t r ∧ SameWaits w w' t := by
  obtain ⟨s, hs, hw⟩ := wake_cases h
  obtain rfl := Option.some.inj (hr.symm.trans hs)
  obtain rfl | rfl := hw
  · exact ⟨.waits hr rfl, fun _ _ => rfl⟩
  · exact ⟨.appends (if_pos rfl) _ appendNow_appended, sameWaits_set w none⟩

/-- The events of the flush thread. -/
def Event.Flushes : Event → Prop
  | .append _ _ | .wake _ => False
  | .swap | .write | .store | .reset => True

/-- The flush thread appends nothing and wakes nobody up. -/
theorem flush_frame (h : next w e = some w') (he : e.Flushes) :
    w'.appended = w.appended ∧ w'.waiting = w.waiting ∧ w'.mgr.next_lsn_ = w.mgr.next_lsn_ := by
  cases next_cases h with
  | wait | append | sleep | wake => exact he.elim
  | swap | empty | write | store | reset => exact ⟨rfl, rfl, rfl⟩

/-- Appended records stay. -/
theorem next_appended (h : next w e = some w') : ∃ rs, w'.appended = w.appended ++ rs := by
  have hsame : w'.appended = w.appended → ∃ rs, w'.appended = w.appended ++ rs :=
    fun heq => ⟨[], by rw [heq, List.append_nil]⟩
  cases e with
  | append t r =>
      obtain ⟨-, rfl | rfl⟩ := append_cases h
      · exact hsame rfl
      · exact ⟨_, appendNow_appended⟩
  | wake t =>
      obtain ⟨r, -, rfl | rfl⟩ := wake_cases h
      · exact hsame rfl
      · exact ⟨_, appendNow_appended⟩
  | swap | write | store | reset => exact hsame (flush_frame h trivial).1

/-- A step of one thread leaves the others waiting. -/
theorem next_waiting (h : next w e = some w') {u : Nat} (hu : ∀ r, e ≠ .append u r) (hu' : e ≠ .wake u) :
    w'.waiting u = w.waiting u := by
  cases e with
  | append t r =>
      have hne : u ≠ t := fun heq => hu r (by rw [heq])
      obtain ⟨-, rfl | rfl⟩ := append_cases h
      · exact if_neg hne
      · rw [appendNow_waiting, if_neg hne]
  | wake t =>
      have hne : u ≠ t := fun heq => hu' (by rw [heq])
      obtain ⟨r, -, rfl | rfl⟩ := wake_cases h
      · rfl
      · rw [appendNow_waiting, if_neg hne]
  | swap | write | store | reset => exact congrFun (flush_frame h trivial).2.1 u

/-- The flush thread can empty the log buffer, from wherever it is. -/
def Drains (w : World) : Prop :=
  ∃ es w', Run (Guarded (fun _ e => e.Flushes) (FunStep next)) w es w' ∧ w'.mgr.log_buffer_write_offset_ = 0

theorem Drains.cons (hst : next w e = some w') (he : e.Flushes) (h : Drains w') : Drains w := by
  obtain ⟨es, w'', hrun, hoff⟩ := h
  exact ⟨e :: es, w'', Run.cons ⟨he, hst⟩ hrun, hoff⟩

theorem drains_idle (h : w.flushThread = .idle) : Drains w := by
  by_cases hpos : 0 < w.mgr.log_buffer_write_offset_
  · have hswap : next w .swap = some { w with
        mgr := { w.mgr.SwapBuffer with flush_lsn_ := wrap32 (w.mgr.next_lsn_ - 1) }
        flushThread := .writing (wrap32 (w.mgr.next_lsn_ - 1)) } := by
      simp only [next, h, ne_eq, not_true_eq_false, if_false, if_pos hpos]
    exact ⟨[.swap], _, Run.single ⟨trivial, hswap⟩, rfl⟩
  · exact ⟨[], w, Run.refl, by omega⟩

theorem drains_stored (h : w.flushThread = .stored) : Drains w := by
  have hreset : next w .reset = some { w with mgr := { w.mgr with needFlush_ := false }, flushThread := .idle } := by
    simp only [next, h]
  exact Drains.cons hreset trivial (drains_idle rfl)

theorem drains_written {lsn : Int} (h : w.flushThread = .written lsn) : Drains w := by
  have hstore : next w .store = some { w with mgr := { w.mgr with persistent_lsn_ := lsn }, flushThread := .stored } := by
    simp only [next, h]
  exact Drains.cons hstore trivial (drains_stored rfl)

/-- It finishes its round, and swaps the buffers in the next one. -/
theorem drains (w : World) : Drains w := by
  cases h : w.flushThread with
  | idle => exact drains_idle h
  | stored => exact drains_stored h
  | written lsn => exact drains_written h
  | writing lsn =>
      have hwrite : next w .write = some { w with
          mgr := { w.mgr with
            log_file := LogStorage.WriteLog w.mgr.log_file w.mgr.flush_buffer_ w.mgr.flush_buffer_write_offset_ }
          flushThread := .written lsn } := by
        simp only [next, h]
      exact Drains.cons hwrite trivial (drains_written rfl)

/-! ## Logged and durable -/

/-- A record of the key has this LSN. -/
def World.Logged (w : World) (key : Bytes) (lsn : Int) : Prop :=
  ∃ r ∈ w.appended, r.lsn_ = lsn ∧ r.key = key

/-- The file holds a record of the key with this LSN, behind the encodings of whole records. -/
def World.InFile (w : World) (key : Bytes) (lsn : Int) : Prop :=
  ∃ (pre : List LogRecord) (r : LogRecord) (post : List LogRecord),
    w.mgr.log_file = List.flatMap encode pre ++ (r.encode ++ List.flatMap encode post) ∧
    r.lsn_ = lsn ∧ r.key = key

theorem World.Logged.next {key : Bytes} {lsn : Int} (h : w.Logged key lsn) (hst : LogManager.next w e = some w') :
    w'.Logged key lsn := by
  obtain ⟨r, hr, hlsn⟩ := h
  obtain ⟨rs, hrs⟩ := next_appended hst
  refine ⟨r, ?_, hlsn⟩
  rw [hrs]
  exact List.mem_append_left _ hr

/-- A call of `AppendLogRecord` waits, or returns the LSN of its record. -/
theorem append_result (h : next w (.append t r) = some w') :
    w'.waiting t = some r ∨ (w'.waiting t = none ∧ w'.Logged r.key w.mgr.next_lsn_) := by
  obtain ⟨-, rfl | rfl⟩ := append_cases h
  · exact Or.inl (if_pos rfl)
  · refine Or.inr ⟨?_, r.SetLsn w.mgr.next_lsn_, ?_, rfl, rfl⟩
    · rw [appendNow_waiting, if_pos rfl]
    · rw [appendNow_appended]
      exact List.mem_append_right _ List.mem_cons_self

/-- So does a call that wakes up. -/
theorem wake_result (h : next w (.wake t) = some w') : ∃ r, w.waiting t = some r ∧
    (w'.waiting t = some r ∨ (w'.waiting t = none ∧ w'.Logged r.key w.mgr.next_lsn_)) := by
  obtain ⟨r, hr, rfl | rfl⟩ := wake_cases h
  · exact ⟨r, hr, Or.inl hr⟩
  · refine ⟨r, hr, Or.inr ⟨?_, r.SetLsn w.mgr.next_lsn_, ?_, rfl, rfl⟩⟩
    · rw [appendNow_waiting, if_pos rfl]
    · rw [appendNow_appended]
      exact List.mem_append_right _ List.mem_cons_self

/-- An LSN is the position of its record. -/
theorem Inv.lsn_eq (h : Inv w) (hlen : w.appended.length < 2 ^ 31) {pre post : List LogRecord}
    (heq : w.appended = pre ++ r :: post) : r.lsn_ = pre.length := by
  have horder := h.inOrder (Nat.le_of_lt hlen)
  have hget := congrArg (fun l => l[pre.length]?) horder
  have hlt : pre.length < w.appended.length := by
    rw [heq, List.length_append, List.length_cons]
    omega
  have hleft : w.appended[pre.length]? = some r := by
    rw [heq, List.getElem?_append_right (le_refl _), Nat.sub_self]
    rfl
  simp only [List.getElem?_map, hleft, List.getElem?_range hlt] at hget
  exact Option.some.inj hget

/-- The published LSN is the one before a record that is still to be written, or in flight. -/
theorem Pieces.persistent_lt {done flying buffered : List LogRecord} (hp : Pieces w done flying buffered)
    (hlen : w.appended.length < 2 ^ 31) : w.mgr.persistent_lsn_ < done.length := by
  obtain ⟨p, hle, heq⟩ := hp.persistent
  have happ := congrArg List.length hp.appended
  rw [List.length_append] at happ
  rw [heq, wrap32_of_lt] <;> omega

/-- **Durability.** A logged record up to `persistent_lsn_` is in the file. -/
theorem Inv.inFile (h : Inv w) (hlen : w.appended.length < 2 ^ 31) {key : Bytes} {lsn : Int}
    (hlogged : w.Logged key lsn) (hle : lsn ≤ w.mgr.persistent_lsn_) : w.InFile key lsn := by
  obtain ⟨r, hr, rfl, hkey⟩ := hlogged
  obtain ⟨pre, post, heq⟩ := List.append_of_mem hr
  obtain ⟨done, flying, buffered, hp⟩ := h.pieces
  have hlsn := h.lsn_eq hlen heq
  have hlt := hp.persistent_lt hlen
  -- its position is one of the file's
  have hdone : pre.length < done.length := by omega
  obtain ⟨rest, hrest⟩ : ∃ rest, done = pre ++ r :: rest := by
    have hcut : done = (pre ++ r :: post).take done.length := by
      rw [← heq, hp.appended, List.take_left]
    refine ⟨post.take (done.length - pre.length - 1), ?_⟩
    rw [List.take_append, List.take_of_length_le (Nat.le_of_lt hdone)] at hcut
    obtain ⟨k, hk⟩ : ∃ k, done.length - pre.length = k + 1 := ⟨done.length - pre.length - 1, by omega⟩
    rw [hk, List.take_succ_cons] at hcut
    rw [hk, Nat.add_sub_cancel]
    exact hcut
  refine ⟨pre, r, rest, ?_, rfl, hkey⟩
  rw [hp.file, hrest, List.flatMap_append, List.flatMap_cons]

/-- `persistent_lsn_` never goes back. -/
theorem Inv.persistent_le (h : Inv w) (hlen : w.appended.length < 2 ^ 31) (hst : next w e = some w') :
    w.mgr.persistent_lsn_ ≤ w'.mgr.persistent_lsn_ := by
  obtain ⟨done, flying, buffered, hp⟩ := h.pieces
  cases next_cases hst with
  | wait | append | sleep | wake | swap | empty | write | reset => exact le_refl _
  | @store lsn hwritten =>
      -- the flush thread publishes the last LSN that it has written
      show w.mgr.persistent_lsn_ ≤ lsn
      have hknows := hp.knows
      rw [hwritten] at hknows
      have hlt := hp.persistent_lt hlen
      have happ := congrArg List.length hp.appended
      rw [List.length_append] at happ
      rw [hknows.2, wrap32_of_lt] <;> omega

end LogManager
end DDBMS
