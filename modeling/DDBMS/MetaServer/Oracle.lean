import DDBMS.Lib.Run
import Mathlib.Tactic

/-!
# `MetaServer.Oracle` — the timestamp oracle of the meta server

The model of `meta_server/timestamp.h`: a process that hands out hybrid timestamps (`getTimeStamp`) while a
background thread (`start`) moves the physical part forward (`updateTimestamp`), after having restored it
from the file `last_timestamp` (`syncTimestamp`).

Machine words are `UInt64`; the casts to `int64_t` and to `int` are those of the source. A step is one
critical section of `current_.mutex_`, one file write, or one unlocked test of `getTimeStamp`; the
background thread keeps the mutex over its file write, which `locked` records. The file system is the one
value last written to `last_timestamp`. An exception of `getTimestampFromPath` or `saveTimeStampToPath` is
not caught by the thread that runs `start`, so it ends the process: it is a `crash` at that point.
-/

namespace DDBMS
namespace Oracle

/-! ## Constants and pure functions -/

def physicalShiftBits : UInt64 := 18
def maxRetryCount : Nat := 100
def saveTimestampInterval : UInt64 := 1
def updateTimestampGuard : UInt64 := 1
def maxLogical : UInt64 := 1 <<< physicalShiftBits

/-- `signed(x)` for a `uint64_t`: the conversion to `int` keeps the low 32 bits. -/
def signed (x : UInt64) : Int := x.toUInt32.toInt32.toInt

/-- The timestamp under `current_.mutex_`. -/
structure Timestamp where
  physiacl : UInt64
  logical : UInt64
  deriving DecidableEq, Repr

def composeTS (physical logical : UInt64) : UInt64 := (physical <<< physicalShiftBits) + logical

/-- The physical time `syncTimestamp` goes on with, from the stored bound and the clock. -/
def syncNext (lastTS now : UInt64) : UInt64 :=
  if now - lastTS < updateTimestampGuard then lastTS + updateTimestampGuard else now

/-- The physical time `updateTimestamp` moves to; `none` where it returns without a change. -/
def updateNext (current : Timestamp) (now : UInt64) : Option UInt64 :=
  let jetLag : Int := (now - current.physiacl).toInt64.toInt
  if jetLag > signed updateTimestampGuard then some now
  else if current.logical > maxLogical / 2 then some (current.physiacl + 1)
  else none

/-- Whether `updateTimestamp` writes a new bound to the file before it installs `next`. -/
def savesBound (lastTS next : UInt64) : Bool :=
  signed (lastTS - next) ≤ signed updateTimestampGuard

/-! ## The system -/

/-- Where the thread running `start` stands. -/
inductive Background where
  /-- no process is running -/
  | down
  /-- in `syncTimestamp`, about to save the bound of `next` -/
  | syncSave (next : UInt64)
  /-- in `syncTimestamp`, about to lock the mutex and install `next` -/
  | syncInstall (next : UInt64)
  /-- in the loop of `start`, between two updates -/
  | idle
  /-- in `updateTimestamp` with the mutex held, about to save the bound of `next` -/
  | updateSave (next : UInt64)
  /-- in `updateTimestamp` with the mutex held, about to install `next` -/
  | updateInstall (next : UInt64)
  deriving DecidableEq, Repr

/-- Whether the background thread holds `current_.mutex_`. -/
def Background.locked : Background → Bool
  | .updateSave _ | .updateInstall _ => true
  | _ => false

/-- Where a call of `getTimeStamp` stands. `seq` is the number of its critical section in the process. -/
inductive Call where
  | out
  | loop (i : Nat)
  | drawn (i : Nat) (seq : Nat) (physical logic : UInt64)
  deriving DecidableEq, Repr

/-- A value `getTimeStamp` returned: in which process, and from which critical section. -/
structure Stamp where
  epoch : Nat
  seq : Nat
  ts : UInt64
  deriving DecidableEq, Repr

structure World where
  /-- what `last_timestamp` holds; `none` when there is no such file -/
  file : Option UInt64
  lastTS : UInt64
  current_ : Timestamp
  background : Background
  calls : Nat → Call
  /-- history: the number of processes started so far -/
  epoch : Nat
  /-- history: what each critical section of `getTimeStamp` in this process drew, oldest first -/
  draws : List (UInt64 × UInt64)
  /-- history: every timestamp returned so far -/
  returned : List Stamp

/-- No process has run yet; the file holds whatever it holds. -/
def World.init (file : Option UInt64) : World where
  file := file
  lastTS := 0
  current_ := ⟨0, 0⟩
  background := .down
  calls := fun _ => .out
  epoch := 0
  draws := []
  returned := []

inductive Event where
  /-- a process starts and runs `syncTimestamp` up to its save; `current_` is not initialised -/
  | boot (uninit : Timestamp) (now : UInt64)
  /-- `updateTimestamp` locks the mutex, reads the clock and chooses what to do -/
  | update (now : UInt64)
  /-- `saveTimeStampToPath` -/
  | save
  /-- `current_` is set and the mutex released -/
  | install
  | crash
  /-- `getTimeStamp` is called -/
  | call (c : Nat)
  /-- the critical section of one round of `getTimeStamp` -/
  | lock (c : Nat)
  /-- the tests of one round of `getTimeStamp`, after the mutex has been released -/
  | test (c : Nat)
  deriving DecidableEq, Repr

def setCall (calls : Nat → Call) (c : Nat) (x : Call) : Nat → Call :=
  fun d => if d = c then x else calls d

@[simp] theorem setCall_self (calls : Nat → Call) (c : Nat) (x : Call) : setCall calls c x c = x := by
  simp [setCall]

theorem setCall_ne (calls : Nat → Call) {c d : Nat} (x : Call) (h : d ≠ c) :
    setCall calls c x d = calls d := by simp [setCall, h]

/-- `Oracle()` and `syncTimestamp` up to the save: a missing file leaves `lastTS` at 0. -/
def boot (w : World) (uninit : Timestamp) (now : UInt64) : World :=
  let lastTS := w.file.getD 0
  { w with
    lastTS := lastTS
    current_ := uninit
    background := .syncSave (syncNext lastTS now)
    calls := fun _ => .out
    epoch := w.epoch + 1
    draws := [] }

/-- `updateTimestamp` up to its save, or up to its writes where it does not save. -/
def update (w : World) (now : UInt64) : World :=
  match updateNext w.current_ now with
  | none => w
  | some next =>
    { w with background := if savesBound w.lastTS next then .updateSave next else .updateInstall next }

/-- The critical section of `getTimeStamp`. -/
def lock (w : World) (c i : Nat) : World :=
  let logic := w.current_.logical + 1
  { w with
    current_ := { w.current_ with logical := logic }
    calls := setCall w.calls c (.drawn i w.draws.length w.current_.physiacl logic)
    draws := w.draws ++ [(w.current_.physiacl, logic)] }

/-- The tests of `getTimeStamp`: `current_.physiacl` is read again, without the mutex. -/
def test (w : World) (c i seq : Nat) (physical logic : UInt64) : World :=
  if w.current_.physiacl = 0 then { w with calls := setCall w.calls c (.loop (i + 1)) }
  else if logic > maxLogical then { w with calls := setCall w.calls c (.loop (i + 1)) }
  else
    { w with
      calls := setCall w.calls c .out
      returned := w.returned ++ [⟨w.epoch, seq, composeTS physical logic⟩] }

def next (w : World) : Event → Option World
  | .boot uninit now => if w.background = .down then some (boot w uninit now) else none
  | .update now => if w.background = .idle then some (update w now) else none
  | .save =>
    match w.background with
    | .syncSave n =>
      some { w with file := some (n + saveTimestampInterval), background := .syncInstall n }
    | .updateSave n =>
      some { w with file := some (n + saveTimestampInterval), background := .updateInstall n }
    | _ => none
  | .install =>
    match w.background with
    | .syncInstall n => some { w with current_ := ⟨n, 0⟩, background := .idle }
    | .updateInstall n => some { w with current_ := ⟨n, 0⟩, background := .idle }
    | _ => none
  | .crash =>
    if w.background = .down then none
    else some { w with background := .down, calls := fun _ => .out }
  | .call c =>
    match w.calls c with
    | .out => if w.background = .down then none else some { w with calls := setCall w.calls c (.loop 0) }
    | _ => none
  | .lock c =>
    match w.calls c with
    | .loop i =>
      if maxRetryCount ≤ i then some { w with calls := setCall w.calls c .out }   -- `return 0`
      else if w.background.locked then none
      else some (lock w c i)
    | _ => none
  | .test c =>
    match w.calls c with
    | .drawn i seq physical logic => some (test w c i seq physical logic)
    | _ => none

def step : World → Event → World → Prop := FunStep next

/-! ## What each event does -/

section StepCases

variable {w w' : World}

theorem step_boot {uninit : Timestamp} {now : UInt64} (h : step w (.boot uninit now) w') :
    w.background = .down ∧ w' = boot w uninit now := by
  simp only [step, FunStep, next] at h
  split at h
  · rename_i hb; exact ⟨hb, (Option.some.inj h).symm⟩
  · cases h

theorem step_update {now : UInt64} (h : step w (.update now) w') :
    w.background = .idle ∧ w' = update w now := by
  simp only [step, FunStep, next] at h
  split at h
  · rename_i hb; exact ⟨hb, (Option.some.inj h).symm⟩
  · cases h

theorem step_save (h : step w .save w') :
    ∃ n, (w.background = .syncSave n ∧
        w' = { w with file := some (n + saveTimestampInterval), background := .syncInstall n }) ∨
      (w.background = .updateSave n ∧
        w' = { w with file := some (n + saveTimestampInterval), background := .updateInstall n }) := by
  simp only [step, FunStep, next] at h
  split at h
  · rename_i n hb; exact ⟨n, Or.inl ⟨hb, (Option.some.inj h).symm⟩⟩
  · rename_i n hb; exact ⟨n, Or.inr ⟨hb, (Option.some.inj h).symm⟩⟩
  · cases h

theorem step_install (h : step w .install w') :
    ∃ n, (w.background = .syncInstall n ∨ w.background = .updateInstall n) ∧
      w' = { w with current_ := ⟨n, 0⟩, background := .idle } := by
  simp only [step, FunStep, next] at h
  split at h
  · rename_i n hb; exact ⟨n, Or.inl hb, (Option.some.inj h).symm⟩
  · rename_i n hb; exact ⟨n, Or.inr hb, (Option.some.inj h).symm⟩
  · cases h

theorem step_crash (h : step w .crash w') :
    w' = { w with background := .down, calls := fun _ => .out } := by
  simp only [step, FunStep, next] at h
  split at h
  · cases h
  · exact (Option.some.inj h).symm

theorem step_call {c : Nat} (h : step w (.call c) w') :
    w.calls c = .out ∧ w' = { w with calls := setCall w.calls c (.loop 0) } := by
  simp only [step, FunStep, next] at h
  split at h
  · rename_i hc
    split at h
    · cases h
    · exact ⟨hc, (Option.some.inj h).symm⟩
  · cases h

theorem step_lock {c : Nat} (h : step w (.lock c) w') :
    ∃ i, w.calls c = .loop i ∧
      (w' = { w with calls := setCall w.calls c .out } ∨
        (w.background.locked = false ∧ w' = lock w c i)) := by
  simp only [step, FunStep, next] at h
  split at h
  · rename_i i hc
    refine ⟨i, hc, ?_⟩
    split at h
    · exact Or.inl (Option.some.inj h).symm
    · split at h
      · cases h
      · rename_i hl; exact Or.inr ⟨by simpa using hl, (Option.some.inj h).symm⟩
  · cases h

theorem step_test {c : Nat} (h : step w (.test c) w') :
    ∃ i seq p l, w.calls c = .drawn i seq p l ∧
      (w' = { w with calls := setCall w.calls c (.loop (i + 1)) } ∨
        (w.current_.physiacl ≠ 0 ∧ l ≤ maxLogical ∧
          w' = { w with
            calls := setCall w.calls c .out
            returned := w.returned ++ [⟨w.epoch, seq, composeTS p l⟩] })) := by
  simp only [step, FunStep, next] at h
  split at h
  · rename_i i seq p l hc
    refine ⟨i, seq, p, l, hc, ?_⟩
    have h := (Option.some.inj h).symm
    unfold test at h
    split at h
    · exact Or.inl h
    · rename_i hp
      split at h
      · exact Or.inl h
      · rename_i hl; exact Or.inr ⟨hp, UInt64.not_lt.mp hl, h⟩
  · cases h

/-- `updateTimestamp` either returns at once or chooses a physical time to save or to install. -/
theorem update_cases (w : World) (now : UInt64) :
    (updateNext w.current_ now = none ∧ update w now = w) ∨
    ∃ n, updateNext w.current_ now = some n ∧
      ((savesBound w.lastTS n = true ∧ update w now = { w with background := .updateSave n }) ∨
        (savesBound w.lastTS n = false ∧ update w now = { w with background := .updateInstall n })) := by
  unfold update
  cases hn : updateNext w.current_ now with
  | none => exact Or.inl ⟨rfl, rfl⟩
  | some n =>
      refine Or.inr ⟨n, rfl, ?_⟩
      cases hs : savesBound w.lastTS n with
      | true => exact Or.inl ⟨rfl, by simp [hs]⟩
      | false => exact Or.inr ⟨rfl, by simp [hs]⟩

end StepCases

/-! ## Arithmetic of the pure functions -/

theorem maxLogical_toNat : maxLogical.toNat = 2 ^ 18 := by decide

/-- `composeTS` adds without overflow while the physical part stays below 46 bits. -/
theorem composeTS_toNat {p l : UInt64} (h : p.toNat * 2 ^ 18 + l.toNat < 2 ^ 64) :
    (composeTS p l).toNat = p.toNat * 2 ^ 18 + l.toNat := by
  have hs : (p <<< physicalShiftBits).toNat = p.toNat * 2 ^ 18 := by
    rw [UInt64.toNat_shiftLeft]
    have : physicalShiftBits.toNat % 64 = 18 := by decide
    rw [this, Nat.shiftLeft_eq]
    omega
  unfold composeTS
  rw [UInt64.toNat_add, hs]
  omega

/-- The `int64_t` difference of two words of at most 47 bits is their difference. -/
theorem toInt64_sub {a b : UInt64} (ha : a.toNat < 2 ^ 47) (hb : b.toNat < 2 ^ 47) :
    (a - b).toInt64.toInt = (a.toNat : Int) - b.toNat := by
  have h : (a - b).toInt64.toInt = ((a - b).toNat : Int).bmod (2 ^ 64) :=
    BitVec.toInt_eq_toNat_bmod _
  rw [h, UInt64.toNat_sub, Int.bmod_def]
  split <;> omega

theorem signed_guard : signed updateTimestampGuard = 1 := by decide

/-- What a physical time chosen by `updateTimestamp` is, while the words stay below 47 bits. -/
theorem updateNext_spec {t : Timestamp} {now n : UInt64} (hnow : now.toNat < 2 ^ 45)
    (ht : t.physiacl.toNat < 2 ^ 46) (h : updateNext t now = some n) :
    (n = now ∧ t.physiacl.toNat + 1 < n.toNat) ∨
    (2 ^ 17 < t.logical.toNat ∧ n.toNat = t.physiacl.toNat + 1) := by
  have hj := toInt64_sub (a := now) (b := t.physiacl) (by omega) (by omega)
  simp only [updateNext, signed_guard, hj] at h
  split at h
  · rename_i hlt
    obtain rfl := Option.some.inj h
    exact Or.inl ⟨rfl, by omega⟩
  · split at h
    · rename_i _ hl
      obtain rfl := Option.some.inj h
      refine Or.inr ⟨?_, ?_⟩
      · have h17 : (maxLogical / 2).toNat = 2 ^ 17 := by decide
        have := UInt64.lt_iff_toNat_lt.mp hl
        omega
      · rw [UInt64.toNat_add]
        have : (1 : UInt64).toNat = 1 := by decide
        omega
    · cases h

/-- `syncTimestamp` goes past the stored bound when the clock is not behind it. -/
theorem syncNext_gt {lastTS now : UInt64} (hnow : now.toNat < 2 ^ 45) (hle : lastTS ≤ now) :
    lastTS.toNat < (syncNext lastTS now).toNat ∧ (syncNext lastTS now).toNat ≤ 2 ^ 45 := by
  have hle' := UInt64.le_iff_toNat_le.mp hle
  have hsub : (now - lastTS).toNat = now.toNat - lastTS.toNat := UInt64.toNat_sub_of_le _ _ hle
  have h1 : updateTimestampGuard.toNat = 1 := by decide
  unfold syncNext
  split
  · rename_i hlt
    have := UInt64.lt_iff_toNat_lt.mp hlt
    rw [UInt64.toNat_add]
    omega
  · rename_i hlt
    have : ¬ (now - lastTS).toNat < 1 := by
      intro hc; exact hlt (UInt64.lt_iff_toNat_lt.mpr (by omega))
    omega

end Oracle
end DDBMS
