import DDBMS.Recovery.RecoveryUndo

/-!
# `Recovery.RecoveryAtomic` — when recovery leaves the committed transactions, and nothing else

`UndoLog` removes the key of an `INSERT`, and puts a key as its own value for a `DELETE`, whatever the key had before.
So `ARIES` brings back the committed store exactly when that is right at the first record of each unfinished transaction
on each key, and `Redo` gets through the file.
-/

namespace DDBMS
namespace RecoveryLog

open RecoveryManager

/-- Recovery on an empty store leaves every key with its committed value. -/
def RecoversCommitted (order : List ActiveTxn → List ActiveTxn) (fuel : Nat) (buffer : Vector UInt8 LOG_BUFFER_SIZE)
    (run : List TxnAction) : Prop :=
  ∃ rm, ARIES order fuel (init (logFile run) buffer) = some rm ∧ rm.kv_ = Schedule.committedStore (ops run)

/-- **Recovery atomicity**, for every log of less than 2 ^ 32 bytes. -/
theorem ARIES_committed_iff {run : List TxnAction} (h : Complete run) (hlen : (logFile run).length < 2 ^ 32)
    {fuel : Nat} (hfuel : (logFile run).length + 1 < fuel) (order : List ActiveTxn → List ActiveTxn)
    (buffer : Vector UInt8 LOG_BUFFER_SIZE) :
    RecoversCommitted order fuel buffer run ↔
      ((logFile run).length < 2 ^ 31 ∧ Inside 0 (run.map TxnAction.size)) ∧
        Schedule.RightInverse inverse (ops run) := by
  have hundo := h.strict.undo_eq_iff inverse
  rcases ARIES_run h.valid hlen hfuel order buffer with ⟨hnone, hbad⟩ | ⟨⟨rm, hrm, hrecovered⟩, hgood⟩
  · constructor
    · rintro ⟨rm, hrm, -⟩
      rw [hnone] at hrm
      cases hrm
    · rintro ⟨⟨hsize, hinside⟩, -⟩
      exact absurd ⟨hinside, hsize⟩ hbad
  · constructor
    · rintro ⟨rm', hrm', hkv⟩
      obtain rfl := Option.some.inj (hrm.symm.trans hrm')
      refine ⟨⟨hgood.length, hgood.inside⟩, hundo.mp ?_⟩
      rw [← hrecovered.kv, hkv]
    · rintro ⟨-, hright⟩
      exact ⟨rm, hrm, hrecovered.kv.trans (hundo.mpr hright)⟩

/-- A log with an unfinished insertion of a key of one byte has 140 bytes. -/
theorem length_insertion {key : Bytes} (h : key.length = 1) :
    (logFile (crashAfter (.INSERT 2 key [50]))).length = 140 := by
  have hcomplete : Complete (crashAfter (.INSERT 2 key [50])) :=
    crashAfter_complete rfl (by simp [TxnAction.Fits, TxnAction.size, h, LogRecord.HEADER_SIZE, LOG_BUFFER_SIZE_eq])
  rw [length_logFile hcomplete.fits]
  simp [crashAfter, TxnAction.size, h, LogRecord.HEADER_SIZE]

/-- The key of the unfinished transaction is a new one. -/
theorem ARIES_committed_iff_newKey :
    RecoversCommitted id 200 (Vector.replicate _ 0) (crashAfter (.INSERT 2 [98] [50])) := by
  have hlen : (logFile (crashAfter (.INSERT 2 [98] [50]))).length = 140 := length_insertion rfl
  have hcomplete : Complete (crashAfter (.INSERT 2 [98] [50])) := crashAfter_complete rfl (by decide)
  apply (ARIES_committed_iff hcomplete (by rw [hlen]; decide) (by rw [hlen]; decide) id _).mpr
  refine ⟨⟨by rw [hlen]; decide, by decide⟩, ?_⟩
  apply (hcomplete.strict.undo_eq_iff inverse).mp
  have hundo : Schedule.undo inverse (ops (crashAfter (.INSERT 2 [98] [50]))) =
      Function.update (Function.update (Function.update (fun _ => none) [97] (some [49])) [98] (some [50])) [98] none :=
    rfl
  have hcommitted : Schedule.committedStore (ops (crashAfter (.INSERT 2 [98] [50]))) =
      Function.update (fun _ => none) [97] (some [49]) := rfl
  rw [hundo, hcommitted, Function.update_idem]
  apply Function.update_eq_self_iff.mpr
  rfl

/-- The key of the unfinished transaction had a value, and loses it. -/
theorem undo_loses_value : ¬ ∀ (order : List ActiveTxn → List ActiveTxn) (fuel : Nat)
    (buffer : Vector UInt8 LOG_BUFFER_SIZE) (run : List TxnAction), Complete run →
    (logFile run).length + 1 < fuel → RecoversCommitted order fuel buffer run := by
  intro hall
  have hlen : (logFile (crashAfter (.INSERT 2 [97] [50]))).length = 140 := length_insertion rfl
  have hcomplete : Complete (crashAfter (.INSERT 2 [97] [50])) := crashAfter_complete rfl (by decide)
  have hfuel : (logFile (crashAfter (.INSERT 2 [97] [50]))).length + 1 < 200 := by
    rw [hlen]
    decide
  obtain ⟨rm, hrm, hkv⟩ := hall id 200 (Vector.replicate _ 0) _ hcomplete hfuel
  rcases ARIES_run hcomplete.valid (by rw [hlen]; decide) hfuel id (Vector.replicate _ 0) with
    ⟨hnone, -⟩ | ⟨⟨rm', hrm', hrecovered⟩, -⟩
  · rw [hnone] at hrm
    cases hrm
  · obtain rfl := Option.some.inj (hrm'.symm.trans hrm)
    have hundo : Schedule.undo inverse (ops (crashAfter (.INSERT 2 [97] [50]))) [97] = none := by decide
    have hcommitted : Schedule.committedStore (ops (crashAfter (.INSERT 2 [97] [50]))) [97] = some [49] := by decide
    rw [← hkv, hrecovered.kv, hundo] at hcommitted
    cases hcommitted

end RecoveryLog
end DDBMS
