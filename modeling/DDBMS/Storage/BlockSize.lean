import DDBMS.Lib.Run
import DDBMS.Storage.BlockRestarts
import DDBMS.Storage.TableBuild

/-!
# `Storage.BlockSize` — the size of a block under construction

A builder is used for many blocks: `finish` writes the trailer, `reset` clears the builder, and the next block begins. A
run of calls is any number of such rounds, and what it leaves behind in a builder that is not finished are the entries since
the last `reset` (`marked_run`). So the counters tell how many entries there are, and `estimated_size` is the length of what
`finish` returns (`estimate_exact`).

`TableBuilder` cuts its blocks by this size, and its two builders only ever see such calls (`TableBuilder.Rounds`).
-/

namespace DDBMS

namespace BlockBuilder

variable {b b' : BlockBuilder} {es : List (Bytes × Bytes)} {key value c : Bytes}

inductive Call where
  | add (key value : Bytes)
  | finish
  | reset
  deriving Repr

def step (b : BlockBuilder) : Call → Option BlockBuilder
  | .add key value => b.add key value
  | .finish => b.finish.map Prod.snd
  | .reset => some reset

/-- What a call does to the entries since the last `reset`. -/
def entriesStep (es : List (Bytes × Bytes)) : Call → List (Bytes × Bytes)
  | .add key value => es ++ [(key, value)]
  | .finish => es
  | .reset => []

/-- The entries since the last `reset`. -/
def entriesOf (calls : List Call) : List (Bytes × Bytes) := calls.foldl entriesStep []

/-- What the counters and the size of a builder say about its entries. -/
structure Tallies (b : BlockBuilder) (es : List (Bytes × Bytes)) : Prop where
  /-- a larger key is taken as long as there is room in the string -/
  add : ∀ key value, (∃ b', b.add key value = some b') ↔
    (∀ e ∈ es, e.1 < key) ∧ (encodeEntries (es ++ [(key, value)])).length ≤ max_size
  counter : b.counter_ ≤ StorageOption.RESTART_INTERVAL
  restarts : b.restarts_ ≠ []
  entries : es.length = (b.restarts_.length - 1) * StorageOption.RESTART_INTERVAL + b.counter_
  /-- the sum is a `size_t` -/
  word : b.estimated_size < 2 ^ 64
  finish : ∀ c b', b.finish = some (c, b') → c.length = b.estimated_size
  returns : (∃ c b', b.finish = some (c, b')) ↔ b.estimated_size ≤ max_size

/-! ## One round -/

theorem Marked.add_isSome_iff (h : Marked b es) (hsorted : SortedAssoc.Sorted es) (key value : Bytes) :
    (∃ b', b.add key value = some b') ↔
      (∀ e ∈ es, e.1 < key) ∧ (encodeEntries (es ++ [(key, value)])).length ≤ max_size := by
  constructor
  · rintro ⟨b', hadd⟩
    have hsnoc := h.built.add_sorted hsorted hadd
    have hbuilt := h.built.add_some hadd
    refine ⟨fun e he => (List.pairwise_append.mp hsnoc).2.2 e he _ List.mem_cons_self, ?_⟩
    rw [← hbuilt.buffer]
    exact hbuilt.fits
  · rintro ⟨hkey, hfit⟩
    exact h.built.add_isSome key value hkey hfit

/-- The interval that is being filled is the last one. -/
theorem Marked.length_eq (h : Marked b es) :
    es.length = (b.restarts_.length - 1) * StorageOption.RESTART_INTERVAL + b.counter_ := by
  rw [h.length_restarts, h.count, restartCount, Nat.add_sub_cancel]
  by_cases hne : es = []
  · subst hne
    rfl
  · have hpos := List.length_pos_iff.mpr hne
    have hdiv := Nat.div_add_mod' (es.length - 1) StorageOption.RESTART_INTERVAL
    rw [if_neg hne]
    omega

theorem Marked.tallies (h : Marked b es) (hsorted : SortedAssoc.Sorted es) : b.Tallies es := by
  refine ⟨h.add_isSome_iff hsorted, h.built.counter, ?_, h.length_eq, ?_, ?_, ?_⟩
  · rw [← List.length_pos_iff, h.length_restarts]
    exact Nat.succ_pos _
  · -- every restart point has an entry of 16 bytes at least
    have hfits := h.built.fits
    have hlen := length_le_encodeEntries es
    rw [h.built.buffer] at hfits
    rw [h.estimated_size_eq, length_blockContent, restartCount, StorageOption.RESTART_INTERVAL]
    unfold max_size at hfits
    omega
  · intro c b' hfin
    rw [(finish_eq_some hfin).1, estimated_size]
    simp only [List.length_append, length_leBytes, length_flatMap_leBytes]
    omega
  · rw [h.finish_isSome_iff, h.estimated_size_eq, length_blockContent]

/-! ## Any number of rounds -/

/-- **Step lemma.** A call that is no `reset` finds a builder that is not finished, or leaves a finished one. -/
theorem marked_step {call : Call} (h : b.finished_ = false → Marked b es ∧ SortedAssoc.Sorted es)
    (hstep : b.step call = some b') (hopen : b'.finished_ = false) :
    Marked b' (entriesStep es call) ∧ SortedAssoc.Sorted (entriesStep es call) := by
  cases call with
  | add key value =>
      have hunfinished : b.finished_ = false := by
        by_contra hfin
        simp [step, BlockBuilder.add, hfin] at hstep
      obtain ⟨hmarked, hsorted⟩ := h hunfinished
      exact ⟨hmarked.add_some hstep, hmarked.built.add_sorted hsorted hstep⟩
  | finish =>
      obtain ⟨⟨c, b₁⟩, hfin, rfl⟩ := Option.map_eq_some_iff.mp hstep
      simp only [BlockBuilder.finish, Option.bind_eq_bind, Option.bind_eq_some_iff] at hfin
      obtain ⟨u₁, -, u₂, -, u₃, -, hc⟩ := hfin
      obtain ⟨-, rfl⟩ := Prod.mk.inj (Option.some.inj hc)
      cases hopen
  | reset =>
      obtain rfl := Option.some.inj hstep
      exact ⟨marked_reset, List.Pairwise.nil⟩

theorem marked_run {calls : List Call} (hrun : Run (FunStep step) {} calls b) (hopen : b.finished_ = false) :
    Marked b (entriesOf calls) ∧ SortedAssoc.Sorted (entriesOf calls) := by
  refine hrun.history (I := fun calls b => b.finished_ = false →
    Marked b (entriesOf calls) ∧ SortedAssoc.Sorted (entriesOf calls)) ?_ ?_ hopen
  · exact fun _ => ⟨marked_nil, List.Pairwise.nil⟩
  · intro calls b call b' h hstep hopen
    rw [entriesOf, List.foldl_append]
    exact marked_step h hstep hopen

/-- **The size estimate is exact.** However often a builder was finished and reset: when it is not finished, its counters
    tell the number of entries since then, and `finish` returns a string of the estimated size. -/
theorem estimate_exact {calls : List Call} (hrun : Run (FunStep step) {} calls b) (hopen : b.finished_ = false) :
    b.Tallies (entriesOf calls) := by
  obtain ⟨hmarked, hsorted⟩ := marked_run hrun hopen
  exact hmarked.tallies hsorted

/-- One block with two entries, and another one with an entry so far. -/
def twoBlocks : List Call :=
  [.add [97] [49], .add [98] [], .finish, .reset, .add [97] [50]]

theorem estimate_exact_twoBlocks : ∃ b, Run (FunStep step) {} twoBlocks b ∧ b.Tallies [([97], [50])] := by
  obtain ⟨b, hrun, hopen⟩ : ∃ b, Run (FunStep step) {} twoBlocks b ∧ b.finished_ = false :=
    Run.exists_of_map (by decide)
  exact ⟨b, hrun, estimate_exact hrun hopen⟩

end BlockBuilder

namespace TableBuilder

open BlockBuilder

variable {snappy : Snappy} {t t' : TableBuilder} {es : List (Bytes × Bytes)} {key value : Bytes}

/-- The two builders are in the middle of a round, and the data block has not reached the size at which it is cut. -/
structure Rounds (t : TableBuilder) : Prop where
  data : ∃ calls, Run (FunStep BlockBuilder.step) {} calls t.datablock_
  index : ∃ calls, Run (FunStep BlockBuilder.step) {} calls t.indexblock_
  data_open : t.datablock_.finished_ = false
  index_open : t.indexblock_.finished_ = false
  small : t.datablock_.estimated_size < StorageOption.BLOCK_SPACE

theorem rounds_new : Rounds {} := ⟨⟨[], Run.refl⟩, ⟨[], Run.refl⟩, rfl, rfl, by decide⟩

/-- `add` goes on with a round. -/
theorem run_add {b b' : BlockBuilder} {calls : List Call} (hrun : Run (FunStep BlockBuilder.step) {} calls b)
    (hopen : b.finished_ = false) (hadd : b.add key value = some b') :
    Run (FunStep BlockBuilder.step) {} (calls ++ [.add key value]) b' ∧ b'.finished_ = false ∧ b'.empty = false := by
  have hbuilt := (marked_run hrun hopen).1.built.add_some hadd
  refine ⟨hrun.tail hadd, hbuilt.finished, ?_⟩
  rw [Bool.eq_false_iff, Ne, hbuilt.empty_iff]
  simp

/-- A block that is written ends a round of the data block and adds to the index. -/
theorem writeDataBlock_some (hw : t.writeDataBlock snappy = some t') :
    (∃ c d, t.datablock_.finish = some (c, d)) ∧ (∃ s, t.indexblock_.add t.last_key_ s = some t'.indexblock_) ∧
      t'.datablock_ = reset := by
  simp only [writeDataBlock, writeContent, Option.bind_eq_bind, Option.bind_eq_some_iff] at hw
  obtain ⟨⟨u, s⟩, ⟨⟨c, d⟩, hfin, file, -, hu⟩, ib, hib, hres⟩ := hw
  obtain ⟨rfl, rfl⟩ := Prod.mk.inj (Option.some.inj hu)
  obtain rfl := Option.some.inj hres
  exact ⟨⟨c, d, hfin⟩, ⟨_, hib⟩, rfl⟩

theorem Rounds.add (h : t.Rounds) (hadd : t.add snappy key value = some t') : t'.Rounds := by
  obtain ⟨calls, hdata⟩ := h.data
  simp only [TableBuilder.add, Option.bind_eq_bind, Option.bind_eq_some_iff] at hadd
  obtain ⟨d, hd, hrest⟩ := hadd
  obtain ⟨hdata, hopen, hne⟩ := run_add hdata h.data_open hd
  split at hrest
  · -- the block is full: finish it, put its handle into the index, begin a new one
    rw [TableBuilder.flush, hne, if_neg (by decide)] at hrest
    obtain ⟨⟨c, d', hfin⟩, ⟨s, hib⟩, hreset⟩ := writeDataBlock_some hrest
    obtain ⟨icalls, hindex⟩ := h.index
    obtain ⟨hindex, hopen', -⟩ := run_add hindex h.index_open hib
    have hfinish : d.step .finish = some d' := by rw [BlockBuilder.step, hfin, Option.map_some]
    refine ⟨⟨_, (hdata.tail hfinish).tail (e := .reset) ?_⟩, ⟨_, hindex⟩, ?_, hopen', ?_⟩
    · rw [hreset]
      rfl
    · rw [hreset]
      rfl
    · rw [hreset]
      decide
  · rename_i hsmall
    obtain rfl := Option.some.inj hrest
    exact ⟨⟨_, hdata⟩, h.index, hopen, h.index_open, Nat.not_le.mp hsmall⟩

theorem Rounds.addEntries (h : t.Rounds) (hadd : t.addEntries snappy es = some t') : t'.Rounds := by
  induction es generalizing t with
  | nil =>
      obtain rfl := Option.some.inj hadd
      exact h
  | cons e es ih =>
      rw [addEntries_cons] at hadd
      obtain ⟨u, hu, hadd⟩ := Option.bind_eq_some_iff.mp hadd
      exact ih (h.add hu) hadd

/-- **Blocks are cut by their exact size.** Whatever was added to a table, both its builders tell the size of what they
    will return, and the data block is cut before that size reaches `BLOCK_SPACE`. -/
theorem addEntries_tallies (hadd : ({} : TableBuilder).addEntries snappy es = some t) :
    (∃ data, t.datablock_.Tallies data) ∧ (∃ index, t.indexblock_.Tallies index) ∧
      t.datablock_.estimated_size < StorageOption.BLOCK_SPACE := by
  have h := rounds_new.addEntries hadd
  obtain ⟨calls, hdata⟩ := h.data
  obtain ⟨icalls, hindex⟩ := h.index
  obtain ⟨hmarked, hsorted⟩ := marked_run hdata h.data_open
  obtain ⟨hmarked', hsorted'⟩ := marked_run hindex h.index_open
  exact ⟨⟨_, hmarked.tallies hsorted⟩, ⟨_, hmarked'.tallies hsorted'⟩, h.small⟩

end TableBuilder
end DDBMS
