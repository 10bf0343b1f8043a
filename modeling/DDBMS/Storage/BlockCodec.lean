import DDBMS.Lib.SortedAssoc
import DDBMS.Storage.Block
import Mathlib.Data.List.Basic
import Mathlib.Tactic.Cases

/-!
# `Storage.BlockCodec` — what a builder writes, a block reads

A builder that took the entries `es` (`Built`) finishes with a content of `es` (`IsContent`); a block made of
that content reads `es` (`Reads`): `get` is a lookup in `es`, and the iterator visits `es` in order. Sizes are
bounded because strings are: whatever was appended fits into 64 bits.
-/

namespace DDBMS

def encodeEntry (key value : Bytes) : Bytes :=
  leBytes 8 key.length ++ (key ++ (leBytes 8 value.length ++ value))

def encodeEntries (es : List (Bytes × Bytes)) : Bytes := es.flatMap fun e => encodeEntry e.1 e.2

@[simp] theorem encodeEntries_nil : encodeEntries [] = [] := rfl

@[simp] theorem encodeEntries_cons (e : Bytes × Bytes) (es : List (Bytes × Bytes)) :
    encodeEntries (e :: es) = encodeEntry e.1 e.2 ++ encodeEntries es := rfl

@[simp] theorem encodeEntries_append (es fs : List (Bytes × Bytes)) :
    encodeEntries (es ++ fs) = encodeEntries es ++ encodeEntries fs := by
  simp [encodeEntries]

@[simp] theorem length_encodeEntry (key value : Bytes) :
    (encodeEntry key value).length = key.length + value.length + 16 := by
  simp only [encodeEntry, List.length_append, length_leBytes]
  omega

theorem length_le_encodeEntries (es : List (Bytes × Bytes)) : 16 * es.length ≤ (encodeEntries es).length := by
  induction es with
  | nil => simp
  | cons e es ih =>
      simp only [encodeEntries_cons, List.length_append, List.length_cons, length_encodeEntry]
      omega

theorem max_size_lt : max_size < 256 ^ 8 := by decide

/-! ## Strings -/

/-- A string that has to fit. -/
theorem bounded_eq_some {s u : Bytes} {n k : Nat} (hn : s.length = n) :
    (if n ≤ k then some s else none) = some u ↔ s = u ∧ u.length ≤ k := by
  subst hn
  split
  · rename_i h
    rw [Option.some.injEq]
    exact ⟨fun hu => ⟨hu, hu ▸ h⟩, fun h => h.1⟩
  · rename_i h
    refine ⟨fun h => (by cases h), ?_⟩
    rintro ⟨rfl, hl⟩
    exact absurd hl h

theorem append_eq_some {s t u : Bytes} : append s t = some u ↔ s ++ t = u ∧ u.length ≤ max_size :=
  bounded_eq_some List.length_append

theorem substr_mid (a b c : Bytes) : substr (a ++ (b ++ c)) a.length b.length = some b := by
  unfold substr
  rw [if_pos (by simp), List.drop_left, List.take_left]

theorem foldlM_append_eq_some {rs : List Nat} : ∀ {s u : Bytes},
    rs.foldlM (fun buffer i => append buffer (leBytes 8 i)) s = some u →
      u = s ++ rs.flatMap (leBytes 8) := by
  induction rs with
  | nil => intro s u h; simpa using (Option.some.inj h).symm
  | cons r rs ih =>
      intro s u h
      rw [List.foldlM_cons] at h
      obtain ⟨v, hv, hu⟩ := Option.bind_eq_some_iff.mp h
      rw [ih hu, ← (append_eq_some.mp hv).1]
      simp

theorem foldlM_append_of_fits (rs : List Nat) : ∀ (s : Bytes),
    s.length + 8 * rs.length ≤ max_size →
    rs.foldlM (fun buffer i => append buffer (leBytes 8 i)) s = some (s ++ rs.flatMap (leBytes 8)) := by
  induction rs with
  | nil => intro s _; simp
  | cons r rs ih =>
      intro s h
      rw [List.length_cons] at h
      have hs : append s (leBytes 8 r) = some (s ++ leBytes 8 r) :=
        append_eq_some.mpr ⟨rfl, by simp; omega⟩
      rw [List.foldlM_cons, hs]
      show rs.foldlM _ (s ++ leBytes 8 r) = _
      rw [ih _ (by simp; omega)]
      simp

theorem length_flatMap_leBytes (rs : List Nat) : (rs.flatMap (leBytes 8)).length = 8 * rs.length := by
  induction rs with
  | nil => rfl
  | cons r rs ih =>
      simp only [List.flatMap_cons, List.length_append, length_leBytes, ih, List.length_cons]
      omega

/-! ## Writing -/

namespace BlockBuilder

variable {b b' : BlockBuilder} {es : List (Bytes × Bytes)} {key value c : Bytes}

/-- The builder took the entries `es` and is not finished. -/
structure Built (b : BlockBuilder) (es : List (Bytes × Bytes)) : Prop where
  buffer : b.buffer_ = encodeEntries es
  fits : b.buffer_.length ≤ max_size
  last : ∀ e, es.getLast? = some e → b.last_key_ = e.1
  counter : b.counter_ ≤ StorageOption.RESTART_INTERVAL
  finished : b.finished_ = false
  restarts : b.restarts_.length ≤ es.length + 1

/-- A block content with the entries `es`. -/
def IsContent (es : List (Bytes × Bytes)) (c : Bytes) : Prop :=
  ∃ rs : List Nat, c = encodeEntries es ++
    (leBytes 8 rs.length ++ (rs.flatMap (leBytes 8) ++ leBytes 8 (encodeEntries es).length)) ∧
    c.length ≤ max_size

theorem built_nil : Built {} [] := ⟨rfl, by simp, by simp, by decide, rfl, by simp⟩

theorem Built.empty_iff (h : Built b es) : b.empty = true ↔ es = [] := by
  rw [BlockBuilder.empty, h.buffer]
  cases es with
  | nil => simp
  | cons e es => simp [encodeEntry, leBytes]

theorem Built.restart (h : Built b es) : b.restart.buffer_ = b.buffer_ ∧ b.restart.finished_ = b.finished_ ∧
    b.restart.counter_ + 1 ≤ StorageOption.RESTART_INTERVAL ∧
    b.restart.restarts_.length ≤ es.length + 2 := by
  have hr := h.restarts
  have hc := h.counter
  unfold BlockBuilder.restart
  split
  · exact ⟨rfl, rfl, Nat.le_of_ble_eq_true rfl, by simp; omega⟩
  · exact ⟨rfl, rfl, by omega, by omega⟩

/-- `add` appends the entry. -/
theorem Built.add_some (h : Built b es) (hadd : b.add key value = some b') :
    Built b' (es ++ [(key, value)]) := by
  obtain ⟨hbuf, hfin, hcnt, hres⟩ := h.restart
  simp only [BlockBuilder.add, guard, Option.bind_eq_bind, Option.bind_eq_some_iff] at hadd
  obtain ⟨-, -, -, -, -, -, u₁, h₁, u₂, h₂, u₃, h₃, u₄, h₄, hb'⟩ := hadd
  obtain ⟨rfl, -⟩ := append_eq_some.mp h₁
  obtain ⟨rfl, -⟩ := append_eq_some.mp h₂
  obtain ⟨rfl, -⟩ := append_eq_some.mp h₃
  obtain ⟨rfl, hfit⟩ := append_eq_some.mp h₄
  obtain rfl := Option.some.inj hb'
  refine ⟨?_, hfit, ?_, hcnt, ?_, ?_⟩
  · simp [hbuf, h.buffer, encodeEntry]
  · intro e he
    rw [List.getLast?_concat] at he
    rw [← Option.some.inj he]
  · exact hfin.trans h.finished
  · rw [List.length_append]
    exact hres

/-- `add` asks for a larger key. -/
theorem Built.add_sorted (h : Built b es) (hsorted : SortedAssoc.Sorted es) (hadd : b.add key value = some b') :
    SortedAssoc.Sorted (es ++ [(key, value)]) := by
  simp only [BlockBuilder.add, guard, Option.bind_eq_bind, Option.bind_eq_some_iff] at hadd
  obtain ⟨-, -, -, -, u, hu, -⟩ := hadd
  have hlast : b.empty = true ∨ b.last_key_ < key := by
    by_contra hnot
    rw [if_neg hnot] at hu
    cases hu
  refine List.pairwise_append.mpr ⟨hsorted, List.pairwise_singleton _ _, fun e he e' he' => ?_⟩
  obtain rfl := List.mem_singleton.mp he'
  rcases hlast with hempty | hlast
  · rw [h.empty_iff.mp hempty] at he
    cases he
  · rcases List.eq_nil_or_concat es with rfl | ⟨lo, top, rfl⟩
    · cases he
    · rw [List.concat_eq_append] at h hsorted he
      rw [h.last top (by simp)] at hlast
      rcases List.mem_append.mp he with hlo | htop
      · exact lt_trans ((List.pairwise_append.mp hsorted).2.2 e hlo top (by simp)) hlast
      · rwa [List.mem_singleton.mp htop]

/-- `add` succeeds on a larger key as long as the buffer fits into a string. -/
theorem Built.add_isSome (h : Built b es) (key value : Bytes) (hkey : ∀ e ∈ es, e.1 < key)
    (hfit : (encodeEntries (es ++ [(key, value)])).length ≤ max_size) : ∃ b', b.add key value = some b' := by
  have hlast : b.empty = true ∨ b.last_key_ < key := by
    rcases List.eq_nil_or_concat es with rfl | ⟨es', e, rfl⟩
    · exact Or.inl (h.empty_iff.mpr rfl)
    · right
      rw [h.last e (by simp)]
      exact hkey e (by simp)
  simp only [encodeEntries_append, encodeEntries_cons, encodeEntries_nil, List.append_nil,
    List.length_append, length_encodeEntry, ← h.buffer] at hfit
  obtain ⟨hbuf, -, -, -⟩ := h.restart
  have h₁ : append b.buffer_ (leBytes 8 key.length) = some (b.buffer_ ++ leBytes 8 key.length) :=
    append_eq_some.mpr ⟨rfl, by simp; omega⟩
  have h₂ : append (b.buffer_ ++ leBytes 8 key.length) key = some (b.buffer_ ++ leBytes 8 key.length ++ key) :=
    append_eq_some.mpr ⟨rfl, by simp; omega⟩
  have h₃ : append (b.buffer_ ++ leBytes 8 key.length ++ key) (leBytes 8 value.length) =
      some (b.buffer_ ++ leBytes 8 key.length ++ key ++ leBytes 8 value.length) :=
    append_eq_some.mpr ⟨rfl, by simp; omega⟩
  have h₄ : append (b.buffer_ ++ leBytes 8 key.length ++ key ++ leBytes 8 value.length) value =
      some (b.buffer_ ++ leBytes 8 key.length ++ key ++ leBytes 8 value.length ++ value) :=
    append_eq_some.mpr ⟨rfl, by simp; omega⟩
  refine ⟨{ b.restart with
    buffer_ := b.buffer_ ++ leBytes 8 key.length ++ key ++ leBytes 8 value.length ++ value
    last_key_ := key
    counter_ := b.restart.counter_ + 1 }, ?_⟩
  simp only [BlockBuilder.add, guard, h.finished, h.counter, hlast, if_true, Option.bind_eq_bind,
    Option.pure_def, Option.bind_some, hbuf, h₁, h₂, h₃, h₄]

/-- `finish` puts the restart points and the trailer behind the entries. -/
theorem finish_eq_some (hfin : b.finish = some (c, b')) :
    c = b.buffer_ ++ (leBytes 8 b.restarts_.length ++ (b.restarts_.flatMap (leBytes 8) ++ leBytes 8 b.buffer_.length)) ∧
      c.length ≤ max_size := by
  simp only [BlockBuilder.finish, Option.bind_eq_bind, Option.bind_eq_some_iff] at hfin
  obtain ⟨u₁, h₁, u₂, h₂, u₃, h₃, hc⟩ := hfin
  obtain ⟨rfl, -⟩ := append_eq_some.mp h₁
  obtain rfl := foldlM_append_eq_some h₂
  obtain ⟨rfl, hfit⟩ := append_eq_some.mp h₃
  obtain ⟨rfl, -⟩ := Prod.mk.inj (Option.some.inj hc)
  exact ⟨by simp only [List.append_assoc], hfit⟩

/-- `finish` yields a content of the entries, not much longer than they are. -/
theorem Built.finish_some (h : Built b es) (hfin : b.finish = some (c, b')) :
    IsContent es c ∧ c.length ≤ (encodeEntries es).length + 8 * es.length + 24 := by
  have hr := h.restarts
  obtain ⟨rfl, hfit⟩ := finish_eq_some hfin
  refine ⟨⟨b.restarts_, by simp [h.buffer], hfit⟩, ?_⟩
  simp only [List.length_append, length_leBytes, length_flatMap_leBytes, h.buffer]
  omega

/-- `finish` succeeds as long as the content fits into a string. -/
theorem finish_of_fits (hfit : b.buffer_.length + 8 * b.restarts_.length + 16 ≤ max_size) :
    ∃ c b', b.finish = some (c, b') ∧ c.length = b.buffer_.length + 8 * b.restarts_.length + 16 := by
  have h₁ : append b.buffer_ (leBytes 8 b.restarts_.length) =
      some (b.buffer_ ++ leBytes 8 b.restarts_.length) := append_eq_some.mpr ⟨rfl, by simp; omega⟩
  have h₂ := foldlM_append_of_fits b.restarts_ (b.buffer_ ++ leBytes 8 b.restarts_.length)
    (by simp; omega)
  have h₃ : append (b.buffer_ ++ leBytes 8 b.restarts_.length ++ b.restarts_.flatMap (leBytes 8))
      (leBytes 8 b.buffer_.length) = some (b.buffer_ ++ leBytes 8 b.restarts_.length ++
        b.restarts_.flatMap (leBytes 8) ++ leBytes 8 b.buffer_.length) :=
    append_eq_some.mpr ⟨rfl, by simp only [List.length_append, length_leBytes, length_flatMap_leBytes]; omega⟩
  refine ⟨b.buffer_ ++ leBytes 8 b.restarts_.length ++ b.restarts_.flatMap (leBytes 8) ++
    leBytes 8 b.buffer_.length, { b with
      buffer_ := b.buffer_ ++ leBytes 8 b.restarts_.length ++ b.restarts_.flatMap (leBytes 8) ++
        leBytes 8 b.buffer_.length
      finished_ := true }, ?_, ?_⟩
  · simp only [BlockBuilder.finish, h₁, h₂, h₃, Option.bind_eq_bind, Option.bind_some]
  · simp only [List.length_append, length_leBytes, length_flatMap_leBytes]
    omega

theorem Built.finish_isSome (h : Built b es)
    (hfit : (encodeEntries es).length + 8 * es.length + 24 ≤ max_size) :
    ∃ c b', b.finish = some (c, b') ∧ c.length ≤ (encodeEntries es).length + 8 * es.length + 24 := by
  have hr := h.restarts
  rw [← h.buffer] at hfit ⊢
  obtain ⟨c, b', hfin, hlen⟩ := finish_of_fits (b := b) (by omega)
  exact ⟨c, b', hfin, by omega⟩

end BlockBuilder

/-! ## Reading -/

namespace Block

variable {b : Block} {es : List (Bytes × Bytes)} {key c : Bytes}

/-- The block reads the entries `es`. -/
structure Reads (b : Block) (es : List (Bytes × Bytes)) : Prop where
  content : ∃ trailer, b.block_content_ = encodeEntries es ++ trailer
  restart_offset : b.restart_offset_ = (encodeEntries es).length
  fits : (encodeEntries es).length ≤ max_size

theorem mapM_isSome {α β : Type} {f : α → Option β} {l : List α} (h : ∀ x ∈ l, ∃ y, f x = some y) :
    ∃ ys, l.mapM f = some ys := by
  induction l with
  | nil => exact ⟨[], rfl⟩
  | cons x l ih =>
      obtain ⟨y, hy⟩ := h x List.mem_cons_self
      obtain ⟨ys, hys⟩ := ih (fun z hz => h z (List.mem_cons_of_mem _ hz))
      exact ⟨y :: ys, by simp [List.mapM_cons, hy, hys]⟩

/-- The words behind the entries, located from the end of the string. -/
theorem read_trailer {rs : List Nat} (hc : c = encodeEntries es ++
      (leBytes 8 rs.length ++ (rs.flatMap (leBytes 8) ++ leBytes 8 (encodeEntries es).length)))
    (hfit : c.length ≤ max_size) :
    c.length = (encodeEntries es).length + 8 * rs.length + 16 ∧
      readAt 8 c (c.length - 8) = some (encodeEntries es).length ∧
      readAt 8 c (encodeEntries es).length = some rs.length := by
  have hlen : c.length = (encodeEntries es).length + 8 * rs.length + 16 := by
    rw [hc]
    simp only [List.length_append, length_leBytes, length_flatMap_leBytes]
    omega
  have hmax := max_size_lt
  refine ⟨hlen, ?_, ?_⟩
  · have hsplit : c = (encodeEntries es ++ (leBytes 8 rs.length ++ rs.flatMap (leBytes 8))) ++
        (leBytes 8 (encodeEntries es).length ++ []) := by
      rw [hc]; simp
    have hpos : c.length - 8 =
        (encodeEntries es ++ (leBytes 8 rs.length ++ rs.flatMap (leBytes 8))).length := by
      rw [hlen]
      simp only [List.length_append, length_leBytes, length_flatMap_leBytes]
      omega
    rw [hpos]
    conv_lhs => rw [hsplit]
    exact readAt_mid (by omega) _ _
  · conv_lhs => rw [hc]
    exact readAt_mid (by omega) _ _

/-- **The constructor accepts what the builder finished.** -/
theorem reads_of_isContent (h : BlockBuilder.IsContent es c) : ∃ b, Block.new c = some b ∧ b.Reads es := by
  obtain ⟨rs, hc, hfit⟩ := h
  obtain ⟨hlen, hoff, hsize⟩ := read_trailer hc hfit
  obtain ⟨restarts, hrestarts⟩ : ∃ restarts, ((List.range ((c.length - 8 - ((encodeEntries es).length + 8) + 7) / 8)).mapM
      fun j => readAt 8 c ((encodeEntries es).length + 8 + 8 * j)) = some restarts := by
    refine mapM_isSome (fun j hj => ?_)
    rw [List.mem_range] at hj
    exact ⟨_, if_pos (by omega)⟩
  refine ⟨⟨c, (encodeEntries es).length, rs.length, restarts⟩, ?_, ⟨_, hc⟩, rfl, by omega⟩
  simp only [Block.new, hoff, hsize, hrestarts, Option.bind_eq_bind, Option.bind_some]
  rw [if_neg (by omega)]

/-- The four reads of an entry, wherever it stands. -/
theorem read_entry {pre post k v : Bytes} (hc : c = pre ++ (encodeEntry k v ++ post))
    (hk : k.length ≤ max_size) (hv : v.length ≤ max_size) :
    readAt 8 c pre.length = some k.length ∧ substr c (pre.length + 8) k.length = some k ∧
      readAt 8 c (pre.length + 8 + k.length) = some v.length ∧
      substr c (pre.length + 8 + k.length + 8) v.length = some v := by
  have hmax := max_size_lt
  subst hc
  refine ⟨?_, ?_, ?_, ?_⟩
  · rw [encodeEntry, List.append_assoc]
    exact readAt_mid (by omega) _ _
  · have h := substr_mid (pre ++ leBytes 8 k.length) k (leBytes 8 v.length ++ v ++ post)
    rw [List.length_append, length_leBytes] at h
    simpa [encodeEntry] using h
  · have h := readAt_mid (w := 8) (n := v.length) (by omega) (pre ++ leBytes 8 k.length ++ k) (v ++ post)
    rw [List.length_append, List.length_append, length_leBytes] at h
    simpa [encodeEntry] using h
  · have h := substr_mid (pre ++ leBytes 8 k.length ++ k ++ leBytes 8 v.length) v post
    rw [List.length_append, List.length_append, List.length_append, length_leBytes, length_leBytes] at h
    simpa [encodeEntry] using h

/-- An entry the block reads, in its context. -/
theorem Reads.entry {done todo : List (Bytes × Bytes)} {k v : Bytes} (h : b.Reads (done ++ (k, v) :: todo)) :
    readAt 8 b.block_content_ (encodeEntries done).length = some k.length ∧
      substr b.block_content_ ((encodeEntries done).length + 8) k.length = some k ∧
      readAt 8 b.block_content_ ((encodeEntries done).length + 8 + k.length) = some v.length ∧
      substr b.block_content_ ((encodeEntries done).length + 8 + k.length + 8) v.length = some v := by
  obtain ⟨trailer, hc⟩ := h.content
  have hfits := h.fits
  simp only [encodeEntries_append, encodeEntries_cons, List.length_append, length_encodeEntry] at hfits
  have hc' : b.block_content_ =
      encodeEntries done ++ (encodeEntry k v ++ (encodeEntries todo ++ trailer)) := by
    rw [hc]
    simp
  exact read_entry hc' (by omega) (by omega)

theorem Reads.lt_iff {done todo : List (Bytes × Bytes)} (h : b.Reads (done ++ todo)) :
    (encodeEntries done).length < b.restart_offset_ ↔ todo ≠ [] := by
  rw [h.restart_offset]
  cases todo with
  | nil => simp
  | cons e todo => simp

/-- The loop of `get` searches the entries from its position on. -/
theorem getLoop_spec : ∀ (todo done : List (Bytes × Bytes)) (fuel : Nat), b.Reads (done ++ todo) →
    todo.length < fuel → b.getLoop key fuel (encodeEntries done).length =
      some (match todo.lookup key with | some v => (true, v) | none => (false, [])) := by
  intro todo
  induction todo with
  | nil =>
      intro done fuel h hfuel
      obtain ⟨fuel, rfl⟩ : ∃ f, fuel = f + 1 := ⟨fuel - 1, by simp at hfuel; omega⟩
      rw [getLoop, if_neg (by rw [h.lt_iff]; simp)]
      rfl
  | cons e todo ih =>
      obtain ⟨k, v⟩ := e
      intro done fuel h hfuel
      obtain ⟨fuel, rfl⟩ : ∃ f, fuel = f + 1 := ⟨fuel - 1, by simp at hfuel; omega⟩
      obtain ⟨hk, hs, hv, hval⟩ := h.entry
      rw [getLoop, if_pos (by rw [h.lt_iff]; simp)]
      simp only [hk, hs, hv, Option.bind_eq_bind, Option.bind_some]
      by_cases hkey : k = key
      · subst hkey
        rw [if_pos rfl, hval, List.lookup_cons_self]
        rfl
      · rw [if_neg hkey, List.lookup_cons, beq_eq_false_iff_ne.mpr (Ne.symm hkey)]
        have hnext : (encodeEntries done).length + 8 + k.length + v.length + 8 =
            (encodeEntries (done ++ [(k, v)])).length := by
          simp only [encodeEntries_append, encodeEntries_cons, encodeEntries_nil, List.append_nil,
            List.length_append, length_encodeEntry]
          omega
        rw [hnext]
        exact ih (done ++ [(k, v)]) fuel (by simpa using h) (by simpa using hfuel)

/-- **`Block::get`** is a lookup. -/
theorem Reads.get (h : b.Reads es) (key : Bytes) :
    b.get key = some (match es.lookup key with | some v => (true, v) | none => (false, [])) := by
  have hlen := length_le_encodeEntries es
  exact getLoop_spec es [] _ h (by rw [h.restart_offset]; omega)

namespace Iter

variable {it : Iter}

/-- The iterator stands in front of the entries `todo`, with the first of them loaded. -/
structure At (b : Block) (done todo : List (Bytes × Bytes)) (it : Iter) : Prop where
  reads : b.Reads (done ++ todo)
  current : it.current_ = (encodeEntries done).length
  loaded : ∀ e, todo.head? = some e → it.key_ = e.1 ∧ it.value_ = e.2

theorem At.valid_iff {done todo : List (Bytes × Bytes)} (h : At b done todo it) :
    it.Valid b = true ↔ todo ≠ [] := by
  rw [Valid, decide_eq_true_eq, h.current]
  exact h.reads.lt_iff

/-- Both moves end in loading the entry at the new position, if there is one. -/
theorem load_spec {done todo : List (Bytes × Bytes)} (h : b.Reads (done ++ todo))
    (hc : it.current_ = (encodeEntries done).length) :
    ∃ it', (if it.Valid b then it.extract_keyvalue b else some it) = some it' ∧ At b done todo it' := by
  have hvalid : it.Valid b = true ↔ todo ≠ [] := by
    rw [Valid, decide_eq_true_eq, hc]
    exact h.lt_iff
  cases todo with
  | nil =>
      refine ⟨it, if_neg (by rw [hvalid]; simp), h, hc, by simp⟩
  | cons e todo =>
      obtain ⟨k, v⟩ := e
      obtain ⟨hk, hs, hv, hval⟩ := h.entry
      have hval' : it.Valid b = true := hvalid.mpr (by simp)
      refine ⟨{ it with key_ := k, value_ := v }, ?_, h, hc, ?_⟩
      · rw [if_pos hval']
        simp only [extract_keyvalue, hval', guard, if_true, Option.pure_def, Option.bind_eq_bind,
          Option.bind_some, hc, hk, hs, hv, hval]
      · intro e he
        obtain rfl := Option.some.inj he
        exact ⟨rfl, rfl⟩

theorem seekToFirst_spec (h : b.Reads es) (it : Iter) : ∃ it', it.SeekToFirst b = some it' ∧ At b [] es it' :=
  load_spec (show b.Reads ([] ++ es) from h) rfl

theorem At.next {done todo : List (Bytes × Bytes)} {e : Bytes × Bytes} (h : At b done (e :: todo) it) :
    ∃ it', it.Next b = some it' ∧ At b (done ++ [e]) todo it' := by
  refine load_spec (by simpa using h.reads) ?_
  obtain ⟨hk, hv⟩ := h.loaded e rfl
  simp only [h.current, hk, hv, encodeEntries_append, encodeEntries_cons, encodeEntries_nil,
    List.append_nil, List.length_append, length_encodeEntry]
  omega

end Iter
end Block
end DDBMS
