import DDBMS.Lib.Bytes
import Mathlib.Data.List.TakeWhile
import Mathlib.Data.Nat.Digits.Defs

/-!
# `Lib.TokenStream` — formatted streams

What `std::ostream << x` and `std::istream >> x` do with strings and decimal numbers. An output is a list of insertions
(`Put`): fields, and separator characters between them. An input stream gives fields back: it skips white space, and then
takes all characters up to the next white space as a string, or as many as make a number.

A field can be read back when it is not empty and what follows it does not continue it. Two sides of this:
* `Reads P r ps x` — the reader `r` gets the value `x` from the insertions `ps`, when the text behind them meets `P`.
  Readers are put together with `Reads.bind` and `Reads.readN`.
* `Lexed text ls rest` — a text was taken apart into `ls`. If these are the very fields of an output, then the output is
  `Separated`: no field was empty, or followed by a digit (`Lexed.separated`).
-/

namespace DDBMS

/-- White space, as `std::isspace` in the C locale. -/
def isspace (c : UInt8) : Bool := c == 32 || (9 ≤ c && c ≤ 13)

def isdigit (c : UInt8) : Bool := 48 ≤ c && c ≤ 57

/-- The string has no white space; it may be empty. -/
def NoSpace (w : Bytes) : Prop := ∀ c ∈ w, isspace c = false

/-- A string that `>>` can read as one. -/
structure Word (w : Bytes) : Prop where
  ne : w ≠ []
  nospace : NoSpace w

/-- The text does not begin with a digit. -/
def NoDigit (text : Bytes) : Prop := ∀ c ∈ text.head?, isdigit c = false

instance noSpaceDecidable (w : Bytes) : Decidable (NoSpace w) := List.decidableBAll (fun c => isspace c = false) w

instance wordDecidable (w : Bytes) : Decidable (Word w) :=
  decidable_of_iff (w ≠ [] ∧ NoSpace w) ⟨fun h => ⟨h.1, h.2⟩, fun h => ⟨h.ne, h.nospace⟩⟩

instance noDigitDecidable (text : Bytes) : Decidable (NoDigit text) :=
  Option.decidableForallMem (p := fun c => isdigit c = false) text.head?

/-! ## Decimal numbers -/

def decimalNat (n : Nat) : Bytes :=
  if n = 0 then [48] else (Nat.digits 10 n).reverse.map fun d => UInt8.ofNat (48 + d)

/-- What `<<` prints for an integer. -/
def decimal (i : Int) : Bytes := if i < 0 then 45 :: decimalNat i.natAbs else decimalNat i.natAbs

/-- The value of decimal digits. -/
def natOf (ds : Bytes) : Nat := Nat.ofDigits 10 (ds.reverse.map fun c => c.toNat - 48)

theorem toNat_digit {d : Nat} (h : d < 10) : (UInt8.ofNat (48 + d)).toNat = 48 + d := by
  rw [UInt8.toNat_ofNat', Nat.mod_eq_of_lt (by omega)]

theorem isdigit_iff {c : UInt8} : isdigit c = true ↔ 48 ≤ c.toNat ∧ c.toNat ≤ 57 := by
  rw [isdigit, Bool.and_eq_true, decide_eq_true_eq, decide_eq_true_eq, UInt8.le_iff_toNat_le, UInt8.le_iff_toNat_le]
  exact Iff.rfl

theorem isspace_eq_false_of_isdigit {c : UInt8} (h : isdigit c = true) : isspace c = false := by
  obtain ⟨hlow, -⟩ := isdigit_iff.mp h
  rw [isspace, Bool.or_eq_false_iff, Bool.and_eq_false_iff, beq_eq_false_iff_ne, decide_eq_false_iff_not,
    decide_eq_false_iff_not, UInt8.le_iff_toNat_le, UInt8.le_iff_toNat_le]
  constructor
  · rintro rfl
    exact absurd hlow (by decide)
  · right
    show ¬ c.toNat ≤ 13
    omega

theorem natOf_decimalNat (n : Nat) : natOf (decimalNat n) = n := by
  rw [natOf, decimalNat]
  split
  · rename_i h
    rw [h]
    rfl
  · rw [← List.map_reverse, List.reverse_reverse, List.map_map]
    have hid : ∀ d ∈ Nat.digits 10 n, ((fun c : UInt8 => c.toNat - 48) ∘ fun d => UInt8.ofNat (48 + d)) d = d := by
      intro d hd
      show (UInt8.ofNat (48 + d)).toNat - 48 = d
      rw [toNat_digit (Nat.digits_lt_base (by decide) hd)]
      omega
    rw [List.map_congr_left hid, List.map_id', Nat.ofDigits_digits]

theorem isdigit_decimalNat {n : Nat} {c : UInt8} (h : c ∈ decimalNat n) : isdigit c = true := by
  rw [decimalNat] at h
  split at h
  · obtain rfl := List.mem_singleton.mp h
    rfl
  · obtain ⟨d, hd, rfl⟩ := List.mem_map.mp h
    have hlt : d < 10 := Nat.digits_lt_base (by decide) (List.mem_reverse.mp hd)
    rw [isdigit_iff, toNat_digit hlt]
    omega

theorem decimalNat_ne (n : Nat) : decimalNat n ≠ [] := by
  rw [decimalNat]
  split
  · exact List.cons_ne_nil _ _
  · rename_i h
    rw [ne_eq, List.map_eq_nil_iff, List.reverse_eq_nil_iff]
    exact Nat.digits_ne_nil_iff_ne_zero.mpr h

theorem decimal_word (i : Int) : Word (decimal i) := by
  rw [decimal]
  split
  · refine ⟨List.cons_ne_nil _ _, ?_⟩
    intro c hc
    rcases List.mem_cons.mp hc with rfl | hc
    · rfl
    · exact isspace_eq_false_of_isdigit (isdigit_decimalNat hc)
  · exact ⟨decimalNat_ne _, fun c hc => isspace_eq_false_of_isdigit (isdigit_decimalNat hc)⟩

/-! ## Output -/

/-- One insertion: a string or a number, or a separator. -/
inductive Put where
  | field (text : Bytes)
  | sep (c : UInt8)
  deriving Repr, DecidableEq

/-- The text of an output. -/
def textOf : List Put → Bytes
  | [] => []
  | .field f :: ps => f ++ textOf ps
  | .sep c :: ps => c :: textOf ps

/-- The fields of an output. -/
def fieldsOf : List Put → List Bytes
  | [] => []
  | .field f :: ps => f :: fieldsOf ps
  | .sep _ :: ps => fieldsOf ps

@[simp] theorem textOf_append (ps qs : List Put) : textOf (ps ++ qs) = textOf ps ++ textOf qs := by
  induction ps with
  | nil => rfl
  | cons p ps ih => cases p <;> simp [textOf, ih]

@[simp] theorem fieldsOf_append (ps qs : List Put) : fieldsOf (ps ++ qs) = fieldsOf ps ++ fieldsOf qs := by
  induction ps with
  | nil => rfl
  | cons p ps ih => cases p <;> simp [fieldsOf, ih]

/-! ## Input -/

/-- What is left of the text, and the characters of every extraction so far. -/
structure IStream where
  rest : Bytes
  consumed : List Bytes := []
  deriving Repr, DecidableEq

/-- A reader; `none` is a stream that has failed. -/
abbrev Reader (α : Type) := StateT IStream Option α

/-- `is >> s` for a string. -/
def getString : Reader Bytes := fun s =>
  let text := s.rest.dropWhile isspace
  let w := text.takeWhile fun c => !isspace c
  if w = [] then none else some (w, ⟨text.dropWhile fun c => !isspace c, s.consumed ++ [w]⟩)

/-- The sign of a number. -/
def signOf : Bytes → Bytes
  | c :: _ => if c = 43 ∨ c = 45 then [c] else []
  | [] => []

/-- `is >> i` for an integer of any size: a sign and as many digits as there are. -/
def getInt : Reader Int := fun s =>
  let text := s.rest.dropWhile isspace
  let sign := signOf text
  let ds := (text.drop sign.length).takeWhile isdigit
  if ds = [] then none
  else some (if sign = [45] then -(natOf ds : Int) else natOf ds,
    ⟨(text.drop sign.length).dropWhile isdigit, s.consumed ++ [sign ++ ds]⟩)

/-- `is >> i` for an `int32_t`. -/
def getInt32 : Reader Int32 := do
  let i ← getInt
  if Int32.minValue.toInt ≤ i ∧ i ≤ Int32.maxValue.toInt then pure (Int32.ofInt i) else failure

/-- `is >> n` for a `size_t`; a minus sign wraps the value around. -/
def getSize : Reader Nat := do
  let i ← getInt
  if i.natAbs < 2 ^ 64 then pure (if i < 0 then 2 ^ 64 - i.natAbs else i.natAbs) else failure

/-- A loop that reads `n` values. -/
def readN {α : Type} : Nat → Reader α → Reader (List α)
  | 0, _ => pure []
  | n + 1, r => do
    let x ← r
    let xs ← readN n r
    pure (x :: xs)

/-- What is made of the values read. -/
def ofOption {α : Type} (o : Option α) : Reader α := fun s => o.map fun x => (x, s)

/-! ## Reading back -/

theorem dropWhile_append_stop {p : UInt8 → Bool} {w text : Bytes} (hw : ∀ c ∈ w, p c = true)
    (hstop : ∀ c ∈ text.head?, p c = false) : (w ++ text).dropWhile p = text := by
  rw [List.dropWhile_append_of_pos hw]
  cases text with
  | nil => rfl
  | cons c text => exact List.dropWhile_cons_of_neg (by simp [hstop c rfl])

theorem takeWhile_append_stop {p : UInt8 → Bool} {w text : Bytes} (hw : ∀ c ∈ w, p c = true)
    (hstop : ∀ c ∈ text.head?, p c = false) : (w ++ text).takeWhile p = w := by
  rw [List.takeWhile_append_of_pos hw]
  cases text with
  | nil => rw [List.takeWhile_nil, List.append_nil]
  | cons c text => rw [List.takeWhile_cons_of_neg (by simp [hstop c rfl]), List.append_nil]

theorem Word.stops {w : Bytes} (h : Word w) (text : Bytes) : ∀ c ∈ (w ++ text).head?, isspace c = false := by
  obtain ⟨c, w, rfl⟩ := List.exists_cons_of_ne_nil h.ne
  rintro d hd
  obtain rfl := Option.some.inj hd
  exact h.nospace c List.mem_cons_self

/-- White space is skipped. -/
theorem Word.skip {w ws : Bytes} (h : Word w) (hws : ∀ c ∈ ws, isspace c = true) (text : Bytes) :
    (ws ++ (w ++ text)).dropWhile isspace = w ++ text :=
  dropWhile_append_stop hws (h.stops text)

/-- The text in the stream is that of the insertions `ps`, up to white space in front; `ls` are the fields so far. -/
structure At (s : IStream) (ps : List Put) (ls : List Bytes) : Prop where
  rest : ∃ ws, (∀ c ∈ ws, isspace c = true) ∧ s.rest = ws ++ textOf ps
  consumed : s.consumed = ls

/-- The reader gets `x` from the insertions `ps`, when the text behind them meets `P`. -/
def Reads {α : Type} (P : Bytes → Prop) (r : Reader α) (ps : List Put) (x : α) : Prop :=
  ∀ s qs ls, P (textOf qs) → At s (ps ++ qs) ls → ∃ s', r s = some (x, s') ∧ At s' qs (ls ++ fieldsOf ps)

/-- No condition on the text that follows. -/
def Anything (_ : Bytes) : Prop := True

section Reads

variable {α β : Type} {P Q : Bytes → Prop} {r : Reader α} {ps qs : List Put} {x : α} {y : β}

theorem Reads.pure (x : α) : Reads P (Pure.pure x) [] x := by
  intro s qs ls _ hat
  exact ⟨s, rfl, hat.rest, by rw [fieldsOf, List.append_nil]; exact hat.consumed⟩

/-- **One reader after the other.** -/
theorem Reads.bind {f : α → Reader β} (h : Reads P r ps x) (hf : Reads Q (f x) qs y)
    (hP : ∀ text, Q text → P (textOf qs ++ text)) : Reads Q (r >>= f) (ps ++ qs) y := by
  intro s us ls hQ hat
  rw [List.append_assoc] at hat
  obtain ⟨s₁, hr, hat₁⟩ := h s (qs ++ us) ls (by rw [textOf_append]; exact hP _ hQ) hat
  obtain ⟨s₂, hf', hat₂⟩ := hf s₁ us _ hQ hat₁
  refine ⟨s₂, ?_, by rw [fieldsOf_append, ← List.append_assoc]; exact hat₂⟩
  show (r s).bind (fun a => f a.1 a.2) = _
  rw [hr]
  exact hf'

/-- A separator behind what is read. -/
theorem Reads.sep (h : Reads P r ps x) {c : UInt8} (hc : isspace c = true) (hP : ∀ text, P (c :: text)) :
    Reads Q r (ps ++ [.sep c]) x := by
  intro s qs ls _ hat
  rw [List.append_assoc] at hat
  obtain ⟨s', hr, ⟨ws, hws, hrest⟩, hconsumed⟩ := h s (.sep c :: qs) ls (hP (textOf qs)) hat
  refine ⟨s', hr, ⟨ws ++ [c], ?_, ?_⟩, ?_⟩
  · intro d hd
    rcases List.mem_append.mp hd with hd | hd
    · exact hws d hd
    · rw [List.mem_singleton.mp hd, hc]
  · rw [hrest, List.append_assoc]
    rfl
  · rw [hconsumed, fieldsOf_append, fieldsOf, fieldsOf, List.append_nil]

/-- **A loop.** -/
theorem Reads.readN {out : β → List Put} {l : List β} {xs : List α}
    (h : List.Forall₂ (fun y x => Reads Anything r (out y) x) l xs) :
    Reads Anything (readN l.length r) (l.flatMap out) xs := by
  induction h with
  | nil => exact Reads.pure []
  | @cons y x l xs hx _ ih =>
      have hrest : Reads Anything (DDBMS.readN l.length r >>= fun xs => Pure.pure (x :: xs)) (l.flatMap out ++ []) (x :: xs) :=
        ih.bind (Reads.pure _) (fun _ _ => trivial)
      rw [List.append_nil] at hrest
      exact hx.bind hrest (fun _ _ => trivial)

theorem Reads.ofOption {o : Option α} (h : o = some x) : Reads P (ofOption o) [] x := by
  intro s us ls _ hat
  exact ⟨s, by rw [DDBMS.ofOption, h]; rfl, hat.rest, by rw [fieldsOf, List.append_nil]; exact hat.consumed⟩

end Reads

/-- A string, with white space behind it. -/
theorem reads_getString {w : Bytes} (hw : Word w) :
    Reads (fun text => ∀ c ∈ text.head?, isspace c = true) getString [.field w] w := by
  rintro s qs ls hstop ⟨⟨ws, hws, hrest⟩, hconsumed⟩
  have hword : ∀ c ∈ w, (!isspace c) = true := fun c hc => by rw [hw.nospace c hc]; rfl
  have hend : ∀ c ∈ (textOf qs).head?, (!isspace c) = false := fun c hc => by rw [hstop c hc]; rfl
  have htext : s.rest.dropWhile isspace = w ++ textOf qs := by
    rw [hrest]
    exact hw.skip hws (textOf qs)
  refine ⟨⟨textOf qs, s.consumed ++ [w]⟩, ?_, ⟨[], by simp, rfl⟩, by rw [hconsumed]; rfl⟩
  simp only [getString, htext]
  rw [takeWhile_append_stop hword hend, dropWhile_append_stop hword hend, if_neg hw.ne]

/-- A number, with no digit behind it. -/
theorem reads_getInt (i : Int) : Reads NoDigit getInt [.field (decimal i)] i := by
  rintro s qs ls hstop ⟨⟨ws, hws, hrest⟩, hconsumed⟩
  have htext : s.rest.dropWhile isspace = decimal i ++ textOf qs := by
    rw [hrest]
    exact (decimal_word i).skip hws (textOf qs)
  have hdigits : ∀ c ∈ decimalNat i.natAbs, isdigit c = true := fun c hc => isdigit_decimalNat hc
  -- what follows begins with no digit, so the digits end where they were written
  have htake := takeWhile_append_stop hdigits hstop
  have hdrop := dropWhile_append_stop hdigits hstop
  refine ⟨⟨textOf qs, s.consumed ++ [decimal i]⟩, ?_, ⟨[], by simp, rfl⟩, by rw [hconsumed]; rfl⟩
  simp only [getInt, htext]
  by_cases hi : i < 0
  · have hsign : signOf (decimal i ++ textOf qs) = [45] := by
      rw [decimal, if_pos hi]
      rfl
    have hbehind : (decimal i ++ textOf qs).drop [(45 : UInt8)].length = decimalNat i.natAbs ++ textOf qs := by
      rw [decimal, if_pos hi]
      rfl
    rw [hsign, hbehind, htake, hdrop, if_neg (decimalNat_ne _), if_pos rfl, natOf_decimalNat]
    have hvalue : -(i.natAbs : Int) = i := by omega
    rw [hvalue, decimal, if_pos hi]
    rfl
  · -- the first character is a digit
    have hsign : signOf (decimal i ++ textOf qs) = [] := by
      rw [decimal, if_neg hi]
      obtain ⟨c, ds, hds⟩ := List.exists_cons_of_ne_nil (decimalNat_ne i.natAbs)
      have hc := isdigit_iff.mp (hdigits c (by rw [hds]; exact List.mem_cons_self))
      rw [hds, List.cons_append, signOf, if_neg]
      rintro (rfl | rfl)
      · exact absurd hc.1 (by decide)
      · exact absurd hc.1 (by decide)
    have hdec : decimal i = decimalNat i.natAbs := by rw [decimal, if_neg hi]
    rw [hsign, List.length_nil, List.drop_zero, hdec, htake, hdrop, if_neg (decimalNat_ne _), if_neg (by simp),
      natOf_decimalNat]
    have hvalue : (i.natAbs : Int) = i := by omega
    rw [hvalue]
    rfl

theorem reads_getInt32 (i : Int32) : Reads NoDigit getInt32 [.field (decimal i.toInt)] i := by
  have hread : Reads NoDigit (if Int32.minValue.toInt ≤ i.toInt ∧ i.toInt ≤ Int32.maxValue.toInt
      then (pure (Int32.ofInt i.toInt) : Reader Int32) else failure) [] i := by
    rw [if_pos ⟨i.minValue_le_toInt, i.toInt_le⟩, Int32.ofInt_toInt]
    exact Reads.pure i
  exact (reads_getInt i.toInt).bind hread (fun _ h => h)

theorem reads_getSize {n : Nat} (hn : n < 2 ^ 64) : Reads NoDigit getSize [.field (decimal n)] n := by
  have hread : Reads NoDigit (if (n : Int).natAbs < 2 ^ 64
      then (pure (if (n : Int) < 0 then 2 ^ 64 - (n : Int).natAbs else (n : Int).natAbs) : Reader Nat) else failure) [] n := by
    rw [if_pos (show (n : Int).natAbs < 2 ^ 64 from hn), if_neg (show ¬ (n : Int) < 0 by omega), Int.natAbs_natCast]
    exact Reads.pure n
  exact (reads_getInt n).bind hread (fun _ h => h)

/-! ## Fields with a separator behind them -/

section Separator

variable {Q : Bytes → Prop} {c : UInt8}

theorem isdigit_eq_false_of_isspace (hc : isspace c = true) : isdigit c = false := by
  rw [Bool.eq_false_iff]
  intro hdigit
  rw [isspace_eq_false_of_isdigit hdigit] at hc
  cases hc

theorem noDigit_cons (hc : isspace c = true) (text : Bytes) : NoDigit (c :: text) := by
  rintro d hd
  obtain rfl := Option.some.inj hd
  exact isdigit_eq_false_of_isspace hc

theorem Word.reads {w : Bytes} (hw : Word w) (hc : isspace c = true) : Reads Q getString [.field w, .sep c] w := by
  apply (reads_getString hw).sep hc
  rintro text d hd
  obtain rfl := Option.some.inj hd
  exact hc

theorem reads_int32 (i : Int32) (hc : isspace c = true) : Reads Q getInt32 [.field (decimal i.toInt), .sep c] i :=
  (reads_getInt32 i).sep hc (noDigit_cons hc)

theorem reads_size {n : Nat} (hn : n < 2 ^ 64) (hc : isspace c = true) :
    Reads Q getSize [.field (decimal n), .sep c] n :=
  (reads_getSize hn).sep hc (noDigit_cons hc)

end Separator

/-! ## What a reader has taken apart -/

/-- `ls` were extracted from the text, and `rest` is left: white space may stand in front of each, and none was followed
    by a digit. -/
inductive Lexed : Bytes → List Bytes → Bytes → Prop
  | nil {text : Bytes} : Lexed text [] text
  | cons {ws l text rest : Bytes} {ls : List Bytes} (hws : ∀ c ∈ ws, isspace c = true) (hl : Word l)
      (hstop : NoDigit text) (h : Lexed text ls rest) : Lexed (ws ++ (l ++ text)) (l :: ls) rest

theorem Lexed.append {text mid rest : Bytes} {ls ms : List Bytes} (h : Lexed text ls mid) (h' : Lexed mid ms rest) :
    Lexed text (ls ++ ms) rest := by
  induction h with
  | nil => exact h'
  | cons hws hl hstop _ ih => exact .cons hws hl hstop (ih h')

/-- Whatever a reader extracts. -/
def Lexes {α : Type} (r : Reader α) : Prop :=
  ∀ s x s', r s = some (x, s') → ∃ ls, s'.consumed = s.consumed ++ ls ∧ Lexed s.rest ls s'.rest

section Lexes

variable {α β : Type} {r : Reader α}

theorem Lexes.pure (x : α) : Lexes (Pure.pure x) := by
  intro s y s' h
  obtain ⟨-, rfl⟩ := Prod.mk.inj (Option.some.inj h)
  exact ⟨[], by rw [List.append_nil], .nil⟩

theorem Lexes.failure : Lexes (failure : Reader α) := by
  intro s y s' h
  cases h

theorem Lexes.bind {f : α → Reader β} (h : Lexes r) (hf : ∀ x, Lexes (f x)) : Lexes (r >>= f) := by
  intro s y s' hs
  obtain ⟨⟨x, s₁⟩, hr, hfx⟩ := Option.bind_eq_some_iff.mp hs
  obtain ⟨ls, hc, hl⟩ := h s x s₁ hr
  obtain ⟨ms, hc', hl'⟩ := hf x s₁ y s' hfx
  exact ⟨ls ++ ms, by rw [hc', hc, List.append_assoc], hl.append hl'⟩

theorem Lexes.readN (h : Lexes r) (n : Nat) : Lexes (readN n r) := by
  induction n with
  | zero => exact Lexes.pure []
  | succ n ih => exact h.bind (fun x => ih.bind (fun xs => Lexes.pure _))

theorem Lexes.ofOption (o : Option α) : Lexes (ofOption o) := by
  intro s x s' h
  obtain ⟨y, -, hy⟩ := Option.map_eq_some_iff.mp h
  obtain ⟨-, rfl⟩ := Prod.mk.inj hy
  exact ⟨[], by rw [List.append_nil], .nil⟩

/-- Everything up to where a predicate fails. -/
theorem head?_dropWhile {p : UInt8 → Bool} (text : Bytes) : ∀ c ∈ (text.dropWhile p).head?, p c = false := by
  induction text with
  | nil => simp
  | cons d text ih =>
      rw [List.dropWhile_cons]
      split
      · exact ih
      · rename_i hd
        rintro c hc
        obtain rfl := Option.some.inj hc
        exact Bool.eq_false_iff.mpr hd

theorem lexes_getString : Lexes getString := by
  intro s w s' h
  simp only [getString] at h
  split at h
  · cases h
  · rename_i hne
    obtain ⟨rfl, rfl⟩ := Prod.mk.inj (Option.some.inj h)
    refine ⟨[_], rfl, ?_⟩
    have hlexed : ∀ text : Bytes, text = s.rest.dropWhile isspace →
        Lexed (s.rest.takeWhile isspace ++ (text.takeWhile (fun c => !isspace c) ++ text.dropWhile fun c => !isspace c))
          [text.takeWhile fun c => !isspace c] (text.dropWhile fun c => !isspace c) := by
      rintro text rfl
      refine .cons (fun c hc => List.mem_takeWhile_imp hc) ⟨hne, ?_⟩ ?_ .nil
      · intro c hc
        simpa using List.mem_takeWhile_imp hc
      · -- a string ends before white space
        intro c hc
        exact isdigit_eq_false_of_isspace (by simpa using head?_dropWhile _ c hc)
    have hwhole := hlexed _ rfl
    rwa [List.takeWhile_append_dropWhile, List.takeWhile_append_dropWhile] at hwhole

theorem signOf_append_drop (text : Bytes) : signOf text ++ text.drop (signOf text).length = text := by
  cases text with
  | nil => rfl
  | cons c text =>
      rw [signOf]
      split <;> rfl

theorem isspace_signOf {text : Bytes} : ∀ c ∈ signOf text, isspace c = false := by
  cases text with
  | nil => simp [signOf]
  | cons c text =>
      rw [signOf]
      split
      · rename_i hc
        intro d hd
        rw [List.mem_singleton.mp hd]
        rcases hc with rfl | rfl <;> rfl
      · simp

theorem lexes_getInt : Lexes getInt := by
  intro s i s' h
  simp only [getInt] at h
  split at h
  · cases h
  · rename_i hne
    obtain ⟨rfl, rfl⟩ := Prod.mk.inj (Option.some.inj h)
    refine ⟨[_], rfl, ?_⟩
    generalize htext : s.rest.dropWhile isspace = text at hne ⊢
    have hwhole : s.rest = s.rest.takeWhile isspace ++ ((signOf text ++ (text.drop (signOf text).length).takeWhile isdigit)
        ++ (text.drop (signOf text).length).dropWhile isdigit) := by
      rw [List.append_assoc, List.takeWhile_append_dropWhile, signOf_append_drop, ← htext,
        List.takeWhile_append_dropWhile]
    rw [hwhole]
    refine .cons (fun c hc => List.mem_takeWhile_imp hc) ⟨?_, ?_⟩ (head?_dropWhile _) .nil
    · simp [hne]
    · intro c hc
      rcases List.mem_append.mp hc with hc | hc
      · exact isspace_signOf c hc
      · exact isspace_eq_false_of_isdigit (List.mem_takeWhile_imp hc)

theorem lexes_getInt32 : Lexes getInt32 := by
  apply lexes_getInt.bind
  intro i
  split
  · exact Lexes.pure _
  · exact Lexes.failure

theorem lexes_getSize : Lexes getSize := by
  apply lexes_getInt.bind
  intro i
  split
  · exact Lexes.pure _
  · exact Lexes.failure

end Lexes

/-! ## Outputs whose fields can be told apart -/

/-- No field is empty, or followed by a digit. -/
def Separated (ps : List Put) : Prop := ∀ pre f qs, ps = pre ++ .field f :: qs → f ≠ [] ∧ NoDigit (textOf qs)

/-- The separators are white space, and no field has any. -/
structure Spaced (ps : List Put) : Prop where
  sep : ∀ c, .sep c ∈ ps → isspace c = true
  field : ∀ f, .field f ∈ ps → NoSpace f

theorem spaced_nil : Spaced [] := ⟨by simp, by simp⟩

theorem spaced_field {f : Bytes} {ps : List Put} : Spaced (.field f :: ps) ↔ NoSpace f ∧ Spaced ps := by
  constructor
  · rintro ⟨hsep, hfield⟩
    exact ⟨hfield f List.mem_cons_self, fun c hc => hsep c (List.mem_cons_of_mem _ hc),
      fun g hg => hfield g (List.mem_cons_of_mem _ hg)⟩
  · rintro ⟨hf, hsep, hfield⟩
    refine ⟨fun c hc => hsep c ?_, fun g hg => ?_⟩
    · simpa using hc
    · rcases List.mem_cons.mp hg with heq | hg
      · obtain rfl := Put.field.inj heq
        exact hf
      · exact hfield g hg

theorem spaced_sep {c : UInt8} {ps : List Put} : Spaced (.sep c :: ps) ↔ isspace c = true ∧ Spaced ps := by
  constructor
  · rintro ⟨hsep, hfield⟩
    exact ⟨hsep c List.mem_cons_self, fun d hd => hsep d (List.mem_cons_of_mem _ hd),
      fun g hg => hfield g (List.mem_cons_of_mem _ hg)⟩
  · rintro ⟨hc, hsep, hfield⟩
    refine ⟨fun d hd => ?_, fun g hg => hfield g ?_⟩
    · rcases List.mem_cons.mp hd with heq | hd
      · obtain rfl := Put.sep.inj heq
        exact hc
      · exact hsep d hd
    · simpa using hg

theorem spaced_append {ps qs : List Put} : Spaced (ps ++ qs) ↔ Spaced ps ∧ Spaced qs := by
  induction ps with
  | nil => rw [List.nil_append, and_iff_right spaced_nil]
  | cons p ps ih =>
      cases p with
      | field f => rw [List.cons_append, spaced_field, spaced_field, ih, and_assoc]
      | sep c => rw [List.cons_append, spaced_sep, spaced_sep, ih, and_assoc]

theorem spaced_flatMap {α : Type} {out : α → List Put} {l : List α} :
    Spaced (l.flatMap out) ↔ ∀ x ∈ l, Spaced (out x) := by
  induction l with
  | nil => simp [spaced_nil]
  | cons x l ih => rw [List.flatMap_cons, spaced_append, ih, List.forall_mem_cons]

theorem Spaced.tail {p : Put} {ps : List Put} (h : Spaced (p :: ps)) : Spaced ps :=
  ⟨fun c hc => h.sep c (List.mem_cons_of_mem _ hc), fun f hf => h.field f (List.mem_cons_of_mem _ hf)⟩

theorem lexed_separated {ps : List Put} {ws rest : Bytes} (hspaced : Spaced ps) (hws : ∀ c ∈ ws, isspace c = true)
    (h : Lexed (ws ++ textOf ps) (fieldsOf ps) rest) : Separated ps := by
  induction ps generalizing ws with
  | nil =>
      intro pre f qs hsplit
      simp at hsplit
  | cons p ps ih =>
      cases p with
      | sep c =>
          have hmore : ∀ d ∈ ws ++ [c], isspace d = true := by
            intro d hd
            rcases List.mem_append.mp hd with hd | hd
            · exact hws d hd
            · rw [List.mem_singleton.mp hd]
              exact hspaced.sep c List.mem_cons_self
          have hps := ih hspaced.tail hmore (by rw [List.append_assoc]; exact h)
          intro pre f qs hsplit
          cases pre with
          | nil => cases hsplit
          | cons q pre => exact hps pre f qs (List.cons.inj hsplit).2
      | field f =>
          have hf := hspaced.field f List.mem_cons_self
          -- the extraction has stopped where the field ends
          generalize htext : ws ++ textOf (.field f :: ps) = text at h
          generalize hfields : fieldsOf (.field f :: ps) = fields at h
          cases h with
          | nil => cases hfields
          | @cons ws' l text' rest ls hws' hl hstop hrest =>
              obtain ⟨rfl, rfl⟩ := List.cons.inj hfields
              have hboth : f ++ textOf ps = f ++ text' := by
                have hskip := congrArg (List.dropWhile isspace) htext
                rwa [textOf, hl.skip hws, hl.skip hws'] at hskip
              obtain rfl := List.append_cancel_left hboth
              have hnone : ∀ d ∈ ([] : Bytes), isspace d = true := nofun
              have hps := ih hspaced.tail hnone hrest
              intro pre g qs hsplit
              cases pre with
              | nil =>
                  obtain ⟨hput, rfl⟩ := List.cons.inj hsplit
                  obtain rfl := Put.field.inj hput
                  exact ⟨hl.ne, hstop⟩
              | cons q pre => exact hps pre g qs (List.cons.inj hsplit).2

/-- **What is read as it was written is separated.** -/
theorem Lexes.separated {α : Type} {r : Reader α} (hr : Lexes r) {ps : List Put} (hspaced : Spaced ps) {x : α}
    {s' : IStream} (h : r ⟨textOf ps, []⟩ = some (x, s')) (hconsumed : s'.consumed = fieldsOf ps) : Separated ps := by
  obtain ⟨ls, hls, hlexed⟩ := hr _ x s' h
  rw [hconsumed, List.nil_append] at hls
  rw [← hls] at hlexed
  have hnone : ∀ d ∈ ([] : Bytes), isspace d = true := nofun
  exact lexed_separated hspaced hnone hlexed

/-- A part of a separated output. -/
theorem Separated.mid {pre ps post : List Put} (h : Separated (pre ++ ps ++ post)) {a b : List Put} {f : Bytes}
    (hsplit : ps = a ++ .field f :: b) : f ≠ [] ∧ NoDigit (textOf (b ++ post)) := by
  apply h (pre ++ a) f (b ++ post)
  rw [hsplit]
  simp

end DDBMS
