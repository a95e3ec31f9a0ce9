import EquationSolver.Number.Digits
import EquationSolver.Number.Literal
import EquationSolver.Number.Rational
import Mathlib.Algebra.Order.Ring.Rat
import Mathlib.Data.Rat.Defs
import Mathlib.Tactic.FieldSimp
import Mathlib.Tactic.Linarith
import Mathlib.Tactic.Ring

/-!
# What a decimal literal denotes

A grammar of decimal literals, with the number that each of them denotes, and the agreement of the
reader with it.  The exponent goes through 64-bit words on its way; these stand for what is meant
unless the exponent is the least word, whose magnitude is no such word.  Among the literals are the
decimal digits of natural numbers as they are written.
-/

namespace EquationSolver

namespace Digits

theorem ofNat_ne_nil (n : Nat) : ofNat n ≠ [] :=
  Nat.toDigits_ne_nil

theorem isDigit_of_mem_ofNat {n : Nat} {c : Char} (h : c ∈ ofNat n) : c.isDigit = true :=
  Nat.isDigit_of_mem_toDigits (by decide) (by decide) h

theorem toList_toString_nat (n : Nat) : (toString n).toList = ofNat n := by
  rw [Nat.toString_eq_ofList_toDigits, String.toList_ofList, ofNat]

theorem toList_toString_int (z : Int) : (toString z).toList =
    if 0 ≤ z then ofNat z.toNat else '-' :: ofNat (-z).toNat := by
  rw [Int.toString_eq_repr, Int.repr_eq_if]
  split
  case isTrue => exact Nat.toList_repr
  case isFalse => rw [String.toList_append, Nat.toList_repr]; rfl

end Digits

namespace Literal

/-! ### Grammar -/

def IsDigits (text : List Char) : Prop :=
  ∀ c ∈ text, c.isDigit = true

instance (text : List Char) : Decidable (IsDigits text) :=
  decidable_of_iff (text.all Char.isDigit = true) List.all_eq_true

/-- The number that decimal digits stand for. -/
def numeral (text : List Char) : ℕ :=
  Nat.ofDigitChars 10 text 0

/-- Digits with at most one point among them. -/
inductive Mantissa : List Char → ℚ → Prop
  | whole {whole : List Char} : whole ≠ [] → IsDigits whole → Mantissa whole (numeral whole)
  | point {whole fraction : List Char} :
      whole ++ fraction ≠ [] → IsDigits whole → IsDigits fraction →
        Mantissa (whole ++ '.' :: fraction)
          (numeral whole + numeral fraction / 10 ^ fraction.length)

/-- Digits with or without a sign before them. -/
inductive Exponent : List Char → ℤ → Prop
  | unsigned {digits : List Char} :
      digits ≠ [] → IsDigits digits → Exponent digits (numeral digits)
  | positive {digits : List Char} :
      digits ≠ [] → IsDigits digits → Exponent ('+' :: digits) (numeral digits)
  | negative {digits : List Char} :
      digits ≠ [] → IsDigits digits → Exponent ('-' :: digits) (-(numeral digits : ℤ))

def isMark (c : Char) : Bool :=
  c == 'e' || c == 'E'

/-- A mantissa, and the exponent behind the mark, which is zero without one. -/
inductive Unsigned : List Char → ℚ → ℤ → Prop
  | plain {text : List Char} {m : ℚ} : Mantissa text m → Unsigned text m 0
  | scaled {text digits : List Char} {mark : Char} {m : ℚ} {e : ℤ} :
      Mantissa text m → isMark mark = true → Exponent digits e →
        Unsigned (text ++ mark :: digits) m e

/-- The text is a mantissa with its sign, and an exponent. -/
inductive Spells : List Char → ℚ → ℤ → Prop
  | unsigned {text : List Char} {m : ℚ} {e : ℤ} : Unsigned text m e → Spells text m e
  | negative {text : List Char} {m : ℚ} {e : ℤ} : Unsigned text m e → Spells ('-' :: text) (-m) e

/-- The text is a decimal literal for the number. -/
def Denotes (text : List Char) (v : ℚ) : Prop :=
  ∃ m e, Spells text m e ∧ -1000 ≤ e ∧ e ≤ 1000 ∧ v = m * 10 ^ e

/-! ### Digits -/

theorem numeral_append (whole fraction : List Char) :
    numeral (whole ++ fraction) = numeral whole * 10 ^ fraction.length + numeral fraction := by
  rw [numeral, Nat.ofDigitChars_append, Nat.ofDigitChars_eq_ofDigitChars_zero, Nat.mul_comm]
  rfl

theorem digits?_eq_some_iff {text : List Char} {n : ℕ} :
    digits? text = some n ↔ text ≠ [] ∧ IsDigits text ∧ n = numeral text := by
  have hfold : text.foldl (fun n c => n * 10 + (c.toNat - '0'.toNat)) 0 = numeral text := by
    rw [numeral, Nat.ofDigitChars_eq_foldl]
    simp only [Nat.mul_comm 10]
  unfold digits?
  rw [hfold]
  split_ifs with hempty hall
  · simp [List.isEmpty_iff.1 hempty]
  · simp only [Option.some.injEq, IsDigits, ← List.all_eq_true, hall, true_and]
    exact ⟨fun h => ⟨by simpa using hempty, h.symm⟩, fun h => h.2.symm⟩
  · simp only [reduceCtorEq, IsDigits, ← List.all_eq_true, hall, false_and, and_false]

theorem IsDigits.append {text text' : List Char} (h : IsDigits text) (h' : IsDigits text') :
    IsDigits (text ++ text') :=
  List.forall_mem_append.2 ⟨h, h'⟩

/-- A character that is no digit does not stand among digits. -/
theorem IsDigits.ne {text : List Char} (h : IsDigits text) {c d : Char} (hc : c ∈ text)
    (hd : d.isDigit = false) : c ≠ d := by
  rintro rfl
  rw [h c hc] at hd
  exact absurd hd (by decide)

theorem isDigits_ofNat (n : ℕ) : IsDigits (Digits.ofNat n) :=
  fun _ hc => Digits.isDigit_of_mem_ofNat hc

theorem numeral_ofNat (n : ℕ) : numeral (Digits.ofNat n) = n :=
  Nat.ofDigitChars_ten_toDigits

theorem digits?_ofNat (n : ℕ) : digits? (Digits.ofNat n) = some n :=
  digits?_eq_some_iff.2 ⟨Digits.ofNat_ne_nil n, isDigits_ofNat n, (numeral_ofNat n).symm⟩

/-! ### Cutting -/

variable {p : Char → Bool}

theorem cutAt_eq_none {text : List Char} (h : ∀ c ∈ text, p c = false) :
    cutAt p text = (text, none) := by
  induction text with
  | nil => rfl
  | cons c text ih =>
    obtain ⟨hc, htext⟩ := List.forall_mem_cons.1 h
    simp [cutAt, hc, ih htext]

theorem cutAt_append {before after : List Char} {c : Char} (h : ∀ d ∈ before, p d = false)
    (hc : p c = true) : cutAt p (before ++ c :: after) = (before, some after) := by
  induction before with
  | nil => simp [cutAt, hc]
  | cons d before ih =>
    obtain ⟨hd, hbefore⟩ := List.forall_mem_cons.1 h
    simp [cutAt, hd, ih hbefore]

/-- A text is cut nowhere, or at the first character with the property. -/
theorem cutAt_cases (p : Char → Bool) (text : List Char) :
    cutAt p text = (text, none) ∧ (∀ d ∈ text, p d = false) ∨
      ∃ before c after, text = before ++ c :: after ∧ p c = true ∧ (∀ d ∈ before, p d = false) ∧
        cutAt p text = (before, some after) := by
  induction text with
  | nil => exact .inl ⟨rfl, by simp⟩
  | cons d text ih =>
    by_cases hd : p d = true
    · exact .inr ⟨[], d, text, rfl, hd, by simp, by simp [cutAt, hd]⟩
    · have hd : p d = false := by simpa using hd
      obtain ⟨hcut, hnone⟩ | ⟨before, c, after, rfl, hc, hbefore, hcut⟩ := ih
      · exact .inl ⟨by simp [cutAt, hd, hcut], by simpa [hd] using hnone⟩
      · exact .inr ⟨d :: before, c, after, rfl, hc, by simpa [hd] using hbefore,
          by simp [cutAt, hd, hcut]⟩

/-! ### The mantissa -/

/-- The mantissa that is read has its digits as numerator, over ten to the number of places. -/
theorem mantissa_of_mantissa? {text : List Char} {n places : ℕ}
    (h : mantissa? text = some (n, places)) : Mantissa text ((n : ℚ) / 10 ^ places) := by
  unfold mantissa? at h
  obtain ⟨hcut, -⟩ | ⟨whole, c, fraction, rfl, hc, -, hcut⟩ := cutAt_cases (· == '.') text
  · obtain ⟨m, hm, heq⟩ := Option.map_eq_some_iff.1 h
    obtain ⟨rfl, rfl⟩ := Prod.mk.inj heq
    rw [hcut] at hm ⊢
    obtain ⟨hne, hdigits, rfl⟩ := digits?_eq_some_iff.1 hm
    simp only [Option.getD_none, List.append_nil, List.length_nil, pow_zero, div_one] at *
    exact .whole hne hdigits
  · obtain rfl : c = '.' := by simpa using hc
    obtain ⟨m, hm, heq⟩ := Option.map_eq_some_iff.1 h
    obtain ⟨rfl, rfl⟩ := Prod.mk.inj heq
    rw [hcut] at hm ⊢
    obtain ⟨hne, hdigits, rfl⟩ := digits?_eq_some_iff.1 hm
    obtain ⟨hwhole, hfraction⟩ := List.forall_mem_append.1 hdigits
    have hvalue : ((numeral (whole ++ fraction) : ℕ) : ℚ) / 10 ^ fraction.length =
        numeral whole + numeral fraction / 10 ^ fraction.length := by
      rw [numeral_append]
      push_cast
      field_simp
    simp only [Option.getD_some] at *
    rw [hvalue]
    exact .point hne hwhole hfraction

theorem Mantissa.exists_mantissa? {text : List Char} {m : ℚ} (h : Mantissa text m) :
    ∃ n places, mantissa? text = some (n, places) ∧ m = (n : ℚ) / 10 ^ places := by
  cases h with
  | whole hne hdigits =>
    have hcut : cutAt (· == '.') text = (text, none) :=
      cutAt_eq_none fun c hc => by simpa using hdigits.ne hc (by decide)
    refine ⟨numeral text, 0, ?_, by simp⟩
    simp [mantissa?, hcut, digits?_eq_some_iff.2 ⟨hne, hdigits, rfl⟩]
  | @point whole fraction hne hwhole hfraction =>
    have hcut : cutAt (· == '.') (whole ++ '.' :: fraction) = (whole, some fraction) :=
      cutAt_append (fun c hc => by simpa using hwhole.ne hc (by decide)) (by decide)
    refine ⟨numeral (whole ++ fraction), fraction.length, ?_, ?_⟩
    · simp [mantissa?, hcut, digits?_eq_some_iff.2 ⟨hne, hwhole.append hfraction, rfl⟩]
    · rw [numeral_append]
      push_cast
      field_simp

/-- No mantissa has a mark of an exponent in it, or begins with a sign. -/
theorem Mantissa.isDigit_or {text : List Char} {m : ℚ} (h : Mantissa text m) :
    ∀ c ∈ text, c.isDigit = true ∨ c = '.' := by
  cases h with
  | whole _ hdigits => exact fun c hc => .inl (hdigits c hc)
  | point _ hwhole hfraction =>
    intro c hc
    rcases List.mem_append.1 hc with hc | hc
    · exact .inl (hwhole c hc)
    · exact (List.mem_cons.1 hc).symm.imp (hfraction c) id

/-! ### The exponent -/

/-- The integer that an exponent is read as, before it goes into a word. -/
def signed? : List Char → Option ℤ
  | '-' :: digits => (digits? digits).map fun n : ℕ => -(n : ℤ)
  | '+' :: digits => (digits? digits).map fun n : ℕ => (n : ℤ)
  | digits => (digits? digits).map fun n : ℕ => (n : ℤ)

theorem exponent?_eq (text : List Char) :
    exponent? text = ((signed? text).bind Integer.toInt64Range?).map Int64.ofInt := by
  have hcast (n : Option ℕ) (f : ℤ → ℤ) :
      (n >>= fun n => pure (n : ℤ)).map f = n.map fun n : ℕ => f n := by
    cases n <;> rfl
  unfold exponent?
  simp only [hcast]
  rfl

theorem signed?_eq_some_iff {text : List Char} {e : ℤ} :
    signed? text = some e ↔ Exponent text e := by
  constructor
  · intro h
    unfold signed? at h
    split at h
    all_goals
      obtain ⟨n, hn, rfl⟩ := Option.map_eq_some_iff.1 h
      obtain ⟨hne, hdigits, rfl⟩ := digits?_eq_some_iff.1 hn
    · exact .negative hne hdigits
    · exact .positive hne hdigits
    · exact .unsigned hne hdigits
  · intro h
    cases h with
    | positive hne hdigits | negative hne hdigits =>
      simp [signed?, digits?_eq_some_iff.2 ⟨hne, hdigits, rfl⟩]
    | unsigned hne hdigits =>
      unfold signed?
      split
      · exact absurd rfl (hdigits.ne List.mem_cons_self (by decide))
      · exact absurd rfl (hdigits.ne List.mem_cons_self (by decide))
      · rw [digits?_eq_some_iff.2 ⟨hne, hdigits, rfl⟩]
        rfl

/-- The integer behind the mark, which is zero without one. -/
def writtenExponent? (text : List Char) : Option ℤ :=
  match (cutAt isMark text).2 with
  | some digits => signed? digits
  | none => some 0

/-- The word for the exponent of a text. -/
def exponentWord? (text : List Char) : Option Int64 :=
  match (cutAt isMark text).2 with
  | some digits => exponent? digits
  | none => some 0

theorem exponentWord?_eq_some_iff {text : List Char} {word : Int64} :
    exponentWord? text = some word ↔ writtenExponent? text = some word.toInt := by
  have hexponent (digits : List Char) :
      exponent? digits = some word ↔ signed? digits = some word.toInt := by
    rw [exponent?_eq]
    simp only [Option.map_eq_some_iff, Option.bind_eq_some_iff, Integer.toInt64Range?]
    constructor
    · rintro ⟨_, ⟨e, he, hrange⟩, rfl⟩
      split_ifs at hrange with hbounds
      obtain rfl := Option.some.inj hrange
      rw [he, Int64.toInt_ofInt_of_le hbounds.1 (Int.lt_of_le_sub_one hbounds.2)]
    · intro h
      refine ⟨_, ⟨_, h, if_pos ⟨?_, ?_⟩⟩, Int64.ofInt_toInt word⟩
      · exact Int64.le_toInt word
      · exact Int.le_sub_one_of_lt (Int64.toInt_lt word)
  unfold exponentWord? writtenExponent?
  split
  · exact hexponent _
  · simp [Option.some.injEq, ← Int64.toInt_inj, eq_comm]

/-! ### Words -/

theorem toInt_abs {word : Int64} (h : word ≠ Int64.minValue) : word.abs.toInt = |word.toInt| := by
  have hmin : word.toBitVec ≠ BitVec.intMin 64 := by
    rw [← Int64.toBitVec_minValue]
    exact mt Int64.toBitVec_inj.1 h
  rw [← Int64.toInt_toBitVec, Int64.toBitVec_abs,
    BitVec.toInt_abs_eq_natAbs_of_ne_intMin hmin, Int64.toInt_toBitVec, Int.natCast_natAbs]

/-- The low half of a word that is no negative integer, and small enough, is that integer. -/
theorem toNat_narrow {word : Int64} (hnonneg : 0 ≤ word.toInt) (hlt : word.toInt < 2 ^ 32) :
    (word.toUInt64.toUInt32.toNat : ℤ) = word.toInt := by
  have hword : word.toUInt64.toNat = word.toInt.toNat :=
    Int64.toNat_toUInt64_of_le (Int64.le_iff_toInt_le.2 hnonneg)
  rw [UInt64.toNat_toUInt32, hword]
  omega

/-- The words on the way from an exponent and a number of places to a power of ten are the
    integers that they stand for. -/
structure HasExactScale (exponent : Int64) (places : ℕ) : Prop where
  places_eq : (Int64.ofNat places).toInt = places
  scale_eq : (exponent - Int64.ofNat places).toInt = exponent.toInt - places
  neg_eq : (-(exponent - Int64.ofNat places)).toInt = -(exponent.toInt - places)
  narrow_eq : 0 ≤ exponent - Int64.ofNat places →
    ((exponent - Int64.ofNat places).toUInt64.toUInt32.toNat : ℤ) = exponent.toInt - places
  narrow_neg_eq : ¬0 ≤ exponent - Int64.ofNat places →
    ((-(exponent - Int64.ofNat places)).toUInt64.toUInt32.toNat : ℤ) = -(exponent.toInt - places)

theorem hasExactScale {exponent : Int64} {places : ℕ} (h : |exponent.toInt| ≤ 1000)
    (hnarrow : places - exponent.toInt < 2 ^ 32) : HasExactScale exponent places := by
  obtain ⟨hlower, hupper⟩ := abs_le.1 h
  have hword : (Int64.ofNat places).toInt = places := Int64.toInt_ofNat_of_lt (by omega)
  have hscale : (exponent - Int64.ofNat places).toInt = exponent.toInt - places := by
    rw [Int64.toInt_sub, hword]
    exact Int.bmod_eq_of_le (by omega) (by omega)
  have hneg : (-(exponent - Int64.ofNat places)).toInt = -(exponent.toInt - places) := by
    rw [Int64.toInt_neg, hscale]
    exact Int.bmod_eq_of_le (by omega) (by omega)
  have hsign : 0 ≤ exponent - Int64.ofNat places ↔ 0 ≤ exponent.toInt - (places : ℤ) := by
    rw [Int64.le_iff_toInt_le, hscale]
    rfl
  refine ⟨hword, hscale, hneg, fun hnonneg => ?_, fun hnegative => ?_⟩
  · rw [toNat_narrow (by rw [hscale]; exact hsign.1 hnonneg) (by omega), hscale]
  · have := mt hsign.2 hnegative
    rw [toNat_narrow (by omega) (by omega), hneg]

/-- A power of ten that is taken of exact words is the one that is meant. -/
theorem HasExactScale.scaleBy_eq {exponent : Int64} {places : ℕ}
    (h : HasExactScale exponent places) (value : ℚ) :
    scaleBy value (exponent - Int64.ofNat places) = value / 10 ^ places * 10 ^ exponent.toInt := by
  have hpower : value / 10 ^ places * (10 : ℚ) ^ exponent.toInt =
      value * 10 ^ (exponent.toInt - (places : ℤ)) := by
    rw [zpow_sub₀ (by norm_num), zpow_natCast]
    ring
  rw [hpower]
  unfold scaleBy
  split_ifs with hsign
  · rw [← h.narrow_eq hsign, zpow_natCast, Nat.pow_eq]
    push_cast
    rfl
  · rw [← neg_neg (exponent.toInt - (places : ℤ)), ← h.narrow_neg_eq hsign, zpow_neg, zpow_natCast,
      Nat.pow_eq, div_eq_mul_inv]
    push_cast
    rfl

/-! ### Literals -/

/-- What stands before the mark without its sign, and whether that is there. -/
def signedBody (text : List Char) : Bool × List Char :=
  match (cutAt isMark text).1 with
  | '-' :: body => (true, body)
  | body => (false, body)

def applySign (negative : Bool) (m : ℚ) : ℚ :=
  if negative then -m else m

theorem applySign_mul (negative : Bool) (m scale : ℚ) :
    applySign negative (m * scale) = applySign negative m * scale := by
  cases negative
  · rfl
  · exact (neg_mul m scale).symm

/-- The number of characters behind the point, of which a literal has none without a point. -/
def places (text : List Char) : ℕ :=
  ((cutAt (· == '.') (signedBody text).2).2.getD []).length

theorem places_of_mantissa? {text : List Char} {n p : ℕ}
    (h : mantissa? (signedBody text).2 = some (n, p)) : p = places text := by
  obtain ⟨_, -, heq⟩ := Option.map_eq_some_iff.1 h
  exact (Prod.mk.inj heq).2.symm

theorem ofChars?_eq (text : List Char) :
    ofChars? text = (exponentWord? text).bind fun exponent =>
      if maxExponent < exponent.abs then none
      else (mantissa? (signedBody text).2).map fun (n, places) =>
        applySign (signedBody text).1 (scaleBy n (exponent - Int64.ofNat places)) := by
  have hmark : (fun c => c == 'e' || c == 'E') = isMark := rfl
  unfold ofChars? exponentWord? signedBody
  rw [hmark]
  generalize cutAt isMark text = parts
  obtain ⟨before, after⟩ := parts
  have hmap (exponent : Int64) (negative : Bool) (m? : Option (ℕ × ℕ)) :
      (m? >>= fun (n, places) =>
        let value := scaleBy n (exponent - Int64.ofNat places)
        some (if negative then -value else value)) = m?.map fun (n, places) =>
          applySign negative (scaleBy n (exponent - Int64.ofNat places)) := by
    cases m? <;> rfl
  cases after <;> simp only [hmap] <;> rfl

theorem signedBody_cases (text : List Char) :
    (∃ body, (cutAt isMark text).1 = '-' :: body ∧ signedBody text = (true, body)) ∨
      (∀ body, (cutAt isMark text).1 ≠ '-' :: body) ∧
        signedBody text = (false, (cutAt isMark text).1) := by
  unfold signedBody
  split
  · rename_i body h
    exact .inl ⟨body, h, rfl⟩
  · rename_i h
    exact .inr ⟨h, rfl⟩

/-- Digits have no sign, no mark and no point among them. -/
theorem IsDigits.places_eq {text : List Char} (h : IsDigits text) : places text = 0 := by
  have hmark : cutAt isMark text = (text, none) := cutAt_eq_none fun c hc => by
    simp [isMark, h.ne hc (d := 'e') (by decide), h.ne hc (d := 'E') (by decide)]
  have hpoint : cutAt (· == '.') text = (text, none) :=
    cutAt_eq_none fun c hc => by simpa using h.ne hc (by decide)
  obtain ⟨body, hsign, -⟩ | ⟨-, hbody⟩ := signedBody_cases text
  · rw [hmark] at hsign
    subst hsign
    exact absurd rfl (h.ne List.mem_cons_self (d := '-') (by decide))
  · rw [places, hbody, hmark, hpoint]
    rfl

/-- The reader cuts a text without a sign into its mantissa and its exponent. -/
theorem Unsigned.cutAt_eq {text : List Char} {m : ℚ} {e : ℤ} (h : Unsigned text m e) :
    ∃ body, Mantissa body m ∧ (cutAt isMark text).1 = body ∧ writtenExponent? text = some e := by
  have hmarks {body : List Char} (h : Mantissa body m) : ∀ c ∈ body, isMark c = false := by
    intro c hc
    obtain hdigit | rfl := h.isDigit_or c hc
    · have hne : c ≠ 'e' ∧ c ≠ 'E' := by
        constructor <;> rintro rfl <;> exact absurd hdigit (by decide)
      simp [isMark, hne]
    · rfl
  cases h with
  | plain hm =>
    refine ⟨text, hm, ?_⟩
    simp [writtenExponent?, cutAt_eq_none (hmarks hm)]
  | @scaled body digits mark _ _ hm hmark he =>
    refine ⟨body, hm, ?_⟩
    simp [writtenExponent?, cutAt_append (hmarks hm) hmark, signed?_eq_some_iff.2 he]

/-- What stands before the mark is an unsigned literal together with what stands behind. -/
theorem exists_unsigned {text : List Char} {m : ℚ} {e : ℤ}
    (he : writtenExponent? text = some e) :
    ∃ rest, text = (cutAt isMark text).1 ++ rest ∧
      ∀ body, Mantissa body m → Unsigned (body ++ rest) m e := by
  unfold writtenExponent? at he
  obtain ⟨hcut, -⟩ | ⟨before, mark, digits, htext, hmark, -, hcut⟩ := cutAt_cases isMark text
  · rw [hcut] at he ⊢
    obtain rfl : 0 = e := Option.some.inj he
    exact ⟨[], by simp, fun body hm => by simpa using Unsigned.plain hm⟩
  · rw [hcut] at he ⊢
    exact ⟨mark :: digits, htext, fun body hm => .scaled hm hmark (signed?_eq_some_iff.1 he)⟩

/-- The reader cuts a literal into the parts that it is put together from. -/
theorem Spells.exists_mantissa {text : List Char} {m : ℚ} {e : ℤ} (h : Spells text m e) :
    writtenExponent? text = some e ∧
      ∃ n, Mantissa (signedBody text).2 n ∧ m = applySign (signedBody text).1 n := by
  cases h with
  | unsigned h =>
    obtain ⟨body, hm, hcut, he⟩ := h.cutAt_eq
    refine ⟨he, m, ?_⟩
    obtain ⟨rest, hsign, -⟩ | ⟨-, hbody⟩ := signedBody_cases text
    · -- No mantissa begins with a sign.
      rw [hcut] at hsign
      subst hsign
      exact absurd (hm.isDigit_or '-' List.mem_cons_self) (by decide)
    · rw [hbody, hcut]
      exact ⟨hm, rfl⟩
  | @negative rest n _ h =>
    obtain ⟨body, hm, hcut, he⟩ := h.cutAt_eq
    have hbefore : cutAt isMark ('-' :: rest) = ('-' :: body, (cutAt isMark rest).2) := by
      rw [cutAt, if_neg (by decide), ← hcut]
    have hbody : signedBody ('-' :: rest) = (true, body) := by
      rw [signedBody, hbefore]
      rfl
    refine ⟨?_, n, ?_⟩
    · rw [writtenExponent?, hbefore]
      exact he
    · rw [hbody]
      exact ⟨hm, rfl⟩

/-- A text spells what the parts of it do that the reader cuts it into. -/
theorem spells_iff {text : List Char} {m : ℚ} {e : ℤ} :
    Spells text m e ↔ writtenExponent? text = some e ∧
      ∃ n, Mantissa (signedBody text).2 n ∧ m = applySign (signedBody text).1 n := by
  refine ⟨Spells.exists_mantissa, ?_⟩
  rintro ⟨he, n, hm, rfl⟩
  obtain ⟨rest, htext, hunsigned⟩ := exists_unsigned (m := n) he
  obtain ⟨body, hcut, hbody⟩ | ⟨-, hbody⟩ := signedBody_cases text
  · rw [hbody] at hm ⊢
    rw [htext, hcut]
    exact .negative (hunsigned body hm)
  · rw [hbody] at hm ⊢
    have := Spells.unsigned (hunsigned _ hm)
    rwa [← htext] at this

/-- The power of ten that a literal asks for fits a word of 32 bits. -/
def NarrowsExactly (text : List Char) : Prop :=
  ∀ e, writtenExponent? text = some e → |e| ≤ 1000 → places text - e < 2 ^ 32

theorem length_cutAt_le (p : Char → Bool) (text : List Char) :
    (cutAt p text).1.length ≤ text.length ∧
      ((cutAt p text).2.getD []).length ≤ text.length := by
  obtain ⟨hcut, -⟩ | ⟨before, c, after, htext, -, -, hcut⟩ := cutAt_cases p text
  · rw [hcut]
    exact ⟨le_rfl, Nat.zero_le _⟩
  · rw [hcut, htext, List.length_append, List.length_cons]
    exact ⟨Nat.le_add_right _ _, (Nat.le_succ _).trans (Nat.le_add_left _ _)⟩

theorem places_le_length (text : List Char) : places text ≤ text.length := by
  refine (length_cutAt_le _ _).2.trans (le_trans ?_ (length_cutAt_le isMark text).1)
  obtain ⟨body, hsign, hbody⟩ | ⟨-, hbody⟩ := signedBody_cases text
  · rw [hbody, hsign]
    exact Nat.le_succ _
  · rw [hbody]

/-- A literal that is not as long as a word of 32 bits can tell asks for no larger power. -/
theorem narrowsExactly_of_length_lt {text : List Char} (h : text.length < 2 ^ 31) :
    NarrowsExactly text := by
  intro e _ hsmall
  have hplaces := places_le_length text
  obtain ⟨hlower, -⟩ := abs_le.1 hsmall
  omega

theorem NarrowsExactly.hasExactScale {text : List Char} (h : NarrowsExactly text)
    {exponent : Int64} (hword : exponentWord? text = some exponent)
    (hsmall : |exponent.toInt| ≤ 1000) : HasExactScale exponent (places text) :=
  Literal.hasExactScale hsmall (h _ (exponentWord?_eq_some_iff.1 hword) hsmall)

theorem maxExponent_lt_abs_iff {exponent : Int64} (h : exponent ≠ Int64.minValue) :
    maxExponent < exponent.abs ↔ 1000 < |exponent.toInt| := by
  rw [Int64.lt_iff_toInt_lt, toInt_abs h]
  rfl

theorem exponentWord?_ne_minValue {text : List Char} {exponent : Int64}
    (hexponent : writtenExponent? text ≠ some (-2 ^ 63)) (h : exponentWord? text = some exponent) :
    exponent ≠ Int64.minValue := by
  rintro rfl
  exact hexponent (by rw [exponentWord?_eq_some_iff.1 h, Int64.toInt_minValue])

/-- Characters are read as the number that they are a literal for, if they are one. -/
theorem ofChars?_eq_some_iff {text : List Char} (hnarrow : NarrowsExactly text)
    (hexponent : writtenExponent? text ≠ some (-2 ^ 63)) {v : ℚ} :
    ofChars? text = some v ↔ Denotes text v := by
  rw [ofChars?_eq]
  constructor
  · intro h
    obtain ⟨exponent, hword, h⟩ := Option.bind_eq_some_iff.1 h
    split_ifs at h with hlimit
    obtain ⟨⟨n, p⟩, hm, rfl⟩ := Option.map_eq_some_iff.1 h
    have hsmall : |exponent.toInt| ≤ 1000 := not_lt.1
      (mt (maxExponent_lt_abs_iff (exponentWord?_ne_minValue hexponent hword)).2 hlimit)
    obtain rfl := places_of_mantissa? hm
    refine ⟨_, exponent.toInt, spells_iff.2 ⟨exponentWord?_eq_some_iff.1 hword, _,
      mantissa_of_mantissa? hm, rfl⟩, (abs_le.1 hsmall).1, (abs_le.1 hsmall).2, ?_⟩
    simp only [(hnarrow.hasExactScale hword hsmall).scaleBy_eq, applySign_mul]
  · rintro ⟨m, e, hspells, hlower, hupper, rfl⟩
    obtain ⟨he, q, hm, rfl⟩ := spells_iff.1 hspells
    obtain ⟨n, p, hread, rfl⟩ := hm.exists_mantissa?
    obtain rfl := places_of_mantissa? hread
    have htoInt : (Int64.ofInt e).toInt = e := Int64.toInt_ofInt_of_le (by omega) (by omega)
    have hword : exponentWord? text = some (Int64.ofInt e) :=
      exponentWord?_eq_some_iff.2 (by rw [htoInt, he])
    have hsmall : |(Int64.ofInt e).toInt| ≤ 1000 := by
      rw [htoInt]
      exact abs_le.2 ⟨hlower, hupper⟩
    have hlimit : ¬maxExponent < (Int64.ofInt e).abs :=
      mt (maxExponent_lt_abs_iff (exponentWord?_ne_minValue hexponent hword)).1 (not_lt.2 hsmall)
    rw [hword, Option.bind_some, if_neg hlimit, hread, Option.map_some]
    simp only [(hnarrow.hasExactScale hword hsmall).scaleBy_eq, htoInt, applySign_mul]

/-- Digits are read back as the number that they were written for. -/
theorem ofChars?_ofNat (n : ℕ) : ofChars? (Digits.ofNat n) = some (n : ℚ) := by
  have hdigits := isDigits_ofNat n
  have hmantissa : Mantissa (Digits.ofNat n) n := by
    simpa [numeral_ofNat] using Mantissa.whole (Digits.ofNat_ne_nil n) hdigits
  have hspells : Spells (Digits.ofNat n) n 0 := .unsigned (.plain hmantissa)
  obtain ⟨hexponent, -⟩ := spells_iff.1 hspells
  have hnarrow : NarrowsExactly (Digits.ofNat n) := by
    intro e he _
    obtain rfl : 0 = e := Option.some.inj (hexponent.symm.trans he)
    rw [hdigits.places_eq]
    decide
  exact (ofChars?_eq_some_iff hnarrow (by simp [hexponent])).2 ⟨n, 0, hspells, by simp⟩

/-- A text is read as the number that it is a literal for, if it is one, and no word on the way
    stands for another integer than it is meant to.  Two kinds of text are left out: those with the
    least word for an exponent, and those that ask for a power of ten beyond the words of 32
    bits. -/
theorem value?_exact {text : String} (hnarrow : NarrowsExactly text.toList)
    (hexponent : writtenExponent? text.toList ≠ some (-2 ^ 63)) :
    (∀ v, value? text = some v ↔ Denotes text.toList v) ∧
      ∀ exponent, exponentWord? text.toList = some exponent →
        exponent.abs.toInt = |exponent.toInt| ∧
          (|exponent.toInt| ≤ 1000 → HasExactScale exponent (places text.toList)) :=
  ⟨fun _ => ofChars?_eq_some_iff hnarrow hexponent, fun _ hword =>
    ⟨toInt_abs (exponentWord?_ne_minValue hexponent hword), hnarrow.hasExactScale hword⟩⟩

/-- The literal is the minus sign, `1.5`, and the exponent `-3` behind its mark. -/
theorem value?_exact_negative :
    NarrowsExactly "-1.5E-3".toList ∧ writtenExponent? "-1.5E-3".toList ≠ some (-2 ^ 63) ∧
      value? "-1.5E-3" = some (-3 / 2000) := by
  have hwritten : writtenExponent? "-1.5E-3".toList = some (-3) := by decide
  have hnarrow : NarrowsExactly "-1.5E-3".toList := by
    intro e he _
    obtain rfl : -3 = e := Option.some.inj (hwritten.symm.trans he)
    decide
  have hexponent : writtenExponent? "-1.5E-3".toList ≠ some (-2 ^ 63) := by
    rw [hwritten]
    decide
  have hmantissa : Mantissa ['1', '.', '5'] (1 + 5 / 10 ^ 1) :=
    @Mantissa.point ['1'] ['5'] (by decide) (by decide) (by decide)
  have hmark : isMark 'E' = true := rfl
  have hthree : Exponent ['-', '3'] (-3) := @Exponent.negative ['3'] (by decide) (by decide)
  refine ⟨hnarrow, hexponent, ((value?_exact hnarrow hexponent).1 _).2
    ⟨_, -3, .negative (.scaled hmantissa hmark hthree), ?_⟩⟩
  norm_num

/-- The least word is its own negation, whose low half is zero.  So a literal with this exponent
    and without a fraction is read as its mantissa. -/
theorem value?_of_least_exponent {text : String} (hplaces : places text.toList = 0)
    (hexponent : writtenExponent? text.toList = some (-2 ^ 63)) (v : ℚ) :
    value? text = some v ↔ Spells text.toList v (-2 ^ 63) := by
  have hword : exponentWord? text.toList = some Int64.minValue :=
    exponentWord?_eq_some_iff.2 (by rw [hexponent, Int64.toInt_minValue])
  have hlimit : ¬maxExponent < Int64.minValue.abs := by decide
  have hscale (value : ℚ) : scaleBy value (Int64.minValue - Int64.ofNat 0) = value / 10 ^ 0 := by
    have hlow : (-(Int64.minValue - Int64.ofNat 0)).toUInt64.toUInt32.toNat = 0 := by decide
    rw [scaleBy, if_neg (by decide), hlow]
    rfl
  rw [value?, ofChars?_eq, hword, Option.bind_some, if_neg hlimit, spells_iff]
  simp only [hexponent, true_and]
  constructor
  · intro h
    obtain ⟨⟨n, p⟩, hm, rfl⟩ := Option.map_eq_some_iff.1 h
    obtain rfl := (places_of_mantissa? hm).trans hplaces
    exact ⟨_, mantissa_of_mantissa? hm, by rw [hscale]⟩
  · rintro ⟨m, hm, rfl⟩
    obtain ⟨n, p, hread, rfl⟩ := hm.exists_mantissa?
    obtain rfl := (places_of_mantissa? hread).trans hplaces
    rw [hread, Option.map_some]
    simp only [hscale]

example : value? "1E-9223372036854775808" = some 1 := by decide +kernel

end Literal

end EquationSolver
