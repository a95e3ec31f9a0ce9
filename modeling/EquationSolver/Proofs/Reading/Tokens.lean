import EquationSolver.Term.Token
import Mathlib.Data.List.Basic
import Mathlib.Tactic.IntervalCases

/-!
# The tokens of a text

A text that is put together from pieces is cut into the tokens of the pieces, provided that
no piece extends the last token of the piece in front of it.  Numbers and names are the only
tokens that can be extended, and the marks of the grammar extend neither.
-/

namespace EquationSolver

/-! ### Characters that separate -/

/-- A mark of the grammar, which is a token of its own and extends no other token. -/
def separators : List Char :=
  ['+', '-', '*', '/', '^', '(', ')', '[', ']', ',']

/-- The text is empty or begins with a mark of the grammar. -/
def BeginsApart (text : List Char) : Prop :=
  ∀ c ∈ text.head?, c ∈ separators

@[simp] theorem beginsApart_nil : BeginsApart [] := by
  simp [BeginsApart]

theorem beginsApart_cons {c : Char} {text : List Char} :
    BeginsApart (c :: text) ↔ c ∈ separators := by
  simp [BeginsApart]

theorem BeginsApart.append {a b : List Char} (ha : BeginsApart a) (hb : BeginsApart b) :
    BeginsApart (a ++ b) := by
  cases a with
  | nil => exact hb
  | cons c a => exact beginsApart_cons.2 (beginsApart_cons.1 ha)

/-- A test that fails for all characters of a list fails for each. -/
theorem eq_false_of_all {p : Char → Bool} {cs : List Char} (h : cs.all (fun c => !p c) = true)
    {c : Char} (hc : c ∈ cs) : p c = false := by
  have hfalse := List.all_eq_true.1 h c hc
  rwa [Bool.not_eq_true'] at hfalse

namespace Pending

/-- A pending number whose exponent has no sign and no digits yet extends over signs; all
    other pending tokens end before a mark of the grammar. -/
def EndsAtSeparator : Pending → Prop
  | exponentMark .. => False
  | _ => True

theorem separator_not_in_name {c : Char} (hc : c ∈ separators) :
    ((Text.isLetterOrNumeral c || c == '_') && c != 'π') = false :=
  eq_false_of_all (p := fun c => (Text.isLetterOrNumeral c || c == '_') && c != 'π')
    (by decide +kernel) hc

theorem extend?_separator {p : Pending} (hp : p.EndsAtSeparator) {c : Char}
    (hc : c ∈ separators) : p.extend? c = none := by
  have hdigit : c.isDigit = false := eq_false_of_all (by decide) hc
  have hnumber : beginsNumber c = false := eq_false_of_all (by decide) hc
  have hmark : (c == 'E') = false := eq_false_of_all (p := fun c => c == 'E') (by decide) hc
  cases p with
  | nothing => rfl
  | name start text => simp [extend?, separator_not_in_name hc]
  | mantissa start text => simp [extend?, hnumber, hmark]
  | exponentMark start text => exact hp.elim
  | exponent start text => simp [extend?, hdigit]

end Pending

/-- A pending token that the next character does not extend is finished there. -/
theorem tokensFrom_of_extend?_eq_none {p : Pending} {c : Char} (h : p.extend? c = none)
    (position : Nat) (rest : List Char) :
    tokensFrom position p (c :: rest) =
      (tokensFrom position .nothing (c :: rest)).map (p.finish ++ ·) := by
  have hnothing : Pending.nothing.extend? c = none := rfl
  conv_lhs => rw [tokensFrom]
  conv_rhs => rw [tokensFrom]
  simp only [h, hnothing]
  split
  case isTrue =>
    cases tokensFrom (position + c.utf8Size) .nothing rest <;> simp [Except.map, Pending.finish]
  case isFalse =>
    split
    case h_1 first _ =>
      cases tokensFrom (position + c.utf8Size) first rest <;>
        simp [Except.map, Pending.finish]
    case h_2 =>
      split
      case h_1 token _ =>
        cases tokensFrom (position + c.utf8Size) .nothing rest <;>
          simp [Except.map, Pending.finish]
      case h_2 => rfl

/-- Before a mark of the grammar, and at the end, a pending token is finished. -/
theorem tokensFrom_beginsApart {p : Pending} (hp : p.EndsAtSeparator) {rest : List Char}
    (h : BeginsApart rest) (position : Nat) :
    tokensFrom position p rest = (tokensFrom position .nothing rest).map (p.finish ++ ·) := by
  cases rest with
  | nil => simp [tokensFrom, Except.map, Pending.finish]
  | cons c rest =>
    exact tokensFrom_of_extend?_eq_none (Pending.extend?_separator hp (beginsApart_cons.1 h))
      position rest

/-- A mark of the grammar, or another character that is a token of its own. -/
theorem tokensFrom_mark {c : Char} {token : Token} (hc : c ∈ '√' :: 'π' :: separators)
    (htoken : Token.ofChar? c = some token) (position : Nat) (rest : List Char) :
    tokensFrom position .nothing (c :: rest) =
      (tokensFrom (position + c.utf8Size) .nothing rest).map (⟨position, token⟩ :: ·) := by
  have hblank : Text.isBlank c = false := eq_false_of_all (by decide +kernel) hc
  have hbegin : (Pending.beginsNumber c || (Text.isLetter c && c != 'π')) = false :=
    eq_false_of_all (p := fun c => Pending.beginsNumber c || (Text.isLetter c && c != 'π'))
      (by decide +kernel) hc
  obtain ⟨hnumber, hletter⟩ := Bool.or_eq_false_iff.1 hbegin
  have hfirst : Pending.begin? position c = none := by
    simp [Pending.begin?, hnumber, hletter]
  have hnothing : Pending.nothing.extend? c = none := rfl
  rw [tokensFrom]
  simp only [hnothing, hblank, hfirst, htoken, Bool.false_eq_true, if_false,
    Pending.finish, List.nil_append]

/-! ### Pieces of text -/

/-- The text is cut into the tokens wherever it stands, with the end or a mark of the grammar
    behind it. -/
def Lexes (text : List Char) (tokens : List Token) : Prop :=
  ∀ position rest, BeginsApart rest → ∃ next lexemes, lexemes.map Lexeme.token = tokens ∧
    tokensFrom position .nothing (text ++ rest) =
      (tokensFrom next .nothing rest).map (lexemes ++ ·)

namespace Lexes

variable {a b : List Char} {s t : List Token}

theorem nil : Lexes [] [] := by
  intro position rest _
  refine ⟨position, [], rfl, ?_⟩
  cases h : tokensFrom position .nothing rest <;> simp [h, Except.map]

/-- Pieces stand side by side where the second begins with a mark of the grammar. -/
theorem append (ha : Lexes a s) (hb : Lexes b t) (hapart : BeginsApart b) :
    Lexes (a ++ b) (s ++ t) := by
  intro position rest hrest
  obtain ⟨middle, first, rfl, hfirst⟩ := ha position (b ++ rest) (hapart.append hrest)
  obtain ⟨next, second, rfl, hsecond⟩ := hb middle rest hrest
  refine ⟨next, first ++ second, List.map_append, ?_⟩
  rw [List.append_assoc, hfirst, hsecond]
  cases tokensFrom next .nothing rest <;> simp [Except.map]

/-- A mark of the grammar or the sign of the root in front of a piece. -/
theorem cons {c : Char} {token : Token} (hb : Lexes b t) (hc : c ∈ '√' :: 'π' :: separators)
    (htoken : Token.ofChar? c = some token) : Lexes (c :: b) (token :: t) := by
  intro position rest hrest
  obtain ⟨next, lexemes, rfl, heq⟩ := hb (position + c.utf8Size) rest hrest
  refine ⟨next, ⟨position, token⟩ :: lexemes, rfl, ?_⟩
  rw [List.cons_append, tokensFrom_mark hc htoken, heq]
  cases tokensFrom next .nothing rest <;> simp [Except.map]

/-- The first character decides on the first token. -/
theorem head?_eq {c : Char} {token : Token} (h : Lexes (c :: b) t)
    (hc : c ∈ '√' :: 'π' :: separators) (htoken : Token.ofChar? c = some token) :
    t.head? = some token := by
  obtain ⟨next, lexemes, rfl, heq⟩ := h 0 [] beginsApart_nil
  rw [List.cons_append, tokensFrom_mark hc htoken] at heq
  generalize tokensFrom (0 + c.utf8Size) .nothing (b ++ []) = others at heq
  cases others with
  | error e => simp [tokensFrom, Except.map] at heq
  | ok others =>
    simp only [tokensFrom, Pending.finish, Except.map, List.append_nil, Except.ok.injEq] at heq
    simp [← heq]

end Lexes

/-! ### Numbers and names -/

/-- Characters that extend a pending token one after the other all belong to it. -/
theorem tokensFrom_extended {token : List Char → Pending}
    (hends : ∀ read, (token read).EndsAtSeparator) {text : List Char}
    (h : ∀ read, ∀ c ∈ text, (token read).extend? c = some (token (read ++ [c])))
    (read : List Char) (position : Nat) {rest : List Char} (hrest : BeginsApart rest) :
    ∃ next, tokensFrom position (token read) (text ++ rest) =
      (tokensFrom next .nothing rest).map ((token (read ++ text)).finish ++ ·) := by
  induction text generalizing read position with
  | nil =>
    refine ⟨position, ?_⟩
    rw [List.nil_append, List.append_nil]
    exact tokensFrom_beginsApart (hends read) hrest position
  | cons c text ih =>
    obtain ⟨next, hnext⟩ := ih (fun read d hd => h read d (List.mem_cons_of_mem c hd))
      (read ++ [c]) (position + c.utf8Size)
    refine ⟨next, ?_⟩
    rw [List.cons_append, tokensFrom]
    simp only [h read c List.mem_cons_self]
    simpa using hnext

/-- A token of several characters, from the first one on. -/
theorem Lexes.extended (token : Nat → List Char → Pending) {c : Char} {text : List Char}
    {t : Token} (hends : ∀ start read, (token start read).EndsAtSeparator)
    (hblank : Text.isBlank c = false)
    (hbegin : ∀ position, Pending.begin? position c = some (token position [c]))
    (h : ∀ start read, ∀ d ∈ text, (token start read).extend? d = some (token start (read ++ [d])))
    (hfinish : ∀ start, (token start (c :: text)).finish = [⟨start, t⟩]) :
    Lexes (c :: text) [t] := by
  intro position rest hrest
  obtain ⟨next, hnext⟩ := tokensFrom_extended (hends position) (h position) [c]
    (position + c.utf8Size) hrest
  refine ⟨next, [⟨position, t⟩], rfl, ?_⟩
  have hnothing : Pending.nothing.extend? c = none := rfl
  rw [List.cons_append, tokensFrom]
  simp only [hnothing, hblank, hbegin, Bool.false_eq_true, if_false, hnext,
    List.singleton_append, hfinish]
  cases tokensFrom next .nothing rest <;> simp [Except.map, Pending.finish]

theorem mem_digits_of_isDigit {c : Char} (h : c.isDigit = true) :
    c ∈ ['0', '1', '2', '3', '4', '5', '6', '7', '8', '9'] := by
  obtain ⟨hlow, hhigh⟩ : 48 ≤ c.toNat ∧ c.toNat ≤ 57 := by
    simpa [Char.isDigit, UInt32.le_iff_toNat_le] using h
  rw [← Char.ofNat_toNat c]
  generalize c.toNat = n at hlow hhigh
  interval_cases n <;> decide

theorem Lexes.number {text : List Char} (hne : text ≠ []) (h : ∀ c ∈ text, c.isDigit = true) :
    Lexes text [.number text] := by
  obtain ⟨c, text, rfl⟩ := List.exists_cons_of_ne_nil hne
  obtain ⟨hc, htext⟩ := List.forall_mem_cons.1 h
  have hblank : Text.isBlank c = false :=
    eq_false_of_all (by decide +kernel) (mem_digits_of_isDigit hc)
  refine Lexes.extended Pending.mantissa (fun _ _ => trivial) hblank (fun position => ?_) (fun start read d hd => ?_)
    (fun start => rfl)
  · simp [Pending.begin?, Pending.beginsNumber, hc]
  · simp [Pending.extend?, Pending.beginsNumber, htext d hd]

def beginsName (c : Char) : Bool :=
  Text.isLetter c && c != 'π'

def continuesName (c : Char) : Bool :=
  (Text.isLetterOrNumeral c || c == '_') && c != 'π'

/-- No letter is a digit, a point or a blank. -/
theorem isLetter_apart {c : Char} (h : Text.isLetter c = true) :
    Pending.beginsNumber c = false ∧ Text.isBlank c = false := by
  have hlow : ∀ range ∈ Text.alphabeticRanges, '9'.toNat < range.1 := by decide +kernel
  have hdisjoint : ∀ range ∈ Text.alphabeticRanges, ∀ blank ∈ Text.blankRanges,
      range.2 < blank.1 ∨ blank.2 < range.1 := by decide +kernel
  obtain ⟨range, hrange, hc⟩ := List.any_eq_true.1 h
  simp only [Bool.and_eq_true, decide_eq_true_eq] at hc
  have hnine := hlow range hrange
  constructor
  · cases hnumber : Pending.beginsNumber c with
    | false => rfl
    | true =>
      have hall : ['.', '0', '1', '2', '3', '4', '5', '6', '7', '8', '9'].all
          (fun d => d.toNat ≤ '9'.toNat) = true := by decide
      have hdigit : c = '.' ∨ c.isDigit = true := by
        simpa [Pending.beginsNumber, or_comm] using hnumber
      have hle := List.all_eq_true.1 hall c
        (List.mem_cons.2 (hdigit.imp_right mem_digits_of_isDigit))
      have hle := of_decide_eq_true hle
      omega
  · cases hblank : Text.isBlank c with
    | false => rfl
    | true =>
      obtain ⟨blank, hmem, hin⟩ := List.any_eq_true.1 hblank
      simp only [Bool.and_eq_true, decide_eq_true_eq] at hin
      have := hdisjoint range hrange blank hmem
      omega

/-- A letter with letters, numerals and underscores behind it is a name. -/
theorem Lexes.name {c : Char} {text : List Char} (hc : beginsName c = true)
    (h : text.all continuesName = true) : Lexes (c :: text) [.name (c :: text)] := by
  obtain ⟨hletter, hpi⟩ := Bool.and_eq_true_iff.1 hc
  obtain ⟨hnumber, hblank⟩ := isLetter_apart hletter
  refine Lexes.extended Pending.name (fun _ _ => trivial) hblank
    (fun position => ?_) (fun start read d hd => ?_) (fun start => rfl)
  · simp [Pending.begin?, hnumber, hletter, hpi]
  · have hd := List.all_eq_true.1 h d hd
    rw [continuesName] at hd
    simp [Pending.extend?, hd]

/-! ### Whole texts -/

theorem Lexes.tokenize {text : List Char} {tokens : List Token} (h : Lexes text tokens) :
    ∃ lexemes, lexemes.map Lexeme.token = tokens ∧ tokenize text = .ok lexemes := by
  obtain ⟨next, lexemes, htokens, heq⟩ := h 0 [] beginsApart_nil
  refine ⟨lexemes, htokens, ?_⟩
  rw [List.append_nil] at heq
  simp [EquationSolver.tokenize, heq, tokensFrom, Except.map, Pending.finish]

end EquationSolver
