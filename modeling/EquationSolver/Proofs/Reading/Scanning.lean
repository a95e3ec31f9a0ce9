import EquationSolver.Proofs.Reading.Tokens

/-!
# The tokens that a text consists of

`Scans` says which tokens a text consists of, without reading it character by character: marks
of the grammar, numerals and names that the next character does not extend, and blanks.  Cutting
a text into tokens finds them exactly where there are any.
-/

namespace EquationSolver

/-! ### Numerals and names -/

/-- The digits and points in front of an exponent. -/
def IsMantissa (text : List Char) : Prop :=
  text ≠ [] ∧ ∀ c ∈ text, Pending.beginsNumber c = true

/-- Behind the mark of an exponent: perhaps a sign, and digits. -/
def IsExponent (text : List Char) : Prop :=
  (∀ c ∈ text.head?, c = '-' ∨ c = '+' ∨ c.isDigit = true) ∧ ∀ c ∈ text.tail, c.isDigit = true

/-- A mantissa, perhaps with an exponent. -/
def IsNumeral (text : List Char) : Prop :=
  IsMantissa text ∨
    ∃ mantissa exponent, text = mantissa ++ 'E' :: exponent ∧ IsMantissa mantissa ∧
      IsExponent exponent

/-- A letter with letters, numerals and underscores behind it. -/
def IsName (text : List Char) : Prop :=
  ∃ c rest, text = c :: rest ∧ beginsName c = true ∧ ∀ d ∈ rest, continuesName d = true

/-- The text consists of the tokens: marks, numerals and names that end where the next character
    does not extend them, and blanks between tokens. -/
inductive Scans : List Char → List Token → Prop
  | nil : Scans [] []
  | blank {c : Char} {rest : List Char} {tokens : List Token} (hc : Text.isBlank c = true)
      (hrest : Scans rest tokens) : Scans (c :: rest) tokens
  | mark {c : Char} {token : Token} {rest : List Char} {tokens : List Token}
      (hc : Token.ofChar? c = some token) (hrest : Scans rest tokens) :
      Scans (c :: rest) (token :: tokens)
  | number {text rest : List Char} {tokens : List Token} (h : IsNumeral text)
      (hends : ∀ c ∈ rest.head?, ¬IsNumeral (text ++ [c])) (hrest : Scans rest tokens) :
      Scans (text ++ rest) (.number text :: tokens)
  | name {text rest : List Char} {tokens : List Token} (h : IsName text)
      (hends : ∀ c ∈ rest.head?, ¬IsName (text ++ [c])) (hrest : Scans rest tokens) :
      Scans (text ++ rest) (.name text :: tokens)

section Extension

variable {text mantissa more : List Char} {c : Char}

theorem IsMantissa.not_mem (h : IsMantissa text) : 'E' ∉ text :=
  fun hmem => absurd (h.2 'E' hmem) (by decide)

theorem IsMantissa.append (h : IsMantissa text) (hc : Pending.beginsNumber c = true) :
    IsMantissa (text ++ [c]) := by
  refine ⟨by simp, fun d hd => ?_⟩
  rcases List.mem_append.1 hd with hd | hd
  · exact h.2 d hd
  · rwa [List.mem_singleton.1 hd]

/-- A mantissa goes on with a digit or a point, or with the mark of an exponent. -/
theorem IsMantissa.extension (h : IsMantissa text) (hnumeral : IsNumeral (text ++ c :: more)) :
    Pending.beginsNumber c = true ∨ c = 'E' := by
  rcases hnumeral with hall | ⟨mantissa, exponent, heq, hmantissa, -⟩
  · exact .inl (hall.2 c (by simp))
  · rcases List.append_eq_append_iff.1 heq with ⟨read, rfl, hread⟩ | ⟨read, rfl, hread⟩
    · rcases read with _ | ⟨d, read⟩
      · exact .inr (List.cons.inj hread).1
      · rw [(List.cons.inj hread).1]
        exact .inl (hmantissa.2 d (by simp))
    · rcases read with _ | ⟨d, read⟩
      · exact .inr (List.cons.inj hread).1.symm
      · rw [← (List.cons.inj hread).1] at h
        exact absurd (by simp) h.not_mem

/-- A numeral has only one mantissa. -/
theorem IsNumeral.exponent (hmantissa : IsMantissa mantissa)
    (h : IsNumeral (mantissa ++ 'E' :: more)) : IsExponent more := by
  rcases h with hall | ⟨other, exponent, heq, hother, hexponent⟩
  · exact absurd (by simp) hall.not_mem
  · rcases List.append_eq_append_iff.1 heq with ⟨read, rfl, hread⟩ | ⟨read, rfl, hread⟩
    · rcases read with _ | ⟨d, read⟩
      · exact (List.cons.inj hread).2 ▸ hexponent
      · rw [← (List.cons.inj hread).1] at hother
        exact absurd (by simp) hother.not_mem
    · rcases read with _ | ⟨d, read⟩
      · exact (List.cons.inj hread).2 ▸ hexponent
      · rw [← (List.cons.inj hread).1] at hmantissa
        exact absurd (by simp) hmantissa.not_mem

end Extension

/-! ### What is pending -/

namespace Pending

def text : Pending → List Char
  | nothing => []
  | name _ text | mantissa _ text | exponentMark _ text | exponent _ text => text

/-- The texts that may come of what is pending. -/
def Accepts : Pending → List Char → Prop
  | nothing => fun _ => False
  | name .. => IsName
  | mantissa .. | exponentMark .. | exponent .. => IsNumeral

/-- The token that comes of a pending text. -/
def token? : Pending → List Char → Option Token
  | nothing, _ => none
  | name .., text => some (.name text)
  | mantissa .., text | exponentMark .., text | exponent .., text => some (.number text)

/-- The state of reading fits the text that has been read. -/
def Fits : Pending → Prop
  | nothing => True
  | name _ text => IsName text
  | mantissa _ text => IsMantissa text
  | exponentMark _ text => ∃ mantissa, text = mantissa ++ ['E'] ∧ IsMantissa mantissa
  | exponent _ text => ∃ mantissa c digits, text = mantissa ++ 'E' :: c :: digits ∧
      IsMantissa mantissa ∧ IsExponent (c :: digits)

variable {p q : Pending} {c : Char} {more : List Char}

theorem Fits.accepts (h : p.Fits) (hsome : p ≠ nothing) : p.Accepts p.text := by
  cases p with
  | nothing => exact hsome rfl
  | name => exact h
  | mantissa => exact .inl h
  | exponentMark =>
    obtain ⟨mantissa, htext, hmantissa⟩ := h
    exact .inr ⟨mantissa, [], htext, hmantissa, by simp, by simp⟩
  | exponent =>
    obtain ⟨mantissa, c, digits, htext, hmantissa, hexponent⟩ := h
    exact .inr ⟨mantissa, c :: digits, htext, hmantissa, hexponent⟩

/-- A character is added to what is pending, of which the same may come as before. -/
structure Extends (p : Pending) (c : Char) (q : Pending) : Prop where
  fits : q.Fits
  ne_nothing : q ≠ nothing
  text_eq : q.text = p.text ++ [c]
  accepts_eq : q.Accepts = p.Accepts
  token?_eq : q.token? = p.token?

theorem Fits.extends (h : p.Fits) (hq : p.extend? c = some q) : p.Extends c q := by
  cases p with
  | nothing => cases hq
  | name start text =>
    obtain ⟨d, rest, rfl, hd, hrest⟩ := h
    simp only [extend?] at hq
    split_ifs at hq with hc
    cases hq
    refine ⟨⟨d, rest ++ [c], rfl, hd, fun e he => ?_⟩, by simp, rfl, rfl, rfl⟩
    rcases List.mem_append.1 he with he | he
    · exact hrest e he
    · rw [List.mem_singleton.1 he]
      exact hc
  | mantissa start text =>
    simp only [extend?] at hq
    split_ifs at hq with hc hmark
    · cases hq
      exact ⟨h.append hc, by simp, rfl, rfl, rfl⟩
    · cases hq
      exact ⟨⟨text, by rw [eq_of_beq hmark], h⟩, by simp, rfl, rfl, rfl⟩
  | exponentMark start text =>
    obtain ⟨mantissa, rfl, hmantissa⟩ := h
    simp only [extend?] at hq
    split_ifs at hq with hc
    cases hq
    refine ⟨⟨mantissa, c, [], by simp, hmantissa, ?_, by simp⟩, by simp, rfl, rfl, rfl⟩
    simpa [or_assoc] using hc
  | exponent start text =>
    obtain ⟨mantissa, d, digits, rfl, hmantissa, hhead, htail⟩ := h
    simp only [extend?] at hq
    split_ifs at hq with hc
    cases hq
    refine ⟨⟨mantissa, d, digits ++ [c], by simp, hmantissa, hhead, fun e he => ?_⟩, by simp,
      rfl, rfl, rfl⟩
    rcases List.mem_append.1 he with he | he
    · exact htail e he
    · rwa [List.mem_singleton.1 he]

/-- What cannot be extended by a character does not begin a longer text with it. -/
theorem Fits.not_accepts (h : p.Fits) (hc : p.extend? c = none) :
    ¬p.Accepts (p.text ++ c :: more) := by
  intro haccepts
  cases p with
  | nothing => exact haccepts
  | name start text =>
    obtain ⟨d, rest, rfl, -, -⟩ := h
    obtain ⟨d', rest', heq, -, hrest⟩ := haccepts
    have hcontinues : continuesName c = true := by
      obtain ⟨-, rfl⟩ := List.cons.inj heq
      exact hrest c (by simp)
    simp only [extend?] at hc
    split_ifs at hc with hname
    exact hname hcontinues
  | mantissa start text =>
    simp only [extend?] at hc
    split_ifs at hc with hbegins hmark
    rcases IsMantissa.extension h haccepts with hc | rfl
    · exact hbegins hc
    · exact hmark rfl
  | exponentMark start text =>
    obtain ⟨mantissa, rfl, hmantissa⟩ := h
    simp only [extend?] at hc
    split_ifs at hc with hsign
    have haccepts : IsNumeral (mantissa ++ 'E' :: (c :: more)) := by
      simpa [Accepts, Pending.text] using haccepts
    have hhead := (IsNumeral.exponent hmantissa haccepts).1 c rfl
    exact hsign (by simpa [or_assoc] using hhead)
  | exponent start text =>
    obtain ⟨mantissa, d, digits, rfl, hmantissa, -⟩ := h
    simp only [extend?] at hc
    split_ifs at hc with hdigit
    have haccepts : IsNumeral (mantissa ++ 'E' :: (d :: (digits ++ c :: more))) := by
      simpa [Accepts, Pending.text] using haccepts
    exact hdigit ((IsNumeral.exponent hmantissa haccepts).2 c (by simp))

theorem exists_finish_eq {token : Token} (h : p.token? p.text = some token) :
    ∃ lexeme, lexeme.token = token ∧ p.finish = [lexeme] := by
  cases p <;> cases h <;> exact ⟨_, rfl, rfl⟩

/-- What is pending ends before a character that does not extend it. -/
theorem Fits.scans (h : p.Fits) {rest : List Char} {tokens : List Token}
    (hends : ∀ c ∈ rest.head?, p.extend? c = none) (hrest : Scans rest tokens) :
    Scans (p.text ++ rest) (p.finish.map Lexeme.token ++ tokens) := by
  have hmaximal : ∀ c ∈ rest.head?, ¬p.Accepts (p.text ++ [c]) :=
    fun c hc => h.not_accepts (hends c hc)
  cases p with
  | nothing => exact hrest
  | name start text => exact .name h hmaximal hrest
  | mantissa | exponentMark | exponent => exact .number (h.accepts nofun) hmaximal hrest

theorem fits_begin {position : Nat} (h : begin? position c = some p) :
    p.Fits ∧ p.text = [c] := by
  simp only [begin?] at h
  split_ifs at h with hnumber hletter
  · cases h
    exact ⟨⟨by simp, by simpa using hnumber⟩, rfl⟩
  · cases h
    exact ⟨⟨c, [], rfl, hletter, by simp⟩, rfl⟩

end Pending

/-! ### What is cut off is scanned -/

theorem exists_of_map_eq_ok {α β ε : Type} {f : α → β} {result : Except ε α} {b : β}
    (h : result.map f = .ok b) : ∃ a, result = .ok a ∧ f a = b := by
  cases result with
  | error e => exact nomatch h
  | ok a => exact ⟨a, rfl, Except.ok.inj h⟩

/-- The tokens that are found make up the text from the pending one on. -/
theorem scans_of_tokensFrom {p : Pending} (hp : p.Fits) {chars : List Char} {position : Nat}
    {lexemes : List Lexeme} (h : tokensFrom position p chars = .ok lexemes) :
    Scans (p.text ++ chars) (lexemes.map Lexeme.token) := by
  induction chars generalizing p position lexemes with
  | nil =>
    cases h
    have hends : ∀ c ∈ ([] : List Char).head?, p.extend? c = none := by simp
    simpa using hp.scans hends .nil
  | cons c rest ih =>
    cases hextend : p.extend? c with
    | some longer =>
      have hlonger := hp.extends hextend
      rw [tokensFrom, hextend] at h
      simpa [hlonger.text_eq] using ih hlonger.fits h
    | none =>
      rw [tokensFrom_of_extend?_eq_none hextend] at h
      obtain ⟨others, hothers, rfl⟩ := exists_of_map_eq_ok h
      rw [List.map_append]
      refine hp.scans (by simpa using hextend) ?_
      rw [tokensFrom] at hothers
      simp only [Pending.extend?, Pending.finish, List.nil_append] at hothers
      split at hothers
      case isTrue hblank =>
        obtain ⟨behind, hbehind, rfl⟩ := exists_of_map_eq_ok hothers
        exact .blank hblank (ih (p := .nothing) trivial hbehind)
      case isFalse =>
        split at hothers
        case h_1 first hfirst =>
          obtain ⟨behind, hbehind, rfl⟩ := exists_of_map_eq_ok hothers
          obtain ⟨hfits, htext⟩ := Pending.fits_begin hfirst
          simpa [htext] using ih hfits hbehind
        case h_2 =>
          split at hothers
          case h_1 token htoken =>
            obtain ⟨behind, hbehind, rfl⟩ := exists_of_map_eq_ok hothers
            exact .mark htoken (ih (p := .nothing) trivial hbehind)
          case h_2 => cases hothers

/-! ### What is scanned is cut off -/

namespace Pending

variable {p : Pending}

/-- A text that may come of what is pending is pending when it has been read. -/
theorem Fits.exists_read (h : p.Fits) {more : List Char} (haccepts : p.Accepts (p.text ++ more))
    (position : Nat) (rest : List Char) : ∃ next q, q.Fits ∧ q.text = p.text ++ more ∧
      q.Accepts = p.Accepts ∧ q.token? = p.token? ∧
      tokensFrom position p (more ++ rest) = tokensFrom next q rest := by
  induction more generalizing p position with
  | nil => exact ⟨position, p, h, by simp, rfl, rfl, rfl⟩
  | cons c more ih =>
    cases hextend : p.extend? c with
    | none => exact absurd haccepts (h.not_accepts hextend)
    | some longer =>
      have hlonger := h.extends hextend
      have hmore : longer.Accepts (longer.text ++ more) := by
        rw [hlonger.accepts_eq, hlonger.text_eq]
        simpa using haccepts
      obtain ⟨next, q, hq, htext, hqaccepts, hqtoken, hread⟩ :=
        ih hlonger.fits hmore (position + c.utf8Size)
      refine ⟨next, q, hq, ?_, hqaccepts.trans hlonger.accepts_eq,
        hqtoken.trans hlonger.token?_eq, ?_⟩
      · simp [htext, hlonger.text_eq]
      · rw [List.cons_append, tokensFrom, hextend]
        exact hread

/-- A text that may come of what is pending and goes no further becomes a token. -/
theorem Fits.exists_token (h : p.Fits) {more rest : List Char} {token : Token}
    (haccepts : p.Accepts (p.text ++ more)) (htoken : p.token? (p.text ++ more) = some token)
    (hends : ∀ c ∈ rest.head?, ¬p.Accepts (p.text ++ more ++ [c])) (position : Nat) :
    ∃ next lexeme, lexeme.token = token ∧ tokensFrom position p (more ++ rest) =
      (tokensFrom next .nothing rest).map (lexeme :: ·) := by
  obtain ⟨next, q, hq, htext, hqaccepts, hqtoken, hread⟩ := h.exists_read haccepts position rest
  have hstops : ∀ c ∈ rest.head?, q.extend? c = none := by
    intro c hc
    cases hextend : q.extend? c with
    | none => rfl
    | some longer =>
      have hlonger := hq.extends hextend
      have hlongest := hlonger.fits.accepts hlonger.ne_nothing
      rw [hlonger.accepts_eq, hlonger.text_eq, htext, hqaccepts] at hlongest
      exact absurd hlongest (hends c hc)
  obtain ⟨lexeme, rfl, hfinish⟩ := exists_finish_eq (p := q) (by rw [hqtoken, htext, htoken])
  refine ⟨next, lexeme, rfl, ?_⟩
  rw [hread]
  cases rest with
  | nil => rw [tokensFrom, hfinish, tokensFrom]; rfl
  | cons c rest =>
    rw [tokensFrom_of_extend?_eq_none (hstops c rfl), hfinish]
    rfl

end Pending

/-- All characters that are tokens of their own. -/
def marks : List Char :=
  '√' :: 'π' :: '−' :: '×' :: '·' :: '=' :: separators

theorem mem_marks {c : Char} {token : Token} (h : Token.ofChar? c = some token) : c ∈ marks := by
  unfold Token.ofChar? at h
  split at h <;> first | decide | exact nomatch h

/-- A character that is a token of its own, wherever it stands. -/
theorem tokensFrom_ofChar? {c : Char} {token : Token} (htoken : Token.ofChar? c = some token)
    (position : Nat) (rest : List Char) : tokensFrom position .nothing (c :: rest) =
      (tokensFrom (position + c.utf8Size) .nothing rest).map (⟨position, token⟩ :: ·) := by
  have hblank : Text.isBlank c = false := eq_false_of_all (by decide +kernel) (mem_marks htoken)
  have hnumber : Pending.beginsNumber c = false :=
    eq_false_of_all (by decide +kernel) (mem_marks htoken)
  have hname : beginsName c = false := eq_false_of_all (by decide +kernel) (mem_marks htoken)
  have hfirst : Pending.begin? position c = none := by
    rw [beginsName] at hname
    simp [Pending.begin?, hnumber, hname]
  rw [tokensFrom]
  simp only [Pending.extend?, hblank, hfirst, htoken, Bool.false_eq_true, if_false,
    Pending.finish, List.nil_append]

theorem tokensFrom_blank {c : Char} (hc : Text.isBlank c = true) (position : Nat)
    (rest : List Char) : tokensFrom position .nothing (c :: rest) =
      tokensFrom (position + c.utf8Size) .nothing rest := by
  rw [tokensFrom]
  simp only [Pending.extend?, hc, if_true, Pending.finish]
  cases tokensFrom (position + c.utf8Size) .nothing rest <;> simp [Except.map]

/-- The first character of a numeral or a name is pending. -/
theorem tokensFrom_begin? {c : Char} {first : Pending} {position : Nat}
    (hblank : Text.isBlank c = false) (hfirst : Pending.begin? position c = some first)
    (rest : List Char) : tokensFrom position .nothing (c :: rest) =
      tokensFrom (position + c.utf8Size) first rest := by
  rw [tokensFrom]
  simp only [Pending.extend?, hblank, hfirst, Bool.false_eq_true, if_false, Pending.finish]
  cases tokensFrom (position + c.utf8Size) first rest <;> simp [Except.map]

theorem IsNumeral.exists_cons {text : List Char} (h : IsNumeral text) :
    ∃ c rest, text = c :: rest ∧ Pending.beginsNumber c = true := by
  have hmantissa : ∀ mantissa, IsMantissa mantissa →
      ∃ c rest, mantissa = c :: rest ∧ Pending.beginsNumber c = true := by
    intro mantissa hmantissa
    obtain ⟨c, rest, rfl⟩ := List.exists_cons_of_ne_nil hmantissa.1
    exact ⟨c, rest, rfl, hmantissa.2 c List.mem_cons_self⟩
  rcases h with h | ⟨mantissa, exponent, rfl, h, -⟩
  · exact hmantissa text h
  · obtain ⟨c, rest, rfl, hc⟩ := hmantissa mantissa h
    exact ⟨c, _, rfl, hc⟩

theorem isBlank_eq_false {c : Char} (h : Pending.beginsNumber c = true) :
    Text.isBlank c = false := by
  have hc : c ∈ '.' :: ['0', '1', '2', '3', '4', '5', '6', '7', '8', '9'] := by
    rcases Bool.or_eq_true_iff.1 h with hdigit | hpoint
    · exact List.mem_cons_of_mem _ (mem_digits_of_isDigit hdigit)
    · exact List.mem_cons.2 (.inl (eq_of_beq hpoint))
  exact eq_false_of_all (by decide +kernel) hc

/-- The text is cut into the tokens that it consists of. -/
theorem Scans.exists_tokensFrom {chars : List Char} {tokens : List Token}
    (h : Scans chars tokens) (position : Nat) :
    ∃ lexemes, tokensFrom position .nothing chars = .ok lexemes ∧
      lexemes.map Lexeme.token = tokens := by
  induction h generalizing position with
  | nil => exact ⟨[], rfl, rfl⟩
  | blank hc _ ih =>
    rw [tokensFrom_blank hc]
    exact ih _
  | @mark c token rest tokens hc _ ih =>
    obtain ⟨others, hothers, rfl⟩ := ih (position + c.utf8Size)
    rw [tokensFrom_ofChar? hc, hothers]
    exact ⟨_, rfl, rfl⟩
  | number h hends _ ih =>
    obtain ⟨c, text, rfl, hc⟩ := h.exists_cons
    have hfits : (Pending.mantissa position [c]).Fits := ⟨by simp, by simpa using hc⟩
    obtain ⟨next, lexeme, hlexeme, hread⟩ := hfits.exists_token h rfl hends (position + c.utf8Size)
    obtain ⟨others, hothers, rfl⟩ := ih next
    rw [List.cons_append, tokensFrom_begin? (isBlank_eq_false hc) (by rw [Pending.begin?, if_pos hc]),
      hread, hothers]
    exact ⟨_, rfl, by rw [List.map_cons, hlexeme]; rfl⟩
  | name h hends _ ih =>
    obtain ⟨c, text, rfl, hc, htext⟩ := h
    obtain ⟨hnumber, hblank⟩ := isLetter_apart (Bool.and_eq_true_iff.1 hc).1
    have hfits : (Pending.name position [c]).Fits := ⟨c, [], rfl, hc, by simp⟩
    have haccepts : (Pending.name position [c]).Accepts ([c] ++ text) := ⟨c, text, rfl, hc, htext⟩
    obtain ⟨next, lexeme, hlexeme, hread⟩ :=
      hfits.exists_token haccepts rfl hends (position + c.utf8Size)
    obtain ⟨others, hothers, rfl⟩ := ih next
    have hfirst : Pending.begin? position c = some (.name position [c]) := by
      rw [beginsName] at hc
      simp [Pending.begin?, hnumber, hc]
    rw [List.cons_append, tokensFrom_begin? hblank hfirst, hread, hothers]
    exact ⟨_, rfl, by rw [List.map_cons, hlexeme]; rfl⟩

/-- A text is cut into tokens if and only if it consists of them. -/
theorem exists_tokenize_iff {text : List Char} {tokens : List Token} :
    (∃ lexemes, tokenize text = .ok lexemes ∧ lexemes.map Lexeme.token = tokens) ↔
      Scans text tokens := by
  constructor
  · rintro ⟨lexemes, h, rfl⟩
    exact scans_of_tokensFrom (p := .nothing) trivial h
  · exact fun h => h.exists_tokensFrom 0

end EquationSolver
