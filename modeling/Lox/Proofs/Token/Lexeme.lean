import Lox.Token.Piece.Lossless
import Mathlib.Data.List.TakeWhile

/-!
# Lexemes

The written forms of tokens, class by class: operators and punctuation marks, closed strings,
numerals, keywords and identifiers. The classes are told apart by the first character, and a
lexeme alone decides what kind of token it is and which literal it carries. Blank characters occur
in strings only, and no lexeme begins as a comment does.

## Main definitions

* `Numeral`: digits, with a fraction or without, and the decimal that they write.
* `IsName`: letters and digits, a letter first.
* `Lexeme`: the written form of a token, its kind, and its literal.
* `OpensComment`: the beginning of a comment.

## Main results

* `Lexeme.unique`: a lexeme has one kind and one literal.
* `Lexeme.length_le_of_isBlank`: a blank character behind a lexeme ends it.
-/

namespace Lox

open Piece

/-! ### Classes -/

/-- Digits that are there. -/
def IsDigits (cs : List Char) : Prop := cs ≠ [] ∧ ∀ c ∈ cs, isDigit c = true

/-- A number is written by digits, with a point and further digits behind them or without. -/
inductive Numeral : List Char → Decimal → Prop
  | whole {digits : List Char} : IsDigits digits → Numeral digits (.ofPlaces digits [])
  | fraction {whole fraction : List Char} : IsDigits whole → IsDigits fraction →
      Numeral (whole ++ '.' :: fraction) (.ofPlaces whole fraction)

/-- A name is written by letters and digits, a letter first. -/
def IsName : List Char → Prop
  | [] => False
  | c :: cs => isLetter c = true ∧ ∀ d ∈ cs, (isLetter d || isDigit d) = true

/-- The written form of a token, its kind, and the literal it carries. -/
inductive Lexeme : List Char → Kind → Literal → Prop
  /-- An operator or a punctuation mark. -/
  | operator {spelling : List Char} {kind : Kind} :
      (spelling, kind) ∈ Kind.operators → Lexeme spelling kind .nil
  /-- A string, which ends at the next quote. -/
  | string {body : List Char} :
      '"' ∉ body → Lexeme ('"' :: (body ++ ['"'])) .string (.string (String.ofList body))
  /-- A number. -/
  | number {digits : List Char} {d : Decimal} :
      Numeral digits d → Lexeme digits .number (.number (.ofDecimal d))
  /-- A name that is reserved. -/
  | keyword {name : List Char} {kind : Kind} :
      IsName name → (String.ofList name, kind) ∈ Kind.keywords → Lexeme name kind .nil
  /-- A name that is not reserved. -/
  | identifier {name : List Char} :
      IsName name → (∀ kind, (String.ofList name, kind) ∉ Kind.keywords) →
      Lexeme name .identifier .nil

/-- The beginning of a line comment or of a block comment. -/
def OpensComment (cs : List Char) : Prop := ['/', '/'] <+: cs ∨ ['/', '*'] <+: cs

theorem opensComment_cons_iff {c : Char} {cs : List Char} :
    OpensComment (c :: cs) ↔ c = '/' ∧ (cs.head? = some '/' ∨ cs.head? = some '*') := by
  cases cs with
  | nil => simp [OpensComment, List.cons_prefix_cons]
  | cons d cs =>
    simp only [OpensComment, List.cons_prefix_cons, List.nil_prefix, List.head?_cons,
      Option.some.injEq, and_true, eq_comm (a := '/'), eq_comm (a := '*')]
    exact and_or_left.symm

/-! ### First characters -/

section Characters

variable {c : Char}

theorem isBlank_cases (h : isBlank c = true) : c = ' ' ∨ c = '\t' ∨ c = '\r' ∨ c = '\n' := by
  simpa [isBlank, or_assoc] using h

/-- Letters and digits are neither blank, nor quotes, nor points. -/
theorem isBlank_eq_false_of_isNameful (h : (isLetter c || isDigit c) = true) :
    isBlank c = false ∧ c ≠ '"' ∧ c ≠ '.' := by
  refine ⟨?_, ?_, ?_⟩
  · by_contra hblank
    obtain rfl | rfl | rfl | rfl := isBlank_cases (Bool.not_eq_false _ |>.mp hblank) <;>
      exact absurd h (by decide)
  · rintro rfl
    exact absurd h (by decide)
  · rintro rfl
    exact absurd h (by decide)

/-- No letter is a digit. -/
theorem isLetter_eq_false_of_isDigit (h : isDigit c = true) : isLetter c = false := by
  simp only [isDigit, Bool.and_eq_true, decide_eq_true_eq] at h
  have hlow : 48 ≤ c.toNat := h.1
  have hhigh : c.toNat ≤ 57 := h.2
  by_contra hletter
  simp only [isLetter, Bool.not_eq_false, Bool.or_eq_true, Bool.and_eq_true,
    decide_eq_true_eq] at hletter
  obtain (⟨hc, -⟩ | ⟨hc, -⟩) | rfl := hletter
  · have : 97 ≤ c.toNat := hc
    omega
  · have : 65 ≤ c.toNat := hc
    omega
  · exact absurd hhigh (by decide)

/-- Operators hold no characters of the other classes. -/
theorem mark_of_mem_operators : ∀ entry ∈ Kind.operators, ∀ c ∈ entry.1,
    isBlank c = false ∧ c ≠ '"' ∧ (isLetter c || isDigit c) = false := by
  simp [Kind.operators, isBlank, isLetter, isDigit]

end Characters

/-! ### Stretches -/

section Stretches

variable {p : Char → Bool} {w behind : List Char}

/-- A stretch of characters of one class ends in front of a character that is not of the class. -/
theorem takeWhile_append_of_ends (hw : ∀ c ∈ w, p c = true)
    (hbehind : ∀ b ∈ behind.head?, p b = false) : (w ++ behind).takeWhile p = w := by
  rw [List.takeWhile_append_of_pos hw]
  cases behind with
  | nil => exact List.append_nil w
  | cons b behind => rw [List.takeWhile_cons_of_neg (by simp [hbehind b rfl]), List.append_nil]

theorem dropWhile_append_of_ends (hw : ∀ c ∈ w, p c = true)
    (hbehind : ∀ b ∈ behind.head?, p b = false) : (w ++ behind).dropWhile p = behind := by
  rw [List.dropWhile_append_of_pos hw]
  cases behind with
  | nil => rfl
  | cons b behind => rw [List.dropWhile_cons_of_neg (by simp [hbehind b rfl])]

end Stretches

/-! ### Numerals -/

/-- Digits end where a point follows them. -/
theorem IsDigits.takeWhile_point {whole : List Char} (h : IsDigits whole) (cs : List Char) :
    (whole ++ '.' :: cs).takeWhile isDigit = whole :=
  takeWhile_append_of_ends h.2 fun _ hb => Option.some.inj hb ▸ rfl

theorem IsDigits.dropWhile_point {whole : List Char} (h : IsDigits whole) (cs : List Char) :
    (whole ++ '.' :: cs).dropWhile isDigit = '.' :: cs :=
  dropWhile_append_of_ends h.2 fun _ hb => Option.some.inj hb ▸ rfl

/-- Digits alone have no point in them. -/
theorem IsDigits.ne_fraction {digits : List Char} (h : IsDigits digits) (whole cs : List Char) :
    digits ≠ whole ++ '.' :: cs := by
  rintro rfl
  exact absurd (h.2 '.' (by simp)) (by decide)

/-- A numeral writes one decimal. -/
theorem Numeral.unique {digits : List Char} {d d' : Decimal} (h : Numeral digits d)
    (h' : Numeral digits d') : d = d' := by
  generalize hsame : digits = digits' at h'
  cases h with
  | whole h =>
    cases h' with
    | whole => rw [hsame]
    | fraction => exact absurd hsame (h.ne_fraction _ _)
  | fraction h =>
    cases h' with
    | whole h' => exact absurd hsame.symm (h'.ne_fraction _ _)
    | fraction h' =>
      have htake := congrArg (List.takeWhile isDigit) hsame
      rw [h.takeWhile_point, h'.takeWhile_point] at htake
      subst htake
      have hdrop := List.append_cancel_left hsame
      rw [(List.cons.inj hdrop).2]

/-- The first character of a numeral is a digit. -/
theorem Numeral.exists_cons {digits : List Char} {d : Decimal} (h : Numeral digits d) :
    ∃ c cs, digits = c :: cs ∧ isDigit c = true := by
  cases h with
  | whole h =>
    obtain ⟨c, cs, rfl⟩ := List.exists_cons_of_ne_nil h.1
    exact ⟨c, cs, rfl, h.2 c List.mem_cons_self⟩
  | fraction h =>
    obtain ⟨c, cs, rfl⟩ := List.exists_cons_of_ne_nil h.1
    exact ⟨c, _, rfl, h.2 c List.mem_cons_self⟩

theorem Numeral.isDigit_or_point {digits : List Char} {d : Decimal} (h : Numeral digits d) :
    ∀ c ∈ digits, isDigit c = true ∨ c = '.' := by
  cases h with
  | whole h => exact fun c hc => .inl (h.2 c hc)
  | fraction h h' =>
    intro c hc
    obtain hc | hc := List.mem_append.mp hc
    · exact .inl (h.2 c hc)
    · obtain rfl | hc := List.mem_cons.mp hc
      · exact .inr rfl
      · exact .inl (h'.2 c hc)

theorem Numeral.isBlank_eq_false {digits : List Char} {d : Decimal} (h : Numeral digits d) :
    ∀ c ∈ digits, isBlank c = false := by
  intro c hc
  obtain hdigit | rfl := h.isDigit_or_point c hc
  · exact (isBlank_eq_false_of_isNameful (by simp [hdigit])).1
  · rfl

/-! ### Names -/

theorem IsName.exists_cons {name : List Char} (h : IsName name) :
    ∃ c cs, name = c :: cs ∧ isLetter c = true := by
  cases name with
  | nil => cases h
  | cons c cs => exact ⟨c, cs, rfl, h.1⟩

theorem IsName.isNameful {name : List Char} (h : IsName name) :
    ∀ c ∈ name, (isLetter c || isDigit c) = true := by
  cases name with
  | nil => cases h
  | cons c cs => exact List.forall_mem_cons.mpr ⟨by simp [h.1], h.2⟩

/-- The kind of a reserved word is the one it is reserved for. -/
theorem Kind.ofWord_of_mem : ∀ entry ∈ Kind.keywords, Kind.ofWord entry.1 = entry.2 := by decide

theorem Kind.ofWord_of_not_mem {word : String} (h : ∀ kind, (word, kind) ∉ Kind.keywords) :
    Kind.ofWord word = .identifier := by
  have hlookup : Kind.keywords.lookup word = none := by
    rw [List.lookup_eq_none_iff]
    rintro ⟨other, kind⟩ hmem
    rw [bne_iff_ne]
    rintro rfl
    exact h kind hmem
  rw [Kind.ofWord, hlookup, Option.getD_none]

/-- A name is a lexeme of the kind that is looked up for it. -/
theorem IsName.lexeme {name : List Char} (h : IsName name) :
    Lexeme name (.ofWord (String.ofList name)) .nil := by
  by_cases hmem : ∃ kind, (String.ofList name, kind) ∈ Kind.keywords
  · obtain ⟨kind, hmem⟩ := hmem
    rw [show Kind.ofWord (String.ofList name) = kind from Kind.ofWord_of_mem _ hmem]
    exact .keyword h hmem
  · rw [not_exists] at hmem
    rw [Kind.ofWord_of_not_mem hmem]
    exact .identifier h hmem

/-! ### Lexemes by their first character -/

namespace Lexeme

variable {c : Char} {cs w : List Char} {kind kind' : Kind} {literal literal' : Literal}

/-- What begins with a quote is a string. -/
theorem of_quote (h : Lexeme ('"' :: cs) kind literal) :
    ∃ body, '"' ∉ body ∧ cs = body ++ ['"'] ∧ kind = .string ∧
      literal = .string (String.ofList body) := by
  generalize hw : '"' :: cs = w at h
  cases h with
  | operator h => exact absurd rfl (mark_of_mem_operators _ h '"' (by simp [← hw])).2.1
  | string h => exact ⟨_, h, (List.cons.inj hw).2, rfl, rfl⟩
  | number h =>
    obtain ⟨c, cs', rfl, hc⟩ := h.exists_cons
    obtain ⟨rfl, -⟩ := List.cons.inj hw
    exact absurd hc (by decide)
  | keyword h | identifier h =>
    obtain ⟨c, cs', rfl, hc⟩ := h.exists_cons
    obtain ⟨rfl, -⟩ := List.cons.inj hw
    exact absurd hc (by decide)

/-- What begins with a digit is a number. -/
theorem of_isDigit (hc : isDigit c = true) (h : Lexeme (c :: cs) kind literal) :
    ∃ d, Numeral (c :: cs) d ∧ kind = .number ∧ literal = .number (.ofDecimal d) := by
  generalize hw : c :: cs = w at h
  cases h with
  | operator h =>
    have hmark := (mark_of_mem_operators _ h c (by simp [← hw])).2.2
    simp [hc] at hmark
  | string h =>
    obtain ⟨rfl, -⟩ := List.cons.inj hw
    exact absurd hc (by decide)
  | number h => exact ⟨_, h, rfl, rfl⟩
  | keyword h | identifier h =>
    obtain ⟨c', cs', rfl, hc'⟩ := h.exists_cons
    obtain ⟨rfl, -⟩ := List.cons.inj hw
    rw [isLetter_eq_false_of_isDigit hc] at hc'
    cases hc'

/-- What begins with a letter is a name, of the kind that is looked up for it. -/
theorem of_isLetter (hc : isLetter c = true) (h : Lexeme (c :: cs) kind literal) :
    IsName (c :: cs) ∧ kind = .ofWord (String.ofList (c :: cs)) ∧ literal = .nil := by
  generalize hw : c :: cs = w at h
  cases h with
  | operator h =>
    have hmark := (mark_of_mem_operators _ h c (by simp [← hw])).2.2
    simp [hc] at hmark
  | string h =>
    obtain ⟨rfl, -⟩ := List.cons.inj hw
    exact absurd hc (by decide)
  | number h =>
    obtain ⟨c', cs', rfl, hc'⟩ := h.exists_cons
    obtain ⟨rfl, -⟩ := List.cons.inj hw
    rw [isLetter_eq_false_of_isDigit hc'] at hc
    cases hc
  | keyword h hmem => exact ⟨h, (Kind.ofWord_of_mem _ hmem).symm, rfl⟩
  | identifier h hmem => exact ⟨h, (Kind.ofWord_of_not_mem hmem).symm, rfl⟩

/-- What begins with any other character is an operator. -/
theorem of_mark (hquote : c ≠ '"') (hc : (isLetter c || isDigit c) = false)
    (h : Lexeme (c :: cs) kind literal) : (c :: cs, kind) ∈ Kind.operators ∧ literal = .nil := by
  rw [Bool.or_eq_false_iff] at hc
  generalize hw : c :: cs = w at h
  cases h with
  | operator h => exact ⟨h, rfl⟩
  | string h => exact absurd (List.cons.inj hw).1 hquote
  | number h =>
    obtain ⟨c', cs', rfl, hc'⟩ := h.exists_cons
    obtain ⟨rfl, -⟩ := List.cons.inj hw
    exact absurd (hc'.symm.trans hc.2) (by decide)
  | keyword h | identifier h =>
    obtain ⟨c', cs', rfl, hc'⟩ := h.exists_cons
    obtain ⟨rfl, -⟩ := List.cons.inj hw
    exact absurd (hc'.symm.trans hc.1) (by decide)

theorem ne_nil (h : Lexeme w kind literal) : w ≠ [] := by
  cases h with
  | operator h => exact spelling_ne_nil _ h
  | string => exact List.cons_ne_nil _ _
  | number h =>
    obtain ⟨c, cs, rfl, -⟩ := h.exists_cons
    exact List.cons_ne_nil c cs
  | keyword h | identifier h =>
    obtain ⟨c, cs, rfl, -⟩ := h.exists_cons
    exact List.cons_ne_nil c cs

theorem operator_unique : ∀ entry ∈ Kind.operators, ∀ entry' ∈ Kind.operators,
    entry.1 = entry'.1 → entry.2 = entry'.2 := by decide

/-- A lexeme has one kind and carries one literal. -/
theorem unique (h : Lexeme w kind literal) (h' : Lexeme w kind' literal') :
    kind = kind' ∧ literal = literal' := by
  obtain ⟨c, cs, rfl⟩ := List.exists_cons_of_ne_nil h.ne_nil
  by_cases hquote : c = '"'
  · subst hquote
    obtain ⟨body, -, rfl, rfl, rfl⟩ := h.of_quote
    obtain ⟨body', -, hbody, rfl, rfl⟩ := h'.of_quote
    rw [List.append_cancel_right hbody]
    exact ⟨rfl, rfl⟩
  by_cases hdigit : isDigit c = true
  · obtain ⟨d, hd, rfl, rfl⟩ := h.of_isDigit hdigit
    obtain ⟨d', hd', rfl, rfl⟩ := h'.of_isDigit hdigit
    rw [hd.unique hd']
    exact ⟨rfl, rfl⟩
  by_cases hletter : isLetter c = true
  · obtain ⟨-, rfl, rfl⟩ := h.of_isLetter hletter
    obtain ⟨-, rfl, rfl⟩ := h'.of_isLetter hletter
    exact ⟨rfl, rfl⟩
  · have hmark : (isLetter c || isDigit c) = false := by simp [hletter, hdigit]
    obtain ⟨hmem, rfl⟩ := h.of_mark hquote hmark
    obtain ⟨hmem', rfl⟩ := h'.of_mark hquote hmark
    exact ⟨operator_unique _ hmem _ hmem' rfl, rfl⟩

/-! ### Where lexemes end -/

/-- Blank characters occur in strings only. -/
theorem exists_body_of_isBlank (h : Lexeme w kind literal) (hmem : c ∈ w)
    (hc : isBlank c = true) : ∃ body, '"' ∉ body ∧ w = '"' :: (body ++ ['"']) := by
  cases h with
  | operator h =>
    rw [(mark_of_mem_operators _ h c hmem).1] at hc
    cases hc
  | string h => exact ⟨_, h, rfl⟩
  | number h =>
    rw [h.isBlank_eq_false c hmem] at hc
    cases hc
  | keyword h | identifier h =>
    rw [(isBlank_eq_false_of_isNameful (h.isNameful c hmem)).1] at hc
    cases hc

/-- No string is the beginning of another one. -/
theorem eq_of_prefix_string {body body' : List Char} (h : '"' ∉ body')
    (hpre : body ++ ['"'] <+: body' ++ ['"']) : body = body' := by
  obtain ⟨rest, hrest⟩ := hpre
  rw [List.append_assoc, List.singleton_append] at hrest
  obtain ⟨more, rfl, hmore⟩ | ⟨more, rfl, hmore⟩ := List.append_eq_append_iff.mp hrest
  · cases more with
    | nil => exact (List.append_nil body).symm
    | cons d more =>
      obtain ⟨rfl, -⟩ := List.cons.inj hmore
      exact absurd (by simp) h
  · cases more with
    | nil => exact List.append_nil body'
    | cons d more => simp at hmore

/-- A blank character behind a lexeme ends it: no longer lexeme begins there. -/
theorem length_le_of_isBlank {behind : List Char} (h : Lexeme w kind literal)
    (hbehind : ∀ b ∈ behind.head?, isBlank b = true) {w' : List Char}
    (h' : Lexeme w' kind' literal') (hpre : w' <+: w ++ behind) : w'.length ≤ w.length := by
  by_contra hlonger
  obtain ⟨more, rfl⟩ : w <+: w' :=
    List.prefix_of_prefix_length_le (List.prefix_append w behind) hpre (by omega)
  obtain ⟨b, more, rfl⟩ : ∃ b cs, more = b :: cs :=
    List.exists_cons_of_ne_nil (by rintro rfl; simp at hlonger)
  have hb : isBlank b = true := by
    obtain ⟨rest, hrest⟩ := (List.prefix_append_right_inj w).mp hpre
    exact hbehind b (by simp [← hrest])
  obtain ⟨body', hbody', heq⟩ := h'.exists_body_of_isBlank (by simp) hb
  -- the lexeme itself begins with a quote, so it is a string, and ends before the blank
  obtain ⟨c, cs, rfl⟩ := List.exists_cons_of_ne_nil h.ne_nil
  obtain ⟨rfl, htail⟩ := List.cons.inj heq
  obtain ⟨body, -, rfl, -, -⟩ := h.of_quote
  obtain rfl : body = body' := eq_of_prefix_string hbody' ⟨b :: more, htail⟩
  simpa using congrArg List.length htail

theorem not_comment_of_mem_operators :
    ∀ entry ∈ Kind.operators, entry.1.head? = some '/' → entry.1 = ['/'] := by decide

/-- A lexeme in front of a blank character does not begin a comment. -/
theorem not_opensComment {behind : List Char} (h : Lexeme w kind literal)
    (hbehind : ∀ b ∈ behind.head?, isBlank b = true) : ¬ OpensComment (w ++ behind) := by
  obtain ⟨c, cs, rfl⟩ := List.exists_cons_of_ne_nil h.ne_nil
  rw [List.cons_append, opensComment_cons_iff]
  rintro ⟨rfl, hcomment⟩
  obtain ⟨hmem, -⟩ := h.of_mark (by decide) (by decide)
  obtain ⟨-, rfl⟩ := List.cons.inj (not_comment_of_mem_operators _ hmem rfl)
  rw [List.nil_append] at hcomment
  obtain hcomment | hcomment := hcomment
  · exact absurd (hbehind _ hcomment) (by decide)
  · exact absurd (hbehind _ hcomment) (by decide)

end Lexeme

end Lox
