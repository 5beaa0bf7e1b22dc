import Lox.Node.Rendering
import Lox.Proofs.Number.Double
import Mathlib.Data.Bool.AllAny

/-!
# Words of renderings

A rendering consists of words: constants, names and marks as they are written, and calls with the
number of their arguments. Where programs have neither strings nor infinite numbers in them, a word
can be told from its text: names and constants are reserved for different words, numbers begin with
a digit or a sign and end with a digit, and a slash is in marks and calls only.

## Main definitions

* `Literal.IsShown`: the constants that can be told from their texts.
* `Word`, `Word.IsShown`: the words of renderings.

## Main results

* `Word.text_injective`: a word can be told from its text.
* `Word.IsShown.isSolid`: words have neither separators nor parentheses in them.
-/

namespace Lox

open Piece

/-- Constants other than strings and infinite numbers, as they are read from a text. -/
def Literal.IsShown : Literal → Prop
  | .nil | .bool _ => True
  | .number n => n.origin = .plain ∧ n.value.isFinite = true
  | .whole _ | .string _ | .unsupported _ => False

/-- The words of renderings. -/
inductive Word
  | constant (value : Literal)
  | written (word : String)
  | calls (count : Nat)

namespace Word

/-- The characters of a word. -/
def text : Word → List Char
  | constant value => value.text.toList
  | written word => word.toList
  | calls count => "call/".toList ++ (toString count).toList

/-- The words that stand for constants. -/
def constants : List String := ["nil", "true", "false"]

/-- The marks of renderings: operators, and what stands for statements and choices. -/
def marks : List String :=
  ["!=", "==", "<=", ">=", "!", "=", "<", ">", "+", "-", "*", "/", ";", "?:"]

/-- The words of renderings of programs. -/
inductive IsShown : Word → Prop
  | constant {value : Literal} : value.IsShown → IsShown (constant value)
  | name {word : String} : IsName word.toList → word ∉ constants → IsShown (written word)
  | mark {word : String} : word ∈ marks → IsShown (written word)
  | calls (count : Nat) : IsShown (calls count)

/-- Names and marks are words. -/
theorem IsShown.written {word : String}
    (h : (IsName word.toList ∧ word ∉ constants) ∨ word ∈ marks) : (written word).IsShown := by
  obtain ⟨hname, hconstant⟩ | hmark := h
  · exact .name hname hconstant
  · exact .mark hmark

/-! ### Numbers -/

/-- The characters of a number. -/
theorem exists_writes {n : Number} (h : (Literal.number n).IsShown) :
    ∃ cs v, n.text.toList = (if Number.isSigned n.value then ['-'] else []) ++ cs ∧ Writes cs v :=
  ⟨_, _, Number.toList_write h.2, Decimal.writes_write _⟩

theorem number_injective {n n' : Number} (h : (Literal.number n).IsShown)
    (h' : (Literal.number n').IsShown) (htext : n.text.toList = n'.text.toList) : n = n' := by
  obtain ⟨value, origin⟩ := n
  obtain ⟨value', origin'⟩ := n'
  obtain ⟨rfl, hfinite⟩ := h
  obtain ⟨rfl, hfinite'⟩ := h'
  exact congrArg (Number.mk · .plain)
    (Number.write_injective hfinite hfinite' (String.toList_inj.mp htext))

/-- A text that is that of some number. -/
def IsNumber (cs : List Char) : Prop :=
  ∃ n : Number, (Literal.number n).IsShown ∧ n.text.toList = cs

/-- Numbers do not begin with a letter, and they end with a digit. -/
theorem IsNumber.ends {cs : List Char} (h : IsNumber cs) :
    cs.head?.any isLetter = false ∧ cs.getLast?.any isDigit = true := by
  obtain ⟨n, hn, rfl⟩ := h
  obtain ⟨cs, v, htext, hwrites⟩ := exists_writes hn
  rw [htext]
  constructor
  · obtain ⟨c, rest, rfl, hc⟩ := hwrites.exists_cons
    split
    · rfl
    · exact isLetter_eq_false_of_isDigit hc
  · obtain ⟨front, c, rfl, hc⟩ := hwrites.exists_last
    rw [← List.append_assoc, List.getLast?_concat]
    exact hc

/-! ### Words are told by their texts -/

/-- The constant that a word stands for. -/
def constantOf (word : String) : Literal :=
  if word = "true" then .bool true else if word = "false" then .bool false else .nil

open Classical in
/-- The word with some text. -/
noncomputable def ofText (cs : List Char) : Word :=
  if String.ofList cs ∈ constants then constant (constantOf (String.ofList cs))
  else if h : IsNumber cs then constant (.number h.choose)
  else if cs.head? = some 'c' ∧ '/' ∈ cs then calls (Decimal.digitsValue (cs.drop 5))
  else written (String.ofList cs)

theorem letter_of_mem_constants : ∀ word ∈ constants, word.toList.head?.any isLetter = true := by
  decide

theorem ofText_number {n : Number} (h : (Literal.number n).IsShown) :
    ofText n.text.toList = constant (.number n) := by
  have hnumber : IsNumber n.text.toList := ⟨n, h, rfl⟩
  have hconstant : String.ofList n.text.toList ∉ constants := by
    rw [String.ofList_toList]
    intro hmem
    have hletter := letter_of_mem_constants _ hmem
    rw [hnumber.ends.1] at hletter
    cases hletter
  rw [ofText, if_neg hconstant, dif_pos hnumber,
    number_injective hnumber.choose_spec.1 h hnumber.choose_spec.2]

theorem ofText_written {word : String} (hconstant : word ∉ constants)
    (hnumber : ¬ IsNumber word.toList)
    (hcall : ¬ (word.toList.head? = some 'c' ∧ '/' ∈ word.toList)) :
    ofText word.toList = written word := by
  rw [ofText, String.ofList_toList, if_neg hconstant, dif_neg hnumber, if_neg hcall]

theorem ofText_calls (count : Nat) : ofText (calls count).text = calls count := by
  have htext : (calls count).text = "call/".toList ++ Nat.toDigits 10 count := by
    simp only [text, Nat.toString_eq_ofList_toDigits, String.toList_ofList]
  have hconstant : String.ofList (calls count).text ∉ constants := by
    have hslash : ∀ word ∈ constants, '/' ∉ word.toList := by decide
    intro hmem
    refine hslash _ hmem ?_
    rw [String.toList_ofList, htext]
    exact List.mem_append_left _ (by decide)
  have hnumber : ¬ IsNumber (calls count).text := by
    intro h
    have hletter := h.ends.1
    rw [htext] at hletter
    cases hletter
  have hcall : (calls count).text.head? = some 'c' ∧ '/' ∈ (calls count).text := by
    rw [htext]
    exact ⟨rfl, List.mem_append_left _ (by decide)⟩
  have hdigits : (calls count).text.drop 5 = Nat.toDigits 10 count := by
    rw [htext]
    rfl
  rw [ofText, if_neg hconstant, dif_neg hnumber, if_pos hcall, hdigits,
    Decimal.digitsValue_toDigits]

/-- Of the marks none is a constant or ends with a digit, and none begins as a call. -/
theorem mark_cases : ∀ word ∈ marks, word ∉ constants ∧ word.toList.head? ≠ some 'c' ∧
    word.toList.getLast?.any isDigit = false := by decide

/-- A word is the one with its text. -/
theorem ofText_text {w : Word} (h : w.IsShown) : ofText w.text = w := by
  cases h with
  | @constant value h =>
    cases value with
    | nil => exact if_pos (by decide)
    | bool b => cases b <;> exact if_pos (by decide)
    | number n => exact ofText_number h
    | whole | string | unsupported => cases h
  | @name word hname hconstant =>
    refine ofText_written hconstant (fun hnumber => ?_) fun hcall => ?_
    · obtain ⟨c, cs, hcs, hc⟩ := hname.exists_cons
      have hletter := hnumber.ends.1
      rw [hcs] at hletter
      exact absurd hc (Bool.eq_false_iff.mp hletter)
    · exact absurd (hname.isNameful _ hcall.2) (by decide)
  | @mark word hmark =>
    obtain ⟨hconstant, hhead, hlast⟩ := mark_cases word hmark
    refine ofText_written hconstant (fun hnumber => ?_) fun hcall => hhead hcall.1
    exact absurd hnumber.ends.2 (Bool.eq_false_iff.mp hlast)
  | calls count => exact ofText_calls count

/-- A word can be told from its text. -/
theorem text_injective {w w' : Word} (h : w.IsShown) (h' : w'.IsShown)
    (htext : w.text = w'.text) : w = w' := by
  rw [← ofText_text h, htext, ofText_text h']

/-! ### Characters of words -/

/-- Separators and parentheses. -/
def separators : List Char := [' ', '(', ')', '\n']

/-- A text without separators and parentheses that is not empty. -/
def IsSolid (cs : List Char) : Prop := cs ≠ [] ∧ ∀ c ∈ cs, c ∉ separators

instance (cs : List Char) : Decidable (IsSolid cs) :=
  letI := List.decidableBAll (· ∉ separators) cs
  inferInstanceAs (Decidable (cs ≠ [] ∧ ∀ c ∈ cs, c ∉ separators))

theorem isSolid_of_isNameful {cs : List Char} (hne : cs ≠ [])
    (h : ∀ c ∈ cs, (isLetter c || isDigit c) = true) : IsSolid cs := by
  refine ⟨hne, fun c hc hmem => ?_⟩
  have hmark : ∀ c ∈ separators, (isLetter c || isDigit c) = false :=
    List.all_iff_forall_prop.mp (by decide)
  exact absurd (h c hc) (Bool.eq_false_iff.mp (hmark c hmem))

theorem IsNumber.isSolid {cs : List Char} (h : IsNumber cs) : IsSolid cs := by
  obtain ⟨n, hn, rfl⟩ := h
  obtain ⟨cs, v, htext, hwrites⟩ := exists_writes hn
  obtain ⟨c, rest, hfirst, -⟩ := hwrites.exists_cons
  have hseparator : ∀ c ∈ separators, isDigit c = false ∧ c ∉ ['.', 'e', '+', '-'] :=
    List.all_iff_forall_prop.mp (by decide)
  rw [htext]
  refine ⟨List.append_ne_nil_of_right_ne_nil _ (hfirst ▸ List.cons_ne_nil _ _),
    fun c hc hmem => ?_⟩
  obtain ⟨hdigit, hmark⟩ := hseparator c hmem
  obtain hsign | hc := List.mem_append.mp hc
  · split at hsign
    · obtain rfl := List.mem_singleton.mp hsign
      exact hmark (by decide)
    · cases hsign
  · obtain hc | hc := hwrites.isDigit_or_mark c hc
    · rw [hdigit] at hc
      cases hc
    · exact hmark hc

theorem isSolid_of_mem_marks : ∀ word ∈ marks, IsSolid word.toList := by decide

/-- Words have neither separators nor parentheses in them. -/
theorem IsShown.isSolid {w : Word} (h : w.IsShown) : IsSolid w.text := by
  cases h with
  | @constant value h =>
    cases value with
    | nil => decide
    | bool b => cases b <;> decide
    | number n => exact IsNumber.isSolid ⟨n, h, rfl⟩
    | whole | string | unsupported => cases h
  | name hname =>
    refine isSolid_of_isNameful (fun hnil => ?_) hname.isNameful
    obtain ⟨c, cs, hcs, -⟩ := hname.exists_cons
    exact List.cons_ne_nil c cs (hcs.symm.trans hnil)
  | mark hmark => exact isSolid_of_mem_marks _ hmark
  | calls count =>
    have hdigits : IsSolid (toString count).toList := by
      rw [Nat.toString_eq_ofList_toDigits, String.toList_ofList]
      exact isSolid_of_isNameful Nat.toDigits_ne_nil fun c hc => by
        rw [isDigit_of_mem_toDigits hc, Bool.or_true]
    have hfront : IsSolid "call/".toList := by decide
    exact ⟨List.append_ne_nil_of_right_ne_nil _ hdigits.1,
      List.forall_mem_append.mpr ⟨hfront.2, hdigits.2⟩⟩

/-- Words other than marks end with a letter or a digit. -/
theorem IsShown.mark_or_getLast? {w : Word} (h : w.IsShown) :
    (∃ word ∈ marks, w = Word.written word) ∨
      ∃ c ∈ w.text.getLast?, (isLetter c || isDigit c) = true := by
  have hdigit {c : Char} (hc : isDigit c = true) : (isLetter c || isDigit c) = true := by
    rw [hc, Bool.or_true]
  cases h with
  | @constant value h =>
    cases value with
    | nil => exact .inr ⟨'l', rfl, rfl⟩
    | bool b => cases b <;> exact .inr ⟨'e', rfl, rfl⟩
    | number n =>
      obtain ⟨c, hlast, hc⟩ := (Option.any_eq_true _ _).mp (IsNumber.ends ⟨n, h, rfl⟩).2
      exact .inr ⟨c, hlast, hdigit hc⟩
    | whole | string | unsupported => cases h
  | @name word hname =>
    obtain ⟨first, rest, hcs, -⟩ := hname.exists_cons
    have hne : word.toList ≠ [] := hcs ▸ List.cons_ne_nil first rest
    exact .inr ⟨_, List.getLast?_eq_some_getLast hne, hname.isNameful _ (List.getLast_mem hne)⟩
  | mark hmark => exact .inl ⟨_, hmark, rfl⟩
  | calls count =>
    obtain ⟨front, c, hfront, hc⟩ := (isDigits_toDigits count).exists_last
    refine .inr ⟨c, ?_, hdigit hc⟩
    rw [text, Nat.toString_eq_ofList_toDigits, hfront,
      String.toList_ofList (l := front ++ [c]), ← List.append_assoc, List.getLast?_concat]
    rfl

end Word

/-! ### Words in a row -/

/-- Behind the first of some words each of the others has a separator in front of it. -/
theorem intercalate_cons_eq_append (sep : Char) (word : List Char) (words : List (List Char)) :
    [sep].intercalate (word :: words) = word ++ words.flatMap (sep :: ·) := by
  induction words generalizing word with
  | nil => exact List.intercalate_singleton.trans (List.append_nil _).symm
  | cons word' words ih =>
    rw [List.intercalate_cons_cons, ih, List.append_assoc]
    rfl

end Lox
