import Lox.Proofs.Token.Seam
import Lox.Text.Blank
import Mathlib.Data.List.TakeWhile

/-!
# Tokens are visible

What counts as blank at the prompt is more than what the scanner passes over, but no token begins
with any of it. So a text is not blank if it has a token in it, and something is left of it when
blanks are stripped off. What is left ends in the last character of the text that can be seen.

## Main definitions

* `Blank.seen`: the characters of a text that can be seen.

## Main results

* `Blank.exists_around_strip`, `Blank.getLast?_strip`: what is stripped off, and where the rest ends.
* `Piece.next_of_isBlank`: the scanner passes over a blank character, or reports it.
* `Piece.isBlank_of_next`: no token begins with a blank character.
* `Scan.exists_mem_strip`: a text with a token in it does not vanish.
-/

namespace Lox

namespace Blank

/-- The blanks that are stripped off stand in front of a text and behind it. -/
theorem exists_around_strip (cs : List Char) :
    ∃ front behind, cs = front ++ strip cs ++ behind ∧ (∀ c ∈ front, isBlank c = true) ∧
      ∀ c ∈ behind, isBlank c = true := by
  refine ⟨cs.takeWhile isBlank, ((stripLeft cs).reverse.takeWhile isBlank).reverse, ?_,
    fun c hc => List.mem_takeWhile_imp hc,
    fun c hc => List.mem_takeWhile_imp (List.mem_reverse.mp hc)⟩
  have hright : (stripLeft cs).reverse
      = (stripLeft cs).reverse.takeWhile isBlank ++ stripLeft (stripLeft cs).reverse :=
    List.takeWhile_append_dropWhile.symm
  have hleft : stripLeft cs
      = strip cs ++ ((stripLeft cs).reverse.takeWhile isBlank).reverse := by
    rw [strip, ← List.reverse_append, ← hright, List.reverse_reverse]
  rw [List.append_assoc, ← hleft]
  exact List.takeWhile_append_dropWhile.symm

/-- The characters of a text that are not blank. -/
def seen (cs : List Char) : List Char := cs.filter (!isBlank ·)

theorem seen_append (cs ds : List Char) : seen (cs ++ ds) = seen cs ++ seen ds :=
  List.filter_append ..

theorem seen_eq_nil_iff {cs : List Char} : seen cs = [] ↔ ∀ c ∈ cs, isBlank c = true := by
  simp [seen]

theorem mem_seen_iff {cs : List Char} {c : Char} : c ∈ seen cs ↔ c ∈ cs ∧ isBlank c = false := by
  simp [seen]

/-- If the last character of a text can be seen, it is the last one that can. -/
theorem getLast?_seen {cs : List Char} {c : Char} (h : cs.getLast? = some c)
    (hc : isBlank c = false) : (seen cs).getLast? = some c := by
  obtain ⟨front, rfl⟩ := List.getLast?_eq_some_iff.mp h
  simp [seen, hc]

/-- Only blanks are stripped off. -/
theorem seen_strip (cs : List Char) : seen (strip cs) = seen cs := by
  obtain ⟨front, behind, hcs, hfront, hbehind⟩ := exists_around_strip cs
  conv_rhs => rw [hcs]
  rw [seen_append, seen_append, seen_eq_nil_iff.mpr hfront, seen_eq_nil_iff.mpr hbehind,
    List.nil_append, List.append_nil]

theorem mem_strip {cs : List Char} {c : Char} (hc : c ∈ cs) (hblank : isBlank c = false) :
    c ∈ strip cs := by
  have hseen : c ∈ seen (strip cs) := by
    rw [seen_strip]
    exact mem_seen_iff.mpr ⟨hc, hblank⟩
  exact (mem_seen_iff.mp hseen).1

/-- What is left when blanks are stripped off ends in a character that can be seen. -/
theorem isBlank_of_getLast?_strip {cs : List Char} {c : Char} (h : (strip cs).getLast? = some c) :
    isBlank c = false := by
  have hstop := List.head?_dropWhile_not isBlank (stripLeft cs).reverse
  rw [strip, List.getLast?_reverse, stripLeft] at h
  rwa [h] at hstop

/-- This is the last character of the text that can be seen. -/
theorem getLast?_strip (cs : List Char) : (strip cs).getLast? = (seen cs).getLast? := by
  rw [← seen_strip]
  cases hlast : (strip cs).getLast? with
  | none =>
    rw [List.getLast?_eq_none_iff.mp hlast]
    rfl
  | some c => exact (getLast?_seen hlast (isBlank_of_getLast?_strip hlast)).symm

end Blank

namespace Piece

theorem isBlank_of_isDigit {c : Char} (h : isDigit c) : Blank.isBlank c = false := by
  simp only [isDigit, Bool.and_eq_true, decide_eq_true_eq] at h
  have hlow : 48 ≤ c.toNat := h.1
  have hhigh : c.toNat ≤ 57 := h.2
  simp [Blank.isBlank, Blank.ranges]
  omega

theorem isBlank_of_isLetter {c : Char} (h : isLetter c) : Blank.isBlank c = false := by
  simp only [isLetter, Bool.or_eq_true, Bool.and_eq_true, decide_eq_true_eq] at h
  have hrange : (97 ≤ c.toNat ∧ c.toNat ≤ 122) ∨ (65 ≤ c.toNat ∧ c.toNat ≤ 90) ∨ c.toNat = 95 := by
    obtain (h | h) | rfl := h
    · exact .inl h
    · exact .inr (.inl h)
    · exact .inr (.inr rfl)
  simp [Blank.isBlank, Blank.ranges]
  omega

theorem isBlank_of_mem_operators :
    ∀ entry ∈ Kind.operators, ∀ c ∈ entry.1.head?, Blank.isBlank c = false := by
  have hall : Kind.operators.all fun entry => entry.1.head?.all (!Blank.isBlank ·) := by decide
  intro entry hentry c hc
  have hentries := Option.all_eq_true _ _ |>.mp (List.all_eq_true.mp hall entry hentry) c hc
  simpa using hentries

/-- The scanner passes over a blank, or reports it. -/
theorem next_of_isBlank {c : Char} (h : Blank.isBlank c = true) (cs : List Char) :
    next c cs = (blank c, cs) ∨ next c cs = (stray c, cs) := by
  have hne {d : Char} (hd : Blank.isBlank d = false) : c ≠ d := fun hcd => by
    rw [hcd, hd] at h
    cases h
  have hslash : c ≠ '/' := hne (by decide)
  have hquote : c ≠ '"' := hne (by decide)
  have hdigit : ¬ isDigit c := fun hc => by simp [isBlank_of_isDigit hc] at h
  have hletter : ¬ isLetter c := fun hc => by simp [isBlank_of_isLetter hc] at h
  have hoperator : operator? (c :: cs) = none := by
    cases hop : operator? (c :: cs) with
    | none => rfl
    | some entry =>
      obtain ⟨spelling, kind⟩ := entry
      have hmem := List.mem_of_find?_eq_some hop
      have happend := append_of_operator? hop
      cases spelling with
      | nil => exact absurd rfl (spelling_ne_nil _ hmem)
      | cons d ds =>
        obtain ⟨rfl, -⟩ := List.cons.inj happend
        exact absurd rfl (hne (isBlank_of_mem_operators _ hmem d rfl))
  unfold next
  by_cases hblank : isBlank c
  · exact .inl (if_pos hblank)
  · right
    simp [hblank, hslash, hquote, hdigit, hletter, hoperator]

/-- No token begins with a blank character. -/
theorem isBlank_of_next {c : Char} {cs lexeme : List Char} {kind : Kind} {literal : Literal}
    (h : (next c cs).1 = token kind lexeme literal) : Blank.isBlank c = false := by
  by_contra hblank
  obtain hnext | hnext := next_of_isBlank (Bool.not_eq_false _ |>.mp hblank) cs
  · rw [hnext] at h
    cases h
  · rw [hnext] at h
    cases h

end Piece

/-- A text with a token in it does not vanish when blanks are stripped off. -/
theorem Scan.exists_mem_strip {source : String} {t : Token} (ht : t ∈ words source) :
    ∃ c, c ∈ Blank.strip source.toList := by
  obtain ⟨c, rest, hc, hnext⟩ := exists_next_of_mem_words ht
  exact ⟨c, Blank.mem_strip hc (Piece.isBlank_of_next hnext)⟩

end Lox
