import Lox.Proofs.Token.Lexeme

/-!
# The longest lexeme

At the front of a text there may be several lexemes, one the beginning of another. The scanner takes
the longest one: names and numbers go on for as long as their characters do, a string goes on to the
next quote, and the table of operators has the longer ones first.

## Main definitions

* `LongestLexeme`: a lexeme at the front of a text where no longer one begins.

## Main results

* `LongestLexeme.unique`: there is one at most.
* `longestLexeme_string`, `longestLexeme_name`, `longestLexeme_whole`, `longestLexeme_fraction`,
  `longestLexeme_operator`: what the scanner takes is one.
-/

namespace Lox

open Piece

/-- A lexeme at the front of a text where no longer one begins. -/
structure LongestLexeme (text lexeme : List Char) (kind : Kind) (literal : Literal) : Prop where
  isPrefix : lexeme <+: text
  isLexeme : Lexeme lexeme kind literal
  longest : ∀ {w : List Char} {kind' : Kind} {literal' : Literal},
    Lexeme w kind' literal' → w <+: text → w.length ≤ lexeme.length

/-- There is one longest lexeme at the front of a text. -/
theorem LongestLexeme.unique {text lexeme lexeme' : List Char} {kind kind' : Kind}
    {literal literal' : Literal} (h : LongestLexeme text lexeme kind literal)
    (h' : LongestLexeme text lexeme' kind' literal') :
    lexeme = lexeme' ∧ kind = kind' ∧ literal = literal' := by
  have hlength : lexeme.length = lexeme'.length :=
    Nat.le_antisymm (h'.longest h.isLexeme h.isPrefix) (h.longest h'.isLexeme h'.isPrefix)
  obtain rfl : lexeme = lexeme' :=
    (List.prefix_of_prefix_length_le h.isPrefix h'.isPrefix hlength.le).eq_of_length hlength
  exact ⟨rfl, h.isLexeme.unique h'.isLexeme⟩

/-- A lexeme at the front of a text begins with its first character. -/
theorem Lexeme.exists_cons_of_prefix {c : Char} {cs w : List Char} {kind : Kind}
    {literal : Literal} (h : Lexeme w kind literal) (hpre : w <+: c :: cs) :
    ∃ w', w = c :: w' ∧ w' <+: cs := by
  obtain rfl | hcons := List.prefix_cons_iff.mp hpre
  · exact absurd rfl h.ne_nil
  · exact hcons

/-- A stretch at the front of a text is part of the longest one there. -/
theorem length_le_takeWhile {p : Char → Bool} {w text : List Char} (hpre : w <+: text)
    (hw : ∀ c ∈ w, p c = true) : w.length ≤ (text.takeWhile p).length := by
  obtain ⟨rest, rfl⟩ := hpre
  rw [List.takeWhile_append_of_pos hw, List.length_append]
  omega

theorem longestLexeme_string {body rest : List Char} (h : '"' ∉ body) :
    LongestLexeme ('"' :: (body ++ '"' :: rest)) ('"' :: (body ++ ['"'])) .string
      (.string (String.ofList body)) where
  isPrefix := ⟨rest, by simp⟩
  isLexeme := .string h
  longest hw hpre := by
    obtain ⟨w', rfl, hbehind⟩ := hw.exists_cons_of_prefix hpre
    obtain ⟨body', hbody', rfl, -, -⟩ := hw.of_quote
    have hclosed : body ++ ['"'] <+: body ++ '"' :: rest := ⟨rest, by simp⟩
    obtain hle | hle := List.prefix_or_prefix_of_prefix hbehind hclosed
    · rw [Lexeme.eq_of_prefix_string h hle]
    · rw [Lexeme.eq_of_prefix_string hbody' hle]

/-- The characters of names. -/
abbrev isNameful (c : Char) : Bool := isLetter c || isDigit c

theorem longestLexeme_name {c : Char} (cs : List Char) (hc : isLetter c = true) :
    LongestLexeme (c :: cs) ((c :: cs).takeWhile isNameful)
      (.ofWord (String.ofList ((c :: cs).takeWhile isNameful))) .nil where
  isPrefix := List.takeWhile_prefix _
  isLexeme := by
    refine IsName.lexeme ?_
    rw [List.takeWhile_cons_of_pos (by simp [hc])]
    exact ⟨hc, fun d hd => List.mem_takeWhile_imp (p := isNameful) hd⟩
  longest hw hpre := by
    obtain ⟨w', rfl, -⟩ := hw.exists_cons_of_prefix hpre
    exact length_le_takeWhile hpre (hw.of_isLetter hc).1.isNameful

theorem isDigits_takeWhile {c : Char} (cs : List Char) (hc : isDigit c = true) :
    IsDigits ((c :: cs).takeWhile isDigit) :=
  ⟨by simp [hc], fun _ hd => List.mem_takeWhile_imp hd⟩

/-- Digits are a number, unless a point and another digit follow. -/
theorem longestLexeme_whole {c : Char} {cs : List Char} (hc : isDigit c = true)
    (hrest : ∀ d rest, (c :: cs).dropWhile isDigit = '.' :: d :: rest → isDigit d = false) :
    LongestLexeme (c :: cs) ((c :: cs).takeWhile isDigit) .number
      (.number (.ofDecimal (.ofPlaces ((c :: cs).takeWhile isDigit) []))) where
  isPrefix := List.takeWhile_prefix _
  isLexeme := .number (.whole (isDigits_takeWhile cs hc))
  longest hw hpre := by
    obtain ⟨w', rfl, -⟩ := hw.exists_cons_of_prefix hpre
    obtain ⟨n, hn, -, -⟩ := hw.of_isDigit hc
    generalize c :: w' = w at hn hpre
    cases hn with
    | whole hdigits => exact length_le_takeWhile hpre hdigits.2
    | fraction hwhole hfraction =>
      obtain ⟨rest, happend⟩ := hpre
      obtain ⟨d, fraction, rfl⟩ := List.exists_cons_of_ne_nil hfraction.1
      rw [List.append_assoc, List.cons_append] at happend
      have hd := hrest d (fraction ++ rest) (by rw [← happend, hwhole.dropWhile_point]; rfl)
      exact absurd (hd.symm.trans (hfraction.2 d List.mem_cons_self)) (by decide)

/-- Digits, a point and all digits behind it are a number. -/
theorem longestLexeme_fraction {c d : Char} {cs rest : List Char} (hc : isDigit c = true)
    (hd : isDigit d = true) (hrest : (c :: cs).dropWhile isDigit = '.' :: d :: rest) :
    LongestLexeme (c :: cs)
      ((c :: cs).takeWhile isDigit ++ '.' :: (d :: rest).takeWhile isDigit) .number
      (.number (.ofDecimal
        (.ofPlaces ((c :: cs).takeWhile isDigit) ((d :: rest).takeWhile isDigit)))) where
  isPrefix := by
    refine ⟨(d :: rest).dropWhile isDigit, ?_⟩
    rw [List.append_assoc, List.cons_append, List.takeWhile_append_dropWhile, ← hrest,
      List.takeWhile_append_dropWhile]
  isLexeme := .number (.fraction (isDigits_takeWhile cs hc) (isDigits_takeWhile rest hd))
  longest hw hpre := by
    obtain ⟨w', rfl, -⟩ := hw.exists_cons_of_prefix hpre
    obtain ⟨n, hn, -, -⟩ := hw.of_isDigit hc
    generalize c :: w' = w at hn hpre
    cases hn with
    | whole hdigits =>
      have hwhole := length_le_takeWhile hpre hdigits.2
      rw [List.length_append]
      omega
    | fraction hwhole hfraction =>
      obtain ⟨behind, happend⟩ := hpre
      rw [List.append_assoc, List.cons_append] at happend
      rw [← happend, hwhole.dropWhile_point] at hrest
      have hdigits := length_le_takeWhile ⟨behind, (List.cons.inj hrest).2⟩ hfraction.2
      rw [← happend, hwhole.takeWhile_point, List.length_append, List.length_append,
        List.length_cons, List.length_cons]
      omega

/-- An operator stands in front of its own beginnings in the table. -/
theorem operators_pairwise :
    Kind.operators.Pairwise fun entry entry' => ¬ entry.1 <+: entry'.1 := by decide

theorem longestLexeme_operator {c : Char} {cs spelling : List Char} {kind : Kind}
    (hquote : c ≠ '"') (hc : isNameful c = false)
    (h : operator? (c :: cs) = some (spelling, kind)) :
    LongestLexeme (c :: cs) spelling kind .nil where
  isPrefix := ⟨_, append_of_operator? h⟩
  isLexeme := .operator (List.mem_of_find?_eq_some h)
  longest := by
    intro w kind' literal' hw hpre
    obtain ⟨w', rfl, -⟩ := hw.exists_cons_of_prefix hpre
    obtain ⟨hmem, -⟩ := hw.of_mark hquote hc
    obtain ⟨-, before, behind, htable, hbefore⟩ := List.find?_eq_some_iff_append.mp h
    rw [htable] at hmem
    obtain hmem | hmem := List.mem_append.mp hmem
    · have hnot : (!(c :: w').isPrefixOf (c :: cs)) = true := hbefore _ hmem
      rw [List.isPrefixOf_iff_prefix.mpr hpre] at hnot
      cases hnot
    · obtain heq | hmem := List.mem_cons.mp hmem
      · rw [(Prod.mk.inj heq).1]
      · have hpairwise := operators_pairwise
        rw [htable] at hpairwise
        have hnot := List.rel_of_pairwise_cons (List.pairwise_append.mp hpairwise).2.1 hmem
        by_contra hlonger
        exact hnot (List.prefix_of_prefix_length_le ⟨_, append_of_operator? h⟩ hpre
          (Nat.le_of_not_le hlonger))

end Lox
