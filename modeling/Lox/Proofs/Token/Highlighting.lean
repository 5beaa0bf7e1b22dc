import Lox.Prompt.Highlight
import Lox.Proofs.Token.Line
import Mathlib.Data.List.Pairwise

/-!
# Where tokens are shown

The scanner knows where its tokens stand, the highlighter does not: it looks for the text of each
token behind the token before it. In front of a token there are blank characters, stray ones and
comments, and no lexeme begins with a character of the first two sorts. So what is found is the
token itself unless its text begins inside a comment between the token before it and itself. In that
case the comment is shown as if the token stood there, and what is looked for next is looked for in
the rest of the comment.

## Main definitions

* `Piece.InComment`: a place inside a comment.
* `Piece.HasLookalike`: the text of a token begins in a comment in front of it.
* `Highlight.search`: the tokens as they are found, each with what is passed over in front of it.
* `Highlight.places`, `Highlight.tokenPlaces`: where tokens are found, and where they stand.

## Main results

* `Highlight.spansFrom_eq`: a line is shown as the tokens that are found, and what is between them.
* `Highlight.map_span_found`: every token is found somewhere, and shown in the style of its group.
* `Highlight.line_exact_iff`: tokens are shown where they stand if and only if there is no lookalike.
-/

namespace Lox

/-! ### The first occurrence of a text -/

namespace Highlight

section Find

variable {needle cs before behind : List Char}

theorem append_of_find? (h : find? needle cs = some (before, behind)) :
    before ++ (needle ++ behind) = cs := by
  induction cs generalizing before with
  | nil =>
    rw [find?] at h
    split at h
    · rename_i hempty
      cases h
      rw [List.isEmpty_iff.mp hempty]
      rfl
    · cases h
  | cons c cs ih =>
    rw [find?] at h
    split at h
    · rename_i hpre
      cases h
      obtain ⟨rest, hrest⟩ := List.isPrefixOf_iff_prefix.mp hpre
      rw [← hrest, List.drop_left]
      rfl
    · obtain ⟨⟨b, e⟩, hfound, heq⟩ := Option.map_eq_some_iff.mp h
      cases heq
      rw [List.cons_append, ih hfound]

/-- What occurs is found, at the latest where it occurs. -/
theorem exists_find?_eq (needle before behind : List Char) :
    ∃ b e, find? needle (before ++ (needle ++ behind)) = some (b, e) ∧ b.length ≤ before.length := by
  induction before with
  | nil =>
    refine ⟨[], behind, ?_, Nat.le_refl _⟩
    rw [List.nil_append]
    cases hneedle : needle ++ behind with
    | nil =>
      obtain ⟨rfl, rfl⟩ := List.append_eq_nil_iff.mp hneedle
      rfl
    | cons c cs =>
      rw [find?, ← hneedle, if_pos (List.isPrefixOf_iff_prefix.mpr (List.prefix_append _ _)),
        List.drop_left]
  | cons c before ih =>
    obtain ⟨b, e, hfound, hle⟩ := ih
    rw [List.cons_append, find?]
    split
    · exact ⟨[], _, rfl, Nat.zero_le _⟩
    · exact ⟨c :: b, e, by rw [hfound]; rfl, Nat.succ_le_succ hle⟩

/-- What does not occur earlier is found where it occurs. -/
theorem find?_eq_of_first (hfirst : ∀ b e, b ++ (needle ++ e) = before ++ (needle ++ behind) →
    before.length ≤ b.length) :
    find? needle (before ++ (needle ++ behind)) = some (before, behind) := by
  obtain ⟨b, e, hfound, hle⟩ := exists_find?_eq needle before behind
  have happend := append_of_find? hfound
  obtain ⟨rfl, htail⟩ := List.append_inj happend (Nat.le_antisymm hle (hfirst b e happend))
  rw [hfound, List.append_cancel_left htail]

end Find

end Highlight

/-! ### Places inside comments -/

theorem Lexeme.kind_ne_endOfInput {w : List Char} {kind : Kind} {literal : Literal}
    (h : Lexeme w kind literal) : kind ≠ .endOfInput := by
  cases h with
  | operator h => exact Piece.kind_ne_endOfInput_of_mem_operators _ h
  | keyword _ h =>
    have hkeywords : ∀ entry ∈ Kind.keywords, entry.2 ≠ .endOfInput := by decide
    exact hkeywords _ h
  | string | number | identifier => nofun

namespace Piece

/-- Comments, closed or not. -/
def isComment : Piece → Bool
  | lineComment _ | blockComment _ | openComment _ => true
  | _ => false

/-- The place behind some text lies inside a comment among some pieces. -/
def InComment (ps : List Piece) (before : List Char) : Prop :=
  ∃ front c back u v, ps = front ++ c :: back ∧ c.isComment = true ∧ c.text = u ++ v ∧ v ≠ [] ∧
    before = front.flatMap text ++ u

/-- A text begins inside a comment among the pieces of `gap`. It may end behind them, in the text
itself and in what is behind it. -/
def Lookalike (gap : List Piece) (lexeme behind : List Char) : Prop :=
  ∃ before later, InComment gap before ∧
    before ++ (lexeme ++ later) = gap.flatMap text ++ (lexeme ++ behind)

/-- The text of some token begins inside a comment between the token before it and itself. The
pieces of `gap` stand between that token and the pieces looked at. -/
def HasLookalike (gap : List Piece) : List Piece → Prop
  | [] => False
  | token _ lexeme _ :: ps => Lookalike gap lexeme (ps.flatMap text) ∨ HasLookalike [] ps
  | p :: ps => HasLookalike (gap ++ [p]) ps

theorem hasLookalike_of_gap {p : Piece} (hp : p.isToken = false) (gap ps : List Piece) :
    HasLookalike gap (p :: ps) ↔ HasLookalike (gap ++ [p]) ps := by
  cases p with
  | token => cases hp
  | _ => rfl

theorem tokensFrom_of_gap {p : Piece} (hp : p.isToken = false) (line : Int) (ps : List Piece) :
    tokensFrom line (p :: ps) = tokensFrom (p.lineBehind line) ps := by
  cases p with
  | token => cases hp
  | _ => rfl

theorem InComment.cons {ps : List Piece} {before : List Char} (h : InComment ps before)
    (p : Piece) : InComment (p :: ps) (p.text ++ before) := by
  obtain ⟨front, c, back, u, v, rfl, hc, hsplit, hv, rfl⟩ := h
  exact ⟨p :: front, c, back, u, v, rfl, hc, hsplit, hv, by simp⟩

section Lookalike

variable {w : List Char} {kind : Kind} {literal : Literal}

/-- Of what stands between tokens, a lexeme begins in comments only. -/
theorem Fits.isComment_of_inside {stops : Char → Prop} {p : Piece} {behind u v : List Char}
    (h : Fits stops p behind) (hp : p.isToken = false) (hbehind : behind ≠ [])
    (hsplit : p.text = u ++ v) (hv : v ≠ []) (hw : Lexeme w kind literal)
    (hpre : w <+: v ++ behind) : p.isComment = true := by
  have hsingle {c : Char} (htext : [c] = u ++ v) : ∃ w', w = c :: w' := by
    obtain ⟨-, rfl⟩ | ⟨-, rfl⟩ := List.singleton_eq_append_iff.mp htext
    · obtain ⟨w', rfl, -⟩ := hw.exists_cons_of_prefix hpre
      exact ⟨w', rfl⟩
    · exact absurd rfl hv
  cases h with
  | blank hc =>
    obtain ⟨w', rfl⟩ := hsingle hsplit
    obtain ⟨body, -, heq⟩ := hw.exists_body_of_isBlank List.mem_cons_self hc
    obtain ⟨rfl, -⟩ := List.cons.inj heq
    exact absurd hc (by decide)
  | stray hc =>
    obtain ⟨w', rfl⟩ := hsingle hsplit
    exact absurd rfl (hc.2 _ _ _ hw)
  | openString => exact absurd rfl hbehind
  | token => cases hp
  | lineComment | blockComment | openComment => rfl

theorem Cut.of_gap {stops : Char → Prop} {gap ps : List Piece} {cs : List Char}
    (hcut : Cut stops cs (gap ++ ps)) : Cut stops (ps.flatMap text) ps := by
  induction gap generalizing cs with
  | nil =>
    rw [List.nil_append] at hcut
    exact hcut.flatMap_text.symm ▸ hcut
  | cons p gap ih =>
    cases hcut with
    | cons _ hcut => exact ih hcut

/-- A token of a cut is a lexeme, and what is behind it is cut as well. -/
theorem Cut.of_token {stops : Char → Prop} {gap ps : List Piece} {cs : List Char}
    (hcut : Cut stops cs (gap ++ token kind w literal :: ps)) :
    Lexeme w kind literal ∧ Cut stops (ps.flatMap text) ps := by
  have hbehind := hcut.of_gap
  rw [← List.singleton_append] at hcut
  rw [← List.append_assoc] at hcut
  refine ⟨?_, hcut.of_gap⟩
  generalize (token kind w literal :: ps).flatMap text = behind at hbehind
  cases hbehind with
  | cons hfits =>
    cases hfits with
    | token _ hlongest => exact hlongest.isLexeme

/-- A lexeme that occurs in what stands between tokens begins in a comment. -/
theorem inComment_of_occurrence {stops : Char → Prop} {gap ps : List Piece}
    {cs before behind : List Char} (hcut : Cut stops cs (gap ++ ps))
    (hgap : ∀ p ∈ gap, p.isToken = false) (hps : ps.flatMap text ≠ [])
    (hw : Lexeme w kind literal)
    (hoccurs : before ++ (w ++ behind) = gap.flatMap text ++ ps.flatMap text)
    (hearly : before.length < (gap.flatMap text).length) : InComment gap before := by
  induction gap generalizing cs before with
  | nil => exact absurd hearly (Nat.not_lt_zero _)
  | cons p gap ih =>
    obtain ⟨hp, hgap⟩ := List.forall_mem_cons.mp hgap
    rw [List.cons_append] at hcut
    cases hcut with
    | @cons _ rest _ hfits hcut =>
      have hrest : rest = gap.flatMap text ++ ps.flatMap text := by
        rw [← hcut.flatMap_text, List.flatMap_append]
      rw [List.flatMap_cons, List.append_assoc, ← hrest] at hoccurs
      rw [List.flatMap_cons, List.length_append] at hearly
      by_cases hinside : before.length < p.text.length
      · -- the occurrence begins in the first piece
        obtain ⟨v, hsplit⟩ : before <+: p.text :=
          List.prefix_of_prefix_length_le ⟨_, hoccurs⟩ (List.prefix_append _ _)
            (Nat.le_of_lt hinside)
        have hv : v ≠ [] := by
          rintro rfl
          rw [← hsplit, List.append_nil] at hinside
          exact absurd hinside (Nat.lt_irrefl _)
        have hpre : w <+: v ++ rest := by
          rw [← hsplit, List.append_assoc] at hoccurs
          exact ⟨behind, List.append_cancel_left hoccurs⟩
        have hbehind : rest ≠ [] := by
          rw [hrest]
          exact List.append_ne_nil_of_right_ne_nil _ hps
        exact ⟨[], p, gap, before, v, rfl,
          hfits.isComment_of_inside hp hbehind hsplit.symm hv hw hpre, hsplit.symm, hv, rfl⟩
      · obtain ⟨later, rfl⟩ : p.text <+: before :=
          List.prefix_of_prefix_length_le (List.prefix_append _ _)
            (hoccurs ▸ List.prefix_append _ _) (Nat.le_of_not_lt hinside)
        rw [List.append_assoc, hrest] at hoccurs
        rw [List.length_append] at hearly
        exact (ih hcut hgap (List.append_cancel_left hoccurs) (by omega)).cons p

end Lookalike

/-- The text behind a place inside a comment is shorter than what the pieces are. -/
theorem InComment.length_lt {ps : List Piece} {before : List Char} (h : InComment ps before) :
    before.length < (ps.flatMap text).length := by
  obtain ⟨front, c, back, u, v, rfl, -, hsplit, hv, rfl⟩ := h
  have hpos := List.length_pos_iff.mpr hv
  simp only [List.flatMap_append, List.flatMap_cons, hsplit, List.length_append]
  omega

theorem placed_append (before : List Char) (ps qs : List Piece) :
    placed before (ps ++ qs) = placed before ps ++ placed (before ++ ps.flatMap text) qs := by
  induction ps generalizing before with
  | nil => simp [placed]
  | cons p ps ih => simp [placed, ih]

/-- A place inside a comment is a place inside one of the pieces where they stand. -/
theorem InComment.exists_placed {ps : List Piece} {before : List Char} (h : InComment ps before)
    (start : List Char) :
    ∃ place ∈ placed start ps, place.2.isComment = true ∧
      place.1.length ≤ (start ++ before).length ∧
      (start ++ before).length < place.1.length + place.2.text.length := by
  obtain ⟨front, c, back, u, v, rfl, hc, hsplit, hv, rfl⟩ := h
  have hpos := List.length_pos_iff.mpr hv
  refine ⟨(start ++ front.flatMap text, c), ?_, hc, ?_, ?_⟩
  · rw [placed_append]
    exact List.mem_append_right _ List.mem_cons_self
  · simp
  · simp only [hsplit, List.length_append]
    omega

/-- Pieces stand one behind the other. -/
theorem placed_pairwise (before : List Char) (ps : List Piece) :
    (placed before ps).Pairwise fun a b => a.1.length + a.2.text.length ≤ b.1.length := by
  have hbehind (before : List Char) (ps : List Piece) :
      ∀ place ∈ placed before ps, before.length ≤ place.1.length := by
    induction ps generalizing before with
    | nil => exact List.forall_mem_nil _
    | cons p ps ih =>
      refine List.forall_mem_cons.mpr ⟨Nat.le_refl _, fun place hplace => ?_⟩
      have hle := ih _ place hplace
      rw [List.length_append] at hle
      omega
  induction ps generalizing before with
  | nil => exact .nil
  | cons p ps ih =>
    refine List.pairwise_cons.mpr ⟨fun place hplace => ?_, ih _⟩
    rw [← List.length_append]
    exact hbehind _ _ place hplace

/-- The text of a token where it stands. -/
def lexemeAt? : List Char × Piece → Option (List Char × List Char)
  | (before, token _ lexeme _) => some (before, lexeme)
  | _ => none

theorem filterMap_lexemeAt?_of_gap {gap : List Piece} (hgap : ∀ p ∈ gap, p.isToken = false)
    (before : List Char) : (placed before gap).filterMap lexemeAt? = [] := by
  induction gap generalizing before with
  | nil => rfl
  | cons p gap ih =>
    obtain ⟨hp, hrest⟩ := List.forall_mem_cons.mp hgap
    cases p with
    | token => cases hp
    | _ => exact ih hrest _

end Piece

namespace Highlight

/-! ### The tokens of a line as they are found -/

/-- The tokens that are found in a text one behind the other, as spans, each with what is passed over
in front of it, and what is left behind the last one. -/
def found (previous : Option Kind) :
    List Token → List Char → List (List Char × Span) × List Char
  | [], rest => ([], rest)
  | t :: ts, rest =>
    if t.kind = .endOfInput then found (some t.kind) ts rest
    else
      match find? t.lexeme.toList rest with
      | none => found (some t.kind) ts rest
      | some (gap, behind) =>
        ((gap, ⟨groupAmong previous t ts, t.lexeme.toList⟩) :: (found (some t.kind) ts behind).1,
          (found (some t.kind) ts behind).2)

/-- The tokens of a line as they are found. -/
def search (text : List Char) : List (List Char × Span) × List Char :=
  found none (Scan.ofText (String.ofList text)).tokens text

/-- Spans with all the text in front of each. -/
def inPlace (before : List Char) : List (List Char × Span) → List (List Char × Span)
  | [] => []
  | (gap, s) :: spans => (before ++ gap, s) :: inPlace (before ++ (gap ++ s.text)) spans

/-- The tokens of a text as spans, each in the style of its group. -/
def styled (previous : Option Kind) : List Token → List Span
  | [] => []
  | t :: ts =>
    if t.kind = .endOfInput then styled (some t.kind) ts
    else ⟨groupAmong previous t ts, t.lexeme.toList⟩ :: styled (some t.kind) ts

/-- Two stretches of a text, each given with the text in front of it, that have no character in
common. -/
def Apart (a b : List Char × List Char) : Prop :=
  a.1.length + a.2.length ≤ b.1.length ∨ b.1.length + b.2.length ≤ a.1.length

/-- A stretch that begins inside another one is not apart from it. -/
theorem not_apart_of_inside {before front w v : List Char} (hbegin : front.length ≤ before.length)
    (hend : before.length < front.length + v.length) (hw : w ≠ []) :
    ¬ Apart (before, w) (front, v) := by
  have hpos := List.length_pos_iff.mpr hw
  simp only [Apart]
  omega

/-- What is passed over and what is found is the whole text. -/
theorem flatMap_found (previous : Option Kind) (ts : List Token) (rest : List Char) :
    (found previous ts rest).1.flatMap (fun (gap, s) => gap ++ s.text)
      ++ (found previous ts rest).2 = rest := by
  fun_induction found previous ts rest with
  | case1 => rfl
  | case2 _ _ _ _ _ ih => exact ih
  | case3 _ _ _ _ _ _ ih => exact ih
  | case4 previous rest t ts _ gap behind hfound ih =>
    rw [List.flatMap_cons, List.append_assoc, ih, List.append_assoc, append_of_find? hfound]

/-- A line is shown as the tokens that are found, with what is passed over between them. -/
theorem spansFrom_eq (previous : Option Kind) (ts : List Token) (rest : List Char) :
    spansFrom previous ts rest = (found previous ts rest).1.flatMap
      (fun (gap, s) => (if gap.isEmpty then [] else gapSpans gap) ++ [s])
      ++ tailSpans (found previous ts rest).2 := by
  fun_induction found previous ts rest with
  | case1 => rfl
  | case2 previous rest t ts hend ih => rw [spansFrom, if_pos hend, ih]
  | case3 previous rest t ts hword hfound ih => rw [spansFrom, if_neg hword, hfound, ih]
  | case4 previous rest t ts hword gap behind hfound ih =>
    simp only [spansFrom, if_neg hword, hfound, ih, List.flatMap_cons, List.append_assoc,
      List.nil_append, List.cons_append]

section Found

open Piece

variable {kind : Kind} {lexeme cs : List Char} {literal : Literal}

theorem found_token (hkind : kind ≠ .endOfInput) {gap behind : List Char}
    (hfound : find? lexeme cs = some (gap, behind)) (previous : Option Kind) (line : Int)
    (ts : List Token) :
    found previous (⟨kind, String.ofList lexeme, literal, line⟩ :: ts) cs =
      ((gap, ⟨groupAmong previous ⟨kind, String.ofList lexeme, literal, line⟩ ts, lexeme⟩)
        :: (found (some kind) ts behind).1, (found (some kind) ts behind).2) := by
  simp only [found, if_neg hkind, String.toList_ofList, hfound]

/-- Every token is found, wherever the search for it begins in front of it, and is shown in the
style of its group. -/
theorem map_span_found {ps : List Piece} (hcut : Cut EndsLine cs ps) (front : List Char)
    (previous : Option Kind) (line : Int) :
    (found previous (tokensFrom line ps) (front ++ cs)).1.map Prod.snd
      = styled previous (tokensFrom line ps) := by
  induction hcut generalizing front previous line with
  | nil => rfl
  | @cons p behind ps hfits _ ih =>
    by_cases hp : p.isToken = true
    · cases hfits with
      | @token kind lexeme literal _ _ hlongest =>
        have hkind := hlongest.isLexeme.kind_ne_endOfInput
        obtain ⟨gap, rest, hfound, hle⟩ := exists_find?_eq lexeme front behind
        -- what is left is the text behind the token, with some more in front of it
        obtain ⟨more, rfl⟩ : behind <:+ rest := by
          have happend := append_of_find? hfound
          have hlength := congrArg List.length happend
          simp only [List.length_append] at hlength
          rw [← List.append_assoc, ← List.append_assoc] at happend
          exact List.suffix_of_suffix_length_le ⟨front ++ lexeme, rfl⟩ ⟨gap ++ lexeme, happend⟩
            (by omega)
        simp only [tokensFrom, styled, if_neg hkind, text]
        rw [found_token hkind hfound, List.map_cons, ih, String.toList_ofList]
      | _ => cases hp
    · rw [Bool.not_eq_true] at hp
      rw [tokensFrom_of_gap hp, ← List.append_assoc]
      exact ih _ _ _

section Places

variable {gap ps : List Piece}

/-- An earlier occurrence of the text of a token begins inside a comment. -/
theorem inComment_of_earlier (hcut : Cut EndsLine cs (gap ++ token kind lexeme literal :: ps))
    (hgap : ∀ p ∈ gap, p.isToken = false) {before later : List Char}
    (hoccurs : before ++ (lexeme ++ later) = gap.flatMap text ++ (lexeme ++ ps.flatMap text))
    (hearly : before.length < (gap.flatMap text).length) : InComment gap before :=
  have hlexeme := hcut.of_token.1
  inComment_of_occurrence hcut hgap (List.append_ne_nil_of_left_ne_nil hlexeme.ne_nil _) hlexeme
    hoccurs hearly

/-- A token with a lookalike is found inside a comment. -/
theorem find?_of_lookalike (hcut : Cut EndsLine cs (gap ++ token kind lexeme literal :: ps))
    (hgap : ∀ p ∈ gap, p.isToken = false) (h : Lookalike gap lexeme (ps.flatMap text)) :
    ∃ before behind,
      find? lexeme (gap.flatMap text ++ (token kind lexeme literal :: ps).flatMap text)
        = some (before, behind) ∧ InComment gap before := by
  obtain ⟨before, later, hinside, hoccurs⟩ := h
  obtain ⟨b, e, hfound, hle⟩ := exists_find?_eq lexeme before later
  rw [hoccurs] at hfound
  exact ⟨b, e, hfound, inComment_of_earlier hcut hgap (append_of_find? hfound)
    (Nat.lt_of_le_of_lt hle hinside.length_lt)⟩

/-- A token without a lookalike is found where it stands. -/
theorem find?_of_not_lookalike (hcut : Cut EndsLine cs (gap ++ token kind lexeme literal :: ps))
    (hgap : ∀ p ∈ gap, p.isToken = false) (h : ¬ Lookalike gap lexeme (ps.flatMap text)) :
    find? lexeme (gap.flatMap text ++ (token kind lexeme literal :: ps).flatMap text)
      = some (gap.flatMap text, ps.flatMap text) := by
  refine find?_eq_of_first fun before later hoccurs => ?_
  by_contra hearly
  exact h ⟨before, later, inComment_of_earlier hcut hgap hoccurs (Nat.lt_of_not_le hearly),
    hoccurs⟩

/-- Without lookalikes the tokens are found where they stand. -/
theorem inPlace_found (hcut : Cut EndsLine cs (gap ++ ps)) (hgap : ∀ p ∈ gap, p.isToken = false)
    (h : ¬ HasLookalike gap ps) (start : List Char) (previous : Option Kind) (line : Int) :
    (inPlace start (found previous (tokensFrom line ps)
      (gap.flatMap text ++ ps.flatMap text)).1).map (fun place => (place.1, place.2.text))
      = (placed start (gap ++ ps)).filterMap lexemeAt? := by
  induction ps generalizing gap cs start previous line with
  | nil =>
    rw [List.append_nil, filterMap_lexemeAt?_of_gap hgap]
    rfl
  | cons p ps ih =>
    by_cases hp : p.isToken = true
    · cases p with
      | token kind lexeme literal =>
        obtain ⟨hhere, hlater⟩ := not_or.mp h
        have hrest := ih (show Cut EndsLine _ ([] ++ ps) from hcut.of_token.2)
          (List.forall_mem_nil _) hlater (start ++ (gap.flatMap text ++ lexeme)) (some kind)
          ((token kind lexeme literal).lineBehind line)
        rw [placed_append, List.filterMap_append, filterMap_lexemeAt?_of_gap hgap, tokensFrom,
          found_token hcut.of_token.1.kind_ne_endOfInput
            (find?_of_not_lookalike hcut hgap hhere), List.nil_append, inPlace, List.map_cons,
          placed, List.append_assoc start]
        exact congrArg _ hrest
      | _ => cases hp
    · rw [Bool.not_eq_true] at hp
      rw [hasLookalike_of_gap hp] at h
      have hmore : ∀ q ∈ gap ++ [p], q.isToken = false :=
        List.forall_mem_append.mpr ⟨hgap, List.forall_mem_singleton.mpr hp⟩
      have hrest := ih (show Cut EndsLine cs (gap ++ [p] ++ ps) by simpa using hcut) hmore h
        start previous (p.lineBehind line)
      rw [tokensFrom_of_gap hp]
      simpa using hrest

/-- With a lookalike some token is found inside a comment. -/
theorem exists_found_inside (hcut : Cut EndsLine cs (gap ++ ps))
    (hgap : ∀ p ∈ gap, p.isToken = false) (h : HasLookalike gap ps) (start : List Char)
    (previous : Option Kind) (line : Int) :
    ∃ place ∈ inPlace start (found previous (tokensFrom line ps)
        (gap.flatMap text ++ ps.flatMap text)).1,
      ∃ c ∈ placed start (gap ++ ps), c.2.isComment = true ∧
        ¬ Apart (place.1, place.2.text) (c.1, c.2.text) := by
  induction ps generalizing gap cs start previous line with
  | nil => cases h
  | cons p ps ih =>
    by_cases hp : p.isToken = true
    · cases p with
      | token kind lexeme literal =>
        have hlexeme := hcut.of_token.1
        rw [placed_append, tokensFrom]
        by_cases hhere : Lookalike gap lexeme (ps.flatMap text)
        · obtain ⟨before, behind, hfound, hinside⟩ := find?_of_lookalike hcut hgap hhere
          obtain ⟨c, hc, hcomment, hbegin, hend⟩ := hinside.exists_placed start
          rw [found_token hlexeme.kind_ne_endOfInput hfound]
          refine ⟨_, List.mem_cons_self, c, List.mem_append_left _ hc, hcomment, ?_⟩
          exact not_apart_of_inside hbegin hend hlexeme.ne_nil
        · rw [found_token hlexeme.kind_ne_endOfInput (find?_of_not_lookalike hcut hgap hhere)]
          obtain ⟨place, hplace, c, hc, hinside⟩ := ih
            (show Cut EndsLine _ ([] ++ ps) from hcut.of_token.2)
            (List.forall_mem_nil _) (h.resolve_left hhere) (start ++ (gap.flatMap text ++ lexeme))
            (some kind) ((token kind lexeme literal).lineBehind line)
          refine ⟨place, List.mem_cons_of_mem _ hplace, c, List.mem_append_right _ ?_, hinside⟩
          rw [← List.append_assoc] at hc
          exact List.mem_cons_of_mem _ hc
      | _ => cases hp
    · rw [Bool.not_eq_true] at hp
      rw [hasLookalike_of_gap hp] at h
      have hmore : ∀ q ∈ gap ++ [p], q.isToken = false :=
        List.forall_mem_append.mpr ⟨hgap, List.forall_mem_singleton.mpr hp⟩
      have hrest := ih (show Cut EndsLine cs (gap ++ [p] ++ ps) by simpa using hcut) hmore h
        start previous (p.lineBehind line)
      rw [tokensFrom_of_gap hp]
      simpa using hrest

end Places

end Found

/-! ### Lines -/

open Piece

/-- Where the tokens of a line are found, each with all the text in front of it. -/
def places (text : List Char) : List (List Char × List Char) :=
  (inPlace [] (search text).1).map fun place => (place.1, place.2.text)

/-- Where the tokens of a text stand. -/
def tokenPlaces (text : List Char) : List (List Char × List Char) :=
  (placed [] (split text)).filterMap lexemeAt?

/-- Where the comments of a text stand. -/
def commentPlaces (text : List Char) : List (List Char × List Char) :=
  ((placed [] (split text)).filter (·.2.isComment)).map fun place => (place.1, place.2.text)

theorem search_eq (text : List Char) :
    search text = found none (tokensFrom 1 (split text)) ((split text).flatMap Piece.text) := by
  rw [(cut_split text).flatMap_text, search, Scan.ofText, String.toList_ofList]
  rfl

/-- No token stands in a comment. -/
theorem apart_of_mem_places {text : List Char} {token comment : List Char × List Char}
    (htoken : token ∈ tokenPlaces text) (hcomment : comment ∈ commentPlaces text) :
    Apart token comment := by
  obtain ⟨⟨before, p⟩, hp, hlexeme⟩ := List.mem_filterMap.mp htoken
  obtain ⟨c, hc, rfl⟩ := List.mem_map.mp hcomment
  obtain ⟨hc, hisComment⟩ := List.mem_filter.mp hc
  cases p with
  | token kind lexeme literal =>
    cases hlexeme
    have hordered : (placed [] (split text)).Pairwise fun a b =>
        Apart (a.1, a.2.text) (b.1, b.2.text) :=
      (placed_pairwise [] (split text)).imp Or.inl
    have hsymm : Std.Symm fun a b : List Char × Piece =>
        Apart (a.1, a.2.text) (b.1, b.2.text) := ⟨fun _ _ => Or.symm⟩
    exact hordered.forall hp hc (by rintro rfl; cases hisComment)
  | _ => cases hlexeme

/-- A line is shown as the tokens that are found in it, with what is between them, and its tokens
are found one by one and shown in the style of their group. They are found where the scanner found
them if and only if the text of no token begins in a comment between the token before it and itself,
and with such a lookalike characters of a comment are shown as part of a token. -/
theorem line_exact_iff (text : List Char) :
    line text = (if text.isEmpty then [⟨.plain, []⟩]
      else (search text).1.flatMap
        (fun (gap, s) => (if gap.isEmpty then [] else gapSpans gap) ++ [s])
        ++ tailSpans (search text).2) ∧
    (search text).1.flatMap (fun (gap, s) => gap ++ s.text) ++ (search text).2 = text ∧
    (search text).1.map Prod.snd = styled none (Scan.ofText (String.ofList text)).tokens ∧
    (places text = tokenPlaces text ↔ ¬ HasLookalike [] (split text)) ∧
    ((∀ token ∈ places text, ∀ comment ∈ commentPlaces text, Apart token comment) ↔
      ¬ HasLookalike [] (split text)) := by
  have hcut : Cut EndsLine text ([] ++ split text) := cut_split text
  have hexact (h : ¬ HasLookalike [] (split text)) : places text = tokenPlaces text := by
    rw [places, search_eq]
    exact inPlace_found hcut (List.forall_mem_nil _) h [] none 1
  have hinside (h : HasLookalike [] (split text)) :
      ¬ ∀ token ∈ places text, ∀ comment ∈ commentPlaces text, Apart token comment := by
    intro hapart
    obtain ⟨place, hplace, c, hc, hcomment, hnot⟩ :=
      exists_found_inside hcut (List.forall_mem_nil _) h [] none 1
    refine hnot (hapart _ (List.mem_map_of_mem ?_) _
      (List.mem_map_of_mem (List.mem_filter.mpr ⟨hc, hcomment⟩)))
    rw [search_eq]
    exact hplace
  have hapart (h : places text = tokenPlaces text) :
      ∀ token ∈ places text, ∀ comment ∈ commentPlaces text, Apart token comment :=
    fun token htoken comment hcomment => apart_of_mem_places (h ▸ htoken) hcomment
  refine ⟨?_, flatMap_found _ _ _, ?_, ⟨fun h hlike => hinside hlike (hapart h), hexact⟩,
    ⟨fun h hlike => hinside hlike h, fun h => hapart (hexact h)⟩⟩
  · rw [line, spansFrom_eq]
    rfl
  · have hstyled := map_span_found (cut_split text) [] none 1
    rw [search, Scan.ofText, String.toList_ofList]
    exact hstyled

/-- A name in a comment is shown as the name behind the comment. -/
theorem lookalike_shown_as_token :
    line ['/', '*', ' ', 'x', ' ', '*', '/', ' ', 'x']
      = [⟨.comment, ['/', '*', ' ']⟩, ⟨.identifier, ['x']⟩,
          ⟨.plain, [' ', '*', '/', ' ', 'x']⟩] ∧
    ¬ ∀ text, places text = tokenPlaces text ∧
      ∀ token ∈ places text, ∀ comment ∈ commentPlaces text, Apart token comment := by
  refine ⟨by decide +kernel, fun h => ?_⟩
  have hplaces := (h ['/', '*', ' ', 'x', ' ', '*', '/', ' ', 'x']).1
  exact absurd hplaces (by decide +kernel)

end Highlight

end Lox
