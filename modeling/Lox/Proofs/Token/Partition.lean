import Lox.Proofs.Token.Comment
import Lox.Proofs.Token.Longest
import Lox.Proofs.Token.Seam

/-!
# A text as gaps and lexemes

The scan of a text is its partition by longest match. What a piece must be like is said without the
scanner: a lexeme stands where no comment begins, and no longer one begins there; the delimiters of
a block comment nest; a character is stray if nothing begins with it; a string or a comment stays
open only if the text ends in it. The pieces that the scanner makes are like that, and its tokens
and reports are those of the pieces, one for each.

A line comment ends in front of a newline, and in front of the character `U+0000` as well. A text
without that character has line comments up to the next newline only.

## Main definitions

* `Piece.Fits`: what a piece must be like in front of a text.
* `Piece.Cut`: a text cut into pieces that fit.
* `Scan.IsPartition`: a text as gap, lexeme, gap, …, lexeme, gap.

## Main results

* `Piece.cut_split`, `Piece.Cut.eq_split`: the pieces that the scanner makes are the one cut of a
  text.
* `Scan.exists_partition`: the scan of a text is its partition.
-/

namespace Lox

namespace Piece

/-! ### Pieces that fit -/

/-- A character with which nothing begins: it is not blank, and no lexeme begins with it. Comments
begin with an operator, and strings with what an empty string begins with. -/
def BeginsNothing (c : Char) : Prop :=
  isBlank c = false ∧
    ∀ lexeme kind literal, Lexeme lexeme kind literal → lexeme.head? ≠ some c

/-- What a piece must be like in front of a text, if line comments end in front of the characters
`stops`. -/
inductive Fits (stops : Char → Prop) : Piece → List Char → Prop
  | blank {c : Char} {behind : List Char} : isBlank c = true → Fits stops (.blank c) behind
  | lineComment {body behind : List Char} : (∀ c ∈ body, ¬ stops c) →
      (∀ c ∈ behind.head?, stops c) → Fits stops (.lineComment ('/' :: '/' :: body)) behind
  | blockComment {text behind : List Char} :
      Comment.IsClosed text → Fits stops (.blockComment text) behind
  | openComment {text : List Char} : Comment.IsUnclosed text → Fits stops (.openComment text) []
  | openString {body : List Char} : '"' ∉ body → Fits stops (.openString ('"' :: body)) []
  | stray {c : Char} {behind : List Char} : BeginsNothing c → Fits stops (.stray c) behind
  | token {kind : Kind} {lexeme : List Char} {literal : Literal} {behind : List Char} :
      ¬ OpensComment (lexeme ++ behind) → LongestLexeme (lexeme ++ behind) lexeme kind literal →
      Fits stops (.token kind lexeme literal) behind

/-- A piece that is a token. -/
def isToken : Piece → Bool
  | token _ _ _ => true
  | _ => false

/-- A line comment ends in front of a newline or the character `U+0000`. -/
def EndsLine (c : Char) : Prop := c = '\n' ∨ c = '\x00'

theorem isCommentary_eq_false_iff {c : Char} : isCommentary c = false ↔ EndsLine c := by
  simp only [isCommentary, EndsLine, Bool.and_eq_false_iff, decide_eq_false_iff_not, not_not]

theorem fits_lineComment (cs : List Char) :
    Fits EndsLine (.lineComment (('/' :: '/' :: cs).takeWhile isCommentary))
      (('/' :: '/' :: cs).dropWhile isCommentary) := by
  refine .lineComment (fun c hc hends => ?_) fun c hc => isCommentary_eq_false_iff.mp ?_
  · have hinside := List.mem_takeWhile_imp hc
    rw [isCommentary_eq_false_iff.mpr hends] at hinside
    cases hinside
  · have hstop := List.head?_dropWhile_not isCommentary cs
    have hhead : (cs.dropWhile isCommentary).head? = some c := hc
    rwa [hhead] at hstop

/-- A longest lexeme fits if no comment begins with it. -/
theorem Fits.ofLongest {stops : Char → Prop} {text lexeme behind : List Char} {kind : Kind}
    {literal : Literal} (happend : lexeme ++ behind = text) (hcomment : ¬ OpensComment text)
    (h : LongestLexeme text lexeme kind literal) :
    Fits stops (.token kind lexeme literal) behind := by
  subst happend
  exact .token hcomment h

theorem fits_stringNext (stops : Char → Prop) (cs : List Char) :
    Fits stops (stringNext cs).1 (stringNext cs).2 := by
  have hbody : '"' ∉ cs.takeWhile isQuotable := fun hmem =>
    absurd (List.mem_takeWhile_imp hmem) (by decide)
  unfold stringNext
  split
  · exact .openString hbody
  · rename_i c rest hrest
    have hquote : c = '"' := by
      have hstop := List.head?_dropWhile_not isQuotable cs
      simpa [hrest, isQuotable] using hstop
    subst hquote
    have hcomment : ¬ OpensComment ('"' :: (cs.takeWhile isQuotable ++ '"' :: rest)) := by
      rw [opensComment_cons_iff]
      exact fun h => absurd h.1 (by decide)
    exact .ofLongest (by simp) hcomment (longestLexeme_string hbody)

theorem fits_numberNext (stops : Char → Prop) {c : Char} (cs : List Char)
    (hcomment : ¬ OpensComment (c :: cs)) (hc : isDigit c = true) :
    Fits stops (numberNext (c :: cs)).1 (numberNext (c :: cs)).2 := by
  have happend := append_numberNext (c :: cs)
  unfold numberNext at happend ⊢
  split
  · rename_i d rest hrest
    split
    · rename_i hd
      rw [hrest] at happend
      simp only [hd, if_true] at happend
      exact .ofLongest happend hcomment (longestLexeme_fraction hc hd hrest)
    · rename_i hd
      refine .ofLongest List.takeWhile_append_dropWhile hcomment
        (longestLexeme_whole hc fun d' rest' hrest' => ?_)
      rw [hrest] at hrest'
      obtain ⟨rfl, -⟩ := List.cons.inj (List.cons.inj hrest').2
      exact Bool.eq_false_iff.mpr hd
  · rename_i hrest
    exact .ofLongest List.takeWhile_append_dropWhile hcomment
      (longestLexeme_whole hc fun d rest hpoint => absurd hpoint (hrest d rest))

/-- The first character of an operator is one itself. -/
theorem first_of_mem_operators : ∀ entry ∈ Kind.operators,
    ∃ entry' ∈ Kind.operators, entry'.1 = entry.1.take 1 := by decide

/-- Where no operator is found, none begins with the first character. -/
theorem beginsNothing_of_operator?_eq_none {c : Char} {cs : List Char}
    (hblank : isBlank c = false) (hquote : c ≠ '"') (hc : isNameful c = false)
    (h : operator? (c :: cs) = none) : BeginsNothing c := by
  refine ⟨hblank, fun lexeme kind literal hlexeme hhead => ?_⟩
  obtain ⟨w, rfl⟩ : ∃ w, lexeme = c :: w := by
    cases lexeme with
    | nil => cases hhead
    | cons d w => exact ⟨w, by rw [Option.some.inj hhead]⟩
  obtain ⟨hmem, -⟩ := hlexeme.of_mark hquote hc
  obtain ⟨⟨spelling, kind'⟩, hmem', rfl⟩ := first_of_mem_operators _ hmem
  exact absurd (List.find?_eq_none.mp h _ hmem') (by simp)

/-- The first piece of a text fits in front of the rest. -/
theorem fits_next (c : Char) (cs : List Char) : Fits EndsLine (next c cs).1 (next c cs).2 := by
  unfold next
  split
  · rename_i hblank
    exact .blank hblank
  rename_i hblank
  split
  · rename_i hline
    obtain ⟨rfl, hhead⟩ := hline
    obtain ⟨cs, rfl⟩ : ∃ rest, cs = '/' :: rest := List.head?_eq_some_iff.mp hhead
    exact fits_lineComment cs
  rename_i hline
  split
  · rename_i hblock
    obtain ⟨rfl, hhead⟩ := hblock
    obtain ⟨cs, rfl⟩ : ∃ rest, cs = '*' :: rest := List.head?_eq_some_iff.mp hhead
    split
    · rename_i body rest hbody
      exact .blockComment ⟨body, rfl, Comment.endsAtZero_of_commentBody? hbody⟩
    · rename_i hbody
      exact .openComment ⟨cs, rfl, Comment.staysPositive_of_commentBody? hbody⟩
  rename_i hblock
  have hcomment : ¬ OpensComment (c :: cs) := by
    rw [opensComment_cons_iff]
    rintro ⟨hc, hhead | hhead⟩
    · exact hline ⟨hc, hhead⟩
    · exact hblock ⟨hc, hhead⟩
  split
  · exact fits_stringNext _ cs
  rename_i hquote
  split
  · rename_i hdigit
    exact fits_numberNext _ cs hcomment hdigit
  rename_i hdigit
  split
  · rename_i hletter
    exact .ofLongest List.takeWhile_append_dropWhile hcomment (longestLexeme_name cs hletter)
  rename_i hletter
  have hmark : isNameful c = false := by simp [hletter, hdigit]
  split
  · rename_i spelling kind hoperator
    exact .ofLongest (append_of_operator? hoperator) hcomment
      (longestLexeme_operator hquote hmark hoperator)
  · rename_i hoperator
    exact .stray (beginsNothing_of_operator?_eq_none (Bool.eq_false_iff.mpr hblank) hquote hmark
      hoperator)

/-- Each piece of a text fits in front of something. -/
theorem exists_fits_of_mem_split {cs : List Char} {p : Piece} (h : p ∈ split cs) :
    ∃ behind, Fits EndsLine p behind := by
  obtain ⟨c, rest, -, rfl⟩ := exists_next_of_mem_splitWithin h
  exact ⟨_, fits_next c rest⟩

/-! ### What fits is found -/

section Found

variable {stops : Char → Prop} {p : Piece} {behind : List Char}

/-- Where a lexeme begins and no comment does, only a token fits. -/
theorem Fits.isToken_of_lexeme (h : Fits stops p behind) {w : List Char} {kind : Kind}
    {literal : Literal} (hcomment : ¬ OpensComment (p.text ++ behind))
    (hw : Lexeme w kind literal) (hpre : w <+: p.text ++ behind) : p.isToken = true := by
  cases h with
  | blank hc =>
    obtain ⟨w, rfl, -⟩ := hw.exists_cons_of_prefix hpre
    obtain ⟨body, -, heq⟩ := hw.exists_body_of_isBlank List.mem_cons_self hc
    obtain ⟨rfl, -⟩ := List.cons.inj heq
    exact absurd hc (by decide)
  | lineComment => exact absurd (.inl ⟨_, rfl⟩) hcomment
  | blockComment hc =>
    obtain ⟨body, rfl, -⟩ := hc
    exact absurd (.inr ⟨_, rfl⟩) hcomment
  | openComment hc =>
    obtain ⟨body, rfl, -⟩ := hc
    exact absurd (.inr ⟨_, rfl⟩) hcomment
  | @openString inside hinside =>
    obtain ⟨w, rfl, hrest⟩ := hw.exists_cons_of_prefix hpre
    obtain ⟨body, -, rfl, -, -⟩ := hw.of_quote
    have hquote : '"' ∈ inside ++ [] := hrest.subset (by simp)
    rw [List.append_nil] at hquote
    exact absurd hquote hinside
  | stray hc =>
    obtain ⟨w, rfl, -⟩ := hw.exists_cons_of_prefix hpre
    exact absurd rfl (hc.2 _ _ _ hw)
  | token => rfl

/-- Nothing begins with a stray character: no lexeme, no comment and no string. -/
theorem BeginsNothing.ne {c : Char} (h : BeginsNothing c) :
    c ≠ '/' ∧ c ≠ '"' ∧ isNameful c = false := by
  refine ⟨?_, ?_, ?_⟩
  · rintro rfl
    exact h.2 ['/'] .slash .nil (.operator (by decide)) rfl
  · rintro rfl
    have hempty : Lexeme ('"' :: ([] ++ ['"'])) .string (.string (String.ofList [])) :=
      .string (by simp)
    exact h.2 _ _ _ hempty rfl
  · by_contra hnameful
    obtain hletter | hdigit := Bool.or_eq_true_iff.mp (Bool.not_eq_false _ |>.mp hnameful)
    · have hname : IsName [c] := ⟨hletter, by simp⟩
      exact h.2 [c] _ _ hname.lexeme rfl
    · have hdigits : IsDigits [c] := ⟨by simp, by simpa using hdigit⟩
      exact h.2 [c] _ _ (.number (.whole hdigits)) rfl

theorem BeginsNothing.next_eq {c : Char} (h : BeginsNothing c) (cs : List Char) :
    next c cs = (stray c, cs) := by
  obtain ⟨hslash, hquote, hnameful⟩ := h.ne
  obtain ⟨hletter, hdigit⟩ := Bool.or_eq_false_iff.mp hnameful
  have hoperator : operator? (c :: cs) = none := by
    cases hfound : operator? (c :: cs) with
    | none => rfl
    | some entry =>
      obtain ⟨spelling, kind⟩ := entry
      have hlexeme := longestLexeme_operator hquote hnameful hfound
      obtain ⟨w, rfl, -⟩ := hlexeme.isLexeme.exists_cons_of_prefix hlexeme.isPrefix
      exact absurd rfl (h.2 _ _ _ hlexeme.isLexeme)
  simp [next, h.1, hslash, hquote, hletter, hdigit, hoperator]

theorem Fits.text_ne_nil (h : Fits stops p behind) : p.text ≠ [] := by
  cases h with
  | blockComment hc | openComment hc =>
    obtain ⟨body, rfl, -⟩ := hc
    exact List.cons_ne_nil _ _
  | token _ hlongest => exact hlongest.isLexeme.ne_nil
  | _ => exact List.cons_ne_nil _ _

/-- What fits in front of a text is the first piece of both together. -/
theorem Fits.next_eq {c : Char} {cs : List Char} (h : Fits EndsLine p behind)
    (htext : p.text ++ behind = c :: cs) : next c cs = (p, behind) := by
  cases h with
  | blank hc =>
    obtain ⟨rfl, rfl⟩ := List.cons.inj htext
    exact if_pos hc
  | @lineComment body behind hbody hbehind =>
    obtain ⟨rfl, rfl⟩ := List.cons.inj htext
    have hinside : ∀ c ∈ '/' :: '/' :: body, isCommentary c = true := by
      refine List.forall_mem_cons.mpr ⟨rfl, List.forall_mem_cons.mpr ⟨rfl, fun c hc => ?_⟩⟩
      by_contra hends
      exact hbody c hc (isCommentary_eq_false_iff.mp (Bool.eq_false_iff.mpr hends))
    have hstops : ∀ c ∈ behind.head?, isCommentary c = false := fun c hc =>
      isCommentary_eq_false_iff.mpr (hbehind c hc)
    have htake := takeWhile_append_of_ends hinside hstops
    have hdrop := dropWhile_append_of_ends hinside hstops
    rw [List.cons_append, List.cons_append] at htake hdrop
    simp [next, isBlank, htake, hdrop]
  | blockComment hc =>
    obtain ⟨body, rfl, hbody⟩ := hc
    obtain ⟨rfl, rfl⟩ := List.cons.inj htext
    simp [next, isBlank, Comment.commentBody?_of_endsAtZero hbody behind]
  | openComment hc =>
    obtain ⟨body, rfl, hbody⟩ := hc
    obtain ⟨rfl, rfl⟩ := List.cons.inj htext
    simp [next, isBlank, Comment.commentBody?_of_staysPositive hbody]
  | @openString body hbody =>
    obtain ⟨rfl, rfl⟩ := List.cons.inj htext
    have hquotable : ∀ c ∈ body, isQuotable c = true := fun c hc => by
      simpa [isQuotable] using ne_of_mem_of_not_mem hc hbody
    have htake : body.takeWhile isQuotable = body := List.takeWhile_eq_self_iff.mpr hquotable
    have hdrop : body.dropWhile isQuotable = [] := List.dropWhile_eq_nil_iff.mpr hquotable
    simp [next, isBlank, stringNext, htake, hdrop]
  | stray hc =>
    obtain ⟨rfl, rfl⟩ := List.cons.inj htext
    exact hc.next_eq behind
  | token hcomment hlongest =>
    rw [text] at htext
    have hfits := fits_next c cs
    have happend := append_next c cs
    generalize next c cs = found at hfits happend ⊢
    obtain ⟨p, rest⟩ := found
    rw [htext, ← happend] at hcomment hlongest
    have htoken := hfits.isToken_of_lexeme hcomment hlongest.isLexeme hlongest.isPrefix
    cases hfits with
    | token _ hlongest' =>
      obtain ⟨rfl, rfl, rfl⟩ := hlongest'.unique hlongest
      obtain rfl : rest = behind := List.append_cancel_left (happend.trans htext.symm)
      rfl
    | _ => cases htoken

end Found

/-! ### Cuts -/

/-- A text cut into pieces, each of which fits in front of what follows it. -/
inductive Cut (stops : Char → Prop) : List Char → List Piece → Prop
  | nil : Cut stops [] []
  | cons {p : Piece} {behind : List Char} {ps : List Piece} :
      Fits stops p behind → Cut stops behind ps → Cut stops (p.text ++ behind) (p :: ps)

section Cuts

variable {stops stops' : Char → Prop} {cs : List Char} {ps : List Piece}

/-- The pieces of a cut are the text. -/
theorem Cut.flatMap_text (h : Cut stops cs ps) : ps.flatMap text = cs := by
  induction h with
  | nil => rfl
  | cons _ _ ih => rw [List.flatMap_cons, ih]

theorem Fits.congr {p : Piece} {behind : List Char} (h : Fits stops p behind)
    (hsame : ∀ c ∈ p.text ++ behind, stops c ↔ stops' c) : Fits stops' p behind := by
  cases h with
  | blank h => exact .blank h
  | lineComment hbody hbehind =>
    refine .lineComment (fun c hc => ?_) fun c hc => ?_
    · rw [← hsame c (by simp [text, hc])]
      exact hbody c hc
    · rw [← hsame c (by simp [List.mem_of_mem_head? hc])]
      exact hbehind c hc
  | blockComment h => exact .blockComment h
  | openComment h => exact .openComment h
  | openString h => exact .openString h
  | stray h => exact .stray h
  | token hcomment h => exact .token hcomment h

/-- Where line comments might end but do not matters to none of the pieces. -/
theorem Cut.congr (h : Cut stops cs ps) (hsame : ∀ c ∈ cs, stops c ↔ stops' c) :
    Cut stops' cs ps := by
  induction h with
  | nil => exact .nil
  | cons hfits _ ih =>
    exact .cons (hfits.congr hsame) (ih fun c hc => hsame c (List.mem_append_right _ hc))

theorem cut_splitWithin (size : Nat) (cs : List Char) (h : cs.length ≤ size) :
    Cut EndsLine cs (splitWithin size cs) := by
  fun_induction splitWithin size cs with
  | case1 => exact .nil
  | case2 => simp at h
  | case3 size c cs ih =>
    have hless := length_next_lt c cs
    rw [List.length_cons] at h hless
    have hrest := Cut.cons (fits_next c cs) (ih (by omega))
    rwa [append_next] at hrest

/-- The pieces of a text are a cut of it. -/
theorem cut_split (cs : List Char) : Cut EndsLine cs (split cs) :=
  cut_splitWithin _ cs (Nat.le_refl _)

/-- A text is cut in one way. -/
theorem Cut.eq_split (h : Cut EndsLine cs ps) : ps = split cs := by
  induction h with
  | nil => rfl
  | @cons p behind ps hfits _ ih =>
    obtain ⟨c, cs, htext⟩ : ∃ c cs, p.text ++ behind = c :: cs :=
      List.exists_cons_of_ne_nil fun hnil => hfits.text_ne_nil (List.append_eq_nil_iff.mp hnil).1
    rw [htext, split_cons, hfits.next_eq htext, ih]

end Cuts

/-! ### Gaps -/

theorem wordsFrom_of_gap {p : Piece} (hp : p.isToken = false) (line : Int) (ps : List Piece) :
    wordsFrom line (p :: ps) = wordsFrom (p.lineBehind line) ps := by
  cases p with
  | token => cases hp
  | _ => rfl

/-- What is reported on a piece. -/
def problem? : Piece → Option LexicalProblem
  | stray c => some (.unexpectedCharacter c)
  | openString _ => some .unterminatedString
  | openComment _ => some .unclosedComment
  | _ => none

/-- There is one report on each piece that something is wrong with. -/
theorem problems_reportsFrom (line : Int) (ps : List Piece) :
    (reportsFrom line ps).map LexicalReport.problem = ps.filterMap problem? := by
  induction ps generalizing line with
  | nil => rfl
  | cons p ps ih =>
    cases p <;> simp [reportsFrom, problem?, List.filterMap_cons, ih]

theorem problem?_eq_none {line : Int} {ps : List Piece} (h : reportsFrom line ps = []) :
    ∀ p ∈ ps, p.problem? = none := by
  have hproblems := problems_reportsFrom line ps
  rw [h] at hproblems
  exact List.filterMap_eq_nil_iff.mp hproblems.symm

theorem reportsFrom_of_clean {p : Piece} (hp : p.problem? = none) (line : Int) (ps : List Piece) :
    reportsFrom line (p :: ps) = reportsFrom (p.lineBehind line) ps := by
  cases p with
  | stray | openString | openComment => cases hp
  | _ => rfl

end Piece

namespace Scan

/-- The pieces of a text of which each token is given with the gap in front of it, and the gap
behind the last one. -/
def assemble (parts : List (List Piece × Token)) (last : List Piece) : List Piece :=
  parts.flatMap (fun (gap, t) => gap ++ [t.piece]) ++ last

/-- A text is the sequence of the gaps and lexemes of its scan: the pieces fit, gaps have no token
in them, the tokens are followed by one end of input, and what is reported is what is wrong with
the pieces. -/
structure IsPartition (source : String) (parts : List (List Piece × Token))
    (last : List Piece) : Prop where
  text : source.toList =
    parts.flatMap (fun (gap, t) => gap.flatMap Piece.text ++ t.lexeme.toList) ++
      last.flatMap Piece.text
  cut : Piece.Cut (· = '\n') source.toList (assemble parts last)
  gaps : ∀ gap ∈ last :: parts.map Prod.fst, ∀ p ∈ gap, p.isToken = false
  tokens : (ofText source).tokens = parts.map Prod.snd ++ [ending source]
  kinds : ∀ t ∈ parts.map Prod.snd, t.kind ≠ .endOfInput
  problems : (ofText source).reports.map LexicalReport.problem =
    (assemble parts last).filterMap Piece.problem?

/-- Pieces are tokens with gaps between them. -/
theorem exists_assemble (line : Int) (ps : List Piece) :
    ∃ parts last, assemble parts last = ps ∧ parts.map Prod.snd = Piece.wordsFrom line ps ∧
      ∀ gap ∈ last :: parts.map Prod.fst, ∀ p ∈ gap, p.isToken = false := by
  induction ps generalizing line with
  | nil => exact ⟨[], [], rfl, rfl, by simp⟩
  | cons p ps ih =>
    obtain ⟨parts, last, rfl, hwords, hgaps⟩ := ih (p.lineBehind line)
    by_cases hp : p.isToken = true
    · cases p with
      | token kind lexeme literal =>
        let t : Token :=
          ⟨kind, String.ofList lexeme, literal, (Piece.token kind lexeme literal).lineBehind line⟩
        refine ⟨([], t) :: parts, last, ?_, ?_, ?_⟩
        · simp [assemble, Token.piece, t]
        · rw [List.map_cons, hwords, Piece.wordsFrom]
        · simpa using hgaps
      | _ => cases hp
    · rw [Piece.wordsFrom_of_gap (Bool.eq_false_iff.mpr hp), ← hwords]
      -- the piece belongs to the first gap there is
      cases parts with
      | nil =>
        refine ⟨[], p :: last, rfl, rfl, ?_⟩
        simpa [hp] using hgaps
      | cons part parts =>
        refine ⟨(p :: part.1, part.2) :: parts, last, rfl, rfl, ?_⟩
        simpa [hp] using hgaps

/-- The pieces of gaps and lexemes are the text in them. -/
theorem flatMap_text_assemble (parts : List (List Piece × Token)) (last : List Piece) :
    (assemble parts last).flatMap Piece.text =
      parts.flatMap (fun (gap, t) => gap.flatMap Piece.text ++ t.lexeme.toList) ++
        last.flatMap Piece.text := by
  rw [assemble, List.flatMap_append, List.flatMap_assoc]
  simp only [List.flatMap_append, List.flatMap_singleton, Token.piece, Piece.text]

/-- The scan of a text is its partition by longest match: it goes through the text gap by gap and
lexeme by lexeme, and leaves no character out. -/
theorem exists_partition {source : String} (h : '\x00' ∉ source.toList) :
    ∃ parts last, IsPartition source parts last := by
  obtain ⟨parts, last, hpieces, hwords, hgaps⟩ := exists_assemble 1 (Piece.split source.toList)
  have hcut : Piece.Cut (· = '\n') source.toList (assemble parts last) := by
    rw [hpieces]
    refine (Piece.cut_split source.toList).congr fun c hc => ⟨fun hends => ?_, Or.inl⟩
    exact hends.resolve_right fun hnull => h (hnull ▸ hc)
  refine ⟨parts, last, ?_, hcut, hgaps, ?_, ?_, ?_⟩
  · rw [← flatMap_text_assemble, hcut.flatMap_text]
  · rw [tokens_ofText, hwords, words]
  · rw [hwords]
    exact kind_ne_endOfInput_of_mem_words
  · rw [hpieces]
    exact Piece.problems_reportsFrom 1 _

/-- A text with pieces of all classes. -/
def mixed : String := "var s = \"a\n//\"; // end\n/* x /* y */ */ 1.5. # @ /* open"

theorem exists_partition_mixed :
    '\x00' ∉ mixed.toList ∧ ∃ parts last, IsPartition mixed parts last :=
  ⟨by decide, exists_partition (by decide)⟩

end Scan

end Lox
