import Lox.Proofs.Token.Highlighting

/-!
# Searches for tokens

The highlighter looks for the text of each token behind what it found for the token before it. It
may find it earlier than where the token stands, never later: a search that begins no further than
the token finds the text of the token there at the latest, and so the next search begins no further
than the end of the token, behind which all the other tokens stand. So no search fails, and no
character of a line is lost.

## Main definitions

* `Highlight.Search`: a search, with the text in front of where it begins and what it finds.
* `Highlight.searches`: the searches for the tokens of a text.
* `Highlight.Search.Reaches`: a search begins, and finds the token, no further than where it stands.

## Main results

* `Highlight.searches_reach`: every search reaches its token.
* `Highlight.line_lossless`: the spans of a line are its text, with one span for each token.
-/

namespace Lox.Highlight

/-! ### No character is lost between tokens -/

theorem flatMap_commentSpans? {opener gap : List Char} {spans : List Span}
    (h : commentSpans? opener gap = some spans) : spans.flatMap Span.text = gap := by
  obtain ⟨⟨before, behind⟩, hfound, rfl⟩ := Option.map_eq_some_iff.mp h
  rw [← append_of_find? hfound]
  cases before <;> simp

theorem flatMap_gapSpans (gap : List Char) : (gapSpans gap).flatMap Span.text = gap := by
  rw [gapSpans]
  cases hline : commentSpans? ['/', '/'] gap with
  | some spans => exact flatMap_commentSpans? hline
  | none =>
    cases hblock : commentSpans? ['/', '*'] gap with
    | some spans => exact flatMap_commentSpans? hblock
    | none => exact List.append_nil gap

theorem flatMap_tailSpans (rest : List Char) : (tailSpans rest).flatMap Span.text = rest := by
  rw [tailSpans]
  split
  · rename_i hempty
    exact (List.isEmpty_iff.mp hempty).symm
  · split
    · exact List.append_nil rest
    · exact flatMap_gapSpans rest

/-- The spans of what is passed over in front of a token, none if the token is found at once. -/
def passedSpans (gap : List Char) : List Span :=
  if gap.isEmpty then [] else gapSpans gap

theorem flatMap_passedSpans (gap : List Char) : (passedSpans gap).flatMap Span.text = gap := by
  rw [passedSpans]
  split
  · rename_i hempty
    exact (List.isEmpty_iff.mp hempty).symm
  · exact flatMap_gapSpans gap

/-! ### Searches -/

/-- A search for the text of a token: the text in front of where it begins, and, if it finds
something, what it passes over and what is left. -/
structure Search where
  token : Token
  group : Group
  start : List Char
  found? : Option (List Char × List Char)

/-- What a search contributes to the spans of a line. -/
def Search.spans (s : Search) : List Span :=
  match s.found? with
  | none => []
  | some (gap, _) => passedSpans gap ++ [⟨s.group, s.token.lexeme.toList⟩]

/-- The searches for some tokens in `rest`, which stands behind `start`. -/
def searchesFrom (previous : Option Kind) (start : List Char) :
    List Token → List Char → List Search
  | [], _ => []
  | t :: ts, rest =>
    if t.kind = .endOfInput then searchesFrom (some t.kind) start ts rest
    else
      ⟨t, groupAmong previous t ts, start, find? t.lexeme.toList rest⟩ ::
        match find? t.lexeme.toList rest with
        | none => searchesFrom (some t.kind) start ts rest
        | some (gap, behind) =>
          searchesFrom (some t.kind) (start ++ (gap ++ t.lexeme.toList)) ts behind

/-- The searches for the tokens of a text. -/
def searches (text : List Char) : List Search :=
  searchesFrom none [] (Scan.ofText (String.ofList text)).tokens text

/-- The tokens are looked for one by one, but for the end of the input. -/
theorem map_token_searchesFrom (previous : Option Kind) (start : List Char) (ts : List Token)
    (rest : List Char) :
    (searchesFrom previous start ts rest).map Search.token
      = ts.filter (·.kind ≠ .endOfInput) := by
  induction ts generalizing previous start rest with
  | nil => rfl
  | cons t ts ih =>
    rw [searchesFrom]
    split
    · rename_i hend
      rw [ih, List.filter_cons_of_neg (by simpa using hend)]
    · rename_i hword
      rw [List.map_cons, List.filter_cons_of_pos (by simpa using hword)]
      congr 1
      split <;> exact ih _ _ _

/-- A text is shown as what the searches contribute, and what they leave. -/
theorem spansFrom_eq_flatMap_searchesFrom (previous : Option Kind) (start : List Char)
    (ts : List Token) (rest : List Char) :
    spansFrom previous ts rest = (searchesFrom previous start ts rest).flatMap Search.spans
      ++ tailSpans (found previous ts rest).2 := by
  induction ts generalizing previous start rest with
  | nil => rfl
  | cons t ts ih =>
    rw [spansFrom, searchesFrom, found]
    split
    · exact ih _ _ _
    · cases hfound : find? t.lexeme.toList rest with
      | none => exact ih _ _ _
      | some place =>
        rw [List.flatMap_cons, List.append_assoc, ← ih]
        exact List.append_cons _ _ _

/-- The spans of a text are the text. -/
theorem flatMap_spansFrom (previous : Option Kind) (ts : List Token) (rest : List Char) :
    (spansFrom previous ts rest).flatMap Span.text = rest := by
  fun_induction spansFrom previous ts rest with
  | case1 => exact flatMap_tailSpans _
  | case2 _ _ _ _ _ ih => exact ih
  | case3 _ _ _ _ _ _ ih => exact ih
  | case4 previous rest t ts _ gap behind hfound ih =>
    rw [List.flatMap_append, List.flatMap_cons, ih]
    exact (congrArg (· ++ _) (flatMap_passedSpans gap)).trans (append_of_find? hfound)

/-! ### No search fails -/

/-- In a text in which a token stands at `place`, a search for it begins no further than there. It
finds the text of the token, no further than there either, and contributes one span for it. -/
structure Search.Reaches (text : List Char) (s : Search) (place : List Char × List Char) :
    Prop where
  stands : place.1 ++ place.2 <+: text
  lexeme_eq : s.token.lexeme.toList = place.2
  start_prefix : s.start <+: place.1
  found : ∃ gap behind, s.found? = some (gap, behind) ∧ s.start ++ gap <+: place.1 ∧
    s.start ++ (gap ++ (place.2 ++ behind)) = text ∧
    s.spans = passedSpans gap ++ [⟨s.group, place.2⟩]

open Piece

/-- What is searched for behind a place no further than where it stands is found, no further than
there. -/
theorem exists_find?_of_prefix {needle text before behind start rest : List Char}
    (hstands : before ++ (needle ++ behind) = text) (hsearched : start ++ rest = text)
    (hstart : start <+: before) :
    ∃ gap left, find? needle rest = some (gap, left) ∧ start ++ gap <+: before ∧
      start ++ (gap ++ (needle ++ left)) = text := by
  obtain ⟨front, rfl⟩ := hstart
  obtain rfl : rest = front ++ (needle ++ behind) := by
    rw [← hstands, List.append_assoc] at hsearched
    exact List.append_cancel_left hsearched
  obtain ⟨gap, left, hfound, hle⟩ := exists_find?_eq needle front behind
  have happend := append_of_find? hfound
  have hgap : gap <+: front :=
    List.prefix_of_prefix_length_le ⟨_, happend⟩ (List.prefix_append _ _) hle
  exact ⟨gap, left, hfound, (List.prefix_append_right_inj _).mpr hgap,
    (congrArg (start ++ ·) happend).trans hsearched⟩

/-- If the search for the first of some tokens begins no further than the text they are taken from,
all searches reach their tokens. -/
theorem searchesFrom_reach {text cs before start rest : List Char} {ps : List Piece}
    (hcut : Cut EndsLine cs ps) (hstands : before ++ cs = text) (hsearched : start ++ rest = text)
    (hstart : start <+: before) (previous : Option Kind) (line : Int) :
    List.Forall₂ (Search.Reaches text) (searchesFrom previous start (tokensFrom line ps) rest)
      ((placed before ps).filterMap lexemeAt?) := by
  induction hcut generalizing before start rest previous line with
  | nil => exact .nil
  | @cons p behind ps hfits _ ih =>
    rw [← List.append_assoc] at hstands
    cases p with
    | token kind lexeme literal =>
      have hkind : kind ≠ .endOfInput := by
        cases hfits with
        | token _ hlongest => exact hlongest.isLexeme.kind_ne_endOfInput
      have htoken : before ++ (lexeme ++ behind) = text := by
        rw [← List.append_assoc]
        exact hstands
      obtain ⟨gap, left, hfound, hgap, hleft⟩ :=
        exists_find?_of_prefix htoken hsearched hstart
      have hsearched' : start ++ (gap ++ lexeme) ++ left = text := by
        simpa only [List.append_assoc] using hleft
      -- the next search begins no further than the end of the token
      have hstart' : start ++ (gap ++ lexeme) <+: before ++ lexeme := by
        refine List.prefix_of_prefix_length_le ⟨left, hsearched'⟩ ⟨behind, hstands⟩ ?_
        have hle := hgap.length_le
        simp only [List.length_append] at hle ⊢
        omega
      rw [tokensFrom, searchesFrom, if_neg hkind]
      simp only [String.toList_ofList, hfound]
      refine .cons ?_ (ih hstands hsearched' hstart' (some kind) _)
      exact ⟨⟨behind, hstands⟩, String.toList_ofList, hstart, gap, left, rfl, hgap, hleft,
        by simp only [Search.spans, String.toList_ofList]⟩
    | _ =>
      rw [tokensFrom_of_gap rfl]
      exact ih hstands hsearched (hstart.trans (List.prefix_append _ _)) _ _

/-- Every search reaches its token. -/
theorem searches_reach (text : List Char) :
    List.Forall₂ (Search.Reaches text) (searches text) (tokenPlaces text) := by
  have htokens : (Scan.ofText (String.ofList text)).tokens = tokensFrom 1 (split text) := by
    rw [Scan.ofText, String.toList_ofList]
    rfl
  rw [searches, htokens]
  exact searchesFrom_reach (cut_split text) (List.nil_append text) (List.nil_append text)
    (List.prefix_refl []) none 1

/-- The spans of a line are its text. Every token but the end of the input is looked for, one by
one, and each search is successful: it begins no further than where its token stands, finds the text
of the token no further than there, and contributes what it passes over and one span, the lexeme of
the token. A line is shown as what the searches contribute, and what is left behind the last one. -/
theorem line_lossless (text : List Char) :
    (line text).flatMap Span.text = text ∧
    (searches text).map Search.token
      = (Scan.ofText (String.ofList text)).tokens.filter (·.kind ≠ .endOfInput) ∧
    List.Forall₂ (Search.Reaches text) (searches text) (tokenPlaces text) ∧
    line text = (if text.isEmpty then [⟨.plain, []⟩]
      else (searches text).flatMap Search.spans ++ tailSpans (search text).2) := by
  refine ⟨?_, map_token_searchesFrom none [] _ text, searches_reach text, ?_⟩
  · rw [line]
    split
    · rename_i hempty
      exact (List.isEmpty_iff.mp hempty).symm
    · exact flatMap_spansFrom _ _ _
  · rw [line, spansFrom_eq_flatMap_searchesFrom none []]
    rfl

end Lox.Highlight
