import Lox.Proofs.Token.Partition

/-!
# The same tokens with other blanks between them

The lexemes of a text are written down again with blanks between them, whatever stood between them
before and however the text was faulty. The scan has the same tokens then, and nothing to report: in
front of a blank character each lexeme is the longest one that begins where it begins, and the first
piece of a text is its longest lexeme if there is one.

## Main definitions

* `Token.content`: what a token is apart from its line.
* `Scan.Respaced`: the lexemes of some tokens with blanks between them.

## Main results

* `Piece.split_lexeme`: a lexeme in front of a blank character is a piece.
* `Scan.tokens_of_respaced`: tokens do not depend on the blanks between them.
-/

namespace Lox

/-- What a token is apart from its line. -/
def Token.content (t : Token) : Kind × String × Literal := (t.kind, t.lexeme, t.literal)

namespace Piece

variable {kind : Kind} {literal : Literal} {w behind : List Char}

/-- A lexeme in front of a blank character, or at the end of a text, is a piece. -/
theorem split_lexeme (hw : Lexeme w kind literal)
    (hbehind : ∀ b ∈ behind.head?, isBlank b = true) :
    split (w ++ behind) = token kind w literal :: split behind := by
  have hlongest : LongestLexeme (w ++ behind) w kind literal :=
    ⟨List.prefix_append w behind, hw, fun hw' hpre => hw.length_le_of_isBlank hbehind hw' hpre⟩
  have hfits : Fits EndsLine (token kind w literal) behind :=
    .token (hw.not_opensComment hbehind) hlongest
  exact (Cut.cons hfits (cut_split behind)).eq_split.symm

/-- Blanks are pieces, one by one. -/
theorem split_blanks {gap : List Char} (hgap : ∀ c ∈ gap, isBlank c = true)
    (behind : List Char) : split (gap ++ behind) = gap.map blank ++ split behind := by
  induction gap with
  | nil => rfl
  | cons c gap ih =>
    obtain ⟨hc, hgap⟩ := List.forall_mem_cons.mp hgap
    have hfits : Fits EndsLine (blank c) (gap ++ behind) := .blank hc
    rw [List.cons_append, List.map_cons, List.cons_append, ← ih hgap]
    exact (Cut.cons hfits (cut_split _)).eq_split.symm

/-- Blanks are no tokens and not reported. -/
theorem scan_blanks (line : Int) (gap : List Char) (ps : List Piece) :
    ∃ line', wordsFrom line (gap.map blank ++ ps) = wordsFrom line' ps ∧
      reportsFrom line (gap.map blank ++ ps) = reportsFrom line' ps := by
  induction gap generalizing line with
  | nil => exact ⟨line, rfl, rfl⟩
  | cons c gap ih => exact ih _

end Piece

namespace Scan

/-- The lexemes of some tokens with blanks between them. -/
inductive Respaced : List Token → List Char → Prop
  | nil : Respaced [] []
  | single (t : Token) : Respaced [t] t.lexeme.toList
  | cons (t : Token) {t' : Token} {ts : List Token} {gap text : List Char} :
      gap ≠ [] → (∀ c ∈ gap, Piece.isBlank c = true) → Respaced (t' :: ts) text →
      Respaced (t :: t' :: ts) (t.lexeme.toList ++ (gap ++ text))

/-- The tokens of a text have lexemes of their kinds. -/
theorem lexeme_of_mem_words {source : String} {t : Token} (ht : t ∈ words source) :
    Lexeme t.lexeme.toList t.kind t.literal := by
  obtain ⟨c, rest, -, hnext⟩ := exists_next_of_mem_words ht
  have hfits := Piece.fits_next c rest
  rw [hnext] at hfits
  cases hfits with
  | token _ hlongest => exact hlongest.isLexeme

/-- Lexemes with blanks between them are scanned one by one. -/
theorem scan_respaced {ts : List Token} {text : List Char} (h : Respaced ts text)
    (hts : ∀ t ∈ ts, Lexeme t.lexeme.toList t.kind t.literal) (line : Int) :
    (Piece.wordsFrom line (Piece.split text)).map Token.content = ts.map Token.content ∧
      Piece.reportsFrom line (Piece.split text) = [] := by
  induction h generalizing line with
  | nil => exact ⟨rfl, rfl⟩
  | single t =>
    have hbehind : ∀ b ∈ ([] : List Char).head?, Piece.isBlank b = true := by simp
    have hsplit := Piece.split_lexeme (hts t List.mem_cons_self) hbehind
    rw [List.append_nil] at hsplit
    rw [hsplit]
    exact ⟨by simp [Piece.wordsFrom, Piece.split, Piece.splitWithin, Token.content], rfl⟩
  | @cons t t' ts gap text hgap hblank _ ih =>
    obtain ⟨ht, hts⟩ := List.forall_mem_cons.mp hts
    have hbehind : ∀ b ∈ (gap ++ text).head?, Piece.isBlank b = true := by
      obtain ⟨b, gap, rfl⟩ := List.exists_cons_of_ne_nil hgap
      simpa using hblank b List.mem_cons_self
    rw [Piece.split_lexeme ht hbehind, Piece.split_blanks hblank]
    obtain ⟨line', hwords, hreports⟩ := Piece.scan_blanks
      ((Piece.token t.kind t.lexeme.toList t.literal).lineBehind line) gap (Piece.split text)
    obtain ⟨ihwords, ihreports⟩ := ih hts line'
    refine ⟨?_, hreports.trans ihreports⟩
    rw [Piece.wordsFrom, hwords, List.map_cons, ihwords, List.map_cons]
    simp [Token.content]

/-- Written down again with blanks between them, the lexemes of a text are scanned as the same
tokens, and nothing is reported, even if something is reported on the text. -/
theorem tokens_of_respaced {source text : String}
    (h : Respaced ((ofText source).tokens.filter fun t => t.kind ≠ .endOfInput) text.toList) :
    (ofText text).tokens.map Token.content = (ofText source).tokens.map Token.content ∧
      (ofText text).reports = [] := by
  rw [filter_tokens] at h
  obtain ⟨hwords, hreports⟩ := scan_respaced h (fun t => lexeme_of_mem_words) 1
  refine ⟨?_, hreports⟩
  rw [tokens_ofText, tokens_ofText, List.map_append, List.map_append]
  exact congrArg (· ++ [(Kind.endOfInput, "", Literal.nil)]) hwords

/-- A text with a stray character and a string that is not closed. -/
def faulty : String := "x=\"a//\nb\"#/1.5fun\"y"

/-- Its lexemes with blanks between them. -/
def faultyRespaced : String := "x\t=\n\"a//\nb\" / \r\n1.5 fun"

theorem tokens_of_respaced_faulty :
    Respaced ((ofText faulty).tokens.filter fun t => t.kind ≠ .endOfInput)
        faultyRespaced.toList ∧
      (ofText faulty).reports.length = 2 ∧
      (ofText faultyRespaced).tokens.map Token.content =
        (ofText faulty).tokens.map Token.content ∧
      (ofText faultyRespaced).reports = [] := by
  have htokens : (ofText faulty).tokens.filter (fun t => t.kind ≠ .endOfInput) =
      [⟨.identifier, "x", .nil, 1⟩, ⟨.equal, "=", .nil, 1⟩,
        ⟨.string, "\"a//\nb\"", .string "a//\nb", 2⟩, ⟨.slash, "/", .nil, 2⟩,
        ⟨.number, "1.5", .number (.ofDecimal (.ofPlaces ['1'] ['5'])), 2⟩,
        ⟨.kwFun, "fun", .nil, 2⟩] := by decide +kernel
  have hrespaced : Respaced ((ofText faulty).tokens.filter fun t => t.kind ≠ .endOfInput)
      faultyRespaced.toList := by
    rw [htokens]
    exact .cons _ (List.cons_ne_nil '\t' []) (by simp [Piece.isBlank]) <|
      .cons _ (List.cons_ne_nil '\n' []) (by simp [Piece.isBlank]) <|
      .cons _ (List.cons_ne_nil ' ' []) (by simp [Piece.isBlank]) <|
      .cons _ (List.cons_ne_nil ' ' ['\r', '\n']) (by simp [Piece.isBlank]) <|
      .cons _ (List.cons_ne_nil ' ' []) (by simp [Piece.isBlank]) <| .single _
  exact ⟨hrespaced, by decide +kernel, tokens_of_respaced hrespaced⟩

end Scan

end Lox
