import Lox.Proofs.Token.Line

/-!
# Line comments mean nothing

A line comment may be written behind any text that leaves no string and no comment open, with a
space in front of it. If it goes on to the end of the line, then the scan is what it is without the
comment, whatever the comment says: the same tokens on the same lines, and the same reports. The
text may end in a line comment itself, which takes in the space and the comment behind it.

A line comment does not go on to the end of the line if `U+0000` occurs in it. It ends in front of
that character, which is reported, and what stands behind it is scanned as part of the program.

## Main definitions

* `Piece.IsRemark`: a space, and a line comment behind it or nothing.
* `Scan.escaping`: what of a comment is not commented out.

## Main results

* `Piece.scan_append_remark`: what follows a remark is scanned as if it followed the text.
* `Scan.line_comment_inert_iff`: a line comment means nothing exactly if all of it is one.
-/

namespace Lox

namespace Piece

/-! ### Remarks -/

/-- What can be put behind a text on its last line: a space, and a line comment behind it or
nothing. -/
inductive IsRemark : List Char → Prop
  | space : IsRemark [' ']
  | comment {body : List Char} : (∀ c ∈ body, ¬ EndsLine c) → IsRemark (' ' :: '/' :: '/' :: body)

/-- There are no newlines in what does not end a line. -/
theorem newlines_eq_zero {cs : List Char} (h : ∀ c ∈ cs, ¬ EndsLine c) : newlines cs = 0 :=
  List.count_eq_zero.mpr fun hmem => h '\n' hmem (.inl rfl)

/-- A line comment on its own is no token, and nothing is reported on it. -/
theorem scan_lineComment {cs : List Char} (h : ∀ c ∈ cs, ¬ EndsLine c) (line : Int)
    (ps : List Piece) :
    wordsFrom line (lineComment cs :: ps) = wordsFrom line ps ∧
      reportsFrom line (lineComment cs :: ps) = reportsFrom line ps := by
  have hline : (lineComment cs).lineBehind line = line := by
    rw [lineBehind, text, newlines_eq_zero h]
    exact Int.add_zero line
  rw [wordsFrom_of_gap rfl, reportsFrom_of_clean rfl, hline]
  exact ⟨rfl, rfl⟩

section Remark

variable {remark rest : List Char}

/-- A line comment takes in a remark as a whole. -/
theorem IsRemark.not_endsLine (h : IsRemark remark) : ∀ c ∈ remark, ¬ EndsLine c := by
  have hmark {c : Char} (hc : c = ' ' ∨ c = '/') : ¬ EndsLine c := by
    obtain rfl | rfl := hc <;> simp [EndsLine]
  cases h with
  | space => simpa using hmark (.inl rfl)
  | comment hbody =>
    intro c hc
    simp only [List.mem_cons] at hc
    obtain hc | hc | hc | hc := hc
    · exact hmark (.inl hc)
    · exact hmark (.inr hc)
    · exact hmark (.inr hc)
    · exact hbody c hc

theorem IsRemark.exists_cons (h : IsRemark remark) : ∃ body, remark = ' ' :: body := by
  cases h with
  | space => exact ⟨[], rfl⟩
  | comment => exact ⟨_, rfl⟩

/-- At the end of its line a remark is passed over. -/
theorem IsRemark.scan (h : IsRemark remark) (hrest : ∀ c ∈ rest.head?, EndsLine c) (line : Int) :
    wordsFrom line (split (remark ++ rest)) = wordsFrom line (split rest) ∧
      reportsFrom line (split (remark ++ rest)) = reportsFrom line (split rest) := by
  have hspace (cs : List Char) : split (' ' :: cs) = blank ' ' :: split cs := split_cons ' ' cs
  have hline : (blank ' ').lineBehind line = line := Int.add_zero line
  cases h with
  | space =>
    rw [List.cons_append, hspace, wordsFrom_of_gap rfl, reportsFrom_of_clean rfl, hline]
    exact ⟨rfl, rfl⟩
  | @comment body hbody =>
    have hsplit : split ('/' :: '/' :: body ++ rest) =
        lineComment ('/' :: '/' :: body) :: split rest :=
      (Cut.cons (.lineComment hbody hrest) (cut_split rest)).eq_split.symm
    have hmarks : ∀ c ∈ '/' :: '/' :: body, ¬ EndsLine c := fun c hc =>
      (IsRemark.comment hbody).not_endsLine c (List.mem_cons_of_mem _ hc)
    rw [List.cons_append, hspace, hsplit, wordsFrom_of_gap rfl, reportsFrom_of_clean rfl, hline]
    exact scan_lineComment hmarks line _

/-- A text that is a line comment is one with a remark behind it as well. -/
theorem IsRemark.split_append {c : Char} {cs text : List Char} (h : IsRemark remark)
    (hnext : next c cs = (lineComment text, [])) (hrest : ∀ c ∈ rest.head?, EndsLine c) :
    c :: cs = text ∧ (∀ c ∈ text, ¬ EndsLine c) ∧
      split (text ++ remark ++ rest) = lineComment (text ++ remark) :: split rest := by
  have hfits := fits_next c cs
  have happend := append_next c cs
  rw [hnext] at hfits happend
  cases hfits with
  | @lineComment body _ hbody =>
    have htext : ∀ c ∈ '/' :: '/' :: body, ¬ EndsLine c := fun c hc =>
      (IsRemark.comment hbody).not_endsLine c (List.mem_cons_of_mem _ hc)
    have hbody' : ∀ c ∈ body ++ remark, ¬ EndsLine c :=
      List.forall_mem_append.mpr ⟨hbody, h.not_endsLine⟩
    refine ⟨happend.symm.trans (List.append_nil _), htext, ?_⟩
    exact (Cut.cons (.lineComment hbody' hrest) (cut_split rest)).eq_split.symm

/-- What follows a remark on the last line of a text is scanned as if it followed the text. -/
theorem scan_append_remark {cs : List Char} (hclosed : ∀ p ∈ split cs, p.isOpen = false)
    (hremark : IsRemark remark) (hrest : ∀ c ∈ rest.head?, EndsLine c) (line : Int) :
    wordsFrom line (split (cs ++ remark ++ rest)) =
        wordsFrom line (split cs) ++ wordsFrom (line + newlines cs) (split rest) ∧
      reportsFrom line (split (cs ++ remark ++ rest)) =
        reportsFrom line (split cs) ++ reportsFrom (line + newlines cs) (split rest) := by
  induction cs using split_induction generalizing line with
  | nil =>
    have hline : line + newlines [] = line := Int.add_zero line
    rw [hline]
    exact hremark.scan hrest line
  | cons c cs ih =>
    rw [split_cons] at hclosed ⊢
    obtain ⟨hopen, hbehind⟩ := List.forall_mem_cons.mp hclosed
    by_cases hend : ∃ text, next c cs = (lineComment text, [])
    · -- the comment in which the text ends takes in the remark
      obtain ⟨text, hnext⟩ := hend
      obtain ⟨rfl, htext, hsplit⟩ := hremark.split_append hnext hrest
      have hlong := List.forall_mem_append.mpr ⟨htext, hremark.not_endsLine⟩
      obtain ⟨hwords, hreports⟩ := scan_lineComment htext line []
      obtain ⟨hwords', hreports'⟩ := scan_lineComment hlong line (split rest)
      have hline : line + newlines (c :: cs) = line := by
        rw [newlines_eq_zero htext]
        exact Int.add_zero line
      rw [hsplit, hnext, hline, hwords', hreports']
      constructor
      · exact congrArg (· ++ wordsFrom line (split rest)) hwords.symm
      · exact congrArg (· ++ reportsFrom line (split rest)) hreports.symm
    · obtain ⟨body, rfl⟩ := hremark.exists_cons
      have hspace : isBlank ' ' = true := rfl
      have hnext := next_append_blank hspace hopen (fun text h => absurd ⟨text, h⟩ hend)
        (body ++ rest)
      have hline : line + newlines (c :: cs) =
          (next c cs).1.lineBehind line + newlines (next c cs).2 := by
        rw [← append_next c cs, newlines_append, lineBehind]
        omega
      obtain ⟨hwords, hreports⟩ := ih hbehind ((next c cs).1.lineBehind line)
      rw [List.append_assoc] at hwords hreports
      rw [List.append_assoc, List.cons_append, List.cons_append, split_cons, hnext, hline,
        ← List.cons_append, wordsFrom_cons, reportsFrom_cons, hwords, hreports,
        wordsFrom_cons _ _ (split _), reportsFrom_cons _ _ (split _), List.append_assoc,
        List.append_assoc]
      exact ⟨rfl, rfl⟩

end Remark

end Piece

namespace Scan

/-! ### Texts with remarks -/

section Remark

variable {p source : String} {remark rest : List Char}

/-- The scan of a text with a remark in it: behind the words of what stands in front come the tokens
of what follows the line, from the same line on. -/
theorem ofText_of_remark (hclosed : ∀ piece ∈ Piece.split p.toList, piece.isOpen = false)
    (hremark : Piece.IsRemark remark) (hrest : ∀ c ∈ rest.head?, Piece.EndsLine c)
    (hsource : source.toList = p.toList ++ remark ++ rest) :
    ofText source =
      ⟨words p ++ Piece.tokensFrom (1 + Piece.newlines p.toList) (Piece.split rest),
        (ofText p).reports ++ Piece.reportsFrom (1 + Piece.newlines p.toList) (Piece.split rest)⟩ := by
  obtain ⟨hwords, hreports⟩ := Piece.scan_append_remark hclosed hremark hrest 1
  rw [← hsource] at hwords hreports
  have hlines : Piece.newlines source.toList = Piece.newlines p.toList + Piece.newlines rest := by
    rw [hsource, Piece.newlines_append, Piece.newlines_append,
      Piece.newlines_eq_zero hremark.not_endsLine]
    rfl
  have hending : ending source =
      Piece.endFrom (1 + Piece.newlines p.toList) (Piece.split rest) := by
    rw [ending, hlines, Piece.endFrom, Piece.flatMap_text_split, Int.natCast_add, Int.add_assoc]
  have htokens : (ofText source).tokens =
      words p ++ Piece.tokensFrom (1 + Piece.newlines p.toList) (Piece.split rest) := by
    rw [tokens_ofText, hending, Piece.tokensFrom_eq, ← List.append_assoc]
    exact congrArg (· ++ [_]) hwords
  exact congr (congrArg Scan.mk htokens) hreports

/-- The character that a line comment ends in front of is reported, if it is no newline. -/
theorem report_of_remark (hclosed : ∀ piece ∈ Piece.split p.toList, piece.isOpen = false)
    (hremark : Piece.IsRemark remark) (hsource : source.toList = p.toList ++ remark ++ '\x00' :: rest) :
    ∃ reports, (ofText source).reports = (ofText p).reports ++
      ⟨1 + Piece.newlines p.toList, .unexpectedCharacter '\x00'⟩ :: reports := by
  have hends : ∀ c ∈ ('\x00' :: rest).head?, Piece.EndsLine c := by simp [Piece.EndsLine]
  have hnext : Piece.next '\x00' rest = (.stray '\x00', rest) := rfl
  rw [ofText_of_remark hclosed hremark hends hsource, Piece.split_cons, hnext]
  exact ⟨_, rfl⟩

/-- What is reported on the next line is reported there. -/
theorem line_of_mem_reports_newline {line : Int} {cs : List Char} {r : LexicalReport}
    (h : r ∈ Piece.reportsFrom line (Piece.split ('\n' :: cs))) : line < r.line := by
  have hnewline : Piece.split ('\n' :: cs) = .blank '\n' :: Piece.split cs := Piece.split_cons '\n' cs
  rw [hnewline, Piece.reportsFrom_cons] at h
  have hline := (Piece.line_of_mem_reportsFrom h).1
  exact Int.lt_of_lt_of_le (Int.lt_succ line) hline

end Remark

/-- What of a comment is not commented out: all from the first `U+0000` on. -/
def escaping (comment : String) : String :=
  String.ofList (comment.toList.dropWhile (· ≠ '\x00'))

/-- If anything escapes a comment, it begins with `U+0000`. -/
theorem escaping_cases (comment : String) :
    (escaping comment = "" ∧ '\x00' ∉ comment.toList) ∨
      ∃ rest, escaping comment = String.ofList ('\x00' :: rest) ∧ '\x00' ∈ comment.toList := by
  have hsplit : comment.toList.takeWhile (· ≠ '\x00') ++ comment.toList.dropWhile (· ≠ '\x00') =
      comment.toList := List.takeWhile_append_dropWhile
  have hhead := List.head?_dropWhile_not (· ≠ '\x00') comment.toList
  rw [escaping]
  cases hdrop : comment.toList.dropWhile (· ≠ '\x00') with
  | nil =>
    rw [List.dropWhile_eq_nil_iff] at hdrop
    exact .inl ⟨rfl, fun hmem => by simpa using hdrop _ hmem⟩
  | cons c rest =>
    rw [hdrop] at hhead hsplit
    obtain rfl : c = '\x00' := by simpa using hhead
    exact .inr ⟨rest, rfl, hsplit ▸ by simp⟩

/-- The rest of a comment goes on to the end of the line. -/
theorem exists_body_escaping {comment : String} (h : '\n' ∉ comment.toList) :
    ∃ body, (∀ c ∈ body, ¬ Piece.EndsLine c) ∧
      comment.toList = body ++ (escaping comment).toList := by
  refine ⟨comment.toList.takeWhile (· ≠ '\x00'), fun c hc hends => ?_, ?_⟩
  · obtain rfl | rfl := hends
    · exact h ((List.takeWhile_sublist _).subset hc)
    · exact absurd (List.mem_takeWhile_imp hc) (by decide)
  · rw [escaping, String.toList_ofList, List.takeWhile_append_dropWhile]

/-- A line comment behind a text that leaves nothing open: only what escapes it is scanned. So the
comment may as well not be there, exactly if `U+0000` does not occur in it. -/
theorem line_comment_inert_iff {p comment : String} (hp : ∀ r ∈ (ofText p).reports,
      r.problem ≠ .unterminatedString ∧ r.problem ≠ .unclosedComment)
    (hcomment : '\n' ∉ comment.toList) (q : String) :
    ofText (p ++ " //" ++ comment ++ "\n" ++ q) = ofText (p ++ " " ++ escaping comment ++ "\n" ++ q) ∧
      (ofText (p ++ " //" ++ comment ++ "\n" ++ q) = ofText (p ++ " " ++ "\n" ++ q) ↔
        '\x00' ∉ comment.toList) := by
  have hclosed := Piece.isOpen_of_problems hp
  obtain ⟨body, hbody, hwhole⟩ := exists_body_escaping hcomment
  have hremark : Piece.IsRemark (' ' :: '/' :: '/' :: body) := .comment hbody
  have hsource : (p ++ " //" ++ comment ++ "\n" ++ q).toList =
      p.toList ++ (' ' :: '/' :: '/' :: body) ++ ((escaping comment).toList ++ '\n' :: q.toList) := by
    simp [String.toList_append, hwhole]
  have hsource' : (p ++ " " ++ escaping comment ++ "\n" ++ q).toList =
      p.toList ++ [' '] ++ ((escaping comment).toList ++ '\n' :: q.toList) := by
    simp [String.toList_append]
  have hbare : (p ++ " " ++ "\n" ++ q).toList = p.toList ++ [' '] ++ '\n' :: q.toList := by
    simp [String.toList_append]
  have hnewline : ∀ c ∈ ('\n' :: q.toList).head?, Piece.EndsLine c := by simp [Piece.EndsLine]
  obtain ⟨hnone, hnull⟩ | ⟨rest, hsome, hnull⟩ := escaping_cases comment
  · rw [hnone] at hsource
    have hsame := (ofText_of_remark hclosed hremark hnewline hsource).trans
      (ofText_of_remark hclosed .space hnewline hbare).symm
    rw [hnone, String.append_empty]
    exact ⟨hsame, fun _ => hnull, fun _ => hsame⟩
  · rw [hsome, String.toList_ofList] at hsource hsource'
    have hends : ∀ c ∈ ('\x00' :: (rest ++ '\n' :: q.toList)).head?, Piece.EndsLine c := by
      simp [Piece.EndsLine]
    refine ⟨?_, fun heq => ?_, fun h => absurd hnull h⟩
    · rw [hsome, ofText_of_remark hclosed hremark hends hsource,
        ofText_of_remark hclosed .space hends hsource']
    · -- the character is reported on the line of the comment, where nothing else is
      obtain ⟨reports, hreports⟩ := report_of_remark hclosed hremark hsource
      rw [heq, ofText_of_remark hclosed .space hnewline hbare] at hreports
      have hmem := List.append_cancel_left hreports
      exact absurd (line_of_mem_reports_newline (hmem ▸ List.mem_cons_self)) (Int.lt_irrefl _)

/-- A line comment in which `U+0000` occurs is not passed over: the character is reported, and the
word behind it is a token. -/
theorem line_comment_leaks :
    ¬ ∀ p comment q : String, (∀ r ∈ (ofText p).reports,
        r.problem ≠ .unterminatedString ∧ r.problem ≠ .unclosedComment) →
      '\n' ∉ comment.toList →
      ofText (p ++ " //" ++ comment ++ "\n" ++ q) = ofText (p ++ " " ++ "\n" ++ q) := by
  intro h
  have hsame := h "1" "\x00x" "2" (by decide +kernel) (by decide)
  have hreports := congrArg Scan.reports hsame
  exact absurd hreports (by decide +kernel)

/-- A remark behind a line comment, with the beginnings of a string and of a block comment in it,
and one in which `U+0000` occurs. -/
theorem line_comment_inert_iff_nested :
    ofText ("# x // y" ++ " //" ++ "\" /* print \x7b" ++ "\n" ++ "b") =
        ofText ("# x // y" ++ " " ++ "\n" ++ "b") ∧
      ofText ("# x // y" ++ " //" ++ "z\x00 \"" ++ "\n" ++ "b") =
        ofText ("# x // y" ++ " " ++ escaping "z\x00 \"" ++ "\n" ++ "b") ∧
      ofText ("# x // y" ++ " //" ++ "z\x00 \"" ++ "\n" ++ "b") ≠
        ofText ("# x // y" ++ " " ++ "\n" ++ "b") := by
  have hp : ∀ r ∈ (ofText "# x // y").reports,
      r.problem ≠ .unterminatedString ∧ r.problem ≠ .unclosedComment := by decide +kernel
  have hplain : '\n' ∉ "\" /* print \x7b".toList := by decide
  have hnull : '\n' ∉ "z\x00 \"".toList := by decide
  have hwhole := line_comment_inert_iff hp hplain "b"
  have hescaping := line_comment_inert_iff hp hnull "b"
  exact ⟨hwhole.2.mpr (by decide), hescaping.1, fun hsame => hescaping.2.mp hsame (by decide)⟩

end Scan

end Lox
