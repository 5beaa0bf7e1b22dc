import Lox.Proofs.Token.Lexeme
import Lox.Token.Scan
import Mathlib.Data.List.Find

/-!
# Texts one above the other

A text is put in front of another one, with a newline between them. No piece of a text goes past a
newline but a string or a block comment that is still open there. If the first text leaves none of
these open, then the pieces of both together are those of the first, the newline, and those of the
second. The tokens of the second text come out the same but for their lines, since they stand
further down.

## Main definitions

* `Piece.isOpen`: a string or a comment that is not closed.
* `Token.down`, `LexicalReport.down`: a token and a report that stand further down.
* `Token.piece`: the piece that a token is taken from.

## Main results

* `Piece.split_append`: texts are split one by one.
* `Scan.words_append`, `Scan.reports_append`: so they are scanned one by one.
* `Scan.tokens_and_reports_append`: the scan of a text that leaves nothing open, in front of
  another one.
-/

namespace Lox

/-- A token so many lines further down. -/
def Token.down (lines : Nat) (t : Token) : Token := { t with line := t.line + lines }

/-- A lexical report so many lines further down. -/
def LexicalReport.down (lines : Nat) (r : LexicalReport) : LexicalReport :=
  { r with line := r.line + lines }

/-- The piece that a token is taken from. -/
def Token.piece (t : Token) : Piece := .token t.kind t.lexeme.toList t.literal

namespace Piece

/-- A string or a comment that is not closed. -/
def isOpen : Piece → Bool
  | openComment _ | openString _ => true
  | _ => false

/-! ### One piece in front of more text -/

section Stretches

variable {p : Char → Bool} {a : Char} {cs : List Char}

/-- A stretch does not go past a character that is not part of it. -/
theorem takeWhile_append_of_stop (ha : p a = false) (cs behind : List Char) :
    (cs ++ a :: behind).takeWhile p = cs.takeWhile p := by
  induction cs with
  | nil => simp [ha]
  | cons c cs ih => simp only [List.cons_append, List.takeWhile_cons, ih]

theorem dropWhile_append_of_stop (ha : p a = false) (cs behind : List Char) :
    (cs ++ a :: behind).dropWhile p = cs.dropWhile p ++ a :: behind := by
  induction cs with
  | nil => simp [ha]
  | cons c cs ih =>
    simp only [List.cons_append, List.dropWhile_cons, ih]
    split <;> rfl

/-- A stretch that stops inside a text stops at the same place if more text follows. -/
theorem takeWhile_append_of_stopped (h : cs.dropWhile p ≠ []) (behind : List Char) :
    (cs ++ behind).takeWhile p = cs.takeWhile p := by
  induction cs with
  | nil => exact absurd rfl h
  | cons c cs ih =>
    simp only [List.dropWhile_cons, List.cons_append, List.takeWhile_cons] at h ⊢
    split
    · rename_i hc
      rw [if_pos hc] at h
      rw [ih h]
    · rfl

theorem dropWhile_append_of_stopped (h : cs.dropWhile p ≠ []) (behind : List Char) :
    (cs ++ behind).dropWhile p = cs.dropWhile p ++ behind := by
  induction cs with
  | nil => exact absurd rfl h
  | cons c cs ih =>
    simp only [List.dropWhile_cons, List.cons_append] at h ⊢
    split
    · rename_i hc
      rw [if_pos hc] at h
      exact ih h
    · rfl

end Stretches

/-- A comment that is closed does not look at what stands behind it. -/
theorem commentBody?_append {depth : Nat} {cs body rest : List Char}
    (h : commentBody? depth cs = some (body, rest)) (behind : List Char) :
    commentBody? depth (cs ++ behind) = some (body, rest ++ behind) := by
  fun_induction commentBody? depth cs generalizing body rest with
  | case1 depth cs ih | case3 depth cs ih =>
    obtain ⟨⟨b, r⟩, hb, he⟩ := Option.map_eq_some_iff.mp h
    cases he
    simp [commentBody?, ih hb]
  | case2 cs =>
    cases h
    rfl
  | case4 depth c cs hopener hcloser hcloser' ih =>
    obtain ⟨⟨b, r⟩, hb, he⟩ := Option.map_eq_some_iff.mp h
    cases he
    cases cs with
    | nil => simp [commentBody?] at hb
    | cons d cs =>
      rw [List.cons_append, List.cons_append, commentBody?]
      · rw [← List.cons_append, ih hb]
        rfl
      · exact fun cs' hc hd => hopener cs (by simp_all) (by simp_all)
      · exact fun cs' hn hc hd => hcloser cs (by simp_all) (by simp_all) (by simp_all)
      · exact fun n cs' hn hc hd => hcloser' n cs (by simp_all) (by simp_all) (by simp_all)
  | case5 => cases h

theorem stringNext_append {cs : List Char} (h : (stringNext cs).1.isOpen = false)
    (behind : List Char) :
    stringNext (cs ++ behind) = ((stringNext cs).1, (stringNext cs).2 ++ behind) := by
  have hclosed : cs.dropWhile isQuotable ≠ [] := by
    intro hopen
    rw [stringNext, hopen] at h
    cases h
  obtain ⟨c, rest, hrest⟩ := List.exists_cons_of_ne_nil hclosed
  simp only [stringNext, takeWhile_append_of_stopped hclosed, dropWhile_append_of_stopped hclosed,
    hrest, List.cons_append]

theorem isPrefixOf_append_of_stop {spelling : List Char} {a : Char} (ha : a ∉ spelling)
    (cs behind : List Char) :
    spelling.isPrefixOf (cs ++ a :: behind) = spelling.isPrefixOf cs := by
  induction spelling generalizing cs with
  | nil => simp
  | cons c spelling ih =>
    simp only [List.mem_cons, not_or] at ha
    cases cs with
    | nil => simp [List.isPrefixOf, Ne.symm ha.1]
    | cons d cs => rw [List.cons_append, List.isPrefixOf, List.isPrefixOf, ih ha.2]

section Blank

variable {a : Char} (ha : isBlank a = true)

include ha

theorem not_nameful_of_isBlank : (isLetter a || isDigit a) = false := by
  by_contra hnameful
  have hvisible := (isBlank_eq_false_of_isNameful (Bool.not_eq_false _ |>.mp hnameful)).1
  exact absurd (hvisible.symm.trans ha) (by decide)

theorem numberNext_append (cs behind : List Char) :
    numberNext (cs ++ a :: behind) = ((numberNext cs).1, (numberNext cs).2 ++ a :: behind) := by
  have hdigit : isDigit a = false := (Bool.or_eq_false_iff.mp (not_nameful_of_isBlank ha)).2
  have hpoint : a ≠ '.' := by
    rintro rfl
    cases ha
  simp only [numberNext, takeWhile_append_of_stop hdigit, dropWhile_append_of_stop hdigit]
  cases cs.dropWhile isDigit with
  | nil => simp [hpoint]
  | cons c rest =>
    by_cases hc : c = '.'
    · subst hc
      cases rest with
      | nil => simp [hdigit]
      | cons d rest =>
        simp only [List.cons_append]
        split
        · rw [← List.cons_append, takeWhile_append_of_stop hdigit, dropWhile_append_of_stop hdigit]
        · rfl
    · simp [hc]

theorem wordNext_append (cs behind : List Char) :
    wordNext (cs ++ a :: behind) = ((wordNext cs).1, (wordNext cs).2 ++ a :: behind) := by
  have hstop := not_nameful_of_isBlank ha
  simp only [wordNext, takeWhile_append_of_stop (p := fun c => isLetter c || isDigit c) hstop,
    dropWhile_append_of_stop (p := fun c => isLetter c || isDigit c) hstop]

theorem operator?_append (cs behind : List Char) : operator? (cs ++ a :: behind) = operator? cs := by
  unfold operator?
  refine List.find?_congr fun entry hentry => ?_
  have hmem : a ∉ entry.1 := fun hmem =>
    absurd ((mark_of_mem_operators entry hentry a hmem).1.symm.trans ha) (by decide)
  exact isPrefixOf_append_of_stop hmem cs behind

/-- A piece that is closed does not go past a blank character behind it, unless it is a line comment
and the text ends in it. -/
theorem next_append_blank {c : Char} {cs : List Char} (h : (next c cs).1.isOpen = false)
    (hline : ∀ text, next c cs = (lineComment text, []) → isCommentary a = false)
    (behind : List Char) :
    next c (cs ++ a :: behind) = ((next c cs).1, (next c cs).2 ++ a :: behind) := by
  have hhead (d : Char) (hd : isBlank d = false) :
      (cs ++ a :: behind).head? = some d ↔ cs.head? = some d := by
    have hne : a ≠ d := fun had => absurd (ha.symm.trans (had ▸ hd)) (by decide)
    cases cs <;> simp [hne]
  revert h hline
  unfold next
  simp only [hhead '/' (by decide), hhead '*' (by decide), ← List.cons_append]
  split
  · exact fun _ _ => rfl
  split
  · intro _ hline
    by_cases hrest : (c :: cs).dropWhile isCommentary = []
    · have hstop := hline _ (by rw [hrest])
      rw [takeWhile_append_of_stop hstop, dropWhile_append_of_stop hstop]
    · rw [takeWhile_append_of_stopped hrest, dropWhile_append_of_stopped hrest]
  split
  · rename_i h
    obtain ⟨d, rest, rfl⟩ : ∃ d rest, cs = d :: rest := by
      cases cs with
      | nil => cases h.2
      | cons d rest => exact ⟨d, rest, rfl⟩
    simp only [List.cons_append, List.tail_cons]
    cases hbody : commentBody? 0 rest with
    | none => nofun
    | some found =>
      intro _ _
      rw [commentBody?_append hbody]
  split
  · exact fun h _ => stringNext_append h _
  split
  · exact fun _ _ => numberNext_append ha (c :: cs) behind
  split
  · exact fun _ _ => wordNext_append ha (c :: cs) behind
  · rw [operator?_append ha]
    cases hop : operator? (c :: cs) with
    | none => exact fun _ _ => rfl
    | some entry =>
      intro _ _
      have hlength := congrArg List.length (append_of_operator? hop)
      rw [List.length_append] at hlength
      simp only [List.drop_append_of_le_length (Nat.le.intro hlength)]

end Blank

/-- A piece that is closed does not go past a newline behind it. -/
theorem next_append {c : Char} {cs : List Char} (h : (next c cs).1.isOpen = false)
    (behind : List Char) :
    next c (cs ++ '\n' :: behind) = ((next c cs).1, (next c cs).2 ++ '\n' :: behind) :=
  next_append_blank rfl h (fun _ _ => rfl) behind

/-! ### All pieces -/

/-- The number of steps that a split may take does not matter if it suffices. -/
theorem splitWithin_congr {size size' : Nat} {cs : List Char} (h : cs.length ≤ size)
    (h' : cs.length ≤ size') : splitWithin size cs = splitWithin size' cs := by
  fun_induction splitWithin size cs generalizing size' with
  | case1 => cases size' <;> rfl
  | case2 => simp at h
  | case3 size c cs ih =>
    have hless := length_next_lt c cs
    obtain ⟨size', rfl⟩ : ∃ k, size' = k + 1 := ⟨size' - 1, by simp at h'; omega⟩
    rw [List.length_cons] at h h' hless
    rw [splitWithin, ih (by omega) (show _ ≤ size' by omega)]

theorem split_cons (c : Char) (cs : List Char) :
    split (c :: cs) = (next c cs).1 :: split (next c cs).2 := by
  rw [split, List.length_cons, splitWithin]
  exact congrArg _ (splitWithin_congr (Nat.le_of_lt_succ (length_next_lt c cs)) (Nat.le_refl _))

/-- What holds of the empty text, and of a text if it holds behind its first piece, holds of all
texts. -/
@[elab_as_elim]
theorem split_induction {motive : List Char → Prop} (nil : motive [])
    (cons : ∀ c cs, motive (next c cs).2 → motive (c :: cs)) (cs : List Char) : motive cs := by
  generalize hsize : cs.length = size
  induction size using Nat.strongRecOn generalizing cs with
  | ind size ih =>
    cases cs with
    | nil => exact nil
    | cons c cs => exact cons c cs (ih _ (hsize ▸ length_next_lt c cs) _ rfl)

/-- Texts with a newline between them are split one by one, unless a piece of the first is open. -/
theorem split_append {cs : List Char} (h : ∀ p ∈ split cs, p.isOpen = false)
    (behind : List Char) :
    split (cs ++ '\n' :: behind) = split cs ++ blank '\n' :: split behind := by
  induction cs using split_induction with
  | nil => exact split_cons '\n' behind
  | cons c cs ih =>
    rw [split_cons] at h
    obtain ⟨hnext, hrest⟩ := List.forall_mem_cons.mp h
    rw [List.cons_append, split_cons, next_append hnext, split_cons, ih hrest, List.cons_append]

/-! ### Lines -/

theorem newlines_append (cs ds : List Char) : newlines (cs ++ ds) = newlines cs + newlines ds :=
  List.count_append

/-- The tokens among the pieces of a text from line `line` on, without the end of input. -/
def wordsFrom (line : Int) : List Piece → List Token
  | [] => []
  | p :: ps =>
    match p with
    | token kind lexeme literal =>
      ⟨kind, String.ofList lexeme, literal, p.lineBehind line⟩ :: wordsFrom (p.lineBehind line) ps
    | _ => wordsFrom (p.lineBehind line) ps

/-- The end of input behind the pieces of a text from line `line` on. -/
def endFrom (line : Int) (ps : List Piece) : Token :=
  ⟨.endOfInput, "", .nil, line + newlines (ps.flatMap text)⟩

theorem lineBehind_add (line : Int) (p : Piece) (ps : List Piece) :
    p.lineBehind line + newlines (ps.flatMap text) =
      line + newlines ((p :: ps).flatMap text) := by
  rw [lineBehind, List.flatMap_cons, newlines_append]
  omega

theorem endFrom_lineBehind (line : Int) (p : Piece) (ps : List Piece) :
    endFrom (p.lineBehind line) ps = endFrom line (p :: ps) := by
  rw [endFrom, lineBehind_add, endFrom]

theorem tokensFrom_eq (line : Int) (ps : List Piece) :
    tokensFrom line ps = wordsFrom line ps ++ [endFrom line ps] := by
  induction ps generalizing line with
  | nil => simp [tokensFrom, wordsFrom, endFrom, newlines]
  | cons p ps ih =>
    cases p <;> simp only [tokensFrom, wordsFrom, ih, endFrom_lineBehind, List.cons_append]

/-- Behind some pieces come the words of those that follow, on the lines where these stand. -/
theorem wordsFrom_append (line : Int) (ps qs : List Piece) :
    wordsFrom line (ps ++ qs) =
      wordsFrom line ps ++ wordsFrom (line + newlines (ps.flatMap text)) qs := by
  induction ps generalizing line with
  | nil => simp [wordsFrom, newlines]
  | cons p ps ih =>
    cases p <;> simp only [List.cons_append, wordsFrom, ih, lineBehind_add]

theorem reportsFrom_append (line : Int) (ps qs : List Piece) :
    reportsFrom line (ps ++ qs) =
      reportsFrom line ps ++ reportsFrom (line + newlines (ps.flatMap text)) qs := by
  induction ps generalizing line with
  | nil => simp [reportsFrom, newlines]
  | cons p ps ih =>
    cases p <;> simp only [List.cons_append, reportsFrom, ih, lineBehind_add]

theorem wordsFrom_cons (line : Int) (p : Piece) (ps : List Piece) :
    wordsFrom line (p :: ps) = wordsFrom line [p] ++ wordsFrom (p.lineBehind line) ps := by
  cases p <;> rfl

theorem reportsFrom_cons (line : Int) (p : Piece) (ps : List Piece) :
    reportsFrom line (p :: ps) = reportsFrom line [p] ++ reportsFrom (p.lineBehind line) ps := by
  cases p <;> rfl

theorem lineBehind_down (line : Int) (lines : Nat) (p : Piece) :
    p.lineBehind (line + lines) = p.lineBehind line + lines := by
  rw [lineBehind, lineBehind]
  omega

theorem wordsFrom_down (line : Int) (lines : Nat) (ps : List Piece) :
    wordsFrom (line + lines) ps = (wordsFrom line ps).map (.down lines) := by
  induction ps generalizing line with
  | nil => rfl
  | cons p ps ih =>
    cases p <;> simp only [wordsFrom, lineBehind_down, ih, List.map_cons, Token.down]

theorem reportsFrom_down (line : Int) (lines : Nat) (ps : List Piece) :
    reportsFrom (line + lines) ps = (reportsFrom line ps).map (.down lines) := by
  induction ps generalizing line with
  | nil => rfl
  | cons p ps ih =>
    cases p <;> simp only [reportsFrom, lineBehind_down, ih, List.map_cons, LexicalReport.down]

/-- What is left open is reported. -/
theorem isOpen_of_problems {line : Int} {ps : List Piece}
    (h : ∀ r ∈ reportsFrom line ps, r.problem ≠ .unterminatedString ∧
      r.problem ≠ .unclosedComment) : ∀ p ∈ ps, p.isOpen = false := by
  induction ps generalizing line with
  | nil => exact List.forall_mem_nil _
  | cons p ps ih =>
    cases p with
    | openString => exact absurd rfl (h _ List.mem_cons_self).1
    | openComment => exact absurd rfl (h _ List.mem_cons_self).2
    | stray =>
      exact List.forall_mem_cons.mpr ⟨rfl, ih fun r hr => h r (List.mem_cons_of_mem _ hr)⟩
    | _ => exact List.forall_mem_cons.mpr ⟨rfl, ih h⟩

/-! ### Words -/

/-- No token of a text is an end of input. -/
def IsWord : Piece → Prop
  | token kind _ _ => kind ≠ .endOfInput
  | _ => True

theorem ofWord_ne_endOfInput (word : String) : Kind.ofWord word ≠ .endOfInput := by
  have hlookup (ks : List (String × Kind)) (hks : ∀ k ∈ ks, k.2 ≠ .endOfInput) :
      (ks.lookup word).getD .identifier ≠ .endOfInput := by
    induction ks with
    | nil => nofun
    | cons k ks ih =>
      obtain ⟨hk, hks⟩ := List.forall_mem_cons.mp hks
      rw [List.lookup_cons]
      split
      · exact hk
      · exact ih hks
  exact hlookup Kind.keywords (by decide)

theorem kind_ne_endOfInput_of_mem_operators :
    ∀ entry ∈ Kind.operators, entry.2 ≠ .endOfInput := by decide

theorem isWord_numberNext (cs : List Char) : (numberNext cs).1.IsWord := by
  rw [numberNext]
  split
  · split <;> nofun
  · nofun

theorem isWord_stringNext (cs : List Char) : (stringNext cs).1.IsWord := by
  rw [stringNext]
  split
  · trivial
  · nofun

theorem isWord_next (c : Char) (cs : List Char) : (next c cs).1.IsWord := by
  unfold next
  split
  · trivial
  split
  · trivial
  split
  · split <;> trivial
  split
  · exact isWord_stringNext cs
  split
  · exact isWord_numberNext (c :: cs)
  split
  · exact ofWord_ne_endOfInput _
  split
  · rename_i h
    exact kind_ne_endOfInput_of_mem_operators _ (List.mem_of_find?_eq_some h)
  · trivial

/-- A token is taken from one of the pieces. -/
theorem piece_mem_of_mem_wordsFrom {line : Int} {ps : List Piece} {t : Token}
    (h : t ∈ wordsFrom line ps) : t.piece ∈ ps := by
  induction ps generalizing line with
  | nil => cases h
  | cons p ps ih =>
    cases p with
    | token kind lexeme literal =>
      obtain rfl | h := List.mem_cons.mp h
      · simp [Token.piece]
      · exact List.mem_cons_of_mem _ (ih h)
    | _ => exact List.mem_cons_of_mem _ (ih h)

/-- A piece that is a token is one of the words. -/
theorem exists_mem_wordsFrom {kind : Kind} {lexeme : List Char} {literal : Literal} {ps : List Piece}
    (line : Int) (h : token kind lexeme literal ∈ ps) : ∃ t ∈ wordsFrom line ps, t.kind = kind := by
  obtain ⟨front, behind, rfl⟩ := List.append_of_mem h
  rw [wordsFrom_append]
  exact ⟨_, List.mem_append_right _ List.mem_cons_self, rfl⟩

end Piece

/-! ### Texts -/

namespace Scan

/-- The tokens of a text without the end of input. -/
def words (source : String) : List Token := Piece.wordsFrom 1 (Piece.split source.toList)

/-- The end of input of a text, on its last line. -/
def ending (source : String) : Token := ⟨.endOfInput, "", .nil, 1 + Piece.newlines source.toList⟩

theorem tokens_ofText (source : String) :
    (ofText source).tokens = words source ++ [ending source] := by
  refine (Piece.tokensFrom_eq 1 _).trans ?_
  rw [Piece.endFrom, Piece.flatMap_text_split]
  rfl

/-- A token is taken from somewhere in the text. -/
theorem exists_next_of_mem_words {source : String} {t : Token} (ht : t ∈ words source) :
    ∃ c rest, c ∈ source.toList ∧ (Piece.next c rest).1 = t.piece :=
  Piece.exists_next_of_mem_splitWithin (Piece.piece_mem_of_mem_wordsFrom ht)

theorem kind_ne_endOfInput_of_mem_words {source : String} :
    ∀ t ∈ words source, t.kind ≠ .endOfInput := by
  intro t ht
  obtain ⟨c, rest, -, hnext⟩ := exists_next_of_mem_words ht
  have hword := Piece.isWord_next c rest
  rwa [hnext] at hword

/-- The words of a text are its tokens but the end of input. -/
theorem filter_tokens (source : String) :
    (ofText source).tokens.filter (fun t => t.kind ≠ .endOfInput) = words source := by
  rw [tokens_ofText, List.filter_append, List.filter_eq_self.mpr, List.filter_eq_nil_iff.mpr,
    List.append_nil]
  · intro t ht
    simp [List.mem_singleton.mp ht, ending]
  · intro t ht
    simpa using kind_ne_endOfInput_of_mem_words t ht

/-- The lines of a text that another one is put in front of are those of the other and the one of
the newline between them. -/
def linesAbove (source : String) : Nat := Piece.newlines source.toList + 1

theorem lineBehind_newline (source : String) :
    (Piece.blank '\n').lineBehind (1 + Piece.newlines source.toList) = 1 + linesAbove source := by
  rw [Piece.lineBehind, linesAbove, Int.natCast_add, ← Int.add_assoc]
  rfl

section Append

variable {p : String} (q : String)

section Closed

variable (hclosed : ∀ piece ∈ Piece.split p.toList, piece.isOpen = false)

include hclosed

theorem split_ofText_append :
    Piece.split (p ++ "\n" ++ q).toList =
      Piece.split p.toList ++ Piece.blank '\n' :: Piece.split q.toList := by
  rw [← Piece.split_append hclosed, String.toList_append, String.toList_append, List.append_assoc]
  rfl

/-- A text that leaves nothing open is put in front of another one: the words of the other follow
its own, further down. -/
theorem words_append_of_closed :
    words (p ++ "\n" ++ q) = words p ++ (words q).map (.down (linesAbove p)) := by
  rw [words, split_ofText_append q hclosed, Piece.wordsFrom_append, Piece.flatMap_text_split,
    Piece.wordsFrom, lineBehind_newline, Piece.wordsFrom_down]
  · rfl
  · exact nofun

/-- So do the reports on the other. -/
theorem reports_append_of_closed :
    (ofText (p ++ "\n" ++ q)).reports =
      (ofText p).reports ++ (ofText q).reports.map (.down (linesAbove p)) := by
  change Piece.reportsFrom 1 (Piece.split (p ++ "\n" ++ q).toList) = _
  rw [split_ofText_append q hclosed, Piece.reportsFrom_append, Piece.flatMap_text_split,
    Piece.reportsFrom, lineBehind_newline, Piece.reportsFrom_down]
  · rfl
  all_goals exact nofun

end Closed

theorem isOpen_of_reports (hp : (ofText p).reports = []) :
    ∀ piece ∈ Piece.split p.toList, piece.isOpen = false := by
  have hnone : ∀ r ∈ (ofText p).reports,
      r.problem ≠ .unterminatedString ∧ r.problem ≠ .unclosedComment := by simp [hp]
  exact Piece.isOpen_of_problems hnone

/-- If nothing is reported on the first text, then the words of the other follow its own. -/
theorem words_append (hp : (ofText p).reports = []) :
    words (p ++ "\n" ++ q) = words p ++ (words q).map (.down (linesAbove p)) :=
  words_append_of_closed q (isOpen_of_reports hp)

theorem reports_append (hp : (ofText p).reports = []) :
    (ofText (p ++ "\n" ++ q)).reports = (ofText q).reports.map (.down (linesAbove p)) := by
  rw [reports_append_of_closed q (isOpen_of_reports hp), hp, List.nil_append]

theorem ending_append (p : String) : ending (p ++ "\n" ++ q) = (ending q).down (linesAbove p) := by
  have hlines : Piece.newlines (p ++ "\n" ++ q).toList =
      Piece.newlines q.toList + linesAbove p := by
    rw [String.toList_append, String.toList_append, Piece.newlines_append, Piece.newlines_append,
      linesAbove]
    exact Nat.add_comm _ _
  rw [ending, hlines, ending, Token.down, Int.natCast_add, Int.add_assoc]

/-- A text that leaves no string and no comment open, whatever else is wrong with it, is scanned on
its own if another one follows behind a newline: all tokens of the other and the reports on it come
behind its own, further down by its newlines and the one between them. -/
theorem tokens_and_reports_append (hp : ∀ r ∈ (ofText p).reports,
      r.problem ≠ .unterminatedString ∧ r.problem ≠ .unclosedComment) :
    (ofText (p ++ "\n" ++ q)).tokens =
        (ofText p).tokens.filter (fun t => t.kind ≠ .endOfInput) ++
          (ofText q).tokens.map (.down (Piece.newlines p.toList + 1)) ∧
      (ofText (p ++ "\n" ++ q)).reports =
        (ofText p).reports ++
          (ofText q).reports.map (.down (Piece.newlines p.toList + 1)) := by
  have hclosed := Piece.isOpen_of_problems hp
  refine ⟨?_, reports_append_of_closed q hclosed⟩
  rw [tokens_ofText, words_append_of_closed q hclosed, ending_append, filter_tokens, tokens_ofText,
    List.map_append, List.append_assoc]
  rfl

/-- The first text ends in a number, and a point that a digit would follow but for the newline. -/
theorem tokens_and_reports_append_point :
    (∀ r ∈ (ofText "# /* 1\n */ 2.").reports,
        r.problem ≠ .unterminatedString ∧ r.problem ≠ .unclosedComment) ∧
      (ofText "# /* 1\n */ 2.\n5 @ \"").tokens =
        (ofText "# /* 1\n */ 2.").tokens.filter (fun t => t.kind ≠ .endOfInput) ++
          (ofText "5 @ \"").tokens.map (.down 2) ∧
      (ofText "# /* 1\n */ 2.\n5 @ \"").reports =
        [⟨1, .unexpectedCharacter '#'⟩, ⟨3, .unexpectedCharacter '@'⟩,
          ⟨3, .unterminatedString⟩] := by
  have hp : ∀ r ∈ (ofText "# /* 1\n */ 2.").reports,
      r.problem ≠ .unterminatedString ∧ r.problem ≠ .unclosedComment := by decide +kernel
  obtain ⟨htokens, hreports⟩ := tokens_and_reports_append "5 @ \"" hp
  exact ⟨hp, htokens, hreports.trans (by decide +kernel)⟩

end Append

end Scan

end Lox
