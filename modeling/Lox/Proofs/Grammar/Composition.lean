import Lox.Grammar
import Lox.Proofs.Grammar.Sequence
import Lox.Proofs.Token.Seam

/-!
# Programs made of texts

A program that is read without a report can be put in front of another one, with a newline between
them: the declarations of the two follow one another, those of the second further down. An
expression that is read without a report can be printed: between the keyword and a semicolon on a
line of its own it is read as the same tree.

## Main definitions

* `Node.down`, `lowered`: a tree and a text so many lines further down.

## Main results

* `Program.ofText_append`: two programs as one text.
* `Program.ofText_lowered`: a program further down.
* `Program.ofText_printing`: an expression in a program that prints it.
-/

namespace Lox

/-- A tree so many lines further down. -/
def Node.down (lines : Nat) (n : Node) : Node := n.relabel (.down lines)

theorem Token.relabeling_down (lines : Nat) : Relabeling (Token.down lines) :=
  ⟨fun _ => rfl, fun _ => rfl⟩

/-! ### Texts and phrases -/

/-- An end of input can stand nowhere but behind the words of a text. -/
theorem eq_of_append_ending {ts us rest : List Token} {e e' : Token}
    (hts : ∀ t ∈ ts, t.kind ≠ .endOfInput) (he : e.kind = .endOfInput)
    (h : ts ++ [e'] = us ++ e :: rest) : us = ts ∧ rest = [] := by
  obtain ⟨ws, rfl, hws⟩ | ⟨ws, rfl, hws⟩ := List.append_eq_append_iff.mp h
  · cases ws with
    | nil =>
      obtain ⟨-, rfl⟩ := List.cons.inj hws
      exact ⟨List.append_nil ts, rfl⟩
    | cons w ws => simp at hws
  · cases ws with
    | nil =>
      obtain ⟨-, rfl⟩ := List.cons.inj hws
      exact ⟨(List.append_nil us).symm, rfl⟩
    | cons w ws =>
      obtain ⟨rfl, -⟩ := List.cons.inj hws
      exact absurd he (hts _ (by simp))

theorem Scan.endOfInput_mem_tokens (source : String) :
    ∃ t ∈ (Scan.ofText source).tokens, t.kind = .endOfInput :=
  ⟨Scan.ending source, by simp [Scan.tokens_ofText], rfl⟩

namespace Program

variable {source : String} {ns : List Node}

theorem ofText_eq (hscan : (Scan.ofText source).reports = []) {reports : List SyntaxReport}
    {rest : List Token} (hres : Parse.program (Scan.ofText source).tokens = .done ns reports rest) :
    ofText source = ⟨ns, reports.map .ofSyntax⟩ := by
  rw [ofText, ofScan, hres, Scan.diagnostics, hscan]
  rfl

/-- A text that is read without a report is a list of phrases. -/
theorem spells_of_diagnostics (h : (ofText source).diagnostics = []) :
    (Scan.ofText source).reports = [] ∧
      Statement.Spells .declarations (ofText source).statements (Scan.words source) := by
  obtain ⟨hscan, hparse⟩ := List.append_eq_nil_iff.mp h
  refine ⟨List.map_eq_nil_iff.mp hscan, ?_⟩
  obtain ⟨ns, reports, e, rest, hres, he, -⟩ :=
    Parse.program_total (Scan.endOfInput_mem_tokens source)
  have hstatements : (ofText source).statements = ns := by rw [ofText, ofScan, hres]; rfl
  rw [hres] at hparse
  obtain rfl : reports = [] := List.map_eq_nil_iff.mp hparse
  obtain ⟨us, hsplit, hspells, -⟩ := Statement.spells_of_reads hres
  rw [Scan.tokens_ofText] at hsplit
  obtain ⟨rfl, -⟩ := eq_of_append_ending Scan.kind_ne_endOfInput_of_mem_words he hsplit
  rwa [hstatements]

/-- A list of phrases is read without a report. -/
theorem reads_of_spells (h : Statement.Spells .declarations ns (Scan.words source)) :
    Parse.program.Reads (Scan.ofText source).tokens ns [Scan.ending source] := by
  rw [Scan.tokens_ofText]
  exact h.reads (by simp [Scan.ending])

/-! ### Two programs -/

/-- Two programs that are read without a report are so as one text: the declarations of the first
come first, those of the second stand further down. The second cannot begin with an `else` that the
first might take. -/
theorem ofText_append {p q : String} (hp : (ofText p).diagnostics = [])
    (hq : (ofText q).diagnostics = []) :
    ofText (p ++ "\n" ++ q) = ⟨(ofText p).statements ++
      (ofText q).statements.map (.down (Scan.linesAbove p)), []⟩ := by
  obtain ⟨hscanp, hspellsp⟩ := spells_of_diagnostics hp
  obtain ⟨hscanq, hspellsq⟩ := spells_of_diagnostics hq
  have hscan : (Scan.ofText (p ++ "\n" ++ q)).reports = [] := by
    rw [Scan.reports_append q hscanp, hscanq]
    rfl
  have hsplit : (Scan.ofText (p ++ "\n" ++ q)).tokens =
      Scan.words p ++ (Scan.ofText q).tokens.map (.down (Scan.linesAbove p)) := by
    rw [Scan.tokens_ofText, Scan.words_append q hscanp, Scan.ending_append, Scan.tokens_ofText,
      List.map_append, List.append_assoc]
    rfl
  have hbehind := Parse.program_relabel (Token.relabeling_down (Scan.linesAbove p))
    (Scan.endOfInput_mem_tokens q) (reads_of_spells hspellsq)
  have hstarts : StartsOutside [.kwElse] (Scan.ofText q).tokens := by
    rw [Scan.tokens_ofText]
    exact hspellsq.startsOutside_declarations (by simp [Scan.ending])
  have hrest : StartsOutside [.kwElse]
      ((Scan.ofText q).tokens.map (.down (Scan.linesAbove p))) := by
    generalize (Scan.ofText q).tokens = ts at hstarts ⊢
    cases ts with
    | nil => exact hstarts
    | cons t ts => exact hstarts
  have hread := hspellsp.upTo_append hrest (fun _ => Parse.upTo_declaration hbehind) _
    (Nat.le_succ _)
  rw [← hsplit] at hread
  exact ofText_eq hscan hread

end Program

/-! ### A program further down -/

/-- A text of nothing but newlines. -/
def newlines (lines : Nat) : String := String.ofList (List.replicate lines '\n')

/-- A text so many lines further down. -/
def lowered (lines : Nat) (text : String) : String := newlines lines ++ text

theorem newlines_succ (lines : Nat) : newlines (lines + 1) = newlines lines ++ "\n" := by
  rw [newlines, List.replicate_succ', String.ofList_append]
  rfl

theorem Scan.newlines_blank (lines : Nat) :
    (ofText (newlines lines)).reports = [] ∧ words (newlines lines) = [] := by
  induction lines with
  | zero => exact ⟨rfl, rfl⟩
  | succ lines ih =>
    have happend : newlines (lines + 1) = newlines lines ++ "\n" ++ "" := by
      rw [newlines_succ, String.append_empty]
    rw [happend, reports_append "" ih.1, words_append "" ih.1, ih.2]
    exact ⟨rfl, rfl⟩

theorem Scan.linesAbove_newlines (lines : Nat) : linesAbove (newlines lines) = lines + 1 := by
  rw [linesAbove, newlines, String.toList_ofList, Piece.newlines, List.count_replicate_self]

theorem Node.down_zero : Node.down 0 = id := by
  have hdown : Token.down 0 = id := funext fun t => by simp [Token.down]
  exact funext fun n => by rw [down, hdown, relabel_id, id]

/-- A program that is read without a report is read as the same declarations further down. -/
theorem Program.ofText_lowered {q : String} (hq : (ofText q).diagnostics = []) (lines : Nat) :
    ofText (lowered lines q) = ⟨(ofText q).statements.map (.down lines), []⟩ := by
  cases lines with
  | zero =>
    have hsame : lowered 0 q = q := String.empty_append
    rw [hsame, Node.down_zero, List.map_id, ← hq]
  | succ lines =>
    obtain ⟨hreports, hwords⟩ := Scan.newlines_blank lines
    have hnothing : ofText (newlines lines) = ⟨[], []⟩ :=
      ofText_eq hreports (reads_of_spells (by rw [hwords]; exact .nil))
    have happend := ofText_append (p := newlines lines) (by rw [hnothing]) hq
    rw [hnothing, Scan.linesAbove_newlines, ← newlines_succ] at happend
    exact happend

/-- Trees with relabeled tokens depend on nothing but the tokens of the text. -/
theorem Program.map_relabel_congr {f g : Token → Token} (hf : Relabeling f) (hg : Relabeling g)
    {q : String} (hq : (ofText q).diagnostics = [])
    (h : ∀ t ∈ (Scan.ofText q).tokens, f t = g t) :
    (ofText q).statements.map (Node.relabel f) = (ofText q).statements.map (Node.relabel g) := by
  have hread := reads_of_spells (spells_of_diagnostics hq).2
  have hrelabel := Parse.program_relabel hf (Scan.endOfInput_mem_tokens q) hread
  rw [List.map_congr_left h] at hrelabel
  have hsame := hrelabel.symm.trans
    (Parse.program_relabel hg (Scan.endOfInput_mem_tokens q) hread)
  exact (Parsed.done.inj hsame).1

/-! ### An expression that is printed -/

/-- An expression that is read without a report is a phrase. -/
theorem Fragment.spells_of_diagnostics {text : String} {n : Node}
    (hn : (ofText text).expression = some n) (h : (ofText text).diagnostics = []) :
    (Scan.ofText text).reports = [] ∧ Expression.Spells .assignment [n] (Scan.words text) := by
  obtain ⟨hscan, hparse⟩ := List.append_eq_nil_iff.mp h
  refine ⟨List.map_eq_nil_iff.mp hscan, ?_⟩
  have hread : ∃ rest, Parse.onlyExpression.Reads (Scan.ofText text).tokens n rest := by
    change (Parse.onlyExpression (Scan.ofText text).tokens).value? = some n at hn
    cases hres : Parse.onlyExpression (Scan.ofText text).tokens with
    | stopped => rw [hres] at hn; cases hn
    | done a reports rest =>
      rw [hres] at hn hparse
      cases hn
      obtain rfl : reports = [] := List.map_eq_nil_iff.mp hparse
      exact ⟨rest, hres⟩
  obtain ⟨rest, hread⟩ := hread
  obtain ⟨e, mid, hexpression, hrest⟩ := Parse.reads_bind.mp hread
  obtain ⟨t, back, rfl, ht, hrest⟩ | ⟨-, hrest⟩ := Parse.reads_check_bind.mp hrest
  · obtain ⟨rfl, -⟩ := Parse.reads_pure.mp hrest
    obtain ⟨us, hsplit, hspells⟩ := Expression.spells_of_reads hexpression
    rw [Scan.tokens_ofText] at hsplit
    obtain ⟨rfl, -⟩ := eq_of_append_ending Scan.kind_ne_endOfInput_of_mem_words
      (List.mem_singleton.mp ht) hsplit
    exact hspells
  · exact absurd hrest Parse.not_reads_reject

/-- The keyword in front of a text that is to be printed. -/
def printKeyword : Token := ⟨.kwPrint, "print", .nil, 1⟩

theorem Scan.split_print (text : String) :
    Piece.split ("print " ++ text).toList =
      .token .kwPrint "print".toList .nil :: .blank ' ' :: Piece.split text.toList := by
  have hword : Piece.next 'p' ("rint ".toList ++ text.toList) =
      (.token .kwPrint "print".toList .nil, ' ' :: text.toList) := by
    rfl
  have hblank : Piece.next ' ' text.toList = (.blank ' ', text.toList) := rfl
  have happend : ("print " ++ text).toList = 'p' :: ("rint ".toList ++ text.toList) := by
    rw [String.toList_append]
    rfl
  rw [happend, Piece.split_cons, hword, Piece.split_cons, hblank]

theorem Scan.words_print (text : String) :
    words ("print " ++ text) = printKeyword :: words text := by
  rw [words, split_print]
  rfl

theorem Scan.reports_print (text : String) :
    (ofText ("print " ++ text)).reports = (ofText text).reports := by
  change Piece.reportsFrom 1 (Piece.split ("print " ++ text).toList) = _
  rw [split_print]
  rfl

/-- A semicolon on a line of its own behind a text is one more word, and nothing is reported on
it. -/
theorem Scan.ended {text : String} (h : (ofText text).reports = []) :
    (ofText (text ++ "\n" ++ ";")).reports = [] ∧
      ∃ t, t.kind = .semicolon ∧ words (text ++ "\n" ++ ";") = words text ++ [t] := by
  rw [reports_append ";" h, words_append ";" h]
  exact ⟨rfl, _, rfl, rfl⟩

/-- The text of a program that prints the value of an expression. -/
def printing (text : String) : String := "print " ++ text ++ "\n;"

/-- An expression that is read without a report is read as the same tree in a program that prints
it. -/
theorem Program.ofText_printing {text : String} {n : Node}
    (hn : (Fragment.ofText text).expression = some n)
    (h : (Fragment.ofText text).diagnostics = []) : ofText (printing text) = ⟨[.print n], []⟩ := by
  obtain ⟨hscan, hspells⟩ := Fragment.spells_of_diagnostics hn h
  have hprinting : printing text = "print " ++ text ++ "\n" ++ ";" := by
    rw [printing, String.append_assoc, String.append_assoc, String.append_assoc]
    rfl
  have hfront : (Scan.ofText ("print " ++ text)).reports = [] := by rw [Scan.reports_print, hscan]
  obtain ⟨hreports, semicolon, hsemicolon, hwords⟩ := Scan.ended hfront
  rw [← hprinting] at hreports hwords
  rw [Scan.words_print, List.cons_append] at hwords
  have hprint : Statement.Spells (.statement false) [.print n] (Scan.words (printing text)) := by
    rw [hwords]
    exact .print rfl ⟨Scan.words text, semicolon, rfl, hsemicolon, hspells⟩
  refine ofText_eq hreports (reads_of_spells ?_)
  rw [← List.append_nil (Scan.words (printing text))]
  exact .cons (.statement hprint) .nil

end Lox
