import Lox.Proofs.Grammar.Composition
import Lox.Proofs.Token.Line

/-!
# Where tokens come from

The tokens of a text stand on its lines, and so does what the scanner reports. The readers make no
tokens: the trees of a program and the syntax reports on it hold tokens of the text only. This need
not be traced through the readers, since it does not matter to them which tokens they read. If all
tokens but those of the text were moved, the same text would be read, and so the same trees.

## Main definitions

* `Scan.IsLine`: the lines of a text.
* `Node.tokens`: the tokens that a tree is made of.

## Main results

* `Scan.isLine_of_mem_tokens`, `Scan.isLine_of_mem_reports`: a scan stays on the lines of its text.
* `Program.tokens_subset`: the trees of a program are made of the tokens of the text.
* `Program.isLine_of_mem_diagnostics`: what is reported on a text names a line of it.
-/

namespace Lox

/-! ### Lines -/

namespace Scan

/-- The lines of a text are counted from one, and a newline begins another one. -/
def IsLine (source : String) (line : Int) : Prop :=
  1 ≤ line ∧ line ≤ 1 + Piece.newlines source.toList

variable {source : String}

theorem isLine_of_mem_tokens {t : Token} (h : t ∈ (ofText source).tokens) :
    IsLine source t.line := by
  have hlines := Piece.line_of_mem_tokensFrom h
  rwa [Piece.flatMap_text_split] at hlines

theorem isLine_of_mem_reports {r : LexicalReport} (h : r ∈ (ofText source).reports) :
    IsLine source r.line := by
  have hlines := Piece.line_of_mem_reportsFrom h
  rwa [Piece.flatMap_text_split] at hlines

end Scan

/-! ### The tokens of a tree -/

namespace Node

mutual

/-- The tokens that a tree is made of. -/
def tokens : Node → List Token
  | literal _ | absent => []
  | reference t | stray t | declare t none | returning t none => [t]
  | grouping n | expression n | print n => tokens n
  | unary t n | assign t n | declare t (some n) | returning t (some n) => t :: tokens n
  | binary l t r | logical l t r => t :: (tokens l ++ tokens r)
  | ternary c question t e => question :: (tokens c ++ (tokens t ++ tokens e))
  | call c paren ns => paren :: (tokens c ++ tokensAll ns)
  | block ns => tokensAll ns
  | branch c t none => tokens c ++ tokens t
  | branch c t (some e) => tokens c ++ (tokens t ++ tokens e)
  | loop c n => tokens c ++ tokens n
  | function name params ns => name :: (params ++ tokensAll ns)

/-- The tokens that some trees are made of. -/
def tokensAll : List Node → List Token
  | [] => []
  | n :: ns => tokens n ++ tokensAll ns

end

theorem mem_tokensAll {ns : List Node} {t : Token} : t ∈ tokensAll ns ↔ ∃ n ∈ ns, t ∈ n.tokens := by
  induction ns with
  | nil => simp [tokensAll]
  | cons n ns ih => simp [tokensAll, ih]

mutual

theorem tokens_relabel (f : Token → Token) : (n : Node) → (n.relabel f).tokens = n.tokens.map f
  | literal _ | reference _ | stray _ | absent | declare _ none | returning _ none => rfl
  | grouping n | expression n | print n => by rw [relabel, tokens, tokens, tokens_relabel f n]
  | unary _ n | assign _ n | declare _ (some n) | returning _ (some n) => by
    simp only [relabel, relabelOption, tokens, tokens_relabel f n, List.map_cons]
  | binary l _ r | logical l _ r => by
    simp only [relabel, tokens, tokens_relabel f l, tokens_relabel f r, List.map_cons,
      List.map_append]
  | ternary c _ t e => by
    simp only [relabel, tokens, tokens_relabel f c, tokens_relabel f t, tokens_relabel f e,
      List.map_cons, List.map_append]
  | call c _ ns => by
    simp only [relabel, tokens, tokens_relabel f c, tokensAll_relabel f ns, List.map_cons,
      List.map_append]
  | block ns => by rw [relabel, tokens, tokens, tokensAll_relabel f ns]
  | branch c t none => by
    simp only [relabel, relabelOption, tokens, tokens_relabel f c, tokens_relabel f t,
      List.map_append]
  | branch c t (some e) => by
    simp only [relabel, relabelOption, tokens, tokens_relabel f c, tokens_relabel f t,
      tokens_relabel f e, List.map_append]
  | loop c n => by
    simp only [relabel, tokens, tokens_relabel f c, tokens_relabel f n, List.map_append]
  | function _ params ns => by
    simp only [relabel, tokens, tokensAll_relabel f ns, List.map_cons, List.map_append]

theorem tokensAll_relabel (f : Token → Token) :
    (ns : List Node) → tokensAll (relabelAll f ns) = (tokensAll ns).map f
  | [] => rfl
  | n :: ns => by
    simp only [relabelAll, tokensAll, tokens_relabel f n, tokensAll_relabel f ns, List.map_append]

end

/-- A tree that a relabeling leaves as it is has no token that is exchanged. -/
theorem eq_of_relabel_eq {f : Token → Token} {n : Node} (h : n.relabel f = n) {t : Token}
    (ht : t ∈ n.tokens) : f t = t := by
  have htokens : n.tokens.map f = n.tokens.map id := by rw [← tokens_relabel, h, List.map_id]
  exact List.map_inj_left.mp htokens t ht

end Node

/-! ### Reading -/

/-- All tokens but some are moved to the next line. -/
def Token.unless (ts : List Token) (t : Token) : Token := if t ∈ ts then t else t.down 1

theorem Token.relabeling_unless (ts : List Token) : Relabeling (Token.unless ts) where
  kind t := by
    rw [Token.unless]
    split <;> rfl
  literal t := by
    rw [Token.unless]
    split <;> rfl

/-- A token that is not moved is one of these. -/
theorem Token.mem_of_unless_eq {ts : List Token} {t : Token} (h : t.unless ts = t) : t ∈ ts := by
  by_contra hmem
  have hline : t.line + 1 = t.line := by
    rw [Token.unless, if_neg hmem] at h
    exact congrArg Token.line h
  omega

/-- What is read is made of the tokens that are read, and so is what is reported. -/
theorem Parse.program_tokens {ts : List Token} (hts : ∃ t ∈ ts, t.kind = .endOfInput)
    {ns : List Node} {reports : List SyntaxReport} {rest : List Token}
    (h : program ts = .done ns reports rest) :
    (∀ n ∈ ns, n.tokens ⊆ ts) ∧ ∀ r ∈ reports, r.token ∈ ts := by
  have hrelabel := program_relabel (Token.relabeling_unless ts) hts h
  have hkept : ts.map (Token.unless ts) = ts.map id :=
    List.map_congr_left fun t ht => if_pos ht
  rw [hkept, List.map_id, h] at hrelabel
  obtain ⟨hns, hreports, -⟩ := Parsed.done.inj hrelabel
  have hsame := List.map_inj_left.mp (hns.symm.trans (List.map_id ns).symm)
  have hsame' := List.map_inj_left.mp (hreports.symm.trans (List.map_id reports).symm)
  refine ⟨fun n hn t ht => ?_, fun r hr => ?_⟩
  · exact Token.mem_of_unless_eq (Node.eq_of_relabel_eq (hsame n hn) ht)
  · exact Token.mem_of_unless_eq (congrArg SyntaxReport.token (hsame' r hr))

namespace Program

variable {source : String}

/-- The trees of a program are made of the tokens of the text. -/
theorem tokens_subset :
    ∀ n ∈ (ofText source).statements, n.tokens ⊆ (Scan.ofText source).tokens := by
  have hend := Scan.endOfInput_mem_tokens source
  obtain ⟨ns, reports, e, rest, hres, -, -⟩ := Parse.program_total hend
  have hstatements : (ofText source).statements = ns := by
    rw [ofText, ofScan, hres]
    rfl
  rw [hstatements]
  exact (Parse.program_tokens hend hres).1

/-- What is reported on a text, by the scanner or by a reader, names a line of it. -/
theorem isLine_of_mem_diagnostics {d : Diagnostic} (h : d ∈ (ofText source).diagnostics) :
    ∃ line place message, d = .static line place message ∧ Scan.IsLine source line := by
  have hend := Scan.endOfInput_mem_tokens source
  obtain ⟨ns, reports, e, rest, hres, -, -⟩ := Parse.program_total hend
  have hdiagnostics : (ofText source).diagnostics =
      (Scan.ofText source).diagnostics ++ reports.map .ofSyntax := by
    rw [ofText, ofScan, hres]
    rfl
  rw [hdiagnostics] at h
  obtain h | h := List.mem_append.mp h
  · obtain ⟨r, hr, rfl⟩ := List.mem_map.mp h
    exact ⟨_, _, _, rfl, Scan.isLine_of_mem_reports hr⟩
  · obtain ⟨r, hr, rfl⟩ := List.mem_map.mp h
    exact ⟨_, _, _, rfl, Scan.isLine_of_mem_tokens ((Parse.program_tokens hend hres).2 r hr)⟩

end Program

end Lox
