import Lox.Proofs.Execution.Layout
import Lox.Proofs.Grammar.Composition
import Lox.Proofs.Grammar.Proper
import Lox.Proofs.Rendering.Word
import Lox.Proofs.Token.Respacing

/-!
# Legible trees

What a rendering shows of a token is its lexeme, and the lexemes of a scanned text tell the rest of
a token but its line. A few tokens are not shown at all, since every tree of a form has the same
ones. In the trees of phrases each token is a name or an operator where the form of the tree asks
for one, and constants are those that were written: such trees are legible.

## Main definitions

* `Token.ofLexeme`: a token as its lexeme tells it.
* `Node.shown`: what of a tree is to be told from a rendering.
* `Node.LegibleExpression`, `Node.LegibleStatement`: trees that can be told from their renderings.

## Main results

* `Expression.Spells.legible`, `Statement.Spells.legible`: the trees of phrases are legible.
-/

namespace Lox

/-! ### Reserved words and operators -/

namespace Kind

/-- The words that are reserved or written as operators. -/
def spellings : List (String × Kind) :=
  operators.map (fun (spelling, kind) => (String.ofList spelling, kind)) ++ keywords

theorem lookup_of_mem_spellings : ∀ entry ∈ spellings, spellings.lookup entry.1 = some entry.2 := by
  decide

/-- The kinds of lexemes of which there are many. -/
def isOpen : Kind → Bool
  | identifier | string | number => true
  | _ => false

theorem isOpen_of_mem_spellings : ∀ entry ∈ spellings, entry.2.isOpen = false := by decide

end Kind

namespace Lexeme

variable {w : List Char} {kind : Kind} {literal : Literal}

/-- What is reserved or written as an operator is in the list. -/
theorem mem_spellings (h : Lexeme w kind literal) (hkind : kind.isOpen = false) :
    (String.ofList w, kind) ∈ Kind.spellings ∧ literal = .nil := by
  cases h with
  | operator hmem => exact ⟨List.mem_append_left _ (List.mem_map_of_mem hmem), rfl⟩
  | keyword _ hmem => exact ⟨List.mem_append_right _ hmem, rfl⟩
  | string | number | identifier => cases hkind

instance : (w : List Char) → Decidable (IsName w)
  | [] => inferInstanceAs (Decidable False)
  | c :: cs =>
    letI := List.decidableBAll (fun d => (Piece.isLetter d || Piece.isDigit d) = true) cs
    inferInstanceAs
      (Decidable (Piece.isLetter c = true ∧ ∀ d ∈ cs, (Piece.isLetter d || Piece.isDigit d) = true))

theorem isName_of_mem_keywords : ∀ entry ∈ Kind.keywords, IsName entry.1.toList := by decide

theorem of_mem_spellings {word : String} (h : (word, kind) ∈ Kind.spellings) :
    Lexeme word.toList kind .nil := by
  obtain hmem | hmem := List.mem_append.mp h
  · obtain ⟨⟨spelling, kind'⟩, hmem, heq⟩ := List.mem_map.mp hmem
    cases heq
    rw [String.toList_ofList]
    exact .operator hmem
  · refine .keyword (isName_of_mem_keywords _ hmem) ?_
    rwa [String.ofList_toList]

/-- The lexemes of the other kinds. -/
theorem open_cases (h : Lexeme w kind literal) (hkind : kind.isOpen = true) :
    kind = .string ∨ (kind = .number ∧ ∃ d, literal = .number (.ofDecimal d)) ∨
      (kind = .identifier ∧ IsName w ∧ literal = .nil) := by
  have hlisted : (String.ofList w, kind) ∉ Kind.spellings := fun hmem =>
    absurd hkind (Bool.eq_false_iff.mp (Kind.isOpen_of_mem_spellings _ hmem))
  cases h with
  | operator hmem => exact absurd (List.mem_append_left _ (List.mem_map_of_mem hmem)) hlisted
  | keyword _ hmem => exact absurd (List.mem_append_right _ hmem) hlisted
  | string => exact .inl rfl
  | number => exact .inr (.inl ⟨rfl, _, rfl⟩)
  | identifier hname => exact .inr (.inr ⟨rfl, hname, rfl⟩)

/-- An identifier is not in the list. -/
theorem not_mem_of_identifier (h : Lexeme w .identifier literal) (kind : Kind) :
    (String.ofList w, kind) ∉ Kind.spellings := by
  intro hmem
  have hspelled := of_mem_spellings hmem
  rw [String.toList_ofList] at hspelled
  have hopen := Kind.isOpen_of_mem_spellings _ hmem
  rw [← (h.unique hspelled).1] at hopen
  cases hopen

end Lexeme

/-! ### Tokens and their lexemes -/

/-- Numbers that are too large to be finite. -/
def Literal.isInfinite : Literal → Bool
  | .number n => n.value.isInf
  | _ => false

/-- A token as its lexeme tells it, if that is neither a number nor a string. -/
def Token.ofLexeme (lexeme : String) : Token :=
  ⟨(Kind.spellings.lookup lexeme).getD .identifier, lexeme, .nil, 0⟩

namespace Token

/-- Tokens of a text without strings and without numbers that are too large to be finite. -/
structure IsShown (t : Token) : Prop where
  lexeme : Lexeme t.lexeme.toList t.kind t.literal
  not_string : t.kind ≠ .string
  finite : t.literal.isInfinite = false

/-- A name. -/
structure Names (t : Token) : Prop where
  told : t.withoutLine = .ofLexeme t.lexeme
  isName : IsName t.lexeme.toList
  notReserved : t.lexeme ∉ Kind.spellings.map Prod.fst

/-- An operator that is one of some words. -/
structure Operates (words : List String) (t : Token) : Prop where
  told : t.withoutLine = .ofLexeme t.lexeme
  mem : t.lexeme ∈ words

variable {t : Token}

theorem Names.isShown (h : t.Names) : (Word.written t.lexeme).IsShown := by
  have hconstants : ∀ word ∈ Word.constants, word ∈ Kind.spellings.map Prod.fst := by decide
  exact .name h.isName fun hconstant => h.notReserved (hconstants _ hconstant)

namespace IsShown

/-- A token of certain kinds is one of the words that are spelled so. -/
theorem operates (h : t.IsShown) {kinds : List Kind} {words : List String} (hkind : t.kind ∈ kinds)
    (hkinds : ∀ kind ∈ kinds, kind.isOpen = false)
    (hwords : ∀ entry ∈ Kind.spellings, entry.2 ∈ kinds → entry.1 ∈ words) : t.Operates words := by
  obtain ⟨hmem, hliteral⟩ := h.lexeme.mem_spellings (hkinds _ hkind)
  rw [String.ofList_toList] at hmem
  refine ⟨?_, hwords _ hmem hkind⟩
  rw [ofLexeme, Kind.lookup_of_mem_spellings _ hmem, withoutLine, ← hliteral]
  rfl

theorem names (h : t.IsShown) (hkind : t.kind = .identifier) : t.Names := by
  have hlexeme := h.lexeme
  rw [hkind] at hlexeme
  obtain ⟨⟨⟩⟩ | ⟨⟨⟩, -⟩ | ⟨-, hname, hliteral⟩ := hlexeme.open_cases rfl
  have hfree := hlexeme.not_mem_of_identifier
  rw [String.ofList_toList] at hfree
  have hlookup : Kind.spellings.lookup t.lexeme = none := by
    rw [List.lookup_eq_none_iff]
    rintro ⟨other, kind⟩ hmem
    rw [bne_iff_ne]
    rintro rfl
    exact hfree kind hmem
  refine ⟨?_, hname, fun hreserved => ?_⟩
  · rw [ofLexeme, hlookup, withoutLine, hkind, hliteral]
    rfl
  · obtain ⟨⟨_, kind⟩, hmem, heq⟩ := List.mem_map.mp hreserved
    exact hfree kind (heq ▸ hmem)

/-- Constants are those that are written. -/
theorem isShown_constant (h : t.IsShown) {v : Literal} (hv : t.constant? = some v) :
    v.IsShown := by
  obtain ⟨-, rfl⟩ | ⟨-, rfl⟩ | ⟨-, rfl⟩ | ⟨hkind, rfl⟩ | ⟨hkind, -⟩ := Token.constant?_cases hv
  · trivial
  · trivial
  · trivial
  · have hlexeme := h.lexeme
    rw [hkind] at hlexeme
    obtain ⟨⟨⟩⟩ | ⟨-, d, hliteral⟩ | ⟨⟨⟩, -⟩ := hlexeme.open_cases rfl
    have hfinite := h.finite
    rw [hliteral] at hfinite ⊢
    exact ⟨rfl, Number.isFinite_of_not (Number.isNaN_toFloat d) hfinite⟩
  · exact absurd hkind h.not_string

end IsShown

end Token

/-! ### Trees -/

/-- What goes through a list entry by entry is a map. -/
theorem eq_map_of_cons {α β : Type} {f : α → β} {g : List α → List β} (hnil : g [] = [])
    (hcons : ∀ a as, g (a :: as) = f a :: g as) (as : List α) : g as = as.map f := by
  induction as with
  | nil => exact hnil
  | cons a as ih => rw [hcons, ih, List.map_cons]

/-- What stands for a token that is not shown. -/
def Token.unshown : Token := ⟨.endOfInput, "", .nil, 0⟩

namespace Node

mutual

/-- What of a tree is to be told from a rendering: its tokens without their lines, except for the
parentheses of calls, question marks, and the keywords of return statements. -/
def shown : Node → Node
  | literal value => literal value
  | grouping inner => grouping inner.shown
  | unary operator operand => unary operator.withoutLine operand.shown
  | binary left operator right => binary left.shown operator.withoutLine right.shown
  | logical left operator right => logical left.shown operator.withoutLine right.shown
  | ternary condition _ thenBranch elseBranch =>
    ternary condition.shown .unshown thenBranch.shown elseBranch.shown
  | reference name => reference name.withoutLine
  | assign name value => assign name.withoutLine value.shown
  | call callee _ arguments => call callee.shown .unshown (shownAll arguments)
  | expression inner => expression inner.shown
  | print inner => print inner.shown
  | declare name initializer => declare name.withoutLine (shownOption initializer)
  | block statements => block (shownAll statements)
  | branch condition thenBranch elseBranch =>
    branch condition.shown thenBranch.shown (shownOption elseBranch)
  | loop condition body => loop condition.shown body.shown
  | function name params body =>
    function name.withoutLine (params.map Token.withoutLine) (shownAll body)
  | returning _ value => returning .unshown (shownOption value)
  | stray token => stray token.withoutLine
  | absent => absent

/-- What of a tree is to be told, if there is one. -/
def shownOption : Option Node → Option Node
  | none => none
  | some n => some n.shown

/-- What of some trees is to be told. -/
def shownAll : List Node → List Node
  | [] => []
  | n :: ns => n.shown :: shownAll ns

end

@[simp]
theorem shownOption_eq (o : Option Node) : shownOption o = o.map shown := by
  cases o <;> rfl

@[simp]
theorem shownAll_eq (ns : List Node) : shownAll ns = ns.map shown :=
  eq_map_of_cons rfl (fun _ _ => rfl) ns

/-- The operators of one operand, of two operands, and those that may leave the second one out. -/
def unaryWords : List String := ["!", "-"]

@[inherit_doc unaryWords]
def binaryWords : List String := ["!=", "==", ">", ">=", "<", "<=", "-", "+", "/", "*"]

@[inherit_doc unaryWords]
def logicalWords : List String := ["or", "and"]

/-- Expressions that can be told from their renderings. -/
inductive LegibleExpression : Node → Prop
  | literal {value : Literal} : value.IsShown → LegibleExpression (.literal value)
  | grouping {n : Node} : LegibleExpression n → LegibleExpression (.grouping n)
  | unary {operator : Token} {n : Node} : operator.Operates unaryWords → LegibleExpression n →
      LegibleExpression (.unary operator n)
  | binary {l r : Node} {operator : Token} : LegibleExpression l → operator.Operates binaryWords →
      LegibleExpression r → LegibleExpression (.binary l operator r)
  | logical {l r : Node} {operator : Token} : LegibleExpression l →
      operator.Operates logicalWords → LegibleExpression r →
      LegibleExpression (.logical l operator r)
  | ternary {c t e : Node} (question : Token) : LegibleExpression c → LegibleExpression t →
      LegibleExpression e → LegibleExpression (.ternary c question t e)
  | reference {name : Token} : name.Names → LegibleExpression (.reference name)
  | assign {name : Token} {n : Node} : name.Names → LegibleExpression n →
      LegibleExpression (.assign name n)
  | call {c : Node} (paren : Token) {ns : List Node} : LegibleExpression c →
      (∀ n ∈ ns, LegibleExpression n) → LegibleExpression (.call c paren ns)

/-- Statements that can be told from their renderings. -/
inductive LegibleStatement : Node → Prop
  | expression {n : Node} : n.LegibleExpression → LegibleStatement (.expression n)
  | print {n : Node} : n.LegibleExpression → LegibleStatement (.print n)
  | declare {name : Token} {n : Option Node} : name.Names → (∀ e ∈ n, LegibleExpression e) →
      LegibleStatement (.declare name n)
  | block {ns : List Node} : (∀ n ∈ ns, LegibleStatement n) → LegibleStatement (.block ns)
  | branch {c t : Node} {e : Option Node} : c.LegibleExpression → LegibleStatement t →
      (∀ n ∈ e, LegibleStatement n) → LegibleStatement (.branch c t e)
  | loop {c n : Node} : c.LegibleExpression → LegibleStatement n → LegibleStatement (.loop c n)
  | function {name : Token} {params : List Token} {body : List Node} : name.Names →
      (∀ p ∈ params, p.Names) → (∀ n ∈ body, LegibleStatement n) →
      LegibleStatement (.function name params body)
  | returning (keyword : Token) {n : Option Node} : (∀ e ∈ n, LegibleExpression e) →
      LegibleStatement (.returning keyword n)

end Node

/-! ### Phrases -/

open Node (LegibleExpression LegibleStatement)

namespace Expression

/-- What the trees of a phrase are like, if what others are joined to is legible. -/
def Symbol.Legible (ns : List Node) : Symbol → Prop
  | chain _ _ left => left.LegibleExpression → ∀ n ∈ ns, n.LegibleExpression
  | calls callee => callee.LegibleExpression → ∀ n ∈ ns, n.LegibleExpression
  | _ => ∀ n ∈ ns, n.LegibleExpression

/-- The operators of a tier join legible expressions to a legible one. -/
theorem legible_make {operators : List Kind} {make : Node → Token → Node → Node}
    {tighter : List Tier} (hlevel : (operators, make) :: tighter <:+ tiers) {l r : Node}
    {operator : Token} (hl : l.LegibleExpression) (hoperator : operator.IsShown)
    (hkind : operator.kind ∈ operators) (hr : r.LegibleExpression) :
    (make l operator r).LegibleExpression := by
  obtain ⟨rfl, hkinds⟩ | ⟨rfl, hkinds⟩ := make_kinds hlevel
  · exact .logical hl (hoperator.operates (hkinds hkind) (by decide) (by decide)) hr
  · exact .binary hl (hoperator.operates (hkinds hkind) (by decide) (by decide)) hr

/-- The trees of phrases are legible. -/
theorem Spells.legible {s : Symbol} {ns : List Node} {us : List Token} (h : Spells s ns us)
    (hus : ∀ t ∈ us, t.IsShown) : s.Legible ns := by
  have hsingle {n : Node} : n.LegibleExpression → ∀ n' ∈ [n], n'.LegibleExpression :=
    List.forall_mem_singleton.mpr
  induction h with
  | assignment _ _ _ ih ih' =>
    have htarget := ih (fun t ht => hus t (by simp [ht])) _ (.head _)
    have hvalue := ih' (fun t ht => hus t (by simp [ht])) _ (.head _)
    cases htarget with
    | reference hname => exact hsingle (.assign hname hvalue)
  | @ternary question _ _ _ _ _ _ _ _ _ _ _ _ ih ih' ih'' =>
    have hcondition := ih (fun t ht => hus t (by simp [ht])) _ (.head _)
    have hthen := ih' (fun t ht => hus t (by simp [ht])) _ (.head _)
    have helse := ih'' (fun t ht => hus t (by simp [ht])) _ (.head _)
    exact hsingle (.ternary question hcondition hthen helse)
  | tier _ _ ih ih' =>
    exact ih' (fun t ht => hus t (by simp [ht])) (ih (fun t ht => hus t (by simp [ht])) _ (.head _))
  | join hlevel hoperator _ _ ih ih' =>
    intro hleft
    have hright := ih (fun t ht => hus t (by simp [ht])) _ (.head _)
    exact ih' (fun t ht => hus t (by simp [ht]))
      (legible_make hlevel hleft (hus _ (.head _)) hoperator hright)
  | joined | applied => exact hsingle
  | unary hoperator _ ih =>
    have hoperand := ih (fun t ht => hus t (.tail _ ht)) _ (.head _)
    exact hsingle (.unary ((hus _ (.head _)).operates hoperator (by decide) (by decide)) hoperand)
  | call _ _ ih ih' =>
    exact ih' (fun t ht => hus t (by simp [ht])) (ih (fun t ht => hus t (by simp [ht])) _ (.head _))
  | @apply _ closing _ _ _ _ _ _ _ _ _ ih ih' =>
    intro hcallee
    exact ih' (fun t ht => hus t (by simp [ht]))
      (.call closing hcallee (ih fun t ht => hus t (by simp [ht])))
  | literal hv => exact hsingle (.literal ((hus _ (.head _)).isShown_constant hv))
  | reference hkind => exact hsingle (.reference ((hus _ (.head _)).names hkind))
  | grouping _ _ _ ih =>
    exact hsingle (.grouping (ih (fun t ht => hus t (by simp [ht])) _ (.head _)))
  | none => exact List.forall_mem_nil _
  | cons _ _ _ ih ih' =>
    have hfirst := ih (fun t ht => hus t (by simp [ht])) _ (.head _)
    exact List.forall_mem_cons.mpr ⟨hfirst, ih' fun t ht => hus t (by simp [ht])⟩
  | choice _ ih | joins _ ih | operand _ ih | tight _ ih | some _ _ ih | last _ ih => exact ih hus

end Expression

namespace Statement

theorem Ended.legible {kind : Kind} {n : Node} {us : List Token} (h : Ended kind n us)
    (hus : ∀ t ∈ us, t.IsShown) : n.LegibleExpression := by
  obtain ⟨vs, t, rfl, -, hspells⟩ := h
  exact hspells.legible (fun t ht => hus t (by simp [ht])) n (.head _)

theorem OptionallyEnded.legible {kind : Kind} {o : Option Node} {us : List Token}
    (h : OptionallyEnded kind o us) (hus : ∀ t ∈ us, t.IsShown) :
    ∀ n ∈ o, n.LegibleExpression := by
  cases h with
  | none => exact fun _ h => nomatch h
  | some h =>
    rintro _ ⟨⟩
    exact h.legible hus

theorem Condition.legible {n : Node} {us : List Token} (h : Condition n us)
    (hus : ∀ t ∈ us, t.IsShown) : n.LegibleExpression := by
  obtain ⟨t, vs, rfl, -, hended⟩ := h
  exact hended.legible fun t ht => hus t (.tail _ ht)

theorem Variable.legible {n : Node} {us : List Token} (h : Variable n us)
    (hus : ∀ t ∈ us, t.IsShown) : n.LegibleStatement := by
  cases h with
  | bare hname =>
    exact .declare ((hus _ (.head _)).names hname) fun _ h => nomatch h
  | initialized hname _ hended =>
    refine .declare ((hus _ (.head _)).names hname) ?_
    rintro _ ⟨⟩
    exact hended.legible fun t ht => hus t (by simp [ht])

theorem Initializer.legible {o : Option Node} {us : List Token} (h : Initializer o us)
    (hus : ∀ t ∈ us, t.IsShown) : ∀ n ∈ o, n.LegibleStatement := by
  cases h with
  | none => exact fun _ h => nomatch h
  | declared _ h =>
    rintro _ ⟨⟩
    exact h.legible fun t ht => hus t (.tail _ ht)
  | expression h =>
    rintro _ ⟨⟩
    exact .expression (h.legible hus)

theorem Listed.names {ps us : List Token} (h : Listed ps us) (hus : ∀ t ∈ us, t.IsShown) :
    ∀ p ∈ ps, p.Names := by
  induction h with
  | last hp => exact List.forall_mem_singleton.mpr ((hus _ (.head _)).names hp)
  | cons hp _ _ ih =>
    exact List.forall_mem_cons.mpr
      ⟨(hus _ (.head _)).names hp, ih fun t ht => hus t (by simp [ht])⟩

theorem Parameters.names {ps us : List Token} (h : Parameters ps us) (hus : ∀ t ∈ us, t.IsShown) :
    ∀ p ∈ ps, p.Names := by
  cases h with
  | none => exact List.forall_mem_nil _
  | some _ h => exact h.names hus

/-- The tree of a `for` loop is legible as that of another loop is. -/
theorem legible_desugarFor {initializer condition increment : Option Node} {body : Node}
    (hinitializer : ∀ n ∈ initializer, n.LegibleStatement)
    (hcondition : ∀ e ∈ condition, e.LegibleExpression)
    (hincrement : ∀ e ∈ increment, e.LegibleExpression) (hbody : body.LegibleStatement) :
    (desugarFor initializer condition increment body).LegibleStatement :=
  desugarFor_induction (.literal trivial) (fun _ => .expression) (fun _ => .block)
    (fun _ _ => .loop) hinitializer hcondition hincrement hbody

/-- The trees of phrases are legible. -/
theorem Spells.legible {s : Symbol} {ns : List Node} {us : List Token} (h : Spells s ns us)
    (hus : ∀ t ∈ us, t.IsShown) : ∀ n ∈ ns, n.LegibleStatement := by
  have hsingle {n : Node} : n.LegibleStatement → ∀ n' ∈ [n], n'.LegibleStatement :=
    List.forall_mem_singleton.mpr
  induction h with
  | nil => exact List.forall_mem_nil _
  | cons _ _ ih ih' =>
    have hfirst := ih (fun t ht => hus t (by simp [ht])) _ (.head _)
    exact List.forall_mem_cons.mpr ⟨hfirst, ih' fun t ht => hus t (by simp [ht])⟩
  | @function _ name _ _ _ _ _ _ _ _ _ hname _ hparams _ _ _ _ ih =>
    exact hsingle (.function ((hus name (by simp)).names hname)
      (hparams.names fun t ht => hus t (by simp [ht])) (ih fun t ht => hus t (by simp [ht])))
  | declared _ h => exact hsingle (h.legible fun t ht => hus t (.tail _ ht))
  | statement _ ih => exact ih hus
  | expression h => exact hsingle (.expression (h.legible hus))
  | print _ h => exact hsingle (.print (h.legible fun t ht => hus t (.tail _ ht)))
  | @returning keyword _ _ _ h =>
    exact hsingle (.returning keyword (h.legible fun t ht => hus t (.tail _ ht)))
  | block _ _ _ ih => exact hsingle (.block (ih fun t ht => hus t (by simp [ht])))
  | branch _ hcondition _ ih =>
    have hthen := ih (fun t ht => hus t (by simp [ht])) _ (.head _)
    exact hsingle (.branch (hcondition.legible fun t ht => hus t (by simp [ht])) hthen
      fun _ h => nomatch h)
  | branchElse _ hcondition _ _ _ ih ih' =>
    have hthen := ih (fun t ht => hus t (by simp [ht])) _ (.head _)
    have helse := ih' (fun t ht => hus t (by simp [ht])) _ (.head _)
    refine hsingle (.branch (hcondition.legible fun t ht => hus t (by simp [ht])) hthen ?_)
    rintro _ ⟨⟩
    exact helse
  | whileLoop _ hcondition _ ih =>
    have hbody := ih (fun t ht => hus t (by simp [ht])) _ (.head _)
    exact hsingle (.loop (hcondition.legible fun t ht => hus t (by simp [ht])) hbody)
  | forLoop _ _ hinitializer hcondition hincrement _ ih =>
    have hbody := ih (fun t ht => hus t (by simp [ht])) _ (.head _)
    exact hsingle (legible_desugarFor (hinitializer.legible fun t ht => hus t (by simp [ht]))
      (hcondition.legible fun t ht => hus t (by simp [ht]))
      (hincrement.legible fun t ht => hus t (by simp [ht])) hbody)

end Statement

/-! ### Texts -/

/-- The tokens of a text are read as legible trees, if there are no strings among them and no
numbers that are too large to be finite. -/
def Scan.IsShown (s : Scan) : Prop :=
  ∀ t ∈ s.tokens, t.kind ≠ .string ∧ t.literal.isInfinite = false

instance (s : Scan) : Decidable s.IsShown :=
  inferInstanceAs (Decidable (∀ t ∈ s.tokens, t.kind ≠ .string ∧ t.literal.isInfinite = false))

theorem Scan.isShown_of_mem_words {source : String} (h : (Scan.ofText source).IsShown) {t : Token}
    (ht : t ∈ words source) : t.IsShown := by
  have hmem : t ∈ (ofText source).tokens := by
    rw [tokens_ofText]
    exact List.mem_append_left _ ht
  exact ⟨lexeme_of_mem_words ht, (h t hmem).1, (h t hmem).2⟩

theorem Program.legible {source : String} (hread : (ofText source).diagnostics = [])
    (h : (Scan.ofText source).IsShown) : ∀ n ∈ (ofText source).statements, n.LegibleStatement :=
  (spells_of_diagnostics hread).2.legible fun _ => Scan.isShown_of_mem_words h

theorem Fragment.legible {text : String} {n : Node} (hn : (ofText text).expression = some n)
    (hread : (ofText text).diagnostics = []) (h : (Scan.ofText text).IsShown) :
    n.LegibleExpression :=
  (spells_of_diagnostics hn hread).2.legible (fun _ => Scan.isShown_of_mem_words h) n (.head _)

end Lox
