import Lox.Proofs.Grammar.Derivation
import Lox.Proofs.Grammar.Statement.Completeness

/-!
# The grammar that errors are measured by

Two rules of the language are not enforced by interrupting the reading: that the left side of an
assignment is a variable, and that lists have at most `maxEntries` entries. Without these rules the
grammar is the one which decides whether a program can be continued at all.

## Main definitions

* `Grammar.Admits`: the rules of the grammar without the two.
* `Grammar.IsStream`: programs with an end of input behind them.

## Main results

* `Grammar.Derives.admits`: what the grammar derives is admitted.
* `Grammar.Admits.begins`: how admitted words begin.
-/

namespace Lox

namespace Grammar

/-- The rules of the grammar but that any choice may stand on the left of an assignment, and that
lists of parameters and of arguments may have any length. -/
inductive Admits : Symbol → List Kind → Prop
  | program {ws : List (List Kind)} (h : ∀ w ∈ ws, Admits .declaration w) :
      Admits .program ws.flatten
  | function {count : Nat} {body : List Kind} (hbody : Admits .program body) :
      Admits .declaration (.kwFun :: .identifier :: .leftParen ::
        (commaSeparated (List.replicate count [.identifier]) ++
          .rightParen :: .leftBrace :: (body ++ [.rightBrace])))
  | declared {w : List Kind} (h : Admits .binding w) : Admits .declaration w
  | stated {w : List Kind} (h : Admits .statement w) : Admits .declaration w
  | bare : Admits .binding [.kwVar, .identifier, .semicolon]
  | initialized {w : List Kind} (h : Admits .expression w) :
      Admits .binding (.kwVar :: .identifier :: .equal :: (w ++ [.semicolon]))
  | forLoop {i c e w : List Kind} (hinitializer : Admits .initializer i)
      (hcondition : Admits .clause c) (hincrement : Admits .clause e)
      (hbody : Admits .statement w) :
      Admits .statement
        (.kwFor :: .leftParen :: (i ++ (c ++ .semicolon :: (e ++ .rightParen :: w))))
  | whileLoop {c w : List Kind} (hcondition : Admits .expression c)
      (hbody : Admits .statement w) :
      Admits .statement (.kwWhile :: .leftParen :: (c ++ .rightParen :: w))
  | branch {c w : List Kind} (hcondition : Admits .expression c) (hthen : Admits .statement w) :
      Admits .statement (.kwIf :: .leftParen :: (c ++ .rightParen :: w))
  | branchElse {c w w' : List Kind} (hcondition : Admits .expression c)
      (hthen : Admits .statement w) (helse : Admits .statement w') :
      Admits .statement (.kwIf :: .leftParen :: (c ++ .rightParen :: (w ++ .kwElse :: w')))
  | print {w : List Kind} (h : Admits .expression w) :
      Admits .statement (.kwPrint :: (w ++ [.semicolon]))
  | returning {w : List Kind} (h : Admits .clause w) :
      Admits .statement (.kwReturn :: (w ++ [.semicolon]))
  | block {w : List Kind} (h : Admits .program w) :
      Admits .statement (.leftBrace :: (w ++ [.rightBrace]))
  | evaluated {w : List Kind} (h : Admits .expression w) : Admits .statement (w ++ [.semicolon])
  | noInitializer : Admits .initializer [.semicolon]
  | declaredFirst {w : List Kind} (h : Admits .binding w) : Admits .initializer w
  | evaluatedFirst {w : List Kind} (h : Admits .expression w) :
      Admits .initializer (w ++ [.semicolon])
  | noClause : Admits .clause []
  | clause {w : List Kind} (h : Admits .expression w) : Admits .clause w
  | assignment {u w : List Kind} (htarget : Admits .ternary u) (h : Admits .expression w) :
      Admits .expression (u ++ .equal :: w)
  | choice {w : List Kind} (h : Admits .ternary w) : Admits .expression w
  | ternary {c a b : List Kind} (hcondition : Admits (.tier operators) c)
      (hthen : Admits .ternary a) (helse : Admits .ternary b) :
      Admits .ternary (c ++ .question :: (a ++ .colon :: b))
  | joins {w : List Kind} (h : Admits (.tier operators) w) : Admits .ternary w
  | join {level : List Kind} {levels : List (List Kind)} {u v : List Kind} {k : Kind}
      (hleft : Admits (.tier (level :: levels)) u) (hk : k ∈ level)
      (hright : Admits (.tier levels) v) : Admits (.tier (level :: levels)) (u ++ k :: v)
  | tighter {level : List Kind} {levels : List (List Kind)} {w : List Kind}
      (h : Admits (.tier levels) w) : Admits (.tier (level :: levels)) w
  | operand {w : List Kind} (h : Admits .unary w) : Admits (.tier []) w
  | unary {k : Kind} {w : List Kind} (hk : k ∈ [Kind.bang, .minus]) (h : Admits .unary w) :
      Admits .unary (k :: w)
  | tight {w : List Kind} (h : Admits .call w) : Admits .unary w
  | call {w : List Kind} {ws : List (List Kind)} (hcallee : Admits .call w)
      (hws : ∀ w ∈ ws, Admits .expression w) :
      Admits .call (w ++ .leftParen :: (commaSeparated ws ++ [.rightParen]))
  | atom {w : List Kind} (h : Admits .primary w) : Admits .call w
  | constant {k : Kind} (hk : k ∈ [Kind.kwFalse, .kwTrue, .kwNil, .number, .string, .identifier]) :
      Admits .primary [k]
  | grouping {w : List Kind} (h : Admits .expression w) :
      Admits .primary (.leftParen :: (w ++ [.rightParen]))

/-- Tokens that are a program with an end of input behind it. -/
def IsStream (ts : List Token) : Prop :=
  ∃ front e, ts = front ++ [e] ∧ e.kind = .endOfInput ∧ Admits .program (front.map Token.kind)

/-- A variable in all places where an expression may stand. -/
theorem Admits.identifier_call : Admits .call [.identifier] := .atom (.constant (by decide))

theorem Admits.ofUnary {w : List Kind} (h : Admits .unary w) (levels : List (List Kind)) :
    Admits (.tier levels) w := by
  induction levels with
  | nil => exact .operand h
  | cons level levels ih => exact .tighter ih

theorem Admits.ofCall {w : List Kind} (h : Admits .call w) : Admits .ternary w :=
  .joins ((Admits.tight h).ofUnary operators)

/-- What the grammar derives is admitted. -/
theorem Derives.admits {s : Symbol} {w : List Kind} (h : Derives s w) : Admits s w := by
  induction h with
  | program _ ih => exact .program ih
  | function _ _ ih => exact .function ih
  | declared _ ih => exact .declared ih
  | stated _ ih => exact .stated ih
  | bare => exact .bare
  | initialized _ ih => exact .initialized ih
  | forLoop _ _ _ _ ih ih' ih'' ih''' => exact .forLoop ih ih' ih'' ih'''
  | whileLoop _ _ ih ih' => exact .whileLoop ih ih'
  | branch _ _ ih ih' => exact .branch ih ih'
  | branchElse _ _ _ ih ih' ih'' => exact .branchElse ih ih' ih''
  | print _ ih => exact .print ih
  | returning _ ih => exact .returning ih
  | block _ ih => exact .block ih
  | evaluated _ ih => exact .evaluated ih
  | noInitializer => exact .noInitializer
  | declaredFirst _ ih => exact .declaredFirst ih
  | evaluatedFirst _ ih => exact .evaluatedFirst ih
  | noClause => exact .noClause
  | clause _ ih => exact .clause ih
  | assignment _ ih => exact .assignment (.ofCall .identifier_call) ih
  | choice _ ih => exact .choice ih
  | ternary _ _ _ ih ih' ih'' => exact .ternary ih ih' ih''
  | joins _ ih => exact .joins ih
  | join _ hk _ ih ih' => exact .join ih hk ih'
  | tighter _ ih => exact .tighter ih
  | operand _ ih => exact .operand ih
  | unary hk _ ih => exact .unary hk ih
  | tight _ ih => exact .tight ih
  | call _ _ _ ih ih' => exact .call ih ih'
  | atom _ ih => exact .atom ih
  | constant hk => exact .constant hk
  | grouping _ ih => exact .grouping ih

/-! ### Where words begin -/

/-- A word that begins with one of some kinds. -/
def BeginsIn (kinds : List Kind) : List Kind → Prop
  | [] => False
  | k :: _ => k ∈ kinds

theorem BeginsIn.append {kinds w : List Kind} (h : BeginsIn kinds w) (v : List Kind) :
    BeginsIn kinds (w ++ v) := by
  cases w with
  | nil => exact h.elim
  | cons k w => exact h

theorem BeginsIn.mono {kinds kinds' w : List Kind} (h : BeginsIn kinds w) (hsub : kinds ⊆ kinds') :
    BeginsIn kinds' w := by
  cases w with
  | nil => exact h.elim
  | cons k w => exact hsub h

/-- Tokens begin as their kinds do. -/
theorem BeginsIn.startsIn {kinds w : List Kind} (h : BeginsIn kinds w) {us : List Token}
    (hus : us.map Token.kind = w) : StartsIn kinds us := by
  subst hus
  cases us with
  | nil => exact h
  | cons t us => exact h

/-- How words begin, if there have to be any. -/
def Symbol.Begins (w : List Kind) : Symbol → Prop
  | program | clause => True
  | declaration => BeginsIn Statement.declarationKinds w
  | binding => BeginsIn [.kwVar] w
  | statement => BeginsIn Statement.statementKinds w
  | initializer => BeginsIn (.semicolon :: .kwVar :: Expression.openingKinds) w
  | expression | ternary | tier _ | unary => BeginsIn Expression.openingKinds w
  | call | primary => BeginsIn Expression.primaryKinds w

theorem Admits.begins {s : Symbol} {w : List Kind} (h : Admits s w) : s.Begins w := by
  induction h with
  | program | noClause | clause => trivial
  | function => simp [Symbol.Begins, BeginsIn, Statement.declarationKinds]
  | declared _ ih => exact BeginsIn.mono ih (by decide)
  | stated _ ih => exact BeginsIn.mono ih (by decide)
  | bare | initialized | noInitializer => simp [Symbol.Begins, BeginsIn]
  | forLoop | whileLoop | branch | branchElse | print | returning | block =>
    simp [Symbol.Begins, BeginsIn, Statement.statementKinds]
  | evaluated _ ih => exact (BeginsIn.append ih _).mono (List.subset_append_right _ _)
  | declaredFirst _ ih => exact BeginsIn.mono ih (by decide)
  | evaluatedFirst _ ih => exact (BeginsIn.append ih _).mono (by decide)
  | assignment _ _ ih | ternary _ _ _ ih | join _ _ _ ih | call _ _ ih => exact BeginsIn.append ih _
  | choice _ ih | joins _ ih | tighter _ ih | operand _ ih | atom _ ih => exact ih
  | unary hk => exact List.mem_append_left Expression.primaryKinds hk
  | tight _ ih => exact BeginsIn.mono ih (by decide)
  | constant hk =>
    have hsub : [Kind.kwFalse, .kwTrue, .kwNil, .number, .string, .identifier] ⊆
        Expression.primaryKinds := by decide
    exact hsub hk
  | grouping => simp [Symbol.Begins, BeginsIn, Expression.primaryKinds]

end Grammar

end Lox
