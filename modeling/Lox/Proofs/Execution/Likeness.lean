import Lox.Proofs.Execution.Traversal
import Mathlib.Data.List.Forall2

/-!
# What corresponds in two runs

Two runs are compared by saying what corresponds in them: chains of scopes, identities, spellings
of names, tokens, and the nodes that are executed. From this it follows which values correspond,
and which failures, tables and answers: functions correspond if they are made of corresponding
nodes in corresponding scopes, all other values have to be the same.

A comparison passes through stages. At a later stage more scopes and identities correspond, since
both runs make new ones as they go on; everything else stays as it is.

Corresponding values cannot be told apart by what a program observes of values: their texts, their
truth, equality between them, and what operators and host functions make of them.

## Main definitions

* `Likeness`: what corresponds at each stage.
* `Likeness.Values`, `Likeness.Tables`, `Likeness.Failures`, `Likeness.Interrupts`,
  `Likeness.Answers`: what corresponds as a consequence.
* `Likeness.Expressions`, `Likeness.Statements`: nodes of one form with corresponding parts.

## Main results

* `Likeness.Values.equal_eq`, `Likeness.Values.view_eq`: corresponding values look alike.
* `Likeness.Values.applyUnary`, `Likeness.Values.applyBinary`: operators keep the correspondence.
-/

namespace Lox

/-- What corresponds in two runs, at each stage of a comparison. -/
structure Likeness (W : Type) where
  /-- Chains of scopes. -/
  chain : W → Chain → Chain → Prop
  /-- Identities of functions and of computed numbers. -/
  identity : W → Nat → Nat → Prop
  /-- Names of variables. -/
  spelling : String → String → Prop
  /-- Tokens that failures may be blamed on. -/
  blame : Token → Token → Prop
  /-- Causes of failures. -/
  cause : Cause → Cause → Prop
  /-- Nodes that are evaluated. -/
  expression : W → Node → Node → Prop
  /-- Nodes that are executed. -/
  statement : W → Node → Node → Prop

/-- The causes that lie in the form of a tree or in the kind of a token of it, not in what a
program does. -/
def Cause.isFallback : Cause → Bool
  | unknownExpression _ | unknownStatement _ | unsupportedUnary _ | unsupportedBinary _
  | unsupportedLiteral _ => true
  | _ => false

/-- The cause that says how a variable is spelled. -/
def Cause.isNaming : Cause → Bool
  | undefinedVariable _ => true
  | _ => false

/-- The forms of nodes that have a value. -/
def Node.isEvaluable : Node → Bool
  | literal .. | grouping .. | unary .. | binary .. | logical .. | ternary .. | reference ..
  | assign .. | call .. => true
  | _ => false

/-- The forms of nodes that can be executed. -/
def Node.isExecutable : Node → Bool
  | expression .. | print .. | declare .. | block .. | branch .. | loop .. | function ..
  | returning .. => true
  | _ => false

/-! ### Nodes of neither form -/

namespace Engine

variable {host : Host} {below : Engine} {passes : Nat} {n : Node}

theorem evaluateNode_of_not_isEvaluable (h : n.isEvaluable = false) :
    evaluateNode host below n = Run.fail (.unknownExpression n.label) none := by
  cases n <;> first | rfl | cases h

theorem executeNode_of_not_isExecutable (h : n.isExecutable = false) :
    executeNode passes below n = Run.fail (.unknownStatement n.label) none := by
  cases n <;> first | rfl | cases h

end Engine

/-! ### What operators make of values -/

namespace Value

/-- Values that are the same whatever the machine is: all but functions, host functions, and
numbers with an origin. -/
def isData : Value → Bool
  | nil | bool _ | string _ => true
  | number n => decide (n.origin = .plain)
  | function _ | native _ => false

theorem isData_of_applyUnary {op : Token} {v u : Value} (h : v.applyUnary op = .ok u) :
    u.isData := by
  unfold applyUnary at h
  split at h
  · split at h <;> cases h
    rfl
  · cases h
    rfl
  · cases h

theorem isData_of_arithmetic {op : Token} {f : Float → Float → Except Cause Value} {l r u : Value}
    (hf : ∀ a b v, f a b = .ok v → v.isData) (h : arithmetic op f l r = .ok u) : u.isData := by
  unfold arithmetic at h
  split at h
  · rename_i a b
    cases hab : f a.value b.value with
    | ok v => rw [hab] at h; cases h; exact hf _ _ _ hab
    | error c => rw [hab] at h; cases h
  · cases h

theorem isData_of_applyBinary {op : Token} {l r u : Value} (h : l.applyBinary op r = .ok u) :
    u.isData := by
  rw [applyBinary] at h
  split at h
  case h_1 | h_2 =>
    cases h
    rfl
  case h_3 =>
    unfold add at h
    split at h <;> cases h <;> rfl
  case h_6 =>
    refine isData_of_arithmetic (fun a b v hv => ?_) h
    split at hv <;> cases hv
    rfl
  case h_11 => cases h
  all_goals
    refine isData_of_arithmetic (fun a b v hv => ?_) h
    cases hv
    rfl

/-- Only the token that a failure is blamed on tells operators of one kind apart. -/
theorem applyUnary_words {op op' : Token} {v : Value} (hkind : op.kind = op'.kind)
    (hlexeme : op.lexeme = op'.lexeme) :
    v.applyUnary op' = (v.applyUnary op).mapError fun f => { f with token := some op' } := by
  unfold applyUnary
  rw [← hkind, ← hlexeme]
  split
  · split <;> rfl
  · rfl
  · rfl

theorem arithmetic_words {op op' : Token} {f : Float → Float → Except Cause Value} {l r : Value} :
    arithmetic op' f l r
      = (arithmetic op f l r).mapError fun e => { e with token := some op' } := by
  unfold arithmetic
  split
  · rename_i a b
    cases f a.value b.value <;> rfl
  · rfl

theorem applyBinary_words {op op' : Token} {l r : Value} (hkind : op.kind = op'.kind)
    (hlexeme : op.lexeme = op'.lexeme) :
    l.applyBinary op' r = (l.applyBinary op r).mapError fun f => { f with token := some op' } := by
  unfold applyBinary
  rw [← hkind, ← hlexeme]
  split
  case h_1 | h_2 | h_11 => rfl
  case h_3 =>
    unfold add
    split <;> rfl
  all_goals exact arithmetic_words

end Value

namespace Likeness

variable {W : Type} (L : Likeness W)

/-! ### Tokens, values and failures -/

/-- Operators, keywords and parentheses that correspond. -/
structure Words (t t' : Token) : Prop where
  kind : t.kind = t'.kind
  lexeme : t.lexeme = t'.lexeme
  blame : L.blame t t'

/-- Tokens that name corresponding variables. -/
structure Names (t t' : Token) : Prop where
  spelling : L.spelling t.lexeme t'.lexeme
  blame : L.blame t t'

/-- Origins of numbers that correspond. -/
inductive Origins (w : W) : Origin → Origin → Prop
  | plain : Origins w .plain .plain
  | literal (index : Nat) : Origins w (.literal index) (.literal index)
  | computed {i i' : Nat} : L.identity w i i' → Origins w (.computed i) (.computed i')

/-- Functions that correspond. Their own names are seen in their text. -/
structure Closures (w : W) (f f' : Closure) : Prop where
  identity : L.identity w f.identity f'.identity
  text : f.name.lexeme = f'.name.lexeme
  name : L.blame f.name f'.name
  params : List.Forall₂ L.Names f.params f'.params
  body : List.Forall₂ (L.statement w) f.body f'.body
  scope : L.chain w f.scope f'.scope

/-- Values that correspond. -/
inductive Values (w : W) : Value → Value → Prop
  | nil : Values w .nil .nil
  | bool (b : Bool) : Values w (.bool b) (.bool b)
  | number (x : Float) {o o' : Origin} :
      L.Origins w o o' → Values w (.number ⟨x, o⟩) (.number ⟨x, o'⟩)
  | string (s : String) : Values w (.string s) (.string s)
  | function {f f' : Closure} : L.Closures w f f' → Values w (.function f) (.function f')
  | native (index : Nat) : Values w (.native index) (.native index)

/-- Tables with corresponding names and values, in the same order. -/
def Tables (w : W) (t t' : Table) : Prop :=
  List.Forall₂ (fun b b' => L.spelling b.1 b'.1 ∧ L.Values w b.2 b'.2) t t'

/-- Failures that correspond. -/
structure Failures (f f' : Failure) : Prop where
  cause : L.cause f.cause f'.cause
  token : Option.Rel L.blame f.token f'.token

/-- Interrupts that correspond. -/
inductive Interrupts (w : W) : Interrupt → Interrupt → Prop
  | returned {v v' : Value} : L.Values w v v' → Interrupts w (.returned v) (.returned v')
  | failed {f f' : Failure} : L.Failures f f' → Interrupts w (.failed f) (.failed f')
  | overflow : Interrupts w .overflow .overflow
  | unfinished : Interrupts w .unfinished .unfinished
  | broken (fault : Fault) : Interrupts w (.broken fault) (.broken fault)

/-- Answers that correspond. -/
inductive Answers (w : W) : Answer → Answer → Prop
  | value {v v' : Value} : L.Values w v v' → Answers w (.value v) (.value v')
  | nothing : Answers w .nothing .nothing
  | foreign (typeName : String) : Answers w (.foreign typeName) (.foreign typeName)

/-- What a computation that may fail ends with on both sides. -/
inductive Outcomes (w : W) : Except Failure Value → Except Failure Value → Prop
  | ok {v v' : Value} : L.Values w v v' → Outcomes w (.ok v) (.ok v')
  | error {f f' : Failure} : L.Failures f f' → Outcomes w (.error f) (.error f')

/-! ### Nodes -/

/-- Expressions of one form with corresponding parts. Where the form or an operator makes the
evaluation fail, the failures correspond. -/
inductive Expressions (w : W) : Node → Node → Prop
  | literal {l l' : Literal} :
      L.Outcomes w l.value l'.value → Expressions w (.literal l) (.literal l')
  | grouping {n n' : Node} : L.expression w n n' → Expressions w (.grouping n) (.grouping n')
  | unary {op op' : Token} {n n' : Node} :
      L.Words op op' → (∀ v f, Value.applyUnary op v = .error f → L.cause f.cause f.cause) →
      L.expression w n n' → Expressions w (.unary op n) (.unary op' n')
  | binary {l l' r r' : Node} {op op' : Token} :
      L.expression w l l' → L.Words op op' →
      (∀ v u f, Value.applyBinary op v u = .error f → L.cause f.cause f.cause) →
      L.expression w r r' → Expressions w (.binary l op r) (.binary l' op' r')
  | logical {l l' r r' : Node} {op op' : Token} :
      L.expression w l l' → op.kind = op'.kind → L.expression w r r' →
      Expressions w (.logical l op r) (.logical l' op' r')
  | ternary {c c' t t' e e' : Node} {question question' : Token} :
      L.expression w c c' → L.expression w t t' → L.expression w e e' →
      Expressions w (.ternary c question t e) (.ternary c' question' t' e')
  | reference {name name' : Token} :
      L.Names name name' → Expressions w (.reference name) (.reference name')
  | assign {name name' : Token} {n n' : Node} :
      L.Names name name' → L.expression w n n' → Expressions w (.assign name n) (.assign name' n')
  | call {c c' : Node} {paren paren' : Token} {ns ns' : List Node} :
      L.expression w c c' → L.blame paren paren' → List.Forall₂ (L.expression w) ns ns' →
      Expressions w (.call c paren ns) (.call c' paren' ns')
  | other {n n' : Node} :
      n.isEvaluable = false → n'.isEvaluable = false →
      L.cause (.unknownExpression n.label) (.unknownExpression n'.label) → Expressions w n n'

/-- Statements of one form with corresponding parts. -/
inductive Statements (w : W) : Node → Node → Prop
  | expression {n n' : Node} :
      L.expression w n n' → Statements w (.expression n) (.expression n')
  | print {n n' : Node} : L.expression w n n' → Statements w (.print n) (.print n')
  | declare {name name' : Token} {n n' : Option Node} :
      L.Names name name' → Option.Rel (L.expression w) n n' →
      Statements w (.declare name n) (.declare name' n')
  | block {ns ns' : List Node} :
      List.Forall₂ (L.statement w) ns ns' → Statements w (.block ns) (.block ns')
  | branch {c c' t t' : Node} {e e' : Option Node} :
      L.expression w c c' → L.statement w t t' → Option.Rel (L.statement w) e e' →
      Statements w (.branch c t e) (.branch c' t' e')
  | loop {c c' n n' : Node} :
      L.expression w c c' → L.statement w n n' → Statements w (.loop c n) (.loop c' n')
  | function {name name' : Token} {params params' : List Token} {body body' : List Node} :
      L.Names name name' → name.lexeme = name'.lexeme → List.Forall₂ L.Names params params' →
      List.Forall₂ (L.statement w) body body' →
      Statements w (.function name params body) (.function name' params' body')
  | returning {keyword keyword' : Token} {n n' : Option Node} :
      L.blame keyword keyword' → Option.Rel (L.expression w) n n' →
      Statements w (.returning keyword n) (.returning keyword' n')
  | other {n n' : Node} :
      n.isExecutable = false → n'.isExecutable = false →
      L.cause (.unknownStatement n.label) (.unknownStatement n'.label) → Statements w n n'

/-! ### Kinds of likenesses -/

/-- A likeness in which nothing corresponds to two things. -/
structure Faithful : Prop where
  spelling {a a' b b' : String} : L.spelling a a' → L.spelling b b' → (a = b ↔ a' = b')
  identity {w : W} {i i' j j' : Nat} :
    L.identity w i i' → L.identity w j j' → (i = j ↔ i' = j')

/-- A likeness in which only equal names and equal identities correspond. -/
theorem Faithful.ofEq {L : Likeness W} (hspelling : ∀ {a a'}, L.spelling a a' → a = a')
    (hidentity : ∀ {w i i'}, L.identity w i i' → i = i') : L.Faithful where
  spelling ha hb := by rw [hspelling ha, hspelling hb]
  identity hi hj := by rw [hidentity hi, hidentity hj]

/-- A stage at which everything corresponds that did so at another one. -/
structure Extends (w w' : W) : Prop where
  chain {c c' : Chain} : L.chain w c c' → L.chain w' c c'
  identity {i i' : Nat} : L.identity w i i' → L.identity w' i i'
  expression {n n' : Node} : L.expression w n n' → L.expression w' n n'
  statement {n n' : Node} : L.statement w n n' → L.statement w' n n'

/-- A likeness in which everything corresponds to itself. -/
structure Reflexive : Prop where
  chain (w : W) (c : Chain) : L.chain w c c
  identity (w : W) (i : Nat) : L.identity w i i
  spelling (a : String) : L.spelling a a
  blame (t : Token) : L.blame t t
  cause (c : Cause) : L.cause c c
  expression (w : W) (n : Node) : L.expression w n n
  statement (w : W) (n : Node) : L.statement w n n

/-- A likeness in which all but scopes corresponds to itself. -/
structure Plain : Prop where
  identity (w : W) (i : Nat) : L.identity w i i
  spelling (a : String) : L.spelling a a
  blame (t : Token) : L.blame t t
  cause (c : Cause) : L.cause c c
  expression (w : W) (n : Node) : L.expression w n n
  statement (w : W) (n : Node) : L.statement w n n

/-- A value corresponds to itself if the identity of a computed number or the parts of a function
do. -/
theorem Values.self {L : Likeness W} {w : W} {v : Value}
    (hnumber : ∀ x i, v = .number ⟨x, .computed i⟩ → L.identity w i i)
    (hfunction : ∀ f, v = .function f → L.Closures w f f) : L.Values w v v :=
  match v with
  | .nil => .nil
  | .bool b => .bool b
  | .number ⟨x, .plain⟩ => .number x .plain
  | .number ⟨x, .literal index⟩ => .number x (.literal index)
  | .number ⟨x, .computed i⟩ => .number x (.computed (hnumber x i rfl))
  | .string s => .string s
  | .function f => .function (hfunction f rfl)
  | .native index => .native index

/-- What a literal stands for corresponds to itself if the identity of a computed number does. -/
theorem Outcomes.literal {L : Likeness W} {w : W} {l : Literal}
    (hnumber : ∀ x i, l = .number ⟨x, .computed i⟩ → L.identity w i i)
    (hcause : ∀ shown, L.cause (.unsupportedLiteral shown) (.unsupportedLiteral shown)) :
    L.Outcomes w l.value l.value := by
  cases l with
  | nil => exact .ok .nil
  | bool b => exact .ok (.bool b)
  | number n =>
    obtain ⟨x, o⟩ := n
    cases o with
    | plain => exact .ok (.number x .plain)
    | literal index => exact .ok (.number x (.literal index))
    | computed i => exact .ok (.number x (.computed (hnumber x i rfl)))
  | whole i => exact .ok (.number _ .plain)
  | string s => exact .ok (.string s)
  | unsupported shown => exact .error ⟨hcause shown, .none⟩

namespace Plain

variable {L} (h : L.Plain) (w : W)

include h

theorem words (t : Token) : L.Words t t := ⟨rfl, rfl, h.blame t⟩

theorem names (t : Token) : L.Names t t := ⟨h.spelling _, h.blame t⟩

theorem forall₂_statement (ns : List Node) : List.Forall₂ (L.statement w) ns ns :=
  List.forall₂_same.mpr fun n _ => h.statement w n

theorem option_expression (n : Option Node) : Option.Rel (L.expression w) n n := by
  cases n with
  | none => exact .none
  | some n => exact .some (h.expression w n)

theorem option_statement (n : Option Node) : Option.Rel (L.statement w) n n := by
  cases n with
  | none => exact .none
  | some n => exact .some (h.statement w n)

/-- A function corresponds to itself if the scopes around it do. -/
theorem values {v : Value} (hscope : ∀ f, v = .function f → L.chain w f.scope f.scope) :
    L.Values w v v :=
  .self (fun _ i _ => h.identity w i) fun f hf =>
    ⟨h.identity w _, rfl, h.blame _, List.forall₂_same.mpr fun t _ => h.names t,
      h.forall₂_statement w f.body, hscope f hf⟩

/-- Every node has the form of itself. -/
theorem expressions (n : Node) : L.Expressions w n n := by
  cases n with
  | literal l => exact .literal (.literal (fun _ i _ => h.identity w i) fun _ => h.cause _)
  | grouping inner => exact .grouping (h.expression w inner)
  | unary op operand =>
    exact .unary (h.words op) (fun _ _ _ => h.cause _) (h.expression w operand)
  | binary l op r =>
    exact .binary (h.expression w l) (h.words op) (fun _ _ _ _ => h.cause _) (h.expression w r)
  | logical l op r => exact .logical (h.expression w l) rfl (h.expression w r)
  | ternary c question t e =>
    exact .ternary (h.expression w c) (h.expression w t) (h.expression w e)
  | reference name => exact .reference (h.names name)
  | assign name value => exact .assign (h.names name) (h.expression w value)
  | call callee paren arguments =>
    exact .call (h.expression w callee) (h.blame paren)
      (List.forall₂_same.mpr fun n _ => h.expression w n)
  | _ => exact .other rfl rfl (h.cause _)

theorem statements (n : Node) : L.Statements w n n := by
  cases n with
  | expression inner => exact .expression (h.expression w inner)
  | print inner => exact .print (h.expression w inner)
  | declare name initializer => exact .declare (h.names name) (h.option_expression w _)
  | block statements => exact .block (h.forall₂_statement w statements)
  | branch c t e =>
    exact .branch (h.expression w c) (h.statement w t) (h.option_statement w e)
  | loop c body => exact .loop (h.expression w c) (h.statement w body)
  | function name params body =>
    exact .function (h.names name) rfl (List.forall₂_same.mpr fun t _ => h.names t)
      (h.forall₂_statement w body)
  | returning keyword value => exact .returning (h.blame keyword) (h.option_expression w value)
  | _ => exact .other rfl rfl (h.cause _)

end Plain

namespace Reflexive

variable {L} (h : L.Reflexive) (w : W)

include h

theorem plain : L.Plain := { h with }

theorem values (v : Value) : L.Values w v v := h.plain.values w fun f _ => h.chain w f.scope

theorem outcomes : (r : Except Failure Value) → L.Outcomes w r r
  | .ok v => .ok (h.values w v)
  | .error ⟨c, some t⟩ => .error ⟨h.cause c, .some (h.blame t)⟩
  | .error ⟨c, none⟩ => .error ⟨h.cause c, .none⟩

theorem expressions (n : Node) : L.Expressions w n n := h.plain.expressions w n

theorem statements (n : Node) : L.Statements w n n := h.plain.statements w n

end Reflexive

/-- Nothing but what is the same corresponds. -/
structure Discrete : Prop where
  chain {w : W} {c c' : Chain} : L.chain w c c' → c = c'
  identity {w : W} {i i' : Nat} : L.identity w i i' → i = i'
  blame {t t' : Token} : L.blame t t' → t = t'
  cause {c c' : Cause} : L.cause c c' → c = c'
  statement {w : W} {n n' : Node} : L.statement w n n' → n = n'

namespace Discrete

variable {L} (h : L.Discrete) {w : W}

include h

theorem values {v v' : Value} (hv : L.Values w v v') : v = v' := by
  cases hv with
  | number x ho =>
    cases ho with
    | computed hi => rw [h.identity hi]
    | _ => rfl
  | @function f f' hf =>
    have hparams : f.params = f'.params := by
      simpa only [List.forall₂_eq_eq_eq] using hf.params.imp fun t t' ht => h.blame ht.blame
    have hbody : f.body = f'.body := by
      simpa only [List.forall₂_eq_eq_eq] using hf.body.imp fun n n' hn => h.statement hn
    cases f
    cases f'
    simp only [Value.function.injEq, Closure.mk.injEq]
    exact ⟨h.identity hf.identity, h.blame hf.name, hparams, hbody, h.chain hf.scope⟩
  | _ => rfl

theorem failures {f f' : Failure} (hf : L.Failures f f') : f = f' := by
  obtain ⟨c, t⟩ := f
  obtain ⟨c', t'⟩ := f'
  have hc : c = c' := h.cause hf.cause
  have ht : Option.Rel L.blame t t' := hf.token
  cases ht with
  | some hb => rw [hc, h.blame hb]
  | none => rw [hc]

theorem interrupts {e e' : Interrupt} (he : L.Interrupts w e e') : e = e' := by
  cases he with
  | returned hv => rw [h.values hv]
  | failed hf => rw [h.failures hf]
  | _ => rfl

end Discrete

/-! ### What a program observes -/

namespace Values

variable {L} {w : W} {v v' u u' : Value}

theorem text_eq (h : L.Values w v v') : v.text = v'.text := by
  cases h with
  | function hf => simp only [Value.text, hf.text]
  | _ => rfl

theorem truthy_eq (h : L.Values w v v') : v.truthy = v'.truthy := by
  cases h <;> rfl

theorem isCallable_eq (h : L.Values w v v') : v.isCallable = v'.isCallable := by
  cases h <;> rfl

theorem arity_eq (h : L.Values w v v') (host : Host) :
    Engine.arity host v = Engine.arity host v' := by
  cases h with
  | function hf => exact hf.params.length_eq
  | _ => rfl

/-- A host function cannot tell corresponding values apart. -/
theorem view_eq (h : L.Values w v v') : View.ofValue v = View.ofValue v' := by
  cases h with
  | function hf => simp only [View.ofValue, Value.text, hf.text]
  | _ => rfl

/-- Two origins are one if and only if those that correspond to them are. -/
theorem origin_eq_iff (h : L.Faithful) {o o' q q' : Origin} (ho : L.Origins w o o')
    (hq : L.Origins w q q') : o = q ↔ o' = q' := by
  cases ho with
  | computed hi =>
    cases hq with
    | computed hj => simpa only [Origin.computed.injEq] using h.identity hi hj
    | _ => simp
  | _ => cases hq <;> simp

/-- Two values are equal if and only if those that correspond to them are. -/
theorem equal_eq (h : L.Faithful) (hv : L.Values w v v') (hu : L.Values w u u') :
    v.equal u = v'.equal u' := by
  cases hv with
  | number x ho =>
    cases hu with
    | number y hq =>
      have horigin := origin_eq_iff h ho hq
      simp only [Value.equal, Number.equal, Number.mk.injEq, horigin]
    | _ => rfl
  | function hf =>
    cases hu with
    | function hg =>
      have hidentity := h.identity hf.identity hg.identity
      simp only [Value.equal, beq_eq_decide, hidentity]
    | _ => rfl
  | _ => cases hu <;> rfl

/-- What corresponds goes on to do so at a stage where more chains and identities do. -/
theorem mono {w' : W} (h : L.Extends w w') (hv : L.Values w v v') : L.Values w' v v' := by
  cases hv with
  | number x ho =>
    cases ho with
    | plain => exact .number x .plain
    | literal index => exact .number x (.literal index)
    | computed hi => exact .number x (.computed (h.identity hi))
  | function hf => exact .function { hf with
      identity := h.identity hf.identity
      body := hf.body.imp fun _ _ => h.statement
      scope := h.chain hf.scope }
  | nil => exact .nil
  | bool b => exact .bool b
  | string s => exact .string s
  | native index => exact .native index

theorem ofData (h : v.isData) : L.Values w v v := by
  cases v with
  | nil => exact .nil
  | bool b => exact .bool b
  | string s => exact .string s
  | number n =>
    obtain ⟨x, o⟩ := n
    obtain rfl : o = .plain := of_decide_eq_true h
    exact .number x .plain
  | function | native => cases h

/-! ### Operators -/

theorem applyUnary_eq (hv : L.Values w v v') (op : Token) :
    v.applyUnary op = v'.applyUnary op := by
  have htruthy := hv.truthy_eq
  unfold Value.applyUnary
  split
  · cases hv <;> rfl
  · rw [htruthy]
  · rfl

theorem arithmetic_eq (hv : L.Values w v v') (hu : L.Values w u u') (op : Token)
    (f : Float → Float → Except Cause Value) :
    Value.arithmetic op f v u = Value.arithmetic op f v' u' := by
  cases hv with
  | number => cases hu <;> rfl
  | _ => rfl

theorem add_eq (hv : L.Values w v v') (hu : L.Values w u u') (op : Token) :
    Value.add op v u = Value.add op v' u' := by
  have hvtext := hv.text_eq
  have hutext := hu.text_eq
  cases hv with
  | string => cases hu <;> simp only [Value.add, hutext]
  | _ => cases hu <;> first | rfl | simp only [Value.add, hvtext]

/-- What a binary operator makes of two values depends on nothing but what a program observes of
them. -/
theorem applyBinary_eq (h : L.Faithful) (hv : L.Values w v v') (hu : L.Values w u u')
    (op : Token) : v.applyBinary op u = v'.applyBinary op u' := by
  have hequal := equal_eq h hv hu
  unfold Value.applyBinary
  split
  case h_1 | h_2 => rw [hequal]
  case h_3 => exact add_eq hv hu op
  case h_11 => rfl
  all_goals exact arithmetic_eq hv hu op _

end Values

/-- Operators that correspond do the same, but that a failure is blamed on the one or the other. -/
theorem Outcomes.blamed {L : Likeness W} {w : W} {op op' : Token} {r : Except Failure Value}
    (hop : L.Words op op') (hdata : ∀ v, r = .ok v → v.isData)
    (htoken : ∀ f, r = .error f → f.token = some op)
    (hcause : ∀ f, r = .error f → L.cause f.cause f.cause) :
    L.Outcomes w r (r.mapError fun f => { f with token := some op' }) := by
  cases r with
  | ok v => exact .ok (.ofData (hdata v rfl))
  | error f =>
    refine .error ⟨hcause f rfl, ?_⟩
    rw [htoken f rfl]
    exact .some hop.blame

namespace Values

variable {L} {w : W} {v v' u u' : Value} {op op' : Token}

theorem applyUnary (hop : L.Words op op')
    (hcause : ∀ v f, Value.applyUnary op v = .error f → L.cause f.cause f.cause)
    (hv : L.Values w v v') : L.Outcomes w (v.applyUnary op) (v'.applyUnary op') := by
  rw [← hv.applyUnary_eq, Value.applyUnary_words hop.kind hop.lexeme]
  refine .blamed hop (fun _ => Value.isData_of_applyUnary) (fun f hf => ?_) (hcause v)
  obtain rfl | rfl := Value.error_of_applyUnary hf <;> rfl

theorem applyBinary (h : L.Faithful) (hop : L.Words op op')
    (hcause : ∀ v u f, Value.applyBinary op v u = .error f → L.cause f.cause f.cause)
    (hv : L.Values w v v') (hu : L.Values w u u') :
    L.Outcomes w (v.applyBinary op u) (v'.applyBinary op' u') := by
  rw [← applyBinary_eq h hv hu, Value.applyBinary_words hop.kind hop.lexeme]
  refine .blamed hop (fun _ => Value.isData_of_applyBinary) (fun f hf => ?_) (hcause v u)
  obtain rfl | rfl | rfl | rfl := Value.error_of_applyBinary hf <;> rfl

end Values

/-! ### Answers -/

namespace Answers

variable {L} {w : W}

/-- A host function cannot tell corresponding answers apart. -/
theorem equal_eq (h : L.Faithful) {a a' b b' : Answer} (ha : L.Answers w a a')
    (hb : L.Answers w b b') : a.equal b = a'.equal b' := by
  cases ha with
  | value ha =>
    cases hb with
    | value hb => exact ha.equal_eq h hb
    | nothing | foreign => rfl
  | nothing | foreign => cases hb <;> rfl

theorem view_eq {a a' : Answer} (h : L.Answers w a a') : View.ofAnswer a = View.ofAnswer a' := by
  cases h with
  | value hv => exact hv.view_eq
  | nothing | foreign => rfl

theorem mono {w' : W} (h : L.Extends w w') {a a' : Answer} (ha : L.Answers w a a') :
    L.Answers w' a a' := by
  cases ha with
  | value hv => exact .value (hv.mono h)
  | nothing => exact .nothing
  | foreign typeName => exact .foreign typeName

end Answers

theorem map_view_eq {L : Likeness W} {w : W} {vs vs' : List Value}
    (h : List.Forall₂ (L.Values w) vs vs') : vs.map View.ofValue = vs'.map View.ofValue := by
  induction h with
  | nil => rfl
  | cons hv _ ih => rw [List.map_cons, List.map_cons, hv.view_eq, ih]

/-- Corresponding entries stand at the same places. -/
theorem getElem?_rel {α : Type} {P : α → α → Prop} {as as' : List α}
    (h : List.Forall₂ P as as') (index : Nat) : Option.Rel P as[index]? as'[index]? := by
  induction h generalizing index with
  | nil => exact .none
  | cons ha _ ih =>
    cases index with
    | zero => exact .some ha
    | succ index => simpa only [List.getElem?_cons_succ] using ih index

/-- An entry of the one list corresponds to some entry of the other. -/
theorem exists_mem_of_forall₂ {α : Type} {P : α → α → Prop} {as as' : List α}
    (h : List.Forall₂ P as as') {a : α} (ha : a ∈ as) : ∃ a' ∈ as', P a a' := by
  induction h with
  | nil => cases ha
  | cons hb _ ih =>
    cases ha with
    | head => exact ⟨_, List.mem_cons_self, hb⟩
    | tail _ ha =>
      obtain ⟨a', ha', h⟩ := ih ha
      exact ⟨a', List.mem_cons_of_mem _ ha', h⟩

/-! ### Tables -/

namespace Tables

variable {L} {w : W} {t t' : Table} {a a' : String} {v v' : Value}

/-- The same name is found on both sides, with corresponding values, or on none. -/
theorem get? (h : L.Faithful) (ht : L.Tables w t t') (ha : L.spelling a a') :
    Option.Rel (L.Values w) (t.get? a) (t'.get? a') := by
  induction ht with
  | nil => exact .none
  | @cons b b' t t' hb _ ih =>
    obtain ⟨n, v⟩ := b
    obtain ⟨n', v'⟩ := b'
    have hname : a = n ↔ a' = n' := h.spelling ha hb.1
    by_cases hn : a = n
    · obtain rfl := hn
      obtain rfl := hname.mp rfl
      simpa only [Table.get?, List.lookup_cons_self] using Option.Rel.some hb.2
    · have hn' : a' ≠ n' := fun hn' => hn (hname.mpr hn')
      simpa only [Table.get?, List.lookup_cons, beq_false_of_ne hn, beq_false_of_ne hn'] using ih

theorem set (h : L.Faithful) (ht : L.Tables w t t') (ha : L.spelling a a')
    (hv : L.Values w v v') : L.Tables w (t.set a v) (t'.set a' v') := by
  induction ht with
  | nil => exact .cons ⟨ha, hv⟩ .nil
  | @cons b b' t t' hb ht ih =>
    obtain ⟨n, u⟩ := b
    obtain ⟨n', u'⟩ := b'
    have hname : n = a ↔ n' = a' := h.spelling hb.1 ha
    by_cases hn : n = a
    · rw [Table.set, Table.set, if_pos hn, if_pos (hname.mp hn)]
      exact .cons ⟨hb.1, hv⟩ ht
    · rw [Table.set, Table.set, if_neg hn, if_neg fun hn' => hn (hname.mpr hn')]
      exact .cons hb ih

/-- The scopes of two calls correspond if the functions and their arguments do. -/
theorem bindings (h : L.Faithful) {f f' : Closure} (hf : L.Closures w f f') {vs vs' : List Value}
    (hvs : List.Forall₂ (L.Values w) vs vs') :
    L.Tables w (f.bindings vs) (f'.bindings vs') := by
  have hzip {ps ps' : List Token} (hps : List.Forall₂ L.Names ps ps') {t t' : Table}
      (ht : L.Tables w t t') :
      L.Tables w ((ps.zip vs).foldl (fun t b => t.set b.1.lexeme b.2) t)
        ((ps'.zip vs').foldl (fun t b => t.set b.1.lexeme b.2) t') := by
    induction hps generalizing vs vs' t t' with
    | nil => exact ht
    | cons hp _ ih =>
      cases hvs with
      | nil => exact ht
      | cons hv hvs => exact ih hvs (ht.set h hp.spelling hv)
  exact hzip hf.params .nil

end Tables

end Likeness

/-! ### Chains -/

namespace Scopes

variable {V : Value → Value → Prop} {C : ScopeId → ScopeId → Prop} {s s' : Scopes} {a a' : String}
variable {c c' : Chain}

/-- A name that is found in corresponding scopes alike belongs to corresponding scopes of two
chains. -/
theorem owner?_rel
    (hlocal : ∀ {id id'}, C id id' → Option.Rel V (s.local? id a) (s'.local? id' a'))
    (hc : List.Forall₂ C c.scopes c'.scopes) :
    Option.Rel C (s.owner? c a) (s'.owner? c' a') := by
  rw [owner?, owner?]
  generalize c.scopes = ids at hc ⊢
  generalize c'.scopes = ids' at hc ⊢
  induction hc with
  | nil => exact .none
  | @cons id id' ids ids' hid _ ih =>
    have hfound := hlocal hid
    rw [List.find?_cons, List.find?_cons]
    generalize s.local? id a = o at hfound ⊢
    generalize s'.local? id' a' = o' at hfound ⊢
    cases hfound with
    | some _ => exact .some hid
    | none => exact ih

theorem get?_eq_bind_owner? (s : Scopes) (c : Chain) (a : String) :
    s.get? c a = (s.owner? c a).bind fun id => s.local? id a := by
  rw [get?, owner?]
  induction c.scopes with
  | nil => rfl
  | cons id ids ih =>
    rw [List.findSome?_cons, List.find?_cons]
    cases hid : s.local? id a with
    | none => exact ih
    | some v => exact hid.symm

/-- What belongs to corresponding scopes has corresponding values. -/
theorem get?_rel_of_owner?
    (hlocal : ∀ {id id'}, C id id' → Option.Rel V (s.local? id a) (s'.local? id' a'))
    (howner : Option.Rel C (s.owner? c a) (s'.owner? c' a')) :
    Option.Rel V (s.get? c a) (s'.get? c' a') := by
  rw [get?_eq_bind_owner?, get?_eq_bind_owner?]
  generalize s.owner? c a = o at howner ⊢
  generalize s'.owner? c' a' = o' at howner ⊢
  cases howner with
  | some hid => exact hlocal hid
  | none => exact .none

theorem get?_rel
    (hlocal : ∀ {id id'}, C id id' → Option.Rel V (s.local? id a) (s'.local? id' a'))
    (hc : List.Forall₂ C c.scopes c'.scopes) :
    Option.Rel V (s.get? c a) (s'.get? c' a') :=
  get?_rel_of_owner? hlocal (owner?_rel hlocal hc)

end Scopes

end Lox
