import Lox.Proofs.Execution.Thinning

/-!
# Loops with clauses

A `for` loop is read as a `while` loop. The increment becomes a statement behind the body, in a
block with it, so that each pass makes a scope that the loop as it is written does not make, and
that lies around the functions which the body declares. But no declaration is read as a body, so
that nothing is ever defined in this scope itself: it is hollow, and the tree does what the loop
does as it is written.

## Main definitions

* `ForLoop`: a loop with its clauses.
* `Statement.forClauses`: the reader of loops that leaves them as they are written.
* `ForLoop.run`: what a loop does as it is written.

## Main results

* `ForLoop.agree_pass`: a pass of the tree does what a pass of the loop does.
* `ForLoop.agree_run`: so the tree does what the loop does.
* `Statement.for_endsAlike`: the tree that is read for a loop cannot be told from the loop.
-/

namespace Lox

/-- A `for` loop as it is written. -/
structure ForLoop where
  initializer : Option Node
  condition : Option Node
  increment : Option Node
  body : Node

namespace ForLoop

/-! ### What a loop does -/

/-- How many levels are left to the parts of a loop. -/
structure Levels where
  initializer : Nat
  condition : Nat
  body : Nat
  increment : Nat

section Direct

variable (host : Host) (l : ForLoop) (levels : Levels)

/-- Whether there is a further pass. -/
def continues : Run Bool :=
  match l.condition with
  | none => pure true
  | some e => do return (← (Engine.ofDepth host levels.condition).evaluate e).truthy

/-- The increment of a loop. -/
def advance : Run Unit :=
  match l.increment with
  | none => pure ()
  | some e => do
    let _ ← (Engine.ofDepth host levels.increment).evaluate e

/-- One pass of a loop; the answer is whether the condition held. The increment is evaluated in the
scope of the condition, unless the body ends early. -/
def pass : Run Bool := do
  if ← l.continues host levels then
    (Engine.ofDepth host levels.body).execute l.body
    l.advance host levels
    return true
  else
    return false

/-- The passes of a loop. -/
def repeated : Run Unit := Run.iterate host.passes (l.pass host levels)

/-- What a loop does. It makes a scope if and only if there is an initializer, which is executed
there. -/
def run : Run Unit :=
  match l.initializer with
  | none => l.repeated host levels
  | some n => do
    let scope ← Run.newScope (← get).scope []
    Run.within scope do
      (Engine.ofDepth host levels.initializer).execute n
      l.repeated host levels

end Direct

/-! ### The tree of a loop -/

variable (l : ForLoop)

/-- The tree that is read for a loop. -/
def tree : Node := Statement.desugarFor l.initializer l.condition l.increment l.body

/-- What the tree executes in each pass. -/
def passTree : Node :=
  match l.increment with
  | none => l.body
  | some e => .block [l.body, .expression e]

/-- The `while` loop in the tree. -/
def repeatedTree : Node := .loop (l.condition.getD (.literal (.bool true))) l.passTree

theorem tree_eq : l.tree = match l.initializer with
    | none => l.repeatedTree
    | some n => .block [n, l.repeatedTree] := rfl

/-- The levels that are left to the parts of a loop by a tree that has itself some levels below. -/
def levels (depth : Nat) : Levels :=
  let inside := if l.initializer.isSome then depth - 1 else depth
  { initializer := depth
    condition := inside
    body := if l.increment.isSome then inside - 1 else inside
    increment := inside - 2 }

end ForLoop

/-! ### What is read -/

theorem Node.DefinesNothing.ofInPlace {n : Node} (h : n.isDefinition = false)
    (hinPlace : n.inPlace = []) : n.DefinesNothing :=
  .intro h fun k hk => by
    rw [hinPlace] at hk
    cases hk

theorem Node.DefinesNothing.loop {c n : Node} (h : n.DefinesNothing) :
    (Node.loop c n).DefinesNothing :=
  .intro rfl (List.forall_mem_singleton.mpr h)

/-- The tree of a loop defines nothing where it stands if the body does not. -/
theorem ForLoop.definesNothing_tree {l : ForLoop} (h : l.body.DefinesNothing) :
    l.tree.DefinesNothing := by
  rw [tree_eq]
  cases l.initializer with
  | some n => exact .ofInPlace rfl rfl
  | none =>
    refine .loop ?_
    rw [passTree]
    cases l.increment with
    | none => exact h
    | some e => exact .ofInPlace rfl rfl

/-- Every reader has values. -/
theorem Parse.ensures_true {α : Type} (p : Parse α) :
    p.Ensures (fun _ => True) fun _ => True := by
  intro ts _
  cases p ts with
  | done => exact .done trivial fun _ _ => trivial
  | stopped => exact .stopped fun _ _ => trivial

namespace Statement

variable {bound : Nat} {again : Entry}

/-- A `for` loop behind its keyword, as it is written. -/
def forClauses (again : Entry) : Parse ForLoop := do
  let _ ← Parse.expect .leftParen .forParen
  let initializer ← forInitializer
  let condition ← optionalThen .semicolon .loopConditionEnd
  let increment ← optionalThen .rightParen .forEnd
  let body ← again.statement
  return ⟨initializer, condition, increment, body⟩

theorem forLoop_eq (again : Entry) : forLoop again = ForLoop.tree <$> forClauses again := by
  simp only [forLoop, forClauses, map_bind, map_pure]
  rfl

theorem exists_forClauses {ts rest : List Token} {n : Node} {reports : List SyntaxReport}
    (h : forLoop again ts = .done n reports rest) :
    ∃ l, forClauses again ts = .done l reports rest ∧ n = l.tree := by
  rw [forLoop_eq, map_eq_pure_bind, Parse.bind_apply] at h
  cases hl : forClauses again ts with
  | done l reports' rest' =>
    rw [hl] at h
    obtain ⟨rfl, rfl, rfl⟩ := Parsed.done.inj h
    exact ⟨l, by rw [List.append_nil], rfl⟩
  | stopped =>
    rw [hl] at h
    cases h

section

variable (h : again.statement.Ensures (fun _ => True) Node.DefinesNothing)

include h

theorem ensures_forClauses :
    (forClauses again).Ensures (fun _ => True) fun l => l.body.DefinesNothing :=
  (Parse.ensures_true _).bind fun _ _ => (Parse.ensures_true _).bind fun _ _ =>
    (Parse.ensures_true _).bind fun _ _ => (Parse.ensures_true _).bind fun _ _ =>
      h.bind fun _ hbody => .pure hbody

/-- What is read as a statement is no declaration, and neither are the branches and bodies in it. -/
theorem ensures_definesNothing :
    (statement bound again).Ensures (fun _ => True) Node.DefinesNothing := by
  refine (Parse.ensures_true _).bind fun o _ => ?_
  split
  · exact (Parse.ensures_true _).bind fun _ _ => .pure (.ofInPlace rfl rfl)
  · split
    · rw [forLoop_eq]
      exact (ensures_forClauses h).map fun _ => ForLoop.definesNothing_tree
    · exact (Parse.ensures_true _).bind fun _ _ => h.bind fun _ hbody => .pure (.loop hbody)
    · refine (Parse.ensures_true _).bind fun _ _ => h.bind fun t ht =>
        (h.behind .kwElse).bind fun e he => .pure (.intro rfl ?_)
      exact List.forall_mem_cons.mpr ⟨ht, fun k hk => he k (Option.mem_toList.mp hk)⟩
    all_goals exact (Parse.ensures_true _).bind fun _ _ => .pure (.ofInPlace rfl rfl)

end

theorem ensures_readers_definesNothing (bound : Nat) :
    (readers bound).statement.Ensures (fun _ => True) Node.DefinesNothing := by
  induction bound with
  | zero => exact .exhausted
  | succ bound ih => exact ensures_definesNothing ih

theorem definesNothing_of_forClauses {ts rest : List Token} {l : ForLoop}
    {reports : List SyntaxReport} (h : forClauses (readers bound) ts = .done l reports rest) :
    l.body.DefinesNothing := by
  have hensures := ensures_forClauses (ensures_readers_definesNothing bound) ts fun _ _ => trivial
  rw [h] at hensures
  exact hensures.of_value? l rfl

end Statement

/-! ### The loop and its tree -/

/-- Whether there is a further pass is all that a `while` loop asks of its condition. -/
theorem Engine.pass_eq (below : Engine) (c n : Node) : below.pass c n = (do
    if ← (do return (← below.evaluate c).truthy) then
      below.execute n
      return true
    else
      return false) := by
  simp only [pass, bind_assoc, pure_bind]

namespace ForLoop

variable (host : Host) {l : ForLoop} {lv : Levels} {lax : Prop} {m : Machine} {K : m.Region}
variable {θ : Thinning} {p p' : Place} {depth : Nat}

/-- The parts of a loop have the levels that are left to them by the passes of its tree, where the
condition has some. -/
structure Fits (l : ForLoop) (lv : Levels) (depth : Nat) : Prop where
  condition : lv.condition = depth
  body : lv.body = if l.increment.isSome then depth - 1 else depth
  increment : lv.increment = depth - 2

/-- Without a level left neither makes a pass. -/
theorem agree_pass_zero (hfits : lax ∨ l.Fits lv 0) (c n : Node) :
    (Thinning.simulation K lax).Agree p p' θ (fun _ b b' => b = b')
      ((Engine.ofDepth host 0).pass c n) (l.pass host lv) := by
  obtain hlax | hfits := hfits
  · exact fun _ _ _ => .left hlax
  · have hbody : lv.body = 0 := by simpa using hfits.body
    have hright : l.pass host lv = throw .overflow := by
      rw [pass, continues, hfits.condition, hbody]
      cases l.condition <;> rfl
    rw [hright]
    exact .throw .overflow

theorem agree_continues (hfits : lax ∨ l.Fits lv (depth + 1))
    (hp : (Thinning.simulation K lax).Readable θ p p') :
    (Thinning.simulation K lax).Agree p p' θ (fun _ b b' => b = b')
      (do return (← (Engine.ofDepth host (depth + 1)).evaluate
        (l.condition.getD (.literal (.bool true)))).truthy)
      (l.continues host lv) := by
  rw [continues]
  cases l.condition with
  | none => exact .pure rfl
  | some e =>
    have hlevel : lax ∨ depth + 1 = lv.condition := hfits.imp_right fun h => h.condition.symm
    have hengines := (Thinning.lawful K lax).ofDepth host hlevel
    exact (hengines.evaluate rfl hp).map fun _ _ _ hv => hv.truthy_eq

theorem agree_advance {e : Node} (hlevel : lax ∨ lv.increment = depth + 1 - 2)
    (hp : (Thinning.simulation K lax).Readable θ p p') :
    (Thinning.simulation K lax).Agree p p' θ Simulation.Any
      ((Engine.ofDepth host depth).executeAll [.expression e])
      (do let _ ← (Engine.ofDepth host lv.increment).evaluate e) := by
  have hleft : (Engine.ofDepth host depth).executeAll [.expression e]
      = (Engine.ofDepth host depth).execute (.expression e) := bind_pure_unit
  rw [hleft]
  cases depth with
  | zero =>
    obtain hlax | hlevel := hlevel
    · exact fun _ _ _ => .left hlax
    · rw [hlevel]
      exact .throw .overflow
  | succ depth =>
    have hengines := (Thinning.lawful K lax).ofDepth host (hlevel.imp_right Eq.symm)
    exact (hengines.evaluate rfl hp).bind fun _ _ _ _ _ => .pure trivial

/-- What the tree executes in a pass does the same as the body and the increment. The scope that is
made for the two is hollow. -/
theorem agree_passTree (hfits : lax ∨ l.Fits lv (depth + 1)) (hbody : l.body.DefinesNothing)
    (hp : (Thinning.simulation K lax).Readable θ p p') :
    (Thinning.simulation K lax).Agree p p' θ Simulation.Any
      ((Engine.ofDepth host (depth + 1)).execute l.passTree)
      (do (Engine.ofDepth host lv.body).execute l.body; l.advance host lv) := by
  have hlawful := Thinning.lawful K lax
  rw [passTree, advance]
  cases hincrement : l.increment with
  | none =>
    have hlevel : lax ∨ depth + 1 = lv.body :=
      hfits.imp_right fun h => by simp [h.body, hincrement]
    rw [bind_pure_unit]
    exact hlawful.execute_of_definesNothing host hlevel hbody rfl hp
  | some e =>
    refine Thinning.inHollow hp fun θ₁ c _ hp₁ => ?_
    have hlevel : lax ∨ depth = lv.body :=
      hfits.imp_right fun h => by simp [h.body, hincrement]
    -- From inside the block names may only be looked up, since a definition there would be one in
    -- a hollow scope; for the body this is enough.
    have hagree := hlawful.execute_of_definesNothing host hlevel hbody rfl hp₁
    refine hagree.bind fun θ₂ _ _ hle₂ _ => ?_
    exact agree_advance host (hfits.imp_right Fits.increment) (hlawful.readable_mono hle₂ hp₁)

theorem agree_pass (hfits : lax ∨ l.Fits lv depth) (hbody : l.body.DefinesNothing)
    (hp : (Thinning.simulation K lax).Readable θ p p') :
    (Thinning.simulation K lax).Agree p p' θ (fun _ b b' => b = b')
      ((Engine.ofDepth host depth).pass (l.condition.getD (.literal (.bool true))) l.passTree)
      (l.pass host lv) := by
  cases depth with
  | zero => exact agree_pass_zero host hfits _ _
  | succ depth =>
    rw [Engine.pass_eq, pass]
    refine (agree_continues host hfits hp).bind fun θ₁ b b' hle hb => ?_
    subst hb
    cases b with
    | false => exact .pure rfl
    | true =>
      have hpass := agree_passTree host hfits hbody ((Thinning.lawful K lax).readable_mono hle hp)
      have hagree : (Thinning.simulation K lax).Agree p p' θ₁ (fun _ b b' => b = b')
          (do (Engine.ofDepth host (depth + 1)).execute l.passTree; return true)
          (do (do (Engine.ofDepth host lv.body).execute l.body; l.advance host lv); return true) :=
        hpass.bind fun _ _ _ _ _ => .pure rfl
      -- The tree executes the two as one statement, the loop one after the other.
      rw [bind_assoc] at hagree
      exact hagree

theorem agree_repeated (hfits : lax ∨ l.Fits lv depth) (hbody : l.body.DefinesNothing)
    (hp : (Thinning.simulation K lax).Readable θ p p') :
    (Thinning.simulation K lax).Agree p p' θ Simulation.Any
      ((Engine.ofDepth host (depth + 1)).execute l.repeatedTree) (l.repeated host lv) :=
  .iterate host.passes fun _ hle =>
    agree_pass host hfits hbody ((Thinning.lawful K lax).readable_mono hle hp)

theorem agree_initialized {n : Node} (hlevel : lax ∨ lv.initializer = depth)
    (hfits : lax ∨ l.Fits lv (depth - 1)) (hbody : l.body.DefinesNothing)
    (hp : (Thinning.simulation K lax).Writable θ p p') :
    (Thinning.simulation K lax).Agree p p' θ Simulation.Any
      ((Engine.ofDepth host depth).executeAll [n, l.repeatedTree])
      (do (Engine.ofDepth host lv.initializer).execute n; l.repeated host lv) := by
  have hlawful := Thinning.lawful K lax
  cases depth with
  | zero =>
    -- Both overflow at the initializer and never get to the loop, which would need a level itself.
    obtain hlax | hlevel := hlevel
    · exact fun _ _ _ => .left hlax
    · rw [hlevel]
      exact .throw .overflow
  | succ depth =>
    have hleft : (Engine.ofDepth host (depth + 1)).executeAll [n, l.repeatedTree] = (do
        (Engine.ofDepth host (depth + 1)).execute n
        (Engine.ofDepth host (depth + 1)).execute l.repeatedTree) :=
      bind_congr fun _ => bind_pure_unit
    rw [hleft]
    have hengines := hlawful.ofDepth host (hlevel.imp_right Eq.symm)
    refine (hengines.execute rfl hp).bind fun θ₁ _ _ hle _ => ?_
    exact agree_repeated host hfits hbody (hlawful.readable (hlawful.writable_mono hle hp))

/-- The tree of a loop does what the loop does as it is written. -/
theorem agree_run (hlevels : lax ∨ lv = l.levels depth) (hbody : l.body.DefinesNothing)
    (hp : (Thinning.simulation K lax).Readable θ p p') :
    (Thinning.simulation K lax).Agree p p' θ Simulation.Any
      ((Engine.ofDepth host (depth + 1)).execute l.tree) (l.run host lv) := by
  have hlawful := Thinning.lawful K lax
  rw [tree_eq, run]
  cases hinitializer : l.initializer with
  | none =>
    have hfits : lax ∨ l.Fits lv depth := hlevels.imp_right fun h => by
      constructor <;> simp [h, levels, hinitializer]
    exact agree_repeated host hfits hbody hp
  | some n =>
    have hlevel : lax ∨ lv.initializer = depth := hlevels.imp_right fun h => by rw [h, levels]
    have hfits : lax ∨ l.Fits lv (depth - 1) := hlevels.imp_right fun h => by
      constructor <;> simp [h, levels, hinitializer]
    refine Simulation.Agree.get.bind fun θ₁ m₁ m₁' hle hm => ?_
    have hchain := (hlawful.readable_mono hle hp).chain_of_place hm
    refine (hlawful.newScope hchain .nil).bind fun θ₂ c c' _ hc => .within ?_
    exact agree_initialized host hlevel hfits hbody ⟨hc, hp.calls⟩

theorem exists_endsAlike (l : ForLoop) (K : m.Region) (hlevels : lax ∨ lv = l.levels depth)
    (hlax : lax → (∀ m', (Engine.ofDepth host (depth + 1)).execute l.tree m ≠ .error .overflow m') ∧
      ∀ m', l.run host lv m ≠ .error .overflow m')
    (hbody : l.body.DefinesNothing) :
    ∃ θ, Thinning.EndsAlike host K θ ((Engine.ofDepth host (depth + 1)).execute l.tree m)
      (l.run host lv m) := by
  have hreadable : (Thinning.simulation K lax).Readable K.thinning m.place m.place :=
    ⟨.same fun id hid => ⟨rfl, K.inEffect hid⟩, .rfl⟩
  have hagree := agree_run host hlevels hbody hreadable
  have htree : (Invariant.framed m.scopes none).simulation.Agree m.place m.place () Simulation.Any
      ((Engine.ofDepth host (depth + 1)).execute l.tree)
      ((Engine.ofDepth host (depth + 1)).execute l.tree) :=
    (Invariant.framed_kept m.scopes none).lawful.execute_of_definesNothing host (.inr rfl)
      (definesNothing_tree hbody) ⟨rfl, trivial⟩ ⟨rfl, .rfl⟩
  have hnames := Invariant.store_of_agree id htree ⟨Nat.le_refl _, fun _ _ _ => rfl⟩
  exact Thinning.exists_endsAlike host hlax hagree hnames.2

end ForLoop

/-- What is read behind the keyword is the tree of a loop. -/
theorem Statement.statement_of_kwFor (bound : Nat) (again : Entry) {keyword : Token}
    (h : keyword.kind = .kwFor) (ts : List Token) :
    statement bound again (keyword :: ts) = forLoop again ts := by
  have hkind : keyword.kind ∈ [.kwFor, .kwWhile, .kwIf, .kwPrint, .kwReturn, .leftBrace] := by
    rw [h]
    exact List.mem_cons_self
  refine (Parse.accept_bind_of_mem hkind _ ts).trans ?_
  dsimp only
  rw [h]

/-- The tree that is read for a `for` loop does what the loop does as it is written, in every
machine and whatever region of it is considered. The loop may have any clauses, present or not, and
any body. Let its parts be executed with as many levels as the tree leaves to them, or else let
neither the tree nor the loop overflow. Then both end in the same way: behind the loop, with
corresponding values given back, or with one failure. The same is printed, the scopes that were
there before hold what corresponds and have no further names, and nothing that is executed later can
tell whether it was the tree that was executed or the loop, not even if it calls functions that were
declared there. -/
theorem Statement.for_endsAlike {bound : Nat} {keyword : Token} {ts rest : List Token} {n : Node}
    {reports : List SyntaxReport} (hkeyword : keyword.kind = .kwFor)
    (h : (Statement.readers (bound + 1)).statement (keyword :: ts) = .done n reports rest) :
    ∃ l, Statement.forClauses (Statement.readers bound) ts = .done l reports rest ∧ n = l.tree ∧
      ∀ (host : Host) (m : Machine) (K : m.Region) (depth : Nat) (lv : ForLoop.Levels),
        (lv = l.levels depth ∨
          (∀ m', (Engine.ofDepth host (depth + 1)).execute n m ≠ .error .overflow m') ∧
            ∀ m', l.run host lv m ≠ .error .overflow m') →
        ∃ θ, Thinning.EndsAlike host K θ ((Engine.ofDepth host (depth + 1)).execute n m)
          (l.run host lv m) := by
  have hloop : Statement.forLoop (Statement.readers bound) ts = .done n reports rest :=
    (Statement.statement_of_kwFor _ _ hkeyword ts).symm.trans h
  obtain ⟨l, hl, rfl⟩ := Statement.exists_forClauses hloop
  have hbody := Statement.definesNothing_of_forClauses hl
  exact ⟨l, hl, rfl, fun host m K depth lv hlevels =>
    l.exists_endsAlike host K hlevels.symm id hbody⟩

namespace Counting

def word (kind : Kind) (lexeme : String) : Token := ⟨kind, lexeme, .nil, 1⟩

def number (i : Int) (lexeme : String) : Token := ⟨.number, lexeme, .number (.ofInt i), 1⟩

/-- The variable that is counted up. -/
def counter : Token := word .identifier "i"

/-- The tokens behind the keyword of
`for (var i = 0; i < 2; i = i + 1) { fun f() { return i; } print f(); }`. -/
def tokens : List Token :=
  [word .leftParen "(", word .kwVar "var", counter, word .equal "=", number 0 "0",
    word .semicolon ";", counter, word .less "<", number 2 "2", word .semicolon ";", counter,
    word .equal "=", counter, word .plus "+", number 1 "1", word .rightParen ")",
    word .leftBrace "\x7b", word .kwFun "fun", word .identifier "f", word .leftParen "(",
    word .rightParen ")", word .leftBrace "\x7b", word .kwReturn "return", counter,
    word .semicolon ";", word .rightBrace "\x7d", word .kwPrint "print", word .identifier "f",
    word .leftParen "(", word .rightParen ")", word .semicolon ";", word .rightBrace "\x7d",
    word .endOfInput ""]

/-- The loop with its clauses. -/
def loop : ForLoop where
  initializer := some (.declare counter (some (.literal (.number (.ofInt 0)))))
  condition := some (.binary (.reference counter) (word .less "<") (.literal (.number (.ofInt 2))))
  increment := some (.assign counter
    (.binary (.reference counter) (word .plus "+") (.literal (.number (.ofInt 1)))))
  body := .block [
    .function (word .identifier "f") []
      [.returning (word .kwReturn "return") (some (.reference counter))],
    .print (.call (.reference (word .identifier "f")) (word .rightParen ")") [])]

/-- The machine in which it is executed. -/
def machine : Machine := .fresh CalledBack.host.natives

theorem wellFormed_machine : machine.WellFormed := Machine.wellFormed_fresh CalledBack.host.natives

/-- The functions that are declared in the passes have the hollow scopes around them, but neither
way of counting leaves the counter behind. -/
theorem for_endsAlike_counting :
    (Statement.readers 40).statement (word .kwFor "for" :: tokens)
      = .done loop.tree [] [word .endOfInput ""] ∧
    (∃ θ, Thinning.EndsAlike CalledBack.host wellFormed_machine.region θ
      ((Engine.ofDepth CalledBack.host 31).execute loop.tree machine)
      (loop.run CalledBack.host (loop.levels 30) machine)) ∧
    (endState ((Engine.ofDepth CalledBack.host 31).execute loop.tree machine)).scopes.owner?
      machine.scope "i" = none ∧
    (endState (loop.run CalledBack.host (loop.levels 30) machine)).scopes.owner?
      machine.scope "i" = none := by
  have hread : (Statement.readers 40).statement (word .kwFor "for" :: tokens)
      = .done loop.tree [] [word .endOfInput ""] := rfl
  have hclauses : Statement.forClauses (Statement.readers 39) tokens
      = .done loop [] [word .endOfInput ""] := rfl
  obtain ⟨l, hl, -, hloop⟩ := Statement.for_endsAlike rfl hread
  obtain ⟨rfl, -, -⟩ := Parsed.done.inj (hclauses.symm.trans hl)
  obtain ⟨θ, hends⟩ := hloop CalledBack.host machine wellFormed_machine.region 30 _ (.inl rfl)
  have hinEffect : ∀ id ∈ machine.scope.scopes, id < machine.scopes.next := by decide
  exact ⟨hread, ⟨θ, hends⟩, hends.names.1.owner?_eq hinEffect "i",
    hends.names.2.owner?_eq hinEffect "i"⟩

end Counting

end Lox
