import Lox.Proofs.Rendering.Legible

/-!
# Reading renderings with the operator last

In the rendering of an expression with the operator last each word has a separator in front of it,
except that an operator of one operand is attached to the word before it. No word but the minus
between two operands ends with such an operator, so the text tells which words and operators it
consists of. They are instructions for a machine with a stack: an operator takes its operands from
the stack and a call says how many arguments it takes. What the machine builds is the expression
without its groups, which leave no trace in the rendering.

## Main definitions

* `Instruction`, `Node.instructions`: the parts of a rendering with the operator last.
* `Instruction.step`: what an instruction does to a stack of trees.
* `Node.ungrouped`: a tree without its groups.

## Main results

* `Instruction.texts_injective`: a text tells the instructions that it consists of.
* `Node.LegibleExpression.foldl_instructions`: the instructions of an expression build it, but for
  its groups.
* `Fragment.operatorLast_eq_iff`: expressions look the same with the operator last if and only if
  they are the same in all that is shown of them, but for their groups.
-/

namespace Lox

open Piece (isLetter isDigit)

/-- The parts of a rendering with the operator last: words, and operators that are attached to what
is in front of them. -/
inductive Instruction
  | word (w : Word)
  | attached (sign : Char)

namespace Instruction

/-- An instruction as it is written behind others. -/
def text : Instruction → List Char
  | word w => ' ' :: w.text
  | attached sign => [sign]

/-- The operators that are attached to their operand. -/
def signs : List Char := ['!', '-']

/-- Instructions of a rendering. -/
inductive IsShown : Instruction → Prop
  | word {w : Word} : w.IsShown → w ≠ .written "!" → IsShown (word w)
  | attached {sign : Char} : sign ∈ signs → IsShown (attached sign)

/-- A mark that ends with a sign is that sign. -/
theorem dropLast_of_mem_marks : ∀ word ∈ Word.marks, word ≠ "!" →
    word.toList.getLast?.any (· ∈ signs) = true → word.toList.dropLast = [] := by
  decide

/-- Words that end with a sign are that sign. -/
theorem eq_nil_of_text_eq_concat {w : Word} (hw : w.IsShown) (hbang : w ≠ .written "!")
    {front : List Char} {sign : Char} (hsign : sign ∈ signs) (htext : w.text = front ++ [sign]) :
    front = [] := by
  have hlast : w.text.getLast? = some sign := by rw [htext, List.getLast?_concat]
  obtain ⟨word, hmark, rfl⟩ | ⟨c, hc, hletter⟩ := hw.mark_or_getLast?
  · have hword : word ≠ "!" := fun h => hbang (congrArg Word.written h)
    have hdrop := dropLast_of_mem_marks word hmark hword
    rw [← Word.text, hlast, htext, List.dropLast_concat] at hdrop
    exact hdrop (decide_eq_true hsign)
  · have hsigns : ∀ sign ∈ signs, (isLetter sign || isDigit sign) = false :=
      List.all_iff_forall_prop.mp (by decide)
    obtain rfl : sign = c := Option.some.inj (hlast.symm.trans hc)
    exact absurd hletter (Bool.eq_false_iff.mp (hsigns sign hsign))

/-! ### Instructions are told by their text -/

/-- Some instructions as they are written behind others. -/
def texts (is : List Instruction) : List Char := is.flatMap text

@[simp]
theorem texts_nil : texts [] = [] := rfl

@[simp]
theorem texts_word_cons (w : Word) (is : List Instruction) :
    texts (word w :: is) = ' ' :: (w.text ++ texts is) := rfl

@[simp]
theorem texts_append (is js : List Instruction) : texts (is ++ js) = texts is ++ texts js :=
  List.flatMap_append

theorem texts_map_attached (cs : List Char) : texts (cs.map attached) = cs := by
  induction cs with
  | nil => rfl
  | cons c cs ih => exact congrArg (c :: ·) ih

/-- What is written without a separator is attached. -/
theorem mem_signs_of_prefix {is : List Instruction} (his : ∀ i ∈ is, i.IsShown) {m rest : List Char}
    (htexts : texts is = m ++ rest) (hm : ' ' ∉ m) : ∀ c ∈ m, c ∈ signs := by
  induction is generalizing m with
  | nil =>
    obtain ⟨rfl, -⟩ := List.append_eq_nil_iff.mp htexts.symm
    exact List.forall_mem_nil _
  | cons i is ih =>
    cases m with
    | nil => exact List.forall_mem_nil _
    | cons c m =>
      cases his i (.head _) with
      | word => exact absurd (List.mem_cons.mpr (.inl (List.cons.inj htexts).1)) hm
      | attached hsign =>
        obtain ⟨rfl, hrest⟩ := List.cons.inj htexts
        exact List.forall_mem_cons.mpr ⟨hsign,
          ih (fun j hj => his j (.tail _ hj)) hrest fun h => hm (.tail _ h)⟩

/-- No word is another one with operators attached. -/
theorem word_eq_of_append {w w' : Word} (hw : (word w).IsShown) (hw' : (word w').IsShown)
    {is : List Instruction} (his : ∀ i ∈ is, i.IsShown) {m rest : List Char}
    (hword : w'.text = w.text ++ m) (htexts : texts is = m ++ rest) : w = w' := by
  cases hw with
  | word hw _ =>
    cases hw' with
    | word hw' hbang =>
      obtain rfl | ⟨front, c, rfl⟩ := m.eq_nil_or_concat'
      · rw [List.append_nil] at hword
        exact Word.text_injective hw hw' hword.symm
      · have hblank : ' ' ∉ front ++ [c] := fun hmem =>
          hw'.isSolid.2 ' ' (hword ▸ List.mem_append_right _ hmem) (by decide)
        have hsign := mem_signs_of_prefix his htexts hblank c (by simp)
        have hempty := eq_nil_of_text_eq_concat hw' hbang hsign
          (hword.trans (List.append_assoc _ _ _).symm)
        exact absurd (List.append_eq_nil_iff.mp hempty).1 hw.isSolid.1

/-- A word is told by the text that begins with it. -/
theorem word_texts {w w' : Word} (hw : (word w).IsShown) (hw' : (word w').IsShown)
    {is js : List Instruction} (his : ∀ i ∈ is, i.IsShown) (hjs : ∀ j ∈ js, j.IsShown)
    (htexts : w.text ++ texts is = w'.text ++ texts js) : w = w' := by
  obtain ⟨m, hword, hrest⟩ | ⟨m, hword, hrest⟩ := List.append_eq_append_iff.mp htexts
  · exact word_eq_of_append hw hw' his hword hrest
  · exact (word_eq_of_append hw' hw hjs hword hrest).symm

/-- No word is written as an attached operator. -/
theorem word_append_ne {sign : Char} (h : (attached sign).IsShown) (w : Word) (r s : List Char) :
    (word w).text ++ r ≠ (attached sign).text ++ s := by
  cases h with
  | attached hsign =>
    have hblank : ' ' ∉ signs := by decide
    exact fun htext => hblank ((List.cons.inj htext).1 ▸ hsign)

/-- A text tells the instructions that it consists of. -/
theorem texts_injective {is js : List Instruction} (his : ∀ i ∈ is, i.IsShown)
    (hjs : ∀ j ∈ js, j.IsShown) (htexts : texts is = texts js) : is = js := by
  have hnil (i : Instruction) (is : List Instruction) : texts (i :: is) ≠ [] := by
    cases i <;> exact List.cons_ne_nil _ _
  induction is generalizing js with
  | nil =>
    cases js with
    | nil => rfl
    | cons j js => exact absurd htexts.symm (hnil j js)
  | cons i is ih =>
    cases js with
    | nil => exact absurd htexts (hnil i is)
    | cons j js =>
      obtain ⟨hi, his'⟩ := List.forall_mem_cons.mp his
      obtain ⟨hj, hjs'⟩ := List.forall_mem_cons.mp hjs
      have hcons : i.text ++ texts is = j.text ++ texts js := htexts
      -- the case split is over what the two texts begin with
      match i, j with
      | word w, word w' =>
        obtain rfl := word_texts hi hj his' hjs' (List.cons.inj hcons).2
        rw [ih his' hjs' (List.append_cancel_left hcons)]
      | word w, attached sign => exact absurd hcons (word_append_ne hj w _ _)
      | attached sign, word w => exact absurd hcons.symm (word_append_ne hi w _ _)
      | attached sign, attached sign' =>
        obtain ⟨rfl, hrest⟩ := List.cons.inj hcons
        rw [ih his' hjs' hrest]

end Instruction

/-! ### The instructions of expressions -/

namespace Node

open Instruction (word attached texts)

mutual

/-- The instructions of the rendering of an expression with the operator last. -/
def instructions : Node → List Instruction
  | literal value => [word (.constant value)]
  | grouping inner => inner.instructions
  | unary operator operand => operand.instructions ++ operator.lexeme.toList.map attached
  | binary left operator right | logical left operator right =>
    left.instructions ++ right.instructions ++ [word (.written operator.lexeme)]
  | ternary condition _ thenBranch elseBranch =>
    condition.instructions ++ thenBranch.instructions ++ elseBranch.instructions ++
      [word (.written "?:")]
  | reference name => [word (.written name.lexeme)]
  | assign name value =>
    value.instructions ++ [word (.written name.lexeme), word (.written "=")]
  | call callee _ arguments =>
    callee.instructions ++ instructionsAll arguments ++ [word (.calls arguments.length)]
  | _ => []

/-- The instructions of some expressions. -/
def instructionsAll : List Node → List Instruction
  | [] => []
  | n :: ns => n.instructions ++ instructionsAll ns

end

@[simp]
theorem instructionsAll_eq (ns : List Node) : instructionsAll ns = ns.flatMap instructions := by
  induction ns with
  | nil => rfl
  | cons n ns ih => rw [instructionsAll, ih, List.flatMap_cons]

@[simp]
theorem operatorLastAll_eq (ns : List Node) : operatorLastAll ns = ns.map operatorLast :=
  eq_map_of_cons rfl (fun _ _ => rfl) ns

/-- Words in a row, with a separator in front of each. -/
theorem cons_toList_inRow (word : String) (words : List String) :
    ' ' :: (inRow (word :: words)).toList = (word :: words).flatMap fun w => ' ' :: w.toList := by
  rw [inRow, String.toList_intercalate, List.map_cons]
  change ' ' :: [' '].intercalate _ = _
  rw [intercalate_cons_eq_append, List.flatMap_map, List.flatMap_cons]
  rfl

/-- A rendering with the operator last consists of the instructions of the expression. -/
theorem LegibleExpression.cons_toList_operatorLast {n : Node} (h : n.LegibleExpression) :
    ' ' :: n.operatorLast.toList = texts n.instructions := by
  induction h with
  | literal _ | reference _ => simp [operatorLast, instructions, Word.text]
  | grouping _ ih => exact ih
  | unary _ _ ih =>
    rw [operatorLast, String.toList_append, ← List.cons_append, ih, instructions,
      Instruction.texts_append, Instruction.texts_map_attached]
  | binary _ _ _ ihl ihr | logical _ _ _ ihl ihr =>
    rw [operatorLast, cons_toList_inRow]
    simp [ihl, ihr, instructions, Word.text]
  | ternary _ _ _ _ ihc iht ihe =>
    rw [operatorLast, cons_toList_inRow]
    simp [ihc, iht, ihe, instructions, Word.text]
  | assign _ _ ih =>
    rw [operatorLast, cons_toList_inRow]
    simp [ih, instructions, Word.text]
  | @call _ _ ns _ _ ihc ihs =>
    have harguments : (ns.map operatorLast).flatMap (fun w => ' ' :: w.toList) =
        texts (ns.flatMap instructions) := by
      rw [List.flatMap_map, texts, List.flatMap_assoc]
      exact List.flatMap_congr ihs
    rw [operatorLast, List.cons_append, cons_toList_inRow, operatorLastAll_eq, List.flatMap_cons,
      List.flatMap_append, harguments, ihc]
    simp [instructions, Word.text]

/-! ### The instructions of an expression build it -/

mutual

/-- A tree without its groups: in the place of each there is what it consists of. -/
def ungrouped : Node → Node
  | literal value => literal value
  | grouping inner => inner.ungrouped
  | unary operator operand => unary operator operand.ungrouped
  | binary left operator right => binary left.ungrouped operator right.ungrouped
  | logical left operator right => logical left.ungrouped operator right.ungrouped
  | ternary condition question thenBranch elseBranch =>
    ternary condition.ungrouped question thenBranch.ungrouped elseBranch.ungrouped
  | reference name => reference name
  | assign name value => assign name value.ungrouped
  | call callee paren arguments => call callee.ungrouped paren (ungroupedAll arguments)
  | expression inner => expression inner.ungrouped
  | print inner => print inner.ungrouped
  | declare name initializer => declare name (ungroupedOption initializer)
  | block statements => block (ungroupedAll statements)
  | branch condition thenBranch elseBranch =>
    branch condition.ungrouped thenBranch.ungrouped (ungroupedOption elseBranch)
  | loop condition body => loop condition.ungrouped body.ungrouped
  | function name params body => function name params (ungroupedAll body)
  | returning keyword value => returning keyword (ungroupedOption value)
  | stray token => stray token
  | absent => absent

/-- A tree without its groups, if there is one. -/
def ungroupedOption : Option Node → Option Node
  | none => none
  | some n => some n.ungrouped

/-- Some trees without their groups. -/
def ungroupedAll : List Node → List Node
  | [] => []
  | n :: ns => n.ungrouped :: ungroupedAll ns

end

@[simp]
theorem ungroupedAll_eq (ns : List Node) : ungroupedAll ns = ns.map ungrouped :=
  eq_map_of_cons rfl (fun _ _ => rfl) ns

end Node

namespace Instruction

/-- What a word does to a stack of trees: an operator takes its operands from it. -/
def apply (word : String) (stack : List Node) : List Node :=
  match word, stack with
  | "?:", elseBranch :: thenBranch :: condition :: rest =>
    .ternary condition .unshown thenBranch elseBranch :: rest
  | "=", .reference name :: value :: rest => .assign name value :: rest
  | word, stack =>
    if word ∈ Node.binaryWords then
      match stack with
      | right :: left :: rest => .binary left (.ofLexeme word) right :: rest
      | _ => stack
    else if word ∈ Node.logicalWords then
      match stack with
      | right :: left :: rest => .logical left (.ofLexeme word) right :: rest
      | _ => stack
    else .reference (.ofLexeme word) :: stack

/-- What an instruction does to a stack of trees. -/
def step (stack : List Node) : Instruction → List Node
  | word (.constant value) => .literal value :: stack
  | word (.written w) => apply w stack
  | word (.calls count) =>
    match stack.drop count with
    | callee :: rest => .call callee .unshown (stack.take count).reverse :: rest
    | [] => stack
  | attached sign =>
    match stack with
    | operand :: rest => .unary (.ofLexeme (String.singleton sign)) operand :: rest
    | [] => stack

theorem apply_binary {w : String} (h : w ∈ Node.binaryWords) (l r : Node) (rest : List Node) :
    apply w (r :: l :: rest) = .binary l (.ofLexeme w) r :: rest := by
  simp only [Node.binaryWords, List.mem_cons, List.not_mem_nil, or_false] at h
  obtain rfl | rfl | rfl | rfl | rfl | rfl | rfl | rfl | rfl | rfl := h <;> rfl

theorem apply_logical {w : String} (h : w ∈ Node.logicalWords) (l r : Node) (rest : List Node) :
    apply w (r :: l :: rest) = .logical l (.ofLexeme w) r :: rest := by
  simp only [Node.logicalWords, List.mem_cons, List.not_mem_nil, or_false] at h
  obtain rfl | rfl := h <;> rfl

/-- Names are none of the operators. -/
theorem apply_name {name : Token} (h : name.Names) (stack : List Node) :
    apply name.lexeme stack = .reference name.withoutLine :: stack := by
  have hreserved : ∀ w ∈ "=" :: (Node.binaryWords ++ Node.logicalWords),
      w ∈ Kind.spellings.map Prod.fst := by decide
  have hfree : ∀ w ∈ "=" :: (Node.binaryWords ++ Node.logicalWords), name.lexeme ≠ w :=
    fun w hw heq => h.notReserved (heq ▸ hreserved w hw)
  have hchoice : name.lexeme ≠ "?:" := fun heq => absurd (heq ▸ h.isName) (by decide)
  have hbinary : name.lexeme ∉ Node.binaryWords := fun hmem => hfree _ (by simp [hmem]) rfl
  have hlogical : name.lexeme ∉ Node.logicalWords := fun hmem => hfree _ (by simp [hmem]) rfl
  unfold apply
  split
  · exact absurd ‹_› hchoice
  · exact absurd ‹_› (hfree "=" (by decide))
  · rw [if_neg hbinary, if_neg hlogical, h.told]

theorem step_attached {w : String} (h : w ∈ Node.unaryWords) (n : Node) (rest : List Node) :
    (w.toList.map attached).foldl step (n :: rest) = .unary (.ofLexeme w) n :: rest := by
  simp only [Node.unaryWords, List.mem_cons, List.not_mem_nil, or_false] at h
  obtain rfl | rfl := h <;> rfl

/-- A call takes its arguments from the stack. -/
theorem step_calls (callee : Node) (arguments rest : List Node) :
    step (arguments.reverse ++ callee :: rest) (word (.calls arguments.length)) =
      .call callee .unshown arguments :: rest := by
  rw [step, ← arguments.length_reverse, List.drop_left, List.take_left]
  simp

/-- What each of some instructions puts on the stack is on it in the end. -/
theorem foldl_step_flatMap {instructions : Node → List Instruction} {ns : List Node}
    {f : Node → Node}
    (h : ∀ n ∈ ns, ∀ stack, (instructions n).foldl step stack = f n :: stack) (stack : List Node) :
    (ns.flatMap instructions).foldl step stack = (ns.map f).reverse ++ stack := by
  induction ns generalizing stack with
  | nil => rfl
  | cons n ns ih =>
    obtain ⟨hn, hns⟩ := List.forall_mem_cons.mp h
    rw [List.flatMap_cons, List.foldl_append, hn, ih hns, List.map_cons, List.reverse_cons,
      List.append_assoc]
    rfl

end Instruction

namespace Node

/-- The instructions of an expression build it, but for its groups. -/
theorem LegibleExpression.foldl_instructions {n : Node} (h : n.LegibleExpression)
    (stack : List Node) :
    n.instructions.foldl Instruction.step stack = n.ungrouped.shown :: stack := by
  induction h generalizing stack with
  | literal _ => rfl
  | grouping _ ih => exact ih stack
  | unary hoperator _ ih =>
    rw [instructions, List.foldl_append, ih, Instruction.step_attached hoperator.mem, ungrouped,
      shown, hoperator.told]
  | binary _ hoperator _ ihl ihr =>
    rw [instructions, List.foldl_append, List.foldl_append, ihl, ihr, ungrouped, shown,
      hoperator.told]
    exact Instruction.apply_binary hoperator.mem _ _ _
  | logical _ hoperator _ ihl ihr =>
    rw [instructions, List.foldl_append, List.foldl_append, ihl, ihr, ungrouped, shown,
      hoperator.told]
    exact Instruction.apply_logical hoperator.mem _ _ _
  | ternary _ _ _ _ ihc iht ihe =>
    rw [instructions, List.foldl_append, List.foldl_append, List.foldl_append, ihc, iht, ihe]
    rfl
  | reference hname => exact Instruction.apply_name hname stack
  | @assign name n hname _ ih =>
    rw [instructions, List.foldl_append, ih, ungrouped, shown]
    have hreference := Instruction.apply_name hname (n.ungrouped.shown :: stack)
    exact congrArg (Instruction.apply "=") hreference
  | @call c paren ns _ _ ihc ihs =>
    rw [instructions, List.foldl_append, List.foldl_append, ihc, instructionsAll_eq,
      Instruction.foldl_step_flatMap ihs, ungrouped, shown, shownAll_eq, ungroupedAll_eq,
      List.map_map]
    have hcalls := Instruction.step_calls c.ungrouped.shown (ns.map (shown ∘ ungrouped)) stack
    rwa [List.length_map] at hcalls

end Node

/-! ### Fragments are told by their renderings -/

namespace Instruction

/-- The operators that are words of their own. -/
def operators : List String := "?:" :: "=" :: (Node.binaryWords ++ Node.logicalWords)

theorem operator_cases : ∀ w ∈ operators,
    ((IsName w.toList ∧ w ∉ Word.constants) ∨ w ∈ Word.marks) ∧ w ≠ "!" := by decide

theorem IsShown.operator {w : String} (h : w ∈ operators) :
    (Instruction.word (.written w)).IsShown :=
  .word (.written (operator_cases w h).1) fun heq => (operator_cases w h).2 (Word.written.inj heq)

theorem IsShown.operates {words : List String} {operator : Token} (h : operator.Operates words)
    (hwords : ∀ w ∈ words, w ∈ operators) :
    (Instruction.word (.written operator.lexeme)).IsShown :=
  .operator (hwords _ h.mem)

theorem IsShown.name {name : Token} (h : name.Names) :
    (Instruction.word (.written name.lexeme)).IsShown := by
  refine .word h.isShown fun heq => ?_
  have hbang : "!" ∈ Kind.spellings.map Prod.fst := by decide
  exact h.notReserved (Word.written.inj heq ▸ hbang)

end Instruction

namespace Node

open Instruction (IsShown operators texts)

theorem LegibleExpression.isShown_instructions {n : Node} (h : n.LegibleExpression) :
    ∀ i ∈ n.instructions, i.IsShown := by
  induction h with
  | literal hvalue => exact List.forall_mem_singleton.mpr (.word (.constant hvalue) nofun)
  | grouping _ ih => exact ih
  | unary hoperator _ ih =>
    have hsigns : ∀ w ∈ unaryWords, w.toList.all (· ∈ Instruction.signs) = true := by decide
    exact List.forall_mem_append.mpr ⟨ih, List.forall_mem_map.mpr fun c hc =>
      .attached (List.all_iff_forall_prop.mp (hsigns _ hoperator.mem) c hc)⟩
  | binary _ hoperator _ ihl ihr | logical _ hoperator _ ihl ihr =>
    have hword := IsShown.operates hoperator (by decide)
    exact List.forall_mem_append.mpr
      ⟨List.forall_mem_append.mpr ⟨ihl, ihr⟩, List.forall_mem_singleton.mpr hword⟩
  | ternary _ _ _ _ ihc iht ihe =>
    have hword : (Instruction.word (.written "?:")).IsShown := .operator (by decide)
    simpa [instructions, or_imp, forall_and] using ⟨ihc, iht, ihe, hword⟩
  | reference hname => exact List.forall_mem_singleton.mpr (.name hname)
  | assign hname _ ih =>
    have hword : (Instruction.word (.written "=")).IsShown := .operator (by decide)
    simpa [instructions, or_imp, forall_and] using ⟨ih, .name hname, hword⟩
  | @call _ _ ns _ _ ihc ihs =>
    have hword : (Instruction.word (.calls ns.length)).IsShown := .word (.calls _) nofun
    have harguments : ∀ i ∈ ns.flatMap instructions, i.IsShown := by
      intro i hi
      obtain ⟨n, hn, hi⟩ := List.mem_flatMap.mp hi
      exact ihs n hn i hi
    rw [instructions, instructionsAll_eq]
    exact List.forall_mem_append.mpr
      ⟨List.forall_mem_append.mpr ⟨ihc, harguments⟩, List.forall_mem_singleton.mpr hword⟩

/-- Legible expressions that look the same with the operator last are the same in all that is shown
of them, but for their groups. -/
theorem shown_eq_of_operatorLast_eq {m n : Node} (hm : m.LegibleExpression)
    (hn : n.LegibleExpression) (h : m.operatorLast = n.operatorLast) :
    m.ungrouped.shown = n.ungrouped.shown := by
  have htexts : texts m.instructions = texts n.instructions := by
    rw [← hm.cons_toList_operatorLast, ← hn.cons_toList_operatorLast, h]
  have hinstructions :=
    Instruction.texts_injective hm.isShown_instructions hn.isShown_instructions htexts
  have hstack := hm.foldl_instructions []
  rw [hinstructions, hn.foldl_instructions] at hstack
  exact (List.cons.inj hstack).1.symm

/-- Groups and what is not shown do not matter to the rendering of an expression. -/
theorem LegibleExpression.operatorLast_shown {n : Node} (h : n.LegibleExpression) :
    n.ungrouped.shown.operatorLast = n.operatorLast := by
  induction h with
  | literal _ | reference _ => rfl
  | grouping _ ih => exact ih
  | unary _ _ ih => simp only [ungrouped, shown, operatorLast, ih, Token.withoutLine]
  | binary _ _ _ ihl ihr | logical _ _ _ ihl ihr =>
    simp only [ungrouped, shown, operatorLast, ihl, ihr, Token.withoutLine]
  | ternary _ _ _ _ ihc iht ihe => simp only [ungrouped, shown, operatorLast, ihc, iht, ihe]
  | assign _ _ ih => simp only [ungrouped, shown, operatorLast, ih, Token.withoutLine]
  | @call _ _ ns _ _ ihc ihs =>
    have harguments : ((ns.map ungrouped).map shown).map operatorLast = ns.map operatorLast := by
      rw [List.map_map, List.map_map]
      exact List.map_congr_left ihs
    simp only [ungrouped, shown, operatorLast, ihc, ungroupedAll_eq, shownAll_eq,
      operatorLastAll_eq, harguments, List.length_map]

end Node

/-- The text of an expression with the operator last. -/
theorem Rendering.operatorLast_node {n : Node} (h : n.ProperExpression) :
    Rendering.operatorLast.node n = .ok n.operatorLast := by
  obtain ⟨o, ho⟩ := h.exists_outline_eq
  rw [Rendering.node, ho]
  rfl

/-- Expressions that are read without a complaint from texts without strings and without numbers
that are too large look the same with the operator last if and only if they are the same when
groups are left out, but for the lines of their tokens and the tokens that are not shown. -/
theorem Fragment.operatorLast_eq_iff {s t : String} {m n : Node}
    (hm : (ofText s).expression = some m) (hn : (ofText t).expression = some n)
    (hs : (ofText s).diagnostics = []) (ht : (ofText t).diagnostics = [])
    (hs' : (Scan.ofText s).IsShown) (ht' : (Scan.ofText t).IsShown) :
    Rendering.operatorLast.node m = Rendering.operatorLast.node n ↔
      m.ungrouped.shown = n.ungrouped.shown := by
  have hlegible := legible hm hs hs'
  have hlegible' := legible hn ht ht'
  rw [Rendering.operatorLast_node (proper_ofText hm),
    Rendering.operatorLast_node (proper_ofText hn)]
  constructor
  · intro h
    exact Node.shown_eq_of_operatorLast_eq hlegible hlegible' (Except.ok.inj h)
  · intro h
    rw [← hlegible.operatorLast_shown, h, hlegible'.operatorLast_shown]

namespace Fragment.Regrouped

/-- An expression. -/
def text : String := "b = -(a - 1) != !f(x, 2.5) ? -1 : c or nil"

/-- The expression with other groups, spaces and lines. -/
def regrouped : String :=
  "b = ((-((a) - 1.0)) != (!f((x),\n2.50)) ? ((-1)) // sign\n : ((c) or nil))"

/-- What is read from a text. -/
def tree (text : String) : Node := (ofText text).expression.getD .absent

theorem operatorLast_eq_iff_regrouped :
    ((ofText text).expression = some (tree text) ∧
      (ofText regrouped).expression = some (tree regrouped) ∧
      (ofText text).diagnostics = [] ∧ (ofText regrouped).diagnostics = [] ∧
      (Scan.ofText text).IsShown ∧ (Scan.ofText regrouped).IsShown) ∧
    Rendering.operatorLast.node (tree text) = Rendering.operatorLast.node (tree regrouped) ∧
    (tree text).ungrouped.shown = (tree regrouped).ungrouped.shown := by
  have hread : ∀ t ∈ [text, regrouped], (ofText t).expression.isSome = true ∧
      (ofText t).diagnostics = [] ∧ (Scan.ofText t).IsShown := by decide +kernel
  have htree {t : String} (h : (ofText t).expression.isSome = true) :
      (ofText t).expression = some (tree t) := by
    obtain ⟨n, hn⟩ := Option.isSome_iff_exists.mp h
    rw [tree, hn]
    rfl
  have hrendering : Rendering.operatorLast.node (tree text) =
      Rendering.operatorLast.node (tree regrouped) := by decide +kernel
  obtain ⟨hsome, hclean, hshown⟩ := hread text (by simp)
  obtain ⟨hsome', hclean', hshown'⟩ := hread regrouped (by simp)
  exact ⟨⟨htree hsome, htree hsome', hclean, hclean', hshown, hshown'⟩, hrendering,
    (operatorLast_eq_iff (htree hsome) (htree hsome') hclean hclean' hshown hshown').mp hrendering⟩

end Fragment.Regrouped

end Lox
