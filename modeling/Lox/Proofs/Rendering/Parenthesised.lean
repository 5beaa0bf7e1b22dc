import Lox.Proofs.Rendering.Legible

/-!
# Reading renderings in parentheses

The rendering of a program in parentheses shows its statements. Words end at separators and at
parentheses, and what is in parentheses ends with the parenthesis that closes it, so nested words
can be told from their text even where more text follows. The first word in parentheses and the
number of the others tell the form of a tree.

## Main definitions

* `Bracketed`, `Bracketed.text`: words in nested parentheses, and how they are written.
* `Node.bracketed`: the words of the rendering of a tree.
* `Bracketed.decode`: what of a tree is to be told from its words.

## Main results

* `Bracketed.IsShown.told`: nested words are told by the text that begins with them.
* `Node.LegibleStatement.decode_bracketed`: the words of a legible tree tell what is shown of it.
* `Program.parens_eq_iff`: programs look the same in parentheses if and only if they are the same
  in all that is shown of them.
-/

namespace Lox

/-- Words in nested parentheses. -/
inductive Bracketed
  | word (w : Word)
  | list (items : List Bracketed)

namespace Bracketed

mutual

/-- Nested words as they are written. -/
def text : Bracketed → List Char
  | word w => w.text
  | list items => '(' :: ([' '].intercalate (texts items) ++ [')'])

/-- Some nested words as they are written. -/
def texts : List Bracketed → List (List Char)
  | [] => []
  | b :: bs => b.text :: texts bs

end

@[simp]
theorem texts_eq (bs : List Bracketed) : texts bs = bs.map text :=
  eq_map_of_cons rfl (fun _ _ => rfl) bs

/-- Nested words that are those of a rendering. -/
inductive IsShown : Bracketed → Prop
  | word {w : Word} : w.IsShown → IsShown (word w)
  | list {items : List Bracketed} : (∀ b ∈ items, IsShown b) → IsShown (list items)

/-! ### Nested words are told by their texts -/

/-- The characters at which a word ends. -/
def ends : List Char := [' ', ')', '\n']

/-- What may follow on nested words. -/
def Follows (behind : List Char) : Prop := ∀ c ∈ behind.head?, c ∈ ends

theorem ends_subset : ∀ c ∈ ends, c ∈ Word.separators := List.all_iff_forall_prop.mp (by decide)

/-- A word is told by the text that begins with it. -/
theorem word_told {w w' : Word} (hw : w.IsShown) (hw' : w'.IsShown) {r s : List Char}
    (hr : Follows r) (hs : Follows s) (htext : w.text ++ r = w'.text ++ s) : w = w' ∧ r = s := by
  have htake {w : Word} (hw : w.IsShown) {r : List Char} (hr : Follows r) :
      (w.text ++ r).takeWhile (· ∉ ends) = w.text := by
    refine takeWhile_append_of_ends (fun c hc => ?_) fun c hc => ?_
    · exact decide_eq_true fun hmem => hw.isSolid.2 c hc (ends_subset c hmem)
    · exact decide_eq_false fun hmem => hmem (hr c hc)
  have hword : w.text = w'.text := by rw [← htake hw hr, htext, htake hw' hs]
  exact ⟨Word.text_injective hw hw' hword, List.append_cancel_left (hword ▸ htext)⟩

/-- Nested words do not begin with a character at which a word ends. -/
theorem IsShown.exists_cons {b : Bracketed} (h : b.IsShown) :
    ∃ c cs, b.text = c :: cs ∧ c ∉ ends := by
  cases h with
  | @word w hw =>
    obtain ⟨c, cs, hcs⟩ := List.exists_cons_of_ne_nil hw.isSolid.1
    exact ⟨c, cs, hcs, fun hmem => hw.isSolid.2 c (hcs ▸ .head _) (ends_subset c hmem)⟩
  | list _ => exact ⟨_, _, rfl, by decide⟩

/-- No word begins with a parenthesis. -/
theorem word_append_ne {w : Word} (hw : w.IsShown) (items : List Bracketed) (r s : List Char) :
    w.text ++ r ≠ (list items).text ++ s := by
  obtain ⟨c, cs, hcs⟩ := List.exists_cons_of_ne_nil hw.isSolid.1
  intro htext
  rw [hcs] at htext
  obtain rfl : c = '(' := (List.cons.inj htext).1
  exact absurd (by decide) (hw.isSolid.2 '(' (hcs ▸ .head _))

/-- Nested words that are told by any text that begins with them. -/
def Told (a : Bracketed) : Prop :=
  ∀ ⦃b : Bracketed⦄, b.IsShown → ∀ ⦃r s : List Char⦄, Follows r → Follows s →
    a.text ++ r = b.text ++ s → a = b ∧ r = s

section Lists

variable {sep : Char} {as bs : List Bracketed} {r s : List Char}

/-- Nested words with a separator in front of each. -/
def behind (sep : Char) (bs : List Bracketed) : List Char := bs.flatMap fun b => sep :: b.text

theorem intercalate_eq_append_behind (sep : Char) (b : Bracketed) (bs : List Bracketed) :
    [sep].intercalate ((b :: bs).map text) = b.text ++ behind sep bs := by
  rw [List.map_cons, intercalate_cons_eq_append, List.flatMap_map, behind]

theorem behind_cons (sep : Char) (b : Bracketed) (bs : List Bracketed) :
    behind sep (b :: bs) = sep :: [sep].intercalate ((b :: bs).map text) := by
  rw [intercalate_eq_append_behind]
  rfl

theorem follows_behind (hsep : sep ∈ ends) (bs : List Bracketed) (hr : Follows r) :
    Follows (behind sep bs ++ r) := by
  cases bs with
  | nil => exact hr
  | cons b bs =>
    rintro _ ⟨⟩
    exact hsep

/-- What may follow on a list, if it does not begin as one more entry would. -/
structure Closes (sep : Char) (r : List Char) : Prop where
  follows : Follows r
  noEntry : r.head? ≠ some sep

/-- Separated words are told by a text that begins with them, if each of them is told. -/
theorem behind_told (hsep : sep ∈ ends) (has : ∀ a ∈ as, a.Told) (hbs : ∀ b ∈ bs, b.IsShown)
    (hr : Closes sep r) (hs : Closes sep s) (htext : behind sep as ++ r = behind sep bs ++ s) :
    as = bs ∧ r = s := by
  induction as generalizing bs with
  | nil =>
    cases bs with
    | nil => exact ⟨rfl, htext⟩
    | cons b bs => exact absurd (congrArg List.head? htext) hr.noEntry
  | cons a as ih =>
    cases bs with
    | nil => exact absurd (congrArg List.head? htext).symm hs.noEntry
    | cons b bs =>
      obtain ⟨ha, htold⟩ := List.forall_mem_cons.mp has
      obtain ⟨hb, hshown⟩ := List.forall_mem_cons.mp hbs
      simp only [behind, List.flatMap_cons, List.cons_append, List.append_assoc,
        List.cons.injEq, true_and] at htext
      obtain ⟨rfl, hrest⟩ := ha hb (follows_behind hsep as hr.follows)
        (follows_behind hsep bs hs.follows) htext
      obtain ⟨rfl, hrs⟩ := ih htold hshown hrest
      exact ⟨rfl, hrs⟩

/-- No entry begins where a list ends. -/
theorem not_entry (hb : ∀ b ∈ bs, b.IsShown) (hne : bs ≠ []) (hr : Follows r) :
    r ≠ [sep].intercalate (bs.map text) ++ s := by
  obtain ⟨b, bs, rfl⟩ := List.exists_cons_of_ne_nil hne
  obtain ⟨c, cs, hcs, hc⟩ := (hb b (.head _)).exists_cons
  rintro rfl
  rw [intercalate_eq_append_behind, hcs] at hr
  exact hc (hr c rfl)

/-- A list is told by a text that begins with it, if each of its entries is told. -/
theorem intercalate_told (hsep : sep ∈ ends) (has : ∀ a ∈ as, a.Told)
    (has' : ∀ a ∈ as, a.IsShown) (hbs : ∀ b ∈ bs, b.IsShown) (hr : Closes sep r) (hs : Closes sep s)
    (htext : [sep].intercalate (as.map text) ++ r = [sep].intercalate (bs.map text) ++ s) :
    as = bs ∧ r = s := by
  cases as with
  | nil =>
    cases bs with
    | nil => exact ⟨rfl, htext⟩
    | cons b bs => exact absurd htext (not_entry hbs (List.cons_ne_nil _ _) hr.follows)
  | cons a as =>
    cases bs with
    | nil => exact absurd htext.symm (not_entry has' (List.cons_ne_nil _ _) hs.follows)
    | cons b bs =>
      refine behind_told hsep has hbs hr hs ?_
      rw [behind_cons, behind_cons, List.cons_append, List.cons_append, htext]

end Lists

/-- Nested words are told by any text that begins with them. -/
theorem IsShown.told {a : Bracketed} (ha : a.IsShown) : a.Told := by
  induction ha with
  | @word w hw =>
    intro b hb r s hr hs htext
    cases hb with
    | word hw' =>
      obtain ⟨rfl, hrs⟩ := word_told hw hw' hr hs htext
      exact ⟨rfl, hrs⟩
    | list _ => exact absurd htext (word_append_ne hw _ r s)
  | @list items hitems ih =>
    intro b hb r s hr hs htext
    have hclose (r : List Char) : Closes ' ' (')' :: r) :=
      ⟨by rintro _ ⟨⟩; decide, by simp⟩
    cases hb with
    | word hw => exact absurd htext.symm (word_append_ne hw _ s r)
    | list hitems' =>
      simp only [text, texts_eq, List.cons_append, List.append_assoc, List.nil_append,
        List.cons.injEq, true_and] at htext
      obtain ⟨rfl, hrest⟩ :=
        intercalate_told (by decide) ih hitems hitems' (hclose r) (hclose s) htext
      exact ⟨rfl, (List.cons.inj hrest).2⟩

end Bracketed

/-! ### The words of trees -/

namespace Bracketed

/-- A word that is written as it is. -/
def written (w : String) : Bracketed := word (.written w)

/-- A label and other words in parentheses. -/
def labelled (label : String) (items : List Bracketed) : Bracketed := list (written label :: items)

@[simp]
theorem text_written (w : String) : (written w).text = w.toList := rfl

end Bracketed

namespace Node

open Bracketed (written labelled)

mutual

/-- The words of the rendering of a tree in parentheses. -/
def bracketed : Node → Bracketed
  | literal value => .word (.constant value)
  | grouping inner => labelled "group" [inner.bracketed]
  | unary operator operand => labelled operator.lexeme [operand.bracketed]
  | binary left operator right | logical left operator right =>
    labelled operator.lexeme [left.bracketed, right.bracketed]
  | ternary condition _ thenBranch elseBranch =>
    labelled "?:" [condition.bracketed, thenBranch.bracketed, elseBranch.bracketed]
  | reference name => written name.lexeme
  | assign name value => labelled "=" [written name.lexeme, value.bracketed]
  | call callee _ arguments => labelled "call" (callee.bracketed :: bracketedAll arguments)
  | expression inner => labelled ";" [inner.bracketed]
  | print inner => labelled "print" [inner.bracketed]
  | declare name none => labelled "var" [written name.lexeme]
  | declare name (some initializer) =>
    labelled "var" [written name.lexeme, written "=", initializer.bracketed]
  | block statements => labelled "block" (bracketedAll statements)
  | branch condition thenBranch none =>
    labelled "if" [condition.bracketed, thenBranch.bracketed]
  | branch condition thenBranch (some elseBranch) =>
    labelled "if" [condition.bracketed, thenBranch.bracketed, elseBranch.bracketed]
  | loop condition body => labelled "while" [condition.bracketed, body.bracketed]
  | function name params body =>
    labelled "fun" (written name.lexeme :: .list (params.map fun p => written p.lexeme) ::
      bracketedAll body)
  | returning _ none => labelled "return" []
  | returning _ (some value) => labelled "return" [value.bracketed]
  | stray token => written (stray token).label
  | absent => written absent.label

/-- The words of some trees. -/
def bracketedAll : List Node → List Bracketed
  | [] => []
  | n :: ns => n.bracketed :: bracketedAll ns

end

@[simp]
theorem bracketedAll_eq (ns : List Node) : bracketedAll ns = ns.map bracketed :=
  eq_map_of_cons rfl (fun _ _ => rfl) ns

@[simp]
theorem parensAll_eq (ns : List Node) : parensAll ns = ns.map parens :=
  eq_map_of_cons rfl (fun _ _ => rfl) ns

@[simp]
theorem toList_inParens (words : List String) :
    (inParens words).toList = '(' :: ([' '].intercalate (words.map String.toList) ++ [')']) := by
  rw [inParens, String.toList_append, String.toList_append, String.toList_intercalate]
  rfl

theorem toList_inParens_cons {label : String} {words : List String} {items : List Bracketed}
    (h : words.map String.toList = items.map Bracketed.text) :
    (inParens (label :: words)).toList = (labelled label items).text := by
  rw [toList_inParens, List.map_cons, h, labelled, Bracketed.text, Bracketed.texts_eq,
    List.map_cons, Bracketed.text_written]

mutual

/-- A rendering in parentheses consists of the words of the tree. -/
theorem toList_parens : (n : Node) → n.parens.toList = n.bracketed.text
  | literal _ | reference _ | stray _ | absent => rfl
  | grouping n | unary _ n | expression n | print n | assign _ n | declare _ (some n) |
    returning _ (some n) => toList_inParens_cons (by simp [toList_parens n])
  | binary l _ r | logical l _ r | loop l r | branch l r none =>
    toList_inParens_cons (by simp [toList_parens l, toList_parens r])
  | ternary c _ t e | branch c t (some e) =>
    toList_inParens_cons (by simp [toList_parens c, toList_parens t, toList_parens e])
  | declare _ none | returning _ none => toList_inParens_cons (by simp)
  | block ns => toList_inParens_cons (by simpa using toList_parens_of_mem ns)
  | call c _ ns =>
    toList_inParens_cons (by simpa [toList_parens c] using toList_parens_of_mem ns)
  | function _ params ns =>
    toList_inParens_cons
      (by simpa [Bracketed.text, Function.comp_def] using toList_parens_of_mem ns)

theorem toList_parens_of_mem : (ns : List Node) → ∀ n ∈ ns, n.parens.toList = n.bracketed.text
  | [] => List.forall_mem_nil _
  | n :: ns => List.forall_mem_cons.mpr ⟨toList_parens n, toList_parens_of_mem ns⟩

end

mutual

/-- The words of a tree are among what is shown of it. -/
theorem bracketed_shown : (n : Node) → n.shown.bracketed = n.bracketed
  | literal _ | reference _ | stray _ | absent => rfl
  | grouping n | unary _ n | expression n | print n | assign _ n | declare _ (some n) |
    returning _ (some n) => by simp [shown, bracketed, bracketed_shown n, Token.withoutLine]
  | binary l _ r | logical l _ r | loop l r | branch l r none => by
    simp [shown, bracketed, bracketed_shown l, bracketed_shown r, Token.withoutLine]
  | ternary c _ t e | branch c t (some e) => by
    simp [shown, bracketed, bracketed_shown c, bracketed_shown t, bracketed_shown e]
  | declare _ none | returning _ none => rfl
  | block ns => by simp [shown, bracketed, map_bracketed_shown ns]
  | call c _ ns => by simp [shown, bracketed, bracketed_shown c, map_bracketed_shown ns]
  | function _ params ns => by
    have hparams : (fun p : Token => written p.lexeme) ∘ Token.withoutLine =
      fun p => written p.lexeme := rfl
    simp [shown, bracketed, map_bracketed_shown ns, hparams, Token.withoutLine]

theorem map_bracketed_shown : (ns : List Node) →
    ns.map (bracketed ∘ shown) = ns.map bracketed
  | [] => rfl
  | n :: ns => by
    rw [List.map_cons, List.map_cons, Function.comp_apply, bracketed_shown n,
      map_bracketed_shown ns]

end

end Node

/-! ### Trees are told by their words -/

namespace Bracketed

/-- The names in a list. -/
def names : Bracketed → List Token
  | list items => items.filterMap fun
    | word (.written name) => some (.ofLexeme name)
    | _ => none
  | word _ => []

/-- What of a tree is to be told from its label, the words behind it and the trees among them. -/
def assemble (label : String) (items : List Bracketed) (parts : List Node) : Node :=
  match label, items, parts with
  | "group", _, [inner] => .grouping inner
  | "?:", _, [condition, thenBranch, elseBranch] =>
    .ternary condition .unshown thenBranch elseBranch
  | "=", _, [.reference name, value] => .assign name value
  | "call", _, callee :: arguments => .call callee .unshown arguments
  | ";", _, [inner] => .expression inner
  | "print", _, [inner] => .print inner
  | "var", _, [.reference name] => .declare name none
  | "var", _, [.reference name, _, initializer] => .declare name (some initializer)
  | "block", _, statements => .block statements
  | "if", _, [condition, thenBranch] => .branch condition thenBranch none
  | "if", _, [condition, thenBranch, elseBranch] => .branch condition thenBranch (some elseBranch)
  | "while", _, [condition, body] => .loop condition body
  | "fun", _ :: params :: _, .reference name :: _ :: body => .function name params.names body
  | "return", _, [] => .returning .unshown none
  | "return", _, [value] => .returning .unshown (some value)
  | operator, _, [operand] => .unary (.ofLexeme operator) operand
  | operator, _, [left, right] =>
    if operator ∈ Node.logicalWords then .logical left (.ofLexeme operator) right
    else .binary left (.ofLexeme operator) right
  | _, _, _ => .absent

mutual

/-- What of a tree is to be told from its words. -/
def decode : Bracketed → Node
  | word (.constant value) => .literal value
  | word (.written name) => .reference (.ofLexeme name)
  | word (.calls _) => .absent
  | list [] => .absent
  | list (word (.written label) :: items) => assemble label items (decodeAll items)
  | list (_ :: _) => .absent

/-- What of some trees is to be told from their words. -/
def decodeAll : List Bracketed → List Node
  | [] => []
  | b :: bs => b.decode :: decodeAll bs

end

@[simp]
theorem decodeAll_eq (bs : List Bracketed) : decodeAll bs = bs.map decode :=
  eq_map_of_cons rfl (fun _ _ => rfl) bs

theorem decode_labelled (label : String) (items : List Bracketed) :
    (labelled label items).decode = assemble label items (items.map decode) := by
  rw [← decodeAll_eq]
  rfl

theorem assemble_unary {label : String} (h : label ∈ Node.unaryWords) (items : List Bracketed)
    (n : Node) : assemble label items [n] = .unary (.ofLexeme label) n := by
  simp only [Node.unaryWords, List.mem_cons, List.not_mem_nil, or_false] at h
  obtain rfl | rfl := h <;> rfl

theorem assemble_binary {label : String} (h : label ∈ Node.binaryWords) (items : List Bracketed)
    (l r : Node) : assemble label items [l, r] = .binary l (.ofLexeme label) r := by
  simp only [Node.binaryWords, List.mem_cons, List.not_mem_nil, or_false] at h
  obtain rfl | rfl | rfl | rfl | rfl | rfl | rfl | rfl | rfl | rfl := h <;> rfl

theorem assemble_logical {label : String} (h : label ∈ Node.logicalWords) (items : List Bracketed)
    (l r : Node) : assemble label items [l, r] = .logical l (.ofLexeme label) r := by
  simp only [Node.logicalWords, List.mem_cons, List.not_mem_nil, or_false] at h
  obtain rfl | rfl := h <;> rfl

theorem names_list {params : List Token} (h : ∀ p ∈ params, p.Names) :
    (list (params.map fun p => written p.lexeme)).names = params.map Token.withoutLine := by
  rw [names, List.filterMap_map]
  exact (List.filterMap_congr fun p hp => congrArg some (h p hp).told.symm).trans
    (congrFun List.filterMap_eq_map params)

end Bracketed

namespace Node

open Bracketed (written labelled decode decode_labelled)

theorem map_decode_bracketedAll {ns : List Node} (h : ∀ n ∈ ns, n.bracketed.decode = n.shown) :
    (bracketedAll ns).map decode = shownAll ns := by
  rw [bracketedAll_eq, shownAll_eq, List.map_map]
  exact List.map_congr_left h

/-- The words of a legible expression tell what is shown of it. -/
theorem LegibleExpression.decode_bracketed {n : Node} (h : n.LegibleExpression) :
    n.bracketed.decode = n.shown := by
  induction h with
  | literal _ => rfl
  | grouping _ ih =>
    rw [bracketed, decode_labelled, List.map_singleton, ih]
    rfl
  | unary hoperator _ ih =>
    rw [bracketed, decode_labelled, List.map_singleton, ih,
      Bracketed.assemble_unary hoperator.mem, ← hoperator.told]
    rfl
  | binary _ hoperator _ ihl ihr =>
    rw [bracketed, decode_labelled, List.map_cons, List.map_singleton, ihl, ihr,
      Bracketed.assemble_binary hoperator.mem, ← hoperator.told]
    rfl
  | logical _ hoperator _ ihl ihr =>
    rw [bracketed, decode_labelled, List.map_cons, List.map_singleton, ihl, ihr,
      Bracketed.assemble_logical hoperator.mem, ← hoperator.told]
    rfl
  | ternary _ _ _ _ ihc iht ihe =>
    rw [bracketed, decode_labelled, List.map_cons, List.map_cons, List.map_singleton, ihc, iht, ihe]
    rfl
  | reference hname => exact congrArg Node.reference hname.told.symm
  | assign hname _ ih =>
    rw [bracketed, decode_labelled, List.map_cons, List.map_singleton, ih, shown, hname.told]
    rfl
  | call _ _ _ ihc ihs =>
    rw [bracketed, decode_labelled, List.map_cons, ihc, map_decode_bracketedAll ihs]
    rfl

/-- The words of a legible statement tell what is shown of it. -/
theorem LegibleStatement.decode_bracketed {n : Node} (h : n.LegibleStatement) :
    n.bracketed.decode = n.shown := by
  induction h with
  | expression hn | print hn =>
    rw [bracketed, decode_labelled, List.map_singleton, hn.decode_bracketed]
    rfl
  | @declare name n hname hn =>
    cases n with
    | none =>
      rw [bracketed, decode_labelled, shown, hname.told]
      rfl
    | some n =>
      rw [bracketed, decode_labelled, List.map_cons, List.map_cons, List.map_singleton,
        (hn n rfl).decode_bracketed, shown, hname.told]
      rfl
  | block _ ih =>
    rw [bracketed, decode_labelled, map_decode_bracketedAll ih]
    rfl
  | @branch c t e hc _ _ iht ihe =>
    cases e with
    | none =>
      rw [bracketed, decode_labelled, List.map_cons, List.map_singleton, hc.decode_bracketed, iht]
      rfl
    | some e =>
      rw [bracketed, decode_labelled, List.map_cons, List.map_cons, List.map_singleton,
        hc.decode_bracketed, iht, ihe e rfl]
      rfl
  | loop hc _ ih =>
    rw [bracketed, decode_labelled, List.map_cons, List.map_singleton, hc.decode_bracketed, ih]
    rfl
  | @function name params body hname hparams _ ih =>
    rw [bracketed, decode_labelled, List.map_cons, List.map_cons, map_decode_bracketedAll ih, shown,
      hname.told, ← Bracketed.names_list hparams]
    rfl
  | @returning keyword n hn =>
    cases n with
    | none => rfl
    | some n =>
      rw [bracketed, decode_labelled, List.map_singleton, (hn n rfl).decode_bracketed]
      rfl

end Node

/-! ### The words of trees are those of renderings -/

namespace Bracketed

/-- The words that begin a rendering in parentheses. -/
def labels : List String :=
  ["group", "?:", "=", "call", ";", "print", "var", "block", "if", "while", "fun", "return"] ++
    (Node.unaryWords ++ Node.binaryWords ++ Node.logicalWords)

theorem label_cases : ∀ label ∈ labels,
    (IsName label.toList ∧ label ∉ Word.constants) ∨ label ∈ Word.marks := by decide

theorem IsShown.written {label : String} (h : label ∈ labels) : (written label).IsShown :=
  .word (.written (label_cases label h))

theorem IsShown.labelled {label : String} {items : List Bracketed} (h : label ∈ labels)
    (hitems : ∀ b ∈ items, b.IsShown) : (labelled label items).IsShown :=
  .list (List.forall_mem_cons.mpr ⟨.written h, hitems⟩)

theorem IsShown.name {name : Token} (h : name.Names) : (Bracketed.written name.lexeme).IsShown :=
  .word h.isShown

end Bracketed

namespace Node

open Bracketed (IsShown)

theorem isShown_bracketedAll {ns : List Node} (h : ∀ n ∈ ns, n.bracketed.IsShown) :
    ∀ b ∈ bracketedAll ns, b.IsShown := by
  rw [bracketedAll_eq]
  exact List.forall_mem_map.mpr h

theorem LegibleExpression.isShown_bracketed {n : Node} (h : n.LegibleExpression) :
    n.bracketed.IsShown := by
  induction h with
  | literal hvalue => exact .word (.constant hvalue)
  | grouping _ ih => exact .labelled (by decide) (by simpa using ih)
  | unary hoperator _ ih =>
    exact .labelled (by simp [Bracketed.labels, hoperator.mem]) (by simpa using ih)
  | binary _ hoperator _ ihl ihr =>
    exact .labelled (by simp [Bracketed.labels, hoperator.mem]) (by simpa using ⟨ihl, ihr⟩)
  | logical _ hoperator _ ihl ihr =>
    exact .labelled (by simp [Bracketed.labels, hoperator.mem]) (by simpa using ⟨ihl, ihr⟩)
  | ternary _ _ _ _ ihc iht ihe => exact .labelled (by decide) (by simpa using ⟨ihc, iht, ihe⟩)
  | reference hname => exact .name hname
  | assign hname _ ih => exact .labelled (by decide) (by simpa using ⟨.name hname, ih⟩)
  | call _ _ _ ihc ihs =>
    exact .labelled (by decide) (List.forall_mem_cons.mpr ⟨ihc, isShown_bracketedAll ihs⟩)

theorem LegibleStatement.isShown_bracketed {n : Node} (h : n.LegibleStatement) :
    n.bracketed.IsShown := by
  induction h with
  | expression hn | print hn =>
    exact .labelled (by decide) (by simpa using hn.isShown_bracketed)
  | @declare name n hname hn =>
    cases n with
    | none => exact .labelled (by decide) (by simpa using .name hname)
    | some n =>
      have hequal : (Bracketed.written "=").IsShown := .written (by decide)
      exact .labelled (by decide)
        (by simpa using ⟨.name hname, hequal, (hn n rfl).isShown_bracketed⟩)
  | block _ ih => exact .labelled (by decide) (isShown_bracketedAll ih)
  | @branch c t e hc _ _ iht ihe =>
    cases e with
    | none => exact .labelled (by decide) (by simpa using ⟨hc.isShown_bracketed, iht⟩)
    | some e =>
      exact .labelled (by decide) (by simpa using ⟨hc.isShown_bracketed, iht, ihe e rfl⟩)
  | loop hc _ ih => exact .labelled (by decide) (by simpa using ⟨hc.isShown_bracketed, ih⟩)
  | @function name params body hname hparams _ ih =>
    have hlist : (Bracketed.list (params.map fun p => .written p.lexeme)).IsShown :=
      .list (List.forall_mem_map.mpr fun p hp => .name (hparams p hp))
    exact .labelled (by decide) (List.forall_mem_cons.mpr
      ⟨.name hname, List.forall_mem_cons.mpr ⟨hlist, isShown_bracketedAll ih⟩⟩)
  | @returning keyword n hn =>
    cases n with
    | none => exact .labelled (by decide) (List.forall_mem_nil _)
    | some n => exact .labelled (by decide) (by simpa using (hn n rfl).isShown_bracketed)

/-! ### Programs are told by their renderings -/

/-- Legible statements that look the same in parentheses are the same in all that is shown. -/
theorem shown_eq_of_parens_eq {ms ns : List Node} (hms : ∀ m ∈ ms, m.LegibleStatement)
    (hns : ∀ n ∈ ns, n.LegibleStatement)
    (h : "\n".intercalate (parensAll ms) = "\n".intercalate (parensAll ns)) :
    ms.map shown = ns.map shown := by
  have hwords (ns : List Node) : ("\n".intercalate (parensAll ns)).toList =
      ['\n'].intercalate ((bracketedAll ns).map Bracketed.text) := by
    rw [String.toList_intercalate, parensAll_eq, bracketedAll_eq, List.map_map, List.map_map]
    exact congrArg _ (List.map_congr_left (toList_parens_of_mem ns))
  have hshown {ns : List Node} (hns : ∀ n ∈ ns, n.LegibleStatement) :
      (bracketedAll ns).map Bracketed.decode = ns.map shown := by
    rw [map_decode_bracketedAll fun n hn => (hns n hn).decode_bracketed, shownAll_eq]
  have hend : Bracketed.Closes '\n' [] := ⟨(fun _ h => nomatch h), nofun⟩
  have hall {ns : List Node} (hns : ∀ n ∈ ns, n.LegibleStatement) :
      ∀ b ∈ bracketedAll ns, b.IsShown :=
    isShown_bracketedAll fun n hn => (hns n hn).isShown_bracketed
  have htext := congrArg String.toList h
  rw [hwords, hwords] at htext
  obtain ⟨hbracketed, -⟩ := Bracketed.intercalate_told (by decide)
    (fun b hb => (hall hms b hb).told) (hall hms) (hall hns) hend hend
    (congrArg (· ++ []) htext)
  rw [← hshown hms, hbracketed, hshown hns]

/-- What is not shown does not matter to the rendering. -/
theorem parens_eq_of_shown_eq {ms ns : List Node} (h : ms.map shown = ns.map shown) :
    "\n".intercalate (parensAll ms) = "\n".intercalate (parensAll ns) := by
  have hparens : parens = (String.ofList ∘ Bracketed.text ∘ bracketed) ∘ shown := by
    funext n
    simp [bracketed_shown, ← toList_parens]
  rw [parensAll_eq, parensAll_eq, hparens, ← List.map_map, h, List.map_map]

end Node

/-- The text of a program in parentheses. -/
theorem Rendering.parens_program {ns : List Node} (h : ∀ n ∈ ns, n.ProperStatement) :
    Rendering.parens.program ns = .ok ("\n".intercalate (Node.parensAll ns)) := by
  obtain ⟨os, hos⟩ := Node.exists_outlines_eq fun n hn => (h n hn).exists_outline_eq
  rw [Rendering.program, hos]
  rfl

/-- Programs that are read without a complaint from texts without strings and without numbers that
are too large look the same in parentheses if and only if they are the same, but for the lines of
their tokens and the tokens that are not shown. -/
theorem Program.parens_eq_iff {p q : String} (hp : (ofText p).diagnostics = [])
    (hq : (ofText q).diagnostics = []) (hp' : (Scan.ofText p).IsShown)
    (hq' : (Scan.ofText q).IsShown) :
    Rendering.parens.program (ofText p).statements =
        Rendering.parens.program (ofText q).statements ↔
      (ofText p).statements.map Node.shown = (ofText q).statements.map Node.shown := by
  rw [Rendering.parens_program (proper_ofText p), Rendering.parens_program (proper_ofText q)]
  constructor
  · intro h
    exact Node.shown_eq_of_parens_eq (legible hp hp') (legible hq hq') (Except.ok.inj h)
  · intro h
    exact congrArg Except.ok (Node.parens_eq_of_shown_eq h)

namespace Node.Respelled

/-- A program. -/
def program : String := "fun f(a) \x7b return a ? -1.5 : f(a, true); \x7d var x = (f(2) or nil);"

/-- The program with other spaces and lines. -/
def respelled : String :=
  "fun f ( a )\n\x7b return a ?\n - 1.50 : f(a,\n true) ; \x7d // sign\nvar x = (f(2)\nor nil);"

theorem parens_eq_iff_respelled :
    ((Program.ofText program).diagnostics = [] ∧ (Program.ofText respelled).diagnostics = [] ∧
      (Scan.ofText program).IsShown ∧ (Scan.ofText respelled).IsShown) ∧
    Rendering.parens.program (Program.ofText program).statements =
      Rendering.parens.program (Program.ofText respelled).statements ∧
    (Program.ofText program).statements.map Node.shown =
      (Program.ofText respelled).statements.map Node.shown := by
  have hprogram : (Program.ofText program).diagnostics = [] := by decide +kernel
  have hrespelled : (Program.ofText respelled).diagnostics = [] := by decide +kernel
  have hshown : (Scan.ofText program).IsShown := by decide +kernel
  have hshown' : (Scan.ofText respelled).IsShown := by decide +kernel
  have hparens : Rendering.parens.program (Program.ofText program).statements =
      Rendering.parens.program (Program.ofText respelled).statements := by decide +kernel
  exact ⟨⟨hprogram, hrespelled, hshown, hshown'⟩, hparens,
    (Program.parens_eq_iff hprogram hrespelled hshown hshown').mp hparens⟩

end Node.Respelled

end Lox
