import Lox.Proofs.Grammar.Sequence

/-!
# Lists with too many entries

The arguments of a call and the parameters of a function may be as many as there are; those beyond
the last one that is allowed are reported, each by its first token, and nothing else follows from
that. In particular reading is not interrupted: the tree has all the entries, the reader ends right
behind the list, and what comes next is read as it would be read behind a short list.

## Main definitions

* `Parse.SurplusReported`: the reports of a list with some stretches of tokens as entries.

## Main results

* `Expression.spellsLong_arguments`: what is reported of arguments without reports of their own.
* `Parse.program_append_long`: programs with long lists in front of any other tokens.
* `Parse.capacity_exact`: long lists are reported entry by entry and read to their end.
-/

namespace Lox

/-- Each entry that has enough others in front of it is reported once, by its first token. -/
def Parse.SurplusReported (surplus : SyntaxProblem) (uss : List (List Token))
    (reports : List SyntaxReport) : Prop :=
  List.Forall₂ (SyntaxReport.Opens surplus) (uss.drop maxEntries) reports ∧
    reports.length = uss.length - 255

theorem Parse.surplusReported_listReports (surplus : SyntaxProblem) {uss : List (List Token)}
    (huss : ∀ us ∈ uss, us ≠ []) : SurplusReported surplus uss (listReports surplus 0 uss) := by
  have hreported := forall₂_listReports surplus 0 huss
  refine ⟨hreported, ?_⟩
  rw [← hreported.length_eq, List.length_drop]
  rfl

namespace Expression

theorem ne_nil_of_forall₂_spells {ns : List Node} {uss : List (List Token)}
    (hns : List.Forall₂ (fun n us => Spells .assignment [n] us) ns uss) {us : List Token}
    (hus : us ∈ uss) : us ≠ [] := by
  induction hns with
  | nil => cases hus
  | cons hn _ ih =>
    cases hus with
    | head => exact StartsIn.ne_nil hn.opens
    | tail _ hus => exact ih hus

/-- Of entries without reports of their own those are reported that have enough others in front. -/
theorem spellsLong_entries {ns : List Node} {us ws : List Token} {uss : List (List Token)}
    (hws : Separated (us :: uss) ws)
    (hns : List.Forall₂ (fun n us => Spells .assignment [n] us) ns (us :: uss)) (count : Nat) :
    SpellsLong count .entries ns (Parse.listReports .tooManyArguments count (us :: uss)) ws := by
  induction uss generalizing us ws ns count with
  | nil =>
    cases hws
    cases hns with
    | cons hn hnil =>
      cases hnil
      exact .last (hn.long rfl)
  | cons vs uss ih =>
    cases hws with
    | cons hcomma hws =>
      cases hns with
      | cons hn hns =>
        have hcons := SpellsLong.cons (hn.long rfl) hcomma (ih hws hns (count + 1))
        exact hcons

theorem spellsLong_arguments {ns : List Node} {us : List Token} {uss : List (List Token)}
    (hus : Separated uss us)
    (hns : List.Forall₂ (fun n us => Spells .assignment [n] us) ns uss) :
    SpellsLong 0 .arguments ns (Parse.listReports .tooManyArguments 0 uss) us := by
  cases uss with
  | nil =>
    cases hus
    cases hns
    exact .none
  | cons us uss => exact .some (spellsLong_entries hus hns 0)

end Expression

namespace Parse

/-- Programs with long lists do not disturb what follows them either: in front of tokens that do
not begin with an `else` all such programs are read as they are read alone, and the tokens behind
them give the same declarations and reports, whatever the program is. -/
theorem program_append_long {q : List Token} {e : Token} (he : e.kind = .endOfInput)
    (hq : ∀ t ∈ q.head?, t.kind ≠ .kwElse) :
    ∃ qs reports back, ∀ ⦃ns : List Node⦄ ⦃rs : List SyntaxReport⦄ ⦃us : List Token⦄,
      Statement.SpellsLong .declarations ns rs us →
        Parse.program (us ++ q ++ [e]) = .done (ns ++ qs) (rs ++ reports) back := by
  have hclosed : ∃ t ∈ q ++ [e], t.kind = .endOfInput := ⟨e, by simp, he⟩
  obtain ⟨qs, reports, e', back, hres, -, -⟩ := program_total hclosed
  refine ⟨qs, reports, e' :: back, fun ns rs us hspells => ?_⟩
  have hrest : StartsOutside [.kwElse] (q ++ [e]) := by
    cases q with
    | nil => simp [he]
    | cons t q => simpa using hq t rfl
  rw [List.append_assoc]
  exact hspells.upTo_append hrest (fun _ => upTo_declaration hres) _ (Nat.le_succ _)

/-- A call is read as its tree with all its arguments, and a function with all its parameters, up to
what follows it. If the callee and the arguments, or the body, are phrases on their own, what is
reported are the entries behind the first 255, one by one. Programs which are made of such phrases
are read to their end, with the reports of their lists, and what follows them is read as it would be
behind any other program, be its lists long or short. -/
theorem capacity_exact :
    (∀ {callee : Node} {opening closing : Token} {cs us : List Token} {ns : List Node}
      {uss : List (List Token)}, Expression.Spells .call [callee] cs →
      opening.kind = .leftParen → Separated uss us →
      List.Forall₂ (fun n us => Expression.Spells .assignment [n] us) ns uss →
      closing.kind = .rightParen → ∃ reports, SurplusReported .tooManyArguments uss reports ∧
        Expression.SpellsLong 0 .call [.call callee closing ns] reports
          (cs ++ opening :: (us ++ [closing])) ∧
        ∀ bound rest, cs.length + us.length + rest.length + 2 ≤ bound →
          StartsOutside [.leftParen] rest →
            (Expression.call (bound + 1) (Expression.read bound)).Yields
              (cs ++ opening :: (us ++ closing :: rest)) (.call callee closing ns) reports rest) ∧
    (∀ {keyword name opening closing left right : Token} {params ps us : List Token}
      {body : List Node}, keyword.kind = .kwFun → name.kind = .identifier →
      opening.kind = .leftParen → Separated (params.map ([·])) ps →
      (∀ p ∈ params, p.kind = .identifier) → closing.kind = .rightParen →
      left.kind = .leftBrace → Statement.Spells .declarations body us →
      right.kind = .rightBrace → ∃ reports,
        SurplusReported .tooManyParameters (params.map ([·])) reports ∧
        Statement.SpellsLong .declaration [.function name params body] reports
          (keyword :: name :: opening :: (ps ++ closing :: left :: (us ++ [right]))) ∧
        ∀ bound rest, ps.length + us.length + rest.length + 6 < bound →
          (Statement.readers bound).declaration.Yields
            (keyword :: name :: opening :: (ps ++ closing :: left :: (us ++ right :: rest)))
            (some (.function name params body)) reports rest) ∧
    ∀ {q : List Token} {e : Token}, e.kind = .endOfInput →
      (∀ t ∈ q.head?, t.kind ≠ .kwElse) → ∃ qs reports back,
        ∀ ⦃ns : List Node⦄ ⦃rs : List SyntaxReport⦄ ⦃us : List Token⦄,
          Statement.SpellsLong .declarations ns rs us →
            Parse.program (us ++ q ++ [e]) = .done (ns ++ qs) (rs ++ reports) back := by
  refine ⟨?_, ?_, program_append_long⟩
  · intro callee opening closing cs us ns uss hcallee hopening hus hns hclosing
    have hcall := (hcallee.long rfl).snoc_call hopening
      (Expression.spellsLong_arguments hus hns) hclosing
    refine ⟨_, surplusReported_listReports .tooManyArguments ?_, hcall, ?_⟩
    · exact fun us hmem => Expression.ne_nil_of_forall₂_spells hns hmem
    · intro bound rest hlength hrest
      have hread := Expression.yields_single.mp
        (hcall.completes.node (show _ ≤ bound by simp; omega) hrest)
      simpa using hread
  · intro keyword name opening closing left right params ps us body hkeyword hname hopening hps
      hnames hclosing hleft hbody hright
    have hparams : Statement.ParametersLong params ps := ⟨hps, hnames⟩
    have hfunction := Statement.SpellsLong.function hkeyword hname hopening hparams hclosing hleft
      hbody.long hright
    rw [List.append_nil] at hfunction
    refine ⟨_, surplusReported_listReports .tooManyParameters ?_, hfunction, ?_⟩
    · simp
    · intro bound rest hlength
      obtain ⟨bound, rfl⟩ : ∃ b, bound = b + 1 := ⟨bound - 1, by omega⟩
      have hread := Statement.Completes.yields_function hkeyword hname hopening hparams hclosing
        hleft hbody.completes hright
        (show ps.length + us.length + rest.length + 5 < bound by omega)
      rw [List.append_nil] at hread
      exact hread.recovering

namespace Crowded

/-- A variable. -/
def word : Token := ⟨.identifier, "a", .nil, 1⟩

/-- A comma. -/
def comma : Token := ⟨.comma, ",", .nil, 1⟩

/-- The parentheses of a call. -/
def opening : Token := ⟨.leftParen, "(", .nil, 1⟩

@[inherit_doc opening]
def closing : Token := ⟨.rightParen, ")", .nil, 1⟩

/-- The end of input. -/
def ending : Token := ⟨.endOfInput, "", .nil, 1⟩

/-- Variables with commas between them, one more than `count`. -/
def words : (count : Nat) → List Token
  | 0 => [word]
  | count + 1 => word :: comma :: words count

theorem separated_words (count : Nat) :
    Separated (List.replicate (count + 1) [word]) (words count) := by
  induction count with
  | zero => exact .last [word]
  | succ count ih => exact .cons rfl ih

theorem length_words (count : Nat) : (words count).length = 2 * count + 1 := by
  induction count with
  | zero => rfl
  | succ count ih =>
    rw [words, List.length_cons, List.length_cons, ih]
    omega

theorem spells_word : Expression.Spells .primary [.reference word] [word] := .reference rfl

theorem forall₂_spells_word (count : Nat) :
    List.Forall₂ (fun n us => Expression.Spells .assignment [n] us)
      (List.replicate count (.reference word)) (List.replicate count [word]) := by
  induction count with
  | zero => exact .nil
  | succ count ih => exact .cons (.choice spells_word.primary_ternary) ih

/-- The keyword of a function. -/
def keyword : Token := ⟨.kwFun, "fun", .nil, 1⟩

/-- The braces of a body. -/
def left : Token := ⟨.leftBrace, "\x7b", .nil, 1⟩

@[inherit_doc left]
def right : Token := ⟨.rightBrace, "\x7d", .nil, 1⟩

/-- The end of a statement. -/
def semicolon : Token := ⟨.semicolon, ";", .nil, 1⟩

/-- The tokens of a function with 257 parameters and an empty body, and some behind it. -/
def function (rest : List Token) : List Token :=
  keyword :: word :: opening :: (words 256 ++ closing :: left :: right :: rest)

/-- A call with 257 arguments has two reports, and so has a function with 257 parameters. A statement
behind the function is read. -/
theorem capacity_exact_crowded :
    (∃ reports, reports.length = 2 ∧
      (Expression.call 518 (Expression.read 517)).Yields
        ([word] ++ opening :: (words 256 ++ closing :: [ending]))
        (.call (.reference word) closing (List.replicate 257 (.reference word))) reports
        [ending]) ∧
    ∃ reports, reports.length = 2 ∧
      (∀ bound rest, 519 + rest.length < bound →
        (Statement.readers bound).declaration.Yields (function rest)
          (some (.function word (List.replicate 257 word) [])) reports rest) ∧
      Parse.program (function [word, semicolon, ending]) =
        .done [.function word (List.replicate 257 word) [], .expression (.reference word)] reports
          [ending] := by
  constructor
  · obtain ⟨reports, ⟨-, hlength⟩, -, hread⟩ := capacity_exact.1 spells_word.primary_call
      (show opening.kind = .leftParen from rfl) (separated_words 256) (forall₂_spells_word 257)
      (show closing.kind = .rightParen from rfl)
    rw [List.length_replicate] at hlength
    refine ⟨reports, hlength, hread 517 [ending] ?_ (by simp [ending])⟩
    rw [length_words]
    decide
  · have hwords : Separated ((List.replicate 257 word).map ([·])) (words 256) := by
      rw [List.map_replicate]
      exact separated_words 256
    have hnames : ∀ p ∈ List.replicate 257 word, p.kind = .identifier := fun p hp => by
      rw [List.eq_of_mem_replicate hp]
      rfl
    obtain ⟨reports, ⟨-, hlength⟩, hspells, hread⟩ := capacity_exact.2.1
      (show keyword.kind = .kwFun from rfl) (show word.kind = .identifier from rfl)
      (show opening.kind = .leftParen from rfl) hwords hnames
      (show closing.kind = .rightParen from rfl) (show left.kind = .leftBrace from rfl)
      Statement.Spells.nil (show right.kind = .rightBrace from rfl)
    rw [List.length_map, List.length_replicate] at hlength
    refine ⟨reports, hlength, fun bound rest hbound => hread bound rest ?_, ?_⟩
    · rw [length_words]
      simp only [List.length_nil]
      omega
    obtain ⟨qs, others, back, happend⟩ := capacity_exact.2.2
      (show ending.kind = .endOfInput from rfl)
      (show ∀ t ∈ [word, semicolon].head?, t.kind ≠ .kwElse by simp [word])
    -- The statement alone says what is behind any program.
    have halone : Parse.program [word, semicolon, ending] =
        .done [.expression (.reference word)] [] [ending] := rfl
    have hnone := happend .nil
    rw [List.nil_append, List.nil_append, List.nil_append] at hnone
    obtain ⟨rfl, rfl, rfl⟩ := Parsed.done.inj (halone.symm.trans hnone)
    have hfunction := happend (.cons hspells .nil)
    simpa only [function, List.append_assoc, List.cons_append, List.nil_append, List.append_nil]
      using hfunction

end Crowded

end Parse

end Lox
