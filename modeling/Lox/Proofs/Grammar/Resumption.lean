import Lox.Proofs.Grammar.Boundary

/-!
# Where reading goes on

A declaration with a syntax error is given up together with the tokens up to the next place where
reading can go on. The first of these tokens, at which the error was found, is given up whatever it
is. The others are passed over: no end of input, no keyword of a statement, and nothing behind a
semicolon is among them.

Hence a keyword is lost only if the error was found at that keyword itself, as where an operand is
missing in front of it or `class` is used as a name; what the keyword begins is not read then. The
step over this token is what lets the reader get on: without it an error at a keyword that no
declaration begins with would be found there for ever.

## Main definitions

* `PassedOver`: tokens that are passed over behind a token that is given up.
* `ResumesAt`: reading goes on at a list of tokens behind the last one that is given up.

## Main results

* `resume?_eq_some_iff`: which tokens are given up, and where reading goes on.
* `Parse.declaration_resumes`: what is given up with a declaration, and when a keyword is among it.
* `Parse.keyword_given_up`: a keyword that is given up.
-/

namespace Lox

/-- Tokens that are passed over behind the token `last`, and the last token that is given up
then. -/
inductive PassedOver : (last : Token) → List Token → (final : Token) → Prop
  | nil (last : Token) : PassedOver last [] last
  | cons {last t final : Token} {us : List Token} (hlast : last.kind ≠ .semicolon)
      (hend : t.kind ≠ .endOfInput) (hstarts : t.kind.startsStatement = false)
      (h : PassedOver t us final) : PassedOver last (t :: us) final

/-- Reading goes on at these tokens behind the token `final`, the last one that is given up. -/
def ResumesAt (final : Token) : List Token → Prop
  | [] => False
  | t :: _ => t.kind = .endOfInput ∨ final.kind = .semicolon ∨ t.kind.startsStatement = true

namespace PassedOver

variable {last final : Token} {us rest : List Token}

theorem resumeBehind?_append (h : PassedOver last us final) (rest : List Token) :
    resumeBehind? last (us ++ rest) = resumeBehind? final rest := by
  induction h with
  | nil => rfl
  | @cons last t final us hlast hend hstarts h ih =>
    rw [List.cons_append, resumeBehind?, if_neg, ih]
    simp [hlast, hend, hstarts]

theorem startsStatement_eq (h : PassedOver last us final) :
    ∀ t ∈ us, t.kind.startsStatement = false := by
  induction h with
  | nil => exact List.forall_mem_nil _
  | cons hlast hend hstarts h ih => exact List.forall_mem_cons.mpr ⟨hstarts, ih⟩

/-- Tokens that neither end nor begin a statement are passed over together with one behind them. -/
theorem append_singleton {t : Token} (hsemicolon : ∀ u ∈ last :: us, u.kind ≠ .semicolon)
    (hpass : ∀ u ∈ us ++ [t], u.kind ≠ .endOfInput ∧ u.kind.startsStatement = false) :
    PassedOver last (us ++ [t]) t := by
  induction us generalizing last with
  | nil =>
    obtain ⟨hend, hstarts⟩ := hpass t (List.mem_singleton_self t)
    exact .cons (hsemicolon last (List.mem_singleton_self last)) hend hstarts (.nil t)
  | cons u us ih =>
    obtain ⟨hu, hus⟩ := List.forall_mem_cons.mp hpass
    exact .cons (hsemicolon last (List.mem_cons_self ..)) hu.1 hu.2
      (ih (fun v hv => hsemicolon v (.tail _ hv)) hus)

/-- Nothing is passed over behind a semicolon. -/
theorem semicolon_dropLast (h : PassedOver last us final) :
    ∀ t ∈ (last :: us).dropLast, t.kind ≠ .semicolon := by
  induction h with
  | nil => exact List.forall_mem_nil _
  | cons hlast hend hstarts h ih => exact List.forall_mem_cons.mpr ⟨hlast, ih⟩

theorem getLast?_eq (h : PassedOver last us final) : (last :: us).getLast? = some final := by
  induction h with
  | nil => rfl
  | cons hlast hend hstarts h ih => rwa [List.getLast?_cons_cons]

end PassedOver

theorem ResumesAt.resumeBehind?_eq {final : Token} {rest : List Token} (h : ResumesAt final rest) :
    resumeBehind? final rest = some rest := by
  cases rest with
  | nil => exact h.elim
  | cons t rest => exact if_pos h

theorem resumeBehind?_eq_some_iff {last : Token} {ts rest : List Token} :
    resumeBehind? last ts = some rest ↔
      ∃ us final, ts = us ++ rest ∧ PassedOver last us final ∧ ResumesAt final rest := by
  constructor
  · intro h
    induction ts generalizing last with
    | nil => cases h
    | cons t ts ih =>
      rw [resumeBehind?] at h
      split at h
      · rename_i hstop
        cases h
        exact ⟨[], last, rfl, .nil last, hstop⟩
      · rename_i hpass
        obtain ⟨hend, hlast, hstarts⟩ : t.kind ≠ .endOfInput ∧ last.kind ≠ .semicolon ∧
            t.kind.startsStatement = false := by simpa using hpass
        obtain ⟨us, final, rfl, hpassed, hresumes⟩ := ih h
        exact ⟨t :: us, final, rfl, .cons hlast hend hstarts hpassed, hresumes⟩
  · rintro ⟨us, final, rfl, hpassed, hresumes⟩
    rw [hpassed.resumeBehind?_append, hresumes.resumeBehind?_eq]

/-- Tokens that are given up in front of those at which reading goes on: none in front of the end of
input, otherwise a first one, whatever it is, and others that are passed over. -/
inductive GivenUp : (skipped rest : List Token) → Prop
  | none {rest : List Token} (hrest : StartsIn [.endOfInput] rest) : GivenUp [] rest
  | some {first final : Token} {us rest : List Token} (hfirst : first.kind ≠ .endOfInput)
      (hpassed : PassedOver first us final) (hrest : ResumesAt final rest) :
      GivenUp (first :: us) rest

theorem resume?_eq_some_iff {ts rest : List Token} :
    resume? ts = some rest ↔ ∃ skipped, ts = skipped ++ rest ∧ GivenUp skipped rest := by
  constructor
  · intro h
    cases ts with
    | nil => cases h
    | cons t ts =>
      rw [resume?] at h
      split at h
      · rename_i hend
        cases h
        exact ⟨[], rfl, .none (List.mem_singleton.mpr hend)⟩
      · rename_i hfirst
        obtain ⟨us, final, rfl, hpassed, hresumes⟩ := resumeBehind?_eq_some_iff.mp h
        exact ⟨t :: us, rfl, .some hfirst hpassed hresumes⟩
  · rintro ⟨skipped, rfl, hskipped⟩
    cases hskipped with
    | none hend =>
      cases rest with
      | nil => exact hend.elim
      | cons t rest => exact if_pos (List.mem_singleton.mp hend)
    | some hfirst hpassed hresumes =>
      rw [List.cons_append, resume?, if_neg hfirst]
      exact resumeBehind?_eq_some_iff.mpr ⟨_, _, rfl, hpassed, hresumes⟩

namespace GivenUp

variable {skipped rest : List Token}

/-- Reading goes on at the end of input, at a keyword, or behind a semicolon. -/
theorem resumes (h : GivenUp skipped rest) :
    StartsIn [.endOfInput] rest ∨ (∃ t ∈ rest.head?, t.kind.startsStatement = true) ∨
      ∃ t ∈ skipped.getLast?, t.kind = .semicolon := by
  cases h with
  | none hend => exact .inl hend
  | @some first final us rest hfirst hpassed hrest =>
    cases rest with
    | nil => exact hrest.elim
    | cons t rest =>
      obtain hend | hsemicolon | hstarts := hrest
      · exact .inl (List.mem_singleton.mpr hend)
      · exact .inr (.inr ⟨final, hpassed.getLast?_eq, hsemicolon⟩)
      · exact .inr (.inl ⟨t, rfl, hstarts⟩)

/-- A token is given up unless there is none but the end of input. -/
theorem eq_nil_iff (h : GivenUp skipped rest) :
    skipped = [] ↔ StartsIn [.endOfInput] (skipped ++ rest) := by
  cases h with
  | none hend => simpa using hend
  | some hfirst hpassed hrest => simpa using hfirst

theorem semicolon_dropLast (h : GivenUp skipped rest) :
    ∀ t ∈ skipped.dropLast, t.kind ≠ .semicolon := by
  cases h with
  | none hend => exact List.forall_mem_nil _
  | some hfirst hpassed hrest => exact hpassed.semicolon_dropLast

theorem startsStatement_tail (h : GivenUp skipped rest) :
    ∀ t ∈ skipped.tail, t.kind.startsStatement = false := by
  cases h with
  | none hend => exact List.forall_mem_nil _
  | some hfirst hpassed hrest => exact hpassed.startsStatement_eq

/-- A keyword is given up only if it is the first token. -/
theorem startsStatement_iff (h : GivenUp skipped rest) :
    (∀ t ∈ skipped, t.kind.startsStatement = false) ↔
      ∀ t ∈ (skipped ++ rest).head?, t.kind.startsStatement = false := by
  have htail := h.startsStatement_tail
  cases h with
  | none hend =>
    cases rest with
    | nil => exact hend.elim
    | cons e rest => simp [List.mem_singleton.mp hend, Kind.startsStatement]
  | some hfirst hpassed hrest => simpa using fun _ => htail

end GivenUp

namespace Parse

/-- Of the tokens `skipped` that a declaration `ts` is given up with at its rest `mid`, those that
are behind the first token of the declaration. -/
def skippedBehind (ts mid skipped : List Token) : List Token :=
  if mid.length < ts.length then skipped else skipped.tail

/-- A declaration that is given up is given up with some tokens from the error on, wherever it is
read. The token at which the error was found is one of them, be it what it may, unless it is the end
of input. Behind it reading goes on at the first possible place: at the end of input, at a keyword
of a statement, or behind a semicolon. So a keyword behind the first token of the declaration is
among the tokens given up if and only if the error was found at such a keyword. -/
theorem declaration_resumes {ts mid : List Token} {report : SyntaxReport}
    {reports : List SyntaxReport} (hts : ∃ t ∈ ts, t.kind = .endOfInput)
    (hstopped : strictDeclaration ts = .stopped (.rejected report) reports mid) :
    ∃ skipped rest, mid = skipped ++ rest ∧
      (∀ bound, ts.length ≤ bound →
        (Statement.readers bound).declaration ts = .done none reports rest) ∧
      (StartsIn [.endOfInput] rest ∨ (∃ t ∈ rest.head?, t.kind.startsStatement = true) ∨
        ∃ t ∈ skipped.getLast?, t.kind = .semicolon) ∧
      (skipped = [] ↔ StartsIn [.endOfInput] mid) ∧
      (∀ t ∈ skipped.tail, t.kind.startsStatement = false) ∧
      (∀ t ∈ skipped.dropLast, t.kind ≠ .semicolon) ∧
      ((∀ t ∈ skippedBehind ts mid skipped, t.kind.startsStatement = false) ↔
        (mid.length < ts.length → ∀ t ∈ mid.head?, t.kind.startsStatement = false)) := by
  have hends : (strictDeclaration ts).Ends true ts :=
    Total.handedOn.declaration ts hts (Nat.le_refl _)
  rw [hstopped] at hends
  obtain ⟨rest, hresume, htaken, -⟩ := takenTo_resume? (TakenTo.endOfInput_mem hends hts)
  obtain ⟨skipped, rfl, hskipped⟩ := resume?_eq_some_iff.mp hresume
  refine ⟨skipped, rest, rfl, fun bound hbound => ?_, hskipped.resumes, hskipped.eq_nil_iff,
    hskipped.startsStatement_tail, hskipped.semicolon_dropLast, ?_⟩
  · obtain ⟨e, back, rfl⟩ : ∃ e back, rest = e :: back := by
      obtain ⟨e, he, -⟩ := htaken.endOfInput_mem (TakenTo.endOfInput_mem hends hts)
      exact List.exists_cons_of_ne_nil (List.ne_nil_of_mem he)
    have hdone : (Statement.readers (ts.length + 1)).declaration (ts ++ []) =
        .done none reports (e :: back ++ []) := by
      rw [List.append_nil, List.append_nil]
      exact recovering_of_rejected hstopped hresume
    have hmirrors := (Mirrors.readers .id (Nat.le_succ _) hbound).declaration
    simpa using hmirrors.done_of_done (by rw [Node.relabel_id_eq, Option.map_id])
      (Nat.le_refl _) hdone []
  · rw [skippedBehind]
    split
    · rename_i hlt
      rw [hskipped.startsStatement_iff]
      exact ⟨fun h _ => h, fun h => h hlt⟩
    · rename_i hge
      exact ⟨fun _ hlt => absurd hlt hge, fun _ => hskipped.startsStatement_tail⟩

namespace Resuming

/-- The tokens of `1 + + fun`, where an operand is missing in front of an operator. -/
def operator : List Token :=
  [⟨.number, "1", .number (.ofInt 1), 1⟩, ⟨.plus, "+", .nil, 1⟩, ⟨.plus, "+", .nil, 1⟩,
    ⟨.kwFun, "fun", .nil, 1⟩, ⟨.endOfInput, "", .nil, 1⟩]

/-- The second operator is given up, the keyword behind it is not. -/
theorem declaration_resumes_operator :
    ∃ skipped rest, operator.drop 2 = skipped ++ rest ∧
      (Statement.readers operator.length).declaration operator =
        .done none [⟨⟨.plus, "+", .nil, 1⟩, .expression⟩] rest ∧
      skipped ≠ [] ∧ ∀ t ∈ skipped, t.kind.startsStatement = false := by
  have hend : ∃ t ∈ operator, t.kind = .endOfInput :=
    ⟨⟨.endOfInput, "", .nil, 1⟩, by simp [operator], rfl⟩
  have hstopped : strictDeclaration operator =
      .stopped (.rejected ⟨⟨.plus, "+", .nil, 1⟩, .expression⟩)
        [⟨⟨.plus, "+", .nil, 1⟩, .expression⟩] (operator.drop 2) := rfl
  obtain ⟨skipped, rest, hsplit, hread, -, hnone, -, -, hkeyword⟩ :=
    declaration_resumes hend hstopped
  refine ⟨skipped, rest, hsplit, hread _ (Nat.le_refl _), mt hnone.mp ?_, ?_⟩
  · simp [operator]
  · exact hkeyword.mpr fun _ => by decide

/-- The tokens of `print var x = 1;`, where an operand is missing in front of a keyword. -/
def keyword : List Token :=
  [⟨.kwPrint, "print", .nil, 1⟩, ⟨.kwVar, "var", .nil, 1⟩, ⟨.identifier, "x", .nil, 1⟩,
    ⟨.equal, "=", .nil, 1⟩, ⟨.number, "1", .number (.ofInt 1), 1⟩, ⟨.semicolon, ";", .nil, 1⟩,
    ⟨.endOfInput, "", .nil, 1⟩]

end Resuming

/-- It is not so that no keyword behind the first token of a declaration is given up: where an
operand is missing in front of `var`, the variable is not declared. -/
theorem keyword_given_up :
    (¬ ∀ ts mid skipped rest report reports, (∃ t ∈ ts, t.kind = Kind.endOfInput) →
      strictDeclaration ts = .stopped (.rejected report) reports mid → mid = skipped ++ rest →
      Parse.declaration ts = .done none reports rest →
      ∀ t ∈ skippedBehind ts mid skipped, t.kind.startsStatement = false) ∧
    Parse.program Resuming.keyword =
      .done [] [⟨⟨.kwVar, "var", .nil, 1⟩, .expression⟩] [⟨.endOfInput, "", .nil, 1⟩] := by
  refine ⟨fun h => ?_, rfl⟩
  have hend : ∃ t ∈ Resuming.keyword, t.kind = .endOfInput :=
    ⟨⟨.endOfInput, "", .nil, 1⟩, by simp [Resuming.keyword], rfl⟩
  have hnone := h Resuming.keyword (Resuming.keyword.drop 1) ((Resuming.keyword.drop 1).take 5)
    [⟨.endOfInput, "", .nil, 1⟩] ⟨⟨.kwVar, "var", .nil, 1⟩, .expression⟩
    [⟨⟨.kwVar, "var", .nil, 1⟩, .expression⟩] hend rfl rfl rfl
  have hvar : (⟨.kwVar, "var", .nil, 1⟩ : Token) ∈ skippedBehind Resuming.keyword
      (Resuming.keyword.drop 1) ((Resuming.keyword.drop 1).take 5) := by decide
  exact absurd (hnone _ hvar) (by decide)

end Parse

end Lox
