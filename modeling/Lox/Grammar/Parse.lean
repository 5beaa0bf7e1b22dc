import Lox.Diagnostic

/-!
# Reading a list of tokens

A reader takes tokens from the front of a list. It answers with a value, or stops; in both
cases it says what it has reported on the way and which tokens it has left. The token list is
expected to contain an end-of-input token, which is never taken; a reader that needs a token
where the list has ended stops with `Stop.overrun`.

## Main definitions

* `Parsed`: the answer of a reader.
* `Parse`: a reader, with its sequencing.
* `Parse.accept`, `Parse.expect`, `Parse.reject`, `Parse.note`: the steps that productions are
  made of.
* `Parse.behind`, `Parse.unlessAt`, `Parse.entries`, `Parse.upTo`: options and lists.
* `Parse.chain`: operands joined by operators, to the left.
* `resume?`: the tokens at which reading goes on after a syntax error.
-/

namespace Lox

/-- Why a reader stops. -/
inductive Stop
  /-- A syntax error, which has been reported. -/
  | rejected (report : SyntaxReport)
  /-- The list of tokens ended without an end-of-input token. -/
  | overrun
  /-- The bound on the number of steps was too small. -/
  | exhausted
  deriving DecidableEq, Repr, Inhabited

/-- The answer of a reader: a value or a stop, the reports made, and the tokens left. -/
inductive Parsed (α : Type)
  | done (value : α) (reports : List SyntaxReport) (rest : List Token)
  | stopped (why : Stop) (reports : List SyntaxReport) (rest : List Token)

namespace Parsed

variable {α : Type}

/-- The reports made. -/
def reports : Parsed α → List SyntaxReport
  | done _ reports _ | stopped _ reports _ => reports

/-- The tokens left. -/
def rest : Parsed α → List Token
  | done _ _ rest | stopped _ _ rest => rest

/-- The value, if there is one. -/
def value? : Parsed α → Option α
  | done value _ _ => some value
  | stopped .. => none

/-- The answer with some reports made before. -/
def after (before : List SyntaxReport) : Parsed α → Parsed α
  | done value reports rest => done value (before ++ reports) rest
  | stopped why reports rest => stopped why (before ++ reports) rest

@[simp]
theorem after_done (before : List SyntaxReport) (a : α) (reports : List SyntaxReport)
    (rest : List Token) :
    (done a reports rest).after before = done a (before ++ reports) rest := rfl

@[simp]
theorem after_stopped (before : List SyntaxReport) (why : Stop) (reports : List SyntaxReport)
    (rest : List Token) :
    (stopped why reports rest : Parsed α).after before = stopped why (before ++ reports) rest := rfl

@[simp]
theorem after_nil (r : Parsed α) : r.after [] = r := by
  cases r <;> rfl

theorem after_after (first second : List SyntaxReport) (r : Parsed α) :
    (r.after second).after first = r.after (first ++ second) := by
  cases r <;> simp [after]

end Parsed

/-- A reader. -/
def Parse (α : Type) := List Token → Parsed α

namespace Parse

variable {α β : Type}

/-- Takes nothing. -/
protected def pure (a : α) : Parse α := fun ts => .done a [] ts

/-- Reads with `p` and then with what its value asks for. -/
protected def bind (p : Parse α) (f : α → Parse β) : Parse β := fun ts =>
  match p ts with
  | .done a reports rest => (f a rest).after reports
  | .stopped why reports rest => .stopped why reports rest

instance : Monad Parse where
  pure := Parse.pure
  bind := Parse.bind

@[simp]
theorem pure_apply (a : α) (ts : List Token) : (pure a : Parse α) ts = .done a [] ts := rfl

theorem bind_apply (p : Parse α) (f : α → Parse β) (ts : List Token) :
    (p >>= f) ts = match p ts with
      | .done a reports rest => (f a rest).after reports
      | .stopped why reports rest => .stopped why reports rest := rfl

theorem bind_of_done {p : Parse α} (f : α → Parse β) {ts rest : List Token} {a : α}
    {reports : List SyntaxReport} (h : p ts = .done a reports rest) :
    (p >>= f) ts = (f a rest).after reports := by
  rw [bind_apply, h]

theorem bind_of_stopped {p : Parse α} (f : α → Parse β) {ts rest : List Token} {why : Stop}
    {reports : List SyntaxReport} (h : p ts = .stopped why reports rest) :
    (p >>= f) ts = .stopped why reports rest := by
  rw [bind_apply, h]

theorem id_map_eq (p : Parse α) : id <$> p = p := by
  funext ts
  change Parse.bind p (fun a => Parse.pure a) ts = p ts
  simp only [Parse.bind, Parse.pure, Parsed.after, List.append_nil]
  cases p ts <;> rfl

theorem pure_bind_eq (a : α) (f : α → Parse β) : pure a >>= f = f a := by
  funext ts
  simp [bind_apply]

theorem bind_assoc_eq {γ : Type} (p : Parse α) (f : α → Parse β) (g : β → Parse γ) :
    p >>= f >>= g = p >>= fun a => f a >>= g := by
  funext ts
  simp only [bind_apply]
  cases p ts with
  | stopped => rfl
  | done a reports rest => cases h : f a rest <;> simp [h, Parsed.after_after]

instance : LawfulMonad Parse := .mk' Parse id_map_eq pure_bind_eq bind_assoc_eq

/-- The bound on the number of steps was too small. -/
def exhausted : Parse α := fun ts => .stopped .exhausted [] ts

/-- The token in front, which stays. -/
def peek : Parse Token
  | [] => .stopped .overrun [] []
  | t :: ts => .done t [] (t :: ts)

/-- Whether the token in front is of one of these kinds. -/
def check (kinds : List Kind) : Parse Bool
  | [] => .stopped .overrun [] []
  | t :: ts => .done (kinds.contains t.kind) [] (t :: ts)

/-- Takes the token in front if it is of one of these kinds. -/
def accept (kinds : List Kind) : Parse (Option Token)
  | [] => .stopped .overrun [] []
  | t :: ts => if kinds.contains t.kind then .done (some t) [] ts else .done none [] (t :: ts)

theorem check_bind_of_mem {kinds : List Kind} {t : Token} (ht : t.kind ∈ kinds)
    (f : Bool → Parse β) (ts : List Token) : (check kinds >>= f) (t :: ts) = f true (t :: ts) := by
  simp [bind_apply, check, ht]

theorem check_bind_of_not_mem {kinds : List Kind} {t : Token} (ht : t.kind ∉ kinds)
    (f : Bool → Parse β) (ts : List Token) : (check kinds >>= f) (t :: ts) = f false (t :: ts) := by
  simp [bind_apply, check, ht]

theorem accept_bind_of_mem {kinds : List Kind} {t : Token} (ht : t.kind ∈ kinds)
    (f : Option Token → Parse β) (ts : List Token) :
    (accept kinds >>= f) (t :: ts) = f (some t) ts := by
  simp [bind_apply, accept, ht]

theorem accept_bind_of_not_mem {kinds : List Kind} {t : Token} (ht : t.kind ∉ kinds)
    (f : Option Token → Parse β) (ts : List Token) :
    (accept kinds >>= f) (t :: ts) = f none (t :: ts) := by
  simp [bind_apply, accept, ht]

/-- Reports a problem with a token and goes on. -/
def note (t : Token) (problem : SyntaxProblem) : Parse Unit := fun ts =>
  .done () [⟨t, problem⟩] ts

/-- Reports a problem with the token in front and stops. -/
def reject (problem : SyntaxProblem) : Parse α
  | [] => .stopped .overrun [] []
  | t :: ts => .stopped (.rejected ⟨t, problem⟩) [⟨t, problem⟩] (t :: ts)

/-- Takes a token of this kind, or reports that it is missing and stops. -/
def expect (kind : Kind) (problem : SyntaxProblem) : Parse Token
  | [] => .stopped .overrun [] []
  | t :: ts =>
    if t.kind = kind then .done t [] ts
    else .stopped (.rejected ⟨t, problem⟩) [⟨t, problem⟩] (t :: ts)

theorem expect_of_eq {kind : Kind} {t : Token} (ht : t.kind = kind) (problem : SyntaxProblem)
    (ts : List Token) : expect kind problem (t :: ts) = .done t [] ts :=
  if_pos ht

theorem expect_of_ne {kind : Kind} {t : Token} (ht : t.kind ≠ kind) (problem : SyntaxProblem)
    (ts : List Token) :
    expect kind problem (t :: ts) =
      .stopped (.rejected ⟨t, problem⟩) [⟨t, problem⟩] (t :: ts) :=
  if_neg ht

/-- Reads with `p` behind a token of this kind, if there is one. -/
def behind (kind : Kind) (p : Parse α) : Parse (Option α) := do
  match ← accept [kind] with
  | none => return none
  | some _ => some <$> p

/-- Reads with `p` unless a token of this kind is in front. -/
def unlessAt (kind : Kind) (p : Parse α) : Parse (Option α) := do
  if ← check [kind] then return none else some <$> p

/-- Reports the token in front if `count` entries are as many as a list may have. -/
def noteSurplus (count : Nat) (surplus : SyntaxProblem) : Parse Unit := do
  if maxEntries ≤ count then note (← peek) surplus else return ()

/-- Joins `left` with the operands that follow it, each behind one of the operators, at most
`bound` times. -/
def chain (operators : List Kind) (join : Node → Token → Node → Node) (operand : Parse Node) :
    (bound : Nat) → (left : Node) → Parse Node
  | 0, _ => exhausted
  | bound + 1, left => do
    match ← accept operators with
    | none => return left
    | some operator =>
      let right ← operand
      chain operators join operand bound (join left operator right)

/-- Reads entries separated by commas, `count` of which have been read before. A surplus entry
is reported at its first token. -/
def entries (entry : Parse α) (surplus : SyntaxProblem) : (bound count : Nat) → Parse (List α)
  | 0, _ => exhausted
  | bound + 1, count => do
    noteSurplus count surplus
    let first ← entry
    match ← accept [.comma] with
    | none => return [first]
    | some _ => return first :: (← entries entry surplus bound (count + 1))

/-- Reads entries separated by commas, none if a token of this kind is in front. -/
def entriesUnlessAt (kind : Kind) (entry : Parse α) (surplus : SyntaxProblem) (bound : Nat) :
    Parse (List α) := do
  if ← check [kind] then return [] else entries entry surplus bound 0

/-- Reads entries as long as there are any in front of a token of the kinds `closers`, and
drops those that have no value. -/
def upTo (closers : List Kind) (entry : Parse (Option α)) : (bound : Nat) → Parse (List α)
  | 0 => exhausted
  | bound + 1 => do
    if ← check closers then
      return []
    else
      let first ← entry
      let others ← upTo closers entry bound
      return first.toList ++ others

end Parse

/-- The tokens behind the token `last` at which reading goes on after a syntax error: the end
of input, the token behind a semicolon, or the keyword of a statement, whichever comes first.
There are none if the list ends before. -/
def resumeBehind? (last : Token) : List Token → Option (List Token)
  | [] => none
  | t :: ts =>
    if t.kind = .endOfInput ∨ last.kind = .semicolon ∨ t.kind.startsStatement then some (t :: ts)
    else resumeBehind? t ts

/-- The tokens at which reading goes on after a syntax error. The token in front is given up
unless it is the end of input. -/
def resume? : List Token → Option (List Token)
  | [] => none
  | t :: ts => if t.kind = .endOfInput then some (t :: ts) else resumeBehind? t ts

theorem suffix_of_resumeBehind? {last : Token} {ts rest : List Token}
    (h : resumeBehind? last ts = some rest) : rest <:+ ts := by
  induction ts generalizing last with
  | nil => cases h
  | cons t ts ih =>
    rw [resumeBehind?] at h
    split at h
    · cases h
      exact List.suffix_refl _
    · exact (ih h).trans (List.suffix_cons t ts)

/-- Reading goes on at some of the tokens that are left. -/
theorem suffix_of_resume? {ts rest : List Token} (h : resume? ts = some rest) : rest <:+ ts := by
  cases ts with
  | nil => cases h
  | cons t ts =>
    rw [resume?] at h
    split at h
    · cases h
      exact List.suffix_refl _
    · exact (suffix_of_resumeBehind? h).trans (List.suffix_cons t ts)

namespace Parse

variable {α : Type}

/-- Reads with `p`. A syntax error is given up together with the tokens up to the next place
where reading can go on. -/
def recovering (p : Parse α) : Parse (Option α) := fun ts =>
  match p ts with
  | .done a reports rest => .done (some a) reports rest
  | .stopped (.rejected _) reports rest =>
    match resume? rest with
    | some rest => .done none reports rest
    | none => .stopped .overrun reports []
  | .stopped why reports rest => .stopped why reports rest

theorem recovering_of_done {p : Parse α} {ts rest : List Token} {a : α}
    {reports : List SyntaxReport} (h : p ts = .done a reports rest) :
    p.recovering ts = .done (some a) reports rest := by
  rw [recovering, h]

theorem recovering_of_rejected {p : Parse α} {ts mid rest : List Token} {report : SyntaxReport}
    {reports : List SyntaxReport} (h : p ts = .stopped (.rejected report) reports mid)
    (hresume : resume? mid = some rest) : p.recovering ts = .done none reports rest := by
  rw [recovering, h]
  simp only [hresume]

theorem recovering_of_not_resumed {p : Parse α} {ts mid : List Token} {report : SyntaxReport}
    {reports : List SyntaxReport} (h : p ts = .stopped (.rejected report) reports mid)
    (hresume : resume? mid = none) : p.recovering ts = .stopped .overrun reports [] := by
  rw [recovering, h]
  simp only [hresume]

theorem recovering_of_stopped {p : Parse α} {ts rest : List Token} {why : Stop}
    {reports : List SyntaxReport} (h : p ts = .stopped why reports rest)
    (hwhy : ∀ report, why ≠ .rejected report) :
    p.recovering ts = .stopped why reports rest := by
  rw [recovering, h]
  cases why with
  | rejected report => exact absurd rfl (hwhy report)
  | overrun => rfl
  | exhausted => rfl

end Parse

end Lox
