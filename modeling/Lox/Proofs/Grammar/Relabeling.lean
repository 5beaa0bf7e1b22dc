import Lox.Proofs.Grammar.Totality

/-!
# Texts with other tokens

Readers decide by the kinds of the tokens in front, and make literals of what tokens carry; how a
token is written and where it stands goes into the trees and the reports as it is. A relabeling
exchanges tokens for others of the same kind that carry the same. Two readers of which the second
reads a relabeled text mirror each other if the second answers as the first does, with relabeled
trees and reports.

What is compared is the part of a text up to the token that the first reader stops at. Behind that
token the texts need not have anything in common, so that mirroring says at the same time how far
readers look ahead.

## Main definitions

* `Relabeling`: a function on tokens that keeps kinds and literals.
* `Node.relabel`, `Parsed.relabel`: trees and answers with relabeled tokens.
* `Parse.Mirrors`: a reader answers on relabeled texts as another one does.

## Main results

* `Parse.Mirrors.bind`, `Parse.Mirrors.acceptOr`, `Parse.Mirrors.upTo` and the like: mirroring is
  handed on by the steps and the loops of productions.
-/

namespace Lox

/-- A function on tokens that keeps their kinds and what they carry. -/
structure Relabeling (f : Token → Token) : Prop where
  kind (t : Token) : (f t).kind = t.kind
  literal (t : Token) : (f t).literal = t.literal

theorem Relabeling.id : Relabeling id := ⟨fun _ => rfl, fun _ => rfl⟩

/-! ### Trees and answers -/

namespace Node

mutual

/-- A tree with relabeled tokens. -/
def relabel (f : Token → Token) : Node → Node
  | literal value => literal value
  | grouping inner => grouping (relabel f inner)
  | unary operator operand => unary (f operator) (relabel f operand)
  | binary left operator right => binary (relabel f left) (f operator) (relabel f right)
  | logical left operator right => logical (relabel f left) (f operator) (relabel f right)
  | ternary condition question thenBranch elseBranch =>
    ternary (relabel f condition) (f question) (relabel f thenBranch) (relabel f elseBranch)
  | reference name => reference (f name)
  | assign name value => assign (f name) (relabel f value)
  | call callee paren arguments => call (relabel f callee) (f paren) (relabelAll f arguments)
  | expression inner => expression (relabel f inner)
  | print inner => print (relabel f inner)
  | declare name initializer => declare (f name) (relabelOption f initializer)
  | block statements => block (relabelAll f statements)
  | branch condition thenBranch elseBranch =>
    branch (relabel f condition) (relabel f thenBranch) (relabelOption f elseBranch)
  | loop condition body => loop (relabel f condition) (relabel f body)
  | function name params body => function (f name) (params.map f) (relabelAll f body)
  | returning keyword value => returning (f keyword) (relabelOption f value)
  | stray token => stray (f token)
  | absent => absent

/-- A tree with relabeled tokens, if there is one. -/
def relabelOption (f : Token → Token) : Option Node → Option Node
  | none => none
  | some n => some (relabel f n)

/-- Some trees with relabeled tokens. -/
def relabelAll (f : Token → Token) : List Node → List Node
  | [] => []
  | n :: ns => relabel f n :: relabelAll f ns

end

variable {f : Token → Token}

@[simp]
theorem relabelOption_eq (o : Option Node) : relabelOption f o = o.map (relabel f) := by
  cases o <;> rfl

@[simp]
theorem relabelAll_eq (ns : List Node) : relabelAll f ns = ns.map (relabel f) := by
  induction ns with
  | nil => rfl
  | cons n ns ih => rw [relabelAll, ih, List.map_cons]

theorem relabel_desugarFor (initializer condition increment : Option Node) (body : Node) :
    (Statement.desugarFor initializer condition increment body).relabel f =
      Statement.desugarFor (initializer.map (relabel f)) (condition.map (relabel f))
        (increment.map (relabel f)) (body.relabel f) := by
  cases initializer <;> cases condition <;> cases increment <;> rfl

mutual

theorem relabel_id : (n : Node) → n.relabel id = n
  | literal _ | reference _ | stray _ | absent => rfl
  | grouping inner | expression inner | print inner => by rw [relabel, relabel_id inner]
  | unary _ operand => by rw [relabel, relabel_id operand, id]
  | binary left _ right | logical left _ right => by
    rw [relabel, relabel_id left, relabel_id right, id]
  | ternary condition _ thenBranch elseBranch => by
    rw [relabel, relabel_id condition, relabel_id thenBranch, relabel_id elseBranch, id]
  | assign _ value => by rw [relabel, relabel_id value, id]
  | call callee _ arguments => by rw [relabel, relabel_id callee, relabelAll_id arguments, id]
  | declare _ initializer => by rw [relabel, relabelOption_id initializer, id]
  | block statements => by rw [relabel, relabelAll_id statements]
  | branch condition thenBranch elseBranch => by
    rw [relabel, relabel_id condition, relabel_id thenBranch, relabelOption_id elseBranch]
  | loop condition body => by rw [relabel, relabel_id condition, relabel_id body]
  | function _ _ body => by rw [relabel, relabelAll_id body, List.map_id, id]
  | returning _ value => by rw [relabel, relabelOption_id value, id]

theorem relabelOption_id : (o : Option Node) → relabelOption id o = o
  | none => rfl
  | some n => by rw [relabelOption, relabel_id n]

theorem relabelAll_id : (ns : List Node) → relabelAll id ns = ns
  | [] => rfl
  | n :: ns => by rw [relabelAll, relabel_id n, relabelAll_id ns]

end

theorem relabel_id_eq : relabel id = id := funext relabel_id

end Node

/-- A report about a relabeled token. -/
def SyntaxReport.relabel (f : Token → Token) (r : SyntaxReport) : SyntaxReport :=
  { r with token := f r.token }

/-- A stop at a relabeled token. -/
def Stop.relabel (f : Token → Token) : Stop → Stop
  | rejected report => rejected (report.relabel f)
  | overrun => overrun
  | exhausted => exhausted

theorem SyntaxReport.relabel_id_eq : SyntaxReport.relabel id = id := rfl

theorem Stop.relabel_id (why : Stop) : why.relabel id = why := by
  cases why <;> rfl

namespace Parsed

variable {α β γ : Type} {f : Token → Token}

/-- An answer with another value, relabeled reports, and another rest. -/
def relabel (f : Token → Token) (g : α → β) (rest : List Token) : Parsed α → Parsed β
  | done a reports _ => done (g a) (reports.map (.relabel f)) rest
  | stopped why reports _ => stopped (why.relabel f) (reports.map (.relabel f)) rest

theorem relabel_after (g : α → β) (rest : List Token) (before : List SyntaxReport) (x : Parsed α) :
    (x.after before).relabel f g rest = (x.relabel f g rest).after (before.map (.relabel f)) := by
  cases x <;> simp [relabel]

theorem rest_after (before : List SyntaxReport) (x : Parsed α) :
    (x.after before).rest = x.rest := by
  cases x <;> rfl

/-- Nothing is changed but the rest if every token stands for itself. -/
theorem relabel_id_done {g : α → α} (hg : g = id) (rest rest' : List Token) (a : α)
    (reports : List SyntaxReport) :
    (done a reports rest').relabel id g rest = done a reports rest := by
  rw [relabel, hg, SyntaxReport.relabel_id_eq, List.map_id, id]

theorem relabel_id_stopped (g : α → β) (rest rest' : List Token) (why : Stop)
    (reports : List SyntaxReport) :
    (stopped why reports rest' : Parsed α).relabel id g rest = stopped why reports rest := by
  rw [relabel, why.relabel_id, SyntaxReport.relabel_id_eq, List.map_id]

end Parsed

/-! ### Where reading goes on -/

section Resume

variable {f : Token → Token} (hf : Relabeling f) {behind : List Token}
include hf

theorem resumeBehind?_relabel {last u : Token} {front us : List Token}
    (h : resumeBehind? last (front ++ behind) = some (u :: us ++ behind))
    (behind' : List Token) :
    resumeBehind? (f last) (front.map f ++ behind') = some ((u :: us).map f ++ behind') := by
  induction front generalizing last with
  | nil =>
    have hlength := (suffix_of_resumeBehind? h).length_le
    simp only [List.nil_append, List.length_append, List.length_cons] at hlength
    omega
  | cons t front ih =>
    rw [List.cons_append, resumeBehind?] at h
    rw [List.map_cons, List.cons_append, resumeBehind?, hf.kind, hf.kind]
    split at h
    · rename_i hstop
      rw [if_pos hstop]
      rw [← List.cons_append, Option.some.injEq, List.append_cancel_right_eq] at h
      rw [← h, List.map_cons, List.cons_append]
    · rename_i hstop
      rw [if_neg hstop]
      exact ih h

theorem resume?_relabel {u : Token} {front us : List Token}
    (h : resume? (front ++ behind) = some (u :: us ++ behind)) (behind' : List Token) :
    resume? (front.map f ++ behind') = some ((u :: us).map f ++ behind') := by
  cases front with
  | nil =>
    have hlength := (suffix_of_resume? h).length_le
    simp only [List.nil_append, List.length_append, List.length_cons] at hlength
    omega
  | cons t front =>
    rw [List.cons_append, resume?] at h
    rw [List.map_cons, List.cons_append, resume?, hf.kind]
    split at h
    · rename_i hstop
      rw [if_pos hstop]
      rw [← List.cons_append, Option.some.injEq, List.append_cancel_right_eq] at h
      rw [← h, List.map_cons, List.cons_append]
    · rename_i hstop
      rw [if_neg hstop]
      exact resumeBehind?_relabel hf h behind'

end Resume

/-! ### Mirroring -/

/-- The answer of a reader of a relabeled text is the relabeled answer, provided that reading stops
in front of a token that is in front of `behind`. -/
def Parsed.Mirrors {α β : Type} (f : Token → Token) (g : α → β) (behind behind' : List Token)
    (x : Parsed α) (x' : Parsed β) : Prop :=
  ∀ u us, x.rest = u :: us ++ behind → x' = x.relabel f g ((u :: us).map f ++ behind')

/-- The reader `p'` reads a relabeled text of at most `bound` tokens, whatever is behind it, as `p`
reads the text. If `strict` is true, `p` takes a token before it gives a value. -/
structure Parse.Mirrors {α β : Type} (f : Token → Token) (g : α → β) (bound : Nat) (strict : Bool)
    (p : Parse α) (p' : Parse β) : Prop where
  suffix (ts : List Token) : (p ts).rest <:+ ts
  strict : strict = true → ∀ ⦃ts a reports rest⦄, p ts = .done a reports rest →
    rest.length < ts.length
  mirrors (front behind behind' : List Token) : front.length ≤ bound →
    (p (front ++ behind)).Mirrors f g behind behind' (p' (front.map f ++ behind'))

theorem Parsed.rest_bind_suffix {α β : Type} {p : Parse α} {k : α → Parse β} {ts : List Token}
    (hp : (p ts).rest <:+ ts) (hk : ∀ a ts, (k a ts).rest <:+ ts) :
    ((p >>= k) ts).rest <:+ ts := by
  cases hres : p ts with
  | done a reports rest =>
    rw [hres] at hp
    rw [Parse.bind_of_done k hres, rest_after]
    exact (hk a rest).trans hp
  | stopped why reports rest =>
    rw [hres] at hp
    rw [Parse.bind_of_stopped k hres]
    exact hp

/-- What stops behind the part that is compared need not be mirrored. -/
theorem Parsed.Mirrors.ofSuffix {α β : Type} {f : Token → Token} {g : α → β}
    {behind behind' : List Token} {x : Parsed α} {x' : Parsed β} (hx : x.rest <:+ behind) :
    x.Mirrors f g behind behind' x' := by
  intro u us hrest
  have hlength := hx.length_le
  rw [hrest, List.length_append, List.length_cons] at hlength
  omega

/-- The tokens that are left when a reader starts again are some of those that are compared. -/
theorem Parsed.Mirrors.bind {α β γ δ : Type} {f : Token → Token} {g : α → β} {h : γ → δ}
    {p : Parse α} {p' : Parse β} {k : α → Parse γ} {k' : β → Parse δ}
    {behind behind' ts ts' : List Token} (hp : (p ts).Mirrors f g behind behind' (p' ts'))
    (hsuffix : ∀ a ts, (k a ts).rest <:+ ts)
    (hk : ∀ a reports mid, p ts = .done a reports (mid ++ behind) →
      (k a (mid ++ behind)).Mirrors f h behind behind' (k' (g a) (mid.map f ++ behind'))) :
    ((p >>= k) ts).Mirrors f h behind behind' ((p' >>= k') ts') := by
  intro u us hrest
  cases hres : p ts with
  | stopped why reports rest =>
    rw [Parse.bind_of_stopped k hres] at hrest ⊢
    have hstop := hp u us (by rw [hres]; exact hrest)
    rw [hres, relabel] at hstop
    rw [Parse.bind_of_stopped k' hstop, relabel]
  | done a reports rest =>
    rw [Parse.bind_of_done k hres] at hrest ⊢
    rw [rest_after] at hrest
    obtain ⟨w, hw⟩ := hsuffix a rest
    rw [hrest, ← List.append_assoc] at hw
    have hmid : w ++ u :: us ≠ [] := by simp
    obtain ⟨v, vs, hv⟩ := List.exists_cons_of_ne_nil hmid
    obtain rfl : v :: vs ++ behind = rest := hv ▸ hw
    have hdone := hp v vs (by rw [hres]; rfl)
    rw [hres, relabel] at hdone
    rw [Parse.bind_of_done k' hdone, relabel_after, hk a reports (v :: vs) hres u us hrest]

/-- The reader takes a token before it gives a value unless the end of input is in front. -/
def Parse.Advances {α : Type} (p : Parse α) : Prop :=
  ∀ ⦃t ts a reports rest⦄, t.kind ≠ .endOfInput → p (t :: ts) = .done a reports rest →
    rest.length < (t :: ts).length

namespace Parse.Mirrors

variable {α β γ δ : Type} {f : Token → Token} {g : α → β} {h : γ → δ}
variable {bound n : Nat} {strict : Bool} {p : Parse α} {p' : Parse β}

/-- Nothing is compared in an empty text. -/
theorem ofZero (hsuffix : ∀ ts, (p ts).rest <:+ ts)
    (hstrict : strict = true → ∀ ⦃ts a reports rest⦄, p ts = .done a reports rest →
      rest.length < ts.length) : p.Mirrors f g 0 strict p' where
  suffix := hsuffix
  strict := hstrict
  mirrors front behind behind' hfront := by
    obtain rfl := List.eq_nil_of_length_eq_zero (Nat.le_zero.mp hfront)
    exact .ofSuffix (hsuffix _)

/-- Otherwise there is a token in front. -/
theorem ofFront (hsuffix : ∀ ts, (p ts).rest <:+ ts)
    (hstrict : strict = true → ∀ ⦃ts a reports rest⦄, p ts = .done a reports rest →
      rest.length < ts.length)
    (hcons : ∀ t front behind behind', front.length + 1 ≤ n →
      (p (t :: (front ++ behind))).Mirrors f g behind behind'
        (p' (f t :: (front.map f ++ behind')))) : p.Mirrors f g n strict p' where
  suffix := hsuffix
  strict := hstrict
  mirrors front behind behind' hfront := by
    cases front with
    | nil => exact .ofSuffix (hsuffix _)
    | cons t front => exact hcons t front behind behind' hfront

theorem weaken (hp : p.Mirrors f g bound strict p') (hn : n ≤ bound) :
    p.Mirrors f g n strict p' where
  suffix := hp.suffix
  strict := hp.strict
  mirrors front behind behind' hfront := hp.mirrors front behind behind' (Nat.le_trans hfront hn)

theorem lax (hp : p.Mirrors f g n strict p') : p.Mirrors f g n false p' where
  suffix := hp.suffix
  strict := nofun
  mirrors := hp.mirrors

/-! ### The steps of productions -/

theorem pure {a : α} {b : β} (hab : g a = b) (n : Nat) :
    (Pure.pure a : Parse α).Mirrors f g n false (Pure.pure b) where
  suffix ts := List.suffix_refl ts
  strict := nofun
  mirrors front behind behind' _ u us hrest := by
    obtain rfl := List.append_cancel_right hrest
    rw [← hab]
    rfl

theorem exhausted : (Parse.exhausted : Parse α).Mirrors f g 0 strict p' :=
  ofZero (fun ts => List.suffix_refl ts) nofun

theorem note (t : Token) (problem : SyntaxProblem) (n : Nat) :
    (Parse.note t problem).Mirrors f id n false (Parse.note (f t) problem) where
  suffix ts := List.suffix_refl ts
  strict := nofun
  mirrors front behind behind' _ u us hrest := by
    obtain rfl := List.append_cancel_right hrest
    rfl

theorem peek (n : Nat) : Parse.peek.Mirrors f f n false Parse.peek := by
  refine ofFront (fun ts => ?_) nofun fun t front behind behind' _ u us hrest => ?_
  · cases ts <;> exact List.suffix_refl _
  · cases (List.append_cancel_right hrest : t :: front = u :: us)
    rfl

theorem reject (problem : SyntaxProblem) (strict : Bool) (n : Nat) :
    (Parse.reject problem : Parse α).Mirrors f g n strict (Parse.reject problem) := by
  refine ofFront (fun ts => ?_) (fun _ ts => ?_) fun t front behind behind' _ u us hrest => ?_
  · cases ts <;> exact List.suffix_refl _
  · cases ts <;> nofun
  · cases (List.append_cancel_right hrest : t :: front = u :: us)
    rfl

theorem byLength {q : Nat → Parse α} {r : Nat → Parse β}
    (hq : ∀ m b b', m ≤ b → m ≤ b' → (q b).Mirrors f g m strict (r b')) :
    Mirrors f g n strict (fun ts => q ts.length ts) (fun ts => r ts.length ts) where
  suffix ts := (hq 0 ts.length 0 (Nat.zero_le _) (Nat.le_refl _)).suffix ts
  strict hstrict ts _ _ _ hres :=
    (hq 0 ts.length 0 (Nat.zero_le _) (Nat.le_refl _)).strict hstrict hres
  mirrors front behind behind' _ :=
    (hq front.length _ _ (by simp) (by simp)).mirrors front behind behind' (Nat.le_refl _)

theorem bind {k : α → Parse γ} {k' : β → Parse δ} (hp : p.Mirrors f g n false p')
    (hk : ∀ a, (k a).Mirrors f h n strict (k' (g a))) :
    (p >>= k).Mirrors f h n strict (p' >>= k') where
  suffix ts := Parsed.rest_bind_suffix (hp.suffix ts) fun a => (hk a).suffix
  strict hstrict ts c reports rest hres := by
    cases hp_ts : p ts with
    | stopped why own mid =>
      rw [bind_of_stopped k hp_ts] at hres
      cases hres
    | done a own mid =>
      rw [bind_of_done k hp_ts] at hres
      have hmid := (hp.suffix ts).length_le
      rw [hp_ts] at hmid
      cases hback : k a mid with
      | stopped why reports rest =>
        rw [hback] at hres
        cases hres
      | done c reports rest =>
        rw [hback] at hres
        cases hres
        exact Nat.lt_of_lt_of_le ((hk a).strict hstrict hback) hmid
  mirrors front behind behind' hfront := by
    refine (hp.mirrors front behind behind' hfront).bind (fun a => (hk a).suffix) ?_
    intro a reports mid hres
    have hmid := (hp.suffix (front ++ behind)).length_le
    rw [hres, Parsed.rest, List.length_append, List.length_append] at hmid
    exact (hk a).mirrors mid behind behind' (by omega)

/-- Behind a reader that takes a token fewer tokens are left. -/
theorem andThen {k : α → Parse γ} {k' : β → Parse δ} (hp : p.Mirrors f g n true p')
    (hk : ∀ a, (k a).Mirrors f h (n - 1) false (k' (g a))) :
    (p >>= k).Mirrors f h n true (p' >>= k') where
  suffix ts := Parsed.rest_bind_suffix (hp.suffix ts) fun a => (hk a).suffix
  strict _ ts c reports rest hres := by
    cases hp_ts : p ts with
    | stopped why own mid =>
      rw [bind_of_stopped k hp_ts] at hres
      cases hres
    | done a own mid =>
      rw [bind_of_done k hp_ts] at hres
      have hback := ((hk a).suffix mid).length_le
      have hrest := congrArg Parsed.rest hres
      rw [Parsed.rest_after] at hrest
      rw [hrest] at hback
      exact Nat.lt_of_le_of_lt hback (hp.strict rfl hp_ts)
  mirrors front behind behind' hfront := by
    refine (hp.mirrors front behind behind' hfront).bind (fun a => (hk a).suffix) ?_
    intro a reports mid hres
    have hmid := hp.strict rfl hres
    rw [List.length_append, List.length_append] at hmid
    exact (hk a).mirrors mid behind behind' (by omega)

theorem thenLax {k : α → Parse γ} {k' : β → Parse δ} (hp : p.Mirrors f g n true p')
    (hk : ∀ a, (k a).Mirrors f h (n - 1) false (k' (g a))) :
    (p >>= k).Mirrors f h n false (p' >>= k') :=
  (hp.andThen hk).lax

theorem map {k : α → γ} {l : β → δ} (hp : p.Mirrors f g n strict p')
    (hkl : ∀ a, h (k a) = l (g a)) : (k <$> p).Mirrors f h n strict (l <$> p') := by
  rw [map_eq_pure_bind, map_eq_pure_bind]
  cases strict with
  | true => exact hp.andThen fun a => .pure (hkl a) _
  | false => exact hp.bind fun a => .pure (hkl a) _

theorem noteSurplus (count : Nat) (surplus : SyntaxProblem) (n : Nat) :
    (Parse.noteSurplus count surplus).Mirrors f id n false (Parse.noteSurplus count surplus) := by
  rw [Parse.noteSurplus]
  split
  · exact (peek n).bind fun t => .note t surplus n
  · exact .pure rfl n

/-- A token is given up with a syntax error, unless it is the end of input. -/
theorem advances_recovering (hp : p.Mirrors f g n true p') : p.recovering.Advances := by
  intro t ts a reports rest ht hrecovering
  have hsuffix := hp.suffix (t :: ts)
  cases hres : p (t :: ts) with
  | done a own mid =>
    rw [recovering_of_done hres] at hrecovering
    cases hrecovering
    exact hp.strict rfl hres
  | stopped why own mid =>
    rw [hres] at hsuffix
    cases why with
    | overrun | exhausted =>
      rw [recovering_of_stopped hres (by simp)] at hrecovering
      cases hrecovering
    | rejected report =>
      cases hresume : resume? mid with
      | none =>
        rw [recovering_of_not_resumed hres hresume] at hrecovering
        cases hrecovering
      | some back =>
        rw [recovering_of_rejected hres hresume] at hrecovering
        cases hrecovering
        obtain rfl | hmid := List.suffix_cons_iff.mp hsuffix
        · rw [resume?, if_neg ht] at hresume
          exact Nat.lt_succ_of_le (suffix_of_resumeBehind? hresume).length_le
        · exact Nat.lt_succ_of_le ((suffix_of_resume? hresume).trans hmid).length_le

section Tokens

variable (hf : Relabeling f)
include hf

theorem check (kinds : List Kind) (n : Nat) :
    (Parse.check kinds).Mirrors f id n false (Parse.check kinds) := by
  refine ofFront (fun ts => ?_) nofun fun t front behind behind' _ u us hrest => ?_
  · cases ts <;> exact List.suffix_refl _
  · cases (List.append_cancel_right hrest : t :: front = u :: us)
    rw [Parse.check, hf.kind]
    rfl

theorem expect (kind : Kind) (problem : SyntaxProblem) (n : Nat) :
    (Parse.expect kind problem).Mirrors f f n true (Parse.expect kind problem) := by
  refine ofFront (fun ts => ?_) (fun _ ts => ?_) fun t front behind behind' _ u us => ?_
  · cases ts with
    | nil => exact List.suffix_refl _
    | cons t ts =>
      by_cases ht : t.kind = kind
      · rw [expect_of_eq ht]
        exact List.suffix_cons t ts
      · rw [expect_of_ne ht]
        exact List.suffix_refl _
  · cases ts with
    | nil => exact fun _ _ _ hres => by cases hres
    | cons t ts =>
      by_cases ht : t.kind = kind
      · rw [expect_of_eq ht]
        intro _ _ _ hres
        cases hres
        exact Nat.lt_succ_self _
      · rw [expect_of_ne ht]
        exact fun _ _ _ hres => by cases hres
  · by_cases ht : t.kind = kind
    · rw [expect_of_eq ht, expect_of_eq ((hf.kind t).trans ht)]
      intro hrest
      obtain rfl := List.append_cancel_right hrest
      rfl
    · rw [expect_of_ne ht, expect_of_ne (hf.kind t ▸ ht)]
      intro hrest
      cases (List.append_cancel_right hrest : t :: front = u :: us)
      rfl

theorem acceptOr {kinds : List Kind} {k : Option Token → Parse γ} {k' : Option Token → Parse δ}
    (hnone : (k none).Mirrors f h n strict (k' none))
    (hsome : ∀ t, t.kind ∈ kinds → (k (some t)).Mirrors f h (n - 1) false (k' (some (f t)))) :
    (Parse.accept kinds >>= k).Mirrors f h n strict (Parse.accept kinds >>= k') := by
  refine ofFront (fun ts => ?_) (fun hstrict ts => ?_) fun t front behind behind' hfront => ?_
  · cases ts with
    | nil => exact List.suffix_refl _
    | cons t ts =>
      by_cases ht : t.kind ∈ kinds
      · rw [accept_bind_of_mem ht]
        exact ((hsome t ht).suffix ts).trans (List.suffix_cons t ts)
      · rw [accept_bind_of_not_mem ht]
        exact hnone.suffix _
  · cases ts with
    | nil => nofun
    | cons t ts =>
      by_cases ht : t.kind ∈ kinds
      · rw [accept_bind_of_mem ht]
        intro c reports rest hres
        have hback := ((hsome t ht).suffix ts).length_le
        rw [hres] at hback
        exact Nat.lt_succ_of_le hback
      · rw [accept_bind_of_not_mem ht]
        exact fun _ _ _ hres => hnone.strict hstrict hres
  · by_cases ht : t.kind ∈ kinds
    · have ht' : (f t).kind ∈ kinds := by rwa [hf.kind]
      rw [accept_bind_of_mem ht, accept_bind_of_mem ht']
      exact (hsome t ht).mirrors front behind behind' (by omega)
    · have ht' : (f t).kind ∉ kinds := by rwa [hf.kind]
      rw [accept_bind_of_not_mem ht, accept_bind_of_not_mem ht']
      exact hnone.mirrors (t :: front) behind behind' hfront

theorem behind {kind : Kind} (hp : p.Mirrors f g (n - 1) false p') :
    (p.behind kind).Mirrors f (Option.map g) n false (p'.behind kind) :=
  acceptOr hf (.pure rfl _) fun _ _ => hp.map fun _ => rfl

theorem unlessAt {kind : Kind} (hp : p.Mirrors f g n false p') :
    (p.unlessAt kind).Mirrors f (Option.map g) n false (p'.unlessAt kind) := by
  refine (check hf [kind] n).bind fun b => ?_
  cases b with
  | true => exact .pure rfl _
  | false => exact hp.map fun _ => rfl

/-! ### Syntax errors that are given up -/

theorem recovering (hp : p.Mirrors f g n strict p') :
    p.recovering.Mirrors f (Option.map g) n false p'.recovering where
  suffix ts := by
    have hsuffix := hp.suffix ts
    cases hres : p ts with
    | done a reports rest =>
      rw [hres] at hsuffix
      rwa [recovering_of_done hres]
    | stopped why reports mid =>
      rw [hres] at hsuffix
      cases why with
      | overrun | exhausted => rwa [recovering_of_stopped hres (by simp)]
      | rejected report =>
        cases hresume : resume? mid with
        | none =>
          rw [recovering_of_not_resumed hres hresume]
          exact List.nil_suffix
        | some rest =>
          rw [recovering_of_rejected hres hresume]
          exact (suffix_of_resume? hresume).trans hsuffix
  strict := nofun
  mirrors front behind behind' hfront u us hrest := by
    have hmirrors := hp.mirrors front behind behind' hfront
    cases hres : p (front ++ behind) with
    | done a reports rest =>
      rw [recovering_of_done hres] at hrest ⊢
      rw [hres] at hmirrors
      rw [recovering_of_done (hmirrors u us hrest)]
      rfl
    | stopped why reports mid =>
      rw [hres] at hmirrors
      cases why with
      | overrun | exhausted =>
        rw [recovering_of_stopped hres (by simp)] at hrest ⊢
        rw [recovering_of_stopped (hmirrors u us hrest) (by simp [Stop.relabel])]
        rfl
      | rejected report =>
        cases hresume : resume? mid with
        | none =>
          rw [recovering_of_not_resumed hres hresume] at hrest
          cases hrest
        | some rest =>
          rw [recovering_of_rejected hres hresume] at hrest ⊢
          obtain rfl : rest = u :: us ++ behind := hrest
          obtain ⟨w, hw⟩ := suffix_of_resume? hresume
          rw [← List.append_assoc] at hw
          obtain ⟨v, vs, hv⟩ := List.exists_cons_of_ne_nil (l := w ++ u :: us) (by simp)
          rw [hv] at hw
          have hstopped := hmirrors v vs hw.symm
          rw [← hw] at hresume
          rw [recovering_of_rejected hstopped (resume?_relabel hf hresume behind')]
          rfl

/-- Unless a closer is in front, of which the end of input is one, fewer tokens are left behind a
reader that advances. -/
theorem advanceUnless {kinds : List Kind} {q : Parse γ} {q' : Parse δ} {k : α → Parse γ}
    {k' : β → Parse δ} (hkinds : .endOfInput ∈ kinds) (hq : q.Mirrors f h n false q')
    (hp : p.Mirrors f g n false p') (hadvances : p.Advances)
    (hk : ∀ a, (k a).Mirrors f h (n - 1) false (k' (g a))) :
    (Parse.check kinds >>= fun b => if b then q else p >>= k).Mirrors f h n false
      (Parse.check kinds >>= fun b => if b then q' else p' >>= k') := by
  refine ofFront (fun ts => ?_) nofun fun t front behind behind' hfront => ?_
  · cases ts with
    | nil => exact List.suffix_refl _
    | cons t ts =>
      by_cases ht : t.kind ∈ kinds
      · rw [check_bind_of_mem ht]
        exact hq.suffix _
      · rw [check_bind_of_not_mem ht]
        exact Parsed.rest_bind_suffix (hp.suffix _) fun a => (hk a).suffix
  · by_cases ht : t.kind ∈ kinds
    · rw [check_bind_of_mem ht, check_bind_of_mem (by rwa [hf.kind])]
      exact hq.mirrors (t :: front) behind behind' hfront
    · rw [check_bind_of_not_mem ht, check_bind_of_not_mem (by rwa [hf.kind])]
      have hne : t.kind ≠ .endOfInput := fun heq => ht (heq ▸ hkinds)
      refine (hp.mirrors (t :: front) behind behind' hfront).bind (fun a => (hk a).suffix) ?_
      intro a reports mid hres
      have hmid : (mid ++ behind).length < (t :: (front ++ behind)).length := hadvances hne hres
      rw [List.length_append, List.length_cons, List.length_append] at hmid
      exact (hk a).mirrors mid behind behind' (by omega)

/-! ### Loops -/

variable {b b' : Nat}

theorem chain {operators : List Kind} {join : Node → Token → Node → Node}
    (hjoin : ∀ l t r, (join l t r).relabel f = join (l.relabel f) (f t) (r.relabel f))
    {operand operand' : Parse Node} (hoperand : operand.Mirrors f (.relabel f) n true operand')
    (left : Node) (hb : n ≤ b) (hb' : n ≤ b') :
    (Parse.chain operators join operand b left).Mirrors f (.relabel f) n false
      (Parse.chain operators join operand' b' (left.relabel f)) := by
  induction b generalizing n b' left with
  | zero =>
    obtain rfl : n = 0 := by omega
    exact exhausted
  | succ b ih =>
    have hsucc (b' : Nat) (hb' : n ≤ b' + 1) :
        (Parse.chain operators join operand (b + 1) left).Mirrors f (.relabel f) n false
          (Parse.chain operators join operand' (b' + 1) (left.relabel f)) := by
      refine acceptOr hf (.pure rfl _) fun operator _ => ?_
      refine (hoperand.weaken (by omega)).thenLax fun right => ?_
      rw [← hjoin]
      exact ih (hoperand.weaken (by omega)) _ (by omega) (by omega)
    cases b' with
    | succ b' => exact hsucc b' hb'
    | zero =>
      obtain rfl : n = 0 := by omega
      exact ofZero (hsucc 0 (by omega)).suffix nofun

theorem entries {entry : Parse α} {entry' : Parse β} (surplus : SyntaxProblem)
    (hentry : entry.Mirrors f g n true entry') (count : Nat) (hb : n ≤ b) (hb' : n ≤ b') :
    (Parse.entries entry surplus b count).Mirrors f (List.map g) n true
      (Parse.entries entry' surplus b' count) := by
  induction b generalizing n b' count with
  | zero =>
    obtain rfl : n = 0 := by omega
    exact exhausted
  | succ b ih =>
    have hsucc (b' : Nat) (hb' : n ≤ b' + 1) :
        (Parse.entries entry surplus (b + 1) count).Mirrors f (List.map g) n true
          (Parse.entries entry' surplus (b' + 1) count) := by
      refine (noteSurplus count surplus n).bind fun _ => hentry.andThen fun first => ?_
      refine acceptOr hf (.pure rfl _) fun _ _ => ?_
      have hless : entry.Mirrors f g (n - 1 - 1) true entry' := hentry.weaken (by omega)
      have hothers := ih hless (count + 1) (show n - 1 - 1 ≤ b by omega)
        (show n - 1 - 1 ≤ b' by omega)
      exact hothers.thenLax fun _ => .pure rfl _
    cases b' with
    | succ b' => exact hsucc b' hb'
    | zero =>
      obtain rfl : n = 0 := by omega
      exact ofZero (hsucc 0 (by omega)).suffix (hsucc 0 (by omega)).strict

theorem entriesUnlessAt {kind : Kind} {entry : Parse α} {entry' : Parse β} (surplus : SyntaxProblem)
    (hentry : entry.Mirrors f g n true entry') (hb : n ≤ b) (hb' : n ≤ b') :
    (Parse.entriesUnlessAt kind entry surplus b).Mirrors f (List.map g) n false
      (Parse.entriesUnlessAt kind entry' surplus b') := by
  refine (check hf [kind] n).bind fun isClosed => ?_
  cases isClosed with
  | true => exact .pure rfl _
  | false => exact (entries hf surplus hentry 0 hb hb').lax

theorem upTo {closers : List Kind} (hclosers : .endOfInput ∈ closers) {entry : Parse (Option α)}
    {entry' : Parse (Option β)} (hentry : entry.Mirrors f (Option.map g) n false entry')
    (hadvances : entry.Advances) (hb : n ≤ b) (hb' : n ≤ b') :
    (Parse.upTo closers entry b).Mirrors f (List.map g) n false
      (Parse.upTo closers entry' b') := by
  induction b generalizing n b' with
  | zero =>
    obtain rfl : n = 0 := by omega
    exact exhausted
  | succ b ih =>
    have hsucc (b' : Nat) (hb' : n ≤ b' + 1) :
        (Parse.upTo closers entry (b + 1)).Mirrors f (List.map g) n false
          (Parse.upTo closers entry' (b' + 1)) := by
      refine advanceUnless hf hclosers (.pure rfl _) hentry hadvances fun first => ?_
      have hless : entry.Mirrors f (Option.map g) (n - 1) false entry' := hentry.weaken (by omega)
      have hothers := ih hless (show n - 1 ≤ b by omega) (show n - 1 ≤ b' by omega)
      refine hothers.bind fun others => .pure ?_ _
      cases first <;> rfl
    cases b' with
    | succ b' => exact hsucc b' hb'
    | zero =>
      obtain rfl : n = 0 := by omega
      exact ofZero (hsucc 0 (by omega)).suffix nofun

end Tokens

end Parse.Mirrors

end Lox
