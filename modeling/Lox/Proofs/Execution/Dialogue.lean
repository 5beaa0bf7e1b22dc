import Lox.Proofs.Execution.Echo
import Lox.Proofs.Grammar.Isolation
import Lox.Proofs.Token.Opening

/-!
# Programs at the prompt

A program that nothing is reported on is no expression, since a semicolon or a brace ends it. So it
is run when it is entered at the prompt, as a script would be, unless it is taken for a command. The
latter happens exactly if it begins with a slash, and then with a comment: such an entry is rejected
as a command that there is none of, and nothing of it is run.

## Main results

* `Session.enter_of_clean`: a program is not mistaken for an expression.
* `Prompt.Command.ofEntry?_of_comment`: a comment in front is mistaken for a command.
* `Prompt.answer_program`: what comes of a program that is entered.
-/

namespace Lox

/-! ### Programs are no expressions -/

/-- A phrase that is made of declarations or statements ends in a semicolon or a brace. -/
theorem Statement.Spells.closes {s : Symbol} {ns : List Node} {us : List Token}
    (h : Spells s ns us) (hs : s = .declarations → us ≠ []) :
    ∃ t ∈ us, t.kind = .semicolon ∨ t.kind = .rightBrace := by
  have hended {kind : Kind} {n : Node} {vs : List Token} (h : Ended kind n vs) :
      ∃ t ∈ vs, t.kind = kind := by
    obtain ⟨ws, t, rfl, ht, -⟩ := h
    exact ⟨t, by simp, ht⟩
  induction h with
  | nil => exact absurd rfl (hs rfl)
  | cons _ _ ih _ => exact (ih nofun).imp fun _ ht => ht.imp_left (List.mem_append_left _)
  | function _ _ _ _ _ _ _ hright => exact ⟨_, by simp, .inr hright⟩
  | declared _ h =>
    cases h with
    | @bare _ t _ ht => exact ⟨t, by simp, .inl ht⟩
    | initialized _ _ h =>
      obtain ⟨t, hmem, ht⟩ := hended h
      exact ⟨t, by simp [hmem], .inl ht⟩
  | statement _ ih => exact ih nofun
  | expression h =>
    obtain ⟨t, hmem, ht⟩ := hended h
    exact ⟨t, hmem, .inl ht⟩
  | print _ h =>
    obtain ⟨t, hmem, ht⟩ := hended h
    exact ⟨t, by simp [hmem], .inl ht⟩
  | returning _ h =>
    cases h with
    | @none t ht => exact ⟨t, by simp, .inl ht⟩
    | some h =>
      obtain ⟨t, hmem, ht⟩ := hended h
      exact ⟨t, by simp [hmem], .inl ht⟩
  | block _ _ hright => exact ⟨_, by simp, .inr hright⟩
  | branch _ _ _ ih | branchElse _ _ _ _ _ ih | whileLoop _ _ _ ih | forLoop _ _ _ _ _ _ ih =>
    obtain ⟨t, hmem, ht⟩ := ih nofun
    exact ⟨t, by simp [hmem], ht⟩

/-- No expression has one. -/
theorem Expression.Spells.kind_ne {n : Node} {us : List Token} (h : Spells .assignment [n] us) :
    ∀ t ∈ us, t.kind ≠ .semicolon ∧ t.kind ≠ .rightBrace := by
  intro t ht
  have hkinds := h.derives.admits.subset_kinds trivial
  have hkind : t.kind ∈ Expression.kinds := hkinds (List.mem_map_of_mem ht)
  constructor <;> intro hclosing <;> rw [hclosing] at hkind <;> exact absurd hkind (by decide)

/-- Nothing can be read both as a program and as an expression. -/
theorem Fragment.diagnostics_ne_nil {text : String} {n : Node}
    (hclean : (Program.ofText text).diagnostics = []) (hn : (ofText text).expression = some n) :
    (ofText text).diagnostics ≠ [] := by
  intro hfragment
  have hexpression := (spells_of_diagnostics hn hfragment).2
  have hprogram := (Program.spells_of_diagnostics hclean).2
  have hopens : StartsIn Expression.openingKinds (Scan.words text) := hexpression.opens
  have hwords : Scan.words text ≠ [] := by
    intro hnil
    rw [hnil] at hopens
    exact hopens
  obtain ⟨t, ht, hkind⟩ := hprogram.closes fun _ => hwords
  obtain ⟨hsemicolon, hbrace⟩ := hexpression.kind_ne t ht
  exact hkind.elim hsemicolon hbrace

/-- A program that nothing is reported on is run when it is entered. -/
theorem Session.enter_of_clean (host : Host) {text : String}
    (hclean : (Program.ofText text).diagnostics = []) :
    enter host text = (do run host text; return none) := by
  rw [enter]
  split
  · rfl
  · dsimp only
    split
    · rename_i e he
      have hreported := Fragment.diagnostics_ne_nil hclean he
      rw [if_neg (by simpa using hreported)]
    · rfl

namespace Prompt

/-! ### Commands -/

/-- Nothing is taken out of an entry that holds no invisible character. -/
theorem visible_eq {text : String} (h : ∀ c ∈ text.toList, c ∉ invisible) : visible text = text := by
  have hfilter : text.toList.filter (!invisible.contains ·) = text.toList :=
    List.filter_eq_self.mpr fun c hc => by simp [h c hc]
  rw [visible, hfilter, String.ofList_toList]

namespace Command

/-- Only what begins with a slash is taken for a command. -/
theorem ofEntry?_eq_none {entry : String}
    (h : (Blank.strip entry.toList).head? ≠ some '/') : ofEntry? entry = none :=
  if_neg h

/-- The first word of an entry. -/
def firstWord (entry : String) : String :=
  String.ofList ((Blank.strip entry.toList).takeWhile (!Blank.isBlank ·))

/-- A comment in front of an entry is taken for the name of a command, which there is none of. -/
theorem ofEntry?_of_comment {entry : String} {c : Char} {rest : List Char}
    (h : Blank.strip entry.toList = '/' :: c :: rest) (hc : c = '/' ∨ c = '*') :
    ofEntry? entry = some (.unknown (firstWord entry)) := by
  have hword : firstWord entry
      = String.ofList ('/' :: c :: rest.takeWhile (!Blank.isBlank ·)) := by
    have hslash : Blank.isBlank '/' = false := by decide
    have hblank : Blank.isBlank c = false := by
      obtain rfl | rfl := hc <;> decide
    rw [firstWord, h]
    simp [hslash, hblank]
  have hne (d : Char) (name : List Char) (hd : d ≠ '/' ∧ d ≠ '*') :
      firstWord entry ≠ String.ofList ('/' :: d :: name) := by
    rw [hword]
    intro heq
    have hlist := congrArg String.toList heq
    simp only [String.toList_ofList, List.cons.injEq, true_and] at hlist
    obtain rfl | rfl := hc
    · exact hd.1 hlist.1.symm
    · exact hd.2 hlist.1.symm
  have hclear : firstWord entry ≠ "/clear" := hne 'c' _ (by decide)
  have htracing : firstWord entry ≠ "/py-traceback" := hne 'p' _ (by decide)
  have hreset : firstWord entry ≠ "/reset" := hne 'r' _ (by decide)
  have hhead : (Blank.strip entry.toList).head? = some '/' := by rw [h, List.head?_cons]
  rw [ ofEntry?]
  simp only [if_pos hhead, Blank.splitFirst]
  rw [firstWord] at hclear htracing hreset ⊢
  split
  · exact absurd ‹_› hclear
  · exact absurd ‹_› htracing
  · exact absurd ‹_› hreset
  · rfl

end Command

/-- The first token of a program that nothing is reported on is no slash. -/
theorem not_startsIn_slash {entry : String} (hclean : (Program.ofText entry).diagnostics = []) :
    ¬ StartsIn [.slash] (Scan.words entry) := by
  intro hslash
  have hspells := (Program.spells_of_diagnostics hclean).2
  generalize Scan.words entry = us, (Program.ofText entry).statements = ns at hslash hspells
  cases hspells with
  | nil => exact hslash
  | @cons _ _ us vs hn _ =>
    have hopens : StartsIn Statement.declarationKinds us := hn.opens
    cases us with
    | nil => exact hopens
    | cons t us =>
      have hkind : t.kind = .slash := List.mem_singleton.mp hslash
      have hmem : t.kind ∈ Statement.declarationKinds := hopens
      rw [hkind] at hmem
      exact absurd hmem (by decide)

section

variable (host : Host) (clearing : String) (s : Session) {entry : String}
  (hvisible : ∀ c ∈ entry.toList, c ∉ invisible) (hblank : Blank.strip entry.toList ≠ [])

include hvisible hblank

theorem answer_of_command {command : Command} (h : Command.ofEntry? entry = some command) :
    answer host clearing (.entry entry) s = carryOut host clearing command s := by
  have hnonempty : (Blank.strip entry.toList).isEmpty = false := by simpa using hblank
  simp only [answer, visible_eq hvisible, hnonempty, h]
  rfl

theorem answer_of_entry (h : Command.ofEntry? entry = none) :
    answer host clearing (.entry entry) s = runEntry host entry s := by
  have hnonempty : (Blank.strip entry.toList).isEmpty = false := by simpa using hblank
  simp only [answer, visible_eq hvisible, hnonempty, h]
  rfl

/-- What comes of a program that is entered, if nothing is reported on it and it holds nothing that
is taken out of entries. Unless it begins with a slash, it is run, with the reporter reset. If it
does, it begins with a comment, and what is behind it does not matter: the entry is rejected as a
command that there is none of, by one line on the error stream. -/
theorem answer_program (hclean : (Program.ofText entry).diagnostics = []) :
    ((Blank.strip entry.toList).head? ≠ some '/' →
        answer host clearing (.entry entry) s =
          Session.run host entry { s with reporter := s.reporter.reset }) ∧
      ∀ rest, Blank.strip entry.toList = '/' :: rest →
        (∃ c ∈ rest.head?, c = '/' ∨ c = '*') ∧
          answer host clearing (.entry entry) s = .ok ()
            { s with
              reporter :=
                s.reporter.writeLine ("Unknown command: " ++ Command.firstWord entry) } := by
  refine ⟨fun hhead => ?_, fun rest hrest => ?_⟩
  · rw [answer_of_entry host clearing s hvisible hblank (Command.ofEntry?_eq_none hhead),
      runEntry_of_program host s (Session.enter_of_clean host hclean)]
  · have hreports := (Program.spells_of_diagnostics hclean).1
    have hcomment : ∃ c ∈ rest.head?, c = '/' ∨ c = '*' :=
      (Scan.comment_or_slash hreports hrest).resolve_right (not_startsIn_slash hclean)
    refine ⟨hcomment, ?_⟩
    obtain ⟨c, hc, hopener⟩ := hcomment
    obtain ⟨behind, rfl⟩ := List.head?_eq_some_iff.mp hc
    have hunknown := Command.ofEntry?_of_comment hrest hopener
    rw [answer_of_command host clearing s hvisible hblank hunknown]
    rfl

end

namespace Commented

def host : Host := ⟨[], 8, 8⟩

/-- A program behind a comment. -/
def entry : String := "/* one */ print \"a\";"

/-- The same program in front of it. -/
def reversed : String := "print \"a\"; /* one */"

/-- The session in which they are entered. -/
def session : Session := .fresh host .speaking .unset

/-- What has been written to the output and to the error stream. -/
def streams (r : EStateM.Result Interrupt Session Unit) : String × String :=
  ((endState r).machine.output, (endState r).reporter.written)

theorem visible_entry : ∀ c ∈ entry.toList, c ∉ invisible := by
  have hall : entry.toList.all (!invisible.contains ·) = true := by decide +kernel
  simpa using hall

theorem visible_reversed : ∀ c ∈ reversed.toList, c ∉ invisible := by
  have hall : reversed.toList.all (!invisible.contains ·) = true := by decide +kernel
  simpa using hall

/-- A program behind a comment is a program, and is not run. -/
theorem not_answer_program :
    (∀ c ∈ entry.toList, c ∉ invisible) ∧ Blank.strip entry.toList ≠ [] ∧
      (Program.ofText entry).diagnostics = [] ∧
      streams (Session.run host entry { session with reporter := session.reporter.reset })
        = ("a\n", "") ∧
      streams (answer host "" (.entry entry) session) = ("", "Unknown command: /*\n") := by
  refine ⟨visible_entry, by decide +kernel, by decide +kernel, by decide +kernel,
    by decide +kernel⟩

/-- In front of the comment it is. -/
theorem answer_program_commented :
    answer host "" (.entry reversed) session =
        Session.run host reversed { session with reporter := session.reporter.reset } ∧
      answer host "" (.entry entry) session = .ok ()
        { session with
          reporter :=
            session.reporter.writeLine ("Unknown command: " ++ Command.firstWord entry) } := by
  have hblank : Blank.strip reversed.toList ≠ [] := by decide +kernel
  have hreversed := answer_program host "" session visible_reversed hblank (by decide +kernel)
  have hblank' : Blank.strip entry.toList ≠ [] := by decide +kernel
  have hentry := answer_program host "" session visible_entry hblank' (by decide +kernel)
  have hrest : Blank.strip entry.toList = '/' :: (Blank.strip entry.toList).tail := by
    decide +kernel
  exact ⟨hreversed.1 (by decide +kernel), (hentry.2 _ hrest).2⟩

end Commented

end Prompt

end Lox
