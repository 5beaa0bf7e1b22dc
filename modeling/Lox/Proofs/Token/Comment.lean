import Lox.Token.Piece.Lossless
import Mathlib.Algebra.Ring.Int.Defs

/-!
# Comments that nest

The reader of a block comment keeps a depth. Here the depth is not kept but counted: reading the
inside of a comment from left to right, each opener adds one and each closer takes one away, and a
comment ends where the sum of these turns makes up for its first opener. The reader finds such an
end if there is one, and finds none if the sum never gets there.

## Main definitions

* `Comment.turns`: what the delimiters in a text do to the depth.
* `Comment.IsClosed`, `Comment.IsUnclosed`: block comments, and those that do not end.

## Main results

* `Comment.endsAtZero_of_commentBody?`, `Comment.commentBody?_of_endsAtZero`: the reader finds the
  inside of a comment where the turns sum up, and only there.
* `Comment.staysPositive_of_commentBody?`, `Comment.commentBody?_of_staysPositive`: it finds no end
  just if they never do.
-/

namespace Lox

open Piece

namespace Comment

/-- How the inside of a comment changes the depth of its reader: an opener adds one level, a closer
takes one away. A text is read from left to right, and delimiters do not overlap. -/
def turns : List Char → List Int
  | '/' :: '*' :: cs => 1 :: turns cs
  | '*' :: '/' :: cs => -1 :: turns cs
  | _ :: cs => 0 :: turns cs
  | [] => []

/-- From `depth` on, level zero is reached with the last turn, and not before. -/
def EndsAtZero (depth : Int) (ts : List Int) : Prop :=
  depth + ts.sum = 0 ∧ ∀ front, front <+: ts → front ≠ ts → 0 < depth + front.sum

/-- From `depth` on, level zero is never reached. -/
def StaysPositive (depth : Int) (ts : List Int) : Prop :=
  ∀ front, front <+: ts → 0 < depth + front.sum

/-- A block comment: the delimiters nest, and the last one closes the first. -/
def IsClosed (text : List Char) : Prop :=
  ∃ body, text = '/' :: '*' :: body ∧ EndsAtZero 1 (turns body)

/-- The beginning of a block comment of which the first delimiter is not closed. -/
def IsUnclosed (text : List Char) : Prop :=
  ∃ body, text = '/' :: '*' :: body ∧ StaysPositive 1 (turns body)

theorem endsAtZero_cons {depth turn : Int} {ts : List Int} :
    EndsAtZero depth (turn :: ts) ↔ 0 < depth ∧ EndsAtZero (depth + turn) ts := by
  constructor
  · rintro ⟨hsum, hfront⟩
    refine ⟨by simpa using hfront [] List.nil_prefix (by simp), ?_, fun front hpre hne => ?_⟩
    · rwa [Int.add_assoc, ← List.sum_cons]
    · rw [Int.add_assoc, ← List.sum_cons]
      exact hfront _ (List.cons_prefix_cons.mpr ⟨rfl, hpre⟩) (by simpa using hne)
  · rintro ⟨hdepth, hsum, hfront⟩
    refine ⟨by rwa [List.sum_cons, ← Int.add_assoc], fun front hpre hne => ?_⟩
    obtain rfl | ⟨rest, rfl, hrest⟩ := List.prefix_cons_iff.mp hpre
    · simpa using hdepth
    · rw [List.sum_cons, ← Int.add_assoc]
      exact hfront rest hrest fun heq => hne (heq ▸ rfl)

theorem endsAtZero_nil {depth : Int} : EndsAtZero depth [] ↔ depth = 0 := by
  refine ⟨fun h => by simpa using h.1, fun h => ⟨by simpa using h, fun front hpre hne => ?_⟩⟩
  exact absurd (List.prefix_nil.mp hpre) hne

theorem eq_nil_of_endsAtZero_zero {ts : List Int} (h : EndsAtZero 0 ts) : ts = [] := by
  cases ts with
  | nil => rfl
  | cons turn ts => exact absurd (h.2 [] List.nil_prefix (List.cons_ne_nil _ _).symm) (by decide)

theorem staysPositive_cons {depth turn : Int} {ts : List Int} :
    StaysPositive depth (turn :: ts) ↔ 0 < depth ∧ StaysPositive (depth + turn) ts := by
  constructor
  · refine fun h => ⟨by simpa using h [] List.nil_prefix, fun front hpre => ?_⟩
    rw [Int.add_assoc, ← List.sum_cons]
    exact h _ (List.cons_prefix_cons.mpr ⟨rfl, hpre⟩)
  · rintro ⟨hdepth, h⟩ front hpre
    obtain rfl | ⟨rest, rfl, hrest⟩ := List.prefix_cons_iff.mp hpre
    · simpa using hdepth
    · rw [List.sum_cons, ← Int.add_assoc]
      exact h rest hrest

theorem staysPositive_nil {depth : Int} : StaysPositive depth [] ↔ 0 < depth := by
  refine ⟨fun h => by simpa using h [] List.nil_prefix, fun h front hpre => ?_⟩
  rwa [List.prefix_nil.mp hpre, List.sum_nil, Int.add_zero]

/-- A character that begins no delimiter does not change the depth. -/
theorem turns_cons {c : Char} {cs : List Char} (hopener : ∀ rest, c = '/' → cs ≠ '*' :: rest)
    (hcloser : ∀ rest, c = '*' → cs ≠ '/' :: rest) : turns (c :: cs) = 0 :: turns cs := by
  rw [turns]
  · exact hopener
  · exact hcloser

theorem eq_nil_of_turns_eq_nil {cs : List Char} (h : turns cs = []) : cs = [] := by
  fun_cases turns cs with
  | case1 | case2 => cases h
  | case3 c cs hopener hcloser =>
    rw [turns_cons hopener hcloser] at h
    cases h
  | case4 => rfl

/-- A closer is told from other characters at each depth. -/
theorem ne_closer {depth : Nat} {c : Char} {cs : List Char}
    (hzero : ∀ rest, depth = 0 → c = '*' → cs = '/' :: rest → False)
    (hsucc : ∀ n rest, depth = n + 1 → c = '*' → cs = '/' :: rest → False) :
    ∀ rest, c = '*' → cs ≠ '/' :: rest := by
  intro rest hc hcs
  cases depth with
  | zero => exact hzero rest rfl hc hcs
  | succ n => exact hsucc n rest rfl hc hcs

/-- What is found to be the inside of a comment ends with the closer of the first opener. -/
theorem endsAtZero_of_commentBody? {depth : Nat} {cs body rest : List Char}
    (h : commentBody? depth cs = some (body, rest)) : EndsAtZero (depth + 1) (turns body) := by
  fun_induction commentBody? depth cs generalizing body rest with
  | case1 depth cs ih =>
    obtain ⟨⟨b, r⟩, hb, he⟩ := Option.map_eq_some_iff.mp h
    cases he
    exact endsAtZero_cons.mpr ⟨by omega, mod_cast ih hb⟩
  | case2 cs =>
    cases h
    exact endsAtZero_cons.mpr ⟨by decide, endsAtZero_nil.mpr rfl⟩
  | case3 depth cs ih =>
    obtain ⟨⟨b, r⟩, hb, he⟩ := Option.map_eq_some_iff.mp h
    cases he
    refine endsAtZero_cons.mpr ⟨by omega, ?_⟩
    rw [Int.natCast_succ, Int.add_neg_cancel_right]
    exact ih hb
  | case4 depth c cs hopener hcloser hcloser' ih =>
    obtain ⟨⟨b, r⟩, hb, he⟩ := Option.map_eq_some_iff.mp h
    cases he
    have happend := append_of_commentBody? hb
    rw [turns_cons]
    · exact endsAtZero_cons.mpr ⟨by omega, by simpa using ih hb⟩
    · rintro b rfl rfl
      exact hopener (b ++ rest) rfl happend.symm
    · rintro b rfl rfl
      exact ne_closer hcloser hcloser' (b ++ rest) rfl happend.symm
  | case5 => cases h

/-- If no end is found, then the first opener is not closed. -/
theorem staysPositive_of_commentBody? {depth : Nat} {cs : List Char}
    (h : commentBody? depth cs = none) : StaysPositive (depth + 1) (turns cs) := by
  fun_induction commentBody? depth cs with
  | case1 depth cs ih =>
    exact staysPositive_cons.mpr ⟨by omega, mod_cast ih (Option.map_eq_none_iff.mp h)⟩
  | case2 cs => cases h
  | case3 depth cs ih =>
    refine staysPositive_cons.mpr ⟨by omega, ?_⟩
    rw [Int.natCast_succ, Int.add_neg_cancel_right]
    exact ih (Option.map_eq_none_iff.mp h)
  | case4 depth c cs hopener hcloser hcloser' ih =>
    rw [turns_cons]
    · exact staysPositive_cons.mpr ⟨by omega, by simpa using ih (Option.map_eq_none_iff.mp h)⟩
    · exact hopener
    · exact ne_closer hcloser hcloser'
  | case5 depth => exact staysPositive_nil.mpr (by omega)

/-- The characters of a comment that begin no delimiter are passed over. -/
theorem commentBody?_cons {c : Char} {cs : List Char}
    (hopener : ∀ rest, c = '/' → cs ≠ '*' :: rest) (hcloser : ∀ rest, c = '*' → cs ≠ '/' :: rest)
    (depth : Nat) :
    commentBody? depth (c :: cs) =
      (commentBody? depth cs).map fun (body, rest) => (c :: body, rest) := by
  rw [commentBody?]
  · exact hopener
  · exact fun rest _ => hcloser rest
  · exact fun _ rest _ => hcloser rest

/-- The inside of a comment is found where the first opener is closed. -/
theorem commentBody?_of_endsAtZero {depth : Nat} {body : List Char}
    (h : EndsAtZero (depth + 1) (turns body)) (rest : List Char) :
    commentBody? depth (body ++ rest) = some (body, rest) := by
  fun_induction turns body generalizing depth with
  | case1 cs ih =>
    have hcs : EndsAtZero ((depth + 1 : Nat) + 1) (turns cs) := mod_cast (endsAtZero_cons.mp h).2
    rw [List.cons_append, List.cons_append, commentBody?, ih hcs]
    rfl
  | case2 cs ih =>
    have hcs := (endsAtZero_cons.mp h).2
    rw [Int.add_neg_cancel_right] at hcs
    cases depth with
    | zero =>
      obtain rfl := eq_nil_of_turns_eq_nil (eq_nil_of_endsAtZero_zero hcs)
      rfl
    | succ depth =>
      rw [List.cons_append, List.cons_append, commentBody?, ih (mod_cast hcs)]
      rfl
  | case3 c cs hopener hcloser ih =>
    have hcs : EndsAtZero (depth + 1) (turns cs) := by simpa using (endsAtZero_cons.mp h).2
    -- level zero is not reached yet, so that something follows
    obtain ⟨d, cs, rfl⟩ : ∃ d rest, cs = d :: rest := by
      refine List.exists_cons_of_ne_nil ?_
      rintro rfl
      have hzero := endsAtZero_nil.mp hcs
      omega
    rw [List.cons_append, commentBody?_cons, ih hcs]
    · rfl
    · rintro rest' rfl hd
      exact hopener cs rfl (by rw [(List.cons.inj hd).1])
    · rintro rest' rfl hd
      exact hcloser cs rfl (by rw [(List.cons.inj hd).1])
  | case4 =>
    have hzero := endsAtZero_nil.mp h
    omega

/-- No end is found where the first opener is not closed. -/
theorem commentBody?_of_staysPositive {depth : Nat} {cs : List Char}
    (h : StaysPositive (depth + 1) (turns cs)) : commentBody? depth cs = none := by
  fun_induction turns cs generalizing depth with
  | case1 cs ih =>
    have hcs : StaysPositive ((depth + 1 : Nat) + 1) (turns cs) :=
      mod_cast (staysPositive_cons.mp h).2
    rw [commentBody?, ih hcs]
    rfl
  | case2 cs ih =>
    have hcs := (staysPositive_cons.mp h).2
    rw [Int.add_neg_cancel_right] at hcs
    cases depth with
    | zero => exact absurd (hcs [] List.nil_prefix) (by decide)
    | succ depth =>
      rw [commentBody?, ih (mod_cast hcs)]
      rfl
  | case3 c cs hopener hcloser ih =>
    rw [commentBody?_cons hopener hcloser, ih (by simpa using (staysPositive_cons.mp h).2)]
    rfl
  | case4 => rw [commentBody?]

/-- A block comment ends in the slash of its last delimiter. -/
theorem getLast?_of_endsAtZero {depth : Int} {body : List Char}
    (h : EndsAtZero depth (turns body)) (hdepth : 0 < depth) : body.getLast? = some '/' := by
  fun_induction turns body generalizing depth with
  | case1 cs ih =>
    have hcs := ih (endsAtZero_cons.mp h).2 (by omega)
    simp [List.getLast?_cons, hcs]
  | case2 cs ih =>
    have hcs := (endsAtZero_cons.mp h).2
    by_cases hzero : depth = 1
    · subst hzero
      obtain rfl := eq_nil_of_turns_eq_nil (eq_nil_of_endsAtZero_zero hcs)
      rfl
    · have hlast := ih hcs (by omega)
      simp [List.getLast?_cons, hlast]
  | case3 c cs _ _ ih =>
    have hcs := ih (endsAtZero_cons.mp h).2 (by omega)
    simp [List.getLast?_cons, hcs]
  | case4 => exact absurd (endsAtZero_nil.mp h) (Int.ne_of_gt hdepth)

/-! ### Comments in front of more text -/

/-- A newline is no part of a delimiter. -/
theorem turns_append_newline (cs behind : List Char) :
    turns (cs ++ '\n' :: behind) = turns cs ++ 0 :: turns behind := by
  fun_induction turns cs with
  | case1 cs ih | case2 cs ih => rw [List.cons_append, List.cons_append, turns, ih, List.cons_append]
  | case3 c cs hopener hcloser ih =>
    rw [List.cons_append, turns_cons, ih, List.cons_append]
    · rintro rest rfl hcs
      cases cs with
      | nil => exact absurd (List.cons.inj hcs).1 (by decide)
      | cons d cs => exact hopener cs rfl (by rw [(List.cons.inj hcs).1])
    · rintro rest rfl hcs
      cases cs with
      | nil => exact absurd (List.cons.inj hcs).1 (by decide)
      | cons d cs => exact hcloser cs rfl (by rw [(List.cons.inj hcs).1])
  | case4 => rfl

/-- Every closer begins with a star. -/
theorem nonneg_of_mem_turns {cs : List Char} (h : '*' ∉ cs) : ∀ turn ∈ turns cs, 0 ≤ turn := by
  fun_induction turns cs with
  | case1 cs | case2 cs => simp at h
  | case3 c cs hopener hcloser ih =>
    exact List.forall_mem_cons.mpr ⟨Int.le_refl 0, ih fun hmem => h (List.mem_cons_of_mem c hmem)⟩
  | case4 => exact List.forall_mem_nil _

theorem staysPositive_of_nonneg {depth : Int} {ts : List Int} (hdepth : 0 < depth)
    (hts : ∀ turn ∈ ts, 0 ≤ turn) : StaysPositive depth ts := by
  induction ts generalizing depth with
  | nil => exact staysPositive_nil.mpr hdepth
  | cons turn ts ih =>
    obtain ⟨hturn, hts⟩ := List.forall_mem_cons.mp hts
    exact staysPositive_cons.mpr ⟨hdepth, ih (by omega) hts⟩

theorem StaysPositive.append {depth : Int} {ts rest : List Int} (h : StaysPositive depth ts)
    (hrest : ∀ turn ∈ rest, 0 ≤ turn) : StaysPositive depth (ts ++ rest) := by
  induction ts generalizing depth with
  | nil => exact staysPositive_of_nonneg (staysPositive_nil.mp h) hrest
  | cons turn ts ih =>
    obtain ⟨hdepth, hts⟩ := staysPositive_cons.mp h
    exact staysPositive_cons.mpr ⟨hdepth, ih hts⟩

/-- A comment that does not end goes on behind a newline, if there is no closer. -/
theorem IsUnclosed.append {text behind : List Char} (h : IsUnclosed text) (hstar : '*' ∉ behind) :
    IsUnclosed (text ++ '\n' :: behind) := by
  obtain ⟨body, rfl, hbody⟩ := h
  refine ⟨body ++ '\n' :: behind, rfl, ?_⟩
  rw [turns_append_newline]
  exact hbody.append (List.forall_mem_cons.mpr ⟨Int.le_refl 0, nonneg_of_mem_turns hstar⟩)

end Comment

end Lox
