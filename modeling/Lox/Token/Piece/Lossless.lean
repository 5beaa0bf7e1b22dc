import Lox.Token.Piece

/-!
# The split keeps every character

Each piece is the beginning of the text it is taken from, and no piece is empty. The pieces of a
text, written one after the other, are therefore the text.

## Main results

* `Piece.append_next` : a piece and the text behind it are the whole text.
* `Piece.length_next_lt` : the text behind a piece is shorter.
* `Piece.flatMap_text_split` : the pieces of a text are the text.
* `Piece.exists_next_of_mem_splitWithin` : every piece is taken from somewhere in the text.
-/

namespace Lox.Piece

/-! ### A piece is a beginning -/

theorem append_of_commentBody? {depth : Nat} {cs body rest : List Char}
    (h : commentBody? depth cs = some (body, rest)) : body ++ rest = cs := by
  fun_induction commentBody? depth cs generalizing body rest with
  | case1 depth cs ih | case3 depth cs ih | case4 depth c cs _ _ _ ih =>
    obtain ⟨⟨b, r⟩, hb, he⟩ := Option.map_eq_some_iff.1 h
    simp only [Prod.mk.injEq] at he
    simp [← he.1, ← he.2, ih hb]
  | case2 cs =>
    simp only [Option.some.injEq, Prod.mk.injEq] at h
    simp [← h.1, ← h.2]
  | case5 => simp at h

theorem append_of_operator? {cs spelling : List Char} {kind : Kind}
    (h : operator? cs = some (spelling, kind)) : spelling ++ cs.drop spelling.length = cs := by
  have hp : spelling.isPrefixOf cs := by simpa using List.find?_some h
  obtain ⟨rest, hr⟩ := List.isPrefixOf_iff_prefix.1 hp
  simp [← hr]

theorem append_numberNext (cs : List Char) : (numberNext cs).1.text ++ (numberNext cs).2 = cs := by
  unfold numberNext
  split
  · rename_i d rest h
    split
    · simp only [text, List.append_assoc, List.cons_append, List.takeWhile_append_dropWhile]
      rw [← h, List.takeWhile_append_dropWhile]
    · simp [text]
  · simp [text]

theorem append_stringNext (cs : List Char) :
    (stringNext cs).1.text ++ (stringNext cs).2 = '"' :: cs := by
  have h := List.takeWhile_append_dropWhile (p := isQuotable) (l := cs)
  unfold stringNext
  split
  · rename_i hd
    rw [hd, List.append_nil] at h
    simp [text, h]
  · rename_i c rest hd
    have hc : isQuotable c = false := by
      simpa [hd] using List.head?_dropWhile_not isQuotable cs
    have hq : c = '"' := by simpa [isQuotable] using hc
    rw [hd, hq] at h
    simp [text, h]

/-- A piece and the text behind it are the whole text. -/
theorem append_next (c : Char) (cs : List Char) :
    (next c cs).1.text ++ (next c cs).2 = c :: cs := by
  unfold next
  split
  · rfl
  split
  · simp [text]
  split
  · split
    · rename_i h _ body rest hb
      have := append_of_commentBody? hb
      cases cs <;> simp_all [text]
    · simp [text]
  split
  · simp_all [append_stringNext]
  split
  · exact append_numberNext _
  split
  · simp [wordNext, text]
  split
  · rename_i h
    exact append_of_operator? h
  · rfl

/-! ### No piece is empty -/

theorem text_numberNext_ne_nil {c : Char} (cs : List Char) (h : isDigit c) :
    (numberNext (c :: cs)).1.text ≠ [] := by
  unfold numberNext
  split
  · split <;> simp [text, h]
  · simp [text, h]

theorem text_stringNext_ne_nil (cs : List Char) : (stringNext cs).1.text ≠ [] := by
  unfold stringNext
  split <;> simp [text]

theorem spelling_ne_nil : ∀ entry ∈ Kind.operators, entry.1 ≠ [] := by decide

theorem text_next_ne_nil (c : Char) (cs : List Char) : (next c cs).1.text ≠ [] := by
  unfold next
  split
  · simp [text]
  split
  · rename_i h
    simp [text, h.1, isCommentary]
  split
  · split <;> simp [text]
  split
  · exact text_stringNext_ne_nil cs
  split
  · rename_i h
    exact text_numberNext_ne_nil cs h
  split
  · rename_i h
    simp [wordNext, text, h]
  split
  · rename_i h
    exact spelling_ne_nil _ (List.mem_of_find?_eq_some h)
  · simp [text]

/-- The text behind a piece is shorter. -/
theorem length_next_lt (c : Char) (cs : List Char) : (next c cs).2.length < (c :: cs).length := by
  have h := congrArg List.length (append_next c cs)
  have hp := List.length_pos_iff.2 (text_next_ne_nil c cs)
  simp only [List.length_append] at h
  omega

/-! ### All pieces together -/

theorem flatMap_text_splitWithin (size : Nat) (cs : List Char) (h : cs.length ≤ size) :
    (splitWithin size cs).flatMap text = cs := by
  fun_induction splitWithin size cs with
  | case1 => rfl
  | case2 => simp at h
  | case3 size c cs ih =>
    have hl := length_next_lt c cs
    rw [List.flatMap_cons, ih (by simp only [List.length_cons] at h hl; omega), append_next]

/-- Every piece is taken from somewhere in the text. -/
theorem exists_next_of_mem_splitWithin {size : Nat} {cs : List Char} {p : Piece}
    (h : p ∈ splitWithin size cs) : ∃ c rest, c ∈ cs ∧ (next c rest).1 = p := by
  fun_induction splitWithin size cs with
  | case1 | case2 => cases h
  | case3 size c cs ih =>
    obtain rfl | h := List.mem_cons.mp h
    · exact ⟨c, cs, List.mem_cons_self, rfl⟩
    · obtain ⟨d, rest, hd, hp⟩ := ih h
      exact ⟨d, rest, append_next c cs ▸ List.mem_append_right _ hd, hp⟩

/-- The pieces of a text are the text. -/
theorem flatMap_text_split (cs : List Char) : (split cs).flatMap text = cs :=
  flatMap_text_splitWithin _ cs (Nat.le_refl _)

end Lox.Piece
