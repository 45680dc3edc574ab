import Mathlib.Data.List.TakeWhile

/-!
# Texts cut at a character

A scan that looks for a character goes over what is in front of the first one.  A text either does not
have the character, or is a text that does not have it, the character, and the rest
(`List.eq_append_cons_of_mem`); what is taken of the text up to the character is read off these forms.
-/

namespace ColumnFormula.Text

section Cut

variable {α : Type} [BEq α] [LawfulBEq α] {d : α} {text front : List α}

theorem bne_of_not_mem (h : d ∉ text) : ∀ c ∈ text, (c != d) = true :=
  fun _ hc => bne_iff_ne.2 fun hd => h (hd ▸ hc)

theorem takeWhile_bne_of_not_mem (h : d ∉ text) : text.takeWhile (· != d) = text :=
  List.takeWhile_eq_self_iff.2 (bne_of_not_mem h)

theorem takeWhile_bne_append (h : d ∉ front) (after : List α) :
    (front ++ d :: after).takeWhile (· != d) = front := by
  rw [List.takeWhile_append_of_pos (bne_of_not_mem h), List.takeWhile_cons_of_neg (by simp),
    List.append_nil]

theorem dropWhile_bne_append (h : d ∉ front) (after : List α) :
    (front ++ d :: after).dropWhile (· != d) = d :: after := by
  rw [List.dropWhile_append_of_pos (bne_of_not_mem h), List.dropWhile_cons_of_neg (by simp)]

end Cut

/-- Behind what is taken up to a character stands the character, if the text has it. -/
theorem head?_drop_takeWhile_bne {d : Char} {text : List Char} :
    (text.drop (text.takeWhile (· != d)).length).head? = some d ↔ d ∈ text := by
  by_cases h : d ∈ text
  · obtain ⟨front, after, rfl, hnot⟩ := List.eq_append_cons_of_mem h
    rw [takeWhile_bne_append hnot, List.drop_left]
    exact iff_of_true rfl h
  · rw [takeWhile_bne_of_not_mem h, List.drop_length]
    exact iff_of_false (by simp) h

/-- What is taken of a text, with a character behind it if that is the next one, is at its front. -/
theorem prefix_takeWhile_append_head (p : Char → Bool) (d : Char) (text : List Char) :
    text.takeWhile p ++ (if (text.drop (text.takeWhile p).length).head? == some d then [d] else [])
      <+: text := by
  have hsplit := List.prefix_iff_eq_append.1 (List.takeWhile_prefix (l := text) p)
  split
  · rename_i h
    obtain ⟨more, hmore⟩ := List.head?_eq_some_iff.1 (eq_of_beq h)
    rw [hmore] at hsplit
    exact ⟨more, by rw [List.append_assoc]; exact hsplit⟩
  · rw [List.append_nil]
    exact List.takeWhile_prefix p

/-- A text can be cut at the first place of a character in one way only. -/
theorem append_cons_inj {d : Char} {a b x y : List Char} (ha : d ∉ a) (hb : d ∉ b)
    (h : a ++ d :: x = b ++ d :: y) : a = b ∧ x = y := by
  have hfront := congrArg (List.takeWhile (· != d)) h
  rw [takeWhile_bne_append ha, takeWhile_bne_append hb] at hfront
  subst hfront
  exact ⟨rfl, (List.cons.inj (List.append_cancel_left h)).2⟩

/-- And so it can at the last place. -/
theorem append_cons_inj_right {d : Char} {a b x y : List Char} (hx : d ∉ x) (hy : d ∉ y)
    (h : a ++ d :: x = b ++ d :: y) : a = b ∧ x = y := by
  have hreverse := congrArg List.reverse h
  rw [List.reverse_append, List.reverse_append, List.reverse_cons, List.reverse_cons,
    List.append_assoc, List.append_assoc] at hreverse
  obtain ⟨hback, hfront⟩ := append_cons_inj (fun hmem => hx (List.mem_reverse.1 hmem))
    (fun hmem => hy (List.mem_reverse.1 hmem)) hreverse
  exact ⟨List.reverse_inj.1 hfront, List.reverse_inj.1 hback⟩

end ColumnFormula.Text
