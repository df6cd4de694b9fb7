import Mathlib.Data.List.TakeWhile

/-! Stripping a list: what is taken off its two ends is padding, and what is left is what stood
    between. -/

namespace Strip

variable {α : Type*} {p : α → Bool} {l a core c : List α}

/-- What is left when the padding at both ends is taken off. -/
def strip (p : α → Bool) (l : List α) : List α := ((l.dropWhile p).reverse.dropWhile p).reverse

theorem dropWhile_none (h : ∀ x ∈ l, p x = false) : l.dropWhile p = l := by
  cases l with
  | nil => rfl
  | cons x l => rw [List.dropWhile_cons_of_neg (by simp [h x List.mem_cons_self])]

/-- Whatever is taken off is padding. -/
theorem split (p : α → Bool) (l : List α) :
    ∃ a c, l = a ++ strip p l ++ c ∧ (∀ x ∈ a, p x = true) ∧ ∀ x ∈ c, p x = true := by
  refine ⟨l.takeWhile p, ((l.dropWhile p).reverse.takeWhile p).reverse, ?_, ?_, ?_⟩
  · rw [strip, List.append_assoc, ← List.reverse_append, List.takeWhile_append_dropWhile,
      List.reverse_reverse, List.takeWhile_append_dropWhile]
  · exact fun x hx => List.mem_takeWhile_imp hx
  · exact fun x hx => List.mem_takeWhile_imp (List.mem_reverse.mp hx)

/-- Padding at both ends is all taken off, and nothing else. -/
theorem strip_append (ha : ∀ x ∈ a, p x = true) (hc : ∀ x ∈ c, p x = true)
    (hcore : ∀ x ∈ core, p x = false) (hne : core ≠ []) : strip p (a ++ core ++ c) = core := by
  obtain ⟨x, core, rfl⟩ := List.exists_cons_of_ne_nil hne
  have hfront : (a ++ (x :: core) ++ c).dropWhile p = (x :: core) ++ c := by
    rw [List.append_assoc, List.dropWhile_append_of_pos ha, List.cons_append,
      List.dropWhile_cons_of_neg (by simp [hcore x List.mem_cons_self])]
  have hback : ((x :: core) ++ c).reverse.dropWhile p = (x :: core).reverse := by
    rw [List.reverse_append,
      List.dropWhile_append_of_pos fun x hx => hc x (List.mem_reverse.mp hx)]
    exact dropWhile_none fun x hx => hcore x (List.mem_reverse.mp hx)
  rw [strip, hfront, hback, List.reverse_reverse]

end Strip
