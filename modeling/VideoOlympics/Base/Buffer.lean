import Mathlib.Data.List.Basic
import Mathlib.Tactic.Common

/-! A buffer as a program keeps it: memory, and how much of it counts. What lies behind that is
    whatever was written there before. -/

structure Buffer (α : Type*) where
  mem : ℕ → α
  len : ℕ

namespace Buffer

variable {α : Type*}

/-- What counts. -/
def contents (b : Buffer α) : List α := (List.range b.len).map b.mem

/-- Copy behind what is there. -/
def append (b : Buffer α) (xs : List α) : Buffer α :=
  { mem := fun n => if n < b.len then b.mem n else (xs[n - b.len]?).getD (b.mem n)
    len := b.len + xs.length }

/-- Take so many off the front, and move the rest there. -/
def discard (b : Buffer α) (k : ℕ) : Buffer α :=
  { mem := fun n => if n < b.len - k then b.mem (n + k) else b.mem n, len := b.len - k }

@[simp] theorem length_contents (b : Buffer α) : b.contents.length = b.len := by
  rw [contents, List.length_map, List.length_range]

theorem contents_eq_nil {b : Buffer α} : b.contents = [] ↔ b.len = 0 := by
  rw [← List.length_eq_zero_iff, length_contents]

theorem contents_append (b : Buffer α) (xs : List α) :
    (b.append xs).contents = b.contents ++ xs := by
  refine List.ext_getElem ?_ fun n hn _ => ?_
  · rw [length_contents, List.length_append, length_contents, append]
  · rw [length_contents, append] at hn
    simp only [contents, append, List.getElem_map, List.getElem_range]
    by_cases hb : n < b.len
    · rw [if_pos hb, List.getElem_append_left (by simpa using hb), List.getElem_map,
        List.getElem_range]
    · have hx : n - b.len < xs.length := by
        dsimp only at hn
        omega
      rw [if_neg hb, List.getElem_append_right (by simpa using hb)]
      simp [hx]

theorem contents_discard (b : Buffer α) (k : ℕ) : (b.discard k).contents = b.contents.drop k := by
  refine List.ext_getElem ?_ fun n hn _ => ?_
  · rw [length_contents, List.length_drop, length_contents, discard]
  · rw [length_contents, discard] at hn
    simp only [contents, discard, List.getElem_map, List.getElem_range, List.getElem_drop]
    rw [if_pos hn, Nat.add_comm]

end Buffer
