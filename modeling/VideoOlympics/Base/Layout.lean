import Mathlib.Algebra.BigOperators.Intervals
import Mathlib.Order.Interval.Finset.Nat

/-! A location counter. Items that follow one another are placed one behind the other; a stretch of
    addresses that begins and ends where some item does is a run of the items, and placing that run alone
    puts each where it was. -/

namespace Layout

variable {τ : Type*}

/-- The items, each at the counter's value when it is its turn. -/
def place (size : τ → ℕ) : ℕ → List τ → List (ℕ × τ)
  | _, [] => []
  | pc, t :: ts => (pc, t) :: place size (pc + size t) ts

/-- Where the counter stands in the end. -/
def after (size : τ → ℕ) (pc : ℕ) (ts : List τ) : ℕ := pc + (ts.map size).sum

/-- The counter in front of an item that is one of a row that begins at `a`. -/
def pos (w : ℕ → ℕ) (a n : ℕ) : ℕ := ∑ j ∈ Finset.Ico a n, w j

variable {w w' : ℕ → ℕ} {a b m n k : ℕ}

theorem pos_self (w : ℕ → ℕ) (a : ℕ) : pos w a a = 0 := by rw [pos, Finset.Ico_self, Finset.sum_empty]

theorem pos_add (ham : a ≤ m) (hmn : m ≤ n) : pos w a m + pos w m n = pos w a n :=
  Finset.sum_Ico_consecutive w ham hmn

theorem pos_succ (han : a ≤ n) : pos w a (n + 1) = pos w a n + w n := Finset.sum_Ico_succ_top han w

theorem pos_mono (ham : a ≤ m) (hmn : m ≤ n) : pos w a m ≤ pos w a n := by
  rw [← pos_add ham hmn]
  omega

theorem place_range' (size : τ → ℕ) (f : ℕ → τ) (pc m k : ℕ) :
    place size pc ((List.range' m k).map f) =
      (List.range' m k).map fun n => (pc + pos (fun j => size (f j)) m n, f n) := by
  induction k generalizing pc m with
  | zero => rfl
  | succ k ih =>
    rw [List.range'_succ, List.map_cons, List.map_cons, place, ih, pos_self, Nat.add_zero]
    congr 1
    refine List.map_congr_left fun n hn => ?_
    have hle : m + 1 ≤ n := (List.mem_range'_1.mp hn).1
    rw [← pos_add (Nat.le_succ m) hle, pos_succ (Nat.le_refl m), pos_self, Nat.zero_add, Nat.add_assoc]

theorem after_range' (size : τ → ℕ) (f : ℕ → τ) (pc m k : ℕ) :
    after size pc ((List.range' m k).map f) = pc + pos (fun j => size (f j)) m (m + k) := by
  induction k generalizing pc m with
  | zero => rw [Nat.add_zero, pos_self]; rfl
  | succ k ih =>
    have hrest := ih (pc + size (f m)) (m + 1)
    simp only [after] at hrest ⊢
    rw [List.range'_succ, List.map_cons, List.map_cons, List.sum_cons, ← Nat.add_assoc, hrest,
      ← pos_add (Nat.le_succ m) (show m + 1 ≤ m + (k + 1) by omega), pos_succ (Nat.le_refl m), pos_self,
      Nat.zero_add, Nat.add_assoc, Nat.add_right_comm m 1 k]
    rfl

theorem after_cons (size : τ → ℕ) (pc : ℕ) (t : τ) (ts : List τ) :
    after size pc (t :: ts) = after size (pc + size t) ts := by
  simp only [after, List.map_cons, List.sum_cons, Nat.add_assoc]

/-- What is placed lies behind where it began and before where it ended. -/
theorem within_place {size : τ → ℕ} {pc : ℕ} {ts : List τ} {e : ℕ × τ} (he : e ∈ place size pc ts) :
    pc ≤ e.1 ∧ e.1 + size e.2 ≤ after size pc ts := by
  induction ts generalizing pc with
  | nil => exact absurd he List.not_mem_nil
  | cons t ts ih =>
    rw [after_cons]
    rcases List.mem_cons.mp he with rfl | he
    · exact ⟨Nat.le_refl _, Nat.le_add_right _ _⟩
    · obtain ⟨hlo, hhi⟩ := ih he
      exact ⟨(Nat.le_add_right _ _).trans hlo, hhi⟩

/-- From beginning to end, every address is some one item's. -/
theorem existsUnique_place {size : τ → ℕ} {pc x : ℕ} {ts : List τ} (hlo : pc ≤ x)
    (hhi : x < after size pc ts) :
    ∃! e : ℕ × τ, e ∈ place size pc ts ∧ e.1 ≤ x ∧ x < e.1 + size e.2 := by
  induction ts generalizing pc with
  | nil => exact absurd hhi (Nat.not_lt_of_le hlo)
  | cons t ts ih =>
    by_cases hfirst : x < pc + size t
    · refine ⟨(pc, t), ⟨List.mem_cons_self, hlo, hfirst⟩, ?_⟩
      rintro e ⟨he, hex, -⟩
      rcases List.mem_cons.mp he with rfl | he
      · rfl
      · exact absurd ((within_place he).1.trans hex) (Nat.not_le_of_lt hfirst)
    · rw [after_cons] at hhi
      obtain ⟨e, ⟨he, hex⟩, huniq⟩ := ih (Nat.le_of_not_lt hfirst) hhi
      refine ⟨e, ⟨List.mem_cons_of_mem _ he, hex⟩, ?_⟩
      rintro e' ⟨he', hex'⟩
      rcases List.mem_cons.mp he' with rfl | he'
      · exact absurd hex'.2 hfirst
      · exact huniq e' ⟨he', hex'⟩

/-- The first item that has reached an address that is some item's stands there. -/
theorem exists_first {A : ℕ → ℕ} {at' : ℕ} (hmono : ∀ m n, a ≤ m → m ≤ n → n ≤ b → A m ≤ A n)
    (hat : ∃ n, a ≤ n ∧ n ≤ b ∧ A n = at') :
    ∃ m, a ≤ m ∧ m ≤ b ∧ A m = at' ∧ ∀ n, a ≤ n → n ≤ b → (A n < at' ↔ n < m) := by
  classical
  obtain ⟨n₀, han₀, hn₀b, hn₀⟩ := hat
  have hex : ∃ n, a ≤ n ∧ at' ≤ A n := ⟨n₀, han₀, hn₀.ge⟩
  obtain ⟨ham, hge⟩ := Nat.find_spec hex
  have hle : Nat.find hex ≤ n₀ := Nat.find_min' hex ⟨han₀, hn₀.ge⟩
  refine ⟨Nat.find hex, ham, hle.trans hn₀b, ?_, ?_⟩
  · exact Nat.le_antisymm ((hmono _ n₀ ham hle hn₀b).trans hn₀.le) hge
  · intro n han hnb
    constructor
    · intro hlt
      by_contra hcon
      exact absurd (hge.trans (hmono _ n ham (Nat.le_of_not_lt hcon) hnb)) (Nat.not_le_of_lt hlt)
    · intro hlt
      by_contra hcon
      exact Nat.find_min hex hlt ⟨han, Nat.le_of_not_lt hcon⟩

/-- Of a row, those that make a run are picked out as one. -/
theorem filter_range' {p : ℕ → Bool} (ham : a ≤ m) (hmn : m ≤ n) (hnb : n ≤ a + k)
    (hp : ∀ j, a ≤ j → j < a + k → (p j = true ↔ m ≤ j ∧ j < n)) :
    (List.range' a k).filter p = List.range' m (n - m) := by
  obtain ⟨i, rfl⟩ := Nat.exists_eq_add_of_le ham
  obtain ⟨j, rfl⟩ := Nat.exists_eq_add_of_le hmn
  obtain ⟨l, rfl⟩ : ∃ l, k = i + j + l := ⟨k - (i + j), by omega⟩
  rw [← List.range'_append_1, ← List.range'_append_1, List.filter_append, List.filter_append]
  have hbefore : (List.range' a i).filter p = [] := by
    refine List.filter_eq_nil_iff.mpr fun x hx => ?_
    have hin := List.mem_range'_1.mp hx
    rw [hp x (by omega) (by omega)]
    omega
  have hrun : (List.range' (a + i) j).filter p = List.range' (a + i) j := by
    refine List.filter_eq_self.mpr fun x hx => ?_
    have hin := List.mem_range'_1.mp hx
    exact (hp x (by omega) (by omega)).mpr (by omega)
  have hbehind : (List.range' (a + (i + j)) l).filter p = [] := by
    refine List.filter_eq_nil_iff.mpr fun x hx => ?_
    have hin := List.mem_range'_1.mp hx
    rw [hp x (by omega) (by omega)]
    omega
  rw [hbefore, hrun, hbehind, List.nil_append, List.append_nil, Nat.add_sub_cancel_left]

end Layout
