import VideoOlympics.Base.Machine
import Mathlib.Algebra.Ring.Nat

/-! Accounts kept over a run. Each event pays a price in, and a state says what has been spent and
    what else has been earned; where no single event overdraws the account, no run does. -/

namespace Machine

variable {σ ε : Type*} (M : Machine σ ε)

/-- No step that meets `P` spends more than it earns and is paid for, while `J` holds. -/
structure Balanced (J : σ → Prop) (P : σ → ε → Prop) (spent earned : σ → ℕ) (price : ε → ℕ) :
    Prop where
  keeps : ∀ s e t, J s → P s e → M.step s e = some t → J t
  pays : ∀ s e t, J s → P s e → M.step s e = some t →
    spent t + earned s ≤ spent s + earned t + price e

variable {M} {J : σ → Prop} {P : σ → ε → Prop} {spent earned : σ → ℕ} {price : ε → ℕ}

theorem Balanced.run (h : M.Balanced J P spent earned price) {es : List ε} {s u : σ} (hs : J s)
    (hclean : M.EachStep P s es) (hrun : M.run s es = some u) :
    spent u + earned s ≤ spent s + earned u + (es.map price).sum := by
  induction es generalizing s with
  | nil =>
    rw [M.run_nil, Option.some.injEq] at hrun
    rw [hrun, List.map_nil, List.sum_nil]
    omega
  | cons e es ih =>
    obtain ⟨t, ht, hrest⟩ := M.run_cons_some.mp hrun
    obtain ⟨hnow, hlater⟩ := hclean t ht
    have hstep := h.pays s e t hs hnow ht
    have hgo := ih (h.keeps s e t hs hnow ht) hlater hrest
    rw [List.map_cons, List.sum_cons]
    omega

end Machine
