import Mathlib.Data.List.Basic
import Mathlib.Data.List.Nodup
import Mathlib.Logic.Function.Basic
import Mathlib.Tactic.Common

/-! Who is paired with whom, as a partial function on the members of a list: each pair is in both
    its members' books, and nobody is its own partner. Members come, go and are paired; what an
    outsider's book says does not matter. -/

variable {α : Type*} [DecidableEq α]

/-- Every member's partner is another member, and has it for a partner. -/
def Pairing (S : List α) (f : α → Option α) : Prop :=
  ∀ a ∈ S, ∀ b ∈ f a, b ∈ S ∧ b ≠ a ∧ f b = some a

instance (S : List α) (f : α → Option α) : Decidable (Pairing S f) :=
  inferInstanceAs (Decidable (∀ a ∈ S, ∀ b ∈ f a, b ∈ S ∧ b ≠ a ∧ f b = some a))

namespace Pairing

variable {S : List α} {f g : α → Option α} {a b : α}

omit [DecidableEq α] in
/-- Only the members' books count. -/
theorem congr (h : Pairing S f) (hfg : ∀ a ∈ S, g a = f a) : Pairing S g := by
  intro a ha b hb
  obtain ⟨hbS, hne, hback⟩ := h a ha b (hfg a ha ▸ hb)
  exact ⟨hbS, hne, (hfg b hbS).trans hback⟩

/-- A newcomer has no partner. -/
theorem concat (h : Pairing S f) (ha : a ∉ S) : Pairing (S ++ [a]) (Function.update f a none) := by
  intro c hc b hb
  by_cases hca : c = a
  · rw [hca, Function.update_self] at hb
    cases hb
  · rw [Function.update_of_ne hca] at hb
    have hcS : c ∈ S := by simpa [hca] using hc
    obtain ⟨hbS, hne, hback⟩ := h c hcS b hb
    have hba : b ≠ a := fun e => ha (e ▸ hbS)
    exact ⟨List.mem_append_left _ hbS, hne, by rw [Function.update_of_ne hba, hback]⟩

/-- A member who was paired goes, and its partner strikes it out. -/
theorem erase_paired (h : Pairing S f) (hS : S.Nodup) (ha : a ∈ S) (hab : f a = some b) :
    Pairing (S.erase a) (Function.update f b none) := by
  intro c hc d hd
  obtain ⟨hca, hcS⟩ := (List.Nodup.mem_erase_iff hS).mp hc
  by_cases hcb : c = b
  · rw [hcb, Function.update_self] at hd
    cases hd
  · rw [Function.update_of_ne hcb] at hd
    obtain ⟨hdS, hne, hback⟩ := h c hcS d hd
    have hda : d ≠ a := by
      rintro rfl
      exact hcb (Option.some.inj (hback.symm.trans hab))
    have hdb : d ≠ b := by
      rintro rfl
      exact hca (Option.some.inj (hback.symm.trans (h a ha d hab).2.2))
    exact ⟨(List.Nodup.mem_erase_iff hS).mpr ⟨hda, hdS⟩, hne, by rw [Function.update_of_ne hdb, hback]⟩

/-- A member who was not paired goes. -/
theorem erase_single (h : Pairing S f) (hS : S.Nodup) (hab : f a = none) : Pairing (S.erase a) f := by
  intro c hc d hd
  obtain ⟨-, hcS⟩ := (List.Nodup.mem_erase_iff hS).mp hc
  obtain ⟨hdS, hne, hback⟩ := h c hcS d hd
  have hda : d ≠ a := by
    rintro rfl
    exact absurd (hback.symm.trans hab) (by simp)
  exact ⟨(List.Nodup.mem_erase_iff hS).mpr ⟨hda, hdS⟩, hne, hback⟩

/-- Pairing a free member with somebody leaves a pairing just when that somebody is a member, and
    free. -/
theorem link_iff (h : Pairing S f) (ha : a ∈ S) (hfree : f a = none) (hne : a ≠ b) :
    Pairing S (Function.update (Function.update f a (some b)) b (some a)) ↔
      b ∈ S ∧ f b = none := by
  set g := Function.update (Function.update f a (some b)) b (some a) with hg
  have hga : g a = some b := by rw [hg, Function.update_of_ne hne, Function.update_self]
  have hgb : g b = some a := by rw [hg, Function.update_self]
  have hgo : ∀ c, c ≠ a → c ≠ b → g c = f c := fun c hca hcb => by
    rw [hg, Function.update_of_ne hcb, Function.update_of_ne hca]
  constructor
  · intro hlink
    have hb : b ∈ S := (hlink a ha b hga).1
    refine ⟨hb, ?_⟩
    by_contra hpaired
    obtain ⟨c, hc⟩ := Option.ne_none_iff_exists'.mp hpaired
    -- the partner `b` had before is left with a one-sided link
    obtain ⟨hcS, hcb, hback⟩ := h b hb c hc
    have hca : c ≠ a := by
      rintro rfl
      exact absurd (hback.symm.trans hfree) (by simp)
    have hgc := (hlink c hcS b ((hgo c hca hcb).trans hback)).2.2
    exact hca (Option.some.inj (hgc.symm.trans hgb))
  · rintro ⟨hb, hbfree⟩ c hc d hd
    by_cases hca : c = a
    · obtain rfl : b = d := Option.some.inj (hga.symm.trans (hca ▸ hd))
      exact ⟨hb, hca ▸ hne.symm, hca ▸ hgb⟩
    by_cases hcb : c = b
    · obtain rfl : a = d := Option.some.inj (hgb.symm.trans (hcb ▸ hd))
      exact ⟨ha, hcb ▸ hne, hcb ▸ hga⟩
    obtain ⟨hdS, hdc, hback⟩ := h c hc d ((hgo c hca hcb).symm.trans hd)
    have hda : d ≠ a := by
      rintro rfl
      exact absurd (hback.symm.trans hfree) (by simp)
    have hdb : d ≠ b := by
      rintro rfl
      exact absurd (hback.symm.trans hbfree) (by simp)
    exact ⟨hdS, hdc, (hgo d hda hdb).trans hback⟩

end Pairing
