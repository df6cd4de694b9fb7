import Mathlib.Algebra.Order.Ring.Nat
import Mathlib.Data.List.Basic
import Mathlib.Tactic.Common

/-! A stream cut into chunks of one size. The chunks and the stream say the same: there is one way to
    cut, and what has been cut off the front is the front of the chunks. -/

namespace Chunks

variable {α : Type*} {n : ℕ} {fs gs : List (List α)}

theorem length_flatten (h : ∀ f ∈ fs, f.length = n) : fs.flatten.length = n * fs.length := by
  induction fs with
  | nil => rfl
  | cons f fs ih =>
    obtain ⟨hf, hfs⟩ := List.forall_mem_cons.mp h
    rw [List.flatten_cons, List.length_append, hf, ih hfs, List.length_cons, Nat.mul_succ, Nat.add_comm]

/-- A stream of the right length can be cut. -/
theorem exists_cut : ∀ (k : ℕ) {bs : List α}, bs.length = n * k →
    ∃ fs : List (List α), fs.length = k ∧ (∀ f ∈ fs, f.length = n) ∧ fs.flatten = bs
  | 0, bs, h => ⟨[], rfl, by simp, (List.eq_nil_of_length_eq_zero h).symm⟩
  | k + 1, bs, h => by
      rw [Nat.mul_succ] at h
      have hrest : (bs.drop n).length = n * k := by
        rw [List.length_drop]
        omega
      obtain ⟨fs, hlen, hall, hflat⟩ := exists_cut k hrest
      refine ⟨bs.take n :: fs, by rw [List.length_cons, hlen], ?_, ?_⟩
      · refine List.forall_mem_cons.mpr ⟨?_, hall⟩
        rw [List.length_take]
        omega
      · rw [List.flatten_cons, hflat, List.take_append_drop]

/-- What begins a stream of chunks begins its chunks. -/
theorem prefix_of_flatten (hn : 0 < n) (hfs : ∀ f ∈ fs, f.length = n) (hgs : ∀ g ∈ gs, g.length = n)
    (h : fs.flatten <+: gs.flatten) : fs <+: gs := by
  induction fs generalizing gs with
  | nil => exact List.nil_prefix
  | cons f fs ih =>
    obtain ⟨hf, hfs⟩ := List.forall_mem_cons.mp hfs
    cases gs with
    | nil =>
      have hlen := h.length_le
      simp only [List.flatten_cons, List.flatten_nil, List.length_append, List.length_nil] at hlen
      omega
    | cons g gs =>
      obtain ⟨hg, htail⟩ := List.forall_mem_cons.mp hgs
      obtain ⟨rest, hrest⟩ := h
      rw [List.flatten_cons, List.flatten_cons, List.append_assoc] at hrest
      obtain ⟨hhead, hbehind⟩ := List.append_inj hrest (hf.trans hg.symm)
      exact List.cons_prefix_cons.mpr ⟨hhead, ih hfs htail ⟨rest, hbehind⟩⟩

end Chunks
