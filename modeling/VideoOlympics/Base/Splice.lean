import Mathlib.Data.List.Basic
import Mathlib.Data.List.Perm.Basic
import Mathlib.Tactic.Common

/-! Rewriting a list in place, one site after another. Each site is checked in the list as the sites
    before it have left it; but where no two sites overlap, each finds what the list held to begin
    with, and the order they come in makes no difference. -/

namespace Splice

variable {α : Type*} {i j n m : ℕ} {new blank : α} {l : List α}

/-- So many slots from a place on. -/
def window (i n : ℕ) (l : List α) : List α := (l.drop i).take n

/-- The first slot of a window is written and the others are blanked. -/
def splice (i n : ℕ) (new blank : α) (l : List α) : List α :=
  (l.set i new).take (i + 1) ++ List.replicate (n - 1) blank ++ (l.set i new).drop (i + n)

theorem length_splice (hn : 0 < n) (hfit : i + n ≤ l.length) :
    (splice i n new blank l).length = l.length := by
  simp only [splice, List.length_append, List.length_take, List.length_set, List.length_replicate,
    List.length_drop]
  omega

theorem getElem?_splice (hn : 0 < n) (hfit : i + n ≤ l.length) :
    (splice i n new blank l)[j]? =
      if j = i then some new else if i < j ∧ j < i + n then some blank else l[j]? := by
  have hfront : ((l.set i new).take (i + 1)).length = i + 1 := by
    rw [List.length_take, List.length_set]
    omega
  have hmid : ((l.set i new).take (i + 1) ++ List.replicate (n - 1) blank).length = i + n := by
    rw [List.length_append, hfront, List.length_replicate]
    omega
  rw [splice]
  by_cases hj : j = i
  · rw [if_pos hj, List.append_assoc, List.getElem?_append_left (by omega), List.getElem?_take,
      if_pos (by omega), hj, List.getElem?_set_self (by omega)]
  rw [if_neg hj]
  by_cases hin : i < j ∧ j < i + n
  · rw [if_pos hin, List.getElem?_append_left (by omega), List.getElem?_append_right (by omega),
      List.getElem?_replicate, if_pos (by omega)]
  rw [if_neg hin]
  by_cases hlt : j < i
  · rw [List.append_assoc, List.getElem?_append_left (by omega), List.getElem?_take,
      if_pos (by omega), List.getElem?_set_ne (Ne.symm hj)]
  · rw [List.getElem?_append_right (by omega), List.getElem?_drop, hmid,
      List.getElem?_set_ne (by omega)]
    congr 1
    omega

theorem getElem?_window : (window i n l)[j]? = if j < n then l[i + j]? else none := by
  rw [window, List.getElem?_take, List.getElem?_drop]

/-- A window the other does not overlap is as it was. -/
theorem window_splice (hn : 0 < n) (hfit : i + n ≤ l.length) (hapart : j + m ≤ i ∨ i + n ≤ j) :
    window j m (splice i n new blank l) = window j m l := by
  refine List.ext_getElem? fun k => ?_
  rw [getElem?_window, getElem?_window]
  split
  · rw [getElem?_splice hn hfit, if_neg (by omega), if_neg (by omega)]
  · rfl

/-- Sites, each with its window, what is to be written there, and what is asked of the window first. -/
structure Sites (ι α ε : Type*) where
  start : ι → ℕ
  len : ι → ℕ
  new : ι → α
  blank : α
  check : ι → ℕ → List α → Except ε Unit
  pos : ∀ i, 0 < len i
  fits : ∀ i n w, check i n w = .ok () → start i + len i ≤ n

namespace Sites

variable {ι ε : Type*} (S : Sites ι α ε) {is : List ι}

/-- What the check of a site says of a list. -/
def verdict (i : ι) (l : List α) : Except ε Unit :=
  S.check i l.length (window (S.start i) (S.len i) l)

/-- One site: checked, and then written. -/
def rewriteOne (l : List α) (i : ι) : Except ε (List α) :=
  (S.verdict i l).map fun _ => splice (S.start i) (S.len i) (S.new i) S.blank l

def rewrite (is : List ι) (l : List α) : Except ε (List α) := is.foldlM S.rewriteOne l

def Apart (i j : ι) : Prop :=
  S.start i + S.len i ≤ S.start j ∨ S.start j + S.len j ≤ S.start i

instance (i j : ι) : Decidable (S.Apart i j) := inferInstanceAs (Decidable (_ ∨ _))

/-- The slot is one of the site's. -/
def Covers (i : ι) (j : ℕ) : Prop := S.start i ≤ j ∧ j < S.start i + S.len i

instance (i : ι) (j : ℕ) : Decidable (S.Covers i j) := inferInstanceAs (Decidable (_ ∧ _))

/-- What a slot holds in the end. -/
def slot (is : List ι) (l : List α) (j : ℕ) : Option α :=
  match is.find? fun i => S.Covers i j with
  | some i => if j = S.start i then some (S.new i) else some S.blank
  | none => l[j]?

variable {S}

theorem verdict_splice {i k : ι} (hk : S.verdict k l = .ok ()) (hapart : S.Apart i k) :
    S.verdict i (splice (S.start k) (S.len k) (S.new k) S.blank l) = S.verdict i l := by
  have hfit := S.fits k _ _ hk
  rw [verdict, length_splice (S.pos k) hfit, window_splice (S.pos k) hfit hapart]
  rfl

theorem Apart.not_covers {i k : ι} (h : S.Apart i k) (hi : S.Covers i j) : ¬ S.Covers k j := by
  rintro ⟨hlo, hhi⟩
  rcases h with h | h
  · exact absurd hi.2 (by omega)
  · exact absurd hi.1 (by omega)

/-- A site that has been written is out of the others' way. -/
theorem slot_cons {i : ι} (hi : S.verdict i l = .ok ()) (hapart : ∀ k ∈ is, S.Apart i k) (j : ℕ) :
    S.slot (i :: is) l j = S.slot is (splice (S.start i) (S.len i) (S.new i) S.blank l) j := by
  have hfit := S.fits i _ _ hi
  by_cases hj : S.Covers i j
  · have hnone : is.find? (fun k => decide (S.Covers k j)) = none := by
      refine List.find?_eq_none.mpr fun k hk => ?_
      rw [decide_eq_true_eq]
      exact (hapart k hk).not_covers hj
    rw [slot, slot, List.find?_cons_of_pos (by simpa using hj), hnone]
    dsimp only
    rw [getElem?_splice (S.pos i) hfit]
    by_cases hstart : j = S.start i
    · rw [if_pos hstart, if_pos hstart]
    · rw [if_neg hstart, if_neg hstart, if_pos ⟨by have := hj.1; omega, hj.2⟩]
  · have hold : (splice (S.start i) (S.len i) (S.new i) S.blank l)[j]? = l[j]? := by
      rw [getElem?_splice (S.pos i) hfit, if_neg, if_neg]
      · rintro ⟨hlo, hhi⟩
        exact hj ⟨Nat.le_of_lt hlo, hhi⟩
      · rintro rfl
        exact hj ⟨Nat.le_refl _, Nat.lt_add_of_pos_right (S.pos i)⟩
    rw [slot, slot, List.find?_cons_of_neg (by simpa using hj), hold]

/-- Every site's window is as the list had it: where they are all in order the list is rewritten slot by
    slot, and otherwise the first that is not is what is reported. -/
theorem rewrite_eq (hapart : is.Pairwise S.Apart) :
    (∀ i ∈ is, S.verdict i l = .ok ()) ∧ (∃ out, S.rewrite is l = .ok out ∧
        out.length = l.length ∧ ∀ j, out[j]? = S.slot is l j) ∨
      ∃ as i bs e, is = as ++ i :: bs ∧ (∀ k ∈ as, S.verdict k l = .ok ()) ∧
        S.verdict i l = .error e ∧ S.rewrite is l = .error e := by
  induction is generalizing l with
  | nil => exact .inl ⟨List.forall_mem_nil _, l, rfl, rfl, fun _ => rfl⟩
  | cons i is ih =>
    obtain ⟨hhead, htail⟩ := List.pairwise_cons.mp hapart
    cases hi : S.verdict i l with
    | error e =>
      refine .inr ⟨[], i, is, e, rfl, List.forall_mem_nil _, hi, ?_⟩
      simp only [rewrite, List.foldlM_cons, rewriteOne, hi]
      rfl
    | ok u =>
      have hfit := S.fits i _ _ hi
      have hsame : ∀ k ∈ is, S.verdict k (splice (S.start i) (S.len i) (S.new i) S.blank l) =
          S.verdict k l := fun k hk => verdict_splice hi (hhead k hk).symm
      have hone : S.rewrite (i :: is) l =
          S.rewrite is (splice (S.start i) (S.len i) (S.new i) S.blank l) := by
        simp only [rewrite, List.foldlM_cons, rewriteOne, hi]
        rfl
      rcases ih (l := splice (S.start i) (S.len i) (S.new i) S.blank l) htail with
        ⟨hall, out, hout, hlen, hslots⟩ | ⟨as, k, bs, e, his, has, hk, herr⟩
      · refine .inl ⟨List.forall_mem_cons.mpr ⟨hi, fun k hk => hsame k hk ▸ hall k hk⟩, out, ?_, ?_, ?_⟩
        · rw [hone, hout]
        · rw [hlen, length_splice (S.pos i) hfit]
        · exact fun j => (hslots j).trans (slot_cons hi hhead j).symm
      · refine .inr ⟨i :: as, k, bs, e, by rw [his, List.cons_append], ?_, ?_, by rw [hone, herr]⟩
        · refine List.forall_mem_cons.mpr ⟨hi, fun k hk => ?_⟩
          exact hsame k (his ▸ List.mem_append_left _ hk) ▸ has k hk
        · exact hsame k (his ▸ List.mem_append_right _ List.mem_cons_self) ▸ hk

theorem find?_of_covers {i : ι} (hapart : is.Pairwise S.Apart) (hi : i ∈ is) (hj : S.Covers i j) :
    is.find? (fun k => decide (S.Covers k j)) = some i := by
  induction is with
  | nil => cases hi
  | cons k is ih =>
    obtain ⟨hhead, htail⟩ := List.pairwise_cons.mp hapart
    rcases List.mem_cons.mp hi with rfl | hmem
    · exact List.find?_cons_of_pos (by simpa using hj)
    · rw [List.find?_cons_of_neg, ih htail hmem]
      rw [decide_eq_true_eq]
      exact fun hk => (hhead i hmem).not_covers hk hj

/-- No slot is two sites'. -/
theorem eq_of_covers {i k : ι} (hapart : is.Pairwise S.Apart) (hi : i ∈ is) (hk : k ∈ is)
    (hij : S.Covers i j) (hkj : S.Covers k j) : i = k :=
  Option.some.inj ((find?_of_covers hapart hi hij).symm.trans (find?_of_covers hapart hk hkj))

/-- A slot of one of them is that one's. -/
theorem slot_of_covers {i : ι} (hapart : is.Pairwise S.Apart) (hi : i ∈ is) (hj : S.Covers i j) :
    S.slot is l j = if j = S.start i then some (S.new i) else some S.blank := by
  rw [slot, find?_of_covers hapart hi hj]

/-- The order the sites come in makes no difference. -/
theorem rewrite_perm {js : List ι} {out : List α} (hapart : is.Pairwise S.Apart) (hperm : is.Perm js)
    (h : S.rewrite is l = .ok out) : S.rewrite js l = .ok out := by
  have hapart' : js.Pairwise S.Apart := hperm.pairwise hapart Or.symm
  rcases rewrite_eq (l := l) hapart with ⟨hall, out₁, hout₁, -, hslots₁⟩ | ⟨_, _, _, e, -, -, -, herr⟩
  · rcases rewrite_eq (l := l) hapart' with ⟨-, out₂, hout₂, -, hslots₂⟩ | ⟨as, k, bs, e, hjs, -, hk, -⟩
    · rw [hout₂, ← Except.ok.inj (hout₁.symm.trans h)]
      congr 1
      refine List.ext_getElem? fun j => ?_
      rw [hslots₁, hslots₂]
      by_cases hj : ∃ i ∈ is, S.Covers i j
      · obtain ⟨i, hi, hij⟩ := hj
        rw [slot_of_covers hapart hi hij, slot_of_covers hapart' (hperm.mem_iff.mp hi) hij]
      · have hnone {ks : List ι} (hks : ∀ k ∈ ks, k ∈ is) : S.slot ks l j = l[j]? := by
          rw [slot, List.find?_eq_none.mpr fun k hk => ?_]
          rw [decide_eq_true_eq]
          exact fun hkj => hj ⟨k, hks k hk, hkj⟩
        rw [hnone fun _ hk => hk, hnone fun _ hk => hperm.mem_iff.mpr hk]
    · have hin : k ∈ is := hperm.mem_iff.mpr (hjs ▸ List.mem_append_right _ List.mem_cons_self)
      rw [hall k hin] at hk
      cases hk
  · rw [herr] at h
    cases h

end Sites
end Splice
