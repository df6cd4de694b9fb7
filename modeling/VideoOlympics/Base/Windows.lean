import Mathlib.Data.Int.ModEq
import Mathlib.Data.List.Range
import Mathlib.Tactic.Linarith

/-! A ring of `N` slots fed by windows. A record stamped `s` writes the `W` ticks up to `s`, each at
    its own slot modulo `N`, so what a slot holds is decided by the last record that reached it.
    Nothing here depends on what a slot contains or on how it is addressed beyond `Ring.get_put`.
    The second half is about records taken in batches, each batch newest first: which batch decides
    a slot, and when it fills it for the tick wanted. -/

namespace Windows

/-- A store read and written by tick, where ticks agreeing modulo `N` share a slot. -/
structure Ring (S : Type*) (V : Type*) (N : ℤ) where
  get : S → ℤ → V
  put : S → ℤ → V → S
  pos : 0 < N
  get_put : ∀ st t v u, get (put st t v) u = if u % N = t % N then v else get st u

variable {R : Type*}

/-- The record that last wrote `t`'s slot, of records the latest first. -/
def lastWriter (N W : ℤ) (stamp : R → ℤ) : List R → ℤ → Option R
  | [], _ => none
  | r :: rs, t => if (stamp r - t) % N < W then some r else lastWriter N W stamp rs t

/-- The tick last written at `t`'s slot by records with these stamps. -/
def lastWrite (N W : ℤ) (ss : List ℤ) (t : ℤ) : Option ℤ :=
  (lastWriter N W id ss t).map fun s => s - (s - t) % N

variable {S V : Type*} {N : ℤ}

/-- The `W` ticks up to `s`, newest first, each at its own slot. -/
def Ring.putWindow (Q : Ring S V N) (f : ℤ → V) (s : ℤ) (W : ℕ) (st : S) : S :=
  (List.range W).foldl (fun st (j : ℕ) => Q.put st (s - j) (f (s - j))) st

theorem sub_emod_sub (s t N : ℤ) : (s - (s - t) % N) % N = t % N := by
  have h : s - (s - t) % N = t + N * ((s - t) / N) := by
    have := Int.emod_add_mul_ediv (s - t) N
    linarith
  rw [h, Int.add_mul_emod_self_left]

theorem emod_eq_iff_sub {s t : ℤ} {j : ℕ} (hj : (j : ℤ) < N) :
    t % N = (s - j) % N ↔ (s - t) % N = j := by
  have hjm : (j : ℤ) % N = j := Int.emod_eq_of_lt (by omega) hj
  constructor
  · intro h
    have hst : (s - t) % N = (s - (s - j)) % N := Int.ModEq.sub_left s h
    rw [hst, sub_sub_cancel, hjm]
  · intro h
    rw [← h, sub_emod_sub]

theorem Ring.get_putWindow (Q : Ring S V N) (f : ℤ → V) (s t : ℤ) (st : S) :
    ∀ {W : ℕ}, (W : ℤ) ≤ N → Q.get (Q.putWindow f s W st) t =
      if (s - t) % N < W then f (s - (s - t) % N) else Q.get st t
  | 0, _ => by
      have hnn := Int.emod_nonneg (s - t) Q.pos.ne'
      rw [if_neg (by push_cast; omega)]
      rfl
  | W + 1, hW => by
      have hWN : (W : ℤ) < N := by push_cast at hW; omega
      have hstep : Q.putWindow f s (W + 1) st =
          Q.put (Q.putWindow f s W st) (s - W) (f (s - W)) := by
        simp [putWindow, List.range_succ]
      rw [hstep, Q.get_put, Q.get_putWindow f s t st hWN.le]
      by_cases h : (s - t) % N = W
      · rw [if_pos ((emod_eq_iff_sub hWN).mpr h), if_pos (by push_cast; omega), h]
      · rw [if_neg (fun h' => h ((emod_eq_iff_sub hWN).mp h'))]
        have hlt : (s - t) % N < ((W + 1 : ℕ) : ℤ) ↔ (s - t) % N < W := by push_cast; omega
        simp only [hlt]

/-- What a slot holds after the records `rs` (the latest first): what the last record to reach it
    carries for the tick it wrote there, or what the ring was seeded with. -/
def Ring.Holds (Q : Ring S V N) (W : ℤ) (stamp : R → ℤ) (val : R → ℤ → V) (seed : V) (rs : List R)
    (st : S) : Prop :=
  ∀ t, Q.get st t =
    (lastWriter N W stamp rs t).elim seed fun r => val r (stamp r - (stamp r - t) % N)

theorem Ring.holds_cons (Q : Ring S V N) {W : ℕ} (hW : (W : ℤ) ≤ N) {stamp : R → ℤ}
    {val : R → ℤ → V} {seed : V} {rs : List R} {st : S} (h : Q.Holds W stamp val seed rs st) (r : R) :
    Q.Holds W stamp val seed (r :: rs) (Q.putWindow (val r) (stamp r) W st) := by
  intro t
  rw [Q.get_putWindow (val r) (stamp r) t st hW, lastWriter]
  split
  · rfl
  · exact h t

theorem lastWriter_mem {W : ℤ} {stamp : R → ℤ} {rs : List R} {t : ℤ} {r : R}
    (h : lastWriter N W stamp rs t = some r) : r ∈ rs ∧ (stamp r - t) % N < W := by
  induction rs with
  | nil => simp [lastWriter] at h
  | cons q rs ih =>
    rw [lastWriter] at h
    split at h
    · obtain rfl := Option.some.inj h
      exact ⟨List.mem_cons_self, ‹_›⟩
    · obtain ⟨hm, hlt⟩ := ih h
      exact ⟨List.mem_cons_of_mem q hm, hlt⟩

/-- Changing what later ticks will carry changes nothing the ring already holds. -/
theorem Ring.Holds.congr {Q : Ring S V N} {W : ℤ} {stamp : R → ℤ} {val val' : R → ℤ → V} {seed : V}
    {rs : List R} {st : S} (h : Q.Holds W stamp val seed rs st)
    (hval : ∀ r ∈ rs, ∀ u, stamp r - W < u → u ≤ stamp r → val r u = val' r u) :
    Q.Holds W stamp val' seed rs st := by
  intro t
  rw [h t]
  cases hr : lastWriter N W stamp rs t with
  | none => rfl
  | some r =>
    obtain ⟨hm, hlt⟩ := lastWriter_mem hr
    have hnn := Int.emod_nonneg (stamp r - t) Q.pos.ne'
    exact hval r hm _ (by omega) (by omega)

/-! ### Batches, taken newest first -/

/-- The slot was last written by a record whose window has the tick. -/
def FilledFor (N W : ℤ) (stamp : R → ℤ) (rs : List R) (t : ℤ) : Prop :=
  ∃ r ∈ lastWriter N W stamp rs t, stamp r - W < t ∧ t ≤ stamp r

instance (N W : ℤ) (stamp : R → ℤ) (rs : List R) (t : ℤ) : Decidable (FilledFor N W stamp rs t) :=
  inferInstanceAs (Decidable (∃ r ∈ lastWriter N W stamp rs t, _ ∧ _))

/-- A slot filled for the tick holds what some record carries for it. -/
theorem Ring.Holds.get_filled {Q : Ring S V N} {W : ℤ} {stamp : R → ℤ} {val : R → ℤ → V} {seed : V}
    {rs : List R} {st : S} {t : ℤ} (h : Q.Holds W stamp val seed rs st) (hWN : W ≤ N)
    (hf : FilledFor N W stamp rs t) : ∃ r ∈ rs, Q.get st t = val r t := by
  obtain ⟨r, hr, hlo, hhi⟩ := hf
  have hmod : (stamp r - t) % N = stamp r - t := Int.emod_eq_of_lt (by omega) (by omega)
  refine ⟨r, (lastWriter_mem hr).1, ?_⟩
  rw [h t, hr, Option.elim_some, hmod, sub_sub_cancel]

section
variable {W : ℤ} {stamp : R → ℤ} {rs b : List R} {r : R} {t : ℤ}

/-- Records stamped before the tick never fill its slot for it. -/
theorem not_filledFor_of_lt (h : ∀ q ∈ rs, stamp q < t) : ¬FilledFor N W stamp rs t := by
  rintro ⟨q, hq, -, hle⟩
  exact absurd (h q (lastWriter_mem hq).1) (by omega)

theorem filledFor_cons_of_hit (h : (stamp r - t) % N < W) :
    FilledFor N W stamp (r :: rs) t ↔ stamp r - W < t ∧ t ≤ stamp r := by
  simp [FilledFor, lastWriter, if_pos h]

theorem filledFor_cons_of_miss (h : ¬(stamp r - t) % N < W) :
    FilledFor N W stamp (r :: rs) t ↔ FilledFor N W stamp rs t := by
  simp [FilledFor, lastWriter, if_neg h]

/-- Records far enough ahead of the tick, but not a whole turn, do not reach its slot. -/
theorem filledFor_append_of_ahead (h : ∀ q ∈ b, t + W ≤ stamp q ∧ stamp q < t + N) (hW : 0 < W) :
    FilledFor N W stamp (b ++ rs) t ↔ FilledFor N W stamp rs t := by
  induction b with
  | nil => rfl
  | cons q b ih =>
    obtain ⟨hlo, hhi⟩ := h q List.mem_cons_self
    have hmod : (stamp q - t) % N = stamp q - t := Int.emod_eq_of_lt (by omega) (by omega)
    rw [List.cons_append, filledFor_cons_of_miss (by omega)]
    exact ih fun p hp => h p (List.mem_cons_of_mem q hp)

/-- One turn below zero. -/
theorem emod_of_neg {x N : ℤ} (hlo : -N ≤ x) (hhi : x < 0) : x % N = x + N := by
  rw [← Int.add_emod_right x N]
  exact Int.emod_eq_of_lt (by omega) (by omega)

/-- Of records that neither reach back to the slot's last turn nor up to its next, the first to reach
    it fills it for the tick, if one of them has the tick in its window. -/
theorem filledFor_of_near (hnear : ∀ q ∈ b, t - (N - W) ≤ stamp q ∧ stamp q < t + N)
    (hcov : ∃ q ∈ b, stamp q - W < t ∧ t ≤ stamp q) : FilledFor N W stamp (b ++ rs) t := by
  induction b with
  | nil =>
    obtain ⟨q, hq, -⟩ := hcov
    exact absurd hq List.not_mem_nil
  | cons q b ih =>
    obtain ⟨hlo, hhi⟩ := hnear q List.mem_cons_self
    have hmod : 0 ≤ stamp q - t → (stamp q - t) % N = stamp q - t :=
      fun h => Int.emod_eq_of_lt h (by omega)
    have hturn : stamp q - t < 0 → (stamp q - t) % N = stamp q - t + N :=
      emod_of_neg (by omega)
    rw [List.cons_append]
    by_cases hhit : (stamp q - t) % N < W
    · rw [filledFor_cons_of_hit hhit]
      omega
    · rw [filledFor_cons_of_miss hhit]
      refine ih (fun p hp => hnear p (List.mem_cons_of_mem q hp)) ?_
      obtain ⟨p, hp, hplo, hphi⟩ := hcov
      rcases List.mem_cons.mp hp with rfl | hp
      · have := hmod (by omega)
        omega
      · exact ⟨p, hp, hplo, hphi⟩

/-- A list whose stamps never fall and never skip more than a window. -/
def Steady (W : ℤ) (stamp : R → ℤ) (rs : List R) : Prop :=
  rs.IsChain fun a b => stamp a ≤ stamp b ∧ stamp b ≤ stamp a + W

/-- The first record of a steady list is its lowest. -/
theorem Steady.le {b : List R} {r : R} (h : Steady W stamp (r :: b)) :
    ∀ q ∈ r :: b, stamp r ≤ stamp q := by
  intro q hq
  induction b generalizing r with
  | nil => rw [List.mem_singleton.mp hq]
  | cons p b ih =>
    obtain ⟨⟨hle, -⟩, hrest⟩ := List.isChain_cons_cons.mp h
    rcases List.mem_cons.mp hq with rfl | hq
    · exact le_refl _
    · exact hle.trans (ih hrest hq)

/-- A batch that reaches back so far that its oldest record is within a window's turn of the slot
    spoils it: some record on the way to the tick lands on the slot first. -/
theorem not_filledFor_of_old (hWN : W ≤ N) (hb : Steady W stamp (r :: b))
    (hrs : ∀ q ∈ rs, stamp q ≤ stamp r) (hold : stamp r < t - (N - W)) :
    ¬FilledFor N W stamp (r :: b ++ rs) t := by
  induction b generalizing r with
  | nil =>
    apply not_filledFor_of_lt
    intro q hq
    rcases List.mem_cons.mp hq with rfl | hq
    · omega
    · have := hrs q hq; omega
  | cons q b ih =>
    by_cases hhit : (stamp r - t) % N < W
    · rw [List.cons_append, filledFor_cons_of_hit hhit]
      omega
    · obtain ⟨⟨hle, hstep⟩, hrest⟩ := List.isChain_cons_cons.mp hb
      rw [List.cons_append, filledFor_cons_of_miss hhit]
      refine ih hrest (fun p hp => (hrs p hp).trans hle) ?_
      by_contra hnear
      have hturn := emod_of_neg (x := stamp r - t) (N := N) (by omega) (by omega)
      omega

/-- The batch that comes first to have a record low enough decides: it fills the slot for the tick
    exactly when it reaches up to the tick, and not back to the slot's last turn. -/
theorem filledFor_batch (hW : 0 < W) (hWN : W ≤ N) (hb : Steady W stamp (r :: b))
    (hrs : ∀ q ∈ rs, stamp q ≤ stamp r) (hlow : stamp r < t + W) :
    FilledFor N W stamp (r :: b ++ rs) t ↔
      t ≤ stamp ((r :: b).getLast (List.cons_ne_nil r b)) ∧ t ≤ stamp r + (N - W) := by
  by_cases hold : stamp r < t - (N - W)
  · exact iff_of_false (not_filledFor_of_old hWN hb hrs hold) fun h => by omega
  · induction b generalizing r with
    | nil =>
      by_cases hcase : t ≤ stamp r
      · have hmod : (stamp r - t) % N = stamp r - t := Int.emod_eq_of_lt (by omega) (by omega)
        rw [List.cons_append, filledFor_cons_of_hit (by omega), List.getLast_singleton]
        omega
      · refine iff_of_false (not_filledFor_of_lt ?_) fun h => hcase h.1
        intro q hq
        rcases List.mem_cons.mp hq with rfl | hq
        · omega
        · have := hrs q hq; omega
    | cons q b ih =>
      obtain ⟨⟨hle, hstep⟩, hrest⟩ := List.isChain_cons_cons.mp hb
      have hlast : stamp r ≤ stamp ((q :: b).getLast (List.cons_ne_nil q b)) :=
        hle.trans (Steady.le hrest _ (List.getLast_mem _))
      by_cases hcase : t ≤ stamp r
      · have hmod : (stamp r - t) % N = stamp r - t := Int.emod_eq_of_lt (by omega) (by omega)
        rw [List.cons_append, filledFor_cons_of_hit (by omega), List.getLast_cons_cons]
        omega
      · have hturn := emod_of_neg (x := stamp r - t) (N := N) (by omega) (by omega)
        rw [List.cons_append, filledFor_cons_of_miss (by omega), List.getLast_cons_cons,
          ih hrest (fun p hp => (hrs p hp).trans hle) (by omega) (by omega)]
        omega

/-- Of batches the latest first, the one that decides `t`'s slot: the first to have come down within
    a window of the tick. -/
def decider (W : ℤ) (stamp : R → ℤ) (bs : List (List R)) (t : ℤ) : Option (List R) :=
  bs.find? fun b => b.head?.any fun r => decide (stamp r < t + W)

/-- The batches are in order: none has a record above the first of a later one. -/
def Descending (stamp : R → ℤ) : List (List R) → Prop
  | [] => True
  | b :: bs => (∀ r ∈ b.head?, ∀ q ∈ bs.flatten, stamp q ≤ stamp r) ∧ Descending stamp bs

/-- What batches taken newest first leave in a slot, in terms of the one batch that decides it. -/
theorem filledFor_iff_decider (hW : 0 < W) (hWN : W ≤ N) {bs : List (List R)}
    (hs : ∀ b ∈ bs, Steady W stamp b) (hd : Descending stamp bs)
    (ha : ∀ q ∈ bs.flatten, stamp q < t + N) :
    FilledFor N W stamp bs.flatten t ↔ ∃ b ∈ decider W stamp bs t,
      (∃ n ∈ b.getLast?, t ≤ stamp n) ∧ ∃ o ∈ b.head?, t ≤ stamp o + (N - W) := by
  induction bs with
  | nil => simp [FilledFor, lastWriter, decider]
  | cons b bs ih =>
    have htail : FilledFor N W stamp bs.flatten t ↔ _ :=
      ih (fun c hc => hs c (List.mem_cons_of_mem _ hc)) hd.2 fun q hq =>
        ha q (by rw [List.flatten_cons]; exact List.mem_append_right _ hq)
    cases b with
    | nil => simpa [decider] using htail
    | cons r b =>
      have hb : Steady W stamp (r :: b) := hs _ List.mem_cons_self
      have hrs : ∀ q ∈ bs.flatten, stamp q ≤ stamp r := hd.1 r rfl
      rw [List.flatten_cons] at ha ⊢
      by_cases hlow : stamp r < t + W
      · have hdec : decider W stamp ((r :: b) :: bs) t = some (r :: b) := by
          simp [decider, hlow]
        rw [filledFor_batch hW hWN hb hrs hlow, hdec]
        simp [List.getLast?_eq_some_getLast (List.cons_ne_nil r b)]
      · have hdec : decider W stamp ((r :: b) :: bs) t = decider W stamp bs t := by
          simp [decider, hlow]
        have hahead : ∀ q ∈ r :: b, t + W ≤ stamp q ∧ stamp q < t + N := by
          intro q hq
          have := hb.le q hq
          exact ⟨by omega, ha q (List.mem_append_left _ hq)⟩
        rw [hdec, filledFor_append_of_ahead hahead hW]
        exact htail

end

end Windows
