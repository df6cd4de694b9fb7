import Mathlib.Data.List.Basic
import Mathlib.Tactic.Common

/-! Deterministic event machines, their runs, and the two rules every safety argument here uses: an
    invariant that each step preserves holds in every reachable state, and one that each *clean*
    step preserves holds along every run whose steps are all clean. -/

/-- What an event does in a state; `none` where the event cannot happen. -/
structure Machine (σ : Type*) (ε : Type*) where
  init : σ → Prop
  step : σ → ε → Option σ

namespace Machine

variable {σ ε : Type*} (M : Machine σ ε)

/-- The state a sequence of events leads to. -/
def run : σ → List ε → Option σ
  | s, [] => some s
  | s, e :: es => (M.step s e).bind fun t => run t es

/-- Every event of the sequence that happens meets `P` in the state it happens in. -/
def EachStep (P : σ → ε → Prop) : σ → List ε → Prop
  | _, [] => True
  | s, e :: es => ∀ t, M.step s e = some t → P s e ∧ EachStep P t es

/-- Some run from an initial state ends here. -/
def Reachable (s : σ) : Prop := ∃ s₀ es, M.init s₀ ∧ M.run s₀ es = some s

/-- Every state the run passes through, its first and last included, meets `I`. -/
def Throughout (I : σ → Prop) : σ → List ε → Prop
  | s, [] => I s
  | s, e :: es => I s ∧ ∀ t, M.step s e = some t → Throughout I t es

theorem run_nil (s : σ) : M.run s [] = some s := rfl

theorem run_cons (s : σ) (e : ε) (es : List ε) :
    M.run s (e :: es) = (M.step s e).bind fun t => M.run t es := rfl

theorem run_cons_some {s u : σ} {e : ε} {es : List ε} :
    M.run s (e :: es) = some u ↔ ∃ t, M.step s e = some t ∧ M.run t es = some u := by
  rw [run_cons, Option.bind_eq_some_iff]

theorem run_append (s : σ) (es fs : List ε) :
    M.run s (es ++ fs) = (M.run s es).bind fun t => M.run t fs := by
  induction es generalizing s with
  | nil => rfl
  | cons e es ih =>
    rw [List.cons_append, run_cons, run_cons, Option.bind_assoc]
    simp only [ih]

theorem run_append_some {s u : σ} {es fs : List ε} :
    M.run s (es ++ fs) = some u ↔ ∃ t, M.run s es = some t ∧ M.run t fs = some u := by
  rw [run_append, Option.bind_eq_some_iff]

theorem run_singleton (s : σ) (e : ε) : M.run s [e] = M.step s e := by
  rw [run_cons]
  exact Option.bind_fun_some (M.step s e)

theorem run_concat_some {s u : σ} {es : List ε} {e : ε} :
    M.run s (es ++ [e]) = some u ↔ ∃ t, M.run s es = some t ∧ M.step t e = some u := by
  simp only [run_append_some, run_singleton]

/-- A clean run keeps whatever every clean step keeps. -/
theorem run_invariant {I : σ → Prop} {P : σ → ε → Prop}
    (hstep : ∀ s e t, I s → P s e → M.step s e = some t → I t) {es : List ε} {s u : σ} (hs : I s)
    (hclean : M.EachStep P s es) (hrun : M.run s es = some u) : I u := by
  induction es generalizing s with
  | nil =>
    rw [run_nil, Option.some.injEq] at hrun
    exact hrun ▸ hs
  | cons e es ih =>
    obtain ⟨t, ht, hrest⟩ := M.run_cons_some.mp hrun
    obtain ⟨hP, hclean⟩ := hclean t ht
    exact ih (hstep s e t hs hP ht) hclean hrest

theorem eachStep_of_forall {P : σ → ε → Prop} (h : ∀ s e, P s e) (es : List ε) (s : σ) :
    M.EachStep P s es := by
  induction es generalizing s with
  | nil => trivial
  | cons e es ih => exact fun t _ => ⟨h s e, ih t⟩

/-- Two conditions that agree wherever `J` keeps holding are met by the same runs. -/
theorem eachStep_congr {J : σ → Prop} {P Q : σ → ε → Prop}
    (hJ : ∀ s e t, J s → M.step s e = some t → J t)
    (h : ∀ s e t, J s → M.step s e = some t → (P s e ↔ Q s e)) {es : List ε} {s : σ} (hs : J s) :
    M.EachStep P s es ↔ M.EachStep Q s es := by
  induction es generalizing s with
  | nil => exact Iff.rfl
  | cons e es ih =>
    refine forall_congr' fun t => imp_congr_right fun ht => ?_
    rw [h s e t hs ht, ih (hJ s e t hs ht)]

/-- A clean run keeps it in every state it passes through. -/
theorem throughout_of_eachStep {J I : σ → Prop} {P : σ → ε → Prop} (hI : ∀ s, J s → I s)
    (hstep : ∀ s e t, J s → P s e → M.step s e = some t → J t) {es : List ε} {s : σ} (hs : J s)
    (hclean : M.EachStep P s es) : M.Throughout I s es := by
  induction es generalizing s with
  | nil => exact hI s hs
  | cons e es ih =>
    refine ⟨hI s hs, ?_⟩
    intro t ht
    obtain ⟨hP, hclean⟩ := hclean t ht
    exact ih (hstep s e t hs hP ht) hclean

/-- What a clean run keeps is there to be used in each of its steps. -/
theorem eachStep_of_invariant {J : σ → Prop} {P Q : σ → ε → Prop} (hQ : ∀ s e, J s → P s e → Q s e)
    (hstep : ∀ s e t, J s → P s e → M.step s e = some t → J t) {es : List ε} {s : σ} (hs : J s)
    (hclean : M.EachStep P s es) : M.EachStep Q s es := by
  induction es generalizing s with
  | nil => trivial
  | cons e es ih =>
    intro t ht
    obtain ⟨hP, hclean⟩ := hclean t ht
    exact ⟨hQ s e hs hP, ih (hstep s e t hs hP ht) hclean⟩

/-- An invariant of every step holds wherever the machine can get to. -/
theorem reachable_invariant {I : σ → Prop} (hinit : ∀ s, M.init s → I s)
    (hstep : ∀ s e t, I s → M.step s e = some t → I t) {s : σ} (hs : M.Reachable s) : I s := by
  obtain ⟨s₀, es, h₀, hrun⟩ := hs
  exact M.run_invariant (P := fun _ _ => True) (fun s e t hI _ ht => hstep s e t hI ht)
    (hinit s₀ h₀) (M.eachStep_of_forall (fun _ _ => trivial) es s₀) hrun

theorem throughout_of_forall {I : σ → Prop} (h : ∀ s, I s) (es : List ε) (s : σ) :
    M.Throughout I s es := by
  induction es generalizing s with
  | nil => exact h s
  | cons e es ih => exact ⟨h s, fun t _ => ih t⟩

theorem throughout_head {I : σ → Prop} {s : σ} {es : List ε} (h : M.Throughout I s es) : I s := by
  cases es with
  | nil => exact h
  | cons e es => exact h.1

/-- A run through good states keeps whatever a step into a good state keeps. -/
theorem throughout_of_good {J G I : σ → Prop} (hI : ∀ s, J s → I s)
    (hstep : ∀ s e t, J s → G t → M.step s e = some t → J t) {es : List ε} {s : σ}
    (hgood : M.Throughout G s es) (hs : J s) : M.Throughout I s es := by
  induction es generalizing s with
  | nil => exact hI s hs
  | cons e es ih =>
    refine ⟨hI s hs, ?_⟩
    intro t ht
    exact ih (hgood.2 t ht) (hstep s e t hs (M.throughout_head (hgood.2 t ht)) ht)

/-- If, wherever `J` keeps holding, a step between states of which `I` holds before and `G` after ends
    in one of which `I` holds exactly when it is clean, then a run through states of which `G` holds
    keeps `I` throughout exactly when every step of it is clean. -/
theorem throughout_iff_eachStep_good {J G I : σ → Prop} {P : σ → ε → Prop}
    (hJ : ∀ s e t, J s → G t → M.step s e = some t → J t)
    (hstep : ∀ s e t, J s → G t → I s → M.step s e = some t → (I t ↔ P s e)) {es : List ε} {s : σ}
    (hgood : M.Throughout G s es) (hj : J s) (hs : I s) :
    M.Throughout I s es ↔ M.EachStep P s es := by
  induction es generalizing s with
  | nil => exact ⟨fun _ => trivial, fun _ => hs⟩
  | cons e es ih =>
    constructor
    · rintro ⟨-, hrest⟩ t ht
      have hG := M.throughout_head (hgood.2 t ht)
      have hIt := M.throughout_head (hrest t ht)
      exact ⟨(hstep s e t hj hG hs ht).mp hIt,
        (ih (hgood.2 t ht) (hJ s e t hj hG ht) hIt).mp (hrest t ht)⟩
    · intro hclean
      refine ⟨hs, ?_⟩
      intro t ht
      have hG := M.throughout_head (hgood.2 t ht)
      obtain ⟨hP, hrest⟩ := hclean t ht
      have hIt : I t := (hstep s e t hj hG hs ht).mpr hP
      exact (ih (hgood.2 t ht) (hJ s e t hj hG ht) hIt).mpr hrest

/-- If, wherever `J` keeps holding, a step from a good state ends in a good one exactly when it is
    clean, then a run stays good throughout exactly when every step of it is clean. -/
theorem throughout_iff_eachStep {J I : σ → Prop} {P : σ → ε → Prop}
    (hJ : ∀ s e t, J s → M.step s e = some t → J t)
    (hstep : ∀ s e t, J s → I s → M.step s e = some t → (I t ↔ P s e)) {es : List ε} {s : σ}
    (hj : J s) (hs : I s) : M.Throughout I s es ↔ M.EachStep P s es :=
  M.throughout_iff_eachStep_good (G := fun _ => True) (fun s e t hj _ ht => hJ s e t hj ht)
    (fun s e t hj _ hs ht => hstep s e t hj hs ht) (M.throughout_of_forall (fun _ => trivial) es s) hj hs

/-- Whether a given run is clean can be computed along it. -/
def decidableEachStep (P : σ → ε → Prop) [∀ s e, Decidable (P s e)] :
    ∀ (s : σ) (es : List ε), Decidable (M.EachStep P s es)
  | _, [] => .isTrue trivial
  | s, e :: es =>
    match h : M.step s e with
    | none => .isTrue fun t ht => absurd (h.symm.trans ht) (by simp)
    | some t =>
      have := decidableEachStep P t es
      decidable_of_iff (P s e ∧ M.EachStep P t es)
        ⟨fun hp u hu => Option.some.inj (h.symm.trans hu) ▸ hp, fun hp => hp t h⟩

instance (P : σ → ε → Prop) [∀ s e, Decidable (P s e)] (s : σ) (es : List ε) :
    Decidable (M.EachStep P s es) := M.decidableEachStep P s es

/-- A run that goes through and ends well, found by running it. -/
theorem exists_run {s : σ} {e : List ε} {Q : σ → Prop} [DecidablePred Q]
    (h : (M.run s e).any (fun t => decide (Q t)) = true) : ∃ t, M.run s e = some t ∧ Q t := by
  cases ht : M.run s e with
  | none => simp [ht] at h
  | some t =>
    rw [ht, Option.any_some] at h
    exact ⟨t, rfl, of_decide_eq_true h⟩

/-- And what follows from that. -/
theorem exists_run_of {s : σ} {e : List ε} {Q R : σ → Prop} [DecidablePred Q]
    (h : (M.run s e).any (fun t => decide (Q t)) = true)
    (hR : ∀ t, M.run s e = some t → Q t → R t) : ∃ t, M.run s e = some t ∧ Q t ∧ R t :=
  (M.exists_run h).imp fun t ⟨hrun, hQ⟩ => ⟨hrun, hQ, hR t hrun hQ⟩

end Machine
