import VideoOlympics.Base.Machine

/-! One machine beside another that does the same in its own way. An event of the second is one of the
    first's, or its own affair, of which the first sees nothing; and what each single event keeps
    between the two, whole runs keep. -/

namespace Machine

variable {σ τ ε δ : Type*} (M : Machine σ ε)

theorem throughout_and {I J : σ → Prop} {s : σ} {es : List ε} (hI : M.Throughout I s es)
    (hJ : M.Throughout J s es) : M.Throughout (fun s => I s ∧ J s) s es := by
  induction es generalizing s with
  | nil => exact ⟨hI, hJ⟩
  | cons e es ih => exact ⟨⟨hI.1, hJ.1⟩, fun t ht => ih (hI.2 t ht) (hJ.2 t ht)⟩

/-- What no step can bring about has held all along, if it holds in the end. -/
theorem throughout_of_final {I : σ → Prop} (hback : ∀ s e t, M.step s e = some t → I t → I s)
    {s u : σ} {es : List ε} (hrun : M.run s es = some u) (hu : I u) : M.Throughout I s es := by
  induction es generalizing s with
  | nil =>
    rw [run_nil, Option.some.injEq] at hrun
    exact hrun ▸ hu
  | cons e es ih =>
    obtain ⟨t, ht, hrest⟩ := M.run_cons_some.mp hrun
    have hlater := ih hrest
    refine ⟨hback s e t ht (M.throughout_head hlater), fun t' ht' => ?_⟩
    exact Option.some.inj (ht.symm.trans ht') ▸ hlater

/-- Whether a run passes through good states only can be computed along it. -/
def decidableThroughout (I : σ → Prop) [DecidablePred I] :
    ∀ (s : σ) (es : List ε), Decidable (M.Throughout I s es)
  | s, [] => inferInstanceAs (Decidable (I s))
  | s, e :: es =>
    match h : M.step s e with
    | none => decidable_of_iff (I s)
        ⟨fun hs => ⟨hs, fun t ht => absurd (h.symm.trans ht) (by simp)⟩, fun hs => hs.1⟩
    | some t =>
      have := decidableThroughout I t es
      decidable_of_iff (I s ∧ M.Throughout I t es)
        ⟨fun hs => ⟨hs.1, fun u hu => Option.some.inj (h.symm.trans hu) ▸ hs.2⟩,
          fun hs => ⟨hs.1, hs.2 t h⟩⟩

instance (I : σ → Prop) [DecidablePred I] (s : σ) (es : List ε) : Decidable (M.Throughout I s es) :=
  M.decidableThroughout I s es

/-- The second machine follows the first in events that meet `A`: they happen, and related states stay
    so, over an event of both that ends in a good state of the first, and over an event of its own. `P`
    is asked of the second's steps. -/
structure Follows (N : Machine τ δ) (erase : δ → Option ε) (R : σ → τ → Prop) (A : δ → Prop)
    (G : σ → Prop) (P : τ → δ → Prop) : Prop where
  goes : ∀ t d, A d → (N.step t d).isSome
  both : ∀ {s s' t t' d e}, R s t → A d → erase d = some e → M.step s e = some s' → G s' → P t d →
    N.step t d = some t' → R s' t'
  own : ∀ {s t t' d}, R s t → A d → erase d = none → P t d → N.step t d = some t' → R s t'

variable {M} in
/-- Where the first machine has a run through good states, the second has one that ends beside it. -/
theorem Follows.run {N : Machine τ δ} {erase : δ → Option ε} {R : σ → τ → Prop} {A : δ → Prop}
    {G : σ → Prop} {P : τ → δ → Prop} (h : M.Follows N erase R A G P) {ds : List δ} {s s' : σ} {t : τ}
    (hR : R s t) (hrun : M.run s (ds.filterMap erase) = some s')
    (hgood : M.Throughout G s (ds.filterMap erase)) (hA : ∀ d ∈ ds, A d) (hP : N.EachStep P t ds) :
    ∃ t', N.run t ds = some t' ∧ R s' t' := by
  induction ds generalizing s t with
  | nil => exact ⟨t, rfl, Option.some.inj hrun ▸ hR⟩
  | cons d ds ih =>
    have hd := hA d List.mem_cons_self
    obtain ⟨t₁, ht⟩ := Option.isSome_iff_exists.mp (h.goes t d hd)
    obtain ⟨hnow, hlater⟩ := hP t₁ ht
    have hjoin : ∀ {s₁ : σ}, R s₁ t₁ → M.run s₁ (ds.filterMap erase) = some s' →
        M.Throughout G s₁ (ds.filterMap erase) → ∃ t', N.run t (d :: ds) = some t' ∧ R s' t' := by
      intro s₁ hR₁ hrun₁ hgood₁
      obtain ⟨t', hrun', hR'⟩ :=
        ih hR₁ hrun₁ hgood₁ (fun d hd => hA d (List.mem_cons_of_mem _ hd)) hlater
      exact ⟨t', N.run_cons_some.mpr ⟨t₁, ht, hrun'⟩, hR'⟩
    cases he : erase d with
    | none =>
      rw [List.filterMap_cons_none he] at hrun hgood
      exact hjoin (h.own hR hd he hnow ht) hrun hgood
    | some e =>
      rw [List.filterMap_cons_some he] at hrun hgood
      obtain ⟨s₁, hs, hrest⟩ := M.run_cons_some.mp hrun
      have hgood₁ := hgood.2 s₁ hs
      exact hjoin (h.both hR hd he hs (M.throughout_head hgood₁) hnow ht) hrest hgood₁

end Machine
