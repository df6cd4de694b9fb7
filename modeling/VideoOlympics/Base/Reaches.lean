import VideoOlympics.Base.Machine

/-! What a machine can be brought to: by events of some kind, or by somebody who names the events
    while somebody else has a say in what comes of them. A place that is one leg nearer from wherever
    it has not been reached is reached in the end: a leg may be any number of events, and only its
    measure counts. -/

namespace Machine

variable {σ ε : Type*} (M : Machine σ ε)

/-- Some events, all of them allowed, lead from the one state to the other. -/
def Reaches (A : ε → Prop) (s t : σ) : Prop := ∃ es, (∀ e ∈ es, A e) ∧ M.run s es = some t

variable {M} {A : ε → Prop}

theorem Reaches.refl (s : σ) : M.Reaches A s s := ⟨[], fun _ he => absurd he List.not_mem_nil, rfl⟩

theorem Reaches.of_step {s t : σ} {e : ε} (he : A e) (h : M.step s e = some t) : M.Reaches A s t :=
  ⟨[e], fun _ hmem => List.mem_singleton.mp hmem ▸ he, (M.run_singleton s e).trans h⟩

theorem Reaches.trans {s t u : σ} (h : M.Reaches A s t) (h' : M.Reaches A t u) : M.Reaches A s u := by
  obtain ⟨es, hA, hes⟩ := h
  obtain ⟨fs, hA', hfs⟩ := h'
  refine ⟨es ++ fs, fun e he => ?_, M.run_append_some.mpr ⟨t, hes, hfs⟩⟩
  exact (List.mem_append.mp he).elim (hA e) (hA' e)

theorem eachStep_of_allowed {es : List ε} (h : ∀ e ∈ es, A e) (s : σ) :
    M.EachStep (fun _ => A) s es := by
  induction es generalizing s with
  | nil => trivial
  | cons e es ih =>
    obtain ⟨he, hes⟩ := List.forall_mem_cons.mp h
    exact fun t _ => ⟨he, ih hes t⟩

/-- If from every state of a kind that is not yet good some events lead to a good one, or to one of the
    kind that measures less, then a good one can be reached. What relates a state to where the machine
    came from is carried along. -/
theorem reaches_of_measure {R : σ → σ → Prop} (hrefl : ∀ s, R s s)
    (htrans : ∀ s t u, R s t → R t u → R s u) {I G : σ → Prop} (μ : σ → ℕ)
    (hleg : ∀ s, I s → ¬ G s → ∃ t, M.Reaches A s t ∧ R s t ∧ I t ∧ (G t ∨ μ t < μ s)) {s : σ}
    (hs : I s) : ∃ t, M.Reaches A s t ∧ R s t ∧ I t ∧ G t := by
  induction hn : μ s using Nat.strongRecOn generalizing s with
  | ind n ih =>
    by_cases hG : G s
    · exact ⟨s, .refl s, hrefl s, hs, hG⟩
    obtain ⟨t, hst, hR, ht, hgood | hless⟩ := hleg s hs hG
    · exact ⟨t, hst, hR, ht, hgood⟩
    · obtain ⟨u, htu, hR', hu, hgood⟩ := ih (μ t) (hn ▸ hless) ht rfl
      exact ⟨u, hst.trans htu, htrans s t u hR hR', hu, hgood⟩

/-! ### Against an opponent -/

/-- The machine can be brought to `P` against an opponent: an event is named, and whichever event is
    `like` it comes, the machine can go on from there. -/
inductive Forces (M : Machine σ ε) (like : ε → ε → Prop) (P : σ → Prop) : σ → Prop
  | done {s : σ} : P s → Forces M like P s
  | turn {s : σ} (e : ε) : (∀ e', like e e' → (M.step s e').isSome) →
      (∀ e' t, like e e' → M.step s e' = some t → Forces M like P t) → Forces M like P s

variable {like : ε → ε → Prop} {P Q : σ → Prop} {s : σ}

theorem Forces.bind (h : M.Forces like P s) (hPQ : ∀ t, P t → M.Forces like Q t) :
    M.Forces like Q s := by
  induction h with
  | done hP => exact hPQ _ hP
  | turn e hlegal _ ih => exact .turn e hlegal ih

theorem Forces.mono (h : M.Forces like P s) (hPQ : ∀ t, P t → Q t) : M.Forces like Q s :=
  h.bind fun t hP => .done (hPQ t hP)

/-- Events in which the opponent has no say need no opponent. -/
theorem Reaches.forces {t : σ} (h : M.Reaches A s t) (hA : ∀ e e', A e → like e e' → e' = e)
    (ht : M.Forces like P t) : M.Forces like P s := by
  obtain ⟨es, hes, hrun⟩ := h
  induction es generalizing s with
  | nil =>
    rw [run_nil, Option.some.injEq] at hrun
    exact hrun ▸ ht
  | cons e es ih =>
    obtain ⟨he, hes⟩ := List.forall_mem_cons.mp hes
    obtain ⟨u, hu, hrest⟩ := M.run_cons_some.mp hrun
    refine .turn e ?_ ?_
    · intro e' hlike
      rw [hA e e' he hlike, hu]
      rfl
    · intro e' t' hlike hstep
      rw [hA e e' he hlike, hu, Option.some.injEq] at hstep
      exact hstep ▸ ih hes hrest

theorem forces_of_measure {I G : σ → Prop} (μ : σ → ℕ)
    (hleg : ∀ s, I s → ¬ G s → M.Forces like (fun t => I t ∧ (G t ∨ μ t < μ s)) s) (hs : I s) :
    M.Forces like (fun t => I t ∧ G t) s := by
  induction hn : μ s using Nat.strongRecOn generalizing s with
  | ind n ih =>
    by_cases hG : G s
    · exact .done ⟨hs, hG⟩
    refine (hleg s hs hG).bind ?_
    rintro t ⟨ht, hgood | hless⟩
    · exact .done ⟨ht, hgood⟩
    · exact ih (μ t) (hn ▸ hless) ht rfl

/-- An opponent may decide by all that has come so far, as long as there is always something it will
    have. -/
theorem Forces.exists_run {A : List ε → ε → Prop} (hA : ∀ past e, ∃ e', like e e' ∧ A past e')
    (h : M.Forces like P s) (past : List ε) :
    ∃ es t, (∀ pre e post, es = pre ++ e :: post → A (past ++ pre) e) ∧ M.run s es = some t ∧ P t := by
  induction h generalizing past with
  | @done s hP => exact ⟨[], s, fun pre e post hes => by simp at hes, rfl, hP⟩
  | @turn s e hlegal _ ih =>
    obtain ⟨e', hlike, he'⟩ := hA past e
    obtain ⟨t, ht⟩ := Option.isSome_iff_exists.mp (hlegal e' hlike)
    obtain ⟨es, u, hes, hrun, hP⟩ := ih e' t hlike ht (past ++ [e'])
    refine ⟨e' :: es, u, ?_, M.run_cons_some.mpr ⟨t, ht, hrun⟩, hP⟩
    intro pre f post hsplit
    cases pre with
    | nil =>
      obtain rfl : e' = f := (List.cons.inj hsplit).1
      rwa [List.append_nil]
    | cons g pre =>
      obtain ⟨rfl, htail⟩ := List.cons.inj hsplit
      rw [← List.singleton_append, ← List.append_assoc]
      exact hes pre f post htail

end Machine
