import VideoOlympics.Lockstep.Bound

/-! Ticks skipped on the wire. A record covers three ticks. A console that never moves on from a tick
    before it has sent it leaves none out; but the gate asks only for the peer's records, and
    lockstep lets the tick move up to six times between two WRITE states. -/

namespace VO

/-- Consecutive records are at most a window apart. -/
def Gapless (rs : List Rec) : Prop :=
  ∀ (n : ℕ) a b, rs[n]? = some a → rs[n + 1]? = some b → |b.stamp - a.stamp| ≤ vowin

/-- Every tick up to the newest stamp is in some record's window. -/
def Covered (rs : List Rec) : Prop :=
  ∀ r ∈ rs, ∀ t, 0 ≤ t → t ≤ r.stamp → ∃ q ∈ rs, q.covers t

/-- Windows that leave no gap cover everything from the first record's on. -/
theorem Gapless.covered {rs : List Rec} (h : Gapless rs)
    (hfirst : ∀ r : Rec, rs[0]? = some r → r.stamp < vowin) : Covered rs := by
  intro r hr t ht0 htr
  obtain ⟨n, hn⟩ := List.mem_iff_getElem?.mp hr
  induction n generalizing r with
  | zero => exact ⟨r, hr, by have := hfirst r hn; omega, htr⟩
  | succ n ih =>
    have hlt : n < rs.length := by
      have := (List.getElem?_eq_some_iff.mp hn).1
      omega
    have hq : rs[n]? = some rs[n] := List.getElem?_eq_getElem hlt
    by_cases hcase : t ≤ rs[n].stamp
    · exact ih rs[n] (List.getElem_mem hlt) hcase hq
    · have hgap := (abs_le.mp (h n _ r hq hn)).2
      exact ⟨r, hr, by omega, htr⟩

theorem Gapless.append {rs : List Rec} (h : Gapless rs) {q : Rec}
    (hlast : ∀ r ∈ rs.getLast?, |q.stamp - r.stamp| ≤ vowin) : Gapless (rs ++ [q]) := by
  intro n a b ha hb
  have hn : n + 1 < rs.length + 1 := by
    have := (List.getElem?_eq_some_iff.mp hb).1
    rwa [List.length_append, List.length_singleton] at this
  rw [List.getElem?_append_left (by omega)] at ha
  rcases Nat.lt_or_eq_of_le (Nat.le_of_lt_succ hn) with hlt | heq
  · rw [List.getElem?_append_left hlt] at hb
    exact h n a b ha hb
  · rw [heq, List.getElem?_concat_length, Option.some.injEq] at hb
    rw [← hb]
    refine hlast a ?_
    rw [List.getLast?_eq_getElem?, ← heq, Nat.add_sub_cancel]
    exact ha

/-- The record this console would write now. -/
def Station.draft (x : Station) : Rec := ⟨x.tick + vod.toNat, x.solo.tape.record (x.tick + vod.toNat)⟩

/-- Nothing is skipped, not even if the console writes now. -/
def Seamless (x : Station) : Prop := Gapless (x.sent ++ [x.draft])

/-- No frame moves on from a tick that the console's newest record has not come to. -/
def Prompt (s : Link) : LinkEv → Prop
  | .gate i _ _ => advances (s i).solo.con = true → ∀ r ∈ (s i).sent.getLast?, (s i).tick ≤ r.stamp
  | _ => True

instance (s : Link) : ∀ e, Decidable (Prompt s e)
  | .gate i _ _ => inferInstanceAs (Decidable (_ → ∀ r ∈ (s i).sent.getLast?, _))
  | .micro _ => .isTrue trivial
  | .answer _ => .isTrue trivial
  | .arrive _ _ => .isTrue trivial

section
variable {x y : Station}

theorem gapless_of_seamless (h : Seamless x) : Gapless x.sent := by
  intro n a b ha hb
  have hlt := (List.getElem?_eq_some_iff.mp hb).1
  refine h n a b ?_ ?_
  · rw [List.getElem?_append_left (by omega)]; exact ha
  · rw [List.getElem?_append_left hlt]; exact hb

theorem Seamless.last (h : Seamless x) : ∀ r ∈ x.sent.getLast?,
    |x.draft.stamp - r.stamp| ≤ vowin := by
  intro r hr
  rw [List.getLast?_eq_getElem?] at hr
  have hlt := (List.getElem?_eq_some_iff.mp hr).1
  refine h (x.sent.length - 1) r x.draft ?_ ?_
  · rw [List.getElem?_append_left hlt]; exact hr
  · rw [Nat.sub_add_cancel (by omega), List.getElem?_concat_length]

theorem seamless_iff : Seamless x ↔ Gapless x.sent ∧
    ∀ r ∈ x.sent.getLast?, |x.draft.stamp - r.stamp| ≤ vowin :=
  ⟨fun h => ⟨gapless_of_seamless h, h.last⟩, fun h => h.1.append h.2⟩

theorem Seamless.congr {x' : Station} (hsent : x'.sent = x.sent) (htick : x'.tick = x.tick) :
    Seamless x' ↔ Seamless x := by
  rw [seamless_iff, seamless_iff, hsent]
  simp only [Station.draft, htick]

/-- A gate leaves no gap exactly when it is prompt. -/
theorem Seamless.gate (h : Seamless x) (hp : Paired x y) (hw : Hw) (sim : Sim) :
    Seamless { x with solo := x.solo.gate hw sim } ↔
      (advances x.solo.con = true → ∀ r ∈ x.sent.getLast?, x.tick ≤ r.stamp) := by
  have hgap := gapless_of_seamless h
  have hsent : Station.sent { x with solo := x.solo.gate hw sim } = x.sent := rfl
  have htick : Station.tick { x with solo := x.solo.gate hw sim } = nextTick x.solo := rfl
  cases hadv : advances x.solo.con with
  | false =>
    simp only [Bool.false_eq_true, false_imp_iff, iff_true]
    refine (Seamless.congr hsent ?_).mpr h
    rw [htick, nextTick, if_neg (by simp [hadv])]
    rfl
  | true =>
    have hnext : nextTick x.solo = x.tick + 1 := if_pos hadv
    rw [seamless_iff, hsent]
    simp only [Station.draft, htick, hnext, true_imp_iff, vod_cast, vowin_cast]
    constructor
    · rintro ⟨-, hlast⟩ r hr
      have := (abs_le.mp (hlast r hr)).2
      omega
    · refine fun hprompt => ⟨hgap, fun r hr => abs_le.mpr ?_⟩
      have hlate := hprompt r hr
      have hstamp := hp.stamp_le r (List.mem_of_getLast? hr)
      omega

/-- A WRITE puts the draft at the end of the stream, and the next draft is the same again. -/
theorem Seamless.micro (h : Seamless x) (hp : Paired x y) : Seamless (x.micro y.sent) := by
  have hsolo := (micro_fixed x y.sent).1
  have htick : (x.micro y.sent).tick = x.tick := by rw [Station.tick, hsolo, (micro_same _ _).1]; rfl
  have hsent : (x.micro y.sent).sent =
      if x.solo.con.vonst = .wiss then x.sent ++ [x.draft] else x.sent := by
    rw [Station.sent, hsolo, hp.sound.micro_sent]; rfl
  split at hsent
  · rw [seamless_iff, hsent]
    refine ⟨h, ?_⟩
    intro r hr
    rw [List.getLast?_concat, Option.mem_some_iff] at hr
    simp [← hr, Station.draft, htick]
  · exact (Seamless.congr hsent htick).mpr h

/-- A console writes before it reads, so the first record it writes is for tick 2 or before. -/
structure Opening (x : Station) : Prop where
  idle : x.sent = [] → x.solo.con.vonst = .wiss ∧ x.got = 0
  first : ∀ r : Rec, x.sent[0]? = some r → r.stamp < vowin

theorem Opening.same {x' : Station} (h : Opening x) (hsent : x'.sent = x.sent)
    (hst : x'.solo.con.vonst = x.solo.con.vonst) (hgot : x'.got = x.got) : Opening x' := by
  constructor
  · rw [hsent, hst, hgot]; exact h.idle
  · rw [hsent]; exact h.first

theorem Opening.micro (h : Opening x) (hp : Paired x y) : Opening (x.micro y.sent) := by
  have hsent : (x.micro y.sent).sent =
      if x.solo.con.vonst = .wiss then x.sent ++ [x.draft] else x.sent := by
    rw [Station.sent, (micro_fixed x y.sent).1, hp.sound.micro_sent]; rfl
  cases hx : x.sent with
  | nil =>
    obtain ⟨hst, hgot⟩ := h.idle hx
    rw [if_pos hst, hx, List.nil_append] at hsent
    refine ⟨by simp [hsent], ?_⟩
    intro r hr
    rw [hsent, List.getElem?_cons_zero, Option.some.injEq] at hr
    have ht := hp.served.transit
    simp only [Transit, hst] at ht
    have hwat : x.wat = -2 := by rw [ht.2.2, hgot]; rfl
    have hbehind := hp.skew.behind
    rw [← hr, Station.draft, vod_cast, vowin_cast]
    dsimp only
    omega
  | cons q qs =>
    have hhead : (x.micro y.sent).sent[0]? = some q := by
      rw [hsent, hx]; split <;> rfl
    refine ⟨fun hnil => by simp [hnil] at hhead, fun r hr => h.first r ?_⟩
    rw [hx, ← hr, hhead]
    rfl

theorem Opening.answer (h : Opening x) (hp : Paired x y) (hp' : Paired y x) (ha : ¬x.Answered) :
    Opening x.answer.1 := by
  have hsolo := (hp.answer_own hp' ha).2.2.1
  have hsent : x.answer.1.sent = x.sent := by rw [Station.sent, hsolo]; rfl
  constructor
  · intro hnil
    obtain ⟨hst, -⟩ := h.idle (hsent ▸ hnil)
    have ht := hp.served.transit
    simp only [Transit, hst] at ht
    exact absurd ht.1 ha
  · rw [hsent]; exact h.first

end

/-- What holds of a match however often its consoles write. -/
def Begun (s : Link) : Prop := InStep s ∧ ∀ i, Opening (s i)

variable {s t : Link} {e : LinkEv}

theorem Begun.step (h : Begun s) (hst : s.step e = some t) : Begun t := by
  refine ⟨h.1.step hst, ?_⟩
  rcases Link.step_cases hst with ⟨i, hw, sim, -, -, hi, hj⟩ |
    ⟨i, -, -, hi, hj⟩ | ⟨i, -, ha, hi, hj⟩ | ⟨i, n, -, hi, hj⟩
  all_goals
    intro k
    rcases i.eq_or_other k with rfl | rfl
  · rw [hi]
    exact (h.2 k).same rfl (frame_cases hw sim _ (h.1 k).sound.net).1.vonst rfl
  · rw [hj]; exact h.2 _
  · rw [hi]; exact (h.2 k).micro (h.1 k)
  · rw [hj]; exact h.2 _
  · rw [hi]; exact (h.2 k).answer (h.1 k) (h.1.peer k) ha
  · rw [hj]; exact (h.2 _).same rfl rfl rfl
  · rw [hi]; exact (h.2 k).same rfl rfl rfl
  · rw [hj]; exact h.2 _

theorem begun_of_init (h : lockstep.init s) : Begun s ∧ ∀ i, Seamless (s i) := by
  have hfresh : ∀ i, Opening (s i) ∧ Seamless (s i) := by
    intro i
    obtain ⟨hw, c, r, m, -, hs⟩ := h i
    rw [hs]
    refine ⟨⟨fun _ => ⟨rfl, rfl⟩, ?_⟩, seamless_iff.mpr ⟨?_, ?_⟩⟩
    · intro r hr
      exact absurd hr (by simp [Station.sent, Station.fresh, Solo.start, Tape.blank])
    · intro n a b ha
      exact absurd ha (by simp [Station.sent, Station.fresh, Solo.start, Tape.blank])
    · simp [Station.sent, Station.fresh, Solo.start, Tape.blank]
  exact ⟨⟨fun i => Paired.start (h i) (h i.other), fun i => (hfresh i).1⟩, fun i => (hfresh i).2⟩

/-- An event leaves the match seamless exactly when it is prompt. -/
theorem seamless_step (h : Begun s) (hs : ∀ i, Seamless (s i)) (hst : s.step e = some t) :
    (∀ i, Seamless (t i)) ↔ Prompt s e := by
  have hboth : ∀ {i}, (∀ k, Seamless (t k)) ↔ Seamless (t i) ∧ Seamless (t i.other) := by
    intro i
    refine ⟨fun hk => ⟨hk i, hk i.other⟩, ?_⟩
    intro hk k
    rcases i.eq_or_other k with rfl | rfl
    · exact hk.1
    · exact hk.2
  rcases Link.step_cases hst with ⟨i, hw, sim, rfl, -, hi, hj⟩ |
    ⟨i, rfl, -, hi, hj⟩ | ⟨i, rfl, ha, hi, hj⟩ | ⟨i, n, rfl, hi, hj⟩
  all_goals rw [hboth (i := i), hi, hj]
  · rw [(hs i).gate (h.1 i) hw sim]
    exact and_iff_left (hs i.other)
  · exact iff_of_true ⟨(hs i).micro (h.1 i), hs i.other⟩ trivial
  · have hsolo := ((h.1 i).answer_own (h.1.peer i) ha).2.2.1
    refine iff_of_true ⟨(Seamless.congr ?_ ?_).mpr (hs i), hs i.other⟩ trivial
    · rw [Station.sent, hsolo]; rfl
    · rw [Station.tick, hsolo]; rfl
  · exact iff_of_true ⟨hs i, hs i.other⟩ trivial

/-- A match stays seamless (no gap between two records, nor before the one a console would write now)
    exactly when all its frames are prompt. -/
theorem seamless_throughout_iff {s₀ : Link} (h₀ : lockstep.init s₀) (es : List LinkEv) :
    lockstep.Throughout (fun s => ∀ i, Seamless (s i)) s₀ es ↔ lockstep.EachStep Prompt s₀ es := by
  obtain ⟨hb, hs⟩ := begun_of_init h₀
  exact lockstep.throughout_iff_eachStep (fun s e t hj hst => Begun.step hj hst)
    (fun s e t hj hi hst => seamless_step hj hi hst) hb hs

/-! ### A frame that is not prompt -/

/-- Record `n` is `r`, and whatever comes behind it is further off than a window. -/
structure Skips (x : Station) (n : ℕ) (r : Rec) : Prop where
  record : x.sent[n]? = some r
  tick : r.stamp + 2 ≤ x.tick
  later : ∀ m q, n < m → x.sent[m]? = some q → r.stamp + vowin < q.stamp

namespace Skips

variable {x y : Station} {n : ℕ} {r : Rec}

theorem same {x' : Station} (h : Skips x n r) (hsent : x'.sent = x.sent) (htick : x.tick ≤ x'.tick) :
    Skips x' n r :=
  ⟨hsent ▸ h.record, h.tick.trans htick, hsent ▸ h.later⟩

/-- What the console writes now is stamped two past its tick. -/
theorem micro (h : Skips x n r) (hp : Paired x y) : Skips (x.micro y.sent) n r := by
  have hsolo := (micro_fixed x y.sent).1
  have htick : (x.micro y.sent).tick = x.tick := by rw [Station.tick, hsolo, (micro_same _ _).1]; rfl
  have hsent : (x.micro y.sent).sent =
      if x.solo.con.vonst = .wiss then x.sent ++ [x.draft] else x.sent := by
    rw [Station.sent, hsolo, hp.sound.micro_sent]; rfl
  split at hsent
  · have hlt := (List.getElem?_eq_some_iff.mp h.record).1
    refine ⟨?_, htick ▸ h.tick, ?_⟩
    · rw [hsent, List.getElem?_append_left hlt]
      exact h.record
    · intro m q hm hq
      rw [hsent] at hq
      rcases Nat.lt_or_ge m x.sent.length with hlow | hhigh
      · rw [List.getElem?_append_left hlow] at hq
        exact h.later m q hm hq
      · rw [List.getElem?_append_right hhigh, List.getElem?_singleton] at hq
        obtain rfl : x.draft = q := Option.some.inj (Option.ite_none_right_eq_some.mp hq).2
        have hdraft := h.tick
        simp only [Station.draft, vod_cast, vowin_cast]
        omega
  · exact h.same hsent (le_of_eq htick.symm)

theorem step {s t : Link} {e : LinkEv} {i : Side} (h : Skips (s i) n r) (hs : InStep s)
    (hst : s.step e = some t) : Skips (t i) n r := by
  rcases Link.step_cases hst with ⟨k, hw, sim, -, -, hk, hother⟩ |
    ⟨k, -, -, hk, hother⟩ | ⟨k, -, ha, hk, hother⟩ | ⟨k, n, -, hk, hother⟩
  all_goals rcases k.eq_or_other i with rfl | rfl
  · rw [hk]
    refine h.same rfl ?_
    have hnext : Station.tick { s i with solo := (s i).solo.gate hw sim } = nextTick (s i).solo := rfl
    rw [hnext, nextTick]
    split
    · exact Int.le_add_one (le_refl _)
    · exact le_refl _
  · rwa [hother]
  · rw [hk]; exact h.micro (hs i)
  · rwa [hother]
  · have hsolo := ((hs i).answer_own (hs.peer i) ha).2.2.1
    rw [hk]
    exact h.same (by rw [Station.sent, hsolo]; rfl) (by rw [Station.tick, Station.tick, hsolo])
  · rw [hother]; exact h.same rfl (le_refl _)
  · rw [hk]; exact h.same rfl (le_refl _)
  · rwa [hother]

theorem run {s t : Link} {es : List LinkEv} {i : Side} (h : Skips (s i) n r) (hs : InStep s)
    (hrun : lockstep.run s es = some t) : InStep t ∧ Skips (t i) n r :=
  lockstep.run_invariant (I := fun s => InStep s ∧ Skips (s i) n r) (P := fun _ _ => True)
    (fun _ _ _ hI _ hst => ⟨hI.1.step hst, hI.2.step hI.1 hst⟩) ⟨hs, h⟩
    (lockstep.eachStep_of_forall (fun _ _ => trivial) es s) hrun

/-- Once the console has written again, the tick behind the record's own is in no window. -/
theorem gapped (h : Skips x n r) (hp : Paired x y) (hlt : n + 1 < x.sent.length) :
    ¬Gapless x.sent ∧ ¬Covered x.sent := by
  have hnext : x.sent[n + 1]? = some x.sent[n + 1] := List.getElem?_eq_getElem hlt
  have hfar := h.later (n + 1) _ (Nat.lt_succ_self n) hnext
  have hpos := hp.stamp_ge r (List.mem_of_getElem? h.record)
  rw [vowin_cast] at hfar
  constructor
  · intro hgap
    have := (abs_le.mp (hgap n _ _ h.record hnext)).2
    rw [vowin_cast] at this
    omega
  · intro hcov
    obtain ⟨q, hq, hwin, hle⟩ :=
      hcov _ (List.getElem_mem hlt) (r.stamp + 1) (by omega) (by omega)
    obtain ⟨m, hm⟩ := List.mem_iff_getElem?.mp hq
    rcases Nat.lt_or_ge n m with hbehind | hbefore
    · have := h.later m q hbehind hm
      rw [vowin_cast] at this hwin
      omega
    · have := mark_mono hp.skew.sorted hp.stamp_ge (Nat.succ_le_succ hbefore)
        (Nat.le_of_succ_le hlt)
      rw [mark_succ hm, mark_succ h.record] at this
      omega

end Skips

/-- A frame that is not prompt leaves its console two ticks past its newest record. -/
theorem skips_of_late {i : Side} {hw : Hw} {sim : Sim} (hlate : ¬Prompt s (.gate i hw sim))
    (hst : s.step (.gate i hw sim) = some t) :
    ∃ n r, n + 1 = (s i).sent.length ∧ Skips (t i) n r := by
  simp only [Prompt, Classical.not_imp, not_forall, not_le] at hlate
  obtain ⟨hadv, r, hr, htick⟩ := hlate
  have ht : t i = { s i with solo := (s i).solo.gate hw sim } := by
    simp only [Link.step, Option.ite_none_right_eq_some, Option.some.injEq] at hst
    rw [← hst.2, Function.update_self]
  have hnext : Station.tick { s i with solo := (s i).solo.gate hw sim } = (s i).tick + 1 := if_pos hadv
  rw [Option.mem_def, List.getLast?_eq_getElem?] at hr
  have hlt := (List.getElem?_eq_some_iff.mp hr).1
  refine ⟨(s i).sent.length - 1, r, Nat.sub_add_cancel (by omega), ?_⟩
  rw [ht]
  refine ⟨hr, by rw [hnext]; omega, ?_⟩
  intro m q hm hq
  have := (List.getElem?_eq_some_iff.mp hq).1
  change m < (s i).sent.length at this
  omega

/-- No tick is skipped by consoles that write in time. In a run whose frames are all prompt the stamps
    of consecutive records are at most a window apart, and the windows cover every tick up to the
    newest. And after a frame that is not prompt that is over for good: as soon as its console has
    written again, two of its records are further apart, and a tick is in no window. -/
theorem no_tick_skipped {s₀ : Link} (h₀ : lockstep.init s₀) (es : List LinkEv) :
    (lockstep.EachStep Prompt s₀ es → ∀ s, lockstep.run s₀ es = some s →
      ∀ i, Gapless (s i).sent ∧ Covered (s i).sent) ∧
    ∀ s, lockstep.run s₀ es = some s → ∀ i hw sim, ¬Prompt s (.gate i hw sim) →
      ∀ post t, lockstep.run s (.gate i hw sim :: post) = some t →
        (s i).sent.length < (t i).sent.length → ¬Gapless (t i).sent ∧ ¬Covered (t i).sent := by
  obtain ⟨hb, hs⟩ := begun_of_init h₀
  constructor
  · intro hclean s hrun i
    have hI := lockstep.run_invariant (I := fun s => Begun s ∧ ∀ i, Seamless (s i))
      (fun s e t hI hP hst => ⟨Begun.step hI.1 hst, (seamless_step hI.1 hI.2 hst).mpr hP⟩)
      ⟨hb, hs⟩ hclean hrun
    have hgap := gapless_of_seamless (hI.2 i)
    exact ⟨hgap, hgap.covered (hI.1.2 i).first⟩
  · intro s hrun i hw sim hlate post t hpost hwritten
    obtain ⟨u, hu, hrest⟩ := lockstep.run_cons_some.mp hpost
    change s.step (.gate i hw sim) = some u at hu
    obtain ⟨n, r, hn, hskips⟩ := skips_of_late hlate hu
    obtain ⟨ht, hskips⟩ := hskips.run ((inStep_of_reachable ⟨s₀, es, h₀, hrun⟩).step hu) hrest
    exact hskips.gapped (ht i) (by omega)

/-- Three exchanges, three ticks apart. -/
theorem no_tick_skipped_three : ∃ s, lockstep.run Link.rest threeExchanges = some s ∧
    (∀ i, (s i).sent.map Rec.stamp = [2, 5, 8] ∧ (s i).tick = 6) ∧
    ∀ i, Gapless (s i).sent ∧ Covered (s i).sent :=
  lockstep.exists_run_of (by decide +kernel) fun s hrun _ =>
    (no_tick_skipped init_rest threeExchanges).1 (by decide +kernel) s hrun

/-- In the backlog the host's second record is for tick 6, and no record of its is for tick 3. -/
theorem backlog_skips_a_tick : ¬∀ s, lockstep.Reachable s → ∀ i, Gapless (s i).sent ∧
    Covered (s i).sent := by
  intro hall
  obtain ⟨s, hrun, hsent⟩ := lockstep.exists_run (s := Link.rest) (e := backlog)
    (Q := fun s => (s .host).sent.map Rec.stamp = [2, 6]) (by decide +kernel)
  obtain ⟨hgap, -⟩ := hall s ⟨Link.rest, backlog, init_rest, hrun⟩ .host
  obtain ⟨a, as, hs, ha, has⟩ := List.map_eq_cons_iff.mp hsent
  obtain ⟨b, bs, rfl, hb, -⟩ := List.map_eq_cons_iff.mp has
  have := hgap 0 a b (by rw [hs]; rfl) (by rw [hs]; rfl)
  rw [ha, hb] at this
  exact absurd this (by decide)

end VO
