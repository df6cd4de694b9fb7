import VideoOlympics.Console.Immutable

/-! Stalls are invisible. The number of logic frames a console has run says where it stands: four a
    tick, so tick and phase are its quotient and remainder, and an advance happens at exactly the
    gate that finds a whole number of ticks run. What those frames are shown is a function of the
    tick alone, whatever gates stalled between them. -/

namespace VO

/-! ### Four logic frames to a tick -/

/-- Where a console stands by the count of its logic frames. -/
structure Paced (s : Solo) : Prop where
  sound : Sound s
  mid : phaseOf s.con.voent ≠ 0 → has s.con.voent voeRan = true
  count : (s.tape.shown.length : ℤ) = vok * nextTick s + phaseOf s.con.voent
  shown : ∀ (i : ℕ) x, s.tape.shown[i]? = some x →
    x.tick = (i : ℤ) / vok ∧ x.votick = BitVec.ofInt 8 ((i : ℤ) / vok)

variable {s : Solo} {hw : Hw} {sim : Sim}

theorem advances_iff (c : Console) :
    advances c = true ↔ phaseOf c.voent = 0 ∧ has c.voent voeRan = true := by
  simp [advances]

theorem gate_con (hw : Hw) (sim : Sim) (s : Solo) : (s.gate hw sim).con = frame hw sim s.con := rfl

theorem gate_shown_run (h : (frame hw sim s.con).voadv ≠ 0) : (s.gate hw sim).tape.shown =
    s.tape.shown ++ [Shown.of (nextTick s) (frame hw sim s.con)] := by
  simp only [Solo.gate, Tape.gate, bne_iff_ne]
  rw [if_pos h]
  rfl

theorem gate_shown_stall (h : (frame hw sim s.con).voadv = 0) :
    (s.gate hw sim).tape.shown = s.tape.shown := by
  simp [Solo.gate, Tape.gate, h]

/-- A new logic frame belongs to the tick its index says. -/
theorem Paced.shown_append (h : Paced s) {x : Shown} (ht : x.tick = nextTick s)
    (hv : x.votick = BitVec.ofInt 8 (nextTick s)) (i : ℕ) (y : Shown)
    (hy : (s.tape.shown ++ [x])[i]? = some y) :
    y.tick = (i : ℤ) / vok ∧ y.votick = BitVec.ofInt 8 ((i : ℤ) / vok) := by
  rcases Nat.lt_or_ge i s.tape.shown.length with hlt | hge
  · rw [List.getElem?_append_left hlt] at hy
    exact h.shown i y hy
  · have hi : i = s.tape.shown.length := by
      by_contra hne
      rw [List.getElem?_eq_none (by rw [List.length_append, List.length_singleton]; omega)] at hy
      simp at hy
    rw [hi, List.getElem?_concat_length, Option.some.injEq] at hy
    have hq : (i : ℤ) / vok = nextTick s := by
      have hc := h.count
      have hlt := phaseOf_lt s.con.voent
      rw [vok_cast] at hc ⊢
      omega
    rw [← hy, hq]
    exact ⟨ht, hv⟩

theorem Paced.gate (h : Paced s) (hw : Hw) (sim : Sim) : Paced (s.gate hw sim) := by
  have hv := h.sound.gate_votick hw sim
  have hcount := h.count
  rw [vok_cast] at hcount
  rcases frame_cases hw sim s.con h.sound.net with ⟨-, hmid | hrun | hstall⟩
  · have hran := h.mid hmid.before
    have hlt := phaseOf_lt s.con.voent
    have hadv : advances (frame hw sim s.con) = decide (phaseOf s.con.voent = 3) := by
      have hb := hmid.before
      simp only [advances, hmid.ran, hran, hmid.phase, Bool.and_true, beq_eq_decide]
      exact decide_eq_decide.mpr (by omega)
    have hnext : nextTick (s.gate hw sim) =
        if phaseOf s.con.voent = 3 then nextTick s + 1 else nextTick s := by
      rw [nextTick, gate_tick, gate_con, hadv]
      simp
    refine ⟨h.sound.gate hw sim, fun _ => hmid.ran.trans hran, ?_, ?_⟩
    · rw [hnext, gate_shown_run hmid.adv, gate_con, hmid.phase, List.length_append,
        List.length_singleton, vok_cast]
      split <;> push_cast <;> omega
    · rw [gate_shown_run hmid.adv]
      exact h.shown_append rfl hv
  · have hadv : advances (frame hw sim s.con) = false := by simp [advances, hrun.phase]
    have hnext : nextTick (s.gate hw sim) = nextTick s := by
      rw [nextTick, gate_tick, gate_con, hadv, if_neg Bool.false_ne_true]
    refine ⟨h.sound.gate hw sim, fun _ => hrun.ran, ?_, ?_⟩
    · rw [hnext, gate_shown_run hrun.adv, gate_con, hrun.phase, List.length_append,
        List.length_singleton, vok_cast]
      have := hrun.before
      push_cast
      omega
    · rw [gate_shown_run hrun.adv]
      exact h.shown_append rfl hv
  · have hadv : advances (frame hw sim s.con) = false := by simp [advances, hstall.ran]
    have hnext : nextTick (s.gate hw sim) = nextTick s := by
      rw [nextTick, gate_tick, gate_con, hadv, if_neg Bool.false_ne_true]
    refine ⟨h.sound.gate hw sim, fun hne => absurd hstall.phase hne, ?_, ?_⟩
    · rw [hnext, gate_shown_stall hstall.adv, gate_con, hstall.phase]
      rw [hstall.before] at hcount
      exact hcount
    · rw [gate_shown_stall hstall.adv]
      exact h.shown

theorem Kept.advances {c c' : Console} (k : Kept c c') : VO.advances c' = VO.advances c := by
  simp only [VO.advances, k.phase, k.ran]

theorem micro_nextTick (s : Solo) (m : Mail) : nextTick (s.micro m) = nextTick s := by
  rw [nextTick, nextTick, (micro_same s m).1]
  simp only [Solo.micro, (kept_vonstep m s.con s.regs).advances]

theorem Paced.micro (h : Paced s) (m : Mail) : Paced (s.micro m) := by
  have k : Kept s.con (s.micro m).con := kept_vonstep m s.con s.regs
  obtain ⟨-, -, -, -, hshown⟩ := micro_same s m
  refine ⟨h.sound.micro m, ?_, ?_, ?_⟩
  · rw [k.phase, k.ran]; exact h.mid
  · rw [hshown, micro_nextTick, k.phase]; exact h.count
  · rw [hshown]; exact h.shown

theorem Paced.step {t : Solo} {e : SoloEv} (h : Paced s) (hst : s.step e = some t) : Paced t := by
  rcases Solo.step_cases hst with ⟨-, ⟨hw, sim, -, rfl⟩ | ⟨m, -, rfl⟩⟩
  · exact h.gate hw sim
  · exact h.micro m

theorem Paced.start_of (role : Byte) (hw : Hw) (c : Console) (r : Regs) :
    Paced (Solo.start role hw c r) := by
  obtain ⟨-, -, -, -, -, he, -⟩ := start_con role hw c r
  have hph : phaseOf (Solo.start role hw c r).con.voent = 0 := he ▸ (start_voent role).2.2.2.1
  have hran : has (Solo.start role hw c r).con.voent voeRan = true := he ▸ (start_voent role).2.1
  have hnext : nextTick (Solo.start role hw c r) = 0 := by
    rw [nextTick, if_pos ((advances_iff _).mpr ⟨hph, hran⟩)]
    rfl
  refine ⟨Sound.start_of role hw c r, fun hne => absurd hph hne, ?_, ?_⟩
  · rw [hnext, hph]; rfl
  · intro i x hx; simp [Solo.start, Tape.blank] at hx

theorem paced_of_reachable (h : solo.Reachable s) : Paced s :=
  solo.reachable_invariant
    (fun _ ⟨role, hw, c, r, hs⟩ => hs ▸ Paced.start_of role hw c r)
    (fun _ _ _ hI hst => hI.step hst) h

/-- The gate that advances is the first to find the fourth frame of the last tick run. -/
theorem Paced.advances_iff_count (h : Paced s) :
    advances s.con = true ↔ (s.tape.shown.length : ℤ) = vok * (s.tape.tick + 1) := by
  have hc := h.count
  have hlt := phaseOf_lt s.con.voent
  rw [vok_cast] at hc ⊢
  cases hadv : advances s.con with
  | true =>
    have hph := ((advances_iff s.con).mp hadv).1
    simp only [nextTick, hadv, if_true] at hc
    simp only [true_iff]
    omega
  | false =>
    simp only [nextTick, hadv, Bool.false_eq_true, if_false] at hc
    simp only [Bool.false_eq_true, false_iff]
    omega

/-! ### What the frames are shown -/

/-- The inputs of a match by tick: what the boundary of each tick captures, the B&W switch the mixer
    reads in it, and the peer's bytes the ring holds for it when it runs. -/
structure Script where
  cap : ℤ → Byte × Byte
  bw : ℤ → Byte
  peer : ℤ → Byte × Byte

/-- The event takes its inputs from the script. -/
def Fed (f : Script) (s : Solo) : SoloEv → Prop
  | .gate hw sim =>
    (advances s.con = true → capture hw s.con = f.cap (s.gate hw sim).tape.tick) ∧
    (ranTick s.con (frame hw sim s.con) = true →
      hw.swchb &&& 0x08#8 = f.bw (s.gate hw sim).tape.tick ∧
      ringAt (frame hw sim s.con).voring vorm (frame hw sim s.con).votick =
        f.peer (s.gate hw sim).tape.tick)
  | .micro _ => True

instance (f : Script) (s : Solo) : ∀ e, Decidable (Fed f s e)
  | .gate _ _ => inferInstanceAs (Decidable ((_ → _ = _) ∧ (_ → _ ∧ _)))
  | .micro _ => .isTrue trivial

/-- Our own bytes for a tick: idle for the two ticks before the first capture's, then the capture of
    two ticks ago. -/
def Script.own (f : Script) (t : ℤ) : Byte × Byte :=
  if t ≤ 1 then (vopIdle, iwIdle) else f.cap (t - 2)

/-- What a logic frame of tick `t` sees. -/
def Script.view (f : Script) (role : Bool) (t : ℤ) : Shown :=
  let h := hostOf role (f.own t) (f.peer t)
  let g := hostOf role (f.peer t) (f.own t)
  ⟨t, BitVec.ofInt 8 t, h.1, 0, g.1, 0, mixSwa h.2 g.2, mixSwb (f.bw t) h.2 g.2⟩

/-- A console that has been fed by the script so far. -/
structure Follows (f : Script) (role : Bool) (s : Solo) : Prop where
  paced : Paced s
  player : has s.con.voent voeRole = role
  pads : s.con.vopad1 = 0 ∧ s.con.vopad3 = 0
  own : ∀ t ≤ s.tape.tick + 2, s.tape.cap t = f.own t
  mid : phaseOf s.con.voent ≠ 0 → Shown.of s.tape.tick s.con = f.view role s.tape.tick
  views : ∀ (i : ℕ) x, s.tape.shown[i]? = some x → x = f.view role x.tick

/-- The mixer takes one bit of the port. -/
theorem mixSwb_bw (swchb h g : Byte) : mixSwb swchb h g = mixSwb (swchb &&& 0x08#8) h g := by
  rw [mixSwb, mixSwb, mixTmp, mixTmp, BitVec.and_assoc, BitVec.and_self]

variable {f : Script} {role : Bool}

theorem Follows.gate_own (h : Follows f role s) (sim : Sim)
    (hfed : advances s.con = true → capture hw s.con = f.cap (nextTick s)) :
    ∀ t ≤ nextTick s + 2, (s.gate hw sim).tape.cap t = f.own t := by
  intro t ht
  by_cases hle : t ≤ s.tape.tick + 2
  · rw [gate_cap_of_le hle]
    exact h.own t hle
  · have hadv : advances s.con = true := by
      by_contra hn
      rw [nextTick, if_neg hn] at ht
      omega
    have hnext : nextTick s = s.tape.tick + 1 := if_pos hadv
    have heq : t = s.tape.tick + 3 := by omega
    have hstart := h.paced.sound.start
    rw [heq, h.paced.sound.gate_capture hadv, hfed hadv, Script.own, if_neg (by omega), hnext]
    congr 1
    omega

/-- A running tick shows the script's view of it. -/
theorem Follows.gate_view (h : Follows f role s) (hrun : RunTick hw s.con (frame hw sim s.con))
    (hown : (s.gate hw sim).tape.cap (nextTick s) = f.own (nextTick s))
    (hbw : hw.swchb &&& 0x08#8 = f.bw (nextTick s))
    (hpeer : ringAt (frame hw sim s.con).voring vorm (frame hw sim s.con).votick =
      f.peer (nextTick s)) :
    Shown.of (nextTick s) (frame hw sim s.con) = f.view role (nextTick s) := by
  obtain ⟨hg, -⟩ := frame_cases hw sim s.con h.paced.sound.net
  have hv := h.paced.sound.gate_votick hw sim
  have hloc : ringAt (frame hw sim s.con).voloc volm (BitVec.ofInt 8 (nextTick s)) =
      f.own (nextTick s) := by
    rw [← localRing_get, h.paced.sound.gate_loc (by omega) (by omega), hown]
  rw [hv] at hpeer
  simp only [Shown.of, Script.view, hrun.host, hrun.guest, hrun.swa, hrun.swb, hloc, hpeer, h.player,
    hg.pad1, hg.pad3, h.pads, mixSwb_bw hw.swchb, hbw, hv]

theorem views_append (h : Follows f role s) {x : Shown} (hx : x = f.view role x.tick) (i : ℕ)
    (y : Shown) (hy : (s.tape.shown ++ [x])[i]? = some y) : y = f.view role y.tick := by
  have hmem := List.mem_of_getElem? hy
  rcases List.mem_append.mp hmem with hm | hm
  · obtain ⟨j, hj⟩ := List.mem_iff_getElem?.mp hm
    exact h.views j y hj
  · rw [List.mem_singleton.mp hm]
    exact hx

theorem Follows.gate (h : Follows f role s) (hfed : Fed f s (.gate hw sim)) :
    Follows f role (s.gate hw sim) := by
  obtain ⟨hcap, htake⟩ := hfed
  obtain ⟨hg, hcase⟩ := frame_cases hw sim s.con h.paced.sound.net
  have hown := h.gate_own sim hcap
  have hrole : has (frame hw sim s.con).voent voeRole = role := hg.role.trans h.player
  have hpads : (frame hw sim s.con).vopad1 = 0 ∧ (frame hw sim s.con).vopad3 = 0 :=
    ⟨hg.pad1.trans h.pads.1, hg.pad3.trans h.pads.2⟩
  rcases hcase with hmid | hrun | hstall
  · have hnext : nextTick s = s.tape.tick := by simp [nextTick, advances, hmid.before]
    have hv : (frame hw sim s.con).votick = s.con.votick := by
      rw [h.paced.sound.gate_votick, hnext, h.paced.sound.votick]
    have hsame : Shown.of (nextTick s) (frame hw sim s.con) = f.view role (nextTick s) := by
      rw [hnext, ← h.mid hmid.before]
      simp only [Shown.of, hv, hg.pad1, hg.pad3, hmid.shadows.pad0, hmid.shadows.pad2,
        hmid.shadows.swa, hmid.shadows.swb]
    refine ⟨h.paced.gate hw sim, hrole, hpads, hown, fun _ => hsame, ?_⟩
    rw [gate_shown_run hmid.adv]
    exact views_append h hsame
  · obtain ⟨hbw, hpeer⟩ := htake (by simpa [ranTick, hrun.before] using hrun.adv)
    have hview := h.gate_view hrun (hown _ (by omega)) hbw hpeer
    refine ⟨h.paced.gate hw sim, hrole, hpads, hown, fun _ => hview, ?_⟩
    rw [gate_shown_run hrun.adv]
    exact views_append h hview
  · refine ⟨h.paced.gate hw sim, hrole, hpads, hown, fun hne => absurd hstall.phase hne, ?_⟩
    rw [gate_shown_stall hstall.adv]
    exact h.views

theorem Follows.micro (h : Follows f role s) (m : Mail) : Follows f role (s.micro m) := by
  have k : Kept s.con (s.micro m).con := kept_vonstep m s.con s.regs
  obtain ⟨htick, hcap, -, -, hshown⟩ := micro_same s m
  obtain ⟨h0, h1, h2, h3⟩ := k.pads
  refine ⟨h.paced.micro m, k.role.trans h.player, ⟨h1.trans h.pads.1, h3.trans h.pads.2⟩, ?_, ?_, ?_⟩
  · rw [htick, hcap]; exact h.own
  · rw [k.phase, htick]
    simp only [Shown.of, k.votick, h0, h1, h2, h3, k.switches.1, k.switches.2]
    exact h.mid
  · rw [hshown]; exact h.views

theorem Follows.step {t : Solo} {e : SoloEv} (h : Follows f role s) (hfed : Fed f s e)
    (hst : s.step e = some t) : Follows f role t := by
  rcases Solo.step_cases hst with ⟨-, ⟨hw, sim, rfl, rfl⟩ | ⟨m, -, rfl⟩⟩
  · exact h.gate hfed
  · exact h.micro m

theorem Follows.start_of (f : Script) (role : Byte) (hw : Hw) (c : Console) (r : Regs) :
    Follows f (has role 1) (Solo.start role hw c r) := by
  have hp := Paced.start_of role hw c r
  obtain ⟨-, -, -, -, -, he, -⟩ := start_con role hw c r
  refine ⟨hp, he ▸ (start_voent role).2.2.2.2, ⟨rfl, rfl⟩, ?_, ?_, ?_⟩
  · intro t ht
    have ht' : t ≤ 1 := ht
    rw [Script.own, if_pos ht']
    rfl
  · exact fun hne => absurd (he ▸ (start_voent role).2.2.2.1) hne
  · intro i x hx; simp [Solo.start, Tape.blank] at hx

/-- Frame `i` of a fed console is shown the script's view of tick `i / 4`. -/
theorem Follows.shown_eq (h : Follows f role s) {i : ℕ} {x : Shown}
    (hx : s.tape.shown[i]? = some x) : x = f.view role ((i : ℤ) / vok) := by
  rw [h.views i x hx, (h.paced.shown i x hx).1]

/-! ### The stalled frame -/

/-- Neither the phase, nor who plays whom, nor anything the game reads has moved. -/
structure Unmoved (c c' : Console) : Prop where
  phase : phaseOf c'.voent = phaseOf c.voent
  net : has c'.voent voeNet = has c.voent voeNet
  role : has c'.voent voeRole = has c.voent voeRole
  pads : c'.vopad0 = c.vopad0 ∧ c'.vopad1 = c.vopad1 ∧ c'.vopad2 = c.vopad2 ∧ c'.vopad3 = c.vopad3
  switches : c'.voswa = c.voswa ∧ c'.voswb = c.voswb

theorem Kept.unmoved {c c' : Console} (k : Kept c c') : Unmoved c c' :=
  ⟨k.phase, k.net, k.role, k.pads, k.switches⟩

theorem unmoved_of_stall (h : Sound s) (hadv : (frame hw sim s.con).voadv = 0) :
    Unmoved s.con (frame hw sim s.con) := by
  rcases frame_cases hw sim s.con h.net with ⟨hg, hmid | hrun | hstall⟩
  · exact absurd hadv hmid.adv
  · exact absurd hadv hrun.adv
  · exact ⟨hstall.phase.trans hstall.before.symm, hg.net, hg.role,
      ⟨hstall.shadows.pad0, hg.pad1, hstall.shadows.pad2, hg.pad3⟩,
      ⟨hstall.shadows.swa, hstall.shadows.swb⟩⟩

/-- The tick, the sample and the capture, moved as one. -/
def MovedOn (hw : Hw) (s t : Solo) : Prop :=
  t.tape.tick = s.tape.tick + 1 ∧ t.con.votick = s.con.votick + 1 ∧
  t.con.vocrcv = s.con.vocrck ∧
  t.con.voloc = ringPut s.con.voloc volm (s.con.votick + 1 + vod) (capture hw s.con).1
    (capture hw s.con).2

/-- None of the three moved. -/
def StayedPut (s t : Solo) : Prop :=
  t.tape.tick = s.tape.tick ∧ t.con.votick = s.con.votick ∧ t.con.vocrcv = s.con.vocrcv ∧
  t.con.voloc = s.con.voloc

theorem Paced.gate_moves (h : Paced s) (hw : Hw) (sim : Sim) :
    if (s.tape.shown.length : ℤ) = vok * (s.tape.tick + 1) then MovedOn hw s (s.gate hw sim)
    else StayedPut s (s.gate hw sim) := by
  obtain ⟨hg, -⟩ := frame_cases hw sim s.con h.sound.net
  split
  · rename_i hcount
    have hadv := h.advances_iff_count.mpr hcount
    exact ⟨if_pos hadv, hg.votick.trans (if_pos hadv), hg.vocrcv.trans (if_pos hadv),
      hg.voloc.trans (if_pos hadv)⟩
  · rename_i hcount
    have hadv : ¬advances s.con = true := fun h' => hcount (h.advances_iff_count.mp h')
    exact ⟨if_neg hadv, hg.votick.trans (if_neg hadv), hg.vocrcv.trans (if_neg hadv),
      hg.voloc.trans (if_neg hadv)⟩

/-- Stalls are invisible: two runs of one console fed by the same script show their logic frames
    the same things, whatever gates stalled. In every run a tick is shown to four frames in a row;
    tick, sample and capture move as one, at the gate that finds the last tick's four frames run and
    at no other; and neither a stalled gate nor a micro-step moves the phase, the role or the
    shadows. -/
theorem stalls_invisible {f : Script} {s₀ s₁ s₂ : Solo} {es₁ es₂ : List SoloEv} (h₀ : solo.init s₀)
    (h₁ : solo.run s₀ es₁ = some s₁) (f₁ : solo.EachStep (Fed f) s₀ es₁)
    (h₂ : solo.run s₀ es₂ = some s₂) (f₂ : solo.EachStep (Fed f) s₀ es₂) :
    (∀ (i : ℕ) x y, s₁.tape.shown[i]? = some x → s₂.tape.shown[i]? = some y → x = y) ∧
    ∀ s, solo.Reachable s →
      (∀ (i : ℕ) x, s.tape.shown[i]? = some x →
        x.tick = (i : ℤ) / vok ∧ x.votick = BitVec.ofInt 8 ((i : ℤ) / vok)) ∧
      (∀ hw sim, if (s.tape.shown.length : ℤ) = vok * (s.tape.tick + 1)
        then MovedOn hw s (s.gate hw sim) else StayedPut s (s.gate hw sim)) ∧
      (∀ hw sim, (s.gate hw sim).con.voadv = 0 → Unmoved s.con (s.gate hw sim).con) ∧
      (∀ m, Unmoved s.con (s.micro m).con) := by
  obtain ⟨role, hw, c, r, rfl⟩ := h₀
  refine ⟨?_, ?_⟩
  · intro i x y hx hy
    have hI := Follows.start_of f role hw c r
    have hF₁ := solo.run_invariant (fun _ _ _ hI hP hst => hI.step hP hst) hI f₁ h₁
    have hF₂ := solo.run_invariant (fun _ _ _ hI hP hst => hI.step hP hst) hI f₂ h₂
    rw [hF₁.shown_eq hx, hF₂.shown_eq hy]
  · intro s hs
    have hp := paced_of_reachable hs
    exact ⟨hp.shown, fun hw sim => hp.gate_moves hw sim,
      fun hw sim hadv => unmoved_of_stall hp.sound hadv,
      fun m => (kept_vonstep m s.con s.regs).unmoved⟩

/-- One stall or three before the first record comes, and another three between two micro-steps: the
    frames of tick 0 show the same. -/
theorem stalls_invisible_rest :
    let bytes := recordBytes 2 (0x50, 0xFF) (0x40, 0xFF) (0x30, 0xFF) 0
    ∃ s₁ s₂, solo.run Solo.rest (restFrames 1 ++ firstRecord bytes ++ restFrames 3) = some s₁ ∧
      solo.run Solo.rest (restFrames 3 ++ (firstRecord bytes).take 4 ++ restFrames 3 ++
        (firstRecord bytes).drop 4 ++ restFrames 6) = some s₂ ∧
      s₁.tape.shown.map Shown.pad2 = [0x30, 0x30, 0x30] ∧
      s₂.tape.shown.map Shown.pad2 = [0x30, 0x30, 0x30, 0x30, 0x40, 0x40] ∧
      ∀ (i : ℕ) x y, s₁.tape.shown[i]? = some x → s₂.tape.shown[i]? = some y → x = y := by
  intro bytes
  obtain ⟨s₁, h₁, hp₁⟩ := solo.exists_run (s := Solo.rest)
    (e := restFrames 1 ++ firstRecord bytes ++ restFrames 3)
    (Q := fun s => s.tape.shown.map Shown.pad2 = [0x30, 0x30, 0x30]) (by decide +kernel)
  obtain ⟨s₂, h₂, hp₂⟩ := solo.exists_run (s := Solo.rest)
    (e := restFrames 3 ++ (firstRecord bytes).take 4 ++ restFrames 3 ++
      (firstRecord bytes).drop 4 ++ restFrames 6)
    (Q := fun s => s.tape.shown.map Shown.pad2 = [0x30, 0x30, 0x30, 0x30, 0x40, 0x40])
    (by decide +kernel)
  -- what the two runs are fed: nothing pressed here, a paddle moving sixteen a tick there
  refine ⟨s₁, s₂, h₁, h₂, hp₁, hp₂, (stalls_invisible (f := ⟨fun _ => (0, 0xFF), fun _ => 0x08,
    fun t => (0x30 + 0x10 * BitVec.ofInt 8 t, 0xFF)⟩)
    ⟨0, Hw.rest, Console.cleared, Regs.cleared, rfl⟩ h₁ ?_ h₂ ?_).1⟩
  · decide +kernel
  · decide +kernel

end VO
