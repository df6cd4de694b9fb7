import VideoOlympics.Lockstep.Bound

/-! Lockstep agreement. Both consoles mix the same two captures as long as the slot a running tick
    reads was filled for that tick: by a record already consumed whose window holds it, or, for the
    two ticks no console ever captures, by the idle bytes the ring is seeded with. The watermark
    alone does not promise that: a batch is consumed newest first and the watermark jumps with its
    first step. -/

namespace VO

/-- The slot the tick reads was last written for that tick. -/
def Station.Holds (x : Station) (t : ℤ) : Prop :=
  Windows.lastWrite 8 vowin x.eaten t = some t ∨
    (Windows.lastWrite 8 vowin x.eaten t = none ∧ t ≤ 1)

instance (x : Station) (t : ℤ) : Decidable (x.Holds t) := inferInstanceAs (Decidable (_ ∨ _))

/-- A frame that lets a tick run finds the peer's input for it in the ring. -/
def Sourced (s : Link) : LinkEv → Prop
  | .gate i _ _ => phaseOf (s i).solo.con.voent = 0 → nextTick (s i).solo ≤ (s i).wat →
      (s i).Holds (nextTick (s i).solo)
  | _ => True

instance (s : Link) : ∀ e, Decidable (Sourced s e)
  | .gate _ _ _ => inferInstanceAs (Decidable (_ → _ → _))
  | .micro _ => .isTrue trivial
  | .answer _ => .isTrue trivial
  | .arrive _ _ => .isTrue trivial

/-! ### What a logic frame shows -/

/-- The switch byte but for B&W, bit 3. -/
def butBw (b : Byte) : Byte := b &&& 0xF7#8

/-- The frame is shown the mix of the two captures for its tick, the host's first. -/
def Shown.Mixes (h g : ℤ → Byte × Byte) (e : Shown) : Prop :=
  e.pad0 = (h e.tick).1 ∧ e.pad2 = (g e.tick).1 ∧ e.swa = mixSwa (h e.tick).2 (g e.tick).2 ∧
  butBw e.swb = butBw (mixSwb 0 (h e.tick).2 (g e.tick).2)

theorem butBw_mixSwb (swchb h g : Byte) : butBw (mixSwb swchb h g) = butBw (mixSwb 0 h g) := by
  have hbit : (swchb &&& 0x08#8) &&& 0xF7#8 = ((0 : Byte) &&& 0x08#8) &&& 0xF7#8 := by
    rw [BitVec.and_assoc, BitVec.and_assoc]
    exact BitVec.and_zero
  simp only [mixSwb, mixTmp, butBw, BitVec.and_or_distrib_right, hbit]

/-- Two captures in the order host, guest. -/
def hostCap (role : Bool) (own peer : ℤ → Byte × Byte) (t : ℤ) : Byte × Byte :=
  hostOf role (own t) (peer t)

/-- What one console has shown, in terms of both consoles' captures. -/
structure Agreed (role : Bool) (x y : Station) : Prop where
  player : has x.solo.con.voent voeRole = role
  ring : remoteRing.Holds vowin id (fun _ => y.solo.tape.cap) (vopIdle, iwIdle) x.eaten
    x.solo.con.voring
  mid : phaseOf x.solo.con.voent ≠ 0 → x.tick ≤ y.tick + 2 ∧
    (Shown.of x.tick x.solo.con).Mixes (hostCap role x.solo.tape.cap y.solo.tape.cap)
      (hostCap role y.solo.tape.cap x.solo.tape.cap)
  shown : ∀ e ∈ x.solo.tape.shown, e.tick ≤ x.tick ∧ e.tick ≤ y.tick + 2 ∧
    e.Mixes (hostCap role x.solo.tape.cap y.solo.tape.cap)
      (hostCap role y.solo.tape.cap x.solo.tape.cap)

/-- A mix is of what was captured by then, so later captures do not change it. -/
theorem Shown.Mixes.congr {role : Bool} {own own' peer peer' : ℤ → Byte × Byte} {e : Shown}
    (h : e.Mixes (hostCap role own peer) (hostCap role peer own)) (ho : own' e.tick = own e.tick)
    (hp : peer' e.tick = peer e.tick) :
    e.Mixes (hostCap role own' peer') (hostCap role peer' own') := by
  simpa only [Mixes, hostCap, ho, hp] using h

section
variable {x y : Station} {role : Bool}

/-! ### The ring -/

/-- The remote ring is what the consumed records have made of the seed. -/
def Stored (x y : Station) : Prop :=
  remoteRing.Holds vowin id (fun _ => y.solo.tape.cap) (vopIdle, iwIdle) x.eaten x.solo.con.voring

theorem Stored.congr {x' y' : Station} (h : Stored x y)
    (hring : x'.solo.con.voring = x.solo.con.voring) (heaten : x'.eaten = x.eaten)
    (hcap : y'.solo.tape.cap = y.solo.tape.cap) : Stored x' y' := by
  rw [Stored, hring, heaten, hcap]
  exact h

/-- The peer's next capture is for a tick no consumed record reaches. -/
theorem Stored.gate_peer (h : Stored x y) (hp : Paired x y) (hp' : Paired y x) (hw : Hw)
    (sim : Sim) : Stored x { y with solo := y.solo.gate hw sim } := by
  refine Windows.Ring.Holds.congr h fun (s : ℤ) hs u _ (hu : u ≤ s) => (gate_cap_of_le ?_).symm
  have h1 := hp.skew.eaten s hs
  have h2 := hp.wat_le hp'
  rw [Station.tick] at h2
  omega

theorem Stored.micro_own (h : Stored x y) (hp : Paired x y) (hp' : Paired y x) :
    Stored (x.micro y.sent) y := by
  rcases hp.micro_cases hp' with ⟨r, j, -, -, -, -, -, hc⟩ | hu
  · rw [Stored, hc.con, hc.eaten, take_voring]
    exact remoteRing.holds_cons (by decide) h r.stamp
  · exact h.congr hu.voring hu.eaten rfl

/-- A tick the slot was filled for is the peer's capture of it. -/
theorem Agreed.ring_get (h : Agreed role x y) (hy : Sound y.solo) {t : ℤ} (ht : x.Holds t) :
    remoteRing.get x.solo.con.voring t = y.solo.tape.cap t := by
  rw [h.ring t]
  rcases ht with hsome | ⟨hnone, hle⟩
  · obtain ⟨s, hs, hst⟩ := Option.map_eq_some_iff.mp hsome
    rw [hs, Option.elim_some]
    exact congrArg _ hst
  · rw [Option.map_eq_none_iff.mp hnone, hy.idle t hle]
    rfl

/-! ### A frame -/

/-- A running tick mixes the two captures for it. -/
theorem Agreed.run_mixes (h : Agreed role x y) (hx : Sound x.solo) (hy : Sound y.solo) {hw : Hw}
    {sim : Sim} (hrun : RunTick hw x.solo.con (frame hw sim x.solo.con))
    (ht : x.Holds (nextTick x.solo)) :
    (Shown.of (nextTick x.solo) (frame hw sim x.solo.con)).Mixes
      (hostCap role (x.solo.gate hw sim).tape.cap y.solo.tape.cap)
      (hostCap role y.solo.tape.cap (x.solo.gate hw sim).tape.cap) := by
  obtain ⟨hg, -⟩ := frame_cases hw sim x.solo.con hx.net
  have hv := hx.gate_votick hw sim
  have hown : ringAt (frame hw sim x.solo.con).voloc volm (frame hw sim x.solo.con).votick =
      (x.solo.gate hw sim).tape.cap (nextTick x.solo) := by
    rw [hv, ← localRing_get, hx.gate_loc (by omega) (by omega)]
  have hpeer : ringAt (frame hw sim x.solo.con).voring vorm (frame hw sim x.solo.con).votick =
      y.solo.tape.cap (nextTick x.solo) := by
    rw [hv, ← remoteRing_get, hg.voring, h.ring_get hy ht]
  simp only [Shown.Mixes, Shown.of, hostCap, hrun.host, hrun.guest, hrun.swa, hrun.swb, hown, hpeer,
    h.player, butBw_mixSwb hw.swchb, and_self]

theorem Agreed.gate_own (h : Agreed role x y) (hp : Paired x y) (hp' : Paired y x) {hw : Hw}
    {sim : Sim} (hsrc : phaseOf x.solo.con.voent = 0 → nextTick x.solo ≤ x.wat →
      x.Holds (nextTick x.solo)) :
    Agreed role { x with solo := x.solo.gate hw sim } y := by
  obtain ⟨hg, hcase⟩ := frame_cases hw sim x.solo.con hp.sound.net
  obtain ⟨hlo, hhi, -⟩ := hp.nextTick_le
  have hkeep : ∀ e : Shown, e.tick ≤ x.tick →
      e.Mixes (hostCap role x.solo.tape.cap y.solo.tape.cap)
        (hostCap role y.solo.tape.cap x.solo.tape.cap) →
      e.Mixes (hostCap role (x.solo.gate hw sim).tape.cap y.solo.tape.cap)
        (hostCap role y.solo.tape.cap (x.solo.gate hw sim).tape.cap) :=
    fun e he hm => hm.congr (gate_cap_of_le (by rw [Station.tick] at he; omega)) rfl
  have hold : ∀ e ∈ x.solo.tape.shown, e.tick ≤ nextTick x.solo ∧ e.tick ≤ y.tick + 2 ∧
      e.Mixes (hostCap role (x.solo.gate hw sim).tape.cap y.solo.tape.cap)
        (hostCap role y.solo.tape.cap (x.solo.gate hw sim).tape.cap) := by
    intro e he
    obtain ⟨h1, h2, h3⟩ := h.shown e he
    exact ⟨h1.trans hlo, h2, hkeep e h1 h3⟩
  have hring : remoteRing.Holds vowin id (fun _ => y.solo.tape.cap) (vopIdle, iwIdle) x.eaten
      (frame hw sim x.solo.con).voring := hg.voring ▸ h.ring
  have hnew : (frame hw sim x.solo.con).voadv ≠ 0 → nextTick x.solo ≤ y.tick + 2 →
      (Shown.of (nextTick x.solo) (frame hw sim x.solo.con)).Mixes
        (hostCap role (x.solo.gate hw sim).tape.cap y.solo.tape.cap)
        (hostCap role y.solo.tape.cap (x.solo.gate hw sim).tape.cap) →
      ∀ e ∈ (x.solo.gate hw sim).tape.shown, e.tick ≤ nextTick x.solo ∧ e.tick ≤ y.tick + 2 ∧
        e.Mixes (hostCap role (x.solo.gate hw sim).tape.cap y.solo.tape.cap)
          (hostCap role y.solo.tape.cap (x.solo.gate hw sim).tape.cap) := by
    intro hadv hle hm e he
    simp only [Solo.gate, Tape.gate, bne_iff_ne, if_pos hadv] at he
    rcases List.mem_append.mp he with he | he
    · exact hold e he
    · rw [List.mem_singleton.mp he]
      exact ⟨le_refl _, hle, hm⟩
  rcases hcase with hmid | hrun | hstall
  · have hnext : nextTick x.solo = x.tick := by simp [nextTick, advances, hmid.before, Station.tick]
    obtain ⟨hle, hm⟩ := h.mid hmid.before
    have hsame : (Shown.of (nextTick x.solo) (frame hw sim x.solo.con)).Mixes
        (hostCap role (x.solo.gate hw sim).tape.cap y.solo.tape.cap)
        (hostCap role y.solo.tape.cap (x.solo.gate hw sim).tape.cap) := by
      have := hkeep _ (le_refl _) hm
      simpa only [Shown.Mixes, Shown.of, hnext, hmid.shadows.pad0, hmid.shadows.pad2,
        hmid.shadows.swa, hmid.shadows.swb] using this
    exact ⟨hg.role.trans h.player, hring, fun _ => ⟨hnext.le.trans hle, hsame⟩,
      hnew hmid.adv (hnext.le.trans hle) hsame⟩
  · have hready := hrun.ready
    rw [hp.ready_iff hp' hlo hhi (hp.sound.gate_votick hw sim) hg.vorwat] at hready
    have hwat := of_decide_eq_true hready
    have hle := hwat.trans (hp.wat_le hp')
    have hm := h.run_mixes hp.sound hp'.sound hrun (hsrc hrun.before hwat)
    exact ⟨hg.role.trans h.player, hring, fun _ => ⟨hle, hm⟩, hnew hrun.adv hle hm⟩
  · refine ⟨hg.role.trans h.player, hring, fun hne => absurd hstall.phase hne, ?_⟩
    have hshown : (x.solo.gate hw sim).tape.shown = x.solo.tape.shown := by
      simp [Solo.gate, Tape.gate, hstall.adv]
    intro e he
    exact hold e (hshown ▸ he)

/-- The peer's next capture is for a tick this console has not come to. -/
theorem Agreed.gate_peer (h : Agreed role x y) (hp : Paired x y) (hp' : Paired y x) (hw : Hw)
    (sim : Sim) : Agreed role x { y with solo := y.solo.gate hw sim } := by
  have hlo : y.tick ≤ nextTick y.solo := hp'.nextTick_le.1
  have hcap : ∀ t ≤ y.tick + 2, (y.solo.gate hw sim).tape.cap t = y.solo.tape.cap t :=
    fun t ht => gate_cap_of_le ht
  refine ⟨h.player, Stored.gate_peer h.ring hp hp' hw sim, ?_, ?_⟩
  · intro hne
    obtain ⟨hle, hm⟩ := h.mid hne
    exact ⟨hle.trans (by rw [Station.tick, Station.tick, gate_tick, ← Station.tick]; omega),
      hm.congr rfl (hcap _ hle)⟩
  · intro e he
    obtain ⟨h1, h2, hm⟩ := h.shown e he
    exact ⟨h1, h2.trans (by rw [Station.tick, Station.tick, gate_tick, ← Station.tick]; omega),
      hm.congr rfl (hcap _ h2)⟩

/-! ### A micro-step -/

theorem Agreed.micro_own (h : Agreed role x y) (hp : Paired x y) (hp' : Paired y x) :
    Agreed role (x.micro y.sent) y := by
  have hsolo := (micro_fixed x y.sent).1
  obtain ⟨htick, hcap, -, -, hshown⟩ := micro_same x.solo x.mail
  have k : Kept x.solo.con (x.solo.micro x.mail).con := kept_vonstep _ _ _
  refine ⟨?_, Stored.micro_own h.ring hp hp', ?_, ?_⟩
  · rw [hsolo, k.role]; exact h.player
  · rw [Station.tick, hsolo, htick, hcap, k.phase]
    simp only [Shown.Mixes, Shown.of, k.pads, k.switches]
    exact h.mid
  · rw [Station.tick, hsolo, htick, hcap, hshown]
    exact h.shown

/-- Only the tape's tick, captures and frames of the peer matter. -/
theorem Agreed.peer {y' : Station} (h : Agreed role x y) (htick : y'.tick = y.tick)
    (hcap : y'.solo.tape.cap = y.solo.tape.cap) : Agreed role x y' := by
  refine ⟨h.player, ?_, ?_, ?_⟩
  · rw [hcap]; exact h.ring
  · rw [htick, hcap]; exact h.mid
  · rw [htick, hcap]; exact h.shown

theorem Agreed.own {x' : Station} (h : Agreed role x y) (hsolo : x'.solo = x.solo)
    (heaten : x'.eaten = x.eaten) : Agreed role x' y := by
  refine ⟨?_, ?_, ?_, ?_⟩
  · rw [hsolo]; exact h.player
  · rw [hsolo, heaten]; exact h.ring
  · rw [Station.tick, hsolo]; exact h.mid
  · rw [Station.tick, hsolo]; exact h.shown

end

/-! ### Every event -/

/-- The guest's captures and the host's change places in the shim. -/
def Side.swaps : Side → Bool
  | .host => false
  | .guest => true

/-- Both consoles show the mix of the same captures. -/
def Together (s : Link) : Prop := InStep s ∧ ∀ i : Side, Agreed i.swaps (s i) (s i.other)

variable {s t : Link} {e : LinkEv}

theorem Together.peer (h : Together s) (i : Side) : Agreed i.other.swaps (s i.other) (s i) := by
  have := h.2 i.other
  rwa [Side.other_other] at this

theorem Together.step (h : Together s) (hsrc : Sourced s e) (hst : s.step e = some t) :
    Together t := by
  refine ⟨h.1.step hst, ?_⟩
  have hboth : ∀ {i : Side}, Agreed i.swaps (t i) (t i.other) →
      Agreed i.other.swaps (t i.other) (t i) → ∀ k : Side, Agreed k.swaps (t k) (t k.other) := by
    intro i hi hj k
    rcases i.eq_or_other k with rfl | rfl
    · exact hi
    · rw [Side.other_other]; exact hj
  rcases Link.step_cases hst with ⟨i, hw, sim, rfl, -, hi, hj⟩ |
    ⟨i, rfl, -, hi, hj⟩ | ⟨i, rfl, ha, hi, hj⟩ | ⟨i, n, rfl, hi, hj⟩
  all_goals refine hboth (i := i) ?_ ?_ <;> rw [hi, hj]
  · exact (h.2 i).gate_own (h.1 i) (h.1.peer i) hsrc
  · exact (h.peer i).gate_peer (h.1.peer i) (h.1 i) hw sim
  · exact (h.2 i).micro_own (h.1 i) (h.1.peer i)
  · obtain ⟨htick, hcap, -⟩ := micro_same (s i).solo (s i).mail
    have hsolo := (micro_fixed (s i) (s i.other).sent).1
    exact (h.peer i).peer (by rw [Station.tick, hsolo]; exact htick) (by rw [hsolo]; exact hcap)
  · obtain ⟨-, -, hsolo, -, -, heaten⟩ := (h.1 i).answer_own (h.1.peer i) ha
    exact ((h.2 i).own hsolo heaten).peer rfl rfl
  · have hsolo := ((h.1 i).answer_own (h.1.peer i) ha).2.2.1
    exact ((h.peer i).peer (by rw [Station.tick, hsolo]; rfl) (by rw [hsolo])).own rfl rfl
  · exact (h.2 i).own rfl rfl
  · exact (h.peer i).peer rfl rfl

theorem Agreed.start {i : Side} {x y : Station} (hx : x.Start i) : Agreed i.swaps x y := by
  obtain ⟨hw, c, r, m, -, rfl⟩ := hx
  obtain ⟨-, -, -, -, -, he, -⟩ := start_con i.role hw c r
  refine ⟨?_, ?_, fun hne => absurd ?_ hne, ?_⟩
  · rw [show (Station.fresh (Solo.start i.role hw c r) m).solo = Solo.start i.role hw c r from rfl,
      he, (start_voent i.role).2.2.2.2]
    cases i <;> rfl
  · intro t
    exact cszring_get 3 (by decide) t
  · exact he ▸ (start_voent i.role).2.2.2.1
  · intro e he
    exact absurd he (by simp [Station.fresh, Solo.start, Tape.blank])

theorem together_of_init (h : lockstep.init s) : Together s :=
  ⟨fun i => Paired.start (h i) (h i.other), fun i => Agreed.start (h i)⟩

/-- Lockstep agreement. In a match in which every frame that lets a tick run finds the peer's input
    for it in the ring, the two consoles show the logic frames of a tick the same paddles and
    switches, but for each console's own B&W switch. -/
theorem lockstep_agreement {s₀ s : Link} {es : List LinkEv} (h₀ : lockstep.init s₀)
    (hclean : lockstep.EachStep Sourced s₀ es) (hrun : lockstep.run s₀ es = some s) :
    ∀ e ∈ (s .host).solo.tape.shown, ∀ e' ∈ (s .guest).solo.tape.shown, e.tick = e'.tick →
      e.pad0 = e'.pad0 ∧ e.pad2 = e'.pad2 ∧ e.swa = e'.swa ∧ butBw e.swb = butBw e'.swb := by
  have hI : Together s := lockstep.run_invariant (fun _ _ _ hI hP hst => Together.step hI hP hst)
    (together_of_init h₀) hclean hrun
  intro e he e' he' htick
  obtain ⟨-, -, h1, h2, h3, h4⟩ := (hI.2 .host).shown e he
  obtain ⟨-, -, h1', h2', h3', h4'⟩ := (hI.2 .guest).shown e' he'
  rw [htick] at h1 h2 h3 h4
  exact ⟨h1.trans h1'.symm, h2.trans h2'.symm, h3.trans h3'.symm, h4.trans h4'.symm⟩

/-- Tick 5 is shown on both sides with the host's paddle and the guest's where they were held. -/
theorem lockstep_agreement_three : ∃ s, lockstep.run Link.rest threeExchanges = some s ∧
    ((∃ e ∈ (s .host).solo.tape.shown, e.tick = 5 ∧ e.pad0 = 0x50 ∧ e.pad2 = 0x30) ∧
      ∃ e ∈ (s .guest).solo.tape.shown, e.tick = 5 ∧ e.pad0 = 0x50 ∧ e.pad2 = 0x30) ∧
    ∀ e ∈ (s .host).solo.tape.shown, ∀ e' ∈ (s .guest).solo.tape.shown, e.tick = e'.tick →
      e.pad0 = e'.pad0 ∧ e.pad2 = e'.pad2 ∧ e.swa = e'.swa ∧ butBw e.swb = butBw e'.swb :=
  lockstep.exists_run_of (by decide +kernel) fun _ hrun _ =>
    lockstep_agreement init_rest (by decide +kernel) hrun

/-- In the backlog the two consoles run tick 2 on different inputs: the guest on the paddle it
    captured, the host on a slot nobody has written. -/
theorem backlog_disagrees : ¬∀ s, lockstep.Reachable s →
    ∀ e ∈ (s .host).solo.tape.shown, ∀ e' ∈ (s .guest).solo.tape.shown, e.tick = e'.tick →
      e.pad0 = e'.pad0 ∧ e.pad2 = e'.pad2 ∧ e.swa = e'.swa ∧ butBw e.swb = butBw e'.swb := by
  intro hall
  obtain ⟨s, hrun, e, he, e', he', htick, hpad⟩ := lockstep.exists_run (s := Link.rest)
    (e := backlog) (Q := fun s => ∃ e ∈ (s .host).solo.tape.shown,
      ∃ e' ∈ (s .guest).solo.tape.shown, e.tick = e'.tick ∧ e.pad2 ≠ e'.pad2) (by decide +kernel)
  exact hpad (hall s ⟨Link.rest, backlog, init_rest, hrun⟩ e he e' he' htick).2.1

end VO
