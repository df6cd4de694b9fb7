import VideoOlympics.Console.Checksum
import VideoOlympics.Lockstep.Bound

/-! Desync detection. Beside the match stands what each console's nine cells were on entering each
    tick: the kernel bank's checksum of them is the sample a record carries, and the one the console
    compares it with. -/

namespace VO

/-! ### The match, watched -/

/-- A match, and each console's cells on entering each of its ticks. -/
structure Watch where
  link : Link
  entry : Side → ℤ → Sim

/-- A boundary that advances enters the next tick with the cells as they are. -/
def Watch.enter (w : Watch) (i : Side) : Side → ℤ → Sim :=
  if advances (w.link i).solo.con
  then Function.update w.entry i
    (Function.update (w.entry i) ((w.link i).tick + 1) (w.link i).solo.con.sim)
  else w.entry

/-- A frame begins with its gate: there is no micro-step before the first. -/
def Watch.step (w : Watch) : LinkEv → Option Watch
  | .gate i hw sim => (w.link.step (.gate i hw sim)).map fun l => ⟨l, w.enter i⟩
  | .micro i =>
    if 0 ≤ (w.link i).tick then (w.link.step (.micro i)).map fun l => ⟨l, w.entry⟩ else none
  | .answer i => (w.link.step (.answer i)).map fun l => ⟨l, w.entry⟩
  | .arrive i n => (w.link.step (.arrive i n)).map fun l => ⟨l, w.entry⟩

/-- The two consoles start with one value in `VOCRCK`. -/
def watched : Machine Watch LinkEv where
  init w := lockstep.init w.link ∧ (w.link .host).solo.con.vocrck = (w.link .guest).solo.con.vocrck
  step := Watch.step

theorem Watch.step_link {w w' : Watch} {e : LinkEv} (h : w.step e = some w') :
    w.link.step e = some w'.link := by
  cases e with
  | micro i =>
    simp only [step, Option.ite_none_right_eq_some, Option.map_eq_some_iff] at h
    obtain ⟨-, l, hl, rfl⟩ := h
    exact hl
  | _ =>
    simp only [step, Option.map_eq_some_iff] at h
    obtain ⟨l, hl, rfl⟩ := h
    exact hl

/-- A frame of one side, a micro-step of one that has begun, or nothing the consoles see. -/
theorem Watch.step_cases {w w' : Watch} {e : LinkEv} (h : w.step e = some w') :
    (∃ i hw sim, e = .gate i hw sim ∧ (w.link i).solo.con.bank = .game ∧
      (w'.link i).solo = (w.link i).solo.gate hw sim ∧
      (w'.link i.other).solo = (w.link i.other).solo ∧ w'.entry = w.enter i) ∨
    (∃ i, e = .micro i ∧ 0 ≤ (w.link i).tick ∧ w'.link i = (w.link i).micro (w.link i.other).sent ∧
      (w'.link i.other).solo = (w.link i.other).solo ∧ w'.entry = w.entry) ∨
    ((∀ i, (w'.link i).solo = (w.link i).solo) ∧ w'.entry = w.entry) := by
  have hboth : ∀ {i : Side}, (w'.link i).solo = (w.link i).solo →
      (w'.link i.other).solo = (w.link i.other).solo → ∀ j, (w'.link j).solo = (w.link j).solo := by
    intro i hi hother j
    rcases i.eq_or_other j with rfl | rfl
    · exact hi
    · exact hother
  have hlink := Watch.step_link h
  rcases Link.step_cases hlink with ⟨i, hw, sim, rfl, hbank, hi, hother⟩ | ⟨i, rfl, -, hi, hother⟩ |
    ⟨i, rfl, -, hi, hother⟩ | ⟨i, n, rfl, hi, hother⟩
  · simp only [step, Option.map_eq_some_iff] at h
    obtain ⟨l, -, rfl⟩ := h
    exact .inl ⟨i, hw, sim, rfl, hbank, by rw [hi], by rw [hother], rfl⟩
  · simp only [step, Option.ite_none_right_eq_some, Option.map_eq_some_iff] at h
    obtain ⟨hbegun, l, -, rfl⟩ := h
    exact .inr (.inl ⟨i, rfl, hbegun, hi, by rw [hother], rfl⟩)
  · simp only [step, Option.map_eq_some_iff] at h
    obtain ⟨l, -, rfl⟩ := h
    exact .inr (.inr ⟨hboth (by rw [hi]; rfl) (by rw [hother]; rfl), rfl⟩)
  · simp only [step, Option.map_eq_some_iff] at h
    obtain ⟨l, -, rfl⟩ := h
    exact .inr (.inr ⟨hboth (by rw [hi]; rfl) (by rw [hother]), rfl⟩)

theorem Watch.step_micro {w w' : Watch} {i : Side} (h : w.step (.micro i) = some w') :
    w'.link i = (w.link i).micro (w.link i.other).sent := by
  have hlink := Watch.step_link h
  simp only [Link.step, Option.ite_none_right_eq_some, Option.some.injEq] at hlink
  rw [← hlink.2, Function.update_self]

/-! ### The samples -/

/-- What a console's samples are: its first is what `VOCRCK` started as, and each after that the
    checksum of the cells on entering its tick. -/
structure Sampled (k : Byte) (entry : ℤ → Sim) (s : Solo) : Prop where
  first : s.tape.tick = -1 → advances s.con = true ∧ s.con.vocrck = k
  vocrck : 0 ≤ s.tape.tick → s.con.bank = .game → s.con.vocrck = vocrc s.con.sim
  zero : 0 ≤ s.tape.tick → s.tape.crc 0 = k
  crc : ∀ t, 1 ≤ t → t ≤ s.tape.tick → s.tape.crc t = vocrc (entry t)

variable {k : Byte} {entry : ℤ → Sim} {s : Solo}

/-- A frame that stays in the game ends with the checksum of its cells. -/
theorem frame_vocrck (hw : Hw) (sim : Sim) (c : Console) (h : (frame hw sim c).bank = .game) :
    (frame hw sim c).vocrck = vocrc (frame hw sim c).sim := by
  simp only [frame] at h ⊢
  cases hbank : (voshim hw c).bank with
  | boot =>
    rw [hbank] at h
    exact absurd (hbank.symm.trans h) (by decide)
  | game => rfl

/-- A micro-step leaves the cells and their checksum alone. -/
theorem vonstep_sim (m : Mail) (c : Console) (r : Regs) :
    (vonstep m c r).1.sim = c.sim ∧ (vonstep m c r).1.vocrck = c.vocrck := by
  by_cases hst : c.vonst = .cons
  · rw [vonstep, hst]
    simp only [voscons]
    split
    · exact ⟨rfl, rfl⟩
    · obtain ⟨ring, wat, ent, err, heq, -⟩ := voco1_cells m c
      rw [heq]
      exact ⟨rfl, rfl⟩
  · obtain ⟨st, seq, err, n, w0, w1, heq, -⟩ := vonstep_cells hst m r
    rw [heq]
    exact ⟨rfl, rfl⟩

theorem Sampled.gate (h : Sampled k entry s) (hs : Sound s) (hbank : s.con.bank = .game) (hw : Hw)
    (sim : Sim) : Sampled k (if advances s.con then Function.update entry (s.tape.tick + 1) s.con.sim
      else entry) (s.gate hw sim) := by
  have hg := (frame_cases hw sim s.con hs.net).1
  have hstart := hs.start
  have hcrc : (s.gate hw sim).tape.crc = if advances s.con
      then Function.update s.tape.crc (s.tape.tick + 1) s.con.vocrck else s.tape.crc := by
    simp only [Solo.gate, Tape.gate, hg.vocrcv]
    split
    · rfl
    · rfl
  have htick : (s.gate hw sim).tape.tick = nextTick s := rfl
  cases hadv : advances s.con with
  | false =>
    have hsame : nextTick s = s.tape.tick := if_neg (by simp [hadv])
    have hbegun : 0 ≤ s.tape.tick := by
      by_contra hneg
      have := (h.first (by omega)).1
      rw [hadv] at this
      cases this
    rw [hadv, if_neg (by decide)] at hcrc
    simp only [Bool.false_eq_true, if_false]
    refine ⟨fun hfirst => ?_, fun _ hb => frame_vocrck hw sim s.con hb, fun _ => ?_, fun t => ?_⟩
    · rw [htick, hsame] at hfirst
      omega
    · rw [hcrc]
      exact h.zero hbegun
    · rw [htick, hsame, hcrc]
      exact h.crc t
  | true =>
    have hnext : nextTick s = s.tape.tick + 1 := if_pos hadv
    rw [hadv, if_pos rfl] at hcrc
    simp only [if_true]
    refine ⟨fun hfirst => ?_, fun _ hb => frame_vocrck hw sim s.con hb, fun _ => ?_, ?_⟩
    · rw [htick, hnext] at hfirst
      omega
    · rw [hcrc]
      by_cases hfirst : s.tape.tick = -1
      · rw [hfirst]
        exact (h.first hfirst).2
      · rw [Function.update_of_ne (by omega)]
        exact h.zero (by omega)
    · intro t hlo hhi
      rw [htick, hnext] at hhi
      rw [hcrc]
      by_cases ht : t = s.tape.tick + 1
      · rw [ht, Function.update_self, Function.update_self]
        exact h.vocrck (by omega) hbank
      · rw [Function.update_of_ne ht, Function.update_of_ne ht]
        exact h.crc t hlo (by omega)

theorem Sampled.micro (h : Sampled k entry s) (m : Mail) : Sampled k entry (s.micro m) := by
  have hkept := kept_vonstep m s.con s.regs
  obtain ⟨hsim, hvocrck⟩ := vonstep_sim m s.con s.regs
  obtain ⟨htick, -, hcrc, -, -⟩ := micro_same s m
  have hadv : advances (s.micro m).con = advances s.con := by
    simp only [advances, Solo.micro, hkept.phase, hkept.ran]
  refine ⟨?_, ?_, ?_, ?_⟩
  · rw [htick, hadv]
    exact fun hfirst => ⟨(h.first hfirst).1, hvocrck.trans (h.first hfirst).2⟩
  · rw [htick]
    intro hbegun hbank
    exact hvocrck.trans ((h.vocrck hbegun (hkept.bank.symm.trans hbank)).trans (hsim ▸ rfl))
  · rw [htick, hcrc]
    exact h.zero
  · rw [htick, hcrc]
    exact h.crc

/-! ### The flag -/

/-- A frame never arms the repair, and one that advances takes it. -/
theorem frame_rsy (hw : Hw) (sim : Sim) (c : Console) (hnet : has c.voent voeNet = true) :
    has (frame hw sim c).voent voeRsy = true ↔
      advances c = false ∧ has c.voent voeRsy = true := by
  obtain ⟨s, k, hf⟩ := frame_eq hw sim c
  have hboundary : phaseOf c.voent = 0 → (has (boundary hw c).voent voeRsy = true ↔
      advances c = false ∧ has c.voent voeRsy = true) := by
    intro hph
    rw [boundary_eq hw c hph]
    cases advances c <;> simp
  rw [hf]
  rcases voshim_cases hw c hnet with ⟨hph, hshim⟩ | ⟨hph, -, hshim⟩ | ⟨hph, -, hshim⟩
  · rw [hshim]
    simp [vophi, advances, hph]
  · rw [hshim, vont2_eq, ← hboundary hph]
    simp
  · rw [hshim, ← hboundary hph, vostall]
    dsimp only
    split
    · rfl
    · simp

/-- A micro-step takes the record its batch has come to, or leaves `VOENT` alone. -/
theorem Paired.micro_record {x y : Station} (h : Paired x y) (h' : Paired y x) :
    (∃ r j, x.nextRec y.sent = some r ∧ y.sent[x.base + j]? = some r ∧ Shows x.mail j r.bytes ∧
      Consumed x (x.micro y.sent) y.solo.tape r j) ∨
    (x.nextRec y.sent = none ∧ (x.micro y.sent).solo.con.voent = x.solo.con.voent) := by
  by_cases hst : x.solo.con.vonst = .cons
  · rcases h.cons_cases h' hst with ⟨-, hv, hmicro, hcon⟩ | ⟨r, j, hv, hb, hr, hshow, hc⟩
    · refine .inr ⟨if_neg (by simp [hv]), ?_⟩
      rw [hmicro]
      dsimp only
      rw [hcon]
    · exact .inl ⟨r, j, (nextRec_eq hst hb.le hv y.sent).trans hr, hr, hshow, hc⟩
  · refine .inr ⟨if_neg (fun hboth => hst hboth.1), ?_⟩
    rw [micro_eq hst]
    change (vonstep x.mail x.solo.con x.solo.regs).1.voent = x.solo.con.voent
    obtain ⟨st, seq, err, n, w0, w1, heq, -⟩ := vonstep_cells hst x.mail x.solo.regs
    rw [heq]

/-- The flag after a record: set if it was, or if the record is of this tick and its sender's sample
    is not this console's. -/
theorem Paired.consumed_rsy {x y : Station} (h : Paired x y) (h' : Paired y x) {r : Rec} {j : ℕ}
    (hr : y.sent[x.base + j]? = some r) (hc : Consumed x (x.micro y.sent) y.solo.tape r j) :
    has (x.micro y.sent).solo.con.voent voeRsy = true ↔ has x.solo.con.voent voeRsy = true ∨
      (r.stamp - 2 = x.tick ∧ y.solo.tape.crc x.tick ≠ x.solo.tape.crc x.tick) := by
  have hsame := h.same_tick_iff h' hr (Nat.le_add_right _ _)
  rw [hc.con]
  simp only [take, h.sound.vocrcv, hsame]
  cases hrsy : has x.solo.con.voent voeRsy with
  | true => simp [hrsy]
  | false =>
    by_cases htick : r.stamp - 2 = x.tick
    · rw [htick]
      by_cases hcrc : y.solo.tape.crc x.tick = x.solo.tape.crc x.tick
      · rw [if_neg (fun hall => hall.2.2 hcrc)]
        simp [hrsy, hcrc]
      · rw [if_pos ⟨rfl, rfl, hcrc⟩]
        simp [hcrc]
    · rw [if_neg (fun hall => htick hall.1)]
      simp [hrsy, htick]

/-! ### The match -/

/-- Both ends keep what they keep, and the samples are samples of the cells entered with. -/
structure Watched (k : Byte) (w : Watch) : Prop where
  inStep : InStep w.link
  sampled : ∀ i, Sampled k (w.entry i) (w.link i).solo

/-- The two consoles have entered a tick with different checksums. -/
def Watch.Parted (w : Watch) (i : Side) (t : ℤ) : Prop :=
  1 ≤ t ∧ t ≤ (w.link i).tick ∧ t ≤ (w.link i.other).tick ∧
    vocrc (w.entry i.other t) ≠ vocrc (w.entry i t)

variable {w w' : Watch} {e : LinkEv}

theorem Watched.step (h : Watched k w) (hst : w.step e = some w') : Watched k w' := by
  refine ⟨h.inStep.step (Watch.step_link hst), ?_⟩
  rcases Watch.step_cases hst with ⟨i, hw, sim, -, hbank, hi, hother, hentry⟩ |
    ⟨i, -, -, hi, hother, hentry⟩ | ⟨hsame, hentry⟩
  · intro j
    rcases i.eq_or_other j with rfl | rfl
    · rw [hi, hentry]
      have hgate := (h.sampled j).gate (h.inStep j).sound hbank hw sim
      convert hgate using 1
      simp only [Watch.enter]
      split
      · rw [Function.update_self]; rfl
      · rfl
    · rw [hother, hentry]
      convert h.sampled i.other using 1
      simp only [Watch.enter]
      split
      · rw [Function.update_of_ne (Side.other_ne i)]
      · rfl
  · intro j
    rcases i.eq_or_other j with rfl | rfl
    · rw [hi, hentry, (micro_fixed (w.link j) _).1]
      exact (h.sampled j).micro _
    · rw [hother, hentry]
      exact h.sampled i.other
  · intro j
    rw [hsame, hentry]
    exact h.sampled j

theorem Watched.start (h : watched.init w) : Watched (w.link .host).solo.con.vocrck w := by
  refine ⟨fun i => Paired.start (h.1 i) (h.1 i.other), fun i => ?_⟩
  have hk : (w.link i).solo.con.vocrck = (w.link .host).solo.con.vocrck := by
    cases i with
    | host => rfl
    | guest => exact h.2.symm
  obtain ⟨hw, c, r, m, -, hi⟩ := h.1 i
  rw [hi] at hk ⊢
  have hvoent := start_voent i.role
  have htick : (Station.fresh (Solo.start i.role hw c r) m).solo.tape.tick = -1 := rfl
  refine ⟨fun _ => ⟨?_, hk⟩, fun hbegun => ?_, fun hbegun => ?_, fun t hlo hhi => ?_⟩
  · simp only [advances, Bool.and_eq_true, beq_iff_eq]
    exact ⟨hvoent.2.2.2.1, hvoent.2.1⟩
  · rw [htick] at hbegun
    omega
  · rw [htick] at hbegun
    omega
  · rw [htick] at hhi
    omega

theorem watched_of_reachable (h : watched.Reachable w) : ∃ k, Watched k w :=
  watched.reachable_invariant (I := fun w => ∃ k, Watched k w) (fun _ h₀ => ⟨_, .start h₀⟩)
    (fun _ _ _ ⟨k, hI⟩ hst => ⟨k, hI.step hst⟩) h

/-- What a record of the tick this console is on says of the two consoles' cells. -/
theorem Watched.sample_ne_iff (h : Watched k w) (i : Side) (hbegun : 0 ≤ (w.link i).tick)
    {r : Rec} (hr : r ∈ (w.link i.other).sent) (htick : r.stamp - 2 = (w.link i).tick) :
    (w.link i.other).solo.tape.crc (w.link i).tick ≠ (w.link i).solo.tape.crc (w.link i).tick ↔
      w.Parted i (w.link i).tick := by
  have hpeer : (w.link i).tick ≤ (w.link i.other).tick := by
    have := (h.inStep.peer i).stamp_le r hr
    omega
  rcases Int.lt_or_eq_of_le hbegun with hlate | hfirst
  · rw [(h.sampled i).crc _ hlate (le_refl _), (h.sampled i.other).crc _ hlate hpeer]
    exact ⟨fun hne => ⟨hlate, le_refl _, hpeer, hne⟩, fun hp => hp.2.2.2⟩
  · rw [← hfirst, (h.sampled i).zero hbegun, (h.sampled i.other).zero (hbegun.trans hpeer)]
    exact iff_of_false (fun hne => hne rfl) fun hp => absurd hp.1 (by decide)

/-- The next record to be taken is of the tick its console is on, and the two entered it with
    different checksums. -/
def Watch.Clash (w : Watch) (i : Side) : Prop :=
  ∃ r ∈ (w.link i).nextRec (w.link i.other).sent, r.stamp - vod.toNat = (w.link i).tick ∧
    w.Parted i (w.link i).tick

instance (w : Watch) (i : Side) (t : ℤ) : Decidable (w.Parted i t) :=
  inferInstanceAs (Decidable (_ ∧ _ ∧ _ ∧ _))

instance (w : Watch) (i : Side) : Decidable (w.Clash i) :=
  inferInstanceAs (Decidable (∃ r ∈ (w.link i).nextRec (w.link i.other).sent, _))

/-- A micro-step leaves the flag up if it was, or if the record it takes clashes. -/
theorem Watched.micro_rsy (h : Watched k w) {i : Side} (hst : w.step (.micro i) = some w') :
    has (w'.link i).solo.con.voent voeRsy = true ↔
      has (w.link i).solo.con.voent voeRsy = true ∨ w.Clash i := by
  have hbegun : 0 ≤ (w.link i).tick := by
    simp only [Watch.step, Option.ite_none_right_eq_some] at hst
    exact hst.1
  rw [Watch.step_micro hst]
  rcases (h.inStep i).micro_record (h.inStep.peer i) with ⟨r, n, hnext, hr, -, hc⟩ | ⟨hnone, hsame⟩
  · have hclash : w.Clash i ↔ r.stamp - 2 = (w.link i).tick ∧
        (w.link i.other).solo.tape.crc (w.link i).tick ≠ (w.link i).solo.tape.crc (w.link i).tick := by
      simp only [Watch.Clash, hnext, Option.mem_some_iff, exists_eq_left']
      exact and_congr_right fun htick =>
        (h.sample_ne_iff i hbegun (List.mem_of_getElem? hr) htick).symm
    rw [(h.inStep i).consumed_rsy (h.inStep.peer i) hr hc, hclash]
  · have hclash : ¬w.Clash i := by
      rintro ⟨r, hr, -⟩
      rw [hnone] at hr
      cases hr
    rw [hsame, or_iff_left hclash]

/-- The flag goes up in one way. -/
theorem Watched.armed (h : Watched k w) (hst : w.step e = some w') {i : Side}
    (hoff : has (w.link i).solo.con.voent voeRsy = false)
    (hon : has (w'.link i).solo.con.voent voeRsy = true) : e = .micro i ∧ w.Clash i := by
  have hquiet : (w'.link i).solo.con.voent ≠ (w.link i).solo.con.voent := by
    intro hsame
    rw [hsame, hoff] at hon
    cases hon
  rcases Watch.step_cases hst with ⟨j, hw, sim, rfl, -, hj, hother, -⟩ |
    ⟨j, rfl, -, -, hother, -⟩ | ⟨hsame, -⟩
  · rcases j.eq_or_other i with rfl | rfl
    · rw [hj] at hon
      have := ((frame_rsy hw sim _ (h.inStep i).sound.net).mp hon).2
      rw [hoff] at this
      cases this
    · exact absurd (by rw [hother]) hquiet
  · rcases j.eq_or_other i with rfl | rfl
    · refine ⟨rfl, ((h.micro_rsy hst).mp hon).resolve_left fun hset => ?_⟩
      rw [hoff] at hset
      cases hset
    · exact absurd (by rw [hother]) hquiet
  · exact absurd (by rw [hsame]) hquiet

/-- What has been entered stays as it was entered. -/
theorem Watch.step_entry (hst : w.step e = some w') (i : Side) :
    (w.link i).tick ≤ (w'.link i).tick ∧
      ∀ t ≤ (w.link i).tick, w'.entry i t = w.entry i t := by
  rcases Watch.step_cases hst with ⟨j, hw, sim, -, -, hj, hother, hentry⟩ |
    ⟨j, -, -, hj, hother, hentry⟩ | ⟨hsame, hentry⟩
  · have henter : ∀ t ≤ (w.link i).tick, w.enter j i t = w.entry i t := by
      intro t ht
      simp only [enter]
      split
      · rcases j.eq_or_other i with rfl | rfl
        · rw [Function.update_self, Function.update_of_ne (by omega)]
        · rw [Function.update_of_ne (Side.other_ne j)]
      · rfl
    refine ⟨?_, hentry ▸ henter⟩
    rcases j.eq_or_other i with rfl | rfl
    · simp only [Station.tick]
      rw [hj, gate_tick, nextTick]
      split
      · omega
      · exact le_refl _
    · rw [Station.tick, Station.tick, hother]
  · refine ⟨?_, fun t _ => by rw [hentry]⟩
    rcases j.eq_or_other i with rfl | rfl
    · rw [hj, Station.tick, Station.tick, (micro_fixed (w.link i) _).1, (micro_same _ _).1]
    · rw [Station.tick, Station.tick, hother]
  · exact ⟨by rw [Station.tick, Station.tick, hsame], fun t _ => by rw [hentry]⟩

theorem Watch.Parted.step {i : Side} {t : ℤ} (hp : w.Parted i t) (hst : w.step e = some w') :
    w'.Parted i t := by
  obtain ⟨hlo, hown, hpeer, hne⟩ := hp
  obtain ⟨hle, hsame⟩ := Watch.step_entry hst i
  obtain ⟨hle', hsame'⟩ := Watch.step_entry hst i.other
  exact ⟨hlo, hown.trans hle, hpeer.trans hle', by rwa [hsame t hown, hsame' t hpeer]⟩

/-- Where the flag is up, the consoles have parted. -/
theorem parted_of_reachable (h : watched.Reachable w) : ∀ i,
    has (w.link i).solo.con.voent voeRsy = true → ∃ t, w.Parted i t := by
  refine (watched.reachable_invariant (I := fun w => (∃ k, Watched k w) ∧ ∀ i,
    has (w.link i).solo.con.voent voeRsy = true → ∃ t, w.Parted i t) ?_ ?_ h).2
  · intro w h₀
    refine ⟨⟨_, .start h₀⟩, fun i hon => ?_⟩
    obtain ⟨hw, c, r, m, -, hi⟩ := h₀.1 i
    rw [hi] at hon
    exact absurd (hon.symm.trans (start_voent i.role).2.2.1) (by decide)
  · rintro w e w' ⟨⟨k, hI⟩, hparted⟩ hst
    refine ⟨⟨k, hI.step hst⟩, fun i hon => ?_⟩
    cases hoff : has (w.link i).solo.con.voent voeRsy with
    | true =>
      obtain ⟨t, hp⟩ := hparted i hoff
      exact ⟨t, hp.step hst⟩
    | false =>
      obtain ⟨-, r, -, -, hp⟩ := hI.armed hst hoff hon
      exact ⟨_, hp.step hst⟩

/-- Desync detection is sound and sees every divergence of one cell. The flag is set only by a record
    of the tick its console is on, and only if the two consoles' cells had different checksums on
    entering it; it is never set where they have agreed on entering every tick; and cells that differ
    in one place on entering a tick set it, with the first record of that tick that is consumed in it. -/
theorem desync_detected (h : watched.Reachable w) :
    (∀ e w' i, w.step e = some w' → has (w.link i).solo.con.voent voeRsy = false →
      has (w'.link i).solo.con.voent voeRsy = true →
      e = .micro i ∧ ∃ r, (w.link i).nextRec (w.link i.other).sent = some r ∧
        r.stamp - vod.toNat = (w.link i).tick ∧
        vocrc (w.entry i.other (w.link i).tick) ≠ vocrc (w.entry i (w.link i).tick)) ∧
    ((∀ t, 1 ≤ t → (∀ i, t ≤ (w.link i).tick) → w.entry .host t = w.entry .guest t) →
      ∀ i, has (w.link i).solo.con.voent voeRsy = false) ∧
    (∀ w' i r, w.step (.micro i) = some w' →
      (w.link i).nextRec (w.link i.other).sent = some r →
      r.bytes.getD 2 0 = (w.link i).solo.con.votick + vod → 1 ≤ (w.link i).tick →
      Digest.Apart (w.entry i (w.link i).tick).cells (w.entry i.other (w.link i).tick).cells →
      has (w'.link i).solo.con.voent voeRsy = true) := by
  obtain ⟨k, hI⟩ := watched_of_reachable h
  refine ⟨?_, ?_, ?_⟩
  · intro e w' i hst hoff hon
    obtain ⟨he, r, hnext, htick, hp⟩ := hI.armed hst hoff hon
    exact ⟨he, r, hnext, htick, hp.2.2.2⟩
  · intro hagree i
    by_contra hon
    obtain ⟨t, hlo, hown, hpeer, hne⟩ := parted_of_reachable h i (by simpa using hon)
    have hboth : ∀ j, t ≤ (w.link j).tick := by
      intro j
      rcases i.eq_or_other j with rfl | rfl
      · exact hown
      · exact hpeer
    have hsame := hagree t hlo hboth
    cases i with
    | host => exact hne (congrArg vocrc hsame.symm)
    | guest => exact hne (congrArg vocrc hsame)
  · intro w' i r hst hnext hstamp hlate hapart
    obtain ⟨q, n, hnext', hr, -, hc⟩ | ⟨hnone, -⟩ :=
      (hI.inStep i).micro_record (hI.inStep.peer i)
    · obtain rfl : q = r := Option.some.inj (hnext'.symm.trans hnext)
      have hmem := List.mem_of_getElem? hr
      have hbyte : q.bytes.getD 2 0 = BitVec.ofInt 8 q.stamp := by
        rw [((hI.inStep.peer i).sound.sent q hmem).2.2]
        rfl
      have htick : q.stamp - 2 = (w.link i).tick := by
        refine ((hI.inStep i).same_tick_iff (hI.inStep.peer i) hr (Nat.le_add_right _ _)).mp ?_
        rw [← hbyte, hstamp, BitVec.add_sub_cancel]
      have hpeer : (w.link i).tick ≤ (w.link i.other).tick := by
        have := (hI.inStep.peer i).stamp_le q hmem
        omega
      have hparted : w.Parted i (w.link i).tick :=
        ⟨hlate, le_refl _, hpeer, (vocrc_ne hapart).symm⟩
      have hne := (hI.sample_ne_iff i (by omega) hmem htick).mpr hparted
      rw [Watch.step_micro hst]
      exact ((hI.inStep i).consumed_rsy (hI.inStep.peer i) hr hc).mpr (.inr ⟨htick, hne⟩)
    · rw [hnone] at hnext
      cases hnext

/-- The match nobody has touched, and the cells before it. -/
def Watch.rest : Watch := ⟨Link.rest, fun _ _ => Console.cleared.sim⟩

/-- Both sides run tick 0; in tick 1 the guest's variation changes. The host enters tick 2 and reads
    the record the guest writes there. -/
def parting : List LinkEv :=
  handshake ++ LinkEv.frames .host 0 5 ++
  List.replicate 4 (.gate .guest Hw.rest { Console.cleared.sim with c96 := 1 }) ++
  LinkEv.frames .guest 0 1 ++ LinkEv.write .guest ++ [.arrive .host 16] ++ LinkEv.write .host ++
  LinkEv.read .host

theorem desync_detected_parting : ∃ w w', watched.run Watch.rest parting = some w ∧
    w.step (.micro .host) = some w' ∧ (w.link .host).tick = 2 ∧
    has (w.link .host).solo.con.voent voeRsy = false ∧
    has (w'.link .host).solo.con.voent voeRsy = true := by
  obtain ⟨w, hrun, htick, hoff, ⟨r, hnext, hstamp⟩, hhost, hguest, hon⟩ : ∃ w,
      watched.run Watch.rest parting = some w ∧ (w.link .host).tick = 2 ∧
      has (w.link .host).solo.con.voent voeRsy = false ∧
      (∃ r ∈ (w.link .host).nextRec (w.link .guest).sent,
        r.bytes.getD 2 0 = (w.link .host).solo.con.votick + vod) ∧
      (w.entry .host 2).cells = [] ++ 0 :: List.replicate 8 0 ∧
      (w.entry .guest 2).cells = [] ++ 1 :: List.replicate 8 0 ∧
      (w.step (.micro .host)).isSome :=
    watched.exists_run (by decide +kernel)
  obtain ⟨w', hst⟩ := Option.isSome_iff_exists.mp hon
  have hreach : watched.Reachable w := ⟨Watch.rest, parting, ⟨init_rest, rfl⟩, hrun⟩
  refine ⟨w, w', hrun, hst, htick, hoff, ?_⟩
  refine (desync_detected hreach).2.2 w' .host r hst hnext hstamp (by rw [htick]; decide) ?_
  rw [htick]
  exact ⟨[], 0, 1, List.replicate 8 0, by decide, hhost, hguest⟩

end VO
