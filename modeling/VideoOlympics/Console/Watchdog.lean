import VideoOlympics.Console.Stalls

/-! The stall watchdog. Beside a console stands how many frames in a row it has stalled, and what has
    become of the last PEER_LEFT it consumed. The count lives in the high nibble of `VOERR`: stalls
    step it, a tick that runs clears it, and a PEER_LEFT fills it. -/

namespace VO

/-! ### The high nibble of `VOERR` -/

/-- The stall count of an error byte. -/
def stallsOf (e : Byte) : ℕ := (e >>> 4).toNat

theorem stalls_fail : ∀ e : Byte, stallsOf ((e &&& 0xF0#8) ||| fnebad) = stallsOf e := by decide

theorem stalls_left : stallsOf (0xF0#8 ||| fnepeer) = 15 := by decide

theorem stalls_ran : ∀ e : Byte, stallsOf (e &&& 0x0F#8) = 0 := by decide

theorem lt_full_iff : ∀ e : Byte, e < 0xF0#8 ↔ stallsOf e ≠ 15 := by decide

theorem stalls_step : ∀ e : Byte, stallsOf e ≠ 15 → stallsOf (e + 0x10#8) = stallsOf e + 1 := by
  decide

theorem left_step_phase : ∀ e : Byte, has (e + voePh1) voeLeft = has e voeLeft := by decide

theorem left_clear_ran : ∀ e : Byte,
    has (e &&& (0xFF#8 - voeRan)) voeLeft = has e voeLeft := by decide

theorem left_clear_rsy : ∀ e : Byte, has ((e &&& voeRsy) ^^^ e) voeLeft = has e voeLeft := by decide

theorem left_set_ran : ∀ e : Byte, has (e ||| voeRan) voeLeft = has e voeLeft := by decide

theorem left_set_rsy : ∀ e : Byte, has (e ||| voeRsy) voeLeft = has e voeLeft := by decide

theorem left_set : ∀ e : Byte, has (e ||| voeLeft) voeLeft = true := by decide

theorem left_advanced (e : Byte) : has (advanced e) voeLeft = has e voeLeft := by
  rw [advanced]
  split
  · rw [left_clear_rsy, left_clear_ran]
  · rw [left_clear_ran]

/-! ### What the steps do to it -/

/-- The micro-step consumes a PEER_LEFT. -/
def TakesLeft (m : Mail) (c : Console) : Prop :=
  c.vonst = .cons ∧ c.vordn ≠ 0 ∧ m.at (recAt (c.vordn - 1)) 1 = wtLeft

instance (m : Mail) (c : Console) : Decidable (TakesLeft m c) :=
  inferInstanceAs (Decidable (_ ∧ _ ∧ _))

/-- Neither the count, nor the bit that says the peer is gone, has moved. -/
structure Calm (c c' : Console) : Prop where
  stalls : stallsOf c'.voerr = stallsOf c.voerr
  left : has c'.voent voeLeft = has c.voent voeLeft

/-- A micro-step moves the count only by consuming a PEER_LEFT, -/
theorem calm_voscons {m : Mail} {c : Console} (hst : c.vonst = .cons)
    (hleft : ¬TakesLeft m c) : Calm c (voscons m c) := by
  rw [voscons]
  by_cases hn : c.vordn = 0
  · rw [if_pos hn]
    exact ⟨rfl, rfl⟩
  · rw [if_neg hn]
    obtain ⟨ring, wat, ent, err, heq, hent, herr⟩ := voco1_cells m c
    rw [heq]
    rcases herr with rfl | ⟨htype, -⟩
    · rcases hent with rfl | rfl
      · exact ⟨rfl, rfl⟩
      · exact ⟨rfl, left_set_rsy _⟩
    · exact absurd ⟨hst, hn, htype⟩ hleft

theorem calm_vonstep {m : Mail} {c : Console} (r : Regs) (hleft : ¬TakesLeft m c) :
    Calm c (vonstep m c r).1 := by
  by_cases hst : c.vonst = .cons
  · rw [vonstep, hst]
    exact calm_voscons hst hleft
  · obtain ⟨st, seq, err, n, w0, w1, heq, herr⟩ := vonstep_cells hst m r
    rw [heq]
    rcases herr with rfl | rfl
    · exact ⟨rfl, rfl⟩
    · exact ⟨stalls_fail _, rfl⟩

/-- and that fills it. -/
theorem vonstep_takesLeft {m : Mail} {c : Console} (r : Regs) (hleft : TakesLeft m c) :
    stallsOf (vonstep m c r).1.voerr = 15 ∧
      has (vonstep m c r).1.voent voeLeft = has c.voent voeLeft := by
  obtain ⟨hst, hn, htype⟩ := hleft
  have hin : ¬wtLeft = wtInput := by decide
  rw [vonstep, hst]
  simp only [voscons, if_neg hn, voco1, htype, if_neg hin, if_true]
  exact ⟨stalls_left, rfl⟩

/-- The gate finds `VORWAT` behind the tick it decides. -/
def behind (c : Console) : Bool :=
  phaseOf c.voent == 0 && (c.vorwat - if advances c then c.votick + 1 else c.votick).msb

/-- What a frame does to the watchdog. -/
structure Guarded (c c' : Console) : Prop where
  waits : behind c = true → c'.voadv = 0 ∧
    if stallsOf c.voerr = 15 then has c'.voent voeLeft = true ∧ c'.bank = .boot
    else stallsOf c'.voerr = stallsOf c.voerr + 1 ∧ has c'.voent voeLeft = has c.voent voeLeft ∧
      c'.bank = c.bank
  goes : behind c = false → c'.voadv ≠ 0 ∧
    stallsOf c'.voerr = (if phaseOf c.voent = 0 then 0 else stallsOf c.voerr) ∧
    has c'.voent voeLeft = has c.voent voeLeft ∧ c'.bank = c.bank

theorem behind_boundary (hw : Hw) {c : Console} (hph : phaseOf c.voent = 0) :
    behind c = !ready (boundary hw c) := by
  rw [boundary_eq hw c hph]
  simp [behind, ready, hph]

theorem left_boundary (hw : Hw) {c : Console} (hph : phaseOf c.voent = 0) :
    has (boundary hw c).voent voeLeft = has c.voent voeLeft := by
  rw [boundary_eq hw c hph]
  dsimp only
  split
  · exact left_advanced _
  · rfl

theorem frame_guarded (hw : Hw) (sim : Sim) (c : Console) (hnet : has c.voent voeNet = true) :
    Guarded c (frame hw sim c) := by
  obtain ⟨s, k, hf⟩ := frame_eq hw sim c
  rcases voshim_cases hw c hnet with ⟨hph, h⟩ | ⟨hph, hr, h⟩ | ⟨hph, hr, h⟩
  · have hno : behind c = false := by simp [behind, hph]
    refine ⟨fun hb => absurd (hno.symm.trans hb) Bool.false_ne_true, fun _ => ?_⟩
    rw [hf, h, if_neg hph]
    exact ⟨by simp [vophi], rfl, left_step_phase _, rfl⟩
  · have hno : behind c = false := by rw [behind_boundary hw hph, hr]; rfl
    refine ⟨fun hb => absurd (hno.symm.trans hb) Bool.false_ne_true, fun _ => ?_⟩
    rw [hf, h, vont2_eq, if_pos hph]
    refine ⟨?_, stalls_ran _, ?_, ?_⟩
    · rw [boundary_eq hw c hph]; simp
    · exact (left_step_phase _).trans ((left_set_ran _).trans (left_boundary hw hph))
    · rw [boundary_eq hw c hph]
  · have hyes : behind c = true := by rw [behind_boundary hw hph, hr]; rfl
    refine ⟨fun _ => ?_, fun hb => absurd (hyes.symm.trans hb) Bool.false_ne_true.symm⟩
    have herr : (boundary hw c).voerr = c.voerr := by rw [boundary_eq hw c hph]
    have hbank : (boundary hw c).bank = c.bank := by rw [boundary_eq hw c hph]
    rw [hf, h, vostall]
    dsimp only
    rw [herr]
    by_cases hfull : stallsOf c.voerr = 15
    · rw [if_neg fun hlt => (lt_full_iff _).mp hlt hfull, if_pos hfull]
      exact ⟨rfl, left_set _, rfl⟩
    · rw [if_pos ((lt_full_iff _).mpr hfull), if_neg hfull]
      exact ⟨rfl, stalls_step _ hfull, left_boundary hw hph, hbank⟩

/-! ### The vigil -/

/-- What has become of the last PEER_LEFT: none was consumed yet, or no boundary has come to decide a
    tick since, or a tick has run since, or a boundary has stalled since. -/
inductive Leave where
  | never | fresh | passed | met
  deriving DecidableEq, Repr

/-- A console, how many frames in a row it has stalled, and the last PEER_LEFT. -/
structure Vigil where
  solo : Solo
  stalled : ℕ
  leave : Leave

/-- The PEER_LEFT after a boundary that stalls, -/
def Leave.stall : Leave → Leave
  | .never => .never
  | _ => .met

/-- and after one whose tick runs. -/
def Leave.run : Leave → Leave
  | .fresh => .passed
  | l => l

/-- The onlooker's account after an event. -/
def Vigil.after (v : Vigil) (t : Solo) : SoloEv → Vigil
  | .gate _ _ =>
    if behind v.solo.con then ⟨t, v.stalled + 1, v.leave.stall⟩
    else if phaseOf v.solo.con.voent = 0 then ⟨t, 0, v.leave.run⟩
    else ⟨t, 0, v.leave⟩
  | .micro m => ⟨t, v.stalled, if TakesLeft m v.solo.con then .fresh else v.leave⟩

theorem Leave.stall_never {l : Leave} : l.stall = .never ↔ l = .never := by
  cases l <;> simp [Leave.stall]

theorem Leave.run_never {l : Leave} : l.run = .never ↔ l = .never := by
  cases l <;> simp [Leave.run]

theorem Leave.run_met {l : Leave} : l.run = .met ↔ l = .met := by
  cases l <;> simp [Leave.run]

def Vigil.step (v : Vigil) (e : SoloEv) : Option Vigil :=
  (v.solo.step e).map fun t => v.after t e

/-- A console at its handover, watched. -/
def vigil : Machine Vigil SoloEv where
  init v := solo.init v.solo ∧ v.stalled = 0 ∧ v.leave = .never
  step := Vigil.step

variable {v w : Vigil} {e : SoloEv}

theorem Vigil.step_cases (h : v.step e = some w) : v.solo.con.bank = .game ∧
    ((∃ hw sim, e = .gate hw sim ∧ w = v.after (v.solo.gate hw sim) e) ∨
      ∃ m, e = .micro m ∧ w = v.after (v.solo.micro m) e) := by
  obtain ⟨t, ht, rfl⟩ := Option.map_eq_some_iff.mp h
  obtain ⟨hbank, ⟨hw, sim, rfl, rfl⟩ | ⟨m, rfl, rfl⟩⟩ := Solo.step_cases ht
  · exact ⟨hbank, .inl ⟨hw, sim, rfl, rfl⟩⟩
  · exact ⟨hbank, .inr ⟨m, rfl, rfl⟩⟩

/-- What the count says while the match goes on. -/
structure Vigil.Kept (v : Vigil) : Prop where
  net : has v.solo.con.voent voeNet = true
  never : v.leave = .never → v.solo.con.bank = .game →
    stallsOf v.solo.con.voerr = v.stalled ∧ has v.solo.con.voent voeLeft = false
  mid : v.leave = .never → phaseOf v.solo.con.voent ≠ 0 → stallsOf v.solo.con.voerr = 0
  fresh : v.leave = .fresh → stallsOf v.solo.con.voerr = 15
  passed : v.leave = .passed → stallsOf v.solo.con.voerr = 0

theorem frame_phase {hw : Hw} {sim : Sim} {c : Console} (hnet : has c.voent voeNet = true)
    (hb : behind c = true) : phaseOf (frame hw sim c).voent = 0 := by
  have hadv := ((frame_guarded hw sim c hnet).waits hb).1
  rcases frame_cases hw sim c hnet with ⟨-, hmid | hrun | hstall⟩
  · exact absurd hadv hmid.adv
  · exact absurd hadv hrun.adv
  · exact hstall.phase

theorem Vigil.Kept.gate (h : v.Kept) (hbank : v.solo.con.bank = .game) (hw : Hw) (sim : Sim) :
    (v.after (v.solo.gate hw sim) (.gate hw sim)).Kept := by
  have hd := frame_guarded hw sim v.solo.con h.net
  have hnet : has (frame hw sim v.solo.con).voent voeNet = true :=
    (frame_cases hw sim v.solo.con h.net).1.net.trans h.net
  simp only [Vigil.after]
  cases hb : behind v.solo.con with
  | true =>
    obtain ⟨-, hstall⟩ := hd.waits hb
    have hphase : phaseOf (frame hw sim v.solo.con).voent = 0 := frame_phase h.net hb
    rw [if_pos rfl]
    refine ⟨hnet, fun hl hgame => ?_, fun _ hne => absurd hphase hne, fun hl => ?_, fun hl => ?_⟩
    · obtain ⟨hcount, hleft⟩ := h.never (Leave.stall_never.mp hl) hbank
      split_ifs at hstall with hfull
      · exact absurd (hstall.2.symm.trans hgame) (by decide)
      · exact ⟨hstall.1.trans (by rw [hcount]), hstall.2.1.trans hleft⟩
    all_goals cases hv : v.leave <;> simp [hv, Leave.stall] at hl
  | false =>
    obtain ⟨-, hcount, hleft, -⟩ := hd.goes hb
    rw [if_neg Bool.false_ne_true]
    split_ifs at hcount ⊢ with hph
    · -- the tick runs, and the count is cleared
      refine ⟨hnet, fun hl _ => ⟨hcount, ?_⟩, fun _ _ => hcount, fun hl => ?_, fun _ => hcount⟩
      · exact hleft.trans (h.never (Leave.run_never.mp hl) hbank).2
      · cases hv : v.leave <;> simp [hv, Leave.run] at hl
    · -- mid-tick it is left alone, and is zero already
      exact ⟨hnet, fun hl _ => ⟨hcount.trans (h.mid hl hph), hleft.trans (h.never hl hbank).2⟩,
        fun hl _ => hcount.trans (h.mid hl hph), fun hl => hcount.trans (h.fresh hl),
        fun hl => hcount.trans (h.passed hl)⟩

theorem Vigil.Kept.micro (h : v.Kept) (m : Mail) : (v.after (v.solo.micro m) (.micro m)).Kept := by
  have k : VO.Kept v.solo.con (v.solo.micro m).con := kept_vonstep m v.solo.con v.solo.regs
  have hnet := k.net.trans h.net
  simp only [Vigil.after]
  by_cases hleft : TakesLeft m v.solo.con
  · rw [if_pos hleft]
    exact ⟨hnet, nofun, nofun, fun _ => (vonstep_takesLeft v.solo.regs hleft).1, nofun⟩
  · rw [if_neg hleft]
    have hcalm : Calm v.solo.con (v.solo.micro m).con := calm_vonstep v.solo.regs hleft
    refine ⟨hnet, fun hl hgame => ?_, fun hl hne => ?_, fun hl => ?_, fun hl => ?_⟩
    · obtain ⟨hcount, hno⟩ := h.never hl (k.bank.symm.trans hgame)
      exact ⟨hcalm.stalls.trans hcount, hcalm.left.trans hno⟩
    · exact hcalm.stalls.trans (h.mid hl (k.phase ▸ hne))
    · exact hcalm.stalls.trans (h.fresh hl)
    · exact hcalm.stalls.trans (h.passed hl)

theorem Vigil.Kept.step (h : v.Kept) (hst : v.step e = some w) : w.Kept := by
  obtain ⟨hbank, ⟨hw, sim, rfl, rfl⟩ | ⟨m, rfl, rfl⟩⟩ := Vigil.step_cases hst
  · exact h.gate hbank hw sim
  · exact h.micro m

theorem kept_of_init (h : vigil.init v) : v.Kept := by
  obtain ⟨⟨role, hw, c, r, hs⟩, hstalled, hl⟩ := h
  have hleft : ∀ b : Byte, has (roleBit b ||| (voeNet ||| voeRan)) voeLeft = false := by decide
  refine ⟨?_, fun _ _ => ?_, fun _ _ => ?_, fun hf => ?_, fun hf => ?_⟩
  · rw [hs]
    exact (Sound.start_of role hw c r).net
  · rw [hs, hstalled]
    exact ⟨stalls_ran 0, hleft role⟩
  · rw [hs]
    exact stalls_ran 0
  · cases hl.symm.trans hf
  · cases hl.symm.trans hf

/-- A host at its handover, watched. -/
def Vigil.rest : Vigil := ⟨Solo.rest, 0, .never⟩

theorem vigil_rest : vigil.init Vigil.rest :=
  ⟨⟨0, Hw.rest, Console.cleared, Regs.cleared, rfl⟩, rfl, rfl⟩

/-! ### The second -/

/-- If no PEER_LEFT was consumed, the bit that says the peer is gone has waited for fifteen ticks'
    worth of stalled frames in a row. -/
def Vigil.Patient (v : Vigil) : Prop :=
  v.leave = .never → has v.solo.con.voent voeLeft = true → 15 * vok ≤ v.stalled

/-- The gate does not find the sixteenth stall in a row. -/
def Vigil.Hiccup (v : Vigil) : SoloEv → Prop
  | .gate _ _ => v.leave = .never → behind v.solo.con = true → v.stalled ≠ 15
  | .micro _ => True

instance (v : Vigil) : Decidable v.Patient := inferInstanceAs (Decidable (_ → _ → _ ≤ _))

instance (v : Vigil) : ∀ e, Decidable (v.Hiccup e)
  | .gate _ _ => inferInstanceAs (Decidable (_ → _ → _ ≠ _))
  | .micro _ => .isTrue trivial

theorem Vigil.Kept.patient_iff (h : v.Kept) (hp : v.Patient) (hst : v.step e = some w) :
    w.Patient ↔ v.Hiccup e := by
  obtain ⟨hbank, ⟨hw, sim, rfl, rfl⟩ | ⟨m, rfl, rfl⟩⟩ := Vigil.step_cases hst
  · have hd := frame_guarded hw sim v.solo.con h.net
    simp only [Vigil.Patient, Vigil.Hiccup, Vigil.after]
    cases hb : behind v.solo.con with
    | true =>
      obtain ⟨-, hstall⟩ := hd.waits hb
      simp only [if_true, Leave.stall_never, forall_true_left]
      refine forall_congr' fun hl => ?_
      obtain ⟨hcount, hleft⟩ := h.never hl hbank
      rw [hcount] at hstall
      split_ifs at hstall with hfull
      · -- sixteen, and the bit is set
        refine iff_of_false (fun hlong => ?_) fun hne => hne hfull
        have := hlong hstall.1
        rw [hfull] at this
        exact absurd this (by decide)
      · exact iff_of_true (fun hset => absurd (hset.symm.trans (hstall.2.1.trans hleft)) (by decide))
          hfull
    | false =>
      obtain ⟨-, -, hleft, -⟩ := hd.goes hb
      have hno (hl : v.leave = .never) : has (v.solo.gate hw sim).con.voent voeLeft = false :=
        hleft.trans (h.never hl hbank).2
      refine iff_of_true ?_ nofun
      rw [if_neg Bool.false_ne_true]
      split_ifs
      · exact fun hl hset => absurd (hset.symm.trans (hno (Leave.run_never.mp hl))) (by decide)
      · exact fun hl hset => absurd (hset.symm.trans (hno hl)) (by decide)
  · refine iff_of_true ?_ trivial
    simp only [Vigil.Patient, Vigil.after]
    split_ifs with hleft
    · exact nofun
    · have hcalm : Calm v.solo.con (v.solo.micro m).con := calm_vonstep v.solo.regs hleft
      exact fun hl hset => hp hl (hcalm.left.symm.trans hset)

/-- The watchdog waits for a second's worth of stalled frames in a row just when no gate finds the
    sixteenth. -/
theorem second_waited_iff {es : List SoloEv} (h₀ : vigil.init v) :
    vigil.Throughout Vigil.Patient v es ↔ vigil.EachStep Vigil.Hiccup v es := by
  have h := kept_of_init h₀
  refine vigil.throughout_iff_eachStep (fun _ _ _ h hst => h.step hst)
    (fun _ _ _ h hp hst => h.patient_iff hp hst) h fun hl hset => ?_
  obtain ⟨⟨role, hw, c, r, hs⟩, -, -⟩ := h₀
  have hgame : v.solo.con.bank = .game := by rw [hs]; rfl
  exact absurd (hset.symm.trans (h.never hl hgame).2) (by decide)

/-- Fifteen stalls, then a record, a tick of four frames and ten more stalls. -/
theorem second_waited_iff_hiccup :
    vigil.Throughout Vigil.Patient Vigil.rest (restFrames 15 ++
      firstRecord (recordBytes 0 (0, 0xFF) (0, 0xFF) (0, 0xFF) 0) ++ restFrames 14) :=
  (second_waited_iff vigil_rest).mpr (by decide +kernel)

/-- A peer that has nothing to say for sixteen frames, four ticks' worth, is taken to be gone. -/
theorem sixteen_frames : vigil.init Vigil.rest ∧
    ∃ w, vigil.run Vigil.rest (restFrames 16) = some w ∧ w.leave = .never ∧
      has w.solo.con.voent voeLeft = true ∧ w.stalled = 16 ∧ ¬w.Patient :=
  ⟨vigil_rest, vigil.exists_run (by decide +kernel)⟩

/-! ### The leave -/

/-- The first boundary to stall after a PEER_LEFT has handed over. -/
def Vigil.LeaveMet (v : Vigil) : Prop :=
  v.leave = .met → v.solo.con.bank = .boot ∧ has v.solo.con.voent voeLeft = true

/-- No tick has run between the PEER_LEFT and the boundary that stalls. -/
def Vigil.AtOnce (v : Vigil) : SoloEv → Prop
  | .gate _ _ => behind v.solo.con = true → v.leave ≠ .passed
  | .micro _ => True

instance (v : Vigil) : Decidable v.LeaveMet := inferInstanceAs (Decidable (_ → _ ∧ _))

instance (v : Vigil) : ∀ e, Decidable (v.AtOnce e)
  | .gate _ _ => inferInstanceAs (Decidable (_ → _ ≠ _))
  | .micro _ => .isTrue trivial

theorem Vigil.Kept.leaveMet_iff (h : v.Kept) (hm : v.LeaveMet) (hst : v.step e = some w) :
    w.LeaveMet ↔ v.AtOnce e := by
  obtain ⟨hbank, ⟨hw, sim, rfl, rfl⟩ | ⟨m, rfl, rfl⟩⟩ := Vigil.step_cases hst
  · have hnot : v.leave ≠ .met := fun hl => absurd (hbank.symm.trans (hm hl).1) (by decide)
    have hd := frame_guarded hw sim v.solo.con h.net
    simp only [Vigil.LeaveMet, Vigil.AtOnce, Vigil.after]
    cases hb : behind v.solo.con with
    | true =>
      obtain ⟨-, hstall⟩ := hd.waits hb
      simp only [if_true, forall_true_left]
      cases hl : v.leave with
      | never => exact iff_of_true nofun nofun
      | fresh =>
        rw [if_pos (h.fresh hl)] at hstall
        exact iff_of_true (fun _ => hstall.symm) nofun
      | passed =>
        -- the count was cleared, and this stall only starts it again
        rw [if_neg (by rw [h.passed hl]; decide)] at hstall
        exact iff_of_false (fun hmet => absurd ((hmet rfl).1.symm.trans (hstall.2.2.trans hbank))
          (by decide)) fun hne => hne rfl
      | met => exact absurd hl hnot
    | false =>
      refine iff_of_true ?_ nofun
      rw [if_neg Bool.false_ne_true]
      split_ifs
      · exact fun hl => absurd (Leave.run_met.mp hl) hnot
      · exact fun hl => absurd hl hnot
  · refine iff_of_true ?_ trivial
    have hnot : v.leave ≠ .met := fun hl => absurd (hbank.symm.trans (hm hl).1) (by decide)
    simp only [Vigil.LeaveMet, Vigil.after]
    split_ifs
    · exact nofun
    · exact fun hl => absurd hl hnot

/-- After a PEER_LEFT the first boundary to stall hands over just when no tick has run between the
    two. -/
theorem leave_met_iff {es : List SoloEv} (h₀ : vigil.init v) :
    vigil.Throughout Vigil.LeaveMet v es ↔ vigil.EachStep Vigil.AtOnce v es :=
  vigil.throughout_iff_eachStep (fun _ _ _ h hst => h.step hst)
    (fun _ _ _ h hm hst => h.leaveMet_iff hm hst) (kept_of_init h₀)
    fun hl => absurd (h₀.2.2.symm.trans hl) (by decide)

/-- A PEER_LEFT frame. -/
def leftBytes : List Byte := [irLen - 1, wtLeft] ++ List.replicate 14 0

/-- The first READ of a match brings the peer's record for tick 2 and its PEER_LEFT. -/
def lastWords : List SoloEv :=
  let bytes := recordBytes 2 (0, 0xFF) (0, 0xFF) (0, 0xFF) 0 ++ leftBytes
  [.micro (painted 0 [] 0), .micro (painted 1 [] 0), .micro (painted 1 [] 0),
    .micro (painted 2 [32, 0, 1, 1] 0), .micro (painted 2 [] 0), .micro (painted 3 bytes 32),
    .micro (painted 3 bytes 32), .micro (painted 3 bytes 32)]

/-- A console that is stalled already leaves at once. -/
theorem leave_met_iff_stalled : vigil.Throughout Vigil.LeaveMet Vigil.rest
    (restFrames 3 ++ firstRecord leftBytes ++ restFrames 1) :=
  (leave_met_iff vigil_rest).mpr (by decide +kernel)

/-- Of one READ the PEER_LEFT is consumed first; the three ticks the record brings run, and the
    boundary that then stalls only begins to count. -/
theorem leave_forgotten : vigil.init Vigil.rest ∧
    ∃ w, vigil.run Vigil.rest (lastWords ++ restFrames 13) = some w ∧ w.leave = .met ∧
      w.solo.con.bank = .game ∧ stallsOf w.solo.con.voerr = 1 ∧ ¬w.LeaveMet :=
  ⟨vigil_rest, vigil.exists_run (by decide +kernel)⟩

end VO
