import VideoOlympics.Console.Gate
import VideoOlympics.Console.Record

/-! What one gate can do, said once: it steps the phase mid-tick, it runs the tick, or it stalls, and
    before either of the last two it may advance. Every invariant of the console is read off these
    equations and the bit tables of `VOENT`. -/

namespace VO

/-! ### The bits of `VOENT` -/

/-- The frame-in-tick phase as a number. -/
def phaseOf (e : Byte) : ℕ := (e >>> 6).toNat

theorem has_voePh : ∀ e : Byte, has e voePh = decide (phaseOf e ≠ 0) := by decide

theorem phaseOf_lt : ∀ e : Byte, phaseOf e < 4 := by decide

@[simp] theorem step_phase : ∀ e : Byte, has (e + voePh1) voeNet = has e voeNet ∧
    has (e + voePh1) voeRole = has e voeRole ∧ has (e + voePh1) voeRan = has e voeRan ∧
    has (e + voePh1) voeRsy = has e voeRsy ∧ phaseOf (e + voePh1) = (phaseOf e + 1) % 4 := by
  decide +kernel

@[simp] theorem clear_ran : ∀ e : Byte, has (e &&& (0xFF#8 - voeRan)) voeNet = has e voeNet ∧
    has (e &&& (0xFF#8 - voeRan)) voeRole = has e voeRole ∧
    has (e &&& (0xFF#8 - voeRan)) voeRan = false ∧
    has (e &&& (0xFF#8 - voeRan)) voeRsy = has e voeRsy ∧
    phaseOf (e &&& (0xFF#8 - voeRan)) = phaseOf e := by
  decide +kernel

@[simp] theorem set_ran : ∀ e : Byte, has (e ||| voeRan) voeNet = has e voeNet ∧
    has (e ||| voeRan) voeRole = has e voeRole ∧ has (e ||| voeRan) voeRan = true ∧
    has (e ||| voeRan) voeRsy = has e voeRsy ∧ phaseOf (e ||| voeRan) = phaseOf e := by
  decide +kernel

@[simp] theorem set_left : ∀ e : Byte, has (e ||| voeLeft) voeNet = has e voeNet ∧
    has (e ||| voeLeft) voeRole = has e voeRole ∧ has (e ||| voeLeft) voeRan = has e voeRan ∧
    has (e ||| voeLeft) voeRsy = has e voeRsy ∧ phaseOf (e ||| voeLeft) = phaseOf e := by
  decide +kernel

@[simp] theorem set_rsy : ∀ e : Byte, has (e ||| voeRsy) voeNet = has e voeNet ∧
    has (e ||| voeRsy) voeRole = has e voeRole ∧ has (e ||| voeRsy) voeRan = has e voeRan ∧
    has (e ||| voeRsy) voeRsy = true ∧ phaseOf (e ||| voeRsy) = phaseOf e := by
  decide +kernel

@[simp] theorem clear_rsy : ∀ e : Byte, has ((e &&& voeRsy) ^^^ e) voeNet = has e voeNet ∧
    has ((e &&& voeRsy) ^^^ e) voeRole = has e voeRole ∧
    has ((e &&& voeRsy) ^^^ e) voeRan = has e voeRan ∧
    has ((e &&& voeRsy) ^^^ e) voeRsy = false ∧ phaseOf ((e &&& voeRsy) ^^^ e) = phaseOf e := by
  decide +kernel

/-! ### The advance -/

/-- What a capture puts on the wire: the filtered paddle and the switches, RESET pressed if armed. -/
def capture (hw : Hw) (c : Console) : Byte × Byte :=
  (hw.bb, if has c.voent voeRsy then vocapSw hw &&& (0xFF#8 - iwRst) else vocapSw hw)

/-- `VOENT` after an advance: RAN consumed, and an armed repair too. -/
def advanced (e : Byte) : Byte :=
  let e := e &&& (0xFF#8 - voeRan)
  if has e voeRsy then (e &&& voeRsy) ^^^ e else e

@[simp] theorem advanced_bits : ∀ e : Byte, has (advanced e) voeNet = has e voeNet ∧
    has (advanced e) voeRole = has e voeRole ∧ has (advanced e) voeRan = false ∧
    has (advanced e) voeRsy = false ∧ phaseOf (advanced e) = phaseOf e := by
  decide +kernel

theorem vont1a_eq (hw : Hw) (c : Console) : vont1a hw c =
    { c with votick := c.votick + 1, voent := advanced c.voent, vocrcv := c.vocrck,
             votmp := (capture hw c).2,
             voloc := ringPut c.voloc volm (c.votick + 1 + vod) (capture hw c).1 (capture hw c).2 } := by
  have hr := (clear_ran c.voent).2.2.2.1
  simp only [vont1a, vocap, capture, advanced, hr]
  split <;> rfl

/-- The boundary up to the watermark test. -/
def boundary (hw : Hw) (c : Console) : Console :=
  if has c.voent voeRan then vont1a hw { c with voadv := 0xFF#8 } else { c with voadv := 0xFF#8 }

/-! ### The running tick -/

/-- The synthetic SWCHA of two switch bytes, the host's first. -/
def mixSwa (h g : Byte) : Byte := (((g &&& saL) >>> 4) ||| (h &&& saL)) ||| 0x33#8

/-- The synthetic SWCHB, but for the left difficulty and B&W already placed in it. -/
def mixTmp (swchb h g : Byte) : Byte :=
  ((h &&& iwDiff) <<< 3) ||| (((swchb &&& 0x08#8) ||| (((h &&& g) >>> 4) &&& 0x03#8)) ||| 0x34#8)

def mixSwb (swchb h g : Byte) : Byte := ((g &&& iwDiff) <<< 4) ||| mixTmp swchb h g

/-- The host's wire bytes, given our own and the peer's. -/
def hostOf (role : Bool) (own peer : Byte × Byte) : Byte × Byte := if role then peer else own

/-- A running tick: the shadows are the mix of the two rings' bytes for it, and the phase moves on. -/
theorem vont2_eq (hw : Hw) (c : Console) : vont2 hw c =
    let own := ringAt c.voloc volm c.votick
    let peer := ringAt c.voring vorm c.votick
    let h := hostOf (has c.voent voeRole) own peer
    let g := hostOf (has c.voent voeRole) peer own
    { c with voerr := c.voerr &&& 0x0F#8, vow0 := h.2, vow1 := g.2, vow2 := h.1, vow3 := g.1,
             vopad0 := h.1, vopad2 := g.1, voswa := mixSwa h.2 g.2,
             votmp := mixTmp hw.swchb h.2 g.2, voswb := mixSwb hw.swchb h.2 g.2,
             voent := (c.voent ||| voeRan) + voePh1 } := by
  cases hr : has c.voent voeRole <;>
    simp only [vont2, hr, hostOf, vomix, vophi, mixSwa, mixSwb, mixTmp, if_true, if_false,
      Bool.false_eq_true]

/-- One gate of a networked console, split by what it decides. -/
theorem voshim_cases (hw : Hw) (c : Console) (hnet : has c.voent voeNet = true) :
    (phaseOf c.voent ≠ 0 ∧ voshim hw c = vophi { c with voadv := 0xFF#8 }) ∨
    (phaseOf c.voent = 0 ∧ ready (boundary hw c) = true ∧ voshim hw c = vont2 hw (boundary hw c)) ∨
    (phaseOf c.voent = 0 ∧ ready (boundary hw c) = false ∧
      voshim hw c = vostall (boundary hw c)) := by
  have hshim : voshim hw c = vonet hw { c with voadv := 0xFF#8 } := by simp [voshim, hnet]
  by_cases hph : phaseOf c.voent = 0
  · have hb : voshim hw c = vont1b hw (boundary hw c) := by
      rw [hshim, vonet, has_voePh, decide_eq_false (not_not_intro hph), if_neg Bool.false_ne_true,
        vont1, boundary]
      exact (apply_ite (vont1b hw) _ _ _).symm
    cases hr : ready (boundary hw c) with
    | true => exact .inr (.inl ⟨hph, rfl, by simp [hb, vont1b, hr]⟩)
    | false => exact .inr (.inr ⟨hph, rfl, by simp [hb, vont1b, hr]⟩)
  · refine .inl ⟨hph, ?_⟩
    rw [hshim, vonet, has_voePh, decide_eq_true hph, if_pos rfl]

/-! ### A frame -/

/-- This gate is a boundary whose tick ran: it will advance. -/
def advances (c : Console) : Bool := phaseOf c.voent == 0 && has c.voent voeRan

/-- What every frame of a networked console does with the tick, the sample, the capture and the
    transport's cells, whatever it decides. -/
structure Gated (hw : Hw) (c c' : Console) : Prop where
  votick : c'.votick = if advances c then c.votick + 1 else c.votick
  vocrcv : c'.vocrcv = if advances c then c.vocrck else c.vocrcv
  voloc : c'.voloc = if advances c
    then ringPut c.voloc volm (c.votick + 1 + vod) (capture hw c).1 (capture hw c).2 else c.voloc
  vonst : c'.vonst = c.vonst
  voseq : c'.voseq = c.voseq
  vordn : c'.vordn = c.vordn
  vorwat : c'.vorwat = c.vorwat
  voring : c'.voring = c.voring
  pad1 : c'.vopad1 = c.vopad1
  pad3 : c'.vopad3 = c.vopad3
  net : has c'.voent voeNet = has c.voent voeNet
  role : has c'.voent voeRole = has c.voent voeRole

/-- The shadows are as they were. -/
structure SameShadows (c c' : Console) : Prop where
  pad0 : c'.vopad0 = c.vopad0
  pad2 : c'.vopad2 = c.vopad2
  swa : c'.voswa = c.voswa
  swb : c'.voswb = c.voswb

/-- A mid-tick frame: the logic runs on the shadows that are there. -/
structure MidTick (c c' : Console) : Prop where
  before : phaseOf c.voent ≠ 0
  adv : c'.voadv ≠ 0
  phase : phaseOf c'.voent = (phaseOf c.voent + 1) % 4
  ran : has c'.voent voeRan = has c.voent voeRan
  bank : c'.bank = c.bank
  shadows : SameShadows c c'

/-- A boundary whose tick runs: the shadows are the mix of the two rings' bytes for it. -/
structure RunTick (hw : Hw) (c c' : Console) : Prop where
  before : phaseOf c.voent = 0
  ready : ready c' = true
  adv : c'.voadv ≠ 0
  phase : phaseOf c'.voent = 1
  ran : has c'.voent voeRan = true
  bank : c'.bank = c.bank
  host : c'.vopad0 = (hostOf (has c.voent voeRole) (ringAt c'.voloc volm c'.votick)
    (ringAt c'.voring vorm c'.votick)).1
  guest : c'.vopad2 = (hostOf (has c.voent voeRole) (ringAt c'.voring vorm c'.votick)
    (ringAt c'.voloc volm c'.votick)).1
  swa : c'.voswa = mixSwa
    (hostOf (has c.voent voeRole) (ringAt c'.voloc volm c'.votick) (ringAt c'.voring vorm c'.votick)).2
    (hostOf (has c.voent voeRole) (ringAt c'.voring vorm c'.votick) (ringAt c'.voloc volm c'.votick)).2
  swb : c'.voswb = mixSwb hw.swchb
    (hostOf (has c.voent voeRole) (ringAt c'.voloc volm c'.votick) (ringAt c'.voring vorm c'.votick)).2
    (hostOf (has c.voent voeRole) (ringAt c'.voring vorm c'.votick) (ringAt c'.voloc volm c'.votick)).2
  own : (if has c'.voent voeRole then (c'.vow3, c'.vow1) else (c'.vow2, c'.vow0)) =
    ringAt c'.voloc volm c'.votick

/-- A boundary that stalls: no logic, nothing shown, and either a longer stall or the boot bank. -/
structure StallTick (hw : Hw) (c c' : Console) : Prop where
  before : phaseOf c.voent = 0
  ready : ready c' = false
  adv : c'.voadv = 0
  phase : phaseOf c'.voent = 0
  ran : has c'.voent voeRan = false
  shadows : SameShadows c c'

variable (hw : Hw) (sim : Sim) (c : Console)

theorem boundary_eq (h : phaseOf c.voent = 0) : boundary hw c =
    { c with voadv := 0xFF#8
             votick := if advances c then c.votick + 1 else c.votick
             voent := if advances c then advanced c.voent else c.voent
             vocrcv := if advances c then c.vocrck else c.vocrcv
             votmp := if advances c then (capture hw c).2 else c.votmp
             voloc := if advances c then
               ringPut c.voloc volm (c.votick + 1 + vod) (capture hw c).1 (capture hw c).2
               else c.voloc } := by
  have hadv : advances c = has c.voent voeRan := by simp [advances, h]
  rw [boundary, hadv]
  cases has c.voent voeRan <;> simp [vont1a_eq, capture]

/-- A frame is its gate, but for the cells the game and the checksum leave. -/
theorem frame_eq : ∃ s k, frame hw sim c = { voshim hw c with sim := s, vocrck := k } := by
  simp only [frame]
  split
  · exact ⟨(voshim hw c).sim, (voshim hw c).vocrck, rfl⟩
  · exact ⟨sim, vocrc sim, rfl⟩

theorem frame_mid (hph : phaseOf c.voent ≠ 0)
    (h : voshim hw c = vophi { c with voadv := 0xFF#8 }) :
    Gated hw c (frame hw sim c) ∧ MidTick c (frame hw sim c) := by
  obtain ⟨s, k, hf⟩ := frame_eq hw sim c
  have hadv : advances c = false := by simp [advances, hph]
  rw [hf, h]
  refine ⟨?_, ?_⟩
  · constructor <;> simp [vophi, hadv]
  · constructor <;> first | exact hph | constructor <;> rfl | simp [vophi]

theorem frame_run (hph : phaseOf c.voent = 0) (hr : ready (boundary hw c) = true)
    (h : voshim hw c = vont2 hw (boundary hw c)) :
    Gated hw c (frame hw sim c) ∧ RunTick hw c (frame hw sim c) := by
  obtain ⟨s, k, hf⟩ := frame_eq hw sim c
  have hrole : has (boundary hw c).voent voeRole = has c.voent voeRole := by
    rw [boundary_eq hw c hph]; dsimp only; split <;> simp
  have hphase : phaseOf (boundary hw c).voent = 0 := by
    rw [boundary_eq hw c hph]; dsimp only; split <;> simp [hph]
  have hready : ready (boundary hw c) = ready (frame hw sim c) := by
    rw [hf, h, vont2_eq]; rfl
  refine ⟨?_, ?_⟩
  · rw [hf, h, vont2_eq, boundary_eq hw c hph]
    cases hadv : advances c <;> constructor <;> simp [hadv]
  · rw [hready] at hr
    refine ⟨hph, hr, ?_, ?_, ?_, ?_, ?_, ?_, ?_, ?_, ?_⟩ <;> rw [hf, h, vont2_eq]
    · rw [boundary_eq hw c hph]; simp
    · simp [hphase]
    · simp
    · rw [boundary_eq hw c hph]
    all_goals simp only [hrole]
    · simp only [step_phase, set_ran, hrole]
      cases has c.voent voeRole <;> simp [hostOf]

/-- A stall counts, or leaves for the boot bank; either way it only adds to `VOENT`. -/
theorem vostall_eq (c : Console) : ∃ w e bk,
    vostall c = { c with voadv := 0, voerr := w, voent := e, bank := bk } ∧
    has e voeNet = has c.voent voeNet ∧ has e voeRole = has c.voent voeRole ∧
    has e voeRan = has c.voent voeRan ∧ phaseOf e = phaseOf c.voent := by
  simp only [vostall]
  split
  · exact ⟨_, _, _, rfl, rfl, rfl, rfl, rfl⟩
  · exact ⟨_, _, _, rfl, by simp, by simp, by simp, by simp⟩

theorem frame_stall (hph : phaseOf c.voent = 0) (hr : ready (boundary hw c) = false)
    (h : voshim hw c = vostall (boundary hw c)) :
    Gated hw c (frame hw sim c) ∧ StallTick hw c (frame hw sim c) := by
  obtain ⟨s, k, hf⟩ := frame_eq hw sim c
  obtain ⟨w, e, bk, hst, hnet, hrole, hran, hphase⟩ := vostall_eq (boundary hw c)
  have hoff : advances c = false → has c.voent voeRan = false := by simp [advances, hph]
  have hready : ready (boundary hw c) = ready (frame hw sim c) := by rw [hf, h, hst]; rfl
  rw [hready] at hr
  rw [boundary_eq hw c hph] at hst hnet hrole hran hphase
  rw [boundary_eq hw c hph, hst] at h
  refine ⟨?_, hph, hr, ?_, ?_, ?_, ?_⟩ <;> rw [hf, h]
  · cases hadv : advances c <;> constructor <;> simp_all
  · cases hadv : advances c <;> simp_all
  · cases hadv : advances c <;> simp_all
  · constructor <;> rfl

/-- One frame of a networked console: what it always does, and the three ways it can go. -/
theorem frame_cases (hnet : has c.voent voeNet = true) : Gated hw c (frame hw sim c) ∧
    (MidTick c (frame hw sim c) ∨ RunTick hw c (frame hw sim c) ∨
      StallTick hw c (frame hw sim c)) := by
  rcases voshim_cases hw c hnet with ⟨hph, h⟩ | ⟨hph, hr, h⟩ | ⟨hph, hr, h⟩
  · exact (frame_mid hw sim c hph h).imp_right .inl
  · exact (frame_run hw sim c hph hr h).imp_right (.inr ∘ .inl)
  · exact (frame_stall hw sim c hph hr h).imp_right (.inr ∘ .inr)

end VO
