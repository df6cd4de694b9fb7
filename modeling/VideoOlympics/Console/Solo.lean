import VideoOlympics.Base.Machine
import VideoOlympics.Console.Boundary

/-! One console on its own: any sequence of frames and micro-steps from the handover state, whatever
    its controllers, the game and the cartridge do. A `Tape` beside the console records what an
    onlooker counts in unbounded integers; the console never reads it. -/

namespace VO

/-- One record as it went out, with the unbounded tick its window ends at. -/
structure Rec where
  stamp : ℤ
  bytes : List Byte
  deriving DecidableEq, Repr

/-- What one logic frame ran with. -/
structure Shown where
  tick : ℤ
  votick : Byte
  pad0 : Byte
  pad1 : Byte
  pad2 : Byte
  pad3 : Byte
  swa : Byte
  swb : Byte
  deriving DecidableEq, Repr

/-- The onlooker's record of a console: its unbounded tick, what it captured for each tick and
    sampled on entering each, every record it wrote, every tick its gate ran with the bytes it took
    from the local ring, and what each logic frame was shown, oldest first. -/
structure Tape where
  tick : ℤ
  cap : ℤ → Byte × Byte
  crc : ℤ → Byte
  sent : List Rec
  took : List (ℤ × (Byte × Byte))
  shown : List Shown

/-- A console, the registers it drives and its tape. -/
structure Solo where
  con : Console
  regs : Regs
  tape : Tape

inductive SoloEv where
  /-- A frame: the gate, with the hardware it reads, and the cells the game leaves. -/
  | gate (hw : Hw) (sim : Sim)
  /-- A micro-step, with what the cartridge is showing. -/
  | micro (m : Mail)

/-- This gate decided a tick and let it run. -/
def ranTick (pre post : Console) : Bool := phaseOf pre.voent == 0 && post.voadv != 0

/-- Our own bytes as the gate left them in the work cells. -/
def ownWork (c : Console) : Byte × Byte :=
  if has c.voent voeRole then (c.vow3, c.vow1) else (c.vow2, c.vow0)

def Shown.of (tick : ℤ) (c : Console) : Shown :=
  ⟨tick, c.votick, c.vopad0, c.vopad1, c.vopad2, c.vopad3, c.voswa, c.voswb⟩

/-- The tape after a gate that took `pre` to `post`. -/
def Tape.gate (pre post : Console) (tp : Tape) : Tape :=
  let tick := if advances pre then tp.tick + 1 else tp.tick
  { tick := tick
    cap := if advances pre
      then Function.update tp.cap (tick + 2) (ringAt post.voloc volm (post.votick + vod)) else tp.cap
    crc := if advances pre then Function.update tp.crc tick post.vocrcv else tp.crc
    sent := tp.sent
    took := if ranTick pre post then tp.took ++ [(tick, ownWork post)] else tp.took
    shown := if post.voadv != 0 then tp.shown ++ [Shown.of tick post] else tp.shown }

/-- The tape after a micro-step: a WRITE puts the streamed frame on it. -/
def Tape.micro (pre : Console) (regs : Regs) (tp : Tape) : Tape :=
  if pre.vonst = .wiss then { tp with sent := tp.sent ++ [⟨tp.tick + 2, regs.tx.drop 3⟩] } else tp

def Solo.gate (hw : Hw) (sim : Sim) (s : Solo) : Solo :=
  let post := frame hw sim s.con
  { s with con := post, tape := s.tape.gate s.con post }

def Solo.micro (m : Mail) (s : Solo) : Solo :=
  let post := vonstep m s.con s.regs
  { con := post.1, regs := post.2, tape := s.tape.micro s.con post.2 }

/-- Frames and micro-steps happen only while the game's banks are the ones mapped. -/
def Solo.step (s : Solo) (e : SoloEv) : Option Solo :=
  if s.con.bank = .game then
    match e with
    | .gate hw sim => some (s.gate hw sim)
    | .micro m => if has s.con.voent voeNet then some (s.micro m) else none
  else none

theorem Solo.step_cases {s t : Solo} {e : SoloEv} (h : s.step e = some t) :
    s.con.bank = .game ∧
    ((∃ hw sim, e = .gate hw sim ∧ t = s.gate hw sim) ∨ (∃ m, e = .micro m ∧ t = s.micro m)) := by
  rw [Solo.step.eq_def] at h
  split at h
  · rename_i hbank
    refine ⟨hbank, ?_⟩
    cases e with
    | gate hw sim => exact .inl ⟨hw, sim, rfl, (Option.some.inj h).symm⟩
    | micro m =>
      simp only [Option.ite_none_right_eq_some, Option.some.injEq] at h
      exact .inr ⟨m, rfl, h.2.symm⟩
  · simp at h

/-- A blank tape: tick −1, and idle for the ticks nobody will ever send. -/
def Tape.blank (c : Console) : Tape :=
  { tick := -1, cap := fun _ => (vopIdle, iwIdle), crc := fun _ => c.vocrcv, sent := [], took := [],
    shown := [] }

/-- The handover state of a console given this role by START. -/
def Solo.start (role : Byte) (hw : Hw) (c : Console) (r : Regs) : Solo :=
  let c := handover hw { c with voent := roleBit role }
  ⟨c, r, Tape.blank c⟩

def solo : Machine Solo SoloEv where
  init s := ∃ role hw c r, s = Solo.start role hw c r
  step := Solo.step

/-- Nothing pressed, the paddle at rest, both difficulty switches up. -/
def Hw.rest : Hw := { swcha := 0xFF, swchb := 0xFF, bb := 0 }

/-- The registers and the page of a cartridge that has done nothing yet. -/
def Regs.cleared : Regs := ⟨0, 0, 0, [], 0⟩

/-- A page with so many transactions answered, this reply and this many bytes of it. -/
def painted (acks : Byte) (reply : List Byte) (rx : Byte) : Mail :=
  { fnrply := fun k => reply.getD k 0, fnacks := acks, fnerr := 0, fnrxlo := rx }

/-- A host at the handover. -/
def Solo.rest : Solo := Solo.start 0 Hw.rest Console.cleared Regs.cleared

/-- The first seven micro-steps of a match: a WRITE, a STATUS that finds one record, its READ and its
    CONSUME. -/
def firstRecord (bytes : List Byte) : List SoloEv :=
  [.micro (painted 0 [] 0), .micro (painted 1 [] 0), .micro (painted 1 [] 0),
    .micro (painted 2 [16, 0, 1, 1] 0), .micro (painted 2 [] 0), .micro (painted 3 bytes 16),
    .micro (painted 3 bytes 16)]

/-- Frames of a console nobody touches. -/
def restFrames (n : ℕ) : List SoloEv := List.replicate n (.gate Hw.rest Console.cleared.sim)

/-! ### What the two kinds of step leave alone -/

/-- What no micro-step touches. -/
structure Kept (c c' : Console) : Prop where
  votick : c'.votick = c.votick
  voloc : c'.voloc = c.voloc
  vocrcv : c'.vocrcv = c.vocrcv
  bank : c'.bank = c.bank
  pads : c'.vopad0 = c.vopad0 ∧ c'.vopad1 = c.vopad1 ∧ c'.vopad2 = c.vopad2 ∧ c'.vopad3 = c.vopad3
  switches : c'.voswa = c.voswa ∧ c'.voswb = c.voswb
  net : has c'.voent voeNet = has c.voent voeNet
  role : has c'.voent voeRole = has c.voent voeRole
  ran : has c'.voent voeRan = has c.voent voeRan
  phase : phaseOf c'.voent = phaseOf c.voent

theorem kept_voscons (m : Mail) (c : Console) : Kept c (voscons m c) := by
  rw [voscons]
  split
  · constructor <;> simp
  · obtain ⟨ring, wat, ent, err, heq, hent, -⟩ := voco1_cells m c
    rw [heq]
    rcases hent with rfl | rfl
    · constructor <;> simp
    · constructor <;> simp

/-- A micro-step leaves the tick, the captures, the sample, the shadows and the phase alone. -/
theorem kept_vonstep (m : Mail) (c : Console) (r : Regs) : Kept c (vonstep m c r).1 := by
  by_cases hst : c.vonst = .cons
  · rw [vonstep, hst]
    exact kept_voscons m c
  · obtain ⟨st, seq, err, n, w0, w1, heq, -⟩ := vonstep_cells hst m r
    rw [heq]
    exact ⟨rfl, rfl, rfl, rfl, ⟨rfl, rfl, rfl, rfl⟩, ⟨rfl, rfl⟩, rfl, rfl, rfl, rfl⟩

end VO
