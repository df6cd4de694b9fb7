import VideoOlympics.Console.Cells

/-! The shim: once a frame it decides whether the simulation advances, captures this console's own
    input at a tick boundary, and mixes the two consoles' wire bytes into the cells the game reads.
    A frame is the gate, the 1977 logic, and the checksum the kernel bank takes at its end. -/

namespace VO

/-- The frame-in-tick phase steps by carry-free addition at the top of `VOENT`. -/
def vophi (c : Console) : Console := { c with voent := c.voent + voePh1 }

/-- Not in a match: mirror the real console. -/
def voloc0 (hw : Hw) (c : Console) : Console :=
  { c with voswa := hw.swcha, voswb := hw.swchb,
           vopad0 := hw.bb, vopad1 := hw.bc, vopad2 := hw.bd, vopad3 := hw.be }

/-- The switch byte of a capture, before any synthetic press. -/
def vocapSw (hw : Hw) : Byte :=
  (((hw.swchb &&& 0x40#8) >>> 3) ||| (((hw.swchb &&& 0x03#8) <<< 4) ||| (hw.swcha &&& saL))) ||| iwSpare

/-- This console's own input, the paddle in A and the switches in `VOTMP`. An armed repair presses
    RESET into it once. -/
def vocap (hw : Hw) (c : Console) : Byte × Console :=
  let c := { c with votmp := vocapSw hw }
  if has c.voent voeRsy then
    (hw.bb, { c with voent := (c.voent &&& voeRsy) ^^^ c.voent,
                     votmp := c.votmp &&& (0xFF#8 - iwRst) })
  else (hw.bb, c)

/-- Two consoles' wire bytes into the six cells the game reads. -/
def vomix (hw : Hw) (c : Console) : Console :=
  let c := { c with vopad0 := c.vow2, vopad2 := c.vow3 }
  let c := { c with votmp := c.vow0 &&& saL }
  let c := { c with voswa := (((c.vow1 &&& saL) >>> 4) ||| c.votmp) ||| 0x33#8 }
  let c := { c with votmp := ((c.vow0 &&& c.vow1) >>> 4) &&& 0x03#8 }
  let c := { c with votmp := ((hw.swchb &&& 0x08#8) ||| c.votmp) ||| 0x34#8 }
  let c := { c with votmp := ((c.vow0 &&& iwDiff) <<< 3) ||| c.votmp }
  let c := { c with voswb := ((c.vow1 &&& iwDiff) <<< 4) ||| c.votmp }
  vophi { c with voent := c.voent ||| voeRan }

/-- The peer's input has not arrived: no logic this frame, and after fifteen in a row back to the
    boot bank. -/
def vostall (c : Console) : Console :=
  let c := { c with voadv := 0 }
  if c.voerr < 0xF0#8 then { c with voerr := c.voerr + 0x10#8 }
  else { c with voent := c.voent ||| voeLeft, bank := .boot }

/-- The tick runs: our bytes out of the local ring, the peer's out of the remote one, exchanged on a
    guest so that `VOW0`/`VOW2` are the host's on both consoles. -/
def vont2 (hw : Hw) (c : Console) : Console :=
  let c := { c with voerr := c.voerr &&& 0x0F#8 }
  let own := ringAt c.voloc volm c.votick
  let peer := ringAt c.voring vorm c.votick
  let c := { c with vow2 := own.1, vow0 := own.2, vow3 := peer.1, vow1 := peer.2 }
  if has c.voent voeRole then
    vomix hw { c with vow0 := c.vow1, vow1 := c.vow0, vow2 := c.vow3, vow3 := c.vow2 }
  else vomix hw c

/-- The boundary that advances: tick, checksum and capture as one act. -/
def vont1a (hw : Hw) (c : Console) : Console :=
  let c := { c with votick := c.votick + 1 }
  let c := { c with voent := c.voent &&& (0xFF#8 - voeRan) }
  let c := { c with vocrcv := c.vocrck }
  let (a, c) := vocap hw c
  { c with voloc := ringPut c.voloc volm (c.votick + vod) a c.votmp }

/-- Has the peer's input for this tick arrived? The sign of `VORWAT - VOTICK` says. -/
def ready (c : Console) : Bool := !(c.vorwat - c.votick).msb

def vont1b (hw : Hw) (c : Console) : Console := if ready c then vont2 hw c else vostall c

def vont1 (hw : Hw) (c : Console) : Console :=
  if has c.voent voeRan then vont1b hw (vont1a hw c) else vont1b hw c

def vonet (hw : Hw) (c : Console) : Console :=
  if has c.voent voePh then vophi c else vont1 hw c

/-- Once a frame; leaves `VOADV` nonzero if the simulation should advance. -/
def voshim (hw : Hw) (c : Console) : Console :=
  let c := { c with voadv := 0xFF#8 }
  if has c.voent voeNet then vonet hw c else voloc0 hw c

/-- `ASL A / ADC m`: the carry of the shift feeds the addition. -/
def aslAdc (a m : Byte) : Byte := (a <<< 1) + m + (a >>> 7)

/-- The simulation checksum. -/
def vocrc (s : Sim) : Byte :=
  [s.c88, s.c8E, s.c8D, s.cB6, s.cB5, s.cB4, s.cB3, s.cB2].foldl aslAdc s.c96

/-- One frame up to the kernel bank's entry: the gate, the game, the checksum. The 1977 logic is not
    part of the repository, so the cells it leaves are the frame's own argument. -/
def frame (hw : Hw) (sim : Sim) (c : Console) : Console :=
  let c := voshim hw c
  match c.bank with
  | .boot => c
  | .game => { c with sim := sim, vocrck := vocrc sim }

/-! ### The handover -/

/-- `VOSCLR`, as far as the netcode's cells go: prime the gate and the shadows. -/
def vosclr (hw : Hw) (c : Console) : Console :=
  voloc0 { hw with bb := 0, bc := 0, bd := 0, be := 0 } { c with voadv := 0xFF#8 }

/-- Both rings seeded with idle: a paddle byte at the even offsets, a switch byte at the odd. -/
def cszring (x : Byte) : Byte := if has x 1 then iwIdle else vopIdle

/-- The end of the session: what the boot bank leaves for the first frame of a match. `VOENT` holds
    only the role bit START gave. -/
def handover (hw : Hw) (c : Console) : Console :=
  let c := vosclr hw c
  let c := { c with voring := cszring, voloc := cszring, votick := 0xFF#8, voerr := 0,
                    vorwat := 0xFE#8, vonst := .wiss }
  { c with voent := c.voent ||| (voeNet ||| voeRan), bank := .game }

/-- `AND #1 / ASL / ASL`: START's role byte as the bit of `VOENT`. -/
def roleBit (role : Byte) : Byte := (role &&& 1) <<< 2

end VO
