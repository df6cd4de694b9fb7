import Mathlib.Data.Int.Basic
import Mathlib.Logic.Function.Basic

/-! The console's own state: the netcode's zero-page cells, the constants of the tick and of the
    wire, and the nine simulation cells the checksum covers. Cells keep their names from the zero
    page map; a cell that the netcode never reads is left out. -/

namespace VO

abbrev Byte := BitVec 8

/-! ### The tick and the rings -/

/-- Ticks of input delay. -/
def vod : Byte := 2
/-- Local ring mask: four slots. -/
def volm : Byte := 3
/-- Remote ring mask: eight slots. -/
def vorm : Byte := 7
/-- Ticks in a record's window. -/
def vowin : ℕ := 3
/-- Logic frames in a tick. -/
def vok : ℕ := 4

theorem vod_cast : (vod.toNat : ℤ) = 2 := rfl
theorem vowin_cast : (vowin : ℤ) = 3 := rfl
theorem vok_cast : (vok : ℤ) = 4 := rfl

/-! ### The wire bytes -/

def vopIdle : Byte := 0x00
def iwRst : Byte := 0x10
def iwDiff : Byte := 0x08
def iwSpare : Byte := 0x07
def iwIdle : Byte := 0xFF
def saL : Byte := 0xC0

/-! ### The entry byte `VOENT` -/

def voeNet : Byte := 0x02
def voeRole : Byte := 0x04
def voeRan : Byte := 0x08
def voeLeft : Byte := 0x10
def voeRsy : Byte := 0x20
/-- The frame-in-tick phase, two bits at the top. -/
def voePh : Byte := 0xC0
def voePh1 : Byte := 0x40

/-! ### Frames, devices and errors -/

def irLen : Byte := 16
def irMask : Byte := 0xF0
def irSeed : Byte := 0xA5
def wtInput : Byte := 0x06
def wtLeft : Byte := 0x0B
def netdev : Byte := 0x71
def ncread : Byte := 0x52
def ncwrite : Byte := 0x57
def ncstat : Byte := 0x53
def fnebad : Byte := 0x02
def fnepeer : Byte := 0x03

/-- The network machine's state, the index of the dispatch table `VOJT`. -/
inductive NS where
  | idle | wiss | wack | siss | sack | riss | rack | cons | fail
  deriving DecidableEq, Repr

/-- The bank the cartridge maps: the session's, or the two that a match runs in. -/
inductive Bank where
  | boot | game
  deriving DecidableEq, Repr

/-- The nine cells the checksum covers. -/
structure Sim where
  c96 : Byte
  c88 : Byte
  c8D : Byte
  c8E : Byte
  cB2 : Byte
  cB3 : Byte
  cB4 : Byte
  cB5 : Byte
  cB6 : Byte
  deriving DecidableEq, Repr

/-- What the shim reads of the hardware: the two switch ports, and the four filtered paddles the
    display kernel leaves in `$BB-$BE`. -/
structure Hw where
  swcha : Byte
  swchb : Byte
  bb : Byte
  bc : Byte := 0
  bd : Byte := 0
  be : Byte := 0
  deriving DecidableEq, Repr

/-- The netcode's cells. `voring` and `voloc` are indexed by the index register, two bytes a slot:
    the paddle at an even offset and the switches at the odd one after it. -/
structure Console where
  voadv : Byte
  votmp : Byte
  vopad0 : Byte
  vopad1 : Byte
  vopad2 : Byte
  vopad3 : Byte
  voswa : Byte
  voswb : Byte
  voent : Byte
  voseq : Byte
  voerr : Byte
  votick : Byte
  vonst : NS
  vocrcv : Byte
  vorwat : Byte
  voring : Byte → Byte
  voloc : Byte → Byte
  vordn : Byte
  vow0 : Byte
  vow1 : Byte
  vow2 : Byte
  vow3 : Byte
  vocrck : Byte
  sim : Sim
  bank : Bank

/-- The cells after the session's RAM clear. -/
def Console.cleared : Console where
  voadv := 0
  votmp := 0
  vopad0 := 0
  vopad1 := 0
  vopad2 := 0
  vopad3 := 0
  voswa := 0
  voswb := 0
  voent := 0
  voseq := 0
  voerr := 0
  votick := 0
  vonst := .idle
  vocrcv := 0
  vorwat := 0
  voring := fun _ => 0
  voloc := fun _ => 0
  vordn := 0
  vow0 := 0
  vow1 := 0
  vow2 := 0
  vow3 := 0
  vocrck := 0
  sim := ⟨0, 0, 0, 0, 0, 0, 0, 0, 0⟩
  bank := .boot

/-- `AND #mask / ASL A`: the offset of a tick's slot. -/
def slotOf (mask tick : Byte) : Byte := (tick &&& mask) <<< 1

/-- What a ring holds for a tick: the paddle and the switches. -/
def ringAt (ring : Byte → Byte) (mask tick : Byte) : Byte × Byte :=
  (ring (slotOf mask tick), ring (slotOf mask tick + 1#8))

/-- `STA ring,x` and `STA ring+1,x` at a tick's slot. -/
def ringPut (ring : Byte → Byte) (mask tick pad sw : Byte) : Byte → Byte :=
  Function.update (Function.update ring (slotOf mask tick) pad) (slotOf mask tick + 1#8) sw

/-- `AND #bit` leaves something. -/
def has (e bit : Byte) : Bool := e &&& bit != 0

end VO
