import VideoOlympics.Console.Cells

/-! The network machine: one bounded micro-step at a time, a WRITE of this console's record, a
    STATUS, a READ of the whole frames waiting, and one consumed record a step, last first. It sees
    the cartridge through the painted page (`Mail`) and drives it through the registers (`Regs`). -/

namespace VO

/-- What the cartridge paints for the console to read. -/
structure Mail where
  fnrply : ℕ → Byte
  fnacks : Byte
  fnerr : Byte
  fnrxlo : Byte

/-- What the console writes to the cartridge: the transaction's registers, the TX stream since it
    was last rewound, and the sequence number whose commit launches. -/
structure Regs where
  dev : Byte
  cmd : Byte
  npar : Byte
  tx : List Byte
  seq : Byte
  deriving DecidableEq, Repr

/-- Device, command and parameter count, and the TX stream rewound. -/
def Regs.begin (r : Regs) (cmd npar : Byte) : Regs :=
  { r with dev := netdev, cmd := cmd, npar := npar, tx := [] }

/-- `STA FNTX`, byte after byte. -/
def Regs.fntx (r : Regs) (bs : List Byte) : Regs := { r with tx := r.tx ++ bs }

/-- The transaction's first parameter: a type byte, then a 16-bit word. -/
def Regs.word (r : Regs) : ℕ := (r.tx.getD 1 0).toNat + 256 * (r.tx.getD 2 0).toNat

/-- Commit a transaction and go to state `st`: the next sequence number is the cartridge's own
    ACKSEQ + 1, and never 0. -/
def volnch (st : NS) (m : Mail) (c : Console) (r : Regs) : Console × Regs :=
  let seq := if m.fnacks + 1 = 0 then 1 else m.fnacks + 1
  ({ c with vonst := st, voseq := seq }, { r with seq := seq })

/-- Has the cartridge answered? -/
def voack (m : Mail) (c : Console) : Bool := m.fnacks == c.voseq

def vosfail (c : Console) : Console :=
  { c with voerr := (c.voerr &&& 0xF0#8) ||| fnebad, vonst := .wiss }

/-! ### WRITE -/

/-- The window, newest first: `VOW0` the tick still to send, `VOW1` the check byte so far. -/
def voww : ℕ → Console → Regs → Console × Regs
  | 0, c, r => (c, r)
  | n + 1, c, r =>
    let slot := ringAt c.voloc volm c.vow0
    let c := { c with vow1 := slot.2 ^^^ (vopIdle ^^^ (slot.1 ^^^ c.vow1)), vow0 := c.vow0 - 1 }
    voww n c (r.fntx [slot.1, vopIdle, slot.2])

/-- Our record for tick + d. -/
def voswiss (m : Mail) (c : Console) (r : Regs) : Console × Regs :=
  let r := ((r.begin ncwrite 1).fntx [2, irLen, 0]).fntx [irLen - 1, wtInput]
  let c := { c with vow0 := c.votick + vod, vow1 := (c.votick + vod) ^^^ irSeed }
  let (c, r) := voww vowin c (r.fntx [c.votick + vod])
  volnch .wack m c (r.fntx [c.vocrcv, c.vocrcv ^^^ c.vow1, 0, 0])

def voswack (m : Mail) (c : Console) : Console :=
  if voack m c then (if m.fnerr = 0 then { c with vonst := .siss } else vosfail c) else c

/-! ### STATUS -/

def vossiss (m : Mail) (c : Console) (r : Regs) : Console × Regs :=
  volnch .sack m c ((r.begin ncstat 2).fntx [1, 0, 1, 0])

/-- How many whole frames are waiting: 256 bytes or more are taken as a bite of 240. -/
def vossack (m : Mail) (c : Console) : Console :=
  if voack m c then
    if m.fnerr ≠ 0 ∨ m.fnrply 3 ≠ 1 then vosfail c
    else if m.fnrply 1 ≠ 0 then { c with vordn := 0xF0#8, vonst := .riss }
    else if m.fnrply 0 &&& irMask = 0 then { c with vonst := .wiss }
    else { c with vordn := m.fnrply 0 &&& irMask, vonst := .riss }
  else c

/-! ### READ -/

def vosriss (m : Mail) (c : Console) (r : Regs) : Console × Regs :=
  volnch .rack m c ((r.begin ncread 1).fntx [2, c.vordn, 0])

/-- Bytes to records: the frame size is 16. -/
def vosrack (m : Mail) (c : Console) : Console :=
  if voack m c then
    if m.fnerr = 0 then { c with vordn := m.fnrxlo >>> 4, vonst := .cons } else vosfail c
  else c

/-! ### CONSUME -/

/-- `FNRPLY+k,y`. -/
def Mail.at (m : Mail) (y : Byte) (k : ℕ) : Byte := m.fnrply (k + y.toNat)

/-- The check byte over every byte of the frame that carries anything. -/
def voco2Check (m : Mail) (y : Byte) : Bool :=
  ([3, 4, 5, 6, 7, 8, 9, 10, 11, 12].foldl (fun a k => a ^^^ m.at y k) (m.at y 2)) ^^^ irSeed
    == m.at y 13

/-- The whole window into the ring, each tick at its own slot. -/
def voco2Ring (m : Mail) (y : Byte) (ring : Byte → Byte) : Byte → Byte :=
  let ring := ringPut ring vorm (m.at y 2) (m.at y 3) (m.at y 5)
  let ring := ringPut ring vorm (m.at y 2 - 1) (m.at y 6) (m.at y 8)
  ringPut ring vorm (m.at y 2 - 2) (m.at y 9) (m.at y 11)

/-- Desync detection: only a record whose tick is the one we are on is compared, and not when a
    repair is armed already. -/
def voco2Crc (m : Mail) (y : Byte) (c : Console) : Console :=
  if m.at y 2 - vod ≠ c.votick then c
  else if has c.voent voeRsy then c
  else if m.at y 12 = c.vocrcv then c
  else { c with voent := c.voent ||| voeRsy }

/-- Advance the watermark only if this record is newer, by the sign of the difference. -/
def voco8 (m : Mail) (y : Byte) (c : Console) : Console :=
  if (m.at y 2 - c.vorwat).msb then c else { c with vorwat := m.at y 2 }

def voco2 (m : Mail) (y : Byte) (c : Console) : Console :=
  if voco2Check m y then
    voco8 m y (voco2Crc m y { c with voring := voco2Ring m y c.voring })
  else c

/-- The peer left: the stall watchdog is saturated on the spot. -/
def vocolft (c : Console) : Console := { c with voerr := 0xF0#8 ||| fnepeer }

/-- Where the record at an index starts: four `ASL A`, times sixteen. -/
def recAt (n : Byte) : Byte := n <<< 4

/-- One record out of the reply window. -/
def voco1 (m : Mail) (c : Console) : Console :=
  let c := { c with vordn := c.vordn - 1 }
  let y := recAt c.vordn
  if m.at y 1 = wtInput then voco2 m y c
  else if m.at y 1 = wtLeft then vocolft c
  else c

def voscons (m : Mail) (c : Console) : Console :=
  if c.vordn = 0 then { c with vonst := .wiss } else voco1 m c

/-- One bounded step, dispatched on `VONST`. -/
def vonstep (m : Mail) (c : Console) (r : Regs) : Console × Regs :=
  match c.vonst with
  | .idle => (c, r)
  | .wiss => voswiss m c r
  | .wack => (voswack m c, r)
  | .siss => vossiss m c r
  | .sack => (vossack m c, r)
  | .riss => vosriss m c r
  | .rack => (vosrack m c, r)
  | .cons => (voscons m c, r)
  | .fail => (vosfail c, r)

end VO
