import VideoOlympics.Console.Handover
import VideoOlympics.Console.Session
import VideoOlympics.Lockstep.Link
import VideoOlympics.Relay.Channel

/-! The whole of it: a relay, any number of consoles with their cartridges, and whoever else connects.
    Each console has a socket, which delivers every byte in order after any delay, in pieces of any
    size. It says HELLO, waits for START and plays, and everything any party does interleaves freely
    with everything the others do. -/

namespace VO

open Relay (Server relay)

/-! ### A console -/

/-- A console with its cartridge and its socket: what the cartridge has received and not handed over,
    what it has sent and the relay not received, and what the relay's kernel has taken and not
    delivered. The rest is the onlooker's: its HELLO, what it has written since, and what it has
    READ. -/
structure Desk where
  seat : Seat
  mail : Page
  inbox : List Byte
  up : List Byte
  down : List Byte
  hello : List Byte
  wrote : List Byte
  read : List Byte

/-- The bytes of the HELLO a console puts on the wire: as many of the stream as the WRITE counts. -/
def Build.says (b : Build) (name : Appkey) : List Byte :=
  ((b.stream name.text).drop 3).take (b.counted name.text + 4)

/-- A console whose HELLO has just been acknowledged. -/
def Desk.new (b : Build) (name : Appkey) (m : Page) (r : Regs) : Desk :=
  { seat := .boot (cswait m r), mail := m, inbox := [], up := b.says name, down := []
    hello := b.says name, wrote := [], read := [] }

/-- The registers of whatever bank drives the cartridge. -/
def Seat.regs : Seat → Option Regs
  | .boot b => some b.regs
  | .game s => some s.regs
  | .alone _ => none

/-- The cartridge has answered a transaction. -/
def Desk.answered (r : Regs) (d : Desk) : Desk :=
  let (m, inbox, out) := VO.answer r d.mail.toMail d.inbox
  { d with
    mail := { m with fnrcmd := fnrack }, inbox := inbox, up := d.up ++ out, wrote := d.wrote ++ out
    read := d.read ++ d.inbox.take (d.inbox.length - inbox.length) }

/-- The cartridge answers the transaction that is waiting for it. -/
def Desk.answer (d : Desk) : Option Desk :=
  d.seat.regs.bind fun r => if r.seq = d.mail.fnacks then none else some (d.answered r)

/-- Up to `n` bytes arrive. -/
def Desk.arrive (n : ℕ) (d : Desk) : Desk :=
  { d with inbox := d.inbox ++ d.down.take n, down := d.down.drop n }

/-- A frame of the boot bank. -/
def Desk.frame (hw : Hw) (c : Console) (d : Desk) : Option Desk :=
  match d.seat with
  | .boot b => some { d with seat := b.frame d.mail hw c }
  | _ => none

/-- A frame of a match. -/
def Desk.gate (hw : Hw) (sim : Sim) (d : Desk) : Option Desk :=
  match d.seat with
  | .game s => if s.con.bank = .game then some { d with seat := .game (s.gate hw sim) } else none
  | _ => none

/-- A micro-step of the network machine. -/
def Desk.micro (d : Desk) : Option Desk :=
  match d.seat with
  | .game s => if s.con.bank = .game then some { d with seat := .game (s.micro d.mail.toMail) } else none
  | _ => none

/-! ### The world -/

/-- The relay, and the consoles among its clients. -/
structure World where
  server : Server
  desk : ℕ → Option Desk

/-- A console or somebody else connects; the relay receives something from a console, or from somebody
    else, or finds that a console has hung up; it flushes and it sweeps; and a console receives
    something, passes a frame, takes a micro-step or has its cartridge answer. -/
inductive WorldEv where
  | connect (addr : ℕ × ℕ) (now : ℕ) (b : Build) (name : Appkey) (m : Page) (r : Regs)
  | visit (addr : ℕ × ℕ) (now : ℕ)
  | recv (c n k : ℕ)
  | say (c : ℕ) (data : List Byte) (k : ℕ)
  | hangup (c k : ℕ)
  | flush (c : ℕ) (res : Server.Sent)
  | sweep (now : ℕ)
  | arrive (c n : ℕ)
  | frame (c : ℕ) (hw : Hw) (con : Console)
  | gate (c : ℕ) (hw : Hw) (sim : Sim)
  | micro (c : ℕ)
  | answer (c : ℕ)

namespace World

/-- The relay does something: what it receives has left a console's socket, and what its kernel takes
    is on its way to one. -/
def serve (w : World) (e : Relay.Event) : Option World :=
  (w.server.step e).map fun t =>
    { server := t
      desk := fun c => (w.desk c).map fun d =>
        { d with up := d.up.drop (Server.sentBy c e).length
                 down := d.down ++ (t.taken c).drop (w.server.taken c).length } }

def put (w : World) (c : ℕ) (d : Desk) : World :=
  { w with desk := Function.update w.desk c (some d) }

/-- One console acts. -/
def act (w : World) (c : ℕ) (f : Desk → Option Desk) : Option World :=
  (w.desk c).bind fun d => (f d).map (w.put c)

/-- Whoever is not let in is nobody's console. -/
def step (w : World) : WorldEv → Option World
  | .connect addr now b name m r =>
    (w.serve (.accept addr now)).map fun w' =>
      if w.server.next < w'.server.next then w'.put w.server.next (Desk.new b name m r) else w'
  | .visit addr now => w.serve (.accept addr now)
  | .recv c n k => (w.desk c).bind fun d =>
      if d.up.take n = [] then none else w.serve (.recv c (d.up.take n) k)
  | .say c data k => if (w.desk c).isNone then w.serve (.recv c data k) else none
  | .hangup c k => w.serve (.recv c [] k)
  | .flush c res => w.serve (.flush c res)
  | .sweep now => w.serve (.sweep now)
  | .arrive c n => w.act c fun d => some (d.arrive n)
  | .frame c hw con => w.act c (Desk.frame hw con)
  | .gate c hw sim => w.act c (Desk.gate hw sim)
  | .micro c => w.act c Desk.micro
  | .answer c => w.act c Desk.answer

end World

/-- It begins with a relay that has just started listening. -/
def world : Machine World WorldEv where
  init w := relay.init w.server ∧ w.desk = fun _ => none
  step := World.step

end VO
