import VideoOlympics.Base.Machine
import VideoOlympics.Console.Cells
import Mathlib.Data.List.Basic

/-! The relay. It frames each console's byte stream, pairs the first two idle consoles, forwards
    their game frames without looking inside, and pairs the checksums that ride in them. A client is
    known by its identity, a number no other client ever gets: it stands for the object and for the
    socket it owns. The trace is the onlooker's: the server never reads it. -/

namespace VO.Relay

/-! ### The wire -/

def tHello : Byte := 0x01
def tList : Byte := 0x02
def tLobby : Byte := 0x03
def tJoin : Byte := 0x04
def tStart : Byte := 0x05
def tInput : Byte := 0x06
def tCrc : Byte := 0x07
def tState : Byte := 0x08
def tResync : Byte := 0x09
def tBye : Byte := 0x0A
def tPeerLeft : Byte := 0x0B
def tPing : Byte := 0x0C
def tPong : Byte := 0x0D

/-- Forwarded to the partner verbatim, never interpreted. -/
def relayTypes : List Byte := [tInput, tCrc, tState, tResync]

instance : DecidablePred (· ∈ relayTypes) :=
  fun ftype => inferInstanceAs (Decidable (ftype ∈ [tInput, tCrc, tState, tResync]))

def gameFrame : ℕ := 16
def gamePayload : ℕ := gameFrame - 2
def irTick : ℕ := 0
def irCrc : ℕ := 10
def proto : Byte := 3
def tvNtsc : Byte := 0
def tvPal : Byte := 1
def tvSecam : Byte := 2
def maxTxBacklog : ℕ := 64 * 1024
def maxClients : ℕ := 64
def maxConnectionsPerIp : ℕ := 8
/-- Sixty seconds; the clock is read in milliseconds. -/
def helloTimeout : ℕ := 60000

/-- What ends the process: an exception nothing catches. `hung` is a loop that was given too few
    turns to finish. -/
inductive Err where
  | assertion | attribute | value | hung
  deriving DecidableEq, Repr

/-- `bytes.ljust(n, b"\x00")`. -/
def ljust (n : ℕ) (bs : List Byte) : List Byte := bs ++ List.replicate (n - bs.length) 0

/-- `len type payload`, as `frame` builds it once its assertion has passed. -/
def frame (ftype : Byte) (payload : List Byte) : List Byte :=
  BitVec.ofNat 8 (payload.length + 1) :: ftype :: payload

/-- `frame`: the body may not be longer than its length byte can say. -/
def frame? (ftype : Byte) (payload : List Byte) : Except Err (List Byte) :=
  if payload.length + 1 ≤ 255 then .ok (frame ftype payload) else .error .assertion

/-- One element of `bytes([...])`. -/
def byte? (n : ℤ) : Except Err Byte :=
  if 0 ≤ n ∧ n < 256 then .ok (BitVec.ofInt 8 n) else .error .value

/-! ### Names -/

abbrev Name := List Char

/-- `decode("ascii", "replace")`. -/
def decode (bs : List Byte) : Name :=
  bs.map fun b => if b.toNat < 128 then Char.ofNat b.toNat else Char.ofNat 0xFFFD

/-- `strip("\x00 ")`. -/
def strip (s : Name) : Name :=
  let pad := fun ch => ch == Char.ofNat 0 || ch == ' '
  ((s.dropWhile pad).reverse.dropWhile pad).reverse

/-- `NAME_OK`. -/
def nameOk (ch : Char) : Bool := ch.isUpper || ch.isDigit

/-- `encode()`, of the ASCII a name consists of. -/
def encode (s : Name) : List Byte := s.map fun ch => BitVec.ofNat 8 ch.toNat

/-! ### The state -/

structure Client where
  addr : ℕ × ℕ
  rx : List Byte
  tx : List Byte
  name : Option Name
  tv : Option Byte
  partner : Option ℕ
  role : Option Byte
  born : ℕ
  crc : List (ℕ × Byte)
  lap : ℕ
  lastTick : Option Byte
  deriving DecidableEq, Repr

/-- `Client.__init__`. -/
def Client.new (addr : ℕ × ℕ) (now : ℕ) : Client :=
  { addr := addr, rx := [], tx := [], name := none, tv := none, partner := none, role := none,
    born := now, crc := [], lap := 0, lastTick := none }

structure Stats where
  games : ℕ := 0
  crcOk : ℕ := 0
  crcBad : ℕ := 0
  badFrames : ℕ := 0
  txDrops : ℕ := 0
  helloTimeouts : ℕ := 0
  ipRejects : ℕ := 0
  deriving DecidableEq, Repr

/-- A line of the log, by its format and its arguments. -/
inductive Line where
  | connected (addr : ℕ × ℕ)
  | badLength (name : Option Name) (n : Byte)
  | unknownType (name : Option Name) (ftype : Byte)
  | helloVersion (host : ℕ) (version : Option Byte)
  | secam (host : ℕ)
  | standard (host : ℕ) (tv : Byte)
  | badName (host : ℕ) (name : Name)
  | isNamed (host : ℕ) (name : Name) (tv : Byte)
  | matched (host guest : Option Name) (seed : ℕ) (delay variation : ℤ)
  | matchEnded (name : Option Name) (rounds : ℕ)
  | disconnected (name : Name)
  | mismatch (tick : Byte) (name : Option Name) (crc other : Byte)
  | backedUp (name : Option Name) (n : ℕ)
  deriving DecidableEq, Repr

/-- What an onlooker sees: what the server takes on, and every append to a `tx`. -/
inductive Act where
  | accepted (c : ℕ)
  | handled (c : ℕ) (ftype : Byte) (payload : List Byte)
  | named (c : ℕ) (name : Name)
  | matched (host guest seed : ℕ)
  | dropped (c : ℕ)
  | queued (c : ℕ) (data : List Byte)
  deriving DecidableEq, Repr

/-- `random` is the stream of its draws; `lobby` the player count last given to the publisher, where
    there is one; `taken` what the kernel has accepted of each client's `tx`. -/
structure Server where
  delay : ℤ
  variation : ℤ
  clients : List ℕ
  obj : ℕ → Client
  next : ℕ
  byName : List (Name × ℕ)
  stats : Stats
  lobby : Option ℕ
  random : ℕ → ℕ
  log : List Line
  taken : ℕ → List Byte
  trace : List Act

namespace Server

/-- Assign to a client's attributes. -/
def upd (s : Server) (c : ℕ) (f : Client → Client) : Server :=
  { s with obj := Function.update s.obj c (f (s.obj c)) }

def say (s : Server) (l : Line) : Server := { s with log := s.log ++ [l] }

def note (s : Server) (a : Act) : Server := { s with trace := s.trace ++ [a] }

/-- `Client.send`. -/
def send (s : Server) (c : ℕ) (data : List Byte) : Server :=
  (s.upd c fun o => { o with tx := o.tx ++ data }).note (.queued c data)

/-- `random.randrange(lo, hi)`, and the draws that are left. -/
def randrange (s : Server) (lo hi : ℕ) : ℕ × Server :=
  (lo + s.random 0 % (hi - lo), { s with random := fun n => s.random (n + 1) })

def lobbyUpdate (s : Server) : Server := { s with lobby := s.lobby.map fun _ => s.byName.length }

/-! ### Drops -/

/-- Give a client's name back, if it is still its own. -/
def unname (s : Server) (c : ℕ) : Server :=
  match (s.obj c).name with
  | some name =>
    if s.byName.lookup name = some c then { s with byName := s.byName.filter fun e => e.1 != name }
    else s
  | none => s

/-- Tell a client's partner, if it has one, that the match is over. -/
def unlink (s : Server) (c : ℕ) : Server :=
  match (s.obj c).partner with
  | some p =>
    ((s.upd p fun o => { o with partner := none }).send p
      (frame tPeerLeft (List.replicate gamePayload 0))).say
        (.matchEnded (s.obj c).name s.stats.crcOk)
  | none => s

def drop (s : Server) (c : ℕ) : Server :=
  if c ∉ s.clients then s else
  let s := ((s.note (.dropped c)).unname c).unlink c
  let s := { s with clients := s.clients.erase c }
  let s := match (s.obj c).name with
    | some name => s.say (.disconnected name)
    | none => s
  s.lobbyUpdate

/-! ### The lobby -/

/-- Connected, named and without a partner. -/
def idle (s : Server) : List ℕ :=
  s.clients.filter fun c => (s.obj c).name.isSome && (s.obj c).partner.isNone

/-- `min(others, key=born)`: the first of the oldest. -/
def oldest (s : Server) (o : ℕ) (os : List ℕ) : ℕ :=
  os.foldl (fun a b => if (s.obj b).born < (s.obj a).born then b else a) o

/-- The START frame for one of the two. -/
def startFrame (s : Server) (me them seed : ℕ) : Except Err (List Byte) := do
  let delay ← byte? s.delay
  let variation ← byte? s.variation
  match (s.obj them).name with
  | none => .error .attribute
  | some name =>
    frame? tStart ([(s.obj me).role.getD 0, BitVec.ofNat 8 (seed &&& 0xFF),
      BitVec.ofNat 8 (seed >>> 8), delay, variation] ++ ljust 8 (encode name))

/-- One turn of the START loop. -/
def startOne (s : Server) (me them seed : ℕ) : Except Err Server := do
  let s := s.upd me fun o => { o with crc := [] }
  let data ← s.startFrame me them seed
  return s.send me data

/-- The two become each other's partners, and take their roles. -/
def link (s : Server) (host guest : ℕ) : Server :=
  (s.upd host fun o => { o with partner := some guest, role := some 0 }).upd guest
    fun o => { o with partner := some host, role := some 1 }

/-- The START loop. -/
def startBoth (s : Server) (host guest seed : ℕ) : Except Err Server := do
  let s ← s.startOne host guest seed
  s.startOne guest host seed

/-- Make a match of the one that waited and the one that came. -/
def pair (s : Server) (host guest : ℕ) : Except Err Server := do
  let (seed, s) := s.randrange 1 0x10000
  let s ← ((s.note (.matched host guest seed)).link host guest).startBoth host guest seed
  let s := { s with stats := { s.stats with games := s.stats.games + 1 } }
  let s := s.say (.matched (s.obj host).name (s.obj guest).name seed s.delay s.variation)
  return s.lobbyUpdate

def others (s : Server) (c : ℕ) : List ℕ := s.idle.filter (· != c)

def tryPair (s : Server) (c : ℕ) : Except Err Server :=
  match s.others c with
  | [] => .ok s
  | o :: os => s.pair (s.oldest o os) c

/-- `while name in self.by_name`: the name that is free, and the draws that are left. -/
def rename (byName : List (Name × ℕ)) : ℕ → Name → (ℕ → ℕ) → Option (Name × (ℕ → ℕ))
  | k, name, random =>
    if (byName.lookup name).isNone then some (name, random) else
    match k with
    | 0 => none
    | k + 1 => rename byName k (name.take 7 ++ [Char.ofNat (48 + random 0 % 10)])
        fun n => random (n + 1)

/-- The name a HELLO asks for, and whether it will do. -/
def helloName (payload : List Byte) : Name := (strip (decode (payload.drop 2))).map Char.toUpper

def goodName (name : Name) : Bool := 2 ≤ name.length && name.length ≤ 8 && name.all nameOk

/-- Give a client its name. -/
def register (s : Server) (c : ℕ) (tv : Byte) (name : Name) (random : ℕ → ℕ) : Server :=
  let s := { s with random := random }
  let s := (s.upd c fun o => { o with name := some name }).note (.named c name)
  let s := { s with byName := s.byName ++ [(name, c)] }
  (s.say (.isNamed (s.obj c).addr.1 name tv)).lobbyUpdate

/-- A HELLO that has been accepted: name the client and pair it. -/
def welcome (k : ℕ) (s : Server) (c : ℕ) (tv : Byte) (name : Name) : Except Err Server :=
  match rename s.byName k name s.random with
  | none => .error .hung
  | some (name, random) => (s.register c tv name random).tryPair c

def onHello (k : ℕ) (s : Server) (c : ℕ) (payload : List Byte) : Except Err Server :=
  if payload.length < 3 ∨ payload.head? ≠ some proto then
    .ok ((s.say (.helloVersion (s.obj c).addr.1 payload.head?)).drop c)
  else
    let tv := payload.getD 1 0
    let s := s.upd c fun o => { o with tv := some tv }
    if tv = tvSecam then .ok ((s.say (.secam (s.obj c).addr.1)).drop c)
    else if tv ≠ tvNtsc ∧ tv ≠ tvPal then .ok ((s.say (.standard (s.obj c).addr.1 tv)).drop c)
    else if goodName (helloName payload) then s.welcome k c tv (helloName payload)
    else .ok ((s.say (.badName (s.obj c).addr.1 (helloName payload))).drop c)

/-- The payload is never looked at. -/
def onJoin (s : Server) (c : ℕ) (_payload : List Byte) : Except Err Server := s.tryPair c

/-- One LOBBY entry: eight bytes of name and whether it is playing. -/
def entry (name : Name) (playing : Bool) : List Byte :=
  ljust 8 (encode name) ++ [if playing then 1 else 0]

/-- The first eight named clients, in the order they connected. -/
def entries (s : Server) : List (List Byte) :=
  (s.clients.filterMap fun c =>
    (s.obj c).name.map fun name => entry name (s.obj c).partner.isSome).take 8

def sendLobby (s : Server) (c : ℕ) : Except Err Server := do
  let data ← frame? tLobby (BitVec.ofNat 8 s.entries.length :: s.entries.flatten)
  return s.send c data

/-! ### The checksums -/

/-- `d[key] = v` of an insertion-ordered dict. -/
def dictSet (d : List (ℕ × Byte)) (key : ℕ) (v : Byte) : List (ℕ × Byte) :=
  if (d.lookup key).isSome then d.map fun e => if e.1 = key then (key, v) else e
  else d ++ [(key, v)]

/-- The lap goes up when the tick jumps back by more than half the range. -/
def lapOf (o : Client) (tick : Byte) : ℕ :=
  match o.lastTick with
  | some last => if 0 < (tick - last).toNat ∧ (tick - last).toNat < 128 ∧ tick < last
      then o.lap + 1 else o.lap
  | none => o.lap

/-- `log_crc`, once the tick and the checksum have been read. -/
def pairCrc (s : Server) (c : ℕ) (tick crc : Byte) : Server :=
  let lap := lapOf (s.obj c) tick
  let key := lap * 256 + tick.toNat
  let s := s.upd c fun o =>
    { o with lap := lap, lastTick := some tick, crc := dictSet o.crc key crc }
  let evict := s.upd c fun o => { o with crc := o.crc.drop (o.crc.length - 8) }
  match (s.obj c).partner with
  | none => evict
  | some p =>
    match (s.obj p).crc.lookup key with
    | none => evict
    | some other =>
      let s := s.upd p fun o => { o with crc := o.crc.filter fun e => e.1 != key }
      if other ≠ crc then
        ({ s with stats := { s.stats with crcBad := s.stats.crcBad + 1 } }).say
          (.mismatch tick (s.obj c).name crc other)
      else { s with stats := { s.stats with crcOk := s.stats.crcOk + 1 } }

def logCrc (s : Server) (c : ℕ) (payload : List Byte) : Server :=
  s.pairCrc c (payload.getD irTick 0) (payload.getD irCrc 0)

/-! ### Framing -/

/-- A game frame to the partner, if there is one, padded on the way out. -/
def forward (s : Server) (c : ℕ) (ftype : Byte) (payload : List Byte) : Except Err Server :=
  match (s.obj c).partner with
  | none => .ok s
  | some p => do
    let data ← frame? ftype (ljust gamePayload payload)
    return s.send p data

def handle (k : ℕ) (s : Server) (c : ℕ) (ftype : Byte) (payload : List Byte) :
    Except Err Server :=
  let s := s.note (.handled c ftype payload)
  if ftype ∈ relayTypes then do
    let s ← s.forward c ftype payload
    return if ftype = tInput ∧ irCrc < payload.length then s.logCrc c payload else s
  else if ftype = tHello then s.onHello k c payload
  else if ftype = tList then s.sendLobby c
  else if ftype = tJoin then s.onJoin c payload
  else if ftype = tPing then .ok (s.send c (frame tPong []))
  else if ftype = tBye then .ok (s.drop c)
  else .ok (s.say (.unknownType (s.obj c).name ftype))

/-- A length byte no frame can have. -/
def badLength (s : Server) (c : ℕ) (n : Byte) : Server :=
  (({ s with stats := { s.stats with badFrames := s.stats.badFrames + 1 } }).say
    (.badLength (s.obj c).name n)).drop c

/-- The next whole frame of a stream, or why there is none. -/
inductive Head where
  | wait
  | bad (n : Byte)
  | whole (ftype : Byte) (payload rest : List Byte)
  deriving DecidableEq, Repr

def headOf : List Byte → Head
  | [] => .wait
  | n :: rest =>
    if n.toNat < 1 ∨ 200 < n.toNat then .bad n
    else if rest.length < n.toNat then .wait
    else match rest.take n.toNat with
      | [] => .wait
      | ftype :: payload => .whole ftype payload (rest.drop n.toNat)

/-- `while True` of `service`, given so many turns. -/
def serviceLoop (k : ℕ) : ℕ → Server → ℕ → Except Err Server
  | 0, _, _ => .error .hung
  | turns + 1, s, c =>
    match headOf (s.obj c).rx with
    | .wait => .ok s
    | .bad n => .ok (s.badLength c n)
    | .whole ftype payload rest => do
      let s ← (s.upd c fun o => { o with rx := rest }).handle k c ftype payload
      serviceLoop k turns s c

/-- Every turn that does not end the loop takes a frame off `rx`, so its length is turns enough. -/
def service (k : ℕ) (s : Server) (c : ℕ) : Except Err Server :=
  s.serviceLoop k ((s.obj c).rx.length + 1) c

/-! ### The event loop -/

def accept (s : Server) (addr : ℕ × ℕ) (now : ℕ) : Server :=
  if maxClients ≤ s.clients.length then s
  else if maxConnectionsPerIp ≤ (s.clients.filter fun c => (s.obj c).addr.1 = addr.1).length then
    { s with stats := { s.stats with ipRejects := s.stats.ipRejects + 1 } }
  else
    let s := (s.upd s.next fun _ => Client.new addr now).note (.accepted s.next)
    ({ s with clients := s.clients ++ [s.next], next := s.next + 1 }).say (.connected addr)

/-- What `sock.send` did: took some bytes, would have blocked, or failed. -/
inductive Sent where
  | some (n : ℕ)
  | blocked
  | failed
  deriving DecidableEq, Repr

/-- The backlog a client may have. -/
def checkBacklog (s : Server) (c : ℕ) : Server :=
  if maxTxBacklog < (s.obj c).tx.length then
    (({ s with stats := { s.stats with txDrops := s.stats.txDrops + 1 } }).say
      (.backedUp (s.obj c).name (s.obj c).tx.length)).drop c
  else s

def flush (s : Server) (c : ℕ) (res : Sent) : Server :=
  if (s.obj c).tx = [] then s else
  match res with
  | .failed => s.drop c
  | .blocked => s.checkBacklog c
  | .some n =>
    let s := { s with taken := Function.update s.taken c (s.taken c ++ (s.obj c).tx.take n) }
    (s.upd c fun o => { o with tx := o.tx.drop n }).checkBacklog c

def sweepOne (now : ℕ) (s : Server) (c : ℕ) : Server :=
  if (s.obj c).name = none ∧ helloTimeout < now - (s.obj c).born then
    ({ s with stats := { s.stats with helloTimeouts := s.stats.helloTimeouts + 1 } }).drop c
  else s

def sweep (s : Server) (now : ℕ) : Server := s.clients.foldl (sweepOne now) s

/-- What `recv` gave: nothing, or an error, ends the connection. -/
def recv (k : ℕ) (s : Server) (c : ℕ) (data : List Byte) : Except Err Server :=
  if data = [] then .ok (s.drop c)
  else (s.upd c fun o => { o with rx := o.rx ++ data }).service k c

/-- A server that has just started listening. -/
def fresh (delay variation : ℤ) (lobby : Option ℕ) (random : ℕ → ℕ) : Server :=
  { delay := delay, variation := variation, clients := [], obj := fun _ => Client.new (0, 0) 0,
    next := 0, byName := [], stats := {}, lobby := lobby, random := random, log := [],
    taken := fun _ => [], trace := [] }

end Server

/-- What the event loop is woken for. `k` is how many turns the rename loop is given. -/
inductive Event where
  | accept (addr : ℕ × ℕ) (now : ℕ)
  | recv (c : ℕ) (data : List Byte) (k : ℕ)
  | flush (c : ℕ) (res : Server.Sent)
  | sweep (now : ℕ)

/-- One event. Only a connected client's socket wakes the loop; an exception ends it. -/
def Server.step (s : Server) : Event → Option Server
  | .accept addr now => some (s.accept addr now)
  | .recv c data k => if c ∈ s.clients then (s.recv k c data).toOption else none
  | .flush c res => if c ∈ s.clients then some (s.flush c res) else none
  | .sweep now => some (s.sweep now)

/-- The command line lets through any delay, and only the fifty variations. -/
def relay : Machine Server Event where
  init s := ∃ delay variation lobby random, 0 ≤ variation ∧ variation ≤ 49 ∧
    s = Server.fresh delay variation lobby random
  step := Server.step

/-- A relay started without options: a delay of two ticks, and the third game of the manual. -/
def listening : Server := Server.fresh 2 2 none id

theorem init_listening : relay.init listening := ⟨2, 2, none, id, by decide, by decide, rfl⟩

/-- What a console sends first. -/
def hello (name : Name) : List Byte := frame tHello (proto :: tvNtsc :: encode name)

end VO.Relay
