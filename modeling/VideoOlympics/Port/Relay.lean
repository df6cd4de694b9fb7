import Mathlib.Algebra.Order.Ring.Nat
import VideoOlympics.Base.Buffer
import VideoOlympics.Relay.Server

/-! The relay again, in C. Its clients sit in an array of slots. A slot is freed at the end of the
    turn of the event loop that dropped its client, and used again; its generation tells one use from
    the next. Who is connected, in the order they came, is an index of its own. A connection is known
    by its number, which only the trace tells: the program has the slot. -/

namespace VO.Port
open Relay

def crcMinPayload : ℕ := irCrc + 1
def txCap : ℕ := 256 * 1024
def rxCap : ℕ := 4352
/-- What one `recv` asks for. -/
def recvMax : ℕ := 4096
def crcSlots : ℕ := 16
def nameSlots : ℕ := maxClients * 4
/-- How often a name is changed before its console is refused. -/
def renameGuard : ℕ := 1000

instance : NeZero maxClients := ⟨by decide⟩

/-- A slot's index. -/
abbrev Index := Fin maxClients

/-- `client_t`. Of the receive buffer it is what counts, of the send buffer all of it: that may be
    counted without having been written. -/
structure Slot where
  inUse : Bool
  gen : BitVec 32
  conn : ℕ
  addr : ℕ × ℕ
  rx : List Byte
  tx : Buffer Byte
  name : Option (List Byte)
  tv : Option Byte
  partner : Option Index
  role : Option Byte
  born : ℕ
  dead : Bool
  crc : List (BitVec 64 × Byte)
  lastTick : Option Byte
  lap : BitVec 64

/-- `nameent_t`. -/
structure Entry where
  name : List Byte
  index : Index
  gen : BitVec 32
  deriving DecidableEq, Repr

structure Stats where
  games : BitVec 32 := 0
  crcOk : BitVec 32 := 0
  crcBad : BitVec 32 := 0
  badFrames : BitVec 32 := 0
  txDrops : BitVec 32 := 0
  helloTimeouts : BitVec 32 := 0
  ipRejects : BitVec 32 := 0
  deriving DecidableEq, Repr

/-- The lines of the log are those of the other relay, and two that it does not have. -/
inductive Line where
  | said (l : Relay.Line)
  | rxOverflow (name : Option Name) (held n : ℕ)
  | noFreeName (host : ℕ) (name : Name)
  deriving DecidableEq, Repr

/-- `tag` is what the kernel has been told to give back with a connection's events; `random` is the
    stream of draws, which here as there are given; `accepted` counts connections. -/
structure State where
  delay : ℤ
  variation : ℤ
  clients : Index → Slot
  order : List Index
  byName : List Entry
  stats : Stats
  lobby : Option ℕ
  random : ℕ → ℕ
  log : List Line
  tag : ℕ → Index × BitVec 32
  accepted : ℕ
  trace : List Act

/-- The name as a string of C: empty until there is one. -/
def Slot.cstr (c : Slot) : List Byte := c.name.getD []

/-- `pad_name`. -/
def padName (name : List Byte) : List Byte := ljust 8 (name.take 8)

namespace State

/-- Assign to a slot's fields. -/
def upd (s : State) (i : Index) (f : Slot → Slot) : State :=
  { s with clients := Function.update s.clients i (f (s.clients i)) }

def conn (s : State) (i : Index) : ℕ := (s.clients i).conn

def say (s : State) (l : Line) : State := { s with log := s.log ++ [l] }

def note (s : State) (a : Act) : State := { s with trace := s.trace ++ [a] }

/-- `name_or_q`, whose question mark the log's lines put in themselves. -/
def nameOrQ (s : State) (i : Index) : Option Name := (s.clients i).name.map decode

def nextSeed (s : State) : ℕ × State :=
  (1 + s.random 0 % 0xFFFF, { s with random := fun n => s.random (n + 1) })

/-! ### The index of who came when -/

def orderAdd (s : State) (i : Index) : State :=
  if s.order.length < maxClients then { s with order := s.order ++ [i] } else s

def orderDel (s : State) (i : Index) : State := { s with order := s.order.erase i }

/-! ### Names -/

def nameTaken (byName : List Entry) (name : List Byte) : Bool := byName.any (·.name = name)

/-- An entry of that name is written over; otherwise, where the table is full, the oldest goes. -/
def nameSet (s : State) (name : List Byte) (i : Index) : State :=
  let e : Entry := { name := name, index := i, gen := (s.clients i).gen }
  match s.byName.findIdx? (·.name = name) with
  | some n => { s with byName := s.byName.set n e }
  | none =>
    { s with byName := (if nameSlots ≤ s.byName.length then s.byName.tail else s.byName) ++ [e] }

def nameDelIfIs (s : State) (name : List Byte) (i : Index) : State :=
  match s.byName.find? (·.name = name) with
  | some e =>
    if e.index ≠ i ∨ e.gen ≠ (s.clients i).gen then s
    else { s with byName := s.byName.eraseP (·.name = name) }
  | none => s

/-! ### Plumbing -/

def lobbyUpdateCount (s : State) : State := { s with lobby := s.lobby.map fun _ => s.byName.length }

/-- `client_send`. What does not fit is not copied, but counted as if the buffer were full. -/
def send (s : State) (i : Index) (data : List Byte) : State :=
  (s.upd i fun c =>
    if txCap < c.tx.len + data.length then { c with tx := { c.tx with len := txCap } }
    else { c with tx := c.tx.append data }).note (.queued (s.conn i) data)

def sendFrame (s : State) (i : Index) (ftype : Byte) (payload : List Byte) : State :=
  s.send i (Relay.frame ftype payload)

/-! ### Drops -/

/-- A name is given back, if it is still its client's. -/
def unname (s : State) (i : Index) : State :=
  match (s.clients i).name with
  | some name => s.nameDelIfIs name i
  | none => s

/-- A partner is told that the match is over. -/
def unlink (s : State) (i : Index) : State :=
  match (s.clients i).partner with
  | some p =>
    ((s.upd p fun c => { c with partner := none }).sendFrame p tPeerLeft
      (List.replicate gamePayload 0)).say
        (.said (.matchEnded (s.nameOrQ i) s.stats.crcOk.toNat))
  | none => s

/-- The link to the partner stays; only the one back is cleared. -/
def drop (s : State) (i : Index) : State :=
  if (s.clients i).dead then s else
  let s := (s.note (.dropped (s.conn i))).upd i fun c => { c with dead := true }
  let s := ((s.unname i).unlink i).orderDel i
  let s := match (s.clients i).name with
    | some name => s.say (.said (.disconnected (decode name)))
    | none => s
  s.lobbyUpdateCount

/-! ### The lobby -/

/-- One turn of the loop of `try_pair`. -/
def older (s : State) (i : Index) (other : Option Index) (o : Index) : Option Index :=
  if o = i ∨ (s.clients o).name = none ∨ (s.clients o).partner ≠ none then other
  else match other with
    | none => some o
    | some b => if (s.clients o).born < (s.clients b).born then some o else some b

/-- The first of the oldest of those who wait. -/
def waiting (s : State) (i : Index) : Option Index := s.order.foldl (s.older i) none

def link (s : State) (host guest : Index) : State :=
  (s.upd host fun c => { c with partner := some guest, role := some 0 }).upd guest
    fun c => { c with partner := some host, role := some 1 }

/-- One turn of the START loop. -/
def startOne (s : State) (me them : Index) (seed : ℕ) : State :=
  let s := s.upd me fun c => { c with crc := [] }
  s.sendFrame me tStart ([(s.clients me).role.getD 0xFF, BitVec.ofNat 8 (seed &&& 0xFF),
    BitVec.ofNat 8 (seed >>> 8), BitVec.ofInt 8 s.delay, BitVec.ofInt 8 s.variation] ++
      padName (s.clients them).cstr)

def pair (s : State) (host guest : Index) : State :=
  let (seed, s) := s.nextSeed
  let s := (s.note (.matched (s.conn host) (s.conn guest) seed)).link host guest
  let s := (s.startOne host guest seed).startOne guest host seed
  let s := { s with stats := { s.stats with games := s.stats.games + 1 } }
  let s := s.say (.said (.matched (some (decode (s.clients host).cstr))
    (some (decode (s.clients guest).cstr)) seed s.delay s.variation))
  s.lobbyUpdateCount

def tryPair (s : State) (i : Index) : State :=
  match s.waiting i with
  | none => s
  | some other => s.pair other i

/-- The bytes of a name without the padding at its ends. -/
def trim (bs : List Byte) : List Byte :=
  let pad := fun b : Byte => b = 0x00 ∨ b = 0x20
  ((bs.dropWhile pad).reverse.dropWhile pad).reverse

def upper (b : Byte) : Byte := if 0x61 ≤ b ∧ b ≤ 0x7A then b - 32 else b

def charOk (b : Byte) : Bool := 0x41 ≤ b && b ≤ 0x5A || 0x30 ≤ b && b ≤ 0x39

/-- The name a HELLO asks for, as far as the scratch buffer holds it, and whether it will do. -/
def helloName (payload : List Byte) : List Byte := ((trim (payload.drop 2)).take 256).map upper

def goodName (name : List Byte) : Bool := 2 ≤ name.length && name.length ≤ 8 && name.all charOk

/-- `while (name_taken(name))`, with so many turns left: the name, whether it is free, and the draws
    that are left. -/
def rename (byName : List Entry) : ℕ → List Byte → (ℕ → ℕ) → List Byte × Bool × (ℕ → ℕ)
  | k, name, random =>
    if nameTaken byName name = false then (name, true, random) else
    match k with
    | 0 => (name, false, random)
    | k + 1 => rename byName k (name.take 7 ++ [BitVec.ofNat 8 (0x30 + random 0 % 10)])
        fun n => random (n + 1)

/-- A client gets its name. -/
def register (s : State) (i : Index) (tv : Byte) (name : List Byte) : State :=
  let s := (s.upd i fun c => { c with name := some name }).note (.named (s.conn i) (decode name))
  let s := s.nameSet name i
  (s.say (.said (.isNamed (s.clients i).addr.1 (decode name) tv))).lobbyUpdateCount

/-- A HELLO that has been accepted. -/
def welcome (s : State) (i : Index) (tv : Byte) (name : List Byte) : State :=
  let (name, free, random) := rename s.byName renameGuard name s.random
  let s := { s with random := random }
  if free then (s.register i tv name).tryPair i
  else (s.say (.noFreeName (s.clients i).addr.1 (decode name))).drop i

def onHello (s : State) (i : Index) (payload : List Byte) : State :=
  if payload.length < 3 ∨ payload.head? ≠ some proto then
    (s.say (.said (.helloVersion (s.clients i).addr.1 payload.head?))).drop i
  else
    let tv := payload.getD 1 0
    let s := s.upd i fun c => { c with tv := some tv }
    if tv = tvSecam then (s.say (.said (.secam (s.clients i).addr.1))).drop i
    else if tv ≠ tvNtsc ∧ tv ≠ tvPal then
      (s.say (.said (.standard (s.clients i).addr.1 tv))).drop i
    else if goodName (helloName payload) then s.welcome i tv (helloName payload)
    else (s.say (.said (.badName (s.clients i).addr.1 (decode (helloName payload))))).drop i

/-- The loop of `send_lobby`. -/
def entries (s : State) : List (List Byte) :=
  (s.order.filterMap fun o => (s.clients o).name.map fun name =>
    padName name ++ [if (s.clients o).partner.isSome then 1 else 0]).take 8

def sendLobby (s : State) (i : Index) : State :=
  s.sendFrame i tLobby (BitVec.ofNat 8 s.entries.length :: s.entries.flatten)

/-! ### The checksums -/

def crcFind (d : List (BitVec 64 × Byte)) (key : BitVec 64) : Option ℕ :=
  d.findIdx? fun e => e.1 = key

/-- A key that is there keeps its place. One too many is written over the last. -/
def crcSet (d : List (BitVec 64 × Byte)) (key : BitVec 64) (v : Byte) : List (BitVec 64 × Byte) :=
  match crcFind d key with
  | some n => d.set n (key, v)
  | none => (if crcSlots ≤ d.length then d.take (crcSlots - 1) else d) ++ [(key, v)]

def crcDelAt (d : List (BitVec 64 × Byte)) (n : ℕ) : List (BitVec 64 × Byte) := d.eraseIdx n

/-- The lap goes up when the tick jumps back by more than half the range. -/
def lapOf (c : Slot) (tick : Byte) : BitVec 64 :=
  match c.lastTick with
  | some last => if 0 < (tick - last).toNat ∧ (tick - last).toNat < 128 ∧ tick < last
      then c.lap + 1 else c.lap
  | none => c.lap

/-- The key a checksum is kept under: sixty-four bits of it. -/
def keyOf (c : Slot) (tick : Byte) : BitVec 64 := lapOf c tick * 256 + tick.setWidth 64

/-- `log_crc`, once the tick and the checksum have been read. -/
def pairCrc (s : State) (i : Index) (tick crc : Byte) : State :=
  let key := keyOf (s.clients i) tick
  let s := s.upd i fun c =>
    { c with lap := lapOf c tick, lastTick := some tick, crc := crcSet c.crc key crc }
  let evict := s.upd i fun c => { c with crc := c.crc.drop (c.crc.length - 8) }
  match (s.clients i).partner with
  | none => evict
  | some p =>
    match crcFind (s.clients p).crc key with
    | none => evict
    | some n =>
      let other := ((s.clients p).crc[n]?.map Prod.snd).getD 0
      let s := s.upd p fun c => { c with crc := crcDelAt c.crc n }
      if other ≠ crc then
        ({ s with stats := { s.stats with crcBad := s.stats.crcBad + 1 } }).say
          (.said (.mismatch tick (some (decode (s.clients i).cstr)) crc other))
      else { s with stats := { s.stats with crcOk := s.stats.crcOk + 1 } }

def logCrc (s : State) (i : Index) (payload : List Byte) : State :=
  s.pairCrc i (payload.getD irTick 0) (payload.getD irCrc 0)

/-! ### Framing -/

/-- A game frame to the partner, if there is one, padded on the way out. -/
def forward (s : State) (i : Index) (ftype : Byte) (payload : List Byte) : State :=
  match (s.clients i).partner with
  | none => s
  | some p =>
    let outlen := if payload.length < gamePayload then gamePayload else payload.length
    s.sendFrame p ftype (payload ++ List.replicate (outlen - payload.length) 0)

def handle (s : State) (i : Index) (ftype : Byte) (payload : List Byte) : State :=
  let s := s.note (.handled (s.conn i) ftype payload)
  if ftype ∈ relayTypes then
    let s := s.forward i ftype payload
    if ftype = tInput ∧ crcMinPayload ≤ payload.length then s.logCrc i payload else s
  else if ftype = tHello then s.onHello i payload
  else if ftype = tList then s.sendLobby i
  else if ftype = tJoin then s.tryPair i
  else if ftype = tPing then s.sendFrame i tPong []
  else if ftype = tBye then s.drop i
  else s.say (.said (.unknownType (s.nameOrQ i) ftype))

/-- A length byte no frame can have. -/
def badLength (s : State) (i : Index) (n : Byte) : State :=
  (({ s with stats := { s.stats with badFrames := s.stats.badFrames + 1 } }).say
    (.said (.badLength (s.nameOrQ i) n))).drop i

/-- What the framing loop finds at the front of `rxbuf`. -/
def headOf (rx : List Byte) : Server.Head :=
  if rx.length < 1 then .wait
  else
    let lenb := rx.getD 0 0
    if lenb.toNat < 1 ∨ 200 < lenb.toNat then .bad lenb
    else
      let need := lenb.toNat + 1
      if rx.length < need then .wait
      else
        let body := (rx.drop 1).take lenb.toNat
        .whole (body.getD 0 0) (body.drop 1) (rx.drop need)

/-- The framing loop, given so many turns. -/
def serviceLoop : ℕ → State → Index → State
  | 0, s, _ => s
  | turns + 1, s, i =>
    match headOf (s.clients i).rx with
    | .wait => s
    | .bad n => s.badLength i n
    | .whole ftype payload rest =>
      serviceLoop turns ((s.upd i fun c => { c with rx := rest }).handle i ftype payload) i

/-- Each frame is taken off `rx`, so its length is turns enough. -/
def service (s : State) (i : Index) (data : List Byte) : State :=
  if data = [] then s.drop i
  else if rxCap < (s.clients i).rx.length + data.length then
    (s.say (.rxOverflow (s.nameOrQ i) (s.clients i).rx.length data.length)).drop i
  else
    let s := s.upd i fun c => { c with rx := c.rx ++ data }
    s.serviceLoop ((s.clients i).rx.length + 1) i

/-! ### The event loop -/

/-- `client_alloc`, once a slot has been found: only its generation and its memory survive. -/
def alloc (s : State) (i : Index) (addr : ℕ × ℕ) (now : ℕ) : State :=
  (s.upd i fun c =>
    { c with
      inUse := true, conn := s.accepted, addr := addr, rx := [], tx := { c.tx with len := 0 }
      name := none, tv := none, partner := none, role := none, born := now, dead := false
      crc := [], lastTick := none, lap := 0 }).orderAdd i

def acceptClient (s : State) (addr : ℕ × ℕ) (now : ℕ) : State :=
  if maxClients ≤ s.order.length then s
  else if maxConnectionsPerIp ≤
      (s.order.filter fun i => (s.clients i).addr.1 = addr.1).length then
    { s with stats := { s.stats with ipRejects := s.stats.ipRejects + 1 } }
  else
    match (List.finRange maxClients).find? fun i => !(s.clients i).inUse with
    | none => s
    | some i =>
      let s := (s.note (.accepted s.accepted)).alloc i addr now
      let s := { s with
        tag := Function.update s.tag s.accepted (i, (s.clients i).gen)
        accepted := s.accepted + 1 }
      s.say (.said (.connected addr))

/-- The backlog a client may have. -/
def checkBacklog (s : State) (i : Index) : State :=
  if maxTxBacklog < (s.clients i).tx.len then
    (({ s with stats := { s.stats with txDrops := s.stats.txDrops + 1 } }).say
      (.said (.backedUp (s.nameOrQ i) (s.clients i).tx.len))).drop i
  else s

def flush (s : State) (i : Index) (res : Server.Sent) : State :=
  if (s.clients i).tx.len = 0 then s
  else if (s.clients i).dead then s.drop i
  else match res with
  | .failed => s.drop i
  | .blocked => s.checkBacklog i
  | .some k => (s.upd i fun c => { c with tx := c.tx.discard k }).checkBacklog i

def sweepOne (now : ℕ) (s : State) (i : Index) : State :=
  if (s.clients i).inUse ∧ (s.clients i).dead = false ∧ (s.clients i).name = none ∧
      helloTimeout < now - (s.clients i).born then
    ({ s with stats := { s.stats with helloTimeouts := s.stats.helloTimeouts + 1 } }).drop i
  else s

def sweep (s : State) (now : ℕ) : State := s.order.foldl (sweepOne now) s

/-- Every slot that `drop` retired is freed, and stale tags stop to match. -/
def reap (s : State) : State :=
  { s with clients := fun i =>
      let c := s.clients i
      if c.inUse ∧ c.dead then { c with inUse := false, gen := c.gen + 1 } else c }

/-- An event comes with the tag its connection was given: it counts if the slot is still in that use,
    and its client has not been dropped. -/
def wake (s : State) (c : ℕ) (f : State → Index → State) : State :=
  let (i, gen) := s.tag c
  if (s.clients i).inUse = false ∨ (s.clients i).gen ≠ gen then s
  else if (s.clients i).dead then s
  else f s i

/-- The program starts with its memory zero. -/
def fresh (delay variation : ℤ) (lobby : Option ℕ) (random : ℕ → ℕ) : State :=
  { delay := delay, variation := variation
    clients := fun _ =>
      { inUse := false, gen := 0, conn := 0, addr := (0, 0), rx := [], tx := ⟨fun _ => 0, 0⟩
        name := none, tv := none, partner := none, role := none, born := 0, dead := false, crc := []
        lastTick := none, lap := 0 }
    order := [], byName := [], stats := {}, lobby := lobby, random := random, log := []
    tag := fun _ => (0, 0), accepted := 0, trace := [] }

end State

/-- What happens to it is what happens to the other relay; and its slots are reaped, as they are at
    the end of every turn of the event loop. -/
inductive Event where
  | loop (e : Relay.Event)
  | reap

/-- One event. The kernel gives no more than it is asked for. -/
def State.step (s : State) : Event → Option State
  | .loop (.accept addr now) => some (s.acceptClient addr now)
  | .loop (.recv c data _) =>
    if data.length ≤ recvMax then some (s.wake c fun s i => s.service i data) else none
  | .loop (.flush c res) => some (s.wake c fun s i => s.flush i res)
  | .loop (.sweep now) => some (s.sweep now)
  | .reap => some s.reap

def port : Machine State Event where
  init s := ∃ delay variation lobby random, 0 ≤ variation ∧ variation ≤ 49 ∧
    s = State.fresh delay variation lobby random
  step := State.step

end VO.Port
