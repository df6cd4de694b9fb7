import VideoOlympics.Relay.Server

/-! The room: what of the relay its consoles can tell. Names, links and the two byte queues of every
    client, without clocks, checksums, counters and the log. Each function of the server acts on the
    room in one of a handful of ways, and what is proved of a run is proved of its rooms. -/

namespace VO.Relay

structure Room where
  delay : ℤ
  variation : ℤ
  clients : List ℕ
  next : ℕ
  name : ℕ → Option Name
  partner : ℕ → Option ℕ
  rx : ℕ → List Byte
  tx : ℕ → List Byte
  taken : ℕ → List Byte
  trace : List Act

/-- The room of a server's state. -/
def Server.room (s : Server) : Room :=
  { delay := s.delay, variation := s.variation, clients := s.clients, next := s.next,
    name := fun c => (s.obj c).name, partner := fun c => (s.obj c).partner,
    rx := fun c => (s.obj c).rx, tx := fun c => (s.obj c).tx, taken := s.taken, trace := s.trace }

def peerLeft : List Byte := frame tPeerLeft (List.replicate gamePayload 0)

/-- The START frame of a match, for the one with this role and the one it meets. -/
def startOf (role : Byte) (seed : ℕ) (delay variation : ℤ) (them : Name) : List Byte :=
  frame tStart ([role, BitVec.ofNat 8 (seed &&& 0xFF), BitVec.ofNat 8 (seed >>> 8),
    BitVec.ofInt 8 delay, BitVec.ofInt 8 variation] ++ ljust 8 (encode them))

/-- Whether a HELLO will be accepted. -/
def helloOk (payload : List Byte) : Bool :=
  if payload.length < 3 ∨ payload.head? ≠ some proto then false
  else if payload.getD 1 0 = tvSecam ∨
    payload.getD 1 0 ≠ tvNtsc ∧ payload.getD 1 0 ≠ tvPal then false
  else Server.goodName (Server.helloName payload)

namespace Room

def note (r : Room) (a : Act) : Room := { r with trace := r.trace ++ [a] }

def queue (r : Room) (c : ℕ) (data : List Byte) : Room :=
  { r with tx := Function.update r.tx c (r.tx c ++ data), trace := r.trace ++ [.queued c data] }

/-- A client takes a name. -/
def call (r : Room) (c : ℕ) (name : Name) : Room :=
  { r with name := Function.update r.name c (some name), trace := r.trace ++ [.named c name] }

/-- A partner, if there is one, is told that the match is over. -/
def unlink (r : Room) (c : ℕ) : Room :=
  match r.partner c with
  | some p => { r with partner := Function.update r.partner p none }.queue p peerLeft
  | none => r

/-- A client goes. -/
def leave (r : Room) (c : ℕ) : Room :=
  if c ∉ r.clients then r else
  let r := (r.note (.dropped c)).unlink c
  { r with clients := r.clients.erase c }

/-- Two clients meet, and both are told. -/
def meet (r : Room) (host guest seed : ℕ) (h g : Name) : Room :=
  let r := r.note (.matched host guest seed)
  let r := { r with
    partner := Function.update (Function.update r.partner host (some guest)) guest (some host) }
  (r.queue host (startOf 0 seed r.delay r.variation g)).queue guest
    (startOf 1 seed r.delay r.variation h)

/-- The LOBBY frame: the first eight named clients, in the order they connected. -/
def lobby (r : Room) : List Byte :=
  let es := (r.clients.filterMap fun c =>
    (r.name c).map fun name => Server.entry name (r.partner c).isSome).take 8
  frame tLobby (BitVec.ofNat 8 es.length :: es.flatten)

/-- Who a client could be paired with. -/
def others (r : Room) (c : ℕ) : List ℕ :=
  (r.clients.filter fun d => (r.name d).isSome && (r.partner d).isNone).filter (· != c)

/-- A connection is made. -/
def join (r : Room) : Room :=
  { r with
    clients := r.clients ++ [r.next], next := r.next + 1
    name := Function.update r.name r.next none, partner := Function.update r.partner r.next none
    rx := Function.update r.rx r.next [], tx := Function.update r.tx r.next []
    trace := r.trace ++ [.accepted r.next] }

def setRx (r : Room) (c : ℕ) (bs : List Byte) : Room :=
  { r with rx := Function.update r.rx c bs }

/-- The kernel takes some of what waits for a client. -/
def take (r : Room) (c n : ℕ) : Room :=
  { r with
    tx := Function.update r.tx c ((r.tx c).drop n)
    taken := Function.update r.taken c (r.taken c ++ (r.tx c).take n) }

/-- Looking for a partner: there is nobody, or one of the others it is. -/
inductive Pairs (r : Room) (c : ℕ) : Room → Prop
  | alone : r.others c = [] → Pairs r c r
  | met (host seed : ℕ) (h g : Name) : host ∈ r.others c → 1 ≤ seed → seed < 0x10000 →
      r.name host = some h → r.name c = some g → Pairs r c (r.meet host c seed h g)

/-- What a frame does, by its type. -/
inductive Handles (r : Room) (c : ℕ) (ftype : Byte) (payload : List Byte) : Room → Prop
  | unheard : ftype ∈ relayTypes → r.partner c = none → Handles r c ftype payload r
  | relayed (p : ℕ) : ftype ∈ relayTypes → r.partner c = some p →
      Handles r c ftype payload (r.queue p (frame ftype (ljust gamePayload payload)))
  | refused : ftype = tHello → helloOk payload = false → Handles r c ftype payload (r.leave c)
  | welcomed (name : Name) (r' : Room) : ftype = tHello → helloOk payload = true →
      name.length ≤ 8 → Pairs (r.call c name) c r' → Handles r c ftype payload r'
  | listed : ftype = tList → Handles r c ftype payload (r.queue c r.lobby)
  | joined (r' : Room) : ftype = tJoin → Pairs r c r' → Handles r c ftype payload r'
  | pinged : ftype = tPing → Handles r c ftype payload (r.queue c (frame tPong []))
  | gone : ftype = tBye → Handles r c ftype payload (r.leave c)
  | unknown : ftype ∉ relayTypes → ftype ≠ tHello → ftype ≠ tList → ftype ≠ tJoin →
      ftype ≠ tPing → ftype ≠ tBye → Handles r c ftype payload r

end Room

namespace Server

@[simp] theorem room_clients (s : Server) : s.room.clients = s.clients := rfl
@[simp] theorem room_next (s : Server) : s.room.next = s.next := rfl
@[simp] theorem room_name (s : Server) (c : ℕ) : s.room.name c = (s.obj c).name := rfl
@[simp] theorem room_partner (s : Server) (c : ℕ) : s.room.partner c = (s.obj c).partner := rfl
@[simp] theorem room_rx (s : Server) (c : ℕ) : s.room.rx c = (s.obj c).rx := rfl
@[simp] theorem room_tx (s : Server) (c : ℕ) : s.room.tx c = (s.obj c).tx := rfl
@[simp] theorem room_trace (s : Server) : s.room.trace = s.trace := rfl
@[simp] theorem room_delay (s : Server) : s.room.delay = s.delay := rfl
@[simp] theorem room_variation (s : Server) : s.room.variation = s.variation := rfl
@[simp] theorem room_others (s : Server) (c : ℕ) : s.room.others c = s.others c := rfl

@[simp] theorem room_say (s : Server) (l : Line) : (s.say l).room = s.room := rfl
@[simp] theorem room_note (s : Server) (a : Act) : (s.note a).room = s.room.note a := rfl
@[simp] theorem room_lobbyUpdate (s : Server) : s.lobbyUpdate.room = s.room := rfl
@[simp] theorem room_stats (s : Server) (t : Stats) : { s with stats := t }.room = s.room := rfl
@[simp] theorem room_byName (s : Server) (b : List (Name × ℕ)) :
    { s with byName := b }.room = s.room := rfl
@[simp] theorem room_random (s : Server) (f : ℕ → ℕ) : { s with random := f }.room = s.room := rfl

theorem obj_upd (s : Server) (c d : ℕ) (f : Client → Client) :
    (s.upd c f).obj d = if d = c then f (s.obj c) else s.obj d := by
  simp only [upd, Function.update_apply]

/-- An attribute the assignment leaves alone. -/
theorem obj_upd_quiet {β : Type} (s : Server) (c d : ℕ) (f : Client → Client) (g : Client → β)
    (hg : g (f (s.obj c)) = g (s.obj c)) : g ((s.upd c f).obj d) = g (s.obj d) := by
  rw [obj_upd]
  split
  · next hd => rw [hg, hd]
  · rfl

/-- An attribute of every client, after an assignment to one. -/
theorem attr_upd {β : Type} (s : Server) (c : ℕ) (f : Client → Client) (g : Client → β) :
    (fun d => g ((s.upd c f).obj d)) =
      Function.update (fun d => g (s.obj d)) c (g (f (s.obj c))) := by
  funext d
  rw [obj_upd, Function.update_apply]
  split
  · rfl
  · rfl

theorem room_upd (s : Server) (c : ℕ) (f : Client → Client) :
    (s.upd c f).room = { s.room with
      name := Function.update s.room.name c (f (s.obj c)).name
      partner := Function.update s.room.partner c (f (s.obj c)).partner
      rx := Function.update s.room.rx c (f (s.obj c)).rx
      tx := Function.update s.room.tx c (f (s.obj c)).tx } := by
  simp only [room, attr_upd]
  rfl

theorem update_attr {β : Type} (s : Server) (c : ℕ) (g : Client → β) :
    Function.update (fun d => g (s.obj d)) c (g (s.obj c)) = fun d => g (s.obj d) :=
  Function.update_eq_self c _

/-- What the room does not see of a client may change freely. -/
theorem room_upd_quiet (s : Server) (c : ℕ) (f : Client → Client)
    (hname : (f (s.obj c)).name = (s.obj c).name)
    (hpartner : (f (s.obj c)).partner = (s.obj c).partner)
    (hrx : (f (s.obj c)).rx = (s.obj c).rx) (htx : (f (s.obj c)).tx = (s.obj c).tx) :
    (s.upd c f).room = s.room := by
  rw [room_upd, hname, hpartner, hrx, htx]
  simp only [room, update_attr]

@[simp] theorem room_send (s : Server) (c : ℕ) (data : List Byte) :
    (s.send c data).room = s.room.queue c data := by
  simp only [send, room_note, room_upd, Room.note, Room.queue]
  simp only [room, update_attr]

theorem room_upd_partner (s : Server) (c : ℕ) (p : Option ℕ) (role : Client → Option Byte) :
    (s.upd c fun o => { o with partner := p, role := role o }).room =
      { s.room with partner := Function.update s.room.partner c p } := by
  simp only [room_upd]
  simp only [room, update_attr]

theorem room_upd_name (s : Server) (c : ℕ) (name : Name) :
    (s.upd c fun o => { o with name := some name }).room =
      { s.room with name := Function.update s.room.name c (some name) } := by
  simp only [room_upd]
  simp only [room, update_attr]

theorem room_upd_rx (s : Server) (c : ℕ) (bs : List Byte) :
    (s.upd c fun o => { o with rx := bs }).room =
      { s.room with rx := Function.update s.room.rx c bs } := by
  simp only [room_upd]
  simp only [room, update_attr]

theorem room_unname (s : Server) (c : ℕ) : (s.unname c).room = s.room := by
  simp only [unname]
  split
  · split
    · rfl
    · rfl
  · rfl

theorem room_unlink (s : Server) (c : ℕ) : (s.unlink c).room = s.room.unlink c := by
  simp only [unlink, Room.unlink]
  rw [room_partner]
  cases (s.obj c).partner with
  | none => rfl
  | some p => 
    rw [room_say, room_send, room_upd_partner s p none Client.role]
    rfl

@[simp] theorem room_drop (s : Server) (c : ℕ) : (s.drop c).room = s.room.leave c := by
  simp only [drop, Room.leave]
  by_cases hc : c ∈ s.clients
  · have hroom : (((s.note (.dropped c)).unname c).unlink c).room =
        (s.room.note (.dropped c)).unlink c := by rw [room_unlink, room_unname, room_note]
    simp only [room_clients, hc, not_true_eq_false, if_false, room_lobbyUpdate, ← hroom]
    split
    · rfl
    · rfl
  · simp only [room_clients, hc, not_false_eq_true, if_true]

@[simp] theorem room_badLength (s : Server) (c : ℕ) (n : Byte) :
    (s.badLength c n).room = s.room.leave c := by
  rw [badLength, room_drop, room_say, room_stats]

theorem bind_ok {ε α β : Type} {x : Except ε α} {f : α → Except ε β} {b : β}
    (h : x >>= f = .ok b) : ∃ a, x = .ok a ∧ f a = .ok b := by
  cases x with
  | error e => exact absurd h (by simp [bind, Except.bind])
  | ok a => exact ⟨a, rfl, h⟩

theorem frame?_ok {ftype : Byte} {payload data : List Byte} (h : frame? ftype payload = .ok data) :
    data = frame ftype payload := by
  unfold frame? at h
  split at h
  · exact (Except.ok.inj h).symm
  · cases h

theorem byte?_ok {n : ℤ} {b : Byte} (h : byte? n = .ok b) : b = BitVec.ofInt 8 n := by
  unfold byte? at h
  split at h
  · exact (Except.ok.inj h).symm
  · cases h

@[simp] theorem room_pairCrc (s : Server) (c : ℕ) (tick crc : Byte) :
    (s.pairCrc c tick crc).room = s.room := by
  have hupd (s : Server) (d : ℕ) (cs : Client → List (ℕ × Byte)) :
      (s.upd d fun o => { o with crc := cs o }).room = s.room :=
    room_upd_quiet s d _ rfl rfl rfl rfl
  have hset : (s.upd c fun o => { o with
      lap := lapOf (s.obj c) tick, lastTick := some tick
      crc := dictSet o.crc (lapOf (s.obj c) tick * 256 + tick.toNat) crc }).room = s.room :=
    room_upd_quiet s c _ rfl rfl rfl rfl
  simp only [pairCrc]
  split
  · rw [hupd, hset]
  · split
    · rw [hupd, hset]
    · split
      · rw [room_say, room_stats, hupd, hset]
      · rw [room_stats, hupd, hset]

theorem forward_ok {s s' : Server} {c : ℕ} {ftype : Byte} {payload : List Byte}
    (h : s.forward c ftype payload = .ok s') :
    ((s.obj c).partner = none ∧ s' = s) ∨
      ∃ p, (s.obj c).partner = some p ∧ s' = s.send p (frame ftype (ljust gamePayload payload)) := by
  simp only [forward] at h
  split at h
  · next hp => exact .inl ⟨hp, (Except.ok.inj h).symm⟩
  · next p hp =>
    obtain ⟨data, hdata, h⟩ := bind_ok h
    exact .inr ⟨p, hp, by rw [← Except.ok.inj h, frame?_ok hdata]⟩

theorem startFrame_ok {s : Server} {me them seed : ℕ} {data : List Byte}
    (h : s.startFrame me them seed = .ok data) :
    ∃ name, (s.obj them).name = some name ∧
      data = startOf ((s.obj me).role.getD 0) seed s.delay s.variation name := by
  simp only [startFrame] at h
  obtain ⟨d, hd, h⟩ := bind_ok h
  obtain ⟨v, hv, h⟩ := bind_ok h
  split at h
  · cases h
  · next name hname => exact ⟨name, hname, by rw [frame?_ok h, byte?_ok hd, byte?_ok hv]; rfl⟩

theorem startOne_ok {s s' : Server} {me them seed : ℕ} (h : s.startOne me them seed = .ok s') :
    ∃ name, (s.obj them).name = some name ∧
      s'.room = s.room.queue me
        (startOf ((s.obj me).role.getD 0) seed s.delay s.variation name) ∧
      ∀ d, (s'.obj d).role = (s.obj d).role := by
  simp only [startOne] at h
  obtain ⟨data, hdata, h⟩ := bind_ok h
  obtain ⟨name, hname, rfl⟩ := startFrame_ok hdata
  rw [obj_upd_quiet s me them _ Client.name rfl] at hname
  rw [obj_upd_quiet s me me _ Client.role rfl] at h
  refine ⟨name, hname, ?_, ?_⟩
  · rw [← Except.ok.inj h, room_send, room_upd_quiet s me _ rfl rfl rfl rfl]
    rfl
  · intro d
    rw [← Except.ok.inj h]
    exact (obj_upd_quiet _ me d (fun o => { o with tx := o.tx ++ _ }) Client.role rfl).trans
      (obj_upd_quiet s me d (fun o => { o with crc := [] }) Client.role rfl)

theorem startBoth_ok {s s' : Server} {host guest seed : ℕ}
    (h : s.startBoth host guest seed = .ok s') (hhost : (s.obj host).role = some 0)
    (hguest : (s.obj guest).role = some 1) :
    ∃ hn gn, (s.obj host).name = some hn ∧ (s.obj guest).name = some gn ∧
      s'.room = (s.room.queue host (startOf 0 seed s.delay s.variation gn)).queue guest
        (startOf 1 seed s.delay s.variation hn) := by
  obtain ⟨s₁, h₁, h₂⟩ := bind_ok h
  obtain ⟨gn, hgn, hroom₁, hrole₁⟩ := startOne_ok h₁
  obtain ⟨hn, hhn, hroom₂, -⟩ := startOne_ok h₂
  have hname : (s₁.obj host).name = (s.obj host).name := by
    rw [← room_name, hroom₁]
    rfl
  have hdelay : s₁.delay = s.delay := by
    rw [← room_delay, hroom₁]
    rfl
  have hvar : s₁.variation = s.variation := by
    rw [← room_variation, hroom₁]
    rfl
  refine ⟨hn, gn, hname ▸ hhn, hgn, ?_⟩
  rw [hroom₂, hroom₁, hrole₁, hhost, hguest, hdelay, hvar]
  rfl

theorem room_link (s : Server) (host guest : ℕ) :
    (s.link host guest).room = { s.room with
      partner := Function.update (Function.update s.room.partner host (some guest)) guest
        (some host) } := by
  simp only [link]
  rw [room_upd_partner _ guest (some host) fun _ => some 1,
    room_upd_partner s host (some guest) fun _ => some 0]

theorem link_role {s : Server} {host guest : ℕ} (hne : host ≠ guest) :
    ((s.link host guest).obj host).role = some 0 ∧
      ((s.link host guest).obj guest).role = some 1 := by
  constructor
  · rw [link, obj_upd, if_neg hne, obj_upd, if_pos rfl]
  · rw [link, obj_upd, if_pos rfl]

theorem randrange_bounds (s : Server) {lo hi : ℕ} (h : lo < hi) :
    lo ≤ (s.randrange lo hi).1 ∧ (s.randrange lo hi).1 < hi := by
  have := Nat.mod_lt (s.random 0) (Nat.sub_pos_of_lt h)
  simp only [randrange]
  omega

theorem pair_ok {s s' : Server} {host guest : ℕ} (hne : host ≠ guest)
    (h : s.pair host guest = .ok s') :
    ∃ seed hn gn, 1 ≤ seed ∧ seed < 0x10000 ∧ (s.obj host).name = some hn ∧
      (s.obj guest).name = some gn ∧ s'.room = s.room.meet host guest seed hn gn := by
  have hseed := s.randrange_bounds (show 1 < 0x10000 by omega)
  simp only [pair] at h
  obtain ⟨s₁, h₁, h⟩ := bind_ok h
  obtain ⟨hn, gn, hhn, hgn, hroom⟩ := startBoth_ok h₁ (link_role hne).1 (link_role hne).2
  rw [← room_name, room_link] at hhn hgn
  refine ⟨_, hn, gn, hseed.1, hseed.2, hhn, hgn, ?_⟩
  rw [← Except.ok.inj h, room_lobbyUpdate, room_say, room_stats, hroom, room_link]
  rfl

theorem oldest_mem (s : Server) (o : ℕ) (os : List ℕ) : s.oldest o os ∈ o :: os := by
  induction os generalizing o with
  | nil => exact List.mem_singleton_self o
  | cons b os ih =>
    have hmem : s.oldest o (b :: os) ∈ (if (s.obj b).born < (s.obj o).born then b else o) :: os :=
      ih _
    rcases List.mem_cons.mp hmem with h | h
    · rw [h]
      split
      · exact List.mem_cons_of_mem _ (List.mem_cons_self ..)
      · exact List.mem_cons_self ..
    · exact List.mem_cons_of_mem _ (List.mem_cons_of_mem _ h)

theorem mem_others {s : Server} {c d : ℕ} : d ∈ s.others c ↔
    d ∈ s.clients ∧ (s.obj d).name.isSome ∧ (s.obj d).partner = none ∧ d ≠ c := by
  simp only [others, idle, List.mem_filter, Bool.and_eq_true, Option.isNone_iff_eq_none, bne_iff_ne,
    ne_eq, and_assoc]

theorem tryPair_ok {s s' : Server} {c : ℕ} (h : s.tryPair c = .ok s') :
    s.room.Pairs c s'.room := by
  simp only [tryPair] at h
  split at h
  · next hnone => exact Except.ok.inj h ▸ .alone hnone
  · next o os hos =>
    have hmem : s.oldest o os ∈ s.others c := hos ▸ s.oldest_mem o os
    obtain ⟨seed, hn, gn, hlo, hhi, hhost, hguest, hroom⟩ := pair_ok (mem_others.mp hmem).2.2.2 h
    exact hroom ▸ .met _ seed hn gn hmem hlo hhi hhost hguest

theorem rename_length : ∀ {k : ℕ} {byName : List (Name × ℕ)} {name name' : Name}
    {random random' : ℕ → ℕ}, rename byName k name random = some (name', random') →
    name.length ≤ 8 → name'.length ≤ 8
  | k, byName, name, name', random, random', h, hlen => by
      unfold rename at h
      split at h
      · simp only [Option.some.injEq, Prod.mk.injEq] at h
        exact h.1 ▸ hlen
      · cases k with
        | zero => cases h
        | succ k =>
          refine rename_length h ?_
          simp only [List.length_append, List.length_take, List.length_singleton]
          omega

theorem room_register (s : Server) (c : ℕ) (tv : Byte) (name : Name) (random : ℕ → ℕ) :
    (s.register c tv name random).room = s.room.call c name := by
  simp only [register]
  rw [room_lobbyUpdate, room_say, room_byName, room_note, room_upd_name, room_random]
  rfl

theorem welcome_ok {s s' : Server} {k c : ℕ} {tv : Byte} {name : Name}
    (h : s.welcome k c tv name = .ok s') (hlen : name.length ≤ 8) :
    ∃ name', name'.length ≤ 8 ∧ (s.room.call c name').Pairs c s'.room := by
  simp only [welcome] at h
  split at h
  · cases h
  · next name' random' hname =>
    exact ⟨name', rename_length hname hlen, room_register .. ▸ tryPair_ok h⟩

theorem goodName_length {name : Name} (h : goodName name = true) : name.length ≤ 8 := by
  simp only [goodName, Bool.and_eq_true, decide_eq_true_eq] at h
  exact h.1.2

theorem onHello_ok {s s' : Server} {k c : ℕ} {payload : List Byte}
    (h : s.onHello k c payload = .ok s') :
    (helloOk payload = false ∧ s'.room = s.room.leave c) ∨
      (helloOk payload = true ∧
        ∃ name, name.length ≤ 8 ∧ (s.room.call c name).Pairs c s'.room) := by
  have htv : (s.upd c fun o => { o with tv := some (payload.getD 1 0) }).room = s.room :=
    room_upd_quiet s c _ rfl rfl rfl rfl
  rw [onHello] at h
  simp only [helloOk]
  split at h
  · next hver =>
    exact .inl ⟨by rw [if_pos hver], by rw [← Except.ok.inj h, room_drop, room_say]⟩
  · next hver =>
    rw [if_neg hver]
    dsimp only at h
    split at h
    · next htv' =>
      exact .inl ⟨by rw [if_pos (.inl htv')], by rw [← Except.ok.inj h, room_drop, room_say, htv]⟩
    · next htv' =>
      split at h
      · next hstd =>
        exact .inl ⟨by rw [if_pos (.inr hstd)], by rw [← Except.ok.inj h, room_drop, room_say, htv]⟩
      · next hstd =>
        rw [if_neg (by tauto)]
        split at h
        · next hgood => exact .inr ⟨hgood, htv ▸ welcome_ok h (goodName_length hgood)⟩
        · next hbad =>
          exact .inl ⟨by simpa using hbad, by rw [← Except.ok.inj h, room_drop, room_say, htv]⟩

theorem sendLobby_ok {s s' : Server} {c : ℕ} (h : s.sendLobby c = .ok s') :
    s' = s.send c s.room.lobby := by
  simp only [sendLobby] at h
  obtain ⟨data, hdata, h⟩ := bind_ok h
  rw [← Except.ok.inj h, frame?_ok hdata]
  rfl

/-- What handling a frame does to the room, in the room that has seen it come. -/
theorem handle_ok {s s' : Server} {k c : ℕ} {ftype : Byte} {payload : List Byte}
    (h : s.handle k c ftype payload = .ok s') :
    (s.room.note (.handled c ftype payload)).Handles c ftype payload s'.room := by
  simp only [handle] at h
  split at h
  · next hrelay =>
    obtain ⟨s₁, hfwd, h⟩ := bind_ok h
    have hroom : s'.room = s₁.room := by
      rw [← Except.ok.inj h]
      split
      · exact room_pairCrc ..
      · rfl
    rw [hroom]
    rcases forward_ok hfwd with ⟨hp, rfl⟩ | ⟨p, hp, rfl⟩
    · exact .unheard hrelay hp
    · rw [room_send]
      exact .relayed p hrelay hp
  · next hrelay =>
    split at h
    · next ht =>
      rcases onHello_ok h with ⟨hbad, h⟩ | ⟨hgood, name, hlen, h⟩
      · exact h ▸ .refused ht hbad
      · exact .welcomed name _ ht hgood hlen h
    · split at h
      · next ht => exact sendLobby_ok h ▸ room_send .. ▸ .listed ht
      · split at h
        · next ht => exact .joined _ ht (tryPair_ok h)
        · split at h
          · next ht => exact Except.ok.inj h ▸ room_send .. ▸ .pinged ht
          · split at h
            · next ht => exact Except.ok.inj h ▸ room_drop .. ▸ .gone ht
            · exact Except.ok.inj h ▸ .unknown hrelay ‹_› ‹_› ‹_› ‹_› ‹_›

end Server
end VO.Relay
