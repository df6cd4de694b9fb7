import VideoOlympics.Relay.Matching

/-! What the trace is worth. Per client, the frames it is said to have sent are, byte for byte, what
    was received from it, up to the part of a frame still in its buffer; and the appends to its queue
    are what the kernel has taken plus what still waits. -/

namespace VO.Relay

abbrev Frame := Byte × List Byte

namespace Act

def frameOf (c : ℕ) : Act → Option Frame
  | .handled d ftype payload => if d = c then some (ftype, payload) else none
  | _ => none

def dataFor (c : ℕ) : Act → List Byte
  | .queued d data => if d = c then data else []
  | _ => []

end Act

/-- The frames of a client, in the order they were handled. -/
def framesOf (c : ℕ) (trace : List Act) : List Frame := trace.filterMap (Act.frameOf c)

/-- Everything appended to a client's queue. -/
def queuedTo (c : ℕ) (trace : List Act) : List Byte := trace.flatMap (Act.dataFor c)

/-- Frames as they are on the wire. -/
def wire (fs : List Frame) : List Byte := fs.flatMap fun f => frame f.1 f.2

/-- What has been received from a client: its frames, and what is left in its buffer. -/
def Room.heard (r : Room) (c : ℕ) : List Byte := wire (framesOf c r.trace) ++ r.rx c

@[simp] theorem framesOf_append (c : ℕ) (as bs : List Act) :
    framesOf c (as ++ bs) = framesOf c as ++ framesOf c bs := List.filterMap_append

@[simp] theorem queuedTo_append (c : ℕ) (as bs : List Act) :
    queuedTo c (as ++ bs) = queuedTo c as ++ queuedTo c bs := List.flatMap_append

namespace Room

/-- Identities not given out yet have no attributes, and the queues are accounted for. -/
structure Books (r : Room) : Prop where
  fresh : ∀ c, r.next ≤ c → r.name c = none ∧ r.rx c = [] ∧ r.tx c = []
  links : ∀ c p, r.partner c = some p → p < r.next
  clients : ∀ c ∈ r.clients, c < r.next
  queued : ∀ c, queuedTo c r.trace = r.taken c ++ r.tx c

/-- The books are in order, and this is what has been received from each client. -/
structure Accounts (base : ℕ → List Byte) (r : Room) : Prop extends r.Books where
  heard : ∀ c, r.heard c = base c

variable {r r' : Room} {base : ℕ → List Byte} {c : ℕ}

theorem Accounts.note (h : r.Accounts base) {a : Act} (hframe : ∀ d, a.frameOf d = none)
    (hdata : ∀ d, a.dataFor d = []) : (r.note a).Accounts base where
  fresh := h.fresh
  links := h.links
  clients := h.clients
  queued d := by
    simp only [Room.note, queuedTo_append, h.queued d]
    simp [queuedTo, hdata d]
  heard d := by
    simp only [Room.heard, Room.note, framesOf_append, ← h.heard d]
    simp [framesOf, hframe d]

theorem Accounts.queue (h : r.Accounts base) {p : ℕ} (hp : p < r.next) (data : List Byte) :
    (r.queue p data).Accounts base where
  fresh d hd := by
    have hne : d ≠ p := fun e => Nat.not_lt.mpr hd (e ▸ hp)
    simp only [Room.queue, Function.update_of_ne hne]
    exact h.fresh d hd
  links := h.links
  clients := h.clients
  queued d := by
    simp only [Room.queue, queuedTo_append, h.queued d]
    by_cases hd : d = p
    · simp [queuedTo, Act.dataFor, hd]
    · simp [queuedTo, Act.dataFor, Ne.symm hd, hd]
  heard d := by
    simp only [Room.heard, Room.queue, framesOf_append, ← h.heard d]
    simp [framesOf, Act.frameOf, List.filterMap_cons]

theorem Accounts.call (h : r.Accounts base) (hc : c < r.next) (name : Name) :
    (r.call c name).Accounts base := by
  have hnote := h.note (a := .named c name) (fun _ => rfl) fun _ => rfl
  refine ⟨⟨?_, h.links, h.clients, hnote.queued⟩, hnote.heard⟩
  intro d hd
  have hne : d ≠ c := fun e => Nat.not_lt.mpr hd (e ▸ hc)
  simp only [Room.call, Function.update_of_ne hne]
  exact h.fresh d hd

/-- New links between clients that are known change nothing here. -/
theorem Accounts.partner (h : r.Accounts base) {f : ℕ → Option ℕ}
    (hf : ∀ d p, f d = some p → p < r.next) : { r with partner := f }.Accounts base :=
  ⟨⟨h.fresh, hf, h.clients, h.queued⟩, h.heard⟩

theorem update_links {f : ℕ → Option ℕ} {n a : ℕ} {b : Option ℕ}
    (hf : ∀ d p, f d = some p → p < n) (hb : ∀ p, b = some p → p < n) :
    ∀ d p, Function.update f a b d = some p → p < n := by
  intro d p hp
  rw [Function.update_apply] at hp
  split at hp
  · exact hb p hp
  · exact hf d p hp

theorem Accounts.leave (h : r.Accounts base) (c : ℕ) : (r.leave c).Accounts base := by
  have hnote := h.note (a := .dropped c) (fun _ => rfl) fun _ => rfl
  have hunlink : ((r.note (.dropped c)).unlink c).Accounts base := by
    simp only [unlink]
    split
    · next p hp =>
      have hlinks := update_links (a := p) (b := none) hnote.links (fun _ h => by cases h)
      exact (hnote.partner hlinks).queue (h.links c p hp) peerLeft
    · exact hnote
  simp only [Room.leave]
  split
  · exact h
  · exact ⟨⟨hunlink.fresh, hunlink.links,
      fun d hd => hunlink.clients d (List.mem_of_mem_erase hd), hunlink.queued⟩, hunlink.heard⟩

theorem Accounts.meet (h : r.Accounts base) {host guest seed : ℕ} {hn gn : Name}
    (hhost : host < r.next) (hguest : guest < r.next) :
    (r.meet host guest seed hn gn).Accounts base := by
  have hnote := h.note (a := .matched host guest seed) (fun _ => rfl) fun _ => rfl
  have hlinks := update_links (a := guest) (b := some host)
    (update_links (a := host) (b := some guest) hnote.links
      fun p hp => Option.some.inj hp ▸ hguest) fun p hp => Option.some.inj hp ▸ hhost
  exact ((hnote.partner hlinks).queue hhost _).queue hguest _

theorem update_same {β : Type} {f : ℕ → β} {n : ℕ} {b : β} (h : f n = b) :
    Function.update f n b = f := h ▸ Function.update_eq_self n f

theorem Accounts.join (h : r.Accounts base) : r.join.Accounts base := by
  obtain ⟨hname, hrx, htx⟩ := h.fresh r.next (Nat.le_refl _)
  have hnote := h.note (a := .accepted r.next) (fun _ => rfl) fun _ => rfl
  have hroom : r.join = { r.note (.accepted r.next) with
      clients := r.clients ++ [r.next], next := r.next + 1
      partner := Function.update r.partner r.next none } := by
    simp only [Room.join, Room.note, update_same hname, update_same hrx, update_same htx]
  rw [hroom]
  refine ⟨⟨fun d hd => h.fresh d (Nat.le_of_succ_le hd), ?_, ?_, hnote.queued⟩, hnote.heard⟩
  · intro d p hp
    exact Nat.lt_succ_of_lt (update_links (a := r.next) (b := none) h.links (fun _ h => by cases h)
      d p hp)
  · intro d hd
    rcases List.mem_append.mp hd with hd | hd
    · exact Nat.lt_succ_of_lt (h.clients d hd)
    · exact List.mem_singleton.mp hd ▸ Nat.lt_succ_self _

theorem Accounts.take (h : r.Accounts base) (c n : ℕ) : (r.take c n).Accounts base := by
  refine ⟨⟨?_, h.links, h.clients, ?_⟩, h.heard⟩
  · intro d hd
    obtain ⟨hname, hrx, htx⟩ := h.fresh d hd
    refine ⟨hname, hrx, ?_⟩
    simp only [Room.take, Function.update_apply]
    split
    · next hdc => rw [← hdc, htx, List.drop_nil]
    · exact htx
  · intro d
    simp only [Room.take, Function.update_apply]
    split
    · next hdc => rw [h.queued d, hdc, List.append_assoc, List.take_append_drop]
    · exact h.queued d

theorem Accounts.move (h : r.Accounts base) (hmove : r.Move r') : r'.Accounts base := by
  cases hmove with
  | join => exact h.join
  | leave c _ => exact h.leave c
  | take c n _ => exact h.take c n

/-- Bytes come in. -/
theorem Accounts.receive (h : r.Accounts base) (hc : c < r.next) (data : List Byte) :
    (r.setRx c (r.rx c ++ data)).Accounts (Function.update base c (base c ++ data)) := by
  refine ⟨⟨?_, h.links, h.clients, h.queued⟩, ?_⟩
  · intro d hd
    have hne : d ≠ c := fun e => Nat.not_lt.mpr hd (e ▸ hc)
    simp only [setRx, Function.update_of_ne hne]
    exact h.fresh d hd
  · intro d
    simp only [Room.heard, setRx, Function.update_apply]
    split
    · next hd => rw [← List.append_assoc, ← h.heard c, Room.heard, hd]
    · exact h.heard d

/-- A frame is taken off the buffer. -/
theorem Accounts.frame (h : r.Accounts base) (hc : c < r.next) {n ftype : Byte}
    {payload rest : List Byte} (hrx : r.rx c = n :: ftype :: (payload ++ rest))
    (hlen : payload.length + 1 = n.toNat) :
    ((r.setRx c rest).note (.handled c ftype payload)).Accounts base := by
  have hn : BitVec.ofNat 8 (payload.length + 1) = n := by rw [hlen, BitVec.ofNat_toNat, BitVec.setWidth_eq]
  refine ⟨⟨?_, h.links, h.clients, ?_⟩, ?_⟩
  · intro d hd
    have hne : d ≠ c := fun e => Nat.not_lt.mpr hd (e ▸ hc)
    simp only [Room.note, setRx, Function.update_of_ne hne]
    exact h.fresh d hd
  · intro d
    simp only [Room.note, setRx, queuedTo_append, h.queued d]
    simp [queuedTo, Act.dataFor]
  · intro d
    simp only [Room.heard, Room.note, setRx, framesOf_append, Function.update_apply, ← h.heard d]
    by_cases hd : d = c
    · simp [framesOf, Act.frameOf, hd, wire, Relay.frame, hrx, hn]
    · simp [framesOf, Act.frameOf, hd, Ne.symm hd]

theorem Accounts.pairs (h : r.Accounts base) (hc : c < r.next) (hp : r.Pairs c r') :
    r'.Accounts base := by
  cases hp with
  | alone _ => exact h
  | met host seed _ _ hhost _ _ _ _ => exact h.meet (h.clients host (mem_others.mp hhost).1) hc

theorem Accounts.handles (h : r.Accounts base) (hc : c < r.next) {ftype : Byte}
    {payload : List Byte} (hh : r.Handles c ftype payload r') : r'.Accounts base := by
  cases hh with
  | relayed p _ hp => exact h.queue (h.links c p hp) _
  | refused _ _ => exact h.leave c
  | gone _ => exact h.leave c
  | welcomed name _ _ _ _ hp => exact (h.call hc name).pairs hc hp
  | joined _ _ hp => exact h.pairs hc hp
  | listed _ => exact h.queue hc _
  | pinged _ => exact h.queue hc _
  | _ => exact h

end Room

end VO.Relay
