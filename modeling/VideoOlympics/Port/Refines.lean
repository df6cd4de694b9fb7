import VideoOlympics.Base.Refine
import VideoOlympics.Port.Events
import VideoOlympics.Port.Links

/-! The relay in C does what the other relay does: as long as consoles have manners, no queue outgrows
    its array and no connection comes while there is no slot for it, its trace is the other's. When it
    reaps its slots is its own affair. -/

namespace VO.Port
open Relay

namespace Event

/-- What the other relay has of an event. -/
def heard : Event → Option Relay.Event
  | .loop e => some e
  | .reap => none

/-- The kernel gives no more than it is asked for, and a name is found before the guard steps in. -/
def Bounded : Event → Prop
  | .loop (.recv _ data k) => data.length ≤ recvMax ∧ k ≤ renameGuard
  | _ => True

instance : DecidablePred Bounded
  | .loop (.recv _ data k) => inferInstanceAs (Decidable (data.length ≤ recvMax ∧ k ≤ renameGuard))
  | .loop (.accept _ _) => .isTrue trivial
  | .loop (.flush _ _) => .isTrue trivial
  | .loop (.sweep _) => .isTrue trivial
  | .reap => .isTrue trivial

end Event

namespace State

/-- There is a free slot for a connection that is accepted. -/
def HasSlot (c : State) : Event → Prop
  | .loop (.accept _ _) => ∃ i, (c.clients i).inUse = false
  | _ => True

instance (c : State) : DecidablePred c.HasSlot
  | .loop (.accept _ _) => inferInstanceAs (Decidable (∃ i, (c.clients i).inUse = false))
  | .loop (.recv _ _ _) => .isTrue trivial
  | .loop (.flush _ _) => .isTrue trivial
  | .loop (.sweep _) => .isTrue trivial
  | .reap => .isTrue trivial

theorem eachFrame_of_forall {P : State → Index → Byte → List Byte → Prop}
    (h : ∀ c i ftype payload, P c i ftype payload) {i : Index} (turns : ℕ) (c : State) :
    c.EachFrame P turns i := by
  induction turns generalizing c with
  | zero => trivial
  | succ turns ih =>
    rw [EachFrame]
    split
    · exact ⟨h _ _ _ _, ih _⟩
    · trivial

theorem eachHeard_of_forall {P : State → Index → Byte → List Byte → Prop}
    (h : ∀ c i ftype payload, P c i ftype payload) (c : State) : ∀ e, c.EachHeard P e
  | .loop (.recv _ _ _) => fun _ _ _ _ => eachFrame_of_forall h _ _
  | .loop (.accept _ _) => trivial
  | .loop (.flush _ _) => trivial
  | .loop (.sweep _) => trivial
  | .reap => trivial

theorem step_sound {c c' : State} {d : Event} (hs : c.rack.Sound) (h : port.step c d = some c') :
    c'.rack.Sound :=
  step_keeps (I := Rack.Sound) (P := fun _ _ _ _ => True) (fun _ i hs => hs.leave i)
    (fun _ _ hs hi => hs.seat hi) (fun _ hs => hs.reap) (fun _ _ _ _ _ hs _ hh => hh.sound hs)
    (eachHeard_of_forall (fun _ _ _ _ => trivial) c d) hs h

end State

/-- The two relays between two events. -/
structure Twins (s : Server) (c : State) : Prop where
  mirrors : Mirrors s c
  sound : c.rack.Sound
  decent : s.room.Decent
  resting : s.room.Resting

variable {s s' : Server} {c c' : State}

theorem twins_fresh (delay variation : ℤ) (lobby lobby' : Option ℕ) (random : ℕ → ℕ) :
    Twins (Server.fresh delay variation lobby random)
      (State.fresh delay variation lobby' random) where
  mirrors :=
    { delay := rfl, variation := rfl, random := rfl, trace := rfl, next := rfl, clients := rfl
      byName := rfl, distinct := List.nodup_nil
      inj := fun _ _ h => by cases h
      known := fun _ h => by cases h
      listed := fun _ h => by cases h
      entry := fun _ h => by cases h
      proper := fun _ h => by cases h
      same := fun _ h => by cases h
      link := fun _ h => by cases h
      linked := fun _ h => by cases h }
  sound := State.sound_fresh delay variation lobby' random
  decent :=
    { seated := ⟨List.nodup_nil, fun _ h => by cases h⟩
      matching := fun _ h => by cases h
      unsent := fun _ _ => rfl
      unnamed := fun _ _ => rfl }
  resting := fun _ h => by cases h

/-- A connected client's events reach its slot. -/
theorem Twins.woken (h : Twins s c) {d : ℕ} (hd : d ∈ s.clients) : ∃ i, c.conn i = d ∧ c.Woken d i := by
  rw [h.mirrors.clients] at hd
  obtain ⟨i, hi, rfl⟩ := List.mem_map.mp hd
  obtain ⟨huse, hlive⟩ := (h.sound.mem_order i).mp hi
  exact ⟨i, rfl, h.sound.tag i huse, huse, hlive⟩

/-- One event of both. -/
theorem Twins.loop (h : Twins s c) {e : Relay.Event} (hbounded : (Event.loop e).Bounded)
    (hslot : c.HasSlot (.loop e)) (hstep : s.step e = some s') (hpolite : AllPolite s'.trace)
    (hfits : Fits s') (hstep' : port.step c (.loop e) = some c') : Twins s' c' := by
  refine ⟨?_, State.step_sound h.sound hstep', Server.step_decent h.decent hpolite hstep,
    Server.step_resting h.decent.seated h.resting hstep⟩
  cases e with
  | accept addr now =>
    obtain rfl : s.accept addr now = s' := Option.some.inj hstep
    obtain rfl : c.acceptClient addr now = c' := Option.some.inj hstep'
    exact h.mirrors.accept hslot addr now
  | sweep now =>
    obtain rfl : s.sweep now = s' := Option.some.inj hstep
    obtain rfl : c.sweep now = c' := Option.some.inj hstep'
    exact h.mirrors.sweep h.sound now hfits
  | flush d res =>
    obtain rfl : (c.wake d fun c i => c.flush i res) = c' := Option.some.inj hstep'
    rw [Server.step] at hstep
    split at hstep
    · next hd =>
      obtain ⟨i, rfl, hwoken⟩ := h.woken hd
      obtain rfl := Option.some.inj hstep
      rw [State.wake_woken hwoken]
      exact h.mirrors.flush h.sound hwoken.2.1 hwoken.2.2 res hfits
    · cases hstep
  | recv d data k =>
    obtain ⟨hasked, hk⟩ := hbounded
    have hstep'' : (if data.length ≤ recvMax then some (c.wake d fun c i => c.service i data)
      else none) = some c' := hstep'
    rw [if_pos hasked] at hstep''
    obtain rfl := Option.some.inj hstep''
    rw [Server.step] at hstep
    split at hstep
    · next hd =>
      obtain ⟨i, rfl, hwoken⟩ := h.woken hd
      have hok : s.recv k (c.conn i) data = .ok s' := by
        cases hr : s.recv k (c.conn i) data with
        | error _ => simp [hr, Except.toOption] at hstep
        | ok u => simpa [hr, Except.toOption] using hstep
      rw [State.wake_woken hwoken]
      exact h.mirrors.recv h.sound h.decent h.resting hwoken.2.1 hd hk hasked hok hpolite hfits
    · cases hstep

theorem Twins.reap (h : Twins s c) : Twins s c.reap :=
  ⟨h.mirrors.reap h.sound h.decent.matching, State.step_sound (d := .reap) h.sound rfl, h.decent,
    h.resting⟩

theorem follows : relay.Follows port Event.heard Twins Event.Bounded
    (fun s => Fits s ∧ AllPolite s.trace) State.HasSlot where
  goes c d hd := by
    cases d with
    | reap => rfl
    | loop e =>
      cases e with
      | recv d data k =>
        change (if data.length ≤ recvMax then some _ else none).isSome
        rw [if_pos hd.1]
        rfl
      | accept addr now => rfl
      | flush d res => rfl
      | sweep now => rfl
  both {s s' c c' d e} h hbounded hheard hstep hgood hslot hstep' := by
    cases d with
    | reap => cases hheard
    | loop e' =>
      obtain rfl : e' = e := Option.some.inj hheard
      exact h.loop hbounded hslot hstep hgood.2 hgood.1 hstep'
  own {s c c' d} h _ hheard _ hstep' := by
    cases d with
    | loop e => cases hheard
    | reap =>
      obtain rfl : c.reap = c' := Option.some.inj hstep'
      exact h.reap

/-- Where every console has manners, no queue outgrows its array, every name is found within the guard
    and every connection finds a free slot, the C relay goes through the same events, whenever it
    reaps; and it appends the same frames to the same connections in the same order, and drops the same
    ones, as the trace tells. Who is connected, and what waits for them, is the same too. -/
theorem port_refines {delay variation : ℤ} {lobby lobby' : Option ℕ} {random : ℕ → ℕ}
    {ds : List Event} {s : Server}
    (hrun : relay.run (Server.fresh delay variation lobby random) (ds.filterMap Event.heard) = some s)
    (hpolite : AllPolite s.trace)
    (hfits : relay.Throughout Fits (Server.fresh delay variation lobby random)
      (ds.filterMap Event.heard))
    (hbounded : ∀ d ∈ ds, d.Bounded)
    (hslot : port.EachStep State.HasSlot (State.fresh delay variation lobby' random) ds) :
    ∃ c, port.run (State.fresh delay variation lobby' random) ds = some c ∧ c.trace = s.trace ∧
      c.order.map c.conn = s.clients ∧
      ∀ i ∈ c.order, (c.clients i).tx.contents = (s.obj (c.conn i)).tx := by
  have hpolites := relay.throughout_of_final
    (fun _ _ _ hstep hpolite => Server.allPolite_of_step hstep hpolite) hrun hpolite
  obtain ⟨c, hrun', h⟩ := follows.run (twins_fresh delay variation lobby lobby' random) hrun
    (relay.throughout_and hfits hpolites) hbounded hslot
  refine ⟨c, hrun', h.mirrors.trace.symm, h.mirrors.clients.symm, fun i hi => ?_⟩
  exact (h.mirrors.same i (h.mirrors.listed i hi)).tx.symm

theorem port_refines_reseated : ∃ s c,
    relay.run Relay.listening (reseated.filterMap Event.heard) = some s ∧
      port.run listening reseated = some c ∧ c.trace = s.trace := by
  obtain ⟨s, hrun, hpolite⟩ : ∃ s,
      relay.run Relay.listening (reseated.filterMap Event.heard) = some s ∧ AllPolite s.trace :=
    relay.exists_run (by decide +kernel)
  have hslot : port.EachStep State.HasSlot listening reseated := by decide +kernel
  obtain ⟨c, hrun', htrace, -⟩ := port_refines hrun hpolite (by decide +kernel) (by decide +kernel) hslot
  exact ⟨s, c, hrun, hrun', htrace⟩

end VO.Port
