import VideoOlympics.Port.Checksums
import VideoOlympics.Port.Receive
import VideoOlympics.Port.Refines

/-! The turns of the event loop, in C. Every connection that is ready is served once, then every client
    is flushed, and at the very end the slots are reaped. So a slot that a client has left is not yet
    free for a connection that comes in the same turn. -/

namespace VO.Port
open Relay

/-- What is ready: the listening socket, or a connection, to be read from, to be written to, or both. -/
inductive Ready where
  | listener (addr : ℕ × ℕ) (now : ℕ)
  | client (c : ℕ) (read : Option (List Byte)) (write : Option Server.Sent)

namespace Ready

/-- The socket. -/
def socket : Ready → Option ℕ
  | .listener _ _ => none
  | .client c _ _ => some c

/-- Read first, then write. -/
def events : Ready → List Event
  | .listener addr now => [.loop (.accept addr now)]
  | .client c read write =>
    (read.map fun data => Event.loop (.recv c data 0)).toList ++
      (write.map fun res => Event.loop (.flush c res)).toList

end Ready

/-- A turn: what is ready, what the kernel takes when the clients are flushed, and whether it is time for
    a sweep. -/
structure Turn where
  batch : List Ready
  sent : ℕ → Server.Sent
  sweep : Option ℕ

namespace Turn

/-- A socket is reported once. -/
def Proper (t : Turn) : Prop := (t.batch.map Ready.socket).Nodup

instance (t : Turn) : Decidable t.Proper := inferInstanceAs (Decidable (List.Nodup _))

/-- What is ready is served in the order it is reported. -/
def serving (t : Turn) : List Event := t.batch.flatMap Ready.events

/-- Who is connected once all have been served is flushed, in the order they came. -/
def flushing (t : Turn) (s : State) : List Event :=
  s.order.map fun i => .loop (.flush (s.conn i) (t.sent (s.conn i)))

/-- The events of a turn that begins in this state. -/
def events (t : Turn) (s : State) : List Event :=
  t.serving ++ ((port.run s t.serving).map t.flushing).getD [] ++
    (t.sweep.map fun now => Event.loop (.sweep now)).toList ++ [.reap]

end Turn

/-- The events of turn after turn. -/
def State.turns : State → List Turn → List Event
  | _, [] => []
  | s, t :: ts => t.events s ++ ((port.run s (t.events s)).map fun u => u.turns ts).getD []

namespace State

/-! ### Coming while others go -/

/-- The slots that clients have left, and that have not been reaped. -/
def retired (s : State) : ℕ :=
  (List.finRange maxClients).countP fun i => (s.clients i).inUse && (s.clients i).dead

/-- The connection is taken on. -/
def Admits (s : State) (addr : ℕ × ℕ) (now : ℕ) : Prop :=
  ∃ i, (s.acceptClient addr now).order = s.order ++ [i] ∧
    (s.acceptClient addr now).conn i = s.accepted ∧
    (s.acceptClient addr now).trace = s.trace ++ [.accepted s.accepted]

variable {s : State}

/-- A slot that is in use has a connected client, or one who has left it. -/
theorem inUse_count (hs : s.rack.Sound) :
    (List.finRange maxClients).countP (fun i => (s.clients i).inUse) = s.order.length + s.retired := by
  have hlive : (List.finRange maxClients).countP
      (fun i => (s.clients i).inUse && !(s.clients i).dead) = s.order.length := by
    rw [List.countP_eq_length_filter]
    refine List.Perm.length_eq ?_
    refine (List.perm_ext_iff_of_nodup ((List.nodup_finRange _).filter _) hs.nodup).mpr ?_
    intro i
    rw [hs.mem_order i, List.mem_filter]
    simp [rack]
  rw [List.countP_eq_countP_filter_add _ _ fun i => (s.clients i).dead, List.countP_filter,
    List.countP_filter, hlive, Nat.add_comm, retired]

/-- With the caps to spare, a connection is taken on just when there is a free slot. -/
theorem admits_iff_free (hcap : s.order.length < maxClients) {addr : ℕ × ℕ}
    (hhost : s.fromHost addr.1 < maxConnectionsPerIp) (now : ℕ) :
    s.Admits addr now ↔ ∃ i, (s.clients i).inUse = false := by
  rw [Admits]
  rcases s.acceptClient_cases addr now with ⟨hwhy, stats, heq⟩ | ⟨i, clients, hfree, heq, -, hi⟩
  · rw [heq]
    refine iff_of_false ?_ ?_
    · rintro ⟨i, -, -, htrace⟩
      simp at htrace
    · rintro ⟨i, hi⟩
      rcases hwhy with hfull | hfull | hfull
      · exact absurd hcap (Nat.not_lt_of_le hfull)
      · exact absurd hhost (Nat.not_lt_of_le hfull)
      · exact Bool.false_ne_true (hi.symm.trans (hfull i))
  · rw [heq]
    refine iff_of_true ⟨i, rfl, ?_, rfl⟩ ⟨i, hfree⟩
    exact (congrArg Slot.conn hi).trans rfl

/-- With the caps to spare, a connection is taken on just when there are fewer clients than slots, those
    counted that have left but have not been reaped. -/
theorem admits_iff {s₀ : State} {es : List Event} (h₀ : port.init s₀) (hrun : port.run s₀ es = some s)
    (hcap : s.order.length < maxClients) {addr : ℕ × ℕ}
    (hhost : s.fromHost addr.1 < maxConnectionsPerIp) (now : ℕ) :
    s.Admits addr now ↔ s.order.length + s.retired < maxClients := by
  have hsound : s.rack.Sound := port.reachable_invariant (fun _ h => (tied_of_init h).sound)
    (fun _ _ _ => step_sound) ⟨s₀, es, h₀, hrun⟩
  have hsome : (List.finRange maxClients).countP (fun i => (s.clients i).inUse) < maxClients ↔
      ∃ i, (s.clients i).inUse = false := by
    have hlt := List.countP_lt_length_iff (l := List.finRange maxClients)
      (p := fun i => (s.clients i).inUse)
    rw [List.length_finRange] at hlt
    simpa using hlt
  rw [admits_iff_free hcap hhost, ← hsome, inUse_count hsound]

theorem admits_iff_retired : ∃ s, port.run listening
      [.loop (.accept (0, 0) 0), .reap, .loop (.recv 0 [1, tBye] 0)] = some s ∧ s.retired = 1 ∧
      (s.Admits (0, 1) 1 ↔ s.order.length + s.retired < maxClients) := by
  obtain ⟨s, hrun, hcap, hhost, hretired⟩ : ∃ s, port.run listening
      [.loop (.accept (0, 0) 0), .reap, .loop (.recv 0 [1, tBye] 0)] = some s ∧
      s.order.length < maxClients ∧ s.fromHost 0 < maxConnectionsPerIp ∧ s.retired = 1 :=
    port.exists_run (by decide +kernel)
  exact ⟨s, hrun, hretired, admits_iff init_listening hrun hcap hhost 1⟩

end State

/-- Connections come, one in each turn: eight from each of eight hosts. -/
def crowd (n : ℕ) : List Turn := (List.range n).map fun k =>
  { batch := [.listener (k % 8, k) k], sent := fun _ => .blocked, sweep := none }

/-- One leaves, and in the same turn another comes, from a new host. -/
def changing : Turn :=
  { batch := [.client 0 (some [1, tBye]) none, .listener (8, 0) 64], sent := fun _ => .blocked
    sweep := none }

/-- When it is full the relay refuses a connection that comes in the turn in which a client leaves, though
    only 63 are connected. -/
theorem refuses_for_retired : port.init listening ∧ (∀ t ∈ crowd 64 ++ [changing], t.Proper) ∧
    ∃ s, port.run listening (listening.turns (crowd 64) ++
        Ready.events (.client 0 (some [1, tBye]) none)) = some s ∧
      s.order.length < maxClients ∧ s.fromHost 8 < maxConnectionsPerIp ∧ ¬ s.Admits (8, 0) 64 := by
  obtain ⟨s, hrun, hcap, hhost, hfull⟩ : ∃ s, port.run listening (listening.turns (crowd 64) ++
      Ready.events (.client 0 (some [1, tBye]) none)) = some s ∧
      s.order.length < maxClients ∧ s.fromHost 8 < maxConnectionsPerIp ∧
      ∀ i, (s.clients i).inUse = true := port.exists_run (by decide +kernel)
  refine ⟨init_listening, by decide, s, hrun, hcap, hhost, ?_⟩
  have hiff : s.Admits (8, 0) 64 ↔ ∃ i, (s.clients i).inUse = false :=
    State.admits_iff_free hcap hhost 64
  rw [hiff]
  rintro ⟨i, hi⟩
  exact Bool.false_ne_true (hi.symm.trans (hfull i))

end VO.Port
