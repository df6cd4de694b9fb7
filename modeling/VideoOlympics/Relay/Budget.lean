import VideoOlympics.Base.Balance
import VideoOlympics.Relay.Channel
import Mathlib.Algebra.BigOperators.Group.Finset.Basic
import Mathlib.Algebra.BigOperators.Ring.List

/-! What the relay can be made to send. A frame it takes is paid for by its own bytes, a PEER_LEFT by
    the connection that ends, and nothing else is ever queued: so what goes out is bounded by what came
    in, whoever sends it and whatever it is. LIST is what the rate is for: two bytes bring seventy-five. -/

namespace VO.Relay

/-- The bytes an act appends to a `tx`. -/
def Act.weight : Act → ℕ
  | .queued _ data => data.length
  | _ => 0

/-- The bytes an event brings in. -/
def Event.heard : Event → ℕ
  | .recv _ data _ => data.length
  | _ => 0

namespace Room

variable {r r' : Room} {c : ℕ}

/-- All that was ever appended to a `tx`. -/
def queued (r : Room) : ℕ := (r.trace.map Act.weight).sum

/-- All that waits in the `rx` of the clients there have been. -/
def buffered (r : Room) : ℕ := ∑ c ∈ Finset.range r.next, (r.rx c).length

/-- Half bytes: twice what was queued, the rate for what may still be handled, and a PEER_LEFT for
    everybody who is still connected. -/
def spent (r : Room) : ℕ := 2 * r.queued + 75 * r.buffered + 32 * r.clients.length

theorem queued_note (r : Room) (a : Act) : (r.note a).queued = r.queued + a.weight := by
  simp only [queued, note, List.map_append, List.sum_append, List.map_singleton, List.sum_singleton]

theorem queued_queue (r : Room) (p : ℕ) (data : List Byte) :
    (r.queue p data).queued = r.queued + data.length := by
  simp only [queued, queue, List.map_append, List.sum_append, List.map_singleton, List.sum_singleton,
    Act.weight]

/-- What a buffer loses or gains, all of them together do. -/
theorem buffered_setRx (r : Room) (hc : c < r.next) (bs : List Byte) :
    (r.setRx c bs).buffered + (r.rx c).length = r.buffered + bs.length := by
  have hmem := Finset.mem_range.mpr hc
  simp only [buffered, setRx]
  rw [← Finset.add_sum_erase _ _ hmem, ← Finset.add_sum_erase _ _ hmem, Function.update_self]
  have hrest : ∑ d ∈ (Finset.range r.next).erase c, (Function.update r.rx c bs d).length =
      ∑ d ∈ (Finset.range r.next).erase c, (r.rx d).length :=
    Finset.sum_congr rfl fun d hd => by rw [Function.update_of_ne (Finset.ne_of_mem_erase hd)]
  omega

theorem peerLeft_length : peerLeft.length = 16 := rfl

/-- A drop costs no more than the connection it ends has put by. -/
theorem spent_leave (r : Room) (c : ℕ) : (r.leave c).spent ≤ r.spent := by
  by_cases hc : c ∈ r.clients
  · obtain ⟨-, -, hnext, -, hrx⟩ := r.leave_fixed c
    have hclients := (leave_present hc).1
    have hpos := List.length_pos_of_mem hc
    have hqueued : (r.leave c).queued ≤ r.queued + 16 := by
      have hnote : (r.note (.dropped c)).queued = r.queued := r.queued_note (.dropped c)
      simp only [leave, unlink, hc, not_true_eq_false, if_false]
      cases (r.note (.dropped c)).partner c with
      | none => exact hnote.le.trans (Nat.le_add_right _ _)
      | some p =>
        have hqueue := queued_queue { r.note (.dropped c) with
          partner := Function.update (r.note (.dropped c)).partner p none } p peerLeft
        rw [peerLeft_length] at hqueue
        exact Nat.le_of_eq (hqueue.trans (congrArg (· + 16) hnote))
    simp only [spent, buffered, hnext, hrx, hclients, List.length_erase_of_mem hc]
    omega
  · rw [leave_absent hc]

/-- Between two frames only a new connection costs anything. -/
theorem spent_move (hmove : r.Move r') : r'.spent + 32 * r.next ≤ r.spent + 32 * r'.next := by
  cases hmove with
  | join =>
    have hbuffered : r.join.buffered = r.buffered := by
      simp only [buffered, join, Finset.sum_range_succ, Function.update_self, List.length_nil,
        Nat.add_zero]
      refine Finset.sum_congr rfl fun d hd => ?_
      rw [Function.update_of_ne (Nat.ne_of_lt (Finset.mem_range.mp hd))]
    have hqueued : r.join.queued = r.queued := r.queued_note (.accepted r.next)
    simp only [spent, hbuffered, hqueued]
    simp only [join, List.length_append, List.length_singleton]
    omega
  | leave c _ =>
    have hleave := r.spent_leave c
    rw [(r.leave_fixed c).2.2.1]
    omega
  | take c n _ => exact Nat.le_refl _

/-- A match is two START frames. -/
theorem spent_pairs (hfit : r.Fit) (hp : r.Pairs c r') : r'.spent ≤ r.spent + 60 := by
  cases hp with
  | alone _ => omega
  | met host seed h g _ _ _ hh hg =>
    have hhost := (startOf_length (hfit.name c g hg) 0 seed r.delay r.variation)
    have hguest := (startOf_length (hfit.name host h hh) 1 seed r.delay r.variation)
    have hqueued : (r.meet host c seed h g).queued = r.queued + 30 := by
      simp only [queued, meet, queue, note, List.map_append, List.sum_append, List.map_singleton,
        List.sum_singleton, Act.weight, hhost, hguest]
    have hrest : r.spent = 2 * r.queued + 75 * r.buffered + 32 * r.clients.length := rfl
    have hmet : (r.meet host c seed h g).spent =
        2 * (r.meet host c seed h g).queued + 75 * r.buffered + 32 * r.clients.length := rfl
    omega

/-- A LOBBY frame has eight entries at most, of nine bytes each. -/
theorem lobby_length (hfit : r.Fit) : r.lobby.length ≤ 75 := by
  simp only [lobby, frame_length, List.length_cons]
  generalize hes : (r.clients.filterMap fun c =>
    (r.name c).map fun name => Server.entry name (r.partner c).isSome).take 8 = es
  have hcount : es.length ≤ 8 := hes ▸ List.length_take_le 8 _
  have heach : ∀ e ∈ es, e.length = 9 := by
    intro e he
    rw [← hes] at he
    obtain ⟨d, -, hd⟩ := List.mem_filterMap.mp (List.mem_of_mem_take he)
    obtain ⟨name, hname, rfl⟩ := Option.map_eq_some_iff.mp hd
    rw [Server.entry, List.length_append, Server.ljust_encode_length (hfit.name d name hname)]
    rfl
  have hsum : (es.map List.length).sum = es.length * 9 := by
    rw [List.map_congr_left heach, List.map_const', List.sum_replicate_nat]
  rw [List.length_flatten, hsum]
  omega

/-- A frame costs no more than the bytes it is made of pay for. -/
theorem spent_handles (hfit : r.Fit) {ftype : Byte} {payload : List Byte}
    (hh : r.Handles c ftype payload r') : r'.spent ≤ r.spent + 75 * (payload.length + 2) := by
  have hqueue (p : ℕ) (data : List Byte) : (r.queue p data).spent = r.spent + 2 * data.length := by
    have hqueued := r.queued_queue p data
    have hrest : (r.queue p data).spent =
        2 * (r.queue p data).queued + 75 * r.buffered + 32 * r.clients.length := rfl
    rw [hrest, hqueued, spent]
    omega
  cases hh with
  | unheard _ _ => exact Nat.le_add_right _ _
  | unknown _ _ _ _ _ _ => exact Nat.le_add_right _ _
  | relayed p _ _ =>
    have hpad : gamePayload = 14 := rfl
    rw [hqueue, frame_length, ljust_length]
    omega
  | refused _ _ => exact (r.spent_leave c).trans (Nat.le_add_right _ _)
  | gone _ => exact (r.spent_leave c).trans (Nat.le_add_right _ _)
  | welcomed name _ _ _ hlen hp =>
    have hcall : (r.call c name).spent = r.spent := by
      have hqueued : (r.call c name).queued = r.queued := r.queued_note (.named c name)
      simp only [spent, hqueued]
      rfl
    have hmatch := spent_pairs (hfit.call hlen) hp
    omega
  | listed _ =>
    have hlobby := lobby_length hfit
    rw [hqueue]
    omega
  | joined _ _ hp =>
    have hmatch := spent_pairs hfit hp
    omega
  | pinged _ =>
    rw [hqueue, frame_length]
    simp only [List.length_nil]
    omega

/-- A client that has been known, and an account that is not overdrawn. -/
structure Covered (c n : ℕ) (r : Room) : Prop extends r.Fit where
  known : c < r.next
  covered : r.spent ≤ n

end Room

namespace Server

open Room

variable {s t : Server} {c n : ℕ}

/-- The loop spends what is in the buffer. -/
theorem serviceLoop_spent {k turns : ℕ} (h : s.serviceLoop k turns c = .ok t)
    (hs : s.room.Covered c n) : t.room.spent ≤ n ∧ t.room.next = s.room.next := by
  refine serviceLoop_keeps (I := fun r => r.Covered c n ∧ r.next = s.room.next)
    (J := fun r => r.spent ≤ n ∧ r.next = s.room.next) (P := fun _ _ _ _ => True) ?_
    (fun r hr => ⟨hr.1.covered, hr.2⟩) ?_ (eachFrame_of_forall (fun _ _ _ _ => trivial) _ _)
    ⟨hs, rfl⟩ h
  · rintro u r' m ftype payload rest ⟨hu, hnext⟩ hrx - - hh
    have hlen := buffered_setRx u.room hu.known rest
    have hrx' : (u.room.rx c).length = payload.length + rest.length + 2 := by
      rw [room_rx, hrx, List.length_cons, List.length_cons, List.length_append]
    have hfit : ((u.room.setRx c rest).note (.handled c ftype payload)).Fit :=
      ⟨hu.variation, hu.name⟩
    have hnote : ((u.room.setRx c rest).note (.handled c ftype payload)).queued = u.room.queued :=
      queued_note _ _
    have hcost := spent_handles hfit hh
    have hcovered := hu.covered
    have hopen : ((u.room.setRx c rest).note (.handled c ftype payload)).spent =
        2 * ((u.room.setRx c rest).note (.handled c ftype payload)).queued +
          75 * (u.room.setRx c rest).buffered + 32 * u.room.clients.length := rfl
    rw [spent] at hcovered
    exact ⟨⟨hfit.handles hh, hh.fixed.1 ▸ hu.known, by omega⟩, hh.fixed.1.trans hnext⟩
  · rintro r ⟨hr, hnext⟩
    exact ⟨(r.spent_leave c).trans hr.covered, (r.leave_fixed c).2.2.1.trans hnext⟩

/-- Every event is paid for: by the bytes it brings in, and by the connection it makes. -/
theorem step_spent (hfit : s.room.Fit) (hg : s.room.Going) {e : Event} (h : s.step e = some t) :
    t.room.spent + 32 * s.next ≤ s.room.spent + 32 * t.next + 75 * e.heard := by
  rcases step_cases h with ⟨hmoves, -⟩ | ⟨c, data, k, rfl, -, hc, hservice⟩
  · have hpaid : t.room.spent + 32 * s.next ≤ s.room.spent + 32 * t.next :=
      hmoves.keeps (I := fun r => r.spent + 32 * s.next ≤ s.room.spent + 32 * r.next)
        (fun r r' hr hmove => by have hcost := spent_move hmove; omega) (Nat.le_refl _)
    omega
  · have hknown : c < s.room.next := hg.known c hc
    have hheard := buffered_setRx s.room hknown ((s.obj c).rx ++ data)
    have hopen : (s.room.setRx c ((s.obj c).rx ++ data)).spent =
        2 * s.room.queued + 75 * (s.room.setRx c ((s.obj c).rx ++ data)).buffered +
          32 * s.room.clients.length := rfl
    rw [room_rx, List.length_append] at hheard
    have hcovered : (s.hearing c data).room.Covered c (s.room.spent + 75 * data.length) := by
      rw [hearing, room_taking]
      refine ⟨⟨hfit.variation, hfit.name⟩, hknown, ?_⟩
      rw [hopen, spent]
      omega
    obtain ⟨hspent, hnext⟩ := serviceLoop_spent hservice hcovered
    have hsame : t.next = s.next := hnext
    rw [hsame, Event.heard]
    omega

theorem balanced : relay.Balanced (fun s => s.room.Fit ∧ s.room.Going) (fun _ _ => True)
    (fun s => s.room.spent) (fun s => 32 * s.next) fun e => 75 * e.heard where
  keeps _ _ _ h _ hstep := ⟨step_fit h.1 hstep, step_going h.2 hstep⟩
  pays _ _ _ h _ hstep := step_spent h.1 h.2 hstep

end Server

/-- Whatever is sent to it, and by however many, the relay has queued no more than thirty-seven and a
    half bytes for each it was sent, and a PEER_LEFT for each connection it took on. -/
theorem relay_amplifies {s₀ s : Server} {es : List Event} (h₀ : relay.init s₀)
    (hrun : relay.run s₀ es = some s) :
    2 * s.room.queued ≤ 75 * (es.map Event.heard).sum + 32 * s.next := by
  have hpaid := Server.balanced.run ⟨Server.fit_of_init h₀, Server.going_of_init h₀⟩
    (relay.eachStep_of_forall (fun _ _ => trivial) es s₀) hrun
  have hprice : (es.map fun e => 75 * e.heard).sum = 75 * (es.map Event.heard).sum :=
    List.sum_map_mul_left es Event.heard 75
  have hopen : s₀.room.spent = 0 := by
    obtain ⟨delay, variation, lobby, random, -, -, rfl⟩ := h₀
    rfl
  have hspent : 2 * s.room.queued ≤ s.room.spent := by
    rw [Room.spent]
    omega
  omega

/-- Eight consoles, and one that does nothing but ask for the list. -/
def eightAndOne : List Event :=
  (List.range 9).map (fun c => .accept (c, 0) 0) ++
  (List.range 8).map (fun c => .recv c (hello [Char.ofNat (65 + c), 'X']) 9) ++
  [.recv 8 (List.replicate 20 (frame tList [])).flatten 9]

theorem relay_amplifies_eightAndOne : ∃ s, relay.run listening eightAndOne = some s ∧
    s.room.queued = 8 * 15 + 20 * 75 ∧
    2 * s.room.queued ≤ 75 * (eightAndOne.map Event.heard).sum + 32 * s.next := by
  obtain ⟨s, hrun, hqueued⟩ : ∃ s, relay.run listening eightAndOne = some s ∧
      s.room.queued = 8 * 15 + 20 * 75 := relay.exists_run (by decide +kernel)
  exact ⟨s, hrun, hqueued, relay_amplifies init_listening hrun⟩

end VO.Relay
