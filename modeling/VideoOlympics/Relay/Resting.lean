import VideoOlympics.Relay.Inert

/-! Between two events the relay has read every whole frame that has come: what waits in the buffer
    of a connected client is shorter than a frame. -/

namespace VO.Relay
namespace Room

variable {r r' : Room} {c : ℕ}

theorem leave_clients_subset (r : Room) (c : ℕ) : (r.leave c).clients ⊆ r.clients := by
  by_cases hc : c ∈ r.clients
  · rw [(leave_present hc).1]
    exact List.erase_subset
  · rw [leave_absent hc]
    exact List.Subset.refl _

theorem Pairs.clients (h : r.Pairs c r') : r'.clients = r.clients := by
  cases h with
  | alone _ => rfl
  | met _ _ _ _ _ _ _ _ _ => rfl

/-- A frame lets nobody in. -/
theorem Handles.clients_subset {ftype : Byte} {payload : List Byte}
    (hh : r.Handles c ftype payload r') : r'.clients ⊆ r.clients := by
  cases hh with
  | refused _ _ => exact r.leave_clients_subset c
  | gone _ => exact r.leave_clients_subset c
  | welcomed name _ _ _ _ hp =>
    rw [hp.clients]
    exact List.Subset.refl _
  | joined _ _ hp =>
    rw [hp.clients]
    exact List.Subset.refl _
  | _ => exact List.Subset.refl _

/-- Of every client's buffer, what is whole has been read. -/
def Resting (r : Room) : Prop := ∀ c ∈ r.clients, Server.headOf (r.rx c) = .wait

theorem Resting.leave (h : r.Resting) (c : ℕ) : (r.leave c).Resting := by
  obtain ⟨-, -, -, -, hrx⟩ := r.leave_fixed c
  exact fun d hd => hrx ▸ h d (r.leave_clients_subset c hd)

theorem Resting.move (h : r.Resting) (hmove : r.Move r') : r'.Resting := by
  cases hmove with
  | join =>
    intro d hd
    simp only [join, Function.update_apply]
    split
    · rfl
    · next hne =>
      exact h d ((List.mem_append.mp hd).resolve_right fun hd => hne (List.mem_singleton.mp hd))
  | leave c _ => exact h.leave c
  | take c n _ => exact h

end Room

namespace Server

variable {s s' : Server} {k c : ℕ}

/-- What waits in a buffer for the rest of its frame is shorter than a frame. -/
theorem headOf_wait {bs : List Byte} (h : headOf bs = .wait) : bs.length ≤ 200 := by
  cases bs with
  | nil => exact Nat.zero_le _
  | cons n rest =>
    rw [headOf] at h
    split at h
    · cases h
    · next hn =>
      split at h
      · rw [List.length_cons]
        omega
      · next hlen =>
        split at h
        · next htake =>
          have hsize := congrArg List.length htake
          rw [List.length_take, List.length_nil] at hsize
          omega
        · cases h

/-- The framing loop reads on until nothing in the buffer is whole, or its client is gone. -/
theorem serviceLoop_resting {turns : ℕ} (hs : s.room.Seated)
    (hrest : ∀ d ∈ s.clients, d ≠ c → headOf (s.obj d).rx = .wait)
    (h : s.serviceLoop k turns c = .ok s') : s'.room.Resting := by
  induction turns generalizing s with
  | zero => cases h
  | succ turns ih =>
    rw [serviceLoop] at h
    split at h
    · next hhead =>
      rw [← Except.ok.inj h]
      intro d hd
      by_cases hdc : d = c
      · exact hdc ▸ hhead
      · exact hrest d hd hdc
    · next n _ =>
      rw [← Except.ok.inj h, room_badLength]
      obtain ⟨-, -, -, -, hrx⟩ := s.room.leave_fixed c
      intro d hd
      rw [hrx]
      refine hrest d (s.room.leave_clients_subset c hd) ?_
      rintro rfl
      exact Room.mem_clients_leave hs.nodup d hd
    · next ftype payload rest _ =>
      obtain ⟨s₁, h₁, h⟩ := bind_ok h
      have hroom := handle_ok h₁
      rw [← taking, room_taking] at hroom
      have hseated : ((s.room.setRx c rest).note (.handled c ftype payload)).Seated :=
        ⟨hs.nodup, hs.known⟩
      refine ih (hseated.handles hroom) (fun d hd hdc => ?_) h
      have hrx : (s₁.obj d).rx = (s.obj d).rx :=
        (congrFun hroom.fixed.2 d).trans (Function.update_of_ne hdc ..)
      rw [hrx]
      exact hrest d (hroom.clients_subset hd) hdc

theorem step_resting {t : Server} {e : Event} (hs : s.room.Seated) (hrest : s.room.Resting)
    (h : s.step e = some t) : t.room.Resting := by
  rcases step_cases h with ⟨hmoves, -⟩ | ⟨c, data, k, rfl, -, hc, hservice⟩
  · exact hmoves.keeps (fun _ _ hr hmove => hr.move hmove) hrest
  · refine serviceLoop_resting (s := s.hearing c data) ?_ ?_ hservice
    · rw [hearing, room_taking]
      exact ⟨hs.nodup, hs.known⟩
    · intro d hd hdc
      have hrx : ((s.hearing c data).obj d).rx = (s.obj d).rx := by
        rw [hearing, taking, obj_upd, if_neg hdc]
      rw [hrx]
      exact hrest d hd

theorem resting_of_init (h : relay.init s) : s.room.Resting := by
  obtain ⟨delay, variation, lobby, random, -, -, rfl⟩ := h
  exact fun c hc => by cases hc

end Server

theorem resting_of_run {s₀ s : Server} {es : List Event} (h₀ : relay.init s₀)
    (hrun : relay.run s₀ es = some s) : s.room.Resting := by
  have hboth := relay.reachable_invariant (I := fun s => s.room.Seated ∧ s.room.Resting)
    (fun _ h => ⟨Server.seated_of_init h, Server.resting_of_init h⟩)
    (fun _ _ _ hI h => ⟨Server.step_seated hI.1 h, Server.step_resting hI.1 hI.2 h⟩)
    ⟨s₀, es, h₀, hrun⟩
  exact hboth.2

end VO.Relay
