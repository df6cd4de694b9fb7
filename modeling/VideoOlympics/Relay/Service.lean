import VideoOlympics.Base.Machine
import VideoOlympics.Relay.Room
import Mathlib.Logic.Relation

/-! The service loop and the events around it. A loop that is given its buffer's length in turns
    never runs out of them: each frame it takes makes the buffer shorter, and no frame lengthens it.
    What every frame keeps, the loop keeps; what every move of the room keeps, every event keeps. -/

namespace VO.Relay

theorem headOf_whole {bs payload rest : List Byte} {ftype : Byte}
    (h : Server.headOf bs = .whole ftype payload rest) :
    ∃ n, bs = n :: ftype :: (payload ++ rest) ∧ payload.length + 1 = n.toNat ∧ n.toNat ≤ 200 := by
  cases bs with
  | nil => cases h
  | cons n bs =>
    rw [Server.headOf] at h
    split at h
    · cases h
    · next hn =>
      split at h
      · cases h
      · next hlen =>
        split at h
        · cases h
        · next ftype' payload' htake =>
          cases h
          have hsplit := List.take_append_drop n.toNat bs
          have hsize := congrArg List.length htake
          rw [htake] at hsplit
          simp only [List.length_take, List.length_cons] at hsize
          exact ⟨n, congrArg (n :: ·) hsplit.symm, by omega, by omega⟩

namespace Room

/-- What a drop does not touch. -/
theorem leave_fixed (r : Room) (c : ℕ) :
    (r.leave c).delay = r.delay ∧ (r.leave c).variation = r.variation ∧
      (r.leave c).next = r.next ∧ (r.leave c).name = r.name ∧ (r.leave c).rx = r.rx := by
  simp only [leave, unlink]
  split
  · exact ⟨rfl, rfl, rfl, rfl, rfl⟩
  · dsimp only
    split
    · exact ⟨rfl, rfl, rfl, rfl, rfl⟩
    · exact ⟨rfl, rfl, rfl, rfl, rfl⟩

theorem Pairs.fixed {r r' : Room} {c : ℕ} (h : r.Pairs c r') : r'.next = r.next ∧ r'.rx = r.rx := by
  cases h with
  | alone _ => exact ⟨rfl, rfl⟩
  | met _ _ _ _ _ _ _ _ _ => exact ⟨rfl, rfl⟩

/-- A frame adds to no buffer, and gives out no identity. -/
theorem Handles.fixed {r r' : Room} {c : ℕ} {ftype : Byte} {payload : List Byte}
    (h : r.Handles c ftype payload r') : r'.next = r.next ∧ r'.rx = r.rx := by
  obtain ⟨-, -, hnext, -, hrx⟩ := r.leave_fixed c
  cases h with
  | refused _ _ => exact ⟨hnext, hrx⟩
  | gone _ => exact ⟨hnext, hrx⟩
  | welcomed _ _ _ _ _ hp => exact hp.fixed
  | joined _ _ hp => exact hp.fixed
  | _ => exact ⟨rfl, rfl⟩

theorem leave_trace (r : Room) (c : ℕ) : r.trace <+: (r.leave c).trace := by
  simp only [leave, unlink]
  split
  · exact List.prefix_refl _
  · dsimp only
    split
    · exact (List.prefix_append _ _).trans (List.prefix_append _ _)
    · exact List.prefix_append _ _

theorem Pairs.trace {r r' : Room} {c : ℕ} (h : r.Pairs c r') : r.trace <+: r'.trace := by
  cases h with
  | alone _ => exact List.prefix_refl _
  | met _ _ _ _ _ _ _ _ _ =>
    exact ((List.prefix_append _ _).trans (List.prefix_append _ _)).trans (List.prefix_append _ _)

theorem Handles.trace {r r' : Room} {c : ℕ} {ftype : Byte} {payload : List Byte}
    (h : r.Handles c ftype payload r') : r.trace <+: r'.trace := by
  cases h with
  | refused _ _ => exact r.leave_trace c
  | gone _ => exact r.leave_trace c
  | welcomed name _ _ _ _ hp => exact (List.prefix_append _ _).trans hp.trace
  | joined _ _ hp => exact hp.trace
  | unheard _ _ => exact List.prefix_refl _
  | unknown _ _ _ _ _ _ => exact List.prefix_refl _
  | _ => exact List.prefix_append _ _

/-- What the room does between two frames. -/
inductive Move (r : Room) : Room → Prop
  | join : Move r r.join
  | leave (c : ℕ) : c ∈ r.clients → Move r (r.leave c)
  | take (c n : ℕ) : c ∈ r.clients → Move r (r.take c n)

abbrev Moves : Room → Room → Prop := Relation.ReflTransGen Move

theorem leave_absent {r : Room} {c : ℕ} (hc : c ∉ r.clients) : r.leave c = r := by
  simp only [leave, hc, not_false_eq_true, if_true]

theorem leave_moves (r : Room) (c : ℕ) : r.Moves (r.leave c) := by
  by_cases hc : c ∈ r.clients
  · exact .single (.leave c hc)
  · rw [leave_absent hc]

/-- What each move keeps, any number of them keep. -/
theorem Moves.keeps {I : Room → Prop} (hI : ∀ r r', I r → r.Move r' → I r') {r r' : Room}
    (h : r.Moves r') (hr : I r) : I r' := by
  induction h with
  | refl => exact hr
  | tail _ hmove ih => exact hI _ _ ih hmove

end Room

namespace Server

theorem handle_rx {s s' : Server} {k c : ℕ} {ftype : Byte} {payload : List Byte}
    (h : s.handle k c ftype payload = .ok s') : (s'.obj c).rx = (s.obj c).rx :=
  congrFun (handle_ok h).fixed.2 c

/-- A frame taken off the buffer. -/
def taking (s : Server) (c : ℕ) (rest : List Byte) : Server := s.upd c fun o => { o with rx := rest }

@[simp] theorem room_taking (s : Server) (c : ℕ) (rest : List Byte) :
    (s.taking c rest).room = s.room.setRx c rest := room_upd_rx s c rest

theorem taking_rx (s : Server) (c : ℕ) (rest : List Byte) :
    ((s.taking c rest).obj c).rx = rest := by rw [taking, obj_upd, if_pos rfl]

/-- `P` holds of every frame the loop takes, in the state it is handled in. -/
def EachFrame (P : Server → ℕ → Byte → List Byte → Prop) (k : ℕ) : ℕ → Server → ℕ → Prop
  | 0, _, _ => True
  | turns + 1, s, c =>
    match headOf (s.obj c).rx with
    | .whole ftype payload rest =>
      P (s.taking c rest) c ftype payload ∧
        match (s.taking c rest).handle k c ftype payload with
        | .ok s' => EachFrame P k turns s' c
        | .error _ => True
    | _ => True

theorem eachFrame_whole {P : Server → ℕ → Byte → List Byte → Prop} {k turns c : ℕ} {s : Server}
    {ftype : Byte} {payload rest : List Byte}
    (hhead : headOf (s.obj c).rx = .whole ftype payload rest) :
    s.EachFrame P k (turns + 1) c ↔ P (s.taking c rest) c ftype payload ∧
      ∀ s', (s.taking c rest).handle k c ftype payload = .ok s' → s'.EachFrame P k turns c := by
  rw [EachFrame, hhead]
  dsimp only
  refine and_congr_right ?_
  intro _
  cases (s.taking c rest).handle k c ftype payload with
  | error e => exact iff_of_true trivial fun s' h => by cases h
  | ok s₁ => exact ⟨fun h s' heq => Except.ok.inj heq ▸ h, fun h => h s₁ rfl⟩

theorem serviceLoop_whole {k turns c : ℕ} {s : Server} {ftype : Byte} {payload rest : List Byte}
    (hhead : headOf (s.obj c).rx = .whole ftype payload rest) :
    s.serviceLoop k (turns + 1) c =
      (s.taking c rest).handle k c ftype payload >>= fun s' => s'.serviceLoop k turns c := by
  rw [serviceLoop, hhead]
  rfl

/-- Every frame in a client's buffer. -/
def EachBuffered (P : Server → ℕ → Byte → List Byte → Prop) (k : ℕ) (s : Server) (c : ℕ) : Prop :=
  s.EachFrame P k ((s.obj c).rx.length + 1) c

/-- What a frame that meets `P` keeps, a loop all of whose frames meet it keeps, to end in what is
    left of it when the buffer runs out, or when its client is dropped. -/
theorem serviceLoop_keeps {I J : Room → Prop} {P : Server → ℕ → Byte → List Byte → Prop} {k c : ℕ}
    (hframe : ∀ (s : Server) (r' : Room) (n ftype : Byte) (payload rest : List Byte), I s.room →
      (s.obj c).rx = n :: ftype :: (payload ++ rest) → payload.length + 1 = n.toNat →
      P (s.taking c rest) c ftype payload →
      ((s.room.setRx c rest).note (.handled c ftype payload)).Handles c ftype payload r' → I r')
    (hdone : ∀ r, I r → J r) (hbad : ∀ r, I r → J (r.leave c)) :
    ∀ {turns : ℕ} {s s' : Server}, s.EachFrame P k turns c → I s.room →
      s.serviceLoop k turns c = .ok s' → J s'.room
  | 0, _, _, _, _, h => by cases h
  | turns + 1, s, s', hP, hI, h => by
      rw [serviceLoop] at h
      split at h
      · exact Except.ok.inj h ▸ hdone _ hI
      · next n _ =>
        rw [← Except.ok.inj h, room_badLength]
        exact hbad _ hI
      · next ftype payload rest hhead =>
        obtain ⟨n, hrx, hlen, -⟩ := headOf_whole hhead
        obtain ⟨s₁, h₁, h⟩ := bind_ok h
        obtain ⟨hnow, hlater⟩ := (eachFrame_whole hhead).mp hP
        have hroom := handle_ok h₁
        rw [← taking, room_taking] at hroom
        exact serviceLoop_keeps hframe hdone hbad (hlater s₁ h₁)
          (hframe s _ n ftype payload rest hI hrx hlen hnow hroom) h

/-! ### Events -/

/-- What a client has sent, behind what was left in its buffer. -/
def hearing (s : Server) (c : ℕ) (data : List Byte) : Server := s.taking c ((s.obj c).rx ++ data)

/-- Every frame an event makes the server handle. -/
def EachHeard (P : Server → ℕ → Byte → List Byte → Prop) (s : Server) : Event → Prop
  | .recv c data k => data ≠ [] → (s.hearing c data).EachBuffered P k c
  | _ => True

theorem room_accept (s : Server) (addr : ℕ × ℕ) (now : ℕ) :
    (s.accept addr now).room = s.room ∨ (s.accept addr now).room = s.room.join := by
  rw [accept]
  split
  · exact .inl rfl
  · split
    · exact .inl rfl
    · have hroom : ((s.upd s.next fun _ => Client.new addr now).note (.accepted s.next)).room =
          { s.room with
            name := Function.update s.room.name s.next none
            partner := Function.update s.room.partner s.next none
            rx := Function.update s.room.rx s.next [], tx := Function.update s.room.tx s.next []
            trace := s.room.trace ++ [.accepted s.next] } := by
        rw [room_note, room_upd]
        rfl
      have hjoin : ∀ (t : Server) (l : Line), ({ t with
          clients := t.clients ++ [t.next], next := t.next + 1 }.say l).room =
          { t.room with
            clients := t.room.clients ++ [t.room.next], next := t.room.next + 1 } :=
        fun _ _ => rfl
      dsimp only
      rw [hjoin, hroom]
      exact .inr rfl

theorem accept_moves (s : Server) (addr : ℕ × ℕ) (now : ℕ) :
    s.room.Moves (s.accept addr now).room := by
  rcases s.room_accept addr now with h | h
  · rw [h]
  · rw [h]
    exact .single .join

theorem drop_moves (s : Server) (c : ℕ) : s.room.Moves (s.drop c).room :=
  room_drop s c ▸ Room.leave_moves s.room c

theorem checkBacklog_moves (s : Server) (c : ℕ) : s.room.Moves (s.checkBacklog c).room := by
  simp only [checkBacklog]
  split
  · rw [room_drop, room_say, room_stats]
    exact Room.leave_moves s.room c
  · exact .refl

theorem room_took (s : Server) (c n : ℕ) :
    ({ s with taken := Function.update s.taken c (s.taken c ++ (s.obj c).tx.take n) }.upd c
      fun o => { o with tx := o.tx.drop n }).room = s.room.take c n := by
  rw [room_upd]
  simp only [room, update_attr]
  rfl

theorem flush_moves {s : Server} {c : ℕ} (hc : c ∈ s.clients) (res : Sent) :
    s.room.Moves (s.flush c res).room := by
  unfold flush
  split
  · exact .refl
  · split
    · exact s.drop_moves c
    · exact s.checkBacklog_moves c
    · next n =>
      dsimp only
      refine .head (.take c n hc) ?_
      rw [← room_took]
      exact checkBacklog_moves _ c

theorem sweepOne_moves (now : ℕ) (s : Server) (c : ℕ) : s.room.Moves (s.sweepOne now c).room := by
  simp only [sweepOne]
  split
  · rw [room_drop, room_stats]
    exact Room.leave_moves s.room c
  · exact .refl

theorem sweep_moves (s : Server) (now : ℕ) : s.room.Moves (s.sweep now).room := by
  simp only [sweep]
  generalize s.clients = cs
  induction cs generalizing s with
  | nil => exact .refl
  | cons c cs ih => exact (sweepOne_moves now s c).trans (ih _)

/-- What a client sends. -/
def sentBy (c : ℕ) : Event → List Byte
  | .recv d data _ => if d = c then data else []
  | _ => []

/-- An event is a number of moves, or bytes that a connected client is heard to send. -/
theorem step_cases {s t : Server} {e : Event} (h : s.step e = some t) :
    (s.room.Moves t.room ∧ ∀ d, sentBy d e = []) ∨
      ∃ c data k, e = .recv c data k ∧ data ≠ [] ∧ c ∈ s.clients ∧
        (s.hearing c data).service k c = .ok t := by
  cases e with
  | accept addr now => exact Option.some.inj h ▸ .inl ⟨s.accept_moves addr now, fun _ => rfl⟩
  | sweep now => exact Option.some.inj h ▸ .inl ⟨s.sweep_moves now, fun _ => rfl⟩
  | flush c res =>
    rw [step] at h
    split at h
    · next hc => exact Option.some.inj h ▸ .inl ⟨flush_moves hc res, fun _ => rfl⟩
    · cases h
  | recv c data k =>
    rw [step] at h
    split at h
    · next hc =>
      have hok : s.recv k c data = .ok t := by
        cases hr : s.recv k c data with
        | error _ => simp [hr, Except.toOption] at h
        | ok u => simpa [hr, Except.toOption] using h
      simp only [recv] at hok
      split at hok
      · next hdata =>
        exact Except.ok.inj hok ▸ .inl ⟨s.drop_moves c, fun d => by rw [sentBy, hdata, ite_self]⟩
      · next hdata => exact .inr ⟨c, data, k, rfl, hdata, hc, hok⟩
    · cases h

theorem eachFrame_of_forall {P : Server → ℕ → Byte → List Byte → Prop}
    (h : ∀ s c ftype payload, P s c ftype payload) {k c : ℕ} (turns : ℕ) (s : Server) :
    s.EachFrame P k turns c := by
  induction turns generalizing s with
  | zero => trivial
  | succ turns ih =>
    rw [EachFrame]
    split
    · refine ⟨h _ _ _ _, ?_⟩
      split
      · exact ih _
      · trivial
    · trivial

theorem eachHeard_of_forall {P : Server → ℕ → Byte → List Byte → Prop}
    (h : ∀ s c ftype payload, P s c ftype payload) (s : Server) : ∀ e, s.EachHeard P e
  | .recv _ _ _ => fun _ => eachFrame_of_forall h _ _
  | .accept _ _ => trivial
  | .flush _ _ => trivial
  | .sweep _ => trivial

/-- What moves keep, and frames that meet `P`, an event all of whose frames meet it keeps. -/
theorem step_keeps {I : Room → Prop} {P : Server → ℕ → Byte → List Byte → Prop}
    (hmove : ∀ r r', I r → r.Move r' → I r') (hrx : ∀ r c bs, I r → I (r.setRx c bs))
    (hframe : ∀ (s : Server) (r' : Room) (c : ℕ) (ftype : Byte) (payload : List Byte), I s.room →
      P s c ftype payload → (s.room.note (.handled c ftype payload)).Handles c ftype payload r' →
      I r')
    {s t : Server} {e : Event} (hP : s.EachHeard P e) (hI : I s.room) (h : s.step e = some t) :
    I t.room := by
  have hleave : ∀ r c, I r → I (r.leave c) := fun r c hr => (r.leave_moves c).keeps hmove hr
  rcases step_cases h with ⟨hmoves, -⟩ | ⟨c, data, k, rfl, hdata, -, hservice⟩
  · exact hmoves.keeps hmove hI
  · refine serviceLoop_keeps (P := P) (I := I) ?_ (fun _ hr => hr) (fun r hr => hleave r c hr) (hP hdata)
      (room_taking .. ▸ hrx _ _ _ hI) hservice
    intro s r' n ftype payload rest hs _ _ hnow hroom
    refine hframe (s.taking c rest) r' c ftype payload ?_ hnow ?_
    · exact room_taking .. ▸ hrx _ _ _ hs
    · exact room_taking .. ▸ hroom

/-- Whether a buffer's frames all meet a condition can be computed by handling them. -/
def decidableEachFrame (P : Server → ℕ → Byte → List Byte → Prop)
    [∀ s c ftype payload, Decidable (P s c ftype payload)] (k c : ℕ) :
    ∀ (turns : ℕ) (s : Server), Decidable (s.EachFrame P k turns c)
  | 0, _ => .isTrue trivial
  | turns + 1, s =>
    match hhead : headOf (s.obj c).rx with
    | .wait => .isTrue (by rw [EachFrame, hhead]; trivial)
    | .bad _ => .isTrue (by rw [EachFrame, hhead]; trivial)
    | .whole ftype payload rest =>
      match hok : (s.taking c rest).handle k c ftype payload with
      | .error _ => decidable_of_iff (P (s.taking c rest) c ftype payload)
          (by rw [eachFrame_whole hhead]; simp [hok])
      | .ok s' =>
        have := decidableEachFrame P k c turns s'
        decidable_of_iff (P (s.taking c rest) c ftype payload ∧ s'.EachFrame P k turns c)
          (by rw [eachFrame_whole hhead]; simp [hok])

instance (P : Server → ℕ → Byte → List Byte → Prop)
    [∀ s c ftype payload, Decidable (P s c ftype payload)] (s : Server) :
    ∀ e, Decidable (s.EachHeard P e)
  | .recv c data k =>
    have := decidableEachFrame P k c (((s.hearing c data).obj c).rx.length + 1) (s.hearing c data)
    inferInstanceAs (Decidable (data ≠ [] → (s.hearing c data).EachFrame P k _ c))
  | .accept _ _ => .isTrue trivial
  | .flush _ _ => .isTrue trivial
  | .sweep _ => .isTrue trivial

end Server
end VO.Relay
