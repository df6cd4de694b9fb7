import VideoOlympics.Port.Rack

/-! The event loop, in C. What every frame keeps of the rack, the framing loop keeps; what a client's
    going, a connection's coming and the reaping of slots keep too, every event keeps. -/

namespace VO.Port
open Relay

namespace State

/-- A frame taken off the buffer. -/
def taking (s : State) (i : Index) (rest : List Byte) : State := s.upd i fun c => { c with rx := rest }

@[simp] theorem rack_taking (s : State) (i : Index) (rest : List Byte) :
    (s.taking i rest).rack = s.rack := rack_upd_quiet s i _ rfl

/-- `P` holds of every frame the framing loop takes, in the state it is handled in. -/
def EachFrame (P : State → Index → Byte → List Byte → Prop) : ℕ → State → Index → Prop
  | 0, _, _ => True
  | turns + 1, s, i =>
    match headOf (s.clients i).rx with
    | .whole ftype payload rest =>
      P (s.taking i rest) i ftype payload ∧
        EachFrame P turns ((s.taking i rest).handle i ftype payload) i
    | _ => True

theorem eachFrame_whole {P : State → Index → Byte → List Byte → Prop} {turns : ℕ} {s : State}
    {i : Index} {ftype : Byte} {payload rest : List Byte}
    (hhead : headOf (s.clients i).rx = .whole ftype payload rest) :
    s.EachFrame P (turns + 1) i ↔ P (s.taking i rest) i ftype payload ∧
      ((s.taking i rest).handle i ftype payload).EachFrame P turns i := by
  rw [EachFrame, hhead]

theorem serviceLoop_whole {turns : ℕ} {s : State} {i : Index} {ftype : Byte}
    {payload rest : List Byte} (hhead : headOf (s.clients i).rx = .whole ftype payload rest) :
    s.serviceLoop (turns + 1) i =
      ((s.taking i rest).handle i ftype payload).serviceLoop turns i := by
  rw [serviceLoop, hhead]
  rfl

theorem headOf_rest {rx payload rest : List Byte} {ftype : Byte}
    (h : headOf rx = .whole ftype payload rest) : rest.length < rx.length := by
  rw [headOf] at h
  split at h
  · cases h
  · dsimp only at h
    split at h
    · cases h
    · split at h
      · cases h
      · cases h
        rw [List.length_drop]
        omega

theorem rx_fixed : Slot.Fixed Slot.rx := fun _ _ _ _ _ _ _ _ _ _ => rfl

/-- Handling a frame touches no buffer; the frame itself is off the client's own. -/
theorem handle_taking_rx (s : State) (i j : Index) (rest : List Byte) (ftype : Byte)
    (payload : List Byte) : (((s.taking i rest).handle i ftype payload).clients j).rx =
      if j = i then rest else (s.clients j).rx := by
  rw [handle_fixed (s.taking i rest) i j ftype payload rx_fixed, taking, clients_upd]
  exact apply_ite Slot.rx ..

theorem handle_taking_rx_self (s : State) (i : Index) (rest : List Byte) (ftype : Byte)
    (payload : List Byte) : (((s.taking i rest).handle i ftype payload).clients i).rx = rest := by
  rw [handle_taking_rx, if_pos rfl]

/-- The framing loop ends by itself: more turns than a buffer has bytes make no difference. -/
theorem serviceLoop_turns {m n : ℕ} {s : State} {i : Index} (hm : (s.clients i).rx.length < m)
    (hn : (s.clients i).rx.length < n) : s.serviceLoop m i = s.serviceLoop n i := by
  induction m generalizing s n with
  | zero => exact absurd hm (Nat.not_lt_zero _)
  | succ m ih =>
    obtain ⟨n, rfl⟩ : ∃ k, n = k + 1 := ⟨n - 1, by omega⟩
    cases hhead : headOf (s.clients i).rx with
    | wait => rw [serviceLoop, serviceLoop, hhead]
    | bad b => rw [serviceLoop, serviceLoop, hhead]
    | whole ftype payload rest =>
      have hrest := headOf_rest hhead
      have hrx := handle_taking_rx_self s i rest ftype payload
      rw [serviceLoop_whole hhead, serviceLoop_whole hhead]
      exact ih (by rw [hrx]; omega) (by rw [hrx]; omega)

/-- What a client has sent, behind what was left in its buffer. -/
def hearing (s : State) (i : Index) (data : List Byte) : State :=
  s.taking i ((s.clients i).rx ++ data)

/-- The events of a connection reach the client in this slot. -/
def Woken (s : State) (c : ℕ) (i : Index) : Prop :=
  s.tag c = (i, (s.clients i).gen) ∧ (s.clients i).inUse = true ∧ (s.clients i).dead = false

instance (s : State) (c : ℕ) (i : Index) : Decidable (s.Woken c i) :=
  inferInstanceAs (Decidable (_ ∧ _ ∧ _))

theorem wake_cases (s : State) (c : ℕ) (f : State → Index → State) :
    s.wake c f = s ∨ ∃ i, s.Woken c i ∧ s.wake c f = f s i := by
  rw [wake]
  split
  next i gen htag =>
  split
  · exact .inl rfl
  · next huse =>
    split
    · exact .inl rfl
    · next hdead =>
      rw [not_or, Bool.not_eq_false, not_not] at huse
      exact .inr ⟨i, ⟨by rw [htag, huse.2], huse.1, by simpa using hdead⟩, rfl⟩

theorem wake_woken {s : State} {c : ℕ} {i : Index} (h : s.Woken c i) (f : State → Index → State) :
    s.wake c f = f s i := by
  obtain ⟨htag, huse, hdead⟩ := h
  rw [wake]
  rw [htag]
  dsimp only
  rw [if_neg (by simp [huse]), if_neg (by simp [hdead])]

/-- Every frame an event makes the program handle. -/
def EachHeard (P : State → Index → Byte → List Byte → Prop) (s : State) : Event → Prop
  | .loop (.recv c data _) => ∀ i, s.Woken c i → data ≠ [] →
      (s.clients i).rx.length + data.length ≤ rxCap →
      (s.hearing i data).EachFrame P (((s.hearing i data).clients i).rx.length + 1) i
  | _ => True

/-- What a frame that meets `P` keeps, and a client's going, a framing loop keeps all of whose frames
    meet it. -/
theorem serviceLoop_keeps {I : Rack → Prop} {P : State → Index → Byte → List Byte → Prop} {i : Index}
    (hleave : ∀ r, I r → I (r.leave i))
    (hframe : ∀ (s : State) (ftype : Byte) (payload : List Byte) (r : Rack), I s.rack →
      P s i ftype payload → s.Handles i ftype payload r → I r) :
    ∀ {turns : ℕ} {s : State}, s.EachFrame P turns i → I s.rack → I (s.serviceLoop turns i).rack
  | 0, _, _, hI => hI
  | turns + 1, s, hP, hI => by
      cases hhead : headOf (s.clients i).rx with
      | wait =>
        rw [serviceLoop, hhead]
        exact hI
      | bad n =>
        have hbad : s.serviceLoop (turns + 1) i = s.badLength i n := by rw [serviceLoop, hhead]
        rw [hbad, badLength, rack_drop, rack_say, rack_stats]
        exact hleave _ hI
      | whole ftype payload rest =>
        obtain ⟨hnow, hlater⟩ := (eachFrame_whole hhead).mp hP
        rw [serviceLoop_whole hhead]
        exact serviceLoop_keeps hleave hframe hlater
          (hframe _ ftype payload _ (rack_taking s i rest ▸ hI) hnow (handle_handles ..))

/-- What a framing loop keeps is there to be used in each of its frames. -/
theorem eachFrame_of_keeps {I : Rack → Prop} {P Q : State → Index → Byte → List Byte → Prop}
    {i : Index} (hQ : ∀ (s : State) (ftype : Byte) (payload : List Byte), I s.rack →
      P s i ftype payload → Q s i ftype payload)
    (hframe : ∀ (s : State) (ftype : Byte) (payload : List Byte) (r : Rack), I s.rack →
      P s i ftype payload → s.Handles i ftype payload r → I r) {turns : ℕ} {s : State}
    (hP : s.EachFrame P turns i) (hI : I s.rack) : s.EachFrame Q turns i := by
  induction turns generalizing s with
  | zero => trivial
  | succ turns ih =>
    cases hhead : headOf (s.clients i).rx with
    | wait =>
      rw [EachFrame, hhead]
      trivial
    | bad n =>
      rw [EachFrame, hhead]
      trivial
    | whole ftype payload rest =>
      obtain ⟨hnow, hlater⟩ := (eachFrame_whole hhead).mp hP
      have hI : I (s.taking i rest).rack := rack_taking s i rest ▸ hI
      exact (eachFrame_whole hhead).mpr ⟨hQ _ ftype payload hI hnow,
        ih hlater (hframe _ ftype payload _ hI hnow (handle_handles ..))⟩

/-! ### Events -/

theorem alloc_rack {s : State} (horder : s.order.length < maxClients) (i : Index) (addr : ℕ × ℕ)
    (now : ℕ) : (s.alloc i addr now).rack = { s.rack with
      order := s.rack.order ++ [i], inUse := Function.update s.rack.inUse i true
      dead := Function.update s.rack.dead i false
      conn := Function.update s.rack.conn i s.accepted
      partner := Function.update s.rack.partner i none } := by
  have hadd : ∀ f : Slot → Slot, ((s.upd i f).orderAdd i).rack =
      { (s.upd i f).rack with order := s.rack.order ++ [i] } := by
    intro f
    have hlen : (s.upd i f).order.length < maxClients := horder
    rw [orderAdd, if_pos hlen]
    rfl
  have hgen : Function.update s.rack.gen i (s.clients i).gen = s.rack.gen := update_field s i Slot.gen
  rw [alloc, hadd, rack_upd]
  dsimp only
  rw [hgen]

theorem acceptClient_rack (s : State) (addr : ℕ × ℕ) (now : ℕ) :
    (s.acceptClient addr now).rack = s.rack ∨
      ∃ i, (s.clients i).inUse = false ∧ (s.acceptClient addr now).rack = s.rack.seat i := by
  rw [acceptClient]
  split
  · exact .inl rfl
  · next horder =>
    split
    · exact .inl rfl
    · split
      · exact .inl rfl
      · next i hfree =>
        refine .inr ⟨i, by simpa using List.find?_some hfree, ?_⟩
        have halloc := alloc_rack (s := s.note (.accepted s.accepted)) (Nat.lt_of_not_le horder) i
          addr now
        rw [rack_note rfl] at halloc
        have hgen : (((s.note (.accepted s.accepted)).alloc i addr now).clients i).gen =
            (s.clients i).gen := congrFun (congrArg Rack.gen halloc) i
        have htag : ((s.note (.accepted s.accepted)).alloc i addr now).tag = s.tag :=
          congrArg Rack.tag halloc
        have haccepted : ((s.note (.accepted s.accepted)).alloc i addr now).accepted = s.accepted :=
          congrArg Rack.accepted halloc
        dsimp only
        have hconn : ∀ (t : State) (tag : ℕ → Index × BitVec 32) (n : ℕ),
            { t with tag := tag, accepted := n }.rack = { t.rack with tag := tag, accepted := n } :=
          fun _ _ _ => rfl
        rw [rack_say, hconn, halloc, hgen, htag, haccepted]
        rfl

theorem checkBacklog_rack (s : State) (i : Index) :
    (s.checkBacklog i).rack = s.rack ∨ (s.checkBacklog i).rack = s.rack.leave i := by
  simp only [checkBacklog]
  split
  · rw [rack_drop, rack_say, rack_stats]
    exact .inr rfl
  · exact .inl rfl

theorem flush_rack (s : State) (i : Index) (res : Server.Sent) :
    (s.flush i res).rack = s.rack ∨ (s.flush i res).rack = s.rack.leave i := by
  simp only [flush]
  split
  · exact .inl rfl
  · split
    · exact .inr (rack_drop s i)
    · split
      · exact .inr (rack_drop s i)
      · exact checkBacklog_rack s i
      · next k =>
        have hrack : (s.upd i fun c => { c with tx := c.tx.discard k }).rack = s.rack :=
          rack_upd_quiet s i _ rfl
        exact hrack ▸ checkBacklog_rack _ i

theorem sweepOne_rack (now : ℕ) (s : State) (i : Index) :
    (s.sweepOne now i).rack = s.rack ∨ (s.sweepOne now i).rack = s.rack.leave i := by
  simp only [sweepOne]
  split
  · rw [rack_drop, rack_stats]
    exact .inr rfl
  · exact .inl rfl

theorem reap_rack (s : State) : s.reap.rack = s.rack.reap := by
  have hquiet : ∀ {β : Type} (g : Slot → β),
      (∀ c : Slot, g { c with inUse := false, gen := c.gen + 1 } = g c) →
      (fun i => g (s.reap.clients i)) = fun i => g (s.clients i) := by
    intro β g hg
    funext i
    rw [reap]
    dsimp only
    split
    · exact hg _
    · rfl
  have huse : (fun i => (s.reap.clients i).inUse) = s.rack.reap.inUse := by
    funext i
    simp only [reap, Rack.reap, rack]
    split
    · next h => simp [h.2]
    · next h =>
      rw [not_and_or] at h
      rcases h with h | h
      · simp [h]
      · simp [h]
  have hgen : (fun i => (s.reap.clients i).gen) = s.rack.reap.gen :=
    funext fun i => apply_ite Slot.gen _ _ _
  have hconn : s.reap.conn = s.conn := hquiet Slot.conn fun _ => rfl
  rw [rack, huse, hgen, hconn, hquiet Slot.dead fun _ => rfl, hquiet Slot.partner fun _ => rfl]
  rfl

/-- What moves keep, and frames that meet `P`, an event all of whose frames meet it keeps. -/
theorem step_keeps {I : Rack → Prop} {P : State → Index → Byte → List Byte → Prop}
    (hleave : ∀ r i, I r → I (r.leave i)) (hseat : ∀ r i, I r → r.inUse i = false → I (r.seat i))
    (hreap : ∀ r, I r → I r.reap)
    (hframe : ∀ (s : State) (i : Index) (ftype : Byte) (payload : List Byte) (r : Rack), I s.rack →
      P s i ftype payload → s.Handles i ftype payload r → I r)
    {s t : State} {e : Event} (hP : s.EachHeard P e) (hI : I s.rack) (h : port.step s e = some t) :
    I t.rack := by
  have hmove : ∀ {r r' : Rack} {i : Index}, I r → r' = r ∨ r' = r.leave i → I r' := by
    rintro r r' i hr (rfl | rfl)
    · exact hr
    · exact hleave r i hr
  cases e with
  | reap =>
    obtain rfl : s.reap = t := Option.some.inj h
    exact reap_rack s ▸ hreap _ hI
  | loop e =>
    cases e with
    | accept addr now =>
      obtain rfl : s.acceptClient addr now = t := Option.some.inj h
      rcases s.acceptClient_rack addr now with hr | ⟨i, hfree, hr⟩
      · exact hr ▸ hI
      · exact hr ▸ hseat _ i hI hfree
    | sweep now =>
      obtain rfl : s.sweep now = t := Option.some.inj h
      simp only [sweep]
      generalize s.order = order
      induction order generalizing s with
      | nil => exact hI
      | cons i order ih => exact ih (hmove hI (sweepOne_rack now s i)) trivial rfl
    | flush c res =>
      obtain rfl : (s.wake c fun s i => s.flush i res) = t := Option.some.inj h
      rcases s.wake_cases c fun s i => s.flush i res with hw | ⟨i, -, hw⟩
      · rw [hw]
        exact hI
      · rw [hw]
        exact hmove hI (flush_rack s i res)
    | recv c data k =>
      have hstep : (if data.length ≤ recvMax then some (s.wake c fun s i => s.service i data)
          else none) = some t := h
      split at hstep
      · obtain rfl := Option.some.inj hstep
        rcases s.wake_cases c fun s i => s.service i data with hw | ⟨i, hi, hw⟩
        · rw [hw]
          exact hI
        · rw [hw]
          simp only [service]
          split
          · rw [rack_drop]
            exact hleave _ i hI
          · next hdata =>
            split
            · rw [rack_drop, rack_say]
              exact hleave _ i hI
            · next hfits =>
              exact serviceLoop_keeps (fun r => hleave r i) (fun s => hframe s i)
                (hP i hi hdata (Nat.le_of_not_lt hfits)) (rack_taking s i _ ▸ hI)
      · cases hstep

/-- The same, of an event, whose client's slot is in use. -/
theorem eachHeard_of_keeps {I : Index → Rack → Prop}
    {P Q : State → Index → Byte → List Byte → Prop}
    (hQ : ∀ (s : State) (i : Index) (ftype : Byte) (payload : List Byte), I i s.rack →
      P s i ftype payload → Q s i ftype payload)
    (hframe : ∀ (s : State) (i : Index) (ftype : Byte) (payload : List Byte) (r : Rack),
      I i s.rack → P s i ftype payload → s.Handles i ftype payload r → I i r)
    {s : State} {e : Event} (hP : s.EachHeard P e)
    (hI : ∀ i, (s.clients i).inUse = true → I i s.rack) : s.EachHeard Q e := by
  cases e with
  | reap => trivial
  | loop e =>
    cases e with
    | recv c data k =>
      intro i hi hdata hfits
      exact eachFrame_of_keeps (I := I i) (fun s => hQ s i) (fun s => hframe s i)
        (hP i hi hdata hfits) (rack_taking s i _ ▸ hI i hi.2.1)
    | accept addr now => trivial
    | flush c res => trivial
    | sweep now => trivial

/-- Whether a buffer's frames all meet a condition can be computed by handling them. -/
def decidableEachFrame (P : State → Index → Byte → List Byte → Prop)
    [∀ s i ftype payload, Decidable (P s i ftype payload)] (i : Index) :
    ∀ (turns : ℕ) (s : State), Decidable (s.EachFrame P turns i)
  | 0, _ => .isTrue trivial
  | turns + 1, s =>
    match hhead : headOf (s.clients i).rx with
    | .wait => .isTrue (by rw [EachFrame, hhead]; trivial)
    | .bad _ => .isTrue (by rw [EachFrame, hhead]; trivial)
    | .whole ftype payload rest =>
      have := decidableEachFrame P i turns ((s.taking i rest).handle i ftype payload)
      decidable_of_iff (P (s.taking i rest) i ftype payload ∧ _) (eachFrame_whole hhead).symm

instance (P : State → Index → Byte → List Byte → Prop)
    [∀ s i ftype payload, Decidable (P s i ftype payload)] (s : State) :
    ∀ e, Decidable (s.EachHeard P e)
  | .loop (.recv c data _) =>
    have : ∀ i, Decidable ((s.hearing i data).EachFrame P
      (((s.hearing i data).clients i).rx.length + 1) i) := fun i => decidableEachFrame P i _ _
    inferInstanceAs (Decidable (∀ i, s.Woken c i → data ≠ [] → _ → (s.hearing i data).EachFrame P _ i))
  | .loop (.accept _ _) => .isTrue trivial
  | .loop (.flush _ _) => .isTrue trivial
  | .loop (.sweep _) => .isTrue trivial
  | .reap => .isTrue trivial

end State
end VO.Port
