import VideoOlympics.Base.Framer
import VideoOlympics.Relay.Manners
import Mathlib.Data.List.TakeWhile

/-! How TCP cuts a stream is nothing to the relay. What `service` passes to `handle`, up to the frame
    that drops the client, and the length byte it drops the client for, are what the greedy parse
    of everything the client sends says. -/

namespace VO.Relay

/-- What `service` makes of what has come. -/
def nextFrame (bs : List Byte) : Option (Except Byte (Frame × List Byte)) :=
  match Server.headOf bs with
  | .wait => none
  | .bad n => some (.error n)
  | .whole ftype payload rest => some (.ok ((ftype, payload), rest))

theorem nextFrame_shorter {bs : List Byte} {f : Frame} {rest : List Byte}
    (h : nextFrame bs = some (.ok (f, rest))) : rest.length < bs.length := by
  cases hhead : Server.headOf bs with
  | wait => simp [nextFrame, hhead] at h
  | bad n => simp [nextFrame, hhead] at h
  | whole ftype payload rest' =>
    obtain ⟨n, rfl, -, -⟩ := headOf_whole hhead
    simp only [nextFrame, hhead, Option.some.injEq, Except.ok.injEq, Prod.mk.injEq] at h
    rw [← h.2, List.length_cons, List.length_cons, List.length_append]
    omega

theorem nextFrame_steady {bs : List Byte} {r : Except Byte (Frame × List Byte)}
    (h : nextFrame bs = some r) (more : List Byte) :
    nextFrame (bs ++ more) = some (r.map fun x => (x.1, x.2 ++ more)) := by
  cases bs with
  | nil => cases h
  | cons n bs =>
    rw [List.cons_append]
    by_cases hn : n.toNat < 1 ∨ 200 < n.toNat
    · simp only [nextFrame, Server.headOf, if_pos hn, Option.some.injEq] at h ⊢
      exact h ▸ rfl
    · simp only [nextFrame, Server.headOf, if_neg hn] at h ⊢
      by_cases hlen : bs.length < n.toNat
      · simp [if_pos hlen] at h
      · have hle : n.toNat ≤ bs.length := Nat.le_of_not_lt hlen
        rw [if_neg (by rw [List.length_append]; omega), List.take_append_of_le_length hle,
          List.drop_append_of_le_length hle]
        rw [if_neg hlen] at h
        cases htake : bs.take n.toNat with
        | nil => simp [htake] at h
        | cons ftype payload =>
          simp only [htake, Option.some.injEq] at h ⊢
          exact h ▸ rfl

/-- The framing of `service`. -/
def framer : Framer Byte Frame Byte where
  head := nextFrame
  shorter := nextFrame_shorter
  steady := nextFrame_steady

theorem framer_wait {bs : List Byte} (h : Server.headOf bs = .wait) : framer.head bs = none := by
  simp only [framer, nextFrame, h]

theorem framer_bad {bs : List Byte} {n : Byte} (h : Server.headOf bs = .bad n) :
    framer.head bs = some (.error n) := by
  simp only [framer, nextFrame, h]

theorem framer_whole {bs payload rest : List Byte} {ftype : Byte}
    (h : Server.headOf bs = .whole ftype payload rest) :
    framer.head bs = some (.ok ((ftype, payload), rest)) := by
  simp only [framer, nextFrame, h]

/-- What `frame` builds, up to the longest the relay takes, is one frame of the stream. -/
theorem headOf_frame {ftype : Byte} {payload : List Byte} (h : payload.length ≤ 199)
    (more : List Byte) :
    Server.headOf (frame ftype payload ++ more) = .whole ftype payload more := by
  have hn : (BitVec.ofNat 8 (payload.length + 1)).toNat = (ftype :: payload).length := by
    rw [BitVec.toNat_ofNat, List.length_cons]
    omega
  have hlen : (ftype :: payload).length = payload.length + 1 := rfl
  rw [frame, List.cons_append, Server.headOf, hn, if_neg (by omega), if_neg, List.take_left,
    List.drop_left]
  rw [List.length_append]
  omega

/-- Whether handling a frame drops its client. -/
def drops (f : Frame) : Bool := f.1 == tBye || (f.1 == tHello && !helloOk f.2)

/-- What a stream comes to: its frames, to the first that drops the client, and the length byte the
    client is dropped for, if it is for that. -/
def verdict (bs : List Byte) : List Frame × Option Byte := framer.outcome drops bs

namespace Room

variable {r r' : Room} {c : ℕ} {ftype : Byte} {payload : List Byte}

/-- A client is dropped for a BYE, and for a HELLO that is not accepted, and for no other frame. -/
theorem Handles.present_iff (h : r.Handles c ftype payload r') (hnodup : r.clients.Nodup)
    (hc : c ∈ r.clients) : c ∈ r'.clients ↔ drops (ftype, payload) = false := by
  have hstays : ∀ {ftype : Byte}, ftype ≠ tBye → (ftype = tHello → helloOk payload = true) →
      drops (ftype, payload) = false := by
    intro ftype hbye hhello
    simp only [drops, Bool.or_eq_false_iff, beq_eq_false_iff_ne, Bool.and_eq_false_iff, ne_eq,
      Bool.not_eq_false']
    exact ⟨hbye, or_iff_not_imp_left.mpr fun h => hhello (not_not.mp h)⟩
  have hgoes : ∀ {b : Bool}, b = true → (c ∈ (r.leave c).clients ↔ b = false) := fun hb =>
    iff_of_false (mem_clients_leave hnodup c) (by rw [hb]; exact Bool.noConfusion)
  have hrelay : ftype ∈ relayTypes → drops (ftype, payload) = false := by
    intro hmem
    refine hstays ?_ ?_
    · rintro rfl
      exact absurd hmem (by decide)
    · rintro rfl
      exact absurd hmem (by decide)
  cases h with
  | unheard ht _ => exact iff_of_true hc (hrelay ht)
  | relayed p ht _ => exact iff_of_true hc (hrelay ht)
  | refused ht hbad => exact hgoes (by simp [drops, ht, hbad])
  | welcomed name _ ht hgood _ hp =>
    rw [hp.clients]
    exact iff_of_true hc (hstays (by rw [ht]; decide) fun _ => hgood)
  | listed ht => exact iff_of_true hc (hstays (by rw [ht]; decide) fun h => by rw [ht] at h; cases h)
  | joined _ ht hp =>
    rw [hp.clients]
    exact iff_of_true hc (hstays (by rw [ht]; decide) fun h => by rw [ht] at h; cases h)
  | pinged ht => exact iff_of_true hc (hstays (by rw [ht]; decide) fun h => by rw [ht] at h; cases h)
  | gone ht => exact hgoes (by simp [drops, ht])
  | unknown _ hhello _ _ _ hbye => exact iff_of_true hc (hstays hbye fun h => absurd h hhello)

/-- The acts of a drop, a match and an answer are no frames. -/
theorem framesOf_leave (r : Room) (c d : ℕ) : framesOf d (r.leave c).trace = framesOf d r.trace := by
  simp only [leave, unlink]
  split
  · rfl
  · dsimp only
    split
    · simp [queue, note, framesOf, Act.frameOf]
    · simp [note, framesOf, Act.frameOf]

theorem Pairs.framesOf (h : r.Pairs c r') (d : ℕ) : framesOf d r'.trace = framesOf d r.trace := by
  cases h with
  | alone _ => rfl
  | met _ _ _ _ _ _ _ _ _ => simp [meet, queue, note, Relay.framesOf, Act.frameOf]

theorem Handles.framesOf (h : r.Handles c ftype payload r') (d : ℕ) :
    framesOf d r'.trace = framesOf d r.trace := by
  cases h with
  | unheard _ _ => rfl
  | unknown _ _ _ _ _ _ => rfl
  | refused _ _ => exact framesOf_leave r c d
  | gone _ => exact framesOf_leave r c d
  | welcomed name _ _ _ _ hp =>
    rw [hp.framesOf]
    simp [call, Relay.framesOf, Act.frameOf]
  | joined _ _ hp => exact hp.framesOf d
  | _ => simp [queue, Relay.framesOf, Act.frameOf]

/-- A drop is on the record, before anything else of it. -/
theorem leave_dropped (hc : c ∈ r.clients) : ∃ as, (r.leave c).trace = r.trace ++ .dropped c :: as := by
  simp only [leave, unlink, hc, not_true_eq_false, if_false, note]
  split
  · exact ⟨_, List.append_assoc _ _ _⟩
  · exact ⟨[], rfl⟩

theorem dropped_leave {d : ℕ} (h : .dropped d ∈ (r.leave c).trace) :
    .dropped d ∈ r.trace ∨ (d = c ∧ c ∈ r.clients) := by
  by_cases hc : c ∈ r.clients
  · simp only [leave, unlink, hc, not_true_eq_false, if_false, note] at h
    split at h
    · simpa [queue, hc] using h
    · simpa [hc] using h
  · exact .inl (leave_absent hc ▸ h)

theorem Pairs.dropped {d : ℕ} (hp : r.Pairs c r') (h : .dropped d ∈ r'.trace) :
    .dropped d ∈ r.trace := by
  cases hp with
  | alone _ => exact h
  | met _ _ _ _ _ _ _ _ _ => simpa [meet, queue, note] using h

/-- A frame drops nobody but its sender. -/
theorem Handles.dropped {d : ℕ} (hh : r.Handles c ftype payload r') (h : .dropped d ∈ r'.trace) :
    .dropped d ∈ r.trace ∨ (d = c ∧ c ∈ r.clients ∧ drops (ftype, payload) = true) := by
  cases hh with
  | unheard _ _ => exact .inl h
  | unknown _ _ _ _ _ _ => exact .inl h
  | refused ht hbad =>
    exact (dropped_leave h).imp_right fun hd => ⟨hd.1, hd.2, by simp [drops, ht, hbad]⟩
  | gone ht => exact (dropped_leave h).imp_right fun hd => ⟨hd.1, hd.2, by simp [drops, ht]⟩
  | welcomed name _ _ _ _ hp => exact .inl (by simpa [call] using hp.dropped h)
  | joined _ _ hp => exact .inl (hp.dropped h)
  | _ => exact .inl (by simpa [queue] using h)

/-- And it does so before anything else. -/
theorem Handles.gone_dropped (hh : r.Handles c ftype payload r') (hc : c ∈ r.clients)
    (hgone : c ∉ r'.clients) : ∃ as, r'.trace = r.trace ++ .dropped c :: as := by
  cases hh with
  | refused _ _ => exact leave_dropped hc
  | gone _ => exact leave_dropped hc
  | welcomed name _ _ _ _ hp =>
    rw [hp.clients] at hgone
    exact absurd hc hgone
  | joined _ _ hp =>
    rw [hp.clients] at hgone
    exact absurd hc hgone
  | _ => exact absurd hc hgone

/-- Who is connected has not been dropped, and has sent nothing it would have been dropped for. -/
structure Going (r : Room) : Prop extends r.Seated where
  unheard : ∀ c, r.next ≤ c → framesOf c r.trace = []
  going : ∀ c ∈ r.clients, ∀ f ∈ framesOf c r.trace, f.2.length ≤ 199 ∧ drops f = false
  undropped : ∀ c, c ∈ r.clients ∨ r.next ≤ c → .dropped c ∉ r.trace

theorem Going.leave (h : r.Going) (c : ℕ) : (r.leave c).Going := by
  obtain ⟨-, -, hnext, -, -⟩ := r.leave_fixed c
  refine ⟨h.toSeated.leave c, ?_, ?_, ?_⟩
  · intro d hd
    rw [framesOf_leave]
    exact h.unheard d (hnext ▸ hd)
  · intro d hd
    rw [framesOf_leave]
    exact h.going d (r.leave_clients_subset c hd)
  · intro d hd hdrop
    rw [hnext] at hd
    rcases dropped_leave hdrop with hdrop | ⟨rfl, hc⟩
    · exact h.undropped d (hd.imp_left (r.leave_clients_subset c ·)) hdrop
    · exact hd.elim (mem_clients_leave h.nodup d) fun hd => absurd (h.known d hc) (Nat.not_lt.mpr hd)

theorem Going.move (h : r.Going) (hmove : r.Move r') : r'.Going := by
  cases hmove with
  | join =>
    have hframes : ∀ d, framesOf d r.join.trace = framesOf d r.trace := fun d => by
      simp [join, framesOf, Act.frameOf]
    refine ⟨h.toSeated.join, ?_, ?_, ?_⟩
    · intro d hd
      rw [hframes]
      exact h.unheard d (Nat.le_of_succ_le hd)
    · intro d hd
      rw [hframes]
      rcases List.mem_append.mp hd with hd | hd
      · exact h.going d hd
      · rw [List.mem_singleton.mp hd, h.unheard r.next (Nat.le_refl _)]
        exact fun f hf => by cases hf
    · intro d hd hdrop
      refine h.undropped d ?_ (by simpa [join] using hdrop)
      rcases hd with hd | hd
      · exact (List.mem_append.mp hd).imp_right fun hd => Nat.le_of_eq (List.mem_singleton.mp hd).symm
      · exact .inr (Nat.le_of_succ_le hd)
  | leave c _ => exact h.leave c
  | take c n _ => exact ⟨⟨h.nodup, h.known⟩, h.unheard, h.going, h.undropped⟩

theorem Going.handles (h : r.Going) (hc : c < r.next) (hlen : payload.length ≤ 199)
    (hh : (r.note (.handled c ftype payload)).Handles c ftype payload r') : r'.Going := by
  have hseated : (r.note (.handled c ftype payload)).Seated := ⟨h.nodup, h.known⟩
  have hother : ∀ d, d ≠ c → framesOf d r'.trace = framesOf d r.trace := by
    intro d hd
    rw [hh.framesOf]
    simp [note, framesOf, Act.frameOf, Ne.symm hd]
  have hown : framesOf c r'.trace = framesOf c r.trace ++ [(ftype, payload)] := by
    rw [hh.framesOf, note, framesOf_append, framesOf_handled]
  refine ⟨hseated.handles hh, ?_, ?_, ?_⟩
  · intro d hd
    rw [hh.fixed.1] at hd
    rw [hother d (Nat.ne_of_gt (Nat.lt_of_lt_of_le hc hd))]
    exact h.unheard d hd
  · intro d hd
    have hd' : d ∈ r.clients := hh.clients_subset hd
    by_cases hdc : d = c
    · subst hdc
      rw [hown]
      refine List.forall_mem_append.mpr ⟨h.going d hd', List.forall_mem_singleton.mpr ⟨hlen, ?_⟩⟩
      exact (hh.present_iff h.nodup hd').mp hd
    · rw [hother d hdc]
      exact h.going d hd'
  · intro d hd hdrop
    rw [hh.fixed.1] at hd
    rcases hh.dropped hdrop with hdrop | ⟨rfl, hdc, hdrops⟩
    · exact h.undropped d (hd.imp_left (hh.clients_subset ·)) (by simpa [note] using hdrop)
    · rcases hd with hd | hd
      · rw [(hh.present_iff h.nodup hdc).mp hd] at hdrops
        cases hdrops
      · exact absurd hc (Nat.not_lt.mpr hd)

end Room

namespace Server

variable {s s' : Server} {k c : ℕ}

/-- A frame of a client that has been known, no longer than frames are. -/
def Sized (s : Server) (c : ℕ) (_ : Byte) (payload : List Byte) : Prop :=
  c < s.next ∧ payload.length ≤ 199

theorem eachFrame_sized (turns : ℕ) {s : Server} (hc : c < s.next) : s.EachFrame Sized k turns c := by
  induction turns generalizing s with
  | zero => trivial
  | succ turns ih =>
    cases hhead : headOf (s.obj c).rx with
    | wait => simp only [EachFrame, hhead]
    | bad n => simp only [EachFrame, hhead]
    | whole ftype payload rest =>
      obtain ⟨n, -, hlen, hn⟩ := headOf_whole hhead
      refine (eachFrame_whole hhead).mpr ⟨⟨hc, by omega⟩, ?_⟩
      intro s' hs'
      have hnext : s'.next = s.next := (handle_ok hs').fixed.1
      exact ih (hnext ▸ hc)

theorem step_going {t : Server} {e : Event} (hg : s.room.Going) (h : s.step e = some t) :
    t.room.Going := by
  refine step_keeps (I := Room.Going) (P := Sized) (fun _ _ h hmove => h.move hmove)
    (fun _ _ _ h => ⟨⟨h.nodup, h.known⟩, h.unheard, h.going, h.undropped⟩)
    (fun s r' c ftype payload h hsized hh => h.handles hsized.1 hsized.2 hh) ?_ hg h
  rcases step_cases h with ⟨-, hquiet⟩ | ⟨c, data, k, rfl, -, hc, -⟩
  · cases e with
    | recv c data k =>
      have hdata := hquiet c
      rw [sentBy, if_pos rfl] at hdata
      exact fun hne => absurd hdata hne
    | _ => trivial
  · exact fun _ => eachFrame_sized _ (hg.known c hc)

theorem going_of_init (h : relay.init s) : s.room.Going := by
  have hseated := seated_of_init h
  obtain ⟨delay, variation, lobby, random, -, -, rfl⟩ := h
  exact ⟨hseated, fun _ _ => rfl, fun c hc => (by cases hc), fun _ _ => List.not_mem_nil⟩

/-! ### What the loop passes on -/

/-- The frames the loop passes to `handle`, to the first that drops the client, or does not come
    back; and the length byte it drops the client for. -/
def passing (k : ℕ) : ℕ → Server → ℕ → List Frame × Option Byte
  | 0, _, _ => ([], none)
  | turns + 1, s, c =>
    match headOf (s.obj c).rx with
    | .wait => ([], none)
    | .bad n => ([], some n)
    | .whole ftype payload rest =>
      match (s.taking c rest).handle k c ftype payload with
      | .error _ => ([(ftype, payload)], none)
      | .ok s' =>
        if c ∈ s'.clients then
          ((ftype, payload) :: (passing k turns s' c).1, (passing k turns s' c).2)
        else ([(ftype, payload)], none)

theorem handle_frames {ftype : Byte} {payload rest : List Byte}
    (h : (s.taking c rest).handle k c ftype payload = .ok s') :
    framesOf c s'.trace = framesOf c s.trace ++ [(ftype, payload)] := by
  have hframes := (handle_ok h).framesOf c
  rwa [room_taking, Room.note, framesOf_append, framesOf_handled] at hframes

theorem handle_seated {ftype : Byte} {payload rest : List Byte} (hs : s.room.Seated)
    (h : (s.taking c rest).handle k c ftype payload = .ok s') : s'.room.Seated := by
  have hseated : ((s.taking c rest).room.note (.handled c ftype payload)).Seated := by
    rw [room_taking]
    exact ⟨hs.nodup, hs.known⟩
  exact hseated.handles (handle_ok h)

theorem handle_present_iff {ftype : Byte} {payload rest : List Byte} (hs : s.room.Seated)
    (hc : c ∈ s.clients) (h : (s.taking c rest).handle k c ftype payload = .ok s') :
    c ∈ s'.clients ↔ drops (ftype, payload) = false :=
  (handle_ok h).present_iff hs.nodup hc

theorem handle_gone {ftype : Byte} {payload rest : List Byte} (hs : s.room.Seated)
    (hc : c ∈ s.clients) (h : (s.taking c rest).handle k c ftype payload = .ok s')
    (hdrop : drops (ftype, payload) = true) : c ∉ s'.clients := by
  intro hmem
  rw [(handle_present_iff hs hc h).mp hmem] at hdrop
  cases hdrop

/-- Nothing is passed on behind a frame that drops the client, whether `handle` comes back or not. -/
theorem passing_dropped {turns : ℕ} {ftype : Byte} {payload rest : List Byte} (hs : s.room.Seated)
    (hc : c ∈ s.clients) (hhead : headOf (s.obj c).rx = .whole ftype payload rest)
    (hdrop : drops (ftype, payload) = true) :
    s.passing k (turns + 1) c = ([(ftype, payload)], none) := by
  simp only [passing, hhead]
  cases hhandle : (s.taking c rest).handle k c ftype payload with
  | error e => rfl
  | ok s₁ => exact if_neg (handle_gone hs hc hhandle hdrop)

/-- What the loop passes on begins the stream's verdict. If it comes back, and nothing more of the
    stream was to be had, it is the verdict. -/
theorem passing_verdict {turns : ℕ} (hs : s.room.Seated) (hc : c ∈ s.clients)
    (hturns : (s.obj c).rx.length < turns) (more : List Byte) :
    (s.passing k turns c).1 <+: (verdict ((s.obj c).rx ++ more)).1 ∧
      ∀ t, s.serviceLoop k turns c = .ok t → (c ∈ t.clients → more = []) →
        s.passing k turns c = verdict ((s.obj c).rx ++ more) := by
  induction turns generalizing s with
  | zero => exact absurd hturns (Nat.not_lt_zero _)
  | succ turns ih =>
    cases hhead : headOf (s.obj c).rx with
    | wait =>
      simp only [passing, serviceLoop, hhead]
      refine ⟨List.nil_prefix, ?_⟩
      intro t ht hmore
      rw [hmore (Except.ok.inj ht ▸ hc), List.append_nil]
      exact (Framer.outcome_wait (framer_wait hhead)).symm
    | bad n =>
      simp only [passing, hhead]
      refine ⟨List.nil_prefix, ?_⟩
      intro t _ _
      exact (Framer.outcome_bad (framer.steady (framer_bad hhead) more)).symm
    | whole ftype payload rest =>
      have hwhole := framer.steady (framer_whole hhead) more
      cases hdrop : drops (ftype, payload) with
      | true =>
        have hverdict : verdict ((s.obj c).rx ++ more) = ([(ftype, payload)], none) :=
          Framer.outcome_stop hwhole hdrop
        rw [hverdict, passing_dropped hs hc hhead hdrop]
        exact ⟨List.prefix_refl _, fun _ _ _ => rfl⟩
      | false =>
        have hverdict : verdict ((s.obj c).rx ++ more) =
            ((ftype, payload) :: (verdict (rest ++ more)).1, (verdict (rest ++ more)).2) :=
          Framer.outcome_go hwhole hdrop
        rw [hverdict, serviceLoop_whole hhead]
        simp only [passing, hhead]
        cases hhandle : (s.taking c rest).handle k c ftype payload with
        | error e =>
          refine ⟨List.cons_prefix_cons.mpr ⟨rfl, List.nil_prefix⟩, ?_⟩
          intro t ht
          cases ht
        | ok s₁ =>
          obtain ⟨n, hrx, -, -⟩ := headOf_whole hhead
          have hhere := (handle_present_iff hs hc hhandle).mpr hdrop
          have hrest : (s₁.obj c).rx = rest := by rw [handle_rx hhandle, taking_rx]
          obtain ⟨hpre, hall⟩ := ih (handle_seated hs hhandle) hhere (by
            rw [hrx] at hturns
            simp only [List.length_cons, List.length_append] at hturns
            rw [hrest]
            omega)
          rw [hrest] at hpre hall
          simp only [if_pos hhere]
          refine ⟨List.cons_prefix_cons.mpr ⟨rfl, hpre⟩, ?_⟩
          intro t ht hmore
          rw [hall t ht hmore]

theorem serviceLoop_gone {turns : ℕ} {t : Server} (hc : c ∉ s.clients)
    (h : s.serviceLoop k turns c = .ok t) : c ∉ t.clients :=
  serviceLoop_keeps (I := fun r => c ∉ r.clients) (J := fun r => c ∉ r.clients)
    (P := fun _ _ _ _ => True)
    (fun _ _ _ _ _ _ hgone _ _ _ hh hmem => hgone (hh.clients_subset hmem)) (fun _ h => h)
    (fun r hgone hmem => hgone (r.leave_clients_subset c hmem))
    (eachFrame_of_forall (fun _ _ _ _ => trivial) turns s) hc h

/-- A client outlasts its stream just when no frame of it drops the client, and no length byte; and
    then the stream is read to its last whole frame. -/
theorem serviceLoop_present {turns : ℕ} {t : Server} (hs : s.room.Seated) (hc : c ∈ s.clients)
    (h : s.serviceLoop k turns c = .ok t) :
    (c ∈ t.clients ↔ (framer.parse (s.obj c).rx).bad = none ∧
        ∀ f ∈ (framer.parse (s.obj c).rx).frames, drops f = false) ∧
      (c ∈ t.clients → (t.obj c).rx = (framer.parse (s.obj c).rx).rest) := by
  induction turns generalizing s with
  | zero => cases h
  | succ turns ih =>
    cases hhead : headOf (s.obj c).rx with
    | wait =>
      simp only [serviceLoop, hhead] at h
      rw [Framer.parse_wait (framer_wait hhead), ← Except.ok.inj h]
      exact ⟨iff_of_true hc ⟨rfl, fun f hf => by cases hf⟩, fun _ => rfl⟩
    | bad n =>
      simp only [serviceLoop, hhead] at h
      rw [Framer.parse_bad (framer_bad hhead), ← Except.ok.inj h]
      have hgone : c ∉ (s.room.leave c).clients := Room.mem_clients_leave hs.nodup c
      rw [← room_clients, room_badLength]
      exact ⟨iff_of_false hgone fun hall => Option.some_ne_none n hall.1, fun hmem => absurd hmem hgone⟩
    | whole ftype payload rest =>
      rw [serviceLoop_whole hhead] at h
      obtain ⟨s₁, h₁, h⟩ := bind_ok h
      rw [Framer.parse_frame (framer_whole hhead)]
      have hrest : (s₁.obj c).rx = rest := by rw [handle_rx h₁, taking_rx]
      cases hdrop : drops (ftype, payload) with
      | true =>
        have hend := serviceLoop_gone (handle_gone hs hc h₁ hdrop) h
        refine ⟨iff_of_false hend fun hall => ?_, fun hmem => absurd hmem hend⟩
        rw [hall.2 _ (List.mem_cons_self ..)] at hdrop
        cases hdrop
      | false =>
        obtain ⟨hiff, hleft⟩ := ih (handle_seated hs h₁) ((handle_present_iff hs hc h₁).mpr hdrop) h
        rw [hrest] at hiff hleft
        refine ⟨hiff.trans (and_congr_right fun _ => ?_), hleft⟩
        exact ⟨fun hall => List.forall_mem_cons.mpr ⟨hdrop, hall⟩,
          fun hall => (List.forall_mem_cons.mp hall).2⟩

/-! ### What the loop has done -/

/-- The client's frames on the record before a drop of it. -/
def heardOf (c : ℕ) (trace : List Act) : List Frame :=
  framesOf c (trace.takeWhile fun a => a ≠ .dropped c)

theorem heardOf_undropped {trace : List Act} (h : .dropped c ∉ trace) :
    heardOf c trace = framesOf c trace := by
  rw [heardOf, List.takeWhile_eq_self_iff.mpr]
  intro a ha
  exact decide_eq_true fun hdrop => h (hdrop ▸ ha)

theorem heardOf_dropped {log trace : List Act} (as : List Act) (h : .dropped c ∉ log)
    (ht : log ++ .dropped c :: as <+: trace) : heardOf c trace = framesOf c log := by
  obtain ⟨bs, rfl⟩ := ht
  have hlog : ∀ a ∈ log, decide (a ≠ .dropped c) = true :=
    fun a ha => decide_eq_true fun hdrop => h (hdrop ▸ ha)
  rw [heardOf, List.append_assoc, List.takeWhile_append_of_pos hlog, List.cons_append,
    List.takeWhile_cons_of_neg (by simp), List.append_nil]

/-- These frames of a client have been handled, and it is still connected. -/
structure Heard (s : Server) (c : ℕ) (fs : List Frame) (u : Server) : Prop where
  seated : u.room.Seated
  here : c ∈ u.clients
  undropped : .dropped c ∉ u.trace
  frames : framesOf c u.trace = framesOf c s.trace ++ fs
  kept : ∀ f ∈ fs, drops f = false

theorem Heard.cons {ftype : Byte} {payload rest : List Byte} {fs : List Frame} {u : Server}
    (hu : s'.Heard c fs u) (h : (s.taking c rest).handle k c ftype payload = .ok s')
    (hkept : drops (ftype, payload) = false) : s.Heard c ((ftype, payload) :: fs) u where
  seated := hu.seated
  here := hu.here
  undropped := hu.undropped
  frames := by rw [hu.frames, handle_frames h, List.append_assoc, List.singleton_append]
  kept := List.forall_mem_cons.mpr ⟨hkept, hu.kept⟩

/-- The loop handles what it passes on, one frame after the other, and stops for want of a whole
    frame or with the drop for a length byte; or else the last of the frames drops the client. -/
theorem serviceLoop_passing {turns : ℕ} {t : Server} (hs : s.room.Seated) (hc : c ∈ s.clients)
    (hnew : .dropped c ∉ s.trace) (h : s.serviceLoop k turns c = .ok t) :
    (∃ u, s.Heard c (s.passing k turns c).1 u ∧
      (((s.passing k turns c).2 = none ∧ t = u) ∨ ∃ n, (s.passing k turns c).2 = some n ∧
        headOf (u.obj c).rx = .bad n ∧ t = u.badLength c n)) ∨
      ((s.passing k turns c).2 = none ∧ c ∉ t.clients ∧
        (∃ f ∈ (s.passing k turns c).1, drops f = true) ∧
        heardOf c t.trace = framesOf c s.trace ++ (s.passing k turns c).1) := by
  induction turns generalizing s with
  | zero => cases h
  | succ turns ih =>
    have hstill : s.Heard c [] s := ⟨hs, hc, hnew, (List.append_nil _).symm, fun f hf => by cases hf⟩
    cases hhead : headOf (s.obj c).rx with
    | wait =>
      simp only [serviceLoop, hhead] at h
      have hpassed : s.passing k (turns + 1) c = ([], none) := by simp only [passing, hhead]
      rw [hpassed]
      exact .inl ⟨s, hstill, .inl ⟨rfl, (Except.ok.inj h).symm⟩⟩
    | bad n =>
      simp only [serviceLoop, hhead] at h
      have hpassed : s.passing k (turns + 1) c = ([], some n) := by simp only [passing, hhead]
      rw [hpassed]
      exact .inl ⟨s, hstill, .inr ⟨n, rfl, hhead, (Except.ok.inj h).symm⟩⟩
    | whole ftype payload rest =>
      rw [serviceLoop_whole hhead] at h
      obtain ⟨s₁, h₁, h⟩ := bind_ok h
      have hroom := handle_ok h₁
      rw [room_taking] at hroom
      have hnow : .dropped c ∉ s.trace ++ [.handled c ftype payload] := by simpa using hnew
      cases hdrop : drops (ftype, payload) with
      | true =>
        rw [passing_dropped hs hc hhead hdrop]
        have hgone := handle_gone hs hc h₁ hdrop
        obtain ⟨as, has⟩ := hroom.gone_dropped hc hgone
        refine .inr ⟨rfl, serviceLoop_gone hgone h, ⟨_, List.mem_singleton_self _, hdrop⟩, ?_⟩
        rw [heardOf_dropped as hnow, framesOf_append, framesOf_handled]
        exact has ▸ serviceLoop_trace h
      | false =>
        have hhere := (handle_present_iff hs hc h₁).mpr hdrop
        have hundropped : .dropped c ∉ s₁.trace := by
          intro hmem
          rcases hroom.dropped hmem with hmem | ⟨-, -, hdrops⟩
          · exact hnow hmem
          · rw [hdrop] at hdrops
            cases hdrops
        simp only [passing, hhead, h₁, if_pos hhere]
        rcases ih (handle_seated hs h₁) hhere hundropped h with
          ⟨u, hu, hend⟩ | ⟨hbad, hgone, ⟨f, hf, hdrops⟩, hheard⟩
        · exact .inl ⟨u, hu.cons h₁ hdrop, hend⟩
        · refine .inr ⟨hbad, hgone, ⟨f, List.mem_cons_of_mem _ hf, hdrops⟩, ?_⟩
          rw [hheard, handle_frames h₁, List.append_assoc, List.singleton_append]

/-- So what it passes on is what the client's record has before its drop. -/
theorem serviceLoop_heard {turns : ℕ} {t : Server} (hs : s.room.Seated) (hc : c ∈ s.clients)
    (hnew : .dropped c ∉ s.trace) (h : s.serviceLoop k turns c = .ok t) :
    heardOf c t.trace = framesOf c s.trace ++ (s.passing k turns c).1 := by
  rcases serviceLoop_passing hs hc hnew h with ⟨u, hu, ⟨-, rfl⟩ | ⟨n, -, -, rfl⟩⟩ | ⟨-, -, -, hheard⟩
  · rw [heardOf_undropped hu.undropped, hu.frames]
  · obtain ⟨as, has⟩ := Room.leave_dropped (r := u.room) hu.here
    rw [heardOf_dropped as hu.undropped, hu.frames]
    rw [← room_trace (u.badLength c n), room_badLength, has]
    exact List.prefix_rfl
  · exact hheard

/-- And the client outlasts it just when nothing of that drops it. -/
theorem serviceLoop_kept_iff {turns : ℕ} {t : Server} (hs : s.room.Seated) (hc : c ∈ s.clients)
    (hnew : .dropped c ∉ s.trace) (h : s.serviceLoop k turns c = .ok t) :
    c ∈ t.clients ↔ (s.passing k turns c).2 = none ∧
      ∀ f ∈ (s.passing k turns c).1, drops f = false := by
  rcases serviceLoop_passing hs hc hnew h with
    ⟨u, hu, ⟨hnone, rfl⟩ | ⟨n, hbad, -, rfl⟩⟩ | ⟨-, hgone, ⟨f, hf, hdrops⟩, -⟩
  · exact iff_of_true hu.here ⟨hnone, hu.kept⟩
  · refine iff_of_false ?_ fun hall => Option.some_ne_none n (hbad.symm.trans hall.1)
    rw [← room_clients, room_badLength]
    exact Room.mem_clients_leave hu.seated.nodup c
  · refine iff_of_false hgone fun hall => ?_
    rw [hall.2 f hf] at hdrops
    cases hdrops

/-- Where it gives a length byte, it has come to that byte with the client connected, and dropped it
    for that. -/
theorem serviceLoop_bad {turns : ℕ} {t : Server} (hs : s.room.Seated) (hc : c ∈ s.clients)
    (hnew : .dropped c ∉ s.trace) (h : s.serviceLoop k turns c = .ok t) {n : Byte}
    (hbad : (s.passing k turns c).2 = some n) :
    ∃ u : Server, c ∈ u.clients ∧ framesOf c u.trace = framesOf c s.trace ++ (s.passing k turns c).1 ∧
      headOf (u.obj c).rx = .bad n ∧ t = u.badLength c n := by
  rcases serviceLoop_passing hs hc hnew h with ⟨u, hu, ⟨hnone, -⟩ | ⟨m, hm, hhead, ht⟩⟩ | ⟨hnone, -⟩
  · exact absurd (hbad.symm.trans hnone) (Option.some_ne_none n)
  · obtain rfl : m = n := Option.some.inj (hm.symm.trans hbad)
    exact ⟨u, hu.here, hu.frames, hhead, ht⟩
  · exact absurd (hbad.symm.trans hnone) (Option.some_ne_none n)

/-- What an event that brings a client's bytes passes on. -/
def passed (s : Server) (c : ℕ) (data : List Byte) (k : ℕ) : List Frame × Option Byte :=
  (s.hearing c data).passing k (((s.hearing c data).obj c).rx.length + 1) c

theorem step_recv {t : Server} {data : List Byte} (hdata : data ≠ [])
    (h : s.step (.recv c data k) = some t) : (s.hearing c data).service k c = .ok t := by
  rcases step_cases h with ⟨-, hquiet⟩ | ⟨c', data', k', he, -, -, hservice⟩
  · have := hquiet c
    rw [sentBy, if_pos rfl] at this
    exact absurd this hdata
  · cases he
    exact hservice

end Server

theorem going_of_run {s₀ s : Server} {es : List Event} (h₀ : relay.init s₀)
    (hrun : relay.run s₀ es = some s) : s.room.Going :=
  relay.reachable_invariant (I := fun s => s.room.Going) (fun _ => Server.going_of_init)
    (fun _ _ _ => Server.step_going) ⟨s₀, es, h₀, hrun⟩

theorem received_eq {s₀ s : Server} {es : List Event} (h₀ : relay.init s₀)
    (hrun : relay.run s₀ es = some s) (c : ℕ) :
    received c es = wire (framesOf c s.trace) ++ (s.obj c).rx :=
  (((run_session (session_of_init h₀) hrun).accounts.heard c).trans (List.nil_append _)).symm

/-- Frames no longer than the relay takes are read off the wire as they were put on it. -/
theorem head_wire {fs : List Frame} (h : ∀ f ∈ fs, f.2.length ≤ 199 ∧ drops f = false) :
    ∀ f ∈ fs, ∀ more, framer.head (frame f.1 f.2 ++ more) = some (.ok (f, more)) :=
  fun f hf more => framer_whole (headOf_frame (h f hf).1 more)

theorem verdict_wire {fs : List Frame} (h : ∀ f ∈ fs, f.2.length ≤ 199 ∧ drops f = false)
    (more : List Byte) : verdict (wire fs ++ more) = (fs ++ (verdict more).1, (verdict more).2) :=
  Framer.outcome_encoded (head_wire h) (fun f hf => (h f hf).2) more

/-- Take any run, a client that is connected at its end, and the next bytes that come from it. What
    has been passed to `handle` for it, and the length byte it is dropped for, are what the greedy
    parse of its whole stream says, of all that has come and all that is still to come: as far as
    `handle` comes back, and in full if it does. Then the record has just these frames before the
    client's drop, it is still connected just when neither a frame nor a length byte drops it, and
    the length byte is one the loop has come to and dropped it for. A stream of nothing but frames
    that do not drop the client is decoded to those frames, and nothing is left. -/
theorem service_greedy {s₀ s : Server} {es : List Event} (h₀ : relay.init s₀)
    (hrun : relay.run s₀ es = some s) {c : ℕ} (hc : c ∈ s.clients) {data : List Byte}
    (hdata : data ≠ []) (k : ℕ) :
    (∀ more, framesOf c s.trace ++ (s.passed c data k).1 <+:
        (verdict (received c es ++ data ++ more)).1) ∧
      ∀ t, s.step (.recv c data k) = some t →
        Server.heardOf c t.trace = framesOf c s.trace ++ (s.passed c data k).1 ∧
        (c ∈ t.clients ↔ (s.passed c data k).2 = none ∧ ∀ f ∈ (s.passed c data k).1, drops f = false) ∧
        (∀ n, (s.passed c data k).2 = some n → ∃ u : Server, c ∈ u.clients ∧
          framesOf c u.trace = framesOf c s.trace ++ (s.passed c data k).1 ∧
            Server.headOf (u.obj c).rx = .bad n ∧ t = u.badLength c n) ∧
        (∀ more, (c ∈ t.clients → more = []) →
          (framesOf c s.trace ++ (s.passed c data k).1, (s.passed c data k).2) =
            verdict (received c es ++ data ++ more)) ∧
        ∀ fs : List Frame, (∀ f ∈ fs, f.2.length ≤ 199 ∧ drops f = false) →
          received c es ++ data = wire fs →
            framesOf c s.trace ++ (s.passed c data k).1 = fs ∧ (s.passed c data k).2 = none ∧
              c ∈ t.clients ∧ (t.obj c).rx = [] := by
  have hgoing := going_of_run h₀ hrun
  have hsent : ∀ f ∈ framesOf c s.trace, f.2.length ≤ 199 ∧ drops f = false := hgoing.going c hc
  have hseated : (s.hearing c data).room.Seated := by
    rw [Server.hearing, Server.room_taking]
    exact ⟨hgoing.nodup, hgoing.known⟩
  have hrx : ((s.hearing c data).obj c).rx = (s.obj c).rx ++ data := Server.taking_rx ..
  have hpass := Server.passing_verdict (s := s.hearing c data) (c := c) (k := k) hseated hc
    (Nat.lt_succ_self _)
  have hverdict : ∀ more, verdict (received c es ++ data ++ more) =
      (framesOf c s.trace ++ (verdict (((s.hearing c data).obj c).rx ++ more)).1,
        (verdict (((s.hearing c data).obj c).rx ++ more)).2) := by
    intro more
    rw [received_eq h₀ hrun c, List.append_assoc, List.append_assoc, verdict_wire hsent, hrx,
      List.append_assoc]
  have hwhole : ∀ t, s.step (.recv c data k) = some t → ∀ more, (c ∈ t.clients → more = []) →
      (framesOf c s.trace ++ (s.passed c data k).1, (s.passed c data k).2) =
        verdict (received c es ++ data ++ more) := by
    intro t ht more hmore
    rw [hverdict, Server.passed, (hpass more).2 t (Server.step_recv hdata ht) hmore]
  have hnew : .dropped c ∉ (s.hearing c data).trace := hgoing.undropped c (.inl hc)
  refine ⟨?_, fun t ht => ⟨?_, ?_, ?_, hwhole t ht, ?_⟩⟩
  · intro more
    rw [hverdict]
    exact (List.prefix_append_right_inj _).mpr (hpass more).1
  · exact Server.serviceLoop_heard hseated hc hnew (Server.step_recv hdata ht)
  · exact Server.serviceLoop_kept_iff hseated hc hnew (Server.step_recv hdata ht)
  · exact fun n hbad => Server.serviceLoop_bad hseated hc hnew (Server.step_recv hdata ht) hbad
  · intro fs hfs hstream
    have hfull := hwhole t ht [] fun _ => rfl
    rw [hstream, verdict_wire hfs] at hfull
    obtain ⟨hframes, hbad⟩ := Prod.mk.inj hfull
    have hnil : verdict [] = ([], none) := Framer.outcome_wait rfl
    have hempty : framer.parse [] = ⟨[], none, []⟩ := Framer.parse_wait rfl
    rw [hnil] at hframes hbad
    have hparse := Framer.parse_encoded (head_wire hfs) []
    rw [List.append_nil, ← wire, ← hstream, received_eq h₀ hrun c, List.append_assoc, wire,
      Framer.parse_encoded (head_wire hsent), ← hrx, hempty] at hparse
    obtain ⟨hsplit, hgood, hempty⟩ := Framer.Parsed.mk.inj hparse
    rw [List.append_nil] at hsplit
    have hgo : ∀ f ∈ (framer.parse ((s.hearing c data).obj c).rx).frames, drops f = false :=
      fun f hf => (hfs f (hsplit ▸ List.mem_append_right _ hf)).2
    obtain ⟨hiff, hleft⟩ := Server.serviceLoop_present hseated hc (Server.step_recv hdata ht)
    have hhere := hiff.mpr ⟨hgood, hgo⟩
    exact ⟨hframes.trans (List.append_nil fs), hbad, hhere, (hleft hhere).trans hempty⟩

/-- A console has sent the first three bytes of its HELLO. -/
def cutHello : List Event := [.accept (0, 0) 0, .recv 0 ((hello ['A', 'L']).take 3) 0]

/-- The rest of it, and in the same chunk a BYE and a length byte no frame has. -/
def cutRest : List Byte := (hello ['A', 'L']).drop 3 ++ frame tBye [] ++ [0]

theorem service_greedy_cutHello :
    ∃ t, relay.run listening (cutHello ++ [.recv 0 cutRest 0]) = some t ∧
      (0 ∉ t.clients ∧ Server.heardOf 0 t.trace =
        [(tHello, [proto, tvNtsc] ++ encode ['A', 'L']), (tBye, [])]) ∧
      verdict (received 0 cutHello ++ cutRest ++ [1, tPing]) =
        ([(tHello, [proto, tvNtsc] ++ encode ['A', 'L']), (tBye, [])], none) := by
  refine relay.exists_run_of (by decide +kernel) ?_
  rintro t hrun ⟨hgone, hheard⟩
  obtain ⟨s, hcut, hrest⟩ := relay.run_append_some.mp hrun
  obtain ⟨t', ht, hend⟩ := relay.run_cons_some.mp hrest
  obtain rfl : t' = t := Option.some.inj hend
  have hc : 0 ∈ s.clients := by
    by_contra hc
    simp [relay, Server.step, hc] at ht
  obtain ⟨hpassed, -, -, hverdict, -⟩ :=
    (service_greedy init_listening hcut hc (show cutRest ≠ [] by decide) 0).2 t' ht
  have hall := hverdict [1, tPing] fun hc => absurd hc hgone
  rw [← hpassed, hheard] at hall
  have hnone : (verdict (received 0 cutHello ++ cutRest ++ [1, tPing])).2 = none := by
    decide +kernel
  exact Prod.ext (congrArg Prod.fst hall).symm hnone

end VO.Relay
