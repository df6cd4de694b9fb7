import VideoOlympics.Port.Checksums
import VideoOlympics.Port.Traffic
import VideoOlympics.Relay.Framing

/-! Receiving, in C. What is left in a buffer when its client has been served is less than a frame, so
    there is always room for what one read brings; and what is taken out of it is what the other
    relay takes out of the same bytes, also behind a frame that drops the client. -/

namespace VO.Relay.Server

/-- What the other relay's loop hands on and what it leaves, if it comes back. -/
theorem serviceLoop_parse {k turns c : ℕ} {s t : Server} (hturns : (s.obj c).rx.length < turns)
    (h : s.serviceLoop k turns c = .ok t) :
    framesOf c t.trace = framesOf c s.trace ++ (framer.parse (s.obj c).rx).frames ∧
      (t.obj c).rx = (framer.parse (s.obj c).rx).rest := by
  induction turns generalizing s with
  | zero => exact absurd hturns (Nat.not_lt_zero _)
  | succ turns ih =>
    cases hhead : headOf (s.obj c).rx with
    | wait =>
      simp only [serviceLoop, hhead] at h
      rw [Framer.parse_wait (framer_wait hhead), ← Except.ok.inj h]
      exact ⟨(List.append_nil _).symm, rfl⟩
    | bad n =>
      simp only [serviceLoop, hhead] at h
      have htrace := Room.framesOf_leave s.room c c
      obtain ⟨-, -, -, -, hrx⟩ := s.room.leave_fixed c
      rw [← room_badLength s c n] at htrace hrx
      rw [Framer.parse_bad (framer_bad hhead), ← Except.ok.inj h, List.append_nil]
      exact ⟨htrace, congrFun hrx c⟩
    | whole ftype payload rest =>
      rw [serviceLoop_whole hhead] at h
      obtain ⟨s₁, h₁, h⟩ := bind_ok h
      obtain ⟨n, hbytes, -, -⟩ := headOf_whole hhead
      rw [Framer.parse_frame (framer_whole hhead)]
      have hrest : (s₁.obj c).rx = rest := by rw [handle_rx h₁, taking_rx]
      have hshort : (s₁.obj c).rx.length < turns := by
        rw [hbytes] at hturns
        simp only [List.length_cons, List.length_append] at hturns
        rw [hrest]
        omega
      have htrace : framesOf c s₁.trace = framesOf c s.trace ++ [(ftype, payload)] := by
        have hhandled := (handle_ok h₁).framesOf c
        rwa [room_taking, Room.note, framesOf_append, framesOf_handled] at hhandled
      obtain ⟨hframes, hleft⟩ := ih hshort h
      rw [hrest] at hframes hleft
      rw [hframes, htrace, List.append_assoc]
      exact ⟨rfl, hleft⟩

end VO.Relay.Server

namespace VO.Port
open Relay

namespace Traffic

/-- Every buffer on the way has been long enough. -/
structure Sized (r : Traffic) : Prop where
  unspilt : r.spilt = false
  handled : ∀ c, ∀ f ∈ r.handled c, f.2.length ≤ 199
  queued : ∀ c, ∀ data ∈ r.queued c, data.length ≤ 201

variable {r r' : Traffic} {i : Index} {out : List (Index × ℕ)}

theorem Sized.post (h : r.Sized) {data : List Byte} (hlen : data.length ≤ 201) :
    (r.post i data).Sized := by
  refine ⟨h.unspilt, h.handled, ?_⟩
  intro c
  rw [queued_post]
  split
  · exact List.forall_mem_append.mpr ⟨h.queued _, List.forall_mem_singleton.mpr hlen⟩
  · exact h.queued c

theorem Posts.sized (hp : Posts out r r') (hout : ∀ x ∈ out, x.2 ≤ 201) (h : r.Sized) :
    r'.Sized := by
  induction hp with
  | nil => exact h
  | cons data _ ih =>
    obtain ⟨hhead, htail⟩ := List.forall_mem_cons.mp hout
    exact ih htail (h.post hhead)

theorem Sized.hear (h : r.Sized) {ftype : Byte} {payload : List Byte} (hlen : payload.length ≤ 199) :
    (r.hear i ftype payload).Sized := by
  refine ⟨h.unspilt, ?_, h.queued⟩
  intro c
  rw [handled_hear]
  split
  · exact List.forall_mem_append.mpr ⟨h.handled _, List.forall_mem_singleton.mpr hlen⟩
  · exact h.handled c

/-- What is queued changes neither who is who nor what has been handled. -/
theorem Posts.fixed (hp : Posts out r r') : r'.conn = r.conn ∧ r'.handled = r.handled := by
  induction hp with
  | nil => exact ⟨rfl, rfl⟩
  | cons data _ ih => exact ih

end Traffic

namespace State

variable {s t : State} {i j : Index}

theorem farewell_le (s : State) (i : Index) : ∀ x ∈ s.farewell i, x.2 ≤ 201 := by
  rw [farewell]
  split
  · simp
  · split
    · simp [gameFrame]
    · simp

theorem seeking_le (s : State) (i : Index) : ∀ x ∈ s.seeking i, x.2 ≤ 201 := by
  rw [seeking]
  split
  · simp
  · simp

theorem outgoing_le (s : State) (i : Index) (ftype : Byte) {payload : List Byte}
    (hlen : payload.length ≤ 199) : ∀ x ∈ s.outgoing i ftype payload, x.2 ≤ 201 := by
  have hentries : s.entries.length ≤ 8 := by
    rw [entries, List.length_take]
    omega
  rw [outgoing]
  split
  · rw [forwarding]
    split
    · refine List.forall_mem_singleton.mpr ?_
      have : gamePayload ≤ 199 := by decide
      dsimp only
      omega
    · simp
  · split
    · rw [greeting.eq_def]
      split
      · split
        · exact s.seeking_le i
        · exact s.farewell_le i
      · exact s.farewell_le i
    · split
      · refine List.forall_mem_singleton.mpr ?_
        dsimp only
        omega
      · split
        · exact s.seeking_le i
        · split
          · simp
          · split
            · exact s.farewell_le i
            · simp

/-- A dropped client stays dropped. -/
theorem dead_leave {r : Rack} (h : (r.leave i).dead j = false) : r.dead j = false := by
  cases hi : r.dead i with
  | true =>
    rwa [Rack.leave_dead hi] at h
  | false =>
    obtain ⟨-, hdead, -⟩ := Rack.leave_live hi
    rw [hdead, Function.update_apply] at h
    split at h
    · cases h
    · exact h

theorem Handles.dead {ftype : Byte} {payload : List Byte} {r : Rack}
    (h : s.Handles i ftype payload r) (hj : r.dead j = false) : s.rack.dead j = false := by
  cases h with
  | quiet => exact hj
  | gone => exact dead_leave hj
  | met host _ _ => exact hj

/-- What serving a client does to the buffers. -/
structure Serves (s : State) (i : Index) (t : State) : Prop where
  conn : t.conn = s.conn
  rx : (t.clients i).rx = (framer.parse (s.clients i).rx).rest
  others : ∀ j, j ≠ i → (t.clients j).rx = (s.clients j).rx
  dead : ∀ j, (t.clients j).dead = false → (s.clients j).dead = false
  good : (t.clients i).dead = false → (framer.parse (s.clients i).rx).bad = none
  handled : framesOf (s.conn i) t.trace =
    framesOf (s.conn i) s.trace ++ (framer.parse (s.clients i).rx).frames
  sized : s.traffic.Sized → t.traffic.Sized

theorem badLength_serves {n : Byte} (hhead : headOf (s.clients i).rx = .bad n) :
    s.Serves i (s.badLength i n) := by
  have hparse := Framer.parse_bad (framer_bad (headOf_eq _ ▸ hhead))
  have hrack : (s.badLength i n).rack = s.rack.leave i := by
    rw [badLength, rack_drop, rack_say, rack_stats]
  have hposts := drop_posts (({ s with stats :=
    { s.stats with badFrames := s.stats.badFrames + 1 } } : State).say
      (.said (.badLength (s.nameOrQ i) n))) i
  rw [traffic_say, traffic_stats] at hposts
  have hrx : ∀ j, ((s.badLength i n).clients j).rx = (s.clients j).rx := fun j =>
    drop_fixed _ i j rx_fixed
  have hdead : ∀ j, ((s.badLength i n).clients j).dead = false → (s.clients j).dead = false := by
    intro j hj
    refine dead_leave (r := s.rack) (i := i) (j := j) ?_
    rw [← hrack]
    exact hj
  refine ⟨hposts.fixed.1, by rw [hparse, hrx], fun j _ => hrx j, hdead, ?_, ?_,
    hposts.sized (farewell_le _ i)⟩
  · intro hlive
    have hgone : (s.rack.leave i).dead i = true := by
      cases hi : s.rack.dead i with
      | true => rw [Rack.leave_dead hi, hi]
      | false =>
        obtain ⟨-, hd, -⟩ := Rack.leave_live hi
        rw [hd, Function.update_self]
    rw [← hrack] at hgone
    exact absurd (hgone.symm.trans hlive) Bool.noConfusion
  · rw [hparse, List.append_nil]
    exact congrFun hposts.fixed.2 (s.conn i)

/-- A frame is cut off and handled before whatever is served behind it. -/
theorem Serves.of_whole {t : State} {ftype : Byte} {payload rest : List Byte}
    (hhead : headOf (s.clients i).rx = .whole ftype payload rest)
    (h : ((s.taking i rest).handle i ftype payload).Serves i t) : s.Serves i t := by
  obtain ⟨n, hbytes, hlen, hn⟩ := headOf_whole (headOf_eq _ ▸ hhead)
  have hparse := Framer.parse_frame (framer_whole (headOf_eq _ ▸ hhead))
  have hposts := (s.taking i rest).handle_posts i ftype payload
  have hrack := (s.taking i rest).handle_handles i ftype payload
  have htaking : (s.taking i rest).traffic = s.traffic := traffic_upd_quiet s i _ rfl
  have hconn : ((s.taking i rest).handle i ftype payload).conn = s.conn :=
    hposts.fixed.1.trans (congrArg Traffic.conn htaking)
  have hown := handle_taking_rx_self s i rest ftype payload
  obtain ⟨hconn', hrx', hothers, hdead, hgood, hhandled, hsized⟩ := h
  rw [hown] at hrx' hgood hhandled
  refine ⟨hconn'.trans hconn, by rw [hrx', hparse], ?_, ?_, ?_, ?_, ?_⟩
  · intro j hj
    rw [hothers j hj, handle_taking_rx, if_neg hj]
  · intro j hj
    have hnow := hrack.dead (hdead j hj)
    rwa [rack_taking] at hnow
  · rw [hparse]
    exact hgood
  · rw [hconn] at hhandled
    have hframe : framesOf (s.conn i) ((s.taking i rest).handle i ftype payload).trace =
        framesOf (s.conn i) s.trace ++ [(ftype, payload)] := by
      refine (congrFun hposts.fixed.2 (s.conn i)).trans ?_
      rw [htaking]
      exact (Traffic.handled_hear ..).trans (if_pos rfl)
    rw [hhandled, hframe, hparse, List.append_assoc]
    rfl
  · intro hs
    refine hsized (hposts.sized (outgoing_le _ i ftype (by omega)) ?_)
    rw [htaking]
    exact hs.hear (by omega)

theorem serviceLoop_serves {turns : ℕ} {s : State} (hturns : (s.clients i).rx.length < turns) :
    s.Serves i (s.serviceLoop turns i) := by
  induction turns generalizing s with
  | zero => exact absurd hturns (Nat.not_lt_zero _)
  | succ turns ih =>
    cases hhead : headOf (s.clients i).rx with
    | wait =>
      have hparse := Framer.parse_wait (framer_wait (headOf_eq _ ▸ hhead))
      rw [serviceLoop, hhead]
      exact ⟨rfl, by rw [hparse], fun _ _ => rfl, fun _ h => h, fun _ => by rw [hparse],
        by rw [hparse, List.append_nil], id⟩
    | bad n =>
      rw [serviceLoop, hhead]
      exact badLength_serves hhead
    | whole ftype payload rest =>
      have hshort := headOf_rest hhead
      have hrx := handle_taking_rx_self s i rest ftype payload
      rw [serviceLoop_whole hhead]
      exact (ih (by rw [hrx]; omega)).of_whole hhead

/-- Between two events every client's buffer holds less than a frame, and what has passed through the
    others has fitted them. -/
structure Tidy (s : State) : Prop where
  room : ∀ i, (s.clients i).dead = false → (s.clients i).rx.length ≤ 200
  sized : s.traffic.Sized

/-- What a client leaves whom no more frames can be read from. -/
theorem parse_rest_le {rx : List Byte} (h : (framer.parse rx).bad = none) :
    (framer.parse rx).rest.length ≤ 200 := by
  generalize hn : rx.length = n
  induction n using Nat.strong_induction_on generalizing rx with
  | h n ih =>
    cases hhead : Server.headOf rx with
    | wait =>
      rw [Framer.parse_wait (framer_wait hhead)]
      exact Server.headOf_wait hhead
    | bad b =>
      rw [Framer.parse_bad (framer_bad hhead)] at h
      cases h
    | whole ftype payload rest =>
      rw [Framer.parse_frame (framer_whole hhead)] at h ⊢
      exact ih rest.length (hn ▸ framer.shorter (framer_whole hhead)) h rfl

theorem Tidy.drop (h : s.Tidy) (i : Index) : (s.drop i).Tidy where
  room j hj := by
    rw [drop_fixed s i j rx_fixed]
    refine h.room j (dead_leave (r := s.rack) (i := i) (j := j) ?_)
    rw [← rack_drop]
    exact hj
  sized := (drop_posts s i).sized (s.farewell_le i) h.sized

/-- Events that neither bring bytes nor drop anyone. -/
theorem Tidy.quiet (h : s.Tidy) (hclients : ∀ j, (t.clients j).rx = (s.clients j).rx ∧
      ((t.clients j).dead = false → (s.clients j).dead = false))
    (htraffic : t.traffic.queued = s.traffic.queued ∧ t.traffic.handled = s.traffic.handled ∧
      t.traffic.spilt = s.traffic.spilt) : t.Tidy := by
  obtain ⟨hqueued, hhandled, hspilt⟩ := htraffic
  refine ⟨?_, hspilt.trans h.sized.unspilt, hhandled ▸ h.sized.handled, hqueued ▸ h.sized.queued⟩
  intro j hj
  rw [(hclients j).1]
  exact h.room j ((hclients j).2 hj)

theorem Tidy.accept (h : s.Tidy) (addr : ℕ × ℕ) (now : ℕ) : (s.acceptClient addr now).Tidy := by
  obtain ⟨⟨hqueued, hhandled⟩, hspilt⟩ := s.acceptClient_traffic addr now
  refine ⟨?_, hspilt.trans h.sized.unspilt, hhandled ▸ h.sized.handled, hqueued ▸ h.sized.queued⟩
  rcases s.acceptClient_cases addr now with ⟨-, stats, heq⟩ | ⟨i, clients, -, heq, hothers, hi⟩
  · rw [heq]
    exact h.room
  · rw [heq]
    intro j hj
    dsimp only at hj ⊢
    by_cases hji : j = i
    · subst hji
      rw [hi]
      exact Nat.zero_le _
    · rw [hothers j hji] at hj ⊢
      exact h.room j hj

theorem Tidy.flush (h : s.Tidy) (i : Index) (res : Server.Sent) : (s.flush i res).Tidy := by
  have hcheck : ∀ {t : State}, t.Tidy → (t.checkBacklog i).Tidy := by
    intro t ht
    rw [checkBacklog]
    split
    · refine Tidy.drop ?_ i
      exact ht.quiet (fun _ => ⟨rfl, id⟩) ⟨rfl, rfl, congrArg Traffic.spilt (traffic_say _)⟩
    · exact ht
  rw [State.flush.eq_def]
  split
  · exact h
  · split
    · exact h.drop i
    · cases res with
      | failed => exact h.drop i
      | blocked => exact hcheck h
      | some k =>
        refine hcheck (h.quiet (fun j => ?_) ⟨rfl, rfl, rfl⟩)
        rw [clients_upd_quiet s i j (fun c => { c with tx := c.tx.discard k }) Slot.rx rfl,
          clients_upd_quiet s i j (fun c => { c with tx := c.tx.discard k }) Slot.dead rfl]
        exact ⟨rfl, id⟩

theorem Tidy.sweep (h : s.Tidy) (now : ℕ) : (s.sweep now).Tidy := by
  rw [State.sweep]
  generalize s.order = order
  induction order generalizing s with
  | nil => exact h
  | cons i order ih =>
    refine ih ?_
    rw [sweepOne]
    split
    · have hcounted : ({ s with stats :=
          { s.stats with helloTimeouts := s.stats.helloTimeouts + 1 } } : State).Tidy :=
        ⟨h.room, h.sized⟩
      exact hcounted.drop i
    · exact h

theorem Tidy.reap (h : s.Tidy) : s.reap.Tidy := by
  refine h.quiet (fun j => ?_) ⟨rfl, rfl, rfl⟩
  rw [State.reap]
  dsimp only
  split
  · exact ⟨rfl, id⟩
  · exact ⟨rfl, id⟩

/-- A read, of a client who is served. -/
theorem Tidy.service_serves (h : s.Tidy) (hlive : (s.clients i).dead = false) {data : List Byte}
    (hdata : data ≠ []) (hlen : data.length ≤ recvMax) :
    (s.clients i).rx.length + data.length ≤ rxCap ∧
      (s.hearing i data).Serves i (s.service i data) := by
  have hroom := h.room i hlive
  have hcap : recvMax + 200 ≤ rxCap := by decide
  have hfits : (s.clients i).rx.length + data.length ≤ rxCap := by omega
  refine ⟨hfits, ?_⟩
  rw [service, if_neg hdata, if_neg (Nat.not_lt_of_le hfits)]
  exact serviceLoop_serves (Nat.lt_succ_self _)

theorem Tidy.service (h : s.Tidy) (hlive : (s.clients i).dead = false) {data : List Byte}
    (hlen : data.length ≤ recvMax) : (s.service i data).Tidy := by
  by_cases hdata : data = []
  · rw [State.service, if_pos hdata]
    exact h.drop i
  · obtain ⟨-, hserves⟩ := h.service_serves hlive hdata hlen
    have htraffic : (s.hearing i data).traffic = s.traffic :=
      traffic_upd_quiet s i (fun c => { c with rx := (s.clients i).rx ++ data }) rfl
    refine ⟨?_, hserves.sized (htraffic ▸ h.sized)⟩
    intro j hj
    by_cases hji : j = i
    · subst hji
      rw [hserves.rx]
      exact parse_rest_le (hserves.good hj)
    · have hold : ((s.hearing i data).clients j) = s.clients j := by
        rw [hearing, taking, clients_upd, if_neg hji]
      have hdead := hserves.dead j hj
      rw [hold] at hdead
      rw [hserves.others j hji, hold]
      exact h.room j hdead

theorem step_recv {c k : ℕ} {data : List Byte} (h : port.step s (.loop (.recv c data k)) = some t) :
    data.length ≤ recvMax ∧ (s.wake c fun s i => s.service i data) = t := by
  have hstep : (if data.length ≤ recvMax then some (s.wake c fun s i => s.service i data)
      else none) = some t := h
  split at hstep
  · next hlen => exact ⟨hlen, Option.some.inj hstep⟩
  · cases hstep

theorem step_tidy {e : Event} (h : s.Tidy) (hstep : port.step s e = some t) : t.Tidy := by
  cases e with
  | reap =>
    obtain rfl : s.reap = t := Option.some.inj hstep
    exact h.reap
  | loop e =>
    cases e with
    | accept addr now =>
      obtain rfl : s.acceptClient addr now = t := Option.some.inj hstep
      exact h.accept addr now
    | sweep now =>
      obtain rfl : s.sweep now = t := Option.some.inj hstep
      exact h.sweep now
    | flush c res =>
      obtain rfl : (s.wake c fun s i => s.flush i res) = t := Option.some.inj hstep
      rcases s.wake_cases c fun s i => s.flush i res with hw | ⟨i, -, hw⟩
      · rw [hw]
        exact h
      · rw [hw]
        exact h.flush i res
    | recv c data k =>
      obtain ⟨hlen, rfl⟩ := step_recv hstep
      rcases s.wake_cases c fun s i => s.service i data with hw | ⟨i, hi, hw⟩
      · rw [hw]
        exact h
      · rw [hw]
        exact h.service hi.2.2 hlen

theorem tidy_of_init (h : port.init s) : s.Tidy := by
  obtain ⟨delay, variation, lobby, random, -, -, rfl⟩ := h
  exact ⟨fun _ _ => Nat.zero_le _, ⟨rfl, fun _ _ h => absurd h List.not_mem_nil,
    fun _ _ h => absurd h List.not_mem_nil⟩⟩

end State

/-- Take any run, and a client that is served. Nothing has run over: what is left in a connected
    client's buffer is at most 200 bytes, so the next read fits behind it; no frame handled has had
    more than 199 bytes of payload, and none queued is longer than 201. And from the chunk that is
    read next, this relay and the other one take the same frames, all those the greedy parse finds,
    and leave the same bytes, as long as their buffers were the same before; so it is with the next. -/
theorem receive_bounded {s₀ s : State} {es : List Event} (h₀ : port.init s₀)
    (hrun : port.run s₀ es = some s) :
    (∀ l ∈ s.log, l.spills = false) ∧ (∀ i, (s.clients i).dead = false → (s.clients i).rx.length ≤ 200) ∧
      (∀ c, ∀ f ∈ framesOf c s.trace, f.2.length ≤ 199) ∧
      (∀ c, ∀ data ∈ framesTo c s.trace, data.length ≤ 201) ∧
      ∀ (c k : ℕ) (data : List Byte) (t : State) (i : Index), data ≠ [] → s.Woken c i →
        port.step s (.loop (.recv c data k)) = some t →
        (s.clients i).rx.length + data.length ≤ rxCap ∧
          framesOf (s.conn i) t.trace = framesOf (s.conn i) s.trace ++
            (framer.parse ((s.clients i).rx ++ data)).frames ∧
          ((t.clients i).dead = false → (t.clients i).rx.length ≤ 200) ∧
          ∀ (p p' : Server) (d k' : ℕ), (p.obj d).rx = (s.clients i).rx →
            p.recv k' d data = .ok p' →
            framesOf d p'.trace = framesOf d p.trace ++
                (framer.parse ((s.clients i).rx ++ data)).frames ∧
              (p'.obj d).rx = (t.clients i).rx := by
  have htidy : s.Tidy := port.reachable_invariant (fun _ => State.tidy_of_init)
    (fun _ _ _ h => State.step_tidy h) ⟨s₀, es, h₀, hrun⟩
  refine ⟨?_, htidy.room, htidy.sized.handled, htidy.sized.queued, ?_⟩
  · exact fun l hl => Bool.eq_false_iff.mpr (List.any_eq_false.mp htidy.sized.unspilt l hl)
  · intro c k data t i hdata hi hstep
    have htidy' := State.step_tidy htidy hstep
    obtain ⟨hlen, hend⟩ := State.step_recv hstep
    rw [State.wake_woken hi] at hend
    obtain ⟨hfits, hserves⟩ := htidy.service_serves hi.2.2 hdata hlen
    rw [hend] at hserves
    have hrx : ((s.hearing i data).clients i).rx = (s.clients i).rx ++ data := by
      rw [State.hearing, State.taking, State.clients_upd, if_pos rfl]
    have hconn : (s.hearing i data).conn i = s.conn i := State.clients_upd_quiet s i i
      (fun c => { c with rx := (s.clients i).rx ++ data }) Slot.conn rfl
    have hframes := hserves.handled
    have hleft := hserves.rx
    rw [hrx] at hframes hleft
    rw [hconn] at hframes
    refine ⟨hfits, hframes, htidy'.room i, ?_⟩
    intro p p' d k' hsame hrecv
    have hheard : ((p.hearing d data).obj d).rx = (s.clients i).rx ++ data := by
      rw [Server.hearing, Server.taking_rx, hsame]
    have hservice : (p.hearing d data).service k' d = .ok p' := by
      rw [Server.recv, if_neg hdata] at hrecv
      exact hrecv
    obtain ⟨hframes', hleft'⟩ := Server.serviceLoop_parse (Nat.lt_succ_self _) hservice
    rw [hheard] at hframes' hleft'
    exact ⟨hframes', hleft'.trans hleft.symm⟩

/-- The rest of a HELLO of which three bytes have come, a BYE, a frame behind it, and the first byte of
    another. -/
def beyondBye : List Byte :=
  (hello ['A', 'L']).drop 3 ++ Relay.frame tBye [] ++ Relay.frame tPing [] ++ [9]

theorem receive_bounded_beyondBye : ∃ s t p p',
    port.run listening (cutHello.map .loop) = some s ∧
    port.step s (.loop (.recv 0 beyondBye 0)) = some t ∧
    relay.run Relay.listening cutHello = some p ∧ p.recv 0 0 beyondBye = .ok p' ∧
    (framer.parse ((hello ['A', 'L']).take 3 ++ beyondBye)).frames =
      [(tHello, [3, 0, 0x41, 0x4C]), (tBye, []), (tPing, [])] ∧
    framesOf 0 t.trace = framesOf 0 s.trace ++
      (framer.parse ((hello ['A', 'L']).take 3 ++ beyondBye)).frames ∧
    framesOf 0 p'.trace = framesOf 0 p.trace ++
      (framer.parse ((hello ['A', 'L']).take 3 ++ beyondBye)).frames ∧
    (p'.obj 0).rx = (t.clients 0).rx := by
  obtain ⟨s, hrun, hi, hrx, hconn, hstep⟩ : ∃ s, port.run listening (cutHello.map .loop) = some s ∧
      s.Woken 0 0 ∧ (s.clients 0).rx = (hello ['A', 'L']).take 3 ∧ s.conn 0 = 0 ∧
        (port.step s (.loop (.recv 0 beyondBye 0))).isSome = true :=
    port.exists_run (by decide +kernel)
  obtain ⟨p, hrun', hrx', hok⟩ : ∃ p, relay.run Relay.listening cutHello = some p ∧
      (p.obj 0).rx = (hello ['A', 'L']).take 3 ∧ (p.recv 0 0 beyondBye).isOk = true :=
    relay.exists_run (by decide +kernel)
  obtain ⟨t, ht⟩ := Option.isSome_iff_exists.mp hstep
  obtain ⟨p', hp'⟩ : ∃ p', p.recv 0 0 beyondBye = .ok p' := by
    cases hrecv : p.recv 0 0 beyondBye with
    | ok p' => exact ⟨p', rfl⟩
    | error e =>
      rw [hrecv] at hok
      cases hok
  obtain ⟨-, -, -, -, hnext⟩ := receive_bounded init_listening hrun
  obtain ⟨-, hframes, -, hother⟩ := hnext 0 0 beyondBye t 0 (by decide) hi ht
  obtain ⟨hframes', hleft⟩ := hother p p' 0 0 (hrx'.trans hrx.symm) hp'
  rw [hrx] at hframes hframes'
  rw [hconn] at hframes
  exact ⟨s, t, p, p', hrun, ht, hrun', hp', by decide +kernel, hframes, hframes', hleft⟩

end VO.Port
