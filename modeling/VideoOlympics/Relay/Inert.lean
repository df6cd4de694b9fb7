import VideoOlympics.Relay.Books

/-! What a client still does when it has been dropped. The service loop does not ask whether its
    client is connected, so whatever is left in the buffer is handled. Game frames go to the client
    it was matched with, and are counted; BYE, and a HELLO that is refused, do nothing any more. But
    a HELLO that is accepted takes a name and looks for a partner, JOIN looks for one as well, and
    LIST and PING are answered. -/

namespace VO.Relay

/-- A frame is taken on, or a game frame forwarded to this client. -/
def Act.Forwards (p : Option ℕ) : Act → Prop
  | .handled _ _ _ => True
  | .queued d data => p = some d ∧ ∃ ftype payload, ftype ∈ relayTypes ∧ data = frame ftype payload
  | _ => False

namespace Room

/-- A frame that is not answered, names nobody and finds no partner. -/
def Harmless (r : Room) (c : ℕ) (f : Frame) : Prop :=
  f.1 ≠ tList ∧ f.1 ≠ tPing ∧ ¬ (f.1 = tHello ∧ helloOk f.2 = true) ∧
    (f.1 = tJoin → r.others c = [])

instance (r : Room) (c : ℕ) (f : Frame) : Decidable (r.Harmless c f) :=
  inferInstanceAs (Decidable (_ ∧ _ ∧ _ ∧ _))

variable {r r' : Room} {c : ℕ} {ftype : Byte} {payload : List Byte}

theorem mem_clients_leave (h : r.clients.Nodup) (c : ℕ) : c ∉ (r.leave c).clients := by
  simp only [leave]
  by_cases hc : c ∈ r.clients
  · rw [if_neg (not_not.mpr hc)]
    have hunlink : ((r.note (.dropped c)).unlink c).clients = r.clients := by
      simp only [unlink]
      split
      · rfl
      · rfl
    simp only [hunlink]
    exact fun hmem => ((List.Nodup.mem_erase_iff h).mp hmem).1 rfl
  · rwa [if_pos hc]

/-- Nobody gets a partner by a drop. -/
theorem partner_leave {d q : ℕ} (h : (r.leave c).partner d = some q) : r.partner d = some q := by
  simp only [leave, unlink] at h
  split at h
  · exact h
  · dsimp only at h
    split at h
    · simp only [queue, Function.update_apply] at h
      split at h
      · cases h
      · exact h
    · exact h

/-- What is left for a harmless frame of a client that is not connected. -/
theorem Handles.harmless (h : r.Handles c ftype payload r') (hc : c ∉ r.clients)
    (hharmless : r.Harmless c (ftype, payload)) :
    r' = r ∨ ∃ q, r.partner c = some q ∧ ftype ∈ relayTypes ∧
      r' = r.queue q (frame ftype (ljust gamePayload payload)) := by
  obtain ⟨hlist, hping, hhello, hjoin⟩ := hharmless
  cases h with
  | relayed q ht hq => exact .inr ⟨q, hq, ht, rfl⟩
  | refused _ _ => exact .inl (leave_absent hc)
  | gone _ => exact .inl (leave_absent hc)
  | welcomed _ _ ht hok _ _ => exact absurd ⟨ht, hok⟩ hhello
  | listed ht => exact absurd ht hlist
  | pinged ht => exact absurd ht hping
  | joined _ ht hp =>
    cases hp with
    | alone _ => exact .inl rfl
    | met host _ _ _ hhost _ _ _ _ => rw [hjoin ht] at hhost; cases hhost
  | _ => exact .inl rfl

theorem harmless_of_ne (hhello : ftype ≠ tHello) (hlist : ftype ≠ tList) (hjoin : ftype ≠ tJoin)
    (hping : ftype ≠ tPing) : r.Harmless c (ftype, payload) :=
  ⟨hlist, hping, fun h => hhello h.1, fun h => absurd h hjoin⟩

theorem harmless_relayed (h : ftype ∈ relayTypes) : r.Harmless c (ftype, payload) := by
  have hne : ∀ t ∈ relayTypes, t ≠ tHello ∧ t ≠ tList ∧ t ≠ tJoin ∧ t ≠ tPing := by decide
  obtain ⟨hhello, hlist, hjoin, hping⟩ := hne ftype h
  exact harmless_of_ne hhello hlist hjoin hping

/-- No answer is a game frame. -/
theorem not_forwards {ftype : Byte} (ht : ftype ∉ relayTypes) (p : Option ℕ) (d : ℕ)
    (data : List Byte) : ¬ (Act.queued d (frame ftype data)).Forwards p := by
  rintro ⟨-, ftype', data', ht', heq⟩
  simp only [frame, List.cons.injEq] at heq
  exact ht (heq.2.1 ▸ ht')

/-- What any other frame leaves behind. -/
theorem Handles.stirs (h : r.Handles c ftype payload r') (hnot : ¬ r.Harmless c (ftype, payload))
    (p : Option ℕ) : ∃ as, r'.trace = r.trace ++ as ∧ ∃ a ∈ as, ¬ a.Forwards p := by
  cases h with
  | unheard ht _ => exact absurd (harmless_relayed ht) hnot
  | relayed _ ht _ => exact absurd (harmless_relayed ht) hnot
  | refused ht hbad =>
    refine absurd ⟨fun h => ?_, fun h => ?_, fun h => ?_, fun h => ?_⟩ hnot
    · exact absurd (ht.symm.trans h) (by decide)
    · exact absurd (ht.symm.trans h) (by decide)
    · exact absurd (hbad.symm.trans h.2) (by decide)
    · exact absurd (ht.symm.trans h) (by decide)
  | welcomed name _ _ _ _ hp =>
    obtain ⟨as, has⟩ := hp.trace
    exact ⟨.named c name :: as, by simp [← has, call], .named c name, List.mem_cons_self .., id⟩
  | listed _ => exact ⟨[_], rfl, _, List.mem_singleton_self _, not_forwards (by decide) p c _⟩
  | joined _ ht hp =>
    cases hp with
    | alone hnone =>
      refine absurd ⟨fun h => ?_, fun h => ?_, fun h => ?_, fun _ => hnone⟩ hnot
      · exact absurd (ht.symm.trans h) (by decide)
      · exact absurd (ht.symm.trans h) (by decide)
      · exact absurd (ht.symm.trans h.1) (by decide)
    | met host seed hn gn _ _ _ _ _ =>
      exact ⟨_, by simp only [meet, note, queue, List.append_assoc]; rfl, .matched host c seed,
        List.mem_cons_self .., id⟩
  | pinged _ => exact ⟨[_], rfl, _, List.mem_singleton_self _, not_forwards (by decide) p c _⟩
  | gone ht =>
    exact absurd (harmless_of_ne (ht ▸ by decide) (ht ▸ by decide) (ht ▸ by decide)
      (ht ▸ by decide)) hnot
  | unknown _ hhello hlist hjoin hping _ =>
    exact absurd (harmless_of_ne hhello hlist hjoin hping) hnot

end Room

namespace Server

/-- From one state to another, nothing has been done but game frames forwarded to this client, and
    checksums counted. -/
structure Inert (p : Option ℕ) (s s' : Server) : Prop where
  clients : s'.clients = s.clients
  byName : s'.byName = s.byName
  games : s'.stats.games = s.stats.games
  attrs : ∀ d, (s'.obj d).partner = (s.obj d).partner ∧ (s'.obj d).name = (s.obj d).name ∧
    (s'.obj d).role = (s.obj d).role
  acts : ∃ as, s'.trace = s.trace ++ as ∧ (∀ a ∈ as, a.Forwards p) ∧
    ∀ d, (s'.obj d).tx = (s.obj d).tx ++ queuedTo d as

/-- The whole frames at the front of a buffer, as many as the loop has turns for. -/
def framesIn : ℕ → List Byte → List Frame
  | 0, _ => []
  | turns + 1, bs =>
    match headOf bs with
    | .whole ftype payload rest => (ftype, payload) :: framesIn turns rest
    | _ => []

variable {s s' : Server} {k c : ℕ} {p : Option ℕ} {ftype : Byte} {payload : List Byte}

theorem framesIn_whole {turns : ℕ} {bs rest : List Byte}
    (h : headOf bs = .whole ftype payload rest) :
    framesIn (turns + 1) bs = (ftype, payload) :: framesIn turns rest := by
  rw [framesIn, h]

theorem Inert.refl (p : Option ℕ) (s : Server) : Inert p s s where
  clients := rfl
  byName := rfl
  games := rfl
  attrs _ := ⟨rfl, rfl, rfl⟩
  acts := ⟨[], by simp, by simp, by simp [queuedTo]⟩

theorem Inert.trans {s₁ : Server} (h : Inert p s s₁) (h' : Inert p s₁ s') : Inert p s s' where
  clients := h'.clients.trans h.clients
  byName := h'.byName.trans h.byName
  games := h'.games.trans h.games
  attrs d := ⟨(h'.attrs d).1.trans (h.attrs d).1, (h'.attrs d).2.1.trans (h.attrs d).2.1,
    (h'.attrs d).2.2.trans (h.attrs d).2.2⟩
  acts := by
    obtain ⟨as, htrace, hall, htx⟩ := h.acts
    obtain ⟨bs, htrace', hall', htx'⟩ := h'.acts
    refine ⟨as ++ bs, by rw [htrace', htrace, List.append_assoc], ?_, ?_⟩
    · intro a ha
      rcases List.mem_append.mp ha with ha | ha
      · exact hall a ha
      · exact hall' a ha
    · intro d
      rw [htx', htx, queuedTo_append, List.append_assoc]

theorem Inert.harmless (h : Inert p s s') (f : Frame) :
    s'.room.Harmless c f ↔ s.room.Harmless c f := by
  have hothers : s'.others c = s.others c := by
    simp only [others, idle, h.clients]
    congr 1
    refine List.filter_congr ?_
    intro d _
    rw [(h.attrs d).1, (h.attrs d).2.1]
  simp only [Room.Harmless, room_others, hothers]

/-! ### What the room does not see -/

/-- Names given, roles and matches made are as they were. -/
structure Still (s s' : Server) : Prop where
  byName : s'.byName = s.byName
  games : s'.stats.games = s.stats.games
  role : ∀ d, (s'.obj d).role = (s.obj d).role

theorem Still.refl (s : Server) : s.Still s := ⟨rfl, rfl, fun _ => rfl⟩

theorem Still.trans {s₁ : Server} (h : s.Still s₁) (h' : s₁.Still s') : s.Still s' :=
  ⟨h'.byName.trans h.byName, h'.games.trans h.games, fun d => (h'.role d).trans (h.role d)⟩

theorem Still.upd (h : s.Still s') (d : ℕ) (f : Client → Client)
    (hf : ∀ o, (f o).role = o.role) : s.Still (s'.upd d f) :=
  h.trans ⟨rfl, rfl, fun e => obj_upd_quiet s' d e f Client.role (hf _)⟩

theorem Still.say (h : s.Still s') (l : Line) : s.Still (s'.say l) :=
  h.trans ⟨rfl, rfl, fun _ => rfl⟩

theorem Still.note (h : s.Still s') (a : Act) : s.Still (s'.note a) :=
  h.trans ⟨rfl, rfl, fun _ => rfl⟩

theorem Still.send (h : s.Still s') (d : ℕ) (data : List Byte) : s.Still (s'.send d data) :=
  (h.upd d (fun o => { o with tx := o.tx ++ data }) fun _ => rfl).note _

/-- A second drop does nothing. -/
theorem drop_absent (hc : c ∉ s.clients) : s.drop c = s := if_pos hc

theorem Still.drop (h : s.Still s') (hclients : s'.clients = s.clients) (hc : c ∉ s.clients) :
    s.Still (s'.drop c) := by
  rw [drop_absent (hclients ▸ hc)]
  exact h

theorem still_pairCrc (s : Server) (c : ℕ) (tick crc : Byte) : s.Still (s.pairCrc c tick crc) := by
  have hset := (Still.refl s).upd c (fun o => { o with
    lap := lapOf (s.obj c) tick, lastTick := some tick
    crc := dictSet o.crc (lapOf (s.obj c) tick * 256 + tick.toNat) crc }) fun _ => rfl
  have hevict := hset.upd c (fun o => { o with crc := o.crc.drop (o.crc.length - 8) }) fun _ => rfl
  simp only [pairCrc]
  split
  · exact hevict
  · next q hq =>
    split
    · exact hevict
    · have hused := hset.upd q (fun o => { o with
        crc := o.crc.filter fun e => e.1 != lapOf (s.obj c) tick * 256 + tick.toNat }) fun _ => rfl
      split
      · exact ⟨hused.byName, hused.games, hused.role⟩
      · exact ⟨hused.byName, hused.games, hused.role⟩

theorem still_onHello (hc : c ∉ s.clients) (hbad : helloOk payload = false)
    (h : s.onHello k c payload = .ok s') : s.Still s' := by
  have htv := (Still.refl s).upd c (fun o => { o with tv := some (payload.getD 1 0) }) fun _ => rfl
  rw [onHello] at h
  simp only [helloOk] at hbad
  split at h
  · exact Except.ok.inj h ▸ ((Still.refl s).say _).drop rfl hc
  · next hver =>
    rw [if_neg hver] at hbad
    dsimp only at h
    split at h
    · exact Except.ok.inj h ▸ (htv.say _).drop rfl hc
    · next hsecam =>
      split at h
      · exact Except.ok.inj h ▸ (htv.say _).drop rfl hc
      · next hstd =>
        rw [if_neg (by tauto)] at hbad
        rw [if_neg (by simp [hbad])] at h
        exact Except.ok.inj h ▸ (htv.say _).drop rfl hc

theorem still_handle (hc : c ∉ s.clients) (hharmless : s.room.Harmless c (ftype, payload))
    (h : s.handle k c ftype payload = .ok s') : s.Still s' := by
  obtain ⟨hlist, hping, hhello, hjoin⟩ := hharmless
  have hnote := (Still.refl s).note (.handled c ftype payload)
  simp only [handle] at h
  split at h
  · obtain ⟨s₁, hfwd, h⟩ := bind_ok h
    have hsent : s.Still s₁ := by
      rcases forward_ok hfwd with ⟨-, rfl⟩ | ⟨q, -, rfl⟩
      · exact hnote
      · exact hnote.send q _
    rw [← Except.ok.inj h]
    split
    · exact hsent.trans (still_pairCrc ..)
    · exact hsent
  · split at h
    · next ht =>
      exact hnote.trans (still_onHello hc (by simpa [ht] using hhello) h)
    · split at h
      · next ht =>
        simp only [onJoin, tryPair] at h
        rw [show (s.note (.handled c ftype payload)).others c = [] from hjoin ht] at h
        exact Except.ok.inj h ▸ hnote
      · split at h
        · exact Except.ok.inj h ▸ hnote.drop rfl hc
        · exact Except.ok.inj h ▸ hnote.say _

/-! ### The frames that are left -/

/-- Something has been done that is more than forwarding. -/
def Stirred (p : Option ℕ) (s s' : Server) : Prop :=
  ∃ as, s'.trace = s.trace ++ as ∧ ∃ a ∈ as, ¬ a.Forwards p

theorem Stirred.not_inert (h : Stirred p s s') : ¬ Inert p s s' := by
  intro hinert
  obtain ⟨as, htrace, a, ha, hnot⟩ := h
  obtain ⟨bs, htrace', hall, -⟩ := hinert.acts
  have hsame : as = bs := List.append_cancel_left (htrace.symm.trans htrace')
  exact hnot (hall a (hsame ▸ ha))

theorem inert_taking (p : Option ℕ) (s : Server) (c : ℕ) (rest : List Byte) :
    Inert p s (s.taking c rest) where
  clients := rfl
  byName := rfl
  games := rfl
  attrs d := ⟨obj_upd_quiet s c d _ Client.partner rfl, obj_upd_quiet s c d _ Client.name rfl,
    obj_upd_quiet s c d _ Client.role rfl⟩
  acts := by
    refine ⟨[], by simp [taking, upd], by simp, fun d => ?_⟩
    rw [queuedTo, List.flatMap_nil, List.append_nil]
    exact obj_upd_quiet s c d _ Client.tx rfl

/-- A harmless frame of a client that is not connected. -/
theorem inert_handle (hc : c ∉ s.clients) (hp : ∀ q, (s.obj c).partner = some q → p = some q)
    (hharmless : s.room.Harmless c (ftype, payload)) (h : s.handle k c ftype payload = .ok s') :
    Inert p s s' := by
  have hstill := still_handle hc hharmless h
  have hquiet := (handle_ok h).harmless hc hharmless
  rcases hquiet with hroom | ⟨q, hq, ht, hroom⟩
  · refine ⟨congrArg Room.clients hroom, hstill.byName, hstill.games,
      fun d => ⟨?_, ?_, hstill.role d⟩,
      [.handled c ftype payload], congrArg Room.trace hroom, ?_, fun d => ?_⟩
    · exact congrFun (congrArg Room.partner hroom) d
    · exact congrFun (congrArg Room.name hroom) d
    · simp [Act.Forwards]
    · have htx : (s'.obj d).tx = (s.obj d).tx := congrFun (congrArg Room.tx hroom) d
      simp [htx, queuedTo, Act.dataFor]
  · refine ⟨congrArg Room.clients hroom, hstill.byName, hstill.games,
      fun d => ⟨?_, ?_, hstill.role d⟩,
      [.handled c ftype payload, .queued q (frame ftype (ljust gamePayload payload))],
      ?_, ?_, fun d => ?_⟩
    · exact congrFun (congrArg Room.partner hroom) d
    · exact congrFun (congrArg Room.name hroom) d
    · have htrace := congrArg Room.trace hroom
      simpa [Room.queue, Room.note] using htrace
    · intro a ha
      rcases List.mem_pair.mp ha with rfl | rfl
      · trivial
      · exact ⟨hp q hq, ftype, _, ht, rfl⟩
    · have htx := congrFun (congrArg Room.tx hroom) d
      simp only [room_tx, Room.queue, Room.note, Function.update_apply] at htx
      rw [htx]
      by_cases hd : d = q
      · simp [queuedTo, Act.dataFor, hd]
      · simp [queuedTo, Act.dataFor, hd, Ne.symm hd]

theorem serviceLoop_trace {turns : ℕ} (h : s.serviceLoop k turns c = .ok s') :
    s.trace <+: s'.trace := by
  refine serviceLoop_keeps (I := fun r => s.trace <+: r.trace) (P := fun _ _ _ _ => True) ?_
    (fun _ hr => hr) (fun r hr => hr.trans (r.leave_trace c)) (eachFrame_of_forall (by simp) _ _)
    List.prefix_rfl h
  intro s₁ r' _ _ _ _ hpre _ _ _ hh
  exact (hpre.trans (List.prefix_append _ _)).trans hh.trace

theorem Stirred.loop {s₁ : Server} {turns : ℕ} (h : Stirred p s s₁)
    (hloop : s₁.serviceLoop k turns c = .ok s') : Stirred p s s' := by
  obtain ⟨as, htrace, a, ha, hnot⟩ := h
  obtain ⟨bs, hbs⟩ := serviceLoop_trace hloop
  exact ⟨as ++ bs, by rw [← hbs, htrace, List.append_assoc], a, List.mem_append_left _ ha, hnot⟩

theorem Stirred.behind {s₁ : Server} (h : Inert p s s₁) (h' : Stirred p s₁ s') :
    Stirred p s s' := by
  obtain ⟨as, htrace, -⟩ := h.acts
  obtain ⟨bs, htrace', a, ha, hnot⟩ := h'
  exact ⟨as ++ bs, by rw [htrace', htrace, List.append_assoc], a, List.mem_append_right _ ha, hnot⟩

/-- A length byte no frame can have, from a client that is not connected. -/
theorem inert_badLength (p : Option ℕ) (hc : c ∉ s.clients) (n : Byte) :
    Inert p s (s.badLength c n) := by
  rw [badLength, drop_absent]
  · exact ⟨rfl, rfl, rfl, fun _ => ⟨rfl, rfl, rfl⟩, [], by simp [say], by simp,
      fun _ => (List.append_nil _).symm⟩
  · exact hc

/-- As long as they are harmless, the frames in the buffer of a client that is not connected are
    forwarded and counted. -/
theorem inert_serviceLoop {turns : ℕ} : ∀ {s : Server}, c ∉ s.clients →
    (∀ q, (s.obj c).partner = some q → p = some q) →
    (∀ f ∈ framesIn turns (s.obj c).rx, s.room.Harmless c f) →
    s.serviceLoop k turns c = .ok s' → Inert p s s' := by
  induction turns with
  | zero => exact fun _ _ _ h => by cases h
  | succ turns ih =>
    intro s hc hp hharmless h
    cases hhead : headOf (s.obj c).rx with
    | wait =>
      rw [serviceLoop, hhead] at h
      exact Except.ok.inj h ▸ .refl p s
    | bad n =>
      rw [serviceLoop, hhead] at h
      exact Except.ok.inj h ▸ inert_badLength p hc n
    | whole ftype payload rest =>
      rw [serviceLoop_whole hhead] at h
      rw [framesIn_whole hhead] at hharmless
      obtain ⟨s₁, h₁, h⟩ := bind_ok h
      have htaking := inert_taking p s c rest
      have hnow := (htaking.harmless (ftype, payload)).mpr (hharmless _ (List.mem_cons_self ..))
      have hframe := htaking.trans (inert_handle hc ((htaking.attrs c).1 ▸ hp) hnow h₁)
      refine hframe.trans (ih (hframe.clients ▸ hc) ((hframe.attrs c).1 ▸ hp) ?_ h)
      rw [handle_rx h₁, taking_rx]
      exact fun f hf => (hframe.harmless f).mpr (hharmless f (List.mem_cons_of_mem _ hf))

/-- One that is not does more. -/
theorem stirred_serviceLoop {turns : ℕ} : ∀ {s : Server}, c ∉ s.clients →
    (∀ q, (s.obj c).partner = some q → p = some q) →
    (¬ ∀ f ∈ framesIn turns (s.obj c).rx, s.room.Harmless c f) →
    s.serviceLoop k turns c = .ok s' → Stirred p s s' := by
  induction turns with
  | zero => exact fun _ _ _ h => by cases h
  | succ turns ih =>
    intro s hc hp hnot h
    cases hhead : headOf (s.obj c).rx with
    | wait => rw [framesIn, hhead] at hnot; exact absurd (by simp) hnot
    | bad n => rw [framesIn, hhead] at hnot; exact absurd (by simp) hnot
    | whole ftype payload rest =>
      rw [serviceLoop_whole hhead] at h
      rw [framesIn_whole hhead, List.forall_mem_cons] at hnot
      obtain ⟨s₁, h₁, h⟩ := bind_ok h
      have htaking := inert_taking p s c rest
      by_cases hnow : s.room.Harmless c (ftype, payload)
      · have hframe := htaking.trans
          (inert_handle hc ((htaking.attrs c).1 ▸ hp) ((htaking.harmless _).mpr hnow) h₁)
        refine .behind hframe (ih (hframe.clients ▸ hc) ((hframe.attrs c).1 ▸ hp) ?_ h)
        rw [handle_rx h₁, taking_rx]
        exact fun hlater => hnot ⟨hnow, fun f hf => (hframe.harmless f).mp (hlater f hf)⟩
      · have hstirs := (handle_ok h₁).stirs (fun hr => hnow ((htaking.harmless _).mp hr)) p
        obtain ⟨as, htrace, a, ha, hfar⟩ := hstirs
        have hmem := List.mem_cons_of_mem (.handled c ftype payload) ha
        refine Stirred.loop ⟨_, ?_, a, hmem, hfar⟩ h
        have htrace : s₁.trace = (s.trace ++ [.handled c ftype payload]) ++ as := htrace
        rw [htrace, List.append_assoc, List.singleton_append]

/-- Once a client has been dropped, what is left in its buffer is inert exactly if no whole frame of
    it asks for an answer, is a HELLO that is accepted, or is a JOIN while somebody is idle. -/
theorem dropped_inert_iff {turns : ℕ} (hnodup : s.clients.Nodup)
    (h : (s.drop c).serviceLoop k turns c = .ok s') :
    Inert (s.obj c).partner (s.drop c) s' ↔
      ∀ f ∈ framesIn turns ((s.drop c).obj c).rx, (s.drop c).room.Harmless c f := by
  have hc : c ∉ (s.drop c).clients := by
    rw [← room_clients, room_drop]
    exact Room.mem_clients_leave (r := s.room) hnodup c
  have hp : ∀ q, ((s.drop c).obj c).partner = some q → (s.obj c).partner = some q := by
    intro q hq
    rw [← room_partner, room_drop] at hq
    exact Room.partner_leave hq
  constructor
  · intro hinert
    by_contra hnot
    exact (stirred_serviceLoop hc hp hnot h).not_inert hinert
  · exact fun hharmless => inert_serviceLoop hc hp hharmless h

/-- BYE is a drop, and the loop goes on. -/
theorem serviceLoop_bye {turns : ℕ} {rest : List Byte}
    (hhead : headOf (s.obj c).rx = .whole tBye payload rest) :
    s.serviceLoop k (turns + 1) c =
      (((s.taking c rest).note (.handled c tBye payload)).drop c).serviceLoop k turns c := by
  rw [serviceLoop_whole hhead]
  rfl

end Server

/-- A call that comes back, and what it comes back with, found by making it. -/
theorem exists_ok {α : Type} {x : Except Err α} {Q : α → Prop} [DecidablePred Q]
    (h : x.toOption.any (fun a => decide (Q a)) = true) : ∃ a, x = .ok a ∧ Q a := by
  cases x with
  | error e => cases h
  | ok a => exact ⟨a, rfl, of_decide_eq_true h⟩

/-- One console waits and another connects. -/
def waiting : List Event := [.accept (0, 0) 0, .recv 0 (hello ['A', 'L']) 0, .accept (1, 0) 1]

/-- BYE and HELLO in one piece. -/
def byeThenHello : List Byte := frame tBye [] ++ hello ['B', 'O']

/-- Two consoles play, and the guest goes with an INPUT in its buffer. -/
def leaving (s : Server) : Server := s.hearing 1 (frame tInput (List.replicate gamePayload 0))

theorem dropped_inert_iff_leaving : ∃ s s',
    relay.run listening (waiting ++ [.recv 1 (hello ['B', 'O']) 0]) = some s ∧
    ((leaving s).drop 1).serviceLoop 0 17 1 = .ok s' ∧
    Server.Inert (some 0) ((leaving s).drop 1) s' := by
  obtain ⟨s, hrun, hnodup, hpartner, hharmless, hend⟩ : ∃ s,
      relay.run listening (waiting ++ [.recv 1 (hello ['B', 'O']) 0]) = some s ∧
      (leaving s).clients.Nodup ∧ ((leaving s).obj 1).partner = some 0 ∧
      (∀ f ∈ Server.framesIn 17 (((leaving s).drop 1).obj 1).rx,
        ((leaving s).drop 1).room.Harmless 1 f) ∧
      (((leaving s).drop 1).serviceLoop 0 17 1).toOption.any
        (fun s' => decide (s'.clients = [0])) = true :=
    relay.exists_run (by decide +kernel)
  obtain ⟨s', hs', -⟩ := exists_ok hend
  exact ⟨s, s', hrun, hs', hpartner ▸ (Server.dropped_inert_iff hnodup hs').mpr hharmless⟩

/-- A HELLO behind the BYE: the one who waits is paired with a console that is not there, and the
    name is taken for good. -/
theorem hello_after_bye : relay.init listening ∧ ∃ s t s', relay.run listening waiting = some s ∧
    t = ((s.hearing 1 byeThenHello).taking 1 (hello ['B', 'O'])).note (.handled 1 tBye []) ∧
    (s.hearing 1 byeThenHello).service 0 1 = (t.drop 1).serviceLoop 0 8 1 ∧
    (t.drop 1).serviceLoop 0 8 1 = .ok s' ∧ ¬ Server.Inert (t.obj 1).partner (t.drop 1) s' ∧
    s'.clients = [0] ∧ (s'.obj 0).partner = some 1 ∧ s'.byName.lookup ['B', 'O'] = some 1 := by
  refine ⟨init_listening, ?_⟩
  obtain ⟨s, hrun, hlen, hhead, hgames, hend⟩ : ∃ s, relay.run listening waiting = some s ∧
      ((s.hearing 1 byeThenHello).obj 1).rx.length = 8 ∧
      Server.headOf ((s.hearing 1 byeThenHello).obj 1).rx = .whole tBye [] (hello ['B', 'O']) ∧
      ((((s.hearing 1 byeThenHello).taking 1 (hello ['B', 'O'])).note
        (.handled 1 tBye [])).drop 1).stats.games = 0 ∧
      (((((s.hearing 1 byeThenHello).taking 1 (hello ['B', 'O'])).note
        (.handled 1 tBye [])).drop 1).serviceLoop 0 8 1).toOption.any (fun s' =>
          decide (s'.stats.games = 1 ∧ s'.clients = [0] ∧ (s'.obj 0).partner = some 1 ∧
            s'.byName.lookup ['B', 'O'] = some 1)) = true :=
    relay.exists_run (by decide +kernel)
  obtain ⟨s', hs', hgames', hclients, hpartner, hname⟩ := exists_ok hend
  refine ⟨s, _, s', hrun, rfl, ?_, hs', fun hinert => ?_, hclients, hpartner, hname⟩
  · rw [Server.service, hlen, Server.serviceLoop_bye hhead]
  · have hsame := hinert.games
    rw [hgames, hgames'] at hsame
    cases hsame

end VO.Relay
