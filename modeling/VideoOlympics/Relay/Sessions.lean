import VideoOlympics.Relay.Hall
import VideoOlympics.Relay.Resting

/-! Sessions of consoles that keep to the protocol: HELLO first and once, no JOIN, nothing after BYE.
    Then the trace is the log of a hall. A client that is no longer here has no link, or has said BYE
    and so says nothing more; that is what keeps what the server still handles for it from reaching
    anybody. -/

namespace VO.Relay

/-- HELLO is the first frame and no other is; JOIN is never sent, and nothing is sent after BYE. -/
def Conforming (fs : List Frame) : Prop :=
  (∀ f ∈ fs.head?, f.1 = tHello) ∧ (∀ f ∈ fs.tail, f.1 ≠ tHello ∧ f.1 ≠ tJoin) ∧
    ∀ f ∈ fs.dropLast, f.1 ≠ tBye

instance (fs : List Frame) : Decidable (Conforming fs) := inferInstanceAs (Decidable (_ ∧ _ ∧ _))

theorem Conforming.of_append {fs gs : List Frame} (h : Conforming (fs ++ gs)) : Conforming fs := by
  obtain ⟨hhead, htail, hlast⟩ := h
  refine ⟨?_, ?_, ?_⟩
  · intro f hf
    cases fs with
    | nil => cases hf
    | cons g fs => exact hhead f hf
  · intro f hf
    cases fs with
    | nil => cases hf
    | cons g fs => exact htail f (List.mem_append_left _ hf)
  · intro f hf
    cases gs with
    | nil => exact hlast f (by rwa [List.append_nil])
    | cons g gs =>
      rw [List.dropLast_append_of_ne_nil (List.cons_ne_nil g gs)] at hlast
      exact hlast f (List.mem_append_left _ ((List.dropLast_sublist _).subset hf))

/-- One more frame: the first, which is HELLO, or a later one, behind no BYE. -/
theorem Conforming.concat {fs : List Frame} {f : Frame} (h : Conforming (fs ++ [f])) :
    (fs = [] ∧ f.1 = tHello) ∨
      (fs ≠ [] ∧ f.1 ≠ tHello ∧ f.1 ≠ tJoin ∧ ∀ g ∈ fs, g.1 ≠ tBye) := by
  obtain ⟨hhead, htail, hlast⟩ := h
  rw [List.dropLast_concat] at hlast
  cases fs with
  | nil => exact .inl ⟨rfl, hhead f rfl⟩
  | cons g fs =>
    obtain ⟨hhello, hjoin⟩ := htail f (List.mem_append_right _ (List.mem_singleton_self f))
    exact .inr ⟨List.cons_ne_nil g fs, hhello, hjoin, hlast⟩

theorem framesOf_handled (c : ℕ) (ftype : Byte) (payload : List Byte) :
    framesOf c [.handled c ftype payload] = [(ftype, payload)] := by
  simp [framesOf, Act.frameOf]

/-- Every console has kept to the protocol. -/
def AllConform (trace : List Act) : Prop := ∀ c, Conforming (framesOf c trace)

/-- Who has sent anything. -/
def senders (trace : List Act) : List ℕ :=
  trace.filterMap fun a => match a with
    | .handled c _ _ => some c
    | _ => none

theorem framesOf_eq_nil {c : ℕ} {trace : List Act} (h : c ∉ senders trace) :
    framesOf c trace = [] := by
  rw [framesOf, List.filterMap_eq_nil_iff]
  intro a ha
  cases a with
  | handled d ftype payload =>
    have hd : d ≠ c := fun e => h (List.mem_filterMap.mpr ⟨_, ha, congrArg some e⟩)
    exact if_neg hd
  | _ => rfl

instance (trace : List Act) : Decidable (AllConform trace) :=
  decidable_of_iff (∀ c ∈ senders trace, Conforming (framesOf c trace)) <| by
    refine ⟨?_, fun h c _ => h c⟩
    intro h c
    by_cases hc : c ∈ senders trace
    · exact h c hc
    · rw [framesOf_eq_nil hc]
      decide

namespace Room

abbrev Conform (r : Room) : Prop := AllConform r.trace

theorem Conform.of_prefix {r r' : Room} (h : r'.Conform) (ht : r.trace <+: r'.trace) : r.Conform := by
  obtain ⟨as, has⟩ := ht
  intro c
  have hc := h c
  rw [← has, framesOf_append] at hc
  exact hc.of_append

theorem Move.trace {r r' : Room} (h : r.Move r') : r.trace <+: r'.trace := by
  cases h with
  | join => exact List.prefix_append _ _
  | leave c _ => exact r.leave_trace c
  | take c n _ => exact List.prefix_refl _

/-! ### The hall behind the room -/

/-- The trace is the log of this hall, and the clients are the people in it. -/
structure Tracks (delay variation : ℤ) (r : Room) (h : Hall) : Prop where
  log : (hall delay variation).Dialogue r.trace h
  delay : r.delay = delay
  variation : r.variation = variation
  here : h.here = r.clients
  past : ∀ c, c ∈ h.past ↔ c < r.next
  name : h.name = r.name
  opponent : ∀ c ∈ r.clients, h.opponent c = r.partner c
  unsent : ∀ c, framesOf c r.trace = [] → r.name c = none
  unnamed : ∀ c, r.name c = none → r.partner c = none

variable {delay variation : ℤ} {r r' : Room} {h : Hall} {c : ℕ}

theorem Tracks.sound (ht : Tracks delay variation r h) : h.Sound := hall_sound ht.log

theorem Tracks.lobby (ht : Tracks delay variation r h) : h.lobby = r.lobby := by
  simp only [Hall.lobby, Room.lobby]
  rw [ht.here, ht.name]
  have hes : (r.clients.filterMap fun c =>
      (r.name c).map fun name => Server.entry name (h.opponent c).isSome) =
      r.clients.filterMap fun c =>
        (r.name c).map fun name => Server.entry name (r.partner c).isSome :=
    List.filterMap_congr fun c hc => by rw [ht.opponent c hc]
  rw [hes]

/-- A frame is taken on, and answered. -/
theorem Tracks.handled (ht : Tracks delay variation r h) (hc : c < r.next) (ftype : Byte)
    (payload : List Byte) (rx tx : ℕ → List Byte) {as : List Act}
    (has : h.answers delay variation (.handled c ftype payload) = as) :
    Tracks delay variation { r with
      rx := rx, tx := tx, trace := r.trace ++ .handled c ftype payload :: as } h where
  log := has ▸ ht.log.act (R := hall delay variation) (a := .handled c ftype payload)
    ((ht.past c).mpr hc)
  delay := ht.delay
  variation := ht.variation
  here := ht.here
  past := ht.past
  name := ht.name
  opponent := ht.opponent
  unsent d hd := by
    rw [framesOf_append, List.append_eq_nil_iff] at hd
    exact ht.unsent d hd.1
  unnamed := ht.unnamed

/-- A client who is here and has no name takes one. -/
theorem Tracks.call (ht : Tracks delay variation r h) (hc : c ∈ r.clients)
    (hnone : r.name c = none) (hsent : framesOf c r.trace ≠ []) (name : Name) :
    Tracks delay variation (r.call c name) (h.after (.named c name)) where
  log := ht.log.act (R := hall delay variation) (a := .named c name)
    ⟨ht.here ▸ hc, ht.name ▸ hnone⟩
  delay := ht.delay
  variation := ht.variation
  here := ht.here
  past := ht.past
  name := by simp only [Hall.after, Room.call, ht.name]
  opponent := ht.opponent
  unsent d hd := by
    simp only [Room.call, framesOf_append, List.append_eq_nil_iff] at hd
    have hdc : d ≠ c := fun e => hsent (e ▸ hd.1)
    simp only [Room.call, Function.update_of_ne hdc]
    exact ht.unsent d hd.1
  unnamed d hd := by
    by_cases hdc : d = c
    · simp only [Room.call, hdc, Function.update_self] at hd
      cases hd
    · simp only [Room.call, Function.update_of_ne hdc] at hd
      exact ht.unnamed d hd

/-- The client who has just come meets one who waits. -/
theorem Tracks.meet (ht : Tracks delay variation r h) {host seed : ℕ} {hn gn : Name}
    (hhost : host ∈ r.others c) (hlo : 1 ≤ seed) (hhi : seed < 0x10000)
    (hhn : r.name host = some hn) (hgn : r.name c = some gn) (hc : c ∈ r.clients)
    (hfree : r.partner c = none) (hcame : h.came = some c) :
    Tracks delay variation (r.meet host c seed hn gn) (h.after (.matched host c seed)) := by
  obtain ⟨hin, hsome, hhfree, hne⟩ := mem_others.mp hhost
  have hallowed : h.allowed (.matched host c seed) := by
    refine ⟨hne, ⟨ht.here ▸ hin, ht.here ▸ hc⟩, ⟨?_, ?_⟩, ⟨?_, ?_⟩, hcame, hlo, hhi⟩
    · rw [ht.opponent host hin, hhfree]
    · rw [ht.opponent c hc, hfree]
    · rw [ht.name, hhn, Option.isSome_some]
    · rw [ht.name, hgn, Option.isSome_some]
  have hanswers : h.answers delay variation (.matched host c seed) =
      [.queued host (startOf 0 seed delay variation gn),
        .queued c (startOf 1 seed delay variation hn)] := by
    simp only [Hall.answers, ht.name, hhn, hgn, Option.getD_some]
  have htrace : (r.meet host c seed hn gn).trace =
      r.trace ++ .matched host c seed :: h.answers delay variation (.matched host c seed) := by
    rw [hanswers]
    simp only [Room.meet, Room.queue, Room.note, ht.delay, ht.variation, List.append_assoc,
      List.cons_append, List.nil_append]
  refine ⟨htrace ▸ ht.log.act (R := hall delay variation) hallowed, ht.delay, ht.variation, ht.here,
    ht.past, ht.name, ?_, ?_, ?_⟩
  · intro d hd
    simp only [Hall.after, Room.meet, Room.queue, Room.note, Function.update_apply]
    split
    · rfl
    · split
      · rfl
      · exact ht.opponent d hd
  · intro d hd
    rw [htrace, framesOf_append, List.append_eq_nil_iff] at hd
    exact ht.unsent d hd.1
  · intro d hd
    have hdc : d ≠ c := fun e => absurd ((e ▸ hd : r.name c = none).symm.trans hgn) (by simp)
    have hdh : d ≠ host := fun e => absurd ((e ▸ hd : r.name host = none).symm.trans hhn) (by simp)
    simp only [Room.meet, Room.queue, Room.note, Function.update_of_ne hdc, Function.update_of_ne hdh]
    exact ht.unnamed d hd

/-- A client goes. -/
theorem Tracks.leave (ht : Tracks delay variation r h) (hc : c ∈ r.clients) :
    Tracks delay variation (r.leave c) (h.after (.dropped c)) := by
  obtain ⟨hclients, hpartner⟩ := leave_present hc
  obtain ⟨hdelay, hvariation, hnext, hname, -⟩ := r.leave_fixed c
  have hnodup : r.clients.Nodup := ht.here ▸ ht.sound.nodup
  have htrace : (r.leave c).trace =
      r.trace ++ .dropped c :: h.answers delay variation (.dropped c) := by
    simp only [Room.leave, Room.unlink]
    simp only [Hall.answers, ht.opponent c hc, hc, not_true_eq_false, if_false, Room.note]
    cases r.partner c with
    | none => rfl
    | some p => simp only [Room.queue, List.append_assoc, List.cons_append, List.nil_append]
  have hallowed : h.allowed (.dropped c) := by
    change c ∈ h.here
    rwa [ht.here]
  refine ⟨htrace ▸ ht.log.act (R := hall delay variation) hallowed, hdelay ▸ ht.delay,
    hvariation ▸ ht.variation, ?_, hnext ▸ ht.past, hname ▸ ht.name, ?_, ?_, ?_⟩
  · simp only [Hall.after, ht.here, hclients]
  · intro d hd
    rw [hclients, List.Nodup.mem_erase_iff hnodup] at hd
    rw [hpartner]
    simp only [Hall.after, ht.opponent c hc]
    cases r.partner c with
    | none => exact ht.opponent d hd.2
    | some p =>
      simp only [Function.update_of_ne hd.1, Function.update_apply]
      split
      · rfl
      · exact ht.opponent d hd.2
  · intro d hd
    rw [htrace, framesOf_append, List.append_eq_nil_iff] at hd
    exact hname ▸ ht.unsent d hd.1
  · intro d hd
    rw [hname] at hd
    rw [hpartner]
    cases r.partner c with
    | none => exact ht.unnamed d hd
    | some p =>
      simp only [Function.update_apply]
      split
      · rfl
      · exact ht.unnamed d hd

/-- A connection is made. -/
theorem Tracks.join (ht : Tracks delay variation r h) (hfresh : r.name r.next = none) :
    Tracks delay variation r.join (h.after (.accepted r.next)) := by
  have hnew : r.next ∉ h.past := fun hmem => Nat.lt_irrefl _ ((ht.past _).mp hmem)
  have habsent : h.opponent r.next = none :=
    ht.sound.absent _ fun hmem => hnew (ht.sound.past _ hmem)
  refine ⟨ht.log.act (R := hall delay variation) (a := .accepted r.next) hnew, ht.delay,
    ht.variation, ?_, ?_, ?_, ?_, ?_, ?_⟩
  · simp only [Hall.after, Room.join, ht.here]
  · intro d
    simp only [Hall.after, Room.join, List.mem_append, List.mem_singleton, ht.past d]
    omega
  · simp only [Hall.after, Room.join, update_same hfresh, ht.name]
  · intro d hd
    simp only [Hall.after, Room.join, Function.update_apply]
    split
    · next hdn => rw [hdn, habsent]
    · next hdn =>
      rcases List.mem_append.mp hd with hd | hd
      · exact ht.opponent d hd
      · exact absurd (List.mem_singleton.mp hd) hdn
  · intro d hd
    simp only [Room.join, framesOf_append, List.append_eq_nil_iff] at hd
    simp only [Room.join, update_same hfresh]
    exact ht.unsent d hd.1
  · intro d hd
    simp only [Room.join, update_same hfresh] at hd
    simp only [Room.join, Function.update_apply]
    split
    · rfl
    · exact ht.unnamed d hd

/-- The kernel takes bytes, or the console sends some. -/
theorem Tracks.bytes (ht : Tracks delay variation r h) (rx tx taken : ℕ → List Byte) :
    Tracks delay variation { r with rx := rx, tx := tx, taken := taken } h :=
  ⟨ht.log, ht.delay, ht.variation, ht.here, ht.past, ht.name, ht.opponent, ht.unsent, ht.unnamed⟩

/-! ### The service loop -/

/-- A client being served is here; or it has no link, or it has said BYE. -/
def Present (r : Room) (c : ℕ) : Prop :=
  c ∈ r.clients ∨ framesOf c r.trace ≠ [] ∧
    (r.partner c = none ∨ ∃ f ∈ framesOf c r.trace, f.1 = tBye)

/-- A client in the service loop. -/
structure Serving (delay variation : ℤ) (base : ℕ → List Byte) (c : ℕ) (r : Room) : Prop where
  accounts : r.Accounts base
  known : c < r.next
  tracks : r.Conform → (∃ h, Tracks delay variation r h) ∧ r.Present c

theorem Tracks.drop (ht : Tracks delay variation r h) (c : ℕ) :
    ∃ h, Tracks delay variation (r.leave c) h := by
  by_cases hc : c ∈ r.clients
  · exact ⟨_, ht.leave hc⟩
  · rw [leave_absent hc]
    exact ⟨h, ht⟩

theorem queue_note (r : Room) (c p : ℕ) (rest data : List Byte) (a : Act) :
    ((r.setRx c rest).note a).queue p data = { r with
      rx := Function.update r.rx c rest, tx := Function.update r.tx p (r.tx p ++ data)
      trace := r.trace ++ a :: [.queued p data] } := by
  simp only [Room.queue, Room.note, setRx, List.append_assoc, List.cons_append, List.nil_append]

theorem Present.mono (h : r.Present c) (hclients : r'.clients = r.clients)
    (hpartner : r'.partner = r.partner) (ht : r.trace <+: r'.trace) : r'.Present c := by
  obtain ⟨as, has⟩ := ht
  simp only [Present]
  rw [hclients, hpartner, ← has, framesOf_append]
  refine h.imp_right fun ⟨hsome, hwhy⟩ => ⟨fun h => hsome (List.append_eq_nil_iff.mp h).1, ?_⟩
  exact hwhy.imp_right fun ⟨f, hf, hbye⟩ => ⟨f, List.mem_append_left _ hf, hbye⟩

/-- Until it has said BYE, a client being served has the link the hall says it has. -/
theorem Tracks.opponent_of_present (ht : Tracks delay variation r h) (hpresent : r.Present c)
    (hbye : ∀ g ∈ framesOf c r.trace, g.1 ≠ tBye) : h.opponent c = r.partner c := by
  by_cases hc : c ∈ r.clients
  · exact ht.opponent c hc
  · rw [ht.sound.absent c (ht.here ▸ hc)]
    rcases hpresent with h | ⟨-, h | ⟨f, hf, h⟩⟩
    · exact absurd h hc
    · exact h.symm
    · exact absurd h (hbye f hf)

/-- A frame that is not answered where it is taken on. -/
theorem Tracks.taken (ht : Tracks delay variation r h) (hknown : c < r.next) (ftype : Byte)
    (payload rest : List Byte)
    (has : h.answers delay variation (.handled c ftype payload) = []) :
    Tracks delay variation ((r.setRx c rest).note (.handled c ftype payload)) h :=
  ht.handled hknown ftype payload _ _ has

theorem framesOf_mono {as bs : List Act} (h : as <+: bs) {f : Frame}
    (hf : f ∈ framesOf c as) : f ∈ framesOf c bs := (h.filterMap _).subset hf

theorem mem_framesOf_taken (r : Room) (c : ℕ) (ftype : Byte) (payload rest : List Byte) :
    (ftype, payload) ∈ framesOf c ((r.setRx c rest).note (.handled c ftype payload)).trace := by
  simp [setRx, Room.note, framesOf_append, framesOf_handled]

/-- The first frame is a HELLO, of a client who is here and has neither name nor link. -/
theorem Tracks.hello (ht : Tracks delay variation r h) (hc : c ∈ r.clients) (hknown : c < r.next)
    (hfirst : framesOf c r.trace = []) {payload rest : List Byte}
    (hh : ((r.setRx c rest).note (.handled c tHello payload)).Handles c tHello payload r') :
    (∃ h, Tracks delay variation r' h) ∧ r'.Present c := by
  have hnone := ht.unsent c hfirst
  have hfree := ht.unnamed c hnone
  have ht₁ := ht.taken hknown tHello payload rest rfl
  have hsent := mem_framesOf_taken r c tHello payload rest
  generalize hr₁ : (r.setRx c rest).note (.handled c tHello payload) = r₁ at hh ht₁ hsent
  have hc₁ : c ∈ r₁.clients := hr₁ ▸ hc
  have hnone₁ : r₁.name c = none := hr₁ ▸ hnone
  have hfree₁ : r₁.partner c = none := hr₁ ▸ hfree
  cases hh with
  | refused _ _ =>
    obtain ⟨-, hpartner⟩ := leave_present hc₁
    have hfree' : (r₁.leave c).partner c = none := by
      rw [hpartner, hfree₁]
      exact hfree₁
    exact ⟨ht₁.drop c,
      .inr ⟨List.ne_nil_of_mem (framesOf_mono (r₁.leave_trace c) hsent), .inl hfree'⟩⟩
  | welcomed name _ _ _ _ hp =>
    have htcall := ht₁.call hc₁ hnone₁ (List.ne_nil_of_mem hsent) name
    cases hp with
    | alone _ => exact ⟨⟨_, htcall⟩, .inl hc₁⟩
    | met host seed hn gn hhost hlo hhi hhn hgn =>
      exact ⟨⟨_, htcall.meet hhost hlo hhi hhn hgn hc₁ hfree₁ rfl⟩, .inl hc₁⟩
  | unheard hrelay _ => exact absurd hrelay (by decide)
  | relayed _ hrelay _ => exact absurd hrelay (by decide)
  | listed h => exact absurd h (by decide)
  | joined _ h _ => exact absurd h (by decide)
  | pinged h => exact absurd h (by decide)
  | gone h => exact absurd h (by decide)
  | unknown _ h _ _ _ _ => exact absurd rfl h

/-- A later frame is neither HELLO nor JOIN, and its sender has not said BYE. -/
theorem Tracks.later (ht : Tracks delay variation r h) (hpresent : r.Present c) (hknown : c < r.next)
    {ftype : Byte} {payload rest : List Byte} (hhello : ftype ≠ tHello) (hjoin : ftype ≠ tJoin)
    (hbye : ∀ g ∈ framesOf c r.trace, g.1 ≠ tBye)
    (hh : ((r.setRx c rest).note (.handled c ftype payload)).Handles c ftype payload r') :
    (∃ h, Tracks delay variation r' h) ∧ r'.Present c := by
  have hopponent := ht.opponent_of_present hpresent hbye
  have hprefix := (List.prefix_append r.trace [.handled c ftype payload]).trans hh.trace
  have htaken := ht.taken hknown ftype payload rest
  have hqueued : ∀ p data, h.answers delay variation (.handled c ftype payload) =
      [.queued p data] → Tracks delay variation
        (((r.setRx c rest).note (.handled c ftype payload)).queue p data) h := by
    intro p data has
    rw [queue_note]
    exact ht.handled hknown ftype payload _ _ has
  cases hh with
  | unheard hrelay hp =>
    have hp : r.partner c = none := hp
    exact ⟨⟨h, htaken (by simp only [Hall.answers, if_pos hrelay, hopponent, hp])⟩,
      hpresent.mono rfl rfl hprefix⟩
  | relayed p hrelay hp =>
    have hp : r.partner c = some p := hp
    exact ⟨⟨h, hqueued p _ (by simp only [Hall.answers, if_pos hrelay, hopponent, hp])⟩,
      hpresent.mono rfl rfl hprefix⟩
  | listed hlist =>
    subst hlist
    exact ⟨⟨h, hqueued c _ (congrArg (fun data => [Act.queued c data]) ht.lobby)⟩,
      hpresent.mono rfl rfl hprefix⟩
  | pinged hping =>
    subst hping
    exact ⟨⟨h, hqueued c _ rfl⟩, hpresent.mono rfl rfl hprefix⟩
  | gone hgone =>
    subst hgone
    have hmem := framesOf_mono (leave_trace _ c) (mem_framesOf_taken r c tBye payload rest)
    exact ⟨(htaken rfl).drop c, .inr ⟨List.ne_nil_of_mem hmem, .inr ⟨_, hmem, rfl⟩⟩⟩
  | unknown hrelay _ hlist _ hping _ =>
    exact ⟨⟨h, htaken (by simp only [Hall.answers, if_neg hrelay, if_neg hlist, if_neg hping])⟩,
      hpresent.mono rfl rfl hprefix⟩
  | refused h _ => exact absurd h hhello
  | welcomed _ _ h _ _ _ => exact absurd h hhello
  | joined _ h _ => exact absurd h hjoin

theorem Serving.frame {base : ℕ → List Byte} {n ftype : Byte} {payload rest : List Byte}
    (hs : Serving delay variation base c r) (hrx : r.rx c = n :: ftype :: (payload ++ rest))
    (hlen : payload.length + 1 = n.toNat)
    (hh : ((r.setRx c rest).note (.handled c ftype payload)).Handles c ftype payload r') :
    Serving delay variation base c r' := by
  have haccounts := hs.accounts.frame hs.known hrx hlen
  refine ⟨haccounts.handles hs.known hh, ?_, ?_⟩
  · rw [hh.fixed.1]
    exact hs.known
  · intro hconform
    have hbefore : r.Conform :=
      hconform.of_prefix ((List.prefix_append r.trace [.handled c ftype payload]).trans hh.trace)
    obtain ⟨⟨h, ht⟩, hpresent⟩ := hs.tracks hbefore
    have hnow : Conforming (framesOf c r.trace ++ [(ftype, payload)]) := by
      have := hconform.of_prefix hh.trace c
      rwa [Room.note, framesOf_append, framesOf_handled] at this
    rcases hnow.concat with ⟨hfirst, hhello⟩ | ⟨hlater, hhello, hjoin, hbye⟩
    · have hc : c ∈ r.clients := hpresent.elim id fun h => absurd hfirst h.1
      obtain rfl : ftype = tHello := hhello
      exact ht.hello hc hs.known hfirst hh
    · exact ht.later hpresent hs.known hhello hjoin hbye hh

end Room

namespace Server

/-- The books are in order, and if the consoles keep to the protocol there is a hall. -/
structure Session (delay variation : ℤ) (base : ℕ → List Byte) (r : Room) : Prop where
  accounts : r.Accounts base
  tracks : r.Conform → ∃ h, r.Tracks delay variation h

variable {delay variation : ℤ}

theorem Session.move {base : ℕ → List Byte} {r r' : Room} (hs : Session delay variation base r)
    (hmove : r.Move r') : Session delay variation base r' := by
  refine ⟨hs.accounts.move hmove, ?_⟩
  intro hconform
  obtain ⟨h, ht⟩ := hs.tracks (hconform.of_prefix hmove.trace)
  cases hmove with
  | join => exact ⟨_, ht.join (hs.accounts.fresh _ (Nat.le_refl _)).1⟩
  | leave c hc => exact ⟨_, ht.leave hc⟩
  | take c n _ => exact ⟨h, ht.bytes r.rx _ _⟩

theorem step_session {base : ℕ → List Byte} {s t : Server} {e : Event}
    (hs : Session delay variation base s.room) (h : s.step e = some t) :
    Session delay variation (fun d => base d ++ sentBy d e) t.room := by
  rcases step_cases h with ⟨hmoves, hsent⟩ | ⟨c, data, k, rfl, -, hc, hservice⟩
  · have hbase : (fun d => base d ++ sentBy d e) = base := by
      funext d
      rw [hsent d, List.append_nil]
    rw [hbase]
    exact hmoves.keeps (fun _ _ hs hmove => hs.move hmove) hs
  · have hknown : c < s.next := hs.accounts.clients c hc
    have hbase : (fun d => base d ++ sentBy d (.recv c data k)) =
        Function.update base c (base c ++ data) := by
      funext d
      rw [Function.update_apply, sentBy]
      by_cases hd : d = c
      · rw [if_pos hd.symm, if_pos hd, hd]
      · rw [if_neg (Ne.symm hd), if_neg hd, List.append_nil]
    rw [hbase]
    refine serviceLoop_keeps (I := Room.Serving delay variation
      (Function.update base c (base c ++ data)) c) (P := fun _ _ _ _ => True) ?_ ?_ ?_
      (eachFrame_of_forall (fun _ _ _ _ => trivial) _ _) ?_ hservice
    · intro s r' n ftype payload rest hserving hrx hlen _ hh
      exact hserving.frame hrx hlen hh
    · exact fun r hr => ⟨hr.accounts, fun hconform => (hr.tracks hconform).1⟩
    · intro r hr
      refine ⟨hr.accounts.leave c, ?_⟩
      intro hconform
      obtain ⟨⟨h, ht⟩, -⟩ := hr.tracks (hconform.of_prefix (r.leave_trace c))
      exact ht.drop c
    · rw [hearing, room_taking]
      refine ⟨hs.accounts.receive hknown data, hknown, ?_⟩
      intro hconform
      obtain ⟨h, ht⟩ := hs.tracks hconform
      exact ⟨⟨h, ht.bytes _ s.room.tx s.room.taken⟩, .inl hc⟩

end Server

/-- What a client has sent in a run. -/
def received (c : ℕ) (es : List Event) : List Byte := es.flatMap (Server.sentBy c)

theorem run_session {delay variation : ℤ} {es : List Event} {base : ℕ → List Byte} {s t : Server}
    (hs : Server.Session delay variation base s.room) (hrun : relay.run s es = some t) :
    Server.Session delay variation (fun c => base c ++ received c es) t.room := by
  induction es generalizing base s with
  | nil =>
    rw [Machine.run_nil, Option.some.injEq] at hrun
    simpa [received, hrun] using hs
  | cons e es ih =>
    obtain ⟨u, hu, hrest⟩ := relay.run_cons_some.mp hrun
    have := ih (Server.step_session hs hu) hrest
    simpa only [received, List.flatMap_cons, List.append_assoc] using this

theorem session_of_init {s : Server} (h : relay.init s) :
    Server.Session s.delay s.variation (fun _ => []) s.room := by
  obtain ⟨delay, variation, lobby, random, -, -, rfl⟩ := h
  refine ⟨⟨⟨fun _ _ => ⟨rfl, rfl, rfl⟩, ?_, ?_, fun _ => rfl⟩, fun _ => rfl⟩, fun _ =>
    ⟨Hall.empty, .start, rfl, rfl, rfl, ?_, rfl, ?_, fun _ _ => rfl, fun _ _ => rfl⟩⟩
  · intro _ _ h
    cases h
  · intro _ h
    cases h
  · intro c
    exact iff_of_false (List.not_mem_nil) (Nat.not_lt_zero c)
  · intro _ h
    cases h

/-- As long as every console keeps to the protocol, the relay is a hall. Its trace is a dialogue of
    it, so that a game frame makes for one append, to the opponent, and a match, and a drop of one
    who has an opponent, for theirs; the appends are what the queues hold and the kernel has taken,
    and the frames what has been received, but for less than a frame at the end of what a connected
    client has sent. Who has been dropped never has an opponent again. -/
theorem sessions_isolated {s₀ s : Server} {es : List Event} (h₀ : relay.init s₀)
    (hrun : relay.run s₀ es = some s) (hconform : AllConform s.trace) :
    (∃ h, (hall s₀.delay s₀.variation).Dialogue s.trace h ∧ h.here = s.clients ∧
        ∀ c ∈ s.clients, h.name c = (s.obj c).name ∧ h.opponent c = (s.obj c).partner) ∧
      (∀ c, queuedTo c s.trace = s.taken c ++ (s.obj c).tx) ∧
      (∀ c, received c es = wire (framesOf c s.trace) ++ (s.obj c).rx) ∧
      (∀ c ∈ s.clients, Server.headOf (s.obj c).rx = .wait) ∧
      ∀ log h, log <+: s.trace → (hall s₀.delay s₀.variation).Dialogue log h →
        Pairing h.here h.opponent ∧
          ∀ c, .dropped c ∈ log → c ∉ h.here ∧ h.opponent c = none := by
  have hsession := run_session (session_of_init h₀) hrun
  obtain ⟨h, ht⟩ := hsession.tracks hconform
  refine ⟨⟨h, ht.log, ht.here, fun c hc => ⟨congrFun ht.name c, ht.opponent c hc⟩⟩,
    hsession.accounts.queued, ?_, resting_of_run h₀ hrun,
    fun log h _ hlog => ⟨(hall_sound hlog).pairing, ?_⟩⟩
  · intro c
    exact ((hsession.accounts.heard c).trans (List.nil_append _)).symm
  · intro c hc
    have hgone := (hall_dropped hlog hc).2
    exact ⟨hgone, (hall_sound hlog).absent c hgone⟩

/-- Two consoles play, in chunks that do not respect the frames; one leaves, the other is dropped
    for a length byte no frame has, and the third, who waits, meets a fourth, who has sent the
    beginning of an INPUT behind its HELLO. -/
def evening : List Event :=
  threeConsoles ++
    [.recv 0 [3, tInput, 5] 0, .recv 1 (frame tPing [] ++ frame tState [9, 8]) 0,
      .recv 0 [7, 1, tBye] 0, .flush 1 (.some 20), .recv 1 [2, tState, 9, 0] 0, .accept (3, 0) 3,
      .recv 3 (hello ['C', 'Y'] ++ [16, tInput]) 3]

/-- What is appended for whom: the two STARTs of each match, the guest's STATE to the host and the
    host's INPUT to the guest, padded, then PEER_LEFT; and nothing of that to the third. -/
theorem sessions_isolated_evening : ∃ s, relay.run listening evening = some s ∧
    (AllConform s.trace ∧ s.clients = [2, 3] ∧ (s.obj 2).partner = some 3 ∧ .dropped 0 ∈ s.trace ∧
      framesOf 0 s.trace =
        [(tHello, [proto, tvNtsc] ++ encode ['A', 'L']), (tInput, [5, 7]), (tBye, [])] ∧
      queuedTo 0 s.trace =
        frame tStart ([0, 1, 0, 2, 2] ++ encode ['B', 'O'] ++ List.replicate 6 0) ++
          frame tState ([9, 8] ++ List.replicate 12 0) ∧
      queuedTo 1 s.trace =
        frame tStart ([1, 1, 0, 2, 2] ++ encode ['A', 'L'] ++ List.replicate 6 0) ++
          frame tPong [] ++ frame tInput ([5, 7] ++ List.replicate 12 0) ++
          frame tPeerLeft (List.replicate 14 0) ∧
      queuedTo 2 s.trace =
        frame tStart ([0, 3, 0, 2, 2] ++ encode ['C', 'Y', '1'] ++ List.replicate 5 0) ∧
      (s.obj 3).rx = [16, tInput]) ∧
    ∃ h, (hall listening.delay listening.variation).Dialogue s.trace h ∧ h.here = [2, 3] ∧
      h.opponent 2 = some 3 ∧ h.opponent 0 = none ∧ queuedTo 1 s.trace = s.taken 1 ++ (s.obj 1).tx ∧
      received 0 evening = wire (framesOf 0 s.trace) ++ (s.obj 0).rx ∧
      Server.headOf (s.obj 3).rx = .wait := by
  refine relay.exists_run_of (by decide +kernel) ?_
  rintro s hrun ⟨hconform, hclients, hpartner, hgone, -⟩
  obtain ⟨⟨h, hdialogue, hhere, hkept⟩, hqueued, hreceived, hrest, hpast⟩ :=
    sessions_isolated init_listening hrun hconform
  have htwo : 2 ∈ s.clients := by
    rw [hclients]
    decide
  have hthree : 3 ∈ s.clients := by
    rw [hclients]
    decide
  exact ⟨h, hdialogue, hhere.trans hclients, (hkept 2 htwo).2.trans hpartner,
    ((hpast _ h List.prefix_rfl hdialogue).2 0 hgone).2, hqueued 1, hreceived 0, hrest 3 hthree⟩

end VO.Relay
