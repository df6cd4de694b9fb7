import VideoOlympics.Base.Side
import VideoOlympics.Lockstep.Link
import VideoOlympics.Relay.Framing
import VideoOlympics.Relay.Play
import VideoOlympics.Relay.Survive

/-! What the relay is to two consoles it has introduced: a pair of channels. From the match on, for as
    long as neither goes, what it has sent one of them is a START and, behind it, the game frames the
    other has sent since, in order and in full length. -/

namespace VO.Relay

/-- A game frame as it is passed on. -/
def passedOn (f : Frame) : List Byte := frame f.1 (ljust gamePayload f.2)

/-- The frames that are passed on to an opponent. -/
def gameFrames (fs : List Frame) : List Frame := fs.filter fun f => decide (f.1 ∈ relayTypes)

/-- Asking for nothing: no LIST, no PING. -/
def Silent (fs : List Frame) : Prop := ∀ f ∈ fs, f.1 ≠ tList ∧ f.1 ≠ tPing

/-- Two consoles that have been introduced; neither has gone, and neither has ever been told that an
    opponent left. -/
structure Introduced (who : Side → ℕ) (seed : ℕ) (log : List Act) : Prop where
  matched : Act.matched (who .host) (who .guest) seed ∈ log
  stayed : ∀ i, Act.dropped (who i) ∉ log
  untold : ∀ i, peerLeft ∉ framesTo (who i) log

theorem gameFrames_append (fs gs : List Frame) :
    gameFrames (fs ++ gs) = gameFrames fs ++ gameFrames gs := List.filter_append ..

theorem Silent.of_append {fs gs : List Frame} (h : Silent (fs ++ gs)) : Silent fs :=
  fun f hf => h f (List.mem_append_left _ hf)

variable {delay variation : ℤ} {log : List Act} {h : Hall} {c : ℕ}

/-! ### Before a match -/

/-- What an act is answered with goes to somebody who is here. -/
theorem framesTo_answers {a : Act} (ha : h.allowed a)
    (hc : framesTo c (h.answers delay variation a) ≠ []) :
    (∃ host guest seed, a = .matched host guest seed ∧ (c = host ∨ c = guest)) ∨
    (∃ d, a = .dropped d ∧ h.opponent d = some c ∧
      framesTo c (h.answers delay variation a) = [peerLeft]) ∨
    (∃ d ftype payload, a = .handled d ftype payload ∧ ftype ∈ relayTypes ∧ h.opponent d = some c ∧
      framesTo c (h.answers delay variation a) = [passedOn (ftype, payload)]) ∨
    ∃ ftype payload, a = .handled c ftype payload ∧ (ftype = tList ∨ ftype = tPing) := by
  have hone : ∀ {d : ℕ} {data : List Byte}, framesTo c [.queued d data] ≠ [] →
      d = c ∧ framesTo c [.queued d data] = [data] := by
    intro d data hne
    rw [framesTo_queued] at hne ⊢
    split at hne
    · next hd => exact ⟨hd, if_pos hd⟩
    · exact absurd rfl hne
  cases a with
  | handled d ftype payload =>
    simp only [Hall.answers] at hc ⊢
    by_cases hrelay : ftype ∈ relayTypes
    · rw [if_pos hrelay] at hc ⊢
      cases hp : h.opponent d with
      | none =>
        rw [hp] at hc
        exact absurd rfl hc
      | some p =>
        rw [hp] at hc
        obtain ⟨rfl, heq⟩ := hone hc
        exact .inr (.inr (.inl ⟨d, ftype, payload, rfl, hrelay, hp, heq⟩))
    · rw [if_neg hrelay] at hc
      by_cases hlist : ftype = tList
      · rw [if_pos hlist] at hc
        obtain ⟨rfl, -⟩ := hone hc
        exact .inr (.inr (.inr ⟨ftype, payload, rfl, .inl hlist⟩))
      · rw [if_neg hlist] at hc
        by_cases hping : ftype = tPing
        · rw [if_pos hping] at hc
          obtain ⟨rfl, -⟩ := hone hc
          exact .inr (.inr (.inr ⟨ftype, payload, rfl, .inr hping⟩))
        · rw [if_neg hping] at hc
          exact absurd rfl hc
  | matched host guest seed =>
    refine .inl ⟨host, guest, seed, rfl, ?_⟩
    by_contra hno
    obtain ⟨hh, hg⟩ := not_or.mp hno
    refine hc ?_
    rw [Hall.answers, ← List.singleton_append, framesTo_append, framesTo_queued, framesTo_queued,
      if_neg (Ne.symm hh), if_neg (Ne.symm hg), List.append_nil]
  | dropped d =>
    simp only [Hall.answers] at hc ⊢
    cases hp : h.opponent d with
    | none =>
      rw [hp] at hc
      exact absurd rfl hc
    | some p =>
      rw [hp] at hc
      obtain ⟨rfl, heq⟩ := hone hc
      exact .inr (.inl ⟨d, rfl, hp, heq⟩)
  | accepted d => exact absurd rfl hc
  | named d name => exact absurd rfl hc
  | queued d data => exact ha.elim

theorem mem_past_of_opponent (hs : h.Sound) {d : ℕ} (hd : h.opponent d = some c) :
    d ∈ h.here ∧ c ∈ h.here ∧ h.opponent c = some d := by
  have hhere : d ∈ h.here := by
    by_contra hno
    rw [hs.absent d hno] at hd
    cases hd
  obtain ⟨hc, -, hback⟩ := hs.pairing d hhere c hd
  exact ⟨hhere, hc, hback⟩

/-- Who has come, has come. -/
theorem past_after (hc : c ∈ h.past) (a : Act) : c ∈ (h.after a).past := by
  cases a with
  | accepted d => exact List.mem_append_left _ hc
  | _ => exact hc

/-- Nobody meets who has not come. -/
theorem past_of_matched (hd : (hall delay variation).Dialogue log h) {host guest seed : ℕ}
    (hmem : Act.matched host guest seed ∈ log) : host ∈ h.past ∧ guest ∈ h.past := by
  induction hd with
  | start => cases hmem
  | @act log h a hd ha ih =>
    have hs := hall_sound hd
    rcases List.mem_append.mp hmem with hold | hnew
    · obtain ⟨hhost, hguest⟩ := ih hold
      exact ⟨past_after hhost a, past_after hguest a⟩
    · rcases List.mem_cons.mp hnew with rfl | hanswer
      · obtain ⟨-, ⟨hhost, hguest⟩, -⟩ := ha
        exact ⟨past_after (hs.past _ hhost) _, past_after (hs.past _ hguest) _⟩
      · obtain ⟨d, data, hq⟩ := mem_answers hanswer
        cases hq

/-- Nothing is sent to somebody who has not come. -/
theorem past_of_framesTo (hd : (hall delay variation).Dialogue log h) (hc : framesTo c log ≠ []) :
    c ∈ h.past := by
  induction hd with
  | start => exact absurd rfl hc
  | @act log h a hd ha ih =>
    have hs := hall_sound hd
    rw [framesTo_act ha] at hc
    by_cases hold : framesTo c log = []
    · rw [hold, List.nil_append] at hc
      refine past_after ?_ a
      rcases framesTo_answers ha hc with ⟨host, guest, seed, rfl, hmem⟩ | ⟨d, rfl, hopp, -⟩ |
        ⟨d, ftype, payload, rfl, -, hopp, -⟩ | ⟨ftype, payload, rfl, -⟩
      · obtain ⟨-, ⟨hhost, hguest⟩, -⟩ := ha
        rcases hmem with rfl | rfl
        · exact hs.past _ hhost
        · exact hs.past _ hguest
      · exact hs.past _ (mem_past_of_opponent hs hopp).2.1
      · exact hs.past _ (mem_past_of_opponent hs hopp).2.1
      · exact ha
    · exact past_after (ih hold) a

theorem framesOf_act (h : Hall) (a : Act) (c : ℕ) (log : List Act) :
    framesOf c (log ++ a :: (hall delay variation).answers h a) =
      framesOf c log ++ framesOf c [a] := by
  have hnone : framesOf c ((hall delay variation).answers h a) = [] := by
    rw [framesOf, List.filterMap_eq_nil_iff]
    intro b hb
    obtain ⟨d, data, rfl⟩ := mem_answers hb
    rfl
  rw [← List.singleton_append, framesOf_append, framesOf_append, hnone, List.append_nil]

/-- Who is here, asks for nothing, and has neither an opponent nor lost one, has been sent nothing. -/
theorem nothing_sent (hd : (hall delay variation).Dialogue log h) (hc : c ∈ h.here)
    (hsilent : Silent (framesOf c log)) (huntold : peerLeft ∉ framesTo c log)
    (hfree : h.opponent c = none) : framesTo c log = [] := by
  induction hd with
  | start => rfl
  | @act log h a hd ha ih =>
    have hs := hall_sound hd
    have hfree : (h.after a).opponent c = none := hfree
    have huntold : peerLeft ∉ framesTo c (log ++ a :: h.answers delay variation a) := huntold
    change framesTo c (log ++ a :: h.answers delay variation a) = []
    rw [framesTo_act ha] at huntold ⊢
    rw [framesOf_act] at hsilent
    have huntold' : peerLeft ∉ framesTo c log := fun hmem => huntold (List.mem_append_left _ hmem)
    have hnow : framesTo c (h.answers delay variation a) = [] := by
      by_contra hne
      rcases framesTo_answers ha hne with ⟨host, guest, seed, rfl, hmem⟩ | ⟨d, rfl, -, hsent⟩ |
        ⟨d, ftype, payload, rfl, -, hopp, -⟩ | ⟨ftype, payload, rfl, htype⟩
      · simp only [Hall.after, Function.update_apply] at hfree
        split at hfree
        · cases hfree
        · next hguest =>
          rw [if_pos (hmem.resolve_right hguest)] at hfree
          cases hfree
      · exact huntold (List.mem_append_right _ (hsent ▸ List.mem_singleton_self _))
      · cases (mem_past_of_opponent hs hopp).2.2.symm.trans hfree
      · rw [framesOf_handled] at hsilent
        have hquiet := hsilent (ftype, payload) (List.mem_append_right _ (List.mem_singleton_self _))
        exact htype.elim hquiet.1 hquiet.2
    rw [hnow, List.append_nil]
    by_cases hold : framesTo c log = []
    · exact hold
    have hpast := past_of_framesTo hd hold
    have hbefore : c ∈ h.here → h.opponent c = none → framesTo c log = [] :=
      fun hc hfree => ih hc hsilent.of_append huntold' hfree
    cases a with
    | accepted d =>
      refine hbefore ?_ hfree
      rcases List.mem_append.mp hc with hc | hc
      · exact hc
      · exact absurd (List.mem_singleton.mp hc ▸ hpast) ha
    | named d name => exact hbefore hc hfree
    | handled d ftype payload => exact hbefore hc hfree
    | queued d data => exact ha.elim
    | matched host guest seed =>
      refine hbefore hc ?_
      simp only [Hall.after, Function.update_apply] at hfree
      split at hfree
      · cases hfree
      · split at hfree
        · cases hfree
        · exact hfree
    | dropped d =>
      have hcd : c ≠ d := ((List.Nodup.mem_erase_iff hs.nodup).mp hc).1
      refine hbefore (List.mem_of_mem_erase hc) ?_
      cases hopp : h.opponent d with
      | none =>
        simp only [Hall.after, hopp] at hfree
        exact hfree
      | some p =>
        have hcp : c ≠ p := by
          rintro rfl
          refine absurd hnow ?_
          simp only [Hall.answers, hopp, framesTo_queued, if_true]
          exact List.cons_ne_nil _ _
        simp only [Hall.after, hopp, Function.update_of_ne hcd, Function.update_of_ne hcp] at hfree
        exact hfree

/-! ### From the match on -/

theorem gameFrames_handled (c : ℕ) (ftype : Byte) (payload : List Byte) :
    gameFrames (framesOf c [.handled c ftype payload]) =
      if ftype ∈ relayTypes then [(ftype, payload)] else [] := by
  rw [framesOf_handled, gameFrames, List.filter_singleton, Bool.cond_decide]

theorem framesOf_other {c d : ℕ} (hdc : d ≠ c) (ftype : Byte) (payload : List Byte) :
    framesOf c [.handled d ftype payload] = [] := by
  rw [framesOf, List.filterMap_cons, Act.frameOf, if_neg hdc]
  rfl

/-- What an act sends a console that has an opponent are the game frames it takes on from that
    opponent. -/
theorem framesTo_linked (hs : h.Sound) {a : Act} (ha : h.allowed a) {d p : ℕ}
    (hopp : h.opponent d = some p) (hdrop : a ≠ .dropped d) (hsilent : Silent (framesOf p [a])) :
    framesTo p (h.answers delay variation a) = (gameFrames (framesOf d [a])).map passedOn := by
  obtain ⟨-, -, hback⟩ := mem_past_of_opponent hs hopp
  have hsole : ∀ e, h.opponent e = some p → e = d := fun e he =>
    Option.some.inj ((mem_past_of_opponent hs he).2.2.symm.trans hback)
  by_cases hsent : framesTo p (h.answers delay variation a) = []
  · -- Nothing is sent: then it was no game frame of the opponent's.
    rw [hsent]
    cases a with
    | handled e ftype payload =>
      by_cases hed : e = d
      · subst hed
        rw [gameFrames_handled]
        split
        · next hrelay =>
          refine absurd hsent ?_
          simp only [Hall.answers, if_pos hrelay, hopp, framesTo_queued, if_true]
          exact List.cons_ne_nil _ _
        · rfl
      · rw [framesOf_other hed]
        rfl
    | queued e data => exact ha.elim
    | _ => rfl
  · rcases framesTo_answers ha hsent with ⟨host, guest, seed, rfl, hmem⟩ | ⟨e, rfl, he, -⟩ |
      ⟨e, ftype, payload, rfl, hrelay, he, heq⟩ | ⟨ftype, payload, rfl, htype⟩
    · obtain ⟨-, -, ⟨hhost, hguest⟩, -⟩ := ha
      rcases hmem with rfl | rfl
      · cases hback.symm.trans hhost
      · cases hback.symm.trans hguest
    · exact absurd (congrArg Act.dropped (hsole e he)) hdrop
    · rw [heq, hsole e he, gameFrames_handled, if_pos hrelay]
      rfl
    · rw [framesOf_handled] at hsilent
      have hquiet := hsilent (ftype, payload) (List.mem_singleton_self _)
      exact absurd htype (not_or.mpr hquiet)

/-- Opponents stay opponents until one of them goes. -/
theorem opponent_after (hs : h.Sound) {a : Act} (ha : h.allowed a) {d p : ℕ}
    (hopp : h.opponent d = some p) (hd : a ≠ .dropped d) (hp : a ≠ .dropped p) :
    (h.after a).opponent d = some p := by
  obtain ⟨-, -, hback⟩ := mem_past_of_opponent hs hopp
  cases a with
  | matched host guest seed =>
    obtain ⟨-, -, ⟨hhost, hguest⟩, -⟩ := ha
    have hdh : d ≠ host := by
      rintro rfl
      cases hopp.symm.trans hhost
    have hdg : d ≠ guest := by
      rintro rfl
      cases hopp.symm.trans hguest
    simp only [Hall.after, Function.update_of_ne hdg, Function.update_of_ne hdh, hopp]
  | dropped e =>
    have hde : d ≠ e := fun heq => hd (congrArg Act.dropped heq.symm)
    cases hq : h.opponent e with
    | none => simp only [Hall.after, hq, hopp]
    | some q =>
      have hdq : d ≠ q := by
        rintro rfl
        have heq : p = e := Option.some.inj (hopp.symm.trans (mem_past_of_opponent hs hq).2.2)
        exact hp (congrArg Act.dropped heq.symm)
      simp only [Hall.after, hq, Function.update_of_ne hde, Function.update_of_ne hdq, hopp]
  | _ => exact hopp

variable {who : Side → ℕ} {seed : ℕ}

theorem Introduced.before {log as : List Act} (hi : Introduced who seed (log ++ as))
    (hmem : Act.matched (who .host) (who .guest) seed ∈ log) : Introduced who seed log where
  matched := hmem
  stayed i hd := hi.stayed i (List.mem_append_left _ hd)
  untold i hd := hi.untold i (by
    rw [framesTo_append]
    exact List.mem_append_left _ hd)

/-- A pair of channels. Two consoles that were introduced, have stayed and ask for nothing are each
    other's opponents; nothing had been sent them before; and each has been sent START, with its role,
    and behind it what the other has sent since. -/
theorem introduced_channel (hd : (hall delay variation).Dialogue log h)
    (hi : Introduced who seed log) (hsilent : ∀ i, Silent (framesOf (who i) log)) :
    (∀ i, h.opponent (who i) = some (who i.other)) ∧ ∃ pre post,
      log = pre ++ .matched (who .host) (who .guest) seed :: post ∧
      ∀ i, framesTo (who i) pre = [] ∧ ∃ them, framesTo (who i) log =
        startOf i.role seed delay variation them ::
          (gameFrames (framesOf (who i.other) post)).map passedOn := by
  induction hd with
  | start => cases hi.matched
  | @act log h a hd ha ih =>
    have hs := hall_sound hd
    have ha : h.allowed a := ha
    have hi : Introduced who seed (log ++ a :: h.answers delay variation a) := hi
    have hquiet : ∀ i, Silent (framesOf (who i) log) ∧ Silent (framesOf (who i) [a]) := by
      intro i
      have hboth := hsilent i
      rw [framesOf_act] at hboth
      exact ⟨hboth.of_append, fun f hf => hboth f (List.mem_append_right _ hf)⟩
    change (∀ i, (h.after a).opponent (who i) = some (who i.other)) ∧ ∃ pre post,
      log ++ a :: h.answers delay variation a = pre ++ .matched (who .host) (who .guest) seed :: post ∧
      ∀ i, framesTo (who i) pre = [] ∧ ∃ them,
        framesTo (who i) (log ++ a :: h.answers delay variation a) =
          startOf i.role seed delay variation them ::
            (gameFrames (framesOf (who i.other) post)).map passedOn
    by_cases hold : Act.matched (who .host) (who .guest) seed ∈ log
    · -- They had met before this act, and the act is passed on, or does not concern them.
      obtain ⟨hopp, pre, post, hlog, hsent⟩ := ih (hi.before hold) fun i => (hquiet i).1
      have hgone : ∀ i, a ≠ .dropped (who i) := by
        rintro i rfl
        exact hi.stayed i (List.mem_append_right _ List.mem_cons_self)
      refine ⟨fun i => opponent_after hs ha (hopp i) (hgone i) (hgone i.other), pre,
        post ++ a :: h.answers delay variation a, by rw [hlog, List.append_assoc]; rfl, ?_⟩
      intro i
      obtain ⟨hpre, them, hto⟩ := hsent i
      have hback : h.opponent (who i.other) = some (who i) := by
        have := hopp i.other
        rwa [Side.other_other] at this
      have hnow : framesTo (who i) (h.answers delay variation a) =
          (gameFrames (framesOf (who i.other) [a])).map passedOn :=
        framesTo_linked hs ha hback (hgone i.other) (hquiet i).2
      refine ⟨hpre, them, ?_⟩
      have hpost : framesOf (who i.other) (post ++ a :: h.answers delay variation a) =
          framesOf (who i.other) post ++ framesOf (who i.other) [a] := framesOf_act h a _ post
      rw [framesTo_act ha, hto, hnow, hpost, gameFrames_append, List.map_append, List.cons_append]
    · -- They meet in this act, and nothing has been sent to either before.
      have hmeet : a = .matched (who .host) (who .guest) seed := by
        rcases List.mem_append.mp hi.matched with hmem | hmem
        · exact absurd hmem hold
        · rcases List.mem_cons.mp hmem with hmem | hmem
          · exact hmem.symm
          · obtain ⟨d, data, hq⟩ := mem_answers hmem
            cases hq
      subst hmeet
      obtain ⟨hne, ⟨hhost, hguest⟩, ⟨hhfree, hgfree⟩, -⟩ := id ha
      have hhere : ∀ i, who i ∈ h.here ∧ h.opponent (who i) = none := by
        intro i
        cases i with
        | host => exact ⟨hhost, hhfree⟩
        | guest => exact ⟨hguest, hgfree⟩
      have hnothing : ∀ i, framesTo (who i) log = [] := fun i =>
        nothing_sent hd (hhere i).1 (hquiet i).1 (fun hmem => hi.untold i (by
          rw [framesTo_act ha]
          exact List.mem_append_left _ hmem)) (hhere i).2
      refine ⟨?_, log, _, rfl, fun i => ⟨hnothing i, ?_⟩⟩
      · intro i
        cases i with
        | host => simp only [Hall.after, Side.other, Function.update_of_ne hne, Function.update_self]
        | guest => simp only [Hall.after, Side.other, Function.update_self]
      · rw [framesTo_act ha, hnothing i]
        cases i with
        | host =>
          refine ⟨(h.name (who .guest)).getD [], ?_⟩
          simp [Hall.answers, framesTo, Act.sentTo, framesOf, Act.frameOf, gameFrames, Side.role,
            Ne.symm hne]
        | guest =>
          refine ⟨(h.name (who .host)).getD [], ?_⟩
          simp [Hall.answers, framesTo, Act.sentTo, framesOf, Act.frameOf, gameFrames, Side.role,
            hne]

/-! ### Lengths -/

namespace Room

/-- What is sent fits: START frames are of fifteen bytes, and no frame that has been taken on is longer
    than its length byte may say. -/
structure Neat (r : Room) : Prop extends r.Fit where
  start : ∀ c, ∀ f ∈ framesTo c r.trace, typeOf f = some tStart → f.length = 15
  short : ∀ c, ∀ f ∈ framesOf c r.trace, f.2.length ≤ 199

variable {r r' : Room} {ftype : Byte} {payload : List Byte}

theorem startOf_length {name : Name} (hname : name.length ≤ 8) (role : Byte) (seed : ℕ)
    (delay variation : ℤ) : (startOf role seed delay variation name).length = 15 := by
  rw [startOf, frame_length, List.length_append, Server.ljust_encode_length hname]
  rfl

/-- Only the trace is looked at, and what fits. -/
theorem Neat.same (h : r.Neat) (hfit : r'.Fit) (ht : r'.trace = r.trace) : r'.Neat :=
  ⟨hfit, ht ▸ h.start, ht ▸ h.short⟩

theorem Neat.queue (h : r.Neat) (p : ℕ) {data : List Byte}
    (hdata : typeOf data = some tStart → data.length = 15) : (r.queue p data).Neat := by
  refine ⟨⟨h.variation, h.name⟩, ?_, ?_⟩
  · intro d f hf hstart
    simp only [Room.queue, framesTo_append, framesTo_queued] at hf
    rcases List.mem_append.mp hf with hf | hf
    · exact h.start d f hf hstart
    · split at hf
      · obtain rfl := List.mem_singleton.mp hf
        exact hdata hstart
      · cases hf
  · intro d f hf
    simp only [Room.queue, framesOf_append] at hf
    rcases List.mem_append.mp hf with hf | hf
    · exact h.short d f hf
    · cases hf

/-- An act that is neither a frame nor an append. -/
theorem Neat.note (h : r.Neat) {a : Act} (hto : ∀ d, a.sentTo d = none) (hof : ∀ d, a.frameOf d = none) :
    (r.note a).Neat := by
  refine ⟨⟨h.variation, h.name⟩, ?_, ?_⟩
  · intro d f hf hstart
    simp only [Room.note, framesTo_append] at hf
    rcases List.mem_append.mp hf with hf | hf
    · exact h.start d f hf hstart
    · rw [framesTo, List.filterMap_cons_none (hto d)] at hf
      cases hf
  · intro d f hf
    simp only [Room.note, framesOf_append] at hf
    rcases List.mem_append.mp hf with hf | hf
    · exact h.short d f hf
    · rw [framesOf, List.filterMap_cons_none (hof d)] at hf
      cases hf

theorem typeOf_peerLeft : typeOf peerLeft ≠ some tStart := by decide

theorem Neat.leave (h : r.Neat) (c : ℕ) : (r.leave c).Neat := by
  have hnote : (r.note (.dropped c)).Neat := h.note (fun _ => rfl) fun _ => rfl
  have hunlink : ((r.note (.dropped c)).unlink c).Neat := by
    rw [unlink]
    split
    · next p _ =>
      have hlinked : Neat { r.note (.dropped c) with partner := Function.update r.partner p none } :=
        hnote.same ⟨h.variation, h.name⟩ rfl
      exact hlinked.queue p fun h => absurd h typeOf_peerLeft
    · exact hnote
  have hfit := h.toFit.leave c
  rw [Room.leave] at hfit ⊢
  split
  · exact h
  · next hc => exact hunlink.same (by rwa [if_neg hc] at hfit) rfl

theorem Neat.pairs (h : r.Neat) (hp : r.Pairs c r') : r'.Neat := by
  cases hp with
  | alone _ => exact h
  | met host seed hn gn _ _ _ hhn hgn =>
    have hnote : (r.note (.matched host c seed)).Neat := h.note (fun _ => rfl) fun _ => rfl
    have hlinked : Neat { r.note (.matched host c seed) with
        partner := Function.update (Function.update r.partner host (some c)) c (some host) } :=
      hnote.same ⟨h.variation, h.name⟩ rfl
    exact (hlinked.queue host fun _ => startOf_length (h.name c gn hgn) ..).queue c
      fun _ => startOf_length (h.name host hn hhn) ..

theorem Neat.move (h : r.Neat) (hmove : r.Move r') : r'.Neat := by
  have hfit := h.toFit.move hmove
  cases hmove with
  | join => exact Neat.same (h.note (a := .accepted r.next) (fun _ => rfl) fun _ => rfl) hfit rfl
  | leave c _ => exact h.leave c
  | take c n _ => exact h.same hfit rfl

theorem Neat.taken (h : r.Neat) (hlen : payload.length ≤ 199) (ftype : Byte) :
    (r.note (.handled c ftype payload)).Neat := by
  refine ⟨⟨h.variation, h.name⟩, ?_, ?_⟩
  · intro d f hf hstart
    simp only [Room.note, framesTo_append] at hf
    rcases List.mem_append.mp hf with hf | hf
    · exact h.start d f hf hstart
    · cases hf
  · intro d f hf
    simp only [Room.note, framesOf_append] at hf
    rcases List.mem_append.mp hf with hf | hf
    · exact h.short d f hf
    · by_cases hd : c = d
      · subst hd
        rw [framesOf_handled] at hf
        rw [List.mem_singleton.mp hf]
        exact hlen
      · rw [framesOf_other hd] at hf
        cases hf

theorem typeOf_lobby (r : Room) : typeOf r.lobby ≠ some tStart := by
  rw [Room.lobby, typeOf_frame]
  decide

theorem Neat.handles (h : r.Neat) (hh : r.Handles c ftype payload r') : r'.Neat := by
  have hfit := h.toFit.handles hh
  cases hh with
  | unheard _ _ => exact h
  | unknown _ _ _ _ _ _ => exact h
  | relayed p hrelay _ =>
    refine h.queue p fun hstart => ?_
    rw [typeOf_frame] at hstart
    rw [Option.some.inj hstart] at hrelay
    exact absurd hrelay (by decide)
  | refused _ _ => exact h.leave c
  | gone _ => exact h.leave c
  | welcomed name _ _ _ hname hp =>
    have hnote : (r.note (.named c name)).Neat := h.note (fun _ => rfl) fun _ => rfl
    exact Neat.pairs (r := r.call c name) (hnote.same (h.toFit.call hname) rfl) hp
  | joined _ _ hp => exact h.pairs hp
  | listed _ => exact h.queue c fun hstart => absurd hstart (typeOf_lobby r)
  | pinged _ => exact h.queue c fun hstart => absurd hstart (by rw [typeOf_frame]; decide)

end Room

namespace Server

theorem step_neat {s t : Server} {e : Event} (hg : s.room.Going) (hn : s.room.Neat)
    (h : s.step e = some t) : t.room.Neat := by
  refine step_keeps (I := Room.Neat) (P := Sized) (fun _ _ h hmove => h.move hmove)
    (fun _ _ _ h => h.same ⟨h.variation, h.name⟩ rfl)
    (fun s r' c ftype payload h hsized hh => (h.taken hsized.2 ftype).handles hh) ?_ hn h
  rcases step_cases h with ⟨-, hquiet⟩ | ⟨c, data, k, rfl, -, hc, -⟩
  · cases e with
    | recv c data k =>
      have hdata := hquiet c
      rw [sentBy, if_pos rfl] at hdata
      exact fun hne => absurd hdata hne
    | _ => trivial
  · exact fun _ => eachFrame_sized _ (hg.known c hc)

end Server

end VO.Relay
