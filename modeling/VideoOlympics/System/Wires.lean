import VideoOlympics.System.Desks

/-! What holds in the world, whatever happens in it: where every byte is that a console has written, or
    that the relay's kernel has taken for one. What the kernel has taken is what the console has READ,
    what waits in its cartridge and what is on its way; what a console has written is what the relay has
    received and what is on its way. -/

namespace VO

namespace Relay

/-! ### The kernel's books -/

/-- A room some events on: nothing of the trace is lost, nor of what the kernel has taken; and it has
    taken nothing for anybody who has not come. -/
structure Room.Later (r₀ r : Room) : Prop where
  next : r₀.next ≤ r.next
  trace : r₀.trace <+: r.trace
  taken : ∀ c, r₀.taken c <+: r.taken c
  fresh : ∀ c, r.next ≤ c → r.taken c = []

namespace Room

variable {r₀ r r' : Room}

/-- Nothing of the kernel's, and the trace only grows. -/
theorem Later.same (h : r₀.Later r) (hnext : r.next ≤ r'.next) (ht : r.trace <+: r'.trace)
    (htaken : r'.taken = r.taken) : r₀.Later r' where
  next := h.next.trans hnext
  trace := h.trace.trans ht
  taken := htaken ▸ h.taken
  fresh c hc := htaken ▸ h.fresh c (hnext.trans hc)

theorem leave_taken (r : Room) (c : ℕ) : (r.leave c).taken = r.taken := by
  simp only [leave, unlink]
  split
  · rfl
  · dsimp only
    split
    · rfl
    · rfl

theorem Later.leave (h : r₀.Later r) (c : ℕ) : r₀.Later (r.leave c) :=
  h.same (r.leave_fixed c).2.2.1.ge (r.leave_trace c) (r.leave_taken c)

theorem Later.move (hs : r.Seated) (h : r₀.Later r) (hmove : r.Move r') : r₀.Later r' := by
  cases hmove with
  | join => exact h.same (Nat.le_succ _) (List.prefix_append _ _) rfl
  | leave c _ => exact h.leave c
  | take c n hc =>
    have hknown := hs.known c hc
    refine ⟨h.next, h.trace, ?_, ?_⟩
    · intro d
      simp only [Room.take, Function.update_apply]
      split
      · next hd => exact hd ▸ (h.taken d).trans (List.prefix_append _ _)
      · exact h.taken d
    · intro d hd
      have hdc : d ≠ c := fun heq => Nat.not_lt.mpr hd (heq ▸ hknown)
      simp only [Room.take, Function.update_of_ne hdc]
      exact h.fresh d hd

theorem Pairs.taken {c : ℕ} (hp : r.Pairs c r') : r'.taken = r.taken := by
  cases hp with
  | alone _ => rfl
  | met _ _ _ _ _ _ _ _ _ => rfl

theorem Handles.taken {c : ℕ} {ftype : Byte} {payload : List Byte}
    (hh : r.Handles c ftype payload r') : r'.taken = r.taken := by
  cases hh with
  | refused _ _ => exact r.leave_taken c
  | gone _ => exact r.leave_taken c
  | welcomed _ _ _ _ _ hp => exact hp.taken
  | joined _ _ hp => exact hp.taken
  | _ => rfl

end Room

namespace Server

theorem step_later {r₀ : Room} {s t : Server} {e : Event} (hs : s.room.Seated) (h : r₀.Later s.room)
    (hst : s.step e = some t) : r₀.Later t.room := by
  refine (step_keeps (I := fun r => r.Seated ∧ r₀.Later r) (P := fun _ _ _ _ => True) ?_ ?_ ?_
    (eachHeard_of_forall (fun _ _ _ _ => trivial) s e) ⟨hs, h⟩ hst).2
  · intro r r' ⟨hs, h⟩ hmove
    exact ⟨hs.move hmove, h.move hs hmove⟩
  · intro r c bs ⟨hs, h⟩
    exact ⟨⟨hs.nodup, hs.known⟩, h.same (Nat.le_refl _) (List.prefix_refl _) rfl⟩
  · intro s r' c ftype payload ⟨hs, h⟩ _ hh
    have hnote : (s.room.note (.handled c ftype payload)).Seated := ⟨hs.nodup, hs.known⟩
    exact ⟨hnote.handles hh, h.same hh.fixed.1.ge ((List.prefix_append _ _).trans hh.trace) hh.taken⟩

end Server

/-! ### The wire -/

/-- Frames no longer than their length byte may say are read off the wire as they were put on it. -/
theorem wire_prefix {fs gs : List Frame} (hfs : ∀ f ∈ fs, f.2.length ≤ 199)
    (hgs : ∀ f ∈ gs, f.2.length ≤ 199) (h : wire fs <+: wire gs) : fs <+: gs := by
  induction fs generalizing gs with
  | nil => exact List.nil_prefix
  | cons f fs ih =>
    cases gs with
    | nil =>
      have hnil : wire (f :: fs) = [] := List.prefix_nil.mp h
      cases hnil
    | cons g gs =>
      have hf := hfs f List.mem_cons_self
      have hg := hgs g List.mem_cons_self
      simp only [wire, List.flatMap_cons, Relay.frame, List.cons_append, List.cons_prefix_cons] at h
      obtain ⟨hlen, htype, hrest⟩ := h
      have hlen : f.2.length = g.2.length := by
        have hnat := congrArg BitVec.toNat hlen
        rw [BitVec.toNat_ofNat, BitVec.toNat_ofNat] at hnat
        omega
      have hpayload : f.2 = g.2 := by
        obtain ⟨rest, hrest⟩ := hrest
        rw [List.append_assoc] at hrest
        exact (List.append_inj hrest hlen).1
      have hfg : f = g := Prod.ext htype hpayload
      subst hfg
      rw [List.prefix_append_right_inj] at hrest
      exact List.cons_prefix_cons.mpr ⟨rfl, ih (fun x hx => hfs x (List.mem_cons_of_mem _ hx))
        (fun x hx => hgs x (List.mem_cons_of_mem _ hx)) hrest⟩

end Relay

open Relay (Server relay wire tHello tInput gamePayload framesOf framesTo gameFrames)

/-! ### What a desk has written -/

/-- What the relay has taken on from a console is its HELLO and records it has written. -/
theorem Desk.Fine.frames {d : Desk} {r : Relay.Room} {c : ℕ} (hf : d.Fine)
    (hshort : ∀ f ∈ framesOf c r.trace, f.2.length ≤ 199)
    (hsaid : r.heard c <+: d.hello ++ d.wrote) :
    ∃ (hello : List Byte) (ps : List (List Byte)), (∀ p ∈ ps, p.length = gamePayload) ∧
      d.wrote = wire (ps.map fun p => (tInput, p)) ∧
      framesOf c r.trace <+: (tHello, hello) :: ps.map fun p => (tInput, p) := by
  obtain ⟨hello, hlen, hhello⟩ := hf.hello
  obtain ⟨ps, hps, hwrote⟩ := hf.wrote
  refine ⟨hello, ps, hps, hwrote, ?_⟩
  refine Relay.wire_prefix hshort ?_ ?_
  · intro f hmem
    rcases List.mem_cons.mp hmem with rfl | hmem
    · exact hlen
    · obtain ⟨p, hp, rfl⟩ := List.mem_map.mp hmem
      have hp : p.length = 14 := hps p hp
      simp only [hp]
      omega
  · have hwire : d.hello ++ d.wrote = wire ((tHello, hello) :: ps.map fun p => (tInput, p)) := by
      rw [hhello, hwrote, wire, wire, List.flatMap_cons]
    rw [← hwire]
    exact (List.prefix_append _ _).trans hsaid

/-- So it keeps to what the ROM sends. -/
theorem fromRom_of_prefix {fs : List Relay.Frame} {hello : List Byte} {ps : List (List Byte)}
    (hps : ∀ p ∈ ps, p.length = gamePayload)
    (h : fs <+: (tHello, hello) :: ps.map fun p => (tInput, p)) : Relay.FromRom fs := by
  cases fs with
  | nil =>
    refine ⟨?_, List.forall_mem_nil _⟩
    intro f hf
    cases hf
  | cons f fs =>
    obtain ⟨rfl, htail⟩ := List.cons_prefix_cons.mp h
    refine ⟨fun g hg => Option.some.inj hg ▸ rfl, ?_⟩
    intro g hg
    obtain ⟨p, hp, rfl⟩ := List.mem_map.mp (htail.subset hg)
    exact ⟨rfl, hps p hp⟩

theorem hello_silent : ¬decide (tHello ∈ Relay.relayTypes) = true := by decide

theorem input_relayed : decide (tInput ∈ Relay.relayTypes) = true := by decide

/-- The game frames among it are the records. -/
theorem gameFrames_front {fs : List Relay.Frame} {hello : List Byte} {ps : List (List Byte)}
    (h : fs <+: (tHello, hello) :: ps.map fun p => (tInput, p)) :
    gameFrames fs <+: ps.map fun p => (tInput, p) := by
  have hgames : gameFrames ((tHello, hello) :: ps.map fun p => (tInput, p)) =
      ps.map fun p => (tInput, p) := by
    rw [gameFrames, List.filter_cons, if_neg hello_silent, List.filter_eq_self]
    intro f hf
    obtain ⟨p, -, rfl⟩ := List.mem_map.mp hf
    exact input_relayed
  exact hgames ▸ h.filter _

/-- A console that does not play has written nothing. -/
theorem Desk.Fine.quiet {d : Desk} (h : d.Fine) (hseat : ∀ s, d.seat ≠ .game s) : d.wrote = [] := by
  have hst := h.stands
  rw [Desk.Stands] at hst
  cases hs : d.seat with
  | boot b =>
    rw [hs] at hst
    exact hst.1
  | alone c =>
    rw [hs] at hst
    exact hst
  | game s => exact absurd hs (hseat s)

/-- A console that plays has READ its START. -/
theorem Desk.Fine.read {d : Desk} (h : d.Fine) {s : Solo} (hs : d.seat = .game s) :
    15 ≤ d.read.length ∧ d.read.getD 5 0 = vod := by
  have hst := h.stands
  rw [Desk.Stands, hs] at hst
  exact ⟨hst.1, hst.2.1⟩

theorem Desk.Fine.read_of_wrote {d : Desk} (h : d.Fine) (hwrote : d.wrote ≠ []) : d.read ≠ [] := by
  obtain ⟨s, hs⟩ := not_forall_not.mp (mt h.quiet hwrote)
  have hread := (h.read hs).1
  rintro hnil
  rw [hnil] at hread
  exact absurd hread (by decide)

/-! ### What a desk does by itself -/

/-- What a console writes is on its way to the relay, and of what has been sent to it nothing is
    lost. -/
structure Desk.Acts (d d' : Desk) : Prop where
  hello : d'.hello = d.hello
  wrote : ∃ out, d'.wrote = d.wrote ++ out ∧ d'.up = d.up ++ out
  told : d'.read ++ d'.inbox ++ d'.down = d.read ++ d.inbox ++ d.down

theorem Desk.Acts.quiet {d d' : Desk} (hhello : d'.hello = d.hello) (hwrote : d'.wrote = d.wrote)
    (hup : d'.up = d.up) (htold : d'.read ++ d'.inbox ++ d'.down = d.read ++ d.inbox ++ d.down) :
    d.Acts d' :=
  ⟨hhello, ⟨[], by rw [hwrote, List.append_nil], by rw [hup, List.append_nil]⟩, htold⟩

theorem Desk.acts_arrive (n : ℕ) (d : Desk) : d.Acts (d.arrive n) := by
  refine .quiet rfl rfl rfl ?_
  simp only [Desk.arrive, List.append_assoc, List.take_append_drop]

theorem Desk.acts_answered (r : Regs) (d : Desk) : d.Acts (d.answered r) := by
  rw [Desk.answered_eq]
  refine ⟨rfl, ⟨_, rfl, rfl⟩, ?_⟩
  dsimp only
  rw [List.append_assoc d.read, Desk.answer_inbox]

namespace World

/-! ### The invariant -/

/-- The relay is in order and so is every desk; what a console has written and what it has been sent
    are all somewhere; and no game frame has been taken on from a console that has been sent nothing. -/
structure Sound (delay variation : ℤ) (w : World) : Prop where
  session : Server.Session delay variation w.server.room.heard w.server.room
  going : w.server.room.Going
  neat : w.server.room.Neat
  fresh : ∀ c, w.server.next ≤ c → w.server.taken c = []
  known : ∀ c d, w.desk c = some d → c < w.server.next
  fine : ∀ c d, w.desk c = some d → d.Fine
  said : ∀ c d, w.desk c = some d → d.hello ++ d.wrote = w.server.room.heard c ++ d.up
  told : ∀ c d, w.desk c = some d → w.server.taken c = d.read ++ d.inbox ++ d.down
  patient : ∀ c d, w.desk c = some d → ∀ log, log <+: w.server.trace → framesTo c log = [] →
    gameFrames (framesOf c log) = []

variable {delay variation : ℤ} {w w' : World} {c : ℕ} {d d' : Desk}

theorem Sound.frames (h : w.Sound delay variation) (hd : w.desk c = some d) :
    ∃ (hello : List Byte) (ps : List (List Byte)), (∀ p ∈ ps, p.length = gamePayload) ∧
      d.wrote = wire (ps.map fun p => (tInput, p)) ∧
      framesOf c w.server.trace <+: (tHello, hello) :: ps.map fun p => (tInput, p) :=
  (h.fine c d hd).frames (h.neat.short c) (h.said c d hd ▸ List.prefix_append _ _)

theorem Sound.fromRom (h : w.Sound delay variation) (hd : w.desk c = some d) :
    Relay.FromRom (framesOf c w.server.trace) := by
  obtain ⟨hello, ps, hps, -, hpre⟩ := h.frames hd
  exact fromRom_of_prefix hps hpre

/-- Who has not come has been heard to say nothing, and sent nothing. -/
theorem Sound.unheard (h : w.Sound delay variation) (hc : w.server.next ≤ c) :
    w.server.room.heard c = [] ∧ Relay.queuedTo c w.server.trace = [] := by
  obtain ⟨-, hrx, htx⟩ := h.session.accounts.fresh c hc
  constructor
  · rw [Relay.Room.heard, h.going.unheard c hc, hrx]
    rfl
  · exact (h.session.accounts.queued c).trans (List.append_eq_nil_iff.mpr ⟨h.fresh c hc, htx⟩)

/-- Who has READ or waits for something has been sent something. -/
theorem Sound.sent (h : w.Sound delay variation) (hd : w.desk c = some d) (hread : d.read ≠ []) :
    framesTo c w.server.trace ≠ [] := by
  intro hnone
  have hqueued := h.session.accounts.queued c
  rw [← Relay.flatten_framesTo, Relay.Server.room_trace, hnone] at hqueued
  have htaken : w.server.taken c = [] := (List.append_eq_nil_iff.mp hqueued.symm).1
  rw [h.told c d hd, List.append_assoc] at htaken
  exact hread (List.append_eq_nil_iff.mp htaken).1

/-- The relay does something that no console has not said. -/
theorem Sound.serve {e : Relay.Event} (h : w.Sound delay variation) (hs : w.serve e = some w')
    (hup : ∀ c d, w.desk c = some d → Server.sentBy c e <+: d.up) : w'.Sound delay variation := by
  obtain ⟨t, ht, rfl⟩ := Option.map_eq_some_iff.mp hs
  have hlater : w.server.room.Later t.room :=
    Server.step_later ⟨h.going.nodup, h.going.known⟩
      ⟨Nat.le_refl _, List.prefix_refl _, fun _ => List.prefix_refl _, h.fresh⟩ ht
  have hsession := Server.step_session h.session ht
  have hheard : t.room.heard = fun c => w.server.room.heard c ++ Server.sentBy c e :=
    funext hsession.accounts.heard
  have hneat := Server.step_neat h.going h.neat ht
  have hdesk : ∀ {c d'}, ((w.desk c).map fun d : Desk =>
      { d with up := d.up.drop (Server.sentBy c e).length
               down := d.down ++ (t.taken c).drop (w.server.taken c).length }) = some d' →
      ∃ d, w.desk c = some d ∧ d' =
        { d with up := d.up.drop (Server.sentBy c e).length
                 down := d.down ++ (t.taken c).drop (w.server.taken c).length } := by
    intro c d' hd'
    obtain ⟨d, hd, rfl⟩ := Option.map_eq_some_iff.mp hd'
    exact ⟨d, hd, rfl⟩
  have hsaid : ∀ c d, w.desk c = some d →
      d.hello ++ d.wrote = t.room.heard c ++ d.up.drop (Server.sentBy c e).length := by
    intro c d hd
    obtain ⟨rest, hrest⟩ := hup c d hd
    rw [h.said c d hd, hheard, ← hrest, List.drop_left, List.append_assoc]
  refine ⟨hheard ▸ hsession, Server.step_going h.going ht, hneat, hlater.fresh, ?_, ?_, ?_, ?_, ?_⟩
  · intro c d' hd'
    obtain ⟨d, hd, -⟩ := hdesk hd'
    exact Nat.lt_of_lt_of_le (h.known c d hd) hlater.next
  · intro c d' hd'
    obtain ⟨d, hd, rfl⟩ := hdesk hd'
    exact (h.fine c d hd).same rfl rfl (Nat.le_refl _) rfl rfl rfl
  · intro c d' hd'
    obtain ⟨d, hd, rfl⟩ := hdesk hd'
    exact hsaid c d hd
  · intro c d' hd'
    obtain ⟨d, hd, rfl⟩ := hdesk hd'
    obtain ⟨more, hmore⟩ := hlater.taken c
    change t.taken c = d.read ++ d.inbox ++ (d.down ++ (t.taken c).drop (w.server.taken c).length)
    have hmore : w.server.taken c ++ more = t.taken c := hmore
    rw [← hmore, List.drop_left, h.told c d hd, List.append_assoc _ d.down]
  · intro c d' hd' log hlog hnone
    obtain ⟨d, hd, rfl⟩ := hdesk hd'
    have hfine := h.fine c d hd
    by_cases hwrote : d.wrote = []
    · -- It has written nothing: all the relay can have taken on is its HELLO.
      obtain ⟨hello, ps, -, hwire, hpre⟩ :=
        hfine.frames (hneat.short c) (hsaid c d hd ▸ List.prefix_append _ _)
      have hps : ps = [] := by
        cases ps with
        | nil => rfl
        | cons p ps => cases hwire.symm.trans hwrote
      subst hps
      exact List.prefix_nil.mp (gameFrames_front ((hlog.filterMap _).trans hpre))
    · -- It has READ its START, so that much had been sent to it before.
      have hsent := h.sent hd (hfine.read_of_wrote hwrote)
      rcases List.prefix_or_prefix_of_prefix hlog hlater.trace with hbefore | hafter
      · exact h.patient c d hd log hbefore hnone
      · exact absurd (List.prefix_nil.mp (hnone ▸ hafter.filterMap _)) hsent

theorem act_eq {f : Desk → Option Desk} (ha : w.act c f = some w') :
    ∃ d d', w.desk c = some d ∧ f d = some d' ∧ w' = w.put c d' := by
  obtain ⟨d, hd, hf⟩ := Option.bind_eq_some_iff.mp ha
  obtain ⟨d', hd', rfl⟩ := Option.map_eq_some_iff.mp hf
  exact ⟨d, d', hd, hd', rfl⟩

theorem put_self : (w.put c d).desk c = some d := Function.update_self ..

theorem put_of_ne {e : ℕ} (h : e ≠ c) : (w.put c d).desk e = w.desk e := Function.update_of_ne h ..

theorem Sound.put (h : w.Sound delay variation) (hknown : c < w.server.next) (hfine : d.Fine)
    (hsaid : d.hello ++ d.wrote = w.server.room.heard c ++ d.up)
    (htold : w.server.taken c = d.read ++ d.inbox ++ d.down)
    (hpatient : ∀ log, log <+: w.server.trace → framesTo c log = [] → gameFrames (framesOf c log) = []) :
    (w.put c d).Sound delay variation := by
  have hdesk : ∀ {P : ℕ → Desk → Prop}, P c d → (∀ e d', w.desk e = some d' → P e d') →
      ∀ e d', (w.put c d).desk e = some d' → P e d' := by
    intro P hnew hold e d' hd'
    simp only [World.put, Function.update_apply] at hd'
    split at hd'
    · next hec => exact hec ▸ Option.some.inj hd' ▸ hnew
    · exact hold e d' hd'
  exact ⟨h.session, h.going, h.neat, h.fresh, hdesk hknown h.known, hdesk hfine h.fine,
    hdesk hsaid h.said, hdesk htold h.told, hdesk hpatient h.patient⟩

theorem Sound.act (h : w.Sound delay variation) (hd : w.desk c = some d) (hfine : d'.Fine)
    (hacts : d.Acts d') : (w.put c d').Sound delay variation := by
  obtain ⟨out, hwrote, hup⟩ := hacts.wrote
  refine h.put (h.known c d hd) hfine ?_ (hacts.told ▸ h.told c d hd) (h.patient c d hd)
  rw [hacts.hello, hwrote, hup, ← List.append_assoc, h.said c d hd, List.append_assoc]

theorem accept_fixed (s : Server) (addr : ℕ × ℕ) (now : ℕ) :
    (s.accept addr now).taken = s.taken ∧
      ∀ c, framesOf c (s.accept addr now).trace = framesOf c s.trace := by
  simp only [Server.accept]
  split
  · exact ⟨rfl, fun _ => rfl⟩
  · split
    · exact ⟨rfl, fun _ => rfl⟩
    · refine ⟨rfl, fun c => ?_⟩
      change framesOf c (s.trace ++ [.accepted s.next]) = framesOf c s.trace
      rw [Relay.framesOf_append]
      exact List.append_nil _

/-- A console that connects gets a desk, where it is let in. -/
theorem Sound.connect (h : w.Sound delay variation) {addr : ℕ × ℕ} {now : ℕ} {b : Build}
    {name : Appkey} {m : Page} {r : Regs} (hst : w.step (.connect addr now b name m r) = some w') :
    w'.Sound delay variation := by
  rw [World.step, Option.map_eq_some_iff] at hst
  obtain ⟨w₁, hserve, hput⟩ := hst
  have h₁ := h.serve hserve fun _ _ _ => List.nil_prefix
  split at hput
  · next hlet =>
    -- The desk is new, and nobody has had its identity before.
    subst hput
    obtain ⟨t, ht, rfl⟩ := Option.map_eq_some_iff.mp hserve
    have hheard := (Server.step_session h.session ht).accounts.heard w.server.next
    obtain rfl : w.server.accept addr now = t := Option.some.inj ht
    obtain ⟨htaken, hframes⟩ := accept_fixed w.server addr now
    have hnobody := (h.unheard (Nat.le_refl _)).1
    refine h₁.put hlet (Desk.fine_new b name m r) ?_ ?_ ?_
    · change b.says name ++ [] = (w.server.accept addr now).room.heard w.server.next ++ b.says name
      rw [hheard, hnobody, List.append_nil]
      rfl
    · change (w.server.accept addr now).taken w.server.next = []
      rw [htaken]
      exact h.fresh _ (Nat.le_refl _)
    · intro log hlog _
      have hnone : framesOf w.server.next (w.server.accept addr now).trace = [] :=
        (hframes _).trans (h.going.unheard _ (Nat.le_refl _))
      have hlog : framesOf w.server.next log = [] :=
        List.prefix_nil.mp (hnone ▸ hlog.filterMap _)
      rw [hlog]
      rfl
  · exact hput ▸ h₁

theorem Sound.step (h : w.Sound delay variation) {e : WorldEv} (hst : w.step e = some w') :
    w'.Sound delay variation := by
  have hnothing : ∀ {e : Relay.Event}, (∀ c, Server.sentBy c e = []) →
      ∀ c d, w.desk c = some d → Server.sentBy c e <+: d.up :=
    fun hnone c d _ => hnone c ▸ List.nil_prefix
  cases e with
  | connect addr now b name m r => exact h.connect hst
  | visit addr now => exact h.serve hst (hnothing fun _ => rfl)
  | recv c n k =>
    obtain ⟨d, hd, hserve⟩ := Option.bind_eq_some_iff.mp hst
    rw [Option.ite_none_left_eq_some] at hserve
    refine h.serve hserve.2 ?_
    intro c' d' hd'
    rw [Server.sentBy]
    split
    · next hc =>
      subst hc
      obtain rfl : d = d' := Option.some.inj (hd.symm.trans hd')
      exact List.take_prefix n d.up
    · exact List.nil_prefix
  | say c data k =>
    rw [World.step, Option.ite_none_right_eq_some] at hst
    refine h.serve hst.2 ?_
    intro c' d' hd'
    rw [Server.sentBy]
    split
    · next hc =>
      subst hc
      rw [hd'] at hst
      exact absurd hst.1 (by simp)
    · exact List.nil_prefix
  | hangup c k =>
    refine h.serve hst (hnothing fun c' => ?_)
    rw [Server.sentBy, ite_self]
  | flush c res => exact h.serve hst (hnothing fun _ => rfl)
  | sweep now => exact h.serve hst (hnothing fun _ => rfl)
  | arrive c n =>
    obtain ⟨d, d', hd, hf, rfl⟩ := act_eq hst
    obtain rfl := Option.some.inj hf
    exact h.act hd ((h.fine c d hd).arrive n) (d.acts_arrive n)
  | frame c hw con =>
    obtain ⟨d, d', hd, hf, rfl⟩ := act_eq hst
    obtain ⟨b, -, -, seat, hd', -⟩ := (h.fine c d hd).frame_cases hf
    exact h.act hd ((h.fine c d hd).frame hf) (hd' ▸ .quiet rfl rfl rfl rfl)
  | gate c hw sim =>
    obtain ⟨d, d', hd, hf, rfl⟩ := act_eq hst
    obtain ⟨s, -, -, hd'⟩ := Desk.gate_cases hf
    exact h.act hd ((h.fine c d hd).gate hf) (hd' ▸ .quiet rfl rfl rfl rfl)
  | micro c =>
    obtain ⟨d, d', hd, hf, rfl⟩ := act_eq hst
    obtain ⟨s, -, -, hd'⟩ := Desk.micro_cases hf
    exact h.act hd ((h.fine c d hd).micro hf) (hd' ▸ .quiet rfl rfl rfl rfl)
  | answer c =>
    obtain ⟨d, d', hd, hf, rfl⟩ := act_eq hst
    obtain ⟨r, -, -, hd'⟩ := Desk.answer_cases hf
    exact h.act hd ((h.fine c d hd).answer hf) (hd' ▸ d.acts_answered r)

theorem sound_of_init (h : world.init w) : w.Sound w.server.delay w.server.variation := by
  obtain ⟨hinit, hnobody⟩ := h
  have hnone : ∀ c d, w.desk c ≠ some d := by
    intro c d hd
    rw [hnobody] at hd
    cases hd
  have hsession := Relay.session_of_init hinit
  have hheard : w.server.room.heard = fun _ => [] := funext hsession.accounts.heard
  have hfresh : ∀ c, w.server.taken c = [] ∧ w.server.trace = [] := by
    obtain ⟨delay, variation, lobby, random, -, -, hs⟩ := hinit
    rw [hs]
    exact fun _ => ⟨rfl, rfl⟩
  have hsilent : ∀ c, framesTo c w.server.trace = [] ∧ framesOf c w.server.trace = [] := by
    intro c
    rw [(hfresh c).2]
    exact ⟨rfl, rfl⟩
  refine ⟨hheard ▸ hsession, Server.going_of_init hinit, ⟨Server.fit_of_init hinit, ?_, ?_⟩,
    fun c _ => (hfresh c).1, fun c d hd => absurd hd (hnone c d), fun c d hd => absurd hd (hnone c d),
    fun c d hd => absurd hd (hnone c d), fun c d hd => absurd hd (hnone c d),
    fun c d hd => absurd hd (hnone c d)⟩
  · intro c f hf
    rw [Relay.Server.room_trace, (hsilent c).1] at hf
    cases hf
  · intro c f hf
    rw [Relay.Server.room_trace, (hsilent c).2] at hf
    cases hf

theorem sound_of_reachable (h : world.Reachable w) :
    ∃ delay variation, w.Sound delay variation :=
  world.reachable_invariant (I := fun w => ∃ delay variation, World.Sound delay variation w)
    (fun _ hinit => ⟨_, _, sound_of_init hinit⟩)
    (fun _ _ _ ⟨_, _, h⟩ hst => ⟨_, _, h.step hst⟩) h

end World
end VO
