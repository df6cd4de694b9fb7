import VideoOlympics.Lockstep.Agree
import VideoOlympics.Relay.Greeting
import VideoOlympics.Relay.Invited
import VideoOlympics.System.Match

/-! The world is the match. Between two consoles the relay has introduced, whatever else goes on in the
    world, nothing happens but what can happen in a match of theirs; so what is proved of every match
    is true of them. -/

namespace VO

open Relay (Server relay wire tHello tInput tStart gamePayload framesOf framesTo gameFrames passedOn
  Introduced AllConform Conforming startOf Silent)

namespace World

/-- Whoever is at no desk keeps to the protocol too. -/
def Polite (w : World) : Prop := ∀ c, w.desk c = none → Conforming (framesOf c w.server.trace)

variable {delay variation : ℤ} {w w' : World} {who : Side → ℕ} {seed : ℕ} {d : Side → Desk}

theorem Sound.conform (h : w.Sound delay variation) (hp : w.Polite) : AllConform w.server.trace := by
  intro c
  cases hd : w.desk c with
  | none => exact hp c hd
  | some d => exact (h.fromRom hd).conforming

theorem silent_of_fromRom {fs : List Relay.Frame} (h : Relay.FromRom fs) : Silent fs := by
  intro f hf
  rcases h.mem hf with ht | ⟨ht, -⟩ <;> rw [ht] <;> decide

/-- The two are not the same, and they have a channel each way. -/
theorem Sound.channel (h : w.Sound delay variation) (hconform : AllConform w.server.trace)
    (hi : Introduced who seed w.server.trace) (hd : ∀ i, w.desk (who i) = some (d i)) :
    (∀ i, who i ≠ who i.other) ∧ ∃ pre post,
      w.server.trace = pre ++ .matched (who .host) (who .guest) seed :: post ∧
      ∀ i, framesTo (who i) pre = [] ∧ ∃ them, framesTo (who i) w.server.trace =
        startOf i.role seed delay variation them ::
          (gameFrames (framesOf (who i.other) post)).map passedOn := by
  obtain ⟨hall, ht⟩ := h.session.tracks hconform
  obtain ⟨hopp, hsplit⟩ := Relay.introduced_channel ht.log hi fun i => silent_of_fromRom (h.fromRom (hd i))
  refine ⟨?_, hsplit⟩
  intro i
  obtain ⟨hhere, -, -⟩ := Relay.mem_past_of_opponent ht.sound (hopp i)
  exact Ne.symm (ht.sound.pairing (who i) hhere _ (hopp i)).2.1

/-- A record is passed on as it is: there is nothing to pad. -/
theorem passedOn_input {ps : List (List Byte)} (hps : ∀ p ∈ ps, p.length = gamePayload) :
    ((ps.map fun p => (tInput, p)).map passedOn).flatten = wire (ps.map fun p => (tInput, p)) := by
  rw [wire, List.flatMap_def]
  refine congrArg List.flatten (List.map_congr_left fun f hf => ?_)
  obtain ⟨p, hp, rfl⟩ := List.mem_map.mp hf
  rw [passedOn, Relay.ljust_of_length (hps p hp)]

/-- What has been sent to each is its START, and what the other has written. -/
theorem Sound.streams (h : w.Sound delay variation) (hconform : AllConform w.server.trace)
    (hi : Introduced who seed w.server.trace) (hd : ∀ i, w.desk (who i) = some (d i)) : Streams d := by
  obtain ⟨-, pre, post, hlog, hsent⟩ := h.channel hconform hi hd
  intro i
  obtain ⟨-, them, hto⟩ := hsent i
  obtain ⟨hnone, -⟩ := hsent i.other
  refine ⟨startOf i.role seed delay variation them, ?_, rfl, ?_⟩
  · exact h.neat.start (who i) _ (hto ▸ List.mem_cons_self) (Relay.typeOf_frame _ _)
  obtain ⟨hello, ps, hps, hwrote, hframes⟩ := h.frames (hd i.other)
  -- The other's game frames were all taken on after the match: before it, it had been sent nothing.
  have hgames : gameFrames (framesOf (who i.other) w.server.trace) =
      gameFrames (framesOf (who i.other) post) := by
    have hbefore := h.patient _ _ (hd i.other) pre (hlog ▸ List.prefix_append _ _) hnone
    rw [hlog, Relay.framesOf_append, Relay.gameFrames_append, hbefore]
    rfl
  have hpassed : ((gameFrames (framesOf (who i.other) post)).map passedOn).flatten <+:
      (d i.other).wrote := by
    obtain ⟨rest, hrest⟩ := gameFrames_front hframes
    rw [hgames] at hrest
    rw [hwrote, ← passedOn_input hps, ← hrest, List.map_append, List.flatten_append]
    exact List.prefix_append _ _
  have hqueued := h.session.accounts.queued (who i)
  rw [← Relay.flatten_framesTo, Relay.Server.room_trace, hto, List.flatten_cons] at hqueued
  have htold : w.server.taken (who i) = (d i).read ++ (d i).inbox ++ (d i).down :=
    h.told _ _ (hd i)
  rw [← htold]
  refine List.IsPrefix.trans ?_ ((List.prefix_append_right_inj _).mpr hpassed)
  exact ⟨_, hqueued.symm⟩

/-! ### One step of the world -/

/-- A desk has acted by itself. -/
inductive Acted (d : Desk) : Desk → Prop
  | arrive (n : ℕ) : Acted d (d.arrive n)
  | frame (hw : Hw) (con : Console) (d' : Desk) : d.frame hw con = some d' → Acted d d'
  | gate (hw : Hw) (sim : Sim) (d' : Desk) : d.gate hw sim = some d' → Acted d d'
  | micro (d' : Desk) : d.micro = some d' → Acted d d'
  | answer (d' : Desk) : d.answer = some d' → Acted d d'

theorem Acted.plays {i : Side} {d' : Desk} (ha : Acted (d i) d') (h : Plays d) (hs : Streams d)
    (hf : ∀ i, (d i).Fine) : Plays (Function.update d i d') := by
  cases ha with
  | arrive n => exact h.arrive hs hf i n
  | frame hw con _ ha => exact h.frame hs hf ha
  | gate hw sim _ ha => exact h.gate ha
  | micro _ ha => exact h.micro ha
  | answer _ ha => exact h.answer hs hf ha

/-- Either one desk acts, or the relay does; and then every desk is as it was, or new. -/
theorem step_split {e : WorldEv} (hst : w.step e = some w') :
    (∃ c d₀ d₁, w.desk c = some d₀ ∧ Acted d₀ d₁ ∧ w' = w.put c d₁) ∨
    (∃ e', w.server.step e' = some w'.server) ∧ ∀ c d', w'.desk c = some d' →
      (∃ d₀, w.desk c = some d₀ ∧ d₀.Same d') ∨
        c = w.server.next ∧ ∃ b name m r, d' = Desk.new b name m r := by
  have hserve : ∀ {e' : Relay.Event} {w₁ : World}, w.serve e' = some w₁ →
      w.server.step e' = some w₁.server ∧
        ∀ c d', w₁.desk c = some d' → ∃ d₀, w.desk c = some d₀ ∧ d₀.Same d' := by
    intro e' w₁ hs
    obtain ⟨t, ht, rfl⟩ := Option.map_eq_some_iff.mp hs
    refine ⟨ht, fun c d' hd' => ?_⟩
    obtain ⟨d₀, hd₀, rfl⟩ := Option.map_eq_some_iff.mp hd'
    exact ⟨d₀, hd₀, rfl, rfl, rfl, rfl, rfl⟩
  have hrelay : ∀ {e' : Relay.Event}, w.serve e' = some w' →
      (∃ e', w.server.step e' = some w'.server) ∧ ∀ c d', w'.desk c = some d' →
        (∃ d₀, w.desk c = some d₀ ∧ d₀.Same d') ∨
          c = w.server.next ∧ ∃ b name m r, d' = Desk.new b name m r := fun hs =>
    ⟨⟨_, (hserve hs).1⟩, fun c d' hd' => .inl ((hserve hs).2 c d' hd')⟩
  cases e with
  | connect addr now b name m r =>
    rw [World.step, Option.map_eq_some_iff] at hst
    obtain ⟨w₁, hs, hput⟩ := hst
    split at hput
    · subst hput
      refine .inr ⟨⟨_, (hserve hs).1⟩, fun c d' hd' => ?_⟩
      simp only [World.put, Function.update_apply] at hd'
      split at hd'
      · next hc => exact .inr ⟨hc, b, name, m, r, (Option.some.inj hd').symm⟩
      · exact .inl ((hserve hs).2 c d' hd')
    · exact .inr (hrelay (hput ▸ hs))
  | visit addr now => exact .inr (hrelay hst)
  | recv c n k =>
    obtain ⟨d, -, hs⟩ := Option.bind_eq_some_iff.mp hst
    exact .inr (hrelay (Option.ite_none_left_eq_some.mp hs).2)
  | say c data k => exact .inr (hrelay (Option.ite_none_right_eq_some.mp hst).2)
  | hangup c k => exact .inr (hrelay hst)
  | flush c res => exact .inr (hrelay hst)
  | sweep now => exact .inr (hrelay hst)
  | arrive c n =>
    obtain ⟨d₀, d₁, hd, hf, rfl⟩ := act_eq hst
    exact .inl ⟨c, d₀, d₁, hd, Option.some.inj hf ▸ .arrive n, rfl⟩
  | frame c hw con =>
    obtain ⟨d₀, d₁, hd, hf, rfl⟩ := act_eq hst
    exact .inl ⟨c, d₀, d₁, hd, .frame hw con d₁ hf, rfl⟩
  | gate c hw sim =>
    obtain ⟨d₀, d₁, hd, hf, rfl⟩ := act_eq hst
    exact .inl ⟨c, d₀, d₁, hd, .gate hw sim d₁ hf, rfl⟩
  | micro c =>
    obtain ⟨d₀, d₁, hd, hf, rfl⟩ := act_eq hst
    exact .inl ⟨c, d₀, d₁, hd, .micro d₁ hf, rfl⟩
  | answer c =>
    obtain ⟨d₀, d₁, hd, hf, rfl⟩ := act_eq hst
    exact .inl ⟨c, d₀, d₁, hd, .answer d₁ hf, rfl⟩

/-- Any two desks the relay has introduced show a match. -/
def Playing (w : World) : Prop :=
  ∀ who seed d, Introduced who seed w.server.trace → (∀ i, w.desk (who i) = some (d i)) → Plays d

/-- Who has been introduced had come. -/
theorem Sound.introduced_known (h : w.Sound delay variation) (hconform : AllConform w.server.trace)
    (hi : Introduced who seed w.server.trace) (i : Side) : who i ≠ w.server.next := by
  obtain ⟨hall, ht⟩ := h.session.tracks hconform
  obtain ⟨hhost, hguest⟩ := Relay.past_of_matched ht.log hi.matched
  have hpast : who i ∈ hall.past := by
    cases i with
    | host => exact hhost
    | guest => exact hguest
  exact Nat.ne_of_lt ((ht.past _).mp hpast)

/-- They meet in this step: neither has READ anything, and both stand at the handover. -/
theorem Sound.plays_meet (h : w.Sound delay variation) (hlater : w'.Sound delay variation)
    (ht : w.server.trace <+: w'.server.trace) (hconform : AllConform w'.server.trace)
    (hi : Introduced who seed w'.server.trace) (hd : ∀ i, w'.desk (who i) = some (d i))
    (hnew : Relay.Act.matched (who .host) (who .guest) seed ∉ w.server.trace)
    (hdesks : ∀ i, (∃ d₀, w.desk (who i) = some d₀ ∧ d₀.Same (d i)) ∨ (d i).read = []) : Plays d := by
  obtain ⟨-, pre, post, hlog, hsent⟩ := hlater.channel hconform hi hd
  have hpre : w.server.trace <+: pre := by
    rw [hlog] at ht
    rcases List.prefix_or_prefix_of_prefix ht (List.prefix_append _ _) with hpre | ⟨as, has⟩
    · exact hpre
    · rw [← has, List.prefix_append_right_inj] at ht
      cases as with
      | nil => exact ⟨[], by rw [← has, List.append_nil, List.append_nil]⟩
      | cons a as =>
        obtain ⟨rfl, -⟩ := List.cons_prefix_cons.mp ht
        exact absurd (has ▸ List.mem_append_right _ List.mem_cons_self) hnew
  have hread : ∀ i, (d i).read = [] := by
    intro i
    rcases hdesks i with ⟨d₀, hd₀, hsame⟩ | hread
    · by_contra hread
      exact h.sent hd₀ (hsame.read ▸ hread)
        (List.prefix_nil.mp ((hsent i).1 ▸ hpre.filterMap (Relay.Act.sentTo (who i))))
    · exact hread
  have hseat : ∀ i solo, (d i).seat ≠ .game solo := by
    intro i solo hgame
    have hlen := ((hlater.fine _ _ (hd i)).read hgame).1
    rw [hread i] at hlen
    exact absurd hlen (by decide)
  intro x hx
  refine ⟨x, ⟨x, [], hx, rfl⟩, fun i => (beside_offstage (hseat i)).mpr ?_⟩
  rw [(hlater.fine _ _ (hd i.other)).quiet (hseat i.other), Station.carry, List.append_nil]

theorem playing_step {e : WorldEv} (h : w.Sound delay variation)
    (hplaying : AllConform w.server.trace → w.Playing) (hst : w.step e = some w')
    (hconform : AllConform w'.server.trace) : w'.Playing := by
  have h' := h.step hst
  intro who seed d' hi hd'
  rcases step_split hst with ⟨c, d₀, d₁, hd₀, hacted, rfl⟩ | ⟨⟨e', ht⟩, hdesks⟩
  · -- A desk acts: one of the two, or neither.
    have hi : Introduced who seed w.server.trace := hi
    have hconform : AllConform w.server.trace := hconform
    have hother : ∀ i, who i ≠ c → w.desk (who i) = some (d' i) := by
      intro i hne
      have hdi := hd' i
      rwa [put_of_ne hne] at hdi
    by_cases hc : ∃ i, who i = c
    · obtain ⟨i, rfl⟩ := hc
      have hne := (h'.channel hconform hi hd').1 i
      have hd : ∀ j, w.desk (who j) = some (Function.update d' i d₀ j) := by
        refine Side.both i ?_ ?_
        · rw [Function.update_self]
          exact hd₀
        · rw [Function.update_of_ne (Side.other_ne i)]
          exact hother i.other hne.symm
      have hplays := hplaying hconform who seed _ hi hd
      have hself : Function.update d' i d₀ i = d₀ := Function.update_self ..
      have hnow := Acted.plays (i := i) (hself.symm ▸ hacted) hplays (h.streams hconform hi hd)
        fun j => h.fine _ _ (hd j)
      have hdi : d' i = d₁ := by
        have hdi := hd' i
        rw [put_self] at hdi
        exact (Option.some.inj hdi).symm
      rw [Function.update_idem, ← hdi, Function.update_eq_self] at hnow
      exact hnow
    · exact hplaying hconform who seed d' hi fun i => hother i fun heq => hc ⟨i, heq⟩
  · have hlater : w.server.room.Later w'.server.room :=
      Server.step_later ⟨h.going.nodup, h.going.known⟩
        ⟨Nat.le_refl _, List.prefix_refl _, fun _ => List.prefix_refl _, h.fresh⟩ ht
    have hbefore : AllConform w.server.trace := Relay.Room.Conform.of_prefix hconform hlater.trace
    by_cases hold : Relay.Act.matched (who .host) (who .guest) seed ∈ w.server.trace
    · -- They had met before, and the relay does nothing to their desks.
      obtain ⟨as, has⟩ := hlater.trace
      have has : w.server.trace ++ as = w'.server.trace := has
      have hi₀ : Introduced who seed w.server.trace := (has ▸ hi).before hold
      have hsame : ∀ i, ∃ d₀, w.desk (who i) = some d₀ ∧ d₀.Same (d' i) := fun i =>
        (hdesks _ _ (hd' i)).resolve_right fun hnew => h.introduced_known hbefore hi₀ i hnew.1
      choose d hd hsame using hsame
      exact (hplaying hbefore who seed d hi₀ hd).same hsame
    · refine h.plays_meet h' hlater.trace hconform hi hd' hold fun i => ?_
      refine (hdesks _ _ (hd' i)).imp_right ?_
      rintro ⟨-, b, name, m, r, hnew⟩
      rw [hnew]
      rfl

theorem playing_of_reachable (h : world.Reachable w) (hconform : AllConform w.server.trace) :
    w.Playing :=
  (world.reachable_invariant (I := fun w => (∃ delay variation, World.Sound delay variation w) ∧
      (AllConform w.server.trace → Playing w))
    (fun w hinit => ⟨⟨_, _, sound_of_init hinit⟩, fun _ who seed d hi hd => by
      have hdesk := hd .host
      rw [hinit.2] at hdesk
      cases hdesk⟩)
    (fun _ _ _ ⟨⟨_, _, h⟩, hplaying⟩ hst =>
      ⟨⟨_, _, h.step hst⟩, playing_step h hplaying hst⟩) h).2 hconform

/-- Take any run of the whole system, in which whoever is at no desk keeps to the protocol, and two
    consoles the relay has introduced that have neither gone nor been told the other has. Whatever
    handovers those of them that do not play yet will come to, there is a reachable state of the match
    that the two show: who plays is where its end is, with what its cartridge holds, and on its wire is
    exactly what the other has written and it has not received; and what is on its way to it from the
    relay's kernel comes first. -/
theorem world_refines_lockstep (h : world.Reachable w) (hp : w.Polite)
    (hi : Introduced who seed w.server.trace) (hd : ∀ i, w.desk (who i) = some (d i))
    {x : Side → Station} (hx : ∀ i, (x i).Start i) :
    ∃ s, lockstep.Reachable s ∧ ∀ i,
      (d i).Beside (x i) (d i.other).wrote (s i) ∧
      ((∃ solo, (d i).seat = .game solo) → (d i).down <+: (s i).wire) := by
  obtain ⟨delay, variation, hsound⟩ := sound_of_reachable h
  have hconform := hsound.conform hp
  have hstreams := hsound.streams hconform hi hd
  obtain ⟨s, hs, hb⟩ := playing_of_reachable h hconform who seed d hi hd x hx
  refine ⟨s, hs, fun i => ⟨hb i, ?_⟩⟩
  rintro ⟨solo, hseat⟩
  rw [((beside_game hseat).mp (hb i)).2.2.2]
  exact hstreams.down i ((hsound.fine _ _ (hd i)).read hseat).1

/-! ### An evening -/

/-- The tick of a console that plays, and how much waits in its cartridge. -/
def shows (d : Desk) : Option (ℤ × ℕ) :=
  match d.seat with
  | .game solo => some (solo.tape.tick, d.inbox.length)
  | _ => none

theorem shows_some {d : Desk} {t : ℤ} {n : ℕ} (h : shows d = some (t, n)) :
    ∃ solo, d.seat = .game solo ∧ solo.tape.tick = t ∧ d.inbox.length = n := by
  rw [shows] at h
  split at h
  · next solo hseat =>
    obtain ⟨htick, hlen⟩ := Prod.mk.inj (Option.some.inj h)
    exact ⟨solo, hseat, htick, hlen⟩
  · cases h

/-- A relay that has just started listening, and nobody there. -/
def opening : World := ⟨Relay.listening, fun _ => none⟩

theorem init_opening : world.init opening := ⟨Relay.init_listening, rfl⟩

/-- A page an idle cartridge has painted. -/
def idlePage : Page := { painted 0 [] 0 with fnrcmd := fnrack }

/-- Somebody sits down with a console that has a name, or none. -/
def sits (host : ℕ) (name : Appkey) : WorldEv :=
  .connect (host, 0) 0 Relay.ntsc name idlePage Regs.cleared

/-- START arrives in two pieces, with a STATUS between them, and is READ. -/
def comesIn (c : ℕ) : List WorldEv :=
  [.flush c (.some 100), .arrive c 10, .answer c, .frame c Hw.rest Console.cleared,
    .frame c Hw.rest Console.cleared, .arrive c 5, .answer c, .frame c Hw.rest Console.cleared, .answer c,
    .frame c Hw.rest Console.cleared]

/-- Four consoles; the first and the last say HELLO and are introduced. The first has written a record,
    and the relay has passed it on, before the second runs a frame. -/
def meetup : List WorldEv :=
  [sits 0 (.value [0x41, 0x4C]), sits 1 (.value []), sits 2 .unread, sits 3 (.value [0x42, 0x4F]),
    .recv 0 3 0, .recv 0 100 0, .recv 3 100 0] ++ comesIn 0 ++ comesIn 3 ++
  [.gate 0 Hw.rest Console.cleared.sim, .micro 0, .answer 0, .recv 0 9 0, .recv 0 9 0,
    .flush 3 (.some 16), .arrive 3 16]

def met : Side → ℕ
  | .host => 0
  | .guest => 3

instance (who : Side → ℕ) (seed : ℕ) (log : List Relay.Act) : Decidable (Introduced who seed log) :=
  decidable_of_iff (_ ∧ _ ∧ _)
    ⟨fun ⟨hmatched, hstayed, huntold⟩ => ⟨hmatched, hstayed, huntold⟩,
      fun h => ⟨h.matched, h.stayed, h.untold⟩⟩

theorem polite_of_conform (h : AllConform w.server.trace) : w.Polite := fun c _ => h c

/-- Then the host has run tick 0, and its record waits at the guest, which has yet to begin. -/
theorem meetup_run : ∃ (w : World) (d : Side → Desk) (solo : Side → Solo),
    world.run opening meetup = some w ∧ w.Polite ∧ Introduced met 1 w.server.trace ∧
    (∀ i, w.desk (met i) = some (d i)) ∧ (∀ i, (d i).seat = .game (solo i)) ∧
    (solo .host).tape.tick = 0 ∧ (solo .guest).tape.tick = -1 ∧ (d .guest).inbox.length = 16 := by
  obtain ⟨w, hrun, hconform, hi, hhost, hguest⟩ := world.exists_run (s := opening) (e := meetup)
    (Q := fun w => AllConform w.server.trace ∧ Introduced met 1 w.server.trace ∧
      (w.desk 0).bind shows = some (0, 0) ∧ (w.desk 3).bind shows = some (-1, 16)) (by decide +kernel)
  obtain ⟨d₀, hd₀, hshows₀⟩ := Option.bind_eq_some_iff.mp hhost
  obtain ⟨d₃, hd₃, hshows₃⟩ := Option.bind_eq_some_iff.mp hguest
  obtain ⟨solo₀, hs₀, htick₀, -⟩ := shows_some hshows₀
  obtain ⟨solo₃, hs₃, htick₃, hlen₃⟩ := shows_some hshows₃
  exact ⟨w, fun i => i.casesOn d₀ d₃, fun i => i.casesOn solo₀ solo₃, hrun, polite_of_conform hconform,
    hi, fun i => by cases i <;> assumption, fun i => by cases i <;> assumption, htick₀, htick₃, hlen₃⟩

theorem world_refines_lockstep_meetup : ∃ (w : World) (d : Side → Desk) (solo : Side → Solo),
    world.run opening meetup = some w ∧ w.Polite ∧ Introduced met 1 w.server.trace ∧
    (∀ i, w.desk (met i) = some (d i)) ∧ (∀ i, (d i).seat = .game (solo i)) ∧
    ∃ s, lockstep.Reachable s ∧ ∀ i, (s i).solo = solo i ∧ (s i).mail = (d i).mail.toMail ∧
      (s i).inbox = (d i).inbox ∧ (d i).down <+: (s i).wire := by
  obtain ⟨w, d, solo, hrun, hp, hi, hd, hs, -⟩ := meetup_run
  obtain ⟨s, hlock, hb⟩ :=
    world_refines_lockstep ⟨opening, meetup, init_opening, hrun⟩ hp hi hd init_rest
  refine ⟨w, d, solo, hrun, hp, hi, hd, hs, s, hlock, fun i => ?_⟩
  obtain ⟨hbeside, hdown⟩ := hb i
  obtain ⟨hsolo, hmail, hinbox, -⟩ := (beside_game (hs i)).mp hbeside
  exact ⟨hsolo, hmail, hinbox, hdown ⟨solo i, hs i⟩⟩

/-! ### What follows -/

/-- The roles in a match. -/
theorem roles_of_reachable {s : Link} (h : lockstep.Reachable s) (i : Side) :
    has (s i).solo.con.voent voeRole = i.swaps := by
  refine (lockstep.reachable_invariant
    (I := fun s => InStep s ∧ ∀ i, has (s i).solo.con.voent voeRole = i.swaps) ?_ ?_ h).2 i
  · intro s h₀
    exact ⟨fun i => Paired.start (h₀ i) (h₀ i.other),
      fun i => (Agreed.start (y := s i.other) (h₀ i)).player⟩
  · intro s e t ⟨hstep, hrole⟩ hst
    refine ⟨hstep.step hst, ?_⟩
    rcases Link.step_cases hst with ⟨i, hw, sim, -, -, hi, hj⟩ | ⟨i, -, -, hi, hj⟩ |
      ⟨i, -, ha, hi, hj⟩ | ⟨i, n, -, hi, hj⟩
    all_goals refine Side.both i ?_ ?_ <;> rw [‹t _ = _›]
    · exact (frame_cases hw sim (s i).solo.con (hstep i).sound.net).1.role.trans (hrole i)
    · exact hrole i.other
    · rw [(micro_fixed (s i) (s i.other).sent).1]
      exact (kept_vonstep (s i).mail (s i).solo.con (s i).solo.regs).role.trans (hrole i)
    · exact hrole i.other
    · exact hrole i
    · exact hrole i.other
    · exact hrole i
    · exact hrole i.other

/-- Two consoles that play, of two the relay has introduced, are a host and a guest at most three ticks
    apart; and what waits in either's cartridge begins with a whole record of the other's. -/
theorem world_in_step (h : world.Reachable w) (hp : w.Polite)
    (hi : Introduced who seed w.server.trace) (hd : ∀ i, w.desk (who i) = some (d i))
    {solo : Side → Solo} (hs : ∀ i, (d i).seat = .game (solo i)) :
    |(solo .host).tape.tick - (solo .guest).tape.tick| ≤ vod.toNat + 1 ∧
    ∀ i, has (solo i).con.voent voeRole = i.swaps ∧ ∃ n ≤ (solo i.other).tape.sent.length,
      (d i).inbox <+: (flat (solo i.other).tape.sent).drop (16 * n) := by
  obtain ⟨delay, variation, hsound⟩ := sound_of_reachable h
  obtain ⟨s, hreach, hb⟩ :=
    playing_of_reachable h (hsound.conform hp) who seed d hi hd Link.rest init_rest
  have hshown : ∀ i, (s i).solo = solo i ∧ (s i).inbox = (d i).inbox := by
    intro i
    obtain ⟨hsolo, -, hinbox, -⟩ := (beside_game (hs i)).mp (hb i)
    exact ⟨hsolo, hinbox⟩
  have hstep := inStep_of_reachable hreach
  have htick : ∀ i, (s i).tick = (solo i).tape.tick := fun i => by rw [Station.tick, (hshown i).1]
  refine ⟨?_, fun i => ⟨(hshown i).1 ▸ roles_of_reachable hreach i, (s i).got, ?_, ?_⟩⟩
  · have hguest : (s .guest).tick ≤ (s .host).tick + 3 := (hstep .host).skew_le (hstep .guest)
    have hhost : (s .host).tick ≤ (s .guest).tick + 3 := (hstep .guest).skew_le (hstep .host)
    have hvod : (vod.toNat : ℤ) = 2 := rfl
    rw [← htick, ← htick, hvod, abs_le]
    omega
  · rw [← (hshown i.other).1]
    exact (hstep i).served.flow.got_le
  · rw [← (hshown i.other).1, ← (hshown i).2, ← Station.sent, ← (hstep i).served.flow.stream,
      List.append_assoc]
    exact List.prefix_append _ _

theorem world_in_step_meetup : ∃ (w : World) (d : Side → Desk) (solo : Side → Solo),
    world.run opening meetup = some w ∧ w.Polite ∧ Introduced met 1 w.server.trace ∧
    (∀ i, w.desk (met i) = some (d i)) ∧ (∀ i, (d i).seat = .game (solo i)) ∧
    (solo .host).tape.tick = 0 ∧ (solo .guest).tape.tick = -1 ∧ (d .guest).inbox.length = 16 ∧
    |(solo .host).tape.tick - (solo .guest).tape.tick| ≤ vod.toNat + 1 ∧
    ∀ i, has (solo i).con.voent voeRole = i.swaps ∧ ∃ n ≤ (solo i.other).tape.sent.length,
      (d i).inbox <+: (flat (solo i.other).tape.sent).drop (16 * n) := by
  obtain ⟨w, d, solo, hrun, hp, hi, hd, hs, hhost, hguest, hwaits⟩ := meetup_run
  exact ⟨w, d, solo, hrun, hp, hi, hd, hs, hhost, hguest, hwaits,
    world_in_step ⟨opening, meetup, init_opening, hrun⟩ hp hi hd hs⟩

/-- The relay of a reachable world is a reachable relay. -/
theorem server_of_reachable (h : world.Reachable w) : relay.Reachable w.server := by
  refine world.reachable_invariant (I := fun w => relay.Reachable w.server) ?_ ?_ h
  · exact fun w hinit => ⟨w.server, [], hinit.1, rfl⟩
  · rintro w e w' ⟨s₀, es, h₀, hrun⟩ hst
    rcases step_split hst with ⟨c, d₀, d₁, -, -, rfl⟩ | ⟨⟨e', ht⟩, -⟩
    · exact ⟨s₀, es, h₀, hrun⟩
    · exact ⟨s₀, es ++ [e'], h₀, relay.run_concat_some.mpr ⟨w.server, hrun, ht⟩⟩

/-- No console plays a match of another delay than its own, whatever else connects to the relay: one
    that plays was sent, first of all, a START, and the relay's delay is its own. -/
theorem world_delay (h : world.Reachable w) {c : ℕ} {d : Desk} {solo : Solo}
    (hd : w.desk c = some d) (hs : d.seat = .game solo) :
    BitVec.ofInt 8 w.server.delay = vod ∧ ∃ role seed them, d.read.take 15 =
      startOf role seed w.server.delay w.server.variation them := by
  obtain ⟨delay, variation, hsound⟩ := sound_of_reachable h
  obtain ⟨hlen, hdelay⟩ := (hsound.fine c d hd).read hs
  have hread : d.read ≠ [] := by
    rintro hnil
    rw [hnil] at hlen
    exact absurd hlen (by decide)
  obtain ⟨f, fs, hsent⟩ := List.exists_cons_of_ne_nil (hsound.sent hd hread)
  obtain ⟨role, seed, them, rfl⟩ := (Relay.inviting_of_reachable (server_of_reachable h)).first c
    (silent_of_fromRom (hsound.fromRom hd)) f (by rw [Relay.Server.room_trace, hsent]; rfl)
  have hstart : (startOf role seed w.server.delay w.server.variation them).length = 15 :=
    hsound.neat.start c _ (hsent ▸ List.mem_cons_self) (Relay.typeOf_frame _ _)
  -- START is the first frame of what it has been sent, and so of what it has READ.
  have hqueued := hsound.session.accounts.queued c
  rw [← Relay.flatten_framesTo, Relay.Server.room_trace, hsent, List.flatten_cons] at hqueued
  have htold : w.server.room.taken c = d.read ++ (d.inbox ++ d.down) :=
    (hsound.told c d hd).trans (List.append_assoc ..)
  rw [htold, List.append_assoc] at hqueued
  have hhead : d.read.take 15 = startOf role seed w.server.delay w.server.variation them := by
    have htake := congrArg (List.take 15) hqueued
    rw [List.take_append_of_le_length hlen] at htake
    refine htake.symm.trans ?_
    rw [Relay.Server.room_delay, Relay.Server.room_variation, ← hstart, List.take_left]
  have hbyte : d.read.getD 5 0 = BitVec.ofInt 8 w.server.delay := by
    have hkept : (d.read.take 15).getD 5 0 = d.read.getD 5 0 := by
      simp
    rw [← hkept, hhead]
    rfl
  exact ⟨hbyte.symm.trans hdelay, role, seed, them, hhead⟩

theorem world_delay_meetup : ∃ (w : World) (d : Desk) (solo : Solo),
    world.run opening meetup = some w ∧ w.desk 3 = some d ∧ d.seat = .game solo ∧
    BitVec.ofInt 8 w.server.delay = vod ∧ ∃ role seed them,
      d.read.take 15 = startOf role seed w.server.delay w.server.variation them := by
  obtain ⟨w, d, solo, hrun, -, -, hd, hs, -⟩ := meetup_run
  exact ⟨w, d .guest, solo .guest, hrun, hd .guest, hs .guest,
    world_delay ⟨opening, meetup, init_opening, hrun⟩ (hd .guest) (hs .guest)⟩

end World

end VO
