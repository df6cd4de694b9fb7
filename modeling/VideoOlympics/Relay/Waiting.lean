import VideoOlympics.Base.Refine
import VideoOlympics.Relay.Framing

/-! Who waits. A console that says HELLO meets whoever waits, so among consoles with manners no two
    wait at once, until one that is playing goes while another waits: then its partner waits too,
    and nobody pairs the two. -/

namespace VO.Relay
namespace Room

variable {r r' : Room} {c p : ℕ} {ftype : Byte} {payload : List Byte}

/-- Connected, named and without a partner. -/
def idle (r : Room) : List ℕ := r.clients.filter fun d => (r.name d).isSome && (r.partner d).isNone

theorem mem_idle {d : ℕ} :
    d ∈ r.idle ↔ d ∈ r.clients ∧ (r.name d).isSome ∧ r.partner d = none := by
  rw [idle, List.mem_filter, Bool.and_eq_true, Option.isNone_iff_eq_none]

theorem nodup_idle (h : r.Seated) : r.idle.Nodup := h.nodup.filter _

theorem idle_congr (hclients : r'.clients = r.clients) (hname : r'.name = r.name)
    (hpartner : r'.partner = r.partner) : r'.idle = r.idle := by
  rw [idle, hclients, hname, hpartner, idle]

/-- A newcomer has no name. -/
theorem idle_join (h : r.Seated) : r.join.idle = r.idle := by
  have hnew : r.next ∉ r.clients := fun hmem => Nat.lt_irrefl _ (h.known _ hmem)
  rw [idle, join]
  simp only [List.filter_append, List.filter_cons, Function.update_self, Option.isSome_none,
    Bool.false_and, Bool.false_eq_true, if_false, List.filter_nil, List.append_nil]
  refine List.filter_congr fun d hd => ?_
  have hne : d ≠ r.next := fun h => hnew (h ▸ hd)
  rw [Function.update_of_ne hne, Function.update_of_ne hne]

/-- Who goes without a partner leaves nobody waiting. -/
theorem idle_leave_single (hp : r.partner c = none) :
    (r.leave c).idle ⊆ r.idle := by
  intro d hd
  rw [mem_idle] at hd ⊢
  obtain ⟨-, -, -, hname, -⟩ := r.leave_fixed c
  refine ⟨r.leave_clients_subset c hd.1, hname ▸ hd.2.1, ?_⟩
  by_cases hc : c ∈ r.clients
  · obtain ⟨-, hpartner⟩ := leave_present hc
    rw [hp] at hpartner
    dsimp only at hpartner
    exact hpartner ▸ hd.2.2
  · exact leave_absent hc ▸ hd.2.2

/-- Who goes out of a match leaves one more waiting. -/
theorem idle_leave_paired (h : r.Decent) (hc : c ∈ r.clients) (hp : r.partner c = some p) :
    (r.leave c).idle.Perm (p :: r.idle) := by
  obtain ⟨hin, hne, hback⟩ := h.matching c hc p hp
  have hnamed : (r.name p).isSome := by
    rw [Option.isSome_iff_ne_none]
    intro hnone
    rw [h.unnamed p hnone] at hback
    cases hback
  have hnew : p ∉ r.idle := fun hmem => by
    rw [(mem_idle.mp hmem).2.2] at hback
    cases hback
  obtain ⟨hclients, hpartner⟩ := leave_present hc
  obtain ⟨-, -, -, hname, -⟩ := r.leave_fixed c
  rw [hp] at hpartner
  dsimp only at hpartner
  refine (List.perm_ext_iff_of_nodup (nodup_idle (h.seated.leave c))
    (List.nodup_cons.mpr ⟨hnew, nodup_idle h.seated⟩)).mpr fun d => ?_
  rw [mem_idle, List.mem_cons, mem_idle, hclients, hname, hpartner,
    List.Nodup.mem_erase_iff h.seated.nodup, Function.update_apply]
  by_cases hdp : d = p
  · subst hdp
    simp [hin, hne, hnamed]
  · simp only [hdp, if_false, false_or, and_congr_left_iff]
    rintro ⟨-, hfree⟩
    refine and_iff_right ?_
    rintro rfl
    rw [hp] at hfree
    cases hfree

/-- What a drop does to those who wait, where one at most did. -/
theorem oneWaits_leave (h : r.Decent) (hc : c ∈ r.clients) (hone : r.idle.length ≤ 1) :
    (r.leave c).idle.length ≤ 1 ↔ ((r.partner c).isSome → r.idle = []) := by
  cases hp : r.partner c with
  | none =>
    refine iff_of_true ?_ (by simp)
    exact Nat.le_trans ((nodup_idle (h.seated.leave c)).length_le_of_subset (idle_leave_single hp)) hone
  | some p =>
    rw [(idle_leave_paired h hc hp).length_eq, List.length_cons, ← List.length_eq_zero_iff]
    simp

/-- Where a client is in the service loop, when `n` consoles waited while it was playing: it is still
    playing; or it has gone, and its partner waits with them; or it never played, or found a partner
    on the way, and nobody has been left waiting beside another. -/
inductive Table (c n : ℕ) (r : Room) : Prop
  | playing : c ∈ r.clients → (r.partner c).isSome → r.idle.length = n → Table c n r
  | left : c ∉ r.clients → r.idle.length = n + 1 → Table c n r
  | single : n = 0 → r.idle.length ≤ 1 → (c ∈ r.clients → r.partner c = none) → Table c n r

theorem Table.leave {n : ℕ} (ht : r.Table c n) (h : r.Decent) : (r.leave c).Table c n := by
  have hgone := mem_clients_leave h.seated.nodup c
  cases ht with
  | playing hc hp hn =>
    obtain ⟨p, hp⟩ := Option.isSome_iff_exists.mp hp
    exact .left hgone (by rw [(idle_leave_paired h hc hp).length_eq, List.length_cons, hn])
  | left hc hn => exact .left hgone (by rw [leave_absent hc, hn])
  | single h₀ hn hp =>
    refine .single h₀ ?_ fun hmem => absurd hmem hgone
    by_cases hc : c ∈ r.clients
    · exact Nat.le_trans ((nodup_idle (h.seated.leave c)).length_le_of_subset
        (idle_leave_single (hp hc))) hn
    · rwa [leave_absent hc]

/-- Who has no name does not wait. -/
theorem others_unnamed (hnone : r.name c = none) : r.others c = r.idle := by
  have hout : c ∉ r.idle := fun hmem => by
    have := (mem_idle.mp hmem).2.1
    rw [hnone] at this
    cases this
  rw [others, ← idle]
  exact List.filter_eq_self.mpr fun d hd => bne_iff_ne.mpr fun h => hout (h ▸ hd)

theorem mem_idle_call {name : Name} {d : ℕ} (hdc : d ≠ c) :
    d ∈ (r.call c name).idle ↔ d ∈ r.idle := by
  have hname : (r.call c name).name d = r.name d := Function.update_of_ne hdc ..
  rw [mem_idle, mem_idle, hname]
  rfl

/-- Who says HELLO and meets the one who waited leaves nobody waiting. -/
theorem idle_meet {name : Name} {host seed : ℕ} {hn gn : Name} (hone : r.idle.length ≤ 1)
    (hhost : host ∈ r.idle) : ((r.call c name).meet host c seed hn gn).idle = [] := by
  have hpartner : ((r.call c name).meet host c seed hn gn).partner =
      Function.update (Function.update r.partner host (some c)) c (some host) := rfl
  refine List.eq_nil_iff_forall_not_mem.mpr ?_
  intro d hd
  obtain ⟨hin, hname, hd⟩ := mem_idle.mp hd
  have hdc : d ≠ c := by
    rintro rfl
    rw [hpartner, Function.update_self] at hd
    cases hd
  have hdh : d ≠ host := by
    rintro rfl
    rw [hpartner, Function.update_of_ne hdc, Function.update_self] at hd
    cases hd
  rw [hpartner, Function.update_of_ne hdc, Function.update_of_ne hdh] at hd
  have hd' : d ∈ r.idle := (mem_idle_call hdc).mp (mem_idle.mpr ⟨hin, hname, hd⟩)
  -- two of them cannot have waited
  have hboth : [d, host].Nodup :=
    List.nodup_cons.mpr ⟨fun h => hdh (List.mem_singleton.mp h), List.nodup_singleton host⟩
  have hsub : [d, host] ⊆ r.idle := List.cons_subset.mpr
    ⟨hd', List.cons_subset.mpr ⟨hhost, List.nil_subset _⟩⟩
  have hlen : 2 ≤ r.idle.length := hboth.length_le_of_subset hsub
  omega

/-- Who says HELLO first finds whoever waits, or waits alone. -/
theorem Table.meets {n : ℕ} {name : Name} (ht : r.Table c n) (h : r.Decent) (hc : c ∈ r.clients)
    (hnone : r.name c = none) (hp : (r.call c name).Pairs c r') : r'.Table c n := by
  have hfree := h.unnamed c hnone
  obtain ⟨h₀, hone⟩ : n = 0 ∧ r.idle.length ≤ 1 := by
    cases ht with
    | playing _ hp _ => exact absurd hp (by simp [hfree])
    | left hgone _ => exact absurd hc hgone
    | single h₀ hone _ => exact ⟨h₀, hone⟩
  cases hp with
  | alone hnobody =>
    rw [others_call, others_unnamed hnone] at hnobody
    refine .single h₀ ?_ fun _ => hfree
    have hsub : (r.call c name).idle ⊆ [c] := by
      intro d hd
      by_contra hdc
      have hd' := (mem_idle_call fun h => hdc (List.mem_singleton.mpr h)).mp hd
      rw [hnobody] at hd'
      cases hd'
    exact (nodup_idle (r := r.call c name) ⟨h.seated.nodup, h.seated.known⟩).length_le_of_subset hsub
  | met host seed hn gn hhost _ _ _ _ =>
    rw [others_call, others_unnamed hnone] at hhost
    refine .playing hc ?_ (by rw [idle_meet hone hhost, h₀]; rfl)
    exact Option.isSome_of_eq_some (Function.update_self ..)

/-- A frame that keeps the manners. -/
theorem Table.handles {n : ℕ} (ht : r.Table c n) (h : r.Decent)
    (hhere : c ∈ r.clients ∨ framesOf c r.trace ≠ [])
    (hpolite : Polite (framesOf c r.trace ++ [(ftype, payload)]))
    (hh : (r.note (.handled c ftype payload)).Handles c ftype payload r') : r'.Table c n := by
  obtain ⟨hjoin, hhello⟩ := hpolite.concat
  have hsame : ∀ {r' : Room}, r'.clients = r.clients → r'.name = r.name → r'.partner = r.partner →
      r'.Table c n := by
    intro r' hclients hname hpartner
    have hidle := idle_congr hclients hname hpartner
    cases ht with
    | playing hc hp hn => exact .playing (hclients ▸ hc) (hpartner ▸ hp) (hidle ▸ hn)
    | left hc hn => exact .left (hclients ▸ hc) (hidle ▸ hn)
    | single h₀ hn hp => exact .single h₀ (hidle ▸ hn) (hclients ▸ hpartner ▸ hp)
  have hnoted : (r.note (.handled c ftype payload)).Table c n := hsame rfl rfl rfl
  have hdecent : (r.note (.handled c ftype payload)).Decent := by
    refine ⟨⟨h.seated.nodup, h.seated.known⟩, h.matching, fun d hd => ?_, h.unnamed⟩
    exact h.unsent d (framesOf_nil_before (List.prefix_append _ _) hd)
  cases hh with
  | refused _ _ => exact hnoted.leave hdecent
  | gone _ => exact hnoted.leave hdecent
  | welcomed name _ hhello' _ _ hp =>
    have hfirst := hhello hhello'
    exact hnoted.meets hdecent (hhere.resolve_right (not_not_intro hfirst)) (h.unsent c hfirst) hp
  | joined _ hjoin' _ => exact absurd hjoin' hjoin
  | _ => exact hsame rfl rfl rfl

end Room

namespace Server

variable {s t : Server} {k c : ℕ}

@[simp] theorem room_idle (s : Server) : s.room.idle = s.idle := rfl

/-- At most one console waits. -/
def OneWaits (s : Server) : Prop := s.idle.length ≤ 1

instance (s : Server) : Decidable s.OneWaits := inferInstanceAs (Decidable (_ ≤ _))

theorem serviceLoop_table {turns n : ℕ} (hd : s.room.Decent) (hc : c ∈ s.clients)
    (ht : s.room.Table c n) (hpolite : AllPolite t.trace) (h : s.serviceLoop k turns c = .ok t) :
    t.room.Table c n := by
  refine serviceLoop_keeps (c := c) (P := fun _ _ _ _ => True)
    (I := fun r => AllPolite r.trace →
      r.Decent ∧ (c ∈ r.clients ∨ framesOf c r.trace ≠ []) ∧ r.Table c n)
    (J := fun r => AllPolite r.trace → r.Table c n) ?_ (fun _ hr hp => (hr hp).2.2) ?_
    (eachFrame_of_forall (fun _ _ _ _ => trivial) turns s) (fun _ => ⟨hd, .inl hc, ht⟩) h hpolite
  · intro s₁ r' _ ftype payload rest hr _ _ _ hh hp
    have htaken := hp.before hh.trace
    obtain ⟨hd, hhere, ht⟩ := hr (htaken.before (List.prefix_append _ _))
    have hnow := htaken c
    rw [Room.note, framesOf_append, framesOf_handled] at hnow
    have ht' : (s₁.room.setRx c rest).Table c n := by
      cases ht with
      | playing hc hp hn => exact .playing hc hp hn
      | left hc hn => exact .left hc hn
      | single h₀ hn hp => exact .single h₀ hn hp
    exact ⟨(hd.setRx c rest).handles hhere hnow hh,
      .inr (Room.framesOf_ne_nil_of_handled hh.trace), ht'.handles (hd.setRx c rest) hhere hnow hh⟩
  · intro r hr hp
    obtain ⟨hd, -, ht⟩ := hr (hp.before (r.leave_trace c))
    exact ht.leave hd

/-- A client's socket takes so little that its backlog is too long, or fails. -/
def Chokes (tx : List Byte) : Sent → Prop
  | .some n => maxTxBacklog < (tx.drop n).length
  | .blocked => maxTxBacklog < tx.length
  | .failed => True

instance (tx : List Byte) : ∀ res, Decidable (Chokes tx res)
  | .some n => inferInstanceAs (Decidable (maxTxBacklog < (tx.drop n).length))
  | .blocked => inferInstanceAs (Decidable (maxTxBacklog < tx.length))
  | .failed => .isTrue trivial

/-- An event drops a client: its connection ends, or what it sends has a length byte no frame has, or
    a frame it is dropped for; its socket does not take what waits for it; or it is time to. -/
def Loses (s : Server) (c : ℕ) : Event → Prop
  | .accept _ _ => False
  | .recv d data _ => d = c ∧ (data = [] ∨ (framer.parse ((s.obj c).rx ++ data)).bad ≠ none ∨
      ∃ f ∈ (framer.parse ((s.obj c).rx ++ data)).frames, drops f = true)
  | .flush d res => d = c ∧ (s.obj c).tx ≠ [] ∧ Chokes (s.obj c).tx res
  | .sweep now => (s.obj c).name = none ∧ helloTimeout < now - (s.obj c).born

instance (s : Server) (c : ℕ) : ∀ e, Decidable (s.Loses c e)
  | .accept _ _ => .isFalse id
  | .recv _ _ _ => inferInstanceAs (Decidable (_ ∧ (_ ∨ _ ∨ _)))
  | .flush _ _ => inferInstanceAs (Decidable (_ ∧ _ ∧ _))
  | .sweep _ => inferInstanceAs (Decidable (_ ∧ _))

/-- No console is dropped out of a match while another waits. -/
def Unparted (s : Server) (e : Event) : Prop :=
  ∀ c ∈ s.clients, (s.obj c).partner.isSome → s.Loses c e → s.idle = []

instance (s : Server) (e : Event) : Decidable (s.Unparted e) :=
  inferInstanceAs (Decidable (∀ c ∈ s.clients, _ → _ → _))

/-- Of an event that is one client's, only that client matters. -/
theorem unparted_iff {e : Event} (hc : c ∈ s.clients) (hown : ∀ d, s.Loses d e → d = c) :
    s.Unparted e ↔ ((s.obj c).partner.isSome → s.Loses c e → s.idle = []) := by
  refine ⟨fun h => h c hc, ?_⟩
  intro h d _ hp hlost
  obtain rfl := hown d hlost
  exact h hp hlost

/-- The idle after a client has or has not been dropped. -/
theorem oneWaits_iff {r : Room} {p : Prop} (hd : r.Decent) (hc : c ∈ s.clients)
    (hclients : r.clients = s.clients) (hidle : r.idle = s.idle)
    (hpartner : r.partner c = (s.obj c).partner) (hone : s.OneWaits)
    (ht : p ∧ t.room = r.leave c ∨ ¬ p ∧ t.room = r) :
    t.OneWaits ↔ ((s.obj c).partner.isSome → p → s.idle = []) := by
  rw [OneWaits, ← room_idle]
  rcases ht with ⟨hp, ht⟩ | ⟨hp, ht⟩
  · rw [ht, Room.oneWaits_leave hd (hclients ▸ hc) (hidle ▸ hone), hpartner, hidle]
    exact ⟨fun h hpaired _ => h hpaired, fun h hpaired => h hpaired hp⟩
  · rw [ht, hidle]
    exact iff_of_true hone fun _ h => absurd h hp

theorem checkBacklog_room (s : Server) (c : ℕ) :
    maxTxBacklog < (s.obj c).tx.length ∧ (s.checkBacklog c).room = s.room.leave c ∨
      ¬ maxTxBacklog < (s.obj c).tx.length ∧ (s.checkBacklog c).room = s.room := by
  simp only [checkBacklog]
  split
  · next h => exact .inl ⟨h, by rw [room_drop, room_say, room_stats]⟩
  · next h => exact .inr ⟨h, rfl⟩

theorem flush_oneWaits_iff (hd : s.room.Decent) (hone : s.OneWaits) (hc : c ∈ s.clients)
    (res : Sent) : (s.flush c res).OneWaits ↔ s.Unparted (.flush c res) := by
  rw [unparted_iff (e := .flush c res) hc fun d h => h.1.symm, Loses]
  simp only [true_and]
  by_cases htx : (s.obj c).tx = []
  · have hsame : s.flush c res = s := by rw [flush.eq_def, if_pos htx]
    rw [hsame]
    exact iff_of_true hone fun _ h => absurd htx h.1
  simp only [ne_eq, htx, not_false_eq_true, true_and]
  rw [flush.eq_def, if_neg htx]
  cases res with
  | failed => exact oneWaits_iff hd hc rfl rfl rfl hone (.inl ⟨trivial, room_drop s c⟩)
  | blocked => exact oneWaits_iff hd hc rfl rfl rfl hone (checkBacklog_room s c)
  | some n =>
    let s' := { s with taken := Function.update s.taken c (s.taken c ++ (s.obj c).tx.take n) }.upd c
      fun o => { o with tx := o.tx.drop n }
    have hroom : s'.room = s.room.take c n := room_took s c n
    have htx' : (s'.obj c).tx = (s.obj c).tx.drop n := by rw [obj_upd, if_pos rfl]
    have hback := checkBacklog_room s' c
    rw [htx', hroom] at hback
    have hdecent : (s.room.take c n).Decent := hd.move (.take c n hc)
    exact oneWaits_iff (r := s.room.take c n) hdecent hc rfl rfl rfl hone hback

theorem sweepOne_oneWaits (now : ℕ) (hd : s.room.Decent) (hone : s.OneWaits) (c : ℕ) :
    (s.sweepOne now c).room.Decent ∧ (s.sweepOne now c).OneWaits := by
  simp only [sweepOne]
  split
  · next hold =>
    have hroom : ({ s with stats := { s.stats with
        helloTimeouts := s.stats.helloTimeouts + 1 } }.drop c).room = s.room.leave c := by
      rw [room_drop, room_stats]
    rw [OneWaits, ← room_idle, hroom]
    have hfree : s.room.partner c = none := hd.unnamed c hold.1
    refine ⟨(s.room.leave_moves c).keeps (fun _ _ hr hmove => hr.move hmove) hd, ?_⟩
    exact Nat.le_trans ((Room.nodup_idle (hd.seated.leave c)).length_le_of_subset
      (Room.idle_leave_single hfree)) hone
  · exact ⟨hd, hone⟩

theorem sweep_oneWaits (now : ℕ) (hd : s.room.Decent) (hone : s.OneWaits) :
    (s.sweep now).OneWaits := by
  simp only [sweep]
  generalize s.clients = cs
  induction cs generalizing s with
  | nil => exact hone
  | cons c cs ih =>
    obtain ⟨hd', hone'⟩ := sweepOne_oneWaits now hd hone c
    exact ih hd' hone'

/-- What a client sends leaves two waiting just when it drops the client out of a match while one
    waits. -/
theorem recv_oneWaits_iff (hd : s.room.Decent) (hone : s.OneWaits) (hc : c ∈ s.clients)
    {data : List Byte} (hdata : data ≠ []) (hpolite : AllPolite t.trace)
    (h : (s.hearing c data).service k c = .ok t) :
    t.OneWaits ↔ s.Unparted (.recv c data k) := by
  have hroom : (s.hearing c data).room = s.room.setRx c ((s.obj c).rx ++ data) := room_taking ..
  have hd' : (s.hearing c data).room.Decent := hroom ▸ hd.setRx c _
  have hlost : s.Loses c (.recv c data k) ↔ c ∉ t.clients := by
    rw [(serviceLoop_present hd'.seated (c := c) hc h).1, hearing, taking_rx, not_and_or]
    simp [Loses, hdata]
  rw [unparted_iff (e := .recv c data k) hc fun d h => h.1.symm, hlost]
  -- how many waited while the client was playing
  set n := if (s.obj c).partner.isSome then s.idle.length else 0 with hn
  have ht : (s.hearing c data).room.Table c n := by
    rw [hroom]
    by_cases hp : (s.obj c).partner.isSome
    · exact .playing hc hp (by rw [hn, if_pos hp]; rfl)
    · exact .single (by rw [hn, if_neg hp]) hone fun _ => Option.not_isSome_iff_eq_none.mp hp
  have hend := serviceLoop_table (s := s.hearing c data) hd' hc ht hpolite h
  rw [OneWaits, ← room_idle]
  by_cases hp : (s.obj c).partner.isSome
  · rw [if_pos hp] at hn
    cases hend with
    | playing hin _ hlen => 
      exact iff_of_true (by rw [hlen, hn]; exact hone) fun _ hout => absurd hin hout
    | left hout hlen =>
      rw [hlen, hn, ← List.length_eq_zero_iff]
      exact ⟨fun h _ _ => by omega, fun h => by rw [h hp hout]⟩
    | single h₀ hlen _ =>
      exact iff_of_true hlen fun _ _ => List.length_eq_zero_iff.mp (hn.symm.trans h₀)
  · rw [if_neg hp] at hn
    refine iff_of_true ?_ fun h => absurd h hp
    cases hend with
    | playing _ _ hlen => exact hlen.trans hn ▸ Nat.zero_le 1
    | left _ hlen => exact (hlen.trans (by rw [hn])) ▸ Nat.le_refl 1
    | single _ hlen _ => exact hlen

theorem step_oneWaits_iff {e : Event} (hd : s.room.Decent) (hpolite : AllPolite t.trace)
    (hone : s.OneWaits) (h : s.step e = some t) : t.OneWaits ↔ s.Unparted e := by
  cases e with
  | accept addr now =>
    refine iff_of_true ?_ fun d _ _ h => absurd h id
    rw [OneWaits, ← room_idle, ← Option.some.inj h]
    rcases s.room_accept addr now with h | h
    · rw [h]
      exact hone
    · rw [h, Room.idle_join hd.seated]
      exact hone
  | sweep now =>
    refine iff_of_true (Option.some.inj h ▸ sweep_oneWaits now hd hone) ?_
    intro d _ hp hold
    rw [show (s.obj d).partner = none from hd.unnamed d hold.1] at hp
    cases hp
  | flush c res =>
    rw [step] at h
    split at h
    · next hc => exact Option.some.inj h ▸ flush_oneWaits_iff hd hone hc res
    · cases h
  | recv c data k =>
    rcases step_cases h with ⟨-, hquiet⟩ | ⟨c', data', k', he, hdata, hc, hservice⟩
    · have hdata : data = [] := by simpa only [sentBy, if_true] using hquiet c
      rw [step] at h
      split at h
      · next hc =>
        rw [recv, if_pos hdata, Except.toOption, Option.some.injEq] at h
        rw [unparted_iff (e := .recv c data k) hc fun d h => h.1.symm, ← h]
        exact oneWaits_iff hd hc rfl rfl rfl hone (.inl ⟨⟨rfl, .inl hdata⟩, room_drop s c⟩)
      · cases h
    · cases he
      exact recv_oneWaits_iff hd hone hc hdata hpolite hservice

theorem decent_of_init (h : relay.init s) : s.room.Decent := by
  have hseated := seated_of_init h
  obtain ⟨delay, variation, lobby, random, -, -, rfl⟩ := h
  exact ⟨hseated, fun c hc => absurd hc (List.not_mem_nil), fun _ _ => rfl, fun _ _ => rfl⟩

end Server

/-- Among consoles with manners, at most one is left waiting after each event of a run just when in none
    of them a console is dropped out of a match while another waits. -/
theorem one_waits_iff {s₀ s : Server} {es : List Event} (h₀ : relay.init s₀)
    (hrun : relay.run s₀ es = some s) (hpolite : AllPolite s.trace) :
    relay.Throughout Server.OneWaits s₀ es ↔ relay.EachStep Server.Unparted s₀ es := by
  refine relay.throughout_iff_eachStep_good (J := fun s => s.room.Decent)
    (G := fun s => AllPolite s.trace) (fun _ _ _ hd hp hstep => Server.step_decent hd hp hstep)
    (fun _ _ _ hd hp hone hstep => Server.step_oneWaits_iff hd hp hone hstep)
    (relay.throughout_of_final (fun _ _ _ hstep hp => Server.allPolite_of_step hstep hp) hrun hpolite)
    (Server.decent_of_init h₀) ?_
  obtain ⟨delay, variation, lobby, random, -, -, rfl⟩ := h₀
  exact Nat.zero_le 1

/-- The one that waits gives up before a match ends; its survivor meets the next to come. -/
def patience : List Event := threeConsoles ++
  [.recv 2 [] 0, .recv 0 (frame tBye []) 0, .accept (3, 0) 3, .recv 3 (hello ['D', 'I']) 0]

theorem one_waits_iff_patience : ∃ s, relay.run listening patience = some s ∧
    relay.Throughout Server.OneWaits listening patience := by
  obtain ⟨s, hrun, hpolite⟩ : ∃ s, relay.run listening patience = some s ∧ AllPolite s.trace :=
    relay.exists_run (by decide +kernel)
  exact ⟨s, hrun, (one_waits_iff init_listening hrun hpolite).mpr (by decide +kernel)⟩

/-- Two play and a third waits; one of the two goes, and the other is not paired with the third. -/
theorem widow_waits : relay.init listening ∧
    ∃ s, relay.run listening (threeConsoles ++ [.recv 0 [] 0]) = some s ∧ AllPolite s.trace ∧
      (∀ c ∈ [0, 1, 2], (framesOf c s.trace).map Prod.fst = [tHello]) ∧ s.idle = [1, 2] ∧
      ¬ s.OneWaits :=
  ⟨init_listening, relay.exists_run (by decide +kernel)⟩

end VO.Relay
