import VideoOlympics.Base.Pairing
import VideoOlympics.Relay.Service

/-! Who plays whom. A drop strikes a link out at both ends and a match makes both ends, so the links
    pair connected consoles for as long as only a console that is connected and free is paired. The
    server does not ask: JOIN, and a second HELLO, pair whoever sent them. -/

namespace VO.Relay

/-- The frames that look for a partner. -/
def Seeks (ftype : Byte) (payload : List Byte) : Prop :=
  ftype = tJoin ∨ ftype = tHello ∧ helloOk payload = true

instance (ftype : Byte) (payload : List Byte) : Decidable (Seeks ftype payload) :=
  inferInstanceAs (Decidable (_ ∨ _))

theorem not_seeks_of_relay {ftype : Byte} {payload : List Byte} (h : ftype ∈ relayTypes) :
    ¬ Seeks ftype payload := by
  rintro (rfl | ⟨rfl, -⟩)
  · exact absurd h (by decide)
  · exact absurd h (by decide)

namespace Room

/-- Clients are listed once, and their identities have been given out. -/
structure Seated (r : Room) : Prop where
  nodup : r.clients.Nodup
  known : ∀ c ∈ r.clients, c < r.next

/-- The links pair connected clients. -/
def Matching (r : Room) : Prop := Pairing r.clients r.partner

/-- If a frame finds a partner, then for a client who is here and has none. -/
def Orderly (r : Room) (c : ℕ) (ftype : Byte) (payload : List Byte) : Prop :=
  Seeks ftype payload → r.others c ≠ [] → c ∈ r.clients ∧ r.partner c = none

theorem mem_others {r : Room} {c d : ℕ} : d ∈ r.others c ↔
    d ∈ r.clients ∧ (r.name d).isSome ∧ r.partner d = none ∧ d ≠ c := by
  simp only [others, List.mem_filter, Bool.and_eq_true, Option.isNone_iff_eq_none, bne_iff_ne,
    ne_eq, and_assoc]

/-- A client is not among its own others, so its name does not matter to them. -/
theorem others_call (r : Room) (c : ℕ) (name : Name) : (r.call c name).others c = r.others c := by
  simp only [others, call]
  rw [List.filter_filter, List.filter_filter]
  apply List.filter_congr
  intro d _
  by_cases hd : d = c
  · simp [hd]
  · simp [Function.update_of_ne hd]

theorem leave_present {r : Room} {c : ℕ} (hc : c ∈ r.clients) :
    (r.leave c).clients = r.clients.erase c ∧ (r.leave c).partner = match r.partner c with
      | some p => Function.update r.partner p none
      | none => r.partner := by
  simp only [leave, unlink]
  simp only [hc, not_true_eq_false, if_false, note]
  cases r.partner c with
  | none => exact ⟨rfl, rfl⟩
  | some p => exact ⟨rfl, rfl⟩

theorem Seated.leave {r : Room} (h : r.Seated) (c : ℕ) : (r.leave c).Seated := by
  by_cases hc : c ∈ r.clients
  · obtain ⟨hclients, -⟩ := leave_present hc
    obtain ⟨-, -, hnext, -, -⟩ := r.leave_fixed c
    exact ⟨hclients ▸ h.nodup.erase c,
      fun d hd => hnext ▸ h.known d (List.mem_of_mem_erase (hclients ▸ hd))⟩
  · rw [leave_absent hc]
    exact h

theorem Seated.join {r : Room} (h : r.Seated) : r.join.Seated where
  nodup := by
    refine List.nodup_append.mpr ⟨h.nodup, List.nodup_singleton _, ?_⟩
    intro c hc d hd hcd
    have := h.known c hc
    rw [List.mem_singleton] at hd
    omega
  known := by
    intro c hc
    change c < r.next + 1
    rcases List.mem_append.mp hc with hc | hc
    · exact Nat.lt_succ_of_lt (h.known c hc)
    · rw [List.mem_singleton.mp hc]
      exact Nat.lt_succ_self _

theorem Seated.move {r r' : Room} (h : r.Seated) (hmove : r.Move r') : r'.Seated := by
  cases hmove with
  | join => exact h.join
  | leave c _ => exact h.leave c
  | take c n _ => exact ⟨h.nodup, h.known⟩

theorem Seated.handles {r r' : Room} {c : ℕ} {ftype : Byte} {payload : List Byte} (h : r.Seated)
    (hh : r.Handles c ftype payload r') : r'.Seated := by
  have hpairs : ∀ {r r' : Room}, r.Seated → r.Pairs c r' → r'.Seated := by
    intro r r' h hp
    cases hp with
    | alone _ => exact h
    | met _ _ _ _ _ _ _ _ _ => exact ⟨h.nodup, h.known⟩
  cases hh with
  | refused _ _ => exact h.leave c
  | gone _ => exact h.leave c
  | welcomed name _ _ _ _ hp => exact hpairs (r := r.call c name) ⟨h.nodup, h.known⟩ hp
  | joined _ _ hp => exact hpairs h hp
  | _ => exact ⟨h.nodup, h.known⟩

theorem Matching.leave {r : Room} (hm : r.Matching) (hs : r.Seated) (c : ℕ) :
    (r.leave c).Matching := by
  by_cases hc : c ∈ r.clients
  · obtain ⟨hclients, hpartner⟩ := leave_present hc
    simp only [Matching]
    rw [hclients, hpartner]
    cases hp : r.partner c with
    | none => exact Pairing.erase_single hm hs.nodup hp
    | some p => exact Pairing.erase_paired hm hs.nodup hc hp
  · rw [leave_absent hc]
    exact hm

theorem Matching.move {r r' : Room} (hm : r.Matching) (hs : r.Seated) (hmove : r.Move r') :
    r'.Matching := by
  cases hmove with
  | join => exact Pairing.concat hm fun hmem => absurd (hs.known _ hmem) (Nat.lt_irrefl _)
  | leave c _ => exact hm.leave hs c
  | take c n _ => exact hm

/-- Looking for a partner leaves a matching just when it is for a client who is here and has none,
    if there is anybody to find. -/
theorem Pairs.matching_iff {r r' : Room} {c : ℕ} (h : r.Pairs c r') (hm : r.Matching) :
    r'.Matching ↔ (r.others c ≠ [] → c ∈ r.clients ∧ r.partner c = none) := by
  cases h with
  | alone hnone => exact ⟨fun _ hsome => absurd hnone hsome, fun _ => hm⟩
  | met host seed h g hhost _ _ _ _ =>
    obtain ⟨hin, -, hfree, hne⟩ := mem_others.mp hhost
    have hlink : (r.meet host c seed h g).Matching ↔ c ∈ r.clients ∧ r.partner c = none :=
      Pairing.link_iff hm hin hfree hne
    rw [hlink]
    exact ⟨fun h _ => h, fun h => h (List.ne_nil_of_mem hhost)⟩

/-- A frame leaves a matching just when it is orderly. -/
theorem Handles.matching_iff {r r' : Room} {c : ℕ} {ftype : Byte} {payload : List Byte}
    (h : r.Handles c ftype payload r') (hm : r.Matching) (hs : r.Seated) :
    r'.Matching ↔ r.Orderly c ftype payload := by
  have hquiet : ∀ {P : Prop}, ¬ Seeks ftype payload → r'.Matching → (r'.Matching ↔
      (Seeks ftype payload → P)) := fun hno hm' => ⟨fun _ h => absurd h hno, fun _ => hm'⟩
  cases h with
  | unheard hrelay _ => exact hquiet (not_seeks_of_relay hrelay) hm
  | relayed p hrelay _ => exact hquiet (not_seeks_of_relay hrelay) hm
  | refused ht hbad =>
    refine hquiet ?_ (hm.leave hs c)
    rintro (h | ⟨-, h⟩)
    · exact absurd (ht.symm.trans h) (by decide)
    · rw [hbad] at h
      cases h
  | welcomed name _ ht hgood _ hp =>
    rw [hp.matching_iff (r := r.call c name) hm, others_call]
    exact ⟨fun h _ => h, fun h => h (.inr ⟨ht, hgood⟩)⟩
  | listed ht =>
    subst ht
    exact hquiet (by simp [Seeks, tList, tJoin, tHello]) hm
  | joined _ ht hp =>
    rw [hp.matching_iff hm]
    exact ⟨fun h _ => h, fun h => h (.inl ht)⟩
  | pinged ht =>
    subst ht
    exact hquiet (by simp [Seeks, tPing, tJoin, tHello]) hm
  | gone ht =>
    subst ht
    exact hquiet (by simp [Seeks, tBye, tJoin, tHello]) (hm.leave hs c)
  | unknown _ h₁ _ h₂ _ _ =>
    refine hquiet ?_ hm
    rintro (h | ⟨h, -⟩)
    · exact h₂ h
    · exact h₁ h

end Room

/-! ### Runs -/

namespace Server

/-- For every connected client with a partner: the partner is connected, is another client, and
    has this one for its partner. -/
def Matching (s : Server) : Prop :=
  ∀ c ∈ s.clients, ∀ p ∈ (s.obj c).partner, p ∈ s.clients ∧ p ≠ c ∧ (s.obj p).partner = some c

instance (s : Server) : Decidable s.Matching :=
  inferInstanceAs (Decidable (∀ c ∈ s.clients, ∀ p ∈ (s.obj c).partner,
    p ∈ s.clients ∧ p ≠ c ∧ (s.obj p).partner = some c))

/-- If a frame finds a partner, then for a client who is here and has none. -/
def Orderly (s : Server) (c : ℕ) (ftype : Byte) (payload : List Byte) : Prop :=
  Seeks ftype payload → s.others c ≠ [] → c ∈ s.clients ∧ (s.obj c).partner = none

instance (s : Server) (c : ℕ) (ftype : Byte) (payload : List Byte) :
    Decidable (s.Orderly c ftype payload) := inferInstanceAs (Decidable (_ → _ → _))

theorem step_seated {s t : Server} {e : Event} (hs : s.room.Seated) (h : s.step e = some t) :
    t.room.Seated :=
  step_keeps (I := Room.Seated) (P := fun _ _ _ _ => True) (fun _ _ h hmove => h.move hmove)
    (fun _ _ _ h => ⟨h.nodup, h.known⟩)
    (fun s _ c ftype payload h _ hh =>
      Room.Seated.handles (r := s.room.note (.handled c ftype payload)) ⟨h.nodup, h.known⟩ hh)
    (eachHeard_of_forall (fun _ _ _ _ => trivial) s e) hs h

theorem seated_of_init {s : Server} (h : relay.init s) : s.room.Seated := by
  obtain ⟨delay, variation, lobby, random, -, -, rfl⟩ := h
  exact ⟨List.nodup_nil, fun c hc => by cases hc⟩

theorem handle_matching_iff {s s' : Server} {k c : ℕ} {ftype : Byte} {payload : List Byte}
    (hs : s.room.Seated) (hm : s.Matching) (h : s.handle k c ftype payload = .ok s') :
    s'.Matching ↔ s.Orderly c ftype payload :=
  Room.Handles.matching_iff (r := s.room.note (.handled c ftype payload)) (handle_ok h) hm
    ⟨hs.nodup, hs.known⟩

theorem step_matching {s t : Server} {e : Event} (hclean : s.EachHeard Orderly e)
    (hI : s.room.Seated ∧ s.Matching) (h : s.step e = some t) : t.room.Seated ∧ t.Matching :=
  step_keeps (I := fun r => r.Seated ∧ r.Matching) (P := Orderly)
    (fun _ _ hI hmove => ⟨hI.1.move hmove, hI.2.move hI.1 hmove⟩)
    (fun _ _ _ hI => ⟨⟨hI.1.nodup, hI.1.known⟩, hI.2⟩)
    (fun s r' c ftype payload hI hnow hh => by
      have hseated : (s.room.note (.handled c ftype payload)).Seated := ⟨hI.1.nodup, hI.1.known⟩
      exact ⟨hseated.handles hh, (hh.matching_iff hI.2 hseated).mpr hnow⟩)
    hclean hI h

end Server

/-- The links pair connected clients in every state of every run in which a frame only finds a
    partner for a client who is here and has none; and a frame that finds one otherwise breaks
    them. -/
theorem matching_of_orderly {s₀ s : Server} {es : List Event} (h₀ : relay.init s₀)
    (hrun : relay.run s₀ es = some s) :
    (relay.EachStep (fun s e => s.EachHeard Server.Orderly e) s₀ es →
        relay.Throughout Server.Matching s₀ es) ∧
      ∀ (k c : ℕ) (ftype : Byte) (payload : List Byte) (s' : Server), s.Matching →
        s.handle k c ftype payload = .ok s' → (s'.Matching ↔ s.Orderly c ftype payload) := by
  have hseated : s.room.Seated :=
    relay.reachable_invariant (I := fun s => s.room.Seated) (fun _ => Server.seated_of_init)
      (fun _ _ _ => Server.step_seated) ⟨s₀, es, h₀, hrun⟩
  have hmatching₀ : s₀.Matching := by
    obtain ⟨delay, variation, lobby, random, -, -, rfl⟩ := h₀
    exact fun c hc => by cases hc
  constructor
  · exact relay.throughout_of_eachStep (J := fun s => s.room.Seated ∧ s.Matching) (fun _ h => h.2)
      (fun s e t hI hclean => Server.step_matching hclean hI) ⟨Server.seated_of_init h₀, hmatching₀⟩
  · exact fun k c ftype payload s' hm h => Server.handle_matching_iff hseated hm h

/-- Two consoles are playing and a third waits. -/
def threeConsoles : List Event :=
  [.accept (0, 0) 0, .recv 0 (hello ['A', 'L']) 0, .accept (1, 0) 1, .recv 1 (hello ['B', 'O']) 0,
    .accept (2, 0) 2, .recv 2 (hello ['C', 'Y']) 0]

/-- One of the two leaves; the other, free again, asks for the third. -/
theorem matching_of_orderly_rejoin :
    ∃ s, relay.run listening (threeConsoles ++ [.recv 1 [1, tBye] 0, .recv 0 [1, tJoin] 0]) = some s ∧
      relay.Throughout Server.Matching listening
        (threeConsoles ++ [.recv 1 [1, tBye] 0, .recv 0 [1, tJoin] 0]) := by
  obtain ⟨s, hrun, -⟩ : ∃ s, relay.run listening
      (threeConsoles ++ [.recv 1 [1, tBye] 0, .recv 0 [1, tJoin] 0]) = some s ∧ True :=
    relay.exists_run (by decide +kernel)
  exact ⟨s, hrun, (matching_of_orderly init_listening hrun).1 (by decide +kernel)⟩

/-- A console that is playing asks for the one that waits: its first partner keeps a link to it. -/
theorem join_breaks_matching : relay.init listening ∧
    ∃ s, relay.run listening (threeConsoles ++ [.recv 0 [1, tJoin] 0]) = some s ∧ ¬ s.Matching :=
  ⟨init_listening, relay.exists_run (by decide +kernel)⟩

end VO.Relay
