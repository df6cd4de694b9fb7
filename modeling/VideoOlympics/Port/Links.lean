import VideoOlympics.Base.Pairing
import VideoOlympics.Port.Checksums
import VideoOlympics.Port.Loop
import VideoOlympics.Relay.Matching

/-! Links in C. A link is a slot's number and nothing else, so it is good for as long as that slot is
    not used again. A drop clears the link back before its slot is freed; a client that is paired while
    it has a partner leaves behind a link nobody clears, and whoever gets the slot next is at its end. -/

namespace VO.Port
open Relay

/-- Who a connection was last matched with. -/
def lastMet (games : List (ℕ × ℕ)) (c : ℕ) : Option ℕ :=
  games.reverse.findSome? fun g => if g.1 = c then some g.2 else if g.2 = c then some g.1 else none

theorem lastMet_concat (games : List (ℕ × ℕ)) (g : ℕ × ℕ) (c : ℕ) : lastMet (games ++ [g]) c =
    if g.1 = c then some g.2 else if g.2 = c then some g.1 else lastMet games c := by
  rw [lastMet, List.reverse_append, List.reverse_singleton, List.singleton_append,
    List.findSome?_cons]
  by_cases hhost : g.1 = c
  · rw [if_pos hhost, if_pos hhost]
  · by_cases hguest : g.2 = c
    · rw [if_neg hhost, if_pos hguest, if_neg hhost, if_pos hguest]
    · rw [if_neg hhost, if_neg hguest, if_neg hhost, if_neg hguest]
      rfl

namespace Rack

/-- The links of the connected pair them, and every link of a slot in use leads to one in use, and to
    the connection its own was last matched with. -/
structure Tied (r : Rack) : Prop where
  sound : r.Sound
  pairing : Pairing r.order r.partner
  met : ∀ i, r.inUse i = true → ∀ p ∈ r.partner i,
    r.inUse p = true ∧ lastMet r.games (r.conn i) = some (r.conn p)
  spare : ∀ i, r.inUse i = false → r.dead i = false → r.partner i = none

variable {r : Rack} {i : Index}

/-- A link that is there after a drop was there before. -/
theorem partner_leave {j p : Index} (h : p ∈ (r.leave i).partner j) : p ∈ r.partner j := by
  cases hdead : r.dead i with
  | true => rwa [leave_dead hdead] at h
  | false =>
    rw [(leave_live hdead).2.2] at h
    cases hp : r.partner i with
    | none => rwa [hp] at h
    | some q =>
      rw [hp] at h
      dsimp only at h
      rw [Function.update_apply] at h
      split at h
      · cases h
      · exact h

theorem Tied.leave (h : r.Tied) (i : Index) : (r.leave i).Tied := by
  cases hdead : r.dead i with
  | true => rwa [leave_dead hdead]
  | false =>
    obtain ⟨hinUse, hconn, -, -, -, hgames⟩ := r.leave_fixed i
    obtain ⟨horder, hdead', hpartner⟩ := leave_live hdead
    refine ⟨h.sound.leave i, ?_, ?_, ?_⟩
    · rw [horder, hpartner]
      cases hp : r.partner i with
      | none => exact h.pairing.erase_single h.sound.nodup hp
      | some p =>
        refine h.pairing.erase_paired h.sound.nodup ?_ hp
        -- a slot that was never used has no partner
        refine (h.sound.mem_order i).mpr ⟨?_, hdead⟩
        by_contra huse
        rw [h.spare i (by simpa using huse) hdead] at hp
        cases hp
    · intro j hj p hp
      rw [hinUse] at hj ⊢
      rw [hgames, hconn]
      exact h.met j hj p (partner_leave hp)
    · intro j hj hlive
      rw [hinUse] at hj
      rw [hdead', Function.update_apply] at hlive
      split at hlive
      · cases hlive
      · refine Option.eq_none_iff_forall_ne_some.mpr ?_
        intro p hp
        have := partner_leave (i := i) hp
        rw [h.spare j hj hlive] at this
        cases this

theorem Tied.seat (h : r.Tied) (hi : r.inUse i = false) : (r.seat i).Tied := by
  have hne : ∀ j, r.inUse j = true → j ≠ i := by
    rintro j hj rfl
    rw [hi] at hj
    cases hj
  refine ⟨h.sound.seat hi, ?_, ?_, ?_⟩
  · refine h.pairing.concat ?_
    intro hmem
    exact hne i ((h.sound.mem_order i).mp hmem).1 rfl
  · intro j hj p hp
    by_cases hji : j = i
    · rw [hji, show (r.seat i).partner i = none from Function.update_self ..] at hp
      cases hp
    · rw [show (r.seat i).partner j = r.partner j from Function.update_of_ne hji ..] at hp
      rw [show (r.seat i).inUse j = r.inUse j from Function.update_of_ne hji ..] at hj
      obtain ⟨huse, hmet⟩ := h.met j hj p hp
      refine ⟨(Function.update_of_ne (hne p huse) ..).trans huse, ?_⟩
      rw [show (r.seat i).conn j = r.conn j from Function.update_of_ne hji ..,
        show (r.seat i).conn p = r.conn p from Function.update_of_ne (hne p huse) ..]
      exact hmet
  · intro j hj hlive
    by_cases hji : j = i
    · rw [hji, show (r.seat i).inUse i = true from Function.update_self ..] at hj
      cases hj
    · rw [show (r.seat i).inUse j = r.inUse j from Function.update_of_ne hji ..] at hj
      rw [show (r.seat i).dead j = r.dead j from Function.update_of_ne hji ..] at hlive
      exact (Function.update_of_ne hji ..).trans (h.spare j hj hlive)

theorem Tied.reap (h : r.Tied) : r.reap.Tied where
  sound := h.sound.reap
  pairing := h.pairing
  met i hi p hp := by
    obtain ⟨huse, hlive⟩ := reap_inUse.mp hi
    refine ⟨reap_inUse.mpr ?_, (h.met i huse p hp).2⟩
    exact (h.sound.mem_order p).mp (h.pairing i ((h.sound.mem_order i).mpr ⟨huse, hlive⟩) p hp).1
  spare i hi hlive := by
    refine h.spare i ?_ hlive
    by_contra huse
    have hin : r.reap.inUse i = true := reap_inUse.mpr ⟨by simpa using huse, hlive⟩
    rw [hin] at hi
    cases hi

/-- Two who are connected and free meet. -/
theorem Tied.meet (h : r.Tied) {host guest : Index} (hhost : host ∈ r.order)
    (hguest : guest ∈ r.order) (hne : host ≠ guest) (hfree : r.partner host = none)
    (hfree' : r.partner guest = none) : (r.meet host guest).Tied := by
  have hhost' := ((h.sound.mem_order host).mp hhost).1
  have hguest' := ((h.sound.mem_order guest).mp hguest).1
  refine ⟨h.sound.meet host guest,
    (h.pairing.link_iff hhost hfree hne).mpr ⟨hguest, hfree'⟩, ?_, ?_⟩
  · intro i hi p hp
    have hconn : ∀ j, r.inUse j = true → i ≠ j → r.conn j ≠ r.conn i :=
      fun j hj hij heq => hij (h.sound.inj i j hi hj heq.symm)
    have hp : p ∈ Function.update (Function.update r.partner host (some guest)) guest
      (some host) i := hp
    change r.inUse p = true ∧ lastMet (r.games ++ [(r.conn host, r.conn guest)]) (r.conn i) =
      some (r.conn p)
    rw [lastMet_concat]
    by_cases hig : i = guest
    · subst hig
      rw [Function.update_self] at hp
      obtain rfl : host = p := Option.some.inj hp
      exact ⟨hhost', by rw [if_neg (hconn host hhost' hne.symm), if_pos rfl]⟩
    · rw [Function.update_of_ne hig] at hp
      by_cases hih : i = host
      · subst hih
        rw [Function.update_self] at hp
        obtain rfl : guest = p := Option.some.inj hp
        exact ⟨hguest', if_pos rfl⟩
      · rw [Function.update_of_ne hih] at hp
        rw [if_neg (hconn host hhost' hih), if_neg (hconn guest hguest' hig)]
        exact h.met i hi p hp
  · intro i hi hlive
    have hne' : ∀ j, r.inUse j = true → i ≠ j := by
      rintro j hj rfl
      rw [show r.inUse i = false from hi] at hj
      cases hj
    exact (Function.update_of_ne (hne' guest hguest') ..).trans
      ((Function.update_of_ne (hne' host hhost') ..).trans (h.spare i hi hlive))

end Rack

namespace State

/-- The partner of every connected client is in use, by the connection that its own was matched with
    last. -/
def Linked (s : State) : Prop :=
  ∀ i, (s.clients i).inUse = true → (s.clients i).dead = false → ∀ p ∈ (s.clients i).partner,
    (s.clients p).inUse = true ∧ lastMet (gamesOf s.trace) (s.conn i) = some (s.conn p)

instance (s : State) : Decidable s.Linked :=
  inferInstanceAs (Decidable (∀ i, _ → _ → ∀ p ∈ (s.clients i).partner, _ ∧ _))

/-- If a frame finds a partner, then for a client who is connected and has none. -/
def Orderly (s : State) (i : Index) (ftype : Byte) (payload : List Byte) : Prop :=
  s.Seeks ftype payload → s.waiting i ≠ none →
    (s.clients i).inUse = true ∧ (s.clients i).dead = false ∧ (s.clients i).partner = none

instance (s : State) (i : Index) (ftype : Byte) (payload : List Byte) :
    Decidable (s.Orderly i ftype payload) := inferInstanceAs (Decidable (_ → _ → _))

/-- If a frame is forwarded, then to the connection that its sender's was matched with last. -/
def Addressed (s : State) (i : Index) (_ : Byte) (_ : List Byte) : Prop :=
  ∀ p ∈ (s.clients i).partner,
    (s.clients p).inUse = true ∧ lastMet (gamesOf s.trace) (s.conn i) = some (s.conn p)

theorem Handles.tied {s : State} {i : Index} {ftype : Byte} {payload : List Byte} {r : Rack}
    (hh : s.Handles i ftype payload r) (h : s.rack.Tied) (ho : s.Orderly i ftype payload) :
    r.Tied := by
  cases hh with
  | quiet => exact h
  | gone => exact h.leave i
  | met host hseeks hw =>
    obtain ⟨huse, hlive, hfree⟩ := ho hseeks (by rw [hw]; exact Option.some_ne_none host)
    obtain ⟨horder, hne, -, hhost⟩ := waiting_waits hw
    exact h.meet horder ((h.sound.mem_order i).mpr ⟨huse, hlive⟩) hne hhost hfree

theorem step_tied {s t : State} {e : Event} (h : s.rack.Tied) (hclean : s.EachHeard Orderly e)
    (hstep : port.step s e = some t) : t.rack.Tied :=
  step_keeps (I := Rack.Tied) (P := Orderly) (fun _ i h => h.leave i) (fun _ _ h hi => h.seat hi)
    (fun _ h => h.reap) (fun _ _ _ _ _ h ho hh => hh.tied h ho) hclean h hstep

theorem tied_of_init {s : State} (h : port.init s) : s.rack.Tied := by
  obtain ⟨delay, variation, lobby, random, -, -, rfl⟩ := h
  refine ⟨sound_fresh delay variation lobby random, ?_, ?_, fun _ _ _ => rfl⟩
  · intro _ h
    cases h
  · intro _ h
    exact absurd h Bool.false_ne_true

theorem Linked.of_tied {s : State} (h : s.rack.Tied) : s.Linked := fun i hi _ => h.met i hi

end State

/-- In every run in which a frame only finds a partner for a client who is connected and has none: the
    partner of every connected client is in use, by the connection that its own was matched with last,
    in every state; and so is that of every client a frame is handled for. -/
theorem links_lead_home {s₀ : State} {es : List Event} (h₀ : port.init s₀)
    (hclean : port.EachStep (fun s e => s.EachHeard State.Orderly e) s₀ es) :
    port.Throughout State.Linked s₀ es ∧
      port.EachStep (fun s e => s.EachHeard State.Addressed e) s₀ es := by
  have htied := State.tied_of_init h₀
  constructor
  · exact port.throughout_of_eachStep (J := fun s => s.rack.Tied) (fun _ => State.Linked.of_tied)
      (fun _ _ _ => State.step_tied) htied hclean
  · refine port.eachStep_of_invariant (J := fun s => s.rack.Tied) ?_ (fun _ _ _ => State.step_tied)
      htied hclean
    intro s e h hheard
    refine State.eachHeard_of_keeps (I := fun i r => r.Tied ∧ r.inUse i = true)
      (P := State.Orderly) ?_ ?_ hheard fun i hi => ⟨h, hi⟩
    · rintro s i _ _ ⟨h, hi⟩ _ p hp
      exact h.met i hi p hp
    · rintro s i ftype payload r ⟨h, hi⟩ ho hh
      exact ⟨hh.tied h ho, hh.inUse ▸ hi⟩

/-- Two consoles play and a third waits, each with its slots reaped. -/
def threeSlots : List Event := threeConsoles.flatMap fun e => [.loop e, .reap]

/-- One of the two leaves, its slot is reaped and used again, and the newcomer meets the other. -/
def reseated : List Event :=
  threeSlots ++ [.loop (.recv 1 [1, tBye] 0), .reap, .loop (.accept (3, 0) 3), .reap,
    .loop (.recv 3 (hello ['D', 'I']) 0), .loop (.recv 3 [2, tState, 5] 0), .reap]

theorem links_lead_home_reseated : port.Throughout State.Linked listening reseated ∧
    port.EachStep (fun s e => s.EachHeard State.Addressed e) listening reseated :=
  links_lead_home init_listening (by decide +kernel)

/-- One of the two who play asks for the third, and leaves; its first partner keeps the link to its
    slot, which is reaped and given to a stranger, and its next frame is forwarded to the stranger. -/
theorem link_leads_astray : port.init listening ∧
    ∃ s, port.run listening (threeSlots ++ [.loop (.recv 0 [1, tJoin] 0),
      .loop (.recv 0 [1, tBye] 0), .reap, .loop (.accept (3, 0) 3),
      .loop (.recv 1 [2, tState, 5] 0), .reap]) = some s ∧ ¬ s.Linked ∧
      s.trace.getLast? = some (.queued 3 (Relay.frame tState (ljust gamePayload [5]))) ∧
      ∀ g ∈ gamesOf s.trace, g.1 ≠ 3 ∧ g.2 ≠ 3 :=
  ⟨init_listening, port.exists_run (by decide +kernel)⟩

end VO.Port
