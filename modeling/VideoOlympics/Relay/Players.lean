import VideoOlympics.Relay.Matching
import VideoOlympics.Relay.Registry

/-! Who is called what, and how many there are. No two connected consoles have one name, and a name
    belongs to whoever is connected under it: no sequence of frames and drops changes that. But the
    published number of players is the length of the book, and that is the number of players only
    for as long as nobody says HELLO twice. -/

namespace VO.Relay

/-- The book is in order, and identities not given out yet are nobody's. -/
structure Registry.Listed (r : Registry) : Prop where
  owned : r.book.Owned
  known : ∀ c ∈ r.book.members, c < r.next

/-- What was published last is the length of the book. -/
def Registry.Published (r : Registry) : Prop := ∀ n ∈ r.lobby, n = r.book.entries.length

namespace Registry

variable {r r' : Registry} {c : ℕ}

theorem published_publish (r : Registry) : r.publish.Published := by
  intro n hn
  obtain ⟨_, -, rfl⟩ := Option.map_eq_some_iff.mp hn
  rfl

theorem Published.resign (h : r.Published) (c : ℕ) : (r.resign c).Published := by
  simp only [Registry.resign]
  split
  · exact h
  · exact published_publish _

theorem Listed.fresh (h : r.Listed) : r.next ∉ r.book.members :=
  fun hmem => Nat.lt_irrefl _ (h.known _ hmem)

theorem Listed.enter (h : r.Listed) : r.enter.Listed := by
  refine ⟨h.owned.enter h.fresh, ?_⟩
  intro c hc
  rcases List.mem_append.mp hc with hc | hc
  · exact Nat.lt_succ_of_lt (h.known c hc)
  · exact List.mem_singleton.mp hc ▸ Nat.lt_succ_self _

theorem Listed.resign (h : r.Listed) (c : ℕ) : (r.resign c).Listed := by
  simp only [Registry.resign]
  split
  · exact h
  · next hc =>
    refine ⟨h.owned.resign c, ?_⟩
    intro d hd
    simp only [publish, Directory.resign, if_neg hc] at hd
    exact h.known d (List.mem_of_mem_erase hd)

theorem resign_stale_iff (h : r.Listed) : (r.resign c).book.Stale ↔ r.book.Stale := by
  simp only [Registry.resign]
  split
  · exact Iff.rfl
  · exact Directory.resign_stale_iff h.owned

/-- The sender of a HELLO is connected and has no name yet. -/
def First (s : Server) (c : ℕ) (ftype : Byte) (payload : List Byte) : Prop :=
  Enrols ftype payload → c ∈ s.clients ∧ (s.obj c).name = none

instance (s : Server) (c : ℕ) (ftype : Byte) (payload : List Byte) :
    Decidable (First s c ftype payload) := inferInstanceAs (Decidable (_ → _))

/-- A book without stale entries stays one for as long as nobody enrols who is listed already, or
    not connected. -/
theorem decides_first : Decides Listed (fun r => ¬ r.book.Stale) First where
  enter r h := ⟨h.enter, not_congr (Directory.enter_stale_iff h.fresh)⟩
  resign r c h := ⟨h.resign c, not_congr (resign_stale_iff h)⟩
  frame s r' c ftype payload h hdoes := by
    have hquiet : ∀ {p : Prop}, ¬ Enrols ftype payload → (p ↔ p ∧ First s c ftype payload) :=
      fun hno => (and_iff_left fun he => absurd he hno).symm
    cases hdoes with
    | nothing hno => exact ⟨h, hquiet hno⟩
    | publishes hno => exact ⟨⟨h.owned, h.known⟩, hquiet hno⟩
    | resigns hno => exact ⟨h.resign c, (not_congr (resign_stale_iff h)).trans (hquiet hno)⟩
    | enrols name he hfree =>
      refine ⟨⟨h.owned.enrol hfree c, h.known⟩, ?_⟩
      by_cases hstale : s.registry.book.Stale
      · exact iff_of_false (not_not_intro (hstale.enrol hfree c)) fun h => h.1 hstale
      · refine (not_congr (Directory.enrol_stale_iff h.owned hstale hfree)).trans ?_
        rw [not_not]
        exact ⟨fun hfirst => ⟨hstale, fun _ => hfirst⟩, fun h => h.2 he⟩

/-- Whatever changes the book publishes its length. -/
theorem decides_published : Decides Published (fun _ => True) fun _ _ _ _ => True where
  enter _ h := ⟨h, Iff.rfl⟩
  resign r c h := ⟨h.resign c, Iff.rfl⟩
  frame s r' c ftype payload h hdoes := by
    refine ⟨?_, (and_self_iff).symm⟩
    cases hdoes with
    | nothing _ => exact h
    | publishes _ => exact published_publish _
    | resigns _ => exact h.resign c
    | enrols name _ _ => exact published_publish _

end Registry

namespace Server

variable {s t : Server} {c : ℕ}

theorem listed_of_init (h : relay.init s) : s.registry.Listed := by
  obtain ⟨delay, variation, lobby, random, -, -, rfl⟩ := h
  exact ⟨⟨List.nodup_nil, List.nodup_nil, fun c hc => by cases hc⟩, fun c hc => by cases hc⟩

/-- Connected consoles have different names, each listed as its own, and a drop takes nobody's
    entries but the one's who is dropped. -/
structure Owned (s : Server) : Prop where
  unique : ∀ c ∈ s.clients, ∀ d ∈ s.clients, ∀ name, (s.obj c).name = some name →
    (s.obj d).name = some name → c = d
  maps : ∀ c ∈ s.clients, ∀ name, (s.obj c).name = some name → s.byName.lookup name = some c
  frees : ∀ c, ∀ e ∈ s.byName, e ∉ (s.drop c).byName → e.2 = c

theorem owned_of_listed (h : s.registry.Listed) : s.Owned where
  unique c hc d hd _ hcn hdn := h.owned.unique hc hd hcn hdn
  maps c hc name hname := h.owned.maps c hc name hname
  frees c e he hgone := by
    have hbook : (s.drop c).byName = (s.registry.resign c).book.entries := by
      rw [← registry_drop]
      rfl
    rw [hbook] at hgone
    simp only [Registry.resign] at hgone
    split at hgone
    · exact absurd he hgone
    · next hc =>
      simp only [Registry.publish, Directory.resign, if_neg hc] at hgone
      by_contra hother
      exact hgone ((Directory.mem_struck h.owned.keys).mpr ⟨he, fun h => hother h.1⟩)

/-- Between the frames of one buffer too. -/
theorem eachFrame_listed {k turns : ℕ} (h : s.registry.Listed) :
    s.EachFrame (fun s _ _ _ => s.Owned) k turns c := by
  induction turns generalizing s with
  | zero => trivial
  | succ turns ih =>
    cases hhead : headOf (s.obj c).rx with
    | wait => simp only [EachFrame, hhead]
    | bad n => simp only [EachFrame, hhead]
    | whole ftype payload rest =>
      have htaken : (s.taking c rest).registry.Listed := (registry_taking s c rest).symm ▸ h
      refine (eachFrame_whole hhead).mpr ⟨owned_of_listed htaken, ?_⟩
      intro s' hs'
      exact ih (Registry.decides_first.frame _ _ c ftype payload htaken (handle_registry hs')).1

/-- How many players there are: named consoles that are connected. -/
def players (s : Server) : List ℕ := s.clients.filter fun c => (s.obj c).name.isSome

/-- The book lists the players, each once and by its name, and their number is the one published. -/
structure Counted (s : Server) : Prop where
  names : ∀ e ∈ s.byName, (s.obj e.2).name = some e.1
  owners : (s.byName.map Prod.snd).Perm s.players
  published : ∀ n ∈ s.lobby, n = s.players.length

theorem counted_iff (h : s.registry.Listed) (hpub : s.registry.Published) :
    s.Counted ↔ ¬ s.registry.book.Stale := by
  constructor
  · intro hcounted
    refine Directory.not_stale_iff.mpr fun e he => ⟨?_, hcounted.names e he⟩
    exact List.mem_of_mem_filter (hcounted.owners.mem_iff.mp (List.mem_map_of_mem he))
  · intro hfresh
    have hperm : (s.byName.map Prod.snd).Perm s.players := Directory.entries_perm h.owned hfresh
    refine ⟨fun e he => (Directory.not_stale_iff.mp hfresh e he).2, hperm, ?_⟩
    intro n hn
    rw [hpub n hn, ← hperm.length_eq, List.length_map]
    rfl

end Server

theorem listed_of_run {s₀ s : Server} {es : List Event} (h₀ : relay.init s₀)
    (hrun : relay.run s₀ es = some s) : s.registry.Listed :=
  relay.reachable_invariant (I := fun s => s.registry.Listed) (fun _ => Server.listed_of_init)
    (fun _ _ _ h hstep => (Server.step_decides Registry.decides_first h hstep).1) ⟨s₀, es, h₀, hrun⟩

/-- In every state the relay can be in, and before each frame of the next event: no two connected
    consoles have one name, the book has a connected console under its own name, and a drop strikes
    out no entry but one of whoever is dropped. -/
theorem names_owned {s₀ s : Server} {es : List Event} (h₀ : relay.init s₀)
    (hrun : relay.run s₀ es = some s) :
    s.Owned ∧ ∀ e, s.EachHeard (fun s _ _ _ => s.Owned) e := by
  have hlisted := listed_of_run h₀ hrun
  refine ⟨Server.owned_of_listed hlisted, fun e => ?_⟩
  cases e with
  | recv c data k =>
    exact fun _ => Server.eachFrame_listed ((Server.registry_taking s c _).symm ▸ hlisted)
  | _ => trivial

/-- A console takes a second name; one that has left takes the first's, in the same chunk. -/
def twoNames : List Event :=
  [.accept (0, 0) 0, .recv 0 (hello ['A', 'L'] ++ hello ['B', 'O']) 9, .accept (1, 0) 1,
    .recv 1 (frame tBye [] ++ hello ['A', 'L']) 9]

theorem names_owned_twoNames : ∃ s, relay.run listening twoNames = some s ∧ s.Owned := by
  obtain ⟨s, hrun, -⟩ : ∃ s, relay.run listening twoNames = some s ∧ True :=
    relay.exists_run (by decide +kernel)
  exact ⟨s, hrun, (names_owned init_listening hrun).1⟩

/-- The number published is the number of players, in every state of a run, just when each HELLO
    that is accepted in it is from a console that is connected and has no name yet. A publisher
    starts with none. -/
theorem players_counted_iff {s₀ : Server} {es : List Event} (h₀ : relay.init s₀)
    (hlobby : ∀ n ∈ s₀.lobby, n = 0) :
    relay.Throughout Server.Counted s₀ es ↔
      relay.EachStep (fun s e => s.EachHeard Registry.First e) s₀ es := by
  have hlisted := Server.listed_of_init h₀
  have hpublished : s₀.registry.Published := by
    obtain ⟨delay, variation, lobby, random, -, -, rfl⟩ := h₀
    exact hlobby
  refine relay.throughout_iff_eachStep (J := fun s => s.registry.Listed ∧ s.registry.Published)
    ?_ ?_ ⟨hlisted, hpublished⟩ ((Server.counted_iff hlisted hpublished).mpr ?_)
  · rintro s e t ⟨hl, hp⟩ hstep
    exact ⟨(Server.step_decides Registry.decides_first hl hstep).1,
      (Server.step_decides Registry.decides_published hp hstep).1⟩
  · rintro s e t ⟨hl, hp⟩ hcounted hstep
    obtain ⟨hl', hiff⟩ := Server.step_decides Registry.decides_first hl hstep
    have hp' := (Server.step_decides Registry.decides_published hp hstep).1
    rw [Server.counted_iff hl' hp', hiff]
    exact and_iff_right ((Server.counted_iff hl hp).mp hcounted)
  · obtain ⟨delay, variation, lobby, random, -, -, rfl⟩ := h₀
    rintro ⟨e, he, -⟩
    cases he

/-- A relay with a publisher. -/
def publishing : Server := Server.fresh 2 2 (some 0) id

theorem init_publishing : relay.init publishing := ⟨2, 2, some 0, id, by decide, by decide, rfl⟩

theorem players_counted_iff_threeConsoles : relay.Throughout Server.Counted publishing
    (threeConsoles ++ [.recv 1 [1, tBye] 0, .recv 0 [] 0, .recv 2 [0] 0]) :=
  (players_counted_iff init_publishing fun _ hn => (Option.some.inj hn).symm).mpr (by decide +kernel)

/-- A console says HELLO twice, and leaves. Nobody is connected, and one player is published. -/
theorem second_hello_leaks : relay.init publishing ∧ ∃ s, relay.run publishing
    [.accept (0, 0) 0, .recv 0 (hello ['A', 'L'] ++ hello ['B', 'O']) 9, .recv 0 [] 0] = some s ∧
      s.clients = [] ∧ s.lobby = some 1 ∧ ¬ s.Counted := by
  obtain ⟨s, hrun, hclients, hlobby⟩ : ∃ s, relay.run publishing
      [.accept (0, 0) 0, .recv 0 (hello ['A', 'L'] ++ hello ['B', 'O']) 9, .recv 0 [] 0] = some s ∧
        s.clients = [] ∧ s.lobby = some 1 :=
    relay.exists_run (by decide +kernel)
  refine ⟨init_publishing, s, hrun, hclients, hlobby, ?_⟩
  intro hcounted
  have hone := hcounted.published 1 hlobby
  rw [Server.players, hclients] at hone
  cases hone

end VO.Relay
