import VideoOlympics.Lobby.Publisher
import VideoOlympics.Relay.Players

/-! A relay with its publisher, and what the Lobby lists. The event loop counts its players whenever
    one is named, matched or dropped, and calls `update` with each count; on its way out it shuts the
    publisher down. Its turns, the calls and the worker's steps interleave freely. -/

namespace VO

open Relay (Server relay Registry)
open Lobby (Publisher publisher)

/-- `calls` are the counts of the event loop's last turn that `update` has still to be called with. -/
structure Listing where
  server : Server
  publisher : Publisher
  calls : List ℕ

inductive ListingEv where
  /-- A turn of the event loop, and the counts it takes on the way: the last is the one it leaves. -/
  | serve (e : Relay.Event) (counts : List ℕ)
  /-- `update`, with the next of them. -/
  | tell
  /-- The worker goes on, or `shutdown` does: an interrupt ends the event loop anywhere. -/
  | publish (e : Lobby.Event)

namespace Listing

def step (l : Listing) : ListingEv → Option Listing
  | .serve e counts =>
    if l.publisher.main = .serving ∧ l.calls = [] then
      (l.server.step e).bind fun t =>
        if t.lobby = counts.getLast?.or l.server.lobby then
          some { l with server := t, calls := counts }
        else none
    else none
  | .tell =>
    match l.calls with
    | [] => none
    | n :: calls =>
      (l.publisher.step (.update n)).map fun p => { l with publisher := p, calls := calls }
  | .publish (.update _) => none
  | .publish e => (l.publisher.step e).map fun p => { l with publisher := p }

end Listing

/-- It begins with a relay that has a publisher, and with the publisher's thread just started. -/
def listing : Machine Listing ListingEv where
  init l := relay.init l.server ∧ l.server.lobby = some 0 ∧ l.publisher = .start ∧ l.calls = []
  step := Listing.step

namespace Listing

variable {l m : Listing} {e : ListingEv}

/-! ### What a step does -/

/-- A turn of the event loop, a call of `update`, or a step of the publisher's that is none. -/
theorem step_cases (h : l.step e = some m) :
    (∃ e' counts t, e = .serve e' counts ∧ l.calls = [] ∧ l.server.step e' = some t ∧
      t.lobby = counts.getLast?.or l.server.lobby ∧ m = { l with server := t, calls := counts }) ∨
    (∃ n calls p, e = .tell ∧ l.calls = n :: calls ∧ l.publisher.step (.update n) = some p ∧
      m = { l with publisher := p, calls := calls }) ∨
    (∃ e' p, e = .publish e' ∧ (∀ n, e' ≠ .update n) ∧ l.publisher.step e' = some p ∧
      m = { l with publisher := p }) := by
  cases e with
  | serve e' counts =>
    obtain ⟨⟨-, hcalls⟩, h⟩ := Option.ite_none_right_eq_some.mp h
    obtain ⟨t, ht, h⟩ := Option.bind_eq_some_iff.mp h
    obtain ⟨hlobby, h⟩ := Option.ite_none_right_eq_some.mp h
    exact .inl ⟨e', counts, t, rfl, hcalls, ht, hlobby, (Option.some.inj h).symm⟩
  | tell =>
    cases hcalls : l.calls with
    | nil => simp [step, hcalls] at h
    | cons n calls =>
      simp only [step, hcalls] at h
      obtain ⟨p, hp, rfl⟩ := Option.map_eq_some_iff.mp h
      exact .inr (.inl ⟨n, calls, p, rfl, rfl, hp, rfl⟩)
  | publish e' =>
    have hp : (∀ n, e' ≠ .update n) ∧
        (l.publisher.step e').map (fun p => { l with publisher := p }) = some m := by
      cases e' with
      | update n => cases h
      | _ => exact ⟨fun n => Lobby.Event.noConfusion, h⟩
    obtain ⟨p, hp', rfl⟩ := Option.map_eq_some_iff.mp hp.2
    exact .inr (.inr ⟨e', p, rfl, hp.1, hp', rfl⟩)

/-- Whatever happens, it is no step of the publisher's or one of its own. -/
theorem step_publisher (h : l.step e = some m) :
    m.publisher = l.publisher ∨ ∃ e', l.publisher.step e' = some m.publisher := by
  obtain ⟨e', counts, t, -, -, -, -, rfl⟩ | ⟨n, calls, p, -, -, hp, rfl⟩ | ⟨e', p, -, -, hp, rfl⟩ :=
    step_cases h
  · exact .inl rfl
  · exact .inr ⟨_, hp⟩
  · exact .inr ⟨e', hp⟩

/-- Nothing but an update is one. -/
theorem latest_of_step {p q : Publisher} {e : Lobby.Event} (he : ∀ n, e ≠ .update n)
    (h : p.step e = some q) : q.latest = p.latest := by
  cases Publisher.step_does h with
  | update n => exact absurd rfl (he n)
  | finalPost o body => rw [Publisher.tried_eq]
  | post o body => rw [Publisher.tried_eq]
  | raise body => rw [Publisher.tried_eq]
  | _ => rfl

theorem latest_of_update {p q : Publisher} {n : ℕ} (h : p.step (.update n) = some q) :
    q.latest = n := by
  obtain ⟨-, h⟩ := Option.ite_none_right_eq_some.mp h
  exact Option.some.inj h ▸ rfl

/-! ### The two together -/

/-- The server's book is in order and has no stale entries, and the count it took last is the one the
    publisher will have been given when no call is left. -/
structure Linked (l : Listing) : Prop where
  listed : l.server.registry.Listed
  published : l.server.registry.Published
  fresh : ¬ l.server.registry.book.Stale
  link : l.server.lobby = some (l.calls.getLast?.getD l.publisher.latest)

theorem linked_of_init (h : listing.init l) : l.Linked := by
  obtain ⟨hserver, hlobby, hpublisher, hcalls⟩ := h
  have hlisted := Server.listed_of_init hserver
  obtain ⟨delay, variation, lobby, random, -, -, hfresh⟩ := hserver
  refine ⟨hlisted, ?_, ?_, ?_⟩
  · intro n hn
    have hzero : l.server.lobby = some n := hn
    rw [hlobby, Option.some.injEq] at hzero
    rw [← hzero, hfresh]
    rfl
  · rw [hfresh]
    rintro ⟨e, he, -⟩
    cases he
  · rw [hlobby, hcalls, hpublisher]
    rfl

/-- The sender of every HELLO that a turn accepts is connected and has no name yet. -/
def First (l : Listing) : ListingEv → Prop
  | .serve e _ => l.server.EachHeard Registry.First e
  | _ => True

instance (l : Listing) (e : ListingEv) : Decidable (l.First e) :=
  match e with
  | .serve e _ => inferInstanceAs (Decidable (l.server.EachHeard Registry.First e))
  | .tell => .isTrue trivial
  | .publish _ => .isTrue trivial

theorem Linked.step (hl : l.Linked) (hfirst : l.First e) (h : l.step e = some m) : m.Linked := by
  obtain ⟨e', counts, t, rfl, hcalls, ht, hlobby, rfl⟩ | ⟨n, calls, p, -, hcalls, hp, rfl⟩ |
    ⟨e', p, -, he, hp, rfl⟩ := step_cases h
  · obtain ⟨hlisted, hiff⟩ := Server.step_decides Registry.decides_first hl.listed ht
    have hpublished := (Server.step_decides Registry.decides_published hl.published ht).1
    refine ⟨hlisted, hpublished, hiff.mpr ⟨hl.fresh, hfirst⟩, ?_⟩
    have hbefore := hl.link
    rw [hcalls] at hbefore
    dsimp only
    rw [hlobby, hbefore]
    cases counts.getLast? with
    | none => rfl
    | some n => rfl
  · refine ⟨hl.listed, hl.published, hl.fresh, ?_⟩
    have hbefore := hl.link
    rw [hcalls, List.getLast?_cons] at hbefore
    dsimp only
    rw [latest_of_update hp]
    exact hbefore
  · refine ⟨hl.listed, hl.published, hl.fresh, ?_⟩
    dsimp only
    rw [latest_of_step he hp]
    exact hl.link

/-- With no call left, the publisher has the number of players. -/
theorem Linked.latest (hl : l.Linked) (hcalls : l.calls = []) :
    l.publisher.latest = l.server.players.length := by
  have hlink := hl.link
  rw [hcalls] at hlink
  exact ((Server.counted_iff hl.listed hl.published).mpr hl.fresh).published _ hlink

theorem step_sound (hs : l.publisher.Sound) (h : l.step e = some m) : m.publisher.Sound := by
  rcases step_publisher h with h | ⟨e', h⟩
  · exact h ▸ hs
  · exact (Publisher.step_does h).sound hs

theorem step_departing (hs : l.publisher.Departing) (hm : m.publisher.Prompt) (h : l.step e = some m) :
    m.publisher.Departing := by
  rcases step_publisher h with h | ⟨e', h⟩
  · exact h ▸ hs
  · exact (Publisher.step_does h).departing hs hm

/-! ### What the Lobby is told -/

/-- The payload carries the number of players, and so does the last body the worker took, when it
    waits and nobody has notified it. -/
structure Told (l : Listing) : Prop where
  payload : l.publisher.payload.curplayers = l.server.players.length
  waiting : ∀ till, l.publisher.worker = .waiting till .blocked →
    l.publisher.snapshot.map (·.curplayers) = some l.server.players.length

/-- Once `shutdown` has returned, the last body POSTed says offline and the number of players there
    were in the end, and so does any that is still under way. -/
def Closed (l : Listing) : Prop := ∀ f, l.publisher.main = .returned f →
  l.publisher.posted.getLast? = some ⟨.offline, l.server.players.length⟩ ∧
    ∀ b since, l.publisher.worker = .posting b since → b = ⟨.offline, l.server.players.length⟩

theorem Linked.told (hl : l.Linked) (hs : l.publisher.Sound) (hcalls : l.calls = []) : l.Told := by
  have hlatest := hl.latest hcalls
  exact ⟨hs.latest.trans hlatest, fun till h => hlatest ▸ hs.informed till h⟩

theorem Linked.closed (hl : l.Linked) (hs : l.publisher.Departing) (hcalls : l.calls = []) :
    l.Closed := by
  intro f hmain
  rw [← hl.latest hcalls]
  exact hs.farewell f hmain

end Listing

/-- Whatever the order of the event loop's turns, its calls, the worker's steps and a shutdown, as long
    as whoever has a HELLO accepted is connected and has no name yet: whenever no call is outstanding
    the publisher has the number of players who are connected, and so has the Lobby been told if the
    worker waits; and if no POST takes as long as the join may, the last the Lobby hears is that the
    room is offline, with the players there were. -/
theorem listing_matches_players {l : Listing} {es : List ListingEv} (h : listing.init l)
    (hfirst : listing.EachStep Listing.First l es) :
    listing.Throughout (fun l => l.calls = [] → l.Told) l es ∧
      (listing.Throughout (fun l => l.publisher.Prompt) l es →
        listing.Throughout (fun l => l.calls = [] → l.Closed) l es) := by
  have hlinked := Listing.linked_of_init h
  have hstart : l.publisher = .start := h.2.2.1
  refine ⟨?_, fun hprompt => ?_⟩
  · refine listing.throughout_of_eachStep (J := fun l => l.Linked ∧ l.publisher.Sound)
      (fun l hl => hl.1.told hl.2) (fun l e m hl he hstep => ?_)
      ⟨hlinked, hstart ▸ Publisher.sound_start⟩ hfirst
    exact ⟨hl.1.step he hstep, Listing.step_sound hl.2 hstep⟩
  · have hlinks : listing.Throughout Listing.Linked l es :=
      listing.throughout_of_eachStep (fun _ h => h) (fun l e m hl he hstep => hl.step he hstep)
        hlinked hfirst
    refine listing.throughout_of_good
      (J := fun l => l.Linked ∧ l.publisher.Departing) (fun l hl => hl.1.closed hl.2)
      (fun l e m hl hm hstep => ?_) (listing.throughout_and hlinks hprompt)
      ⟨hlinked, hstart ▸ Publisher.departing_start⟩
    exact ⟨hm.1, Listing.step_departing hl.2 hm.2 hstep⟩

/-- Two consoles come, the second while the worker waits; one leaves, and the server is shut down. -/
def season : List ListingEv :=
  [.serve (.accept (0, 0) 0) [], .serve (.recv 0 (Relay.hello ['A', 'L']) 0) [1], .publish .check, .tell,
    .publish .lock, .publish (.post .ok), .publish (.pass 1000), .publish .rest, .publish .check,
    .publish .lock, .serve (.accept (1, 0) 1) [], .serve (.recv 1 (Relay.hello ['B', 'O']) 0) [2, 2],
    .tell, .publish .wake, .tell, .publish (.post .failed), .serve (.recv 0 [1, Relay.tBye] 0) [1], .tell,
    .publish .mark, .publish (.pass 1000), .publish .rest, .publish .setStop, .publish .check,
    .publish .wakeUp, .publish .joined, .publish (.finalPost .ok)]

/-- A relay that has just been started, with a publisher. -/
def opened : Listing := { server := Relay.publishing, publisher := .start, calls := [] }

theorem listing_matches_players_season :
    listing.Throughout (fun l => l.calls = [] → l.Closed) opened season ∧
      ∃ l, listing.run opened season = some l ∧ l.calls = [] ∧ l.server.players.length = 1 ∧
        l.publisher.main = .returned ⟨.offline, 1⟩ :=
  ⟨(listing_matches_players ⟨Relay.init_publishing, rfl, rfl, rfl⟩ (by decide +kernel)).2 (by decide +kernel),
    listing.exists_run (by decide +kernel)⟩

end VO
