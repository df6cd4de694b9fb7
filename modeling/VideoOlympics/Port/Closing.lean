import VideoOlympics.Port.Render

/-! The two threads of the other publisher, to the end. Its worker tests `stopping` under the lock under
    which it waits, so that the notification of `lobby_shutdown` finds it waiting or finds it before the
    test. What the main thread tells it is POSTed, and the last that is POSTed is that the room is
    offline. -/

namespace VO.Port
open Monitor
open VO.Lobby (joinTimeout)

namespace Lobby

variable {s t : Lobby} {e : Event}

/-! ### What the worker does -/

/-- What is being POSTed. -/
def Thread.body? : Thread → Option Snapshot
  | .posting body => some body
  | _ => none

/-- About to test for something to publish. -/
def Thread.Ready (w : Thread) : Prop := w = .top ∨ ∃ dl x, w = .keep dl x ∧ x ≠ .blocked

/-- Not a call of the main thread's, and a snapshot that is rendered just when it can be. -/
def Event.works (rendered : Bool) : Event → Bool
  | .update _ => false
  | .shutdown => false
  | .lock r => r == rendered
  | .wake r => r == rendered
  | _ => true

/-- Everything the worker can do by itself, and what it finds. -/
inductive Works (s : Lobby) : Event → Lobby → Prop
  | waits {e : Event} (dl : ℕ) (h : s.worker.Ready) (hdirty : s.dirty = false)
      (hstop : s.stopping = false) : Works s e { s with worker := .keep dl .blocked }
  | stops {e : Event} (h : s.worker.Ready) (hstop : s.stopping = true) :
      Works s e { s with dirty := false, worker := .done }
  | takes {e : Event} (rendered : Bool) (he : e = .lock rendered ∨ e = .wake rendered)
      (h : s.worker.Ready) (hstop : s.stopping = false) : Works s e { s with
        dirty := false
        worker := if rendered then .posting ⟨s.offline, s.curplayers⟩ else .pause }
  | keepEnds {e : Event} (dl : ℕ) (w : Wait) (h : s.worker = .keep dl .blocked) (hw : w ≠ .blocked) :
      Works s e { s with worker := .keep dl w }
  | restEnds {e : Event} (d1 : ℕ) (w : Wait) (h : s.worker = .debounce d1 .blocked) (hw : w ≠ .blocked) :
      Works s e { s with worker := .debounce d1 w }
  | resume (d1 : ℕ) (w : Wait) (h : s.worker = .debounce d1 w) (hw : w ≠ .blocked) :
      Works s .resume { s with worker := .top }
  | post (ok : Bool) (body : Snapshot) (h : s.worker = .posting body) :
      Works s (.post ok) { s with worker := if ok then .pause else .failed }
  | count (h : s.worker = .failed) :
      Works s .count { s with worker := .pause, failures := s.failures + 1 }
  | skip (h : s.worker = .pause) (hstop : s.stopEvt = true) : Works s .pause { s with worker := .top }
  | pause (h : s.worker = .pause) (hstop : s.stopEvt = false) : Works s .pause
      { s with worker := .debounce (s.now + restTime) .blocked, due := some (s.now + restTime) }
  | pass (n : ℕ) : Works s (.pass n) { s with now := s.now + n }

/-- The test itself, once the worker has the lock; the keepalive's end makes it find something. -/
theorem works_scan {rendered d : Bool} {dl : ℕ} (he : e = .lock rendered ∨ e = .wake rendered)
    (h : s.worker.Ready) (hdirty : d = false → s.dirty = false) :
    s.Works e (({ s with dirty := d }).scan dl rendered) := by
  by_cases hstop : s.stopping = true
  · have hscan : ({ s with dirty := d }).scan dl rendered =
        { s with dirty := false, worker := .done } := by
      simp [scan, proceed, hstop]
    exact hscan ▸ .stops h hstop
  have hgoes : s.stopping = false := Bool.not_eq_true _ ▸ hstop
  cases d with
  | true =>
    have hscan : ({ s with dirty := true }).scan dl rendered = { s with
        dirty := false
        worker := if rendered then .posting ⟨s.offline, s.curplayers⟩ else .pause } := by
      cases rendered with
      | true => simp [scan, proceed, hgoes]
      | false => simp [scan, proceed, hgoes]
    exact hscan ▸ .takes rendered he h hgoes
  | false =>
    have hclean := hdirty rfl
    have hscan : ({ s with dirty := false }).scan dl rendered =
        { s with worker := .keep dl .blocked } := by
      simp [scan, hgoes, hclean]
    exact hscan ▸ .waits dl h hclean hgoes

theorem works_wake {rendered : Bool} (h : s.step (.wake rendered) = some t) :
    s.Works (.wake rendered) t := by
  cases hworker : s.worker with
  | keep dl w =>
    have hready : w ≠ .blocked → s.worker.Ready := fun hw => .inr ⟨dl, w, hworker, hw⟩
    cases w with
    | blocked => simp [step, hworker] at h
    | notified =>
      simp only [step, hworker, Option.some.injEq] at h
      exact h ▸ works_scan (d := s.dirty) (.inr rfl) (hready Wait.noConfusion) id
    | expired =>
      simp only [step, hworker, Option.some.injEq] at h
      exact h ▸ works_scan (.inr rfl) (hready Wait.noConfusion) Bool.noConfusion
  | _ => simp [step, hworker] at h

theorem step_works (h : s.step e = some t) {rendered : Bool} (he : e.works rendered = true) :
    s.Works e t := by
  cases step_does h with
  | late => cases he
  | update => cases he
  | shutdown => cases he
  | lock r hworker => exact works_scan (d := s.dirty) (.inl rfl) (.inl hworker) id
  | wake r => exact works_wake h
  | keepExpires dl hworker => exact .keepEnds dl _ hworker Wait.noConfusion
  | restExpires d1 hworker => exact .restEnds d1 _ hworker Wait.noConfusion
  | keepEnds dl hworker => exact .keepEnds dl _ hworker Wait.noConfusion
  | restEnds d1 hworker => exact .restEnds d1 _ hworker Wait.noConfusion
  | resume d1 w hworker hw => exact .resume d1 w hworker hw
  | post ok body hworker => exact .post ok body hworker
  | count hworker => exact .count hworker
  | skip hworker hstop => exact .skip hworker hstop
  | pause hworker hstop => exact .pause hworker hstop
  | pass n => exact .pass n

end Lobby

/-! ### Both threads -/

open VO.Port.Lobby (Room Snapshot Thread jsonMax renderJson)

/-- Where the main thread is: serving; in `lobby_shutdown`, with its snapshot, joining the worker since
    some time; in its own POST, the worker joined or left behind; or back. -/
inductive Main where
  | serving
  | joining (snap : Snapshot) (since : ℕ)
  | final (snap : Snapshot) (joined : Bool)
  | returned (snap : Snapshot)
  deriving DecidableEq, Repr

/-- What `lobby_shutdown` is going to POST, or has. -/
def Main.snap? : Main → Option Snapshot
  | .serving => none
  | .joining snap _ => some snap
  | .final snap _ => some snap
  | .returned snap => some snap

/-- The last three fields are the onlooker's: the count of the latest update, what has been POSTed, and
    when the POST under way was begun. -/
structure Publisher where
  lobby : Lobby
  main : Main
  latest : ℤ
  posted : List Snapshot
  since : ℕ
  deriving DecidableEq, Repr

namespace Publisher

inductive Event where
  | update (n : ℤ)
  | shutdown
  /-- The join is over: the worker is done, or the time is up. -/
  | joined
  | joinExpires
  /-- The POST of `lobby_shutdown` is over. -/
  | final (ok : Bool)
  | work (e : Lobby.Event)

/-- What a snapshot would be now. -/
def snap (s : Publisher) : Snapshot := ⟨s.lobby.offline, s.lobby.curplayers⟩

/-- Whether a snapshot fits its buffer. -/
def renders (l : Room) (snap : Snapshot) : Bool := (renderJson l snap jsonMax).isSome

/-- The worker has taken a step. -/
def worked (s : Publisher) (e : Lobby.Event) (t : Lobby) : Publisher :=
  { s with
    lobby := t
    posted := match e with
      | .post _ => s.posted ++ s.lobby.worker.body?.toList
      | _ => s.posted
    since := if s.lobby.worker.body?.isSome then s.since else s.lobby.now }

def step (l : Room) (s : Publisher) : Event → Option Publisher
  | .update n =>
    if s.main = .serving then
      (s.lobby.step (.update n)).map fun t => { s with lobby := t, latest := n }
    else none
  | .shutdown =>
    if s.main = .serving then
      (s.lobby.step .shutdown).map fun t =>
        { s with lobby := t, main := .joining ⟨t.offline, t.curplayers⟩ t.now }
    else none
  | .joined =>
    match s.main with
    | .joining snap _ =>
      if s.lobby.worker = .done then some { s with main := .final snap true } else none
    | _ => none
  | .joinExpires =>
    match s.main with
    | .joining snap since =>
      if since + joinTimeout ≤ s.lobby.now then some { s with main := .final snap false } else none
    | _ => none
  | .final ok =>
    match s.main with
    | .final snap joined =>
      if renders l snap then
        let failures := if joined && !ok then s.lobby.failures + 1 else s.lobby.failures
        some { s with lobby := { s.lobby with failures := failures }, main := .returned snap
                      posted := s.posted ++ [snap] }
      else some { s with main := .returned snap }
    | _ => none
  | .work e =>
    if e.works (renders l s.snap) then (s.lobby.step e).map (s.worked e) else none

/-- `lobby_start`. -/
def start (keepalive : ℕ) : Publisher :=
  { lobby := .start keepalive, main := .serving, latest := 0, posted := [], since := 0 }

end Publisher

/-- The two threads of a publisher whose strings are these. -/
def publisher (l : Room) : Machine Publisher Publisher.Event where
  init s := ∃ keepalive, s = .start keepalive
  step := Publisher.step l

namespace Publisher

variable {l : Room} {s t u : Publisher} {e : Event}

/-! ### What a step does -/

/-- Everything that can happen, and when. -/
inductive Does (l : Room) (s : Publisher) : Event → Publisher → Prop
  | update (n : ℤ) (t : Lobby) (h : s.main = .serving) (hstep : s.lobby.step (.update n) = some t) :
      Does l s (.update n) { s with lobby := t, latest := n }
  | shutdown (t : Lobby) (h : s.main = .serving) (hstep : s.lobby.step .shutdown = some t) :
      Does l s .shutdown { s with lobby := t, main := .joining ⟨t.offline, t.curplayers⟩ t.now }
  | joined (snap : Snapshot) (since : ℕ) (h : s.main = .joining snap since)
      (hdone : s.lobby.worker = .done) : Does l s .joined { s with main := .final snap true }
  | joinExpires (snap : Snapshot) (since : ℕ) (h : s.main = .joining snap since)
      (hlate : since + joinTimeout ≤ s.lobby.now) :
      Does l s .joinExpires { s with main := .final snap false }
  | final (ok : Bool) (snap : Snapshot) (joined : Bool) (h : s.main = .final snap joined)
      (hsnap : renders l snap = true) (failures : ℕ) : Does l s (.final ok)
        { s with lobby := { s.lobby with failures := failures }, main := .returned snap
                 posted := s.posted ++ [snap] }
  | unrendered (ok : Bool) (snap : Snapshot) (joined : Bool) (h : s.main = .final snap joined)
      (hsnap : renders l snap = false) : Does l s (.final ok) { s with main := .returned snap }
  | work (e : Lobby.Event) (t : Lobby) (he : e.works (renders l s.snap) = true)
      (h : s.lobby.Works e t) : Does l s (.work e) (s.worked e t)

theorem step_does (h : s.step l e = some t) : s.Does l e t := by
  cases e with
  | update n =>
    obtain ⟨hmain, h⟩ := Option.ite_none_right_eq_some.mp h
    obtain ⟨t', ht, rfl⟩ := Option.map_eq_some_iff.mp h
    exact .update n t' hmain ht
  | shutdown =>
    obtain ⟨hmain, h⟩ := Option.ite_none_right_eq_some.mp h
    obtain ⟨t', ht, rfl⟩ := Option.map_eq_some_iff.mp h
    exact .shutdown t' hmain ht
  | joined =>
    cases hmain : s.main with
    | joining snap since =>
      simp only [step, hmain, Option.ite_none_right_eq_some, Option.some.injEq] at h
      exact h.2 ▸ .joined snap since hmain h.1
    | _ => simp [step, hmain] at h
  | joinExpires =>
    cases hmain : s.main with
    | joining snap since =>
      simp only [step, hmain, Option.ite_none_right_eq_some, Option.some.injEq] at h
      exact h.2 ▸ .joinExpires snap since hmain h.1
    | _ => simp [step, hmain] at h
  | final ok =>
    cases hmain : s.main with
    | final snap joined =>
      simp only [step, hmain] at h
      split at h
      · next hsnap => exact Option.some.inj h ▸ .final ok snap joined hmain hsnap _
      · next hsnap =>
        exact Option.some.inj h ▸ .unrendered ok snap joined hmain (Bool.not_eq_true _ ▸ hsnap)
    | _ => simp [step, hmain] at h
  | work e =>
    obtain ⟨he, h⟩ := Option.ite_none_right_eq_some.mp h
    obtain ⟨t', ht, rfl⟩ := Option.map_eq_some_iff.mp h
    exact .work e t' he (Lobby.step_works ht he)

/-! ### What is known of the two -/

/-- The flags say where the main thread is. The newest count is under way or POSTed, if nothing says that
    it has yet to be taken; and whoever waits has taken it. -/
structure Sound (l : Room) (s : Publisher) : Prop where
  stopping : s.lobby.stopping = s.main.snap?.isSome
  stopEvt : s.lobby.stopEvt = s.lobby.stopping
  offline : s.lobby.offline = s.lobby.stopping
  latest : s.lobby.curplayers = s.latest
  leaving : ∀ f ∈ s.main.snap?, f = s.snap
  posting : ∀ b ∈ s.lobby.worker.body?, s.lobby.stopping = false → s.lobby.dirty = false → b = s.snap
  told : s.lobby.worker.body? = none → s.lobby.stopping = false → s.lobby.dirty = false →
    renders l s.snap = true → s.posted.getLast? = some s.snap
  waits : ∀ dl, s.lobby.worker = .keep dl .blocked → s.lobby.dirty = false ∧ s.lobby.stopping = false
  rests : ∀ d, s.lobby.worker = .debounce d .blocked → s.lobby.stopping = false

theorem sound_start (keepalive : ℕ) : (start keepalive).Sound l where
  stopping := rfl
  stopEvt := rfl
  offline := rfl
  latest := rfl
  leaving f h := by cases h
  posting b h := by cases h
  told _ _ h := by cases h
  waits dl h := by cases h
  rests d h := by cases h

end Publisher

theorem Lobby.broadcast_body (s : Lobby) : s.broadcast.worker.body? = s.worker.body? := by
  rw [Lobby.broadcast]
  cases s.worker with
  | _ => rfl

/-- Nobody waits who has been notified. -/
theorem Lobby.broadcast_awake (s : Lobby) : (∀ dl, s.broadcast.worker ≠ .keep dl .blocked) ∧
    ∀ d, s.broadcast.worker ≠ .debounce d .blocked := by
  rw [Lobby.broadcast]
  cases s.worker with
  | keep dl w => exact ⟨fun _ h => w.notify_ne (Thread.keep.inj h).2, fun _ => Thread.noConfusion⟩
  | debounce d w =>
    exact ⟨fun _ => Thread.noConfusion, fun _ h => w.notify_ne (Thread.debounce.inj h).2⟩
  | _ => exact ⟨fun _ => Thread.noConfusion, fun _ => Thread.noConfusion⟩

namespace Publisher

variable {l : Room} {s t u : Publisher} {e : Event}

theorem Sound.update (hs : s.Sound l) {n : ℤ} {v : Lobby} (hmain : s.main = .serving)
    (hstep : s.lobby.step (.update n) = some v) :
    Sound l { s with lobby := v, latest := n } := by
  have hstop : s.lobby.stopping = false := by rw [hs.stopping, hmain]; rfl
  cases Lobby.step_does hstep with
  | late _ h => cases hstop.symm.trans h
  | update =>
    refine ⟨hs.stopping, hs.stopEvt, hs.offline, rfl, ?_, ?_, ?_, ?_, fun _ _ => hstop⟩
    · intro f hf
      rw [hmain] at hf
      cases hf
    · exact fun _ _ _ => Bool.noConfusion
    · exact fun _ _ => Bool.noConfusion
    · exact fun dl h => absurd h ((Lobby.broadcast_awake _).1 dl)

theorem Sound.shutdown (hs : s.Sound l) {v : Lobby} (hstep : s.lobby.step .shutdown = some v) :
    Sound l { s with lobby := v, main := .joining ⟨v.offline, v.curplayers⟩ v.now } := by
  cases Lobby.step_does hstep with
  | shutdown hstop =>
    refine ⟨rfl, rfl, rfl, hs.latest, ?_, fun _ _ => Bool.noConfusion, fun _ => Bool.noConfusion, ?_, ?_⟩
    · rintro f ⟨⟩
      rfl
    · exact fun dl h => absurd h ((Lobby.broadcast_awake _).1 dl)
    · exact fun d h => absurd h ((Lobby.broadcast_awake _).2 d)

/-- Past `shutdown` only the main thread's place and its POST are left to see to. -/
theorem Sound.leave (hs : s.Sound l) {f : Snapshot} (hmain : s.main.snap? = some f) {m : Main}
    (hm : m.snap? = some f) (failures : ℕ) (posted : List Snapshot) : Sound l { s with
      lobby := { s.lobby with failures := failures }, main := m, posted := posted } := by
  have hstop : s.lobby.stopping = true := by rw [hs.stopping, hmain]; rfl
  refine ⟨?_, hs.stopEvt, hs.offline, hs.latest, ?_, hs.posting, ?_, hs.waits, hs.rests⟩
  · exact hs.stopping.trans (by rw [hmain, hm])
  · exact fun g hg => hs.leaving g (hmain.trans (hm.symm.trans hg))
  · exact fun _ h => absurd (hstop.symm.trans h) Bool.noConfusion

/-- The worker gets from one place to another where it neither takes anything nor starts to wait. -/
theorem Sound.moves (hs : s.Sound l) {w : Thread} (failures : ℕ) (due : Option ℕ) (now since : ℕ)
    (posted : List Snapshot)
    (hbody : w.body? = s.lobby.worker.body? ∧ posted = s.posted ∨
      w.body? = none ∧ posted = s.posted ++ s.lobby.worker.body?.toList)
    (hkeep : ∀ dl, w = .keep dl .blocked → s.lobby.worker = .keep dl .blocked)
    (hrest : ∀ d, w = .debounce d .blocked → s.lobby.stopping = false) :
    Sound l { s with lobby := { s.lobby with worker := w, failures := failures, due := due, now := now }
                     posted := posted, since := since } := by
  refine ⟨hs.stopping, hs.stopEvt, hs.offline, hs.latest, hs.leaving, ?_, ?_, ?_, hrest⟩
  · intro b hb
    rcases hbody with ⟨hbody, -⟩ | ⟨hbody, -⟩
    · exact hs.posting b (hbody ▸ hb)
    · cases hbody.symm.trans hb
  · intro hnone hstop hdirty hsnap
    cases hworker : s.lobby.worker.body? with
    | none =>
      have hposted : posted = s.posted := by
        rcases hbody with ⟨-, h⟩ | ⟨-, h⟩
        · exact h
        · rw [h, hworker, Option.toList_none, List.append_nil]
      exact (congrArg List.getLast? hposted).trans (hs.told hworker hstop hdirty hsnap)
    | some b =>
      rcases hbody with ⟨hbody, -⟩ | ⟨-, hposted⟩
      · cases hnone.symm.trans (hbody.trans hworker)
      · obtain rfl := hs.posting b hworker hstop hdirty
        rw [hworker, Option.toList_some] at hposted
        exact (congrArg List.getLast? hposted).trans List.getLast?_concat
  · exact fun dl h => hs.waits dl (hkeep dl h)

theorem worked_posted {e : Lobby.Event} {v : Lobby} (h : s.lobby.worker.body? = none) :
    (s.worked e v).posted = s.posted := by
  cases e with
  | post ok => exact (congrArg (s.posted ++ ·.toList) h).trans (List.append_nil _)
  | _ => rfl

theorem ready_body {w : Thread} (h : w.Ready) : w.body? = none := by
  rcases h with rfl | ⟨dl, x, rfl, -⟩
  · rfl
  · rfl

theorem Sound.work (hs : s.Sound l) {e : Lobby.Event} {v : Lobby}
    (he : e.works (renders l s.snap) = true) (h : s.lobby.Works e v) : (s.worked e v).Sound l := by
  have hsame {w : Thread} (hw : s.lobby.worker = w) (hnone : w.body? = none) {w' : Thread}
      (hw' : w'.body? = none) : w'.body? = s.lobby.worker.body? ∧ (s.worked e v).posted = s.posted ∨
        w'.body? = none ∧ (s.worked e v).posted = s.posted ++ s.lobby.worker.body?.toList :=
    .inl ⟨hw'.trans (hw ▸ hnone).symm, worked_posted (hw ▸ hnone)⟩
  cases h with
  | waits dl hready hdirty hstop =>
    refine ⟨hs.stopping, hs.stopEvt, hs.offline, hs.latest, hs.leaving, by rintro b ⟨⟩, ?_,
      fun _ _ => ⟨hdirty, hstop⟩, by rintro d ⟨⟩⟩
    intro _ _ _ hsnap
    rw [worked_posted (ready_body hready)]
    exact hs.told (ready_body hready) hstop hdirty hsnap
  | stops hready hstop =>
    exact ⟨hs.stopping, hs.stopEvt, hs.offline, hs.latest, hs.leaving, by rintro b ⟨⟩,
      fun _ h => absurd (hstop.symm.trans h) Bool.noConfusion, by rintro dl ⟨⟩, by rintro d ⟨⟩⟩
  | takes rendered hevent hready hstop =>
    have hrendered : rendered = renders l s.snap := by
      rcases hevent with rfl | rfl
      · exact eq_of_beq he
      · exact eq_of_beq he
    refine ⟨hs.stopping, hs.stopEvt, hs.offline, hs.latest, hs.leaving, ?_, ?_, ?_, ?_⟩
    · intro b hb
      cases rendered with
      | true => exact fun _ _ => (Option.some.inj hb).symm
      | false => cases hb
    · intro hnone _ _ hsnap
      rw [hrendered.trans hsnap] at hnone
      cases hnone
    · cases rendered with
      | true => rintro dl ⟨⟩
      | false => rintro dl ⟨⟩
    · cases rendered with
      | true => rintro d ⟨⟩
      | false => rintro d ⟨⟩
  | keepEnds dl w hworker hw =>
    exact hs.moves _ _ _ _ _ (hsame hworker rfl rfl)
      (fun _ h => absurd (Thread.keep.inj h).2 hw) (by rintro d ⟨⟩)
  | restEnds d1 w hworker hw =>
    exact hs.moves _ _ _ _ _ (hsame hworker rfl rfl) (by rintro dl ⟨⟩)
      (fun _ h => absurd (Thread.debounce.inj h).2 hw)
  | resume d1 w hworker hw =>
    exact hs.moves _ _ _ _ _ (hsame hworker rfl rfl) (by rintro dl ⟨⟩) (by rintro d ⟨⟩)
  | post ok body hworker =>
    cases ok with
    | true => exact hs.moves _ _ _ _ _ (.inr ⟨rfl, rfl⟩) (by rintro dl ⟨⟩) (by rintro d ⟨⟩)
    | false => exact hs.moves _ _ _ _ _ (.inr ⟨rfl, rfl⟩) (by rintro dl ⟨⟩) (by rintro d ⟨⟩)
  | count hworker =>
    exact hs.moves _ _ _ _ _ (hsame hworker rfl rfl) (by rintro dl ⟨⟩) (by rintro d ⟨⟩)
  | skip hworker hstop =>
    exact hs.moves _ _ _ _ _ (hsame hworker rfl rfl) (by rintro dl ⟨⟩) (by rintro d ⟨⟩)
  | pause hworker hstop =>
    exact hs.moves _ _ _ _ _ (hsame hworker rfl rfl) (by rintro dl ⟨⟩)
      (fun _ _ => hs.stopEvt.symm.trans hstop)
  | pass n => exact hs.moves _ _ _ _ _ (.inl ⟨rfl, rfl⟩) (fun _ h => h) hs.rests

theorem Does.sound (h : s.Does l e t) (hs : s.Sound l) : t.Sound l := by
  cases h with
  | update n v hmain hstep => exact hs.update hmain hstep
  | shutdown v hmain hstep => exact hs.shutdown hstep
  | joined snap since hmain hdone => exact hs.leave (congrArg Main.snap? hmain) rfl _ _
  | joinExpires snap since hmain hlate => exact hs.leave (congrArg Main.snap? hmain) rfl _ _
  | final ok snap joined hmain hsnap failures =>
    exact hs.leave (congrArg Main.snap? hmain) rfl failures _
  | unrendered ok snap joined hmain hsnap => exact hs.leave (congrArg Main.snap? hmain) rfl _ _
  | work e v he hworks => exact hs.work he hworks

/-! ### The farewell -/

/-- What is known besides, if every POST is over within the time a join takes. -/
structure Departing (l : Room) (s : Publisher) : Prop where
  sound : s.Sound l
  begun : s.lobby.worker.body?.isSome → s.since ≤ s.lobby.now
  joining : ∀ f j, s.main = .joining f j → s.lobby.worker.body?.isSome → s.since ≤ j
  parting : ∀ f, (∃ b, s.main = .final f b) ∨ s.main = .returned f → s.lobby.worker.body? = none
  last : ∀ f, s.main = .returned f → renders l f = true → s.posted.getLast? = some f

/-- No POST takes as long as a join may. -/
def Prompt (s : Publisher) : Prop :=
  s.lobby.worker.body?.isSome → s.lobby.now < s.since + joinTimeout

instance : DecidablePred Prompt := fun s =>
  inferInstanceAs (Decidable (_ → s.lobby.now < s.since + joinTimeout))

theorem departing_start (keepalive : ℕ) : (start keepalive).Departing l where
  sound := sound_start keepalive
  begun h := by cases h
  joining f j h := by cases h
  parting f h := by rcases h with ⟨b, h⟩ | h <;> cases h
  last f h := by cases h

/-- A POST is begun by whoever finds that the publisher is not being shut down. -/
theorem works_body {s t : Lobby} {e : Lobby.Event} (h : s.Works e t) (ht : t.worker.body?.isSome) :
    s.now ≤ t.now ∧ (t.worker.body? = s.worker.body? ∨
      s.worker.body? = none ∧ s.stopping = false ∧ t.now = s.now) := by
  cases h with
  | takes rendered he hready hstop =>
    exact ⟨Nat.le_refl _, .inr ⟨ready_body hready, hstop, rfl⟩⟩
  | post ok body =>
    cases ok with
    | true => cases ht
    | false => cases ht
  | pass n => exact ⟨Nat.le_add_right _ _, .inl rfl⟩
  | _ => cases ht

theorem Departing.work (hs : s.Departing l) {e : Lobby.Event} {v : Lobby}
    (he : e.works (renders l s.snap) = true) (h : s.lobby.Works e v) : (s.worked e v).Departing l := by
  have hlate : ∀ f, s.main.snap? = some f → s.lobby.stopping = true := by
    intro f hf
    rw [hs.sound.stopping, hf]
    rfl
  have hstays : ∀ f, s.main.snap? = some f → v.worker.body?.isSome →
      v.worker.body? = s.lobby.worker.body? := by
    intro f hf hv
    refine (works_body h hv).2.resolve_right fun hnew => ?_
    cases (hlate f hf).symm.trans hnew.2.1
  have hnone : ∀ f, s.main.snap? = some f → s.lobby.worker.body? = none →
      v.worker.body? = none := by
    intro f hf hidle
    by_contra hv
    have hsome := Option.isSome_iff_ne_none.mpr hv
    exact hv ((hstays f hf hsome).trans hidle)
  have hparting : ∀ f, (∃ b, s.main = .final f b) ∨ s.main = .returned f → s.main.snap? = some f := by
    rintro f (⟨b, hf⟩ | hf)
    · exact congrArg Main.snap? hf
    · exact congrArg Main.snap? hf
  refine ⟨hs.sound.work he h, ?_, ?_, ?_, ?_⟩
  · intro hv
    obtain ⟨hle, hold | ⟨hidle, -, hnow⟩⟩ := works_body h hv
    · have hsome : s.lobby.worker.body?.isSome := hold ▸ hv
      simp only [worked, hsome, if_true]
      exact Nat.le_trans (hs.begun hsome) hle
    · simp [worked, hidle, hnow]
  · intro f j hmain hv
    have hsome : s.lobby.worker.body?.isSome := hstays f (congrArg Main.snap? hmain) hv ▸ hv
    simp only [worked, hsome, if_true]
    exact hs.joining f j hmain hsome
  · exact fun f hmain => hnone f (hparting f hmain) (hs.parting f hmain)
  · intro f hmain hf
    rw [worked_posted (hs.parting f (.inr hmain))]
    exact hs.last f hmain hf

theorem Does.departing (h : s.Does l e t) (hs : s.Departing l) (hprompt : t.Prompt) :
    t.Departing l := by
  have ht := h.sound hs.sound
  cases h with
  | update n v hmain hstep =>
    have hlobby : v.worker.body? = s.lobby.worker.body? ∧ v.now = s.lobby.now := by
      cases Lobby.step_does hstep with
      | late => exact ⟨rfl, rfl⟩
      | update => exact ⟨Lobby.broadcast_body _, rfl⟩
    refine ⟨ht, ?_, ?_, ?_, ?_⟩
    · exact fun h => hlobby.2 ▸ hs.begun (hlobby.1 ▸ h)
    · intro f j h
      cases hmain.symm.trans h
    · rintro f (⟨b, h⟩ | h)
      · cases hmain.symm.trans h
      · cases hmain.symm.trans h
    · intro f h
      cases hmain.symm.trans h
  | shutdown v hmain hstep =>
    have hlobby : v.worker.body? = s.lobby.worker.body? ∧ v.now = s.lobby.now := by
      cases Lobby.step_does hstep with
      | shutdown => exact ⟨Lobby.broadcast_body _, rfl⟩
    have hbegun : v.worker.body?.isSome → s.since ≤ v.now :=
      fun h => hlobby.2 ▸ hs.begun (hlobby.1 ▸ h)
    refine ⟨ht, hbegun, ?_, ?_, by rintro f ⟨⟩⟩
    · rintro f j ⟨⟩ h
      exact hbegun h
    · rintro f (⟨b, h⟩ | h)
      · cases h
      · cases h
  | joined snap since hmain hdone =>
    have hidle : s.lobby.worker.body? = none := by rw [hdone]; rfl
    exact ⟨ht, hs.begun, by rintro f j ⟨⟩, fun _ _ => hidle, by rintro f ⟨⟩⟩
  | joinExpires snap since hmain hlate =>
    refine ⟨ht, hs.begun, by rintro f j ⟨⟩, fun _ _ => ?_, by rintro f ⟨⟩⟩
    -- A POST that was under way when the join began is over by now, and none has been begun.
    by_contra hpost
    have hsome := Option.isSome_iff_ne_none.mpr hpost
    have hbefore : s.since ≤ since := hs.joining snap since hmain hsome
    have hsoon : s.lobby.now < s.since + joinTimeout := hprompt hsome
    omega
  | final ok snap joined hmain hsnap failures =>
    have hidle := hs.parting snap (.inl ⟨joined, hmain⟩)
    refine ⟨ht, hs.begun, by rintro f j ⟨⟩, fun _ _ => hidle, ?_⟩
    rintro f ⟨⟩ -
    exact List.getLast?_concat
  | unrendered ok snap joined hmain hsnap =>
    have hidle := hs.parting snap (.inl ⟨joined, hmain⟩)
    refine ⟨ht, hs.begun, by rintro f j ⟨⟩, fun _ _ => hidle, ?_⟩
    rintro f ⟨⟩ hf
    cases hsnap.symm.trans hf
  | work e v he hworks => exact hs.work he hworks

/-- If the worker waits, and nobody has notified it, the latest count is the last it has POSTed, if that
    can be rendered. -/
def Informed (l : Room) (s : Publisher) : Prop := ∀ dl, s.lobby.worker = .keep dl .blocked →
  renders l ⟨false, s.latest⟩ = true → s.posted.getLast? = some ⟨false, s.latest⟩

/-- Once `lobby_shutdown` is back, the last that has been POSTed says offline and the latest count, if
    that can be rendered, and nothing else is under way. -/
def Farewell (l : Room) (s : Publisher) : Prop := ∀ f, s.main = .returned f →
  (renders l ⟨true, s.latest⟩ = true → s.posted.getLast? = some ⟨true, s.latest⟩) ∧
    s.lobby.worker.body? = none

theorem Sound.informed (hs : s.Sound l) : s.Informed l := by
  intro dl hworker
  obtain ⟨hdirty, hstop⟩ := hs.waits dl hworker
  have hsnap : s.snap = ⟨false, s.latest⟩ := by rw [snap, hs.offline, hstop, hs.latest]
  have htold := hs.told (by rw [hworker]; rfl) hstop hdirty
  rw [hsnap] at htold
  exact htold

theorem Departing.farewell (hs : s.Departing l) : s.Farewell l := by
  intro f hmain
  have hsnap? : s.main.snap? = some f := congrArg Main.snap? hmain
  have hf : f = ⟨true, s.latest⟩ := by
    rw [hs.sound.leaving f hsnap?, snap, hs.sound.offline, hs.sound.stopping, hsnap?, hs.sound.latest]
    rfl
  exact ⟨hf ▸ hs.last f hmain, hs.parting f (.inr hmain)⟩

end Publisher

/-- Whatever the order of the main thread's calls, the worker's steps and the clock: whenever the worker
    waits and has not been notified, the last it has POSTed is the latest count; and if no POST takes as
    long as the join may, then once `lobby_shutdown` is back the last that has been POSTed is that the
    room is offline, with the latest count, and no other can follow. -/
theorem publisher_posts_latest {l : Room} {s : Publisher} (h : (publisher l).init s)
    (es : List Publisher.Event) : (publisher l).Throughout (Publisher.Informed l) s es ∧
      ((publisher l).Throughout Publisher.Prompt s es →
        (publisher l).Throughout (Publisher.Farewell l) s es) := by
  obtain ⟨keepalive, rfl⟩ := h
  refine ⟨?_, fun hprompt => ?_⟩
  · refine (publisher l).throughout_of_good (J := Publisher.Sound l) (G := fun _ => True)
      (fun s hs => hs.informed) (fun s e t hs _ hstep => ?_)
      ((publisher l).throughout_of_forall (fun _ => trivial) es _) (Publisher.sound_start keepalive)
    exact (Publisher.step_does hstep).sound hs
  · refine (publisher l).throughout_of_good (J := Publisher.Departing l) (G := Publisher.Prompt)
      (fun s hs => hs.farewell) (fun s e t hs ht hstep => ?_) hprompt
      (Publisher.departing_start keepalive)
    exact (Publisher.step_does hstep).departing hs ht

/-- A client comes while the room is being published; the second POST fails, and the server is shut down
    while the worker rests. -/
def Publisher.evening : List Publisher.Event :=
  [.work (.lock true), .update 1, .work (.post true), .work .pause, .work (.pass 1000), .work .expire,
    .work .resume, .work (.lock true), .work (.post false), .work .count, .work .pause, .shutdown,
    .work .resume, .work (.lock true), .joined, .final true]

/-- The strings if nothing else is said. -/
def Lobby.stockRoom : Room :=
  let a := Lobby.stock Lobby.videoOlympics
  { game := { a.gameName with short := by decide +kernel, ascii := by decide +kernel }
    server := { a.serverName with short := by decide +kernel, ascii := by decide +kernel }
    region := { a.region with short := by decide +kernel, ascii := by decide +kernel }
    serverurl := { a.serverurl with short := by decide +kernel, ascii := by decide +kernel }
    clientUrl := { a.clientUrl with short := by decide +kernel, ascii := by decide +kernel }
    appkey := a.appkey, maxplayers := a.maxplayers }

theorem publisher_posts_latest_evening :
    (publisher Lobby.stockRoom).Throughout (Publisher.Farewell Lobby.stockRoom) (.start 300000)
      Publisher.evening ∧
    ∃ s, (publisher Lobby.stockRoom).run (.start 300000) Publisher.evening = some s ∧
      s.main = .returned ⟨true, 1⟩ ∧ s.posted = [⟨false, 0⟩, ⟨false, 1⟩, ⟨true, 1⟩] :=
  ⟨(publisher_posts_latest ⟨300000, rfl⟩ Publisher.evening).2 (by decide +kernel),
    (publisher Lobby.stockRoom).exists_run (by decide +kernel)⟩

/-! ### The join -/

/-- How many steps a worker has left that is not to wait any more. -/
def Lobby.Thread.rank : Thread → ℕ
  | .done => 0
  | .top => 1
  | .keep _ _ => 1
  | .debounce _ _ => 2
  | .pause => 2
  | .failed => 3
  | .posting _ => 4

namespace Publisher

variable {l : Room} {s t u : Publisher} {e : Event}

/-- A step of the worker's, and not of the clock's. -/
def Event.moves : Event → Bool
  | .work (.pass _) => false
  | .work _ => true
  | _ => false

/-- The main thread has been in `lobby_shutdown`, or is. -/
structure Stopping (l : Room) (s : Publisher) : Prop where
  sound : s.Sound l
  stopping : s.lobby.stopping = true

theorem Stopping.awake (hs : s.Stopping l) : (∀ dl, s.lobby.worker ≠ .keep dl .blocked) ∧
    ∀ d, s.lobby.worker ≠ .debounce d .blocked :=
  ⟨fun dl h => Bool.noConfusion (hs.stopping.symm.trans (hs.sound.waits dl h).2),
    fun d h => Bool.noConfusion (hs.stopping.symm.trans (hs.sound.rests d h))⟩

/-- Every step of the worker's takes it nearer to its end, and none begins a POST. -/
theorem Stopping.step (hs : s.Stopping l) (h : s.Does l e t) : t.Stopping l ∧
    (if e.moves then 1 else 0) + t.lobby.worker.rank ≤ s.lobby.worker.rank ∧
      ∀ b ∈ t.lobby.worker.body?, b ∈ s.lobby.worker.body? := by
  have ht := h.sound hs.sound
  have hserving : s.main ≠ .serving := by
    intro hmain
    have hstop := hs.sound.stopping
    rw [hmain, hs.stopping] at hstop
    cases hstop
  have hgoes : s.lobby.stopping ≠ false := fun h => Bool.noConfusion (hs.stopping.symm.trans h)
  have hmoves : (if e.moves then 1 else 0) ≤ 1 := by split <;> omega
  cases h with
  | update n v hmain => exact absurd hmain hserving
  | shutdown v hmain => exact absurd hmain hserving
  | joined | joinExpires | final | unrendered =>
    exact ⟨⟨ht, hs.stopping⟩, (Nat.zero_add _).le, fun _ h => h⟩
  | work e v he hworks =>
    have hrank : s.lobby.worker.Ready → s.lobby.worker.rank = 1 := by
      rintro (hworker | ⟨dl, x, hworker, -⟩)
      · rw [hworker]; rfl
      · rw [hworker]; rfl
    cases hworks with
    | waits dl hready hdirty hstop => exact absurd hstop hgoes
    | takes rendered he hready hstop => exact absurd hstop hgoes
    | stops hready hstop =>
      refine ⟨⟨ht, hs.stopping⟩, ?_, by rintro b ⟨⟩⟩
      rw [hrank hready]
      exact hmoves
    | keepEnds dl w hworker => exact absurd hworker (hs.awake.1 dl)
    | restEnds d w hworker => exact absurd hworker (hs.awake.2 d)
    | pause hworker hstop => exact absurd (hs.sound.stopEvt.symm.trans hstop) hgoes
    | resume d w hworker | skip hworker =>
      refine ⟨⟨ht, hs.stopping⟩, ?_, by rintro b ⟨⟩⟩
      rw [hworker]
      exact Nat.le_refl 2
    | post ok body hworker =>
      refine ⟨⟨ht, hs.stopping⟩, ?_, ?_⟩
      · rw [hworker]
        cases ok with
        | true => exact Nat.le_succ 3
        | false => exact Nat.le_refl 4
      · cases ok with
        | true => rintro b ⟨⟩
        | false => rintro b ⟨⟩
    | count hworker =>
      refine ⟨⟨ht, hs.stopping⟩, ?_, by rintro b ⟨⟩⟩
      rw [hworker]
      exact Nat.le_refl 3
    | pass n => exact ⟨⟨ht, hs.stopping⟩, (Nat.zero_add _).le, fun _ h => h⟩

/-- Until it is done there is a step that it can take. -/
theorem Stopping.goes (hs : s.Stopping l) (hworker : s.lobby.worker ≠ .done) :
    ∃ e : Event, e.moves = true ∧ ((publisher l).step s e).isSome := by
  have hgo : ∀ e : Lobby.Event, e.works (renders l s.snap) = true → (s.lobby.step e).isSome →
      ((publisher l).step s (.work e)).isSome := by
    intro e he h
    change (if _ then _ else none : Option Publisher).isSome = true
    rw [if_pos he, Option.isSome_map]
    exact h
  have hwake : ∀ e : Lobby.Event, e = .lock (renders l s.snap) ∨ e = .wake (renders l s.snap) →
      e.works (renders l s.snap) = true := by
    rintro e (rfl | rfl)
    · exact beq_self_eq_true _
    · exact beq_self_eq_true _
  cases h : s.lobby.worker with
  | top => exact ⟨.work (.lock _), rfl, hgo _ (hwake _ (.inl rfl)) (by simp [Lobby.step, h])⟩
  | keep dl w =>
    refine ⟨.work (.wake _), rfl, hgo _ (hwake _ (.inr rfl)) ?_⟩
    cases w with
    | blocked => exact absurd h (hs.awake.1 dl)
    | notified => simp [Lobby.step, h]
    | expired => simp [Lobby.step, h]
  | posting b => exact ⟨.work (.post true), rfl, hgo _ rfl (by simp [Lobby.step, h])⟩
  | failed => exact ⟨.work .count, rfl, hgo _ rfl (by simp [Lobby.step, h])⟩
  | pause => exact ⟨.work .pause, rfl, hgo _ rfl (by simp [Lobby.step, h])⟩
  | debounce d w =>
    have hw : w ≠ .blocked := fun hw => hs.awake.2 d (hw ▸ h)
    exact ⟨.work .resume, rfl, hgo _ rfl (by simp [Lobby.step, h, hw])⟩
  | done => exact absurd h hworker

theorem Stopping.run (hs : s.Stopping l) {es : List Event} (hrun : (publisher l).run s es = some t) :
    t.Stopping l ∧ (es.filter Event.moves).length + t.lobby.worker.rank ≤ s.lobby.worker.rank ∧
      ∀ b ∈ t.lobby.worker.body?, b ∈ s.lobby.worker.body? := by
  induction es generalizing s with
  | nil =>
    obtain rfl := Option.some.inj hrun
    exact ⟨hs, (Nat.zero_add _).le, fun _ h => h⟩
  | cons e es ih =>
    obtain ⟨v, hv, hrest⟩ := (publisher l).run_cons_some.mp hrun
    obtain ⟨hstopping, hrank, hbody⟩ := hs.step (step_does hv)
    obtain ⟨ht, hrank', hbody'⟩ := ih hstopping hrest
    refine ⟨ht, ?_, fun b h => hbody b (hbody' b h)⟩
    rw [List.filter_cons]
    split at hrank
    · next he => rw [if_pos he, List.length_cons]; omega
    · next he => rw [if_neg he]; omega

theorem reachable_sound (hs : (publisher l).Reachable s) : s.Sound l :=
  (publisher l).reachable_invariant
    (fun s h => by obtain ⟨keepalive, rfl⟩ := h; exact sound_start keepalive)
    (fun _ _ _ hs hstep => (step_does hstep).sound hs) hs

end Publisher

end VO.Port
