import VideoOlympics.Base.Monitor
import VideoOlympics.Base.Refine

/-! The publisher of the lobby: the server's main thread updates a count and in the end shuts the
    publisher down, and a worker POSTs the newest count. What either does under the lock is one step;
    the worker's test of `stop`, its POST and its rest are not under the lock, and anything may happen
    between them. -/

namespace VO.Lobby
open Monitor

/-! ### The state -/

/-- Times are milliseconds. `KEEPALIVE`. -/
def keepalive : ℕ := 300000
/-- At most one POST a second. -/
def restTime : ℕ := 1000
/-- `join(timeout=12)`. -/
def joinTimeout : ℕ := 12000

inductive Status where
  | online | offline
  deriving DecidableEq, Repr

/-- What changes in the payload. A POST's body is the payload at one moment. -/
structure Payload where
  status : Status
  curplayers : ℕ
  deriving DecidableEq, Repr

/-- What comes of a POST: it is answered, it fails with an `OSError`, or with another error, which ends
    the thread. -/
inductive Outcome where
  | ok | failed | raised
  deriving DecidableEq, Repr

/-- Where the worker is: at its test of `stop`, before the lock, in the wait under it, in a POST, in
    its rest, or at its end. -/
inductive Worker where
  | test
  | enter
  | waiting (till : ℕ) (w : Wait)
  | posting (body : Payload) (since : ℕ)
  | resting (till : ℕ)
  | done
  deriving DecidableEq, Repr

/-- Where the main thread is: serving; or in `shutdown`, with the body it will POST: the payload is
    marked, `stop` is set, it has notified and joins, it POSTs, it has returned. -/
inductive Main where
  | serving
  | marked (body : Payload)
  | stopping (body : Payload)
  | joining (body : Payload) (since : ℕ)
  | final (body : Payload)
  | returned (body : Payload)
  | raised
  deriving DecidableEq, Repr

/-- What `shutdown` is going to POST, or has. -/
def Main.body : Main → Option Payload
  | .marked body => some body
  | .stopping body => some body
  | .joining body _ => some body
  | .final body => some body
  | .returned body => some body
  | _ => none

/-- Has `shutdown` set `stop`? -/
def Main.stopped : Main → Bool
  | .serving => false
  | .marked _ => false
  | _ => true

/-- The worker is past its rest. -/
def Worker.rested : Worker → Bool
  | .resting _ => false
  | .done => false
  | _ => true

/-- The publisher. The last four fields are the onlooker's: the count of the latest update, the body
    the worker snapshotted last, the bodies POSTed, and when the worker's last rest is to end. -/
structure Publisher where
  payload : Payload
  dirty : Bool
  stop : Bool
  failures : ℕ
  worker : Worker
  main : Main
  now : ℕ
  latest : ℕ
  snapshot : Option Payload
  posted : List Payload
  due : ℕ
  deriving DecidableEq, Repr

namespace Publisher

/-- `LobbyPublisher.__init__` and `start`. -/
def start : Publisher :=
  { payload := { status := .online, curplayers := 0 }, dirty := true, stop := false, failures := 0,
    worker := .test, main := .serving, now := 0, latest := 0, snapshot := none, posted := [],
    due := 0 }

/-- `cv.notify()`. -/
def notify (s : Publisher) : Publisher :=
  { s with worker := match s.worker with
      | .waiting till w => .waiting till w.notify
      | w => w }

/-- The end of the worker's section under the lock: the body is rendered, and POSTed from there on. -/
def render (s : Publisher) : Publisher :=
  { s with dirty := false, snapshot := some s.payload, worker := .posting s.payload s.now }

/-- `post`, after it has been tried. -/
def tried (s : Publisher) (body : Payload) : Outcome → Publisher
  | .ok => { s with posted := s.posted ++ [body] }
  | .failed => { s with posted := s.posted ++ [body], failures := s.failures + 1 }
  | .raised => { s with posted := s.posted ++ [body] }

end Publisher

/-! ### The steps -/

inductive Event where
  /-- `update`. -/
  | update (n : ℕ)
  /-- `shutdown`: the payload says offline, and the body is rendered. -/
  | mark
  /-- `stop.set()`. -/
  | setStop
  /-- The notification of `shutdown`. -/
  | wakeUp
  /-- The join is over: the worker is done, or the time is up. -/
  | joined
  | joinExpires
  /-- The POST of `shutdown` is over. -/
  | finalPost (o : Outcome)
  /-- The worker tests `stop`. -/
  | check
  /-- It takes the lock. -/
  | lock
  /-- Its wait runs out. -/
  | expire
  /-- It has the lock again. -/
  | wake
  /-- Its POST is over. -/
  | post (o : Outcome)
  /-- `stop.wait(1.0)` returns. -/
  | rest
  /-- Time passes. -/
  | pass (n : ℕ)
  deriving DecidableEq, Repr

def Publisher.step (s : Publisher) : Event → Option Publisher
  | .update n =>
    if s.main = .serving then
      some ({ s with payload := { s.payload with curplayers := n }, dirty := true,
                     latest := n }).notify
    else none
  | .mark =>
    if s.main = .serving then
      let payload := { s.payload with status := .offline }
      some { s with payload := payload, main := .marked payload }
    else none
  | .setStop =>
    match s.main with
    | .marked body => some { s with stop := true, main := .stopping body }
    | _ => none
  | .wakeUp =>
    match s.main with
    | .stopping body => some { s.notify with main := .joining body s.now }
    | _ => none
  | .joined =>
    match s.main with
    | .joining body _ => if s.worker = .done then some { s with main := .final body } else none
    | _ => none
  | .joinExpires =>
    match s.main with
    | .joining body since =>
      if since + joinTimeout ≤ s.now then some { s with main := .final body } else none
    | _ => none
  | .finalPost o =>
    match s.main with
    | .final body =>
      some { s.tried body o with main := if o = .raised then .raised else .returned body }
    | _ => none
  | .check =>
    if s.worker = .test then some { s with worker := if s.stop then .done else .enter } else none
  | .lock =>
    if s.worker = .enter then
      some (if s.dirty then s.render
        else { s with worker := .waiting (s.now + keepalive) .blocked })
    else none
  | .expire =>
    match s.worker with
    | .waiting till w =>
      if w = .blocked ∧ till ≤ s.now then some { s with worker := .waiting till .expired } else none
    | _ => none
  | .wake =>
    match s.worker with
    | .waiting _ w => if w ≠ .blocked then some s.render else none
    | _ => none
  | .post o =>
    match s.worker with
    | .posting body _ =>
      some (if o = .raised then { s.tried body o with worker := .done }
        else { s.tried body o with worker := .resting (s.now + restTime), due := s.now + restTime })
    | _ => none
  | .rest =>
    match s.worker with
    | .resting till =>
      if s.stop ∨ till ≤ s.now then some { s with worker := .test } else none
    | _ => none
  | .pass n => some { s with now := s.now + n }

def publisher : Machine Publisher Event where
  init s := s = .start
  step := Publisher.step

/-! ### What a step does -/

variable {s t u : Publisher} {e : Event}

namespace Publisher

/-- Everything that can happen, and when. -/
inductive Does (s : Publisher) : Event → Publisher → Prop
  | update (n : ℕ) (h : s.main = .serving) :
      Does s (.update n) ({ s with payload := { s.payload with curplayers := n }, dirty := true,
                                   latest := n }).notify
  | mark (h : s.main = .serving) :
      Does s .mark { s with payload := { s.payload with status := .offline }
                            main := .marked { s.payload with status := .offline } }
  | setStop (body : Payload) (h : s.main = .marked body) :
      Does s .setStop { s with stop := true, main := .stopping body }
  | wakeUp (body : Payload) (h : s.main = .stopping body) :
      Does s .wakeUp { s.notify with main := .joining body s.now }
  | joined (body : Payload) (since : ℕ) (h : s.main = .joining body since)
      (hdone : s.worker = .done) : Does s .joined { s with main := .final body }
  | joinExpires (body : Payload) (since : ℕ) (h : s.main = .joining body since)
      (hlate : since + joinTimeout ≤ s.now) : Does s .joinExpires { s with main := .final body }
  | finalPost (o : Outcome) (body : Payload) (h : s.main = .final body) :
      Does s (.finalPost o)
        { s.tried body o with main := if o = .raised then .raised else .returned body }
  | check (h : s.worker = .test) :
      Does s .check { s with worker := if s.stop then .done else .enter }
  | take (h : s.worker = .enter) (hdirty : s.dirty = true) : Does s .lock s.render
  | wait (h : s.worker = .enter) (hdirty : s.dirty = false) :
      Does s .lock { s with worker := .waiting (s.now + keepalive) .blocked }
  | expire (till : ℕ) (h : s.worker = .waiting till .blocked) (hlate : till ≤ s.now) :
      Does s .expire { s with worker := .waiting till .expired }
  | wake (till : ℕ) (w : Wait) (h : s.worker = .waiting till w) (hw : w ≠ .blocked) :
      Does s .wake s.render
  | post (o : Outcome) (body : Payload) (since : ℕ) (h : s.worker = .posting body since)
      (ho : o ≠ .raised) : Does s (.post o)
        { s.tried body o with worker := .resting (s.now + restTime), due := s.now + restTime }
  | raise (body : Payload) (since : ℕ) (h : s.worker = .posting body since) :
      Does s (.post .raised) { s.tried body .raised with worker := .done }
  | rest (till : ℕ) (h : s.worker = .resting till) (hover : s.stop = true ∨ till ≤ s.now) :
      Does s .rest { s with worker := .test }
  | pass (n : ℕ) : Does s (.pass n) { s with now := s.now + n }

/-- Each move is possible only where the thread that makes it stands at it. -/
theorem setStop_does (h : s.step .setStop = some t) : s.Does .setStop t := by
  cases hmain : s.main with
  | marked body =>
    simp only [step, hmain, Option.some.injEq] at h
    exact h ▸ .setStop body hmain
  | _ => simp [step, hmain] at h

theorem wakeUp_does (h : s.step .wakeUp = some t) : s.Does .wakeUp t := by
  cases hmain : s.main with
  | stopping body =>
    simp only [step, hmain, Option.some.injEq] at h
    exact h ▸ .wakeUp body hmain
  | _ => simp [step, hmain] at h

theorem joined_does (h : s.step .joined = some t) : s.Does .joined t := by
  cases hmain : s.main with
  | joining body since =>
    simp only [step, hmain, Option.ite_none_right_eq_some, Option.some.injEq] at h
    exact h.2 ▸ .joined body since hmain h.1
  | _ => simp [step, hmain] at h

theorem joinExpires_does (h : s.step .joinExpires = some t) : s.Does .joinExpires t := by
  cases hmain : s.main with
  | joining body since =>
    simp only [step, hmain, Option.ite_none_right_eq_some, Option.some.injEq] at h
    exact h.2 ▸ .joinExpires body since hmain h.1
  | _ => simp [step, hmain] at h

theorem finalPost_does {o : Outcome} (h : s.step (.finalPost o) = some t) :
    s.Does (.finalPost o) t := by
  cases hmain : s.main with
  | final body =>
    simp only [step, hmain, Option.some.injEq] at h
    exact h ▸ .finalPost o body hmain
  | _ => simp [step, hmain] at h

theorem lock_does (h : s.step .lock = some t) : s.Does .lock t := by
  obtain ⟨hworker, h⟩ := Option.ite_none_right_eq_some.mp h
  by_cases hdirty : s.dirty = true
  · rw [if_pos hdirty] at h
    exact Option.some.inj h ▸ .take hworker hdirty
  · rw [if_neg hdirty] at h
    exact Option.some.inj h ▸ .wait hworker (Bool.not_eq_true _ ▸ hdirty)

theorem expire_does (h : s.step .expire = some t) : s.Does .expire t := by
  cases hworker : s.worker with
  | waiting till w =>
    simp only [step, hworker, Option.ite_none_right_eq_some, Option.some.injEq] at h
    obtain ⟨⟨rfl, hlate⟩, rfl⟩ := h
    exact .expire till hworker hlate
  | _ => simp [step, hworker] at h

theorem wake_does (h : s.step .wake = some t) : s.Does .wake t := by
  cases hworker : s.worker with
  | waiting till w =>
    simp only [step, hworker, Option.ite_none_right_eq_some, Option.some.injEq] at h
    exact h.2 ▸ .wake till w hworker h.1
  | _ => simp [step, hworker] at h

theorem post_does {o : Outcome} (h : s.step (.post o) = some t) : s.Does (.post o) t := by
  cases hworker : s.worker with
  | posting body since =>
    simp only [step, hworker, Option.some.injEq] at h
    by_cases ho : o = .raised
    · subst ho
      rw [if_pos rfl] at h
      exact h ▸ .raise body since hworker
    · rw [if_neg ho] at h
      exact h ▸ .post o body since hworker ho
  | _ => simp [step, hworker] at h

theorem rest_does (h : s.step .rest = some t) : s.Does .rest t := by
  cases hworker : s.worker with
  | resting till =>
    simp only [step, hworker, Option.ite_none_right_eq_some, Option.some.injEq] at h
    exact h.2 ▸ .rest till hworker h.1
  | _ => simp [step, hworker] at h

theorem step_does (h : s.step e = some t) : s.Does e t := by
  cases e with
  | update n =>
    obtain ⟨hmain, h⟩ := Option.ite_none_right_eq_some.mp h
    exact Option.some.inj h ▸ .update n hmain
  | mark =>
    obtain ⟨hmain, h⟩ := Option.ite_none_right_eq_some.mp h
    exact Option.some.inj h ▸ .mark hmain
  | setStop => exact setStop_does h
  | wakeUp => exact wakeUp_does h
  | joined => exact joined_does h
  | joinExpires => exact joinExpires_does h
  | finalPost o => exact finalPost_does h
  | check =>
    obtain ⟨hworker, h⟩ := Option.ite_none_right_eq_some.mp h
    exact Option.some.inj h ▸ .check hworker
  | lock => exact lock_does h
  | expire => exact expire_does h
  | wake => exact wake_does h
  | post o => exact post_does h
  | rest => exact rest_does h
  | pass n => exact Option.some.inj h ▸ .pass n

theorem notify_worker {x : Worker} (hx : ∀ till w, x ≠ .waiting till w) :
    s.notify.worker = x ↔ s.worker = x := by
  rw [notify]
  cases hworker : s.worker with
  | waiting till w => exact iff_of_false (Ne.symm (hx till _)) (Ne.symm (hx till w))
  | _ => rfl

/-- After a notification the worker is not blocked. -/
theorem notify_ne_blocked (s : Publisher) (till : ℕ) : s.notify.worker ≠ .waiting till .blocked := by
  rw [notify]
  cases hworker : s.worker with
  | waiting till' w =>
    intro h
    exact w.notify_ne (Worker.waiting.inj h).2
  | _ => exact Worker.noConfusion

theorem tried_eq (s : Publisher) (body : Payload) (o : Outcome) : s.tried body o =
    { s with posted := s.posted ++ [body]
             failures := if o = .failed then s.failures + 1 else s.failures } := by
  cases o with
  | ok => rfl
  | failed => rfl
  | raised => rfl

/-! ### The count -/

/-- What the main thread hands over to the worker. -/
def cell (s : Publisher) : Cell ℕ :=
  { value := s.payload.curplayers, dirty := s.dirty, taken := s.snapshot.map (·.curplayers) }

/-- An update puts the count, a snapshot takes it, and nothing else touches it. -/
theorem Does.cell (h : s.Does e t) : s.cell.Does t.cell := by
  cases h with
  | update n => exact .put n
  | take => exact .take
  | wake => exact .take
  | finalPost o body => exact tried_eq s body o ▸ .nothing
  | post o body => exact tried_eq s body o ▸ .nothing
  | _ => exact .nothing

/-- What is known of the publisher, whatever the two threads do. -/
structure Sound (s : Publisher) : Prop where
  fresh : s.cell.Fresh
  latest : s.payload.curplayers = s.latest
  clean : ∀ till, s.worker = .waiting till .blocked → s.dirty = false
  leaving : ∀ b ∈ s.main.body, s.payload = b ∧ b.status = .offline
  stopped : s.main.stopped = true → s.stop = true

theorem sound_start : Publisher.start.Sound where
  fresh h := by cases h
  latest := rfl
  clean till h := by cases h
  leaving b h := by cases h
  stopped h := by cases h

theorem Does.clean (h : s.Does e t) (hs : s.Sound) (till : ℕ)
    (ht : t.worker = .waiting till .blocked) : t.dirty = false := by
  cases h with
  | update n => exact absurd ht (notify_ne_blocked _ till)
  | wakeUp body => exact absurd ht (notify_ne_blocked s till)
  | check =>
    dsimp only at ht
    split at ht
    · cases ht
    · cases ht
  | wait _ hdirty => exact hdirty
  | finalPost o body =>
    rw [tried_eq] at ht ⊢
    exact hs.clean till ht
  | mark | setStop | joined | joinExpires | pass => exact hs.clean till ht
  | take | expire | wake | post | raise | rest => cases ht

theorem Does.leaving (h : s.Does e t) (hs : s.Sound) :
    ∀ b ∈ t.main.body, t.payload = b ∧ b.status = .offline := by
  have hmain : ∀ {m : Main} {b : Payload}, s.main = m → m.body = some b →
      s.payload = b ∧ b.status = .offline := fun hm hb => hs.leaving _ (hm ▸ hb)
  cases h with
  | update n h =>
    intro b hb
    cases (congrArg Main.body h).symm.trans hb
  | mark =>
    rintro b ⟨⟩
    exact ⟨rfl, rfl⟩
  | setStop body h | wakeUp body h =>
    rintro b ⟨⟩
    exact hmain h rfl
  | joined body since h | joinExpires body since h =>
    rintro b ⟨⟩
    exact hmain h rfl
  | finalPost o body h =>
    intro b hb
    rw [tried_eq]
    dsimp only at hb
    split at hb
    · cases hb
    · obtain rfl := Option.some.inj hb
      exact hmain h rfl
  | post o body =>
    rw [tried_eq]
    exact hs.leaving
  | raise body =>
    rw [tried_eq]
    exact hs.leaving
  | check | take | wait | expire | wake | rest | pass => exact hs.leaving

theorem Does.stopped (h : s.Does e t) (hs : s.Sound) (ht : t.main.stopped = true) :
    t.stop = true := by
  have hmain : ∀ {m : Main}, s.main = m → m.stopped = true → s.stop = true :=
    fun hm hstop => hs.stopped (hm ▸ hstop)
  cases h with
  | update n h => cases (congrArg Main.stopped h).symm.trans ht
  | mark => cases ht
  | setStop => rfl
  | wakeUp body h => exact hmain h rfl
  | joined body since h | joinExpires body since h => exact hmain h rfl
  | finalPost o body h =>
    rw [tried_eq]
    exact hmain h rfl
  | post o body =>
    rw [tried_eq] at ht ⊢
    exact hs.stopped ht
  | raise body =>
    rw [tried_eq] at ht ⊢
    exact hs.stopped ht
  | check | take | wait | expire | wake | rest | pass => exact hs.stopped ht

theorem Does.latest (h : s.Does e t) (hs : s.Sound) : t.payload.curplayers = t.latest := by
  cases h with
  | update n => rfl
  | finalPost o body =>
    rw [tried_eq]
    exact hs.latest
  | post o body =>
    rw [tried_eq]
    exact hs.latest
  | raise body =>
    rw [tried_eq]
    exact hs.latest
  | _ => exact hs.latest

theorem Does.sound (h : s.Does e t) (hs : s.Sound) : t.Sound where
  fresh := h.cell.fresh hs.fresh
  latest := h.latest hs
  clean := h.clean hs
  leaving := h.leaving hs
  stopped := h.stopped hs

/-! ### The rest -/

/-- It rests until its rest is over, or `stop` is set. -/
structure Rested (s : Publisher) : Prop where
  passed : s.worker.rested = true → s.due ≤ s.now ∨ s.stop = true
  until_due : ∀ till, s.worker = .resting till → s.due = till

theorem Does.rested (h : s.Does e t) (hs : s.Rested) : t.Rested := by
  have hover : ∀ {w : Worker}, s.worker = w → w.rested = true → s.due ≤ s.now ∨ s.stop = true :=
    fun hw hrested => hs.passed (hw ▸ hrested)
  have hnotify : s.notify.Rested := by
    refine ⟨fun h => hs.passed ?_, fun till h => hs.until_due till ?_⟩
    · cases hworker : s.worker with
      | waiting till w => rfl
      | _ => simpa [notify, hworker] using h
    · exact (notify_worker fun till w => Worker.noConfusion).mp h
  cases h with
  | update n => exact ⟨hnotify.passed, hnotify.until_due⟩
  | wakeUp body => exact ⟨hnotify.passed, hnotify.until_due⟩
  | mark | joined | joinExpires => exact ⟨hs.passed, hs.until_due⟩
  | setStop => exact ⟨fun _ => .inr rfl, hs.until_due⟩
  | finalPost o body =>
    rw [tried_eq]
    exact ⟨hs.passed, hs.until_due⟩
  | check h =>
    refine ⟨fun _ => hover h rfl, fun till h => ?_⟩
    dsimp only at h
    split at h
    · cases h
    · cases h
  | take h | wait h => exact ⟨fun _ => hover h rfl, by rintro till ⟨⟩⟩
  | expire till h => exact ⟨fun _ => hover h rfl, by rintro till ⟨⟩⟩
  | wake till w h => exact ⟨fun _ => hover h rfl, by rintro till ⟨⟩⟩
  | post o body =>
    rw [tried_eq]
    exact ⟨by rintro ⟨⟩, by rintro till ⟨⟩; rfl⟩
  | raise body =>
    rw [tried_eq]
    exact ⟨by rintro ⟨⟩, by rintro till ⟨⟩⟩
  | rest till h hlate =>
    rw [← hs.until_due till h] at hlate
    exact ⟨fun _ => hlate.symm, by rintro till ⟨⟩⟩
  | pass n =>
    refine ⟨fun h => (hs.passed h).imp_left fun hdue => ?_, hs.until_due⟩
    exact Nat.le_trans hdue (Nat.le_add_right _ _)

/-- A POST is not started before the rest after the last one is over, unless `stop` has been set. -/
theorem posts_rested (hs : publisher.Reachable s) {body : Payload} {since : ℕ}
    (h : s.worker = .posting body since) : s.due ≤ s.now ∨ s.stop = true := by
  have hrested : s.Rested := publisher.reachable_invariant (I := Rested)
    (fun s h => by
      obtain rfl : s = .start := h
      exact ⟨fun _ => .inl (Nat.le_refl _), by rintro till ⟨⟩⟩)
    (fun _ _ _ hs hstep => (step_does hstep).rested hs) hs
  exact hrested.passed (by rw [h]; rfl)

/-! ### The farewell -/

/-- What is known besides, if every POST is over within the time a join takes. -/
structure Departing (s : Publisher) : Prop where
  sound : s.Sound
  begun : ∀ b since, s.worker = .posting b since → since ≤ s.now
  joining : ∀ f j, s.main = .joining f j → ∀ b since, s.worker = .posting b since →
    b = f ∨ since ≤ j
  parting : ∀ f, s.main = .final f ∨ s.main = .returned f → ∀ b since,
    s.worker = .posting b since → b = f
  last : ∀ f, s.main = .returned f → s.posted.getLast? = some f

/-- No POST takes as long as a join may. -/
def Prompt (s : Publisher) : Prop :=
  ∀ b since, s.worker = .posting b since → s.now < since + joinTimeout

/-- Where the worker is not POSTing, there is less to see to. -/
theorem departing_of_idle (ht : t.Sound)
    (hidle : ∀ b since, t.worker ≠ .posting b since)
    (hlast : ∀ f, t.main = .returned f → t.posted.getLast? = some f) : t.Departing where
  sound := ht
  begun b since h := absurd h (hidle b since)
  joining _ _ _ b since h := absurd h (hidle b since)
  parting _ _ b since h := absurd h (hidle b since)
  last := hlast

/-- Before `shutdown` joins the worker there is nothing it has promised. -/
theorem departing_of_early (ht : t.Sound) (hbegun : ∀ b since, t.worker = .posting b since → since ≤ t.now)
    (hmain : t.main = .serving ∨ ∃ body, t.main = .marked body ∨ t.main = .stopping body) :
    t.Departing := by
  rcases hmain with hmain | ⟨body, hmain | hmain⟩
  all_goals
    refine ⟨ht, hbegun, fun f j h => ?_, fun f h => ?_, fun f h => ?_⟩
    · cases hmain.symm.trans h
    · rcases h with h | h
      · cases hmain.symm.trans h
      · cases hmain.symm.trans h
    · cases hmain.symm.trans h

/-- The worker starts a POST of the payload as it is. -/
theorem Departing.of_render (hs : s.Departing) (ht : s.render.Sound) : s.render.Departing := by
  have hbody : ∀ f ∈ s.main.body, s.payload = f := fun f hf => (hs.sound.leaving f hf).1
  refine ⟨ht, ?_, ?_, ?_, hs.last⟩
  · rintro b since ⟨⟩
    exact Nat.le_refl _
  · rintro f j hmain b since ⟨⟩
    exact .inl (hbody f (congrArg Main.body hmain))
  · rintro f (hmain | hmain) b since ⟨⟩
    · exact hbody f (congrArg Main.body hmain)
    · exact hbody f (congrArg Main.body hmain)

theorem Does.departing (h : s.Does e t) (hs : s.Departing) (hprompt : t.Prompt) : t.Departing := by
  have ht := h.sound hs.sound
  cases h with
  | update n hmain =>
    refine departing_of_early ht (fun b since h => ?_) (.inl hmain)
    exact hs.begun b since ((notify_worker fun till w => Worker.noConfusion).mp h)
  | mark => exact departing_of_early ht hs.begun (.inr ⟨_, .inl rfl⟩)
  | setStop body => exact departing_of_early ht hs.begun (.inr ⟨body, .inr rfl⟩)
  | wakeUp body =>
    have hbegun : ∀ b since, s.notify.worker = .posting b since → since ≤ s.now := fun b since h =>
      hs.begun b since ((notify_worker fun till w => Worker.noConfusion).mp h)
    refine ⟨ht, hbegun, ?_, ?_, ?_⟩
    · rintro f j ⟨⟩ b since h
      exact .inr (hbegun b since h)
    · rintro f (h | h)
      · cases h
      · cases h
    · rintro f ⟨⟩
  | joined body since _ hdone =>
    refine departing_of_idle ht (fun b since h => ?_) (by rintro f ⟨⟩)
    cases hdone.symm.trans h
  | joinExpires body since hmain hlate =>
    refine ⟨ht, hs.begun, by rintro f j ⟨⟩, ?_, by rintro f ⟨⟩⟩
    rintro f (hfinal | hfinal) b begun h
    swap
    · cases hfinal
    obtain rfl := Main.final.inj hfinal
    -- A POST that was under way when the join began is over by now.
    refine (hs.joining body since hmain b begun h).resolve_right fun hbefore => ?_
    have hpost : s.now < begun + joinTimeout := hprompt b begun h
    omega
  | finalPost o body hmain =>
    rw [tried_eq] at ht ⊢
    refine ⟨ht, hs.begun, ?_, ?_, ?_⟩
    · intro f j h
      dsimp only at h
      split at h
      · cases h
      · cases h
    · intro f h b since hpost
      dsimp only at h
      split at h
      · rcases h with h | h
        · cases h
        · cases h
      · rcases h with h | h
        · cases h
        · obtain rfl := Main.returned.inj h
          exact hs.parting body (.inl hmain) b since hpost
    · intro f h
      dsimp only at h
      split at h
      · cases h
      · obtain rfl := Main.returned.inj h
        exact List.getLast?_concat
  | check =>
    refine departing_of_idle ht (fun b since h => ?_) hs.last
    dsimp only at h
    split at h
    · cases h
    · cases h
  | take => exact hs.of_render ht
  | wake => exact hs.of_render ht
  | wait | expire | rest => exact departing_of_idle ht (fun b since => Worker.noConfusion) hs.last
  | post o body since h =>
    rw [tried_eq] at ht ⊢
    refine departing_of_idle ht (fun b since => Worker.noConfusion) (fun f hmain => ?_)
    rw [hs.parting f (.inr hmain) body since h]
    exact List.getLast?_concat
  | raise body since h =>
    rw [tried_eq] at ht ⊢
    refine departing_of_idle ht (fun b since => Worker.noConfusion) (fun f hmain => ?_)
    rw [hs.parting f (.inr hmain) body since h]
    exact List.getLast?_concat
  | pass n =>
    refine ⟨ht, fun b since h => ?_, hs.joining, hs.parting, hs.last⟩
    exact Nat.le_trans (hs.begun b since h) (Nat.le_add_right _ _)

theorem departing_start : Publisher.start.Departing where
  sound := sound_start
  begun b since h := by cases h
  joining f j h := by cases h
  parting f h := by rcases h with h | h <;> cases h
  last f h := by cases h

/-- If the worker waits, and nobody has notified it, the Lobby has been told the latest count. -/
def Informed (s : Publisher) : Prop :=
  ∀ till, s.worker = .waiting till .blocked → s.snapshot.map (·.curplayers) = some s.latest

/-- Once `shutdown` has returned, the last body POSTed says offline and the latest count, and so does
    any that is still under way. -/
def Farewell (s : Publisher) : Prop :=
  ∀ f, s.main = .returned f → s.posted.getLast? = some ⟨.offline, s.latest⟩ ∧
    ∀ b since, s.worker = .posting b since → b = ⟨.offline, s.latest⟩

theorem Sound.informed (hs : s.Sound) : s.Informed := by
  intro till h
  rw [← hs.latest]
  exact hs.fresh (hs.clean till h)

theorem Departing.farewell (hs : s.Departing) : s.Farewell := by
  intro f hmain
  obtain ⟨hpayload, hstatus⟩ := hs.sound.leaving f (congrArg Main.body hmain)
  have hf : f = ⟨.offline, s.latest⟩ := by
    rw [← hs.sound.latest, hpayload, ← hstatus]
  refine ⟨hf ▸ hs.last f hmain, ?_⟩
  intro b since hpost
  exact (hs.parting f (.inr hmain) b since hpost).trans hf

end Publisher

/-- Whatever the order of updates, a shutdown and the worker's steps: whenever the worker waits and
    has not been notified, the last body it snapshotted carries the latest count; and if no POST takes
    as long as the join may, then the last body POSTed when `shutdown` has returned says offline and
    the latest count. -/
theorem updates_reach_lobby (h : publisher.init s) (es : List Event) :
    publisher.Throughout Publisher.Informed s es ∧
      (publisher.Throughout Publisher.Prompt s es →
        publisher.Throughout Publisher.Farewell s es) := by
  obtain rfl : s = .start := h
  refine ⟨?_, fun hprompt => ?_⟩
  · refine publisher.throughout_of_good (J := Publisher.Sound) (G := fun _ => True)
      (fun s hs => hs.informed) (fun s e t hs _ hstep => ?_)
      (publisher.throughout_of_forall (fun _ => trivial) es _) Publisher.sound_start
    exact (Publisher.step_does hstep).sound hs
  · refine publisher.throughout_of_good (J := Publisher.Departing) (G := Publisher.Prompt)
      (fun s hs => hs.farewell) (fun s e t hs ht hstep => ?_) hprompt Publisher.departing_start
    exact (Publisher.step_does hstep).departing hs ht

/-- When the POST under way was started. -/
def Worker.since? : Worker → Option ℕ
  | .posting _ since => some since
  | _ => none

instance : DecidablePred Publisher.Prompt := fun s =>
  decidable_of_iff (∀ since ∈ s.worker.since?, s.now < since + joinTimeout) <| by
    constructor
    · intro h b since hpost
      exact h since (congrArg Worker.since? hpost)
    · intro h since hsince
      cases hworker : s.worker with
      | posting b began =>
        obtain rfl : began = since := by simpa [hworker, Worker.since?] using hsince
        exact h b began hworker
      | _ => simp [hworker, Worker.since?] at hsince

/-- A client comes while the room is being published, the next POST fails, and the worker is waiting
    when the server is shut down. -/
def evening : List Event :=
  [.check, .lock, .update 1, .post .ok, .pass 1000, .rest, .check, .lock, .post .failed, .pass 1000,
    .rest, .check, .lock, .mark, .setStop, .wakeUp, .wake, .pass 50, .post .ok, .rest, .check, .joined,
    .finalPost .ok]

theorem updates_reach_lobby_evening : publisher.Throughout Publisher.Farewell .start evening ∧
    ∃ s, publisher.run .start evening = some s ∧ s.main = .returned ⟨.offline, 1⟩ ∧
      s.posted.getLast? = some ⟨.offline, 1⟩ :=
  ⟨(updates_reach_lobby rfl evening).2 (by decide +kernel), publisher.exists_run (by decide +kernel)⟩

end VO.Lobby
