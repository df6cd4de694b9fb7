import Mathlib.Data.Int.Notation
import VideoOlympics.Lobby.Publisher

/-! The publisher of the other relay. Its worker waits on one condition variable in two places, for
    something to publish and for its second of rest to be over, and an update notifies both. A rest
    that an update or a spurious wake-up cuts short lets the next POST come early. -/

namespace VO.Port
open Monitor
open VO.Lobby (restTime)

namespace Lobby

/-- The snapshot that is POSTed, as far as it changes. -/
structure Snapshot where
  offline : Bool
  curplayers : ℤ
  deriving DecidableEq, Repr

/-- Where `lobby_worker` is: at the top of its loop, in the keepalive wait, in a POST, where it counts a
    failure, before its rest, in the wait that is its rest, or at its end. Waits have deadlines. -/
inductive Thread where
  | top
  | keep (dl : ℕ) (w : Wait)
  | posting (body : Snapshot)
  | failed
  | pause
  | debounce (d1 : ℕ) (w : Wait)
  | done
  deriving DecidableEq, Repr

end Lobby

/-- `struct lobby`, its worker and the clock. `due` is the onlooker's: when the last rest was to be
    over. -/
structure Lobby where
  curplayers : ℤ
  keepalive : ℕ
  dirty : Bool
  stopping : Bool
  stopEvt : Bool
  offline : Bool
  failures : ℕ
  worker : Lobby.Thread
  now : ℕ
  due : Option ℕ
  deriving DecidableEq, Repr

namespace Lobby

inductive Event where
  /-- `lobby_update`. -/
  | update (n : ℤ)
  /-- The section of `lobby_shutdown` under the lock. -/
  | shutdown
  /-- The worker takes the lock at the top of its loop; a snapshot may not fit its buffer. -/
  | lock (rendered : Bool)
  /-- A wait runs out, or ends for no reason. -/
  | expire
  | spurious
  /-- The worker has the lock again, in the keepalive wait or in its rest. -/
  | wake (rendered : Bool)
  | resume
  /-- The POST is over. -/
  | post (ok : Bool)
  | count
  /-- The worker takes the lock for its rest. -/
  | pause
  /-- Time passes. -/
  | pass (n : ℕ)
  deriving DecidableEq, Repr

/-- `lobby_start`. -/
def start (keepalive : ℕ) : Lobby :=
  { curplayers := 0, keepalive := keepalive, dirty := true, stopping := false, stopEvt := false,
    offline := false, failures := 0, worker := .top, now := 0, due := none }

/-- `pthread_cond_broadcast`. -/
def broadcast (s : Lobby) : Lobby :=
  { s with worker := match s.worker with
      | .keep dl w => .keep dl w.notify
      | .debounce d1 w => .debounce d1 w.notify
      | w => w }

/-- Behind the keepalive wait: stop, or take a snapshot. -/
def proceed (s : Lobby) (rendered : Bool) : Lobby :=
  if s.stopping then { s with dirty := false, worker := .done }
  else if rendered then
    { s with dirty := false, worker := .posting { offline := s.offline, curplayers := s.curplayers } }
  else { s with dirty := false, worker := .pause }

/-- `while (!l->dirty && !l->stopping)`. -/
def scan (s : Lobby) (dl : ℕ) (rendered : Bool) : Lobby :=
  if !s.dirty && !s.stopping then { s with worker := .keep dl .blocked } else s.proceed rendered

def step (s : Lobby) : Event → Option Lobby
  | .update n =>
    some (if s.stopping then s else ({ s with curplayers := n, dirty := true }).broadcast)
  | .shutdown =>
    if s.stopping then none
    else some ({ s with stopping := true, stopEvt := true, offline := true }).broadcast
  | .lock rendered =>
    match s.worker with
    | .top => some (s.scan (s.now + s.keepalive) rendered)
    | _ => none
  | .expire =>
    match s.worker with
    | .keep dl .blocked =>
      if dl ≤ s.now then some { s with worker := .keep dl .expired } else none
    | .debounce d1 .blocked =>
      if d1 ≤ s.now then some { s with worker := .debounce d1 .expired } else none
    | _ => none
  | .spurious =>
    match s.worker with
    | .keep dl .blocked => some { s with worker := .keep dl .notified }
    | .debounce d1 .blocked => some { s with worker := .debounce d1 .notified }
    | _ => none
  | .wake rendered =>
    match s.worker with
    | .keep dl .notified => some (s.scan dl rendered)
    | .keep dl .expired => some (({ s with dirty := true }).scan dl rendered)
    | _ => none
  | .resume =>
    match s.worker with
    | .debounce _ w => if w ≠ .blocked then some { s with worker := .top } else none
    | _ => none
  | .post ok =>
    match s.worker with
    | .posting _ => some { s with worker := if ok then .pause else .failed }
    | _ => none
  | .count =>
    match s.worker with
    | .failed => some { s with worker := .pause, failures := s.failures + 1 }
    | _ => none
  | .pause =>
    match s.worker with
    | .pause =>
      some (if s.stopEvt then { s with worker := .top }
        else { s with worker := .debounce (s.now + restTime) .blocked, due := some (s.now + restTime) })
    | _ => none
  | .pass n => some { s with now := s.now + n }

end Lobby

/-- `lobby_worker`, and the main thread's calls. -/
def lobby : Machine Lobby Lobby.Event where
  init s := ∃ keepalive, s = .start keepalive
  step := Lobby.step

namespace Lobby

variable {s t u : Lobby} {e : Event}

/-! ### What a step does -/

/-- Everything that can happen to the worker, and what it does to its rest. -/
inductive Does (s : Lobby) : Event → Lobby → Prop
  | late (n : ℤ) (h : s.stopping = true) : Does s (.update n) s
  | update (n : ℤ) (h : s.stopping = false) :
      Does s (.update n) ({ s with curplayers := n, dirty := true }).broadcast
  | shutdown (h : s.stopping = false) :
      Does s .shutdown ({ s with stopping := true, stopEvt := true, offline := true }).broadcast
  | lock (rendered : Bool) (h : s.worker = .top) :
      Does s (.lock rendered) (s.scan (s.now + s.keepalive) rendered)
  | keepExpires (dl : ℕ) (h : s.worker = .keep dl .blocked) (hlate : dl ≤ s.now) :
      Does s .expire { s with worker := .keep dl .expired }
  | restExpires (d1 : ℕ) (h : s.worker = .debounce d1 .blocked) (hlate : d1 ≤ s.now) :
      Does s .expire { s with worker := .debounce d1 .expired }
  | keepEnds (dl : ℕ) (h : s.worker = .keep dl .blocked) :
      Does s .spurious { s with worker := .keep dl .notified }
  | restEnds (d1 : ℕ) (h : s.worker = .debounce d1 .blocked) :
      Does s .spurious { s with worker := .debounce d1 .notified }
  | wake (rendered : Bool) (dl : ℕ) (w : Wait) (h : s.worker = .keep dl w) (dirty : Bool) :
      Does s (.wake rendered) (({ s with dirty := dirty }).scan dl rendered)
  | resume (d1 : ℕ) (w : Wait) (h : s.worker = .debounce d1 w) (hw : w ≠ .blocked) :
      Does s .resume { s with worker := .top }
  | post (ok : Bool) (body : Snapshot) (h : s.worker = .posting body) :
      Does s (.post ok) { s with worker := if ok then .pause else .failed }
  | count (h : s.worker = .failed) :
      Does s .count { s with worker := .pause, failures := s.failures + 1 }
  | skip (h : s.worker = .pause) (hstop : s.stopEvt = true) : Does s .pause { s with worker := .top }
  | pause (h : s.worker = .pause) (hstop : s.stopEvt = false) : Does s .pause
      { s with worker := .debounce (s.now + restTime) .blocked, due := some (s.now + restTime) }
  | pass (n : ℕ) : Does s (.pass n) { s with now := s.now + n }

/-- The worker's moves, each possible only where the worker stands at it. -/
theorem lock_does {rendered : Bool} (h : s.step (.lock rendered) = some t) :
    s.Does (.lock rendered) t := by
  cases hworker : s.worker with
  | top =>
    simp only [step, hworker, Option.some.injEq] at h
    exact h ▸ .lock rendered hworker
  | _ => simp [step, hworker] at h

theorem expire_does (h : s.step .expire = some t) : s.Does .expire t := by
  cases hworker : s.worker with
  | keep dl w =>
    cases w with
    | blocked =>
      simp only [step, hworker, Option.ite_none_right_eq_some, Option.some.injEq] at h
      exact h.2 ▸ .keepExpires dl hworker h.1
    | _ => simp [step, hworker] at h
  | debounce d1 w =>
    cases w with
    | blocked =>
      simp only [step, hworker, Option.ite_none_right_eq_some, Option.some.injEq] at h
      exact h.2 ▸ .restExpires d1 hworker h.1
    | _ => simp [step, hworker] at h
  | _ => simp [step, hworker] at h

theorem spurious_does (h : s.step .spurious = some t) : s.Does .spurious t := by
  cases hworker : s.worker with
  | keep dl w =>
    cases w with
    | blocked =>
      simp only [step, hworker, Option.some.injEq] at h
      exact h ▸ .keepEnds dl hworker
    | _ => simp [step, hworker] at h
  | debounce d1 w =>
    cases w with
    | blocked =>
      simp only [step, hworker, Option.some.injEq] at h
      exact h ▸ .restEnds d1 hworker
    | _ => simp [step, hworker] at h
  | _ => simp [step, hworker] at h

theorem wake_does {rendered : Bool} (h : s.step (.wake rendered) = some t) :
    s.Does (.wake rendered) t := by
  cases hworker : s.worker with
  | keep dl w =>
    cases w with
    | blocked => simp [step, hworker] at h
    | notified =>
      simp only [step, hworker, Option.some.injEq] at h
      exact h ▸ .wake rendered dl .notified hworker s.dirty
    | expired =>
      simp only [step, hworker, Option.some.injEq] at h
      exact h ▸ .wake rendered dl .expired hworker true
  | _ => simp [step, hworker] at h

theorem resume_does (h : s.step .resume = some t) : s.Does .resume t := by
  cases hworker : s.worker with
  | debounce d1 w =>
    simp only [step, hworker, Option.ite_none_right_eq_some, Option.some.injEq] at h
    exact h.2 ▸ .resume d1 w hworker h.1
  | _ => simp [step, hworker] at h

theorem post_does {ok : Bool} (h : s.step (.post ok) = some t) : s.Does (.post ok) t := by
  cases hworker : s.worker with
  | posting body =>
    simp only [step, hworker, Option.some.injEq] at h
    exact h ▸ .post ok body hworker
  | _ => simp [step, hworker] at h

theorem count_does (h : s.step .count = some t) : s.Does .count t := by
  cases hworker : s.worker with
  | failed =>
    simp only [step, hworker, Option.some.injEq] at h
    exact h ▸ .count hworker
  | _ => simp [step, hworker] at h

theorem pause_does (h : s.step .pause = some t) : s.Does .pause t := by
  cases hworker : s.worker with
  | pause =>
    simp only [step, hworker, Option.some.injEq] at h
    split at h
    · next hstop => exact h ▸ .skip hworker hstop
    · next hstop => exact h ▸ .pause hworker (Bool.not_eq_true _ ▸ hstop)
  | _ => simp [step, hworker] at h

theorem step_does (h : s.step e = some t) : s.Does e t := by
  cases e with
  | update n =>
    have ht := Option.some.inj h
    split at ht
    · next hstop => exact ht ▸ .late n hstop
    · next hstop => exact ht ▸ .update n (Bool.not_eq_true _ ▸ hstop)
  | shutdown =>
    obtain ⟨hstop, ht⟩ := Option.ite_none_left_eq_some.mp h
    exact Option.some.inj ht ▸ .shutdown (Bool.not_eq_true _ ▸ hstop)
  | lock rendered => exact lock_does h
  | expire => exact expire_does h
  | spurious => exact spurious_does h
  | wake rendered => exact wake_does h
  | resume => exact resume_does h
  | post ok => exact post_does h
  | count => exact count_does h
  | pause => exact pause_does h
  | pass n => exact Option.some.inj h ▸ .pass n

/-! ### The rest -/

/-- The worker does not POST before its rest is over. -/
def Paced (s : Lobby) : Prop := ∀ body, s.worker = .posting body → ∀ d ∈ s.due, d ≤ s.now

/-- An update or a spurious wake-up ends the worker's rest before its time. -/
def Hurries (s : Lobby) (e : Event) : Prop :=
  ∃ d, s.worker = .debounce d .blocked ∧ s.now < d ∧ s.stopping = false ∧
    (e = .spurious ∨ ∃ n, e = .update n)

/-- When the rest that has time to run is to be over. -/
def Thread.resting? : Thread → Option ℕ
  | .debounce d .blocked => some d
  | _ => none

def Event.stirs : Event → Bool
  | .spurious => true
  | .update _ => true
  | _ => false

theorem Thread.resting?_eq {w : Thread} {d : ℕ} :
    d ∈ w.resting? ↔ w = .debounce d .blocked := by
  cases w with
  | debounce d1 w =>
    cases w with
    | blocked => simp [resting?]
    | _ => simp [resting?]
  | _ => simp [resting?]

theorem Event.stirs_eq {e : Event} : e.stirs = true ↔ e = .spurious ∨ ∃ n, e = .update n := by
  cases e with
  | _ => simp [stirs]

instance (s : Lobby) (e : Event) : Decidable (s.Hurries e) :=
  decidable_of_iff
    (∃ d ∈ s.worker.resting?, s.now < d ∧ s.stopping = false ∧ e.stirs = true) <| by
    simp only [Thread.resting?_eq, Event.stirs_eq, Hurries]

/-- The rest is over, or `lobby_shutdown` has been called. -/
def Over (s : Lobby) : Prop := ∀ d ∈ s.due, d ≤ s.now ∨ s.stopping = true

/-- What is known of the worker if nothing ends its rest early. -/
structure Patient (s : Lobby) : Prop where
  both : s.stopEvt = s.stopping
  top : s.worker = .top → s.Over
  keep : ∀ dl w, s.worker = .keep dl w → s.Over
  posting : s.Paced
  debounce : ∀ d w, s.worker = .debounce d w → s.due = some d ∧ (w ≠ .blocked → s.Over)

section
variable (hboth : s.stopEvt = s.stopping)
include hboth

/-- A worker that is none of these has no promise to keep. -/
theorem patient_of_free (h : s.worker = .failed ∨ s.worker = .pause ∨ s.worker = .done) :
    s.Patient := by
  rcases h with h | h | h
  all_goals
    refine ⟨hboth, fun h' => ?_, fun dl w h' => ?_, fun body h' => ?_, fun d w h' => ?_⟩
    all_goals
      rw [h] at h'
      cases h'

theorem patient_of_top (h : s.worker = .top) (hover : s.Over) : s.Patient := by
  refine ⟨hboth, fun _ => hover, fun dl w h' => ?_, fun body h' => ?_, fun d w h' => ?_⟩
  all_goals
    rw [h] at h'
    cases h'

theorem patient_of_keep {dl : ℕ} {w : Wait} (h : s.worker = .keep dl w) (hover : s.Over) :
    s.Patient := by
  refine ⟨hboth, fun h' => ?_, fun _ _ _ => hover, fun body h' => ?_, fun d w h' => ?_⟩
  all_goals
    rw [h] at h'
    cases h'

theorem patient_of_posting (hpaced : s.Paced) {body : Snapshot} (h : s.worker = .posting body) :
    s.Patient := by
  refine ⟨hboth, fun h' => ?_, fun dl w h' => ?_, hpaced, fun d w h' => ?_⟩
  all_goals
    rw [h] at h'
    cases h'

theorem patient_of_debounce {d1 : ℕ} {w : Wait} (h : s.worker = .debounce d1 w)
    (hdue : s.due = some d1) (hover : w ≠ .blocked → s.Over) : s.Patient := by
  refine ⟨hboth, fun h' => ?_, fun dl w h' => ?_, fun body h' => ?_, fun d w h' => ?_⟩
  · rw [h] at h'
    cases h'
  · rw [h] at h'
    cases h'
  · rw [h] at h'
    cases h'
  · rw [h] at h'
    cases h'
    exact ⟨hdue, hover⟩

end

/-- Behind the keepalive wait a POST is started, unless the publisher is being shut down. -/
theorem Patient.proceed (hs : s.Patient) (hover : s.Over) (rendered : Bool) :
    (s.proceed rendered).Patient := by
  rw [Lobby.proceed]
  split
  · exact patient_of_free hs.both (.inr (.inr rfl))
  · next hstop =>
    split
    · exact patient_of_posting hs.both (fun _ _ d hd => (hover d hd).resolve_right hstop) rfl
    · exact patient_of_free hs.both (.inr (.inl rfl))

theorem Patient.scan (hs : s.Patient) (hover : s.Over) (dl : ℕ) (rendered : Bool) :
    (s.scan dl rendered).Patient := by
  rw [Lobby.scan]
  split
  · exact patient_of_keep hs.both rfl hover
  · exact hs.proceed hover rendered

/-- A notification may find the worker in its rest only when that does not matter. -/
theorem Patient.broadcast (hs : s.Patient)
    (hrest : ∀ d, s.worker = .debounce d .blocked → s.Over) : s.broadcast.Patient := by
  rw [Lobby.broadcast]
  cases hworker : s.worker with
  | keep dl w => exact patient_of_keep hs.both rfl (hs.keep dl w hworker)
  | debounce d1 w =>
    obtain ⟨hdue, hended⟩ := hs.debounce d1 w hworker
    refine patient_of_debounce hs.both rfl hdue fun _ => ?_
    by_cases hw : w = .blocked
    · exact hrest d1 (hw ▸ hworker)
    · exact hended hw
  | _ =>
    dsimp only
    rw [← hworker]
    exact hs

theorem Does.patient (h : s.Does e t) (hs : s.Patient) (hclean : ¬ s.Hurries e) : t.Patient := by
  -- What is notified, or ends for no reason, is no rest that has time to run.
  have hrest : (e = .spurious ∨ ∃ n, e = .update n) → s.stopping = false →
      ∀ d, s.worker = .debounce d .blocked → s.Over := by
    intro he hstop d hworker d' hd'
    obtain rfl : d = d' := Option.some.inj ((hs.debounce d _ hworker).1.symm.trans hd')
    refine .inl (Nat.not_lt.mp fun hlt => ?_)
    exact hclean ⟨d, hworker, hlt, hstop, he⟩
  cases h with
  | late => exact hs
  | update n hstop =>
    exact Patient.broadcast ⟨hs.both, hs.top, hs.keep, hs.posting, hs.debounce⟩
      (hrest (.inr ⟨n, rfl⟩) hstop)
  | shutdown hstop =>
    refine Patient.broadcast ⟨rfl, fun _ _ _ => .inr rfl, fun _ _ _ _ _ => .inr rfl, hs.posting, ?_⟩
      fun _ _ _ _ => .inr rfl
    exact fun d w h => ⟨(hs.debounce d w h).1, fun _ _ _ => .inr rfl⟩
  | lock rendered h => exact hs.scan (hs.top h) _ rendered
  | keepExpires dl h | keepEnds dl h => exact patient_of_keep hs.both rfl (hs.keep dl .blocked h)
  | restExpires d1 h hlate =>
    obtain ⟨hdue, -⟩ := hs.debounce d1 .blocked h
    refine patient_of_debounce hs.both rfl hdue fun _ d hd => .inl ?_
    obtain rfl : d1 = d := Option.some.inj (hdue.symm.trans hd)
    exact hlate
  | restEnds d1 h =>
    obtain ⟨hdue, -⟩ := hs.debounce d1 .blocked h
    refine patient_of_debounce hs.both rfl hdue fun _ d hd => ?_
    by_cases hstop : s.stopping = true
    · exact .inr hstop
    · exact hrest (.inl rfl) (Bool.not_eq_true _ ▸ hstop) d1 h d hd
  | wake rendered dl w h dirty =>
    exact Patient.scan (s := { s with dirty := dirty })
      ⟨hs.both, hs.top, hs.keep, hs.posting, hs.debounce⟩ (hs.keep dl w h) dl rendered
  | resume d1 w h hw => exact patient_of_top hs.both rfl ((hs.debounce d1 w h).2 hw)
  | post ok body =>
    cases ok with
    | true => exact patient_of_free hs.both (.inr (.inl rfl))
    | false => exact patient_of_free hs.both (.inl rfl)
  | count => exact patient_of_free hs.both (.inr (.inl rfl))
  | skip _ hstop => exact patient_of_top hs.both rfl fun _ _ => .inr (hs.both ▸ hstop)
  | pause => exact patient_of_debounce hs.both rfl rfl fun hw => absurd rfl hw
  | pass n =>
    have hlater : s.Over → Over { s with now := s.now + n } := fun hover d hd =>
      (hover d hd).imp_left fun hle => Nat.le_trans hle (Nat.le_add_right _ _)
    refine ⟨hs.both, fun h => hlater (hs.top h), fun dl w h => hlater (hs.keep dl w h), ?_, ?_⟩
    · exact fun body h d hd => Nat.le_trans (hs.posting body h d hd) (Nat.le_add_right _ _)
    · exact fun d w h => ⟨(hs.debounce d w h).1, fun hw => hlater ((hs.debounce d w h).2 hw)⟩

theorem patient_start (keepalive : ℕ) : (start keepalive).Patient where
  both := rfl
  top _ d hd := by cases hd
  keep dl w h := by cases h
  posting body h := by cases h
  debounce d w h := by cases h

/-! ### Where it is cut short -/

/-- The onlooker's note and the flags are as they should be, whatever ends the rest. -/
theorem Does.due (h : s.Does e t) (hs : ∀ d w, s.worker = .debounce d w → s.due = some d) (d : ℕ)
    (w : Wait) (ht : t.worker = .debounce d w) : t.due = some d := by
  have hbroadcast : ∀ u : Lobby, u.worker = s.worker → u.due = s.due →
      u.broadcast.worker = .debounce d w → u.broadcast.due = some d := by
    intro u hworker hdue hd
    change u.due = some d
    rw [broadcast, hworker] at hd
    rw [hdue]
    cases h : s.worker with
    | debounce d1 w1 =>
      rw [h] at hd
      obtain ⟨rfl, -⟩ := Thread.debounce.inj hd
      exact hs _ _ h
    | _ =>
      rw [h] at hd
      cases hd
  have hscan : ∀ (u : Lobby) (dl : ℕ) (rendered : Bool),
      (u.scan dl rendered).worker ≠ .debounce d w := by
    intro u dl rendered
    rw [scan, proceed]
    split
    · exact Thread.noConfusion
    · split
      · exact Thread.noConfusion
      · split
        · exact Thread.noConfusion
        · exact Thread.noConfusion
  cases h with
  | late => exact hs d w ht
  | update n => exact hbroadcast _ rfl rfl ht
  | shutdown => exact hbroadcast _ rfl rfl ht
  | lock rendered => exact absurd ht (hscan _ _ _)
  | wake rendered dl w' h dirty => exact absurd ht (hscan _ _ _)
  | restExpires d1 h | restEnds d1 h =>
    obtain ⟨rfl, -⟩ := Thread.debounce.inj ht
    exact hs _ _ h
  | post ok body =>
    cases ok with
    | true => cases ht
    | false => cases ht
  | keepExpires | keepEnds | resume | count | skip => cases ht
  | pause =>
    obtain ⟨rfl, -⟩ := Thread.debounce.inj ht
    rfl
  | pass n => exact hs d w ht

/-- When a rest is cut short, the next POST may follow at once. -/
theorem hurries_early (hdue : ∀ d w, s.worker = .debounce d w → s.due = some d)
    (hstep : lobby.step s e = some t) (h : s.Hurries e) :
    ∃ es u, lobby.run t es = some u ∧ ¬ u.Paced := by
  obtain ⟨d, hworker, hlt, hstop, he⟩ := h
  have hdue := hdue d _ hworker
  have hearly : ∀ u : Lobby, u.due = s.due → u.now = s.now → (∃ body, u.worker = .posting body) →
      ¬ u.Paced := by
    rintro u hdue' hnow ⟨body, hpost⟩ hpaced
    have hle := hpaced body hpost d (hdue'.trans hdue)
    omega
  rcases he with rfl | ⟨n, rfl⟩
  · obtain rfl : { s with worker := .debounce d .notified } = t := by
      simpa [lobby, step, hworker] using hstep
    refine ⟨[.resume, .update 0, .lock true], _, ?_, hearly { s with
      curplayers := 0, dirty := false
      worker := .posting { offline := s.offline, curplayers := 0 } } rfl rfl ⟨_, rfl⟩⟩
    simp [lobby, Machine.run, step, broadcast, scan, proceed, hstop]
  · obtain rfl : { s with curplayers := n, dirty := true, worker := .debounce d .notified } = t := by
      simpa [lobby, step, broadcast, hworker, hstop, Wait.notify] using hstep
    refine ⟨[.resume, .lock true], _, ?_, hearly { s with
      curplayers := n, dirty := false
      worker := .posting { offline := s.offline, curplayers := n } } rfl rfl ⟨_, rfl⟩⟩
    simp [lobby, Machine.run, step, scan, proceed, hstop]

end Lobby

/-- In every run in which no update and no spurious wake-up ends the worker's rest before its time,
    the worker does not POST before its rest is over; and after every step that does end it, it may. -/
theorem posts_paced {s : Lobby} (h : lobby.init s) (es : List Lobby.Event) :
    (lobby.EachStep (fun s e => ¬ s.Hurries e) s es → lobby.Throughout Lobby.Paced s es) ∧
      ∀ e t u, lobby.run s es = some t → lobby.step t e = some u → t.Hurries e →
        ∃ fs v, lobby.run u fs = some v ∧ ¬ v.Paced := by
  obtain ⟨keepalive, rfl⟩ := h
  refine ⟨fun hclean => ?_, fun e t u hrun hstep hurries => ?_⟩
  · refine lobby.throughout_of_eachStep (fun s hs => hs.posting) (fun s e t hs hclean hstep => ?_)
      (Lobby.patient_start keepalive) hclean
    exact (Lobby.step_does hstep).patient hs hclean
  · refine Lobby.hurries_early ?_ hstep hurries
    refine lobby.run_invariant (P := fun _ _ => True)
      (I := fun s => ∀ d w, s.worker = .debounce d w → s.due = some d)
      (fun s e t hs _ hstep => (Lobby.step_does hstep).due hs) ?_
      (lobby.eachStep_of_forall (fun _ _ => trivial) es _) hrun
    intro d w h
    cases h

/-- A second passes before the next client comes. -/
theorem posts_paced_second : lobby.Throughout Lobby.Paced (.start 300000)
    [.lock true, .post true, .pause, .pass 1000, .update 1, .resume, .lock true] :=
  (posts_paced ⟨300000, rfl⟩ _).1 (by decide +kernel)

/-- A client comes in the worker's rest, and is published at once. -/
theorem post_early : lobby.init (.start 300000) ∧ ∃ s, lobby.run (.start 300000)
    [.lock true, .post true, .pause, .update 1, .resume, .lock true] = some s ∧
      s.worker = .posting ⟨false, 1⟩ ∧ s.now = 0 ∧ s.due = some 1000 :=
  ⟨⟨300000, rfl⟩, lobby.exists_run (by decide +kernel)⟩

end VO.Port
