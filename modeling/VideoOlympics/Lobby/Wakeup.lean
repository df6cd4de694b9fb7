import VideoOlympics.Lobby.Publisher

/-! The wake-up of `shutdown`. It is notified under the lock, but the worker tests `stop` before it
    takes the lock: between the two it has tested for nothing, and is not yet there to be notified.
    If nothing else has it snapshot the payload, it waits. -/

namespace VO.Lobby
open Monitor

variable {s t u : Publisher} {e : Event} {es : List Event}

/-- Has `shutdown` notified the worker? -/
def Main.woken : Main → Bool
  | .serving => false
  | .marked _ => false
  | .stopping _ => false
  | _ => true

/-- Nothing but time passes. -/
def Event.waits : Event → Bool
  | .pass _ => true
  | .expire => true
  | .joinExpires => true
  | _ => false

namespace Publisher

/-- The worker has been woken, and is on its way out. -/
structure Awake (s : Publisher) : Prop where
  woken : s.main.woken = true
  stop : s.stop = true
  up : ∀ till, s.worker ≠ .waiting till .blocked
  ready : s.worker = .enter → s.dirty = true

theorem Does.awake (h : s.Does e t) (hs : s.Awake) : t.Awake := by
  have hmain : ∀ {m : Main}, s.main = m → m.woken = true := fun hm => hm ▸ hs.woken
  cases h with
  | update n h => cases hmain h
  | mark h => cases hmain h
  | setStop body h => cases hmain h
  | wakeUp body h => cases hmain h
  | joined | joinExpires => exact ⟨rfl, hs.stop, hs.up, hs.ready⟩
  | finalPost o body =>
    rw [tried_eq]
    refine ⟨?_, hs.stop, hs.up, hs.ready⟩
    dsimp only
    split
    · rfl
    · rfl
  | check =>
    refine ⟨hs.woken, hs.stop, fun till => ?_, fun h => ?_⟩
    · rw [hs.stop]
      exact Worker.noConfusion
    · rw [hs.stop] at h
      cases h
  | wait h hdirty => cases hdirty.symm.trans (hs.ready h)
  | expire till h => exact absurd h (hs.up till)
  | take | wake | rest => exact ⟨hs.woken, hs.stop, fun till => Worker.noConfusion, by rintro ⟨⟩⟩
  | post o body =>
    rw [tried_eq]
    exact ⟨hs.woken, hs.stop, fun till => Worker.noConfusion, by rintro ⟨⟩⟩
  | raise body =>
    rw [tried_eq]
    exact ⟨hs.woken, hs.stop, fun till => Worker.noConfusion, by rintro ⟨⟩⟩
  | pass n => exact ⟨hs.woken, hs.stop, hs.up, hs.ready⟩

theorem run_awake (hs : s.Awake) (hrun : publisher.run s es = some u) : u.Awake :=
  publisher.run_invariant (P := fun _ _ => True) (fun _ _ _ hs _ hstep => (step_does hstep).awake hs)
    hs (publisher.eachStep_of_forall (fun _ _ => trivial) es s) hrun

theorem reachable_sound (hs : publisher.Reachable s) : s.Sound :=
  publisher.reachable_invariant (fun s h => by obtain rfl : s = .start := h; exact sound_start)
    (fun _ _ _ hs hstep => (step_does hstep).sound hs) hs

/-! ### The way out -/

/-- Some steps, in which nothing is waited for, end the join. -/
def Leaves (s : Publisher) (body : Payload) : Prop :=
  ∃ es u, (∀ e ∈ es, e.waits = false) ∧ publisher.run s es = some u ∧ u.main = .final body

theorem Leaves.step {body : Payload} (he : e.waits = false) (hstep : publisher.step s e = some t)
    (h : t.Leaves body) : s.Leaves body := by
  obtain ⟨es, u, hes, hrun, hu⟩ := h
  refine ⟨e :: es, u, ?_, publisher.run_cons_some.mpr ⟨t, hstep, hrun⟩, hu⟩
  intro f hf
  rcases List.mem_cons.mp hf with rfl | hf
  · exact he
  · exact hes f hf

variable {body : Payload} {since : ℕ}

theorem leaves_done (hmain : s.main = .joining body since) (h : s.worker = .done) :
    s.Leaves body := by
  refine ⟨[.joined], { s with main := .final body }, by simp [Event.waits], ?_, rfl⟩
  simp [publisher, Machine.run, Publisher.step, hmain, h]

theorem leaves_test (hmain : s.main = .joining body since) (hstop : s.stop = true)
    (h : s.worker = .test) : s.Leaves body := by
  refine Leaves.step (e := .check) (t := { s with worker := .done }) rfl ?_ (leaves_done hmain rfl)
  simp [publisher, Publisher.step, hstop, h]

theorem leaves_resting (hmain : s.main = .joining body since) (hstop : s.stop = true) {till : ℕ}
    (h : s.worker = .resting till) : s.Leaves body := by
  refine Leaves.step (e := .rest) (t := { s with worker := .test }) rfl ?_
    (leaves_test hmain hstop rfl)
  simp [publisher, Publisher.step, hstop, h]

theorem leaves_posting (hmain : s.main = .joining body since) (hstop : s.stop = true) {b : Payload}
    {began : ℕ} (h : s.worker = .posting b began) : s.Leaves body := by
  refine Leaves.step (e := .post .ok) (t := { s with posted := s.posted ++ [b]
                                                     worker := .resting (s.now + restTime)
                                                     due := s.now + restTime }) rfl ?_
    (leaves_resting hmain hstop rfl)
  simp [publisher, Publisher.step, Publisher.tried, h]

/-- Wherever it is, its way out leads by one POST at most. -/
theorem Awake.leaves (hs : s.Awake) (hmain : s.main = .joining body since) : s.Leaves body := by
  have hrender : s.render.Leaves body := leaves_posting hmain hs.stop rfl
  cases hworker : s.worker with
  | test => exact leaves_test hmain hs.stop hworker
  | enter =>
    refine Leaves.step (e := .lock) rfl ?_ hrender
    simp [publisher, Publisher.step, hworker, hs.ready hworker]
  | waiting till w =>
    have hw : w ≠ .blocked := fun hw => hs.up till (hw ▸ hworker)
    refine Leaves.step (e := .wake) rfl ?_ hrender
    simp [publisher, Publisher.step, hworker, hw]
  | posting b began => exact leaves_posting hmain hs.stop hworker
  | resting till => exact leaves_resting hmain hs.stop hworker
  | done => exact leaves_done hmain hworker

end Publisher

/-- When `shutdown` notifies the worker, in whatever state the two have got to: the worker never again
    waits, and its join can always return without any time passing but that of a POST, exactly if the
    worker is not past its test and before the lock with nothing to snapshot. -/
theorem wakeUp_kept_iff (hs : publisher.Reachable s) (h : publisher.step s .wakeUp = some t) :
    (∀ es u, publisher.run t es = some u → (∀ till, u.worker ≠ .waiting till .blocked) ∧
      ∀ body since, u.main = .joining body since → u.Leaves body) ↔
    ¬ (s.worker = .enter ∧ s.dirty = false) := by
  have hstop : s.main.stopped = true → s.stop = true := (Publisher.reachable_sound hs).stopped
  have hdoes : s.Does .wakeUp t := Publisher.wakeUp_does h
  cases hdoes with
  | wakeUp body hmain =>
    constructor
    · rintro hnever ⟨hworker, hdirty⟩
      have hlock : publisher.run { s.notify with main := .joining body s.now } [.lock] = some
          { s.notify with main := .joining body s.now
                          worker := .waiting (s.now + keepalive) .blocked } := by
        simp [publisher, Machine.run, Publisher.step, Publisher.notify, hworker, hdirty]
      exact (hnever _ _ hlock).1 _ rfl
    · intro hready es u hrun
      have hawake : Publisher.Awake { s.notify with main := .joining body s.now } := by
        refine ⟨rfl, hstop (by rw [hmain]; rfl), s.notify_ne_blocked, fun h => ?_⟩
        have hworker := (Publisher.notify_worker fun till w => Worker.noConfusion).mp h
        exact Bool.of_not_eq_false fun hdirty => hready ⟨hworker, hdirty⟩
      have hu := Publisher.run_awake hawake hrun
      exact ⟨hu.up, fun body since hmain => hu.leaves hmain⟩

/-- The worker is waiting when it is woken. -/
theorem wakeUp_kept_iff_waiting : ∃ s t, publisher.run .start
    [.check, .lock, .post .ok, .pass 1000, .rest, .check, .lock, .mark, .setStop] = some s ∧
      publisher.step s .wakeUp = some t ∧
      ∀ es u, publisher.run t es = some u → (∀ till, u.worker ≠ .waiting till .blocked) ∧
        ∀ body since, u.main = .joining body since → u.Leaves body := by
  obtain ⟨s, hrun, hworker, hsome⟩ : ∃ s, publisher.run .start
      [.check, .lock, .post .ok, .pass 1000, .rest, .check, .lock, .mark, .setStop] = some s ∧
      s.worker = .waiting 301000 .blocked ∧ (publisher.step s .wakeUp).isSome :=
    publisher.exists_run (by decide +kernel)
  obtain ⟨t, ht⟩ := Option.isSome_iff_exists.mp hsome
  refine ⟨s, t, hrun, ht, (wakeUp_kept_iff ⟨.start, _, rfl, hrun⟩ ht).mpr ?_⟩
  rintro ⟨h, -⟩
  cases hworker.symm.trans h

/-- The worker has just tested `stop` when the server is shut down, and waits for five minutes. -/
theorem wakeUp_lost : publisher.init .start ∧ ∃ s, publisher.run .start
    [.check, .lock, .post .ok, .pass 1000, .rest, .check, .mark, .setStop, .wakeUp, .lock] = some s ∧
      s.stop = true ∧ s.main = .joining ⟨.offline, 0⟩ 1000 ∧ s.worker = .waiting 301000 .blocked :=
  ⟨rfl, publisher.exists_run (by decide +kernel)⟩

end VO.Lobby
