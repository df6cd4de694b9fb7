import VideoOlympics.Lockstep.Desync

/-! The desync repair. An armed console presses RESET into its next capture, for the tick three ahead;
    the flag comes off with the press, and whether a record still on its way arms it again is a matter
    of the ticks in which records of their own tick are taken. -/

namespace VO

/-- A match, watched, and for each side, latest first, the ticks in which it set `VOE_RSY`, those whose
    flag was pressed into a capture, and those in which it took a record that clashed. -/
structure Repair where
  watch : Watch
  armed : Side → List ℤ
  pressed : Side → List ℤ
  clashed : Side → List ℤ

/-- The flag is up. -/
def Watch.rsy (w : Watch) (i : Side) : Bool := has (w.link i).solo.con.voent voeRsy

/-- The account after an event. -/
def Repair.after (s : Repair) (w' : Watch) (e : LinkEv) : Repair where
  watch := w'
  armed i := if !s.watch.rsy i && w'.rsy i then (s.watch.link i).tick :: s.armed i else s.armed i
  pressed := match e with
    | .gate i _ _ => if advances (s.watch.link i).solo.con && s.watch.rsy i
        then Function.update s.pressed i ((s.watch.link i).tick :: s.pressed i) else s.pressed
    | _ => s.pressed
  clashed := match e with
    | .micro i => if s.watch.Clash i
        then Function.update s.clashed i ((s.watch.link i).tick :: s.clashed i) else s.clashed
    | _ => s.clashed

section
variable (s : Repair) (w' : Watch) (i : Side) (hw : Hw) (sim : Sim)

theorem Repair.pressed_gate : (s.after w' (.gate i hw sim)).pressed i =
    if advances (s.watch.link i).solo.con && s.watch.rsy i
      then (s.watch.link i).tick :: s.pressed i else s.pressed i := by
  simp only [Repair.after]
  split
  · exact Function.update_self ..
  · rfl

theorem Repair.pressed_gate_other :
    (s.after w' (.gate i hw sim)).pressed i.other = s.pressed i.other := by
  simp only [Repair.after]
  split
  · exact Function.update_of_ne (Side.other_ne i) ..
  · rfl

/-- What is armed stays on the account. -/
theorem Repair.armed_subset (e : LinkEv) : s.armed i ⊆ (s.after w' e).armed i := by
  intro u hu
  simp only [Repair.after]
  split
  · exact List.mem_cons_of_mem _ hu
  · exact hu

theorem Repair.clashed_micro : (s.after w' (.micro i)).clashed i =
    if s.watch.Clash i then (s.watch.link i).tick :: s.clashed i else s.clashed i := by
  simp only [Repair.after]
  split
  · exact Function.update_self ..
  · rfl

theorem Repair.clashed_micro_other :
    (s.after w' (.micro i)).clashed i.other = s.clashed i.other := by
  simp only [Repair.after]
  split
  · exact Function.update_of_ne (Side.other_ne i) ..
  · rfl

end

def Repair.step (s : Repair) (e : LinkEv) : Option Repair := (s.watch.step e).map fun w' => s.after w' e

def repairs : Machine Repair LinkEv where
  init s := watched.init s.watch ∧ ∀ i, s.armed i = [] ∧ s.pressed i = [] ∧ s.clashed i = []
  step := Repair.step

/-- RESET is pressed in what this console captured for a tick. -/
def Station.Resets (x : Station) (t : ℤ) : Prop := (x.solo.tape.cap t).2 &&& iwRst = 0

/-- One side's account. -/
structure Accounts (x : Station) (rsy : Bool) (armed pressed clashed : List ℤ) : Prop where
  flag : rsy = true ↔ x.tick ∈ clashed
  past : ∀ t ∈ clashed, t ≤ x.tick
  same : ∀ t, t ∈ armed ↔ t ∈ clashed
  presses : ∀ t ∈ pressed, t ∈ clashed ∧ t < x.tick ∧ x.Resets (t + vod.toNat + 1)

/-- What holds of the account however the records fall. -/
structure Repair.Kept (s : Repair) : Prop where
  watched : ∃ k, Watched k s.watch
  side : ∀ i, Accounts (s.watch.link i) (s.watch.rsy i) (s.armed i) (s.pressed i) (s.clashed i)

variable {s t : Repair} {e : LinkEv}

theorem capture_resets (hw : Hw) {c : Console} (h : has c.voent voeRsy = true) :
    (capture hw c).2 &&& iwRst = 0 := by
  have hclear : ∀ b : Byte, b &&& (0xFF#8 - iwRst) &&& iwRst = 0 := by decide
  rw [capture, if_pos h]
  exact hclear _

section
variable {x : Station} {rsy : Bool} {armed pressed clashed : List ℤ}

/-- A frame takes the flag down where it advances, and presses it. -/
theorem Accounts.gate (h : Accounts x (has x.solo.con.voent voeRsy) armed pressed clashed)
    (hs : Sound x.solo) (hw : Hw) (sim : Sim) :
    Accounts { x with solo := x.solo.gate hw sim } (has (frame hw sim x.solo.con).voent voeRsy) armed
      (if advances x.solo.con && has x.solo.con.voent voeRsy then x.tick :: pressed else pressed)
      clashed := by
  have hflag := frame_rsy hw sim x.solo.con hs.net
  have htick : Station.tick { x with solo := x.solo.gate hw sim } = nextTick x.solo := rfl
  have hold : ∀ t ∈ pressed, t ∈ clashed ∧ t < nextTick x.solo ∧
      Station.Resets { x with solo := x.solo.gate hw sim } (t + vod.toNat + 1) := by
    intro t ht
    obtain ⟨hmem, hlt, hreset⟩ := h.presses t ht
    have hle : x.tick ≤ nextTick x.solo := by
      rw [nextTick, Station.tick]
      split <;> omega
    refine ⟨hmem, by omega, ?_⟩
    rw [Station.Resets, vod_cast, gate_cap_of_le (by rw [Station.tick] at hlt; omega)]
    exact hreset
  cases hadv : advances x.solo.con with
  | false =>
    have hnext : nextTick x.solo = x.tick := if_neg (by simp [hadv])
    simp only [Bool.false_and, Bool.false_eq_true, if_false]
    refine ⟨?_, ?_, h.same, ?_⟩
    · rw [hflag, htick, hnext, ← h.flag]
      exact and_iff_right hadv
    · rw [htick, hnext]
      exact h.past
    · rw [htick]
      exact hold
  | true =>
    have hnext : nextTick x.solo = x.tick + 1 := if_pos hadv
    simp only [Bool.true_and]
    refine ⟨?_, ?_, h.same, ?_⟩
    · rw [hflag, htick, hnext, hadv]
      refine iff_of_false (by simp) fun hmem => ?_
      have := h.past _ hmem
      omega
    · rw [htick, hnext]
      exact fun t ht => (h.past t ht).trans (by omega)
    · rw [htick]
      split
      · next hon =>
        intro t ht
        rcases List.mem_cons.mp ht with rfl | ht
        · refine ⟨h.flag.mp hon, by omega, ?_⟩
          rw [Station.Resets, vod_cast, show x.tick + 2 + 1 = x.solo.tape.tick + 3 by
            rw [Station.tick]; omega, hs.gate_capture hadv]
          exact capture_resets hw hon
        · exact hold t ht
      · exact hold

/-- A record that clashes puts the flag up, if it is not. -/
theorem Accounts.micro (h : Accounts x rsy armed pressed clashed) {x' : Station} {rsy' : Bool}
    {clash : Prop} [Decidable clash] (htick : x'.tick = x.tick)
    (hcap : x'.solo.tape.cap = x.solo.tape.cap) (hrsy : rsy' = true ↔ rsy = true ∨ clash) :
    Accounts x' rsy' (if !rsy && rsy' then x.tick :: armed else armed) pressed
      (if clash then x.tick :: clashed else clashed) := by
  have hpresses : ∀ t ∈ pressed, t ∈ clashed ∧ t < x'.tick ∧ x'.Resets (t + vod.toNat + 1) := by
    intro t ht
    rw [htick, Station.Resets, hcap]
    exact h.presses t ht
  by_cases hc : clash
  · have hon : rsy' = true := hrsy.mpr (.inr hc)
    rw [if_pos hc, hon, Bool.and_true]
    refine ⟨?_, ?_, ?_, fun t ht => (hpresses t ht).imp_left (List.mem_cons_of_mem _)⟩
    · rw [htick]
      exact iff_of_true rfl List.mem_cons_self
    · rw [htick]
      intro t ht
      rcases List.mem_cons.mp ht with rfl | ht
      · exact le_refl _
      · exact h.past t ht
    · intro t
      cases hset : rsy with
      | false => rw [Bool.not_false, if_pos rfl, List.mem_cons, List.mem_cons, h.same]
      | true =>
        rw [Bool.not_true, if_neg Bool.false_ne_true, h.same, List.mem_cons]
        exact ⟨.inr, fun ht => ht.elim (fun heq => heq ▸ h.flag.mp hset) id⟩
  · have hsame : rsy' = rsy := by
      rw [Bool.eq_iff_iff, hrsy, or_iff_left hc]
    rw [if_neg hc, hsame, Bool.not_and_self, if_neg Bool.false_ne_true]
    exact ⟨by rw [htick]; exact h.flag, by rw [htick]; exact h.past, h.same, hpresses⟩

/-- A side whose console does not act. -/
theorem Accounts.idle (h : Accounts x rsy armed pressed clashed) {x' : Station}
    (hsolo : x'.solo = x.solo) : Accounts x' rsy armed pressed clashed := by
  have htick : x'.tick = x.tick := by rw [Station.tick, hsolo]; rfl
  have hcap : x'.solo.tape.cap = x.solo.tape.cap := by rw [hsolo]
  refine ⟨by rw [htick]; exact h.flag, by rw [htick]; exact h.past, h.same, fun t ht => ?_⟩
  rw [htick, Station.Resets, hcap]
  exact h.presses t ht

end

theorem Repair.step_cases (h : s.step e = some t) :
    ∃ w', s.watch.step e = some w' ∧ t = s.after w' e := by
  obtain ⟨w', hst, rfl⟩ := Option.map_eq_some_iff.mp h
  exact ⟨w', hst, rfl⟩

/-- The account of a side that the event leaves alone. -/
theorem Repair.Kept.idle (h : s.Kept) {w' : Watch} {j : Side}
    (hsolo : (w'.link j).solo = (s.watch.link j).solo)
    (hpressed : (s.after w' e).pressed j = s.pressed j)
    (hclashed : (s.after w' e).clashed j = s.clashed j) :
    Accounts (w'.link j) (w'.rsy j) ((s.after w' e).armed j) ((s.after w' e).pressed j)
      ((s.after w' e).clashed j) := by
  have hrsy : w'.rsy j = s.watch.rsy j := by rw [Watch.rsy, Watch.rsy, hsolo]
  rw [hpressed, hclashed, hrsy]
  simp only [Repair.after, hrsy, Bool.not_and_self, Bool.false_eq_true, if_false]
  exact (h.side j).idle hsolo

/-- The account of the side a frame runs on. No frame puts a flag up. -/
theorem Repair.Kept.gate (h : s.Kept) {w' : Watch} {i : Side} {hw : Hw} {sim : Sim}
    (hsolo : w'.link i = { s.watch.link i with solo := (s.watch.link i).solo.gate hw sim })
    (hs : Sound (s.watch.link i).solo) :
    Accounts (w'.link i) (w'.rsy i) ((s.after w' (.gate i hw sim)).armed i)
      ((s.after w' (.gate i hw sim)).pressed i) ((s.after w' (.gate i hw sim)).clashed i) := by
  have hrsy : w'.rsy i = has (frame hw sim (s.watch.link i).solo.con).voent voeRsy := by
    rw [Watch.rsy, hsolo]
    rfl
  have hquiet : (!s.watch.rsy i && w'.rsy i) = false := by
    rw [hrsy, Bool.eq_false_iff]
    intro hand
    simp only [Bool.and_eq_true, Bool.not_eq_true'] at hand
    have := ((frame_rsy hw sim _ hs.net).mp hand.2).2
    exact absurd (hand.1.symm.trans this) Bool.false_ne_true
  have harmed : (s.after w' (.gate i hw sim)).armed i = s.armed i := by
    simp only [Repair.after, hquiet, Bool.false_eq_true, if_false]
  rw [Repair.pressed_gate, harmed, hrsy, hsolo]
  exact (h.side i).gate hs hw sim

theorem Repair.Kept.step (h : s.Kept) (hst : s.step e = some t) : t.Kept := by
  obtain ⟨w', hw', rfl⟩ := Repair.step_cases hst
  obtain ⟨k, hwatched⟩ := h.watched
  refine ⟨⟨k, hwatched.step hw'⟩, ?_⟩
  suffices hsides : ∀ j, Accounts (w'.link j) (w'.rsy j) ((s.after w' e).armed j)
      ((s.after w' e).pressed j) ((s.after w' e).clashed j) from hsides
  rcases Link.step_cases (Watch.step_link hw') with ⟨i, hw, sim, rfl, -, hi, hj⟩ |
    ⟨i, rfl, -, hi, hj⟩ | ⟨i, rfl, -, hi, hj⟩ | ⟨i, n, rfl, hi, hj⟩
  all_goals
    intro j
    rcases i.eq_or_other j with rfl | rfl
  · exact h.gate hi (hwatched.inStep j).sound
  · exact h.idle (by rw [hj]) (Repair.pressed_gate_other ..) rfl
  · have hsolo := (micro_fixed (s.watch.link j) (s.watch.link j.other).sent).1
    obtain ⟨htick, hcap, -⟩ := micro_same (s.watch.link j).solo (s.watch.link j).mail
    have htick' : (w'.link j).tick = (s.watch.link j).tick := by
      rw [hi, Station.tick, hsolo, htick]
      rfl
    rw [Repair.clashed_micro]
    exact (h.side j).micro htick' (by rw [hi, hsolo, hcap]) (hwatched.micro_rsy hw')
  · exact h.idle (by rw [hj]) rfl (Repair.clashed_micro_other ..)
  · exact h.idle (by rw [hi]; rfl) rfl rfl
  · exact h.idle (by rw [hj]; rfl) rfl rfl
  · exact h.idle (by rw [hi]; rfl) rfl rfl
  · exact h.idle (by rw [hj]) rfl rfl

theorem kept_of_start (h : repairs.init s) : s.Kept := by
  obtain ⟨hw, hnil⟩ := h
  refine ⟨⟨_, .start hw⟩, fun i => ?_⟩
  obtain ⟨harmed, hpressed, hclashed⟩ := hnil i
  rw [harmed, hpressed, hclashed]
  have hrsy : s.watch.rsy i = false := by
    obtain ⟨hw, c, r, m, -, hi⟩ := hw.1 i
    rw [Watch.rsy, hi]
    exact (start_voent i.role).2.2.1
  rw [hrsy]
  exact ⟨by simp, by simp, by simp, by simp⟩

/-! ### One press -/

/-- No flag is pressed that went up in one of the three ticks after another. -/
def Repair.Once (s : Repair) : Prop :=
  ∀ i, ∀ t ∈ s.armed i, ∀ u ∈ s.pressed i, t < u → t + vod.toNat + 1 < u

/-- The frame does not advance from a tick in which its console took a record that clashed, within
    three of another. -/
def Repair.Spaced (s : Repair) : LinkEv → Prop
  | .gate i _ _ => advances (s.watch.link i).solo.con = true →
      (s.watch.link i).tick ∈ s.clashed i → ∀ t ∈ s.clashed i, t < (s.watch.link i).tick →
      t + vod.toNat + 1 < (s.watch.link i).tick
  | _ => True

/-- What is pressed now is pressed of the tick the console is on, and no flag goes up in a tick to
    come. -/
theorem Repair.Kept.once_of (h : s.Kept) (ho : s.Once) {w' : Watch}
    (hpressed : ∀ i, ∀ u ∈ (s.after w' e).pressed i, u ∈ s.pressed i ∨
      u = (s.watch.link i).tick ∧ ∀ t ∈ s.clashed i, t < u → t + vod.toNat + 1 < u) :
    (s.after w' e).Once := by
  intro i t ht u hu hlt
  have hle : u ≤ (s.watch.link i).tick := by
    rcases hpressed i u hu with hu | ⟨rfl, -⟩
    · exact ((h.side i).presses u hu).2.1.le
    · exact le_refl _
  have harmed : t ∈ s.armed i := by
    simp only [Repair.after] at ht
    split at ht
    · rcases List.mem_cons.mp ht with rfl | ht
      · omega
      · exact ht
    · exact ht
  rcases hpressed i u hu with hu | ⟨-, hfar⟩
  · exact ho i t harmed u hu hlt
  · exact hfar t (((h.side i).same t).mp harmed) hlt

theorem Repair.Kept.once_iff (h : s.Kept) (ho : s.Once) (hst : s.step e = some t) :
    t.Once ↔ s.Spaced e := by
  obtain ⟨w', -, rfl⟩ := Repair.step_cases hst
  cases e with
  | gate i hw sim =>
    cases hpress : advances (s.watch.link i).solo.con && s.watch.rsy i with
    | false =>
      refine iff_of_true (h.once_of ho fun j u hu => .inl ?_) fun hadv hmem => ?_
      · simpa only [Repair.after, hpress, Bool.false_eq_true, if_false] using hu
      · rw [hadv, (h.side i).flag.mpr hmem] at hpress
        cases hpress
    | true =>
      have hafter : (s.after w' (.gate i hw sim)).pressed i =
          (s.watch.link i).tick :: s.pressed i := by
        rw [Repair.pressed_gate, if_pos hpress]
      constructor
      · intro ht _ _ u hu hlt
        have harmed := s.armed_subset w' i (.gate i hw sim) (((h.side i).same u).mpr hu)
        refine ht i u harmed (s.watch.link i).tick ?_ hlt
        rw [hafter]
        exact List.mem_cons_self
      · intro hfar
        rw [Bool.and_eq_true] at hpress
        refine h.once_of ho fun j u hu => ?_
        rcases i.eq_or_other j with rfl | rfl
        · rw [hafter] at hu
          rcases List.mem_cons.mp hu with rfl | hu
          · exact .inr ⟨rfl, hfar hpress.1 ((h.side j).flag.mp hpress.2)⟩
          · exact .inl hu
        · rw [Repair.pressed_gate_other] at hu
          exact .inl hu
  | micro i => exact iff_of_true (h.once_of ho fun j u hu => .inl hu) trivial
  | answer i => exact iff_of_true (h.once_of ho fun j u hu => .inl hu) trivial
  | arrive i n => exact iff_of_true (h.once_of ho fun j u hu => .inl hu) trivial

instance (s : Repair) : ∀ e, Decidable (s.Spaced e)
  | .gate i _ _ => inferInstanceAs (Decidable (_ → _ → ∀ t ∈ s.clashed i, _))
  | .micro _ => .isTrue trivial
  | .answer _ => .isTrue trivial
  | .arrive _ _ => .isTrue trivial

/-- One desync presses RESET once per console, in every state a match passes through, just when no
    frame advances from a tick in which a clashing record was taken within three ticks of another. What
    is pressed is what the flag was put up for, in the capture for the tick three ahead. -/
theorem one_press_iff {es : List LinkEv} (h₀ : repairs.init s) :
    (repairs.Throughout Repair.Once s es ↔ repairs.EachStep Repair.Spaced s es) ∧
    ∀ t, repairs.run s es = some t → ∀ i, ∀ u ∈ t.pressed i,
      u ∈ t.armed i ∧ (t.watch.link i).Resets (u + vod.toNat + 1) := by
  refine ⟨repairs.throughout_iff_eachStep (fun _ _ _ h hst => h.step hst)
    (fun _ _ _ h ho hst => h.once_iff ho hst) (kept_of_start h₀) fun i t ht => ?_, ?_⟩
  · rw [(h₀.2 i).1] at ht
    cases ht
  · intro t hrun i u hu
    have hkept : t.Kept := repairs.reachable_invariant (fun _ h => kept_of_start h)
      (fun _ _ _ h hst => h.step hst) ⟨s, es, h₀, hrun⟩
    obtain ⟨hmem, -, hreset⟩ := (hkept.side i).presses u hu
    exact ⟨((hkept.side i).same u).mpr hmem, hreset⟩

/-- The match nobody has touched, with nothing on its account. -/
def Repair.rest : Repair := ⟨Watch.rest, fun _ => [], fun _ => [], fun _ => []⟩

theorem repairs_rest : repairs.init Repair.rest := ⟨⟨init_rest, rfl⟩, fun _ => ⟨rfl, rfl, rfl⟩⟩

/-- The parting is met with one press. -/
theorem one_press_iff_parting :
    ∃ t, repairs.run Repair.rest (parting ++ [.micro .host] ++ LinkEv.frames .host 0 4) = some t ∧
      t.pressed .host = [2] ∧ repairs.Throughout Repair.Once Repair.rest
        (parting ++ [.micro .host] ++ LinkEv.frames .host 0 4) ∧
      (t.watch.link .host).Resets 5 := by
  obtain ⟨t, hrun, hpressed⟩ := repairs.exists_run (s := Repair.rest)
    (e := parting ++ [.micro .host] ++ LinkEv.frames .host 0 4)
    (Q := fun t => t.pressed .host = [2]) (by decide +kernel)
  obtain ⟨honce, hmeans⟩ := one_press_iff repairs_rest
  exact ⟨t, hrun, hpressed, honce.mpr (by decide +kernel),
    (hmeans t hrun .host 2 (by rw [hpressed]; exact List.mem_cons_self)).2⟩

/-- The cells after each frame are the game's, of the cells before and what the frame is shown; a
    stalled frame leaves them. -/
def Played (game : Sim → Byte → Byte → Byte → Byte → Sim) (s : Repair) : LinkEv → Prop
  | .gate i hw sim => sim = if (voshim hw (s.watch.link i).solo.con).voadv = 0
      then (s.watch.link i).solo.con.sim
      else game (s.watch.link i).solo.con.sim (voshim hw (s.watch.link i).solo.con).vopad0
        (voshim hw (s.watch.link i).solo.con).vopad2 (voshim hw (s.watch.link i).solo.con).voswa
        (voshim hw (s.watch.link i).solo.con).voswb
  | _ => True

instance (game : Sim → Byte → Byte → Byte → Byte → Sim) (s : Repair) : ∀ e, Decidable (Played game s e)
  | .gate _ _ _ => inferInstanceAs (Decidable (_ = _))
  | .micro _ => .isTrue trivial
  | .answer _ => .isTrue trivial
  | .arrive _ _ => .isTrue trivial

/-- A game in which the guest's paddle sets a cell when it is off its stop. -/
def latch (s : Sim) (_ p2 _ _ : Byte) : Sim := if p2 = 0 then s else { s with cB2 := p2 }

/-- Frames of one side that leave the cell so. -/
def latchedFrames (i : Side) (n : ℕ) : List LinkEv :=
  List.replicate n (.gate i Hw.rest { Console.cleared.sim with cB2 := 0x50 })

/-- The backlog, played: the host runs tick 2 without the guest's paddle. In tick 4 it takes the
    guest's record of tick 4, advances with the press, and in tick 5 takes the guest's record of tick 5,
    written before the press has come to be applied. -/
def twice : List LinkEv :=
  List.flatten [
    LinkEv.frames .host 0 1, LinkEv.write .host, [.arrive .guest 16],
    LinkEv.frames .guest 0x50 1, LinkEv.write .guest, LinkEv.read .guest,
    [.micro .guest, .micro .guest], LinkEv.frames .guest 0 8, latchedFrames .guest 5,
    LinkEv.write .guest, [.arrive .host 32], LinkEv.read .host, [.micro .host],
    LinkEv.frames .host 0 17, [.micro .host, .micro .host], LinkEv.write .host,
    [.arrive .guest 16], LinkEv.read .guest, [.micro .guest, .micro .guest],
    latchedFrames .guest 5, LinkEv.write .guest, [.arrive .host 16], LinkEv.read .host,
    [.micro .host, .micro .host], [.micro .guest, .answer .guest, .micro .guest],
    latchedFrames .guest 4, LinkEv.write .guest, LinkEv.frames .host 0 4, LinkEv.write .host,
    [.arrive .host 16], LinkEv.read .host, [.micro .host], LinkEv.frames .host 0 4]

theorem twice_pressed : ¬∀ (game : Sim → Byte → Byte → Byte → Byte → Sim) (s t : Repair)
    (es : List LinkEv), repairs.init s →
      (s.watch.link .host).solo.con.sim = (s.watch.link .guest).solo.con.sim →
      repairs.EachStep (Played game) s es → repairs.run s es = some t → t.Once := by
  intro hall
  obtain ⟨t, hrun, harmed, hpressed⟩ := repairs.exists_run (s := Repair.rest) (e := twice)
    (Q := fun t => 4 ∈ t.armed .host ∧ 5 ∈ t.pressed .host) (by decide +kernel)
  have honce := hall latch Repair.rest t twice repairs_rest rfl (by decide +kernel) hrun
  exact absurd (honce .host 4 harmed 5 hpressed (by decide)) (by decide)

end VO
