import VideoOlympics.Relay.Checksums

/-! A match after others. A match starts with no checksums, but with the laps and the last ticks of
    the matches before. If the two laps agree, and neither last tick can be mistaken for one before a
    wrap, then every key is ahead of what it would be by the same number of laps, and what is
    compared with what does not change. Otherwise there are reports that are never compared. -/

namespace VO.Relay

/-- The same tally, so many laps ahead. One that has reported nothing yet may still hold the last
    tick of an earlier match, if no tick is a wrap of it. -/
structure Tally.Ahead (n : ℕ) (o o₀ : Tally) : Prop where
  crc : o.crc = Dict.rename (· + 256 * n) o₀.crc
  lap : o.lap = o₀.lap + n
  last : o.last = o₀.last ∨ o₀.last = none ∧ ∀ x ∈ o.last, x.toNat ≤ 128

theorem add_injective (n : ℕ) : Function.Injective (· + 256 * n) := fun _ _ h => Nat.add_right_cancel h

namespace Tally.Ahead

variable {n : ℕ} {o o₀ : Tally}

theorem lapAt (h : o.Ahead n o₀) (tick : Byte) : o.lapAt tick = o₀.lapAt tick + n := by
  simp only [Tally.lapAt]
  rcases h.last with hlast | ⟨hnone, hsmall⟩
  · rw [hlast, h.lap]
    cases o₀.last with
    | none => rfl
    | some last =>
      dsimp only
      split
      · omega
      · rfl
  · rw [hnone, h.lap]
    cases hlast : o.last with
    | none => rfl
    | some last =>
      dsimp only
      have hle := hsmall last hlast
      refine if_neg ?_
      simp only [BitVec.toNat_sub, BitVec.lt_def]
      omega

theorem keyAt (h : o.Ahead n o₀) (tick : Byte) : o.keyAt tick = o₀.keyAt tick + 256 * n := by
  rw [Tally.keyAt, Tally.keyAt, h.lapAt]
  omega

theorem note (h : o.Ahead n o₀) (tick crc : Byte) : (o.note tick crc).Ahead n (o₀.note tick crc) where
  crc := by
    rw [Tally.note, Tally.note, h.keyAt, h.crc]
    exact Dict.set_rename (add_injective n) ..
  lap := h.lapAt tick
  last := .inl rfl

theorem trim (h : o.Ahead n o₀) : o.trim.Ahead n o₀.trim where
  crc := by
    rw [Tally.trim, Tally.trim, h.crc]
    exact Dict.youngest_rename ..
  lap := h.lap
  last := h.last

theorem forget (h : o.Ahead n o₀) (key : ℕ) :
    (o.forget (key + 256 * n)).Ahead n (o₀.forget key) where
  crc := by
    rw [Tally.forget, Tally.forget, h.crc]
    exact Dict.filter_rename (add_injective n) ..
  lap := h.lap
  last := h.last

end Tally.Ahead

namespace Ledger

/-- Both tallies are ahead by as many laps. -/
def Ahead (n : ℕ) (l l₀ : Ledger) : Prop := ∀ i, (l i).Ahead n (l₀ i)

/-- What an INPUT frame adds to `crc_ok` and to `crc_bad`. -/
def counts (l : Ledger) (e : Side × List Byte) : ℕ × ℕ :=
  match l.compared e with
  | none => (0, 0)
  | some other => if other ≠ e.2.getD irCrc 0 then (0, 1) else (1, 0)

def rounds : Ledger → List (Side × List Byte) → List (ℕ × ℕ)
  | _, [] => []
  | l, e :: es => l.counts e :: (l.hear e).rounds es

variable {n : ℕ} {l l₀ : Ledger}

theorem Ahead.awaited (h : l.Ahead n l₀) (i : Side) (tick : Byte) :
    l.awaited i tick = l₀.awaited i tick := by
  rw [Ledger.awaited, Ledger.awaited, (h i).keyAt, (h i.other).crc]
  exact Dict.lookup_rename (add_injective n) ..

theorem Ahead.report (h : l.Ahead n l₀) (i : Side) (tick crc : Byte) :
    (l.report i tick crc).Ahead n (l₀.report i tick crc) := by
  have hnote := (h i).note tick crc
  intro j
  cases ha : l.awaited i tick with
  | none =>
    obtain ⟨hi, ho⟩ := report_unpaired ha crc
    obtain ⟨hi₀, ho₀⟩ := report_unpaired (h.awaited i tick ▸ ha) crc
    rcases i.eq_or_other j with rfl | rfl
    · rw [hi, hi₀]
      exact hnote.trim
    · rw [ho, ho₀]
      exact h i.other
  | some other =>
    have hsome : (l.awaited i tick).isSome := by rw [ha]; rfl
    obtain ⟨hi, ho⟩ := report_paired hsome crc
    obtain ⟨hi₀, ho₀⟩ := report_paired (h.awaited i tick ▸ hsome) crc
    rcases i.eq_or_other j with rfl | rfl
    · rw [hi, hi₀]
      exact hnote
    · rw [ho, ho₀, (h i).keyAt]
      exact (h i.other).forget _

theorem Ahead.hear (h : l.Ahead n l₀) (e : Side × List Byte) : (l.hear e).Ahead n (l₀.hear e) := by
  simp only [Ledger.hear]
  split
  · exact h.report _ _ _
  · exact h

theorem Ahead.compared (h : l.Ahead n l₀) (e : Side × List Byte) :
    l.compared e = l₀.compared e := by
  simp only [Ledger.compared]
  split
  · exact h.awaited _ _
  · rfl

theorem Ahead.rounds (h : l.Ahead n l₀) (es : List (Side × List Byte)) :
    l.rounds es = l₀.rounds es := by
  induction es generalizing l l₀ with
  | nil => rfl
  | cons e es ih =>
    rw [Ledger.rounds, Ledger.rounds, ih (h.hear e), counts, counts, h.compared]

/-! ### Reports that are never compared -/

theorem le_lapAt (o : Tally) (tick : Byte) : o.lap ≤ o.lapAt tick := by
  simp only [Tally.lapAt]
  split
  · split
    · exact Nat.le_succ _
    · exact Nat.le_refl _
  · exact Nat.le_refl _

/-- The last tick of a lap is no wrap. -/
theorem lapAt_last (o : Tally) : o.lapAt 255 = o.lap := by
  simp only [Tally.lapAt]
  split
  · refine if_neg fun h => ?_
    have hlt : (255 : Byte).toNat < _ := h.2.2
    have h255 : (255 : Byte).toNat = 255 := rfl
    omega
  · rfl

variable {i : Side} {m : ℕ}

theorem compared_checkup (l : Ledger) (i : Side) (tick crc : Byte) :
    l.compared (i, checkup tick crc) = l.awaited i tick := rfl

theorem hear_checkup (l : Ledger) (i : Side) (tick crc : Byte) :
    l.hear (i, checkup tick crc) = l.report i tick crc := rfl

/-- What is reported on a later lap than everything that is stored counts for nothing. -/
theorem rounds_behind {ticks : List Byte} (hkeys : ∀ k ∈ Dict.keys (l i.other).crc, k < m * 256)
    (hlap : ∀ tick ∈ ticks.head?, m ≤ (l i).lapAt tick) :
    l.rounds (ticks.map fun tick => (i, checkup tick 0)) = List.replicate ticks.length (0, 0) := by
  induction ticks generalizing l with
  | nil => rfl
  | cons tick ticks ih =>
    have hle := hlap tick rfl
    have hnone : l.awaited i tick = none := by
      refine Dict.lookup_eq_none.mpr fun hmem => ?_
      have hlt := hkeys _ hmem
      rw [Tally.keyAt] at hlt
      omega
    obtain ⟨hi, ho⟩ := report_unpaired hnone 0
    rw [List.map_cons, rounds, counts, compared_checkup, hnone, hear_checkup, ih (ho ▸ hkeys)]
    · rfl
    · intro next _
      refine Nat.le_trans hle ?_
      have hnext := le_lapAt (l.report i tick 0 i) next
      rwa [show (l.report i tick 0 i).lap = (l i).lapAt tick from hi ▸ rfl] at hnext

/-- One side reports a tick, and the other comes up to it from zero. -/
def catchUp (i : Side) : List (Side × List Byte) :=
  (i.other, checkup 255 0) :: [0, 127, 254, 255].map fun tick => (i, checkup tick 0)

theorem rounds_catchUp (hcrc : ∀ j, (l j).crc = []) (hlap : (l i.other).lap < (l i).lapAt 0) :
    l.rounds (catchUp i) = List.replicate 5 (0, 0) := by
  have hnone : l.awaited i.other 255 = none := by
    rw [awaited, hcrc]
    rfl
  obtain ⟨hother, hi⟩ := report_unpaired hnone 0
  rw [Side.other_other] at hi
  rw [catchUp, rounds, counts, compared_checkup, hnone, hear_checkup,
    rounds_behind (m := (l i.other).lap + 1)]
  · rfl
  · intro k hk
    rw [hother, Tally.trim, Tally.note, hcrc] at hk
    obtain rfl : k = (l i.other).keyAt 255 := List.mem_singleton.mp hk
    have h255 : (255 : Byte).toNat = 255 := rfl
    rw [Tally.keyAt, lapAt_last]
    omega
  · intro tick ht
    obtain rfl : 0 = tick := Option.some.inj ht
    rwa [hi]

/-- Of two who have just connected, the last report is compared with the first. -/
theorem rounds_catchUp_new (i : Side) :
    rounds (fun _ => Tally.new) (catchUp i) ≠ List.replicate 5 (0, 0) := by
  cases i with
  | host => decide
  | guest => decide

/-- The two laps agree, and no tick is a wrap of either last tick. -/
structure Level (l : Ledger) : Prop where
  lap : (l .host).lap = (l .guest).lap
  last : ∀ i, ∀ x ∈ (l i).last, x.toNat ≤ 128

theorem lapAt_zero {o : Tally} {last : Byte} (h : o.last = some last) (hlast : 128 < last.toNat) :
    o.lapAt 0 = o.lap + 1 := by
  have hlt := last.isLt
  have h0 : (0 : Byte).toNat = 0 := rfl
  simp only [Tally.lapAt]
  rw [h]
  refine if_pos ?_
  simp only [BitVec.toNat_sub, BitVec.lt_def, h0]
  omega

theorem exists_behind (h : ¬ l.Level) : ∃ i : Side, (l i.other).lap < (l i).lapAt 0 := by
  by_contra hnone
  simp only [not_exists, Nat.not_lt] at hnone
  have hhost : (l .host).lapAt 0 ≤ (l .guest).lap := hnone .host
  have hguest : (l .guest).lapAt 0 ≤ (l .host).lap := hnone .guest
  have := le_lapAt (l .host) 0
  have := le_lapAt (l .guest) 0
  refine h ⟨by omega, fun i x hx => ?_⟩
  by_contra hlt
  have hwrap := lapAt_zero hx (Nat.lt_of_not_le hlt)
  cases i with
  | host => omega
  | guest => omega

/-- Level tallies without checksums are those of two who have just connected, some laps ahead. -/
theorem Level.ahead (h : l.Level) (hcrc : ∀ j, (l j).crc = []) :
    l.Ahead (l .host).lap fun _ => Tally.new := by
  intro i
  refine ⟨?_, ?_, .inr ⟨rfl, h.last i⟩⟩
  · rw [hcrc]
    rfl
  · cases i with
    | host => exact (Nat.zero_add _).symm
    | guest => exact h.lap.symm.trans (Nat.zero_add _).symm

end Ledger

namespace Server

variable {s s' : Server} {seat : Side → ℕ}

/-- What each INPUT frame of a match adds to `crc_ok` and to `crc_bad`. -/
def rounds (seat : Side → ℕ) : Server → List (Side × List Byte) → List (ℕ × ℕ)
  | _, [] => []
  | s, e :: es =>
    match (inputs seat).step s e with
    | none => []
    | some t =>
      (t.stats.crcOk - s.stats.crcOk, t.stats.crcBad - s.stats.crcBad) :: rounds seat t es

/-- As if the client had just connected. -/
def renewed (s : Server) (c : ℕ) : Server :=
  s.upd c fun o => { o with crc := [], lap := 0, lastTick := none }

/-- As if both had just connected. -/
def renew (s : Server) (seat : Side → ℕ) : Server := (s.renewed (seat .host)).renewed (seat .guest)

/-- An INPUT frame that fits into a frame when it has been padded. -/
def Fits (e : Side × List Byte) : Prop := (ljust gamePayload e.2).length + 1 ≤ 255

instance : DecidablePred Fits := fun _ => inferInstanceAs (Decidable (_ ≤ _))

theorem input_some (h : s.Playing seat) (e : Side × List Byte) :
    ((inputs seat).step s e).isSome ↔ Fits e := by
  have hpartner : ((s.note (.handled (seat e.1) tInput e.2)).obj (seat e.1)).partner =
      some (seat e.1.other) := h.partner e.1
  have hframe : frame? tInput (ljust gamePayload e.2) = if Fits e
      then .ok (frame tInput (ljust gamePayload e.2)) else .error .assertion := rfl
  simp only [inputs, handle, forward, if_pos (show tInput ∈ relayTypes by decide), hpartner, hframe]
  by_cases hfits : Fits e
  · simp only [if_pos hfits]
    exact iff_of_true rfl hfits
  · simp only [if_neg hfits]
    exact iff_of_false (by simp [bind, Except.bind, Except.toOption]) hfits

theorem takeWhile_catchUp (i : Side) :
    (Ledger.catchUp i).takeWhile (fun e => Fits e) = Ledger.catchUp i := by
  cases i with
  | host => rfl
  | guest => rfl

theorem counts_eq {e : Side × List Byte} (h : s.Playing seat)
    (hstep : (inputs seat).step s e = some s') :
    (s'.stats.crcOk - s.stats.crcOk, s'.stats.crcBad - s.stats.crcBad) =
      (s.ledger seat).counts e := by
  obtain ⟨-, -, hstats, -⟩ := input_step h hstep
  rw [hstats, Ledger.counts]
  cases (s.ledger seat).compared e with
  | none => simp [Stats.score]
  | some other =>
    simp only [Stats.score]
    split
    · simp
    · simp

theorem rounds_eq (h : s.Playing seat) (es : List (Side × List Byte)) :
    rounds seat s es = (s.ledger seat).rounds (es.takeWhile fun e => Fits e) := by
  induction es generalizing s with
  | nil => rfl
  | cons e es ih =>
    rw [rounds]
    by_cases hfits : Fits e
    · obtain ⟨t, ht⟩ := Option.isSome_iff_exists.mp ((input_some h e).mpr hfits)
      obtain ⟨hplaying, hledger, -⟩ := input_step h ht
      rw [ht, List.takeWhile_cons_of_pos (by simpa using hfits), Ledger.rounds, ← hledger,
        ← ih hplaying, ← counts_eq h ht]
    · have hnone : (inputs seat).step s e = none := by
        rw [← Option.not_isSome_iff_eq_none, input_some h]
        exact hfits
      rw [hnone, List.takeWhile_cons_of_neg (by simpa using hfits)]
      rfl

theorem Playing.renewed (h : s.Playing seat) (c : ℕ) : (s.renewed c).Playing seat := h.upd c _ rfl

theorem Playing.renew (h : s.Playing seat) : (s.renew seat).Playing seat :=
  (h.renewed _).renewed _

theorem ledger_renew (h : s.Playing seat) (i : Side) : (s.renew seat).ledger seat i = Tally.new := by
  rw [renew, renewed, renewed, ledger_upd h.ne, ledger_upd h.ne]
  cases i with
  | host => rfl
  | guest => rfl

/-! ### How a match starts -/

theorem startOne_tally {me them seed : ℕ} (h : s.startOne me them seed = .ok s') :
    ∀ d, (s'.obj d).partner = (s.obj d).partner ∧
      (s'.obj d).tally = if d = me then { (s.obj d).tally with crc := [] } else (s.obj d).tally := by
  obtain ⟨data, -, h⟩ := bind_ok h
  intro d
  rw [← Except.ok.inj h]
  have hsend : ∀ {β : Type} (g : Client → β), (∀ o data, g { o with tx := data } = g o) →
      g (((s.upd me fun o => { o with crc := [] }).send me data).obj d) =
        g ((s.upd me fun o => { o with crc := [] }).obj d) :=
    fun g hg => obj_upd_quiet _ me d (fun o => { o with tx := o.tx ++ data }) g (hg _ _)
  rw [hsend Client.partner fun _ _ => rfl, hsend Client.tally fun _ _ => rfl, obj_upd]
  split
  · next hd => exact hd ▸ ⟨rfl, rfl⟩
  · exact ⟨rfl, rfl⟩

theorem link_tally (s : Server) (host guest d : ℕ) :
    ((s.link host guest).obj d).tally = (s.obj d).tally := by
  rw [link]
  exact (obj_upd_quiet _ guest d (fun o => { o with partner := some host, role := some 1 })
    Client.tally rfl).trans (obj_upd_quiet s host d
      (fun o => { o with partner := some guest, role := some 0 }) Client.tally rfl)

theorem link_partner {host guest : ℕ} (hne : host ≠ guest) (s : Server) (i : Side) :
    ((s.link host guest).obj (seats host guest i)).partner = some (seats host guest i.other) := by
  rw [← room_partner, room_link]
  cases i with
  | host => exact (Function.update_of_ne hne ..).trans (Function.update_self ..)
  | guest => exact Function.update_self ..

/-- A match starts between partners, with no checksums; laps and last ticks stay as they were. -/
theorem pair_starts {host guest : ℕ} (hne : host ≠ guest) (h : s.pair host guest = .ok s') :
    s'.Playing (seats host guest) ∧ ∀ i, s'.ledger (seats host guest) i =
      { s.ledger (seats host guest) i with crc := [] } := by
  simp only [pair] at h
  obtain ⟨s₂, hstart, h⟩ := bind_ok h
  obtain ⟨s₁, h₁, h₂⟩ := bind_ok hstart
  have hobj : s'.obj = s₂.obj := by
    rw [← Except.ok.inj h]
    rfl
  refine ⟨⟨?_, ?_⟩, ?_⟩
  · intro i
    cases i with
    | host => exact Ne.symm hne
    | guest => exact hne
  · intro i
    rw [hobj, (startOne_tally h₂ _).1, (startOne_tally h₁ _).1, link_partner hne]
  · intro i
    rw [ledger, hobj, (startOne_tally h₂ _).2, (startOne_tally h₁ _).2, link_tally]
    cases i with
    | host => rw [seats, if_neg hne, if_pos rfl]; rfl
    | guest => rw [seats, if_pos rfl, if_neg (Ne.symm hne)]; rfl

end Server

/-- Whatever the two consoles of a new match send, the relay counts what it would count if both had
    just connected, just when before the match their laps agreed and neither last tick was beyond the
    middle of a lap. -/
theorem rounds_renewed_iff {s s' : Server} {host guest : ℕ} (hne : host ≠ guest)
    (h : s.pair host guest = .ok s') :
    (∀ es, Server.rounds (seats host guest) s' es =
        Server.rounds (seats host guest) (s'.renew (seats host guest)) es) ↔
      (s.obj host).lap = (s.obj guest).lap ∧
        ∀ c ∈ [host, guest], ∀ last ∈ (s.obj c).lastTick, last.toNat ≤ 128 := by
  obtain ⟨hplaying, htally⟩ := Server.pair_starts hne h
  have hnew : ∀ i, (s'.ledger (seats host guest) i).crc = [] := fun i => by rw [htally]
  have hlevel : (s'.ledger (seats host guest)).Level ↔ (s.obj host).lap = (s.obj guest).lap ∧
      ∀ c ∈ [host, guest], ∀ last ∈ (s.obj c).lastTick, last.toNat ≤ 128 := by
    simp only [List.forall_mem_cons, List.not_mem_nil, false_imp_iff, implies_true, and_true]
    constructor
    · intro hl
      have hlap := hl.lap
      have hlast := hl.last
      rw [htally, htally] at hlap
      simp only [htally] at hlast
      exact ⟨hlap, hlast .host, hlast .guest⟩
    · rintro ⟨hlap, hhost, hguest⟩
      refine ⟨by rw [htally, htally]; exact hlap, fun i => ?_⟩
      rw [htally]
      cases i with
      | host => exact hhost
      | guest => exact hguest
  have hrenew : (s'.renew (seats host guest)).ledger (seats host guest) = fun _ => Tally.new :=
    funext fun i => Server.ledger_renew hplaying i
  simp only [← hlevel, Server.rounds_eq hplaying, Server.rounds_eq hplaying.renew, hrenew]
  constructor
  · intro heq
    by_contra hnot
    obtain ⟨i, hi⟩ := Ledger.exists_behind hnot
    have hall := heq (Ledger.catchUp i)
    rw [Server.takeWhile_catchUp, Ledger.rounds_catchUp hnew hi] at hall
    exact Ledger.rounds_catchUp_new i hall.symm
  · exact fun hl es => (hl.ahead hnew).rounds _

/-- Two consoles meet; the host reports these ticks, the guest leaves, and a third connects. -/
def widowed (ticks : List Byte) : List Event :=
  twoConsoles ++ (ticks.map fun tick => .recv 0 (frame tInput (checkup tick 0)) 0) ++
    [.recv 1 [] 0, .accept (2, 0) 2]

/-- The host's last tick is in the middle of the lap the third starts on. -/
theorem rounds_renewed_iff_widowed : ∃ s s', relay.run listening (widowed [7, 128]) = some s ∧
    (s.register 2 tvNtsc ['C', 'Y'] s.random).pair 0 2 = .ok s' ∧
    ∀ es, Server.rounds (seats 0 2) s' es =
      Server.rounds (seats 0 2) (s'.renew (seats 0 2)) es := by
  obtain ⟨s, hrun, hsome, hlap, hlast⟩ : ∃ s, relay.run listening (widowed [7, 128]) = some s ∧
      ((s.register 2 tvNtsc ['C', 'Y'] s.random).pair 0 2).toOption.isSome ∧
      ((s.register 2 tvNtsc ['C', 'Y'] s.random).obj 0).lap =
        ((s.register 2 tvNtsc ['C', 'Y'] s.random).obj 2).lap ∧
      ∀ i, ∀ last ∈ ((s.register 2 tvNtsc ['C', 'Y'] s.random).obj (seats 0 2 i)).lastTick,
        last.toNat ≤ 128 :=
    relay.exists_run (by decide +kernel)
  have hlevel : ∀ c ∈ [0, 2], ∀ last ∈
      ((s.register 2 tvNtsc ['C', 'Y'] s.random).obj c).lastTick, last.toNat ≤ 128 :=
    List.forall_mem_cons.mpr ⟨hlast .host, List.forall_mem_singleton.mpr (hlast .guest)⟩
  cases hpair : (s.register 2 tvNtsc ['C', 'Y'] s.random).pair 0 2 with
  | error e =>
    rw [hpair] at hsome
    cases hsome
  | ok s' => exact ⟨s, s', hrun, hpair, (rounds_renewed_iff (by decide) hpair).mpr ⟨hlap, hlevel⟩⟩

/-- The host is a lap ahead of the third, whom it meets: the same tick is not compared any more. -/
theorem lap_outlives_match : relay.init listening ∧
    ∃ s, relay.run listening (widowed [200, 10] ++ [.recv 2 (hello ['C', 'Y']) 0]) = some s ∧
      s.Playing (seats 0 2) ∧
      Server.rounds (seats 0 2) s [(.host, checkup 20 1), (.guest, checkup 20 2)] =
        [(0, 0), (0, 0)] ∧
      Server.rounds (seats 0 2) (s.renew (seats 0 2))
        [(.host, checkup 20 1), (.guest, checkup 20 2)] = [(0, 0), (0, 1)] :=
  ⟨init_listening, relay.exists_run (by decide +kernel)⟩

end VO.Relay
