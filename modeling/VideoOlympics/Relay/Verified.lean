import VideoOlympics.Relay.Laps

/-! How often a tick is verified. A round uses up the other side's checksum, but not the reporter's
    own, which stays to be compared with whatever the other side repeats. A tick is counted once for
    as long as no report finds a checksum under a key its sender has used before; between consoles
    that start on the first lap and never jump by half of one, that is exactly when. -/

namespace VO.Relay

/-- The rounds counted so far. -/
def Stats.rounds (st : Stats) : ℕ := st.crcOk + st.crcBad

theorem Stats.rounds_score (st : Stats) (crc : Byte) (other : Option Byte) :
    (st.score crc other).rounds - st.rounds = if other.isSome then 1 else 0 := by
  cases other with
  | none => exact Nat.sub_self _
  | some other =>
    rw [Stats.score]
    split
    · simp only [Stats.rounds, Option.isSome_some, if_true]
      omega
    · simp only [Stats.rounds, Option.isSome_some, if_true]
      omega

/-- A report, and the key it was kept under. -/
structure Noted where
  report : Report
  key : ℕ
  deriving DecidableEq

/-- A match whose rounds are counted by their true ticks: the server, what has been reported to it,
    and the tick of each round. -/
structure Audit where
  server : Server
  noted : List Noted
  verified : List ℕ

namespace Audit

def reports (a : Audit) : List Report := a.noted.map (·.report)

/-- The key the server keeps a report under. -/
def keyOf (a : Audit) (seat : Side → ℕ) (r : Report) : ℕ :=
  (a.server.obj (seat r.side)).tally.keyAt (r.payload.getD irTick 0)

/-- No tick has been counted twice. -/
def Once (a : Audit) : Prop := a.verified.Nodup

/-- Both sides' ticks start on the first lap, and never jump by half of one. -/
def Strides (a : Audit) : Prop := ∀ i, Steps (ticksOf i a.reports)

/-- The other side's checksum for the key of the report is there, though its sender has used the key
    before, or though the other side has reported the same tick under another key. -/
def Again (seat : Side → ℕ) (a : Audit) (r : Report) : Prop :=
  ((a.server.obj (seat r.side.other)).crc.lookup (a.keyOf seat r)).isSome ∧
    ((∃ n ∈ a.noted, n.report.side = r.side ∧ n.key = a.keyOf seat r) ∨
      ∃ n ∈ a.noted, n.report.side = r.side.other ∧ n.report.tick = r.tick ∧
        n.key ≠ a.keyOf seat r)

instance (a : Audit) : Decidable a.Once := inferInstanceAs (Decidable a.verified.Nodup)

instance (a : Audit) : Decidable a.Strides :=
  inferInstanceAs (Decidable (∀ i, Steps (ticksOf i a.reports)))

instance (seat : Side → ℕ) (a : Audit) (r : Report) : Decidable (a.Again seat r) :=
  inferInstanceAs (Decidable (_ ∧ (_ ∨ _)))

/-- Nothing has been reported. -/
def start (s : Server) : Audit := { server := s, noted := [], verified := [] }

end Audit

/-- Two consoles in a match that has just started report ticks that never decrease, in any order of
    the one's reports and the other's. -/
def audit (seat : Side → ℕ) : Machine Audit Report where
  init a := ∃ s : Server, s.Playing seat ∧ (∀ i, (s.obj (seat i)).crc = []) ∧ a = .start s
  step a r :=
    if r.Sent ∧ ∀ t ∈ ticksOf r.side a.reports, t ≤ r.tick then
      ((Server.inputs seat).step a.server r.event).map fun s =>
        { server := s
          noted := a.noted ++ [⟨r, a.keyOf seat r⟩]
          verified := a.verified ++
            List.replicate (s.stats.rounds - a.server.stats.rounds) r.tick }
    else none

/-! ### One more report -/

variable {seat : Side → ℕ} {a b : Audit} {r : Report} {rs : List Report} {i : Side} {t : ℕ}

/-- The latest tick of a side that never goes back. -/
def Newest (i : Side) (t : ℕ) (rs : List Report) : Prop :=
  t ∈ ticksOf i rs ∧ ∀ u ∈ ticksOf i rs, u ≤ t

theorem newest_self (h : ∀ u ∈ ticksOf r.side rs, u ≤ r.tick) :
    Newest r.side t (rs ++ [r]) ↔ t = r.tick := by
  rw [Newest, ticksOf_concat, if_pos rfl]
  constructor
  · rintro ⟨hmem, hmax⟩
    refine Nat.le_antisymm ?_ (hmax _ (List.mem_append_right _ (List.mem_singleton_self _)))
    rcases List.mem_append.mp hmem with hold | hnew
    · exact h t hold
    · exact (List.mem_singleton.mp hnew).le
  · rintro rfl
    refine ⟨List.mem_append_right _ (List.mem_singleton_self _), ?_⟩
    intro u hu
    rcases List.mem_append.mp hu with hold | hnew
    · exact h u hold
    · exact (List.mem_singleton.mp hnew).le

theorem newest_other : Newest r.side.other t (rs ++ [r]) ↔ Newest r.side.other t rs := by
  rw [Newest, ticksOf_concat, if_neg r.side.other_ne.symm, Newest]

/-- What a report does to the server, and what is counted for it. -/
structure Reported (seat : Side → ℕ) (a : Audit) (r : Report) (b : Audit) : Prop where
  tick : r.payload.getD irTick 0 = BitVec.ofNat 8 r.tick
  later : ∀ t ∈ ticksOf r.side a.reports, t ≤ r.tick
  playing : b.server.Playing seat
  ledger : b.server.ledger seat =
    (a.server.ledger seat).report r.side (BitVec.ofNat 8 r.tick) r.crc
  noted : b.noted = a.noted ++ [⟨r, (a.server.ledger seat r.side).keyAt (BitVec.ofNat 8 r.tick)⟩]
  verified : b.verified = a.verified ++
    if ((a.server.ledger seat).awaited r.side (BitVec.ofNat 8 r.tick)).isSome then [r.tick] else []

theorem audit_step (h : a.server.Playing seat) (hstep : (audit seat).step a r = some b) :
    Reported seat a r b := by
  simp only [audit] at hstep
  split at hstep
  swap
  · cases hstep
  next hguard =>
  obtain ⟨⟨hlong, htick⟩, hlater⟩ := hguard
  obtain ⟨s, hs, rfl⟩ := Option.map_eq_some_iff.mp hstep
  obtain ⟨hplaying, hl, hstats, -⟩ := Server.input_step h hs
  rw [Ledger.hear, Report.event, if_pos hlong, htick] at hl
  rw [Ledger.compared, Report.event, if_pos hlong, htick] at hstats
  refine ⟨htick, hlater, hplaying, hl, ?_, ?_⟩
  · rw [← htick]
    rfl
  · dsimp only
    rw [hstats, Stats.rounds_score]
    split
    · rfl
    · rfl

theorem Reported.reports (h : Reported seat a r b) : b.reports = a.reports ++ [r] := by
  rw [Audit.reports, h.noted, List.map_append]
  rfl

theorem Reported.keyOf (h : Reported seat a r b) :
    a.keyOf seat r = (a.server.ledger seat r.side).keyAt (BitVec.ofNat 8 r.tick) := by
  rw [Audit.keyOf, h.tick]
  rfl

theorem Reported.mem_noted (h : Reported seat a r b) {n : Noted} (hn : n ∈ a.noted) :
    n ∈ b.noted := by
  rw [h.noted]
  exact List.mem_append_left _ hn

theorem Reported.self_mem (h : Reported seat a r b) : ⟨r, a.keyOf seat r⟩ ∈ b.noted := by
  rw [h.noted, h.keyOf]
  exact List.mem_append_right _ (List.mem_singleton_self _)

/-- The report is counted if the other side's checksum is there. -/
theorem Reported.counted (h : Reported seat a r b)
    (hkey : a.keyOf seat r ∈ Dict.keys (a.server.ledger seat r.side.other).crc) :
    b.verified = a.verified ++ [r.tick] ∧
      b.server.ledger seat r.side =
        (a.server.ledger seat r.side).note (BitVec.ofNat 8 r.tick) r.crc ∧
      b.server.ledger seat r.side.other =
        (a.server.ledger seat r.side.other).forget (a.keyOf seat r) := by
  have hsome : ((a.server.ledger seat).awaited r.side (BitVec.ofNat 8 r.tick)).isSome := by
    rw [Ledger.awaited, ← h.keyOf]
    exact Dict.lookup_isSome.mpr hkey
  obtain ⟨hmine, htheirs⟩ := Ledger.report_paired hsome r.crc
  refine ⟨?_, ?_, ?_⟩
  · rw [h.verified, if_pos hsome]
  · rw [h.ledger, hmine]
  · rw [h.ledger, htheirs, h.keyOf]

/-- And it is not, if it is not. -/
theorem Reported.uncounted (h : Reported seat a r b)
    (hkey : a.keyOf seat r ∉ Dict.keys (a.server.ledger seat r.side.other).crc) :
    b.verified = a.verified ∧
      b.server.ledger seat r.side =
        ((a.server.ledger seat r.side).note (BitVec.ofNat 8 r.tick) r.crc).trim ∧
      b.server.ledger seat r.side.other = a.server.ledger seat r.side.other := by
  have hnone : (a.server.ledger seat).awaited r.side (BitVec.ofNat 8 r.tick) = none := by
    rw [Ledger.awaited, ← h.keyOf]
    exact Dict.lookup_eq_none.mpr hkey
  obtain ⟨hmine, htheirs⟩ := Ledger.report_unpaired hnone r.crc
  refine ⟨?_, ?_, ?_⟩
  · rw [h.verified, hnone]
    exact List.append_nil _
  · rw [h.ledger, hmine]
  · rw [h.ledger, htheirs]

/-! ### Why a tick is counted -/

/-- What is known of a match, whatever its ticks skip. -/
structure Audit.Sound (seat : Side → ℕ) (a : Audit) : Prop where
  playing : a.server.Playing seat
  kept : ∀ i, ∀ k ∈ Dict.keys (a.server.ledger seat i).crc,
    ∃ n ∈ a.noted, n.report.side = i ∧ n.key = k
  verified : ∀ t ∈ a.verified, ∃ n ∈ a.noted, n.report.tick = t ∧
    ∃ m ∈ a.noted, m.report.side = n.report.side.other ∧ m.key = n.key
  current : ∀ n ∈ a.noted, Newest n.report.side n.report.tick a.reports →
    (a.server.ledger seat n.report.side).last = some (BitVec.ofNat 8 n.report.tick) ∧
      n.key = (a.server.ledger seat n.report.side).lap * 256 +
        (BitVec.ofNat 8 n.report.tick).toNat

/-- A tick that is repeated stays on its lap. -/
theorem Tally.lapAt_same {o : Tally} {tick : Byte} (h : o.last = some tick) :
    o.lapAt tick = o.lap := by
  rw [Tally.lapAt, h]
  exact if_neg fun hw => absurd hw.2.2 (BitVec.lt_irrefl tick)

theorem Audit.mem_reports {n : Noted} (hn : n ∈ a.noted) :
    n.report.tick ∈ ticksOf n.report.side a.reports :=
  mem_ticksOf.mpr ⟨n.report, List.mem_map_of_mem hn, rfl, rfl⟩

/-- A side that repeats a tick repeats its key. -/
theorem Audit.Sound.key_eq (ha : a.Sound seat) (h : Reported seat a r b) {n : Noted}
    (hn : n ∈ a.noted) (hside : n.report.side = r.side) (htick : n.report.tick = r.tick) :
    (a.server.ledger seat r.side).last = some (BitVec.ofNat 8 r.tick) ∧
      n.key = a.keyOf seat r := by
  have hnewest : Newest n.report.side n.report.tick a.reports := by
    refine ⟨Audit.mem_reports hn, ?_⟩
    rw [hside, htick]
    exact h.later
  obtain ⟨hlast, hkey⟩ := ha.current n hn hnewest
  rw [hside, htick] at hlast hkey
  refine ⟨hlast, ?_⟩
  rw [h.keyOf, Tally.keyAt, Tally.lapAt_same hlast]
  exact hkey

/-- The lap and the last tick of a side, after a report. -/
theorem Reported.clock (h : Reported seat a r b) :
    (b.server.ledger seat r.side).lap =
        (a.server.ledger seat r.side).lapAt (BitVec.ofNat 8 r.tick) ∧
      (b.server.ledger seat r.side).last = some (BitVec.ofNat 8 r.tick) ∧
      (b.server.ledger seat r.side.other).lap = (a.server.ledger seat r.side.other).lap ∧
      (b.server.ledger seat r.side.other).last = (a.server.ledger seat r.side.other).last := by
  by_cases hkey : a.keyOf seat r ∈ Dict.keys (a.server.ledger seat r.side.other).crc
  · obtain ⟨-, hmine, htheirs⟩ := h.counted hkey
    rw [hmine, htheirs]
    exact ⟨rfl, rfl, rfl, rfl⟩
  · obtain ⟨-, hmine, htheirs⟩ := h.uncounted hkey
    rw [hmine, htheirs]
    exact ⟨rfl, rfl, rfl, rfl⟩

/-- What a side keeps after a report, it kept before, or the report is its own. -/
theorem Reported.keys (h : Reported seat a r b) {k : ℕ}
    (hk : k ∈ Dict.keys (b.server.ledger seat i).crc) :
    k ∈ Dict.keys (a.server.ledger seat i).crc ∨ i = r.side ∧ k = a.keyOf seat r := by
  have hnote : k ∈ Dict.keys ((a.server.ledger seat r.side).note
      (BitVec.ofNat 8 r.tick) r.crc).crc →
      k ∈ Dict.keys (a.server.ledger seat r.side).crc ∨ k = a.keyOf seat r := by
    rw [h.keyOf]
    exact Dict.mem_keys_set.mp
  by_cases hkey : a.keyOf seat r ∈ Dict.keys (a.server.ledger seat r.side.other).crc
  · obtain ⟨-, hmine, htheirs⟩ := h.counted hkey
    rcases r.side.eq_or_other i with rfl | rfl
    · rw [hmine] at hk
      exact (hnote hk).imp_right fun h => ⟨rfl, h⟩
    · rw [htheirs] at hk
      exact .inl (Dict.mem_keys_filter.mp hk).1
  · obtain ⟨-, hmine, htheirs⟩ := h.uncounted hkey
    rcases r.side.eq_or_other i with rfl | rfl
    · rw [hmine] at hk
      refine (hnote ?_).imp_right fun h => ⟨rfl, h⟩
      rw [Tally.trim, Dict.keys_youngest] at hk
      exact List.mem_of_mem_drop hk
    · rw [htheirs] at hk
      exact .inl hk

theorem Audit.Sound.step (ha : a.Sound seat) (h : Reported seat a r b) : b.Sound seat := by
  refine ⟨h.playing, ?_, ?_, ?_⟩
  · intro i k hk
    rcases h.keys hk with hold | ⟨rfl, rfl⟩
    · obtain ⟨n, hn, hside, hkey⟩ := ha.kept i k hold
      exact ⟨n, h.mem_noted hn, hside, hkey⟩
    · exact ⟨_, h.self_mem, rfl, rfl⟩
  · intro t ht
    have hold : t ∈ a.verified → ∃ n ∈ b.noted, n.report.tick = t ∧
        ∃ m ∈ b.noted, m.report.side = n.report.side.other ∧ m.key = n.key := by
      intro ht
      obtain ⟨n, hn, htick, m, hm, hm'⟩ := ha.verified t ht
      exact ⟨n, h.mem_noted hn, htick, m, h.mem_noted hm, hm'⟩
    by_cases hkey : a.keyOf seat r ∈ Dict.keys (a.server.ledger seat r.side.other).crc
    · rw [(h.counted hkey).1] at ht
      rcases List.mem_append.mp ht with ht | ht
      · exact hold ht
      · obtain rfl := List.mem_singleton.mp ht
        obtain ⟨m, hm, hm'⟩ := ha.kept _ _ hkey
        exact ⟨_, h.self_mem, rfl, m, h.mem_noted hm, hm'⟩
    · rw [(h.uncounted hkey).1] at ht
      exact hold ht
  · obtain ⟨hlap, hlast, hlap', hlast'⟩ := h.clock
    intro n hn hnewest
    rw [h.reports] at hnewest
    rw [h.noted] at hn
    rcases List.mem_append.mp hn with hn | hn
    · rcases r.side.eq_or_other n.report.side with hside | hside
      · -- The newest tick is the one just reported, so this is a repeat of it.
        rw [hside] at hnewest
        have htick := (newest_self h.later).mp hnewest
        obtain ⟨hsame, hkey⟩ := ha.key_eq h hn hside htick
        rw [hside, hlap, hlast, htick, hkey, h.keyOf]
        exact ⟨rfl, rfl⟩
      · rw [hside] at hnewest
        have hcurrent := ha.current n hn (by rw [hside]; exact newest_other.mp hnewest)
        rw [hside] at hcurrent ⊢
        rw [hlap', hlast']
        exact hcurrent
    · obtain rfl := List.mem_singleton.mp hn
      rw [hlap, hlast]
      exact ⟨rfl, rfl⟩

/-- A tick that is counted again is one whose report finds a checksum under a key used before. -/
theorem Audit.Sound.once (ha : a.Sound seat) (h : Reported seat a r b) (honce : a.Once)
    (hfresh : ¬ a.Again seat r) : b.Once := by
  rw [Audit.Once] at honce ⊢
  by_cases hkey : a.keyOf seat r ∈ Dict.keys (a.server.ledger seat r.side.other).crc
  · rw [(h.counted hkey).1, List.nodup_append_comm, List.singleton_append, List.nodup_cons]
    refine ⟨fun hmem => hfresh ⟨Dict.lookup_isSome.mpr hkey, ?_⟩, honce⟩
    obtain ⟨n, hn, htick, m, hm, hmside, hmkey⟩ := ha.verified r.tick hmem
    rcases r.side.eq_or_other n.report.side with hside | hside
    · exact .inl ⟨n, hn, hside, (ha.key_eq h hn hside htick).2⟩
    · by_cases hsame : n.key = a.keyOf seat r
      · refine .inl ⟨m, hm, ?_, hmkey.trans hsame⟩
        rw [hmside, hside, Side.other_other]
      · exact .inr ⟨n, hn, hside, htick, hsame⟩
  · rw [(h.uncounted hkey).1]
    exact honce

/-! ### Consoles that start on the first lap -/

/-- What is known of a match in which every report is kept under its true tick. -/
structure Audit.Settled (seat : Side → ℕ) (a : Audit) : Prop where
  sound : a.Sound seat
  kept : ∀ i, Kept a.reports i (a.server.ledger seat i)
  key : ∀ n ∈ a.noted, n.key = n.report.tick
  waits : ∀ i t, Newest i t a.reports →
    t ∈ Dict.keys (a.server.ledger seat i).crc ∨ t ∈ a.verified
  counted : ∀ i t, Newest i.other t a.reports → t ∈ Dict.keys (a.server.ledger seat i).crc →
    t ∈ a.verified

theorem Audit.Settled.keyOf (ha : a.Settled seat) (h : Reported seat a r b) (hb : b.Strides) :
    a.keyOf seat r = r.tick := by
  have hsteps := hb r.side
  rw [h.reports] at hsteps
  rw [h.keyOf]
  exact (ha.kept r.side).keyAt hsteps

theorem Reported.mem_verified (h : Reported seat a r b) (ht : t ∈ a.verified) : t ∈ b.verified := by
  rw [h.verified]
  exact List.mem_append_left _ ht

theorem Audit.Settled.step (ha : a.Settled seat) (h : Reported seat a r b) (hb : b.Strides) :
    b.Settled seat := by
  have hkeyOf := ha.keyOf h hb
  have hkept : ∀ i, Kept b.reports i (b.server.ledger seat i) := by
    intro i
    have hsteps : ∀ i, Steps (ticksOf i (a.reports ++ [r])) := h.reports ▸ hb
    rw [h.reports, h.ledger]
    exact report_kept ha.kept hsteps i
  refine ⟨ha.sound.step h, hkept, ?_, ?_, ?_⟩
  · intro n hn
    rw [h.noted, ← h.keyOf] at hn
    rcases List.mem_append.mp hn with hn | hn
    · exact ha.key n hn
    · obtain rfl := List.mem_singleton.mp hn
      exact hkeyOf
  · intro i t hnewest
    rcases r.side.eq_or_other i with rfl | rfl
    · rw [h.reports] at hnewest
      obtain rfl := (newest_self h.later).mp hnewest
      refine .inl ((hkept r.side).waiting _ ?_)
      exact ⟨a.reports, r, [], h.reports, ⟨rfl, rfl⟩, by simp, by simp [ticksOf]⟩
    · rw [h.reports] at hnewest
      rcases ha.waits _ t (newest_other.mp hnewest) with hmem | hdone
      · by_cases hkey : a.keyOf seat r ∈ Dict.keys (a.server.ledger seat r.side.other).crc
        · obtain ⟨hverified, -, htheirs⟩ := h.counted hkey
          by_cases htick : t = a.keyOf seat r
          · refine .inr ?_
            rw [hverified, htick, hkeyOf]
            exact List.mem_append_right _ (List.mem_singleton_self _)
          · refine .inl ?_
            rw [htheirs]
            exact Dict.mem_keys_filter.mpr ⟨hmem, htick⟩
        · rw [(h.uncounted hkey).2.2]
          exact .inl hmem
      · exact .inr (h.mem_verified hdone)
  · intro i t hnewest hmem
    rcases r.side.eq_or_other i with rfl | rfl
    · rw [h.reports] at hnewest
      have hnewest := newest_other.mp hnewest
      rcases h.keys hmem with hold | ⟨-, rfl⟩
      · exact h.mem_verified (ha.counted _ t hnewest hold)
      · -- Both sides have come to this tick: the other's checksum is either there, or used up.
        rcases ha.waits _ _ hnewest with htheirs | hdone
        · rw [(h.counted htheirs).1, hkeyOf]
          exact List.mem_append_right _ (List.mem_singleton_self _)
        · exact h.mem_verified hdone
    · rw [Side.other_other, h.reports] at hnewest
      obtain rfl := (newest_self h.later).mp hnewest
      by_cases hkey : a.keyOf seat r ∈ Dict.keys (a.server.ledger seat r.side.other).crc
      · rw [(h.counted hkey).2.2] at hmem
        exact absurd hkeyOf.symm (Dict.mem_keys_filter.mp hmem).2
      · rw [(h.uncounted hkey).2.2, ← hkeyOf] at hmem
        exact absurd hmem hkey

/-- There a report that finds a checksum under a key used before counts its tick again. -/
theorem Audit.Settled.twice (ha : a.Settled seat) (h : Reported seat a r b) (hb : b.Strides)
    (hagain : a.Again seat r) : ¬ b.Once := by
  have hkeyOf := ha.keyOf h hb
  obtain ⟨hfound, hbefore⟩ := hagain
  have hkey : a.keyOf seat r ∈ Dict.keys (a.server.ledger seat r.side.other).crc :=
    Dict.lookup_isSome.mp hfound
  have hrepeat : r.tick ∈ ticksOf r.side a.reports := by
    rcases hbefore with ⟨n, hn, hside, hsame⟩ | ⟨n, hn, -, htick, hother⟩
    · have hmem := Audit.mem_reports hn
      rwa [hside, ← ha.key n hn, hsame, hkeyOf] at hmem
    · exact absurd ((ha.key n hn).trans (htick.trans hkeyOf.symm)) hother
  have hdone : r.tick ∈ a.verified := by
    refine ha.counted r.side.other r.tick ?_ (hkeyOf ▸ hkey)
    rw [Side.other_other]
    exact ⟨hrepeat, h.later⟩
  rw [Audit.Once, (h.counted hkey).1, List.nodup_append_comm]
  exact fun hnodup => (List.nodup_cons.mp hnodup).1 hdone

/-! ### Matches -/

theorem sound_start {s : Server} (h : s.Playing seat) (hnew : ∀ i, (s.obj (seat i)).crc = []) :
    (Audit.start s).Sound seat where
  playing := h
  kept i k hk := by
    have hempty : (s.ledger seat i).crc = [] := hnew i
    rw [Audit.start, hempty] at hk
    cases hk
  verified t ht := by cases ht
  current n hn := by cases hn

theorem settled_start {s : Server} (h : s.Playing seat)
    (hnew : ∀ i, (s.obj (seat i)).tally = Tally.new) : (Audit.start s).Settled seat where
  sound := sound_start h fun i => congrArg Tally.crc (hnew i)
  kept i := by
    have hi : s.ledger seat i = Tally.new := hnew i
    rw [Audit.start, hi]
    exact kept_new i
  key n hn := by cases hn
  waits i t ht := by cases ht.1
  counted i t ht := by cases ht.1

/-- In a match of two consoles whose ticks never decrease, no tick is counted twice if no report
    finds the other side's checksum under a key its sender has used before, or for a tick the other
    side has reported under another key; and where both start on the first lap and never jump by half
    of one, only if. -/
theorem verified_once {a : Audit} {rs : List Report} (h : (audit seat).init a) :
    ((audit seat).EachStep (fun a r => ¬ a.Again seat r) a rs →
      (audit seat).Throughout Audit.Once a rs) ∧
    ((∀ i, (a.server.obj (seat i)).tally = Tally.new) →
      (audit seat).Throughout Audit.Strides a rs →
      ((audit seat).Throughout Audit.Once a rs ↔
        (audit seat).EachStep (fun a r => ¬ a.Again seat r) a rs)) := by
  obtain ⟨s, hplaying, hnew, rfl⟩ := h
  have honce : (Audit.start s).Once := List.nodup_nil
  refine ⟨fun hclean => ?_, fun hfirst hstrides => ?_⟩
  · refine (audit seat).throughout_of_eachStep (J := fun a => a.Sound seat ∧ a.Once)
      (fun a ha => ha.2) ?_ ⟨sound_start hplaying hnew, honce⟩ hclean
    rintro a r b ⟨ha, honce⟩ hfresh hstep
    have h := audit_step ha.playing hstep
    exact ⟨ha.step h, ha.once h honce hfresh⟩
  · refine (audit seat).throughout_iff_eachStep_good (J := fun a => a.Settled seat)
      ?_ ?_ hstrides (settled_start hplaying hfirst) honce
    · intro a r b ha hb hstep
      exact ha.step (audit_step ha.sound.playing hstep) hb
    · intro a r b ha hb honce hstep
      have h := audit_step ha.sound.playing hstep
      exact ⟨fun hb' hagain => ha.twice h hb hagain hb', ha.sound.once h honce⟩

/-- Two consoles report a tick, and the first its next tick. -/
def abreast : List Report :=
  [⟨.host, 255, checkup 255 1⟩, ⟨.host, 255, checkup 255 1⟩, ⟨.guest, 255, checkup 255 1⟩,
    ⟨.host, 256, checkup 0 2⟩]

theorem verified_once_abreast : ∃ s₀ a, relay.run listening twoConsoles = some s₀ ∧
    (audit (seats 0 1)).run (.start s₀) abreast = some a ∧ a.verified = [255] ∧
    (audit (seats 0 1)).Throughout Audit.Once (.start s₀) abreast := by
  obtain ⟨s₀, hrun, h₀, hnew, hclean, hsome⟩ : ∃ s₀, relay.run listening twoConsoles = some s₀ ∧
      s₀.Playing (seats 0 1) ∧ (∀ i, (s₀.obj (seats 0 1 i)).crc = []) ∧
      (audit (seats 0 1)).EachStep (fun a r => ¬ a.Again (seats 0 1) r) (.start s₀) abreast ∧
      ((audit (seats 0 1)).run (.start s₀) abreast).any (·.verified = [255]) = true :=
    relay.exists_run (by decide +kernel)
  obtain ⟨a, ha, hverified⟩ := (audit (seats 0 1)).exists_run hsome
  exact ⟨s₀, a, hrun, ha, hverified, (verified_once ⟨s₀, h₀, hnew, rfl⟩).1 hclean⟩

/-- One side repeats a tick that both have reported, and it is counted a second time. -/
def echoed : List Report :=
  [⟨.host, 0, checkup 0 1⟩, ⟨.guest, 0, checkup 0 1⟩, ⟨.host, 0, checkup 0 1⟩]

theorem verified_twice : ∃ s₀ a, relay.init listening ∧
    relay.run listening twoConsoles = some s₀ ∧ (audit (seats 0 1)).init (.start s₀) ∧
    (audit (seats 0 1)).run (.start s₀) echoed = some a ∧ a.verified = [0, 0] := by
  obtain ⟨s₀, hrun, h₀, hnew, hsome⟩ : ∃ s₀, relay.run listening twoConsoles = some s₀ ∧
      s₀.Playing (seats 0 1) ∧ (∀ i, (s₀.obj (seats 0 1 i)).crc = []) ∧
      ((audit (seats 0 1)).run (.start s₀) echoed).any (·.verified = [0, 0]) = true :=
    relay.exists_run (by decide +kernel)
  obtain ⟨a, ha, hverified⟩ := (audit (seats 0 1)).exists_run hsome
  exact ⟨s₀, a, init_listening, hrun, ⟨s₀, h₀, hnew, rfl⟩, ha, hverified⟩

end VO.Relay
