import Mathlib.Data.List.Chain
import Mathlib.Data.List.Dedup
import Mathlib.Data.List.Induction
import Mathlib.Data.List.Perm.Subperm
import VideoOlympics.Relay.Checksums

/-! The laps of a match. A tick on the wire is eight bits, and the relay counts their laps. Between
    two consoles whose ticks do not go back, start on the first lap and never jump by half of one,
    the key is the tick itself: what is compared was reported for the same tick, and a checksum waits
    for its counterpart until eight newer ones have been stored behind it. -/

namespace VO.Relay

/-- A report as its sender means it: the true tick, and the payload it is sent in. -/
structure Report where
  side : Side
  tick : ℕ
  payload : List Byte
  deriving DecidableEq

namespace Report

def crc (r : Report) : Byte := r.payload.getD irCrc 0

/-- The event of the server's. -/
def event (r : Report) : Side × List Byte := (r.side, r.payload)

/-- The payload holds a checksum, and its tick is the true one's low byte. -/
def Sent (r : Report) : Prop :=
  irCrc < r.payload.length ∧ r.payload.getD irTick 0 = BitVec.ofNat 8 r.tick

instance (r : Report) : Decidable r.Sent := inferInstanceAs (Decidable (_ ∧ _))

end Report

/-- The true ticks of one side, in the order it reports them. -/
def ticksOf (i : Side) (rs : List Report) : List ℕ := (rs.filter (·.side = i)).map (·.tick)

/-- The ticks start on the first lap, never go back, and never jump by half a lap. -/
def Steps (ts : List ℕ) : Prop :=
  (∀ t ∈ ts.head?, t < 256) ∧ ts.IsChain fun t u => t ≤ u ∧ u < t + 128

instance (ts : List ℕ) : Decidable (Steps ts) := inferInstanceAs (Decidable (_ ∧ _))

/-- The latest checksum of one side for a tick. -/
def latest (i : Side) (t : ℕ) (rs : List Report) : Option Byte :=
  (rs.reverse.find? fun r => r.side = i ∧ r.tick = t).map Report.crc

/-- One side has reported a tick, not eight newer ones since, and the other side has not used it up
    since. -/
def Waiting (i : Side) (t : ℕ) (rs : List Report) : Prop :=
  ∃ before r after, rs = before ++ r :: after ∧ (r.side = i ∧ r.tick = t) ∧
    (∀ q ∈ after, q.side = i.other → q.tick ≠ t) ∧
    ((ticksOf i after).filter (t < ·)).dedup.length < 8

/-! ### One more report -/

variable {i : Side} {t : ℕ} {r : Report} {rs : List Report}

theorem mem_ticksOf : t ∈ ticksOf i rs ↔ ∃ r ∈ rs, r.side = i ∧ r.tick = t := by
  simp only [ticksOf, List.mem_map, List.mem_filter, decide_eq_true_eq, and_assoc]

theorem ticksOf_concat (i : Side) (rs : List Report) (r : Report) :
    ticksOf i (rs ++ [r]) = if r.side = i then ticksOf i rs ++ [r.tick] else ticksOf i rs := by
  rw [ticksOf, List.filter_append, List.map_append]
  by_cases h : r.side = i
  · rw [if_pos h, List.filter_cons_of_pos (by simpa using h)]
    rfl
  · rw [if_neg h, List.filter_cons_of_neg (by simpa using h)]
    exact List.append_nil _

theorem latest_concat (i : Side) (t : ℕ) (rs : List Report) (r : Report) :
    latest i t (rs ++ [r]) = if r.side = i ∧ r.tick = t then some r.crc else latest i t rs := by
  rw [latest, List.reverse_concat, List.find?_cons]
  by_cases h : r.side = i ∧ r.tick = t
  · simp [h]
  · simp [h, latest]

/-- Whatever is the latest was reported. -/
theorem latest_some {v : Byte} (h : latest i t rs = some v) :
    ∃ before r after, rs = before ++ r :: after ∧ (r.side = i ∧ r.tick = t) ∧ r.crc = v ∧
      ∀ q ∈ after, ¬ (q.side = i ∧ q.tick = t) := by
  induction rs using List.reverseRecOn with
  | nil => cases h
  | append_singleton rs r ih =>
    rw [latest_concat] at h
    split at h
    · next hr => exact ⟨rs, r, [], rfl, hr, Option.some.inj h, by simp⟩
    · next hr =>
      obtain ⟨before, q, after, rfl, hq, hv, hlater⟩ := ih h
      refine ⟨before, q, after ++ [r], by simp, hq, hv, ?_⟩
      intro p hp
      rcases List.mem_append.mp hp with hp | hp
      · exact hlater p hp
      · rwa [List.mem_singleton.mp hp]

theorem mem_ticksOf_of_latest {v : Byte} (h : latest i t rs = some v) : t ∈ ticksOf i rs := by
  obtain ⟨before, r, after, rfl, hr, -⟩ := latest_some h
  exact mem_ticksOf.mpr ⟨r, List.mem_append_right _ List.mem_cons_self, hr⟩

theorem Steps.of_append {ts us : List ℕ} (h : Steps (ts ++ us)) : Steps ts := by
  refine ⟨?_, h.2.left_of_append⟩
  cases ts with
  | nil => simp
  | cons t ts => exact h.1

theorem Steps.sorted {ts : List ℕ} (h : Steps ts) : ts.Pairwise (· ≤ ·) :=
  List.isChain_iff_pairwise.mp (h.2.imp fun _ _ h => h.1)

/-- The tick after the last. -/
theorem Steps.concat {ts : List ℕ} (h : Steps (ts ++ [t])) :
    (ts.getLast? = none ∧ t < 256) ∨ ∃ m ∈ ts.getLast?, m ≤ t ∧ t < m + 128 := by
  rcases List.eq_nil_or_concat ts with rfl | ⟨us, m, rfl⟩
  · exact .inl ⟨rfl, h.1 t rfl⟩
  · refine .inr ⟨m, by simp, ?_⟩
    have hchain := h.2
    rw [List.concat_eq_append, List.append_assoc] at hchain
    simpa using hchain.right_of_append

/-! ### The key -/

/-- The lap and the tick last reported, of a side whose last true tick was this. -/
structure Tally.On (o : Tally) (m : Option ℕ) : Prop where
  lap : o.lap = m.getD 0 / 256
  last : o.last = m.map (BitVec.ofNat 8)

/-- Across any number of wraps, the lap is that of the true tick. -/
theorem Tally.On.lapAt {o : Tally} {m : Option ℕ} (h : o.On m)
    (ht : (m = none ∧ t < 256) ∨ ∃ u ∈ m, u ≤ t ∧ t < u + 128) :
    o.lapAt (BitVec.ofNat 8 t) = t / 256 := by
  rcases ht with ⟨rfl, ht⟩ | ⟨u, hu, hle, hlt⟩
  · rw [Tally.lapAt, h.last, h.lap, Option.getD_none]
    dsimp only [Option.map_none]
    omega
  · obtain rfl : m = some u := hu
    rw [Tally.lapAt, h.last, h.lap, Option.getD_some]
    simp only [Option.map_some, BitVec.toNat_sub, BitVec.toNat_ofNat, BitVec.lt_def]
    split
    · omega
    · omega

theorem Tally.On.keyAt {o : Tally} {m : Option ℕ} (h : o.On m)
    (ht : (m = none ∧ t < 256) ∨ ∃ u ∈ m, u ≤ t ∧ t < u + 128) :
    o.keyAt (BitVec.ofNat 8 t) = t := by
  rw [Tally.keyAt, h.lapAt ht, BitVec.toNat_ofNat]
  omega

/-! ### What the tallies hold -/

/-- What a side's tally holds when these reports have been made. -/
structure Kept (rs : List Report) (i : Side) (o : Tally) : Prop where
  on : o.On (ticksOf i rs).getLast?
  sorted : (Dict.keys o.crc).Pairwise (· < ·)
  latest : ∀ t v, o.crc.lookup t = some v → latest i t rs = some v
  waiting : ∀ t, Waiting i t rs → t ∈ Dict.keys o.crc

theorem Kept.reported {o : Tally} (h : Kept rs i o) (ht : t ∈ Dict.keys o.crc) :
    t ∈ ticksOf i rs := by
  obtain ⟨v, hv⟩ := Option.isSome_iff_exists.mp (Dict.lookup_isSome.mpr ht)
  exact mem_ticksOf_of_latest (h.latest t v hv)

/-- A tick waits through a report that is for it, or one that does not use it up. -/
theorem Waiting.of_concat (h : Waiting i t (rs ++ [r])) :
    (r.side = i ∧ r.tick = t) ∨ Waiting i t rs ∧ (r.side = i.other → r.tick ≠ t) := by
  obtain ⟨before, q, after, hsplit, hq, hunused, hfew⟩ := h
  rcases List.eq_nil_or_concat after with rfl | ⟨after, p, rfl⟩
  · obtain ⟨rfl, hr⟩ := List.append_inj' hsplit rfl
    exact .inl (List.head_eq_of_cons_eq hr ▸ hq)
  · rw [List.concat_eq_append] at hsplit hunused hfew
    have hsplit' : rs ++ [r] = (before ++ q :: after) ++ [p] := by simpa using hsplit
    obtain ⟨rfl, hrp⟩ := List.append_inj' hsplit' rfl
    obtain rfl : r = p := List.head_eq_of_cons_eq hrp
    refine .inr ⟨⟨before, q, after, rfl, hq, ?_, ?_⟩, ?_⟩
    · exact fun p hp => hunused p (List.mem_append_left _ hp)
    · refine Nat.lt_of_le_of_lt ?_ hfew
      rw [ticksOf_concat]
      split
      · rw [List.filter_append]
        refine List.Subperm.length_le (List.subperm_of_subset (List.nodup_dedup _) ?_)
        intro k hk
        rw [List.mem_dedup] at hk ⊢
        exact List.mem_append_left _ hk
      · exact Nat.le_refl _
    · exact hunused r (List.mem_append_right _ (List.mem_singleton_self r))

/-- Of the ticks reported, fewer than eight are newer than one that waits. -/
theorem Waiting.few (h : Waiting i t rs) (hsteps : Steps (ticksOf i rs)) {ks : List ℕ}
    (hks : ks.Nodup) (hmem : ∀ k ∈ ks, t < k ∧ k ∈ ticksOf i rs) : ks.length < 8 := by
  obtain ⟨before, q, after, rfl, hq, -, hfew⟩ := h
  refine Nat.lt_of_le_of_lt ?_ hfew
  refine (List.subperm_of_subset hks ?_).length_le
  intro k hk
  obtain ⟨hlt, hrep⟩ := hmem k hk
  have happ : ticksOf i (before ++ q :: after) =
      ticksOf i before ++ t :: ticksOf i after := by
    simp [ticksOf, hq.1, hq.2]
  have hsorted := hsteps.sorted
  rw [happ] at hrep hsorted
  rw [List.mem_dedup, List.mem_filter]
  refine ⟨?_, decide_eq_true hlt⟩
  rcases List.mem_append.mp hrep with hold | hnew
  · have := (List.pairwise_append.mp hsorted).2.2 k hold t List.mem_cons_self
    omega
  · rcases List.mem_cons.mp hnew with rfl | hnew
    · exact absurd hlt (Nat.lt_irrefl _)
    · exact hnew

theorem Steps.last (hsteps : Steps (ticksOf r.side (rs ++ [r]))) :
    ((ticksOf r.side rs).getLast? = none ∧ r.tick < 256) ∨
      ∃ m ∈ (ticksOf r.side rs).getLast?, m ≤ r.tick ∧ r.tick < m + 128 := by
  rw [ticksOf_concat, if_pos rfl] at hsteps
  exact hsteps.concat

/-- A report is kept under its true tick. -/
theorem Kept.keyAt {o : Tally} (h : Kept rs r.side o)
    (hsteps : Steps (ticksOf r.side (rs ++ [r]))) : o.keyAt (BitVec.ofNat 8 r.tick) = r.tick :=
  h.on.keyAt hsteps.last

/-- The side that reports notes it. -/
theorem Kept.note {o : Tally} (h : Kept rs r.side o)
    (hsteps : Steps (ticksOf r.side (rs ++ [r]))) :
    Kept (rs ++ [r]) r.side (o.note (BitVec.ofNat 8 r.tick) r.crc) := by
  have hkey := h.keyAt hsteps
  refine ⟨⟨?_, ?_⟩, ?_, ?_, ?_⟩
  · rw [Tally.note_lap, h.on.lapAt hsteps.last, ticksOf_concat, if_pos rfl]
    simp
  · rw [Tally.note_last, ticksOf_concat, if_pos rfl]
    simp
  · rw [Tally.note, hkey]
    refine Dict.sorted_set h.sorted ?_ _
    intro j hj
    have hsorted := hsteps.sorted
    rw [ticksOf_concat, if_pos rfl] at hsorted
    exact (List.pairwise_append.mp hsorted).2.2 j (h.reported hj) _ (List.mem_singleton_self _)
  · intro t v hv
    rw [Tally.note, hkey] at hv
    rw [latest_concat]
    by_cases ht : r.tick = t
    · subst ht
      rw [Dict.lookup_set_self] at hv
      rw [if_pos ⟨rfl, rfl⟩, hv]
    · rw [Dict.lookup_set_of_ne (Ne.symm ht)] at hv
      rw [if_neg fun h => ht h.2]
      exact h.latest t v hv
  · intro t ht
    rw [Tally.note, hkey, Dict.mem_keys_set]
    rcases ht.of_concat with hr | ⟨hold, -⟩
    · exact .inr hr.2.symm
    · exact .inl (h.waiting t hold)

/-- Eviction leaves what still waits. -/
theorem Kept.trim {o : Tally} (h : Kept rs i o) (hsteps : Steps (ticksOf i rs)) :
    Kept rs i o.trim where
  on := ⟨h.on.lap, h.on.last⟩
  sorted := Dict.sorted_youngest h.sorted 8
  latest t v hv := h.latest t v (Dict.lookup_of_youngest (Dict.nodup_of_sorted h.sorted) hv)
  waiting t ht := by
    refine Dict.mem_youngest h.sorted (h.waiting t ht) ?_
    refine ht.few hsteps ((Dict.nodup_of_sorted h.sorted).filter _) ?_
    intro k hk
    rw [List.mem_filter, decide_eq_true_eq] at hk
    exact ⟨hk.2, h.reported hk.1⟩

/-- Nothing changes for the side that does not report. -/
theorem Kept.other {o : Tally} (h : Kept rs r.side.other o) : Kept (rs ++ [r]) r.side.other o := by
  have hne : r.side ≠ r.side.other := r.side.other_ne.symm
  refine ⟨?_, h.sorted, ?_, ?_⟩
  · rw [ticksOf_concat, if_neg hne]
    exact h.on
  · intro t v hv
    rw [latest_concat, if_neg fun h => hne h.1]
    exact h.latest t v hv
  · intro t ht
    rcases ht.of_concat with hr | ⟨hold, -⟩
    · exact absurd hr.1 hne
    · exact h.waiting t hold

/-- What the report uses up does not wait any longer. -/
theorem Kept.forget {o : Tally} (h : Kept rs r.side.other o) :
    Kept (rs ++ [r]) r.side.other (o.forget r.tick) where
  on := ⟨h.other.on.lap, h.other.on.last⟩
  sorted := Dict.sorted_filter h.sorted
  latest t v hv := h.other.latest t v (Dict.lookup_of_filter hv)
  waiting t ht := by
    rw [Tally.forget, Dict.mem_keys_filter]
    rcases ht.of_concat with hr | ⟨hold, hused⟩
    · exact absurd hr.1 r.side.other_ne.symm
    · exact ⟨h.waiting t hold, Ne.symm (hused r.side.other_other.symm)⟩

theorem awaited_eq {l : Ledger} (h : Kept rs r.side (l r.side))
    (hsteps : Steps (ticksOf r.side (rs ++ [r]))) :
    l.awaited r.side (BitVec.ofNat 8 r.tick) = (l r.side.other).crc.lookup r.tick := by
  rw [Ledger.awaited, h.keyAt hsteps]

theorem report_kept {l : Ledger} (h : ∀ i, Kept rs i (l i))
    (hsteps : ∀ i, Steps (ticksOf i (rs ++ [r]))) (i : Side) :
    Kept (rs ++ [r]) i (l.report r.side (BitVec.ofNat 8 r.tick) r.crc i) := by
  have hnote := (h r.side).note (hsteps r.side)
  cases ha : l.awaited r.side (BitVec.ofNat 8 r.tick) with
  | none =>
    obtain ⟨hmine, htheirs⟩ := Ledger.report_unpaired ha r.crc
    rcases r.side.eq_or_other i with rfl | rfl
    · exact hmine ▸ hnote.trim (hsteps r.side)
    · exact htheirs ▸ (h r.side.other).other
  | some other =>
    obtain ⟨hmine, htheirs⟩ := Ledger.report_paired (by rw [ha]; rfl) r.crc
    rcases r.side.eq_or_other i with rfl | rfl
    · exact hmine ▸ hnote
    · rw [htheirs, (h r.side).keyAt (hsteps r.side)]
      exact (h r.side.other).forget

/-! ### Matches -/

theorem kept_new (i : Side) : Kept [] i Tally.new where
  on := by constructor <;> simp [ticksOf, Tally.new]
  sorted := List.Pairwise.nil
  latest t v hv := by cases hv
  waiting t ht := by
    obtain ⟨before, r, after, h, -⟩ := ht
    simp at h

variable {seat : Side → ℕ} {s₀ s s' : Server}

theorem steps_of_concat (h : ∀ i, Steps (ticksOf i (rs ++ [r]))) (i : Side) :
    Steps (ticksOf i rs) := by
  have hi := h i
  rw [ticksOf_concat] at hi
  split at hi
  · exact hi.of_append
  · exact hi

/-- After any number of reports, the server's tallies hold what they should. -/
theorem run_kept (h₀ : s₀.Playing seat) (hnew : ∀ i, (s₀.obj (seat i)).tally = Tally.new)
    (hsent : ∀ r ∈ rs, r.Sent) (hsteps : ∀ i, Steps (ticksOf i rs))
    (hrun : (Server.inputs seat).run s₀ (rs.map Report.event) = some s) :
    s.Playing seat ∧ ∀ i, Kept rs i (s.ledger seat i) := by
  induction rs using List.reverseRecOn generalizing s with
  | nil =>
    obtain rfl : s₀ = s := Option.some.inj hrun
    refine ⟨h₀, fun i => ?_⟩
    rw [Server.ledger, hnew i]
    exact kept_new i
  | append_singleton rs r ih =>
    rw [List.map_append, List.map_singleton, Machine.run_concat_some] at hrun
    obtain ⟨t, ht, hstep⟩ := hrun
    obtain ⟨hplaying, hkept⟩ := ih (fun q hq => hsent q (List.mem_append_left _ hq))
      (steps_of_concat hsteps) ht
    obtain ⟨hlong, htick⟩ := hsent r (List.mem_append_right _ (List.mem_singleton_self r))
    obtain ⟨hplaying', hl, -⟩ := Server.input_step hplaying hstep
    refine ⟨hplaying', fun i => ?_⟩
    rw [hl, Ledger.hear, Report.event, if_pos hlong, htick]
    exact report_kept hkept hsteps i

/-- In a match of two who have reported nothing yet: every report is kept under its true tick; a
    report counts either for nothing, or as the comparison with the other side's latest checksum for
    the same true tick; and it does count if the other's is waiting for it. -/
theorem crc_pairing_exact (h₀ : s₀.Playing seat)
    (hnew : ∀ i, (s₀.obj (seat i)).tally = Tally.new) (hsent : ∀ q ∈ rs ++ [r], q.Sent)
    (hsteps : ∀ i, Steps (ticksOf i (rs ++ [r])))
    (hrun : (Server.inputs seat).run s₀ (rs.map Report.event) = some s)
    (hstep : (Server.inputs seat).step s r.event = some s') :
    (s.obj (seat r.side)).tally.keyAt (r.payload.getD irTick 0) = r.tick ∧
      (s'.stats = s.stats ∨ ∃ other, latest r.side.other r.tick rs = some other ∧
        s'.stats = s.stats.score r.crc (some other)) ∧
      (Waiting r.side.other r.tick rs → ∃ other, latest r.side.other r.tick rs = some other ∧
        s'.stats = s.stats.score r.crc (some other)) := by
  obtain ⟨hplaying, hkept⟩ := run_kept h₀ hnew (fun q hq => hsent q (List.mem_append_left _ hq))
    (steps_of_concat hsteps) hrun
  obtain ⟨hlong, htick⟩ := hsent r (List.mem_append_right _ (List.mem_singleton_self r))
  obtain ⟨-, -, hstats, -⟩ := Server.input_step hplaying hstep
  have hawaited := awaited_eq (hkept r.side) (hsteps r.side)
  rw [Ledger.compared, Report.event, if_pos hlong, htick, hawaited] at hstats
  have hfound : ∀ other, (s.ledger seat r.side.other).crc.lookup r.tick = some other →
      ∃ other, latest r.side.other r.tick rs = some other ∧
        s'.stats = s.stats.score r.crc (some other) := by
    intro other hother
    rw [hother] at hstats
    exact ⟨other, (hkept r.side.other).latest _ _ hother, hstats⟩
  refine ⟨?_, ?_, ?_⟩
  · rw [htick]
    exact (hkept r.side).keyAt (hsteps r.side)
  · cases hother : (s.ledger seat r.side.other).crc.lookup r.tick with
    | none =>
      rw [hother] at hstats
      exact .inl hstats
    | some other => exact .inr (hfound other hother)
  · intro hwaiting
    obtain ⟨other, hother⟩ := Option.isSome_iff_exists.mp
      (Dict.lookup_isSome.mpr ((hkept r.side.other).waiting _ hwaiting))
    exact hfound other hother

/-- The host is ahead by a wrap, and the guest reports one tick twice. -/
def overtaken : List Report :=
  [⟨.host, 200, checkup 200 1⟩, ⟨.host, 260, checkup 4 2⟩, ⟨.guest, 150, checkup 150 3⟩,
    ⟨.guest, 200, checkup 200 1⟩, ⟨.guest, 200, checkup 200 9⟩]

theorem crc_pairing_exact_overtaken : ∃ s₀ s s', relay.run listening twoConsoles = some s₀ ∧
    (Server.inputs (seats 0 1)).run s₀ (overtaken.map Report.event) = some s ∧
    (Server.inputs (seats 0 1)).step s (.guest, checkup 4 2) = some s' ∧
      s'.stats = { s.stats with crcOk := s.stats.crcOk + 1 } := by
  obtain ⟨s₀, hrun₀, h₀, hnew, hsome⟩ : ∃ s₀, relay.run listening twoConsoles = some s₀ ∧
      s₀.Playing (seats 0 1) ∧ (∀ i, (s₀.obj (seats 0 1 i)).tally = Tally.new) ∧
      ((Server.inputs (seats 0 1)).run s₀
        (overtaken.map Report.event ++ [(.guest, checkup 4 2)])).isSome :=
    relay.exists_run (by decide +kernel)
  obtain ⟨s', hs'⟩ := Option.isSome_iff_exists.mp hsome
  obtain ⟨s, hrun, hstep⟩ := (Server.inputs (seats 0 1)).run_concat_some.mp hs'
  have hwaiting : Waiting .host 260 overtaken :=
    ⟨[⟨.host, 200, checkup 200 1⟩], ⟨.host, 260, checkup 4 2⟩, _, rfl, ⟨rfl, rfl⟩, by decide, by decide⟩
  obtain ⟨other, hlatest, hstats⟩ := (crc_pairing_exact (r := ⟨.guest, 260, checkup 4 2⟩) h₀ hnew
    (by decide) (by decide) hrun hstep).2.2 hwaiting
  obtain rfl : 2 = other := Option.some.inj hlatest
  exact ⟨s₀, s, s', hrun₀, hrun, hstep, hstats⟩

end VO.Relay
