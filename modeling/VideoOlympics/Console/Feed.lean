import VideoOlympics.Console.Immutable

/-! One console fed by a stream of records, READ in batches and consumed one a step, the last first,
    while frames go on. The watermark jumps to the batch's newest stamp with the first step, so a
    frame may let a tick run whose record the batch has not come to yet, and an old record consumed
    late may land on the slot of a tick still to run. Which ticks find their slot filled is decided
    by one batch. -/

namespace VO

/-- A valid INPUT record, whoever made it: its stamp, its three ticks newest first, its checksum. -/
structure Packet where
  stamp : ℤ
  newest : Byte × Byte
  middle : Byte × Byte
  oldest : Byte × Byte
  crc : Byte
  deriving DecidableEq, Repr

def Packet.bytes (p : Packet) : List Byte :=
  recordBytes (BitVec.ofInt 8 p.stamp) p.newest p.middle p.oldest p.crc

/-- What the record carries for a tick of its window. -/
def Packet.at (p : Packet) (t : ℤ) : Byte × Byte :=
  if t = p.stamp then p.newest else if t = p.stamp - 1 then p.middle else p.oldest

/-- Stamps start at 2, never fall and never skip more than a window. -/
def Stream (ps : List Packet) : Prop :=
  (∀ p ∈ ps.head?, p.stamp = 2) ∧ Windows.Steady vowin Packet.stamp ps

/-- The console, the page it reads, what has not been READ, what has been READ and not consumed, and
    what has been consumed, batch by batch, the latest batch and the latest record first. -/
structure Feed where
  solo : Solo
  mail : Mail
  rest : List Packet
  batch : List Packet
  taken : List (List Packet)

inductive FeedEv where
  | gate (hw : Hw) (sim : Sim)
  /-- A READ of `k` records is answered and `VOSRACK` opens the batch. -/
  | read (k : ℕ)
  | consume

/-- The batch being consumed gets one more. -/
def pushTaken (p : Packet) : List (List Packet) → List (List Packet)
  | [] => [[p]]
  | b :: bs => (p :: b) :: bs

/-- The reply window with these records in it. -/
def page (ps : List Packet) : Mail := painted 0 (ps.flatMap Packet.bytes) 0

/-- `k` records come in with a READ. -/
def Feed.opened (s : Feed) (k : ℕ) : Feed :=
  let con := { s.solo.con with vordn := BitVec.ofNat 8 k, vonst := .cons }
  { solo := { s.solo with con := con }, mail := page (s.rest.take k), rest := s.rest.drop k,
    batch := s.rest.take k, taken := [] :: s.taken }

/-- The batch's last record is consumed. -/
def Feed.took (s : Feed) (p : Packet) : Feed :=
  { s with solo := s.solo.micro s.mail, batch := s.batch.dropLast, taken := pushTaken p s.taken }

/-- A record is consumed only while it is at most five ticks ahead. -/
def Feed.step (s : Feed) : FeedEv → Option Feed
  | .gate hw sim =>
    if s.solo.con.bank = .game then some { s with solo := s.solo.gate hw sim } else none
  | .read k =>
    if s.batch = [] ∧ 1 ≤ k ∧ k ≤ 15 ∧ k ≤ s.rest.length then some (s.opened k) else none
  | .consume =>
    match s.batch.getLast? with
    | some p =>
      if p.stamp ≤ s.solo.tape.tick + (2 * vod.toNat + 1) then some (s.took p) else none
    | none => none

/-- A console at the handover and a stream it has read nothing of. -/
def Feed.start (s : Solo) (ps : List Packet) : Feed := ⟨s, page [], ps, [], []⟩

def feed : Machine Feed FeedEv where
  init s := ∃ role hw c r ps, c.vordn = 0 ∧ Stream ps ∧
    s = Feed.start (Solo.start role hw c r) ps
  step := Feed.step

/-- The gate lets the tick run. -/
def LetsRun (hw : Hw) (c : Console) : Prop :=
  phaseOf c.voent = 0 ∧ ready (boundary hw c) = true

instance (hw : Hw) (c : Console) : Decidable (LetsRun hw c) := inferInstanceAs (Decidable (_ ∧ _))

/-- A frame that lets a tick run finds its slot last written by a record whose window has it. -/
def Fills (s : Feed) : FeedEv → Prop
  | .gate hw _ => LetsRun hw s.solo.con →
      Windows.FilledFor 8 vowin Packet.stamp s.taken.flatten (nextTick s.solo)
  | _ => True

/-- A frame that lets a tick run comes when the deciding batch, the last to have been consumed down
    to within two ticks of it, reached up to the tick and has not been consumed back to six ticks
    below it. -/
def CaughtUp (s : Feed) : FeedEv → Prop
  | .gate hw _ => LetsRun hw s.solo.con →
      ∃ b ∈ Windows.decider vowin Packet.stamp s.taken (nextTick s.solo),
        (∃ n ∈ b.getLast?, nextTick s.solo ≤ n.stamp) ∧
        ∃ o ∈ b.head?, nextTick s.solo ≤ o.stamp + (8 - vowin)
  | _ => True

instance (s : Feed) : ∀ e, Decidable (Fills s e)
  | .gate hw _ => inferInstanceAs (Decidable (LetsRun hw s.solo.con → _))
  | .read _ => .isTrue trivial
  | .consume => .isTrue trivial

instance (s : Feed) : ∀ e, Decidable (CaughtUp s e)
  | .gate hw _ => inferInstanceAs (Decidable (LetsRun hw s.solo.con →
      ∃ b ∈ Windows.decider vowin Packet.stamp s.taken (nextTick s.solo),
        (∃ n ∈ b.getLast?, _) ∧ ∃ o ∈ b.head?, _))
  | .read _ => .isTrue trivial
  | .consume => .isTrue trivial

/-! ### The invariant -/

/-- The batch's consumed part. -/
def Feed.current (s : Feed) : List Packet := s.taken.headD []

/-- The stream is where it has been put, in order: behind lie the earlier batches, then the open
    batch's records still to consume, its consumed ones, and what is still to be READ. -/
structure Inflow (s : Feed) : Prop where
  sound : Sound s.solo
  vordn : s.solo.con.vordn = BitVec.ofNat 8 s.batch.length
  size : s.batch.length ≤ 15
  vonst : s.batch ≠ [] → s.solo.con.vonst = .cons
  shows : ∀ n p, s.batch[n]? = some p → Shows s.mail n p.bytes
  order : Windows.Steady vowin Packet.stamp (s.batch ++ s.current ++ s.rest)
  floor : ∀ q ∈ s.taken.tail.flatten, ∀ p ∈ s.batch ++ s.current ++ s.rest, q.stamp ≤ p.stamp
  steady : ∀ b ∈ s.taken, Windows.Steady vowin Packet.stamp b
  descending : Windows.Descending Packet.stamp s.taken
  near : ∀ p ∈ s.taken.flatten, p.stamp ≤ s.solo.tape.tick + 5
  ring : remoteRing.Holds vowin Packet.stamp Packet.at (vopIdle, iwIdle) s.taken.flatten
    s.solo.con.voring

variable {s : Feed}

theorem Stream.suffix (ps : List Packet) {qs : List Packet}
    (h : Windows.Steady vowin Packet.stamp (ps ++ qs)) :
    Windows.Steady vowin Packet.stamp qs :=
  List.IsChain.suffix h (List.suffix_append ps qs)

theorem Inflow.gate (h : Inflow s) (hw : Hw) (sim : Sim) :
    Inflow { s with solo := s.solo.gate hw sim } := by
  obtain ⟨hg, -⟩ := frame_cases hw sim s.solo.con h.sound.net
  have hle : s.solo.tape.tick ≤ nextTick s.solo := by rw [nextTick]; split <;> omega
  refine ⟨h.sound.gate hw sim, hg.vordn.trans h.vordn, h.size, fun hne => hg.vonst.trans (h.vonst hne),
    h.shows, h.order, h.floor, h.steady, h.descending, ?_, hg.voring ▸ h.ring⟩
  intro p hp
  have := h.near p hp
  rw [gate_tick]
  omega

/-- Record `n` of a page shows there. -/
theorem shows_page {ps : List Packet} {n : ℕ} {p : Packet} (h : ps[n]? = some p) :
    Shows (page ps) n p.bytes := by
  intro k hk
  exact getD_records (fun _ _ => length_recordBytes ..) h hk

theorem Steady.pairwise {ps : List Packet} (h : Windows.Steady vowin Packet.stamp ps) :
    ps.Pairwise fun a b => a.stamp ≤ b.stamp := by
  induction ps with
  | nil => exact List.Pairwise.nil
  | cons p ps ih =>
    refine List.pairwise_cons.mpr ⟨fun q hq => h.le q (List.mem_cons_of_mem p hq), ih ?_⟩
    exact Stream.suffix [p] h

theorem Inflow.read (h : Inflow s) {k : ℕ} (hempty : s.batch = []) (hk : k ≤ 15)
    (hle : k ≤ s.rest.length) : Inflow (s.opened k) := by
  obtain ⟨hs, -, -, -, -, ho, hf, hst, hd, hn, hr⟩ := h
  have hlen : (s.rest.take k).length = k := by rw [List.length_take]; omega
  have hrest : s.rest.take k ++ [] ++ s.rest.drop k = s.rest := by simp
  rw [hempty, List.nil_append] at ho hf
  have hpair := List.pairwise_append.mp (Steady.pairwise ho)
  refine ⟨⟨hs.net, hs.votick, hs.start, hs.loc, hs.idle, hs.vocrcv, hs.sent, hs.took⟩, ?_, ?_,
    fun _ => rfl, fun n p hp => shows_page hp, ?_, ?_, ?_, ?_, ?_, ?_⟩
  · exact congrArg (BitVec.ofNat 8) hlen.symm
  · exact hlen.le.trans hk
  · show Windows.Steady vowin Packet.stamp (s.rest.take k ++ [] ++ s.rest.drop k)
    rw [hrest]
    exact Stream.suffix _ ho
  · intro q hq p hp
    have hp' : p ∈ s.rest := hrest ▸ hp
    have hq' : q ∈ s.taken.flatten := hq
    cases htaken : s.taken with
    | nil => simp [htaken] at hq'
    | cons b bs =>
      rw [htaken, List.flatten_cons] at hq'
      have hcur : s.current = b := by simp [Feed.current, htaken]
      rcases List.mem_append.mp hq' with hq' | hq'
      · exact hpair.2.2 q (hcur ▸ hq') p hp'
      · exact hf q (by simpa [htaken] using hq') p (List.mem_append_right _ hp')
  · intro b hb
    rcases List.mem_cons.mp hb with rfl | hb
    · exact List.IsChain.nil
    · exact hst b hb
  · exact ⟨fun r hr => by simp at hr, hd⟩
  · simpa [Feed.opened] using hn
  · simpa [Feed.opened] using hr

/-- Consuming the batch's last record writes its window into the ring. -/
theorem Inflow.micro (h : Inflow s) {p : Packet} (hp : p ∈ s.batch.getLast?) :
    (s.solo.micro s.mail).tape = s.solo.tape ∧
    (s.solo.micro s.mail).con.vordn = BitVec.ofNat 8 s.batch.dropLast.length ∧
    (s.solo.micro s.mail).con.vonst = .cons ∧
    (s.solo.micro s.mail).con.voring =
      remoteRing.putWindow p.at p.stamp vowin s.solo.con.voring := by
  have hne : s.batch ≠ [] := fun h0 => by simp [h0] at hp
  have hpos : 0 < s.batch.length := List.length_pos_iff.mpr hne
  have hsize := h.size
  obtain ⟨j, hj⟩ : ∃ j, s.batch.length = j + 1 := ⟨s.batch.length - 1, by omega⟩
  have hat : s.batch[j]? = some p := by
    rw [List.getLast?_eq_getElem?, hj, Nat.add_sub_cancel] at hp
    exact hp
  have hst := h.vonst hne
  have hv : s.solo.con.vordn = BitVec.ofNat 8 (j + 1) := by rw [h.vordn, hj]
  have hv0 : s.solo.con.vordn ≠ 0 := by
    intro h0
    have := congrArg BitVec.toNat (hv.symm.trans h0)
    rw [BitVec.toNat_ofNat] at this
    simp at this
    omega
  have h1 : p.at (p.stamp - 1) = p.middle := by
    rw [Packet.at, if_neg (by omega), if_pos rfl]
  have h2 : p.at (p.stamp - 2) = p.oldest := by
    rw [Packet.at, if_neg (by omega), if_neg (by omega)]
  have htake := voco1_record (by omega) (h.shows j p hat) s.solo.con hv
  refine ⟨?_, ?_⟩
  · simp only [Solo.micro, Tape.micro, hst, reduceCtorEq, if_false]
  · simp only [Solo.micro, vonstep, hst, voscons, if_neg hv0, htake, List.length_dropLast, hj,
      Nat.add_sub_cancel]
    refine ⟨rfl, rfl, ?_⟩
    have hring := take_voring p.at p.crc p.stamp { s.solo.con with vordn := BitVec.ofNat 8 j }
    rw [h1, h2, show p.at p.stamp = p.newest from if_pos rfl] at hring
    exact hring

theorem flatten_pushTaken (p : Packet) (bs : List (List Packet)) :
    (pushTaken p bs).flatten = p :: bs.flatten := by
  cases bs <;> rfl

theorem pushTaken_eq (p : Packet) (bs : List (List Packet)) :
    pushTaken p bs = (p :: bs.headD []) :: bs.tail := by
  cases bs <;> rfl

theorem Inflow.consume (h : Inflow s) {p : Packet} (hp : p ∈ s.batch.getLast?)
    (hnear : p.stamp ≤ s.solo.tape.tick + 5) : Inflow (s.took p) := by
  obtain ⟨htape, hvordn, hvonst, hring⟩ := h.micro hp
  obtain ⟨bs, hbs⟩ := List.getLast?_eq_some_iff.mp hp
  have hdrop : s.batch.dropLast = bs := by rw [hbs, List.dropLast_concat]
  have hbatch : (s.took p).batch = bs := hdrop
  have htaken : (s.took p).taken = (p :: s.current) :: s.taken.tail := pushTaken_eq p _
  have hflat : (s.took p).taken.flatten = p :: s.taken.flatten := flatten_pushTaken p _
  have hcur : (s.took p).current = p :: s.current := by
    rw [Feed.current, Feed.took, pushTaken_eq]; rfl
  have htail : (s.took p).taken.tail = s.taken.tail := by rw [htaken]; rfl
  have hwhole : (s.took p).batch ++ (s.took p).current ++ (s.took p).rest =
      s.batch ++ s.current ++ s.rest := by
    rw [hcur, hbs]
    simp [Feed.took, hdrop]
  have hmem : p ∈ s.batch ++ s.current ++ s.rest := by simp [hbs]
  constructor
  · exact h.sound.micro s.mail
  · exact hvordn
  · have := h.size
    rw [hbatch]
    rw [hbs, List.length_append] at this
    omega
  · exact fun _ => hvonst
  · intro n q hq
    refine h.shows n q ?_
    have hlt := (List.getElem?_eq_some_iff.mp hq).1
    rw [hbatch] at hq hlt
    rw [hbs, List.getElem?_append_left hlt]
    exact hq
  · rw [hwhole]; exact h.order
  · rw [hwhole, htail]; exact h.floor
  · intro b hb
    rw [htaken] at hb
    rcases List.mem_cons.mp hb with rfl | hb
    · have horder := h.order
      rw [hbs, List.append_assoc bs, List.append_assoc bs] at horder
      exact List.IsChain.left_of_append (Stream.suffix _ horder)
    · exact h.steady b (List.mem_of_mem_tail hb)
  · rw [htaken]
    refine ⟨?_, ?_⟩
    · intro r hr q hq
      obtain rfl : p = r := by simpa using hr
      exact h.floor q hq p hmem
    · have hd := h.descending
      cases hs : s.taken with
      | nil => trivial
      | cons b bs => rw [hs] at hd; exact hd.2
  · intro q hq
    have htick : (s.took p).solo.tape.tick = s.solo.tape.tick := congrArg Tape.tick htape
    rw [hflat] at hq
    rw [htick]
    rcases List.mem_cons.mp hq with rfl | hq
    · exact hnear
    · exact h.near q hq
  · have hvoring : (s.took p).solo.con.voring =
        remoteRing.putWindow p.at p.stamp vowin s.solo.con.voring := hring
    rw [hflat, hvoring]
    exact remoteRing.holds_cons (by decide) h.ring p

theorem Inflow.step {t : Feed} {e : FeedEv} (h : Inflow s) (hst : s.step e = some t) :
    Inflow t := by
  cases e with
  | gate hw sim =>
    simp only [Feed.step, Option.ite_none_right_eq_some, Option.some.injEq] at hst
    exact hst.2 ▸ h.gate hw sim
  | read k =>
    simp only [Feed.step, Option.ite_none_right_eq_some, Option.some.injEq] at hst
    obtain ⟨⟨hempty, -, hk, hle⟩, rfl⟩ := hst
    exact h.read hempty hk hle
  | consume =>
    simp only [Feed.step] at hst
    split at hst
    · rename_i p hp
      simp only [Option.ite_none_right_eq_some, Option.some.injEq] at hst
      obtain ⟨hnear, rfl⟩ := hst
      exact h.consume hp hnear
    · simp at hst

theorem inflow_of_init (h : feed.init s) : Inflow s := by
  obtain ⟨role, hw, c, r, ps, hv, hps, rfl⟩ := h
  refine ⟨Sound.start_of role hw c r, hv, Nat.zero_le _, fun hne => absurd rfl hne, ?_, ?_, ?_, ?_,
    trivial, ?_, ?_⟩
  · intro n p hp; simp [Feed.start] at hp
  · exact hps.2
  · intro q hq; simp [Feed.start] at hq
  · intro b hb; simp [Feed.start] at hb
  · intro p hp; simp [Feed.start] at hp
  · exact fun t => cszring_get 3 (by decide) t

/-! ### The slot of the tick that runs -/

theorem Inflow.fills_iff (h : Inflow s) (e : FeedEv) : Fills s e ↔ CaughtUp s e := by
  cases e with
  | gate hw sim =>
    have hle : s.solo.tape.tick ≤ nextTick s.solo := by rw [nextTick]; split <;> omega
    have hiff := Windows.filledFor_iff_decider (N := 8) (W := vowin) (t := nextTick s.solo)
      (by decide) (by decide) h.steady h.descending fun q hq => by
        have := h.near q hq
        omega
    exact imp_congr_right fun _ => hiff
  | read k => exact Iff.rfl
  | consume => exact Iff.rfl

/-- The watermark runs ahead of the ring exactly when the deciding batch says so: along any run, the
    frames that let a tick run all find its slot filled for it if and only if each of them comes when
    the batch that decides the slot has reached the tick and not gone back a turn. The ring itself
    holds, everywhere, what the record that last wrote a slot carries for the tick it wrote. -/
theorem ring_filled_iff {s₀ : Feed} (h₀ : feed.init s₀) (es : List FeedEv) :
    (feed.EachStep Fills s₀ es ↔ feed.EachStep CaughtUp s₀ es) ∧
    ∀ s, feed.run s₀ es = some s →
      remoteRing.Holds vowin Packet.stamp Packet.at (vopIdle, iwIdle) s.taken.flatten
        s.solo.con.voring := by
  have hI := inflow_of_init h₀
  refine ⟨feed.eachStep_congr (fun _ _ _ h hst => Inflow.step h hst)
    (fun _ e _ h _ => Inflow.fills_iff h e) hI, ?_⟩
  intro s hrun
  have := feed.run_invariant (P := fun _ _ => True) (fun _ _ _ h _ hst => Inflow.step h hst) hI
    (feed.eachStep_of_forall (fun _ _ => trivial) es s₀) hrun
  exact this.ring

/-- Two records, for ticks 2 and 5. -/
def twoRecords : List Packet :=
  [⟨2, (0x50, 0xFF), (0, 0xFF), (0, 0xFF), 0⟩, ⟨5, (0x80, 0xFF), (0x70, 0xFF), (0x60, 0xFF), 0⟩]

def Feed.rest₀ : Feed := Feed.start Solo.rest twoRecords

/-- Frames of a fed console nobody touches. -/
def feedFrames (n : ℕ) : List FeedEv := List.replicate n (.gate Hw.rest Console.cleared.sim)

theorem init_rest₀ : feed.init Feed.rest₀ :=
  ⟨0, Hw.rest, Console.cleared, Regs.cleared, twoRecords, rfl,
    ⟨by simp [twoRecords], by simp [Windows.Steady, twoRecords, vowin]⟩, rfl⟩

/-- Read one at a time, each consumed before the next frame, the two records fill every slot. -/
theorem ring_filled_one_by_one : feed.EachStep Fills Feed.rest₀
    (feedFrames 1 ++ [.read 1, .consume] ++ feedFrames 9 ++ [.read 1, .consume] ++ feedFrames 16) :=
  (ring_filled_iff init_rest₀ _).1.mpr (by decide +kernel)

/-- Read together, with the first CONSUME step alone before the frames go on, they do not: tick 2 runs
    on a slot nobody has written. -/
theorem ring_not_filled : ¬∀ s₀ es, feed.init s₀ → feed.EachStep Fills s₀ es := by
  intro hall
  have h := hall Feed.rest₀ (feedFrames 1 ++ [.read 2, .consume] ++ feedFrames 9) init_rest₀
  revert h
  decide +kernel

end VO
