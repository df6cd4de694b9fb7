import VideoOlympics.Lockstep.Skew

/-! What each event of a match preserves. A gate and a delivery leave the transaction alone; an
    answer completes it; a micro-step launches the next one or consumes a record. -/

namespace VO

section
variable {x y : Station}

/-! ### A gate -/

theorem SameTransit.gate (h : Sound x.solo) (hw : Hw) (sim : Sim) :
    SameTransit x { x with solo := x.solo.gate hw sim } := by
  obtain ⟨hg, -⟩ := frame_cases hw sim x.solo.con h.net
  exact ⟨hg.vonst, hg.voseq, hg.vordn, rfl, rfl, rfl, rfl, rfl, le_refl _⟩

theorem Transit.same_rs {rs : List Rec} {x x' : Station} (h : Transit rs x) (k : SameTransit x x')
    (hgot : x.got ≤ rs.length) : Transit rs x' := by
  have := h.same k hgot []
  rwa [List.append_nil] at this

theorem Skew.gate (h : Paired x y) (h' : Paired y x) (hw : Hw) (sim : Sim) :
    Skew { x with solo := x.solo.gate hw sim } y := by
  obtain ⟨hg, hcase⟩ := frame_cases hw sim x.solo.con h.sound.net
  have hran := h.skew.ran
  have hbehind := h.skew.behind
  have hnext : nextTick x.solo ≤ max (x.wat + 1) 0 ∧ x.tick ≤ nextTick x.solo := by
    rw [nextTick]
    split
    · rename_i hadv
      simp only [advances, Bool.and_eq_true] at hadv
      have := hran hadv.2
      rw [← Station.tick]
      omega
    · exact ⟨hbehind, le_refl _⟩
  constructor
  · exact hg.vorwat.trans h.skew.vorwat
  · exact h.skew.sorted
  · exact hnext.1
  · intro hr
    rw [Station.tick, gate_tick]
    rcases hcase with hmid | hrun | hstall
    · have : nextTick x.solo = x.tick := by simp [nextTick, advances, hmid.before, Station.tick]
      rw [this]
      exact hran (hmid.ran ▸ hr)
    · have hready := hrun.ready
      rw [h.ready_iff h' hnext.2 hnext.1 (h.sound.gate_votick hw sim) hg.vorwat] at hready
      exact le_max_of_le_left (of_decide_eq_true hready)
    · exact absurd (hstall.ran.symm.trans hr) Bool.false_ne_true
  · exact h.skew.floor
  · exact h.skew.eaten

theorem Paired.gate_own (h : Paired x y) (h' : Paired y x) (hw : Hw) (sim : Sim) :
    Paired { x with solo := x.solo.gate hw sim } y where
  sound := h.sound.gate hw sim
  served := ⟨⟨h.served.flow.got_le, h.served.flow.stream⟩,
    h.served.transit.same_rs (SameTransit.gate h.sound hw sim) h.served.flow.got_le⟩
  skew := Skew.gate h h' hw sim

theorem Paired.gate_peer (h : Paired x y) (h' : Paired y x) (hw : Hw) (sim : Sim) :
    Paired x { y with solo := y.solo.gate hw sim } where
  sound := h.sound
  served := by
    have k := SameTransit.gate h'.sound hw sim
    exact ⟨⟨h.served.flow.got_le, k.pending ▸ h.served.flow.stream⟩,
      h.served.transit⟩
  skew := ⟨h.skew.vorwat, h.skew.sorted, h.skew.behind, h.skew.ran, h.skew.floor, h.skew.eaten⟩

/-! ### A delivery -/

theorem Paired.arrive_own (h : Paired x y) (n : ℕ) : Paired (x.arrive n) y where
  sound := h.sound
  served := by
    have k : SameTransit x (x.arrive n) :=
      ⟨rfl, rfl, rfl, rfl, rfl, rfl, rfl, rfl, by simp [Station.arrive]⟩
    refine ⟨⟨h.served.flow.got_le, ?_⟩,
      h.served.transit.same_rs k h.served.flow.got_le⟩
    have hs := h.served.flow.stream
    rw [← List.take_append_drop n x.wire] at hs
    simpa [Station.arrive] using hs
  skew := ⟨h.skew.vorwat, h.skew.sorted, h.skew.behind, h.skew.ran, h.skew.floor, h.skew.eaten⟩

theorem Paired.arrive_peer (h : Paired x y) (n : ℕ) : Paired x (y.arrive n) where
  sound := h.sound
  served := ⟨⟨h.served.flow.got_le, h.served.flow.stream⟩, h.served.transit⟩
  skew := ⟨h.skew.vorwat, h.skew.sorted, h.skew.behind, h.skew.ran, h.skew.floor, h.skew.eaten⟩

/-! ### A micro-step that launches or waits -/

theorem micro_fixed (x : Station) (rs : List Rec) : (x.micro rs).solo = x.solo.micro x.mail ∧
    (x.micro rs).mail = x.mail ∧ (x.micro rs).inbox = x.inbox ∧ (x.micro rs).wire = x.wire ∧
    (x.micro rs).got = x.got := by
  rw [Station.micro]
  split <;> exact ⟨rfl, rfl, rfl, rfl, rfl⟩

/-- Outside CONSUME the onlooker's counts stay. -/
theorem micro_eq (hst : x.solo.con.vonst ≠ .cons) (rs : List Rec) :
    x.micro rs = { x with solo := x.solo.micro x.mail } := by
  simp [Station.micro, Station.nextRec, hst]

theorem voack_iff {x : Station} (hseq : x.solo.con.voseq = x.solo.regs.seq) :
    voack x.mail x.solo.con = true ↔ x.Answered := by
  rw [voack, beq_iff_eq, hseq, Station.Answered]

/-- What a launch leaves: a transaction of this console's the cartridge has not answered. -/
structure Launched (st : NS) (cmd : Byte) (x x' : Station) : Prop where
  vonst : x'.solo.con.vonst = st
  voseq : x'.solo.con.voseq = x'.solo.regs.seq
  waiting : ¬x'.Answered
  cmd : x'.solo.regs.cmd = cmd
  vordn : x'.solo.con.vordn = x.solo.con.vordn
  vorwat : x'.solo.con.vorwat = x.solo.con.vorwat
  rest : x'.mail = x.mail ∧ x'.inbox = x.inbox ∧ x'.got = x.got ∧ x'.base = x.base ∧ x'.wat = x.wat

theorem launched_wiss (hst : x.solo.con.vonst = .wiss) (rs : List Rec) :
    Launched .wack ncwrite x (x.micro rs) ∧ (x.micro rs).solo.regs.word = 16 ∧
    (x.micro rs).solo.regs.tx.drop 3 = outRecord x.solo.con := by
  rw [micro_eq (by rw [hst]; decide)]
  simp only [Solo.micro, vonstep, hst, voswiss_eq, volnch]
  exact ⟨⟨rfl, rfl, (nextSeq_ne _).symm, rfl, rfl, rfl, rfl, rfl, rfl, rfl, rfl⟩, rfl, rfl⟩

theorem launched_siss (hst : x.solo.con.vonst = .siss) (rs : List Rec) :
    Launched .sack ncstat x (x.micro rs) := by
  rw [micro_eq (by rw [hst]; decide)]
  simp only [Solo.micro, vonstep, hst, vossiss, volnch]
  exact ⟨rfl, rfl, (nextSeq_ne _).symm, rfl, rfl, rfl, rfl, rfl, rfl, rfl, rfl⟩

theorem launched_riss (hst : x.solo.con.vonst = .riss) (rs : List Rec) :
    Launched .rack ncread x (x.micro rs) ∧
    (x.micro rs).solo.regs.word = x.solo.con.vordn.toNat := by
  rw [micro_eq (by rw [hst]; decide)]
  simp only [Solo.micro, vonstep, hst, vosriss, volnch]
  exact ⟨⟨rfl, rfl, (nextSeq_ne _).symm, rfl, rfl, rfl, rfl, rfl, rfl, rfl, rfl⟩,
    by simp [Regs.word, Regs.begin, Regs.fntx]⟩

theorem SameTransit.wait (hseq : x.solo.con.voseq = x.solo.regs.seq) (ha : ¬x.Answered)
    (hst : x.solo.con.vonst = .wack ∨ x.solo.con.vonst = .sack ∨ x.solo.con.vonst = .rack)
    (rs : List Rec) : SameTransit x (x.micro rs) := by
  have hno : ¬voack x.mail x.solo.con = true := fun h => ha ((voack_iff hseq).mp h)
  have hcons : x.solo.con.vonst ≠ .cons := by rcases hst with h | h | h <;> rw [h] <;> decide
  have hstep : vonstep x.mail x.solo.con x.solo.regs = (x.solo.con, x.solo.regs) := by
    rcases hst with h | h | h <;> simp only [vonstep, h, voswack, vossack, vosrack, if_neg hno]
  rw [micro_eq hcons]
  constructor <;> simp only [Solo.micro, hstep, le_refl]

/-! ### A micro-step that takes an answer -/

theorem acked_wack (hst : x.solo.con.vonst = .wack) (hseq : x.solo.con.voseq = x.solo.regs.seq)
    (ha : x.Answered) (herr : x.mail.fnerr = 0) : (x.solo.micro x.mail).con =
      { x.solo.con with vonst := .siss } := by
  simp only [Solo.micro, vonstep, hst, voswack, (voack_iff hseq).mpr ha, herr, if_true]

theorem acked_rack (hst : x.solo.con.vonst = .rack) (hseq : x.solo.con.voseq = x.solo.regs.seq)
    (ha : x.Answered) (herr : x.mail.fnerr = 0) : (x.solo.micro x.mail).con =
      { x.solo.con with vordn := x.mail.fnrxlo >>> 4, vonst := .cons } := by
  simp only [Solo.micro, vonstep, hst, vosrack, (voack_iff hseq).mpr ha, herr, if_true]

/-- STATUS either finds nothing whole and goes back to WRITE, or asks for whole records that are
    there. -/
theorem acked_sack (hst : x.solo.con.vonst = .sack) (hseq : x.solo.con.voseq = x.solo.regs.seq)
    (ha : x.Answered) (herr : x.mail.fnerr = 0) (hdev : x.mail.fnrply 3 = 1) :
    (x.solo.micro x.mail).con = { x.solo.con with vonst := .wiss } ∨
    ∃ k ≥ 1, k ≤ 15 ∧
      16 * k ≤ (x.mail.fnrply 0).toNat + 256 * (x.mail.fnrply 1).toNat ∧
      (x.solo.micro x.mail).con =
        { x.solo.con with vordn := BitVec.ofNat 8 (16 * k), vonst := .riss } := by
  have hmicro : (x.solo.micro x.mail).con = vossack x.mail x.solo.con := by
    simp only [Solo.micro, vonstep, hst]
  rw [hmicro]
  exact vossack_whole ((voack_iff hseq).mpr ha) (by simp [herr, hdev])

/-! ### A micro-step that consumes -/

theorem finish_cons (hst : x.solo.con.vonst = .cons) (hv : x.solo.con.vordn = 0) (rs : List Rec) :
    x.micro rs = { x with solo := x.solo.micro x.mail, base := x.got } ∧
    (x.solo.micro x.mail).con = { x.solo.con with vonst := .wiss } := by
  simp [Station.micro, Station.nextRec, hst, hv, Solo.micro, vonstep, voscons]

/-- What consuming the batch's record `j` does: it is taken as its writer wrote it, and the
    watermark is the later of the two. -/
structure Consumed (x x' : Station) (tp : Tape) (r : Rec) (j : ℕ) : Prop where
  con : x'.solo.con = take (BitVec.ofInt 8 r.stamp) (tp.cap r.stamp) (tp.cap (r.stamp - 1))
    (tp.cap (r.stamp - 2)) (tp.crc (r.stamp - 2)) { x.solo.con with vordn := BitVec.ofNat 8 j }
  regs : x'.solo.regs = x.solo.regs
  tape : x'.solo.tape = x.solo.tape
  rest : x'.mail = x.mail ∧ x'.inbox = x.inbox ∧ x'.got = x.got ∧ x'.base = x.base
  wat : x'.wat = max x.wat r.stamp
  eaten : x'.eaten = r.stamp :: x.eaten

theorem toNat_ofNat_small {j : ℕ} (hj : j ≤ 15) : (BitVec.ofNat 8 j).toNat = j := by
  rw [BitVec.toNat_ofNat]; omega

/-- With records left, the next CONSUME step takes the one in front of the cursor. -/
theorem nextRec_eq (hst : x.solo.con.vonst = .cons) {j : ℕ} (hj : j + 1 ≤ 15)
    (hv : x.solo.con.vordn = BitVec.ofNat 8 (j + 1)) (rs : List Rec) :
    x.nextRec rs = rs[x.base + j]? := by
  have hn : x.solo.con.vordn.toNat = j + 1 := by rw [hv, toNat_ofNat_small hj]
  have hne : x.solo.con.vordn ≠ 0 := fun h0 => by rw [h0] at hn; simp at hn
  rw [Station.nextRec, if_pos ⟨hst, hne⟩, hn, Nat.add_sub_cancel]

theorem Paired.consume (h : Paired x y) (h' : Paired y x) (hst : x.solo.con.vonst = .cons) {j : ℕ}
    (hv : x.solo.con.vordn = BitVec.ofNat 8 (j + 1)) (hb : x.Batch y.sent (j + 1)) :
    ∃ r, y.sent[x.base + j]? = some r ∧ Shows x.mail j r.bytes ∧
      Consumed x (x.micro y.sent) y.solo.tape r j := by
  obtain ⟨r, hr, hshow⟩ := hb.shows j (Nat.lt_succ_self j)
  have hj : j + 1 ≤ 15 := hb.le
  have hn : x.solo.con.vordn.toNat = j + 1 := by rw [hv, toNat_ofNat_small hj]
  have hne : x.solo.con.vordn ≠ 0 := fun h0 => by rw [h0] at hn; simp at hn
  have hnext : x.nextRec y.sent = some r := (nextRec_eq hst hj hv y.sent).trans hr
  have hbytes : r.bytes = y.solo.tape.record r.stamp :=
    (h'.sound.sent r (List.mem_of_getElem? hr)).2.2
  have hstep : vonstep x.mail x.solo.con x.solo.regs = (take (BitVec.ofInt 8 r.stamp)
      (y.solo.tape.cap r.stamp) (y.solo.tape.cap (r.stamp - 1)) (y.solo.tape.cap (r.stamp - 2))
      (y.solo.tape.crc (r.stamp - 2)) { x.solo.con with vordn := BitVec.ofNat 8 j },
      x.solo.regs) := by
    have htake := voco1_record (show j < 16 by omega) (hbytes ▸ hshow) x.solo.con hv
    simp only [vonstep, hst, voscons, if_neg hne, htake]
  have hpost : (x.solo.micro x.mail).con.vorwat =
      if r.stamp < x.wat then x.solo.con.vorwat else BitVec.ofInt 8 r.stamp := by
    simp only [Solo.micro, hstep, take, h.newer_iff h' hr (Nat.le_add_right _ _),
      decide_eq_true_eq]
  have hmicro : x.micro y.sent = { x with
      solo := x.solo.micro x.mail
      eaten := r.stamp :: x.eaten
      wat := if (x.solo.micro x.mail).con.vorwat = BitVec.ofInt 8 r.stamp
        then r.stamp else x.wat } := by
    simp only [Station.micro, hnext]
  refine ⟨r, hr, hshow, ?_⟩
  rw [hmicro]
  refine ⟨by simp only [Solo.micro, hstep], by simp only [Solo.micro, hstep], ?_,
    ⟨rfl, rfl, rfl, rfl⟩, ?_, rfl⟩
  · simp only [Solo.micro, Tape.micro, hst, reduceCtorEq, if_false]
  · simp only [hpost]
    split
    · rename_i hlt
      have hnear := h.near h' hr (Nat.le_add_right _ _)
      rw [if_neg ?_, max_eq_left hlt.le]
      rw [h.skew.vorwat, Serial.ofInt_inj _ _ (abs_lt.mpr ⟨by omega, by omega⟩)]
      omega
    · rw [if_pos rfl, max_eq_right (by omega)]

/-- After any step of a batch but the last of none, the watermark is the batch's newest stamp. -/
theorem Paired.consumed_wat (h' : Paired y x) (hgot : x.got ≤ y.sent.length) {j : ℕ} {r : Rec}
    (hr : y.sent[x.base + j]? = some r) (hb : x.Batch y.sent (j + 1)) :
    max x.wat r.stamp = mark y.sent x.got := by
  have hleft := hb.left
  have hstamp : mark y.sent (x.base + j + 1) = r.stamp := mark_succ hr
  rw [hb.wat]
  split
  · rename_i hfull
    have hfull' : x.base + j + 1 = x.got := hfull
    rw [← hfull', hstamp]
    exact max_eq_right (mark_le_stamp h'.skew.sorted h'.stamp_ge hr (by omega))
  · rw [← hstamp]
    exact max_eq_left (mark_mono h'.skew.sorted h'.stamp_ge hleft hgot)

/-! ### A micro-step, whatever it is -/

theorem Station.Clear.of_launched {st : NS} {cmd : Byte} {x' : Station} {rs : List Rec}
    (hc : x.Clear rs) (L : Launched st cmd x x') : x'.Clear rs := by
  obtain ⟨-, -, hgot, hbase, hwat⟩ := L.rest
  exact ⟨by rw [hbase, hgot, hc.1], by rw [hwat, hgot, hc.2]⟩

/-- A batch being consumed is over, or its next record is taken. -/
theorem Paired.cons_cases (h : Paired x y) (h' : Paired y x) (hst : x.solo.con.vonst = .cons) :
    (x.Batch y.sent 0 ∧ x.solo.con.vordn = 0 ∧
      x.micro y.sent = { x with solo := x.solo.micro x.mail, base := x.got } ∧
      (x.solo.micro x.mail).con = { x.solo.con with vonst := .wiss }) ∨
    ∃ r j, x.solo.con.vordn = BitVec.ofNat 8 (j + 1) ∧ x.Batch y.sent (j + 1) ∧
      y.sent[x.base + j]? = some r ∧ Shows x.mail j r.bytes ∧
      Consumed x (x.micro y.sent) y.solo.tape r j := by
  have ht := h.served.transit
  simp only [Transit, hst] at ht
  obtain ⟨-, j, hv, hb⟩ := ht
  cases j with
  | zero => exact .inl ⟨hb, hv, finish_cons hst hv y.sent⟩
  | succ j =>
    obtain ⟨r, hr, hshow, hc⟩ := h.consume h' hst hv hb
    exact .inr ⟨r, j, hv, hb, hr, hshow, hc⟩

/-- A batch is consumed record by record, and is over when the last has been. -/
theorem Paired.cons_transit (h : Paired x y) (h' : Paired y x) (hst : x.solo.con.vonst = .cons) :
    Transit y.sent (x.micro y.sent) := by
  have ht := h.served.transit
  have hgot := h.served.flow.got_le
  obtain ⟨-, hmail, -, -, hgot'⟩ := micro_fixed x y.sent
  simp only [Transit, hst] at ht
  obtain ⟨ha, -⟩ := ht
  rcases h.cons_cases h' hst with ⟨hb, -, hmicro, hcon⟩ | ⟨r, j, -, hb, hr, -, hc⟩
  · rw [hmicro, Transit]
    simp only [hcon]
    refine ⟨by simpa [Station.Answered, Solo.micro, vonstep, hst] using ha, rfl, ?_⟩
    have hwat := hb.wat
    split at hwat
    · rename_i hfull
      rw [Nat.add_zero] at hfull
      rw [← hfull]
      exact hwat
    · exact hwat
  · obtain ⟨-, -, -, hbase⟩ := hc.rest
    have hleft := hb.left
    rw [Transit, hc.con]
    simp only [take, hst]
    refine ⟨?_, j, rfl, ?_⟩
    · rw [Station.Answered, hc.regs, hmail]; exact ha
    · constructor
      · rw [hbase, hgot']; omega
      · rw [hbase, hgot']; exact hb.size
      · intro n hn
        rw [hbase, hmail]
        exact hb.shows n (by omega)
      · rw [hbase, hgot', if_neg (by omega), hc.wat]
        exact h'.consumed_wat hgot hr hb

/-- A micro-step takes the network machine from one state of its cycle to the next. -/
theorem Paired.micro_transit (h : Paired x y) (h' : Paired y x) :
    Transit y.sent (x.micro y.sent) := by
  have ht := h.served.transit
  have hgot := h.served.flow.got_le
  have hsame := fun {x'} (k : SameTransit x x') => ht.same_rs k hgot
  rw [Transit] at ht
  cases hst : x.solo.con.vonst <;> simp only [hst] at ht
  case wiss =>
    obtain ⟨L, hword, htx⟩ := launched_wiss hst y.sent
    rw [Transit, L.vonst]
    refine ⟨L.voseq, ht.2.of_launched L, ?_⟩
    rw [if_neg L.waiting, htx]
    exact ⟨L.cmd, hword, rfl⟩
  case siss =>
    have L := launched_siss hst y.sent
    rw [Transit, L.vonst]
    refine ⟨L.voseq, ht.2.of_launched L, ?_⟩
    rw [if_neg L.waiting]
    exact L.cmd
  case riss =>
    obtain ⟨L, hword⟩ := launched_riss hst y.sent
    obtain ⟨-, hclear, k, hlo, hhi, hv, hle⟩ := ht
    rw [Transit, L.vonst]
    refine ⟨L.voseq, ?_⟩
    rw [if_neg L.waiting]
    exact ⟨hclear.of_launched L, L.cmd, by rw [hword, L.vordn], k, hlo, hhi, L.vordn.trans hv,
      by rw [L.rest.2.1]; exact hle⟩
  case wack =>
    obtain ⟨hseq, hclear, hrest⟩ := ht
    by_cases ha : x.Answered
    · rw [if_pos ha] at hrest
      have hcon := acked_wack hst hseq ha hrest
      rw [micro_eq (by rw [hst]; decide), Transit]
      simp only [hcon]
      exact ⟨by simpa [Station.Answered, Solo.micro, vonstep, hst] using ha, hclear⟩
    · exact hsame (SameTransit.wait hseq ha (.inl hst) _)
  case sack =>
    obtain ⟨hseq, hclear, hrest⟩ := ht
    by_cases ha : x.Answered
    · rw [if_pos ha] at hrest
      obtain ⟨herr, hdev, hcount⟩ := hrest
      have ha' : (x.micro y.sent).Answered := by
        rw [micro_eq (by rw [hst]; decide)]
        simpa [Station.Answered, Solo.micro, vonstep, hst] using ha
      rw [micro_eq (by rw [hst]; decide)] at ha' ⊢
      rcases acked_sack hst hseq ha herr hdev with hcon | ⟨k, hlo, hhi, hle, hcon⟩
      · rw [Transit]
        simp only [hcon]
        exact ⟨ha', hclear⟩
      · rw [Transit]
        simp only [hcon]
        exact ⟨ha', hclear, k, hlo, hhi, by rw [hcon], hle.trans hcount⟩
    · exact hsame (SameTransit.wait hseq ha (.inr (.inl hst)) _)
  case rack =>
    obtain ⟨hseq, hrest⟩ := ht
    by_cases ha : x.Answered
    · rw [if_pos ha] at hrest
      obtain ⟨herr, k, hk, hlen, hb⟩ := hrest
      have hcon := acked_rack hst hseq ha herr
      have hrecs : x.mail.fnrxlo >>> 4 = BitVec.ofNat 8 k := by
        have := hb.left
        have := hb.size
        rw [hlen]
        exact ofNat_records (by omega)
      rw [micro_eq (by rw [hst]; decide), Transit]
      simp only [hcon]
      exact ⟨by simpa [Station.Answered, Solo.micro, vonstep, hst] using ha, k, hrecs,
        ⟨hb.left, hb.size, hb.shows, hb.wat⟩⟩
    · exact hsame (SameTransit.wait hseq ha (.inr (.inr hst)) _)
  case cons => exact h.cons_transit h' hst

end

end VO
