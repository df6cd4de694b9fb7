import VideoOlympics.Base.Reaches
import VideoOlympics.Lockstep.Bound

/-! A match is never stuck. Whatever state two consoles have got into, the one that is behind can be
    brought the other's newest record and let run: its network machine comes round to a WRITE, takes
    what is waiting for it batch by batch, and the gate finds the tick it needs. -/

namespace VO

section
variable {x y : Station}

/-! ### One way round the network machine -/

/-- What the transport does next: the cartridge answers, or the console takes a micro-step. -/
def Station.forth (theirs : List Rec) (x : Station) : Station :=
  if x.Answered then x.micro theirs else x.answer.1

/-- How many micro-steps and answers it is to the next WRITE at the most. -/
def Station.dist (x : Station) : ℕ :=
  match x.solo.con.vonst with
  | .wiss => 25
  | .wack => if x.Answered then 23 else 24
  | .siss => 22
  | .sack => if x.Answered then 20 else 21
  | .riss => 19
  | .rack => if x.Answered then 17 else 18
  | .cons => 1 + x.solo.con.vordn.toNat
  | .idle => 0
  | .fail => 0

/-- A whole record has arrived, and the transport is on its way to a READ that will take it. -/
def Station.Fed (x : Station) : Prop :=
  16 ≤ x.inbox.length ∧
    match x.solo.con.vonst with
    | .wiss | .wack | .siss | .riss => True
    | .sack => x.Answered → x.mail.fnrply 1 ≠ 0 ∨ x.mail.fnrply 0 &&& irMask ≠ 0
    | .rack => ¬x.Answered
    | _ => False

/-- What the transport does leaves the rest of the console, and what is on the wire to it, alone. -/
structure Moved (x x' : Station) : Prop where
  tick : x'.tick = x.tick
  bank : x'.solo.con.bank = x.solo.con.bank
  wire : x'.wire = x.wire
  got : x.got ≤ x'.got

theorem Moved.refl (x : Station) : Moved x x := ⟨rfl, rfl, rfl, le_refl _⟩

theorem Moved.trans {z : Station} (h : Moved x y) (h' : Moved y z) : Moved x z :=
  ⟨h'.tick.trans h.tick, h'.bank.trans h.bank, h'.wire.trans h.wire, h.got.trans h'.got⟩

theorem Moved.micro (x : Station) (rs : List Rec) : Moved x (x.micro rs) := by
  obtain ⟨hsolo, -, -, hwire, hgot⟩ := micro_fixed x rs
  refine ⟨?_, ?_, hwire, hgot.ge⟩
  · rw [Station.tick, hsolo, (micro_same _ _).1]
    rfl
  · rw [hsolo]
    exact (kept_vonstep _ _ _).bank

theorem answer_fixed (x : Station) : x.answer.1.solo = x.solo ∧ x.answer.1.Answered ∧
    x.answer.1.wire = x.wire ∧ x.got ≤ x.answer.1.got := by
  refine ⟨rfl, ?_, rfl, Nat.le_add_right _ _⟩
  rw [Station.Answered, Station.answer, answer]
  dsimp only
  split_ifs <;> rfl

theorem Moved.answer (x : Station) : Moved x x.answer.1 := by
  obtain ⟨hsolo, -, hwire, hgot⟩ := answer_fixed x
  exact ⟨by rw [Station.tick, hsolo]; rfl, by rw [hsolo], hwire, hgot⟩

theorem Moved.forth (x : Station) (rs : List Rec) : Moved x (x.forth rs) := by
  rw [Station.forth]
  split
  · exact .micro x rs
  · exact .answer x

/-- STATUS reports a record that has arrived. -/
theorem statusReply_whole {n : ℕ} (hn : 16 ≤ n) :
    (statusReply n).getD 1 0 ≠ 0 ∨ (statusReply n).getD 0 0 &&& irMask ≠ 0 := by
  have hmask : ∀ b : Byte, 16 ≤ b.toNat → b &&& irMask ≠ 0 := by decide
  by_cases hlow : n < 256
  · refine .inr (hmask _ ?_)
    simp only [statusReply, List.getD_cons_zero, BitVec.toNat_ofNat]
    omega
  · refine .inl fun h => ?_
    have hhigh : ((statusReply n).getD 1 0).toNat = 0 := by rw [h]; rfl
    simp only [statusReply, List.getD_cons_succ, List.getD_cons_zero, BitVec.toNat_ofNat] at hhigh
    omega

/-- The last leg of STATUS. -/
theorem acked_sack_fed (hst : x.solo.con.vonst = .sack) (hseq : x.solo.con.voseq = x.solo.regs.seq)
    (ha : x.Answered) (herr : x.mail.fnerr = 0) (hdev : x.mail.fnrply 3 = 1)
    (hfed : x.mail.fnrply 1 ≠ 0 ∨ x.mail.fnrply 0 &&& irMask ≠ 0) :
    (x.solo.micro x.mail).con.vonst = .riss := by
  have hmicro : (x.solo.micro x.mail).con = vossack x.mail x.solo.con := by
    simp only [Solo.micro, vonstep, hst]
  rw [hmicro, vossack, if_pos ((voack_iff hseq).mpr ha), if_neg (by simp [herr, hdev])]
  rcases hfed with hfed | hfed
  · rw [if_pos hfed]
  · split
    · rfl
    · rfl

theorem Paired.forth_answer (h : Paired x y) (ha : ¬x.Answered) :
    x.answer.1.dist < x.dist ∧ (x.Fed → x.got < x.answer.1.got ∨ x.answer.1.Fed) := by
  have ht := h.served.transit
  obtain ⟨hsolo, hans, -, -⟩ := answer_fixed x
  rw [Transit] at ht
  rw [Station.dist, Station.dist, hsolo, if_pos hans, if_pos hans, if_pos hans, if_neg ha, if_neg ha,
    if_neg ha]
  cases hst : x.solo.con.vonst <;> simp only [hst] at ht
  case wiss | siss => exact absurd ht.1 ha
  case riss => exact absurd ht.1 ha
  case cons => exact absurd ht.1 ha
  case wack =>
    obtain ⟨-, -, hrest⟩ := ht
    rw [if_neg ha] at hrest
    obtain ⟨hcmd, hword, hlen⟩ := hrest
    refine ⟨Nat.lt_succ_self _, fun hfed => .inr ?_⟩
    rw [answer_write hcmd hword hlen]
    exact ⟨hfed.1, by rw [hst]; trivial⟩
  case sack =>
    obtain ⟨-, -, hrest⟩ := ht
    rw [if_neg ha] at hrest
    refine ⟨Nat.lt_succ_self _, fun hfed => .inr ?_⟩
    rw [answer_status hrest]
    refine ⟨hfed.1, ?_⟩
    simp only [hst]
    exact fun _ => statusReply_whole hfed.1
  case rack =>
    obtain ⟨-, hrest⟩ := ht
    rw [if_neg ha] at hrest
    obtain ⟨-, hcmd, hword, k, hlo, hhi, hv, hle⟩ := hrest
    have hword' : x.solo.regs.word = 16 * k := by
      rw [hword, hv, BitVec.toNat_ofNat]; omega
    refine ⟨Nat.lt_succ_self _, fun _ => .inl ?_⟩
    rw [answer_read hcmd hword' hle]
    exact Nat.lt_add_of_pos_right hlo

/-- The transport has gone on: it is at a WRITE, or nearer to one; and on its way to a READ it has not
    turned back. -/
structure Onward (x x' : Station) : Prop where
  nearer : x'.solo.con.vonst = .wiss ∨ x'.dist < x.dist
  fed : x.Fed → x'.Fed ∧ x'.solo.con.vonst ≠ .wiss

theorem onward_wiss (hst : x.solo.con.vonst = .wiss) (rs : List Rec) : Onward x (x.micro rs) := by
  obtain ⟨L, -⟩ := launched_wiss hst rs
  refine ⟨.inr ?_, fun hfed => ⟨⟨?_, ?_⟩, ?_⟩⟩
  · simp only [Station.dist, L.vonst, hst, if_neg L.waiting]
    decide
  · rw [L.rest.2.1]
    exact hfed.1
  · rw [L.vonst]
    trivial
  · rw [L.vonst]
    exact NS.noConfusion

theorem onward_siss (hst : x.solo.con.vonst = .siss) (rs : List Rec) : Onward x (x.micro rs) := by
  have L := launched_siss hst rs
  refine ⟨.inr ?_, fun hfed => ⟨⟨?_, ?_⟩, ?_⟩⟩
  · simp only [Station.dist, L.vonst, hst, if_neg L.waiting]
    decide
  · rw [L.rest.2.1]
    exact hfed.1
  · simp only [L.vonst]
    exact fun hans => absurd hans L.waiting
  · rw [L.vonst]
    exact NS.noConfusion

theorem onward_riss (hst : x.solo.con.vonst = .riss) (rs : List Rec) : Onward x (x.micro rs) := by
  obtain ⟨L, -⟩ := launched_riss hst rs
  refine ⟨.inr ?_, fun hfed => ⟨⟨?_, ?_⟩, ?_⟩⟩
  · simp only [Station.dist, L.vonst, hst, if_neg L.waiting]
    decide
  · rw [L.rest.2.1]
    exact hfed.1
  · simp only [L.vonst]
    exact L.waiting
  · rw [L.vonst]
    exact NS.noConfusion

theorem onward_wack (hst : x.solo.con.vonst = .wack) (hseq : x.solo.con.voseq = x.solo.regs.seq)
    (ha : x.Answered) (herr : x.mail.fnerr = 0) (rs : List Rec) : Onward x (x.micro rs) := by
  have hcon := acked_wack hst hseq ha herr
  rw [micro_eq (by rw [hst]; decide)]
  refine ⟨.inr ?_, fun hfed => ⟨⟨hfed.1, ?_⟩, ?_⟩⟩
  · simp only [Station.dist, hcon, hst, if_pos ha]
    decide
  · rw [hcon]
    trivial
  · rw [hcon]
    exact NS.noConfusion

theorem onward_sack (hst : x.solo.con.vonst = .sack) (hseq : x.solo.con.voseq = x.solo.regs.seq)
    (ha : x.Answered) (herr : x.mail.fnerr = 0) (hdev : x.mail.fnrply 3 = 1) (rs : List Rec) :
    Onward x (x.micro rs) := by
  rw [micro_eq (by rw [hst]; decide)]
  constructor
  · rcases acked_sack hst hseq ha herr hdev with hcon | ⟨k, -, -, -, hcon⟩
    · exact .inl (by rw [hcon])
    · refine .inr ?_
      simp only [Station.dist, hcon, hst, if_pos ha]
      decide
  · intro hfed
    have hshow := hfed.2
    simp only [hst] at hshow
    have hcon := acked_sack_fed hst hseq ha herr hdev (hshow ha)
    exact ⟨⟨hfed.1, by rw [hcon]; trivial⟩, by rw [hcon]; exact NS.noConfusion⟩

/-- A batch of at most fifteen records comes in. -/
theorem onward_rack (hst : x.solo.con.vonst = .rack) (hseq : x.solo.con.voseq = x.solo.regs.seq)
    (ha : x.Answered) (herr : x.mail.fnerr = 0) {k : ℕ} (hk : k ≤ 15)
    (hlen : x.mail.fnrxlo = BitVec.ofNat 8 (16 * k)) (rs : List Rec) : Onward x (x.micro rs) := by
  have hcon := acked_rack hst hseq ha herr
  have hrecs : x.mail.fnrxlo >>> 4 = BitVec.ofNat 8 k := by
    rw [hlen]
    exact ofNat_records hk
  rw [micro_eq (by rw [hst]; decide)]
  refine ⟨.inr ?_, fun hfed => ?_⟩
  · simp only [Station.dist, hcon, hst, if_pos ha, hrecs, toNat_ofNat_small hk]
    omega
  · have hshow := hfed.2
    simp only [hst] at hshow
    exact absurd ha hshow

theorem Paired.onward_cons (h : Paired x y) (h' : Paired y x) (hst : x.solo.con.vonst = .cons) :
    Onward x (x.micro y.sent) := by
  constructor
  · rcases h.cons_cases h' hst with ⟨-, -, heq, hcon⟩ | ⟨r, j, hv, hb, -, -, hc⟩
    · exact .inl (by rw [heq, hcon])
    · refine .inr ?_
      have hj : j + 1 ≤ 15 := hb.le
      have hst' : (x.micro y.sent).solo.con.vonst = .cons := by rw [hc.con, take, hst]
      have hv' : (x.micro y.sent).solo.con.vordn = BitVec.ofNat 8 j := by rw [hc.con]; rfl
      simp only [Station.dist, hst', hst, hv', hv, toNat_ofNat_small hj,
        toNat_ofNat_small (Nat.le_of_succ_le hj)]
      omega
  · intro hfed
    have hshow := hfed.2
    simp only [hst] at hshow

theorem Paired.forth_micro (h : Paired x y) (h' : Paired y x) (ha : x.Answered) :
    Onward x (x.micro y.sent) := by
  have ht := h.served.transit
  rw [Transit] at ht
  cases hst : x.solo.con.vonst <;> simp only [hst] at ht
  case wiss => exact onward_wiss hst y.sent
  case siss => exact onward_siss hst y.sent
  case riss => exact onward_riss hst y.sent
  case wack =>
    obtain ⟨hseq, -, hrest⟩ := ht
    rw [if_pos ha] at hrest
    exact onward_wack hst hseq ha hrest y.sent
  case sack =>
    obtain ⟨hseq, -, hrest⟩ := ht
    rw [if_pos ha] at hrest
    obtain ⟨herr, hdev, -⟩ := hrest
    exact onward_sack hst hseq ha herr hdev y.sent
  case rack =>
    obtain ⟨hseq, hrest⟩ := ht
    rw [if_pos ha] at hrest
    obtain ⟨herr, k, -, hlen, hb⟩ := hrest
    exact onward_rack hst hseq ha herr hb.le hlen y.sent
  case cons => exact h.onward_cons h' hst

end

/-! ### One side's transport -/

/-- Anything but a frame. -/
def Still (e : LinkEv) : Prop := ∀ i hw sim, e ≠ .gate i hw sim

/-- A match in which neither console has given up. -/
structure Link.Live (s : Link) : Prop where
  inStep : InStep s
  bank : ∀ i, (s i).solo.con.bank = .game

/-- One side's transport has moved on, and what it has written is on its way to the peer. -/
structure Carried (i : Side) (s t : Link) : Prop where
  own : Moved (s i) (t i)
  peer : ∃ bs, t i.other = (s i.other).carry bs

section
variable {s t u : Link} {i : Side}

theorem Carried.refl (i : Side) (s : Link) : Carried i s s :=
  ⟨.refl _, [], by rw [Station.carry, List.append_nil]⟩

theorem Carried.trans (h : Carried i s t) (h' : Carried i t u) : Carried i s u := by
  obtain ⟨bs, hbs⟩ := h.peer
  obtain ⟨cs, hcs⟩ := h'.peer
  refine ⟨h.own.trans h'.own, bs ++ cs, ?_⟩
  rw [hcs, hbs, Station.carry, Station.carry, Station.carry, List.append_assoc]

/-- The other console is as it was, but for its wire. -/
theorem Carried.same (h : Carried i s t) : (t i.other).solo = (s i.other).solo ∧
    (t i.other).pending = (s i.other).pending ∧ (t i.other).sent = (s i.other).sent := by
  obtain ⟨bs, hbs⟩ := h.peer
  rw [hbs]
  exact ⟨rfl, rfl, rfl⟩

theorem Carried.tick (h : Carried i s t) (j : Side) : (t j).tick = (s j).tick := by
  rcases i.eq_or_other j with rfl | rfl
  · exact h.own.tick
  · rw [Station.tick, h.same.1]
    rfl

theorem Link.Live.carried (hs : s.Live) (h : Carried i s t) (ht : InStep t) : t.Live := by
  refine ⟨ht, fun j => ?_⟩
  rcases i.eq_or_other j with rfl | rfl
  · exact h.own.bank.trans (hs.bank _)
  · rw [h.same.1]
    exact hs.bank _

theorem reaches_step {e : LinkEv} (he : Still e) (h : s.step e = some t) :
    lockstep.Reaches Still s t :=
  Machine.Reaches.of_step (M := lockstep) he h

/-- It can always do the next thing. -/
theorem Link.Live.forth (hs : s.Live) (i : Side) : ∃ t, lockstep.Reaches Still s t ∧
    Carried i s t ∧ t.Live ∧ t i = (s i).forth (s i.other).sent := by
  by_cases ha : (s i).Answered
  · have hstep : s.step (.micro i) =
        some (Function.update s i ((s i).micro (s i.other).sent)) := if_pos (hs.bank i)
    have hown : Function.update s i ((s i).micro (s i.other).sent) i = (s i).micro (s i.other).sent :=
      Function.update_self ..
    have hpeer : Function.update s i ((s i).micro (s i.other).sent) i.other = s i.other :=
      Function.update_of_ne (Side.other_ne i) ..
    have hcarried : Carried i s (Function.update s i ((s i).micro (s i.other).sent)) :=
      ⟨hown.symm ▸ .micro _ _, [], by rw [hpeer, Station.carry, List.append_nil]⟩
    exact ⟨_, reaches_step (fun _ _ _ => LinkEv.noConfusion) hstep, hcarried,
      hs.carried hcarried (hs.inStep.step hstep), by rw [hown, Station.forth, if_pos ha]⟩
  · obtain ⟨t, hstep⟩ : ∃ t, s.step (.answer i) = some t := ⟨_, if_neg fun h => ha h.symm⟩
    obtain ⟨j, hw', sim', he, -⟩ | ⟨j, he, -⟩ | ⟨j, he, -, hown, hpeer⟩ | ⟨j, n, he, -⟩ :=
      Link.step_cases hstep
    · cases he
    · cases he
    · obtain rfl := LinkEv.answer.inj he
      have hcarried : Carried i s t := ⟨hown.symm ▸ .answer _, _, hpeer⟩
      exact ⟨t, reaches_step (fun _ _ _ => LinkEv.noConfusion) hstep, hcarried,
        hs.carried hcarried (hs.inStep.step hstep), by rw [hown, Station.forth, if_neg ha]⟩
    · cases he

/-- It comes round to a WRITE. -/
theorem Link.Live.round (hs : s.Live) (i : Side) : ∃ t, lockstep.Reaches Still s t ∧
    Carried i s t ∧ t.Live ∧ (t i).solo.con.vonst = .wiss := by
  refine Machine.reaches_of_measure (Carried.refl i) (fun _ _ _ => Carried.trans)
    (fun s => (s i).dist) (fun s hs hround => ?_) hs
  obtain ⟨t, hreach, hcarried, ht, hown⟩ := hs.forth i
  refine ⟨t, hreach, hcarried, ht, ?_⟩
  have hi := hs.inStep i
  rw [hown, Station.forth]
  split
  · next ha => exact (hi.forth_micro (hs.inStep.peer i) ha).nearer
  · next ha => exact .inr (hi.forth_answer ha).1

/-- With a whole record in the inbox it comes to a READ that takes one. -/
theorem Link.Live.feed (hs : s.Live) (hfed : (s i).Fed) : ∃ t, lockstep.Reaches Still s t ∧
    Carried i s t ∧ t.Live ∧ (s i).got < (t i).got := by
  have hleg : ∀ u : Link, u.Live ∧ (s i).got ≤ (u i).got ∧ (u i).Fed → ¬(s i).got < (u i).got →
      ∃ t, lockstep.Reaches Still u t ∧ Carried i u t ∧
        (t.Live ∧ (s i).got ≤ (t i).got ∧ ((s i).got < (t i).got ∨ (t i).Fed)) ∧
          ((s i).got < (t i).got ∨ (t i).dist < (u i).dist) := by
    rintro u ⟨hu, hle, hfed⟩ -
    obtain ⟨t, hreach, hcarried, ht, hown⟩ := hu.forth i
    have hi := hu.inStep i
    refine ⟨t, hreach, hcarried, ⟨ht, hle.trans hcarried.own.got, ?_⟩, ?_⟩
    · rw [hown, Station.forth]
      split
      · next ha => exact .inr ((hi.forth_micro (hu.inStep.peer i) ha).fed hfed).1
      · next ha => exact ((hi.forth_answer ha).2 hfed).imp_left hle.trans_lt
    · rw [hown, Station.forth]
      split
      · next ha =>
        obtain ⟨hdist, hround⟩ := hi.forth_micro (hu.inStep.peer i) ha
        exact .inr (hdist.resolve_left (hround hfed).2)
      · next ha => exact .inr (hi.forth_answer ha).1
  obtain ⟨t, hreach, hcarried, ⟨ht, -, -⟩, hgot⟩ := Machine.reaches_of_measure (Carried.refl i)
    (fun _ _ _ => Carried.trans)
    (I := fun u => u.Live ∧ (s i).got ≤ (u i).got ∧ ((s i).got < (u i).got ∨ (u i).Fed))
    (G := fun u => (s i).got < (u i).got) (fun u => (u i).dist)
    (fun u hu hless => hleg u ⟨hu.1, hu.2.1, hu.2.2.resolve_left hless⟩ hless)
    ⟨hs, le_refl _, .inr hfed⟩
  exact ⟨t, hreach, hcarried, ht, hgot⟩

/-! ### Catching up -/

/-- Nothing is on its way to this side, and its own transport is at a WRITE. -/
structure Link.Waiting (i : Side) (s : Link) : Prop where
  live : s.Live
  wire : (s i).wire = []
  pending : (s i.other).pending = []
  vonst : (s i).solo.con.vonst = .wiss

/-- Everything the peer has written that has not been READ has arrived. -/
theorem Link.Waiting.inbox (hs : s.Waiting i) :
    (s i).inbox.length = 16 * ((s i.other).sent.length - (s i).got) := by
  have hstream := congrArg List.length (hs.live.inStep i).served.flow.stream
  rw [hs.wire, hs.pending, List.append_nil, List.append_nil, List.length_drop,
    (hs.live.inStep.peer i).length_sent] at hstream
  rw [hstream, Nat.mul_sub]

/-- It READs all of it. -/
theorem Link.Waiting.drain (hs : s.Waiting i) : ∃ t, lockstep.Reaches Still s t ∧
    Carried i s t ∧ t.Waiting i ∧ (t i).got = (t i.other).sent.length := by
  refine Machine.reaches_of_measure (Carried.refl i) (fun _ _ _ => Carried.trans)
    (fun s => (s i.other).sent.length - (s i).got) (fun s hs hmore => ?_) hs
  have hgot := (hs.live.inStep i).served.flow.got_le
  have hfed : (s i).Fed := by
    refine ⟨?_, by rw [hs.vonst]; trivial⟩
    rw [hs.inbox]
    omega
  obtain ⟨t, hst, hread, ht, hless⟩ := hs.live.feed hfed
  obtain ⟨u, htu, hround, hu, hvonst⟩ := ht.round i
  have hboth := hread.trans hround
  refine ⟨u, hst.trans htu, hboth, ⟨hu, ?_, ?_, hvonst⟩, .inr ?_⟩
  · exact hboth.own.wire.trans hs.wire
  · exact hboth.same.2.1.trans hs.pending
  · have hsent : (u i.other).sent = (s i.other).sent := hboth.same.2.2
    have hmono := hround.own.got
    rw [hsent]
    omega

/-- The one side WRITEs: its newest record is stamped two ticks ahead, and it is all on the wire. -/
theorem Link.Live.write (hs : s.Live) (hst : (s i).solo.con.vonst = .wiss) :
    ∃ t, lockstep.Reaches Still s t ∧ Carried i s t ∧ t.Live ∧ (t i).pending = [] ∧
      mark (t i).sent (t i).sent.length = (s i).tick + 2 := by
  have hi := hs.inStep i
  have ha : (s i).Answered := by
    have htransit := hi.served.transit
    simp only [Transit, hst] at htransit
    exact htransit.1
  obtain ⟨t, hst₁, hc₁, ht, hown₁⟩ := hs.forth i
  rw [Station.forth, if_pos ha] at hown₁
  obtain ⟨L, -⟩ := launched_wiss hst (s i.other).sent
  obtain ⟨u, hst₂, hc₂, hu, hown₂⟩ := ht.forth i
  rw [Station.forth, if_neg (hown₁ ▸ L.waiting)] at hown₂
  obtain ⟨hsolo, hans, -⟩ := answer_fixed (t i)
  have hsent : (u i).sent =
      (s i).sent ++ [⟨(s i).tick + 2, (s i).solo.tape.record ((s i).tick + 2)⟩] := by
    rw [Station.sent, hown₂, hsolo, hown₁, (micro_fixed _ _).1, hi.sound.micro_sent, if_pos hst]
    rfl
  refine ⟨u, hst₁.trans hst₂, hc₁.trans hc₂, hu, ?_, ?_⟩
  · rw [hown₂]
    exact if_neg fun hpending => hpending.2 hans
  · rw [hsent, List.length_append, List.length_singleton]
    exact mark_succ List.getElem?_concat_length

/-- It can be brought the peer's newest record, stamped two ticks ahead of it. -/
theorem Link.Live.catchUp (hs : s.Live) (i : Side) : ∃ t, lockstep.Reaches Still s t ∧
    t.Live ∧ (∀ j, (t j).tick = (s j).tick) ∧ (s i.other).tick + 2 ≤ (t i).wat := by
  obtain ⟨t₁, hr₁, hc₁, ht₁, hwiss⟩ := hs.round i.other
  obtain ⟨t₂, hr₂, hc₂, ht₂, hpending, hmark⟩ := ht₁.write hwiss
  -- Everything it has written arrives.
  obtain ⟨t₃, hstep, hown, hpeer⟩ : ∃ t₃, t₂.step (.arrive i (t₂ i).wire.length) = some t₃ ∧
      t₃ i = (t₂ i).arrive (t₂ i).wire.length ∧ t₃ i.other = t₂ i.other :=
    ⟨_, rfl, Function.update_self .., Function.update_of_ne (Side.other_ne i) ..⟩
  have hr₃ : lockstep.Reaches Still t₂ t₃ :=
    reaches_step (fun _ _ _ => LinkEv.noConfusion) hstep
  have htick₃ : ∀ j, (t₃ j).tick = (t₂ j).tick := by
    intro j
    rcases i.eq_or_other j with rfl | rfl
    · rw [hown]
      rfl
    · rw [hpeer]
  have ht₃ : t₃.Live := by
    refine ⟨ht₂.inStep.step hstep, fun j => ?_⟩
    rcases i.eq_or_other j with rfl | rfl
    · rw [hown]
      exact ht₂.bank _
    · rw [hpeer]
      exact ht₂.bank _
  obtain ⟨t₄, hr₄, hc₄, ht₄, hwiss₄⟩ := ht₃.round i
  have hwaiting : t₄.Waiting i := by
    refine ⟨ht₄, ?_, ?_, hwiss₄⟩
    · rw [hc₄.own.wire, hown, Station.arrive, List.drop_length]
    · rw [hc₄.same.2.1, hpeer]
      exact hpending
  obtain ⟨t₅, hr₅, hc₅, ht₅, hgot⟩ := hwaiting.drain
  refine ⟨t₅, hr₁.trans (hr₂.trans (hr₃.trans (hr₄.trans hr₅))), ht₅.live, fun j => ?_, ?_⟩
  · rw [hc₅.tick, hc₄.tick, htick₃, hc₂.tick, hc₁.tick]
  · have htransit := (ht₅.live.inStep i).served.transit
    simp only [Transit, ht₅.vonst] at htransit
    have hsent : (t₅ i.other).sent = (t₂ i.other).sent := by
      rw [hc₅.same.2.2, hc₄.same.2.2, hpeer]
    rw [htransit.2.2, hgot, hsent, hmark, hc₁.tick]

/-! ### The frames -/

/-- How many frames it is at the most to the next advance, if none of them stalls. -/
def Station.frames (x : Station) : ℕ :=
  (4 - phaseOf x.solo.con.voent) % 4 + if has x.solo.con.voent voeRan then 1 else 5

/-- A frame with the tick it decides inside the watermark: the tick goes up, or it is nearer. -/
theorem Paired.gate_frames {x y : Station} (h : Paired x y) (h' : Paired y x) (hw : Hw) (sim : Sim)
    (hwat : x.tick + 1 ≤ x.wat) : (x.solo.gate hw sim).con.bank = x.solo.con.bank ∧
      ((x.solo.gate hw sim).tape.tick = x.tick + 1 ∨
        (x.solo.gate hw sim).tape.tick = x.tick ∧
          ({ x with solo := x.solo.gate hw sim } : Station).frames < x.frames) := by
  have hnext := h.nextTick_le
  have hlt := phaseOf_lt x.solo.con.voent
  have htick : (x.solo.gate hw sim).tape.tick = nextTick x.solo := gate_tick ..
  simp only [Station.frames]
  obtain ⟨-, hmid | hrun | hstall⟩ := frame_cases hw sim x.solo.con h.sound.net
  · have hbefore := hmid.before
    have hsame : nextTick x.solo = x.tick := by simp [nextTick, advances, hbefore, Station.tick]
    refine ⟨hmid.bank, .inr ⟨htick.trans hsame, ?_⟩⟩
    have hphase : phaseOf (x.solo.gate hw sim).con.voent = (phaseOf x.solo.con.voent + 1) % 4 :=
      hmid.phase
    have hran : has (x.solo.gate hw sim).con.voent voeRan = has x.solo.con.voent voeRan := hmid.ran
    rw [hphase, hran]
    omega
  · refine ⟨hrun.bank, ?_⟩
    have hphase : phaseOf (x.solo.gate hw sim).con.voent = 1 := hrun.phase
    have hran : has (x.solo.gate hw sim).con.voent voeRan = true := hrun.ran
    cases hbefore : has x.solo.con.voent voeRan with
    | true =>
      have hadv : nextTick x.solo = x.tick + 1 := by
        simp [nextTick, advances, hrun.before, hbefore, Station.tick]
      exact .inl (htick.trans hadv)
    | false =>
      have hsame : nextTick x.solo = x.tick := by simp [nextTick, advances, hbefore, Station.tick]
      refine .inr ⟨htick.trans hsame, ?_⟩
      rw [hphase, hran, hrun.before]
      decide
  · have hlate := h.wat_lt_of_stall h' hstall.adv
    omega

/-- The same event, but for what a frame brings with it. -/
def LinkEv.Like : LinkEv → LinkEv → Prop
  | .gate i _ _, e => ∃ hw sim, e = .gate i hw sim
  | e, e' => e' = e

theorem eq_of_still {e e' : LinkEv} (he : Still e) (h : e.Like e') : e' = e := by
  cases e with
  | gate i hw sim => exact absurd rfl (he i hw sim)
  | micro i => exact h
  | answer i => exact h
  | arrive i n => exact h

/-- A frame of a side that has the next tick inside its watermark leaves the other side alone. -/
theorem Link.Live.frame (hs : s.Live) (hwat : (s i).tick + 1 ≤ (s i).wat) {hw : Hw} {sim : Sim}
    (hstep : s.step (.gate i hw sim) = some t) : t.Live ∧ t i.other = s i.other ∧
      (t i).wat = (s i).wat ∧ ((t i).tick = (s i).tick + 1 ∨
        (t i).tick = (s i).tick ∧ (t i).frames < (s i).frames) := by
  have ht : t = Function.update s i { s i with solo := (s i).solo.gate hw sim } := by
    simp only [Link.step, Option.ite_none_right_eq_some, Option.some.injEq] at hstep
    exact hstep.2.symm
  have hown : t i = { s i with solo := (s i).solo.gate hw sim } := by rw [ht, Function.update_self]
  have hpeer : t i.other = s i.other := by rw [ht, Function.update_of_ne (Side.other_ne i)]
  obtain ⟨hbank, hcase⟩ := (hs.inStep i).gate_frames (hs.inStep.peer i) hw sim hwat
  refine ⟨⟨hs.inStep.step hstep, fun j => ?_⟩, hpeer, by rw [hown], by rw [hown]; exact hcase⟩
  rcases i.eq_or_other j with rfl | rfl
  · rw [hown]
    exact hbank.trans (hs.bank _)
  · rw [hpeer]
    exact hs.bank _

/-- With the next tick inside its watermark, the gate comes to it, whatever the frames bring. -/
theorem Link.Live.advance (hs : s.Live) (hwat : (s i).tick + 1 ≤ (s i).wat) :
    lockstep.Forces LinkEv.Like (fun t => t.Live ∧ (t i).tick = (s i).tick + 1 ∧
      (t i.other).tick = (s i.other).tick) s := by
  have hforces : lockstep.Forces LinkEv.Like _ s := Machine.forces_of_measure
    (I := fun u => u.Live ∧ (u i).wat = (s i).wat ∧ (u i.other).tick = (s i.other).tick ∧
      ((u i).tick = (s i).tick + 1 ∨ (u i).tick = (s i).tick))
    (G := fun u => (u i).tick = (s i).tick + 1) (fun u => (u i).frames) ?_ ⟨hs, rfl, rfl, .inr rfl⟩
  · exact hforces.mono fun t ht => ⟨ht.1.1, ht.2, ht.1.2.2.1⟩
  rintro u ⟨hu, hwat', hother, htick⟩ hmore
  have htick := htick.resolve_left hmore
  refine .turn (.gate i Hw.rest Console.cleared.sim) ?_ ?_
  · rintro _ ⟨hw, sim, rfl⟩
    exact Option.isSome_iff_exists.mpr ⟨_, if_pos (hu.bank i)⟩
  · rintro _ t ⟨hw, sim, rfl⟩ hstep
    obtain ⟨ht, hpeer, hkept, hcase⟩ := hu.frame (by rw [htick, hwat']; exact hwat) hstep
    rw [htick] at hcase
    exact .done ⟨⟨ht, hkept.trans hwat', by rw [hpeer, hother], hcase.imp_right And.left⟩,
      hcase.imp_right And.right⟩

/-- The one that is behind can be let run. -/
theorem Link.Live.goOn (hs : s.Live) (i : Side) (hbehind : (s i).tick ≤ (s i.other).tick) :
    lockstep.Forces LinkEv.Like (fun t => t.Live ∧ (t i).tick = (s i).tick + 1 ∧
      (t i.other).tick = (s i.other).tick) s := by
  obtain ⟨t, hst, ht, htick, hwat⟩ := hs.catchUp i
  have hnext : (t i).tick + 1 ≤ (t i).wat := by
    rw [htick]
    omega
  refine hst.forces (fun _ _ => eq_of_still) ((ht.advance hnext).mono ?_)
  rintro u ⟨hu, hown, hpeer⟩
  exact ⟨hu, hown.trans (by rw [htick]), hpeer.trans (htick _)⟩

end

/-- Both consoles can be brought past any tick, whatever their frames bring. -/
theorem Link.Live.past {s : Link} (hs : s.Live) (n : ℤ) :
    lockstep.Forces LinkEv.Like (fun t => t.Live ∧ ∀ i, n ≤ (t i).tick) s := by
  refine Machine.forces_of_measure
    (fun s => (n - (s .host).tick).toNat + (n - (s .guest).tick).toNat) (fun s hs hmore => ?_) hs
  obtain ⟨i, hbehind, hless⟩ : ∃ i : Side, (s i).tick ≤ (s i.other).tick ∧ (s i).tick < n := by
    by_contra hnone
    push Not at hnone
    have hhost := hnone .host
    have hguest := hnone .guest
    simp only [Side.other] at hhost hguest
    refine hmore fun i => ?_
    cases i with
    | host => omega
    | guest => omega
  refine (hs.goOn i hbehind).mono ?_
  rintro t ⟨ht, hown, hpeer⟩
  refine ⟨ht, .inr ?_⟩
  cases i with
  | host =>
    simp only [Side.other] at hpeer
    omega
  | guest =>
    simp only [Side.other] at hpeer
    omega

/-- What the players hold in a frame and the game does with it may depend on all that has come before:
    every frame of the events brings what it says for that. -/
def Held (inputs : List LinkEv → Side → Hw × Sim) (es : List LinkEv) : Prop :=
  ∀ before i hw sim after, es = before ++ .gate i hw sim :: after → (hw, sim) = inputs before i

/-- A match is never stuck: in every state of every match, as long as both consoles are in it, and
    whatever the players hold in each frame and the game does from there on, frames, micro-steps,
    answers and deliveries can come in an order in which both consoles get past any tick. -/
theorem lockstep_goes_on {s : Link} (h : lockstep.Reachable s) (hbank : ∀ i, (s i).solo.con.bank = .game)
    (inputs : List LinkEv → Side → Hw × Sim) (n : ℤ) :
    ∃ es t, Held inputs es ∧ lockstep.run s es = some t ∧
      ∀ i, n ≤ (t i).tick ∧ (t i).solo.con.bank = .game := by
  have hlive : s.Live := ⟨inStep_of_reachable h, hbank⟩
  have hheld : ∀ (past : List LinkEv) (e : LinkEv), ∃ e', e.Like e' ∧
      ∀ i hw sim, e' = .gate i hw sim → (hw, sim) = inputs past i := by
    intro past e
    cases e with
    | gate i hw sim =>
      refine ⟨.gate i (inputs past i).1 (inputs past i).2, ⟨_, _, rfl⟩, ?_⟩
      rintro j hw' sim' ⟨⟩
      rfl
    | micro i => exact ⟨_, rfl, fun _ _ _ => LinkEv.noConfusion⟩
    | answer i => exact ⟨_, rfl, fun _ _ _ => LinkEv.noConfusion⟩
    | arrive i n => exact ⟨_, rfl, fun _ _ _ => LinkEv.noConfusion⟩
  obtain ⟨es, t, hes, hrun, ht, hpast⟩ := (hlive.past n).exists_run hheld []
  exact ⟨es, t, fun before i hw sim after hsplit => hes before _ after hsplit i hw sim rfl, hrun,
    fun i => ⟨hpast i, ht.bank i⟩⟩

/-- Paddles that go up by one with everything that happens. -/
def drifting (past : List LinkEv) (_ : Side) : Hw × Sim :=
  ({ Hw.rest with bb := BitVec.ofNat 8 past.length }, Console.cleared.sim)

/-- The host has long been asleep when the match goes on. -/
theorem lockstep_goes_on_backlog : ∃ s, lockstep.run Link.rest backlog = some s ∧
    ((s .host).solo.con.bank = .game ∧ (s .guest).solo.con.bank = .game) ∧
    ∃ es t, Held drifting es ∧ lockstep.run s es = some t ∧
      ∀ i, 1000 ≤ (t i).tick ∧ (t i).solo.con.bank = .game := by
  refine lockstep.exists_run_of (by decide +kernel) ?_
  rintro s hrun ⟨hhost, hguest⟩
  refine lockstep_goes_on ⟨_, _, init_rest, hrun⟩ (fun i => ?_) drifting 1000
  cases i with
  | host => exact hhost
  | guest => exact hguest

end VO
