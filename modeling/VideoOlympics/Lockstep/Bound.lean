import VideoOlympics.Lockstep.Steps

/-! Every state of every match is in step: the invariant of the two consoles holds from the handover
    on, under any interleaving, and with it the bounds. -/

namespace VO

section
variable {x y : Station}

/-! ### A micro-step, for the watermark and the peer -/

/-- Outside CONSUME a micro-step leaves the remote ring and the watermark alone. -/
theorem vonstep_ring (m : Mail) (c : Console) (r : Regs) (hst : c.vonst ≠ .cons) :
    (vonstep m c r).1.vorwat = c.vorwat ∧ (vonstep m c r).1.voring = c.voring := by
  obtain ⟨st, seq, err, n, w0, w1, heq, -⟩ := vonstep_cells hst m r
  rw [heq]
  exact ⟨rfl, rfl⟩

/-- A step that consumes nothing. -/
structure Unread (x x' : Station) : Prop where
  vorwat : x'.solo.con.vorwat = x.solo.con.vorwat
  voring : x'.solo.con.voring = x.solo.con.voring
  wat : x'.wat = x.wat
  eaten : x'.eaten = x.eaten
  base : x'.base = x.base ∨ x'.base = x.got

/-- A micro-step consumes the record its batch has come to, or none. -/
theorem Paired.micro_cases (h : Paired x y) (h' : Paired y x) :
    (∃ r j, x.solo.con.vonst = .cons ∧ x.solo.con.vordn = BitVec.ofNat 8 (j + 1) ∧
      x.Batch y.sent (j + 1) ∧ y.sent[x.base + j]? = some r ∧ Shows x.mail j r.bytes ∧
      Consumed x (x.micro y.sent) y.solo.tape r j) ∨
    Unread x (x.micro y.sent) := by
  by_cases hst : x.solo.con.vonst = .cons
  · rcases h.cons_cases h' hst with ⟨-, -, hmicro, hcon⟩ | ⟨r, j, hv, hb, hr, hshow, hc⟩
    · rw [hmicro]
      exact .inr ⟨by rw [hcon], by rw [hcon], rfl, rfl, .inr rfl⟩
    · exact .inl ⟨r, j, hst, hv, hb, hr, hshow, hc⟩
  · obtain ⟨hwat, hring⟩ := vonstep_ring x.mail x.solo.con x.solo.regs hst
    rw [micro_eq hst]
    exact .inr ⟨hwat, hring, rfl, rfl, .inl rfl⟩

/-- The watermark only rises. -/
theorem Paired.micro_wat_ge (h : Paired x y) (h' : Paired y x) :
    x.wat ≤ (x.micro y.sent).wat := by
  rcases h.micro_cases h' with ⟨r, j, -, -, -, -, -, hc⟩ | hu
  · rw [hc.wat]; exact le_max_left _ _
  · exact hu.wat.ge

theorem Paired.micro_vorwat (h : Paired x y) (h' : Paired y x) :
    (x.micro y.sent).solo.con.vorwat = BitVec.ofInt 8 (x.micro y.sent).wat := by
  rcases h.micro_cases h' with ⟨r, j, -, -, -, hr, -, hc⟩ | hu
  · rw [hc.con, hc.wat]
    simp only [take, h.newer_iff h' hr (Nat.le_add_right _ _), decide_eq_true_eq]
    split
    · rename_i hlt
      rw [max_eq_left hlt.le]
      exact h.skew.vorwat
    · rw [max_eq_right (by omega)]
  · rw [hu.vorwat, hu.wat]
    exact h.skew.vorwat

theorem Skew.micro (h : Paired x y) (h' : Paired y x) : Skew (x.micro y.sent) y := by
  have hsolo := (micro_fixed x y.sent).1
  have hwat := h.micro_wat_ge h'
  have hbehind := h.skew.behind
  have htick : (x.micro y.sent).tick = x.tick := by
    rw [Station.tick, hsolo, (micro_same _ _).1]; rfl
  have hsent : (x.micro y.sent).sent = if x.solo.con.vonst = .wiss
      then x.sent ++ [⟨x.tick + 2, x.solo.tape.record (x.tick + 2)⟩] else x.sent := by
    rw [Station.sent, hsolo, h.sound.micro_sent]; rfl
  have hbase : mark y.sent x.base ≤ mark y.sent (x.micro y.sent).base := by
    have hmono := mark_mono h'.skew.sorted h'.stamp_ge h.served.transit.wat_eq.1
      h.served.flow.got_le
    rcases h.micro_cases h' with ⟨r, j, -, -, -, -, -, hc⟩ | hu
    · rw [hc.rest.2.2.2]
    · rcases hu.base with hb | hb <;> rw [hb]
      exact hmono
  constructor
  · exact h.micro_vorwat h'
  · rw [hsent]
    split
    · refine List.pairwise_append.mpr ⟨h.skew.sorted, List.pairwise_singleton _ _, ?_⟩
      intro r hr q hq
      rw [List.mem_singleton.mp hq]
      exact h.stamp_le r hr
    · exact h.skew.sorted
  · rw [htick]; omega
  · intro hr
    have hran : has (x.micro y.sent).solo.con.voent voeRan = has x.solo.con.voent voeRan := by
      rw [hsolo]; exact (kept_vonstep _ _ _).ran
    have := h.skew.ran (hran ▸ hr)
    rw [htick]; omega
  · intro r hr
    rw [hsent] at hr
    split at hr
    · rename_i hst
      rcases List.mem_append.mp hr with hr | hr
      · have := h.skew.floor r hr
        omega
      · have ht := h.served.transit
        simp only [Transit, hst] at ht
        obtain ⟨-, hb, hw⟩ := ht
        rw [List.mem_singleton.mp hr]
        rw [hb] at hbase
        dsimp only
        omega
    · have := h.skew.floor r hr
      omega
  · rcases h.micro_cases h' with ⟨r, j, -, -, -, -, -, hc⟩ | hu
    · rw [hc.wat, hc.eaten]
      intro t ht
      rcases List.mem_cons.mp ht with rfl | ht
      · exact le_max_right _ _
      · exact (h.skew.eaten t ht).trans (le_max_left _ _)
    · rw [hu.wat, hu.eaten]
      exact h.skew.eaten

theorem voscons_vonst (m : Mail) (c : Console) :
    (voscons m c).vonst = c.vonst ∨ (voscons m c).vonst = .wiss := by
  rw [voscons]
  split
  · exact .inr rfl
  · obtain ⟨ring, wat, ent, err, heq, -⟩ := voco1_cells m c
    rw [heq]
    exact .inl rfl

/-- Only WRITE leads to the wait for a WRITE's answer. -/
theorem vonstep_wack (m : Mail) (c : Console) (r : Regs)
    (h : (vonstep m c r).1.vonst = .wack) : c.vonst = .wiss ∨ c.vonst = .wack := by
  rw [vonstep] at h
  cases hst : c.vonst <;> simp only [hst] at h
  case wiss => exact .inl rfl
  case wack => exact .inr rfl
  case idle => simp at h
  case siss | riss => simp [vossiss, vosriss, volnch] at h
  case sack => simp only [vossack] at h; split_ifs at h <;> simp_all [vosfail]
  case rack => simp only [vosrack] at h; split_ifs at h <;> simp_all [vosfail]
  case cons => rcases voscons_vonst m c with hv | hv <;> simp_all
  case fail => simp [vosfail] at h

/-- A record just committed is the only thing a micro-step adds to what is pending. -/
theorem Paired.micro_pending (h : Paired x y) :
    (x.micro y.sent).pending = if x.solo.con.vonst = .wiss
      then x.solo.tape.record (x.tick + 2) else x.pending := by
  have ht := h.served.transit
  have hnone : ∀ {z : Station}, z.solo.con.vonst ≠ .wack → z.pending = [] := fun hz =>
    if_neg fun hand => hz hand.1
  split
  · rename_i hst
    obtain ⟨L, -, htx⟩ := launched_wiss hst y.sent
    rw [Station.pending, if_pos ⟨L.vonst, L.waiting⟩]
    have := h.sound.written x.mail hst
    rwa [(micro_fixed x y.sent).1]
  · rename_i hst
    by_cases hw : x.solo.con.vonst = .wack
    · simp only [Transit, hw] at ht
      obtain ⟨hseq, -, hrest⟩ := ht
      by_cases ha : x.Answered
      · rw [if_pos ha] at hrest
        rw [show x.pending = [] from if_neg fun hand => hand.2 ha]
        apply hnone
        rw [(micro_fixed x y.sent).1, acked_wack hw hseq ha hrest]
        simp
      · exact (SameTransit.wait hseq ha (.inl hw) _).pending
    · rw [hnone hw]
      apply hnone
      rw [(micro_fixed x y.sent).1]
      exact fun hpost => (vonstep_wack _ _ _ hpost).elim hst hw

theorem Paired.micro_own (h : Paired x y) (h' : Paired y x) : Paired (x.micro y.sent) y where
  sound := by rw [(micro_fixed x y.sent).1]; exact h.sound.micro x.mail
  served := by
    obtain ⟨-, -, hinbox, hwire, hgot⟩ := micro_fixed x y.sent
    refine ⟨⟨hgot ▸ h.served.flow.got_le, ?_⟩, h.micro_transit h'⟩
    rw [hinbox, hwire, hgot]
    exact h.served.flow.stream
  skew := Skew.micro h h'

theorem Paired.length_sent (h : Paired x y) : (flat x.sent).length = 16 * x.sent.length :=
  length_flat h.sound.framed

/-- What the peer writes goes on the end of its stream. -/
theorem Paired.micro_peer (h : Paired x y) (h' : Paired y x) : Paired x (y.micro x.sent) := by
  have hlen := h'.length_sent
  have hgot := h.served.flow.got_le
  have hpend := h'.micro_pending
  have hsent : (y.micro x.sent).sent = if y.solo.con.vonst = .wiss
      then y.sent ++ [⟨y.tick + 2, y.solo.tape.record (y.tick + 2)⟩] else y.sent := by
    rw [Station.sent, (micro_fixed y x.sent).1, h'.sound.micro_sent]; rfl
  obtain ⟨qs, hqs⟩ : ∃ qs, (y.micro x.sent).sent = y.sent ++ qs := by
    rw [hsent]
    split
    · exact ⟨_, rfl⟩
    · exact ⟨[], (List.append_nil _).symm⟩
  refine ⟨h.sound, ⟨⟨?_, ?_⟩, ?_⟩, ?_⟩
  · rw [hqs, List.length_append]; omega
  · rw [hpend, hsent]
    split
    · rename_i hst
      have hstream := h.served.flow.stream
      rw [show y.pending = [] from if_neg fun hand => by simp [hst] at hand,
        List.append_nil] at hstream
      rw [flat_append, List.drop_append_of_le_length (by omega), ← hstream]
      simp [flat]
    · exact h.served.flow.stream
  · rw [hqs]
    exact h.served.transit.same (SameTransit.refl x) hgot qs
  · refine ⟨h.skew.vorwat, h.skew.sorted, h.skew.behind, h.skew.ran, ?_, h.skew.eaten⟩
    rw [hqs, mark_append (h.served.transit.wat_eq.1.trans hgot)]
    exact h.skew.floor

/-! ### An answer -/

theorem statusReply_count (n : ℕ) : ((statusReply n).getD 0 0).toNat +
    256 * ((statusReply n).getD 1 0).toNat ≤ n := by
  simp only [statusReply, List.getD_cons_zero, List.getD_cons_succ, BitVec.toNat_ofNat]
  omega

/-- The unread stream starts with the records READ is about to hand over. -/
theorem Paired.shows_next (h : Paired x y) (h' : Paired y x) {k n : ℕ} (hk : 16 * k ≤ x.inbox.length)
    (hn : n < k) : ∃ r, y.sent[x.got + n]? = some r ∧
      ∀ b < 16, (x.inbox.take (16 * k)).getD (16 * n + b) 0 = r.bytes.getD b 0 := by
  have hlen := congrArg List.length h.served.flow.stream
  rw [List.length_drop, h'.length_sent, List.length_append, List.length_append] at hlen
  have hlt : x.got + n < y.sent.length := by omega
  have hr : y.sent[x.got + n]? = some y.sent[x.got + n] := List.getElem?_eq_getElem hlt
  refine ⟨_, hr, ?_⟩
  intro b hb
  have hoff : 16 * (x.got + n) + b = 16 * x.got + (16 * n + b) := by omega
  rw [← getD_flat h'.sound.framed hr hb, ← Station.sent, List.getD_eq_getElem?_getD,
    List.getD_eq_getElem?_getD, List.getElem?_take_of_lt (by omega), hoff]
  have hdrop : (flat y.sent)[16 * x.got + (16 * n + b)]? =
      ((flat y.sent).drop (16 * x.got))[16 * n + b]? := List.getElem?_drop.symm
  rw [hdrop, ← h.served.flow.stream, List.append_assoc, List.getElem?_append_left (by omega)]

/-- The three transactions there are, answered. -/
theorem answer_write (hcmd : x.solo.regs.cmd = ncwrite) (hword : x.solo.regs.word = 16)
    (hlen : (x.solo.regs.tx.drop 3).length = 16) : x.answer =
      ({ x with mail := { x.mail with fnacks := x.solo.regs.seq, fnerr := 0 } },
        x.solo.regs.tx.drop 3) := by
  simp only [Station.answer, answer, hcmd, if_true, hword, Nat.sub_self, Nat.zero_div, Nat.add_zero]
  rw [List.take_of_length_le hlen.le]

theorem answer_status (hcmd : x.solo.regs.cmd = ncstat) : x.answer =
    ({ x with mail := { x.mail with
        fnacks := x.solo.regs.seq, fnerr := 0
        fnrply := fun k => (statusReply x.inbox.length).getD k 0 } }, []) := by
  have hne : ncstat ≠ ncwrite := by decide
  simp only [Station.answer, answer, hcmd, if_neg hne, if_true, Nat.sub_self, Nat.zero_div,
    Nat.add_zero]

theorem answer_read (hcmd : x.solo.regs.cmd = ncread) {k : ℕ} (hword : x.solo.regs.word = 16 * k)
    (hle : 16 * k ≤ x.inbox.length) : x.answer =
      ({ x with
          mail := { x.mail with
            fnacks := x.solo.regs.seq, fnerr := 0
            fnrply := fun i => (x.inbox.take (16 * k)).getD i 0
            fnrxlo := BitVec.ofNat 8 (16 * k) }
          inbox := x.inbox.drop (16 * k)
          got := x.got + k }, []) := by
  have hw : ncread ≠ ncwrite := by decide
  have hs : ncread ≠ ncstat := by decide
  have hdiv : (x.inbox.length - (x.inbox.length - 16 * k)) / 16 = k := by omega
  simp only [Station.answer, answer, hcmd, if_neg hw, if_neg hs, if_true, hword, List.length_take,
    List.length_drop, min_eq_left hle, hdiv]

/-- An answer completes the transaction; the stream moves from the inbox to the reply window, or
    from the registers to the wire. -/
theorem Paired.answer_own (h : Paired x y) (h' : Paired y x) (ha : ¬x.Answered) :
    Served x.answer.1 (y.carry x.answer.2) ∧
    y.inbox ++ (y.wire ++ x.answer.2) ++ x.answer.1.pending = y.inbox ++ y.wire ++ x.pending ∧
    x.answer.1.solo = x.solo ∧ x.answer.1.wat = x.wat ∧ x.answer.1.base = x.base ∧
    x.answer.1.eaten = x.eaten := by
  have ht := h.served.transit
  have hnone : ∀ {z : Station}, z.solo.con.vonst ≠ .wack → z.pending = [] := fun hz =>
    if_neg fun hand => hz hand.1
  rw [Transit] at ht
  cases hst : x.solo.con.vonst <;> simp only [hst] at ht
  case wiss | siss => exact absurd ht.1 ha
  case riss => exact absurd ht.1 ha
  case cons => exact absurd ht.1 ha
  case wack =>
    obtain ⟨hseq, hclear, hrest⟩ := ht
    rw [if_neg ha] at hrest
    obtain ⟨hcmd, hword, hlen⟩ := hrest
    have hpend : x.pending = x.solo.regs.tx.drop 3 := if_pos ⟨hst, ha⟩
    rw [answer_write hcmd hword hlen]
    refine ⟨⟨⟨h.served.flow.got_le, h.served.flow.stream⟩, ?_⟩, ?_, rfl, rfl, rfl, rfl⟩
    · simp only [Transit, hst]
      exact ⟨hseq, hclear, by rw [if_pos (by exact rfl)]; trivial⟩
    · rw [hpend, show Station.pending _ = [] from if_neg fun hand => hand.2 (by exact rfl)]
      simp
  case sack =>
    obtain ⟨hseq, hclear, hrest⟩ := ht
    rw [if_neg ha] at hrest
    rw [answer_status hrest]
    refine ⟨⟨⟨h.served.flow.got_le, ?_⟩, ?_⟩, ?_, rfl, rfl, rfl, rfl⟩
    · exact h.served.flow.stream
    · simp only [Transit, hst]
      refine ⟨hseq, hclear, ?_⟩
      rw [if_pos (by exact rfl)]
      exact ⟨trivial, rfl, statusReply_count _⟩
    · rw [hnone (by rw [hst]; decide), hnone (by rw [hst]; decide)]
      simp only [List.append_nil]
  case rack =>
    obtain ⟨hseq, hrest⟩ := ht
    rw [if_neg ha] at hrest
    obtain ⟨hclear, hcmd, hword, k, hlo, hhi, hv, hle⟩ := hrest
    have hword' : x.solo.regs.word = 16 * k := by
      rw [hword, hv, BitVec.toNat_ofNat]; omega
    have hlen := congrArg List.length h.served.flow.stream
    rw [List.length_drop, h'.length_sent, List.length_append, List.length_append] at hlen
    have hread := answer_read hcmd hword' hle
    refine ⟨⟨⟨?_, ?_⟩, ?_⟩, ?_, ?_⟩ <;> rw [hread]
    · show x.got + k ≤ y.sent.length
      have := h.served.flow.got_le
      omega
    · have hdrop := congrArg (List.drop (16 * k)) h.served.flow.stream
      rw [List.drop_drop, List.append_assoc, List.drop_append_of_le_length hle,
        ← List.append_assoc] at hdrop
      simp only [Station.carry, List.append_nil]
      rw [show 16 * (x.got + k) = 16 * x.got + 16 * k by omega]
      exact hdrop
    · simp only [Transit, hst]
      refine ⟨hseq, ?_⟩
      rw [if_pos (by exact rfl)]
      have hbase := hclear.1
      refine ⟨trivial, k, by omega, rfl, ?_, ?_, ?_, ?_⟩
      · dsimp only; omega
      · dsimp only; omega
      · intro n hn
        obtain ⟨r, hr, hb⟩ := h.shows_next h' hle hn
        exact ⟨r, hbase ▸ hr, hb⟩
      · dsimp only
        rw [if_pos (by omega), hbase]
        exact hclear.2
    · rw [hnone (by rw [hst]; decide), hnone (by rw [hst]; decide)]
      simp only [List.append_nil]
    · exact ⟨rfl, rfl, rfl, rfl⟩

/-! ### Every event -/

theorem Paired.answer_both (h : Paired x y) (h' : Paired y x) (ha : ¬x.Answered) :
    Paired x.answer.1 (y.carry x.answer.2) ∧ Paired (y.carry x.answer.2) x.answer.1 := by
  obtain ⟨hserved, hstream, hsolo, hwat, hbase, heaten⟩ := h.answer_own h' ha
  have hsent : x.answer.1.sent = x.sent := by rw [Station.sent, hsolo]; rfl
  have htick : x.answer.1.tick = x.tick := by rw [Station.tick, hsolo]; rfl
  constructor
  · refine ⟨hsolo ▸ h.sound, hserved, ?_⟩
    constructor
    · rw [hsolo, hwat]; exact h.skew.vorwat
    · rw [hsent]; exact h.skew.sorted
    · rw [htick, hwat]; exact h.skew.behind
    · rw [hsolo, htick, hwat]; exact h.skew.ran
    · rw [hsent, hbase]; exact h.skew.floor
    · rw [heaten, hwat]; exact h.skew.eaten
  · have k : SameTransit y (y.carry x.answer.2) :=
      ⟨rfl, rfl, rfl, rfl, rfl, rfl, rfl, rfl, le_refl _⟩
    refine ⟨h'.sound, ⟨⟨?_, ?_⟩, ?_⟩, ?_⟩
    · rw [hsent]; exact h'.served.flow.got_le
    · rw [hsent]
      exact hstream.trans h'.served.flow.stream
    · rw [hsent]
      exact h'.served.transit.same_rs k h'.served.flow.got_le
    · refine ⟨h'.skew.vorwat, h'.skew.sorted, h'.skew.behind, h'.skew.ran, ?_, h'.skew.eaten⟩
      rw [hsent]; exact h'.skew.floor

end

/-- Both ends of the match keep everything they keep. -/
def InStep (s : Link) : Prop := ∀ i, Paired (s i) (s i.other)

variable {s t : Link} {e : LinkEv}

theorem InStep.peer (h : InStep s) (i : Side) : Paired (s i.other) (s i) := by
  have := h i.other
  rwa [Side.other_other] at this

theorem InStep.step (h : InStep s) (hst : s.step e = some t) : InStep t := by
  rcases Link.step_cases hst with ⟨i, hw, sim, -, -, hi, hj⟩ |
    ⟨i, -, -, hi, hj⟩ | ⟨i, -, ha, hi, hj⟩ | ⟨i, n, -, hi, hj⟩
  all_goals refine Link.both i ?_ ?_ <;> rw [hi, hj]
  · exact (h i).gate_own (h.peer i) hw sim
  · exact (h.peer i).gate_peer (h i) hw sim
  · exact (h i).micro_own (h.peer i)
  · exact (h.peer i).micro_peer (h i)
  · exact ((h i).answer_both (h.peer i) ha).1
  · exact ((h i).answer_both (h.peer i) ha).2
  · exact (h i).arrive_own n
  · exact (h.peer i).arrive_peer n

theorem Paired.start {i j : Side} {x y : Station} (hx : x.Start i) (hy : y.Start j) :
    Paired x y := by
  obtain ⟨hw, c, r, m, hm, rfl⟩ := hx
  obtain ⟨hw', c', r', m', hm', rfl⟩ := hy
  refine ⟨Sound.start_of _ hw c r, ⟨⟨le_refl _, rfl⟩, ?_⟩, ?_⟩
  · exact ⟨hm, rfl, rfl⟩
  · refine ⟨rfl, List.Pairwise.nil, ?_, ?_, ?_, ?_⟩
    · exact le_max_of_le_right (by decide : (-1 : ℤ) ≤ 0)
    · exact fun _ => le_max_right _ _
    · intro r hr; exact absurd hr (List.not_mem_nil)
    · intro t ht; exact absurd ht (List.not_mem_nil)

theorem inStep_of_reachable (h : lockstep.Reachable s) : InStep s :=
  lockstep.reachable_invariant (fun _ h₀ i => Paired.start (h₀ i) (h₀ i.other))
    (fun _ _ _ hI hst => InStep.step hI hst) h

/-! ### The bounds -/

/-- The eight-bit cells compare as the unbounded counts do: the gate's test of the watermark against
    the tick it decides, and a consumed record's against the watermark and the tick. -/
structure Faithful (x : Station) (theirs : List Rec) : Prop where
  votick : x.solo.con.votick = BitVec.ofInt 8 x.tick
  vorwat : x.solo.con.vorwat = BitVec.ofInt 8 x.wat
  gate : ∀ hw, phaseOf x.solo.con.voent = 0 →
    ready (boundary hw x.solo.con) = decide (nextTick x.solo ≤ x.wat)
  stamp : ∀ r, x.nextRec theirs = some r →
    x.mail.at (recAt (x.solo.con.vordn - 1)) 2 = BitVec.ofInt 8 r.stamp
  newer : ∀ r, x.nextRec theirs = some r →
    (BitVec.ofInt 8 r.stamp - x.solo.con.vorwat).msb = decide (r.stamp < x.wat)
  same : ∀ r, x.nextRec theirs = some r →
    (BitVec.ofInt 8 r.stamp - vod = x.solo.con.votick ↔ r.stamp - vod.toNat = x.tick)

section
variable {x y : Station}

theorem Paired.nextTick_le (h : Paired x y) : x.tick ≤ nextTick x.solo ∧
    nextTick x.solo ≤ max (x.wat + 1) 0 ∧ nextTick x.solo ≤ x.tick + 1 := by
  have hbehind := h.skew.behind
  rw [nextTick]
  split
  · rename_i hadv
    simp only [advances, Bool.and_eq_true] at hadv
    have := h.skew.ran hadv.2
    rw [← Station.tick]
    omega
  · rw [← Station.tick]
    omega

/-- The record the next CONSUME step takes lies in the reply window. -/
theorem Paired.nextRec_shows (h : Paired x y) {r : Rec} (hr : x.nextRec y.sent = some r) :
    ∃ j, j < 15 ∧ x.solo.con.vordn = BitVec.ofNat 8 (j + 1) ∧ y.sent[x.base + j]? = some r ∧
      Shows x.mail j r.bytes := by
  simp only [Station.nextRec, Option.ite_none_right_eq_some] at hr
  obtain ⟨⟨hst, hne⟩, hr⟩ := hr
  have ht := h.served.transit
  simp only [Transit, hst] at ht
  obtain ⟨-, j, hv, hb⟩ := ht
  cases j with
  | zero => exact absurd hv hne
  | succ j =>
    have hj : j + 1 ≤ 15 := hb.le
    rw [hv, toNat_ofNat_small hj, Nat.add_sub_cancel] at hr
    obtain ⟨q, hq, hshow⟩ := hb.shows j (Nat.lt_succ_self j)
    obtain rfl : q = r := Option.some.inj (hq.symm.trans hr)
    exact ⟨j, by omega, hv, hr, hshow⟩

theorem Paired.faithful (h : Paired x y) (h' : Paired y x) : Faithful x y.sent where
  votick := h.sound.votick
  vorwat := h.skew.vorwat
  gate hw hph := by
    obtain ⟨hlo, hhi, -⟩ := h.nextTick_le
    refine h.ready_iff h' hlo hhi ?_ ?_ <;> rw [boundary_eq hw x.solo.con hph]
    rw [h.sound.votick, nextTick]
    split
    · exact (Serial.ofInt_succ _).symm
    · rfl
  stamp r hr := by
    obtain ⟨j, hj, hv, hmem, hshow⟩ := h.nextRec_shows hr
    have hbytes := (h'.sound.sent r (List.mem_of_getElem? hmem)).2.2
    have hdec : x.solo.con.vordn - 1 = BitVec.ofNat 8 j := by
      rw [hv, BitVec.ofNat_add]; exact BitVec.add_sub_cancel _ _
    rw [hdec, hshow.at (by omega) (by decide), hbytes]
    rfl
  newer r hr := by
    obtain ⟨j, -, -, hmem, -⟩ := h.nextRec_shows hr
    exact h.newer_iff h' hmem (Nat.le_add_right _ _)
  same r hr := by
    obtain ⟨j, -, -, hmem, -⟩ := h.nextRec_shows hr
    exact h.same_tick_iff h' hmem (Nat.le_add_right _ _)

/-- A frame stalls only with the tick it decides past the watermark. -/
theorem Paired.wat_lt_of_stall (h : Paired x y) (h' : Paired y x) {hw : Hw} {sim : Sim}
    (hadv : (frame hw sim x.solo.con).voadv = 0) : x.wat < nextTick x.solo := by
  obtain ⟨hlo, hhi, -⟩ := h.nextTick_le
  rcases frame_cases hw sim x.solo.con h.sound.net with ⟨hg, hmid | hrun | hstall⟩
  · exact absurd hadv hmid.adv
  · exact absurd hadv hrun.adv
  · have hready := hstall.ready
    rw [h.ready_iff h' hlo hhi (h.sound.gate_votick hw sim) hg.vorwat] at hready
    have := of_decide_eq_false hready
    omega

end

/-- Lockstep's bounds, in every state of every match: the two ticks are at most three apart, each
    watermark is between two behind its tick and five ahead, so the eight-bit comparisons are the
    unbounded ones; and two consoles that have each consumed the other's current record are not both
    about to stall. -/
theorem skew_bounded (h : lockstep.Reachable s) :
    |(s .host).tick - (s .guest).tick| ≤ vod.toNat + 1 ∧
    (∀ i, (s i).tick - 2 ≤ (s i).wat ∧ (s i).wat ≤ (s i).tick + 5) ∧
    (∀ i, Faithful (s i) (s i.other).sent) ∧
    ∀ hw sim hw' sim', (s .guest).tick + vod.toNat ∈ (s .host).eaten →
      (s .host).tick + vod.toNat ∈ (s .guest).eaten →
      ¬((frame hw sim (s .host).solo.con).voadv = 0 ∧
        (frame hw' sim' (s .guest).solo.con).voadv = 0) := by
  have hI := inStep_of_reachable h
  have hh : Paired (s .host) (s .guest) := hI .host
  have hg : Paired (s .guest) (s .host) := hI .guest
  have hvod : (vod.toNat : ℤ) = 2 := rfl
  refine ⟨?_, fun i => (hI i).wat_window (hI.peer i), fun i => (hI i).faithful (hI.peer i), ?_⟩
  · have h1 := hh.skew_le hg
    have h2 := hg.skew_le hh
    rw [hvod, abs_le]
    omega
  · rintro hw sim hw' sim' hth htg ⟨hsh, hsg⟩
    have h1 := hh.skew.eaten _ hth
    have h2 := hg.skew.eaten _ htg
    have h3 := hh.wat_lt_of_stall hg hsh
    have h4 := hg.wat_lt_of_stall hh hsg
    have h5 := hh.nextTick_le
    have h6 := hg.nextTick_le
    omega

/-- In the backlog the host's watermark runs ahead of what it has read. -/
theorem skew_bounded_backlog : ∃ s, lockstep.Reachable s ∧ (s .host).tick = 4 ∧
    (s .guest).tick = 3 ∧ (s .host).wat = 5 ∧ |(s .host).tick - (s .guest).tick| ≤ vod.toNat + 1 ∧
    ∀ i, Faithful (s i) (s i.other).sent := by
  obtain ⟨s, hrun, hh, hg, hw⟩ := lockstep.exists_run (s := Link.rest) (e := backlog)
    (Q := fun s => (s .host).tick = 4 ∧ (s .guest).tick = 3 ∧ (s .host).wat = 5) (by decide +kernel)
  have h := skew_bounded ⟨Link.rest, backlog, init_rest, hrun⟩
  exact ⟨s, ⟨_, _, init_rest, hrun⟩, hh, hg, hw, h.1, h.2.2.1⟩

end VO
