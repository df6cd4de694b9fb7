import VideoOlympics.Lockstep.Agree

/-! The order inside a batch. A batch is consumed newest first, so its oldest record is the last to
    write the ring; it spoils the newest tick's slot exactly when it reaches back to that slot's last
    turn, and then only if the peer captured something else for it. -/

namespace VO

/-- A batch that has been consumed to its last record has left in the ring, for the ticks the console
    can still run, what its records carry for them. -/
def Settled (x : Station) (theirs : List Rec) : Prop :=
  x.solo.con.vonst = .cons → x.solo.con.vordn = 0 → ∀ i r t, x.base ≤ i → i < x.got →
    theirs[i]? = some r → r.covers t → x.tick ≤ t → t ≤ x.wat →
    ringAt x.solo.con.voring vorm (BitVec.ofInt 8 t) = r.at t

/-- The micro-step does not take the last record of a batch whose newest is six ticks younger, while
    that newest tick is still to come, unless the peer captured the same for the tick whose slot it
    was. -/
def Narrow (s : Link) : LinkEv → Prop
  | .micro i => ∀ r ∈ (s i).nextRec (s i.other).sent, (s i).solo.con.vordn = 1 →
      (s i).wat = r.stamp + 6 → (s i).tick ≤ (s i).wat →
      (s i.other).solo.tape.cap (r.stamp - 2) = (s i.other).solo.tape.cap (s i).wat
  | _ => True

instance (s : Link) : ∀ e, Decidable (Narrow s e)
  | .micro i => inferInstanceAs (Decidable (∀ r ∈ (s i).nextRec (s i.other).sent, _ → _ → _ → _))
  | .gate _ _ _ => .isTrue trivial
  | .answer _ => .isTrue trivial
  | .arrive _ _ => .isTrue trivial

/-- What has been consumed of the open batch comes first among what has been consumed. -/
def Tallied (x : Station) (theirs : List Rec) : Prop :=
  x.solo.con.vonst = .cons → ∀ j ≤ 15, x.solo.con.vordn = BitVec.ofNat 8 j →
    ((theirs.take x.got).drop (x.base + j)).map Rec.stamp <+: x.eaten

/-- What has been read from a record on begins with that record. -/
theorem drop_take_cons {rs : List Rec} {i n : ℕ} {r : Rec} (hr : rs[i]? = some r) (hlt : i < n) :
    (rs.take n).drop i = r :: (rs.take n).drop (i + 1) := by
  refine List.drop_eq_getElem?_toList_append.trans ?_
  rw [List.getElem?_take_of_lt hlt, hr]
  rfl

section
variable {x y : Station}

/-! ### What a consumed batch leaves -/

/-- The newest stamp of a batch is at most six ticks past the oldest. -/
theorem Paired.wat_le_stamp (h : Paired x y) (h' : Paired y x) {i : ℕ} {r : Rec}
    (hr : y.sent[i]? = some r) (hi : x.base ≤ i) : x.wat ≤ r.stamp + 6 := by
  have hwat := h.wat_le h'
  have hbehind := h'.skew.behind
  have hmark := mark_le_stamp h'.skew.sorted h'.stamp_ge hr hi
  have hpos := h'.stamp_ge r (List.mem_of_getElem? hr)
  rcases h'.wat_mem with hw | ⟨q, hq, hw⟩
  · omega
  · have hfloor := h.skew.floor q hq
    omega

/-- In a consumed batch every stamp lies between the oldest and the watermark, which is the newest. -/
theorem Paired.batch_stamps (h : Paired x y) (h' : Paired y x) (hst : x.solo.con.vonst = .cons)
    (hv : x.solo.con.vordn = 0) {r : Rec} (hr : y.sent[x.base]? = some r) (hlt : x.base < x.got) :
    (∀ s ∈ ((y.sent.take x.got).drop x.base).map Rec.stamp, r.stamp ≤ s ∧ s ≤ x.wat) ∧
      ∃ q, y.sent[x.got - 1]? = some q ∧ q.stamp = x.wat := by
  have ht := h.served.transit
  have hgot := h.served.flow.got_le
  simp only [Transit, hst] at ht
  obtain ⟨-, j, hj, hb⟩ := ht
  obtain rfl : j = 0 := by
    rw [← toNat_ofNat_small hb.le, ← hj, hv]
    rfl
  have hwat : x.wat = mark y.sent x.got := hb.wat.trans (if_neg (by omega))
  have hlast : y.sent[x.got - 1]? = some y.sent[x.got - 1] := List.getElem?_eq_getElem (by omega)
  have hmark : mark y.sent x.got = (y.sent[x.got - 1]).stamp := by
    have := mark_succ hlast
    rwa [Nat.sub_add_cancel (by omega)] at this
  refine ⟨?_, _, hlast, hmark.symm.trans hwat.symm⟩
  intro s hs
  obtain ⟨q, hq, rfl⟩ := List.mem_map.mp hs
  obtain ⟨n, hn⟩ := List.mem_iff_getElem?.mp hq
  rw [List.getElem?_drop] at hn
  have hnlt : x.base + n < x.got := by
    have := (List.getElem?_eq_some_iff.mp hn).1
    rw [List.length_take] at this
    omega
  rw [List.getElem?_take_of_lt hnlt] at hn
  have hlo := mark_le_stamp h'.skew.sorted h'.stamp_ge hn (n := x.base + 1)
  have hhi := mark_mono h'.skew.sorted h'.stamp_ge (n := x.base + n + 1) (m := x.got) (by omega) hgot
  rw [mark_succ hr] at hlo
  rw [mark_succ hn] at hhi
  rw [hwat]
  refine ⟨?_, hhi⟩
  rcases Nat.eq_zero_or_pos n with rfl | hpos
  · rw [Nat.add_zero, hr, Option.some.injEq] at hn
    exact (congrArg Rec.stamp hn).le
  · exact hlo (by omega)

/-- A tick that is not six past the oldest stamp is in the ring as its record carries it. -/
theorem Paired.ring_near (h : Paired x y) (h' : Paired y x) (hring : Stored x y)
    {r : Rec} {old bs : List ℤ} (heaten : x.eaten = bs ++ old)
    (hbs : ∀ s ∈ bs, r.stamp ≤ s ∧ s ≤ x.wat) {t : ℤ} (hlo : x.tick ≤ t) (hnear : t ≤ r.stamp + 5)
    (hcov : ∃ s ∈ bs, s - vowin < t ∧ t ≤ s) :
    remoteRing.get x.solo.con.voring t = y.solo.tape.cap t := by
  have hwin := (h.wat_window h').2
  have hfilled : Windows.FilledFor 8 vowin id x.eaten t := by
    rw [heaten]
    refine Windows.filledFor_of_near (fun s hs => ?_) hcov
    obtain ⟨h1, h2⟩ := hbs s hs
    rw [id_eq, vowin_cast]
    omega
  obtain ⟨s, -, hget⟩ := Windows.Ring.Holds.get_filled hring (by decide) hfilled
  exact hget

/-- A tick six past the oldest stamp is overwritten by what the oldest record carries for the tick
    eight before. -/
theorem Paired.ring_far (hring : Stored x y) {m : ℤ} {ss : List ℤ} (heaten : x.eaten = m :: ss) :
    remoteRing.get x.solo.con.voring (m + 6) = y.solo.tape.cap (m - 2) := by
  have hturn : (m - (m + 6)) % 8 = 2 := by rw [sub_add_cancel_left]; rfl
  rw [hring (m + 6), heaten, Windows.lastWriter, id_eq, hturn, if_pos (by decide), Option.elim_some,
    id_eq, hturn]

/-- What the last record of a batch makes of the ring. -/
theorem Paired.settled_iff (h : Paired x y) (h' : Paired y x) (hring : Stored x y)
    (htally : Tallied x y.sent) (hst : x.solo.con.vonst = .cons) (hv : x.solo.con.vordn = 0) {r : Rec}
    (hr : y.sent[x.base]? = some r) (hlt : x.base < x.got) :
    Settled x y.sent ↔ (x.wat = r.stamp + 6 → x.tick ≤ x.wat →
      y.solo.tape.cap (r.stamp - 2) = y.solo.tape.cap x.wat) := by
  obtain ⟨hbs, q, hq, hnewest⟩ := h.batch_stamps h' hst hv hr hlt
  obtain ⟨old, heaten⟩ := htally hst 0 (by decide) hv
  rw [Nat.add_zero] at heaten
  have hcons : ∃ ss, x.eaten = r.stamp :: ss := by
    rw [← heaten, drop_take_cons hr hlt]
    exact ⟨_, rfl⟩
  obtain ⟨ss, hss⟩ := hcons
  have hfar : x.wat = r.stamp + 6 →
      remoteRing.get x.solo.con.voring x.wat = y.solo.tape.cap (r.stamp - 2) := by
    intro hw
    rw [hw]
    exact Paired.ring_far hring hss
  have hcarry {i : ℕ} {p : Rec} {t : ℤ} (hp : y.sent[i]? = some p) (ht : p.covers t) :
      p.at t = y.solo.tape.cap t := (h'.sound.sent p (List.mem_of_getElem? hp)).at_eq ht
  constructor
  · intro hset hw htick
    have hcov : q.covers x.wat := ⟨by rw [hnewest, vowin_cast]; omega, hnewest.ge⟩
    have hget := hset hst hv (x.got - 1) q x.wat (by omega) (by omega) hq hcov htick (le_refl _)
    rw [← hfar hw, remoteRing_get, hget, hcarry hq hcov]
  · intro hsame _ _ i p t hi hig hp ht hlo hhi
    rw [hcarry hp ht, ← remoteRing_get]
    have hmax := h.wat_le_stamp h' hr (le_refl _)
    by_cases hnear : t ≤ r.stamp + 5
    · refine h.ring_near h' hring heaten.symm hbs hlo hnear ⟨p.stamp, ?_, ht⟩
      refine List.mem_map_of_mem (List.mem_iff_getElem?.mpr ⟨i - x.base, ?_⟩)
      rw [List.getElem?_drop, Nat.add_sub_cancel' hi, List.getElem?_take_of_lt hig]
      exact hp
    · -- only the newest tick is so far
      obtain rfl : t = x.wat := by omega
      rw [hfar (by omega)]
      exact hsame (by omega) hlo

/-! ### Every event -/

/-- A batch opens with none of its records consumed. -/
theorem Paired.micro_opens (h : Paired x y) (hst : x.solo.con.vonst ≠ .cons)
    (hopen : (x.micro y.sent).solo.con.vonst = .cons) :
    x.micro y.sent = { x with solo := x.solo.micro x.mail } ∧
      ∃ k ≤ 15, x.base + k = x.got ∧ (x.micro y.sent).solo.con.vordn = BitVec.ofNat 8 k := by
  refine ⟨micro_eq hst y.sent, ?_⟩
  have ht := h.served.transit
  rw [Transit] at ht
  have hne {st : NS} (hpost : (x.micro y.sent).solo.con.vonst = st) (hcons : st ≠ .cons) : False :=
    hcons (hpost.symm.trans hopen)
  cases hs : x.solo.con.vonst <;> simp only [hs] at ht
  case wiss => exact (hne (launched_wiss hs y.sent).1.vonst (by decide)).elim
  case siss => exact (hne (launched_siss hs y.sent).vonst (by decide)).elim
  case riss => exact (hne (launched_riss hs y.sent).1.vonst (by decide)).elim
  case cons => exact absurd hs hst
  case wack =>
    obtain ⟨hseq, -, hrest⟩ := ht
    by_cases ha : x.Answered
    · rw [if_pos ha] at hrest
      have hcon := acked_wack hs hseq ha hrest
      rw [micro_eq hst, hcon] at hopen
      cases hopen
    · exact (hne ((SameTransit.wait hseq ha (.inl hs) _).vonst.trans hs) (by decide)).elim
  case sack =>
    obtain ⟨hseq, -, hrest⟩ := ht
    by_cases ha : x.Answered
    · rw [if_pos ha] at hrest
      obtain ⟨herr, hdev, -⟩ := hrest
      rw [micro_eq hst] at hopen
      rcases acked_sack hs hseq ha herr hdev with hcon | ⟨k, -, -, -, hcon⟩
      · rw [hcon] at hopen
        cases hopen
      · rw [hcon] at hopen
        cases hopen
    · exact (hne ((SameTransit.wait hseq ha (.inr (.inl hs)) _).vonst.trans hs) (by decide)).elim
  case rack =>
    obtain ⟨hseq, hrest⟩ := ht
    by_cases ha : x.Answered
    · rw [if_pos ha] at hrest
      obtain ⟨herr, k, hk, hlen, hb⟩ := hrest
      have hle : k ≤ 15 := hb.le
      refine ⟨k, hle, hk, ?_⟩
      rw [micro_eq hst, acked_rack hs hseq ha herr, hlen]
      exact ofNat_records hle
    · exact (hne ((SameTransit.wait hseq ha (.inr (.inr hs)) _).vonst.trans hs) (by decide)).elim

/-- Only the transaction, the counts and what was read of the peer matter. -/
theorem Tallied.congr {x' : Station} {rs rs' : List Rec} (h : Tallied x rs)
    (hvonst : x'.solo.con.vonst = x.solo.con.vonst) (hvordn : x'.solo.con.vordn = x.solo.con.vordn)
    (hgot : x'.got = x.got) (hbase : x'.base = x.base) (heaten : x'.eaten = x.eaten)
    (hrs : rs'.take x.got = rs.take x.got) : Tallied x' rs' := by
  rw [Tallied, hvonst, hvordn, hgot, hbase, heaten, hrs]
  exact h

theorem Tallied.micro_own (h : Tallied x y.sent) (hp : Paired x y) (hp' : Paired y x) :
    Tallied (x.micro y.sent) y.sent := by
  intro hpost j hj hv
  by_cases hst : x.solo.con.vonst = .cons
  · rcases hp.cons_cases hp' hst with ⟨-, -, hmicro, hcon⟩ | ⟨r, i, hvi, hb, hr, -, hc⟩
    · rw [hmicro, hcon] at hpost
      cases hpost
    · obtain ⟨-, -, hgot, hbase⟩ := hc.rest
      have hleft := hb.left
      have hi : i + 1 ≤ 15 := hb.le
      have hij : j = i := by
        have hcell : (x.micro y.sent).solo.con.vordn = BitVec.ofNat 8 i := by rw [hc.con]; rfl
        rw [← toNat_ofNat_small hj, ← hv, hcell, toNat_ofNat_small (by omega)]
      rw [hij, hgot, hbase, hc.eaten]
      rw [drop_take_cons hr (by omega), Nat.add_assoc, List.map_cons]
      exact List.prefix_cons_inj _ |>.mpr (h hst (i + 1) hi hvi)
  · obtain ⟨hmicro, k, hk, hbase, hcell⟩ := hp.micro_opens hst hpost
    have hjk : j = k := by
      rw [← toNat_ofNat_small hj, ← hv, hcell, toNat_ofNat_small hk]
    rw [hmicro, hjk]
    dsimp only
    rw [hbase, List.drop_of_length_le (by rw [List.length_take]; omega)]
    exact List.nil_prefix

/-- A batch that is settled stays so while the console's tick grows. -/
theorem Settled.congr {x' : Station} {rs rs' : List Rec} (h : Settled x rs)
    (hvonst : x'.solo.con.vonst = x.solo.con.vonst) (hvordn : x'.solo.con.vordn = x.solo.con.vordn)
    (hring : x'.solo.con.voring = x.solo.con.voring) (htick : x.tick ≤ x'.tick)
    (hwat : x'.wat = x.wat) (hgot : x'.got = x.got) (hbase : x'.base = x.base)
    (hrs : rs'.take x.got = rs.take x.got) : Settled x' rs' := by
  intro hst hv i r t hi hig hr hcov hlo hhi
  rw [hring]
  rw [hgot] at hig
  refine h (hvonst ▸ hst) (hvordn ▸ hv) i r t (hbase ▸ hi) hig ?_ hcov (htick.trans hlo) (hwat ▸ hhi)
  rw [← List.getElem?_take_of_lt hig, ← hrs, List.getElem?_take_of_lt hig]
  exact hr

/-- A micro-step leaves the batch settled exactly when it is narrow. -/
theorem Paired.micro_settled_iff (h : Paired x y) (h' : Paired y x) (hring : Stored x y)
    (htally : Tallied x y.sent) :
    Settled (x.micro y.sent) y.sent ↔ ∀ r ∈ x.nextRec y.sent, x.solo.con.vordn = 1 →
      x.wat = r.stamp + 6 → x.tick ≤ x.wat →
      y.solo.tape.cap (r.stamp - 2) = y.solo.tape.cap x.wat := by
  have hpost := h.micro_own h'
  by_cases hst : x.solo.con.vonst = .cons
  · rcases h.cons_cases h' hst with ⟨-, hv, hmicro, hcon⟩ | ⟨r, j, hv, hb, hr, hshow, hc⟩
    · refine iff_of_true ?_ ?_
      · intro hcons
        rw [hmicro, hcon] at hcons
        cases hcons
      · intro r hr
        rw [Station.nextRec, if_neg (fun hand => hand.2 hv)] at hr
        cases hr
    · obtain ⟨-, -, hgot, hbase⟩ := hc.rest
      have hleft := hb.left
      have hle : j + 1 ≤ 15 := hb.le
      have hnum : x.solo.con.vordn.toNat = j + 1 := by rw [hv, toNat_ofNat_small hle]
      have hcell : (x.micro y.sent).solo.con.vordn = BitVec.ofNat 8 j := by rw [hc.con]; rfl
      have hcons : (x.micro y.sent).solo.con.vonst = .cons := by rw [hc.con]; exact hst
      have htick : (x.micro y.sent).tick = x.tick := by rw [Station.tick, hc.tape]; rfl
      have hnext : x.nextRec y.sent = some r := (nextRec_eq hst hb.le hv y.sent).trans hr
      simp only [hnext, Option.mem_some_iff, forall_eq']
      rcases Nat.eq_zero_or_pos j with rfl | hpos
      · have hone : x.solo.con.vordn = 1 := hv
        rw [hpost.settled_iff (h'.micro_peer h) (hring.micro_own h h') (htally.micro_own h h') hcons
          hcell (r := r) (by rw [hbase]; exact hr) (by omega), hc.wat, htick]
        have hnear := (h.near h' hr (Nat.le_add_right _ _)).1
        constructor
        · intro hsame _ hw hlate
          rw [max_eq_left (by omega)] at hsame
          exact hsame hw hlate
        · intro hsame hw hlate
          have hmax : max x.wat r.stamp = x.wat := by omega
          rw [hmax] at hw hlate ⊢
          exact hsame hone hw hlate
      · refine iff_of_true (fun _ hv0 => ?_) fun hone => ?_
        · rw [hcell] at hv0
          have := toNat_ofNat_small (j := j) (by omega)
          rw [hv0] at this
          simp at this
          omega
        · rw [hone] at hnum
          simp at hnum
          omega
  · refine iff_of_true ?_ ?_
    · intro hcons hv i r t hi hig
      obtain ⟨hmicro, k, hk, hbase, hcell⟩ := h.micro_opens hst hcons
      have hzero : k = 0 := by
        rw [← toNat_ofNat_small hk, ← hcell, hv]
        rfl
      rw [hmicro] at hi hig
      dsimp only at hi hig
      omega
    · intro r hr
      rw [Station.nextRec, if_neg (fun hand => hst hand.1)] at hr
      cases hr

end

/-- What holds of a match however its batches fall. -/
def Shelved (s : Link) : Prop :=
  InStep s ∧ ∀ i : Side, Stored (s i) (s i.other) ∧ Tallied (s i) (s i.other).sent

variable {s t : Link} {e : LinkEv}

theorem Shelved.peer (h : Shelved s) (i : Side) :
    Stored (s i.other) (s i) ∧ Tallied (s i.other) (s i).sent := by
  have := h.2 i.other
  rwa [Side.other_other] at this

/-- What a console writes in a micro-step goes after what was read of it. -/
theorem micro_take (x : Station) (rs : List Rec) {n : ℕ} (hn : n ≤ x.sent.length) :
    (x.micro rs).sent.take n = x.sent.take n := by
  obtain ⟨qs, hqs⟩ : x.sent <+: (x.micro rs).sent := by
    rw [Station.sent, Station.sent, (micro_fixed x rs).1, Solo.micro, Tape.micro]
    dsimp only
    split
    · exact List.prefix_append _ _
    · exact List.prefix_rfl
  rw [← hqs, List.take_append_of_le_length hn]

/-- An answer leaves the console outside any batch. -/
theorem Paired.answer_vonst {x y : Station} (h : Paired x y) (h' : Paired y x) (ha : ¬x.Answered) :
    x.answer.1.solo.con.vonst ≠ .cons := by
  rw [(h.answer_own h' ha).2.2.1]
  intro hst
  have ht := h.served.transit
  simp only [Transit, hst] at ht
  exact ha ht.1

theorem Shelved.step (h : Shelved s) (hst : s.step e = some t) : Shelved t := by
  refine ⟨h.1.step hst, ?_⟩
  rcases Link.step_cases hst with ⟨i, hw, sim, -, -, hi, hj⟩ |
    ⟨i, -, -, hi, hj⟩ | ⟨i, -, ha, hi, hj⟩ | ⟨i, n, -, hi, hj⟩
  all_goals
    have hp := h.1 i
    have hp' := h.1.peer i
    obtain ⟨hring, htally⟩ := h.2 i
    obtain ⟨hring', htally'⟩ := h.peer i
    refine Link.both (P := fun x y => Stored x y ∧ Tallied x y.sent) i ?_ ?_ <;> rw [hi, hj]
  · obtain ⟨hg, -⟩ := frame_cases hw sim (s i).solo.con hp.sound.net
    exact ⟨hring.congr hg.voring rfl rfl, htally.congr hg.vonst hg.vordn rfl rfl rfl rfl⟩
  · exact ⟨hring'.gate_peer hp' hp hw sim, htally'⟩
  · exact ⟨hring.micro_own hp hp', htally.micro_own hp hp'⟩
  · obtain ⟨-, hcap, -⟩ := micro_same (s i).solo (s i).mail
    have hsolo := (micro_fixed (s i) (s i.other).sent).1
    exact ⟨hring'.congr rfl rfl (by rw [hsolo]; exact hcap),
      htally'.congr rfl rfl rfl rfl rfl (micro_take _ _ hp'.served.flow.got_le)⟩
  · obtain ⟨-, -, hsolo, -, -, heaten⟩ := hp.answer_own hp' ha
    exact ⟨hring.congr (by rw [hsolo]) heaten rfl, fun hst => absurd hst (hp.answer_vonst hp' ha)⟩
  · have hsolo := (hp.answer_own hp' ha).2.2.1
    exact ⟨hring'.congr rfl rfl (by rw [hsolo]),
      htally'.congr rfl rfl rfl rfl rfl (by rw [Station.sent, hsolo]; rfl)⟩
  · exact ⟨hring.congr rfl rfl rfl, htally.congr rfl rfl rfl rfl rfl rfl⟩
  · exact ⟨hring'.congr rfl rfl rfl, htally'.congr rfl rfl rfl rfl rfl rfl⟩

/-- An event leaves every batch settled exactly when it is narrow. -/
theorem Shelved.settled_iff (h : Shelved s) (hset : ∀ i : Side, Settled (s i) (s i.other).sent)
    (hst : s.step e = some t) :
    (∀ i : Side, Settled (t i) (t i.other).sent) ↔ Narrow s e := by
  have hboth {i : Side} : (∀ k : Side, Settled (t k) (t k.other).sent) ↔
      Settled (t i) (t i.other).sent ∧ Settled (t i.other) (t i).sent := by
    refine ⟨fun hk => ⟨hk i, ?_⟩, fun hk => ?_⟩
    · have := hk i.other
      rwa [Side.other_other] at this
    · exact Link.both (P := fun x y => Settled x y.sent) i hk.1 hk.2
  rcases Link.step_cases hst with ⟨i, hw, sim, rfl, -, hi, hj⟩ |
    ⟨i, rfl, -, hi, hj⟩ | ⟨i, rfl, ha, hi, hj⟩ | ⟨i, n, rfl, hi, hj⟩
  all_goals
    have hp := h.1 i
    have hp' := h.1.peer i
    have hown := hset i
    have hpeer : Settled (s i.other) (s i).sent := by
      have := hset i.other
      rwa [Side.other_other] at this
    rw [hboth (i := i), hi, hj]
  · obtain ⟨hg, -⟩ := frame_cases hw sim (s i).solo.con hp.sound.net
    exact iff_of_true ⟨hown.congr hg.vonst hg.vordn hg.voring hp.nextTick_le.1 rfl rfl rfl rfl,
      hpeer⟩ trivial
  · obtain ⟨hring, htally⟩ := h.2 i
    rw [hp.micro_settled_iff hp' hring htally]
    exact and_iff_left (hpeer.congr rfl rfl rfl (le_refl _) rfl rfl rfl
      (micro_take _ _ hp'.served.flow.got_le))
  · have hsolo := (hp.answer_own hp' ha).2.2.1
    refine iff_of_true ⟨fun hst => absurd hst (hp.answer_vonst hp' ha), ?_⟩ trivial
    exact hpeer.congr rfl rfl rfl (le_refl _) rfl rfl rfl (by rw [Station.sent, hsolo]; rfl)
  · exact iff_of_true ⟨hown.congr rfl rfl rfl (le_refl _) rfl rfl rfl rfl,
      hpeer.congr rfl rfl rfl (le_refl _) rfl rfl rfl rfl⟩ trivial

theorem shelved_of_init (h : lockstep.init s) :
    Shelved s ∧ ∀ i : Side, Settled (s i) (s i.other).sent := by
  have hfresh : ∀ i : Side, (s i).solo.con.vonst = .wiss := by
    intro i
    obtain ⟨hw, c, r, m, -, hs⟩ := h i
    rw [hs]
    rfl
  refine ⟨⟨fun i => Paired.start (h i) (h i.other), fun i => ⟨(Agreed.start (h i)).ring, ?_⟩⟩, ?_⟩
  · intro hst
    cases (hfresh i).symm.trans hst
  · intro i hst
    cases (hfresh i).symm.trans hst

/-- The order inside a batch does not show, in any state a match passes through, just when no
    micro-step takes the last record of a batch that reaches back to its newest tick's slot. -/
theorem batch_order_iff {s₀ : Link} {es : List LinkEv} (h₀ : lockstep.init s₀) :
    lockstep.Throughout (fun s => ∀ i : Side, Settled (s i) (s i.other).sent) s₀ es ↔
      lockstep.EachStep Narrow s₀ es := by
  obtain ⟨hshelved, hset⟩ := shelved_of_init h₀
  exact lockstep.throughout_iff_eachStep (fun _ _ _ h hst => h.step hst)
    (fun _ _ _ h hset hst => h.settled_iff hset hst) hshelved hset

/-- In the backlog the two records of the batch are three ticks apart. -/
theorem batch_order_iff_backlog : lockstep.Throughout
    (fun s => ∀ i : Side, Settled (s i) (s i.other).sent) Link.rest backlog :=
  (batch_order_iff init_rest).mpr (by decide +kernel)

/-- The guest writes its first record twice. The host reads only the first, runs on to its end, writes,
    and stalls; the guest reads that, runs to its own end with its paddle moved for the last tick, and
    writes. Now the host reads the second copy and the new record at once. -/
def straggler : List LinkEv :=
  List.flatten [
    LinkEv.frames .host 0 1, LinkEv.frames .guest 0 1, LinkEv.write .guest,
    [.micro .guest, .answer .guest, .micro .guest], LinkEv.write .guest, [.arrive .host 16],
    LinkEv.write .host, LinkEv.read .host, [.micro .host, .micro .host],
    LinkEv.frames .host 0 13, LinkEv.write .host, [.arrive .guest 32], LinkEv.read .guest,
    [.micro .guest, .micro .guest, .micro .guest], LinkEv.frames .guest 0 24,
    LinkEv.frames .guest 0x50 1, LinkEv.write .guest, [.arrive .host 32], LinkEv.read .host,
    [.micro .host, .micro .host]]

/-- The host is at tick 3 with its watermark at 8, and the slot of tick 8 shows tick 0. -/
theorem straggler_spoils :
    ¬∀ s, lockstep.Reachable s → ∀ i : Side, Settled (s i) (s i.other).sent := by
  intro hall
  obtain ⟨s, hrun, hst, hv, hbase, hgot, htick, hwat, r, hr, hstamp, hring⟩ :=
    lockstep.exists_run (s := Link.rest) (e := straggler) (Q := fun s =>
      (s .host).solo.con.vonst = .cons ∧ (s .host).solo.con.vordn = 0 ∧ (s .host).base ≤ 2 ∧
      2 < (s .host).got ∧ (s .host).tick = 3 ∧ (s .host).wat = 8 ∧
      ∃ r ∈ (s .guest).sent[2]?, r.stamp = 8 ∧
        ringAt (s .host).solo.con.voring vorm (BitVec.ofInt 8 8) ≠ r.at 8) (by decide +kernel)
  exact hring (hall s ⟨Link.rest, straggler, init_rest, hrun⟩ .host hst hv 2 r 8 hbase hgot hr
    ⟨by rw [hstamp]; decide, hstamp.ge⟩ (by rw [htick]; decide) hwat.ge)

end VO
