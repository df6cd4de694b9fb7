import VideoOlympics.Lockstep.Transit

/-! How far apart two consoles can be. A console runs at most one tick past its watermark, its
    watermark is a stamp the peer wrote, and a stamp is two ticks past the console that wrote it; so
    neither is more than three ahead, and every comparison the eight-bit cells make is between
    values a few ticks apart. -/

namespace VO

/-- What bounds one console by what it has read of the other. `floor` is the one that looks back: a
    console writes only between batches, so all it has written it wrote when its watermark was the
    last finished batch's. -/
structure Skew (x y : Station) : Prop where
  vorwat : x.solo.con.vorwat = BitVec.ofInt 8 x.wat
  sorted : x.sent.Pairwise (fun r q => r.stamp ≤ q.stamp)
  behind : x.tick ≤ max (x.wat + 1) 0
  ran : has x.solo.con.voent voeRan = true → x.tick ≤ max x.wat (-1)
  floor : ∀ r ∈ x.sent, r.stamp ≤ max (mark y.sent x.base + 3) 2
  eaten : ∀ t ∈ x.eaten, t ≤ x.wat

/-- Everything one end of the match keeps, with the other end as its peer. -/
structure Paired (x y : Station) : Prop where
  sound : Sound x.solo
  served : Served x y
  skew : Skew x y

/-! ### The marks -/

variable {rs : List Rec}

theorem mark_ge (hlo : ∀ r ∈ rs, 1 ≤ r.stamp) (n : ℕ) : -2 ≤ mark rs n := by
  cases n with
  | zero => exact le_refl _
  | succ n =>
    rw [mark]
    cases h : rs[n]? with
    | none => exact le_refl _
    | some r =>
      have := hlo r (List.mem_of_getElem? h)
      simp only [Option.map_some, Option.getD_some]
      omega

/-- A record from some point on is stamped no earlier than the last one before it. -/
theorem mark_le_stamp (hs : rs.Pairwise (fun r q => r.stamp ≤ q.stamp)) (hlo : ∀ r ∈ rs, 1 ≤ r.stamp)
    {n i : ℕ} {r : Rec} (hr : rs[i]? = some r) (hn : n ≤ i) : mark rs n ≤ r.stamp := by
  cases n with
  | zero => have := hlo r (List.mem_of_getElem? hr); simp only [mark]; omega
  | succ n =>
    obtain ⟨hi, rfl⟩ := List.getElem?_eq_some_iff.mp hr
    have hlt : n < rs.length := by omega
    rw [mark_succ (List.getElem?_eq_getElem hlt)]
    exact List.pairwise_iff_getElem.mp hs n i hlt hi (by omega)

theorem mark_mono (hs : rs.Pairwise (fun r q => r.stamp ≤ q.stamp)) (hlo : ∀ r ∈ rs, 1 ≤ r.stamp)
    {n m : ℕ} (hnm : n ≤ m) (hm : m ≤ rs.length) : mark rs n ≤ mark rs m := by
  rcases Nat.lt_or_eq_of_le hnm with hlt | rfl
  · obtain ⟨k, rfl⟩ : ∃ k, m = k + 1 := ⟨m - 1, by omega⟩
    have hk : k < rs.length := by omega
    rw [mark_succ (List.getElem?_eq_getElem hk)]
    exact mark_le_stamp hs hlo (List.getElem?_eq_getElem hk) (by omega)
  · exact le_refl _

theorem mark_mem (n : ℕ) : mark rs n = -2 ∨ ∃ r ∈ rs, mark rs n = r.stamp := by
  cases n with
  | zero => exact .inl rfl
  | succ n =>
    cases h : rs[n]? with
    | none => left; rw [mark, h]; rfl
    | some r => exact .inr ⟨r, List.mem_of_getElem? h, mark_succ h⟩

/-- The watermark is the last finished batch's last stamp, or the open batch's. -/
theorem Transit.wat_eq {x : Station} (h : Transit rs x) :
    x.base ≤ x.got ∧ (x.wat = mark rs x.base ∨ x.wat = mark rs x.got) := by
  have hclear : x.Clear rs → x.base ≤ x.got ∧ (x.wat = mark rs x.base ∨ x.wat = mark rs x.got) :=
    fun hc => ⟨hc.1.le, .inr hc.2⟩
  have hbatch : ∀ {j}, x.Batch rs j →
      x.base ≤ x.got ∧ (x.wat = mark rs x.base ∨ x.wat = mark rs x.got) := by
    intro j hb
    refine ⟨by have := hb.left; omega, ?_⟩
    rw [hb.wat]
    split
    · exact .inl rfl
    · exact .inr rfl
  rw [Transit] at h
  cases hst : x.solo.con.vonst <;> simp only [hst] at h
  case wiss | siss => exact hclear h.2
  case wack | sack => exact hclear h.2.1
  case riss => exact hclear h.2.1
  case rack =>
    obtain ⟨-, hrest⟩ := h
    split at hrest
    · obtain ⟨-, k, -, -, hb⟩ := hrest
      exact hbatch hb
    · exact hclear hrest.1
  case cons =>
    obtain ⟨-, j, -, hb⟩ := h
    exact hbatch hb

/-! ### The bounds -/

section
variable {x y : Station}

theorem Paired.stamp_ge (h : Paired x y) : ∀ r ∈ x.sent, 1 ≤ r.stamp :=
  fun r hr => (h.sound.sent r hr).1

theorem Paired.stamp_le (h : Paired x y) : ∀ r ∈ x.sent, r.stamp ≤ x.tick + 2 :=
  fun r hr => (h.sound.sent r hr).2.1

theorem Paired.tick_ge (h : Paired x y) : -1 ≤ x.tick := h.sound.start

/-- The watermark is a stamp the peer wrote, or where it started. -/
theorem Paired.wat_mem (h : Paired x y) : x.wat = -2 ∨ ∃ r ∈ y.sent, x.wat = r.stamp := by
  obtain ⟨-, hw | hw⟩ := h.served.transit.wat_eq <;> rw [hw] <;> exact mark_mem _

theorem Paired.wat_le (h : Paired x y) (h' : Paired y x) : x.wat ≤ y.tick + 2 := by
  have := h'.tick_ge
  rcases h.wat_mem with hw | ⟨r, hr, hw⟩
  · omega
  · have := h'.stamp_le r hr
    omega

theorem Paired.wat_ge (h : Paired x y) (h' : Paired y x) : -2 ≤ x.wat := by
  rcases h.wat_mem with hw | ⟨r, hr, hw⟩
  · omega
  · have := h'.stamp_ge r hr
    omega

/-- The watermark lies between the last finished batch's stamp and the open batch's. -/
theorem Paired.base_le_wat (h : Paired x y) (h' : Paired y x) :
    mark y.sent x.base ≤ x.wat ∧ x.wat ≤ mark y.sent x.got := by
  obtain ⟨hbase, hw⟩ := h.served.transit.wat_eq
  have hmono := mark_mono h'.skew.sorted h'.stamp_ge hbase h.served.flow.got_le
  rcases hw with hw | hw <;> rw [hw]
  · exact ⟨le_refl _, hmono⟩
  · exact ⟨hmono, le_refl _⟩

/-- The peer is at most three ticks ahead. -/
theorem Paired.skew_le (h : Paired x y) (h' : Paired y x) : y.tick ≤ x.tick + 3 := by
  have h1 := h'.skew.behind
  have h2 := h'.wat_le h
  have h3 := h.tick_ge
  omega

/-- The watermark is never more than five ticks ahead nor more than two behind. -/
theorem Paired.wat_window (h : Paired x y) (h' : Paired y x) :
    x.tick - 2 ≤ x.wat ∧ x.wat ≤ x.tick + 5 := by
  have h1 := h.skew.behind
  have h2 := h.wat_le h'
  have h3 := h.skew_le h'
  have h4 := h.wat_ge h'
  omega

/-- Whatever the peer has written since the last finished batch is stamped within seven ticks of
    that batch's stamp. -/
theorem Paired.span (h : Paired x y) (h' : Paired y x) {i : ℕ} {r : Rec} (hr : y.sent[i]? = some r)
    (hi : x.base ≤ i) : mark y.sent x.base ≤ r.stamp ∧ r.stamp ≤ mark y.sent x.base + 7 := by
  refine ⟨mark_le_stamp h'.skew.sorted h'.stamp_ge hr hi, ?_⟩
  have hstamp := h'.stamp_le r (List.mem_of_getElem? hr)
  have hbehind := h'.skew.behind
  have hmark := mark_ge h'.stamp_ge x.base
  rcases h'.wat_mem with hw | ⟨q, hq, hw⟩
  · omega
  · have hfloor := h.skew.floor q hq
    omega

theorem Paired.got_span (h : Paired x y) (h' : Paired y x) :
    mark y.sent x.got ≤ mark y.sent x.base + 7 := by
  have hle := h.served.flow.got_le
  rcases Nat.lt_or_eq_of_le h.served.transit.wat_eq.1 with hlt | heq
  · obtain ⟨k, hk⟩ : ∃ k, x.got = k + 1 := ⟨x.got - 1, by omega⟩
    rw [hk] at hle hlt ⊢
    have hr : y.sent[k]? = some y.sent[k] := List.getElem?_eq_getElem hle
    rw [mark_succ hr]
    exact (h.span h' hr (by omega)).2
  · rw [← heq]
    omega

/-- A record of the open batch is within seven ticks of the watermark. -/
theorem Paired.near (h : Paired x y) (h' : Paired y x) {i : ℕ} {r : Rec} (hr : y.sent[i]? = some r)
    (hi : x.base ≤ i) : -7 ≤ r.stamp - x.wat ∧ r.stamp - x.wat ≤ 7 := by
  obtain ⟨hlo, hhi⟩ := h.span h' hr hi
  have hw := h.base_le_wat h'
  have hgot := h.got_span h'
  omega

/-! ### The three comparisons -/

/-- The gate's signed test is the unbounded one, for the tick it is about to decide. -/
theorem Paired.ready_iff (h : Paired x y) (h' : Paired y x) {t : ℤ} (hlo : x.tick ≤ t)
    (hhi : t ≤ max (x.wat + 1) 0) {c : Console} (hv : c.votick = BitVec.ofInt 8 t)
    (hwat : c.vorwat = x.solo.con.vorwat) : ready c = decide (t ≤ x.wat) := by
  have hw := h.wat_window h'
  have hge := h.wat_ge h'
  rw [ready, hv, hwat, h.skew.vorwat, Serial.msb_sub _ _ (by omega) (by omega), ← decide_not]
  exact decide_eq_decide.mpr not_lt

/-- So is the watermark's test of a record. -/
theorem Paired.newer_iff (h : Paired x y) (h' : Paired y x) {i : ℕ} {r : Rec}
    (hr : y.sent[i]? = some r) (hi : x.base ≤ i) :
    (BitVec.ofInt 8 r.stamp - x.solo.con.vorwat).msb = decide (r.stamp < x.wat) := by
  have := h.near h' hr hi
  rw [h.skew.vorwat, Serial.msb_sub _ _ (by omega) (by omega)]

/-- And so is the desync check's test for the record of the tick we are on. -/
theorem Paired.same_tick_iff (h : Paired x y) (h' : Paired y x) {i : ℕ} {r : Rec}
    (hr : y.sent[i]? = some r) (hi : x.base ≤ i) :
    BitVec.ofInt 8 r.stamp - vod = x.solo.con.votick ↔ r.stamp - 2 = x.tick := by
  have hnear := h.near h' hr hi
  have hw := h.wat_window h'
  have hvod : BitVec.ofInt 8 r.stamp - vod = BitVec.ofInt 8 (r.stamp - 2) :=
    (Serial.ofInt_sub r.stamp 2).symm
  rw [hvod, h.sound.votick]
  exact Serial.ofInt_inj _ _ (abs_lt.mpr ⟨by rw [← Station.tick]; omega, by rw [← Station.tick]; omega⟩)

end

end VO
