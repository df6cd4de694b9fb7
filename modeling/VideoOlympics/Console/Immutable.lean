import VideoOlympics.Console.Solo

/-! A sent tick is immutable, and is the one simulated. The tape's captures decide everything: the
    local ring holds them for the four ticks it has room for, a record carries three of them, and
    the gate takes the running tick's. An advance adds a capture two ticks ahead, where no record
    and no gate has looked yet. -/

namespace VO

/-! ### What a record says about a tick -/

/-- The record's window contains the tick. -/
def Rec.covers (r : Rec) (t : ℤ) : Prop := r.stamp - vowin < t ∧ t ≤ r.stamp

/-- The paddle and the switches a record carries for a tick of its window. -/
def Rec.at (r : Rec) (t : ℤ) : Byte × Byte :=
  (r.bytes.getD (3 + 3 * (r.stamp - t).toNat) 0, r.bytes.getD (5 + 3 * (r.stamp - t).toNat) 0)

/-- The record a console with this tape would write for a stamp. -/
def Tape.record (tp : Tape) (s : ℤ) : List Byte :=
  recordBytes (BitVec.ofInt 8 s) (tp.cap s) (tp.cap (s - 1)) (tp.cap (s - 2)) (tp.crc (s - 2))

/-- A record in the stream is the one its stamp names. -/
def Tape.Wrote (tp : Tape) (r : Rec) : Prop :=
  1 ≤ r.stamp ∧ r.stamp ≤ tp.tick + 2 ∧ r.bytes = tp.record r.stamp

theorem Tape.Wrote.at_eq {tp : Tape} {r : Rec} (h : tp.Wrote r) {t : ℤ} (ht : r.covers t) :
    r.at t = tp.cap t := by
  obtain ⟨hlo, hhi⟩ := ht
  rw [vowin_cast] at hlo
  rw [Rec.at, h.2.2, Tape.record]
  obtain h0 | h1 | h2 : t = r.stamp ∨ t = r.stamp - 1 ∨ t = r.stamp - 2 := by omega
  · rw [h0, sub_self]; rfl
  · rw [h1, sub_sub_cancel]; rfl
  · rw [h2, sub_sub_cancel]; rfl

/-! ### The invariant -/

/-- What the tape says of the console. `loc` is the local ring: four captures, the running tick's
    own among them. -/
structure Sound (s : Solo) : Prop where
  net : has s.con.voent voeNet = true
  votick : s.con.votick = BitVec.ofInt 8 s.tape.tick
  start : -1 ≤ s.tape.tick
  loc : ∀ t, s.tape.tick - 2 < t → t ≤ s.tape.tick + 2 →
    localRing.get s.con.voloc t = s.tape.cap t
  idle : ∀ t ≤ 1, s.tape.cap t = (vopIdle, iwIdle)
  vocrcv : s.con.vocrcv = s.tape.crc s.tape.tick
  sent : ∀ r ∈ s.tape.sent, s.tape.Wrote r
  took : ∀ e ∈ s.tape.took, e.1 ≤ s.tape.tick ∧ e.2 = s.tape.cap e.1

theorem cszring_get (k : ℕ) (hk : 2 ^ k - 1 < 128) (t : ℤ) :
    (tickRing k hk).get cszring t = (vopIdle, iwIdle) := by
  have heven : ∀ b : Byte, cszring (b <<< 1) = vopIdle ∧ cszring (b <<< 1 + 1#8) = iwIdle := by
    decide
  exact Prod.ext (heven _).1 (heven _).2

theorem start_con (role : Byte) (hw : Hw) (c : Console) (r : Regs) :
    (Solo.start role hw c r).con.votick = 0xFF ∧
    (Solo.start role hw c r).con.vorwat = 0xFE ∧
    (Solo.start role hw c r).con.voloc = cszring ∧ (Solo.start role hw c r).con.voring = cszring ∧
    (Solo.start role hw c r).con.vonst = .wiss ∧
    (Solo.start role hw c r).con.voent = roleBit role ||| (voeNet ||| voeRan) ∧
    (Solo.start role hw c r).con.bank = .game :=
  ⟨rfl, rfl, rfl, rfl, rfl, rfl, rfl⟩

theorem start_voent : ∀ role : Byte, has (roleBit role ||| (voeNet ||| voeRan)) voeNet = true ∧
    has (roleBit role ||| (voeNet ||| voeRan)) voeRan = true ∧
    has (roleBit role ||| (voeNet ||| voeRan)) voeRsy = false ∧
    phaseOf (roleBit role ||| (voeNet ||| voeRan)) = 0 ∧
    has (roleBit role ||| (voeNet ||| voeRan)) voeRole = has role 1 := by
  decide

theorem Sound.start_of (role : Byte) (hw : Hw) (c : Console) (r : Regs) :
    Sound (Solo.start role hw c r) where
  net := (start_voent role).1
  votick := rfl
  start := le_refl _
  loc t _ _ := cszring_get 2 (by decide) t
  idle _ _ := rfl
  vocrcv := rfl
  sent := by simp [Solo.start, Tape.blank]
  took := by simp [Solo.start, Tape.blank]

/-! ### A gate -/

/-- The tick the tape shows after a gate. -/
def nextTick (s : Solo) : ℤ := if advances s.con then s.tape.tick + 1 else s.tape.tick

theorem gate_tick (hw : Hw) (sim : Sim) (s : Solo) : (s.gate hw sim).tape.tick = nextTick s := rfl

variable {hw : Hw} {sim : Sim} {s : Solo}

theorem Sound.gate_votick (h : Sound s) (hw : Hw) (sim : Sim) :
    (frame hw sim s.con).votick = BitVec.ofInt 8 (nextTick s) := by
  rw [(frame_cases hw sim s.con h.net).1.votick, h.votick, nextTick]
  split
  · exact (Serial.ofInt_succ _).symm
  · rfl

/-- A capture goes two ticks ahead of the tick it belongs to, and nowhere else. -/
theorem gate_cap_of_le {t : ℤ} (ht : t ≤ s.tape.tick + 2) :
    (s.gate hw sim).tape.cap t = s.tape.cap t := by
  simp only [Solo.gate, Tape.gate]
  split
  · exact Function.update_of_ne (by omega) _ _
  · rfl

theorem gate_crc_of_le {t : ℤ} (ht : t ≤ s.tape.tick) :
    (s.gate hw sim).tape.crc t = s.tape.crc t := by
  simp only [Solo.gate, Tape.gate]
  split
  · exact Function.update_of_ne (by omega) _ _
  · rfl

theorem ofInt_add_vod (t : ℤ) : BitVec.ofInt 8 t + vod = BitVec.ofInt 8 (t + 2) := by
  rw [BitVec.ofInt_add]; rfl

/-- The local ring after an advance: the new capture in the slot of the tick four back. -/
theorem Sound.gate_voloc (h : Sound s) (hadv : advances s.con = true) :
    (frame hw sim s.con).voloc =
      localRing.put s.con.voloc (s.tape.tick + 3) (capture hw s.con) := by
  have hslot : BitVec.ofInt 8 s.tape.tick + 1 + vod = BitVec.ofInt 8 (s.tape.tick + 3) := by
    rw [show (1 : Byte) = 1#8 from rfl, ← Serial.ofInt_succ, ofInt_add_vod, add_assoc]
    rfl
  rw [(frame_cases hw sim s.con h.net).1.voloc, if_pos hadv, h.votick, hslot]
  rfl

theorem Sound.gate_capture (h : Sound s) (hadv : advances s.con = true) :
    (s.gate hw sim).tape.cap (s.tape.tick + 3) = capture hw s.con := by
  have htick : nextTick s = s.tape.tick + 1 := if_pos hadv
  have hput : ringAt (frame hw sim s.con).voloc volm ((frame hw sim s.con).votick + vod) =
      localRing.get (frame hw sim s.con).voloc (s.tape.tick + 3) := by
    rw [h.gate_votick, htick, ofInt_add_vod, localRing_get, add_assoc]
    rfl
  simp only [Solo.gate, Tape.gate, hadv, if_true]
  rw [show s.tape.tick + 1 + 2 = s.tape.tick + 3 by omega, Function.update_self, hput,
    h.gate_voloc hadv, localRing.get_put, if_pos rfl]

theorem Sound.gate_loc (h : Sound s) {t : ℤ} (hlo : nextTick s - 2 < t) (hhi : t ≤ nextTick s + 2) :
    localRing.get (frame hw sim s.con).voloc t = (s.gate hw sim).tape.cap t := by
  cases hadv : advances s.con with
  | false =>
    have htick : nextTick s = s.tape.tick := by simp [nextTick, hadv]
    rw [htick] at hlo hhi
    rw [(frame_cases hw sim s.con h.net).1.voloc, hadv, if_neg Bool.false_ne_true,
      gate_cap_of_le hhi]
    exact h.loc t hlo hhi
  | true =>
    have htick : nextTick s = s.tape.tick + 1 := if_pos hadv
    rw [htick] at hlo hhi
    rw [h.gate_voloc hadv, localRing.get_put]
    by_cases ht : t = s.tape.tick + 3
    · rw [ht, if_pos rfl, h.gate_capture hadv]
    · rw [if_neg (by omega), gate_cap_of_le (by omega)]
      exact h.loc t (by omega) (by omega)

/-- The bytes a running tick takes are the ones captured for it. -/
theorem Sound.gate_own (h : Sound s) (hrun : RunTick hw s.con (frame hw sim s.con)) :
    ownWork (frame hw sim s.con) = (s.gate hw sim).tape.cap (nextTick s) := by
  rw [ownWork, hrun.own, h.gate_votick, ← localRing_get]
  exact h.gate_loc (by omega) (by omega)

/-- A record already written means the same after a gate. -/
theorem Tape.Wrote.gate {r : Rec} (h : s.tape.Wrote r) : (s.gate hw sim).tape.Wrote r := by
  obtain ⟨hlo, hhi, hbytes⟩ := h
  have hle : s.tape.tick ≤ nextTick s := by rw [nextTick]; split <;> omega
  refine ⟨hlo, ?_, ?_⟩
  · rw [gate_tick]; omega
  · rw [hbytes, Tape.record, Tape.record, gate_cap_of_le (by omega), gate_cap_of_le (by omega),
      gate_cap_of_le (by omega), gate_crc_of_le (by omega)]

theorem Sound.gate (h : Sound s) (hw : Hw) (sim : Sim) : Sound (s.gate hw sim) := by
  have hle : s.tape.tick ≤ nextTick s := by rw [nextTick]; split <;> omega
  obtain ⟨hg, hcase⟩ := frame_cases hw sim s.con h.net
  refine ⟨hg.net.trans h.net, h.gate_votick hw sim, ?_, fun t => h.gate_loc, ?_, ?_, ?_, ?_⟩
  · exact h.start.trans hle
  · intro t ht
    rw [gate_cap_of_le (by have := h.start; omega)]
    exact h.idle t ht
  · simp only [Solo.gate, Tape.gate, hg.vocrcv]
    split
    · rw [Function.update_self]
    · exact h.vocrcv
  · exact fun r hr => (h.sent r hr).gate
  · intro e he
    rw [gate_tick]
    simp only [Solo.gate, Tape.gate] at he
    split at he
    · rename_i hran
      rcases List.mem_append.mp he with he | he
      · obtain ⟨hlt, heq⟩ := h.took e he
        exact ⟨hlt.trans hle, heq.trans (gate_cap_of_le (by omega)).symm⟩
      · obtain rfl := List.mem_singleton.mp he
        refine ⟨le_refl _, h.gate_own ?_⟩
        simp only [ranTick, Bool.and_eq_true, beq_iff_eq, bne_iff_ne] at hran
        rcases hcase with hmid | hrun | hstall
        · exact absurd hran.1 hmid.before
        · exact hrun
        · exact absurd hstall.adv hran.2
    · obtain ⟨hlt, heq⟩ := h.took e he
      exact ⟨hlt.trans hle, heq.trans (gate_cap_of_le (by omega)).symm⟩

/-! ### A micro-step -/

/-- What a WRITE streams is the record its stamp names. -/
theorem Sound.written (h : Sound s) (m : Mail) (hst : s.con.vonst = .wiss) :
    (vonstep m s.con s.regs).2.tx.drop 3 = s.tape.record (s.tape.tick + 2) := by
  have hout : (vonstep m s.con s.regs).2.tx.drop 3 = outRecord s.con := by
    rw [vonstep, hst, voswiss_eq]; rfl
  have h2 : s.con.votick + 2 = BitVec.ofInt 8 (s.tape.tick + 2) := by
    rw [h.votick, BitVec.ofInt_add]; rfl
  have h1 : s.con.votick + 1 = BitVec.ofInt 8 (s.tape.tick + 1) := by
    rw [h.votick, Serial.ofInt_succ]; rfl
  rw [hout, outRecord, Tape.record, h2, h1, h.votick, ← localRing_get, ← localRing_get,
    ← localRing_get, h.loc _ (by omega) (by omega), h.loc _ (by omega) (by omega),
    h.loc _ (by omega) (by omega), h.vocrcv, add_sub_cancel_right,
    show s.tape.tick + 2 - 1 = s.tape.tick + 1 by omega]

/-- A micro-step moves the tape only by writing, -/
theorem micro_same (s : Solo) (m : Mail) : (s.micro m).tape.tick = s.tape.tick ∧
    (s.micro m).tape.cap = s.tape.cap ∧ (s.micro m).tape.crc = s.tape.crc ∧
    (s.micro m).tape.took = s.tape.took ∧ (s.micro m).tape.shown = s.tape.shown := by
  simp only [Solo.micro, Tape.micro]
  split <;> exact ⟨rfl, rfl, rfl, rfl, rfl⟩

/-- and what it writes is the record for the tick two ahead. -/
theorem Sound.micro_sent (h : Sound s) (m : Mail) : (s.micro m).tape.sent =
    if s.con.vonst = .wiss
    then s.tape.sent ++ [⟨s.tape.tick + 2, s.tape.record (s.tape.tick + 2)⟩]
    else s.tape.sent := by
  simp only [Solo.micro, Tape.micro]
  split
  · rename_i hst
    rw [h.written m hst]
  · rfl

theorem Sound.micro (h : Sound s) (m : Mail) : Sound (s.micro m) := by
  have k := kept_vonstep m s.con s.regs
  have hnew : s.tape.Wrote ⟨s.tape.tick + 2, s.tape.record (s.tape.tick + 2)⟩ :=
    ⟨by have := h.start; dsimp only; omega, le_refl _, rfl⟩
  have hsent : ∀ r ∈ (s.micro m).tape.sent, s.tape.Wrote r := by
    rw [h.micro_sent m]
    split
    · intro r hr
      rcases List.mem_append.mp hr with hr | hr
      · exact h.sent r hr
      · rw [List.mem_singleton.mp hr]; exact hnew
    · exact h.sent
  obtain ⟨htick, hcap, hcrc, htook, -⟩ := micro_same s m
  constructor
  · exact k.net.trans h.net
  · rw [htick]; exact k.votick.trans h.votick
  · rw [htick]; exact h.start
  · intro t
    rw [htick, hcap, show (s.micro m).con.voloc = s.con.voloc from k.voloc]
    exact h.loc t
  · rw [hcap]; exact h.idle
  · rw [htick, hcrc]; exact k.vocrcv.trans h.vocrcv
  · intro r hr
    obtain ⟨hlo, hhi, hb⟩ := hsent r hr
    refine ⟨hlo, htick ▸ hhi, ?_⟩
    rw [hb, Tape.record, Tape.record, hcap, hcrc]
  · rw [htick, hcap, htook]; exact h.took

theorem Sound.step {t : Solo} {e : SoloEv} (h : Sound s) (hst : s.step e = some t) : Sound t := by
  rcases Solo.step_cases hst with ⟨-, ⟨hw, sim, -, rfl⟩ | ⟨m, -, rfl⟩⟩
  · exact h.gate hw sim
  · exact h.micro m

theorem sound_of_reachable (h : solo.Reachable s) : Sound s :=
  solo.reachable_invariant
    (fun _ ⟨role, hw, c, r, hs⟩ => hs ▸ Sound.start_of role hw c r)
    (fun _ _ _ hI hst => hI.step hst) h

/-- A sent tick is immutable and is the one simulated: every record that covers a tick carries the
    same two bytes for it, they are the ones the gate takes when that tick runs, and two records of
    one stamp are the same sixteen bytes. -/
theorem sent_tick_immutable (h : solo.Reachable s) :
    (∀ r ∈ s.tape.sent, ∀ r' ∈ s.tape.sent, ∀ t ≥ 0, r.covers t → r'.covers t → r.at t = r'.at t) ∧
    (∀ r ∈ s.tape.sent, ∀ e ∈ s.tape.took, r.covers e.1 → e.2 = r.at e.1) ∧
    (∀ r ∈ s.tape.sent, ∀ r' ∈ s.tape.sent, r.stamp = r'.stamp → r.bytes = r'.bytes) := by
  have hs := sound_of_reachable h
  refine ⟨?_, ?_, ?_⟩
  · intro r hr r' hr' t _ hc hc'
    rw [(hs.sent r hr).at_eq hc, (hs.sent r' hr').at_eq hc']
  · intro r hr e he hc
    rw [(hs.sent r hr).at_eq hc, (hs.took e he).2]
  · intro r hr r' hr' heq
    rw [(hs.sent r hr).2.2, (hs.sent r' hr').2.2, heq]

/-- A console that writes, reads a record, runs a tick and writes the same stamp again. -/
theorem sent_tick_immutable_rest :
    ∃ s, solo.Reachable s ∧ s.tape.sent.map Rec.stamp = [2, 2] ∧ s.tape.took.length = 1 ∧
    (∀ r ∈ s.tape.sent, ∀ r' ∈ s.tape.sent, ∀ t ≥ 0, r.covers t → r'.covers t → r.at t = r'.at t) ∧
    (∀ r ∈ s.tape.sent, ∀ e ∈ s.tape.took, r.covers e.1 → e.2 = r.at e.1) ∧
    (∀ r ∈ s.tape.sent, ∀ r' ∈ s.tape.sent, r.stamp = r'.stamp → r.bytes = r'.bytes) := by
  obtain ⟨s, hrun, hsent, htook⟩ := solo.exists_run (s := Solo.rest) (e := restFrames 1 ++
      firstRecord (recordBytes 2 (0, 0xFF) (0, 0xFF) (0, 0xFF) 0) ++ restFrames 1 ++
      [.micro (painted 3 [] 0), .micro (painted 3 [] 0)])
    (Q := fun s => s.tape.sent.map Rec.stamp = [2, 2] ∧ s.tape.took.length = 1) (by decide +kernel)
  have hreach : solo.Reachable s := ⟨_, _, ⟨0, Hw.rest, Console.cleared, Regs.cleared, rfl⟩, hrun⟩
  exact ⟨s, hreach, hsent, htook, sent_tick_immutable hreach⟩

end VO
