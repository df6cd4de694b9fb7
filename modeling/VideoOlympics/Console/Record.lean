import Mathlib.Data.List.GetD
import VideoOlympics.Base.Serial
import VideoOlympics.Base.Windows
import VideoOlympics.Console.Transport

/-! The INPUT record between its writer and its reader: the sixteen bytes `VOSWISS` streams as one
    value, what `VOSCONS` does with a record lying in the reply window, and the two rings as rings
    of ticks. -/

namespace VO

/-! ### The rings as rings of ticks -/

theorem toNat_slotOf {mask : Byte} (hm : mask.toNat < 128) (t : Byte) :
    (slotOf mask t).toNat = 2 * (t &&& mask).toNat := by
  have hle : (t &&& mask).toNat ≤ mask.toNat := by rw [BitVec.toNat_and]; exact Nat.and_le_right
  rw [slotOf, BitVec.toNat_shiftLeft, Nat.shiftLeft_eq]
  omega

theorem slotOf_inj {mask : Byte} (hm : mask.toNat < 128) (t u : Byte) :
    slotOf mask t = slotOf mask u ↔ t &&& mask = u &&& mask := by
  rw [← BitVec.toNat_inj, toNat_slotOf hm, toNat_slotOf hm, ← BitVec.toNat_inj]
  omega

/-- A slot's paddle never shares a cell with another slot's switches. -/
theorem slotOf_ne_succ {mask : Byte} (hm : mask.toNat < 128) (t u : Byte) :
    slotOf mask t ≠ slotOf mask u + 1#8 := by
  intro h
  have := congrArg BitVec.toNat h
  rw [BitVec.toNat_add, toNat_slotOf hm, toNat_slotOf hm, BitVec.toNat_ofNat] at this
  omega

theorem ringAt_ringPut {mask : Byte} (hm : mask.toNat < 128) (ring : Byte → Byte)
    (t u pad sw : Byte) : ringAt (ringPut ring mask t pad sw) mask u =
      if u &&& mask = t &&& mask then (pad, sw) else ringAt ring mask u := by
  have h1 := slotOf_ne_succ hm t u
  have h2 := slotOf_ne_succ hm u t
  by_cases h : u &&& mask = t &&& mask
  · have hs : slotOf mask u = slotOf mask t := (slotOf_inj hm u t).mpr h
    simp [ringAt, ringPut, h, hs]
  · have hs : slotOf mask u ≠ slotOf mask t := fun h' => h ((slotOf_inj hm u t).mp h')
    simp [ringAt, ringPut, h, hs, h2, h1.symm]

/-- A zero-page ring of `2 ^ k` slots, addressed by the unbounded tick. -/
def tickRing (k : ℕ) (hk : 2 ^ k - 1 < 128) : Windows.Ring (Byte → Byte) (Byte × Byte) (2 ^ k) where
  get ring t := ringAt ring (BitVec.ofNat 8 (2 ^ k - 1)) (BitVec.ofInt 8 t)
  put ring t v := ringPut ring (BitVec.ofNat 8 (2 ^ k - 1)) (BitVec.ofInt 8 t) v.1 v.2
  pos := by positivity
  get_put ring t v u := by
    have hk8 : k ≤ 8 := by
      by_contra h
      have : 2 ^ 8 ≤ 2 ^ k := Nat.pow_le_pow_right (by decide) (by omega)
      omega
    rw [ringAt_ringPut (by rw [BitVec.toNat_ofNat]; omega)]
    simp only [Serial.low_bits_inj hk8]

/-- The remote ring, eight slots. -/
def remoteRing : Windows.Ring (Byte → Byte) (Byte × Byte) 8 := tickRing 3 (by decide)

/-- The local ring, four slots. -/
def localRing : Windows.Ring (Byte → Byte) (Byte × Byte) 4 := tickRing 2 (by decide)

theorem remoteRing_get (ring : Byte → Byte) (t : ℤ) :
    remoteRing.get ring t = ringAt ring vorm (BitVec.ofInt 8 t) := rfl

theorem localRing_get (ring : Byte → Byte) (t : ℤ) :
    localRing.get ring t = ringAt ring volm (BitVec.ofInt 8 t) := rfl

/-! ### The record -/

/-- The running check byte when the window has gone out: the salt, the tick and nine bytes. -/
def windowCheck (t : Byte) (a b d : Byte × Byte) : Byte :=
  d.2 ^^^ (vopIdle ^^^ (d.1 ^^^ (b.2 ^^^ (vopIdle ^^^ (b.1 ^^^ (a.2 ^^^ (vopIdle ^^^ (a.1 ^^^
    (t ^^^ irSeed)))))))))

/-- The check byte of a record: every carrying byte, and the salt. -/
def recordCheck (t : Byte) (a b d : Byte × Byte) (crc : Byte) : Byte := crc ^^^ windowCheck t a b d

/-- The frame on the wire: length, type, the tick the window ends at, three ticks newest first,
    the checksum, the check byte and two bytes of padding. -/
def recordBytes (t : Byte) (a b d : Byte × Byte) (crc : Byte) : List Byte :=
  [irLen - 1, wtInput, t, a.1, vopIdle, a.2, b.1, vopIdle, b.2, d.1, vopIdle, d.2, crc,
    recordCheck t a b d crc, 0, 0]

@[simp] theorem length_recordBytes (t : Byte) (a b d : Byte × Byte) (crc : Byte) :
    (recordBytes t a b d crc).length = 16 := rfl

/-- The record `VOSWISS` would stream now. -/
def outRecord (c : Console) : List Byte :=
  recordBytes (c.votick + 2) (ringAt c.voloc volm (c.votick + 2)) (ringAt c.voloc volm (c.votick + 1))
    (ringAt c.voloc volm c.votick) c.vocrcv

/-- `VOSWISS` streams its length parameter and that record, and goes to wait for the answer. -/
theorem voswiss_eq (m : Mail) (c : Console) (r : Regs) : voswiss m c r =
    volnch .wack m
      { c with vow0 := c.votick - 1,
               vow1 := windowCheck (c.votick + 2) (ringAt c.voloc volm (c.votick + 2))
                 (ringAt c.voloc volm (c.votick + 1)) (ringAt c.voloc volm c.votick) }
      { r with dev := netdev, cmd := ncwrite, npar := 1, tx := [2, irLen, 0] ++ outRecord c } := by
  have h1 : c.votick + 2 - 1 = c.votick + 1 := by bv_omega
  have h2 : c.votick + 1 - 1 = c.votick := by bv_omega
  simp only [voswiss, voww, vowin, Regs.begin, Regs.fntx, vod, h1, h2, outRecord, recordBytes,
    recordCheck, windowCheck, List.nil_append, List.cons_append]

/-- Byte `k` of record `n`, in records end to end. -/
theorem getD_records {α : Type} {f : α → List Byte} {rs : List α} (hlen : ∀ r ∈ rs, (f r).length = 16)
    {n : ℕ} {r : α} (hr : rs[n]? = some r) {k : ℕ} (hk : k < 16) :
    (rs.flatMap f).getD (16 * n + k) 0 = (f r).getD k 0 := by
  induction rs generalizing n with
  | nil => simp at hr
  | cons q rs ih =>
    have hq : (f q).length = 16 := hlen q List.mem_cons_self
    rw [List.flatMap_cons]
    cases n with
    | zero =>
      obtain rfl : q = r := by simpa using hr
      rw [List.getD_append _ _ _ _ (by omega), Nat.mul_zero, Nat.zero_add]
    | succ n =>
      rw [List.getElem?_cons_succ] at hr
      have hoff : 16 * (n + 1) + k - 16 = 16 * n + k := by omega
      rw [List.getD_append_right _ _ _ _ (by omega), hq, hoff]
      exact ih (fun r hr => hlen r (List.mem_cons_of_mem q hr)) hr

/-- Masking a count keeps the whole records in it. -/
theorem irMask_and : ∀ b : Byte, ∃ k ≤ 15, b &&& irMask = BitVec.ofNat 8 (16 * k) ∧
    16 * k ≤ b.toNat := by
  decide

/-- Bytes to records. -/
theorem ofNat_records {k : ℕ} (hk : k ≤ 15) :
    BitVec.ofNat 8 (16 * k) >>> 4 = (BitVec.ofNat 8 k : Byte) := by
  apply BitVec.eq_of_toNat_eq
  rw [BitVec.toNat_ushiftRight, BitVec.toNat_ofNat, BitVec.toNat_ofNat, Nat.shiftRight_eq_div_pow]
  omega

/-- A STATUS without an error either finds nothing whole and goes back to WRITE, or asks for whole
    records that are there. -/
theorem vossack_whole {m : Mail} {c : Console} (ha : voack m c = true)
    (hok : ¬(m.fnerr ≠ 0 ∨ m.fnrply 3 ≠ 1)) :
    vossack m c = { c with vonst := .wiss } ∨
    ∃ k, 1 ≤ k ∧ k ≤ 15 ∧ 16 * k ≤ (m.fnrply 0).toNat + 256 * (m.fnrply 1).toNat ∧
      vossack m c = { c with vordn := BitVec.ofNat 8 (16 * k), vonst := .riss } := by
  rw [vossack, if_pos ha, if_neg hok]
  split
  · next hhi =>
    have hpos : (m.fnrply 1).toNat ≠ 0 := fun h => hhi (BitVec.eq_of_toNat_eq h)
    exact .inr ⟨15, by decide, le_refl _, by omega, rfl⟩
  · split
    · exact .inl rfl
    · next hmask =>
      obtain ⟨k, hk, hb, hle⟩ := irMask_and (m.fnrply 0)
      refine .inr ⟨k, ?_, hk, by omega, by rw [hb]⟩
      rcases Nat.eq_zero_or_pos k with rfl | hpos
      · exact absurd hb hmask
      · exact hpos

/-- The next sequence number is never the last one answered. -/
theorem nextSeq_ne : ∀ b : Byte, (if b + 1 = 0 then 1 else b + 1) ≠ b := by decide

/-- A record lies in the reply window at index `n`. -/
def Shows (m : Mail) (n : ℕ) (bs : List Byte) : Prop :=
  ∀ k < 16, m.fnrply (16 * n + k) = bs.getD k 0

/-- What consuming a valid record does: its window into the ring, the desync check, the watermark. -/
def take (t : Byte) (a b d : Byte × Byte) (crc : Byte) (c : Console) : Console :=
  { c with
    voring := ringPut (ringPut (ringPut c.voring vorm t a.1 a.2) vorm (t - 1) b.1 b.2) vorm (t - 2)
      d.1 d.2
    voent := if t - vod = c.votick ∧ has c.voent voeRsy = false ∧ crc ≠ c.vocrcv
      then c.voent ||| voeRsy else c.voent
    vorwat := if (t - c.vorwat).msb then c.vorwat else t }

theorem toNat_recAt {n : ℕ} (hn : n < 16) : (recAt (BitVec.ofNat 8 n)).toNat = 16 * n := by
  rw [recAt, BitVec.toNat_shiftLeft, BitVec.toNat_ofNat, Nat.shiftLeft_eq]
  omega

theorem Shows.at {m : Mail} {n : ℕ} {bs : List Byte} (hm : Shows m n bs) (hn : n < 16) {k : ℕ}
    (hk : k < 16) : m.at (recAt (BitVec.ofNat 8 n)) k = bs.getD k 0 := by
  rw [Mail.at, toNat_recAt hn, Nat.add_comm]
  exact hm k hk

/-- Whether a record carries the check byte its other bytes make. -/
def sealed (bs : List Byte) : Bool :=
  ([3, 4, 5, 6, 7, 8, 9, 10, 11, 12].foldl (fun a k => a ^^^ bs.getD k 0) (bs.getD 2 0)) ^^^ irSeed
    == bs.getD 13 0

/-- What a record does to the console, by its own bytes: a valid INPUT is taken, a PEER_LEFT saturates
    the count of stalls, and nothing else does anything. -/
def absorb (bs : List Byte) (c : Console) : Console :=
  if bs.getD 1 0 = wtInput then
    if sealed bs then
      take (bs.getD 2 0) (bs.getD 3 0, bs.getD 5 0) (bs.getD 6 0, bs.getD 8 0)
        (bs.getD 9 0, bs.getD 11 0) (bs.getD 12 0) c
    else c
  else if bs.getD 1 0 = wtLeft then vocolft c
  else c

theorem Shows.voco2Check {m : Mail} {n : ℕ} {bs : List Byte} (hm : Shows m n bs) (hn : n < 16) :
    VO.voco2Check m (recAt (BitVec.ofNat 8 n)) = sealed bs := by
  simp (disch := decide) only [VO.voco2Check, sealed, List.foldl_cons, List.foldl_nil, hm.at hn]

/-- `VOCO1` looks at the sixteen bytes of the record at its index, and at no others. -/
theorem voco1_absorb {m : Mail} {n : ℕ} {bs : List Byte} (hn : n < 16) (hm : Shows m n bs)
    (c : Console) (hc : c.vordn = BitVec.ofNat 8 (n + 1)) :
    voco1 m c = absorb bs { c with vordn := BitVec.ofNat 8 n } := by
  have hv : c.vordn - 1 = BitVec.ofNat 8 n := by
    rw [hc, BitVec.ofNat_add]; exact BitVec.add_sub_cancel _ _
  have hring : voco2Ring m (recAt (BitVec.ofNat 8 n)) c.voring =
      (take (bs.getD 2 0) (bs.getD 3 0, bs.getD 5 0) (bs.getD 6 0, bs.getD 8 0)
        (bs.getD 9 0, bs.getD 11 0) (bs.getD 12 0) c).voring := by
    simp (disch := decide) only [voco2Ring, take, hm.at hn]
  simp (disch := decide) only [voco1, hv, hm.at hn, voco2, hm.voco2Check hn, voco8, voco2Crc, hring,
    absorb, take]
  split_ifs <;> simp_all

/-- The reader's check accepts what the writer computed. -/
theorem sealed_record (t : Byte) (a b d : Byte × Byte) (crc : Byte) :
    sealed (recordBytes t a b d crc) = true := by
  rw [sealed, beq_iff_eq]
  simp only [recordBytes, List.foldl_cons, List.foldl_nil, List.getD_cons_succ, List.getD_cons_zero,
    recordCheck, windowCheck]
  ac_rfl

theorem absorb_record (t : Byte) (a b d : Byte × Byte) (crc : Byte) (c : Console) :
    absorb (recordBytes t a b d crc) c = take t a b d crc c := by
  have hinput : (recordBytes t a b d crc).getD 1 0 = wtInput := rfl
  rw [absorb, if_pos hinput, if_pos (sealed_record t a b d crc)]
  rfl

/-- A written record is consumed as written: accepted by its check byte, its window at the three
    slots, its tick and checksum where the desync check and the watermark look. -/
theorem voco1_record {m : Mail} {n : ℕ} (hn : n < 16) {t : Byte} {a b d : Byte × Byte} {crc : Byte}
    (hm : Shows m n (recordBytes t a b d crc)) (c : Console) (hc : c.vordn = BitVec.ofNat 8 (n + 1)) :
    voco1 m c = take t a b d crc { c with vordn := BitVec.ofNat 8 n } := by
  rw [voco1_absorb hn hm c hc, absorb_record]

/-- Consuming a record writes its window into the ring. -/
theorem take_voring (cap : ℤ → Byte × Byte) (crc : Byte) (s : ℤ) (c : Console) :
    (take (BitVec.ofInt 8 s) (cap s) (cap (s - 1)) (cap (s - 2)) crc c).voring =
      remoteRing.putWindow cap s vowin c.voring := by
  have h1 : BitVec.ofInt 8 s - 1 = BitVec.ofInt 8 (s - 1) := (Serial.ofInt_sub s 1).symm
  have h2 : BitVec.ofInt 8 s - 2 = BitVec.ofInt 8 (s - 2) := (Serial.ofInt_sub s 2).symm
  simp only [take, h1, h2, Windows.Ring.putWindow, vowin, List.range_succ, List.range_zero,
    List.nil_append, List.foldl_cons, List.foldl_nil, List.cons_append,
    Nat.cast_zero, Nat.cast_one, Nat.cast_ofNat, sub_zero]
  rfl

/-! ### What a micro-step writes -/

/-- Outside CONSUME a micro-step writes the state, the transaction's cells and, when it fails, the
    error in the low nibble. -/
theorem vonstep_cells {c : Console} (hst : c.vonst ≠ .cons) (m : Mail) (r : Regs) :
    ∃ st seq err n w0 w1, (vonstep m c r).1 =
        { c with vonst := st, voseq := seq, voerr := err, vordn := n, vow0 := w0, vow1 := w1 } ∧
      (err = c.voerr ∨ err = (c.voerr &&& 0xF0#8) ||| fnebad) := by
  rw [vonstep]
  cases h : c.vonst with
  | idle => exact ⟨_, _, _, _, _, _, rfl, .inl rfl⟩
  | wiss =>
    rw [voswiss_eq]
    exact ⟨_, _, _, _, _, _, rfl, .inl rfl⟩
  | wack =>
    simp only [voswack]
    split_ifs
    · exact ⟨_, _, _, _, _, _, rfl, .inl rfl⟩
    · exact ⟨_, _, _, _, _, _, rfl, .inr rfl⟩
    · exact ⟨_, _, _, _, _, _, rfl, .inl rfl⟩
  | siss => exact ⟨_, _, _, _, _, _, rfl, .inl rfl⟩
  | sack =>
    simp only [vossack]
    split_ifs
    · exact ⟨_, _, _, _, _, _, rfl, .inr rfl⟩
    all_goals exact ⟨_, _, _, _, _, _, rfl, .inl rfl⟩
  | riss => exact ⟨_, _, _, _, _, _, rfl, .inl rfl⟩
  | rack =>
    simp only [vosrack]
    split_ifs
    · exact ⟨_, _, _, _, _, _, rfl, .inl rfl⟩
    · exact ⟨_, _, _, _, _, _, rfl, .inr rfl⟩
    · exact ⟨_, _, _, _, _, _, rfl, .inl rfl⟩
  | cons => exact absurd h hst
  | fail => exact ⟨_, _, _, _, _, _, rfl, .inr rfl⟩

theorem voco2_cells (m : Mail) (y : Byte) (c : Console) :
    ∃ ring wat ent, voco2 m y c = { c with voring := ring, vorwat := wat, voent := ent } ∧
      (ent = c.voent ∨ ent = c.voent ||| voeRsy) := by
  rw [voco2, voco8, voco2Crc]
  split_ifs
  all_goals first | exact ⟨_, _, _, rfl, .inl rfl⟩ | exact ⟨_, _, _, rfl, .inr rfl⟩

/-- Consuming a record moves the cursor; an INPUT record may write the ring, the watermark and the
    resync flag, a PEER_LEFT the count of stalls. -/
theorem voco1_cells (m : Mail) (c : Console) :
    ∃ ring wat ent err, voco1 m c =
        { c with vordn := c.vordn - 1, voring := ring, vorwat := wat, voent := ent, voerr := err } ∧
      (ent = c.voent ∨ ent = c.voent ||| voeRsy) ∧
      (err = c.voerr ∨ m.at (recAt (c.vordn - 1)) 1 = wtLeft ∧ err = 0xF0#8 ||| fnepeer) := by
  simp only [voco1]
  split_ifs with hinput hleft
  · obtain ⟨ring, wat, ent, heq, hent⟩ :=
      voco2_cells m (recAt (c.vordn - 1)) { c with vordn := c.vordn - 1 }
    exact ⟨ring, wat, ent, _, heq, hent, .inl rfl⟩
  · exact ⟨_, _, _, _, rfl, .inl rfl, .inr ⟨hleft, rfl⟩⟩
  · exact ⟨_, _, _, _, rfl, .inl rfl, .inl rfl⟩
end VO
