import VideoOlympics.Console.Record
import VideoOlympics.Relay.Books

/-! A record's way from one console to the other. Three codecs meet in it, the writer `VOSWISS`, the
    relay's framing with its offsets, and the reader `VOSCONS`, and they agree byte for byte,
    whatever the tick. -/

namespace VO.Relay

/-- What the relay sees of a record: its payload. -/
def outPayload (c : Console) : List Byte := (outRecord c).drop 2

theorem outPayload_length (c : Console) : (outPayload c).length = gamePayload := rfl

theorem outRecord_eq (c : Console) : outRecord c = 15 :: tInput :: outPayload c :=
  List.cons_eq_cons.mpr ⟨by decide, rfl⟩

theorem frame_outPayload (c : Console) : frame tInput (outPayload c) = outRecord c := by
  rw [outRecord_eq, frame, outPayload_length]
  rfl

theorem ljust_of_length {n : ℕ} {bs : List Byte} (h : bs.length = n) : ljust n bs = bs := by
  rw [ljust, h, Nat.sub_self, List.replicate_zero, List.append_nil]

/-- The record is one frame of the stream. -/
theorem headOf_outRecord (c : Console) (rest : List Byte) :
    Server.headOf (outRecord c ++ rest) = .whole tInput (outPayload c) rest := by
  have hlen : (tInput :: outPayload c).length = 15 := rfl
  have htake : ((tInput :: outPayload c) ++ rest).take 15 = tInput :: outPayload c := by
    rw [← hlen, List.take_left]
  have hdrop : ((tInput :: outPayload c) ++ rest).drop 15 = rest := by rw [← hlen, List.drop_left]
  have hn : BitVec.toNat (15 : Byte) = 15 := rfl
  rw [outRecord_eq, List.cons_append, Server.headOf, hn, if_neg (by omega), if_neg, htake, hdrop]
  rw [List.length_append, hlen]
  omega

/-- An INPUT frame in full length is forwarded as it came, and its checksum noted. -/
theorem handle_input {s : Server} {a b : ℕ} {payload : List Byte} (k : ℕ)
    (hp : (s.obj a).partner = some b) (hlen : payload.length = gamePayload) :
    s.handle k a tInput payload = .ok
      (((s.note (.handled a tInput payload)).send b (frame tInput payload)).logCrc a payload) := by
  have hcrc : irCrc < payload.length := hlen ▸ (by decide)
  have hfwd : (s.note (.handled a tInput payload)).forward a tInput payload =
      .ok ((s.note (.handled a tInput payload)).send b (frame tInput payload)) := by
    have hp' : ((s.note (.handled a tInput payload)).obj a).partner = some b := hp
    have hframe : frame? tInput payload = .ok (frame tInput payload) := by
      rw [frame?, if_pos (by rw [hlen]; decide)]
    rw [Server.forward, hp', ljust_of_length hlen]
    dsimp only
    rw [hframe]
    rfl
  rw [Server.handle, if_pos (by decide), hfwd]
  exact congrArg Except.ok (if_pos ⟨rfl, hcrc⟩)

theorem serviceLoop_empty {s : Server} {a k : ℕ} (turns : ℕ) (h : (s.obj a).rx = []) :
    s.serviceLoop k (turns + 1) a = .ok s := by
  rw [Server.serviceLoop, h]
  rfl

/-- The relay forwards the record as it came, and reads its tick and its checksum out of it. -/
theorem service_outRecord (c : Console) {s : Server} {a b : ℕ} (k : ℕ) (hrx : (s.obj a).rx = [])
    (hp : (s.obj a).partner = some b) : ∃ s₁ : Server,
      (s.hearing a (outRecord c)).service k a = .ok (s₁.pairCrc a (c.votick + vod) c.vocrcv) ∧
      s₁.room = (s.room.note (.handled a tInput (outPayload c))).queue b (outRecord c) := by
  have hheard : ((s.hearing a (outRecord c)).obj a).rx = outRecord c := by
    rw [Server.hearing, Server.taking_rx, hrx, List.nil_append]
  have hhead : Server.headOf ((s.hearing a (outRecord c)).obj a).rx =
      .whole tInput (outPayload c) [] := by
    rw [hheard, ← List.append_nil (outRecord c), headOf_outRecord]
  set s₀ := (s.hearing a (outRecord c)).taking a [] with hs₀
  have hroom₀ : s₀.room = s.room := by
    rw [hs₀, Server.hearing, Server.room_taking, Server.room_taking]
    simp only [Room.setRx, Function.update_idem, Room.update_same (f := s.room.rx) hrx]
  have hp₀ : (s₀.obj a).partner = some b := by
    rw [← Server.room_partner, hroom₀]
    exact hp
  refine ⟨(s₀.note (.handled a tInput (outPayload c))).send b (outRecord c), ?_, ?_⟩
  · rw [Server.service, hheard, Server.serviceLoop_whole hhead, ← hs₀,
      handle_input k hp₀ (outPayload_length c), frame_outPayload]
    refine serviceLoop_empty 15 ?_
    rw [← Server.room_rx, Server.logCrc, Server.room_pairCrc, Server.room_send, Server.room_note,
      hroom₀]
    exact hrx
  · rw [Server.room_send, Server.room_note, hroom₀]

/-! ### The reader -/

/-- Three ticks in a row have three slots. -/
theorem window_slots (t : Byte) : (t + 2) &&& vorm ≠ (t + 1) &&& vorm ∧
    (t + 2) &&& vorm ≠ t &&& vorm ∧ (t + 1) &&& vorm ≠ t &&& vorm := by
  revert t
  decide +kernel

/-- A ring cell outside a tick's slot is not written with it. -/
theorem ringPut_of_ne {ring : Byte → Byte} {mask t pad sw x : Byte} (h₁ : x ≠ slotOf mask t)
    (h₂ : x ≠ slotOf mask t + 1#8) : ringPut ring mask t pad sw x = ring x := by
  rw [ringPut, Function.update_of_ne h₂, Function.update_of_ne h₁]

/-- The peer takes the record as valid, and stores the three ticks where they belong. -/
theorem voscons_outRecord {m : Mail} {n : ℕ} (hn : n < 16) {c : Console}
    (hm : Shows m n (outRecord c)) {p : Console} (hp : p.vordn = BitVec.ofNat 8 (n + 1)) :
    (∀ t ∈ [c.votick + 2, c.votick + 1, c.votick],
      ringAt (voscons m p).voring vorm t = ringAt c.voloc volm t) ∧
    ∀ x, (∀ t ∈ [c.votick + 2, c.votick + 1, c.votick], x ≠ slotOf vorm t ∧ x ≠ slotOf vorm t + 1#8) →
      (voscons m p).voring x = p.voring x := by
  have hpos : p.vordn ≠ 0 := by
    rw [hp]
    intro h
    have := congrArg BitVec.toNat h
    rw [BitVec.toNat_ofNat] at this
    simp at this
    omega
  have h1 : c.votick + 2 - 1 = c.votick + 1 := by bv_omega
  have h2 : c.votick + 2 - 2 = c.votick := by bv_omega
  have htake := voco1_record hn hm p hp
  have hring : (voscons m p).voring = ringPut (ringPut (ringPut p.voring vorm (c.votick + 2)
      (ringAt c.voloc volm (c.votick + 2)).1 (ringAt c.voloc volm (c.votick + 2)).2) vorm
      (c.votick + 1) (ringAt c.voloc volm (c.votick + 1)).1 (ringAt c.voloc volm (c.votick + 1)).2)
      vorm c.votick (ringAt c.voloc volm c.votick).1 (ringAt c.voloc volm c.votick).2 := by
    rw [voscons, if_neg hpos, htake]
    simp only [take, h1, h2]
  obtain ⟨h20, h21, h10⟩ := window_slots c.votick
  have hmask : vorm.toNat < 128 := by decide
  constructor
  · intro t ht
    simp only [List.mem_cons, List.not_mem_nil, or_false] at ht
    rw [hring]
    rcases ht with rfl | rfl | rfl
    · rw [ringAt_ringPut hmask, if_neg h21, ringAt_ringPut hmask, if_neg h20, ringAt_ringPut hmask,
        if_pos rfl]
    · rw [ringAt_ringPut hmask, if_neg h10, ringAt_ringPut hmask, if_pos rfl]
    · rw [ringAt_ringPut hmask, if_pos rfl]
  · intro x hx
    have hx2 := hx _ (List.mem_cons_self ..)
    have hx1 := hx _ (List.mem_cons_of_mem _ (List.mem_cons_self ..))
    have hx0 := hx _ (List.mem_cons_of_mem _ (List.mem_cons_of_mem _ (List.mem_cons_self ..)))
    rw [hring, ringPut_of_ne hx0.1 hx0.2, ringPut_of_ne hx1.1 hx1.2, ringPut_of_ne hx2.1 hx2.2]

/-- A record from end to end, for every tick, every content of the local ring and every checksum:
    what `VOSWISS` streams is one frame, which the relay forwards unchanged, its padding adding
    nothing, and out of which it reads the tick the window ends at and the checksum; and the peer
    accepts it, stores the sender's three ticks at their slots and touches no other cell. -/
theorem record_round_trip (m : Mail) (c : Console) (r : Regs) :
    (voswiss m c r).2.tx = [2, irLen, 0] ++ outRecord c ∧ (outRecord c).length = gameFrame ∧
    (∀ rest, Server.headOf (outRecord c ++ rest) = .whole tInput (outPayload c) rest) ∧
    ljust gamePayload (outPayload c) = outPayload c ∧
    (∀ (k : ℕ) (s : Server) (a b : ℕ), (s.obj a).rx = [] → (s.obj a).partner = some b →
      ∃ s₁ : Server,
        (s.hearing a (outRecord c)).service k a = .ok (s₁.pairCrc a (c.votick + vod) c.vocrcv) ∧
        s₁.room = (s.room.note (.handled a tInput (outPayload c))).queue b (outRecord c)) ∧
    ∀ (m' : Mail) (n : ℕ) (p : Console) (r' : Regs), n < 16 → Shows m' n (outRecord c) →
      p.vonst = .cons → p.vordn = BitVec.ofNat 8 (n + 1) →
      voco2Check m' (recAt (BitVec.ofNat 8 n)) = true ∧
      (∀ t ∈ [c.votick + 2, c.votick + 1, c.votick],
        ringAt (vonstep m' p r').1.voring vorm t = ringAt c.voloc volm t) ∧
      ∀ x, (∀ t ∈ [c.votick + 2, c.votick + 1, c.votick],
          x ≠ slotOf vorm t ∧ x ≠ slotOf vorm t + 1#8) →
        (vonstep m' p r').1.voring x = p.voring x := by
  refine ⟨?_, rfl, headOf_outRecord c, ljust_of_length (outPayload_length c),
    fun k s a b hrx hp => service_outRecord c k hrx hp, ?_⟩
  · rw [voswiss_eq]
    rfl
  · intro m' n p r' hn hm hcons hp
    have hstep : (vonstep m' p r').1 = voscons m' p := by rw [vonstep, hcons]
    rw [hstep]
    exact ⟨(hm.voco2Check hn).trans (sealed_record ..), voscons_outRecord hn hm hp⟩

/-- A console on the last tick before the wrap. -/
def wrapping : Console :=
  { Console.cleared with votick := 0xFF, vocrcv := 0x5C, voloc := fun x => x + 0x40 }

/-- A reply window with one record in it, at an index. -/
def windowWith (n : ℕ) (bs : List Byte) : Mail :=
  { fnrply := fun i => bs.getD (i - 16 * n) 0, fnacks := 0, fnerr := 0, fnrxlo := 0 }

theorem record_round_trip_wrapping : (∃ s, relay.run listening threeConsoles = some s ∧
      ∃ s₁ : Server, (s.hearing 0 (outRecord wrapping)).service 0 0 = .ok (s₁.pairCrc 0 1 0x5C)) ∧
    ∀ t ∈ [(1 : Byte), 0, 0xFF],
      ringAt (vonstep (windowWith 2 (outRecord wrapping))
        { Console.cleared with vonst := .cons, vordn := 3 } ⟨0, 0, 0, [], 0⟩).1.voring vorm t =
          ringAt wrapping.voloc volm t := by
  obtain ⟨s, hrun, hrx, hp⟩ : ∃ s, relay.run listening threeConsoles = some s ∧
      (s.obj 0).rx = [] ∧ (s.obj 0).partner = some 1 := relay.exists_run (by decide +kernel)
  obtain ⟨-, -, -, -, hrelay, hpeer⟩ :=
    record_round_trip (windowWith 0 []) wrapping ⟨0, 0, 0, [], 0⟩
  obtain ⟨s₁, hservice, -⟩ := hrelay 0 s 0 1 hrx hp
  have hshows : Shows (windowWith 2 (outRecord wrapping)) 2 (outRecord wrapping) := by
    intro k _
    simp only [windowWith, Nat.add_sub_cancel_left]
  exact ⟨⟨s, hrun, s₁, hservice⟩,
    (hpeer _ 2 { Console.cleared with vonst := .cons, vordn := 3 } _ (by decide) hshows rfl rfl).2.1⟩

end VO.Relay
