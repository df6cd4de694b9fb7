import VideoOlympics.Lockstep.Bound
import VideoOlympics.Relay.RoundTrip
import VideoOlympics.System.World

/-! What holds at each desk, whatever the others do: the cartridge answers the transaction the bank
    waits for; a console writes nothing but its HELLO until it has read a START, and then nothing but
    records; and a READ in the boot bank brings the fifteen bytes that are at the head of what has been
    sent to it. -/

namespace VO

open Relay (Server relay wire tHello tInput gamePayload outPayload)

/-! ### What is written -/

/-- A WRITE is a WRITE of a record. -/
def Writes (r : Regs) : Prop := r.cmd = ncwrite → ∃ c, r.tx = [2, irLen, 0] ++ outRecord c

theorem Writes.vonstep {r : Regs} (h : Writes r) (m : Mail) (c : Console) :
    Writes (vonstep m c r).2 := by
  rw [VO.vonstep]
  cases c.vonst with
  | wiss =>
    rw [voswiss_eq]
    exact fun _ => ⟨c, rfl⟩
  | siss => exact fun hcmd => absurd (show ncstat = ncwrite from hcmd) (by decide)
  | riss => exact fun hcmd => absurd (show ncread = ncwrite from hcmd) (by decide)
  | _ => exact h

theorem answer_write_out {r : Regs} {c : Console} (htx : r.tx = [2, irLen, 0] ++ outRecord c) :
    (r.tx.drop 3).take r.word = outRecord c := by
  have hword : r.word = 16 := by rw [Regs.word, htx]; rfl
  have hdrop : r.tx.drop 3 = outRecord c := by rw [htx]; rfl
  rw [hword, hdrop]
  exact List.take_of_length_le (Nat.le_refl 16)

/-- What a cartridge puts on the wire is a record, or nothing. -/
theorem answer_out {r : Regs} (h : Writes r) (m : Mail) (inbox : List Byte) :
    ∃ ps : List (List Byte), (∀ p ∈ ps, p.length = gamePayload) ∧
      (answer r m inbox).2.2 = wire (ps.map fun p => (tInput, p)) := by
  rw [answer]
  by_cases hw : r.cmd = ncwrite
  · obtain ⟨c, htx⟩ := h hw
    refine ⟨[outPayload c], fun p hp => List.mem_singleton.mp hp ▸ Relay.outPayload_length c, ?_⟩
    rw [if_pos hw, answer_write_out htx, ← Relay.frame_outPayload]
    simp [wire]
  · refine ⟨[], List.forall_mem_nil _, ?_⟩
    rw [if_neg hw]
    split
    · rfl
    · split
      · rfl
      · rfl

/-- The HELLO of a console is one frame. -/
theorem says_frame (b : Build) (name : Appkey) :
    ∃ payload, payload.length ≤ 199 ∧ b.says name = Relay.frame tHello payload := by
  have hsaid := b.said_length name.text
  have hcounted : b.counted name.text = 0 ∨ b.counted name.text = (b.said name.text).length := by
    rw [Build.counted]
    split
    · exact .inl rfl
    · exact .inr rfl
  have hlen : ((b.said name.text).take (b.counted name.text)).length = b.counted name.text := by
    rw [List.length_take]
    omega
  have hhead : BitVec.ofNat 8 (b.counted name.text) + 3 =
      BitVec.ofNat 8 ((wproto :: b.votvstd ::
        (b.said name.text).take (b.counted name.text)).length + 1) := by
    rw [List.length_cons, List.length_cons, hlen, BitVec.ofNat_add, BitVec.ofNat_add, BitVec.ofNat_add,
      BitVec.add_assoc, BitVec.add_assoc]
    rfl
  refine ⟨wproto :: b.votvstd :: (b.said name.text).take (b.counted name.text), ?_, ?_⟩
  · simp only [List.length_cons, hlen]
    omega
  · rw [Relay.frame, ← hhead]
    rfl

/-! ### A desk -/

/-- Where the boot bank stands with its transaction. -/
def Desk.Waits (d : Desk) (b : Boot) : Prop :=
  match b.await with
  | .again => d.read = []
  | .stat => d.read = [] ∧ (d.mail.fnacks = b.regs.seq → d.mail.waiting ≤ d.inbox.length)
  | .read =>
    if d.mail.fnacks = b.regs.seq then
      d.read.length = 15 ∧ ∀ k < 15, d.mail.fnrply k = d.read.getD k 0
    else d.read = [] ∧ 15 ≤ d.inbox.length

/-- Where a console stands. -/
def Desk.Stands (d : Desk) : Prop :=
  match d.seat with
  | .boot b => d.wrote = [] ∧ b.Good ∧ d.Waits b
  | .game s => 15 ≤ d.read.length ∧ d.read.getD 5 0 = vod ∧ Writes s.regs
  | .alone _ => d.wrote = []

structure Desk.Fine (d : Desk) : Prop where
  hello : ∃ payload, payload.length ≤ 199 ∧ d.hello = Relay.frame tHello payload
  wrote : ∃ ps : List (List Byte), (∀ p ∈ ps, p.length = gamePayload) ∧
    d.wrote = wire (ps.map fun p => (tInput, p))
  stands : d.Stands

namespace Desk

variable {d d' : Desk}

theorem fine_new (b : Build) (name : Appkey) (m : Page) (r : Regs) : (Desk.new b name m r).Fine := by
  refine ⟨says_frame b name, ⟨[], List.forall_mem_nil _, rfl⟩, rfl, cswait_good m r, rfl, ?_⟩
  intro hans
  exact absurd hans.symm (nextSeq_ne m.fnacks)

/-- Only what has not been READ may differ, and there is no less of it. -/
theorem Fine.same (h : d.Fine) (hseat : d'.seat = d.seat) (hmail : d'.mail = d.mail)
    (hinbox : d.inbox.length ≤ d'.inbox.length) (hhello : d'.hello = d.hello)
    (hwrote : d'.wrote = d.wrote) (hread : d'.read = d.read) : d'.Fine := by
  refine ⟨hhello ▸ h.hello, hwrote ▸ h.wrote, ?_⟩
  have hst := h.stands
  rw [Stands] at hst ⊢
  rw [hseat]
  cases hs : d.seat with
  | boot b =>
    simp only [hs] at hst ⊢
    obtain ⟨hw, hgood, hwaits⟩ := hst
    refine ⟨hwrote.trans hw, hgood, ?_⟩
    rw [Waits] at hwaits ⊢
    rw [hmail, hread]
    cases hawait : b.await <;> simp only [hawait] at hwaits ⊢
    case again => exact hwaits
    case stat => exact ⟨hwaits.1, fun hans => Nat.le_trans (hwaits.2 hans) hinbox⟩
    case read =>
      split at hwaits
      · next hans => rw [if_pos hans]; exact hwaits
      · next hans => rw [if_neg hans]; exact ⟨hwaits.1, Nat.le_trans hwaits.2 hinbox⟩
  | game s =>
    simp only [hs] at hst ⊢
    exact hread ▸ hst
  | alone c =>
    simp only [hs] at hst ⊢
    exact hwrote.trans hst

theorem Fine.arrive (h : d.Fine) (n : ℕ) : (d.arrive n).Fine :=
  h.same rfl rfl (by simp [Desk.arrive]) rfl rfl rfl

/-- A frame of the boot bank ends in the boot bank, in local play, or in a match whose START has been
    READ. -/
theorem Fine.frame_cases (h : d.Fine) {hw : Hw} {c : Console} (hf : d.frame hw c = some d') :
    ∃ b, d.seat = .boot b ∧ d.wrote = [] ∧ (∃ seat, d' = { d with seat := seat } ∧
      ((∃ b', seat = .boot b' ∧ b'.Good ∧ d'.Waits b') ∨ (∃ c', seat = .alone c') ∨
        (d.read.length = 15 ∧ d.read.getD 1 0 = wtStart ∧ d.read.getD 5 0 = vod ∧
          d.mail.fnacks = b.regs.seq ∧ Writes b.regs ∧
          seat = .game (Solo.start (d.read.getD 2 0) hw c b.regs)))) := by
  rw [Desk.frame] at hf
  cases hs : d.seat with
  | game s => rw [hs] at hf; cases hf
  | alone c => rw [hs] at hf; cases hf
  | boot b =>
    rw [hs] at hf
    obtain rfl := Option.some.inj hf
    have hst := h.stands
    rw [Stands, hs] at hst
    obtain ⟨hwrote, hgood, hwaits⟩ := hst
    refine ⟨b, rfl, hwrote, _, rfl, ?_⟩
    rcases hgood.frame d.mail hw c with ⟨b', hb', hnext⟩ | ⟨a, ha⟩ | ⟨hread, hans, hstarts, hgame⟩
    · refine .inl ⟨b', hb', hgood.next hnext, ?_⟩
      rw [Waits] at hwaits
      cases hnext with
      | asks hawait =>
        rw [hawait] at hwaits
        exact ⟨hwaits, fun hans => absurd hans.symm (nextSeq_ne d.mail.fnacks)⟩
      | reads hawait hans hready =>
        rw [hawait] at hwaits
        refine (if_neg fun hans' => nextSeq_ne d.mail.fnacks hans'.symm).mpr ⟨hwaits.1, ?_⟩
        exact Nat.le_trans hready.2.2.2 (hwaits.2 hans)
      | empty hawait _ =>
        rw [hawait] at hwaits
        exact hwaits.1
      | waits _ hagain hno hawait hregs _ _ =>
        rw [Waits, hawait, hregs]
        exact hwaits
    · exact .inr (.inl ⟨_, ha⟩)
    · rw [Waits, hread] at hwaits
      simp only [if_pos hans] at hwaits
      obtain ⟨hlen, hshow⟩ := hwaits
      obtain ⟨-, -, htype, hdelay⟩ := hstarts
      refine .inr (.inr ⟨hlen, ?_, ?_, hans, ?_, ?_⟩)
      · rw [← hshow 1 (by decide), htype]
      · rw [← hshow 5 (by decide), hdelay]
      · intro hcmd
        rw [hgood.cmd, if_pos hread] at hcmd
        exact absurd hcmd (by decide)
      · rw [hgame, hshow 2 (by decide)]

theorem Fine.frame (h : d.Fine) {hw : Hw} {c : Console} (hf : d.frame hw c = some d') : d'.Fine := by
  obtain ⟨b, -, hwrote, seat, rfl, hcase⟩ := h.frame_cases hf
  refine ⟨h.hello, h.wrote, ?_⟩
  rcases hcase with ⟨b', rfl, hgood, hwaits⟩ | ⟨c', rfl⟩ | ⟨hlen, -, hdelay, -, hwrites, rfl⟩
  · exact ⟨hwrote, hgood, hwaits⟩
  · exact hwrote
  · exact ⟨hlen.ge, hdelay, hwrites⟩

/-- A frame of a match, or a micro-step. -/
theorem gate_cases {hw : Hw} {sim : Sim} (hf : d.gate hw sim = some d') :
    ∃ s, d.seat = .game s ∧ s.con.bank = .game ∧ d' = { d with seat := .game (s.gate hw sim) } := by
  rw [Desk.gate] at hf
  cases hs : d.seat with
  | game s =>
    rw [hs] at hf
    simp only [Option.ite_none_right_eq_some, Option.some.injEq] at hf
    exact ⟨s, rfl, hf.1, hf.2.symm⟩
  | boot b => rw [hs] at hf; cases hf
  | alone c => rw [hs] at hf; cases hf

theorem micro_cases (hf : d.micro = some d') : ∃ s, d.seat = .game s ∧ s.con.bank = .game ∧
    d' = { d with seat := .game (s.micro d.mail.toMail) } := by
  rw [Desk.micro] at hf
  cases hs : d.seat with
  | game s =>
    rw [hs] at hf
    simp only [Option.ite_none_right_eq_some, Option.some.injEq] at hf
    exact ⟨s, rfl, hf.1, hf.2.symm⟩
  | boot b => rw [hs] at hf; cases hf
  | alone c => rw [hs] at hf; cases hf

theorem Fine.game (h : d.Fine) {s s' : Solo} (hs : d.seat = .game s) (hregs : Writes s'.regs) :
    Fine { d with seat := .game s' } := by
  have hst := h.stands
  rw [Stands, hs] at hst
  exact ⟨h.hello, h.wrote, hst.1, hst.2.1, hregs⟩

theorem Fine.writes (h : d.Fine) {s : Solo} (hs : d.seat = .game s) : Writes s.regs := by
  have hst := h.stands
  rw [Stands, hs] at hst
  exact hst.2.2

theorem Fine.gate (h : d.Fine) {hw : Hw} {sim : Sim} (hf : d.gate hw sim = some d') : d'.Fine := by
  obtain ⟨s, hs, -, rfl⟩ := gate_cases hf
  have hwrites : Writes s.regs := h.writes hs
  exact h.game hs hwrites

theorem Fine.micro (h : d.Fine) (hf : d.micro = some d') : d'.Fine := by
  obtain ⟨s, hs, -, rfl⟩ := micro_cases hf
  exact h.game hs ((h.writes hs).vonstep _ _)

theorem answer_cases (ha : d.answer = some d') :
    ∃ r, d.seat.regs = some r ∧ r.seq ≠ d.mail.fnacks ∧ d' = d.answered r := by
  obtain ⟨r, hr, hd⟩ := Option.bind_eq_some_iff.mp ha
  simp only [Option.ite_none_left_eq_some, Option.some.injEq] at hd
  exact ⟨r, hr, hd.1, hd.2.symm⟩

theorem answered_eq (r : Regs) (d : Desk) : d.answered r = { d with
    mail := { (VO.answer r d.mail.toMail d.inbox).1 with fnrcmd := fnrack }
    inbox := (VO.answer r d.mail.toMail d.inbox).2.1
    up := d.up ++ (VO.answer r d.mail.toMail d.inbox).2.2
    wrote := d.wrote ++ (VO.answer r d.mail.toMail d.inbox).2.2
    read := d.read ++
      d.inbox.take (d.inbox.length - (VO.answer r d.mail.toMail d.inbox).2.1.length) } := rfl

/-- A STATUS changes nothing, and reports what has arrived. -/
theorem answer_stat {r : Regs} (hcmd : r.cmd = ncstat) (m : Mail) (inbox : List Byte) :
    (VO.answer r m inbox).2 = (inbox, []) ∧
      (VO.answer r m inbox).1.fnrply = fun k => (statusReply inbox.length).getD k 0 := by
  have hne : ncstat ≠ ncwrite := by decide
  simp only [VO.answer, hcmd, if_neg hne, if_true, and_self]

/-- A READ hands over what it asks for. -/
theorem answer_read {r : Regs} (hcmd : r.cmd = ncread) (m : Mail) (inbox : List Byte) :
    (VO.answer r m inbox).2 = (inbox.drop r.word, []) ∧
      (VO.answer r m inbox).1.fnrply = fun k => (inbox.take r.word).getD k 0 := by
  have hw : ncread ≠ ncwrite := by decide
  have hs : ncread ≠ ncstat := by decide
  simp only [VO.answer, hcmd, if_neg hw, if_neg hs, if_true, and_self]

theorem answer_acks (r : Regs) (m : Mail) (inbox : List Byte) :
    (VO.answer r m inbox).1.fnacks = r.seq := by
  rw [VO.answer]
  split
  · rfl
  · split
    · rfl
    · split
      · rfl
      · rfl

/-- Nothing is lost between the socket and what has been READ. -/
theorem answer_inbox (r : Regs) (m : Mail) (inbox : List Byte) :
    inbox.take (inbox.length - (VO.answer r m inbox).2.1.length) ++ (VO.answer r m inbox).2.1 =
      inbox := by
  have hnone : inbox.take (inbox.length - inbox.length) ++ inbox = inbox := by
    rw [Nat.sub_self]
    rfl
  rw [VO.answer]
  split
  · exact hnone
  · split
    · exact hnone
    · split
      · dsimp only
        rw [List.length_drop]
        by_cases hle : r.word ≤ inbox.length
        · rw [Nat.sub_sub_self hle, List.take_append_drop]
        · have hdrop : inbox.drop r.word = [] := List.drop_eq_nil_of_le (by omega)
          have htake : inbox.length ≤ inbox.length - (inbox.length - r.word) := by omega
          rw [hdrop, List.append_nil, List.take_of_length_le htake]
      · exact hnone

theorem Fine.answer (h : d.Fine) (ha : d.answer = some d') : d'.Fine := by
  obtain ⟨r, hr, hseq, rfl⟩ := answer_cases ha
  have hst := h.stands
  rw [Stands] at hst
  cases hs : d.seat with
  | alone c =>
    rw [hs] at hr
    cases hr
  | game s =>
    rw [hs] at hst hr
    obtain rfl := Option.some.inj hr
    obtain ⟨ps, hps, hwrote⟩ := h.wrote
    obtain ⟨hlen, hdelay, hwrites⟩ := hst
    obtain ⟨qs, hqs, hout⟩ := answer_out hwrites d.mail.toMail d.inbox
    refine ⟨h.hello, ⟨ps ++ qs, List.forall_mem_append.mpr ⟨hps, hqs⟩, ?_⟩, ?_⟩
    · simp only [Desk.answered, hwrote, hout, wire, List.map_append, List.flatMap_append]
    · simp only [Stands, Desk.answered, hs]
      refine ⟨?_, ?_, hwrites⟩
      · rw [List.length_append]
        omega
      · rw [List.getD_append _ _ _ _ (by omega)]
        exact hdelay
  | boot b =>
    rw [hs] at hst hr
    obtain rfl := Option.some.inj hr
    obtain ⟨hwrote, hgood, hwaits⟩ := hst
    have hquiet : ∀ {inbox : List Byte}, (VO.answer b.regs d.mail.toMail d.inbox).2 = (inbox, []) →
        Desk.Waits { d with
          mail := { (VO.answer b.regs d.mail.toMail d.inbox).1 with fnrcmd := fnrack }
          inbox := inbox, read := d.read ++ d.inbox.take (d.inbox.length - inbox.length) } b →
        (d.answered b.regs).Fine := by
      intro inbox heq hwaits
      rw [answered_eq, heq]
      refine ⟨h.hello, ?_, ?_⟩
      · simpa only [List.append_nil] using h.wrote
      · simp only [Stands, hs, List.append_nil]
        exact ⟨hwrote, hgood, hwaits⟩
    have hacks := answer_acks b.regs d.mail.toMail d.inbox
    rw [Waits] at hwaits
    have hcmd := hgood.cmd
    cases hawait : b.await with
    | again =>
      rw [hawait] at hwaits hcmd
      obtain ⟨heq, -⟩ := answer_stat hcmd d.mail.toMail d.inbox
      refine hquiet heq ?_
      rw [Waits, hawait, Nat.sub_self]
      exact hwaits.symm ▸ rfl
    | stat =>
      rw [hawait] at hwaits hcmd
      obtain ⟨heq, hrply⟩ := answer_stat hcmd d.mail.toMail d.inbox
      refine hquiet heq ?_
      rw [Waits, hawait, Nat.sub_self]
      refine ⟨hwaits.1.symm ▸ rfl, fun _ => ?_⟩
      rw [Page.waiting, hrply]
      exact statusReply_count d.inbox.length
    | read =>
      rw [hawait] at hwaits hcmd
      simp only [if_neg (Ne.symm hseq)] at hwaits
      obtain ⟨hread, hlen⟩ := hwaits
      have hword := hgood.word hawait
      obtain ⟨heq, hrply⟩ := answer_read hcmd d.mail.toMail d.inbox
      refine hquiet heq ?_
      have hsub : d.inbox.length - (d.inbox.drop b.regs.word).length = 15 := by
        rw [List.length_drop, hword]
        omega
      rw [Waits, hawait]
      refine (if_pos hacks).mpr ⟨?_, ?_⟩
      · rw [hsub, hread, List.nil_append, List.length_take]
        omega
      · intro k _
        rw [hrply, hsub, hword, hread, List.nil_append]

end Desk
end VO
