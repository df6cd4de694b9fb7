import VideoOlympics.System.Wires
import Mathlib.Data.List.Infix

/-! Two desks, and the match they show. Once a console plays, it and its cartridge are one end of the
    match: what the other has written and it has not received is on that end's wire, wherever in the
    world it really is. Until then its end stands at the handover, whichever handover that will be, and
    everything is on its wire. Whatever a desk does, the match can do. -/

namespace VO

open Relay (tInput)

/-- The end of a match that a desk shows: the one its console plays, or one still at its handover
    `x`. -/
def Desk.Beside (x : Station) (theirs : List Byte) (d : Desk) (s : Station) : Prop :=
  match d.seat with
  | .game solo => s.solo = solo ∧ s.mail = d.mail.toMail ∧ s.inbox = d.inbox ∧
      s.wire = theirs.drop ((d.read ++ d.inbox).length - 15)
  | _ => s = x.carry theirs

/-- Whatever the handovers will be, there is a match that the two desks show. -/
def Plays (d : Side → Desk) : Prop :=
  ∀ x : Side → Station, (∀ i, (x i).Start i) →
    ∃ s, lockstep.Reachable s ∧ ∀ i, (d i).Beside (x i) (d i.other).wrote (s i)

/-- What has been sent to a desk is START, which gives it its role, and what the other has written. -/
def Streams (d : Side → Desk) : Prop :=
  ∀ i, ∃ start : List Byte, start.length = 15 ∧ start.getD 2 0 = i.role ∧
    (d i).read ++ (d i).inbox ++ (d i).down <+: start ++ (d i.other).wrote

/-- What is looked at of a desk. -/
structure Desk.Same (d d' : Desk) : Prop where
  seat : d'.seat = d.seat
  mail : d'.mail = d.mail
  inbox : d'.inbox = d.inbox
  wrote : d'.wrote = d.wrote
  read : d'.read = d.read

theorem lockstep_tail {s t : Link} {e : LinkEv} (h : lockstep.Reachable s)
    (hst : lockstep.step s e = some t) : lockstep.Reachable t := by
  obtain ⟨s₀, es, h₀, hrun⟩ := h
  exact ⟨s₀, es ++ [e], h₀, lockstep.run_concat_some.mpr ⟨s, hrun, hst⟩⟩

/-- What holds of a side and of the other holds of both. -/
theorem Side.both {P : Side → Prop} (i : Side) (h : P i) (h' : P i.other) : ∀ j, P j := by
  intro j
  rcases i.eq_or_other j with rfl | rfl
  · exact h
  · exact h'

section
variable {d : Side → Desk} {i : Side} {d' : Desk}

theorem Plays.same (h : Plays d) {e : Side → Desk} (hsame : ∀ i, (d i).Same (e i)) : Plays e := by
  intro x hx
  obtain ⟨s, hs, hb⟩ := h x hx
  refine ⟨s, hs, fun i => ?_⟩
  have hi := hb i
  rw [Desk.Beside] at hi ⊢
  rw [(hsame i).seat, (hsame i).mail, (hsame i).inbox, (hsame i).read, (hsame i.other).wrote]
  exact hi

/-- A desk has done something and written nothing, and the other end of the match is as it was. -/
theorem beside_update {x : Side → Station} {s t : Link}
    (hb : ∀ j, (d j).Beside (x j) (d j.other).wrote (s j)) (hwrote : d'.wrote = (d i).wrote)
    (ht : t i.other = s i.other) (hi : d'.Beside (x i) (d i.other).wrote (t i)) :
    ∀ j, (Function.update d i d' j).Beside (x j) (Function.update d i d' j.other).wrote (t j) := by
  have hne := Side.other_ne i
  refine Side.both i ?_ ?_
  · rw [Function.update_self, Function.update_of_ne hne]
    exact hi
  · rw [Side.other_other, Function.update_self, Function.update_of_ne hne, hwrote, ht]
    have hother := hb i.other
    rwa [Side.other_other] at hother

theorem Streams.length (h : Streams d) (i : Side) :
    ((d i).read ++ (d i).inbox ++ (d i).down).length ≤ 15 + (d i.other).wrote.length := by
  obtain ⟨start, hlen, -, hpre⟩ := h i
  have hle := hpre.length_le
  rwa [@List.length_append _ start, hlen] at hle

/-- What is on its way to a console that has READ its START is what its end of the match finds on the
    wire. -/
theorem Streams.down (h : Streams d) (i : Side) (hread : 15 ≤ (d i).read.length) :
    (d i).down <+: (d i.other).wrote.drop (((d i).read ++ (d i).inbox).length - 15) := by
  obtain ⟨start, hlen, -, hpre⟩ := h i
  have hcut : ((d i).read ++ (d i).inbox).length =
      start.length + (((d i).read ++ (d i).inbox).length - 15) := by
    rw [List.length_append, hlen]
    omega
  have hdrop := hpre.drop ((d i).read ++ (d i).inbox).length
  rw [List.drop_left, hcut, ← List.drop_drop, List.drop_left] at hdrop
  exact hdrop

theorem beside_offstage {x s : Station} {theirs : List Byte} {d : Desk}
    (h : ∀ solo, d.seat ≠ .game solo) : d.Beside x theirs s ↔ s = x.carry theirs := by
  rw [Desk.Beside]
  split
  · next solo hseat => exact absurd hseat (h solo)
  · exact Iff.rfl

theorem beside_game {x s : Station} {theirs : List Byte} {d : Desk} {solo : Solo}
    (h : d.seat = .game solo) : d.Beside x theirs s ↔ s.solo = solo ∧ s.mail = d.mail.toMail ∧
      s.inbox = d.inbox ∧ s.wire = theirs.drop ((d.read ++ d.inbox).length - 15) := by
  rw [Desk.Beside, h]

/-- Nothing is seen of a desk whose console does not play. -/
theorem Plays.offstage (h : Plays d) (hseat : ∀ solo, (d i).seat ≠ .game solo)
    (hseat' : ∀ solo, d'.seat ≠ .game solo) (hwrote : d'.wrote = (d i).wrote) :
    Plays (Function.update d i d') := by
  intro x hx
  obtain ⟨s, hreach, hb⟩ := h x hx
  have hi := (beside_offstage hseat).mp (hb i)
  exact ⟨s, hreach, beside_update hb hwrote rfl ((beside_offstage hseat').mpr hi)⟩

theorem Plays.arrive (h : Plays d) (hs : Streams d) (hf : ∀ i, (d i).Fine) (i : Side) (n : ℕ) :
    Plays (Function.update d i ((d i).arrive n)) := by
  by_cases hseat : ∀ solo, (d i).seat ≠ .game solo
  · exact h.offstage hseat hseat rfl
  obtain ⟨solo, hseat⟩ := not_forall_not.mp hseat
  intro x hx
  obtain ⟨s, hreach, hb⟩ := h x hx
  obtain ⟨hsolo, hmail, hinbox, hwire⟩ := (beside_game hseat).mp (hb i)
  have hread := ((hf i).read hseat).1
  obtain ⟨rest, hrest⟩ := hs.down i hread
  rw [← List.take_append_drop n (d i).down, List.append_assoc] at hrest
  refine ⟨Function.update s i ((s i).arrive ((d i).down.take n).length),
    lockstep_tail (e := .arrive i ((d i).down.take n).length) hreach rfl, beside_update hb rfl ?_ ?_⟩
  · rw [Function.update_of_ne (Side.other_ne i)]
  · have hcut : ((d i).read ++ ((d i).inbox ++ (d i).down.take n)).length - 15 =
        ((d i).read ++ (d i).inbox).length - 15 + ((d i).down.take n).length := by
      simp only [List.length_append]
      omega
    rw [Function.update_self, Desk.Beside]
    simp only [Desk.arrive, hseat, Station.arrive, hsolo, hmail, hinbox, true_and]
    rw [hwire, hcut, ← List.drop_drop, ← hrest, List.take_left, List.drop_left]
    exact ⟨rfl, rfl⟩

theorem Plays.gate (h : Plays d) {hw : Hw} {sim : Sim} (hg : (d i).gate hw sim = some d') :
    Plays (Function.update d i d') := by
  obtain ⟨solo, hseat, hbank, rfl⟩ := Desk.gate_cases hg
  intro x hx
  obtain ⟨s, hreach, hb⟩ := h x hx
  obtain ⟨rfl, hrest⟩ := (beside_game hseat).mp (hb i)
  refine ⟨Function.update s i { s i with solo := (s i).solo.gate hw sim },
    lockstep_tail (e := .gate i hw sim) hreach (if_pos hbank), beside_update hb rfl ?_ ?_⟩
  · rw [Function.update_of_ne (Side.other_ne i)]
  · rw [Function.update_self]
    exact ⟨rfl, hrest⟩

theorem Plays.micro (h : Plays d) (hm : (d i).micro = some d') : Plays (Function.update d i d') := by
  obtain ⟨solo, hseat, hbank, rfl⟩ := Desk.micro_cases hm
  intro x hx
  obtain ⟨s, hreach, hb⟩ := h x hx
  obtain ⟨rfl, hmail, hrest⟩ := (beside_game hseat).mp (hb i)
  refine ⟨Function.update s i ((s i).micro (s i.other).sent),
    lockstep_tail (e := .micro i) hreach (if_pos hbank), beside_update hb rfl ?_ ?_⟩
  · rw [Function.update_of_ne (Side.other_ne i)]
  · rw [Function.update_self, ← hmail]
    obtain ⟨hsolo, hmail', hinbox, hwire, -⟩ := micro_fixed (s i) (s i.other).sent
    exact ⟨hsolo, hmail'.trans hmail, hinbox.trans hrest.1, hwire.trans hrest.2⟩

theorem carry_carry (x : Station) (as bs : List Byte) :
    (x.carry as).carry bs = x.carry (as ++ bs) := by
  rw [Station.carry, Station.carry, Station.carry, List.append_assoc]

theorem station_answer (x : Station) : x.answer = ({ x with
    mail := (VO.answer x.solo.regs x.mail x.inbox).1
    inbox := (VO.answer x.solo.regs x.mail x.inbox).2.1
    got := x.got + (x.inbox.length - (VO.answer x.solo.regs x.mail x.inbox).2.1.length) / 16 },
    (VO.answer x.solo.regs x.mail x.inbox).2.2) := rfl

/-- A console's cartridge answers: in the match, or before it. -/
theorem Plays.answer (h : Plays d) (hs : Streams d) (hf : ∀ i, (d i).Fine)
    (ha : (d i).answer = some d') : Plays (Function.update d i d') := by
  have hfine' := (hf i).answer ha
  obtain ⟨r, hr, hseq, rfl⟩ := Desk.answer_cases ha
  by_cases hseat : ∀ solo, (d i).seat ≠ .game solo
  · -- The boot bank has nothing to write.
    exact h.offstage hseat hseat ((hfine'.quiet hseat).trans ((hf i).quiet hseat).symm)
  obtain ⟨solo, hseat⟩ := not_forall_not.mp hseat
  intro x hx
  obtain ⟨s, hreach, hb⟩ := h x hx
  obtain ⟨hsolo, hmail, hinbox, hwire⟩ := (beside_game hseat).mp (hb i)
  obtain rfl : solo.regs = r := by
    rw [hseat] at hr
    exact Option.some.inj hr
  have hne := Side.other_ne i
  refine ⟨_, lockstep_tail (e := .answer i) hreach (if_neg (hsolo ▸ hmail ▸ hseq)), ?_⟩
  refine Side.both i ?_ ?_
  · rw [Function.update_of_ne hne, Function.update_of_ne hne.symm, Function.update_self,
      Function.update_self, Desk.answered_eq, station_answer, Desk.Beside, hsolo, hmail, hinbox]
    simp only [hseat, List.length_append, true_and]
    have hkept := congrArg List.length
      (Desk.answer_inbox solo.regs (d i).mail.toMail (d i).inbox)
    rw [List.length_append] at hkept
    rw [hwire, List.length_append, Nat.add_assoc, hkept]
  · rw [Side.other_other, Function.update_of_ne hne, Function.update_self, Function.update_self,
      Desk.answered_eq, station_answer, hsolo, hmail, hinbox]
    have hother := hb i.other
    rw [Side.other_other] at hother
    by_cases hseat' : ∀ solo, (d i.other).seat ≠ .game solo
    · rw [beside_offstage hseat'] at hother ⊢
      rw [hother, carry_carry]
    · obtain ⟨solo', hseat'⟩ := not_forall_not.mp hseat'
      rw [beside_game hseat'] at hother ⊢
      obtain ⟨hsolo', hmail', hinbox', hwire'⟩ := hother
      have hlen := hs.length i.other
      rw [Side.other_other, List.length_append] at hlen
      refine ⟨hsolo', hmail', hinbox', ?_⟩
      rw [Station.carry, hwire', List.drop_append_of_le_length (by omega)]

/-- A console comes into the match: its end has received what its cartridge has. -/
theorem Plays.frame (h : Plays d) (hs : Streams d) (hf : ∀ i, (d i).Fine) {hw : Hw} {c : Console}
    (ha : (d i).frame hw c = some d') : Plays (Function.update d i d') := by
  obtain ⟨b, hseat, hwrote, seat, rfl, hcase⟩ := (hf i).frame_cases ha
  have hboot : ∀ solo, (d i).seat ≠ .game solo := fun solo hgame => by
    rw [hseat] at hgame
    cases hgame
  rcases hcase with ⟨b', rfl, -⟩ | ⟨c', rfl⟩ | ⟨hread, -, -, hans, -, rfl⟩
  · exact h.offstage hboot (fun solo hgame => Seat.noConfusion hgame) rfl
  · exact h.offstage hboot (fun solo hgame => Seat.noConfusion hgame) rfl
  obtain ⟨start, hlen, hrole, hpre⟩ := hs i
  -- What it has READ is START, and what waits in its cartridge is where the other's stream begins.
  obtain ⟨rest, hrest⟩ := hpre
  rw [List.append_assoc, List.append_assoc] at hrest
  obtain ⟨rfl, hstream⟩ := List.append_inj hrest (hread.trans hlen.symm)
  have hne := Side.other_ne i
  intro x hx
  obtain ⟨s, hreach, hb⟩ := h
    (Function.update x i (Station.fresh (Solo.start i.role hw c b.regs) (d i).mail.toMail)) <| by
      refine Side.both i ?_ ?_
      · rw [Function.update_self]
        exact ⟨hw, c, b.regs, (d i).mail.toMail, hans, rfl⟩
      · rw [Function.update_of_ne hne]
        exact hx i.other
  have hi := (beside_offstage hboot).mp (hb i)
  rw [Function.update_self] at hi
  refine ⟨Function.update s i ((s i).arrive (d i).inbox.length),
    lockstep_tail (e := .arrive i (d i).inbox.length) hreach rfl, ?_⟩
  refine Side.both i ?_ ?_
  · rw [Function.update_self, Function.update_self, Function.update_of_ne hne, hi, ← hstream, hrole,
      Desk.Beside]
    have hcut : ((d i).read ++ (d i).inbox).length - 15 = (d i).inbox.length := by
      rw [List.length_append, hread, Nat.add_sub_cancel_left]
    simp only [Station.arrive, Station.carry, Station.fresh, List.nil_append, hcut, List.take_left,
      and_self]
  · have hother := hb i.other
    rw [Side.other_other, Function.update_of_ne hne] at hother
    rw [Side.other_other, Function.update_of_ne hne, Function.update_of_ne hne, Function.update_self]
    exact hother

end
end VO
