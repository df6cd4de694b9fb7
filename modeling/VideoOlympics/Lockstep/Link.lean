import VideoOlympics.Base.Side
import VideoOlympics.Console.Immutable

/-! Two consoles in a match. Each has its cartridge, which answers every transaction without error
    whenever it gets to it, and between them a link that delivers every byte written once, in order,
    after any delay. Frames, micro-steps, answers and deliveries interleave freely. -/

namespace VO

/-! ### The cartridge -/

/-- STATUS: what has arrived, as a 16-bit count, a connected link and no device error. -/
def statusReply (waiting : ℕ) : List Byte :=
  [BitVec.ofNat 8 (min waiting 0xFFFF), BitVec.ofNat 8 (min waiting 0xFFFF / 256), 1, 1]

/-- The cartridge answers: a WRITE's payload goes out on the wire, a STATUS reports, a READ hands
    over exactly the bytes asked for. -/
def answer (r : Regs) (m : Mail) (inbox : List Byte) : Mail × List Byte × List Byte :=
  let m := { m with fnacks := r.seq, fnerr := 0 }
  if r.cmd = ncwrite then (m, inbox, (r.tx.drop 3).take r.word)
  else if r.cmd = ncstat then
    ({ m with fnrply := fun k => (statusReply inbox.length).getD k 0 }, inbox, [])
  else if r.cmd = ncread then
    ({ m with fnrply := fun k => (inbox.take r.word).getD k 0
              fnrxlo := BitVec.ofNat 8 (inbox.take r.word).length }, inbox.drop r.word, [])
  else (m, inbox, [])

/-! ### One end of the link -/

/-- A console with its cartridge: the page painted for it, the bytes that have arrived, and the
    peer's bytes still on their way. The rest is the onlooker's: the unbounded watermark, how many
    of the peer's records have been taken by a READ, how many of those had been when the last batch
    was finished, and the stamps consumed, the latest first. -/
structure Station where
  solo : Solo
  mail : Mail
  inbox : List Byte
  wire : List Byte
  wat : ℤ
  got : ℕ
  base : ℕ
  eaten : List ℤ

/-- What this console has written. -/
def Station.sent (x : Station) : List Rec := x.solo.tape.sent

/-- The console's unbounded tick. -/
def Station.tick (x : Station) : ℤ := x.solo.tape.tick

/-- The record this console's next CONSUME step takes, out of what the peer wrote. -/
def Station.nextRec (theirs : List Rec) (x : Station) : Option Rec :=
  if x.solo.con.vonst = .cons ∧ x.solo.con.vordn ≠ 0
  then theirs[x.base + (x.solo.con.vordn.toNat - 1)]? else none

/-- A micro-step. The unbounded watermark follows `VORWAT`: it is the stamp of the record whose tick
    the cell was left showing. -/
def Station.micro (theirs : List Rec) (x : Station) : Station :=
  let post := x.solo.micro x.mail
  match x.nextRec theirs with
  | some r =>
    { x with solo := post, eaten := r.stamp :: x.eaten,
             wat := if post.con.vorwat = BitVec.ofInt 8 r.stamp then r.stamp else x.wat }
  | none => { x with solo := post, base := if x.solo.con.vonst = .cons then x.got else x.base }

def Station.answer (x : Station) : Station × List Byte :=
  let (m, inbox, out) := VO.answer x.solo.regs x.mail x.inbox
  ({ x with mail := m, inbox := inbox, got := x.got + (x.inbox.length - inbox.length) / 16 }, out)

/-- Up to `n` bytes arrive. -/
def Station.arrive (n : ℕ) (x : Station) : Station :=
  { x with inbox := x.inbox ++ x.wire.take n, wire := x.wire.drop n }

/-- The peer's cartridge has put bytes on the wire. -/
def Station.carry (bs : List Byte) (x : Station) : Station := { x with wire := x.wire ++ bs }

/-- A console at the handover, its cartridge idle. -/
def Station.fresh (s : Solo) (m : Mail) : Station :=
  { solo := s, mail := m, inbox := [], wire := [], wat := -2, got := 0, base := 0, eaten := [] }

/-! ### The match -/

abbrev Link := Side → Station

inductive LinkEv where
  | gate (i : Side) (hw : Hw) (sim : Sim)
  | micro (i : Side)
  | answer (i : Side)
  | arrive (i : Side) (n : ℕ)

/-- One event. A console acts while its game bank is mapped; a cartridge answers when a transaction
    is waiting for it. -/
def Link.step (s : Link) : LinkEv → Option Link
  | .gate i hw sim =>
    if (s i).solo.con.bank = .game
    then some (Function.update s i { s i with solo := (s i).solo.gate hw sim }) else none
  | .micro i =>
    if (s i).solo.con.bank = .game
    then some (Function.update s i ((s i).micro (s i.other).sent)) else none
  | .answer i =>
    if (s i).solo.regs.seq = (s i).mail.fnacks then none
    else some (Function.update (Function.update s i (s i).answer.1) i.other
      ((s i.other).carry (s i).answer.2))
  | .arrive i n => some (Function.update s i ((s i).arrive n))

/-- The role byte START gives each side: the host's is 0, the guest's 1. -/
def Side.role : Side → Byte
  | .host => 0
  | .guest => 1

/-- Two consoles at the handover, one of each role, their cartridges with nothing left to answer. -/
def Station.Start (i : Side) (x : Station) : Prop :=
  ∃ hw c r m, m.fnacks = r.seq ∧ x = Station.fresh (Solo.start i.role hw c r) m

def lockstep : Machine Link LinkEv where
  init s := ∀ i, (s i).Start i
  step := Link.step

/-! ### The four kinds of event -/

/-- What an event does, seen from either end. -/
theorem Link.step_cases {s t : Link} {e : LinkEv} (h : s.step e = some t) :
    (∃ i hw sim, e = .gate i hw sim ∧ (s i).solo.con.bank = .game ∧
      t i = { s i with solo := (s i).solo.gate hw sim } ∧ t i.other = s i.other) ∨
    (∃ i, e = .micro i ∧ (s i).solo.con.bank = .game ∧
      t i = (s i).micro (s i.other).sent ∧ t i.other = s i.other) ∨
    (∃ i, e = .answer i ∧ (s i).mail.fnacks ≠ (s i).solo.regs.seq ∧
      t i = (s i).answer.1 ∧ t i.other = (s i.other).carry (s i).answer.2) ∨
    (∃ i n, e = .arrive i n ∧ t i = (s i).arrive n ∧ t i.other = s i.other) := by
  cases e with
  | gate i hw sim =>
    simp only [Link.step, Option.ite_none_right_eq_some, Option.some.injEq] at h
    obtain ⟨hbank, rfl⟩ := h
    exact .inl ⟨i, hw, sim, rfl, hbank, by simp, by simp⟩
  | micro i =>
    simp only [Link.step, Option.ite_none_right_eq_some, Option.some.injEq] at h
    obtain ⟨hbank, rfl⟩ := h
    exact .inr (.inl ⟨i, rfl, hbank, by simp, by simp⟩)
  | answer i =>
    simp only [Link.step, Option.ite_none_left_eq_some, Option.some.injEq] at h
    obtain ⟨hseq, rfl⟩ := h
    refine .inr (.inr (.inl ⟨i, rfl, Ne.symm hseq, ?_, by simp⟩))
    rw [Function.update_of_ne (Side.other_ne i).symm, Function.update_self]
  | arrive i n =>
    simp only [Link.step, Option.some.injEq] at h
    obtain rfl := h
    exact .inr (.inr (.inr ⟨i, n, rfl, by simp, by simp⟩))

/-! ### Stretches of a run -/

/-- `n` frames of one side, its paddle held at `pad`. -/
def LinkEv.frames (i : Side) (pad : Byte) (n : ℕ) : List LinkEv :=
  List.replicate n (.gate i { Hw.rest with bb := pad } Console.cleared.sim)

/-- WRITE, answered and seen to be. -/
def LinkEv.write (i : Side) : List LinkEv := [.micro i, .answer i, .micro i]

/-- STATUS and READ, up to the first CONSUME step. -/
def LinkEv.read (i : Side) : List LinkEv :=
  [.micro i, .answer i, .micro i, .micro i, .answer i, .micro i]

/-- The handover of a match nobody has touched. -/
def Link.rest : Link := fun i =>
  Station.fresh (Solo.start i.role Hw.rest Console.cleared Regs.cleared) (painted 0 [] 0)

theorem init_rest : lockstep.init Link.rest :=
  fun _ => ⟨Hw.rest, Console.cleared, Regs.cleared, painted 0 [] 0, rfl, rfl⟩

/-- Each side writes its first record, reads the other's and runs tick 0. -/
def handshake : List LinkEv :=
  LinkEv.frames .host 0 1 ++ LinkEv.write .host ++ LinkEv.frames .guest 0 1 ++ LinkEv.write .guest ++
  [.arrive .host 16, .arrive .guest 10, .arrive .guest 6] ++
  LinkEv.read .host ++ [.micro .host, .micro .host] ++ LinkEv.frames .host 0 4 ++
  LinkEv.read .guest ++ [.micro .guest, .micro .guest] ++ LinkEv.frames .guest 0 4

/-- Each side writes a record and reads the other's. -/
def exchange : List LinkEv :=
  LinkEv.write .host ++ LinkEv.write .guest ++ [.arrive .host 16, .arrive .guest 16] ++
  LinkEv.read .host ++ [.micro .host, .micro .host] ++
  LinkEv.read .guest ++ [.micro .guest, .micro .guest]

/-- Both paddles are held, and the sides exchange records every third tick. -/
def threeExchanges : List LinkEv :=
  LinkEv.frames .host 0x50 1 ++ LinkEv.frames .guest 0x30 1 ++ exchange ++
  LinkEv.frames .host 0x50 13 ++ LinkEv.frames .guest 0x30 13 ++ exchange ++
  LinkEv.frames .host 0x50 13 ++ LinkEv.frames .guest 0x30 13 ++ exchange

/-- The host falls asleep after its first record. The guest reads it, holds its paddle for one tick,
    runs three, and writes again; the host wakes to both of the guest's records at once, consumes
    the newer one and runs on without another micro-step. -/
def backlog : List LinkEv :=
  LinkEv.frames .host 0 1 ++ LinkEv.write .host ++ [.arrive .guest 16] ++
  LinkEv.frames .guest 0x50 1 ++ LinkEv.write .guest ++ LinkEv.read .guest ++
  [.micro .guest, .micro .guest] ++ LinkEv.frames .guest 0 13 ++ LinkEv.write .guest ++
  [.arrive .host 32] ++ LinkEv.read .host ++ [.micro .host] ++ LinkEv.frames .host 0 17 ++
  [.micro .host, .micro .host, .micro .host]

/-- A property of an end and its peer holds at both ends once it holds seen from one of them and
    seen from the other. -/
theorem Link.both {P : Station → Station → Prop} {s : Link} (i : Side) (h : P (s i) (s i.other))
    (h' : P (s i.other) (s i)) : ∀ j : Side, P (s j) (s j.other) := by
  intro j
  rcases i.eq_or_other j with rfl | rfl
  · exact h
  · rw [Side.other_other]; exact h'

end VO
