import VideoOlympics.Base.Machine
import VideoOlympics.Console.Solo

/-! The end of the session: the boot bank waits for START, and hands over. It asks STATUS until fifteen
    bytes are waiting and then READs exactly fifteen. Each transaction is waited for from frame to
    frame, and only so long; whatever goes wrong, the console plays alone. -/

namespace VO

def startlen : Byte := 15
def wtStart : Byte := 0x05
/-- The server's ACK. -/
def fnrack : Byte := 0x06
def fnewait : Byte := 0xFF
def fnenak : Byte := 0xEE
/-- Frames per `FNTMO` quantum. -/
def csquant : Byte := 34
/-- The quanta `FNBEG` allows a transaction. -/
def fntmo : Byte := 16

/-- What the boot bank finds painted: the page, and whether the server said ACK. -/
structure Page extends Mail where
  fnrcmd : Byte

/-- What the boot bank waits for: `CSWAIT`'s STATUS, `CSREAD`'s READ, or only a frame to pass before it
    asks again. -/
inductive Await where
  | stat | read | again
  deriving DecidableEq, Repr

/-- The boot bank between two frames, with the quanta and the frames it will still wait. -/
structure Boot where
  await : Await
  regs : Regs
  fncnt : Byte
  csdly : Byte

/-- Launch a transaction: the next sequence number is the cartridge's own ACKSEQ + 1, and never 0. -/
def csgo (m : Page) (await : Await) (r : Regs) : Boot :=
  { await := await
    regs := { r with seq := if m.fnacks + 1 = 0 then 1 else m.fnacks + 1 }
    fncnt := fntmo, csdly := csquant }

/-- STATUS, of four one-byte appends. -/
def cswait (m : Page) (r : Regs) : Boot :=
  csgo m .stat ((r.begin ncstat 2).fntx [1, 1, 1, 0, 1, 1, 1, 0])

def csread (m : Page) (r : Regs) : Boot := csgo m .read ((r.begin ncread 1).fntx [2, startlen, 0])

/-- What a console that has been switched on has come to. -/
inductive Seat where
  | boot (b : Boot)
  | game (s : Solo)
  | alone (c : Console)

/-- Anything went wrong: the game as it was in 1977, and in `VOERR` why. -/
def cslocal (a : Byte) (hw : Hw) (c : Console) : Console :=
  { vosclr hw { c with voerr := a, voent := 0 } with bank := .game }

/-- `FNACK`. -/
def fnack (m : Page) : Byte := if m.fnrcmd = fnrack then 0 else fnenak

/-- The STATUS is answered: read, or ask again. -/
def cswaited (m : Page) (hw : Hw) (c : Console) (r : Regs) : Seat :=
  if m.fnerr ≠ 0 then .alone (cslocal m.fnerr hw c)
  else if fnack m ≠ 0 then .alone (cslocal (fnack m) hw c)
  else if m.fnrply 3 ≠ 1 then .alone (cslocal (m.fnrply 3) hw c)
  else if m.fnrply 1 ≠ 0 then .boot (csread m r)
  else if startlen ≤ m.fnrply 0 then .boot (csread m r)
  else .boot { await := .again, regs := r, fncnt := fntmo, csdly := csquant }

/-- The READ is answered: what it brought must be a START, and its delay the one the local ring was
    built for. -/
def csstart (m : Page) (hw : Hw) (c : Console) (r : Regs) : Seat :=
  if m.fnerr ≠ 0 then .alone (cslocal m.fnerr hw c)
  else if fnack m ≠ 0 then .alone (cslocal (fnack m) hw c)
  else if m.fnrply 1 ≠ wtStart then .alone (cslocal (m.fnrply 1) hw c)
  else if m.fnrply 5 ≠ vod then .alone (cslocal (m.fnrply 5) hw c)
  else .game (Solo.start (m.fnrply 2) hw c r)

/-- Not answered in this frame. -/
def Boot.wait (hw : Hw) (c : Console) (b : Boot) : Seat :=
  if b.csdly - 1 ≠ 0 then .boot { b with csdly := b.csdly - 1 }
  else if b.fncnt - 1 ≠ 0 then .boot { b with csdly := csquant, fncnt := b.fncnt - 1 }
  else .alone (cslocal fnewait hw c)

/-- One frame, and what is done before the next. The session's own cells lie over the rings, so `c` is
    whatever the zero page holds. -/
def Boot.frame (m : Page) (hw : Hw) (c : Console) (b : Boot) : Seat :=
  match b.await with
  | .again => .boot (cswait m b.regs)
  | .stat => if m.fnacks = b.regs.seq then cswaited m hw c b.regs else b.wait hw c
  | .read => if m.fnacks = b.regs.seq then csstart m hw c b.regs else b.wait hw c

/-- One frame of the boot bank, with what it finds painted, the switches and its zero page. -/
structure Tv where
  page : Page
  hw : Hw
  con : Console

def Seat.step : Seat → Tv → Option Seat
  | .boot b, e => some (b.frame e.page e.hw e.con)
  | _, _ => none

/-- The boot bank from the moment it has said HELLO. -/
def booting : Machine Seat Tv where
  init s := ∃ m r, s = .boot (cswait m r)
  step := Seat.step

/-! ### What one frame can do -/

/-- The bytes a STATUS reports. -/
def Page.waiting (m : Page) : ℕ := (m.fnrply 0).toNat + 256 * (m.fnrply 1).toNat

/-- A STATUS that lets the console read. -/
def Page.Ready (m : Page) : Prop :=
  m.fnerr = 0 ∧ m.fnrcmd = fnrack ∧ m.fnrply 3 = 1 ∧ 15 ≤ m.waiting

/-- A READ that lets it play. -/
def Page.Starts (m : Page) : Prop :=
  m.fnerr = 0 ∧ m.fnrcmd = fnrack ∧ m.fnrply 1 = wtStart ∧ m.fnrply 5 = vod

instance (m : Page) : Decidable m.Ready := inferInstanceAs (Decidable (_ ∧ _ ∧ _ ∧ _))
instance (m : Page) : Decidable m.Starts := inferInstanceAs (Decidable (_ ∧ _ ∧ _ ∧ _))

/-- The frames a wait has left. -/
def Boot.left (b : Boot) : ℕ := 34 * (b.fncnt.toNat - 1) + b.csdly.toNat

/-- The transaction is the one waited for, and the counters count. -/
structure Boot.Good (b : Boot) : Prop where
  cmd : b.regs.cmd = if b.await = .read then ncread else ncstat
  word : b.await = .read → b.regs.word = 15
  fncnt : 1 ≤ b.fncnt.toNat ∧ b.fncnt.toNat ≤ 16
  csdly : 1 ≤ b.csdly.toNat ∧ b.csdly.toNat ≤ 34

/-- What comes of a frame that leaves the console in the boot bank. -/
inductive Boot.Next (m : Page) (b : Boot) : Boot → Prop
  | asks : b.await = .again → Next m b (cswait m b.regs)
  | reads : b.await = .stat → m.fnacks = b.regs.seq → m.Ready → Next m b (csread m b.regs)
  | empty : b.await = .stat → m.fnacks = b.regs.seq →
      Next m b { await := .again, regs := b.regs, fncnt := fntmo, csdly := csquant }
  | waits (b' : Boot) : b.await ≠ .again → m.fnacks ≠ b.regs.seq → b'.await = b.await →
      b'.regs = b.regs → b'.left + 1 = b.left → b'.Good → Next m b b'

theorem counters_full : (1 ≤ fntmo.toNat ∧ fntmo.toNat ≤ 16) ∧
    (1 ≤ csquant.toNat ∧ csquant.toNat ≤ 34) := by decide

theorem cswait_good (m : Page) (r : Regs) : (cswait m r).Good :=
  ⟨rfl, fun h => Await.noConfusion h, counters_full.1, counters_full.2⟩

theorem csread_good (m : Page) (r : Regs) : (csread m r).Good :=
  ⟨rfl, fun _ => rfl, counters_full.1, counters_full.2⟩

theorem Boot.Good.next {m : Page} {b b' : Boot} (h : b.Good) (hn : b.Next m b') : b'.Good := by
  cases hn with
  | asks _ => exact cswait_good m b.regs
  | reads _ _ _ => exact csread_good m b.regs
  | empty hstat _ =>
    refine ⟨?_, fun h => Await.noConfusion h, counters_full.1, counters_full.2⟩
    rw [h.cmd, hstat]
    rfl
  | waits _ _ _ _ _ _ hgood => exact hgood

theorem fnack_eq (m : Page) : fnack m = 0 ↔ m.fnrcmd = fnrack := by
  rw [fnack]
  split
  · next h => exact iff_of_true rfl h
  · next h => exact iff_of_false (by decide) h

theorem toNat_pred {b : Byte} (h : 1 ≤ b.toNat) : (b - 1).toNat = b.toNat - 1 := by
  have hlt := b.isLt
  have hone : (1 : Byte).toNat = 1 := rfl
  rw [BitVec.toNat_sub, hone]
  omega

theorem pred_eq_zero {b : Byte} (h : 1 ≤ b.toNat) : b - 1 = 0 ↔ b.toNat = 1 := by
  rw [← BitVec.toNat_inj, toNat_pred h]
  have hzero : (0 : Byte).toNat = 0 := rfl
  omega

/-- A frame without the answer: one less to wait, or none left. -/
theorem Boot.Good.wait {b : Boot} (h : b.Good) (hw : Hw) (c : Console) :
    (∃ b', b.wait hw c = .boot b' ∧ b'.await = b.await ∧ b'.regs = b.regs ∧ b'.left + 1 = b.left ∧
      b'.Good) ∨ (b.wait hw c = .alone (cslocal fnewait hw c) ∧ b.left = 1) := by
  obtain ⟨hcnt, hcnt'⟩ := h.fncnt
  obtain ⟨hdly, hdly'⟩ := h.csdly
  have hquant : csquant.toNat = 34 := rfl
  rw [Boot.wait]
  by_cases hframe : b.csdly - 1 = 0
  · have hone := (pred_eq_zero hdly).mp hframe
    rw [if_neg (not_not_intro hframe)]
    by_cases hquanta : b.fncnt - 1 = 0
    · rw [if_neg (not_not_intro hquanta)]
      have hlast := (pred_eq_zero hcnt).mp hquanta
      exact .inr ⟨rfl, by rw [Boot.left]; omega⟩
    · rw [if_pos hquanta]
      have hmore := mt (pred_eq_zero hcnt).mpr hquanta
      refine .inl ⟨_, rfl, rfl, rfl, ?_, h.cmd, h.word, ?_, counters_full.2⟩
      · simp only [Boot.left, toNat_pred hcnt, hquant]
        omega
      · simp only [toNat_pred hcnt]
        omega
  · rw [if_pos hframe]
    have hmore := mt (pred_eq_zero hdly).mpr hframe
    refine .inl ⟨_, rfl, rfl, rfl, ?_, h.cmd, h.word, h.fncnt, ?_⟩
    · simp only [Boot.left, toNat_pred hdly]
      omega
    · simp only [toNat_pred hdly]
      omega

theorem waiting_of_high {m : Page} (h : m.fnrply 1 ≠ 0) : 15 ≤ m.waiting := by
  have hpos : (m.fnrply 1).toNat ≠ 0 := fun h0 => h (BitVec.eq_of_toNat_eq h0)
  rw [Page.waiting]
  omega

theorem waiting_of_low {m : Page} (h : startlen ≤ m.fnrply 0) : 15 ≤ m.waiting := by
  have hlow : 15 ≤ (m.fnrply 0).toNat := h
  rw [Page.waiting]
  omega

/-- The STATUS is answered. -/
theorem cswaited_cases (m : Page) (hw : Hw) (c : Console) (r : Regs) :
    (∃ a, cswaited m hw c r = .alone (cslocal a hw c)) ∨
    (m.Ready ∧ cswaited m hw c r = .boot (csread m r)) ∨
    cswaited m hw c r = .boot { await := .again, regs := r, fncnt := fntmo, csdly := csquant } := by
  rw [cswaited]
  by_cases herr : m.fnerr ≠ 0
  · exact .inl ⟨_, if_pos herr⟩
  rw [if_neg herr]
  by_cases hnak : fnack m ≠ 0
  · exact .inl ⟨_, if_pos hnak⟩
  rw [if_neg hnak]
  by_cases hdev : m.fnrply 3 ≠ 1
  · exact .inl ⟨_, if_pos hdev⟩
  rw [if_neg hdev]
  have hack := (fnack_eq m).mp (not_not.mp hnak)
  have hready : 15 ≤ m.waiting → m.Ready :=
    fun h => ⟨not_not.mp herr, hack, not_not.mp hdev, h⟩
  by_cases hhigh : m.fnrply 1 ≠ 0
  · exact .inr (.inl ⟨hready (waiting_of_high hhigh), if_pos hhigh⟩)
  rw [if_neg hhigh]
  by_cases hlow : startlen ≤ m.fnrply 0
  · exact .inr (.inl ⟨hready (waiting_of_low hlow), if_pos hlow⟩)
  · exact .inr (.inr (if_neg hlow))

/-- The READ is answered. -/
theorem csstart_cases (m : Page) (hw : Hw) (c : Console) (r : Regs) :
    (∃ a, csstart m hw c r = .alone (cslocal a hw c)) ∨
    (m.Starts ∧ csstart m hw c r = .game (Solo.start (m.fnrply 2) hw c r)) := by
  rw [csstart]
  by_cases herr : m.fnerr ≠ 0
  · exact .inl ⟨_, if_pos herr⟩
  rw [if_neg herr]
  by_cases hnak : fnack m ≠ 0
  · exact .inl ⟨_, if_pos hnak⟩
  rw [if_neg hnak]
  by_cases htype : m.fnrply 1 ≠ wtStart
  · exact .inl ⟨_, if_pos htype⟩
  rw [if_neg htype]
  by_cases hdelay : m.fnrply 5 ≠ vod
  · exact .inl ⟨_, if_pos hdelay⟩
  · exact .inr ⟨⟨not_not.mp herr, (fnack_eq m).mp (not_not.mp hnak), not_not.mp htype,
      not_not.mp hdelay⟩, if_neg hdelay⟩

theorem csstart_starts {m : Page} (h : m.Starts) (hw : Hw) (c : Console) (r : Regs) :
    csstart m hw c r = .game (Solo.start (m.fnrply 2) hw c r) := by
  obtain ⟨herr, hack, htype, hdelay⟩ := h
  rw [csstart, if_neg (not_not_intro herr), if_neg (not_not_intro ((fnack_eq m).mpr hack)),
    if_neg (not_not_intro htype), if_neg (not_not_intro hdelay)]

/-- One frame: the console is still in the boot bank, or plays alone, or has read a START and is in a
    match. -/
theorem Boot.Good.frame {b : Boot} (h : b.Good) (m : Page) (hw : Hw) (c : Console) :
    (∃ b', b.frame m hw c = .boot b' ∧ b.Next m b') ∨ (∃ a, b.frame m hw c = .alone (cslocal a hw c)) ∨
    (b.await = .read ∧ m.fnacks = b.regs.seq ∧ m.Starts ∧
      b.frame m hw c = .game (Solo.start (m.fnrply 2) hw c b.regs)) := by
  have hwait : b.await ≠ .again → m.fnacks ≠ b.regs.seq → b.frame m hw c = b.wait hw c →
      (∃ b', b.frame m hw c = .boot b' ∧ b.Next m b') ∨ ∃ a, b.frame m hw c = .alone (cslocal a hw c) := by
    intro hagain hno heq
    rw [heq]
    rcases h.wait hw c with ⟨b', hb', hawait, hregs, hleft, hgood⟩ | ⟨hlocal, -⟩
    · exact .inl ⟨b', hb', .waits b' hagain hno hawait hregs hleft hgood⟩
    · exact .inr ⟨_, hlocal⟩
  cases hawait : b.await with
  | again => exact .inl ⟨_, by rw [Boot.frame, hawait], .asks hawait⟩
  | stat =>
    by_cases hans : m.fnacks = b.regs.seq
    · have heq : b.frame m hw c = cswaited m hw c b.regs := by rw [Boot.frame, hawait]; exact if_pos hans
      rw [heq]
      rcases cswaited_cases m hw c b.regs with hlocal | ⟨hready, hread⟩ | hempty
      · exact .inr (.inl hlocal)
      · exact .inl ⟨_, hread, .reads hawait hans hready⟩
      · exact .inl ⟨_, hempty, .empty hawait hans⟩
    · have heq : b.frame m hw c = b.wait hw c := by rw [Boot.frame, hawait]; exact if_neg hans
      exact (hwait (by rw [hawait]; decide) hans heq).imp_right .inl
  | read =>
    by_cases hans : m.fnacks = b.regs.seq
    · have heq : b.frame m hw c = csstart m hw c b.regs := by rw [Boot.frame, hawait]; exact if_pos hans
      rw [heq]
      rcases csstart_cases m hw c b.regs with hlocal | ⟨hstarts, hgame⟩
      · exact .inr (.inl hlocal)
      · exact .inr (.inr ⟨rfl, hans, hstarts, hgame⟩)
    · have heq : b.frame m hw c = b.wait hw c := by rw [Boot.frame, hawait]; exact if_neg hans
      exact (hwait (by rw [hawait]; decide) hans heq).imp_right .inl

/-- A console goes into a match in just those frames that find its READ answered by a START. -/
theorem Boot.Good.game_iff {b : Boot} (h : b.Good) (m : Page) (hw : Hw) (c : Console) :
    (∃ x, b.frame m hw c = .game x) ↔ b.regs.cmd = ncread ∧ m.fnacks = b.regs.seq ∧ m.Starts := by
  constructor
  · rintro ⟨x, hx⟩
    rcases h.frame m hw c with ⟨b', hb', -⟩ | ⟨a, ha⟩ | ⟨hread, hans, hstarts, -⟩
    · cases hx.symm.trans hb'
    · cases hx.symm.trans ha
    · exact ⟨h.cmd.trans (if_pos hread), hans, hstarts⟩
  · rintro ⟨hcmd, hans, hstarts⟩
    have hread : b.await = .read := by
      by_contra hread
      exact absurd (hcmd.symm.trans (h.cmd.trans (if_neg hread))) (by decide)
    refine ⟨Solo.start (m.fnrply 2) hw c b.regs, ?_⟩
    rw [Boot.frame, hread]
    exact (if_pos hans).trans (csstart_starts hstarts hw c b.regs)

/-! ### Whole runs -/

theorem cslocal_cells (a : Byte) (hw : Hw) (c : Console) : (cslocal a hw c).voent = 0 ∧
    (cslocal a hw c).voerr = a ∧ (cslocal a hw c).bank = .game := ⟨rfl, rfl, rfl⟩

theorem booting_step {s s' : Seat} {e : Tv} (h : booting.step s e = some s') :
    ∃ b, s = .boot b ∧ s' = b.frame e.page e.hw e.con := by
  cases s with
  | boot b => exact ⟨b, rfl, (Option.some.inj h).symm⟩
  | game x => cases h
  | alone c => cases h

/-- A console that reads has been told of fifteen bytes. -/
theorem boot_of_run {s₀ : Seat} (h₀ : booting.init s₀) {es : List Tv} :
    ∀ {b : Boot}, booting.run s₀ es = some (.boot b) →
      b.Good ∧ (b.await = .read → ∃ e ∈ es, e.page.Ready) := by
  induction es using List.reverseRecOn with
  | nil =>
    intro b hrun
    obtain ⟨m, r, rfl⟩ := h₀
    rw [Machine.run_nil, Option.some.injEq, Seat.boot.injEq] at hrun
    exact hrun ▸ ⟨cswait_good m r, fun h => Await.noConfusion h⟩
  | append_singleton es e ih =>
    intro b' hrun
    obtain ⟨t, ht, hstep⟩ := booting.run_concat_some.mp hrun
    obtain ⟨b, rfl, hframe⟩ := booting_step hstep
    obtain ⟨hgood, htold⟩ := ih ht
    have hearlier : (∃ e ∈ es, e.page.Ready) → ∃ e' ∈ es ++ [e], e'.page.Ready :=
      fun ⟨e', he', hready⟩ => ⟨e', List.mem_append_left _ he', hready⟩
    rcases hgood.frame e.page e.hw e.con with ⟨b₁, hb₁, hnext⟩ | ⟨a, ha⟩ | ⟨-, -, -, hgame⟩
    · obtain rfl : b' = b₁ := Seat.boot.inj (hframe.trans hb₁)
      refine ⟨hgood.next hnext, fun hread => ?_⟩
      cases hnext with
      | asks _ => exact Await.noConfusion hread
      | reads _ _ hready => exact ⟨e, List.mem_append_right _ (List.mem_singleton_self e), hready⟩
      | empty _ _ => exact Await.noConfusion hread
      | waits _ _ _ hawait _ _ _ => exact hearlier (htold (hawait ▸ hread))
    · cases hframe.trans ha
    · cases hframe.trans hgame

/-- Frames without the answer use up the wait. -/
theorem unanswered_run {b : Boot} (hgood : b.Good) (hagain : b.await ≠ .again) {es : List Tv}
    (hlen : b.left ≤ es.length) (hno : ∀ e ∈ es, e.page.fnacks ≠ b.regs.seq) :
    ∃ c, booting.run (.boot b) (es.take b.left) = some (.alone c) ∧ c.voerr = fnewait := by
  induction es generalizing b with
  | nil =>
    have hpos := hgood.csdly.1
    rw [Boot.left, List.length_nil] at hlen
    omega
  | cons e es ih =>
    have hnow := hno e List.mem_cons_self
    have hframe : b.frame e.page e.hw e.con = b.wait e.hw e.con := by
      rw [Boot.frame]
      cases hawait : b.await with
      | again => exact absurd hawait hagain
      | stat => exact if_neg hnow
      | read => exact if_neg hnow
    have hstep : booting.step (.boot b) e = some (b.wait e.hw e.con) := congrArg some hframe
    rcases hgood.wait e.hw e.con with ⟨b', hb', hawait, hregs, hleft, hgood'⟩ | ⟨hlocal, hone⟩
    · have hrest := ih hgood' (hawait ▸ hagain) (by rw [List.length_cons] at hlen; omega)
        (fun e' he' => hregs ▸ hno e' (List.mem_cons_of_mem e he'))
      rw [← hleft, List.take_succ_cons, Machine.run_cons, hstep, hb']
      exact hrest
    · refine ⟨_, ?_, (cslocal_cells fnewait e.hw e.con).2.1⟩
      rw [hone, List.take_succ_cons, List.take_zero, Machine.run_singleton, hstep, hlocal]

theorem Boot.Good.left_le {b : Boot} (h : b.Good) : b.left ≤ 544 := by
  have hcnt := h.fncnt
  have hdly := h.csdly
  rw [Boot.left]
  omega

/-- However its cartridge behaves, a console that has said HELLO comes into a match only over a START
    of its own delay, read in a transaction it launched for fifteen bytes that STATUS had reported, and
    it stands then as every match begins, in the role START gave it; and it does so in the very frame
    that finds such a START. Else it plays alone, without a bit of the netcode set; and no transaction
    keeps it waiting for more than 544 frames. -/
theorem boot_hands_over {s₀ s : Seat} {es : List Tv} (h₀ : booting.init s₀)
    (hrun : booting.run s₀ es = some s) :
    (∀ x, s = .game x → ∃ before e b, es = before ++ [e] ∧
      booting.run s₀ before = some (.boot b) ∧ (∃ e' ∈ before, e'.page.Ready) ∧
      b.regs.cmd = ncread ∧ b.regs.word = 15 ∧ e.page.fnacks = b.regs.seq ∧ e.page.Starts ∧
      x = Solo.start (e.page.fnrply 2) e.hw e.con b.regs) ∧
    (∀ b, s = .boot b → ∀ e, (∃ x, booting.step s e = some (.game x)) ↔
      b.regs.cmd = ncread ∧ e.page.fnacks = b.regs.seq ∧ e.page.Starts) ∧
    (∀ c, s = .alone c → c.voent = 0 ∧ c.bank = .game) ∧
    ∀ b, s = .boot b → b.await ≠ .again → ∀ fs : List Tv, 544 ≤ fs.length →
      (∀ f ∈ fs, f.page.fnacks ≠ b.regs.seq) →
      ∃ n ≤ 544, ∃ c, booting.run s (fs.take n) = some (.alone c) ∧ c.voerr = fnewait := by
  have hlast : (∃ b, s = .boot b) ∨ ∃ before e b, es = before ++ [e] ∧
      booting.run s₀ before = some (.boot b) ∧ s = b.frame e.page e.hw e.con := by
    rcases List.eq_nil_or_concat es with rfl | ⟨before, e, rfl⟩
    · obtain ⟨m, r, rfl⟩ := h₀
      exact .inl ⟨_, (Option.some.inj hrun).symm⟩
    · rw [List.concat_eq_append] at hrun ⊢
      obtain ⟨t, ht, hstep⟩ := booting.run_concat_some.mp hrun
      obtain ⟨b, rfl, hframe⟩ := booting_step hstep
      exact .inr ⟨before, e, b, rfl, ht, hframe⟩
  refine ⟨?_, ?_, ?_, ?_⟩
  · rintro x rfl
    rcases hlast with ⟨b, hb⟩ | ⟨before, e, b, hes, hbefore, hframe⟩
    · cases hb
    · obtain ⟨hgood, htold⟩ := boot_of_run h₀ hbefore
      rcases hgood.frame e.page e.hw e.con with ⟨b', hb', -⟩ | ⟨a, ha⟩ | ⟨hread, hans, hstarts, hgame⟩
      · cases hframe.trans hb'
      · cases hframe.trans ha
      · exact ⟨before, e, b, hes, hbefore, htold hread, hgood.cmd.trans (if_pos hread),
          hgood.word hread, hans, hstarts, Seat.game.inj (hframe.trans hgame)⟩
  · rintro b rfl e
    rw [← (boot_of_run h₀ hrun).1.game_iff e.page e.hw e.con]
    exact exists_congr fun x => Option.some_inj
  · rintro c rfl
    rcases hlast with ⟨b, hb⟩ | ⟨before, e, b, -, hbefore, hframe⟩
    · cases hb
    · rcases (boot_of_run h₀ hbefore).1.frame e.page e.hw e.con with ⟨b', hb', -⟩ | ⟨a, ha⟩ |
        ⟨-, -, -, hgame⟩
      · cases hframe.trans hb'
      · obtain rfl : c = cslocal a e.hw e.con := Seat.alone.inj (hframe.trans ha)
        obtain ⟨hent, -, hbank⟩ := cslocal_cells a e.hw e.con
        exact ⟨hent, hbank⟩
      · cases hframe.trans hgame
  · rintro b rfl hagain fs hlen hno
    have hgood := (boot_of_run h₀ hrun).1
    obtain ⟨c, hc, herr⟩ :=
      unanswered_run hgood hagain (Nat.le_trans hgood.left_le hlen) hno
    exact ⟨b.left, hgood.left_le, c, hc, herr⟩

/-- A console that has said HELLO to an idle cartridge. -/
def Seat.helloed : Seat := .boot (cswait { painted 0 [] 0 with fnrcmd := fnrack } Regs.cleared)

/-- A frame that finds this reply to transaction `acks`. -/
def Tv.shows (acks : Byte) (reply : List Byte) : Tv :=
  { page := { painted acks reply 0 with fnrcmd := fnrack }, hw := Hw.rest, con := Console.cleared }

/-- STATUS keeps the console waiting for a frame, finds ten bytes, and then fifteen; the READ brings
    the START of a guest. -/
def invited : List Tv :=
  [.shows 0 [], .shows 1 [10, 0, 1, 1], .shows 1 [], .shows 2 [15, 0, 1, 1],
    .shows 3 [14, wtStart, 1, 0x34, 0x12, vod, 2]]

/-- The same frames but for the last, which brings a START of another delay. -/
def refused : List Tv := invited.take 4 ++ [.shows 3 [14, wtStart, 1, 0x34, 0x12, vod + 1, 2]]

theorem boot_hands_over_invited : (∃ x, booting.run Seat.helloed invited = some (.game x) ∧
    has x.con.voent voeRole = true ∧
    ∃ (e : Tv) (b : Boot), x = Solo.start (e.page.fnrply 2) e.hw e.con b.regs) ∧
    ¬∃ x, booting.run Seat.helloed refused = some (.game x) := by
  constructor
  · have hrun : ∃ x, booting.run Seat.helloed invited = some (.game x) ∧
        has x.con.voent voeRole = true := ⟨_, rfl, by decide⟩
    obtain ⟨x, hrun, hguest⟩ := hrun
    obtain ⟨-, e, b, -, -, -, -, -, -, -, hx⟩ := (boot_hands_over ⟨_, _, rfl⟩ hrun).1 x rfl
    exact ⟨x, hrun, hguest, e, b, hx⟩
  · rintro ⟨x, hrun⟩
    have hwaits : ∃ b, booting.run Seat.helloed (invited.take 4) = some (.boot b) := ⟨_, rfl⟩
    obtain ⟨b, hwaits⟩ := hwaits
    obtain ⟨t, ht, hlast⟩ := booting.run_concat_some.mp hrun
    obtain rfl : t = .boot b := Option.some.inj (ht.symm.trans hwaits)
    obtain ⟨-, -, hstarts⟩ := ((boot_hands_over ⟨_, _, rfl⟩ hwaits).2.1 b rfl _).mp ⟨x, hlast⟩
    exact absurd hstarts (by decide)

end VO
