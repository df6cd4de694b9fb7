import VideoOlympics.Base.Dict
import VideoOlympics.Base.Side
import VideoOlympics.Relay.Room

/-! The checksums of a match. What `log_crc` does is a matter of two tallies: the side that reports
    notes its checksum under a key, and if the other side's checksum for that key is there, the two
    are compared and the other's is used up. -/

namespace VO.Relay

/-- What the server keeps of the checksums a client reports. -/
structure Tally where
  crc : List (ℕ × Byte)
  lap : ℕ
  last : Option Byte
  deriving DecidableEq, Repr

namespace Tally

/-- Nothing has been reported. -/
def new : Tally := { crc := [], lap := 0, last := none }

/-- The lap a tick is on. -/
def lapAt (t : Tally) (tick : Byte) : ℕ :=
  match t.last with
  | some last => if 0 < (tick - last).toNat ∧ (tick - last).toNat < 128 ∧ tick < last
      then t.lap + 1 else t.lap
  | none => t.lap

/-- The key a checksum for a tick is kept under. -/
def keyAt (t : Tally) (tick : Byte) : ℕ := t.lapAt tick * 256 + tick.toNat

def note (t : Tally) (tick crc : Byte) : Tally :=
  { crc := Dict.set t.crc (t.keyAt tick) crc, lap := t.lapAt tick, last := some tick }

/-- Evict by age. -/
def trim (t : Tally) : Tally := { t with crc := Dict.youngest 8 t.crc }

def forget (t : Tally) (key : ℕ) : Tally := { t with crc := t.crc.filter fun e => e.1 != key }

@[simp] theorem note_lap (t : Tally) (tick crc : Byte) : (t.note tick crc).lap = t.lapAt tick := rfl
@[simp] theorem note_last (t : Tally) (tick crc : Byte) : (t.note tick crc).last = some tick := rfl

end Tally

/-- The tallies of the two sides of a match. -/
abbrev Ledger := Side → Tally

namespace Ledger

variable {l : Ledger} {i : Side} {tick crc : Byte}

/-- The other side's checksum for the key of a report. -/
def awaited (l : Ledger) (i : Side) (tick : Byte) : Option Byte :=
  (l i.other).crc.lookup ((l i).keyAt tick)

/-- One side reports its checksum for a tick. -/
def report (l : Ledger) (i : Side) (tick crc : Byte) : Ledger :=
  match l.awaited i tick with
  | none => Function.update l i ((l i).note tick crc).trim
  | some _ => Function.update (Function.update l i ((l i).note tick crc)) i.other
      ((l i.other).forget ((l i).keyAt tick))

/-- An INPUT frame is a report, if it is long enough to hold one. -/
def hear (l : Ledger) (e : Side × List Byte) : Ledger :=
  if irCrc < e.2.length then l.report e.1 (e.2.getD irTick 0) (e.2.getD irCrc 0) else l

/-- What an INPUT frame's checksum is compared with. -/
def compared (l : Ledger) (e : Side × List Byte) : Option Byte :=
  if irCrc < e.2.length then l.awaited e.1 (e.2.getD irTick 0) else none

theorem report_unpaired (h : l.awaited i tick = none) (crc : Byte) :
    l.report i tick crc i = ((l i).note tick crc).trim ∧
      l.report i tick crc i.other = l i.other := by
  rw [report, h]
  exact ⟨Function.update_self .., Function.update_of_ne i.other_ne ..⟩

theorem report_paired (h : (l.awaited i tick).isSome) (crc : Byte) :
    l.report i tick crc i = (l i).note tick crc ∧
      l.report i tick crc i.other = (l i.other).forget ((l i).keyAt tick) := by
  obtain ⟨other, h⟩ := Option.isSome_iff_exists.mp h
  rw [report, h]
  refine ⟨?_, Function.update_self ..⟩
  exact (Function.update_of_ne i.other_ne.symm ..).trans (Function.update_self ..)

end Ledger

/-- What a comparison counts as. -/
def Stats.score (st : Stats) (crc : Byte) : Option Byte → Stats
  | none => st
  | some other => if other ≠ crc then { st with crcBad := st.crcBad + 1 }
      else { st with crcOk := st.crcOk + 1 }

/-- What it leaves in the log. -/
def Line.verdict (tick : Byte) (name : Option Name) (crc : Byte) : Option Byte → List Line
  | none => []
  | some other => if other ≠ crc then [.mismatch tick name crc other] else []

def Client.tally (o : Client) : Tally := { crc := o.crc, lap := o.lap, last := o.lastTick }

namespace Server

/-- Two clients, each the other's partner. -/
structure Playing (s : Server) (seat : Side → ℕ) : Prop where
  ne : ∀ i, seat i.other ≠ seat i
  partner : ∀ i, (s.obj (seat i)).partner = some (seat i.other)

/-- What the server keeps of the checksums of a match. -/
def ledger (s : Server) (seat : Side → ℕ) : Ledger := fun i => (s.obj (seat i)).tally

variable {s s' : Server} {seat : Side → ℕ}

/-- The tallies of the two sides, when one of them has been assigned to. -/
theorem ledger_upd (hne : ∀ i, seat i.other ≠ seat i) (s : Server) (i : Side)
    (f : Client → Client) : (s.upd (seat i) f).ledger seat =
      Function.update (s.ledger seat) i (f (s.obj (seat i))).tally := by
  funext j
  rcases i.eq_or_other j with rfl | rfl
  · rw [ledger, obj_upd, if_pos rfl, Function.update_self]
  · rw [ledger, obj_upd, if_neg (hne i), Function.update_of_ne i.other_ne]
    rfl

theorem Playing.upd (h : s.Playing seat) (c : ℕ) (f : Client → Client)
    (hf : (f (s.obj c)).partner = (s.obj c).partner) : (s.upd c f).Playing seat where
  ne := h.ne
  partner i := by rw [obj_upd_quiet s c (seat i) f Client.partner hf, h.partner i]

/-- A client notes what it reports. -/
def noting (s : Server) (c : ℕ) (tick crc : Byte) : Server :=
  s.upd c fun o => { o with
    lap := lapOf (s.obj c) tick, lastTick := some tick
    crc := dictSet o.crc (lapOf (s.obj c) tick * 256 + tick.toNat) crc }

/-- Of two clients that play each other, `log_crc` asks the one for what the other reports. -/
theorem pairCrc_playing (h : s.Playing seat) (i : Side) (tick crc : Byte) :
    s.pairCrc (seat i) tick crc = match (s.ledger seat).awaited i tick with
      | none => (s.noting (seat i) tick crc).upd (seat i) fun o =>
          { o with crc := o.crc.drop (o.crc.length - 8) }
      | some other =>
        let s₁ := (s.noting (seat i) tick crc).upd (seat i.other) fun o =>
          { o with crc := o.crc.filter fun e => e.1 != ((s.ledger seat) i).keyAt tick }
        if other ≠ crc then
          ({ s₁ with stats := { s₁.stats with crcBad := s₁.stats.crcBad + 1 } }).say
            (.mismatch tick (s₁.obj (seat i)).name crc other)
        else { s₁ with stats := { s₁.stats with crcOk := s₁.stats.crcOk + 1 } } := by
  have hpartner : ((s.noting (seat i) tick crc).obj (seat i)).partner = some (seat i.other) :=
    (obj_upd_quiet s _ _ _ Client.partner rfl).trans (h.partner i)
  have hother : (s.noting (seat i) tick crc).obj (seat i.other) = s.obj (seat i.other) := by
    rw [noting, obj_upd, if_neg (h.ne i)]
  simp only [pairCrc]
  rw [← noting, hpartner]
  dsimp only
  rw [hother]
  rfl

/-- `log_crc` works on the tallies. -/
theorem pairCrc_ledger (h : s.Playing seat) (i : Side) (tick crc : Byte) :
    (s.pairCrc (seat i) tick crc).ledger seat = (s.ledger seat).report i tick crc ∧
      (s.pairCrc (seat i) tick crc).stats =
        s.stats.score crc ((s.ledger seat).awaited i tick) ∧
      (s.pairCrc (seat i) tick crc).log = s.log ++
        Line.verdict tick (s.obj (seat i)).name crc ((s.ledger seat).awaited i tick) := by
  have hnoting : (s.noting (seat i) tick crc).ledger seat =
      Function.update (s.ledger seat) i ((s.ledger seat i).note tick crc) := ledger_upd h.ne s i _
  rw [pairCrc_playing h]
  cases ha : (s.ledger seat).awaited i tick with
  | none =>
    refine ⟨?_, rfl, (List.append_nil _).symm⟩
    dsimp only
    rw [ledger_upd h.ne, hnoting, Function.update_idem, Ledger.report, ha]
    dsimp only
    rw [noting, obj_upd, if_pos rfl]
    rfl
  | some other =>
    have hname : (((s.noting (seat i) tick crc).upd (seat i.other) fun o => { o with
        crc := o.crc.filter fun e => e.1 != ((s.ledger seat) i).keyAt tick }).obj (seat i)).name =
        (s.obj (seat i)).name :=
      (obj_upd_quiet _ _ _ _ Client.name rfl).trans (obj_upd_quiet s _ _ _ Client.name rfl)
    have hledger : ((s.noting (seat i) tick crc).upd (seat i.other) fun o => { o with
        crc := o.crc.filter fun e => e.1 != ((s.ledger seat) i).keyAt tick }).ledger seat =
        (s.ledger seat).report i tick crc := by
      rw [ledger_upd h.ne, hnoting, Ledger.report, ha]
      dsimp only
      rw [noting, obj_upd, if_neg (h.ne i)]
      rfl
    dsimp only
    simp only [Stats.score, Line.verdict]
    split
    · exact ⟨hledger, rfl, by rw [hname]; rfl⟩
    · exact ⟨hledger, rfl, (List.append_nil _).symm⟩

theorem Playing.pairCrc (h : s.Playing seat) (i : Side) (tick crc : Byte) :
    (s.pairCrc (seat i) tick crc).Playing seat where
  ne := h.ne
  partner j := by rw [← room_partner, room_pairCrc, room_partner, h.partner j]

/-! ### The INPUT frames of a match -/

/-- The server's part in a match: two clients play each other, and send INPUT frames. -/
def inputs (seat : Side → ℕ) : Machine Server (Side × List Byte) where
  init s := s.Playing seat
  step s e := (s.handle 0 (seat e.1) tInput e.2).toOption

/-- Sending a frame leaves the tallies as they are. -/
theorem ledger_send (s : Server) (seat : Side → ℕ) (p : ℕ) (data : List Byte) :
    (s.send p data).ledger seat = s.ledger seat := by
  funext i
  exact obj_upd_quiet s p (seat i) (fun o => { o with tx := o.tx ++ data }) Client.tally rfl

theorem Playing.send (h : s.Playing seat) (p : ℕ) (data : List Byte) : (s.send p data).Playing seat :=
  ⟨h.ne, (h.upd p (fun o => { o with tx := o.tx ++ data }) rfl).partner⟩

/-- An INPUT frame works on the tallies. -/
theorem input_step {e : Side × List Byte} (h : s.Playing seat)
    (hstep : (inputs seat).step s e = some s') : s'.Playing seat ∧
      s'.ledger seat = (s.ledger seat).hear e ∧
      s'.stats = s.stats.score (e.2.getD irCrc 0) ((s.ledger seat).compared e) ∧
      s'.log = s.log ++ Line.verdict (e.2.getD irTick 0) (s.obj (seat e.1)).name
        (e.2.getD irCrc 0) ((s.ledger seat).compared e) := by
  obtain ⟨i, payload⟩ := e
  have hok : s.handle 0 (seat i) tInput payload = .ok s' := by
    cases hr : s.handle 0 (seat i) tInput payload with
    | error _ => simp [inputs, hr, Except.toOption] at hstep
    | ok u => simpa [inputs, hr, Except.toOption] using hstep
  unfold handle at hok
  dsimp only at hok
  rw [if_pos (by decide)] at hok
  obtain ⟨s₁, hfwd, hok⟩ := bind_ok hok
  have hnote : (s.note (.handled (seat i) tInput payload)).Playing seat := ⟨h.ne, h.partner⟩
  rcases forward_ok hfwd with ⟨hnone, -⟩ | ⟨p, -, rfl⟩
  · rw [hnote.partner i] at hnone
    cases hnone
  have hplay := hnote.send p (frame tInput (ljust gamePayload payload))
  have hledger := (s.note (.handled (seat i) tInput payload)).ledger_send seat p
    (frame tInput (ljust gamePayload payload))
  have hname : (((s.note (.handled (seat i) tInput payload)).send p
      (frame tInput (ljust gamePayload payload))).obj (seat i)).name = (s.obj (seat i)).name :=
    obj_upd_quiet (s.note _) p (seat i) (fun o => { o with tx := o.tx ++ _ }) Client.name rfl
  simp only [Ledger.hear, Ledger.compared]
  by_cases hlen : irCrc < payload.length
  · rw [if_pos ⟨rfl, hlen⟩] at hok
    obtain ⟨hl, hstats, hlog⟩ := pairCrc_ledger hplay i (payload.getD irTick 0)
      (payload.getD irCrc 0)
    rw [hledger] at hl hstats hlog
    rw [hname] at hlog
    rw [if_pos hlen, if_pos hlen, ← Except.ok.inj hok]
    exact ⟨hplay.pairCrc i _ _, hl, hstats, hlog⟩
  · rw [if_neg fun h => hlen h.2] at hok
    rw [if_neg hlen, if_neg hlen, ← Except.ok.inj hok]
    exact ⟨hplay, hledger, rfl, (List.append_nil _).symm⟩

/-! ### How much is kept -/

/-- No more than nine checksums are kept of either side. -/
def Spare (seat : Side → ℕ) (s : Server) : Prop := ∀ i, (s.obj (seat i)).crc.length ≤ 9

/-- A report that is paired, but under a key that is new to its sender's full map. -/
def Crowds (seat : Side → ℕ) (s : Server) (e : Side × List Byte) : Prop :=
  let mine := (s.obj (seat e.1)).tally
  let key := mine.keyAt (e.2.getD irTick 0)
  irCrc < e.2.length ∧ 9 ≤ mine.crc.length ∧ (mine.crc.lookup key).isNone ∧
    ((s.obj (seat e.1.other)).crc.lookup key).isSome

instance (seat : Side → ℕ) (s : Server) : Decidable (s.Spare seat) :=
  inferInstanceAs (Decidable (∀ i, (s.obj (seat i)).crc.length ≤ 9))

instance (seat : Side → ℕ) (s : Server) (e : Side × List Byte) : Decidable (s.Crowds seat e) :=
  inferInstanceAs (Decidable (_ ∧ _ ∧ _ ∧ _))

theorem spare_step {e : Side × List Byte} (h : s.Playing seat) (hs : s.Spare seat)
    (hstep : (inputs seat).step s e = some s') : s'.Spare seat ↔ ¬ s.Crowds seat e := by
  obtain ⟨i, payload⟩ := e
  have hspare : ∀ t : Server, t.Spare seat ↔
      (t.ledger seat i).crc.length ≤ 9 ∧ (t.ledger seat i.other).crc.length ≤ 9 := by
    refine fun t => ⟨fun ht => ⟨ht i, ht i.other⟩, fun ht j => ?_⟩
    rcases i.eq_or_other j with rfl | rfl
    · exact ht.1
    · exact ht.2
  obtain ⟨-, hl, -⟩ := input_step h hstep
  rw [Ledger.hear] at hl
  by_cases hlong : irCrc < payload.length
  swap
  · rw [if_neg hlong] at hl
    refine iff_of_true ?_ fun hc => hlong hc.1
    rwa [hspare, hl, ← hspare]
  rw [if_pos hlong] at hl
  obtain ⟨hmine, htheirs⟩ := (hspare s).mp hs
  rw [hspare, hl]
  cases ha : (s.ledger seat).awaited i (payload.getD irTick 0) with
  | none =>
    obtain ⟨hi, ho⟩ := Ledger.report_unpaired ha (payload.getD irCrc 0)
    refine iff_of_true ⟨?_, ho ▸ htheirs⟩ ?_
    · rw [hi]
      exact Nat.le_trans (Dict.length_youngest 8 _) (by omega)
    · rintro ⟨-, -, -, hpaired⟩
      have hnone : ((s.obj (seat i.other)).crc.lookup
        ((s.obj (seat i)).tally.keyAt (payload.getD irTick 0))).isSome = false :=
          congrArg Option.isSome ha
      rw [hnone] at hpaired
      cases hpaired
  | some other =>
    have hpaired : ((s.ledger seat).awaited i (payload.getD irTick 0)).isSome := by rw [ha]; rfl
    obtain ⟨hi, ho⟩ := Ledger.report_paired hpaired (payload.getD irCrc 0)
    have hforget : ((s.ledger seat).report i (payload.getD irTick 0) (payload.getD irCrc 0)
        i.other).crc.length ≤ 9 :=
      ho ▸ Nat.le_trans (List.length_filter_le ..) htheirs
    rw [hi, Tally.note, Dict.length_set]
    by_cases hnew : (s.ledger seat i).keyAt (payload.getD irTick 0) ∈
        Dict.keys (s.ledger seat i).crc
    · rw [if_pos hnew]
      refine iff_of_true ⟨hmine, hforget⟩ ?_
      rintro ⟨-, -, hnone, -⟩
      exact Dict.lookup_eq_none.mp (Option.isNone_iff_eq_none.mp hnone) hnew
    · rw [if_neg hnew]
      have hnone : ((s.obj (seat i)).tally.crc.lookup
          ((s.obj (seat i)).tally.keyAt (payload.getD irTick 0))).isNone :=
        Option.isNone_iff_eq_none.mpr (Dict.lookup_eq_none.mpr hnew)
      constructor
      · rintro ⟨hle, -⟩ ⟨-, hfull, -⟩
        exact absurd (Nat.le_trans (Nat.succ_le_succ hfull) hle) (by omega)
      · intro hc
        refine ⟨?_, hforget⟩
        by_contra hfull
        have hfull : 9 ≤ (s.ledger seat i).crc.length := by omega
        exact hc ⟨hlong, hfull, hnone, hpaired⟩

end Server

/-- Who sits where. -/
def seats (host guest : ℕ) : Side → ℕ
  | .host => host
  | .guest => guest

/-- The payload of a record, as far as the relay reads it. -/
def checkup (tick crc : Byte) : List Byte :=
  tick :: List.replicate 9 0 ++ crc :: List.replicate 3 0

/-- In a match, the server keeps no more than nine checksums of either side for as long as no report
    is paired under a key that is new to a map of nine; and the first such report is the tenth. -/
theorem crc_bounded_iff {seat : Side → ℕ} {s₀ : Server} {es : List (Side × List Byte)}
    (h₀ : s₀.Playing seat) (hnew : ∀ i, (s₀.obj (seat i)).crc = []) :
    (Server.inputs seat).Throughout (Server.Spare seat) s₀ es ↔
      (Server.inputs seat).EachStep (fun s e => ¬ s.Crowds seat e) s₀ es := by
  have hspare : s₀.Spare seat := by
    intro i
    rw [hnew i]
    exact Nat.zero_le 9
  exact (Server.inputs seat).throughout_iff_eachStep (J := fun s => s.Playing seat)
    (fun s e t h hstep => (Server.input_step h hstep).1)
    (fun s e t h hs hstep => Server.spare_step h hs hstep) h₀ hspare

instance (s : Server) (seat : Side → ℕ) : Decidable (s.Playing seat) :=
  decidable_of_iff ((∀ i, seat i.other ≠ seat i) ∧
    ∀ i, (s.obj (seat i)).partner = some (seat i.other)) ⟨fun h => ⟨h.1, h.2⟩, fun h => ⟨h.1, h.2⟩⟩

/-- A match is made. -/
def twoConsoles : List Event :=
  [.accept (0, 0) 0, .recv 0 (hello ['A', 'L']) 0, .accept (1, 0) 1, .recv 1 (hello ['B', 'O']) 0]

/-- The first side reports a number of ticks, each before the second. -/
def inTurn (i : Side) (n : ℕ) : List (Side × List Byte) :=
  (List.range n).flatMap fun t => [(i, checkup (BitVec.ofNat 8 t) 7),
    (i.other, checkup (BitVec.ofNat 8 t) 7)]

theorem crc_bounded_iff_nine : ∃ s₀, relay.run listening twoConsoles = some s₀ ∧
    (Server.inputs (seats 0 1)).Throughout (Server.Spare (seats 0 1)) s₀ (inTurn .host 9) := by
  obtain ⟨s₀, hrun, h₀, hnew, hclean⟩ : ∃ s₀, relay.run listening twoConsoles = some s₀ ∧
      s₀.Playing (seats 0 1) ∧ (∀ i, (s₀.obj (seats 0 1 i)).crc = []) ∧
      (Server.inputs (seats 0 1)).EachStep (fun s e => ¬ s.Crowds (seats 0 1) e) s₀ (inTurn .host 9) :=
    relay.exists_run (by decide +kernel)
  exact ⟨s₀, hrun, (crc_bounded_iff h₀ hnew).mpr hclean⟩

/-- Ten ticks are reported in turn: ten checksums are kept of the side that comes second. -/
theorem crc_grows : relay.init listening ∧ ∃ s, relay.run listening (twoConsoles ++
    (inTurn .host 10).map fun e => .recv (seats 0 1 e.1) (frame tInput e.2) 0) = some s ∧
      (s.obj 1).crc.length = 10 :=
  ⟨init_listening, relay.exists_run (by decide +kernel)⟩

end VO.Relay
