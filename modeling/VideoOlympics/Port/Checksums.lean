import VideoOlympics.Port.Slots
import VideoOlympics.Relay.Checksums

/-! The checksums of a match, in C. The array of a slot is the dictionary of a client for as long as
    no more than sixteen checksums are kept in it, and no lap is so late that its keys wrap. The array
    is trimmed only where a report is not paired, so the side that always comes second fills it. -/

namespace VO.Port
open Relay

/-- What a slot keeps of the checksums its client reports. -/
def Slot.tally (c : Slot) : Tally :=
  { crc := Dict.rename BitVec.toNat c.crc, lap := c.lap.toNat, last := c.lastTick }

/-- What a comparison counts as. -/
def Stats.score (st : Stats) (crc : Byte) : Option Byte → Stats
  | none => st
  | some other => if other ≠ crc then { st with crcBad := st.crcBad + 1 }
      else { st with crcOk := st.crcOk + 1 }

namespace Slot

variable {c : Slot} {tick : Byte}

theorem lapOf_toNat (h : c.tally.keyAt tick < 2 ^ 64) :
    (State.lapOf c tick).toNat = c.tally.lapAt tick := by
  have hlap : c.tally.lapAt tick < 2 ^ 64 := by
    rw [Tally.keyAt] at h
    omega
  have hlast : c.tally.last = c.lastTick := rfl
  simp only [State.lapOf]
  rw [Tally.lapAt, hlast] at hlap ⊢
  cases hl : c.lastTick with
  | none => rfl
  | some last =>
    rw [hl] at hlap
    dsimp only at hlap ⊢
    split
    · next hwrap =>
      rw [if_pos hwrap] at hlap
      rw [BitVec.toNat_add]
      exact Nat.mod_eq_of_lt hlap
    · rfl

/-- A key that does not wrap is the other relay's. -/
theorem keyOf_toNat (h : c.tally.keyAt tick < 2 ^ 64) :
    (State.keyOf c tick).toNat = c.tally.keyAt tick := by
  rw [State.keyOf, BitVec.toNat_add, BitVec.toNat_mul, lapOf_toNat h, BitVec.toNat_setWidth]
  rw [Tally.keyAt] at h ⊢
  change (c.tally.lapAt tick * 256 % 2 ^ 64 + tick.toNat % 2 ^ 64) % 2 ^ 64 = _
  omega

end Slot

theorem toNat_injective : Function.Injective (fun key : BitVec 64 => key.toNat) :=
  fun _ _ => BitVec.eq_of_toNat_eq

/-- Keys in an array, looked up as keys of a dictionary. -/
theorem crcFind_none {d : List (BitVec 64 × Byte)} {key : BitVec 64} :
    State.crcFind d key = none ↔ (Dict.rename BitVec.toNat d).lookup key.toNat = none := by
  rw [Dict.lookup_rename toNat_injective, Dict.lookup_eq_none]
  exact Dict.findIdx?_eq_none

theorem crcFind_some {d : List (BitVec 64 × Byte)} {key : BitVec 64} {n : ℕ}
    (h : State.crcFind d key = some n) :
    (Dict.rename BitVec.toNat d).lookup key.toNat = some ((d[n]?.map Prod.snd).getD 0) := by
  obtain ⟨v, hv, hlookup⟩ := Dict.getElem?_findIdx? h
  rw [Dict.lookup_rename toNat_injective, hlookup, hv]
  rfl

/-- As long as there is a place for it, assigning to the array is assigning to the dictionary. -/
theorem crcSet_eq {d : List (BitVec 64 × Byte)} {key : BitVec 64} (hd : (Dict.keys d).Nodup)
    (hplace : d.length < crcSlots ∨ (State.crcFind d key).isSome) (v : Byte) :
    State.crcSet d key v = Dict.set d key v := by
  simp only [State.crcSet]
  cases hfind : State.crcFind d key with
  | some n => exact Dict.set_findIdx? hd hfind v
  | none =>
    have hlen : d.length < crcSlots := hplace.resolve_right (by simp [hfind])
    have hnew := Dict.lookup_eq_none.mpr (Dict.findIdx?_eq_none.mp hfind)
    dsimp only
    rw [if_neg (Nat.not_le_of_lt hlen), Dict.set, hnew]
    rfl

/-- To close the gap a key leaves in the array is to take it out of the dictionary. -/
theorem crcDelAt_eq {d : List (BitVec 64 × Byte)} {key : BitVec 64} {n : ℕ} (hd : (Dict.keys d).Nodup)
    (h : State.crcFind d key = some n) :
    State.crcDelAt d n = d.filter fun e => e.1 != key :=
  Dict.eraseIdx_findIdx? hd h

namespace State

/-- Two slots, each the other's partner. -/
structure Playing (s : State) (seat : Side → Index) : Prop where
  ne : ∀ i, seat i.other ≠ seat i
  partner : ∀ i, (s.clients (seat i)).partner = some (seat i.other)

/-- What is kept of the checksums of a match. -/
def ledger (s : State) (seat : Side → Index) : Ledger := fun i => (s.clients (seat i)).tally

/-- No key is in an array twice. -/
def Distinct (s : State) (seat : Side → Index) : Prop :=
  ∀ i, (Dict.keys (s.clients (seat i)).crc).Nodup

/-- There is a place for a record's checksum in its sender's array, and its key does not wrap. -/
def Roomy (seat : Side → Index) (s : State) (e : Side × List Byte) : Prop :=
  let mine := s.clients (seat e.1)
  let tick := e.2.getD irTick 0
  crcMinPayload ≤ e.2.length → mine.tally.keyAt tick < 2 ^ 64 ∧
    (mine.crc.length < crcSlots ∨ (crcFind mine.crc (keyOf mine tick)).isSome)

instance (seat : Side → Index) (s : State) (e : Side × List Byte) : Decidable (s.Roomy seat e) :=
  inferInstanceAs (Decidable (_ → _ ∧ _))

instance (s : State) (seat : Side → Index) : Decidable (s.Playing seat) :=
  decidable_of_iff ((∀ i, seat i.other ≠ seat i) ∧
    ∀ i, (s.clients (seat i)).partner = some (seat i.other)) ⟨fun h => ⟨h.1, h.2⟩, fun h => ⟨h.1, h.2⟩⟩

variable {s s' : State} {seat : Side → Index}

theorem ledger_upd (hne : ∀ i, seat i.other ≠ seat i) (s : State) (i : Side) (f : Slot → Slot) :
    (s.upd (seat i) f).ledger seat =
      Function.update (s.ledger seat) i (f (s.clients (seat i))).tally := by
  funext j
  rcases i.eq_or_other j with rfl | rfl
  · rw [ledger, clients_upd, if_pos rfl, Function.update_self]
  · rw [ledger, clients_upd, if_neg (hne i), Function.update_of_ne i.other_ne]
    rfl

theorem Distinct.upd (hd : s.Distinct seat) (i : Index) (f : Slot → Slot)
    (hf : (Dict.keys (s.clients i).crc).Nodup → (Dict.keys (f (s.clients i)).crc).Nodup) :
    (s.upd i f).Distinct seat := by
  intro j
  rw [clients_upd]
  split
  · next hj => exact hf (hj ▸ hd j)
  · exact hd j

/-- A slot notes what its client reports. -/
def noting (s : State) (i : Index) (tick crc : Byte) : State :=
  s.upd i fun c =>
    { c with lap := lapOf c tick, lastTick := some tick
             crc := crcSet c.crc (keyOf (s.clients i) tick) crc }

theorem noting_tally {c : Slot} {tick : Byte} (hd : (Dict.keys c.crc).Nodup)
    (hkey : c.tally.keyAt tick < 2 ^ 64)
    (hplace : c.crc.length < crcSlots ∨ (crcFind c.crc (keyOf c tick)).isSome) (crc : Byte) :
    { c with lap := lapOf c tick, lastTick := some tick
             crc := crcSet c.crc (keyOf c tick) crc : Slot }.tally = c.tally.note tick crc := by
  rw [Slot.tally, Tally.note, crcSet_eq hd hplace, ← Dict.set_rename toNat_injective,
    Slot.keyOf_toNat hkey, Slot.lapOf_toNat hkey]
  rfl

theorem tally_evict (c : Slot) :
    { c with crc := c.crc.drop (c.crc.length - 8) : Slot }.tally = c.tally.trim := by
  rw [Slot.tally, Slot.tally, Tally.trim, Dict.youngest_rename]
  rfl

theorem tally_forget {c : Slot} {key : BitVec 64} {n : ℕ} (hd : (Dict.keys c.crc).Nodup)
    (h : crcFind c.crc key = some n) :
    { c with crc := crcDelAt c.crc n : Slot }.tally = c.tally.forget key.toNat := by
  rw [Slot.tally, Slot.tally, Tally.forget]
  dsimp only
  rw [crcDelAt_eq hd h, Dict.filter_rename toNat_injective]

theorem cstr_crcBlind : Slot.CrcBlind Slot.cstr := fun _ _ _ _ => rfl

/-- `log_crc` works on the tallies. -/
theorem pairCrc_ledger (h : s.Playing seat) (hd : s.Distinct seat) (i : Side) (tick crc : Byte)
    (hkey : (s.clients (seat i)).tally.keyAt tick < 2 ^ 64)
    (hplace : (s.clients (seat i)).crc.length < crcSlots ∨
      (crcFind (s.clients (seat i)).crc (keyOf (s.clients (seat i)) tick)).isSome) :
    (s.pairCrc (seat i) tick crc).ledger seat = (s.ledger seat).report i tick crc ∧
      (s.pairCrc (seat i) tick crc).stats =
        s.stats.score crc ((s.ledger seat).awaited i tick) ∧
      (s.pairCrc (seat i) tick crc).log = s.log ++
        (Relay.Line.verdict tick (some (decode (s.clients (seat i)).cstr)) crc
          ((s.ledger seat).awaited i tick)).map .said := by
  have hpartner : ((s.noting (seat i) tick crc).clients (seat i)).partner = some (seat i.other) :=
    (clients_upd_quiet s _ _ _ Slot.partner rfl).trans (h.partner i)
  have hother : (s.noting (seat i) tick crc).clients (seat i.other) = s.clients (seat i.other) := by
    rw [noting, clients_upd, if_neg (h.ne i)]
  have hnoting : (s.noting (seat i) tick crc).ledger seat =
      Function.update (s.ledger seat) i ((s.ledger seat i).note tick crc) :=
    (ledger_upd h.ne s i _).trans (congrArg _ (noting_tally (hd i) hkey hplace crc))
  have hawaited : (s.ledger seat).awaited i tick =
      (Dict.rename BitVec.toNat (s.clients (seat i.other)).crc).lookup
        (keyOf (s.clients (seat i)) tick).toNat := by
    rw [Slot.keyOf_toNat hkey]
    rfl
  simp only [pairCrc]
  rw [← noting, hpartner]
  dsimp only
  rw [hother]
  cases hfind : crcFind (s.clients (seat i.other)).crc (keyOf (s.clients (seat i)) tick) with
  | none =>
    have ha := hawaited.trans (crcFind_none.mp hfind)
    rw [ha]
    refine ⟨?_, rfl, (List.append_nil _).symm⟩
    dsimp only
    rw [ledger_upd h.ne, tally_evict, hnoting, Function.update_idem, Ledger.report, ha]
    have hmine : (s.noting (seat i) tick crc).ledger seat i = (s.ledger seat i).note tick crc := by
      rw [hnoting, Function.update_self]
    exact congrArg (fun t : Tally => Function.update (s.ledger seat) i t.trim) hmine
  | some n =>
    have ha := hawaited.trans (crcFind_some hfind)
    have hledger : ((s.noting (seat i) tick crc).upd (seat i.other) fun c =>
        { c with crc := crcDelAt c.crc n }).ledger seat = (s.ledger seat).report i tick crc := by
      rw [ledger_upd h.ne, hother, tally_forget (hd i.other) hfind, hnoting, Ledger.report, ha,
        Slot.keyOf_toNat hkey]
      rfl
    have hcstr : (((s.noting (seat i) tick crc).upd (seat i.other) fun c =>
        { c with crc := crcDelAt c.crc n }).clients (seat i)).cstr = (s.clients (seat i)).cstr :=
      (crc_quiet _ _ _ _ cstr_crcBlind).trans (clients_upd_quiet s _ _ _ Slot.cstr rfl)
    rw [ha]
    dsimp only
    simp only [Stats.score, Relay.Line.verdict]
    split
    · exact ⟨hledger, rfl, by rw [hcstr]; rfl⟩
    · exact ⟨hledger, rfl, (List.append_nil _).symm⟩

theorem Playing.pairCrc (h : s.Playing seat) (i : Index) (tick crc : Byte) :
    (s.pairCrc i tick crc).Playing seat := by
  obtain ⟨clients, stats, log, heq, hquiet⟩ := s.pairCrc_frame i tick crc
  rw [heq]
  exact ⟨h.ne, fun j => (hquiet Slot.partner (fun _ _ _ _ => rfl) _).trans (h.partner j)⟩

theorem Distinct.pairCrc (hd : s.Distinct seat) (i : Side) (tick crc : Byte)
    (hplace : (s.clients (seat i)).crc.length < crcSlots ∨
      (crcFind (s.clients (seat i)).crc (keyOf (s.clients (seat i)) tick)).isSome) :
    (s.pairCrc (seat i) tick crc).Distinct seat := by
  have hnote := hd.upd (seat i) (fun c => { c with
    lap := lapOf c tick, lastTick := some tick
    crc := crcSet c.crc (keyOf (s.clients (seat i)) tick) crc })
    fun hnodup => crcSet_eq hnodup hplace crc ▸ Dict.nodup_set hnodup _ crc
  simp only [State.pairCrc]
  split
  · exact hnote.upd (seat i) _ fun hnodup => Dict.nodup_youngest hnodup 8
  · next p _ =>
    split
    · exact hnote.upd (seat i) _ fun hnodup => Dict.nodup_youngest hnodup 8
    · next n _ =>
      have herase := hnote.upd p (fun c => { c with crc := crcDelAt c.crc n }) fun hnodup =>
        hnodup.sublist ((List.eraseIdx_sublist _ n).map Prod.fst)
      split
      · exact herase
      · exact herase

theorem pairCrc_cstr (s : State) (i j : Index) (tick crc : Byte) :
    ((s.pairCrc i tick crc).clients j).cstr = (s.clients j).cstr := by
  obtain ⟨clients, stats, log, heq, hquiet⟩ := s.pairCrc_frame i tick crc
  rw [heq]
  exact hquiet Slot.cstr cstr_crcBlind j

/-! ### The INPUT frames of a match -/

/-- The program's part in a match: two slots play each other, and INPUT frames come from them. -/
def inputs (seat : Side → Index) : Machine State (Side × List Byte) where
  init s := s.Playing seat
  step s e := some (s.handle (seat e.1) tInput e.2)

theorem Playing.send (h : s.Playing seat) (i : Index) (data : List Byte) :
    (s.send i data).Playing seat where
  ne := h.ne
  partner j := by rw [send_quiet s i (seat j) data Slot.partner fun _ _ => rfl, h.partner j]

/-- An INPUT frame works on the tallies, as long as there is a place for its checksum. -/
theorem input_step {e : Side × List Byte} (h : s.Playing seat) (hd : s.Distinct seat)
    (hroomy : s.Roomy seat e) (hstep : (inputs seat).step s e = some s') : s'.Playing seat ∧
      s'.Distinct seat ∧ (∀ j, (s'.clients j).cstr = (s.clients j).cstr) ∧
      s'.ledger seat = (s.ledger seat).hear e ∧
      s'.stats = s.stats.score (e.2.getD irCrc 0) ((s.ledger seat).compared e) ∧
      s'.log = s.log ++ (Relay.Line.verdict (e.2.getD irTick 0)
        (some (decode (s.clients (seat e.1)).cstr)) (e.2.getD irCrc 0)
        ((s.ledger seat).compared e)).map .said := by
  obtain ⟨i, payload⟩ := e
  obtain rfl : s.handle (seat i) tInput payload = s' := Option.some.inj hstep
  have hforward : (s.note (.handled (s.conn (seat i)) tInput payload)).forward (seat i) tInput
      payload = (s.note (.handled (s.conn (seat i)) tInput payload)).send (seat i.other)
        (Relay.frame tInput (payload ++ List.replicate
          ((if payload.length < gamePayload then gamePayload else payload.length) -
            payload.length) 0)) := by
    simp only [forward]
    rw [show ((s.note _).clients (seat i)).partner = some (seat i.other) from h.partner i]
    rfl
  simp only [handle]
  rw [if_pos (by decide), hforward]
  generalize hsent : (s.note (.handled (s.conn (seat i)) tInput payload)).send (seat i.other) _ = t
  have hquiet : ∀ {β : Type} (g : Slot → β),
      (∀ (c : Slot) (tx : Buffer Byte), g { c with tx := tx } = g c) →
      ∀ j, g (t.clients j) = g (s.clients j) := fun g hg j => hsent ▸ send_quiet _ _ j _ g hg
  have hnoted : (s.note (.handled (s.conn (seat i)) tInput payload)).Playing seat :=
    ⟨h.ne, h.partner⟩
  have ht : t.Playing seat := hsent ▸ hnoted.send _ _
  have hdt : t.Distinct seat := fun j => by rw [hquiet Slot.crc fun _ _ => rfl]; exact hd j
  have hstats : t.stats = s.stats := by rw [← hsent]; rfl
  have hlog : t.log = s.log := by rw [← hsent]; rfl
  have htally : t.ledger seat = s.ledger seat :=
    funext fun j => hquiet Slot.tally (fun _ _ => rfl) (seat j)
  have hcstr := hquiet Slot.cstr fun _ _ => rfl
  simp only [Ledger.hear, Ledger.compared]
  by_cases hlen : irCrc < payload.length
  · rw [if_pos ⟨trivial, hlen⟩, if_pos hlen, if_pos hlen]
    obtain ⟨hkey, hplace⟩ := hroomy hlen
    rw [← hquiet Slot.tally fun _ _ => rfl] at hkey
    have hplace' : (t.clients (seat i)).crc.length < crcSlots ∨
        (crcFind (t.clients (seat i)).crc
          (keyOf (t.clients (seat i)) (payload.getD irTick 0))).isSome := by
      rw [hquiet Slot.crc fun _ _ => rfl, hquiet (fun c => keyOf c _) fun _ _ => rfl]
      exact hplace
    obtain ⟨hl, hs, hw⟩ := pairCrc_ledger ht hdt i (payload.getD irTick 0) (payload.getD irCrc 0)
      hkey hplace'
    rw [htally] at hl hs hw
    rw [hstats] at hs
    rw [hlog, hcstr] at hw
    exact ⟨ht.pairCrc _ _ _, hdt.pairCrc i _ _ hplace',
      fun j => (pairCrc_cstr t _ j _ _).trans (hcstr j), hl, hs, hw⟩
  · rw [if_neg fun h => hlen h.2, if_neg hlen, if_neg hlen]
    exact ⟨ht, hdt, hcstr, htally, hstats, hlog.trans (List.append_nil _).symm⟩

end State

/-! ### Both relays -/

/-- A match that both relays keep the same checksums of. -/
structure Alike (seat : Side → ℕ) (slot : Side → Index) (s : Server) (c : State) : Prop where
  server : s.Playing seat
  port : c.Playing slot
  distinct : c.Distinct slot
  ledger : s.ledger seat = c.ledger slot
  name : ∀ i, (s.obj (seat i)).name = some (decode (c.clients (slot i)).cstr)

section
variable {seat : Side → ℕ} {slot : Side → Index} {s₀ s s' : Server} {c₀ c c' : State}
  {e : Side × List Byte}

theorem input_name (hstep : (Server.inputs seat).step s e = some s') (d : ℕ) :
    (s'.obj d).name = (s.obj d).name := by
  have hok : s.handle 0 (seat e.1) tInput e.2 = .ok s' := by
    cases hr : s.handle 0 (seat e.1) tInput e.2 with
    | error _ => simp [Server.inputs, hr, Except.toOption] at hstep
    | ok u => simpa [Server.inputs, hr, Except.toOption] using hstep
  have hroom := Server.handle_ok hok
  rw [← Server.room_name, ← Server.room_name]
  generalize s'.room = r at hroom ⊢
  cases hroom with
  | unheard _ _ => rfl
  | relayed _ _ _ => rfl
  | unknown h _ _ _ _ _ => exact absurd (by decide) h
  | refused h _ => exact absurd h (by decide)
  | welcomed _ _ h _ _ _ => exact absurd h (by decide)
  | listed h => exact absurd h (by decide)
  | joined _ h _ => exact absurd h (by decide)
  | pinged h => exact absurd h (by decide)
  | gone h => exact absurd h (by decide)

/-- What one record counts for, in both. -/
theorem Alike.step (h : Alike seat slot s c) (hroomy : c.Roomy slot e)
    (hs : (Server.inputs seat).step s e = some s') (hc : (State.inputs slot).step c e = some c') :
    Alike seat slot s' c' ∧ ∃ other lines,
      s'.stats = s.stats.score (e.2.getD irCrc 0) other ∧
      c'.stats = c.stats.score (e.2.getD irCrc 0) other ∧
      s'.log = s.log ++ lines ∧ c'.log = c.log ++ lines.map .said := by
  obtain ⟨hplaying, hl, hstats, hlog⟩ := Server.input_step h.server hs
  obtain ⟨hport, hdistinct, hcstr, hl', hstats', hlog'⟩ :=
    State.input_step h.port h.distinct hroomy hc
  rw [← h.ledger] at hl' hstats' hlog'
  rw [h.name] at hlog
  refine ⟨⟨hplaying, hport, hdistinct, hl.trans hl'.symm, fun i => ?_⟩,
    _, _, hstats, hstats', hlog, hlog'⟩
  rw [input_name hs, h.name, hcstr]

/-- In a match both relays have just made, of two who have the same names there and are on the same
    laps: as long as there is a place for every record's checksum in its sender's array, and its key
    does not wrap, each record counts for the same in both, and leaves the same in both logs. -/
theorem log_crc_agrees {es : List (Side × List Byte)} (hs : s₀.Playing seat) (hc : c₀.Playing slot)
    (hnew : ∀ i, (s₀.obj (seat i)).crc = [] ∧ (c₀.clients (slot i)).crc = [])
    (hlap : ∀ i, (s₀.obj (seat i)).lap = (c₀.clients (slot i)).lap.toNat ∧
      (s₀.obj (seat i)).lastTick = (c₀.clients (slot i)).lastTick)
    (hname : ∀ i, (s₀.obj (seat i)).name = some (decode (c₀.clients (slot i)).cstr))
    (hclean : (State.inputs slot).EachStep (State.Roomy slot) c₀ (es ++ [e]))
    (hrun : (Server.inputs seat).run s₀ es = some s)
    (hstep : (Server.inputs seat).step s e = some s') :
    ∃ c c', (State.inputs slot).run c₀ es = some c ∧ (State.inputs slot).step c e = some c' ∧
      ∃ other lines,
        s'.stats = s.stats.score (e.2.getD irCrc 0) other ∧
        c'.stats = c.stats.score (e.2.getD irCrc 0) other ∧
        s'.log = s.log ++ lines ∧ c'.log = c.log ++ lines.map .said := by
  have halike : Alike seat slot s₀ c₀ := by
    refine ⟨hs, hc, fun i => ?_, funext fun i => ?_, hname⟩
    · rw [(hnew i).2]
      exact List.nodup_nil
    · rw [Server.ledger, State.ledger, Client.tally, Slot.tally, (hnew i).1, (hnew i).2, (hlap i).1,
        (hlap i).2]
      rfl
  clear hs hc hnew hlap hname
  induction es generalizing s₀ c₀ with
  | nil =>
    obtain rfl : s₀ = s := Option.some.inj hrun
    obtain ⟨hroomy, -⟩ := hclean _ rfl
    exact ⟨c₀, _, rfl, rfl, (halike.step hroomy hstep rfl).2⟩
  | cons d es ih =>
    obtain ⟨t, ht, hrest⟩ := (Server.inputs seat).run_cons_some.mp hrun
    obtain ⟨hroomy, hclean⟩ := hclean _ rfl
    exact ih hclean hrest (halike.step hroomy ht rfl).1

end

/-- The C relay, started like the other. -/
def listening : State := State.fresh 2 2 none id

theorem init_listening : port.init listening := ⟨2, 2, none, id, by decide, by decide, rfl⟩

/-- Who sits in which slot, where two have come. -/
def slots : Side → Index
  | .host => 0
  | .guest => 1

/-- The guest comes second sixteen times, and the host repeats the last tick with another checksum. -/
theorem log_crc_agrees_sixteen : ∃ s₀ c₀ s s' c c',
    relay.run Relay.listening twoConsoles = some s₀ ∧
    port.run listening (twoConsoles.map .loop) = some c₀ ∧
    (Server.inputs (seats 0 1)).run s₀ (inTurn .host 16) = some s ∧
    (Server.inputs (seats 0 1)).step s (.host, checkup 15 8) = some s' ∧
    (State.inputs slots).run c₀ (inTurn .host 16) = some c ∧
    (State.inputs slots).step c (.host, checkup 15 8) = some c' ∧
    ∃ other lines, s'.stats = s.stats.score 8 other ∧ c'.stats = c.stats.score 8 other ∧
      s'.log = s.log ++ lines ∧ c'.log = c.log ++ lines.map .said := by
  obtain ⟨s₀, hs₀, hs, hcrc, hlap, hlast, hname, hsome⟩ : ∃ s₀,
      relay.run Relay.listening twoConsoles = some s₀ ∧ s₀.Playing (seats 0 1) ∧
      (∀ i, (s₀.obj (seats 0 1 i)).crc = []) ∧ (∀ i, (s₀.obj (seats 0 1 i)).lap = 0) ∧
      (∀ i, (s₀.obj (seats 0 1 i)).lastTick = none) ∧
      (∀ i, (s₀.obj (seats 0 1 i)).name = match i with
        | .host => some ['A', 'L']
        | .guest => some ['B', 'O']) ∧
      ((Server.inputs (seats 0 1)).run s₀ (inTurn .host 16 ++ [(.host, checkup 15 8)])).isSome :=
    relay.exists_run (by decide +kernel)
  obtain ⟨c₀, hc₀, hc, hcrc', hlap', hlast', hname', hclean⟩ : ∃ c₀,
      port.run listening (twoConsoles.map .loop) = some c₀ ∧ c₀.Playing slots ∧
      (∀ i, (c₀.clients (slots i)).crc = []) ∧ (∀ i, (c₀.clients (slots i)).lap = 0) ∧
      (∀ i, (c₀.clients (slots i)).lastTick = none) ∧
      (∀ i, some (decode (c₀.clients (slots i)).cstr) = match i with
        | .host => some ['A', 'L']
        | .guest => some ['B', 'O']) ∧
      (State.inputs slots).EachStep (State.Roomy slots) c₀
        (inTurn .host 16 ++ [(.host, checkup 15 8)]) :=
    port.exists_run (by decide +kernel)
  obtain ⟨s', hs'⟩ := Option.isSome_iff_exists.mp hsome
  obtain ⟨s, hrun, hstep⟩ := (Server.inputs (seats 0 1)).run_concat_some.mp hs'
  obtain ⟨c, c', hrun', hstep', hagree⟩ := log_crc_agrees hs hc (fun i => ⟨hcrc i, hcrc' i⟩)
    (fun i => ⟨by rw [hlap, hlap']; rfl, by rw [hlast, hlast']⟩)
    (fun i => (hname i).trans (hname' i).symm) hclean hrun hstep
  exact ⟨s₀, c₀, s, s', c, c', hs₀, hc₀, hrun, hstep, hrun', hstep', hagree⟩

/-- The guest comes second seventeen times: its sixteenth checksum is written over, and a repetition
    of that tick, which the one relay compares, the other lets pass. -/
theorem log_crc_differs : ∃ s₀ c₀ s s' c c',
    relay.run Relay.listening twoConsoles = some s₀ ∧ s₀.Playing (seats 0 1) ∧
    port.run listening (twoConsoles.map .loop) = some c₀ ∧ c₀.Playing slots ∧
    (Server.inputs (seats 0 1)).run s₀ (inTurn .host 17) = some s ∧
    (Server.inputs (seats 0 1)).step s (.host, checkup 15 7) = some s' ∧
    (State.inputs slots).run c₀ (inTurn .host 17) = some c ∧
    (State.inputs slots).step c (.host, checkup 15 7) = some c' ∧
    s'.stats.crcOk = s.stats.crcOk + 1 ∧ c'.stats = c.stats := by
  obtain ⟨s₀, hs₀, hs, hruns⟩ : ∃ s₀, relay.run Relay.listening twoConsoles = some s₀ ∧
      s₀.Playing (seats 0 1) ∧ (((Server.inputs (seats 0 1)).run s₀ (inTurn .host 17)).any fun s =>
        decide (((Server.inputs (seats 0 1)).step s (.host, checkup 15 7)).any fun s' =>
          decide (s'.stats.crcOk = s.stats.crcOk + 1))) = true :=
    relay.exists_run (by decide +kernel)
  obtain ⟨s, hrun, hstep⟩ := (Server.inputs (seats 0 1)).exists_run hruns
  obtain ⟨s', hs', hcount⟩ := (Option.any_eq_true _ _).mp hstep
  obtain ⟨c₀, hc₀, hc, hruns'⟩ : ∃ c₀, port.run listening (twoConsoles.map .loop) = some c₀ ∧
      c₀.Playing slots ∧ (((State.inputs slots).run c₀ (inTurn .host 17)).any fun c =>
        decide ((c.handle 0 tInput (checkup 15 7)).stats = c.stats)) = true :=
    port.exists_run (by decide +kernel)
  obtain ⟨c, hrun', hsame⟩ := (State.inputs slots).exists_run hruns'
  exact ⟨s₀, c₀, s, s', c, _, hs₀, hs, hc₀, hc, hrun, hs', hrun', rfl, of_decide_eq_true hcount, hsame⟩

end VO.Port
