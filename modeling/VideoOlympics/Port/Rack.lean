import VideoOlympics.Port.Slots
import Mathlib.Data.List.Nodup

/-! The rack: what of the program its links hang on. Which slots are in use, by which connection, and
    who is linked to whom, without names, buffers, clocks and checksums. Each function acts on the rack
    in one of three ways: it leaves it as it is, a client goes, or two meet. -/

namespace VO.Port
open Relay

structure Rack where
  order : List Index
  inUse : Index → Bool
  dead : Index → Bool
  conn : Index → ℕ
  gen : Index → BitVec 32
  partner : Index → Option Index
  tag : ℕ → Index × BitVec 32
  accepted : ℕ
  games : List (ℕ × ℕ)

/-- The matches that have been made, between which connections, the last one last. -/
def gamesOf (trace : List Act) : List (ℕ × ℕ) :=
  trace.filterMap fun a => match a with
    | .matched host guest _ => some (host, guest)
    | _ => none

/-- The rack of a state. -/
def State.rack (s : State) : Rack :=
  { order := s.order, inUse := fun i => (s.clients i).inUse, dead := fun i => (s.clients i).dead
    conn := s.conn, gen := fun i => (s.clients i).gen, partner := fun i => (s.clients i).partner
    tag := s.tag, accepted := s.accepted, games := gamesOf s.trace }

namespace Rack

/-- A client goes; its own link stays. -/
def leave (r : Rack) (i : Index) : Rack :=
  if r.dead i then r else
  { r with
    order := r.order.erase i, dead := Function.update r.dead i true
    partner := match r.partner i with
      | some p => Function.update r.partner p none
      | none => r.partner }

/-- Two clients meet. -/
def meet (r : Rack) (host guest : Index) : Rack :=
  { r with
    partner := Function.update (Function.update r.partner host (some guest)) guest (some host)
    games := r.games ++ [(r.conn host, r.conn guest)] }

/-- A connection is given a slot. -/
def seat (r : Rack) (i : Index) : Rack :=
  { r with
    order := r.order ++ [i], inUse := Function.update r.inUse i true
    dead := Function.update r.dead i false, conn := Function.update r.conn i r.accepted
    partner := Function.update r.partner i none
    tag := Function.update r.tag r.accepted (i, r.gen i), accepted := r.accepted + 1 }

/-- The slots of the dead are freed. -/
def reap (r : Rack) : Rack :=
  { r with
    inUse := fun i => r.inUse i && !r.dead i
    gen := fun i => if r.inUse i ∧ r.dead i then r.gen i + 1 else r.gen i }

/-- The index lists the slots whose clients are connected, each once, and a connection has at most
    one slot, whose tag it has. -/
structure Sound (r : Rack) : Prop where
  nodup : r.order.Nodup
  mem_order : ∀ i, i ∈ r.order ↔ r.inUse i = true ∧ r.dead i = false
  inj : ∀ i j, r.inUse i = true → r.inUse j = true → r.conn i = r.conn j → i = j
  known : ∀ i, r.inUse i = true → r.conn i < r.accepted
  tag : ∀ i, r.inUse i = true → r.tag (r.conn i) = (i, r.gen i)

variable {r : Rack} {i j : Index}

theorem leave_dead (h : r.dead i = true) : r.leave i = r := by rw [leave, if_pos h]

theorem leave_live (h : r.dead i = false) : (r.leave i).order = r.order.erase i ∧
    (r.leave i).dead = Function.update r.dead i true ∧
    (r.leave i).partner = match r.partner i with
      | some p => Function.update r.partner p none
      | none => r.partner := by
  rw [leave, h, if_neg Bool.false_ne_true]
  exact ⟨rfl, rfl, rfl⟩

/-- What a drop does not touch. -/
theorem leave_fixed (r : Rack) (i : Index) : (r.leave i).inUse = r.inUse ∧
    (r.leave i).conn = r.conn ∧ (r.leave i).gen = r.gen ∧ (r.leave i).tag = r.tag ∧
    (r.leave i).accepted = r.accepted ∧ (r.leave i).games = r.games := by
  simp only [leave]
  split
  · exact ⟨rfl, rfl, rfl, rfl, rfl, rfl⟩
  · exact ⟨rfl, rfl, rfl, rfl, rfl, rfl⟩

theorem Sound.leave (h : r.Sound) (i : Index) : (r.leave i).Sound := by
  cases hdead : r.dead i with
  | true => rwa [leave_dead hdead]
  | false =>
    obtain ⟨horder, hdead', -⟩ := leave_live hdead
    obtain ⟨hinUse, hconn, hgen, htag, haccepted, -⟩ := r.leave_fixed i
    refine ⟨horder ▸ h.nodup.erase i, fun j => ?_, ?_, ?_, ?_⟩
    · rw [horder, hdead', hinUse, List.Nodup.mem_erase_iff h.nodup, h.mem_order]
      by_cases hj : j = i
      · simp [hj]
      · simp [hj]
    · rw [hinUse, hconn]
      exact h.inj
    · rw [hinUse, hconn, haccepted]
      exact h.known
    · rw [hinUse, hconn, htag, hgen]
      exact h.tag

theorem Sound.meet (h : r.Sound) (host guest : Index) : (r.meet host guest).Sound :=
  ⟨h.nodup, h.mem_order, h.inj, h.known, h.tag⟩

theorem Sound.seat (h : r.Sound) (hi : r.inUse i = false) : (r.seat i).Sound := by
  have hne : ∀ j, r.inUse j = true → j ≠ i := by
    rintro j hj rfl
    rw [hi] at hj
    cases hj
  have hnot : i ∉ r.order := by
    intro hmem
    have := ((h.mem_order i).mp hmem).1
    rw [hi] at this
    cases this
  have hin : ∀ j, (r.seat i).inUse j = true → j = i ∨ j ≠ i ∧ r.inUse j = true := by
    intro j hj
    by_cases hji : j = i
    · exact .inl hji
    · refine .inr ⟨hji, ?_⟩
      rwa [show (r.seat i).inUse j = r.inUse j from Function.update_of_ne hji ..] at hj
  have hconn : ∀ j, j ≠ i → (r.seat i).conn j = r.conn j := fun j hj => Function.update_of_ne hj ..
  have hself : (r.seat i).conn i = r.accepted := Function.update_self ..
  refine ⟨?_, ?_, ?_, ?_, ?_⟩
  · refine List.nodup_append.mpr ⟨h.nodup, List.nodup_singleton i, ?_⟩
    rintro j hj k hk rfl
    exact hnot (List.mem_singleton.mp hk ▸ hj)
  · intro j
    simp only [Rack.seat, List.mem_append, List.mem_singleton, Function.update_apply]
    by_cases hj : j = i
    · simp [hj]
    · simp [hj, h.mem_order]
  · intro j k hj hk heq
    rcases hin j hj with rfl | ⟨hji, hj'⟩
    · rcases hin k hk with rfl | ⟨hki, hk'⟩
      · rfl
      · rw [hself, hconn k hki] at heq
        exact absurd heq.symm (Nat.ne_of_lt (h.known k hk'))
    · rcases hin k hk with rfl | ⟨hki, hk'⟩
      · rw [hself, hconn j hji] at heq
        exact absurd heq (Nat.ne_of_lt (h.known j hj'))
      · rw [hconn j hji, hconn k hki] at heq
        exact h.inj j k hj' hk' heq
  · intro j hj
    change (r.seat i).conn j < r.accepted + 1
    rcases hin j hj with rfl | ⟨hji, hj⟩
    · rw [hself]
      exact Nat.lt_succ_self _
    · rw [hconn j hji]
      exact Nat.lt_succ_of_lt (h.known j hj)
  · intro j hj
    change Function.update r.tag r.accepted (i, r.gen i) ((r.seat i).conn j) = (j, r.gen j)
    rcases hin j hj with rfl | ⟨hji, hj⟩
    · rw [hself, Function.update_self]
    · rw [hconn j hji, Function.update_of_ne (Nat.ne_of_lt (h.known j hj)), h.tag j hj]

theorem reap_inUse : r.reap.inUse i = true ↔ r.inUse i = true ∧ r.dead i = false := by
  simp [reap]

theorem Sound.reap (h : r.Sound) : r.reap.Sound where
  nodup := h.nodup
  mem_order i :=
    (h.mem_order i).trans ⟨fun hi => ⟨reap_inUse.mpr hi, hi.2⟩, fun hi => reap_inUse.mp hi.1⟩
  inj i j hi hj := h.inj i j (reap_inUse.mp hi).1 (reap_inUse.mp hj).1
  known i hi := h.known i (reap_inUse.mp hi).1
  tag i hi := by
    obtain ⟨hi, hdead⟩ := reap_inUse.mp hi
    have hgen : r.reap.gen i = r.gen i := if_neg fun h => by simp [hdead] at h
    rw [hgen]
    exact h.tag i hi

end Rack

/-! ### What each function does to the rack -/

/-- What the rack sees of a slot. -/
def Slot.place (c : Slot) : Bool × Bool × ℕ × BitVec 32 × Option Index :=
  (c.inUse, c.dead, c.conn, c.gen, c.partner)

theorem gamesOf_append (as bs : List Act) : gamesOf (as ++ bs) = gamesOf as ++ gamesOf bs :=
  List.filterMap_append ..

namespace State

@[simp] theorem rack_say (s : State) (l : Line) : (s.say l).rack = s.rack := rfl
@[simp] theorem rack_lobbyUpdateCount (s : State) : s.lobbyUpdateCount.rack = s.rack := rfl
@[simp] theorem rack_stats (s : State) (t : Stats) : { s with stats := t }.rack = s.rack := rfl
@[simp] theorem rack_random (s : State) (f : ℕ → ℕ) : { s with random := f }.rack = s.rack := rfl

/-- At the start no slot is in use. -/
theorem sound_fresh (delay variation : ℤ) (lobby : Option ℕ) (random : ℕ → ℕ) :
    (fresh delay variation lobby random).rack.Sound where
  nodup := List.nodup_nil
  mem_order _ := iff_of_false List.not_mem_nil fun h => absurd h.1 Bool.false_ne_true
  inj _ _ h := absurd h Bool.false_ne_true
  known _ h := absurd h Bool.false_ne_true
  tag _ h := absurd h Bool.false_ne_true

theorem rack_note {a : Act} (ha : gamesOf [a] = []) (s : State) : (s.note a).rack = s.rack := by
  rw [rack, note]
  dsimp only
  rw [gamesOf_append, ha, List.append_nil]
  rfl

theorem rack_clients (s : State) {clients : Index → Slot}
    (h : ∀ j, (clients j).place = (s.clients j).place) :
    { s with clients := clients }.rack = s.rack :=
  congrArg (fun f : Index → Bool × Bool × ℕ × BitVec 32 × Option Index =>
    ({ order := s.order, inUse := fun i => (f i).1, dead := fun i => (f i).2.1
       conn := fun i => (f i).2.2.1, gen := fun i => (f i).2.2.2.1
       partner := fun i => (f i).2.2.2.2, tag := s.tag, accepted := s.accepted
       games := gamesOf s.trace } : Rack)) (funext h)

/-- What the rack does not see of a slot may change freely. -/
theorem rack_upd_quiet (s : State) (i : Index) (f : Slot → Slot)
    (hf : (f (s.clients i)).place = (s.clients i).place) : (s.upd i f).rack = s.rack :=
  rack_clients s fun j => clients_upd_quiet s i j f Slot.place hf

@[simp] theorem rack_send (s : State) (i : Index) (data : List Byte) :
    (s.send i data).rack = s.rack := by
  refine (rack_note rfl _).trans (rack_upd_quiet s i _ ?_)
  split
  · rfl
  · rfl

@[simp] theorem rack_sendFrame (s : State) (i : Index) (ftype : Byte) (payload : List Byte) :
    (s.sendFrame i ftype payload).rack = s.rack := rack_send ..

@[simp] theorem rack_nameSet (s : State) (name : List Byte) (i : Index) :
    (s.nameSet name i).rack = s.rack := by
  obtain ⟨names, heq⟩ := s.nameSet_names name i
  rw [heq]
  rfl

@[simp] theorem rack_unname (s : State) (i : Index) : (s.unname i).rack = s.rack := by
  obtain ⟨names, heq⟩ := s.unname_names i
  rw [heq]
  rfl

@[simp] theorem rack_pairCrc (s : State) (i : Index) (tick crc : Byte) :
    (s.pairCrc i tick crc).rack = s.rack := by
  obtain ⟨clients, stats, log, heq, hquiet⟩ := s.pairCrc_frame i tick crc
  rw [heq]
  exact rack_clients s fun j => hquiet Slot.place (fun _ _ _ _ => rfl) j

/-- A field of every slot, after an assignment to one. -/
theorem field_upd {β : Type} (s : State) (i : Index) (f : Slot → Slot) (g : Slot → β) :
    (fun j => g ((s.upd i f).clients j)) =
      Function.update (fun j => g (s.clients j)) i (g (f (s.clients i))) := by
  funext j
  rw [clients_upd, Function.update_apply]
  split
  · rfl
  · rfl

theorem rack_upd (s : State) (i : Index) (f : Slot → Slot) :
    (s.upd i f).rack = { s.rack with
      inUse := Function.update s.rack.inUse i (f (s.clients i)).inUse
      dead := Function.update s.rack.dead i (f (s.clients i)).dead
      conn := Function.update s.rack.conn i (f (s.clients i)).conn
      gen := Function.update s.rack.gen i (f (s.clients i)).gen
      partner := Function.update s.rack.partner i (f (s.clients i)).partner } := by
  have hconn : (s.upd i f).conn = Function.update s.conn i (f (s.clients i)).conn :=
    field_upd s i f Slot.conn
  simp only [rack, field_upd, hconn]
  rfl

theorem update_field {β : Type} (s : State) (i : Index) (g : Slot → β) :
    Function.update (fun j => g (s.clients j)) i (g (s.clients i)) = fun j => g (s.clients j) :=
  Function.update_eq_self i _

theorem rack_upd_partner (s : State) (i : Index) (p : Option Index) (role : Slot → Option Byte) :
    (s.upd i fun c => { c with partner := p, role := role c }).rack =
      { s.rack with partner := Function.update s.rack.partner i p } := by
  have hconn : Function.update s.conn i (s.clients i).conn = s.conn := update_field s i Slot.conn
  simp only [rack_upd]
  simp only [rack, update_field, hconn]

theorem rack_unlink (s : State) (i : Index) : (s.unlink i).rack = { s.rack with
    partner := match s.rack.partner i with
      | some p => Function.update s.rack.partner p none
      | none => s.rack.partner } := by
  have hpartner : s.rack.partner i = (s.clients i).partner := rfl
  simp only [unlink]
  rw [hpartner]
  cases (s.clients i).partner with
  | none => rfl
  | some p =>
    rw [rack_say, rack_sendFrame, rack_upd_partner s p none Slot.role]

@[simp] theorem rack_drop (s : State) (i : Index) : (s.drop i).rack = s.rack.leave i := by
  have hdead : s.rack.dead i = (s.clients i).dead := rfl
  simp only [drop, Rack.leave]
  rw [hdead]
  split
  · rfl
  · have hmark : ((s.note (.dropped (s.conn i))).upd i fun c => { c with dead := true }).rack =
        { s.rack with dead := Function.update s.rack.dead i true } := by
      have hconn : Function.update s.conn i (s.clients i).conn = s.conn := update_field s i Slot.conn
      rw [rack_upd, rack_note rfl]
      simp only [rack, note_clients, update_field, hconn]
    have hroom := rack_unlink
      (((s.note (.dropped (s.conn i))).upd i fun c => { c with dead := true }).unname i) i
    rw [rack_unname, hmark] at hroom
    dsimp only at hroom ⊢
    rw [rack_lobbyUpdateCount]
    have horder : ∀ t : State, (t.orderDel i).rack = { t.rack with order := t.rack.order.erase i } :=
      fun _ => rfl
    split
    · rw [rack_say, horder, hroom]
    · rw [horder, hroom]

theorem rack_link (s : State) (host guest : Index) : (s.link host guest).rack = { s.rack with
    partner := Function.update (Function.update s.rack.partner host (some guest)) guest
      (some host) } := by
  simp only [link]
  rw [rack_upd_partner _ guest (some host) fun _ => some 1,
    rack_upd_partner s host (some guest) fun _ => some 0]

@[simp] theorem rack_startOne (s : State) (me them : Index) (seed : ℕ) :
    (s.startOne me them seed).rack = s.rack := by
  simp only [startOne]
  rw [rack_sendFrame]
  exact rack_upd_quiet s me (fun c => { c with crc := [] }) rfl

theorem rack_pair (s : State) (host guest : Index) :
    (s.pair host guest).rack = s.rack.meet host guest := by
  simp only [pair]
  rw [rack_lobbyUpdateCount, rack_say, rack_stats, rack_startOne, rack_startOne, rack_link, rack,
    note, nextSeed]
  dsimp only
  rw [gamesOf_append]
  rfl

theorem waiting_eq {s t : State} (hclients : t.clients = s.clients) (horder : t.order = s.order)
    (i : Index) : t.waiting i = s.waiting i := by
  have holder : t.older i = s.older i := by
    funext other o
    simp only [older, hclients]
  rw [waiting, waiting, holder, horder]

/-- A client does not wait for itself. -/
theorem waiting_upd (s : State) (i : Index) (f : Slot → Slot)
    (hborn : (f (s.clients i)).born = (s.clients i).born) :
    (s.upd i f).waiting i = s.waiting i := by
  have holder : (s.upd i f).older i = s.older i := by
    funext other o
    simp only [older]
    by_cases ho : o = i
    · rw [if_pos (.inl ho), if_pos (.inl ho)]
    · simp only [clients_upd_quiet s i _ f Slot.born hborn]
      rw [clients_upd, if_neg ho]
  rw [waiting, waiting, holder]
  rfl

/-- Who could be paired with a client: connected, named, free, and another. -/
def Waits (s : State) (i o : Index) : Prop :=
  o ∈ s.order ∧ o ≠ i ∧ (s.clients o).name ≠ none ∧ (s.clients o).partner = none

theorem older_waits {s : State} {i o b : Index} {other : Option Index} (ho : o ∈ s.order)
    (hother : ∀ b ∈ other, s.Waits i b) (hb : b ∈ s.older i other o) : s.Waits i b := by
  simp only [older] at hb
  split at hb
  · exact hother b hb
  · next hskip =>
    have hwaits : s.Waits i o := by
      refine ⟨ho, fun h => hskip (.inl h), fun h => hskip (.inr (.inl h)), ?_⟩
      by_contra hp
      exact hskip (.inr (.inr hp))
    split at hb
    · exact Option.some.inj hb ▸ hwaits
    · split at hb
      · exact Option.some.inj hb ▸ hwaits
      · exact hother b hb

theorem waiting_waits {s : State} {i host : Index} (h : s.waiting i = some host) :
    s.Waits i host := by
  have hfold : ∀ (os : List Index) (other : Option Index), (∀ b ∈ other, s.Waits i b) →
      os ⊆ s.order → ∀ b ∈ os.foldl (s.older i) other, s.Waits i b := by
    intro os
    induction os with
    | nil => exact fun other hother _ => hother
    | cons o os ih =>
      intro other hother hos
      refine ih _ ?_ fun b hb => hos (List.mem_cons_of_mem _ hb)
      exact fun b hb => older_waits (hos List.mem_cons_self) hother hb
  exact hfold s.order none (fun _ h => by cases h) (List.Subset.refl _) host h

/-- Whether a HELLO will be accepted, as far as it can tell itself. -/
def helloOk (payload : List Byte) : Bool :=
  if payload.length < 3 ∨ payload.head? ≠ some proto then false
  else if payload.getD 1 0 = tvSecam ∨
    payload.getD 1 0 ≠ tvNtsc ∧ payload.getD 1 0 ≠ tvPal then false
  else goodName (helloName payload)

/-- The frames that look for a partner: JOIN, and a HELLO there is a name for. -/
def Seeks (s : State) (ftype : Byte) (payload : List Byte) : Prop :=
  ftype = tJoin ∨ ftype = tHello ∧ helloOk payload = true ∧
    (rename s.byName renameGuard (helloName payload) s.random).2.1 = true

instance (s : State) (ftype : Byte) (payload : List Byte) : Decidable (s.Seeks ftype payload) :=
  inferInstanceAs (Decidable (_ ∨ _))

/-- What a frame does to the rack. -/
inductive Handles (s : State) (i : Index) (ftype : Byte) (payload : List Byte) : Rack → Prop
  | quiet : Handles s i ftype payload s.rack
  | gone : Handles s i ftype payload (s.rack.leave i)
  | met (host : Index) : s.Seeks ftype payload → s.waiting i = some host →
      Handles s i ftype payload (s.rack.meet host i)

/-- A frame neither takes a slot nor frees one. -/
theorem Handles.inUse {s : State} {i : Index} {ftype : Byte} {payload : List Byte} {r : Rack}
    (h : s.Handles i ftype payload r) : r.inUse = s.rack.inUse := by
  cases h with
  | quiet => rfl
  | gone => exact (s.rack.leave_fixed i).1
  | met _ _ _ => rfl

/-- Looking for a partner. -/
inductive Pairs (s : State) (i : Index) : Rack → Prop
  | alone : Pairs s i s.rack
  | met (host : Index) : s.waiting i = some host → Pairs s i (s.rack.meet host i)

theorem tryPair_pairs (s : State) (i : Index) : s.Pairs i (s.tryPair i).rack := by
  simp only [tryPair]
  cases hw : s.waiting i with
  | none => exact .alone
  | some host => exact rack_pair s host i ▸ .met host hw

theorem Pairs.congr {s t : State} {i : Index} {r : Rack} (h : t.Pairs i r) (hrack : t.rack = s.rack)
    (hwaiting : t.waiting i = s.waiting i) : s.Pairs i r := by
  cases h with
  | alone => exact hrack ▸ .alone
  | met host hw => exact hrack ▸ .met host (hwaiting.symm.trans hw)

theorem Pairs.handles {s : State} {i : Index} {r : Rack} {ftype : Byte} {payload : List Byte}
    (h : s.Pairs i r) (hseeks : s.Seeks ftype payload) : s.Handles i ftype payload r := by
  cases h with
  | alone => exact .quiet
  | met host hw => exact .met host hseeks hw

theorem register_rack (s : State) (i : Index) (tv : Byte) (name : List Byte) :
    (s.register i tv name).rack = s.rack := by
  simp only [register]
  rw [rack_lobbyUpdateCount, rack_say, rack_nameSet, rack_note rfl]
  exact rack_upd_quiet s i (fun c => { c with name := some name }) rfl

theorem register_order (s : State) (i : Index) (tv : Byte) (name : List Byte) :
    (s.register i tv name).order = (s.upd i fun c => { c with name := some name }).order :=
  congrArg Rack.order (rack_nameSet ..)

/-- A HELLO that has been accepted: there is no name for it, or its client looks for a partner. -/
theorem welcome_rack (s : State) (i : Index) (tv : Byte) (name : List Byte) :
    (s.welcome i tv name).rack = s.rack.leave i ∨
      (rename s.byName renameGuard name s.random).2.1 = true ∧
        s.Pairs i (s.welcome i tv name).rack := by
  simp only [welcome]
  generalize rename s.byName renameGuard name s.random = out
  obtain ⟨name', free, random⟩ := out
  dsimp only
  split
  · next hfree =>
    refine .inr ⟨hfree, (tryPair_pairs _ i).congr ?_ ?_⟩
    · rw [register_rack, rack_random]
    · refine (waiting_eq (register_clients ..) (register_order ..) i).trans ?_
      exact (waiting_upd _ i _ rfl).trans (waiting_eq rfl rfl i)
  · rw [rack_drop, rack_say, rack_random]
    exact .inl rfl

theorem onHello_handles (s : State) (i : Index) (payload : List Byte) :
    s.Handles i tHello payload (s.onHello i payload).rack := by
  have htv : (s.upd i fun c => { c with tv := some (payload.getD 1 0) }).rack = s.rack :=
    rack_upd_quiet s i _ rfl
  rw [onHello]
  split
  · rw [rack_drop, rack_say]
    exact .gone
  · next hver =>
    dsimp only
    split
    · rw [rack_drop, rack_say, htv]
      exact .gone
    · next hsecam =>
      split
      · rw [rack_drop, rack_say, htv]
        exact .gone
      · next hstd =>
        split
        · next hgood =>
          have hok : helloOk payload = true := by
            rw [helloOk, if_neg hver, if_neg (by tauto), hgood]
          have hwaiting := waiting_upd s i
            (fun c => { c with tv := some (payload.getD 1 0) }) rfl
          rcases welcome_rack (s.upd i fun c => { c with tv := some (payload.getD 1 0) }) i
            (payload.getD 1 0) (helloName payload) with h | ⟨hfree, h⟩
          · rw [h, htv]
            exact .gone
          · exact (h.congr htv hwaiting).handles (.inr ⟨rfl, hok, hfree⟩)
        · rw [rack_drop, rack_say, htv]
          exact .gone

theorem rack_forward (s : State) (i : Index) (ftype : Byte) (payload : List Byte) :
    (s.forward i ftype payload).rack = s.rack := by
  simp only [forward]
  split
  · rfl
  · exact rack_sendFrame ..

/-- What handling a frame does to the rack. -/
theorem handle_handles (s : State) (i : Index) (ftype : Byte) (payload : List Byte) :
    s.Handles i ftype payload (s.handle i ftype payload).rack := by
  have hnote : (s.note (.handled (s.conn i) ftype payload)).rack = s.rack := rack_note rfl s
  have hwaiting : (s.note (.handled (s.conn i) ftype payload)).waiting i = s.waiting i :=
    waiting_eq rfl rfl i
  simp only [handle]
  split
  · have hrack : (((s.note (.handled (s.conn i) ftype payload)).forward i ftype
        payload).logCrc i payload).rack = s.rack :=
      (rack_pairCrc ..).trans ((rack_forward ..).trans hnote)
    split
    · exact hrack ▸ .quiet
    · rw [rack_forward, hnote]
      exact .quiet
  · split
    · next h =>
      subst h
      have hhello := onHello_handles (s.note (.handled (s.conn i) tHello payload)) i payload
      generalize ((s.note (.handled (s.conn i) tHello payload)).onHello i payload).rack = r at hhello
      cases hhello with
      | quiet => exact hnote ▸ .quiet
      | gone => exact hnote ▸ .gone
      | met host hseeks hw => exact hnote ▸ .met host hseeks (hwaiting.symm.trans hw)
    · split
      · rw [sendLobby, rack_sendFrame, hnote]
        exact .quiet
      · split
        · next h => exact ((tryPair_pairs _ i).congr hnote hwaiting).handles (.inl h)
        · split
          · rw [rack_sendFrame, hnote]
            exact .quiet
          · split
            · rw [rack_drop, hnote]
              exact .gone
            · rw [rack_say, hnote]
              exact .quiet

end State
end VO.Port
