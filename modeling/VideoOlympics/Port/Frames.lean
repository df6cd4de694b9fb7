import VideoOlympics.Port.Meeting
import Mathlib.Data.Fintype.Card

/-! A frame, handled in both relays. What a console says is read in the same way, and answered, passed
    on and refused alike. -/

namespace VO.Relay

/-- What does not look at the checksums. -/
def Client.CrcBlind {β : Type} (g : Client → β) : Prop :=
  ∀ (o : Client) (crc : List (ℕ × Byte)) (lap : ℕ) (last : Option Byte),
    g { o with crc := crc, lap := lap, lastTick := last } = g o

namespace Server

theorem crc_quiet {β : Type} (s : Server) (c d : ℕ) (f : Client → List (ℕ × Byte)) {g : Client → β}
    (hg : Client.CrcBlind g) : g ((s.upd c fun o => { o with crc := f o }).obj d) = g (s.obj d) :=
  obj_upd_quiet s c d _ g (hg (s.obj c) _ (s.obj c).lap (s.obj c).lastTick)

/-- Checksums are noted, counted and written to the log, and nothing else is done. -/
theorem pairCrc_frame (s : Server) (c : ℕ) (tick crc : Byte) :
    ∃ obj stats log, s.pairCrc c tick crc = { s with obj := obj, stats := stats, log := log } ∧
      ∀ {β : Type} (g : Client → β), Client.CrcBlind g → ∀ d, g (obj d) = g (s.obj d) := by
  have hnote : ∀ {β : Type} (g : Client → β), Client.CrcBlind g → ∀ d,
      g ((s.upd c fun o => { o with
        lap := lapOf (s.obj c) tick, lastTick := some tick
        crc := dictSet o.crc (lapOf (s.obj c) tick * 256 + tick.toNat) crc }).obj d) = g (s.obj d) :=
    fun g hg d => obj_upd_quiet s c d _ g (hg ..)
  simp only [pairCrc]
  split
  · exact ⟨_, _, _, rfl, fun g hg d =>
      (crc_quiet _ c d (fun o => o.crc.drop (o.crc.length - 8)) hg).trans (hnote g hg d)⟩
  · next p _ =>
    split
    · exact ⟨_, _, _, rfl, fun g hg d =>
        (crc_quiet _ c d (fun o => o.crc.drop (o.crc.length - 8)) hg).trans (hnote g hg d)⟩
    · split
      · exact ⟨_, _, _, rfl, fun g hg d =>
          (crc_quiet _ p d (fun o => o.crc.filter fun e =>
            e.1 != lapOf (s.obj c) tick * 256 + tick.toNat) hg).trans (hnote g hg d)⟩
      · exact ⟨_, _, _, rfl, fun g hg d =>
          (crc_quiet _ p d (fun o => o.crc.filter fun e =>
            e.1 != lapOf (s.obj c) tick * 256 + tick.toNat) hg).trans (hnote g hg d)⟩

end Server
end VO.Relay

namespace VO.Port
open Relay

namespace Mirrors

variable {s s' : Server} {c c' : State} {i p : Index}

/-! ### Names -/

/-- A name that is not taken is entered for the client that has it. -/
theorem enter (h : Mirrors s c) (hi : i ∈ c.order) {name : List Byte}
    (hname : (c.clients i).name = some name) (hnew : State.nameTaken c.byName name = false) :
    Mirrors { s with byName := s.byName ++ [(decode name, c.conn i)] }
      { c with byName := c.byName ++ [⟨name, i, (c.clients i).gen⟩] } where
  delay := h.delay
  variation := h.variation
  random := h.random
  trace := h.trace
  next := h.next
  clients := h.clients
  byName := by
    dsimp only
    rw [h.byName, List.map_append]
    rfl
  distinct := by
    rw [List.map_append, List.map_singleton]
    refine List.nodup_append.mpr ⟨h.distinct, List.nodup_singleton name, ?_⟩
    intro a ha b hb
    obtain ⟨e, he, rfl⟩ := List.mem_map.mp ha
    rw [List.mem_singleton.mp hb]
    exact nameTaken_iff.mp hnew e he
  inj := h.inj
  known := h.known
  listed := h.listed
  entry e he := by
    rcases List.mem_append.mp he with he | he
    · exact h.entry e he
    · rw [List.mem_singleton.mp he]
      exact ⟨hi, rfl, hname⟩
  proper := h.proper
  same := h.same
  link := h.link
  linked := h.linked

theorem nameSet_new {c : State} {name : List Byte} (hnew : State.nameTaken c.byName name = false)
    (hroom : c.byName.length < nameSlots) (i : Index) : c.nameSet name i =
      { c with byName := c.byName ++ [⟨name, i, (c.clients i).gen⟩] } := by
  have hnone : c.byName.findIdx? (·.name = name) = none := by
    rw [List.findIdx?_eq_none_iff]
    intro e he
    exact decide_eq_false (nameTaken_iff.mp hnew e he)
  rw [State.nameSet, hnone]
  dsimp only
  rw [if_neg (Nat.not_le_of_lt hroom)]

theorem register (h : Mirrors s c) (hi : i ∈ c.order) (hunnamed : (c.clients i).name = none)
    {name : List Byte} (hname : Proper name) (hnew : State.nameTaken c.byName name = false)
    (hroom : c.byName.length < nameSlots) (tv : Byte) (random : ℕ → ℕ) :
    Mirrors (s.register (c.conn i) tv (decode name) random)
      ({ c with random := random }.register i tv name) := by
  have huse := h.listed i hi
  obtain ⟨haddr, hrx, htx, -, hrole, hborn⟩ := h.same i huse
  have hnamed := ((h.draw random).assign (i := i) (f := fun o => { o with name := some (decode name) })
    (g := fun c => { c with name := some name }) huse rfl rfl rfl
    (fun _ hn => Option.some.inj hn ▸ hname) ?_ ⟨haddr, hrx, htx, rfl, hrole, hborn⟩ (h.link i huse)
    (h.linked i huse)).note (.named (c.conn i) (decode name))
  · have hconn : ((({ c with random := random } : State).upd i fun c =>
        { c with name := some name }).note (.named (c.conn i) (decode name))).conn i = c.conn i :=
      State.clients_upd_quiet _ i i (fun c => { c with name := some name }) Slot.conn rfl
    have hset := nameSet_new (c := (({ c with random := random } : State).upd i fun c =>
      { c with name := some name }).note (.named (c.conn i) (decode name))) hnew hroom i
    have hentered := hnamed.enter (i := i) hi ?_ hnew
    · rw [hconn, ← hset] at hentered
      exact hentered.quiet _ _ _ _ _ _ _
    · rw [State.note_clients, State.clients_upd, if_pos rfl]
  · intro e he hei
    have := (h.entry e he).2.2
    rw [hei, hunnamed] at this
    cases this

/-- A HELLO that has been accepted, of a client that has no name yet. -/
theorem welcome (h : Mirrors s c) (hi : i ∈ c.order) (hunnamed : (c.clients i).name = none)
    {name : List Byte} (hname : Proper name) (hroom : c.byName.length < nameSlots) {k : ℕ}
    (hk : k ≤ renameGuard) {tv : Byte}
    (hok : s.welcome k (c.conn i) tv (decode name) = .ok s') (hfits : Fits s') :
    Mirrors s' (c.welcome i tv name) := by
  have hfree : ∀ name, Proper name → ((s.byName.lookup (decode name)).isNone ↔
      State.nameTaken c.byName name = false) := by
    intro name hname
    rw [h.lookup hname, Option.isNone_map, Option.isNone_iff_eq_none, List.find?_eq_none,
      nameTaken_iff]
    simp
  simp only [Server.welcome] at hok
  cases hrename : Server.rename s.byName k (decode name) s.random with
  | none =>
    rw [hrename] at hok
    cases hok
  | some found =>
    obtain ⟨name', random'⟩ := found
    rw [hrename] at hok
    have hmono := Server.rename_mono hk (by rw [hrename]; exact Option.some_ne_none _)
    obtain ⟨name'', hproper, rfl, hnew, hrename'⟩ := rename_eq hfree hname (hmono.trans hrename)
    rw [h.random] at hrename'
    rw [State.welcome, hrename']
    dsimp only
    rw [if_pos rfl]
    have hregistered := h.register hi hunnamed hproper hnew hroom tv random'
    have hconn : (({ c with random := random' } : State).register i tv name'').conn i = c.conn i :=
      (congrArg (fun f : Index → Slot => (f i).conn) (State.register_clients ..)).trans
        (State.clients_upd_quiet _ i i (fun c => { c with name := some name'' }) Slot.conn rfl)
    have huse : ((({ c with random := random' } : State).register i tv name'').clients i).inUse =
        true :=
      (congrArg (fun f : Index → Slot => (f i).inUse) (State.register_clients ..)).trans
        ((State.clients_upd_quiet _ i i (fun c => { c with name := some name'' }) Slot.inUse
          rfl).trans (h.listed i hi))
    exact hregistered.tryPair huse (by rw [hconn]; exact hok) hfits

theorem onHello (h : Mirrors s c) (hs : c.rack.Sound) (hi : i ∈ c.order)
    (hunnamed : (c.clients i).name = none) (hroom : c.byName.length < nameSlots) {k : ℕ}
    (hk : k ≤ renameGuard) {payload : List Byte} (hlen : payload.length ≤ 199)
    (hok : s.onHello k (c.conn i) payload = .ok s') (hfits : Fits s') :
    Mirrors s' (c.onHello i payload) := by
  have huse := h.listed i hi
  simp only [Server.onHello] at hok
  rw [State.onHello]
  split at hok
  · next hver =>
    rw [if_pos hver]
    rw [← Except.ok.inj hok] at hfits ⊢
    exact h.logged_drop hs huse _ _ _ _ hfits
  · next hver =>
    rw [if_neg hver]
    dsimp only at hok ⊢
    obtain ⟨haddr, hrx, htx, hname, hrole, hborn⟩ := h.same i huse
    have htv : Mirrors (s.upd (c.conn i) fun o => { o with tv := some (payload.getD 1 0) })
        (c.upd i fun c => { c with tv := some (payload.getD 1 0) }) :=
      h.upd_unlinked huse rfl rfl ⟨haddr, hrx, htx, hname, hrole, hborn⟩ rfl
    have hkeep : ∀ {β : Type} (g : Slot → β), (∀ (c : Slot) (tv : Option Byte),
        g { c with tv := tv } = g c) →
        g ((c.upd i fun c => { c with tv := some (payload.getD 1 0) }).clients i) =
          g (c.clients i) :=
      fun g hg => State.clients_upd_quiet c i i _ g (hg ..)
    have hconn := hkeep Slot.conn fun _ _ => rfl
    have huse' := (hkeep Slot.inUse fun _ _ => rfl).trans huse
    have hunnamed' := (hkeep Slot.name fun _ _ => rfl).trans hunnamed
    have hs' : (c.upd i fun c => { c with tv := some (payload.getD 1 0) }).rack.Sound := by
      rw [State.rack_upd_quiet c i _ rfl]
      exact hs
    have horder' : i ∈ (c.upd i fun c => { c with tv := some (payload.getD 1 0) }).order := hi
    have hroom' : (c.upd i fun c => { c with tv := some (payload.getD 1 0) }).byName.length <
        nameSlots := hroom
    generalize (c.upd i fun c => { c with tv := some (payload.getD 1 0) }) = c' at *
    rw [show c.conn i = c'.conn i from hconn.symm] at hok htv
    generalize (s.upd (c'.conn i) fun o => { o with tv := some (payload.getD 1 0) }) = t at hok htv
    rw [helloName_eq hlen, goodName_decode] at hok
    split at hok
    · next hsecam =>
      rw [if_pos hsecam]
      rw [← Except.ok.inj hok] at hfits ⊢
      exact htv.logged_drop hs' huse' _ _ _ _ hfits
    · next hsecam =>
      rw [if_neg hsecam]
      split at hok
      · next hstd =>
        rw [if_pos hstd]
        rw [← Except.ok.inj hok] at hfits ⊢
        exact htv.logged_drop hs' huse' _ _ _ _ hfits
      · next hstd =>
        rw [if_neg hstd]
        split at hok
        · next hgood =>
          rw [if_pos hgood]
          exact htv.welcome horder' hunnamed' (Proper.of_good hgood) hroom' hk hok hfits
        · next hbad =>
          rw [if_neg hbad]
          rw [← Except.ok.inj hok] at hfits ⊢
          exact htv.logged_drop hs' huse' _ _ _ _ hfits

/-! ### The other frames -/

theorem entries (h : Mirrors s c) : s.entries = c.entries := by
  rw [Server.entries, State.entries, h.clients, List.filterMap_map]
  refine congrArg (List.take 8) (List.filterMap_congr fun i hi => ?_)
  have huse := h.listed i hi
  rw [Function.comp_apply, (h.same i huse).name, h.link i huse, Option.isSome_map, Option.map_map]
  cases hn : (c.clients i).name with
  | none => rfl
  | some name =>
    have hproper := h.proper i huse name hn
    rw [Option.map_some, Option.map_some, Function.comp_apply, Server.entry,
      encode_decode hproper.ascii, padName, List.take_of_length_le hproper.length]

theorem sendLobby (h : Mirrors s c) (hi : (c.clients i).inUse = true)
    (hok : s.sendLobby (c.conn i) = .ok s') (hfits : Fits s') : Mirrors s' (c.sendLobby i) := by
  obtain rfl := Server.sendLobby_ok hok
  have hlobby : s.room.lobby =
      Relay.frame tLobby (BitVec.ofNat 8 c.entries.length :: c.entries.flatten) := by
    rw [← h.entries]
    rfl
  rw [hlobby] at hfits ⊢
  exact h.send hi _ hfits

theorem forward (h : Mirrors s c) (hi : (c.clients i).inUse = true) {ftype : Byte}
    {payload : List Byte} (hok : s.forward (c.conn i) ftype payload = .ok s') (hfits : Fits s') :
    Mirrors s' (c.forward i ftype payload) := by
  have hlink := h.link i hi
  simp only [State.forward]
  rcases Server.forward_ok hok with ⟨hnone, rfl⟩ | ⟨d, hd, rfl⟩
  · rw [hnone] at hlink
    rw [Option.map_eq_none_iff.mp hlink.symm]
    exact h
  · rw [hd] at hlink
    obtain ⟨p, hp, rfl⟩ := Option.map_eq_some_iff.mp hlink.symm
    have hpad : ljust gamePayload payload = payload ++ List.replicate
        ((if payload.length < gamePayload then gamePayload else payload.length) - payload.length)
        0 := by
      rw [ljust]
      split
      · rfl
      · next hlong =>
        rw [Nat.sub_eq_zero_of_le (Nat.le_of_not_lt hlong), Nat.sub_self]
    rw [hp]
    rw [hpad] at hfits ⊢
    exact h.send (h.linked i hi p hp) _ hfits

/-- Checksums are not compared. -/
theorem recount (h : Mirrors s c) {obj : ℕ → Client} {clients : Index → Slot}
    (hobj : ∀ {β : Type} (g : Client → β), Client.CrcBlind g → ∀ d, g (obj d) = g (s.obj d))
    (hclients : ∀ {β : Type} (g : Slot → β), Slot.CrcBlind g →
      ∀ j, g (clients j) = g (c.clients j)) :
    Mirrors { s with obj := obj } { c with clients := clients } := by
  have hconn : ({ c with clients := clients } : State).conn = c.conn :=
    funext (hclients Slot.conn fun _ _ _ _ => rfl)
  have huse := hclients Slot.inUse fun _ _ _ _ => rfl
  have hgen := hclients Slot.gen fun _ _ _ _ => rfl
  have hname := hclients Slot.name fun _ _ _ _ => rfl
  have hpartner := hclients Slot.partner fun _ _ _ _ => rfl
  refine { delay := h.delay, variation := h.variation, random := h.random, trace := h.trace
           next := h.next, distinct := h.distinct, clients := ?clients, byName := ?byName
           inj := ?inj, known := ?known, listed := ?listed, entry := ?entry, proper := ?proper
           same := ?same, link := ?link, linked := ?linked }
  case clients =>
    rw [hconn]
    exact h.clients
  case byName =>
    rw [hconn]
    exact h.byName
  case inj =>
    intro i j hi hj heq
    rw [hconn] at heq
    exact h.inj i j ((huse i).symm.trans hi) ((huse j).symm.trans hj) heq
  case known =>
    intro i hi
    rw [hconn]
    exact h.known i ((huse i).symm.trans hi)
  case listed =>
    exact fun i hi => (huse i).trans (h.listed i hi)
  case entry =>
    intro e he
    obtain ⟨horder, hg, hn⟩ := h.entry e he
    exact ⟨horder, hg.trans (hgen _).symm, (hname _).trans hn⟩
  case proper =>
    exact fun i hi name hn => h.proper i ((huse i).symm.trans hi) name ((hname i).symm.trans hn)
  case same =>
    intro i hi
    obtain ⟨haddr, hrx, htx, hn, hrole, hborn⟩ := h.same i ((huse i).symm.trans hi)
    rw [hconn]
    exact ⟨(hobj Client.addr (fun _ _ _ _ => rfl) _).trans (haddr.trans
        (hclients Slot.addr (fun _ _ _ _ => rfl) i).symm),
      (hobj Client.rx (fun _ _ _ _ => rfl) _).trans (hrx.trans
        (hclients Slot.rx (fun _ _ _ _ => rfl) i).symm),
      (hobj Client.tx (fun _ _ _ _ => rfl) _).trans (htx.trans (congrArg Buffer.contents
        (hclients Slot.tx (fun _ _ _ _ => rfl) i).symm)),
      (hobj Client.name (fun _ _ _ _ => rfl) _).trans (hn.trans (congrArg (Option.map decode)
        (hname i).symm)),
      (hobj Client.role (fun _ _ _ _ => rfl) _).trans (hrole.trans
        (hclients Slot.role (fun _ _ _ _ => rfl) i).symm),
      (hobj Client.born (fun _ _ _ _ => rfl) _).trans (hborn.trans
        (hclients Slot.born (fun _ _ _ _ => rfl) i).symm)⟩
  case link =>
    intro i hi
    rw [hconn]
    exact (hobj Client.partner (fun _ _ _ _ => rfl) _).trans ((h.link i ((huse i).symm.trans hi)).trans
      (congrArg (Option.map c.conn) (hpartner i).symm))
  case linked =>
    exact fun i hi p hp =>
      (huse p).trans (h.linked i ((huse i).symm.trans hi) p ((hpartner i).symm.trans hp))

theorem logCrc (h : Mirrors s c) (i : Index) (payload : List Byte) :
    Mirrors (s.logCrc (c.conn i) payload) (c.logCrc i payload) := by
  obtain ⟨obj, stats, log, heq, hobj⟩ :=
    s.pairCrc_frame (c.conn i) (payload.getD irTick 0) (payload.getD irCrc 0)
  obtain ⟨clients, stats', log', heq', hclients⟩ :=
    c.pairCrc_frame i (payload.getD irTick 0) (payload.getD irCrc 0)
  rw [Server.logCrc, State.logCrc, heq, heq']
  exact (h.recount hobj hclients).quiet log stats s.lobby s.taken log' stats' c.lobby

/-- The table has room for every connected client. -/
theorem names_fit (h : Mirrors s c) : c.byName.length < nameSlots := by
  have hnames : c.byName.map Entry.name =
      (c.byName.map Entry.index).map fun i => ((c.clients i).name).getD [] := by
    rw [List.map_map]
    refine List.map_congr_left fun e he => ?_
    rw [Function.comp_apply, (h.entry e he).2.2, Option.getD_some]
  have hnodup : (c.byName.map Entry.index).Nodup := (hnames ▸ h.distinct).of_map _
  have hcard := List.Nodup.length_le_card hnodup
  rw [List.length_map, Fintype.card_fin] at hcard
  exact Nat.lt_of_le_of_lt hcard (by decide)

/-- A frame is handled alike; a HELLO, of a client that is here and has no name. -/
theorem handle (h : Mirrors s c) (hs : c.rack.Sound) (hi : (c.clients i).inUse = true) {k : ℕ}
    (hk : k ≤ renameGuard) {ftype : Byte} {payload : List Byte} (hlen : payload.length ≤ 199)
    (hhello : ftype = tHello → i ∈ c.order ∧ (c.clients i).name = none)
    (hok : s.handle k (c.conn i) ftype payload = .ok s') (hfits : Fits s') :
    Mirrors s' (c.handle i ftype payload) := by
  have hnoted := h.note (.handled (c.conn i) ftype payload)
  have hs' : (c.note (.handled (c.conn i) ftype payload)).rack.Sound := by
    rw [State.rack_note rfl]
    exact hs
  simp only [Server.handle] at hok
  rw [State.handle]
  dsimp only at hok ⊢
  split at hok
  · next hrelay =>
    obtain ⟨s₁, hforward, hok⟩ := Server.bind_ok hok
    have hroom : s'.room = s₁.room := by
      rw [← Except.ok.inj hok]
      split
      · exact Server.room_pairCrc ..
      · rfl
    have hfits₁ : Fits s₁ := hfits.of_grows (hroom ▸ .refl _)
    have hforwarded := hnoted.forward hi hforward hfits₁
    have hconn : ((c.note (.handled (c.conn i) ftype payload)).forward i ftype payload).conn =
        c.conn := congrArg Rack.conn (State.rack_forward ..)
    rw [if_pos hrelay]
    split at hok
    · next hcrc =>
      have hlogged := hforwarded.logCrc i payload
      rw [hconn] at hlogged
      rw [if_pos ⟨hcrc.1, Nat.succ_le_of_lt hcrc.2⟩, ← Except.ok.inj hok]
      exact hlogged
    · next hcrc =>
      rw [if_neg fun h => hcrc ⟨h.1, Nat.lt_of_succ_le h.2⟩, ← Except.ok.inj hok]
      exact hforwarded
  · next hrelay =>
    rw [if_neg hrelay]
    split at hok
    · next ht =>
      obtain ⟨horder, hunnamed⟩ := hhello ht
      rw [if_pos ht]
      exact hnoted.onHello hs' horder hunnamed hnoted.names_fit hk hlen hok hfits
    · next ht =>
      rw [if_neg ht]
      split at hok
      · next ht =>
        rw [if_pos ht]
        exact hnoted.sendLobby hi hok hfits
      · next ht =>
        rw [if_neg ht]
        split at hok
        · next ht =>
          rw [if_pos ht]
          exact hnoted.tryPair hi hok hfits
        · next ht =>
          rw [if_neg ht]
          split at hok
          · next ht =>
            rw [if_pos ht]
            rw [← Except.ok.inj hok] at hfits ⊢
            exact hnoted.send hi _ hfits
          · next ht =>
            rw [if_neg ht]
            split at hok
            · next ht =>
              rw [if_pos ht]
              rw [← Except.ok.inj hok] at hfits ⊢
              exact hnoted.drop hs' hi hfits
            · next ht =>
              rw [if_neg ht, ← Except.ok.inj hok]
              exact hnoted.quiet _ _ _ _ _ _ _

end Mirrors
end VO.Port
