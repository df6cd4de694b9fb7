import VideoOlympics.Port.Relay

/-! What an assignment to a slot leaves alone: the other slots, and what is read of its own fields but
    the one assigned to. -/

namespace VO.Port
open Relay

/-- What does not look at the checksums. -/
def Slot.CrcBlind {β : Type} (g : Slot → β) : Prop :=
  ∀ (c : Slot) (crc : List (BitVec 64 × Byte)) (last : Option Byte) (lap : BitVec 64),
    g { c with crc := crc, lastTick := last, lap := lap } = g c

/-- What does not look at anything that a frame may change. -/
def Slot.Fixed {β : Type} (g : Slot → β) : Prop :=
  ∀ (c : Slot) (name : Option (List Byte)) (tv : Option Byte) (partner : Option Index)
    (role : Option Byte) (dead : Bool) (tx : Buffer Byte) (crc : List (BitVec 64 × Byte))
    (last : Option Byte) (lap : BitVec 64),
    g { c with
      name := name, tv := tv, partner := partner, role := role, dead := dead, tx := tx, crc := crc
      lastTick := last, lap := lap } = g c

namespace State

variable {β : Type}

@[simp] theorem note_clients (s : State) (a : Act) : (s.note a).clients = s.clients := rfl

theorem clients_upd (s : State) (i j : Index) (f : Slot → Slot) :
    (s.upd i f).clients j = if j = i then f (s.clients i) else s.clients j := by
  simp only [upd, Function.update_apply]

/-- A field the assignment leaves alone. -/
theorem clients_upd_quiet (s : State) (i j : Index) (f : Slot → Slot) (g : Slot → β)
    (hg : g (f (s.clients i)) = g (s.clients i)) : g ((s.upd i f).clients j) = g (s.clients j) := by
  rw [clients_upd]
  split
  · next hj => rw [hg, hj]
  · rfl

/-- What does not look at the send buffers is not changed by sending. -/
theorem send_quiet (s : State) (i j : Index) (data : List Byte) (g : Slot → β)
    (hg : ∀ (c : Slot) (tx : Buffer Byte), g { c with tx := tx } = g c) :
    g ((s.send i data).clients j) = g (s.clients j) := by
  rw [send, note_clients, clients_upd_quiet s i j _ g]
  split
  · exact hg _ _
  · exact hg _ _

theorem crc_quiet (s : State) (i j : Index) (f : Slot → List (BitVec 64 × Byte)) {g : Slot → β}
    (hg : Slot.CrcBlind g) :
    g ((s.upd i fun c => { c with crc := f c }).clients j) = g (s.clients j) :=
  clients_upd_quiet s i j _ g (hg (s.clients i) _ (s.clients i).lastTick (s.clients i).lap)

/-- Checksums are noted, counted and written to the log, and nothing else is done. -/
theorem pairCrc_frame (s : State) (i : Index) (tick crc : Byte) :
    ∃ clients stats log,
      s.pairCrc i tick crc = { s with clients := clients, stats := stats, log := log } ∧
      ∀ {β : Type} (g : Slot → β), Slot.CrcBlind g → ∀ j, g (clients j) = g (s.clients j) := by
  have hnote : ∀ {β : Type} (g : Slot → β), Slot.CrcBlind g → ∀ j,
      g ((s.upd i fun c => { c with
        lap := lapOf c tick, lastTick := some tick
        crc := crcSet c.crc (keyOf (s.clients i) tick) crc }).clients j) = g (s.clients j) :=
    fun g hg j => clients_upd_quiet s i j _ g (hg ..)
  simp only [pairCrc]
  split
  · exact ⟨_, _, _, rfl, fun g hg j =>
      (crc_quiet _ i j (fun c => c.crc.drop (c.crc.length - 8)) hg).trans (hnote g hg j)⟩
  · next p _ =>
    split
    · exact ⟨_, _, _, rfl, fun g hg j =>
        (crc_quiet _ i j (fun c => c.crc.drop (c.crc.length - 8)) hg).trans (hnote g hg j)⟩
    · next n _ =>
      split
      · exact ⟨_, _, _, rfl, fun g hg j =>
          (crc_quiet _ p j (fun c => crcDelAt c.crc n) hg).trans (hnote g hg j)⟩
      · exact ⟨_, _, _, rfl, fun g hg j =>
          (crc_quiet _ p j (fun c => crcDelAt c.crc n) hg).trans (hnote g hg j)⟩

/-- Forgetting a name changes the names. -/
theorem unname_names (s : State) (i : Index) :
    ∃ names, s.unname i = { s with byName := names } := by
  simp only [unname, nameDelIfIs]
  split
  · split
    · split
      · exact ⟨_, rfl⟩
      · exact ⟨_, rfl⟩
    · exact ⟨_, rfl⟩
  · exact ⟨_, rfl⟩

theorem nameSet_names (s : State) (name : List Byte) (i : Index) :
    ∃ names, s.nameSet name i = { s with byName := names } := by
  simp only [nameSet]
  split
  · exact ⟨_, rfl⟩
  · exact ⟨_, rfl⟩

theorem unname_clients (s : State) (i : Index) : (s.unname i).clients = s.clients := by
  obtain ⟨names, heq⟩ := s.unname_names i
  rw [heq]

theorem nameSet_clients (s : State) (name : List Byte) (i : Index) :
    (s.nameSet name i).clients = s.clients := by
  obtain ⟨names, heq⟩ := s.nameSet_names name i
  rw [heq]

theorem register_clients (s : State) (i : Index) (tv : Byte) (name : List Byte) :
    (s.register i tv name).clients = (s.upd i fun c => { c with name := some name }).clients :=
  nameSet_clients ..

/-- What looks neither at links nor at send buffers. -/
theorem unlink_keeps (s : State) (i : Index) (g : Slot → β)
    (hg : ∀ (c : Slot) (p : Option Index) (tx : Buffer Byte),
      g { c with partner := p, tx := tx } = g c) (j : Index) :
    g ((s.unlink i).clients j) = g (s.clients j) := by
  simp only [unlink]
  split
  · next p _ =>
    refine (send_quiet (s.upd p fun c => { c with partner := none }) p j _ g
      fun c tx => hg c c.partner tx).trans ?_
    exact clients_upd_quiet s p j (fun c => { c with partner := none }) g (hg _ none _)
  · rfl

theorem startOne_keeps (s : State) (i p : Index) (seed : ℕ) (g : Slot → β)
    (hg : ∀ (c : Slot) (tx : Buffer Byte) (crc : List (BitVec 64 × Byte)),
      g { c with tx := tx, crc := crc } = g c) (j : Index) :
    g ((s.startOne i p seed).clients j) = g (s.clients j) := by
  rw [startOne]
  refine (send_quiet (s.upd i fun c => { c with crc := [] }) i j _ g
    fun c tx => hg c tx c.crc).trans ?_
  exact clients_upd_quiet s i j (fun c => { c with crc := [] }) g (hg _ (s.clients i).tx [])

theorem link_keeps (s : State) (i p : Index) (g : Slot → β)
    (hg : ∀ (c : Slot) (q : Option Index) (r : Option Byte),
      g { c with partner := q, role := r } = g c) (j : Index) :
    g ((s.link p i).clients j) = g (s.clients j) :=
  (clients_upd_quiet _ i j _ g (hg ..)).trans (clients_upd_quiet s p j _ g (hg ..))

/-! ### What a frame leaves alone -/

theorem drop_fixed (s : State) (i j : Index) {g : Slot → β} (hg : Slot.Fixed g) :
    g ((s.drop i).clients j) = g (s.clients j) := by
  rw [drop]
  split
  · rfl
  · have hgone : g (((((s.note (.dropped (s.conn i))).upd i fun c => { c with dead := true }).unname
        i).unlink i).clients j) = g (s.clients j) := by
      refine (unlink_keeps _ i g (fun c p tx => hg c c.name c.tv p c.role c.dead tx c.crc c.lastTick
        c.lap) j).trans ?_
      rw [unname_clients]
      exact clients_upd_quiet _ i j (fun c => { c with dead := true }) g
        (hg (s.clients i) _ _ _ _ true _ _ _ _)
    dsimp only
    split
    · exact hgone
    · exact hgone

theorem pair_fixed (s : State) (host guest j : Index) {g : Slot → β} (hg : Slot.Fixed g) :
    g ((s.pair host guest).clients j) = g (s.clients j) := by
  have hstart : ∀ (s : State) (i p : Index) (seed : ℕ),
      g ((s.startOne i p seed).clients j) = g (s.clients j) :=
    fun s i p seed => startOne_keeps s i p seed g
      (fun c tx crc => hg c c.name c.tv c.partner c.role c.dead tx crc c.lastTick c.lap) j
  have hlink : ∀ s : State, g ((s.link host guest).clients j) = g (s.clients j) :=
    fun s => link_keeps s guest host g
      (fun c q r => hg c c.name c.tv q r c.dead c.tx c.crc c.lastTick c.lap) j
  exact (hstart _ guest host _).trans ((hstart _ host guest _).trans (hlink _))

theorem tryPair_fixed (s : State) (i j : Index) {g : Slot → β} (hg : Slot.Fixed g) :
    g ((s.tryPair i).clients j) = g (s.clients j) := by
  simp only [tryPair]
  split
  · rfl
  · exact pair_fixed s _ i j hg

theorem welcome_fixed (s : State) (i j : Index) (tv : Byte) (name : List Byte) {g : Slot → β}
    (hg : Slot.Fixed g) : g ((s.welcome i tv name).clients j) = g (s.clients j) := by
  simp only [welcome]
  generalize rename s.byName renameGuard name s.random = out
  obtain ⟨name', free, random⟩ := out
  dsimp only
  split
  · rw [tryPair_fixed _ i j hg, register_clients]
    exact clients_upd_quiet _ i j (fun c => { c with name := some name' }) g
      (hg (s.clients i) (some name') _ _ _ _ _ _ _ _)
  · exact drop_fixed _ i j hg

theorem onHello_fixed (s : State) (i j : Index) (payload : List Byte) {g : Slot → β}
    (hg : Slot.Fixed g) : g ((s.onHello i payload).clients j) = g (s.clients j) := by
  have htv : g ((s.upd i fun c => { c with tv := some (payload.getD 1 0) }).clients j) =
      g (s.clients j) := clients_upd_quiet s i j _ g (hg (s.clients i) _ _ _ _ _ _ _ _ _)
  rw [onHello]
  split
  · exact drop_fixed _ i j hg
  · dsimp only
    split
    · exact (drop_fixed _ i j hg).trans htv
    · split
      · exact (drop_fixed _ i j hg).trans htv
      · split
        · exact (welcome_fixed _ i j _ _ hg).trans htv
        · exact (drop_fixed _ i j hg).trans htv

/-- A frame changes nothing of a slot but its client's name, its links, its checksums and what is to be
    sent to it; and it may retire it. -/
theorem handle_fixed (s : State) (i j : Index) (ftype : Byte) (payload : List Byte) {g : Slot → β}
    (hg : Slot.Fixed g) : g ((s.handle i ftype payload).clients j) = g (s.clients j) := by
  have hsend : ∀ (s : State) (i : Index) (data : List Byte),
      g ((s.send i data).clients j) = g (s.clients j) :=
    fun s i data => send_quiet s i j data g
      fun c tx => hg c c.name c.tv c.partner c.role c.dead tx c.crc c.lastTick c.lap
  have hforward : ∀ s : State, g ((s.forward i ftype payload).clients j) = g (s.clients j) := by
    intro s
    simp only [forward]
    split
    · rfl
    · exact hsend s _ _
  simp only [handle]
  split
  · split
    · obtain ⟨clients, stats, log, heq, hquiet⟩ :=
        ((s.note (.handled (s.conn i) ftype payload)).forward i ftype payload).pairCrc_frame i
          (payload.getD irTick 0) (payload.getD irCrc 0)
      rw [logCrc, heq]
      refine (hquiet g (fun c crc last lap => hg c c.name c.tv c.partner c.role c.dead c.tx crc last
        lap) j).trans ?_
      exact hforward _
    · exact hforward _
  · split
    · exact onHello_fixed _ i j payload hg
    · split
      · exact hsend _ i _
      · split
        · exact tryPair_fixed _ i j hg
        · split
          · exact hsend _ i _
          · split
            · exact drop_fixed _ i j hg
            · rfl

end State
end VO.Port
