import VideoOlympics.Base.Directory
import VideoOlympics.Relay.Service

/-! The names. `by_name` is a directory in which a console enrols with a HELLO and from which a drop
    strikes it out. A name that is listed is listed once, and while its owner is connected under that
    name, as its owner's; but an owner that says HELLO again leaves its old name behind. -/

namespace VO.Relay

/-- The directory, and the player count last published. -/
structure Registry where
  book : Directory Name ℕ
  next : ℕ
  lobby : Option ℕ

/-- The registry of a server's state. -/
def Server.registry (s : Server) : Registry :=
  { book := { members := s.clients, label := fun c => (s.obj c).name, entries := s.byName }
    next := s.next, lobby := s.lobby }

namespace Registry

/-- The number of entries is published. -/
def publish (r : Registry) : Registry :=
  { r with lobby := r.lobby.map fun _ => r.book.entries.length }

def enter (r : Registry) : Registry :=
  { r with book := r.book.enter r.next, next := r.next + 1 }

def enrol (r : Registry) (c : ℕ) (name : Name) : Registry :=
  publish { r with book := r.book.enrol c name }

def resign (r : Registry) (c : ℕ) : Registry :=
  if c ∉ r.book.members then r else publish { r with book := r.book.resign c }

/-- A HELLO that names its sender. -/
def Enrols (ftype : Byte) (payload : List Byte) : Prop := ftype = tHello ∧ helloOk payload = true

instance (ftype : Byte) (payload : List Byte) : Decidable (Enrols ftype payload) :=
  inferInstanceAs (Decidable (_ ∧ _))

/-- What a frame does to the registry. -/
inductive Does (r : Registry) (c : ℕ) (ftype : Byte) (payload : List Byte) : Registry → Prop
  | nothing : ¬ Enrols ftype payload → Does r c ftype payload r
  | publishes : ¬ Enrols ftype payload → Does r c ftype payload r.publish
  | resigns : ¬ Enrols ftype payload → Does r c ftype payload (r.resign c)
  | enrols (name : Name) : Enrols ftype payload → r.book.entries.lookup name = none →
      Does r c ftype payload (r.enrol c name)

theorem publish_publish (r : Registry) : r.publish.publish = r.publish := by
  simp only [publish, Option.map_map]
  rfl

theorem publish_enrol (r : Registry) (c : ℕ) (name : Name) :
    (r.enrol c name).publish = r.enrol c name := publish_publish _

end Registry

namespace Server

open Registry

@[simp] theorem registry_say (s : Server) (l : Line) : (s.say l).registry = s.registry := rfl
@[simp] theorem registry_note (s : Server) (a : Act) : (s.note a).registry = s.registry := rfl
@[simp] theorem registry_stats (s : Server) (t : Stats) : { s with stats := t }.registry = s.registry :=
  rfl
@[simp] theorem registry_lobbyUpdate (s : Server) : s.lobbyUpdate.registry = s.registry.publish := rfl

/-- What is assigned to is not a name. -/
theorem registry_upd {s : Server} (c : ℕ) (f : Client → Client)
    (hname : (f (s.obj c)).name = (s.obj c).name) : (s.upd c f).registry = s.registry := by
  simp only [registry]
  rw [attr_upd s c f Client.name, hname, update_attr]
  rfl

@[simp] theorem registry_send (s : Server) (c : ℕ) (data : List Byte) :
    (s.send c data).registry = s.registry := by
  rw [send, registry_note]
  exact registry_upd c _ rfl

theorem registry_pairCrc (s : Server) (c : ℕ) (tick crc : Byte) :
    (s.pairCrc c tick crc).registry = s.registry := by
  have hupd (s : Server) (d : ℕ) (cs : Client → List (ℕ × Byte)) :
      (s.upd d fun o => { o with crc := cs o }).registry = s.registry := registry_upd d _ rfl
  have hset : (s.upd c fun o => { o with
      lap := lapOf (s.obj c) tick, lastTick := some tick
      crc := dictSet o.crc (lapOf (s.obj c) tick * 256 + tick.toNat) crc }).registry = s.registry :=
    registry_upd c _ rfl
  simp only [pairCrc]
  split
  · rw [hupd, hset]
  · split
    · rw [hupd, hset]
    · split
      · rw [registry_say, registry_stats, hupd, hset]
      · rw [registry_stats, hupd, hset]

theorem registry_unlink (s : Server) (c : ℕ) : (s.unlink c).registry = s.registry := by
  simp only [unlink]
  split
  · rw [registry_say, registry_send, registry_upd _ _ rfl]
  · rfl

/-- A drop strikes the client's name out of the book. -/
theorem registry_unname (s : Server) (c : ℕ) : (s.unname c).registry =
    { s.registry with book := { s.registry.book with entries := s.registry.book.struck c } } := by
  have hlabel : s.registry.book.label c = (s.obj c).name := rfl
  have hentries : s.registry.book.entries = s.byName := rfl
  simp only [unname, Directory.struck, hlabel, hentries]
  cases (s.obj c).name with
  | none => rfl
  | some name =>
    by_cases hown : s.byName.lookup name = some c
    · simp only [if_pos hown]
      rfl
    · simp only [if_neg hown]
      rfl

@[simp] theorem registry_drop (s : Server) (c : ℕ) :
    (s.drop c).registry = s.registry.resign c := by
  have hgone : (((s.note (.dropped c)).unname c).unlink c).registry =
      { s.registry with book := { s.registry.book with entries := s.registry.book.struck c } } := by
    rw [registry_unlink, registry_unname, registry_note]
  simp only [drop, Registry.resign, Directory.resign]
  have hclients : s.registry.book.members = s.clients := rfl
  by_cases hc : c ∈ s.clients
  · simp only [hclients, hc, not_true_eq_false, if_false, registry_lobbyUpdate]
    have herase : ∀ t : Server, { t with clients := t.clients.erase c }.registry =
        { t.registry with book := { t.registry.book with
          members := t.registry.book.members.erase c } } := fun _ => rfl
    split
    · rw [registry_say, herase, hgone]
      rfl
    · rw [herase, hgone]
      rfl
  · simp only [hclients, hc, not_false_eq_true, if_true]

theorem registry_startOne {s s' : Server} {me them seed : ℕ}
    (h : s.startOne me them seed = .ok s') : s'.registry = s.registry := by
  obtain ⟨data, -, h⟩ := bind_ok h
  rw [← Except.ok.inj h, registry_send]
  exact registry_upd me _ rfl

theorem registry_link (s : Server) (host guest : ℕ) :
    (s.link host guest).registry = s.registry := by
  simp only [link]
  rw [registry_upd guest _ rfl, registry_upd host _ rfl]

/-- A match changes no name; the player count is published once more. -/
theorem registry_pair {s s' : Server} {host guest : ℕ} (h : s.pair host guest = .ok s') :
    s'.registry = s.registry.publish := by
  obtain ⟨s₂, h₂, h⟩ := bind_ok h
  obtain ⟨s₁, h₁, h₂⟩ := bind_ok h₂
  rw [← Except.ok.inj h, registry_lobbyUpdate, registry_say, registry_stats, registry_startOne h₂,
    registry_startOne h₁, registry_link]
  rfl

theorem registry_tryPair {s s' : Server} {c : ℕ} (h : s.tryPair c = .ok s') :
    s'.registry = s.registry ∨ s'.registry = s.registry.publish := by
  simp only [tryPair] at h
  split at h
  · exact .inl (Except.ok.inj h ▸ rfl)
  · exact .inr (registry_pair h)

/-- The name the loop ends with is nobody's. -/
theorem rename_free : ∀ {k : ℕ} {byName : List (Name × ℕ)} {name name' : Name}
    {random random' : ℕ → ℕ}, rename byName k name random = some (name', random') →
    byName.lookup name' = none
  | k, byName, name, name', random, random', h => by
      unfold rename at h
      split at h
      · next hfree =>
        simp only [Option.some.injEq, Prod.mk.injEq] at h
        exact h.1 ▸ Option.isNone_iff_eq_none.mp hfree
      · cases k with
        | zero => cases h
        | succ k => exact rename_free h

theorem registry_register (s : Server) (c : ℕ) (tv : Byte) (name : Name) (random : ℕ → ℕ) :
    (s.register c tv name random).registry = s.registry.enrol c name := by
  have hcall : ∀ t : Server, ({ (t.upd c fun o => { o with name := some name }).note (.named c name) with
      byName := (t.upd c fun o => { o with name := some name }).byName ++ [(name, c)] } :
        Server).registry = { t.registry with book := t.registry.book.enrol c name } := by
    intro t
    simp only [registry, Directory.enrol]
    rw [← attr_upd t c (fun o => { o with name := some name }) Client.name]
    rfl
  simp only [register]
  rw [registry_lobbyUpdate, registry_say]
  exact congrArg publish (hcall { s with random := random })

theorem registry_welcome {s s' : Server} {k c : ℕ} {tv : Byte} {name : Name}
    (h : s.welcome k c tv name = .ok s') :
    ∃ name', s.byName.lookup name' = none ∧ s'.registry = s.registry.enrol c name' := by
  simp only [welcome] at h
  split at h
  · cases h
  · next name' random' hname =>
    refine ⟨name', rename_free hname, ?_⟩
    rcases registry_tryPair h with h | h
    · rw [h, registry_register]
    · rw [h, registry_register, publish_enrol]

theorem registry_onHello {s s' : Server} {k c : ℕ} {payload : List Byte}
    (h : s.onHello k c payload = .ok s') :
    helloOk payload = false ∧ s'.registry = s.registry.resign c ∨
      helloOk payload = true ∧ ∃ name, s.byName.lookup name = none ∧
        s'.registry = s.registry.enrol c name := by
  have htv : (s.upd c fun o => { o with tv := some (payload.getD 1 0) }).registry = s.registry :=
    registry_upd c _ rfl
  rw [onHello] at h
  simp only [helloOk]
  split at h
  · next hver =>
    exact .inl ⟨by rw [if_pos hver], by rw [← Except.ok.inj h, registry_drop, registry_say]⟩
  · next hver =>
    rw [if_neg hver]
    dsimp only at h
    split at h
    · next htv' =>
      exact .inl ⟨by rw [if_pos (.inl htv')],
        by rw [← Except.ok.inj h, registry_drop, registry_say, htv]⟩
    · next htv' =>
      split at h
      · next hstd =>
        exact .inl ⟨by rw [if_pos (.inr hstd)],
          by rw [← Except.ok.inj h, registry_drop, registry_say, htv]⟩
      · next hstd =>
        rw [if_neg (by tauto)]
        split at h
        · next hgood =>
          obtain ⟨name, hfree, hbook⟩ := registry_welcome h
          exact .inr ⟨hgood, name, hfree, htv ▸ hbook⟩
        · next hbad =>
          exact .inl ⟨by simpa using hbad, by rw [← Except.ok.inj h, registry_drop, registry_say, htv]⟩

/-- What handling a frame does to the registry. -/
theorem handle_registry {s s' : Server} {k c : ℕ} {ftype : Byte} {payload : List Byte}
    (h : s.handle k c ftype payload = .ok s') : s.registry.Does c ftype payload s'.registry := by
  have hnote := registry_note s (.handled c ftype payload)
  simp only [handle] at h
  rw [← hnote]
  by_cases hrelay : ftype ∈ relayTypes
  · have hquiet : ¬ Enrols ftype payload := by
      rintro ⟨rfl, -⟩
      exact absurd hrelay (by decide)
    rw [if_pos hrelay] at h
    obtain ⟨s₁, hfwd, h⟩ := bind_ok h
    have hbook : s'.registry = s₁.registry := by
      rw [← Except.ok.inj h]
      split
      · exact registry_pairCrc ..
      · rfl
    rw [hbook]
    rcases forward_ok hfwd with ⟨-, rfl⟩ | ⟨p, -, rfl⟩
    · exact .nothing hquiet
    · rw [registry_send]
      exact .nothing hquiet
  rw [if_neg hrelay] at h
  by_cases hhello : ftype = tHello
  · rw [if_pos hhello] at h
    rcases registry_onHello h with ⟨hbad, h⟩ | ⟨hgood, name, hfree, h⟩
    · rw [h]
      exact .resigns fun he => by rw [he.2] at hbad; cases hbad
    · rw [h]
      exact .enrols name ⟨hhello, hgood⟩ hfree
  rw [if_neg hhello] at h
  have hquiet : ¬ Enrols ftype payload := fun he => hhello he.1
  split at h
  · rw [sendLobby_ok h, registry_send]
    exact .nothing hquiet
  · split at h
    · rcases registry_tryPair h with h | h
      · rw [h]
        exact .nothing hquiet
      · rw [h]
        exact .publishes hquiet
    · split at h
      · rw [← Except.ok.inj h, registry_send]
        exact .nothing hquiet
      · split at h
        · rw [← Except.ok.inj h, registry_drop]
          exact .resigns hquiet
        · rw [← Except.ok.inj h, registry_say]
          exact .nothing hquiet

/-! ### Events -/

theorem registry_taking (s : Server) (c : ℕ) (rest : List Byte) :
    (s.taking c rest).registry = s.registry := registry_upd c _ rfl

theorem registry_accept (s : Server) (addr : ℕ × ℕ) (now : ℕ) :
    (s.accept addr now).registry = s.registry ∨ (s.accept addr now).registry = s.registry.enter := by
  simp only [accept]
  split
  · exact .inl rfl
  · split
    · exact .inl (registry_stats ..)
    · have hlabel := attr_upd s s.next (fun _ => Client.new addr now) Client.name
      exact .inr (congrArg (fun l : ℕ → Option Name => Registry.mk
        { members := s.clients ++ [s.next], label := l, entries := s.byName } (s.next + 1) s.lobby) hlabel)

theorem registry_checkBacklog (s : Server) (c : ℕ) : (s.checkBacklog c).registry = s.registry ∨
    (s.checkBacklog c).registry = s.registry.resign c := by
  simp only [checkBacklog]
  split
  · exact .inr (by rw [registry_drop, registry_say, registry_stats])
  · exact .inl rfl

theorem registry_flush (s : Server) (c : ℕ) (res : Sent) :
    (s.flush c res).registry = s.registry ∨ (s.flush c res).registry = s.registry.resign c := by
  simp only [flush]
  split
  · exact .inl rfl
  · split
    · exact .inr (registry_drop s c)
    · exact registry_checkBacklog s c
    · next n =>
      have htook : ({ s with taken := Function.update s.taken c (s.taken c ++ (s.obj c).tx.take n) }.upd c
          fun o => { o with tx := o.tx.drop n }).registry = s.registry := registry_upd c _ rfl
      rw [← htook]
      exact registry_checkBacklog _ c

theorem registry_sweepOne (now : ℕ) (s : Server) (c : ℕ) : (s.sweepOne now c).registry = s.registry ∨
    (s.sweepOne now c).registry = s.registry.resign c := by
  simp only [sweepOne]
  split
  · exact .inr (by rw [registry_drop, registry_stats])
  · exact .inl rfl

end Server

/-- What keeps one of two statements about the registry, and decides the other: `J` is kept by
    everything, and `I` is true after a frame just when it was before and the frame meets `P`, and
    does not change otherwise. -/
structure Registry.Decides (J I : Registry → Prop)
    (P : Server → ℕ → Byte → List Byte → Prop) : Prop where
  enter : ∀ r, J r → J r.enter ∧ (I r.enter ↔ I r)
  resign : ∀ r c, J r → J (r.resign c) ∧ (I (r.resign c) ↔ I r)
  frame : ∀ (s : Server) (r' : Registry) (c : ℕ) (ftype : Byte) (payload : List Byte), J s.registry →
    s.registry.Does c ftype payload r' → J r' ∧ (I r' ↔ I s.registry ∧ P s c ftype payload)

namespace Server

variable {J I : Registry → Prop} {P : Server → ℕ → Byte → List Byte → Prop} {k c : ℕ}

theorem serviceLoop_decides (hd : Registry.Decides J I P) {turns : ℕ} {s t : Server}
    (hJ : J s.registry) (h : s.serviceLoop k turns c = .ok t) :
    J t.registry ∧ (I t.registry ↔ I s.registry ∧ s.EachFrame P k turns c) := by
  induction turns generalizing s with
  | zero => cases h
  | succ turns ih =>
    cases hhead : headOf (s.obj c).rx with
    | wait =>
      simp only [serviceLoop, hhead] at h
      rw [← Except.ok.inj h]
      simp only [EachFrame, hhead, and_true, iff_self]
      exact hJ
    | bad n =>
      simp only [serviceLoop, hhead] at h
      rw [← Except.ok.inj h, badLength, registry_drop, registry_say, registry_stats]
      simp only [EachFrame, hhead, and_true]
      exact hd.resign _ c hJ
    | whole ftype payload rest =>
      rw [serviceLoop_whole hhead] at h
      obtain ⟨s₁, h₁, h⟩ := bind_ok h
      have hdoes := handle_registry h₁
      rw [← registry_taking s c rest] at hJ
      obtain ⟨hJ₁, hiff⟩ := hd.frame _ _ c ftype payload hJ hdoes
      obtain ⟨hJt, hrest⟩ := ih hJ₁ h
      refine ⟨hJt, ?_⟩
      rw [hrest, hiff, eachFrame_whole hhead, registry_taking, and_assoc]
      refine and_congr_right fun _ => and_congr_right fun _ => ?_
      exact ⟨fun hlater s' hs' => Except.ok.inj (h₁.symm.trans hs') ▸ hlater, fun hlater => hlater s₁ h₁⟩

theorem sweep_decides (hd : Registry.Decides J I P) (now : ℕ) {s : Server} (hJ : J s.registry) :
    J (s.sweep now).registry ∧ (I (s.sweep now).registry ↔ I s.registry) := by
  simp only [sweep]
  generalize s.clients = cs
  induction cs generalizing s with
  | nil => exact ⟨hJ, Iff.rfl⟩
  | cons c cs ih =>
    rcases registry_sweepOne now s c with h | h
    · obtain ⟨hJ', hI'⟩ := ih (s := s.sweepOne now c) (h ▸ hJ)
      exact ⟨hJ', hI'.trans (by rw [h])⟩
    · obtain ⟨hJ₁, hI₁⟩ := hd.resign _ c hJ
      obtain ⟨hJ', hI'⟩ := ih (s := s.sweepOne now c) (h ▸ hJ₁)
      exact ⟨hJ', hI'.trans (by rw [h, hI₁])⟩

/-- What every frame decides, every event decides by its frames. -/
theorem step_decides (hd : Registry.Decides J I P) {s t : Server} {e : Event} (hJ : J s.registry)
    (h : s.step e = some t) : J t.registry ∧ (I t.registry ↔ I s.registry ∧ s.EachHeard P e) := by
  have hmaybe : ∀ {r : Registry} {c : ℕ}, r = s.registry ∨ r = s.registry.resign c →
      J r ∧ (I r ↔ I s.registry) := by
    rintro r c (rfl | rfl)
    · exact ⟨hJ, Iff.rfl⟩
    · exact hd.resign _ c hJ
  rcases step_cases h with ⟨-, hquiet⟩ | ⟨c, data, k, rfl, hdata, hc, hservice⟩
  · cases e with
    | accept addr now =>
      rw [← Option.some.inj h]
      simp only [EachHeard, and_true]
      rcases registry_accept s addr now with h | h
      · rw [h]
        exact ⟨hJ, Iff.rfl⟩
      · rw [h]
        exact hd.enter _ hJ
    | sweep now =>
      rw [← Option.some.inj h]
      simp only [EachHeard, and_true]
      exact sweep_decides hd now hJ
    | flush c res =>
      rw [step] at h
      split at h
      · rw [← Option.some.inj h]
        simp only [EachHeard, and_true]
        exact hmaybe (registry_flush s c res)
      · cases h
    | recv c data k =>
      have hdata : data = [] := by simpa only [sentBy, if_true] using hquiet c
      rw [step] at h
      split at h
      · rw [recv, if_pos hdata, Except.toOption, Option.some.injEq] at h
        rw [← h]
        simp only [EachHeard, hdata, ne_eq, not_true_eq_false, false_implies, and_true]
        exact hmaybe (.inr (registry_drop s c))
      · cases h
  · rw [service] at hservice
    have hheard : (s.hearing c data).registry = s.registry := registry_taking ..
    rw [← hheard] at hJ ⊢
    obtain ⟨hJt, hI⟩ := serviceLoop_decides hd hJ hservice
    refine ⟨hJt, hI.trans (and_congr_right fun _ => ?_)⟩
    exact ⟨fun h _ => h, fun h => h hdata⟩

end Server

end VO.Relay
