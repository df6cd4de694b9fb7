import VideoOlympics.Base.Reaches
import VideoOlympics.Relay.Framing
import Mathlib.Data.List.Count
import Mathlib.Data.List.Nodup

/-! The relay's own books: who is connected, from where and since when, what it has counted and what it
    has logged. Whatever the consoles do, each function writes into them one entry at a time, and what
    every entry keeps holds in every state the relay can get to. -/

namespace VO.Relay

/-- The counters a line of the log goes with. -/
def Stats.enter (t : Stats) : Line → Stats
  | .badLength _ _ => { t with badFrames := t.badFrames + 1 }
  | .matched _ _ _ _ _ => { t with games := t.games + 1 }
  | .mismatch _ _ _ _ => { t with crcBad := t.crcBad + 1 }
  | .backedUp _ _ => { t with txDrops := t.txDrops + 1 }
  | _ => t

/-- The rounds a line says were verified. -/
def Line.rounds : Line → Option ℕ
  | .matchEnded _ n => some n
  | _ => none

structure Account where
  clients : List ℕ
  next : ℕ
  addr : ℕ → ℕ × ℕ
  born : ℕ → ℕ
  named : ℕ → Bool
  stats : Stats
  log : List Line

/-- The books of a server's state. -/
def Server.account (s : Server) : Account :=
  { clients := s.clients, next := s.next, addr := fun c => (s.obj c).addr,
    born := fun c => (s.obj c).born, named := fun c => (s.obj c).name.isSome, stats := s.stats,
    log := s.log }

namespace Account

/-- A line is logged, and counted. -/
def write (g : Account) (l : Line) : Account :=
  { g with stats := g.stats.enter l, log := g.log ++ [l] }

def verify (g : Account) : Account := { g with stats := { g.stats with crcOk := g.stats.crcOk + 1 } }

def reject (g : Account) : Account :=
  { g with stats := { g.stats with ipRejects := g.stats.ipRejects + 1 } }

def expire (g : Account) : Account :=
  { g with stats := { g.stats with helloTimeouts := g.stats.helloTimeouts + 1 } }

def leave (g : Account) (c : ℕ) : Account := { g with clients := g.clients.erase c }

def call (g : Account) (c : ℕ) : Account := { g with named := Function.update g.named c true }

/-- Those connected from a host. -/
def hosted (g : Account) (host : ℕ) : List ℕ := g.clients.filter fun c => (g.addr c).1 = host

def enter (g : Account) (addr : ℕ × ℕ) (now : ℕ) : Account :=
  { g with
    clients := g.clients ++ [g.next], next := g.next + 1
    addr := Function.update g.addr g.next addr, born := Function.update g.born g.next now
    named := Function.update g.named g.next false }

/-- One entry. A match that has ended is logged with the rounds counted so far; a connection is made
    where there is room for it, and at a time `w` allows. -/
inductive Entry (w : ℕ → Prop) (g : Account) : Account → Prop
  | write (l : Line) : (∀ n, l.rounds = some n → n = g.stats.crcOk) → Entry w g (g.write l)
  | verify : Entry w g g.verify
  | reject : Entry w g g.reject
  | expire : Entry w g g.expire
  | leave (c : ℕ) : Entry w g (g.leave c)
  | call (c : ℕ) : Entry w g (g.call c)
  | enter (addr : ℕ × ℕ) (now : ℕ) : w now → g.clients.length < maxClients →
      (g.hosted addr.1).length < maxConnectionsPerIp → Entry w g (g.enter addr now)

/-- Any number of entries. -/
abbrev Entries (w : ℕ → Prop) : Account → Account → Prop := Relation.ReflTransGen (Entry w)

variable {w : ℕ → Prop}

/-- What each entry keeps, any number of them keep. -/
theorem Entries.keeps {I : Account → Prop} (hI : ∀ g g', I g → g.Entry w g' → I g') {g g' : Account}
    (h : g.Entries w g') (hg : I g) : I g' := by
  induction h with
  | refl => exact hg
  | tail _ hentry ih => exact hI _ _ ih hentry

/-- Books that are in order: the counters are what the log adds up to, the rounds it speaks of never go
    down, and no more are connected than there is room for. -/
structure Kept (g : Account) : Prop where
  badFrames : g.stats.badFrames = g.log.countP (· matches .badLength _ _)
  games : g.stats.games = g.log.countP (· matches .matched _ _ _ _ _)
  crcBad : g.stats.crcBad = g.log.countP (· matches .mismatch _ _ _ _)
  txDrops : g.stats.txDrops = g.log.countP (· matches .backedUp _ _)
  rounds : (g.log.filterMap Line.rounds).Pairwise (· ≤ ·)
  verified : ∀ n ∈ g.log.filterMap Line.rounds, n ≤ g.stats.crcOk
  nodup : g.clients.Nodup
  known : ∀ c ∈ g.clients, c < g.next
  room : g.clients.length ≤ maxClients
  hosts : ∀ host, (g.hosted host).length ≤ maxConnectionsPerIp

/-- A counter that goes up with its own kind of line stays the number of those lines. -/
theorem count_write {g : Account} {count : Stats → ℕ} {kind : Line → Bool} (l : Line)
    (hone : count (g.stats.enter l) = count g.stats + [l].countP kind)
    (h : count g.stats = g.log.countP kind) :
    count (g.write l).stats = (g.write l).log.countP kind := by
  simp only [Account.write, List.countP_append, ← h]
  exact hone

theorem Kept.write {g : Account} (h : g.Kept) (l : Line)
    (hl : ∀ n, l.rounds = some n → n = g.stats.crcOk) : (g.write l).Kept := by
  have hok : (g.write l).stats.crcOk = g.stats.crcOk := by
    simp only [Account.write]
    cases l with
    | _ => rfl
  refine ⟨count_write l (by cases l <;> rfl) h.badFrames, count_write l (by cases l <;> rfl) h.games,
    count_write l (by cases l <;> rfl) h.crcBad, count_write l (by cases l <;> rfl) h.txDrops, ?_, ?_,
    h.nodup, h.known, h.room, h.hosts⟩
  · simp only [Account.write, List.filterMap_append]
    refine List.pairwise_append.mpr ⟨h.rounds, ?_, ?_⟩
    · exact (List.pairwise_singleton _ _).filterMap _ fun _ _ hab _ _ _ _ => absurd hab id
    · intro m hm n hn
      obtain ⟨l', hl', hn⟩ := List.mem_filterMap.mp hn
      rw [List.mem_singleton.mp hl'] at hn
      exact hl n hn ▸ h.verified m hm
  · intro n hn
    simp only [Account.write, List.filterMap_append, List.mem_append] at hn
    rw [hok]
    rcases hn with hn | hn
    · exact h.verified n hn
    · obtain ⟨l', hl', hn⟩ := List.mem_filterMap.mp hn
      rw [List.mem_singleton.mp hl'] at hn
      exact Nat.le_of_eq (hl n hn)

theorem Kept.leave {g : Account} (h : g.Kept) (c : ℕ) : (g.leave c).Kept where
  badFrames := h.badFrames
  games := h.games
  crcBad := h.crcBad
  txDrops := h.txDrops
  rounds := h.rounds
  verified := h.verified
  nodup := h.nodup.erase c
  known d hd := h.known d (List.mem_of_mem_erase hd)
  room := Nat.le_trans List.length_erase_le h.room
  hosts host := Nat.le_trans (List.erase_sublist.filter _).length_le (h.hosts host)

/-- Who comes is counted at its own host. -/
theorem hosted_enter {g : Account} (hknown : ∀ c ∈ g.clients, c < g.next) (addr : ℕ × ℕ) (now host : ℕ) :
    (g.enter addr now).hosted host = g.hosted host ++ if addr.1 = host then [g.next] else [] := by
  simp only [hosted, Account.enter, List.filter_append, List.filter_singleton, Function.update_self]
  congr 1
  · refine List.filter_congr fun c hc => ?_
    exact congrArg (fun a : ℕ × ℕ => decide (a.1 = host))
      (Function.update_of_ne (Nat.ne_of_lt (hknown c hc)) addr g.addr)
  · by_cases heq : addr.1 = host
    · simp [heq]
    · simp [heq]

theorem known_enter {g : Account} (hknown : ∀ c ∈ g.clients, c < g.next) (addr : ℕ × ℕ) (now : ℕ) :
    ∀ c ∈ (g.enter addr now).clients, c < (g.enter addr now).next := by
  intro c hc
  rcases List.mem_append.mp hc with hc | hc
  · exact Nat.lt_succ_of_lt (hknown c hc)
  · exact List.mem_singleton.mp hc ▸ Nat.lt_succ_self _

theorem Kept.enter {g : Account} (h : g.Kept) (addr : ℕ × ℕ) {now : ℕ}
    (hroom : g.clients.length < maxClients)
    (hhost : (g.hosted addr.1).length < maxConnectionsPerIp) : (g.enter addr now).Kept where
  badFrames := h.badFrames
  games := h.games
  crcBad := h.crcBad
  txDrops := h.txDrops
  rounds := h.rounds
  verified := h.verified
  nodup := by
    refine List.nodup_append.mpr ⟨h.nodup, List.nodup_singleton _, ?_⟩
    intro c hc d hd
    rw [List.mem_singleton.mp hd]
    exact Nat.ne_of_lt (h.known c hc)
  known := known_enter h.known addr now
  room := by
    rw [Account.enter, List.length_append, List.length_singleton]
    exact hroom
  hosts := by
    intro host
    have hkept := h.hosts host
    rw [hosted_enter h.known, List.length_append]
    by_cases heq : addr.1 = host
    · rw [if_pos heq]
      exact heq ▸ hhost
    · rw [if_neg heq]
      exact hkept

theorem Kept.entry {g g' : Account} (h : g.Kept) (he : g.Entry w g') : g'.Kept := by
  cases he with
  | write l hl => exact h.write l hl
  | verify =>
    refine ⟨h.badFrames, h.games, h.crcBad, h.txDrops, h.rounds, ?_, h.nodup, h.known, h.room, h.hosts⟩
    exact fun n hn => Nat.le_succ_of_le (h.verified n hn)
  | leave c => exact h.leave c
  | enter addr now _ hroom hhost => exact h.enter addr hroom hhost
  | _ =>
    exact ⟨h.badFrames, h.games, h.crcBad, h.txDrops, h.rounds, h.verified, h.nodup, h.known, h.room,
      h.hosts⟩


end Account

namespace Server

open Account

variable {w : ℕ → Prop}

/-! ### What each function writes -/

@[simp] theorem account_note (s : Server) (a : Act) : (s.note a).account = s.account := rfl
@[simp] theorem account_lobbyUpdate (s : Server) : s.lobbyUpdate.account = s.account := rfl
@[simp] theorem account_byName (s : Server) (b : List (Name × ℕ)) :
    { s with byName := b }.account = s.account := rfl
@[simp] theorem account_random (s : Server) (f : ℕ → ℕ) : { s with random := f }.account = s.account := rfl

/-- What is assigned to is in nobody's books. -/
theorem account_upd (s : Server) (c : ℕ) (f : Client → Client)
    (haddr : (f (s.obj c)).addr = (s.obj c).addr) (hborn : (f (s.obj c)).born = (s.obj c).born)
    (hname : (f (s.obj c)).name.isSome = (s.obj c).name.isSome) : (s.upd c f).account = s.account := by
  simp only [account]
  rw [attr_upd s c f Client.addr, attr_upd s c f Client.born, attr_upd s c f fun o => o.name.isSome,
    haddr, hborn, hname, update_attr s c Client.addr, update_attr s c Client.born,
    update_attr s c fun o => o.name.isSome]
  rfl

@[simp] theorem account_send (s : Server) (c : ℕ) (data : List Byte) :
    (s.send c data).account = s.account := by
  rw [send, account_note]
  exact account_upd s c _ rfl rfl rfl

/-- A line that is not counted. -/
theorem say_entries (s : Server) {l : Line} (hcount : s.stats.enter l = s.stats)
    (hl : ∀ n, l.rounds = some n → n = s.stats.crcOk) : s.account.Entries w (s.say l).account := by
  have hwrite : (s.say l).account = s.account.write l := by
    simp only [Account.write, account]
    rw [hcount]
    rfl
  exact hwrite ▸ .single (.write l hl)

theorem unname_account (s : Server) (c : ℕ) : (s.unname c).account = s.account := by
  simp only [unname]
  split
  · split
    · rfl
    · rfl
  · rfl

/-- That the other has gone is told to the one who is left, and to no book. -/
theorem account_peerLeft (s : Server) (p : ℕ) :
    ((s.upd p fun o => { o with partner := none }).send p
      (frame tPeerLeft (List.replicate gamePayload 0))).account = s.account := by
  rw [account_send]
  exact account_upd s p _ rfl rfl rfl

theorem unlink_entries (s : Server) (c : ℕ) : s.account.Entries w (s.unlink c).account := by
  simp only [unlink]
  split
  · next p _ =>
    rw [← account_peerLeft s p]
    exact say_entries _ rfl fun n hn => (Option.some.inj hn).symm
  · exact .refl

theorem drop_entries (s : Server) (c : ℕ) : s.account.Entries w (s.drop c).account := by
  simp only [drop]
  split
  · exact .refl
  · have hgone : s.account.Entries w (((s.note (.dropped c)).unname c).unlink c).account := by
      have hunlink := unlink_entries (w := w) ((s.note (.dropped c)).unname c) c
      rwa [unname_account, account_note] at hunlink
    generalize ((s.note (.dropped c)).unname c).unlink c = u at hgone
    have hleft : s.account.Entries w { u with clients := u.clients.erase c }.account :=
      hgone.tail (.leave c)
    rw [account_lobbyUpdate]
    split
    · exact hleft.trans (say_entries _ rfl fun n hn => by cases hn)
    · exact hleft

/-- A round of the checksums is counted as verified, or logged. -/
theorem compared_entries (s : Server) (tick : Byte) (name : Option Name) (crc other : Byte) :
    s.account.Entries w (if other ≠ crc then
      ({ s with stats := { s.stats with crcBad := s.stats.crcBad + 1 } }).say
        (.mismatch tick name crc other)
      else { s with stats := { s.stats with crcOk := s.stats.crcOk + 1 } }).account := by
  split
  · exact .single (.write (.mismatch tick name crc other) fun n hn => by cases hn)
  · exact .single .verify

theorem pairCrc_entries (s : Server) (c : ℕ) (tick crc : Byte) :
    s.account.Entries w (s.pairCrc c tick crc).account := by
  have hupd (s : Server) (d : ℕ) (cs : Client → List (ℕ × Byte)) :
      (s.upd d fun o => { o with crc := cs o }).account = s.account := account_upd s d _ rfl rfl rfl
  have hset : (s.upd c fun o => { o with
      lap := lapOf (s.obj c) tick, lastTick := some tick
      crc := dictSet o.crc (lapOf (s.obj c) tick * 256 + tick.toNat) crc }).account = s.account :=
    account_upd s c _ rfl rfl rfl
  simp only [pairCrc]
  split
  · rw [hupd, hset]
  · split
    · rw [hupd, hset]
    · refine .trans ?_ (compared_entries _ tick _ crc _)
      rw [hupd, hset]

theorem account_startOne {s s' : Server} {me them seed : ℕ} (h : s.startOne me them seed = .ok s') :
    s'.account = s.account := by
  obtain ⟨data, -, h⟩ := bind_ok h
  rw [← Except.ok.inj h, account_send]
  exact account_upd s me _ rfl rfl rfl

theorem account_link (s : Server) (host guest : ℕ) : (s.link host guest).account = s.account := by
  simp only [link]
  rw [account_upd _ guest _ rfl rfl rfl, account_upd s host _ rfl rfl rfl]

theorem pair_entries {s s' : Server} {host guest : ℕ} (h : s.pair host guest = .ok s') :
    s.account.Entries w s'.account := by
  obtain ⟨s₂, h₂, h⟩ := bind_ok h
  obtain ⟨s₁, h₁, h₂⟩ := bind_ok h₂
  have hsame : s₂.account = s.account := by
    rw [account_startOne h₂, account_startOne h₁, account_link]
    rfl
  rw [← Except.ok.inj h, account_lobbyUpdate, ← hsame]
  exact .single (.write (.matched ..) fun n hn => by cases hn)

theorem tryPair_entries {s s' : Server} {c : ℕ} (h : s.tryPair c = .ok s') :
    s.account.Entries w s'.account := by
  simp only [tryPair] at h
  split at h
  · exact Except.ok.inj h ▸ .refl
  · exact pair_entries h

theorem register_entries (s : Server) (c : ℕ) (tv : Byte) (name : Name) (random : ℕ → ℕ) :
    s.account.Entries w (s.register c tv name random).account := by
  have hcall : ((s.upd c fun o => { o with name := some name }).note (.named c name)).account =
      s.account.call c := by
    rw [account_note]
    simp only [account, Account.call]
    rw [attr_upd s c _ Client.addr, attr_upd s c _ Client.born, attr_upd s c _ fun o => o.name.isSome,
      update_attr s c Client.addr, update_attr s c Client.born]
    rfl
  simp only [register]
  rw [account_lobbyUpdate]
  refine .trans (.single (.call c)) ?_
  rw [← hcall]
  exact say_entries _ rfl fun n hn => by cases hn

theorem onHello_entries {s s' : Server} {k c : ℕ} {payload : List Byte}
    (h : s.onHello k c payload = .ok s') : s.account.Entries w s'.account := by
  have hrefuse (s : Server) (l : Line) (hcount : s.stats.enter l = s.stats) (hl : l.rounds = none) :
      s.account.Entries w ((s.say l).drop c).account :=
    (say_entries s hcount fun n hn => by rw [hl] at hn; cases hn).trans (drop_entries _ c)
  have htv : (s.upd c fun o => { o with tv := some (payload.getD 1 0) }).account = s.account :=
    account_upd s c _ rfl rfl rfl
  rw [onHello] at h
  dsimp only at h
  split at h
  · exact Except.ok.inj h ▸ hrefuse s _ rfl rfl
  rw [← htv]
  generalize (s.upd c fun o => { o with tv := some (payload.getD 1 0) }) = u at h
  split at h
  · exact Except.ok.inj h ▸ hrefuse u _ rfl rfl
  split at h
  · exact Except.ok.inj h ▸ hrefuse u _ rfl rfl
  split at h
  · simp only [welcome] at h
    split at h
    · cases h
    · exact (register_entries ..).trans (tryPair_entries h)
  · exact Except.ok.inj h ▸ hrefuse u _ rfl rfl

theorem handle_entries {s s' : Server} {k c : ℕ} {ftype : Byte} {payload : List Byte}
    (h : s.handle k c ftype payload = .ok s') : s.account.Entries w s'.account := by
  have hnote := account_note s (.handled c ftype payload)
  simp only [handle] at h
  rw [← hnote]
  generalize s.note (.handled c ftype payload) = u at h
  split at h
  · obtain ⟨s₁, hfwd, h⟩ := bind_ok h
    have hsent : s₁.account = u.account := by
      rcases forward_ok hfwd with ⟨-, rfl⟩ | ⟨p, -, rfl⟩
      · rfl
      · exact account_send ..
    rw [← hsent, ← Except.ok.inj h]
    split
    · exact pairCrc_entries ..
    · exact .refl
  split at h
  · exact onHello_entries h
  split at h
  · rw [sendLobby_ok h, account_send]
  split at h
  · exact tryPair_entries h
  split at h
  · rw [← Except.ok.inj h, account_send]
  split at h
  · exact Except.ok.inj h ▸ drop_entries u c
  · exact Except.ok.inj h ▸ say_entries u rfl fun n hn => by cases hn

theorem serviceLoop_entries {k turns c : ℕ} {s t : Server} (h : s.serviceLoop k turns c = .ok t) :
    s.account.Entries w t.account := by
  induction turns generalizing s with
  | zero => cases h
  | succ turns ih =>
    cases hhead : headOf (s.obj c).rx with
    | wait =>
      simp only [serviceLoop, hhead] at h
      exact Except.ok.inj h ▸ .refl
    | bad n =>
      simp only [serviceLoop, hhead] at h
      rw [← Except.ok.inj h]
      have hwritten : s.account.Entries w (({ s with
          stats := { s.stats with badFrames := s.stats.badFrames + 1 } }).say
            (.badLength (s.obj c).name n)).account :=
        .single (.write (.badLength (s.obj c).name n) fun m hm => by cases hm)
      exact hwritten.trans (drop_entries _ c)
    | whole ftype payload rest =>
      rw [serviceLoop_whole hhead] at h
      obtain ⟨s₁, h₁, h⟩ := bind_ok h
      have htook : (s.taking c rest).account = s.account := account_upd s c _ rfl rfl rfl
      exact htook ▸ (handle_entries h₁).trans (ih h)

/-! ### What each event writes -/

theorem accept_entries (s : Server) (addr : ℕ × ℕ) {now : ℕ} (hnow : w now) :
    s.account.Entries w (s.accept addr now).account := by
  simp only [accept]
  split
  · exact .refl
  · next hroom =>
    split
    · exact .single .reject
    · next hhost =>
      have henter : ({ (s.upd s.next fun _ => Client.new addr now).note (.accepted s.next) with
          clients := s.clients ++ [s.next], next := s.next + 1 } : Server).account =
            s.account.enter addr now := by
        have haddr := attr_upd s s.next (fun _ => Client.new addr now) Client.addr
        have hborn := attr_upd s s.next (fun _ => Client.new addr now) Client.born
        have hname := attr_upd s s.next (fun _ => Client.new addr now) fun o => o.name.isSome
        simp only [Account.enter, account]
        exact congrArg₂ (fun (a : (ℕ → ℕ × ℕ) × (ℕ → ℕ)) b => Account.mk (s.clients ++ [s.next])
          (s.next + 1) a.1 a.2 b s.stats s.log) (congrArg₂ Prod.mk haddr hborn) hname
      refine .trans (.single (.enter addr now hnow (Nat.lt_of_not_le hroom) (Nat.lt_of_not_le hhost))) ?_
      rw [← henter]
      exact say_entries _ rfl fun n hn => by cases hn

theorem checkBacklog_entries (s : Server) (c : ℕ) : s.account.Entries w (s.checkBacklog c).account := by
  simp only [checkBacklog]
  split
  · have hwritten : s.account.Entries w (({ s with
        stats := { s.stats with txDrops := s.stats.txDrops + 1 } }).say
          (.backedUp (s.obj c).name (s.obj c).tx.length)).account :=
      .single (.write (.backedUp (s.obj c).name (s.obj c).tx.length) fun n hn => by cases hn)
    exact hwritten.trans (drop_entries _ c)
  · exact .refl

theorem flush_entries (s : Server) (c : ℕ) (res : Sent) : s.account.Entries w (s.flush c res).account := by
  simp only [flush]
  split
  · exact .refl
  · split
    · exact drop_entries s c
    · exact checkBacklog_entries s c
    · next n =>
      have htook : ({ s with taken := Function.update s.taken c (s.taken c ++ (s.obj c).tx.take n) }.upd c
          fun o => { o with tx := o.tx.drop n }).account = s.account := account_upd _ c _ rfl rfl rfl
      exact htook ▸ checkBacklog_entries _ c

theorem sweepOne_entries (now : ℕ) (s : Server) (c : ℕ) :
    s.account.Entries w (s.sweepOne now c).account := by
  simp only [sweepOne]
  split
  · have hexpired : s.account.Entries w { s with
        stats := { s.stats with helloTimeouts := s.stats.helloTimeouts + 1 } }.account :=
      .single .expire
    exact hexpired.trans (drop_entries _ c)
  · exact .refl

theorem sweep_entries (s : Server) (now : ℕ) : s.account.Entries w (s.sweep now).account := by
  simp only [sweep]
  generalize s.clients = cs
  induction cs generalizing s with
  | nil => exact .refl
  | cons c cs ih => exact (sweepOne_entries now s c).trans (ih _)

theorem step_entries {s t : Server} {e : Event} (hw : ∀ addr now, e = .accept addr now → w now)
    (h : s.step e = some t) : s.account.Entries w t.account := by
  rcases step_cases h with ⟨-, hquiet⟩ | ⟨c, data, k, rfl, -, -, hservice⟩
  · cases e with
    | accept addr now => exact Option.some.inj h ▸ accept_entries s addr (hw addr now rfl)
    | sweep now => exact Option.some.inj h ▸ sweep_entries s now
    | flush c res =>
      rw [step] at h
      split at h
      · exact Option.some.inj h ▸ flush_entries s c res
      · cases h
    | recv c data k =>
      have hdata : data = [] := by simpa only [sentBy, if_true] using hquiet c
      rw [step] at h
      split at h
      · rw [recv, if_pos hdata, Except.toOption, Option.some.injEq] at h
        exact h ▸ drop_entries s c
      · cases h
  · have hheard : (s.hearing c data).account = s.account := account_upd s c _ rfl rfl rfl
    exact hheard ▸ serviceLoop_entries hservice

theorem kept_of_init {s : Server} (h : relay.init s) : s.account.Kept := by
  obtain ⟨delay, variation, lobby, random, -, -, rfl⟩ := h
  exact ⟨rfl, rfl, rfl, rfl, .nil, List.forall_mem_nil _, .nil, List.forall_mem_nil _, Nat.zero_le _,
    fun _ => Nat.zero_le _⟩

end Server

/-- The books are in order in every state the relay can get to. -/
theorem books_kept {s : Server} (hs : relay.Reachable s) : s.account.Kept :=
  relay.reachable_invariant (I := fun s => s.account.Kept) (fun _ h => Server.kept_of_init h)
    (fun _ _ _ h hstep => (Server.step_entries (w := fun _ => True)
      (fun _ _ _ => trivial) hstep).keeps (fun _ _ hg he => hg.entry he) h) hs

/-- An INPUT record with this tick and this checksum, and nothing else in it. -/
def checked (tick crc : Byte) : List Byte :=
  frame tInput (tick :: List.replicate 9 0 ++ [crc, 0])

/-- Two consoles that agree on one tick and not on the next, and a third that cannot be understood; then
    the host leaves. -/
def quarrel : List Event :=
  [.accept (1, 0) 0, .accept (2, 0) 0, .accept (3, 0) 0, .recv 0 (hello ['A', 'L']) 9,
    .recv 1 (hello ['B', 'O']) 9, .recv 0 (checked 0 7 ++ checked 1 8) 9,
    .recv 1 (checked 0 7 ++ checked 1 9) 9, .recv 2 [0] 9, .recv 0 [] 9]

theorem books_kept_quarrel : ∃ s, relay.run listening quarrel = some s ∧ s.stats.crcBad = 1 ∧
    s.stats.badFrames = 1 ∧ s.account.log.filterMap Line.rounds = [1] ∧ s.account.Kept := by
  obtain ⟨s, hrun, hbad, hframes, hrounds⟩ : ∃ s, relay.run listening quarrel = some s ∧
      s.stats.crcBad = 1 ∧ s.stats.badFrames = 1 ∧ s.account.log.filterMap Line.rounds = [1] :=
    relay.exists_run (by decide +kernel)
  exact ⟨s, hrun, hbad, hframes, hrounds, books_kept ⟨listening, quarrel, init_listening, hrun⟩⟩

/-! ### The sweep -/

namespace Account

/-- A client that has had its time to say HELLO, and has not. -/
def Overdue (g : Account) (now c : ℕ) : Prop := g.named c = false ∧ helloTimeout < now - g.born c

instance (g : Account) (now c : ℕ) : Decidable (g.Overdue now c) := inferInstanceAs (Decidable (_ ∧ _))

/-- Nobody without a name has been connected since before a minute ago. -/
structure Prompt (now : ℕ) (g : Account) : Prop where
  known : ∀ c ∈ g.clients, c < g.next
  prompt : ∀ c ∈ g.clients, g.named c = false → now ≤ g.born c + helloTimeout

/-- Nobody gets any later: a name is never taken back, and who comes, comes now. -/
theorem Prompt.entry {now : ℕ} {g g' : Account} (h : Prompt now g) (he : g.Entry (now ≤ ·) g') :
    Prompt now g' := by
  cases he with
  | leave c => exact ⟨fun d hd => h.known d (List.mem_of_mem_erase hd),
      fun d hd => h.prompt d (List.mem_of_mem_erase hd)⟩
  | call c =>
    refine ⟨h.known, ?_⟩
    intro d hd hname
    simp only [Account.call, Function.update_apply] at hname
    split at hname
    · cases hname
    · exact h.prompt d hd hname
  | enter addr at' hat _ _ =>
    have hold : ∀ c ∈ g.clients, c ≠ g.next := fun c hc => Nat.ne_of_lt (h.known c hc)
    refine ⟨known_enter h.known addr at', ?_⟩
    intro c hc hname
    rcases List.mem_append.mp hc with hc | hc
    · simp only [Account.enter, Function.update_of_ne (hold c hc)] at hname ⊢
      exact h.prompt c hc hname
    · simp only [List.mem_singleton.mp hc, Account.enter, Function.update_self]
      exact Nat.le_trans hat (Nat.le_add_right _ _)
  | _ => exact ⟨h.known, h.prompt⟩

end Account

namespace Server

open Account

theorem unlink_account (s : Server) (c : ℕ) :
    ∃ log, (s.unlink c).account = { s.account with log := log } := by
  simp only [unlink]
  split
  · next p _ =>
    rw [← account_peerLeft s p]
    exact ⟨_, rfl⟩
  · exact ⟨_, rfl⟩

/-- A drop takes one client off the list, and has something to say about it. -/
theorem drop_account (s : Server) (c : ℕ) :
    ∃ log, (s.drop c).account = { s.account.leave c with log := log } := by
  by_cases hc : c ∈ s.clients
  · obtain ⟨log, hgone⟩ : ∃ log, (((s.note (.dropped c)).unname c).unlink c).account =
        { s.account with log := log } := by
      obtain ⟨log, hunlink⟩ := unlink_account ((s.note (.dropped c)).unname c) c
      exact ⟨log, by rw [hunlink, unname_account, account_note]⟩
    simp only [drop, hc, not_true_eq_false, if_false, account_lobbyUpdate]
    generalize ((s.note (.dropped c)).unname c).unlink c = u at hgone
    have hleft : { u with clients := u.clients.erase c }.account =
        { s.account.leave c with log := log } := congrArg (fun g => g.leave c) hgone
    split
    · next name _ =>
      exact ⟨log ++ [Line.disconnected name], congrArg (fun g => { g with
        log := g.log ++ [Line.disconnected name] }) hleft⟩
    · exact ⟨log, hleft⟩
  · have hleave : s.account.leave c = s.account :=
      congrArg (fun cs => { s.account with clients := cs }) (List.erase_of_not_mem hc)
    simp only [drop, hc, not_false_eq_true, if_true, hleave]
    exact ⟨_, rfl⟩

theorem sweepOne_overdue {now c : ℕ} {s : Server} (h : s.account.Overdue now c) :
    ∃ log, (s.sweepOne now c).account = { s.account.expire.leave c with log := log } := by
  have hname : (s.obj c).name = none := Option.not_isSome_iff_eq_none.mp (Bool.eq_false_iff.mp h.1)
  rw [sweepOne, if_pos ⟨hname, h.2⟩]
  exact drop_account _ c

theorem sweepOne_prompt {now c : ℕ} {s : Server} (h : ¬ s.account.Overdue now c) :
    s.sweepOne now c = s := by
  rw [sweepOne, if_neg]
  rintro ⟨hname, hlate⟩
  exact h ⟨by simp [account, hname], hlate⟩

/-- Of the clients it looks at, the sweep drops those that are overdue and counts them; nobody's name or
    age changes. -/
theorem sweepOne_foldl {now : ℕ} {cs : List ℕ} {s : Server} (hcs : cs.Nodup) (hs : s.clients.Nodup) :
    (cs.foldl (sweepOne now) s).clients =
        s.clients.filter (fun d => ¬ (d ∈ cs ∧ s.account.Overdue now d)) ∧
      (cs.foldl (sweepOne now) s).stats.helloTimeouts =
        s.stats.helloTimeouts + cs.countP (fun d => s.account.Overdue now d) ∧
      (cs.foldl (sweepOne now) s).account.named = s.account.named ∧
      (cs.foldl (sweepOne now) s).account.born = s.account.born := by
  induction cs generalizing s with
  | nil => exact ⟨by simp, rfl, rfl, rfl⟩
  | cons c cs ih =>
    obtain ⟨hc, hcs⟩ := List.nodup_cons.mp hcs
    by_cases hdue : s.account.Overdue now c
    · obtain ⟨log, hone⟩ := sweepOne_overdue hdue
      have hclients : (s.sweepOne now c).clients = s.clients.erase c := congrArg Account.clients hone
      have hcount : (s.sweepOne now c).stats.helloTimeouts = s.stats.helloTimeouts + 1 :=
        congrArg (fun g => g.stats.helloTimeouts) hone
      have hsame : ∀ d, (s.sweepOne now c).account.Overdue now d ↔ s.account.Overdue now d :=
        fun d => by rw [hone]; exact Iff.rfl
      obtain ⟨hleft, htold, hnamed, hborn⟩ := ih hcs (hclients ▸ hs.erase c)
      refine ⟨?_, ?_, hnamed.trans (by rw [hone]; rfl), hborn.trans (by rw [hone]; rfl)⟩
      · rw [List.foldl_cons, hleft, hclients, hs.erase_eq_filter, List.filter_filter]
        refine List.filter_congr fun d _ => ?_
        by_cases hd : d = c
        · simp [hd, hdue]
        · simp [hd, hsame d]
      · rw [List.foldl_cons, htold, hcount, List.countP_cons_of_pos (by simpa using hdue)]
        simp only [hsame]
        omega
    · have hone := sweepOne_prompt hdue
      obtain ⟨hleft, htold, hnamed, hborn⟩ := ih hcs hs
      rw [List.foldl_cons, hone]
      refine ⟨?_, ?_, hnamed, hborn⟩
      · rw [hleft]
        refine List.filter_congr fun d _ => ?_
        by_cases hd : d = c
        · simp [hd, hdue]
        · simp [hd]
      · rw [htold, List.countP_cons_of_neg (by simpa using hdue)]

end Server

/-- A sweep drops exactly those that have gone a minute without a HELLO, and counts them; and from then
    on nobody is connected who has no name and came before that minute, for as long as the clock does
    not go back. -/
theorem sweep_clears {s₀ s t : Server} {es fs : List Event} {now : ℕ} (h₀ : relay.init s₀)
    (hrun : relay.run s₀ es = some s)
    (hclock : ∀ addr at', .accept addr at' ∈ fs → now ≤ at')
    (hlater : relay.run (s.sweep now) fs = some t) :
    (s.sweep now).clients = s.clients.filter (fun c => ¬ s.account.Overdue now c) ∧
      (s.sweep now).stats.helloTimeouts =
        s.stats.helloTimeouts + s.clients.countP (fun c => s.account.Overdue now c) ∧
      ∀ c ∈ t.clients, (t.obj c).name = none → now ≤ (t.obj c).born + helloTimeout := by
  have hgoing := going_of_run h₀ hrun
  obtain ⟨hleft, htold, hnamed, hborn⟩ :=
    @Server.sweepOne_foldl now s.room.clients s hgoing.nodup hgoing.nodup
  have hclients : (s.sweep now).clients = s.clients.filter (fun c => ¬ s.account.Overdue now c) := by
    refine hleft.trans (List.filter_congr fun c hc => ?_)
    have hin : c ∈ s.room.clients := hc
    simp only [hin, true_and]
  refine ⟨hclients, htold, ?_⟩
  have hswept : Account.Prompt now (s.sweep now).account := by
    refine ⟨(Server.step_going hgoing (e := .sweep now) rfl).known, ?_⟩
    intro c hc hname
    have hcs : c ∈ s.clients.filter (fun c => ¬ s.account.Overdue now c) := hclients ▸ hc
    have hkeeps : ¬ s.account.Overdue now c := of_decide_eq_true (List.mem_filter.mp hcs).2
    have hyoung : (s.sweep now).account.born c = s.account.born c := congrFun hborn c
    rw [show (s.sweep now).account.named c = s.account.named c from congrFun hnamed c] at hname
    rw [hyoung]
    by_contra hlate
    exact hkeeps ⟨hname, by omega⟩
  have hend : Account.Prompt now t.account := by
    refine relay.run_invariant (I := fun s => Account.Prompt now s.account)
      (P := fun _ e => ∀ addr at', e = .accept addr at' → now ≤ at') ?_ hswept ?_ hlater
    · intro u e v hu hP hstep
      exact (Server.step_entries hP hstep).keeps (fun _ _ hg he => hg.entry he) hu
    · refine Machine.eachStep_of_allowed (fun e he addr at' heq => hclock addr at' ?_) _
      exact heq ▸ he
  intro c hc hname
  exact hend.prompt c hc (by simp [Server.account, hname])

/-- One console that never says HELLO, and one that does not yet. -/
def twoSilent : List Event := [.accept (1, 0) 0, .accept (2, 0) 50000]

theorem sweep_clears_twoSilent : ∃ s t, relay.run listening twoSilent = some s ∧
    relay.run (s.sweep 61000) [.accept (3, 0) 62000] = some t ∧
    (s.sweep 61000).clients = s.clients.filter (fun c => ¬ s.account.Overdue 61000 c) ∧
    (s.sweep 61000).clients = [1] ∧
    ∀ c ∈ t.clients, (t.obj c).name = none → 61000 ≤ (t.obj c).born + helloTimeout := by
  obtain ⟨s, hrun, hleft, t, hlater⟩ : ∃ s, relay.run listening twoSilent = some s ∧
      (s.sweep 61000).clients = [1] ∧
      ∃ t, relay.run (s.sweep 61000) [.accept (3, 0) 62000] = some t := by
    obtain ⟨s, hrun, hleft⟩ : ∃ s, relay.run listening twoSilent = some s ∧
        (s.sweep 61000).clients = [1] := relay.exists_run (by decide +kernel)
    exact ⟨s, hrun, hleft, _, rfl⟩
  obtain ⟨hclients, -, hnamed⟩ := sweep_clears init_listening hrun (fun addr at' hat => by
    obtain ⟨-, rfl⟩ := Event.accept.inj (List.mem_singleton.mp hat)
    decide) hlater
  exact ⟨s, t, hrun, hlater, hclients, hleft, hnamed⟩

end VO.Relay
