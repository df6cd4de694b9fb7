import VideoOlympics.Port.Loop
import VideoOlympics.Port.Names
import VideoOlympics.Relay.Survive

/-! The two relays side by side. What is in a slot is what the other relay has in the object of the
    slot's connection; what is not in use is not compared, and neither are checksums, counters and the
    log. Each function, done in both, keeps it so. -/

namespace VO.Relay

namespace Room

/-- From one room to another, send queues have only been appended to. -/
structure Grows (r r' : Room) : Prop where
  next : r'.next = r.next
  tx : ∀ d, r.tx d <+: r'.tx d

variable {r r' r'' : Room} {c : ℕ}

theorem Grows.refl (r : Room) : r.Grows r := ⟨rfl, fun _ => List.prefix_rfl⟩

theorem Grows.trans (h : r.Grows r') (h' : r'.Grows r'') : r.Grows r'' :=
  ⟨h'.next.trans h.next, fun d => (h.tx d).trans (h'.tx d)⟩

theorem grows_queue (r : Room) (c : ℕ) (data : List Byte) : r.Grows (r.queue c data) := by
  refine ⟨rfl, fun d => ?_⟩
  simp only [queue, Function.update_apply]
  split
  · next hd => exact hd ▸ List.prefix_append _ _
  · exact List.prefix_rfl

theorem grows_leave (r : Room) (c : ℕ) : r.Grows (r.leave c) := by
  rw [leave, unlink]
  split
  · exact .refl r
  · dsimp only
    split
    · exact ⟨rfl, (grows_queue _ _ _).tx⟩
    · exact ⟨rfl, fun _ => List.prefix_rfl⟩

theorem Pairs.grows (h : r.Pairs c r') : r.Grows r' := by
  cases h with
  | alone _ => exact .refl r
  | met _ _ _ _ _ _ _ _ _ => exact ⟨rfl, ((grows_queue _ _ _).trans (grows_queue _ _ _)).tx⟩

/-- No frame takes anything out of a queue. -/
theorem Handles.grows {ftype : Byte} {payload : List Byte} (h : r.Handles c ftype payload r') :
    r.Grows r' := by
  cases h with
  | refused _ _ => exact r.grows_leave c
  | gone _ => exact r.grows_leave c
  | welcomed name _ _ _ _ hp => exact ⟨hp.grows.next, hp.grows.tx⟩
  | joined _ _ hp => exact hp.grows
  | unheard _ _ => exact .refl r
  | unknown _ _ _ _ _ _ => exact .refl r
  | _ => exact r.grows_queue _ _

end Room

namespace Server

/-- What a drop does to one who is there, as far as anybody reads it. -/
theorem drop_present {s : Server} {d : ℕ} (hd : d ∈ s.clients) : ∃ log lobby,
    s.drop d = { ((s.note (.dropped d)).unname d).unlink d with
      clients := (((s.note (.dropped d)).unname d).unlink d).clients.erase d
      log := log, lobby := lobby } := by
  rw [drop, if_neg (not_not_intro hd)]
  dsimp only
  split
  · exact ⟨_, _, rfl⟩
  · exact ⟨_, _, rfl⟩

theorem serviceLoop_grows {s s' : Server} {k turns c : ℕ} (h : s.serviceLoop k turns c = .ok s') :
    s.room.Grows s'.room := by
  refine serviceLoop_keeps (I := s.room.Grows) (P := fun _ _ _ _ => True) ?_ (fun _ hr => hr)
    (fun r hr => hr.trans (r.grows_leave c)) (eachFrame_of_forall (by simp) _ _) (.refl _) h
  intro s₁ r' _ _ _ _ hr _ _ _ hh
  exact hr.trans ⟨hh.grows.next, hh.grows.tx⟩

end Server
end VO.Relay

namespace VO.Port
open Relay

theorem State.drop_live {c : State} {i : Index} (hi : (c.clients i).dead = false) : ∃ log lobby,
    c.drop i = { ((((c.note (.dropped (c.conn i))).upd i fun c => { c with dead := true }).unname
      i).unlink i).orderDel i with log := log, lobby := lobby } := by
  rw [State.drop, if_neg (by simp [hi])]
  dsimp only
  split
  · exact ⟨_, _, rfl⟩
  · exact ⟨_, _, rfl⟩

/-- A client and a slot that say the same, links apart. -/
structure Same (o : Client) (c : Slot) : Prop where
  addr : o.addr = c.addr
  rx : o.rx = c.rx
  tx : o.tx = c.tx.contents
  name : o.name = c.name.map decode
  role : o.role = c.role
  born : o.born = c.born

/-- The other relay's state, in slots. A name's entry belongs to a connected client that has it. -/
structure Mirrors (s : Server) (c : State) : Prop where
  delay : s.delay = c.delay
  variation : s.variation = c.variation
  random : s.random = c.random
  trace : s.trace = c.trace
  next : s.next = c.accepted
  clients : s.clients = c.order.map c.conn
  byName : s.byName = c.byName.map fun e => (decode e.name, c.conn e.index)
  distinct : (c.byName.map Entry.name).Nodup
  inj : ∀ i j, (c.clients i).inUse = true → (c.clients j).inUse = true → c.conn i = c.conn j → i = j
  known : ∀ i, (c.clients i).inUse = true → c.conn i < c.accepted
  listed : ∀ i ∈ c.order, (c.clients i).inUse = true
  entry : ∀ e ∈ c.byName, e.index ∈ c.order ∧ e.gen = (c.clients e.index).gen ∧
    (c.clients e.index).name = some e.name
  proper : ∀ i, (c.clients i).inUse = true → ∀ name ∈ (c.clients i).name, Proper name
  same : ∀ i, (c.clients i).inUse = true → Same (s.obj (c.conn i)) (c.clients i)
  link : ∀ i, (c.clients i).inUse = true →
    (s.obj (c.conn i)).partner = (c.clients i).partner.map c.conn
  linked : ∀ i, (c.clients i).inUse = true → ∀ p ∈ (c.clients i).partner,
    (c.clients p).inUse = true

/-- No send buffer holds more than the array that is there for it. -/
def Fits (s : Server) : Prop := ∀ d < s.next, (s.obj d).tx.length ≤ txCap

instance (s : Server) : Decidable (Fits s) :=
  inferInstanceAs (Decidable (∀ d < s.next, (s.obj d).tx.length ≤ txCap))

/-- What fits later fitted before. -/
theorem Fits.of_grows {s s' : Server} (h : Fits s') (hg : s.room.Grows s'.room) : Fits s := by
  intro d hd
  exact Nat.le_trans (hg.tx d).length_le (h d (Nat.lt_of_lt_of_eq hd hg.next.symm))

namespace Mirrors

variable {s s' : Server} {c c' : State} {i p : Index}

/-- What is drawn and done is the same; what is said, counted and published does not matter. -/
theorem aside (h : Mirrors s c) {random random' : ℕ → ℕ} (hrandom : random = random')
    {trace trace' : List Act} (htrace : trace = trace') (log : List Relay.Line)
    (stats : Relay.Stats) (lobby : Option ℕ) (taken : ℕ → List Byte) (log' : List Line)
    (stats' : Stats) (lobby' : Option ℕ) :
    Mirrors { s with random := random, trace := trace, log := log, stats := stats, lobby := lobby
                     taken := taken }
      { c with random := random', trace := trace', log := log', stats := stats', lobby := lobby' } where
  delay := h.delay
  variation := h.variation
  random := hrandom
  trace := htrace
  next := h.next
  clients := h.clients
  byName := h.byName
  distinct := h.distinct
  inj := h.inj
  known := h.known
  listed := h.listed
  entry := h.entry
  proper := h.proper
  same := h.same
  link := h.link
  linked := h.linked

theorem quiet (h : Mirrors s c) (log : List Relay.Line) (stats : Relay.Stats) (lobby : Option ℕ)
    (taken : ℕ → List Byte) (log' : List Line) (stats' : Stats) (lobby' : Option ℕ) :
    Mirrors { s with log := log, stats := stats, lobby := lobby, taken := taken }
      { c with log := log', stats := stats', lobby := lobby' } :=
  h.aside h.random h.trace ..

theorem note (h : Mirrors s c) (a : Act) : Mirrors (s.note a) (c.note a) :=
  h.aside h.random (congrArg (· ++ [a]) h.trace) ..

/-- An assignment to a slot in use and to its connection's object. -/
theorem assign (h : Mirrors s c) (hi : (c.clients i).inUse = true) {f : Client → Client}
    {g : Slot → Slot} (huse : (g (c.clients i)).inUse = (c.clients i).inUse)
    (hconn : (g (c.clients i)).conn = (c.clients i).conn)
    (hgen : (g (c.clients i)).gen = (c.clients i).gen)
    (hproper : ∀ name ∈ (g (c.clients i)).name, Proper name)
    (hentry : ∀ e ∈ c.byName, e.index = i → (g (c.clients i)).name = some e.name)
    (hsame : Same (f (s.obj (c.conn i))) (g (c.clients i)))
    (hlink : (f (s.obj (c.conn i))).partner = (g (c.clients i)).partner.map c.conn)
    (hlinked : ∀ p ∈ (g (c.clients i)).partner, (c.clients p).inUse = true) :
    Mirrors (s.upd (c.conn i) f) (c.upd i g) := by
  have huse' : ∀ j, ((c.upd i g).clients j).inUse = (c.clients j).inUse :=
    fun j => State.clients_upd_quiet c i j g Slot.inUse huse
  have hconn' : (c.upd i g).conn = c.conn :=
    funext fun j => State.clients_upd_quiet c i j g Slot.conn hconn
  have hgen' : ∀ j, ((c.upd i g).clients j).gen = (c.clients j).gen :=
    fun j => State.clients_upd_quiet c i j g Slot.gen hgen
  have hother : ∀ j, (c.clients j).inUse = true → j ≠ i →
      (s.upd (c.conn i) f).obj (c.conn j) = s.obj (c.conn j) := by
    intro j hj hne
    rw [Server.obj_upd, if_neg fun heq => hne (h.inj j i hj hi heq)]
  refine { delay := h.delay, variation := h.variation, random := h.random, trace := h.trace
           next := h.next, distinct := h.distinct, clients := ?clients, byName := ?byName
           inj := ?inj, known := ?known, listed := ?listed, entry := ?entry, proper := ?proper
           same := ?same, link := ?link, linked := ?linked }
  case clients =>
    rw [hconn']
    exact h.clients
  case byName =>
    rw [hconn']
    exact h.byName
  case inj =>
    intro j k hj hk heq
    rw [huse'] at hj hk
    rw [hconn'] at heq
    exact h.inj j k hj hk heq
  case known =>
    intro j hj
    rw [huse'] at hj
    rw [hconn']
    exact h.known j hj
  case listed =>
    intro j hj
    rw [huse']
    exact h.listed j hj
  case entry =>
    intro e he
    obtain ⟨horder, hgen, hname⟩ := h.entry e he
    rw [hgen', State.clients_upd]
    refine ⟨horder, hgen, ?_⟩
    split
    · next hei => exact hentry e he hei
    · exact hname
  case proper =>
    intro j hj
    rw [huse'] at hj
    rw [State.clients_upd]
    split
    · exact hproper
    · exact h.proper j hj
  case same =>
    intro j hj
    rw [huse'] at hj
    rw [hconn', State.clients_upd]
    split
    · next hji => rwa [hji, Server.obj_upd, if_pos rfl]
    · next hji => rw [hother j hj hji]; exact h.same j hj
  case link =>
    intro j hj
    rw [huse'] at hj
    rw [hconn', State.clients_upd]
    split
    · next hji => rwa [hji, Server.obj_upd, if_pos rfl]
    · next hji => rw [hother j hj hji]; exact h.link j hj
  case linked =>
    intro j hj p hp
    rw [huse'] at hj ⊢
    rw [State.clients_upd] at hp
    split at hp
    · exact hlinked p hp
    · exact h.linked j hj p hp

/-- An assignment that leaves the name. -/
theorem upd (h : Mirrors s c) (hi : (c.clients i).inUse = true) {f : Client → Client}
    {g : Slot → Slot} (huse : (g (c.clients i)).inUse = (c.clients i).inUse)
    (hconn : (g (c.clients i)).conn = (c.clients i).conn)
    (hgen : (g (c.clients i)).gen = (c.clients i).gen)
    (hname : (g (c.clients i)).name = (c.clients i).name)
    (hsame : Same (f (s.obj (c.conn i))) (g (c.clients i)))
    (hlink : (f (s.obj (c.conn i))).partner = (g (c.clients i)).partner.map c.conn)
    (hlinked : ∀ p ∈ (g (c.clients i)).partner, (c.clients p).inUse = true) :
    Mirrors (s.upd (c.conn i) f) (c.upd i g) :=
  h.assign hi huse hconn hgen (hname ▸ h.proper i hi)
    (fun e he hei => hname.trans (hei ▸ (h.entry e he).2.2)) hsame hlink hlinked

/-- An assignment that leaves the links too. -/
theorem upd_unlinked (h : Mirrors s c) (hi : (c.clients i).inUse = true) {f : Client → Client}
    {g : Slot → Slot} (hplace : (g (c.clients i)).place = (c.clients i).place)
    (hname : (g (c.clients i)).name = (c.clients i).name)
    (hsame : Same (f (s.obj (c.conn i))) (g (c.clients i)))
    (hpartner : (f (s.obj (c.conn i))).partner = (s.obj (c.conn i)).partner) :
    Mirrors (s.upd (c.conn i) f) (c.upd i g) := by
  obtain ⟨huse, -, hconn, hgen, hp⟩ : (g (c.clients i)).inUse = (c.clients i).inUse ∧
      (g (c.clients i)).dead = (c.clients i).dead ∧ (g (c.clients i)).conn = (c.clients i).conn ∧
      (g (c.clients i)).gen = (c.clients i).gen ∧
      (g (c.clients i)).partner = (c.clients i).partner := by
    simpa [Slot.place] using hplace
  refine h.upd hi huse hconn hgen hname hsame ?_ ?_
  · rw [hpartner, hp]
    exact h.link i hi
  · rw [hp]
    exact h.linked i hi

/-- `c` is appended to only as far as its buffer goes. -/
theorem send (h : Mirrors s c) (hi : (c.clients i).inUse = true) (data : List Byte)
    (hfits : Fits (s.send (c.conn i) data)) :
    Mirrors (s.send (c.conn i) data) (c.send i data) := by
  have hlen : (c.clients i).tx.len + data.length ≤ txCap := by
    have hnext : c.conn i < s.next := h.next ▸ h.known i hi
    have htx := hfits (c.conn i) hnext
    have hsent : ((s.send (c.conn i) data).obj (c.conn i)).tx = (s.obj (c.conn i)).tx ++ data := by
      rw [Server.send, show ((s.upd _ _).note _).obj = (s.upd (c.conn i) _).obj from rfl,
        Server.obj_upd, if_pos rfl]
    rw [hsent, List.length_append, (h.same i hi).tx, Buffer.length_contents] at htx
    exact htx
  refine Mirrors.note ?_ _
  refine h.upd_unlinked hi ?_ ?_ ?_ rfl
  · rw [if_neg (Nat.not_lt_of_le hlen)]
    rfl
  · rw [if_neg (Nat.not_lt_of_le hlen)]
  · obtain ⟨haddr, hrx, htx, hname, hrole, hborn⟩ := h.same i hi
    rw [if_neg (Nat.not_lt_of_le hlen)]
    exact ⟨haddr, hrx, by rw [Buffer.contents_append, ← htx], hname, hrole, hborn⟩

/-! ### Drops -/

theorem entry_proper (h : Mirrors s c) : ∀ e ∈ c.byName, Proper e.name := by
  intro e he
  obtain ⟨horder, -, hname⟩ := h.entry e he
  exact h.proper e.index (h.listed _ horder) e.name hname

/-- Who has a name: in the dictionary, and in the table. -/
theorem lookup (h : Mirrors s c) {name : List Byte} (hname : Proper name) :
    s.byName.lookup (decode name) =
      (c.byName.find? (·.name = name)).map fun e => c.conn e.index := by
  have hproper := h.entry_proper
  rw [h.byName]
  generalize c.byName = es at hproper
  induction es with
  | nil => rfl
  | cons e es ih =>
    rw [List.map_cons, List.lookup_cons, List.find?_cons]
    by_cases he : e.name = name
    · simp [he]
    · have hne : decode name ≠ decode e.name :=
        fun heq => he ((hproper e List.mem_cons_self).decode_inj hname heq.symm)
      have hb : (decode name == decode e.name) = false := beq_false_of_ne hne
      rw [hb, decide_eq_false he]
      exact ih fun e he => hproper e (List.mem_cons_of_mem _ he)

/-- In a table of distinct names, the entry that is erased is the only one of its name. -/
theorem eraseP_eq_filter {es : List Entry} (hes : (es.map Entry.name).Nodup) (name : List Byte) :
    es.eraseP (·.name = name) = es.filter (·.name ≠ name) := by
  induction es with
  | nil => rfl
  | cons e es ih =>
    obtain ⟨hnew, hes⟩ := List.nodup_cons.mp hes
    by_cases he : e.name = name
    · have hall : es.filter (·.name ≠ name) = es := by
        refine List.filter_eq_self.mpr fun d hd => ?_
        have hne : d.name ≠ name := fun heq => hnew (he ▸ heq ▸ List.mem_map_of_mem hd)
        simpa using hne
      rw [List.eraseP_cons_of_pos (by simpa using he), List.filter_cons_of_neg (by simpa using he),
        hall]
    · rw [List.eraseP_cons_of_neg (by simpa using he), List.filter_cons_of_pos (by simpa using he),
        ih hes]

/-- Entries go from the table as they go from the dictionary. -/
theorem forget (h : Mirrors s c) {name : List Byte} (hname : Proper name) :
    Mirrors { s with byName := s.byName.filter fun e => e.1 != decode name }
      { c with byName := c.byName.filter (·.name ≠ name) } where
  delay := h.delay
  variation := h.variation
  random := h.random
  trace := h.trace
  next := h.next
  clients := h.clients
  byName := by
    dsimp only
    rw [h.byName, List.filter_map]
    refine congrArg _ (List.filter_congr fun e he => ?_)
    rw [Function.comp_apply, Bool.eq_iff_iff, bne_iff_ne, decide_eq_true_eq]
    exact not_congr ⟨(h.entry_proper e he).decode_inj hname, congrArg decode⟩
  distinct := h.distinct.sublist (List.filter_sublist.map _)
  inj := h.inj
  known := h.known
  listed := h.listed
  entry e he := h.entry e (List.mem_of_mem_filter he)
  proper := h.proper
  same := h.same
  link := h.link
  linked := h.linked

/-- A client's name is given back in both, and then there is no entry that belongs to it. -/
theorem unname (h : Mirrors s c) (hi : (c.clients i).inUse = true) :
    Mirrors (s.unname (c.conn i)) (c.unname i) ∧ ∀ e ∈ (c.unname i).byName, e.index ≠ i := by
  have hown : ∀ e ∈ c.byName, e.index = i → (c.clients i).name = some e.name :=
    fun e he hei => hei ▸ (h.entry e he).2.2
  have hname := (h.same i hi).name
  simp only [Server.unname, State.unname]
  cases hn : (c.clients i).name with
  | none =>
    rw [hname, hn]
    refine ⟨h, fun e he hei => ?_⟩
    have := hown e he hei
    rw [hn] at this
    cases this
  | some name =>
    have hproper := h.proper i hi name hn
    rw [hname, hn]
    dsimp only [Option.map_some]
    rw [h.lookup hproper, State.nameDelIfIs]
    cases hfind : c.byName.find? (·.name = name) with
    | none =>
      rw [Option.map_none, if_neg (by simp)]
      refine ⟨h, fun e he hei => ?_⟩
      have hne := List.find?_eq_none.mp hfind e he
      rw [hown e he hei, Option.some.injEq] at hn
      exact hne (by simpa using hn)
    | some e =>
      have he : e ∈ c.byName := List.mem_of_find?_eq_some hfind
      have hen : e.name = name := by simpa using List.find?_some hfind
      obtain ⟨horder, hgen, -⟩ := h.entry e he
      have huse := h.listed e.index horder
      dsimp only [Option.map_some]
      by_cases hei : e.index = i
      · have hkept : ¬ (e.index ≠ i ∨ e.gen ≠ (c.clients i).gen) := by
          rintro (hne | hne)
          · exact hne hei
          · exact hne (hei ▸ hgen)
        rw [if_pos (congrArg (fun j => some (c.conn j)) hei), if_neg hkept,
          eraseP_eq_filter h.distinct]
        refine ⟨h.forget hproper, fun d hd hdi => ?_⟩
        have hne := (List.mem_filter.mp hd).2
        rw [hown d (List.mem_of_mem_filter hd) hdi, Option.some.injEq] at hn
        simp [hn] at hne
      · rw [if_neg fun heq => hei (h.inj e.index i huse hi (Option.some.inj heq)), if_pos (.inl hei)]
        refine ⟨h, fun d hd hdi => ?_⟩
        have hdn := hown d hd hdi
        rw [hn, Option.some.injEq] at hdn
        have hde : d = e := List.inj_on_of_nodup_map h.distinct hd he (hdn.symm.trans hen.symm)
        exact hei (hde ▸ hdi)

theorem unlink (h : Mirrors s c) (hi : (c.clients i).inUse = true)
    (hfits : Fits (s.unlink (c.conn i))) : Mirrors (s.unlink (c.conn i)) (c.unlink i) := by
  have hlink := h.link i hi
  unfold Server.unlink State.unlink at *
  cases hp : (c.clients i).partner with
  | none =>
    rw [hlink, hp]
    exact h
  | some p =>
    have huse := h.linked i hi p hp
    rw [hlink, hp] at hfits ⊢
    dsimp only [Option.map_some] at hfits ⊢
    obtain ⟨haddr, hrx, htx, hname, hrole, hborn⟩ := h.same p huse
    have hcleared : Mirrors (s.upd (c.conn p) fun o => { o with partner := none })
        (c.upd p fun c => { c with partner := none }) :=
      h.upd huse rfl rfl rfl rfl ⟨haddr, hrx, htx, hname, hrole, hborn⟩ rfl fun _ hq => by cases hq
    have hconn : (c.upd p fun c => { c with partner := none }).conn p = c.conn p :=
      State.clients_upd_quiet c p p (fun c => { c with partner := none }) Slot.conn rfl
    have huse' : ((c.upd p fun c => { c with partner := none }).clients p).inUse = true :=
      (State.clients_upd_quiet c p p (fun c => { c with partner := none }) Slot.inUse rfl).trans huse
    have hsent := hcleared.send huse' (Relay.frame tPeerLeft (List.replicate gamePayload 0))
    rw [hconn] at hsent
    exact (hsent hfits).quiet _ _ _ _ _ _ _

/-- Taking one out of a list whose image under `f` nobody else shares. -/
theorem map_erase_of_inj {α β : Type} [DecidableEq α] [DecidableEq β] {f : α → β} {l : List α} {a : α}
    (h : ∀ b ∈ l, f b = f a → b = a) : (l.erase a).map f = (l.map f).erase (f a) := by
  induction l with
  | nil => rfl
  | cons b l ih =>
    by_cases hb : b = a
    · rw [hb, List.erase_cons_head, List.map_cons, List.erase_cons_head]
    · have hne : f b ≠ f a := fun heq => hb (h b List.mem_cons_self heq)
      rw [List.erase_cons_tail (by simpa using hb), List.map_cons, List.map_cons,
        List.erase_cons_tail (by simpa using hne), ih fun d hd => h d (List.mem_cons_of_mem _ hd)]

/-- A client is connected there just when its slot has not been retired here. -/
theorem mem_clients (h : Mirrors s c) (hs : c.rack.Sound) (hi : (c.clients i).inUse = true) :
    c.conn i ∈ s.clients ↔ (c.clients i).dead = false := by
  rw [h.clients, List.mem_map]
  constructor
  · rintro ⟨j, hj, heq⟩
    obtain rfl : j = i := h.inj j i (h.listed j hj) hi heq
    exact ((hs.mem_order j).mp hj).2
  · exact fun hdead => ⟨i, (hs.mem_order i).mpr ⟨hi, hdead⟩, rfl⟩

/-- A slot is retired. -/
theorem mark (h : Mirrors s c) (hi : (c.clients i).inUse = true) :
    Mirrors s (c.upd i fun c => { c with dead := true }) := by
  obtain ⟨haddr, hrx, htx, hname, hrole, hborn⟩ := h.same i hi
  have hmark := h.upd (f := id) (g := fun c => { c with dead := true }) hi rfl rfl rfl rfl
    ⟨haddr, hrx, htx, hname, hrole, hborn⟩ (h.link i hi) (h.linked i hi)
  rwa [show s.upd (c.conn i) id = s from
    congrArg (fun f => { s with obj := f }) (Function.update_eq_self _ _)] at hmark

/-- Its client is taken off the list. -/
theorem strike (h : Mirrors s c) (hi : (c.clients i).inUse = true)
    (hown : ∀ e ∈ c.byName, e.index ≠ i) :
    Mirrors { s with clients := s.clients.erase (c.conn i) } (c.orderDel i) where
  delay := h.delay
  variation := h.variation
  random := h.random
  trace := h.trace
  next := h.next
  clients := by
    dsimp only
    rw [h.clients]
    exact (map_erase_of_inj fun j hj heq => h.inj j i (h.listed j hj) hi heq).symm
  byName := h.byName
  distinct := h.distinct
  inj := h.inj
  known := h.known
  listed j hj := h.listed j (List.mem_of_mem_erase hj)
  entry e he := by
    obtain ⟨horder, hrest⟩ := h.entry e he
    exact ⟨(List.mem_erase_of_ne (hown e he)).mpr horder, hrest⟩
  proper := h.proper
  same := h.same
  link := h.link
  linked := h.linked

theorem unlink_byName (c : State) (i : Index) : (c.unlink i).byName = c.byName := by
  simp only [State.unlink]
  split
  · rfl
  · rfl

theorem drop (h : Mirrors s c) (hs : c.rack.Sound) (hi : (c.clients i).inUse = true)
    (hfits : Fits (s.drop (c.conn i))) : Mirrors (s.drop (c.conn i)) (c.drop i) := by
  have hmem := h.mem_clients hs hi
  cases hdead : (c.clients i).dead with
  | true =>
    have habsent : c.conn i ∉ s.clients := by
      rw [hmem, hdead]
      exact Bool.noConfusion
    rw [Server.drop, if_pos habsent, State.drop, if_pos hdead]
    exact h
  | false =>
    obtain ⟨log, lobby, heq⟩ := Server.drop_present (hmem.mpr hdead)
    obtain ⟨log', lobby', heq'⟩ := State.drop_live hdead
    rw [heq] at hfits ⊢
    rw [heq']
    have h₁ := (h.note (.dropped (c.conn i))).mark hi
    generalize hc₁ : (c.note (.dropped (c.conn i))).upd i (fun c => { c with dead := true }) = c₁ at h₁
    have hconn₁ : c₁.conn i = c.conn i :=
      hc₁ ▸ State.clients_upd_quiet c i i (fun c => { c with dead := true }) Slot.conn rfl
    have hi₁ : (c₁.clients i).inUse = true :=
      hc₁ ▸ (State.clients_upd_quiet c i i (fun c => { c with dead := true }) Slot.inUse rfl).trans hi
    obtain ⟨h₂, hown⟩ := h₁.unname hi₁
    have hclients₂ := State.unname_clients c₁ i
    have hconn₂ : (c₁.unname i).conn i = c.conn i :=
      (congrArg (fun f : Index → Slot => (f i).conn) hclients₂).trans hconn₁
    have hi₂ : ((c₁.unname i).clients i).inUse = true := hclients₂ ▸ hi₁
    have h₃ := h₂.unlink hi₂
    rw [hconn₂, hconn₁] at h₃
    have hconn₃ : ((c₁.unname i).unlink i).conn i = c.conn i :=
      (State.unlink_keeps _ i Slot.conn (fun _ _ _ => rfl) i).trans hconn₂
    have hi₃ : (((c₁.unname i).unlink i).clients i).inUse = true :=
      (State.unlink_keeps _ i Slot.inUse (fun _ _ _ => rfl) i).trans hi₂
    have h₄ := (h₃ hfits).strike hi₃ (unlink_byName (c₁.unname i) i ▸ hown)
    rw [hconn₃] at h₄
    exact h₄.quiet _ _ _ _ _ _ _

/-- A drop is logged and counted first. -/
theorem logged_drop (h : Mirrors s c) (hs : c.rack.Sound) (hi : (c.clients i).inUse = true)
    (log : List Relay.Line) (stats : Relay.Stats) (log' : List Line) (stats' : Stats)
    (hfits : Fits ({ s with log := log, stats := stats }.drop (c.conn i))) :
    Mirrors ({ s with log := log, stats := stats }.drop (c.conn i))
      ({ c with log := log', stats := stats' }.drop i) :=
  (h.quiet log stats s.lobby s.taken log' stats' c.lobby).drop hs hi hfits

end Mirrors
end VO.Port
