import VideoOlympics.Port.Frames
import VideoOlympics.Relay.Manners

/-! An event, in both relays. Between two events both have read of every client's frames those that are
    whole, so a client's buffer has room for what comes next. -/

namespace VO.Port
open Relay

theorem State.Handles.sound {c : State} {i : Index} {ftype : Byte} {payload : List Byte} {r : Rack}
    (h : c.Handles i ftype payload r) (hs : c.rack.Sound) : r.Sound := by
  cases h with
  | quiet => exact hs
  | gone => exact hs.leave i
  | met host _ _ => exact hs.meet host i

theorem State.Handles.conn {c : State} {i : Index} {ftype : Byte} {payload : List Byte} {r : Rack}
    (h : c.Handles i ftype payload r) : r.conn = c.conn := by
  cases h with
  | quiet => rfl
  | gone => exact (c.rack.leave_fixed i).2.1
  | met _ _ _ => rfl

/-- A slot is set up, and listed. -/
theorem State.alloc_eq {c : State} (horder : c.order.length < maxClients) (i : Index)
    (addr : ℕ × ℕ) (now : ℕ) : ∃ clients,
      c.alloc i addr now = { c with clients := clients, order := c.order ++ [i] } ∧
        (∀ j, j ≠ i → clients j = c.clients j) ∧ clients i = { c.clients i with
          inUse := true, conn := c.accepted, addr := addr, rx := []
          tx := { (c.clients i).tx with len := 0 }, name := none, tv := none, partner := none
          role := none, born := now, dead := false, crc := [], lastTick := none, lap := 0 } := by
  have hadd : ∀ f : Slot → Slot, (c.upd i f).orderAdd i =
      { c.upd i f with order := c.order ++ [i] } := fun f => if_pos horder
  refine ⟨_, hadd _, fun j hj => ?_, ?_⟩
  · rw [clients_upd, if_neg hj]
  · rw [clients_upd, if_pos rfl]

/-- A slot that was free is given to a connection; the others stay as they were. -/
structure State.Fills (c : State) (i : Index) (clients : Index → Slot) : Prop where
  free : (c.clients i).inUse = false
  other : ∀ j, j ≠ i → clients j = c.clients j
  used : (clients i).inUse = true
  conn : (clients i).conn = c.accepted
  alone : (clients i).partner = none

namespace State.Fills

variable {c : State} {i j : Index} {clients : Index → Slot}

theorem kept (h : c.Fills i clients) (hj : (c.clients j).inUse = true) :
    clients j = c.clients j := by
  refine h.other j ?_
  rintro rfl
  rw [h.free] at hj
  cases hj

/-- Of the slots in use one is new, and the others were in use before. -/
theorem inUse (h : c.Fills i clients) (hj : (clients j).inUse = true) :
    j = i ∨ (c.clients j).inUse = true := by
  by_cases hji : j = i
  · exact .inl hji
  · exact .inr (h.other j hji ▸ hj)

end State.Fills

/-- The two find the same at the front of a buffer. -/
theorem headOf_eq (rx : List Byte) : State.headOf rx = Server.headOf rx := by
  cases rx with
  | nil => rfl
  | cons n rest =>
    rw [State.headOf, if_neg (by simp)]
    change (if n.toNat < 1 ∨ 200 < n.toNat then Server.Head.bad n
      else if rest.length + 1 < n.toNat + 1 then .wait
      else .whole ((rest.take n.toNat).getD 0 0) ((rest.take n.toNat).drop 1)
        (rest.drop n.toNat)) = _
    rw [Server.headOf]
    split
    · rfl
    · next hn =>
      rw [not_or, Nat.not_lt] at hn
      by_cases hlen : rest.length < n.toNat
      · rw [if_pos hlen, if_pos (Nat.succ_lt_succ hlen)]
      · rw [if_neg hlen, if_neg fun h => hlen (Nat.lt_of_succ_lt_succ h)]
        cases htake : rest.take n.toNat with
        | nil =>
          have := congrArg List.length htake
          simp only [List.length_take, List.length_nil] at this
          omega
        | cons ftype payload => rfl

namespace Mirrors

variable {s s' : Server} {c c' : State} {i p : Index} {k : ℕ}

theorem taking (h : Mirrors s c) (hi : (c.clients i).inUse = true) (rest : List Byte) :
    Mirrors (s.taking (c.conn i) rest) (c.taking i rest) := by
  obtain ⟨haddr, -, htx, hname, hrole, hborn⟩ := h.same i hi
  exact h.upd_unlinked hi rfl rfl ⟨haddr, rfl, htx, hname, hrole, hborn⟩ rfl

/-- The framing loop, of a client who is here or has sent something before. -/
theorem serviceLoop {turns : ℕ} (hk : k ≤ renameGuard) (hpolite : AllPolite s'.trace)
    (hfits : Fits s') : ∀ {s : Server} {c : State}, Mirrors s c → c.rack.Sound →
      (c.clients i).inUse = true → s.room.Decent →
      (c.conn i ∈ s.clients ∨ framesOf (c.conn i) s.trace ≠ []) →
      s.serviceLoop k turns (c.conn i) = .ok s' → Mirrors s' (c.serviceLoop turns i) := by
  induction turns with
  | zero =>
    intro s c _ _ _ _ _ hok
    cases hok
  | succ turns ih =>
    intro s c h hs hi hd hhere hok
    have hrx := (h.same i hi).rx
    cases hhead : Server.headOf (s.obj (c.conn i)).rx with
    | wait =>
      have hok' : s.serviceLoop k (turns + 1) (c.conn i) = .ok s := by
        rw [Server.serviceLoop, hhead]
      rw [hrx, ← headOf_eq] at hhead
      rw [State.serviceLoop, hhead, ← Except.ok.inj (hok'.symm.trans hok)]
      exact h
    | bad n =>
      have hok' : s.serviceLoop k (turns + 1) (c.conn i) = .ok (s.badLength (c.conn i) n) := by
        rw [Server.serviceLoop, hhead]
      rw [hrx, ← headOf_eq] at hhead
      rw [State.serviceLoop, hhead]
      rw [← Except.ok.inj (hok'.symm.trans hok)] at hfits ⊢
      exact h.logged_drop hs hi _ _ _ _ hfits
    | whole ftype payload rest =>
      rw [Server.serviceLoop_whole hhead] at hok
      obtain ⟨s₁, h₁, hok⟩ := Server.bind_ok hok
      obtain ⟨n, -, hlen, hn⟩ := headOf_whole hhead
      have hroom := Server.handle_ok h₁
      rw [Server.room_taking] at hroom
      have htrace := Server.serviceLoop_trace hok
      have hpolite₁ : Polite (framesOf (c.conn i) s.trace ++ [(ftype, payload)]) := by
        have hnow := (hpolite.before htrace).before hroom.trace (c.conn i)
        rwa [Room.note, framesOf_append, framesOf_handled] at hnow
      have hd₁ := (hd.setRx (c.conn i) rest).handles hhere hpolite₁ hroom
      have hhere₁ : framesOf (c.conn i) s₁.trace ≠ [] :=
        Room.framesOf_ne_nil_of_handled hroom.trace
      rw [hrx, ← headOf_eq] at hhead
      rw [State.serviceLoop_whole hhead]
      have htaken := h.taking hi rest
      have hconn : (c.taking i rest).conn = c.conn := congrArg Rack.conn (State.rack_taking c i rest)
      have huse : ((c.taking i rest).clients i).inUse = true :=
        (congrFun (congrArg Rack.inUse (State.rack_taking c i rest)) i).trans hi
      have hs₁ : (c.taking i rest).rack.Sound := by
        rw [State.rack_taking]
        exact hs
      have hframe := (c.taking i rest).handle_handles i ftype payload
      have hconn₁ : ((c.taking i rest).handle i ftype payload).conn = c.conn :=
        hframe.conn.trans hconn
      have huse₁ := (congrFun hframe.inUse i).trans huse
      have hhandled : Mirrors s₁ ((c.taking i rest).handle i ftype payload) := by
        refine htaken.handle hs₁ huse hk (by omega) ?_ (hconn ▸ h₁)
          (hfits.of_grows (Server.serviceLoop_grows hok))
        intro hhello
        have hfirst := hpolite₁.concat.2 hhello
        have hlive := (h.mem_clients hs hi).mp (hhere.resolve_right (not_not_intro hfirst))
        have hunnamed := (h.same i hi).name.symm.trans (hd.unsent (c.conn i) hfirst)
        refine ⟨(hs.mem_order i).mpr ⟨hi, hlive⟩, ?_⟩
        exact (State.clients_upd_quiet c i i (fun c => { c with rx := rest }) Slot.name rfl).trans
          (Option.map_eq_none_iff.mp hunnamed)
      exact ih hhandled (hframe.sound hs₁) huse₁ hd₁ (.inr (hconn₁ ▸ hhere₁)) (hconn₁ ▸ hok)

/-- What a connected client has sent, in one piece. -/
theorem recv (h : Mirrors s c) (hs : c.rack.Sound) (hd : s.room.Decent) (hrest : s.room.Resting)
    (hi : (c.clients i).inUse = true) (hin : c.conn i ∈ s.clients) (hk : k ≤ renameGuard)
    {data : List Byte} (hdata : data.length ≤ recvMax)
    (hok : s.recv k (c.conn i) data = .ok s') (hpolite : AllPolite s'.trace) (hfits : Fits s') :
    Mirrors s' (c.service i data) := by
  have hrx := (h.same i hi).rx
  simp only [Server.recv] at hok
  simp only [State.service]
  split at hok
  · next hnil =>
    rw [if_pos hnil]
    rw [← Except.ok.inj hok] at hfits ⊢
    exact h.drop hs hi hfits
  · next hnil =>
    have hroom : (c.clients i).rx.length + data.length ≤ rxCap := by
      have hwaits := Server.headOf_wait (hrest _ hin)
      rw [Server.room_rx, hrx] at hwaits
      have : recvMax + 200 ≤ rxCap := by decide
      omega
    have hheard := h.taking hi ((c.clients i).rx ++ data)
    have hconn : (c.taking i ((c.clients i).rx ++ data)).conn = c.conn :=
      congrArg Rack.conn (State.rack_taking ..)
    have hs' : (c.taking i ((c.clients i).rx ++ data)).rack.Sound := by
      rw [State.rack_taking]
      exact hs
    have huse : ((c.taking i ((c.clients i).rx ++ data)).clients i).inUse = true :=
      (State.clients_upd_quiet c i i (fun o => { o with rx := (c.clients i).rx ++ data }) Slot.inUse
        rfl).trans hi
    have hlen : ((c.taking i ((c.clients i).rx ++ data)).clients i).rx =
        (c.clients i).rx ++ data := by rw [State.taking, State.clients_upd, if_pos rfl]
    have hd' : (s.taking (c.conn i) ((c.clients i).rx ++ data)).room.Decent := by
      rw [Server.room_taking]
      exact hd.setRx _ _
    have hloop : (s.taking (c.conn i) ((c.clients i).rx ++ data)).service k (c.conn i) = .ok s' := by
      rw [← hrx]
      exact hok
    rw [Server.service, Server.taking_rx] at hloop
    rw [if_neg hnil, if_neg (Nat.not_lt_of_le hroom)]
    change Mirrors s' ((c.taking i ((c.clients i).rx ++ data)).serviceLoop
      (((c.taking i ((c.clients i).rx ++ data)).clients i).rx.length + 1) i)
    rw [hlen]
    exact hheard.serviceLoop hk hpolite hfits hs' huse hd' (.inl (hconn ▸ hin)) (hconn ▸ hloop)

/-! ### Sending -/

theorem checkBacklog (h : Mirrors s c) (hs : c.rack.Sound) (hi : (c.clients i).inUse = true)
    (hfits : Fits (s.checkBacklog (c.conn i))) :
    Mirrors (s.checkBacklog (c.conn i)) (c.checkBacklog i) := by
  unfold Server.checkBacklog State.checkBacklog at *
  rw [(h.same i hi).tx, Buffer.length_contents] at hfits ⊢
  split
  · next hover =>
    rw [if_pos hover] at hfits
    exact h.logged_drop hs hi _ _ _ _ hfits
  · exact h

/-- The kernel takes what it takes of both queues. -/
theorem flush (h : Mirrors s c) (hs : c.rack.Sound) (hi : (c.clients i).inUse = true)
    (hlive : (c.clients i).dead = false) (res : Server.Sent)
    (hfits : Fits (s.flush (c.conn i) res)) : Mirrors (s.flush (c.conn i) res) (c.flush i res) := by
  obtain ⟨haddr, hrx, htx, hname, hrole, hborn⟩ := h.same i hi
  have hempty : (s.obj (c.conn i)).tx = [] ↔ (c.clients i).tx.len = 0 := by
    rw [htx, Buffer.contents_eq_nil]
  unfold Server.flush State.flush at *
  by_cases hnil : (s.obj (c.conn i)).tx = []
  · rw [if_pos hnil, if_pos (hempty.mp hnil)]
    exact h
  · rw [if_neg hnil] at hfits ⊢
    rw [if_neg fun hzero => hnil (hempty.mpr hzero), if_neg (by simp [hlive])]
    cases res with
    | failed => exact h.drop hs hi hfits
    | blocked => exact h.checkBacklog hs hi hfits
    | some n =>
      have htook : Mirrors
          ({ s with taken := Function.update s.taken (c.conn i) (s.taken (c.conn i) ++
            (s.obj (c.conn i)).tx.take n) }.upd (c.conn i) fun o => { o with tx := o.tx.drop n })
          (c.upd i fun c => { c with tx := c.tx.discard n }) := by
        refine (h.quiet s.log s.stats s.lobby _ c.log c.stats c.lobby).upd_unlinked hi rfl rfl
          ⟨haddr, hrx, ?_, hname, hrole, hborn⟩ rfl
        rw [Buffer.contents_discard, ← htx]
      have hconn : (c.upd i fun c => { c with tx := c.tx.discard n }).conn i = c.conn i :=
        State.clients_upd_quiet c i i (fun c => { c with tx := c.tx.discard n }) Slot.conn rfl
      have hs' : (c.upd i fun c => { c with tx := c.tx.discard n }).rack.Sound := by
        rw [State.rack_upd_quiet c i _ rfl]
        exact hs
      have huse : ((c.upd i fun c => { c with tx := c.tx.discard n }).clients i).inUse = true :=
        (State.clients_upd_quiet c i i (fun c => { c with tx := c.tx.discard n }) Slot.inUse
          rfl).trans hi
      have hchecked := htook.checkBacklog hs' huse
      rw [hconn] at hchecked
      exact hchecked hfits

/-! ### Sweeping -/

theorem sweepOne (h : Mirrors s c) (hs : c.rack.Sound) (hi : (c.clients i).inUse = true) (now : ℕ)
    (hfits : Fits (s.sweepOne now (c.conn i))) :
    Mirrors (s.sweepOne now (c.conn i)) (c.sweepOne now i) := by
  obtain ⟨-, -, -, hname, -, hborn⟩ := h.same i hi
  have hiff : ((s.obj (c.conn i)).name = none ∧ helloTimeout < now - (s.obj (c.conn i)).born) ↔
      (c.clients i).name = none ∧ helloTimeout < now - (c.clients i).born := by
    rw [hname, Option.map_eq_none_iff, hborn]
  unfold Server.sweepOne State.sweepOne at *
  by_cases hlate : (c.clients i).name = none ∧ helloTimeout < now - (c.clients i).born
  · rw [if_pos (hiff.mpr hlate)] at hfits ⊢
    cases hdead : (c.clients i).dead with
    | false =>
      rw [if_pos ⟨hi, rfl, hlate⟩]
      exact h.logged_drop hs hi _ _ _ _ hfits
    | true =>
      have habsent : c.conn i ∉ s.clients := by
        rw [h.mem_clients hs hi, hdead]
        exact Bool.noConfusion
      rw [if_neg fun h => Bool.noConfusion h.2.1, Server.drop, if_pos habsent]
      exact h.quiet _ _ _ _ _ _ _
  · rw [if_neg fun h => hlate (hiff.mp h), if_neg fun h => hlate h.2.2]
    exact h

theorem grows_sweepOne (s : Server) (now d : ℕ) : s.room.Grows (s.sweepOne now d).room := by
  simp only [Server.sweepOne]
  split
  · rw [Server.room_drop, Server.room_stats]
    exact s.room.grows_leave d
  · exact .refl _

theorem grows_sweep (now : ℕ) (ds : List ℕ) (s : Server) :
    s.room.Grows (ds.foldl (Server.sweepOne now) s).room := by
  induction ds generalizing s with
  | nil => exact .refl _
  | cons d ds ih => exact (grows_sweepOne s now d).trans (ih _)

/-- Both go through their clients in the order they came. -/
theorem sweep (h : Mirrors s c) (hs : c.rack.Sound) (now : ℕ) (hfits : Fits (s.sweep now)) :
    Mirrors (s.sweep now) (c.sweep now) := by
  have hfold : ∀ (f : Index → ℕ) (os : List Index) (s : Server) (c : State), Mirrors s c →
      c.rack.Sound → c.conn = f → (∀ i ∈ os, (c.clients i).inUse = true) →
      Fits ((os.map f).foldl (Server.sweepOne now) s) →
      Mirrors ((os.map f).foldl (Server.sweepOne now) s) (os.foldl (State.sweepOne now) c) := by
    rintro f os
    induction os with
    | nil => exact fun s c h _ _ _ _ => h
    | cons i os ih =>
      rintro s c h hs rfl hin hfits
      have hfits₁ := hfits.of_grows (grows_sweep now _ (s.sweepOne now (c.conn i)))
      have hone := h.sweepOne hs (hin i List.mem_cons_self) now hfits₁
      obtain ⟨hsound, hconn, huse⟩ : (c.sweepOne now i).rack.Sound ∧
          (c.sweepOne now i).conn = c.conn ∧ (c.sweepOne now i).rack.inUse = c.rack.inUse := by
        obtain ⟨huse, hconn, -⟩ := c.rack.leave_fixed i
        rcases State.sweepOne_rack now c i with hr | hr
        · exact ⟨hr ▸ hs, congrArg Rack.conn hr, congrArg Rack.inUse hr⟩
        · exact ⟨hr ▸ hs.leave i, (congrArg Rack.conn hr).trans hconn,
            (congrArg Rack.inUse hr).trans huse⟩
      exact ih _ _ hone hsound hconn
        (fun j hj => (congrFun huse j).trans (hin j (List.mem_cons_of_mem _ hj))) hfits
  rw [Server.sweep, h.clients] at hfits ⊢
  exact hfold c.conn c.order s c h hs rfl h.listed hfits

/-! ### Slots -/

/-- Only slots of clients that nobody is linked to are freed. -/
theorem reap (h : Mirrors s c) (hs : c.rack.Sound) (hm : s.room.Matching) :
    Mirrors s c.reap := by
  have hrack := State.reap_rack c
  have huse : ∀ i, (c.reap.clients i).inUse = true ↔
      (c.clients i).inUse = true ∧ (c.clients i).dead = false := by
    intro i
    rw [show (c.reap.clients i).inUse = c.rack.reap.inUse i from
      congrFun (congrArg Rack.inUse hrack) i]
    exact Rack.reap_inUse
  have hquiet : ∀ {β : Type} (g : Slot → β),
      (∀ c : Slot, g { c with inUse := false, gen := c.gen + 1 } = g c) →
      ∀ i, g (c.reap.clients i) = g (c.clients i) := by
    intro β g hg i
    rw [State.reap]
    dsimp only
    split
    · exact hg _
    · rfl
  have hconn : c.reap.conn = c.conn := congrArg Rack.conn hrack
  have hlive : ∀ i ∈ c.order, (c.clients i).dead = false := fun i hi => ((hs.mem_order i).mp hi).2
  refine { delay := h.delay, variation := h.variation, random := h.random, trace := h.trace
           next := h.next, clients := hconn ▸ h.clients, byName := hconn ▸ h.byName
           distinct := h.distinct, inj := ?inj, known := ?known, listed := ?listed, entry := ?entry
           proper := ?proper, same := ?same, link := ?link, linked := ?linked }
  case inj =>
    intro i j hi hj heq
    rw [hconn] at heq
    exact h.inj i j ((huse i).mp hi).1 ((huse j).mp hj).1 heq
  case known =>
    intro i hi
    rw [hconn]
    exact h.known i ((huse i).mp hi).1
  case listed =>
    exact fun i hi => (huse i).mpr ⟨h.listed i hi, hlive i hi⟩
  case entry =>
    intro e he
    obtain ⟨horder, hgen, hname⟩ := h.entry e he
    refine ⟨horder, ?_, (hquiet Slot.name (fun _ => rfl) e.index).trans hname⟩
    rw [hgen, State.reap]
    dsimp only
    rw [if_neg fun hdead => by simp [hlive _ horder] at hdead]
  case proper =>
    intro i hi name hname
    rw [hquiet Slot.name fun _ => rfl] at hname
    exact h.proper i ((huse i).mp hi).1 name hname
  case same =>
    intro i hi
    obtain ⟨haddr, hrx, htx, hname, hrole, hborn⟩ := h.same i ((huse i).mp hi).1
    rw [hconn]
    exact ⟨haddr.trans (hquiet Slot.addr (fun _ => rfl) i).symm,
      hrx.trans (hquiet Slot.rx (fun _ => rfl) i).symm,
      htx.trans (congrArg Buffer.contents (hquiet Slot.tx (fun _ => rfl) i).symm),
      hname.trans (congrArg (Option.map decode) (hquiet Slot.name (fun _ => rfl) i).symm),
      hrole.trans (hquiet Slot.role (fun _ => rfl) i).symm,
      hborn.trans (hquiet Slot.born (fun _ => rfl) i).symm⟩
  case link =>
    intro i hi
    rw [hconn, hquiet Slot.partner fun _ => rfl]
    exact h.link i ((huse i).mp hi).1
  case linked =>
    intro i hi p hp
    obtain ⟨hin, hdead⟩ := (huse i).mp hi
    rw [hquiet Slot.partner fun _ => rfl] at hp
    have hpartner : (s.obj (c.conn i)).partner = some (c.conn p) := by
      rw [h.link i hin, hp]
      rfl
    have hused := h.linked i hin p hp
    have hthere := (hm (c.conn i) ((h.mem_clients hs hin).mpr hdead) (c.conn p) hpartner).1
    exact (huse p).mpr ⟨hused, (h.mem_clients hs hused).mp hthere⟩

/-! ### A new connection -/

section

variable {clients : Index → Slot} {j k : Index} {addr : ℕ × ℕ} {now : ℕ}

theorem fills_inj (h : Mirrors s c) (hf : c.Fills i clients) (hj : (clients j).inUse = true)
    (hk : (clients k).inUse = true) (heq : (clients j).conn = (clients k).conn) : j = k := by
  rcases hf.inUse hj with rfl | hj'
  · rcases hf.inUse hk with rfl | hk'
    · rfl
    · rw [hf.conn, hf.kept hk'] at heq
      exact absurd heq.symm (Nat.ne_of_lt (h.known k hk'))
  · rcases hf.inUse hk with rfl | hk'
    · rw [hf.conn, hf.kept hj'] at heq
      exact absurd heq (Nat.ne_of_lt (h.known j hj'))
    · rw [hf.kept hj', hf.kept hk'] at heq
      exact h.inj j k hj' hk' heq

theorem fills_known (h : Mirrors s c) (hf : c.Fills i clients) (hj : (clients j).inUse = true) :
    (clients j).conn < c.accepted + 1 := by
  rcases hf.inUse hj with rfl | hj'
  · rw [hf.conn]
    exact Nat.lt_succ_self _
  · rw [hf.kept hj']
    exact Nat.lt_succ_of_lt (h.known j hj')

theorem fills_obj_new (h : Mirrors s c) (hf : c.Fills i clients) :
    (s.upd s.next fun _ => Client.new addr now).obj (clients i).conn = Client.new addr now := by
  rw [Server.obj_upd, hf.conn, if_pos h.next.symm]

theorem fills_obj (h : Mirrors s c) (hf : c.Fills i clients) (hj : (c.clients j).inUse = true) :
    (s.upd s.next fun _ => Client.new addr now).obj (clients j).conn = s.obj (c.conn j) := by
  rw [hf.kept hj, Server.obj_upd, if_neg (h.next ▸ Nat.ne_of_lt (h.known j hj))]
  rfl

theorem fills_proper (h : Mirrors s c) (hf : c.Fills i clients)
    (hnew : (clients i).name = none) (hj : (clients j).inUse = true) :
    ∀ name ∈ (clients j).name, Proper name := by
  intro name hname
  rcases hf.inUse hj with rfl | hj'
  · rw [hnew] at hname
    cases hname
  · rw [hf.kept hj'] at hname
    exact h.proper j hj' name hname

theorem fills_same (h : Mirrors s c) (hf : c.Fills i clients)
    (hnew : Same (Client.new addr now) (clients i)) (hj : (clients j).inUse = true) :
    Same ((s.upd s.next fun _ => Client.new addr now).obj (clients j).conn) (clients j) := by
  rcases hf.inUse hj with rfl | hj'
  · rw [h.fills_obj_new hf]
    exact hnew
  · rw [h.fills_obj hf hj', hf.kept hj']
    exact h.same j hj'

theorem fills_link (h : Mirrors s c) (hf : c.Fills i clients) (hj : (clients j).inUse = true) :
    ((s.upd s.next fun _ => Client.new addr now).obj (clients j).conn).partner =
      (clients j).partner.map fun p => (clients p).conn := by
  rcases hf.inUse hj with rfl | hj'
  · rw [h.fills_obj_new hf, hf.alone]
    rfl
  · rw [h.fills_obj hf hj', hf.kept hj', h.link j hj']
    cases hp : (c.clients j).partner with
    | none => rfl
    | some p => exact congrArg some (congrArg Slot.conn (hf.kept (h.linked j hj' p hp))).symm

theorem fills_linked (h : Mirrors s c) (hf : c.Fills i clients) (hj : (clients j).inUse = true)
    (hp : p ∈ (clients j).partner) : (clients p).inUse = true := by
  rcases hf.inUse hj with rfl | hj'
  · rw [hf.alone] at hp
    cases hp
  · rw [hf.kept hj'] at hp
    have hused := h.linked j hj' p hp
    rw [hf.kept hused]
    exact hused

/-- A connection is given a slot that is free. -/
theorem seat (h : Mirrors s c) (hf : c.Fills i clients)
    (hsame : Same (Client.new addr now) (clients i)) (tag : ℕ → Index × BitVec 32) :
    Mirrors { (s.upd s.next fun _ => Client.new addr now).note (.accepted s.next) with
        clients := s.clients ++ [s.next], next := s.next + 1 }
      { c.note (.accepted c.accepted) with
        clients := clients, order := c.order ++ [i], tag := tag, accepted := c.accepted + 1 } where
  delay := h.delay
  variation := h.variation
  random := h.random
  distinct := h.distinct
  trace := by
    change s.trace ++ [Act.accepted s.next] = c.trace ++ [Act.accepted c.accepted]
    rw [h.trace, h.next]
  next := congrArg (· + 1) h.next
  clients := by
    change s.clients ++ [s.next] = (c.order ++ [i]).map fun j => (clients j).conn
    rw [List.map_append, List.map_singleton, hf.conn, h.next, h.clients]
    exact congrArg (· ++ _) (List.map_congr_left fun j hj =>
      (congrArg Slot.conn (hf.kept (h.listed j hj))).symm)
  byName := by
    change s.byName = c.byName.map fun e => (decode e.name, (clients e.index).conn)
    rw [h.byName]
    exact List.map_congr_left fun e he =>
      congrArg (Prod.mk _) (congrArg Slot.conn (hf.kept (h.listed _ (h.entry e he).1))).symm
  inj := fun _ _ hj hk heq => h.fills_inj hf hj hk heq
  known := fun _ hj => h.fills_known hf hj
  listed := by
    intro j hj
    change (clients j).inUse = true
    rcases List.mem_append.mp hj with hj | hj
    · rw [hf.kept (h.listed j hj)]
      exact h.listed j hj
    · rw [List.mem_singleton.mp hj]
      exact hf.used
  entry := by
    intro e he
    obtain ⟨horder, hgen, hname⟩ := h.entry e he
    have hslot := hf.kept (h.listed _ horder)
    exact ⟨List.mem_append_left _ horder, hgen.trans (congrArg Slot.gen hslot.symm),
      (congrArg Slot.name hslot).trans hname⟩
  proper := fun _ hj => h.fills_proper hf (Option.map_eq_none_iff.mp hsame.name.symm) hj
  same := fun _ hj => h.fills_same hf hsame hj
  link := fun _ hj => h.fills_link hf hj
  linked := fun _ hj _ hp => h.fills_linked hf hj hp

end

/-- A connection is accepted, refused or not answered by both. -/
theorem accept (h : Mirrors s c) (hfree : ∃ i, (c.clients i).inUse = false) (addr : ℕ × ℕ)
    (now : ℕ) : Mirrors (s.accept addr now) (c.acceptClient addr now) := by
  have hlen : s.clients.length = c.order.length := by rw [h.clients, List.length_map]
  have hhost : (s.clients.filter fun d => (s.obj d).addr.1 = addr.1).length =
      (c.order.filter fun i => (c.clients i).addr.1 = addr.1).length := by
    rw [h.clients, List.filter_map, List.length_map]
    refine congrArg _ (List.filter_congr fun i hi => ?_)
    rw [Function.comp_apply, (h.same i (h.listed i hi)).addr]
  simp only [Server.accept, State.acceptClient]
  rw [hlen, hhost]
  split
  · exact h
  · next horder =>
    split
    · exact h.quiet _ _ _ _ _ _ _
    · obtain ⟨i, hfind⟩ : ∃ i, (List.finRange maxClients).find? (fun i => !(c.clients i).inUse) =
          some i := by
        obtain ⟨j, hj⟩ := hfree
        refine Option.isSome_iff_exists.mp (List.find?_isSome.mpr ⟨j, List.mem_finRange j, ?_⟩)
        simp [hj]
      have hi : (c.clients i).inUse = false := by simpa using List.find?_some hfind
      have hlen' : (c.note (.accepted c.accepted)).order.length < maxClients :=
        Nat.lt_of_not_le horder
      obtain ⟨clients, halloc, hother, hself⟩ :=
        State.alloc_eq (c := c.note (.accepted c.accepted)) (Nat.lt_of_not_le horder) i addr now
      have hsame : Same (Client.new addr now) (clients i) := by
        rw [hself]
        exact ⟨rfl, rfl, rfl, rfl, rfl, rfl⟩
      have hf : c.Fills i clients :=
        ⟨hi, hother, by rw [hself], by rw [hself]; rfl, by rw [hself]⟩
      rw [hfind]
      dsimp only
      rw [halloc]
      exact (h.seat hf hsame _).quiet _ _ _ _ _ _ _

end Mirrors
end VO.Port
