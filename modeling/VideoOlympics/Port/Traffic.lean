import VideoOlympics.Port.Events
import VideoOlympics.Relay.Play

/-! The traffic: what of the program its buffers hang on. What has been handled for each connection,
    what has been queued to it, and what a slot's send buffer holds of that. A function acts on the
    traffic by what it queues, and of that only the addressees and the lengths matter. -/

namespace VO.Port
open Relay

/-- A line that says that a buffer has been too small for what a client sent. -/
def Line.spills : Line → Bool
  | .rxOverflow _ _ _ => true
  | _ => false

structure Traffic where
  conn : Index → ℕ
  tx : Index → Buffer Byte
  queued : ℕ → List (List Byte)
  handled : ℕ → List Frame
  spilt : Bool

/-- The traffic of a state. -/
def State.traffic (s : State) : Traffic :=
  { conn := s.conn, tx := fun i => (s.clients i).tx, queued := fun c => framesTo c s.trace
    handled := fun c => framesOf c s.trace, spilt := s.log.any Line.spills }

namespace Traffic

/-- `client_send`, of a buffer. -/
def fill (b : Buffer Byte) (data : List Byte) : Buffer Byte :=
  if txCap < b.len + data.length then { b with len := txCap } else b.append data

/-- Something is queued. -/
def post (r : Traffic) (i : Index) (data : List Byte) : Traffic :=
  { r with
    tx := Function.update r.tx i (fill (r.tx i) data)
    queued := Function.update r.queued (r.conn i) (r.queued (r.conn i) ++ [data]) }

/-- Frames of these lengths are queued, one after the other. -/
inductive Posts : List (Index × ℕ) → Traffic → Traffic → Prop
  | nil {r : Traffic} : Posts [] r r
  | cons {r r' : Traffic} {i : Index} {out : List (Index × ℕ)} (data : List Byte) :
      Posts out (r.post i data) r' → Posts ((i, data.length) :: out) r r'

theorem Posts.one {r r' : Traffic} {i : Index} (data : List Byte) {n : ℕ} (hlen : data.length = n)
    (h : r' = r.post i data) : Posts [(i, n)] r r' := by
  subst hlen h
  exact .cons data .nil

/-- A frame is handled. -/
def hear (r : Traffic) (i : Index) (ftype : Byte) (payload : List Byte) : Traffic :=
  { r with handled :=
      Function.update r.handled (r.conn i) (r.handled (r.conn i) ++ [(ftype, payload)]) }

theorem queued_post (r : Traffic) (i : Index) (data : List Byte) (c : ℕ) :
    (r.post i data).queued c =
      if c = r.conn i then r.queued (r.conn i) ++ [data] else r.queued c := by
  simp only [post, Function.update_apply]

theorem tx_post (r : Traffic) (i j : Index) (data : List Byte) :
    (r.post i data).tx j = if j = i then fill (r.tx i) data else r.tx j := by
  simp only [post, Function.update_apply]

theorem handled_hear (r : Traffic) (i : Index) (ftype : Byte) (payload : List Byte) (c : ℕ) :
    (r.hear i ftype payload).handled c =
      if c = r.conn i then r.handled (r.conn i) ++ [(ftype, payload)] else r.handled c := by
  simp only [hear, Function.update_apply]

end Traffic

/-- What the traffic sees of a slot. -/
def Slot.load (c : Slot) : ℕ × Buffer Byte := (c.conn, c.tx)

namespace State

variable {s : State} {i p : Index}

@[simp] theorem traffic_random (f : ℕ → ℕ) : { s with random := f }.traffic = s.traffic := rfl
@[simp] theorem traffic_stats (t : Stats) : { s with stats := t }.traffic = s.traffic := rfl
@[simp] theorem traffic_lobby : s.lobbyUpdateCount.traffic = s.traffic := rfl

@[simp] theorem traffic_say (l : Relay.Line) : (s.say (.said l)).traffic = s.traffic := by
  simp only [traffic, say, List.any_append, List.any_cons, Line.spills, List.any_nil, Bool.or_false]
  rfl

theorem traffic_note {a : Act} (hto : ∀ c, framesTo c [a] = []) (hof : ∀ c, framesOf c [a] = []) :
    (s.note a).traffic = s.traffic := by
  simp only [traffic, note, framesTo_append, framesOf_append, hto, hof, List.append_nil]
  rfl

theorem traffic_clients (s : State) {clients : Index → Slot}
    (h : ∀ j, (clients j).load = (s.clients j).load) :
    { s with clients := clients }.traffic = s.traffic :=
  congrArg (fun f : Index → ℕ × Buffer Byte =>
    ({ conn := fun i => (f i).1, tx := fun i => (f i).2, queued := fun c => framesTo c s.trace
       handled := fun c => framesOf c s.trace, spilt := s.log.any Line.spills } : Traffic)) (funext h)

/-- What the traffic does not see of a slot may change freely. -/
theorem traffic_upd_quiet (s : State) (i : Index) (f : Slot → Slot)
    (hf : (f (s.clients i)).load = (s.clients i).load) : (s.upd i f).traffic = s.traffic :=
  traffic_clients s fun j => clients_upd_quiet s i j f Slot.load hf

theorem traffic_send (s : State) (i : Index) (data : List Byte) :
    (s.send i data).traffic = s.traffic.post i data := by
  have hconn : (s.send i data).conn = s.conn :=
    funext fun j => send_quiet s i j data Slot.conn fun _ _ => rfl
  have htx : (fun j => ((s.send i data).clients j).tx) =
      Function.update (fun j => (s.clients j).tx) i (Traffic.fill (s.clients i).tx data) := by
    funext j
    rw [send, note_clients, clients_upd, Function.update_apply]
    by_cases hj : j = i
    · rw [if_pos hj, if_pos hj, Traffic.fill]
      exact apply_ite Slot.tx ..
    · rw [if_neg hj, if_neg hj]
  have hqueued : (fun c => framesTo c (s.send i data).trace) =
      Function.update (fun c => framesTo c s.trace) (s.conn i)
        (framesTo (s.conn i) s.trace ++ [data]) := by
    funext c
    change framesTo c (s.trace ++ [.queued (s.conn i) data]) = _
    rw [framesTo_append, framesTo_queued, Function.update_apply]
    by_cases hc : s.conn i = c
    · rw [if_pos hc, if_pos hc.symm, hc]
    · rw [if_neg hc, if_neg (Ne.symm hc), List.append_nil]
  have hhandled : (fun c => framesOf c (s.send i data).trace) = fun c => framesOf c s.trace := by
    funext c
    change framesOf c (s.trace ++ [.queued (s.conn i) data]) = _
    rw [framesOf_append]
    exact List.append_nil _
  rw [traffic, hconn, htx, hqueued, hhandled]
  rfl

theorem traffic_handled (s : State) (i : Index) (ftype : Byte) (payload : List Byte) :
    (s.note (.handled (s.conn i) ftype payload)).traffic = s.traffic.hear i ftype payload := by
  have hhandled : (fun c => framesOf c (s.note (.handled (s.conn i) ftype payload)).trace) =
      Function.update (fun c => framesOf c s.trace) (s.conn i)
        (framesOf (s.conn i) s.trace ++ [(ftype, payload)]) := by
    funext c
    change framesOf c (s.trace ++ [.handled (s.conn i) ftype payload]) = _
    rw [framesOf_append, Function.update_apply]
    by_cases hc : c = s.conn i
    · rw [if_pos hc, hc, framesOf_handled]
    · have hother : framesOf c [.handled (s.conn i) ftype payload] = [] := by
        simp [framesOf, Act.frameOf, Ne.symm hc]
      rw [if_neg hc, hother, List.append_nil]
  have hqueued : (fun c => framesTo c (s.note (.handled (s.conn i) ftype payload)).trace) =
      fun c => framesTo c s.trace := by
    funext c
    change framesTo c (s.trace ++ [.handled (s.conn i) ftype payload]) = _
    rw [framesTo_append]
    exact List.append_nil _
  rw [traffic, hhandled, hqueued]
  rfl

/-! ### What each function queues -/

/-- A client that goes leaves its partner a PEER_LEFT. -/
def farewell (s : State) (i : Index) : List (Index × ℕ) :=
  if (s.clients i).dead then [] else
    match (s.clients i).partner with
    | some p => [(p, gameFrame)]
    | none => []

/-- A client that looks for a partner and finds one has a START sent to both. -/
def seeking (s : State) (i : Index) : List (Index × ℕ) :=
  match s.waiting i with
  | some host => [(host, 15), (i, 15)]
  | none => []

/-- A game frame goes to the partner. -/
def forwarding (s : State) (i : Index) (payload : List Byte) : List (Index × ℕ) :=
  match (s.clients i).partner with
  | some p => [(p, max gamePayload payload.length + 2)]
  | none => []

/-- Who is welcome looks for a partner, if there is a name for it; and who is not goes. -/
def greeting (s : State) (i : Index) : Except Refusal (Byte × List Byte) → List (Index × ℕ)
  | .ok (_, name) =>
    if (rename s.byName renameGuard name s.random).2.1 then s.seeking i else s.farewell i
  | .error _ => s.farewell i

/-- What a frame makes the program queue: for whom, and how long. -/
def outgoing (s : State) (i : Index) (ftype : Byte) (payload : List Byte) : List (Index × ℕ) :=
  if ftype ∈ relayTypes then s.forwarding i payload
  else if ftype = tHello then s.greeting i (checkHello payload)
  else if ftype = tList then [(i, 9 * s.entries.length + 3)]
  else if ftype = tJoin then s.seeking i
  else if ftype = tPing then [(i, 2)]
  else if ftype = tBye then s.farewell i
  else []

theorem traffic_unname (s : State) (i : Index) : (s.unname i).traffic = s.traffic := by
  obtain ⟨names, heq⟩ := s.unname_names i
  rw [heq]
  rfl

theorem traffic_unlink (s : State) (i : Index) : (s.unlink i).traffic =
    match (s.clients i).partner with
    | some p => s.traffic.post p (Relay.frame tPeerLeft (List.replicate gamePayload 0))
    | none => s.traffic := by
  simp only [unlink]
  cases (s.clients i).partner with
  | none => rfl
  | some p =>
    dsimp only
    rw [traffic_say, sendFrame, traffic_send, traffic_upd_quiet s p _ rfl]

theorem drop_posts (s : State) (i : Index) :
    Traffic.Posts (s.farewell i) s.traffic (s.drop i).traffic := by
  rw [drop]
  split
  · next hdead =>
    rw [farewell, if_pos hdead]
    exact .nil
  · next hlive =>
    have hmark : ((s.note (.dropped (s.conn i))).upd i fun c => { c with dead := true }).traffic =
        s.traffic :=
      (traffic_upd_quiet _ i _ rfl).trans (traffic_note (fun _ => rfl) fun _ => rfl)
    have hlinks := traffic_unlink
      (((s.note (.dropped (s.conn i))).upd i fun c => { c with dead := true }).unname i) i
    have hpartner : (((((s.note (.dropped (s.conn i))).upd i fun c =>
        { c with dead := true }).unname i).clients i).partner) = (s.clients i).partner := by
      rw [unname_clients]
      exact clients_upd_quiet (s.note (.dropped (s.conn i))) i i (fun c => { c with dead := true })
        Slot.partner rfl
    rw [hpartner, traffic_unname, hmark] at hlinks
    have horder : ∀ t : State, (t.orderDel i).traffic = t.traffic := fun _ => rfl
    have hposts : Traffic.Posts (s.farewell i) s.traffic (((((s.note (.dropped (s.conn i))).upd i
        fun c => { c with dead := true }).unname i).unlink i).orderDel i).traffic := by
      rw [horder, hlinks, farewell, if_neg hlive]
      cases (s.clients i).partner with
      | none => exact .nil
      | some p => exact .one _ rfl rfl
    dsimp only
    rw [traffic_lobby]
    split
    · rw [traffic_say]
      exact hposts
    · exact hposts

theorem traffic_startOne (s : State) (me them : Index) (seed : ℕ) : ∃ data : List Byte,
    data.length = 15 ∧ (s.startOne me them seed).traffic = s.traffic.post me data := by
  refine ⟨_, ?_, (traffic_send ..).trans (congrArg (Traffic.post · me _) ?_)⟩
  · rw [frame_length, List.length_append, padName, ljust, List.length_append, List.length_replicate,
      List.length_take]
    simp only [List.length_cons, List.length_nil]
    omega
  · exact traffic_upd_quiet s me (fun c => { c with crc := [] }) rfl

theorem traffic_link (s : State) (host guest : Index) : (s.link host guest).traffic = s.traffic :=
  (traffic_upd_quiet _ guest _ rfl).trans (traffic_upd_quiet s host _ rfl)

theorem pair_posts (s : State) (host guest : Index) :
    Traffic.Posts [(host, 15), (guest, 15)] s.traffic (s.pair host guest).traffic := by
  simp only [pair]
  rw [traffic_lobby, traffic_say, traffic_stats]
  obtain ⟨data, hlen, hhost⟩ := traffic_startOne
    (((s.nextSeed.2).note (.matched (s.nextSeed.2.conn host) (s.nextSeed.2.conn guest)
      s.nextSeed.1)).link host guest) host guest s.nextSeed.1
  obtain ⟨data', hlen', hguest⟩ := traffic_startOne
    ((((s.nextSeed.2).note (.matched (s.nextSeed.2.conn host) (s.nextSeed.2.conn guest)
      s.nextSeed.1)).link host guest).startOne host guest s.nextSeed.1) guest host s.nextSeed.1
  rw [traffic_link, traffic_note (fun _ => rfl) fun _ => rfl] at hhost
  rw [hhost] at hguest
  have hboth := Traffic.Posts.cons data (.one data' hlen' hguest)
  rwa [hlen] at hboth

theorem tryPair_posts (s : State) (i : Index) :
    Traffic.Posts (s.seeking i) s.traffic (s.tryPair i).traffic := by
  simp only [tryPair, seeking]
  cases s.waiting i with
  | none => exact .nil
  | some host => exact s.pair_posts host i

theorem traffic_register (s : State) (i : Index) (tv : Byte) (name : List Byte) :
    (s.register i tv name).traffic = s.traffic := by
  obtain ⟨names, heq⟩ := ((s.upd i fun c => { c with name := some name }).note
    (.named (s.conn i) (decode name))).nameSet_names name i
  simp only [register]
  rw [traffic_lobby, traffic_say, heq]
  exact (traffic_note (fun _ => rfl) fun _ => rfl).trans
    (traffic_upd_quiet s i (fun c => { c with name := some name }) rfl)

theorem seeking_congr {s t : State} {i : Index} (h : t.waiting i = s.waiting i) :
    t.seeking i = s.seeking i := by
  rw [seeking, seeking, h]

theorem farewell_congr {s t : State} {i : Index} (hdead : (t.clients i).dead = (s.clients i).dead)
    (hpartner : (t.clients i).partner = (s.clients i).partner) : t.farewell i = s.farewell i := by
  rw [farewell, farewell, hdead, hpartner]

theorem welcome_posts (s : State) (i : Index) (tv : Byte) (name : List Byte) :
    Traffic.Posts
      (if (rename s.byName renameGuard name s.random).2.1 then s.seeking i else s.farewell i)
      s.traffic (s.welcome i tv name).traffic := by
  simp only [welcome]
  generalize rename s.byName renameGuard name s.random = out
  obtain ⟨name', free, random⟩ := out
  dsimp only
  split
  · have hposts := tryPair_posts (({ s with random := random } : State).register i tv name') i
    rw [traffic_register, traffic_random] at hposts
    rwa [seeking_congr (s := s)] at hposts
    refine (waiting_eq (register_clients ..) (register_order ..) i).trans ?_
    exact (waiting_upd _ i _ rfl).trans (waiting_eq rfl rfl i)
  · have hposts := drop_posts (({ s with random := random } : State).say
      (.noFreeName (s.clients i).addr.1 (decode name'))) i
    have hsay : ∀ t : State, ∀ (host : ℕ) (name : Name),
        (t.say (.noFreeName host name)).traffic = t.traffic := by
      intro t host name
      simp only [traffic, say, List.any_append, List.any_cons, Line.spills, List.any_nil,
        Bool.or_false]
      rfl
    rw [hsay, traffic_random] at hposts
    exact hposts

/-- A HELLO, from what the checks make of it. -/
theorem greet_posts (s : State) (i : Index) (payload : List Byte)
    (v : Except Refusal (Byte × List Byte)) :
    Traffic.Posts (s.greeting i v) s.traffic (s.greet i payload v).traffic := by
  have htv : ∀ tv : Byte, (s.upd i fun c => { c with tv := some tv }).traffic = s.traffic :=
    fun tv => traffic_upd_quiet s i _ rfl
  have hgoes : ∀ tv : Byte, (s.upd i fun c => { c with tv := some tv }).farewell i = s.farewell i :=
    fun tv => farewell_congr (clients_upd_quiet s i i (fun c => { c with tv := some tv }) Slot.dead rfl)
      (clients_upd_quiet s i i (fun c => { c with tv := some tv }) Slot.partner rfl)
  have hrefused : ∀ (t : State) (l : Relay.Line), t.traffic = s.traffic →
      t.farewell i = s.farewell i →
      Traffic.Posts (s.farewell i) s.traffic ((t.say (.said l)).drop i).traffic := by
    intro t l htraffic hfarewell
    have hposts := drop_posts (t.say (.said l)) i
    rw [traffic_say, htraffic] at hposts
    rw [← hfarewell]
    exact hposts
  cases v with
  | ok x =>
    obtain ⟨tv, name⟩ := x
    have hposts := welcome_posts (s.upd i fun c => { c with tv := some tv }) i tv name
    rw [htv, hgoes, seeking_congr (waiting_upd s i (fun c => { c with tv := some tv }) rfl)] at hposts
    exact hposts
  | error r =>
    cases r with
    | version v => exact hrefused s _ rfl rfl
    | secam => exact hrefused _ _ (htv _) (hgoes _)
    | standard tv => exact hrefused _ _ (htv _) (hgoes _)
    | badName name => exact hrefused _ _ (htv _) (hgoes _)

theorem entries_flatten_length (s : State) : s.entries.flatten.length = 9 * s.entries.length := by
  have hentry : ∀ e ∈ s.entries, e.length = 9 := by
    intro e he
    obtain ⟨o, -, ho⟩ := List.mem_filterMap.mp (List.mem_of_mem_take he)
    obtain ⟨name, -, rfl⟩ := Option.map_eq_some_iff.mp ho
    rw [List.length_append, padName, ljust, List.length_append, List.length_replicate,
      List.length_take, List.length_singleton]
    omega
  rw [List.length_flatten, List.map_congr_left hentry, List.map_const', List.sum_replicate_nat,
    Nat.mul_comm]

theorem traffic_pairCrc (s : State) (i : Index) (tick crc : Byte) :
    (s.pairCrc i tick crc).traffic = s.traffic := by
  have hcrc : ∀ (t : State) (j : Index) (f : Slot → List (BitVec 64 × Byte)),
      (t.upd j fun c => { c with crc := f c }).traffic = t.traffic :=
    fun t j f => traffic_upd_quiet t j _ rfl
  have hnote : (s.upd i fun c => { c with
      lap := lapOf c tick, lastTick := some tick
      crc := crcSet c.crc (keyOf (s.clients i) tick) crc }).traffic = s.traffic :=
    traffic_upd_quiet s i _ rfl
  simp only [pairCrc]
  split
  · exact (hcrc _ i fun c => c.crc.drop (c.crc.length - 8)).trans hnote
  · next p _ =>
    split
    · exact (hcrc _ i fun c => c.crc.drop (c.crc.length - 8)).trans hnote
    · next n _ =>
      split
      · rw [traffic_say, traffic_stats]
        exact (hcrc _ p fun c => crcDelAt c.crc n).trans hnote
      · rw [traffic_stats]
        exact (hcrc _ p fun c => crcDelAt c.crc n).trans hnote

theorem forward_posts (s : State) (i : Index) (ftype : Byte) (payload : List Byte) :
    Traffic.Posts (s.forwarding i payload) s.traffic (s.forward i ftype payload).traffic := by
  simp only [forward, forwarding]
  cases (s.clients i).partner with
  | none => exact .nil
  | some p =>
    refine .one _ ?_ (traffic_send ..)
    rw [frame_length, List.length_append, List.length_replicate]
    split
    · omega
    · omega

/-- Whatever a frame makes the program queue, nothing else touches a buffer. -/
theorem handle_posts (s : State) (i : Index) (ftype : Byte) (payload : List Byte) :
    Traffic.Posts (s.outgoing i ftype payload) (s.traffic.hear i ftype payload)
      (s.handle i ftype payload).traffic := by
  rw [← traffic_handled]
  simp only [handle, outgoing]
  split
  · have hforward := forward_posts (s.note (.handled (s.conn i) ftype payload)) i ftype payload
    split
    · rw [logCrc, traffic_pairCrc]
      exact hforward
    · exact hforward
  · split
    · have hposts := greet_posts (s.note (.handled (s.conn i) ftype payload)) i payload
        (checkHello payload)
      rw [onHello_eq]
      exact hposts
    · split
      · refine .one _ ?_ (traffic_send ..)
        rw [frame_length, List.length_cons, entries_flatten_length]
        rfl
      · split
        · exact tryPair_posts (s.note (.handled (s.conn i) ftype payload)) i
        · split
          · exact .one _ rfl (traffic_send ..)
          · split
            · exact drop_posts (s.note (.handled (s.conn i) ftype payload)) i
            · rw [traffic_say]
              exact .nil

/-! ### Coming -/

/-- The connections that come from a host. -/
def fromHost (s : State) (host : ℕ) : ℕ :=
  (s.order.filter fun i => (s.clients i).addr.1 = host).length

/-- A connection that is not taken on is nowhere to be seen; one that is has a slot of its own. -/
theorem acceptClient_cases (s : State) (addr : ℕ × ℕ) (now : ℕ) :
    ((maxClients ≤ s.order.length ∨ maxConnectionsPerIp ≤ s.fromHost addr.1 ∨
        ∀ i, (s.clients i).inUse = true) ∧
      ∃ stats, s.acceptClient addr now = { s with stats := stats }) ∨
      ∃ i clients, (s.clients i).inUse = false ∧ s.acceptClient addr now = { s with
          clients := clients, order := s.order ++ [i]
          tag := Function.update s.tag s.accepted (i, (s.clients i).gen)
          accepted := s.accepted + 1, log := s.log ++ [.said (.connected addr)]
          trace := s.trace ++ [.accepted s.accepted] } ∧
        (∀ j, j ≠ i → clients j = s.clients j) ∧ clients i = { s.clients i with
          inUse := true, conn := s.accepted, addr := addr, rx := []
          tx := { (s.clients i).tx with len := 0 }, name := none, tv := none, partner := none
          role := none, born := now, dead := false, crc := [], lastTick := none, lap := 0 } := by
  rw [acceptClient]
  split
  · next horder => exact .inl ⟨.inl horder, _, rfl⟩
  · next horder =>
    split
    · next hhost => exact .inl ⟨.inr (.inl hhost), _, rfl⟩
    · split
      · next hnone =>
        refine .inl ⟨.inr (.inr fun i => ?_), _, rfl⟩
        simpa using List.find?_eq_none.mp hnone i (List.mem_finRange i)
      · next i hfree =>
        obtain ⟨clients, heq, hothers, hi⟩ := alloc_eq (c := s.note (.accepted s.accepted))
          (Nat.lt_of_not_le horder) i addr now
        refine .inr ⟨i, clients, by simpa using List.find?_some hfree, ?_, hothers, hi⟩
        have hgen : (clients i).gen = (s.clients i).gen := by rw [hi]; rfl
        dsimp only
        rw [heq, hgen]
        rfl

theorem acceptClient_traffic (s : State) (addr : ℕ × ℕ) (now : ℕ) :
    ((s.acceptClient addr now).traffic.queued = s.traffic.queued ∧
      (s.acceptClient addr now).traffic.handled = s.traffic.handled) ∧
      (s.acceptClient addr now).traffic.spilt = s.traffic.spilt := by
  rcases s.acceptClient_cases addr now with ⟨-, stats, heq⟩ | ⟨i, clients, -, heq, -⟩
  · rw [heq]
    exact ⟨⟨rfl, rfl⟩, rfl⟩
  · rw [heq]
    refine ⟨⟨funext fun c => ?_, funext fun c => ?_⟩, ?_⟩
    · exact (framesTo_append ..).trans (List.append_nil _)
    · exact (framesOf_append ..).trans (List.append_nil _)
    · have hsaid : (s.say (.said (.connected addr))).traffic.spilt = s.traffic.spilt := by
        rw [traffic_say]
      exact hsaid

end State
end VO.Port
