import VideoOlympics.Port.Turns

/-! What the relay in C offers the kernel. A send buffer holds what the kernel has not yet taken of what
    was queued, until more is queued in one event than the array has room for. How much that is depends
    on who is linked to whom, and on nothing in the buffers. -/

namespace VO.Port
open Relay

namespace Rack

variable {r : Rack} {i p q : Index}

/-- A slot whose connection has come, and has no other slot. -/
def Own (r : Rack) (q : Index) : Prop :=
  r.conn q < r.accepted ∧ ∀ j, r.inUse j = true → r.conn q = r.conn j → q = j

/-- Every link leads to another slot than its own, one that has its connection to itself. -/
structure Apart (r : Rack) : Prop extends r.Sound where
  linked : ∀ i, ∀ p ∈ r.partner i, p ≠ i ∧ r.Own p

theorem Sound.own (h : r.Sound) (hq : r.inUse q = true) : r.Own q :=
  ⟨h.known q hq, fun j hj heq => h.inj q j hq hj heq⟩

theorem Apart.leave (h : r.Apart) (i : Index) : (r.leave i).Apart := by
  obtain ⟨huse, hconn, -, -, haccepted, -⟩ := r.leave_fixed i
  refine ⟨h.toSound.leave i, ?_⟩
  intro j p hp
  rw [Own, huse, hconn, haccepted]
  exact h.linked j p (partner_leave hp)

theorem Apart.meet (h : r.Apart) {host guest : Index} (hhost : r.inUse host = true)
    (hguest : r.inUse guest = true) (hne : host ≠ guest) : (r.meet host guest).Apart := by
  refine ⟨h.toSound.meet host guest, ?_⟩
  intro j p hp
  have hp : p ∈ Function.update (Function.update r.partner host (some guest)) guest (some host) j := hp
  by_cases hjg : j = guest
  · subst hjg
    rw [Function.update_self] at hp
    obtain rfl := Option.some.inj hp
    exact ⟨hne, h.toSound.own hhost⟩
  · rw [Function.update_of_ne hjg] at hp
    by_cases hjh : j = host
    · subst hjh
      rw [Function.update_self] at hp
      obtain rfl := Option.some.inj hp
      exact ⟨hne.symm, h.toSound.own hguest⟩
    · rw [Function.update_of_ne hjh] at hp
      exact h.linked j p hp

theorem Apart.seat (h : r.Apart) (hi : r.inUse i = false) : (r.seat i).Apart := by
  refine ⟨h.toSound.seat hi, ?_⟩
  intro j p hp
  have hp : p ∈ Function.update r.partner i none j := hp
  by_cases hji : j = i
  · rw [hji, Function.update_self] at hp
    cases hp
  · rw [Function.update_of_ne hji] at hp
    obtain ⟨hne, hbelow, hown⟩ := h.linked j p hp
    have hconn : ∀ q, (r.seat i).conn q = if q = i then r.accepted else r.conn q :=
      fun q => Function.update_apply ..
    have huse : ∀ q, (r.seat i).inUse q = if q = i then true else r.inUse q :=
      fun q => Function.update_apply ..
    refine ⟨hne, ?_, ?_⟩
    · change (r.seat i).conn p < r.accepted + 1
      rw [hconn]
      split
      · exact Nat.lt_succ_self _
      · exact Nat.lt_succ_of_lt hbelow
    · intro q hq heq
      rw [huse] at hq
      rw [hconn, hconn] at heq
      by_cases hpi : p = i
      · rw [if_pos hpi] at heq
        by_cases hqi : q = i
        · rw [hpi, hqi]
        · rw [if_neg hqi] at heq hq
          exact absurd heq (Nat.ne_of_gt (h.known q hq))
      · rw [if_neg hpi] at heq
        by_cases hqi : q = i
        · rw [if_pos hqi] at heq
          exact absurd heq (Nat.ne_of_lt hbelow)
        · rw [if_neg hqi] at heq hq
          exact hown q hq heq

theorem Apart.reap (h : r.Apart) : r.reap.Apart := by
  refine ⟨h.toSound.reap, ?_⟩
  intro j p hp
  obtain ⟨hne, hbelow, hown⟩ := h.linked j p hp
  exact ⟨hne, hbelow, fun q hq heq => hown q (reap_inUse.mp hq).1 heq⟩

end Rack

namespace State

variable {s t : State} {i p : Index}

theorem Handles.apart {ftype : Byte} {payload : List Byte} {r : Rack}
    (h : s.Handles i ftype payload r) (ha : s.rack.Apart) (hi : (s.clients i).inUse = true) :
    r.Apart := by
  cases h with
  | quiet => exact ha
  | gone => exact ha.leave i
  | met host _ hw =>
    obtain ⟨horder, hne, -⟩ := waiting_waits hw
    exact ha.meet ((ha.mem_order host).mp horder).1 hi hne

theorem Handles.accepted {ftype : Byte} {payload : List Byte} {r : Rack}
    (h : s.Handles i ftype payload r) : r.accepted = s.accepted := by
  cases h with
  | quiet => rfl
  | gone => exact (s.rack.leave_fixed i).2.2.2.2.1
  | met _ _ _ => rfl

theorem apart_of_init (h : port.init s) : s.rack.Apart := by
  have hsound := (tied_of_init h).sound
  obtain ⟨delay, variation, lobby, random, -, -, rfl⟩ := h
  exact ⟨hsound, fun _ _ hp => by cases hp⟩

theorem step_apart {e : Event} (ha : s.rack.Apart) (h : port.step s e = some t) : t.rack.Apart := by
  refine step_keeps (I := Rack.Apart) (P := fun s i _ _ => (s.clients i).inUse = true)
    (fun _ i ha => ha.leave i) (fun _ _ ha hi => ha.seat hi) (fun _ ha => ha.reap)
    (fun s i _ _ _ ha hi hh => hh.apart ha hi) ?_ ha h
  refine eachHeard_of_keeps (I := fun i r => r.inUse i = true) (P := fun _ _ _ _ => True)
    (fun _ _ _ _ hi _ => hi) (fun s i _ _ _ hi _ hh => ?_)
    (eachHeard_of_forall (fun _ _ _ _ => trivial) s e) fun _ hi => hi
  rw [hh.inUse]
  exact hi

end State

/-! ### What reaches a slot's buffer -/

/-- How many of the bytes that are queued are for a slot. -/
def bytesFor (p : Index) (out : List (Index × ℕ)) : ℕ :=
  ((out.filter fun x => x.1 = p).map Prod.snd).sum

theorem bytesFor_append (p : Index) (out out' : List (Index × ℕ)) :
    bytesFor p (out ++ out') = bytesFor p out + bytesFor p out' := by
  simp only [bytesFor, List.filter_append, List.map_append, List.sum_append]

theorem bytesFor_cons (p : Index) (x : Index × ℕ) (out : List (Index × ℕ)) :
    bytesFor p (x :: out) = (if x.1 = p then x.2 else 0) + bytesFor p out := by
  rw [← List.singleton_append, bytesFor_append]
  congr 1
  by_cases hx : x.1 = p
  · simp [bytesFor, hx]
  · simp [bytesFor, hx]

namespace Traffic

variable {r r' r'' : Traffic} {p : Index} {m n : ℕ} {out : List (Index × ℕ)}

/-- So many bytes are queued for a slot, and are in its buffer if there is room for all of them. -/
structure Delivers (p : Index) (n : ℕ) (r r' : Traffic) : Prop where
  conn : r'.conn = r.conn
  capped : (r.tx p).len ≤ txCap → (r'.tx p).len ≤ txCap
  data : ∃ ds : List (List Byte), ds.flatten.length = n ∧
    r'.queued (r.conn p) = r.queued (r.conn p) ++ ds ∧
    ((r.tx p).len + n ≤ txCap → (r'.tx p).contents = (r.tx p).contents ++ ds.flatten)

theorem Delivers.refl (p : Index) (r : Traffic) : Delivers p 0 r r :=
  ⟨rfl, id, [], rfl, (List.append_nil _).symm, fun _ => (List.append_nil _).symm⟩

theorem Delivers.trans (h : Delivers p m r r') (h' : Delivers p n r' r'') :
    Delivers p (m + n) r r'' := by
  obtain ⟨hconn, hcapped, ds, hlen, hqueued, hdata⟩ := h
  obtain ⟨hconn', hcapped', ds', hlen', hqueued', hdata'⟩ := h'
  refine ⟨hconn'.trans hconn, hcapped' ∘ hcapped, ds ++ ds', ?_, ?_, ?_⟩
  · rw [List.flatten_append, List.length_append, hlen, hlen']
  · rw [← hconn, hqueued', hconn, hqueued, List.append_assoc]
  · intro hroom
    have hfirst := hdata (by omega)
    have hnow : (r'.tx p).len = (r.tx p).len + m := by
      rw [← Buffer.length_contents, hfirst, List.length_append, Buffer.length_contents, hlen]
    rw [hdata' (by omega), hfirst, List.flatten_append, List.append_assoc]

theorem fill_len_le (b : Buffer Byte) (data : List Byte) : (fill b data).len ≤ txCap := by
  rw [fill]
  split
  · exact Nat.le_refl _
  · exact Nat.le_of_not_lt ‹_›

/-- Something is queued for a slot, or for one of another connection. -/
theorem delivers_post {i : Index} (hown : r.conn i = r.conn p → i = p) (data : List Byte) :
    Delivers p (if i = p then data.length else 0) r (r.post i data) := by
  by_cases hip : i = p
  · subst hip
    rw [if_pos rfl]
    have htx : (r.post i data).tx i = fill (r.tx i) data := (tx_post ..).trans (if_pos rfl)
    refine ⟨rfl, ?_, [data], by simp, (queued_post ..).trans (if_pos rfl), ?_⟩
    · rw [htx]
      exact fun _ => fill_len_le _ data
    · intro hroom
      rw [htx, fill, if_neg (Nat.not_lt_of_le hroom), Buffer.contents_append, List.flatten_singleton]
  · rw [if_neg hip]
    have htx : (r.post i data).tx p = r.tx p := (tx_post ..).trans (if_neg (Ne.symm hip))
    have hqueued : (r.post i data).queued (r.conn p) = r.queued (r.conn p) :=
      (queued_post ..).trans (if_neg fun hc => hip (hown hc.symm))
    exact ⟨rfl, htx ▸ id, [], rfl, hqueued.trans (List.append_nil _).symm,
      fun _ => htx ▸ (List.append_nil _).symm⟩

theorem Posts.delivers (h : Posts out r r') (hown : ∀ x ∈ out, r.conn x.1 = r.conn p → x.1 = p) :
    Delivers p (bytesFor p out) r r' := by
  induction h with
  | nil => exact .refl p _
  | cons data _ ih =>
    obtain ⟨hhead, htail⟩ := List.forall_mem_cons.mp hown
    rw [bytesFor_cons]
    exact (delivers_post hhead data).trans (ih htail)

/-- What is queued for others leaves a connection's queue alone. -/
theorem Posts.queued (h : Posts out r r') {c : ℕ} (hc : ∀ x ∈ out, r.conn x.1 ≠ c) :
    r'.queued c = r.queued c := by
  induction h with
  | nil => rfl
  | cons data _ ih =>
    obtain ⟨hhead, htail⟩ := List.forall_mem_cons.mp hc
    rw [ih htail]
    exact (queued_post ..).trans (if_neg (Ne.symm hhead))

end Traffic
namespace State

variable {s t : State} {i p : Index}

/-! ### What an event makes the program queue -/

/-- The framing loop, given so many turns. -/
def loopOut : ℕ → State → Index → List (Index × ℕ)
  | 0, _, _ => []
  | turns + 1, s, i =>
    match headOf (s.clients i).rx with
    | .wait => []
    | .bad _ => s.farewell i
    | .whole ftype payload rest => (s.taking i rest).outgoing i ftype payload ++
        loopOut turns ((s.taking i rest).handle i ftype payload) i

def recvOut (s : State) (i : Index) (data : List Byte) : List (Index × ℕ) :=
  if data = [] ∨ rxCap < (s.clients i).rx.length + data.length then s.farewell i
  else (s.hearing i data).loopOut (((s.hearing i data).clients i).rx.length + 1) i

/-- What the kernel leaves of a buffer. -/
def leftover (s : State) (i : Index) : Server.Sent → ℕ
  | .some k => (s.clients i).tx.len - k
  | _ => (s.clients i).tx.len

def flushOut (s : State) (i : Index) (res : Server.Sent) : List (Index × ℕ) :=
  if (s.clients i).tx.len ≠ 0 ∧ (res = .failed ∨ maxTxBacklog < s.leftover i res) then s.farewell i
  else []

def sweepOut (now : ℕ) : List Index → State → List (Index × ℕ)
  | [], _ => []
  | i :: is, s =>
    (if (s.clients i).inUse ∧ (s.clients i).dead = false ∧ (s.clients i).name = none ∧
      helloTimeout < now - (s.clients i).born then s.farewell i else []) ++
        sweepOut now is (s.sweepOne now i)

/-- All that an event makes the program queue. No buffer has a say in it. -/
def addressed (s : State) : Event → List (Index × ℕ)
  | .loop (.recv c data _) => if s.Woken c (s.tag c).1 then s.recvOut (s.tag c).1 data else []
  | .loop (.flush c res) => if s.Woken c (s.tag c).1 then s.flushOut (s.tag c).1 res else []
  | .loop (.sweep now) => sweepOut now s.order s
  | _ => []

/-- For every slot, what waits in its buffer and what the event queues for it fit the array. -/
def Spare (s : State) (e : Event) : Prop :=
  ∀ p, (s.clients p).inUse = true → (s.clients p).tx.len + bytesFor p (s.addressed e) ≤ txCap

instance (s : State) (e : Event) : Decidable (s.Spare e) := inferInstanceAs (Decidable (∀ _, _))

/-- Who something may be queued for. -/
def Reaches (s : State) (i p : Index) : Prop :=
  p = i ∨ p ∈ s.order ∨ p ∈ (s.clients i).partner

theorem farewell_reaches : ∀ x ∈ s.farewell i, x.1 ∈ (s.clients i).partner := by
  rw [farewell]
  split
  · simp
  · split
    · next p hp =>
      rw [hp]
      simp
    · simp

theorem seeking_reaches : ∀ x ∈ s.seeking i, s.Reaches i x.1 := by
  rw [seeking]
  split
  · next host hw =>
    have hhost := (waiting_waits hw).1
    simp only [List.mem_cons, List.not_mem_nil, or_false]
    rintro x (rfl | rfl)
    · exact .inr (.inl hhost)
    · exact .inl rfl
  · simp

theorem outgoing_reaches (ftype : Byte) (payload : List Byte) :
    ∀ x ∈ s.outgoing i ftype payload, s.Reaches i x.1 := by
  have hfarewell : ∀ x ∈ s.farewell i, s.Reaches i x.1 :=
    fun x hx => .inr (.inr (farewell_reaches x hx))
  have hown : ∀ n : ℕ, ∀ x ∈ [(i, n)], s.Reaches i x.1 := by
    intro n x hx
    exact .inl (congrArg Prod.fst (List.mem_singleton.mp hx))
  rw [outgoing]
  split
  · rw [forwarding]
    split
    · next p hp =>
      intro x hx
      refine .inr (.inr ?_)
      rw [hp, List.mem_singleton.mp hx]
      rfl
    · simp
  · split
    · rw [greeting.eq_def]
      split
      · split
        · exact seeking_reaches
        · exact hfarewell
      · exact hfarewell
    · split
      · exact hown _
      · split
        · exact seeking_reaches
        · split
          · exact hown _
          · split
            · exact hfarewell
            · simp

theorem Reaches.own (h : s.Reaches i p) (ha : s.rack.Apart) (hi : (s.clients i).inUse = true) :
    s.rack.Own p := by
  rcases h with rfl | h | h
  · exact ha.own hi
  · exact ha.own ((ha.mem_order p).mp h).1
  · exact (ha.linked i p h).2

/-- What a list of lengths says of the traffic: every slot that has its connection to itself gets what is
    for it, and connections that are still to come get nothing. -/
structure Queues (s : State) (out : List (Index × ℕ)) (t : State) : Prop where
  delivers : ∀ p, s.rack.inUse p = true → Traffic.Delivers p (bytesFor p out) s.traffic t.traffic
  queued : ∀ c, s.accepted ≤ c → framesTo c t.trace = framesTo c s.trace
  apart : t.rack.Apart
  inUse : t.rack.inUse = s.rack.inUse
  accepted : t.accepted = s.accepted

theorem Queues.nil (ha : s.rack.Apart) : s.Queues [] s :=
  ⟨fun p _ => .refl p _, fun _ _ => rfl, ha, rfl, rfl⟩

theorem Queues.trans {u : State} {out out' : List (Index × ℕ)} (h : s.Queues out t)
    (h' : t.Queues out' u) : s.Queues (out ++ out') u := by
  refine ⟨?_, ?_, h'.apart, h'.inUse.trans h.inUse, h'.accepted.trans h.accepted⟩
  · intro p hp
    rw [bytesFor_append]
    exact (h.delivers p hp).trans (h'.delivers p (h.inUse ▸ hp))
  · intro c hc
    rw [h'.queued c (h.accepted ▸ hc), h.queued c hc]

theorem Queues.of_posts {out : List (Index × ℕ)}
    (hp : Traffic.Posts out s.traffic t.traffic) (hown : ∀ x ∈ out, s.rack.Own x.1)
    (ha' : t.rack.Apart) (huse : t.rack.inUse = s.rack.inUse) (haccepted : t.accepted = s.accepted) :
    s.Queues out t := by
  refine ⟨?_, ?_, ha', huse, haccepted⟩
  · exact fun p hp' => hp.delivers fun x hx heq => (hown x hx).2 p hp' heq
  · intro c hc
    refine hp.queued (c := c) fun x hx heq => ?_
    have hbelow : s.conn x.1 < s.accepted := (hown x hx).1
    have heq : s.conn x.1 = c := heq
    omega

/-- The start of it may be read off another state with the same buffers, links and slots. -/
theorem Queues.of_eq {s₁ : State} {out : List (Index × ℕ)} (h : s₁.Queues out t)
    (htraffic : s₁.traffic.conn = s.traffic.conn ∧ s₁.traffic.tx = s.traffic.tx ∧
      s₁.traffic.queued = s.traffic.queued) (hrack : s₁.rack = s.rack) : s.Queues out t := by
  obtain ⟨hconn, htx, hqueued⟩ := htraffic
  have haccepted : s₁.accepted = s.accepted := congrArg Rack.accepted hrack
  refine ⟨?_, ?_, h.apart, h.inUse.trans (congrArg Rack.inUse hrack), h.accepted.trans haccepted⟩
  · intro p hp
    obtain ⟨hconn', hcapped, ds, hlen, hds, hdata⟩ := h.delivers p (hrack ▸ hp)
    rw [htx] at hcapped hdata
    rw [hconn, hqueued] at hds
    exact ⟨hconn'.trans hconn, hcapped, ds, hlen, hds, hdata⟩
  · intro c hc
    exact (h.queued c (haccepted ▸ hc)).trans (congrFun hqueued c)

theorem drop_queues (ha : s.rack.Apart) (i : Index) : s.Queues (s.farewell i) (s.drop i) := by
  obtain ⟨huse, -, -, -, haccepted, -⟩ := s.rack.leave_fixed i
  have hrack := s.rack_drop i
  rw [← hrack] at huse haccepted
  exact .of_posts (s.drop_posts i) (fun x hx => (ha.linked i x.1 (farewell_reaches x hx)).2)
    (hrack ▸ ha.leave i) huse haccepted

theorem handle_queues (ha : s.rack.Apart) (hi : (s.clients i).inUse = true) (ftype : Byte)
    (payload : List Byte) :
    s.Queues (s.outgoing i ftype payload) (s.handle i ftype payload) := by
  have hrack := s.handle_handles i ftype payload
  have hposts := s.handle_posts i ftype payload
  have haccepted : (s.handle i ftype payload).accepted = s.accepted := hrack.accepted
  rw [← traffic_handled] at hposts
  have hnote : (s.note (.handled (s.conn i) ftype payload)).rack = s.rack := rack_note rfl s
  refine Queues.of_eq (.of_posts hposts ?_ (hrack.apart ha hi)
    (hrack.inUse.trans (congrArg Rack.inUse hnote.symm)) haccepted) ⟨rfl, rfl, ?_⟩ hnote
  · intro x hx
    rw [hnote]
    exact (outgoing_reaches ftype payload x hx).own ha hi
  · rw [traffic_handled]
    rfl

theorem loop_queues {turns : ℕ} {s : State} (ha : s.rack.Apart) (hi : (s.clients i).inUse = true) :
    s.Queues (s.loopOut turns i) (s.serviceLoop turns i) := by
  induction turns generalizing s with
  | zero => exact .nil ha
  | succ turns ih =>
    cases hhead : headOf (s.clients i).rx with
    | wait =>
      rw [loopOut, serviceLoop, hhead]
      exact .nil ha
    | bad n =>
      have hout : s.loopOut (turns + 1) i = s.farewell i := by rw [loopOut, hhead]
      have hbad : s.serviceLoop (turns + 1) i = s.badLength i n := by rw [serviceLoop, hhead]
      rw [hout, hbad, badLength]
      refine Queues.of_eq (drop_queues (s := ({ s with stats :=
        { s.stats with badFrames := s.stats.badFrames + 1 } } : State).say
          (.said (.badLength (s.nameOrQ i) n))) ha i) ⟨rfl, rfl, rfl⟩ rfl
    | whole ftype payload rest =>
      have hout : s.loopOut (turns + 1) i = (s.taking i rest).outgoing i ftype payload ++
          ((s.taking i rest).handle i ftype payload).loopOut turns i := by rw [loopOut, hhead]
      have hrack := rack_taking s i rest
      have htraffic : (s.taking i rest).traffic = s.traffic :=
        traffic_upd_quiet s i (fun c => { c with rx := rest }) rfl
      have huse : ((s.taking i rest).clients i).inUse = true :=
        (congrFun (congrArg Rack.inUse hrack) i).trans hi
      have hframe := handle_queues (hrack ▸ ha) huse ftype payload
      rw [hout, serviceLoop_whole hhead]
      refine Queues.trans (hframe.of_eq ?_ hrack) (ih hframe.apart ?_)
      · rw [htraffic]
        exact ⟨rfl, rfl, rfl⟩
      · exact (congrFun hframe.inUse i).trans huse

theorem service_queues (ha : s.rack.Apart) (hi : (s.clients i).inUse = true) (data : List Byte) :
    s.Queues (s.recvOut i data) (s.service i data) := by
  have htraffic : (s.hearing i data).traffic = s.traffic :=
    traffic_upd_quiet s i (fun c => { c with rx := (s.clients i).rx ++ data }) rfl
  have hrack : (s.hearing i data).rack = s.rack := rack_taking s i _
  rw [recvOut, service]
  by_cases hdata : data = []
  · rw [if_pos (.inl hdata), if_pos hdata]
    exact drop_queues ha i
  · rw [if_neg hdata]
    by_cases hfits : rxCap < (s.clients i).rx.length + data.length
    · rw [if_pos (.inr hfits), if_pos hfits]
      exact Queues.of_eq (drop_queues (s := s.say (.rxOverflow (s.nameOrQ i) (s.clients i).rx.length
        data.length)) ha i) ⟨rfl, rfl, rfl⟩ rfl
    · rw [if_neg (not_or.mpr ⟨hdata, hfits⟩), if_neg hfits]
      refine Queues.of_eq (loop_queues (hrack ▸ ha) ?_) ?_ hrack
      · exact (congrFun (congrArg Rack.inUse hrack) i).trans hi
      · rw [htraffic]
        exact ⟨rfl, rfl, rfl⟩

theorem sweep_queues (now : ℕ) {is : List Index} {s : State} (ha : s.rack.Apart) :
    s.Queues (sweepOut now is s) (is.foldl (sweepOne now) s) := by
  induction is generalizing s with
  | nil => exact .nil ha
  | cons i is ih =>
    have hone : s.Queues (if (s.clients i).inUse ∧ (s.clients i).dead = false ∧
        (s.clients i).name = none ∧ helloTimeout < now - (s.clients i).born then s.farewell i else [])
        (s.sweepOne now i) := by
      rw [sweepOne]
      split
      · exact Queues.of_eq (drop_queues (s := { s with stats :=
          { s.stats with helloTimeouts := s.stats.helloTimeouts + 1 } }) ha i) ⟨rfl, rfl, rfl⟩ rfl
      · exact .nil ha
    exact hone.trans (ih hone.apart)

end State

/-! ### What the kernel has taken -/

/-- The program, and what the kernel has taken of each connection's queue. -/
structure Watched where
  state : State
  taken : ℕ → List Byte

namespace Watched

/-- What the kernel takes when a buffer is flushed. -/
def took (x : Watched) : Event → (ℕ → List Byte)
  | .loop (.flush c (.some k)) =>
    let i := (x.state.tag c).1
    if x.state.Woken c i then
      Function.update x.taken (x.state.conn i)
        (x.taken (x.state.conn i) ++ (x.state.clients i).tx.contents.take k)
    else x.taken
  | _ => x.taken

/-- What the kernel has taken, and behind that what it is offered next, are the frames that have been
    queued, one after the other. -/
def Whole (x : Watched) : Prop := ∀ i, (x.state.clients i).inUse = true →
  x.taken (x.state.conn i) ++ (x.state.clients i).tx.contents =
    (framesTo (x.state.conn i) x.state.trace).flatten

end Watched

/-- The program, watched. -/
def watched : Machine Watched Event where
  init x := port.init x.state ∧ x.taken = fun _ => []
  step x e := (port.step x.state e).map fun t => { state := t, taken := x.took e }

namespace Watched

variable {x y : Watched}

/-- What is so whatever is queued. -/
structure Kept (x : Watched) : Prop where
  apart : x.state.rack.Apart
  capped : ∀ p, (x.state.clients p).inUse = true → (x.state.clients p).tx.len ≤ txCap
  queued : ∀ c, x.state.accepted ≤ c → framesTo c x.state.trace = []
  taken : ∀ c, x.state.accepted ≤ c → x.taken c = []

/-- After something has been queued, a slot's queue is whole just when there was room for it. -/
theorem whole_iff {s : State} {t : State} {taken : ℕ → List Byte} {out : List (Index × ℕ)}
    (hq : s.Queues out t) (hcap : ∀ p, (s.clients p).inUse = true → (s.clients p).tx.len ≤ txCap)
    (hwhole : Whole ⟨s, taken⟩) : Whole ⟨t, taken⟩ ↔
      ∀ p, (s.clients p).inUse = true → (s.clients p).tx.len + bytesFor p out ≤ txCap := by
  refine forall_congr' fun p => ?_
  rw [show (t.clients p).inUse = (s.clients p).inUse from congrFun hq.inUse p]
  refine imp_congr_right fun hp => ?_
  obtain ⟨hconn, hcapped, ds, hlen, hds, hdata⟩ := hq.delivers p hp
  have hqueued : framesTo (t.conn p) t.trace = framesTo (s.conn p) s.trace ++ ds := by
    rw [show t.conn p = s.conn p from congrFun hconn p]
    exact hds
  have hwas : taken (s.conn p) ++ (s.clients p).tx.contents =
    (framesTo (s.conn p) s.trace).flatten := hwhole p hp
  dsimp only
  rw [hqueued, List.flatten_append, ← hwas, show t.conn p = s.conn p from congrFun hconn p,
    List.append_assoc, List.append_right_inj]
  constructor
  · intro heq
    have hlen' := congrArg List.length heq
    rw [List.length_append, Buffer.length_contents, Buffer.length_contents, hlen] at hlen'
    exact hlen' ▸ hcapped (hcap p hp)
  · exact fun hroom => hdata hroom

theorem Kept.of_queues {s t : State} {taken : ℕ → List Byte} {out : List (Index × ℕ)}
    (h : Kept ⟨s, taken⟩) (hq : s.Queues out t) : Kept ⟨t, taken⟩ := by
  refine ⟨hq.apart, ?_, ?_, ?_⟩
  · intro p hp
    have hp : (s.clients p).inUse = true := (congrFun hq.inUse p).symm.trans hp
    exact (hq.delivers p hp).capped (h.capped p hp)
  · intro c hc
    have hc : s.accepted ≤ c := hq.accepted ▸ hc
    exact (hq.queued c hc).trans (h.queued c hc)
  · intro c hc
    exact h.taken c (hq.accepted ▸ hc)

/-- An event that only queues. -/
theorem queues_step {s t : State} {taken : ℕ → List Byte} {out : List (Index × ℕ)}
    (hk : Kept ⟨s, taken⟩) (hq : s.Queues out t) : Kept ⟨t, taken⟩ ∧
      (Whole ⟨s, taken⟩ → (Whole ⟨t, taken⟩ ↔
        ∀ p, (s.clients p).inUse = true → (s.clients p).tx.len + bytesFor p out ≤ txCap)) :=
  ⟨hk.of_queues hq, fun hw => whole_iff hq hk.capped hw⟩

end Watched

namespace State

variable {s : State} {i p : Index}

/-- The state the kernel leaves when it has taken its part of a buffer. -/
def left (s : State) (i : Index) : Server.Sent → State
  | .some k => s.upd i fun c => { c with tx := c.tx.discard k }
  | _ => s

theorem left_rack (s : State) (i : Index) (res : Server.Sent) : (s.left i res).rack = s.rack := by
  cases res with
  | some k => exact rack_upd_quiet s i _ rfl
  | blocked => rfl
  | failed => rfl

theorem left_tx (s : State) (i p : Index) (res : Server.Sent) :
    ((s.left i res).clients p).tx.len =
      if p = i then s.leftover i res else (s.clients p).tx.len := by
  cases res with
  | some k =>
    rw [left, clients_upd]
    exact apply_ite (fun c : Slot => c.tx.len) ..
  | blocked => exact (ite_eq_right_iff.mpr fun h => h ▸ rfl).symm
  | failed => exact (ite_eq_right_iff.mpr fun h => h ▸ rfl).symm

theorem left_farewell (s : State) (i : Index) (res : Server.Sent) :
    (s.left i res).farewell i = s.farewell i := by
  cases res with
  | some k =>
    exact farewell_congr (clients_upd_quiet s i i (fun c => { c with tx := c.tx.discard k }) Slot.dead
      rfl) (clients_upd_quiet s i i (fun c => { c with tx := c.tx.discard k }) Slot.partner rfl)
  | blocked => rfl
  | failed => rfl

/-- A buffer that is not empty is flushed: the kernel takes its part, and the client may go. -/
theorem flush_queues (ha : s.rack.Apart) (hlen : (s.clients i).tx.len ≠ 0)
    (hlive : (s.clients i).dead = false) (res : Server.Sent) :
    (s.left i res).Queues (s.flushOut i res) (s.flush i res) := by
  have ha' : (s.left i res).rack.Apart := s.left_rack i res ▸ ha
  have hown : ((s.left i res).clients i).tx.len = s.leftover i res :=
    (s.left_tx i i res).trans (if_pos rfl)
  have hcheck : res ≠ .failed →
      (s.left i res).Queues (s.flushOut i res) ((s.left i res).checkBacklog i) := by
    intro hne
    rw [flushOut, checkBacklog, hown]
    by_cases hover : maxTxBacklog < s.leftover i res
    · rw [if_pos ⟨hlen, .inr hover⟩, if_pos hover, ← left_farewell s i res]
      exact Queues.of_eq (drop_queues (s := ({ s.left i res with stats :=
        { (s.left i res).stats with txDrops := (s.left i res).stats.txDrops + 1 } } : State).say
          (.said (.backedUp ((s.left i res).nameOrQ i) (s.leftover i res)))) ha' i) ⟨rfl, rfl, rfl⟩ rfl
    · rw [if_neg fun h => hover (h.2.resolve_left hne), if_neg hover]
      exact .nil ha'
  rw [State.flush.eq_def, if_neg hlen, if_neg (by simp [hlive])]
  cases res with
  | failed =>
    rw [flushOut, if_pos ⟨hlen, .inl rfl⟩]
    exact drop_queues ha i
  | blocked => exact hcheck (by simp)
  | some k => exact hcheck (by simp)

end State

namespace Watched

variable {x y : Watched} {e : Event}

/-- The kernel's part of a buffer. -/
def part (b : Buffer Byte) : Server.Sent → List Byte
  | .some k => b.contents.take k
  | _ => []

theorem part_left (s : State) (i : Index) (res : Server.Sent) :
    part (s.clients i).tx res ++ ((s.left i res).clients i).tx.contents =
      (s.clients i).tx.contents := by
  cases res with
  | some k =>
    rw [State.left, State.clients_upd, if_pos rfl, Buffer.contents_discard]
    exact List.take_append_drop k _
  | blocked => rfl
  | failed => rfl

theorem took_flush {c : ℕ} {i : Index} (hi : x.state.Woken c i) (res : Server.Sent) :
    x.took (.loop (.flush c res)) = Function.update x.taken (x.state.conn i)
      (x.taken (x.state.conn i) ++ part (x.state.clients i).tx res) := by
  have htag : (x.state.tag c).1 = i := congrArg Prod.fst hi.1
  cases res with
  | some k =>
    rw [took, htag]
    exact if_pos hi
  | blocked =>
    have hnone : part (x.state.clients i).tx .blocked = [] := rfl
    rw [hnone, List.append_nil, Function.update_eq_self]
    rfl
  | failed =>
    have hnone : part (x.state.clients i).tx .failed = [] := rfl
    rw [hnone, List.append_nil, Function.update_eq_self]
    rfl

/-- What the kernel has taken and what it has left are what there was. -/
theorem left_step (hk : x.Kept) {c : ℕ} {i : Index} (hi : x.state.Woken c i) (res : Server.Sent) :
    Kept ⟨x.state.left i res, x.took (.loop (.flush c res))⟩ ∧
      (x.Whole → Whole ⟨x.state.left i res, x.took (.loop (.flush c res))⟩) := by
  have hrack := x.state.left_rack i res
  have hconn : (x.state.left i res).conn = x.state.conn := congrArg Rack.conn hrack
  have huse : ∀ p, ((x.state.left i res).clients p).inUse = (x.state.clients p).inUse :=
    fun p => congrFun (congrArg Rack.inUse hrack) p
  have haccepted : (x.state.left i res).accepted = x.state.accepted := congrArg Rack.accepted hrack
  have htrace : (x.state.left i res).trace = x.state.trace := by
    cases res with
    | _ => rfl
  have hless : x.state.leftover i res ≤ (x.state.clients i).tx.len := by
    cases res with
    | some k => exact Nat.sub_le ..
    | blocked => exact Nat.le_refl _
    | failed => exact Nat.le_refl _
  rw [took_flush hi]
  refine ⟨⟨hrack ▸ hk.apart, ?_, ?_, ?_⟩, ?_⟩
  · intro p hp
    have hcap := hk.capped p ((huse p).symm.trans hp)
    dsimp only
    rw [State.left_tx]
    split
    · next hpi => exact hless.trans (hpi ▸ hcap)
    · exact hcap
  · intro c hc
    dsimp only at hc ⊢
    rw [htrace]
    exact hk.queued c (haccepted ▸ hc)
  · intro d hd
    have hd : x.state.accepted ≤ d := haccepted ▸ hd
    have hne : d ≠ x.state.conn i := Nat.ne_of_gt (Nat.lt_of_lt_of_le (hk.apart.known i hi.2.1) hd)
    exact (Function.update_of_ne hne ..).trans (hk.taken d hd)
  · intro hw p hp
    have hp : (x.state.clients p).inUse = true := (huse p).symm.trans hp
    have hwas := hw p hp
    dsimp only
    rw [hconn, htrace, ← hwas]
    by_cases hpi : p = i
    · subst hpi
      rw [Function.update_self, List.append_assoc, part_left]
    · have hne : x.state.conn p ≠ x.state.conn i := fun heq => hpi (hk.apart.inj p i hp hi.2.1 heq)
      have htx : ((x.state.left i res).clients p).tx = (x.state.clients p).tx := by
        cases res with
        | some k =>
          rw [State.left, State.clients_upd, if_neg hpi]
        | blocked => rfl
        | failed => rfl
      rw [Function.update_of_ne hne, htx]

/-- A client is flushed. -/
theorem flush_step (hk : x.Kept) {c : ℕ} {i : Index} (hi : x.state.Woken c i) (res : Server.Sent) :
    Kept ⟨x.state.flush i res, x.took (.loop (.flush c res))⟩ ∧
      (x.Whole → (Whole ⟨x.state.flush i res, x.took (.loop (.flush c res))⟩ ↔
        ∀ p, (x.state.clients p).inUse = true →
          (x.state.clients p).tx.len + bytesFor p (x.state.flushOut i res) ≤ txCap)) := by
  by_cases hlen : (x.state.clients i).tx.len = 0
  · have hsame : x.state.flush i res = x.state := by rw [State.flush.eq_def, if_pos hlen]
    have hnone : part (x.state.clients i).tx res = [] := by
      cases res with
      | some k =>
        rw [part, Buffer.contents_eq_nil.mpr hlen, List.take_nil]
      | blocked => rfl
      | failed => rfl
    have htook : x.took (.loop (.flush c res)) = x.taken := by
      rw [took_flush hi, hnone, List.append_nil, Function.update_eq_self]
    rw [hsame, htook, State.flushOut, if_neg fun h => h.1 hlen]
    exact ⟨hk, fun hw => iff_of_true hw fun p hp => hk.capped p hp⟩
  · obtain ⟨hk', hw'⟩ := left_step hk hi res
    have hq := State.flush_queues hk.apart hlen hi.2.2 res
    obtain ⟨hkept, hiff⟩ := queues_step hk' hq
    refine ⟨hkept, fun hw => (hiff (hw' hw)).trans (forall_congr' fun p => ?_)⟩
    have huse : ((x.state.left i res).clients p).inUse = (x.state.clients p).inUse :=
      congrFun (congrArg Rack.inUse (x.state.left_rack i res)) p
    rw [huse]
    refine imp_congr_right fun hp => ?_
    rw [State.left_tx]
    split
    · next hpi =>
      -- nobody is its own partner, so there is nothing in it for the client itself
      subst hpi
      have hnone : bytesFor p (x.state.flushOut p res) = 0 := by
        rw [State.flushOut]
        split
        · have hother : ∀ y ∈ x.state.farewell p, y.1 ≠ p := fun y hy =>
            (hk.apart.linked p y.1 (State.farewell_reaches y hy)).1
          rw [bytesFor, List.filter_eq_nil_iff.mpr (by simpa using hother)]
          rfl
        · rfl
      have hcap := hk.capped p hp
      have hcap' := hk'.capped p (huse.trans hp)
      rw [State.left_tx, if_pos rfl] at hcap'
      rw [hnone]
      exact iff_of_true hcap' hcap
    · exact Iff.rfl

theorem step_cases {x y : Watched} {e : Event} (h : watched.step x e = some y) :
    port.step x.state e = some y.state ∧ y.taken = x.took e := by
  obtain ⟨t, ht, rfl⟩ := Option.map_eq_some_iff.mp h
  exact ⟨ht, rfl⟩

/-- A connection comes, with an empty buffer. -/
theorem accept_step {s : State} {taken : ℕ → List Byte} (hk : Kept ⟨s, taken⟩) (addr : ℕ × ℕ)
    (now : ℕ) : Kept ⟨s.acceptClient addr now, taken⟩ ∧
      (Whole ⟨s, taken⟩ → Whole ⟨s.acceptClient addr now, taken⟩) := by
  have hapart : (s.acceptClient addr now).rack.Apart :=
    State.step_apart (e := .loop (.accept addr now)) hk.apart rfl
  rcases s.acceptClient_cases addr now with ⟨-, stats, heq⟩ | ⟨i, clients, -, heq, hothers, hi⟩
  · rw [heq] at hapart ⊢
    exact ⟨⟨hapart, hk.capped, hk.queued, hk.taken⟩, id⟩
  · rw [heq] at hapart ⊢
    have htrace : ∀ c, framesTo c (s.trace ++ [.accepted s.accepted]) = framesTo c s.trace :=
      fun c => (framesTo_append ..).trans (List.append_nil _)
    refine ⟨⟨hapart, ?_, ?_, ?_⟩, ?_⟩
    · intro p hp
      dsimp only at hp ⊢
      by_cases hpi : p = i
      · rw [hpi, hi]
        exact Nat.zero_le _
      · rw [hothers p hpi] at hp ⊢
        exact hk.capped p hp
    · intro c hc
      exact (htrace c).trans (hk.queued c (Nat.le_of_succ_le hc))
    · exact fun c hc => hk.taken c (Nat.le_of_succ_le hc)
    · intro hw p hp
      have hp : (clients p).inUse = true := hp
      have hempty : taken s.accepted = [] := hk.taken _ (Nat.le_refl _)
      have hunheard : framesTo s.accepted s.trace = [] := hk.queued _ (Nat.le_refl _)
      change taken (clients p).conn ++ (clients p).tx.contents =
        (framesTo (clients p).conn (s.trace ++ [.accepted s.accepted])).flatten
      rw [htrace]
      by_cases hpi : p = i
      · rw [hpi, hi]
        dsimp only
        rw [hempty, hunheard]
        rfl
      · rw [hothers p hpi] at hp ⊢
        exact hw p hp

/-- Slots are freed. -/
theorem reap_step {s : State} {taken : ℕ → List Byte} (hk : Kept ⟨s, taken⟩) :
    Kept ⟨s.reap, taken⟩ ∧ (Whole ⟨s, taken⟩ → Whole ⟨s.reap, taken⟩) := by
  have hload : ∀ p, (s.reap.clients p).load = (s.clients p).load := by
    intro p
    rw [State.reap]
    dsimp only
    split
    · rfl
    · rfl
  have huse : ∀ p, (s.reap.clients p).inUse = true → (s.clients p).inUse = true := by
    intro p hp
    rw [show (s.reap.clients p).inUse = s.rack.reap.inUse p from
      congrFun (congrArg Rack.inUse s.reap_rack) p] at hp
    exact (Rack.reap_inUse.mp hp).1
  refine ⟨⟨s.reap_rack ▸ hk.apart.reap, ?_, hk.queued, hk.taken⟩, ?_⟩
  · intro p hp
    dsimp only
    rw [show (s.reap.clients p).tx = (s.clients p).tx from congrArg Prod.snd (hload p)]
    exact hk.capped p (huse p hp)
  · intro hw p hp
    dsimp only
    rw [show (s.reap.clients p).tx = (s.clients p).tx from congrArg Prod.snd (hload p),
      show s.reap.conn p = s.conn p from congrArg Prod.fst (hload p)]
    exact hw p (huse p hp)

theorem wake_asleep {s : State} {c : ℕ} (h : ¬ s.Woken c (s.tag c).1) (f : State → Index → State) :
    s.wake c f = s := by
  rcases s.wake_cases c f with hw | ⟨i, hi, -⟩
  · exact hw
  · have htag : (s.tag c).1 = i := congrArg Prod.fst hi.1
    rw [htag] at h
    exact absurd hi h

/-- Between two watched states what is kept is kept, and the queues stay whole just when there was
    room. -/
theorem step_spec (hk : x.Kept) (h : watched.step x e = some y) :
    y.Kept ∧ (x.Whole → (y.Whole ↔ x.state.Spare e)) := by
  obtain ⟨s, taken⟩ := x
  obtain ⟨t, taken'⟩ := y
  obtain ⟨ht, htook⟩ := step_cases h
  dsimp only at ht htook
  subst htook
  have hspare : s.addressed e = [] → s.Spare e := by
    intro hnone p hp
    rw [hnone]
    exact hk.capped p hp
  cases e with
  | reap =>
    obtain rfl : s.reap = t := Option.some.inj ht
    obtain ⟨hkept, hwhole⟩ := reap_step hk
    exact ⟨hkept, fun hw => iff_of_true (hwhole hw) (hspare rfl)⟩
  | loop e =>
    cases e with
    | accept addr now =>
      obtain rfl : s.acceptClient addr now = t := Option.some.inj ht
      obtain ⟨hkept, hwhole⟩ := accept_step hk addr now
      exact ⟨hkept, fun hw => iff_of_true (hwhole hw) (hspare rfl)⟩
    | sweep now =>
      obtain rfl : s.sweep now = t := Option.some.inj ht
      exact queues_step hk (State.sweep_queues now hk.apart)
    | flush c res =>
      obtain rfl : (s.wake c fun s i => s.flush i res) = t := Option.some.inj ht
      by_cases hi : s.Woken c (s.tag c).1
      · obtain ⟨hkept, hiff⟩ := flush_step hk hi res
        rw [State.wake_woken hi]
        refine ⟨hkept, fun hw => (hiff hw).trans ?_⟩
        rw [State.Spare, State.addressed, if_pos hi]
      · have hsame : took ⟨s, taken⟩ (.loop (.flush c res)) = taken := by
          cases res with
          | some k => exact if_neg hi
          | blocked => rfl
          | failed => rfl
        rw [wake_asleep hi, hsame]
        exact ⟨hk, fun hw => iff_of_true hw (hspare (if_neg hi))⟩
    | recv c data k =>
      obtain ⟨-, rfl⟩ := State.step_recv ht
      by_cases hi : s.Woken c (s.tag c).1
      · obtain ⟨hkept, hiff⟩ := queues_step hk (State.service_queues hk.apart hi.2.1 data)
        rw [State.wake_woken hi]
        refine ⟨hkept, fun hw => (hiff hw).trans ?_⟩
        rw [State.Spare, State.addressed, if_pos hi]
      · rw [wake_asleep hi]
        exact ⟨hk, fun hw => iff_of_true hw (hspare (if_neg hi))⟩

theorem kept_of_init (h : watched.init x) : x.Kept := by
  obtain ⟨s, taken⟩ := x
  obtain ⟨h₀, htaken⟩ := h
  have hapart := State.apart_of_init h₀
  obtain ⟨delay, variation, lobby, random, -, -, rfl⟩ := h₀
  obtain rfl : taken = fun _ => [] := htaken
  exact ⟨hapart, fun _ hp => absurd hp Bool.false_ne_true, fun _ _ => rfl, fun _ _ => rfl⟩

end Watched

/-- Take any sequence of events, from the start. The queues are whole throughout, in every slot that is
    in use, just when each event finds room: when for every slot what waits in its buffer before the
    event, and the lengths of all that the event queues for it, come to no more than the array holds. -/
theorem queues_whole_iff {x₀ : Watched} (h₀ : watched.init x₀) (es : List Event) :
    watched.Throughout Watched.Whole x₀ es ↔ watched.EachStep (fun x e => x.state.Spare e) x₀ es := by
  have hwhole : x₀.Whole := by
    obtain ⟨s, taken⟩ := x₀
    obtain ⟨⟨delay, variation, lobby, random, -, -, rfl⟩, -⟩ := h₀
    exact fun _ hp => absurd hp Bool.false_ne_true
  exact watched.throughout_iff_eachStep (J := Watched.Kept)
    (fun _ _ _ hk hstep => (Watched.step_spec hk hstep).1)
    (fun _ _ _ hk hw hstep => (Watched.step_spec hk hstep).2 hw) (Watched.kept_of_init h₀) hwhole

/-- Two consoles play; the kernel takes a part of what one of them is sent, and then nothing. -/
def trickle : List Event := threeSlots ++ [.loop (.recv 0 [1, tState, 3, tInput, 7, 9] 0),
  .loop (.flush 1 (.some 20)), .loop (.flush 1 .blocked), .loop (.recv 1 [1, tBye] 0), .reap]

theorem queues_whole_iff_trickle : watched.Throughout Watched.Whole ⟨listening, fun _ => []⟩ trickle ∧
    watched.EachStep (fun x e => x.state.Spare e) ⟨listening, fun _ => []⟩ trickle := by
  have hclean : watched.EachStep (fun x e => x.state.Spare e) ⟨listening, fun _ => []⟩ trickle := by
    decide +kernel
  exact ⟨(queues_whole_iff ⟨init_listening, rfl⟩ trickle).mpr hclean, hclean⟩

namespace State

variable {s : State} {i x : Index}

/-! ### How much one turn can queue for one client -/

/-- So many game frames of two bytes each. -/
def burst (n : ℕ) : List Byte := (List.replicate n (Relay.frame tState [])).flatten

theorem burst_length (n : ℕ) : (burst n).length = 2 * n := by
  rw [burst, List.length_flatten, List.map_replicate, List.sum_replicate_nat, Nat.mul_comm]
  rfl

/-- How many bytes have been queued for a slot's connection. -/
def queuedFor (s : State) (x : Index) : ℕ := (framesTo (s.conn x) s.trace).flatten.length

theorem queuedFor_taking (s : State) (i : Index) (rest : List Byte) (x : Index) :
    (s.taking i rest).queuedFor x = s.queuedFor x := by
  rw [queuedFor, queuedFor,
    show (s.taking i rest).conn = s.conn from congrArg Rack.conn (rack_taking s i rest)]
  rfl

theorem handle_relayed (hp : (s.clients i).partner = some x) :
    (s.handle i tState []).rack = s.rack ∧ (s.handle i tState []).queuedFor x = s.queuedFor x + 16 := by
  have hrack : (s.handle i tState []).rack = s.rack := by
    simp only [handle]
    rw [if_pos (by decide), if_neg (by decide), rack_forward]
    exact rack_note rfl s
  have hposts := s.handle_posts i tState []
  have hout : s.outgoing i tState [] = [(x, 16)] := by
    rw [outgoing, if_pos (by decide), forwarding, hp]
    rfl
  rw [hout, ← traffic_handled] at hposts
  obtain ⟨-, -, ds, hlen, hds, -⟩ := hposts.delivers (p := x) (by simp)
  refine ⟨hrack, ?_⟩
  have hds : framesTo (s.conn x) (s.handle i tState []).trace = framesTo (s.conn x) s.trace ++ ds := by
    refine hds.trans (congrArg (· ++ ds) ?_)
    exact (framesTo_append ..).trans (List.append_nil _)
  have hfor : bytesFor x [(x, 16)] = 16 := (bytesFor_cons ..).trans (by rw [if_pos rfl]; rfl)
  rw [queuedFor, queuedFor, show (s.handle i tState []).conn = s.conn from congrArg Rack.conn hrack, hds,
    List.flatten_append, List.length_append, hlen, hfor]

theorem loop_burst {n : ℕ} (turns : ℕ) {s : State} (hp : (s.clients i).partner = some x)
    (hrx : (s.clients i).rx = burst n) (hturns : n < turns) :
    (s.serviceLoop turns i).rack = s.rack ∧
      (s.serviceLoop turns i).queuedFor x = s.queuedFor x + 16 * n := by
  induction n generalizing s turns with
  | zero =>
    obtain ⟨turns, rfl⟩ : ∃ m, turns = m + 1 := ⟨turns - 1, by omega⟩
    have hnil : (s.clients i).rx = [] := hrx
    rw [serviceLoop, hnil]
    exact ⟨rfl, rfl⟩
  | succ n ih =>
    obtain ⟨turns, rfl⟩ : ∃ m, turns = m + 1 := ⟨turns - 1, by omega⟩
    have hhead : headOf (s.clients i).rx = .whole tState [] (burst n) := by
      rw [hrx, headOf_eq]
      exact headOf_frame (by decide) (burst n)
    have hrack := rack_taking s i (burst n)
    have hpartner : ((s.taking i (burst n)).clients i).partner = some x :=
      (congrFun (congrArg Rack.partner hrack) i).trans hp
    obtain ⟨hrack', hqueued⟩ := handle_relayed hpartner
    have hown := handle_taking_rx_self s i (burst n) tState []
    obtain ⟨hrack'', hqueued'⟩ := @ih turns _
      ((congrFun (congrArg Rack.partner hrack') i).trans hpartner) hown (by omega)
    rw [serviceLoop_whole hhead]
    refine ⟨hrack''.trans (hrack'.trans hrack), ?_⟩
    rw [hqueued', hqueued, queuedFor_taking]
    omega

theorem burst_ne {n : ℕ} (hn : 0 < n) : burst n ≠ [] := by
  intro h
  have hlen := burst_length n
  rw [h, List.length_nil] at hlen
  omega

theorem service_burst {n : ℕ} (hn : 0 < n) (hmax : 2 * n ≤ recvMax) (htidy : s.Tidy)
    (hlive : (s.clients i).dead = false) (hp : (s.clients i).partner = some x)
    (hrx : (s.clients i).rx = []) : (s.service i (burst n)).rack = s.rack ∧
      (s.service i (burst n)).queuedFor x = s.queuedFor x + 16 * n := by
  have hlen : (burst n).length ≤ recvMax := by rwa [burst_length]
  obtain ⟨hfits, -⟩ := htidy.service_serves hlive (burst_ne hn) hlen
  have hrack₀ : (s.hearing i (burst n)).rack = s.rack := rack_taking s i _
  have hheard : ((s.hearing i (burst n)).clients i).rx = burst n := by
    rw [hearing, taking, clients_upd, if_pos rfl, hrx, List.nil_append]
  obtain ⟨hrack, hqueued⟩ := loop_burst (((s.hearing i (burst n)).clients i).rx.length + 1)
    ((congrFun (congrArg Rack.partner hrack₀) i).trans hp) hheard (by
      rw [hheard, burst_length]
      omega)
  have hservice : s.service i (burst n) = (s.hearing i (burst n)).serviceLoop
      (((s.hearing i (burst n)).clients i).rx.length + 1) i := by
    rw [service, if_neg (burst_ne hn), if_neg (Nat.not_lt_of_le hfits)]
    rfl
  rw [hservice]
  refine ⟨hrack.trans hrack₀, ?_⟩
  rw [hqueued, hearing, queuedFor_taking]

/-- Clients that are linked to one slot each send so many game frames, in one read. -/
theorem flood {n : ℕ} (hn : 0 < n) (hmax : 2 * n ≤ recvMax) {is : List Index} {s : State}
    (hs : s.rack.Sound) (htidy : s.Tidy) (hnodup : is.Nodup)
    (his : ∀ i ∈ is, (s.clients i).inUse = true ∧ (s.clients i).dead = false ∧
      (s.clients i).partner = some x ∧ (s.clients i).rx = []) (taken : ℕ → List Byte) :
    ∃ t, watched.run ⟨s, taken⟩ (is.map fun i => .loop (.recv (s.conn i) (burst n) 0)) =
        some ⟨t, taken⟩ ∧ t.rack = s.rack ∧ t.queuedFor x = s.queuedFor x + 16 * n * is.length := by
  induction is generalizing s with
  | nil => exact ⟨s, rfl, rfl, rfl⟩
  | cons i is ih =>
    obtain ⟨⟨huse, hlive, hp, hrx⟩, hothers⟩ := List.forall_mem_cons.mp his
    obtain ⟨hi, hnodup⟩ := List.nodup_cons.mp hnodup
    have hlen : (burst n).length ≤ recvMax := by rwa [burst_length]
    have hstep : watched.step ⟨s, taken⟩ (.loop (.recv (s.conn i) (burst n) 0)) =
        some ⟨s.service i (burst n), taken⟩ := by
      have hport : port.step s (.loop (.recv (s.conn i) (burst n) 0)) =
          some (s.service i (burst n)) := by
        refine (if_pos hlen).trans (congrArg some ?_)
        exact wake_woken ⟨hs.tag i huse, huse, hlive⟩ _
      exact congrArg (Option.map _) hport
    obtain ⟨-, hserves⟩ := htidy.service_serves hlive (burst_ne hn) hlen
    obtain ⟨hrack, hqueued⟩ := service_burst hn hmax htidy hlive hp hrx
    obtain ⟨t, hrun, hrack', hqueued'⟩ := ih (s := s.service i (burst n)) (hrack ▸ hs)
      (htidy.service hlive hlen) hnodup (by
        intro j hj
        obtain ⟨huse', hlive', hp', hrx'⟩ := hothers j hj
        have hji : j ≠ i := fun h => hi (h ▸ hj)
        refine ⟨(congrFun (congrArg Rack.inUse hrack) j).trans huse',
          (congrFun (congrArg Rack.dead hrack) j).trans hlive',
          (congrFun (congrArg Rack.partner hrack) j).trans hp', ?_⟩
        rw [hserves.others j hji, hearing, taking, clients_upd, if_neg hji, hrx'])
    rw [show (s.service i (burst n)).conn = s.conn from congrArg Rack.conn hrack] at hrun
    refine ⟨t, ?_, hrack'.trans hrack, ?_⟩
    · rw [List.map_cons]
      exact watched.run_cons_some.mpr ⟨_, hstep, hrun⟩
    · rw [hqueued', hqueued, List.length_cons, Nat.mul_succ]
      omega

end State

/-- A client asks for everyone else who comes, one after the other, so that all are linked to it. -/
def gathering : List Turn :=
  let turn (r : Ready) : Turn := { batch := [r], sent := fun _ => .blocked, sweep := none }
  let greet (k : ℕ) : Ready := .client k
    (some (Relay.frame tHello [proto, tvNtsc, 0x41, 0x30 + BitVec.ofNat 8 k])) none
  [turn (.listener (0, 0) 0), turn (greet 0)] ++ (List.range 8).flatMap fun k =>
    [turn (.listener ((k + 1) % 2, k + 1) (k + 1)), turn (greet (k + 1)),
      turn (.client 0 (some (Relay.frame tJoin [])) none)]

/-- They all send so many game frames, in one turn. -/
def flooding (n : ℕ) : Turn :=
  { batch := (List.range 8).map fun k => .client (k + 1) (some (State.burst n)) none
    sent := fun _ => .blocked, sweep := none }

/-- The slots they have. -/
def gathered : List Index := (List.range 8).map fun k => Fin.ofNat maxClients (k + 1)

theorem flooding_proper (n : ℕ) : (flooding n).Proper := by
  have hsockets : (flooding n).batch.map Ready.socket = (List.range 8).map fun k => some (k + 1) := rfl
  rw [Turn.Proper, hsockets]
  decide

theorem gathering_run : ∃ x, watched.run ⟨listening, fun _ => []⟩ (listening.turns gathering) = some x ∧
    x.taken 0 = [] ∧ x.state.conn 0 = 0 ∧ (x.state.clients 0).inUse = true ∧
    x.state.queuedFor 0 = 120 ∧ (∀ i ∈ gathered, (x.state.clients i).inUse = true ∧
      (x.state.clients i).dead = false ∧ (x.state.clients i).partner = some 0 ∧
      (x.state.clients i).rx = []) ∧ gathered.map x.state.conn = (List.range 8).map (· + 1) :=
  watched.exists_run (by decide +kernel)

/-- A flood of frames is queued for the client they are all linked to. -/
theorem flood_run {n : ℕ} (hn : 0 < n) (hmax : 2 * n ≤ recvMax) :
    ∃ x, watched.run ⟨listening, fun _ => []⟩ (listening.turns gathering ++ (flooding n).serving) =
        some x ∧ x.Kept ∧ x.taken 0 = [] ∧ x.state.conn 0 = 0 ∧ (x.state.clients 0).inUse = true ∧
      x.state.queuedFor 0 = 120 + 128 * n := by
  obtain ⟨⟨s, taken⟩, hrun, htaken, hconn, huse, hqueued, hlinked, hconns⟩ := gathering_run
  have hinit : watched.init ⟨listening, fun _ => []⟩ := ⟨init_listening, rfl⟩
  have hkept : Watched.Kept ⟨s, taken⟩ := watched.reachable_invariant (fun _ => Watched.kept_of_init)
    (fun _ _ _ hk hstep => (Watched.step_spec hk hstep).1) ⟨_, _, hinit, hrun⟩
  have htidy : s.Tidy := watched.reachable_invariant (I := fun x => x.state.Tidy)
    (fun _ h => State.tidy_of_init h.1)
    (fun _ _ _ h hstep => State.step_tidy h (Watched.step_cases hstep).1) ⟨_, _, hinit, hrun⟩
  obtain ⟨t, hrun', hrack, hqueued'⟩ := State.flood hn hmax hkept.apart.toSound htidy (by decide)
    hlinked taken
  have hserving : (flooding n).serving =
      gathered.map fun i => .loop (.recv (s.conn i) (State.burst n) 0) := by
    have hmap : (gathered.map fun i => Event.loop (.recv (s.conn i) (State.burst n) 0)) =
        (gathered.map s.conn).map fun c => .loop (.recv c (State.burst n) 0) := by
      rw [List.map_map]
      rfl
    rw [hmap, hconns]
    rfl
  rw [← hserving] at hrun'
  have hall := (watched.run_append_some).mpr ⟨_, hrun, hrun'⟩
  refine ⟨⟨t, taken⟩, hall, watched.reachable_invariant (fun _ => Watched.kept_of_init)
    (fun _ _ _ hk hstep => (Watched.step_spec hk hstep).1) ⟨_, _, hinit, hall⟩, htaken,
    (congrFun (congrArg Rack.conn hrack) 0).trans hconn,
    (congrFun (congrArg Rack.inUse hrack) 0).trans huse, ?_⟩
  have hlen : gathered.length = 8 := rfl
  rw [hqueued', hlen]
  have hqueued : s.queuedFor 0 = 120 := hqueued
  omega

/-- Eight clients are linked to a ninth, and in one turn each of them sends as many game frames as one
    read can hold. What is then offered to the kernel for the ninth are not the frames queued for it. -/
theorem offered_not_queued : watched.init ⟨listening, fun _ => []⟩ ∧
    (∀ t ∈ gathering ++ [flooding 2048], t.Proper) ∧
    ∃ x, watched.run ⟨listening, fun _ => []⟩ (listening.turns gathering ++ (flooding 2048).serving) =
      some x ∧ ¬ x.Whole := by
  refine ⟨⟨init_listening, rfl⟩, ?_, ?_⟩
  · refine List.forall_mem_append.mpr ⟨by decide, List.forall_mem_singleton.mpr (flooding_proper _)⟩
  · obtain ⟨x, hrun, hkept, htaken, hconn, huse, hqueued⟩ := flood_run (n := 2048) (by decide)
      (by decide)
    refine ⟨x, hrun, fun hwhole => ?_⟩
    have hlen := congrArg List.length (hwhole 0 huse)
    rw [hconn, htaken, List.nil_append, Buffer.length_contents] at hlen
    have hcap := hkept.capped 0 huse
    have htotal : (framesTo 0 x.state.trace).flatten.length = 120 + 128 * 2048 := hconn ▸ hqueued
    have hroom : txCap < 120 + 128 * 2048 := by decide
    omega

end VO.Port
