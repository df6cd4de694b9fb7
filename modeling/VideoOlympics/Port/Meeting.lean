import VideoOlympics.Port.Mirror

/-! Two clients meet, in both relays: the same two, because who waits is listed in the same order. -/

namespace VO.Port
open Relay

namespace Mirrors

variable {s s' : Server} {c c' : State} {i p : Index}

theorem draw (h : Mirrors s c) (f : ℕ → ℕ) :
    Mirrors { s with random := f } { c with random := f } :=
  h.aside rfl h.trace ..

/-- One of two who meet. -/
theorem linkOne (h : Mirrors s c) (hi : (c.clients i).inUse = true)
    (hp : (c.clients p).inUse = true) (role : Byte) :
    Mirrors (s.upd (c.conn i) fun o => { o with partner := some (c.conn p), role := some role })
      (c.upd i fun c => { c with partner := some p, role := some role }) := by
  obtain ⟨haddr, hrx, htx, hname, -, hborn⟩ := h.same i hi
  refine h.upd hi rfl rfl rfl rfl ⟨haddr, hrx, htx, hname, rfl, hborn⟩ rfl ?_
  intro q hq
  exact Option.some.inj hq ▸ hp

theorem linkBoth (h : Mirrors s c) (hi : (c.clients i).inUse = true)
    (hp : (c.clients p).inUse = true) :
    Mirrors (s.link (c.conn p) (c.conn i)) (c.link p i) := by
  have h₁ := h.linkOne hp hi 0
  generalize hc₁ : (c.upd p fun c => { c with partner := some i, role := some 0 }) = c₁ at h₁
  have hkeep : ∀ {β : Type} (g : Slot → β), (∀ (c : Slot) (q : Option Index) (r : Option Byte),
      g { c with partner := q, role := r } = g c) → ∀ j, g (c₁.clients j) = g (c.clients j) :=
    fun g hg j => hc₁ ▸ State.clients_upd_quiet c p j _ g (hg ..)
  have hconn : ∀ j, c₁.conn j = c.conn j := hkeep Slot.conn fun _ _ _ => rfl
  have huse : ∀ j, (c₁.clients j).inUse = (c.clients j).inUse := hkeep Slot.inUse fun _ _ _ => rfl
  have h₂ := h₁.linkOne (i := i) (p := p) ((huse i).trans hi) ((huse p).trans hp) 1
  rw [hconn, hconn, ← hc₁] at h₂
  exact h₂

theorem startOne (h : Mirrors s c) (hi : (c.clients i).inUse = true)
    (hp : (c.clients p).inUse = true) {seed : ℕ} {role : Byte}
    (hrole : (c.clients i).role = some role)
    (hok : s.startOne (c.conn i) (c.conn p) seed = .ok s') (hfits : Fits s') :
    Mirrors s' (c.startOne i p seed) := by
  simp only [Server.startOne] at hok
  obtain ⟨data, hdata, hok⟩ := Server.bind_ok hok
  obtain ⟨name, hname, rfl⟩ := Server.startFrame_ok hdata
  obtain ⟨haddr, hrx, htx, hn, hr, hborn⟩ := h.same i hi
  have hcleared : Mirrors (s.upd (c.conn i) fun o => { o with crc := [] })
      (c.upd i fun c => { c with crc := [] }) :=
    h.upd_unlinked hi rfl rfl ⟨haddr, hrx, htx, hn, hr, hborn⟩ rfl
  rw [Server.obj_upd_quiet s _ _ (fun o => { o with crc := [] }) Client.name rfl,
    (h.same p hp).name] at hname
  obtain ⟨name', hname', rfl⟩ := Option.map_eq_some_iff.mp hname
  have hproper := h.proper p hp name' hname'
  have hconn : (c.upd i fun c => { c with crc := [] }).conn i = c.conn i :=
    State.clients_upd_quiet c i i (fun c => { c with crc := [] }) Slot.conn rfl
  have huse : ((c.upd i fun c => { c with crc := [] }).clients i).inUse = true :=
    (State.clients_upd_quiet c i i (fun c => { c with crc := [] }) Slot.inUse rfl).trans hi
  have hrole₁ : ((s.upd (c.conn i) fun o => { o with crc := [] }).obj (c.conn i)).role =
      some role := by
    rw [Server.obj_upd_quiet s _ _ (fun o => { o with crc := [] }) Client.role rfl, hr, hrole]
  have hrole₂ : ((c.upd i fun c => { c with crc := [] }).clients i).role = some role :=
    (State.clients_upd_quiet c i i (fun c => { c with crc := [] }) Slot.role rfl).trans hrole
  have hcstr : ((c.upd i fun c => { c with crc := [] }).clients p).cstr = name' := by
    rw [Slot.cstr, State.clients_upd_quiet c i p (fun c => { c with crc := [] }) Slot.name rfl,
      hname']
    rfl
  have hpad : ljust 8 (encode (decode name')) = padName name' := by
    rw [encode_decode hproper.ascii, padName, List.take_of_length_le hproper.length]
  have hsent := hcleared.send huse (startOf role seed c.delay c.variation (decode name'))
  rw [hconn] at hsent
  rw [← Except.ok.inj hok, hrole₁, Option.getD_some] at hfits ⊢
  have hdelay : (s.upd (c.conn i) fun o => { o with crc := [] }).delay = c.delay := h.delay
  have hvariation : (s.upd (c.conn i) fun o => { o with crc := [] }).variation = c.variation :=
    h.variation
  rw [hdelay, hvariation] at hfits ⊢
  rw [State.startOne, hrole₂, hcstr, ← hpad]
  exact hsent hfits

theorem link_role (c : State) {i p : Index} (hne : p ≠ i) :
    ((c.link p i).clients p).role = some 0 ∧ ((c.link p i).clients i).role = some 1 := by
  constructor
  · rw [State.link, State.clients_upd, if_neg hne, State.clients_upd, if_pos rfl]
  · rw [State.link, State.clients_upd, if_pos rfl]

/-- A match is made in both. -/
theorem pair (h : Mirrors s c) (hi : (c.clients i).inUse = true) (hp : (c.clients p).inUse = true)
    (hne : p ≠ i) (hok : s.pair (c.conn p) (c.conn i) = .ok s') (hfits : Fits s') :
    Mirrors s' (c.pair p i) := by
  rw [Server.pair] at hok
  obtain ⟨s₂, hboth, hok⟩ := Server.bind_ok hok
  obtain ⟨s₁, hone, htwo⟩ := Server.bind_ok hboth
  obtain ⟨name₂, -, hroom₂, -⟩ := Server.startOne_ok htwo
  have hfits₂ : Fits s₂ := by
    rw [← Except.ok.inj hok] at hfits
    exact hfits
  have hfits₁ : Fits s₁ := hfits₂.of_grows (hroom₂ ▸ s₁.room.grows_queue _ _)
  have hseed : 1 + s.random 0 % (0x10000 - 1) = c.nextSeed.1 := by
    rw [State.nextSeed, h.random]
  have h₀ := ((h.draw fun n => c.random (n + 1)).note
    (.matched (c.conn p) (c.conn i) c.nextSeed.1)).linkBoth hi hp
  rw [hseed, h.random] at hone
  rw [hseed] at htwo
  generalize hc₀ : (({ c with random := fun n => c.random (n + 1) } : State).note
    (.matched (c.conn p) (c.conn i) c.nextSeed.1)).link p i = c₀ at h₀
  have hkeep : ∀ {β : Type} (g : Slot → β), (∀ (c : Slot) (q : Option Index) (r : Option Byte),
      g { c with partner := q, role := r } = g c) → ∀ j, g (c₀.clients j) = g (c.clients j) :=
    fun g hg j => hc₀ ▸ State.link_keeps _ i p g hg j
  have hconn₀ : ∀ j, c₀.conn j = c.conn j := hkeep Slot.conn fun _ _ _ => rfl
  have huse₀ : ∀ j, (c₀.clients j).inUse = (c.clients j).inUse := hkeep Slot.inUse fun _ _ _ => rfl
  obtain ⟨hhost, hguest⟩ : (c₀.clients p).role = some 0 ∧ (c₀.clients i).role = some 1 :=
    hc₀ ▸ link_role _ hne
  have hconn₁ : ∀ j, (c₀.startOne p i c.nextSeed.1).conn j = c.conn j :=
    fun j => (State.startOne_keeps c₀ p i _ Slot.conn (fun _ _ _ => rfl) j).trans (hconn₀ j)
  have huse₁ : ∀ j, ((c₀.startOne p i c.nextSeed.1).clients j).inUse = (c.clients j).inUse :=
    fun j => (State.startOne_keeps c₀ p i _ Slot.inUse (fun _ _ _ => rfl) j).trans (huse₀ j)
  have h₁ : Mirrors s₁ (c₀.startOne p i c.nextSeed.1) :=
    h₀.startOne ((huse₀ p).trans hp) ((huse₀ i).trans hi) hhost
      (by rw [hconn₀, hconn₀]; exact hone) hfits₁
  have h₂ : Mirrors s₂ ((c₀.startOne p i c.nextSeed.1).startOne i p c.nextSeed.1) :=
    h₁.startOne ((huse₁ i).trans hi) ((huse₁ p).trans hp)
      ((State.startOne_keeps c₀ p i _ Slot.role (fun _ _ _ => rfl) i).trans hguest)
      (by rw [hconn₁, hconn₁]; exact htwo) hfits₂
  rw [← Except.ok.inj hok, State.pair]
  subst hc₀
  exact h₂.quiet _ _ _ _ _ _ _

/-- Who could be paired, as the loop asks it. -/
def idles (c : State) (i o : Index) : Bool :=
  decide (¬ (o = i ∨ (c.clients o).name = none ∨ (c.clients o).partner ≠ none))

theorem idles_iff : idles c i p = true ↔
    ¬ (p = i ∨ (c.clients p).name = none ∨ (c.clients p).partner ≠ none) := decide_eq_true_iff

/-- The first of the oldest of a number of slots. -/
def eldest (c : State) (o : Index) (os : List Index) : Index :=
  os.foldl (fun a b => if (c.clients b).born < (c.clients a).born then b else a) o

theorem foldl_older_some (c : State) (i a : Index) (os : List Index) :
    os.foldl (c.older i) (some a) = some (eldest c a (os.filter (idles c i))) := by
  induction os generalizing a with
  | nil => rfl
  | cons o os ih =>
    rw [List.foldl_cons, State.older]
    by_cases hskip : o = i ∨ (c.clients o).name = none ∨ (c.clients o).partner ≠ none
    · rw [if_pos hskip, List.filter_cons_of_neg fun h => idles_iff.mp h hskip, ih]
    · rw [if_neg hskip, List.filter_cons_of_pos (idles_iff.mpr hskip), eldest,
        List.foldl_cons]
      split
      · exact ih o
      · exact ih a

/-- The loop finds the first of the oldest of those who are idle. -/
theorem foldl_older_none (c : State) (i : Index) (os : List Index) :
    os.foldl (c.older i) none = match os.filter (idles c i) with
      | [] => none
      | o :: os => some (eldest c o os) := by
  induction os with
  | nil => rfl
  | cons o os ih =>
    rw [List.foldl_cons, State.older]
    by_cases hskip : o = i ∨ (c.clients o).name = none ∨ (c.clients o).partner ≠ none
    · rw [if_pos hskip, List.filter_cons_of_neg fun h => idles_iff.mp h hskip, ih]
    · rw [if_neg hskip, List.filter_cons_of_pos (idles_iff.mpr hskip)]
      exact foldl_older_some c i o os

theorem others (h : Mirrors s c) (hi : (c.clients i).inUse = true) :
    s.others (c.conn i) = (c.order.filter (idles c i)).map c.conn := by
  rw [Server.others, Server.idle, h.clients, List.filter_filter, List.filter_map]
  refine congrArg _ (List.filter_congr fun o ho => ?_)
  have huse := h.listed o ho
  have hne : (c.conn o != c.conn i) = decide (o ≠ i) := by
    rw [Bool.eq_iff_iff, bne_iff_ne, decide_eq_true_eq]
    exact not_congr ⟨h.inj o i huse hi, congrArg c.conn⟩
  rw [Function.comp_apply, hne, (h.same o huse).name, h.link o huse, Option.isSome_map,
    Option.isNone_map, idles, Bool.eq_iff_iff]
  simp only [Bool.and_eq_true, decide_eq_true_eq, Option.isSome_iff_ne_none,
    Option.isNone_iff_eq_none]
  tauto

theorem oldest (h : Mirrors s c) {o : Index} {os : List Index}
    (hin : ∀ a ∈ o :: os, (c.clients a).inUse = true) :
    s.oldest (c.conn o) (os.map c.conn) = c.conn (eldest c o os) := by
  induction os generalizing o with
  | nil => rfl
  | cons b os ih =>
    have hborn : ∀ a ∈ o :: b :: os, (s.obj (c.conn a)).born = (c.clients a).born :=
      fun a ha => (h.same a (hin a ha)).born
    have ho := hborn o List.mem_cons_self
    have hb := hborn b (List.mem_cons_of_mem _ List.mem_cons_self)
    rw [Server.oldest, List.map_cons, List.foldl_cons, ho, hb, eldest, List.foldl_cons]
    split
    · exact ih fun a ha => hin a (List.mem_cons_of_mem _ ha)
    · refine ih fun a ha => hin a ?_
      rcases List.mem_cons.mp ha with rfl | ha
      · exact List.mem_cons_self
      · exact List.mem_cons_of_mem _ (List.mem_cons_of_mem _ ha)

theorem tryPair (h : Mirrors s c) (hi : (c.clients i).inUse = true)
    (hok : s.tryPair (c.conn i) = .ok s') (hfits : Fits s') : Mirrors s' (c.tryPair i) := by
  have hwaiting := foldl_older_none c i c.order
  simp only [Server.tryPair] at hok
  rw [h.others hi] at hok
  cases hos : c.order.filter (idles c i) with
  | nil =>
    rw [hos] at hok hwaiting
    rw [State.tryPair, State.waiting, hwaiting]
    exact Except.ok.inj hok ▸ h
  | cons o os =>
    rw [hos] at hok hwaiting
    have hin : ∀ a ∈ o :: os, (c.clients a).inUse = true :=
      fun a ha => h.listed a (List.mem_of_mem_filter (hos ▸ ha))
    have hw : c.waiting i = some (eldest c o os) := hwaiting
    obtain ⟨horder, hne, -, -⟩ := State.waiting_waits hw
    rw [State.tryPair, hw]
    have hpair : s.pair (s.oldest (c.conn o) (os.map c.conn)) (c.conn i) = .ok s' := hok
    rw [h.oldest hin] at hpair
    exact h.pair hi (h.listed _ horder) hne hpair hfits

end Mirrors
end VO.Port
