import VideoOlympics.Relay.Channel

/-! The first thing the relay sends. Whatever else its clients do, one that asks for nothing is sent
    nothing before a START; for what is passed on to it comes from somebody whose partner it is, or
    was, and it was sent a START when it became that. -/

namespace VO.Relay
namespace Room

/-- Whoever is anybody's partner has been sent something, and the first thing a client is sent that
    asks for nothing is a START. -/
structure Inviting (r : Room) : Prop where
  sent : ∀ d c, r.partner d = some c → framesTo c r.trace ≠ []
  first : ∀ c, Silent (framesOf c r.trace) → ∀ f ∈ (framesTo c r.trace).head?,
    ∃ role seed them, f = startOf role seed r.delay r.variation them

variable {r r' : Room} {c : ℕ} {ftype : Byte} {payload : List Byte}

/-- Nothing is sent, and nobody gets a partner. -/
theorem Inviting.log (h : r.Inviting) (as : List Act) (ht : r'.trace = r.trace ++ as)
    (hto : ∀ d, framesTo d as = []) (hp : ∀ d p, r'.partner d = some p → r.partner d = some p)
    (hdelay : r'.delay = r.delay) (hvariation : r'.variation = r.variation) : r'.Inviting := by
  have hsame : ∀ d, framesTo d r'.trace = framesTo d r.trace := fun d => by
    rw [ht, framesTo_append, hto, List.append_nil]
  refine ⟨fun d p hd => hsame p ▸ h.sent d p (hp d p hd), fun d hsilent => ?_⟩
  rw [ht, framesOf_append] at hsilent
  rw [hsame, hdelay, hvariation]
  exact h.first d hsilent.of_append

theorem Inviting.note (h : r.Inviting) {a : Act} (ha : ∀ d, a.sentTo d = none) :
    (r.note a).Inviting :=
  h.log [a] rfl (fun d => List.filterMap_cons_none (ha d)) (fun _ _ hp => hp) rfl rfl

/-- What is sent to a client that has been sent nothing, and has asked for nothing, must be START. -/
theorem Inviting.queue (h : r.Inviting) (p : ℕ) (data : List Byte)
    (hdata : framesTo p r.trace = [] → Silent (framesOf p r.trace) →
      ∃ role seed them, data = startOf role seed r.delay r.variation them) :
    (r.queue p data).Inviting := by
  have hto : ∀ d, framesTo d (r.queue p data).trace =
      framesTo d r.trace ++ if p = d then [data] else [] := fun d => by
    rw [Room.queue, framesTo_append, framesTo_queued]
  have hof : ∀ d, framesOf d (r.queue p data).trace = framesOf d r.trace := fun d => by
    simp [Room.queue, framesOf, Act.frameOf]
  refine ⟨fun d q hd => ?_, fun d hsilent => ?_⟩
  · rw [hto]
    exact fun hnil => h.sent d q hd (List.append_eq_nil_iff.mp hnil).1
  · rw [hof] at hsilent
    rw [hto]
    by_cases hold : framesTo d r.trace = []
    · rw [hold, List.nil_append]
      split
      · next hp =>
        subst hp
        intro f hf
        obtain rfl : data = f := Option.some.inj hf
        exact hdata hold hsilent
      · exact fun f hf => by cases hf
    · rw [List.head?_append_of_ne_nil _ hold]
      exact h.first d hsilent

theorem Inviting.leave (h : r.Inviting) (c : ℕ) : (r.leave c).Inviting := by
  have hnote : (r.note (.dropped c)).Inviting := h.note fun _ => rfl
  have hunlink : ((r.note (.dropped c)).unlink c).Inviting := by
    rw [unlink]
    split
    · next p hp =>
      have hcut : Inviting { r.note (.dropped c) with partner := Function.update r.partner p none } := by
        refine hnote.log [] (List.append_nil _).symm (fun _ => rfl) (fun d q hq => ?_) rfl rfl
        simp only [Function.update_apply] at hq
        split at hq
        · cases hq
        · exact hq
      exact hcut.queue p _ fun hnone => absurd hnone (hnote.sent c p hp)
    · exact hnote
  rw [Room.leave]
  split
  · exact h
  · exact hunlink.log [] (List.append_nil _).symm (fun _ => rfl) (fun _ _ hp => hp) rfl rfl

/-- Two that meet are both sent START. -/
theorem Inviting.pairs (h : r.Inviting) (hp : r.Pairs c r') : r'.Inviting := by
  cases hp with
  | alone _ => exact h
  | met host seed hn gn _ _ _ hhn hgn =>
    have hnote : (r.note (.matched host c seed)).Inviting := h.note fun _ => rfl
    have hboth := (hnote.queue host (startOf 0 seed r.delay r.variation gn)
      fun _ _ => ⟨0, seed, gn, rfl⟩).queue c (startOf 1 seed r.delay r.variation hn)
        fun _ _ => ⟨1, seed, hn, rfl⟩
    refine ⟨fun d q hd => ?_, hboth.first⟩
    have hto : framesTo q (r.meet host c seed hn gn).trace = framesTo q r.trace ++
        ((if host = q then [startOf 0 seed r.delay r.variation gn] else []) ++
          if c = q then [startOf 1 seed r.delay r.variation hn] else []) := by
      simp only [meet, Room.queue, Room.note, framesTo_append, framesTo_queued, List.append_assoc]
      rfl
    rw [hto]
    change Function.update (Function.update r.partner host (some c)) c (some host) d = some q at hd
    simp only [Function.update_apply] at hd
    split at hd
    · obtain rfl := Option.some.inj hd
      simp
    · split at hd
      · obtain rfl := Option.some.inj hd
        simp
      · exact fun hnil => h.sent d q hd (List.append_eq_nil_iff.mp hnil).1

theorem Inviting.move (h : r.Inviting) (hmove : r.Move r') : r'.Inviting := by
  cases hmove with
  | join =>
    refine h.log [.accepted r.next] rfl (fun _ => rfl) (fun d q hq => ?_) rfl rfl
    simp only [join, Function.update_apply] at hq
    split at hq
    · cases hq
    · exact hq
  | leave c _ => exact h.leave c
  | take c n _ => exact h.log [] (List.append_nil _).symm (fun _ => rfl) (fun _ _ hp => hp) rfl rfl

theorem Inviting.handles (h : r.Inviting)
    (hh : (r.note (.handled c ftype payload)).Handles c ftype payload r') : r'.Inviting := by
  have hnote : (r.note (.handled c ftype payload)).Inviting := h.note fun _ => rfl
  have hasked : ftype = tList ∨ ftype = tPing →
      ¬Silent (framesOf c (r.note (.handled c ftype payload)).trace) := by
    intro hask hsilent
    rw [Room.note, framesOf_append, framesOf_handled] at hsilent
    have hquiet := hsilent (ftype, payload) (List.mem_append_right _ (List.mem_singleton_self _))
    exact hask.elim hquiet.1 hquiet.2
  cases hh with
  | unheard _ _ => exact hnote
  | unknown _ _ _ _ _ _ => exact hnote
  | relayed p _ hp => exact hnote.queue p _ fun hnone => absurd hnone (hnote.sent c p hp)
  | refused _ _ => exact hnote.leave c
  | gone _ => exact hnote.leave c
  | welcomed name _ _ _ _ hp =>
    refine Inviting.pairs ?_ hp
    exact hnote.log [.named c name] rfl (fun _ => rfl) (fun _ _ hp => hp) rfl rfl
  | joined _ _ hp => exact hnote.pairs hp
  | listed ht => exact hnote.queue c _ fun _ hsilent => absurd hsilent (hasked (.inl ht))
  | pinged ht => exact hnote.queue c _ fun _ hsilent => absurd hsilent (hasked (.inr ht))

end Room

theorem inviting_of_reachable {s : Server} (h : relay.Reachable s) : s.room.Inviting := by
  refine relay.reachable_invariant (I := fun s => s.room.Inviting) ?_ ?_ h
  · rintro s ⟨delay, variation, lobby, random, -, -, rfl⟩
    exact ⟨fun d c hd => (by cases hd), fun c _ f hf => by cases hf⟩
  · intro s e t hI hst
    exact Server.step_keeps (I := Room.Inviting) (P := fun _ _ _ _ => True)
      (fun _ _ h hmove => h.move hmove)
      (fun _ _ _ h => h.log [] (List.append_nil _).symm (fun _ => rfl) (fun _ _ hp => hp) rfl rfl)
      (fun _ _ _ _ _ h _ hh => h.handles hh) (Server.eachHeard_of_forall (fun _ _ _ _ => trivial) s e)
      hI hst

end VO.Relay
