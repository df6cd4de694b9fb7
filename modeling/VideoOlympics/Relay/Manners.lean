import VideoOlympics.Relay.Sessions

/-! Consoles with manners: HELLO comes once and first, if it comes, and JOIN never does. As long as
    they all keep them, the links pair connected clients, and who says HELLO is connected and has no
    name yet. What a console says after BYE does not matter here. -/

namespace VO.Relay

/-- HELLO is the first frame or none, and JOIN is none. -/
def Polite (fs : List Frame) : Prop := (∀ f ∈ fs, f.1 ≠ tJoin) ∧ ∀ f ∈ fs.tail, f.1 ≠ tHello

instance (fs : List Frame) : Decidable (Polite fs) := inferInstanceAs (Decidable (_ ∧ _))

theorem Polite.of_append {fs gs : List Frame} (h : Polite (fs ++ gs)) : Polite fs := by
  obtain ⟨hjoin, htail⟩ := h
  refine ⟨fun f hf => hjoin f (List.mem_append_left _ hf), ?_⟩
  intro f hf
  cases fs with
  | nil => cases hf
  | cons g fs => exact htail f (List.mem_append_left _ hf)

/-- One more frame is no JOIN, and a HELLO only if there was none before. -/
theorem Polite.concat {fs : List Frame} {f : Frame} (h : Polite (fs ++ [f])) :
    f.1 ≠ tJoin ∧ (f.1 = tHello → fs = []) := by
  obtain ⟨hjoin, htail⟩ := h
  refine ⟨hjoin f (List.mem_append_right _ (List.mem_singleton_self f)), fun hhello => ?_⟩
  cases fs with
  | nil => rfl
  | cons g fs => exact absurd hhello (htail f (List.mem_append_right _ (List.mem_singleton_self f)))

/-- Every console has manners. -/
def AllPolite (trace : List Act) : Prop := ∀ c, Polite (framesOf c trace)

instance (trace : List Act) : Decidable (AllPolite trace) :=
  decidable_of_iff (∀ c ∈ senders trace, Polite (framesOf c trace)) <| by
    refine ⟨?_, fun h c _ => h c⟩
    intro h c
    by_cases hc : c ∈ senders trace
    · exact h c hc
    · rw [framesOf_eq_nil hc]
      decide

theorem AllPolite.before {as bs : List Act} (h : AllPolite bs) (ht : as <+: bs) :
    AllPolite as := by
  obtain ⟨cs, rfl⟩ := ht
  intro c
  have hc := h c
  rw [framesOf_append] at hc
  exact hc.of_append

namespace Room

/-- Who has sent nothing has no name, and who has no name has no partner. -/
structure Decent (r : Room) : Prop where
  seated : r.Seated
  matching : r.Matching
  unsent : ∀ c, framesOf c r.trace = [] → r.name c = none
  unnamed : ∀ c, r.name c = none → r.partner c = none

variable {r r' : Room} {c : ℕ}

theorem Decent.setRx (h : r.Decent) (c : ℕ) (bs : List Byte) : (r.setRx c bs).Decent :=
  ⟨⟨h.seated.nodup, h.seated.known⟩, h.matching, h.unsent, h.unnamed⟩

theorem framesOf_nil_before {as bs : List Act} (ht : as <+: bs) {c : ℕ}
    (h : framesOf c bs = []) : framesOf c as = [] :=
  List.prefix_nil.mp (h ▸ ht.filterMap _)

theorem framesOf_ne_nil_of_handled {as bs : List Act} {c : ℕ} {ftype : Byte} {payload : List Byte}
    (h : as ++ [.handled c ftype payload] <+: bs) : framesOf c bs ≠ [] := by
  intro hnil
  have := framesOf_nil_before h hnil
  rw [framesOf_append, framesOf_handled] at this
  cases (List.append_eq_nil_iff.mp this).2

/-- Nobody is given a partner by another's going. -/
theorem unnamed_leave (h : ∀ d, r.name d = none → r.partner d = none) (c d : ℕ)
    (hd : (r.leave c).name d = none) : (r.leave c).partner d = none := by
  obtain ⟨-, -, -, hname, -⟩ := r.leave_fixed c
  rw [hname] at hd
  cases hp : (r.leave c).partner d with
  | none => rfl
  | some q =>
    have := partner_leave hp
    rw [h d hd] at this
    cases this

theorem Decent.move (h : r.Decent) (hmove : r.Move r') : r'.Decent := by
  refine ⟨h.seated.move hmove, h.matching.move h.seated hmove, ?_, ?_⟩
  · intro d hd
    have hbefore := h.unsent d (framesOf_nil_before hmove.trace hd)
    cases hmove with
    | join =>
      simp only [join, Function.update_apply]
      split
      · rfl
      · exact hbefore
    | leave c _ =>
      obtain ⟨-, -, -, hname, -⟩ := r.leave_fixed c
      rw [hname]
      exact hbefore
    | take c n _ => exact hbefore
  · intro d hd
    cases hmove with
    | join =>
      simp only [join, Function.update_apply] at hd ⊢
      split
      · rfl
      · next hne => exact h.unnamed d (by rwa [if_neg hne] at hd)
    | leave c _ => exact unnamed_leave h.unnamed c d hd
    | take c n _ => exact h.unnamed d hd

/-- A frame gives a name to nobody but its sender. -/
theorem Handles.name_of_ne {ftype : Byte} {payload : List Byte} (hh : r.Handles c ftype payload r')
    {d : ℕ} (hd : d ≠ c) : r'.name d = r.name d := by
  obtain ⟨-, -, -, hname, -⟩ := r.leave_fixed c
  have hpairs : ∀ {r r' : Room}, r.Pairs c r' → r'.name = r.name := by
    intro r r' hp
    cases hp with
    | alone _ => rfl
    | met _ _ _ _ _ _ _ _ _ => rfl
  cases hh with
  | refused _ _ => rw [hname]
  | gone _ => rw [hname]
  | welcomed name _ _ _ _ hp =>
    rw [hpairs hp]
    exact Function.update_of_ne hd ..
  | joined _ _ hp => rw [hpairs hp]
  | _ => rfl

theorem Pairs.unnamed (hp : r.Pairs c r') (h : ∀ d, r.name d = none → r.partner d = none) :
    ∀ d, r'.name d = none → r'.partner d = none := by
  cases hp with
  | alone _ => exact h
  | met host seed hn gn _ _ _ hhost hguest =>
    intro d hd
    have hne : ∀ {e : ℕ} {name : Name}, r.name e = some name → d ≠ e := by
      rintro e name he rfl
      exact Option.some_ne_none name (he.symm.trans hd)
    change Function.update (Function.update r.partner host _) c _ d = none
    rw [Function.update_of_ne (hne hguest), Function.update_of_ne (hne hhost)]
    exact h d hd

theorem Handles.unnamed {ftype : Byte} {payload : List Byte} (hh : r.Handles c ftype payload r')
    (h : ∀ d, r.name d = none → r.partner d = none) :
    ∀ d, r'.name d = none → r'.partner d = none := by
  cases hh with
  | refused _ _ => exact unnamed_leave h c
  | gone _ => exact unnamed_leave h c
  | welcomed name _ _ _ _ hp =>
    refine hp.unnamed fun d hd => ?_
    by_cases hdc : d = c
    · simp only [Room.call, hdc, Function.update_self] at hd
      cases hd
    · exact h d (by simpa only [Room.call, Function.update_of_ne hdc] using hd)
  | joined _ _ hp => exact hp.unnamed h
  | _ => exact h

/-- A frame that keeps the manners, of a client who is here or has sent something before. -/
theorem Decent.handles (h : r.Decent) {ftype : Byte} {payload : List Byte}
    (hhere : c ∈ r.clients ∨ framesOf c r.trace ≠ [])
    (hpolite : Polite (framesOf c r.trace ++ [(ftype, payload)]))
    (hh : (r.note (.handled c ftype payload)).Handles c ftype payload r') : r'.Decent := by
  obtain ⟨hjoin, hhello⟩ := hpolite.concat
  have hseated : (r.note (.handled c ftype payload)).Seated := ⟨h.seated.nodup, h.seated.known⟩
  have horderly : (r.note (.handled c ftype payload)).Orderly c ftype payload := by
    rintro (ht | ⟨ht, -⟩) -
    · exact absurd ht hjoin
    · have hfirst := hhello ht
      exact ⟨hhere.resolve_right (not_not_intro hfirst), h.unnamed c (h.unsent c hfirst)⟩
  refine ⟨hseated.handles hh, (hh.matching_iff h.matching hseated).mpr horderly, ?_,
    hh.unnamed h.unnamed⟩
  intro d hd
  have hbefore := framesOf_nil_before hh.trace hd
  rw [note, framesOf_append, List.append_eq_nil_iff] at hbefore
  have hdc : d ≠ c := by
    rintro rfl
    rw [framesOf_handled] at hbefore
    cases hbefore.2
  rw [hh.name_of_ne hdc]
  exact h.unsent d hbefore.1

end Room

namespace Server

variable {s s' : Server} {k c : ℕ}

/-- As long as the consoles keep their manners. -/
theorem step_decent {t : Server} {e : Event} (hd : s.room.Decent) (hpolite : AllPolite t.trace)
    (h : s.step e = some t) : t.room.Decent := by
  rcases step_cases h with ⟨hmoves, -⟩ | ⟨c, data, k, rfl, -, hc, hservice⟩
  · exact hmoves.keeps (fun _ _ hr hmove => hr.move hmove) hd
  · refine serviceLoop_keeps (c := c) (P := fun _ _ _ _ => True)
      (I := fun r => AllPolite r.trace → r.Decent ∧ (c ∈ r.clients ∨ framesOf c r.trace ≠ []))
      (J := fun r => AllPolite r.trace → r.Decent) ?_ (fun _ hr hp => (hr hp).1) ?_
      (eachFrame_of_forall (fun _ _ _ _ => trivial) _ _) ?_ hservice hpolite
    · intro s₁ r' n ftype payload rest hr _ _ _ hh hp
      have htaken := hp.before hh.trace
      obtain ⟨hd, hhere⟩ := hr (htaken.before (List.prefix_append _ _))
      have hnow := htaken c
      rw [Room.note, framesOf_append, framesOf_handled] at hnow
      exact ⟨(hd.setRx c rest).handles hhere hnow hh,
        .inr (Room.framesOf_ne_nil_of_handled hh.trace)⟩
    · intro r hr hp
      exact (r.leave_moves c).keeps (fun _ _ hr hmove => hr.move hmove)
        (hr (hp.before (r.leave_trace c))).1
    · intro _
      rw [hearing, room_taking]
      exact ⟨hd.setRx _ _, .inl hc⟩

/-- A step of the relay does not take back what it has done. -/
theorem allPolite_of_step {t : Server} {e : Event} (h : s.step e = some t)
    (hpolite : AllPolite t.trace) : AllPolite s.trace := by
  refine hpolite.before ?_
  rcases step_cases h with ⟨hmoves, -⟩ | ⟨c, data, k, rfl, -, -, hservice⟩
  · exact hmoves.keeps (I := fun r => s.trace <+: r.trace) (fun _ _ hr hmove => hr.trans hmove.trace)
      List.prefix_rfl
  · exact serviceLoop_trace (s := s.hearing c data) hservice

end Server
end VO.Relay
