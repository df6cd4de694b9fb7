import VideoOlympics.Console.Record
import VideoOlympics.Relay.Sessions
import VideoOlympics.Relay.Survive

/-! What reaches a console that is playing. Of consoles that send what the ROM sends, each frame the
    relay queues is as long as a game frame, but START; and a console is sent START only while it has
    no opponent, so never again before it has been told that the last one left. -/

namespace VO.Relay

/-- The data of an append to a client's queue. -/
def Act.sentTo (c : ℕ) : Act → Option (List Byte)
  | .queued d data => if d = c then some data else none
  | _ => none

/-- What is appended to a client's queue, one frame after the other. -/
def framesTo (c : ℕ) (trace : List Act) : List (List Byte) := trace.filterMap (Act.sentTo c)

/-- The type byte of a frame on the wire. -/
def typeOf (data : List Byte) : Option Byte := data[1]?

/-- What the ROM sends: one HELLO, then INPUT in full length. -/
def FromRom (fs : List Frame) : Prop :=
  (∀ f ∈ fs.head?, f.1 = tHello) ∧ ∀ f ∈ fs.tail, f.1 = tInput ∧ f.2.length = gamePayload

instance (fs : List Frame) : Decidable (FromRom fs) := inferInstanceAs (Decidable (_ ∧ _))

/-- Every console has sent only what the ROM sends. -/
def AllFromRom (trace : List Act) : Prop := ∀ c, FromRom (framesOf c trace)

instance (trace : List Act) : Decidable (AllFromRom trace) :=
  decidable_of_iff (∀ c ∈ senders trace, FromRom (framesOf c trace)) <| by
    refine ⟨?_, fun h c _ => h c⟩
    intro h c
    by_cases hc : c ∈ senders trace
    · exact h c hc
    · rw [framesOf_eq_nil hc]
      decide

/-- START begins a match, and PEER_LEFT ends it. -/
def heed (playing : Bool) (f : List Byte) : Bool :=
  if typeOf f = some tStart then true
  else if typeOf f = some tPeerLeft then false
  else playing

/-- Whether the last START has not been followed by PEER_LEFT. -/
def playing (fs : List (List Byte)) : Bool := fs.foldl heed false

/-- A console reads as many bytes as wait for it, rounded down to whole frames. -/
def readOff (stream : List Byte) (avail : Byte) : List Byte := stream.drop (avail &&& irMask).toNat

@[simp] theorem framesTo_append (c : ℕ) (as bs : List Act) :
    framesTo c (as ++ bs) = framesTo c as ++ framesTo c bs := List.filterMap_append

/-- The frames are the bytes of the queue. -/
theorem flatten_framesTo (c : ℕ) (trace : List Act) :
    (framesTo c trace).flatten = queuedTo c trace := by
  induction trace with
  | nil => rfl
  | cons a trace ih =>
    have hhead : (framesTo c [a]).flatten = queuedTo c [a] := by
      cases a with
      | queued d data =>
        by_cases hd : d = c
        · simp [framesTo, queuedTo, Act.sentTo, Act.dataFor, hd]
        · simp [framesTo, queuedTo, Act.sentTo, Act.dataFor, hd]
      | _ => rfl
    rw [← List.singleton_append, framesTo_append, queuedTo_append, List.flatten_append, ih, hhead]

theorem framesTo_queued (c d : ℕ) (data : List Byte) :
    framesTo c [.queued d data] = if d = c then [data] else [] := by
  by_cases hd : d = c
  · simp [framesTo, Act.sentTo, hd]
  · simp [framesTo, Act.sentTo, hd]

theorem typeOf_frame (ftype : Byte) (payload : List Byte) :
    typeOf (frame ftype payload) = some ftype := rfl

theorem frame_length (ftype : Byte) (payload : List Byte) :
    (frame ftype payload).length = payload.length + 2 := rfl

/-! ### What the ROM sends -/

theorem FromRom.mem {fs : List Frame} (h : FromRom fs) {f : Frame} (hf : f ∈ fs) :
    f.1 = tHello ∨ f.1 = tInput ∧ f.2.length = gamePayload := by
  cases fs with
  | nil => cases hf
  | cons g fs =>
    rcases List.mem_cons.mp hf with rfl | hf
    · exact .inl (h.1 f rfl)
    · exact .inr (h.2 f hf)

/-- The ROM keeps to the protocol. -/
theorem FromRom.conforming {fs : List Frame} (h : FromRom fs) : Conforming fs := by
  refine ⟨h.1, ?_, ?_⟩
  · intro f hf
    rw [(h.2 f hf).1]
    decide
  · intro f hf
    rcases h.mem ((List.dropLast_sublist _).subset hf) with ht | ⟨ht, -⟩
    · rw [ht]
      decide
    · rw [ht]
      decide

/-! ### What a console is sent -/

theorem playing_concat (fs : List (List Byte)) (f : List Byte) :
    playing (fs ++ [f]) = heed (playing fs) f := by
  simp only [playing, List.foldl_append, List.foldl_cons, List.foldl_nil]

/-- A match goes on until PEER_LEFT. -/
theorem foldl_heed {fs : List (List Byte)} (h : ∀ f ∈ fs, typeOf f ≠ some tPeerLeft) :
    fs.foldl heed true = true := by
  induction fs with
  | nil => rfl
  | cons f fs ih =>
    have hf : heed true f = true := by
      rw [heed, if_neg (h f List.mem_cons_self), ite_self]
    rw [List.foldl_cons, hf]
    exact ih fun g hg => h g (List.mem_cons_of_mem f hg)

/-- Everything but START is sixteen bytes, and START is not sent twice without PEER_LEFT in
    between. -/
structure Steady (fs : List (List Byte)) : Prop where
  length : ∀ f ∈ fs, typeOf f ≠ some tStart → f.length = gameFrame
  start : ∀ before f, before ++ [f] <+: fs → typeOf f = some tStart → playing before = false

theorem steady_nil : Steady [] where
  length f hf := by cases hf
  start before f hf := by simp at hf

theorem Steady.concat {fs : List (List Byte)} (h : Steady fs) {f : List Byte}
    (hlen : typeOf f ≠ some tStart → f.length = gameFrame)
    (hstart : typeOf f = some tStart → playing fs = false) : Steady (fs ++ [f]) where
  length g hg := by
    rcases List.mem_append.mp hg with hg | hg
    · exact h.length g hg
    · rwa [List.mem_singleton.mp hg]
  start before g hg ht := by
    rcases List.prefix_concat_iff.mp hg with heq | hg
    · obtain ⟨rfl, hfg⟩ := List.append_inj' heq rfl
      obtain rfl : g = f := List.head_eq_of_cons_eq hfg
      exact hstart ht
    · exact h.start before g hg ht

/-- A game frame. -/
theorem Steady.game {fs : List (List Byte)} (h : Steady fs) {ftype : Byte} {payload : List Byte}
    (ht : ftype ≠ tStart) (hlen : payload.length = gamePayload) :
    Steady (fs ++ [frame ftype payload]) := by
  refine h.concat (fun _ => ?_) fun e => absurd (Option.some.inj e) ht
  rw [frame_length, hlen]
  rfl

/-- Behind a START, for as long as there is no other: game frames. And if there is another, then one
    of them was PEER_LEFT. -/
theorem Steady.after_start {before play rest : List (List Byte)} {start : List Byte}
    (h : Steady (before ++ start :: (play ++ rest))) (ht : typeOf start = some tStart)
    (hplay : ∀ f ∈ play, typeOf f ≠ some tStart) :
    (∀ f ∈ play, f.length = gameFrame) ∧ ∀ next ∈ rest.head?, typeOf next = some tStart →
      ∃ f ∈ play, typeOf f = some tPeerLeft := by
  constructor
  · intro f hf
    refine h.length f (List.mem_append_right _ (List.mem_cons_of_mem _ ?_)) (hplay f hf)
    exact List.mem_append_left _ hf
  · intro next hnext htnext
    by_contra hnone
    have hfalse : playing (before ++ start :: play) = false := by
      refine h.start _ next ?_ htnext
      cases rest with
      | nil => cases hnext
      | cons r rest =>
        obtain rfl : r = next := Option.some.inj hnext
        exact ⟨rest, by simp⟩
    have htrue : playing (before ++ start :: play) = true := by
      rw [playing, List.foldl_append, List.foldl_cons, heed, if_pos ht]
      exact foldl_heed fun f hf hleft => hnone ⟨f, hf, hleft⟩
    rw [htrue] at hfalse
    cases hfalse

/-! ### Reading -/

/-- Frames of sixteen bytes are read in whole ones. -/
theorem drop_flatten : ∀ {fs : List (List Byte)} (k : ℕ), (∀ f ∈ fs, f.length = gameFrame) →
    fs.flatten.drop (16 * k) = (fs.drop k).flatten
  | fs, 0, _ => by rw [Nat.mul_zero, List.drop_zero, List.drop_zero]
  | [], k + 1, _ => by simp
  | f :: fs, k + 1, h => by
      have hf : f.length = 16 := h f List.mem_cons_self
      have hk : 16 * (k + 1) = f.length + 16 * k := by omega
      rw [List.flatten_cons, hk, List.drop_length_add_append, List.drop_succ_cons,
        drop_flatten k fun g hg => h g (List.mem_cons_of_mem f hg)]

theorem readOff_flatten {fs : List (List Byte)} (h : ∀ f ∈ fs, f.length = gameFrame)
    (avail : Byte) : ∃ k, readOff fs.flatten avail = (fs.drop k).flatten := by
  obtain ⟨k, hk, hmask, -⟩ := irMask_and avail
  refine ⟨k, ?_⟩
  rw [readOff, hmask, BitVec.toNat_ofNat, Nat.mod_eq_of_lt (by omega), drop_flatten k h]

/-- However much waits each time, a console is left at the head of a frame. -/
theorem readsOff_flatten {fs : List (List Byte)} (h : ∀ f ∈ fs, f.length = gameFrame)
    (avails : List Byte) : ∃ k, avails.foldl readOff fs.flatten = (fs.drop k).flatten := by
  induction avails generalizing fs with
  | nil => exact ⟨0, rfl⟩
  | cons avail avails ih =>
    obtain ⟨k, hk⟩ := readOff_flatten h avail
    obtain ⟨j, hj⟩ := ih fun f hf => h f (List.mem_of_mem_drop hf)
    exact ⟨k + j, by rw [List.foldl_cons, hk, hj, List.drop_drop]⟩

/-! ### Matches -/

/-- Everybody is sent what a console that plays can read, and who is playing has an opponent. -/
structure Played (log : List Act) (h : Hall) : Prop where
  steady : ∀ c, Steady (framesTo c log)
  opponent : ∀ c ∈ h.here, playing (framesTo c log) = true → h.opponent c ≠ none
  past : ∀ c, playing (framesTo c log) = true → c ∈ h.past

variable {delay variation : ℤ} {log : List Act} {h : Hall} {c : ℕ}

theorem framesTo_act {a : Act} (ha : h.allowed a) (c : ℕ) (log as : List Act) :
    framesTo c (log ++ a :: as) = framesTo c log ++ framesTo c as := by
  rw [framesTo_append, framesTo, framesTo, framesTo, List.filterMap_cons]
  cases a with
  | queued d data => exact ha.elim
  | _ => rfl

/-- Nothing is sent, and nobody loses an opponent. -/
theorem Played.quiet {a : Act} (hp : Played log h) (ha : h.allowed a)
    (has : h.answers delay variation a = []) (hhere : ∀ d ∈ (h.after a).here, d ∈ h.past → d ∈ h.here)
    (hpast : ∀ d ∈ h.past, d ∈ (h.after a).past) (hopponent : (h.after a).opponent = h.opponent) :
    Played (log ++ a :: h.answers delay variation a) (h.after a) := by
  have hframes : ∀ d, framesTo d (log ++ a :: h.answers delay variation a) = framesTo d log := by
    intro d
    rw [framesTo_act ha, has]
    exact List.append_nil _
  refine ⟨fun d => hframes d ▸ hp.steady d, ?_, fun d hd => hpast d (hp.past d (hframes d ▸ hd))⟩
  intro d hd hplaying
  rw [hframes] at hplaying
  rw [hopponent]
  exact hp.opponent d (hhere d hd (hp.past d hplaying)) hplaying

/-- A game frame is sent to an opponent. -/
theorem Played.relayed (hp : Played log h) {a : Act} (ha : h.allowed a) (hafter : h.after a = h)
    {p : ℕ} {ftype : Byte} {payload : List Byte} (hstart : ftype ≠ tStart)
    (hleft : ftype ≠ tPeerLeft) (hlen : payload.length = gamePayload)
    (has : h.answers delay variation a = [.queued p (frame ftype payload)]) :
    Played (log ++ a :: h.answers delay variation a) (h.after a) := by
  have hquiet : ∀ b, heed b (frame ftype payload) = b := by
    intro b
    rw [heed, typeOf_frame, if_neg (fun e => hstart (Option.some.inj e)),
      if_neg fun e => hleft (Option.some.inj e)]
  have hplaying : ∀ d, playing (framesTo d (log ++ a :: h.answers delay variation a)) =
      playing (framesTo d log) := by
    intro d
    rw [framesTo_act ha, has, framesTo_queued]
    split
    · rw [playing_concat, hquiet]
    · rw [List.append_nil]
  refine ⟨?_, ?_, ?_⟩
  · intro d
    rw [framesTo_act ha, has, framesTo_queued]
    split
    · exact (hp.steady d).game hstart hlen
    · rw [List.append_nil]
      exact hp.steady d
  · intro d hd h'
    rw [hafter] at hd ⊢
    exact hp.opponent d hd (hplaying d ▸ h')
  · intro d h'
    rw [hafter]
    exact hp.past d (hplaying d ▸ h')

/-- Two who have no opponent meet. -/
theorem Played.matched (hp : Played log h) (hs : h.Sound) {host guest seed : ℕ}
    (ha : h.allowed (.matched host guest seed)) :
    Played (log ++ .matched host guest seed :: h.answers delay variation (.matched host guest seed))
      (h.after (.matched host guest seed)) := by
  obtain ⟨hne, ⟨hhost, hguest⟩, ⟨hhfree, hgfree⟩, -⟩ := id ha
  have hidle : ∀ d ∈ h.here, h.opponent d = none → playing (framesTo d log) = false := by
    intro d hd hfree
    by_contra hplaying
    exact hp.opponent d hd (Bool.eq_true_of_not_eq_false hplaying) hfree
  have hframes : ∀ d, ∃ fs, framesTo d (log ++ .matched host guest seed ::
      h.answers delay variation (.matched host guest seed)) = framesTo d log ++ fs ∧
      (d ≠ host ∧ d ≠ guest ∧ fs = [] ∨
        (d = host ∨ d = guest) ∧ ∃ f, fs = [f] ∧ typeOf f = some tStart) := by
    intro d
    refine ⟨_, framesTo_act ha d log _, ?_⟩
    rw [Hall.answers, ← List.singleton_append, framesTo_append, framesTo_queued, framesTo_queued]
    by_cases hdh : d = host
    · rw [if_pos hdh.symm, if_neg fun e => hne (hdh.symm.trans e.symm)]
      exact .inr ⟨.inl hdh, _, List.append_nil _, rfl⟩
    · rw [if_neg (Ne.symm hdh)]
      by_cases hdg : d = guest
      · rw [if_pos hdg.symm]
        exact .inr ⟨.inr hdg, _, List.nil_append _, rfl⟩
      · rw [if_neg (Ne.symm hdg)]
        exact .inl ⟨hdh, hdg, rfl⟩
  have hmembers : ∀ d, d = host ∨ d = guest → d ∈ h.here ∧ h.opponent d = none := by
    rintro d (rfl | rfl)
    · exact ⟨hhost, hhfree⟩
    · exact ⟨hguest, hgfree⟩
  refine ⟨?_, ?_, ?_⟩
  · intro d
    rcases hframes d with ⟨fs, hfs, ⟨-, -, rfl⟩ | ⟨hd, f, rfl, hf⟩⟩
    · rw [hfs, List.append_nil]
      exact hp.steady d
    · rw [hfs]
      obtain ⟨hhere, hfree⟩ := hmembers d hd
      exact (hp.steady d).concat (fun hno => absurd hf hno) fun _ => hidle d hhere hfree
  · intro d hd hplaying
    simp only [Hall.after, Function.update_apply]
    split
    · simp
    · next hdg =>
      split
      · simp
      · next hdh =>
        rcases hframes d with ⟨fs, hfs, ⟨-, -, rfl⟩ | ⟨hmem, -⟩⟩
        · rw [hfs, List.append_nil] at hplaying
          exact hp.opponent d hd hplaying
        · exact absurd hmem (by tauto)
  · intro d hplaying
    rcases hframes d with ⟨fs, hfs, ⟨-, -, rfl⟩ | ⟨hmem, -⟩⟩
    · rw [hfs, List.append_nil] at hplaying
      exact hp.past d hplaying
    · exact hs.past d (hmembers d hmem).1

/-- Somebody leaves, and an opponent is told. -/
theorem Played.dropped (hp : Played log h) (hs : h.Sound) (hc : c ∈ h.here) :
    Played (log ++ .dropped c :: h.answers delay variation (.dropped c)) (h.after (.dropped c)) := by
  have ha : h.allowed (.dropped c) := hc
  cases hopp : h.opponent c with
  | none =>
    refine hp.quiet ha ?_ (fun d hd _ => List.mem_of_mem_erase hd) (fun d hd => hd) ?_
    · rw [Hall.answers, hopp]
    · simp only [Hall.after, hopp]
  | some p =>
    have hframes : ∀ d, framesTo d (log ++ .dropped c :: h.answers delay variation (.dropped c)) =
        framesTo d log ++ if p = d then [peerLeft] else [] := by
      intro d
      rw [framesTo_act ha, Hall.answers, hopp]
      exact congrArg _ (framesTo_queued d p peerLeft)
    have hplaying : ∀ d, playing (framesTo d log ++ if p = d then [peerLeft] else []) = true →
        d ≠ p ∧ playing (framesTo d log) = true := by
      intro d h'
      by_cases hd : p = d
      · rw [if_pos hd, playing_concat] at h'
        cases h'
      · rw [if_neg hd, List.append_nil] at h'
        exact ⟨Ne.symm hd, h'⟩
    refine ⟨?_, ?_, ?_⟩
    · intro d
      rw [hframes]
      split
      · exact (hp.steady d).game (by decide) (List.length_replicate ..)
      · rw [List.append_nil]
        exact hp.steady d
    · intro d hd h'
      rw [hframes] at h'
      obtain ⟨hdp, h'⟩ := hplaying d h'
      obtain ⟨hdc, hd⟩ := (List.Nodup.mem_erase_iff hs.nodup).mp hd
      simp only [Hall.after, hopp, Function.update_of_ne hdc, Function.update_of_ne hdp]
      exact hp.opponent d hd h'
    · intro d h'
      rw [hframes] at h'
      exact hp.past d (hplaying d h').2

/-- What consoles may send to a hall in which everybody plays the ROM's game. -/
def RomAct : Act → Prop
  | .handled _ ftype payload => ftype = tHello ∨ ftype = tInput ∧ payload.length = gamePayload
  | _ => True

theorem Played.act (hp : Played log h) (hs : h.Sound) {a : Act} (ha : h.allowed a)
    (hrom : RomAct a) :
    Played (log ++ a :: h.answers delay variation a) (h.after a) := by
  cases a with
  | accepted d =>
    refine hp.quiet ha rfl ?_ (fun e he => List.mem_append_left _ he) rfl
    intro e he hpast
    rcases List.mem_append.mp he with he | he
    · exact he
    · exact absurd (List.mem_singleton.mp he ▸ hpast) ha
  | named d name => exact hp.quiet ha rfl (fun e he _ => he) (fun e he => he) rfl
  | matched host guest seed => exact hp.matched hs ha
  | dropped d => exact hp.dropped hs ha
  | queued d data => exact ha.elim
  | handled d ftype payload =>
    rcases hrom with rfl | ⟨rfl, hlen⟩
    · exact hp.quiet ha rfl (fun e he _ => he) (fun e he => he) rfl
    · cases hopp : h.opponent d with
      | none =>
        refine hp.quiet ha ?_ (fun e he _ => he) (fun e he => he) rfl
        simp only [Hall.answers, hopp, if_pos (show tInput ∈ relayTypes by decide)]
      | some p =>
        have hforward : h.answers delay variation (.handled d tInput payload) =
            [.queued p (frame tInput (ljust gamePayload payload))] := by
          simp only [Hall.answers, hopp, if_pos (show tInput ∈ relayTypes by decide)]
        refine hp.relayed ha rfl (by decide) (by decide) ?_ hforward
        rw [ljust_length, hlen, Nat.max_self]

theorem romAct_of_mem (hrom : AllFromRom log) {a : Act} (ha : a ∈ log) :
    RomAct a := by
  cases a with
  | handled c ftype payload =>
    exact (hrom c).mem (f := (ftype, payload)) (List.mem_filterMap.mpr ⟨_, ha, by simp [Act.frameOf]⟩)
  | _ => trivial

/-- If consoles send only what the ROM sends, a hall's log is played throughout. -/
theorem hall_played (hd : (hall delay variation).Dialogue log h)
    (hrom : ∀ a ∈ log, RomAct a) : Played log h := by
  induction hd with
  | start =>
    refine ⟨fun _ => steady_nil, ?_, ?_⟩
    · intro c hc
      cases hc
    · intro c hc
      cases hc
  | act hd ha ih =>
    have hlog := ih fun a ha => hrom a (List.mem_append_left _ ha)
    exact hlog.act (hall_sound hd) ha (hrom _ (List.mem_append_right _ List.mem_cons_self))

/-- Of consoles that send only what the ROM sends: what the relay queues to one behind a START, up to
    the next START, is sixteen bytes a frame, so that reading whole frames of whatever waits leaves
    it at the head of one; and before the next START it has been told that its opponent left. -/
theorem play_frames_whole {s₀ s : Server} {es : List Event} (h₀ : relay.init s₀)
    (hrun : relay.run s₀ es = some s) (hrom : AllFromRom s.trace) (c : ℕ) :
    (framesTo c s.trace).flatten = s.taken c ++ (s.obj c).tx ∧
      ∀ before start play rest, framesTo c s.trace = before ++ start :: (play ++ rest) →
        typeOf start = some tStart → (∀ f ∈ play, typeOf f ≠ some tStart) →
        (∀ f ∈ play, f.length = gameFrame) ∧
        (∀ avails : List Byte, ∃ k, avails.foldl readOff play.flatten = (play.drop k).flatten) ∧
        ∀ next ∈ rest.head?, typeOf next = some tStart → ∃ f ∈ play, typeOf f = some tPeerLeft := by
  have hsession := run_session (session_of_init h₀) hrun
  obtain ⟨h, ht⟩ := hsession.tracks fun d => (hrom d).conforming
  have hplayed := hall_played ht.log fun a ha => romAct_of_mem hrom ha
  refine ⟨(flatten_framesTo c s.trace).trans (hsession.accounts.queued c), ?_⟩
  intro before start play rest hframes hstart hplay
  have hsteady : Steady (framesTo c s.trace) := hplayed.steady c
  rw [hframes] at hsteady
  obtain ⟨hlen, hnext⟩ := hsteady.after_start hstart hplay
  exact ⟨hlen, readsOff_flatten hlen, hnext⟩

/-- Two consoles play; the host's connection ends, and the guest, who stays, meets a third. -/
def reunion : List Event :=
  let input := frame tInput (List.replicate gamePayload 0)
  [.accept (0, 0) 0, .recv 0 (hello ['A', 'L']) 0, .accept (1, 0) 1, .recv 1 (hello ['B', 'O']) 0,
    .recv 0 input 0, .recv 1 input 0, .recv 0 [] 0, .accept (2, 0) 2, .recv 2 (hello ['C', 'Y']) 0,
    .recv 2 input 0]

theorem play_frames_whole_reunion : ∃ s, relay.run listening reunion = some s ∧
    ∀ play rest, framesTo 1 s.trace = startOf 1 1 2 2 ['A', 'L'] :: (play ++ rest) →
      (∀ f ∈ play, typeOf f ≠ some tStart) → ∀ f ∈ play, f.length = gameFrame := by
  obtain ⟨s, hrun, hrom⟩ : ∃ s, relay.run listening reunion = some s ∧ AllFromRom s.trace :=
    relay.exists_run (by decide +kernel)
  exact ⟨s, hrun, fun play rest hframes hplay =>
    ((play_frames_whole init_listening hrun hrom 1).2 [] _ play rest hframes rfl hplay).1⟩

/-- The one who stays is sent a second START, of fifteen bytes. -/
theorem start_after_start : relay.init listening ∧ ∃ s, relay.run listening reunion = some s ∧
    AllFromRom s.trace ∧ (framesTo 1 s.trace).head?.bind typeOf = some tStart ∧
      ∃ f ∈ (framesTo 1 s.trace).tail, f.length ≠ gameFrame :=
  ⟨init_listening, relay.exists_run (by decide +kernel)⟩

end VO.Relay
