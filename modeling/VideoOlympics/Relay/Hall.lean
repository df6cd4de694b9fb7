import VideoOlympics.Base.Dialogue
import VideoOlympics.Base.Pairing
import VideoOlympics.Relay.Room

/-! What the relay is for. A hall of people who come, say their names, are introduced to each other
    two by two, and leave; what one of two opponents says the other hears, and nobody else; and who is
    left alone is told so. The relay's trace is the log of such a hall. -/

namespace VO.Relay

/-- Who is here, in the order they came, and who has ever been; their names, and the last to have
    given its own; and everybody's opponent. -/
structure Hall where
  here : List ℕ
  past : List ℕ
  name : ℕ → Option Name
  came : Option ℕ
  opponent : ℕ → Option ℕ

namespace Hall

def empty : Hall :=
  { here := [], past := [], name := fun _ => none, came := none, opponent := fun _ => none }

/-- The LOBBY frame of the first eight who have given their names. -/
def lobby (h : Hall) : List Byte :=
  let es := (h.here.filterMap fun c =>
    (h.name c).map fun name => Server.entry name (h.opponent c).isSome).take 8
  frame tLobby (BitVec.ofNat 8 es.length :: es.flatten)

/-- Two are introduced who are here, have given their names and have no opponent; the guest is the
    last to have come, so the host has waited. -/
def allowed (h : Hall) : Act → Prop
  | .accepted c => c ∉ h.past
  | .handled c _ _ => c ∈ h.past
  | .named c _ => c ∈ h.here ∧ h.name c = none
  | .matched host guest seed => host ≠ guest ∧ (host ∈ h.here ∧ guest ∈ h.here) ∧
      (h.opponent host = none ∧ h.opponent guest = none) ∧
      ((h.name host).isSome ∧ (h.name guest).isSome) ∧ h.came = some guest ∧
      1 ≤ seed ∧ seed < 0x10000
  | .dropped c => c ∈ h.here
  | .queued _ _ => False

def after (h : Hall) : Act → Hall
  | .accepted c => { h with here := h.here ++ [c], past := h.past ++ [c] }
  | .named c name => { h with name := Function.update h.name c (some name), came := some c }
  | .matched host guest _ =>
    { h with opponent :=
        Function.update (Function.update h.opponent host (some guest)) guest (some host) }
  | .dropped c =>
    { h with
      here := h.here.erase c
      opponent := match h.opponent c with
        | some p => Function.update (Function.update h.opponent p none) c none
        | none => h.opponent }
  | .handled _ _ _ => h
  | .queued _ _ => h

/-- A game frame goes to the opponent, in full length; a LIST and a PING are answered to who sent
    them; two who meet are each sent START, with their roles and each other's names; and who loses
    its opponent is told once. -/
def answers (delay variation : ℤ) (h : Hall) : Act → List Act
  | .handled c ftype payload =>
    if ftype ∈ relayTypes then
      match h.opponent c with
      | some p => [.queued p (frame ftype (ljust gamePayload payload))]
      | none => []
    else if ftype = tList then [.queued c h.lobby]
    else if ftype = tPing then [.queued c (frame tPong [])]
    else []
  | .matched host guest seed =>
    [.queued host (startOf 0 seed delay variation ((h.name guest).getD [])),
      .queued guest (startOf 1 seed delay variation ((h.name host).getD []))]
  | .dropped c =>
    match h.opponent c with
    | some p => [.queued p peerLeft]
    | none => []
  | _ => []

/-- Opponents are paired, and are here. -/
structure Sound (h : Hall) : Prop where
  nodup : h.here.Nodup
  past : ∀ c ∈ h.here, c ∈ h.past
  pairing : Pairing h.here h.opponent
  absent : ∀ c, c ∉ h.here → h.opponent c = none

theorem Sound.accepted {h : Hall} (hs : h.Sound) {c : ℕ} (hc : c ∉ h.past) :
    (h.after (.accepted c)).Sound where
  nodup := List.nodup_append.mpr ⟨hs.nodup, List.nodup_singleton _, fun d hd e he hde =>
    hc (List.mem_singleton.mp he ▸ hde ▸ hs.past d hd)⟩
  past := fun d hd => by
    rcases List.mem_append.mp hd with hd | hd
    · exact List.mem_append_left _ (hs.past d hd)
    · exact List.mem_append_right _ hd
  pairing := by
    have hnew : c ∉ h.here := fun hmem => hc (hs.past c hmem)
    have hpairing := hs.pairing.concat hnew
    rwa [← hs.absent c hnew, Function.update_eq_self] at hpairing
  absent := fun d hd => hs.absent d fun hmem => hd (List.mem_append_left _ hmem)

theorem Sound.matched {h : Hall} (hs : h.Sound) {host guest seed : ℕ}
    (ha : h.allowed (.matched host guest seed)) : (h.after (.matched host guest seed)).Sound := by
  obtain ⟨hne, ⟨hhost, hguest⟩, ⟨hhfree, hgfree⟩, -⟩ := ha
  refine ⟨hs.nodup, hs.past, (hs.pairing.link_iff hhost hhfree hne).mpr ⟨hguest, hgfree⟩, ?_⟩
  intro d hd
  have hdg : d ≠ guest := fun e => hd (e ▸ hguest)
  have hdh : d ≠ host := fun e => hd (e ▸ hhost)
  simp only [after, Function.update_of_ne hdg, Function.update_of_ne hdh, hs.absent d hd]

theorem Sound.dropped {h : Hall} (hs : h.Sound) {c : ℕ} (hc : c ∈ h.here) :
    (h.after (.dropped c)).Sound := by
  have hleft : c ∉ h.here.erase c := fun hmem => ((List.Nodup.mem_erase_iff hs.nodup).mp hmem).1 rfl
  have habsent : ∀ d, d ∉ h.here.erase c → d = c ∨ d ∉ h.here := fun d hd => by
    rw [List.Nodup.mem_erase_iff hs.nodup] at hd
    tauto
  refine ⟨hs.nodup.erase c, fun d hd => hs.past d (List.mem_of_mem_erase hd), ?_, ?_⟩
  · cases hp : h.opponent c with
    | none =>
      simp only [after, hp]
      exact hs.pairing.erase_single hs.nodup hp
    | some p =>
      simp only [after, hp]
      apply (hs.pairing.erase_paired hs.nodup hc hp).congr
      intro d hd
      have hdc : d ≠ c := fun e => hleft (e ▸ hd)
      rw [Function.update_of_ne hdc]
  · intro d hd
    cases hp : h.opponent c with
    | none =>
      simp only [after, hp]
      rcases habsent d hd with rfl | hd
      · exact hp
      · exact hs.absent d hd
    | some p =>
      simp only [after, hp]
      rcases habsent d hd with rfl | hd
      · rw [Function.update_self]
      · have hdp : d ≠ p := fun e => hd (e ▸ (hs.pairing c hc p hp).1)
        have hdc : d ≠ c := fun e => hd (e ▸ hc)
        rw [Function.update_of_ne hdc, Function.update_of_ne hdp, hs.absent d hd]

theorem Sound.after {h : Hall} (hs : h.Sound) {a : Act} (ha : h.allowed a) : (h.after a).Sound := by
  cases a with
  | accepted c => exact hs.accepted ha
  | matched host guest seed => exact hs.matched ha
  | dropped c => exact hs.dropped ha
  | queued c data => exact ha.elim
  | _ => exact ⟨hs.nodup, hs.past, hs.pairing, hs.absent⟩

end Hall

/-- The hall as the relay keeps it. -/
def hall (delay variation : ℤ) : Responder Hall Act where
  start := Hall.empty
  allowed := Hall.allowed
  after := Hall.after
  answers := Hall.answers delay variation

theorem hall_sound {delay variation : ℤ} {log : List Act} {h : Hall}
    (hd : (hall delay variation).Dialogue log h) : h.Sound := by
  have hempty : Hall.empty.Sound := by
    refine ⟨List.nodup_nil, ?_, ?_, fun _ _ => rfl⟩
    · intro c hc
      cases hc
    · intro c hc
      cases hc
  exact hd.keeps hempty fun _ _ hs ha => hs.after ha

/-- Only appends answer. -/
theorem mem_answers {delay variation : ℤ} {h : Hall} {a b : Act}
    (hb : b ∈ h.answers delay variation a) : ∃ c data, b = .queued c data := by
  have hone : ∀ {c : ℕ} {data : List Byte}, b ∈ [Act.queued c data] → ∃ c data, b = .queued c data :=
    fun h => ⟨_, _, List.mem_singleton.mp h⟩
  cases a with
  | handled c ftype payload =>
    simp only [Hall.answers] at hb
    split at hb
    · split at hb
      · exact hone hb
      · cases hb
    · split at hb
      · exact hone hb
      · split at hb
        · exact hone hb
        · cases hb
  | matched host guest seed =>
    rcases List.mem_cons.mp hb with rfl | hb
    · exact ⟨_, _, rfl⟩
    · exact hone hb
  | dropped c =>
    simp only [Hall.answers] at hb
    split at hb
    · exact hone hb
    · cases hb
  | _ => cases hb

/-- Who has left does not come back. -/
theorem hall_dropped {delay variation : ℤ} {log : List Act} {h : Hall}
    (hd : (hall delay variation).Dialogue log h) {c : ℕ} (hc : .dropped c ∈ log) :
    c ∈ h.past ∧ c ∉ h.here := by
  induction hd with
  | start => cases hc
  | @act log h a hd ha ih =>
    have hsound := hall_sound hd
    rcases List.mem_append.mp hc with hc | hc
    · obtain ⟨hpast, hhere⟩ := ih hc
      cases a with
      | accepted d =>
        have hcd : c ≠ d := fun e => ha (e ▸ hpast)
        refine ⟨List.mem_append_left _ hpast, ?_⟩
        intro hmem
        rcases List.mem_append.mp hmem with hmem | hmem
        · exact hhere hmem
        · exact hcd (List.mem_singleton.mp hmem)
      | dropped d => exact ⟨hpast, fun hmem => hhere (List.mem_of_mem_erase hmem)⟩
      | _ => exact ⟨hpast, hhere⟩
    · rcases List.mem_cons.mp hc with rfl | hc
      · exact ⟨hsound.past c ha, fun hmem =>
          ((List.Nodup.mem_erase_iff hsound.nodup).mp hmem).1 rfl⟩
      · obtain ⟨d, data, h⟩ := mem_answers hc
        cases h

end VO.Relay
