import VideoOlympics.Relay.Matching

/-! What ends the relay. Everything the server builds is small: a name has at most eight letters, a
    frame it takes at most two hundred bytes. So no frame can fail but one that makes a match: of a
    console that has no name, or with a delay that is no byte; and a HELLO whose every new name is
    taken, which is never answered. -/

namespace VO.Relay

/-- The call comes back. -/
def Total {α : Type} (x : Except Err α) : Prop := ∃ a, x = .ok a

theorem total_ok {α : Type} (a : α) : Total (.ok a) := ⟨a, rfl⟩

theorem total_bind {α β : Type} {x : Except Err α} {f : α → Except Err β} :
    Total (x >>= f) ↔ ∃ a, x = .ok a ∧ Total (f a) := by
  constructor
  · rintro ⟨b, h⟩
    obtain ⟨a, ha, hb⟩ := Server.bind_ok h
    exact ⟨a, ha, b, hb⟩
  · rintro ⟨a, rfl, b, hb⟩
    exact ⟨b, hb⟩

theorem total_frame? {ftype : Byte} {payload : List Byte} (h : payload.length ≤ 254) :
    frame? ftype payload = .ok (frame ftype payload) := by
  unfold frame?
  rw [if_pos (by omega)]

theorem total_byte? {n : ℤ} : Total (byte? n) ↔ 0 ≤ n ∧ n < 256 := by
  unfold byte?
  split
  · next h => exact iff_of_true (total_ok _) h
  · next h => exact iff_of_false (fun ⟨_, h⟩ => by cases h) h

theorem ljust_length {n : ℕ} {bs : List Byte} : (ljust n bs).length = max n bs.length := by
  simp only [ljust, List.length_append, List.length_replicate]
  omega

/-- The names a HELLO may be given: its own, and then with a digit drawn for its last letter. -/
def candidate : ℕ → Name → (ℕ → ℕ) → Name
  | 0, name, _ => name
  | n + 1, name, random =>
    candidate n (name.take 7 ++ [Char.ofNat (48 + random 0 % 10)]) fun i => random (i + 1)

namespace Room

/-- What is put into a frame fits into it. -/
structure Fit (r : Room) : Prop where
  variation : 0 ≤ r.variation ∧ r.variation < 256
  name : ∀ c name, r.name c = some name → name.length ≤ 8

theorem Fit.leave {r : Room} (h : r.Fit) (c : ℕ) : (r.leave c).Fit := by
  obtain ⟨-, hvariation, -, hname, -⟩ := r.leave_fixed c
  exact ⟨hvariation ▸ h.variation, hname ▸ h.name⟩

theorem Fit.move {r r' : Room} (h : r.Fit) (hmove : r.Move r') : r'.Fit := by
  cases hmove with
  | join =>
    refine ⟨h.variation, ?_⟩
    intro c name hname
    by_cases hc : c = r.next
    · simp only [Room.join, hc, Function.update_self] at hname
      cases hname
    · exact h.name c name (by simpa only [Room.join, Function.update_of_ne hc] using hname)
  | leave c _ => exact h.leave c
  | take c n _ => exact ⟨h.variation, h.name⟩

theorem Fit.call {r : Room} (h : r.Fit) {c : ℕ} {name : Name} (hlen : name.length ≤ 8) :
    (r.call c name).Fit := by
  refine ⟨h.variation, ?_⟩
  intro d name' hname
  by_cases hd : d = c
  · simp only [Room.call, hd, Function.update_self, Option.some.injEq] at hname
    exact hname ▸ hlen
  · exact h.name d name' (by simpa only [Room.call, Function.update_of_ne hd] using hname)

theorem Fit.pairs {r r' : Room} {c : ℕ} (h : r.Fit) (hp : r.Pairs c r') : r'.Fit := by
  cases hp with
  | alone _ => exact h
  | met _ _ _ _ _ _ _ _ _ => exact ⟨h.variation, h.name⟩

theorem Fit.handles {r r' : Room} {c : ℕ} {ftype : Byte} {payload : List Byte} (h : r.Fit)
    (hh : r.Handles c ftype payload r') : r'.Fit := by
  cases hh with
  | refused _ _ => exact h.leave c
  | gone _ => exact h.leave c
  | welcomed name _ _ _ hlen hp => exact (h.call hlen).pairs hp
  | joined _ _ hp => exact h.pairs hp
  | _ => exact ⟨h.variation, h.name⟩

end Room

namespace Server

theorem rename_isSome_iff {byName : List (Name × ℕ)} : ∀ {k : ℕ} {name : Name} {random : ℕ → ℕ},
    (rename byName k name random).isSome ↔
      ∃ n ≤ k, (byName.lookup (candidate n name random)).isNone
  | k, name, random => by
      unfold rename
      by_cases hfree : (byName.lookup name).isNone
      · rw [if_pos hfree]
        exact iff_of_true rfl ⟨0, Nat.zero_le k, hfree⟩
      rw [if_neg hfree]
      cases k with
      | zero =>
        refine iff_of_false (by simp) ?_
        rintro ⟨n, hn, h⟩
        obtain rfl := Nat.le_zero.mp hn
        exact hfree h
      | succ k =>
        rw [show (rename byName k _ _).isSome ↔ _ from rename_isSome_iff]
        constructor
        · rintro ⟨n, hn, h⟩
          exact ⟨n + 1, Nat.succ_le_succ hn, h⟩
        · rintro ⟨n, hn, h⟩
          cases n with
          | zero => exact absurd h hfree
          | succ n => exact ⟨n, Nat.le_of_succ_le_succ hn, h⟩

theorem rename_mono {byName : List (Name × ℕ)} : ∀ {k k' : ℕ} {name : Name} {random : ℕ → ℕ},
    k ≤ k' → rename byName k name random ≠ none →
      rename byName k' name random = rename byName k name random
  | k, k', name, random, hk, h => by
      unfold rename at h ⊢
      by_cases hfree : (byName.lookup name).isNone
      · rw [if_pos hfree, if_pos hfree]
      rw [if_neg hfree] at h ⊢
      rw [if_neg hfree]
      cases k with
      | zero => exact absurd rfl h
      | succ k =>
        obtain ⟨k', rfl⟩ : ∃ j, k' = j + 1 := ⟨k' - 1, by omega⟩
        exact rename_mono (Nat.le_of_succ_le_succ hk) h

/-! ### When a call comes back -/

variable {s : Server} {c : ℕ}

theorem ljust_encode_length {name : Name} (h : name.length ≤ 8) :
    (ljust 8 (encode name)).length = 8 := by
  simp only [ljust_length, encode, List.length_map]
  omega

theorem total_startFrame (hfit : s.room.Fit) (me them seed : ℕ) :
    Total (s.startFrame me them seed) ↔
      (0 ≤ s.delay ∧ s.delay < 256) ∧ (s.obj them).name.isSome := by
  simp only [startFrame]
  constructor
  · rintro ⟨data, h⟩
    obtain ⟨d, hd, h⟩ := bind_ok h
    obtain ⟨v, -, h⟩ := bind_ok h
    refine ⟨total_byte?.mp ⟨d, hd⟩, ?_⟩
    split at h
    · cases h
    · next name hname =>
      rw [hname]
      rfl
  · rintro ⟨hdelay, hsome⟩
    obtain ⟨name, hname⟩ := Option.isSome_iff_exists.mp hsome
    obtain ⟨d, hd⟩ := total_byte?.mpr hdelay
    obtain ⟨v, hv⟩ := total_byte?.mpr hfit.variation
    refine total_bind.mpr ⟨d, hd, total_bind.mpr ⟨v, hv, ?_⟩⟩
    have hlen := ljust_encode_length (hfit.name them name hname)
    rw [hname]
    exact ⟨_, total_frame? (by simp only [List.length_append, List.length_cons, hlen]; simp)⟩

theorem total_startOne (hfit : s.room.Fit) (me them seed : ℕ) :
    Total (s.startOne me them seed) ↔
      (0 ≤ s.delay ∧ s.delay < 256) ∧ (s.obj them).name.isSome := by
  have hroom := room_upd_quiet s me (fun o => { o with crc := [] }) rfl rfl rfl rfl
  have hframe := total_startFrame (s := s.upd me fun o => { o with crc := [] }) (hroom ▸ hfit)
    me them seed
  rw [obj_upd_quiet s me them _ Client.name rfl] at hframe
  refine Iff.trans ?_ hframe
  exact total_bind.trans ⟨fun ⟨data, h, _⟩ => ⟨data, h⟩, fun ⟨data, h⟩ => ⟨data, h, total_ok _⟩⟩

theorem total_startBoth (hfit : s.room.Fit) {host guest seed : ℕ} :
    Total (s.startBoth host guest seed) ↔
      (0 ≤ s.delay ∧ s.delay < 256) ∧ (s.obj host).name.isSome ∧ (s.obj guest).name.isSome := by
  have hsecond : ∀ s₁, s.startOne host guest seed = .ok s₁ → (Total (s₁.startOne guest host seed) ↔
      (0 ≤ s.delay ∧ s.delay < 256) ∧ (s.obj host).name.isSome) := by
    intro s₁ h₁
    obtain ⟨gn, -, hroom, -⟩ := startOne_ok h₁
    have hfit₁ : s₁.room.Fit := hroom ▸ ⟨hfit.variation, hfit.name⟩
    rw [total_startOne hfit₁ guest host seed, ← room_delay, ← room_name, hroom]
    rfl
  simp only [startBoth]
  rw [total_bind]
  constructor
  · rintro ⟨s₁, h₁, h₂⟩
    exact ⟨((total_startOne hfit _ _ _).mp ⟨s₁, h₁⟩).1, ((hsecond s₁ h₁).mp h₂).2,
      ((total_startOne hfit _ _ _).mp ⟨s₁, h₁⟩).2⟩
  · rintro ⟨hdelay, hhost, hguest⟩
    obtain ⟨s₁, h₁⟩ := (total_startOne hfit host guest seed).mpr ⟨hdelay, hguest⟩
    exact ⟨s₁, h₁, (hsecond s₁ h₁).mpr ⟨hdelay, hhost⟩⟩

theorem total_pair (hfit : s.room.Fit) {host guest : ℕ} :
    Total (s.pair host guest) ↔
      (0 ≤ s.delay ∧ s.delay < 256) ∧ (s.obj host).name.isSome ∧ (s.obj guest).name.isSome := by
  have hlink : ∀ (t : Server) (seed : ℕ), t.room.Fit →
      (Total ((t.link host guest).startBoth host guest seed) ↔
        (0 ≤ t.delay ∧ t.delay < 256) ∧ (t.obj host).name.isSome ∧ (t.obj guest).name.isSome) := by
    intro t seed ht
    rw [total_startBoth (room_link t host guest ▸ ⟨ht.variation, ht.name⟩)]
    simp only [← room_name, ← room_delay, room_link]
  unfold pair
  refine total_bind.trans (Iff.trans ?_ (hlink ((s.randrange 1 0x10000).2.note
    (.matched host guest (s.randrange 1 0x10000).1)) (s.randrange 1 0x10000).1
    ⟨hfit.variation, hfit.name⟩))
  exact ⟨fun ⟨t, h, _⟩ => ⟨t, h⟩, fun ⟨t, h⟩ => ⟨t, h, total_ok _⟩⟩

theorem total_tryPair (hfit : s.room.Fit) :
    Total (s.tryPair c) ↔
      (s.others c ≠ [] → (0 ≤ s.delay ∧ s.delay < 256) ∧ (s.obj c).name.isSome) := by
  simp only [tryPair]
  split
  · next hnone => exact iff_of_true (total_ok _) fun h => absurd hnone h
  · next o os hos =>
    have hmem : s.oldest o os ∈ s.others c := hos ▸ s.oldest_mem o os
    rw [total_pair hfit]
    exact ⟨fun h _ => ⟨h.1, h.2.2⟩, fun h =>
      ⟨(h (by rw [hos]; simp)).1, (mem_others.mp hmem).2.1, (h (by rw [hos]; simp)).2⟩⟩

/-- A name can be found for a HELLO. -/
def Nameable (s : Server) (name : Name) : Prop :=
  ∃ n, (s.byName.lookup (candidate n name s.random)).isNone

theorem total_welcome (hfit : s.room.Fit) {tv : Byte} {name : Name} (hlen : name.length ≤ 8) :
    (∃ k, Total (s.welcome k c tv name)) ↔
      (s.others c ≠ [] → 0 ≤ s.delay ∧ s.delay < 256) ∧ s.Nameable name := by
  have hpair : ∀ name' random', name'.length ≤ 8 →
      (Total ((s.register c tv name' random').tryPair c) ↔
        (s.others c ≠ [] → 0 ≤ s.delay ∧ s.delay < 256)) := by
    intro name' random' hlen'
    have hroom := room_register s c tv name' random'
    rw [total_tryPair (hroom ▸ hfit.call hlen'), ← room_others, ← room_delay, ← room_name, hroom,
      Room.others_call]
    have hnamed : ((s.room.call c name').name c).isSome := by
      simp only [Room.call, Function.update_self, Option.isSome_some]
    exact ⟨fun h hne => (h hne).1, fun h hne => ⟨h hne, hnamed⟩⟩
  constructor
  · rintro ⟨k, t, h⟩
    simp only [welcome] at h
    split at h
    · cases h
    · next name' random' hname =>
      obtain ⟨n, -, hfree⟩ := rename_isSome_iff.mp (Option.isSome_iff_exists.mpr ⟨_, hname⟩)
      exact ⟨(hpair name' random' (rename_length hname hlen)).mp ⟨t, h⟩, n, hfree⟩
  · rintro ⟨hdelay, n, hfree⟩
    obtain ⟨⟨name', random'⟩, hname⟩ :=
      Option.isSome_iff_exists.mp (rename_isSome_iff.mpr ⟨n, Nat.le_refl n, hfree⟩)
    refine ⟨n, ?_⟩
    simp only [welcome]
    rw [hname]
    exact (hpair name' random' (rename_length hname hlen)).mpr hdelay

theorem total_onHello (hfit : s.room.Fit) {payload : List Byte} :
    (∃ k, Total (s.onHello k c payload)) ↔ (helloOk payload = true →
      (s.others c ≠ [] → 0 ≤ s.delay ∧ s.delay < 256) ∧ s.Nameable (helloName payload)) := by
  have hroom : (s.upd c fun o => { o with tv := some (payload.getD 1 0) }).room = s.room :=
    room_upd_quiet s c _ rfl rfl rfl rfl
  unfold onHello helloOk
  split
  · exact iff_of_true ⟨0, total_ok _⟩ (by simp)
  · dsimp only
    split
    · next htv =>
      rw [if_pos (.inl htv)]
      exact iff_of_true ⟨0, total_ok _⟩ (by simp)
    · split
      · next htv =>
        rw [if_pos (.inr htv)]
        exact iff_of_true ⟨0, total_ok _⟩ (by simp)
      · next htv =>
        rw [if_neg (by tauto)]
        split
        · next hgood =>
          rw [total_welcome (hroom ▸ hfit) (goodName_length hgood), ← room_others, ← room_delay, hroom]
          exact ⟨fun h _ => h, fun h => h hgood⟩
        · next hbad => exact iff_of_true ⟨0, total_ok _⟩ fun h => absurd h hbad

theorem entries_length (hfit : s.room.Fit) : s.entries.length ≤ 8 ∧ s.entries.flatten.length ≤ 72 := by
  have hcount : s.entries.length ≤ 8 := by
    simp only [entries]
    exact List.length_take_le _ _
  have heach : ∀ e ∈ s.entries, e.length = 9 := by
    intro e he
    obtain ⟨c, -, hc⟩ := List.mem_filterMap.mp (List.mem_of_mem_take he)
    obtain ⟨name, hname, rfl⟩ := Option.map_eq_some_iff.mp hc
    have := ljust_encode_length (hfit.name c name hname)
    simp only [entry, List.length_append, this, List.length_singleton]
  refine ⟨hcount, ?_⟩
  have hsum : (s.entries.map List.length).sum = s.entries.length * 9 := by
    rw [List.map_congr_left heach, List.map_const', List.sum_replicate_nat]
  rw [List.length_flatten, hsum]
  omega

theorem total_sendLobby (hfit : s.room.Fit) : Total (s.sendLobby c) := by
  have hlen : (BitVec.ofNat 8 s.entries.length :: s.entries.flatten).length ≤ 254 := by
    have := (entries_length hfit).2
    rw [List.length_cons]
    omega
  exact total_bind.mpr ⟨_, total_frame? hlen, total_ok _⟩

theorem total_forward {ftype : Byte} {payload : List Byte} (hlen : payload.length ≤ 199) :
    Total (s.forward c ftype payload) := by
  simp only [forward]
  split
  · exact total_ok _
  · refine total_bind.mpr ⟨_, total_frame? ?_, total_ok _⟩
    rw [ljust_length]
    have : gamePayload = 14 := rfl
    omega

/-- What a frame must not be. A match needs a delay that is a byte, and a name for whoever asks;
    a HELLO needs a name nobody has. -/
def Safe (s : Server) (c : ℕ) (ftype : Byte) (payload : List Byte) : Prop :=
  Seeks ftype payload →
    (s.others c ≠ [] → (0 ≤ s.delay ∧ s.delay < 256) ∧ (ftype = tJoin → (s.obj c).name.isSome)) ∧
      (ftype = tHello → s.Nameable (helloName payload))

theorem total_handle (hfit : s.room.Fit) {ftype : Byte} {payload : List Byte}
    (hlen : payload.length ≤ 199) :
    (∃ k, Total (s.handle k c ftype payload)) ↔ s.Safe c ftype payload := by
  have hfit' : (s.note (.handled c ftype payload)).room.Fit := ⟨hfit.variation, hfit.name⟩
  have hquiet : ¬ Seeks ftype payload → s.Safe c ftype payload := fun hno h => absurd h hno
  simp only [handle]
  by_cases hrelay : ftype ∈ relayTypes
  · refine iff_of_true ⟨0, ?_⟩ (hquiet (not_seeks_of_relay hrelay))
    rw [if_pos hrelay]
    obtain ⟨t, ht⟩ := total_forward (s := s.note (.handled c ftype payload)) (c := c) hlen
    exact total_bind.mpr ⟨t, ht, total_ok _⟩
  simp only [if_neg hrelay]
  by_cases hhello : ftype = tHello
  · subst hhello
    have hseeks : Seeks tHello payload ↔ helloOk payload = true := by
      simp [Seeks, tHello, tJoin]
    have hjoin : tHello ≠ tJoin := by decide
    simp only [if_true]
    rw [total_onHello hfit', Safe, hseeks]
    exact forall_congr' fun _ => and_congr
      (forall_congr' fun _ => ⟨fun h => ⟨h, fun e => absurd e hjoin⟩, fun h => h.1⟩)
      ⟨fun h _ => h, fun h => h rfl⟩
  simp only [if_neg hhello]
  by_cases hlist : ftype = tList
  · subst hlist
    refine iff_of_true ⟨0, ?_⟩ (hquiet (by simp [Seeks, tList, tJoin, tHello]))
    exact total_sendLobby hfit'
  simp only [if_neg hlist]
  by_cases hjoin : ftype = tJoin
  · subst hjoin
    simp only [if_true, exists_const]
    rw [Server.onJoin, total_tryPair hfit', Safe]
    exact ⟨fun h _ => ⟨fun hne => ⟨(h hne).1, fun _ => (h hne).2⟩, fun e => absurd e hhello⟩,
      fun h hne => ⟨((h (.inl rfl)).1 hne).1, ((h (.inl rfl)).1 hne).2 rfl⟩⟩
  simp only [if_neg hjoin]
  refine iff_of_true ⟨0, ?_⟩ (hquiet fun h => h.elim hjoin fun h => hhello h.1)
  split
  · exact total_ok _
  · split
    · exact total_ok _
    · exact total_ok _

/-! ### More turns for the rename loop -/

/-- A call that came to an end, by coming back or by failing, comes to the same with more turns. -/
def Settled {α : Type} (f : ℕ → Except Err α) : Prop :=
  ∀ k k', k ≤ k' → f k ≠ .error .hung → f k' = f k

theorem Settled.unique {α : Type} {f : ℕ → Except Err α} (hf : Settled f) {k k' : ℕ} {a b : α}
    (ha : f k = .ok a) (hb : f k' = .ok b) : a = b := by
  have hka := hf k (max k k') (Nat.le_max_left ..) (by rw [ha]; simp)
  have hkb := hf k' (max k k') (Nat.le_max_right ..) (by rw [hb]; simp)
  exact Except.ok.inj (ha.symm.trans (hka.symm.trans (hkb.trans hb)))

theorem Settled.mono {α : Type} {f : ℕ → Except Err α} (hf : Settled f) {k k' : ℕ} {a : α}
    (hk : k ≤ k') (ha : f k = .ok a) : f k' = .ok a :=
  (hf k k' hk (by rw [ha]; simp)).trans ha

theorem settled_const {α : Type} (x : Except Err α) : Settled fun _ => x := fun _ _ _ _ => rfl

theorem settled_welcome (tv : Byte) (name : Name) : Settled fun k => s.welcome k c tv name := by
  intro k k' hk h
  dsimp only [welcome] at h ⊢
  cases hname : rename s.byName k name s.random with
  | none => exact absurd (by rw [hname]) h
  | some r => rw [rename_mono hk (by rw [hname]; simp), hname]

theorem settled_onHello (payload : List Byte) : Settled fun k => s.onHello k c payload := by
  unfold onHello
  split
  · exact settled_const _
  · dsimp only
    split
    · exact settled_const _
    · split
      · exact settled_const _
      · split
        · exact settled_welcome _ _
        · exact settled_const _

theorem settled_handle (ftype : Byte) (payload : List Byte) :
    Settled fun k => s.handle k c ftype payload := by
  simp only [handle]
  split
  · exact settled_const _
  · split
    · exact settled_onHello payload
    · exact settled_const _

theorem settled_serviceLoop (turns : ℕ) (s : Server) : Settled fun k => s.serviceLoop k turns c := by
  induction turns generalizing s with
  | zero => exact settled_const _
  | succ turns ih =>
    intro k k' hk h
    cases hhead : headOf (s.obj c).rx with
    | wait => simp only [serviceLoop, hhead]
    | bad n => simp only [serviceLoop, hhead]
    | whole ftype payload rest =>
      have hhandle := settled_handle (s := s.taking c rest) (c := c) ftype payload k k' hk
      simp only [serviceLoop_whole hhead] at h hhandle ⊢
      cases hk₁ : (s.taking c rest).handle k c ftype payload with
      | error e =>
        rw [hk₁] at h hhandle
        rw [hhandle fun he => h (by rw [he]; rfl)]
        rfl
      | ok s₁ =>
        rw [hk₁] at h hhandle
        rw [hhandle (by simp)]
        exact ih s₁ k k' hk h

/-! ### The loop -/

/-- With fewer turns for the rename loop, fewer frames are handled. -/
theorem eachFrame_anti {P : Server → ℕ → Byte → List Byte → Prop} {k k' : ℕ} (hk : k ≤ k')
    {turns : ℕ} {s : Server} (h : s.EachFrame P k' turns c) : s.EachFrame P k turns c := by
  induction turns generalizing s with
  | zero => trivial
  | succ turns ih =>
    cases hhead : headOf (s.obj c).rx with
    | wait => simp only [EachFrame, hhead]
    | bad n => simp only [EachFrame, hhead]
    | whole ftype payload rest =>
      rw [eachFrame_whole hhead] at h ⊢
      refine ⟨h.1, ?_⟩
      intro s' hs'
      exact ih (h.2 s' ((settled_handle ftype payload).mono hk hs'))

/-- The loop comes back just when it is safe to handle every frame it takes. -/
theorem total_serviceLoop {turns : ℕ} {s : Server} (hfit : s.room.Fit)
    (hturns : (s.obj c).rx.length < turns) :
    (∃ k, Total (s.serviceLoop k turns c)) ↔ ∀ k, s.EachFrame Safe k turns c := by
  induction turns generalizing s with
  | zero => exact absurd hturns (Nat.not_lt_zero _)
  | succ turns ih =>
    cases hhead : headOf (s.obj c).rx with
    | wait =>
      simp only [serviceLoop, EachFrame, hhead]
      exact iff_of_true ⟨0, total_ok _⟩ fun _ => trivial
    | bad n =>
      simp only [serviceLoop, EachFrame, hhead]
      exact iff_of_true ⟨0, total_ok _⟩ fun _ => trivial
    | whole ftype payload rest =>
      obtain ⟨n, hrx, hlen, hn⟩ := headOf_whole hhead
      have hfit₁ : (s.taking c rest).room.Fit := room_taking .. ▸ ⟨hfit.variation, hfit.name⟩
      have hsafe : (∃ k, Total ((s.taking c rest).handle k c ftype payload)) ↔ _ :=
        total_handle hfit₁ (by omega)
      have hnext : ∀ k s', (s.taking c rest).handle k c ftype payload = .ok s' →
          ((∃ k, Total (s'.serviceLoop k turns c)) ↔ ∀ k, s'.EachFrame Safe k turns c) := by
        intro k s' h
        refine ih ?_ ?_
        · exact Room.Fit.handles (r := (s.taking c rest).room.note _)
            ⟨hfit₁.variation, hfit₁.name⟩ (handle_ok h)
        · rw [hrx] at hturns
          rw [handle_rx h, taking_rx]
          simp only [List.length_cons, List.length_append] at hturns
          omega
      simp only [serviceLoop_whole hhead, eachFrame_whole hhead]
      constructor
      · rintro ⟨k, t, h⟩ k'
        obtain ⟨s₁, h₁, h₂⟩ := bind_ok h
        refine ⟨hsafe.mp ⟨k, s₁, h₁⟩, ?_⟩
        intro s' hs'
        obtain rfl := (settled_handle ftype payload).unique h₁ hs'
        exact (hnext k s₁ h₁).mp ⟨k, t, h₂⟩ k'
      · intro h
        obtain ⟨k₁, s₁, h₁⟩ := hsafe.mpr (h 0).1
        have hmore : ∀ k, k₁ ≤ k → (s.taking c rest).handle k c ftype payload = .ok s₁ :=
          fun k hk => (settled_handle ftype payload).mono hk h₁
        obtain ⟨k₂, t, h₂⟩ := (hnext k₁ s₁ h₁).mpr fun k =>
          eachFrame_anti (Nat.le_max_right k₁ k)
            ((h (max k₁ k)).2 s₁ (hmore _ (Nat.le_max_left ..)))
        refine ⟨max k₁ k₂, total_bind.mpr ⟨s₁, hmore _ (Nat.le_max_left ..), t, ?_⟩⟩
        exact (settled_serviceLoop turns s₁).mono (Nat.le_max_right k₁ k₂) h₂

theorem step_fit {s t : Server} {e : Event} (hfit : s.room.Fit) (h : s.step e = some t) :
    t.room.Fit :=
  step_keeps (I := Room.Fit) (P := fun _ _ _ _ => True) (fun _ _ h hmove => h.move hmove)
    (fun _ _ _ h => ⟨h.variation, h.name⟩)
    (fun s _ c ftype payload h _ hh =>
      Room.Fit.handles (r := s.room.note (.handled c ftype payload)) ⟨h.variation, h.name⟩ hh)
    (eachHeard_of_forall (fun _ _ _ _ => trivial) s e) hfit h

theorem fit_of_init {s : Server} (h : relay.init s) : s.room.Fit := by
  obtain ⟨delay, variation, lobby, random, hlo, hhi, rfl⟩ := h
  have hvariation : 0 ≤ variation ∧ variation < 256 := by omega
  exact ⟨hvariation, fun c name hname => by cases hname⟩

/-- Whatever a client has sent, `service` comes back from it. -/
def Survives (s : Server) (c : ℕ) (data : List Byte) : Prop :=
  ∃ k, Total ((s.hearing c data).service k c)

/-- The exception a call ends with. -/
def raised {α : Type} : Except Err α → Option Err
  | .ok _ => none
  | .error e => some e

/-- An exception is raised again however many turns the rename loop is given. -/
theorem not_survives {s : Server} {c : ℕ} {data : List Byte} {e : Err}
    (h : raised ((s.hearing c data).service 0 c) = some e) (he : e ≠ .hung) :
    ¬ s.Survives c data := by
  rintro ⟨k, t, hk⟩
  have hsettled := settled_serviceLoop (c := c) (((s.hearing c data).obj c).rx.length + 1)
    (s.hearing c data)
  cases hr : (s.hearing c data).service 0 c with
  | ok t => simp [hr, raised] at h
  | error e' =>
    obtain rfl : e' = e := by simpa [hr, raised] using h
    have := hsettled 0 k (Nat.zero_le k) (by dsimp only; rw [← service, hr]; simpa using he)
    dsimp only at this
    rw [← service, ← service, hk, hr] at this
    cases this

end Server

/-- In every state the relay can be in, `service` comes back from what a client sends just when it is
    safe to handle each frame, in the state the frames before it have led to. -/
theorem survives_iff_safe {s : Server} (hs : relay.Reachable s) (c : ℕ) (data : List Byte) :
    s.Survives c data ↔ ∀ k, (s.hearing c data).EachBuffered Server.Safe k c := by
  have hfit : s.room.Fit := relay.reachable_invariant (I := fun s => s.room.Fit)
    (fun _ => Server.fit_of_init) (fun _ _ _ => Server.step_fit) hs
  exact Server.total_serviceLoop (Server.room_taking .. ▸ ⟨hfit.variation, hfit.name⟩)
    (Nat.lt_succ_self _)

/-- One console waits, named; another has only connected. -/
def oneWaits : List Event :=
  [.accept (0, 0) 0, .recv 0 (hello ['A', 'L']) 0, .accept (1, 0) 1]

/-- It says HELLO, and a match is made. -/
theorem survives_iff_safe_hello : ∃ s, relay.run listening oneWaits = some s ∧
    ∀ k, (s.hearing 1 (hello ['B', 'O'])).EachBuffered Server.Safe k 1 := by
  obtain ⟨s, hrun, hok⟩ : ∃ s, relay.run listening oneWaits = some s ∧
      Server.raised ((s.hearing 1 (hello ['B', 'O'])).service 0 1) = none :=
    relay.exists_run (by decide +kernel)
  refine ⟨s, hrun, (survives_iff_safe ⟨listening, oneWaits, init_listening, hrun⟩ 1 _).mp ⟨0, ?_⟩⟩
  cases hr : (s.hearing 1 (hello ['B', 'O'])).service 0 1 with
  | ok t => exact total_ok t
  | error e => simp [hr, Server.raised] at hok

/-- It asks for a partner instead: the START frame has no name to give. -/
theorem join_unnamed_ends_relay : relay.init listening ∧
    ∃ s, relay.run listening oneWaits = some s ∧ 1 ∈ s.clients ∧ ¬ s.Survives 1 [1, tJoin] := by
  obtain ⟨s, hrun, hc, hraised⟩ : ∃ s, relay.run listening oneWaits = some s ∧ 1 ∈ s.clients ∧
      Server.raised ((s.hearing 1 [1, tJoin]).service 0 1) = some .attribute :=
    relay.exists_run (by decide +kernel)
  exact ⟨init_listening, s, hrun, hc, Server.not_survives hraised (by decide)⟩

end VO.Relay
