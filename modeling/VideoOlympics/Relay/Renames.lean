import VideoOlympics.Relay.Survive

/-! The renaming of a duplicate. A digit is drawn for the last letter until the name is free: a short
    name grows by a digit a turn, a full one has its last letter drawn again. Which names the loop can
    come to does not depend on the draws, only whether one of them is free; and none need be. -/

namespace VO.Relay

def digit (d : ℕ) : Char := Char.ofNat (48 + d)

/-- A name, or what is left of it in front of a digit, with digits behind. -/
def tagged (name : Name) (ds : List ℕ) : Name := name.take 7 ++ ds.map digit

/-- The name is free, or one of its first seven letters and digits, up to eight characters. -/
def Renamable (byName : List (Name × ℕ)) (name : Name) : Prop :=
  byName.lookup name = none ∨ ∃ ds : List ℕ, ds ≠ [] ∧ (∀ d ∈ ds, d < 10) ∧
    (tagged name ds).length ≤ 8 ∧ byName.lookup (tagged name ds) = none

theorem candidate_succ (n : ℕ) (name : Name) (random : ℕ → ℕ) :
    candidate (n + 1) name random =
      candidate n (tagged name [random 0 % 10]) fun i => random (i + 1) := rfl

theorem tagged_length (name : Name) (ds : List ℕ) :
    (tagged name ds).length = min 7 name.length + ds.length := by
  rw [tagged, List.length_append, List.length_take, List.length_map]

/-- Digits behind a name that has room for them stay. -/
theorem tagged_tagged {name : Name} {d : ℕ} (h : name.length ≤ 6) (ds : List ℕ) :
    tagged (tagged name [d]) ds = tagged name (d :: ds) := by
  have hlen := tagged_length name [d]
  rw [tagged, List.take_of_length_le (by rw [hlen, List.length_singleton]; omega)]
  simp [tagged]

/-- The digit behind a full name goes. -/
theorem tagged_full {name : Name} {d : ℕ} (h : 7 ≤ name.length) (ds : List ℕ) :
    tagged (tagged name [d]) ds = tagged name ds := by
  have htake : (name.take 7 ++ [d].map digit).take 7 = name.take 7 := by
    rw [List.take_append_of_le_length (by rw [List.length_take]; omega), List.take_take, min_self]
  rw [tagged, tagged, htake, tagged]

/-- Whatever is drawn, the loop looks at no other names. -/
theorem candidate_tagged : ∀ (n : ℕ) {name : Name} (random : ℕ → ℕ), name.length ≤ 8 →
    candidate n name random = name ∨ ∃ ds : List ℕ, ds ≠ [] ∧ (∀ d ∈ ds, d < 10) ∧
      (tagged name ds).length ≤ 8 ∧ candidate n name random = tagged name ds
  | 0, _, _, _ => .inl rfl
  | n + 1, name, random, hlen => by
      have hd : random 0 % 10 < 10 := Nat.mod_lt _ (by omega)
      have hone : (tagged name [random 0 % 10]).length ≤ 8 := by
        rw [tagged_length, List.length_singleton]
        omega
      refine .inr ?_
      rw [candidate_succ]
      rcases candidate_tagged n (fun i => random (i + 1)) hone with h | ⟨ds, hne, hds, hsize, h⟩
      · exact ⟨[random 0 % 10], by simp, by simpa using hd, hone, h⟩
      · rw [h]
        rcases Nat.lt_or_ge 6 name.length with hfull | hroom
        · rw [tagged_full hfull] at hsize ⊢
          exact ⟨ds, hne, hds, hsize, rfl⟩
        · rw [tagged_tagged hroom] at hsize ⊢
          exact ⟨_ :: ds, by simp, List.forall_mem_cons.mpr ⟨hd, hds⟩, hsize, rfl⟩

/-- Each of them it can come to. -/
theorem exists_candidate : ∀ {ds : List ℕ} {name : Name}, ds ≠ [] → (∀ d ∈ ds, d < 10) →
    (tagged name ds).length ≤ 8 → ∃ n random, candidate n name random = tagged name ds
  | [], _, hne, _, _ => absurd rfl hne
  | [d], name, _, hds, _ => by
      have hd : d % 10 = d := Nat.mod_eq_of_lt (hds d (List.mem_singleton_self d))
      exact ⟨1, fun _ => d, by rw [candidate_succ, hd]; rfl⟩
  | d :: e :: ds, name, _, hds, hlen => by
      obtain ⟨hd, hds⟩ := List.forall_mem_cons.mp hds
      have hroom : name.length ≤ 6 := by
        rw [tagged_length, List.length_cons, List.length_cons] at hlen
        omega
      rw [← tagged_tagged hroom] at hlen ⊢
      obtain ⟨n, random, h⟩ := exists_candidate (by simp) hds hlen
      refine ⟨n + 1, fun i => if i = 0 then d else random (i - 1), ?_⟩
      rw [candidate_succ, if_pos rfl, Nat.mod_eq_of_lt hd, ← h]
      simp

namespace Server

theorem rename_renamable_iff {byName : List (Name × ℕ)} {name : Name} (hlen : name.length ≤ 8) :
    (∃ random k, (rename byName k name random).isSome) ↔ Renamable byName name := by
  simp only [rename_isSome_iff, Option.isNone_iff_eq_none]
  constructor
  · rintro ⟨random, k, n, -, hfree⟩
    rcases candidate_tagged n random hlen with h | ⟨ds, hne, hds, hsize, h⟩
    · exact .inl (h ▸ hfree)
    · exact .inr ⟨ds, hne, hds, hsize, h ▸ hfree⟩
  · rintro (hfree | ⟨ds, hne, hds, hsize, hfree⟩)
    · exact ⟨id, 0, 0, Nat.le_refl 0, hfree⟩
    · obtain ⟨n, random, h⟩ := exists_candidate hne hds hsize
      exact ⟨random, n, n, Nat.le_refl n, h.symm ▸ hfree⟩

end Server

/-- For a name a HELLO may ask for, the renaming loop ends under some draws just when the name is
    free or one of those it can be turned into is. -/
theorem rename_ends_iff (s : Server) {payload : List Byte} (h : helloOk payload = true) :
    (∃ random k, (Server.rename s.byName k (Server.helloName payload) random).isSome) ↔
      Renamable s.byName (Server.helloName payload) := by
  refine Server.rename_renamable_iff (Server.goodName_length ?_)
  simp only [helloOk] at h
  split at h
  · cases h
  · split at h
    · cases h
    · exact h

/-- A console of its own address connects and asks for a name. -/
def guestbook (names : List Name) : List Event :=
  names.zipIdx.flatMap fun e => [.accept (e.2, 0) e.2, .recv e.2 (hello e.1) 0]

theorem rename_ends_iff_waiting : ∃ s, relay.run listening (guestbook [['A', 'L']]) = some s ∧
    ∃ random k, (Server.rename s.byName k (Server.helloName ((hello ['A', 'L']).drop 2))
      random).isSome := by
  obtain ⟨s, hrun, hfree⟩ : ∃ s, relay.run listening (guestbook [['A', 'L']]) = some s ∧
      s.byName.lookup (tagged (Server.helloName ((hello ['A', 'L']).drop 2)) [0]) = none :=
    relay.exists_run (by decide +kernel)
  exact ⟨s, hrun, (rename_ends_iff s (by decide)).mpr
    (.inr ⟨[0], by decide, by decide, by decide, hfree⟩)⟩

/-- A name in full length, and the ten it can be turned into. -/
def fullHouse : List Event :=
  guestbook ("ABCDEFGH".toList :: (List.range 10).map fun d => "ABCDEFG".toList ++ [digit d])

/-- A twelfth console asks for the name: whatever is drawn, and however long, the loop goes on. -/
theorem rename_hangs : relay.init listening ∧ helloOk ((hello "ABCDEFGH".toList).drop 2) = true ∧
    ∃ s, relay.run listening (fullHouse ++ [.accept (11, 0) 11]) = some s ∧ 11 ∈ s.clients ∧
      ∀ random k, Server.rename s.byName k
        (Server.helloName ((hello "ABCDEFGH".toList).drop 2)) random = none := by
  obtain ⟨s, hrun, hin, htaken, hall⟩ : ∃ s,
      relay.run listening (fullHouse ++ [.accept (11, 0) 11]) = some s ∧ 11 ∈ s.clients ∧
        s.byName.lookup "ABCDEFGH".toList ≠ none ∧
        ∀ d ∈ List.range 10, s.byName.lookup (tagged "ABCDEFGH".toList [d]) ≠ none :=
    relay.exists_run (by decide +kernel)
  have hname : Server.helloName ((hello "ABCDEFGH".toList).drop 2) = "ABCDEFGH".toList := by decide
  refine ⟨init_listening, by decide, s, hrun, hin, ?_⟩
  intro random k
  by_contra hends
  rw [hname] at hends
  have hrenamable := (Server.rename_renamable_iff (by decide)).mp
    ⟨random, k, Option.isSome_iff_ne_none.mpr hends⟩
  rcases hrenamable with hfree | ⟨ds, hne, hds, hlen, hfree⟩
  · exact htaken hfree
  · rw [tagged_length] at hlen
    cases ds with
    | nil => exact hne rfl
    | cons d ds =>
      obtain rfl : ds = [] := by
        rw [List.length_cons] at hlen
        exact List.eq_nil_of_length_eq_zero (by simp at hlen; omega)
      exact hall d (List.mem_range.mpr (hds d (List.mem_singleton_self d))) hfree

end VO.Relay
