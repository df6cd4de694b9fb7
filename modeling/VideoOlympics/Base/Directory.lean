import VideoOlympics.Base.Dict
import Mathlib.Data.List.Nodup
import Mathlib.Data.List.Perm.Basic
import Mathlib.Logic.Function.Basic

/-! A directory whose members enrol under labels of their own. What a member is listed under is its
    label now; enrolling again leaves the old entry behind, and so does enrolling without being a
    member. Such an entry is stale, and nothing in the book ever takes it away. -/

structure Directory (κ α : Type*) where
  members : List α
  label : α → Option κ
  entries : List (κ × α)

namespace Directory

variable {κ α : Type*} [BEq κ] [LawfulBEq κ] [DecidableEq α]

/-- A member comes, without a label. -/
def enter (d : Directory κ α) (a : α) : Directory κ α :=
  { d with members := d.members ++ [a], label := Function.update d.label a none }

/-- Somebody takes a label. -/
def enrol (d : Directory κ α) (a : α) (k : κ) : Directory κ α :=
  { d with label := Function.update d.label a (some k), entries := d.entries ++ [(k, a)] }

/-- Its label's entry is struck out, if it is its own. -/
def struck (d : Directory κ α) (a : α) : List (κ × α) :=
  match d.label a with
  | some k => if d.entries.lookup k = some a then d.entries.filter fun e => e.1 != k else d.entries
  | none => d.entries

/-- A member goes. -/
def resign (d : Directory κ α) (a : α) : Directory κ α :=
  if a ∉ d.members then d else { d with members := d.members.erase a, entries := d.struck a }

variable {d : Directory κ α} {a b : α} {k : κ} {e : κ × α}

omit [DecidableEq α] in
theorem lookup_eq_none {l : List (κ × α)} : l.lookup k = none ↔ k ∉ Dict.keys l := by
  rw [List.lookup_eq_none_iff, Dict.keys, List.mem_map, not_exists]
  refine forall_congr' fun e => ?_
  rw [not_and, bne_iff_ne, ne_comm]

omit [DecidableEq α] in
theorem lookup_of_mem {l : List (κ × α)} (hl : (Dict.keys l).Nodup) (h : (k, a) ∈ l) :
    l.lookup k = some a := by
  obtain ⟨l₁, l₂, rfl⟩ := List.append_of_mem h
  have hk : k ∉ Dict.keys l₁ := by
    intro hmem
    simp only [Dict.keys, List.map_append, List.map_cons] at hl hmem
    exact (List.nodup_append.mp hl).2.2 k hmem k (List.mem_cons_self ..) rfl
  rw [List.lookup_append, lookup_eq_none.mpr hk, Option.none_or, List.lookup_cons_self]

omit [DecidableEq α] in
theorem mem_of_lookup {l : List (κ × α)} (h : l.lookup k = some a) : (k, a) ∈ l := by
  induction l with
  | nil => cases h
  | cons e l ih =>
    rw [List.lookup_cons] at h
    split at h
    · next hk =>
      rw [eq_of_beq hk, ← Option.some.inj h]
      exact List.mem_cons_self ..
    · exact List.mem_cons_of_mem _ (ih h)

/-- Only what the goer owned goes with it. -/
theorem mem_struck (hd : (Dict.keys d.entries).Nodup) :
    e ∈ d.struck a ↔ e ∈ d.entries ∧ ¬ (e.2 = a ∧ d.label a = some e.1) := by
  obtain ⟨k, b⟩ := e
  simp only [struck]
  cases hlabel : d.label a with
  | none => simp
  | some j =>
    dsimp only
    split
    · next hlookup =>
      rw [List.mem_filter]
      refine and_congr_right fun hmem => ?_
      have hown := lookup_of_mem hd hmem
      simp only [bne_iff_ne, ne_eq, Option.some.injEq, not_and]
      constructor
      · exact fun hne _ h => hne h.symm
      · rintro hne rfl
        exact hne (Option.some.inj (hown.symm.trans hlookup)) rfl
    · next hlookup =>
      refine (and_iff_left_of_imp fun hmem => ?_).symm
      rintro ⟨rfl, hk⟩
      exact hlookup (Option.some.inj hk ▸ lookup_of_mem hd hmem)

omit [LawfulBEq κ] in
theorem struck_sublist (d : Directory κ α) (a : α) : (d.struck a).Sublist d.entries := by
  simp only [struck]
  split
  · split
    · exact List.filter_sublist
    · exact List.Sublist.refl _
  · exact List.Sublist.refl _

omit [BEq κ] [LawfulBEq κ] in
@[simp] theorem label_enter (d : Directory κ α) (a : α) :
    (d.enter a).label = Function.update d.label a none := rfl
omit [BEq κ] [LawfulBEq κ] in
@[simp] theorem label_enrol (d : Directory κ α) (a : α) (k : κ) :
    (d.enrol a k).label = Function.update d.label a (some k) := rfl
omit [LawfulBEq κ] in
@[simp] theorem label_resign (d : Directory κ α) (a : α) : (d.resign a).label = d.label := by
  simp only [resign]
  split
  · rfl
  · rfl

/-! ### Owners -/

/-- No label is listed twice, and a member's is listed as its own. -/
structure Owned (d : Directory κ α) : Prop where
  members : d.members.Nodup
  keys : (Dict.keys d.entries).Nodup
  maps : ∀ a ∈ d.members, ∀ k, d.label a = some k → d.entries.lookup k = some a

omit [LawfulBEq κ] [DecidableEq α] in
theorem Owned.unique (h : d.Owned) (ha : a ∈ d.members) (hb : b ∈ d.members)
    (hka : d.label a = some k) (hkb : d.label b = some k) : a = b :=
  Option.some.inj ((h.maps a ha k hka).symm.trans (h.maps b hb k hkb))

omit [LawfulBEq κ] in
theorem Owned.enter (h : d.Owned) (ha : a ∉ d.members) : (d.enter a).Owned := by
  refine ⟨?_, h.keys, ?_⟩
  · refine List.nodup_append.mpr ⟨h.members, List.nodup_singleton _, ?_⟩
    rintro b hb c hc rfl
    exact ha (List.mem_singleton.mp hc ▸ hb)
  · intro b hb k hk
    rw [label_enter, Function.update_apply] at hk
    split at hk
    · cases hk
    · next hba =>
      have hmem : b ∈ d.members := by simpa [Directory.enter, hba] using hb
      exact h.maps b hmem k hk

theorem Owned.enrol (h : d.Owned) (hk : d.entries.lookup k = none) (a : α) :
    (d.enrol a k).Owned := by
  refine ⟨h.members, ?_, ?_⟩
  · simp only [Directory.enrol, Dict.keys, List.map_append, List.map_cons, List.map_nil]
    exact List.nodup_append.mpr ⟨h.keys, List.nodup_singleton _, fun i hi j hj hij =>
      lookup_eq_none.mp hk (List.mem_singleton.mp hj ▸ hij ▸ hi)⟩
  · intro b hb j hj
    rw [label_enrol, Function.update_apply] at hj
    simp only [Directory.enrol, List.lookup_append]
    split at hj
    · next hba =>
      rw [← Option.some.inj hj, hk, hba, Option.none_or, List.lookup_cons_self]
    · rw [h.maps b hb j hj, Option.some_or]

theorem Owned.resign (h : d.Owned) (a : α) : (d.resign a).Owned := by
  have hlabel := d.label_resign a
  simp only [Directory.resign] at hlabel ⊢
  split at hlabel
  · next hout => rwa [if_pos hout]
  · next hin =>
    rw [if_neg hin]
    have hkeys : (Dict.keys (d.struck a)).Nodup := h.keys.sublist ((d.struck_sublist a).map _)
    refine ⟨h.members.erase a, hkeys, ?_⟩
    intro b hb k hk
    obtain ⟨hba, hmem⟩ := (List.Nodup.mem_erase_iff h.members).mp hb
    refine lookup_of_mem hkeys ((mem_struck h.keys).mpr ⟨mem_of_lookup (h.maps b hmem k hk), ?_⟩)
    exact fun hown => hba hown.1

/-! ### Stale entries -/

/-- Some entry is not what its owner, a member, is called now. -/
def Stale (d : Directory κ α) : Prop :=
  ∃ e ∈ d.entries, ¬ (e.2 ∈ d.members ∧ d.label e.2 = some e.1)

omit [BEq κ] [LawfulBEq κ] [DecidableEq α] in
theorem not_stale_iff :
    ¬ d.Stale ↔ ∀ e ∈ d.entries, e.2 ∈ d.members ∧ d.label e.2 = some e.1 := by
  simp only [Stale, not_exists, not_and, Classical.not_imp, not_not]

omit [BEq κ] [LawfulBEq κ] in
theorem Stale.enter (h : d.Stale) (a : α) : (d.enter a).Stale := by
  obtain ⟨e, he, hstale⟩ := h
  refine ⟨e, he, ?_⟩
  rintro ⟨hmem, hlabel⟩
  rw [label_enter, Function.update_apply] at hlabel
  split at hlabel
  · cases hlabel
  · next hea => exact hstale ⟨by simpa [Directory.enter, hea] using hmem, hlabel⟩

theorem Stale.enrol (h : d.Stale) (hk : d.entries.lookup k = none) (a : α) : (d.enrol a k).Stale := by
  obtain ⟨e, he, hstale⟩ := h
  refine ⟨e, List.mem_append_left _ he, ?_⟩
  rintro ⟨hmem, hlabel⟩
  rw [label_enrol, Function.update_apply] at hlabel
  split at hlabel
  · exact lookup_eq_none.mp hk (Option.some.inj hlabel ▸ List.mem_map_of_mem he)
  · exact hstale ⟨hmem, hlabel⟩

theorem Stale.resign (h : d.Stale) (hd : d.Owned) (a : α) : (d.resign a).Stale := by
  obtain ⟨e, he, hstale⟩ := h
  have hlabel := d.label_resign a
  simp only [Directory.resign] at hlabel ⊢
  split
  · exact ⟨e, he, hstale⟩
  · next hin =>
    refine ⟨e, (mem_struck hd.keys).mpr ⟨he, ?_⟩, fun h => hstale ⟨List.mem_of_mem_erase h.1, h.2⟩⟩
    rintro ⟨rfl, hk⟩
    exact hstale ⟨not_not.mp hin, hk⟩

/-- A member without a label enrols and leaves nothing behind; anybody else does. -/
theorem enrol_stale_iff (hd : d.Owned) (hfresh : ¬ d.Stale) (hk : d.entries.lookup k = none) :
    (d.enrol a k).Stale ↔ ¬ (a ∈ d.members ∧ d.label a = none) := by
  have hown := not_stale_iff.mp hfresh
  constructor
  · rintro ⟨e, he, hstale⟩ ⟨ha, hnone⟩
    rw [label_enrol] at hstale
    rcases List.mem_append.mp he with he | he
    · obtain ⟨hmem, hlabel⟩ := hown e he
      have hea : e.2 ≠ a := by
        rintro rfl
        rw [hnone] at hlabel
        cases hlabel
      exact hstale ⟨hmem, by rw [Function.update_of_ne hea, hlabel]⟩
    · rw [List.mem_singleton.mp he] at hstale
      exact hstale ⟨ha, Function.update_self ..⟩
  · intro hnot
    by_cases ha : a ∈ d.members
    · obtain ⟨j, hj⟩ := Option.ne_none_iff_exists'.mp fun h => hnot ⟨ha, h⟩
      have hlookup := hd.maps a ha j hj
      refine ⟨(j, a), List.mem_append_left _ (mem_of_lookup hlookup), ?_⟩
      rintro ⟨-, hlabel⟩
      rw [label_enrol, Function.update_self] at hlabel
      rw [Option.some.inj hlabel, hlookup] at hk
      cases hk
    · exact ⟨(k, a), List.mem_append_right _ (List.mem_singleton_self _), fun h => ha h.1⟩

theorem resign_stale_iff (hd : d.Owned) : (d.resign a).Stale ↔ d.Stale := by
  refine ⟨?_, fun h => h.resign hd a⟩
  rintro ⟨e, he, hstale⟩
  rw [label_resign] at hstale
  simp only [Directory.resign] at he hstale
  split at he
  · next hout => exact ⟨e, he, by rwa [if_pos hout] at hstale⟩
  · next hin =>
    rw [if_neg hin] at hstale
    obtain ⟨hmem, hother⟩ := (mem_struck hd.keys).mp he
    refine ⟨e, hmem, ?_⟩
    rintro ⟨hin', hlabel⟩
    refine hstale ⟨(List.Nodup.mem_erase_iff hd.members).mpr ⟨?_, hin'⟩, hlabel⟩
    rintro rfl
    exact hother ⟨rfl, hlabel⟩

omit [BEq κ] [LawfulBEq κ] in
theorem enter_stale_iff (ha : a ∉ d.members) : (d.enter a).Stale ↔ d.Stale := by
  refine ⟨?_, fun h => h.enter a⟩
  rintro ⟨e, he, hstale⟩
  refine ⟨e, he, ?_⟩
  rintro ⟨hmem, hk⟩
  have hea : e.2 ≠ a := fun h => ha (h ▸ hmem)
  exact hstale ⟨List.mem_append_left _ hmem, by rw [label_enter, Function.update_of_ne hea, hk]⟩

/-- The members who have a label. -/
def listed (d : Directory κ α) : List α := d.members.filter fun a => (d.label a).isSome

omit [DecidableEq α] in
/-- Without stale entries there is one entry for each member that has a label, and no other. -/
theorem entries_perm (hd : d.Owned) (hfresh : ¬ d.Stale) :
    (d.entries.map Prod.snd).Perm d.listed := by
  have hown := not_stale_iff.mp hfresh
  have hnodup : (d.entries.map Prod.snd).Nodup := by
    refine List.Nodup.map_on ?_ (List.Nodup.of_map _ hd.keys)
    intro e he f hf hef
    have hkey := (hown e he).2.symm.trans (hef ▸ (hown f hf).2)
    exact Prod.ext (Option.some.inj hkey) hef
  refine (List.perm_ext_iff_of_nodup hnodup (hd.members.filter _)).mpr fun a => ?_
  rw [List.mem_map, List.mem_filter, Option.isSome_iff_exists]
  constructor
  · rintro ⟨e, he, rfl⟩
    exact ⟨(hown e he).1, e.1, (hown e he).2⟩
  · rintro ⟨ha, k, hk⟩
    exact ⟨(k, a), mem_of_lookup (hd.maps a ha k hk), rfl⟩

end Directory
