import Mathlib.Data.List.Basic
import Mathlib.Data.List.Nodup
import Mathlib.Order.Lattice
import Mathlib.Tactic.Common

/-! Dictionaries that keep the order of insertion, as association lists, the oldest entry first. A key
    that is assigned to again keeps its place. Eviction is by age; of a dictionary whose keys only go
    up, what it keeps are the greatest. -/

namespace Dict

variable {κ ν : Type*} [DecidableEq κ] {d : List (κ × ν)} {j k : κ} {v w : ν}

/-- The keys, the oldest first. -/
def keys (d : List (κ × ν)) : List κ := d.map Prod.fst

/-- Assign to a key. -/
def set (d : List (κ × ν)) (k : κ) (v : ν) : List (κ × ν) :=
  if (d.lookup k).isSome then d.map fun e => if e.1 = k then (k, v) else e
  else d ++ [(k, v)]

/-- Keep no more than the `n` youngest. -/
def youngest (n : ℕ) (d : List (κ × ν)) : List (κ × ν) := d.drop (d.length - n)

theorem lookup_isSome : (d.lookup k).isSome ↔ k ∈ keys d := by
  simp only [List.lookup_isSome_iff, keys, List.mem_map, beq_iff_eq]
  exact ⟨fun ⟨e, he, h⟩ => ⟨e, he, h.symm⟩, fun ⟨e, he, h⟩ => ⟨e, he, h.symm⟩⟩

theorem lookup_eq_none : d.lookup k = none ↔ k ∉ keys d := by
  rw [← lookup_isSome, Option.not_isSome_iff_eq_none]

theorem mem_of_lookup (h : d.lookup k = some v) : k ∈ keys d := by
  rw [← lookup_isSome, h]
  rfl

omit [DecidableEq κ] in
theorem length_keys (d : List (κ × ν)) : (keys d).length = d.length := List.length_map ..

/-! ### Assignment -/

theorem keys_overwrite (d : List (κ × ν)) (k : κ) (v : ν) :
    keys (d.map fun e => if e.1 = k then (k, v) else e) = keys d := by
  simp only [keys]
  rw [List.map_map]
  refine List.map_congr_left fun e _ => ?_
  simp only [Function.comp_apply]
  split
  · next he => exact he.symm
  · rfl

theorem keys_set (d : List (κ × ν)) (k : κ) (v : ν) :
    keys (set d k v) = if k ∈ keys d then keys d else keys d ++ [k] := by
  simp only [set]
  by_cases hk : k ∈ keys d
  · rw [if_pos (lookup_isSome.mpr hk), if_pos hk, keys_overwrite]
  · rw [if_neg (fun h => hk (lookup_isSome.mp h)), if_neg hk, keys, List.map_append]
    rfl

theorem mem_keys_set : j ∈ keys (set d k v) ↔ j ∈ keys d ∨ j = k := by
  rw [keys_set]
  split
  · next hk => exact ⟨.inl, fun h => h.elim id fun e => e ▸ hk⟩
  · rw [List.mem_append, List.mem_singleton]

theorem length_set (d : List (κ × ν)) (k : κ) (v : ν) :
    (set d k v).length = if k ∈ keys d then d.length else d.length + 1 := by
  rw [← length_keys, keys_set]
  split
  · exact length_keys d
  · rw [List.length_append, length_keys, List.length_singleton]

theorem lookup_overwrite (d : List (κ × ν)) (j k : κ) (v : ν) :
    (d.map fun e => if e.1 = k then (k, v) else e).lookup j =
      if j = k then (d.lookup k).map fun _ => v else d.lookup j := by
  induction d with
  | nil => simp
  | cons e d ih =>
    obtain ⟨i, w⟩ := e
    by_cases hik : i = k
    · subst hik
      by_cases hj : j = i
      · simp [hj]
      · have hb : (j == i) = false := beq_false_of_ne hj
        simp only [List.map_cons, if_true, List.lookup_cons, hb, hj, if_false, ih]
    · have hki : (k == i) = false := beq_false_of_ne (Ne.symm hik)
      simp only [List.map_cons, hik, if_false, List.lookup_cons, ih, hki]
      by_cases hj : j = k
      · simp only [hj, hki, if_true]
      · simp only [hj, if_false]

theorem lookup_set_self (d : List (κ × ν)) (k : κ) (v : ν) : (set d k v).lookup k = some v := by
  simp only [set]
  split
  · next h =>
    obtain ⟨w, hw⟩ := Option.isSome_iff_exists.mp h
    rw [lookup_overwrite, if_pos rfl, hw]
    rfl
  · next h =>
    rw [List.lookup_append, Option.not_isSome_iff_eq_none.mp h]
    simp

theorem lookup_set_of_ne (h : j ≠ k) : (set d k v).lookup j = d.lookup j := by
  simp only [set]
  split
  · rw [lookup_overwrite, if_neg h]
  · have hb : (j == k) = false := beq_false_of_ne h
    rw [List.lookup_append]
    simp [List.lookup_cons, hb]

/-! ### Removal -/

theorem keys_filter (d : List (κ × ν)) (k : κ) :
    keys (d.filter fun e => e.1 != k) = (keys d).filter (· != k) := by
  simp only [keys]
  rw [List.filter_map]
  rfl

theorem mem_keys_filter : j ∈ keys (d.filter fun e => e.1 != k) ↔ j ∈ keys d ∧ j ≠ k := by
  rw [keys_filter, List.mem_filter, bne_iff_ne]

theorem lookup_filter_of_ne (h : j ≠ k) :
    (d.filter fun e => e.1 != k).lookup j = d.lookup j := by
  induction d with
  | nil => rfl
  | cons e d ih =>
    obtain ⟨i, w⟩ := e
    by_cases hik : i = k
    · have hb : (j == i) = false := beq_false_of_ne (hik ▸ h)
      rw [List.filter_cons_of_neg (by simp [hik]), ih, List.lookup_cons, hb]
    · rw [List.filter_cons_of_pos (by simp [hik]), List.lookup_cons, List.lookup_cons, ih]

/-- What is still there after a removal is as it was. -/
theorem lookup_of_filter (h : (d.filter fun e => e.1 != k).lookup j = some v) :
    d.lookup j = some v := by
  have hj : j ≠ k := (mem_keys_filter.mp (mem_of_lookup h)).2
  rwa [lookup_filter_of_ne hj] at h

/-! ### Eviction -/

omit [DecidableEq κ] in
theorem keys_youngest (n : ℕ) (d : List (κ × ν)) :
    keys (youngest n d) = (keys d).drop ((keys d).length - n) := by
  rw [length_keys, keys, keys, youngest, List.map_drop]

omit [DecidableEq κ] in
theorem length_youngest (n : ℕ) (d : List (κ × ν)) : (youngest n d).length ≤ n := by
  rw [youngest, List.length_drop]
  omega

/-- What is not evicted is as it was. -/
theorem lookup_of_youngest {n : ℕ} (hd : (keys d).Nodup) (h : (youngest n d).lookup k = some v) :
    d.lookup k = some v := by
  have hsplit := List.take_append_drop (d.length - n) d
  have hk : k ∈ keys (youngest n d) := mem_of_lookup h
  have hnot : k ∉ keys (d.take (d.length - n)) := by
    intro hmem
    rw [← hsplit, keys, List.map_append] at hd
    exact (List.nodup_append.mp hd).2.2 k hmem k hk rfl
  rw [← hsplit, List.lookup_append, lookup_eq_none.mpr hnot]
  exact h

/-! ### In an array

A program may keep the entries in an array, and find them by their place. -/

section
variable {n : ℕ}

theorem findIdx?_eq_none : (d.findIdx? fun e => e.1 = k) = none ↔ k ∉ keys d := by
  rw [List.findIdx?_eq_none_iff, keys, List.mem_map]
  simp only [decide_eq_false_iff_not, not_exists, not_and]

/-- The place of a key is where it occurs first. -/
theorem split_findIdx? (h : (d.findIdx? fun e => e.1 = k) = some n) :
    ∃ l v r, d = l ++ (k, v) :: r ∧ n = l.length ∧ k ∉ keys l := by
  induction d generalizing n with
  | nil => cases h
  | cons e d ih =>
    rw [List.findIdx?_cons] at h
    by_cases hj : e.1 = k
    · obtain rfl : 0 = n := by simpa [hj] using h
      exact ⟨[], e.2, d, by rw [← hj]; rfl, rfl, List.not_mem_nil⟩
    · obtain ⟨m, hm, rfl⟩ : ∃ m, (d.findIdx? fun e => e.1 = k) = some m ∧ m + 1 = n := by
        simpa [hj] using h
      obtain ⟨l, v, r, rfl, rfl, hl⟩ := ih hm
      exact ⟨e :: l, v, r, rfl, rfl, by simpa [keys, Ne.symm hj] using hl⟩

theorem getElem?_findIdx? (h : (d.findIdx? fun e => e.1 = k) = some n) :
    ∃ v, d[n]? = some (k, v) ∧ d.lookup k = some v := by
  obtain ⟨l, v, r, rfl, rfl, hl⟩ := split_findIdx? h
  refine ⟨v, by simp, ?_⟩
  rw [List.lookup_append, lookup_eq_none.mpr hl, Option.none_or, List.lookup_cons, beq_self_eq_true]

theorem overwrite_of_notMem (h : k ∉ keys d) (v : ν) :
    (d.map fun e => if e.1 = k then (k, v) else e) = d := by
  refine (List.map_congr_left fun e he => ?_).trans (List.map_id d)
  exact if_neg fun hk => h (List.mem_map.mpr ⟨e, he, hk⟩)

theorem filter_of_notMem (h : k ∉ keys d) : (d.filter fun e => e.1 != k) = d := by
  refine List.filter_eq_self.mpr fun e he => bne_iff_ne.mpr ?_
  exact fun hk => h (List.mem_map.mpr ⟨e, he, hk⟩)

omit [DecidableEq κ] in
theorem notMem_of_nodup {l r : List (κ × ν)} (hd : (keys (l ++ (k, v) :: r)).Nodup) :
    k ∉ keys r := by
  rw [keys, List.map_append, List.map_cons] at hd
  exact (List.nodup_cons.mp (List.nodup_append.mp hd).2.1).1

/-- Assigning in place. -/
theorem set_findIdx? (hd : (keys d).Nodup) (h : (d.findIdx? fun e => e.1 = k) = some n) (v : ν) :
    d.set n (k, v) = set d k v := by
  obtain ⟨l, w, r, rfl, rfl, hl⟩ := split_findIdx? h
  have hr := notMem_of_nodup hd
  rw [set, if_pos (lookup_isSome.mpr (by simp [keys])), List.map_append, List.map_cons, if_pos rfl,
    overwrite_of_notMem hl, overwrite_of_notMem hr, List.set_append_right _ _ (le_refl _),
    Nat.sub_self, List.set_cons_zero]

/-- Removing in place. -/
theorem eraseIdx_findIdx? (hd : (keys d).Nodup) (h : (d.findIdx? fun e => e.1 = k) = some n) :
    d.eraseIdx n = d.filter fun e => e.1 != k := by
  obtain ⟨l, w, r, rfl, rfl, hl⟩ := split_findIdx? h
  have hr := notMem_of_nodup hd
  rw [List.filter_append, filter_of_notMem hl, List.filter_cons_of_neg (by simp),
    filter_of_notMem hr, List.eraseIdx_append_of_length_le (le_refl _), Nat.sub_self,
    List.eraseIdx_cons_zero]

theorem nodup_set (hd : (keys d).Nodup) (k : κ) (v : ν) : (keys (set d k v)).Nodup := by
  rw [keys_set]
  split
  · exact hd
  · next hk => exact List.nodup_append.mpr ⟨hd, List.nodup_singleton k, by
      rintro j hj i hi rfl
      exact hk (List.mem_singleton.mp hi ▸ hj)⟩

omit [DecidableEq κ] in
theorem nodup_youngest (hd : (keys d).Nodup) (n : ℕ) : (keys (youngest n d)).Nodup := by
  rw [keys_youngest]
  exact hd.drop

end

/-! ### New names for the keys -/

/-- The same entries under other keys. -/
def rename {μ : Type*} (f : κ → μ) (d : List (κ × ν)) : List (μ × ν) := d.map fun e => (f e.1, e.2)

section
variable {μ : Type*} [DecidableEq μ] {f : κ → μ}

theorem lookup_rename (hf : Function.Injective f) (d : List (κ × ν)) (k : κ) :
    (rename f d).lookup (f k) = d.lookup k := by
  induction d with
  | nil => rfl
  | cons e d ih =>
    obtain ⟨j, w⟩ := e
    have hb : (f k == f j) = (k == j) := by
      rw [Bool.eq_iff_iff, beq_iff_eq, beq_iff_eq, hf.eq_iff]
    rw [rename, List.map_cons, List.lookup_cons, List.lookup_cons, hb, ← rename, ih]

theorem set_rename (hf : Function.Injective f) (d : List (κ × ν)) (k : κ) (v : ν) :
    set (rename f d) (f k) v = rename f (set d k v) := by
  simp only [set]
  rw [lookup_rename hf]
  split
  · rw [rename, rename, List.map_map, List.map_map]
    refine List.map_congr_left fun e _ => ?_
    simp only [Function.comp_apply, hf.eq_iff]
    split
    · rfl
    · rfl
  · rw [rename, rename, List.map_append]
    rfl

theorem filter_rename (hf : Function.Injective f) (d : List (κ × ν)) (k : κ) :
    (rename f d).filter (fun e => e.1 != f k) = rename f (d.filter fun e => e.1 != k) := by
  rw [rename, rename, List.filter_map]
  refine congrArg _ (List.filter_congr fun e _ => ?_)
  rw [Function.comp_apply, Bool.eq_iff_iff, bne_iff_ne, bne_iff_ne, hf.ne_iff]

omit [DecidableEq κ] [DecidableEq μ] in
theorem youngest_rename (n : ℕ) (d : List (κ × ν)) :
    youngest n (rename f d) = rename f (youngest n d) := by
  rw [youngest, youngest, rename, rename, List.length_map, List.map_drop]

end

/-! ### Keys that only go up -/

variable {κ : Type*} [LinearOrder κ] {d : List (κ × ν)} {k : κ}

theorem sorted_set (hd : (keys d).Pairwise (· < ·)) (hk : ∀ j ∈ keys d, j ≤ k) (v : ν) :
    (keys (set d k v)).Pairwise (· < ·) := by
  rw [keys_set]
  split
  · exact hd
  · next hnew =>
    refine List.pairwise_append.mpr ⟨hd, List.pairwise_singleton .., ?_⟩
    intro j hj i hi
    rw [List.mem_singleton.mp hi]
    exact lt_of_le_of_ne (hk j hj) fun e => hnew (e ▸ hj)

theorem sorted_filter (hd : (keys d).Pairwise (· < ·)) :
    (keys (d.filter fun e => e.1 != k)).Pairwise (· < ·) := by
  rw [keys_filter]
  exact hd.filter _

theorem sorted_youngest (hd : (keys d).Pairwise (· < ·)) (n : ℕ) :
    (keys (youngest n d)).Pairwise (· < ·) := by
  rw [keys_youngest]
  exact hd.drop

theorem nodup_of_sorted (hd : (keys d).Pairwise (· < ·)) : (keys d).Nodup :=
  hd.imp fun h => ne_of_lt h

/-- An entry is kept as long as fewer than `n` have greater keys. -/
theorem mem_youngest {n : ℕ} (hd : (keys d).Pairwise (· < ·)) (hk : k ∈ keys d)
    (hfew : ((keys d).filter (k < ·)).length < n) : k ∈ keys (youngest n d) := by
  rw [keys_youngest]
  set m := (keys d).length - n with hm
  have hsplit := List.take_append_drop m (keys d)
  rw [← hsplit] at hk
  rcases List.mem_append.mp hk with hold | hkept
  · -- everything that is kept would be greater
    exfalso
    rw [← hsplit] at hd
    have hlater : ∀ j ∈ (keys d).drop m, k < j := (List.pairwise_append.mp hd).2.2 k hold
    have hall : ((keys d).drop m).filter (k < ·) = (keys d).drop m :=
      List.filter_eq_self.mpr fun j hj => decide_eq_true (hlater j hj)
    have hle : ((keys d).drop m).length ≤ ((keys d).filter (k < ·)).length := by
      rw [← hall]
      exact ((List.drop_sublist m (keys d)).filter _).length_le
    have hpos : 0 < m := by
      by_contra h
      rw [Nat.eq_zero_of_not_pos h, List.take_zero] at hold
      cases hold
    rw [List.length_drop] at hle
    omega
  · exact hkept

end Dict
