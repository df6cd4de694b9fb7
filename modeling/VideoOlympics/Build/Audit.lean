import VideoOlympics.Build.Banks

/-! The audit of the built image. Each region is compared, in every bank that has it, with the same
    offsets of the stock game assembled in the window; what differs has to have been declared, and what
    has been declared has to differ. -/

namespace VO.Build

def bankSize : ℕ := 0x800

/-- `BANKS`: where a bank is in the image. -/
def Bank.index : Bank → ℕ
  | .boot => 0
  | .game => 1
  | .kern => 2

/-- `REWRITTEN`: first address and the one behind the last. -/
def rewritten : List (ℕ × ℕ) := [(0xF000, 0xF00C)]

/-- `SPANS`: first address and length. -/
def spans : List (ℕ × ℕ) := [
  (0xF06D, 2), (0xF07A, 8), (0xF0D0, 3), (0xF21F, 27), (0xF0A1, 3), (0xF1B4, 2), (0xF0D3, 3),
  (0xF0E9, 3), (0xF26A, 3), (0xF2D7, 3), (0xF528, 3)]

/-- What a span is, as first address and the one behind the last. -/
def spanRange (s : ℕ × ℕ) : ℕ × ℕ := (s.1, s.1 + s.2)

def inRange (a : ℕ) (r : ℕ × ℕ) : Bool := r.1 ≤ a && a < r.2

def allowed (a : ℕ) : Bool := rewritten.any (inRange a) || (spans.map spanRange).any (inRange a)

/-- A complaint. A line that is printed is its format and its arguments. -/
inductive Problem where
  | undeclared (addr : ℕ) (bank : Bank) (region : ℕ) (stock built : BitVec 8)
  | idleSpan (addr : ℕ)
  | idleRewrite (lo hi : ℕ)
  deriving DecidableEq

structure Tally where
  problems : List Problem := []
  changed : List ℕ := []
  seen : ℕ := 0
  deriving DecidableEq

variable {stock built : List (BitVec 8)}

/-- One byte of one bank. An image that ends too early is an IndexError. -/
def compareByte (stock built : List (BitVec 8)) (i : ℕ) (b : Bank) (t : Tally) (a : ℕ) :
    Option Tally :=
  match stock[a - base]?, built[b.index * bankSize + (a - base)]? with
  | some x, some y =>
    let t := { t with seen := t.seen + 1 }
    if x = y then some t
    else
      let t := { t with changed := t.changed.insert a }
      if allowed a then some t
      else some { t with problems := t.problems ++ [.undeclared a b i x y] }
  | _, _ => none

def compareBank (stock built : List (BitVec 8)) (i : ℕ) (r : Region) (t : Tally) (b : Bank) :
    Option Tally :=
  (List.range' r.lo (r.hi - r.lo)).foldlM (compareByte stock built i b) t

def compareRegion (stock built : List (BitVec 8)) (t : Tally) (e : Region × ℕ) : Option Tally :=
  e.1.banks.foldlM (compareBank stock built e.2 e.1) t

/-- The declarations that changed nothing. -/
def idle (changed : List ℕ) : List Problem :=
  (spans.filter fun s => ¬ changed.any fun a => inRange a (spanRange s)).map (fun s => .idleSpan s.1) ++
    (rewritten.filter fun r => ¬ changed.any fun a => inRange a r).map fun r => .idleRewrite r.1 r.2

/-- How it ends. -/
inductive Verdict where
  | wrongSize (n : ℕ)
  | crash
  | problems (ps : List Problem)
  | passed (seen changed : ℕ)
  deriving DecidableEq

/-- `main`. -/
def audit (stock built : List (BitVec 8)) : Verdict :=
  if stock.length ≠ 0x800 then .wrongSize stock.length
  else
    match regions.zipIdx.foldlM (compareRegion stock built) {} with
    | none => .crash
    | some t =>
      match t.problems ++ idle t.changed with
      | [] => .passed t.seen t.changed.length
      | p :: ps => .problems (p :: ps)

/-! ### What it comes down to -/

/-- A byte of a bank: the region it is for, the bank and the address. -/
abbrev Cell := ℕ × Bank × ℕ

/-- The order in which they are compared. -/
def comparisons : List Cell :=
  regions.zipIdx.flatMap fun e => e.1.banks.flatMap fun b =>
    (List.range' e.1.lo (e.1.hi - e.1.lo)).map fun a => (e.2, b, a)

/-- What the stock game has there. -/
def stockByte (stock : List (BitVec 8)) (c : Cell) : Option (BitVec 8) := stock[c.2.2 - base]?

/-- What the image has there. -/
def builtByte (built : List (BitVec 8)) (c : Cell) : Option (BitVec 8) :=
  built[c.2.1.index * bankSize + (c.2.2 - base)]?

def compareCell (stock built : List (BitVec 8)) (t : Tally) (c : Cell) : Option Tally :=
  compareByte stock built c.1 c.2.1 t c.2.2

theorem foldlM_compareRegion (es : List (Region × ℕ)) (t : Tally) :
    es.foldlM (compareRegion stock built) t =
      (es.flatMap fun e => e.1.banks.flatMap fun b =>
        (List.range' e.1.lo (e.1.hi - e.1.lo)).map fun a => ((e.2, b, a) : Cell)).foldlM
          (compareCell stock built) t := by
  have hbank : ∀ i r (bs : List Bank) t, bs.foldlM (compareBank stock built i r) t =
      (bs.flatMap fun b => (List.range' r.lo (r.hi - r.lo)).map fun a => ((i, b, a) : Cell)).foldlM
        (compareCell stock built) t := by
    intro i r bs
    induction bs with
    | nil => exact fun t => rfl
    | cons b bs ih =>
      intro t
      rw [List.foldlM_cons, List.flatMap_cons, List.foldlM_append, List.foldlM_map]
      exact bind_congr fun t' => ih t'
  induction es generalizing t with
  | nil => rfl
  | cons e es ih =>
    rw [List.foldlM_cons, List.flatMap_cons, List.foldlM_append, compareRegion, hbank]
    exact bind_congr fun t' => ih t'

/-- The two differ. -/
def Differs (stock built : List (BitVec 8)) (c : Cell) : Prop :=
  stockByte stock c ≠ builtByte built c

/-- What is wrong with a byte. -/
def complaint (stock built : List (BitVec 8)) (c : Cell) : Option Problem :=
  match stockByte stock c, builtByte built c with
  | some x, some y => if x = y ∨ allowed c.2.2 then none else some (.undeclared c.2.2 c.2.1 c.1 x y)
  | _, _ => none

/-- What comparing some of them comes to. -/
structure Compared (stock built : List (BitVec 8)) (cs : List Cell) (t t' : Tally) : Prop where
  problems : t'.problems = t.problems ++ cs.filterMap (complaint stock built)
  changed : ∀ a, a ∈ t'.changed ↔ a ∈ t.changed ∨ ∃ c ∈ cs, c.2.2 = a ∧ Differs stock built c
  nodup : t.changed.Nodup → t'.changed.Nodup
  seen : t'.seen = t.seen + cs.length

theorem compareCell_spec {c : Cell} (t : Tally) {x y : BitVec 8} (hx : stockByte stock c = some x)
    (hy : builtByte built c = some y) :
    ∃ t', compareCell stock built t c = some t' ∧ Compared stock built [c] t t' := by
  have hx' : stock[c.2.2 - base]? = some x := hx
  have hy' : built[c.2.1.index * bankSize + (c.2.2 - base)]? = some y := hy
  have hdiff : Differs stock built c ↔ x ≠ y := by
    rw [Differs, hx, hy]
    simp
  by_cases hsame : x = y
  · refine ⟨{ t with seen := t.seen + 1 }, by simp [compareCell, compareByte, hx', hy', hsame], ?_⟩
    refine ⟨by simp [complaint, hx, hy, hsame], fun a => ?_, id, rfl⟩
    simp [hdiff, hsame]
  · have hchanged : ∀ a, a ∈ t.changed.insert c.2.2 ↔ a ∈ t.changed ∨
        ∃ c' ∈ [c], c'.2.2 = a ∧ Differs stock built c' := by
      intro a
      rw [List.mem_insert_iff]
      simp [hdiff, hsame, or_comm, eq_comm]
    by_cases hall : allowed c.2.2
    · refine ⟨{ t with seen := t.seen + 1, changed := t.changed.insert c.2.2 },
        by simp [compareCell, compareByte, hx', hy', hsame, hall], ?_⟩
      exact ⟨by simp [complaint, hx, hy, hall], hchanged, fun h => h.insert, rfl⟩
    · refine ⟨{ problems := t.problems ++ [.undeclared c.2.2 c.2.1 c.1 x y]
                seen := t.seen + 1
                changed := t.changed.insert c.2.2 },
        by simp [compareCell, compareByte, hx', hy', hsame, hall], ?_⟩
      exact ⟨by simp [complaint, hx, hy, hsame, hall], hchanged, fun h => h.insert, rfl⟩

theorem Compared.cons {c : Cell} {cs : List Cell} {t t' t'' : Tally}
    (h : Compared stock built [c] t t') (h' : Compared stock built cs t' t'') :
    Compared stock built (c :: cs) t t'' where
  problems := by
    rw [h'.problems, h.problems, List.append_assoc, ← List.filterMap_append]
    rfl
  changed a := by
    rw [h'.changed, h.changed]
    simp [or_assoc]
  nodup hn := h'.nodup (h.nodup hn)
  seen := by
    rw [h'.seen, h.seen, List.length_cons, List.length_cons, List.length_nil]
    omega

/-- The whole of a comparison, by induction on what is left of it. -/
theorem foldlM_compareCell {cs : List Cell}
    (hread : ∀ c ∈ cs, (stockByte stock c).isSome ∧ (builtByte built c).isSome) (t : Tally) :
    ∃ t', cs.foldlM (compareCell stock built) t = some t' ∧ Compared stock built cs t t' := by
  induction cs generalizing t with
  | nil => exact ⟨t, rfl, by simp, by simp, id, rfl⟩
  | cons c cs ih =>
    obtain ⟨⟨hx, hy⟩, hrest⟩ := List.forall_mem_cons.mp hread
    obtain ⟨x, hx⟩ := Option.isSome_iff_exists.mp hx
    obtain ⟨y, hy⟩ := Option.isSome_iff_exists.mp hy
    obtain ⟨t', hone, hspec⟩ := compareCell_spec t hx hy
    obtain ⟨t'', hall, hspec'⟩ := ih hrest t'
    refine ⟨t'', ?_, hspec.cons hspec'⟩
    rw [List.foldlM_cons, hone]
    exact hall

theorem foldlM_compareCell_none {cs : List Cell} {c : Cell} (hc : c ∈ cs)
    (hread : builtByte built c = none) (t : Tally) :
    cs.foldlM (compareCell stock built) t = none := by
  induction cs generalizing t with
  | nil => exact absurd hc List.not_mem_nil
  | cons c' cs ih =>
    rw [List.foldlM_cons]
    rcases List.mem_cons.mp hc with rfl | hc
    · have hread' : built[c.2.1.index * bankSize + (c.2.2 - base)]? = none := hread
      have hstop : compareCell stock built t c = none := by
        rw [compareCell, compareByte, hread']
        cases stock[c.2.2 - base]? <;> rfl
      rw [hstop]
      rfl
    · cases compareCell stock built t c' with
      | none => rfl
      | some t' => exact ih hc t'

theorem mem_comparisons {i a : ℕ} {b : Bank} : (i, b, a) ∈ comparisons ↔
    ∃ r, regions[i]? = some r ∧ b ∈ r.banks ∧ r.lo ≤ a ∧ a < r.hi := by
  simp only [comparisons, List.mem_flatMap, List.mem_map, Prod.mk.injEq, Prod.exists]
  constructor
  · rintro ⟨r, i', he, b', hb, a', ha, rfl, rfl, rfl⟩
    have hr := List.mk_mem_zipIdx_iff_getElem?.mp he
    have hin := List.mem_range'_1.mp ha
    exact ⟨r, hr, hb, hin.1, by omega⟩
  · rintro ⟨r, hr, hb, hlo, hhi⟩
    exact ⟨r, i, List.mk_mem_zipIdx_iff_getElem?.mpr hr, b, hb, a,
      List.mem_range'_1.mpr ⟨hlo, by omega⟩, rfl, rfl, rfl⟩

/-- An address at which every bank that has it is as the stock game. -/
def Same (stock built : List (BitVec 8)) (a : ℕ) : Prop :=
  ∀ r ∈ regions, r.lo ≤ a → a < r.hi → ∀ b ∈ r.banks,
    built[b.index * bankSize + (a - base)]? = stock[a - base]?

theorem same_iff {a : ℕ} :
    Same stock built a ↔ ∀ c ∈ comparisons, c.2.2 = a → ¬ Differs stock built c := by
  constructor
  · rintro h ⟨i, b, _⟩ hc rfl
    obtain ⟨r, hr, hb, hlo, hhi⟩ := mem_comparisons.mp hc
    exact not_not.mpr (h r (List.mem_of_getElem? hr) hlo hhi b hb).symm
  · intro h r hr hlo hhi b hb
    obtain ⟨i, hi⟩ := List.mem_iff_getElem?.mp hr
    exact (not_not.mp (h (i, b, a) (mem_comparisons.mpr ⟨r, hi, hb, hlo, hhi⟩) rfl)).symm

/-- What is wrong with an image: a byte that differs and was not to, or a declaration under which
    nothing does. -/
inductive Fault (stock built : List (BitVec 8)) : Problem → Prop
  | undeclared {i a : ℕ} {r : Region} {b : Bank} {x y : BitVec 8} (hr : regions[i]? = some r)
      (hb : b ∈ r.banks) (hlo : r.lo ≤ a) (hhi : a < r.hi) (hx : stock[a - base]? = some x)
      (hy : built[b.index * bankSize + (a - base)]? = some y) (hne : x ≠ y)
      (hspan : ∀ s ∈ spans, ¬ (s.1 ≤ a ∧ a < s.1 + s.2))
      (hrewrite : ∀ w ∈ rewritten, ¬ (w.1 ≤ a ∧ a < w.2)) :
      Fault stock built (.undeclared a b i x y)
  | idleSpan {s : ℕ × ℕ} (hs : s ∈ spans)
      (hsame : ∀ a, s.1 ≤ a → a < s.1 + s.2 → Same stock built a) : Fault stock built (.idleSpan s.1)
  | idleRewrite {w : ℕ × ℕ} (hw : w ∈ rewritten)
      (hsame : ∀ a, w.1 ≤ a → a < w.2 → Same stock built a) :
      Fault stock built (.idleRewrite w.1 w.2)

theorem inRange_iff {a : ℕ} {r : ℕ × ℕ} : inRange a r = true ↔ r.1 ≤ a ∧ a < r.2 := by
  rw [inRange, Bool.and_eq_true, decide_eq_true_eq, decide_eq_true_eq]

theorem allowed_iff {a : ℕ} : allowed a = false ↔
    (∀ s ∈ spans, ¬ (s.1 ≤ a ∧ a < s.1 + s.2)) ∧ ∀ w ∈ rewritten, ¬ (w.1 ≤ a ∧ a < w.2) := by
  simp only [allowed, Bool.or_eq_false_iff, List.any_eq_false, List.forall_mem_map, inRange_iff,
    spanRange]
  exact and_comm

/-- The complaints about single bytes are the undeclared differences. -/
theorem mem_complaints {p : Problem} : p ∈ comparisons.filterMap (complaint stock built) ↔
    Fault stock built p ∧ ∃ a b i x y, p = .undeclared a b i x y := by
  rw [List.mem_filterMap]
  constructor
  · rintro ⟨⟨i, b, a⟩, hc, hp⟩
    obtain ⟨r, hr, hb, hlo, hhi⟩ := mem_comparisons.mp hc
    cases hx : stockByte stock (i, b, a) with
    | none => simp [complaint, hx] at hp
    | some x =>
      cases hy : builtByte built (i, b, a) with
      | none => simp [complaint, hx, hy] at hp
      | some y =>
        rw [complaint, hx, hy] at hp
        dsimp only at hp
        split at hp
        · cases hp
        · next hbad =>
          obtain ⟨hne, hall⟩ := not_or.mp hbad
          obtain ⟨hspan, hrewrite⟩ := allowed_iff.mp (Bool.eq_false_iff.mpr hall)
          rw [← Option.some.inj hp]
          exact ⟨.undeclared hr hb hlo hhi hx hy hne hspan hrewrite, a, b, i, x, y, rfl⟩
  · rintro ⟨hfault, a, b, i, x, y, rfl⟩
    cases hfault with
    | undeclared hr hb hlo hhi hx hy hne hspan hrewrite =>
      have hx' : stockByte stock (i, b, a) = some x := hx
      have hy' : builtByte built (i, b, a) = some y := hy
      refine ⟨(i, b, a), mem_comparisons.mpr ⟨_, hr, hb, hlo, hhi⟩, ?_⟩
      have hall := allowed_iff.mpr ⟨hspan, hrewrite⟩
      simp [complaint, hx', hy', hne, hall]

/-- The others are the declarations that came to nothing. -/
theorem mem_idle {changed : List ℕ} (hc : ∀ a, a ∈ changed ↔ ¬ Same stock built a) {p : Problem} :
    p ∈ idle changed ↔ Fault stock built p ∧ ¬ ∃ a b i x y, p = .undeclared a b i x y := by
  have hidle : ∀ w : ℕ × ℕ, (¬ changed.any (fun a => inRange a w) = true) ↔
      ∀ a, w.1 ≤ a → a < w.2 → Same stock built a := by
    intro w
    simp only [List.any_eq_true, not_exists, hc, inRange_iff]
    constructor
    · exact fun h a hlo hhi => by_contra fun hn => h a ⟨hn, hlo, hhi⟩
    · exact fun h a hin => hin.1 (h a hin.2.1 hin.2.2)
  simp only [idle, List.mem_append, List.mem_map, List.mem_filter, decide_eq_true_eq]
  constructor
  · rintro (⟨s, ⟨hs, hsame⟩, rfl⟩ | ⟨w, ⟨hw, hsame⟩, rfl⟩)
    · exact ⟨.idleSpan hs ((hidle (spanRange s)).mp hsame), by simp⟩
    · exact ⟨.idleRewrite hw ((hidle w).mp hsame), by simp⟩
  · rintro ⟨hfault, hother⟩
    cases hfault with
    | undeclared => exact absurd ⟨_, _, _, _, _, rfl⟩ hother
    | idleSpan hs hsame => exact .inl ⟨_, ⟨hs, (hidle (spanRange _)).mpr hsame⟩, rfl⟩
    | idleRewrite hw hsame => exact .inr ⟨_, ⟨hw, (hidle _).mpr hsame⟩, rfl⟩

/-- Nothing that the kernel's bank has is declared. -/
theorem kern_undeclared : ∀ r ∈ regions, .kern ∈ r.banks →
    (∀ s ∈ spans, r.hi ≤ s.1 ∨ s.1 + s.2 ≤ r.lo) ∧ ∀ w ∈ rewritten, r.hi ≤ w.1 ∨ w.2 ≤ r.lo := by
  decide

/-- Everything that is compared is within three banks. -/
theorem read_of_length (hstock : stock.length = 0x800) (hbuilt : 3 * bankSize ≤ built.length) :
    ∀ c ∈ comparisons, (stockByte stock c).isSome ∧ (builtByte built c).isSome := by
  rintro ⟨i, b, a⟩ hc
  obtain ⟨r, hr, -, hlo, hhi⟩ := mem_comparisons.mp hc
  obtain ⟨hbase, -, htop⟩ := regions_proper r (List.mem_of_getElem? hr)
  have hindex : b.index ≤ 2 := by cases b <;> decide
  have hbank := Nat.mul_le_mul_right bankSize hindex
  have hsize : bankSize = 0x800 := rfl
  simp only [stockByte, builtByte, isSome_getElem?]
  have hrange : a - base < 0x800 := by omega
  exact ⟨hstock ▸ hrange, by omega⟩

theorem audit_read (hstock : stock.length = 0x800) (hbuilt : 3 * bankSize ≤ built.length) :
    ∃ t, Compared stock built comparisons {} t ∧ audit stock built =
      match t.problems ++ idle t.changed with
      | [] => .passed t.seen t.changed.length
      | p :: ps => .problems (p :: ps) := by
  obtain ⟨t, hall, hspec⟩ := foldlM_compareCell (read_of_length hstock hbuilt) {}
  refine ⟨t, hspec, ?_⟩
  have hfold : regions.zipIdx.foldlM (compareRegion stock built) {} = some t :=
    (foldlM_compareRegion regions.zipIdx {}).trans hall
  rw [audit, if_neg (not_not.mpr hstock), hfold]

/-- A shorter image does not have the last byte of the third bank. -/
theorem audit_crash (hstock : stock.length = 0x800) (hbuilt : built.length < 3 * bankSize) :
    audit stock built = .crash := by
  have hlast : (8, Bank.kern, 0xF7FF) ∈ comparisons :=
    mem_comparisons.mpr ⟨_, rfl, by decide, by decide, by decide⟩
  have hread : builtByte built (8, .kern, 0xF7FF) = none :=
    List.getElem?_eq_none (Nat.le_of_lt_succ hbuilt)
  have hfold : regions.zipIdx.foldlM (compareRegion stock built) {} = none :=
    (foldlM_compareRegion regions.zipIdx {}).trans (foldlM_compareCell_none hlast hread {})
  rw [audit, if_neg (not_not.mpr hstock), hfold]

theorem comparisons_length : comparisons.length = 2088 := by decide +kernel

/-- The audit says what is wrong. It wants the stock game's two kilobytes and an image of three banks;
    then it complains of just the bytes that differ and were not to, and of just the declarations under
    which nothing does. It passes an image with which nothing is wrong; all that the kernel's bank has
    is then as it was, and the two copies of what both banks have agree. -/
theorem audit_reports_faults (stock built : List (BitVec 8)) :
    match audit stock built with
    | .wrongSize n => n = stock.length ∧ n ≠ 0x800
    | .crash => stock.length = 0x800 ∧ built.length < 3 * bankSize
    | .problems ps => stock.length = 0x800 ∧ 3 * bankSize ≤ built.length ∧ ps ≠ [] ∧
        ∀ p, p ∈ ps ↔ Fault stock built p
    | .passed seen changed => stock.length = 0x800 ∧ 3 * bankSize ≤ built.length ∧
        (∀ p, ¬ Fault stock built p) ∧ seen = 2088 ∧
        (∃ as : List ℕ, as.Nodup ∧ changed = as.length ∧ ∀ a, a ∈ as ↔ ¬ Same stock built a) ∧
        ∀ r ∈ regions, .kern ∈ r.banks → ∀ a, r.lo ≤ a → a < r.hi → Same stock built a := by
  by_cases hstock : stock.length = 0x800
  swap
  · rw [audit, if_pos hstock]
    exact ⟨rfl, hstock⟩
  by_cases hbuilt : 3 * bankSize ≤ built.length
  swap
  · rw [audit_crash hstock (Nat.lt_of_not_le hbuilt)]
    exact ⟨hstock, Nat.lt_of_not_le hbuilt⟩
  obtain ⟨t, hspec, haudit⟩ := audit_read hstock hbuilt
  have hchanged : ∀ a, a ∈ t.changed ↔ ¬ Same stock built a := by
    intro a
    rw [hspec.changed, same_iff]
    simp
  have hfault : ∀ p, p ∈ t.problems ++ idle t.changed ↔ Fault stock built p := by
    intro p
    rw [List.mem_append, hspec.problems, List.nil_append, mem_complaints, mem_idle hchanged,
      ← and_or_left]
    exact and_iff_left (em _)
  rw [haudit]
  cases hproblems : t.problems ++ idle t.changed with
  | cons p ps =>
    refine ⟨hstock, hbuilt, List.cons_ne_nil p ps, fun q => ?_⟩
    rw [← hproblems]
    exact hfault q
  | nil =>
    have hnone : ∀ p, ¬ Fault stock built p := by
      intro p hp
      have hin := (hfault p).mpr hp
      rw [hproblems] at hin
      exact absurd hin List.not_mem_nil
    refine ⟨hstock, hbuilt, hnone, ?_, ⟨t.changed, hspec.nodup List.nodup_nil, rfl, hchanged⟩, ?_⟩
    · rw [hspec.seen, comparisons_length]
    · intro r hr hkern a hlo hhi
      obtain ⟨hspans, hrewrites⟩ := kern_undeclared r hr hkern
      rw [same_iff]
      rintro ⟨i, b, _⟩ hc rfl hdiff
      obtain ⟨r', hr', hb, hlo', hhi'⟩ := mem_comparisons.mp hc
      obtain ⟨hx, hy⟩ := read_of_length hstock hbuilt _ hc
      obtain ⟨x, hx⟩ := Option.isSome_iff_exists.mp hx
      obtain ⟨y, hy⟩ := Option.isSome_iff_exists.mp hy
      have hne : x ≠ y := fun h => hdiff (hx.trans (h ▸ hy.symm))
      refine hnone _ (.undeclared hr' hb hlo' hhi' hx hy hne ?_ ?_)
      · rintro s hs ⟨hslo, hshi⟩
        have hout := hspans s hs
        dsimp only at hlo hhi
        omega
      · rintro w hw ⟨hwlo, hwhi⟩
        have hout := hrewrites w hw
        dsimp only at hlo hhi
        omega

end VO.Build
