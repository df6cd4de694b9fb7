import Mathlib.Data.List.Basic
import Mathlib.Tactic.Common

/-! Frames off the front of a stream. A framer knows the next frame of what has come, or why there is
    none; and what it has decided, nothing that comes later changes. -/

/-- `head` is `none` where more has to come, and `error` where no frame ever will. -/
structure Framer (α β γ : Type*) where
  head : List α → Option (Except γ (β × List α))
  shorter : ∀ {bs b rest}, head bs = some (.ok (b, rest)) → rest.length < bs.length
  steady : ∀ {bs r}, head bs = some r → ∀ more,
    head (bs ++ more) = some (r.map fun x => (x.1, x.2 ++ more))

namespace Framer

variable {α β γ : Type*} (F : Framer α β γ)

/-- All the frames a stream begins with, what ends them, and what is left. -/
structure Parsed (α β γ : Type*) where
  frames : List β
  bad : Option γ
  rest : List α
  deriving DecidableEq

def parseN : ℕ → List α → Parsed α β γ
  | 0, bs => ⟨[], none, bs⟩
  | n + 1, bs =>
    match F.head bs with
    | none => ⟨[], none, bs⟩
    | some (.error g) => ⟨[], some g, bs⟩
    | some (.ok (b, rest)) => { parseN n rest with frames := b :: (parseN n rest).frames }

/-- The greedy parse. No stream has more frames than bytes. -/
def parse (bs : List α) : Parsed α β γ := F.parseN (bs.length + 1) bs

variable {F} {bs rest : List α} {b : β} {g : γ}

theorem parseN_enough : ∀ {n m : ℕ} {bs : List α}, bs.length < n → bs.length < m →
    F.parseN n bs = F.parseN m bs
  | n + 1, m + 1, bs, hn, hm => by
      simp only [parseN]
      split
      · rfl
      · rfl
      · next b rest h =>
        have := F.shorter h
        rw [parseN_enough (n := n) (m := m) (by omega) (by omega)]

theorem parse_wait (h : F.head bs = none) : F.parse bs = ⟨[], none, bs⟩ := by
  simp only [parse, parseN, h]

theorem parse_bad (h : F.head bs = some (.error g)) : F.parse bs = ⟨[], some g, bs⟩ := by
  simp only [parse, parseN, h]

theorem parse_frame (h : F.head bs = some (.ok (b, rest))) :
    F.parse bs = ⟨b :: (F.parse rest).frames, (F.parse rest).bad, (F.parse rest).rest⟩ := by
  have hlen := F.shorter h
  simp only [parse, parseN, h]
  rw [parseN_enough (n := bs.length) (m := rest.length + 1) hlen (Nat.lt_succ_self _)]
  rfl

/-- What frames are sent as is parsed as those frames, whatever comes behind them. -/
theorem parse_encoded {enc : β → List α} {fs : List β}
    (henc : ∀ f ∈ fs, ∀ more, F.head (enc f ++ more) = some (.ok (f, more))) (more : List α) :
    F.parse (fs.flatMap enc ++ more) =
      ⟨fs ++ (F.parse more).frames, (F.parse more).bad, (F.parse more).rest⟩ := by
  induction fs with
  | nil => rfl
  | cons f fs ih =>
    obtain ⟨hf, hfs⟩ := List.forall_mem_cons.mp henc
    rw [List.flatMap_cons, List.append_assoc, parse_frame (hf _), ih hfs]
    rfl

/-! ### Up to the first frame that ends the stream -/

/-- Up to and including the first that stops. -/
def upTo (stops : β → Bool) : List β → List β
  | [] => []
  | f :: fs => f :: if stops f then [] else upTo stops fs

/-- What a reader makes of a stream who stops at certain frames: the frames, and what ends them if
    none of them does. -/
def outcome (F : Framer α β γ) (stops : β → Bool) (bs : List α) : List β × Option γ :=
  (upTo stops (F.parse bs).frames, if (F.parse bs).frames.any stops then none else (F.parse bs).bad)

variable {stops : β → Bool}

theorem outcome_wait (h : F.head bs = none) : F.outcome stops bs = ([], none) := by
  simp only [outcome, parse_wait h, upTo, List.any_nil]
  rfl

theorem outcome_bad (h : F.head bs = some (.error g)) : F.outcome stops bs = ([], some g) := by
  simp only [outcome, parse_bad h, upTo, List.any_nil]
  rfl

theorem outcome_stop (h : F.head bs = some (.ok (b, rest))) (hb : stops b = true) :
    F.outcome stops bs = ([b], none) := by
  simp only [outcome, parse_frame h, upTo, List.any_cons, hb, Bool.true_or, if_true]

theorem outcome_go (h : F.head bs = some (.ok (b, rest))) (hb : stops b = false) :
    F.outcome stops bs = (b :: (F.outcome stops rest).1, (F.outcome stops rest).2) := by
  simp only [outcome, parse_frame h, upTo, List.any_cons, hb, Bool.false_or, Bool.false_eq_true, if_false]

theorem upTo_append {fs gs : List β} (h : ∀ f ∈ fs, stops f = false) :
    upTo stops (fs ++ gs) = fs ++ upTo stops gs := by
  induction fs with
  | nil => rfl
  | cons f fs ih =>
    obtain ⟨hf, hfs⟩ := List.forall_mem_cons.mp h
    simp only [List.cons_append, upTo, hf, Bool.false_eq_true, if_false, ih hfs]

/-- Frames that do not stop the reader, and then the rest of the stream. -/
theorem outcome_encoded {enc : β → List α} {fs : List β}
    (henc : ∀ f ∈ fs, ∀ more, F.head (enc f ++ more) = some (.ok (f, more)))
    (hgo : ∀ f ∈ fs, stops f = false) (more : List α) :
    F.outcome stops (fs.flatMap enc ++ more) =
      (fs ++ (F.outcome stops more).1, (F.outcome stops more).2) := by
  have hany : fs.any stops = false := by
    rw [List.any_eq_false]
    exact fun f hf => by rw [hgo f hf]; exact Bool.false_ne_true
  simp only [outcome, parse_encoded henc, upTo_append hgo, List.any_append, hany, Bool.false_or]

end Framer
