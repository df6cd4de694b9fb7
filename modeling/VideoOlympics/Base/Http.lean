import Mathlib.Data.List.Basic
import Mathlib.Tactic.Common

/-! Requests on the wire: a line with what is wanted, a line for each header, an empty line, and as many
    octets as the headers say. Whatever the body is, a request that is well formed is read as it was
    written. -/

namespace Http

abbrev Octets := List (BitVec 8)

def cr : BitVec 8 := 0x0D
def lf : BitVec 8 := 0x0A
def sp : BitVec 8 := 0x20
def colon : BitVec 8 := 0x3A

/-! ### Reading -/

/-- Up to the first CR LF, and what is behind it. -/
def takeLine : Octets → Option (Octets × Octets)
  | b :: c :: rest =>
    if b = cr ∧ c = lf then some ([], rest)
    else (takeLine (c :: rest)).map fun r => (b :: r.1, r.2)
  | _ => none

/-- Up to the first of these, and what is behind it. -/
def cutAt (sep : BitVec 8) : Octets → Option (Octets × Octets)
  | [] => none
  | b :: bs => if b = sep then some ([], bs) else (cutAt sep bs).map fun r => (b :: r.1, r.2)

def isDigit (b : BitVec 8) : Bool := 0x30 ≤ b && b ≤ 0x39

/-- The number some digits stand for. -/
def value (bs : Octets) : ℕ := bs.foldl (fun n b => 10 * n + (b.toNat - 48)) 0

def number (bs : Octets) : Option ℕ := if bs ≠ [] ∧ bs.all isDigit then some (value bs) else none

structure Request where
  method : Octets
  target : Octets
  version : Octets
  headers : List (Octets × Octets)
  body : Octets
  deriving DecidableEq

/-- Headers, as far as the empty line. -/
def readHeaders : ℕ → Octets → Option (List (Octets × Octets) × Octets)
  | 0, _ => none
  | fuel + 1, bs => do
    let (line, rest) ← takeLine bs
    if line = [] then some ([], rest)
    else
      let (name, text) ← cutAt colon line
      let (headers, body) ← readHeaders fuel rest
      some ((name, text.dropWhile (· = sp)) :: headers, body)

variable (lengthName : Octets)

/-- A whole request and nothing behind it. The name is that of the header that says how long the body is. -/
def read (bs : Octets) : Option Request := do
  let (line, rest) ← takeLine bs
  let (method, line) ← cutAt sp line
  let (target, version) ← cutAt sp line
  let (headers, body) ← readHeaders rest.length rest
  let n ← headers.lookup lengthName >>= number
  if sp ∈ version ∨ body.length ≠ n then none else some { method, target, version, headers, body }

/-! ### Writing -/

def digits (n : ℕ) : Octets := (Nat.toDigits 10 n).map fun ch => BitVec.ofNat 8 ch.toNat

def crlf : Octets := [cr, lf]

def writeHeader (h : Octets × Octets) : Octets := h.1 ++ [colon, sp] ++ h.2 ++ crlf

def Request.write (r : Request) : Octets :=
  r.method ++ [sp] ++ r.target ++ [sp] ++ r.version ++ crlf ++ r.headers.flatMap writeHeader ++ crlf ++ r.body

/-- A header that is read as it was written. -/
structure Clean (h : Octets × Octets) : Prop where
  named : h.1 ≠ []
  name : ∀ b ∈ h.1, b ≠ colon ∧ b ≠ lf
  text : lf ∉ h.2
  trimmed : h.2.head? ≠ some sp

instance (h : Octets × Octets) : Decidable (Clean h) :=
  decidable_of_iff (h.1 ≠ [] ∧ (∀ b ∈ h.1, b ≠ colon ∧ b ≠ lf) ∧ lf ∉ h.2 ∧ h.2.head? ≠ some sp)
    ⟨fun ⟨hnamed, hname, htext, htrimmed⟩ => ⟨hnamed, hname, htext, htrimmed⟩,
      fun h => ⟨h.named, h.name, h.text, h.trimmed⟩⟩

structure Request.Valid (r : Request) : Prop where
  method : ∀ b ∈ r.method, b ≠ sp ∧ b ≠ lf
  target : ∀ b ∈ r.target, b ≠ sp ∧ b ≠ lf
  version : ∀ b ∈ r.version, b ≠ sp ∧ b ≠ lf
  headers : ∀ h ∈ r.headers, Clean h
  length : r.headers.lookup lengthName = some (digits r.body.length)

variable {lengthName} {line rest bs : Octets} {sep : BitVec 8}

theorem takeLine_crlf (h : lf ∉ line) : takeLine (line ++ crlf ++ rest) = some (line, rest) := by
  induction line with
  | nil => rfl
  | cons b line ih =>
    obtain ⟨hb, hline⟩ := List.ne_and_not_mem_of_not_mem_cons h
    have hrest := ih hline
    cases line with
    | nil =>
      have hstop : ¬ (b = cr ∧ cr = lf) := fun hbc => absurd hbc.2 (by decide)
      rw [List.nil_append, crlf, List.cons_append] at hrest
      rw [crlf, List.singleton_append, List.cons_append, List.cons_append, takeLine, if_neg hstop, hrest]
      rfl
    | cons c line =>
      have hc : c ≠ lf := (List.ne_of_not_mem_cons hline).symm
      rw [List.cons_append, List.cons_append] at hrest
      rw [List.cons_append, List.cons_append, List.cons_append, List.cons_append, takeLine,
        if_neg fun hbc => hc hbc.2, hrest]
      rfl

theorem cutAt_sep (h : sep ∉ line) : cutAt sep (line ++ [sep] ++ rest) = some (line, rest) := by
  induction line with
  | nil => exact if_pos rfl
  | cons b line ih =>
    obtain ⟨hb, hline⟩ := List.ne_and_not_mem_of_not_mem_cons h
    rw [List.cons_append, List.cons_append, cutAt, if_neg hb.symm, ih hline]
    rfl

theorem isDigit_toDigits {n : ℕ} {ch : Char} (h : ch ∈ Nat.toDigits 10 n) :
    isDigit (BitVec.ofNat 8 ch.toNat) = true ∧ (BitVec.ofNat 8 ch.toNat).toNat = ch.toNat := by
  have hdigit := Nat.isDigit_of_mem_toDigits (by decide) (by decide) h
  simp only [Char.isDigit, Bool.and_eq_true, decide_eq_true_eq, UInt32.le_iff_toNat_le] at hdigit
  have hlo : 48 ≤ ch.toNat := hdigit.1
  have hhi : ch.toNat ≤ 57 := hdigit.2
  have hnat : (BitVec.ofNat 8 ch.toNat).toNat = ch.toNat := Nat.mod_eq_of_lt (by omega)
  refine ⟨?_, hnat⟩
  simp only [isDigit, Bool.and_eq_true, decide_eq_true_eq, BitVec.le_def, hnat]
  exact ⟨hlo, hhi⟩

theorem digits_ne_nil (n : ℕ) : digits n ≠ [] := by simp [digits, Nat.toDigits_ne_nil]

theorem isDigit_digits {n : ℕ} {b : BitVec 8} (h : b ∈ digits n) : isDigit b = true := by
  obtain ⟨ch, hch, rfl⟩ := List.mem_map.mp h
  exact (isDigit_toDigits hch).1

/-- A number is read as it was written. -/
theorem number_digits (n : ℕ) : number (digits n) = some n := by
  have hall : (digits n).all isDigit = true := List.all_eq_true.mpr fun b hb => isDigit_digits hb
  have hfold : ∀ (cs : List Char), (∀ ch ∈ cs, ch ∈ Nat.toDigits 10 n) → ∀ m,
      (cs.map fun ch => BitVec.ofNat 8 ch.toNat).foldl (fun n b => 10 * n + (b.toNat - 48)) m =
        Nat.ofDigitChars 10 cs m := by
    intro cs
    induction cs with
    | nil => exact fun _ m => (Nat.ofDigitChars_nil).symm
    | cons ch cs ih =>
      intro hcs m
      obtain ⟨hch, hrest⟩ := List.forall_mem_cons.mp hcs
      rw [List.map_cons, List.foldl_cons, ih hrest, Nat.ofDigitChars_cons, (isDigit_toDigits hch).2]
      rfl
  rw [number, if_pos ⟨digits_ne_nil n, hall⟩, value, digits, hfold _ fun _ h => h, Nat.ofDigitChars_ten_toDigits]

theorem readHeaders_write {hs : List (Octets × Octets)} (h : ∀ e ∈ hs, Clean e) {fuel : ℕ}
    (hfuel : hs.length < fuel) :
    readHeaders fuel (hs.flatMap writeHeader ++ crlf ++ rest) = some (hs, rest) := by
  induction hs generalizing fuel with
  | nil =>
    obtain ⟨fuel, rfl⟩ := Nat.exists_eq_add_one_of_ne_zero (Nat.ne_zero_of_lt hfuel)
    rfl
  | cons e hs ih =>
    obtain ⟨he, hrest⟩ := List.forall_mem_cons.mp h
    obtain ⟨fuel, rfl⟩ := Nat.exists_eq_add_one_of_ne_zero (Nat.ne_zero_of_lt hfuel)
    have hline : lf ∉ e.1 ++ [colon, sp] ++ e.2 := by
      simp only [List.mem_append, List.mem_cons, List.not_mem_nil, or_false]
      rintro ((hmem | hmem | hmem) | hmem)
      · exact (he.name lf hmem).2 rfl
      · exact absurd hmem (by decide)
      · exact absurd hmem (by decide)
      · exact he.text hmem
    have hname : colon ∉ e.1 := fun hmem => (he.name colon hmem).1 rfl
    have hcut : cutAt colon (e.1 ++ [colon, sp] ++ e.2) = some (e.1, sp :: e.2) := by
      have hsplit : cutAt colon (e.1 ++ [colon] ++ sp :: e.2) = some (e.1, sp :: e.2) :=
        cutAt_sep hname
      simpa using hsplit
    have hdrop : (sp :: e.2).dropWhile (· = sp) = e.2 := by
      rw [List.dropWhile_cons_of_pos (by decide)]
      cases htext : e.2 with
      | nil => rfl
      | cons b text =>
        have hb : b ≠ sp := by
          rintro rfl
          exact he.trimmed (by rw [htext]; rfl)
        exact List.dropWhile_cons_of_neg (by simpa using hb)
    have hne : e.1 ++ [colon, sp] ++ e.2 ≠ [] := by simp
    have hfirst : takeLine ((e :: hs).flatMap writeHeader ++ crlf ++ rest) =
        some (e.1 ++ [colon, sp] ++ e.2, hs.flatMap writeHeader ++ crlf ++ rest) := by
      have hwhole := @takeLine_crlf _ (hs.flatMap writeHeader ++ crlf ++ rest) hline
      rw [List.flatMap_cons, writeHeader]
      simpa only [List.append_assoc] using hwhole
    rw [readHeaders, hfirst]
    simp only [Option.bind_eq_bind, Option.bind_some, if_neg hne, hcut, hdrop,
      ih hrest (Nat.lt_of_succ_lt_succ hfuel)]

theorem length_headers (hs : List (Octets × Octets)) :
    hs.length ≤ (hs.flatMap writeHeader).length := by
  induction hs with
  | nil => exact Nat.zero_le _
  | cons e hs ih =>
    rw [List.flatMap_cons, List.length_append, List.length_cons, writeHeader]
    simp only [List.length_append, List.length_cons]
    omega

/-- A request that is well formed is read as it was written, and to its end. -/
theorem read_write {r : Request} (h : r.Valid lengthName) : read lengthName r.write = some r := by
  have hnot : ∀ {bs : Octets}, (∀ b ∈ bs, b ≠ sp ∧ b ≠ lf) → sp ∉ bs ∧ lf ∉ bs := fun hbs =>
    ⟨fun hmem => (hbs sp hmem).1 rfl, fun hmem => (hbs lf hmem).2 rfl⟩
  obtain ⟨hmethod, hmethod'⟩ := hnot h.method
  obtain ⟨htarget, htarget'⟩ := hnot h.target
  obtain ⟨hversion, hversion'⟩ := hnot h.version
  have hline : lf ∉ r.method ++ [sp] ++ (r.target ++ [sp] ++ r.version) := by
    have hsp : lf ≠ sp := by decide
    simp [hmethod', htarget', hversion', hsp]
  have hfirst : takeLine r.write = some (r.method ++ [sp] ++ (r.target ++ [sp] ++ r.version),
      r.headers.flatMap writeHeader ++ crlf ++ r.body) := by
    have hwhole := @takeLine_crlf _ (r.headers.flatMap writeHeader ++ crlf ++ r.body) hline
    rw [Request.write]
    simpa only [List.append_assoc] using hwhole
  have hfuel : r.headers.length < (r.headers.flatMap writeHeader ++ crlf ++ r.body).length := by
    have hheaders := length_headers r.headers
    simp only [List.length_append, crlf, List.length_cons]
    omega
  have hrefuse : ¬ (sp ∈ r.version ∨ r.body.length ≠ r.body.length) := by simp [hversion]
  rw [read, hfirst]
  simp only [Option.bind_eq_bind, Option.bind_some, cutAt_sep hmethod, cutAt_sep htarget,
    readHeaders_write h.headers hfuel, h.length, number_digits, if_neg hrefuse]

end Http
