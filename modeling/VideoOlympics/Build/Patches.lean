import VideoOlympics.Base.Splice

/-! The declared patches. A patch names a line of the disassembly and the text that has to be there, and
    what takes its place; the generator refuses to go on from a line that does not match. The number of
    lines stays what it was: the whole of the new text goes into the first slot. -/

namespace VO.Build

abbrev Text := List Char

/-- Lines, as one text. -/
def text (lines : List String) : Text := List.intercalate ['\n'] (lines.map String.toList)

/-- What `str.split` takes for white space. -/
def isSpace (ch : Char) : Bool :=
  let n := ch.toNat
  (9 ≤ n && n ≤ 13) || (28 ≤ n && n ≤ 32) || n == 0x85 || n == 0xA0 || n == 0x1680 ||
    (0x2000 ≤ n && n ≤ 0x200A) || n == 0x2028 || n == 0x2029 || n == 0x202F || n == 0x205F ||
    n == 0x3000

/-- `str.split`, with the word that is being read. -/
def splitFrom : Text → Text → List Text
  | word, [] => if word = [] then [] else [word]
  | word, ch :: rest =>
    if isSpace ch then (if word = [] then splitFrom [] rest else word :: splitFrom [] rest)
    else splitFrom (word ++ [ch]) rest

def split (text : Text) : List Text := splitFrom [] text

/-- `_norm`: white space is collapsed. -/
def norm (text : Text) : Text := List.intercalate [' '] (split text)

/-- A patch, and the lines it takes the place of. -/
structure Patch where
  name : String
  line : ℕ
  nlines : ℕ
  pos : 0 < nlines
  old : Text
  new : Text

/-- Why the build stops. -/
inductive Refusal where
  | pastEnd (name : String) (line total : ℕ)
  | anchor (name : String) (line : ℕ) (want found : Text)
  deriving DecidableEq

namespace Patch

/-- `_check`: the anchor is verified before anything is touched. -/
def check (p : Patch) (total : ℕ) (lines : List Text) : Except Refusal Unit :=
  if p.line = 0 ∨ total < p.line - 1 + p.nlines then .error (.pastEnd p.name p.line total)
  else if norm lines.flatten ≠ norm p.old then
    .error (.anchor p.name p.line (norm p.old) (norm lines.flatten))
  else .ok ()

end Patch

/-- Where the patches go, and what goes there: the first slot is given the new text, and the others are
    blank lines. -/
def sites : Splice.Sites Patch Text Refusal where
  start p := p.line - 1
  len p := p.nlines
  new p := p.new ++ ['\n']
  blank := ['\n']
  check p := p.check
  pos p := p.pos
  fits p total lines h := by
    simp only [Patch.check] at h
    split at h
    · cases h
    · next hfit =>
      exact Nat.le_of_not_lt fun hlt => hfit (.inr hlt)

/-- `apply`, for a list of patches. -/
def apply (ps : List Patch) (lines : List Text) : Except Refusal (List Text) := sites.rewrite ps lines

/-! ### White space -/

theorem splitFrom_space {word text : Text} (h : ∀ ch ∈ text, isSpace ch = true) :
    splitFrom word text = if word = [] then [] else [word] := by
  induction text generalizing word with
  | nil => rfl
  | cons ch text ih =>
    obtain ⟨hch, htext⟩ := List.forall_mem_cons.mp h
    rw [splitFrom, if_pos hch, ih htext]
    rfl

/-- White space at the end makes no difference. -/
theorem split_append_space {text space : Text} (h : ∀ ch ∈ space, isSpace ch = true) :
    split (text ++ space) = split text := by
  have hfrom : ∀ word, splitFrom word (text ++ space) = splitFrom word text := by
    induction text with
    | nil => exact fun word => splitFrom_space h
    | cons ch text ih =>
      intro word
      simp only [List.cons_append, splitFrom, ih]
  exact hfrom []

end VO.Build
