import VideoOlympics.Base.Layout
import VideoOlympics.Build.Declared

/-! The split of the game across the cartridge's banks. Each line of the patched source is filed by the
    address the assembler gave it in the stock one; each region is put out at its own address, rebased,
    and simply runs on. -/

namespace VO.Build

/-- Where the disassembly puts the game. -/
def base : ℕ := 0xF000
/-- Where a bank is mapped. -/
def window : ℕ := 0x1000
def rebase : ℕ := base - window

inductive Bank where
  | boot | game | kern
  deriving DecidableEq, Repr

/-- Whose a region is. -/
inductive Owner where
  | one (b : Bank)
  | both
  deriving DecidableEq, Repr

structure Region where
  lo : ℕ
  hi : ℕ
  owner : Owner
  deriving DecidableEq, Repr

/-- The banks a region is in. -/
def Region.banks (r : Region) : List Bank :=
  match r.owner with
  | .one b => [b]
  | .both => [.game, .kern]

/-- `REGIONS`. The addresses are the stock ones. -/
def regions : List Region := [
  ⟨0xF000, 0xF550, .one .game⟩, ⟨0xF550, 0xF554, .one .game⟩, ⟨0xF554, 0xF585, .one .game⟩,
  ⟨0xF585, 0xF5B8, .one .kern⟩, ⟨0xF5B8, 0xF5D0, .both⟩, ⟨0xF5D0, 0xF658, .one .kern⟩,
  ⟨0xF658, 0xF743, .one .game⟩, ⟨0xF743, 0xF753, .both⟩, ⟨0xF753, 0xF800, .one .kern⟩]

/-- `line_addresses`: what the listing says of each line, the first time it speaks of it. -/
def lineAddresses (found : List (ℕ × ℕ)) : List (ℕ × ℕ) :=
  found.foldl (fun d e => if (d.lookup e.1).isSome then d else d ++ [e]) []

/-- `region_of`. -/
def regionOf (addr : ℕ) : Option ℕ := regions.findIdx? fun r => r.lo ≤ addr && addr < r.hi

def isHex (ch : Char) : Bool :=
  ch.isDigit || ('A' ≤ ch && ch ≤ 'F') || ('a' ≤ ch && ch ≤ 'f')

/-- The directive that opens the image: `ORG $Fxxx`, and nothing else on the line. -/
def opensImage (line : Text) : Bool :=
  match (line.reverse.dropWhile isSpace).reverse.dropWhile isSpace with
  | o :: r :: g :: sp :: rest =>
    o.toUpper == 'O' && r.toUpper == 'R' && g.toUpper == 'G' && isSpace sp &&
      match rest.dropWhile isSpace with
      | [d, f, x, y, z] => d == '$' && f.toUpper == 'F' && isHex x && isHex y && isHex z
      | _ => false
  | _ => false

/-- The number of the line that opens the image. -/
def openOrg (lines : List Text) : Option ℕ := (lines.findIdx? opensImage).map (· + 1)

/-- Every region's two ends. -/
def edges : List ℕ := regions.flatMap fun r => [r.lo, r.hi]

/-- The first edge that is in the middle of a line. -/
def badEdge (starts : List ℕ) : Option ℕ :=
  edges.find? fun e => ¬ (e = base ∨ e = base + 0x800 ∨ e ∈ starts)

/-- The bucket a line goes into, by its number. -/
def filed (addr : List (ℕ × ℕ)) (openorg n : ℕ) : Option ℕ :=
  match addr.lookup n with
  | none => none
  | some a => if a < base then none else if n = openorg then none else regionOf a

/-- One turn of the loop that fills the buckets. -/
def fileLine (conv : Text → Text) (addr : List (ℕ × ℕ)) (openorg : ℕ) (buckets : List (List Text))
    (line : Text × ℕ) : List (List Text) :=
  match filed addr openorg line.2 with
  | some r => buckets.modify r (· ++ [conv line.1])
  | none => buckets

def buckets (conv : Text → Text) (addr : List (ℕ × ℕ)) (openorg : ℕ) (lines : List Text) :
    List (List Text) :=
  (lines.zipIdx 1).foldl (fileLine conv addr openorg) (regions.map fun _ => [])

/-- What is put out: a line, or one of the generator's own directives. -/
inductive Item where
  | ifBank (b : Bank)
  | org (addr : ℕ)
  | line (text : Text)
  | label (region : ℕ)
  | endIf
  deriving DecidableEq

/-- A region: for its bank only, or for every one. -/
def putRegion (i : ℕ) (r : Region) (bucket : List Text) : List Item :=
  let body := .org (r.lo - rebase) :: bucket.map .line ++ [.label i]
  match r.owner with
  | .one b => .ifBank b :: body ++ [.endIf]
  | .both => body

/-- Why there is no output. -/
inductive Stop where
  | patches (e : Refusal)
  | noOrg
  | midLine (edge : ℕ) (before : Option ℕ)
  deriving DecidableEq

/-- `main`, from the lines the listing speaks of and the lines of the source. `conv` is what becomes of
    a line's text on its way out: it is converted, its ORG is rebased and its mirror registers renamed. -/
def mkbanks (conv : Text → Text) (found : List (ℕ × ℕ)) (source : List Text) :
    Except Stop (List Item) :=
  let addr := lineAddresses found
  let starts := addr.map (·.2)
  match apply declared source with
  | .error e => .error (.patches e)
  | .ok lines =>
    match openOrg lines with
    | none => .error .noOrg
    | some o =>
      match badEdge starts with
      | some e => .error (.midLine e (starts.filter (· < e)).max?)
      | none => .ok ((regions.zip (buckets conv addr o lines)).zipIdx.flatMap fun e =>
          putRegion e.2 e.1.1 e.1.2)

/-! ### The assembler's side -/

/-- What an assembler makes of the output for one bank: where each line begins, and what the labels at
    the regions' ends stand for. -/
inductive Mark where
  | line (addr : ℕ) (text : Text)
  | label (region addr : ℕ)
  deriving DecidableEq

/-- An assembler, as far as its location counter goes. `on` says whether the lines are for this bank. -/
def assemble (size : Text → ℕ) (b : Bank) : Bool → ℕ → List Item → List Mark
  | _, _, [] => []
  | _, pc, .ifBank b' :: is => assemble size b (b' = b) pc is
  | on, pc, .org a :: is => assemble size b on (if on then a else pc) is
  | true, pc, .line t :: is => .line pc t :: assemble size b true (pc + size t) is
  | false, pc, .line _ :: is => assemble size b false pc is
  | true, pc, .label i :: is => .label i pc :: assemble size b true pc is
  | false, pc, .label _ :: is => assemble size b false pc is
  | _, pc, .endIf :: is => assemble size b true pc is

variable {size : Text → ℕ} {b : Bank} {conv : Text → Text}

/-- What a region of this bank comes to. -/
def marks (size : Text → ℕ) (i : ℕ) (r : Region) (bucket : List Text) : List Mark :=
  (Layout.place size (r.lo - rebase) bucket).map (fun e => .line e.1 e.2) ++
    [.label i (Layout.after size (r.lo - rebase) bucket)]

theorem assemble_lines (pc : ℕ) (bucket : List Text) (rest : List Item) :
    assemble size b true pc (bucket.map .line ++ rest) =
      (Layout.place size pc bucket).map (fun e => .line e.1 e.2) ++
        assemble size b true (Layout.after size pc bucket) rest := by
  induction bucket generalizing pc with
  | nil => rfl
  | cons t ts ih =>
    rw [List.map_cons, List.cons_append, assemble, ih, Layout.after_cons]
    rfl

theorem assemble_skips (pc : ℕ) (bucket : List Text) (rest : List Item) :
    assemble size b false pc (bucket.map .line ++ rest) = assemble size b false pc rest := by
  induction bucket with
  | nil => rfl
  | cons t ts ih => rw [List.map_cons, List.cons_append, assemble, ih]

/-- A region is there for its banks, and is passed over for the other of the two. -/
theorem assemble_region (hb : b ≠ .boot) (pc i : ℕ) (r : Region) (bucket : List Text)
    (rest : List Item) :
    ∃ pc', assemble size b true pc (putRegion i r bucket ++ rest) =
      (if b ∈ r.banks then marks size i r bucket else []) ++ assemble size b true pc' rest := by
  have hbody : ∀ tail, assemble size b true pc
      (.org (r.lo - rebase) :: bucket.map .line ++ [.label i] ++ tail) =
        marks size i r bucket ++ assemble size b true
          (Layout.after size (r.lo - rebase) bucket) tail := by
    intro tail
    rw [List.append_assoc, List.cons_append, assemble, if_pos rfl, assemble_lines, List.singleton_append,
      assemble, marks, List.append_assoc, List.singleton_append]
  cases hown : r.owner with
  | both =>
    refine ⟨Layout.after size (r.lo - rebase) bucket, ?_⟩
    have hin : b ∈ r.banks := by
      cases b with
      | boot => exact absurd rfl hb
      | game => simp [Region.banks, hown]
      | kern => simp [Region.banks, hown]
    rw [if_pos hin, putRegion, hown]
    exact hbody rest
  | one b' =>
    by_cases heq : b' = b
    · refine ⟨Layout.after size (r.lo - rebase) bucket, ?_⟩
      rw [if_pos (by simp [Region.banks, hown, heq]), putRegion, hown]
      dsimp only
      rw [List.cons_append, List.cons_append, assemble, decide_eq_true heq]
      have hend := hbody (.endIf :: rest)
      simp only [List.append_assoc, List.cons_append, List.nil_append] at hend ⊢
      rw [hend, assemble]
    · refine ⟨pc, ?_⟩
      rw [if_neg (by simp [Region.banks, hown, Ne.symm heq]), putRegion, hown]
      dsimp only
      rw [List.cons_append, List.cons_append, assemble, decide_eq_false heq]
      simp only [List.append_assoc, List.cons_append, List.nil_append]
      rw [assemble, if_neg Bool.false_ne_true, assemble_skips, assemble, assemble]

/-- What the whole output comes to, region by region. -/
theorem mem_assemble (hb : b ≠ .boot) {m : Mark} (parts : List ((Region × List Text) × ℕ)) (pc : ℕ) :
    m ∈ assemble size b true pc (parts.flatMap fun e => putRegion e.2 e.1.1 e.1.2) ↔
      ∃ e ∈ parts, b ∈ e.1.1.banks ∧ m ∈ marks size e.2 e.1.1 e.1.2 := by
  induction parts generalizing pc with
  | nil => simp [assemble]
  | cons e parts ih =>
    obtain ⟨pc', hregion⟩ := @assemble_region size b hb pc e.2 e.1.1 e.1.2
      (parts.flatMap fun e => putRegion e.2 e.1.1 e.1.2)
    rw [List.flatMap_cons, hregion, List.mem_append, ih]
    by_cases hin : b ∈ e.1.1.banks
    · simp [hin]
    · simp [hin]

theorem mem_image (hb : b ≠ .boot) {m : Mark} (bs : List (List Text)) (pc : ℕ) :
    m ∈ assemble size b true pc ((regions.zip bs).zipIdx.flatMap fun e => putRegion e.2 e.1.1 e.1.2) ↔
      ∃ i r bucket, regions[i]? = some r ∧ bs[i]? = some bucket ∧ b ∈ r.banks ∧
        m ∈ marks size i r bucket := by
  rw [mem_assemble hb]
  constructor
  · rintro ⟨⟨⟨r, bucket⟩, i⟩, he, hin, hm⟩
    obtain ⟨hr, hbucket⟩ := List.getElem?_zip_eq_some.mp (List.mk_mem_zipIdx_iff_getElem?.mp he)
    exact ⟨i, r, bucket, hr, hbucket, hin, hm⟩
  · rintro ⟨i, r, bucket, hr, hbucket, hin, hm⟩
    exact ⟨⟨⟨r, bucket⟩, i⟩, List.mk_mem_zipIdx_iff_getElem?.mpr
      (List.getElem?_zip_eq_some.mpr ⟨hr, hbucket⟩), hin, hm⟩

theorem line_mem_marks {i a : ℕ} {r : Region} {bucket : List Text} {t : Text} :
    Mark.line a t ∈ marks size i r bucket ↔ (a, t) ∈ Layout.place size (r.lo - rebase) bucket := by
  simp [marks]

theorem label_mem_marks {i j a : ℕ} {r : Region} {bucket : List Text} :
    Mark.label j a ∈ marks size i r bucket ↔
      j = i ∧ a = Layout.after size (r.lo - rebase) bucket := by
  simp [marks]

/-! ### The buckets -/

theorem regions_sorted : regions.Pairwise fun r r' => r.hi ≤ r'.lo := by decide

theorem regions_proper : ∀ r ∈ regions, base ≤ r.lo ∧ r.lo < r.hi ∧ r.hi ≤ base + 0x800 := by decide

/-- No address is in two regions. -/
theorem regionOf_eq_some {a i : ℕ} :
    regionOf a = some i ↔ ∃ r, regions[i]? = some r ∧ r.lo ≤ a ∧ a < r.hi := by
  rw [regionOf, List.findIdx?_eq_some_iff_getElem]
  constructor
  · rintro ⟨hi, hin, -⟩
    simp only [Bool.and_eq_true, decide_eq_true_eq] at hin
    exact ⟨regions[i], List.getElem?_eq_getElem hi, hin⟩
  · rintro ⟨r, hr, hlo, hhi⟩
    obtain ⟨hi, rfl⟩ := List.getElem?_eq_some_iff.mp hr
    refine ⟨hi, by simp [hlo, hhi], ?_⟩
    intro j hji
    have hsorted := List.pairwise_iff_getElem.mp regions_sorted j i (by omega) hi hji
    simp only [Bool.and_eq_true, decide_eq_true_eq]
    omega

/-- A line of the source, by its number. -/
def lineAt (lines : List Text) (n : ℕ) : Text := lines.getD (n - 1) []

theorem zipIdx_eq (lines : List Text) :
    lines.zipIdx 1 = (List.range' 1 lines.length).map fun n => (lineAt lines n, n) := by
  refine List.ext_getElem? fun j => ?_
  by_cases hj : j < lines.length
  · rw [List.getElem?_zipIdx, List.getElem?_map, List.getElem?_range' hj, List.getElem?_eq_getElem hj]
    simp [lineAt, Nat.add_comm 1 j, hj]
  · rw [List.getElem?_eq_none (by simpa using hj), List.getElem?_eq_none (by simpa using hj)]

theorem fileLine_foldl (addr : List (ℕ × ℕ)) (o i : ℕ) (ls : List (Text × ℕ)) (bs : List (List Text)) :
    (ls.foldl (fileLine conv addr o) bs)[i]? = bs[i]?.map (· ++ ls.filterMap fun l =>
      if filed addr o l.2 = some i then some (conv l.1) else none) := by
  induction ls generalizing bs with
  | nil => simp
  | cons l ls ih =>
    rw [List.foldl_cons, ih, fileLine]
    cases hr : filed addr o l.2 with
    | none => simp [hr]
    | some r =>
      rw [List.getElem?_modify]
      by_cases hri : r = i
      · cases bs[i]? with
        | none => simp [hri]
        | some bucket => simp [hri, hr]
      · cases bs[i]? with
        | none => simp
        | some bucket => simp [hri, hr]

/-- A region's bucket has, in order, the lines that are filed there. -/
theorem buckets_getElem? {addr : List (ℕ × ℕ)} {o i : ℕ} {lines : List Text} (hi : i < regions.length) :
    (buckets conv addr o lines)[i]? = some (((List.range' 1 lines.length).filter fun n =>
      filed addr o n = some i).map fun n => conv (lineAt lines n)) := by
  have hnone : (regions.map fun _ => ([] : List Text))[i]? = some [] := by
    rw [List.getElem?_map, List.getElem?_eq_getElem hi]
    rfl
  rw [buckets, fileLine_foldl, hnone, Option.map_some, List.nil_append, zipIdx_eq, List.filterMap_map]
  congr 1
  induction List.range' 1 lines.length with
  | nil => rfl
  | cons n ns ih =>
    by_cases hn : filed addr o n = some i
    · rw [List.filterMap_cons_some (b := conv (lineAt lines n)) (by simp [hn]),
        List.filter_cons_of_pos (by simpa using hn), List.map_cons, ih]
    · rw [List.filterMap_cons_none (by simp [hn]), List.filter_cons_of_neg (by simpa using hn), ih]

/-! ### Where the lines come to be -/

open Layout (pos)

/-- One of the blank lines a patch leaves behind its first. -/
def Blanked (n : ℕ) : Prop := ∃ p ∈ declared, p.line < n ∧ n < p.line + p.nlines

/-- The stock address of a line, or of the first one behind the last: `w` is how many bytes each line
    comes to, and the first behind the ORG is at the base. -/
def stockAt (w : ℕ → ℕ) (o n : ℕ) : ℕ := base + pos w (o + 1) n

/-- The listing is the stock source's: so many lines, two kilobytes behind the ORG that opens them. -/
structure Listed (w : ℕ → ℕ) (o total : ℕ) (addr : List (ℕ × ℕ)) : Prop where
  before : ∀ n a, n < o → addr.lookup n = some a → a < base
  opens : ∀ a, addr.lookup o = some a → a ≤ base
  body : ∀ n, o < n → n ≤ total → addr.lookup n = some (stockAt w o n)
  past : ∀ n, total < n → addr.lookup n = none
  whole : pos w (o + 1) (total + 1) = 0x800

/-- What is asked of the patches: each is as long as what it takes the place of, and no region's end is
    in the middle of it. -/
structure Keeps (size : Text → ℕ) (conv : Text → Text) (w : ℕ → ℕ) (o : ℕ) (source : List Text) :
    Prop where
  behind : ∀ p ∈ declared, o < p.line
  same : ∀ n, o < n → n ≤ source.length → (∀ p ∈ declared, ¬ sites.Covers p (n - 1)) →
    size (conv (lineAt source n)) = w n
  new : ∀ p ∈ declared, size (conv (p.new ++ ['\n'])) = pos w p.line (p.line + p.nlines)
  blank : size (conv ['\n']) = 0
  inside : ∀ p ∈ declared, ∀ e ∈ edges,
    ¬ (stockAt w o p.line < e ∧ e < stockAt w o (p.line + p.nlines))

section

variable {w : ℕ → ℕ} {o : ℕ} {source lines : List Text}

theorem apply_ok (h : apply declared source = .ok lines) :
    (∀ p ∈ declared, p.line - 1 + p.nlines ≤ source.length) ∧ Patched source lines := by
  rcases Splice.Sites.rewrite_eq (l := source) declared_apart with
    ⟨hall, out, hout, hlen, hslots⟩ | ⟨_, _, _, e, -, -, -, herr⟩
  · refine ⟨fun p hp => sites.fits p _ _ (hall p hp), ?_⟩
    rw [← Except.ok.inj (hout.symm.trans h)]
    exact patched_of_slots hlen hslots
  · exact absurd (herr.symm.trans h) (by simp)

/-- What the slots of the patched source come to. -/
theorem size_slot (hp : Patched source lines) (hk : Keeps size conv w o source) {n : ℕ} (hn : o < n)
    (hlen : n ≤ source.length) :
    (∃ p ∈ declared, n = p.line ∧
        size (conv (lineAt lines n)) = pos w p.line (p.line + p.nlines)) ∨
      Blanked n ∧ size (conv (lineAt lines n)) = 0 ∨
      (∀ p ∈ declared, ¬ sites.Covers p (n - 1)) ∧ size (conv (lineAt lines n)) = w n := by
  by_cases hcov : ∃ p ∈ declared, sites.Covers p (n - 1)
  · obtain ⟨p, hmem, hlo, hhi⟩ := hcov
    have hstart : sites.start p = p.line - 1 := rfl
    have hsites : sites.len p = p.nlines := rfl
    have hbehind := hk.behind p hmem
    by_cases heq : n = p.line
    · refine .inl ⟨p, hmem, heq, ?_⟩
      have hfirst := hp.first p hmem
      rw [lineAt, List.getD_eq_getElem?_getD, heq, hfirst]
      exact hk.new p hmem
    · refine .inr (.inl ⟨⟨p, hmem, by omega, by omega⟩, ?_⟩)
      have hblank := hp.blank p hmem (n - 1) (by omega) (by omega)
      rw [lineAt, List.getD_eq_getElem?_getD, hblank]
      exact hk.blank
  · have hnone : ∀ p ∈ declared, ¬ sites.Covers p (n - 1) := fun p hmem hc => hcov ⟨p, hmem, hc⟩
    refine .inr (.inr ⟨hnone, ?_⟩)
    rw [lineAt, List.getD_eq_getElem?_getD, hp.others _ hnone, ← List.getD_eq_getElem?_getD]
    exact hk.same n hn hlen hnone

/-- A line that a patch reaches is one of its slots. -/
theorem covers_of_line {p : Patch} {n : ℕ} (hlo : p.line ≤ n) (hhi : n < p.line + p.nlines)
    (hpos : 0 < p.line) : sites.Covers p (n - 1) := by
  have hstart : sites.start p = p.line - 1 := rfl
  have hsites : sites.len p = p.nlines := rfl
  exact ⟨by omega, by omega⟩

/-- The bytes in front of a line are those there were; in front of a blank one, those of its patch are
    all there already. -/
theorem pos_slots (hp : Patched source lines) (hk : Keeps size conv w o source) {n : ℕ} (hn : o < n)
    (hlen : n ≤ source.length + 1) :
    (¬ Blanked n → pos (fun j => size (conv (lineAt lines j))) (o + 1) n = pos w (o + 1) n) ∧
      ∀ p ∈ declared, p.line < n → n < p.line + p.nlines →
        pos (fun j => size (conv (lineAt lines j))) (o + 1) n = pos w (o + 1) (p.line + p.nlines) := by
  induction n, hn using Nat.le_induction with
  | base =>
    refine ⟨fun _ => by rw [Layout.pos_self, Layout.pos_self], fun p hmem hlo _ => ?_⟩
    have hbehind := hk.behind p hmem
    omega
  | succ n hn ih =>
    obtain ⟨hplain, hin⟩ := ih (by omega)
    -- whoever reaches past this line covers it
    have hcovers : ∀ q ∈ declared, q.line < n + 1 → n + 1 < q.line + q.nlines →
        sites.Covers q (n - 1) := fun q hq hlo hhi =>
      covers_of_line (Nat.le_of_lt_succ hlo) (by omega) (Nat.zero_lt_of_lt (hk.behind q hq))
    rcases size_slot hp hk hn (by omega) with ⟨p, hmem, rfl, hsize⟩ | ⟨⟨p, hmem, hlo, hhi⟩, hsize⟩ |
        ⟨hnone, hsize⟩
    · have hpos := p.pos
      have hself : sites.Covers p (p.line - 1) :=
        covers_of_line (Nat.le_refl _) (by omega) (Nat.zero_lt_of_lt hn)
      have hfree : ¬ Blanked p.line := by
        rintro ⟨q, hq, hqlo, hqhi⟩
        have hqp := Splice.Sites.eq_of_covers declared_apart hq hmem
          (covers_of_line hqlo.le hqhi (Nat.zero_lt_of_lt (hk.behind q hq))) hself
        exact absurd hqlo (hqp ▸ Nat.lt_irrefl _)
      have htotal : pos (fun j => size (conv (lineAt lines j))) (o + 1) (p.line + 1) =
          pos w (o + 1) (p.line + p.nlines) := by
        rw [Layout.pos_succ hn, hplain hfree, hsize, Layout.pos_add hn (Nat.le_add_right _ _)]
      refine ⟨fun hnot => ?_, fun q hq hqlo hqhi => ?_⟩
      · have hone : p.nlines = 1 := by
          by_contra hmore
          exact hnot ⟨p, hmem, Nat.lt_succ_self _, by omega⟩
        rw [htotal, hone]
      · rw [htotal, Splice.Sites.eq_of_covers declared_apart hq hmem (hcovers q hq hqlo hqhi) hself]
    · have hself : sites.Covers p (n - 1) :=
        covers_of_line hlo.le hhi (Nat.zero_lt_of_lt (hk.behind p hmem))
      have htotal : pos (fun j => size (conv (lineAt lines j))) (o + 1) (n + 1) =
          pos w (o + 1) (p.line + p.nlines) := by
        rw [Layout.pos_succ hn, hin p hmem hlo hhi, hsize, Nat.add_zero]
      refine ⟨fun hnot => ?_, fun q hq hqlo hqhi => ?_⟩
      · have hend : n + 1 = p.line + p.nlines := by
          by_contra hmore
          exact hnot ⟨p, hmem, by omega, by omega⟩
        rw [htotal, hend]
      · rw [htotal, Splice.Sites.eq_of_covers declared_apart hq hmem (hcovers q hq hqlo hqhi) hself]
    · have hfree : ¬ Blanked n := by
        rintro ⟨q, hq, hqlo, hqhi⟩
        exact hnone q hq (covers_of_line hqlo.le hqhi (Nat.zero_lt_of_lt (hk.behind q hq)))
      refine ⟨fun _ => ?_, fun q hq hqlo hqhi => absurd (hcovers q hq hqlo hqhi) (hnone q hq)⟩
      rw [Layout.pos_succ hn, Layout.pos_succ hn, hplain hfree, hsize]

theorem stockAt_mono {m n : ℕ} (hm : o + 1 ≤ m) (hmn : m ≤ n) : stockAt w o m ≤ stockAt w o n :=
  Nat.add_le_add_left (Layout.pos_mono hm hmn) base

/-- What is listed is what is looked up. -/
theorem lookup_lineAddresses (found : List (ℕ × ℕ)) {e : ℕ × ℕ} (he : e ∈ lineAddresses found) :
    (lineAddresses found).lookup e.1 = some e.2 := by
  have hkeyed : ∀ (ls d : List (ℕ × ℕ)), (∀ e ∈ d, d.lookup e.1 = some e.2) →
      ∀ e ∈ ls.foldl (fun d e => if (d.lookup e.1).isSome then d else d ++ [e]) d,
        (ls.foldl (fun d e => if (d.lookup e.1).isSome then d else d ++ [e]) d).lookup e.1 =
          some e.2 := by
    intro ls
    induction ls with
    | nil => exact fun d hd => hd
    | cons l ls ih =>
      intro d hd
      refine ih _ ?_
      dsimp only
      split
      · exact hd
      · next hfree =>
        intro e he
        rw [List.lookup_append]
        rcases List.mem_append.mp he with he | he
        · rw [hd e he, Option.some_or]
        · obtain rfl := List.mem_singleton.mp he
          rw [Option.not_isSome_iff_eq_none.mp hfree, Option.none_or]
          exact List.lookup_cons_self (b := e.2)
  exact hkeyed found [] (List.forall_mem_nil _) e he

/-- Every edge is where some line begins, or where they end. -/
theorem exists_edge {addr : List (ℕ × ℕ)} (hl : Listed w o source.length addr)
    (hkeyed : ∀ e ∈ addr, addr.lookup e.1 = some e.2) (ho : o ≤ source.length)
    (hbad : badEdge (addr.map (·.2)) = none) {e : ℕ} (he : e ∈ edges) :
    ∃ n, o + 1 ≤ n ∧ n ≤ source.length + 1 ∧ stockAt w o n = e := by
  have hge : base ≤ e := by
    obtain ⟨r, hr, hin⟩ := List.mem_flatMap.mp he
    obtain ⟨hlo, hlt, -⟩ := regions_proper r hr
    rcases List.mem_pair.mp hin with rfl | rfl
    · exact hlo
    · omega
  have hgood := List.find?_eq_none.mp hbad e he
  simp only [decide_not, Bool.not_eq_true, Bool.not_eq_false', decide_eq_true_eq] at hgood
  rcases hgood with rfl | rfl | hin
  · exact ⟨o + 1, Nat.le_refl _, by omega, by rw [stockAt, Layout.pos_self, Nat.add_zero]⟩
  · exact ⟨source.length + 1, by omega, Nat.le_refl _, by rw [stockAt, hl.whole]⟩
  · obtain ⟨⟨n, a⟩, hmem, rfl⟩ := List.mem_map.mp hin
    have hlook := hkeyed _ hmem
    rcases Nat.lt_trichotomy n o with hlt | heq | hgt
    · exact absurd hge (Nat.not_le_of_lt (hl.before n a hlt hlook))
    · have hbase : a = base := Nat.le_antisymm (hl.opens a (heq ▸ hlook)) hge
      exact ⟨o + 1, Nat.le_refl _, by omega, by rw [stockAt, Layout.pos_self, Nat.add_zero, hbase]⟩
    · by_cases hle : n ≤ source.length
      · exact ⟨n, hgt, by omega, Option.some.inj ((hl.body n hgt hle).symm.trans hlook)⟩
      · rw [hl.past n (Nat.lt_of_not_le hle)] at hlook
        cases hlook

/-- A line that comes to anything is where the stock source has it. -/
theorem line_address (hp : Patched source lines) (hk : Keeps size conv w o source) {n : ℕ} (hn : o < n)
    (hlen : n ≤ source.length) (hsize : 0 < size (conv (lineAt lines n))) :
    base + pos (fun j => size (conv (lineAt lines j))) (o + 1) n = stockAt w o n := by
  have hfree : ¬ Blanked n := by
    rintro ⟨p, hmem, hlo, hhi⟩
    have hbehind := hk.behind p hmem
    have hblank := hp.blank p hmem (n - 1) (by omega) (by omega)
    rw [lineAt, List.getD_eq_getElem?_getD, hblank, Option.getD_some, hk.blank] at hsize
    exact absurd hsize (Nat.lt_irrefl 0)
  rw [(pos_slots hp hk hn (by omega)).1 hfree, stockAt]

section

variable {found : List (ℕ × ℕ)} (hp : Patched source lines) (hk : Keeps size conv w o source)
  (hfits : ∀ p ∈ declared, p.line - 1 + p.nlines ≤ source.length)

include hp hk hfits

/-- Up to the line that begins at an edge, the patched source has as many bytes as the stock one. -/
theorem pos_edge {e m : ℕ} (he : e ∈ edges) (hm : o + 1 ≤ m) (hmlen : m ≤ source.length + 1)
    (hat : stockAt w o m = e)
    (hfirst : ∀ n, o + 1 ≤ n → n ≤ source.length + 1 → (stockAt w o n < e ↔ n < m)) :
    base + pos (fun j => size (conv (lineAt lines j))) (o + 1) m = e := by
  obtain ⟨hplain, hin⟩ := pos_slots hp hk hm hmlen
  by_cases hblank : Blanked m
  · obtain ⟨p, hmem, hlo, hhi⟩ := hblank
    have hbehind := hk.behind p hmem
    have hfit := hfits p hmem
    have hbefore := (hfirst p.line hbehind (by omega)).mpr hlo
    have hreach : e ≤ stockAt w o (p.line + p.nlines) := hat ▸ stockAt_mono hm hhi.le
    rw [hin p hmem hlo hhi]
    refine Nat.le_antisymm ?_ hreach
    exact Nat.le_of_not_lt fun hlt => hk.inside p hmem e he ⟨hbefore, hlt⟩
  · rw [hplain hblank]
    exact hat

variable (hl : Listed w o source.length (lineAddresses found)) (ho : o ≤ source.length)
  (hbad : badEdge ((lineAddresses found).map (·.2)) = none)

include hl ho hbad

/-- A region's lines are a run of the source, and the run is as long as the region. -/
theorem region_run {i : ℕ} {r : Region} (hr : regions[i]? = some r) :
    ∃ m k, o + 1 ≤ m ∧ m ≤ k ∧ k ≤ source.length + 1 ∧
      base + pos (fun j => size (conv (lineAt lines j))) (o + 1) m = r.lo ∧
      base + pos (fun j => size (conv (lineAt lines j))) (o + 1) k = r.hi ∧
      (∀ n, o < n → n ≤ source.length →
        (r.lo ≤ stockAt w o n ∧ stockAt w o n < r.hi ↔ m ≤ n ∧ n < k)) ∧
      (buckets conv (lineAddresses found) o lines)[i]? =
        some ((List.range' m (k - m)).map fun n => conv (lineAt lines n)) := by
  have hmem := List.mem_of_getElem? hr
  have hkeyed : ∀ e ∈ lineAddresses found, (lineAddresses found).lookup e.1 = some e.2 :=
    fun e he => lookup_lineAddresses found he
  have hmono : ∀ m n, o + 1 ≤ m → m ≤ n → n ≤ source.length + 1 → stockAt w o m ≤ stockAt w o n :=
    fun m n hm hmn _ => stockAt_mono hm hmn
  have hloe : r.lo ∈ edges := List.mem_flatMap.mpr ⟨r, hmem, by simp⟩
  have hhie : r.hi ∈ edges := List.mem_flatMap.mpr ⟨r, hmem, by simp⟩
  obtain ⟨m, hom, hmlen, hmat, hmfirst⟩ :=
    Layout.exists_first hmono (exists_edge hl hkeyed ho hbad hloe)
  obtain ⟨k, hok, hklen, hkat, hkfirst⟩ :=
    Layout.exists_first hmono (exists_edge hl hkeyed ho hbad hhie)
  have hproper := regions_proper r hmem
  have hmk : m ≤ k := by
    by_contra hkm
    have hlt := (hmfirst k hok hklen).mpr (Nat.lt_of_not_le hkm)
    omega
  have hrun : ∀ n, o < n → n ≤ source.length →
      (r.lo ≤ stockAt w o n ∧ stockAt w o n < r.hi ↔ m ≤ n ∧ n < k) := by
    intro n hn hlen
    rw [hkfirst n hn (by omega), ← Nat.not_lt, hmfirst n hn (by omega), Nat.not_lt]
  refine ⟨m, k, hom, hmk, hklen, pos_edge hp hk hfits hloe hom hmlen hmat hmfirst,
    pos_edge hp hk hfits hhie hok hklen hkat hkfirst, hrun, ?_⟩
  have hi : i < regions.length := (List.getElem?_eq_some_iff.mp hr).1
  rw [buckets_getElem? hi, hp.length]
  refine congrArg (fun ns => some (List.map (fun n => conv (lineAt lines n)) ns)) ?_
  refine Layout.filter_range' (by omega) hmk (by omega) fun n hn hlen => ?_
  rw [decide_eq_true_eq, filed]
  rcases Nat.lt_or_ge o n with hgt | hle
  · have hbase : ¬ stockAt w o n < base := Nat.not_lt_of_le (Nat.le_add_right _ _)
    rw [hl.body n hgt (by omega), ← hrun n hgt (by omega)]
    dsimp only
    rw [if_neg hbase, if_neg (Nat.ne_of_gt hgt), regionOf_eq_some]
    constructor
    · rintro ⟨r', hr', hin⟩
      exact Option.some.inj (hr.symm.trans hr') ▸ hin
    · exact fun hin => ⟨r, hr, hin⟩
  · refine iff_of_false ?_ (by omega)
    cases hlook : (lineAddresses found).lookup n with
    | none => exact fun h => by cases h
    | some a =>
      dsimp only
      rcases Nat.lt_or_eq_of_le hle with hlt | heq
      · rw [if_pos (hl.before n a hlt hlook)]
        exact fun h => by cases h
      · rw [if_pos heq, ite_self]
        exact fun h => by cases h

/-- What a region's bucket comes to, placed at the region's own address. -/
theorem region_place {i : ℕ} {r : Region} (hr : regions[i]? = some r) :
    ∃ bucket, (buckets conv (lineAddresses found) o lines)[i]? = some bucket ∧
      Layout.after size (r.lo - rebase) bucket + rebase = r.hi ∧
      ∀ a t, 0 < size t → ((a, t) ∈ Layout.place size (r.lo - rebase) bucket ↔
        ∃ n, o < n ∧ n ≤ source.length ∧ t = conv (lineAt lines n) ∧ a + rebase = stockAt w o n ∧
          r.lo ≤ stockAt w o n ∧ stockAt w o n < r.hi) := by
  obtain ⟨m, k, hom, hmk, hklen, hlo, hhi, hrun, hbucket⟩ :=
    region_run hp hk hfits hl ho hbad hr
  have hbase := (regions_proper r (List.mem_of_getElem? hr)).1
  have hrebase : rebase ≤ base := by decide
  -- from the region's first line on, the counter runs as it does from the ORG on
  have hcounter : ∀ n, m ≤ n → r.lo - rebase + pos (fun j => size (conv (lineAt lines j))) m n + rebase =
      base + pos (fun j => size (conv (lineAt lines j))) (o + 1) n := by
    intro n hmn
    rw [← Layout.pos_add hom hmn]
    omega
  refine ⟨_, hbucket, ?_, fun a t hsize => ?_⟩
  · rw [Layout.after_range', hcounter _ (Nat.le_add_right _ _), Nat.add_sub_cancel' hmk, hhi]
  · rw [Layout.place_range', List.mem_map]
    constructor
    · rintro ⟨n, hn, heq⟩
      obtain ⟨rfl, rfl⟩ := Prod.mk.injEq _ _ _ _ ▸ heq
      obtain ⟨hmn, hnk⟩ := List.mem_range'_1.mp hn
      have hlen : n ≤ source.length := by omega
      have hin := (hrun n (by omega) hlen).mpr ⟨hmn, by omega⟩
      exact ⟨n, by omega, hlen, rfl,
        (hcounter n hmn).trans (line_address hp hk (by omega) hlen hsize), hin⟩
    · rintro ⟨n, hn, hlen, rfl, hat, hin⟩
      obtain ⟨hmn, hnk⟩ := (hrun n hn hlen).mp hin
      have hplace := (hcounter n hmn).trans (line_address hp hk hn hlen hsize)
      refine ⟨n, List.mem_range'_1.mpr ⟨hmn, by omega⟩, ?_⟩
      rw [show a = r.lo - rebase + pos (fun j => size (conv (lineAt lines j))) m n by omega]

end

theorem openOrg_le (h : openOrg lines = some o) : o ≤ lines.length := by
  obtain ⟨j, hj, rfl⟩ := Option.map_eq_some_iff.mp h
  exact (List.findIdx?_eq_some_iff_getElem.mp hj).1

theorem mkbanks_eq_ok {found : List (ℕ × ℕ)} (hlines : apply declared source = .ok lines)
    (horg : openOrg lines = some o) (hbad : badEdge ((lineAddresses found).map (·.2)) = none) :
    ∃ items, mkbanks conv found source = .ok items := by
  simp [mkbanks, hlines, horg, hbad]

/-- When there is output, and what it is. -/
theorem mkbanks_ok {found : List (ℕ × ℕ)} {items : List Item}
    (hlines : apply declared source = .ok lines) (horg : openOrg lines = some o)
    (h : mkbanks conv found source = .ok items) :
    badEdge ((lineAddresses found).map (·.2)) = none ∧
      items = (regions.zip (buckets conv (lineAddresses found) o lines)).zipIdx.flatMap fun e =>
        putRegion e.2 e.1.1 e.1.2 := by
  simp only [mkbanks, hlines, horg] at h
  cases hbad : badEdge ((lineAddresses found).map (·.2)) with
  | some e => simp [hbad] at h
  | none =>
    rw [hbad] at h
    exact ⟨rfl, (Except.ok.inj h).symm⟩

/-- Every byte keeps the address it has in the stock image, less the rebase. Where the listing is the
    stock source's and each patch is as long as what it takes the place of, each bank comes to have
    exactly the lines that its regions have, each where it was; its regions end where they did; and no
    address in one of them is left out or written twice. -/
theorem banks_place {found : List (ℕ × ℕ)} {items : List Item}
    (hsplit : mkbanks conv found source = .ok items) (hlines : apply declared source = .ok lines)
    (horg : openOrg lines = some o) (hl : Listed w o source.length (lineAddresses found))
    (hk : Keeps size conv w o source) (hb : b ≠ .boot) (pc : ℕ) :
    (∀ a t, 0 < size t → (.line a t ∈ assemble size b true pc items ↔
      ∃ n, o < n ∧ n ≤ source.length ∧ t = conv (lineAt lines n) ∧ a + rebase = stockAt w o n ∧
        ∃ r ∈ regions, b ∈ r.banks ∧ r.lo ≤ stockAt w o n ∧ stockAt w o n < r.hi)) ∧
    (∀ i a, .label i a ∈ assemble size b true pc items ↔
      ∃ r, regions[i]? = some r ∧ b ∈ r.banks ∧ a + rebase = r.hi) ∧
    ∀ r ∈ regions, b ∈ r.banks → ∀ x, r.lo ≤ x + rebase → x + rebase < r.hi →
      ∃! e : ℕ × Text, .line e.1 e.2 ∈ assemble size b true pc items ∧ e.1 ≤ x ∧
        x < e.1 + size e.2 := by
  obtain ⟨hfits, hp⟩ := apply_ok hlines
  have ho : o ≤ source.length := hp.length ▸ openOrg_le horg
  obtain ⟨hbad, rfl⟩ := mkbanks_ok hlines horg hsplit
  have hrebase : rebase ≤ base := by decide
  have hplace := fun i r (hr : regions[i]? = some r) =>
    region_place hp hk hfits hl ho hbad hr
  refine ⟨fun a t hsize => ?_, fun i a => ?_, fun r hr hin x hlo hhi => ?_⟩
  · rw [mem_image hb]
    constructor
    · rintro ⟨i, r, bucket, hr, hbucket, hin, hmem⟩
      obtain ⟨bucket', hbucket', -, hiff⟩ := hplace i r hr
      obtain rfl := Option.some.inj (hbucket.symm.trans hbucket')
      obtain ⟨n, hn, hlen, ht, hat, hrange⟩ := (hiff a t hsize).mp (line_mem_marks.mp hmem)
      exact ⟨n, hn, hlen, ht, hat, r, List.mem_of_getElem? hr, hin, hrange⟩
    · rintro ⟨n, hn, hlen, ht, hat, r, hr, hin, hrange⟩
      obtain ⟨i, hi⟩ := List.mem_iff_getElem?.mp hr
      obtain ⟨bucket, hbucket, -, hiff⟩ := hplace i r hi
      exact ⟨i, r, bucket, hi, hbucket, hin,
        line_mem_marks.mpr ((hiff a t hsize).mpr ⟨n, hn, hlen, ht, hat, hrange⟩)⟩
  · rw [mem_image hb]
    constructor
    · rintro ⟨i', r, bucket, hr, hbucket, hin, hmem⟩
      obtain ⟨bucket', hbucket', hafter, -⟩ := hplace i' r hr
      obtain rfl := Option.some.inj (hbucket.symm.trans hbucket')
      obtain ⟨rfl, rfl⟩ := label_mem_marks.mp hmem
      exact ⟨r, hr, hin, hafter⟩
    · rintro ⟨r, hr, hin, ha⟩
      obtain ⟨bucket, hbucket, hafter, -⟩ := hplace i r hr
      exact ⟨i, r, bucket, hr, hbucket, hin, label_mem_marks.mpr ⟨rfl, by omega⟩⟩
  · obtain ⟨i, hi⟩ := List.mem_iff_getElem?.mp hr
    obtain ⟨bucket, hbucket, hafter, -⟩ := hplace i r hi
    have hbase := (regions_proper r hr).1
    obtain ⟨e, ⟨he, hex⟩, huniq⟩ := Layout.existsUnique_place
      (show r.lo - rebase ≤ x by omega)
      (show x < Layout.after size (r.lo - rebase) bucket by omega)
    refine ⟨e, ⟨(mem_image hb _ pc).mpr ⟨i, r, bucket, hi, hbucket, hin, line_mem_marks.mpr he⟩,
      hex⟩, ?_⟩
    rintro e' ⟨he', hex'⟩
    obtain ⟨i', r', bucket', hi', hbucket', -, hmem⟩ := (mem_image hb _ pc).mp he'
    have hmem' := line_mem_marks.mp hmem
    obtain ⟨bucket'', hbucket'', hafter', -⟩ := hplace i' r' hi'
    obtain rfl := Option.some.inj (hbucket'.symm.trans hbucket'')
    have hwithin : r'.lo - rebase ≤ e'.1 ∧
        e'.1 + size e'.2 ≤ Layout.after size (r'.lo - rebase) bucket' := Layout.within_place hmem'
    have hbase' := (regions_proper r' (List.mem_of_getElem? hi')).1
    -- the regions do not overlap, so it is the same one
    have hsame : i' = i := Option.some.inj
      ((regionOf_eq_some.mpr ⟨r', hi', by omega, by omega⟩).symm.trans
        (regionOf_eq_some.mpr ⟨r, hi, hlo, hhi⟩))
    obtain rfl := hsame
    obtain rfl := Option.some.inj (hi.symm.trans hi')
    obtain rfl := Option.some.inj (hbucket.symm.trans hbucket')
    exact huniq e' ⟨hmem', hex'⟩

end

/-! A sheet with the ORG, the anchors, and behind them a line for each region. -/

/-- How much a line of the sheet comes to: what it says, or the three bytes of an instruction. -/
def bytes : Text → ℕ
  | ['!', n, '\n'] => n.toNat
  | '\n' :: _ => 0
  | _ => 3

def fills : List ℕ := [0x52C, 4, 0x31, 0x33, 0x18, 0x88, 0xEB, 0x10, 0xAD]

def sheet : List Text :=
  anchors.set 0 (text [" ORG $F000", ""]) ++ fills.map fun n => ['!', Char.ofNat n, '\n']

def widths (n : ℕ) : ℕ :=
  match declared.find? fun p => p.line = n with
  | some p => bytes (p.new ++ ['\n'])
  | none => if n < 768 then 0 else fills.getD (n - 768) 0

/-- What the listing says of it. -/
def listing : List (ℕ × ℕ) := (List.range' 1 776).map fun n => (n, stockAt widths 1 n)

theorem lineAddresses_graph (f : ℕ → ℕ) (k : ℕ) :
    lineAddresses ((List.range' 1 k).map fun n => (n, f n)) = (List.range' 1 k).map fun n => (n, f n) := by
  induction k with
  | zero => rfl
  | succ k ih =>
    have hfree : ((List.range' 1 k).map fun n => (n, f n)).lookup (1 + k) = none := by
      refine List.lookup_eq_none_iff.mpr fun e he => ?_
      obtain ⟨n, hn, rfl⟩ := List.mem_map.mp he
      have hlt := (List.mem_range'_1.mp hn).2
      simp only [bne_iff_ne, ne_eq]
      omega
    rw [List.range'_1_concat, List.map_append, lineAddresses, List.foldl_append]
    have hfold := ih
    rw [lineAddresses] at hfold
    rw [hfold, List.map_singleton, List.foldl_cons, hfree]
    rfl

theorem lookup_listing {n : ℕ} (h1 : 1 ≤ n) (hn : n ≤ 776) :
    (lineAddresses listing).lookup n = some (stockAt widths 1 n) := by
  rw [listing, lineAddresses_graph]
  exact List.lookup_graph _ (List.mem_range'_1.mpr ⟨h1, by omega⟩)

theorem pos_fills : pos widths 2 768 = 36 ∧ (List.range' 768 9).map widths = fills := by
  decide +kernel

theorem edges_fills : ∀ e ∈ edges, e = base ∨ e = base + 0x800 ∨
    ∃ k < 9, base + (36 + pos widths 768 (768 + k)) = e := by
  decide +kernel

theorem stockAt_fills {k : ℕ} : stockAt widths 1 (768 + k) = base + (36 + pos widths 768 (768 + k)) := by
  rw [stockAt, ← Layout.pos_add (show 1 + 1 ≤ 768 by decide) (Nat.le_add_right 768 k), pos_fills.1]

theorem anchors_length : (anchors.set 0 (text [" ORG $F000", ""])).length = 767 := by simp [anchors]

theorem sheet_length : sheet.length = 776 := by
  rw [sheet, List.length_append, anchors_length]
  rfl

theorem bytes_fills : (List.range' 768 9).map (fun n => bytes (lineAt sheet n)) = fills := by
  decide +kernel

theorem sheet_listed : Listed widths 1 sheet.length (lineAddresses listing) where
  before n a hn h := by
    obtain rfl : n = 0 := by omega
    have hnone : (lineAddresses listing).lookup 0 = none := by
      rw [listing, lineAddresses_graph]
      refine List.lookup_eq_none_iff.mpr fun e he => ?_
      obtain ⟨n, hn, rfl⟩ := List.mem_map.mp he
      have hle := (List.mem_range'_1.mp hn).1
      simp only [bne_iff_ne, ne_eq]
      omega
    rw [hnone] at h
    cases h
  opens a h := by
    rw [lookup_listing (Nat.le_refl 1) (by decide)] at h
    rw [← Option.some.inj h, stockAt, pos, Finset.Ico_eq_empty (by decide), Finset.sum_empty]
    exact Nat.le_refl _
  body n hn hlen := lookup_listing hn.le (sheet_length ▸ hlen)
  past n hn := by
    rw [sheet_length] at hn
    rw [listing, lineAddresses_graph]
    refine List.lookup_eq_none_iff.mpr fun e he => ?_
    obtain ⟨n', hn', rfl⟩ := List.mem_map.mp he
    have hlt := (List.mem_range'_1.mp hn').2
    simp only [bne_iff_ne, ne_eq]
    omega
  whole := by
    have hfills : pos widths 768 (768 + 9) = 0x800 - 36 := by decide +kernel
    rw [sheet_length, ← Layout.pos_add (show 1 + 1 ≤ 768 by decide) (show 768 ≤ 776 + 1 by decide),
      pos_fills.1, hfills]

theorem widths_new : ∀ p ∈ declared,
    bytes (p.new ++ ['\n']) = pos widths p.line (p.line + p.nlines) := by
  decide +kernel

theorem sheet_keeps : Keeps bytes id widths 1 sheet where
  behind := by decide
  same n hn hlen hnone := by
    have hfree : declared.find? (fun p => p.line = n) = none := by
      refine List.find?_eq_none.mpr fun p hp => ?_
      rw [decide_eq_true_eq]
      rintro rfl
      exact hnone p hp (covers_of_line (Nat.le_refl _) (Nat.lt_add_of_pos_right p.pos) (by omega))
    rw [sheet_length] at hlen
    rcases Nat.lt_or_ge n 768 with hlt | hge
    · have hline : lineAt sheet n = ['\n'] := by
        have hanchors := anchors_length
        rw [lineAt, sheet, List.getD_eq_getElem?_getD, List.getElem?_append_left (by omega),
          List.getElem?_set_ne (by omega), anchors, List.getElem?_map, List.getElem?_range (by omega)]
        simp [Nat.sub_add_cancel hn.le, hfree]
      rw [widths, hfree, hline]
      exact (if_pos hlt).symm
    · have hboth := List.map_inj_left.mp (bytes_fills.trans pos_fills.2.symm)
      rw [id]
      exact hboth n (List.mem_range'_1.mpr ⟨hge, by omega⟩)
  new := widths_new
  blank := rfl
  inside p hp e he := by
    have hwithin : ∀ p ∈ declared, 1 < p.line ∧ p.line + p.nlines ≤ 768 := by decide
    obtain ⟨hbehind, hfirst⟩ := hwithin p hp
    have hsmall : stockAt widths 1 (p.line + p.nlines) ≤ base + 36 :=
      (stockAt_mono (by omega) hfirst).trans (stockAt_fills (k := 0)).le
    have hedges : ∀ e ∈ edges, e = base ∨ base + 36 ≤ e := by decide
    have hedge := hedges e he
    have hbase : base ≤ stockAt widths 1 p.line := Nat.le_add_right _ _
    omega

theorem sheet_patched : (apply declared sheet).isOk = true := by decide +kernel

/-- No patch reaches its ORG. -/
theorem sheet_opens {lines : List Text} (h : apply declared sheet = .ok lines) :
    openOrg lines = some 1 := by
  have hfree : ∀ p ∈ declared, ¬ sites.Covers p 0 := by decide
  have hfirst := (apply_ok h).2.others 0 hfree
  have hanchors := anchors_length
  have hsheet : sheet[0]? = some (text [" ORG $F000", ""]) := by
    rw [List.length_set] at hanchors
    rw [sheet, List.getElem?_append_left (by rw [List.length_set]; omega),
      List.getElem?_set_self (by omega)]
  cases lines with
  | nil => exact absurd (hfirst.trans hsheet) (by simp)
  | cons line lines =>
    obtain rfl := Option.some.inj (hfirst.trans hsheet)
    have hopens : opensImage (text [" ORG $F000", ""]) = true := by decide +kernel
    rw [openOrg, List.findIdx?_cons, hopens]
    rfl

theorem banks_place_sheet :
    ∃ items, mkbanks id listing sheet = .ok items ∧
      .label 8 0x1800 ∈ assemble bytes .kern true 0 items ∧
      ∃! e : ℕ × Text, .line e.1 e.2 ∈ assemble bytes .kern true 0 items ∧ e.1 ≤ 0x15A0 ∧
        0x15A0 < e.1 + bytes e.2 := by
  obtain ⟨lines, hlines⟩ : ∃ lines, apply declared sheet = .ok lines := by
    have hok := sheet_patched
    cases happ : apply declared sheet with
    | error e =>
      rw [happ] at hok
      cases hok
    | ok lines => exact ⟨lines, rfl⟩
  have horg := sheet_opens hlines
  have hbad : badEdge ((lineAddresses listing).map (·.2)) = none := by
    refine List.find?_eq_none.mpr fun e he => ?_
    rw [decide_eq_true_eq, not_not]
    rcases edges_fills e he with h | h | ⟨k, hk, h⟩
    · exact .inl h
    · exact .inr (.inl h)
    · refine .inr (.inr ?_)
      rw [listing, lineAddresses_graph, List.map_map, List.mem_map]
      exact ⟨768 + k, List.mem_range'_1.mpr (by omega), stockAt_fills.trans h⟩
  obtain ⟨items, hitems⟩ : ∃ items, mkbanks id listing sheet = .ok items :=
    mkbanks_eq_ok hlines horg hbad
  have hplace := banks_place hitems hlines horg sheet_listed sheet_keeps
    (show Bank.kern ≠ .boot by decide) 0
  refine ⟨items, hitems, (hplace.2.1 8 0x1800).mpr ⟨_, rfl, by decide, rfl⟩, ?_⟩
  exact hplace.2.2 ⟨0xF585, 0xF5B8, .one .kern⟩ (by decide) (by decide) 0x15A0 (by decide) (by decide)

end VO.Build
