import Mathlib.Data.List.TakeWhile
import VideoOlympics.Console.Transport

/-! The session's HELLO. The username is an appkey, read into one of the cartridge's path buffers and
    streamed from there; a console that has none of the right length says the name it was built
    with. The frame's two lengths are computed before the name is streamed, by a test of their own. -/

namespace VO

/-! ### The path buffers -/

def fpRst : Byte := 0
def fpTxraw : Byte := 3
def fpSel0 : Byte := 5
def fpSel1 : Byte := 6
def fpSel3 : Byte := 8

/-- Path buffer 0: the username. -/
def pbName : Byte := fpSel0
/-- Path buffer 1: the server URL. -/
def pbUrl : Byte := fpSel1
def namemin : Byte := 2
def namemax : Byte := 8
def wtHelo : Byte := 0x01
def wproto : Byte := 3

/-- The registers, the four path buffers by their selectors, and the one selected. -/
structure Cart where
  regs : Regs
  path : Byte → List Byte
  sel : Byte

namespace Cart

/-- `STA FNTX`. -/
def fntx (c : Cart) (bs : List Byte) : Cart := { c with regs := c.regs.fntx bs }

/-- `STA FNRSEL+FH_PATHC`: append to the path buffer. -/
def pathc (c : Cart) (a : Byte) : Cart :=
  { c with path := Function.update c.path c.sel (c.path c.sel ++ [a]) }

/-- `STA FNRSEL+FH_PATHO`: act on the path buffer. -/
def patho (c : Cart) (op : Byte) : Cart :=
  if op = fpRst then { c with path := Function.update c.path c.sel [] }
  else if op = fpTxraw then c.fntx (c.path c.sel)
  else if fpSel0 ≤ op ∧ op ≤ fpSel3 then { c with sel := op }
  else c

/-- The selected path buffer's length, or 0. -/
def csplen (c : Cart) : Byte :=
  let fnplnl := BitVec.ofNat 8 (c.path c.sel).length
  let fnplnh := BitVec.ofNat 8 ((c.path c.sel).length / 256)
  if fnplnh ≠ 0 then 0 else fnplnl

end Cart

/-! ### The appkeys -/

/-- What comes of an appkey: it cannot be opened, or not be read, or it is read. -/
inductive Appkey where
  | unopened
  | unread
  | value (content : List Byte)

/-- The reply window: a 16-bit length and the data, and behind that whatever it was painted with. -/
def keyReply (content : List Byte) (page : ℕ → Byte) (k : ℕ) : Byte :=
  ([BitVec.ofNat 8 content.length, BitVec.ofNat 8 (content.length / 256)] ++ content).getD k (page k)

/-- The copy from the window to the path buffer. `x` is a byte, so 256 turns are as good as any
    number. -/
def csakg1 (fnrply : ℕ → Byte) (csdly : Byte) : ℕ → Byte → Cart → Cart
  | 0, _, c => c
  | n + 1, x, c =>
    let a := fnrply (2 + x.toNat)
    if a = 0 then c
    else if x + 1 = csdly then c.pathc a
    else csakg1 fnrply csdly n (x + 1) (c.pathc a)

/-- Read an appkey into a path buffer; the accumulator is 0 if that went well. -/
def csakget (buffer : Byte) (key : Appkey) (page : ℕ → Byte) (c : Cart) : Byte × Cart :=
  let c := (c.patho buffer).patho fpRst
  match key with
  | .unopened => (0xFF, c)
  | .unread => (0xFF, c)
  | .value content =>
    let fnrply := keyReply content page
    if fnrply 1 ≠ 0 then (0xFF, c)
    else if fnrply 0 = 0 then (0xFF, c)
    else (0, csakg1 fnrply (fnrply 0) 256 0 c)

/-! ### HELLO -/

/-- What a cartridge is built with: the television standard, the name and the endpoint. -/
structure Build where
  votvstd : Byte
  cshname : List Byte
  uendpt : List Byte
  standard : votvstd = 0 ∨ votvstd = 1
  short : 2 ≤ cshname.length ∧ cshname.length ≤ 8
  plain : ∀ b ∈ cshname, 0x30 ≤ b ∧ b ≤ 0x39 ∨ 0x41 ≤ b ∧ b ≤ 0x5A

/-- The length of the name. A store leaves the flags alone, so the branch behind the one to `CSDLY`
    goes by the comparison or the load before it. -/
def cshn (cshnlen a : Byte) : Byte :=
  let a := if namemin ≤ a then a else 0
  let (a, z) := if a < namemax + 1 then (a, a == namemax + 1) else (0, true)
  if z then cshnlen else a

/-- Stream the devicespec, from the path buffer or else the one built in. -/
def csurl (b : Build) (c : Cart) : Cart :=
  let c := (c.fntx [0x4E, 0x3A]).patho pbUrl
  if c.csplen ≠ 0 then c.patho fpTxraw
  else ((b.uendpt.takeWhile (· ≠ 0)).take 256).foldl (fun c a => c.fntx [a]) c

/-- Who we are. -/
def cshelo (b : Build) (c : Cart) : Cart :=
  let c := { c with regs := c.regs.begin ncwrite 1 }
  let c := c.patho pbName
  let csdly := cshn (BitVec.ofNat 8 b.cshname.length) c.csplen
  let c := c.fntx [2, csdly + 4, 0]
  let c := c.fntx [csdly + 3, wtHelo, wproto, b.votvstd]
  let c := c.patho pbName
  if namemin ≤ c.csplen ∧ c.csplen < namemax + 1 then c.patho fpTxraw
  else b.cshname.foldl (fun c a => c.fntx [a]) c

/-- The session up to its HELLO: two appkeys, the open and the write. -/
def session (b : Build) (name url : Appkey) (page page' : ℕ → Byte) (c : Cart) : Cart :=
  let c := (csakget pbName name page c).2
  let c := (csakget pbUrl url page' c).2
  let c := { c with regs := c.regs.begin 0x4F 2 }
  cshelo b (csurl b (c.fntx [1, 0x0C, 1, 0]))

/-! ### What is in the buffer -/

/-- The bytes of an appkey that end up in the path buffer: up to the first NUL, if the length is one
    that a name or a URL can have. -/
def Appkey.text : Appkey → List Byte
  | .value content =>
    if content.length % 65536 < 256 then
      (content.take (content.length % 65536)).takeWhile (· ≠ 0)
    else []
  | _ => []

namespace Cart

variable {c : Cart}

/-- The selected path buffer, longer by these bytes. -/
def longer (c : Cart) (bs : List Byte) : Cart :=
  { c with path := Function.update c.path c.sel (c.path c.sel ++ bs) }

theorem longer_nil (c : Cart) : c.longer [] = c := by
  rw [longer, List.append_nil, Function.update_eq_self]

theorem pathc_longer (c : Cart) (a : Byte) (bs : List Byte) :
    (c.pathc a).longer bs = c.longer (a :: bs) := by
  simp only [longer, pathc, Function.update_idem, Function.update_self, List.append_assoc,
    List.singleton_append]

/-- A buffer of at most 255 bytes has a length the console can read. -/
theorem csplen_eq (h : (c.path c.sel).length < 256) :
    c.csplen = BitVec.ofNat 8 (c.path c.sel).length := by
  have hhigh : (c.path c.sel).length / 256 = 0 := Nat.div_eq_of_lt h
  rw [csplen, hhigh]
  rfl

/-- The same, of the username's buffer. -/
theorem csplen_name (h : (c.path pbName).length < 256) (r : Regs) :
    ({ regs := r, path := c.path, sel := pbName } : Cart).csplen =
      BitVec.ofNat 8 (c.path pbName).length :=
  Cart.csplen_eq (c := { regs := r, path := c.path, sel := pbName }) h

theorem patho_rst (c : Cart) :
    c.patho fpRst = { c with path := Function.update c.path c.sel [] } := rfl

theorem patho_txraw (c : Cart) : c.patho fpTxraw = c.fntx (c.path c.sel) := rfl

theorem patho_sel {buffer : Byte} (h : fpSel0 ≤ buffer ∧ buffer ≤ fpSel3) (c : Cart) :
    c.patho buffer = { c with sel := buffer } := by
  have hrst : buffer ≠ fpRst := by
    rintro rfl
    exact absurd h.1 (by decide)
  have htx : buffer ≠ fpTxraw := by
    rintro rfl
    exact absurd h.1 (by decide)
  rw [patho, if_neg hrst, if_neg htx, if_pos h]

theorem foldl_fntx (bs : List Byte) (c : Cart) :
    bs.foldl (fun c a => c.fntx [a]) c = c.fntx bs := by
  induction bs generalizing c with
  | nil => simp [fntx, Regs.fntx]
  | cons a bs ih =>
    rw [List.foldl_cons, ih]
    simp [fntx, Regs.fntx]

end Cart

theorem csakg1_eq {fnrply : ℕ → Byte} {csdly : Byte} {n : ℕ} {x : Byte} {c : Cart}
    (hx : x.toNat < csdly.toNat) (hn : csdly.toNat ≤ x.toNat + n) :
    csakg1 fnrply csdly n x c = c.longer (((List.range' x.toNat (csdly.toNat - x.toNat)).map
      fun k => fnrply (2 + k)).takeWhile (· ≠ 0)) := by
  induction n generalizing x c with
  | zero => omega
  | succ n ih =>
    have hsplit : csdly.toNat - x.toNat = csdly.toNat - (x.toNat + 1) + 1 := by omega
    rw [csakg1, hsplit, List.range'_succ, List.map_cons]
    by_cases hnul : fnrply (2 + x.toNat) = 0
    · rw [if_pos hnul, List.takeWhile_cons_of_neg (by simpa using hnul), Cart.longer_nil]
    · rw [if_neg hnul, List.takeWhile_cons_of_pos (by simpa using hnul), ← Cart.pathc_longer]
      have hnext : (x + 1).toNat = x.toNat + 1 := by
        have := csdly.isLt
        rw [BitVec.toNat_add]
        exact Nat.mod_eq_of_lt (by simp; omega)
      by_cases hlast : x + 1 = csdly
      · rw [if_pos hlast, ← hlast, hnext, Nat.sub_self]
        exact (Cart.longer_nil _).symm
      · have hne : (x + 1).toNat ≠ csdly.toNat := fun h => hlast (BitVec.eq_of_toNat_eq h)
        rw [if_neg hlast, ih (by omega) (by omega), hnext]

/-- The window's data are the appkey's. -/
theorem keyReply_data {content : List Byte} {page : ℕ → Byte} {n : ℕ} (h : n ≤ content.length) :
    (List.range' 0 n).map (fun k => keyReply content page (2 + k)) = content.take n := by
  refine List.ext_getElem (by simp [h]) ?_
  intro k hk hk'
  have hlt : k < content.length := by
    rw [List.length_take] at hk'
    omega
  rw [List.getElem_map, List.getElem_range', List.getElem_take, keyReply, Nat.add_comm 2]
  simp [List.getD, hlt]

/-- Whatever comes of the appkey, the buffer holds its text, and nothing else has changed. -/
theorem csakget_eq {buffer : Byte} (hbuf : fpSel0 ≤ buffer ∧ buffer ≤ fpSel3) (key : Appkey)
    (page : ℕ → Byte) (c : Cart) : (csakget buffer key page c).2 =
      { c with sel := buffer, path := Function.update c.path buffer key.text } := by
  unfold csakget
  rw [Cart.patho_sel hbuf, Cart.patho_rst]
  cases key with
  | unopened => rfl
  | unread => rfl
  | value content =>
    have hlow : keyReply content page 0 = BitVec.ofNat 8 content.length := rfl
    have hhigh : keyReply content page 1 = BitVec.ofNat 8 (content.length / 256) := rfl
    have hhigh' : keyReply content page 1 = 0 ↔ content.length % 65536 < 256 := by
      rw [hhigh, ← BitVec.toNat_inj, BitVec.toNat_ofNat]
      simp
      omega
    dsimp only
    by_cases hlong : keyReply content page 1 ≠ 0
    · rw [if_pos hlong, Appkey.text, if_neg fun h => hlong (hhigh'.mpr h)]
    have hfits := hhigh'.mp (not_not.mp hlong)
    rw [if_neg hlong, Appkey.text, if_pos hfits]
    have hlen : (keyReply content page 0).toNat = content.length % 65536 := by
      rw [hlow, BitVec.toNat_ofNat]
      omega
    by_cases hnone : keyReply content page 0 = 0
    · rw [if_pos hnone]
      have hzero : content.length % 65536 = 0 := by rw [← hlen, hnone]; rfl
      rw [hzero]
      rfl
    · rw [if_neg hnone]
      have hpos : (0 : Byte).toNat < (keyReply content page 0).toNat := by
        refine Nat.pos_of_ne_zero fun h => hnone ?_
        exact BitVec.eq_of_toNat_eq h
      have hturns : (keyReply content page 0).toNat ≤ (0 : Byte).toNat + 256 :=
        Nat.le_of_lt (keyReply content page 0).isLt
      have hdata : (List.range' 0 (content.length % 65536)).map
          (fun k => keyReply content page (2 + k)) = content.take (content.length % 65536) :=
        keyReply_data (Nat.mod_le _ _)
      have hzero : (0 : Byte).toNat = 0 := rfl
      rw [csakg1_eq hpos hturns, hlen, hzero, Nat.sub_zero, hdata]
      simp only [Cart.longer, Function.update_self, Function.update_idem, List.nil_append]

/-! ### What is streamed -/

/-- The name a console says it has. -/
def Build.said (b : Build) (name : List Byte) : List Byte :=
  if 2 ≤ name.length ∧ name.length ≤ 8 then name else b.cshname

/-- The length it goes by. -/
def Build.counted (b : Build) (name : List Byte) : ℕ :=
  if name.length < 2 then 0 else (b.said name).length

theorem Appkey.length_text (key : Appkey) : key.text.length < 256 := by
  cases key with
  | unopened => exact Nat.zero_lt_succ _
  | unread => exact Nat.zero_lt_succ _
  | value content =>
    rw [Appkey.text]
    split
    · next hfits =>
      refine Nat.lt_of_le_of_lt (List.takeWhile_prefix _).length_le ?_
      rw [List.length_take]
      omega
    · exact Nat.zero_lt_succ _

/-- Up to the first NUL there is none. -/
theorem Appkey.text_ne (key : Appkey) : ∀ b ∈ key.text, b ≠ 0 := by
  intro b hb
  cases key with
  | unopened => cases hb
  | unread => cases hb
  | value content =>
    rw [Appkey.text] at hb
    split at hb
    · simpa using List.mem_takeWhile_imp hb
    · cases hb

theorem Build.said_length (b : Build) (name : List Byte) :
    2 ≤ (b.said name).length ∧ (b.said name).length ≤ 8 := by
  rw [Build.said]
  split
  · next h => exact h
  · exact b.short

/-- After a comparison that finds the name too short, the branch that skips the built-in name's length
    is taken all the same. -/
theorem cshn_eq (b : Build) {name : List Byte} (h : name.length < 256) :
    cshn (BitVec.ofNat 8 b.cshname.length) (BitVec.ofNat 8 name.length) =
      BitVec.ofNat 8 (b.counted name) := by
  have hmin : namemin ≤ BitVec.ofNat 8 name.length ↔ 2 ≤ name.length := by
    rw [BitVec.le_def, BitVec.toNat_ofNat, Nat.mod_eq_of_lt h]
    rfl
  have hmax : BitVec.ofNat 8 name.length < namemax + 1 ↔ name.length ≤ 8 := by
    rw [BitVec.lt_def, BitVec.toNat_ofNat, Nat.mod_eq_of_lt h]
    exact Nat.lt_succ_iff
  rw [Build.counted, Build.said]
  by_cases hlow : 2 ≤ name.length
  · by_cases hhigh : name.length ≤ 8
    · have hne : (BitVec.ofNat 8 name.length == namemax + 1) = false :=
        beq_false_of_ne (BitVec.ne_of_lt (hmax.mpr hhigh))
      simp only [cshn, hmin, hmax, hlow, hhigh, hne, if_true, and_self, if_neg (Nat.not_lt.mpr hlow),
        Bool.false_eq_true, if_false]
    · simp only [cshn, hmin, hmax, hlow, hhigh, if_true, if_false, and_false,
        if_neg (Nat.not_lt.mpr hlow)]
  · simp only [cshn, hmin, hlow, if_false, if_pos (Nat.not_le.mp hlow)]
    rfl

/-- The stream of the HELLO: a parameter that says how much is written, and the frame. -/
def Build.stream (b : Build) (name : List Byte) : List Byte :=
  [2, BitVec.ofNat 8 (b.counted name) + 4, 0] ++
    ([BitVec.ofNat 8 (b.counted name) + 3, wtHelo, wproto, b.votvstd] ++ b.said name)

theorem cshelo_tx (b : Build) {c : Cart} (h : (c.path pbName).length < 256) :
    (cshelo b c).regs.tx = b.stream (c.path pbName) := by
  have hsel : fpSel0 ≤ pbName ∧ pbName ≤ fpSel3 := by decide
  have hmin : namemin ≤ BitVec.ofNat 8 (c.path pbName).length ↔ 2 ≤ (c.path pbName).length := by
    rw [BitVec.le_def, BitVec.toNat_ofNat, Nat.mod_eq_of_lt h]
    rfl
  have hmax : BitVec.ofNat 8 (c.path pbName).length < namemax + 1 ↔ (c.path pbName).length ≤ 8 := by
    rw [BitVec.lt_def, BitVec.toNat_ofNat, Nat.mod_eq_of_lt h]
    exact Nat.lt_succ_iff
  unfold cshelo
  simp only [Cart.patho_sel hsel, Cart.foldl_fntx, Cart.patho_txraw]
  simp only [Cart.fntx, Cart.csplen_name h, cshn_eq b h, hmin, hmax]
  rw [Build.stream, Build.said]
  split
  · rfl
  · rfl

/-- Whatever came of the appkeys, and whatever was in the buffers before, the stream is that of the
    username's text. -/
theorem session_tx (b : Build) (name url : Appkey) (page page' : ℕ → Byte) (c : Cart) :
    (session b name url page page' c).regs.tx = b.stream name.text := by
  have hname : fpSel0 ≤ pbName ∧ pbName ≤ fpSel3 := by decide
  have hurl : fpSel0 ≤ pbUrl ∧ pbUrl ≤ fpSel3 := by decide
  have hne : pbName ≠ pbUrl := by decide
  have hpath : ∀ c : Cart, (csurl b c).path = c.path := by
    intro c
    unfold csurl
    simp only [Cart.patho_sel hurl, Cart.foldl_fntx, Cart.patho_txraw]
    split
    · rfl
    · rfl
  unfold session
  simp only [csakget_eq hname, csakget_eq hurl]
  rw [cshelo_tx]
  · rw [hpath]
    simp only [Cart.fntx, Function.update_of_ne hne, Function.update_self]
  · rw [hpath]
    simp only [Cart.fntx, Function.update_of_ne hne, Function.update_self]
    exact name.length_text

end VO
