import VideoOlympics.Base.Scratch
import VideoOlympics.Port.Names

/-! The name that would not do, as the two relays write it to the log. Python quotes a string as its
    source would; C does so byte by byte, into a scratch buffer that is long enough for bytes that are
    not ASCII, and not for as many control characters. -/

namespace VO.Relay

/-- The quote `repr` puts around a string: a single one, unless there is one in it and no double one. -/
def quoteOf (name : Name) : Char := if '\'' ∈ name ∧ '"' ∉ name then '"' else '\''

/-- A hexadecimal digit, in small letters. -/
def hexDigit (n : ℕ) : Char := if n < 10 then Char.ofNat (48 + n) else Char.ofNat (87 + n)

/-- One character in `repr`. Of those `decode` gives, all that are not control characters print. -/
def reprChar (q ch : Char) : List Char :=
  if ch = q ∨ ch = '\\' then ['\\', ch]
  else if ch = '\t' then ['\\', 't']
  else if ch = '\n' then ['\\', 'n']
  else if ch = '\r' then ['\\', 'r']
  else if ch < ' ' ∨ ch = Char.ofNat 0x7F then
    ['\\', 'x', hexDigit (ch.toNat / 16), hexDigit (ch.toNat % 16)]
  else [ch]

/-- `repr`. -/
def reprOf (name : Name) : List Char :=
  [quoteOf name] ++ name.flatMap (reprChar (quoteOf name)) ++ [quoteOf name]

end VO.Relay

namespace VO.Port
open Relay

/-- `sizeof b`. -/
def reprSize : ℕ := 640

/-- Which quote is used. -/
def quote (s : List Byte) : Byte := if 0x27 ∈ s then (if 0x22 ∈ s then 0x27 else 0x22) else 0x27

/-- A digit of `%02x`. -/
def hexByte (n : Byte) : Byte := if n.toNat < 10 then 0x30 + n else 0x57 + n

/-- What one turn of the loop writes. -/
def reprPiece (q ch : Byte) : List Byte :=
  if 0x80 ≤ ch then [0xEF, 0xBF, 0xBD]
  else if ch = q ∨ ch = 0x5C then [0x5C, ch]
  else if ch = 0x09 then [0x5C, 0x74]
  else if ch = 0x0A then [0x5C, 0x6E]
  else if ch = 0x0D then [0x5C, 0x72]
  else if ch < 0x20 ∨ ch = 0x7F then [0x5C, 0x78, hexByte (ch >>> 4), hexByte (ch &&& 0x0F)]
  else [ch]

/-- `py_repr`: what it leaves in its buffer, in front of the NUL, if no write is out of bounds. -/
def pyRepr (s : List Byte) : Option (List Byte) := do
  let q := quote s
  let b ← Scratch.write reprSize [] [q]
  let b ← Scratch.fill reprSize (reprSize - 8) (reprPiece q) s b
  let b ← Scratch.write reprSize b [q]
  let _ ← Scratch.write reprSize b [0]
  return b

/-- How many bytes a character takes: three where it is not ASCII, four where it is a control character
    without a letter of its own, two where it is escaped by another, and one everywhere else. -/
def reprWidth (q ch : Byte) : ℕ :=
  if 0x80 ≤ ch then 3
  else if ch = q ∨ ch = 0x5C ∨ ch = 0x09 ∨ ch = 0x0A ∨ ch = 0x0D then 2
  else if ch < 0x20 ∨ ch = 0x7F then 4
  else 1

theorem reprPiece_length (q ch : Byte) : (reprPiece q ch).length = reprWidth q ch := by
  rw [reprPiece, reprWidth]
  split
  · rfl
  · by_cases hq : ch = q ∨ ch = 0x5C
    · rw [if_pos hq, if_pos (by tauto)]
      rfl
    · rw [if_neg hq]
      grind

theorem quote_cases (s : List Byte) : quote s = 0x27 ∨ quote s = 0x22 := by
  rw [quote]
  split
  · split
    · exact .inl rfl
    · exact .inr rfl
  · exact .inl rfl

/-- Byte for byte, the two write the same. -/
theorem reprPiece_utf8 : ∀ q : Byte, q = 0x27 ∨ q = 0x22 → ∀ ch : Byte,
    reprPiece q ch = utf8 (reprChar (decodeByte q) (decodeByte ch)) := by
  have hboth : ∀ ch : Byte,
      reprPiece 0x27 ch = utf8 (reprChar (decodeByte 0x27) (decodeByte ch)) ∧
        reprPiece 0x22 ch = utf8 (reprChar (decodeByte 0x22) (decodeByte ch)) := by
    decide +kernel
  rintro q (rfl | rfl) ch
  · exact (hboth ch).1
  · exact (hboth ch).2

theorem decodeByte_quotes : ∀ b : Byte,
    (decodeByte b = '\'' ↔ b = 0x27) ∧ (decodeByte b = '"' ↔ b = 0x22) := by
  decide +kernel

theorem quoteOf_decode (s : List Byte) : quoteOf (decode s) = decodeByte (quote s) := by
  have hsingle : '\'' ∈ decode s ↔ 0x27 ∈ s := by
    rw [decode_eq, List.mem_map]
    exact ⟨fun ⟨b, hb, h⟩ => (decodeByte_quotes b).1.mp h ▸ hb, fun h => ⟨_, h, rfl⟩⟩
  have hdouble : '"' ∈ decode s ↔ 0x22 ∈ s := by
    rw [decode_eq, List.mem_map]
    exact ⟨fun ⟨b, hb, h⟩ => (decodeByte_quotes b).2.mp h ▸ hb, fun h => ⟨_, h, rfl⟩⟩
  simp only [quoteOf, quote, hsingle, hdouble]
  by_cases hs : (0x27 : Byte) ∈ s
  · by_cases hd : (0x22 : Byte) ∈ s
    · simp only [hs, hd, not_true_eq_false, and_false, if_true, if_false]
      rfl
    · simp only [hs, hd, not_false_eq_true, and_true, if_true, if_false]
      rfl
  · simp only [hs, false_and, if_false]
    rfl

theorem utf8_quote (s : List Byte) : utf8 [decodeByte (quote s)] = [quote s] := by
  rcases quote_cases s with h | h
  · rw [h]
    rfl
  · rw [h]
    rfl

/-- What Python prints, in bytes. -/
theorem utf8_repr (s : List Byte) : utf8 (reprOf (decode s)) =
    [quote s] ++ s.flatMap (reprPiece (quote s)) ++ [quote s] := by
  have hbody : utf8 ((decode s).flatMap (reprChar (decodeByte (quote s)))) =
      s.flatMap (reprPiece (quote s)) := by
    rw [utf8, decode_eq, List.flatMap_map, List.flatMap_assoc]
    exact List.flatMap_congr fun ch _ => (reprPiece_utf8 _ (quote_cases s) ch).symm
  rw [reprOf, quoteOf_decode, utf8_append, utf8_append, utf8_quote, hbody]

theorem reprWidth_bounds (q ch : Byte) : 0 < reprWidth q ch ∧ reprWidth q ch ≤ 4 := by
  rw [reprWidth]
  split
  · decide
  · split
    · decide
    · split
      · decide
      · decide

theorem flatMap_length (q : Byte) (s : List Byte) :
    (s.flatMap (reprPiece q)).length = (s.map (reprWidth q)).sum := by
  rw [List.length_flatMap]
  exact congrArg List.sum (List.map_congr_left fun ch _ => reprPiece_length q ch)

/-- Whatever the string, no write is out of bounds; and what is in the buffer at the end is what Python
    prints just when the quote, and all its characters but the last, take fewer than 632 bytes. -/
theorem pyRepr_spec (s : List Byte) : ∃ out, pyRepr s = some out ∧ out.length < reprSize ∧
    (out = utf8 (reprOf (decode s)) ↔ 1 + (s.dropLast.map (reprWidth (quote s))).sum < reprSize - 8) := by
  have hpos : ∀ ch, 0 < (reprPiece (quote s) ch).length := fun ch => by
    rw [reprPiece_length]
    exact (reprWidth_bounds _ ch).1
  have hpiece : ∀ ch, (reprPiece (quote s) ch).length ≤ 4 := fun ch => by
    rw [reprPiece_length]
    exact (reprWidth_bounds _ ch).2
  have hroom : reprSize - 8 + 4 ≤ reprSize + 1 := by decide
  have hwhole : Scratch.fill reprSize (reprSize - 8) (reprPiece (quote s)) s [quote s] =
      some ([quote s] ++ s.flatMap (reprPiece (quote s))) ↔ s = [] ∨
        [quote s].length + (s.dropLast.flatMap (reprPiece (quote s))).length < reprSize - 8 :=
    Scratch.fill_whole_iff hpos hpiece hroom
  obtain ⟨b, hb, hlen⟩ : ∃ b, Scratch.fill reprSize (reprSize - 8) (reprPiece (quote s)) s [quote s] =
      some b ∧ b.length < reprSize - 8 + 4 :=
    Scratch.fill_in_bounds hpiece hroom (by rw [List.length_singleton]; decide)
  have hsize : reprSize - 8 + 4 + 2 ≤ reprSize := by decide
  have hquote : Scratch.write reprSize [] [quote s] = some [quote s] := rfl
  have hend : Scratch.write reprSize b [quote s] = some (b ++ [quote s]) :=
    Scratch.write_some (by simp only [List.length_singleton]; omega)
  have hnul : Scratch.write reprSize (b ++ [quote s]) [0] = some (b ++ [quote s] ++ [0]) :=
    Scratch.write_some (by simp only [List.length_append, List.length_singleton]; omega)
  refine ⟨b ++ [quote s], ?_, ?_, ?_⟩
  · simp only [pyRepr, hquote, hb, hend, hnul, Option.bind_eq_bind, Option.bind_some]
    rfl
  · rw [List.length_append, List.length_singleton]
    omega
  · rw [utf8_repr, List.append_left_inj, ← Option.some.injEq, ← hb, hwhole, flatMap_length]
    constructor
    · rintro (rfl | h)
      · decide
      · exact h
    · exact fun h => .inr h

/-- Take any HELLO, and its name if that will not do. What C writes of it to the log stays within its
    buffer; and it is what Python writes, in bytes, just when the quote and all characters of the name but the last take
    fewer than 632 bytes: three each where they are not ASCII, two where they are escaped by a letter or
    by themselves, four where they are other control characters, and one everywhere else. -/
theorem repr_agrees_iff {payload : List Byte} (h : payload.length ≤ 199) :
    ∃ out, pyRepr (State.helloName payload) = some out ∧ out.length < reprSize ∧
      (out = utf8 (reprOf (Server.helloName payload)) ↔
        1 + ((State.helloName payload).dropLast.map
          (reprWidth (quote (State.helloName payload)))).sum < reprSize - 8) := by
  rw [helloName_eq h]
  exact pyRepr_spec _

/-- A name of both quotes, a backslash, control characters and one that is not ASCII. -/
def motleyHello : List Byte := [proto, tvNtsc, 0x61, 0x27, 0x22, 0x5C, 0x09, 0x01, 0x7F, 0xE9]

theorem repr_agrees_iff_motley : pyRepr (State.helloName motleyHello) =
    some (utf8 (reprOf (Server.helloName motleyHello))) := by
  have hshort : motleyHello.length ≤ 199 := by decide
  obtain ⟨out, hout, -, hiff⟩ := repr_agrees_iff hshort
  rw [hout, hiff.mpr (by decide +kernel)]

/-- A name of as many control characters as a frame has room for. -/
theorem repr_truncates :
    let payload : List Byte := [proto, tvNtsc] ++ List.replicate 197 0x01
    payload.length ≤ 199 ∧ State.goodName (State.helloName payload) = false ∧
      pyRepr (State.helloName payload) ≠ some (utf8 (reprOf (Server.helloName payload))) := by
  decide +kernel

end VO.Port
