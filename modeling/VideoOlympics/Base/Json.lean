import Mathlib.Data.List.Basic
import Mathlib.Data.Int.Notation

/-! JSON values, and their text on one line in ASCII: what a standard serialiser makes of them. Strings go
    through a table of escapes, one character at a time. -/

namespace Json

inductive Value where
  | str (s : List Char)
  | int (n : ℤ)
  | list (vs : List Value)
  | dict (kvs : List (List Char × Value))

/-- Four hexadecimal digits, in small letters. -/
def hex4 (n : ℕ) : List Char :=
  [n / 4096 % 16, n / 256 % 16, n / 16 % 16, n % 16].map Nat.digitChar

/-- A code unit that is written as a number. -/
def unit (n : ℕ) : List Char := ['\\', 'u'] ++ hex4 n

/-- One character of a string. What is not printable ASCII becomes one code unit, or two. -/
def escape (ch : Char) : List Char :=
  if ch = '"' ∨ ch = '\\' then ['\\', ch]
  else if ch = Char.ofNat 8 then ['\\', 'b']
  else if ch = Char.ofNat 12 then ['\\', 'f']
  else if ch = '\n' then ['\\', 'n']
  else if ch = '\r' then ['\\', 'r']
  else if ch = '\t' then ['\\', 't']
  else if ' ' ≤ ch ∧ ch ≤ '~' then [ch]
  else if ch.toNat < 0x10000 then unit ch.toNat
  else unit (0xD800 + (ch.toNat - 0x10000) / 0x400) ++ unit (0xDC00 + ch.toNat % 0x400)

def quoted (s : List Char) : List Char := '"' :: (s.flatMap escape ++ ['"'])

mutual

/-- The text of a value, with a blank behind each comma and each colon. -/
def dumps : Value → List Char
  | .str s => quoted s
  | .int n => n.repr.toList
  | .list vs => '[' :: (items vs ++ [']'])
  | .dict kvs => '{' :: (members kvs ++ ['}'])
termination_by structural v => v

def items : List Value → List Char
  | [] => []
  | [v] => dumps v
  | v :: vs => dumps v ++ (", ".toList ++ items vs)
termination_by structural vs => vs

def members : List (List Char × Value) → List Char
  | [] => []
  | [(k, v)] => quoted k ++ (": ".toList ++ dumps v)
  | (k, v) :: kvs => quoted k ++ (": ".toList ++ (dumps v ++ (", ".toList ++ members kvs)))
termination_by structural kvs => kvs

end

example : dumps (.dict [("n".toList, .int (-24)), ("s".toList, .list [.str "a\"\n".toList, .str []])]) =
    "\x7b\"n\": -24, \"s\": [\"a\\\"\\n\", \"\"]\x7d".toList := by decide +kernel

end Json
