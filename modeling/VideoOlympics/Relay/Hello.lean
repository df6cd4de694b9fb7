import VideoOlympics.Relay.Server

/-! What a HELLO comes to: `on_hello` is a verdict on the payload alone, and then what is done about
    it. -/

namespace VO.Relay

/-- One byte, decoded. -/
def decodeByte (b : Byte) : Char := if b.toNat < 128 then Char.ofNat b.toNat else Char.ofNat 0xFFFD

theorem decode_eq (bs : List Byte) : decode bs = bs.map decodeByte := rfl

theorem decodeByte_pad : ∀ b : Byte,
    (decodeByte b == Char.ofNat 0 || decodeByte b == ' ') = decide (b = 0x00 ∨ b = 0x20) := by
  decide +kernel

/-- `encode("utf-8")`. -/
def utf8 (s : List Char) : List Byte :=
  s.flatMap fun ch => (String.utf8EncodeChar ch).map UInt8.toBitVec

theorem utf8_append (s t : List Char) : utf8 (s ++ t) = utf8 s ++ utf8 t := List.flatMap_append

theorem utf8_flatten (ss : List (List Char)) : utf8 ss.flatten = (ss.map utf8).flatten := by
  induction ss with
  | nil => rfl
  | cons s ss ih => rw [List.flatten_cons, utf8_append, ih, List.map_cons, List.flatten_cons]

/-- Why a HELLO is refused. -/
inductive Refusal where
  | version (v : Option Byte)
  | secam
  | standard (tv : Byte)
  | badName (name : Name)
  deriving DecidableEq, Repr

/-- The line of the log that says so. -/
def Refusal.line (host : ℕ) : Refusal → Line
  | .version v => .helloVersion host v
  | .secam => .secam host
  | .standard tv => .standard host tv
  | .badName name => .badName host name

namespace Server

/-- The checks of `on_hello`, and what it has read once they have passed. -/
def checkHello (payload : List Byte) : Except Refusal (Byte × Name) :=
  if payload.length < 3 ∨ payload.head? ≠ some proto then .error (.version payload.head?)
  else if payload.getD 1 0 = tvSecam then .error .secam
  else if payload.getD 1 0 ≠ tvNtsc ∧ payload.getD 1 0 ≠ tvPal then
    .error (.standard (payload.getD 1 0))
  else if goodName (helloName payload) then .ok (payload.getD 1 0, helloName payload)
  else .error (.badName (helloName payload))

/-- A console that speaks another version has not declared its television. -/
def declared (s : Server) (c : ℕ) (payload : List Byte) : Refusal → Server
  | .version _ => s
  | _ => s.upd c fun o => { o with tv := some (payload.getD 1 0) }

/-- What `on_hello` does about it. -/
def greet (s : Server) (k c : ℕ) (payload : List Byte) :
    Except Refusal (Byte × Name) → Except Err Server
  | .error r => .ok (((s.declared c payload r).say (r.line (s.obj c).addr.1)).drop c)
  | .ok (tv, name) => (s.upd c fun o => { o with tv := some tv }).welcome k c tv name

theorem onHello_eq (s : Server) (k c : ℕ) (payload : List Byte) :
    s.onHello k c payload = s.greet k c payload (checkHello payload) := by
  have haddr : ((s.upd c fun o => { o with tv := some (payload.getD 1 0) }).obj c).addr =
      (s.obj c).addr := by
    simp only [upd, Function.update_self]
  rw [onHello, checkHello]
  split
  · rfl
  · dsimp only
    rw [haddr]
    split
    · rfl
    · split
      · rfl
      · split
        · rfl
        · rfl

end Server
end VO.Relay
