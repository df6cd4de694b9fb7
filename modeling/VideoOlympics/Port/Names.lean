import VideoOlympics.Port.Relay
import VideoOlympics.Relay.Hello

/-! Names in C are bytes, where the other relay decodes them first. A name that will do is ASCII, so
    it makes no difference; and one that will not do is refused by both. -/

namespace VO.Port
open Relay

/-- The bytes of a name that a client can have. -/
structure Proper (name : List Byte) : Prop where
  length : name.length ≤ 8
  ascii : ∀ b ∈ name, b.toNat < 128

theorem encode_decode {name : List Byte} (h : ∀ b ∈ name, b.toNat < 128) :
    encode (decode name) = name := by
  rw [encode, decode, List.map_map]
  refine (List.map_congr_left fun b hb => ?_).trans (List.map_id name)
  have hb := h b hb
  have hvalid : b.toNat.isValidChar := .inl (by omega)
  simp only [Function.comp_apply, if_pos hb, id_eq]
  rw [Char.ofNat, dif_pos hvalid]
  change BitVec.ofNat 8 b.toNat = b
  rw [BitVec.ofNat_toNat, BitVec.setWidth_eq]

theorem Proper.decode_inj {a b : List Byte} (ha : Proper a) (hb : Proper b)
    (h : decode a = decode b) : a = b := by
  rw [← encode_decode ha.ascii, h, encode_decode hb.ascii]

theorem decodeByte_upper : ∀ b : Byte, (decodeByte b).toUpper = decodeByte (State.upper b) := by
  decide +kernel

theorem nameOk_decodeByte : ∀ b : Byte, nameOk (decodeByte b) = State.charOk b := by
  decide +kernel

theorem charOk_ascii : ∀ b : Byte, State.charOk b = true → b.toNat < 128 := by
  decide +kernel

theorem strip_decode (bs : List Byte) : strip (decode bs) = decode (State.trim bs) := by
  have hpad : (fun ch => ch == Char.ofNat 0 || ch == ' ') ∘ decodeByte =
      fun b => decide (b = 0x00 ∨ b = 0x20) := funext decodeByte_pad
  simp only [strip, State.trim, decode_eq, List.dropWhile_map, hpad, ← List.map_reverse]

/-- What the two read from a HELLO, which is no longer than a frame. -/
theorem helloName_eq {payload : List Byte} (h : payload.length ≤ 199) :
    Server.helloName payload = decode (State.helloName payload) := by
  have hlen : (State.trim (payload.drop 2)).length ≤ 256 := by
    have hdrop : ∀ (p : Byte → Bool) (bs : List Byte), (bs.dropWhile p).length ≤ bs.length :=
      fun p bs => (List.dropWhile_suffix p).length_le
    refine Nat.le_trans (?_ : _ ≤ (payload.drop 2).length) (by rw [List.length_drop]; omega)
    rw [State.trim, List.length_reverse]
    refine Nat.le_trans (hdrop _ _) ?_
    rw [List.length_reverse]
    exact hdrop _ _
  rw [Server.helloName, State.helloName, strip_decode, List.take_of_length_le hlen, decode_eq,
    decode_eq, List.map_map, List.map_map]
  exact List.map_congr_left fun b _ => decodeByte_upper b

theorem goodName_decode (name : List Byte) :
    Server.goodName (decode name) = State.goodName name := by
  have hok : nameOk ∘ decodeByte = State.charOk := funext nameOk_decodeByte
  rw [Server.goodName, State.goodName, decode_eq, List.length_map, List.all_map, hok]

theorem Proper.of_good {name : List Byte} (h : State.goodName name = true) : Proper name := by
  simp only [State.goodName, Bool.and_eq_true, decide_eq_true_eq, List.all_eq_true] at h
  exact ⟨h.1.2, fun b hb => charOk_ascii b (h.2 b hb)⟩

/-! ### Renaming -/

/-- The digit that takes the last place of a name. -/
theorem decode_digit (r : ℕ) :
    decodeByte (BitVec.ofNat 8 (0x30 + r % 10)) = Char.ofNat (48 + r % 10) := by
  have hr : r % 10 < 10 := Nat.mod_lt _ (by decide)
  have hn : (BitVec.ofNat 8 (0x30 + r % 10)).toNat = 48 + r % 10 := by
    rw [BitVec.toNat_ofNat]
    omega
  rw [decodeByte, hn, if_pos (by omega)]

theorem Proper.renamed {name : List Byte} (h : Proper name) (r : ℕ) :
    Proper (name.take 7 ++ [BitVec.ofNat 8 (0x30 + r % 10)]) where
  length := by
    rw [List.length_append, List.length_take, List.length_singleton]
    omega
  ascii b hb := by
    rcases List.mem_append.mp hb with hb | hb
    · exact h.ascii b (List.mem_of_mem_take hb)
    · rw [List.mem_singleton.mp hb, BitVec.toNat_ofNat]
      omega

theorem nameTaken_iff {byName : List Entry} {name : List Byte} :
    State.nameTaken byName name = false ↔ ∀ e ∈ byName, e.name ≠ name := by
  simp [State.nameTaken]

/-- With the same names taken and the same draws, the two come to the same name. -/
theorem rename_eq {names : List (Name × ℕ)} {byName : List Entry}
    (hfree : ∀ name, Proper name →
      ((names.lookup (decode name)).isNone ↔ State.nameTaken byName name = false)) :
    ∀ {k : ℕ} {name : List Byte} {random random' : ℕ → ℕ} {name' : Name}, Proper name →
      Server.rename names k (decode name) random = some (name', random') →
      ∃ name'', Proper name'' ∧ name' = decode name'' ∧ State.nameTaken byName name'' = false ∧
        State.rename byName k name random = (name'', true, random')
  | k, name, random, random', name', hname, h => by
      unfold Server.rename at h
      unfold State.rename
      split at h
      · next hnone =>
        have htaken := (hfree name hname).mp hnone
        obtain ⟨rfl, rfl⟩ := Prod.mk.inj (Option.some.inj h)
        exact ⟨name, hname, rfl, htaken, by rw [if_pos htaken]⟩
      · next hsome =>
        rw [if_neg fun htaken => hsome ((hfree name hname).mpr htaken)]
        cases k with
        | zero => cases h
        | succ k =>
          refine rename_eq hfree (hname.renamed (random 0)) ?_
          rw [decode_eq, List.map_append, List.map_take, List.map_singleton, decode_digit]
          exact h

/-! ### What a HELLO comes to -/

namespace State

/-- The checks of the other `on_hello`. -/
def checkHello (payload : List Byte) : Except Refusal (Byte × List Byte) :=
  if payload.length < 3 ∨ payload.head? ≠ some proto then .error (.version payload.head?)
  else if payload.getD 1 0 = tvSecam then .error .secam
  else if payload.getD 1 0 ≠ tvNtsc ∧ payload.getD 1 0 ≠ tvPal then
    .error (.standard (payload.getD 1 0))
  else if goodName (helloName payload) then .ok (payload.getD 1 0, helloName payload)
  else .error (.badName (decode (helloName payload)))

def declared (s : State) (i : Index) (payload : List Byte) : Refusal → State
  | .version _ => s
  | _ => s.upd i fun c => { c with tv := some (payload.getD 1 0) }

def greet (s : State) (i : Index) (payload : List Byte) :
    Except Refusal (Byte × List Byte) → State
  | .error r => ((s.declared i payload r).say (.said (r.line (s.clients i).addr.1))).drop i
  | .ok (tv, name) => (s.upd i fun c => { c with tv := some tv }).welcome i tv name

theorem onHello_eq (s : State) (i : Index) (payload : List Byte) :
    s.onHello i payload = s.greet i payload (checkHello payload) := by
  have haddr : ((s.upd i fun c => { c with tv := some (payload.getD 1 0) }).clients i).addr =
      (s.clients i).addr := by
    simp only [upd, Function.update_self]
  rw [onHello, checkHello]
  split
  · rfl
  · dsimp only
    rw [haddr]
    split
    · rfl
    · split
      · rfl
      · split
        · rfl
        · rfl

end State

/-- The two come to one verdict, and read one name. -/
theorem checkHello_decode {payload : List Byte} (h : payload.length ≤ 199) :
    Server.checkHello payload =
      (State.checkHello payload).map fun x => (x.1, decode x.2) := by
  rw [Server.checkHello, State.checkHello, helloName_eq h, goodName_decode]
  split
  · rfl
  · split
    · rfl
    · split
      · rfl
      · split
        · rfl
        · rfl

theorem checkHello_good {payload name : List Byte} {tv : Byte}
    (h : State.checkHello payload = .ok (tv, name)) : State.goodName name = true := by
  rw [State.checkHello] at h
  split at h
  · cases h
  · split at h
    · cases h
    · split at h
      · cases h
      · split at h
        · next hgood =>
          obtain ⟨-, rfl⟩ := Prod.mk.inj (Except.ok.inj h)
          exact hgood
        · cases h

/-- Take any HELLO that fits a frame, and any states of the two relays. Either both refuse it for the
    same reason, and drop its client; or both accept it, with the same standard and the same name,
    which is one that will do. -/
theorem hello_decided {payload : List Byte} (h : payload.length ≤ 199) :
    ∃ v : Except Refusal (Byte × List Byte),
      (∀ (s : Server) (k c : ℕ),
        s.onHello k c payload = s.greet k c payload (v.map fun x => (x.1, decode x.2))) ∧
      (∀ (s : State) (i : Index), s.onHello i payload = s.greet i payload v) ∧
      ∀ tv name, v = .ok (tv, name) → Server.goodName (decode name) = true ∧
        State.goodName name = true := by
  refine ⟨State.checkHello payload, ?_, fun s i => s.onHello_eq i payload, ?_⟩
  · intro s k c
    rw [Server.onHello_eq, checkHello_decode h]
  · intro tv name hok
    have hgood := checkHello_good hok
    exact ⟨(goodName_decode name).trans hgood, hgood⟩

/-- A name in small letters, with padding before it and behind it. -/
def paddedHello : List Byte := [proto, tvPal, 0x20, 0x00, 0x61, 0x6C, 0x39, 0x00]

theorem hello_decided_padded : paddedHello.length ≤ 199 ∧ ∃ v : Except Refusal (Byte × List Byte),
    (∀ (s : Server) (k c : ℕ), s.onHello k c paddedHello =
      s.greet k c paddedHello (v.map fun x => (x.1, decode x.2))) ∧
    (∀ (s : State) (i : Index), s.onHello i paddedHello = s.greet i paddedHello v) ∧
    ∀ tv name, v = .ok (tv, name) → Server.goodName (decode name) = true ∧
      State.goodName name = true :=
  ⟨by decide, hello_decided (by decide)⟩

end VO.Port
