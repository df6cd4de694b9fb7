import VideoOlympics.Base.Strip
import VideoOlympics.Console.Session
import VideoOlympics.Relay.Hello

/-! The console's HELLO and the relay's grammar of names. The console asks of a username only how long
    it is; the relay strips it and asks for letters and digits. A username of less than two bytes does
    not even make a frame. -/

namespace VO.Relay

/-! ### Names -/

/-- An ASCII letter or digit. -/
def Plain (b : Byte) : Prop :=
  0x30 ≤ b ∧ b ≤ 0x39 ∨ 0x41 ≤ b ∧ b ≤ 0x5A ∨ 0x61 ≤ b ∧ b ≤ 0x7A

instance : DecidablePred Plain := fun _ => inferInstanceAs (Decidable (_ ∨ _))

/-- Two letters or digits or more, and nothing but spaces around them. -/
def Usable (name : List Byte) : Prop :=
  ∃ m n core, name = List.replicate m 0x20 ++ core ++ List.replicate n 0x20 ∧ 2 ≤ core.length ∧
    ∀ b ∈ core, Plain b

theorem nameOk_plain : ∀ b : Byte, nameOk (decodeByte b).toUpper = decide (Plain b) := by
  decide +kernel

theorem not_pad_plain : ∀ b : Byte, Plain b → ¬ (b = 0x00 ∨ b = 0x20) := by
  decide +kernel

theorem helloName_said (v tv : Byte) (said : List Byte) :
    Server.helloName (v :: tv :: said) =
      (Strip.strip (fun b => decide (b = 0x00 ∨ b = 0x20)) said).map
        fun b => (decodeByte b).toUpper := by
  have hpad : (fun ch => ch == Char.ofNat 0 || ch == ' ') ∘ decodeByte =
      fun b => decide (b = 0x00 ∨ b = 0x20) := funext decodeByte_pad
  simp only [Server.helloName, Strip.strip, List.drop_succ_cons, List.drop_zero, strip, decode_eq,
    List.dropWhile_map, hpad, ← List.map_reverse, List.map_map]
  rfl

/-- What the relay makes of a name without NULs, no longer than eight bytes. -/
theorem goodName_iff {said : List Byte} (hnul : ∀ b ∈ said, b ≠ 0) (hlen : said.length ≤ 8)
    (v tv : Byte) : Server.goodName (Server.helloName (v :: tv :: said)) = true ↔ Usable said := by
  have hgood : ∀ core : List Byte,
      Server.goodName (core.map fun b => (decodeByte b).toUpper) = true ↔
        2 ≤ core.length ∧ core.length ≤ 8 ∧ ∀ b ∈ core, Plain b := by
    intro core
    simp [Server.goodName, nameOk_plain, and_assoc]
  rw [helloName_said, hgood]
  constructor
  · rintro ⟨hshort, -, hplain⟩
    obtain ⟨a, c, hsplit, ha, hc⟩ := Strip.split (fun b : Byte => decide (b = 0x00 ∨ b = 0x20)) said
    have hspaces : ∀ l : List Byte, (∀ b ∈ l, b ∈ said) →
        (∀ b ∈ l, decide (b = 0x00 ∨ b = 0x20) = true) → l = List.replicate l.length 0x20 := by
      intro l hl hpad
      refine List.eq_replicate_iff.mpr ⟨rfl, fun b hb => ?_⟩
      exact (of_decide_eq_true (hpad b hb)).resolve_left (hnul b (hl b hb))
    refine ⟨a.length, c.length, _, ?_, hshort, hplain⟩
    rw [← hspaces a ?_ ha, ← hspaces c ?_ hc]
    · exact hsplit
    · intro b hb
      rw [hsplit]
      exact List.mem_append_right _ hb
    · intro b hb
      rw [hsplit, List.append_assoc]
      exact List.mem_append_left _ hb
  · rintro ⟨m, n, core, rfl, hshort, hplain⟩
    have hspaces : ∀ k, ∀ b ∈ List.replicate k (0x20 : Byte),
        decide (b = 0x00 ∨ b = 0x20) = true := by
      intro k b hb
      rw [List.eq_of_mem_replicate hb]
      rfl
    have hne : core ≠ [] := by
      rintro rfl
      cases hshort
    rw [Strip.strip_append (hspaces m) (hspaces n)
      (fun b hb => decide_eq_false (not_pad_plain b (hplain b hb))) hne]
    refine ⟨hshort, ?_, hplain⟩
    simp only [List.length_append] at hlen
    omega

/-! ### The HELLO a console sends -/

/-- What is written to the socket. -/
def written (r : Regs) : List Byte := r.tx.drop 3

/-- As much is written as there is, the length byte says how much that is, and `on_hello` has nothing
    to say against it. -/
structure Heard (r : Regs) : Prop where
  write : r.word = (written r).length
  frame : ((written r).getD 0 0).toNat = ((written r).drop 1).length
  ftype : (written r).getD 1 0 = tHello
  accepted : ∃ tv name, Server.checkHello ((written r).drop 2) = .ok (tv, name)

/-- The version and the standard will always do. -/
theorem checkHello_iff (b : Build) {said : List Byte} (h : 2 ≤ said.length) :
    (∃ tv name, Server.checkHello (wproto :: b.votvstd :: said) = .ok (tv, name)) ↔
      Server.goodName (Server.helloName (wproto :: b.votvstd :: said)) = true := by
  have hversion : ¬ ((wproto :: b.votvstd :: said).length < 3 ∨
      (wproto :: b.votvstd :: said).head? ≠ some proto) := by
    rintro (hshort | hother)
    · simp only [List.length_cons] at hshort
      omega
    · exact hother rfl
  have hsecam : b.votvstd ≠ tvSecam := by
    rcases b.standard with h | h
    · rw [h]
      decide
    · rw [h]
      decide
  have hknown : ¬ (b.votvstd ≠ tvNtsc ∧ b.votvstd ≠ tvPal) := by
    rintro ⟨hn, hp⟩
    exact b.standard.elim hn hp
  rw [Server.checkHello, if_neg hversion, List.getD_cons_succ, List.getD_cons_zero, if_neg hsecam,
    if_neg hknown]
  split
  · next hgood => exact iff_of_true ⟨_, _, rfl⟩ hgood
  · next hbad => exact iff_of_false (by rintro ⟨tv, name, hok⟩; cases hok) hbad

theorem usable_built (b : Build) : Usable b.cshname := by
  refine ⟨0, 0, b.cshname, by simp, b.short.1, fun x hx => ?_⟩
  rcases b.plain x hx with h | h
  · exact .inl h
  · exact .inr (.inl h)

theorem Usable.length {name : List Byte} (h : Usable name) : 2 ≤ name.length := by
  obtain ⟨m, n, core, rfl, hshort, -⟩ := h
  simp only [List.length_append]
  omega

theorem plain_ne : ∀ b : Byte, Plain b → b ≠ 0 := by
  decide +kernel

/-- The name that is said will do, unless it is a username with something else in it. -/
theorem said_good (b : Build) {name : List Byte} (hnul : ∀ x ∈ name, x ≠ 0)
    (hlong : 2 ≤ name.length) :
    Server.goodName (Server.helloName (wproto :: b.votvstd :: b.said name)) = true ↔
      9 ≤ name.length ∨ Usable name := by
  rw [Build.said]
  split
  · next h =>
    rw [goodName_iff hnul h.2]
    exact ⟨.inr, fun hor => hor.resolve_left fun h9 => absurd (Nat.le_trans h9 h.2) (by decide)⟩
  · next h =>
    refine iff_of_true ((goodName_iff ?_ b.short.2 ..).mpr (usable_built b)) (.inl ?_)
    · intro x hx
      refine plain_ne x ?_
      rcases b.plain x hx with h | h
      · exact .inl h
      · exact .inr (.inl h)
    · omega

theorem toNat_counted (b : Build) (name : List Byte) (k : Byte) (hk : k.toNat < 8) :
    (BitVec.ofNat 8 (b.counted name) + k).toNat = b.counted name + k.toNat := by
  have hcounted : b.counted name ≤ 8 := by
    rw [Build.counted]
    split
    · exact Nat.zero_le 8
    · exact (b.said_length name).2
  rw [BitVec.toNat_add, BitVec.toNat_ofNat]
  omega

/-- Whatever the appkeys hold, and whatever the cartridge was left with: the HELLO a console sends is
    well formed and accepted exactly if its username has nine bytes or more, and is not sent, or is
    two letters or digits or more with nothing but spaces around them. -/
theorem hello_heard_iff (b : Build) (name url : Appkey) (page page' : ℕ → Byte) (c : Cart) :
    Heard (session b name url page page' c).regs ↔ 9 ≤ name.text.length ∨ Usable name.text := by
  have htx := session_tx b name url page page' c
  have hsaid := b.said_length name.text
  have hwire : written (session b name url page page' c).regs =
      (BitVec.ofNat 8 (b.counted name.text) + 3) :: wtHelo :: wproto :: b.votvstd ::
        b.said name.text := by
    rw [written, htx]
    rfl
  have hword : (session b name url page page' c).regs.word = b.counted name.text + 4 := by
    rw [Regs.word, htx]
    exact toNat_counted b name.text 4 (by decide)
  by_cases hshort : name.text.length < 2
  · -- Nothing has been counted, and the name that was built in is streamed.
    have hzero : b.counted name.text = 0 := if_pos hshort
    refine iff_of_false (fun h => ?_) ?_
    · have hwrite := h.write
      rw [hword, hwire, hzero] at hwrite
      simp only [List.length_cons] at hwrite
      omega
    · rintro (h | h)
      · omega
      · have := h.length
        omega
  · have hcounted : b.counted name.text = (b.said name.text).length := if_neg hshort
    rw [← said_good b name.text_ne (Nat.not_lt.mp hshort), ← checkHello_iff b hsaid.1]
    constructor
    · intro h
      have haccepted := h.accepted
      rw [hwire] at haccepted
      exact haccepted
    · intro haccepted
      refine ⟨?_, ?_, ?_, ?_⟩
      · rw [hword, hwire, hcounted]
        simp only [List.length_cons]
      · rw [hwire, List.getD_cons_zero, toNat_counted b name.text 3 (by decide), hcounted]
        rfl
      · rw [hwire]
        rfl
      · rw [hwire]
        exact haccepted

/-- `PLAYER1`, the name a cartridge is built with. -/
def player1 : List Byte := [0x50, 0x4C, 0x41, 0x59, 0x45, 0x52, 0x31]

theorem player1_short : 2 ≤ player1.length ∧ player1.length ≤ 8 := by decide

theorem player1_plain : ∀ b ∈ player1, 0x30 ≤ b ∧ b ≤ 0x39 ∨ 0x41 ≤ b ∧ b ≤ 0x5A := by decide

theorem ntsc_standard : (0 : Byte) = 0 ∨ (0 : Byte) = 1 := .inl rfl

/-- An NTSC cartridge. -/
def ntsc : Build :=
  { votvstd := 0, cshname := player1, uendpt := [], standard := ntsc_standard, short := player1_short,
    plain := player1_plain }

/-- Its session, with nothing in the cartridge and this username. -/
def sayHello (name : Appkey) : Regs :=
  (session ntsc name .unopened (fun _ => 0) (fun _ => 0)
    { regs := ⟨0, 0, 0, [], 0⟩, path := fun _ => [], sel := fpSel0 }).regs

/-- With an empty username four bytes are written of eleven, and a length byte says three; and `A-B`
    is sent as it is, and refused. -/
theorem hello_unheard : ¬ Heard (sayHello (.value [])) ∧
    ¬ Heard (sayHello (.value [0x41, 0x2D, 0x42])) := by
  have hwrite : (sayHello (.value [])).word = 4 ∧
      (written (sayHello (.value []))).length = 11 := by decide +kernel
  have hrefused : Server.checkHello ((written (sayHello (.value [0x41, 0x2D, 0x42]))).drop 2) =
      .error (.badName ['A', '-', 'B']) := by decide +kernel
  refine ⟨fun h => ?_, fun h => ?_⟩
  · have := h.write
    omega
  · obtain ⟨tv, name, hok⟩ := h.accepted
    rw [hrefused] at hok
    cases hok

end VO.Relay
