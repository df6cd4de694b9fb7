import VideoOlympics.Lockstep.Link

/-! Where every byte of a match is. What one console has written is what the other has READ, what
    waits in its inbox, what is on the wire and what its own cartridge has not sent yet, in that
    order; and each state of the network machine stands in one known relation to its transaction and
    to the batch it is consuming. -/

namespace VO

/-! ### The stream of records -/

/-- The bytes of a list of records. -/
def flat (rs : List Rec) : List Byte := rs.flatMap Rec.bytes

/-- Every record is sixteen bytes. -/
def Framed (rs : List Rec) : Prop := ∀ r ∈ rs, r.bytes.length = 16

theorem Sound.framed {s : Solo} (h : Sound s) : Framed s.tape.sent := by
  intro r hr
  rw [(h.sent r hr).2.2]
  exact length_recordBytes ..

theorem length_flat {rs : List Rec} (h : Framed rs) : (flat rs).length = 16 * rs.length := by
  induction rs with
  | nil => rfl
  | cons r rs ih =>
    have hr : r.bytes.length = 16 := h r List.mem_cons_self
    have hrs := ih fun x hx => h x (List.mem_cons_of_mem r hx)
    rw [flat] at hrs ⊢
    rw [List.flatMap_cons, List.length_append, hr, hrs, List.length_cons]
    omega

theorem flat_append (rs qs : List Rec) : flat (rs ++ qs) = flat rs ++ flat qs :=
  List.flatMap_append

/-- Byte `k` of record `n`. -/
theorem getD_flat {rs : List Rec} (h : Framed rs) {n : ℕ} {r : Rec} (hr : rs[n]? = some r) {k : ℕ}
    (hk : k < 16) : (flat rs).getD (16 * n + k) 0 = r.bytes.getD k 0 :=
  getD_records h hr hk

/-- The stamp of the last of the first `n` records, and where the watermark starts before any. -/
def mark (rs : List Rec) : ℕ → ℤ
  | 0 => -2
  | n + 1 => (rs[n]?.map Rec.stamp).getD (-2)

theorem mark_append {rs qs : List Rec} {n : ℕ} (h : n ≤ rs.length) :
    mark (rs ++ qs) n = mark rs n := by
  cases n with
  | zero => rfl
  | succ n => rw [mark, mark, List.getElem?_append_left (by omega)]

theorem mark_succ {rs : List Rec} {n : ℕ} {r : Rec} (h : rs[n]? = some r) :
    mark rs (n + 1) = r.stamp := by
  rw [mark, h]; rfl

/-! ### The invariant -/

/-- The cartridge has answered whatever the console launched. -/
def Station.Answered (x : Station) : Prop := x.mail.fnacks = x.solo.regs.seq

instance (x : Station) : Decidable x.Answered := inferInstanceAs (Decidable (_ = _))

/-- What the console has committed and its cartridge has not yet put on the wire. -/
def Station.pending (x : Station) : List Byte :=
  if x.solo.con.vonst = .wack ∧ ¬x.Answered then x.solo.regs.tx.drop 3 else []

/-- The peer's stream, from the first byte this console has not READ. -/
structure Flow (x y : Station) : Prop where
  got_le : x.got ≤ y.sent.length
  stream : x.inbox ++ x.wire ++ y.pending = (flat y.sent).drop (16 * x.got)

/-- No batch is open, and the watermark is the last record's stamp. -/
def Station.Clear (theirs : List Rec) (x : Station) : Prop :=
  x.base = x.got ∧ x.wat = mark theirs x.got

/-- READ asks for `k` whole records, all of them in the inbox. -/
def Station.Asks (x : Station) : Prop :=
  ∃ k ≥ 1, k ≤ 15 ∧ x.solo.con.vordn = BitVec.ofNat 8 (16 * k) ∧ 16 * k ≤ x.inbox.length

/-- A batch with `j` records left: they are the oldest ones, each showing in the reply window, and
    the watermark jumped to the newest one with the first step. -/
structure Station.Batch (theirs : List Rec) (x : Station) (j : ℕ) : Prop where
  left : x.base + j ≤ x.got
  size : x.got ≤ x.base + 15
  shows : ∀ n < j, ∃ r, theirs[x.base + n]? = some r ∧ Shows x.mail n r.bytes
  wat : x.wat = if x.base + j = x.got then mark theirs x.base else mark theirs x.got

theorem Station.Batch.le {theirs : List Rec} {x : Station} {j : ℕ} (h : x.Batch theirs j) : j ≤ 15 := by
  have hleft := h.left
  have hsize := h.size
  omega

/-- Where the network machine stands with its transaction, its batch and its watermark. -/
def Transit (theirs : List Rec) (x : Station) : Prop :=
  match x.solo.con.vonst with
  | .wiss => x.Answered ∧ x.Clear theirs
  | .wack => x.solo.con.voseq = x.solo.regs.seq ∧ x.Clear theirs ∧
      if x.Answered then x.mail.fnerr = 0
      else x.solo.regs.cmd = ncwrite ∧ x.solo.regs.word = 16 ∧ (x.solo.regs.tx.drop 3).length = 16
  | .siss => x.Answered ∧ x.Clear theirs
  | .sack => x.solo.con.voseq = x.solo.regs.seq ∧ x.Clear theirs ∧
      if x.Answered then x.mail.fnerr = 0 ∧ x.mail.fnrply 3 = 1 ∧
        (x.mail.fnrply 0).toNat + 256 * (x.mail.fnrply 1).toNat ≤ x.inbox.length
      else x.solo.regs.cmd = ncstat
  | .riss => x.Answered ∧ x.Clear theirs ∧ x.Asks
  | .rack => x.solo.con.voseq = x.solo.regs.seq ∧
      if x.Answered then x.mail.fnerr = 0 ∧
        ∃ k, x.base + k = x.got ∧ x.mail.fnrxlo = BitVec.ofNat 8 (16 * k) ∧ x.Batch theirs k
      else x.Clear theirs ∧ x.solo.regs.cmd = ncread ∧
        x.solo.regs.word = x.solo.con.vordn.toNat ∧ x.Asks
  | .cons => x.Answered ∧ ∃ j, x.solo.con.vordn = BitVec.ofNat 8 j ∧ x.Batch theirs j
  | .idle | .fail => False

/-- Both halves, for what `y` writes and `x` reads. -/
structure Served (x y : Station) : Prop where
  flow : Flow x y
  transit : Transit y.sent x

/-! ### Steps that leave the transaction alone -/

/-- The console's transaction and batch are as they were, with no less in the inbox. -/
structure SameTransit (x x' : Station) : Prop where
  vonst : x'.solo.con.vonst = x.solo.con.vonst
  voseq : x'.solo.con.voseq = x.solo.con.voseq
  vordn : x'.solo.con.vordn = x.solo.con.vordn
  regs : x'.solo.regs = x.solo.regs
  mail : x'.mail = x.mail
  base : x'.base = x.base
  got : x'.got = x.got
  wat : x'.wat = x.wat
  inbox : x.inbox.length ≤ x'.inbox.length

theorem SameTransit.refl (x : Station) : SameTransit x x :=
  ⟨rfl, rfl, rfl, rfl, rfl, rfl, rfl, rfl, le_refl _⟩

section
variable {x x' : Station} {rs : List Rec}

theorem SameTransit.answered (k : SameTransit x x') : x'.Answered ↔ x.Answered := by
  rw [Station.Answered, Station.Answered, k.mail, k.regs]

theorem SameTransit.pending (k : SameTransit x x') : x'.pending = x.pending := by
  simp only [Station.pending, k.vonst, k.regs, k.answered]

theorem SameTransit.clear (k : SameTransit x x') (hgot : x.got ≤ rs.length) (qs : List Rec)
    (h : x.Clear rs) : x'.Clear (rs ++ qs) := by
  refine ⟨k.base.trans (h.1.trans k.got.symm), ?_⟩
  rw [k.wat, k.got, mark_append hgot]
  exact h.2

theorem SameTransit.asks (k : SameTransit x x') (h : x.Asks) : x'.Asks := by
  obtain ⟨n, hlo, hhi, hv, hin⟩ := h
  exact ⟨n, hlo, hhi, k.vordn.trans hv, hin.trans k.inbox⟩

theorem SameTransit.batch (k : SameTransit x x') (hgot : x.got ≤ rs.length) (qs : List Rec) {j : ℕ}
    (h : x.Batch rs j) : x'.Batch (rs ++ qs) j := by
  have hl := h.left
  constructor
  · rw [k.base, k.got]; exact hl
  · rw [k.base, k.got]; exact h.size
  · intro n hn
    obtain ⟨r, hr, hshow⟩ := h.shows n hn
    refine ⟨r, ?_, k.mail ▸ hshow⟩
    rw [k.base, List.getElem?_append_left (by omega)]
    exact hr
  · rw [k.wat, k.base, k.got, mark_append (by omega), mark_append hgot]
    exact h.wat

/-- A console whose transaction is left alone stands where it stood, however much more the peer has
    written. -/
theorem Transit.same (h : Transit rs x) (k : SameTransit x x') (hgot : x.got ≤ rs.length)
    (qs : List Rec) : Transit (rs ++ qs) x' := by
  rw [Transit] at h ⊢
  rw [k.vonst]
  cases hst : x.solo.con.vonst <;> simp only [hst] at h ⊢
  case wiss | siss => exact ⟨k.answered.mpr h.1, k.clear hgot qs h.2⟩
  case wack =>
    obtain ⟨hseq, hclear, hrest⟩ := h
    refine ⟨by rw [k.voseq, k.regs, hseq], k.clear hgot qs hclear, ?_⟩
    simp only [k.answered, k.mail, k.regs]
    exact hrest
  case sack =>
    obtain ⟨hseq, hclear, hrest⟩ := h
    refine ⟨by rw [k.voseq, k.regs, hseq], k.clear hgot qs hclear, ?_⟩
    simp only [k.answered, k.mail, k.regs]
    split at hrest
    · obtain ⟨herr, hconn, havail⟩ := hrest
      rw [if_pos ‹_›]
      exact ⟨herr, hconn, havail.trans k.inbox⟩
    · rw [if_neg ‹_›]
      exact hrest
  case riss => exact ⟨k.answered.mpr h.1, k.clear hgot qs h.2.1, k.asks h.2.2⟩
  case rack =>
    obtain ⟨hseq, hrest⟩ := h
    refine ⟨by rw [k.voseq, k.regs, hseq], ?_⟩
    simp only [k.answered, k.mail, k.regs]
    split at hrest
    · obtain ⟨herr, n, hn, hlo, hb⟩ := hrest
      rw [if_pos ‹_›]
      exact ⟨herr, n, by rw [k.base, k.got, hn], hlo, k.batch hgot qs hb⟩
    · obtain ⟨hclear, hcmd, hword, hasks⟩ := hrest
      rw [if_neg ‹_›, k.vordn]
      exact ⟨k.clear hgot qs hclear, hcmd, hword, k.asks hasks⟩
  case cons =>
    obtain ⟨ha, j, hv, hb⟩ := h
    exact ⟨k.answered.mpr ha, j, k.vordn.trans hv, k.batch hgot qs hb⟩

end

end VO
