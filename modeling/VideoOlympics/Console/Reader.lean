import VideoOlympics.Base.Chunks
import VideoOlympics.Console.Immutable

/-! The console's frame reader. Whatever arrives waits at the cartridge; STATUS says how much, READ
    takes whole frames of it into the reply window, and CONSUME hands them over one a step, the last
    first. Any answer repaints the window, so it must hold for as long as a batch lasts. -/

namespace VO

/-! ### The cartridge -/

/-- A window that begins with these bytes, whatever follows them. -/
def showing (bs : List Byte) (page : ℕ → Byte) (k : ℕ) : Byte :=
  if k < bs.length then bs.getD k 0 else page k

/-- A STATUS reply: a 16-bit count and two status bytes. -/
def statusBytes (n : ℕ) (link dev : Byte) : List Byte :=
  [BitVec.ofNat 8 n, BitVec.ofNat 8 (n / 256), link, dev]

/-- A console with its cartridge, and what has arrived and not been READ. The rest is the onlooker's:
    everything that has arrived, the last count STATUS reported, the last READ's reply, and the records
    handed to `VOCO1`, the latest last. -/
structure Reader where
  con : Console
  regs : Regs
  mail : Mail
  inbox : List Byte
  arrived : List Byte
  reported : ℕ
  reply : List Byte
  handed : List (List Byte)

namespace Reader

/-- The sixteen bytes that `VOCO1` finds at its index. -/
def record (s : Reader) : List Byte := (List.range 16).map (s.mail.at (recAt (s.con.vordn - 1)))

/-- A micro-step. -/
def micro (s : Reader) : Reader :=
  { s with
    con := (vonstep s.mail s.con s.regs).1
    regs := (vonstep s.mail s.con s.regs).2
    handed := if s.con.vonst = .cons ∧ s.con.vordn ≠ 0 then s.handed ++ [s.record] else s.handed }

/-- The cartridge answers. A WRITE may fail, and so may a STATUS; a READ gets the bytes it asks for.
    `page` is what else the window is painted with. -/
def answer (err link dev : Byte) (page : ℕ → Byte) (s : Reader) : Reader :=
  if s.regs.cmd = ncread then
    let bs := s.inbox.take s.regs.word
    { s with
      mail := { fnacks := s.regs.seq, fnerr := 0, fnrply := showing bs page,
                fnrxlo := BitVec.ofNat 8 bs.length }
      inbox := s.inbox.drop s.regs.word, reply := bs }
  else if s.regs.cmd = ncstat then
    let n := min s.inbox.length 0xFFFF
    { s with
      mail := { fnacks := s.regs.seq, fnerr := err, fnrply := showing (statusBytes n link dev) page,
                fnrxlo := 4 }
      reported := n }
  else { s with mail := { fnacks := s.regs.seq, fnerr := err, fnrply := page, fnrxlo := 0 } }

/-- Bytes arrive. -/
def arrive (bs : List Byte) (s : Reader) : Reader :=
  { s with inbox := s.inbox ++ bs, arrived := s.arrived ++ bs }

/-- A console at the handover. -/
def start (s : Solo) (m : Mail) : Reader :=
  { con := s.con, regs := s.regs, mail := m, inbox := [], arrived := [], reported := 0, reply := [],
    handed := [] }

end Reader

inductive ReaderEv where
  | gate (hw : Hw) (sim : Sim)
  | micro
  | answer (err link dev : Byte) (page : ℕ → Byte)
  | arrive (bs : List Byte)

def Reader.step (s : Reader) : ReaderEv → Option Reader
  | .gate hw sim =>
    if s.con.bank = .game then some { s with con := frame hw sim s.con } else none
  | .micro => if s.con.bank = .game then some s.micro else none
  | .answer err link dev page =>
    if s.regs.seq = s.mail.fnacks then none else some (s.answer err link dev page)
  | .arrive bs => some (s.arrive bs)

def reader : Machine Reader ReaderEv where
  init s := ∃ role hw c r m, m.fnacks = r.seq ∧ s = Reader.start (Solo.start role hw c r) m
  step := Reader.step

/-! ### The invariant -/

namespace Reader

/-- The cartridge has answered whatever the console launched. -/
def Answered (s : Reader) : Prop := s.mail.fnacks = s.regs.seq

instance (s : Reader) : Decidable s.Answered := inferInstanceAs (Decidable (_ = _))

/-- What READ is to ask for: whole frames, all of which STATUS has reported. -/
def Asks (s : Reader) : Prop :=
  ∃ k, 1 ≤ k ∧ k ≤ 15 ∧ s.con.vordn = BitVec.ofNat 8 (16 * k) ∧ 16 * k ≤ s.reported ∧
    s.reported ≤ s.inbox.length

/-- The window holds the last READ's reply, which is this batch. -/
def Holds (s : Reader) (batch : List (List Byte)) : Prop :=
  s.reply = batch.flatten ∧ 1 ≤ batch.length ∧ batch.length ≤ 15 ∧
    ∀ k < s.reply.length, s.mail.fnrply k = s.reply.getD k 0

/-- Where the network machine stands: `j` records of the batch are left. -/
def Stands (s : Reader) (batch : List (List Byte)) (j : ℕ) : Prop :=
  match s.con.vonst with
  | .wiss | .siss => s.Answered ∧ batch = []
  | .wack => s.con.voseq = s.regs.seq ∧ batch = [] ∧ (¬s.Answered → s.regs.cmd = ncwrite)
  | .sack => s.con.voseq = s.regs.seq ∧ batch = [] ∧
      if s.Answered then (s.mail.fnrply 0).toNat + 256 * (s.mail.fnrply 1).toNat = s.reported ∧
        s.reported ≤ s.inbox.length
      else s.regs.cmd = ncstat
  | .riss => s.Answered ∧ batch = [] ∧ s.Asks
  | .rack => s.con.voseq = s.regs.seq ∧
      if s.Answered then s.mail.fnerr = 0 ∧ s.mail.fnrxlo = BitVec.ofNat 8 (16 * batch.length) ∧
        j = batch.length ∧ s.Holds batch
      else batch = [] ∧ s.regs.cmd = ncread ∧ s.regs.word = s.con.vordn.toNat ∧ s.Asks
  | .cons => s.Answered ∧ s.con.vordn = BitVec.ofNat 8 j ∧ s.Holds batch
  | .idle | .fail => False

/-- Everything that has arrived is in the finished batches, in the open one or still waiting, and the
    records handed over are the finished batches' and those the open one has come back to. -/
structure Read (s : Reader) (done : List (List (List Byte))) (batch : List (List Byte)) (j : ℕ) :
    Prop where
  net : has s.con.voent voeNet = true
  frames : ∀ f ∈ done.flatten ++ batch, f.length = 16
  sizes : ∀ b ∈ done, 1 ≤ b.length ∧ b.length ≤ 15
  left : j ≤ batch.length
  arrived : s.arrived = (done.flatten ++ batch).flatten ++ s.inbox
  handed : s.handed = done.flatMap List.reverse ++ (batch.drop j).reverse
  stands : s.Stands batch j

variable {s : Reader} {done : List (List (List Byte))} {batch : List (List Byte)} {j : ℕ}

theorem Read.begin {role : Byte} {hw : Hw} {c : Console} {r : Regs} {m : Mail}
    (hm : m.fnacks = r.seq) : (start (Solo.start role hw c r) m).Read [] [] 0 where
  net := (start_voent role).1
  frames := by simp
  sizes := by simp
  left := le_refl _
  arrived := rfl
  handed := rfl
  stands := ⟨hm, rfl⟩

/-! ### Frames and arrivals -/

/-- A console whose transaction is left alone stands where it stood, whatever else arrives. -/
theorem Stands.same {s' : Reader} (h : s.Stands batch j) (hst : s'.con.vonst = s.con.vonst)
    (hseq : s'.con.voseq = s.con.voseq) (hrdn : s'.con.vordn = s.con.vordn)
    (hregs : s'.regs = s.regs) (hmail : s'.mail = s.mail) (hrep : s'.reported = s.reported)
    (hreply : s'.reply = s.reply) (hin : s.inbox.length ≤ s'.inbox.length) : s'.Stands batch j := by
  have hans : s'.Answered ↔ s.Answered := by rw [Answered, Answered, hmail, hregs]
  have hholds : s.Holds batch → s'.Holds batch := by
    rintro ⟨h1, h2, h3, h4⟩
    exact ⟨hreply.trans h1, h2, h3, by rw [hreply, hmail]; exact h4⟩
  have hasks : s.Asks → s'.Asks := by
    rintro ⟨k, hlo, hhi, hv, hle, hin'⟩
    exact ⟨k, hlo, hhi, hrdn.trans hv, hrep ▸ hle, hrep ▸ hin'.trans hin⟩
  rw [Stands] at h ⊢
  rw [hst]
  cases hc : s.con.vonst <;> simp only [hc] at h ⊢
  case wiss | siss => exact ⟨hans.mpr h.1, h.2⟩
  case wack =>
    refine ⟨by rw [hseq, hregs, h.1], h.2.1, fun hno => ?_⟩
    rw [hregs]
    exact h.2.2 fun ha => hno (hans.mpr ha)
  case sack =>
    obtain ⟨hs, hb, hrest⟩ := h
    refine ⟨by rw [hseq, hregs, hs], hb, ?_⟩
    simp only [hans, hmail, hregs, hrep]
    split at hrest
    · rw [if_pos ‹_›]
      exact ⟨hrest.1, hrest.2.trans hin⟩
    · rw [if_neg ‹_›]
      exact hrest
  case riss => exact ⟨hans.mpr h.1, h.2.1, hasks h.2.2⟩
  case rack =>
    obtain ⟨hs, hrest⟩ := h
    refine ⟨by rw [hseq, hregs, hs], ?_⟩
    simp only [hans, hmail, hregs, hrdn]
    split at hrest
    · rw [if_pos ‹_›]
      exact ⟨hrest.1, hrest.2.1, hrest.2.2.1, hholds hrest.2.2.2⟩
    · rw [if_neg ‹_›]
      exact ⟨hrest.1, hrest.2.1, hrest.2.2.1, hasks hrest.2.2.2⟩
  case cons => exact ⟨hans.mpr h.1, hrdn.trans h.2.1, hholds h.2.2⟩

theorem Read.gate (h : s.Read done batch j) (hw : Hw) (sim : Sim) :
    { s with con := frame hw sim s.con }.Read done batch j := by
  obtain ⟨hg, -⟩ := frame_cases hw sim s.con h.net
  exact ⟨hg.net.trans h.net, h.frames, h.sizes, h.left, h.arrived, h.handed,
    h.stands.same hg.vonst hg.voseq hg.vordn rfl rfl rfl rfl (le_refl _)⟩

theorem Read.arrive (h : s.Read done batch j) (bs : List Byte) :
    (s.arrive bs).Read done batch j := by
  refine ⟨h.net, h.frames, h.sizes, h.left, ?_, h.handed,
    h.stands.same rfl rfl rfl rfl rfl rfl rfl (by simp [Reader.arrive])⟩
  simp only [Reader.arrive, h.arrived, List.append_assoc]

/-! ### Answers -/

theorem statusBytes_count {n : ℕ} (hn : n ≤ 0xFFFF) (link dev : Byte) :
    ((statusBytes n link dev).getD 0 0).toNat + 256 * ((statusBytes n link dev).getD 1 0).toNat =
      n := by
  simp only [statusBytes, List.getD_cons_zero, List.getD_cons_succ, BitVec.toNat_ofNat]
  omega

/-- An answer to the transaction that is waiting for it. -/
theorem Read.answer (h : s.Read done batch j) (ha : ¬s.Answered) (err link dev : Byte)
    (page : ℕ → Byte) : ∃ batch' j', (s.answer err link dev page).Read done batch' j' := by
  have hstands := h.stands
  rw [Stands] at hstands
  cases hc : s.con.vonst <;> simp only [hc] at hstands
  case wiss | siss | riss | cons => exact absurd hstands.1 ha
  case wack =>
    obtain ⟨hseq, hb, hcmd⟩ := hstands
    have heq : s.answer err link dev page = { s with
        mail := { fnacks := s.regs.seq, fnerr := err, fnrply := page, fnrxlo := 0 } } := by
      rw [Reader.answer, hcmd ha, if_neg (by decide), if_neg (by decide)]
    rw [heq]
    refine ⟨batch, j, h.net, h.frames, h.sizes, h.left, h.arrived, h.handed, ?_⟩
    simp only [Stands, hc]
    exact ⟨hseq, hb, fun hno => absurd rfl hno⟩
  case sack =>
    obtain ⟨hseq, hb, hcmd⟩ := hstands
    rw [if_neg ha] at hcmd
    have heq : s.answer err link dev page = { s with
        mail := { fnacks := s.regs.seq, fnerr := err,
                  fnrply := showing (statusBytes (min s.inbox.length 0xFFFF) link dev) page,
                  fnrxlo := 4 }
        reported := min s.inbox.length 0xFFFF } := by
      rw [Reader.answer, hcmd, if_neg (by decide), if_pos rfl]
    rw [heq]
    refine ⟨batch, j, h.net, h.frames, h.sizes, h.left, h.arrived, h.handed, ?_⟩
    simp only [Stands, hc]
    refine ⟨hseq, hb, ?_⟩
    refine (if_pos ?_).mpr ⟨statusBytes_count (Nat.min_le_right _ _) link dev, Nat.min_le_left _ _⟩
    rfl
  case rack =>
    obtain ⟨hseq, hrest⟩ := hstands
    rw [if_neg ha] at hrest
    obtain ⟨rfl, hcmd, hword, k, hlo, hhi, hv, hle, hin⟩ := hrest
    have hk : s.regs.word = 16 * k := by
      rw [hword, hv, BitVec.toNat_ofNat]
      omega
    have hlen : (s.inbox.take (16 * k)).length = 16 * k := by
      rw [List.length_take]
      omega
    obtain ⟨fs, hfs, hall, hflat⟩ := Chunks.exists_cut k hlen
    have heq : s.answer err link dev page = { s with
        mail := { fnacks := s.regs.seq, fnerr := 0, fnrply := showing fs.flatten page,
                  fnrxlo := BitVec.ofNat 8 (16 * fs.length) }
        inbox := s.inbox.drop (16 * k), reply := fs.flatten } := by
      rw [Reader.answer, hcmd, if_pos rfl]
      simp only [hk, hlen, hfs, hflat]
    rw [heq]
    refine ⟨fs, fs.length, h.net, ?_, h.sizes, le_refl _, ?_, ?_, ?_⟩
    · intro f hf
      rcases List.mem_append.mp hf with hf | hf
      · exact h.frames f (List.mem_append_left _ hf)
      · exact hall f hf
    · have harr := h.arrived
      simp only [List.append_nil] at harr
      simp only [harr, List.flatten_append, hflat, List.append_assoc, List.take_append_drop]
    · have hhand := h.handed
      simp only [List.drop_nil] at hhand
      simp only [hhand, List.drop_length]
    · simp only [Stands, hc]
      refine ⟨hseq, ?_⟩
      refine (if_pos ?_).mpr ⟨trivial, trivial, trivial, rfl, by omega, by omega, fun n hn => if_pos hn⟩
      rfl

/-! ### Micro-steps -/

theorem voack_iff {s : Reader} (hseq : s.con.voseq = s.regs.seq) :
    voack s.mail s.con = true ↔ s.Answered := by
  rw [voack, beq_iff_eq, hseq, Answered]

/-- What STATUS leads to: nothing to read, or a READ of whole frames that it has reported. -/
theorem vossack_cases {m : Mail} {c : Console} (ha : voack m c = true) :
    (∃ e, vossack m c = { c with voerr := e, vonst := .wiss }) ∨
    ∃ k, 1 ≤ k ∧ k ≤ 15 ∧ 16 * k ≤ (m.fnrply 0).toNat + 256 * (m.fnrply 1).toNat ∧
      vossack m c = { c with vordn := BitVec.ofNat 8 (16 * k), vonst := .riss } := by
  by_cases hbad : m.fnerr ≠ 0 ∨ m.fnrply 3 ≠ 1
  · rw [vossack, if_pos ha, if_pos hbad]
    exact .inl ⟨_, rfl⟩
  · exact (vossack_whole ha hbad).imp_left fun heq => ⟨c.voerr, heq⟩

/-- A record that is consumed moves the cursor, and nothing of the transaction. -/
theorem voco1_cursor (m : Mail) (c : Console) : (voco1 m c).vonst = c.vonst ∧
    (voco1 m c).voseq = c.voseq ∧ (voco1 m c).vordn = c.vordn - 1 := by
  obtain ⟨ring, wat, ent, err, heq, -⟩ := voco1_cells m c
  rw [heq]
  exact ⟨rfl, rfl, rfl⟩

/-- Every record of the batch lies in the window at its index. -/
theorem Holds.shows (h : s.Holds batch) (hall : ∀ f ∈ batch, f.length = 16) {i : ℕ} {f : List Byte}
    (hf : batch[i]? = some f) : Shows s.mail i f := by
  obtain ⟨hreply, -, -, hshow⟩ := h
  have hi : i < batch.length := (List.getElem?_eq_some_iff.mp hf).1
  have hlen : s.reply.length = 16 * batch.length := hreply ▸ Chunks.length_flatten hall
  have hbytes {k : ℕ} := getD_records (f := id) (k := k) hall hf
  rw [List.flatMap_id] at hbytes
  intro k hk
  rw [hshow _ (by omega), hreply, hbytes hk, id]

/-- The record at the cursor, and every byte of it, is in the window. -/
theorem Holds.record (h : s.Holds batch) (hall : ∀ f ∈ batch, f.length = 16)
    (hv : s.con.vordn = BitVec.ofNat 8 (j + 1)) (hj : j < batch.length) :
    (∀ k < 16, k + (recAt (s.con.vordn - 1)).toNat < s.reply.length) ∧
      s.record = batch[j] := by
  have hshows := h.shows hall (List.getElem?_eq_getElem hj)
  obtain ⟨hreply, -, hsize, -⟩ := h
  have hcur : s.con.vordn - 1 = BitVec.ofNat 8 j := by
    rw [hv, BitVec.ofNat_add]
    exact BitVec.add_sub_cancel _ _
  have hlen : s.reply.length = 16 * batch.length := hreply ▸ Chunks.length_flatten hall
  have hframe : batch[j].length = 16 := hall _ (List.getElem_mem hj)
  constructor
  · intro k hk
    rw [hcur, toNat_recAt (by omega)]
    omega
  · refine List.ext_getElem (by simp [Reader.record, hframe]) ?_
    intro k hk hk'
    simp only [Reader.record, List.getElem_map, List.getElem_range]
    rw [hcur, hshows.at (by omega) (by omega)]
    exact (List.getElem_eq_getD 0).symm

theorem micro_quiet (hst : s.con.vonst ≠ .cons ∨ s.con.vordn = 0) : s.micro = { s with
    con := (vonstep s.mail s.con s.regs).1, regs := (vonstep s.mail s.con s.regs).2 } := by
  rw [Reader.micro, if_neg]
  rintro ⟨hcons, hne⟩
  rcases hst with hst | hst
  · exact hst hcons
  · exact hne hst

/-- Until a batch is being handed over, a micro-step launches, waits or takes an answer. -/
theorem Stands.micro (h : s.Stands batch j) (hcons : s.con.vonst ≠ .cons) :
    s.micro.Stands batch j := by
  have hquiet := micro_quiet (.inl hcons)
  have hwait : vonstep s.mail s.con s.regs = (s.con, s.regs) → s.micro.Stands batch j := by
    intro hstep
    rw [hquiet, hstep]
    exact h
  rw [Stands] at h
  cases hc : s.con.vonst <;> simp only [hc] at h
  case wiss =>
    rw [hquiet]
    simp only [Stands, vonstep, hc, voswiss_eq, volnch]
    exact ⟨trivial, h.2, fun _ => trivial⟩
  case siss =>
    rw [hquiet]
    simp only [Stands, vonstep, hc, vossiss, volnch]
    exact ⟨trivial, h.2, (if_neg (nextSeq_ne _).symm).mpr rfl⟩
  case riss =>
    obtain ⟨-, hb, hasks⟩ := h
    rw [hquiet]
    simp only [Stands, vonstep, hc, vosriss, volnch]
    refine ⟨trivial, (if_neg (nextSeq_ne _).symm).mpr ⟨hb, rfl, ?_, hasks⟩⟩
    simp [Regs.word, Regs.begin, Regs.fntx]
  case wack =>
    obtain ⟨hseq, hb, -⟩ := h
    by_cases ha : s.Answered
    · rw [hquiet]
      simp only [vonstep, hc, voswack, (voack_iff hseq).mpr ha, if_true]
      split
      · exact ⟨ha, hb⟩
      · exact ⟨ha, hb⟩
    · exact hwait (by simp [vonstep, hc, voswack, mt (voack_iff hseq).mp ha])
  case sack =>
    obtain ⟨hseq, hb, hrest⟩ := h
    by_cases ha : s.Answered
    · rw [if_pos ha] at hrest
      rw [hquiet]
      simp only [vonstep, hc]
      rcases vossack_cases ((voack_iff hseq).mpr ha) with ⟨e, heq⟩ | ⟨k, hlo, hhi, hle, heq⟩
      · rw [heq]
        exact ⟨ha, hb⟩
      · rw [heq]
        exact ⟨ha, hb, k, hlo, hhi, rfl, hrest.1 ▸ hle, hrest.2⟩
    · exact hwait (by simp [vonstep, hc, vossack, mt (voack_iff hseq).mp ha])
  case rack =>
    obtain ⟨hseq, hrest⟩ := h
    by_cases ha : s.Answered
    · rw [if_pos ha] at hrest
      obtain ⟨herr, hlen, rfl, hholds⟩ := hrest
      rw [hquiet]
      simp only [vonstep, hc, vosrack, (voack_iff hseq).mpr ha, herr, if_true]
      refine ⟨ha, ?_, hholds⟩
      rw [hlen]
      exact ofNat_records hholds.2.2.1
    · exact hwait (by simp [vonstep, hc, vosrack, mt (voack_iff hseq).mp ha])
  case cons => exact absurd hc hcons

/-- A batch with nothing left to hand over is done. -/
theorem Read.finish (h : s.Read done batch 0) (hc : s.con.vonst = .cons) :
    s.micro.Read (done ++ [batch]) [] 0 := by
  have hstands := h.stands
  simp only [Stands, hc] at hstands
  obtain ⟨ha, hv, hholds⟩ := hstands
  have hquiet := micro_quiet (.inr hv)
  refine ⟨(kept_vonstep s.mail s.con s.regs).net.trans h.net, ?_, ?_, le_refl _, ?_, ?_, ?_⟩
  · simpa using h.frames
  · intro b hb
    rcases List.mem_append.mp hb with hb | hb
    · exact h.sizes b hb
    · exact List.mem_singleton.mp hb ▸ ⟨hholds.2.1, hholds.2.2.1⟩
  · rw [hquiet]
    simpa using h.arrived
  · rw [hquiet]
    simpa using h.handed
  · rw [hquiet]
    simp only [Stands, vonstep, hc, voscons, hv]
    exact ⟨ha, trivial⟩

/-- A CONSUME step is `VOCO1` on the youngest record of a batch that is still in the window. -/
theorem Read.takes (h : s.Read done batch (j + 1)) (hc : s.con.vonst = .cons) :
    vonstep s.mail s.con s.regs = (voco1 s.mail s.con, s.regs) ∧
      (∀ f ∈ batch[j]?, voco1 s.mail s.con = absorb f { s.con with vordn := BitVec.ofNat 8 j }) ∧
      s.micro.handed = s.handed ++ batch[j]?.toList := by
  have hstands := h.stands
  simp only [Stands, hc] at hstands
  obtain ⟨-, hv, hholds⟩ := hstands
  have hsize := hholds.2.2.1
  have hleft := h.left
  have hne : s.con.vordn ≠ 0 := by
    intro h0
    have := congrArg BitVec.toNat (hv.symm.trans h0)
    rw [BitVec.toNat_ofNat] at this
    simp at this
    omega
  have hall : ∀ f ∈ batch, f.length = 16 := fun f hf => h.frames f (List.mem_append_right _ hf)
  refine ⟨?_, ?_, ?_⟩
  · simp only [vonstep, hc, voscons, if_neg hne]
  · exact fun f hf => voco1_absorb (by omega) (hholds.shows hall hf) s.con hv
  · rw [Reader.micro, if_pos ⟨hc, hne⟩, (hholds.record hall hv hleft).2, List.getElem?_eq_getElem hleft]
    rfl

/-- That record is handed over. -/
theorem Read.hand (h : s.Read done batch (j + 1)) (hc : s.con.vonst = .cons) :
    s.micro.Read done batch j := by
  obtain ⟨hstep, -, hhanded⟩ := h.takes hc
  have hstands := h.stands
  simp only [Stands, hc] at hstands
  obtain ⟨ha, hv, hholds⟩ := hstands
  have hleft := h.left
  rw [List.getElem?_eq_getElem hleft] at hhanded
  obtain ⟨hst, -, hcur⟩ := voco1_cursor s.mail s.con
  have hmicro : s.micro = { s with
      con := voco1 s.mail s.con, handed := s.handed ++ [batch[j]] } := by
    rw [← Option.toList_some, ← hhanded, Reader.micro, hstep]
  refine ⟨(kept_vonstep s.mail s.con s.regs).net.trans h.net, h.frames, h.sizes,
    Nat.le_of_succ_le hleft, ?_, ?_, ?_⟩
  · rw [hmicro]
    exact h.arrived
  · rw [hmicro, List.drop_eq_getElem_cons hleft, List.reverse_cons, ← List.append_assoc, ← h.handed]
  · rw [hmicro]
    simp only [Stands, hst, hc]
    refine ⟨ha, ?_, hholds⟩
    rw [hcur, hv, BitVec.ofNat_add]
    exact BitVec.add_sub_cancel _ _

/-- A micro-step launches, waits, takes an answer, hands over a record or ends a batch. -/
theorem Read.micro (h : s.Read done batch j) : ∃ done' batch' j', s.micro.Read done' batch' j' := by
  by_cases hc : s.con.vonst = .cons
  · cases j with
    | zero => exact ⟨_, _, _, h.finish hc⟩
    | succ j => exact ⟨_, _, _, h.hand hc⟩
  · have hquiet := micro_quiet (.inl hc)
    refine ⟨done, batch, j, (kept_vonstep s.mail s.con s.regs).net.trans h.net, h.frames, h.sizes,
      h.left, ?_, ?_, h.stands.micro hc⟩
    · rw [hquiet]
      exact h.arrived
    · rw [hquiet]
      exact h.handed

theorem Read.step {s' : Reader} {e : ReaderEv} (h : s.Read done batch j) (hst : s.step e = some s') :
    ∃ done' batch' j', s'.Read done' batch' j' := by
  cases e with
  | gate hw sim =>
    simp only [Reader.step, Option.ite_none_right_eq_some, Option.some.injEq] at hst
    exact hst.2 ▸ ⟨done, batch, j, h.gate hw sim⟩
  | micro =>
    simp only [Reader.step, Option.ite_none_right_eq_some, Option.some.injEq] at hst
    exact hst.2 ▸ h.micro
  | answer err link dev page =>
    simp only [Reader.step, Option.ite_none_left_eq_some, Option.some.injEq] at hst
    obtain ⟨batch', j', h'⟩ := h.answer (Ne.symm hst.1) err link dev page
    exact hst.2 ▸ ⟨done, batch', j', h'⟩
  | arrive bs => exact Option.some.inj hst ▸ ⟨done, batch, j, h.arrive bs⟩

end Reader

theorem read_of_reachable {s : Reader} (h : reader.Reachable s) :
    ∃ done batch j, s.Read done batch j :=
  reader.reachable_invariant (I := fun s => ∃ done batch j, s.Read done batch j)
    (fun _ ⟨_, _, _, _, _, hm, hs⟩ => hs ▸ ⟨[], [], 0, .begin hm⟩)
    (fun _ _ _ ⟨_, _, _, hI⟩ hst => hI.step hst) h

/-- The frame reader loses, repeats and misframes nothing. What has arrived is the front of a stream
    of frames: a READ asks for whole frames, no more than STATUS reported; a batch is consumed out of
    its own READ's reply; a step of CONSUME is `VOCO1` on the batch's youngest record that is left, and
    does to the console what that record's own bytes say; and the records handed over are the frames
    of the stream, one batch behind the other, each batch backwards. -/
theorem reader_exact {s : Reader} (h : reader.Reachable s) {fs : List (List Byte)}
    (hfs : ∀ f ∈ fs, f.length = 16) (hstream : s.arrived <+: fs.flatten) :
    (s.con.vonst = .riss → ∃ k, 1 ≤ k ∧ k ≤ 15 ∧ (vonstep s.mail s.con s.regs).2.cmd = ncread ∧
      (vonstep s.mail s.con s.regs).2.word = 16 * k ∧ 16 * k ≤ s.reported ∧
      s.reported ≤ s.inbox.length) ∧
    (s.con.vonst = .cons → (∀ k < s.reply.length, s.mail.fnrply k = s.reply.getD k 0) ∧
      (s.con.vordn ≠ 0 → ∀ k < 16, k + (recAt (s.con.vordn - 1)).toNat < s.reply.length)) ∧
    ∃ (done : List (List (List Byte))) (batch : List (List Byte)) (j : ℕ), j ≤ batch.length ∧
      (∀ b ∈ done, 1 ≤ b.length ∧ b.length ≤ 15) ∧ done.flatten ++ batch <+: fs ∧
      s.arrived = (done.flatten ++ batch).flatten ++ s.inbox ∧
      s.handed = done.flatMap List.reverse ++ (batch.drop j).reverse ∧
      (s.con.vonst = .cons → s.con.vordn = BitVec.ofNat 8 j ∧ batch.length ≤ 15 ∧
        (j = 0 → vonstep s.mail s.con s.regs = ({ s.con with vonst := .wiss }, s.regs)) ∧
        ∀ i, j = i + 1 → ∃ f, batch[i]? = some f ∧ s.micro.handed = s.handed ++ [f] ∧
          vonstep s.mail s.con s.regs = (voco1 s.mail s.con, s.regs) ∧
          voco1 s.mail s.con = absorb f { s.con with vordn := BitVec.ofNat 8 i }) ∧
      (s.con.vonst ≠ .cons → j = batch.length ∧ (s.con.vonst ≠ .rack → batch = [])) := by
  obtain ⟨done, batch, j, hI⟩ := read_of_reachable h
  have hstands := hI.stands
  have hleft := hI.left
  rw [Reader.Stands] at hstands
  have hnone : batch = [] → j = batch.length ∧ (s.con.vonst ≠ .rack → batch = []) := by
    rintro rfl
    exact ⟨Nat.le_zero.mp hleft, fun _ => rfl⟩
  have hfront : done.flatten ++ batch <+: fs :=
    Chunks.prefix_of_flatten (by decide) hI.frames hfs
      ((List.prefix_append _ _).trans (hI.arrived ▸ hstream))
  refine ⟨fun hc => ?_, fun hc => ?_, done, batch, j, hleft, hI.sizes, hfront, hI.arrived,
    hI.handed, fun hc => ?_, fun hne => ?_⟩
  · simp only [hc] at hstands
    obtain ⟨-, -, k, hlo, hhi, hv, hle, hin⟩ := hstands
    refine ⟨k, hlo, hhi, ?_, ?_, hle, hin⟩
    · simp [vonstep, hc, vosriss, volnch, Regs.begin, Regs.fntx]
    · have hword : (vonstep s.mail s.con s.regs).2.word = s.con.vordn.toNat := by
        simp [vonstep, hc, vosriss, volnch, Regs.begin, Regs.fntx, Regs.word]
      rw [hword, hv, BitVec.toNat_ofNat]
      omega
  · simp only [hc] at hstands
    obtain ⟨-, hv, hholds⟩ := hstands
    refine ⟨hholds.2.2.2, fun hne => ?_⟩
    obtain ⟨i, rfl⟩ : ∃ i, j = i + 1 := by
      refine Nat.exists_eq_succ_of_ne_zero ?_
      rintro rfl
      exact hne hv
    exact (hholds.record (fun f hf => hI.frames f (List.mem_append_right _ hf)) hv hleft).1
  · simp only [hc] at hstands
    obtain ⟨-, hv, hholds⟩ := hstands
    refine ⟨hv, hholds.2.2.1, ?_, ?_⟩
    · rintro rfl
      have hzero : s.con.vordn = 0 := hv
      simp only [vonstep, hc, voscons, if_pos hzero]
    · rintro i rfl
      obtain ⟨hstep, habsorb, hhanded⟩ := hI.takes hc
      rw [List.getElem?_eq_getElem hleft] at habsorb hhanded ⊢
      exact ⟨_, rfl, hhanded, hstep, habsorb _ rfl⟩
  · cases hc : s.con.vonst <;> simp only [hc] at hstands
    case cons => exact absurd hc hne
    case wiss | siss => exact hc ▸ hnone hstands.2
    case wack | sack | riss => exact hc ▸ hnone hstands.2.1
    case rack =>
      refine ⟨?_, fun hrack => absurd rfl hrack⟩
      obtain ⟨-, hrest⟩ := hstands
      split at hrest
      · exact hrest.2.2.1
      · exact (hnone hrest.1).1

/-- A console nobody touches and a cartridge that has nothing yet. -/
def Reader.rest : Reader := .start Solo.rest (painted 0 [] 0)

def firstFrame : List Byte := recordBytes 2 (0x50, 0xFF) (0, 0xFF) (0, 0xFF) 0
def secondFrame : List Byte := recordBytes 4 (0x70, 0xFF) (0x60, 0xFF) (0x50, 0xFF) 0
def thirdFrame : List Byte := recordBytes 5 (0x80, 0xFF) (0x70, 0xFF) (0x60, 0xFF) 0

def threeFrames : List (List Byte) := [firstFrame, secondFrame, thirdFrame]

/-- The first WRITE fails while part of a frame arrives. Then STATUS finds two frames and a part of a
    third, a READ takes the two, and the later of them is consumed. -/
def cutShort : List ReaderEv :=
  let ok := .answer 0 1 1 fun _ => 0xEE
  [.gate Hw.rest Console.cleared.sim, .micro, .arrive (threeFrames.flatten.take 10),
    .answer 1 0 0 fun _ => 0xEE, .micro, .micro, ok, .micro, .micro,
    .arrive ((threeFrames.flatten.drop 10).take 26), ok, .micro, .micro, ok, .micro, .micro]

theorem reader_exact_cutShort : ∃ s, reader.run Reader.rest cutShort = some s ∧
    (s.con.vonst = .cons ∧ s.con.vordn = 1 ∧ s.con.vorwat = 4 ∧ s.inbox.length = 4 ∧
      s.arrived = threeFrames.flatten.take 36 ∧ s.handed = [secondFrame] ∧
      s.micro.handed = [secondFrame, firstFrame]) ∧
    (∀ k < s.reply.length, s.mail.fnrply k = s.reply.getD k 0) ∧
    (∀ k < 16, k + (recAt (s.con.vordn - 1)).toNat < s.reply.length) ∧
    vonstep s.mail s.con s.regs = (absorb firstFrame { s.con with vordn := 0 }, s.regs) := by
  refine reader.exists_run_of (by decide +kernel) ?_
  rintro s hrun ⟨hst, hcur, -, -, harrived, hhanded, hnext⟩
  have hinit : reader.init Reader.rest := ⟨0, Hw.rest, Console.cleared, Regs.cleared, _, rfl, rfl⟩
  have hframes : ∀ f ∈ threeFrames, f.length = 16 := by decide
  obtain ⟨-, hcons, done, batch, j, hj, -, -, -, -, htakes, -⟩ :=
    reader_exact ⟨Reader.rest, cutShort, hinit, hrun⟩ hframes (harrived ▸ List.take_prefix _ _)
  obtain ⟨hreply, hin⟩ := hcons hst
  obtain ⟨hv, hsize, -, hstep⟩ := htakes hst
  have hone : j = 0 + 1 := by
    have := congrArg BitVec.toNat (hcur.symm.trans hv)
    rw [BitVec.toNat_ofNat, Nat.mod_eq_of_lt (by omega)] at this
    exact this.symm
  obtain ⟨f, -, hf, hmicro, habsorb⟩ := hstep 0 hone
  rw [hnext, hhanded] at hf
  obtain rfl : firstFrame = f := by simpa using hf
  exact ⟨hreply, hin (by rw [hcur]; decide), hmicro.trans (by rw [habsorb]; rfl)⟩

end VO
