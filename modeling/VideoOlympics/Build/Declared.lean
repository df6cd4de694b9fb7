import VideoOlympics.Build.Patches

/-! The declared patch map: where the netcode cuts into the disassembled game, and what stands there
    instead. Each text is what the generator writes out, the comments for the assembler's reader and all. -/

namespace VO.Build

/-- The bank split. Structural only. -/
def structural : List Patch := [
  { name := "START: the bank entry dispatcher, and the RAM clear moved out"
    line := 55
    nlines := 10
    pos := by decide
    old := text [
      "START:",
      "\tSEI",
      "\tCLD",
      "\tLDX    #$FF",
      "\tTXS",
      "\tINX",
      "\tTXA",
      "LF007: STA    $8D,X",
      "\tINX",
      "\tBNE    LF007   "]
    new := text [
      "; $1000 is where a bank switch lands, and this bank is entered twice a",
      "; frame: once cold at power-on and once every frame on the way back from",
      "; the kernel bank. Two entry BITS, not one entry value -- PORTING.md 4.12:",
      "; a single value meant the boot bank could hand over \"playing\" and the game",
      "; bank would read \"not cold\" and skip START entirely, coming up with every",
      "; variable zero.",
      ";",
      "; The stock RAM clear cannot stay here. It runs X from 0 to 255 storing",
      "; through `STA $8D,X`, which wraps inside page zero and therefore covers",
      "; ALL of $00-$FF -- the whole 128 bytes of RAM and a strobe of every TIA",
      "; register. That is deliberate 1977 economy and it is also 4.12's sibling",
      "; trap: it would wipe every netcode cell the boot bank has just set up. It",
      "; moves to VOSTART, which skips the netcode's range and does the rest.",
      ";",
      "; EXACTLY TWELVE BYTES, because that is what it replaces. Every region is",
      "; emitted at its own ORG and then runs on, so a patch one byte short moves",
      "; every byte after it and check_patch reports the entire rest of the bank.",
      ";",
      "; SEI is gone from here and lives in VOSTART, in the boot bank. Note that",
      "; losing it would not have broken the BRK calls even if it had stayed: the I",
      "; flag masks IRQ, not BRK.",
      ";",
      "; THERE IS NO WARM/COLD TEST HERE ANY MORE. The RAM clear moved to the boot",
      "; bank -- the game bank had no room and the boot bank is 9 bytes used of 2048 --",
      "; and the boot bank is the only other way into this one. So every arrival is a",
      "; warm one and the dispatcher is a single jump. The nine bytes after it are",
      "; dead and declared.",
      "START:",
      "\tJMP  LF00C              ; 3",
      "\tDB $EA,$EA,$EA,$EA,$EA,$EA,$EA,$EA,$EA  ; 9, never executed"] },
  { name := "the sound countdown comes out of the ungated part of the frame"
    line := 121
    nlines := 1
    pos := by decide
    old := text ["LF06D: DEC    $8C    "]
    new := text [
      "; $8C is the sound duration, and it is decremented HERE -- in the audio block,",
      "; a hundred bytes before the lockstep gate -- so in the stock frame it counts",
      "; down whether or not the sim advances. Exactly the frame counter's problem one",
      "; cell along, and it showed up the same way: `make rig-play` found two consoles",
      "; that agreed on every checksum and differed by one in $8C on thirty ticks out",
      "; of five hundred.",
      ";",
      "; Nothing but the sound reads it, so the audible consequence is a beep a frame",
      "; longer on one console than the other -- which nobody would ever notice and",
      "; which is still a quantity that is a function of the local stall pattern. The",
      "; doctrine does not have a clause for \"small\".",
      ";",
      "; TWO BYTES, AND EXACTLY FIVE CYCLES. `DEC zp` is five; two NOPs are four; and",
      "; that ONE CYCLE is a bug that took a long time to find.",
      ";",
      "; The paddle capacitor's dump transistor is asserted at $F31A, inside LF23A,",
      "; which this sound block runs BEFORE -- and it is released at the top of the",
      "; kernel, which is WSYNC-aligned. So the dump WINDOW is",
      "; (aligned release) - (unaligned assert), and anything that moves the assert",
      "; moves the window. Two NOPs moved it one cycle earlier on every frame the",
      "; sound was running, MAME's pot model discharges for that one cycle longer, and",
      "; once in a while the extra cycle is enough to flip the comparator a scanline",
      "; early. `make det` then diverged from frame 1560 in $BB, $BC and the position",
      "; they drive -- 1.5% of frames, five hundred frames past where any ten-second",
      "; run stopped looking.",
      ";",
      "; So the cycles are spent rather than saved. VOTMP is the netcode's own",
      "; scratch, dead between routines and dead here, and `DEC` on it costs precisely",
      "; what the instruction it replaces cost.",
      ";",
      "; The general rule, and it is the sharpest one this port taught: ON A MACHINE",
      "; WITH AN ANALOG INPUT TIMED BY THE PROGRAM ITSELF, A PATCH IS NOT",
      "; SIZE-PRESERVING UNLESS IT IS ALSO CYCLE-PRESERVING. Every other patch in this",
      "; file replaces an instruction with one of the same length AND the same cost;",
      "; this is the only one that had to be thought about, because it is the only one",
      "; that removes work rather than redirecting it.",
      ";",
      "; The label stays: $F069's BVS branches to it.",
      "LF06D\tDEC  VOTMP             ; 2 bytes, 5 cycles -- exactly what DEC $8C cost"] },
  { name := "the frame counter comes out of the ungated part of the frame"
    line := 127
    nlines := 4
    pos := by decide
    old := text [
      "\tINC    $88",
      "\tBNE    LF082",
      "\tINC    $89",
      "\tINC    $8A"]
    new := text [
      "; THE SIM CLOCK MUST NOT ADVANCE ON A STALLED FRAME.",
      ";",
      "; $88/$89/$8A is this game's frame counter and it is not decoration: $F0E3",
      "; masks it with #$1F to debounce SELECT once every thirty-two frames, and",
      "; $F215 masks it with #$1C to pace the serve. It is simulation.",
      ";",
      "; It increments HERE, at $F07A, which is ninety bytes before the lockstep gate",
      "; at $F0D0 -- so in the stock frame it advances whether or not the sim does.",
      "; Two consoles stall at different moments by design, because absorbing that is",
      "; what lockstep is FOR, so a counter that counted frames DRAWN rather than",
      "; ticks RUN diverges by exactly the difference in their stall patterns. The",
      "; symptom was 143 CRC mismatches on a pair that was otherwise in perfect step,",
      "; and consoles 337 and 340 ticks apart.",
      ";",
      "; Moving it behind the gate makes it count simulated frames, which both",
      "; consoles agree about by construction. Nothing between here and the gate",
      "; reads it -- $F082-$F093 touches $97, $94, $B9 and $B8, and the paddle-trigger",
      "; loop at $F0A1 touches $92 and $93 -- so the move is invisible to everything",
      "; except the thing it fixes. This is 4.20's rule in its Video Olympics form.",
      ";",
      "; Eight bytes of filler, and the eight bytes of work move to VOFCNT, which",
      "; lives in the dead space the $F21F patch leaves behind.",
      "\tDB $EA,$EA,$EA,$EA,$EA,$EA,$EA,$EA"] },
  { name := "the head of the timed band becomes the lockstep gate"
    line := 170
    nlines := 1
    pos := by decide
    old := text ["\tSTA    TIM64T  "]
    new := text [
      "\tJMP  VOGATE             ; was STA TIM64T -- VOGATE arms the timer",
      "\t                        ;   itself, FIRST, then decides whether the sim",
      "\t                        ;   advances and either falls into the game logic",
      "\t                        ;   at $10D3 or jumps over it to the spin at $121F.",
      "\t                        ;   Three bytes for three; the band is the same",
      "\t                        ;   length either way, which is what make frames",
      "\t                        ;   checks."] },
  { name := "the vertical blank's spin becomes the switch into the kernel bank"
    line := 343
    nlines := 11
    pos := by decide
    old := text [
      "LF21F: LDA    INTIM",
      "\tBNE    LF21F",
      "\tSTA    CXCLR",
      "\tSTA    WSYNC",
      "\tSTA    HMOVE",
      "\tSTA    VBLANK",
      "\tLDY    #$07",
      "\tJSR    LF5B8",
      "\tJSR    LF585",
      "\tJSR    LF5D0",
      "\tJMP    LF00C   "]
    new := text [
      "; THE SWITCH MOVES UP, TO THE HEAD OF THE SPIN.",
      ";",
      "; It was at $F22C, after the spin and immediately before the three kernel",
      "; calls, which is the smallest change that works -- and it puts the bank",
      "; boundary in the wrong place. The vertical blank's spin is THE SLACK IN THIS",
      "; FRAME: `LDA INTIM / BNE` is the game waiting for a timer it armed at $F0D0,",
      "; and it is where the transport's micro-steps have to run. Leaving it in the",
      "; game bank would have meant reaching the network machine, which lives in the",
      "; kernel bank because that is where the room is, through a bank switch -- and a",
      "; bank switch is a jump that never returns.",
      ";",
      "; So the kernel bank takes the whole tail of the frame: the spin, the four",
      "; strobes, the three kernel routines and the checksum. It re-runs them at its",
      "; own entry; see vokern.asm. Twenty-two of these twenty-seven bytes become",
      "; dead, and being dead in the game bank is exactly what they should be -- the",
      "; game bank has no room to spare and this is the one place it gains any.",
      ";",
      "; The stall path still works unchanged: VOGATE jumps to $121F when the sim does",
      "; not advance, which is now the switch itself, so a stalled frame goes straight",
      "; here with the game logic skipped.",
      "; THE LABEL STAYS. Three branches in the game logic land here -- $F20D, $F211",
      "; and $F217 all say \"give up on this frame and go and wait out the blank\" --",
      "; and they are now branches to the bank switch, which is exactly right: giving",
      "; up on the frame and handing over to the kernel bank are the same act.",
      "LF21F\tLDA  #BANKKERN          ; 2",
      "\tJMP  VOGOTO             ; 3",
      ";",
      "; The twenty-two bytes that were the strobes and the three kernel calls are",
      "; unreachable now, and they are the only spare space this bank has ever had.",
      "; VOFCNT gets nine of them: the frame counter the patch above took out of the",
      "; ungated part of the frame, called from VOGATE when the sim advances.",
      "; THE GUARD IS THE ONE STOCK USES, not the obvious one. $F04E is `BIT $8C`",
      "; with A = $3F and $F050 is `BEQ`, so the decrement is skipped when",
      "; ($8C AND $3F) is zero -- NOT when $8C is zero. A plain zero test decrements",
      "; on the values $40, $80 and $C0 where stock does not, and `make det` diverged",
      "; at frame 117 by one.",
      "VOFCNT\tLDA  $8C                ; 2  the sound countdown",
      "\tAND  #$3F               ; 2  ...on stock's own condition",
      "\tBEQ  VOFCN0             ; 2",
      "\tDEC  $8C                ; 2",
      "VOFCN0\tINC  $88                ; 2  the frame counter",
      "\tBNE  VOFCN1             ; 2",
      "\tINC  $89                ; 2",
      "\tINC  $8A                ; 2",
      "VOFCN1\tRTS                     ; 1",
      "\tDB $EA,$EA,$EA,$EA,$EA  ; 5 left"] }]

/-- The input sites. Every one is size-preserving. -/
def inputs : List Patch := [
  { name := "the four paddle triggers"
    line := 146
    nlines := 1
    pos := by decide
    old := text ["LF0A1: LDA    SWCHA   "]
    new := text ["LF0A1:\tLDA  >VOSWA             ; was SWCHA"] },
  { name := "THE paddle position read -- players 0-3 at $BB-$BE"
    line := 288
    nlines := 1
    pos := by decide
    old := text ["LF1B4: LDA    $BB,X   "]
    new := text ["LF1B4:\tLDA  VOPAD,X            ; was $BB,X"] },
  { name := "console switches (1 of 5)"
    line := 171
    nlines := 1
    pos := by decide
    old := text ["\tLDA    SWCHB  "]
    new := text ["\tLDA  >VOSWB             ; was SWCHB"] },
  { name := "console switches (2 of 5)"
    line := 182
    nlines := 1
    pos := by decide
    old := text ["LF0E9: ORA    SWCHB   "]
    new := text ["LF0E9:\tORA  >VOSWB             ; was SWCHB"] },
  { name := "console switches (3 of 5)"
    line := 381
    nlines := 1
    pos := by decide
    old := text ["\tBIT    SWCHB  "]
    new := text ["\tBIT  >VOSWB             ; was SWCHB"] },
  { name := "console switches (4 of 5)"
    line := 439
    nlines := 1
    pos := by decide
    old := text ["\tBIT    SWCHB  "]
    new := text ["\tBIT  >VOSWB             ; was SWCHB"] },
  { name := "console switches (5 of 5)"
    line := 767
    nlines := 1
    pos := by decide
    old := text ["\tLDA    SWCHB  "]
    new := text ["\tLDA  >VOSWB             ; was SWCHB"] }]

def declared : List Patch := structural ++ inputs

/-- No two of them touch the same line. -/
theorem declared_apart : declared.Pairwise sites.Apart := by decide

/-- Each of them changes something. -/
theorem declared_changes : ∀ p ∈ declared, norm p.new ≠ norm p.old := by decide +kernel

/-- The source as it comes out: the new texts where they belong, and every other line as it was. -/
structure Patched (lines out : List Text) : Prop where
  length : out.length = lines.length
  first : ∀ p ∈ declared, out[p.line - 1]? = some (p.new ++ ['\n'])
  blank : ∀ p ∈ declared, ∀ j, p.line - 1 < j → j < p.line - 1 + p.nlines → out[j]? = some ['\n']
  others : ∀ j, (∀ p ∈ declared, ¬ sites.Covers p j) → out[j]? = lines[j]?

theorem patched_of_slots {lines out : List Text} (hlen : out.length = lines.length)
    (hslots : ∀ j, out[j]? = sites.slot declared lines j) : Patched lines out where
  length := hlen
  first p hp := by
    have hcovers : sites.Covers p (p.line - 1) := ⟨Nat.le_refl _, Nat.lt_add_of_pos_right p.pos⟩
    rw [hslots, Splice.Sites.slot_of_covers declared_apart hp hcovers]
    exact if_pos rfl
  blank p hp j hlo hhi := by
    have hcovers : sites.Covers p j := ⟨Nat.le_of_lt hlo, hhi⟩
    rw [hslots, Splice.Sites.slot_of_covers declared_apart hp hcovers]
    exact if_neg (Nat.ne_of_gt hlo)
  others j hj := by
    rw [hslots, Splice.Sites.slot, List.find?_eq_none.mpr fun p hp => by simpa using hj p hp]

/-- A patch does not find its anchor where it has been applied. -/
theorem Patched.again {lines out : List Text} (h : Patched lines out) {p : Patch} (hp : p ∈ declared) :
    sites.verdict p out ≠ .ok () := by
  have hwindow : Splice.window (p.line - 1) p.nlines out =
      (p.new ++ ['\n']) :: List.replicate (p.nlines - 1) ['\n'] := by
    have hpos := p.pos
    refine List.ext_getElem? fun j => ?_
    rw [Splice.getElem?_window]
    cases j with
    | zero => rw [if_pos hpos, Nat.add_zero, h.first p hp, List.getElem?_cons_zero]
    | succ j =>
      rw [List.getElem?_cons_succ, List.getElem?_replicate]
      by_cases hj : j + 1 < p.nlines
      · rw [if_pos hj, if_pos (by omega), h.blank p hp _ (by omega) (by omega)]
      · rw [if_neg hj, if_neg (by omega)]
  have hspace : ∀ ch ∈ ['\n'] ++ (List.replicate (p.nlines - 1) ['\n']).flatten, isSpace ch = true := by
    intro ch hch
    have hnl : ch = '\n' := by
      rcases List.mem_append.mp hch with h | h
      · exact List.mem_singleton.mp h
      · obtain ⟨line, hline, h⟩ := List.mem_flatten.mp h
        rw [List.eq_of_mem_replicate hline] at h
        exact List.mem_singleton.mp h
    exact hnl ▸ by decide
  have hnorm : norm (Splice.window (p.line - 1) p.nlines out).flatten = norm p.new := by
    rw [hwindow, List.flatten_cons, List.append_assoc, norm, split_append_space hspace]
    rfl
  intro hok
  have hcheck : p.check out.length (Splice.window (p.line - 1) p.nlines out) = .ok () := hok
  simp only [Patch.check] at hcheck
  split at hcheck
  · cases hcheck
  · split at hcheck
    · cases hcheck
    · next hsame => exact declared_changes p hp (hnorm.symm.trans (not_not.mp hsame))

/-- Applying the patch map is all or nothing. Where every anchor is found in the source as it was, the
    new texts are put in and nothing else is touched, in whatever order the patches come, and the result
    will not be patched again; otherwise the first anchor that is not found is reported. -/
theorem patched_once (lines : List Text) :
    ((∀ p ∈ declared, sites.verdict p lines = .ok ()) ∧ ∃ out, Patched lines out ∧
      (∀ ps, declared.Perm ps → apply ps lines = .ok out) ∧ ∃ e, apply declared out = .error e) ∨
    ∃ as p bs e, declared = as ++ p :: bs ∧ (∀ q ∈ as, sites.verdict q lines = .ok ()) ∧
      sites.verdict p lines = .error e ∧ apply declared lines = .error e := by
  rcases Splice.Sites.rewrite_eq (l := lines) declared_apart with
    ⟨hall, out, hout, hlen, hslots⟩ | hfirst
  · have hpatched := patched_of_slots hlen hslots
    refine .inl ⟨hall, out, hpatched, ?_, ?_⟩
    · exact fun ps hperm => Splice.Sites.rewrite_perm declared_apart hperm hout
    · rcases Splice.Sites.rewrite_eq (l := out) declared_apart with
        ⟨hagain, -⟩ | ⟨_, _, _, e, -, -, -, herr⟩
      · obtain ⟨p, hp⟩ := List.exists_mem_of_ne_nil declared (by decide)
        exact absurd (hagain p hp) (hpatched.again hp)
      · exact ⟨e, herr⟩
  · exact .inr hfirst

/-- A source that has nothing but the anchors. -/
def anchors : List Text :=
  (List.range 767).map fun j =>
    match declared.find? fun p => p.line = j + 1 with
    | some p => p.old
    | none => ['\n']

example : (apply declared anchors).isOk = true := by decide +kernel

end VO.Build

