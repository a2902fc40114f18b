import EmbedTSDB.BStream.Reader

/-! Arbitrary sequences of reads on a reader over any byte slice, with widths unrelated to
how the slice was written. While a read stays inside the slice it returns the slice's bits at
the reader's position, so the values depend only on the bits consumed and a reader over a
prefix agrees with one over the whole slice. Past the end, `readBits` can report success:
a read that straddles the window and whose refill finds some bytes but fewer than it needs
takes `valid - nbits` in `uint8`, which wraps. -/
namespace EmbedTSDB

/-- One call on a reader: `readBit`, `ReadByte` or `readBits(n)`. -/
inductive Read where
  | bit
  | byte
  | bits (n : Nat)
  deriving DecidableEq, Repr

namespace Read

/-- How many bits a read consumes. -/
def width : Read → Nat
  | .bit => 1
  | .byte => 8
  | .bits n => n

/-- `readBits` is called with `1 <= n <= 64`. -/
def WellFormed : Read → Prop
  | .bits n => 1 ≤ n ∧ n ≤ 64
  | _ => True

instance : DecidablePred WellFormed
  | .bit => inferInstanceAs (Decidable True)
  | .byte => inferInstanceAs (Decidable True)
  | .bits n => inferInstanceAs (Decidable (1 ≤ n ∧ n ≤ 64))

end Read

namespace BStreamReader

/-- A read's value as an unsigned integer; `none` is `io.EOF`. The width of `readBits` is
Go's `uint8` argument. -/
def readOp (b : BStreamReader) : Read → Option Nat × BStreamReader
  | .bit =>
      let (v, b) := b.readBit
      (v.map Bool.toNat, b)
  | .byte =>
      let (v, b) := b.readByte
      (v.map BitVec.toNat, b)
  | .bits n =>
      let (v, b) := b.readBits (BitVec.ofNat 8 n)
      (v.map BitVec.toNat, b)

/-- Issue the reads in turn, each on the reader the previous one left. -/
def readSeq (b : BStreamReader) : List Read → List (Option Nat)
  | [] => []
  | op :: rest =>
      let (v, b) := b.readOp op
      v :: readSeq b rest

end BStreamReader

/-- The reference reader: each read returns the bits of `s` starting where the earlier reads
stopped, read big-endian and MSB first. -/
def expectedReads (s : List (BitVec 8)) (pos : Nat) : List Read → List (Option Nat)
  | [] => []
  | op :: rest => some (bitsAt s pos op.width) :: expectedReads s (pos + op.width) rest

/-- A field that ends inside the first `k` bytes has the same bits in that prefix. -/
theorem bitsAt_take (s : List (BitVec 8)) {k pos n : Nat} (h : pos + n ≤ 8 * k) :
    bitsAt (s.take k) pos n = bitsAt s pos n := by
  rcases Nat.le_total s.length k with hk | hk
  · rw [List.take_of_length_le hk]
  have hs : beValue s = beValue (s.take k) * 2 ^ (8 * (s.length - k)) + beValue (s.drop k) := by
    conv_lhs => rw [← List.take_append_drop k s]
    rw [beValue_append, List.length_drop]
  have hd : beValue (s.drop k) < 2 ^ (8 * (s.length - k)) := by
    simpa using beValue_lt (s.drop k)
  rw [bitsAt, bitsAt, hs, List.length_take_of_le hk,
    show 8 * s.length - (pos + n) = 8 * (s.length - k) + (8 * k - (pos + n)) by omega,
    Nat.pow_add, ← Nat.div_div_eq_div_mul, Nat.add_comm (beValue (s.take k) * _),
    Nat.add_mul_div_right _ _ (Nat.two_pow_pos _),
    Nat.div_eq_of_lt hd, Nat.zero_add]

theorem expectedReads_take (s : List (BitVec 8)) {k : Nat} (reads : List Read) {pos : Nat}
    (h : pos + (reads.map Read.width).sum ≤ 8 * k) :
    expectedReads (s.take k) pos reads = expectedReads s pos reads := by
  induction reads generalizing pos with
  | nil => rfl
  | cons op rest ih =>
      simp only [List.map_cons, List.sum_cons] at h
      simp only [expectedReads, bitsAt_take s (show pos + op.width ≤ 8 * k by omega),
        ih (show pos + op.width + (rest.map Read.width).sum ≤ 8 * k by omega)]

namespace BStreamReader

variable {r : BStreamReader}

/-- A well-formed read that stays inside the stream returns the stream's bits at the
reader's position and advances it by the read's width. -/
theorem Inv.readOp (h : r.Inv) {op : Read} (hw : op.WellFormed)
    (hend : r.bitPos + op.width ≤ 8 * r.stream.length) :
    ∃ r', r.readOp op = (some (bitsAt r.stream r.bitPos op.width), r') ∧ r'.Inv ∧
      r'.stream = r.stream ∧ r'.bitPos = r.bitPos + op.width := by
  cases op with
  | bit =>
      obtain ⟨r', hread, hi, hs, hp⟩ := h.readBit hend
      refine ⟨r', ?_, hi, hs, hp⟩
      have hlt := bitsAt_lt r.stream r.bitPos 1
      have hbit : (decide (bitsAt r.stream r.bitPos 1 = 1)).toNat = bitsAt r.stream r.bitPos 1 := by
        by_cases h1 : bitsAt r.stream r.bitPos 1 = 1
        · simp [h1]
        · rw [decide_eq_false h1, Bool.toNat_false]; omega
      simp only [BStreamReader.readOp, hread, Option.map_some', hbit, Read.width]
  | byte =>
      obtain ⟨r', hread, hi, hs, hp⟩ := h.readByte hend
      refine ⟨r', ?_, hi, hs, hp⟩
      simp only [BStreamReader.readOp, hread, Option.map_some', BitVec.toNat_ofNat, Read.width,
        Nat.mod_eq_of_lt (bitsAt_lt r.stream r.bitPos 8)]
  | bits n =>
      have hn8 : (BitVec.ofNat 8 n).toNat = n := by
        rw [BitVec.toNat_ofNat]; exact Nat.mod_eq_of_lt (by have := hw.2; omega)
      obtain ⟨r', hread, hi, hs, hp⟩ := h.readBits (by rw [hn8]; exact hw.1)
        (by rw [hn8]; exact hw.2) (by rw [hn8]; exact hend)
      refine ⟨r', ?_, hi, hs, by rw [hp, hn8]; rfl⟩
      simp only [BStreamReader.readOp, hread, hn8, Option.map_some', BitVec.toNat_ofNat, Read.width,
        Nat.mod_eq_of_lt (bitsAt_lt_two_pow_64 r.stream r.bitPos hw.2)]

/-- A run of well-formed reads that stays inside the stream returns, read for read, the
reference values from the reader's position. -/
theorem Inv.readSeq (h : r.Inv) (reads : List Read) (hw : ∀ op ∈ reads, op.WellFormed)
    (hend : r.bitPos + (reads.map Read.width).sum ≤ 8 * r.stream.length) :
    r.readSeq reads = expectedReads r.stream r.bitPos reads := by
  induction reads generalizing r with
  | nil => rfl
  | cons op rest ih =>
      simp only [List.map_cons, List.sum_cons] at hend
      obtain ⟨r', hread, hi, hs, hp⟩ := h.readOp (hw op (List.mem_cons_self _ _)) (by omega)
      simp only [BStreamReader.readSeq, hread, expectedReads, List.cons.injEq, true_and]
      rw [ih hi (fun x hx => hw x (List.mem_cons_of_mem _ hx)) (by rw [hp, hs]; omega), hs, hp]

end BStreamReader

/-- Reads on `newBReader(s)` whose widths fit in `s` return the bits of `s` from the sum of
the earlier widths, with no error; a reader over any prefix that holds them returns the
same values. -/
theorem readSeq_newBReader (s : List (BitVec 8)) (reads : List Read)
    (hw : ∀ op ∈ reads, op.WellFormed) (hend : (reads.map Read.width).sum ≤ 8 * s.length) :
    (newBReader s).readSeq reads = expectedReads s 0 reads ∧
      ∀ k, (reads.map Read.width).sum ≤ 8 * k →
        (newBReader (s.take k)).readSeq reads = (newBReader s).readSeq reads := by
  have hfull : ∀ t : List (BitVec 8), (reads.map Read.width).sum ≤ 8 * t.length →
      (newBReader t).readSeq reads = expectedReads t 0 reads := fun t ht =>
    (BStreamReader.newBReader_inv t).readSeq reads hw
      (by rw [BStreamReader.newBReader_bitPos, Nat.zero_add]; exact ht)
  refine ⟨hfull s hend, fun k hk => ?_⟩
  have hlen : (reads.map Read.width).sum ≤ 8 * (s.take k).length := by
    rw [List.length_take]; omega
  rw [hfull _ hlen, hfull s hend, expectedReads_take s reads (by omega)]

/-- Over `[0xFF, 0xFF]`, four bits, a byte and two single bits read back the reference
values, from the whole stream and from every prefix that holds them. -/
theorem readSeq_newBReader_sample :
    (∀ op ∈ [Read.bits 4, .byte, .bit, .bit], op.WellFormed) ∧
      ([Read.bits 4, .byte, .bit, .bit].map Read.width).sum ≤ 8 * [0xFF#8, 0xFF#8].length ∧
      ((newBReader [0xFF, 0xFF]).readSeq [Read.bits 4, .byte, .bit, .bit] =
        expectedReads [0xFF, 0xFF] 0 [Read.bits 4, .byte, .bit, .bit] ∧
      ∀ k, ([Read.bits 4, .byte, .bit, .bit].map Read.width).sum ≤ 8 * k →
        (newBReader ([0xFF, 0xFF].take k)).readSeq [Read.bits 4, .byte, .bit, .bit] =
          (newBReader [0xFF, 0xFF]).readSeq [Read.bits 4, .byte, .bit, .bit]) :=
  ⟨by decide, by decide, readSeq_newBReader _ _ (by decide) (by decide)⟩

/-- Over `[0xFF, 0xFF]`, after four bits are read, `readBits(16)` returns with no error
though only twelve bits remain: the refill finds one byte where it wants two, `valid - nbits`
wraps to 252, the shift by it gives 0, and the value is `0xF000`, the next byte lost. -/
theorem readBits_past_end :
    8 * [0xFF#8, 0xFF#8].length < ([Read.bits 4, .bits 16].map Read.width).sum ∧
      (newBReader [0xFF, 0xFF]).readSeq [.bits 4, .bits 16] = [some 0xF, some 0xF000] := by
  decide

namespace BStreamReader

/-- A field masked to its low `k` bits fits in `k` bits, whatever `k` is. -/
theorem and_mask_lt (x : BitVec 64) (k : Nat) : (x &&& ((1#64 <<< k) - 1)).toNat < 2 ^ k := by
  by_cases hk : k ≤ 64
  · rw [BitVec.toNat_and, mask_toNat hk]
    exact lt_of_le_of_lt Nat.and_le_right (Nat.sub_lt (Nat.two_pow_pos k) Nat.one_pos)
  · exact lt_of_lt_of_le (BitVec.isLt _) (Nat.pow_le_pow_right Nat.two_pos (by omega))

theorem readBitsFast_fits (r : BStreamReader) (n : BitVec 8) :
    ((r.readBitsFast n).1.all fun v => v.toNat < 2 ^ n.toNat) = true := by
  unfold readBitsFast
  split
  · rfl
  · simp only [Option.all_some, decide_eq_true_eq]
    exact and_mask_lt _ _

/-- The value of a read that straddles the window: the `valid` bits left, shifted up by the
`n - valid` bits taken from the next window. -/
theorem straddle_lt {r : BStreamReader} {n : BitVec 8} (hn : n.toNat ≤ 64) (hv : ¬ n ≤ r.valid)
    (x : BitVec 64) (k : Nat) :
    (((r.buffer &&& (1#64 <<< r.valid.toNat) - 1) <<< (n - r.valid).toNat) |||
      (x >>> k &&& (1#64 <<< (n - r.valid).toNat) - 1)).toNat < 2 ^ n.toNat := by
  have hlt : r.valid.toNat < n.toNat := by
    rw [BitVec.not_le, BitVec.lt_def] at hv
    exact hv
  have hrest : (n - r.valid).toNat = n.toNat - r.valid.toNat :=
    BitVec.toNat_sub_of_le (by rw [BitVec.le_def]; omega)
  rw [BitVec.toNat_or]
  refine Nat.or_lt_two_pow ?_ (lt_of_lt_of_le (and_mask_lt _ _)
    (Nat.pow_le_pow_right Nat.two_pos (by omega)))
  rw [BitVec.toNat_shiftLeft, Nat.shiftLeft_eq]
  calc _ ≤ (r.buffer &&& (1#64 <<< r.valid.toNat) - 1).toNat * 2 ^ (n - r.valid).toNat :=
        Nat.mod_le _ _
    _ < 2 ^ r.valid.toNat * 2 ^ (n - r.valid).toNat :=
        Nat.mul_lt_mul_of_pos_right (and_mask_lt _ _) (Nat.two_pow_pos _)
    _ = 2 ^ n.toNat := by rw [← Nat.pow_add, hrest, Nat.add_sub_cancel' hlt.le]

/-- Whatever state a reader is in, past the end of its stream included, a value that
`readBits(n)` returns fits in `n` bits: every path masks what it takes from a window, and a
straddling read shifts the bits left in the window by exactly the bits it takes from the
next one. -/
theorem readBits_fits (b : BStreamReader) (n : BitVec 8) :
    ((b.readBits n).1.all fun v => v.toNat < 2 ^ n.toNat) = true := by
  rcases Nat.lt_or_ge n.toNat 64 with hn | hn
  · unfold readBits
    generalize (if b.valid = 0 then b.loadNextBuffer n else (true, b)) = p
    obtain ⟨ok, r⟩ := p
    dsimp only
    split
    · rfl
    split
    · exact readBitsFast_fits r n
    · split
      · rfl
      · simp only [Option.all_some, decide_eq_true_eq]
        exact straddle_lt hn.le ‹_› _ _
  · -- a read of 64 bits or more: every 64-bit value fits
    cases (b.readBits n).1 with
    | none => rfl
    | some v =>
      simp only [Option.all_some, decide_eq_true_eq]
      exact lt_of_lt_of_le v.isLt (Nat.pow_le_pow_right Nat.two_pos hn)

end BStreamReader

end EmbedTSDB
