import EmbedTSDB.BStream.Writer
import Mathlib.Data.Nat.Bitwise

/-! The reader half of `bstream.go`. A 64-bit window is refilled from the byte slice,
eight bytes at a time while more than eight remain and only as many as a read needs
near the end. The reader is related to a bit position in the slice read MSB first. -/
namespace EmbedTSDB

/-- `bstreamReader`: the slice, the next byte to load, the window and how many of its
low bits are still unread. -/
structure BStreamReader where
  stream : List (BitVec 8)
  streamOffset : Nat
  buffer : BitVec 64
  valid : BitVec 8
  deriving DecidableEq, Repr

def newBReader (b : List (BitVec 8)) : BStreamReader := ⟨b, 0, 0, 0⟩

/-- The bytes at `offset`, ..., `offset + nbytes - 1` or-ed into one word, the first
byte highest: the slow-path loop of `loadNextBuffer`. -/
def orBytes (stream : List (BitVec 8)) (offset nbytes : Nat) : BitVec 64 :=
  (List.range nbytes).foldl (fun buffer i =>
    buffer ||| (stream.getD (offset + i) 0).setWidth 64 <<< (8 * (nbytes - i - 1))) 0

/-- `binary.BigEndian.Uint64`: the first eight bytes, the first one highest. -/
def bigEndianUint64 (b : List (BitVec 8)) : BitVec 64 := orBytes b 0 8

theorem bigEndianUint64_drop (s : List (BitVec 8)) (off : Nat) :
    bigEndianUint64 (s.drop off) = orBytes s off 8 := by
  simp [bigEndianUint64, orBytes, List.getD_eq_getElem?_getD, List.getElem?_drop]

namespace BStreamReader

/-- Refill the window. `false` stands for an exhausted stream; only that path leaves the
reader unchanged. -/
def loadNextBuffer (b : BStreamReader) (nbits : BitVec 8) : Bool × BStreamReader :=
  if b.streamOffset ≥ b.stream.length then (false, b)
  else if b.streamOffset + 8 < b.stream.length then
    (true, { b with buffer := bigEndianUint64 (b.stream.drop b.streamOffset),
                    streamOffset := b.streamOffset + 8, valid := 64 })
  else
    let nbytes := (nbits / 8 + 1).toNat
    let nbytes := if b.streamOffset + nbytes > b.stream.length
      then b.stream.length - b.streamOffset else nbytes
    (true, { b with buffer := orBytes b.stream b.streamOffset nbytes,
                    streamOffset := b.streamOffset + nbytes,
                    valid := BitVec.ofNat 8 (nbytes * 8) })

/-- `none` is `io.EOF`. -/
def readBitFast (b : BStreamReader) : Option Bool × BStreamReader :=
  if b.valid = 0 then (none, b)
  else
    let valid := b.valid - 1
    let bitmask := 1#64 <<< valid.toNat
    (some (b.buffer &&& bitmask != 0), { b with valid })

def readBit (b : BStreamReader) : Option Bool × BStreamReader :=
  let (ok, b) := if b.valid = 0 then b.loadNextBuffer 1 else (true, b)
  if ok then b.readBitFast else (none, b)

def readBitsFast (b : BStreamReader) (nbits : BitVec 8) : Option (BitVec 64) × BStreamReader :=
  if nbits > b.valid then (none, b)
  else
    let bitmask := (1#64 <<< nbits.toNat) - 1
    let valid := b.valid - nbits
    (some ((b.buffer >>> valid.toNat) &&& bitmask), { b with valid })

def readBits (b : BStreamReader) (nbits : BitVec 8) : Option (BitVec 64) × BStreamReader :=
  let (ok, b) := if b.valid = 0 then b.loadNextBuffer nbits else (true, b)
  if !ok then (none, b)
  else if nbits ≤ b.valid then b.readBitsFast nbits
  else
    -- the read straddles the window: its remaining bits, then the head of the next one
    let bitmask := (1#64 <<< b.valid.toNat) - 1
    let nbits := nbits - b.valid
    let v := (b.buffer &&& bitmask) <<< nbits.toNat
    match { b with valid := 0 }.loadNextBuffer nbits with
    | (false, b) => (none, b)
    | (true, b) =>
      let bitmask := (1#64 <<< nbits.toNat) - 1
      (some (v ||| ((b.buffer >>> (b.valid - nbits).toNat) &&& bitmask)),
        { b with valid := b.valid - nbits })

def readByte (b : BStreamReader) : Option (BitVec 8) × BStreamReader :=
  match b.readBits 8 with
  | (none, b) => (none, b)
  | (some v, b) => (some (v.setWidth 8), b)

end BStreamReader

/-! ### Bits of a byte slice -/

/-- The `n` bits of `s` from bit position `pos`, MSB first, as a number. -/
def bitsAt (s : List (BitVec 8)) (pos n : Nat) : Nat :=
  beValue s / 2 ^ (8 * s.length - (pos + n)) % 2 ^ n

theorem bitsAt_lt (s : List (BitVec 8)) (pos n : Nat) : bitsAt s pos n < 2 ^ n :=
  Nat.mod_lt _ (Nat.two_pow_pos n)

@[simp] theorem bitsAt_zero (s : List (BitVec 8)) (pos : Nat) : bitsAt s pos 0 = 0 := by
  simp [bitsAt, Nat.mod_one]

/-- A field of `a + b` bits is its first `a` bits followed by the next `b`. -/
theorem bitsAt_add (s : List (BitVec 8)) {pos a b : Nat} (h : pos + a + b ≤ 8 * s.length) :
    bitsAt s pos (a + b) = bitsAt s pos a * 2 ^ b + bitsAt s (pos + a) b := by
  have hshift : 8 * s.length - (pos + a) = (8 * s.length - (pos + a + b)) + b := by omega
  simp only [bitsAt, hshift, Nat.pow_add, ← Nat.div_div_eq_div_mul, ← Nat.add_assoc]
  rw [Nat.mul_comm (2 ^ a), Nat.mod_mul]
  ring

/-- The eight bits at a byte boundary are that byte. -/
theorem bitsAt_byte (s : List (BitVec 8)) {i : Nat} (h : i < s.length) :
    bitsAt s (8 * i) 8 = (s.getD i 0).toNat := by
  have hs : beValue s = (beValue (s.take i) * 256 + s[i].toNat) * 2 ^ (8 * (s.length - (i + 1))) +
      beValue (s.drop (i + 1)) := by
    conv_lhs => rw [← List.take_append_drop (i + 1) s, ← List.take_concat_get' s i h]
    rw [beValue_append, beValue_concat, List.length_drop]
  rw [bitsAt, hs, show 8 * s.length - (8 * i + 8) = 8 * (s.length - (i + 1)) by omega,
    Nat.add_comm, Nat.add_mul_div_right _ _ (Nat.two_pow_pos _),
    Nat.div_eq_of_lt (by simpa using beValue_lt (s.drop (i + 1))), Nat.zero_add]
  have hi := (s[i]).isLt
  simp only [List.getD_eq_getElem?_getD, List.getElem?_eq_getElem h, Option.getD_some,
    Nat.reducePow] at hi ⊢
  omega

/-- After `j` rounds the slow-path loop holds the first `j` bytes, shifted into place. -/
private theorem orBytes_prefix (s : List (BitVec 8)) {off k j : Nat} (hj : j ≤ k) (hk : k ≤ 8)
    (hoff : off + k ≤ s.length) :
    ((List.range j).foldl (fun buffer i =>
      buffer ||| (s.getD (off + i) 0).setWidth 64 <<< (8 * (k - i - 1))) 0).toNat =
      bitsAt s (8 * off) (8 * j) * 2 ^ (8 * (k - j)) := by
  induction j with
  | zero => simp
  | succ j ih =>
      have hbyte := (s.getD (off + j) 0).isLt
      have hsmall : (s.getD (off + j) 0).toNat * 2 ^ (8 * (k - j - 1)) < 2 ^ (8 * (k - j)) := by
        rw [show 8 * (k - j) = 8 + 8 * (k - j - 1) by omega, Nat.pow_add]
        exact Nat.mul_lt_mul_of_pos_right hbyte (Nat.two_pow_pos _)
      have hfit : 2 ^ (8 * (k - j)) ≤ 2 ^ 64 := Nat.pow_le_pow_right (by omega) (by omega)
      have h64 : (s.getD (off + j) 0).toNat % 2 ^ 64 = (s.getD (off + j) 0).toNat :=
        Nat.mod_eq_of_lt (by omega)
      have hshift : (s.getD (off + j) 0).toNat * 2 ^ (8 * (k - j - 1)) % 2 ^ 64 =
          (s.getD (off + j) 0).toNat * 2 ^ (8 * (k - j - 1)) := Nat.mod_eq_of_lt (by omega)
      rw [List.range_succ, List.foldl_append, List.foldl_cons, List.foldl_nil, BitVec.toNat_or,
        ih (by omega), BitVec.toNat_shiftLeft, BitVec.toNat_setWidth, Nat.shiftLeft_eq, h64, hshift,
        or_eq_add_of_dvd (Dvd.intro_left _ rfl) hsmall, Nat.mul_add, bitsAt_add s (by omega),
        ← Nat.mul_add, bitsAt_byte s (by omega),
        show 8 * (k - j) = 8 + 8 * (k - (j + 1)) by omega, Nat.pow_add,
        show k - j - 1 = k - (j + 1) by omega]
      ring

/-- The or-ed bytes are the `8 * nbytes` bits at their byte offset. -/
theorem orBytes_toNat (s : List (BitVec 8)) {off k : Nat} (hk : k ≤ 8) (hoff : off + k ≤ s.length) :
    (orBytes s off k).toNat = bitsAt s (8 * off) (8 * k) := by
  have h := orBytes_prefix s (le_refl k) hk hoff
  rwa [Nat.sub_self, Nat.mul_zero, Nat.pow_zero, Nat.mul_one] at h

/-- `(uint64(1) << n) - 1` has the low `n` bits set, `n = 64` included. -/
theorem mask_toNat {n : Nat} (hn : n ≤ 64) : ((1#64 <<< n) - 1).toNat = 2 ^ n - 1 := by
  rw [BitVec.toNat_sub, BitVec.toNat_shiftLeft, BitVec.toNat_ofNat, Nat.shiftLeft_eq]
  rcases Nat.lt_or_eq_of_le hn with hlt | rfl
  · have hp : 2 ^ n < 2 ^ 64 := Nat.pow_lt_pow_right (by omega) hlt
    have hpos := Nat.two_pow_pos n
    have h1 : (1 : BitVec 64).toNat = 1 := rfl
    simp only [h1]
    simp only [Nat.one_mul, Nat.mod_eq_of_lt hp, Nat.reducePow, Nat.one_mod] at hp ⊢
    omega
  · decide

/-! ### The reader's position in the stream -/

namespace BStreamReader

/-- Bits consumed so far: the loaded bytes less the window's unread bits. -/
def bitPos (r : BStreamReader) : Nat := 8 * r.streamOffset - r.valid.toNat

/-- The window's `valid` unread bits are the stream's bits just before `streamOffset`. -/
structure Inv (r : BStreamReader) : Prop where
  valid_le : r.valid.toNat ≤ 64
  offset_le : r.streamOffset ≤ r.stream.length
  valid_le_offset : r.valid.toNat ≤ 8 * r.streamOffset
  window : r.buffer.toNat % 2 ^ r.valid.toNat = bitsAt r.stream r.bitPos r.valid.toNat

theorem newBReader_inv (s : List (BitVec 8)) : (newBReader s).Inv :=
  ⟨by simp [newBReader], Nat.zero_le _, le_refl _, by simp [newBReader]⟩

@[simp] theorem newBReader_bitPos (s : List (BitVec 8)) : (newBReader s).bitPos = 0 := rfl

variable {r : BStreamReader}

/-- The window's next `n` unread bits are the stream's bits at the reader's position. -/
theorem Inv.window_div (h : r.Inv) {n : Nat} (hn : n ≤ r.valid.toNat) :
    r.buffer.toNat / 2 ^ (r.valid.toNat - n) % 2 ^ n = bitsAt r.stream r.bitPos n := by
  have hsplit := @bitsAt_add r.stream r.bitPos n (r.valid.toNat - n)
    (by have := h.valid_le_offset; have := h.offset_le; unfold bitPos; omega)
  rw [Nat.add_sub_cancel' hn] at hsplit
  calc r.buffer.toNat / 2 ^ (r.valid.toNat - n) % 2 ^ n
      = r.buffer.toNat % (2 ^ (r.valid.toNat - n) * 2 ^ n) / 2 ^ (r.valid.toNat - n) :=
        (Nat.mod_mul_right_div_self _ _ _).symm
    _ = bitsAt r.stream r.bitPos r.valid.toNat / 2 ^ (r.valid.toNat - n) := by
        rw [← Nat.pow_add, Nat.sub_add_cancel hn, h.window]
    _ = bitsAt r.stream r.bitPos n := by
        rw [hsplit, Nat.mul_comm, Nat.mul_add_div (Nat.two_pow_pos _),
          Nat.div_eq_of_lt (bitsAt_lt _ _ _), Nat.add_zero]

/-- Dropping `n` bits from the window keeps the invariant and advances the position. -/
theorem Inv.consume (h : r.Inv) {n : BitVec 8} (hn : n.toNat ≤ r.valid.toNat) :
    ({ r with valid := r.valid - n } : BStreamReader).Inv ∧
      ({ r with valid := r.valid - n } : BStreamReader).bitPos = r.bitPos + n.toNat := by
  have hsub : (r.valid - n).toNat = r.valid.toNat - n.toNat :=
    BitVec.toNat_sub_of_le (BitVec.le_def.2 hn)
  have hle := h.valid_le_offset
  have hpos : ({ r with valid := r.valid - n } : BStreamReader).bitPos = r.bitPos + n.toNat := by
    simp only [bitPos, hsub]
    omega
  refine ⟨⟨by simp only [hsub]; have := h.valid_le; omega, h.offset_le, by simp only [hsub]; omega,
    ?_⟩, hpos⟩
  have hsplit := @bitsAt_add r.stream r.bitPos n.toNat (r.valid.toNat - n.toNat)
    (by have := h.offset_le; unfold bitPos; omega)
  rw [Nat.add_sub_cancel' hn] at hsplit
  simp only [hpos, hsub]
  rw [← Nat.mod_mod_of_dvd _ (Nat.pow_dvd_pow 2 (Nat.sub_le _ _)), h.window, hsplit,
    Nat.add_comm, Nat.add_mul_mod_self_right, Nat.mod_eq_of_lt (bitsAt_lt _ _ _)]

/-- The masked window expression of `readBitsFast` and of the straddling read. -/
theorem Inv.window_value (h : r.Inv) {n : BitVec 8} (hn : n.toNat ≤ r.valid.toNat) :
    ((r.buffer >>> (r.valid - n).toNat) &&& ((1#64 <<< n.toNat) - 1)).toNat =
      bitsAt r.stream r.bitPos n.toNat := by
  have hsub : (r.valid - n).toNat = r.valid.toNat - n.toNat :=
    BitVec.toNat_sub_of_le (BitVec.le_def.2 hn)
  rw [BitVec.toNat_and, BitVec.toNat_ushiftRight, hsub, mask_toNat (by have := h.valid_le; omega),
    Nat.and_pow_two_sub_one_eq_mod, Nat.shiftRight_eq_div_pow, h.window_div hn]

theorem bitsAt_lt_two_pow_64 (s : List (BitVec 8)) (pos : Nat) {n : Nat} (hn : n ≤ 64) :
    bitsAt s pos n < 2 ^ 64 :=
  Nat.lt_of_lt_of_le (bitsAt_lt _ _ _) (Nat.pow_le_pow_right (by omega) hn)

theorem Inv.readBitsFast (h : r.Inv) {n : BitVec 8} (hn : n.toNat ≤ r.valid.toNat) :
    r.readBitsFast n =
      (some (BitVec.ofNat 64 (bitsAt r.stream r.bitPos n.toNat)),
        { r with valid := r.valid - n }) := by
  have hle : ¬ n > r.valid := by rw [gt_iff_lt, BitVec.lt_def]; omega
  simp only [BStreamReader.readBitsFast, hle, ↓reduceIte, Prod.mk.injEq, Option.some.injEq,
    and_true]
  apply BitVec.eq_of_toNat_eq
  rw [h.window_value hn, BitVec.toNat_ofNat,
    Nat.mod_eq_of_lt (bitsAt_lt_two_pow_64 _ _ (by have := h.valid_le; omega))]

theorem Inv.readBitFast (h : r.Inv) (hv : 0 < r.valid.toNat) :
    r.readBitFast =
      (some (decide (bitsAt r.stream r.bitPos 1 = 1)), { r with valid := r.valid - 1 }) := by
  have h0 : r.valid ≠ 0 := fun he => by simp [he] at hv
  have hsub : (r.valid - 1).toNat = r.valid.toNat - 1 := BitVec.toNat_sub_of_le (BitVec.le_def.2 hv)
  have hlt : r.valid.toNat - 1 < 64 := by have := h.valid_le; omega
  have key : (r.buffer &&& 1#64 <<< (r.valid - 1).toNat).toNat =
      (r.buffer.toNat.testBit (r.valid.toNat - 1)).toNat * 2 ^ (r.valid.toNat - 1) := by
    rw [BitVec.toNat_and, BitVec.toNat_shiftLeft, hsub, BitVec.toNat_ofNat, Nat.shiftLeft_eq,
      Nat.one_mod, Nat.one_mul, Nat.mod_eq_of_lt (Nat.pow_lt_pow_right (by omega) hlt),
      Nat.and_two_pow]
  have hbit : bitsAt r.stream r.bitPos 1 = (r.buffer.toNat.testBit (r.valid.toNat - 1)).toNat := by
    rw [← h.window_div hv, Nat.pow_one, Nat.testBit_to_div_mod]
    rcases Nat.mod_two_eq_zero_or_one (r.buffer.toNat / 2 ^ (r.valid.toNat - 1)) with hm | hm <;>
      simp [hm]
  simp only [BStreamReader.readBitFast, h0, ↓reduceIte, Prod.mk.injEq, Option.some.injEq, and_true]
  cases hb : r.buffer.toNat.testBit (r.valid.toNat - 1)
  · have hz : r.buffer &&& 1#64 <<< (r.valid - 1).toNat = 0 :=
      BitVec.eq_of_toNat_eq (by rw [key, hb]; simp)
    rw [hz, hbit, hb]
    decide
  · have hz : r.buffer &&& 1#64 <<< (r.valid - 1).toNat ≠ 0 := fun he => by
      have := congrArg BitVec.toNat he
      rw [key, hb] at this
      simp at this
    simp only [hbit, hb, Bool.toNat_true, decide_True, bne_iff_ne, ne_eq]
    exact hz

/-- Loading `k` whole bytes into an empty window keeps the position. -/
private theorem load_inv (h0 : r.valid.toNat = 0) {k : Nat} (hk : k ≤ 8)
    (hkL : r.streamOffset + k ≤ r.stream.length) :
    ({ r with buffer := orBytes r.stream r.streamOffset k, streamOffset := r.streamOffset + k,
              valid := BitVec.ofNat 8 (k * 8) } : BStreamReader).Inv ∧
    ({ r with buffer := orBytes r.stream r.streamOffset k, streamOffset := r.streamOffset + k,
              valid := BitVec.ofNat 8 (k * 8) } : BStreamReader).bitPos = r.bitPos := by
  have hv : (BitVec.ofNat 8 (k * 8)).toNat = 8 * k := by rw [BitVec.toNat_ofNat]; omega
  have hpos : r.bitPos = 8 * r.streamOffset := by simp [bitPos, h0]
  refine ⟨⟨by rw [hv]; omega, by simp only; omega, by simp only [hv]; omega, ?_⟩, ?_⟩
  · simp only [bitPos, hv, orBytes_toNat _ hk hkL]
    rw [Nat.mod_eq_of_lt (bitsAt_lt _ _ _)]
    congr 1
    omega
  · rw [hpos]
    simp only [bitPos, hv]
    omega

/-- Refilling an empty window of an unfinished stream loads at least one byte and keeps
the position; it loads enough for a read of `nbits` unless it reaches the end. -/
theorem loadNextBuffer_of_empty (h0 : r.valid.toNat = 0)
    (hoff : r.streamOffset < r.stream.length) {nbits : BitVec 8} (hn : nbits.toNat ≤ 64) :
    ∃ r', r.loadNextBuffer nbits = (true, r') ∧ r'.Inv ∧ r'.stream = r.stream ∧
      r'.bitPos = r.bitPos ∧ 0 < r'.valid.toNat ∧
      (nbits.toNat ≤ r'.valid.toNat ∨ r'.streamOffset = r'.stream.length) := by
  have hnot : ¬ r.streamOffset ≥ r.stream.length := by omega
  unfold BStreamReader.loadNextBuffer
  rw [if_neg hnot]
  split
  · rename_i hfast
    rw [bigEndianUint64_drop, show (64 : BitVec 8) = BitVec.ofNat 8 (8 * 8) from rfl]
    obtain ⟨hi, hp⟩ := load_inv h0 (le_refl 8) (by omega)
    exact ⟨_, rfl, hi, rfl, hp, by simp, by simp; omega⟩
  · rename_i hslow
    have hdiv : (nbits / 8 + 1).toNat = nbits.toNat / 8 + 1 := by
      have h8 : (8 : BitVec 8).toNat = 8 := rfl
      have h1 : (1 : BitVec 8).toNat = 1 := rfl
      rw [BitVec.toNat_add, BitVec.toNat_udiv, h8, h1]
      omega
    dsimp only
    rw [hdiv]
    split <;>
    ( refine ⟨_, rfl, (load_inv h0 ?_ ?_).1, rfl, (load_inv h0 ?_ ?_).2, ?_, ?_⟩ <;>
        (try simp only [BitVec.toNat_ofNat]) <;> omega)

/-- An empty window at position `p` holds no bits; after a refill it holds enough for any
read that fits in the stream. -/
private theorem enough_after_load {r' : BStreamReader} (hi : r'.Inv) {n : Nat}
    (hcase : n ≤ r'.valid.toNat ∨ r'.streamOffset = r'.stream.length)
    (hend : r'.bitPos + n ≤ 8 * r'.stream.length) : n ≤ r'.valid.toNat := by
  have := hi.valid_le_offset
  rcases hcase with hc | hc
  · exact hc
  · unfold bitPos at hend
    omega

/-- A read of `1 ≤ n ≤ 64` bits that stays inside the stream returns exactly them. -/
theorem Inv.readBits (h : r.Inv) {n : BitVec 8} (hn1 : 1 ≤ n.toNat) (hn : n.toNat ≤ 64)
    (hend : r.bitPos + n.toNat ≤ 8 * r.stream.length) :
    ∃ r', r.readBits n = (some (BitVec.ofNat 64 (bitsAt r.stream r.bitPos n.toNat)), r') ∧
      r'.Inv ∧ r'.stream = r.stream ∧ r'.bitPos = r.bitPos + n.toNat := by
  have hv64 := h.valid_le
  have hvoff := h.valid_le_offset
  by_cases h0 : r.valid = 0
  · -- an empty window is refilled first
    have h0' : r.valid.toNat = 0 := by simp [h0]
    obtain ⟨r1, hload, hi1, hs1, hp1, -, hcase⟩ :=
      loadNextBuffer_of_empty h0' (by unfold bitPos at hend; omega) hn
    have hle := enough_after_load hi1 hcase (by rw [hp1, hs1]; exact hend)
    obtain ⟨hi2, hp2⟩ := hi1.consume hle
    refine ⟨_, ?_, hi2, hs1, by rw [hp2, hp1]⟩
    have hle' : n ≤ r1.valid := BitVec.le_def.mpr hle
    simp only [BStreamReader.readBits, h0, ↓reduceIte, hload, Bool.not_true, Bool.false_eq_true,
      hle', hi1.readBitsFast hle, hs1, hp1]
  by_cases hle : n.toNat ≤ r.valid.toNat
  · -- the window holds the whole read
    obtain ⟨hi2, hp2⟩ := h.consume hle
    refine ⟨_, ?_, hi2, rfl, hp2⟩
    have hle' : n ≤ r.valid := BitVec.le_def.mpr hle
    simp only [BStreamReader.readBits, h0, ↓reduceIte, Bool.not_true, Bool.false_eq_true, hle',
      h.readBitsFast hle]
  · -- the read straddles the window: its `valid` bits, then `n - valid` from a refill
    have hnv : (n - r.valid).toNat = n.toNat - r.valid.toNat :=
      BitVec.toNat_sub_of_le (BitVec.le_def.2 (by omega))
    have hoff : r.streamOffset < r.stream.length := by unfold bitPos at hend; omega
    obtain ⟨r1, hload, hi1, hs1, hp1, -, hcase⟩ :=
      loadNextBuffer_of_empty
        (show ({ r with valid := 0 } : BStreamReader).valid.toNat = 0 from rfl)
        hoff (show (n - r.valid).toNat ≤ 64 by omega)
    have hz : (0 : BitVec 8).toNat = 0 := rfl
    dsimp only at hs1
    have hp1' : r1.bitPos = r.bitPos + r.valid.toNat := by
      rw [hp1]; simp only [bitPos, hz]; omega
    have hle1 := enough_after_load hi1 hcase (by rw [hp1', hs1, hnv]; omega)
    obtain ⟨hi2, hp2⟩ := hi1.consume hle1
    refine ⟨_, ?_, hi2, hs1, by rw [hp2, hp1', hnv]; omega⟩
    have hle' : ¬ n ≤ r.valid := fun he => hle (BitVec.le_def.mp he)
    simp only [BStreamReader.readBits, h0, ↓reduceIte, Bool.not_true, Bool.false_eq_true, hle',
      hload, Prod.mk.injEq, Option.some.injEq, and_true]
    have hhigh : ((r.buffer &&& (1#64 <<< r.valid.toNat) - 1) <<< (n - r.valid).toNat).toNat =
        bitsAt r.stream r.bitPos r.valid.toNat * 2 ^ (n.toNat - r.valid.toNat) := by
      rw [BitVec.toNat_shiftLeft, BitVec.toNat_and, mask_toNat hv64, Nat.and_pow_two_sub_one_eq_mod,
        h.window, hnv, Nat.shiftLeft_eq, Nat.mod_eq_of_lt]
      calc bitsAt r.stream r.bitPos r.valid.toNat * 2 ^ (n.toNat - r.valid.toNat)
          < 2 ^ r.valid.toNat * 2 ^ (n.toNat - r.valid.toNat) :=
            Nat.mul_lt_mul_of_pos_right (bitsAt_lt _ _ _) (Nat.two_pow_pos _)
        _ ≤ 2 ^ 64 := by rw [← Nat.pow_add]; exact Nat.pow_le_pow_right (by omega) (by omega)
    have hlow := hi1.window_value hle1
    rw [hs1, hp1'] at hlow
    apply BitVec.eq_of_toNat_eq
    rw [BitVec.toNat_or, hhigh, hlow, hnv,
      or_eq_add_of_dvd (Dvd.intro_left _ rfl) (bitsAt_lt _ _ _),
      ← bitsAt_add _ (by omega), Nat.add_sub_cancel' (by omega), BitVec.toNat_ofNat,
      Nat.mod_eq_of_lt (bitsAt_lt_two_pow_64 _ _ hn)]

theorem Inv.readBit (h : r.Inv) (hend : r.bitPos + 1 ≤ 8 * r.stream.length) :
    ∃ r', r.readBit = (some (decide (bitsAt r.stream r.bitPos 1 = 1)), r') ∧
      r'.Inv ∧ r'.stream = r.stream ∧ r'.bitPos = r.bitPos + 1 := by
  have hone : (1 : BitVec 8).toNat = 1 := rfl
  by_cases h0 : r.valid = 0
  · have h0' : r.valid.toNat = 0 := by simp [h0]
    obtain ⟨r1, hload, hi1, hs1, hp1, hv1, -⟩ :=
      loadNextBuffer_of_empty h0' (by unfold bitPos at hend; omega)
        (show (1 : BitVec 8).toNat ≤ 64 by decide)
    obtain ⟨hi2, hp2⟩ := hi1.consume (show (1 : BitVec 8).toNat ≤ r1.valid.toNat by omega)
    refine ⟨_, ?_, hi2, hs1, by rw [hp2, hp1, hone]⟩
    simp only [BStreamReader.readBit, h0, ↓reduceIte, hload, hi1.readBitFast hv1, hs1, hp1]
  · have hv : 0 < r.valid.toNat := Nat.pos_of_ne_zero fun he => h0 (BitVec.eq_of_toNat_eq he)
    obtain ⟨hi2, hp2⟩ := h.consume (show (1 : BitVec 8).toNat ≤ r.valid.toNat by omega)
    refine ⟨_, ?_, hi2, rfl, by rw [hp2, hone]⟩
    simp only [BStreamReader.readBit, h0, ↓reduceIte, h.readBitFast hv]

theorem Inv.readByte (h : r.Inv) (hend : r.bitPos + 8 ≤ 8 * r.stream.length) :
    ∃ r', r.readByte = (some (BitVec.ofNat 8 (bitsAt r.stream r.bitPos 8)), r') ∧
      r'.Inv ∧ r'.stream = r.stream ∧ r'.bitPos = r.bitPos + 8 := by
  obtain ⟨r', hread, hi, hs, hp⟩ := h.readBits (show 1 ≤ (8 : BitVec 8).toNat by decide)
    (show (8 : BitVec 8).toNat ≤ 64 by decide) hend
  refine ⟨r', ?_, hi, hs, hp⟩
  simp only [BStreamReader.readByte, hread]
  congr 2
  apply BitVec.eq_of_toNat_eq
  simp [Nat.mod_mod_of_dvd _ (show 2 ^ 8 ∣ 2 ^ 64 by decide)]

end BStreamReader

end EmbedTSDB
