import Mathlib.Data.List.Basic
import Mathlib.Tactic.Ring

/-! The writer half of `bstream.go`. Bits are packed MSB first into a byte slice and
`count` says how many low bits of the last byte are still free. A stream is related to
the bits written so far by reading its bytes as one big-endian number. -/
namespace EmbedTSDB

/-- `bstream`: the bytes written so far and the number of free bits in the last one. -/
structure BStream where
  stream : List (BitVec 8)
  count : BitVec 8
  deriving DecidableEq, Repr

namespace BStream

/-- The zero value `bstream{}`. -/
def empty : BStream := ⟨[], 0⟩

def bytes (b : BStream) : List (BitVec 8) := b.stream

/-- The opening `if b.count == 0` of `writeBit` and `writeByte`: start a fresh byte. -/
def ensureFree (b : BStream) : BStream :=
  if b.count = 0 then ⟨b.stream ++ [0], 8⟩ else b

def writeBit (b : BStream) (bit : Bool) : BStream :=
  let b := b.ensureFree
  let stream := if bit then b.stream.modifyLast (· ||| 1#8 <<< (b.count - 1).toNat) else b.stream
  ⟨stream, b.count - 1⟩

def writeByte (b : BStream) (byt : BitVec 8) : BStream :=
  let b := b.ensureFree
  let stream := b.stream.modifyLast (· ||| byt >>> (8 - b.count).toNat)
  ⟨stream ++ [byt <<< b.count.toNat], b.count⟩

/-- The `for nbits > 0` loop of `writeBits`, one top bit of `u` at a time. -/
def writeBitsTail (b : BStream) (u : BitVec 64) : Nat → BStream
  | 0 => b
  | nbits + 1 => writeBitsTail (b.writeBit (u >>> 63 == 1)) (u <<< 1) nbits

/-- The `for nbits >= 8` loop of `writeBits`, one top byte of `u` at a time. -/
def writeBitsLoop (b : BStream) (u : BitVec 64) : Nat → BStream
  | nbits + 8 => writeBitsLoop (b.writeByte ((u >>> 56).setWidth 8)) (u <<< 8) nbits
  | nbits => b.writeBitsTail u nbits

/-- `writeBits(u, nbits)`. The shift `64 - uint(nbits)` is unsigned arithmetic: for
`nbits > 64` it wraps past 64 and clears `u`. -/
def writeBits (b : BStream) (u : BitVec 64) (nbits : Nat) : BStream :=
  b.writeBitsLoop (u <<< (64 - BitVec.ofNat 64 nbits).toNat) nbits

end BStream

/-- A byte slice read as one big-endian number. -/
def beValue (bytes : List (BitVec 8)) : Nat :=
  bytes.foldl (fun acc x => acc * 256 + x.toNat) 0

private theorem foldl_beValue (bytes : List (BitVec 8)) (acc : Nat) :
    bytes.foldl (fun acc x => acc * 256 + x.toNat) acc =
      acc * 2 ^ (8 * bytes.length) + beValue bytes := by
  induction bytes generalizing acc with
  | nil => simp [beValue]
  | cons x rest ih =>
      have hCons : beValue (x :: rest) =
          (0 * 256 + x.toNat) * 2 ^ (8 * rest.length) + beValue rest := ih _
      show rest.foldl _ (acc * 256 + x.toNat) = _
      rw [ih, hCons, List.length_cons, Nat.mul_add, Nat.pow_add]
      ring

@[simp] theorem beValue_nil : beValue [] = 0 := rfl

theorem beValue_append (l₁ l₂ : List (BitVec 8)) :
    beValue (l₁ ++ l₂) = beValue l₁ * 2 ^ (8 * l₂.length) + beValue l₂ := by
  simp only [beValue, List.foldl_append]
  exact foldl_beValue l₂ _

@[simp] theorem beValue_concat (bytes : List (BitVec 8)) (x : BitVec 8) :
    beValue (bytes ++ [x]) = beValue bytes * 256 + x.toNat := by
  simp [beValue_append, beValue]

theorem beValue_lt (bytes : List (BitVec 8)) : beValue bytes < 2 ^ (8 * bytes.length) := by
  induction bytes using List.reverseRecOn with
  | nil => simp
  | append_singleton rest x ih =>
      have hx := x.isLt
      rw [beValue_concat, List.length_append, List.length_singleton, Nat.mul_add, Nat.pow_add]
      simp only [Nat.reducePow, Nat.mul_one] at hx ⊢
      omega

/-- `width` written bits of value `value`, then `count` zero bits padding the last byte. -/
structure BStream.Holds (b : BStream) (value width : Nat) : Prop where
  count_le : b.count.toNat ≤ 8
  length_eq : 8 * b.stream.length = width + b.count.toNat
  value_eq : beValue b.stream = value * 2 ^ b.count.toNat

theorem BStream.empty_holds : BStream.empty.Holds 0 0 :=
  ⟨by decide, rfl, rfl⟩

/-! ### Arithmetic on shifted fields -/

theorem or_eq_add_of_dvd {a b c : Nat} (ha : 2 ^ c ∣ a) (hb : b < 2 ^ c) : a ||| b = a + b := by
  obtain ⟨q, rfl⟩ := ha
  exact (Nat.mul_add_lt_is_or hb q).symm

theorem mul_two_pow_div {x a b m : Nat} (h : a + b = m) : x * 2 ^ a / 2 ^ m = x / 2 ^ b := by
  rw [← h, Nat.pow_add, Nat.mul_comm (2 ^ a), Nat.mul_div_mul_right _ _ (Nat.two_pow_pos a)]

theorem mul_two_pow_mod {x a b m : Nat} (h : a + b = m) :
    x * 2 ^ a % 2 ^ m = x % 2 ^ b * 2 ^ a := by
  rw [← h, Nat.pow_add, Nat.mul_comm (2 ^ a), Nat.mul_mod_mul_right]

/-- The top `c` bits of `x` fill a byte's free tail and the rest start the next byte. -/
private theorem byte_split {c : Nat} (x : Nat) (hc : c ≤ 8) :
    x / 2 ^ (8 - c) * 256 + x * 2 ^ c % 256 = x * 2 ^ c := by
  have h256 : (256 : Nat) = 2 ^ (8 - c) * 2 ^ c := by rw [← Nat.pow_add, Nat.sub_add_cancel hc]
  have hmod : x * 2 ^ c % 256 = x % 2 ^ (8 - c) * 2 ^ c :=
    mul_two_pow_mod (by omega : c + (8 - c) = 8)
  rw [hmod, h256, ← Nat.mul_assoc, ← Nat.add_mul, Nat.div_add_mod']

/-! ### Each write extends the written value -/

namespace BStream

@[simp] theorem writeBit_count (b : BStream) (bit : Bool) :
    (b.writeBit bit).count = b.ensureFree.count - 1 := rfl

theorem writeBit_stream (b : BStream) (bit : Bool) :
    (b.writeBit bit).stream = if bit then
      b.ensureFree.stream.modifyLast (· ||| 1#8 <<< (b.ensureFree.count - 1).toNat)
    else b.ensureFree.stream := rfl

@[simp] theorem writeByte_count (b : BStream) (byt : BitVec 8) :
    (b.writeByte byt).count = b.ensureFree.count := rfl

theorem writeByte_stream (b : BStream) (byt : BitVec 8) :
    (b.writeByte byt).stream =
      b.ensureFree.stream.modifyLast (· ||| byt >>> (8 - b.ensureFree.count).toNat) ++
        [byt <<< b.ensureFree.count.toNat] := rfl

variable {b : BStream} {value width : Nat}

theorem Holds.ensureFree (h : b.Holds value width) :
    b.ensureFree.Holds value width ∧ 0 < b.ensureFree.count.toNat := by
  unfold BStream.ensureFree
  split
  · rename_i h0
    have hc : b.count.toNat = 0 := by simp [h0]
    have hl := h.length_eq
    have h8 : (8 : BitVec 8).toNat = 8 := rfl
    refine ⟨⟨by simp, ?_, ?_⟩, by simp⟩
    · simp only [List.length_append, List.length_singleton, h8]
      omega
    · simp [h.value_eq, hc]
  · rename_i h0
    exact ⟨h, Nat.pos_of_ne_zero fun he => h0 (BitVec.eq_of_toNat_eq he)⟩

/-- A stream with a free bit ends in a byte whose free bits are zero. -/
theorem Holds.exists_last (h : b.Holds value width) (hc : 0 < b.count.toNat) :
    ∃ init last, b.stream = init ++ [last] ∧ 2 ^ b.count.toNat ∣ last.toNat ∧
      beValue init * 256 + last.toNat = value * 2 ^ b.count.toNat := by
  rcases List.eq_nil_or_concat b.stream with hs | ⟨init, last, hs⟩
  · have := h.length_eq
    simp [hs] at this
    omega
  · rw [List.concat_eq_append] at hs
    have hv := h.value_eq
    rw [hs, beValue_concat] at hv
    have h256 : 2 ^ b.count.toNat ∣ beValue init * 256 :=
      Dvd.dvd.mul_left (Nat.pow_dvd_pow 2 h.count_le) _
    exact ⟨init, last, hs, (Nat.dvd_add_right h256).mp (hv ▸ Dvd.intro_left _ rfl), hv⟩

theorem Holds.writeBit (h : b.Holds value width) (bit : Bool) :
    (b.writeBit bit).Holds (2 * value + bit.toNat) (width + 1) := by
  obtain ⟨hf, hc⟩ := h.ensureFree
  obtain ⟨init, last, hs, hdvd, hv⟩ := hf.exists_last hc
  have hle := hf.count_le
  have hl := hf.length_eq
  obtain ⟨k, hk⟩ : ∃ k, b.ensureFree.count.toNat = k + 1 := ⟨_, (Nat.succ_pred_eq_of_pos hc).symm⟩
  have hsub : (b.ensureFree.count - 1).toNat = k := by
    rw [BitVec.toNat_sub_of_le (BitVec.le_def.2 (show 1 ≤ _ by omega)), hk]
    rfl
  rw [hk] at hle hdvd hv
  rw [hk, hs] at hl
  have hbit : 2 ^ k < 2 ^ (k + 1) := Nat.pow_lt_pow_succ (by omega)
  have hone : (1#8 <<< k).toNat = 2 ^ k := by
    rw [BitVec.toNat_shiftLeft, BitVec.toNat_ofNat, Nat.shiftLeft_eq, Nat.one_mul]
    exact Nat.mod_eq_of_lt (Nat.pow_lt_pow_right (by omega) (by omega))
  refine ⟨?_, ?_, ?_⟩
  · rw [writeBit_count, hsub]
    omega
  · rw [writeBit_count, writeBit_stream, hsub, hs]
    cases bit <;> simp [List.modifyLast_append_one] at hl ⊢ <;> omega
  · rw [writeBit_count, writeBit_stream, hsub, hs]
    cases bit
    · simp only [Bool.false_eq_true, ↓reduceIte, beValue_concat, hv, Bool.toNat_false]
      ring
    · simp only [↓reduceIte, List.modifyLast_append_one, beValue_concat, BitVec.toNat_or, hone,
        or_eq_add_of_dvd hdvd hbit, Bool.toNat_true]
      rw [← Nat.add_assoc, hv]
      ring

theorem Holds.writeByte (h : b.Holds value width) (byt : BitVec 8) :
    (b.writeByte byt).Holds (value * 256 + byt.toNat) (width + 8) := by
  obtain ⟨hf, hc⟩ := h.ensureFree
  obtain ⟨init, last, hs, hdvd, hv⟩ := hf.exists_last hc
  have hle := hf.count_le
  have hl := hf.length_eq
  have hsub : (8 - b.ensureFree.count).toNat = 8 - b.ensureFree.count.toNat :=
    BitVec.toNat_sub_of_le (BitVec.le_def.2 hle)
  have hhigh : byt.toNat / 2 ^ (8 - b.ensureFree.count.toNat) < 2 ^ b.ensureFree.count.toNat := by
    rw [Nat.div_lt_iff_lt_mul (Nat.two_pow_pos _), ← Nat.pow_add, Nat.add_sub_cancel' hle]
    exact byt.isLt
  refine ⟨hle, ?_, ?_⟩
  · rw [writeByte_count, writeByte_stream, hs]
    rw [hs] at hl
    simp [List.modifyLast_append_one] at hl ⊢
    omega
  · rw [writeByte_count, writeByte_stream, hs, List.modifyLast_append_one, beValue_concat,
      beValue_concat, BitVec.toNat_or, BitVec.toNat_ushiftRight, hsub, Nat.shiftRight_eq_div_pow,
      or_eq_add_of_dvd hdvd hhigh, ← Nat.add_assoc, hv, BitVec.toNat_shiftLeft,
      Nat.shiftLeft_eq, Nat.add_mul, Nat.add_assoc, byte_split _ hle]
    ring

/-- `writeBitsTail` writes the top `n` bits of `u`, which hold the value `x`. -/
theorem Holds.writeBitsTail (h : b.Holds value width) {u : BitVec 64} {x n : Nat}
    (hn : n ≤ 64) (hx : x < 2 ^ n) (hu : u.toNat = x * 2 ^ (64 - n)) :
    (b.writeBitsTail u n).Holds (value * 2 ^ n + x) (width + n) := by
  induction n generalizing b value width u x with
  | zero =>
      have hx0 : x = 0 := by simpa using hx
      simpa [BStream.writeBitsTail, hx0] using h
  | succ k ih =>
      have htop : (u >>> 63).toNat = x / 2 ^ k := by
        rw [BitVec.toNat_ushiftRight, hu, Nat.shiftRight_eq_div_pow]
        exact mul_two_pow_div (by omega)
      have hbit : (u >>> 63 == 1).toNat = x / 2 ^ k := by
        have hlt : x / 2 ^ k < 2 := by
          rw [Nat.div_lt_iff_lt_mul (Nat.two_pow_pos _), ← Nat.pow_succ']
          exact hx
        rcases (by omega : x / 2 ^ k = 0 ∨ x / 2 ^ k = 1) with h0 | h1
        · have : u >>> 63 ≠ 1#64 := fun he => by rw [he] at htop; simp at htop; omega
          simp [this, h0]
        · have : u >>> 63 = 1#64 := BitVec.eq_of_toNat_eq (by rw [htop, h1]; rfl)
          simp [this, h1]
      have hrest : (u <<< 1).toNat = x % 2 ^ k * 2 ^ (64 - k) := by
        rw [BitVec.toNat_shiftLeft, hu, Nat.shiftLeft_eq, Nat.mul_assoc, ← Nat.pow_succ,
          show (64 - (k + 1)).succ = 64 - k by omega]
        exact mul_two_pow_mod (by omega)
      have hstep :=
        ih (h.writeBit (u >>> 63 == 1)) (by omega) (Nat.mod_lt _ (Nat.two_pow_pos k)) hrest
      rw [hbit] at hstep
      have hv : value * 2 ^ (k + 1) + x = (2 * value + x / 2 ^ k) * 2 ^ k + x % 2 ^ k := by
        rw [Nat.add_mul, Nat.add_assoc, Nat.div_add_mod', Nat.pow_succ]
        ring
      simp only [BStream.writeBitsTail]
      rw [hv, show width + (k + 1) = width + 1 + k by omega]
      exact hstep

/-- `writeBitsLoop` writes the top `n` bits of `u`, which hold the value `x`. -/
theorem Holds.writeBitsLoop (h : b.Holds value width) {u : BitVec 64} {x n : Nat}
    (hn : n ≤ 64) (hx : x < 2 ^ n) (hu : u.toNat = x * 2 ^ (64 - n)) :
    (b.writeBitsLoop u n).Holds (value * 2 ^ n + x) (width + n) := by
  induction n using Nat.strong_induction_on generalizing b value width u x with
  | _ n ih =>
    by_cases hlt : n < 8
    · rw [BStream.writeBitsLoop.eq_2 _ _ _ (fun k hk => by omega)]
      exact h.writeBitsTail hn hx hu
    · obtain ⟨k, rfl⟩ : ∃ k, n = k + 8 := ⟨n - 8, by omega⟩
      have hbyte : ((u >>> 56).setWidth 8).toNat = x / 2 ^ k := by
        rw [BitVec.toNat_setWidth, BitVec.toNat_ushiftRight, hu, Nat.shiftRight_eq_div_pow,
          mul_two_pow_div (by omega : 64 - (k + 8) + k = 56)]
        apply Nat.mod_eq_of_lt
        rw [Nat.div_lt_iff_lt_mul (Nat.two_pow_pos _), ← Nat.pow_add, Nat.add_comm]
        exact hx
      have hrest : (u <<< 8).toNat = x % 2 ^ k * 2 ^ (64 - k) := by
        rw [BitVec.toNat_shiftLeft, hu, Nat.shiftLeft_eq, Nat.mul_assoc, ← Nat.pow_add,
          show 64 - (k + 8) + 8 = 64 - k by omega]
        exact mul_two_pow_mod (by omega)
      have hstep := ih k (by omega) (h.writeByte ((u >>> 56).setWidth 8)) (by omega)
        (Nat.mod_lt _ (Nat.two_pow_pos k)) hrest
      rw [hbyte] at hstep
      have hv : value * 2 ^ (k + 8) + x = (value * 256 + x / 2 ^ k) * 2 ^ k + x % 2 ^ k := by
        rw [Nat.add_mul, Nat.add_assoc, Nat.div_add_mod', Nat.pow_add]
        ring
      show (BStream.writeBitsLoop (b.writeByte ((u >>> 56).setWidth 8)) (u <<< 8) k).Holds _ _
      rw [hv, show width + (k + 8) = width + 8 + k by omega]
      exact hstep

/-- For `nbits ≤ 64` the unsigned shift of `writeBits` is `64 - nbits`. -/
theorem toNat_shift_writeBits {n : Nat} (hn : n ≤ 64) :
    (64 - BitVec.ofNat 64 n).toNat = 64 - n := by
  rw [BitVec.toNat_sub, BitVec.toNat_ofNat, show (64 : BitVec 64).toNat = 64 from rfl]
  omega

theorem Holds.writeBits (h : b.Holds value width) (u : BitVec 64) {n : Nat} (hn : n ≤ 64) :
    (b.writeBits u n).Holds (value * 2 ^ n + u.toNat % 2 ^ n) (width + n) :=
  h.writeBitsLoop hn (Nat.mod_lt _ (Nat.two_pow_pos n)) (by
    rw [BitVec.toNat_shiftLeft, toNat_shift_writeBits hn, Nat.shiftLeft_eq]
    exact mul_two_pow_mod (by omega))

end BStream

end EmbedTSDB
