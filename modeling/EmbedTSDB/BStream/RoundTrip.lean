import EmbedTSDB.BStream.Reader
import EmbedTSDB.BStream.Reads

/-! Reading back what a `bstream` wrote. Any sequence of `writeBit`, `writeByte` and
`writeBits` calls is answered, read for read, by the matching reader calls, in either of
the calling patterns the decoder and `TestBstreamReader` use. -/
namespace EmbedTSDB

/-- One call on the writer. -/
inductive Write where
  | bit (bit : Bool)
  | byte (byt : BitVec 8)
  | bits (u : BitVec 64) (nbits : Nat)
  deriving DecidableEq, Repr

/-- One value handed back by the reader. -/
inductive ReadValue where
  | bit (bit : Bool)
  | byte (byt : BitVec 8)
  | bits (v : BitVec 64)
  deriving DecidableEq, Repr

namespace Write

def apply (b : BStream) : Write → BStream
  | .bit v => b.writeBit v
  | .byte byt => b.writeByte byt
  | .bits u nbits => b.writeBits u nbits

/-- `writeBits` is called with `1 <= nbits <= 64`. -/
def WellFormed : Write → Prop
  | .bits _ nbits => 1 ≤ nbits ∧ nbits ≤ 64
  | _ => True

instance : DecidablePred WellFormed
  | .bit _ => inferInstanceAs (Decidable True)
  | .byte _ => inferInstanceAs (Decidable True)
  | .bits _ nbits => inferInstanceAs (Decidable (1 ≤ nbits ∧ nbits ≤ 64))

/-- How many bits a write appends. -/
def width : Write → Nat
  | .bit _ => 1
  | .byte _ => 8
  | .bits _ nbits => nbits

/-- The appended bits as a number: `u mod 2^nbits` for `writeBits`. -/
def value : Write → Nat
  | .bit v => v.toNat
  | .byte byt => byt.toNat
  | .bits u nbits => u.toNat % 2 ^ nbits

/-- What the matching read must return. -/
def expected : Write → ReadValue
  | .bit v => .bit v
  | .byte byt => .byte byt
  | .bits u nbits => .bits (BitVec.ofNat 64 (u.toNat % 2 ^ nbits))

theorem value_lt (w : Write) : w.value < 2 ^ w.width := by
  cases w with
  | bit v => cases v <;> simp [value, width]
  | byte byt => exact byt.isLt
  | bits u nbits => exact Nat.mod_lt _ (Nat.two_pow_pos _)

end Write

/-- The writes applied in order to an empty `bstream`. -/
def writeAll (ws : List Write) : BStream := ws.foldl Write.apply BStream.empty

/-- All written bits as one number, the first write highest. -/
def encode (ws : List Write) : Nat := ws.foldl (fun acc w => acc * 2 ^ w.width + w.value) 0

/-- The total number of bits written. -/
def totalWidth (ws : List Write) : Nat := (ws.map Write.width).sum

namespace BStreamReader

/-- `v, err := r.readBitFast(); if err != nil { v, err = r.readBit() }`. -/
def readBitFastThenSlow (b : BStreamReader) : Option Bool × BStreamReader :=
  match b.readBitFast with
  | (none, b) => b.readBit
  | res => res

/-- `v, err := r.readBitsFast(n); if err != nil { v, err = r.readBits(n) }`. -/
def readBitsFastThenSlow (b : BStreamReader) (nbits : BitVec 8) : Option (BitVec 64) × BStreamReader :=
  match b.readBitsFast nbits with
  | (none, b) => b.readBits nbits
  | res => res

/-- The read matching a write; with `fast` the fast call is tried first. -/
def readFor (b : BStreamReader) (fast : Bool) : Write → Option ReadValue × BStreamReader
  | .bit _ =>
      let (v, b) := if fast then b.readBitFastThenSlow else b.readBit
      (v.map .bit, b)
  | .byte _ =>
      let (v, b) := b.readByte
      (v.map .byte, b)
  | .bits _ nbits =>
      let (v, b) := if fast then b.readBitsFastThenSlow (BitVec.ofNat 8 nbits)
        else b.readBits (BitVec.ofNat 8 nbits)
      (v.map .bits, b)

/-- Issue the matching read for each write in turn. -/
def readAll (b : BStreamReader) : List (Write × Bool) → List (Option ReadValue)
  | [] => []
  | (w, fast) :: rest =>
      let (v, b) := b.readFor fast w
      v :: readAll b rest

end BStreamReader

/-! ### The writer side -/

theorem Write.apply_holds {b : BStream} {v wd : Nat} (h : b.Holds v wd) {w : Write}
    (hw : w.WellFormed) : (w.apply b).Holds (v * 2 ^ w.width + w.value) (wd + w.width) := by
  cases w with
  | bit x => simpa [Write.apply, Write.width, Write.value, Nat.mul_comm] using h.writeBit x
  | byte x => simpa [Write.apply, Write.width, Write.value] using h.writeByte x
  | bits u n => exact h.writeBits u hw.2

theorem foldl_apply_holds {b : BStream} {v wd : Nat} (h : b.Holds v wd) (ws : List Write)
    (hw : ∀ w ∈ ws, w.WellFormed) :
    (ws.foldl Write.apply b).Holds (ws.foldl (fun acc w => acc * 2 ^ w.width + w.value) v)
      (wd + totalWidth ws) := by
  induction ws generalizing b v wd with
  | nil => simpa [totalWidth] using h
  | cons w rest ih =>
      have hstep := ih (Write.apply_holds h (hw w (List.mem_cons_self _ _)))
        (fun x hx => hw x (List.mem_cons_of_mem _ hx))
      simpa [totalWidth, Nat.add_assoc] using hstep

/-- The bits of a stream holding `v` in its first `n` bits are those of `v`. -/
theorem BStream.Holds.bitsAt {b : BStream} {v n : Nat} (h : b.Holds v n) {p k : Nat}
    (hk : p + k ≤ n) : EmbedTSDB.bitsAt b.stream p k = v / 2 ^ (n - (p + k)) % 2 ^ k := by
  have hl := h.length_eq
  rw [EmbedTSDB.bitsAt, h.value_eq, @mul_two_pow_div v _ (n - (p + k)) _ (by omega)]

private theorem foldl_encode (ws : List Write) (acc : Nat) :
    ws.foldl (fun acc w => acc * 2 ^ w.width + w.value) acc =
      acc * 2 ^ totalWidth ws + encode ws := by
  induction ws generalizing acc with
  | nil => simp [encode, totalWidth]
  | cons w rest ih =>
      have hCons : encode (w :: rest) = (0 * 2 ^ w.width + w.value) * 2 ^ totalWidth rest +
          encode rest := ih _
      simp only [List.foldl_cons, ih, hCons, totalWidth, List.map_cons, List.sum_cons, Nat.pow_add]
      ring

theorem encode_cons (w : Write) (rest : List Write) :
    encode (w :: rest) = w.value * 2 ^ totalWidth rest + encode rest := by
  have h : encode (w :: rest) = (0 * 2 ^ w.width + w.value) * 2 ^ totalWidth rest + encode rest :=
    foldl_encode rest _
  rw [h, Nat.zero_mul, Nat.zero_add]

theorem encode_lt (ws : List Write) : encode ws < 2 ^ totalWidth ws := by
  induction ws with
  | nil => simp [encode, totalWidth]
  | cons w rest ih =>
      rw [encode_cons, show totalWidth (w :: rest) = w.width + totalWidth rest by
        simp [totalWidth], Nat.pow_add]
      calc w.value * 2 ^ totalWidth rest + encode rest
          < w.value * 2 ^ totalWidth rest + 2 ^ totalWidth rest := Nat.add_lt_add_left ih _
        _ = (w.value + 1) * 2 ^ totalWidth rest := by ring
        _ ≤ 2 ^ w.width * 2 ^ totalWidth rest :=
            Nat.mul_le_mul_right _ (Nat.succ_le_of_lt w.value_lt)

theorem writeAll_holds (ws : List Write) (hw : ∀ w ∈ ws, w.WellFormed) :
    (writeAll ws).Holds (encode ws) (totalWidth ws) := by
  simpa [foldl_encode] using foldl_apply_holds BStream.empty_holds ws hw

/-! ### The reader side -/

namespace BStreamReader

/-- The fast call changes nothing when it fails, and otherwise does what `readBit` does. -/
theorem readBitFastThenSlow_eq (b : BStreamReader) : b.readBitFastThenSlow = b.readBit := by
  by_cases h0 : b.valid = 0
  · simp only [readBitFastThenSlow, readBitFast, h0, ↓reduceIte]
  · simp only [readBitFastThenSlow, readBitFast, readBit, h0, ↓reduceIte]

theorem readBitsFastThenSlow_eq (b : BStreamReader) {nbits : BitVec 8} (hn : 1 ≤ nbits.toNat) :
    b.readBitsFastThenSlow nbits = b.readBits nbits := by
  by_cases hgt : nbits > b.valid
  · simp only [readBitsFastThenSlow, readBitsFast, hgt, ↓reduceIte]
  · have h0 : ¬ b.valid = 0 := fun he => hgt (by rw [he, gt_iff_lt, BitVec.lt_def]; exact hn)
    have hle : nbits ≤ b.valid := by
      rw [gt_iff_lt, BitVec.lt_def] at hgt; exact BitVec.le_def.mpr (by omega)
    simp only [readBitsFastThenSlow, readBitsFast, readBits, hgt, h0, hle, ↓reduceIte,
      Bool.not_true, Bool.false_eq_true]

variable {r : BStreamReader}

/-- The matching read of a write whose bits are next in the stream returns its value. -/
theorem Inv.readFor (h : r.Inv) (fast : Bool) {w : Write} (hw : w.WellFormed)
    (hend : r.bitPos + w.width ≤ 8 * r.stream.length)
    (hval : bitsAt r.stream r.bitPos w.width = w.value) :
    ∃ r', r.readFor fast w = (some w.expected, r') ∧ r'.Inv ∧ r'.stream = r.stream ∧
      r'.bitPos = r.bitPos + w.width := by
  cases w with
  | bit x =>
      obtain ⟨r', hread, hi, hs, hp⟩ := h.readBit hend
      refine ⟨r', ?_, hi, hs, hp⟩
      have hx : decide (bitsAt r.stream r.bitPos 1 = 1) = x := by
        simp only [Write.width, Write.value] at hval
        cases x <;> simp [hval]
      cases fast <;> simp [BStreamReader.readFor, readBitFastThenSlow_eq, hread, hx, Write.expected]
  | byte x =>
      obtain ⟨r', hread, hi, hs, hp⟩ := h.readByte hend
      refine ⟨r', ?_, hi, hs, hp⟩
      simp only [Write.width, Write.value] at hval
      simp [BStreamReader.readFor, hread, hval, Write.expected]
  | bits u n =>
      have hn8 : (BitVec.ofNat 8 n).toNat = n := by
        rw [BitVec.toNat_ofNat]; exact Nat.mod_eq_of_lt (by have := hw.2; omega)
      obtain ⟨r', hread, hi, hs, hp⟩ := h.readBits (by rw [hn8]; exact hw.1)
        (by rw [hn8]; exact hw.2) (by rw [hn8]; exact hend)
      refine ⟨r', ?_, hi, hs, by rw [hp, hn8]; rfl⟩
      simp only [Write.width, Write.value] at hval
      cases fast <;>
        simp [BStreamReader.readFor, readBitsFastThenSlow_eq _ (show 1 ≤ (BitVec.ofNat 8 n).toNat by
          rw [hn8]; exact hw.1), hread, hn8, hval, Write.expected]

private theorem mul_add_inj {a b c d m : Nat} (h : a * m + b = c * m + d) (hb : b < m)
    (hd : d < m) : a = c ∧ b = d := by
  have hm : 0 < m := by omega
  obtain ⟨h1, h2⟩ := (Nat.div_mod_unique hm).mpr ⟨by rw [Nat.mul_comm m a, Nat.add_comm], hb⟩
  obtain ⟨h3, h4⟩ := (Nat.div_mod_unique hm).mpr ⟨by rw [Nat.mul_comm m c, Nat.add_comm], hd⟩
  rw [h] at h1 h2
  exact ⟨h1.symm.trans h3, h2.symm.trans h4⟩

/-- Reading a run of writes whose bits are next in the stream returns every value. -/
theorem Inv.readAll (h : r.Inv) (ws : List (Write × Bool)) (hw : ∀ w ∈ ws, w.1.WellFormed)
    (hend : r.bitPos + totalWidth (ws.map Prod.fst) ≤ 8 * r.stream.length)
    (hval : bitsAt r.stream r.bitPos (totalWidth (ws.map Prod.fst)) = encode (ws.map Prod.fst)) :
    r.readAll ws = ws.map (fun w => some w.1.expected) := by
  induction ws generalizing r with
  | nil => rfl
  | cons wf rest ih =>
      obtain ⟨w, fast⟩ := wf
      have hwidth : totalWidth (((w, fast) :: rest).map Prod.fst) =
          w.width + totalWidth (rest.map Prod.fst) := by simp [totalWidth]
      rw [hwidth] at hend hval
      rw [List.map_cons, encode_cons, bitsAt_add _ (by omega)] at hval
      obtain ⟨hhead, htail⟩ := mul_add_inj hval (bitsAt_lt _ _ _) (encode_lt _)
      have hwf : w.WellFormed := hw (w, fast) (List.mem_cons_self _ _)
      obtain ⟨r', hread, hi, hs, hp⟩ := h.readFor fast hwf (by omega) hhead
      simp only [BStreamReader.readAll, hread, List.map_cons, List.cons.injEq, true_and]
      exact ih hi (fun x hx => hw x (List.mem_cons_of_mem _ hx)) (by rw [hp, hs]; omega)
        (by rw [hp, hs]; exact htail)

end BStreamReader

/-- Bit-stream round trip: every sequence of writes to an empty `bstream` is read back,
value for value and with no error, by the matching reads over `w.bytes()`. -/
theorem readAll_writeAll (ws : List (Write × Bool)) (hw : ∀ w ∈ ws, w.1.WellFormed) :
    (newBReader (writeAll (ws.map Prod.fst)).bytes).readAll ws =
      ws.map (fun w => some w.1.expected) := by
  have hwf : ∀ w ∈ ws.map Prod.fst, w.WellFormed := fun w hm => by
    obtain ⟨⟨w', fast⟩, hm', rfl⟩ := List.mem_map.mp hm
    exact hw _ hm'
  have hh := writeAll_holds _ hwf
  have hl := hh.length_eq
  refine (BStreamReader.newBReader_inv _).readAll ws hw ?_ ?_
  · rw [BStreamReader.newBReader_bitPos]
    show 0 + _ ≤ 8 * (writeAll (ws.map Prod.fst)).stream.length
    omega
  · simp only [BStreamReader.newBReader_bitPos, Nat.zero_add]
    rw [show (newBReader (writeAll (ws.map Prod.fst)).bytes).stream =
      (writeAll (ws.map Prod.fst)).stream from rfl, hh.bitsAt (by omega), Nat.zero_add,
      Nat.sub_self, Nat.pow_zero, Nat.div_one, Nat.mod_eq_of_lt (encode_lt _)]

/-- The round trip applied to a bit, a byte and a 9-bit field, read with both patterns. -/
theorem readAll_writeAll_sample :
    (∀ w ∈ [(Write.bit true, true), (Write.byte 0xAB, false), (Write.bits 0x3FF 9, true)],
      w.1.WellFormed) ∧
    (newBReader (writeAll ([(Write.bit true, true), (Write.byte 0xAB, false),
        (Write.bits 0x3FF 9, true)].map Prod.fst)).bytes).readAll
      [(Write.bit true, true), (Write.byte 0xAB, false), (Write.bits 0x3FF 9, true)] =
      [some (.bit true), some (.byte 0xAB), some (.bits 0x1FF)] :=
  ⟨by decide, readAll_writeAll _ (by decide)⟩

theorem totalWidth_append (ws more : List Write) :
    totalWidth (ws ++ more) = totalWidth ws + totalWidth more := by
  induction ws with
  | nil => simp [totalWidth]
  | cons w rest ih =>
    simp only [totalWidth, List.cons_append, List.map_cons, List.sum_cons] at ih ⊢
    omega

theorem encode_append (ws more : List Write) :
    encode (ws ++ more) = encode ws * 2 ^ totalWidth more + encode more := by
  simp only [encode, List.foldl_append]
  exact foldl_encode more _

/-- The round trip with the writer going on: a reader over the slice `w.bytes()` returned
after the writes `ws` reads them back, value for value, over the first `len` bytes of the
writer's stream after any further writes `more`, which is what it sees when those writes
land in the same backing array. They only set bits of the last byte's free tail and append
past the slice. -/
theorem readAll_beside_writes (ws : List (Write × Bool)) (more : List Write)
    (hw : ∀ w ∈ ws, w.1.WellFormed) (hmore : ∀ w ∈ more, w.WellFormed) :
    (newBReader ((writeAll (ws.map Prod.fst ++ more)).bytes.take
        (writeAll (ws.map Prod.fst)).bytes.length)).readAll ws =
      ws.map (fun w => some w.1.expected) := by
  have hwf : ∀ w ∈ ws.map Prod.fst, w.WellFormed := fun w hm => by
    obtain ⟨⟨w', fast⟩, hm', rfl⟩ := List.mem_map.mp hm
    exact hw _ hm'
  have hl := (writeAll_holds _ hwf).length_eq
  have hh' := writeAll_holds (ws.map Prod.fst ++ more) fun w hm =>
    (List.mem_append.1 hm).elim (hwf w) (hmore w)
  have hl' := hh'.length_eq
  have htw := totalWidth_append (ws.map Prod.fst) more
  refine (BStreamReader.newBReader_inv _).readAll ws hw ?_ ?_
  · rw [BStreamReader.newBReader_bitPos]
    show 0 + _ ≤ 8 * ((writeAll (ws.map Prod.fst ++ more)).stream.take
      (writeAll (ws.map Prod.fst)).stream.length).length
    rw [List.length_take]
    omega
  · -- the first bits of the longer stream are those of the writes `ws`
    show bitsAt ((writeAll (ws.map Prod.fst ++ more)).stream.take
      (writeAll (ws.map Prod.fst)).stream.length) 0 _ = _
    rw [bitsAt_take _ (by omega), hh'.bitsAt (by omega), encode_append, htw,
      show totalWidth (ws.map Prod.fst) + totalWidth more - (0 + totalWidth (ws.map Prod.fst)) =
        totalWidth more by omega,
      Nat.add_comm, Nat.add_mul_div_right _ _ (Nat.two_pow_pos _),
      Nat.div_eq_of_lt (encode_lt more), Nat.zero_add, Nat.mod_eq_of_lt (encode_lt _)]

/-- A reader made after a bit and a byte, while the writer then writes a 9-bit field. -/
theorem readAll_beside_writes_sample :
    (∀ w ∈ [(Write.bit true, true), (Write.byte 0xAB, false)], w.1.WellFormed) ∧
      (∀ w ∈ [Write.bits 0x3FF 9], w.WellFormed) ∧
      (newBReader ((writeAll ([(Write.bit true, true), (Write.byte 0xAB, false)].map Prod.fst ++
          [Write.bits 0x3FF 9])).bytes.take
          (writeAll ([(Write.bit true, true), (Write.byte 0xAB, false)].map Prod.fst)).bytes.length)).readAll
        [(Write.bit true, true), (Write.byte 0xAB, false)] =
        [some (.bit true), some (.byte 0xAB)] :=
  ⟨by decide, by decide, readAll_beside_writes _ _ (by decide) (by decide)⟩

end EmbedTSDB
