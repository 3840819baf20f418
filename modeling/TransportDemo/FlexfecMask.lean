import Mathlib.Data.FinEnum
import Mathlib.Tactic.IntervalCases
import TransportDemo.FlexfecPacket

/-!
# The FlexFEC packet mask

The sender's mask has 16 or 48 bits. In the header a K-bit stands in front of
bits 0, 15 and 46, so the mask is shifted apart on writing and together on
reading; what is read is the mask that was written.
-/

namespace FlexfecMask

open ByteBuffer FlexfecPacket

/-- The K-bits that the mask needs are set by the first zero bits at the end of a part. -/
def minPacketMaskSize (mask : List UInt8) : Nat :=
  if mask.length = 2 ∧ mask.getD 1 0 &&& 0x01 = 0 then kFlexfecPacketMaskSizes.1
  else if mask.length = 2 then kFlexfecPacketMaskSizes.2.1
  else if mask.length = 6 ∧ mask.getD 5 0 &&& 0x03 = 0 then kFlexfecPacketMaskSizes.2.1
  else kFlexfecPacketMaskSizes.2.2

/-- `data[i] |= bits`. -/
def orByte (data : Nat → UInt8) (i : Nat) (bits : UInt8) : Nat → UInt8 :=
  store data i [data i ||| bits]

/-- The mask part of `FinalizeFecHeader`. -/
def writePacketMask (mask : List UInt8) (data : Nat → UInt8) : Nat → UInt8 :=
  let part0 := of16 (mask.getD 0 0) (mask.getD 1 0)
  let bit15 := mask.getD 1 0 &&& 0x01 ≠ 0
  if mask.length = 6 then
    let part1 := of32 (mask.getD 2 0) (mask.getD 3 0) (mask.getD 4 0) (mask.getD 5 0)
    let data := store data 18 (be16 (part0 >>> 1))
    let data := store data 20 (be32 (part1 >>> 2))
    let data := if bit15 then orByte data 20 0x40 else data
    let bit46 := mask.getD 5 0 &&& 0x02 ≠ 0
    let bit47 := mask.getD 5 0 &&& 0x01 ≠ 0
    if ¬ bit46 ∧ ¬ bit47 then orByte data 20 0x80
    else
      let data := store data 24 (List.replicate 8 0)
      let data := orByte data 24 0x80
      let data := if bit46 then orByte data 24 0x40 else data
      if bit47 then orByte data 24 0x20 else data
  else
    let data := store data 18 (be16 (part0 >>> 1))
    if ¬ bit15 then orByte data 18 0x80
    else
      let data := store data 20 (List.replicate 4 0)
      let data := orByte data 20 0x80
      orByte data 20 0x40

/-! ### The shifts, in bytes -/

theorem toNat_of16 (a b : UInt8) : (of16 a b).toNat = a.toNat * 256 + b.toNat := by
  have ha := a.toNat_lt
  have hb := b.toNat_lt
  simp only [of16, UInt16.toNat_add, UInt16.toNat_mul, UInt8.toNat_toUInt16, UInt16.reduceToNat]
  omega

theorem toNat_of32 (a b c d : UInt8) : (of32 a b c d).toNat =
    a.toNat * 16777216 + b.toNat * 65536 + c.toNat * 256 + d.toNat := by
  have ha := a.toNat_lt
  have hb := b.toNat_lt
  have hc := c.toNat_lt
  have hd := d.toNat_lt
  simp only [of32, UInt32.toNat_add, UInt32.toNat_mul, UInt8.toNat_toUInt32, UInt32.reduceToNat]
  omega

/-- One look at each of the 256 bytes. -/
theorem byte_parts (x : UInt8) :
    ((x &&& 0xfe).toNat = x.toNat - x.toNat % 2 ∧ (x &&& 0xfc).toNat = x.toNat - x.toNat % 4) ∧
      (x.toNat < 128 → (x ||| 0x80).toNat = x.toNat + 128) ∧
      (x.toNat < 64 → (x ||| 0x40).toNat = x.toNat + 64 ∧ (x ||| 0xc0).toNat = x.toNat + 192) ∧
      (x.toNat < 64 → (bit15 x = bit15 0 ∧ bit15 (x ||| 0x40) = bit15 0x40) ∧
        bit15 (x ||| 0x80) = bit15 0x80 ∧ bit15 (x ||| 0xc0) = bit15 0xc0) := by
  revert x
  decide +kernel

theorem toNat_and_fe (x : UInt8) : (x &&& 0xfe).toNat = x.toNat - x.toNat % 2 :=
  (byte_parts x).1.1

theorem toNat_and_fc (x : UInt8) : (x &&& 0xfc).toNat = x.toNat - x.toNat % 4 :=
  (byte_parts x).1.2

/-- The bits above the top one or two do not matter. -/
theorem toNat_or (x : UInt8) (k : UInt8) (hk : k ∈ [0, 0x40, 0x80, 0xc0]) (hx : x.toNat < 64) :
    (x ||| k).toNat = x.toNat + k.toNat := by
  obtain ⟨-, h80, hhigh, -⟩ := byte_parts x
  simp only [List.mem_cons, List.not_mem_nil, or_false] at hk
  rcases hk with rfl | rfl | rfl | rfl
  · rw [UInt8.or_zero]
    rfl
  · exact (hhigh hx).1
  · exact h80 (by omega)
  · exact (hhigh hx).2

theorem toNat_or_80 (x : UInt8) (hx : x.toNat < 128) : (x ||| 0x80).toNat = x.toNat + 128 :=
  (byte_parts x).2.1 hx

theorem bit15_or (x : UInt8) (k : UInt8) (hk : k ∈ [0, 0x40, 0x80, 0xc0]) (hx : x.toNat < 64) :
    bit15 (x ||| k) = bit15 k := by
  obtain ⟨⟨h0, h40⟩, h80, hc0⟩ := (byte_parts x).2.2.2 hx
  simp only [List.mem_cons, List.not_mem_nil, or_false] at hk
  rcases hk with rfl | rfl | rfl | rfl
  · rwa [UInt8.or_zero]
  · exact h40
  · exact h80
  · exact hc0

/-- The bytes of the 16-bit part, shifted by the K-bit. -/
theorem part0_bytes (a b : UInt8) :
    ((of16 a b >>> 1) / 256).toUInt8.toNat = (a.toNat * 256 + b.toNat) / 512 ∧
      (of16 a b >>> 1).toUInt8.toNat = (a.toNat * 256 + b.toNat) / 2 % 256 := by
  have ha := a.toNat_lt
  have hb := b.toNat_lt
  simp only [UInt16.toNat_toUInt8, UInt16.toNat_div, UInt16.toNat_shiftRight, toNat_of16,
    Nat.shiftRight_eq_div_pow, UInt16.reduceToNat, Nat.reduceMod, Nat.reducePow,
    and_true]
  omega

/-- K-bit 0 is shifted in and out. -/
theorem part0_trip (a b k : UInt8) (hk : k ∈ [0, 0x80]) :
    be16 (of16 (((of16 a b >>> 1) / 256).toUInt8 ||| k) (of16 a b >>> 1).toUInt8 <<< 1) =
      [a, b &&& 0xfe] := by
  have ha := a.toNat_lt
  have hb := b.toNat_lt
  obtain ⟨hhi, hlo⟩ := part0_bytes a b
  have hor : (((of16 a b >>> 1) / 256).toUInt8 ||| k).toNat % 128 =
      ((of16 a b >>> 1) / 256).toUInt8.toNat := by
    have hlt : ((of16 a b >>> 1) / 256).toUInt8.toNat < 128 := by omega
    simp only [List.mem_cons, List.not_mem_nil, or_false] at hk
    rcases hk with rfl | rfl
    · rw [UInt8.or_zero]
      omega
    · rw [toNat_or_80 _ hlt]
      omega
  simp only [be16, List.cons.injEq, and_true, ← UInt8.toNat_inj, UInt16.toNat_toUInt8,
    UInt16.toNat_div, UInt16.toNat_shiftLeft, toNat_of16, toNat_and_fe, Nat.shiftLeft_eq,
    UInt16.reduceToNat, Nat.reduceMod, Nat.reducePow, hlo]
  omega

/-- The bytes of the 32-bit part, shifted by K-bit 1 and bit 15. -/
theorem part1_bytes (a b c d : UInt8) :
    (of32 a b c d >>> 2 / 16777216).toUInt8.toNat = (of32 a b c d).toNat / 67108864 ∧
      (of32 a b c d >>> 2 / 65536).toUInt8.toNat = (of32 a b c d).toNat / 262144 % 256 ∧
      (of32 a b c d >>> 2 / 256).toUInt8.toNat = (of32 a b c d).toNat / 1024 % 256 ∧
      (of32 a b c d >>> 2).toUInt8.toNat = (of32 a b c d).toNat / 4 % 256 := by
  have hlt := (of32 a b c d).toNat_lt
  simp only [UInt32.toNat_toUInt8, UInt32.toNat_div, UInt32.toNat_shiftRight,
    Nat.shiftRight_eq_div_pow, UInt32.reduceToNat, Nat.reduceMod, Nat.reducePow,
    and_true]
  omega

/-- K-bit 1 and bit 15 are shifted in and out. -/
theorem part1_trip (a b c d k : UInt8) (hk : k ∈ [0, 0x40, 0x80, 0xc0]) :
    be32 (of32 ((of32 a b c d >>> 2 / 16777216).toUInt8 ||| k)
      (of32 a b c d >>> 2 / 65536).toUInt8 (of32 a b c d >>> 2 / 256).toUInt8
      (of32 a b c d >>> 2).toUInt8 <<< 2) = [a, b, c, d &&& 0xfc] := by
  have ha := a.toNat_lt
  have hb := b.toNat_lt
  have hc := c.toNat_lt
  have hd := d.toNat_lt
  obtain ⟨h0, h1, h2, h3⟩ := part1_bytes a b c d
  rw [toNat_of32] at h0 h1 h2 h3
  have hor : ((of32 a b c d >>> 2 / 16777216).toUInt8 ||| k).toNat % 64 =
      (of32 a b c d >>> 2 / 16777216).toUInt8.toNat := by
    have hlt : (of32 a b c d >>> 2 / 16777216).toUInt8.toNat < 64 := by omega
    rw [toNat_or _ k hk hlt]
    simp only [List.mem_cons, List.not_mem_nil, or_false] at hk
    rcases hk with rfl | rfl | rfl | rfl <;> simp only [UInt8.reduceToNat] <;> omega
  simp only [be32, List.cons.injEq, and_true, ← UInt8.toNat_inj, UInt32.toNat_toUInt8,
    UInt32.toNat_div, UInt32.toNat_shiftLeft, toNat_of32, toNat_and_fc, Nat.shiftLeft_eq,
    UInt32.reduceToNat, Nat.reduceMod, Nat.reducePow, h1, h2, h3]
  omega

/-! ### The packing, part by part -/

theorem shiftKBit0_eq {w : Nat → UInt8} (a b k : UInt8) (hk : k ∈ [0, 0x80])
    (h18 : w 18 = ((of16 a b >>> 1) / 256).toUInt8 ||| k)
    (h19 : w 19 = (of16 a b >>> 1).toUInt8) :
    shiftKBit0 w = store w 18 [a, b &&& 0xfe] := by
  rw [shiftKBit0, readBigEndian16, h18, h19, part0_trip a b k hk]

theorem shiftKBit1_eq {w : Nat → UInt8} (a b c d k : UInt8) (hk : k ∈ [0, 0x40, 0x80, 0xc0])
    (h20 : w 20 = (of32 a b c d >>> 2 / 16777216).toUInt8 ||| k)
    (h21 : w 21 = (of32 a b c d >>> 2 / 65536).toUInt8)
    (h22 : w 22 = (of32 a b c d >>> 2 / 256).toUInt8)
    (h23 : w 23 = (of32 a b c d >>> 2).toUInt8) :
    shiftKBit1 w =
      store (store w 19 [w 19 ||| bit15 k]) 20 [a, b, c, d &&& 0xfc] := by
  have hlt : (of32 a b c d >>> 2 / 16777216).toUInt8.toNat < 64 := by
    rw [(part1_bytes a b c d).1]
    have hlt := (of32 a b c d).toNat_lt
    omega
  have hbit : bit15 (w 20) = bit15 k := h20 ▸ bit15_or _ k hk hlt
  have hread : readBigEndian32 (store w 19 [w 19 ||| bit15 k]) 20 = readBigEndian32 w 20 := rfl
  simp only [shiftKBit1, hbit, hread]
  rw [readBigEndian32, h20, h21, h22, h23, part1_trip a b c d k hk]

theorem shiftKBit2_eq {w : Nat → UInt8} (t : UInt8) (ht : t ∈ [0xa0, 0xc0, 0xe0])
    (h24 : w 24 = t) (h : ∀ i, 25 ≤ i → i < 32 → w i = 0) :
    shiftKBit2 w =
      store (store w 23 [w 23 ||| tailBits t]) 24 (List.replicate 8 0) := by
  have hread : readBigEndian64 (store w 23 [w 23 ||| tailBits t]) 24 = readBigEndian64 w 24 := rfl
  have hpart : be64 (readBigEndian64 w 24 <<< 3) = List.replicate 8 0 := by
    rw [readBigEndian64, readBigEndian32, readBigEndian32, h24, h 25 (by omega) (by omega),
      h 26 (by omega) (by omega), h 27 (by omega) (by omega), h 28 (by omega) (by omega),
      h 29 (by omega) (by omega), h 30 (by omega) (by omega), h 31 (by omega) (by omega)]
    simp only [List.mem_cons, List.not_mem_nil, or_false] at ht
    rcases ht with rfl | rfl | rfl <;> decide
  simp only [shiftKBit2, h24, hread, hpart]

/-! ### Reading what was written -/

/-- The mask stands packed in the first `size` bytes behind offset 18, and nothing else changed. -/
structure Packs (mask : List UInt8) (size : Nat) (data data' : Nat → UInt8) : Prop where
  inside : ∀ i < size, data' (18 + i) = mask.getD i 0
  outside : ∀ i, i < 18 ∨ 18 + size ≤ i → data' i = data i

/-- The mask is read back. -/
def Trip (mask : List UInt8) (length : Nat) (data : Nat → UInt8) : Prop :=
  ∃ data', readPacketMask ⟨length, writePacketMask mask data⟩ =
    some (data', minPacketMaskSize mask) ∧ Packs mask (minPacketMaskSize mask) data data'

theorem store_outside (data : Nat → UInt8) {off i : Nat} {bytes : List UInt8}
    (h : i < off ∨ off + bytes.length ≤ i) : store data off bytes i = data i :=
  if_neg (by omega)

/-- Nothing in front of the mask is written. -/
theorem writePacketMask_before (mask : List UInt8) (data : Nat → UInt8) {i : Nat} (hi : i < 18) :
    writePacketMask mask data i = data i := by
  have hstore (d : Nat → UInt8) (off : Nat) (bytes : List UInt8) (hoff : i < off) :
      store d off bytes i = d i := store_outside d (.inl hoff)
  simp only [writePacketMask, orByte]
  split_ifs <;> simp (disch := omega) only [hstore]

/-- The K-bit of a byte, and the bits of the mask that make way for it. -/
theorem byte_kbits (x : UInt8) :
    ((x.toNat < 128 → x &&& 0x80 = 0) ∧ (x ||| 0x80) &&& 0x80 ≠ 0 ∧ (x ||| 0xc0) &&& 0x80 ≠ 0) ∧
      (x.toNat < 64 → (x ||| 0x40) &&& 0x80 = 0) ∧
      (x &&& 0x01 = 0 → x &&& 0xfe = x) ∧
      (x &&& 0x03 = 0 → x &&& 0xfc = x ∧ x &&& 0x02 = 0 ∧ x &&& 0x01 = 0) ∧
      (x &&& 0x01 ≠ 0 → (x &&& 0xfe) ||| bit15 0x40 = x) := by
  revert x
  decide +kernel

theorem kbit_clear (x : UInt8) (hx : x.toNat < 128) : x &&& 0x80 = 0 :=
  (byte_kbits x).1.1 hx

theorem kbit_set (x : UInt8) : (x ||| 0x80) &&& 0x80 ≠ 0 := (byte_kbits x).1.2.1

theorem kbit_high (k : UInt8) (hk : k ∈ [0x80, 0xc0]) (x : UInt8) : (x ||| k) &&& 0x80 ≠ 0 := by
  simp only [List.mem_cons, List.not_mem_nil, or_false] at hk
  rcases hk with rfl | rfl
  · exact (byte_kbits x).1.2.1
  · exact (byte_kbits x).1.2.2

theorem kbit_low (k : UInt8) (hk : k ∈ [0, 0x40]) (x : UInt8) (hx : x.toNat < 64) :
    (x ||| k) &&& 0x80 = 0 := by
  simp only [List.mem_cons, List.not_mem_nil, or_false] at hk
  rcases hk with rfl | rfl
  · rw [UInt8.or_zero]
    exact kbit_clear x (by omega)
  · exact (byte_kbits x).2.1 hx

theorem and_fe_of_clear (x : UInt8) (h : x &&& 0x01 = 0) : x &&& 0xfe = x :=
  (byte_kbits x).2.2.1 h

theorem and_fc_of_clear (x : UInt8) (h : x &&& 0x03 = 0) : x &&& 0xfc = x :=
  ((byte_kbits x).2.2.2.1 h).1

theorem tail_clear (x : UInt8) (h : x &&& 0x03 = 0) : x &&& 0x02 = 0 ∧ x &&& 0x01 = 0 :=
  ((byte_kbits x).2.2.2.1 h).2

theorem tail_set (x : UInt8) (h : x &&& 0x03 ≠ 0) :
    (x &&& 0x02 = 0 ∧ x &&& 0x01 = 0 → x &&& 0x03 = 0) ∧
      (x &&& 0x02 = 0 ∧ x &&& 0x01 ≠ 0 → (x &&& 0xfc) ||| tailBits 0xa0 = x) ∧
      (x &&& 0x02 ≠ 0 ∧ x &&& 0x01 = 0 → (x &&& 0xfc) ||| tailBits 0xc0 = x) ∧
      (x &&& 0x02 ≠ 0 ∧ x &&& 0x01 ≠ 0 → (x &&& 0xfc) ||| tailBits 0xe0 = x) := by
  revert x
  decide +kernel

theorem or_bit15 (x : UInt8) (h : x &&& 0x01 ≠ 0) : (x &&& 0xfe) ||| bit15 0x40 = x :=
  (byte_kbits x).2.2.2.2 h

theorem part0_kbit (a b : UInt8) : ((of16 a b >>> 1) / 256).toUInt8 &&& 0x80 = 0 := by
  have ha := a.toNat_lt
  have hb := b.toNat_lt
  exact kbit_clear _ (by rw [(part0_bytes a b).1]; omega)

/-- The first six bytes of a mask whose first K-bit is clear. -/
theorem shift_long {w : Nat → UInt8} (a b c d e f k : UInt8) (hk : k ∈ [0, 0x40, 0x80, 0xc0])
    (h18 : w 18 = ((of16 a b >>> 1) / 256).toUInt8) (h19 : w 19 = (of16 a b >>> 1).toUInt8)
    (h20 : w 20 = (of32 c d e f >>> 2 / 16777216).toUInt8 ||| k)
    (h21 : w 21 = (of32 c d e f >>> 2 / 65536).toUInt8)
    (h22 : w 22 = (of32 c d e f >>> 2 / 256).toUInt8)
    (h23 : w 23 = (of32 c d e f >>> 2).toUInt8) :
    w 18 &&& 0x80 = 0 ∧ shiftKBit1 (shiftKBit0 w) =
      store (store (store w 18 [a, b &&& 0xfe]) 19 [(b &&& 0xfe) ||| bit15 k]) 20
        [c, d, e, f &&& 0xfc] := by
  have h0 := shiftKBit0_eq a b 0 (by decide) (h18.trans UInt8.or_zero.symm) h19
  refine ⟨h18 ▸ part0_kbit a b, ?_⟩
  rw [h0, shiftKBit1_eq (w := store w 18 [a, b &&& 0xfe]) c d e f k hk h20 h21 h22 h23]
  rfl

theorem trip_short (m0 m1 : UInt8) (hbit : m1 &&& 0x01 = 0) {length : Nat} (hlen : 20 ≤ length)
    (data : Nat → UInt8) : Trip [m0, m1] length data := by
  have hsize : minPacketMaskSize [m0, m1] = 2 := if_pos ⟨rfl, hbit⟩
  have hwrite : writePacketMask [m0, m1] data =
      orByte (store data 18 (be16 (of16 m0 m1 >>> 1))) 18 0x80 := by
    simp [writePacketMask, hbit]
  have hshift := shiftKBit0_eq (w := writePacketMask [m0, m1] data) m0 m1 0x80 (by decide)
    (hwrite ▸ rfl) (hwrite ▸ rfl)
  have hk : writePacketMask [m0, m1] data 18 &&& 0x80 ≠ 0 := hwrite ▸ kbit_set _
  refine ⟨store (writePacketMask [m0, m1] data) 18 [m0, m1 &&& 0xfe], ?_, ?_, ?_⟩
  · rw [readPacketMask, if_neg (by simpa [kHeaderSizes] using hlen), if_pos hk, hshift, hsize]
    rfl
  · intro i hi
    rw [hsize] at hi
    interval_cases i
    · rfl
    · exact and_fe_of_clear m1 hbit
  · intro i hi
    rw [hsize] at hi
    rw [store_outside _ hi, hwrite, orByte, store_outside _ (by simp; omega),
      store_outside _ (by simp [be16]; omega)]

theorem trip_short_bit15 (m0 m1 : UInt8) (hbit : m1 &&& 0x01 ≠ 0) {length : Nat}
    (hlen : 24 ≤ length) (data : Nat → UInt8) : Trip [m0, m1] length data := by
  have hsize : minPacketMaskSize [m0, m1] = 6 :=
    (if_neg fun h => hbit h.2).trans (if_pos rfl)
  have hwrite : writePacketMask [m0, m1] data =
      orByte (orByte (store (store data 18 (be16 (of16 m0 m1 >>> 1))) 20 (List.replicate 4 0))
        20 0x80) 20 0x40 := by
    simp [writePacketMask, hbit]
  have h20 : writePacketMask [m0, m1] data 20 = (0 ||| 0x80) ||| 0x40 := hwrite ▸ rfl
  have hzero : ∀ i, 21 ≤ i → i < 24 → writePacketMask [m0, m1] data i = 0 := by
    intro i hi hi'
    rw [hwrite]
    interval_cases i <;> rfl
  obtain ⟨hk0, hshift⟩ := shift_long (w := writePacketMask [m0, m1] data) m0 m1 0 0 0 0 0xc0
    (by decide) (hwrite ▸ rfl) (hwrite ▸ rfl) (h20.trans (by decide))
    ((hzero 21 (by omega) (by omega)).trans (by decide))
    ((hzero 22 (by omega) (by omega)).trans (by decide))
    ((hzero 23 (by omega) (by omega)).trans (by decide))
  have hk1 : writePacketMask [m0, m1] data 20 &&& 0x80 ≠ 0 := h20 ▸ by decide
  refine ⟨store (store (store (writePacketMask [m0, m1] data) 18 [m0, m1 &&& 0xfe]) 19
    [(m1 &&& 0xfe) ||| bit15 0xc0]) 20 [0, 0, 0, 0 &&& 0xfc], ?_, ?_, ?_⟩
  · rw [readPacketMask, if_neg (by simp [kHeaderSizes]; omega), if_neg (not_not_intro hk0),
      if_neg (by simpa [kHeaderSizes] using hlen), if_pos hk1, hshift, hsize]
    rfl
  · intro i hi
    rw [hsize] at hi
    interval_cases i
    · rfl
    · exact or_bit15 m1 hbit
    all_goals rfl
  · intro i hi
    rw [hsize] at hi
    rw [store_outside _ (by simp; omega), store_outside _ (by simp; omega),
      store_outside _ (by simp; omega), hwrite, orByte, store_outside _ (by simp; omega), orByte,
      store_outside _ (by simp; omega), store_outside _ (by simp; omega),
      store_outside _ (by simp [be16]; omega)]

/-- The first six bytes of a 48-bit mask as they are written before the K-bits. -/
def writtenParts (m0 m1 m2 m3 m4 m5 : UInt8) (data : Nat → UInt8) : Nat → UInt8 :=
  let data := store data 18 (be16 (of16 m0 m1 >>> 1))
  let data := store data 20 (be32 (of32 m2 m3 m4 m5 >>> 2))
  if m1 &&& 0x01 ≠ 0 then orByte data 20 0x40 else data

section Long

variable (m0 m1 m2 m3 m4 m5 : UInt8) (data : Nat → UInt8)

theorem writtenParts_spec : ∃ k ∈ [0, 0x40],
    writtenParts m0 m1 m2 m3 m4 m5 data 20 = (of32 m2 m3 m4 m5 >>> 2 / 16777216).toUInt8 ||| k ∧
      (m1 &&& 0xfe) ||| bit15 k = m1 ∧
      ∀ i ≠ 20, writtenParts m0 m1 m2 m3 m4 m5 data i =
        store (store data 18 (be16 (of16 m0 m1 >>> 1))) 20 (be32 (of32 m2 m3 m4 m5 >>> 2)) i := by
  by_cases hbit : m1 &&& 0x01 = 0
  · have hparts : writtenParts m0 m1 m2 m3 m4 m5 data =
        store (store data 18 (be16 (of16 m0 m1 >>> 1))) 20 (be32 (of32 m2 m3 m4 m5 >>> 2)) :=
      if_neg (not_not_intro hbit)
    refine ⟨0, by decide, ?_, ?_, fun i _ => hparts ▸ rfl⟩
    · rw [hparts, UInt8.or_zero]
      rfl
    · rw [show bit15 0 = 0 by decide, UInt8.or_zero, and_fe_of_clear m1 hbit]
  · have hparts : writtenParts m0 m1 m2 m3 m4 m5 data =
        orByte (store (store data 18 (be16 (of16 m0 m1 >>> 1))) 20
          (be32 (of32 m2 m3 m4 m5 >>> 2))) 20 0x40 := if_pos hbit
    refine ⟨0x40, by decide, ?_, or_bit15 m1 hbit, fun i hi => ?_⟩
    · rw [hparts]
      rfl
    · rw [hparts, orByte, store_outside _ (by simp; omega)]

theorem trip_long (htail : m5 &&& 0x03 = 0) {length : Nat} (hlen : 24 ≤ length) :
    Trip [m0, m1, m2, m3, m4, m5] length data := by
  have hsize : minPacketMaskSize [m0, m1, m2, m3, m4, m5] = 6 := by
    simp [minPacketMaskSize, htail, kFlexfecPacketMaskSizes]
  obtain ⟨h46, h47⟩ := tail_clear m5 htail
  have hwrite : writePacketMask [m0, m1, m2, m3, m4, m5] data =
      orByte (writtenParts m0 m1 m2 m3 m4 m5 data) 20 0x80 := by
    simp [writePacketMask, writtenParts, h46, h47]
  obtain ⟨k, hk, h20, hbit15, hparts⟩ := writtenParts_spec m0 m1 m2 m3 m4 m5 data
  have hother (i : Nat) (hi : i ≠ 20) : writePacketMask [m0, m1, m2, m3, m4, m5] data i =
      store (store data 18 (be16 (of16 m0 m1 >>> 1))) 20 (be32 (of32 m2 m3 m4 m5 >>> 2)) i := by
    rw [hwrite, orByte, store_outside _ (by simp; omega), hparts i hi]
  have hk' : k ||| 0x80 ∈ [0x80, 0xc0] ∧ bit15 (k ||| 0x80) = bit15 k := by
    simp only [List.mem_cons, List.not_mem_nil, or_false] at hk
    rcases hk with rfl | rfl <;> decide
  have h20' : writePacketMask [m0, m1, m2, m3, m4, m5] data 20 =
      (of32 m2 m3 m4 m5 >>> 2 / 16777216).toUInt8 ||| (k ||| 0x80) := by
    rw [hwrite, ← UInt8.or_assoc, ← h20]
    rfl
  obtain ⟨hk0, hshift⟩ := shift_long (w := writePacketMask [m0, m1, m2, m3, m4, m5] data)
    m0 m1 m2 m3 m4 m5 (k ||| 0x80) (List.mem_of_mem_tail (List.mem_of_mem_tail hk'.1))
    (hother 18 (by decide)) (hother 19 (by decide)) h20' (hother 21 (by decide))
    (hother 22 (by decide)) (hother 23 (by decide))
  have hk1 : writePacketMask [m0, m1, m2, m3, m4, m5] data 20 &&& 0x80 ≠ 0 :=
    h20' ▸ kbit_high _ hk'.1 _
  refine ⟨store (store (store (writePacketMask [m0, m1, m2, m3, m4, m5] data) 18
    [m0, m1 &&& 0xfe]) 19 [(m1 &&& 0xfe) ||| bit15 (k ||| 0x80)]) 20 [m2, m3, m4, m5 &&& 0xfc],
    ?_, ?_, ?_⟩
  · rw [readPacketMask, if_neg (by simp [kHeaderSizes]; omega), if_neg (not_not_intro hk0),
      if_neg (by simpa [kHeaderSizes] using hlen), if_pos hk1, hshift, hsize]
    rfl
  · intro i hi
    rw [hsize] at hi
    interval_cases i
    · rfl
    · exact hk'.2 ▸ hbit15
    · rfl
    · rfl
    · rfl
    · exact and_fc_of_clear m5 htail
  · intro i hi
    rw [hsize] at hi
    rw [store_outside _ (by simp; omega), store_outside _ (by simp; omega),
      store_outside _ (by simp; omega), hother i (by omega),
      store_outside _ (by simp [be32]; omega), store_outside _ (by simp [be16]; omega)]

/-- The eight bytes behind a 48-bit mask that has bit 46 or bit 47. -/
def writtenTail (m5 : UInt8) (data : Nat → UInt8) : Nat → UInt8 :=
  let data := store data 24 (List.replicate 8 0)
  let data := orByte data 24 0x80
  let data := if m5 &&& 0x02 ≠ 0 then orByte data 24 0x40 else data
  if m5 &&& 0x01 ≠ 0 then orByte data 24 0x20 else data

theorem writtenTail_spec (htail : m5 &&& 0x03 ≠ 0) : ∃ t ∈ [0xa0, 0xc0, 0xe0],
    writtenTail m5 data 24 = t ∧ (m5 &&& 0xfc) ||| tailBits t = m5 ∧
      ∀ i ≠ 24, writtenTail m5 data i = store data 24 (List.replicate 8 0) i := by
  have hcases := tail_set m5 htail
  have hout (d : Nat → UInt8) (i : Nat) (hi : i ≠ 24) (bits : UInt8) : orByte d 24 bits i = d i :=
    store_outside d (by simp; omega)
  by_cases h46 : m5 &&& 0x02 = 0
  · by_cases h47 : m5 &&& 0x01 = 0
    · exact absurd (hcases.1 ⟨h46, h47⟩) htail
    · have hwrite : writtenTail m5 data =
          orByte (orByte (store data 24 (List.replicate 8 0)) 24 0x80) 24 0x20 := by
        simp [writtenTail, h46, h47]
      refine ⟨0xa0, by decide, ?_, hcases.2.1 ⟨h46, h47⟩, fun i hi => ?_⟩
      · have h24 : writtenTail m5 data 24 = (0 ||| 0x80) ||| 0x20 := hwrite ▸ rfl
        exact h24.trans (by decide)
      · rw [hwrite, hout _ i hi, hout _ i hi]
  · by_cases h47 : m5 &&& 0x01 = 0
    · have hwrite : writtenTail m5 data =
          orByte (orByte (store data 24 (List.replicate 8 0)) 24 0x80) 24 0x40 := by
        simp [writtenTail, h46, h47]
      refine ⟨0xc0, by decide, ?_, hcases.2.2.1 ⟨h46, h47⟩, fun i hi => ?_⟩
      · have h24 : writtenTail m5 data 24 = (0 ||| 0x80) ||| 0x40 := hwrite ▸ rfl
        exact h24.trans (by decide)
      · rw [hwrite, hout _ i hi, hout _ i hi]
    · have hwrite : writtenTail m5 data =
          orByte (orByte (orByte (store data 24 (List.replicate 8 0)) 24 0x80) 24 0x40) 24
            0x20 := by
        simp [writtenTail, h46, h47]
      refine ⟨0xe0, by decide, ?_, hcases.2.2.2 ⟨h46, h47⟩, fun i hi => ?_⟩
      · have h24 : writtenTail m5 data 24 = ((0 ||| 0x80) ||| 0x40) ||| 0x20 := hwrite ▸ rfl
        exact h24.trans (by decide)
      · rw [hwrite, hout _ i hi, hout _ i hi, hout _ i hi]

theorem trip_long_tail (htail : m5 &&& 0x03 ≠ 0) {length : Nat} (hlen : 32 ≤ length) :
    Trip [m0, m1, m2, m3, m4, m5] length data := by
  have hsize : minPacketMaskSize [m0, m1, m2, m3, m4, m5] = 14 := by
    simp [minPacketMaskSize, htail, kFlexfecPacketMaskSizes]
  have hbits : ¬ (m5 &&& 0x02 = 0 ∧ m5 &&& 0x01 = 0) := fun h => htail ((tail_set m5 htail).1 h)
  have hwrite : writePacketMask [m0, m1, m2, m3, m4, m5] data =
      writtenTail m5 (writtenParts m0 m1 m2 m3 m4 m5 data) := by
    simp only [writePacketMask, writtenTail, writtenParts, List.getD_cons_succ,
      List.getD_cons_zero, List.length_cons, List.length_nil, ne_eq, not_not, if_true, if_neg hbits]
  obtain ⟨k, hk, h20, hbit15, hparts⟩ := writtenParts_spec m0 m1 m2 m3 m4 m5 data
  obtain ⟨t, ht, h24, htail', hother⟩ :=
    writtenTail_spec m5 (writtenParts m0 m1 m2 m3 m4 m5 data) htail
  rw [← hwrite] at h24 hother
  have hfront (i : Nat) (hi : i < 24) : writePacketMask [m0, m1, m2, m3, m4, m5] data i =
      writtenParts m0 m1 m2 m3 m4 m5 data i := by
    rw [hother i (by omega), store_outside _ (by omega)]
  have hfront' (i : Nat) (hi : i < 24) (hne : i ≠ 20) :
      writePacketMask [m0, m1, m2, m3, m4, m5] data i =
        store (store data 18 (be16 (of16 m0 m1 >>> 1))) 20 (be32 (of32 m2 m3 m4 m5 >>> 2)) i := by
    rw [hfront i hi, hparts i hne]
  have h20' := (hfront 20 (by decide)).trans h20
  have hp0 : (of32 m2 m3 m4 m5 >>> 2 / 16777216).toUInt8.toNat < 64 := by
    rw [(part1_bytes m2 m3 m4 m5).1]
    have hlt := (of32 m2 m3 m4 m5).toNat_lt
    omega
  have hk1 : writePacketMask [m0, m1, m2, m3, m4, m5] data 20 &&& 0x80 = 0 :=
    h20' ▸ kbit_low k hk _ hp0
  have hk2 : writePacketMask [m0, m1, m2, m3, m4, m5] data 24 &&& 0x80 ≠ 0 := by
    rw [h24]
    simp only [List.mem_cons, List.not_mem_nil, or_false] at ht
    rcases ht with rfl | rfl | rfl <;> decide
  have hk' : k ∈ [0, 0x40, 0x80, 0xc0] := by
    simp only [List.mem_cons, List.not_mem_nil, or_false] at hk ⊢
    exact hk.elim .inl fun h => .inr (.inl h)
  obtain ⟨hk0, hshift⟩ := shift_long (w := writePacketMask [m0, m1, m2, m3, m4, m5] data)
    m0 m1 m2 m3 m4 m5 k hk' (hfront' 18 (by decide) (by decide))
    (hfront' 19 (by decide) (by decide)) h20' (hfront' 21 (by decide) (by decide))
    (hfront' 22 (by decide) (by decide)) (hfront' 23 (by decide) (by decide))
  let packed := store (store (store (writePacketMask [m0, m1, m2, m3, m4, m5] data) 18
    [m0, m1 &&& 0xfe]) 19 [(m1 &&& 0xfe) ||| bit15 k]) 20 [m2, m3, m4, m5 &&& 0xfc]
  have hpacked (i : Nat) (hi : i < 18 ∨ 24 ≤ i) :
      packed i = writePacketMask [m0, m1, m2, m3, m4, m5] data i := by
    simp only [packed]
    rw [store_outside _ (by simp; omega), store_outside _ (by simp; omega),
      store_outside _ (by simp; omega)]
  have hshift2 := shiftKBit2_eq (w := packed) t ht ((hpacked 24 (by omega)).trans h24)
    (fun i hi hi' => by
      rw [hpacked i (by omega), hother i (by omega)]
      interval_cases i <;> rfl)
  refine ⟨store (store packed 23 [packed 23 ||| tailBits t]) 24 (List.replicate 8 0),
    ?_, ?_, ?_⟩
  · rw [readPacketMask, if_neg (by simp [kHeaderSizes]; omega), if_neg (not_not_intro hk0),
      if_neg (by simp [kHeaderSizes]; omega), if_neg (not_not_intro hk1),
      if_neg (by simpa [kHeaderSizes] using hlen), if_pos hk2, hshift, hshift2, hsize]
    rfl
  · intro i hi
    rw [hsize] at hi
    interval_cases i
    · rfl
    · exact hbit15
    · rfl
    · rfl
    · rfl
    · exact htail'
    all_goals rfl
  · intro i hi
    rw [hsize] at hi
    rw [store_outside _ (by simp; omega), store_outside _ (by simp; omega), hpacked i (by omega)]
    rcases hi with hi | hi
    · rw [hfront' i (by omega) (by omega), store_outside _ (by simp [be32]; omega),
        store_outside _ (by simp [be16]; omega)]
    · rw [hother i (by omega), store_outside _ (by simp; omega), hparts i (by omega),
        store_outside _ (by simp [be32]; omega), store_outside _ (by simp [be16]; omega)]

end Long

/-- Every mask is read as it was written. -/
theorem readPacketMask_writePacketMask {mask : List UInt8}
    (hmask : mask.length = 2 ∨ mask.length = 6) {length : Nat}
    (hlen : flexfecHeaderSize (minPacketMaskSize mask) ≤ length) (data : Nat → UInt8) :
    Trip mask length data := by
  rcases hmask with h2 | h6
  · obtain ⟨m0, m1, rfl⟩ := List.length_eq_two.mp h2
    by_cases hbit : m1 &&& 0x01 = 0
    · have hsize : minPacketMaskSize [m0, m1] = 2 := if_pos ⟨rfl, hbit⟩
      rw [hsize] at hlen
      exact trip_short m0 m1 hbit hlen data
    · have hsize : minPacketMaskSize [m0, m1] = 6 :=
        (if_neg fun h => hbit h.2).trans (if_pos rfl)
      rw [hsize] at hlen
      exact trip_short_bit15 m0 m1 hbit hlen data
  · match mask, h6 with
    | [m0, m1, m2, m3, m4, m5], _ =>
      by_cases htail : m5 &&& 0x03 = 0
      · have hsize : minPacketMaskSize [m0, m1, m2, m3, m4, m5] = 6 := by
          simp [minPacketMaskSize, htail, kFlexfecPacketMaskSizes]
        rw [hsize] at hlen
        exact trip_long m0 m1 m2 m3 m4 m5 data htail hlen
      · have hsize : minPacketMaskSize [m0, m1, m2, m3, m4, m5] = 14 := by
          simp [minPacketMaskSize, htail, kFlexfecPacketMaskSizes]
        rw [hsize] at hlen
        exact trip_long_tail m0 m1 m2 m3 m4 m5 data htail hlen

end FlexfecMask
