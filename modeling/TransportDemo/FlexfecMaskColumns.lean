import TransportDemo.FlexfecMaskTable

/-!
# Holes in the sequence numbers

The columns of a mask stand for the media packets of a block, those of the mask
that is sent for sequence numbers. `InsertZerosInPacketMasks` makes one from
the other: it copies the columns one by one from the old rows, shifting them
out, and shifts zeros into the new rows where a number is missing.
-/

namespace FlexfecMaskColumns

open FlexfecPacket FlexfecEncoder FlexfecParity FlexfecMaskTable

/-- The same row of `tmp_packet_masks_` and of `packet_masks_`. -/
structure MaskRow where
  new : List UInt8
  old : List UInt8

/-- Only the byte the columns start in is shifted; the bytes behind it are still zero. A byte
beyond the row is the next row's in the source, where `CopyColumn` then ends the process. -/
def MaskRow.insertZeros (numZeros newBitIndex : Nat) (row : MaskRow) : MaskRow :=
  { row with
    new := row.new.modify (newBitIndex / 8)
      (· <<< UInt8.ofNat (min numZeros (7 - newBitIndex % 8))) }

def insertZeroColumns (numZeros newBitIndex : Nat) (rows : List MaskRow) : List MaskRow :=
  rows.map (·.insertZeros numZeros newBitIndex)

def MaskRow.copyBit (newBitIndex oldBitIndex : Nat) (row : MaskRow) : MaskRow where
  new := row.new.modify (newBitIndex / 8) fun byte =>
    let byte := byte ||| ((row.old.getD (oldBitIndex / 8) 0 &&& 0x80) >>> 7)
    if newBitIndex % 8 ≠ 7 then byte <<< 1 else byte
  old := row.old.modify (oldBitIndex / 8) (· <<< 1)

/-- `none` if the `RTC_CHECK` fails. -/
def copyColumn (newMaskBytes newBitIndex oldBitIndex : Nat) (rows : List MaskRow) :
    Option (List MaskRow) :=
  if newBitIndex < 8 * newMaskBytes then some (rows.map (·.copyBit newBitIndex oldBitIndex))
  else none

def kMaxMediaPackets : Nat := 48

/-- The loop over the packets behind the first; the result is `new_bit_index` and the rows. -/
def insertLoop (newMaskBytes : Nat) :
    List UInt16 → UInt16 → Nat → Nat → List MaskRow → Option (Nat × List MaskRow)
  | [], _, newBitIndex, _, rows => some (newBitIndex, rows)
  | seqNum :: rest, prevSeqNum, newBitIndex, oldBitIndex, rows =>
    if newBitIndex = kMaxMediaPackets then some (newBitIndex, rows)
    else
      let numZerosToInsert := (seqNum - prevSeqNum - 1).toNat
      let rows :=
        if 0 < numZerosToInsert then insertZeroColumns numZerosToInsert newBitIndex rows else rows
      let newBitIndex := newBitIndex + numZerosToInsert
      (copyColumn newMaskBytes newBitIndex oldBitIndex rows).bind fun rows =>
        insertLoop newMaskBytes rest seqNum (newBitIndex + 1) (oldBitIndex + 1) rows

/-- The shift of the last byte that is not full. -/
def MaskRow.shiftLast (newBitIndex : Nat) (row : MaskRow) : MaskRow :=
  { row with
    new := row.new.modify (newBitIndex / 8) (· <<< UInt8.ofNat (7 - newBitIndex % 8)) }

/-- The number of mask bits and the masks, or -1; `none` if the process ends. The numbers are
those of the media packets. -/
def insertZerosInPacketMasks (seqNums : List UInt16) (masks : List (List UInt8)) :
    Option (Int × List (List UInt8)) :=
  match seqNums with
  | [] => some (0, masks)
  | [_] => some (1, masks)
  | firstSeqNum :: rest =>
    let lastSeqNum := rest.getLastD firstSeqNum
    let numMediaPackets := UInt64.ofNat seqNums.length
    let totalMissingSeqNums := (lastSeqNum - firstSeqNum).toUInt64 - numMediaPackets + 1
    if totalMissingSeqNums = 0 then some (seqNums.length, masks)
    else if UInt64.ofNat kMaxMediaPackets < totalMissingSeqNums + numMediaPackets then
      some (-1, masks)
    else
      let tmpPacketMaskSize := packetMaskSize (totalMissingSeqNums + numMediaPackets).toNat
      let rows := masks.map fun mask => ⟨List.replicate tmpPacketMaskSize 0, mask⟩
      (copyColumn tmpPacketMaskSize 0 0 rows).bind fun rows =>
        (insertLoop tmpPacketMaskSize rest firstSeqNum 1 1 rows).map fun (newBitIndex, rows) =>
          let rows := if newBitIndex % 8 ≠ 0 then rows.map (·.shiftLast newBitIndex) else rows
          (newBitIndex, rows.map MaskRow.new)

/-! ### What a row holds on the way -/

/-- Bit `o` of a row whose first `c` columns are written: they stand in their places but in the
byte of column `c`, where they are still on the right, before one bit of room. -/
def partialBit (target : Nat → Bool) (c o : Nat) : Bool :=
  if o / 8 < c / 8 then target o
  else if o / 8 = c / 8 then
    decide (7 - c % 8 ≤ o % 8 ∧ o % 8 < 7) && target (o + c % 8 - 7)
  else false

def Partial (target : Nat → Bool) (c : Nat) (row : List UInt8) : Prop :=
  ∀ o, o < 8 * row.length → bitAt row o = partialBit target c o

theorem getD_modify {row : List UInt8} {k i : Nat} {f : UInt8 → UInt8} (hi : i < row.length) :
    (row.modify k f).getD i 0 = if k = i then f (row.getD i 0) else row.getD i 0 := by
  simp only [List.getD_eq_getElem?_getD, List.getElem?_modify, List.getElem?_eq_getElem hi]
  split <;> rfl

theorem bitAt_modify {row : List UInt8} {k : Nat} {f : UInt8 → UInt8} (o : Nat)
    (ho : o < 8 * row.length) : bitAt (row.modify k f) o =
      if o / 8 = k then maskBit (f (row.getD k 0)) (o % 8) else bitAt row o := by
  rw [bitAt, bitAt, getD_modify (by omega)]
  by_cases h : k = o / 8
  · rw [if_pos h, if_pos h.symm, h]
  · rw [if_neg h, if_neg fun heq => h heq.symm]

/-- The byte the columns have come to. -/
theorem Partial.byte {target : Nat → Bool} {c : Nat} {row : List UInt8} (h : Partial target c row)
    (hc : c < 8 * row.length) {p : Nat} (hp : p < 8) : maskBit (row.getD (c / 8) 0) p =
      (decide (7 - c % 8 ≤ p ∧ p < 7) && target (c / 8 * 8 + p + c % 8 - 7)) := by
  have hbit := h (c / 8 * 8 + p) (by omega)
  rw [bitAt, show (c / 8 * 8 + p) / 8 = c / 8 by omega, show (c / 8 * 8 + p) % 8 = p by omega]
    at hbit
  rw [hbit, partialBit, if_neg (by omega), if_pos (by omega),
    show (c / 8 * 8 + p) % 8 = p by omega]

/-- Zeros are shifted in where no packet stands. -/
theorem Partial.insertZeros {target : Nat → Bool} {c z : Nat} {row : MaskRow}
    (h : Partial target c row.new) (hc : c < 8 * row.new.length)
    (hzero : ∀ o, c ≤ o → o < c + z → target o = false) :
    Partial target (c + z) (row.insertZeros z c).new := by
  intro o ho
  have ho' : o < 8 * row.new.length := by simpa [MaskRow.insertZeros] using ho
  rw [MaskRow.insertZeros, bitAt_modify o ho']
  by_cases hbyte : o / 8 = c / 8
  · rw [if_pos hbyte, maskBit_shiftLeft _ (by omega) (Nat.mod_lt o (by omega))]
    by_cases hcross : o / 8 < (c + z) / 8
    · have hs : min z (7 - c % 8) = 7 - c % 8 := by omega
      rw [partialBit, if_pos hcross, hs]
      by_cases hin : o % 8 < c % 8
      · rw [h.byte hc (by omega), decide_eq_true (by omega), decide_eq_true (by omega),
          show c / 8 * 8 + (o % 8 + (7 - c % 8)) + c % 8 - 7 = o by omega]
        rfl
      · rw [hzero o (by omega) (by omega), Bool.and_eq_false_iff]
        by_cases hlast : o % 8 + (7 - c % 8) < 8
        · rw [h.byte hc hlast, decide_eq_false (p := _ ∧ _) (by omega)]
          exact .inr rfl
        · exact .inl (decide_eq_false hlast)
    · have hs : min z (7 - c % 8) = z := by omega
      rw [partialBit, if_neg hcross, if_pos (by omega), hs]
      by_cases hlast : o % 8 + z < 7
      · rw [h.byte hc (by omega), decide_eq_true (show o % 8 + z < 8 by omega), Bool.true_and,
          show c / 8 * 8 + (o % 8 + z) + c % 8 - 7 = o + (c + z) % 8 - 7 by omega]
        congr 1
        exact decide_eq_decide.mpr (by omega)
      · have hleft : (decide (o % 8 + z < 8) && maskBit (row.new.getD (c / 8) 0) (o % 8 + z)) =
            false := by
          by_cases hroom : o % 8 + z < 8
          · rw [h.byte hc hroom, decide_eq_false (p := _ ∧ _) (by omega), Bool.false_and,
              Bool.and_false]
          · rw [decide_eq_false hroom, Bool.false_and]
        rw [hleft, eq_comm, Bool.and_eq_false_iff]
        by_cases hnew : 7 - (c + z) % 8 ≤ o % 8 ∧ o % 8 < 7
        · exact .inr (hzero _ (by omega) (by omega))
        · exact .inl (decide_eq_false hnew)
  · rw [if_neg hbyte, h o ho', partialBit, partialBit]
    by_cases hlow : o / 8 < c / 8
    · rw [if_pos hlow, if_pos (by omega)]
    · rw [if_neg hlow, if_neg hbyte]
      split
      · exact (hzero o (by omega) (by omega)).symm
      · split
        · by_cases hnew : 7 - (c + z) % 8 ≤ o % 8 ∧ o % 8 < 7
          · rw [hzero _ (by omega) (by omega), Bool.and_false]
          · rw [decide_eq_false hnew, Bool.false_and]
        · rfl

theorem maskBit_top (x : UInt8) {p : Nat} (hp : p < 8) :
    maskBit ((x &&& 0x80) >>> 7) p = (decide (p = 7) && maskBit x 0) := by
  interval_cases p <;> revert x <;> decide +kernel

/-- The bit that is copied is the column's. -/
theorem Partial.copyBit {target : Nat → Bool} {c i : Nat} {row : MaskRow}
    (h : Partial target c row.new) (hc : c < 8 * row.new.length)
    (hbit : maskBit (row.old.getD (i / 8) 0) 0 = target c) :
    Partial target (c + 1) (row.copyBit c i).new := by
  intro o ho
  have ho' : o < 8 * row.new.length := by simpa [MaskRow.copyBit] using ho
  rw [MaskRow.copyBit, bitAt_modify o ho']
  by_cases hbyte : o / 8 = c / 8
  · rw [if_pos hbyte]
    by_cases hlast : c % 8 = 7
    · simp only [hlast, ne_eq, not_true_eq_false, if_false]
      rw [maskBit_or _ _ (Nat.mod_lt o (by omega)), maskBit_top _ (Nat.mod_lt o (by omega)), hbit,
        h.byte hc (Nat.mod_lt o (by omega)), partialBit, if_pos (by omega)]
      by_cases hp : o % 8 = 7
      · rw [decide_eq_false (p := _ ∧ _) (by omega), decide_eq_true hp, Bool.false_and,
          Bool.false_or, Bool.true_and, show c = o by omega]
      · rw [decide_eq_true (p := _ ∧ _) (by omega), decide_eq_false hp, Bool.true_and,
          Bool.false_and, Bool.or_false, show c / 8 * 8 + o % 8 + c % 8 - 7 = o by omega]
    · simp only [ne_eq, hlast, not_false_eq_true, if_true]
      rw [show (1 : UInt8) = UInt8.ofNat 1 from rfl,
        maskBit_shiftLeft _ (by omega) (Nat.mod_lt o (by omega)), partialBit, if_neg (by omega),
        if_pos (by omega)]
      by_cases hroom : o % 8 + 1 < 8
      · rw [maskBit_or _ _ hroom, maskBit_top _ hroom, hbit, h.byte hc hroom,
          decide_eq_true hroom, Bool.true_and]
        by_cases hp : o % 8 + 1 = 7
        · rw [decide_eq_false (p := _ ∧ _) (by omega), decide_eq_true hp,
            decide_eq_true (p := _ ∧ _) (by omega), Bool.false_and, Bool.false_or, Bool.true_and,
            Bool.true_and, show o + (c + 1) % 8 - 7 = c by omega]
        · rw [decide_eq_false hp, Bool.false_and, Bool.or_false,
            show c / 8 * 8 + (o % 8 + 1) + c % 8 - 7 = o + (c + 1) % 8 - 7 by omega]
          congr 1
          exact decide_eq_decide.mpr (by omega)
      · rw [decide_eq_false hroom, decide_eq_false (p := _ ∧ _) (by omega), Bool.false_and,
          Bool.false_and]
  · rw [if_neg hbyte, h o ho', partialBit, partialBit]
    by_cases hlow : o / 8 < c / 8
    · rw [if_pos hlow, if_pos (by omega)]
    · rw [if_neg hlow, if_neg hbyte, if_neg (by omega)]
      split
      · rw [decide_eq_false (by omega), Bool.false_and]
      · rfl

/-- With the last shift all columns stand in their places, before zeros. -/
theorem Partial.finish {target : Nat → Bool} {c : Nat} {row : MaskRow}
    (h : Partial target c row.new) (o : Nat) (ho : o < 8 * row.new.length) :
    bitAt (if c % 8 ≠ 0 then row.shiftLast c else row).new o = (decide (o < c) && target o) := by
  by_cases hfull : c % 8 = 0
  · rw [if_neg (not_not.mpr hfull), h o ho, partialBit]
    by_cases hlow : o / 8 < c / 8
    · rw [if_pos hlow, decide_eq_true (by omega), Bool.true_and]
    · have hout : ¬ o < c := by omega
      rw [if_neg hlow, decide_eq_false hout, Bool.false_and]
      split
      · rw [decide_eq_false (by omega), Bool.false_and]
      · rfl
  · rw [if_pos hfull, MaskRow.shiftLast, bitAt_modify o ho]
    by_cases hbyte : o / 8 = c / 8
    · rw [if_pos hbyte, maskBit_shiftLeft _ (by omega) (Nat.mod_lt o (by omega))]
      by_cases hin : o < c
      · rw [h.byte (by omega) (by omega), decide_eq_true (by omega), decide_eq_true (by omega),
          decide_eq_true hin, show c / 8 * 8 + (o % 8 + (7 - c % 8)) + c % 8 - 7 = o by omega]
        rfl
      · rw [decide_eq_false hin, Bool.false_and]
        by_cases hroom : o % 8 + (7 - c % 8) < 8
        · rw [h.byte (by omega) hroom, decide_eq_false (p := _ ∧ _) (by omega), Bool.false_and,
            Bool.and_false]
        · rw [decide_eq_false hroom, Bool.false_and]
    · rw [if_neg hbyte, h o ho, partialBit, if_neg hbyte]
      split
      · rw [decide_eq_true (by omega), Bool.true_and]
      · rw [decide_eq_false (by omega), Bool.false_and]

/-! ### The old rows -/

/-- Columns from `i` on are still to be shifted out. -/
def Remaining (mask : List UInt8) (i : Nat) (old : List UInt8) : Prop :=
  old.length = mask.length ∧ ∀ o, i ≤ o → o < 8 * mask.length →
    maskBit (old.getD (o / 8) 0) (o % 8 - if o / 8 = i / 8 then i % 8 else 0) = bitAt mask o

theorem Remaining.start (mask : List UInt8) : Remaining mask 0 mask := by
  refine ⟨rfl, fun o _ _ => ?_⟩
  rw [bitAt]
  split <;> rfl

theorem Remaining.top {mask old : List UInt8} {i : Nat} (h : Remaining mask i old)
    (hi : i < 8 * mask.length) : maskBit (old.getD (i / 8) 0) 0 = bitAt mask i := by
  have hbit := h.2 i (Nat.le_refl i) hi
  rwa [if_pos rfl, Nat.sub_self] at hbit

theorem Remaining.next {mask : List UInt8} {i : Nat} {row : MaskRow}
    (h : Remaining mask i row.old) (c : Nat) :
    Remaining mask (i + 1) (row.copyBit c i).old := by
  obtain ⟨hlen, hbits⟩ := h
  refine ⟨by simpa [MaskRow.copyBit] using hlen, fun o hio ho => ?_⟩
  have hbit := hbits o (by omega) ho
  rw [MaskRow.copyBit, getD_modify (by omega)]
  by_cases hbyte : i / 8 = o / 8
  · rw [if_pos hbyte.symm] at hbit
    rw [if_pos hbyte, if_pos (by omega : o / 8 = (i + 1) / 8),
      show (1 : UInt8) = UInt8.ofNat 1 from rfl, maskBit_shiftLeft _ (by omega) (by omega),
      decide_eq_true (by omega), Bool.true_and,
      show o % 8 - (i + 1) % 8 + 1 = o % 8 - i % 8 by omega]
    exact hbit
  · rw [if_neg fun heq => hbyte heq.symm] at hbit
    have hsame : (o % 8 - if o / 8 = (i + 1) / 8 then (i + 1) % 8 else 0) = o % 8 := by
      split <;> omega
    rw [if_neg hbyte, hsame, ← hbit, Nat.sub_zero]

/-! ### The loop -/

/-- What the new mask is to be: the old columns at the offsets of the numbers. -/
def spread (offs : List Nat) (mask : List UInt8) (o : Nat) : Bool :=
  decide (o ∈ offs) && bitAt mask (offs.idxOf o)

theorem spread_getElem {offs : List Nat} (hasc : offs.Pairwise (· < ·)) (mask : List UInt8) {k : Nat}
    (hk : k < offs.length) : spread offs mask offs[k] = bitAt mask k := by
  have hnodup : offs.Nodup := hasc.imp Nat.ne_of_lt
  rw [spread, decide_eq_true (List.getElem_mem hk), Bool.true_and, hnodup.idxOf_getElem k hk]

theorem spread_of_not_mem {offs : List Nat} {o : Nat} (h : o ∉ offs) (mask : List UInt8) :
    spread offs mask o = false := by
  rw [spread, decide_eq_false h, Bool.false_and]

/-- Columns up to `c` of the new rows are written, and `i` columns of the old ones are read. -/
def RowsAt (offs : List Nat) (size c i : Nat) (masks : List (List UInt8)) (rows : List MaskRow) :
    Prop :=
  List.Forall₂ (fun mask row => row.new.length = size ∧ offs.length ≤ 8 * mask.length ∧
    Partial (spread offs mask) c row.new ∧ Remaining mask i row.old) masks rows

section Loop

variable {offs : List Nat} {size c i : Nat} {masks : List (List UInt8)} {rows : List MaskRow}

theorem RowsAt.insertZeros (h : RowsAt offs size c i masks rows) {z : Nat} (hc : c < 8 * size)
    (hhole : ∀ o ∈ offs, o < c ∨ c + z ≤ o) :
    RowsAt offs size (c + z) i masks (insertZeroColumns z c rows) := by
  refine List.forall₂_map_right_iff.mpr (h.imp fun mask row hrow => ?_)
  obtain ⟨hsize, hold, hrow, hremaining⟩ := hrow
  refine ⟨by simpa [MaskRow.insertZeros] using hsize, hold, ?_, hremaining⟩
  refine hrow.insertZeros (by omega) fun o hco hoz => spread_of_not_mem (fun hmem => ?_) mask
  have hsplit := hhole o hmem
  omega

theorem RowsAt.copy (h : RowsAt offs size c i masks rows) (hasc : offs.Pairwise (· < ·))
    (hi : offs[i]? = some c) (hc : c < 8 * size) :
    RowsAt offs size (c + 1) (i + 1) masks (rows.map (·.copyBit c i)) := by
  refine List.forall₂_map_right_iff.mpr (h.imp fun mask row hrow => ?_)
  obtain ⟨hsize, hold, hrow, hremaining⟩ := hrow
  obtain ⟨hin, hget⟩ := List.getElem?_eq_some_iff.mp hi
  refine ⟨by simpa [MaskRow.copyBit] using hsize, hold, ?_, hremaining.next c⟩
  refine hrow.copyBit (by omega) ?_
  rw [hremaining.top (by omega), ← hget, spread_getElem hasc]

end Loop

/-- The zeros between two numbers. -/
theorem zeros_between {base prev next : UInt16} (h : offset base prev < offset base next) :
    offset base prev + 1 + (next - prev - 1).toNat = offset base next := by
  have hbase := base.toNat_lt
  have hprev := prev.toNat_lt
  have hnext := next.toNat_lt
  have hone : (1 : UInt16).toNat = 1 := rfl
  simp only [offset, UInt16.toNat_sub, hone] at h ⊢
  omega

theorem insertLoop_spec {base : UInt16} {size : Nat} {masks : List (List UInt8)}
    {front : List Nat} {rest : List UInt16} {prev : UInt16} {rows : List MaskRow}
    (hasc : (front ++ rest.map (offset base)).Pairwise (· < ·))
    (hlast : front.getLast? = some (offset base prev))
    (hsize : ∀ n ∈ rest, offset base n < 8 * size) (hfew : ∀ n ∈ rest, offset base n < 48)
    (hrows : RowsAt (front ++ rest.map (offset base)) size (offset base prev + 1) front.length
      masks rows) :
    ∃ rows', insertLoop size rest prev (offset base prev + 1) front.length rows =
        some (offset base (rest.getLastD prev) + 1, rows') ∧
      RowsAt (front ++ rest.map (offset base)) size (offset base (rest.getLastD prev) + 1)
        (front.length + rest.length) masks rows' := by
  induction rest generalizing front prev rows with
  | nil => exact ⟨rows, rfl, hrows⟩
  | cons next rest ih =>
    obtain ⟨hsize0, hsize⟩ := List.forall_mem_cons.mp hsize
    obtain ⟨hfew0, hfew⟩ := List.forall_mem_cons.mp hfew
    have hmem : offset base prev ∈ front := List.mem_of_getLast? hlast
    have hsplit := List.pairwise_append.mp hasc
    have hlt : offset base prev < offset base next :=
      hsplit.2.2 _ hmem _ (List.mem_map_of_mem List.mem_cons_self)
    have hbetween := zeros_between hlt
    have hoffs : front ++ (next :: rest).map (offset base) =
        (front ++ [offset base next]) ++ rest.map (offset base) := by simp
    -- the front ends with `prev`, and the others begin with `next`
    have hhole : ∀ o ∈ front ++ (next :: rest).map (offset base),
        o < offset base prev + 1 ∨ offset base next ≤ o := by
      intro o ho
      rcases List.mem_append.mp ho with ho | ho
      · refine .inl (Nat.lt_succ_of_le ?_)
        rw [List.getLast?_eq_some_iff] at hlast
        obtain ⟨init, rfl⟩ := hlast
        rcases List.mem_append.mp ho with ho | ho
        · exact Nat.le_of_lt ((List.pairwise_append.mp hsplit.1).2.2 o ho _ List.mem_cons_self)
        · exact Nat.le_of_eq (List.mem_singleton.mp ho)
      · rw [List.map_cons] at ho
        rcases List.mem_cons.mp ho with rfl | ho
        · exact .inr (Nat.le_refl _)
        · exact .inr (Nat.le_of_lt ((List.pairwise_cons.mp hsplit.2.1).1 o ho))
    have hzeros : RowsAt (front ++ (next :: rest).map (offset base)) size (offset base next)
        front.length masks (if 0 < (next - prev - 1).toNat then
          insertZeroColumns (next - prev - 1).toNat (offset base prev + 1) rows else rows) := by
      split
      · have hinsert := hrows.insertZeros (z := (next - prev - 1).toNat) (by omega)
          (by rwa [hbetween])
        rwa [hbetween] at hinsert
      · rwa [show offset base next = offset base prev + 1 by omega]
    have hcopy := hzeros.copy hasc (by simp) hsize0
    have hnext := ih (by rwa [← hoffs])
      List.getLast?_concat hsize hfew (by
        rw [← hoffs]
        simpa using hcopy)
    rw [← hoffs] at hnext
    obtain ⟨rows', hloop, hdone⟩ := hnext
    rw [List.getLastD_cons]
    refine ⟨rows', ?_, ?_⟩
    · have hgo : ¬ offset base prev + 1 = kMaxMediaPackets := by
        rw [kMaxMediaPackets]
        omega
      rw [insertLoop, if_neg hgo]
      simp only [hbetween, copyColumn, if_pos hsize0, Option.bind_some]
      rw [← hloop, List.length_append, List.length_singleton]
    · rwa [List.length_append, List.length_singleton, Nat.add_assoc, Nat.add_comm 1,
        ← List.length_cons (a := next)] at hdone

/-! ### The new masks -/

theorem add_le_of_ascending {l : List Nat} (h : l.Pairwise (· < ·)) {i j : Nat} (hij : i ≤ j)
    (hj : j < l.length) : l[i] + (j - i) ≤ l[j] := by
  induction j with
  | zero =>
    obtain rfl := Nat.le_zero.mp hij
    simp
  | succ j ih =>
    rcases Nat.lt_or_eq_of_le hij with hlt | rfl
    · have hstep := List.pairwise_iff_getElem.mp h j (j + 1) (by omega) hj (Nat.lt_succ_self j)
      have hbefore := ih (Nat.le_of_lt_succ hlt) (by omega)
      omega
    · simp

/-- The masks for the sequence numbers of a block, made from those for its packets. -/
def Spread (offs : List Nat) (size : Nat) (masks masks' : List (List UInt8)) : Prop :=
  List.Forall₂ (fun mask mask' => mask'.length = size ∧
    ∀ o, bitAt mask' o = spread offs mask o) masks masks'

/-- Without holes the columns are in their places. -/
theorem spread_range {m : Nat} {mask : List UInt8} (hinside : ∀ o, bitAt mask o = true → o < m)
    (o : Nat) : spread (List.range m) mask o = bitAt mask o := by
  by_cases ho : o < m
  · have hget := spread_getElem List.pairwise_lt_range mask (k := o) (by simpa using ho)
    rwa [List.getElem_range] at hget
  · rw [spread_of_not_mem (by simpa using ho)]
    by_contra hbit
    exact ho (hinside o (by simpa using Ne.symm hbit))

theorem eq_range {offs : List Nat} (hasc : offs.Pairwise (· < ·))
    (hlast : ∀ o ∈ offs, o < offs.length) : offs = List.range offs.length := by
  refine List.ext_getElem (by simp) fun k hk _ => ?_
  rw [List.getElem_range]
  have hfirst := add_le_of_ascending hasc (Nat.zero_le k) hk
  have hend := add_le_of_ascending hasc (show k ≤ offs.length - 1 by omega) (by omega)
  have hbound := hlast _ (List.getElem_mem (show offs.length - 1 < offs.length by omega))
  omega

theorem forall₂_same {α : Type} {R : α → α → Prop} {l : List α} (h : ∀ a ∈ l, R a a) :
    List.Forall₂ R l l := by
  induction l with
  | nil => exact .nil
  | cons a l ih =>
    obtain ⟨ha, hl⟩ := List.forall_mem_cons.mp h
    exact .cons ha (ih hl)

section Insert

variable {base : UInt16} {rest : List UInt16} {masks : List (List UInt8)}

theorem getLast?_cons_getLastD {α : Type} (a : α) (l : List α) :
    (a :: l).getLast? = some (l.getLastD a) := by
  rw [List.getLast?_cons, List.getLastD_eq_getLast?]

/-- How far the last packet is behind the first. -/
theorem le_last (hasc : ((base :: rest).map (offset base)).Pairwise (· < ·)) :
    (∀ n ∈ base :: rest, offset base n ≤ offset base (rest.getLastD base)) ∧
      rest.length ≤ offset base (rest.getLastD base) := by
  have hlen : ((base :: rest).map (offset base)).length = rest.length + 1 := by simp
  have hend : ((base :: rest).map (offset base))[rest.length]? =
      some (offset base (rest.getLastD base)) := by
    have hlast := getLast?_cons_getLastD base rest
    rw [List.getLast?_eq_getElem?, List.length_cons, Nat.add_sub_cancel] at hlast
    rw [List.getElem?_map, hlast]
    rfl
  obtain ⟨hin, hget⟩ := List.getElem?_eq_some_iff.mp hend
  constructor
  · intro n hn
    obtain ⟨k, hk, hn⟩ := List.getElem_of_mem (List.mem_map_of_mem (f := offset base) hn)
    have hle := add_le_of_ascending hasc (show k ≤ rest.length by omega) hin
    omega
  · have hle := add_le_of_ascending hasc (Nat.zero_le rest.length) hin
    omega

theorem toNat_missing (hasc : ((base :: rest).map (offset base)).Pairwise (· < ·)) :
    ((rest.getLastD base - base).toUInt64 - UInt64.ofNat (rest.length + 1) + 1).toNat =
        offset base (rest.getLastD base) - rest.length ∧
      ((rest.getLastD base - base).toUInt64 - UInt64.ofNat (rest.length + 1) + 1 +
        UInt64.ofNat (rest.length + 1)).toNat = offset base (rest.getLastD base) + 1 := by
  have hle := (le_last hasc).2
  have hspan := (rest.getLastD base - base).toNat_lt
  have hone : (1 : UInt64).toNat = 1 := rfl
  simp only [offset] at hle ⊢
  simp only [UInt64.toNat_add, UInt64.toNat_sub, UInt64.toNat_ofNat', UInt16.toNat_toUInt64, hone]
  omega

theorem RowsAt.start (offs : List Nat) (size : Nat)
    (hold : ∀ mask ∈ masks, offs.length ≤ 8 * mask.length) :
    RowsAt offs size 0 0 masks (masks.map fun mask => ⟨List.replicate size 0, mask⟩) := by
  refine List.forall₂_map_right_iff.mpr (forall₂_same fun mask hmask => ?_)
  refine ⟨by simp, hold mask hmask, fun o _ => ?_, Remaining.start mask⟩
  rw [bitAt_zero (fun b hb => List.eq_of_mem_replicate hb), partialBit, if_neg (Nat.not_lt_zero _)]
  split
  · rw [decide_eq_false (by omega), Bool.false_and]
  · rfl

/-- The rows at the end, with the last shift. -/
theorem RowsAt.finish {offs : List Nat} {size c i : Nat} {rows : List MaskRow}
    (h : RowsAt offs size c i masks rows) (hoffs : ∀ o ∈ offs, o < c) (hc : c ≤ 8 * size) :
    Spread offs size masks
      ((if c % 8 ≠ 0 then rows.map (·.shiftLast c) else rows).map MaskRow.new) := by
  have hmap : (if c % 8 ≠ 0 then rows.map (·.shiftLast c) else rows).map MaskRow.new =
      rows.map fun row => (if c % 8 ≠ 0 then row.shiftLast c else row).new := by
    split
    · rw [List.map_map]
      rfl
    · rfl
  rw [hmap]
  refine List.forall₂_map_right_iff.mpr (h.imp fun mask row hrow => ?_)
  obtain ⟨hsize, -, hrow, -⟩ := hrow
  have hlen : (if c % 8 ≠ 0 then row.shiftLast c else row).new.length = size := by
    split
    · simpa [MaskRow.shiftLast] using hsize
    · exact hsize
  refine ⟨hlen, fun o => ?_⟩
  by_cases ho : o < 8 * size
  · rw [hrow.finish o (by omega)]
    by_cases hmem : o ∈ offs
    · rw [decide_eq_true (hoffs o hmem), Bool.true_and]
    · rw [spread_of_not_mem hmem, Bool.and_false]
  · rw [bitAt_beyond (by omega), spread_of_not_mem fun hmem => ho (by
      have hlt := hoffs o hmem
      omega)]

/-- Where the numbers of a block ascend within 48, the columns are put where their numbers are. -/
theorem insertZerosInPacketMasks_spec
    (hasc : ((base :: rest).map (offset base)).Pairwise (· < ·))
    (hfew : ∀ n ∈ base :: rest, offset base n < 48)
    (hsizes : ∀ mask ∈ masks, mask.length = packetMaskSize (rest.length + 1))
    (hprotecting : Protecting (rest.length + 1) masks) :
    ∃ masks', insertZerosInPacketMasks (base :: rest) masks =
        some (((offset base (rest.getLastD base) + 1 : Nat) : Int), masks') ∧
      Spread ((base :: rest).map (offset base))
        (packetMaskSize (offset base (rest.getLastD base) + 1)) masks masks' := by
  obtain ⟨hmost, hlong⟩ := le_last hasc
  have hlastfew : offset base (rest.getLastD base) < 48 :=
    hfew _ (List.mem_of_getLast? (getLast?_cons_getLastD base rest))
  -- without holes the masks stay
  have hsame (hfull : offset base (rest.getLastD base) = rest.length) :
      Spread ((base :: rest).map (offset base))
        (packetMaskSize (offset base (rest.getLastD base) + 1)) masks masks := by
    have hrange := eq_range hasc fun o ho => by
      obtain ⟨n, hn, rfl⟩ := List.mem_map.mp ho
      have hle := hmost n hn
      simp only [List.length_map, List.length_cons]
      omega
    rw [hrange, List.length_map, List.length_cons, hfull]
    refine forall₂_same fun mask hmask => ⟨hsizes mask hmask, fun o => ?_⟩
    exact (spread_range (hprotecting.inside mask hmask) o).symm
  cases rest with
  | nil =>
    have hzero : offset base base = 0 := by simp [offset]
    refine ⟨masks, ?_, hsame hzero⟩
    simp only [insertZerosInPacketMasks, List.getLastD_nil, hzero]
    rfl
  | cons next rest =>
    obtain ⟨hmissing, htotal⟩ := toNat_missing hasc
    rw [insertZerosInPacketMasks.eq_3 _ _ _ (by simp), List.length_cons]
    generalize hlast : (next :: rest).getLastD base = last at *
    split
    · next hnone =>
      rw [hnone] at hmissing
      have hfull : offset base last = (next :: rest).length := by
        have hzero : (0 : UInt64).toNat = 0 := rfl
        omega
      exact ⟨masks, by rw [hfull], hsame hfull⟩
    · have hroom : ¬ UInt64.ofNat kMaxMediaPackets <
          (last - base).toUInt64 - UInt64.ofNat ((next :: rest).length + 1) + 1 +
            UInt64.ofNat ((next :: rest).length + 1) := by
        rw [UInt64.lt_iff_toNat_lt, htotal, kMaxMediaPackets]
        have hmax : (UInt64.ofNat 48).toNat = 48 := rfl
        omega
      rw [if_neg hroom, htotal]
      have hsize := le_packetMaskSize (m := offset base last + 1) (by omega)
      have hzero : offset base base = 0 := by simp [offset]
      let offs := (base :: next :: rest).map (offset base)
      have hoffs : [offset base base] ++ (next :: rest).map (offset base) = offs := rfl
      have hstart := RowsAt.start offs (packetMaskSize (offset base last + 1)) (by
        intro mask hmask
        have hold := hsizes mask hmask
        have hle := le_packetMaskSize (m := (next :: rest).length + 1) (by omega)
        simp only [offs, List.length_map]
        rw [hold]
        exact hle)
      have hcopy := hstart.copy hasc (by simp [offs, hzero]) (by omega)
      have hbound : ∀ n ∈ next :: rest,
          offset base n < 8 * packetMaskSize (offset base last + 1) := by
        intro n hn
        have hle := hmost n (List.mem_cons_of_mem _ hn)
        omega
      have hasc' : ([offset base base] ++ (next :: rest).map (offset base)).Pairwise (· < ·) :=
        hasc
      obtain ⟨rows', hloop, hdone⟩ := insertLoop_spec hasc' rfl hbound
        (fun n hn => hfew n (List.mem_cons_of_mem _ hn)) (by
          rw [hoffs, hzero]
          exact hcopy)
      rw [hlast] at hloop hdone
      rw [hzero] at hloop
      refine ⟨_, ?_, hdone.finish ?_ hsize⟩
      · simp only [List.length_singleton, Nat.zero_add] at hloop
        simp only [copyColumn, if_pos (show 0 < 8 * packetMaskSize (offset base last + 1) by omega),
          Option.bind_some, hloop]
        rfl
      · intro o ho
        rw [hoffs] at ho
        obtain ⟨n, hn, rfl⟩ := List.mem_map.mp ho
        exact Nat.lt_succ_of_le (hmost n hn)

/-- Where they ascend further than 48 nothing is done. -/
theorem insertZerosInPacketMasks_gap
    (hasc : ((base :: rest).map (offset base)).Pairwise (· < ·)) (hlen : rest.length < 48)
    (hgap : 48 ≤ offset base (rest.getLastD base)) :
    insertZerosInPacketMasks (base :: rest) masks = some (-1, masks) := by
  cases rest with
  | nil => simp [offset] at hgap
  | cons next rest =>
    obtain ⟨hmissing, htotal⟩ := toNat_missing hasc
    rw [insertZerosInPacketMasks.eq_3 _ _ _ (by simp), List.length_cons]
    generalize (next :: rest).getLastD base = last at *
    have hsome : ¬ (last - base).toUInt64 - UInt64.ofNat ((next :: rest).length + 1) + 1 = 0 := by
      intro hnone
      rw [hnone] at hmissing
      have hzero : (0 : UInt64).toNat = 0 := rfl
      omega
    have hfull : UInt64.ofNat kMaxMediaPackets <
        (last - base).toUInt64 - UInt64.ofNat ((next :: rest).length + 1) + 1 +
          UInt64.ofNat ((next :: rest).length + 1) := by
      rw [UInt64.lt_iff_toNat_lt, htotal, kMaxMediaPackets]
      have hmax : (UInt64.ofNat 48).toNat = 48 := rfl
      omega
    rw [if_neg hsome, if_pos hfull]

end Insert

end FlexfecMaskColumns
