import TransportDemo.FlexfecGenuine
import TransportDemo.FlexfecMaskColumns

/-!
# Protecting a block of media packets

`EncodeFec` settles how many FEC packets there are to be, makes their masks,
adapts these to missing numbers and makes the packets. Whatever the protection
factor, the mask type and the unequal protection, a block whose numbers ascend
within 48 gets genuine FEC packets that together protect all of it.
-/

namespace FlexfecBlock

open FlexfecPacket FlexfecEncoder FlexfecParity FlexfecRecover FlexfecMaskTable FlexfecMaskColumns

/-- In units of 1/256, rounded, and at least one if there is to be any protection. -/
def numFecPackets (numMediaPackets protectionFactor : Nat) : Nat :=
  let numFecPackets := (numMediaPackets * protectionFactor + (1 <<< 7)) >>> 8
  if 0 < protectionFactor ∧ numFecPackets = 0 then 1 else numFecPackets

/-- `ForwardErrorCorrection::EncodeFec`: what it returns and the FEC packets; `none` if the process
ends. A packet that is too long for the MTU is only reported. -/
def encodeFec (mediaPackets : List Packet) (protectionFactor : UInt8) (numImportantPackets : Nat)
    (useUnequalProtection : Bool) (fecMaskType : FecMaskType) : Option (Int × List Packet) :=
  let numMediaPackets := mediaPackets.length
  if kMaxMediaPackets < numMediaPackets then some (-1, [])
  else if mediaPackets.any fun p => p.length < kRtpHeaderSize then some (-1, [])
  else
    let numFec := numFecPackets numMediaPackets protectionFactor.toNat
    if numFec = 0 then some (0, [])
    else
      let masks := generatePacketMasks numMediaPackets numFec numImportantPackets
        useUnequalProtection (pickTable fecMaskType numMediaPackets)
      (insertZerosInPacketMasks (mediaPackets.map parseSequenceNumber) masks).map
        fun (numMaskBits, masks) =>
          if numMaskBits < 0 then (-1, [])
          else (0, masks.map fun mask => FlexfecEncoder.encodeFec mask mediaPackets)

theorem numFecPackets_le (m : Nat) (factor : UInt8) : numFecPackets m factor.toNat ≤ m ∨ m = 0 := by
  have hfactor := factor.toNat_lt
  have hprod : m * factor.toNat ≤ m * 255 := Nat.mul_le_mul_left m (by omega)
  simp only [numFecPackets, Nat.shiftRight_eq_div_pow]
  split <;> omega

theorem numFecPackets_pos {m factor : Nat} (h : 0 < factor) : 0 < numFecPackets m factor := by
  simp only [numFecPackets]
  split <;> omega

/-! ### Masks of a block -/

variable {ssrc : UInt32}

/-- Where the packets of a block stand, by their numbers. -/
def offsets (block : List (Media ssrc)) : List Nat :=
  block.map fun m => offset (baseOf block) m.seqNum

theorem length_offsets (block : List (Media ssrc)) : (offsets block).length = block.length :=
  List.length_map _

theorem getElem_offsets (block : List (Media ssrc)) {k : Nat} (h : k < block.length)
    (h' : k < (offsets block).length) :
    (offsets block)[k] = offset (baseOf block) block[k].seqNum := by
  simp [offsets]

/-- The block's numbers ascend within 48. -/
structure Ordered (block : List (Media ssrc)) : Prop where
  nonempty : block ≠ []
  ascending : (offsets block).Pairwise (· < ·)
  span : ∀ m ∈ block, offset (baseOf block) m.seqNum < 48

/-- A row of a mask for the block. -/
structure MaskOf (block : List (Media ssrc)) (mask : List UInt8) : Prop where
  length : mask.length = 2 ∨ mask.length = 6
  bits : ∀ o, bitAt mask o = true → o ∈ offsets block
  span : ∀ m ∈ block, offset (baseOf block) m.seqNum < 8 * mask.length
  protects : ∃ m ∈ block, bitAt mask (offset (baseOf block) m.seqNum) = true

/-- The FEC packet for a row. -/
def parityFor {block : List (Media ssrc)} (h : Ordered block) (mask : List UInt8)
    (hmask : MaskOf block mask) : Parity ssrc where
  block := block
  mask := mask
  ascending := h.ascending
  mask_length := hmask.length
  mask_bits o _ hbit := List.mem_map.mp (hmask.bits o hbit)
  span := hmask.span
  protects := hmask.protects

/-- One genuine FEC packet for each row. -/
theorem parities_of_masks {block : List (Media ssrc)} (h : Ordered block)
    {masks : List (List UInt8)} (hmasks : ∀ mask ∈ masks, MaskOf block mask) :
    ∃ parities : List (Parity ssrc), parities.map Parity.mask = masks ∧
      ∀ d ∈ parities, d.block = block := by
  induction masks with
  | nil => exact ⟨[], rfl, List.forall_mem_nil _⟩
  | cons mask masks ih =>
    obtain ⟨hmask, hmasks⟩ := List.forall_mem_cons.mp hmasks
    obtain ⟨parities, rfl, hblock⟩ := ih hmasks
    exact ⟨parityFor h mask hmask :: parities, rfl, List.forall_mem_cons.mpr ⟨rfl, hblock⟩⟩

theorem baseOf_cons (front : Media ssrc) (rest : List (Media ssrc)) :
    baseOf (front :: rest) = front.seqNum := rfl

theorem length_le_of_ordered {block : List (Media ssrc)} (h : Ordered block) :
    block.length ≤ 48 := by
  have hpos := List.length_pos_of_ne_nil h.nonempty
  have hlen := length_offsets block
  have hend : block.length - 1 < (offsets block).length := by omega
  have hle := add_le_of_ascending h.ascending (Nat.zero_le (block.length - 1)) hend
  obtain ⟨m, hm, hoffset⟩ := List.mem_map.mp (List.getElem_mem hend)
  have hspan := h.span m hm
  omega

section Masks

variable {block : List (Media ssrc)} {size : Nat} {masks masks' : List (List UInt8)}

/-- A row that protects some of the packets of the block protects them by their numbers. -/
theorem maskOf_spread (h : Ordered block) (hsize : size = 2 ∨ size = 6)
    (hspan : ∀ m ∈ block, offset (baseOf block) m.seqNum < 8 * size) {mask mask' : List UInt8}
    (hlen : mask'.length = size) (hspread : ∀ o, bitAt mask' o = spread (offsets block) mask o)
    (hinside : ∀ o, bitAt mask o = true → o < block.length)
    (hprotects : ∃ o, bitAt mask o = true) : MaskOf block mask' where
  length := hlen ▸ hsize
  bits o hbit := by
    by_contra hout
    rw [hspread, spread_of_not_mem hout] at hbit
    cases hbit
  span m hm := hlen ▸ hspan m hm
  protects := by
    obtain ⟨k, hk⟩ := hprotects
    have hin := hinside k hk
    have hin' : k < (offsets block).length := by rwa [length_offsets]
    refine ⟨block[k], List.getElem_mem hin, ?_⟩
    rw [hspread, ← hk, ← spread_getElem h.ascending mask hin', getElem_offsets block hin]

theorem exists_left {α β : Type} {R : α → β → Prop} {l : List α} {l' : List β}
    (h : List.Forall₂ R l l') {b : β} (hb : b ∈ l') : ∃ a ∈ l, R a b := by
  induction h with
  | nil => cases hb
  | cons hab _ ih =>
    rcases List.mem_cons.mp hb with rfl | hb
    · exact ⟨_, List.mem_cons_self, hab⟩
    · obtain ⟨a, ha, hR⟩ := ih hb
      exact ⟨a, List.mem_cons_of_mem _ ha, hR⟩

/-- The masks that are made for a block, once holes are taken into account. -/
theorem masks_of_block (h : Ordered block) (hprotecting : Protecting block.length masks)
    (hcovers : Covers block.length masks)
    (hsizes : ∀ mask ∈ masks, mask.length = packetMaskSize block.length) :
    ∃ bits masks', 0 ≤ bits ∧ insertZerosInPacketMasks (block.map Media.seqNum) masks =
        some (bits, masks') ∧ masks'.length = masks.length ∧
      (∀ mask ∈ masks', MaskOf block mask) ∧
      ∀ m ∈ block, ∃ mask ∈ masks', bitAt mask (offset (baseOf block) m.seqNum) = true := by
  cases block with
  | nil => exact absurd rfl h.nonempty
  | cons front rest =>
    have hnums : front.seqNum :: rest.map Media.seqNum = (front :: rest).map Media.seqNum := rfl
    have hoffs : (front.seqNum :: rest.map Media.seqNum).map (offset front.seqNum) =
        offsets (front :: rest) := by
      rw [hnums, List.map_map]
      rfl
    have hfew : ∀ n ∈ front.seqNum :: rest.map Media.seqNum, offset front.seqNum n < 48 := by
      intro n hn
      rw [hnums] at hn
      obtain ⟨m, hm, rfl⟩ := List.mem_map.mp hn
      exact h.span m hm
    have hlen : (rest.map Media.seqNum).length + 1 = (front :: rest).length := by simp
    have hasc : ((front.seqNum :: rest.map Media.seqNum).map
        (offset front.seqNum)).Pairwise (· < ·) := hoffs ▸ h.ascending
    obtain ⟨masks', hinsert, hspread⟩ := insertZerosInPacketMasks_spec hasc hfew
      (by rwa [hlen]) (by rwa [hlen])
    have hmost := (le_last hasc).1
    have hlast := hfew _ (List.mem_of_getLast?
      (getLast?_cons_getLastD front.seqNum (rest.map Media.seqNum)))
    generalize (rest.map Media.seqNum).getLastD front.seqNum = last at *
    have hroom := le_packetMaskSize (m := offset front.seqNum last + 1) (by omega)
    have hspan : ∀ m ∈ front :: rest, offset (baseOf (front :: rest)) m.seqNum <
        8 * packetMaskSize (offset front.seqNum last + 1) := by
      intro m hm
      have hle := hmost m.seqNum (hnums ▸ List.mem_map_of_mem hm)
      rw [baseOf_cons]
      omega
    have hsize : packetMaskSize (offset front.seqNum last + 1) = 2 ∨
        packetMaskSize (offset front.seqNum last + 1) = 6 := by
      rw [packetMaskSize]
      split
      · exact .inr rfl
      · exact .inl rfl
    rw [hoffs] at hspread
    refine ⟨_, masks', ?_, hinsert, hspread.length_eq.symm, ?_, ?_⟩
    · omega
    · intro mask' hmask'
      obtain ⟨mask, hmask, hlen', hbits⟩ := exists_left hspread hmask'
      exact maskOf_spread h hsize hspan hlen' hbits (hprotecting.inside mask hmask)
        (hprotecting.protects mask hmask)
    · intro m hm
      obtain ⟨k, hk, rfl⟩ := List.getElem_of_mem hm
      obtain ⟨mask, hmask, hbit⟩ := hcovers k hk
      obtain ⟨mask', hmask', -, hbits⟩ := exists_left hspread.flip hmask
      refine ⟨mask', hmask', ?_⟩
      have hk' : k < (offsets (front :: rest)).length := by rwa [length_offsets]
      rw [hbits, ← hbit, ← spread_getElem h.ascending mask hk', getElem_offsets _ hk]

end Masks

/-- What is made of a block are genuine FEC packets for it, as many as the factor asks for, and
they leave no packet of it out. -/
theorem encodeFec_parities (block : List (Media ssrc)) (h : Ordered block) (protectionFactor : UInt8)
    (numImportantPackets : Nat) (himportant : numImportantPackets ≤ block.length)
    (useUnequalProtection : Bool) (fecMaskType : FecMaskType) :
    ∃ parities : List (Parity ssrc),
      encodeFec (block.map Media.packet) protectionFactor numImportantPackets useUnequalProtection
        fecMaskType = some (0, parities.map Parity.packet) ∧
      parities.length = numFecPackets block.length protectionFactor.toNat ∧
      (∀ d ∈ parities, d.block = block) ∧
      (protectionFactor ≠ 0 → ∀ m ∈ block, ∃ d ∈ parities, m ∈ d.protectedMedia) := by
  have hpos := List.length_pos_of_ne_nil h.nonempty
  have hfew := length_le_of_ordered h
  have hlong : ¬ ((block.map Media.packet).any fun p => p.length < kRtpHeaderSize) = true := by
    rw [List.any_eq_true]
    rintro ⟨p, hp, hshort⟩
    obtain ⟨m, -, rfl⟩ := List.mem_map.mp hp
    have hheader := m.header
    have hlength : m.packet.length = m.bytes.length := rfl
    have hshort := of_decide_eq_true hshort
    omega
  have hnums : (block.map Media.packet).map parseSequenceNumber = block.map Media.seqNum :=
    List.map_map
  have hmax : ¬ kMaxMediaPackets < block.length := by
    rw [kMaxMediaPackets]
    omega
  simp only [encodeFec, List.length_map, if_neg hmax, if_neg hlong, hnums]
  by_cases hnone : numFecPackets block.length protectionFactor.toNat = 0
  · refine ⟨[], by rw [if_pos hnone]; rfl, hnone.symm, List.forall_mem_nil _, fun hfactor => ?_⟩
    have hzero : 0 < protectionFactor.toNat := by
      rw [Nat.pos_iff_ne_zero]
      exact fun hzero => hfactor (UInt8.toNat_inj.mp hzero)
    have hsome := numFecPackets_pos (m := block.length) hzero
    omega
  · have hle := (numFecPackets_le block.length protectionFactor).resolve_right (by omega)
    obtain ⟨hlength, hsizes, hprotecting, hcovers⟩ := generatePacketMasks_spec fecMaskType
      block.length (Nat.pos_of_ne_zero hnone) hle hfew himportant useUnequalProtection rfl
    obtain ⟨bits, masks, hbits, hinsert, hlength', hmasks, hall⟩ :=
      masks_of_block h hprotecting hcovers hsizes
    obtain ⟨parities, hparities, hblock⟩ := parities_of_masks h hmasks
    refine ⟨parities, ?_, ?_, hblock, fun _ m hm => ?_⟩
    · rw [if_neg hnone, hinsert, Option.map_some, if_neg (by omega), ← hparities, List.map_map]
      congr 2
      refine List.map_congr_left fun d hd => ?_
      rw [Function.comp_apply, Parity.packet, hblock d hd]
    · rw [← hlength, ← hlength', ← hparities, List.length_map]
    · obtain ⟨mask, hmask, hbit⟩ := hall m hm
      rw [← hparities] at hmask
      obtain ⟨d, hd, rfl⟩ := List.mem_map.mp hmask
      refine ⟨d, hd, List.mem_filter.mpr ⟨?_, ?_⟩⟩
      · rw [hblock d hd]
        exact hm
      · rw [Parity.base, hblock d hd]
        exact hbit

/-- The decoder's view of an FEC packet that was made: it protects the packets `before`, `lost` and
`after`, and gives back `lost` for the others. -/
structure Recovers (fec : Packet) (header : FecHeader) (before after : List (Media ssrc))
    (lost : Media ssrc) : Prop where
  readFecHeader : readFecHeader fec = some header
  seqNums : maskSeqNums header = (before ++ lost :: after).map Media.seqNum
  recoverPacket : recoverPacket header
      (before.map stored ++ ⟨lost.seqNum, none⟩ :: after.map stored) =
    some ⟨ssrc, lost.seqNum, false, lost.packet⟩

/-- Too many packets, one without a header, or a number too far from the first one. -/
def Refused (front : Packet) (rest : List Packet) (protectionFactor : UInt8) : Prop :=
  kMaxMediaPackets < rest.length + 1 ∨ (∃ p ∈ front :: rest, p.length < kRtpHeaderSize) ∨
    protectionFactor ≠ 0 ∧
      ∃ p ∈ front :: rest, 48 ≤ offset (parseSequenceNumber front) (parseSequenceNumber p)

theorem numFecPackets_eq_zero_iff {m : Nat} {factor : UInt8} :
    numFecPackets m factor.toNat = 0 ↔ factor = 0 := by
  constructor
  · intro hnone
    by_contra hfactor
    have hpos := numFecPackets_pos (m := m) (Nat.pos_of_ne_zero fun h => hfactor (UInt8.toNat_inj.mp h))
    omega
  · rintro rfl
    simp [numFecPackets]

section Refused

variable {front : Packet} {rest : List Packet} {protectionFactor : UInt8} {numImportantPackets : Nat}
  {useUnequalProtection : Bool} {fecMaskType : FecMaskType}

/-- What is left to do once the block passed the checks. -/
theorem encodeFec_of_checked (hmany : ¬ kMaxMediaPackets < rest.length + 1)
    (hshort : ¬ ∃ p ∈ front :: rest, p.length < kRtpHeaderSize) (hfactor : protectionFactor ≠ 0)
    (himportant : numImportantPackets ≤ rest.length + 1) :
    ∃ masks : List (List UInt8),
      masks.length = numFecPackets (rest.length + 1) protectionFactor.toNat ∧
      (∀ mask ∈ masks, mask.length = packetMaskSize (rest.length + 1)) ∧
      Protecting (rest.length + 1) masks ∧
      encodeFec (front :: rest) protectionFactor numImportantPackets useUnequalProtection
          fecMaskType =
        (insertZerosInPacketMasks ((front :: rest).map parseSequenceNumber) masks).map
          fun result => if result.1 < 0 then (-1, [])
            else (0, result.2.map fun mask => FlexfecEncoder.encodeFec mask (front :: rest)) := by
  have hany : ¬ ((front :: rest).any fun p => p.length < kRtpHeaderSize) = true := by
    rw [List.any_eq_true]
    rintro ⟨p, hp, hlt⟩
    exact hshort ⟨p, hp, of_decide_eq_true hlt⟩
  have hle := (numFecPackets_le (rest.length + 1) protectionFactor).resolve_right (by omega)
  have hpos := Nat.pos_of_ne_zero (mt (Iff.mp numFecPackets_eq_zero_iff) hfactor :
    numFecPackets (rest.length + 1) protectionFactor.toNat ≠ 0)
  obtain ⟨hlength, hsizes, hprotecting, -⟩ := generatePacketMasks_spec fecMaskType
    (rest.length + 1) hpos hle (by rw [kMaxMediaPackets] at hmany; omega) himportant
    useUnequalProtection rfl
  refine ⟨_, hlength, hsizes, hprotecting, ?_⟩
  simp only [encodeFec, List.length_cons, if_neg hmany, if_neg hany, numFecPackets_eq_zero_iff,
    if_neg hfactor]

theorem encodeFec_refused (hascending : ((front :: rest).map fun p =>
      offset (parseSequenceNumber front) (parseSequenceNumber p)).Pairwise (· < ·))
    (himportant : numImportantPackets ≤ rest.length + 1)
    (h : Refused front rest protectionFactor) :
    encodeFec (front :: rest) protectionFactor numImportantPackets useUnequalProtection
      fecMaskType = some (-1, []) := by
  by_cases hmany : kMaxMediaPackets < rest.length + 1
  · rw [encodeFec, List.length_cons, if_pos hmany]
  by_cases hshort : ∃ p ∈ front :: rest, p.length < kRtpHeaderSize
  · obtain ⟨p, hp, hlt⟩ := hshort
    have hany : ((front :: rest).any fun p => p.length < kRtpHeaderSize) = true :=
      List.any_eq_true.mpr ⟨p, hp, decide_eq_true hlt⟩
    rw [encodeFec, List.length_cons, if_neg hmany, if_pos hany]
  obtain ⟨hfactor, p, hp, hfar⟩ := (h.resolve_left hmany).resolve_left hshort
  obtain ⟨masks, -, -, -, hencode⟩ := encodeFec_of_checked hmany hshort hfactor himportant
  have hasc : ((parseSequenceNumber front :: rest.map parseSequenceNumber).map
      (offset (parseSequenceNumber front))).Pairwise (· < ·) := by
    rw [← List.map_cons, List.map_map]
    exact hascending
  have hlast := (le_last hasc).1 (parseSequenceNumber p) (by
    rw [← List.map_cons]
    exact List.mem_map_of_mem hp)
  have hroom : (rest.map parseSequenceNumber).length < 48 := by
    rw [kMaxMediaPackets] at hmany
    rw [List.length_map]
    omega
  rw [hencode, List.map_cons, insertZerosInPacketMasks_gap hasc hroom (hfar.trans hlast),
    Option.map_some, if_pos (show (-1 : Int) < 0 by decide)]

theorem encodeFec_accepted (hascending : ((front :: rest).map fun p =>
      offset (parseSequenceNumber front) (parseSequenceNumber p)).Pairwise (· < ·))
    (himportant : numImportantPackets ≤ rest.length + 1)
    (h : ¬ Refused front rest protectionFactor) : ∃ fecPackets,
    encodeFec (front :: rest) protectionFactor numImportantPackets useUnequalProtection
      fecMaskType = some (0, fecPackets) ∧
    fecPackets.length = numFecPackets (rest.length + 1) protectionFactor.toNat := by
  obtain ⟨hmany, hshort, hfar⟩ := not_or.mp h |>.imp_right not_or.mp
  by_cases hfactor : protectionFactor = 0
  · have hany : ¬ ((front :: rest).any fun p => p.length < kRtpHeaderSize) = true := by
      rw [List.any_eq_true]
      rintro ⟨p, hp, hlt⟩
      exact hshort ⟨p, hp, of_decide_eq_true hlt⟩
    refine ⟨[], ?_, (Iff.mpr numFecPackets_eq_zero_iff hfactor).symm⟩
    simp only [encodeFec, List.length_cons, if_neg hmany, if_neg hany, numFecPackets_eq_zero_iff,
      if_pos hfactor]
  obtain ⟨masks, hlength, hsizes, hprotecting, hencode⟩ :=
    encodeFec_of_checked hmany hshort hfactor himportant
  have hasc : ((parseSequenceNumber front :: rest.map parseSequenceNumber).map
      (offset (parseSequenceNumber front))).Pairwise (· < ·) := by
    rw [← List.map_cons, List.map_map]
    exact hascending
  have hlen : (rest.map parseSequenceNumber).length + 1 = rest.length + 1 := by
    rw [List.length_map]
  obtain ⟨masks', hinsert, hspread⟩ := insertZerosInPacketMasks_spec hasc (by
      intro n hn
      rw [← List.map_cons] at hn
      obtain ⟨p, hp, rfl⟩ := List.mem_map.mp hn
      by_contra hle
      exact hfar ⟨hfactor, p, hp, Nat.le_of_not_lt hle⟩)
    (hlen ▸ hsizes) (hlen ▸ hprotecting)
  refine ⟨_, by rw [hencode, List.map_cons, hinsert, Option.map_some, if_neg (by omega)], ?_⟩
  rw [List.length_map, ← hspread.length_eq, hlength]

end Refused

end FlexfecBlock
