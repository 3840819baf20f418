import Mathlib.Data.List.Range
import Mathlib.Data.Nat.Bitwise
import TransportDemo.ByteBuffer
import TransportDemo.HeadBlocks
import TransportDemo.NackGen

/-!
# NACK packets

The writer cuts the list into items of a first number and a bit mask of the 16
numbers after it; the reader expands the items again. Writes go through the
bounds of the 1400-byte buffer, reads are logged.
-/

namespace NackPacket

open ByteBuffer HeadBlocks

def TPYE_RTT : UInt16 := 12
def TPYE_TRANSPORT_PACKET : UInt16 := 1
def TPYE_TRANSPORT_INFO : UInt16 := 2

def UDP_PACKET_MAX_BYTES : Nat := 1400
def RTP_HEADER_SIZE_BYTES : Nat := 8
def RTCP_HEADER_SIZE_BYTES : Nat := 8
def NACK_ITEM_BYTES : Nat := 4
def RTT_PAYLOAD_BYTES : Nat := 4
def MAX_NACK_ITEM_NUM : Nat := 347

/-- `TESTTPPacket`; a new one holds whatever the memory held. -/
abbrev TESTTPPacket := Buffer UDP_PACKET_MAX_BYTES

def getType (packet : TESTTPPacket) : UInt16 := get16 packet 0

/-- `TESTTPHeader::get_sequence`. -/
def getSequence (packet : TESTTPPacket) : UInt16 := get16 packet 2

/-- `TESTTCPHeader::get_length`; the field is aligned to four bytes. -/
def getLength (packet : TESTTPPacket) : UInt32 := get32 packet 4

/-! ### Writing -/

/-- The inner loop: numbers join the item while they are within 16 of its first. -/
def fillBlp (pid blp : UInt16) : List UInt16 → UInt16 × List UInt16
  | [] => (blp, [])
  | x :: rest =>
    if x - pid - 1 ≤ 15 then fillBlp pid (blp ||| 1 <<< (x - pid - 1)) rest else (blp, x :: rest)

theorem fillBlp_length (pid blp : UInt16) (l : List UInt16) :
    (fillBlp pid blp l).2.length ≤ l.length := by
  induction l generalizing blp with
  | nil => rfl
  | cons x rest ih =>
    rw [fillBlp]
    split
    · exact (ih _).trans (Nat.le_succ _)
    · rfl

/-- The outer loop: one item a turn, from item `count` on. It returns the packet, the number of
items written so far and the numbers that are left. -/
def packItems (packet : TESTTPPacket) (count : Nat) :
    List UInt16 → Option (TESTTPPacket × Nat × List UInt16)
  | [] => some (packet, count, [])
  | pid :: l =>
    (write packet (RTCP_HEADER_SIZE_BYTES + NACK_ITEM_BYTES * count)
      (be16 pid ++ be16 (fillBlp pid 0 l).1)).bind fun packet =>
        if count + 1 = MAX_NACK_ITEM_NUM then some (packet, count + 1, (fillBlp pid 0 l).2)
        else packItems packet (count + 1) (fillBlp pid 0 l).2
termination_by l => l.length
decreasing_by exact Nat.lt_succ_of_le (fillBlp_length _ _ _)

/-- `Pack::packing_nack` into the new packet `fresh`. -/
def packingNack (fresh : TESTTPPacket) (sequences : List UInt16) : Option TESTTPPacket := do
  let packet ← write fresh 0 (be16 TPYE_TRANSPORT_INFO)
  let (packet, count, _) ← packItems packet 0 sequences
  let length : UInt16 := .ofNat (RTCP_HEADER_SIZE_BYTES + NACK_ITEM_BYTES * count)
  let packet ← write packet 4 (be32 length.toUInt32)
  some { packet with length := length.toNat }

/-- `packing_header`. -/
def packingHeader (packet : TESTTPPacket) (sequence : UInt16) (timestamp : UInt32) :
    Option TESTTPPacket := do
  let packet ← write packet 0 (be16 TPYE_TRANSPORT_PACKET)
  let packet ← write packet 2 (be16 sequence)
  write packet 4 (be32 timestamp)

/-- `Pack::packing_packet` into the new packet `fresh`. The payload has a header of its own, and
only the first byte after that is cleared. -/
def packingPacket (fresh : TESTTPPacket) (sequence : UInt16) (timestamp : UInt32) :
    Option TESTTPPacket := do
  let packet ← packingHeader fresh sequence timestamp
  let packet ← write packet (RTP_HEADER_SIZE_BYTES + 8) [0]
  some { packet with length := RTP_HEADER_SIZE_BYTES + 1300 }

/-- `Pack::rtt_packing` into the new packet `fresh`; the number is stored in host order. -/
def rttPacking (fresh : TESTTPPacket) (num : UInt16) : Option TESTTPPacket := do
  let packet ← write fresh 0 (be16 TPYE_RTT)
  let packet ← write packet RTCP_HEADER_SIZE_BYTES (le32 num.toUInt32)
  let length : UInt16 := .ofNat (RTCP_HEADER_SIZE_BYTES + RTT_PAYLOAD_BYTES)
  let packet ← write packet 4 (be32 length.toUInt32)
  some { packet with length := length.toNat }

/-- `payload->rtt.num`. -/
def getRttNum (packet : TESTTPPacket) : UInt32 := getHost32 packet RTCP_HEADER_SIZE_BYTES

/-! ### Reading -/

theorem toNat_half (bitmask : UInt16) : (bitmask >>> 1).toNat = bitmask.toNat / 2 := by
  simp [UInt16.toNat_shiftRight, Nat.shiftRight_eq_div_pow]

/-- The bit mask loop: bit `j` stands for `pid + j`. -/
def expand (pid bitmask : UInt16) : List UInt16 :=
  if bitmask = 0 then []
  else (if bitmask &&& 1 = 1 then [pid] else []) ++ expand (pid + 1) (bitmask >>> 1)
termination_by bitmask.toNat
decreasing_by
  have hpos : 0 < bitmask.toNat := Nat.pos_of_ne_zero fun hz => ‹¬_› (UInt16.toNat_inj.mp hz)
  rw [toNat_half]
  omega

/-- One item. -/
def unpackItem (packet : TESTTPPacket) (i : Nat) : Logged (List UInt16) := do
  let pid ← read16 packet (RTCP_HEADER_SIZE_BYTES + NACK_ITEM_BYTES * i)
  let blp ← read16 packet (RTCP_HEADER_SIZE_BYTES + NACK_ITEM_BYTES * i + 2)
  pure (pid :: expand (pid + 1) blp)

/-- The item loop: `n` more items, from item `i` on. -/
def unpackItems (packet : TESTTPPacket) : Nat → Nat → List UInt16 → Logged (List UInt16)
  | 0, _, sequences => pure sequences
  | n + 1, i, sequences => do
    let item ← unpackItem packet i
    unpackItems packet n (i + 1) (sequences ++ item)

/-- The number of items a length field claims. -/
def nackItems (len : UInt32) : Nat := (len.toNat - RTCP_HEADER_SIZE_BYTES) / NACK_ITEM_BYTES

/-- The rest of the reader, once it knows the length field. -/
def unpackingBody (packet : TESTTPPacket) (sequences : List UInt16) (len : UInt32) :
    Logged (Bool × List UInt16) :=
  if len.toNat < RTCP_HEADER_SIZE_BYTES then pure (false, sequences)
  else do
    let out ← unpackItems packet (nackItems len) 0 sequences
    pure (true, out)

/-- `Pack::unpacking_nack`: the result, and the vector after the call. -/
def unpackingNack (packet : TESTTPPacket) (sequences : List UInt16) :
    Logged (Bool × List UInt16) :=
  read32 packet 4 >>= unpackingBody packet sequences

/-! ### Headers -/

theorem packingPacket_spec (fresh : TESTTPPacket) (sequence : UInt16) (timestamp : UInt32) :
    ∃ packet, packingPacket fresh sequence timestamp = some packet ∧
      getType packet = TPYE_TRANSPORT_PACKET ∧ getSequence packet = sequence := by
  obtain ⟨p₁, h₁, w₁⟩ := write_some fresh 0 (be16 TPYE_TRANSPORT_PACKET) (by decide)
  obtain ⟨p₂, h₂, w₂⟩ := write_some p₁ 2 (be16 sequence)
    (by simp [be16, UDP_PACKET_MAX_BYTES])
  obtain ⟨p₃, h₃, w₃⟩ := write_some p₂ 4 (be32 timestamp)
    (by simp [be32, UDP_PACKET_MAX_BYTES])
  obtain ⟨p₄, h₄, w₄⟩ := write_some p₃ (RTP_HEADER_SIZE_BYTES + 8) [0]
    (by decide)
  have hlow : ∀ i < 4, p₄.byte i = p₂.byte i := fun i hi => by
    rw [w₄.outside i (.inl (by simp [RTP_HEADER_SIZE_BYTES]; omega)), w₃.outside i (.inl hi)]
  refine ⟨{ p₄ with length := RTP_HEADER_SIZE_BYTES + 1300 }, ?_, ?_, ?_⟩
  · simp only [packingPacket, packingHeader, h₁, h₂, h₃, h₄, Option.bind_eq_bind,
      Option.bind_some]
  · refine (get16_congr (b := p₁) fun i _ hi => ?_).trans
      ((w₁.get16 (j := 0) (by decide)).trans (of16_be16 _))
    exact (hlow i (by omega)).trans (w₂.outside i (.inl (by omega)))
  · refine (get16_congr (b := p₂) fun i _ hi => hlow i (by omega)).trans ?_
    exact (w₂.get16 (j := 0) (by simp [be16])).trans (of16_be16 _)

theorem packingPacket_length {fresh packet : TESTTPPacket} {sequence : UInt16} {timestamp : UInt32}
    (h : packingPacket fresh sequence timestamp = some packet) :
    packet.length = RTP_HEADER_SIZE_BYTES + 1300 := by
  rw [packingPacket] at h
  obtain ⟨headed, -, hrest⟩ := Option.bind_eq_some_iff.mp h
  obtain ⟨cleared, -, hlast⟩ := Option.bind_eq_some_iff.mp hrest
  rw [← Option.some.inj hlast]

theorem rttPacking_spec (fresh : TESTTPPacket) (num : UInt16) :
    ∃ packet, rttPacking fresh num = some packet ∧
      getType packet = TPYE_RTT ∧ getRttNum packet = num.toUInt32 := by
  obtain ⟨p₁, h₁, w₁⟩ := write_some fresh 0 (be16 TPYE_RTT) (by decide)
  obtain ⟨p₂, h₂, w₂⟩ := write_some p₁ RTCP_HEADER_SIZE_BYTES (le32 num.toUInt32)
    (by simp [le32, RTCP_HEADER_SIZE_BYTES, UDP_PACKET_MAX_BYTES])
  obtain ⟨p₃, h₃, w₃⟩ := write_some p₂ 4 (be32
    (UInt16.ofNat (RTCP_HEADER_SIZE_BYTES + RTT_PAYLOAD_BYTES)).toUInt32) (by decide)
  refine ⟨{ p₃ with length := (UInt16.ofNat (RTCP_HEADER_SIZE_BYTES + RTT_PAYLOAD_BYTES)).toNat },
    ?_, ?_, ?_⟩
  · simp only [rttPacking, h₁, h₂, h₃, Option.bind_eq_bind, Option.bind_some]
  · refine (get16_congr (b := p₁) fun i _ hi => ?_).trans
      ((w₁.get16 (j := 0) (by decide)).trans (of16_be16 _))
    exact (w₃.outside i (.inl (by omega))).trans
      (w₂.outside i (.inl (by simp [RTCP_HEADER_SIZE_BYTES]; omega)))
  · have hnum : ∀ j < 4, p₃.byte (8 + j) = (le32 num.toUInt32).getD j 0 := fun j hj =>
      (w₃.outside (8 + j) (.inr (by simp [be32]))).trans
        (w₂.inside j (by simpa [le32] using hj))
    change getHost32 p₃ 8 = num.toUInt32
    rw [getHost32, hnum 3 (by omega), hnum 2 (by omega), hnum 1 (by omega),
      show p₃.byte 8 = _ from hnum 0 (by omega)]
    exact of32_be32 num.toUInt32

/-! ### The bit mask -/

theorem expand_eq (n : Nat) (pid bitmask : UInt16) (h : bitmask.toNat < 2 ^ n) :
    expand pid bitmask =
      ((List.range n).filter fun j => bitmask.toNat.testBit j).map fun j => pid + .ofNat j := by
  induction n generalizing pid bitmask with
  | zero =>
    have hz : bitmask = 0 := UInt16.toNat_inj.mp (by simpa using h)
    rw [expand, if_pos hz]
    rfl
  | succ n ih =>
    by_cases hz : bitmask = 0
    · rw [expand, if_pos hz, hz]
      simp
    have hlow : (bitmask &&& 1 = 1) ↔ bitmask.toNat.testBit 0 = true := by
      rw [← UInt16.toNat_inj, UInt16.toNat_and, UInt16.toNat_one, Nat.and_one_is_mod,
        Nat.testBit_zero]
      simp
    have hrest := ih (pid + 1) (bitmask >>> 1) (by rw [toNat_half]; omega)
    rw [expand, if_neg hz, hrest, List.range_succ_eq_map, List.filter_cons, List.filter_map,
      toNat_half]
    have htail : ((List.range n).filter fun j => (bitmask.toNat / 2).testBit j).map
          (fun j => pid + 1 + .ofNat j) =
        (((List.range n).filter ((fun j => bitmask.toNat.testBit j) ∘ Nat.succ)).map Nat.succ).map
          fun j => pid + .ofNat j := by
      rw [List.map_map]
      have hfun : (fun j => bitmask.toNat.testBit j) ∘ Nat.succ =
          fun j => (bitmask.toNat / 2).testBit j := by
        funext j
        simp [Nat.testBit_succ]
      rw [hfun]
      refine List.map_congr_left fun j _ => ?_
      simp only [Function.comp, Nat.succ_eq_add_one, UInt16.ofNat_add]
      rw [UInt16.add_assoc, UInt16.add_comm 1]
      rfl
    rw [htail]
    by_cases hbit : bitmask.toNat.testBit 0 = true
    · simp [hlow.mpr hbit, hbit]
    · simp [mt hlow.mp hbit, hbit]

theorem mem_expand {pid bitmask x : UInt16} :
    x ∈ expand pid bitmask ↔ ∃ j < 16, bitmask.toNat.testBit j = true ∧ x = pid + .ofNat j := by
  rw [expand_eq 16 pid bitmask bitmask.toNat_lt]
  simp only [List.mem_map, List.mem_filter, List.mem_range, and_assoc, eq_comm]

/-- `x` fits the item that starts with `pid`. -/
def near (pid x : UInt16) : Bool := x - pid - 1 ≤ 15

theorem near_iff {pid x : UInt16} : near pid x = true ↔ (x - pid - 1).toNat ≤ 15 := by
  rw [near, decide_eq_true_iff]
  exact UInt16.le_iff_toNat_le

/-- The bit mask of the numbers after `pid`. -/
def mask (pid blp : UInt16) (l : List UInt16) : UInt16 :=
  l.foldl (fun b x => b ||| 1 <<< (x - pid - 1)) blp

theorem fillBlp_eq (pid blp : UInt16) (l : List UInt16) :
    fillBlp pid blp l = (mask pid blp (l.takeWhile (near pid)), l.dropWhile (near pid)) := by
  induction l generalizing blp with
  | nil => rfl
  | cons x rest ih =>
    by_cases hx : x - pid - 1 ≤ 15
    · simp [fillBlp, hx, ih, near, mask]
    · simp [fillBlp, hx, near, mask]

theorem testBit_mask {pid : UInt16} {l : List UInt16} (h : ∀ x ∈ l, near pid x = true)
    (blp : UInt16) (j : Nat) : (mask pid blp l).toNat.testBit j = true ↔
      blp.toNat.testBit j = true ∨ ∃ x ∈ l, (x - pid - 1).toNat = j := by
  induction l generalizing blp with
  | nil => simp [mask]
  | cons x rest ih =>
    have hx : (x - pid - 1).toNat ≤ 15 := Iff.mp near_iff (h x List.mem_cons_self)
    have hbit : (1 <<< (x - pid - 1) : UInt16).toNat = 2 ^ (x - pid - 1).toNat := by
      rw [UInt16.toNat_shiftLeft, Nat.mod_eq_of_lt (by omega : (x - pid - 1).toNat < 16),
        UInt16.toNat_one, Nat.one_shiftLeft]
      exact Nat.mod_eq_of_lt (Nat.pow_lt_pow_right (by decide) (by omega))
    have hrest := ih (fun y hy => h y (List.mem_cons_of_mem x hy)) (blp ||| 1 <<< (x - pid - 1))
    rw [mask, List.foldl_cons]
    change (mask pid _ rest).toNat.testBit j = true ↔ _
    rw [hrest, UInt16.toNat_or, Nat.testBit_or, hbit, Nat.testBit_two_pow]
    simp [or_assoc]

/-- The numbers the reader gets from the item of a block. -/
def decode (b : UInt16 × List UInt16) : List UInt16 := b.1 :: expand (b.1 + 1) (mask b.1 0 b.2)

theorem mem_decode {b : UInt16 × List UInt16} (h : ∀ x ∈ b.2, near b.1 x = true) (x : UInt16) :
    x ∈ decode b ↔ x ∈ b.1 :: b.2 := by
  simp only [decode, List.mem_cons, mem_expand, testBit_mask h, UInt16.toNat_zero,
    Nat.zero_testBit, Bool.false_eq_true, false_or]
  refine or_congr_right ⟨?_, fun hx => ?_⟩
  · rintro ⟨j, -, ⟨y, hy, rfl⟩, rfl⟩
    rw [UInt16.ofNat_toNat, show b.1 + 1 + (y - b.1 - 1) = y by grind]
    exact hy
  · have hle : (x - b.1 - 1).toNat ≤ 15 := Iff.mp near_iff (h x hx)
    refine ⟨(x - b.1 - 1).toNat, by omega, ⟨x, hx, rfl⟩, ?_⟩
    rw [UInt16.ofNat_toNat]
    grind

/-- Two strictly ascending lists with the same members are equal. -/
theorem eq_of_ascending {l l' : List Nat} (h : l.Pairwise (· < ·)) (h' : l'.Pairwise (· < ·))
    (hmem : ∀ j, j ∈ l ↔ j ∈ l') : l = l' := by
  have hperm : l.Perm l' := (List.perm_ext_iff_of_nodup (h.imp ne_of_lt) (h'.imp ne_of_lt)).mpr hmem
  exact hperm.eq_of_pairwise (fun a b _ _ hab hba => absurd hab hba.asymm) h h'

/-- An ascending block is read back in order. -/
theorem decode_ascending {b : UInt16 × List UInt16} (h : ∀ x ∈ b.2, near b.1 x = true)
    (hasc : (b.1 :: b.2).Pairwise (· < ·)) : decode b = b.1 :: b.2 := by
  obtain ⟨hfirst, hrest⟩ := List.pairwise_cons.mp hasc
  have hshift : ∀ x ∈ b.2, (x - b.1 - 1).toNat = x.toNat - b.1.toNat - 1 := by
    intro x hx
    have hlt : b.1.toNat < x.toNat := hfirst x hx
    have hb := b.1.toNat_lt
    have hxl := x.toNat_lt
    simp only [UInt16.toNat_sub, UInt16.toNat_one]
    omega
  have hbits : ((List.range 16).filter fun j => (mask b.1 0 b.2).toNat.testBit j) =
      b.2.map fun x => (x - b.1 - 1).toNat := by
    apply eq_of_ascending
    · exact List.pairwise_lt_range.sublist List.filter_sublist
    · rw [List.pairwise_map]
      refine hrest.imp_of_mem fun {x y} hx hy hxy => ?_
      have hlt : x.toNat < y.toNat := hxy
      have hbx : b.1.toNat < x.toNat := hfirst x hx
      rw [hshift x hx, hshift y hy]
      omega
    · intro j
      simp only [List.mem_filter, List.mem_range, testBit_mask h, UInt16.toNat_zero,
        Nat.zero_testBit, Bool.false_eq_true, false_or, List.mem_map]
      refine ⟨And.right, fun hj => ⟨?_, hj⟩⟩
      obtain ⟨x, hx, rfl⟩ := hj
      have hle : (x - b.1 - 1).toNat ≤ 15 := Iff.mp near_iff (h x hx)
      omega
  rw [decode, expand_eq 16 _ _ (UInt16.toNat_lt _), hbits, List.map_map]
  congr 1
  refine (List.map_congr_left fun x _ => ?_).trans (List.map_id b.2)
  rw [Function.comp, UInt16.ofNat_toNat, id]
  grind

/-! ### What the writer leaves in the packet -/

/-- The items of a list. -/
abbrev items (l : List UInt16) : List (UInt16 × List UInt16) := blocks near l

/-- The packet holds the blocks as its items from item `count` on, up to the limit. -/
def Holds (packet : TESTTPPacket) (count : Nat) (bs : List (UInt16 × List UInt16)) : Prop :=
  ∀ j b, bs[j]? = some b → count + j < MAX_NACK_ITEM_NUM →
    get16 packet (RTCP_HEADER_SIZE_BYTES + NACK_ITEM_BYTES * (count + j)) = b.1 ∧
    get16 packet (RTCP_HEADER_SIZE_BYTES + NACK_ITEM_BYTES * (count + j) + 2) = mask b.1 0 b.2

theorem write_item (packet : TESTTPPacket) {count : Nat} (h : count < MAX_NACK_ITEM_NUM)
    (pid blp : UInt16) : ∃ packet',
      write packet (RTCP_HEADER_SIZE_BYTES + NACK_ITEM_BYTES * count) (be16 pid ++ be16 blp) =
        some packet' ∧ packet'.length = packet.length ∧
      (∀ i < RTCP_HEADER_SIZE_BYTES + NACK_ITEM_BYTES * count, packet'.byte i = packet.byte i) ∧
      get16 packet' (RTCP_HEADER_SIZE_BYTES + NACK_ITEM_BYTES * count) = pid ∧
      get16 packet' (RTCP_HEADER_SIZE_BYTES + NACK_ITEM_BYTES * count + 2) = blp := by
  have hroom : RTCP_HEADER_SIZE_BYTES + NACK_ITEM_BYTES * count + (be16 pid ++ be16 blp).length ≤
      UDP_PACKET_MAX_BYTES := by
    simp only [MAX_NACK_ITEM_NUM, RTCP_HEADER_SIZE_BYTES, NACK_ITEM_BYTES, UDP_PACKET_MAX_BYTES,
      be16, List.length_append, List.length_cons, List.length_nil] at h ⊢
    omega
  obtain ⟨packet', hw, hwritten⟩ := write_some packet _ _ hroom
  refine ⟨packet', hw, hwritten.length, fun i hi => hwritten.outside i (.inl hi), ?_, ?_⟩
  · exact (hwritten.get16 (j := 0) (by simp [be16])).trans (of16_be16 pid)
  · exact (hwritten.get16 (j := 2) (by simp [be16])).trans (of16_be16 blp)

theorem packItems_spec (packet : TESTTPPacket) (count : Nat) (l : List UInt16)
    (h : count < MAX_NACK_ITEM_NUM) : ∃ packet',
      packItems packet count l = some (packet',
        count + min (items l).length (MAX_NACK_ITEM_NUM - count),
        members ((items l).drop (MAX_NACK_ITEM_NUM - count))) ∧
      packet'.length = packet.length ∧
      (∀ i < RTCP_HEADER_SIZE_BYTES + NACK_ITEM_BYTES * count, packet'.byte i = packet.byte i) ∧
      Holds packet' count (items l) := by
  induction hn : l.length using Nat.strong_induction_on generalizing packet count l with
  | _ n ih =>
    cases l with
    | nil =>
      refine ⟨packet, by simp [packItems, members], rfl, fun i _ => rfl, fun j b hb => ?_⟩
      simp at hb
    | cons pid l =>
      obtain ⟨mid, hw, hlen, hbyte, hpid, hblp⟩ :=
        write_item packet h pid (fillBlp pid 0 l).1
      rw [fillBlp_eq] at hblp
      have hshort : (l.dropWhile (near pid)).length < n := by
        have hdrop := List.length_dropWhile_le (near pid) l
        simp only [List.length_cons] at hn
        omega
      have hcons : items (pid :: l) = (pid, l.takeWhile (near pid)) ::
          items (l.dropWhile (near pid)) := blocks_cons near pid l
      rw [packItems, hw, Option.bind_some, fillBlp_eq, hcons]
      by_cases hlast : count + 1 = MAX_NACK_ITEM_NUM
      · have hone : MAX_NACK_ITEM_NUM - count = 1 := by omega
        refine ⟨mid, ?_, hlen, hbyte, fun j b hb hj => ?_⟩
        · simp [hlast, hone, members_blocks]
        · obtain rfl : j = 0 := by omega
          cases hb
          exact ⟨hpid, hblp⟩
      · obtain ⟨packet', hp, hlen', hbyte', hholds⟩ :=
          ih _ hshort mid (count + 1) (l.dropWhile (near pid)) (by omega) rfl
        have hsub : MAX_NACK_ITEM_NUM - count = MAX_NACK_ITEM_NUM - (count + 1) + 1 := by omega
        refine ⟨packet', ?_, hlen'.trans hlen, fun i hi => ?_, fun j b hb hj => ?_⟩
        · rw [if_neg hlast, hp, hsub]
          simp only [List.length_cons, List.drop_succ_cons, Nat.add_min_add_right, Option.some.injEq,
            Prod.mk.injEq, true_and, and_true]
          omega
        · have hi' : i < RTCP_HEADER_SIZE_BYTES + NACK_ITEM_BYTES * (count + 1) := by
            rw [Nat.mul_add]
            omega
          rw [hbyte' i hi', hbyte i hi]
        · cases j with
          | zero =>
            cases hb
            rw [Nat.add_zero]
            have hbelow : ∀ i, i < RTCP_HEADER_SIZE_BYTES + NACK_ITEM_BYTES * count + 4 →
                packet'.byte i = mid.byte i := fun i hi => hbyte' i (by
              rw [Nat.mul_add]
              exact hi)
            refine ⟨(get16_congr fun i _ hi => hbelow i (by omega)).trans hpid,
              (get16_congr fun i _ hi => hbelow i (by omega)).trans hblp⟩
          | succ j =>
            have hnext := hholds j b (by simpa using hb) (by omega)
            rwa [Nat.add_right_comm] at hnext

end NackPacket
