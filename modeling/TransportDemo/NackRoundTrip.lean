import TransportDemo.NackPacket

/-!
# The NACK codec

What the reader makes of a packet the writer built, and what it reads of a
packet anybody else built. The writer stays inside the buffer; the reader
trusts the length field.
-/

namespace NackRoundTrip

open ByteBuffer HeadBlocks NackPacket

/-! ### The written packet -/

/-- The number of items written. -/
def itemCount (l : List UInt16) : Nat := min (items l).length MAX_NACK_ITEM_NUM

theorem write_header (fresh : TESTTPPacket) : ∃ packet,
    write fresh 0 (be16 TPYE_TRANSPORT_INFO) = some packet ∧ getType packet = TPYE_TRANSPORT_INFO := by
  obtain ⟨packet, hw, hwritten⟩ :=
    write_some fresh 0 (be16 TPYE_TRANSPORT_INFO) (by decide)
  exact ⟨packet, hw, (hwritten.get16 (j := 0) (by decide)).trans (of16_be16 _)⟩

/-- The packet of `packing_nack`: its type, its length and its items. -/
theorem packingNack_spec (fresh : TESTTPPacket) (l : List UInt16) : ∃ packet,
    packingNack fresh l = some packet ∧ getType packet = TPYE_TRANSPORT_INFO ∧
      packet.length = RTCP_HEADER_SIZE_BYTES + NACK_ITEM_BYTES * itemCount l ∧
      (getLength packet).toNat = packet.length ∧ Holds packet 0 (items l) := by
  obtain ⟨first, hfirst, htype⟩ := write_header fresh
  obtain ⟨filled, hfilled, -, hbelow, hholds⟩ :=
    packItems_spec first 0 l (by decide)
  have hle : itemCount l ≤ 347 := min_le_right _ _
  have hcount : 0 + min (items l).length (MAX_NACK_ITEM_NUM - 0) = itemCount l := by
    rw [Nat.zero_add, Nat.sub_zero, itemCount]
  have hlength : (UInt16.ofNat (RTCP_HEADER_SIZE_BYTES + NACK_ITEM_BYTES * itemCount l)).toNat =
      RTCP_HEADER_SIZE_BYTES + NACK_ITEM_BYTES * itemCount l := by
    refine UInt16.toNat_ofNat_of_lt' ?_
    simp only [RTCP_HEADER_SIZE_BYTES, NACK_ITEM_BYTES, UInt16.size]
    omega
  generalize hlen : UInt16.ofNat (RTCP_HEADER_SIZE_BYTES + NACK_ITEM_BYTES * itemCount l) =
    length at hlength
  obtain ⟨last, hlast, hwritten⟩ :=
    write_some filled 4 (be32 length.toUInt32)
      (by simp [be32, UDP_PACKET_MAX_BYTES])
  refine ⟨{ last with length := length.toNat }, ?_, ?_, hlength, ?_, fun j b hb hj => ?_⟩
  · rw [hcount] at hfilled
    simp only [packingNack, hfirst, Option.bind_eq_bind, Option.bind_some, hfilled, hlen, hlast]
  · refine (get16_congr (b := first) fun i _ hi => ?_).trans htype
    rw [hwritten.outside i (.inl (by omega)), hbelow i (by simp [RTCP_HEADER_SIZE_BYTES]; omega)]
  · have hfield := (hwritten.get32 (j := 0) (by simp [be32])).trans (of32_be32 _)
    change (get32 last 4).toNat = length.toNat
    rw [hfield, UInt16.toNat_toUInt32]
  · obtain ⟨hpid, hblp⟩ := hholds j b hb hj
    have hafter : ∀ i, RTCP_HEADER_SIZE_BYTES ≤ i → last.byte i = filled.byte i := fun i hi =>
      hwritten.outside i (.inr hi)
    exact ⟨(get16_congr fun i hi _ => hafter i (by omega)).trans hpid,
      (get16_congr fun i hi _ => hafter i (by omega)).trans hblp⟩

/-! ### Reading it back -/

theorem unpackingBody_value (packet : TESTTPPacket) (acc : List UInt16) (len : UInt32) :
    (unpackingBody packet acc len).value =
      if len.toNat < RTCP_HEADER_SIZE_BYTES then (false, acc)
      else (true, (unpackItems packet (nackItems len) 0 acc).value) := by
  rw [unpackingBody]
  generalize nackItems len = n
  split
  · rfl
  · rfl

theorem unpackingBody_reads (packet : TESTTPPacket) (acc : List UInt16) (len : UInt32) :
    (unpackingBody packet acc len).reads =
      if len.toNat < RTCP_HEADER_SIZE_BYTES then []
      else (unpackItems packet (nackItems len) 0 acc).reads := by
  rw [unpackingBody]
  generalize nackItems len = n
  split
  · rfl
  · rw [reads_bind, reads_pure, List.append_nil]

theorem unpackingNack_value (packet : TESTTPPacket) (acc : List UInt16) :
    (unpackingNack packet acc).value = (unpackingBody packet acc (getLength packet)).value := by
  rw [unpackingNack, value_bind, value_read32, getLength]

theorem unpackingNack_reads (packet : TESTTPPacket) (acc : List UInt16) :
    (unpackingNack packet acc).reads =
      [4, 5, 6, 7] ++ (unpackingBody packet acc (getLength packet)).reads := by
  rw [unpackingNack, reads_bind, value_read32, reads_read32, getLength]

theorem unpackItems_value (packet : TESTTPPacket) (n i : Nat) (acc : List UInt16) :
    (unpackItems packet n i acc).value =
      acc ++ (List.range n).flatMap fun j => (unpackItem packet (i + j)).value := by
  induction n generalizing i acc with
  | zero => simp [unpackItems]
  | succ n ih =>
    rw [unpackItems, value_bind, ih, List.range_succ_eq_map, List.flatMap_cons, List.flatMap_map,
      List.append_assoc]
    simp only [Nat.add_zero, Nat.succ_eq_add_one, Nat.add_assoc, Nat.add_comm 1]

/-- The bytes the item loop reads. -/
theorem unpackItems_reads (packet : TESTTPPacket) (n i : Nat) (acc : List UInt16) (off : Nat) :
    off ∈ (unpackItems packet n i acc).reads ↔
      RTCP_HEADER_SIZE_BYTES + NACK_ITEM_BYTES * i ≤ off ∧
        off < RTCP_HEADER_SIZE_BYTES + NACK_ITEM_BYTES * (i + n) := by
  induction n generalizing i acc with
  | zero =>
    simp only [unpackItems, reads_pure, List.not_mem_nil, false_iff, Nat.add_zero]
    omega
  | succ n ih =>
    simp only [unpackItems, reads_bind, List.mem_append, ih, unpackItem, reads_read16, reads_pure,
      List.mem_cons, List.not_mem_nil, or_false, RTCP_HEADER_SIZE_BYTES, NACK_ITEM_BYTES]
    omega

theorem flatMap_range {α β : Type} {bs : List α} {f : Nat → List β} {g : α → List β} {m : Nat}
    (hm : m ≤ bs.length) (h : ∀ j b, bs[j]? = some b → j < m → f j = g b) :
    (List.range m).flatMap f = (bs.take m).flatMap g := by
  induction m with
  | zero => simp
  | succ m ih =>
    have hprev := ih (by omega) fun j b hb hj => h j b hb (by omega)
    have hlast : f m = g bs[m] := h m _ (List.getElem?_eq_getElem hm) (by omega)
    rw [List.range_succ, List.flatMap_append, hprev, List.take_succ_eq_append_getElem hm,
      List.flatMap_append]
    simp [hlast]

/-- The numbers the reader gets from the packet of `l`. -/
def decoded (l : List UInt16) : List UInt16 := ((items l).take MAX_NACK_ITEM_NUM).flatMap decode

theorem unpacking_packed {packet : TESTTPPacket} {l : List UInt16}
    (hlen : packet.length = RTCP_HEADER_SIZE_BYTES + NACK_ITEM_BYTES * itemCount l)
    (hfield : (getLength packet).toNat = packet.length) (hholds : Holds packet 0 (items l))
    (acc : List UInt16) :
    (unpackingNack packet acc).value = (true, acc ++ decoded l) := by
  have hcount : nackItems (getLength packet) = itemCount l := by
    rw [nackItems, hfield, hlen, Nat.add_sub_cancel_left]
    exact Nat.mul_div_cancel_left _ (by decide)
  have hlong : ¬ (getLength packet).toNat < RTCP_HEADER_SIZE_BYTES := by
    rw [hfield, hlen]
    omega
  have hitems : (List.range (itemCount l)).flatMap (fun j => (unpackItem packet (0 + j)).value) =
      ((items l).take (itemCount l)).flatMap decode := by
    refine flatMap_range (min_le_left _ _) fun j b hb hj => ?_
    have hj' : j < MAX_NACK_ITEM_NUM := lt_of_lt_of_le hj (min_le_right _ _)
    obtain ⟨hpid, hblp⟩ := hholds j b hb (by omega)
    simp only [unpackItem, value_bind, value_read16, value_pure, hpid, hblp, decode]
  have htake : (items l).take (itemCount l) = (items l).take MAX_NACK_ITEM_NUM := by
    rw [itemCount, min_comm, ← List.take_take, List.take_length]
  rw [unpackingNack_value, unpackingBody_value, if_neg hlong, hcount, unpackItems_value, hitems,
    htake, decoded]

theorem mem_decoded (l : List UInt16) (x : UInt16) :
    x ∈ decoded l ↔ x ∈ members ((items l).take MAX_NACK_ITEM_NUM) := by
  simp only [decoded, members, List.mem_flatMap]
  refine exists_congr fun b => and_congr_right fun hb => ?_
  exact mem_decode (reach_of_mem_blocks near (List.mem_of_mem_take hb)) x

theorem decoded_ascending {l : List UInt16}
    (h : (members ((items l).take MAX_NACK_ITEM_NUM)).Pairwise (· < ·)) :
    decoded l = members ((items l).take MAX_NACK_ITEM_NUM) := by
  rw [decoded, members]
  refine List.flatMap_congr fun b hb => decode_ascending ?_ ?_
  · exact reach_of_mem_blocks near (List.mem_of_mem_take hb)
  · refine h.sublist ?_
    rw [members, List.flatMap_def]
    exact List.sublist_flatten_of_mem (List.mem_map_of_mem hb)

/-- The codec loses nothing of what the writer consumes: for every list the writer stays inside
the buffer and consumes a prefix `p`, the header holds the length of the packet, and the reader
accepts the packet and appends the members of `p`, in order when `p` ascends. -/
theorem nack_round_trip (fresh : TESTTPPacket) (v acc : List UInt16) :
    ∃ p rest packet out, v = p ++ rest ∧
      (∃ header q, write fresh 0 (be16 TPYE_TRANSPORT_INFO) = some header ∧
        packItems header 0 v = some (q, min (items v).length MAX_NACK_ITEM_NUM, rest)) ∧
      packingNack fresh v = some packet ∧ (getLength packet).toNat = packet.length ∧
      (unpackingNack packet acc).value = (true, acc ++ out) ∧ (∀ x, x ∈ out ↔ x ∈ p) ∧
      (p.Pairwise (· < ·) → out = p) ∧
      ((items v).length ≤ MAX_NACK_ITEM_NUM → rest = [] ∧ p = v) := by
  obtain ⟨packet, hpack, -, hlen, hfield, hholds⟩ := packingNack_spec fresh v
  obtain ⟨header, hheader, -⟩ := write_header fresh
  obtain ⟨q, hq, -⟩ := packItems_spec header 0 v (by decide)
  refine ⟨members ((items v).take MAX_NACK_ITEM_NUM), members ((items v).drop MAX_NACK_ITEM_NUM),
    packet, decoded v, (members_take near _ v).symm, ⟨header, q, hheader, ?_⟩, hpack, hfield,
    unpacking_packed hlen hfield hholds acc, mem_decoded v, decoded_ascending, fun hfew => ?_⟩
  · rw [hq, Nat.zero_add, Nat.sub_zero]
  · rw [List.drop_eq_nil_of_le hfew, List.take_of_length_le hfew]
    exact ⟨rfl, members_blocks near v⟩

/-! ### Any datagram -/

/-- The reader stays inside the `r` bytes received, accepts exactly a length of at least one item
and at most `r`, and leaves the vector alone when it refuses. -/
def Guarded (r : Nat) (packet : TESTTPPacket) (acc : List UInt16) : Prop :=
  (∀ off ∈ (unpackingNack packet acc).reads, off < r) ∧
    ((unpackingNack packet acc).value.1 = true ↔
      RTCP_HEADER_SIZE_BYTES + NACK_ITEM_BYTES ≤ (getLength packet).toNat ∧
        (getLength packet).toNat ≤ r) ∧
    ((unpackingNack packet acc).value.1 = false → (unpackingNack packet acc).value.2 = acc)

theorem unpacking_accepts (packet : TESTTPPacket) (acc : List UInt16) :
    (unpackingNack packet acc).value.1 = true ↔
      RTCP_HEADER_SIZE_BYTES ≤ (getLength packet).toNat := by
  rw [unpackingNack_value, unpackingBody_value]
  split
  case isTrue h => simpa using h
  case isFalse h => simpa using h

theorem unpacking_refuses (packet : TESTTPPacket) (acc : List UInt16)
    (h : (unpackingNack packet acc).value.1 = false) :
    (unpackingNack packet acc).value.2 = acc := by
  rw [unpackingNack_value, unpackingBody_value] at h ⊢
  split at h
  case isTrue hshort => rw [if_pos hshort]
  case isFalse => cases h

/-- The reader reads the length field and, when it accepts, as many items as the field claims. -/
theorem unpacking_reads (packet : TESTTPPacket) (acc : List UInt16) (off : Nat) :
    off ∈ (unpackingNack packet acc).reads ↔ (4 ≤ off ∧ off < 8) ∨
      RTCP_HEADER_SIZE_BYTES ≤ (getLength packet).toNat ∧ RTCP_HEADER_SIZE_BYTES ≤ off ∧
        off < RTCP_HEADER_SIZE_BYTES + NACK_ITEM_BYTES * nackItems (getLength packet) := by
  rw [unpackingNack_reads, unpackingBody_reads, List.mem_append]
  refine or_congr ?_ ?_
  · simp only [List.mem_cons, List.not_mem_nil, or_false]
    omega
  · split
    · simp only [List.not_mem_nil, false_iff]
      omega
    · simp only [unpackItems_reads, Nat.zero_add, Nat.mul_zero, Nat.add_zero]
      omega

/-- The reader behaves exactly on datagrams that hold the header and whose length field is below
the header, or covers at least one item and stays within the bytes received. -/
theorem guarded_iff (r : Nat) (packet : TESTTPPacket) (acc : List UInt16) :
    Guarded r packet acc ↔ RTCP_HEADER_SIZE_BYTES ≤ r ∧
      ((getLength packet).toNat < RTCP_HEADER_SIZE_BYTES ∨
        RTCP_HEADER_SIZE_BYTES + NACK_ITEM_BYTES ≤ (getLength packet).toNat ∧
          (getLength packet).toNat ≤ r) := by
  simp only [Guarded, unpacking_accepts, unpacking_reads, nackItems, RTCP_HEADER_SIZE_BYTES,
    NACK_ITEM_BYTES]
  constructor
  · rintro ⟨hreads, haccept, -⟩
    have hheader := hreads 7 (.inl (by omega))
    refine ⟨hheader, ?_⟩
    by_cases hshort : (getLength packet).toNat < 8
    · exact .inl hshort
    · exact .inr (haccept.mp (not_lt.mp hshort))
  · rintro ⟨hr, hlen⟩
    refine ⟨fun off hoff => ?_, ?_, unpacking_refuses packet acc⟩
    · omega
    · omega

/-- A datagram of eight bytes that claims to be eight bytes long is accepted without an item. -/
theorem empty_nack_accepted :
    ¬ ∀ r, r ≤ UDP_PACKET_MAX_BYTES → ∀ packet acc, Guarded r packet acc := by
  intro h
  obtain ⟨-, haccept, -⟩ := h 8 (by decide) ⟨fun i => if i = 7 then 8 else 0, 8⟩ []
  exact absurd (haccept.mp (by decide)).1 (by decide)

end NackRoundTrip
