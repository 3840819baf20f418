import Mathlib.Data.LawfulXor.Basic
import TransportDemo.FlexfecMask

/-!
# The FlexFEC encoder

`EncodeFec` takes a block of media packets and a mask for each FEC packet to
be made. An FEC packet holds the exclusive or of the headers, lengths and
payloads of the packets whose bit is set, behind a header that tells the
number of the first packet of the block and the mask.
-/

namespace FlexfecEncoder

open ByteBuffer FlexfecPacket FlexfecMask

def parseSequenceNumber (packet : Packet) : UInt16 := readBigEndian16 packet.data 2

def parseSsrc (packet : Packet) : UInt32 := readBigEndian32 packet.data 8

/-- What `GenerateFecPayloads` does for a media packet that the FEC packet protects. -/
def protect (fecHeaderSize : Nat) (fec media : Packet) : Packet :=
  let mediaPayloadLength := media.length - kRtpHeaderSize
  let expanded := { fec with length := max fec.length (fecHeaderSize + mediaPayloadLength) }
  if fec.length = 0 then
    let data := store fec.data 0 [media.data 0, media.data 1]
    let data := store data 2 (be16 (UInt16.ofNat mediaPayloadLength))
    let data := store data 4 [media.data 4, media.data 5, media.data 6, media.data 7]
    { expanded with
      data := store data fecHeaderSize
        ((List.range mediaPayloadLength).map fun i => media.data (kRtpHeaderSize + i)) }
  else xorPayloads media mediaPayloadLength fecHeaderSize (xorHeaders media expanded)

/-- The loop over the block, at bit `mediaPktIdx` of byte `pktMaskIdx` of the mask. -/
def generateLoop (mask : List UInt8) (fecHeaderSize : Nat) :
    Nat → Nat → Packet → List Packet → Packet
  | _, _, fec, [] => fec
  | pktMaskIdx, mediaPktIdx, fec, media :: rest =>
    let fec := if maskBit (mask.getD pktMaskIdx 0) mediaPktIdx then protect fecHeaderSize fec media
      else fec
    match rest with
    | [] => fec
    | next :: _ =>
      let idx := mediaPktIdx + (parseSequenceNumber next - parseSequenceNumber media).toNat
      generateLoop mask fecHeaderSize (pktMaskIdx + idx / 8) (idx % 8) fec rest

def finalizeFecHeader (mediaSsrc : UInt32) (seqNumBase : UInt16) (mask : List UInt8)
    (fec : Packet) : Packet :=
  let data := store fec.data 0 [(fec.data 0 &&& 0x7f) &&& 0xbf]
  let data := store data 8 [1]
  let data := store data 9 [0, 0, 0]
  let data := store data 12 (be32 mediaSsrc)
  let data := store data 16 (be16 seqNumBase)
  { fec with data := writePacketMask mask data }

/-- The FEC packet that `EncodeFec` makes for one row of the mask. -/
def encodeFec (mask : List UInt8) : List Packet → Packet
  | [] => ⟨0, fun _ => 0⟩
  | front :: rest =>
    finalizeFecHeader (parseSsrc front) (parseSequenceNumber front) mask
      (generateLoop mask (flexfecHeaderSize (minPacketMaskSize mask)) 0 0 ⟨0, fun _ => 0⟩
        (front :: rest))

/-! ### Protecting, byte by byte -/

/-- Bytes 2 and 3 of a packet's recovery fields are its length, the others those of its header. -/
def headerByte (media : Packet) (i : Nat) : UInt8 :=
  if i = 2 ∨ i = 3 then (be16 (UInt16.ofNat media.length - 12)).getD (i - 2) 0 else media.data i

/-- What a protected packet adds to byte `i` of the FEC packet. -/
def contribution (fecHeaderSize : Nat) (media : Packet) (i : Nat) : UInt8 :=
  if i < 8 then headerByte media i
  else if fecHeaderSize ≤ i then media.data (kRtpHeaderSize + (i - fecHeaderSize))
  else 0

/-- The bytes behind the length are zero. -/
def Packet.Clean (p : Packet) : Prop := ∀ i, p.length ≤ i → p.data i = 0

def xorAll (l : List UInt8) : UInt8 := l.foldl (· ^^^ ·) 0

theorem xorHeaders_data (src dst : Packet) (i : Nat) :
    (xorHeaders src dst).data i = if i < 8 then dst.data i ^^^ headerByte src i else dst.data i := by
  simp only [xorHeaders, headerByte]
  split
  · next h => rw [if_pos (show i < 8 by omega)]
  · rfl

theorem protect_data {fecHeaderSize : Nat} (hsize : 8 ≤ fecHeaderSize) {fec media : Packet}
    (hfec : fec.length = 0 → ∀ i, fec.data i = 0) (hmedia : Packet.Clean media)
    (hlen : kRtpHeaderSize ≤ media.length) (i : Nat) :
    (protect fecHeaderSize fec media).data i =
      fec.data i ^^^ contribution fecHeaderSize media i := by
  have htail (j : Nat) (hj : media.length - kRtpHeaderSize ≤ j) :
      media.data (kRtpHeaderSize + j) = 0 := hmedia _ (by omega)
  by_cases hfirst : fec.length = 0
  · have hzero := hfec hfirst
    rw [hzero, UInt8.zero_xor]
    by_cases hi : i < 8
    · have hlength : UInt16.ofNat (media.length - kRtpHeaderSize) =
          UInt16.ofNat media.length - 12 := UInt16.ofNat_sub hlen
      simp only [protect, if_pos hfirst, contribution, if_pos hi, hlength]
      rw [store_outside _ (by omega)]
      interval_cases i <;> rfl
    · simp only [protect, if_pos hfirst, contribution, if_neg hi]
      have hrest (d : Nat → UInt8) : store (store (store d 0 [media.data 0, media.data 1]) 2
          (be16 (UInt16.ofNat (media.length - kRtpHeaderSize)))) 4
          [media.data 4, media.data 5, media.data 6, media.data 7] i = d i := by
        rw [store_outside _ (by simp; omega), store_outside _ (by simp [be16]; omega),
          store_outside _ (by simp; omega)]
      by_cases hin : fecHeaderSize ≤ i
      · rw [if_pos hin]
        by_cases hpay : i < fecHeaderSize + (media.length - kRtpHeaderSize)
        · rw [store, if_pos (by simpa using ⟨hin, hpay⟩), List.getD_eq_getElem?_getD,
            List.getElem?_map, List.getElem?_range (by omega)]
          rfl
        · rw [store_outside _ (by simp; omega), hrest, hzero, htail _ (by omega)]
      · rw [if_neg hin, store_outside _ (by omega), hrest, hzero]
  · simp only [protect, if_neg hfirst, xorPayloads, xorHeaders_data, contribution]
    by_cases hi : i < 8
    · rw [if_neg (by omega), if_pos hi, if_pos hi]
    · rw [if_neg hi, if_neg hi]
      by_cases hin : fecHeaderSize ≤ i
      · rw [if_pos hin]
        by_cases hpay : i < fecHeaderSize + (media.length - kRtpHeaderSize)
        · rw [if_pos ⟨hin, hpay⟩]
        · rw [if_neg (fun h => hpay h.2), htail _ (by omega), UInt8.xor_zero]
      · rw [if_neg (fun h => hin h.1), if_neg hin, UInt8.xor_zero]

theorem protect_length (fecHeaderSize : Nat) (fec media : Packet) :
    (protect fecHeaderSize fec media).length =
      max fec.length (fecHeaderSize + (media.length - kRtpHeaderSize)) := by
  rw [protect]
  split <;> rfl

section Fold

variable {fecHeaderSize : Nat} {media : List Packet}

theorem foldl_protect_data (hsize : 8 ≤ fecHeaderSize)
    (hmedia : ∀ m ∈ media, Packet.Clean m ∧ kRtpHeaderSize ≤ m.length) {fec : Packet}
    (hfec : fec.length = 0 → ∀ i, fec.data i = 0) (i : Nat) :
    (media.foldl (protect fecHeaderSize) fec).data i =
      (media.map (contribution fecHeaderSize · i)).foldl (· ^^^ ·) (fec.data i) := by
  induction media generalizing fec with
  | nil => rfl
  | cons m rest ih =>
    obtain ⟨⟨hclean, hlen⟩, hrest⟩ := List.forall_mem_cons.mp hmedia
    have hlength := protect_length fecHeaderSize fec m
    rw [List.foldl_cons, ih hrest fun h => by omega, List.map_cons, List.foldl_cons,
      protect_data hsize hfec hclean hlen]

theorem le_foldl_protect_length (fecHeaderSize : Nat) (media : List Packet) (fec : Packet) :
    fec.length ≤ (media.foldl (protect fecHeaderSize) fec).length ∧
      ∀ m ∈ media, fecHeaderSize + (m.length - kRtpHeaderSize) ≤
        (media.foldl (protect fecHeaderSize) fec).length := by
  induction media generalizing fec with
  | nil => exact ⟨Nat.le_refl _, fun m hm => absurd hm List.not_mem_nil⟩
  | cons m rest ih =>
    obtain ⟨hfec, hrest⟩ := ih (protect fecHeaderSize fec m)
    rw [protect_length] at hfec
    refine ⟨le_trans (Nat.le_max_left _ _) hfec, ?_⟩
    intro m' hm'
    rcases List.mem_cons.mp hm' with rfl | hm'
    · exact le_trans (Nat.le_max_right _ _) hfec
    · exact hrest m' hm'

theorem foldl_protect_length_le {fec : Packet} {bound : Nat} (hfec : fec.length ≤ bound)
    (hmedia : ∀ m ∈ media, fecHeaderSize + (m.length - kRtpHeaderSize) ≤ bound) :
    (media.foldl (protect fecHeaderSize) fec).length ≤ bound := by
  induction media generalizing fec with
  | nil => exact hfec
  | cons m rest ih =>
    obtain ⟨hm, hrest⟩ := List.forall_mem_cons.mp hmedia
    refine ih ?_ hrest
    rw [protect_length]
    exact max_le hfec hm

end Fold

/-- Bit `o` of a mask. -/
def bitAt (mask : List UInt8) (o : Nat) : Bool := maskBit (mask.getD (o / 8) 0) (o % 8)

/-- How far behind the first packet of the block a number is. -/
def offset (base seqNum : UInt16) : Nat := (seqNum - base).toNat

theorem offset_sub {base a b : UInt16} (h : offset base a < offset base b) :
    offset base a + (b - a).toNat = offset base b := by
  have ha := a.toNat_lt
  have hb := b.toNat_lt
  have hbase := base.toNat_lt
  simp only [offset, UInt16.toNat_sub] at h ⊢
  omega

/-- The loop protects the packets whose bit is set. -/
theorem generateLoop_eq (mask : List UInt8) (fecHeaderSize : Nat) (base : UInt16)
    {block : List Packet}
    (hasc : (block.map fun m => offset base (parseSequenceNumber m)).Pairwise (· < ·))
    {o : Nat} (ho : ∀ m ∈ block.head?, offset base (parseSequenceNumber m) = o) (fec : Packet) :
    generateLoop mask fecHeaderSize (o / 8) (o % 8) fec block =
      (block.filter fun m => bitAt mask (offset base (parseSequenceNumber m))).foldl
        (protect fecHeaderSize) fec := by
  induction block generalizing o fec with
  | nil => rfl
  | cons m rest ih =>
    obtain rfl : offset base (parseSequenceNumber m) = o := ho m rfl
    obtain ⟨hlt, hasc⟩ := List.pairwise_cons.mp hasc
    have hfold (l : List Packet) :
        (if bitAt mask (offset base (parseSequenceNumber m)) then m :: l else l).foldl
          (protect fecHeaderSize) fec = l.foldl (protect fecHeaderSize)
          (if bitAt mask (offset base (parseSequenceNumber m)) then protect fecHeaderSize fec m
            else fec) := by
      split <;> rfl
    rw [List.filter_cons, hfold]
    cases rest with
    | nil => rfl
    | cons next rest =>
      have hnext : offset base (parseSequenceNumber m) +
          (parseSequenceNumber next - parseSequenceNumber m).toNat =
          offset base (parseSequenceNumber next) :=
        offset_sub (hlt _ (List.mem_map_of_mem List.mem_cons_self))
      have hdiv (o d : Nat) : o / 8 + (o % 8 + d) / 8 = (o + d) / 8 ∧
          (o % 8 + d) % 8 = (o + d) % 8 := by omega
      rw [generateLoop, (hdiv _ _).1, (hdiv _ _).2, hnext]
      exact ih hasc (fun n hn => by rw [← Option.some.inj hn]) _

end FlexfecEncoder
