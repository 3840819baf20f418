import Mathlib.Data.List.Sort

/-!
# The FlexFEC decoder

`ForwardErrorCorrection` keeps the media packets it knows and the FEC packets
it may still use, both in the order of their 16-bit numbers, and recovers a
media packet whenever an FEC packet protects just one unknown packet. What is
stored of a packet, and how an FEC packet is read and combined, is a parameter
here; `webrtc` and `webrtc85` are two instances of it.
-/

namespace FlexfecDecoder

/-- `IsNewer<uint16_t>`; the first comparison is between promoted integers. -/
def isNewerSequenceNumber (value prevValue : UInt16) : Bool :=
  if (value.toNat : Int) - prevValue.toNat = 0x8000 then prevValue < value
  else value != prevValue && value - prevValue < 0x8000

def minDiff (a b : UInt16) : UInt16 := min (b - a) (a - b)

/-- `SortablePacket::LessThan`. -/
def lessThan (first second : UInt16) : Bool := isNewerSequenceNumber second first

theorem isNewerSequenceNumber_iff (value prevValue : UInt16) :
    isNewerSequenceNumber value prevValue = true ↔
      (value - prevValue).toNat = 0x8000 ∧ prevValue.toNat < value.toNat ∨
        0 < (value - prevValue).toNat ∧ (value - prevValue).toNat < 0x8000 := by
  have hv := value.toNat_lt
  have hp := prevValue.toNat_lt
  rw [isNewerSequenceNumber]
  split
  · rw [decide_eq_true_iff, UInt16.lt_iff_toNat_lt, UInt16.toNat_sub]
    omega
  · rw [Bool.and_eq_true, bne_iff_ne, ne_eq, ← UInt16.toNat_inj, decide_eq_true_iff,
      UInt16.lt_iff_toNat_lt, UInt16.toNat_sub]
    have hhalf : (0x8000 : UInt16).toNat = 0x8000 := rfl
    omega

/-- Two numbers neither of which is newer are equal. -/
theorem lessThan_total {a b : UInt16} (hab : lessThan a b = false) (hba : lessThan b a = false) :
    a = b := by
  have ha := a.toNat_lt
  have hb := b.toNat_lt
  have hab' := mt (isNewerSequenceNumber_iff b a).mpr (Bool.eq_false_iff.mp hab)
  have hba' := mt (isNewerSequenceNumber_iff a b).mpr (Bool.eq_false_iff.mp hba)
  rw [UInt16.toNat_sub] at hab' hba'
  rw [← UInt16.toNat_inj]
  omega

/-- `std::list::sort` by `LessThan` of a number. `LessThan` is no strict weak ordering, so all
that is relied on is that the sort rearranges the list by comparisons only. -/
structure ListSort where
  sort : {α : Type} → (α → UInt16) → List α → List α
  perm : ∀ {α : Type} (key : α → UInt16) (l : List α), (sort key l).Perm l
  natural : ∀ {α β : Type} (f : α → β) (key : β → UInt16) (l : List α),
    sort key (l.map f) = (sort (fun a => key (f a)) l).map f

/-- Insertion, stable as `std::list::sort` is. -/
def insertionListSort : ListSort where
  sort key := List.insertionSort fun a b => ¬ lessThan (key b) (key a)
  perm _ l := List.perm_insertionSort _ l
  natural f key l := (List.map_insertionSort _ (fun a b => ¬ lessThan (key b) (key a)) f l
    fun _ _ _ _ => Iff.rfl).symm

/-- `std::lower_bound` on the numbers, from `first` over `len` of them, at most `fuel` of them. -/
def lowerBoundLoop (nums : List UInt16) (value : UInt16) : Nat → Nat → Nat → Nat
  | 0, first, _ => first
  | fuel + 1, first, len =>
    if len = 0 then first
    else if lessThan (nums.getD (first + len / 2) 0) value then
      lowerBoundLoop nums value fuel (first + len / 2 + 1) (len - len / 2 - 1)
    else lowerBoundLoop nums value fuel first (len / 2)

def lowerBound (nums : List UInt16) (value : UInt16) : Nat :=
  lowerBoundLoop nums value nums.length 0 nums.length

structure ReceivedPacket (P : Type) where
  ssrc : UInt32
  seqNum : UInt16
  isFec : Bool
  pkt : P

structure RecoveredPacket (P : Type) where
  ssrc : UInt32
  seqNum : UInt16
  returned : Bool
  pkt : P

/-- A packet that an FEC packet protects, with its data once it is known. -/
structure ProtectedPacket (P : Type) where
  seqNum : UInt16
  pkt : Option P

/-- `header` is what `ReadFecHeader` found, with the raw data. -/
structure ReceivedFecPacket (P Q : Type) where
  ssrc : UInt32
  seqNum : UInt16
  protectedPackets : List (ProtectedPacket P)
  header : Q

/-- What the two builds do differently. -/
structure ErasureCode (P Q : Type) where
  protectedMediaSsrc : UInt32
  /-- `is_fec` is tested before the purge and before the reset. -/
  checksIsFec : Bool
  readFecHeader : P → Option Q
  protectedSsrc : Q → UInt32
  /-- The numbers whose bit is set in the packet mask, in its order, if the mask lies inside the
  packet. -/
  maskSeqNums : Q → Option (List UInt16)
  recoverPacket : Q → List (ProtectedPacket P) → Option (RecoveredPacket P)
  list : ListSort

/-- `recovered_packets` and `received_fec_packets_`. -/
structure State (P Q : Type) where
  recoveredPackets : List (RecoveredPacket P)
  receivedFecPackets : List (ReceivedFecPacket P Q)

def kMaxMediaPackets : Nat := 48

def kMaxFecPackets : Nat := kMaxMediaPackets

section Code

variable {P Q : Type} (c : ErasureCode P Q)

/-- What `UpdateCoveringFecPackets` does to one FEC packet. -/
def ReceivedFecPacket.cover (f : ReceivedFecPacket P Q) (packet : RecoveredPacket P) :
    ReceivedFecPacket P Q :=
  let it := lowerBound (f.protectedPackets.map (·.seqNum)) packet.seqNum
  match f.protectedPackets[it]? with
  | none => f
  | some p =>
    if p.seqNum = packet.seqNum then
      { f with protectedPackets := f.protectedPackets.set it { p with pkt := some packet.pkt } }
    else f

def updateCoveringFecPackets (packet : RecoveredPacket P)
    (fecs : List (ReceivedFecPacket P Q)) : List (ReceivedFecPacket P Q) :=
  fecs.map (·.cover packet)

/-- The intersection of two sorted lists. The inner skip is the loop's `++it_r`. -/
def assignRecoveredPackets :
    List (ProtectedPacket P) → List (RecoveredPacket P) → List (ProtectedPacket P)
  | [], _ => []
  | p :: ps, rs =>
    match rs.dropWhile fun r => !lessThan p.seqNum r.seqNum && lessThan r.seqNum p.seqNum with
    | [] => p :: ps
    | r :: rs =>
      if lessThan p.seqNum r.seqNum then p :: assignRecoveredPackets ps (r :: rs)
      else { p with pkt := some r.pkt } :: assignRecoveredPackets ps rs

def discardOldRecoveredPackets (recovered : List (RecoveredPacket P)) :
    List (RecoveredPacket P) :=
  recovered.drop (recovered.length - kMaxMediaPackets)

def insertMediaPacket (s : State P Q) (p : ReceivedPacket P) : State P Q :=
  if s.recoveredPackets.any (·.seqNum == p.seqNum) then s
  else
    let packet := ⟨p.ssrc, p.seqNum, true, p.pkt⟩
    { recoveredPackets := c.list.sort (·.seqNum) (s.recoveredPackets ++ [packet])
      receivedFecPackets := updateCoveringFecPackets packet s.receivedFecPackets }

/-- The end of `InsertFecPacket`. -/
def storeFecPacket (fecs : List (ReceivedFecPacket P Q)) (fec : ReceivedFecPacket P Q) :
    List (ReceivedFecPacket P Q) :=
  let fecs := c.list.sort (·.seqNum) (fecs ++ [fec])
  if kMaxFecPackets < fecs.length then fecs.tail else fecs

def insertFecPacket (s : State P Q) (p : ReceivedPacket P) : State P Q :=
  if s.receivedFecPackets.any (·.seqNum == p.seqNum) then s
  else
    match c.readFecHeader p.pkt with
    | none => s
    | some header =>
      if c.protectedSsrc header ≠ c.protectedMediaSsrc then s
      else
        match c.maskSeqNums header with
        | none => s
        | some nums =>
          if nums = [] then s
          else
            let slots := assignRecoveredPackets (nums.map fun n => ⟨n, none⟩) s.recoveredPackets
            { s with
              receivedFecPackets :=
                storeFecPacket c s.receivedFecPackets ⟨p.ssrc, p.seqNum, slots, header⟩ }

/-- The test before the purge: the packet and the front FEC packet share their numbers. -/
def comparesWithFront (s : State P Q) (p : ReceivedPacket P) : Bool :=
  s.receivedFecPackets.head?.any fun front =>
    p.ssrc == front.ssrc && (!c.checksIsFec || p.isFec)

/-- The start of `InsertPacket`: FEC packets at the front whose number is too far away go. -/
def discardOldFecPackets (s : State P Q) (p : ReceivedPacket P) : State P Q :=
  if comparesWithFront c s p then
    { s with
      receivedFecPackets :=
        s.receivedFecPackets.dropWhile fun f => 0x3fff < minDiff p.seqNum f.seqNum }
  else s

def insertPacket (s : State P Q) (p : ReceivedPacket P) : State P Q :=
  let s := discardOldFecPackets c s p
  let s := if p.isFec then insertFecPacket c s p else insertMediaPacket c s p
  { s with recoveredPackets := discardOldRecoveredPackets s.recoveredPackets }

/-- The count stops at 2. -/
def numCoveredPacketsMissing (slots : List (ProtectedPacket P)) : Nat :=
  min 2 (slots.countP (·.pkt.isNone))

/-- `AttemptRecovery` from the front up to the first recovery: the FEC packets it leaves in front
of that, and the recovered packet with the FEC packets behind the one it came from. -/
def recoveryPass : List (ReceivedFecPacket P Q) →
    List (ReceivedFecPacket P Q) × Option (RecoveredPacket P × List (ReceivedFecPacket P Q))
  | [] => ([], none)
  | f :: rest =>
    match numCoveredPacketsMissing f.protectedPackets with
    | 0 => recoveryPass rest
    | 1 =>
      match c.recoverPacket f.header f.protectedPackets with
      | none => recoveryPass rest
      | some packet => ([], some (packet, rest))
    | _ => (f :: (recoveryPass rest).1, (recoveryPass rest).2)

/-- `AttemptRecovery`, which starts from the front again after each recovery, `fuel` times. -/
def attemptRecoveryLoop : Nat → State P Q → State P Q
  | 0, s => s
  | fuel + 1, s =>
    match recoveryPass c s.receivedFecPackets with
    | (kept, none) => { s with receivedFecPackets := kept }
    | (kept, some (packet, rest)) =>
      attemptRecoveryLoop fuel
        { recoveredPackets := discardOldRecoveredPackets
            (c.list.sort (·.seqNum) (s.recoveredPackets ++ [packet]))
          receivedFecPackets := updateCoveringFecPackets packet (kept ++ rest) }

/-- A recovery uses up an FEC packet. -/
def attemptRecovery (s : State P Q) : State P Q :=
  attemptRecoveryLoop c s.receivedFecPackets.length s

/-- The test at the start of `DecodeFec`: a full list, and a big gap after its last packet. -/
def bigGap (s : State P Q) (p : ReceivedPacket P) : Bool :=
  s.recoveredPackets.length == kMaxMediaPackets && s.recoveredPackets.getLast?.any fun back =>
    p.ssrc == back.ssrc && (!c.checksIsFec || !p.isFec) &&
      kMaxMediaPackets < (minDiff p.seqNum back.seqNum).toNat

/-- `ResetState` on a big gap. -/
def resetOnGap (s : State P Q) (p : ReceivedPacket P) : State P Q :=
  if bigGap c s p then ⟨[], []⟩ else s

def decodeFec (s : State P Q) (p : ReceivedPacket P) : State P Q :=
  attemptRecovery c (insertPacket c (resetOnGap c s p) p)

/-- `ProcessReceivedPacket`: what is not returned yet is passed to `OnRecoveredPacket`. -/
def processReceivedPacket (s : State P Q) (p : ReceivedPacket P) : State P Q × List P :=
  let s := decodeFec c s p
  ({ s with recoveredPackets := s.recoveredPackets.map fun r => { r with returned := true } },
    (s.recoveredPackets.filter (!·.returned)).map (·.pkt))

/-! ### The recovery loop -/

variable {c}

theorem recoveryPass_none {fecs kept : List (ReceivedFecPacket P Q)}
    (h : recoveryPass c fecs = (kept, none)) : kept ⊆ fecs := by
  induction fecs generalizing kept with
  | nil =>
    obtain rfl : [] = kept := congrArg Prod.fst h
    exact List.Subset.refl _
  | cons f rest ih =>
    simp only [recoveryPass] at h
    split at h
    · exact List.subset_cons_of_subset f (ih h)
    · split at h
      · exact List.subset_cons_of_subset f (ih h)
      · cases h
    · obtain ⟨rfl, hrest⟩ := Prod.mk.inj h
      exact List.cons_subset_cons f (ih (Prod.ext rfl hrest))

/-- A recovery comes from an FEC packet that lacks one packet and uses it up. -/
theorem recoveryPass_some {fecs kept rest : List (ReceivedFecPacket P Q)}
    {packet : RecoveredPacket P} (h : recoveryPass c fecs = (kept, some (packet, rest))) :
    ∃ f ∈ fecs, numCoveredPacketsMissing f.protectedPackets = 1 ∧
      c.recoverPacket f.header f.protectedPackets = some packet ∧ kept ++ rest ⊆ fecs := by
  induction fecs generalizing kept with
  | nil => cases h
  | cons f fecs ih =>
    have later {kept : List (ReceivedFecPacket P Q)}
        (h : recoveryPass c fecs = (kept, some (packet, rest))) :
        ∃ g ∈ f :: fecs, numCoveredPacketsMissing g.protectedPackets = 1 ∧
          c.recoverPacket g.header g.protectedPackets = some packet ∧ kept ++ rest ⊆ fecs := by
      obtain ⟨g, hg, hm, hpacket, hsub⟩ := ih h
      exact ⟨g, List.mem_cons_of_mem f hg, hm, hpacket, hsub⟩
    simp only [recoveryPass] at h
    split at h
    · obtain ⟨g, hg, hm, hpacket, hsub⟩ := later h
      exact ⟨g, hg, hm, hpacket, List.subset_cons_of_subset f hsub⟩
    · next hm =>
      split at h
      · obtain ⟨g, hg, hm, hpacket, hsub⟩ := later h
        exact ⟨g, hg, hm, hpacket, List.subset_cons_of_subset f hsub⟩
      · next hpacket =>
        obtain ⟨rfl, hsome⟩ := Prod.mk.inj h
        obtain ⟨rfl, rfl⟩ := Prod.mk.inj (Option.some.inj hsome)
        exact ⟨f, List.mem_cons_self, hm, hpacket, List.subset_cons_self f fecs⟩
    · obtain ⟨rfl, hrest⟩ := Prod.mk.inj h
      obtain ⟨g, hg, hm, hpacket, hsub⟩ := later (Prod.ext rfl hrest)
      exact ⟨g, hg, hm, hpacket, List.cons_subset_cons f hsub⟩

end Code

end FlexfecDecoder
