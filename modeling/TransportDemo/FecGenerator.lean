import TransportDemo.FecCode

/-!
# `FECGenerator`: grouping packets for the erasure code

`Encode` passes source packets through and appends the redundant packets of a
group when its last source packet arrives; `Decode` passes source packets
through and recovers the missing ones when enough packets of the current group
are there. An access outside an array is undefined behaviour in the source and
`none` here. The callback's calls are collected in a list.
-/

namespace FecGenerator

open CountedLoop FecField FecMatrix FecCode

/-- `kMaxN`, the length of all the arrays indexed by a packet. -/
def kMaxN : Nat := 128

/-- `MAX_FEC_PACKET_SIZE`, the size of each buffer. -/
def maxFecPacketSize : Nat := 1300

/-- Conversion to `int16_t`. -/
def int16 (x : Int) : Int := x.bmod 65536

structure FECGenerator where
  fec : FecParms
  fecK : Int
  fecN : Int
  packetSize : Int
  lastPacketSize : Int
  packetCount : Int
  rawPacketCount : Int
  inputData : Nat → Nat → Gf
  outputData : Nat → Nat → Gf
  usedMarks : Nat → Bool
  lastGroupId : UInt32

/-- One call of the callback; `data` are the `size` bytes the pointer leads to. -/
structure Callback where
  groupId : UInt64
  k : Int
  n : Int
  index : Int
  data : List Gf
  deriving DecidableEq

/-- The fields of a received `TESTFECHeader` that `Decode` reads, in host order. -/
structure TESTFECHeader where
  length : UInt32
  fecK : UInt16
  fecN : UInt16
  fecIndex : UInt16
  fecGroupId : UInt32
  lastPacketSize : UInt16
  deriving DecidableEq, Repr

/-- The first `size` bytes of a buffer. -/
def bytes (buf : Nat → Gf) (size : Nat) : List Gf := (List.range size).map buf

/-- A received payload as a buffer. -/
def buffer (data : List Gf) (b : Nat) : Gf := data.getD b 0

/-- The constructor; the buffers come from `new` with whatever they contain, and
`assert(fec)` stops the program when the parameters are invalid. -/
def new (input output : Nat → Nat → Gf) (k n : Nat) (packetSize : Int) : Option FECGenerator :=
  (fecNew k n).map fun fec =>
    { fec, fecK := int16 k, fecN := int16 n, packetSize := int16 packetSize
      lastPacketSize := int16 packetSize, packetCount := 0, rawPacketCount := 0
      inputData := input, outputData := output, usedMarks := fun _ => false, lastGroupId := 0 }

/-- `Clear`. -/
def clear (g : FECGenerator) : FECGenerator :=
  { g with packetCount := 0, rawPacketCount := 0, usedMarks := fun _ => false }

/-! ## Encoding -/

/-- The size that `fec_encode` and `fec_decode` get must fit the buffers. -/
def sizeFits (packetSize : Int) : Bool := 0 ≤ packetSize ∧ packetSize ≤ maxFecPacketSize

/-- A source packet is stored, copied to the output and handed on. -/
def encodeSource (g : FECGenerator) (data : List Gf) : Option (FECGenerator × List Callback) :=
  if 0 ≤ g.packetCount ∧ g.packetCount < kMaxN ∧ data.length ≤ maxFecPacketSize then
    let i := g.packetCount.toNat
    let inputData := store g.inputData i (copyBytes (g.inputData i) (buffer data) data.length)
    let outputData := store g.outputData i
      (fecEncode g.fec inputData (g.outputData i) i data.length)
    some ({ g with
      inputData, outputData
      packetCount := int16 (g.packetCount + 1), rawPacketCount := int16 (g.rawPacketCount + 1) },
      [⟨g.lastGroupId.toUInt64, g.fecK, g.fecN, g.packetCount, bytes (outputData i) data.length⟩])
  else none

/-- One redundant packet. -/
def encodeRedundant (i : Nat) (s : FECGenerator × List Callback) :
    Option (FECGenerator × List Callback) :=
  let g := s.1
  if i < kMaxN ∧ sizeFits g.packetSize then
    let outputData := store g.outputData i
      (fecEncode g.fec g.inputData (g.outputData i) i g.packetSize.toNat)
    some ({ g with outputData, packetCount := int16 (g.packetCount + 1) },
      s.2 ++ [⟨g.lastGroupId.toUInt64, g.fecK, g.fecN, i,
        bytes (outputData i) g.packetSize.toNat⟩])
  else none

def encode (g : FECGenerator) (data : List Gf) : Option (FECGenerator × List Callback) := do
  let (g, out) ← if g.packetCount < g.fecK then encodeSource g data else some (g, [])
  if g.packetCount < g.fecK then return (g, out)
  let k := g.fecK.toNat
  let (g, out) ← loopOption (g.fecN.toNat - k) (fun i => encodeRedundant (k + i)) (g, out)
  return (clear { g with lastGroupId := g.lastGroupId + 1 }, out)

/-! ## Decoding -/

/-- A packet seen for the first time goes to its buffer; a source packet is handed on. -/
def arrive (g : FECGenerator) (header : TESTFECHeader) (data : List Gf) :
    Option (FECGenerator × List Callback) :=
  let index := header.fecIndex.toNat
  if kMaxN ≤ index then none
  else if g.usedMarks index = false then
    let length := header.length.toNat
    if length ≤ maxFecPacketSize ∧ length ≤ data.length then
      let g := { g with
        inputData := store g.inputData index (copyBytes (g.inputData index) (buffer data) length)
        usedMarks := store g.usedMarks index true
        packetCount := int16 (g.packetCount + 1) }
      if (index : Int) < g.fecK then
        some ({ g with rawPacketCount := int16 (g.rawPacketCount + 1) },
          [⟨g.lastGroupId.toUInt64, int16 header.fecK.toNat, int16 header.fecN.toNat, int16 index,
            data.take length⟩])
      else some (g, [])
    else none
  else some (g, [])

/-- The local arrays of the recovery; a buffer is named by its position in `input_data`. -/
structure Placement where
  tempMarks : Nat → Bool
  recovery : Nat → Option Nat
  recoveryIndex : Nat → Nat

/-- The source packets that arrived take their own places. -/
def placeSources (k : Nat) (usedMarks : Nat → Bool) : Placement :=
  loop k (fun i s =>
    if s.tempMarks i then
      { s with recovery := store s.recovery i (some i), recoveryIndex := store s.recoveryIndex i i }
    else s) ⟨usedMarks, fun _ => none, fun _ => 0⟩

/-- The inner loop that looks for a marked packet, from `j` on for `fuel` positions. -/
def findRedundant (tempMarks : Nat → Bool) : Nat → Nat → Option (Option Nat)
  | 0, _ => some none
  | fuel + 1, j =>
    if kMaxN ≤ j then none
    else if tempMarks j then some (some j)
    else findRedundant tempMarks fuel (j + 1)

/-- Each source place still empty takes the first redundant packet still unused. -/
def placeRedundant (k n : Nat) (s : Placement) : Option Placement :=
  loopOption k (fun i s =>
    if s.tempMarks i then some s
    else
      match findRedundant s.tempMarks (n - k) k with
      | none => none
      | some none => some s
      | some (some j) =>
        some ⟨store (store s.tempMarks j false) i true, store s.recovery i (some j),
          store s.recoveryIndex i j⟩) s

/-- The test before the decoding: some place is still empty. -/
def incomplete (k : Nat) (s : Placement) : Bool :=
  (List.range k).any fun i => s.recovery i = none ∨ s.tempMarks i = false

/-- The callbacks after `fec_decode`, one for each place not held by its own packet. -/
def deliver (k : Nat) (d : Decoded) (g : FECGenerator) : FECGenerator × List Callback :=
  loop k (fun i s =>
    if d.index i = i then s
    else
      ({ s.1 with
          rawPacketCount := int16 (s.1.rawPacketCount + 1)
          packetCount := int16 (s.1.packetCount + 1) },
        s.2 ++ [⟨g.lastGroupId.toUInt64, g.fecK, g.fecN, i,
          bytes (d.mem (d.pkt i)) g.packetSize.toNat⟩]))
    ({ g with inputData := d.mem }, [])

/-- The second half of `Decode`: recover the missing source packets when possible. -/
def recover (g : FECGenerator) : Option (FECGenerator × List Callback) :=
  if g.packetCount < g.fecK then some (g, [])
  else if g.rawPacketCount = g.fecK then some (g, [])
  else if kMaxN < g.fecK then none
  else do
    let k := g.fecK.toNat
    let s ← placeRedundant k g.fecN.toNat (placeSources k g.usedMarks)
    if incomplete k s then return (g, [])
    -- only a recovered packet reads and writes `packet_size` bytes
    if (List.range k).any (fun i => k ≤ s.recoveryIndex i) ∧ ¬ sizeFits g.packetSize then none
    let d := fecDecode g.fec g.inputData (fun i => (s.recovery i).getD 0) s.recoveryIndex
      g.packetSize.toNat
    return deliver k d g

/-- A packet of another group makes `Decode` forget the current one. -/
def enterGroup (g : FECGenerator) (header : TESTFECHeader) : FECGenerator :=
  let g := { g with lastPacketSize := int16 header.lastPacketSize.toNat }
  if header.fecGroupId ≠ g.lastGroupId then
    { clear g with lastGroupId := header.fecGroupId }
  else g

def decode (g : FECGenerator) (header : TESTFECHeader) (data : List Gf) :
    Option (FECGenerator × List Callback) := do
  let (g, arrived) ← arrive (enterGroup g header) header data
  let (g, recovered) ← recover g
  return (g, arrived ++ recovered)

/-! ## Runs -/

/-- A received FEC datagram: its header and the bytes from the payload on. -/
structure Datagram where
  header : TESTFECHeader
  data : List Gf
  deriving DecidableEq

/-- Successive calls of `Encode`. -/
def encodeAll (g : FECGenerator) : List (List Gf) → Option (FECGenerator × List Callback)
  | [] => some (g, [])
  | data :: rest => do
    let (g, out) ← encode g data
    let (g, out') ← encodeAll g rest
    return (g, out ++ out')

/-- Successive calls of `Decode`. -/
def decodeAll (g : FECGenerator) : List Datagram → Option (FECGenerator × List Callback)
  | [] => some (g, [])
  | x :: rest => do
    let (g, out) ← decode g x.header x.data
    let (g, out') ← decodeAll g rest
    return (g, out ++ out')

/-- The datagram that carries a packet of the encoder to the decoder. -/
structure Carries (x : Datagram) (c : Callback) : Prop where
  group : x.header.fecGroupId.toUInt64 = c.groupId
  index : (x.header.fecIndex.toNat : Int) = c.index
  length : x.header.length.toNat = c.data.length
  data : c.data <+: x.data

end FecGenerator
