import TransportDemo.FlexfecBlock
import TransportDemo.StepTrace

/-!
# When FEC packets are made

`UlpfecGenerator` keeps the media packets of the frames since the last FEC
packets, and makes FEC packets for them when a frame ends: after so many
frames, or as soon as there are enough packets for the overhead to come out
right. Six packets always are enough.
-/

namespace FlexfecGenerator

open FlexfecPacket FlexfecMaskTable FlexfecMaskColumns FlexfecBlock

/-- That the rate lies between 0 and 255 is asserted. -/
structure FecProtectionParams where
  fecRate : UInt8
  maxFecFrames : Int
  fecMaskType : FecMaskType

/-- In units of 1/256. -/
def kMaxExcessOverhead : Int := 50

def kMinMediaPackets : Nat := 4
def kHighProtectionThreshold : UInt8 := 80
def kUlpfecMaxMediaPackets : Nat := 48
def kRtpMarkerBitMask : UInt8 := 0x80

/-- A packet as `AddRtpPacketAndGenerateFec` gets it. -/
structure Buffered where
  dataBuffer : List UInt8
  payloadLength : Nat
  rtpHeaderLength : Nat

namespace Buffered

variable (p : Buffered)

def marker : Bool := p.dataBuffer.getD 1 0 &&& kRtpMarkerBitMask ≠ 0

/-- The packet that is kept. -/
def packet : Packet := Packet.ofBytes (p.dataBuffer.take (p.payloadLength + p.rtpHeaderLength))

/-- The buffer holds the header and the payload. -/
structure Fits : Prop where
  header : kRtpHeaderSize ≤ p.payloadLength + p.rtpHeaderLength
  length : p.payloadLength + p.rtpHeaderLength ≤ p.dataBuffer.length
  short : p.payloadLength + p.rtpHeaderLength ≤ IP_PACKET_SIZE

end Buffered

structure UlpfecGenerator where
  mediaPackets : List Packet
  generatedFecPackets : List Packet
  numProtectedFrames : Nat
  minNumMediaPackets : Nat
  params : FecProtectionParams
  newParams : FecProtectionParams

namespace UlpfecGenerator

def create : UlpfecGenerator := ⟨[], [], 0, 1, ⟨0, 0, .random⟩, ⟨0, 0, .random⟩⟩

variable (g : UlpfecGenerator)

/-- The parameters take effect with the next packets, the least number of packets at once. -/
def setFecParameters (params : FecProtectionParams) : UlpfecGenerator :=
  { g with
    newParams := params
    minNumMediaPackets :=
      if kHighProtectionThreshold < params.fecRate then kMinMediaPackets else 1 }

def resetState : UlpfecGenerator :=
  { g with mediaPackets := [], generatedFecPackets := [], numProtectedFrames := 0 }

def overhead : Nat :=
  (numFecPackets g.mediaPackets.length g.params.fecRate.toNat <<< 8) / g.mediaPackets.length

def excessOverheadBelowMax : Bool :=
  (g.overhead : Int) - g.params.fecRate.toNat < kMaxExcessOverhead

/-- That the quotient of two such small numbers is less than 2.0 is decided without error. -/
def minimumMediaPacketsReached : Bool :=
  if g.mediaPackets.length < 2 * g.numProtectedFrames then
    g.minNumMediaPackets ≤ g.mediaPackets.length
  else g.minNumMediaPackets + 1 ≤ g.mediaPackets.length

def latchParams : UlpfecGenerator :=
  if g.mediaPackets.isEmpty then { g with params := g.newParams } else g

/-- Packets that there is no room for are left unprotected. -/
def keep (packet : Packet) : UlpfecGenerator :=
  if g.mediaPackets.length < kUlpfecMaxMediaPackets then
    { g with mediaPackets := g.mediaPackets ++ [packet] }
  else g

def completeFrame : UlpfecGenerator := { g with numProtectedFrames := g.numProtectedFrames + 1 }

def due : Bool :=
  (g.numProtectedFrames : Int) = g.params.maxFecFrames ||
    g.excessOverheadBelowMax && g.minimumMediaPacketsReached

def generate : Option (Int × UlpfecGenerator) :=
  (encodeFec g.mediaPackets g.params.fecRate 0 false g.params.fecMaskType).map
    fun (ret, fecPackets) =>
      if fecPackets.isEmpty then (ret, g.resetState)
      else (ret, { g with generatedFecPackets := fecPackets })

/-- What `AddRtpPacketAndGenerateFec` returns; `none` if an assertion fails, a packet does not fit
into the memory for it, or the process ends. -/
def addRtpPacketAndGenerateFec (p : Buffered) : Option (Int × UlpfecGenerator) :=
  if ¬ g.generatedFecPackets.isEmpty then none
  else if g.mediaPackets.length < kUlpfecMaxMediaPackets ∧
      IP_PACKET_SIZE < p.payloadLength + p.rtpHeaderLength then none
  else
    let g := g.latchParams.keep p.packet
    if p.marker then
      if g.completeFrame.due then g.completeFrame.generate else some (0, g.completeFrame)
    else some (0, g)

/-- The FEC packets, which the sender puts into RTP packets before it resets the generator. -/
def getFecPackets : List Packet × UlpfecGenerator := (g.generatedFecPackets, g.resetState)

end UlpfecGenerator

open UlpfecGenerator

inductive Call where
  | setFecParameters (params : FecProtectionParams)
  | addRtpPacketAndGenerateFec (p : Buffered)
  | getFecPackets

def step (g : UlpfecGenerator) : Call → Option UlpfecGenerator
  | .setFecParameters params => some (g.setFecParameters params)
  | .addRtpPacketAndGenerateFec p => (g.addRtpPacketAndGenerateFec p).map Prod.snd
  | .getFecPackets => some g.getFecPackets.2

def run (calls : List Call) : Option UlpfecGenerator := StepTrace.runOption step create calls

/-! ### What is enough -/

variable {g : UlpfecGenerator}

/-- From six packets on the rounding of the number of FEC packets is small enough. -/
theorem excessOverheadBelowMax_of_le (h : 6 ≤ g.mediaPackets.length) :
    g.excessOverheadBelowMax = true := by
  have hover : g.overhead < g.params.fecRate.toNat + 50 := by
    rw [overhead]
    refine (Nat.div_lt_iff_lt_mul (by omega)).mpr ?_
    generalize g.mediaPackets.length = m at *
    generalize g.params.fecRate.toNat = rate
    have hprod : (rate + 50) * m = m * rate + 50 * m := by rw [Nat.add_mul, Nat.mul_comm m]
    simp only [numFecPackets, Nat.shiftRight_eq_div_pow, Nat.shiftLeft_eq]
    split <;> omega
  rw [excessOverheadBelowMax, decide_eq_true_iff, kMaxExcessOverhead]
  omega

theorem minimumMediaPacketsReached_of_le (hmin : g.minNumMediaPackets ≤ 4)
    (h : 5 ≤ g.mediaPackets.length) : g.minimumMediaPacketsReached = true := by
  rw [minimumMediaPacketsReached]
  split
  · exact decide_eq_true (by omega)
  · exact decide_eq_true (by omega)

theorem due_of_le (hmin : g.minNumMediaPackets ≤ 4) (h : 6 ≤ g.mediaPackets.length) :
    g.due = true := by
  rw [due, excessOverheadBelowMax_of_le h, minimumMediaPacketsReached_of_le hmin (by omega)]
  exact Bool.or_true _

/-! ### What holds in every run -/

/-- Between calls. While no FEC packets are there, fewer than `maxFecFrames` frames wait, none of
them for more than five packets. -/
structure Inv (g : UlpfecGenerator) : Prop where
  room : g.mediaPackets.length ≤ kUlpfecMaxMediaPackets
  min_le : g.minNumMediaPackets ≤ kMinMediaPackets
  frames_le : g.generatedFecPackets = [] →
    g.numProtectedFrames ≤ g.mediaPackets.length ∧ g.numProtectedFrames ≤ 5
  frames_lt : g.generatedFecPackets = [] → 0 < g.params.maxFecFrames →
    (g.numProtectedFrames : Int) < g.params.maxFecFrames
  made : g.generatedFecPackets ≠ [] → g.mediaPackets ≠ [] ∧ encodeFec g.mediaPackets
    g.params.fecRate 0 false g.params.fecMaskType = some (0, g.generatedFecPackets)

theorem inv_resetState (hmin : g.minNumMediaPackets ≤ kMinMediaPackets) : Inv g.resetState where
  room := Nat.zero_le _
  min_le := hmin
  frames_le _ := ⟨Nat.le_refl 0, Nat.zero_le 5⟩
  frames_lt _ hmax := hmax
  made hmade := absurd rfl hmade

namespace Inv

theorem start : Inv create where
  room := Nat.zero_le _
  min_le := by decide
  frames_le _ := ⟨Nat.le_refl 0, Nat.zero_le 5⟩
  frames_lt _ h := h
  made h := absurd rfl h

theorem setFecParameters (h : Inv g) (params : FecProtectionParams) :
    Inv (g.setFecParameters params) where
  room := h.room
  min_le := by
    rw [UlpfecGenerator.setFecParameters]
    split
    · exact Nat.le_refl 4
    · exact Nat.le_of_ble_eq_true rfl
  frames_le := h.frames_le
  frames_lt := h.frames_lt
  made := h.made

theorem latchParams (h : Inv g) : Inv g.latchParams := by
  rw [UlpfecGenerator.latchParams]
  split
  · next hempty =>
    have hempty := List.isEmpty_iff.mp hempty
    refine ⟨h.room, h.min_le, h.frames_le, fun hnone hmax => ?_, fun hmade => ?_⟩
    · have hle := (h.frames_le hnone).1
      rw [hempty, List.length_nil] at hle
      exact lt_of_le_of_lt (Int.ofNat_le.mpr hle) hmax
    · exact absurd hempty (h.made hmade).1
  · exact h

end Inv

@[simp] theorem generatedFecPackets_latchParams :
    g.latchParams.generatedFecPackets = g.generatedFecPackets := by
  rw [latchParams]
  split <;> rfl

@[simp] theorem mediaPackets_latchParams : g.latchParams.mediaPackets = g.mediaPackets := by
  rw [latchParams]
  split <;> rfl

@[simp] theorem generatedFecPackets_keep (packet : Packet) :
    (g.keep packet).generatedFecPackets = g.generatedFecPackets := by
  rw [keep]
  split <;> rfl

theorem length_keep (packet : Packet) (h : g.mediaPackets.length ≤ kUlpfecMaxMediaPackets) :
    (g.keep packet).mediaPackets.length = min (g.mediaPackets.length + 1) kUlpfecMaxMediaPackets := by
  rw [keep]
  split
  · rw [List.length_append, List.length_singleton]
    omega
  · omega

/-- Either FEC packets are made or a failure or a rate of 0 leaves none; both end the block. -/
theorem encodeFec_cases {mediaPackets fecPackets : List Packet} {factor : UInt8} {important : Nat}
    {unequal : Bool} {type : FecMaskType} {ret : Int}
    (h : encodeFec mediaPackets factor important unequal type = some (ret, fecPackets)) :
    fecPackets = [] ∨ ret = 0 := by
  simp only [encodeFec] at h
  split at h
  · exact .inl (congrArg Prod.snd (Option.some.inj h)).symm
  split at h
  · exact .inl (congrArg Prod.snd (Option.some.inj h)).symm
  split at h
  · exact .inl (congrArg Prod.snd (Option.some.inj h)).symm
  obtain ⟨⟨bits, masks⟩, -, hresult⟩ := Option.map_eq_some_iff.mp h
  dsimp only at hresult
  split at hresult
  · exact .inl (congrArg Prod.snd hresult).symm
  · exact .inr (congrArg Prod.fst hresult).symm

theorem inv_generate (hroom : g.mediaPackets.length ≤ kUlpfecMaxMediaPackets)
    (hmin : g.minNumMediaPackets ≤ kMinMediaPackets) (hne : g.mediaPackets ≠ []) {ret : Int}
    {g' : UlpfecGenerator} (hgen : g.generate = some (ret, g')) : Inv g' := by
  obtain ⟨⟨ret', fecPackets⟩, hencode, hresult⟩ := Option.map_eq_some_iff.mp hgen
  dsimp only at hresult
  split at hresult
  · obtain rfl := congrArg Prod.snd hresult
    exact inv_resetState hmin
  · next hsome =>
    obtain rfl := congrArg Prod.snd hresult
    have hsome : fecPackets ≠ [] := fun hnil => hsome (List.isEmpty_iff.mpr hnil)
    obtain rfl := (encodeFec_cases hencode).resolve_left hsome
    exact ⟨hroom, hmin, fun hnone => absurd hnone hsome, fun hnone => absurd hnone hsome,
      fun _ => ⟨hne, hencode⟩⟩

theorem add_of_fits {p : Buffered} (hnone : g.generatedFecPackets = [])
    (hshort : ¬ (g.mediaPackets.length < kUlpfecMaxMediaPackets ∧
      IP_PACKET_SIZE < p.payloadLength + p.rtpHeaderLength))
    {kept : UlpfecGenerator} (hkept : kept = g.latchParams.keep p.packet) :
    g.addRtpPacketAndGenerateFec p =
      if p.marker then
        if kept.completeFrame.due then kept.completeFrame.generate else some (0, kept.completeFrame)
      else some (0, kept) := by
  have hassert : ¬ ¬ g.generatedFecPackets.isEmpty = true := by rw [hnone]; decide
  rw [addRtpPacketAndGenerateFec, if_neg hassert, if_neg hshort, ← hkept]

theorem add_guards {p : Buffered} {ret : Int} {g' : UlpfecGenerator}
    (h : g.addRtpPacketAndGenerateFec p = some (ret, g')) :
    g.generatedFecPackets = [] ∧ ¬ (g.mediaPackets.length < kUlpfecMaxMediaPackets ∧
      IP_PACKET_SIZE < p.payloadLength + p.rtpHeaderLength) := by
  rw [addRtpPacketAndGenerateFec] at h
  split at h
  · cases h
  next hnone =>
  split at h
  · cases h
  next hshort => exact ⟨List.isEmpty_iff.mp (Decidable.not_not.mp hnone), hshort⟩

/-- What a call that succeeds does. -/
theorem add_cases {p : Buffered} {ret : Int} {g' : UlpfecGenerator}
    (h : g.addRtpPacketAndGenerateFec p = some (ret, g')) {kept : UlpfecGenerator}
    (hkept : kept = g.latchParams.keep p.packet) :
    g.generatedFecPackets = [] ∧
      (p.marker = false ∧ ret = 0 ∧ g' = kept ∨
        p.marker = true ∧ kept.completeFrame.due = false ∧ ret = 0 ∧ g' = kept.completeFrame ∨
        p.marker = true ∧ kept.completeFrame.generate = some (ret, g')) := by
  obtain ⟨hnone, hshort⟩ := add_guards h
  refine ⟨hnone, ?_⟩
  rw [add_of_fits hnone hshort hkept] at h
  split at h
  · next hmarker =>
    split at h
    · exact .inr (.inr ⟨hmarker, h⟩)
    · next hdue =>
      obtain ⟨rfl, rfl⟩ := Prod.mk.inj (Option.some.inj h)
      exact .inr (.inl ⟨hmarker, Bool.eq_false_of_not_eq_true hdue, rfl, rfl⟩)
  · next hmarker =>
    obtain ⟨rfl, rfl⟩ := Prod.mk.inj (Option.some.inj h)
    exact .inl ⟨Bool.eq_false_of_not_eq_true hmarker, rfl, rfl⟩

/-- Frames that wait hold at most five packets: six are enough. -/
theorem length_of_not_due (hmin : g.minNumMediaPackets ≤ kMinMediaPackets)
    (hdue : g.due = false) : g.mediaPackets.length ≤ 5 := by
  by_contra hmany
  exact absurd (due_of_le hmin (by omega)) (Bool.eq_false_iff.mp hdue)

theorem frames_of_not_due (hdue : g.due = false) :
    (g.numProtectedFrames : Int) ≠ g.params.maxFecFrames := by
  intro hframes
  rw [due, decide_eq_true hframes] at hdue
  cases hdue

section Keep

variable (packet : Packet)

@[simp] theorem numProtectedFrames_keep :
    (g.keep packet).numProtectedFrames = g.numProtectedFrames := by
  rw [keep]
  split <;> rfl

@[simp] theorem minNumMediaPackets_keep :
    (g.keep packet).minNumMediaPackets = g.minNumMediaPackets := by
  rw [keep]
  split <;> rfl

@[simp] theorem params_keep : (g.keep packet).params = g.params := by
  rw [keep]
  split <;> rfl

variable {packet}

theorem Inv.keep (h : Inv g) (hnone : g.generatedFecPackets = []) : Inv (g.keep packet) := by
  have hlength := length_keep packet h.room
  have hframes := h.frames_le hnone
  have hroom := h.room
  rw [kUlpfecMaxMediaPackets] at hlength hroom
  refine ⟨?_, ?_, fun _ => ?_, fun _ hmax => ?_, fun hmade => ?_⟩
  · rw [kUlpfecMaxMediaPackets]
    omega
  · rw [minNumMediaPackets_keep]
    exact h.min_le
  · rw [numProtectedFrames_keep]
    omega
  · rw [numProtectedFrames_keep, params_keep]
    rw [params_keep] at hmax
    exact h.frames_lt hnone hmax
  · exact absurd hnone (by rwa [generatedFecPackets_keep] at hmade)

/-- A frame that ends and is left to wait. -/
theorem Inv.completeFrame (h : Inv g) (hnone : g.generatedFecPackets = [])
    (hdue : (g.keep packet).completeFrame.due = false) : Inv (g.keep packet).completeFrame := by
  have hkeep : Inv (g.keep packet) := h.keep hnone
  have hlength := length_keep packet h.room
  have hframes := h.frames_le hnone
  have hwait := length_of_not_due (g := (g.keep packet).completeFrame) hkeep.min_le hdue
  have hwait : (g.keep packet).mediaPackets.length ≤ 5 := hwait
  have hnext := frames_of_not_due hdue
  simp only [UlpfecGenerator.completeFrame, numProtectedFrames_keep, params_keep] at hnext
  rw [kUlpfecMaxMediaPackets] at hlength
  refine ⟨hkeep.room, hkeep.min_le, fun _ => ?_, fun _ hmax => ?_, fun hmade => ?_⟩
  · simp only [UlpfecGenerator.completeFrame, numProtectedFrames_keep]
    omega
  · simp only [UlpfecGenerator.completeFrame, numProtectedFrames_keep, params_keep] at hmax ⊢
    have hlt := h.frames_lt hnone hmax
    omega
  · exact hkeep.made hmade

theorem keep_ne_nil : (g.keep packet).mediaPackets ≠ [] := by
  rw [UlpfecGenerator.keep]
  split
  · exact List.append_ne_nil_of_right_ne_nil _ (List.cons_ne_nil _ _)
  · next hfull =>
    rintro hnil
    exact hfull (by rw [hnil]; decide)

end Keep

theorem Inv.add {p : Buffered} {ret : Int} {g' : UlpfecGenerator} (h : Inv g)
    (hadd : g.addRtpPacketAndGenerateFec p = some (ret, g')) : Inv g' := by
  obtain ⟨hnone, hcases⟩ := add_cases hadd rfl
  have hlatch := h.latchParams
  have hnone : g.latchParams.generatedFecPackets = [] := by rwa [generatedFecPackets_latchParams]
  rcases hcases with ⟨-, -, rfl⟩ | ⟨-, hdue, -, rfl⟩ | ⟨-, hgen⟩
  · exact hlatch.keep hnone
  · exact hlatch.completeFrame hnone hdue
  · have hkeep : Inv (g.latchParams.keep p.packet) := hlatch.keep hnone
    exact inv_generate (g := (g.latchParams.keep p.packet).completeFrame) hkeep.room hkeep.min_le
      keep_ne_nil hgen

theorem Inv.step (h : Inv g) {c : Call} {g' : UlpfecGenerator} (hstep : step g c = some g') :
    Inv g' := by
  cases c with
  | setFecParameters params =>
    obtain rfl := Option.some.inj hstep
    exact h.setFecParameters params
  | addRtpPacketAndGenerateFec p =>
    obtain ⟨⟨ret, g'⟩, hadd, rfl⟩ := Option.map_eq_some_iff.mp hstep
    exact h.add hadd
  | getFecPackets =>
    obtain rfl := Option.some.inj hstep
    exact inv_resetState h.min_le

theorem inv_run (calls : List Call) (hrun : run calls = some g) : Inv g :=
  StepTrace.runOption_inv Inv.start (fun _ _ _ h hstep => h.step hstep) calls g hrun

/-- A header alone, with the marker bit. -/
def lastOfFrame : Buffered := ⟨[0x80, 0xe0, 0, 1, 0, 0, 0, 0, 0, 0, 0, 1], 0, 12⟩

/-- The loop of `WorkTest`: the FEC packets are fetched after every packet. -/
def poll (g : UlpfecGenerator) : List Buffered → Option (List (List Packet))
  | [] => some []
  | p :: rest =>
    (g.addRtpPacketAndGenerateFec p).bind fun (_, g) =>
      (poll g.getFecPackets.2 rest).map (g.getFecPackets.1 :: ·)

/-- Nothing waits, and nothing but the parameters is left of what was before. -/
structure Idle (params : FecProtectionParams) (g : UlpfecGenerator) : Prop where
  mediaPackets : g.mediaPackets = []
  generatedFecPackets : g.generatedFecPackets = []
  numProtectedFrames : g.numProtectedFrames = 0
  newParams : g.newParams = params
  minNumMediaPackets : g.minNumMediaPackets =
    if kHighProtectionThreshold < params.fecRate then kMinMediaPackets else 1

section Poll

variable {params : FecProtectionParams} {p : Buffered}

/-- One packet alone is enough only for a rate of 0: below 206 the overhead is too high, above
80 there have to be four. -/
theorem not_enough (hlength : g.mediaPackets.length = 1) (hrate : g.params.fecRate ≠ 0)
    (hmin : g.minNumMediaPackets =
      if kHighProtectionThreshold < g.params.fecRate then kMinMediaPackets else 1) :
    (g.excessOverheadBelowMax && g.minimumMediaPacketsReached) = false := by
  have hpos : 0 < g.params.fecRate.toNat :=
    Nat.pos_of_ne_zero fun h => hrate (UInt8.toNat_inj.mp h)
  have hlt := g.params.fecRate.toNat_lt
  by_cases hhigh : kHighProtectionThreshold < g.params.fecRate
  · rw [if_pos hhigh, kMinMediaPackets] at hmin
    have hfew : g.minimumMediaPacketsReached = false := by
      rw [minimumMediaPacketsReached, hlength, hmin]
      split <;> rfl
    rw [hfew, Bool.and_false]
  · have hlow : g.params.fecRate.toNat ≤ 80 := Nat.le_of_not_lt hhigh
    have hover : g.overhead = 256 := by
      rw [overhead, hlength, Nat.div_one, numFecPackets, Nat.shiftRight_eq_div_pow]
      have hnone : (1 * g.params.fecRate.toNat + 1 <<< 7) / 2 ^ 8 = 0 := by
        rw [Nat.div_eq_zero_iff]
        omega
      rw [hnone, if_pos ⟨hpos, rfl⟩]
      rfl
    have hmore : g.excessOverheadBelowMax = false := by
      rw [excessOverheadBelowMax, hover, kMaxExcessOverhead, decide_eq_false_iff_not]
      omega
    rw [hmore, Bool.false_and]

/-- How many FEC packets there are for a packet alone. -/
def alone (params : FecProtectionParams) (p : Buffered) : Nat :=
  if p.marker ∧ params.maxFecFrames = 1 ∧ params.fecRate ≠ 0 then 1 else 0

/-- What `EncodeFec` makes of one packet. -/
theorem encodeFec_singleton (p : Packet) (h : kRtpHeaderSize ≤ p.length) (factor : UInt8)
    (type : FecMaskType) : ∃ fecPackets, encodeFec [p] factor 0 false type = some (0, fecPackets) ∧
      fecPackets.length = if factor = 0 then 0 else 1 := by
  have hfits : ¬ Refused p [] factor := by
    rintro (hmany | ⟨q, hq, hshort⟩ | ⟨-, q, hq, hfar⟩)
    · exact absurd hmany (by decide)
    · obtain rfl := List.mem_singleton.mp hq
      omega
    · obtain rfl := List.mem_singleton.mp hq
      simp [FlexfecEncoder.offset] at hfar
  have haccepted : ∃ fecPackets, encodeFec [p] factor 0 false type = some (0, fecPackets) ∧
      fecPackets.length = numFecPackets 1 factor.toNat :=
    encodeFec_accepted (List.pairwise_singleton _ _) (Nat.zero_le _) hfits
  obtain ⟨fecPackets, hencode, hlength⟩ := haccepted
  refine ⟨fecPackets, hencode, ?_⟩
  rw [hlength]
  split
  · next hzero => exact numFecPackets_eq_zero_iff.mpr hzero
  · next hfactor =>
    have hle := (numFecPackets_le 1 factor).resolve_right Nat.one_ne_zero
    have hpos := mt (numFecPackets_eq_zero_iff (m := 1)).mp hfactor
    exact Nat.le_antisymm hle (Nat.pos_of_ne_zero hpos)

/-- The packet is the only one of its frame, which has ended. -/
structure Lone (params : FecProtectionParams) (packet : Packet) (g : UlpfecGenerator) : Prop where
  mediaPackets : g.mediaPackets = [packet]
  generatedFecPackets : g.generatedFecPackets = []
  numProtectedFrames : g.numProtectedFrames = 1
  params_eq : g.params = params
  idle : Idle params g.resetState

/-- What is fetched when FEC packets were made, or else when the frame is left to wait. -/
theorem Lone.end (h : Lone params p.packet g) (hheader : kRtpHeaderSize ≤ p.packet.length)
    (hmarker : p.marker = true) : ∃ g',
    (if g.due then g.generate else some (0, g)) = some (0, g') ∧ Idle params g'.getFecPackets.2 ∧
      g'.getFecPackets.1.length = alone params p := by
  obtain ⟨fecPackets, hencode, hlength⟩ :=
    encodeFec_singleton p.packet hheader g.params.fecRate g.params.fecMaskType
  rw [h.params_eq] at hlength
  cases hdue : g.due with
  | false =>
    have hframes := frames_of_not_due hdue
    rw [h.numProtectedFrames, h.params_eq] at hframes
    refine ⟨g, rfl, h.idle, ?_⟩
    rw [alone, if_neg fun hframe => hframes hframe.2.1.symm]
    exact congrArg List.length h.generatedFecPackets
  | true =>
    have halone : alone params p = if params.fecRate = 0 then 0 else 1 := by
      by_cases hrate : params.fecRate = 0
      · rw [if_pos hrate, alone, if_neg fun hframe => hframe.2.2 hrate]
      · have hmin := h.idle.minNumMediaPackets
        rw [due, not_enough (congrArg List.length h.mediaPackets) (by rwa [h.params_eq])
          (by rwa [h.params_eq]), Bool.or_false, h.numProtectedFrames, h.params_eq] at hdue
        rw [if_neg hrate, alone, if_pos ⟨hmarker, (of_decide_eq_true hdue).symm, hrate⟩]
    rw [if_pos rfl, halone, generate, h.mediaPackets, hencode, Option.map_some]
    by_cases hempty : fecPackets.isEmpty = true
    · refine ⟨g.resetState, by simp only [hempty, if_true], h.idle, ?_⟩
      rw [← hlength, List.isEmpty_iff.mp hempty]
      rfl
    · refine ⟨{ g with mediaPackets := [p.packet], generatedFecPackets := fecPackets }, ?_, h.idle,
        hlength⟩
      simp only [hempty, Bool.false_eq_true, if_false]

/-- After every packet nothing is left to wait. -/
theorem add_idle (h : Idle params g) (hp : p.Fits) : ∃ g',
    g.addRtpPacketAndGenerateFec p = some (0, g') ∧ Idle params g'.getFecPackets.2 ∧
      g'.getFecPackets.1.length = alone params p := by
  have hkept : { g with params := params, mediaPackets := [p.packet] } =
      g.latchParams.keep p.packet := by
    rw [latchParams, h.mediaPackets, h.newParams]
    rfl
  rw [add_of_fits h.generatedFecPackets (fun hlong => absurd hp.short (by omega)) hkept]
  cases hmarker : p.marker with
  | false =>
    rw [if_neg Bool.false_ne_true, alone, hmarker, if_neg fun hframe => Bool.noConfusion hframe.1]
    exact ⟨_, rfl, ⟨rfl, rfl, rfl, h.newParams, h.minNumMediaPackets⟩,
      congrArg List.length h.generatedFecPackets⟩
  | true =>
    have hlength : p.packet.length = p.payloadLength + p.rtpHeaderLength :=
      List.length_take_of_le hp.length
    rw [if_pos rfl]
    refine Lone.end ⟨rfl, h.generatedFecPackets, congrArg (· + 1) h.numProtectedFrames, rfl, ?_⟩
      (hlength ▸ hp.header) hmarker
    exact ⟨rfl, rfl, rfl, h.newParams, h.minNumMediaPackets⟩

end Poll

end FlexfecGenerator
