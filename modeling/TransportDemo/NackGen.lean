import TransportDemo.DoubleRounding
import TransportDemo.OrderedMap

/-!
# The NACK list of the receiver

`NackGenerator` keeps the sequence numbers it has not seen in a map ordered by
the plain 16-bit value. Sequence numbers, time stamps and retry counters are
machine words and wrap. Each operation has one lemma that says what it leaves
at every key.
-/

namespace NackGen

open DoubleRounding OrderedMap

/-! ### Sequence numbers -/

instance seqLinearOrder : LinearOrder UInt16 where
  le_refl _ := UInt16.le_refl _
  le_trans _ _ _ := UInt16.le_trans
  lt_iff_le_not_ge a b := by
    simp only [UInt16.le_iff_toNat_le, UInt16.lt_iff_toNat_lt]
    omega
  le_antisymm _ _ := UInt16.le_antisymm
  le_total := UInt16.le_total
  toDecidableLE := inferInstance
  toDecidableEq := inferInstance
  toDecidableLT := inferInstance

instance seqLawfulBEq : LawfulBEq UInt16 := inferInstance

/-- How far `last` is ahead of `s`, modulo 65536. -/
def age (last s : UInt16) : Nat := (last - s).toNat

theorem age_eq (last s : UInt16) : age last s = (65536 - s.toNat + last.toNat) % 65536 :=
  UInt16.toNat_sub last s

def MaxValue : UInt16 := 65535

def seqLowerThan (lhs rhs : UInt16) : Bool :=
  (decide (rhs > lhs) && decide (rhs.toNat - lhs.toNat ≤ MaxValue.toNat / 2)) ||
    (decide (lhs > rhs) && decide (lhs.toNat - rhs.toNat > MaxValue.toNat / 2))

/-! ### The retry interval

The interval is computed in double precision: every operation is rounded.
-/

def calculateRttLimit2SendNack (tryTimes : Nat) : ℚ :=
  if tryTimes < 3 then double (double (tryTimes * double (2 / 5)) + 1) else 2

/-- `limit_var`: the least interval between two requests for one packet. -/
def limitVar (rtt : UInt32) (retries : UInt8) : UInt64 :=
  .ofNat ⌊double (rtt.toNat / calculateRttLimit2SendNack retries.toNat)⌋₊

/-! ### The generator -/

def MaxPacketAge : UInt16 := 10000
def MaxNackPackets : Nat := 1000
def DefaultRtt : UInt32 := 100
def MaxNackRetries : UInt8 := 20

structure NackInfo where
  seq : UInt16
  sendAtSeq : UInt16
  sentAtMs : UInt64
  retries : UInt8
  deriving DecidableEq

structure NackGenerator where
  nackList : Map UInt16 NackInfo
  started : Bool
  lastSeq : UInt16
  rtt : UInt32

/-- `NackGenerator::NackGenerator`. -/
def new : NackGenerator := ⟨.empty, false, 0, DefaultRtt⟩

def updateRtt (g : NackGenerator) (rtt : UInt32) : NackGenerator := { g with rtt := rtt }

/-- `for (uint16_t seq = seqStart; seq != seqEnd; ++seq)`: an entry that is there stays. -/
def emplaceRange (m : Map UInt16 NackInfo) (seqStart seqEnd : UInt16) : Map UInt16 NackInfo :=
  if h : seqStart = seqEnd then m
  else
    emplaceRange (m.emplace seqStart ⟨seqStart, seqStart, 0, 0⟩) (seqStart + 1) seqEnd
termination_by (seqEnd - seqStart).toNat
decreasing_by
  have hne : seqStart.toNat ≠ seqEnd.toNat := fun hs => h (UInt16.toNat_inj.mp hs)
  have hs := seqStart.toNat_lt
  have he := seqEnd.toNat_lt
  simp only [UInt16.toNat_sub, UInt16.toNat_add, UInt16.toNat_one]
  omega

/-- The list after the old packets are removed. The key looked up is a 16-bit number, so the
difference wraps. -/
def pruned (m : Map UInt16 NackInfo) (seqEnd : UInt16) : Map UInt16 NackInfo :=
  m.eraseBelow (seqEnd - MaxPacketAge)

def tooMany (m : Map UInt16 NackInfo) (seqStart seqEnd : UInt16) : Bool :=
  MaxNackPackets < (pruned m seqEnd).size + (seqEnd - seqStart).toNat

def addPacketsToNackList (m : Map UInt16 NackInfo) (seqStart seqEnd : UInt16) :
    Map UInt16 NackInfo :=
  if tooMany m seqStart seqEnd then .empty
  else emplaceRange (pruned m seqEnd) seqStart seqEnd

/-- `ReceivePacket` of a packet with sequence number `seq`: true for a packet that was asked for. -/
def receivePacket (g : NackGenerator) (seq : UInt16) : Bool × NackGenerator :=
  if !g.started then (false, { g with started := true, lastSeq := seq })
  else if seq = g.lastSeq then (false, g)
  else if seqLowerThan seq g.lastSeq then
    if (g.nackList.find seq).isSome then (true, { g with nackList := g.nackList.erase seq })
    else (false, g)
  else (false, { g with
    nackList := addPacketsToNackList g.nackList (g.lastSeq + 1) seq
    lastSeq := seq })

/-- `nowMs - nackInfo.sentAtMs >= limit_var`. -/
def isDue (rtt : UInt32) (nowMs : UInt64) (nackInfo : NackInfo) : Bool :=
  limitVar rtt nackInfo.retries ≤ nowMs - nackInfo.sentAtMs

/-- The loop body of `GetNackBatch`: what the entry adds to the batch, and what is left of it. -/
def visit (rtt : UInt32) (nowMs : UInt64) (nackInfo : NackInfo) :
    Option UInt16 × Option NackInfo :=
  if isDue rtt nowMs nackInfo then
    (some nackInfo.seq,
      if nackInfo.retries + 1 ≥ MaxNackRetries then none
      else some { nackInfo with retries := nackInfo.retries + 1, sentAtMs := nowMs })
  else (none, some nackInfo)

theorem visit_emits (rtt : UInt32) (nowMs : UInt64) (nackInfo : NackInfo) :
    (visit rtt nowMs nackInfo).1 =
      if isDue rtt nowMs nackInfo then some nackInfo.seq else none := by
  rw [visit]
  split <;> rfl

/-- `GetNackBatch` at the clock reading `nowMs`. -/
def getNackBatch (g : NackGenerator) (nowMs : UInt64) : List UInt16 × NackGenerator :=
  ((g.nackList.walk (visit g.rtt nowMs)).1,
    { g with nackList := (g.nackList.walk (visit g.rtt nowMs)).2 })

/-! ### What the operations leave at a key -/

/-- `s` is one of `seqStart`, ..., `seqEnd - 1`. -/
def InRange (seqStart seqEnd s : UInt16) : Prop := age s seqStart < age seqEnd seqStart

instance (seqStart seqEnd s : UInt16) : Decidable (InRange seqStart seqEnd s) :=
  inferInstanceAs (Decidable (_ < _))

theorem inRange_step {seqStart seqEnd s : UInt16} (h : seqStart ≠ seqEnd) :
    InRange seqStart seqEnd s ↔ s = seqStart ∨ InRange (seqStart + 1) seqEnd s := by
  have hne : seqStart.toNat ≠ seqEnd.toNat := fun hs => h (UInt16.toNat_inj.mp hs)
  have hs := seqStart.toNat_lt
  have he := seqEnd.toNat_lt
  have ht := s.toNat_lt
  rw [← UInt16.toNat_inj]
  simp only [InRange, age_eq, UInt16.toNat_add, UInt16.toNat_one]
  omega

theorem find_emplaceRange (m : Map UInt16 NackInfo) (seqStart seqEnd s : UInt16) :
    (emplaceRange m seqStart seqEnd).find s =
      if InRange seqStart seqEnd s then some ((m.find s).getD ⟨s, s, 0, 0⟩) else m.find s := by
  fun_induction emplaceRange m seqStart seqEnd with
  | case1 m => simp [InRange, age]
  | case2 m seqStart h ih =>
    rw [ih, find_emplace]
    simp only [inRange_step h]
    by_cases hs : s = seqStart
    · simp [hs]
    · simp [hs]

@[simp] theorem emplaceRange_self (m : Map UInt16 NackInfo) (seq : UInt16) :
    emplaceRange m seq seq = m := by
  rw [emplaceRange, dif_pos rfl]

@[simp] theorem emplaceRange_one (m : Map UInt16 NackInfo) (seq : UInt16) :
    emplaceRange m seq (seq + 1) = m.emplace seq ⟨seq, seq, 0, 0⟩ := by
  have hs := seq.toNat_lt
  have hne : seq ≠ seq + 1 := by
    simp only [ne_eq, ← UInt16.toNat_inj, UInt16.toNat_add, UInt16.toNat_one]
    omega
  rw [emplaceRange, dif_neg hne, emplaceRange_self]

theorem find_pruned (m : Map UInt16 NackInfo) (seqEnd s : UInt16) :
    (pruned m seqEnd).find s = if s < seqEnd - MaxPacketAge then none else m.find s :=
  find_eraseBelow m _ s

theorem find_addPackets {m : Map UInt16 NackInfo} {seqStart seqEnd : UInt16}
    (h : tooMany m seqStart seqEnd = false) (s : UInt16) :
    (addPacketsToNackList m seqStart seqEnd).find s =
      if InRange seqStart seqEnd s then some (((pruned m seqEnd).find s).getD ⟨s, s, 0, 0⟩)
      else (pruned m seqEnd).find s := by
  rw [addPacketsToNackList, h, if_neg (by simp), find_emplaceRange]

theorem find_overflow {m : Map UInt16 NackInfo} {seqStart seqEnd : UInt16}
    (h : tooMany m seqStart seqEnd = true) (s : UInt16) :
    (addPacketsToNackList m seqStart seqEnd).find s = none := by
  rw [addPacketsToNackList, h, if_pos rfl, find_empty]

@[simp] theorem getNackBatch_lastSeq (g : NackGenerator) (nowMs : UInt64) :
    (getNackBatch g nowMs).2.lastSeq = g.lastSeq := rfl

@[simp] theorem getNackBatch_started (g : NackGenerator) (nowMs : UInt64) :
    (getNackBatch g nowMs).2.started = g.started := rfl

theorem find_getNackBatch (g : NackGenerator) (nowMs : UInt64) (s : UInt16) :
    (getNackBatch g nowMs).2.nackList.find s =
      (g.nackList.find s).bind fun nackInfo => (visit g.rtt nowMs nackInfo).2 :=
  find_walk g.nackList _ s

end NackGen
