import Mathlib.Tactic.Common

/-!
# Packet buffers

A buffer is the memory from its first byte on together with the number of
bytes in use; only the bytes below its capacity belong to it. A write that
would leave the buffer fails. A read logs the offsets it touches, and sees
whatever the memory holds there.
-/

namespace ByteBuffer

/-- The two bytes of a 16-bit number in network order. -/
def be16 (v : UInt16) : List UInt8 := [(v / 256).toUInt8, v.toUInt8]

/-- The four bytes of a 32-bit number in network order. -/
def be32 (v : UInt32) : List UInt8 :=
  [(v / 16777216).toUInt8, (v / 65536).toUInt8, (v / 256).toUInt8, v.toUInt8]

/-- The four bytes of a 32-bit number, least significant byte first. -/
def le32 (v : UInt32) : List UInt8 :=
  [v.toUInt8, (v / 256).toUInt8, (v / 65536).toUInt8, (v / 16777216).toUInt8]

@[simp] theorem length_be16 (v : UInt16) : (be16 v).length = 2 := rfl

@[simp] theorem length_be32 (v : UInt32) : (be32 v).length = 4 := rfl

def of16 (a b : UInt8) : UInt16 := a.toUInt16 * 256 + b.toUInt16

def of32 (a b c d : UInt8) : UInt32 :=
  a.toUInt32 * 16777216 + b.toUInt32 * 65536 + c.toUInt32 * 256 + d.toUInt32

structure Buffer (capacity : Nat) where
  byte : Nat → UInt8
  length : Nat

variable {capacity : Nat}

/-- Store the bytes from offset `at` on. -/
def write (b : Buffer capacity) (off : Nat) (bytes : List UInt8) : Option (Buffer capacity) :=
  if off + bytes.length ≤ capacity then
    some { b with byte := fun i =>
      if off ≤ i ∧ i < off + bytes.length then bytes.getD (i - off) 0 else b.byte i }
  else none

def get16 (b : Buffer capacity) (off : Nat) : UInt16 := of16 (b.byte off) (b.byte (off + 1))

def get32 (b : Buffer capacity) (off : Nat) : UInt32 :=
  of32 (b.byte off) (b.byte (off + 1)) (b.byte (off + 2)) (b.byte (off + 3))

/-- A host-order number, least significant byte first. -/
def getHost32 (b : Buffer capacity) (off : Nat) : UInt32 :=
  of32 (b.byte (off + 3)) (b.byte (off + 2)) (b.byte (off + 1)) (b.byte off)

theorem of16_be16 (v : UInt16) : of16 (v / 256).toUInt8 v.toUInt8 = v := by
  have hv := v.toNat_lt
  rw [← UInt16.toNat_inj]
  simp only [of16, UInt16.toNat_add, UInt16.toNat_mul, UInt8.toNat_toUInt16, UInt16.toNat_toUInt8,
    UInt16.toNat_div, UInt16.reduceToNat]
  omega

theorem of32_be32 (v : UInt32) :
    of32 (v / 16777216).toUInt8 (v / 65536).toUInt8 (v / 256).toUInt8 v.toUInt8 = v := by
  have hv := v.toNat_lt
  rw [← UInt32.toNat_inj]
  simp only [of32, UInt32.toNat_add, UInt32.toNat_mul, UInt8.toNat_toUInt32, UInt32.toNat_toUInt8,
    UInt32.toNat_div, UInt32.reduceToNat]
  omega

/-! ### Writing -/

/-- The write left its bytes from offset `off` on and changed nothing else. -/
structure Written (b b' : Buffer capacity) (off : Nat) (bytes : List UInt8) : Prop where
  length : b'.length = b.length
  inside : ∀ j < bytes.length, b'.byte (off + j) = bytes.getD j 0
  outside : ∀ i, i < off ∨ off + bytes.length ≤ i → b'.byte i = b.byte i

theorem write_some (b : Buffer capacity) (off : Nat) (bytes : List UInt8)
    (h : off + bytes.length ≤ capacity) :
    ∃ b', write b off bytes = some b' ∧ Written b b' off bytes := by
  refine ⟨_, if_pos h, rfl, fun j hj => ?_, fun i hi => ?_⟩
  · have hin : off ≤ off + j ∧ off + j < off + bytes.length := by omega
    simp only [hin, and_self, if_true, Nat.add_sub_cancel_left]
  · have hout : ¬ (off ≤ i ∧ i < off + bytes.length) := by omega
    simp only [hout, if_false]

theorem written_of_write {b b' : Buffer capacity} {off : Nat} {bytes : List UInt8}
    (h : write b off bytes = some b') : Written b b' off bytes ∧ off + bytes.length ≤ capacity := by
  by_cases hfits : off + bytes.length ≤ capacity
  · obtain ⟨b'', hwrite, hwritten⟩ := write_some b off bytes hfits
    obtain rfl := Option.some.inj (h.symm.trans hwrite)
    exact ⟨hwritten, hfits⟩
  · rw [write, if_neg hfits] at h
    cases h

theorem Written.byte {b b' : Buffer capacity} {off : Nat} {bytes : List UInt8}
    (h : Written b b' off bytes) (i : Nat) : b'.byte i =
      if off ≤ i ∧ i < off + bytes.length then bytes.getD (i - off) 0 else b.byte i := by
  split
  · next hin => rw [← h.inside (i - off) (by omega), Nat.add_sub_cancel' hin.1]
  · next hout => exact h.outside i (by omega)

theorem Written.get16 {b b' : Buffer capacity} {off : Nat} {bytes : List UInt8}
    (h : Written b b' off bytes) {j : Nat} (hj : j + 2 ≤ bytes.length) :
    get16 b' (off + j) = of16 (bytes.getD j 0) (bytes.getD (j + 1) 0) := by
  rw [ByteBuffer.get16, h.inside j (by omega), Nat.add_assoc, h.inside (j + 1) (by omega)]

theorem Written.get32 {b b' : Buffer capacity} {off : Nat} {bytes : List UInt8}
    (h : Written b b' off bytes) {j : Nat} (hj : j + 4 ≤ bytes.length) :
    get32 b' (off + j) = of32 (bytes.getD j 0) (bytes.getD (j + 1) 0) (bytes.getD (j + 2) 0)
      (bytes.getD (j + 3) 0) := by
  simp only [ByteBuffer.get32, Nat.add_assoc]
  rw [h.inside j (by omega), h.inside (j + 1) (by omega), h.inside (j + 2) (by omega),
    h.inside (j + 3) (by omega)]

theorem get16_congr {b b' : Buffer capacity} {off : Nat}
    (h : ∀ i, off ≤ i → i < off + 2 → b'.byte i = b.byte i) : get16 b' off = get16 b off := by
  rw [get16, get16, h off (by omega) (by omega), h (off + 1) (by omega) (by omega)]

theorem get32_congr {b b' : Buffer capacity} {off : Nat}
    (h : ∀ i, off ≤ i → i < off + 4 → b'.byte i = b.byte i) : get32 b' off = get32 b off := by
  rw [get32, get32, h off (by omega) (by omega), h (off + 1) (by omega) (by omega),
    h (off + 2) (by omega) (by omega), h (off + 3) (by omega) (by omega)]

/-! ### Logged reads -/

/-- A value together with the offsets that were read for it. -/
structure Logged (α : Type) where
  value : α
  reads : List Nat

def Logged.bind {α β : Type} (x : Logged α) (f : α → Logged β) : Logged β :=
  ⟨(f x.value).value, x.reads ++ (f x.value).reads⟩

instance : Monad Logged where
  pure a := ⟨a, []⟩
  bind := Logged.bind

section Logged

variable {α β : Type}

@[simp] theorem value_pure (a : α) : (pure a : Logged α).value = a := rfl

@[simp] theorem reads_pure (a : α) : (pure a : Logged α).reads = [] := rfl

@[simp] theorem value_bind (x : Logged α) (f : α → Logged β) :
    (x >>= f).value = (f x.value).value := rfl

@[simp] theorem reads_bind (x : Logged α) (f : α → Logged β) :
    (x >>= f).reads = x.reads ++ (f x.value).reads := rfl

end Logged

def read8 (b : Buffer capacity) (off : Nat) : Logged UInt8 := ⟨b.byte off, [off]⟩

def read16 (b : Buffer capacity) (off : Nat) : Logged UInt16 := ⟨get16 b off, [off, off + 1]⟩

def read32 (b : Buffer capacity) (off : Nat) : Logged UInt32 :=
  ⟨get32 b off, [off, off + 1, off + 2, off + 3]⟩

@[simp] theorem value_read8 (b : Buffer capacity) (off : Nat) :
    (read8 b off).value = b.byte off := rfl

@[simp] theorem reads_read8 (b : Buffer capacity) (off : Nat) :
    (read8 b off).reads = [off] := rfl

@[simp] theorem value_read16 (b : Buffer capacity) (off : Nat) :
    (read16 b off).value = get16 b off := rfl

@[simp] theorem value_read32 (b : Buffer capacity) (off : Nat) :
    (read32 b off).value = get32 b off := rfl

@[simp] theorem reads_read16 (b : Buffer capacity) (off : Nat) :
    (read16 b off).reads = [off, off + 1] := rfl

@[simp] theorem reads_read32 (b : Buffer capacity) (off : Nat) :
    (read32 b off).reads = [off, off + 1, off + 2, off + 3] := rfl

end ByteBuffer
