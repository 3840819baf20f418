import TransportDemo.NackGen
import TransportDemo.StepTrace

/-!
# Calls of the generator and the losses they leave

A run of the generator is watched from outside: `owed` counts how often a loss
that nothing has closed yet was returned, `lost` says whether the last thing
that happened to a number was that a packet skipped it. Both are computed from
the calls and their results only; neither is kept by the code.
-/

namespace NackWatch

open OrderedMap NackGen StepTrace

inductive Call where
  | receivePacket (seq : UInt16)
  | getNackBatch (nowMs : UInt64)
  | updateRtt (rtt : UInt32)
  deriving DecidableEq

/-- The packet is the newest so far and not the first: `AddPacketsToNackList` is called. -/
def Advances (g : NackGenerator) (seq : UInt16) : Prop :=
  g.started = true ∧ seq ≠ g.lastSeq ∧ seqLowerThan seq g.lastSeq = false

instance (g : NackGenerator) (seq : UInt16) : Decidable (Advances g seq) :=
  inferInstanceAs (Decidable (_ ∧ _ ∧ _))

/-- The call takes the branch that clears the list. -/
def Overflows (g : NackGenerator) (seq : UInt16) : Prop :=
  Advances g seq ∧ tooMany g.nackList (g.lastSeq + 1) seq = true

instance (g : NackGenerator) (seq : UInt16) : Decidable (Overflows g seq) :=
  inferInstanceAs (Decidable (_ ∧ _))

/-- `s` lies strictly between the last number and the one the packet advances to. -/
def Skips (g : NackGenerator) (seq s : UInt16) : Prop :=
  Advances g seq ∧ 0 < age s g.lastSeq ∧ age s g.lastSeq < age seq g.lastSeq

instance (g : NackGenerator) (seq s : UInt16) : Decidable (Skips g seq s) :=
  inferInstanceAs (Decidable (_ ∧ _ ∧ _))

/-- A generator together with what an observer knows of its losses. -/
structure Watched where
  gen : NackGenerator
  owed : UInt16 → Option Nat
  lost : UInt16 → Bool

/-- One more return; the twentieth closes the loss. -/
def returned (n : Nat) : Option Nat :=
  if n + 1 < MaxNackRetries.toNat then some (n + 1) else none

def watch (w : Watched) : Call → Watched
  | .receivePacket seq =>
    { gen := (receivePacket w.gen seq).2
      owed := fun s =>
        if MaxPacketAge.toNat < age (receivePacket w.gen seq).2.lastSeq s then none
        else if Overflows w.gen seq then none
        else if Skips w.gen seq s then some 0
        else if s = seq then none
        else w.owed s
      lost := fun s =>
        if Skips w.gen seq s then true else if s = seq then false else w.lost s }
  | .getNackBatch nowMs =>
    { gen := (getNackBatch w.gen nowMs).2
      owed := fun s =>
        if s ∈ (getNackBatch w.gen nowMs).1 then (w.owed s).bind returned else w.owed s
      lost := w.lost }
  | .updateRtt rtt => { w with gen := updateRtt w.gen rtt }

def start : Watched := ⟨new, fun _ => none, fun _ => false⟩

/-- The state after the calls, from the constructor on. -/
def after (calls : List Call) : Watched := run watch start calls

/-! ### The branches of `ReceivePacket` -/

theorem receive_advance {g : NackGenerator} {seq : UInt16} (h : Advances g seq) :
    (receivePacket g seq).2 =
      { g with
        nackList := addPacketsToNackList g.nackList (g.lastSeq + 1) seq
        lastSeq := seq } := by
  obtain ⟨hstarted, hne, hlower⟩ := h
  simp [receivePacket, hstarted, hne, hlower]

/-- A packet that does not advance erases at most its own number. -/
theorem receive_stay {g : NackGenerator} {seq : UInt16} (h : ¬ Advances g seq)
    (hs : g.started = true) :
    (receivePacket g seq).2.lastSeq = g.lastSeq ∧ (receivePacket g seq).2.started = true ∧
      ∀ s, (receivePacket g seq).2.nackList.find s =
        if s = seq ∧ seq ≠ g.lastSeq then none else g.nackList.find s := by
  by_cases hlast : seq = g.lastSeq
  · simp [receivePacket, hs, hlast]
  have hlower : seqLowerThan seq g.lastSeq = true := by
    by_contra hl
    exact h ⟨hs, hlast, by simpa using hl⟩
  cases hfind : g.nackList.find seq with
  | none =>
    refine ⟨by simp [receivePacket, hs, hlast, hlower, hfind],
      by simp [receivePacket, hs, hlast, hlower, hfind], fun s => ?_⟩
    simp only [receivePacket, hs, hlast, hlower, hfind]
    by_cases heq : s = seq
    · simp [heq, hfind]
    · simp [heq]
  | some info =>
    refine ⟨by simp [receivePacket, hs, hlast, hlower, hfind],
      by simp [receivePacket, hs, hlast, hlower, hfind], fun s => ?_⟩
    simp [receivePacket, hs, hlast, hlower, hfind, find_erase]

theorem receive_first {g : NackGenerator} (seq : UInt16) (h : g.started = false) :
    (receivePacket g seq).2 = { g with started := true, lastSeq := seq } := by
  simp [receivePacket, h]

/-- An advance is by at most half of the number space. -/
theorem Advances.age_le {g : NackGenerator} {seq : UInt16} (h : Advances g seq) :
    0 < age seq g.lastSeq ∧ age seq g.lastSeq ≤ 32768 := by
  obtain ⟨-, hne, hlower⟩ := h
  have hne' : seq.toNat ≠ g.lastSeq.toNat := fun hs => hne (UInt16.toNat_inj.mp hs)
  have hs := seq.toNat_lt
  have hl := g.lastSeq.toNat_lt
  have hmax : MaxValue.toNat / 2 = 32767 := rfl
  simp only [seqLowerThan, hmax, gt_iff_lt, UInt16.lt_iff_toNat_lt, Bool.or_eq_false_iff,
    Bool.and_eq_false_iff, decide_eq_false_iff_not] at hlower
  rw [age_eq]
  omega

theorem skips_iff {g : NackGenerator} {seq : UInt16} (h : Advances g seq) (s : UInt16) :
    Skips g seq s ↔ InRange (g.lastSeq + 1) seq s := by
  have hpos := h.age_le.1
  have hs := s.toNat_lt
  have hq := seq.toNat_lt
  have hl := g.lastSeq.toNat_lt
  simp only [Skips, h, true_and, InRange, age_eq, UInt16.toNat_add, UInt16.toNat_one] at hpos ⊢
  omega

theorem few_of_room {g : NackGenerator} {seq : UInt16} (h : Advances g seq)
    (hroom : ¬ Overflows g seq) : tooMany g.nackList (g.lastSeq + 1) seq = false := by
  by_contra hmany
  exact hroom ⟨h, by simpa using hmany⟩

/-- What an advance without overflow leaves at a key. -/
theorem find_receive_advance {g : NackGenerator} {seq : UInt16} (h : Advances g seq)
    (hroom : ¬ Overflows g seq) (s : UInt16) :
    (receivePacket g seq).2.nackList.find s =
      if Skips g seq s then some (((pruned g.nackList seq).find s).getD ⟨s, s, 0, 0⟩)
      else if s < seq - MaxPacketAge then none else g.nackList.find s := by
  simp only [receive_advance h, find_addPackets (few_of_room h hroom), skips_iff h, find_pruned]

theorem find_receive_overflow {g : NackGenerator} {seq : UInt16} (h : Overflows g seq)
    (s : UInt16) : (receivePacket g seq).2.nackList.find s = none := by
  simp only [receive_advance h.1, find_overflow h.2]

/-- Without overflow fewer than 1000 numbers are skipped. -/
theorem age_le_of_room {g : NackGenerator} {seq : UInt16} (h : Advances g seq)
    (hroom : ¬ Overflows g seq) : age seq g.lastSeq ≤ MaxNackPackets + 1 := by
  have hfew := few_of_room h hroom
  have hpos := h.age_le.1
  have hq := seq.toNat_lt
  have hl := g.lastSeq.toNat_lt
  simp only [tooMany, decide_eq_false_iff_not, not_lt, UInt16.toNat_sub, UInt16.toNat_add,
    UInt16.toNat_one] at hfew
  rw [age_eq] at hpos ⊢
  omega

/-- A packet two ahead of an empty list leaves the number in between. -/
theorem receive_gap {g : NackGenerator} (hlist : g.nackList = .empty) (hs : g.started = true)
    {seq : UInt16} (hseq : seq = g.lastSeq + 1 + 1) :
    (receivePacket g seq).2 =
      { g with
        nackList := Map.empty.emplace (g.lastSeq + 1) ⟨g.lastSeq + 1, g.lastSeq + 1, 0, 0⟩
        lastSeq := seq } := by
  have hl := g.lastSeq.toNat_lt
  have hval : seq.toNat = (g.lastSeq.toNat + 2) % 65536 := by
    rw [hseq]
    simp only [UInt16.toNat_add, UInt16.toNat_one]
    omega
  have hadv : Advances g seq := by
    refine ⟨hs, fun heq => ?_, ?_⟩
    · rw [heq] at hval
      omega
    · simp only [seqLowerThan, show MaxValue.toNat / 2 = 32767 from rfl, gt_iff_lt,
        UInt16.lt_iff_toNat_lt, hval, Bool.or_eq_false_iff, Bool.and_eq_false_iff,
        decide_eq_false_iff_not]
      omega
  have hone : (g.lastSeq + 1 + 1 - (g.lastSeq + 1)).toNat = 1 := by
    simp only [UInt16.toNat_sub, UInt16.toNat_add, UInt16.toNat_one]
    omega
  have hpruned : pruned (Map.empty : Map UInt16 NackInfo) seq = .empty := rfl
  have hfew : tooMany Map.empty (g.lastSeq + 1) seq = false := by
    rw [tooMany, hpruned, hseq, hone]
    decide
  rw [receive_advance hadv, hlist, addPacketsToNackList, hfew, hpruned, hseq]
  simp

/-! ### What holds in every run -/

/-- The bookkeeping that every call keeps, whatever the numbers are. -/
structure Sane (w : Watched) : Prop where
  labelled : ∀ s info, w.gen.nackList.find s = some info → info.seq = s
  idle : w.gen.started = false → ∀ s, w.gen.nackList.find s = none ∧ w.owed s = none
  young : ∀ s, (w.owed s).isSome → age w.gen.lastSeq s ≤ MaxPacketAge.toNat

theorem start_sane : Sane start where
  labelled s info h := by simp [start, new] at h
  idle _ s := by simp [start, new]
  young s h := by simp [start] at h

theorem Sane.receive {w : Watched} (h : Sane w) (seq : UInt16) :
    Sane (watch w (.receivePacket seq)) where
  labelled s info hf := by
    simp only [watch] at hf
    by_cases hadv : Advances w.gen seq
    · by_cases hover : Overflows w.gen seq
      · simp [find_receive_overflow hover] at hf
      · rw [find_receive_advance hadv hover] at hf
        split at hf
        · cases hp : (pruned w.gen.nackList seq).find s with
          | none =>
            rw [hp] at hf
            cases hf
            rfl
          | some old =>
            rw [hp] at hf
            rw [find_pruned] at hp
            split at hp
            · cases hp
            · cases hf
              exact h.labelled s old hp
        · split at hf
          · cases hf
          · exact h.labelled s info hf
    · cases hs : w.gen.started with
      | false =>
        rw [receive_first seq hs] at hf
        exact h.labelled s info hf
      | true =>
        rw [(receive_stay hadv hs).2.2] at hf
        split at hf
        · cases hf
        · exact h.labelled s info hf
  idle hs := by
    simp only [watch] at hs
    by_cases hadv : Advances w.gen seq
    · rw [receive_advance hadv] at hs
      exact absurd hadv.1 (by simp [show w.gen.started = false from hs])
    · cases hst : w.gen.started with
      | false => simp [receive_first seq hst] at hs
      | true => simp [(receive_stay hadv hst).2.1] at hs
  young s ho := by
    simp only [watch] at ho ⊢
    split at ho
    · simp at ho
    · omega

theorem mem_batch {g : NackGenerator}
    (h : ∀ s info, g.nackList.find s = some info → info.seq = s) (nowMs : UInt64) (s : UInt16) :
    s ∈ (getNackBatch g nowMs).1 ↔
      ∃ info, g.nackList.find s = some info ∧ isDue g.rtt nowMs info = true := by
  simp only [NackGen.getNackBatch, mem_walk_emits]
  constructor
  · rintro ⟨k, info, hf, hv⟩
    have hk := h k info hf
    by_cases hdue : isDue g.rtt nowMs info = true
    · simp only [visit, hdue, if_true, Option.some.injEq] at hv
      exact ⟨info, by rw [← hv, hk, hf], hdue⟩
    · simp [visit, hdue] at hv
  · rintro ⟨info, hf, hdue⟩
    exact ⟨s, info, hf, by simp [visit, hdue, h s info hf]⟩

theorem visit_seq {rtt : UInt32} {nowMs : UInt64} {info kept : NackInfo}
    (h : (visit rtt nowMs info).2 = some kept) : kept.seq = info.seq := by
  simp only [visit] at h
  split at h
  · split at h
    · cases h
    · cases h
      rfl
  · cases h
    rfl

theorem returned_isSome {n : Nat} : (returned n).isSome ↔ n + 1 < MaxNackRetries.toNat := by
  rw [returned]
  split <;> simp_all

theorem Sane.batch {w : Watched} (h : Sane w) (nowMs : UInt64) :
    Sane (watch w (.getNackBatch nowMs)) where
  labelled s info hf := by
    simp only [watch, find_getNackBatch] at hf
    obtain ⟨old, hold, hv⟩ := Option.bind_eq_some_iff.mp hf
    rw [visit_seq hv, h.labelled s old hold]
  idle hs s := by
    obtain ⟨hf, ho⟩ := h.idle hs s
    simp [watch, find_getNackBatch, hf, ho]
  young s ho := by
    simp only [watch] at ho ⊢
    refine h.young s ?_
    split at ho
    · cases hold : w.owed s with
      | none => simp [hold] at ho
      | some n => rfl
    · exact ho

theorem Sane.step {w : Watched} (h : Sane w) (c : Call) : Sane (watch w c) := by
  cases c with
  | receivePacket seq => exact h.receive seq
  | getNackBatch nowMs => exact h.batch nowMs
  | updateRtt rtt => exact ⟨h.labelled, h.idle, h.young⟩

theorem after_sane (calls : List Call) : Sane (after calls) :=
  run_inv start_sane (fun _ c h => h.step c) calls

end NackWatch
