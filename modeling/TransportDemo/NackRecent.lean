import TransportDemo.NackWatch

/-!
# What is outstanding is recent and missing

The list should hold only numbers that were skipped, have not come since, and
are at most 10000 behind. The pruning removes the keys below a threshold, so
above 10000 a key that is not below the newest packet stays: it is a number of
the cycle before. Packets that leave no such key keep the list recent, and no
other packet does.
-/

namespace NackRecent

open OrderedMap NackGen NackWatch StepTrace

/-- Every key is recent and was not received since it was skipped, and so is what a batch asks
for. -/
def Outstanding (w : Watched) : Prop :=
  (∀ s, (w.gen.nackList.find s).isSome →
    1 ≤ age w.gen.lastSeq s ∧ age w.gen.lastSeq s ≤ MaxPacketAge.toNat ∧ w.lost s = true) ∧
  ∀ nowMs, ∀ s ∈ (getNackBatch w.gen nowMs).1, w.lost s = true

/-- A packet past 10000 that does not clear the list finds no key at or above its number. -/
def Prunes (w : Watched) : Call → Prop
  | .receivePacket seq => Advances w.gen seq → ¬ Overflows w.gen seq → MaxPacketAge ≤ seq →
      ∀ s, (w.gen.nackList.find s).isSome → s < seq
  | .getNackBatch _ => True
  | .updateRtt _ => True

/-- The part about batches follows: a batch returns keys only. -/
theorem outstanding_iff {w : Watched} (h : Sane w) :
    Outstanding w ↔ ∀ s, (w.gen.nackList.find s).isSome →
      1 ≤ age w.gen.lastSeq s ∧ age w.gen.lastSeq s ≤ MaxPacketAge.toNat ∧ w.lost s = true := by
  constructor
  · exact fun ho => ho.1
  · intro hk
    refine ⟨hk, fun nowMs s hs => ?_⟩
    obtain ⟨info, hf, -⟩ := (mem_batch h.labelled nowMs s).mp hs
    exact (hk s (by simp [hf])).2.2

theorem start_outstanding : Outstanding start :=
  (outstanding_iff start_sane).mpr fun s h => by simp [start, new] at h

/-- A key that survives the pruning is recent exactly if the threshold wrapped or the key is
below the new number. -/
theorem recent_iff {seq s : UInt16} (hkeep : ¬ s < seq - MaxPacketAge) :
    1 ≤ age seq s ∧ age seq s ≤ MaxPacketAge.toNat ↔ (MaxPacketAge ≤ seq → s < seq) := by
  have hmax : MaxPacketAge.toNat = 10000 := rfl
  have hs := s.toNat_lt
  have hq := seq.toNat_lt
  simp only [age_eq, UInt16.lt_iff_toNat_lt, UInt16.le_iff_toNat_le, UInt16.toNat_sub,
    hmax] at hkeep ⊢
  omega

/-- A number skipped without overflow is recent. -/
theorem skipped_recent {g : NackGenerator} {seq s : UInt16} (hskip : Skips g seq s)
    (hroom : ¬ Overflows g seq) : 1 ≤ age seq s ∧ age seq s ≤ MaxPacketAge.toNat := by
  obtain ⟨hadv, hpos, hlt⟩ := hskip
  have hle := age_le_of_room hadv hroom
  have hmax : MaxPacketAge.toNat = 10000 := rfl
  have hnum : MaxNackPackets = 1000 := rfl
  have hs := s.toNat_lt
  have hq := seq.toNat_lt
  have hl := g.lastSeq.toNat_lt
  simp only [age_eq, hmax, hnum] at hpos hlt hle ⊢
  omega

theorem outstanding_advance {w : Watched} (h : Sane w) (ho : Outstanding w) {seq : UInt16}
    (hadv : Advances w.gen seq) (hroom : ¬ Overflows w.gen seq) :
    Outstanding (watch w (.receivePacket seq)) ↔ Prunes w (.receivePacket seq) := by
  rw [outstanding_iff (h.step _)]
  have hlast : (receivePacket w.gen seq).2.lastSeq = seq := by rw [receive_advance hadv]
  simp only [watch, find_receive_advance hadv hroom, hlast]
  constructor
  · intro hnew _ _ hlarge s hs
    by_contra hge
    have hkeep : ¬ s < seq - MaxPacketAge := by
      have hmax : MaxPacketAge.toNat = 10000 := rfl
      have hq := seq.toNat_lt
      simp only [UInt16.lt_iff_toNat_lt, UInt16.le_iff_toNat_le, UInt16.toNat_sub,
        hmax] at hlarge hge ⊢
      omega
    have hin := hnew s (by
      split
      · rfl
      · simpa [hkeep] using hs)
    exact hge ((recent_iff hkeep).mp ⟨hin.1, hin.2.1⟩ hlarge)
  · intro hprune s hs
    by_cases hskip : Skips w.gen seq s
    · obtain ⟨hone, hmax⟩ := skipped_recent hskip hroom
      exact ⟨hone, hmax, by simp [hskip]⟩
    · simp only [hskip, if_false] at hs ⊢
      by_cases hcut : s < seq - MaxPacketAge
      · simp [hcut] at hs
      simp only [hcut, if_false] at hs
      obtain ⟨hone, hmax⟩ :=
        (recent_iff hcut).mpr fun hlarge => hprune hadv hroom hlarge s hs
      have hne : s ≠ seq := by
        rintro rfl
        simp [age] at hone
      exact ⟨hone, hmax, by simpa [hne] using (ho.1 s hs).2.2⟩

theorem outstanding_stay {w : Watched} (h : Sane w) (ho : Outstanding w) {seq : UInt16}
    (hadv : ¬ Advances w.gen seq) : Outstanding (watch w (.receivePacket seq)) := by
  rw [outstanding_iff (h.step _)]
  intro s hs
  have hskip : ¬ Skips w.gen seq s := fun hsk => hadv hsk.1
  cases hstarted : w.gen.started with
  | false =>
    simp [watch, receive_first seq hstarted, (h.idle hstarted s).1] at hs
  | true =>
    obtain ⟨hlast, -, hfind⟩ := receive_stay hadv hstarted
    simp only [watch, hfind, hlast, hskip, if_false] at hs ⊢
    split at hs
    · cases hs
    case isFalse hother =>
      obtain ⟨hone, hmax, hlost⟩ := ho.1 s hs
      have hne : s ≠ seq := by
        rintro rfl
        have hsame : s = w.gen.lastSeq := by
          by_contra hne
          exact hother ⟨rfl, hne⟩
        rw [hsame] at hone
        simp [age] at hone
      exact ⟨hone, hmax, by simpa [hne] using hlost⟩

theorem outstanding_step {w : Watched} (h : Sane w) (ho : Outstanding w) (c : Call) :
    Outstanding (watch w c) ↔ Prunes w c := by
  cases c with
  | receivePacket seq =>
    by_cases hadv : Advances w.gen seq
    · by_cases hover : Overflows w.gen seq
      · refine iff_of_true ((outstanding_iff (h.step _)).mpr fun s hs => ?_)
          fun _ hroom => absurd hover hroom
        simp [watch, find_receive_overflow hover] at hs
      · exact outstanding_advance h ho hadv hover
    · exact iff_of_true (outstanding_stay h ho hadv) fun ha => absurd ha hadv
  | getNackBatch nowMs =>
    refine iff_of_true ((outstanding_iff (h.step _)).mpr fun s hs => ?_) trivial
    simp only [watch, find_getNackBatch] at hs
    refine ho.1 s ?_
    cases hf : w.gen.nackList.find s with
    | none => simp [hf] at hs
    | some info => rfl
  | updateRtt rtt =>
    exact iff_of_true ((outstanding_iff (h.step _)).mpr ho.1) trivial

/-- In every run only recent, missing packets are outstanding exactly if every packet of the run
prunes the keys of the cycle before. -/
theorem outstanding_recent_iff (calls : List Call) :
    (∀ done, done <+: calls → Outstanding (after done)) ↔
      ∀ done c, done ++ [c] <+: calls → Prunes (after done) c :=
  always_iff start_sane (fun _ c h => h.step c) start_outstanding
    (fun _ c h ho => outstanding_step h ho c) calls

/-! ### A key that stays -/

/-- The list after packet 0 skipped number 65535. -/
def lateKey : Map UInt16 NackInfo := Map.empty.emplace 65535 ⟨65535, 65535, 0, 0⟩

/-- Packets 65534, 0, 1, ..., `n`. -/
def throughZero (n : Nat) : List Call :=
  [.receivePacket 65534, .receivePacket 0] ++
    (List.range n).map fun i => .receivePacket (.ofNat (i + 1))

theorem pruned_lateKey (seq : UInt16) : pruned lateKey seq = lateKey := by
  have hle : ¬ (65535 : UInt16) < seq - MaxPacketAge := by
    have hs := (seq - MaxPacketAge).toNat_lt
    simp only [UInt16.lt_iff_toNat_lt, UInt16.reduceToNat]
    omega
  simp [pruned, lateKey, Map.eraseBelow, Map.emplace, Map.insert, Map.find, Map.empty, lookup,
    insertEntry, hle]

/-- The next packet in order leaves the key where it is. -/
theorem receive_next {g : NackGenerator} (hlist : g.nackList = lateKey)
    (hstarted : g.started = true) {n : Nat} (hn : n < 65535) (hlast : g.lastSeq = .ofNat n) :
    (receivePacket g (.ofNat (n + 1))).2.nackList = lateKey ∧
      (receivePacket g (.ofNat (n + 1))).2.started = true ∧
      (receivePacket g (.ofNat (n + 1))).2.lastSeq = .ofNat (n + 1) := by
  have hnext : UInt16.ofNat (n + 1) = g.lastSeq + 1 := by
    rw [hlast]
    simp [UInt16.ofNat_add]
  have hval : (UInt16.ofNat n).toNat = n := UInt16.toNat_ofNat_of_lt' (by
    simp only [UInt16.size]
    omega)
  have hadv : Advances g (g.lastSeq + 1) := by
    refine ⟨hstarted, ?_, ?_⟩
    · rw [hlast, ne_eq, ← UInt16.toNat_inj]
      simp only [UInt16.toNat_add, UInt16.toNat_one, hval]
      omega
    · simp only [seqLowerThan, MaxValue, hlast, UInt16.lt_iff_toNat_lt, UInt16.toNat_add,
        UInt16.toNat_one, UInt16.reduceToNat, hval, gt_iff_lt]
      simp
      omega
  have hfew : tooMany lateKey (g.lastSeq + 1) (g.lastSeq + 1) = false := by
    rw [tooMany, pruned_lateKey]
    simp [MaxNackPackets, lateKey, Map.emplace, Map.insert, Map.find, Map.empty, lookup,
      insertEntry, Map.size]
  rw [hnext, receive_advance hadv, hlist, addPacketsToNackList, hfew]
  simp [pruned_lateKey, hstarted]

theorem after_throughZero {n : Nat} (hn : n ≤ 65535) :
    (after (throughZero n)).gen.nackList = lateKey ∧ (after (throughZero n)).gen.started = true ∧
      (after (throughZero n)).gen.lastSeq = .ofNat n := by
  induction n with
  | zero =>
    have hfirst : (after [.receivePacket 65534]).gen = ⟨.empty, true, 65534, DefaultRtt⟩ := rfl
    have hnext := run_concat watch start [.receivePacket 65534] (.receivePacket 0)
    have hgen : (after (throughZero 0)).gen =
        (receivePacket (after [.receivePacket 65534]).gen 0).2 := congrArg Watched.gen hnext
    have hgap : (receivePacket ⟨.empty, true, 65534, DefaultRtt⟩ 0).2 = ⟨lateKey, true, 0, _⟩ :=
      receive_gap rfl rfl rfl
    rw [hgen, hfirst, hgap]
    exact ⟨rfl, rfl, rfl⟩
  | succ n ih =>
    obtain ⟨hlist, hstarted, hlast⟩ := ih (by omega)
    have hsplit : throughZero (n + 1) = throughZero n ++ [.receivePacket (.ofNat (n + 1))] := by
      simp [throughZero, List.range_succ]
    rw [hsplit, after, run_concat]
    exact receive_next hlist hstarted (by omega) hlast

/-- Packets 65534, 0, 1, ..., 10000: number 65535 is still outstanding, 10001 behind. -/
theorem old_loss_outstanding :
    ¬ ∀ calls done, done <+: calls → Outstanding (after done) := by
  intro h
  obtain ⟨hlist, -, hlast⟩ := after_throughZero (n := 10000) (by omega)
  have hold := (h _ (throughZero 10000) List.prefix_rfl).1 65535 (by
    rw [hlist]
    rfl)
  rw [hlast] at hold
  exact absurd hold.2.1 (by decide)

end NackRecent
