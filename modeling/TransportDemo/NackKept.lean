import TransportDemo.NackWatch

/-!
# Losses are kept until something closes them

A loss that nothing has closed has to be in the list. The pruning compares
plain 16-bit values, so a packet numbered below 10000 prunes the young losses
numbered below it; and an entry that outlived a whole cycle of the numbers
brings its old retry counter to the next loss of the same number. Every call
that does neither keeps the losses, and no other does.
-/

namespace NackKept

open OrderedMap NackGen NackWatch StepTrace

/-- Every loss still owed is in the list. -/
def Kept (w : Watched) : Prop :=
  ∀ s, (w.owed s).isSome → (w.gen.nackList.find s).isSome

/-- The call removes no loss that is still owed. -/
def Spares (w : Watched) : Call → Prop
  | .receivePacket seq => Advances w.gen seq → ¬ Overflows w.gen seq → seq < MaxPacketAge →
      ∀ s, (w.owed s).isSome → ¬ s < seq
  | .getNackBatch nowMs => ∀ s n info, w.owed s = some n → w.gen.nackList.find s = some info →
      isDue w.gen.rtt nowMs info = true → n + 1 < MaxNackRetries.toNat →
      ¬ info.retries + 1 ≥ MaxNackRetries
  | .updateRtt _ => True

theorem start_kept : Kept start := by
  intro s h
  simp [start] at h

/-- Below 10000 the threshold wraps: the pruned numbers are the small ones and the old ones. -/
theorem pruned_iff {seq s : UInt16} (hyoung : age seq s ≤ MaxPacketAge.toNat) (hne : s ≠ seq) :
    s < seq - MaxPacketAge ↔ seq < MaxPacketAge ∧ s < seq := by
  have hne' : s.toNat ≠ seq.toNat := fun h => hne (UInt16.toNat_inj.mp h)
  have hmax : MaxPacketAge.toNat = 10000 := rfl
  have hs := s.toNat_lt
  have hq := seq.toNat_lt
  simp only [age_eq, UInt16.lt_iff_toNat_lt, UInt16.toNat_sub, hmax] at hyoung ⊢
  omega

theorem not_skips_of_owed {w : Watched} (h : Sane w) {seq s : UInt16}
    (hadv : Advances w.gen seq) (ho : (w.owed s).isSome) : ¬ Skips w.gen seq s := by
  rintro ⟨-, hpos, hlt⟩
  have hyoung := h.young s ho
  have hadvance := hadv.age_le.2
  have hmax : MaxPacketAge.toNat = 10000 := rfl
  have hs := s.toNat_lt
  have hq := seq.toNat_lt
  have hl := w.gen.lastSeq.toNat_lt
  simp only [age_eq, hmax] at hpos hlt hyoung hadvance
  omega

theorem owed_advance {w : Watched} {seq : UInt16} (hadv : Advances w.gen seq)
    (hroom : ¬ Overflows w.gen seq) (s : UInt16) :
    ((watch w (.receivePacket seq)).owed s).isSome ↔ age seq s ≤ MaxPacketAge.toNat ∧
      (Skips w.gen seq s ∨ s ≠ seq ∧ (w.owed s).isSome) := by
  simp only [watch, receive_advance hadv, hroom, if_false]
  by_cases hage : MaxPacketAge.toNat < age seq s
  · simp [hage]
  by_cases hskip : Skips w.gen seq s
  · simp [hage, hskip, not_lt.mp hage]
  by_cases heq : s = seq
  · subst heq
    simp [hage, hskip]
  · simp [hage, hskip, heq, not_lt.mp hage]

/-- A packet that advances keeps the losses exactly if its pruning spares them. -/
theorem kept_advance {w : Watched} (h : Sane w) (hk : Kept w) {seq : UInt16}
    (hadv : Advances w.gen seq) (hroom : ¬ Overflows w.gen seq) :
    Kept (watch w (.receivePacket seq)) ↔ Spares w (.receivePacket seq) := by
  constructor
  · intro hkept _ _ hsmall s ho hlt
    have hnot := not_skips_of_owed h hadv ho
    have hyoung : age seq s ≤ MaxPacketAge.toNat := by
      have hmax : MaxPacketAge.toNat = 10000 := rfl
      have hs := s.toNat_lt
      simp only [age_eq, UInt16.lt_iff_toNat_lt, hmax] at hsmall hlt ⊢
      omega
    have hin := hkept s ((owed_advance hadv hroom s).mpr ⟨hyoung, .inr ⟨ne_of_lt hlt, ho⟩⟩)
    have hcut := (pruned_iff hyoung (ne_of_lt hlt)).mpr ⟨hsmall, hlt⟩
    simp [watch, find_receive_advance hadv hroom, hnot, hcut] at hin
  · intro hspare s ho
    obtain ⟨hyoung, hskip⟩ := (owed_advance hadv hroom s).mp ho
    by_cases hs : Skips w.gen seq s
    · simp [watch, find_receive_advance hadv hroom, hs]
    obtain ⟨hne, hold⟩ := hskip.resolve_left hs
    have hcut : ¬ s < seq - MaxPacketAge := by
      rw [pruned_iff hyoung hne]
      exact fun hc => hspare hadv hroom hc.1 s hold hc.2
    simpa [watch, find_receive_advance hadv hroom, hs, hcut] using hk s hold

theorem kept_stay {w : Watched} (h : Sane w) (hk : Kept w) {seq : UInt16}
    (hadv : ¬ Advances w.gen seq) : Kept (watch w (.receivePacket seq)) := by
  intro s ho
  have hroom : ¬ Overflows w.gen seq := fun ho => hadv ho.1
  have hskip : ¬ Skips w.gen seq s := fun hs => hadv hs.1
  simp only [watch, hroom, hskip, if_false] at ho
  split at ho
  · cases ho
  split at ho
  · cases ho
  case isFalse hne =>
    cases hs : w.gen.started with
    | false => simp [(h.idle hs s).2] at ho
    | true => simpa [watch, (receive_stay hadv hs).2.2, hne] using hk s ho

theorem kept_receive {w : Watched} (h : Sane w) (hk : Kept w) (seq : UInt16) :
    Kept (watch w (.receivePacket seq)) ↔ Spares w (.receivePacket seq) := by
  by_cases hadv : Advances w.gen seq
  · by_cases hroom : Overflows w.gen seq
    · refine iff_of_true (fun s ho => ?_) fun _ hn => absurd hroom hn
      simp [watch, hroom] at ho
    · exact kept_advance h hk hadv hroom
  · exact iff_of_true (kept_stay h hk hadv) fun ha => absurd ha hadv

/-- A batch drops a loss exactly if its stored counter runs out before its returns do. -/
theorem kept_batch {w : Watched} (h : Sane w) (hk : Kept w) (nowMs : UInt64) :
    Kept (watch w (.getNackBatch nowMs)) ↔ Spares w (.getNackBatch nowMs) := by
  constructor
  · intro hkept s n info ho hf hdue hn hretries
    have hmem : s ∈ (getNackBatch w.gen nowMs).1 := (mem_batch h.labelled nowMs s).mpr ⟨info, hf, hdue⟩
    have hin := hkept s (by simp [watch, hmem, ho, returned_isSome, hn])
    simp [watch, find_getNackBatch, hf, visit, hdue, hretries] at hin
  · intro hspare s ho
    simp only [watch] at ho ⊢
    rw [find_getNackBatch]
    split at ho
    case isTrue hmem =>
      obtain ⟨info, hf, hdue⟩ := (mem_batch h.labelled nowMs s).mp hmem
      obtain ⟨m, hm⟩ := Option.isSome_iff_exists.mp ho
      obtain ⟨n, hn, hret⟩ := Option.bind_eq_some_iff.mp hm
      have hkeep := hspare s n info hn hf hdue (returned_isSome.mp (by rw [hret]; rfl))
      simp [hf, visit, hdue, hkeep]
    case isFalse hmem =>
      obtain ⟨info, hf⟩ := Option.isSome_iff_exists.mp (hk s ho)
      have hdue : isDue w.gen.rtt nowMs info ≠ true :=
        fun hdue => hmem ((mem_batch h.labelled nowMs s).mpr ⟨info, hf, hdue⟩)
      simp [hf, visit, hdue]

theorem kept_step {w : Watched} (h : Sane w) (hk : Kept w) (c : Call) :
    Kept (watch w c) ↔ Spares w c := by
  cases c with
  | receivePacket seq => exact kept_receive h hk seq
  | getNackBatch nowMs => exact kept_batch h hk nowMs
  | updateRtt rtt => exact iff_of_true hk trivial

/-- In every run all losses are kept until they are closed exactly if every call of the run
spares them. -/
theorem losses_kept_iff (calls : List Call) :
    (∀ done, done <+: calls → Kept (after done)) ↔
      ∀ done c, done ++ [c] <+: calls → Spares (after done) c :=
  always_iff start_sane (fun _ c h => h.step c) start_kept (fun _ c h hk => kept_step h hk c) calls

/-- After packets 0 and 2 the number 1 is outstanding. -/
theorem after_two : (after [.receivePacket 0, .receivePacket 2]).gen =
    ⟨Map.empty.emplace 1 ⟨1, 1, 0, 0⟩, true, 2, DefaultRtt⟩ := by
  have hfirst : (after [.receivePacket 0]).gen = ⟨.empty, true, 0, DefaultRtt⟩ := rfl
  have hnext := run_concat watch start [.receivePacket 0] (.receivePacket 2)
  calc (after [.receivePacket 0, .receivePacket 2]).gen
      = (receivePacket (after [.receivePacket 0]).gen 2).2 := congrArg Watched.gen hnext
    _ = _ := by
        rw [hfirst]
        exact receive_gap rfl rfl rfl

/-- Packets 0, 2, 4: the third packet prunes the loss of number 1. -/
theorem young_loss_pruned :
    ¬ ∀ calls done, done <+: calls → Kept (after done) := by
  intro h
  have hkept := h _ ([Call.receivePacket 0, .receivePacket 2] ++ [Call.receivePacket 4]) List.prefix_rfl
  rw [after, run_concat] at hkept
  have hstep := (kept_step (after_sane _) (h _ _ List.prefix_rfl) (.receivePacket 4)).mp hkept
  have howed : ((after [.receivePacket 0, .receivePacket 2]).owed 1).isSome := by decide
  refine hstep ?_ ?_ (by decide) 1 howed (by decide)
  · rw [after_two]
    decide
  · rw [after_two]
    decide

end NackKept
