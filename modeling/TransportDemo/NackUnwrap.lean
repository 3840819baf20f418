import TransportDemo.NackWatch

/-!
# Unbounded sequence numbers

The packets carry unbounded indices and the generator sees them modulo 65536.
While no packet is more than 32767 away from the newest, the generator follows
the tracker that keeps the largest index: it takes the branch the indices ask
for, and a gap adds the residues of the indices in between.
-/

namespace NackUnwrap

open OrderedMap NackGen NackWatch StepTrace

/-- The 16-bit sequence number of an index. -/
def seqOf (index : Int) : UInt16 := .ofInt index

theorem seqOf_toNat (index : Int) : (seqOf index).toNat = (index % 65536).toNat := by
  have hlt : (index % 65536).toNat < 65536 := by omega
  simpa [seqOf, UInt16.ofInt] using Nat.mod_eq_of_lt hlt

inductive Branch where
  | first
  | ignored
  | old
  | gap
  deriving DecidableEq

/-- The branch that `ReceivePacket` takes. -/
def branchOf (g : NackGenerator) (seq : UInt16) : Branch :=
  if !g.started then .first
  else if seq = g.lastSeq then .ignored
  else if seqLowerThan seq g.lastSeq then .old
  else .gap

/-- What `ReceivePacket` does, branch by branch. -/
theorem receive_branch (g : NackGenerator) (seq : UInt16) :
    receivePacket g seq = match branchOf g seq with
      | .first => (false, { g with started := true, lastSeq := seq })
      | .ignored => (false, g)
      | .old => if (g.nackList.find seq).isSome
          then (true, { g with nackList := g.nackList.erase seq }) else (false, g)
      | .gap => (false, { g with
          nackList := addPacketsToNackList g.nackList (g.lastSeq + 1) seq
          lastSeq := seq }) := by
  unfold receivePacket branchOf
  split
  · rfl
  · split
    · rfl
    · split
      · rfl
      · rfl

/-! ### The unbounded tracker -/

/-- What may happen to the receiver: a packet of some index comes, or the timer runs. -/
inductive Arrival where
  | packet (index : Int)
  | batch (nowMs : UInt64)
  | rtt (ms : UInt32)

def Arrival.call : Arrival → Call
  | .packet index => .receivePacket (seqOf index)
  | .batch nowMs => .getNackBatch nowMs
  | .rtt ms => .updateRtt ms

/-- The largest index so far, none before the first packet. -/
def raise (highest : Option Int) : Arrival → Option Int
  | .packet index => some (highest.elim index (max index))
  | .batch _ => highest
  | .rtt _ => highest

def highest (arrivals : List Arrival) : Option Int := run raise none arrivals

/-- The branch the indices ask for. -/
def expected (highest : Option Int) (index : Int) : Branch :=
  match highest with
  | none => .first
  | some m => if index < m then .old else if index = m then .ignored else .gap

def genAfter (arrivals : List Arrival) : NackGenerator := (after (arrivals.map Arrival.call)).gen

/-- No packet is more than 32767 away from the largest index before it. -/
def Near (arrivals : List Arrival) : Prop :=
  ∀ done index m, done ++ [.packet index] <+: arrivals → highest done = some m →
    |index - m| ≤ 32767

/-- The generator holds the residue of the largest index. -/
def Follows (g : NackGenerator) : Option Int → Prop
  | none => g.started = false
  | some m => g.started = true ∧ g.lastSeq = seqOf m

/-! ### The simulation -/

theorem seqOf_eq_iff {index m : Int} (h : |index - m| ≤ 32767) :
    seqOf index = seqOf m ↔ index = m := by
  have hclose := abs_le.mp h
  rw [← UInt16.toNat_inj, seqOf_toNat, seqOf_toNat]
  omega

theorem seqLowerThan_iff {index m : Int} (h : |index - m| ≤ 32767) :
    seqLowerThan (seqOf index) (seqOf m) = true ↔ index < m := by
  have hclose := abs_le.mp h
  have hmax : MaxValue.toNat / 2 = 32767 := rfl
  simp only [seqLowerThan, hmax, gt_iff_lt, UInt16.lt_iff_toNat_lt, Bool.or_eq_true,
    Bool.and_eq_true, decide_eq_true_eq, seqOf_toNat]
  omega

theorem branch_expected {g : NackGenerator} {h : Option Int} (hf : Follows g h) (index : Int)
    (hnear : ∀ m, h = some m → |index - m| ≤ 32767) :
    branchOf g (seqOf index) = expected h index := by
  cases h with
  | none => simp [branchOf, expected, show g.started = false from hf]
  | some m =>
    obtain ⟨hstarted, hlast⟩ := hf
    have hclose := hnear m rfl
    simp only [branchOf, expected, hstarted, hlast, seqOf_eq_iff hclose,
      seqLowerThan_iff hclose, Bool.not_true, Bool.false_eq_true, if_false]
    split <;> split <;> first | rfl | omega

theorem advances_iff (g : NackGenerator) (seq : UInt16) :
    Advances g seq ↔ branchOf g seq = .gap := by
  unfold Advances branchOf
  cases g.started <;> simp
  split <;> simp_all

/-- The residues strictly between the old and the new largest index are the numbers skipped. -/
theorem skips_residues {g : NackGenerator} {index m : Int} (hadv : Advances g (seqOf index))
    (hlast : g.lastSeq = seqOf m) (hlt : m < index) (hnear : |index - m| ≤ 32767) (s : UInt16) :
    Skips g (seqOf index) s ↔ ∃ j, m < j ∧ j < index ∧ s = seqOf j := by
  have hclose := abs_le.mp hnear
  have hs := s.toNat_lt
  simp only [Skips, hadv, true_and, hlast, age_eq, seqOf_toNat]
  constructor
  · rintro ⟨hpos, hless⟩
    refine ⟨m + (65536 - (m % 65536).toNat + s.toNat) % 65536, by omega, by omega, ?_⟩
    rw [← UInt16.toNat_inj, seqOf_toNat]
    omega
  · rintro ⟨j, hj, hji, rfl⟩
    simp only [seqOf_toNat]
    omega

/-- One arrival keeps the generator on the residue of the largest index. -/
theorem follows_step {w : Watched} {h : Option Int} (hf : Follows w.gen h) {a : Arrival}
    (hnear : ∀ index m, a = .packet index → h = some m → |index - m| ≤ 32767) :
    Follows (watch w a.call).gen (raise h a) := by
  cases a with
  | packet index =>
    have hbranch := branch_expected hf index fun m hm => hnear index m rfl hm
    have hgen := receive_branch w.gen (seqOf index)
    cases h with
    | none =>
      rw [hbranch] at hgen
      simp only [Arrival.call, watch, hgen, expected]
      exact ⟨rfl, rfl⟩
    | some m =>
      obtain ⟨hstarted, hlast⟩ := hf
      simp only [Arrival.call, watch, hgen, hbranch, expected, raise, Option.elim_some]
      by_cases hlt : index < m
      · rw [if_pos hlt, max_eq_right hlt.le]
        dsimp only
        split
        · exact ⟨hstarted, hlast⟩
        · exact ⟨hstarted, hlast⟩
      · by_cases heq : index = m
        · rw [if_neg hlt, if_pos heq, max_eq_right heq.le]
          exact ⟨hstarted, hlast⟩
        · rw [if_neg hlt, if_neg heq, max_eq_left (not_lt.mp hlt)]
          exact ⟨hstarted, rfl⟩
  | batch nowMs =>
    cases h with
    | none => exact hf
    | some m => exact hf
  | rtt ms =>
    cases h with
    | none => exact hf
    | some m => exact hf

theorem follows_run {arrivals : List Arrival} (hnear : Near arrivals) (done : List Arrival)
    (hd : done <+: arrivals) : Follows (genAfter done) (highest done) := by
  induction done using List.reverseRecOn with
  | nil => rfl
  | append_singleton done a ih =>
    have hdone := ih ((List.prefix_append done [a]).trans hd)
    have hstep := follows_step (a := a) hdone fun index m ha hm =>
      hnear done index m (ha ▸ hd) hm
    simpa only [genAfter, after, highest, List.map_append, List.map_cons, List.map_nil,
      run_concat] using hstep

/-- The keys after a gap without overflow. -/
theorem gap_keys {g : NackGenerator} {index m : Int} (hf : Follows g (some m)) (hlt : m < index)
    (hnear : |index - m| ≤ 32767) (hroom : ¬ Overflows g (seqOf index)) (s : UInt16) :
    ((receivePacket g (seqOf index)).2.nackList.find s).isSome ↔
      ((pruned g.nackList (seqOf index)).find s).isSome ∨
        ∃ j, m < j ∧ j < index ∧ s = seqOf j := by
  have hadv : Advances g (seqOf index) := by
    rw [advances_iff, branch_expected hf index fun k hk => Option.some.inj hk ▸ hnear, expected,
      if_neg (by omega), if_neg (by omega)]
  rw [← skips_residues hadv hf.2 hlt hnear, find_receive_advance hadv hroom, find_pruned]
  by_cases hskip : Skips g (seqOf index) s
  · simp [hskip]
  · simp [hskip]

/-- The generator refines the unbounded tracker in every run of near packets. -/
theorem follows_unbounded (arrivals : List Arrival) (hnear : Near arrivals) :
    (∀ done, done <+: arrivals → Follows (genAfter done) (highest done)) ∧
      ∀ done index, done ++ [.packet index] <+: arrivals →
        branchOf (genAfter done) (seqOf index) = expected (highest done) index ∧
        ∀ m, highest done = some m → m < index → ¬ Overflows (genAfter done) (seqOf index) →
          ∀ s, ((genAfter (done ++ [.packet index])).nackList.find s).isSome ↔
            ((pruned (genAfter done).nackList (seqOf index)).find s).isSome ∨
              ∃ j, m < j ∧ j < index ∧ s = seqOf j := by
  refine ⟨follows_run hnear, fun done index hd => ?_⟩
  have hdone := follows_run hnear done ((List.prefix_append done _).trans hd)
  refine ⟨branch_expected hdone index fun m hm => hnear done index m hd hm, ?_⟩
  intro m hm hlt hroom s
  have hgen : genAfter (done ++ [.packet index]) =
      (receivePacket (genAfter done) (seqOf index)).2 := by
    simp only [genAfter, after, List.map_append, List.map_cons, List.map_nil, run_concat]
    rfl
  rw [hgen]
  exact gap_keys (hm ▸ hdone) hlt (hnear done index m hd hm) hroom s

/-- Packets 65535 and 65538: the gap runs across zero. -/
theorem follows_across_zero :
    Near [.packet 65535, .packet 65538] ∧
      ∀ done, done <+: [.packet 65535, .packet 65538] →
        Follows (genAfter done) (highest done) := by
  have hnear : Near [.packet 65535, .packet 65538] := by
    intro done index m hd hm
    cases done with
    | nil => cases hm
    | cons a rest =>
      obtain ⟨rfl, hrest⟩ := List.cons_prefix_cons.mp hd
      cases rest with
      | nil =>
        obtain ⟨hindex, -⟩ := List.cons_prefix_cons.mp hrest
        cases hindex
        cases hm
        decide
      | cons b more =>
        have hlen := (List.cons_prefix_cons.mp hrest).2.length_le
        simp at hlen
  exact ⟨hnear, (follows_unbounded _ hnear).1⟩

end NackUnwrap
