import Mathlib.Data.Finset.Sort
import TransportDemo.FecCollect
import TransportDemo.FecCompletion

/-!
# What is stored and what is decoded

`collect_packet` stores the payload of a datagram; `decode_fec_group` takes
each stored array for a whole datagram, with the header in its first bytes. The
two agree on a group only if the payloads themselves contain datagrams.
-/

namespace FecStored

open FecGenerator FecBounds OrderedMap StepTrace
open FecCollect hiding ByteArray
open NackPacket (TESTTPPacket)
open FecCompletion (fecHeader)

/-- A call of `collect_packet`: the header of the datagram and its payload. -/
abbrev Call := TESTFECHeader × List UInt8

/-- The bytes of an array as memory. -/
def asPacket (raw : List UInt8) : TESTTPPacket := ⟨fun i => raw.getD i 0, raw.length⟩

/-- What `decode_fec_group` passes to `Decode` for a stored array: both pointers lead to its first
byte, so the header is there and the payload behind it. `none` if that leaves the array. -/
def decodeArguments (raw : List UInt8) : Option Call :=
  let header := fecHeader (asPacket raw)
  if FEC_HEADER_BYTES ≤ raw.length ∧ FEC_HEADER_BYTES + header.length.toNat ≤ raw.length then
    some (header, (raw.drop FEC_HEADER_BYTES).take header.length.toNat)
  else none

/-- The array is passed on as the datagram of the call. -/
def PassedAs (raw : List UInt8) (call : Call) : Prop :=
  ∃ header payload, decodeArguments raw = some (header, payload) ∧
    header.fecGroupId = call.1.fecGroupId ∧ header.fecIndex = call.1.fecIndex ∧
    header.length = call.1.length ∧ payload = call.2

/-- The index under which a packet is stored. -/
def seqNum (call : Call) : UInt32 := call.1.fecIndex.toUInt32

/-- The indices collected for a group so far. -/
def collected (log : List Event) (groupId : UInt32) : List UInt32 :=
  log.filterMap fun
    | .store id num => if id = groupId then some num else none
    | _ => none

/-- One decoding of a group passes on calls of that group, those of the `FEC_K` smallest indices,
each once and in ascending order. -/
def AsReceived (calls : List Call) (log : List Event) (groupId : UInt32) (passed : List (List UInt8)) :
    Prop :=
  ∃ origins : List Call, List.Forall₂ PassedAs passed origins ∧
    (∀ call ∈ origins, call ∈ calls ∧ call.1.fecGroupId = groupId) ∧
    origins.map seqNum = ((collected log groupId).toFinset.sort (· ≤ ·)).take FEC_K

/-- The group of a call once its packet is stored. -/
def filled (c : Collector) (call : Call) : Group :=
  let group := (c.groups.find call.1.fecGroupId).getD ⟨call.1.fecGroupId, .empty⟩
  { group with packetList := group.packetList.insert (seqNum call) call.2 }

/-- The call is neither too old nor for a decoded group, and its group then has enough packets. -/
def Completes (c : Collector) (call : Call) : Prop :=
  stale c call.1.fecGroupId = false ∧ c.groupMarks call.1.fecGroupId ≠ some true ∧
    FEC_K ≤ (filled c call).packetList.size

/-- The array starts with the header of a call for the group and the index it is stored under, and
goes on with that call's payload. -/
def Contains (calls : List Call) (groupId : UInt32) (e : UInt32 × List UInt8) : Prop :=
  ∃ call ∈ calls, call.1.fecGroupId = groupId ∧ seqNum call = e.1 ∧ PassedAs e.2 call

/-- Either the call completes no group, or every payload of the group contains a datagram of it. -/
def Nested (calls : List Call) (c : Collector) (call : Call) : Prop :=
  Completes c call →
    ∀ e ∈ (filled c call).packetList.entries.take FEC_K, Contains calls call.1.fecGroupId e

/-! ### The indices of a group -/

/-- A group in the window has the packets collected for it, and a group that is neither in the
window nor marked has none. -/
structure Keyed (c : Collector) (log : List Event) : Prop where
  keys : ∀ k g, c.groups.find k = some g → ∀ i, i ∈ g.packetList.keys ↔ i ∈ collected log k
  fresh : ∀ k, c.groups.find k = none → c.groupMarks k ≠ some true → collected log k = []

theorem mem_collected {log : List Event} {k i : UInt32} :
    i ∈ collected log k ↔ .store k i ∈ log := by
  rw [collected, List.mem_filterMap]
  constructor
  · rintro ⟨e, he, hsome⟩
    cases e with
    | store id num =>
      simp only [Option.ite_none_right_eq_some, Option.some.injEq] at hsome
      obtain ⟨rfl, rfl⟩ := hsome
      exact he
    | decode id held passed => cases hsome
    | retire id => cases hsome
  · intro hmem
    exact ⟨.store k i, hmem, by simp⟩

theorem collected_append (log log' : List Event) (k : UInt32) :
    collected (log ++ log') k = collected log k ++ collected log' k := List.filterMap_append

theorem collected_retires {c d : Collector} {events : List Event} (h : Retires c events d)
    (k : UInt32) : collected events k = [] := by
  induction h with
  | done c => rfl
  | skip _ _ _ ih => exact ih
  | decode _ _ _ ih => exact ih

/-- A group that is not marked afterwards has not been touched. -/
theorem untouched_of_open {c d : Collector} {events : List Event} (h : Retires c events d)
    (hmid : Mid c) {k : UInt32} (hm : d.groupMarks k ≠ some true) :
    c.groupMarks k ≠ some true ∧ c.groups.find k = d.groups.find k := by
  have hstep : ∀ {c : Collector} {k' : UInt32} {g : Group}, Mid c → c.groups.find k' = some g →
      (retire c k' g.groupId).groupMarks k ≠ some true →
      c.groupMarks k ≠ some true ∧ c.groups.find k = (retire c k' g.groupId).groups.find k := by
    intro c k' g hmid hf hopen
    rw [retire_marks (hmid k' g hf).1] at hopen
    rw [find_retire]
    split at hopen
    · exact absurd rfl hopen
    · next hne => exact ⟨hopen, (if_neg hne).symm⟩
  induction h with
  | done c => exact ⟨hm, rfl⟩
  | skip hf _ _ ih =>
    obtain ⟨hopen, hfind⟩ := ih (retire_mid hmid hf) hm
    obtain ⟨hopen', hfind'⟩ := hstep hmid hf hopen
    exact ⟨hopen', hfind'.trans hfind⟩
  | decode hf _ _ ih =>
    obtain ⟨hopen, hfind⟩ := ih (retire_mid hmid hf) hm
    obtain ⟨hopen', hfind'⟩ := hstep hmid hf hopen
    exact ⟨hopen', hfind'.trans hfind⟩

theorem Keyed.retires {c d : Collector} {log events : List Event} (hk : Keyed c log)
    (h : Retires c events d) (hmid : Mid c) : Keyed d (log ++ events) := by
  have hrest : ∀ k, collected (log ++ events) k = collected log k := fun k => by
    rw [collected_append, collected_retires h, List.append_nil]
  refine ⟨fun k g hf i => ?_, fun k hnone hm => ?_⟩
  · rw [hrest]
    exact hk.keys k g (h.find hf) i
  · obtain ⟨hopen, hfind⟩ := untouched_of_open h hmid hm
    rw [hrest]
    exact hk.fresh k (hfind.trans hnone) hopen

theorem find_store (c : Collector) (call : Call) (k : UInt32) :
    (store c call.1.fecGroupId (seqNum call) call.2).groups.find k =
      if k = call.1.fecGroupId then some (filled c call) else c.groups.find k := by
  rw [store, setMark, find_insert]
  rfl

theorem Keyed.store {c : Collector} {log : List Event} (hk : Keyed c log) (call : Call)
    (hm : c.groupMarks call.1.fecGroupId ≠ some true) :
    Keyed (store c call.1.fecGroupId (seqNum call) call.2)
      (log ++ [.store call.1.fecGroupId (seqNum call)]) := by
  have hlast : ∀ k i, i ∈ collected (log ++ [.store call.1.fecGroupId (seqNum call)]) k ↔
      i ∈ collected log k ∨ k = call.1.fecGroupId ∧ i = seqNum call := by
    intro k i
    rw [mem_collected, List.mem_append, ← mem_collected]
    simp
  refine ⟨fun k g hf i => ?_, fun k hnone hopen => ?_⟩
  · rw [find_store] at hf
    rw [hlast]
    by_cases hsame : k = call.1.fecGroupId
    · subst hsame
      rw [if_pos rfl] at hf
      obtain rfl := Option.some.inj hf
      have hold : ∀ i, i ∈ ((c.groups.find call.1.fecGroupId).getD
          ⟨call.1.fecGroupId, .empty⟩).packetList.keys ↔ i ∈ collected log call.1.fecGroupId := by
        intro i
        cases hfind : c.groups.find call.1.fecGroupId with
        | none =>
          rw [hk.fresh _ hfind hm]
          simp [Map.keys, Map.empty]
        | some g => exact hk.keys _ g hfind i
      rw [filled, mem_keys, find_insert, ← hold, mem_keys]
      by_cases hi : i = seqNum call
      · simp [hi]
      · simp [hi]
    · rw [if_neg hsame] at hf
      simp only [hsame, false_and, or_false]
      exact hk.keys k g hf i
  · rw [find_store] at hnone
    split at hnone
    · cases hnone
    · next hne =>
      have hmarks : (FecCollect.store c call.1.fecGroupId (seqNum call) call.2).groupMarks k =
          c.groupMarks k := if_neg hne
      rw [hmarks] at hopen
      rw [collected_append, hk.fresh k hnone hopen]
      simp [collected, Ne.symm hne]

/-! ### The decodings of a call -/

theorem decode_mem {c d : Collector} {events : List Event} (h : Retires c events d)
    {k : UInt32} {held : Nat} {passed : List (List UInt8)} (he : .decode k held passed ∈ events) :
    ∃ g, c.groups.find k = some g ∧ FEC_K ≤ g.packetList.size ∧ passed = firstArrays g := by
  induction h with
  | done c => cases he
  | skip hf hfew hrest ih =>
    cases he with
    | tail _ he =>
      obtain ⟨g, hg, hrest⟩ := ih he
      exact ⟨g, find_of_retire hg, hrest⟩
  | decode hf hfull hrest ih =>
    cases he with
    | head => exact ⟨_, hf, hfull, rfl⟩
    | tail _ he =>
      cases he with
      | tail _ he =>
        obtain ⟨g, hg, hrest⟩ := ih he
        exact ⟨g, find_of_retire hg, hrest⟩

/-- A complete group is still there or has been decoded. -/
theorem decode_of_full {c d : Collector} {events : List Event} (h : Retires c events d)
    {k : UInt32} {g : Group} (hf : c.groups.find k = some g) (hfull : FEC_K ≤ g.packetList.size) :
    d.groups.find k = some g ∨ .decode k g.packetList.size (firstArrays g) ∈ events := by
  have hstep : ∀ {c : Collector} {k' id : UInt32}, c.groups.find k = some g → k ≠ k' →
      (retire c k' id).groups.find k = some g := by
    intro c k' id hc hne
    rw [find_retire, if_neg hne]
    exact hc
  induction h with
  | done c => exact .inl hf
  | @skip c d k' g' events hf' hfew hrest ih =>
    have hne : k ≠ k' := by
      rintro rfl
      obtain rfl := Option.some.inj (hf.symm.trans hf')
      omega
    exact (ih (hstep hf hne)).imp_right (List.mem_cons_of_mem _)
  | @decode c d k' g' events hf' hfull' hrest ih =>
    by_cases hsame : k = k'
    · subst hsame
      obtain rfl := Option.some.inj (hf.symm.trans hf')
      exact .inr List.mem_cons_self
    · exact (ih (hstep hf hsame)).imp_right fun he =>
        List.mem_cons_of_mem _ (List.mem_cons_of_mem _ he)

/-! ### A call -/

theorem sort_keys {m : Map UInt32 (List UInt8)} {l : List UInt32} (h : ∀ i, i ∈ m.keys ↔ i ∈ l) :
    l.toFinset.sort (· ≤ ·) = m.keys := by
  have hset : l.toFinset = m.keys.toFinset := by
    ext i
    rw [List.mem_toFinset, List.mem_toFinset, h]
  rw [hset]
  exact (List.toFinset_sort _ (keys_nodup m)).mpr ((keys_sorted m).imp le_of_lt)

/-- Calls to which a list of entries goes back, entry by entry. -/
theorem contains_iff (calls : List Call) (groupId : UInt32) (es : List (UInt32 × List UInt8)) :
    (∀ e ∈ es, Contains calls groupId e) ↔
      ∃ origins : List Call, List.Forall₂ PassedAs (es.map Prod.snd) origins ∧
        (∀ call ∈ origins, call ∈ calls ∧ call.1.fecGroupId = groupId) ∧
        origins.map seqNum = es.map Prod.fst := by
  induction es with
  | nil =>
    have hnone : ∀ call ∈ ([] : List Call), call ∈ calls ∧ call.1.fecGroupId = groupId := by simp
    exact iff_of_true (by simp) ⟨[], .nil, hnone, rfl⟩
  | cons e es ih =>
    rw [List.forall_mem_cons, ih]
    constructor
    · rintro ⟨⟨call, hcall, hgroup, hnum, hpassed⟩, origins, hall, hfrom, hnums⟩
      refine ⟨call :: origins, .cons hpassed hall, ?_, ?_⟩
      · rw [List.forall_mem_cons]
        exact ⟨⟨hcall, hgroup⟩, hfrom⟩
      · rw [List.map_cons, List.map_cons, hnum, hnums]
    · rintro ⟨origins, hall, hfrom, hnums⟩
      cases hall with
      | @cons _ call _ origins hpassed hall =>
        obtain ⟨⟨hcall, hgroup⟩, hfrom⟩ := List.forall_mem_cons.mp hfrom
        rw [List.map_cons, List.map_cons, List.cons.injEq] at hnums
        exact ⟨⟨call, hcall, hgroup, hnums.1, hpassed⟩, origins, hall, hfrom, hnums.2⟩

/-- A group is decoded as it was received exactly if every array of it contains a datagram. -/
theorem asReceived_iff {log : List Event} {groupId : UInt32} {g : Group} (calls : List Call)
    (h : ∀ i, i ∈ g.packetList.keys ↔ i ∈ collected log groupId) :
    AsReceived calls log groupId (firstArrays g) ↔
      ∀ e ∈ g.packetList.entries.take FEC_K, Contains calls groupId e := by
  rw [contains_iff, AsReceived, sort_keys h, firstArrays, Map.keys, List.map_take, List.map_take]

section Accepted

variable {c d : Collector} {call : Call} {events : List Event}
  (h : Retires (store c call.1.fecGroupId (seqNum call) call.2) events d)
include h

/-- A complete group does not survive the call, so it is decoded. -/
theorem filled_decoded (hw : Window d) (hfull : FEC_K ≤ (filled c call).packetList.size) :
    .decode call.1.fecGroupId (filled c call).packetList.size (firstArrays (filled c call)) ∈
      events := by
  have hfilled := find_store c call call.1.fecGroupId
  rw [if_pos rfl] at hfilled
  refine (decode_of_full h hfilled hfull).resolve_left fun hleft => ?_
  have hless : (filled c call).packetList.size < FEC_N := (hw.group _ _ hleft).2.2.1
  exact absurd hfull (Nat.not_le.mpr hless)

/-- Every other group is smaller, so none but the call's is decoded. -/
theorem decoded_filled (hw : Window c) {groupId : UInt32} {held : Nat}
    {passed : List (List UInt8)} (he : .decode groupId held passed ∈ events) :
    groupId = call.1.fecGroupId ∧ FEC_K ≤ (filled c call).packetList.size ∧
      passed = firstArrays (filled c call) := by
  obtain ⟨g, hf, hfull, rfl⟩ := decode_mem h he
  rw [find_store] at hf
  split at hf
  · next hsame =>
    obtain rfl := Option.some.inj hf
    exact ⟨hsame, hfull, rfl⟩
  · have hless : g.packetList.size < FEC_N := (hw.group _ _ hf).2.2.1
    exact absurd hfull (Nat.not_le.mpr hless)

end Accepted

theorem call_iff {c : Collector} {log : List Event} (hw : Window c) (ht : Traced c log)
    (hk : Keyed c log) (call : Call) (calls : List Call) :
    Keyed (collectPacket c call.1 call.2).1 (log ++ (collectPacket c call.1 call.2).2) ∧
    ((∀ groupId held passed, .decode groupId held passed ∈ (collectPacket c call.1 call.2).2 →
        AsReceived calls (log ++ (collectPacket c call.1 call.2).2) groupId passed) ↔
      Nested calls c call) := by
  by_cases hr : stale c call.1.fecGroupId = true ∨ c.groupMarks call.1.fecGroupId = some true
  · rw [collect_refused call.1 call.2 hr, List.append_nil]
    refine ⟨hk, iff_of_true (fun _ _ _ he => by cases he) fun hcomplete => ?_⟩
    cases hr with
    | inl hs => exact absurd hs (by simp [hcomplete.1])
    | inr hm => exact absurd hm hcomplete.2.1
  rw [not_or, Bool.not_eq_true] at hr
  obtain ⟨events, d, hcollect, hretires, hwindow⟩ : ∃ events d, collectPacket c call.1 call.2 =
        (d, .store call.1.fecGroupId (seqNum call) :: events) ∧
      Retires (store c call.1.fecGroupId (seqNum call) call.2) events d ∧ Window d :=
    collect_accepted hw ht call.1 call.2 hr.1 hr.2
  have hmid := (store_good hw ht hr.2 (seqNum call) call.2).1
  have hstored := hk.store call hr.2
  have hkeyed := hstored.retires hretires hmid
  rw [List.append_assoc] at hkeyed
  rw [hcollect]
  refine ⟨hkeyed, ?_⟩
  have hfilled := find_store c call call.1.fecGroupId
  rw [if_pos rfl] at hfilled
  have hkeys : ∀ i, i ∈ (filled c call).packetList.keys ↔
      i ∈ collected (log ++ .store call.1.fecGroupId (seqNum call) :: events)
        call.1.fecGroupId := by
    intro i
    have happ : log ++ .store call.1.fecGroupId (seqNum call) :: events =
        log ++ [.store call.1.fecGroupId (seqNum call)] ++ events := by simp
    rw [happ, collected_append, collected_retires hretires, List.append_nil]
    exact hstored.keys _ _ hfilled i
  constructor
  · intro hall hcomplete
    rw [← asReceived_iff calls hkeys]
    exact hall _ _ _ (List.mem_cons_of_mem _ (filled_decoded hretires hwindow hcomplete.2.2))
  · intro hnested groupId held passed he
    cases he with
    | tail _ he =>
      obtain ⟨rfl, hfull, rfl⟩ := decoded_filled hretires hw he
      rw [asReceived_iff calls hkeys]
      exact hnested ⟨hr.1, hr.2, hfull⟩

/-! ### Runs -/

theorem after_concat (calls : List Call) (call : Call) : after (calls ++ [call]) =
    ((collectPacket (after calls).1 call.1 call.2).1,
      (after calls).2 ++ (collectPacket (after calls).1 call.1 call.2).2) :=
  run_concat _ _ _ _

theorem after_keyed (calls : List Call) : Keyed (after calls).1 (after calls).2 := by
  induction calls using List.reverseRecOn with
  | nil =>
    constructor
    · intro k g hf
      cases hf
    · intro k _ _
      rfl
  | append_singleton calls call ih =>
    obtain ⟨hw, ht⟩ := after_good calls
    rw [after_concat]
    exact (call_iff hw ht ih call []).1

/-- Datagram `i` of group 0, with a payload of four bytes. -/
def fourBytes (i : UInt16) : Call := (⟨4, 8, 8, i, 0, 10⟩, [1, 2, 3, 4])

end FecStored
