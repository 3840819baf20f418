import TransportDemo.FecGenerator
import TransportDemo.OrderedMap
import TransportDemo.StepTrace

/-!
# The window of FEC groups

`collect_packet` gathers packets by group. A group is retired when the window
has moved past it or when it is complete; its mark keeps later packets of it
out. What happens is recorded in a log of events.
-/

namespace FecCollect

open FecGenerator OrderedMap StepTrace

instance idLinearOrder : LinearOrder UInt32 where
  le_refl _ := UInt32.le_refl _
  le_trans _ _ _ := UInt32.le_trans
  lt_iff_le_not_ge a b := by
    simp only [UInt32.le_iff_toNat_le, UInt32.lt_iff_toNat_lt]
    omega
  le_antisymm _ _ := UInt32.le_antisymm
  le_total := UInt32.le_total
  toDecidableLE := inferInstance
  toDecidableEq := inferInstance
  toDecidableLT := inferInstance

def FEC_K : Nat := 8
def FEC_N : Nat := 8
def MAX_GROUPS : Nat := 4

/-- `std::vector<uint8_t>`. -/
abbrev ByteArray := List UInt8

structure Group where
  groupId : UInt32
  packetList : Map UInt32 ByteArray

/-- The members of `UDPSender` that `collect_packet` works on. -/
structure Collector where
  groups : Map UInt32 Group
  groupMarks : UInt32 → Option Bool

def initial : Collector := ⟨.empty, fun _ => none⟩

/-- What can be observed: a packet stored, a call of `decode_fec_group` with the number of packets
the group holds and the arrays passed on to `Decode`, and a group erased. -/
inductive Event where
  | store (groupId seqNum : UInt32)
  | decode (groupId : UInt32) (held : Nat) (passed : List ByteArray)
  | retire (groupId : UInt32)

/-- `group_marks_[groupId] = mark`. -/
def setMark (c : Collector) (groupId : UInt32) (mark : Bool) : Collector :=
  { c with groupMarks := fun id => if id = groupId then some mark else c.groupMarks id }

/-- `decode_fec_group`: the first `FEC_K` packets go to the decoder; a group with fewer is
emptied. -/
def decodeFecGroup (c : Collector) (groupId : UInt32) : Collector × List Event :=
  match c.groups.find groupId with
  | none => (c, [.decode groupId 0 []])
  | some group =>
    if group.packetList.size < FEC_K then
      ({ c with groups := c.groups.insert groupId { group with packetList := .empty } },
        [.decode groupId group.packetList.size []])
    else
      (c, [.decode groupId group.packetList.size
        ((group.packetList.entries.take FEC_K).map Prod.snd)])

/-- `groups_.rbegin()->second->group_id - groups_.begin()->second->group_id`. -/
def groupIdDiff (groups : Map UInt32 Group) : UInt64 :=
  match groups.first, groups.last with
  | some first, some last => (last.2.groupId - first.2.groupId).toUInt64
  | _, _ => 0

/-- Erase an entry and mark its group. -/
def retire (c : Collector) (key groupId : UInt32) : Collector :=
  setMark { c with groups := c.groups.erase key } groupId true

/-- The loop that evicts from the old end; every turn erases an entry, so the number of groups
is turns enough. -/
def evict : Nat → Collector → Collector × List Event
  | 0, c => (c, [])
  | turns + 1, c =>
    match c.groups.first with
    | none => (c, [])
    | some (key, g) =>
      if (groupIdDiff c.groups).toNat > MAX_GROUPS then
        let (d, decoded) :=
          if FEC_K ≤ g.packetList.size then decodeFecGroup c g.groupId else (c, [])
        let (d, evicted) := evict turns (retire d key g.groupId)
        (d, decoded ++ .retire g.groupId :: evicted)
      else (c, [])

/-- The loop over all groups that decodes and erases the complete ones. -/
def sweep : List UInt32 → Collector → Collector × List Event
  | [], c => (c, [])
  | key :: rest, c =>
    match c.groups.find key with
    | none => sweep rest c
    | some g =>
      if g.packetList.size = FEC_N then
        let (d, decoded) := decodeFecGroup c g.groupId
        let (d, swept) := sweep rest (retire d key g.groupId)
        (d, decoded ++ .retire g.groupId :: swept)
      else sweep rest c

/-- The test for packets that are too old, made only when the window is full. -/
def stale (c : Collector) (groupId : UInt32) : Bool :=
  decide (MAX_GROUPS ≤ c.groups.size) &&
    match c.groups.first with
    | some (_, g) => decide (groupId < g.groupId)
    | none => false

/-- The packet goes to its group, which is created if it is new. -/
def store (c : Collector) (groupId seqNum : UInt32) (data : ByteArray) : Collector :=
  let group := (c.groups.find groupId).getD ⟨groupId, .empty⟩
  let filled := { group with packetList := group.packetList.insert seqNum data }
  setMark { c with groups := c.groups.insert groupId filled } groupId false

/-- `collect_packet`. -/
def collectPacket (c : Collector) (header : TESTFECHeader) (data : ByteArray) :
    Collector × List Event :=
  let seqNum := header.fecIndex.toUInt32
  let groupId := header.fecGroupId
  if stale c groupId then (c, [])
  else if c.groupMarks groupId = some true then (c, [])
  else
    let c := store c groupId seqNum data
    let (c, evicted) := evict c.groups.size c
    let (c, swept) := sweep c.groups.keys c
    (c, .store groupId seqNum :: evicted ++ swept)

/-! ### The properties -/

/-- The group that a call of `decode_fec_group` is for. -/
def decoded : Event → Option UInt32
  | .decode groupId _ _ => some groupId
  | _ => none

/-- The event decodes or erases the group. -/
def Closes (groupId : UInt32) : Event → Prop
  | .decode id _ _ => id = groupId
  | .retire id => id = groupId
  | .store _ _ => False

/-- The window between two calls. -/
structure Window (c : Collector) : Prop where
  span : ∀ k ∈ c.groups.keys, ∀ k' ∈ c.groups.keys, k'.toNat - k.toNat ≤ MAX_GROUPS
  group : ∀ k g, c.groups.find k = some g → g.groupId = k ∧ 1 ≤ g.packetList.size ∧
    g.packetList.size < FEC_N ∧ c.groupMarks k = some false
  marked : ∀ k, c.groupMarks k = some true → k ∉ c.groups.keys

/-- The log of a run. -/
structure Orderly (log : List Event) : Prop where
  once : (log.filterMap decoded).Nodup
  enough : ∀ groupId held passed, .decode groupId held passed ∈ log → FEC_K ≤ held
  closed : log.Pairwise fun before after => ∀ groupId, Closes groupId before →
    ∀ seqNum, after ≠ .store groupId seqNum

/-- The state and the log after the calls. -/
def after (calls : List (TESTFECHeader × ByteArray)) : Collector × List Event :=
  run (fun s call =>
    let (c, events) := collectPacket s.1 call.1 call.2
    (c, s.2 ++ events)) (initial, []) calls

/-! ### Retiring a group -/

/-- Between the steps of one call a group may be complete. -/
def Mid (c : Collector) : Prop :=
  ∀ k g, c.groups.find k = some g → g.groupId = k ∧ 1 ≤ g.packetList.size ∧
    g.packetList.size ≤ FEC_N ∧ c.groupMarks k = some false

/-- Groups that were decoded or erased are marked. -/
structure Traced (c : Collector) (log : List Event) : Prop where
  orderly : Orderly log
  ended : ∀ e ∈ log, ∀ groupId, Closes groupId e → c.groupMarks groupId = some true

/-- The arrays that `decode_fec_group` passes on. -/
def firstArrays (g : Group) : List ByteArray := (g.packetList.entries.take FEC_K).map Prod.snd

theorem decodeFecGroup_full {c : Collector} {k : UInt32} {g : Group} (h : c.groups.find k = some g)
    (hfull : FEC_K ≤ g.packetList.size) :
    decodeFecGroup c k = (c, [.decode k g.packetList.size (firstArrays g)]) := by
  simp only [decodeFecGroup, h, Nat.not_lt.mpr hfull, if_false]
  rfl

theorem Orderly.append {log : List Event} (h : Orderly log) {e : Event}
    (honce : ∀ id ∈ decoded e, id ∉ log.filterMap decoded)
    (henough : ∀ groupId held passed, e = .decode groupId held passed → FEC_K ≤ held)
    (hclosed : ∀ groupId seqNum, e = .store groupId seqNum → ∀ b ∈ log, ¬ Closes groupId b) :
    Orderly (log ++ [e]) := by
  constructor
  · rw [List.filterMap_append]
    refine List.Nodup.append h.once ?_ ?_
    · cases e with
      | decode id held passed => exact List.nodup_singleton id
      | _ => exact List.nodup_nil
    · intro id hold hnew
      have hid : id ∈ decoded e := by
        cases hd : decoded e with
        | none => simp [hd] at hnew
        | some d => simpa [hd, eq_comm] using hnew
      exact honce id hid hold
  · intro groupId held passed hmem
    cases List.mem_append.mp hmem with
    | inl hold => exact h.enough groupId held passed hold
    | inr hnew => exact henough groupId held passed (List.mem_singleton.mp hnew).symm
  · refine List.pairwise_append.mpr ⟨h.closed, List.pairwise_singleton _ _, ?_⟩
    intro b hb a ha groupId hcl seqNum heq
    exact hclosed groupId seqNum ((List.mem_singleton.mp ha).symm.trans heq) b hb hcl

/-- A group whose mark is false has not been decoded or erased. -/
theorem Traced.open_of_mark {c : Collector} {log : List Event} (h : Traced c log) {k : UInt32}
    (hm : c.groupMarks k ≠ some true) : ∀ e ∈ log, ¬ Closes k e :=
  fun e he hcl => hm (h.ended e he k hcl)

theorem decoded_closes {log : List Event} {k : UInt32} (h : ∀ e ∈ log, ¬ Closes k e) :
    k ∉ log.filterMap decoded := by
  intro hmem
  obtain ⟨e, he, hd⟩ := List.mem_filterMap.mp hmem
  cases e with
  | decode id held passed => exact h _ he (Option.some.inj hd)
  | _ => cases hd

theorem retire_marks {c : Collector} {k : UInt32} {g : Group} (hid : g.groupId = k) (id : UInt32) :
    (retire c k g.groupId).groupMarks id = if id = k then some true else c.groupMarks id := by
  rw [retire, setMark, hid]

theorem find_retire (c : Collector) (k id k' : UInt32) : (retire c k id).groups.find k' =
    if k' = k then none else c.groups.find k' := by
  rw [retire, setMark, find_erase]

theorem retire_mid {c : Collector} {k : UInt32} {g : Group} (hmid : Mid c)
    (hf : c.groups.find k = some g) : Mid (retire c k g.groupId) := by
  intro k' g' hf'
  rw [find_retire] at hf'
  split at hf'
  · cases hf'
  · rename_i hne
    rw [retire_marks (hmid k g hf).1, if_neg hne]
    exact hmid k' g' hf'

/-- An event that closes a group comes with its mark. -/
theorem retire_traced {c : Collector} {log events : List Event} {k : UInt32} {g : Group}
    (hid : g.groupId = k) (ht : Traced c log) (ho : Orderly (log ++ events))
    (hev : ∀ e ∈ events, ∀ id, Closes id e → id = k) :
    Traced (retire c k g.groupId) (log ++ events) := by
  refine ⟨ho, fun e he id hcl => ?_⟩
  rw [retire_marks hid]
  split
  · rfl
  · rename_i hne
    cases List.mem_append.mp he with
    | inl hold => exact ht.ended e hold id hcl
    | inr hnew => exact absurd (hev e hnew id hcl) hne

theorem retire_skip {c : Collector} {log : List Event} {k : UInt32} {g : Group} (hmid : Mid c)
    (ht : Traced c log) (hf : c.groups.find k = some g) :
    Traced (retire c k g.groupId) (log ++ [.retire k]) := by
  refine retire_traced (hmid k g hf).1 ht ?_ (by simp [Closes, eq_comm])
  exact ht.orderly.append (by simp [decoded]) (by simp) (by simp)

theorem retire_decode {c : Collector} {log : List Event} {k : UInt32} {g : Group} (hmid : Mid c)
    (ht : Traced c log) (hf : c.groups.find k = some g) {held : Nat} (hheld : FEC_K ≤ held)
    (passed : List ByteArray) :
    Traced (retire c k g.groupId) (log ++ [.decode k held passed, .retire k]) := by
  obtain ⟨hid, -, -, hmark⟩ := hmid k g hf
  have hopen := ht.open_of_mark (k := k) (by simp [hmark])
  refine retire_traced hid ht ?_ (by simp [Closes, eq_comm])
  have hdecode : Orderly (log ++ [.decode k held passed]) := by
    refine ht.orderly.append ?_ ?_ (by simp)
    · intro id hmem
      obtain rfl : k = id := Option.some.inj hmem
      exact decoded_closes hopen
    · rintro groupId held' passed' ⟨⟩
      exact hheld
  have hretire : Orderly (log ++ [.decode k held passed] ++ [.retire k]) :=
    hdecode.append (by simp [decoded]) (by simp) (by simp)
  rwa [List.append_assoc] at hretire

/-! ### The loops -/

/-- What both loops do: they retire groups one by one, each after decoding it or, if it has too
few packets, without. -/
inductive Retires : Collector → List Event → Collector → Prop where
  | done (c : Collector) : Retires c [] c
  | skip {c d : Collector} {k : UInt32} {g : Group} {events : List Event} :
      c.groups.find k = some g → g.packetList.size < FEC_K →
      Retires (retire c k g.groupId) events d → Retires c (.retire k :: events) d
  | decode {c d : Collector} {k : UInt32} {g : Group} {events : List Event} :
      c.groups.find k = some g → FEC_K ≤ g.packetList.size →
      Retires (retire c k g.groupId) events d →
      Retires c (.decode k g.packetList.size (firstArrays g) :: .retire k :: events) d

theorem Retires.good {c d : Collector} {log events : List Event} (h : Retires c events d)
    (hmid : Mid c) (ht : Traced c log) : Mid d ∧ Traced d (log ++ events) := by
  induction h generalizing log with
  | done c => exact ⟨hmid, by simpa using ht⟩
  | skip hf hfew hrest ih =>
    simpa using ih (retire_mid hmid hf) (retire_skip hmid ht hf)
  | decode hf hfull hrest ih =>
    simpa using ih (retire_mid hmid hf) (retire_decode hmid ht hf hfull _)

theorem Retires.trans {c d e : Collector} {events more : List Event} (h : Retires c events d)
    (h' : Retires d more e) : Retires c (events ++ more) e := by
  induction h with
  | done c => exact h'
  | skip hf hfew _ ih => exact .skip hf hfew (ih h')
  | decode hf hfull _ ih => exact .decode hf hfull (ih h')

/-- A group that is still there has not changed. -/
theorem find_of_retire {c : Collector} {k k' id : UInt32} {g : Group}
    (h : (retire c k' id).groups.find k = some g) : c.groups.find k = some g := by
  rw [find_retire] at h
  split at h
  · cases h
  · exact h

theorem Retires.find {c d : Collector} {events : List Event} (h : Retires c events d)
    {k : UInt32} {g : Group} (hf : d.groups.find k = some g) : c.groups.find k = some g := by
  induction h with
  | done c => exact hf
  | skip _ _ _ ih => exact find_of_retire (ih hf)
  | decode _ _ _ ih => exact find_of_retire (ih hf)

/-- The ids of the groups lie within `MAX_GROUPS` of each other. -/
def Span (c : Collector) : Prop :=
  ∀ k ∈ c.groups.keys, ∀ k' ∈ c.groups.keys, k'.toNat - k.toNat ≤ MAX_GROUPS

theorem span_of_diff {c : Collector} (hmid : Mid c) {first : UInt32 × Group}
    (hfirst : c.groups.first = some first) (h : (groupIdDiff c.groups).toNat ≤ MAX_GROUPS) :
    Span c := by
  intro k hk k' hk'
  obtain ⟨last, hlast⟩ : ∃ last, c.groups.last = some last := by
    rw [Map.last, ← Option.isSome_iff_exists, List.getLast?_isSome]
    exact List.ne_nil_of_mem (List.mem_of_head? hfirst)
  have hlow := UInt32.le_iff_toNat_le.mp (first_le hfirst (mem_keys.mp hk))
  have hhigh := UInt32.le_iff_toNat_le.mp (le_last hlast (mem_keys.mp hk'))
  have hends := first_le hfirst (mem_keys.mp hk')
  have hfl : first.1 ≤ last.1 := hends.trans (le_last hlast (mem_keys.mp hk'))
  simp only [groupIdDiff, hfirst, hlast, (hmid _ _ (find_first hfirst)).1,
    (hmid _ _ (find_last hlast)).1, UInt32.toNat_toUInt64, UInt32.toNat_sub_of_le _ _ hfl] at h
  omega

theorem span_mono {c d : Collector} (h : Span c)
    (hsub : ∀ k, (d.groups.find k).isSome → (c.groups.find k).isSome) : Span d :=
  fun k hk k' hk' => h k (mem_keys.mpr (hsub k (mem_keys.mp hk))) k'
    (mem_keys.mpr (hsub k' (mem_keys.mp hk')))

/-- The eviction ends with the groups within the window. -/
theorem evict_spec (turns : Nat) {c : Collector} (hmid : Mid c) :
    Retires c (evict turns c).2 (evict turns c).1 ∧
      (c.groups.size ≤ turns → Span (evict turns c).1) := by
  induction turns generalizing c with
  | zero =>
    refine ⟨.done c, fun hsize k hk => ?_⟩
    have hpos := Finset.card_pos.mpr ⟨k, List.mem_toFinset.mpr (show k ∈ c.groups.keys from hk)⟩
    rw [← size_eq_card] at hpos
    omega
  | succ turns ih =>
    rw [evict]
    cases hfirst : c.groups.first with
    | none =>
      refine ⟨.done c, fun _ k hk => ?_⟩
      have hnil : c.groups.keys = [] := by
        rw [Map.keys, List.head?_eq_none_iff.mp hfirst, List.map_nil]
      rw [hnil] at hk
      cases hk
    | some first =>
      obtain ⟨k, g⟩ := first
      have hf : c.groups.find k = some g := find_first hfirst
      have hid := (hmid k g hf).1
      by_cases hdiff : (groupIdDiff c.groups).toNat > MAX_GROUPS
      · have hless : (retire c k g.groupId).groups.size < c.groups.size :=
          size_erase_lt (Option.isSome_of_eq_some hf)
        obtain ⟨hrest, hspan⟩ := ih (retire_mid hmid hf)
        simp only [hdiff, if_true]
        by_cases hfull : FEC_K ≤ g.packetList.size
        · simp only [hfull, if_true, hid, decodeFecGroup_full hf hfull]
          rw [hid] at hrest hspan hless
          exact ⟨.decode hf hfull (hid.symm ▸ hrest), fun hsize => hspan (by omega)⟩
        · simp only [hfull, if_false, hid, List.nil_append]
          rw [hid] at hrest hspan hless
          exact ⟨.skip hf (Nat.lt_of_not_le hfull) (hid.symm ▸ hrest),
            fun hsize => hspan (by omega)⟩
      · simp only [hdiff, if_false]
        exact ⟨.done c, fun _ => span_of_diff hmid hfirst (by omega)⟩

/-- The sweep leaves no complete group among those it visits. -/
theorem sweep_spec (keys : List UInt32) {c : Collector} (hmid : Mid c) :
    Retires c (sweep keys c).2 (sweep keys c).1 ∧
      ∀ k g, (sweep keys c).1.groups.find k = some g → k ∈ keys → g.packetList.size ≠ FEC_N := by
  induction keys generalizing c with
  | nil => exact ⟨.done c, fun _ _ _ hk => by cases hk⟩
  | cons key rest ih =>
    rw [sweep]
    cases hf : c.groups.find key with
    | none =>
      obtain ⟨hrest, hkeep⟩ := ih hmid
      refine ⟨hrest, fun k g hk hmem => ?_⟩
      cases List.mem_cons.mp hmem with
      | inl heq =>
        have hold := hrest.find hk
        rw [heq, hf] at hold
        cases hold
      | inr hr => exact hkeep k g hk hr
    | some g =>
      have hid := (hmid key g hf).1
      by_cases hfull : g.packetList.size = FEC_N
      · have hmany : FEC_K ≤ g.packetList.size := Nat.le_of_eq hfull.symm
        obtain ⟨hrest, hkeep⟩ := ih (retire_mid hmid hf)
        rw [hid] at hrest hkeep
        simp only [if_pos hfull, hid, decodeFecGroup_full hf hmany]
        refine ⟨.decode hf hmany (hid.symm ▸ hrest), fun k g' hk hmem => ?_⟩
        cases List.mem_cons.mp hmem with
        | inl heq =>
          have hold := hrest.find hk
          rw [heq, find_retire, if_pos rfl] at hold
          cases hold
        | inr hr => exact hkeep k g' hk hr
      · obtain ⟨hrest, hkeep⟩ := ih hmid
        simp only [if_neg hfull]
        refine ⟨hrest, fun k g' hk hmem => ?_⟩
        cases List.mem_cons.mp hmem with
        | inl heq =>
          have hold := hrest.find hk
          rw [heq, hf] at hold
          exact Option.some.inj hold ▸ hfull
        | inr hr => exact hkeep k g' hk hr

/-! ### A call -/

/-- A packet is stored only for a group that is not marked. -/
theorem store_good {c : Collector} {log : List Event} (hw : Window c) (ht : Traced c log)
    {groupId : UInt32} (hm : c.groupMarks groupId ≠ some true) (seqNum : UInt32)
    (data : ByteArray) :
    Mid (store c groupId seqNum data) ∧
      Traced (store c groupId seqNum data) (log ++ [.store groupId seqNum]) := by
  have hopen := ht.open_of_mark hm
  refine ⟨?_, ?_, ?_⟩
  · intro k g hf
    rw [store, setMark, find_insert] at hf
    simp only [store, setMark]
    by_cases hk : k = groupId
    · subst hk
      rw [if_pos rfl] at hf
      obtain rfl := Option.some.inj hf
      simp only [if_true, and_true]
      have hgroup : ((c.groups.find k).getD ⟨k, .empty⟩).groupId = k ∧
          ((c.groups.find k).getD ⟨k, .empty⟩).packetList.size < FEC_N := by
        cases hold : c.groups.find k with
        | none => exact ⟨rfl, Nat.zero_lt_succ 7⟩
        | some g => exact ⟨(hw.group k g hold).1, (hw.group k g hold).2.2.1⟩
      refine ⟨hgroup.1, size_insert_pos _ _ _, ?_⟩
      exact (size_insert_le _ _ _).trans hgroup.2
    · rw [if_neg hk] at hf
      obtain ⟨hid, hone, hlt, hmark⟩ := hw.group k g hf
      rw [if_neg hk]
      exact ⟨hid, hone, hlt.le, hmark⟩
  · refine ht.orderly.append (by simp [decoded]) (by simp) ?_
    rintro id num ⟨⟩
    exact hopen
  · intro e he id hcl
    simp only [store, setMark]
    cases List.mem_append.mp he with
    | inl hold =>
      have hne : id ≠ groupId := fun heq => hopen e hold (heq ▸ hcl)
      rw [if_neg hne]
      exact ht.ended e hold id hcl
    | inr hnew =>
      obtain rfl := List.mem_singleton.mp hnew
      exact hcl.elim

theorem window_of_mid {c : Collector} (hmid : Mid c) (hspan : Span c)
    (hfew : ∀ k g, c.groups.find k = some g → g.packetList.size ≠ FEC_N) : Window c := by
  refine ⟨hspan, fun k g hf => ?_, fun k hm hk => ?_⟩
  · obtain ⟨hid, hone, hle, hmark⟩ := hmid k g hf
    exact ⟨hid, hone, Nat.lt_of_le_of_ne hle (hfew k g hf), hmark⟩
  · obtain ⟨g, hf⟩ := Option.isSome_iff_exists.mp (mem_keys.mp hk)
    have hmark := (hmid k g hf).2.2.2
    rw [hm] at hmark
    cases hmark

/-- A packet that is neither too old nor for a closed group is stored, and then groups are
retired until the window is in order. -/
theorem collect_accepted {c : Collector} {log : List Event} (hw : Window c) (ht : Traced c log)
    (header : TESTFECHeader) (data : ByteArray) (hs : stale c header.fecGroupId = false)
    (hm : c.groupMarks header.fecGroupId ≠ some true) :
    ∃ events d, collectPacket c header data =
        (d, .store header.fecGroupId header.fecIndex.toUInt32 :: events) ∧
      Retires (store c header.fecGroupId header.fecIndex.toUInt32 data) events d ∧ Window d := by
  obtain ⟨hmid, htr⟩ := store_good hw ht hm header.fecIndex.toUInt32 data
  simp only [collectPacket, hs, if_false, Bool.false_eq_true, hm]
  generalize store c header.fecGroupId header.fecIndex.toUInt32 data = stored at hmid htr
  obtain ⟨hevict, hspan⟩ := evict_spec stored.groups.size hmid
  obtain ⟨hmid', htr'⟩ := hevict.good hmid htr
  obtain ⟨hsweep, hkeep⟩ := sweep_spec (evict stored.groups.size stored).1.groups.keys hmid'
  have hmid'' := (hsweep.good hmid' htr').1
  refine ⟨_, _, rfl, hevict.trans hsweep, window_of_mid hmid'' ?_ fun k g hf => ?_⟩
  · refine span_mono (hspan le_rfl) fun k hk => ?_
    obtain ⟨g, hf⟩ := Option.isSome_iff_exists.mp hk
    exact Option.isSome_of_eq_some (hsweep.find hf)
  · exact hkeep k g hf (mem_keys.mpr (Option.isSome_of_eq_some (hsweep.find hf)))

/-- Any other packet changes nothing. -/
theorem collect_refused {c : Collector} (header : TESTFECHeader) (data : ByteArray)
    (h : stale c header.fecGroupId = true ∨ c.groupMarks header.fecGroupId = some true) :
    collectPacket c header data = (c, []) := by
  by_cases hs : stale c header.fecGroupId = true
  · simp only [collectPacket, hs, if_true]
  · simp only [collectPacket, hs, if_false, Bool.false_eq_true, h.resolve_left hs, if_true]

theorem collect_good {c : Collector} {log : List Event} (hw : Window c) (ht : Traced c log)
    (header : TESTFECHeader) (data : ByteArray) :
    Window (collectPacket c header data).1 ∧
      Traced (collectPacket c header data).1 (log ++ (collectPacket c header data).2) := by
  by_cases hr : stale c header.fecGroupId = true ∨ c.groupMarks header.fecGroupId = some true
  · rw [collect_refused header data hr, List.append_nil]
    exact ⟨hw, ht⟩
  · rw [not_or, Bool.not_eq_true] at hr
    obtain ⟨events, d, hcollect, hretires, hwindow⟩ := collect_accepted hw ht header data hr.1 hr.2
    obtain ⟨hmid, htr⟩ := store_good hw ht hr.2 header.fecIndex.toUInt32 data
    rw [hcollect]
    exact ⟨hwindow, by simpa using (hretires.good hmid htr).2⟩

theorem after_good (calls : List (TESTFECHeader × ByteArray)) :
    Window (after calls).1 ∧ Traced (after calls).1 (after calls).2 := by
  refine run_inv (I := fun (s : Collector × List Event) => Window s.1 ∧ Traced s.1 s.2)
    ⟨?_, ?_, ?_⟩ ?_ calls
  · exact ⟨by simp [initial, Map.keys, Map.empty], by simp [initial], by simp [initial]⟩
  · exact ⟨List.nodup_nil, by simp, List.Pairwise.nil⟩
  · simp
  · exact fun s call h => collect_good h.1 h.2 call.1 call.2

/-- After every sequence of calls the window is in order, every group was decoded at most once and
with enough packets, and nothing was stored for it afterwards. -/
theorem window_sound (calls : List (TESTFECHeader × ByteArray)) :
    Window (after calls).1 ∧ Orderly (after calls).2 :=
  ⟨(after_good calls).1, (after_good calls).2.orderly⟩

end FecCollect
