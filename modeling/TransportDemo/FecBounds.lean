import TransportDemo.FecVisit
import TransportDemo.NackPacket
import TransportDemo.StepTrace

/-!
# The buffers of `FECGenerator`

The generator has 128 buffers of 1300 bytes. Nothing relates them to what
`fec_new` accepts, to the packet size, to the 1308 bytes of a packet or to the
index and the length in a received header. An access outside the buffers is
`none`; a run stays inside exactly if every call meets a condition on the
state it is made in.
-/

namespace FecBounds

open CountedLoop FecField FecMatrix FecCode FecGenerator FecDecoder FecVisit StepTrace
open NackPacket (TESTTPPacket packingPacket UDP_PACKET_MAX_BYTES)

/-- `sizeof(TESTFECHeader)`. -/
def FEC_HEADER_BYTES : Nat := 28

/-- The calls of a generator. `Encode` gets a packet of `packing_packet`; `Decode` gets whatever
header was received and the rest of the receive buffer. -/
inductive Call where
  | encode (sequence : UInt16) (timestamp : UInt32) (fresh : TESTTPPacket)
  | decode (header : TESTFECHeader) (buf : Fin (UDP_PACKET_MAX_BYTES - FEC_HEADER_BYTES) → Gf)

/-- A byte as a field element. -/
def ofByte (b : UInt8) : Gf := b

/-- The `length()` bytes of a packet. -/
def packetBytes (pkt : TESTTPPacket) : List Gf :=
  (List.range pkt.length).map fun i => ofByte (pkt.byte i)

/-- The generator after a call, unless the call leaves the buffers. -/
def call (g : FECGenerator) : Call → Option FECGenerator
  | .encode sequence timestamp fresh => do
    let pkt ← packingPacket fresh sequence timestamp
    let (g, _) ← encode g (packetBytes pkt)
    return g
  | .decode header buf => do
    let (g, _) ← FecGenerator.decode g header (List.ofFn buf)
    return g

/-- The packets of its group that a header finds. -/
def found (g : FECGenerator) (header : TESTFECHeader) : Nat → Bool :=
  if header.fecGroupId ≠ g.lastGroupId then fun _ => false else g.usedMarks

/-- A source packet is missing and at least `k` packets of the group are there. -/
def Recovers (k n : Nat) (marks : Nat → Bool) : Prop :=
  (∃ i < k, marks i = false) ∧ k ≤ (present n marks).length

/-- `Encode` copies no packet and its redundant packets fit; `Decode` gets an index below 128, a
length up to 1300 if the packet is new, and recovers only if the packet size fits. -/
def Stays (k n : Nat) (g : FECGenerator) : Call → Prop
  | .encode _ _ _ => k ≤ g.packetCount ∧ (n = k ∨ n ≤ kMaxN ∧ sizeFits g.packetSize)
  | .decode header _ =>
    header.fecIndex.toNat < kMaxN ∧
      (found g header header.fecIndex.toNat = false → header.length.toNat ≤ maxFecPacketSize) ∧
      (sizeFits g.packetSize ∨
        ¬ Recovers k n (store (found g header) header.fecIndex.toNat true))

/-! ### Counting marks -/

section Count

variable {k n m : Nat} {marks : Nat → Bool}

theorem present_split (h : k ≤ n) :
    (present n marks).length = (present k marks).length + (redundant k n marks).length := by
  have hrange : List.range n = List.range k ++ List.range' k (n - k) := by
    have happ := List.range'_append_1 (s := 0) (m := k) (n := n - k)
    rw [Nat.zero_add, Nat.add_sub_cancel' h] at happ
    rw [List.range_eq_range', List.range_eq_range', happ]
  rw [present, hrange, List.filter_append, List.length_append]
  rfl

theorem present_le : (present k marks).length ≤ k :=
  (List.length_filter_le _ _).trans_eq List.length_range

/-- Enough redundant packets are there for the empty places exactly if `k` packets are. -/
theorem enough_iff (h : k ≤ n) :
    (missing k marks).length ≤ (redundant k n marks).length ↔ k ≤ (present n marks).length := by
  have := present_missing_length k marks
  have hsplit : (present n marks).length = (present k marks).length + (redundant k n marks).length :=
    present_split h
  omega

/-- A bound that all marks are below. -/
theorem present_le_of_low (h : ∀ i, m ≤ i → marks i = false) :
    (present n marks).length ≤ (present m marks).length := by
  refine (List.subperm_of_subset present_nodup fun i hi => ?_).length_le
  obtain ⟨-, hm⟩ := mem_present.mp hi
  refine mem_present.mpr ⟨?_, hm⟩
  by_contra hge
  rw [h i (by omega)] at hm
  cases hm

theorem missing_of_raw (h : (present k marks).length ≠ k) : ∃ i < k, marks i = false := by
  have hlen := present_missing_length k marks
  obtain ⟨i, hi⟩ := List.exists_mem_of_length_pos (l := missing k marks) (by
    have hle : (present k marks).length ≤ k := present_le
    omega)
  exact ⟨i, mem_missing.mp hi⟩

end Count

/-! ### The placement when `n` exceeds the arrays -/

/-- The search stops at the first marked packet, so it sees nothing beyond it. -/
theorem findRedundant_found {tempMarks : Nat → Bool} {fuel m j x : Nat} (hm : m ≤ fuel)
    (hin : j + m ≤ kMaxN) (h : ((List.range' j m).filter tempMarks).head? = some x) :
    findRedundant tempMarks fuel j = some (some x) := by
  induction m generalizing fuel j with
  | zero => simp at h
  | succ m ih =>
    obtain ⟨fuel, rfl⟩ : ∃ f, fuel = f + 1 := ⟨fuel - 1, by omega⟩
    rw [findRedundant, if_neg (by omega)]
    rw [List.range'_succ] at h
    cases hj : tempMarks j with
    | true => simpa [hj] using h
    | false => simpa using ih (by omega) (by omega) (by simpa [hj] using h)

/-- With enough packets below 128 the placement never looks at 128 or above. -/
theorem placeRedundant_wide {k n : Nat} {marks : Nat → Bool} (hn : kMaxN ≤ n) (hk : k ≤ kMaxN)
    (h : (missing k marks).length ≤ (redundant k kMaxN marks).length) :
    ∃ s, placeRedundant k n (placeSources k marks) = some s ∧ Filled k kMaxN marks k s := by
  refine loopOption_inv (Filled k kMaxN marks) k _ _ placeSources_filled fun t s ht hs => ?_
  have hmt : s.tempMarks t = marks t := by simp [hs.marked t ht]
  cases hm : marks t with
  | true =>
    rw [hmt, hm]
    exact ⟨s, rfl, hs.stay (.inl hm)⟩
  | false =>
    have hlt : rank marks t < (redundant k kMaxN marks).length := (rank_lt ht hm).trans_le h
    have hR := List.getElem?_eq_getElem hlt
    have hfind : findRedundant s.tempMarks (n - k) k = some (some _) :=
      findRedundant_found (m := kMaxN - k) (by omega) (by omega)
        (by rw [hs.left, List.head?_drop, hR])
    rw [hmt, hm, hfind]
    exact ⟨_, rfl, hs.take hk ht hm hR⟩

/-- The placement with at least `k` packets present, whatever `n` is. -/
theorem placement {k n : Nat} {marks : Nat → Bool} (hkn : k ≤ n)
    (hlow : ∀ i, kMaxN ≤ i → marks i = false) (hcount : k ≤ (present kMaxN marks).length) :
    ∃ s, placeRedundant k n (placeSources k marks) = some s ∧
      Filled k (min n kMaxN) marks k s ∧ k ≤ min n kMaxN ∧
      (present (min n kMaxN) marks).length = (present n marks).length := by
  have hk : k ≤ kMaxN := hcount.trans present_le
  rcases Nat.le_total n kMaxN with hn | hn
  · rw [Nat.min_eq_left hn]
    obtain ⟨s, hs, hf⟩ := placeRedundant_filled marks hn hkn
    exact ⟨s, hs, hf, hkn, rfl⟩
  · rw [Nat.min_eq_right hn]
    obtain ⟨s, hs, hf⟩ := placeRedundant_wide hn hk ((enough_iff hk).mpr hcount)
    refine ⟨s, hs, hf, hk, Nat.le_antisymm ?_ (present_le_of_low hlow)⟩
    exact present_le_of_low fun i hi => hlow i (hn.trans hi)

/-! ### The invariant -/

/-- The counters count the marks, or a recovery has been made and was within bounds. -/
structure Sound (k n : Nat) (sz : Int) (g : FECGenerator) : Prop where
  fecK : g.fecK = k
  fecN : g.fecN = n
  size : g.packetSize = sz
  low : ∀ i, kMaxN ≤ i → g.usedMarks i = false
  counts : g.packetCount = (present kMaxN g.usedMarks).length ∧
      g.rawPacketCount = (present k g.usedMarks).length ∨
    sizeFits sz = true ∧ k ≤ (present kMaxN g.usedMarks).length

variable {k n : Nat} {sz : Int} {g : FECGenerator}

theorem present_none (m : Nat) : present m (fun _ => false) = [] := by simp [present]

/-- A generator without marks. -/
theorem cleared_sound (hk : g.fecK = k) (hn : g.fecN = n) (hs : g.packetSize = sz)
    (hm : g.usedMarks = fun _ => false) (hc : g.packetCount = 0) (hr : g.rawPacketCount = 0) :
    Sound k n sz g := by
  refine ⟨hk, hn, hs, fun i _ => by rw [hm], .inl ?_⟩
  rw [hm, present_none, present_none, hc, hr]
  exact ⟨rfl, rfl⟩

theorem Sound.enter (h : Sound k n sz g) (header : TESTFECHeader) :
    Sound k n sz (enterGroup g header) ∧
      (enterGroup g header).usedMarks = found g header := by
  by_cases hsame : g.lastGroupId = header.fecGroupId
  · obtain ⟨last, he⟩ := enterGroup_same hsame
    rw [he, found, if_neg (by simp [hsame])]
    exact ⟨⟨h.fecK, h.fecN, h.size, h.low, h.counts⟩, rfl⟩
  · obtain ⟨last, he⟩ := enterGroup_other hsame
    rw [he, found, if_pos (Ne.symm hsame)]
    exact ⟨cleared_sound h.fecK h.fecN h.size rfl rfl rfl, rfl⟩

/-! ### The arrival -/

/-- The counters count the marks. -/
def Counts (k : Nat) (g : FECGenerator) : Prop :=
  g.packetCount = (present kMaxN g.usedMarks).length ∧
    g.rawPacketCount = (present k g.usedMarks).length

/-- A packet of a group that has it already leaves everything. -/
theorem arrive_marked {header : TESTFECHeader} {data : List Gf}
    (hi : header.fecIndex.toNat < kMaxN) (hm : g.usedMarks header.fecIndex.toNat = true) :
    arrive g header data = some (g, []) := by
  simp [arrive, hm, Nat.not_le.mpr hi]

/-- A packet that is new to its group and fits is marked and counted. -/
theorem arrive_new {header : TESTFECHeader} {data : List Gf} (hlen : maxFecPacketSize ≤ data.length)
    (hi : header.fecIndex.toNat < kMaxN) (hm : g.usedMarks header.fecIndex.toNat = false)
    (hl : header.length.toNat ≤ maxFecPacketSize) :
    ∃ g' out, arrive g header data = some (g', out) ∧ g'.fecK = g.fecK ∧ g'.fecN = g.fecN ∧
      g'.packetSize = g.packetSize ∧ g'.lastGroupId = g.lastGroupId ∧
      g'.usedMarks = store g.usedMarks header.fecIndex.toNat true ∧
      g'.packetCount = int16 (g.packetCount + 1) ∧
      g'.rawPacketCount = if (header.fecIndex.toNat : Int) < g.fecK then
        int16 (g.rawPacketCount + 1) else g.rawPacketCount := by
  have hfits : header.length.toNat ≤ maxFecPacketSize ∧ header.length.toNat ≤ data.length :=
    ⟨hl, hl.trans hlen⟩
  simp only [arrive, Nat.not_le.mpr hi, if_false, hm, if_true, hfits, and_self]
  split
  · exact ⟨_, _, rfl, rfl, rfl, rfl, rfl, rfl, rfl, rfl⟩
  · exact ⟨_, _, rfl, rfl, rfl, rfl, rfl, rfl, rfl, rfl⟩

/-- The counters stay right when a mark is set. -/
theorem counts_store {g' : FECGenerator} {i : Nat} (hk : g.fecK = k)
    (hlow : ∀ i, kMaxN ≤ i → g.usedMarks i = false) (hi : i < kMaxN) (hm : g.usedMarks i = false)
    (hmarks : g'.usedMarks = store g.usedMarks i true)
    (hcount : g'.packetCount = int16 (g.packetCount + 1))
    (hraw : g'.rawPacketCount =
      if (i : Int) < g.fecK then int16 (g.rawPacketCount + 1) else g.rawPacketCount)
    (h : Counts k g) : Counts k g' := by
  have hone : (present kMaxN (store g.usedMarks i true)).length =
      (present kMaxN g.usedMarks).length + 1 := (present_store hi hm).length_eq
  have hle : (present kMaxN (store g.usedMarks i true)).length ≤ 128 := present_le
  have hlow' : ∀ j, kMaxN ≤ j → store g.usedMarks i true j = false := fun j hj => by
    rw [store_other _ _ (by omega)]
    exact hlow j hj
  constructor
  · rw [hcount, h.1, hmarks, int16_of_small (by omega) (by omega), hone]
    rfl
  · rw [hraw, hmarks, hk]
    by_cases hik : i < k
    · have hsmall : (present k (store g.usedMarks i true)).length ≤ 128 :=
        (present_le_of_low hlow').trans hle
      have hcons := (present_store hik hm).length_eq
      rw [List.length_cons] at hcons
      have hcounted := h.2
      rw [if_pos (by omega), hcons, Nat.cast_succ, ← hcounted]
      exact int16_of_small (by omega) (by omega)
    · rw [if_neg (by omega), present_store_ge (by omega)]
      exact h.2

/-- A packet that arrives keeps the invariant, and it fails only outside the bounds. -/
theorem arrive_some (h : Sound k n sz g) (header : TESTFECHeader) {data : List Gf}
    (hlen : maxFecPacketSize ≤ data.length) (hi : header.fecIndex.toNat < kMaxN)
    (hl : g.usedMarks header.fecIndex.toNat = false → header.length.toNat ≤ maxFecPacketSize) :
    ∃ g' out, arrive g header data = some (g', out) ∧ Sound k n sz g' ∧
      g'.usedMarks = store g.usedMarks header.fecIndex.toNat true := by
  cases hm : g.usedMarks header.fecIndex.toNat with
  | true =>
    refine ⟨g, [], arrive_marked hi hm, h, ?_⟩
    funext j
    by_cases hj : j = header.fecIndex.toNat
    · subst hj; simp [hm]
    · rw [store_other _ _ hj]
  | false =>
    obtain ⟨g', out, harr, hk, hn, hs, -, hmarks, hcount, hraw⟩ := arrive_new hlen hi hm (hl hm)
    refine ⟨g', out, harr, ⟨hk.trans h.fecK, hn.trans h.fecN, hs.trans h.size, fun j hj => ?_, ?_⟩,
      hmarks⟩
    · rw [hmarks, store_other _ _ (by omega)]
      exact h.low j hj
    · rcases h.counts with hc | ⟨hsize, hmany⟩
      · exact .inl (counts_store h.fecK h.low hi hm hmarks hcount hraw hc)
      · have hone := (present_store hi hm).length_eq
        rw [List.length_cons] at hone
        exact .inr ⟨hsize, by rw [hmarks]; omega⟩

theorem arrive_none {header : TESTFECHeader} {data : List Gf}
    (h : ¬ (header.fecIndex.toNat < kMaxN ∧ (g.usedMarks header.fecIndex.toNat = false →
      header.length.toNat ≤ maxFecPacketSize))) : arrive g header data = none := by
  rw [arrive]
  by_cases hi : kMaxN ≤ header.fecIndex.toNat
  · rw [if_pos hi]
  · rw [if_neg hi]
    have hlong : g.usedMarks header.fecIndex.toNat = false ∧
        ¬ header.length.toNat ≤ maxFecPacketSize := by
      by_contra hno
      exact h ⟨by omega, fun hm => by_contra fun hl => hno ⟨hm, hl⟩⟩
    rw [if_pos hlong.1, if_neg fun hl => hlong.2 hl.1]

/-! ### The recovery -/

theorem deliver_frame (t : Nat) (d : Decoded) (g : FECGenerator) :
    (deliver t d g).1.fecK = g.fecK ∧ (deliver t d g).1.fecN = g.fecN ∧
      (deliver t d g).1.packetSize = g.packetSize ∧ (deliver t d g).1.usedMarks = g.usedMarks := by
  refine loop_inv (fun _ (s : FECGenerator × List Callback) => s.1.fecK = g.fecK ∧ s.1.fecN = g.fecN ∧
    s.1.packetSize = g.packetSize ∧ s.1.usedMarks = g.usedMarks) t _ _ ⟨rfl, rfl, rfl, rfl⟩ ?_
  intro i s _ hs
  split
  · exact hs
  · exact hs

/-- What keeps `recover` from decoding. -/
theorem recover_early (h : Sound k n sz g)
    (hearly : g.packetCount < k ∨ g.rawPacketCount = k) : recover g = some (g, []) := by
  rw [recover, h.fecK]
  by_cases hcount : g.packetCount < k
  · rw [if_pos hcount]
  · rw [if_neg hcount, if_pos (hearly.resolve_left hcount)]

/-- With enough packets `recover` places them and decodes if every place is taken. -/
theorem recover_placed (h : Sound k n sz g) (hkn : k ≤ n) (hcount : k ≤ g.packetCount)
    (hraw : g.rawPacketCount ≠ k) (hk : k ≤ (present kMaxN g.usedMarks).length) :
    ∃ s, Filled k (min n kMaxN) g.usedMarks k s ∧ k ≤ min n kMaxN ∧
      (present (min n kMaxN) g.usedMarks).length = (present n g.usedMarks).length ∧
      (incomplete k s = false ↔ k ≤ (present n g.usedMarks).length) ∧
      recover g = if incomplete k s then some (g, []) else
        if (List.range k).any (fun i => k ≤ s.recoveryIndex i) ∧ ¬ sizeFits g.packetSize then none
        else some (deliver k (fecDecode g.fec g.inputData (fun i => (s.recovery i).getD 0)
          s.recoveryIndex g.packetSize.toNat) g) := by
  obtain ⟨s, hs, hfilled, hkm, hlen⟩ := placement hkn h.low hk
  have hk128 : ¬ (kMaxN : Int) < g.fecK := by
    have : k ≤ kMaxN := hk.trans present_le
    rw [h.fecK]
    omega
  refine ⟨s, hfilled, hkm, hlen, ?_, ?_⟩
  · rw [hfilled.incomplete_iff, enough_iff hkm, hlen]
  · rw [recover, h.fecK, if_neg (by omega), if_neg hraw, if_neg (h.fecK ▸ hk128), h.fecN]
    simp [hs]

/-- Without redundant packets nothing is ever recovered. -/
theorem recover_same (h : Sound k k sz g) (hc : Counts k g) : recover g = some (g, []) := by
  by_cases hearly : g.packetCount < k ∨ g.rawPacketCount = k
  · exact recover_early h hearly
  rw [not_or] at hearly
  have hmany := hc.1
  obtain ⟨s, -, -, -, hinc, hstart⟩ :=
    recover_placed h le_rfl (by omega) hearly.2 (by omega)
  have hfew : ¬ k ≤ (present k g.usedMarks).length := by
    have hle : (present k g.usedMarks).length ≤ k := present_le
    have hraw := hc.2
    omega
  rw [hstart, if_pos (by rw [← Bool.not_eq_false, hinc]; exact hfew)]

/-- With enough packets `recover` decodes exactly if the packet size fits or no redundant packet
is needed, and then the invariant holds because the size fits. -/
theorem recover_late (h : Sound k n sz g) (hkn : k ≤ n) (hcount : k ≤ g.packetCount)
    (hraw : g.rawPacketCount ≠ k) (hk : k ≤ (present kMaxN g.usedMarks).length) :
    ((recover g).isSome ↔ sizeFits sz = true ∨ ¬ Recovers k n g.usedMarks) ∧
      ∀ g' out, recover g = some (g', out) → Sound k n sz g' := by
  obtain ⟨s, hfilled, hkm, hlen, hinc, hstart⟩ := recover_placed h hkn hcount hraw hk
  by_cases henough : k ≤ (present n g.usedMarks).length
  · have hneeds : (List.range k).any (fun i => k ≤ s.recoveryIndex i) = true ↔
        ∃ i < k, g.usedMarks i = false := by
      have hle := (enough_iff hkm).mpr (henough.trans_eq hlen.symm)
      simp only [List.any_eq_true, List.mem_range, decide_eq_true_eq]
      constructor
      · rintro ⟨i, hi, hki⟩
        refine ⟨i, hi, ?_⟩
        by_contra hm
        rw [(hfilled.slots hle hi).2, slotOf_marked (by simpa using hm)] at hki
        omega
      · rintro ⟨i, hi, hm⟩
        refine ⟨i, hi, ?_⟩
        rw [(hfilled.slots hle hi).2]
        exact ((mem_redundant hkm).mp (slotOf_mem hle hi hm)).1
    rw [hstart, if_neg (by simpa using hinc.mpr henough), h.size]
    simp only [hneeds]
    have hrec : Recovers k n g.usedMarks ↔ ∃ i < k, g.usedMarks i = false :=
      and_iff_left henough
    by_cases hfit : sizeFits sz = true
    · rw [if_neg fun hbad => hbad.2 hfit]
      refine ⟨iff_of_true rfl (.inl hfit), fun g' out hg => ?_⟩
      obtain ⟨hfk, hfn, hps, hum⟩ := deliver_frame k (fecDecode g.fec g.inputData
        (fun i => (s.recovery i).getD 0) s.recoveryIndex sz.toNat) g
      rw [Option.some.inj hg] at hfk hfn hps hum
      exact ⟨hfk.trans h.fecK, hfn.trans h.fecN, hps.trans h.size, hum ▸ h.low,
        .inr ⟨hfit, hum ▸ hk⟩⟩
    · rcases h.counts with hc | hc
      · have hmiss : ∃ i < k, g.usedMarks i = false := missing_of_raw fun heq =>
          hraw (by rw [hc.2, heq])
        rw [if_pos ⟨hmiss, hfit⟩, hrec]
        exact ⟨iff_of_false (by simp) (by simp [hfit, hmiss]), by rintro _ _ ⟨⟩⟩
      · exact absurd hc.1 hfit
  · rw [hstart, if_pos (by rw [← Bool.not_eq_false, hinc]; exact henough)]
    refine ⟨iff_of_true rfl (.inr fun hr => henough hr.2), ?_⟩
    rintro g' out ⟨⟩
    exact h

theorem recover_iff (h : Sound k n sz g) (hkn : k ≤ n) :
    ((recover g).isSome ↔ sizeFits sz = true ∨ ¬ Recovers k n g.usedMarks) ∧
      ∀ g' out, recover g = some (g', out) → Sound k n sz g' := by
  by_cases hearly : g.packetCount < k ∨ g.rawPacketCount = k
  · rw [recover_early h hearly]
    refine ⟨iff_of_true rfl ?_, ?_⟩
    · rcases h.counts with hc | hc
      · refine .inr fun hr => ?_
        rcases hearly with hfew | hraw
        · -- the counter counts the marks below 128, and there are no others
          have := hr.2.trans (present_le_of_low h.low)
          omega
        · obtain ⟨i, hi, hm⟩ := hr.1
          have hmiss := present_missing_length k g.usedMarks
          have hpos := List.length_pos_of_mem (mem_missing.mpr ⟨hi, hm⟩)
          have := hc.2
          omega
      · exact .inl hc.1
    · rintro g' out ⟨⟩
      exact h
  · rw [not_or] at hearly
    refine recover_late h hkn (by omega) hearly.2 ?_
    rcases h.counts with hc | hc
    · omega
    · exact hc.2

/-! ### The calls -/

theorem decode_iff (h : Sound k n sz g) (hkn : k ≤ n) (header : TESTFECHeader)
    (buf : Fin (UDP_PACKET_MAX_BYTES - FEC_HEADER_BYTES) → Gf) :
    ((call g (.decode header buf)).isSome ↔ Stays k n g (.decode header buf)) ∧
      ∀ g', call g (.decode header buf) = some g' → Sound k n sz g' := by
  obtain ⟨hs, hmarks⟩ := h.enter header
  by_cases hb : header.fecIndex.toNat < kMaxN ∧ (found g header header.fecIndex.toNat = false →
      header.length.toNat ≤ maxFecPacketSize)
  · obtain ⟨g₁, out, harr, hs₁, hm₁⟩ := arrive_some hs header
      (show maxFecPacketSize ≤ (List.ofFn buf).length by rw [List.length_ofFn]; decide) hb.1
      (hmarks ▸ hb.2)
    obtain ⟨hsome, hkeep⟩ := recover_iff hs₁ hkn
    rw [hmarks] at hm₁
    rw [hm₁] at hsome
    have hcall : call g (.decode header buf) = (recover g₁).map Prod.fst := by
      simp only [call, FecGenerator.decode, harr, Option.bind_eq_bind, Option.bind_some]
      cases recover g₁ <;> rfl
    rw [hcall, Option.isSome_map, hsome]
    refine ⟨?_, fun g' hg => ?_⟩
    · simp only [Stays, h.size]
      tauto
    · obtain ⟨⟨g₂, out'⟩, hrec, rfl⟩ := Option.map_eq_some_iff.mp hg
      exact hkeep g₂ out' hrec
  · have hnone : call g (.decode header buf) = none := by
      simp only [call, FecGenerator.decode, arrive_none (hmarks ▸ hb), Option.bind_eq_bind,
        Option.bind_none]
    rw [hnone]
    refine ⟨iff_of_false (by simp) fun hst => hb ⟨hst.1, hst.2.1⟩, ?_⟩
    rintro g' ⟨⟩

/-- The redundant packets fail at the first buffer that is not there, or at once if the packet
size does not fit. -/
theorem redundant_loop (m : Nat) (s : FECGenerator × List Callback) :
    ((loopOption m (fun i => encodeRedundant (k + i)) s).isSome ↔
      m = 0 ∨ k + m ≤ kMaxN ∧ sizeFits s.1.packetSize = true) ∧
    ∀ s', loopOption m (fun i => encodeRedundant (k + i)) s = some s' →
      s'.1.fecK = s.1.fecK ∧ s'.1.fecN = s.1.fecN ∧ s'.1.packetSize = s.1.packetSize := by
  induction m with
  | zero =>
    refine ⟨iff_of_true rfl (.inl rfl), ?_⟩
    rintro s' ⟨⟩
    exact ⟨rfl, rfl, rfl⟩
  | succ m ih =>
    rw [loopOption]
    cases hm : loopOption m (fun i => encodeRedundant (k + i)) s with
    | none =>
      refine ⟨iff_of_false (by simp) ?_, by simp⟩
      rintro (hz | ⟨hk, hfit⟩)
      · cases hz
      · have hsome := ih.1.mpr (.inr ⟨by omega, hfit⟩)
        rw [hm] at hsome
        cases hsome
    | some t =>
      obtain ⟨hfk, hfn, hps⟩ := ih.2 t hm
      by_cases hb : k + m < kMaxN ∧ sizeFits t.1.packetSize = true
      · simp only [Option.bind_some, encodeRedundant, hb, and_self, if_true]
        refine ⟨iff_of_true rfl (.inr ⟨by omega, hps ▸ hb.2⟩), ?_⟩
        rintro s' ⟨⟩
        exact ⟨hfk, hfn, hps⟩
      · simp only [Option.bind_some, encodeRedundant, hb, if_false]
        refine ⟨iff_of_false (by simp) ?_, by simp⟩
        rintro (hz | ⟨hk, hfit⟩)
        · cases hz
        · exact hb ⟨by omega, hps ▸ hfit⟩

theorem encode_iff (h : Sound k n sz g) (hkn : k ≤ n) (sequence : UInt16) (timestamp : UInt32)
    (fresh : TESTTPPacket) :
    ((call g (.encode sequence timestamp fresh)).isSome ↔
      Stays k n g (.encode sequence timestamp fresh)) ∧
      ∀ g', call g (.encode sequence timestamp fresh) = some g' → Sound k n sz g' := by
  obtain ⟨pkt, hpkt, -⟩ := NackPacket.packingPacket_spec fresh sequence timestamp
  have hlen : (packetBytes pkt).length = 1308 := by
    rw [packetBytes, List.length_map, List.length_range, NackPacket.packingPacket_length hpkt]
    rfl
  have hcall : call g (.encode sequence timestamp fresh) =
      (encode g (packetBytes pkt)).map Prod.fst := by
    simp only [call, hpkt, Option.bind_eq_bind, Option.bind_some]
    cases encode g (packetBytes pkt) <;> rfl
  rw [hcall, Option.isSome_map]
  by_cases hfew : g.packetCount < g.fecK
  · -- the 1308 bytes of the packet do not fit
    have hnone : encode g (packetBytes pkt) = none := by
      rw [encode, if_pos hfew, encodeSource, if_neg (by simp [hlen, maxFecPacketSize])]
      rfl
    have hless : g.packetCount < k := h.fecK ▸ hfew
    rw [hnone]
    exact ⟨iff_of_false (by simp) fun hst => absurd hst.1 (by omega), by simp⟩
  · have hmany : (k : Int) ≤ g.packetCount := by
      rw [h.fecK] at hfew
      omega
    obtain ⟨hsome, hframe⟩ := redundant_loop (k := k) (n - k) (g, [])
    have hencode : encode g (packetBytes pkt) =
        (loopOption (n - k) (fun i => encodeRedundant (k + i)) (g, [])).map fun s =>
          (clear { s.1 with lastGroupId := s.1.lastGroupId + 1 }, s.2) := by
      have hnot : ¬ g.packetCount < (k : Int) := by omega
      rw [encode, if_neg hfew]
      simp only [Option.bind_eq_bind, Option.bind_some, h.fecK, h.fecN, hnot, if_false,
        Int.toNat_natCast]
      cases loopOption (n - k) (fun i => encodeRedundant (k + i)) (g, []) <;> rfl
    rw [hencode, Option.isSome_map, hsome]
    constructor
    · have hgap : n - k = 0 ↔ n = k := by omega
      have htop : k + (n - k) = n := by omega
      simp only [Stays, hmany, true_and, hgap, htop]
    · intro g' hg'
      rw [Option.map_map] at hg'
      obtain ⟨s, hs, rfl⟩ := Option.map_eq_some_iff.mp hg'
      obtain ⟨hfk, hfn, hps⟩ := hframe s hs
      exact cleared_sound (hfk.trans h.fecK) (hfn.trans h.fecN) (hps.trans h.size) rfl rfl rfl

theorem call_iff (h : Sound k n sz g) (hkn : k ≤ n) (c : Call) :
    ((call g c).isSome ↔ Stays k n g c) ∧ ∀ g', call g c = some g' → Sound k n sz g' := by
  cases c with
  | encode sequence timestamp fresh => exact encode_iff h hkn sequence timestamp fresh
  | decode header buf => exact decode_iff h hkn header buf

/-! ### Runs -/

/-- The constructor succeeds for `k` up to `n` up to 256. -/
theorem new_sound {input output : Nat → Nat → Gf} {packetSize : Int}
    (h : new input output k n packetSize = some g) :
    k ≤ n ∧ Sound k n (int16 packetSize) g := by
  obtain ⟨fec, hfec, rfl⟩ := Option.map_eq_some_iff.mp h
  have hbound : ¬ (gfSize + 1 < k ∨ gfSize + 1 < n ∨ n < k) := fun hbad => by
    rw [fecNew, if_pos hbad] at hfec
    cases hfec
  have hgf : gfSize = 255 := rfl
  have hk : int16 (k : Int) = k := int16_of_small (by omega) (by omega)
  have hn : int16 (n : Int) = n := int16_of_small (by omega) (by omega)
  rw [hk, hn]
  exact ⟨by omega, cleared_sound rfl rfl rfl rfl rfl rfl⟩

/-- For all parameters that the constructor accepts, a run of calls stays inside the buffers
exactly if every call meets the condition on the state it is made in. -/
theorem inside_iff {input output : Nat → Nat → Gf} {packetSize : Int}
    (h : new input output k n packetSize = some g) (calls : List Call) :
    (runOption call g calls).isSome ↔
      ∀ done c, done ++ [c] <+: calls →
        ∀ g', runOption call g done = some g' → Stays k n g' c :=
  have hnew := new_sound h
  runOption_isSome_iff hnew.2 (fun _ c g' hs hg' => (call_iff hs hnew.1 c).2 g' hg')
    (fun _ c hs => (call_iff hs hnew.1 c).1) calls

/-- 8 source packets, no redundant ones, 10 bytes. -/
def demoSetup : Setup := ⟨8, 8, 10, by decide, by decide, by decide, by decide, by decide⟩

/-- A header of group 0 with index 200. -/
def farHeader : TESTFECHeader := ⟨10, 8, 8, 200, 0, 10⟩

theorem inside_iff_of_eight : ∃ g, new (fun _ _ => 0) (fun _ _ => 0) 8 8 10 = some g ∧
    ((runOption call g [.decode farHeader fun _ => 0]).isSome ↔
      ∀ done c, done ++ [c] <+: [.decode farHeader fun _ => 0] →
        ∀ g', runOption call g done = some g' → Stays 8 8 g' c) := by
  obtain ⟨g, hg, -⟩ := new_runs demoSetup (fun _ _ => 0) fun _ _ => 0
  exact ⟨g, hg, inside_iff hg _⟩

/-- The first packet that a sender encodes is copied past the end of its buffer. -/
theorem encode_overflows {input output : Nat → Nat → Gf} {packetSize : Int}
    (h : new input output k n packetSize = some g) (hk : 0 < k) (sequence : UInt16)
    (timestamp : UInt32) (fresh : TESTTPPacket) :
    call g (.encode sequence timestamp fresh) = none := by
  obtain ⟨hkn, hs⟩ := new_sound h
  have hzero : g.packetCount = 0 := by
    obtain ⟨fec, -, rfl⟩ := Option.map_eq_some_iff.mp h
    rfl
  rw [← Option.not_isSome_iff_eq_none, (encode_iff hs hkn sequence timestamp fresh).1]
  intro hst
  have hle := hst.1
  omega

/-- Already the demo's own parameters overflow. -/
theorem first_encode_overflows : ¬ ∀ k n packetSize g calls,
    new (fun _ _ => 0) (fun _ _ => 0) k n packetSize = some g → (runOption call g calls).isSome := by
  intro h
  obtain ⟨g, hg, -⟩ := new_runs demoSetup (fun _ _ => 0) fun _ _ => 0
  have hrun := h 8 8 10 g [.encode 1 0 ⟨fun _ => 0, 0⟩] hg
  have hnone : runOption call g [.encode 1 0 ⟨fun _ => 0, 0⟩] = none :=
    encode_overflows hg (by decide) 1 0 ⟨fun _ => 0, 0⟩
  rw [hnone] at hrun
  cases hrun

end FecBounds
