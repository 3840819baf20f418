import TransportDemo.FlexfecGenerator
import TransportDemo.FlexfecSession

/-!
# A stream of media packets

Media packets numbered one after the other go through the generator. What
waits there is always a part of the stream without holes, so the FEC packets
made of it are genuine and together protect all of it: a receiver that gets
them recovers whatever single packet is lost.
-/

namespace FlexfecStream

open ByteBuffer FlexfecDecoder FlexfecPacket FlexfecEncoder FlexfecParity FlexfecMaskTable
  FlexfecMaskColumns FlexfecBlock FlexfecGenerator UlpfecGenerator FlexfecSearch FlexfecSession

variable {ssrc : UInt32}

/-- One number after the other. -/
def Numbered (media : List (Media ssrc)) : Prop :=
  media.IsChain fun m m' => m'.seqNum = m.seqNum + 1

theorem Numbered.of_part {media block : List (Media ssrc)} (h : Numbered media)
    (hpart : block <:+: media) : Numbered block :=
  List.IsChain.infix h hpart

theorem seqNum_of_numbered {front : Media ssrc} {rest : List (Media ssrc)}
    (h : Numbered (front :: rest)) {i : Nat} (hi : i < (front :: rest).length) :
    (front :: rest)[i].seqNum = front.seqNum + UInt16.ofNat i := by
  induction rest generalizing front i with
  | nil =>
    obtain rfl : i = 0 := by simpa using hi
    exact (UInt16.add_zero _).symm
  | cons next rest ih =>
    obtain ⟨hnext, hrest⟩ := List.isChain_cons_cons.mp h
    cases i with
    | zero => exact (UInt16.add_zero _).symm
    | succ i =>
      rw [List.getElem_cons_succ, ih hrest (by simpa using hi), hnext, UInt16.add_assoc,
        UInt16.add_comm 1, UInt16.ofNat_add]
      rfl

theorem offsets_eq_range {block : List (Media ssrc)} (h : Numbered block)
    (hlen : block.length ≤ 48) : offsets block = List.range block.length := by
  refine List.ext_getElem (by rw [length_offsets, List.length_range]) fun i hi _ => ?_
  rw [length_offsets] at hi
  rw [getElem_offsets block hi, List.getElem_range]
  cases block with
  | nil => cases hi
  | cons front rest =>
    rw [seqNum_of_numbered h hi, baseOf_cons, offset, UInt16.add_comm, UInt16.add_sub_cancel,
      UInt16.toNat_ofNat_of_lt' (show i < 65536 by omega)]

theorem ordered_of_numbered {block : List (Media ssrc)} (h : Numbered block) (hne : block ≠ [])
    (hlen : block.length ≤ 48) : Ordered block where
  nonempty := hne
  ascending := by
    rw [offsets_eq_range h hlen]
    exact List.pairwise_lt_range
  span m hm := by
    have hoffset : offset (baseOf block) m.seqNum ∈ offsets block := List.mem_map_of_mem hm
    rw [offsets_eq_range h hlen, List.mem_range] at hoffset
    omega

/-- Genuine FEC packets for the block, that leave no packet of it out. -/
structure Protects (block : List (Media ssrc)) (parities : List (Parity ssrc)) : Prop where
  block_eq : ∀ d ∈ parities, d.block = block
  length : parities.length ≤ block.length
  covers : ∀ m ∈ block, ∃ d ∈ parities, m ∈ d.protectedMedia

/-- Of the media packets given so far the generator holds `block`: the last ones, or as many as
there is room for. -/
structure Waits (media block : List (Media ssrc)) (g : UlpfecGenerator) : Prop where
  part : block <:+: media
  recent : block <:+ media ∨ block.length = kUlpfecMaxMediaPackets
  room : block.length ≤ kUlpfecMaxMediaPackets
  packets : g.mediaPackets = block.map Media.packet
  made : g.generatedFecPackets ≠ [] → ∃ parities, g.generatedFecPackets = parities.map Parity.packet ∧
    Protects block parities

variable {media block : List (Media ssrc)} {g g' : UlpfecGenerator}

theorem waits_nil (hmedia : g.mediaPackets = []) (hnone : g.generatedFecPackets = []) :
    Waits media [] g where
  part := List.nil_infix
  recent := .inl List.nil_suffix
  room := Nat.zero_le _
  packets := hmedia
  made hmade := absurd hnone hmade

/-- The block with the next packet, if there is room. -/
def extend (block : List (Media ssrc)) (m : Media ssrc) : List (Media ssrc) :=
  if block.length < kUlpfecMaxMediaPackets then block ++ [m] else block

theorem extend_ne_nil (m : Media ssrc) : extend block m ≠ [] := by
  rw [extend]
  split
  · exact List.append_ne_nil_of_right_ne_nil _ (List.cons_ne_nil _ _)
  · next hfull =>
    rintro rfl
    exact hfull (Nat.succ_pos 47)

theorem Waits.keep (h : Waits media block g) (hnone : g.generatedFecPackets = []) (m : Media ssrc) :
    Waits (media ++ [m]) (extend block m) (g.keep m.packet) := by
  have hpackets := h.packets
  rw [extend, UlpfecGenerator.keep, hpackets, List.length_map]
  split
  · next hroom =>
    have hsuffix := h.recent.resolve_right (by omega)
    have hsuffix : block ++ [m] <:+ media ++ [m] := by
      obtain ⟨before, rfl⟩ := hsuffix
      exact ⟨before, (List.append_assoc _ _ _).symm⟩
    refine ⟨hsuffix.isInfix, .inl hsuffix, ?_, ?_, fun hmade => absurd hnone hmade⟩
    · rw [List.length_append, List.length_singleton]
      omega
    · simp
  · next hfull =>
    exact ⟨h.part.trans (List.prefix_append _ _).isInfix,
      .inr (Nat.le_antisymm h.room (Nat.le_of_not_lt hfull)), h.room, hpackets,
      fun hmade => absurd hnone hmade⟩

theorem Waits.latchParams (h : Waits media block g) : Waits media block g.latchParams := by
  rw [UlpfecGenerator.latchParams]
  split
  · exact ⟨h.part, h.recent, h.room, h.packets, h.made⟩
  · exact h

/-- FEC packets for a block without holes. -/
theorem Waits.generate (h : Waits media block g) (hnums : Numbered media) (hne : block ≠ []) :
    ∃ g', g.generate = some (0, g') ∧ ∃ block', Waits media block' g' := by
  have hordered := ordered_of_numbered (hnums.of_part h.part) hne h.room
  obtain ⟨parities, hencode, hlength, hblock, hcovers⟩ := encodeFec_parities block hordered
    g.params.fecRate 0 (Nat.zero_le _) false g.params.fecMaskType
  rw [UlpfecGenerator.generate, h.packets, hencode, Option.map_some]
  by_cases hempty : (parities.map Parity.packet).isEmpty = true
  · exact ⟨g.resetState, by simp only [hempty, if_true], [], waits_nil rfl rfl⟩
  · have hrate : g.params.fecRate ≠ 0 := by
      intro hrate
      rw [hrate] at hlength
      rw [List.length_eq_zero_iff.mp (hlength.trans (numFecPackets_eq_zero_iff.mpr rfl))] at hempty
      exact hempty rfl
    refine ⟨_, by simp only [hempty, Bool.false_eq_true, if_false]; rfl, block,
      h.part, h.recent, h.room, rfl, fun _ => ⟨parities, rfl, hblock, ?_, hcovers hrate⟩⟩
    rw [hlength]
    exact (numFecPackets_le block.length g.params.fecRate).resolve_right (by
      have hpos := List.length_pos_of_ne_nil hne
      omega)

/-- The next packet of the stream is taken, and what waits is again a part of the stream. -/
theorem Waits.add (h : Waits media block g) {m : Media ssrc} (hnums : Numbered (media ++ [m]))
    {p : Buffered} (hp : p.packet = m.packet)
    (hnone : g.generatedFecPackets = [])
    (hshort : ¬ (g.mediaPackets.length < kUlpfecMaxMediaPackets ∧
      IP_PACKET_SIZE < p.payloadLength + p.rtpHeaderLength)) :
    ∃ g', g.addRtpPacketAndGenerateFec p = some (0, g') ∧
      ∃ block', Waits (media ++ [m]) block' g' := by
  have hkeep := h.latchParams.keep (by rwa [generatedFecPackets_latchParams]) m
  rw [add_of_fits hnone hshort (hp ▸ rfl : g.latchParams.keep m.packet = _)]
  have hcomplete : Waits (media ++ [m]) (extend block m)
      (g.latchParams.keep m.packet).completeFrame :=
    ⟨hkeep.part, hkeep.recent, hkeep.room, hkeep.packets, hkeep.made⟩
  split
  · split
    · exact hcomplete.generate hnums (extend_ne_nil m)
    · exact ⟨_, rfl, _, hcomplete⟩
  · exact ⟨_, rfl, _, hkeep⟩

/-! ### Runs -/

/-- The packets given in a run. -/
def packetsOf (calls : List Call) : List Packet :=
  calls.filterMap fun
    | .addRtpPacketAndGenerateFec p => some p.packet
    | _ => none

/-- The packets of the stream are given one after the other, between other calls. -/
structure Gives (media : List (Media ssrc)) (calls : List Call) : Prop where
  numbered : Numbered media
  packets : packetsOf calls = media.map Media.packet

theorem Gives.split {calls : List Call} {p : Buffered}
    (h : Gives media (calls ++ [.addRtpPacketAndGenerateFec p])) :
    ∃ before m, media = before ++ [m] ∧ p.packet = m.packet ∧ Gives before calls := by
  have hpackets := h.packets
  rw [packetsOf, List.filterMap_append] at hpackets
  obtain ⟨before, last, rfl, hbefore, hlast⟩ := List.map_eq_append_iff.mp hpackets.symm
  obtain ⟨m, rfl, hm⟩ := List.map_eq_singleton_iff.mp hlast
  exact ⟨before, m, rfl, hm.symm, h.numbered.left_of_append, hbefore.symm⟩

theorem Gives.other {calls : List Call} {c : Call} (h : Gives media (calls ++ [c]))
    (hc : ∀ p, c ≠ .addRtpPacketAndGenerateFec p) : Gives media calls := by
  refine ⟨h.numbered, ?_⟩
  rw [← h.packets, packetsOf, packetsOf, List.filterMap_append]
  cases c with
  | addRtpPacketAndGenerateFec p => exact absurd rfl (hc p)
  | setFecParameters params => exact (List.append_nil _).symm
  | getFecPackets => exact (List.append_nil _).symm

theorem waits_run (calls : List Call) (hgives : Gives media calls) (hrun : run calls = some g) :
    ∃ block, Waits media block g := by
  induction calls using List.reverseRecOn generalizing media g with
  | nil =>
    obtain rfl := Option.some.inj hrun
    exact ⟨[], waits_nil rfl rfl⟩
  | append_singleton calls c ih =>
    rw [run, StepTrace.runOption_concat] at hrun
    obtain ⟨g₀, hrun₀, hstep⟩ := Option.bind_eq_some_iff.mp hrun
    cases c with
    | setFecParameters params =>
      obtain rfl := Option.some.inj hstep
      obtain ⟨block, h⟩ := ih (hgives.other fun _ => nofun) hrun₀
      exact ⟨block, h.part, h.recent, h.room, h.packets, h.made⟩
    | getFecPackets =>
      obtain rfl := Option.some.inj hstep
      exact ⟨[], waits_nil rfl rfl⟩
    | addRtpPacketAndGenerateFec p =>
      obtain ⟨⟨ret, g'⟩, hadd, rfl⟩ := Option.map_eq_some_iff.mp hstep
      obtain ⟨before, m, rfl, hp, hbefore⟩ := hgives.split
      obtain ⟨block, h⟩ := ih hbefore hrun₀
      obtain ⟨hnone, hshort⟩ := add_guards hadd
      obtain ⟨g'', hadd', hwaits⟩ := h.add hgives.numbered hp hnone hshort
      obtain rfl := congrArg Prod.snd (Option.some.inj (hadd.symm.trans hadd'))
      exact hwaits

/-- While the FEC packets are fetched before the next packet is given, every packet of the stream
is taken, and FEC packets are genuine, made of a part of the stream, and protect all of it. -/
theorem run_genuine (ssrc : UInt32) (media : List (Media ssrc)) (calls : List Call)
    (hgives : Gives media calls) (g : UlpfecGenerator) (hrun : run calls = some g) :
    (∃ block, block <:+: media ∧ (block <:+ media ∨ block.length = kUlpfecMaxMediaPackets) ∧
      g.mediaPackets = block.map Media.packet ∧
      (g.generatedFecPackets ≠ [] → ∃ parities,
        g.generatedFecPackets = parities.map Parity.packet ∧ Protects block parities)) ∧
    ∀ (m : Media ssrc) (p : Buffered), Numbered (media ++ [m]) → p.packet = m.packet → p.Fits →
      g.generatedFecPackets = [] → ∃ g', g.addRtpPacketAndGenerateFec p = some (0, g') := by
  obtain ⟨block, h⟩ := waits_run calls hgives hrun
  refine ⟨⟨block, h.part, h.recent, h.packets, h.made⟩, fun m p hnums hp hfits hnone => ?_⟩
  obtain ⟨g', hadd, -⟩ := h.add hnums hp hnone fun hlong => absurd hfits.short (by omega)
  exact ⟨g', hadd⟩

/-! ### A block at the receiver -/

/-- The FEC packets under consecutive numbers. -/
def numberedFec (first : UInt16) (parities : List (Parity ssrc)) : List (UInt16 × Parity ssrc) :=
  parities.mapIdx fun i d => (first + UInt16.ofNat i, d)

theorem mem_numberedFec {first : UInt16} {parities : List (Parity ssrc)}
    {f : UInt16 × Parity ssrc} (hf : f ∈ numberedFec first parities) :
    ∃ i, i < parities.length ∧ f.1 = first + UInt16.ofNat i ∧ f.2 ∈ parities := by
  obtain ⟨i, hi, rfl⟩ := List.mem_mapIdx.mp hf
  exact ⟨i, hi, rfl, List.getElem_mem hi⟩

theorem minDiff_lt {base a b : UInt16} {n : Nat} (ha : offset base a < n) (hb : offset base b < n)
    (hn : n ≤ 0x8000) : (minDiff a b).toNat < n := by
  have ha' := a.toNat_lt
  have hb' := b.toNat_lt
  have hbase := base.toNat_lt
  simp only [offset, UInt16.toNat_sub] at ha hb
  have hcases : minDiff a b = b - a ∧ (b - a).toNat ≤ (a - b).toNat ∨
      minDiff a b = a - b ∧ (a - b).toNat ≤ (b - a).toNat := by
    rw [minDiff]
    by_cases hle : b - a ≤ a - b
    · exact .inl ⟨if_pos hle, hle⟩
    · refine .inr ⟨if_neg hle, ?_⟩
      rw [UInt16.le_iff_toNat_le] at hle
      omega
  rcases hcases with ⟨heq, hle⟩ | ⟨heq, hle⟩
  · rw [heq]
    simp only [UInt16.toNat_sub] at hle ⊢
    omega
  · rw [heq]
    simp only [UInt16.toNat_sub] at hle ⊢
    omega

theorem offsets_numberedFec (first : UInt16) {parities : List (Parity ssrc)}
    (hlen : parities.length ≤ 48) :
    (numberedFec first parities).map (fun f => offset first f.1) = List.range parities.length := by
  refine List.ext_getElem (by simp [numberedFec]) fun i hi _ => ?_
  have hi : i < parities.length := by simpa [numberedFec] using hi
  rw [List.getElem_map, List.getElem_range]
  simp only [numberedFec, List.getElem_mapIdx]
  rw [offset, UInt16.add_comm, UInt16.add_sub_cancel,
    UInt16.toNat_ofNat_of_lt' (show i < 65536 by omega)]

theorem nodup_of_offsets {α : Type} {key : α → UInt16} {base : UInt16} {l : List α} {n : Nat}
    (h : l.map (fun a => offset base (key a)) = List.range n) : (l.map key).Nodup := by
  refine List.Nodup.of_map (offset base) ?_
  rw [List.map_map]
  exact h ▸ List.nodup_range

theorem offset_lt_of_map {α : Type} {key : α → UInt16} {base : UInt16} {l : List α} {n : Nat}
    (h : l.map (fun a => offset base (key a)) = List.range n) {a : α} (ha : a ∈ l) :
    offset base (key a) < n := by
  have hmem : offset base (key a) ∈ l.map fun a => offset base (key a) := List.mem_map_of_mem ha
  rwa [h, List.mem_range] at hmem

/-- A block of the stream and the FEC packets made of it as a session. -/
def blockSession (block : List (Media ssrc)) (parities : List (Parity ssrc)) (first : UInt16)
    (hnums : Numbered block) (hlen : block.length ≤ 48) (h : Protects block parities) :
    Session ssrc where
  media := block
  fec := numberedFec first parities
  base := baseOf block
  near m hm := lt_of_lt_of_le (offset_lt_of_map (offsets_eq_range hnums hlen) hm) (by omega)
  distinct := nodup_of_offsets (offsets_eq_range hnums hlen)
  protects f hf m hm := by
    obtain ⟨-, -, -, hd⟩ := mem_numberedFec hf
    exact h.block_eq f.2 hd ▸ (List.mem_filter.mp hm).1
  fec_distinct := nodup_of_offsets (offsets_numberedFec first (h.length.trans hlen))
  media_count := hlen
  fec_count := by
    rw [numberedFec, List.length_mapIdx]
    exact h.length.trans hlen
  media_close _ m hm m' hm' := by
    have hoffsets := offsets_eq_range hnums hlen
    have hdiff := minDiff_lt (offset_lt_of_map hoffsets hm) (offset_lt_of_map hoffsets hm')
      (by omega)
    rw [FlexfecDecoder.kMaxMediaPackets]
    omega
  fec_close f hf g hg hfar := by
    have hoffsets := offsets_numberedFec first (h.length.trans hlen)
    have hdiff := minDiff_lt (offset_lt_of_map hoffsets hf) (offset_lt_of_map hoffsets hg)
      (by have hle := h.length; omega)
    have hfar := UInt16.lt_iff_toNat_lt.mp hfar
    have hlimit : (0x3fff : UInt16).toNat = 0x3fff := rfl
    have hle := h.length
    omega

/-- Whatever single packet is lost, what protects it and the others recover it. -/
theorem peeled_of_one_lost {S : Session ssrc} {arrivals : List (FlexfecRun.Arrival ssrc)}
    {lost : Media ssrc} (hfec : ∃ f ∈ S.fec, lost ∈ f.2.protectedMedia ∧ f.2 ∈ parityOf arrivals)
    (hothers : ∀ m ∈ S.media, m ≠ lost → m ∈ mediaOf arrivals) : Peeled arrivals lost := by
  obtain ⟨f, hf, hlost, harrived⟩ := hfec
  refine .peeled (Set.mem_image_of_mem check harrived) hlost fun m hm hne => ?_
  exact .given (hothers m (S.protects f hf m hm) hne)

theorem blockSession_recovers {list : ListSort} (hlist : Sorts list) {block : List (Media ssrc)}
    {parities : List (Parity ssrc)} {first : UInt16} (hnums : Numbered block)
    (hlen : block.length ≤ 48) (h : Protects block parities) {lost : Media ssrc}
    (hlost : lost ∈ block) {arrivals : List (FlexfecRun.Arrival ssrc)}
    (harrivals : ∀ a ∈ arrivals, (blockSession block parities first hnums hlen h).Has a)
    (hothers : ∀ m ∈ block, m ≠ lost → m ∈ mediaOf arrivals)
    (hfec : ∀ f ∈ numberedFec first parities, f.2 ∈ parityOf arrivals) :
    lost ∈ mediaOf arrivals ∨ lost.bytes ∈ passedBy list arrivals := by
  refine (delivered_iff hlist harrivals hlost).mpr (@peeled_of_one_lost ssrc
    (blockSession block parities first hnums hlen h) arrivals lost ?_ hothers)
  obtain ⟨d, hd, hcovered⟩ := h.covers lost hlost
  obtain ⟨i, hi, rfl⟩ := List.getElem_of_mem hd
  have hmem : (first + UInt16.ofNat i, parities[i]) ∈ numberedFec first parities :=
    List.mem_mapIdx.mpr ⟨i, hi, rfl⟩
  exact ⟨_, hmem, hcovered, hfec _ hmem⟩

/-- A packet that is a frame of its own. -/
def frame : Media 1 where
  bytes := lastOfFrame.dataBuffer
  header := Nat.le_refl 12
  fits := (by decide : 12 + 32 + 28 ≤ 1500)
  version := rfl
  own := rfl

def frameCalls : List Call :=
  [.setFecParameters ⟨255, 1, .random⟩, .addRtpPacketAndGenerateFec lastOfFrame]

theorem gives_frame : Gives [frame] frameCalls := ⟨List.isChain_singleton _, rfl⟩

theorem run_frame : ∃ g, run frameCalls = some g ∧ g.generatedFecPackets.length = 1 := by
  have hidle : Idle ⟨255, 1, .random⟩ (create.setFecParameters ⟨255, 1, .random⟩) :=
    ⟨rfl, rfl, rfl, rfl, rfl⟩
  have hfits : lastOfFrame.Fits := ⟨by decide, by decide, by decide⟩
  obtain ⟨g, hadd, -, hlength⟩ := add_idle hidle hfits
  exact ⟨g, congrArg (Option.map Prod.snd) hadd, hlength⟩

theorem run_genuine_frame : ∃ g, run frameCalls = some g ∧
    ∃ block, block <:+: [frame] ∧ (block <:+ [frame] ∨ block.length = kUlpfecMaxMediaPackets) ∧
      g.mediaPackets = block.map Media.packet ∧
      (g.generatedFecPackets ≠ [] → ∃ parities,
        g.generatedFecPackets = parities.map Parity.packet ∧ Protects block parities) := by
  obtain ⟨g, hrun, -⟩ := run_frame
  exact ⟨g, hrun, (run_genuine 1 [frame] frameCalls gives_frame g hrun).1⟩

end FlexfecStream
