import TransportDemo.RtpPacketRoundTrip

/-!
# No write leaves the buffer

Where the size of the buffer is a multiple of four bytes, nothing but an
assertion stops an operation on a packet: the checks that are made before a
header extension is added leave room for the longer headers and for the zeros
that fill the block. The zeros are not counted in these checks, so that they
are written behind a buffer of another size.
-/

namespace RtpPacket

open ByteBuffer
open FlexfecReceiver (ExtensionInfo)

section Fits

variable {capacity : Nat} {p : Packet capacity}

/-- What is asserted where an operation begins. -/
def Asserted (p : Packet capacity) : Op → Prop
  | .setPayloadType payloadType => payloadType ≤ 0x7f
  | .setCsrcs list => p.extensionsSize = 0 ∧ p.payloadSize = 0 ∧ p.paddingSize = 0 ∧
      list.length ≤ 0x0f ∧ kFixedHeaderSize + 4 * list.length ≤ capacity
  | .setExtension id content => kMinId ≤ id.toNat ∧ 1 ≤ content.length ∧
      content.length ≤ kMaxValueSize ∧
      (findExtensionInfo p id = none → p.payloadSize = 0 → p.paddingSize = 0 →
        kOneByteHeaderExtensionMaxId < id.toNat ∨
          kOneByteHeaderExtensionMaxValueSize < content.length → p.extensions.extmapAllowMixed)
  | .setPayload _ => p.paddingSize = 0
  | .setPadding paddingBytes =>
      p.payloadOffset + p.payloadSize + paddingBytes ≤ capacity → paddingBytes ≤ 0xff
  | _ => True

theorem write_isSome {b : Buffer capacity} {off : Nat} {bytes : List UInt8} :
    (write b off bytes).isSome ↔ off + bytes.length ≤ capacity := by
  rw [write]
  split
  · next h => exact iff_of_true rfl h
  · next h => exact iff_of_false Bool.false_ne_true h

/-- A step that does not fail, and then the rest. -/
theorem isSome_bind {α β : Type} {x : Option α} {f : α → Option β} (hx : x.isSome)
    (hf : ∀ a, x = some a → (f a).isSome) : (x.bind f).isSome := by
  obtain ⟨a, rfl⟩ := Option.isSome_iff_exists.mp hx
  exact hf a rfl

theorem writeCsrcs_isSome {list : List UInt32} {b : Buffer capacity} {offset : Nat}
    (h : offset + 4 * list.length ≤ capacity) : (writeCsrcs b offset list).isSome := by
  induction list generalizing b offset with
  | nil => rfl
  | cons csrc rest ih =>
    rw [List.length_cons] at h
    exact isSome_bind (Iff.mpr write_isSome (by rw [length_be32]; omega)) fun _ _ => ih (by omega)

theorem setExtensionLength_isSome {b : Buffer capacity} {size offset : Nat}
    (hcap : capacity ≤ 0xffff) (hfour : capacity % 4 = 0) (hoffset : offset % 4 = 0)
    (hheader : 4 ≤ offset) (hend : offset + size ≤ capacity) :
    (setExtensionLengthMaybeAddZeroPadding b size offset).isSome := by
  have hcount : (UInt16.ofNat ((size + 3) / 4)).toNat = (size + 3) / 4 :=
    UInt16.toNat_ofNat_of_lt' (by simp only [UInt16.size]; omega)
  refine isSome_bind (Iff.mpr write_isSome (by rw [length_be16]; omega)) fun _ _ =>
    isSome_bind (Iff.mpr write_isSome ?_) fun _ _ => rfl
  rw [List.length_replicate, hcount]
  omega

theorem promoteLoop_isSome {entries : List ExtensionInfo} {b : Buffer capacity} {pos stop : Nat}
    (hcap : capacity ≤ 0xffff) (hlayout : Layout b.byte true pos entries stop)
    (hroom : stop + entries.length ≤ capacity) :
    (promoteLoop b entries.reverse).isSome := by
  induction entries using List.reverseRecOn generalizing b stop with
  | nil => rfl
  | append_singleton init e ih =>
    rw [List.reverse_append, List.reverse_singleton, List.singleton_append]
    obtain ⟨mid, hinit, he, hstop⟩ := layout_append.mp hlayout
    replace hstop : mid + headerLength true + e.length.toNat = stop := hstop
    have hheader : headerLength true = 1 := rfl
    have hcount : (init ++ [e]).length = init.length + 1 := by simp
    have hle := hinit.le
    have hto : e.offset.toNat + (init.reverse.length + 1) = mid + init.length + 2 := by
      rw [he.offset, List.length_reverse]
      omega
    simp only [promoteLoop]
    rw [hto]
    refine isSome_bind (Iff.mpr write_isSome ?_) fun b₁ hcontent =>
      isSome_bind (Iff.mpr write_isSome ?_) fun b₂ hlengthByte =>
        isSome_bind (Iff.mpr write_isSome ?_) fun b₃ hidByte =>
          isSome_bind (@ih b₃ mid ?_ ?_) fun _ _ => rfl
    · rw [List.length_map, List.length_range]
      omega
    · rw [List.length_singleton]
      omega
    · rw [List.length_singleton]
      omega
    · obtain ⟨-, -, hsame⟩ := entry_moved hcap he.id_ne he.length_ne hcontent hlengthByte hidByte
      exact hinit.congr fun i _ hi => hsame i (.inl (by omega))
    · omega

/-- The block starts at a multiple of four. -/
theorem csrcEnd_mod (b : Buffer capacity) : csrcEnd b % 4 = 0 := by
  rw [csrcEnd, kFixedHeaderSize]
  omega

theorem promote_isSome (h : Wire p) (hcap : capacity ≤ 0xffff) (hfour : capacity % 4 = 0)
    (hpayload : p.payloadSize = 0) (hsome : p.extensionsSize ≠ 0)
    (hone : get16 p.buffer (csrcEnd p.buffer) = kOneByteExtensionProfileId)
    (hroom : csrcEnd p.buffer + 4 + (p.extensionsSize + p.extensionEntries.length) ≤ capacity) :
    (promoteToTwoByteHeaderExtension p).isSome := by
  obtain ⟨oneByte, hblock⟩ := h.block hsome
  obtain rfl := profileOf_eq_iff.mp (hblock.profile.symm.trans hone)
  have hsize := hblock.size_pos
  have hentries : p.extensionEntries ≠ [] := by
    intro hnil
    have hlayout := hblock.layout
    rw [hnil] at hlayout
    have hstop : csrcEnd p.buffer + 4 = csrcEnd p.buffer + 4 + p.extensionsSize := hlayout
    omega
  have hstart := csrcEnd_mod p.buffer
  simp only [promoteToTwoByteHeaderExtension, ← csrcEnd_def, Nat.add_sub_cancel]
  rw [if_neg (by simp only [hentries, hpayload, hone, ne_eq, not_true, or_self, not_false_eq_true])]
  refine isSome_bind (promoteLoop_isSome hcap hblock.layout (by omega)) fun _ _ =>
    isSome_bind (Iff.mpr write_isSome (by rw [length_be16]; omega)) fun _ _ =>
      isSome_bind (setExtensionLength_isSome hcap hfour (by omega) (by omega) hroom)
        fun _ _ => rfl

theorem appendExtension_isSome (h : Wire p) (hcap : capacity ≤ 0xffff) (hfour : capacity % 4 = 0)
    {id length : UInt8} {oneByte : Bool} :
    (appendExtension p id length (profileOf oneByte) (csrcEnd p.buffer + 4)).isSome := by
  have hheader := extensionHeader_facts oneByte id length
  have hstart := csrcEnd_mod p.buffer
  simp only [appendExtension, hheader]
  split
  · rfl
  · next hroom =>
    rw [if_neg fun hnone => hnone.2 (h.none hnone.1).2]
    refine isSome_bind ?_ fun b _ => isSome_bind (Iff.mpr write_isSome (by omega)) fun b₁ _ =>
      isSome_bind (setExtensionLength_isSome hcap hfour (by omega) (by omega) (by omega))
        fun _ _ => rfl
    rw [startExtensions]
    split
    · exact isSome_bind (Iff.mpr write_isSome (by rw [List.length_singleton]; omega)) fun _ _ =>
        Iff.mpr write_isSome (by rw [length_be16]; omega)
    · rfl

theorem allocateRawExtension_isSome_iff (h : Wire p) (hcap : capacity ≤ 0xffff)
    (hfour : capacity % 4 = 0) {id length : UInt8} :
    (allocateRawExtension p id length).isSome ↔ kMinId ≤ id.toNat ∧ length ≠ 0 ∧
      (findExtensionInfo p id = none → p.payloadSize = 0 → p.paddingSize = 0 →
        kOneByteHeaderExtensionMaxId < id.toNat ∨
          kOneByteHeaderExtensionMaxValueSize < length.toNat → p.extensions.extmapAllowMixed) := by
  simp only [allocateRawExtension, ← csrcEnd_def, Nat.add_sub_cancel]
  by_cases hrange : id.toNat < kMinId ∨ length = 0
  · rw [if_pos hrange]
    refine iff_of_false Bool.false_ne_true fun hassert => ?_
    exact hrange.elim (Nat.not_lt.mpr hassert.1) hassert.2.1
  rw [if_neg hrange]
  obtain ⟨hid, hlength⟩ := not_or.mp hrange
  refine Iff.trans ?_ ((and_iff_right hlength).symm.trans (and_iff_right (Nat.not_lt.mp hid)).symm)
  split
  · next entry hfind =>
    exact iff_of_true rfl fun hnone =>
      absurd (hfind.symm.trans hnone) (Option.some_ne_none entry)
  · next hfind =>
    split
    · next hfull =>
      refine iff_of_true rfl fun _ hpayload hpadding => absurd hfull ?_
      rw [hpayload, hpadding]
      decide
    · next hempty =>
      obtain ⟨hpayload, hpadding⟩ : p.payloadSize = 0 ∧ p.paddingSize = 0 := by
        rw [not_or, Nat.not_lt, UInt8.not_lt, UInt8.le_iff_toNat_le] at hempty
        exact ⟨Nat.le_zero.mp hempty.1, UInt8.toNat_inj.mp (Nat.le_zero.mp hempty.2)⟩
      refine Iff.trans ?_ ⟨fun hmixed _ _ _ => hmixed, fun hall => hall hfind hpayload hpadding⟩
      split
      · next hforbidden =>
        exact iff_of_false Bool.false_ne_true fun hmixed => hforbidden.2 (hmixed hforbidden.1)
      · next hallowed =>
        refine iff_of_true ?_ fun hneeded => not_not.mp fun hmixed => hallowed ⟨hneeded, hmixed⟩
        split
        · next hsome =>
          have hsome := Nat.pos_iff_ne_zero.mp hsome
          obtain ⟨oneByte, hblock⟩ := h.block hsome
          split
          · next hpromote =>
            by_cases hroom : capacity < csrcEnd p.buffer + 4 + (p.extensionsSize +
                p.extensionEntries.length + kTwoByteExtensionHeaderLength + length.toNat)
            · simp only [hroom, if_true, Option.isSome_some]
            · simp only [hroom, if_false]
              refine isSome_bind (promote_isSome h hcap hfour hpayload hsome hpromote.1 (by omega))
                fun p₁ hp₁ => ?_
              obtain ⟨hwire, -, -, -, hend, -⟩ := promote_spec h hcap hpadding hp₁
              rw [← hend]
              exact @appendExtension_isSome _ _ hwire hcap hfour id length false
          · rw [hblock.profile]
            exact appendExtension_isSome h hcap hfour
        · rw [profile_needed]
          exact appendExtension_isSome h hcap hfour

/-- An extension that is there lies inside of the buffer. -/
theorem Wire.entry_le (h : Wire p) {e : ExtensionInfo} (he : e ∈ p.extensionEntries) :
    e.offset.toNat + e.length.toNat ≤ capacity := by
  have hsome : p.extensionsSize ≠ 0 := fun hnone => List.ne_nil_of_mem he (h.none hnone).1
  obtain ⟨oneByte, hblock⟩ := h.block hsome
  have hwithin := (hblock.layout.within he).2
  have hsize := hblock.size_le
  have hfits := h.fits
  rw [Packet.size] at hfits
  omega

theorem setExtension_isSome_iff (h : Wire p) (hcap : capacity ≤ 0xffff) (hfour : capacity % 4 = 0)
    {id : UInt8} {content : List UInt8} :
    (apply p (.setExtension id content)).isSome ↔ Asserted p (.setExtension id content) := by
  simp only [apply, Asserted]
  by_cases hlong : kMaxValueSize < content.length
  · rw [if_pos hlong]
    exact iff_of_false Bool.false_ne_true fun hassert => Nat.not_lt.mpr hassert.2.2.1 hlong
  have hsize : (UInt8.ofNat content.length).toNat = content.length :=
    UInt8.toNat_ofNat_of_lt' (Nat.lt_succ_of_le (Nat.not_lt.mp hlong))
  have hlength : UInt8.ofNat content.length ≠ 0 ↔ 1 ≤ content.length := by
    rw [ne_eq, ← UInt8.toNat_inj, hsize, Nat.one_le_iff_ne_zero]
    rfl
  have hallocate :=
    @allocateRawExtension_isSome_iff _ _ h hcap hfour id (UInt8.ofNat content.length)
  rw [hlength, hsize] at hallocate
  rw [if_neg hlong, and_iff_right (Nat.not_lt.mp hlong), ← hallocate]
  refine ⟨fun hsome => ?_, fun hsome => isSome_bind hsome fun result hresult => ?_⟩
  · obtain ⟨result, hresult⟩ := Option.isSome_iff_exists.mp hsome
    obtain ⟨allocated, hallocated, -⟩ := Option.bind_eq_some_iff.mp hresult
    exact Option.isSome_iff_exists.mpr ⟨allocated, hallocated⟩
  · obtain ⟨room, p₁⟩ := result
    rcases allocateRawExtension_allocates h hcap hresult with
      ⟨rfl, -⟩ | ⟨off, rfl, hwire, ⟨e, he, -, hlength, rfl⟩, -⟩
    · rfl
    · rw [copyTo, Option.isSome_map]
      have hle := hwire.entry_le he
      rw [hlength, hsize] at hle
      exact Iff.mpr write_isSome hle

theorem setCsrcs_isSome_iff (h : Wire p) {list : List UInt32} :
    (setCsrcs p list).isSome ↔ Asserted p (.setCsrcs list) := by
  have hheader := h.header_le
  have hfits := h.fits
  rw [Packet.size] at hfits
  simp only [setCsrcs, Asserted]
  by_cases hallowed : p.extensionsSize ≠ 0 ∨ p.payloadSize ≠ 0 ∨ p.paddingSize ≠ 0 ∨
      0x0f < list.length
  · rw [if_pos hallowed]
    refine iff_of_false Bool.false_ne_true fun hassert => ?_
    rcases hallowed with hextension | hpayload | hpadding | hcount
    · exact hextension hassert.1
    · exact hpayload hassert.2.1
    · exact hpadding hassert.2.2.1
    · exact Nat.not_lt.mpr hassert.2.2.2.1 hcount
  · rw [if_neg hallowed]
    obtain ⟨hextension, hpayload, hpadding, hcount⟩ :
        p.extensionsSize = 0 ∧ p.payloadSize = 0 ∧ p.paddingSize = 0 ∧ list.length ≤ 0x0f := by
      simpa only [not_or, not_not, Nat.not_lt] using hallowed
    constructor
    · intro hsome
      obtain ⟨q, hset⟩ := Option.isSome_iff_exists.mp hsome
      obtain ⟨b, -, hset⟩ := Option.bind_eq_some_iff.mp hset
      obtain ⟨b', hlist, -⟩ := Option.bind_eq_some_iff.mp hset
      refine ⟨hextension, hpayload, hpadding, hcount, ?_⟩
      obtain ⟨-, -, hroom, -⟩ := writeCsrcs_written hlist
      cases list with
      | nil =>
        rw [List.length_nil, kFixedHeaderSize]
        omega
      | cons csrc rest => exact hroom (List.cons_ne_nil _ _)
    · intro hassert
      exact isSome_bind (Iff.mpr write_isSome (by rw [List.length_singleton]; omega)) fun _ _ =>
        isSome_bind (writeCsrcs_isSome hassert.2.2.2.2) fun _ _ => rfl

theorem setPayload_isSome_iff (h : Wire p) {content : List UInt8} :
    (apply p (.setPayload content)).isSome ↔ Asserted p (.setPayload content) := by
  have hfits := h.fits
  rw [Packet.size] at hfits
  simp only [apply, allocatePayload, Asserted]
  by_cases hpadding : p.paddingSize = 0
  · refine iff_of_true ?_ hpadding
    have hempty : setPayloadSize p 0 = some (some p.payloadOffset,
        { p with payloadSize := 0, buffer := setSize p.buffer (p.payloadOffset + 0) }) := by
      rw [setPayloadSize, if_neg (not_not.mpr hpadding), if_neg (by omega)]
    rw [hempty]
    refine isSome_bind ?_ fun result hresult => ?_
    · simp only [Option.bind_eq_bind, Option.bind_some, setPayloadSize]
      rw [if_neg (not_not.mpr hpadding)]
      split <;> rfl
    · obtain ⟨room, p₁⟩ := result
      obtain ⟨-, ⟨-, rfl, rfl⟩ | ⟨hroom, rfl, rfl⟩⟩ := setPayloadSize_cases hresult
      · rfl
      · rw [copyTo, Option.isSome_map]
        exact Iff.mpr write_isSome hroom
  · refine iff_of_false ?_ hpadding
    rw [setPayloadSize, if_pos hpadding]
    exact Bool.false_ne_true

theorem setPadding_isSome_iff (h : Wire p) {paddingBytes : Nat} :
    (setPadding p paddingBytes).isSome ↔ Asserted p (.setPadding paddingBytes) := by
  have hheader := h.header_le
  simp only [setPadding, Asserted]
  by_cases hroom : capacity < p.payloadOffset + p.payloadSize + paddingBytes
  · rw [if_pos hroom]
    exact iff_of_true rfl fun hle => absurd hroom (Nat.not_lt.mpr hle)
  rw [if_neg hroom]
  refine Iff.trans ?_ ⟨fun hle _ => hle, fun hle => hle (Nat.not_lt.mp hroom)⟩
  by_cases hrange : 0xff < paddingBytes
  · rw [if_pos hrange]
    exact iff_of_false Bool.false_ne_true (Nat.not_le.mpr hrange)
  rw [if_neg hrange]
  refine iff_of_true ?_ (Nat.not_lt.mp hrange)
  split
  · refine isSome_bind (Iff.mpr write_isSome (by rw [List.length_replicate]; omega)) fun _ _ =>
      isSome_bind (Iff.mpr write_isSome (by rw [List.length_singleton]; omega)) fun _ _ =>
        isSome_bind (Iff.mpr write_isSome (by rw [List.length_singleton]; omega)) fun _ _ => rfl
  · exact isSome_bind (Iff.mpr write_isSome (by rw [List.length_singleton]; omega)) fun _ _ => rfl

/-- An operation is only stopped by what is asserted. -/
theorem apply_isSome_iff (h : Wire p) (hcap : capacity ≤ 0xffff) (hfour : capacity % 4 = 0)
    (op : Op) : (apply p op).isSome ↔ Asserted p op := by
  have hheader := h.header_le
  have hfits := h.fits
  rw [Packet.size] at hfits
  have hfixed {off : Nat} {bytes : List UInt8} (hend : off + bytes.length ≤ 12) :
      (write p.buffer off bytes).isSome := Iff.mpr write_isSome (by omega)
  cases op with
  | setMarker markerBit =>
    rw [apply, Option.isSome_map]
    exact iff_of_true (isSome_bind (hfixed (Nat.le_add_right 2 10)) fun _ _ => rfl) trivial
  | setPayloadType payloadType =>
    rw [apply, Option.isSome_map, setPayloadType]
    split
    · next hrange => exact iff_of_false Bool.false_ne_true (UInt8.not_le.mpr hrange)
    · next hrange =>
      exact iff_of_true (isSome_bind (hfixed (Nat.le_add_right 2 10)) fun _ _ => rfl)
        (UInt8.not_lt.mp hrange)
  | setSequenceNumber seqNo =>
    rw [apply, Option.isSome_map]
    exact iff_of_true (isSome_bind (hfixed (Nat.le_add_right 4 8)) fun _ _ => rfl) trivial
  | setTimestamp timestamp =>
    rw [apply, Option.isSome_map]
    exact iff_of_true (isSome_bind (hfixed (Nat.le_add_right 8 4)) fun _ _ => rfl) trivial
  | setSsrc ssrc =>
    rw [apply, Option.isSome_map]
    exact iff_of_true (isSome_bind (hfixed (Nat.le_refl 12)) fun _ _ => rfl) trivial
  | setCsrcs list =>
    rw [apply, Option.isSome_map]
    exact setCsrcs_isSome_iff h
  | setExtension id content => exact setExtension_isSome_iff h hcap hfour
  | setPayload content => exact setPayload_isSome_iff h
  | setPadding paddingBytes => exact setPadding_isSome_iff h

/-! ### Runs -/

/-- A packet is built whatever is done to it, as long as every operation meets what it asserts:
no write of any operation leaves the buffer. -/
theorem build_isSome_iff {p' : Packet capacity} (hcap : capacity ≤ 0xffff)
    (hfour : capacity % 4 = 0) (hclear : clear p = some p') (ops : List Op) :
    (StepTrace.runOption build (p', Content.empty) ops).isSome ↔
      ∀ done op, done ++ [op] <+: ops → ∀ state,
        StepTrace.runOption build (p', Content.empty) done = some state → Asserted state.1 op := by
  refine StepTrace.runOption_isSome_iff (I := fun state => Wire state.1) (clear_wire hclear).1
    (fun state op state' hstate hstep => ?_) (fun state op hstate => ?_) ops
  · obtain ⟨result, happly, rfl⟩ := Option.map_eq_some_iff.mp hstep
    exact (apply_does hstate hcap happly).1
  · rw [build, Option.isSome_map]
    exact apply_isSome_iff hstate hcap hfour op

theorem build_isSome_mixed :
    (StepTrace.runOption build (clearedPacket, Content.empty) mixedOps).isSome ∧
      ∀ done op, done ++ [op] <+: mixedOps → ∀ state,
        StepTrace.runOption build (clearedPacket, Content.empty) done = some state →
          Asserted state.1 op := by
  have hsome : (StepTrace.runOption build (clearedPacket, Content.empty) mixedOps).isSome := by
    decide +kernel
  have hclear : clear usedPacket = some clearedPacket := rfl
  exact ⟨hsome, (build_isSome_iff (by decide) (by decide) hclear mixedOps).mp hsome⟩

/-- The zeros that fill the block are written behind a buffer of another size. -/
example : let p : Packet 19 := ⟨false, 0, 0, 0, 0, 12, 0, 0, ⟨fun _ => 0, true⟩, [], 0,
    ⟨fun i => if i = 0 then 0x80 else 0, 12⟩⟩
    allocateRawExtension p 1 2 = none ∧ Asserted p (.setExtension 1 [0, 0]) :=
  ⟨rfl, by simp [Asserted, kMinId, kMaxValueSize]⟩

end Fits

end RtpPacket
