import SdkTools.Kd.Delivery

/-!
# The packet a reading leaves in the buffer

When `ReadPacketContents` returns a packet, the header and the buffer hold the bytes
that lay on the wire one after another from a leader to a trailing byte, and the data
has the checksum of the header.
-/

namespace SdkTools.Kd

set_option autoImplicit false

variable {P : Protocol}

/-! ## The leader bytes skipped -/

theorem skipLeaderBytes_suffix (wire : List Wire) : (skipLeaderBytes P wire).2 <:+ wire := by
  induction wire with
  | nil => exact List.suffix_rfl
  | cons e wire ih =>
    cases e with
    | timeout =>
      rw [skipLeaderBytes]
      exact List.suffix_cons _ _
    | byte b =>
      rw [skipLeaderBytes]
      split
      · exact ih.trans (List.suffix_cons _ _)
      · exact List.suffix_cons _ _

/-- The bytes before the one kept are leaders. -/
theorem skipLeaderBytes_some {wire rest : List Wire} {low : Byte}
    (h : skipLeaderBytes P wire = (some low, rest)) :
    ∃ more : List Byte, (∀ b ∈ more, isLeader P b = true) ∧
      wire = more.map .byte ++ .byte low :: rest := by
  induction wire with
  | nil => cases h
  | cons e wire ih =>
    cases e with
    | timeout => cases h
    | byte b =>
      rw [skipLeaderBytes] at h
      split at h
      · rename_i hb
        obtain ⟨more, hmore, hwire⟩ := ih h
        refine ⟨b :: more, ?_, ?_⟩
        · intro b' hb'
          rcases List.mem_cons.mp hb' with rfl | hb'
          · exact hb
          · exact hmore b' hb'
        · rw [hwire, List.map_cons, List.cons_append]
      · cases h
        refine ⟨[], ?_, rfl⟩
        intro b hb
        cases hb

/-! ## The data -/

/-- The wire holds the data and the trailing byte a header calls for, and the
transport has taken them. -/
structure TookData (wire : List Wire) (header : KdPacket) (t : Transport P)
    (payload : List Byte) : Prop where
  wire : wire = (payload ++ [P.PACKET_TRAILING_BYTE]).map .byte ++ t.wire
  count : payload.length = header.ByteCount.toNat
  checksum : computeChecksum payload = header.Checksum
  payload : t.s_Packet.take payload.length = payload
  header : t.s_PacketHeader = { header with PacketId := header.PacketId &&& ~~~P.SYNC_PACKET_ID }

theorem takePacket_buffer (t : Transport P) :
    (takePacket P t).2.wire = t.wire ∧ (takePacket P t).2.s_Packet = t.s_Packet ∧
      (takePacket P t).2.s_PacketHeader =
        { t.s_PacketHeader with
          PacketId := t.s_PacketHeader.PacketId &&& ~~~P.SYNC_PACKET_ID } := by
  unfold takePacket
  simp only
  split
  · exact ⟨rfl, rfl, rfl⟩
  split
  · exact ⟨rfl, rfl, rfl⟩
  · exact ⟨rfl, rfl, rfl⟩

theorem dataPacket_took {t : Transport P} (h : (dataPacket P t).1 = .status .waitPacket) :
    ∃ payload, TookData t.wire t.s_PacketHeader (dataPacket P t).2 payload := by
  unfold dataPacket at h ⊢
  simp only at h ⊢
  split at h
  · cases h
  rename_i hvalid
  rw [if_neg hvalid]
  split at h
  · cases h
  rename_i hlen
  rw [if_neg hlen]
  have hgot := not_not.mp hlen
  have hwire := read_full hgot
  split at h
  · rename_i b wire hread
    split at h
    · cases h
    rename_i htrail
    split at h
    · cases h
    rename_i hsum
    simp only [if_neg htrail, if_neg hsum]
    have hbyte := @read_full 1 (read t.s_PacketHeader.ByteCount.toNat t.wire).2 (by rw [hread]; rfl)
    rw [hread] at hbyte
    have htake (rest : List Byte) :
        (readInto rest (read t.s_PacketHeader.ByteCount.toNat t.wire).1).take
          (read t.s_PacketHeader.ByteCount.toNat t.wire).1.length =
          (read t.s_PacketHeader.ByteCount.toNat t.wire).1 := List.take_left
    have hchecksum := htake t.s_Packet
    rw [hgot] at hchecksum
    refine ⟨(read t.s_PacketHeader.ByteCount.toNat t.wire).1, ?_⟩
    constructor
    · rw [(takePacket_buffer _).1, List.map_append, List.append_assoc, ← not_not.mp htrail]
      exact hwire.trans (congrArg _ hbyte)
    · exact hgot
    · rw [← not_not.mp hsum, hchecksum]
    · rw [(takePacket_buffer _).2.1]
      exact htake _
    · exact (takePacket_buffer _).2.2
  · cases h

/-! ## The header -/

/-- The bytes of a data packet after the first two of its leader. -/
structure DataPacket where
  leaders : List Byte
  type : List Byte
  count : List Byte
  id : List Byte
  checksum : List Byte
  payload : List Byte

/-- The packet as it lies on the wire. -/
def DataPacket.bytes (P : Protocol) (p : DataPacket) : List Byte :=
  [P.PACKET_LEADER_BYTE, P.PACKET_LEADER_BYTE] ++
    (p.leaders ++ p.type ++ p.count ++ p.id ++ p.checksum ++ p.payload ++ [P.PACKET_TRAILING_BYTE])

/-- A header and a buffer hold the packet: every field is that of the wire, but for the
bit `SYNC_PACKET_ID`, and the checks of the code hold of it. -/
structure DataPacket.Fills (P : Protocol) (p : DataPacket) (header : KdPacket)
    (buffer : List Byte) : Prop where
  leaders : ∀ b ∈ p.leaders, isLeader P b = true
  isControl : header.isControl = false
  typeLength : p.type.length = 2
  type : header.PacketType = BitVec.ofNat 16 (valueOf p.type)
  countLength : p.count.length = 2
  count : header.ByteCount = BitVec.ofNat 16 (valueOf p.count)
  idLength : p.id.length = 4
  id : header.PacketId = BitVec.ofNat 32 (valueOf p.id) &&& ~~~P.SYNC_PACKET_ID
  checksumLength : p.checksum.length = 4
  checksum : header.Checksum = BitVec.ofNat 32 (valueOf p.checksum)
  maxSize : header.ByteCount.toNat ≤ P.PACKET_MAX_SIZE
  payloadLength : p.payload.length = header.ByteCount.toNat
  payload : buffer.take p.payload.length = p.payload
  sum : computeChecksum p.payload = header.Checksum

theorem dataHeader_took {type : Nat} {t : Transport P}
    (h : (dataHeader P type t).1 = .status .waitPacket) :
    ∃ sum payload wire, sum.length = 4 ∧ t.wire = sum.map .byte ++ wire ∧
      TookData wire { t.s_PacketHeader with Checksum := BitVec.ofNat 32 (valueOf sum) }
        (dataHeader P type t).2 payload := by
  unfold dataHeader at h ⊢
  simp only at h ⊢
  split at h
  · cases h
  rename_i hlen
  rw [if_neg hlen]
  have hsum := not_not.mp hlen
  have hfield := readField_full t.s_PacketHeader.Checksum hsum
  split at h
  · rename_i hack
    rw [if_pos hack]
    split at h
    · rename_i hid
      rw [if_pos hid]
      obtain ⟨payload, htook⟩ := dataPacket_took h
      refine ⟨_, payload, _, hsum, read_full hsum, ?_⟩
      rw [← hfield]
      exact htook
    · cases h
  · rename_i hack
    rw [if_neg hack]
    obtain ⟨payload, htook⟩ := dataPacket_took h
    refine ⟨_, payload, _, hsum, read_full hsum, ?_⟩
    rw [← hfield]
    exact htook

theorem controlPacket_status (type : Nat) (t : Transport P) :
    (controlPacket P type t).1 ≠ .status .waitPacket := by
  unfold controlPacket
  simp only
  split
  · split
    · intro h
      cases h
    split
    · intro h
      cases h
    · intro h
      cases h
  split
  · intro h
    cases h
  split
  · intro h
    cases h
  · intro h
    cases h

theorem readPacketId_took {type : Nat} {t : Transport P}
    (h : (readPacketId P type t).1 = .status .waitPacket) :
    t.s_PacketHeader.isControl = false ∧ ∃ id sum payload wire, id.length = 4 ∧ sum.length = 4 ∧
      t.wire = id.map .byte ++ (sum.map .byte ++ wire) ∧
      TookData wire
        { t.s_PacketHeader with
          PacketId := BitVec.ofNat 32 (valueOf id), Checksum := BitVec.ofNat 32 (valueOf sum) }
        (readPacketId P type t).2 payload := by
  unfold readPacketId at h ⊢
  simp only at h ⊢
  split at h
  · cases h
  rename_i hlen
  rw [if_neg hlen]
  have hid := not_not.mp hlen
  have hfield := readField_full t.s_PacketHeader.PacketId hid
  split at h
  · exact absurd h (controlPacket_status _ _)
  rename_i hdata
  rw [if_neg hdata]
  obtain ⟨sum, payload, wire, hsum, hwire, htook⟩ := dataHeader_took h
  refine ⟨Bool.eq_false_iff.mpr hdata, _, sum, payload, wire, hid, hsum, ?_, ?_⟩
  · rw [← hwire]
    exact read_full hid
  · rw [← hfield]
    exact htook

theorem afterLeader_took {type : Nat} {isControl : Bool} {t : Transport P}
    (h : (afterLeader P type isControl t).1 = .status .waitPacket) :
    isControl = false ∧ ∃ p : DataPacket,
      t.wire = (p.leaders ++ p.type ++ p.count ++ p.id ++ p.checksum ++ p.payload ++
        [P.PACKET_TRAILING_BYTE]).map .byte ++ (afterLeader P type isControl t).2.wire ∧
      p.Fills P (afterLeader P type isControl t).2.s_PacketHeader
        (afterLeader P type isControl t).2.s_Packet := by
  obtain ⟨hw, -, -, -⟩ := initialBreakIn_eq t
  unfold afterLeader at h ⊢
  simp only [hw] at h ⊢
  split at h
  · cases h
  rename_i low wire hskip
  obtain ⟨leaders, hleaders, hwire⟩ := skipLeaderBytes_some hskip
  unfold readPacketType at h ⊢
  simp only at h ⊢
  split at h
  · cases h
  rename_i hhigh
  rw [if_neg hhigh]
  split at h
  · cases h
  rename_i hlimit
  rw [if_neg hlimit]
  unfold readByteCount at h ⊢
  simp only at h ⊢
  split at h
  · cases h
  rename_i hcount
  rw [if_neg hcount]
  split at h
  · cases h
  rename_i hmax
  rw [if_neg hmax]
  obtain ⟨hdata, id, sum, payload, rest, hid, hsum, hrest, htook⟩ := readPacketId_took h
  have hhigh' := not_not.mp hhigh
  have hcount' := not_not.mp hcount
  have hkind : (low :: (read 1 wire).1).length = 2 := congrArg (· + 1) hhigh'
  have hkindField := readField_full t.s_PacketHeader.PacketType hkind
  have hcountField := readField_full t.s_PacketHeader.ByteCount hcount'
  refine ⟨hdata, ⟨leaders, low :: (read 1 wire).1, (read 2 (read 1 wire).2).1, id, sum, payload⟩,
    ?_, ?_⟩
  · have hkindWire := read_full hhigh'
    have hcountWire := read_full hcount'
    have hidWire : (read 2 (read 1 wire).2).2 = id.map .byte ++ (sum.map .byte ++ rest) := hrest
    have hall : t.wire = leaders.map .byte ++ .byte low :: ((read 1 wire).1.map .byte ++
        ((read 2 (read 1 wire).2).1.map .byte ++ (id.map .byte ++ (sum.map .byte ++ rest)))) := by
      rw [← hidWire, ← hcountWire, ← hkindWire]
      exact hwire
    rw [hall, htook.wire]
    simp only [List.map_append, List.map_cons, List.append_assoc, List.cons_append]
  · have hheader := htook.header
    constructor
    · exact hleaders
    · rw [hheader]
      exact hdata
    · exact hkind
    · rw [hheader]
      exact hkindField
    · exact hcount'
    · rw [hheader]
      exact hcountField
    · exact hid
    · rw [hheader]
    · exact hsum
    · rw [hheader]
    · rw [hheader]
      exact Nat.le_of_not_lt hmax
    · rw [hheader]
      exact htook.count
    · exact htook.payload
    · rw [hheader]
      exact htook.checksum

/-! ## The wire gets shorter -/

theorem dataPacket_suffix (t : Transport P) : (dataPacket P t).2.wire <:+ t.wire := by
  have hdata := read_suffix t.s_PacketHeader.ByteCount.toNat t.wire
  have hbyte := (read_suffix 1 (read t.s_PacketHeader.ByteCount.toNat t.wire).2).trans hdata
  unfold dataPacket
  simp only
  split
  · exact List.suffix_rfl
  split
  · exact hdata
  split
  · rename_i b wire hread
    rw [hread] at hbyte
    split
    · exact hbyte
    split
    · exact hbyte
    · rw [(takePacket_buffer _).1]
      exact hbyte
  · rename_i wire _ hread
    rw [hread] at hbyte
    exact hbyte

theorem dataHeader_suffix (type : Nat) (t : Transport P) :
    (dataHeader P type t).2.wire <:+ t.wire := by
  have hsum := read_suffix 4 t.wire
  unfold dataHeader
  simp only
  split
  · exact hsum
  split
  · split
    · exact (dataPacket_suffix _).trans hsum
    · exact hsum
  · exact (dataPacket_suffix _).trans hsum

theorem requestResend_wire (t : Transport P) : (requestResend P t).2.wire = t.wire := by
  unfold requestResend
  simp only
  split
  · rfl
  · rfl

theorem controlPacket_wire (type : Nat) (t : Transport P) :
    (controlPacket P type t).2.wire = t.wire := by
  unfold controlPacket
  simp only
  split
  · split
    · rfl
    split
    · rfl
    · rfl
  split
  · rfl
  split
  · rfl
  · rfl

theorem readPacketId_suffix (type : Nat) (t : Transport P) :
    (readPacketId P type t).2.wire <:+ t.wire := by
  have hid := read_suffix 4 t.wire
  unfold readPacketId
  simp only
  split
  · rw [requestResend_wire]
    exact hid
  split
  · rw [controlPacket_wire]
    exact hid
  · exact (dataHeader_suffix type _).trans hid

theorem afterLeader_suffix (type : Nat) (isControl : Bool) (t : Transport P) :
    (afterLeader P type isControl t).2.wire <:+ t.wire := by
  obtain ⟨hw, -, -, -⟩ := initialBreakIn_eq t
  have hskip := @skipLeaderBytes_suffix P t.wire
  unfold afterLeader
  simp only [hw]
  split
  · rename_i wire h
    rw [h] at hskip
    exact hskip
  · rename_i low wire h
    rw [h] at hskip
    have hhigh := (read_suffix 1 wire).trans hskip
    have hcount := (read_suffix 2 (read 1 wire).2).trans hhigh
    unfold readPacketType
    simp only
    split
    · rw [requestResend_wire]
      exact hhigh
    split
    · rw [requestResend_wire]
      exact hhigh
    unfold readByteCount
    simp only
    split
    · rw [requestResend_wire]
      exact hcount
    split
    · rw [requestResend_wire]
      exact hcount
    · exact (readPacketId_suffix type _).trans hcount

theorem readPacketLeader_suffix (type k : Nat) (previous : Option Byte) (t : Transport P) :
    (readPacketLeader P type k previous t).2.wire <:+ t.wire := by
  induction k generalizing previous t with
  | zero => exact List.suffix_rfl
  | succ k ih =>
    rcases readPacketLeader_step type k previous t with
      ⟨s, t', hres, -, hsuffix, -⟩ | ⟨b, wire, hwire, -, -, hres⟩ | ⟨b, wire, next, hwire, -, hres⟩
    · rw [hres]
      exact hsuffix
    · rw [hres, hwire]
      exact List.suffix_cons _ _
    · rw [hres, hwire]
      exact (ih next { t with wire := wire }).trans (List.suffix_cons _ _)

theorem readPacketContents_suffix (type k : Nat) (t : Transport P) :
    (readPacketContents P type k t).2.wire <:+ t.wire := by
  induction k generalizing t with
  | zero => exact List.suffix_rfl
  | succ k ih =>
    have hleader := readPacketLeader_suffix type (t.wire.length + 1) none t
    rw [readPacketContents]
    generalize readPacketLeader P type (t.wire.length + 1) none t = leader at hleader ⊢
    obtain ⟨s | isControl, t₁⟩ := leader
    · exact hleader
    · have hrest := (afterLeader_suffix type isControl t₁).trans hleader
      simp only
      generalize afterLeader P type isControl t₁ = res at hrest ⊢
      obtain ⟨outcome, t₂⟩ := res
      cases outcome with
      | status s => exact hrest
      | again => exact (ih t₂).trans hrest

/-! ## The leader -/

/-- A leader is found where two equal leader bytes lie. -/
theorem readPacketLeader_found {type k : Nat} {previous : Option Byte} {t t' : Transport P}
    {isControl : Bool} (h : readPacketLeader P type k previous t = (.ok isControl, t')) :
    ∃ b pre, isLeader P b = true ∧ isControl = decide (b = P.CONTROL_PACKET_LEADER_BYTE) ∧
      previous.toList.map .byte ++ t.wire = pre ++ .byte b :: .byte b :: t'.wire := by
  induction k generalizing previous t with
  | zero => cases h
  | succ k ih =>
    rcases readPacketLeader_step type k previous t with
      ⟨s, t'', hres, -⟩ | ⟨b, wire, hwire, hb, hsame, hres⟩ | ⟨b, wire, next, hwire, hnext, hres⟩
    · rw [hres] at h
      cases h
    · rw [hres] at h
      cases h
      refine ⟨b, [], hb, rfl, ?_⟩
      rw [hsame, hwire]
      rfl
    · rw [hres] at h
      obtain ⟨b', pre, hb', hkind, hpre⟩ := ih h
      -- the byte is the new previous one, or it is skipped
      rcases hnext with rfl | rfl
      · refine ⟨b', previous.toList.map .byte ++ pre, hb', hkind, ?_⟩
        rw [hwire, List.append_assoc, ← hpre]
        rfl
      · refine ⟨b', previous.toList.map .byte ++ (.byte b :: pre), hb', hkind, ?_⟩
        rw [hwire, List.append_assoc, List.cons_append, ← hpre]
        rfl

theorem readPacketLeader_error {type k : Nat} {previous : Option Byte} {t t' : Transport P}
    {s : WaitStatus} (h : readPacketLeader P type k previous t = (.error s, t')) :
    s ≠ .waitPacket := by
  induction k generalizing previous t with
  | zero =>
    cases h
    exact nofun
  | succ k ih =>
    rcases readPacketLeader_step type k previous t with
      ⟨s', t'', hres, hs, -⟩ | ⟨b, wire, -, -, -, hres⟩ | ⟨b, wire, next, -, -, hres⟩
    · rw [hres] at h
      cases h
      exact hs
    · rw [hres] at h
      cases h
    · rw [hres] at h
      exact ih h

/-- A packet a reading returns lies complete on the wire, and the buffers hold it. -/
theorem readPacketContents_took {type k : Nat} {t : Transport P}
    (h : (readPacketContents P type k t).1 = .waitPacket) :
    ∃ (p : DataPacket) (pre : List Wire),
      t.wire = pre ++ ((p.bytes P).map .byte ++ (readPacketContents P type k t).2.wire) ∧
      p.Fills P (readPacketContents P type k t).2.s_PacketHeader
        (readPacketContents P type k t).2.s_Packet := by
  induction k generalizing t with
  | zero => cases h
  | succ k ih =>
    rw [readPacketContents] at h ⊢
    cases hleader : readPacketLeader P type (t.wire.length + 1) none t with
    | mk found t₁ =>
      rw [hleader] at h
      cases found with
      | error s => exact absurd h (readPacketLeader_error hleader)
      | ok isControl =>
        obtain ⟨b, pre, hb, hkind, hpre⟩ := readPacketLeader_found hleader
        have hwire : t.wire = pre ++ .byte b :: .byte b :: t₁.wire := hpre
        have hrest := afterLeader_suffix type isControl t₁
        have htook := @afterLeader_took P type isControl t₁
        simp only at h ⊢
        generalize afterLeader P type isControl t₁ = res at h hrest htook ⊢
        obtain ⟨outcome, t₂⟩ := res
        cases outcome with
        | again =>
          obtain ⟨p, pre', hp, hfills⟩ := ih h
          obtain ⟨skipped, hskipped⟩ := hrest
          refine ⟨p, pre ++ .byte b :: .byte b :: (skipped ++ pre'), ?_, hfills⟩
          simp only at hp hskipped ⊢
          rw [hwire, ← hskipped, hp]
          simp only [List.append_assoc, List.cons_append]
        | status s =>
          have hs : s = .waitPacket := h
          subst hs
          obtain ⟨hdata, p, hp, hfills⟩ := htook rfl
          refine ⟨p, pre, ?_, hfills⟩
          have hbyte : b = P.PACKET_LEADER_BYTE := by
            have hne : b ≠ P.CONTROL_PACKET_LEADER_BYTE :=
              of_decide_eq_false (hkind.symm.trans hdata)
            exact (of_decide_eq_true hb).resolve_right hne
          rw [hwire, hp, hbyte, DataPacket.bytes]
          simp only [List.map_append, List.map_cons, List.map_nil, List.append_assoc,
            List.cons_append, List.nil_append]

end SdkTools.Kd
