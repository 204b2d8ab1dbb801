import SdkTools.Kd.Transport

/-!
# Packets as they are written and read

What `WriteDataPacket` puts on the wire is taken by `ReadPacketContents` as one
packet with the same type and data, after any bytes that are no leaders.
-/

namespace SdkTools.Kd

set_option autoImplicit false

variable {P : Protocol}

attribute [local simp] bytesOf valueOf read

theorem length_bytesOf (k n : Nat) : (bytesOf k n).length = k := by
  induction k generalizing n with
  | zero => rfl
  | succ k ih => simp [ih]

theorem valueOf_bytesOf (k n : Nat) : valueOf (bytesOf k n) = n % 256 ^ k := by
  induction k generalizing n with
  | zero => exact (Nat.mod_one n).symm
  | succ k ih =>
    have hpow : 256 ^ (k + 1) = 256 * 256 ^ k := Nat.pow_succ'
    rw [hpow, Nat.mod_mul, bytesOf, valueOf, ih, BitVec.toNat_ofNat]

/-- A field read in full has the value that was written. -/
theorem readField_bytesOf {k w : Nat} (hw : 256 ^ k = 2 ^ w) (field x : BitVec w) :
    readField k field (bytesOf k x.toNat) = x := by
  have hdrop : (bytesOf k field.toNat).drop (bytesOf k x.toNat).length = [] := by
    apply List.drop_eq_nil_of_le
    exact Nat.le_of_eq (by rw [length_bytesOf, length_bytesOf])
  unfold readField readInto
  rw [hdrop, List.append_nil, valueOf_bytesOf, hw, Nat.mod_eq_of_lt x.isLt, BitVec.ofNat_toNat,
    BitVec.setWidth_eq]

theorem read_bytes (bytes : List Byte) (wire : List Wire) :
    read bytes.length (bytes.map .byte ++ wire) = (bytes, wire) := by
  induction bytes with
  | nil => rfl
  | cons b bytes ih =>
    rw [List.length_cons, List.map_cons, List.cons_append, read, ih]

theorem read_field (k n : Nat) (wire : List Wire) :
    read k ((bytesOf k n).map .byte ++ wire) = (bytesOf k n, wire) := by
  have h := read_bytes (bytesOf k n) wire
  rw [length_bytesOf] at h
  exact h

theorem read_full {n : Nat} {wire : List Wire} (hlen : (read n wire).1.length = n) :
    wire = (read n wire).1.map .byte ++ (read n wire).2 := by
  induction n generalizing wire with
  | zero =>
    rw [read]
    rfl
  | succ n ih =>
    cases wire with
    | nil =>
      rw [read] at hlen
      exact absurd hlen (Nat.succ_ne_zero n).symm
    | cons e wire =>
      cases e with
      | timeout =>
        rw [read] at hlen
        exact absurd hlen (Nat.succ_ne_zero n).symm
      | byte b =>
        rw [read] at hlen
        have hrest := ih (Nat.succ.inj hlen)
        rw [read, List.map_cons, List.cons_append, ← hrest]

theorem read_suffix (n : Nat) (wire : List Wire) : (read n wire).2 <:+ wire := by
  induction n generalizing wire with
  | zero =>
    exact List.suffix_rfl
  | succ n ih =>
    cases wire with
    | nil =>
      exact List.suffix_rfl
    | cons e wire =>
      cases e with
      | timeout =>
        rw [read]
        exact List.suffix_cons _ _
      | byte b =>
        rw [read]
        exact (ih wire).trans (List.suffix_cons _ _)

/-! ## The leader -/

/-- Nothing makes the transport stop before it reads. -/
structure Quiet (type : Nat) (t : Transport P) : Prop where
  noBreakIn : ¬ (t.m_BreakIn = true ∧ type = P.PACKET_TYPE_KD_STATE_CHANGE64)
  noResync : t.m_Resync = false
  noExit : t.exitCurrentWait = false

theorem readPacketLeader_byte {type : Nat} {t : Transport P} (hq : Quiet type t) (k : Nat)
    (previous : Option Byte) {b : Byte} {wire : List Wire} (hwire : t.wire = .byte b :: wire) :
    readPacketLeader P type (k + 1) previous t =
      if isLeader P b then
        if previous = some b then
          (.ok (b = P.CONTROL_PACKET_LEADER_BYTE), { t with wire := wire })
        else readPacketLeader P type k (some b) { t with wire := wire }
      else readPacketLeader P type k none { t with wire := wire } := by
  rw [readPacketLeader, if_neg hq.noBreakIn, hq.noResync, hq.noExit, if_neg Bool.false_ne_true,
    if_neg Bool.false_ne_true, hwire]
  rfl

theorem readPacketLeader_junk {type : Nat} {t : Transport P} (hq : Quiet type t) (k : Nat)
    {junk : List Byte} (hjunk : ∀ b ∈ junk, isLeader P b = false) {wire : List Wire}
    (hwire : t.wire = junk.map .byte ++ wire) :
    readPacketLeader P type (k + junk.length) none t =
      readPacketLeader P type k none { t with wire := wire } := by
  induction junk generalizing t with
  | nil =>
    rw [List.map_nil, List.nil_append] at hwire
    subst hwire
    rfl
  | cons b junk ih =>
    have hb : ¬ isLeader P b = true := by
      rw [hjunk b List.mem_cons_self]
      exact Bool.false_ne_true
    have hq' : Quiet type { t with wire := junk.map .byte ++ wire } :=
      ⟨hq.noBreakIn, hq.noResync, hq.noExit⟩
    rw [List.length_cons, ← Nat.add_assoc, readPacketLeader_byte hq _ _ hwire, if_neg hb]
    exact ih hq' (fun b' hb' => hjunk b' (List.mem_cons_of_mem b hb')) rfl

theorem isLeader_leader : isLeader P P.PACKET_LEADER_BYTE = true :=
  decide_eq_true (Or.inl rfl)

theorem readPacketLeader_leader {type : Nat} {t : Transport P} (hq : Quiet type t) (k : Nat)
    {wire : List Wire}
    (hwire : t.wire = .byte P.PACKET_LEADER_BYTE :: .byte P.PACKET_LEADER_BYTE :: wire) :
    readPacketLeader P type (k + 2) none t = (.ok false, { t with wire := wire }) := by
  have hq' : Quiet type { t with wire := .byte P.PACKET_LEADER_BYTE :: wire } :=
    ⟨hq.noBreakIn, hq.noResync, hq.noExit⟩
  rw [readPacketLeader_byte hq _ _ hwire, if_pos isLeader_leader, if_neg nofun,
    readPacketLeader_byte hq' _ _ rfl, if_pos isLeader_leader, if_pos rfl,
    decide_eq_false P.leader_ne]

/-! ## The rest of a packet -/

/-- A data packet with valid contents, complete on the wire after its header. -/
structure Arrives (t : Transport P) (payload : List Byte) (rest : List Wire) : Prop where
  wire : t.wire = payload.map .byte ++ .byte P.PACKET_TRAILING_BYTE :: rest
  count : t.s_PacketHeader.ByteCount.toNat = payload.length
  checksum : computeChecksum payload = t.s_PacketHeader.Checksum
  id : t.s_PacketHeader.PacketId = t.m_PacketExpected
  expected : t.m_PacketExpected = P.INITIAL_PACKET_ID ∨
    t.m_PacketExpected = P.INITIAL_PACKET_ID ^^^ 1

/-- The ids in use have no bit of `SYNC_PACKET_ID`. -/
theorem expected_and_sync {id : Id}
    (h : id = P.INITIAL_PACKET_ID ∨ id = P.INITIAL_PACKET_ID ^^^ 1) :
    id &&& P.SYNC_PACKET_ID = 0 := by
  rcases h with rfl | rfl
  · exact P.initial_sync
  · exact P.next_sync

theorem and_not_of_and_eq_zero {w : Nat} {x y : BitVec w} (h : x &&& y = 0) : x &&& ~~~y = x := by
  apply BitVec.eq_of_getLsbD_eq
  intro i hi
  have hbit : (x.getLsbD i && y.getLsbD i) = false := by
    rw [← BitVec.getLsbD_and, h]
    exact BitVec.getLsbD_zero
  rw [BitVec.getLsbD_and, BitVec.getLsbD_not, decide_eq_true hi, Bool.true_and]
  cases hx : x.getLsbD i with
  | false => rfl
  | true =>
    rw [hx, Bool.true_and] at hbit
    rw [hbit]
    rfl

/-- The state after a packet with this payload is taken. -/
structure Taken (t : Transport P) (payload : List Byte) (rest : List Wire)
    (res : Outcome × Transport P) : Prop where
  status : res.1 = .status .waitPacket
  wire : res.2.wire = rest
  type : res.2.s_PacketHeader.PacketType = t.s_PacketHeader.PacketType
  count : res.2.s_PacketHeader.ByteCount.toNat = payload.length
  payload : res.2.s_Packet.take payload.length = payload
  expected : res.2.m_PacketExpected = t.m_PacketExpected ^^^ 1

theorem takePacket_taken {t : Transport P} (hid : t.s_PacketHeader.PacketId = t.m_PacketExpected)
    (hexp : t.m_PacketExpected = P.INITIAL_PACKET_ID ∨
      t.m_PacketExpected = P.INITIAL_PACKET_ID ^^^ 1) :
    (takePacket P t).1 = .status .waitPacket ∧ (takePacket P t).2.wire = t.wire ∧
      (takePacket P t).2.s_Packet = t.s_Packet ∧
      (takePacket P t).2.s_PacketHeader.PacketType = t.s_PacketHeader.PacketType ∧
      (takePacket P t).2.s_PacketHeader.ByteCount = t.s_PacketHeader.ByteCount ∧
      (takePacket P t).2.m_PacketExpected = t.m_PacketExpected ^^^ 1 := by
  have hnot : t.s_PacketHeader.PacketId &&& ~~~P.SYNC_PACKET_ID = t.m_PacketExpected := by
    rw [hid]
    exact and_not_of_and_eq_zero (expected_and_sync hexp)
  unfold takePacket
  simp only [writeControlPacket, note, hnot, ne_eq, not_true_eq_false, false_and, if_false]
  split
  · exact ⟨rfl, rfl, rfl, rfl, rfl, rfl⟩
  · exact ⟨rfl, rfl, rfl, rfl, rfl, rfl⟩

theorem dataPacket_taken {t : Transport P} {payload : List Byte} {rest : List Wire}
    (h : Arrives t payload rest) : Taken t payload rest (dataPacket P t) := by
  have hnot : t.s_PacketHeader.PacketId &&& ~~~P.SYNC_PACKET_ID = t.m_PacketExpected := by
    rw [h.id]
    exact and_not_of_and_eq_zero (expected_and_sync h.expected)
  have hread := read_bytes payload (.byte P.PACKET_TRAILING_BYTE :: rest)
  have htake : (readInto t.s_Packet payload).take payload.length = payload :=
    List.take_left
  have hvalid : ¬ (t.m_PacketExpected ≠ P.INITIAL_PACKET_ID ∧
      t.m_PacketExpected ≠ P.INITIAL_PACKET_ID ^^^ 1) := by
    intro hne
    rcases h.expected with heq | heq
    · exact hne.1 heq
    · exact hne.2 heq
  have heq : dataPacket P t = takePacket P
      { t with s_Packet := readInto t.s_Packet payload, wire := rest } := by
    unfold dataPacket
    simp only [hnot, if_neg hvalid, h.count, h.wire, hread, ne_eq, not_true_eq_false, if_false,
      read, htake, h.checksum]
  rw [heq]
  obtain ⟨hs, hw, hp, ht, hc, he⟩ := @takePacket_taken P
    { t with s_Packet := readInto t.s_Packet payload, wire := rest } h.id h.expected
  refine ⟨hs, hw, ht, ?_, ?_, he⟩
  · rw [hc]
    exact h.count
  · rw [hp]
    exact htake

/-- The data, the trailing byte and what follows on the wire. -/
def tailWire (P : Protocol) (payload : List Byte) (rest : List Wire) : List Wire :=
  payload.map .byte ++ .byte P.PACKET_TRAILING_BYTE :: rest

theorem dataHeader_taken (type : Nat) {t : Transport P} {payload : List Byte} {rest : List Wire}
    {checksum : Id}
    (hwire : t.wire = (bytesOf 4 checksum.toNat).map .byte ++ tailWire P payload rest)
    (hcount : t.s_PacketHeader.ByteCount.toNat = payload.length)
    (hsum : computeChecksum payload = checksum)
    (hid : t.s_PacketHeader.PacketId = t.m_PacketExpected)
    (hexp : t.m_PacketExpected = P.INITIAL_PACKET_ID ∨
      t.m_PacketExpected = P.INITIAL_PACKET_ID ^^^ 1) :
    Taken t payload rest (dataHeader P type t) := by
  have hread := read_field 4 checksum.toNat (tailWire P payload rest)
  have hfield : readField 4 t.s_PacketHeader.Checksum (bytesOf 4 checksum.toNat) = checksum :=
    readField_bytesOf rfl _ _
  unfold dataHeader
  simp only [hwire, hread, hfield, length_bytesOf, ne_eq, not_true_eq_false, if_false]
  split
  · have harrives : Arrives
        { t with
          wire := tailWire P payload rest,
          s_PacketHeader := { t.s_PacketHeader with Checksum := checksum },
          m_NextPacketToSend := t.m_NextPacketToSend ^^^ 1 } payload rest :=
      ⟨rfl, hcount, hsum, hid, hexp⟩
    have h := dataPacket_taken harrives
    exact ⟨h.status, h.wire, h.type, h.count, h.payload, h.expected⟩
  · have harrives : Arrives
        { t with
          wire := tailWire P payload rest,
          s_PacketHeader := { t.s_PacketHeader with Checksum := checksum } } payload rest :=
      ⟨rfl, hcount, hsum, hid, hexp⟩
    have h := dataPacket_taken harrives
    exact ⟨h.status, h.wire, h.type, h.count, h.payload, h.expected⟩

theorem readPacketId_taken (type : Nat) {t : Transport P} {payload : List Byte}
    {rest : List Wire} {checksum : Id}
    (hwire : t.wire = (bytesOf 4 t.m_PacketExpected.toNat).map .byte ++
      ((bytesOf 4 checksum.toNat).map .byte ++ tailWire P payload rest))
    (hdata : t.s_PacketHeader.isControl = false)
    (hcount : t.s_PacketHeader.ByteCount.toNat = payload.length)
    (hsum : computeChecksum payload = checksum)
    (hexp : t.m_PacketExpected = P.INITIAL_PACKET_ID ∨
      t.m_PacketExpected = P.INITIAL_PACKET_ID ^^^ 1) :
    Taken t payload rest (readPacketId P type t) := by
  have hread := read_field 4 t.m_PacketExpected.toNat
    ((bytesOf 4 checksum.toNat).map .byte ++ tailWire P payload rest)
  have hfield : readField 4 t.s_PacketHeader.PacketId (bytesOf 4 t.m_PacketExpected.toNat) =
      t.m_PacketExpected := readField_bytesOf rfl _ _
  unfold readPacketId
  simp only [hwire, hread, hfield, length_bytesOf, hdata, ne_eq, not_true_eq_false, if_false,
    Bool.false_eq_true]
  have h := @dataHeader_taken P type
    { t with
      wire := (bytesOf 4 checksum.toNat).map .byte ++ tailWire P payload rest,
      s_PacketHeader := ⟨t.s_PacketHeader.isControl, t.s_PacketHeader.PacketType,
        t.s_PacketHeader.ByteCount, t.m_PacketExpected, t.s_PacketHeader.Checksum⟩ }
    payload rest checksum rfl hcount hsum rfl hexp
  rw [hdata] at h
  exact ⟨h.status, h.wire, h.type, h.count, h.payload, h.expected⟩

theorem readByteCount_taken (type : Nat) {t : Transport P} {payload : List Byte}
    {rest : List Wire} {checksum : Id} {count : BitVec 16}
    (hwire : t.wire = (bytesOf 2 count.toNat).map .byte ++
      ((bytesOf 4 t.m_PacketExpected.toNat).map .byte ++
        ((bytesOf 4 checksum.toNat).map .byte ++ tailWire P payload rest)))
    (hdata : t.s_PacketHeader.isControl = false) (hcount : count.toNat = payload.length)
    (hmax : payload.length ≤ P.PACKET_MAX_SIZE) (hsum : computeChecksum payload = checksum)
    (hexp : t.m_PacketExpected = P.INITIAL_PACKET_ID ∨
      t.m_PacketExpected = P.INITIAL_PACKET_ID ^^^ 1) :
    Taken t payload rest (readByteCount P type t) := by
  have hread := read_field 2 count.toNat
    ((bytesOf 4 t.m_PacketExpected.toNat).map .byte ++
      ((bytesOf 4 checksum.toNat).map .byte ++ tailWire P payload rest))
  have hfield : readField 2 t.s_PacketHeader.ByteCount (bytesOf 2 count.toNat) = count :=
    readField_bytesOf rfl _ _
  have hle : ¬ count.toNat > P.PACKET_MAX_SIZE := by
    rw [hcount]
    exact Nat.not_lt_of_le hmax
  unfold readByteCount
  simp only [hwire, hread, hfield, length_bytesOf, hle, ne_eq, not_true_eq_false, if_false]
  have h := @readPacketId_taken P type
    { t with
      wire := (bytesOf 4 t.m_PacketExpected.toNat).map .byte ++
        ((bytesOf 4 checksum.toNat).map .byte ++ tailWire P payload rest),
      s_PacketHeader := { t.s_PacketHeader with ByteCount := count } }
    payload rest checksum rfl hdata hcount hsum hexp
  exact ⟨h.status, h.wire, h.type, h.count, h.payload, h.expected⟩

theorem bytesOf_two (n : Nat) :
    bytesOf 2 n = [BitVec.ofNat 8 n, BitVec.ofNat 8 (n / 256)] := rfl

/-- The low byte of a packet type is no leader. -/
theorem isLeader_type {n : Nat} (h : n < P.PACKET_TYPE_MAX) :
    isLeader P (BitVec.ofNat 8 n) = false := by
  have hl := P.type_max_le_leader
  have hc := P.type_max_le_control
  have hlt := P.PACKET_LEADER_BYTE.isLt
  have hval : (BitVec.ofNat 8 n).toNat = n := by
    rw [BitVec.toNat_ofNat]
    apply Nat.mod_eq_of_lt
    omega
  apply decide_eq_false
  rintro (heq | heq)
  · have h' := congrArg BitVec.toNat heq
    rw [hval] at h'
    omega
  · have h' := congrArg BitVec.toNat heq
    rw [hval] at h'
    omega

theorem typeLimit_le (t : Transport P) : typeLimit P t ≤ P.PACKET_TYPE_MAX := by
  unfold typeLimit
  split
  · exact Nat.le_refl _
  · exact t.max_type_le

theorem readPacketType_taken (type : Nat) {t : Transport P} {payload : List Byte}
    {rest : List Wire} {checksum : Id} {kind count : BitVec 16}
    (hwire : t.wire = .byte (BitVec.ofNat 8 (kind.toNat / 256)) ::
      ((bytesOf 2 count.toNat).map .byte ++
        ((bytesOf 4 t.m_PacketExpected.toNat).map .byte ++
          ((bytesOf 4 checksum.toNat).map .byte ++ tailWire P payload rest))))
    (hkind : kind.toNat < typeLimit P t)
    (hdata : t.s_PacketHeader.isControl = false) (hcount : count.toNat = payload.length)
    (hmax : payload.length ≤ P.PACKET_MAX_SIZE) (hsum : computeChecksum payload = checksum)
    (hexp : t.m_PacketExpected = P.INITIAL_PACKET_ID ∨
      t.m_PacketExpected = P.INITIAL_PACKET_ID ^^^ 1) :
    Taken { t with s_PacketHeader := { t.s_PacketHeader with PacketType := kind } } payload rest
      (readPacketType P type (BitVec.ofNat 8 kind.toNat) t) := by
  have hfield : readField 2 t.s_PacketHeader.PacketType
      [BitVec.ofNat 8 kind.toNat, BitVec.ofNat 8 (kind.toNat / 256)] = kind := by
    rw [← bytesOf_two]
    exact readField_bytesOf rfl _ _
  have hlimit : ¬ typeLimit P t ≤ kind.toNat := Nat.not_le_of_lt hkind
  unfold readPacketType
  simp only [hwire, read, List.length_cons, List.length_nil, hfield, ne_eq, not_true_eq_false,
    if_false, Nat.zero_add]
  split
  · rename_i hle
    exact absurd hle hlimit
  · have h := @readByteCount_taken P type
      { t with
        wire := (bytesOf 2 count.toNat).map .byte ++
          ((bytesOf 4 t.m_PacketExpected.toNat).map .byte ++
            ((bytesOf 4 checksum.toNat).map .byte ++ tailWire P payload rest)),
        s_PacketHeader := { t.s_PacketHeader with PacketType := kind } }
      payload rest checksum count rfl hdata hcount hmax hsum hexp
    exact ⟨h.status, h.wire, h.type, h.count, h.payload, h.expected⟩

theorem initialBreakIn_eq (t : Transport P) :
    (initialBreakIn t).wire = t.wire ∧ (initialBreakIn t).s_Packet = t.s_Packet ∧
      (initialBreakIn t).m_PacketExpected = t.m_PacketExpected ∧
      (initialBreakIn t).m_KdMaxPacketType = t.m_KdMaxPacketType := by
  unfold initialBreakIn
  split
  · exact ⟨rfl, rfl, rfl, rfl⟩
  · exact ⟨rfl, rfl, rfl, rfl⟩

/-- The bytes of a data packet after its first two leader bytes. -/
def packetWire (P : Protocol) (kind count : BitVec 16) (id checksum : Id) (payload : List Byte)
    (rest : List Wire) : List Wire :=
  .byte P.PACKET_LEADER_BYTE :: .byte P.PACKET_LEADER_BYTE ::
    .byte (BitVec.ofNat 8 kind.toNat) :: .byte (BitVec.ofNat 8 (kind.toNat / 256)) ::
    ((bytesOf 2 count.toNat).map .byte ++ ((bytesOf 4 id.toNat).map .byte ++
      ((bytesOf 4 checksum.toNat).map .byte ++ tailWire P payload rest)))

theorem afterLeader_taken (type : Nat) {t : Transport P} {payload : List Byte}
    {rest : List Wire} {checksum : Id} {kind count : BitVec 16}
    (hwire : t.wire = packetWire P kind count t.m_PacketExpected checksum payload rest)
    (hkind : kind.toNat < typeLimit P t) (hcount : count.toNat = payload.length)
    (hmax : payload.length ≤ P.PACKET_MAX_SIZE) (hsum : computeChecksum payload = checksum)
    (hexp : t.m_PacketExpected = P.INITIAL_PACKET_ID ∨
      t.m_PacketExpected = P.INITIAL_PACKET_ID ^^^ 1) :
    Taken { t with s_PacketHeader := { t.s_PacketHeader with PacketType := kind } } payload rest
      (afterLeader P type false t) := by
  obtain ⟨hw, hp, he, hm⟩ := initialBreakIn_eq t
  have hlow : isLeader P (BitVec.ofNat 8 kind.toNat) = false :=
    isLeader_type (Nat.lt_of_lt_of_le hkind (typeLimit_le t))
  have hskip : skipLeaderBytes P (initialBreakIn t).wire =
      (some (BitVec.ofNat 8 kind.toNat), .byte (BitVec.ofNat 8 (kind.toNat / 256)) ::
        ((bytesOf 2 count.toNat).map .byte ++ ((bytesOf 4 t.m_PacketExpected.toNat).map .byte ++
          ((bytesOf 4 checksum.toNat).map .byte ++ tailWire P payload rest)))) := by
    rw [hw, hwire, packetWire, skipLeaderBytes, if_pos isLeader_leader, skipLeaderBytes,
      if_pos isLeader_leader, skipLeaderBytes, hlow]
    rfl
  have hkind' : kind.toNat < typeLimit P (initialBreakIn t) := by
    unfold typeLimit at hkind ⊢
    rw [hm]
    exact hkind
  unfold afterLeader
  simp only [hskip]
  have h := @readPacketType_taken P type
    { initialBreakIn t with
      wire := .byte (BitVec.ofNat 8 (kind.toNat / 256)) ::
        ((bytesOf 2 count.toNat).map .byte ++ ((bytesOf 4 t.m_PacketExpected.toNat).map .byte ++
          ((bytesOf 4 checksum.toNat).map .byte ++ tailWire P payload rest))),
      m_AllowInitialBreak := false,
      s_PacketHeader := { t.s_PacketHeader with isControl := false } }
    payload rest checksum kind count (by rw [he]) hkind' rfl hcount hmax hsum
    (by rw [he]; exact hexp)
  refine ⟨h.status, h.wire, h.type, h.count, h.payload, ?_⟩
  rw [h.expected]
  exact congrArg (· ^^^ 1) he

/-! ## The round trip -/

theorem checksum_from (sum : Id) (data : List Byte) :
    data.foldl (fun sum b => sum + b.setWidth 32) sum = sum + computeChecksum data := by
  unfold computeChecksum
  induction data generalizing sum with
  | nil => exact (BitVec.add_zero sum).symm
  | cons b data ih =>
    have hzero : (0 : Id) + b.setWidth 32 = b.setWidth 32 := BitVec.zero_add _
    rw [List.foldl_cons, List.foldl_cons, ih, ih (0 + b.setWidth 32), hzero, BitVec.add_assoc]

theorem checksum_append (data more : List Byte) :
    computeChecksum (data ++ more) = computeChecksum more + computeChecksum data := by
  rw [BitVec.add_comm, ← checksum_from, computeChecksum, computeChecksum, List.foldl_append]

/-- The packet expected next has one of the two ids in use. -/
def IdExpected (t : Transport P) : Prop :=
  t.m_PacketExpected = P.INITIAL_PACKET_ID ∨ t.m_PacketExpected = P.INITIAL_PACKET_ID ^^^ 1

def payloadOf (parts : List Byte × Option (List Byte)) : List Byte := parts.1 ++ parts.2.getD []

/-- A packet is taken with the type and the data it was written with. -/
structure RoundTrip (type : Nat) (payload : List Byte) (rest : List Wire) (t : Transport P)
    (res : WaitStatus × Transport P) : Prop where
  status : res.1 = .waitPacket
  wire : res.2.wire = rest
  type : res.2.s_PacketHeader.PacketType.toNat = type
  count : res.2.s_PacketHeader.ByteCount.toNat = payload.length
  payload : res.2.s_Packet.take payload.length = payload
  expected : res.2.m_PacketExpected = t.m_PacketExpected ^^^ 1

theorem writeDataPacket_wire (c : Conversion) {type : Nat} (id : Id) (data : List Byte)
    (more : Option (List Byte)) (rest : List Wire) :
    (writeDataPacket P c type id data more).map .byte ++ rest =
      .byte P.PACKET_LEADER_BYTE :: .byte P.PACKET_LEADER_BYTE ::
        packetWire P (BitVec.ofNat 16 type)
          (BitVec.ofNat 16 (payloadOf (sentParts P c type data more)).length) id
          (computeChecksum (payloadOf (sentParts P c type data more)))
          (payloadOf (sentParts P c type data more)) rest := by
  simp only [writeDataPacket, writePacketContents, dataPacketHeader, KdPacket.bytes, leaderBytes,
    packetWire, tailWire, payloadOf, checksum_append, List.length_append, Bool.false_eq_true,
    if_false, bytesOf_two, List.map_append, List.map_cons, List.map_nil, List.append_assoc,
    List.cons_append, List.nil_append]

theorem readPacketContents_status {type k : Nat} {t t₁ t₂ : Transport P} {isControl : Bool}
    {s : WaitStatus}
    (hleader : readPacketLeader P type (t.wire.length + 1) none t = (.ok isControl, t₁))
    (hafter : afterLeader P type isControl t₁ = (.status s, t₂)) :
    readPacketContents P type (k + 1) t = (s, t₂) := by
  rw [readPacketContents, hleader]
  simp only [hafter]

/-- What `WriteDataPacket` puts on the wire is read as one packet with the parts it
sent, up to and with the trailing byte. -/
theorem packet_round_trip (c : Conversion) (waitType type : Nat) (t : Transport P)
    (data : List Byte) (more : Option (List Byte)) (junk : List Byte) (rest : List Wire)
    (hq : Quiet waitType t) (hexp : IdExpected t) (htype : type < typeLimit P t)
    (hsize : (payloadOf (sentParts P c type data more)).length ≤ P.PACKET_MAX_SIZE)
    (hjunk : ∀ b ∈ junk, isLeader P b = false)
    (hwire : t.wire = (junk ++ writeDataPacket P c type t.m_PacketExpected data more).map .byte ++
      rest) :
    RoundTrip type (payloadOf (sentParts P c type data more)) rest t
      (ReadPacketContents P waitType t) := by
  have hmax := P.max_size_lt
  have hlt : type < 2 ^ 16 := by
    have h := typeLimit_le t
    have h' := P.type_max_le_leader
    have h'' := P.PACKET_LEADER_BYTE.isLt
    omega
  have hkind : (BitVec.ofNat 16 type).toNat = type := by
    rw [BitVec.toNat_ofNat]
    exact Nat.mod_eq_of_lt hlt
  have hcount : (BitVec.ofNat 16 (payloadOf (sentParts P c type data more)).length).toNat =
      (payloadOf (sentParts P c type data more)).length := by
    rw [BitVec.toNat_ofNat]
    exact Nat.mod_eq_of_lt (Nat.lt_of_le_of_lt hsize hmax)
  rw [List.map_append, List.append_assoc, writeDataPacket_wire] at hwire
  generalize hafter : packetWire P (BitVec.ofNat 16 type)
    (BitVec.ofNat 16 (payloadOf (sentParts P c type data more)).length) t.m_PacketExpected
    (computeChecksum (payloadOf (sentParts P c type data more)))
    (payloadOf (sentParts P c type data more)) rest = after at hwire
  have hlen : t.wire.length + 1 = (after.length + 1 + 2) + junk.length := by
    rw [hwire, List.length_append, List.length_map, List.length_cons, List.length_cons]
    omega
  have hq' : Quiet waitType { t with
      wire := .byte P.PACKET_LEADER_BYTE :: .byte P.PACKET_LEADER_BYTE :: after } :=
    ⟨hq.noBreakIn, hq.noResync, hq.noExit⟩
  have hleader : readPacketLeader P waitType (t.wire.length + 1) none t =
      (.ok false, { t with wire := after }) := by
    rw [hlen, readPacketLeader_junk hq _ hjunk hwire, readPacketLeader_leader hq' _ rfl]
  have htaken := @afterLeader_taken P waitType { t with wire := after }
    (payloadOf (sentParts P c type data more)) rest _ (BitVec.ofNat 16 type)
    (BitVec.ofNat 16 (payloadOf (sentParts P c type data more)).length) hafter.symm
    (by rw [hkind]; exact htype) hcount hsize rfl hexp
  have hres : ReadPacketContents P waitType t =
      (.waitPacket, (afterLeader P waitType false { t with wire := after }).2) :=
    readPacketContents_status hleader (Prod.ext htaken.status rfl)
  rw [hres]
  refine ⟨rfl, htaken.wire, ?_, htaken.count, htaken.payload, htaken.expected⟩
  rw [htaken.type]
  exact hkind

/-- The constants as the header file documents them. -/
def windbgkd : Protocol where
  PACKET_LEADER_BYTE := 0x30
  CONTROL_PACKET_LEADER_BYTE := 0x69
  PACKET_TRAILING_BYTE := 0xaa
  PACKET_MAX_SIZE := 4000
  INITIAL_PACKET_ID := 0x80800000
  SYNC_PACKET_ID := 0x800
  PACKET_TYPE_MAX := 12
  PACKET_TYPE_KD_ACKNOWLEDGE := 4
  PACKET_TYPE_KD_RESET := 6
  PACKET_TYPE_KD_RESEND := 5
  PACKET_TYPE_KD_STATE_MANIPULATE := 2
  PACKET_TYPE_KD_STATE_CHANGE64 := 7
  PACKET_TYPE_KD_CONTROL_REQUEST := 10
  leader_ne := by decide
  type_max_le_leader := by decide
  type_max_le_control := by decide
  request_lt_max := by decide
  max_size_lt := by decide
  reset_ne_ack := by decide
  resend_ne_ack := by decide
  sync_bit := ⟨11, by decide, by decide⟩
  initial_sync := by decide
  next_sync := by decide

/-- A transport that has synchronized and has something to read. -/
def restarted (wire : List Wire) : Transport windbgkd where
  wire := wire
  m_PacketExpected := windbgkd.INITIAL_PACKET_ID
  m_NextPacketToSend := windbgkd.INITIAL_PACKET_ID
  m_KdMaxPacketType := 0
  max_type_le := Nat.zero_le _
  s_PacketHeader := ⟨false, 0, 0, 0, 0⟩
  s_Packet := []
  written := []
  breakInsWritten := 0
  m_BreakIn := false
  m_Resync := false
  exitCurrentWait := false
  m_AllowInitialBreak := true
  initialBreak := false
  log := []

def sameParts : Conversion where
  kdApi64 := true
  to32 := fun data more => (data, more)

theorem packet_round_trip_two_parts :
    RoundTrip 3 [0x30, 0x69, 0xaa] []
      (restarted ((([0x41] : List Byte) ++ writeDataPacket windbgkd sameParts 3
        windbgkd.INITIAL_PACKET_ID [0x30, 0x69] (some [0xaa])).map .byte ++ []))
      (ReadPacketContents windbgkd 7
        (restarted ((([0x41] : List Byte) ++ writeDataPacket windbgkd sameParts 3
          windbgkd.INITIAL_PACKET_ID [0x30, 0x69] (some [0xaa])).map .byte ++ []))) := by
  have hq : Quiet 7 (restarted ((([0x41] : List Byte) ++ writeDataPacket windbgkd sameParts 3
      windbgkd.INITIAL_PACKET_ID [0x30, 0x69] (some [0xaa])).map .byte ++ [])) :=
    ⟨fun h => Bool.false_ne_true h.1, rfl, rfl⟩
  exact packet_round_trip sameParts 7 3 _ [0x30, 0x69] (some [0xaa]) [0x41] [] hq (Or.inl rfl)
    (by decide) (by decide) (by decide) rfl

end SdkTools.Kd
