import Mathlib

/-!
# The serial transport of the kernel debugger

`ReadPacketLeader`, `ReadPacketContents`, `WriteDataPacket` and
`WritePacketContents` of `dbgkdtrans.cpp`. The wire is a list of bytes and of
points where a read times out; a short read leaves the rest of its buffer as it
was.
-/

namespace SdkTools.Kd

set_option autoImplicit false

abbrev Byte := BitVec 8

abbrev Id := BitVec 32

/-! ## The packet format -/

/-- The value of little-endian bytes. -/
def valueOf : List Byte → Nat
  | [] => 0
  | b :: bs => b.toNat + 256 * valueOf bs

/-- The `k` little-endian bytes of a number. -/
def bytesOf : Nat → Nat → List Byte
  | 0, _ => []
  | k + 1, n => BitVec.ofNat 8 n :: bytesOf k (n / 256)

/-- The constants of the protocol's header file with what the code relies on: the
leaders differ from each other and from the low bytes of the packet types, the
control packets have types of their own, and `SYNC_PACKET_ID` is one bit, which the
two packet ids do not have. -/
structure Protocol where
  PACKET_LEADER_BYTE : Byte
  CONTROL_PACKET_LEADER_BYTE : Byte
  PACKET_TRAILING_BYTE : Byte
  PACKET_MAX_SIZE : Nat
  INITIAL_PACKET_ID : Id
  SYNC_PACKET_ID : Id
  PACKET_TYPE_MAX : Nat
  PACKET_TYPE_KD_ACKNOWLEDGE : Nat
  PACKET_TYPE_KD_RESET : Nat
  PACKET_TYPE_KD_RESEND : Nat
  PACKET_TYPE_KD_STATE_MANIPULATE : Nat
  PACKET_TYPE_KD_STATE_CHANGE64 : Nat
  PACKET_TYPE_KD_CONTROL_REQUEST : Nat
  leader_ne : PACKET_LEADER_BYTE ≠ CONTROL_PACKET_LEADER_BYTE
  type_max_le_leader : PACKET_TYPE_MAX ≤ PACKET_LEADER_BYTE.toNat
  type_max_le_control : PACKET_TYPE_MAX ≤ CONTROL_PACKET_LEADER_BYTE.toNat
  request_lt_max : PACKET_TYPE_KD_CONTROL_REQUEST < PACKET_TYPE_MAX
  max_size_lt : PACKET_MAX_SIZE < 2 ^ 16
  reset_ne_ack : PACKET_TYPE_KD_RESET ≠ PACKET_TYPE_KD_ACKNOWLEDGE
  resend_ne_ack : PACKET_TYPE_KD_RESEND ≠ PACKET_TYPE_KD_ACKNOWLEDGE
  sync_bit : ∃ i < 32, SYNC_PACKET_ID = BitVec.twoPow 32 i
  initial_sync : INITIAL_PACKET_ID &&& SYNC_PACKET_ID = 0
  next_sync : (INITIAL_PACKET_ID ^^^ 1) &&& SYNC_PACKET_ID = 0

variable (P : Protocol)

def isLeader (b : Byte) : Bool :=
  b = P.PACKET_LEADER_BYTE ∨ b = P.CONTROL_PACKET_LEADER_BYTE

/-- `KD_PACKET`; its leader is four equal bytes. -/
structure KdPacket where
  isControl : Bool
  PacketType : BitVec 16
  ByteCount : BitVec 16
  PacketId : Id
  Checksum : Id
deriving DecidableEq, Repr

/-- `ComputeChecksum` -/
def computeChecksum (data : List Byte) : Id :=
  data.foldl (fun sum b => sum + b.setWidth 32) 0

def leaderBytes (b : Byte) : List Byte := [b, b, b, b]

def KdPacket.bytes (h : KdPacket) : List Byte :=
  leaderBytes (if h.isControl then P.CONTROL_PACKET_LEADER_BYTE else P.PACKET_LEADER_BYTE) ++
    bytesOf 2 h.PacketType.toNat ++ bytesOf 2 h.ByteCount.toNat ++ bytesOf 4 h.PacketId.toNat ++
    bytesOf 4 h.Checksum.toNat

/-! ## The wire -/

inductive Wire where
  | byte (b : Byte)
  | timeout
deriving DecidableEq, Repr

/-- `Read`: the bytes up to a timeout, at most `n`. -/
def read : Nat → List Wire → List Byte × List Wire
  | 0, wire => ([], wire)
  | _ + 1, [] => ([], [])
  | _ + 1, .timeout :: wire => ([], wire)
  | n + 1, .byte b :: wire => (b :: (read n wire).1, (read n wire).2)

/-- A buffer after the bytes read into it. -/
def readInto (buffer got : List Byte) : List Byte := got ++ buffer.drop got.length

/-- A field of `k` bytes after the bytes read into it. -/
def readField (k : Nat) {w : Nat} (field : BitVec w) (got : List Byte) : BitVec w :=
  BitVec.ofNat w (valueOf (readInto (bytesOf k field.toNat) got))

/-! ## The transport -/

inductive WaitStatus where
  | waitPacket | waitAck | waitResync | waitFailed | waitResend | waitInterrupted
deriving DecidableEq, Repr

/-- A control packet written to the wire. -/
structure Control where
  PacketType : Nat
  PacketId : Id
deriving DecidableEq, Repr

/-- What is done with a data packet: it is taken, with or without its bit
`SYNC_PACKET_ID`, it is not the one expected, or it comes in place of an
acknowledgement. -/
inductive Answer where
  | accepted | synced | refused | turnedAway
deriving DecidableEq, Repr

/-- The history of the transport: an answer to a packet id, as it came, with the ids
the transport has after it, or a reset. -/
inductive Entry where
  | answered (answer : Answer) (id expected next : Id)
  | reset
deriving DecidableEq, Repr

/-- The transport and the global packet buffer. No function reads `log`. -/
structure Transport (P : Protocol) where
  wire : List Wire
  m_PacketExpected : Id
  m_NextPacketToSend : Id
  m_KdMaxPacketType : Nat
  max_type_le : m_KdMaxPacketType ≤ P.PACKET_TYPE_MAX
  s_PacketHeader : KdPacket
  s_Packet : List Byte
  written : List Control
  breakInsWritten : Nat
  m_BreakIn : Bool
  m_Resync : Bool
  exitCurrentWait : Bool
  m_AllowInitialBreak : Bool
  initialBreak : Bool
  log : List Entry

/-- The maximum `m_KdMaxPacketType` is set to from the target's version. -/
def kdMaxPacketType (beforeXP : Bool) (versionMax : Nat) : Nat :=
  if beforeXP ∨ versionMax = 0 ∨ versionMax > P.PACKET_TYPE_MAX then
    P.PACKET_TYPE_KD_CONTROL_REQUEST + 1
  else versionMax

theorem kdMaxPacketType_le (beforeXP : Bool) (versionMax : Nat) :
    kdMaxPacketType P beforeXP versionMax ≤ P.PACKET_TYPE_MAX := by
  unfold kdMaxPacketType
  split
  · exact P.request_lt_max
  · omega

def typeLimit (t : Transport P) : Nat :=
  if t.m_KdMaxPacketType = 0 then P.PACKET_TYPE_MAX else t.m_KdMaxPacketType

def writeControlPacket {P : Protocol} (type : Nat) (id : Id) (t : Transport P) : Transport P :=
  { t with written := t.written ++ [⟨type, id⟩] }

def note {P : Protocol} (answer : Answer) (id : Id) (t : Transport P) : Transport P :=
  { t with log := t.log ++ [.answered answer id t.m_PacketExpected t.m_NextPacketToSend] }

def writeBreakInPacket {P : Protocol} (t : Transport P) : Transport P :=
  { t with breakInsWritten := t.breakInsWritten + 1, m_BreakIn := false }

/-- The break-in `m_AllowInitialBreak` asks for. -/
def initialBreakIn {P : Protocol} (t : Transport P) : Transport P :=
  if t.m_AllowInitialBreak ∧ t.initialBreak then writeBreakInPacket t else t

/-- The loop of `ReadPacketLeader`, with `PreviousDataByte` where `Index` is one; the
result is a status or the kind of the leader. -/
def readPacketLeader (type : Nat) :
    Nat → Option Byte → Transport P → Except WaitStatus Bool × Transport P
  | 0, _, t => (.error .waitFailed, t)
  | k + 1, previous, t =>
    if t.m_BreakIn ∧ type = P.PACKET_TYPE_KD_STATE_CHANGE64 then
      (.error .waitResync, writeBreakInPacket t)
    else if t.m_Resync then
      -- `Synchronize` resets the ids or is interrupted; it is a step of its own
      (.error .waitResync, { t with m_Resync := false })
    else if t.exitCurrentWait then (.error .waitInterrupted, t)
    else
      match read 1 t.wire with
      | ([b], wire) =>
        if isLeader P b then
          if previous = some b then
            (.ok (b = P.CONTROL_PACKET_LEADER_BYTE), { t with wire := wire })
          else readPacketLeader type k (some b) { t with wire := wire }
        else readPacketLeader type k none { t with wire := wire }
      | (_, wire) => (.error .waitFailed, initialBreakIn { t with wire := wire })

/-- The loop that drops the other leader bytes and keeps the byte after them. -/
def skipLeaderBytes : List Wire → Option Byte × List Wire
  | [] => (none, [])
  | .timeout :: wire => (none, wire)
  | .byte b :: wire => if isLeader P b then skipLeaderBytes wire else (some b, wire)

/-- The end of a reading of a packet: go to `WaitForPacketLeader`, or return. -/
inductive Outcome where
  | again
  | status (s : WaitStatus)
deriving DecidableEq, Repr

/-- A resend is asked for after a data leader. -/
def requestResend (t : Transport P) : Outcome × Transport P :=
  (.again, if t.s_PacketHeader.isControl then t else writeControlPacket P.PACKET_TYPE_KD_RESEND 0 t)

/-- A control packet after its header. -/
def controlPacket (type : Nat) (t : Transport P) : Outcome × Transport P :=
  let received := t.s_PacketHeader.PacketType.toNat
  if received = P.PACKET_TYPE_KD_ACKNOWLEDGE then
    if t.s_PacketHeader.PacketId ≠ t.m_NextPacketToSend then (.again, t)
    else if type = P.PACKET_TYPE_KD_ACKNOWLEDGE then
      (.status .waitAck, { t with m_NextPacketToSend := t.m_NextPacketToSend ^^^ 1 })
    else (.again, t)
  else if received = P.PACKET_TYPE_KD_RESET then
    (.status .waitFailed, writeControlPacket P.PACKET_TYPE_KD_RESET 0
      { t with
        m_NextPacketToSend := P.INITIAL_PACKET_ID, m_PacketExpected := P.INITIAL_PACKET_ID,
        log := t.log ++ [.reset] })
  else if received = P.PACKET_TYPE_KD_RESEND then (.status .waitFailed, t)
  else (.again, t)

/-- A complete data packet: it is acknowledged, and taken if its id is expected or
has the bit `SYNC_PACKET_ID`. -/
def takePacket (t : Transport P) : Outcome × Transport P :=
  let raw := t.s_PacketHeader.PacketId
  let id := raw &&& ~~~P.SYNC_PACKET_ID
  let t := writeControlPacket P.PACKET_TYPE_KD_ACKNOWLEDGE id
    { t with s_PacketHeader := { t.s_PacketHeader with PacketId := id } }
  if id ≠ t.m_PacketExpected ∧ raw &&& P.SYNC_PACKET_ID ≠ P.SYNC_PACKET_ID then
    (.again, note .refused raw t)
  else if raw &&& P.SYNC_PACKET_ID = P.SYNC_PACKET_ID then
    (.status .waitPacket, note .synced raw
      { t with m_PacketExpected := id ^^^ 1, m_NextPacketToSend := P.INITIAL_PACKET_ID })
  else
    (.status .waitPacket, note .accepted raw
      { t with m_PacketExpected := t.m_PacketExpected ^^^ 1 })

/-- The data, the trailing byte and the checksum of a data packet. -/
def dataPacket (t : Transport P) : Outcome × Transport P :=
  let id := t.s_PacketHeader.PacketId &&& ~~~P.SYNC_PACKET_ID
  if id ≠ P.INITIAL_PACKET_ID ∧ id ≠ P.INITIAL_PACKET_ID ^^^ 1 then (.status .waitResend, t)
  else
    let count := t.s_PacketHeader.ByteCount.toNat
    let (got, wire) := read count t.wire
    let t := { t with s_Packet := readInto t.s_Packet got, wire := wire }
    if got.length ≠ count then (.status .waitResend, t)
    else
      match read 1 t.wire with
      | ([b], wire) =>
        let t := { t with wire := wire }
        if b ≠ P.PACKET_TRAILING_BYTE then (.status .waitResend, t)
        else if computeChecksum (t.s_Packet.take count) ≠ t.s_PacketHeader.Checksum then
          (.status .waitResend, t)
        else takePacket P t
      | (_, wire) => (.status .waitResend, { t with wire := wire })

/-- A data packet header: its checksum, and its id where an acknowledgement is
waited for. -/
def dataHeader (type : Nat) (t : Transport P) : Outcome × Transport P :=
  let (got, wire) := read 4 t.wire
  let t := { t with
    wire := wire,
    s_PacketHeader := { t.s_PacketHeader with
      Checksum := readField 4 t.s_PacketHeader.Checksum got } }
  if got.length ≠ 4 then (.again, writeControlPacket P.PACKET_TYPE_KD_RESEND 0 t)
  else if type = P.PACKET_TYPE_KD_ACKNOWLEDGE then
    if t.s_PacketHeader.PacketId = t.m_PacketExpected then
      dataPacket P { t with m_NextPacketToSend := t.m_NextPacketToSend ^^^ 1 }
    else
      (.again, note .turnedAway t.s_PacketHeader.PacketId
        (writeControlPacket P.PACKET_TYPE_KD_ACKNOWLEDGE t.s_PacketHeader.PacketId t))
  else dataPacket P t

/-- The id after the byte count. -/
def readPacketId (type : Nat) (t : Transport P) : Outcome × Transport P :=
  let (got, wire) := read 4 t.wire
  let t := { t with
    wire := wire,
    s_PacketHeader := { t.s_PacketHeader with
      PacketId := readField 4 t.s_PacketHeader.PacketId got } }
  if got.length ≠ 4 then requestResend P t
  else if t.s_PacketHeader.isControl then controlPacket P type t
  else dataHeader P type t

/-- The byte count after the packet type. -/
def readByteCount (type : Nat) (t : Transport P) : Outcome × Transport P :=
  let (got, wire) := read 2 t.wire
  let t := { t with
    wire := wire,
    s_PacketHeader := { t.s_PacketHeader with
      ByteCount := readField 2 t.s_PacketHeader.ByteCount got } }
  if got.length ≠ 2 then requestResend P t
  else if t.s_PacketHeader.ByteCount.toNat > P.PACKET_MAX_SIZE then requestResend P t
  else readPacketId P type t

/-- The second byte of the packet type after the first. -/
def readPacketType (type : Nat) (low : Byte) (t : Transport P) : Outcome × Transport P :=
  let (got, wire) := read 1 t.wire
  let t := { t with
    wire := wire,
    s_PacketHeader := { t.s_PacketHeader with
      PacketType := readField 2 t.s_PacketHeader.PacketType (low :: got) } }
  if got.length ≠ 1 then requestResend P t
  else if typeLimit P t ≤ t.s_PacketHeader.PacketType.toNat then requestResend P t
  else readByteCount P type t

/-- What follows a leader. -/
def afterLeader (type : Nat) (isControl : Bool) (t : Transport P) : Outcome × Transport P :=
  let t := { initialBreakIn t with
    m_AllowInitialBreak := false
    s_PacketHeader := { t.s_PacketHeader with isControl := isControl } }
  match skipLeaderBytes P t.wire with
  | (none, wire) => (.again, { t with wire := wire })
  | (some low, wire) => readPacketType P type low { t with wire := wire }

def readPacketContents (type : Nat) : Nat → Transport P → WaitStatus × Transport P
  | 0, t => (.waitFailed, t)
  | k + 1, t =>
    match readPacketLeader P type (t.wire.length + 1) none t with
    | (.error s, t) => (s, t)
    | (.ok isControl, t) =>
      match afterLeader P type isControl t with
      | (.status s, t) => (s, t)
      | (.again, t) => readPacketContents type k t

/-- The fuel no run uses up: each leader takes two bytes of the wire. -/
def ReadPacketContents (type : Nat) (t : Transport P) : WaitStatus × Transport P :=
  readPacketContents P type (t.wire.length + 1) t

/-! ## Writing -/

/-- The bytes of `WritePacketContents` when no write fails. -/
def writePacketContents (header : KdPacket) (data : List Byte) (more : Option (List Byte)) :
    List Byte :=
  header.bytes P ++ data ++ more.getD [] ++ [P.PACKET_TRAILING_BYTE]

/-- The parts of a data packet as `WriteDataPacket` sends them: a state manipulation
for a 32-bit target is converted first. -/
structure Conversion where
  kdApi64 : Bool
  /-- `DbgkdManipulateState64To32` and, for a breakpoint array, the extra part -/
  to32 : List Byte → Option (List Byte) → List Byte × Option (List Byte)

def sentParts (c : Conversion) (type : Nat) (data : List Byte) (more : Option (List Byte)) :
    List Byte × Option (List Byte) :=
  if c.kdApi64 = false ∧ type = P.PACKET_TYPE_KD_STATE_MANIPULATE then c.to32 data more
  else (data, more)

/-- The header `WriteDataPacket` makes. -/
def dataPacketHeader (type : Nat) (id : Id) (data : List Byte) (more : Option (List Byte)) :
    KdPacket where
  isControl := false
  PacketType := BitVec.ofNat 16 type
  ByteCount := BitVec.ofNat 16 (data.length + (more.getD []).length)
  PacketId := id
  Checksum := computeChecksum (more.getD []) + computeChecksum data

def writeDataPacket (c : Conversion) (type : Nat) (id : Id) (data : List Byte)
    (more : Option (List Byte)) : List Byte :=
  let parts := sentParts P c type data more
  writePacketContents P (dataPacketHeader type id parts.1 parts.2) parts.1 parts.2

end SdkTools.Kd
