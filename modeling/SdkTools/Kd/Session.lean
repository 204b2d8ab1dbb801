import SdkTools.Kd.Receive

/-!
# What `WaitForPacket` exposes

`WaitForPacket` with its loop, the packet it reads ahead while an acknowledgement is
waited for, and the handlers, which write and wait themselves. The packets exposed lie
complete on the wire while no reading is started over a packet kept unread.
-/

namespace SdkTools.Kd

set_option autoImplicit false

/-- What `WaitForPacket` uses besides the transport. -/
structure Host where
  PACKET_TYPE_KD_STATE_CHANGE32 : Nat
  PACKET_TYPE_KD_DEBUG_IO : Nat
  PACKET_TYPE_KD_TRACE_IO : Nat
  PACKET_TYPE_KD_FILE_IO : Nat
  /-- `DbgkdManipulateState32To64` on the buffer, with its version or trailing data -/
  to64 : List Byte → List Byte

/-- Where a call of `WaitForPacket` stands: before `ReadPacketContents`, in the handler
of an internal packet, which changes the packet before it writes, or at `ReadBuffered`. -/
inductive Place where
  | readContents
  | handling (writing : Bool)
  | readBuffered
deriving DecidableEq, Repr

/-- A call of `WaitForPacket`. -/
structure Wait where
  PacketType : Nat
  InvPacketRetry : Nat
  place : Place
deriving DecidableEq, Repr

/-- What a call returning `DBGKD_WAIT_PACKET` exposes. -/
structure Exposure where
  m_KdApi64 : Bool
  s_PacketHeader : KdPacket
  s_Packet : List Byte
deriving DecidableEq, Repr

/-- The calls of `WaitForPacket`, the innermost first, and what they share. No function
reads `exposed`. -/
structure Session (P : Protocol) where
  transport : Transport P
  m_ValidUnaccessedPacket : Bool
  m_AckWrites : Bool
  m_InvPacketRetryLimit : Nat
  m_KdApi64 : Bool
  waits : List Wait
  exposed : List Exposure

variable {P : Protocol} (H : Host)

def isInternal (P : Protocol) (type : Nat) : Bool :=
  type = H.PACKET_TYPE_KD_DEBUG_IO ∨ type = H.PACKET_TYPE_KD_TRACE_IO ∨
    type = P.PACKET_TYPE_KD_CONTROL_REQUEST ∨ type = H.PACKET_TYPE_KD_FILE_IO

/-- `WaitForPacket` up to its loop. -/
def waitForPacket (type : Nat) (s : Session P) : Session P :=
  let place : Place :=
    if type ≠ P.PACKET_TYPE_KD_ACKNOWLEDGE ∧ s.m_ValidUnaccessedPacket = true then .readBuffered
    else .readContents
  { s with waits := ⟨type, 0, place⟩ :: s.waits }

def returned (outer : List Wait) (s : Session P) : Session P := { s with waits := outer }

/-- The loop reads again, unless an acknowledgement is waited for. -/
def readOn (w : Wait) (outer : List Wait) (s : Session P) : Session P :=
  if w.PacketType = P.PACKET_TYPE_KD_ACKNOWLEDGE then returned outer s
  else { s with waits := { w with place := .readContents } :: outer }

/-- `DBGKD_WAIT_RESEND` in the loop. -/
def askResend (w : Wait) (outer : List Wait) (s : Session P) : Session P :=
  if s.m_AckWrites = false then returned outer s
  else
    readOn w outer
      { s with transport := writeControlPacket P.PACKET_TYPE_KD_RESEND 0 s.transport }

/-- The loop of `WaitForPacket` after a reading. -/
def afterRead (w : Wait) (outer : List Wait) (status : WaitStatus) (s : Session P) : Session P :=
  match status with
  | .waitPacket =>
    if isInternal H P s.transport.s_PacketHeader.PacketType.toNat then
      { s with waits := { w with place := .handling false } :: outer }
    else if w.PacketType = P.PACKET_TYPE_KD_ACKNOWLEDGE then
      returned outer { s with m_ValidUnaccessedPacket := true }
    else { s with waits := { w with place := .readBuffered } :: outer }
  | .waitAck =>
    if w.PacketType = P.PACKET_TYPE_KD_ACKNOWLEDGE then returned outer s else askResend w outer s
  | .waitResend => askResend w outer s
  | _ => returned outer s

def readContents (w : Wait) (outer : List Wait) (s : Session P) : Session P :=
  let (status, t) := ReadPacketContents P w.PacketType s.transport
  afterRead H w outer status { s with transport := t }

/-- The loop of `WaitForPacket` after a handler. -/
def handled (w : Wait) (outer : List Wait) (resend : Bool) (s : Session P) : Session P :=
  if resend then askResend w outer s else readOn w outer s

/-- The buffer handed out: a state manipulation of a 32-bit target is converted. -/
def shown (P : Protocol) (api64 : Bool) (header : KdPacket) (buffer : List Byte) : List Byte :=
  if api64 = false ∧ header.PacketType.toNat = P.PACKET_TYPE_KD_STATE_MANIPULATE then
    H.to64 buffer
  else buffer

/-- The end of `WaitForPacket`. -/
def expose (outer : List Wait) (s : Session P) : Session P :=
  let header := s.transport.s_PacketHeader
  let packet := shown H P s.m_KdApi64 header s.transport.s_Packet
  { s with
    transport := { s.transport with s_Packet := packet }
    m_ValidUnaccessedPacket := false
    waits := outer
    exposed := s.exposed ++ [⟨s.m_KdApi64, header, packet⟩] }

def isStateChange64 (w : Wait) (s : Session P) : Bool :=
  w.PacketType = P.PACKET_TYPE_KD_STATE_CHANGE64 ∧
    s.transport.s_PacketHeader.PacketType.toNat = P.PACKET_TYPE_KD_STATE_CHANGE64

def isStateChange32 (w : Wait) (s : Session P) : Bool :=
  w.PacketType = P.PACKET_TYPE_KD_STATE_CHANGE64 ∧ ¬ isStateChange64 w s ∧
    s.transport.s_PacketHeader.PacketType.toNat = H.PACKET_TYPE_KD_STATE_CHANGE32

/-- `m_KdApi64` after the state change a call waits for. -/
def apiAfter (w : Wait) (s : Session P) : Bool :=
  if isStateChange64 w s then true else if isStateChange32 H w s then false else s.m_KdApi64

/-- The type a call waits for after the state change. -/
def typeAfter (w : Wait) (s : Session P) : Nat :=
  if isStateChange32 H w s then H.PACKET_TYPE_KD_STATE_CHANGE32 else w.PacketType

/-- `WaitForPacket` from `ReadBuffered` on. -/
def readBuffered (w : Wait) (outer : List Wait) (s : Session P) : Session P :=
  let type := typeAfter H w s
  let s := { s with m_KdApi64 := apiAfter H w s }
  if type ≠ s.transport.s_PacketHeader.PacketType.toNat then
    if s.m_InvPacketRetryLimit > 0 ∧ w.InvPacketRetry + 1 ≥ s.m_InvPacketRetryLimit then
      returned outer s
    else
      let retry := if s.m_InvPacketRetryLimit > 0 then w.InvPacketRetry + 1 else w.InvPacketRetry
      { s with waits := ⟨type, retry, .readContents⟩ :: outer }
  else expose H outer s

/-! ## The session -/

inductive Event where
  | wait (type : Nat)
  | write | change | read | handled | buffered
  | other (keep : Bool)
deriving DecidableEq, Repr

/-- A step of the session: the host waits for a packet (for an acknowledgement behind
every packet it writes), the call on top goes on, or the transport does something that
leaves the packet alone. -/
inductive SessionStep : Session P → Event → Session P → Prop where
  | wait (type : Nat) {s : Session P} (hidle : s.waits = []) :
      SessionStep s (.wait type) (waitForPacket type s)
  /-- a handler writes a packet and waits for its acknowledgement -/
  | write {s : Session P} {w : Wait} {outer : List Wait} {writing : Bool}
      (hwaits : s.waits = w :: outer) (hplace : w.place = .handling writing) :
      SessionStep s .write (waitForPacket P.PACKET_TYPE_KD_ACKNOWLEDGE
        { s with waits := { w with place := .handling true } :: outer })
  /-- a handler makes its answer in the buffer -/
  | change (buffer : List Byte) {s : Session P} {w : Wait} {outer : List Wait}
      (hwaits : s.waits = w :: outer) (hplace : w.place = .handling false) :
      SessionStep s .change { s with transport := { s.transport with s_Packet := buffer } }
  | read {s : Session P} {w : Wait} {outer : List Wait}
      (hwaits : s.waits = w :: outer) (hplace : w.place = .readContents) :
      SessionStep s .read (readContents H w outer s)
  | handled (resend : Bool) {s : Session P} {w : Wait} {outer : List Wait} {writing : Bool}
      (hwaits : s.waits = w :: outer) (hplace : w.place = .handling writing) :
      SessionStep s .handled (handled w outer resend s)
  | buffered {s : Session P} {w : Wait} {outer : List Wait}
      (hwaits : s.waits = w :: outer) (hplace : w.place = .readBuffered) :
      SessionStep s .buffered (readBuffered H w outer s)
  /-- `Synchronize`, `Restart`, control packets and the rest of the engine -/
  | other (keep api64 : Bool) {s : Session P} {t : Transport P}
      (hheader : t.s_PacketHeader = s.transport.s_PacketHeader)
      (hbuffer : t.s_Packet = s.transport.s_Packet) (hwire : t.wire <:+ s.transport.wire) :
      SessionStep s (.other keep)
        { s with
          transport := t
          m_ValidUnaccessedPacket := s.m_ValidUnaccessedPacket && keep
          m_KdApi64 := api64 }

/-- The header and the buffer hold one packet that lies complete on the wire. -/
def Held (P : Protocol) (stream : List Wire) (header : KdPacket) (buffer : List Byte) : Prop :=
  ∃ (p : DataPacket) (pre rest : List Wire),
    stream = pre ++ ((p.bytes P).map .byte ++ rest) ∧ p.Fills P header buffer

/-- What was exposed is one complete packet of the wire. -/
def Intact (P : Protocol) (stream : List Wire) (x : Exposure) : Prop :=
  ∃ buffer, Held P stream x.s_PacketHeader buffer ∧
    x.s_Packet = shown H P x.m_KdApi64 x.s_PacketHeader buffer

/-- The buffers hold a packet of the wire. -/
def Full (stream : List Wire) (s : Session P) : Prop :=
  Held P stream s.transport.s_PacketHeader s.transport.s_Packet

/-- What the runs keep apart from the calls. -/
structure Sound (stream : List Wire) (s : Session P) : Prop where
  wire : s.transport.wire <:+ stream
  valid : s.m_ValidUnaccessedPacket = true → Full stream s
  exposed : ∀ x ∈ s.exposed, Intact H P stream x

/-- The calls below the innermost are in a handler that writes. -/
def Below (outer : List Wait) : Prop := ∀ w ∈ outer, w.place = .handling true

/-- What the runs keep: at `ReadBuffered` the buffers hold a packet, and a handler has
not read ahead before it writes. -/
structure Received (stream : List Wire) (s : Session P) : Prop where
  sound : Sound H stream s
  buffered : ∀ w outer, s.waits = w :: outer → w.place = .readBuffered → Full stream s
  handling : ∀ w outer, s.waits = w :: outer → w.place = .handling false →
    s.m_ValidUnaccessedPacket = false
  below : ∀ w outer, s.waits = w :: outer → Below outer

/-- The condition on a step: no reading is started over a packet kept unread. -/
def NoneUnread (e : Event) (s : Session P) : Prop :=
  e = .read → s.m_ValidUnaccessedPacket = false

variable {H} {stream : List Wire}

/-- A call returns to a handler, or to the host. -/
theorem Sound.returned {s : Session P} {outer : List Wait} (h : Sound H stream s)
    (hbelow : Below outer) : Received H stream (returned outer s) := by
  have htop : ∀ w rest, outer = w :: rest → w.place = .handling true := by
    intro w rest houter
    exact hbelow w (by rw [houter]; exact List.mem_cons_self)
  refine ⟨⟨h.wire, h.valid, h.exposed⟩, ?_, ?_, ?_⟩
  · intro w rest hwaits hplace
    rw [htop w rest hwaits] at hplace
    cases hplace
  · intro w rest hwaits hplace
    rw [htop w rest hwaits] at hplace
    cases hplace
  · intro w rest hwaits v hv
    have houter : outer = w :: rest := hwaits
    exact hbelow v (by rw [houter]; exact List.mem_cons_of_mem w hv)

/-- The innermost call goes to a new place. -/
theorem Sound.goes {s : Session P} {w : Wait} {outer : List Wait} (h : Sound H stream s)
    (hbelow : Below outer) (hbuffered : w.place = .readBuffered → Full stream s)
    (hhandling : w.place = .handling false → s.m_ValidUnaccessedPacket = false) :
    Received H stream { s with waits := w :: outer } := by
  refine ⟨⟨h.wire, h.valid, h.exposed⟩, ?_, ?_, ?_⟩
  · intro v rest hwaits hplace
    cases hwaits
    exact hbuffered hplace
  · intro v rest hwaits hplace
    cases hwaits
    exact hhandling hplace
  · intro v rest hwaits
    cases hwaits
    exact hbelow

theorem Sound.readsAgain {s : Session P} {type retry : Nat} {outer : List Wait}
    (h : Sound H stream s) (hbelow : Below outer) :
    Received H stream { s with waits := ⟨type, retry, .readContents⟩ :: outer } := by
  apply h.goes hbelow
  · intro hplace
    cases hplace
  · intro hplace
    cases hplace

theorem Sound.readOn {s : Session P} {w : Wait} {outer : List Wait} (h : Sound H stream s)
    (hbelow : Below outer) : Received H stream (readOn w outer s) := by
  unfold Kd.readOn
  split
  · exact h.returned hbelow
  · exact h.readsAgain hbelow

theorem Sound.askResend {s : Session P} {w : Wait} {outer : List Wait} (h : Sound H stream s)
    (hbelow : Below outer) : Received H stream (askResend w outer s) := by
  unfold Kd.askResend
  split
  · exact h.returned hbelow
  · have hsent : Sound H stream
        { s with transport := writeControlPacket P.PACKET_TYPE_KD_RESEND 0 s.transport } :=
      ⟨h.wire, h.valid, h.exposed⟩
    exact hsent.readOn hbelow

theorem Sound.waitForPacket {s : Session P} {type : Nat} (h : Sound H stream s)
    (hbelow : Below s.waits) : Received H stream (waitForPacket type s) := by
  unfold Kd.waitForPacket
  apply h.goes hbelow
  · intro hplace
    simp only at hplace
    split at hplace
    · rename_i hvalid
      exact h.valid hvalid.2
    · cases hplace
  · intro hplace
    simp only at hplace
    split at hplace
    · cases hplace
    · cases hplace

/-- After a reading that started with no packet kept unread. -/
theorem Sound.afterRead {s : Session P} {w : Wait} {outer : List Wait} {status : WaitStatus}
    (h : Sound H stream s) (hbelow : Below outer) (hunread : s.m_ValidUnaccessedPacket = false)
    (hfull : status = .waitPacket → Full stream s) :
    Received H stream (afterRead H w outer status s) := by
  cases status with
  | waitPacket =>
    have hheld := hfull rfl
    unfold Kd.afterRead
    simp only
    split
    · apply h.goes hbelow
      · intro hplace
        cases hplace
      · intro _
        exact hunread
    split
    · have hkept : Sound H stream { s with m_ValidUnaccessedPacket := true } :=
        ⟨h.wire, fun _ => hheld, h.exposed⟩
      exact hkept.returned hbelow
    · apply h.goes hbelow
      · intro _
        exact hheld
      · intro hplace
        cases hplace
  | waitAck =>
    unfold Kd.afterRead
    simp only
    split
    · exact h.returned hbelow
    · exact h.askResend hbelow
  | waitResend => exact h.askResend hbelow
  | waitResync => exact h.returned hbelow
  | waitFailed => exact h.returned hbelow
  | waitInterrupted => exact h.returned hbelow

theorem Sound.readContents {s : Session P} {w : Wait} {outer : List Wait} (h : Sound H stream s)
    (hbelow : Below outer) (hunread : s.m_ValidUnaccessedPacket = false) :
    Received H stream (readContents H w outer s) := by
  have hsuffix := readPacketContents_suffix w.PacketType (s.transport.wire.length + 1) s.transport
  have htook := @readPacketContents_took P w.PacketType (s.transport.wire.length + 1) s.transport
  unfold Kd.readContents ReadPacketContents
  generalize readPacketContents P w.PacketType (s.transport.wire.length + 1) s.transport = res
    at hsuffix htook ⊢
  obtain ⟨status, t⟩ := res
  have hread : Sound H stream { s with transport := t } := by
    refine ⟨hsuffix.trans h.wire, ?_, h.exposed⟩
    intro hvalid
    rw [hunread] at hvalid
    cases hvalid
  apply hread.afterRead hbelow hunread
  intro hstatus
  obtain ⟨p, pre, hp, hfills⟩ := htook hstatus
  obtain ⟨before, hbefore⟩ := h.wire
  refine ⟨p, before ++ pre, t.wire, ?_, hfills⟩
  rw [← hbefore, hp, List.append_assoc]

theorem Sound.expose {s : Session P} {outer : List Wait} (h : Sound H stream s)
    (hbelow : Below outer) (hfull : Full stream s) : Received H stream (expose H outer s) := by
  have hexposed : Sound H stream (Kd.expose H outer s) := by
    refine ⟨h.wire, nofun, ?_⟩
    intro x hx
    rcases List.mem_append.mp hx with hx | hx
    · exact h.exposed x hx
    · rw [List.mem_singleton.mp hx]
      exact ⟨s.transport.s_Packet, hfull, rfl⟩
  exact hexposed.returned hbelow

theorem Sound.readBuffered {s : Session P} {w : Wait} {outer : List Wait} (h : Sound H stream s)
    (hbelow : Below outer) (hfull : Full stream s) :
    Received H stream (readBuffered H w outer s) := by
  have hapi (api64 : Bool) : Sound H stream { s with m_KdApi64 := api64 } :=
    ⟨h.wire, h.valid, h.exposed⟩
  unfold Kd.readBuffered
  simp only
  split
  · split
    · exact (hapi _).returned hbelow
    · exact (hapi (apiAfter H w s)).readsAgain hbelow
  · exact (hapi _).expose hbelow hfull

theorem Received.step {s s' : Session P} {e : Event} (h : Received H stream s)
    (hstep : SessionStep H s e s') (hunread : NoneUnread e s) : Received H stream s' := by
  cases hstep with
  | wait type hidle =>
    apply h.sound.waitForPacket
    rw [hidle]
    exact nofun
  | write hwaits hplace =>
    have hsound (waits : List Wait) : Sound H stream { s with waits := waits } :=
      ⟨h.sound.wire, h.sound.valid, h.sound.exposed⟩
    apply (hsound _).waitForPacket
    intro v hv
    rcases List.mem_cons.mp hv with rfl | hv
    · rfl
    · exact h.below _ _ hwaits v hv
  | change buffer hwaits hplace =>
    have hvalid := h.handling _ _ hwaits hplace
    refine ⟨⟨h.sound.wire, ?_, h.sound.exposed⟩, ?_, h.handling, h.below⟩
    · intro hkept
      rw [show s.m_ValidUnaccessedPacket = true from hkept] at hvalid
      cases hvalid
    · intro v rest hwaits' hplace'
      have hsame := hwaits.symm.trans hwaits'
      cases hsame
      rw [hplace] at hplace'
      cases hplace'
  | read hwaits hplace => exact h.sound.readContents (h.below _ _ hwaits) (hunread rfl)
  | handled resend hwaits hplace =>
    unfold Kd.handled
    split
    · exact h.sound.askResend (h.below _ _ hwaits)
    · exact h.sound.readOn (h.below _ _ hwaits)
  | buffered hwaits hplace =>
    exact h.sound.readBuffered (h.below _ _ hwaits) (h.buffered _ _ hwaits hplace)
  | other keep api64 hheader hbuffer hwire =>
    refine ⟨⟨hwire.trans h.sound.wire, ?_, h.sound.exposed⟩, ?_, ?_, h.below⟩
    · intro hkept
      have hvalid := h.sound.valid (Bool.and_eq_true_iff.mp hkept).1
      unfold Full at hvalid ⊢
      simp only [hheader, hbuffer]
      exact hvalid
    · intro v rest hwaits hplace
      have hvalid := h.buffered v rest hwaits hplace
      unfold Full at hvalid ⊢
      simp only [hheader, hbuffer]
      exact hvalid
    · intro v rest hwaits hplace
      simp only
      rw [h.handling v rest hwaits hplace]
      rfl

/-- The types as the header file documents them. -/
def windbgHost : Host where
  PACKET_TYPE_KD_STATE_CHANGE32 := 1
  PACKET_TYPE_KD_DEBUG_IO := 3
  PACKET_TYPE_KD_TRACE_IO := 9
  PACKET_TYPE_KD_FILE_IO := 11
  to64 := id

def connected (wire : List Wire) : Session windbgkd where
  transport := restarted wire
  m_ValidUnaccessedPacket := false
  m_AckWrites := true
  m_InvPacketRetryLimit := 0
  m_KdApi64 := true
  waits := []
  exposed := []

/-- While an acknowledgement is waited for a packet is read ahead. -/
def readAhead (wire : List Wire) : Session windbgkd :=
  readContents windbgHost ⟨4, 0, .readContents⟩ [] (waitForPacket 4 (connected wire))

/-- The packet read ahead is exposed to the call that waits for its type. -/
def exposeAhead (type : Nat) (s : Session windbgkd) : Session windbgkd :=
  readBuffered windbgHost ⟨type, 0, .readBuffered⟩ [] (waitForPacket type s)

end SdkTools.Kd
