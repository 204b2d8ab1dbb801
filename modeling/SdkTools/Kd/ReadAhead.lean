import SdkTools.Kd.Session

/-!
# Packets accepted and read ahead

A packet a reading accepts stays in the buffers until another reading is started, and
the first caller that waits for data gets it if it waits for its type. A caller of
another type discards it.
-/

namespace SdkTools.Kd

set_option autoImplicit false

variable {P : Protocol} {H : Host}

/-! ## Calls below a handler -/

/-- The calls after a step of the innermost: it is gone or goes on. -/
def Leaves (outer : List Wait) (s : Session P) : Prop :=
  s.waits = outer ∨ ∃ w, s.waits = w :: outer

theorem returned_leaves (outer : List Wait) (s : Session P) : Leaves outer (returned outer s) :=
  .inl rfl

theorem readOn_leaves (w : Wait) (outer : List Wait) (s : Session P) :
    Leaves outer (readOn w outer s) := by
  unfold readOn
  split
  · exact returned_leaves outer s
  · exact .inr ⟨_, rfl⟩

theorem askResend_leaves (w : Wait) (outer : List Wait) (s : Session P) :
    Leaves outer (askResend w outer s) := by
  unfold askResend
  split
  · exact returned_leaves outer s
  · exact readOn_leaves w outer _

theorem afterRead_leaves (w : Wait) (outer : List Wait) (status : WaitStatus) (s : Session P) :
    Leaves outer (afterRead H w outer status s) := by
  cases status with
  | waitPacket =>
    unfold afterRead
    simp only
    split
    · exact .inr ⟨_, rfl⟩
    split
    · exact .inl rfl
    · exact .inr ⟨_, rfl⟩
  | waitAck =>
    unfold afterRead
    simp only
    split
    · exact .inl rfl
    · exact askResend_leaves w outer s
  | waitResend => exact askResend_leaves w outer s
  | waitResync => exact .inl rfl
  | waitFailed => exact .inl rfl
  | waitInterrupted => exact .inl rfl

theorem readContents_leaves (w : Wait) (outer : List Wait) (s : Session P) :
    Leaves outer (readContents H w outer s) := afterRead_leaves w outer _ _

theorem handled_leaves (w : Wait) (outer : List Wait) (resend : Bool) (s : Session P) :
    Leaves outer (handled w outer resend s) := by
  unfold handled
  split
  · exact askResend_leaves w outer s
  · exact readOn_leaves w outer s

theorem readBuffered_leaves (w : Wait) (outer : List Wait) (s : Session P) :
    Leaves outer (readBuffered H w outer s) := by
  unfold readBuffered
  simp only
  split
  · split
    · exact .inl rfl
    · exact .inr ⟨_, rfl⟩
  · exact .inl rfl

/-- Only the innermost call is not in a handler that writes. -/
def Nested (s : Session P) : Prop := ∀ w outer, s.waits = w :: outer → Below outer

theorem Leaves.nested {outer : List Wait} {s : Session P} (h : Leaves outer s)
    (hbelow : Below outer) : Nested s := by
  intro w rest hwaits v hv
  rcases h with h | ⟨w', h⟩
  · have houter : outer = w :: rest := h.symm.trans hwaits
    exact hbelow v (by rw [houter]; exact List.mem_cons_of_mem w hv)
  · have houter : w' :: outer = w :: rest := h.symm.trans hwaits
    cases houter
    exact hbelow v hv

theorem Nested.step {s s' : Session P} {e : Event} (h : Nested s) (hstep : SessionStep H s e s') :
    Nested s' := by
  cases hstep with
  | wait type hidle =>
    have hleaves : Leaves s.waits (waitForPacket type s) := .inr ⟨_, rfl⟩
    apply hleaves.nested
    rw [hidle]
    exact nofun
  | @write _ w outer writing hwaits hplace =>
    intro v rest hwaits' u hu
    cases hwaits'
    rcases List.mem_cons.mp hu with rfl | hu
    · rfl
    · exact h w outer hwaits u hu
  | change buffer hwaits hplace => exact h
  | read hwaits hplace => exact (readContents_leaves _ _ s).nested (h _ _ hwaits)
  | handled resend hwaits hplace => exact (handled_leaves _ _ resend s).nested (h _ _ hwaits)
  | buffered hwaits hplace => exact (readBuffered_leaves _ _ s).nested (h _ _ hwaits)
  | other keep api64 hheader hbuffer hwire => exact h

/-! ## The packet in the buffers -/

/-- A step that starts no reading, takes no packet and drops none. -/
def Calm : Event → Prop
  | .read | .buffered => False
  | .other keep => keep = true
  | _ => True

/-- A packet in the buffers is the next one a caller gets: a call of the host for data
goes to `ReadBuffered`, and there it is exposed if it has the type the call waits for,
and discarded otherwise. -/
structure Next (H : Host) (header : KdPacket) (buffer : List Byte) (s : Session P) : Prop where
  call : s.waits = [] → ∀ type, type ≠ P.PACKET_TYPE_KD_ACKNOWLEDGE →
    (waitForPacket type s).waits = [⟨type, 0, .readBuffered⟩]
  taken : ∀ w outer, s.waits = w :: outer → w.place = .readBuffered →
    typeAfter H w s = header.PacketType.toNat →
    (readBuffered H w outer s).waits = outer ∧
      (readBuffered H w outer s).exposed =
        s.exposed ++ [⟨apiAfter H w s, header, shown H P (apiAfter H w s) header buffer⟩]
  discarded : ∀ w outer, s.waits = w :: outer → w.place = .readBuffered →
    typeAfter H w s ≠ header.PacketType.toNat → (readBuffered H w outer s).exposed = s.exposed

/-- What calm steps keep. -/
structure Keeps (header : KdPacket) (buffer : List Byte) (exposed : List Exposure)
    (s : Session P) : Prop where
  header : s.transport.s_PacketHeader = header
  buffer : s.transport.s_Packet = buffer
  exposed : s.exposed = exposed
  nested : Nested s
  top : ∀ w outer, s.waits = w :: outer → w.place ≠ .handling false
  ahead : s.m_ValidUnaccessedPacket = true ∨
    ∃ w outer, s.waits = w :: outer ∧ w.place = .readBuffered

variable {header : KdPacket} {buffer : List Byte} {exposed : List Exposure}

theorem Below.top {outer : List Wait} (h : Below outer) {w : Wait} {rest : List Wait}
    (houter : outer = w :: rest) : w.place ≠ .handling false := by
  have hplace := h w (by rw [houter]; exact List.mem_cons_self)
  rw [hplace]
  exact nofun

theorem readOn_kept (w : Wait) {outer : List Wait} {s : Session P} (hbelow : Below outer)
    (hheader : s.transport.s_PacketHeader = header) (hbuffer : s.transport.s_Packet = buffer)
    (hexposed : s.exposed = exposed) (hvalid : s.m_ValidUnaccessedPacket = true) :
    Keeps header buffer exposed (readOn w outer s) := by
  have hnested := (readOn_leaves w outer s).nested hbelow
  unfold readOn at hnested ⊢
  split
  · rename_i hack
    rw [if_pos hack] at hnested
    exact ⟨hheader, hbuffer, hexposed, hnested, fun _ _ houter => hbelow.top houter, .inl hvalid⟩
  · rename_i hack
    rw [if_neg hack] at hnested
    refine ⟨hheader, hbuffer, hexposed, hnested, ?_, .inl hvalid⟩
    intro v rest hwaits
    cases hwaits
    exact nofun

/-- Away from `ReadBuffered` the packet was read ahead. -/
theorem Keeps.valid {s : Session P} (h : Keeps header buffer exposed s) {w : Wait}
    {outer : List Wait} (hwaits : s.waits = w :: outer) (hplace : w.place ≠ .readBuffered) :
    s.m_ValidUnaccessedPacket = true := by
  rcases h.ahead with hvalid | ⟨v, rest, hwaits', hplace'⟩
  · exact hvalid
  · have hsame := hwaits.symm.trans hwaits'
    cases hsame
    exact absurd hplace' hplace

theorem Keeps.idle {s : Session P} (h : Keeps header buffer exposed s) (hidle : s.waits = []) :
    s.m_ValidUnaccessedPacket = true := by
  rcases h.ahead with hvalid | ⟨w, outer, hwaits, -⟩
  · exact hvalid
  · rw [hidle] at hwaits
    cases hwaits

theorem Keeps.step {s s' : Session P} {e : Event} (h : Keeps header buffer exposed s)
    (hstep : SessionStep H s e s') (hcalm : Calm e) : Keeps header buffer exposed s' := by
  have hnested := h.nested.step hstep
  cases hstep with
  | wait type hidle =>
    have hvalid := h.idle hidle
    refine ⟨h.header, h.buffer, h.exposed, hnested, ?_, .inl hvalid⟩
    intro w outer hwaits
    cases hwaits
    simp only
    split
    · exact nofun
    · exact nofun
  | @write _ w outer writing hwaits hplace =>
    have hvalid := h.valid hwaits (by rw [hplace]; exact nofun)
    refine ⟨h.header, h.buffer, h.exposed, hnested, ?_, .inl hvalid⟩
    intro v rest hwaits'
    cases hwaits'
    simp only
    split
    · exact nofun
    · exact nofun
  | change buffer' hwaits hplace => exact absurd hplace (h.top _ _ hwaits)
  | read hwaits hplace => exact hcalm.elim
  | @handled resend _ w outer writing hwaits hplace =>
    have hvalid := h.valid hwaits (by rw [hplace]; exact nofun)
    have hbelow := h.nested _ _ hwaits
    unfold Kd.handled
    split
    · unfold askResend
      split
      · exact ⟨h.header, h.buffer, h.exposed, (returned_leaves outer s).nested hbelow,
          fun _ _ houter => hbelow.top houter, .inl hvalid⟩
      · exact readOn_kept w hbelow h.header h.buffer h.exposed hvalid
    · exact readOn_kept w hbelow h.header h.buffer h.exposed hvalid
  | buffered hwaits hplace => exact hcalm.elim
  | other keep api64 hheader hbuffer hwire =>
    refine ⟨hheader.trans h.header, hbuffer.trans h.buffer, h.exposed, h.nested, h.top, ?_⟩
    have hkeep : keep = true := hcalm
    rcases h.ahead with hvalid | htop
    · left
      simp only
      rw [hvalid, hkeep]
      rfl
    · exact .inr htop

theorem Keeps.next {s : Session P} (h : Keeps header buffer exposed s) :
    Next H header buffer s := by
  refine ⟨?_, ?_, ?_⟩
  · intro hidle type htype
    have hvalid := h.idle hidle
    unfold waitForPacket
    simp only
    rw [if_pos ⟨htype, hvalid⟩, hidle]
  · intro w outer _ _ htype
    have hfits : ¬ typeAfter H w s ≠ s.transport.s_PacketHeader.PacketType.toNat := by
      rw [h.header]
      exact not_not.mpr htype
    unfold readBuffered
    simp only
    rw [if_neg hfits]
    refine ⟨rfl, ?_⟩
    unfold expose
    simp only
    rw [h.header, h.buffer]
  · intro w outer _ _ htype
    unfold readBuffered
    simp only
    rw [h.header, if_pos htype]
    split
    · rfl
    · rfl

/-- A packet a reading accepts, unless a handler gets it, is kept while no other reading
is started, and is the next one a caller gets. -/
theorem accepted_packet_kept {s₀ s₁ s : Session P} {es es' : List Event} {w : Wait}
    {outer : List Wait} (hidle : s₀.waits = []) (hrun : Lib.Run (SessionStep H) s₀ es s₁)
    (hwaits : s₁.waits = w :: outer)
    (haccepted : (ReadPacketContents P w.PacketType s₁.transport).1 = .waitPacket)
    (houtside : isInternal H P
      (ReadPacketContents P w.PacketType s₁.transport).2.s_PacketHeader.PacketType.toNat = false)
    (hcalm : Lib.Run (fun s e s' => SessionStep H s e s' ∧ Calm e)
      (readContents H w outer s₁) es' s) :
    Next H (ReadPacketContents P w.PacketType s₁.transport).2.s_PacketHeader
        (ReadPacketContents P w.PacketType s₁.transport).2.s_Packet s ∧
      s.exposed = s₁.exposed := by
  have hinit : Nested s₀ := by
    intro v rest hwaits'
    rw [hidle] at hwaits'
    cases hwaits'
  have hnested : Nested s₁ := hrun.invariant hinit fun a e b ha hstep => ha.step hstep
  have hbelow := hnested _ _ hwaits
  have hleaves := @readContents_leaves P H w outer s₁
  have hread : Keeps (ReadPacketContents P w.PacketType s₁.transport).2.s_PacketHeader
      (ReadPacketContents P w.PacketType s₁.transport).2.s_Packet s₁.exposed
      (readContents H w outer s₁) := by
    have hkept := hleaves.nested hbelow
    unfold readContents at hkept ⊢
    generalize ReadPacketContents P w.PacketType s₁.transport = res at haccepted houtside hkept ⊢
    obtain ⟨status, t⟩ := res
    have hstatus : status = .waitPacket := haccepted
    subst hstatus
    unfold afterRead at hkept ⊢
    simp only at houtside hkept ⊢
    rw [if_neg (Bool.eq_false_iff.mp houtside)] at hkept ⊢
    split
    · rename_i hack
      rw [if_pos hack] at hkept
      exact ⟨rfl, rfl, rfl, hkept, fun _ _ houter => hbelow.top houter, .inl rfl⟩
    · rename_i hack
      rw [if_neg hack] at hkept
      refine ⟨rfl, rfl, rfl, hkept, ?_, .inr ⟨_, _, rfl, rfl⟩⟩
      intro v rest hwaits'
      cases hwaits'
      exact nofun
  have hend := hcalm.invariant hread fun a e b ha hstep => ha.step hstep.1 hstep.2
  exact ⟨hend.next, hend.exposed⟩

theorem accepted_packet_kept_ahead :
    Next windbgHost
        (ReadPacketContents windbgkd 4
          (waitForPacket 4 (connected (emptyPacket 0x80800000))).transport).2.s_PacketHeader
        (ReadPacketContents windbgkd 4
          (waitForPacket 4 (connected (emptyPacket 0x80800000))).transport).2.s_Packet
        (waitForPacket 7 (readAhead (emptyPacket 0x80800000))) ∧
      (waitForPacket 7 (readAhead (emptyPacket 0x80800000))).exposed = [] := by
  have hwait : SessionStep windbgHost (connected (emptyPacket 0x80800000)) (.wait 4)
      (waitForPacket 4 (connected (emptyPacket 0x80800000))) := .wait 4 rfl
  have hcall : SessionStep windbgHost (readAhead (emptyPacket 0x80800000)) (.wait 7)
      (waitForPacket 7 (readAhead (emptyPacket 0x80800000))) := .wait 7 rfl
  have hcalm : Lib.Run (fun s e s' => SessionStep windbgHost s e s' ∧ Calm e)
      (readAhead (emptyPacket 0x80800000)) _
      (waitForPacket 7 (readAhead (emptyPacket 0x80800000))) := .snoc .nil ⟨hcall, trivial⟩
  exact accepted_packet_kept rfl (Lib.Run.single hwait) rfl rfl rfl hcalm

/-- The first packet is read ahead; the caller waits for the type of the second. -/
def twoTypes : List Wire :=
  emptyPacket 0x80800000 ++
    (writeDataPacket windbgkd sameParts 2 (windbgkd.INITIAL_PACKET_ID ^^^ 1) [] none).map .byte

/-- The second packet is read over the first and exposed. -/
def secondExposed : Session windbgkd :=
  readBuffered windbgHost ⟨2, 0, .readBuffered⟩ []
    (readContents windbgHost ⟨2, 0, .readContents⟩ [] (exposeAhead 2 (readAhead twoTypes)))

/-- The first caller that waits for the type of a packet read ahead need not get it: a
caller of another type has discarded it. -/
theorem read_ahead_discarded :
    ¬ ∀ (s₀ s₁ s s' : Session windbgkd) (es es' es'' : List Event) (w : Wait)
      (outer : List Wait) (type : Nat), s₀.waits = [] → s₀.m_ValidUnaccessedPacket = false →
      Lib.Run (SessionStep windbgHost) s₀ es s₁ → s₁.waits = w :: outer →
      (ReadPacketContents windbgkd w.PacketType s₁.transport).1 = .waitPacket →
      isInternal windbgHost windbgkd (ReadPacketContents windbgkd w.PacketType
        s₁.transport).2.s_PacketHeader.PacketType.toNat = false →
      (ReadPacketContents windbgkd w.PacketType
        s₁.transport).2.s_PacketHeader.PacketType.toNat = type →
      Lib.Run (fun s e s' => SessionStep windbgHost s e s' ∧ e ≠ .wait type ∧ e ≠ .other false)
        (readContents windbgHost w outer s₁) es' s → s.waits = [] →
      Lib.Run (fun s e s' => SessionStep windbgHost s e s' ∧ e ≠ .other false)
        (waitForPacket type s) es'' s' → s'.waits = [] →
      ∃ x ∈ s'.exposed, x.s_PacketHeader =
        (ReadPacketContents windbgkd w.PacketType s₁.transport).2.s_PacketHeader := by
  intro h
  have hwait : SessionStep windbgHost (connected twoTypes) (.wait 4)
      (waitForPacket 4 (connected twoTypes)) := .wait 4 rfl
  have hother : SessionStep windbgHost (readAhead twoTypes) (.wait 2)
      (waitForPacket 2 (readAhead twoTypes)) := .wait 2 rfl
  have hmismatch : SessionStep windbgHost (waitForPacket 2 (readAhead twoTypes)) .buffered
      (exposeAhead 2 (readAhead twoTypes)) := .buffered rfl rfl
  have hsecond : SessionStep windbgHost (exposeAhead 2 (readAhead twoTypes)) .read
      (readContents windbgHost ⟨2, 0, .readContents⟩ [] (exposeAhead 2 (readAhead twoTypes))) :=
    .read rfl rfl
  have hexpose : SessionStep windbgHost
      (readContents windbgHost ⟨2, 0, .readContents⟩ [] (exposeAhead 2 (readAhead twoTypes)))
      .buffered secondExposed := .buffered rfl rfl
  have hlate : SessionStep windbgHost (waitForPacket 7 secondExposed) .read
      (readContents windbgHost ⟨7, 0, .readContents⟩ [] (waitForPacket 7 secondExposed)) :=
    .read rfl rfl
  have hrun : Lib.Run
      (fun s e s' => SessionStep windbgHost s e s' ∧ e ≠ .wait 7 ∧ e ≠ .other false)
      (readAhead twoTypes) _ secondExposed :=
    .snoc (.snoc (.snoc (.snoc .nil ⟨hother, nofun, nofun⟩) ⟨hmismatch, nofun, nofun⟩)
      ⟨hsecond, nofun, nofun⟩) ⟨hexpose, nofun, nofun⟩
  have hcall : Lib.Run (fun s e s' => SessionStep windbgHost s e s' ∧ e ≠ .other false)
      (waitForPacket 7 secondExposed) _
      (readContents windbgHost ⟨7, 0, .readContents⟩ [] (waitForPacket 7 secondExposed)) :=
    .snoc .nil ⟨hlate, nofun⟩
  have hgot := h _ _ _ _ _ _ _ _ _ 7 rfl rfl (Lib.Run.single hwait) rfl rfl rfl rfl
    hrun rfl hcall rfl
  have hexposed :
      (readContents windbgHost ⟨7, 0, .readContents⟩ [] (waitForPacket 7 secondExposed)).exposed =
        [⟨true, ⟨false, 2, 0, 0x80800001, 0⟩, []⟩] := rfl
  rw [hexposed] at hgot
  obtain ⟨x, hx, hheader⟩ := hgot
  rw [List.mem_singleton.mp hx] at hheader
  exact absurd hheader (by decide)

end SdkTools.Kd
