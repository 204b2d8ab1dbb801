import SdkTools.Kd.RoundTrip
import SdkTools.Lib.Run

/-!
# At most one delivery

Runs of the transport: leaders and packets are read, the host does what changes no
id, and a reset starts over. The packets taken between two resets or packets with
the bit `SYNC_PACKET_ID` have the two ids in turn.
-/

namespace SdkTools.Kd

set_option autoImplicit false

variable {P : Protocol}

/-- The acknowledgements written to the wire. -/
def acks (t : Transport P) : List Id :=
  (t.written.filter fun c => c.PacketType = P.PACKET_TYPE_KD_ACKNOWLEDGE).map Control.PacketId

theorem acks_ack (id : Id) (t : Transport P) :
    acks (writeControlPacket P.PACKET_TYPE_KD_ACKNOWLEDGE id t) = acks t ++ [id] := by
  simp only [acks, writeControlPacket, List.filter_append, List.map_append, List.filter_cons,
    List.filter_nil, decide_true, if_true, List.map_cons, List.map_nil]

theorem acks_other {type : Nat} (htype : type ≠ P.PACKET_TYPE_KD_ACKNOWLEDGE) (id : Id)
    (t : Transport P) : acks (writeControlPacket type id t) = acks t := by
  simp only [acks, writeControlPacket, List.filter_append, List.filter_cons, List.filter_nil,
    htype, decide_false, Bool.false_eq_true, if_false, List.append_nil]

/-- What decides about the packets taken is unchanged. -/
structure Same (t t' : Transport P) : Prop where
  expected : t'.m_PacketExpected = t.m_PacketExpected
  log : t'.log = t.log
  acks : acks t' = acks t

theorem Same.refl (t : Transport P) : Same t t := ⟨rfl, rfl, rfl⟩

/-- One packet id is answered and acknowledged. -/
structure Answers (answer : Answer) (id ack : Id) (t t' : Transport P) : Prop where
  log : t'.log = t.log ++ [.answered answer id t'.m_PacketExpected t'.m_NextPacketToSend]
  acks : acks t' = acks t ++ [ack]

/-- What one packet does; `Away id` holds of the ids that may be turned away. -/
inductive Effect (Away : Id → Prop) (t t' : Transport P) : Prop where
  | same (h : Same t t')
  | reset (hlog : t'.log = t.log ++ [.reset]) (hacks : acks t' = acks t)
      (hexp : t'.m_PacketExpected = P.INITIAL_PACKET_ID)
  | accepted (id : Id) (h : Answers .accepted id (id &&& ~~~P.SYNC_PACKET_ID) t t')
      (hid : id &&& ~~~P.SYNC_PACKET_ID = t.m_PacketExpected)
      (hsync : id &&& P.SYNC_PACKET_ID ≠ P.SYNC_PACKET_ID)
      (hexp : t'.m_PacketExpected = t.m_PacketExpected ^^^ 1)
  | synced (id : Id) (h : Answers .synced id (id &&& ~~~P.SYNC_PACKET_ID) t t')
      (hsync : id &&& P.SYNC_PACKET_ID = P.SYNC_PACKET_ID)
      (hvalid : id &&& ~~~P.SYNC_PACKET_ID = P.INITIAL_PACKET_ID ∨
        id &&& ~~~P.SYNC_PACKET_ID = P.INITIAL_PACKET_ID ^^^ 1)
      (hexp : t'.m_PacketExpected = id &&& ~~~P.SYNC_PACKET_ID ^^^ 1)
      (hnext : t'.m_NextPacketToSend = P.INITIAL_PACKET_ID)
  | refused (id : Id) (h : Answers .refused id (id &&& ~~~P.SYNC_PACKET_ID) t t')
      (hsync : id &&& P.SYNC_PACKET_ID ≠ P.SYNC_PACKET_ID)
      (hexp : t'.m_PacketExpected = t.m_PacketExpected)
  | turnedAway (id : Id) (h : Answers .turnedAway id id t t') (haway : Away id)
      (hexp : t'.m_PacketExpected = t.m_PacketExpected)

theorem Effect.of_same {Away : Id → Prop} {t₀ t t' : Transport P} (h : Same t₀ t)
    (h' : Effect Away t t') : Effect Away t₀ t' := by
  obtain ⟨he, hl, ha⟩ := h
  cases h' with
  | same h' => exact .same ⟨h'.expected.trans he, h'.log.trans hl, h'.acks.trans ha⟩
  | reset hlog hacks hexp => exact .reset (by rw [hlog, hl]) (hacks.trans ha) hexp
  | accepted id h' hid hsync hexp =>
    exact .accepted id ⟨by rw [h'.log, hl], by rw [h'.acks, ha]⟩ (hid.trans he) hsync
      (by rw [hexp, he])
  | synced id h' hsync hvalid hexp hnext =>
    exact .synced id ⟨by rw [h'.log, hl], by rw [h'.acks, ha]⟩ hsync hvalid hexp hnext
  | refused id h' hsync hexp =>
    exact .refused id ⟨by rw [h'.log, hl], by rw [h'.acks, ha]⟩ hsync (hexp.trans he)
  | turnedAway id h' haway hexp =>
    exact .turnedAway id ⟨by rw [h'.log, hl], by rw [h'.acks, ha]⟩ haway (hexp.trans he)

theorem Effect.mono {Away Away' : Id → Prop} {t t' : Transport P} (h : Effect Away t t')
    (hsub : ∀ id, Away id → Away' id) : Effect Away' t t' := by
  cases h with
  | same h => exact .same h
  | reset hlog hacks hexp => exact .reset hlog hacks hexp
  | accepted id h hid hsync hexp => exact .accepted id h hid hsync hexp
  | synced id h hsync hvalid hexp hnext => exact .synced id h hsync hvalid hexp hnext
  | refused id h hsync hexp => exact .refused id h hsync hexp
  | turnedAway id h haway hexp => exact .turnedAway id h (hsub id haway) hexp

theorem takePacket_effect (Away : Id → Prop) {t : Transport P}
    (hvalid : t.s_PacketHeader.PacketId &&& ~~~P.SYNC_PACKET_ID = P.INITIAL_PACKET_ID ∨
      t.s_PacketHeader.PacketId &&& ~~~P.SYNC_PACKET_ID = P.INITIAL_PACKET_ID ^^^ 1) :
    Effect Away t (takePacket P t).2 := by
  unfold takePacket
  simp only
  split
  · rename_i hne
    exact .refused _ ⟨rfl, acks_ack _ t⟩ hne.2 rfl
  · rename_i hne
    split
    · rename_i hsync
      exact .synced _ ⟨rfl, acks_ack _ t⟩ hsync hvalid rfl rfl
    · rename_i hsync
      have hid : t.s_PacketHeader.PacketId &&& ~~~P.SYNC_PACKET_ID = t.m_PacketExpected := by
        by_contra hid
        exact hne ⟨hid, hsync⟩
      exact .accepted _ ⟨rfl, acks_ack _ t⟩ hid hsync rfl

theorem dataPacket_effect (Away : Id → Prop) (t : Transport P) :
    Effect Away t (dataPacket P t).2 := by
  unfold dataPacket
  simp only
  split
  · exact .same (Same.refl t)
  rename_i hinvalid
  have hvalid : t.s_PacketHeader.PacketId &&& ~~~P.SYNC_PACKET_ID = P.INITIAL_PACKET_ID ∨
      t.s_PacketHeader.PacketId &&& ~~~P.SYNC_PACKET_ID = P.INITIAL_PACKET_ID ^^^ 1 := by
    by_contra hne
    exact hinvalid (not_or.mp hne)
  split
  · exact .same ⟨rfl, rfl, rfl⟩
  split
  · split
    · exact .same ⟨rfl, rfl, rfl⟩
    split
    · exact .same ⟨rfl, rfl, rfl⟩
    · refine Effect.of_same ?_ (takePacket_effect Away ?_)
      · exact ⟨rfl, rfl, rfl⟩
      · exact hvalid
  · exact .same ⟨rfl, rfl, rfl⟩

theorem dataHeader_effect (type : Nat) (t : Transport P) :
    Effect (fun id => id = t.s_PacketHeader.PacketId ∧ type = P.PACKET_TYPE_KD_ACKNOWLEDGE ∧
      (read 4 t.wire).1.length = 4) t (dataHeader P type t).2 := by
  unfold dataHeader
  simp only
  split
  · exact .same ⟨rfl, rfl, acks_other P.resend_ne_ack _ _⟩
  · rename_i hlen
    split
    · rename_i hack
      split
      · refine Effect.of_same ?_ (dataPacket_effect _ _)
        exact ⟨rfl, rfl, rfl⟩
      · exact .turnedAway _ ⟨rfl, acks_ack _ _⟩ ⟨rfl, hack, not_not.mp hlen⟩ rfl
    · refine Effect.of_same ?_ (dataPacket_effect _ _)
      exact ⟨rfl, rfl, rfl⟩

theorem requestResend_effect (Away : Id → Prop) (t : Transport P) :
    Effect Away t (requestResend P t).2 := by
  unfold requestResend
  simp only
  split
  · exact .same (Same.refl t)
  · exact .same ⟨rfl, rfl, acks_other P.resend_ne_ack _ _⟩

theorem controlPacket_effect (Away : Id → Prop) (type : Nat) (t : Transport P) :
    Effect Away t (controlPacket P type t).2 := by
  unfold controlPacket
  simp only
  split
  · split
    · exact .same (Same.refl t)
    split
    · exact .same ⟨rfl, rfl, rfl⟩
    · exact .same (Same.refl t)
  split
  · exact .reset rfl (acks_other P.reset_ne_ack _ _) rfl
  split
  · exact .same (Same.refl t)
  · exact .same (Same.refl t)

theorem readField_full {k w : Nat} (field : BitVec w) {got : List Byte} (h : got.length = k) :
    readField k field got = BitVec.ofNat w (valueOf got) := by
  have hdrop : (bytesOf k field.toNat).drop got.length = [] := by
    apply List.drop_eq_nil_of_le
    exact Nat.le_of_eq (by rw [length_bytesOf, h])
  unfold readField readInto
  rw [hdrop, List.append_nil]

theorem readPacketId_effect (type : Nat) (t : Transport P) :
    Effect (fun id => id = BitVec.ofNat 32 (valueOf (read 4 t.wire).1) ∧
      type = P.PACKET_TYPE_KD_ACKNOWLEDGE ∧ t.s_PacketHeader.isControl = false ∧
      (read 4 t.wire).1.length = 4 ∧ (read 4 (read 4 t.wire).2).1.length = 4)
      t (readPacketId P type t).2 := by
  unfold readPacketId
  simp only
  split
  · refine Effect.of_same ?_ (requestResend_effect _ _)
    exact ⟨rfl, rfl, rfl⟩
  · rename_i hlen
    split
    · refine Effect.of_same ?_ (controlPacket_effect _ _ _)
      exact ⟨rfl, rfl, rfl⟩
    · rename_i hdata
      refine Effect.of_same ?_ ((dataHeader_effect type _).mono ?_)
      · exact ⟨rfl, rfl, rfl⟩
      rintro id ⟨rfl, hack, hsum⟩
      exact ⟨readField_full _ (not_not.mp hlen), hack, Bool.eq_false_iff.mpr hdata,
        not_not.mp hlen, hsum⟩

/-- The id of the data packet on the wire behind its leader, if the code reads its
header to the end and takes it for valid. -/
def arrivingId (t : Transport P) : Option Id :=
  match skipLeaderBytes P t.wire with
  | (none, _) => none
  | (some low, wire) =>
    let high := read 1 wire
    let count := read 2 high.2
    let id := read 4 count.2
    if high.1.length = 1 ∧ (BitVec.ofNat 16 (valueOf (low :: high.1))).toNat < typeLimit P t ∧
        count.1.length = 2 ∧ (BitVec.ofNat 16 (valueOf count.1)).toNat ≤ P.PACKET_MAX_SIZE ∧
        id.1.length = 4 ∧ (read 4 id.2).1.length = 4 then
      some (BitVec.ofNat 32 (valueOf id.1))
    else none

/-- A data packet is turned away only while an acknowledgement is waited for. -/
def Away (type : Nat) (isControl : Bool) (t : Transport P) (id : Id) : Prop :=
  type = P.PACKET_TYPE_KD_ACKNOWLEDGE ∧ isControl = false ∧ arrivingId t = some id

theorem initialBreakIn_same (t : Transport P) :
    (initialBreakIn t).log = t.log ∧ acks (initialBreakIn t) = acks t := by
  unfold initialBreakIn
  split
  · exact ⟨rfl, rfl⟩
  · exact ⟨rfl, rfl⟩

theorem afterLeader_effect (type : Nat) (isControl : Bool) (t : Transport P) :
    Effect (Away type isControl t) t (afterLeader P type isControl t).2 := by
  obtain ⟨hw, -, he, hm⟩ := initialBreakIn_eq t
  obtain ⟨hl, ha⟩ := initialBreakIn_same t
  have hsame {t' : Transport P} (he' : t'.m_PacketExpected = (initialBreakIn t).m_PacketExpected)
      (hl' : t'.log = (initialBreakIn t).log) (ha' : acks t' = acks (initialBreakIn t)) :
      Same t t' := ⟨he'.trans he, hl'.trans hl, ha'.trans ha⟩
  unfold afterLeader
  simp only [hw]
  split
  · exact .same (hsame rfl rfl rfl)
  · rename_i low wire hskip
    unfold readPacketType
    simp only
    split
    · refine Effect.of_same ?_ (requestResend_effect _ _)
      exact hsame rfl rfl rfl
    rename_i hhigh
    have hkind := readField_full t.s_PacketHeader.PacketType
      (show (low :: (read 1 wire).1).length = 2 from congrArg (· + 1) (not_not.mp hhigh))
    split
    · refine Effect.of_same ?_ (requestResend_effect _ _)
      exact hsame rfl rfl rfl
    rename_i hlimit
    unfold readByteCount
    simp only
    split
    · refine Effect.of_same ?_ (requestResend_effect _ _)
      exact hsame rfl rfl rfl
    rename_i hcount
    split
    · refine Effect.of_same ?_ (requestResend_effect _ _)
      exact hsame rfl rfl rfl
    rename_i hmax
    refine Effect.of_same ?_ ((readPacketId_effect type _).mono ?_)
    · exact hsame rfl rfl rfl
    rintro id ⟨rfl, hack, hdata, hid, hsum⟩
    have hcount' := readField_full t.s_PacketHeader.ByteCount (not_not.mp hcount)
    have hkind' : (BitVec.ofNat 16 (valueOf (low :: (read 1 wire).1))).toNat < typeLimit P t := by
      rw [← hkind]
      have hlt := Nat.lt_of_not_le hlimit
      unfold typeLimit at hlt ⊢
      simp only [hm] at hlt
      exact hlt
    have hmax' : (BitVec.ofNat 16 (valueOf (read 2 (read 1 wire).2).1)).toNat ≤
        P.PACKET_MAX_SIZE := by
      rw [← hcount']
      exact Nat.le_of_not_lt hmax
    refine ⟨hack, hdata, ?_⟩
    unfold arrivingId
    rw [hskip]
    exact if_pos ⟨not_not.mp hhigh, hkind', not_not.mp hcount, hmax', hid, hsum⟩

theorem other_id {id : Id} (h : id = P.INITIAL_PACKET_ID ∨ id = P.INITIAL_PACKET_ID ^^^ 1) :
    id ^^^ 1 = P.INITIAL_PACKET_ID ∨ id ^^^ 1 = P.INITIAL_PACKET_ID ^^^ 1 := by
  rcases h with rfl | rfl
  · exact Or.inr rfl
  · left
    rw [BitVec.xor_assoc, BitVec.xor_self]
    exact BitVec.xor_zero

/-- The id expected next stays one of the two in use. -/
theorem afterLeader_idExpected (type : Nat) (isControl : Bool) {t : Transport P}
    (h : IdExpected t) : IdExpected (afterLeader P type isControl t).2 := by
  unfold IdExpected at h ⊢
  cases afterLeader_effect type isControl t with
  | same hs =>
    rw [hs.expected]
    exact h
  | reset hlog hacks hexp => exact Or.inl hexp
  | accepted id ha hid hsync hexp =>
    rw [hexp]
    exact other_id h
  | synced id ha hsync hvalid hexp hnext =>
    rw [hexp]
    exact other_id hvalid
  | refused id ha hsync hexp =>
    rw [hexp]
    exact h
  | turnedAway id ha haway hexp =>
    rw [hexp]
    exact h

/-! ## Runs -/

/-- `Restart` and the end of `Synchronize`. -/
def resetIds (t : Transport P) : Transport P :=
  { t with
    m_PacketExpected := P.INITIAL_PACKET_ID, m_NextPacketToSend := P.INITIAL_PACKET_ID,
    log := t.log ++ [.reset] }

inductive HostEvent where
  | packet (type : Nat) (isControl : Bool)
  | reset
  | other
deriving DecidableEq, Repr

/-- A step of the host and the wire: what follows a leader while the host waits for a
packet type, a reset, or anything that takes no packet (bytes arrive, a leader is
looked for, packets and resend requests are written). -/
inductive HostStep : Transport P → HostEvent → Transport P → Prop where
  | packet (type : Nat) (isControl : Bool) (t : Transport P) :
      HostStep t (.packet type isControl) (afterLeader P type isControl t).2
  | reset (t : Transport P) : HostStep t .reset (resetIds t)
  | other {t t' : Transport P} (h : Same t t') : HostStep t .other t'

/-- One round of the loop: it ends without a leader, a second leader byte ends it, or
one byte is read and it goes on. -/
theorem readPacketLeader_step (type k : Nat) (previous : Option Byte) (t : Transport P) :
    (∃ s t', readPacketLeader P type (k + 1) previous t = (.error s, t') ∧ s ≠ .waitPacket ∧
      t'.wire <:+ t.wire ∧ Same t t') ∨
    (∃ b wire, t.wire = .byte b :: wire ∧ isLeader P b = true ∧ previous = some b ∧
      readPacketLeader P type (k + 1) previous t =
        (.ok (b = P.CONTROL_PACKET_LEADER_BYTE), { t with wire := wire })) ∨
    ∃ b wire next, t.wire = .byte b :: wire ∧ (next = some b ∨ next = none) ∧
      readPacketLeader P type (k + 1) previous t =
        readPacketLeader P type k next { t with wire := wire } := by
  rw [readPacketLeader]
  split
  · exact .inl ⟨_, _, rfl, (fun h => by cases h), List.suffix_rfl, ⟨rfl, rfl, rfl⟩⟩
  split
  · exact .inl ⟨_, _, rfl, (fun h => by cases h), List.suffix_rfl, ⟨rfl, rfl, rfl⟩⟩
  split
  · exact .inl ⟨_, _, rfl, (fun h => by cases h), List.suffix_rfl, Same.refl t⟩
  split
  · rename_i b wire hread
    have hwire : t.wire = .byte b :: wire := by
      have hfull := @read_full 1 t.wire (by rw [hread]; rfl)
      rw [hread] at hfull
      exact hfull
    split
    · rename_i hb
      split
      · rename_i hsame
        exact .inr (.inl ⟨b, wire, hwire, hb, hsame, rfl⟩)
      · exact .inr (.inr ⟨b, wire, some b, hwire, .inl rfl, rfl⟩)
    · exact .inr (.inr ⟨b, wire, none, hwire, .inr rfl, rfl⟩)
  · rename_i wire _ hread
    have hsuffix := read_suffix 1 t.wire
    rw [hread] at hsuffix
    obtain ⟨hw, -, he, -⟩ := initialBreakIn_eq { t with wire := wire }
    obtain ⟨hl, ha⟩ := initialBreakIn_same { t with wire := wire }
    refine .inl ⟨_, _, rfl, (fun h => by cases h), ?_, ⟨he, hl, ha⟩⟩
    rw [hw]
    exact hsuffix

theorem readPacketLeader_same (type k : Nat) (previous : Option Byte) (t : Transport P) :
    Same t (readPacketLeader P type k previous t).2 := by
  induction k generalizing previous t with
  | zero => exact Same.refl t
  | succ k ih =>
    rcases readPacketLeader_step type k previous t with
      ⟨s, t', hres, -, -, hsame⟩ | ⟨b, wire, -, -, -, hres⟩ | ⟨b, wire, next, -, -, hres⟩
    · rw [hres]
      exact hsame
    · rw [hres]
      exact ⟨rfl, rfl, rfl⟩
    · obtain ⟨he, hl, ha⟩ := ih next { t with wire := wire }
      rw [hres]
      exact ⟨he, hl, ha⟩

theorem readPacketContents_run (type k : Nat) (t : Transport P) :
    ∃ es, Lib.Run HostStep t es (readPacketContents P type k t).2 := by
  induction k generalizing t with
  | zero => exact ⟨[], .nil⟩
  | succ k ih =>
    have hsame := readPacketLeader_same type (t.wire.length + 1) none t
    rw [readPacketContents]
    generalize readPacketLeader P type (t.wire.length + 1) none t = leader at hsame ⊢
    obtain ⟨s | isControl, t₁⟩ := leader
    · exact ⟨_, Lib.Run.single (.other hsame)⟩
    · have hother : HostStep t .other t₁ := .other hsame
      have hrun := (Lib.Run.single hother).snoc (.packet type isControl t₁)
      simp only
      generalize afterLeader P type isControl t₁ = res at hrun ⊢
      obtain ⟨outcome, t₂⟩ := res
      cases outcome with
      | status s => exact ⟨_, hrun⟩
      | again =>
        obtain ⟨es, hes⟩ := ih t₂
        exact ⟨_, hrun.append hes⟩

/-! ## The ids in turn -/

/-- The id expected after an entry. -/
def Entry.expected (P : Protocol) (expected : Id) : Entry → Id
  | .answered .accepted _ _ _ => expected ^^^ 1
  | .answered .synced id _ _ => id &&& ~~~P.SYNC_PACKET_ID ^^^ 1
  | .answered _ _ _ _ => expected
  | .reset => P.INITIAL_PACKET_ID

def expectedAfter (P : Protocol) (start : Id) (log : List Entry) : Id :=
  log.foldl (Entry.expected P) start

/-- Each packet taken for its id has the id expected there. -/
def Alternates (P : Protocol) (start : Id) (log : List Entry) : Prop :=
  ∀ pre id x y post, log = pre ++ .answered .accepted id x y :: post → id = expectedAfter P start pre

/-- The id an answer acknowledges. -/
def Entry.ack (P : Protocol) : Entry → Option Id
  | .answered .turnedAway id _ _ => some id
  | .answered _ id _ _ => some (id &&& ~~~P.SYNC_PACKET_ID)
  | .reset => none

/-- An answer that takes no packet. -/
def Entry.passive : Entry → Bool
  | .answered .refused _ _ _ | .answered .turnedAway _ _ _ => true
  | _ => false

/-- Packets are taken at most once: the ids of the packets taken alternate between
two resets or packets with `SYNC_PACKET_ID`, every packet answered is acknowledged
without that bit, and a packet with it resets the ids. -/
structure AtMostOnce (start : Id) (t : Transport P) : Prop where
  alternates : Alternates P start t.log
  turns : ∀ pre id x y mid id' x' y' post,
    t.log = pre ++ .answered .accepted id x y :: (mid ++ .answered .accepted id' x' y' :: post) →
    (∀ e ∈ mid, e.passive = true) → id' = id ^^^ 1 ∧ id' ≠ id
  acked : acks t = t.log.filterMap (Entry.ack P)
  ackSync : ∀ id ∈ acks t, id &&& P.SYNC_PACKET_ID = 0
  syncResets : ∀ a id x y, .answered a id x y ∈ t.log → id &&& P.SYNC_PACKET_ID ≠ 0 →
    a = .synced ∧ x = id &&& ~~~P.SYNC_PACKET_ID ^^^ 1 ∧ y = P.INITIAL_PACKET_ID

/-- What the runs keep. -/
structure Delivered (start : Id) (t : Transport P) : Prop where
  expected : t.m_PacketExpected = expectedAfter P start t.log
  alternates : Alternates P start t.log
  acked : acks t = t.log.filterMap (Entry.ack P)
  ackSync : ∀ id ∈ acks t, id &&& P.SYNC_PACKET_ID = 0
  syncResets : ∀ a id x y, .answered a id x y ∈ t.log → id &&& P.SYNC_PACKET_ID ≠ 0 →
    a = .synced ∧ x = id &&& ~~~P.SYNC_PACKET_ID ^^^ 1 ∧ y = P.INITIAL_PACKET_ID

theorem sync_cases (id : Id) :
    id &&& P.SYNC_PACKET_ID = P.SYNC_PACKET_ID ∨ id &&& P.SYNC_PACKET_ID = 0 := by
  obtain ⟨i, -, hi⟩ := P.sync_bit
  rw [hi, BitVec.and_twoPow]
  split
  · exact Or.inl rfl
  · exact Or.inr rfl

theorem cleared_sync (id : Id) : id &&& ~~~P.SYNC_PACKET_ID &&& P.SYNC_PACKET_ID = 0 := by
  apply BitVec.eq_of_getLsbD_eq
  intro i hi
  have hzero : (0 : Id).getLsbD i = false := BitVec.getLsbD_zero
  rw [hzero, BitVec.getLsbD_and, BitVec.getLsbD_and, BitVec.getLsbD_not]
  cases P.SYNC_PACKET_ID.getLsbD i with
  | false => exact Bool.and_false _
  | true =>
    rw [Bool.not_true, Bool.and_false, Bool.and_false, Bool.false_and]

theorem expectedAfter_snoc (start : Id) (log : List Entry) (e : Entry) :
    expectedAfter P start (log ++ [e]) = e.expected P (expectedAfter P start log) := by
  unfold expectedAfter
  rw [List.foldl_append]
  rfl

theorem Alternates.snoc {start : Id} {log : List Entry} {e : Entry} (h : Alternates P start log)
    (he : ∀ id x y, e = .answered .accepted id x y → id = expectedAfter P start log) :
    Alternates P start (log ++ [e]) := by
  intro pre id x y post heq
  rcases List.eq_nil_or_concat post with rfl | ⟨post', e', rfl⟩
  · obtain ⟨hpre, hlast⟩ := List.append_inj' heq rfl
    rw [← hpre]
    exact he id x y (List.singleton_inj.mp hlast)
  · have heq' : log ++ [e] = (pre ++ .answered .accepted id x y :: post') ++ [e'] := by
      rw [heq, List.concat_eq_append, List.append_assoc, List.cons_append]
    obtain ⟨hlog, -⟩ := List.append_inj' heq' rfl
    exact h pre id x y post' hlog

theorem expectedAfter_passive {mid : List Entry} (hmid : ∀ e ∈ mid, e.passive = true) (id : Id) :
    expectedAfter P id mid = id := by
  induction mid with
  | nil => rfl
  | cons e mid ih =>
    have he : e.expected P id = id := by
      have hpassive := hmid e List.mem_cons_self
      cases e with
      | reset => cases hpassive
      | answered answer i x y =>
        cases answer with
        | accepted => cases hpassive
        | synced => cases hpassive
        | refused => rfl
        | turnedAway => rfl
    unfold expectedAfter
    rw [List.foldl_cons, he]
    exact ih fun e' he' => hmid e' (List.mem_cons_of_mem e he')

theorem xor_one_ne (id : Id) : id ^^^ 1 ≠ id := by
  intro h
  have hbit := congrArg (fun x => x.getLsbD 0) h
  simp only [BitVec.getLsbD_xor] at hbit
  have hone : (1 : Id).getLsbD 0 = true := rfl
  rw [hone] at hbit
  cases hid : id.getLsbD 0 with
  | false =>
    rw [hid] at hbit
    cases hbit
  | true =>
    rw [hid] at hbit
    cases hbit

theorem Alternates.turns {start : Id} {log : List Entry} (h : Alternates P start log)
    {pre : List Entry} {id x y : Id} {mid : List Entry} {id' x' y' : Id} {post : List Entry}
    (heq : log =
      pre ++ .answered .accepted id x y :: (mid ++ .answered .accepted id' x' y' :: post))
    (hmid : ∀ e ∈ mid, e.passive = true) : id' = id ^^^ 1 ∧ id' ≠ id := by
  have hid := h pre id x y _ heq
  have heq' : log =
      (pre ++ .answered .accepted id x y :: mid) ++ .answered .accepted id' x' y' :: post := by
    rw [heq, List.append_assoc, List.cons_append]
  have hid' := h _ id' x' y' post heq'
  have hnext : expectedAfter P start (pre ++ .answered .accepted id x y :: mid) = id ^^^ 1 := by
    unfold expectedAfter
    rw [List.foldl_append, List.foldl_cons]
    have hpassive := @expectedAfter_passive P mid hmid (id ^^^ 1)
    unfold expectedAfter at hpassive hid
    rw [← hid]
    exact hpassive
  rw [hid', hnext]
  exact ⟨rfl, xor_one_ne id⟩

theorem Delivered.of_same {start : Id} {t t' : Transport P} (h : Delivered start t)
    (hs : Same t t') : Delivered start t' := by
  obtain ⟨he, hl, ha⟩ := hs
  constructor
  · rw [he, hl]
    exact h.expected
  · rw [hl]
    exact h.alternates
  · rw [ha, hl]
    exact h.acked
  · rw [ha]
    exact h.ackSync
  · rw [hl]
    exact h.syncResets

theorem Delivered.reset {start : Id} {t t' : Transport P} (h : Delivered start t)
    (hlog : t'.log = t.log ++ [.reset]) (hacks : acks t' = acks t)
    (hexp : t'.m_PacketExpected = P.INITIAL_PACKET_ID) : Delivered start t' := by
  constructor
  · rw [hlog, expectedAfter_snoc, hexp]
    rfl
  · rw [hlog]
    exact h.alternates.snoc nofun
  · rw [hacks, hlog, List.filterMap_append, h.acked]
    exact (List.append_nil _).symm
  · rw [hacks]
    exact h.ackSync
  · intro a id x y hmem hsync
    rw [hlog] at hmem
    rcases List.mem_append.mp hmem with hmem | hmem
    · exact h.syncResets a id x y hmem hsync
    · cases List.mem_singleton.mp hmem

/-- One answer keeps the invariant. -/
theorem Delivered.answer {start : Id} {t t' : Transport P} (h : Delivered start t)
    {answer : Answer} {id ack : Id} (ha : Answers answer id ack t t')
    (hexp : t'.m_PacketExpected = Entry.expected P t.m_PacketExpected
      (.answered answer id t'.m_PacketExpected t'.m_NextPacketToSend))
    (halt : answer = .accepted → id = t.m_PacketExpected)
    (hack : Entry.ack P (.answered answer id t'.m_PacketExpected t'.m_NextPacketToSend) = some ack)
    (hclean : ack &&& P.SYNC_PACKET_ID = 0)
    (hsync : id &&& P.SYNC_PACKET_ID ≠ 0 → answer = .synced ∧
      t'.m_PacketExpected = id &&& ~~~P.SYNC_PACKET_ID ^^^ 1 ∧
      t'.m_NextPacketToSend = P.INITIAL_PACKET_ID) : Delivered start t' := by
  constructor
  · rw [ha.log, expectedAfter_snoc, ← h.expected]
    exact hexp
  · rw [ha.log]
    apply h.alternates.snoc
    intro i x y heq
    cases heq
    rw [← h.expected]
    exact halt rfl
  · rw [ha.acks, ha.log, List.filterMap_append, h.acked, List.filterMap_cons, hack]
    rfl
  · intro i hi
    rw [ha.acks] at hi
    rcases List.mem_append.mp hi with hi | hi
    · exact h.ackSync i hi
    · rw [List.mem_singleton.mp hi]
      exact hclean
  · intro a i x y hmem hi
    rw [ha.log] at hmem
    rcases List.mem_append.mp hmem with hmem | hmem
    · exact h.syncResets a i x y hmem hi
    · cases List.mem_singleton.mp hmem
      exact hsync hi

/-- The condition on a step: while an acknowledgement is waited for, no data packet
with the bit `SYNC_PACKET_ID` arrives. -/
def NoSyncAway (e : HostEvent) (t : Transport P) : Prop :=
  match e with
  | .packet type isControl => ∀ id, Away type isControl t id → id &&& P.SYNC_PACKET_ID = 0
  | _ => True

theorem Delivered.effect {start : Id} {t t' : Transport P} {Away' : Id → Prop}
    (h : Delivered start t) (heff : Effect Away' t t')
    (hno : ∀ id, Away' id → id &&& P.SYNC_PACKET_ID = 0) : Delivered start t' := by
  cases heff with
  | same hs => exact h.of_same hs
  | reset hlog hacks hexp => exact h.reset hlog hacks hexp
  | accepted id ha hid hsync hexp =>
    have hzero := (sync_cases id).resolve_left hsync
    refine h.answer ha hexp ?_ rfl (cleared_sync id) fun hne => absurd hzero hne
    intro _
    rw [← hid, and_not_of_and_eq_zero hzero]
  | synced id ha hsync hvalid hexp hnext =>
    exact h.answer ha hexp nofun rfl (cleared_sync id) fun _ => ⟨rfl, hexp, hnext⟩
  | refused id ha hsync hexp =>
    have hzero := (sync_cases id).resolve_left hsync
    exact h.answer ha hexp nofun rfl (cleared_sync id) fun hne => absurd hzero hne
  | turnedAway id ha haway hexp =>
    exact h.answer ha hexp nofun rfl (hno id haway) fun hne => absurd (hno id haway) hne

theorem Delivered.step {start : Id} {t t' : Transport P} {e : HostEvent} (h : Delivered start t)
    (hstep : HostStep t e t') (hno : NoSyncAway e t) : Delivered start t' := by
  cases hstep with
  | packet type isControl => exact h.effect (afterLeader_effect type isControl t) hno
  | reset => exact h.reset rfl rfl rfl
  | other hs => exact h.of_same hs

/-- In every run where no packet with `SYNC_PACKET_ID` comes in place of an
acknowledgement, packets are taken at most once. -/
theorem delivered_at_most_once {t₀ t : Transport P} {es : List HostEvent}
    (hlog : t₀.log = []) (hacks : acks t₀ = [])
    (hrun : Lib.Run (fun t e t' => HostStep t e t' ∧ NoSyncAway e t) t₀ es t) :
    AtMostOnce t₀.m_PacketExpected t := by
  have hinit : Delivered t₀.m_PacketExpected t₀ := by
    constructor
    · rw [hlog]
      rfl
    · rw [hlog]
      intro pre id x y post heq
      cases pre with
      | nil => cases heq
      | cons e pre => cases heq
    · rw [hacks, hlog]
      rfl
    · rw [hacks]
      nofun
    · rw [hlog]
      nofun
  have h : Delivered t₀.m_PacketExpected t :=
    hrun.invariant hinit fun a e b ha hstep => ha.step hstep.1 hstep.2
  refine ⟨h.alternates, ?_, h.acked, h.ackSync, h.syncResets⟩
  intro pre id x y mid id' x' y' post heq hmid
  exact h.alternates.turns heq hmid

/-- A data packet of type 7 without data behind its first two leader bytes. -/
def emptyPacket (id : Nat) : List Wire :=
  (leaderBytes windbgkd.PACKET_LEADER_BYTE |>.drop 2).map .byte ++
    ([7, 0, 0, 0] ++ bytesOf 4 id ++ [0, 0, 0, 0] ++ [windbgkd.PACKET_TRAILING_BYTE]).map .byte

theorem delivered_at_most_once_first :
    AtMostOnce windbgkd.INITIAL_PACKET_ID
      (afterLeader windbgkd 7 false (restarted (emptyPacket 0x80800000))).2 := by
  have hstep : HostStep (restarted (emptyPacket 0x80800000)) (.packet 7 false)
      (afterLeader windbgkd 7 false (restarted (emptyPacket 0x80800000))).2 := .packet 7 false _
  have hno : NoSyncAway (.packet 7 false) (restarted (emptyPacket 0x80800000)) := by
    intro id haway
    exact absurd haway.1 (by decide)
  exact delivered_at_most_once rfl rfl (Lib.Run.single ⟨hstep, hno⟩)

/-- Waiting for an acknowledgement the host sends one with the bit `SYNC_PACKET_ID`
and resets nothing. -/
theorem sync_packet_turned_away :
    ¬ ∀ (t₀ t : Transport windbgkd) (es : List HostEvent), t₀.log = [] → acks t₀ = [] →
      Lib.Run HostStep t₀ es t → AtMostOnce t₀.m_PacketExpected t := by
  intro h
  have hstep : HostStep (restarted (emptyPacket 0x80800800)) (.packet 4 false)
      (afterLeader windbgkd 4 false (restarted (emptyPacket 0x80800800))).2 := .packet 4 false _
  have honce := h _ _ _ rfl rfl (Lib.Run.single hstep)
  have hack : acks (afterLeader windbgkd 4 false (restarted (emptyPacket 0x80800800))).2 =
      [0x80800800] := by decide
  have hbit := honce.ackSync 0x80800800 (by rw [hack]; exact List.mem_cons_self)
  exact absurd hbit (by decide)

end SdkTools.Kd
