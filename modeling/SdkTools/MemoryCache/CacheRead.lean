import SdkTools.MemoryCache.CacheFill

/-!
# Reading through the cache

Each round of `Read` gets the node with the next byte, delivers what it has, and looks for more.
The result is what the target would have given, and the cache stays coherent.
-/

namespace SdkTools.MemoryCache

open Lib Lib.BinTree Lib.Context Lib.Links

set_option autoImplicit false

variable {T : Target} {mem : Memory} {s s' : State} {ids : List Nat} {Node : Nat} {c : CACHE}

/-! ### Results -/

/-- The user stopped the read, or it got all that can be read. -/
inductive Delivered (mem : Memory) (Base Count : Nat) : HRESULT → List UCHAR → Prop
  | interrupted {bytes : List UCHAR} : Shows mem Base bytes → bytes.length ≤ Count →
      Delivered mem Base Count CONTROL_C_EXIT bytes
  | failed {Status : HRESULT} : Status ≠ S_OK → mem Base = none →
      Delivered mem Base Count Status []
  | read {bytes : List UCHAR} : bytes ≠ [] → Longest mem Base Count bytes →
      Delivered mem Base Count S_OK bytes

/-- The result of a read that leaves a coherent cache. -/
def Result (T : Target) (mem : Memory) (Base Count : Nat) (result : ReadResult) : Prop :=
  Delivered mem Base Count result.Status result.UserBuffer ∧
    ∃ ids, Inv T result.cache ids ∧ Coherent mem result.cache ids

/-- What a read has got so far; some bytes are still missing. -/
structure SoFar (mem : Memory) (Base Count : Nat) (r : ReadState) : Prop where
  shows : Shows mem Base r.UserBuffer
  base : r.BaseAddress = Base + r.UserBuffer.length
  count : r.UserBuffer.length + r.TransferCount = Count
  pos : 0 < r.TransferCount
  small : Count ≤ 2 ^ 30
  inside : Base + Count < 2 ^ 64

/-- The state at the start of a round. -/
structure Reading (T : Target) (mem : Memory) (Base Count : Nat) (r : ReadState)
    (ids : List Nat) : Prop where
  inv : Inv T r.cache ids
  coherent : Coherent mem r.cache ids
  soFar : SoFar mem Base Count r
  leading : Leading r.cache ids r.BaseAddress r.NextLength r.Node

variable {Base Count : Nat} {r : ReadState}

theorem SoFar.congr {r' : ReadState} (h : SoFar mem Base Count r)
    (hbase : r'.BaseAddress = r.BaseAddress) (hcount : r'.TransferCount = r.TransferCount)
    (hbuffer : r'.UserBuffer = r.UserBuffer) : SoFar mem Base Count r' := by
  obtain ⟨h1, h2, h3, h4, h5, h6⟩ := h
  refine ⟨?_, ?_, ?_, ?_, h5, h6⟩
  · rwa [hbuffer]
  · rwa [hbase, hbuffer]
  · rwa [hcount, hbuffer]
  · rwa [hcount]

/-- The next byte cannot be read. -/
theorem SoFar.ends (h : SoFar mem Base Count r) {Status : HRESULT} (hbad : Status ≠ S_OK)
    (hnone : mem r.BaseAddress = none) :
    Delivered mem Base Count (partialStatus r.UserBuffer Status) r.UserBuffer := by
  have hcount := h.count
  have hpos := h.pos
  unfold partialStatus
  by_cases hempty : r.UserBuffer = []
  · rw [if_pos hempty, hempty]
    apply Delivered.failed hbad
    have hbase := h.base
    rw [hempty, List.length_nil, Nat.add_zero] at hbase
    rwa [← hbase]
  · rw [if_neg hempty]
    refine Delivered.read hempty ⟨h.shows, by omega, fun _ => ?_⟩
    rwa [← h.base]

theorem SoFar.stopped (h : SoFar mem Base Count r) :
    Delivered mem Base Count CONTROL_C_EXIT r.UserBuffer := by
  have hcount := h.count
  exact Delivered.interrupted h.shows (by omega)

theorem Result.of_inv {Status : HRESULT} {UserBuffer : List UCHAR}
    (hd : Delivered mem Base Count Status UserBuffer) (hi : Inv T s ids)
    (hc : Coherent mem s ids) : Result T mem Base Count ⟨Status, UserBuffer, s⟩ :=
  ⟨hd, ids, hi, hc⟩

/-- The rest of the data, without the cache. -/
theorem ReadDirect_spec (hT : Reads T mem) (hi : Inv T r.cache ids)
    (hc : Coherent mem r.cache ids) (h : SoFar mem Base Count r) :
    Result T mem Base Count (ReadDirect T mem r) := by
  have hi' : Inv T r.cache.countRead ids := by
    have hsame : SameNodes r.cache r.cache.countRead := by constructor <;> simp
    exact hi.congr hsame (hi.ledger.congr (by simp) (by simp))
      (hi.sized.congr (by simp) (by simp) (by simp))
  have hc' : Coherent mem r.cache.countRead ids := hc.congr (by simp)
  refine ⟨?_, ids, hi', hc'⟩
  have hanswer := hT.answers r.cache.reads r.BaseAddress r.TransferCount h.pos
  unfold ReadDirect
  dsimp only
  generalize T.ReadUncached mem r.cache.reads r.BaseAddress r.TransferCount = answer at hanswer
  cases hanswer with
  | interrupted =>
    simp only [List.append_nil, ne_eq, not_true_eq_false, if_false]
    exact h.stopped
  | failed hbad hctrl hnone =>
    simp only [List.append_nil, ne_eq, hctrl, not_false_eq_true, if_true]
    exact h.ends hbad hnone
  | @read bytes hne hlongest =>
    have hctrl : S_OK ≠ CONTROL_C_EXIT := by decide
    have hnonempty : r.UserBuffer ++ bytes ≠ [] := by simp [hne]
    simp only [ne_eq, hctrl, not_false_eq_true, if_true, partialStatus, hnonempty, if_false]
    have hbase := h.base
    have hcount := h.count
    obtain ⟨hshows, hle, hstops⟩ := hlongest
    refine Delivered.read hnonempty ⟨?_, ?_, ?_⟩
    · rw [shows_append, ← hbase]
      exact ⟨h.shows, hshows⟩
    · rw [List.length_append]
      omega
    · intro hlt
      rw [List.length_append, ← Nat.add_assoc, ← hbase]
      rw [List.length_append] at hlt
      exact hstops (by omega)

theorem SameNodes.miss (s : State) (n : Nat) : SameNodes s (s.setMisses n).countRead := by
  constructor <;> simp

/-! ### Missing data -/

/-- A new node is filled from the target. -/
theorem insertFilled_spec (hs : Holds s ids) (hl : Ledger s (Node :: ids))
    (hcount : s.m_NodeCount = ids.length) (hsized : Sized T s (cost T s ids + c.cost T))
    (hc : Coherent mem s ids) (hvalid : c.Valid) (hagrees : c.Agrees mem) {Length : Nat}
    (hgap : Gap s ids c.Offset Length) (hle : c.Length ≤ Length) :
    ∃ s' ids', insertFilled s Node c = some (.ok (s', Node)) ∧ Inv T s' ids' ∧
      Coherent mem s' ids' ∧ Node ∈ ids' ∧ Covers s' c.Offset Node := by
  obtain ⟨s', before, after, hrun, hids, hi', hentry⟩ :=
    fill_spec (T := T) hs hl hcount hsized hvalid (by
      intro x hx
      have := hgap.free x hx
      unfold CACHE.stop at this ⊢
      omega)
  refine ⟨s', before ++ Node :: after, ?_, hi', ?_, by simp, ?_⟩
  · unfold insertFilled
    rw [hrun]
    rfl
  · intro x hx
    rw [hentry]
    by_cases hxn : x = Node
    · rw [hxn, entry_setEntry_self]
      exact hagrees
    · rw [entry_setEntry_of_ne hxn]
      apply hc
      rw [hids, List.mem_append]
      simp only [List.mem_append, List.mem_cons, hxn, false_or] at hx
      exact hx
  · unfold Covers
    rw [hentry, entry_setEntry_self]
    exact ⟨Nat.le_refl _, hvalid.offset_lt⟩

theorem readMissing_spec (hT : Reads T mem) (hi : Inv T r.cache ids)
    (hc : Coherent mem r.cache ids) (h : SoFar mem Base Count r) {NextLength : Nat}
    (hgap : Gap r.cache ids r.BaseAddress NextLength) :
    (∃ result, readMissing T mem r NextLength = some (.error result) ∧
      Result T mem Base Count result) ∨
    ∃ s' x ids', readMissing T mem r NextLength = some (.ok (s', x)) ∧ Inv T s' ids' ∧
      Coherent mem s' ids' ∧ x ∈ ids' ∧ Covers s' r.BaseAddress x := by
  have hsmall := hgap.small
  have hinside := h.inside
  have hbase := h.base
  have hcount := h.count
  have hpos := h.pos
  unfold readMissing
  obtain ⟨s₁, hsame, ⟨halloc, hsized, hallocated, hfreed⟩ | ⟨halloc, hsized, hl⟩⟩ :=
    allocBoth_spec hi.sized (by omega : NextLength < 2 ^ 31)
  · rw [halloc]
    dsimp only
    have hanswer := hT.answers s₁.reads r.BaseAddress NextLength hgap.pos
    generalize T.ReadUncached mem s₁.reads r.BaseAddress NextLength = answer at hanswer
    generalize hs₂ : (s₁.setMisses (ulong (s₁.m_Misses + 1))).countRead = s₂
    have hsame₂ : SameNodes r.cache s₂ := by
      subst hs₂
      exact hsame.trans (SameNodes.miss s₁ _)
    have hl₂ : Ledger s₂ (r.cache.allocated :: ids) := by
      subst hs₂
      exact (hi.ledger.add hfreed hallocated).congr (by simp) (by simp)
    have hsized₂ : Sized T s₂ (cost T r.cache ids + T.sizeof_CACHE + NextLength) := by
      subst hs₂
      rw [Nat.add_right_comm]
      exact hsized.congr (by simp) (by simp) (by simp)
    -- the node and its data are freed
    have hfreeInv : Inv T (freeNode T (Free s₂ NextLength) r.cache.allocated) ids := by
      have hfree := (SameNodes.free s₂ NextLength).trans (SameNodes.freeNode T _ r.cache.allocated)
      exact hi.congr (hsame₂.trans hfree)
        (hl₂.free (by simp [freeNode, Free]) (by simp [freeNode, Free]))
        (freeNode_spec _ (Free_spec hsized₂))
    have hfreeCoherent :
        Coherent mem (freeNode T (Free s₂ NextLength) r.cache.allocated) ids := by
      apply hc.congr
      rw [← hsame₂.entry]
      simp [freeNode, Free]
    -- the node is inserted
    have hinsert (s₃ : State) (c : CACHE) (hsame₃ : SameNodes s₂ s₃)
        (hl₃ : Ledger s₃ (r.cache.allocated :: ids))
        (hsized₃ : Sized T s₃ (cost T r.cache ids + c.cost T)) (hOffset : c.Offset = r.BaseAddress)
        (hlength : 0 < c.Length ∧ c.Length ≤ NextLength) (hstop : c.stop < 2 ^ 64)
        (hagrees : c.Agrees mem) :
        ∃ s' ids', insertFilled s₃ r.cache.allocated c = some (.ok (s', r.cache.allocated)) ∧
          Inv T s' ids' ∧ Coherent mem s' ids' ∧ r.cache.allocated ∈ ids' ∧
          Covers s' r.BaseAddress r.cache.allocated := by
      have hsame' := hsame₂.trans hsame₃
      rw [← hOffset]
      exact insertFilled_spec (hi.holds.congr hsame'.links hsame'.m_Root hsame'.entry) hl₃
        (hsame'.m_NodeCount.trans hi.count) (by rwa [cost_congr T hsame'.entry])
        (hc.congr hsame'.entry) ⟨hlength.1, hstop⟩ hagrees
        ((hOffset ▸ hgap).congr hsame'.entry) hlength.2
    cases hanswer with
    | interrupted =>
      rw [if_pos rfl]
      exact Or.inl ⟨_, rfl, Result.of_inv h.stopped hfreeInv hfreeCoherent⟩
    | @failed Status hbad hctrl hnone =>
      dsimp only
      rw [if_neg hctrl, if_pos hbad]
      by_cases hother : Status ≠ UNSUCCESSFUL ∧ Status ≠ PARTIAL_COPY
      · rw [if_pos hother]
        exact Or.inl ⟨_, rfl, Result.of_inv (h.ends hbad hnone) hfreeInv hfreeCoherent⟩
      · rw [if_neg hother]
        obtain ⟨s', ids', hrun, hrest⟩ := hinsert (Free s₂ NextLength)
          ⟨r.BaseAddress, .error Status⟩ (SameNodes.free _ _) (hl₂.congr (by simp [Free])
          (by simp [Free])) (by simpa [CACHE.cost, CACHE.isError] using Free_spec hsized₂) rfl
          ⟨Nat.one_pos, hgap.pos⟩ (by change r.BaseAddress + 1 < _; omega) (by
            refine ⟨trivial, ?_⟩
            intro Status' heq
            cases heq
            exact ⟨hbad, hnone⟩)
        exact Or.inr ⟨s', _, ids', hrun, hrest⟩
    | @read bytes hne hlongest =>
      have hctrl : S_OK ≠ CONTROL_C_EXIT := by decide
      obtain ⟨hshows, hle, -⟩ := hlongest
      have hbytes := List.length_pos_iff.mpr hne
      have hstop := stop_lt hT.last hshows (by have := hgap.inside; omega) hne
      have hagrees (d : Bool) : CACHE.Agrees mem ⟨r.BaseAddress, .data bytes d⟩ := by
        refine ⟨hshows, ?_⟩
        intro Status heq
        cases heq
      dsimp only
      rw [if_neg hctrl, if_neg (by simp)]
      by_cases hshort : bytes.length ≠ NextLength
      · rw [if_pos hshort]
        have hsub : ulongSub NextLength bytes.length = NextLength - bytes.length :=
          ulongSub_of_le hle (by omega)
        have hsized₃ : Sized T (Free s₂ (NextLength - bytes.length))
            (cost T r.cache ids + (bytes.length + T.sizeof_CACHE)) := by
          apply Free_spec
          have htotal : cost T r.cache ids + (bytes.length + T.sizeof_CACHE) +
              (NextLength - bytes.length) = cost T r.cache ids + T.sizeof_CACHE + NextLength := by
            omega
          rwa [htotal]
        rw [hsub]
        obtain ⟨s', ids', hrun, hrest⟩ := hinsert (Free s₂ (NextLength - bytes.length))
          ⟨r.BaseAddress, .data bytes true⟩ (SameNodes.free _ _) (hl₂.congr (by simp [Free])
          (by simp [Free])) (by simpa [CACHE.cost, CACHE.isError, CACHE.Length] using hsized₃)
          rfl ⟨hbytes, hle⟩ hstop (hagrees true)
        exact Or.inr ⟨s', _, ids', hrun, hrest⟩
      · rw [if_neg hshort]
        rw [not_ne_iff] at hshort
        obtain ⟨s', ids', hrun, hrest⟩ := hinsert s₂ ⟨r.BaseAddress, .data bytes false⟩
          (SameNodes.refl _) hl₂ (by
            rw [← hshort, Nat.add_assoc, Nat.add_comm T.sizeof_CACHE] at hsized₂
            simpa [CACHE.cost, CACHE.isError, CACHE.Length] using hsized₂) rfl ⟨hbytes, hle⟩ hstop (hagrees false)
        exact Or.inr ⟨s', _, ids', hrun, hrest⟩
  · rw [halloc]
    have hi₁ := hi.congr hsame (hl ids hi.ledger) hsized
    exact Or.inl ⟨_, rfl, ReadDirect_spec (r := { r with cache := s₁ }) hT hi₁
      (hc.congr hsame.entry) (h.congr rfl rfl rfl)⟩

/-! ### More data -/

/-- The node ends where the next byte is missing, and has data. -/
structure EndsAt (s : State) (ids : List Nat) (Base x : Nat) : Prop where
  mem : x ∈ ids
  data : (s.entry x).isError = false
  stop : (s.entry x).stop = Base

theorem EndsAt.congr {x : Nat} (h : EndsAt s ids Base x) (hentry : s'.entry = s.entry) :
    EndsAt s' ids Base x := by
  obtain ⟨hmem, hdata, hstop⟩ := h
  exact ⟨hmem, by rwa [hentry], by rwa [hentry]⟩

theorem data_of_not_error (h : c.isError = false) : c.u = .data c.Data c.dontExtend ∧
    c.Length = c.Data.length := by
  obtain ⟨Offset, u⟩ := c
  cases u with
  | data Data dontExtend => exact ⟨rfl, rfl⟩
  | error Status => cases h

/-- What a round does: it ends the read, or the next round starts. -/
def Continues (T : Target) (mem : Memory) (Base Count TransferCount : Nat) :
    Except ReadResult ReadState → Prop
  | .error result => Result T mem Base Count result
  | .ok r' => r'.TransferCount = TransferCount ∧ ∃ ids, Reading T mem Base Count r' ids

/-- The next round starts with a new node. -/
theorem continues_new (hi : Inv T r.cache ids) (hc : Coherent mem r.cache ids)
    (h : SoFar mem Base Count r) (hgap : Gap r.cache ids r.BaseAddress r.NextLength) :
    Continues T mem Base Count r.TransferCount (.ok { r with Node := none }) :=
  ⟨rfl, ids, hi, hc, h.congr rfl rfl rfl, Leading.missing hgap⟩

theorem extendNode_spec (hT : Reads T mem) (hi : Inv T r.cache ids)
    (hc : Coherent mem r.cache ids) (h : SoFar mem Base Count r)
    (hends : EndsAt r.cache ids r.BaseAddress Node)
    (hgap : Gap r.cache ids r.BaseAddress r.NextLength) :
    Continues T mem Base Count r.TransferCount (extendNode T mem r Node) := by
  obtain ⟨hNode, hdata, hstop⟩ := hends
  obtain ⟨hu, hlength⟩ := data_of_not_error hdata
  have hvalid := hi.holds.valid Node hNode
  have hagrees := (hc Node hNode).1
  have hsmall := hgap.small
  have hlengthle := length_le_of_mem (T := T) hNode hdata
  have hcovers := hi.sized.covers
  have hsizele := hi.sized.size_le
  have hlen : ulong ((r.cache.entry Node).Length + r.NextLength) =
      (r.cache.entry Node).Length + r.NextLength := ulong_of_lt (by omega)
  unfold extendNode
  dsimp only
  by_cases hdont : (r.cache.entry Node).dontExtend = true
  · rw [if_pos hdont]
    exact continues_new hi hc h hgap
  rw [if_neg hdont, hlen]
  obtain ⟨s₁, hsame, hallocated, hfreed, ⟨halloc, hsized⟩ | ⟨halloc, hsized⟩⟩ :=
    Alloc_spec hi.sized
      (by omega : (r.cache.entry Node).Length + r.NextLength < 2 ^ 31 + 2 ^ 29)
  · rw [halloc]
    dsimp only
    have hanswer := hT.answers (Free s₁ (r.cache.entry Node).Length).reads r.BaseAddress
      r.NextLength hgap.pos
    generalize T.ReadUncached mem (Free s₁ (r.cache.entry Node).Length).reads r.BaseAddress
      r.NextLength = answer at hanswer
    generalize hs₂ : ((Free s₁ (r.cache.entry Node).Length).setMisses
      (ulong ((Free s₁ (r.cache.entry Node).Length).m_Misses + 1))).countRead = s₂
    have hsame₂ : SameNodes r.cache s₂ := by
      subst hs₂
      exact (hsame.trans (SameNodes.free s₁ _)).trans (SameNodes.miss _ _)
    have hl₂ : Ledger s₂ ids := by
      subst hs₂
      exact hi.ledger.congr (by simp [Free, hfreed]) (by simp [Free, hallocated])
    have hsized₂ : Sized T s₂ (cost T r.cache ids + r.NextLength) := by
      subst hs₂
      rw [Nat.add_comm (CACHE.Length _), ← Nat.add_assoc] at hsized
      exact (Free_spec hsized).congr (by simp) (by simp) (by simp)
    have hbase : (r.cache.entry Node).Offset + (r.cache.entry Node).Data.length = r.BaseAddress := by
      rw [← hlength]
      exact hstop
    have hright (k : Nat) (hk : k ≤ r.NextLength) (y : Nat) (hy : y ∈ ids)
        (hbefore : Before r.cache Node y) : r.BaseAddress + k ≤ (r.cache.entry y).Offset := by
      have := hgap.free y hy
      have := (hi.holds.valid y hy).offset_lt
      unfold Before at hbefore
      omega
    cases hanswer with
    | interrupted =>
      rw [if_pos rfl]
      refine Result.of_inv h.stopped (hi.congr (hsame₂.trans (SameNodes.free _ _))
        (hl₂.congr (by simp [Free]) (by simp [Free])) (Free_spec hsized₂)) (hc.congr ?_)
      exact (hsame₂.trans (SameNodes.free _ _)).entry
    | @failed Status hbad hctrl hnone =>
      dsimp only
      rw [if_neg hctrl, if_pos hbad]
      generalize hc' : (⟨(r.cache.entry Node).Offset, .data (r.cache.entry Node).Data true⟩ : CACHE)
        = c'
      have hlength' : c'.Length = (r.cache.entry Node).Length := by
        rw [hlength, ← hc']
        rfl
      have hOffset : c'.Offset = (r.cache.entry Node).Offset := by rw [← hc']
      have hdata' : c'.isError = false := by
        rw [← hc']
        rfl
      have hcost : c'.cost T = (r.cache.entry Node).cost T := by
        simp only [CACHE.cost, hlength', hdata, hdata']
      have hentry : (Free (s₂.setEntry Node c') r.NextLength).entry =
          (r.cache.setEntry Node c').entry := by
        simp [Free, hsame₂.entry]
      refine Result.of_inv (h.ends hbad hnone) (hi.replace (c := c') hNode hOffset ?_ ?_
        (by simp [Free, hsame₂.links]) (by simp [Free, hsame₂.m_Root]) hentry
        (by simp [Free, hsame₂.m_NodeCount]) (hl₂.congr (by simp [Free]) (by simp [Free]))
        (Free_spec (hsized₂.congr (by simp) (by simp) (by simp))) (by rw [hcost]))
        (hc.replace ⟨?_, ?_⟩ hentry)
      · refine ⟨by rw [hlength']; exact hvalid.length_pos, ?_⟩
        unfold CACHE.stop
        rw [hOffset, hlength']
        exact hvalid.stop_lt
      · intro y hy _ hbefore
        have := hright 0 (Nat.zero_le _) y hy hbefore
        unfold CACHE.stop at hstop ⊢
        omega
      · rw [← hc']
        exact hagrees
      · intro Status' heq
        rw [← hc'] at heq
        cases heq
    | @read bytes hne hlongest =>
      have hctrl : S_OK ≠ CONTROL_C_EXIT := by decide
      obtain ⟨hshows, hle, -⟩ := hlongest
      have hpos := List.length_pos_iff.mpr hne
      have hlast := stop_lt hT.last hshows (by have := hgap.inside; omega) hne
      dsimp only
      rw [if_neg hctrl, if_neg (by simp)]
      generalize hs₃ : (if decide (bytes.length ≠ r.NextLength) = true then
        Free s₂ (ulongSub r.NextLength bytes.length) else s₂) = s₃
      have hboth : SameNodes s₂ s₃ ∧ Ledger s₃ ids ∧
          Sized T s₃ (cost T r.cache ids + bytes.length) := by
        by_cases hshort : bytes.length ≠ r.NextLength
        · rw [if_pos (decide_eq_true hshort), ulongSub_of_le hle (by omega)] at hs₃
          subst hs₃
          refine ⟨SameNodes.free _ _, hl₂.congr (by simp [Free]) (by simp [Free]), Free_spec ?_⟩
          have htotal : cost T r.cache ids + bytes.length + (r.NextLength - bytes.length) =
              cost T r.cache ids + r.NextLength := by
            omega
          rwa [htotal]
        · rw [if_neg (by simpa using hshort)] at hs₃
          rw [not_ne_iff] at hshort
          subst hs₃
          exact ⟨SameNodes.refl _, hl₂, hshort ▸ hsized₂⟩
      obtain ⟨hsame₃, hl₃, hsized₃⟩ := hboth
      have hsame' := hsame₂.trans hsame₃
      generalize hc' : (⟨(r.cache.entry Node).Offset, .data ((r.cache.entry Node).Data ++ bytes)
        (decide (bytes.length ≠ r.NextLength))⟩ : CACHE) = c'
      have hOffset : c'.Offset = (r.cache.entry Node).Offset := by rw [← hc']
      have hlength' : c'.Length = (r.cache.entry Node).Length + bytes.length := by
        rw [hlength, ← List.length_append, ← hc']
        rfl
      have hdata' : c'.isError = false := by
        rw [← hc']
        rfl
      have hcost : c'.cost T = (r.cache.entry Node).cost T + bytes.length := by
        simp only [CACHE.cost, hlength', hdata, hdata', Bool.false_eq_true, if_false]
        omega
      have hstop' : c'.stop = r.BaseAddress + bytes.length := by
        unfold CACHE.stop at hstop ⊢
        omega
      have hentry : (s₃.setEntry Node c').entry = (r.cache.setEntry Node c').entry := by
        simp [hsame'.entry]
      refine ⟨rfl, ids, hi.replace (c := c') hNode hOffset ⟨by omega, by rw [hstop']; exact hlast⟩
        ?_ (by simp [hsame'.links]) (by simp [hsame'.m_Root]) hentry
        (by simp [hsame'.m_NodeCount]) (hl₃.congr (by simp) (by simp))
        (hsized₃.congr (by simp) (by simp) (by simp)) (by rw [hcost]; omega),
        hc.replace ⟨?_, ?_⟩ hentry, h.congr rfl rfl rfl, Leading.covers hNode ?_⟩
      · intro y hy _ hbefore
        rw [hstop']
        exact hright bytes.length hle y hy hbefore
      · rw [← hc']
        apply shows_append.mpr
        exact ⟨hagrees, hbase.symm ▸ hshows⟩
      · intro Status' heq
        rw [← hc'] at heq
        cases heq
      · unfold Covers
        dsimp only
        rw [hentry, entry_setEntry_self, hstop', hOffset]
        omega
  · rw [halloc]
    have hi₁ : Inv T s₁ ids := hi.congr hsame (hi.ledger.congr hfreed hallocated) hsized
    exact ⟨rfl, ids, hi₁, hc.congr hsame.entry, h.congr rfl rfl rfl,
      Leading.missing (hgap.congr hsame.entry)⟩

theorem reachNode_spec (hT : Reads T mem) (hi : Inv T r.cache ids)
    (hc : Coherent mem r.cache ids) (h : SoFar mem Base Count r)
    (hends : EndsAt r.cache ids r.BaseAddress Node) {Node2 NextLength : Nat}
    (hnext : Leading r.cache ids r.BaseAddress NextLength (some Node2)) :
    Continues T mem Base Count r.TransferCount (reachNode T mem r Node Node2) := by
  unfold reachNode
  dsimp only
  cases hnext with
  | covers hNode2 hcovers =>
    -- the range of the node does not overlap with the data already read
    have hstart : (r.cache.entry Node2).Offset = r.BaseAddress := by
      have hstop := hends.stop
      have hne : Node ≠ Node2 := by
        rintro rfl
        have := hcovers.2
        omega
      have := (hi.holds.valid Node hends.mem).offset_lt
      have := hcovers.1
      have := hcovers.2
      have hapart := hi.holds.before_or hends.mem hNode2 hne
      unfold Before at hapart
      omega
    have hzero : ulong ((r.cache.entry Node2).Offset + 2 ^ 64 - r.BaseAddress) = 0 := by
      unfold ulong
      omega
    rw [if_pos hzero]
    exact ⟨rfl, ids, hi, hc, h.congr rfl rfl rfl, Leading.covers hNode2 hcovers⟩
  | behind hNode2 hlt hgap =>
    have hsmall := hgap.small
    have hlength : ulong ((r.cache.entry Node2).Offset + 2 ^ 64 - r.BaseAddress) =
        (r.cache.entry Node2).Offset - r.BaseAddress := by
      unfold ulong
      omega
    rw [hlength, if_neg (by omega)]
    exact extendNode_spec (r := { r with
      NextLength := (r.cache.entry Node2).Offset - r.BaseAddress }) hT hi hc (h.congr rfl rfl rfl)
      hends hgap

/-- The data of the second node follow those of the first one. -/
theorem mergeNodes_spec {Node2 : Nat} (hs : Holds s ids) (hl : Ledger s ids)
    (hcount : s.m_NodeCount = ids.length) (hlen : ids.length < 2 ^ 32)
    (hsized : Sized T s (cost T s ids + ((s.entry Node).Length + (s.entry Node2).Length)))
    (hc : Coherent mem s ids) (hNode : Node ∈ ids) (hNode2 : Node2 ∈ ids) (hne : Node ≠ Node2)
    (hdata : (s.entry Node).isError = false) (hdata2 : (s.entry Node2).isError = false)
    (hmeet : (s.entry Node).stop = (s.entry Node2).Offset) :
    ∃ s', mergeNodes T s Node Node2 = some s' ∧ Inv T s' (ids.erase Node2) ∧
      Coherent mem s' (ids.erase Node2) ∧ Node ∈ ids.erase Node2 ∧
      Covers s' (s.entry Node).stop Node := by
  obtain ⟨hu, hlength⟩ := data_of_not_error hdata
  obtain ⟨hu2, hlength2⟩ := data_of_not_error hdata2
  have hvalid := hs.valid Node hNode
  have hvalid2 := hs.valid Node2 hNode2
  have hmem : Node ∈ ids.erase Node2 := (List.mem_erase_of_ne hne).mpr hNode
  unfold mergeNodes
  dsimp only
  generalize hc' : (⟨(s.entry Node).Offset, .data ((s.entry Node).Data ++ (s.entry Node2).Data)
    (s.entry Node).dontExtend⟩ : CACHE) = c'
  have hOffset : c'.Offset = (s.entry Node).Offset := by rw [← hc']
  have hdata' : c'.isError = false := by
    rw [← hc']
    rfl
  have hlength' : c'.Length = (s.entry Node).Length + (s.entry Node2).Length := by
    rw [hlength, hlength2, ← List.length_append, ← hc']
    rfl
  have hstop' : c'.stop = (s.entry Node2).stop := by
    unfold CACHE.stop at hmeet ⊢
    omega
  have hcost : c'.cost T = (s.entry Node).cost T + (s.entry Node2).Length := by
    simp only [CACHE.cost, hlength', hdata, hdata', Bool.false_eq_true, if_false]
    omega
  have hentry2 : (Free (s.setEntry Node c') (s.entry Node).Length).entry Node2 =
      s.entry Node2 := by
    simp [Free, Ne.symm hne]
  have hsized' : Sized T (Free (s.setEntry Node c') (s.entry Node).Length)
      (cost T s (ids.erase Node2) + (s.entry Node2).Length + (s.entry Node2).cost T) := by
    apply Free_spec
    have htotal : cost T s (ids.erase Node2) + (s.entry Node2).Length + (s.entry Node2).cost T +
        (s.entry Node).Length =
        cost T s ids + ((s.entry Node).Length + (s.entry Node2).Length) := by
      rw [← cost_erase T s hNode2]
      omega
    rw [htotal]
    exact hsized.congr (by simp) (by simp) (by simp)
  rw [← hentry2] at hsized'
  obtain ⟨s', hrun, htree', hl', hsized'', hcount', hentry', -⟩ :=
    removeNode_spec (hs.treed.congr (by simp [Free]) (by simp [Free])) hNode2
      (hl.congr (by simp [Free]) (by simp [Free])) hsized' (by simpa [Free] using hcount) hlen
  have hentry : s'.entry = (s.setEntry Node c').entry := by
    rw [hentry']
    simp [Free]
  have hsub (y : Nat) (hy : y ∈ ids.erase Node2) : y ∈ ids := List.mem_of_mem_erase hy
  have hs' : Holds s' (ids.erase Node2) := by
    refine Holds.replace (fun x hx => hs.valid x (hsub x hx))
      (hs.apart.sublist List.erase_sublist) hmem htree' hentry hOffset ⟨?_, ?_⟩ ?_
    · have := hvalid.length_pos
      omega
    · rw [hstop']
      exact hvalid2.stop_lt
    · intro y hy hyn hbefore
      have hy2 : y ≠ Node2 := (hs.nodup.mem_erase_iff.mp hy).1
      have hpos := (hs.valid y (hsub y hy)).offset_lt
      have hapart := hs.before_or hNode2 (hsub y hy) hy2.symm
      unfold Before at hbefore hapart
      omega
  have hc'' : Coherent mem s' (ids.erase Node2) := by
    have hfew : Coherent mem s (ids.erase Node2) := fun x hx => hc x (hsub x hx)
    refine hfew.replace ⟨?_, ?_⟩ hentry
    · rw [← hc']
      apply shows_append.mpr
      refine ⟨(hc Node hNode).1, ?_⟩
      have hshows2 := (hc Node2 hNode2).1
      rw [← hmeet, CACHE.stop, hlength] at hshows2
      exact hshows2
    · intro Status heq
      rw [← hc'] at heq
      cases heq
  refine ⟨s', hrun, ⟨hs', hl', hcount', ?_⟩, hc'', hmem, ?_⟩
  · have hreplace := cost_replace T hmem (hs.nodup.erase Node2) hentry
    have hequal : cost T s' (ids.erase Node2) =
        cost T s (ids.erase Node2) + (s.entry Node2).Length := by omega
    rw [hentry2] at hsized''
    rwa [hequal]
  · unfold Covers
    rw [hentry, entry_setEntry_self, hstop', hOffset, hmeet]
    have := hvalid.offset_lt
    exact ⟨by omega, hvalid2.offset_lt⟩

theorem readMore_spec (hT : Reads T mem) (hi : Inv T r.cache ids)
    (hc : Coherent mem r.cache ids) (h : SoFar mem Base Count r)
    (hends : EndsAt r.cache ids r.BaseAddress Node) :
    ∃ out, readMore T mem r Node = some out ∧
      Continues T mem Base Count r.TransferCount out := by
  have hbase := h.base
  have hcount := h.count
  have hinside := h.inside
  have hsmall := h.small
  obtain ⟨found, NextLength, hrun, hleading⟩ :=
    Lookup_leading hi h.pos (by omega) (by have := h.pos; omega : r.BaseAddress < 2 ^ 64 - 1)
  unfold readMore
  rw [hrun]
  cases found with
  | none =>
    cases hleading with
    | missing hgap =>
      dsimp only
      split
      · exact ⟨_, rfl, rfl, ids, hi, hc, h.congr rfl rfl rfl, Leading.missing hgap⟩
      · exact ⟨_, rfl, extendNode_spec (r := { r with NextLength := NextLength }) hT hi hc
          (h.congr rfl rfl rfl) hends hgap⟩
  | some Node2 =>
    have hNode2 : Node2 ∈ ids ∧ r.BaseAddress < (r.cache.entry Node2).stop := by
      cases hleading with
      | covers hmem hcovers => exact ⟨hmem, hcovers.2⟩
      | behind hmem hlt _ =>
        have := (hi.holds.valid Node2 hmem).offset_lt
        exact ⟨hmem, by omega⟩
    dsimp only
    by_cases hmerge : (!(r.cache.entry Node2).isError) = true ∧
        (r.cache.entry Node2).Offset = r.BaseAddress ∧
        ulong ((r.cache.entry Node2).Length + (r.cache.entry Node).Length) < LARGECACHENODE
    · rw [if_pos hmerge]
      have hdata2 : (r.cache.entry Node2).isError = false := by simpa using hmerge.1
      have hne : Node ≠ Node2 := by
        rintro rfl
        have := hends.stop
        omega
      have hboth : (r.cache.entry Node).Length + (r.cache.entry Node2).Length ≤
          cost T r.cache ids := by
        have hfirst := length_le_of_mem (T := T) (s := r.cache)
          ((List.mem_erase_of_ne hne).mpr hends.mem) hends.data
        rw [← cost_erase T r.cache hNode2.1]
        simp only [CACHE.cost, hdata2, Bool.false_eq_true, if_false]
        omega
      have hcovers := hi.sized.covers
      have hsizele := hi.sized.size_le
      rw [ulong_of_lt (by omega)]
      obtain ⟨s₁, hsame, hallocated, hfreed, ⟨halloc, hsized⟩ | ⟨halloc, hsized⟩⟩ :=
        Alloc_spec hi.sized
          (by omega : (r.cache.entry Node).Length + (r.cache.entry Node2).Length < 2 ^ 31 + 2 ^ 29)
      · rw [halloc]
        have hentry := hsame.entry
        obtain ⟨s', hmerged, hi', hc', hmem, hcov⟩ := mergeNodes_spec (T := T) (s := s₁)
          (hi.holds.congr hsame.links hsame.m_Root hentry) (hi.ledger.congr hfreed hallocated)
          (hsame.m_NodeCount.trans hi.count) hi.length_lt
          (by rw [cost_congr T hentry, hentry]; exact hsized) (hc.congr hentry) hends.mem hNode2.1
          hne (by rw [hentry]; exact hends.data) (by rw [hentry]; exact hdata2)
          (by rw [hentry, hends.stop, hmerge.2.1])
        dsimp only
        rw [hmerged]
        rw [hentry, hends.stop] at hcov
        exact ⟨_, rfl, rfl, _, hi', hc', h.congr rfl rfl rfl, Leading.covers hmem hcov⟩
      · rw [halloc]
        have hi₁ : Inv T s₁ ids := hi.congr hsame (hi.ledger.congr hfreed hallocated) hsized
        have hends₁ : EndsAt s₁ ids r.BaseAddress Node := hends.congr hsame.entry
        have hleading₁ : Leading s₁ ids r.BaseAddress NextLength (some Node2) := by
          cases hleading with
          | covers hmem hcov =>
            refine Leading.covers hmem ?_
            unfold Covers
            rw [hsame.entry]
            exact hcov
          | behind hmem hlt hgap =>
            refine Leading.behind hmem ?_ ?_
            · rwa [hsame.entry]
            · rw [hsame.entry]
              exact hgap.congr hsame.entry
        exact ⟨_, rfl, reachNode_spec (r := { r with cache := s₁ }) hT hi₁ (hc.congr hsame.entry)
          (h.congr rfl rfl rfl) hends₁ hleading₁⟩
    · rw [if_neg hmerge]
      exact ⟨_, rfl, reachNode_spec hT hi hc h hends hleading⟩

/-! ### Rounds -/

/-- A round delivers at least one byte. -/
theorem deliver_spec (hT : Reads T mem) (hi : Inv T r.cache ids)
    (hc : Coherent mem r.cache ids) (h : SoFar mem Base Count r) (hNode : Node ∈ ids)
    (hcovers : Covers r.cache r.BaseAddress Node) :
    ∃ out n, deliver T mem r Node = some out ∧ n < r.TransferCount ∧
      Continues T mem Base Count n out := by
  have hbase := h.base
  have hcount := h.count
  have hinside := h.inside
  have hsmall := h.small
  have hpos := h.pos
  have hstop := (hi.holds.valid Node hNode).stop_lt
  obtain ⟨hshows, herror⟩ := hc Node hNode
  obtain ⟨hstart, hend⟩ := hcovers
  unfold deliver
  dsimp only
  cases hu : (r.cache.entry Node).u with
  | error Status =>
    obtain ⟨hbad, hnone⟩ := herror Status hu
    have hone : (r.cache.entry Node).Length = 1 := by
      simp only [CACHE.Length, hu]
    have hhere : (r.cache.entry Node).Offset = r.BaseAddress := by
      unfold CACHE.stop at hend
      omega
    rw [hhere] at hnone
    exact ⟨_, 0, rfl, hpos, Result.of_inv (h.ends hbad hnone) hi hc⟩
  | data Data dontExtend =>
    have hData : (r.cache.entry Node).Data = Data := by simp only [CACHE.Data, hu]
    have hlength : (r.cache.entry Node).Length = Data.length := by simp only [CACHE.Length, hu]
    have hdata : (r.cache.entry Node).isError = false := by simp only [CACHE.isError, hu]
    have hcov := length_le_of_mem (T := T) hNode hdata
    have hcovers := hi.sized.covers
    have hsizele := hi.sized.size_le
    unfold CACHE.stop at hend hstop
    rw [hlength] at hend hstop hcov
    have hskip : ulong (r.BaseAddress - (r.cache.entry Node).Offset) =
        r.BaseAddress - (r.cache.entry Node).Offset := ulong_of_lt (by omega)
    rw [hData] at hshows
    have htail := (hshows.drop
      (by omega : r.BaseAddress - (r.cache.entry Node).Offset ≤ Data.length)).take r.TransferCount
    rw [Nat.add_sub_cancel' hstart] at htail
    have hgot : ((Data.drop (r.BaseAddress - (r.cache.entry Node).Offset)).take
        r.TransferCount).length = min r.TransferCount
          (Data.length - (r.BaseAddress - (r.cache.entry Node).Offset)) := by
      rw [List.length_take, List.length_drop]
    dsimp only
    rw [hskip]
    generalize (Data.drop (r.BaseAddress - (r.cache.entry Node).Offset)).take r.TransferCount =
      bytes at htail hgot
    have hnext : ulong64 (r.BaseAddress + bytes.length) = r.BaseAddress + bytes.length :=
      ulong64_of_lt (by omega)
    have hshows' : Shows mem Base (r.UserBuffer ++ bytes) := by
      rw [shows_append, ← hbase]
      exact ⟨h.shows, htail⟩
    rw [hnext]
    by_cases hdone : r.TransferCount - bytes.length = 0
    · rw [if_pos hdone]
      refine ⟨_, 0, rfl, hpos, Result.of_inv (Delivered.read ?_ ⟨hshows', ?_, ?_⟩) hi hc⟩
      · intro hempty
        have hboth := congrArg List.length hempty
        rw [List.length_append, List.length_nil] at hboth
        omega
      · rw [List.length_append]
        omega
      · intro hless
        rw [List.length_append] at hless
        omega
    · rw [if_neg hdone]
      obtain ⟨out, hrun, hcontinues⟩ := readMore_spec (r := { r with
          BaseAddress := r.BaseAddress + bytes.length
          TransferCount := r.TransferCount - bytes.length
          UserBuffer := r.UserBuffer ++ bytes }) hT hi hc (by
          refine ⟨hshows', ?_, ?_, ?_, hsmall, hinside⟩
          · rw [List.length_append, ← Nat.add_assoc, ← hbase]
          · rw [List.length_append]
            dsimp only
            omega
          · exact Nat.pos_of_ne_zero hdone) ⟨hNode, hdata, by
            unfold CACHE.stop
            rw [hlength]
            dsimp only
            omega⟩
      exact ⟨out, r.TransferCount - bytes.length, hrun, by omega, hcontinues⟩

theorem leadingNode_spec (hT : Reads T mem) (h : Reading T mem Base Count r ids) :
    (∃ result, leadingNode T mem r = some (.error result) ∧ Result T mem Base Count result) ∨
    ∃ s' x ids', leadingNode T mem r = some (.ok (s', x)) ∧ Inv T s' ids' ∧
      Coherent mem s' ids' ∧ x ∈ ids' ∧ Covers s' r.BaseAddress x := by
  obtain ⟨hi, hc, hsoFar, hleading⟩ := h
  unfold leadingNode
  cases hnode : r.Node with
  | none =>
    rw [hnode] at hleading
    cases hleading with
    | missing hgap => exact readMissing_spec hT hi hc hsoFar hgap
  | some x =>
    rw [hnode] at hleading
    dsimp only
    cases hleading with
    | covers hmem hcovers =>
      rw [if_neg (Nat.not_lt.mpr hcovers.1)]
      exact Or.inr ⟨r.cache, x, ids, rfl, hi, hc, hmem, hcovers⟩
    | behind hmem hlt hgap =>
      rw [if_pos hlt, ulong_of_lt (by have := hgap.small; omega)]
      exact readMissing_spec hT hi hc hsoFar hgap

/-- The loop ends, at the latest when all bytes are delivered. -/
theorem readLoop_spec (hT : Reads T mem) {fuel : Nat} (h : Reading T mem Base Count r ids)
    (hfuel : r.TransferCount ≤ fuel) :
    ∃ result, readLoop T mem fuel r = some result ∧ Result T mem Base Count result := by
  induction fuel generalizing r ids with
  | zero =>
    have := h.soFar.pos
    omega
  | succ fuel ih =>
    rw [readLoop]
    rcases leadingNode_spec hT h with ⟨result, hrun, hresult⟩ | ⟨s', x, ids', hrun, hi, hc, hx, hcov⟩
    · rw [hrun]
      exact ⟨result, rfl, hresult⟩
    · rw [hrun]
      obtain ⟨out, n, hdeliver, hless, hcontinues⟩ := deliver_spec (r := { r with cache := s' })
        hT hi hc (h.soFar.congr rfl rfl rfl) hx hcov
      dsimp only at hless ⊢
      rw [hdeliver]
      cases out with
      | error result => exact ⟨result, rfl, hcontinues⟩
      | ok r' =>
        obtain ⟨hcount, ids'', hreading⟩ := hcontinues
        exact ih hreading (by omega)

/-- `Read` delivers what the target has, and leaves a coherent cache. -/
theorem Read_spec (hT : Reads T mem) (hi : Inv T s ids) (hc : Coherent mem s ids)
    {Base Count : Nat} (hsmall : Count ≤ 2 ^ 30) (hinside : Base + Count < 2 ^ 64) :
    ∃ result, Read T mem s Base Count = some result ∧
      (Count = 0 ∧ result = ⟨S_OK, [], s⟩ ∨ 0 < Count ∧ Result T mem Base Count result) := by
  unfold Read
  by_cases hzero : Count = 0
  · rw [if_pos hzero]
    exact ⟨_, rfl, Or.inl ⟨hzero, rfl⟩⟩
  rw [if_neg hzero]
  have hpos := Nat.pos_of_ne_zero hzero
  have hsoFar (r : ReadState) (hbase : r.BaseAddress = Base) (hcount : r.TransferCount = Count)
      (hbuffer : r.UserBuffer = []) : SoFar mem Base Count r := by
    refine ⟨?_, ?_, ?_, by rwa [hcount], hsmall, hinside⟩
    · rw [hbuffer]
      trivial
    · rw [hbase, hbuffer]
      rfl
    · rw [hcount, hbuffer]
      exact Nat.zero_add _
  by_cases hoff : s.m_MaxSize = 0 ∨ s.m_Suspend ≠ 0
  · rw [if_pos hoff]
    exact ⟨_, rfl, Or.inr ⟨hpos, ReadDirect_spec hT hi hc (hsoFar _ rfl rfl rfl)⟩⟩
  · rw [if_neg hoff]
    obtain ⟨found, NextLength, hrun, hleading⟩ :=
      Lookup_leading hi hpos hsmall (by omega : Base < 2 ^ 64 - 1)
    rw [hrun]
    obtain ⟨result, hloop, hresult⟩ := readLoop_spec hT
      (r := ⟨s, Base, Count, [], found, NextLength⟩) ⟨hi, hc, hsoFar _ rfl rfl rfl, hleading⟩
      (Nat.le_refl Count)
    exact ⟨result, hloop, Or.inr ⟨hpos, hresult⟩⟩

end SdkTools.MemoryCache
