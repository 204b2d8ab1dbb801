import SdkTools.MemoryCache.CacheRead

/-!
# Runs of the cache

The operations of a cache in any order, while the target's memory changes through `Write`, or with
the cache emptied afterwards: every read gets what the target has, and the books stay right.
-/

namespace SdkTools.MemoryCache

open Lib Lib.BinTree Lib.Context Lib.Links

set_option autoImplicit false

/-! ### Commands -/

def ChangeSuspend (s : State) (Active : Bool) : State :=
  if Active then
    if s.m_Suspend > 0 then { s with m_Suspend := s.m_Suspend - 1 } else s
  else if s.m_Suspend < 0xffffffff then { s with m_Suspend := s.m_Suspend + 1 }
  else s

def SetForceDecodePtes (s : State) (Enable : Bool) : Option State :=
  Empty { s with
    m_ForceDecodePTEs := Enable
    m_MaxSize := if Enable then 0 else s.m_UserSize }

/-- The commands that `ParseCommands` knows, but for `dump`. -/
inductive Command where
  | hold
  | unhold
  | flushall
  | flushu
  | suspend
  | nosuspend
  | decodeptes
  | nodecodeptes
  | forcedecodeptes
  | noforcedecodeptes
  | flush (Address : Nat)
  | size (NewSize : Nat)

def ParseCommands (T : Target) (s : State) : Command → Option State
  | .hold => some { s with m_PurgeOverride := true }
  | .unhold => some { s with m_PurgeOverride := false }
  | .flushall => Empty s
  | .flushu => PurgeType T s 1
  | .suspend => some (ChangeSuspend s false)
  | .nosuspend => some (ChangeSuspend s true)
  | .decodeptes => (PurgeType T s 0).map fun s => { s with m_DecodePTEs := true }
  | .nodecodeptes => some { s with m_DecodePTEs := false }
  | .forcedecodeptes => SetForceDecodePtes s true
  | .noforcedecodeptes => SetForceDecodePtes s false
  | .flush Address => Remove T s Address 4096
  | .size NewSize =>
    -- a size that is negative as a `LONG` is too large
    if 2 ^ 31 ≤ NewSize then some s
    else if s.m_ForceDecodePTEs then some { s with m_UserSize := NewSize }
    else
      let s := { s with m_UserSize := NewSize, m_MaxSize := NewSize }
      if NewSize = 0 then Empty s else some s

/-! ### Runs -/

inductive Op where
  | read (BaseAddress TransferCount : Nat)
  | write (BaseAddress : Nat) (UserBuffer : List UCHAR)
  | add (BaseAddress : Nat) (UserBuffer : List UCHAR)
  | remove (BaseAddress TransferCount : Nat)
  | purge (type : Nat)
  | command (c : Command)
  /-- The target runs and has this memory afterwards; its caches are emptied. -/
  | resume (mem : Memory)

/-- A read, with the memory at its time. -/
structure Event where
  mem : Memory
  BaseAddress : Nat
  TransferCount : Nat
  Status : HRESULT
  UserBuffer : List UCHAR

structure World where
  mem : Memory
  cache : State

def step (T : Target) (w : World) : Op → Option (List Event × World)
  | .read BaseAddress TransferCount =>
    (Read T w.mem w.cache BaseAddress TransferCount).map fun result =>
      ([⟨w.mem, BaseAddress, TransferCount, result.Status, result.UserBuffer⟩],
        { w with cache := result.cache })
  | .write BaseAddress UserBuffer =>
    (Write T w.mem w.cache BaseAddress UserBuffer).map fun result =>
      ([], ⟨result.1.2, result.2⟩)
  | .add BaseAddress UserBuffer =>
    (Add T w.cache BaseAddress UserBuffer).map fun s => ([], { w with cache := s })
  | .remove BaseAddress TransferCount =>
    (Remove T w.cache BaseAddress TransferCount).map fun s => ([], { w with cache := s })
  | .purge type => (PurgeType T w.cache type).map fun s => ([], { w with cache := s })
  | .command c => (ParseCommands T w.cache c).map fun s => ([], { w with cache := s })
  | .resume mem => (Empty w.cache).map fun s => ([], ⟨mem, s⟩)

def run (T : Target) (w : World) : List Op → Option (List Event × World)
  | [] => some ([], w)
  | op :: ops =>
    (step T w op).bind fun first =>
      (run T first.2 ops).map fun rest => (first.1 ++ rest.1, rest.2)

/-- Sizes are moderate, ranges end below the top of the address space, what is added comes from
the target, and the memory does not change under a cache that is held. -/
def Allowed (w : World) : Op → Prop
  | .read BaseAddress TransferCount =>
    TransferCount ≤ 2 ^ 30 ∧ BaseAddress + TransferCount < 2 ^ 64
  | .write BaseAddress UserBuffer =>
    UserBuffer.length < 2 ^ 32 ∧ BaseAddress + UserBuffer.length < 2 ^ 64
  | .add BaseAddress UserBuffer =>
    UserBuffer ≠ [] ∧ UserBuffer.length < 2 ^ 31 ∧ BaseAddress + UserBuffer.length < 2 ^ 64 ∧
      Shows w.mem BaseAddress UserBuffer
  | .command (.size NewSize) => NewSize ≤ 2 ^ 30
  | .resume mem => w.cache.m_PurgeOverride = false ∧ mem (2 ^ 64 - 1) = none
  | _ => True

/-- Every operation of the run is allowed when it comes. -/
def AllAllowed (T : Target) (w : World) : List Op → Prop
  | [] => True
  | op :: ops => Allowed w op ∧ ∀ events w', step T w op = some (events, w') → AllAllowed T w' ops

/-- What the cache relies on: answers about the memory as it is, and writes that change their range
only. -/
structure Serves (T : Target) : Prop where
  reads : ∀ mem, mem (2 ^ 64 - 1) = none → Reads T mem
  writes : ∀ mem a bytes b, b < a ∨ a + bytes.length ≤ b →
    (T.WriteUncached mem a bytes).2 b = mem b

/-- The bytes from the address up to the first one that cannot be read. -/
def readable (mem : Memory) : Nat → Nat → List UCHAR
  | _, 0 => []
  | a, n + 1 =>
    match mem a with
    | none => []
    | some b => b :: readable mem (a + 1) n

/-- The read was stopped by the user, or got every byte up to the first unreadable one. -/
def Event.Right (e : Event) : Prop :=
  e.Status = CONTROL_C_EXIT ∧ e.UserBuffer <+: readable e.mem e.BaseAddress e.TransferCount ∨
  e.UserBuffer = readable e.mem e.BaseAddress e.TransferCount ∧
    (e.Status = S_OK ↔ e.UserBuffer ≠ [] ∨ e.TransferCount = 0)

variable {T : Target} {mem : Memory} {s s' : State} {ids : List Nat} {w : World}

theorem longest_iff {a n : Nat} {bytes : List UCHAR} :
    Longest mem a n bytes ↔ bytes = readable mem a n := by
  induction n generalizing a bytes with
  | zero =>
    constructor
    · intro h
      exact List.length_eq_zero_iff.mp (Nat.le_zero.mp h.length_le)
    · rintro rfl
      exact ⟨trivial, Nat.le_refl _, fun h => absurd h (Nat.lt_irrefl _)⟩
  | succ n ih =>
    cases bytes with
    | nil =>
      constructor
      · intro h
        have hnone := h.stops (Nat.succ_pos n)
        rw [List.length_nil, Nat.add_zero] at hnone
        rw [readable, hnone]
      · intro h
        rw [readable] at h
        cases hmem : mem a with
        | none => exact ⟨trivial, Nat.zero_le _, fun _ => hmem⟩
        | some b =>
          rw [hmem] at h
          cases h
    | cons b bytes =>
      have hrest : Longest mem a (n + 1) (b :: bytes) ↔
          mem a = some b ∧ Longest mem (a + 1) n bytes := by
        constructor
        · rintro ⟨⟨hfirst, hshows⟩, hle, hstops⟩
          rw [List.length_cons] at hle
          refine ⟨hfirst, hshows, Nat.le_of_succ_le_succ hle, ?_⟩
          intro hlt
          have hnone := hstops (Nat.succ_lt_succ hlt)
          rwa [List.length_cons, Nat.add_comm bytes.length, ← Nat.add_assoc] at hnone
        · rintro ⟨hfirst, hshows, hle, hstops⟩
          refine ⟨⟨hfirst, hshows⟩, Nat.succ_le_succ hle, ?_⟩
          intro hlt
          rw [List.length_cons, Nat.add_comm bytes.length, ← Nat.add_assoc]
          exact hstops (Nat.lt_of_succ_lt_succ hlt)
      rw [hrest, ih, readable]
      cases hmem : mem a with
      | none => simp
      | some b' =>
        rw [List.cons.injEq, Option.some.injEq, eq_comm]

theorem Shows.begins {a n : Nat} {bytes : List UCHAR} (h : Shows mem a bytes)
    (hle : bytes.length ≤ n) : bytes <+: readable mem a n := by
  induction bytes generalizing a n with
  | nil => exact List.nil_prefix
  | cons b bytes ih =>
    cases n with
    | zero => cases hle
    | succ n =>
      rw [readable, h.1]
      exact List.cons_prefix_cons.mpr ⟨rfl, ih h.2 (Nat.le_of_succ_le_succ hle)⟩

theorem Delivered.right {Base Count : Nat} {Status : HRESULT} {bytes : List UCHAR}
    (h : Delivered mem Base Count Status bytes) (hpos : 0 < Count) :
    Event.Right ⟨mem, Base, Count, Status, bytes⟩ := by
  cases h with
  | interrupted hshows hle => exact Or.inl ⟨rfl, hshows.begins hle⟩
  | failed hbad hnone =>
    refine Or.inr ⟨?_, ?_⟩
    · apply longest_iff.mp
      exact ⟨trivial, Nat.zero_le _, fun _ => hnone⟩
    · simp only [hbad, ne_eq, not_true_eq_false, false_or, false_iff]
      exact Nat.ne_of_gt hpos
  | read hne hlongest =>
    refine Or.inr ⟨longest_iff.mp hlongest, ?_⟩
    simp only [ne_eq, hne, not_false_eq_true, true_or]

/-! ### Single operations -/

/-- The settings may change. -/
theorem Inv.settings (hi : Inv T s ids) (hlinks : s'.links = s.links)
    (hroot : s'.m_Root = s.m_Root) (hentry : s'.entry = s.entry)
    (hcount : s'.m_NodeCount = s.m_NodeCount) (hallocated : s'.allocated = s.allocated)
    (hfreed : s'.freed = s.freed) (hsize : s'.m_Size = s.m_Size) (hcalls : s'.mallocs = s.mallocs)
    (hmax : s'.m_MaxSize ≤ 2 ^ 30) (huser : s'.m_UserSize ≤ 2 ^ 30) : Inv T s' ids where
  holds := hi.holds.congr hlinks hroot hentry
  ledger := hi.ledger.congr hfreed hallocated
  count := hcount.trans hi.count
  sized := by
    obtain ⟨hcovers, htight, hle, -⟩ := hi.sized
    rw [cost_congr T hentry]
    refine ⟨by rwa [hsize], ?_, by rwa [hsize], hmax, huser⟩
    intro hall
    rw [hsize]
    exact htight (by rwa [hcalls] at hall)

/-- The nodes that are left agree with the memory if those before did. -/
theorem Coherent.sub {kept : List Nat} (hc : Coherent mem s ids) (hsub : ∀ x ∈ kept, x ∈ ids)
    (hentry : s'.entry = s.entry) : Coherent mem s' kept := by
  intro x hx
  rw [hentry]
  exact hc x (hsub x hx)

theorem Coherent.of_contents {kept : List Nat} (hc : Coherent mem s ids)
    (hsame : contents s' kept = contents s ids) : Coherent mem s' kept := by
  intro x hx
  have hmem : s'.entry x ∈ contents s ids := by
    rw [← hsame]
    exact List.mem_map_of_mem hx
  obtain ⟨y, hy, heq⟩ := List.mem_map.mp hmem
  rw [← heq]
  exact hc y hy

/-- The memory may change where nothing is cached. -/
theorem CACHE.Agrees.outside {mem' : Memory} {c : CACHE} (h : c.Agrees mem) (hc : c.Valid)
    (hsame : ∀ a, c.Offset ≤ a → a < c.stop → mem' a = mem a) : c.Agrees mem' := by
  obtain ⟨hshows, herror⟩ := h
  have hlift (bytes : List UCHAR) (a : Nat) (ha : Shows mem a bytes)
      (hin : ∀ b, a ≤ b → b < a + bytes.length → mem' b = mem b) : Shows mem' a bytes := by
    induction bytes generalizing a with
    | nil => trivial
    | cons x bytes ih =>
      refine ⟨?_, ih (a + 1) ha.2 ?_⟩
      · rw [hin a (Nat.le_refl a) (by simp)]
        exact ha.1
      · intro b hlow hhigh
        apply hin b (by omega)
        rw [List.length_cons]
        omega
  refine ⟨hlift c.Data c.Offset hshows ?_, ?_⟩
  · intro b hlow hhigh
    apply hsame b hlow
    have hlength : c.Data.length ≤ c.Length := by
      unfold CACHE.Data CACHE.Length
      split
      · exact Nat.le_refl _
      · exact Nat.zero_le _
    unfold CACHE.stop
    omega
  · intro Status hu
    rw [hsame c.Offset (Nat.le_refl _) hc.offset_lt]
    exact herror Status hu

/-- The cache of the world is coherent, and its books are right. -/
structure Sound (T : Target) (w : World) : Prop where
  last : w.mem (2 ^ 64 - 1) = none
  cache : ∃ ids, Inv T w.cache ids ∧ Coherent w.mem w.cache ids

/-- What a step does. -/
def Steps (T : Target) (out : Option (List Event × World)) : Prop :=
  ∃ events w', out = some (events, w') ∧ Sound T w' ∧ ∀ e ∈ events, e.Right

theorem Steps.quiet {out : Option State} (hlast : w.mem (2 ^ 64 - 1) = none)
    (h : ∃ s' ids', out = some s' ∧ Inv T s' ids' ∧ Coherent w.mem s' ids') :
    Steps T (out.map fun s => ([], { w with cache := s })) := by
  obtain ⟨s', ids', rfl, hi, hc⟩ := h
  refine ⟨[], ⟨w.mem, s'⟩, rfl, ⟨hlast, ids', hi, hc⟩, ?_⟩
  intro e he
  cases he

theorem PurgeType_sound (hi : Inv T s ids) (hc : Coherent mem s ids) (type : Nat) :
    ∃ s' ids', PurgeType T s type = some s' ∧ Inv T s' ids' ∧ Coherent mem s' ids' := by
  obtain ⟨s', hrun, hi', hentry⟩ := PurgeType_spec hi type
  exact ⟨s', _, hrun, hi', hc.sub (fun x hx => List.mem_of_mem_filter hx) hentry⟩

theorem Remove_sound (hi : Inv T s ids) (hc : Coherent mem s ids) (Offset Length : Nat) :
    ∃ s' ids', Remove T s Offset Length = some s' ∧ Inv T s' ids' ∧ Coherent mem s' ids' := by
  obtain ⟨s', hrun, hi', hentry⟩ := Remove_spec hi Offset Length
  exact ⟨s', _, hrun, hi', hc.sub (fun x hx => List.mem_of_mem_filter hx) hentry⟩

theorem Empty_sound (hi : Inv T s ids) (hc : Coherent mem s ids) :
    ∃ s' ids', Empty s = some s' ∧ Inv T s' ids' ∧ Coherent mem s' ids' := by
  obtain ⟨s', ids', hrun, hi', -, hsame⟩ := Empty_spec hi
  refine ⟨s', ids', hrun, hi', ?_⟩
  rcases hsame with rfl | hsame
  · intro x hx
    cases hx
  · exact hc.of_contents hsame

theorem ParseCommands_sound (hi : Inv T s ids) (hc : Coherent mem s ids) (c : Command)
    (hsize : ∀ NewSize, c = .size NewSize → NewSize ≤ 2 ^ 30) :
    ∃ s' ids', ParseCommands T s c = some s' ∧ Inv T s' ids' ∧ Coherent mem s' ids' := by
  have hmax := hi.sized.max_le
  have hset (s' : State) (hlinks : s'.links = s.links) (hroot : s'.m_Root = s.m_Root)
      (hentry : s'.entry = s.entry) (hcount : s'.m_NodeCount = s.m_NodeCount)
      (hallocated : s'.allocated = s.allocated) (hfreed : s'.freed = s.freed)
      (hsize : s'.m_Size = s.m_Size) (hcalls : s'.mallocs = s.mallocs)
      (hmax : s'.m_MaxSize ≤ 2 ^ 30) (huser : s'.m_UserSize ≤ 2 ^ 30) :
      Inv T s' ids ∧ Coherent mem s' ids :=
    ⟨hi.settings hlinks hroot hentry hcount hallocated hfreed hsize hcalls hmax huser,
      hc.congr hentry⟩
  have hsuspend (Active : Bool) : Inv T (ChangeSuspend s Active) ids ∧
      Coherent mem (ChangeSuspend s Active) ids := by
    unfold ChangeSuspend
    split
    · split
      · exact hset _ rfl rfl rfl rfl rfl rfl rfl rfl hmax.1 hmax.2
      · exact ⟨hi, hc⟩
    · split
      · exact hset _ rfl rfl rfl rfl rfl rfl rfl rfl hmax.1 hmax.2
      · exact ⟨hi, hc⟩
  cases c with
  | hold => exact ⟨_, ids, rfl, hset _ rfl rfl rfl rfl rfl rfl rfl rfl hmax.1 hmax.2⟩
  | unhold => exact ⟨_, ids, rfl, hset _ rfl rfl rfl rfl rfl rfl rfl rfl hmax.1 hmax.2⟩
  | flushall => exact Empty_sound hi hc
  | flushu => exact PurgeType_sound hi hc 1
  | suspend => exact ⟨_, ids, rfl, hsuspend false⟩
  | nosuspend => exact ⟨_, ids, rfl, hsuspend true⟩
  | decodeptes =>
    obtain ⟨s', ids', hrun, hi', hc'⟩ := PurgeType_sound hi hc 0
    have hmax' := hi'.sized.max_le
    refine ⟨{ s' with m_DecodePTEs := true }, ids', ?_, ?_, hc'.congr rfl⟩
    · rw [ParseCommands, hrun]
      rfl
    · exact hi'.settings rfl rfl rfl rfl rfl rfl rfl rfl hmax'.1 hmax'.2
  | nodecodeptes => exact ⟨_, ids, rfl, hset _ rfl rfl rfl rfl rfl rfl rfl rfl hmax.1 hmax.2⟩
  | forcedecodeptes =>
    have hforced := hset
      { s with m_ForceDecodePTEs := true, m_MaxSize := if true then 0 else s.m_UserSize }
      rfl rfl rfl rfl rfl rfl rfl rfl (Nat.zero_le _) hmax.2
    exact Empty_sound hforced.1 hforced.2
  | noforcedecodeptes =>
    have hforced := hset
      { s with m_ForceDecodePTEs := false, m_MaxSize := if false then 0 else s.m_UserSize }
      rfl rfl rfl rfl rfl rfl rfl rfl hmax.2 hmax.2
    exact Empty_sound hforced.1 hforced.2
  | flush Address => exact Remove_sound hi hc Address 4096
  | size NewSize =>
    have hle := hsize NewSize rfl
    rw [ParseCommands, if_neg (by omega)]
    by_cases hforced : s.m_ForceDecodePTEs = true
    · rw [if_pos hforced]
      exact ⟨_, ids, rfl, hset _ rfl rfl rfl rfl rfl rfl rfl rfl hmax.1 hle⟩
    · rw [if_neg hforced]
      have hsized := hset { s with m_UserSize := NewSize, m_MaxSize := NewSize }
        rfl rfl rfl rfl rfl rfl rfl rfl hle hle
      dsimp only
      split
      · exact Empty_sound hsized.1 hsized.2
      · exact ⟨_, ids, rfl, hsized⟩

/-! ### All operations -/

/-- After `Add` the data cached are old ones and those added. -/
theorem Add_sound (hi : Inv T s ids) (hc : Coherent mem s ids) {BaseAddress : Nat}
    {UserBuffer : List UCHAR} (hpos : UserBuffer ≠ []) (hsmall : UserBuffer.length < 2 ^ 31)
    (hstop : BaseAddress + UserBuffer.length < 2 ^ 64) (hshows : Shows mem BaseAddress UserBuffer) :
    ∃ s' ids', Add T s BaseAddress UserBuffer = some s' ∧ Inv T s' ids' ∧
      Coherent mem s' ids' := by
  by_cases hon : s.m_MaxSize = 0
  · unfold Add
    rw [if_pos hon]
    exact ⟨s, ids, rfl, hi, hc⟩
  obtain ⟨s', ids', kept, hrun, hi', hkept, hcontents⟩ :=
    Add_spec hi hon hpos hsmall hstop
  have hc' : Coherent mem s kept := by
    intro x hx
    apply hc
    rw [hkept] at hx
    exact List.mem_of_mem_filter hx
  refine ⟨s', ids', hrun, hi', ?_⟩
  rcases hcontents with hsame | ⟨before, after, hsplit, hsame⟩
  · exact hc'.of_contents hsame
  · intro x hx
    have hmem : s'.entry x ∈ contents s' ids' := List.mem_map_of_mem hx
    rw [hsame, List.mem_append, List.mem_cons] at hmem
    rw [hsplit] at hc'
    rcases hmem with hmem | hmem | hmem
    · obtain ⟨y, hy, heq⟩ := List.mem_map.mp hmem
      rw [← heq]
      exact hc' y (List.mem_append_left _ hy)
    · rw [hmem]
      refine ⟨hshows, ?_⟩
      intro Status heq
      cases heq
    · obtain ⟨y, hy, heq⟩ := List.mem_map.mp hmem
      rw [← heq]
      exact hc' y (List.mem_append_right _ hy)

/-- What is left after `Write` is not in the range written. -/
theorem Write_sound (hT : Serves T) (hlast : mem (2 ^ 64 - 1) = none) (hi : Inv T s ids)
    (hc : Coherent mem s ids) {BaseAddress : Nat} {UserBuffer : List UCHAR}
    (hsmall : UserBuffer.length < 2 ^ 32) (hstop : BaseAddress + UserBuffer.length < 2 ^ 64) :
    ∃ result s' ids', Write T mem s BaseAddress UserBuffer = some (result, s') ∧ Inv T s' ids' ∧
      Coherent result.2 s' ids' ∧ result.2 (2 ^ 64 - 1) = none := by
  obtain ⟨s', hrun, hi', hentry⟩ := Remove_spec hi BaseAddress UserBuffer.length
  have hrange := searchRange_spec (s := s) (by omega : BaseAddress < 2 ^ 64) hsmall
  unfold Write
  rw [hrun]
  refine ⟨_, s', _, rfl, hi', ?_, ?_⟩
  · intro x hx
    have hvalid := hi'.holds.valid x hx
    rw [List.mem_filter, Bool.not_eq_true', meets_eq_false] at hx
    rw [hentry] at hvalid ⊢
    apply (hc x hx.1).outside hvalid
    intro a hlow hhigh
    have := hvalid.stop_lt
    have := hvalid.offset_lt
    apply hT.writes
    omega
  · rw [hT.writes _ _ _ _ (by omega)]
    exact hlast

theorem step_sound (hT : Serves T) (hw : Sound T w) {op : Op} (hop : Allowed w op) :
    Steps T (step T w op) := by
  obtain ⟨hlast, ids, hi, hc⟩ := hw
  cases op with
  | read BaseAddress TransferCount =>
    obtain ⟨result, hrun, hresult⟩ := Read_spec (hT.reads w.mem hlast) hi hc hop.1 hop.2
    rw [step, hrun]
    rcases hresult with ⟨rfl, rfl⟩ | ⟨hpos, hdelivered, ids', hi', hc'⟩
    · refine ⟨_, _, rfl, ⟨hlast, ids, hi, hc⟩, ?_⟩
      intro e he
      rw [List.mem_singleton.mp he]
      exact Or.inr ⟨rfl, iff_of_true rfl (Or.inr rfl)⟩
    · refine ⟨_, _, rfl, ⟨hlast, ids', hi', hc'⟩, ?_⟩
      intro e he
      rw [List.mem_singleton.mp he]
      exact hdelivered.right hpos
  | write BaseAddress UserBuffer =>
    obtain ⟨result, s', ids', hrun, hi', hc', hlast'⟩ := Write_sound hT hlast hi hc hop.1 hop.2
    rw [step, hrun]
    refine ⟨[], ⟨result.2, s'⟩, rfl, ⟨hlast', ids', hi', hc'⟩, ?_⟩
    intro e he
    cases he
  | add BaseAddress UserBuffer =>
    exact Steps.quiet hlast (Add_sound hi hc hop.1 hop.2.1 hop.2.2.1 hop.2.2.2)
  | remove BaseAddress TransferCount =>
    exact Steps.quiet hlast (Remove_sound hi hc BaseAddress TransferCount)
  | purge type => exact Steps.quiet hlast (PurgeType_sound hi hc type)
  | command c =>
    refine Steps.quiet hlast (ParseCommands_sound hi hc c ?_)
    rintro NewSize rfl
    exact hop
  | resume mem =>
    obtain ⟨s', ids', hrun, hi', hfree, -⟩ := Empty_spec hi
    obtain ⟨hheld, hlast'⟩ := hop
    rw [step, hrun]
    refine ⟨[], ⟨mem, s'⟩, rfl, ⟨hlast', ids', hi', ?_⟩, ?_⟩
    · rw [hfree hheld]
      intro x hx
      cases hx
    · intro e he
      cases he

theorem run_sound (hT : Serves T) (ops : List Op) (hw : Sound T w) (hops : AllAllowed T w ops) :
    Steps T (run T w ops) := by
  induction ops generalizing w with
  | nil =>
    refine ⟨[], w, rfl, hw, ?_⟩
    intro e he
    cases he
  | cons op ops ih =>
    obtain ⟨events, w', hstep, hw', hevents⟩ := step_sound hT hw hops.1
    obtain ⟨rest, w'', hrun, hw'', hrest⟩ := ih hw' (hops.2 events w' hstep)
    refine ⟨events ++ rest, w'', ?_, hw'', ?_⟩
    · rw [run, hstep, Option.bind_some, hrun]
      rfl
    · intro e he
      rcases List.mem_append.mp he with he | he
      · exact hevents e he
      · exact hrest e he

/-- An empty cache. -/
theorem create_sound (T : Target) (links : Links Nat) (entry : Nat → CACHE) {MaxSize : Nat}
    (hmax : MaxSize ≤ 2 ^ 30) (hlast : mem (2 ^ 64 - 1) = none) :
    Sound T ⟨mem, create links entry MaxSize⟩ := by
  refine ⟨hlast, [], ⟨⟨⟨leaf, ⟨⟨trivial, ?_, List.nodup_nil⟩, rfl⟩, rfl⟩, ?_, List.Pairwise.nil⟩,
    List.Perm.refl _, rfl, Nat.le_refl _, fun _ => rfl, Nat.zero_le _, hmax, hmax⟩, ?_⟩
  · intro y hy
    cases hy
  · intro x hx
    cases hx
  · intro x hx
    cases hx

end SdkTools.MemoryCache
