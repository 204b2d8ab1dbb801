import Mathlib
import SdkTools.Lib.Fallible
import SdkTools.Lib.Replacement
import SdkTools.M4.Stream

/-!
# `patsubst`

`opPatsubst` of `string.c`. The text that collects in the hold is the list `exp`;
`ptchSrc` is an offset in the source. The loop asks whether the source is used up where
it should ask whether the pattern is empty, so an empty pattern makes no progress.
-/

namespace SdkTools.M4

open Lib

set_option autoImplicit false

/-- The text of a token, whose length is a `CTCH`. -/
abbrev TokText := { text : List TCH // text.length < 2 ^ 32 }

inductive PatsubstFault where
  /-- A character after the end of the source is read. -/
  | beyondSource
  /-- The fuel is used up. -/
  | fuel
deriving DecidableEq

structure Patsubst where
  ctchSrc : BitVec 32
  ptchSrc : Nat
  exp : List TCH
deriving DecidableEq

variable (src pat rep : List TCH)

def fEqPtchPtchCtch (ptchSrc : Nat) : Except PatsubstFault Bool :=
  if ptchSrc + pat.length ≤ src.length then
    .ok (decide ((src.drop ptchSrc).take pat.length = pat))
  else .error .beyondSource

/-- `AddExpTch(*ptchSrc)`, and on to the next character. -/
def copyTch (s : Patsubst) : Except PatsubstFault Patsubst :=
  match src[s.ptchSrc]? with
  | some c => .ok ⟨s.ctchSrc - 1, s.ptchSrc + 1, s.exp ++ [c]⟩
  | none => .error .beyondSource

def replaceTch (s : Patsubst) : Except PatsubstFault Patsubst :=
  let exp := s.exp ++ rep
  if s.ctchSrc = 0 then copyTch src { s with exp }
  else .ok ⟨s.ctchSrc - BitVec.ofNat 32 pat.length, s.ptchSrc + pat.length, exp⟩

def patsubstRound (s : Patsubst) : Except PatsubstFault Patsubst := do
  if ← fEqPtchPtchCtch src pat s.ptchSrc then replaceTch src pat rep s else copyTch src s

/-- `while (ctchSrc >= ctchPat)` -/
def patsubstLoop : Nat → Patsubst → Except PatsubstFault Patsubst
  | 0, _ => .error .fuel
  | fuel + 1, s =>
    if s.ctchSrc ≥ BitVec.ofNat 32 pat.length then
      patsubstRound src pat rep s >>= patsubstLoop fuel
    else .ok s

/-- What is left of the string is flushed. -/
def flushLoop : Nat → Patsubst → Except PatsubstFault Patsubst
  | 0, _ => .error .fuel
  | fuel + 1, s => if s.ctchSrc = 0 then .ok s else copyTch src s >>= flushLoop fuel

/-- An argument that is absent is empty. -/
def argvText (argv : List TokText) (i : Nat) : List TCH := (argv[i]?.map Subtype.val).getD []

/-- The text that is pushed for the macro `name` with the arguments `$1`, `$2` and so on. -/
def opPatsubst (fuel : Nat) (name : TokText) (argv : List TokText) :
    Except PatsubstFault (List TCH) :=
  match argv with
  | [] => .ok (tchLquo :: name.1 ++ [tchRquo])
  | src :: more => do
    let s ← patsubstLoop src.1 (argvText more 0) (argvText more 1) fuel
      ⟨BitVec.ofNat 32 src.1.length, 0, []⟩
    let s ← flushLoop src.1 fuel s
    pure s.exp

/-! ### What is to be pushed -/

/-- An empty pattern stands at the beginning and between the characters. -/
def inserted (rep : List TCH) : List TCH → List TCH
  | [] => rep
  | c :: rest => (c :: rest).flatMap fun d => rep ++ [d]

/-- The text `out` is the source with the replacement in it. -/
def Substituted (src pat rep out : List TCH) : Prop :=
  if pat = [] then out = inserted rep src else Replaced pat rep src out

/-- With the arguments `$1` and `more`, the operator ends and pushes what it should. -/
def Patsubsts (name src : TokText) (more : List TokText) : Prop :=
  ∃ out, (∃ fuel, opPatsubst fuel name (src :: more) = .ok out) ∧
    ∀ t, Substituted src.1 (argvText more 0) (argvText more 1) t ↔ t = out

/-! ### The loops -/

variable {src pat rep}

/-- In the middle of the source, with `rest` to be read. -/
def Patsubst.at (pre rest exp : List TCH) : Patsubst :=
  ⟨BitVec.ofNat 32 rest.length, pre.length, exp⟩

theorem copyTch_at {pre rest : List TCH} (exp : List TCH) {c : TCH} (hsrc : src = pre ++ c :: rest) :
    copyTch src (Patsubst.at pre (c :: rest) exp) =
      .ok (Patsubst.at (pre ++ [c]) rest (exp ++ [c])) := by
  have hget : src[pre.length]? = some c := by
    rw [hsrc, List.getElem?_append_right (Nat.le_refl _), Nat.sub_self, List.getElem?_cons_zero]
  have hcount : BitVec.ofNat 32 (rest.length + 1) - 1 = BitVec.ofNat 32 rest.length := by
    rw [BitVec.ofNat_add]
    exact BitVec.add_sub_cancel _ _
  simp only [copyTch, Patsubst.at, hget, List.length_cons, hcount, List.length_append,
    List.length_nil]

theorem flushLoop_at {rest : List TCH} (fuel : Nat) (pre exp : List TCH)
    (hsrc : src = pre ++ rest) (hfit : rest.length < 2 ^ 32) (hfuel : rest.length < fuel) :
    ∃ s, flushLoop src fuel (Patsubst.at pre rest exp) = .ok s ∧ s.exp = exp ++ rest := by
  induction rest generalizing fuel pre exp with
  | nil =>
    obtain ⟨fuel, rfl⟩ : ∃ n, fuel = n + 1 := ⟨fuel - 1, by omega⟩
    exact ⟨_, rfl, by simp [Patsubst.at]⟩
  | cons c rest ih =>
    obtain ⟨fuel, rfl⟩ : ∃ n, fuel = n + 1 := ⟨fuel - 1, by omega⟩
    rw [List.length_cons] at hfit hfuel
    obtain ⟨s, hs, hexp⟩ := ih fuel (pre ++ [c]) (exp ++ [c]) (by simp [hsrc])
      (by omega) (by omega)
    have hne : BitVec.ofNat 32 (rest.length + 1) ≠ 0 := by
      intro hzero
      have := congrArg BitVec.toNat hzero
      rw [BitVec.toNat_ofNat, Nat.mod_eq_of_lt hfit] at this
      exact Nat.succ_ne_zero _ this
    refine ⟨s, ?_, by simp [hexp]⟩
    have hcount : (Patsubst.at pre (c :: rest) exp).ctchSrc ≠ 0 := hne
    rw [flushLoop, if_neg hcount, copyTch_at _ hsrc]
    exact hs

/-- The test of the loop, on lengths. -/
theorem ctch_ge_iff {n m : Nat} (hn : n < 2 ^ 32) (hm : m < 2 ^ 32) :
    BitVec.ofNat 32 n ≥ BitVec.ofNat 32 m ↔ m ≤ n := by
  rw [ge_iff_le, BitVec.le_def, BitVec.toNat_ofNat, BitVec.toNat_ofNat, Nat.mod_eq_of_lt hn,
    Nat.mod_eq_of_lt hm]

/-- One round at an occurrence of the pattern. -/
theorem patsubstLoop_hit {pre rest exp : List TCH} (fuel : Nat)
    (hsrc : src = pre ++ (pat ++ rest)) (hfit : (pat ++ rest).length < 2 ^ 32) (hpat : pat ≠ []) :
    patsubstLoop src pat rep (fuel + 1) (Patsubst.at pre (pat ++ rest) exp) =
      patsubstLoop src pat rep fuel (Patsubst.at (pre ++ pat) rest (exp ++ rep)) := by
  have hpos := List.length_pos_iff.mpr hpat
  rw [List.length_append] at hfit
  have hge : BitVec.ofNat 32 (pat.length + rest.length) ≥ BitVec.ofNat 32 pat.length :=
    (ctch_ge_iff hfit (by omega)).mpr (by omega)
  have heq : fEqPtchPtchCtch src pat pre.length = .ok true := by
    rw [fEqPtchPtchCtch, if_pos (by simp [hsrc]), hsrc, List.drop_left, List.take_left]
    simp
  have hne : BitVec.ofNat 32 (pat.length + rest.length) ≠ 0 := by
    intro hzero
    have := congrArg BitVec.toNat hzero
    rw [BitVec.toNat_ofNat, Nat.mod_eq_of_lt hfit] at this
    have : pat.length + rest.length = 0 := this
    omega
  have hcount : BitVec.ofNat 32 (pat.length + rest.length) - BitVec.ofNat 32 pat.length =
      BitVec.ofNat 32 rest.length := by
    rw [BitVec.ofNat_sub_ofNat_of_le _ _ (by omega) (by omega), Nat.add_sub_cancel_left]
  have hround : patsubstRound src pat rep (Patsubst.at pre (pat ++ rest) exp) =
      .ok (Patsubst.at (pre ++ pat) rest (exp ++ rep)) := by
    simp only [patsubstRound, Patsubst.at, List.length_append, heq, replaceTch, if_neg hne, hcount]
    rfl
  rw [← List.length_append] at hge
  rw [patsubstLoop, hround]
  exact if_pos hge

/-- One round where the pattern does not occur. -/
theorem patsubstLoop_miss {pre rest exp : List TCH} {c : TCH} (fuel : Nat)
    (hsrc : src = pre ++ c :: rest) (hfit : (c :: rest).length < 2 ^ 32)
    (hlong : pat.length ≤ (c :: rest).length) (hmiss : ¬ pat <+: c :: rest) :
    patsubstLoop src pat rep (fuel + 1) (Patsubst.at pre (c :: rest) exp) =
      patsubstLoop src pat rep fuel (Patsubst.at (pre ++ [c]) rest (exp ++ [c])) := by
  have hge : BitVec.ofNat 32 (c :: rest).length ≥ BitVec.ofNat 32 pat.length :=
    (ctch_ge_iff hfit (by omega)).mpr hlong
  have heq : fEqPtchPtchCtch src pat pre.length = .ok false := by
    rw [fEqPtchPtchCtch, if_pos (by rw [hsrc, List.length_append]; omega), hsrc, List.drop_left]
    congr 1
    apply decide_eq_false
    intro htake
    apply hmiss
    rw [← htake]
    exact List.take_prefix _ _
  have hround : patsubstRound src pat rep (Patsubst.at pre (c :: rest) exp) =
      .ok (Patsubst.at (pre ++ [c]) rest (exp ++ [c])) := by
    rw [← copyTch_at _ hsrc, patsubstRound]
    simp only [Patsubst.at, heq]
    rfl
  rw [patsubstLoop, hround]
  exact if_pos hge

/-- The loop ends with less to be read than the pattern, and up to there every occurrence
has been replaced. -/
theorem patsubstLoop_at (rep : List TCH) (hpat : pat ≠ []) (fuel : Nat) (pre rest exp : List TCH)
    (hsrc : src = pre ++ rest) (hfit : rest.length < 2 ^ 32) (hfits : pat.length < 2 ^ 32)
    (hfuel : rest.length < fuel) :
    ∃ pre' rest' t, src = pre' ++ rest' ∧ rest'.length ≤ rest.length ∧
      patsubstLoop src pat rep fuel (Patsubst.at pre rest exp) =
        .ok (Patsubst.at pre' rest' (exp ++ t)) ∧ Replaced pat rep rest (t ++ rest') := by
  induction fuel generalizing pre rest exp with
  | zero => omega
  | succ fuel ih =>
    by_cases hlong : pat.length ≤ rest.length
    · by_cases hhit : pat <+: rest
      · obtain ⟨rest, rfl⟩ := hhit
        have hpos := List.length_pos_iff.mpr hpat
        have hlen := @List.length_append _ pat rest
        obtain ⟨pre', rest', t, hsrc', hle, hloop, hrep⟩ :=
          ih (pre ++ pat) rest (exp ++ rep)
            (by rw [hsrc, List.append_assoc]) (by omega) (by omega)
        refine ⟨pre', rest', rep ++ t, hsrc', by omega, ?_, ?_⟩
        · rw [patsubstLoop_hit fuel hsrc hfit hpat, hloop, List.append_assoc]
        · rw [List.append_assoc]
          exact hrep.hit
      · cases rest with
        | nil =>
          have := List.length_pos_iff.mpr hpat
          rw [List.length_nil] at hlong
          omega
        | cons c rest =>
          have hlen := @List.length_cons _ c rest
          obtain ⟨pre', rest', t, hsrc', hle, hloop, hrep⟩ :=
            ih (pre ++ [c]) rest (exp ++ [c])
              (by rw [hsrc, List.append_assoc]; rfl) (by omega) (by omega)
          refine ⟨pre', rest', c :: t, hsrc', by omega, ?_, hrep.miss hhit⟩
          rw [patsubstLoop_miss fuel hsrc hfit hlong hhit, hloop, List.append_assoc]
          rfl
    · have hstop : ¬ BitVec.ofNat 32 rest.length ≥ BitVec.ofNat 32 pat.length := by
        rw [ctch_ge_iff hfit hfits]
        exact hlong
      refine ⟨pre, rest, [], hsrc, Nat.le_refl _, ?_, Replaced.short (by omega)⟩
      rw [patsubstLoop, List.append_nil]
      exact if_neg hstop

/-- With an empty pattern the loop never ends. -/
theorem patsubstLoop_empty (fuel : Nat) (s s' : Patsubst) :
    patsubstLoop src [] rep fuel s ≠ .ok s' := by
  induction fuel generalizing s with
  | zero =>
    intro h
    cases h
  | succ fuel ih =>
    intro h
    have hge : s.ctchSrc ≥ BitVec.ofNat 32 ([] : List TCH).length := by
      rw [ge_iff_le, BitVec.le_def]
      exact Nat.zero_le _
    rw [patsubstLoop, if_pos hge] at h
    obtain ⟨s₁, -, h⟩ := bind_eq_ok h
    exact ih s₁ h

/-! ### The operator -/

/-- `patsubst` ends exactly when the pattern is not empty, and then it pushes the source
with the occurrences of the pattern replaced. -/
theorem opPatsubst_iff (name src : TokText) (more : List TokText) :
    Patsubsts name src more ↔ argvText more 0 ≠ [] := by
  constructor
  · intro ⟨out, ⟨fuel, hrun⟩, _⟩ hnil
    rw [opPatsubst] at hrun
    obtain ⟨s, hloop, -⟩ := bind_eq_ok hrun
    rw [hnil] at hloop
    exact patsubstLoop_empty fuel _ s hloop
  · intro hpat
    have hfits : (argvText more 0).length < 2 ^ 32 := by
      unfold argvText
      cases more[0]? with
      | none => exact Nat.two_pow_pos 32
      | some pat => exact pat.2
    obtain ⟨pre, rest, t, hsrc, hle, hloop, hrep⟩ :=
      patsubstLoop_at (argvText more 1) hpat (src.1.length + 1) [] src.1 []
        (List.nil_append _).symm src.2 hfits (Nat.lt_succ_self _)
    obtain ⟨s, hflush, hexp⟩ := flushLoop_at (src.1.length + 1) pre ([] ++ t) hsrc
      (Nat.lt_of_le_of_lt hle src.2) (by omega)
    refine ⟨t ++ rest, ⟨src.1.length + 1, ?_⟩, ?_⟩
    · rw [opPatsubst]
      change (patsubstLoop _ _ _ _ (Patsubst.at [] src.1 []) >>= _) = _
      rw [hloop]
      change (flushLoop _ _ (Patsubst.at pre rest ([] ++ t)) >>= _) = _
      rw [hflush]
      change Except.ok s.exp = _
      rw [hexp, List.nil_append]
    · intro t'
      rw [Substituted, if_neg hpat]
      constructor
      · intro h
        exact h.unique hrep
      · rintro rfl
        exact hrep

theorem patsubst_banana :
    Patsubsts ⟨[], by decide⟩ ⟨[tch 'b', tch 'a', tch 'b'], by decide⟩ [⟨[tch 'b'], by decide⟩] :=
  (opPatsubst_iff _ _ _).mpr (by decide)

/-- With an empty pattern the loop goes round without progress; from an empty source it
first reads the character after its end. -/
theorem patsubst_empty_pattern :
    ¬ Patsubsts ⟨[], by decide⟩ ⟨[tch 'b'], by decide⟩ [⟨[], by decide⟩, ⟨[tch '-'], by decide⟩] ∧
      opPatsubst 1 ⟨[], by decide⟩ [⟨[], by decide⟩, ⟨[], by decide⟩] = .error .beyondSource := by
  constructor
  · intro h
    exact (opPatsubst_iff _ _ _).mp h rfl
  · rfl

end SdkTools.M4
