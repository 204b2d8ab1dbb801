import Mathlib
import SdkTools.M4.Lexing

/-!
# The digits that a number is read from

`atRadixPtok` stops in front of the first character whose digit is greater than the
radix, so a digit equal to the radix is taken with the number. It reads the longest
run of valid digits of a token exactly when no such digit ends that run.
-/

namespace SdkTools.M4

open Lib.Digits

set_option autoImplicit false

/-! ### The builtins that read numbers -/

/-- `opAddItokDat`, for the arguments `$1`, `$2` and so on. -/
def opAddItokDat (argv : List (List TCH)) (dat : AT) : List TCH :=
  pushAtRadixCtch (atTraditionalPtok (argv.getD 0 []) + dat) 10 0

def opIncr (argv : List (List TCH)) : List TCH := opAddItokDat argv 1

def opDecr (argv : List (List TCH)) : List TCH := opAddItokDat argv (-1)

/-- `$1` from the character `itch` on, for `ctch` characters at most. -/
def pushSubstr (src : List TCH) (itch : AT) (ctch : Option AT) : List TCH :=
  if itch.toNat < src.length then
    match ctch with
    | none => src.drop itch.toNat
    | some ctch => (src.drop itch.toNat).take (if ctch.slt 0 then 0 else ctch.toNat)
  else []

def opSubstr (argv : List (List TCH)) : List TCH :=
  pushSubstr (argv.getD 0 []) (atTraditionalPtok (argv.getD 1 []))
    (argv[2]?.map atTraditionalPtok)

/-! ### Digits of a radix -/

/-- Digits and letters stand for the digits that `PushAtRadixCtch` writes with them. -/
def digitValue (c : TCH) : Option Nat :=
  if tch '0' ≤ c ∧ c ≤ tch '9' then some (c.toNat - 0x30)
  else if tch 'a' ≤ c ∧ c ≤ tch 'z' then some (c.toNat - 0x57)
  else if tch 'A' ≤ c ∧ c ≤ tch 'Z' then some (c.toNat - 0x37)
  else none

def validDigit (radix : Nat) (c : TCH) : Bool := (digitValue c).any (· < radix)

/-- The longest run of valid digits at the start of a token. -/
def digitPrefix (radix : Nat) (tok : List TCH) : List TCH := tok.takeWhile (validDigit radix)

def numberFrom (radix n : Nat) (s : List TCH) : Nat :=
  s.foldl (fun n c => n * radix + (digitValue c).getD 0) n

def prefixValue (radix : Nat) (tok : List TCH) : AT :=
  BitVec.ofNat 32 (numberFrom radix 0 (digitPrefix radix tok))

/-- The longest run of valid digits is read, and its value is returned. -/
def ReadsPrefix (radix : AT) (tok : List TCH) : Prop :=
  atRadixPtok radix tok =
    (prefixValue radix.toNat tok, tok.drop (digitPrefix radix.toNat tok).length)

/-- The character after the leading digits below the radix and below sixteen is neither
a digit equal to the radix nor, in a radix above sixteen, a further valid digit. -/
def Delimited (radix : Nat) (tok : List TCH) : Prop :=
  ∀ c ∈ (tok.dropWhile (validDigit (min radix 16))).head?, ∀ d ∈ digitValue c,
    radix < d ∨ radix = d ∧ 16 ≤ d

/-- The token after white space and a minus sign, and whether there was one. -/
def signedTail (tok : List TCH) : Bool × List TCH :=
  match skipWhitePtok tok with
  | [] => (false, [])
  | c :: rest => if c = tch '-' then (true, rest) else (false, c :: rest)

/-- The value of the decimal digits that lead a token, with their sign. -/
def leadingDecimal (tok : List TCH) : AT :=
  if (signedTail tok).1 then -prefixValue 10 (signedTail tok).2
  else prefixValue 10 (signedTail tok).2

/-- An argument is read as its leading decimal digits. -/
def ReadsDecimal (tok : List TCH) : Prop :=
  ReadsPrefix 10 (signedTail tok).2 ∧ atTraditionalPtok tok = leadingDecimal tok

/-- No digit 8 or 9 is taken into a literal. -/
def ReadsOctal (tok : List TCH) : Prop :=
  ∀ a s rest, fEvalPtokPat tok = some (a, rest) → tok = s ++ rest →
    tch '8' ∉ s ∧ tch '9' ∉ s

/-! ### What the loop takes -/

/-- The digits that `atRadixPtok` takes into a number. -/
def takenDigit (radix : Nat) (c : TCH) : Bool :=
  (digitValue c).any fun d => d ≤ radix ∧ d < 16

theorem digitOf_digitValue (c : TCH) : digitOf c = (digitValue c).filter (· < 16) := by
  revert c
  decide

theorem takenDigit_eq (radix : Nat) (c : TCH) :
    takenDigit radix c = (digitOf c).any (· ≤ radix) := by
  rw [digitOf_digitValue]
  cases hd : digitValue c with
  | none => simp [takenDigit, hd]
  | some d =>
    by_cases hlt : d < 16
    · simp [takenDigit, hd, hlt]
    · simp [takenDigit, hd, hlt]

theorem digitValue_of_digitOf {c : TCH} {d : Nat} (h : digitOf c = some d) :
    digitValue c = some d := by
  rw [digitOf_digitValue] at h
  exact (Option.filter_eq_some_iff.mp h).1

theorem atRadixLoop_taken (radix : AT) (n : Nat) (tok : List TCH) :
    atRadixLoop radix (BitVec.ofNat 32 n) tok =
      (BitVec.ofNat 32 (numberFrom radix.toNat n (tok.takeWhile (takenDigit radix.toNat))),
        tok.dropWhile (takenDigit radix.toNat)) := by
  induction tok generalizing n with
  | nil => rfl
  | cons c tok ih =>
    cases hd : digitOf c with
    | none =>
      have hc : takenDigit radix.toNat c = false := by simp [takenDigit_eq, hd]
      simp [atRadixLoop, atDigit_eq, hd, hc, numberFrom]
    | some d =>
      have hsmall := digitOf_lt hd
      have hgt : BitVec.ofNat 32 d > radix ↔ ¬ d ≤ radix.toNat := by
        simp only [gt_iff_lt, BitVec.lt_def, BitVec.toNat_ofNat]
        omega
      by_cases hle : d ≤ radix.toNat
      · have hc : takenDigit radix.toNat c = true := by simp [takenDigit_eq, hd, hle]
        have hvalue : BitVec.ofNat 32 n * radix + BitVec.ofNat 32 d =
            BitVec.ofNat 32 (n * radix.toNat + d) := by
          rw [BitVec.ofNat_add, BitVec.ofNat_mul, BitVec.ofNat_toNat, BitVec.setWidth_eq]
        simp only [atRadixLoop, atDigit_eq, hd, Option.map_some, hgt, hle, not_true_eq_false,
          if_false, hvalue, ih, List.takeWhile_cons, List.dropWhile_cons, hc, if_true]
        simp [numberFrom, digitValue_of_digitOf hd]
      · have hc : takenDigit radix.toNat c = false := by simp [takenDigit_eq, hd, hle]
        simp [atRadixLoop, atDigit_eq, hd, hgt, hle, hc, numberFrom]

theorem atRadixPtok_taken (radix : AT) (tok : List TCH) :
    atRadixPtok radix tok =
      (BitVec.ofNat 32 (numberFrom radix.toNat 0 (tok.takeWhile (takenDigit radix.toNat))),
        tok.dropWhile (takenDigit radix.toNat)) := atRadixLoop_taken radix 0 tok

/-! ### Where the digits end -/

theorem validDigit_min (radix : Nat) (c : TCH) :
    validDigit (min radix 16) c = (validDigit radix c && takenDigit radix c) := by
  cases hd : digitValue c with
  | none => simp [validDigit, takenDigit, hd]
  | some d =>
    simp only [validDigit, takenDigit, hd, Option.any_some, ← Bool.decide_and,
      decide_eq_decide]
    omega

/-- After the common digits, the two tests agree. -/
theorem delimits_iff (radix : Nat) {c : TCH} (hc : validDigit (min radix 16) c = false) :
    (∀ d ∈ digitValue c, radix < d ∨ radix = d ∧ 16 ≤ d) ↔
      validDigit radix c = takenDigit radix c := by
  cases hd : digitValue c with
  | none => simp [validDigit, takenDigit, hd]
  | some d =>
    simp only [validDigit, hd, Option.any_some, decide_eq_false_iff_not] at hc
    simp only [validDigit, takenDigit, hd, Option.any_some, decide_eq_decide, Option.mem_def,
      Option.some.injEq, forall_eq']
    omega

/-- Two tests take the same prefix when they agree where the first of them fails. -/
theorem takeWhile_eq_iff {α : Type} (p q : α → Bool) (l : List α) :
    l.takeWhile p = l.takeWhile q ↔
      ∀ c ∈ (l.dropWhile fun c => p c && q c).head?, p c = q c := by
  induction l with
  | nil => simp
  | cons c l ih =>
    cases hp : p c <;> cases hq : q c <;> simp [hp, hq, ih]

theorem head?_dropWhile_false {α : Type} {p : α → Bool} {l : List α} {c : α}
    (h : c ∈ (l.dropWhile p).head?) : p c = false := by
  have hne : l.dropWhile p ≠ [] := by
    intro hnil
    simp [hnil] at h
  have hhead := List.head_dropWhile_not p hne
  rw [List.head?_eq_some_head hne, Option.mem_some_iff] at h
  rwa [h] at hhead

theorem delimited_iff (radix : Nat) (tok : List TCH) :
    Delimited radix tok ↔
      tok.takeWhile (takenDigit radix) = tok.takeWhile (validDigit radix) := by
  rw [eq_comm, takeWhile_eq_iff, Delimited]
  simp only [← validDigit_min]
  apply forall_congr'
  intro c
  apply forall_congr'
  intro hc
  exact delimits_iff radix (head?_dropWhile_false hc)

theorem readsPrefix_iff (radix : AT) (tok : List TCH) :
    ReadsPrefix radix tok ↔ Delimited radix.toNat tok := by
  rw [delimited_iff, ReadsPrefix, atRadixPtok_taken, prefixValue, digitPrefix]
  constructor
  · intro h
    have hrest := congrArg (fun r => r.2.length) h
    have htaken := congrArg List.length
      (List.takeWhile_append_dropWhile (p := takenDigit radix.toNat) (l := tok))
    have hvalid := congrArg List.length
      (List.takeWhile_append_dropWhile (p := validDigit radix.toNat) (l := tok))
    simp only [List.length_append, List.length_drop] at hrest htaken hvalid
    apply (List.prefix_of_prefix_length_le (List.takeWhile_prefix _)
      (List.takeWhile_prefix _) (by omega)).eq_of_length
    omega
  · intro h
    have happend := List.takeWhile_append_dropWhile (p := takenDigit radix.toNat) (l := tok)
    have hdrop : tok.dropWhile (takenDigit radix.toNat) =
        tok.drop (tok.takeWhile (takenDigit radix.toNat)).length := by
      have hprefix := List.prefix_iff_eq_append.mp
        (List.takeWhile_prefix (takenDigit radix.toNat) (l := tok))
      exact List.append_cancel_left (happend.trans hprefix.symm)
    rw [hdrop, h]

/-! ### Decimal arguments -/

theorem atTraditionalPtok_eq (tok : List TCH) :
    atTraditionalPtok tok =
      if (signedTail tok).1 then -(atRadixPtok 10 (signedTail tok).2).1
      else (atRadixPtok 10 (signedTail tok).2).1 := by
  unfold atTraditionalPtok signedTail
  cases hskip : skipWhitePtok tok with
  | nil => rfl
  | cons c rest =>
    by_cases hc : c = tch '-'
    · simp [hc]
    · simp [hc]

theorem readsDecimal_iff (tok : List TCH) :
    ReadsDecimal tok ↔ Delimited 10 (signedTail tok).2 := by
  have hprefix := readsPrefix_iff 10 (signedTail tok).2
  constructor
  · intro h
    exact hprefix.mp h.1
  · intro h
    have hread := hprefix.mpr h
    refine ⟨hread, ?_⟩
    rw [atTraditionalPtok_eq, leadingDecimal, show atRadixPtok 10 (signedTail tok).2 = _ from hread]
    rfl

/-! ### Octal literals -/

theorem takeWhile_eq_of_forall {α : Type} {p q : α → Bool} {l : List α}
    (hqp : ∀ c, q c = true → p c = true) (h : ∀ c ∈ l.takeWhile p, q c = true) :
    l.takeWhile p = l.takeWhile q := by
  induction l with
  | nil => rfl
  | cons c l ih =>
    cases hp : p c with
    | false =>
      have hq : q c = false := by
        by_contra hq
        have := hqp c (by simpa using hq)
        simp [hp] at this
      simp [hp, hq]
    | true =>
      simp only [List.takeWhile_cons, hp, if_true, List.mem_cons, forall_eq_or_imp] at h
      simp [hp, h.1, ih h.2]

theorem validDigit_eight (c : TCH) :
    validDigit 8 c = (takenDigit 8 c && c != tch '8') ∧
      (c = tch '9' → takenDigit 8 c = false) := by
  revert c
  decide

theorem fEvalPtokPat_octal {tok : List TCH} (h : (radixPtok tok).1 = 8) :
    ∃ a, fEvalPtokPat tok = some (a, tok.dropWhile (takenDigit 8)) := by
  have hzero : tok.head? = some (tch '0') := by
    by_contra hne
    simp [radixPtok, hne] at h
  have hradix : radixPtok tok = (8, tok) := by
    unfold radixPtok at h ⊢
    rw [if_pos hzero] at h ⊢
    split at h
    · simp at h
    · next hx => rw [if_neg hx]
  cases tok with
  | nil => simp at hzero
  | cons c rest =>
    obtain rfl := Option.some.inj hzero
    have htaken : takenDigit 8 (tch '0') = true := by decide
    have hlen := (List.dropWhile_suffix (takenDigit 8) (l := rest)).length_le
    refine ⟨(atRadixPtok 8 (tch '0' :: rest)).1, ?_⟩
    simp only [fEvalPtokPat, hradix, atRadixPtok_taken, List.isEmpty_cons, Bool.false_eq_true,
      if_false]
    rw [if_neg]
    · rfl
    · change ((tch '0' :: rest).dropWhile (takenDigit 8)).length ≠ _
      simp only [List.dropWhile_cons, htaken, if_true, List.length_cons]
      omega

theorem readsOctal_iff {tok : List TCH} (h : (radixPtok tok).1 = 8) :
    ReadsOctal tok ↔ Delimited 8 tok := by
  obtain ⟨a, heval⟩ := fEvalPtokPat_octal h
  have happend := List.takeWhile_append_dropWhile (p := takenDigit 8) (l := tok)
  rw [delimited_iff]
  constructor
  · intro hread
    have hnot := (hread a _ _ heval happend.symm).1
    apply takeWhile_eq_of_forall
    · intro c hc
      rw [(validDigit_eight c).1, Bool.and_eq_true] at hc
      exact hc.1
    · intro c hc
      have hne : c ≠ tch '8' := by
        intro heq
        exact hnot (heq ▸ hc)
      rw [(validDigit_eight c).1, List.mem_takeWhile_imp hc, Bool.true_and]
      exact bne_iff_ne.mpr hne
  · intro heq a' s rest hsome htok
    rw [heval] at hsome
    obtain ⟨-, rfl⟩ := Prod.mk.inj (Option.some.inj hsome)
    have hs : s = tok.takeWhile (takenDigit 8) :=
      List.append_cancel_right (htok.symm.trans happend.symm)
    constructor
    · intro hmem
      rw [hs, heq] at hmem
      have hvalid := List.mem_takeWhile_imp hmem
      rw [(validDigit_eight _).1] at hvalid
      simp at hvalid
    · intro hmem
      rw [hs] at hmem
      have := List.mem_takeWhile_imp hmem
      rw [(validDigit_eight _).2 rfl] at this
      cases this

/-! ### Numbers that are written and read back -/

theorem numberFrom_append (radix n : Nat) (s t : List TCH) :
    numberFrom radix n (s ++ t) = numberFrom radix (numberFrom radix n s) t :=
  List.foldl_append

/-- The character of a decimal digit. -/
def digitChar (d : Nat) : TCH := BitVec.ofNat 8 d + tch '0'

theorem digitChar_spec {d : Nat} (h : d < 10) :
    digitValue (digitChar d) = some d ∧ BitVec.ofNat 8 d < 10 := by
  have hall : ∀ d < 10, digitValue (digitChar d) = some d ∧ BitVec.ofNat 8 d < 10 := by decide
  exact hall d h

theorem validDigit_digitChar {d : Nat} (h : d < 10) : validDigit 10 (digitChar d) = true := by
  simp [validDigit, (digitChar_spec h).1, h]

theorem div_ten_eq_zero (value : AT) : value / 10 = 0 ↔ value.toNat / 10 = 0 := by
  have hdiv : (value / 10).toNat = value.toNat / 10 := BitVec.toNat_udiv
  rw [← hdiv]
  constructor
  · intro h
    rw [h]
    rfl
  · intro h
    exact BitVec.eq_of_toNat_eq h

theorem pushDigits_succ (fuel : Nat) (value : AT) (text : List TCH) :
    pushDigits 10 (fuel + 1) value text =
      if value.toNat / 10 = 0 then digitChar (value.toNat % 10) :: text
      else pushDigits 10 fuel (value / 10) (digitChar (value.toNat % 10) :: text) := by
  have hlt : value.toNat % 10 < 10 := Nat.mod_lt _ (by omega)
  have hmod : (value % 10).setWidth 8 = BitVec.ofNat 8 (value.toNat % 10) := by
    apply BitVec.eq_of_toNat_eq
    rw [BitVec.toNat_setWidth, BitVec.toNat_umod, BitVec.toNat_ofNat]
    rfl
  have hsmall := (digitChar_spec hlt).2
  simp only [pushDigits, hmod, if_pos hsmall, div_ten_eq_zero]
  rfl

/-- The characters pushed for a value are its decimal digits. -/
theorem pushDigits_decimal (fuel : Nat) (value : AT) (text : List TCH)
    (hfuel : value.toNat < 10 ^ (fuel + 1)) :
    ∃ s, pushDigits 10 (fuel + 1) value text = s ++ text ∧ s ≠ [] ∧
      (∀ c ∈ s, validDigit 10 c = true) ∧ numberFrom 10 0 s = value.toNat := by
  have hlt : value.toNat % 10 < 10 := Nat.mod_lt _ (by omega)
  have hdigit := (digitChar_spec hlt).1
  have hvalid := validDigit_digitChar hlt
  induction fuel generalizing value text with
  | zero =>
    refine ⟨[digitChar (value.toNat % 10)], ?_, by simp, by simpa using hvalid, ?_⟩
    · rw [pushDigits_succ, if_pos (by omega)]
      rfl
    · simp only [numberFrom, List.foldl_cons, List.foldl_nil, hdigit, Option.getD_some]
      omega
  | succ fuel ih =>
    rw [pushDigits_succ]
    by_cases hlast : value.toNat / 10 = 0
    · refine ⟨[digitChar (value.toNat % 10)], ?_, by simp, by simpa using hvalid, ?_⟩
      · rw [if_pos hlast]
        rfl
      · simp only [numberFrom, List.foldl_cons, List.foldl_nil, hdigit, Option.getD_some]
        omega
    · have hdiv : (value / 10).toNat = value.toNat / 10 := BitVec.toNat_udiv
      have hbelow : (value / 10).toNat < 10 ^ (fuel + 1) := by
        rw [Nat.pow_succ] at hfuel
        omega
      have hlt' : (value / 10).toNat % 10 < 10 := Nat.mod_lt _ (by omega)
      obtain ⟨s, hs, -, hdigits, hnum⟩ := ih (value / 10) (digitChar (value.toNat % 10) :: text)
        hbelow hlt' (digitChar_spec hlt').1 (validDigit_digitChar hlt')
      refine ⟨s ++ [digitChar (value.toNat % 10)], ?_, by simp, ?_, ?_⟩
      · rw [if_neg hlast, hs]
        simp
      · intro c hc
        rcases List.mem_append.mp hc with hc | hc
        · exact hdigits c hc
        · rw [List.mem_singleton.mp hc]
          exact hvalid
      · rw [numberFrom_append, hnum, hdiv]
        simp only [numberFrom, List.foldl_cons, List.foldl_nil, hdigit, Option.getD_some]
        omega

theorem validDigit_ten {c : TCH} (h : validDigit 10 c = true) :
    takenDigit 10 c = true ∧ fWhiteTch c = false ∧ c ≠ tch '-' := by
  have hall : ∀ c : TCH, validDigit 10 c = true →
      takenDigit 10 c = true ∧ fWhiteTch c = false ∧ c ≠ tch '-' := by decide
  exact hall c h

theorem atRadixPtok_decimal {s : List TCH} (h : ∀ c ∈ s, validDigit 10 c = true) :
    (atRadixPtok 10 s).1 = BitVec.ofNat 32 (numberFrom 10 0 s) := by
  have hall : s.takeWhile (takenDigit 10) = s := by
    apply List.takeWhile_eq_self_iff.mpr
    intro c hc
    exact (validDigit_ten (h c hc)).1
  rw [atRadixPtok_taken]
  change BitVec.ofNat 32 (numberFrom 10 0 (s.takeWhile (takenDigit 10))) = _
  rw [hall]

/-- A value is read back from the text that is pushed for it. -/
theorem atTraditionalPtok_pushAt (value : AT) :
    atTraditionalPtok (pushAtRadixCtch value 10 0) = value := by
  obtain ⟨s, hs, hne, hdigits, hnum⟩ :=
    pushDigits_decimal 31 (if value.slt 0 then -value else value) [] (by omega)
  have hpushed : pushAtRadixCtch value 10 0 = if value.slt 0 then tch '-' :: s else s := by
    unfold pushAtRadixCtch
    simp only [show ¬ ((10 : AT) < 2 ∨ (10 : AT) > 36) by decide, if_false,
      show (0 : AT).slt 0 = false by decide, hs, Bool.false_eq_true, List.append_nil]
    simp
  have hread := atRadixPtok_decimal hdigits
  rw [hnum, BitVec.ofNat_toNat, BitVec.setWidth_eq] at hread
  cases hsign : value.slt 0 with
  | true =>
    rw [hpushed, if_pos hsign]
    simp only [hsign, if_true] at hread
    rw [atTraditionalPtok, skipWhitePtok_cons (by decide)]
    simp only [if_true, hread, BitVec.neg_neg]
  | false =>
    rw [hpushed, hsign, if_neg Bool.false_ne_true]
    simp only [hsign, Bool.false_eq_true, if_false] at hread
    cases s with
    | nil => exact absurd rfl hne
    | cons c s =>
      have hc := validDigit_ten (hdigits c List.mem_cons_self)
      rw [atTraditionalPtok, skipWhitePtok_cons hc.2.1]
      simp only [if_neg hc.2.2, hread]

/-! ### Number parsing as a whole -/

theorem opAddItokDat_eq {argv : List (List TCH)} (dat : AT)
    (h : Delimited 10 (signedTail (argv.getD 0 [])).2) :
    opAddItokDat argv dat = pushAtRadixCtch (leadingDecimal (argv.getD 0 []) + dat) 10 0 := by
  rw [opAddItokDat, ((readsDecimal_iff _).mpr h).2]

theorem opSubstr_eq {argv : List (List TCH)}
    (h : ∀ tok ∈ argv.tail, Delimited 10 (signedTail tok).2) :
    opSubstr argv = pushSubstr (argv.getD 0 []) (leadingDecimal (argv.getD 1 []))
      (argv[2]?.map leadingDecimal) := by
  have hread : ∀ i, ∀ tok ∈ argv[i + 1]?, atTraditionalPtok tok = leadingDecimal tok := by
    intro i tok htok
    apply ((readsDecimal_iff tok).mpr (h tok _)).2
    apply List.mem_of_getElem? (i := i)
    rw [List.getElem?_tail]
    exact htok
  have hstart : atTraditionalPtok (argv.getD 1 []) = leadingDecimal (argv.getD 1 []) := by
    rw [List.getD_eq_getElem?_getD]
    cases harg : argv[1]? with
    | none => rfl
    | some tok => exact hread 0 tok harg
  have hlength : argv[2]?.map atTraditionalPtok = argv[2]?.map leadingDecimal := by
    cases harg : argv[2]? with
    | none => rfl
    | some tok => exact congrArg some (hread 1 tok harg)
  rw [opSubstr, hstart, hlength]

/-- Numbers are read as the longest run of valid digits exactly where that run is not
followed by a digit equal to the radix; and numbers that were written are read back. -/
theorem atRadixPtok_reads (tok : List TCH) :
    (∀ radix, ReadsPrefix radix tok ↔ Delimited radix.toNat tok) ∧
      (ReadsDecimal tok ↔ Delimited 10 (signedTail tok).2) ∧
      (∀ argv : List (List TCH), Delimited 10 (signedTail (argv.getD 0 [])).2 →
        opIncr argv = pushAtRadixCtch (leadingDecimal (argv.getD 0 []) + 1) 10 0 ∧
        opDecr argv = pushAtRadixCtch (leadingDecimal (argv.getD 0 []) + -1) 10 0) ∧
      (∀ argv : List (List TCH), (∀ tok ∈ argv.tail, Delimited 10 (signedTail tok).2) →
        opSubstr argv = pushSubstr (argv.getD 0 []) (leadingDecimal (argv.getD 1 []))
          (argv[2]?.map leadingDecimal)) ∧
      ((radixPtok tok).1 = 8 → (ReadsOctal tok ↔ Delimited 8 tok)) ∧
      (∀ value, atTraditionalPtok (pushAtRadixCtch value 10 0) = value) := by
  refine ⟨fun radix => readsPrefix_iff radix tok, readsDecimal_iff tok, ?_, ?_, ?_,
    atTraditionalPtok_pushAt⟩
  · intro argv h
    exact ⟨opAddItokDat_eq 1 h, opAddItokDat_eq (-1) h⟩
  · intro argv h
    exact opSubstr_eq h
  · intro h
    exact readsOctal_iff h

theorem reads_twelve :
    ReadsPrefix 10 [tch '1', tch '2', tch ','] ∧ ReadsOctal [tch '0', tch '7', tch '9'] ∧
      opIncr [[tch '9']] = [tch '1', tch '0'] := by
  have htwelve := (atRadixPtok_reads [tch '1', tch '2', tch ',']).1
  have hseven := (atRadixPtok_reads [tch '0', tch '7', tch '9']).2.2
  refine ⟨(htwelve 10).mpr (by unfold Delimited; decide),
    (hseven.2.2.1 (by decide)).mpr (by unfold Delimited; decide), ?_⟩
  rw [(hseven.1 [[tch '9']] (by unfold Delimited; decide)).1]
  decide

/-- `incr(1a)` is 21, and `08` is a literal of value 8. -/
theorem reads_digit_equal_to_radix :
    ¬ ReadsPrefix 10 [tch '1', tch 'a'] ∧
      opIncr [[tch '1', tch 'a']] = [tch '2', tch '1'] ∧
      ¬ ReadsOctal [tch '0', tch '8'] ∧
      fEvalPtokPat [tch '0', tch '8'] = some (8, []) := by
  refine ⟨by unfold ReadsPrefix; decide, by decide, ?_, by decide⟩
  intro h
  exact (h 8 [tch '0', tch '8'] [] (by decide) rfl).1 (by decide)

end SdkTools.M4
