import Mathlib
import SdkTools.Asn1.Intx
import SdkTools.Lib.TwosComplement

/-!
# The operations of `intx.c` compute integers

A loop gives the digits of its result and a carry; the octet in front is right
if the result is in the range of one octet more, and dropping octets keeps it.
-/

namespace SdkTools.Asn1

set_option autoImplicit false

open Lib.TwosComplement

theorem signOctet_eq (v : Intx) : signOctet v = fill v := by
  cases v with
  | nil => rfl
  | cons x v => simp only [signOctet, fill, isNegative, decide_eq_true_eq, gt_iff_lt]

/-- Whether the sign bit differs from that of the fill octet. -/
theorem signBit (x : Octet) :
    ((x ^^^ 0xff) &&& 0x80 ≠ 0 ↔ x.toNat ≤ 0x7f) ∧ ((x ^^^ 0) &&& 0x80 ≠ 0 ↔ 0x7f < x.toNat) := by
  have hall : ∀ x : BitVec 8, ((x ^^^ 0xff) &&& 0x80 ≠ 0 ↔ x.toNat ≤ 0x7f) ∧
      ((x ^^^ 0) &&& 0x80 ≠ 0 ↔ 0x7f < x.toNat) := by decide
  exact hall x

theorem signBit_fill (x : Octet) (v : List Octet) : ¬ (x ^^^ fill (x :: v)) &&& 0x80 ≠ 0 := by
  unfold fill
  rw [isNegative_cons]
  by_cases hx : 0x7f < x.toNat
  · rw [decide_eq_true hx, if_pos rfl, (signBit x).1]
    omega
  · rw [decide_eq_false hx, if_neg Bool.false_ne_true, (signBit x).2]
    exact hx

theorem fill_cons (x : Octet) (v w : List Octet) : fill (x :: v) = fill (x :: w) := rfl

theorem signBit_other {x y : Octet} {v w : List Octet} (hx : x = fill (x :: v))
    (hy : x ≠ fill (y :: w)) : (y ^^^ x) &&& 0x80 ≠ 0 := by
  have hx' : x = if 0x7f < x.toNat then 0xff else 0 := by
    rw [fill, isNegative_cons] at hx
    simp only [decide_eq_true_eq] at hx
    exact hx
  rw [fill, isNegative_cons] at hy
  simp only [decide_eq_true_eq] at hy
  split at hx'
  · subst hx'
    rw [(signBit y).1]
    apply Nat.le_of_not_lt
    intro hlt
    rw [if_pos hlt] at hy
    exact hy rfl
  · subst hx'
    have hlt : 0x7f < y.toNat := by
      apply Nat.lt_of_not_le
      intro hle
      rw [if_neg (Nat.not_lt.mpr hle)] at hy
      exact hy rfl
    exact (signBit y).2.mpr hlt

theorem trim_single (x : Octet) : trim [x] = [x] := by
  simp only [trim, dropCount, Nat.zero_sub, ite_self, List.drop_zero]

/-- Dropping stops at the first octet that is needed. -/
theorem trim_cons (x y : Octet) (v : List Octet) :
    trim (x :: y :: v) = if x = fill (y :: v) then trim (y :: v) else x :: y :: v := by
  have hsign : signOctet (x :: y :: v) = fill (x :: y :: v) := signOctet_eq _
  unfold trim
  simp only [hsign, signOctet_eq (y :: v), dropCount]
  by_cases hx : x = fill (x :: y :: v)
  · rw [← hx, if_neg (not_not_intro rfl)]
    by_cases hy : x = fill (y :: v)
    · rw [if_pos hy, ← hy]
      cases hcount : dropCount x (y :: v) with
      | zero =>
        have hnot := signBit_fill y v
        rw [← hy] at hnot
        simp only [List.getD_cons_succ, List.getD_cons_zero, if_neg hnot, List.drop_succ_cons,
          List.drop_zero]
      | succ n =>
        simp only [List.getD_cons_succ]
        split
        · rfl
        · rfl
    · have hcount : dropCount x (y :: v) = 0 := by
        cases v with
        | nil => rfl
        | cons z v =>
          rw [dropCount, if_pos]
          intro hyx
          apply hy
          rw [hyx]
          exact hx
      have hbit := signBit_other hx hy
      simp only [if_neg hy, hcount, List.getD_cons_succ, List.getD_cons_zero, if_pos hbit]
      rfl
  · have hy : x ≠ fill (y :: v) := by
      intro hy
      apply hx
      rw [hy]
      unfold fill
      cases isNegative (y :: v) with
      | true => rfl
      | false => rfl
    have hnot := signBit_fill x (y :: v)
    simp only [if_pos hx, if_neg hy, List.getD_cons_zero, if_neg hnot, List.drop_zero]

theorem trim_spec {v : List Octet} (h : v ≠ []) :
    intOf (trim v) = intOf v ∧ Shortest (trim v) := by
  induction v with
  | nil => exact absurd rfl h
  | cons x v ih =>
    cases v with
    | nil =>
      rw [trim_single]
      exact ⟨rfl, shortest_single x⟩
    | cons y v =>
      rw [trim_cons]
      split
      · rename_i hx
        obtain ⟨hval, hshort⟩ := ih (List.cons_ne_nil _ _)
        refine ⟨hval.trans ?_, hshort⟩
        rw [hx, intOf_fill]
      · rename_i hx
        exact ⟨rfl, shortest_of_needed hx⟩

/-- An operation's digits give its value if it is in the range of the string. -/
theorem trim_value {v : List Octet} {z k : Int} (hne : v ≠ [])
    (hval : (natOf v : Int) = z + k * 256 ^ v.length)
    (hlo : -128 * (256 : Int) ^ (v.length - 1) ≤ z) (hhi : z < 128 * (256 : Int) ^ (v.length - 1)) :
    intOf (trim v) = z ∧ Shortest (trim v) := by
  obtain ⟨hint, hshort⟩ := trim_spec hne
  exact ⟨hint.trans (intOf_eq hne hval hlo hhi), hshort⟩

theorem toNat_toOctet (w : Int) : ((toOctet w).toNat : Int) = w % 256 := by
  rw [toOctet, BitVec.toNat_ofInt]
  exact Int.toNat_of_nonneg (Int.emod_nonneg _ (by decide))

theorem length_extended {l : Nat} {a : Intx} (h : a.length ≤ l) : (extended l a).length = l := by
  rw [extended, List.length_append, List.length_replicate]
  omega

theorem isNegative_fill (v : List Octet) : isNegative (fill v :: v) = isNegative v := by
  unfold fill
  cases isNegative v with
  | true => rfl
  | false => rfl

theorem extended_eq (l : Nat) (a : Intx) :
    intOf (extended l a) = intOf a ∧ isNegative (extended l a) = isNegative a := by
  unfold extended
  rw [signOctet_eq]
  generalize l - a.length = n
  induction n with
  | zero => exact ⟨rfl, rfl⟩
  | succ n ih =>
    have hfill : fill (List.replicate n (fill a) ++ a) = fill a := by
      unfold fill at ih ⊢
      rw [ih.2]
    rw [List.replicate_succ, List.cons_append]
    have hcons : fill a :: (List.replicate n (fill a) ++ a) =
        fill (List.replicate n (fill a) ++ a) :: (List.replicate n (fill a) ++ a) := by rw [hfill]
    rw [hcons, intOf_fill, isNegative_fill]
    exact ih

/-- A digit and the carry out of it stand for the sum at their place. -/
theorem digit_carry {w c p n : Int} (h : w % 256 + c * 256 = w) :
    w % 256 * p + n + c * (p * 256) = w * p + n := by
  calc w % 256 * p + n + c * (p * 256) = (w % 256 + c * 256) * p + n := by ring
    _ = w * p + n := by rw [h]

theorem add_digit {w p n : Int} (hlo : 0 ≤ w) (hhi : w < 512) :
    w % 256 * p + n + (if w > 0xff then 1 else 0) * (p * 256) = w * p + n := by
  apply digit_carry
  split
  · omega
  · omega

theorem sub_digit {w p n : Int} (hlo : -256 ≤ w) (hhi : w ≤ 255) :
    w % 256 * p + n + -(if w < 0 then 1 else 0) * (p * 256) = w * p + n := by
  apply digit_carry
  split
  · omega
  · omega

theorem carry_bounds (p : Prop) [Decidable p] :
    0 ≤ (if p then (1 : Int) else 0) ∧ (if p then (1 : Int) else 0) ≤ 1 := by
  split
  · exact ⟨Int.zero_le_ofNat 1, le_refl _⟩
  · exact ⟨le_refl _, Int.zero_le_ofNat 1⟩

theorem addLoop_spec {a : List Octet} : ∀ {b : List Octet}, a.length = b.length →
    (addLoop a b).1.length = a.length ∧
    (natOf (addLoop a b).1 : Int) + (addLoop a b).2 * 256 ^ a.length = natOf a + natOf b ∧
    0 ≤ (addLoop a b).2 ∧ (addLoop a b).2 ≤ 1 := by
  induction a with
  | nil =>
    intro b h
    rw [List.length_nil] at h
    rw [List.length_eq_zero_iff.mp h.symm]
    exact ⟨rfl, rfl, le_refl _, Int.zero_le_ofNat 1⟩
  | cons x a ih =>
    intro b h
    cases b with
    | nil => exact absurd h (Nat.succ_ne_zero _)
    | cons y b =>
      have hlen : a.length = b.length := Nat.succ.inj h
      obtain ⟨hl, hval, hlo, hhi⟩ := ih hlen
      have hx := x.isLt
      have hy := y.isLt
      simp only [addLoop, List.length_cons, natOf, hl, ← hlen, Nat.cast_add, Nat.cast_mul,
        Nat.cast_pow, Nat.cast_ofNat, toNat_toOctet, pow_succ]
      generalize (addLoop a b).2 = c at *
      refine ⟨trivial, ?_, ?_, ?_⟩
      · rw [add_digit (by omega) (by omega)]
        linarith
      · exact (carry_bounds _).1
      · exact (carry_bounds _).2

theorem subLoop_spec {a : List Octet} : ∀ {b : List Octet}, a.length = b.length →
    (subLoop a b).1.length = a.length ∧
    (natOf (subLoop a b).1 : Int) + -(subLoop a b).2 * 256 ^ a.length = natOf a - natOf b ∧
    0 ≤ (subLoop a b).2 ∧ (subLoop a b).2 ≤ 1 := by
  induction a with
  | nil =>
    intro b h
    rw [List.length_nil] at h
    rw [List.length_eq_zero_iff.mp h.symm]
    exact ⟨rfl, rfl, le_refl _, Int.zero_le_ofNat 1⟩
  | cons x a ih =>
    intro b h
    cases b with
    | nil => exact absurd h (Nat.succ_ne_zero _)
    | cons y b =>
      have hlen : a.length = b.length := Nat.succ.inj h
      obtain ⟨hl, hval, hlo, hhi⟩ := ih hlen
      have hx := x.isLt
      have hy := y.isLt
      simp only [subLoop, List.length_cons, natOf, hl, ← hlen, Nat.cast_add, Nat.cast_mul,
        Nat.cast_pow, Nat.cast_ofNat, toNat_toOctet, pow_succ]
      generalize (subLoop a b).2 = c at *
      refine ⟨trivial, ?_, ?_, ?_⟩
      · rw [sub_digit (by omega) (by omega)]
        linarith
      · exact (carry_bounds _).1
      · exact (carry_bounds _).2

theorem addOctetLoop_spec (o : Octet) (a : List Octet) :
    (addOctetLoop o a).1.length = a.length ∧
    (natOf (addOctetLoop o a).1 : Int) + (addOctetLoop o a).2 * 256 ^ a.length =
      natOf a + o.toNat ∧
    0 ≤ (addOctetLoop o a).2 ∧ (addOctetLoop o a).2 ≤ 255 ∧
    (a ≠ [] → (addOctetLoop o a).2 ≤ 1) := by
  have ho := o.isLt
  induction a with
  | nil =>
    refine ⟨rfl, ?_, ?_, ?_, fun h => absurd rfl h⟩
    · simp only [addOctetLoop, natOf, List.length_nil, pow_zero, mul_one]
    · exact Int.natCast_nonneg _
    · simp only [addOctetLoop]
      omega
  | cons x a ih =>
    obtain ⟨hl, hval, hlo, hhi, -⟩ := ih
    have hx := x.isLt
    simp only [addOctetLoop, List.length_cons, natOf, hl, Nat.cast_add, Nat.cast_mul,
      Nat.cast_pow, Nat.cast_ofNat, toNat_toOctet, pow_succ]
    generalize (addOctetLoop o a).2 = c at *
    refine ⟨trivial, ?_, ?_, ?_, fun _ => ?_⟩
    · rw [add_digit (by omega) (by omega)]
      linarith
    · exact (carry_bounds _).1
    · apply le_trans (carry_bounds _).2
      norm_num
    · exact (carry_bounds _).2

theorem subOctetLoop_spec (o : Octet) (a : List Octet) :
    (subOctetLoop o a).1.length = a.length ∧
    (natOf (subOctetLoop o a).1 : Int) + -(subOctetLoop o a).2 * 256 ^ a.length =
      natOf a - o.toNat ∧
    0 ≤ (subOctetLoop o a).2 ∧ (subOctetLoop o a).2 ≤ 255 ∧
    (a ≠ [] → (subOctetLoop o a).2 ≤ 1) := by
  have ho := o.isLt
  induction a with
  | nil =>
    refine ⟨rfl, ?_, ?_, ?_, fun h => absurd rfl h⟩
    · simp only [subOctetLoop, natOf, List.length_nil, pow_zero, mul_one, Nat.cast_zero]
      ring
    · exact Int.natCast_nonneg _
    · simp only [subOctetLoop]
      omega
  | cons x a ih =>
    obtain ⟨hl, hval, hlo, hhi, -⟩ := ih
    have hx := x.isLt
    simp only [subOctetLoop, List.length_cons, natOf, hl, Nat.cast_add, Nat.cast_mul,
      Nat.cast_pow, Nat.cast_ofNat, toNat_toOctet, pow_succ]
    generalize (subOctetLoop o a).2 = c at *
    refine ⟨trivial, ?_, ?_, ?_, fun _ => ?_⟩
    · rw [sub_digit (by omega) (by omega)]
      linarith
    · exact (carry_bounds _).1
    · apply le_trans (carry_bounds _).2
      norm_num
    · exact (carry_bounds _).2

theorem mulOctetLoop_spec (o : Octet) (a : List Octet) :
    (mulOctetLoop o a).1.length = a.length ∧
    (natOf (mulOctetLoop o a).1 : Int) + (mulOctetLoop o a).2 * 256 ^ a.length =
      natOf a * o.toNat := by
  induction a with
  | nil => exact ⟨rfl, by simp only [mulOctetLoop, natOf, zero_mul, Nat.cast_zero, add_zero]⟩
  | cons x a ih =>
    obtain ⟨hl, hval⟩ := ih
    simp only [mulOctetLoop, List.length_cons, natOf, hl, Nat.cast_add, Nat.cast_mul,
      Nat.cast_pow, Nat.cast_ofNat, toNat_toOctet, pow_succ]
    refine ⟨trivial, ?_⟩
    rw [digit_carry (by omega)]
    linarith

theorem incLoop_spec (a : List Octet) :
    (incLoop a).1.length = a.length ∧
    (natOf (incLoop a).1 : Int) + (if (incLoop a).2 then 0 else 1) * 256 ^ a.length =
      natOf a + 1 := by
  induction a with
  | nil => exact ⟨rfl, rfl⟩
  | cons x a ih =>
    obtain ⟨hl, hval⟩ := ih
    have hx := x.isLt
    rw [incLoop]
    split
    · rename_i hbroke
      rw [hbroke] at hval
      simp only [List.length_cons, natOf, hl, Nat.cast_add, Nat.cast_mul, Nat.cast_pow,
        Nat.cast_ofNat, if_true] at hval ⊢
      exact ⟨trivial, by linarith⟩
    · rename_i hbroke
      rw [if_neg hbroke] at hval
      have hnext : ((x + 1).toNat : Int) = (x.toNat + 1) % 256 := by
        rw [BitVec.toNat_add]
        exact_mod_cast rfl
      have hzero : (if decide (x + 1 ≠ 0) = true then (0 : Int) else 1) =
          if x.toNat = 255 then 1 else 0 := by
        have hall : ∀ x : BitVec 8, (if decide (x + 1 ≠ 0) = true then (0 : Int) else 1) =
          if x.toNat = 255 then 1 else 0 := by decide
        exact hall x
      simp only [List.length_cons, natOf, hl, Nat.cast_add, Nat.cast_mul, Nat.cast_pow,
        Nat.cast_ofNat, hnext, hzero, pow_succ]
      refine ⟨trivial, ?_⟩
      rw [digit_carry]
      · linarith
      · split
        · omega
        · omega

theorem decLoop_spec (a : List Octet) :
    (decLoop a).1.length = a.length ∧
    (natOf (decLoop a).1 : Int) + (if (decLoop a).2 then 0 else -1) * 256 ^ a.length =
      natOf a - 1 := by
  induction a with
  | nil => exact ⟨rfl, rfl⟩
  | cons x a ih =>
    obtain ⟨hl, hval⟩ := ih
    have hx := x.isLt
    rw [decLoop]
    split
    · rename_i hbroke
      rw [hbroke] at hval
      simp only [List.length_cons, natOf, hl, Nat.cast_add, Nat.cast_mul, Nat.cast_pow,
        Nat.cast_ofNat, if_true] at hval ⊢
      exact ⟨trivial, by linarith⟩
    · rename_i hbroke
      rw [if_neg hbroke] at hval
      have hnext : ((x - 1).toNat : Int) = ((x.toNat : Int) - 1) % 256 := by
        have hall : ∀ x : BitVec 8, ((x - 1).toNat : Int) = ((x.toNat : Int) - 1) % 256 := by
          decide
        exact hall x
      have hzero : (if decide (x ≠ 0) = true then (0 : Int) else -1) =
          if x.toNat = 0 then -1 else 0 := by
        have hall : ∀ x : BitVec 8, (if decide (x ≠ 0) = true then (0 : Int) else -1) =
          if x.toNat = 0 then -1 else 0 := by decide
        exact hall x
      simp only [List.length_cons, natOf, hl, Nat.cast_add, Nat.cast_mul, Nat.cast_pow,
        Nat.cast_ofNat, hnext, hzero, pow_succ]
      refine ⟨trivial, ?_⟩
      rw [digit_carry]
      · linarith
      · split
        · omega
        · omega

/-- The string has the value and no octet too many. -/
def Computes (v : Intx) (z : Int) : Prop := intOf v = z ∧ Shortest v

theorem intOf_bounds {v : Intx} {n : Nat} (h : v ≠ []) (hn : v.length ≤ n + 1) :
    -128 * (256 : Int) ^ n ≤ intOf v ∧ intOf v < 128 * (256 : Int) ^ n := by
  cases v with
  | nil => exact absurd rfl h
  | cons x v =>
    obtain ⟨hlo, hhi⟩ := intOf_range (x := x) (v := v)
    have hpow : (256 : Int) ^ v.length ≤ 256 ^ n :=
      pow_le_pow_right₀ (by norm_num) (Nat.le_of_succ_le_succ hn)
    constructor
    · linarith
    · linarith

/-- An operation on at most `n + 1` octets, in one octet more. -/
theorem computes_of {v : List Octet} {n : Nat} {z k : Int} (hlen : v.length = n + 2)
    (hval : (natOf v : Int) = z + k * 256 ^ (n + 2)) (hlo : -128 * 256 * (256 : Int) ^ n ≤ z)
    (hhi : z < 128 * 256 * (256 : Int) ^ n) : Computes (trim v) z := by
  have hne : v ≠ [] := by
    intro hnil
    rw [hnil] at hlen
    exact nomatch hlen
  have hpred : v.length - 1 = n + 1 := by omega
  apply trim_value hne
  · rw [hlen]
    exact hval
  · rw [hpred, pow_succ]
    linarith
  · rw [hpred, pow_succ]
    linarith

/-- The value without a sign, up to a multiple of the modulus. -/
theorem natOf_extended {l : Nat} {a : Intx} (h : a.length ≤ l) :
    ∃ k : Int, (natOf (extended l a) : Int) = intOf a + k * 256 ^ l := by
  have heq := natOf_eq (extended l a)
  rw [(extended_eq l a).1, length_extended h] at heq
  exact ⟨_, heq⟩

theorem exists_length {a : Intx} (h : a ≠ []) : ∃ n, a.length = n + 1 :=
  ⟨a.length - 1, (Nat.sub_add_cancel (length_pos h)).symm⟩

theorem natOf_signed (a : Intx) :
    (natOf (fill a :: a) : Int) =
      intOf a + (if isNegative (fill a :: a) then 1 else 0) * 256 ^ (a.length + 1) := by
  have h := natOf_eq (fill a :: a)
  rw [intOf_fill, List.length_cons] at h
  exact h

theorem inc_computes {a : Intx} (ha : a ≠ []) : Computes (ASN1intx_inc a) (intOf a + 1) := by
  obtain ⟨n, hn⟩ := exists_length ha
  obtain ⟨hl, hval⟩ := incLoop_spec (fill a :: a)
  obtain ⟨hlo, hhi⟩ := intOf_bounds ha (Nat.le_of_eq hn)
  have hpos : (0 : Int) < 256 ^ n := by positivity
  rw [natOf_signed, List.length_cons, hn] at hval
  rw [ASN1intx_inc, signOctet_eq]
  apply computes_of (k := (if isNegative (fill a :: a) then 1 else 0) -
    if (incLoop (fill a :: a)).2 then 0 else 1)
  · rw [hl, List.length_cons, hn]
  · linarith
  · linarith
  · linarith

theorem dec_computes {a : Intx} (ha : a ≠ []) : Computes (ASN1intx_dec a) (intOf a - 1) := by
  obtain ⟨n, hn⟩ := exists_length ha
  obtain ⟨hl, hval⟩ := decLoop_spec (fill a :: a)
  obtain ⟨hlo, hhi⟩ := intOf_bounds ha (Nat.le_of_eq hn)
  have hpos : (0 : Int) < 256 ^ n := by positivity
  rw [natOf_signed, List.length_cons, hn] at hval
  rw [ASN1intx_dec, signOctet_eq]
  apply computes_of (k := (if isNegative (fill a :: a) then 1 else 0) -
    if (decLoop (fill a :: a)).2 then 0 else -1)
  · rw [hl, List.length_cons, hn]
  · linarith
  · linarith
  · linarith

theorem toNat_not (x : Octet) : ((~~~x).toNat : Int) = 255 - x.toNat := by
  have hall : ∀ x : BitVec 8, ((~~~x).toNat : Int) = 255 - x.toNat := by decide
  exact hall x

theorem natOf_not (a : List Octet) :
    (natOf (a.map (~~~ ·)) : Int) = 256 ^ a.length - 1 - natOf a := by
  induction a with
  | nil => rfl
  | cons x a ih =>
    simp only [List.map_cons, natOf, List.length_map, List.length_cons, Nat.cast_add, Nat.cast_mul,
      Nat.cast_pow, Nat.cast_ofNat, pow_succ, ih, toNat_not]
    ring

theorem intOf_not {a : Intx} (ha : a ≠ []) : intOf (a.map (~~~ ·)) = -1 - intOf a := by
  have hneg : isNegative (a.map (~~~ ·)) = !isNegative a := by
    cases a with
    | nil => exact absurd rfl ha
    | cons x a =>
      have hall : ∀ x : BitVec 8, decide (0x7f < (~~~x).toNat) = !decide (0x7f < x.toNat) := by
        decide
      exact hall x
  rw [intOf, natOf_not, hneg, List.length_map, intOf]
  cases isNegative a with
  | true =>
    simp only [Bool.not_true, Bool.false_eq_true, if_false, if_true]
    ring
  | false =>
    simp only [Bool.not_false, Bool.false_eq_true, if_false, if_true]
    ring

theorem neg_computes {a : Intx} (ha : a ≠ []) : Computes (ASN1intx_neg a) (-intOf a) := by
  have hne : a.map (~~~ ·) ≠ [] := fun h => ha (List.map_eq_nil_iff.mp h)
  have h := inc_computes hne
  rw [intOf_not ha] at h
  have hval : -1 - intOf a + 1 = -intOf a := by ring
  rw [hval] at h
  exact h

theorem add_computes {a b : Intx} (ha : a ≠ []) (hb : b ≠ []) :
    Computes (ASN1intx_add a b) (intOf a + intOf b) := by
  have hla := length_pos ha
  obtain ⟨n, hn⟩ : ∃ n, max a.length b.length = n + 1 := ⟨max a.length b.length - 1, by omega⟩
  have hna : a.length ≤ n + 2 := by omega
  have hnb : b.length ≤ n + 2 := by omega
  obtain ⟨ka, hka⟩ := natOf_extended hna
  obtain ⟨kb, hkb⟩ := natOf_extended hnb
  obtain ⟨hl, hval, -, -⟩ :=
    addLoop_spec ((length_extended hna).trans (length_extended hnb).symm)
  obtain ⟨hloa, hhia⟩ := intOf_bounds (n := n) ha (by omega)
  obtain ⟨hlob, hhib⟩ := intOf_bounds (n := n) hb (by omega)
  have hpos : (0 : Int) < 256 ^ n := by positivity
  rw [length_extended hna] at hl hval
  simp only [ASN1intx_add, hn]
  apply computes_of (k := ka + kb - (addLoop (extended (n + 2) a) (extended (n + 2) b)).2) hl
  · linarith
  · linarith
  · linarith

theorem sub_computes {a b : Intx} (ha : a ≠ []) (hb : b ≠ []) :
    Computes (ASN1intx_sub a b) (intOf a - intOf b) := by
  have hla := length_pos ha
  obtain ⟨n, hn⟩ : ∃ n, max a.length b.length = n + 1 := ⟨max a.length b.length - 1, by omega⟩
  have hna : a.length ≤ n + 2 := by omega
  have hnb : b.length ≤ n + 2 := by omega
  obtain ⟨ka, hka⟩ := natOf_extended hna
  obtain ⟨kb, hkb⟩ := natOf_extended hnb
  obtain ⟨hl, hval, -, -⟩ :=
    subLoop_spec ((length_extended hna).trans (length_extended hnb).symm)
  obtain ⟨hloa, hhia⟩ := intOf_bounds (n := n) ha (by omega)
  obtain ⟨hlob, hhib⟩ := intOf_bounds (n := n) hb (by omega)
  have hpos : (0 : Int) < 256 ^ n := by positivity
  rw [length_extended hna] at hl hval
  simp only [ASN1intx_sub, hn]
  apply computes_of (k := ka - kb + (subLoop (extended (n + 2) a) (extended (n + 2) b)).2) hl
  · linarith
  · linarith
  · linarith

theorem headD_negative {a : Intx} (ha : a ≠ []) :
    (a.headD 0).toNat > 0x7f ↔ isNegative a = true := by
  cases a with
  | nil => exact absurd rfl ha
  | cons x a => exact decide_eq_true_iff.symm

theorem addOctet_computes {a : Intx} (ha : a ≠ []) (o : Octet) :
    Computes (ASN1intx_addoctet a o) (intOf a + o.toNat) := by
  obtain ⟨n, hn⟩ := exists_length ha
  obtain ⟨hl, hval, hc0, -, hc1⟩ := addOctetLoop_spec o a
  have hc1 := hc1 ha
  obtain ⟨hlo, hhi⟩ := intOf_bounds ha (Nat.le_of_eq hn)
  have hpos : (1 : Int) ≤ 256 ^ n := one_le_pow₀ (by norm_num)
  have ho := o.isLt
  have hnat := natOf_eq a
  have hlen : ∀ x : Octet, (x :: (addOctetLoop o a).1).length = n + 2 := by
    intro x
    rw [List.length_cons, hl, hn]
  simp only [ASN1intx_addoctet]
  rw [hn, pow_succ] at hval hnat
  by_cases hneg : isNegative a = true
  · rw [if_pos ((headD_negative ha).mpr hneg)]
    rw [if_pos hneg] at hnat
    have hfirst : ((toOctet (0xff + (addOctetLoop o a).2)).toNat : Int) =
        255 + (addOctetLoop o a).2 - 256 * (addOctetLoop o a).2 := by
      rw [toNat_toOctet]
      omega
    apply computes_of (k := 1 - (addOctetLoop o a).2) (hlen _)
    · simp only [natOf, hl, hn, Nat.cast_add, Nat.cast_mul, Nat.cast_pow, Nat.cast_ofNat, hfirst,
        pow_succ]
      linarith
    · linarith
    · nlinarith
  · rw [if_neg fun h => hneg ((headD_negative ha).mp h)]
    rw [if_neg hneg] at hnat
    have hfirst : ((toOctet (addOctetLoop o a).2).toNat : Int) = (addOctetLoop o a).2 := by
      rw [toNat_toOctet]
      omega
    apply computes_of (k := 0) (hlen _)
    · simp only [natOf, hl, hn, Nat.cast_add, Nat.cast_mul, Nat.cast_pow, Nat.cast_ofNat, hfirst,
        pow_succ]
      linarith
    · linarith
    · nlinarith

theorem mulOctet_computes {a : Intx} (ha : a ≠ []) (o : Octet) :
    Computes (ASN1intx_muloctet a o) (intOf a * o.toNat) := by
  obtain ⟨n, hn⟩ := exists_length ha
  obtain ⟨hl, hval⟩ := mulOctetLoop_spec o a
  obtain ⟨hlo, hhi⟩ := intOf_bounds ha (Nat.le_of_eq hn)
  have hpos : (1 : Int) ≤ 256 ^ n := one_le_pow₀ (by norm_num)
  have ho : (o.toNat : Int) ≤ 255 := by exact_mod_cast Nat.le_of_lt_succ o.isLt
  have ho0 : (0 : Int) ≤ o.toNat := Int.natCast_nonneg _
  have hnat := natOf_eq a
  have hlen : ∀ x : Octet, (x :: (mulOctetLoop o a).1).length = n + 2 := by
    intro x
    rw [List.length_cons, hl, hn]
  simp only [ASN1intx_muloctet]
  rw [hn, pow_succ] at hval hnat
  by_cases hneg : isNegative a = true
  · rw [if_pos ((headD_negative ha).mpr hneg)]
    rw [if_pos hneg] at hnat
    have hfirst := toNat_toOctet (0xff * o.toNat + (mulOctetLoop o a).2)
    have hdiv := Int.emod_add_mul_ediv (0xff * o.toNat + (mulOctetLoop o a).2) 256
    apply computes_of (k := o.toNat - (0xff * o.toNat + (mulOctetLoop o a).2) / 256) (hlen _)
    · simp only [natOf, hl, hn, Nat.cast_add, Nat.cast_mul, Nat.cast_pow, Nat.cast_ofNat, hfirst,
        pow_succ]
      rw [hnat] at hval
      linear_combination hval + (256 ^ n * 256) * hdiv
    · nlinarith
    · nlinarith
  · rw [if_neg fun h => hneg ((headD_negative ha).mp h)]
    rw [if_neg hneg] at hnat
    have hfirst := toNat_toOctet (mulOctetLoop o a).2
    have hdiv := Int.emod_add_mul_ediv (mulOctetLoop o a).2 256
    apply computes_of (k := -((mulOctetLoop o a).2 / 256)) (hlen _)
    · simp only [natOf, hl, hn, Nat.cast_add, Nat.cast_mul, Nat.cast_pow, Nat.cast_ofNat, hfirst,
        pow_succ]
      rw [hnat] at hval
      linear_combination hval + (256 ^ n * 256) * hdiv
    · nlinarith
    · nlinarith

/-- Subtracting an octet goes wrong where a number that is not negative would
become negative: the borrow is put in front with the wrong sign. -/
theorem subOctet_computes_iff {a : Intx} (ha : a ≠ []) (o : Octet) :
    Computes (ASN1intx_suboctet a o) (intOf a - o.toNat) ↔ intOf a < 0 ∨ (o.toNat : Int) ≤ intOf a := by
  obtain ⟨n, hn⟩ := exists_length ha
  obtain ⟨hl, hval, hc0, -, hc1⟩ := subOctetLoop_spec o a
  have hc1 := hc1 ha
  obtain ⟨hlo, hhi⟩ := intOf_bounds ha (Nat.le_of_eq hn)
  have hpos : (1 : Int) ≤ 256 ^ n := one_le_pow₀ (by norm_num)
  have ho := o.isLt
  have hnat := natOf_eq a
  have hlen : ∀ x : Octet, (x :: (subOctetLoop o a).1).length = n + 2 := by
    intro x
    rw [List.length_cons, hl, hn]
  have hbytes : (natOf (subOctetLoop o a).1 : Int) < 256 ^ n * 256 := by
    have hlt := natOf_lt (subOctetLoop o a).1
    rw [hl, hn, Nat.pow_succ] at hlt
    exact_mod_cast hlt
  have hbytes0 : (0 : Int) ≤ natOf (subOctetLoop o a).1 := Int.natCast_nonneg _
  have hlt := natOf_lt a
  simp only [ASN1intx_suboctet]
  rw [hn, pow_succ] at hval hnat
  by_cases hneg : isNegative a = true
  · rw [if_pos ((headD_negative ha).mpr hneg)]
    rw [if_pos hneg] at hnat
    have hfirst : ((toOctet (0xff - (subOctetLoop o a).2)).toNat : Int) =
        255 - (subOctetLoop o a).2 := by
      rw [toNat_toOctet]
      omega
    have hlt' : (natOf a : Int) < 256 ^ n * 256 := by
      rw [hn, Nat.pow_succ] at hlt
      exact_mod_cast hlt
    have hright : intOf a < 0 ∨ (o.toNat : Int) ≤ intOf a := Or.inl (by linarith)
    refine iff_of_true ?_ hright
    apply computes_of (k := 1) (hlen _)
    · simp only [natOf, hl, hn, Nat.cast_add, Nat.cast_mul, Nat.cast_pow, Nat.cast_ofNat, hfirst,
        pow_succ]
      linarith
    · nlinarith
    · linarith
  · rw [if_neg fun h => hneg ((headD_negative ha).mp h)]
    rw [if_neg hneg] at hnat
    have hfirst : ((toOctet (subOctetLoop o a).2).toNat : Int) = (subOctetLoop o a).2 := by
      rw [toNat_toOctet]
      omega
    have hint : (natOf a : Int) = intOf a := by linarith
    have hnonneg : 0 ≤ intOf a := by
      rw [← hint]
      exact Int.natCast_nonneg _
    rcases Int.lt_or_le (intOf a) o.toNat with hborrow | hle
    · have hc : (subOctetLoop o a).2 = 1 := by
        by_contra hne
        have hzero : (subOctetLoop o a).2 = 0 := by omega
        rw [hzero] at hval
        linarith
      refine iff_of_false ?_ (by omega)
      intro h
      have heq := (trim_spec (List.cons_ne_nil (toOctet (subOctetLoop o a).2) _)).1.symm.trans h.1
      have hfirst' : (toOctet (subOctetLoop o a).2).toNat = 1 := by
        rw [hc] at hfirst ⊢
        exact_mod_cast hfirst
      have hsign : ¬ isNegative (toOctet (subOctetLoop o a).2 :: (subOctetLoop o a).1) = true := by
        rw [isNegative_cons, hfirst']
        decide
      rw [intOf, if_neg hsign, natOf, hfirst', hl, hn, Nat.one_mul] at heq
      push_cast at heq
      rw [pow_succ] at heq
      rw [hc] at hval
      linarith
    · have hc : (subOctetLoop o a).2 = 0 := by
        by_contra hne
        have hone : (subOctetLoop o a).2 = 1 := by omega
        rw [hone] at hval
        linarith
      refine iff_of_true ?_ (Or.inr hle)
      rw [hc] at hval hfirst ⊢
      apply computes_of (k := 0) (hlen _)
      · simp only [natOf, hl, hn, Nat.cast_add, Nat.cast_mul, Nat.cast_pow, Nat.cast_ofNat, hfirst,
          pow_succ]
        linarith
      · nlinarith
      · linarith

theorem cmpLoop_spec {a : List Octet} : ∀ {b : List Octet}, a.length = b.length →
    (cmpLoop a b < 0 ↔ natOf a < natOf b) ∧ (cmpLoop a b = 0 ↔ natOf a = natOf b) := by
  induction a with
  | nil =>
    intro b h
    rw [List.length_nil] at h
    rw [List.length_eq_zero_iff.mp h.symm]
    exact ⟨iff_of_false (by decide) (Nat.lt_irrefl _), iff_of_true rfl rfl⟩
  | cons x a ih =>
    intro b h
    cases b with
    | nil => exact absurd h (Nat.succ_ne_zero _)
    | cons y b =>
      have hlen : a.length = b.length := Nat.succ.inj h
      obtain ⟨hlt, heq⟩ := ih hlen
      have ha := natOf_lt a
      have hb := natOf_lt b
      rw [cmpLoop, natOf, natOf, hlen]
      rw [hlen] at ha
      generalize 256 ^ b.length = p at *
      rcases Nat.lt_trichotomy x.toNat y.toNat with hxy | hxy | hxy
      · have hmul : (x.toNat + 1) * p ≤ y.toNat * p := Nat.mul_le_mul_right _ hxy
        rw [Nat.add_mul, Nat.one_mul] at hmul
        rw [if_pos (by omega)]
        constructor
        · exact iff_of_true (by omega) (by omega)
        · exact iff_of_false (by omega) (by omega)
      · rw [hxy, Int.sub_self, if_neg (not_not_intro rfl), hlt, heq]
        constructor
        · omega
        · omega
      · have hmul : (y.toNat + 1) * p ≤ x.toNat * p := Nat.mul_le_mul_right _ hxy
        rw [Nat.add_mul, Nat.one_mul] at hmul
        rw [if_pos (by omega)]
        constructor
        · exact iff_of_false (by omega) (by omega)
        · exact iff_of_false (by omega) (by omega)

theorem intOf_neg_iff (v : List Octet) : intOf v < 0 ↔ isNegative v = true := by
  have hlt : (natOf v : Int) < 256 ^ v.length := by exact_mod_cast natOf_lt v
  have hnat : (0 : Int) ≤ natOf v := Int.natCast_nonneg _
  unfold intOf
  constructor
  · intro h
    by_contra hneg
    rw [if_neg hneg] at h
    linarith
  · intro h
    rw [if_pos h]
    linarith

theorem cmp_spec (a b : Intx) :
    (ASN1intx_cmp a b < 0 ↔ intOf a < intOf b) ∧ (ASN1intx_cmp a b = 0 ↔ intOf a = intOf b) := by
  have ha := intOf_neg_iff a
  have hb := intOf_neg_iff b
  simp only [ASN1intx_cmp, signOctet_eq]
  by_cases hsign : isNegative a = isNegative b
  · have hfill : fill a = fill b := by rw [fill, fill, hsign]
    rw [if_neg (not_not_intro hfill)]
    have hla : a.length ≤ max a.length b.length := Nat.le_max_left _ _
    have hlb : b.length ≤ max a.length b.length := Nat.le_max_right _ _
    obtain ⟨hlt, heq⟩ := cmpLoop_spec ((length_extended hla).trans (length_extended hlb).symm)
    have hnata := natOf_eq (extended (max a.length b.length) a)
    have hnatb := natOf_eq (extended (max a.length b.length) b)
    rw [(extended_eq _ a).1, (extended_eq _ a).2, length_extended hla, hsign] at hnata
    rw [(extended_eq _ b).1, (extended_eq _ b).2, length_extended hlb] at hnatb
    rw [hlt, heq]
    constructor
    · omega
    · omega
  · have hfill : fill a ≠ fill b := by
      intro heq
      apply hsign
      rw [fill, fill] at heq
      cases hna : isNegative a with
      | true =>
        cases hnb : isNegative b with
        | true => rfl
        | false => rw [hna, hnb] at heq; exact absurd heq (by decide)
      | false =>
        cases hnb : isNegative b with
        | true => rw [hna, hnb] at heq; exact absurd heq (by decide)
        | false => rfl
    rw [if_pos hfill]
    cases hna : isNegative a with
    | true =>
      have hnb : isNegative b = false := by
        rw [hna] at hsign
        exact Bool.eq_false_iff.mpr fun h => hsign h.symm
      rw [hna] at ha
      rw [hnb] at hb
      rw [fill, hna, if_pos rfl, if_pos rfl]
      have hlt := ha.mpr rfl
      have hge : ¬ intOf b < 0 := fun h => Bool.false_ne_true (hb.mp h)
      constructor
      · exact iff_of_true (by decide) (by omega)
      · exact iff_of_false (by decide) (by omega)
    | false =>
      have hnb : isNegative b = true := by
        rw [hna] at hsign
        exact Bool.not_eq_false _ ▸ fun h => hsign h.symm
      rw [hna] at ha
      rw [hnb] at hb
      rw [fill, hna, if_neg Bool.false_ne_true, if_neg (by decide)]
      have hlt := hb.mpr rfl
      have hge : ¬ intOf a < 0 := fun h => Bool.false_ne_true (ha.mp h)
      constructor
      · exact iff_of_false (by decide) (by omega)
      · exact iff_of_false (by decide) (by omega)

/-- Every operation computes what it stands for, in as few octets as possible. -/
structure Correct (a b : Intx) (o : Octet) : Prop where
  add : Computes (ASN1intx_add a b) (intOf a + intOf b)
  sub : Computes (ASN1intx_sub a b) (intOf a - intOf b)
  addoctet : Computes (ASN1intx_addoctet a o) (intOf a + o.toNat)
  suboctet : Computes (ASN1intx_suboctet a o) (intOf a - o.toNat)
  muloctet : Computes (ASN1intx_muloctet a o) (intOf a * o.toNat)
  inc : Computes (ASN1intx_inc a) (intOf a + 1)
  dec : Computes (ASN1intx_dec a) (intOf a - 1)
  neg : Computes (ASN1intx_neg a) (-intOf a)
  cmp_lt : ASN1intx_cmp a b < 0 ↔ intOf a < intOf b
  cmp_eq : ASN1intx_cmp a b = 0 ↔ intOf a = intOf b
  cmp_gt : 0 < ASN1intx_cmp a b ↔ intOf b < intOf a

/-- All of it is right, apart from taking a larger octet from a number that is not
negative. -/
theorem intx_correct_iff {a b : Intx} (ha : a ≠ []) (hb : b ≠ []) (o : Octet) :
    Correct a b o ↔ intOf a < 0 ∨ (o.toNat : Int) ≤ intOf a := by
  obtain ⟨hlt, heq⟩ := cmp_spec a b
  constructor
  · intro h
    exact (subOctet_computes_iff ha o).mp h.suboctet
  · intro h
    exact ⟨add_computes ha hb, sub_computes ha hb, addOctet_computes ha o,
      (subOctet_computes_iff ha o).mpr h, mulOctet_computes ha o, inc_computes ha,
      dec_computes ha, neg_computes ha, hlt, heq, by omega⟩

theorem intx_correct_five : Correct [5] [0xff, 0x80] 3 :=
  (intx_correct_iff (List.cons_ne_nil _ _) (List.cons_ne_nil _ _) 3).mpr (Or.inr (by decide))

/-- Zero minus one is 511. -/
theorem suboctet_borrow : ¬ Correct [0] [0] 1 := by
  intro h
  have hval : intOf (ASN1intx_suboctet [0] 1) = intOf [0] - 1 := h.suboctet.1
  exact absurd hval (by decide)

end SdkTools.Asn1
