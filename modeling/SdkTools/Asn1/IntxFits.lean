import SdkTools.Asn1.IntxSizes

/-!
# What the sizes of `intx.c` say about the values

For every octet string the checks and conversions agree with its value, except that
`ASN1intx_octets` reads behind a string of sign octets only (0 and -1), and that
`ASN1uint32_log2` of 0 is 32.
-/

namespace SdkTools.Asn1

set_option autoImplicit false

open Lib.TwosComplement

/-- The value fits in `n` octets of two's complement. -/
def FitsIn (n : Nat) (z : Int) : Prop :=
  1 ≤ n ∧ -128 * (256 : Int) ^ (n - 1) ≤ z ∧ z < 128 * (256 : Int) ^ (n - 1)

theorem FitsIn.mono {m n : Nat} {z : Int} (h : FitsIn m z) (hle : m ≤ n) : FitsIn n z := by
  obtain ⟨hm, hlo, hhi⟩ := h
  have hpow : (256 : Int) ^ (m - 1) ≤ 256 ^ (n - 1) :=
    pow_le_pow_right₀ (by norm_num) (Nat.sub_le_sub_right hle 1)
  exact ⟨hm.trans hle, by linarith, by linarith⟩

theorem exists_natOf (n m : Nat) (h : m < 256 ^ n) : ∃ v : List Octet, v.length = n ∧ natOf v = m := by
  induction n generalizing m with
  | zero =>
    have hm : m = 0 := by simpa using h
    exact ⟨[], rfl, hm.symm⟩
  | succ n ih =>
    obtain ⟨v, hlen, hval⟩ := ih (m % 256 ^ n) (Nat.mod_lt _ (Nat.pow_pos (by decide)))
    have hdiv : m / 256 ^ n < 256 := by
      rw [Nat.div_lt_iff_lt_mul (Nat.pow_pos (by decide)), Nat.mul_comm, ← Nat.pow_succ]
      exact h
    refine ⟨BitVec.ofNat 8 (m / 256 ^ n) :: v, by simp [hlen], ?_⟩
    rw [natOf, hlen, hval, BitVec.toNat_ofNat, Nat.mod_eq_of_lt hdiv, Nat.mul_comm]
    exact Nat.div_add_mod m _

/-- A value that fits has a string of the length. -/
theorem FitsIn.exists {n : Nat} {z : Int} (h : FitsIn n z) :
    ∃ v : List Octet, v ≠ [] ∧ v.length = n ∧ intOf v = z := by
  obtain ⟨hn, hlo, hhi⟩ := h
  obtain ⟨n, rfl⟩ : ∃ k, n = k + 1 := ⟨n - 1, (Nat.sub_add_cancel hn).symm⟩
  have hpos : (0 : Int) < 256 ^ (n + 1) := by positivity
  have hmod := Int.emod_nonneg z hpos.ne'
  have hlt := Int.emod_lt_of_pos z hpos
  obtain ⟨v, hlen, hval⟩ := exists_natOf (n + 1) (z % 256 ^ (n + 1)).toNat (by
    zify
    rw [Int.toNat_of_nonneg hmod]
    exact hlt)
  have hne : v ≠ [] := by
    rintro rfl
    exact nomatch hlen
  refine ⟨v, hne, hlen, intOf_eq (k := -(z / 256 ^ (n + 1))) hne ?_ ?_ ?_⟩
  · rw [hval, Int.toNat_of_nonneg hmod, hlen]
    have hdm := Int.emod_add_mul_ediv z (256 ^ (n + 1))
    linarith
  · rw [hlen]; exact hlo
  · rw [hlen]; exact hhi

theorem fitsIn_length {v : List Octet} (h : v ≠ []) : FitsIn v.length (intOf v) := by
  have hpos := length_pos h
  exact ⟨hpos, intOf_bounds h (by omega)⟩

/-- The length of a shortest string is the least number of octets. -/
theorem shortest_least {v : List Octet} (h : Shortest v) :
    IsLeast {n | FitsIn n (intOf v)} v.length := by
  refine ⟨fitsIn_length h.1, fun n hn => ?_⟩
  obtain ⟨w, hw, rfl, hval⟩ := FitsIn.exists hn
  exact h.2 w hw hval

/-! ## Octets -/

theorem leading_cons_self (s : Octet) (v : List Octet) :
    leading s (s :: v) = leading s v + 1 := by
  simp [leading]

theorem leading_cons_of_ne {s x : Octet} (v : List Octet) (h : x ≠ s) : leading s (x :: v) = 0 := by
  simp [leading, h]

/-- What a scan for the first octet other than `s` leaves. -/
theorem leading_split (s : Octet) (v : List Octet) :
    v = List.replicate (leading s v) s ∨
      ∃ y t, v = List.replicate (leading s v) s ++ y :: t ∧ y ≠ s := by
  induction v with
  | nil => exact .inl rfl
  | cons x v ih =>
    rcases eq_or_ne x s with rfl | hx
    · rw [leading_cons_self, List.replicate_succ]
      rcases ih with h | ⟨y, t, h, hy⟩
      · exact .inl (congrArg _ h)
      · exact .inr ⟨y, t, congrArg _ h, hy⟩
    · rw [leading_cons_of_ne v hx]
      exact .inr ⟨x, v, rfl, hx⟩

/-- Fill octets in front of a string do not change its value. -/
theorem intOf_replicate_append {s : Octet} {w : List Octet} (h : fill w = s) (n : Nat) :
    intOf (List.replicate n s ++ w) = intOf w ∧ fill (List.replicate n s ++ w) = s := by
  induction n with
  | zero => exact ⟨rfl, h⟩
  | succ n ih =>
    obtain ⟨hval, hfill⟩ := ih
    have hneg := isNegative_fill (List.replicate n s ++ w)
    rw [hfill] at hneg
    rw [List.replicate_succ, List.cons_append]
    refine ⟨?_, ?_⟩
    · rw [← hval, ← intOf_fill (List.replicate n s ++ w), hfill]
    · exact (congrArg (fun b : Bool => if b then (0xff : Octet) else 0) hneg).trans hfill

/-- A string is shortest if its first octet is not a sign octet. -/
theorem shortest_of_first {x : Octet} {v : List Octet} (h : x ≠ signOctet [x]) :
    Shortest (x :: v) := by
  cases v with
  | nil => exact shortest_single x
  | cons y v =>
    apply shortest_of_needed
    rintro rfl
    apply h
    unfold fill
    cases isNegative (y :: v) <;> rfl

theorem fill_signOctet (x : Octet) : fill [signOctet [x]] = signOctet [x] := by
  rw [signOctet_eq]
  unfold fill
  cases isNegative [x] <;> rfl

theorem octets_eq (val : Intx) :
    ASN1intx_octets val =
      if leading (signOctet val) val = 0 then some val.length
      else val[leading (signOctet val) val]?.map fun x =>
        val.length - if (x ^^^ signOctet val) &&& 0x80 ≠ 0 then leading (signOctet val) val - 1
          else leading (signOctet val) val := by
  simp only [ASN1intx_octets]
  by_cases h : leading (signOctet val) val = 0
  · simp [h]
  · cases hget : val[leading (signOctet val) val]? <;> simp [h]

/-- `ASN1intx_octets` reads behind the string, or it counts the octets of a shortest one. -/
theorem octets_cases (x : Octet) (v : List Octet) :
    (ASN1intx_octets (x :: v) = none ∧ (intOf (x :: v) = 0 ∨ intOf (x :: v) = -1)) ∨
    ∃ w, ASN1intx_octets (x :: v) = some w.length ∧ Shortest w ∧ intOf w = intOf (x :: v) ∧
      w ≠ [0] ∧ w ≠ [0xff] := by
  have hsfill := fill_signOctet x
  have hs : signOctet (x :: v) = signOctet [x] := rfl
  have hbits : signOctet [x] = 0 ∨ signOctet [x] = 0xff := by
    simp only [signOctet]
    split_ifs <;> simp
  rw [octets_eq, hs]
  obtain ⟨s, hsg⟩ : ∃ s, signOctet [x] = s := ⟨_, rfl⟩
  have hsplit := leading_split s (x :: v)
  obtain ⟨n, hn⟩ : ∃ n, leading s (x :: v) = n := ⟨_, rfl⟩
  rw [hsg] at hbits hsfill ⊢
  rw [hn] at hsplit ⊢
  rcases hsplit with h | ⟨y, t, h, hy⟩
  · -- only sign octets
    left
    have hlen : v.length + 1 = n := by simpa using congrArg List.length h
    refine ⟨?_, ?_⟩
    · rw [if_neg (by omega), List.getElem?_eq_none (by simp [hlen])]
      rfl
    · obtain ⟨m, rfl⟩ : ∃ m, n = m + 1 := ⟨v.length, hlen.symm⟩
      rw [h, List.replicate_succ', (intOf_replicate_append hsfill m).1]
      rcases hbits with rfl | rfl <;> decide
  · right
    rcases Nat.eq_zero_or_pos n with rfl | hpos
    · simp only [List.replicate_zero, List.nil_append, List.cons.injEq] at h
      obtain ⟨rfl, rfl⟩ := h
      refine ⟨x :: v, if_pos rfl, shortest_of_first (hsg ▸ hy), rfl, ?_, ?_⟩
      · rintro ⟨⟩
        exact hy (hsg ▸ rfl)
      · rintro ⟨⟩
        exact hy (hsg ▸ rfl)
    · have hget : (x :: v)[n]? = some y := by
        rw [h, List.getElem?_append_right (by simp), List.length_replicate, Nat.sub_self]
        rfl
      have hlen : (x :: v).length = n + (t.length + 1) := by simp [h]
      rw [if_neg hpos.ne', hget, Option.map_some, hlen]
      by_cases hsign : (y ^^^ s) &&& 0x80 ≠ 0
      · -- the last sign octet is needed
        have hne : s ≠ fill (y :: t) := by
          rintro rfl
          exact signBit_fill y t hsign
        obtain ⟨m, rfl⟩ : ∃ m, n = m + 1 := ⟨n - 1, (Nat.sub_add_cancel hpos).symm⟩
        refine ⟨s :: y :: t, ?_, shortest_of_needed hne, ?_, by simp, by simp⟩
        · rw [if_pos hsign]
          simp only [List.length_cons, Option.some.injEq]
          omega
        · rw [h, List.replicate_succ', List.append_assoc,
            (intOf_replicate_append (w := [s] ++ y :: t) hsfill m).1]
          rfl
      · have hfill : fill (y :: t) = s := by
          rw [fill, isNegative_cons]
          rcases hbits with rfl | rfl
          · rw [(signBit y).2] at hsign
            rw [decide_eq_false hsign, if_neg Bool.false_ne_true]
          · rw [(signBit y).1] at hsign
            rw [decide_eq_true (by omega), if_pos rfl]
        refine ⟨y :: t, ?_, ?_, ?_, ?_, ?_⟩
        · rw [if_neg hsign]
          simp only [List.length_cons, Option.some.injEq]
          omega
        · apply shortest_of_first
          rw [signOctet_eq, fill_cons y [] t, hfill]
          exact hy
        · rw [h, (intOf_replicate_append hfill n).1]
        · rintro ⟨⟩
          exact hy (hfill ▸ rfl)
        · rintro ⟨⟩
          exact hy (hfill ▸ rfl)

/-- `ASN1intx_octets` gives the least number of octets, except for 0 and -1. -/
theorem octets_spec (x : Octet) (v : List Octet) :
    (ASN1intx_octets (x :: v) = none ∧ (intOf (x :: v) = 0 ∨ intOf (x :: v) = -1)) ∨
    (∃ n, ASN1intx_octets (x :: v) = some n ∧ IsLeast {n | FitsIn n (intOf (x :: v))} n) ∧
      intOf (x :: v) ≠ 0 ∧ intOf (x :: v) ≠ -1 := by
  refine (octets_cases x v).imp_right ?_
  rintro ⟨w, hoct, hshort, hval, h0, hff⟩
  have hleast := shortest_least hshort
  rw [← hval]
  -- 0 and -1 have one octet, of one value
  have hone {z : Int} (hfit : FitsIn 1 z) (hz : intOf w = z) : ∃ y, w = [y] := by
    have hle : w.length ≤ 1 := hleast.2 (hz ▸ hfit)
    have hpos := length_pos hshort.1
    exact List.length_eq_one_iff.mp (by omega)
  refine ⟨⟨_, hoct, hleast⟩, fun hz => ?_, fun hz => ?_⟩
  · obtain ⟨y, rfl⟩ := hone ⟨le_rfl, by norm_num, by norm_num⟩ hz
    have hall : ∀ y : BitVec 8, intOf [y] = 0 → y = 0 := by decide
    exact h0 (by rw [hall y hz])
  · obtain ⟨y, rfl⟩ := hone ⟨le_rfl, by norm_num, by norm_num⟩ hz
    have hall : ∀ y : BitVec 8, intOf [y] = -1 → y = 0xff := by decide
    exact hff (by rw [hall y hz])

theorem natOf_replicate_append (n : Nat) (w : List Octet) :
    natOf (List.replicate n 0 ++ w) = natOf w := by
  induction n with
  | zero => rfl
  | succ n ih => simpa [List.replicate_succ, natOf] using ih

/-- The octets from the first one on that is not zero. -/
theorem uoctets_cases (v : List Octet) :
    (natOf v = 0 ∧ ASN1intx_uoctets v = 0 ∧ leading 0 v = v.length) ∨
    ∃ y t, v.drop (leading 0 v) = y :: t ∧ natOf v = natOf (y :: t) ∧
      ASN1intx_uoctets v = t.length + 1 ∧ 0 < y.toNat := by
  unfold ASN1intx_uoctets
  have hsplit := leading_split 0 v
  obtain ⟨n, hn⟩ : ∃ n, leading 0 v = n := ⟨_, rfl⟩
  rw [hn] at hsplit ⊢
  rcases hsplit with h | ⟨y, t, h, hy⟩
  · have hlen : v.length = n := by simp [h]
    refine .inl ⟨?_, by omega, hlen.symm⟩
    have hzero := natOf_replicate_append n []
    rw [List.append_nil] at hzero
    rw [h, hzero, natOf]
  · refine .inr ⟨y, t, ?_, ?_, ?_, ?_⟩
    · rw [h, List.drop_left' List.length_replicate]
    · rw [h, natOf_replicate_append]
    · simp [h]
    · exact Nat.pos_of_ne_zero fun h0 => hy (BitVec.eq_of_toNat_eq h0)

/-- `ASN1intx_uoctets` gives the least number of octets of a magnitude. -/
theorem uoctets_least (v : List Octet) : IsLeast {n | natOf v < 256 ^ n} (ASN1intx_uoctets v) := by
  rcases uoctets_cases v with ⟨hval, hn, -⟩ | ⟨y, t, -, hval, hn, hy⟩
  · rw [hn, hval]
    exact ⟨Nat.one_pos, fun n _ => Nat.zero_le n⟩
  · rw [hn, hval]
    refine ⟨natOf_lt (y :: t), fun n hlt => ?_⟩
    by_contra hle
    have hpow : 256 ^ n ≤ 256 ^ t.length := Nat.pow_le_pow_right (by decide) (by omega)
    have hmul : 1 * 256 ^ t.length ≤ y.toNat * 256 ^ t.length := Nat.mul_le_mul_right _ hy
    have hlt : natOf (y :: t) < 256 ^ n := hlt
    rw [natOf] at hlt
    omega

theorem natOf_of_nonneg {v : List Octet} (h : 0 ≤ intOf v) : (natOf v : Int) = intOf v := by
  have hneg : isNegative v = false := by
    rw [← Bool.not_eq_true, ← intOf_neg_iff]
    omega
  rw [natOf_eq, hneg]
  simp

/-! ## The checks -/

theorem isUnsigned_iff {val : Intx} (h : val ≠ []) (octets : Nat) :
    isUnsigned octets val = true ↔ 0 ≤ intOf val ∧ intOf val < 256 ^ octets := by
  have hneg := (headD_negative h).trans (intOf_neg_iff val).symm
  unfold isUnsigned
  by_cases hlt : intOf val < 0
  · rw [if_pos (hneg.mpr hlt)]
    simp [hlt.not_ge]
  · rw [if_neg (hneg.not.mpr hlt), decide_eq_true_iff]
    have hval := natOf_of_nonneg (not_lt.mp hlt)
    have hleast := uoctets_least val
    constructor
    · intro hle
      refine ⟨not_lt.mp hlt, ?_⟩
      rw [← hval]
      exact_mod_cast hleast.1.trans_le (Nat.pow_le_pow_right (by decide) hle)
    · rintro ⟨-, hlt⟩
      apply hleast.2
      rw [← hval] at hlt
      exact_mod_cast hlt

theorem isSigned_iff {val : Intx} {n : Nat} (hoct : ASN1intx_octets val = some n)
    (hleast : IsLeast {n | FitsIn n (intOf val)} n) {octets : Nat} :
    isSigned octets val = some true ↔ FitsIn octets (intOf val) := by
  rw [isSigned, hoct, Option.map_some, Option.some.injEq, decide_eq_true_iff]
  exact ⟨fun hle => hleast.1.mono hle, fun hfit => hleast.2 hfit⟩

/-! ## The conversions -/

theorem natOf_drop (v : List Octet) (k : Nat) (hk : k ≤ v.length) :
    natOf v = natOf (v.take (v.length - k)) * 256 ^ k + natOf (v.drop (v.length - k)) := by
  have h := natOf_append (v.take (v.length - k)) (v.drop (v.length - k))
  rw [List.take_append_drop, List.length_drop] at h
  rw [h]
  congr
  omega

theorem joined_toNat {w : Nat} (val : Intx) {k : Nat} (hk : k ≤ val.length) (hw : 8 * k ≤ w) :
    (joined w val k).toNat = natOf (val.drop (val.length - k)) := by
  induction k with
  | zero => simp [joined, natOf]
  | succ k ih =>
    have hlt : val.length - (k + 1) < val.length := by omega
    have hdrop : val.drop (val.length - (k + 1)) =
        fromEnd val (k + 1) :: val.drop (val.length - k) := by
      rw [List.drop_eq_getElem_cons hlt, fromEnd, List.getD_eq_getElem?_getD,
        List.getElem?_eq_getElem hlt, Option.getD_some]
      congr
      omega
    have hlen : (val.drop (val.length - k)).length = k := by rw [List.length_drop]; omega
    have hx := (fromEnd val (k + 1)).isLt
    have hlow := natOf_lt (val.drop (val.length - k))
    have hpow : 256 ^ k = 2 ^ (8 * k) := by rw [Nat.pow_mul]
    have hfits : (fromEnd val (k + 1)).toNat * 2 ^ (8 * k) < 2 ^ w := by
      calc (fromEnd val (k + 1)).toNat * 2 ^ (8 * k)
          < 2 ^ 8 * 2 ^ (8 * k) := Nat.mul_lt_mul_of_pos_right hx (Nat.two_pow_pos _)
        _ = 2 ^ (8 * (k + 1)) := by rw [← Nat.pow_add]; congr 1; omega
        _ ≤ 2 ^ w := Nat.pow_le_pow_right (by decide) hw
    rw [hlen, hpow] at hlow
    rw [hdrop, natOf, hlen, joined, BitVec.toNat_or, BitVec.toNat_shiftLeft,
      ih (by omega) (by omega), BitVec.toNat_setWidth,
      Nat.mod_eq_of_lt (hx.trans_le (Nat.pow_le_pow_right (by decide) (by omega))),
      Nat.shiftLeft_eq, Nat.mod_eq_of_lt hfits, Nat.or_comm, ← Nat.shiftLeft_eq,
      ← Nat.shiftLeft_add_eq_or_of_lt hlow, Nat.shiftLeft_eq, hpow]

theorem ofInt_of_toNat {w : Nat} {x : BitVec w} {z : Int} (k : Int)
    (h : (x.toNat : Int) = z + k * 2 ^ w) : x = BitVec.ofInt w z := by
  apply BitVec.eq_of_toInt_eq
  have hmod := Int.add_mul_bmod_self_right z k (2 ^ w)
  push_cast at hmod
  rw [BitVec.toInt_ofInt, BitVec.toInt_eq_toNat_bmod, h, ← hmod]

/-- As many octets as the type has, or more: the value modulo the type. -/
theorem joined_eq_ofInt {w : Nat} {val : Intx} {k : Nat} (hk : k ≤ val.length) (hw : 8 * k = w) :
    joined w val k = BitVec.ofInt w (intOf val) := by
  have hpow : (256 : Int) ^ k = 2 ^ w := by
    rw [← hw, pow_mul]
    norm_num
  have hlen : (256 : Int) ^ val.length = 256 ^ (val.length - k) * 2 ^ w := by
    rw [← hpow, ← pow_add, Nat.sub_add_cancel hk]
  have hsum : (natOf val : Int) = natOf (val.take (val.length - k)) * 256 ^ k +
      natOf (val.drop (val.length - k)) := by
    exact_mod_cast natOf_drop val k hk
  have hval := natOf_eq val
  refine ofInt_of_toNat ((if isNegative val then 1 else 0) * 256 ^ (val.length - k) -
    natOf (val.take (val.length - k))) ?_
  rw [joined_toNat val hk hw.le]
  rw [hpow] at hsum
  rw [hlen] at hval
  linarith

/-- Fewer octets than the type has, with the octets of the sign in front. -/
theorem joined_mask {w : Nat} {val : Intx} {k : Nat} (hk : val.length = k) (hk0 : k ≠ 0)
    (hw : 8 * k ≤ w) (mask : BitVec w) (hmask : mask.toNat = (2 ^ (w - 8 * k) - 1) <<< (8 * k)) :
    joined w val k ||| signMask val k mask = BitVec.ofInt w (intOf val) := by
  have hnat : (joined w val k).toNat = natOf val := by
    rw [joined_toNat val hk.ge hw, hk, Nat.sub_self, List.drop_zero]
  have hfirst : (fromEnd val k).toNat > 0x7f ↔ isNegative val = true := by
    cases val with
    | nil => exact absurd hk.symm hk0
    | cons x v =>
      rw [fromEnd, hk, Nat.sub_self, List.getD_cons_zero]
      exact decide_eq_true_iff.symm
  have hpow : 256 ^ k = 2 ^ (8 * k) := by rw [Nat.pow_mul]
  have hlow : natOf val < 2 ^ (8 * k) := by
    rw [← hpow, ← hk]
    exact natOf_lt val
  have hval := natOf_eq val
  rw [hk] at hval
  unfold signMask
  cases hneg : isNegative val with
  | false =>
    rw [hneg] at hval
    rw [if_neg (by rw [hfirst, hneg]; exact Bool.false_ne_true)]
    have hor : joined w val k ||| 0 = joined w val k := BitVec.or_zero
    refine ofInt_of_toNat 0 ?_
    rw [hor, hnat, hval]
    simp
  | true =>
    rw [hneg, if_pos rfl] at hval
    rw [if_pos (hfirst.mpr hneg)]
    refine ofInt_of_toNat 1 ?_
    have hsplit : (2 ^ (w - 8 * k) - 1) * 2 ^ (8 * k) + 2 ^ (8 * k) = 2 ^ w := by
      rw [← Nat.succ_mul, Nat.succ_eq_add_one, Nat.sub_add_cancel (Nat.one_le_two_pow), ← Nat.pow_add]
      congr 1
      omega
    rw [BitVec.toNat_or, hnat, hmask, Nat.or_comm, ← Nat.shiftLeft_add_eq_or_of_lt hlow,
      Nat.shiftLeft_eq]
    have hsplit : (((2 ^ (w - 8 * k) - 1) * 2 ^ (8 * k) : Nat) : Int) + 2 ^ (8 * k) = 2 ^ w := by
      exact_mod_cast hsplit
    have hpow : (256 : Int) ^ k = 2 ^ (8 * k) := by exact_mod_cast hpow
    rw [hpow] at hval
    rw [Nat.cast_add]
    linarith

theorem toInt_ofInt_of_fits {k w : Nat} (hw : w = 8 * k) {z : Int} (h : FitsIn k z) :
    (BitVec.ofInt w z).toInt = z := by
  obtain ⟨hk, hlo, hhi⟩ := h
  have hpow : (256 : Int) ^ (k - 1) * 256 = 2 ^ w := by
    rw [← pow_succ, Nat.sub_add_cancel hk, hw, pow_mul]
    norm_num
  rw [BitVec.toInt_ofInt]
  apply Int.bmod_eq_of_le_mul_two
  · push_cast
    rw [← hpow]
    linarith
  · push_cast
    rw [← hpow]
    linarith

/-- Sign extension of the value of a whole string. -/
theorem toInt_signExtend_joined {val : Intx} {k v w : Nat} (hv : 8 * k = v)
    (hk : val.length = k) (hk0 : k ≠ 0) (hle : v ≤ w) :
    ((joined v val k).signExtend w).toInt = intOf val := by
  have hne : val ≠ [] := by
    rintro rfl
    exact hk0 hk.symm
  rw [BitVec.toInt_signExtend_of_le hle, joined_eq_ofInt hk.ge hv,
    toInt_ofInt_of_fits hv.symm (hk ▸ fitsIn_length hne)]

theorem toNat_joined {w : Nat} {val : Intx} {k : Nat} (hk : k ≤ val.length) (hw : 8 * k ≤ w)
    (hlo : 0 ≤ intOf val) (hhi : k = val.length ∨ intOf val < 256 ^ k) :
    ((joined w val k).toNat : Int) = intOf val := by
  have hval := natOf_of_nonneg hlo
  have hdrop := natOf_drop val k hk
  rw [joined_toNat val hk hw, ← hval]
  rcases hhi with rfl | hhi
  · rw [Nat.sub_self, List.drop_zero]
  · have hlt : natOf val < 256 ^ k := by
      rw [← hval] at hhi
      exact_mod_cast hhi
    have hzero : natOf (val.take (val.length - k)) = 0 := by
      by_contra hne
      have := Nat.mul_le_mul_right (256 ^ k) (Nat.pos_of_ne_zero hne)
      omega
    rw [hzero] at hdrop
    omega

theorem toNat_uint64 {val : Intx} (h : val ≠ []) (hlo : 0 ≤ intOf val) (hhi : intOf val < 256 ^ 8) :
    ((ASN1intx2uint64 val).toNat : Int) = intOf val := by
  have hpos := length_pos h
  unfold ASN1intx2uint64
  split
  case h_8 =>
    simp only [imp_false] at *
    exact toNat_joined (by omega) (by omega) hlo (.inr hhi)
  all_goals
    rename_i hlen
    exact toNat_joined (by omega) (by omega) hlo (.inl hlen.symm)

theorem toNat_uint32 {val : Intx} (h : val ≠ []) (hlo : 0 ≤ intOf val) (hhi : intOf val < 256 ^ 4) :
    ((ASN1intx2uint32 val).toNat : Int) = intOf val := by
  have hpos := length_pos h
  unfold ASN1intx2uint32
  split
  case h_4 =>
    simp only [imp_false] at *
    exact toNat_joined (by omega) (by omega) hlo (.inr hhi)
  all_goals
    rename_i hlen
    exact toNat_joined (by omega) (by omega) hlo (.inl hlen.symm)

theorem toNat_uint16 {val : Intx} (h : val ≠ []) (hlo : 0 ≤ intOf val) (hhi : intOf val < 256 ^ 2) :
    ((ASN1intx2uint16 val).toNat : Int) = intOf val := by
  have hpos := length_pos h
  unfold ASN1intx2uint16
  split
  · rename_i hlen
    exact toNat_joined (by omega) (by omega) hlo (.inl hlen.symm)
  · exact toNat_joined (by omega) (by omega) hlo (.inr hhi)

theorem joined_one (val : Intx) : joined 8 val 1 = fromEnd val 1 := by
  simp [joined]

theorem toNat_uint8 {val : Intx} (h : val ≠ []) (hlo : 0 ≤ intOf val) (hhi : intOf val < 256 ^ 1) :
    ((ASN1intx2uint8 val).toNat : Int) = intOf val := by
  have hpos := length_pos h
  rw [ASN1intx2uint8, ← joined_one]
  exact toNat_joined hpos (by omega) hlo (.inr hhi)

theorem toInt_int64 {val : Intx} (h : val ≠ []) (hfit : FitsIn 8 (intOf val)) :
    (ASN1intx2int64 val).toInt = intOf val := by
  have hpos := length_pos h
  unfold ASN1intx2int64
  split
  case h_1 hlen =>
    apply toInt_signExtend_joined _ hlen
    all_goals decide
  case h_2 hlen =>
    apply toInt_signExtend_joined _ hlen
    all_goals decide
  case h_3 hlen =>
    rw [joined_mask hlen (by decide) (by decide) _ (by decide),
      BitVec.toInt_signExtend_of_le (by decide)]
    exact toInt_ofInt_of_fits (k := 4) rfl ((hlen ▸ fitsIn_length h).mono (by decide))
  case h_4 hlen =>
    apply toInt_signExtend_joined _ hlen
    all_goals decide
  case h_5 hlen =>
    rw [joined_mask hlen (by decide) (by decide) _ (by decide)]
    exact toInt_ofInt_of_fits (k := 8) rfl hfit
  case h_6 hlen =>
    rw [joined_mask hlen (by decide) (by decide) _ (by decide)]
    exact toInt_ofInt_of_fits (k := 8) rfl hfit
  case h_7 hlen =>
    rw [joined_mask hlen (by decide) (by decide) _ (by decide)]
    exact toInt_ofInt_of_fits (k := 8) rfl hfit
  case h_8 =>
    simp only [imp_false] at *
    rw [joined_eq_ofInt (k := 8) (by omega) rfl]
    exact toInt_ofInt_of_fits (k := 8) rfl hfit

theorem toInt_int32 {val : Intx} (h : val ≠ []) (hfit : FitsIn 4 (intOf val)) :
    (ASN1intx2int32 val).toInt = intOf val := by
  have hpos := length_pos h
  unfold ASN1intx2int32
  split
  case h_1 hlen =>
    apply toInt_signExtend_joined _ hlen
    all_goals decide
  case h_2 hlen =>
    apply toInt_signExtend_joined _ hlen
    all_goals decide
  case h_3 hlen =>
    rw [joined_mask hlen (by decide) (by decide) _ (by decide)]
    exact toInt_ofInt_of_fits (k := 4) rfl hfit
  case h_4 =>
    simp only [imp_false] at *
    rw [joined_eq_ofInt (k := 4) (by omega) rfl]
    exact toInt_ofInt_of_fits (k := 4) rfl hfit

theorem toInt_int16 {val : Intx} (h : val ≠ []) (hfit : FitsIn 2 (intOf val)) :
    (ASN1intx2int16 val).toInt = intOf val := by
  have hpos := length_pos h
  unfold ASN1intx2int16
  split
  · rename_i hlen
    apply toInt_signExtend_joined _ hlen
    all_goals decide
  · rw [joined_eq_ofInt (k := 2) (by omega) rfl]
    exact toInt_ofInt_of_fits (k := 2) rfl hfit

theorem toInt_int8 {val : Intx} (h : val ≠ []) (hfit : FitsIn 1 (intOf val)) :
    (ASN1intx2int8 val).toInt = intOf val := by
  rw [ASN1intx2int8, ← joined_one, joined_eq_ofInt (length_pos h) rfl]
  exact toInt_ofInt_of_fits (k := 1) rfl hfit

/-! ## The logarithms -/

theorem octetBits_size {x : Octet} (h : 0 < x.toNat) : octetBits x = Nat.size x.toNat := by
  have hall : ∀ x : BitVec 8, 0 < x.toNat →
      x.toNat < 2 ^ octetBits x ∧ 2 ^ (octetBits x - 1) ≤ x.toNat ∧ 0 < octetBits x := by
    decide
  obtain ⟨hlt, hle, hpos⟩ := hall x h
  have h1 := Nat.size_le.mpr hlt
  have h2 := Nat.lt_size.mpr hle
  omega

theorem size_mul_add {x p n : Nat} (hx : 0 < x) (hp : p < 2 ^ n) :
    Nat.size (x * 2 ^ n + p) = n + Nat.size x := by
  have hpos : 0 < Nat.size x := Nat.size_pos.mpr hx
  apply le_antisymm
  · apply Nat.size_le.mpr
    have hlt := Nat.mul_le_mul_right (2 ^ n) (Nat.lt_size_self x)
    rw [Nat.succ_mul] at hlt
    rw [Nat.pow_add, Nat.mul_comm (2 ^ n)]
    omega
  · have hle : 2 ^ (Nat.size x - 1) ≤ x := Nat.lt_size.mp (by omega)
    have hmul := Nat.mul_le_mul_right (2 ^ n) hle
    have : n + Nat.size x - 1 < Nat.size (x * 2 ^ n + p) := by
      apply Nat.lt_size.mpr
      have hexp : 2 ^ (n + Nat.size x - 1) = 2 ^ (Nat.size x - 1) * 2 ^ n := by
        rw [← Nat.pow_add]
        congr 1
        omega
      omega
    omega

/-- The bits of the value less one, none for zero and negative values. -/
theorem intx_log2_eq {arg : Intx} (h : arg ≠ []) :
    ASN1intx_log2 arg = Nat.size (intOf arg - 1).toNat := by
  obtain ⟨hval, hshort⟩ := dec_computes h
  have hneg := (headD_negative hshort.1).trans (intOf_neg_iff (ASN1intx_dec arg)).symm
  rw [hval] at hneg
  simp only [ASN1intx_log2]
  by_cases hlt : intOf arg - 1 < 0
  · rw [if_pos (hneg.mpr hlt), Int.toNat_of_nonpos hlt.le]
    rfl
  · rw [if_neg (hneg.not.mpr hlt)]
    have hnat := natOf_of_nonneg (v := ASN1intx_dec arg) (by omega)
    rw [hval] at hnat
    have hsub : (intOf arg - 1).toNat = natOf (ASN1intx_dec arg) := by omega
    rw [hsub]
    rcases uoctets_cases (ASN1intx_dec arg) with ⟨h0, -, hall⟩ | ⟨y, t, hdrop, hsame, -, hy⟩
    · rw [if_pos hall.ge, h0]
      rfl
    · have hlen : (ASN1intx_dec arg).length - leading 0 (ASN1intx_dec arg) = t.length + 1 := by
        rw [← List.length_drop, hdrop]
        rfl
      have hget : (ASN1intx_dec arg).getD (leading 0 (ASN1intx_dec arg)) 0 = y := by
        have hhead := congrArg (fun l : List Octet => l.headD 0) hdrop
        simpa [List.headD_eq_head?_getD, List.head?_drop] using hhead
      have hpow : 256 ^ t.length = 2 ^ (8 * t.length) := by rw [Nat.pow_mul]
      have hlow := natOf_lt t
      rw [hpow] at hlow
      rw [if_neg (by omega), hget, hsame, natOf, hpow, size_mul_add hy hlow, octetBits_size hy]
      congr 1
      omega

theorem and_one_shiftLeft (arg : BitVec 32) {n : Nat} (h : n < 32) :
    arg &&& (1 <<< n) ≠ 0 ↔ arg.toNat / 2 ^ n % 2 = 1 := by
  have hand := BitVec.and_twoPow arg n
  have hbit : arg.getLsbD n = decide (arg.toNat / 2 ^ n % 2 = 1) := Nat.testBit_eq_decide_div_mod_eq
  have hne : BitVec.twoPow 32 n ≠ 0 := by
    intro h0
    have hnat := congrArg BitVec.toNat h0
    rw [BitVec.toNat_twoPow, Nat.mod_eq_of_lt (Nat.pow_lt_pow_right (by decide) h)] at hnat
    exact (Nat.two_pow_pos n).ne' hnat
  change arg &&& BitVec.twoPow 32 n ≠ 0 ↔ _
  rw [hand, hbit]
  by_cases hdiv : arg.toNat / 2 ^ n % 2 = 1
  · simpa [hdiv] using hne
  · simp [hdiv]

theorem log2Loop_eq (arg : BitVec 32) (n : Nat) (hn : n ≤ 32) :
    log2Loop arg n = Nat.size (arg.toNat % 2 ^ n) := by
  induction n with
  | zero => simp [log2Loop, Nat.mod_one]
  | succ n ih =>
    have hbit := and_one_shiftLeft arg (n := n) (by omega)
    rw [log2Loop, Nat.mod_pow_succ]
    by_cases h : arg.toNat / 2 ^ n % 2 = 1
    · have hlt := Nat.mod_lt arg.toNat (Nat.two_pow_pos n)
      have hsize := size_mul_add Nat.one_pos hlt
      rw [Nat.one_mul, Nat.add_comm, Nat.size_one] at hsize
      rw [if_pos (hbit.mpr h), h, Nat.mul_one, hsize]
    · have h0 : arg.toNat / 2 ^ n % 2 = 0 := by omega
      rw [if_neg (hbit.not.mpr h), ih (by omega), h0, Nat.mul_zero, Nat.add_zero]

theorem uint32_log2_eq {z : Int} (hpos : 0 < z) (hlt : z < 256 ^ 4) :
    ASN1uint32_log2 (BitVec.ofInt 32 z) = Nat.size (z - 1).toNat := by
  have hsub : (BitVec.ofInt 32 z - 1).toNat = (z - 1).toNat := by
    obtain ⟨n, rfl⟩ := Int.eq_ofNat_of_zero_le hpos.le
    have hn : n < 2 ^ 32 := by omega
    rw [BitVec.ofInt_natCast, BitVec.toNat_sub, BitVec.toNat_ofNat]
    change (2 ^ 32 - 1 + n % 2 ^ 32) % 2 ^ 32 = _
    omega
  rw [ASN1uint32_log2, log2Loop_eq _ 32 le_rfl, hsub, Nat.mod_eq_of_lt]
  omega

/-- The octets of the value less one. -/
theorem log256_eq {arg : Intx} (h : arg ≠ []) (hlo : 0 ≤ intOf arg) (hhi : intOf arg < 256 ^ 4) :
    ASN1intx_log256 arg = ASN1uint32_log256 (BitVec.ofInt 32 (intOf arg)) := by
  obtain ⟨hval, hshort⟩ := dec_computes h
  have hneg := (headD_negative hshort.1).trans (intOf_neg_iff (ASN1intx_dec arg)).symm
  have hleast := uoctets_least (ASN1intx_dec arg)
  have hnat := natOf_of_nonneg (v := ASN1intx_dec arg)
  rw [hval] at hneg hnat
  obtain ⟨n, hn⟩ := Int.eq_ofNat_of_zero_le hlo
  have hlt : n < 2 ^ 32 := by omega
  have hword : (BitVec.ofInt 32 (intOf arg)).toNat = n := by
    rw [hn]
    exact (BitVec.toNat_ofNat n 32).trans (Nat.mod_eq_of_lt hlt)
  simp only [ASN1intx_log256, ASN1uint32_log256, hword]
  rw [hn] at hneg hnat
  by_cases h0 : n = 0
  · rw [if_pos (hneg.mpr (by omega)), h0]
    rfl
  · have hsub : natOf (ASN1intx_dec arg) = n - 1 := by
      have := hnat (by omega)
      omega
    rw [if_neg (hneg.not.mpr (by omega))]
    rw [hsub] at hleast
    change ASN1intx_uoctets (ASN1intx_dec arg) = _
    have unique {k : Nat} (hk : IsLeast {m | n - 1 < 256 ^ m} k) :
        ASN1intx_uoctets (ASN1intx_dec arg) = k := hleast.unique hk
    have least {k : Nat} (hup : n - 1 < 256 ^ k) (hdown : k = 0 ∨ 256 ^ (k - 1) ≤ n - 1) :
        IsLeast {m | n - 1 < 256 ^ m} k := by
      refine ⟨hup, fun m hm => ?_⟩
      by_contra hlt
      have hpow : 256 ^ m ≤ 256 ^ (k - 1) := Nat.pow_le_pow_right (by decide) (by omega)
      have hm : n - 1 < 256 ^ m := hm
      omega
    split_ifs
    · exact unique (least (by omega) (.inr (by omega)))
    · exact unique (least (by omega) (.inr (by omega)))
    · exact unique (least (by omega) (.inr (by omega)))
    · exact unique (least (by omega) (.inr (by omega)))
    · exact unique (least (by omega) (.inl rfl))

/-! ## Strings whose sizes are right -/

/-- Checks and sizes of the string agree with its value. -/
structure SizedRight (val : Intx) : Prop where
  octets : ∃ n, ASN1intx_octets val = some n ∧ IsLeast {n | FitsIn n (intOf val)} n
  uoctets : 0 ≤ intOf val → IsLeast {n | intOf val < 256 ^ n} (ASN1intx_uoctets val)
  isuint64 : ASN1intxisuint64 val = true ↔ 0 ≤ intOf val ∧ intOf val < 2 ^ 64
  isuint32 : ASN1intxisuint32 val = true ↔ 0 ≤ intOf val ∧ intOf val < 2 ^ 32
  isuint16 : ASN1intxisuint16 val = true ↔ 0 ≤ intOf val ∧ intOf val < 2 ^ 16
  isuint8 : ASN1intxisuint8 val = true ↔ 0 ≤ intOf val ∧ intOf val < 2 ^ 8
  isint64 : ASN1intxisint64 val = some true ↔ -2 ^ 63 ≤ intOf val ∧ intOf val < 2 ^ 63
  isint32 : ASN1intxisint32 val = some true ↔ -2 ^ 31 ≤ intOf val ∧ intOf val < 2 ^ 31
  isint16 : ASN1intxisint16 val = some true ↔ -2 ^ 15 ≤ intOf val ∧ intOf val < 2 ^ 15
  isint8 : ASN1intxisint8 val = some true ↔ -2 ^ 7 ≤ intOf val ∧ intOf val < 2 ^ 7
  uint64 : ASN1intxisuint64 val = true → ((ASN1intx2uint64 val).toNat : Int) = intOf val
  uint32 : ASN1intxisuint32 val = true → ((ASN1intx2uint32 val).toNat : Int) = intOf val
  uint16 : ASN1intxisuint16 val = true → ((ASN1intx2uint16 val).toNat : Int) = intOf val
  uint8 : ASN1intxisuint8 val = true → ((ASN1intx2uint8 val).toNat : Int) = intOf val
  int64 : ASN1intxisint64 val = some true → (ASN1intx2int64 val).toInt = intOf val
  int32 : ASN1intxisint32 val = some true → (ASN1intx2int32 val).toInt = intOf val
  int16 : ASN1intxisint16 val = some true → (ASN1intx2int16 val).toInt = intOf val
  int8 : ASN1intxisint8 val = some true → (ASN1intx2int8 val).toInt = intOf val
  log2 : 0 ≤ intOf val → intOf val < 2 ^ 32 →
    ASN1intx_log2 val = ASN1uint32_log2 (BitVec.ofInt 32 (intOf val))
  log256 : 0 ≤ intOf val → intOf val < 2 ^ 32 →
    ASN1intx_log256 val = ASN1uint32_log256 (BitVec.ofInt 32 (intOf val))

theorem sizedRight_of {val : Intx} (h : val ≠ []) {n : Nat} (hoct : ASN1intx_octets val = some n)
    (hleast : IsLeast {n | FitsIn n (intOf val)} n) (h0 : intOf val ≠ 0) : SizedRight val := by
  have hsigned (octets : Nat) : isSigned octets val = some true ↔ FitsIn octets (intOf val) :=
    isSigned_iff hoct hleast
  have hunsigned := isUnsigned_iff h
  exact {
    octets := ⟨n, hoct, hleast⟩
    uoctets := by
      intro hlo
      have hval := natOf_of_nonneg hlo
      have huoct := uoctets_least val
      constructor
      · have := huoct.1
        rw [← hval]
        exact_mod_cast this
      · intro m hm
        apply huoct.2
        have hm : intOf val < 256 ^ m := hm
        rw [← hval] at hm
        exact_mod_cast hm
    isuint64 := hunsigned 8
    isuint32 := hunsigned 4
    isuint16 := hunsigned 2
    isuint8 := hunsigned 1
    isint64 := (hsigned 8).trans (by simp [FitsIn])
    isint32 := (hsigned 4).trans (by simp [FitsIn])
    isint16 := (hsigned 2).trans (by simp [FitsIn])
    isint8 := (hsigned 1).trans (by simp [FitsIn])
    uint64 := fun hok => toNat_uint64 h ((hunsigned 8).mp hok).1 ((hunsigned 8).mp hok).2
    uint32 := fun hok => toNat_uint32 h ((hunsigned 4).mp hok).1 ((hunsigned 4).mp hok).2
    uint16 := fun hok => toNat_uint16 h ((hunsigned 2).mp hok).1 ((hunsigned 2).mp hok).2
    uint8 := fun hok => toNat_uint8 h ((hunsigned 1).mp hok).1 ((hunsigned 1).mp hok).2
    int64 := fun hok => toInt_int64 h ((hsigned 8).mp hok)
    int32 := fun hok => toInt_int32 h ((hsigned 4).mp hok)
    int16 := fun hok => toInt_int16 h ((hsigned 2).mp hok)
    int8 := fun hok => toInt_int8 h ((hsigned 1).mp hok)
    log2 := by
      intro hlo hhi
      rw [intx_log2_eq h, uint32_log2_eq (by omega) (by omega)]
    log256 := fun hlo hhi => log256_eq h hlo (by omega) }

/-- For every octet string the sizes are right if and only if its value is neither 0 nor -1. -/
theorem sizedRight_iff (x : Octet) (v : List Octet) :
    SizedRight (x :: v) ↔ intOf (x :: v) ≠ 0 ∧ intOf (x :: v) ≠ -1 := by
  constructor
  · intro h
    obtain ⟨n, hoct, -⟩ := h.octets
    rcases octets_spec x v with ⟨hnone, -⟩ | ⟨-, hne⟩
    · rw [hnone] at hoct
      cases hoct
    · exact hne
  · rintro ⟨h0, h1⟩
    rcases octets_spec x v with ⟨-, h | h⟩ | ⟨⟨n, hoct, hleast⟩, -⟩
    · exact absurd h h0
    · exact absurd h h1
    · exact sizedRight_of (List.cons_ne_nil _ _) hoct hleast h0

/-- The octets of zero: the octet behind the string is read. -/
theorem octets_zero : ¬ SizedRight [0] := by
  intro h
  obtain ⟨n, hoct, -⟩ := h.octets
  exact nomatch hoct

end SdkTools.Asn1
