import SdkTools.Asn1.PerInteger
import SdkTools.Asn1.ValueSets
import Mathlib.Data.Set.Card
import Mathlib.Data.Int.Interval

/-!
# What the PER sizes can hold

The bounds of a finite root, the field for its offsets, the C type for its values, and the
number of its values.
-/

namespace SdkTools.Asn1

set_option autoImplicit false

open Lib.TwosComplement

/-- Non-empty ranges with finite ends, in order and apart from each other. -/
structure FiniteReduced {α : Type} [BoundValue α] (l : List (ValueConstraint α)) : Prop where
  finite : ∀ c ∈ l, c.lower.isMin = false ∧ c.upper.isMax = false
  nonempty : ∀ c ∈ l, ∃ x, c.Has x
  apart : l.Pairwise fun c d => ∃ g, (∀ x, c.Has x → x < g) ∧ ∀ x, d.Has x → g < x

/-- The values of a list of integer ranges. -/
def InRoot (l : List (ValueConstraint IntBound)) (x : Int) : Prop := ∃ c ∈ l, c.ints.Has x

/-! ## The bounds -/

theorem admits_lower {e : LowerEndPoint Int} {x : Int} : e.Admits x ↔ e.norm ≤ (x : WithBot Int) := by
  rcases e with o | ⟨v, _ | _⟩
  · simp [LowerEndPoint.Admits, LowerEndPoint.norm]
  · simp [LowerEndPoint.Admits, LowerEndPoint.norm]
  · simp only [LowerEndPoint.Admits, LowerEndPoint.norm, WithBot.coe_le_coe]
    exact Iff.rfl

theorem admits_upper {e : UpperEndPoint Int} {x : Int} : e.Admits x ↔ (x : WithTop Int) ≤ e.norm := by
  rcases e with o | ⟨v, _ | _⟩
  · simp [UpperEndPoint.Admits, UpperEndPoint.norm]
  · simp [UpperEndPoint.Admits, UpperEndPoint.norm]
  · simp only [UpperEndPoint.Admits, UpperEndPoint.norm, WithTop.coe_le_coe]
    change x < v ↔ x ≤ v - 1
    omega

theorem minLower_spec (lower : Option (LowerEndPoint IntBound)) (lo : LowerEndPoint IntBound) :
    ∃ l, minLower lower lo = some l ∧ (l = lo ∨ lower = some l) ∧ l.ints.norm ≤ lo.ints.norm ∧
      ∀ l', lower = some l' → l.ints.norm ≤ l'.ints.norm := by
  cases lower with
  | none => exact ⟨lo, rfl, .inl rfl, le_rfl, fun _ h => nomatch h⟩
  | some l =>
    simp only [minLower, cmpLowerEndPoint_eq]
    split_ifs with hcmp
    · refine ⟨lo, rfl, .inl rfl, le_rfl, ?_⟩
      rintro l' ⟨⟩
      exact cmpValue_ge_zero.mp hcmp.le
    · refine ⟨l, rfl, .inr rfl, cmpValue_le_zero.mp (not_lt.mp hcmp), ?_⟩
      rintro l' ⟨⟩
      exact le_rfl

theorem maxUpper_spec (upper : Option (UpperEndPoint IntBound)) (up : UpperEndPoint IntBound) :
    ∃ u, maxUpper upper up = some u ∧ (u = up ∨ upper = some u) ∧ up.ints.norm ≤ u.ints.norm ∧
      ∀ u', upper = some u' → u'.ints.norm ≤ u.ints.norm := by
  cases upper with
  | none => exact ⟨up, rfl, .inl rfl, le_rfl, fun _ h => nomatch h⟩
  | some u =>
    simp only [maxUpper, cmpUpperEndPoint_eq]
    split_ifs with hcmp
    · refine ⟨up, rfl, .inl rfl, le_rfl, ?_⟩
      rintro u' ⟨⟩
      exact cmpValue_le_zero.mp hcmp.le
    · refine ⟨u, rfl, .inr rfl, cmpValue_ge_zero.mp (not_lt.mp hcmp), ?_⟩
      rintro u' ⟨⟩
      exact le_rfl

/-- The end points that `GetMinMax` starts with or finds in the list, with all values between. -/
structure Bounds (l : List (ValueConstraint IntBound))
    (b b' : Option (LowerEndPoint IntBound) × Option (UpperEndPoint IntBound)) : Prop where
  lower_mem : ∀ e, b'.1 = some e → b.1 = some e ∨ ∃ c ∈ l, c.lower = e
  upper_mem : ∀ e, b'.2 = some e → b.2 = some e ∨ ∃ c ∈ l, c.upper = e
  lower_le : ∀ e, (b.1 = some e ∨ ∃ c ∈ l, c.lower = e) →
    ∃ e', b'.1 = some e' ∧ e'.ints.norm ≤ e.ints.norm
  le_upper : ∀ e, (b.2 = some e ∨ ∃ c ∈ l, c.upper = e) →
    ∃ e', b'.2 = some e' ∧ e.ints.norm ≤ e'.ints.norm

theorem getMinMax_bounds (l : List (ValueConstraint IntBound))
    (b : Option (LowerEndPoint IntBound) × Option (UpperEndPoint IntBound)) :
    Bounds l b (GetMinMax l b) := by
  induction l generalizing b with
  | nil =>
    refine ⟨fun _ h => .inl h, fun _ h => .inl h, fun e h => ?_, fun e h => ?_⟩
    · rcases h with h | ⟨c, hc, -⟩
      · exact ⟨e, h, le_rfl⟩
      · cases hc
    · rcases h with h | ⟨c, hc, -⟩
      · exact ⟨e, h, le_rfl⟩
      · cases hc
  | cons c l ih =>
    obtain ⟨lo, hlo, hlomem, hlole, hlomin⟩ := minLower_spec b.1 c.lower
    obtain ⟨up, hup, hupmem, huple, hupmax⟩ := maxUpper_spec b.2 c.upper
    have h := ih (minLower b.1 c.lower, maxUpper b.2 c.upper)
    have hfold : GetMinMax (c :: l) b = GetMinMax l (minLower b.1 c.lower, maxUpper b.2 c.upper) :=
      rfl
    rw [hfold]
    obtain ⟨elo, helo, helole⟩ := h.lower_le lo (.inl hlo)
    obtain ⟨eup, heup, heuple⟩ := h.le_upper up (.inl hup)
    refine ⟨fun e he => ?_, fun e he => ?_, fun e he => ?_, fun e he => ?_⟩
    · rcases h.lower_mem e he with heq | ⟨d, hd, rfl⟩
      · obtain rfl : lo = e := Option.some.inj (hlo.symm.trans heq)
        rcases hlomem with rfl | hb
        · exact .inr ⟨c, List.mem_cons_self, rfl⟩
        · exact .inl hb
      · exact .inr ⟨d, List.mem_cons_of_mem _ hd, rfl⟩
    · rcases h.upper_mem e he with heq | ⟨d, hd, rfl⟩
      · obtain rfl : up = e := Option.some.inj (hup.symm.trans heq)
        rcases hupmem with rfl | hb
        · exact .inr ⟨c, List.mem_cons_self, rfl⟩
        · exact .inl hb
      · exact .inr ⟨d, List.mem_cons_of_mem _ hd, rfl⟩
    · rcases he with hb | ⟨d, hd, rfl⟩
      · exact ⟨elo, helo, helole.trans (hlomin e hb)⟩
      · rcases List.mem_cons.mp hd with rfl | hd
        · exact ⟨elo, helo, helole.trans hlole⟩
        · exact h.lower_le _ (.inr ⟨d, hd, rfl⟩)
    · rcases he with hb | ⟨d, hd, rfl⟩
      · exact ⟨eup, heup, (hupmax e hb).trans heuple⟩
      · rcases List.mem_cons.mp hd with rfl | hd
        · exact ⟨eup, heup, huple.trans heuple⟩
        · exact h.le_upper _ (.inr ⟨d, hd, rfl⟩)

theorem norm_ge_raw (lb : IntBound) (o : Bool) :
    (lb.toInt : WithBot Int) ≤ (LowerEndPoint.value lb o).ints.norm := by
  cases o with
  | false => exact le_rfl
  | true =>
    apply WithBot.coe_le_coe.mpr
    change lb.toInt ≤ lb.toInt + 1
    omega

theorem norm_le_raw (ub : IntBound) (o : Bool) :
    (UpperEndPoint.value ub o).ints.norm ≤ (ub.toInt : WithTop Int) := by
  cases o with
  | false => exact le_rfl
  | true =>
    apply WithTop.coe_le_coe.mpr
    change ub.toInt - 1 ≤ ub.toInt
    omega

theorem Bounds.lower_bound {l : List (ValueConstraint IntBound)}
    {b b' : Option (LowerEndPoint IntBound) × Option (UpperEndPoint IntBound)} (h : Bounds l b b')
    {lb : IntBound} {o : Bool} (hlower : b'.1 = some (.value lb o)) {x : Int} {e : LowerEndPoint IntBound}
    (he : b.1 = some e ∨ ∃ c ∈ l, c.lower = e) (hx : e.ints.Admits x) : lb.toInt ≤ x := by
  obtain ⟨e', he', hle⟩ := h.lower_le e he
  obtain rfl := Option.some.inj (hlower.symm.trans he')
  exact WithBot.coe_le_coe.mp ((norm_ge_raw lb o).trans (hle.trans (admits_lower.mp hx)))

theorem Bounds.upper_bound {l : List (ValueConstraint IntBound)}
    {b b' : Option (LowerEndPoint IntBound) × Option (UpperEndPoint IntBound)} (h : Bounds l b b')
    {ub : IntBound} {o : Bool} (hupper : b'.2 = some (.value ub o)) {x : Int} {e : UpperEndPoint IntBound}
    (he : b.2 = some e ∨ ∃ c ∈ l, c.upper = e) (hx : e.ints.Admits x) : x ≤ ub.toInt := by
  obtain ⟨e', he', hle⟩ := h.le_upper e he
  obtain rfl := Option.some.inj (hupper.symm.trans he')
  exact WithTop.coe_le_coe.mp ((admits_upper.mp hx).trans (hle.trans (norm_le_raw ub o)))

theorem lower_value {e : LowerEndPoint IntBound} (h : e.ints.isMin = false) :
    ∃ lb o, e = .value lb o := by
  cases e with
  | min o => cases h
  | value lb o => exact ⟨lb, o, rfl⟩

theorem upper_value {e : UpperEndPoint IntBound} (h : e.ints.isMax = false) :
    ∃ ub o, e = .value ub o := by
  cases e with
  | max o => cases h
  | value ub o => exact ⟨ub, o, rfl⟩

/-- The bounds of a finite root. -/
theorem finite_bounds {l : List (ValueConstraint IntBound)} (hne : l ≠ [])
    (h : FiniteReduced (l.map ValueConstraint.ints)) :
    ∃ lb o ub p, GetMinMax l (none, none) = (some (.value lb o), some (.value ub p)) ∧
      (∀ x, InRoot l x → lb.toInt ≤ x ∧ x ≤ ub.toInt) ∧ lb.toInt ≤ ub.toInt := by
  have hb := getMinMax_bounds l (none, none)
  obtain ⟨c, hc⟩ := List.exists_mem_of_ne_nil l hne
  have hfin {d : ValueConstraint IntBound} (hd : d ∈ l) :=
    h.finite d.ints (List.mem_map_of_mem hd)
  obtain ⟨e, he, -⟩ := hb.lower_le c.lower (.inr ⟨c, hc, rfl⟩)
  obtain ⟨f, hf, -⟩ := hb.le_upper c.upper (.inr ⟨c, hc, rfl⟩)
  obtain ⟨lb, o, rfl⟩ : ∃ lb o, e = .value lb o := by
    rcases hb.lower_mem e he with hnone | ⟨d, hd, rfl⟩
    · cases hnone
    · exact lower_value (hfin hd).1
  obtain ⟨ub, p, rfl⟩ : ∃ ub p, f = .value ub p := by
    rcases hb.upper_mem f hf with hnone | ⟨d, hd, rfl⟩
    · cases hnone
    · exact upper_value (hfin hd).2
  have hin : ∀ x, InRoot l x → lb.toInt ≤ x ∧ x ≤ ub.toInt := by
    rintro x ⟨d, hd, hlo, hhi⟩
    exact ⟨hb.lower_bound he (.inr ⟨d, hd, rfl⟩) hlo, hb.upper_bound hf (.inr ⟨d, hd, rfl⟩) hhi⟩
  obtain ⟨x, hx⟩ := h.nonempty c.ints (List.mem_map_of_mem hc)
  obtain ⟨hlo, hhi⟩ := hin x ⟨c, hc, hx⟩
  exact ⟨lb, o, ub, p, Prod.ext he hf, hin, hlo.trans hhi⟩

/-! ## The field -/

/-- The field holds the offsets of a range of `range` values. -/
structure FieldHolds (env : Settings) (root : PERRoot) (range : Int) : Prop where
  noLength : root.Length = .noLength → range ≤ 2 ^ root.NBits
  length : root.Length = .length → range ≤ 256 ^ root.LUpperVal
  unaligned : env.unaligned = true →
    root.Length = .noLength ∧ ∀ n, range ≤ 2 ^ n → root.NBits ≤ n

theorem log2_range {range : Intx} (h : range ≠ []) (hpos : 1 ≤ intOf range) (n : Nat) :
    intOf range ≤ 2 ^ n ↔ ASN1intx_log2 range ≤ n := by
  rw [intx_log2_eq h, Nat.size_le]
  zify
  rw [Int.toNat_of_nonneg (by omega)]
  omega

theorem log256_range {range : Intx} (h : range ≠ []) (hpos : 1 ≤ intOf range) :
    intOf range ≤ 256 ^ ASN1intx_log256 range := by
  obtain ⟨hval, hshort⟩ := dec_computes h
  have hneg := (headD_negative hshort.1).trans (intOf_neg_iff (ASN1intx_dec range)).symm
  have hnat := natOf_of_nonneg (v := ASN1intx_dec range) (by omega)
  have hlt : natOf (ASN1intx_dec range) < 256 ^ ASN1intx_uoctets (ASN1intx_dec range) :=
    (uoctets_least (ASN1intx_dec range)).1
  zify at hlt
  rw [ASN1intx_log256, if_neg (by rw [hneg]; omega)]
  change intOf range ≤ 256 ^ ASN1intx_uoctets (ASN1intx_dec range)
  omega

theorem constrainedField_holds (env : Settings) {root : PERRoot} {range : Intx}
    (hroot : root.Length = .noLength) (h : range ≠ []) (hpos : 1 ≤ intOf range) :
    FieldHolds env (constrainedField env root range) (intOf range) := by
  have h1 := (cmp_spec range [1]).2
  have h256 := cmp_spec range [1, 0]
  have h64K := cmp_spec range [1, 0, 0]
  have hv1 : intOf ([1] : Intx) = 1 := by decide
  have hv256 : intOf ([1, 0] : Intx) = 256 := by decide
  have hv64K : intOf ([1, 0, 0] : Intx) = 65536 := by decide
  rw [hv1] at h1
  rw [hv256] at h256
  rw [hv64K] at h64K
  have hlog := log2_range h hpos
  unfold constrainedField
  split_ifs with c1 c2 c3 c4
  · rw [h1] at c1
    refine ⟨fun _ => by rw [c1]; norm_num, fun hlen => ?_, fun _ => ⟨hroot, fun n _ => Nat.zero_le n⟩⟩
    exact absurd (hroot.symm.trans hlen) (by decide)
  · refine ⟨fun _ => (hlog _).mpr le_rfl, fun hlen => ?_, fun _ => ⟨hroot, fun n hn => (hlog n).mp hn⟩⟩
    exact absurd (hroot.symm.trans hlen) (by decide)
  · rw [h256.2] at c3
    refine ⟨fun _ => by rw [c3]; norm_num, fun hlen => ?_, fun hun => absurd (.inr hun) c2⟩
    exact absurd (hroot.symm.trans hlen) (by decide)
  · refine ⟨fun _ => ?_, fun hlen => ?_, fun hun => absurd (.inr hun) c2⟩
    · rcases lt_or_eq_of_le c4 with hlt | heq
      · have := h64K.1.mp hlt
        norm_num
        omega
      · rw [h64K.2.mp heq]
        norm_num
    · exact absurd (hroot.symm.trans hlen) (by decide)
  · refine ⟨fun hlen => ?_, fun _ => log256_range h hpos, fun hun => absurd (.inr hun) c2⟩
    cases hlen

/-- `ExaminePERType_Integer` on a finite root. -/
theorem examine_finite (env : Settings) {type : IntegerType} (sign : Int)
    (hcons : type.value.type ≠ .unconstrained) (hne : type.value.root ≠ [])
    (h : FiniteReduced (type.value.root.map ValueConstraint.ints)) :
    let root := (ExaminePERType_Integer env type sign).Root
    FieldHolds env root (intOf root.UpperVal - intOf root.LowerVal + 1) ∧
      ∀ x, InRoot type.value.root x →
        0 ≤ x - intOf root.LowerVal ∧ x - intOf root.LowerVal < intOf root.UpperVal - intOf root.LowerVal + 1 := by
  obtain ⟨lb, o, ub, p, hbounds, hin, hle⟩ := finite_bounds hne h
  have hsub := sub_computes ub.2 lb.2
  have hinc := inc_computes hsub.2.1
  rw [hsub.1] at hinc
  have hpos : 1 ≤ intOf (ASN1intx_inc (ASN1intx_sub ub.val lb.val)) := by
    rw [hinc.1]
    exact Int.le_add_of_nonneg_left (sub_nonneg.mpr hle)
  have hfield (data : PERSTIData) :=
    @constrainedField_holds env
      { Data := data, Constraint := .constrained, LowerVal := lb.val, UpperVal := ub.val }
      _ rfl hinc.2.1 hpos
  have hvals (root : PERRoot) (range : Intx) :
      (constrainedField env root range).LowerVal = root.LowerVal ∧
        (constrainedField env root range).UpperVal = root.UpperVal := by
    unfold constrainedField
    split_ifs <;> exact ⟨rfl, rfl⟩
  simp only [ExaminePERType_Integer, if_neg hcons, hbounds, Option.getD_some, hvals]
  refine ⟨?_, fun x hx => ?_⟩
  · rw [← hinc.1]
    exact hfield _
  · obtain ⟨hlo, hhi⟩ := hin x hx
    change intOf lb.val ≤ x at hlo
    change x ≤ intOf ub.val at hhi
    omega

/-! ## The C type -/

/-- The values that the C type has. -/
def IntType.Has : IntType → Int → Prop
  | .uint16, x => 0 ≤ x ∧ x < 256 ^ 2
  | .uint32, x => 0 ≤ x ∧ x < 256 ^ 4
  | .uint64, x => 0 ≤ x ∧ x < 256 ^ 8
  | .int8, x => FitsIn 1 x
  | .int16, x => FitsIn 2 x
  | .int32, x => FitsIn 4 x
  | .int64, x => FitsIn 8 x
  | .intx, _ => True

theorem isSignedType_iff {val : Intx} (h : val ≠ []) {octets : Nat} (hpos : 1 ≤ octets) :
    isSignedType octets val = true ↔ FitsIn octets (intOf val) := by
  obtain ⟨x, v, rfl⟩ := List.exists_cons_of_ne_nil h
  rcases octets_spec x v with ⟨hnone, hval⟩ | ⟨⟨n, hoct, hleast⟩, -⟩
  · have hfit : FitsIn octets (intOf (x :: v)) := by
      refine FitsIn.mono (m := 1) ?_ hpos
      rcases hval with hval | hval <;> rw [hval] <;> exact ⟨le_rfl, by norm_num, by norm_num⟩
    simp [isSignedType, isSigned, hnone, hfit]
  · have hiff : isSigned octets (x :: v) = some true ↔ FitsIn octets (intOf (x :: v)) :=
      isSigned_iff hoct hleast
    rw [← hiff, isSignedType, isSigned, hoct]
    simp

theorem FitsIn.between {n : Nat} {a b x : Int} (ha : FitsIn n a) (hb : FitsIn n b) (hlo : a ≤ x)
    (hhi : x ≤ b) : FitsIn n x :=
  ⟨ha.1, ha.2.1.trans hlo, hhi.trans_lt hb.2.2⟩

/-- The type that `GetIType` chooses holds everything between the bounds. -/
theorem GetIType_has (env : Settings) (lb ub : IntBound) {x : Int} (hlo : lb.toInt ≤ x)
    (hhi : x ≤ ub.toInt) : (GetIType env lb.val ub.val).1.Has x := by
  have unsigned (n : Nat) (h : (isUnsigned n lb.val && isUnsigned n ub.val) = true) :
      0 ≤ x ∧ x < 256 ^ n := by
    rw [Bool.and_eq_true, isUnsigned_iff lb.2, isUnsigned_iff ub.2] at h
    exact ⟨h.1.1.trans hlo, hhi.trans_lt h.2.2⟩
  have signed (n : Nat) (hn : 1 ≤ n) (h : (isSignedType n lb.val && isSignedType n ub.val) = true) :
      FitsIn n x := by
    rw [Bool.and_eq_true, isSignedType_iff lb.2 hn, isSignedType_iff ub.2 hn] at h
    exact h.1.between h.2 hlo hhi
  unfold GetIType
  repeat' split
  case isTrue h => exact ⟨(unsigned 1 h).1, (unsigned 1 h).2.trans (by norm_num)⟩
  case isTrue h => exact signed 1 le_rfl h
  case isTrue h => exact unsigned 2 h
  case isTrue h => exact signed 2 (by decide) h
  case isTrue h => exact unsigned 4 h
  case isTrue h => exact signed 4 (by decide) h
  case isTrue h => exact unsigned 8 ((Bool.and_eq_true _ _).mp h).2
  case isTrue h => exact signed 8 (by decide) ((Bool.and_eq_true _ _).mp h).2
  all_goals trivial

/-- The type for an unbounded range, by the least lower end point that is found. -/
def restriction (env : Settings) (l : List (ValueConstraint IntBound)) : IntType :=
  (GetIntType env ((GetMinMax l (none, none)).1.getD (.min false)) (.max false)).1

/-- The additions that count. -/
def IntegerType.additions (type : IntegerType) : List (ValueConstraint IntBound) :=
  if type.value.type = .extended then type.value.additional else []

theorem getMinMax_append (l m : List (ValueConstraint IntBound))
    (b : Option (LowerEndPoint IntBound) × Option (UpperEndPoint IntBound)) :
    GetMinMax (l ++ m) b = GetMinMax m (GetMinMax l b) := List.foldl_append

theorem GetIntegerType_eq (env : Settings) (type : IntegerType) (sign : Int)
    (h : type.fIntx = false) :
    GetIntegerType env type sign =
      GetIntType env
        ((GetMinMax (type.value.root ++ type.additions) (none, none)).1.getD (.min false))
        ((GetMinMax (type.value.root ++ type.additions) (none, none)).2.getD (.max false)) := by
  rw [GetIntegerType, h, if_neg Bool.false_ne_true, getMinMax_append, IntegerType.additions]
  split_ifs <;> rfl

/-- Every value of root and additions is one of the C type, and the sign is set. -/
def TypeRight (env : Settings) (type : IntegerType) : Prop :=
  (∀ sign x, InRoot (type.value.root ++ type.additions) x →
    (GetIntegerType env type sign).1.Has x) ∧
    ∀ sign sign', (GetIntegerType env type sign).2 = (GetIntegerType env type sign').2

theorem IntType.bounded {t : IntType} (h : t ≠ .intx) {x : Int} (hx : t.Has x) :
    -(2 ^ 63) ≤ x ∧ x < 2 ^ 64 := by
  cases t <;> first | exact absurd rfl h | (simp only [IntType.Has, FitsIn] at hx; omega)

/-- A range without an end has values outside of every type but `ASN1intx_t`. -/
theorem exists_outside {c : ValueConstraint Int} (hne : ∃ x, c.Has x)
    (hinf : c.lower.isMin = true ∨ c.upper.isMax = true) {t : IntType} (ht : t ≠ .intx) :
    ∃ x, c.Has x ∧ ¬ t.Has x := by
  obtain ⟨x, hlo, hhi⟩ := hne
  rcases hinf with hmin | hmax
  · refine ⟨min x (-(2 ^ 63) - 1), ⟨?_, ?_⟩, fun hx => ?_⟩
    · rcases hl : c.lower with o | ⟨v, o⟩
      · trivial
      · rw [hl] at hmin
        cases hmin
    · rw [admits_upper] at hhi ⊢
      exact (WithTop.coe_le_coe.mpr (min_le_left _ _)).trans hhi
    · have := (IntType.bounded ht hx).1
      omega
  · refine ⟨max x (2 ^ 64), ⟨?_, ?_⟩, fun hx => ?_⟩
    · rw [admits_lower] at hlo ⊢
      exact hlo.trans (WithBot.coe_le_coe.mpr (le_max_left _ _))
    · rcases hu : c.upper with o | ⟨v, o⟩
      · trivial
      · rw [hu] at hmax
        cases hmax
    · have := (IntType.bounded ht hx).2
      omega

theorem norm_eq_bot {e : LowerEndPoint IntBound} (h : e.ints.norm = ⊥) : e.ints.isMin = true := by
  rcases e with o | ⟨v, _ | _⟩
  · rfl
  · exact absurd h (WithBot.coe_ne_bot)
  · exact absurd h (WithBot.coe_ne_bot)

theorem norm_eq_top {e : UpperEndPoint IntBound} (h : e.ints.norm = ⊤) : e.ints.isMax = true := by
  rcases e with o | ⟨v, _ | _⟩
  · rfl
  · exact absurd h (WithTop.coe_ne_top)
  · exact absurd h (WithTop.coe_ne_top)

/-- All end points are values: so are the bounds, and the type holds what is between. -/
theorem typeRight_finite (env : Settings) {type : IntegerType} (h : type.fIntx = false)
    (hne : type.value.root ≠ [])
    (hfin : ∀ c ∈ type.value.root ++ type.additions, c.ints.lower.isMin = false ∧ c.ints.upper.isMax = false) :
    TypeRight env type := by
  have hb := getMinMax_bounds (type.value.root ++ type.additions) (none, none)
  obtain ⟨c, hc⟩ := List.exists_mem_of_ne_nil _ (List.append_ne_nil_of_left_ne_nil hne type.additions)
  obtain ⟨e, he, -⟩ := hb.lower_le c.lower (.inr ⟨c, hc, rfl⟩)
  obtain ⟨f, hf, -⟩ := hb.le_upper c.upper (.inr ⟨c, hc, rfl⟩)
  obtain ⟨lb, o, rfl⟩ : ∃ lb o, e = .value lb o := by
    rcases hb.lower_mem e he with hnone | ⟨d, hd, rfl⟩
    · cases hnone
    · exact lower_value (hfin d hd).1
  obtain ⟨ub, p, rfl⟩ : ∃ ub p, f = .value ub p := by
    rcases hb.upper_mem f hf with hnone | ⟨d, hd, rfl⟩
    · cases hnone
    · exact upper_value (hfin d hd).2
  refine ⟨fun sign x hx => ?_, fun sign sign' => ?_⟩
  · obtain ⟨d, hd, hlo, hhi⟩ := hx
    rw [GetIntegerType_eq env type sign h, he, hf]
    exact GetIType_has env lb ub (hb.lower_bound he (.inr ⟨d, hd, rfl⟩) hlo)
      (hb.upper_bound hf (.inr ⟨d, hd, rfl⟩) hhi)
  · rw [GetIntegerType_eq env type sign h, GetIntegerType_eq env type sign' h]

/-- Some end point is infinite: the type is the one of the settings. -/
theorem getIntegerType_infinite (env : Settings) {type : IntegerType} (h : type.fIntx = false)
    (hinf : ∃ c ∈ type.value.root ++ type.additions,
      c.ints.lower.isMin = true ∨ c.ints.upper.isMax = true) (sign : Int) :
    (GetIntegerType env type sign).1 = restriction env (type.value.root ++ type.additions) := by
  have hb := getMinMax_bounds (type.value.root ++ type.additions) (none, none)
  obtain ⟨c, hc, hinf⟩ := hinf
  obtain ⟨e, he, hele⟩ := hb.lower_le c.lower (.inr ⟨c, hc, rfl⟩)
  obtain ⟨f, hf, hfle⟩ := hb.le_upper c.upper (.inr ⟨c, hc, rfl⟩)
  rw [GetIntegerType_eq env type sign h, restriction, he, hf, Option.getD_some, Option.getD_some]
  rcases e with o | ⟨lb, o⟩
  · cases f <;> rfl
  · rcases hinf with hmin | hmax
    · -- the least lower end point is infinite too
      rcases hl : c.lower with q | ⟨v, q⟩
      · rw [hl] at hele
        have hbot : (LowerEndPoint.value lb o).ints.norm = ⊥ := le_bot_iff.mp hele
        exact absurd (norm_eq_bot hbot) Bool.false_ne_true
      · simp only [ValueConstraint.ints, hl] at hmin
        cases hmin
    · rcases f with p | ⟨ub, p⟩
      · rfl
      · rcases hu : c.upper with q | ⟨v, q⟩
        · rw [hu] at hfle
          have htop : (UpperEndPoint.value ub p).ints.norm = ⊤ := top_le_iff.mp hfle
          exact absurd (norm_eq_top htop) Bool.false_ne_true
        · simp only [ValueConstraint.ints, hu] at hmax
          cases hmax

theorem infinite_of_not {a b : Bool} (h : a = false → b ≠ false) : a = true ∨ b = true := by
  cases a with
  | true => exact .inl rfl
  | false => exact .inr (Bool.eq_true_of_not_eq_false (h rfl))

/-- For a finite root the type and its sign are right, unless the directive leaves the sign
unset or an infinite addition gets a restricted type. -/
theorem typeRight_iff (env : Settings) {type : IntegerType} (hne : type.value.root ≠ [])
    (hroot : ∀ c ∈ type.value.root, c.ints.lower.isMin = false ∧ c.ints.upper.isMax = false)
    (hadd : ∀ c ∈ type.additions, ∃ x, c.ints.Has x) :
    TypeRight env type ↔ type.fIntx = false ∧
      ((∀ c ∈ type.additions, c.ints.lower.isMin = false ∧ c.ints.upper.isMax = false) ∨
        restriction env (type.value.root ++ type.additions) = .intx) := by
  constructor
  · rintro ⟨hhas, hsign⟩
    have hf : type.fIntx = false := by
      by_contra hf
      have hf : type.fIntx = true := Bool.eq_true_of_not_eq_false hf
      have hset := hsign 0 1
      simp [GetIntegerType, hf] at hset
    refine ⟨hf, ?_⟩
    by_contra hcon
    push Not at hcon
    obtain ⟨⟨c, hc, hinf⟩, hrest⟩ := hcon
    have hinf := infinite_of_not hinf
    have hmem : c ∈ type.value.root ++ type.additions := List.mem_append_right _ hc
    obtain ⟨x, hx, hout⟩ := exists_outside (hadd c hc) hinf hrest
    have htype := getIntegerType_infinite env hf ⟨c, hmem, hinf⟩ 0
    exact hout (htype ▸ hhas 0 x ⟨c, hmem, hx⟩)
  · rintro ⟨hf, hcond⟩
    by_cases hfin : ∀ c ∈ type.additions, c.ints.lower.isMin = false ∧ c.ints.upper.isMax = false
    · refine typeRight_finite env hf hne fun c hc => ?_
      rcases List.mem_append.mp hc with hc | hc
      · exact hroot c hc
      · exact hfin c hc
    · have hrest := hcond.resolve_left hfin
      push Not at hfin
      obtain ⟨c, hc, hinf⟩ := hfin
      have hinf := infinite_of_not hinf
      have htype := getIntegerType_infinite env hf ⟨c, List.mem_append_right _ hc, hinf⟩
      refine ⟨fun sign x _ => ?_, fun sign sign' => ?_⟩
      · rw [htype sign, hrest]
        trivial
      · rw [GetIntegerType_eq env type sign hf, GetIntegerType_eq env type sign' hf]

/-! ## The number of values -/

section Count
variable {α : Type} [BoundValue α]

/-- The values as integers without gaps. -/
structure Coordinates (α : Type) [BoundValue α] where
  val : α → Int
  strictMono : StrictMono val
  convex : ∀ a b z, val a ≤ z → z ≤ val b → ∃ x, val x = z

/-- The distance of the end points. -/
def Coordinates.width (K : Coordinates α) (c : ValueConstraint α) : Int :=
  match c.lower, c.upper with
  | .value lo _, .value up _ => K.val up - K.val lo
  | _, _ => 0

/-- The number of end points that are not values of the range. -/
def openEnds (c : ValueConstraint α) : Int :=
  match c.lower, c.upper with
  | .value _ o, .value _ p => (if o then 1 else 0) + if p then 1 else 0
  | _, _ => 0

def valuesOf (l : List (ValueConstraint α)) : Set α := { x | ∃ c ∈ l, c.Has x }

omit [BoundValue α] in
theorem finite_value {c : ValueConstraint α} (h : c.lower.isMin = false ∧ c.upper.isMax = false) :
    ∃ lo o up p, c = ⟨.value lo o, .value up p⟩ := by
  obtain ⟨lower, upper⟩ := c
  rcases lower with o | ⟨lo, o⟩
  · cases h.1
  · rcases upper with p | ⟨up, p⟩
    · cases h.2
    · exact ⟨lo, o, up, p, rfl⟩

theorem Coordinates.has_iff (K : Coordinates α) (lo up x : α) (o p : Bool) :
    (⟨.value lo o, .value up p⟩ : ValueConstraint α).Has x ↔
      K.val x ∈ Set.Icc (K.val lo + if o then 1 else 0) (K.val up - if p then 1 else 0) := by
  have hlt := K.strictMono.lt_iff_lt (a := lo) (b := x)
  have hle := K.strictMono.le_iff_le (a := lo) (b := x)
  have hlt' := K.strictMono.lt_iff_lt (a := x) (b := up)
  have hle' := K.strictMono.le_iff_le (a := x) (b := up)
  rw [Set.mem_Icc]
  cases o <;> cases p <;>
    simp only [ValueConstraint.Has, LowerEndPoint.Admits, UpperEndPoint.Admits, if_true,
      Bool.false_eq_true, if_false, ← hlt, ← hle, ← hlt', ← hle'] <;> omega

/-- The values of one range. -/
theorem Coordinates.ncard_range (K : Coordinates α) {c : ValueConstraint α}
    (hfin : c.lower.isMin = false ∧ c.upper.isMax = false) (hne : ∃ x, c.Has x) :
    { x | c.Has x }.Finite ∧ ({ x | c.Has x }.ncard : Int) = K.width c + 1 - openEnds c := by
  obtain ⟨lo, o, up, p, rfl⟩ := finite_value hfin
  have himage : K.val '' { x | (⟨.value lo o, .value up p⟩ : ValueConstraint α).Has x } =
      Set.Icc (K.val lo + if o then 1 else 0) (K.val up - if p then 1 else 0) := by
    ext z
    constructor
    · rintro ⟨x, hx, rfl⟩
      exact (K.has_iff lo up x o p).mp hx
    · rintro ⟨hlo, hhi⟩
      obtain ⟨x, rfl⟩ := K.convex lo up z (by split_ifs at hlo <;> omega)
        (by split_ifs at hhi <;> omega)
      exact ⟨x, (K.has_iff lo up x o p).mpr ⟨hlo, hhi⟩, rfl⟩
  refine ⟨?_, ?_⟩
  · apply Set.Finite.of_finite_image _ K.strictMono.injective.injOn
    rw [himage]
    exact Set.finite_Icc _ _
  · obtain ⟨x, hx⟩ := hne
    obtain ⟨hlo, hhi⟩ := (K.has_iff lo up x o p).mp hx
    rw [← Set.ncard_image_of_injective _ K.strictMono.injective, himage, ← Finset.coe_Icc,
      Set.ncard_coe_finset, Int.card_Icc, Int.toNat_of_nonneg (by omega)]
    simp only [Coordinates.width, openEnds]
    omega

/-- The values of a list of ranges apart from each other. -/
theorem Coordinates.ncard_values (K : Coordinates α) {l : List (ValueConstraint α)}
    (h : FiniteReduced l) :
    (valuesOf l).Finite ∧
      ((valuesOf l).ncard : Int) = (l.map fun c => K.width c + 1 - openEnds c).sum := by
  induction l with
  | nil =>
    have hempty : valuesOf ([] : List (ValueConstraint α)) = ∅ := by
      ext x
      simp [valuesOf]
    rw [hempty]
    exact ⟨Set.finite_empty, by simp⟩
  | cons c l ih =>
    obtain ⟨hc, hl⟩ := List.pairwise_cons.mp h.apart
    obtain ⟨hfin, hcard⟩ := ih ⟨fun d hd => h.finite d (List.mem_cons_of_mem c hd),
      fun d hd => h.nonempty d (List.mem_cons_of_mem c hd), hl⟩
    obtain ⟨hfin', hcard'⟩ := K.ncard_range (h.finite c List.mem_cons_self)
      (h.nonempty c List.mem_cons_self)
    have hunion : valuesOf (c :: l) = { x | c.Has x } ∪ valuesOf l := by
      ext x
      simp [valuesOf]
    have hdisj : Disjoint { x | c.Has x } (valuesOf l) := by
      rw [Set.disjoint_left]
      rintro x hx ⟨d, hd, hdx⟩
      obtain ⟨g, hg, hg'⟩ := hc d hd
      exact lt_asymm (hg x hx) (hg' x hdx)
    rw [hunion]
    refine ⟨hfin'.union hfin, ?_⟩
    rw [Set.ncard_union_eq hdisj hfin' hfin, Nat.cast_add, hcard, hcard', List.map_cons,
      List.sum_cons]

end Count

/-- What a range adds to the count. -/
def countedBy {α : Type} (difference : α → α → Int) (c : ValueConstraint α) : Int :=
  match c.lower, c.upper with
  | .value lo _, .value up _ => difference lo up + 1
  | _, _ => 0

/-- `CountValues` adds one and the difference for each range. -/
theorem countLoop_spec {α : Type} {substract : α → α → Intx} {difference : α → α → Int}
    (hsub : ∀ v w, substract v w ≠ [] ∧ intOf (substract v w) = difference v w)
    {l : List (ValueConstraint α)} (hfin : ∀ c ∈ l, c.lower.isMin = false ∧ c.upper.isMax = false)
    {n : Intx} (hn : n ≠ []) :
    ∃ m, countLoop substract l n = some m ∧ m ≠ [] ∧
      intOf m = intOf n + (l.map (countedBy difference)).sum := by
  induction l generalizing n with
  | nil => exact ⟨n, rfl, hn, by simp⟩
  | cons c l ih =>
    obtain ⟨lower, upper⟩ := c
    have hc := hfin _ List.mem_cons_self
    rcases lower with o | ⟨lo, o⟩
    · cases hc.1
    · rcases upper with p | ⟨up, p⟩
      · cases hc.2
      · have hadd := add_computes hn (hsub lo up).1
        have hinc := inc_computes hadd.2.1
        obtain ⟨m, hm, hne, hval⟩ := ih (fun d hd => hfin d (List.mem_cons_of_mem _ hd)) hinc.2.1
        refine ⟨m, hm, hne, ?_⟩
        have hcounted : countedBy difference ⟨.value lo o, .value up p⟩ = difference lo up + 1 := rfl
        rw [hval, hinc.1, hadd.1, (hsub lo up).2, List.map_cons, List.sum_cons, hcounted]
        ring

theorem sum_map_eq_iff {β : Type} {l : List β} {f g : β → Int} (h : ∀ c ∈ l, f c ≤ g c) :
    (l.map f).sum ≤ (l.map g).sum ∧
      ((l.map f).sum = (l.map g).sum ↔ ∀ c ∈ l, f c = g c) := by
  induction l with
  | nil => simp
  | cons c l ih =>
    have hc := h c List.mem_cons_self
    obtain ⟨hsum, hiff⟩ := ih fun d hd => h d (List.mem_cons_of_mem c hd)
    simp only [List.map_cons, List.sum_cons, List.forall_mem_cons, ← hiff]
    omega

def intCoordinates : Coordinates Int where
  val := id
  strictMono := strictMono_id
  convex := fun _ _ z _ _ => ⟨z, rfl⟩

def charCoordinates : Coordinates Char32 where
  val := fun c => c.val
  strictMono := fun a b h => by
    have hlt : a.val < b.val := h
    exact Int.ofNat_lt.mpr hlt
  convex := by
    intro a b z ha hb
    have hlt := b.isLt
    refine ⟨⟨z.toNat, by omega⟩, ?_⟩
    exact Int.toNat_of_nonneg ((Int.natCast_nonneg _).trans ha)

/-- A range with values is at least as wide as its open ends take. -/
theorem Coordinates.openEnds_le {α : Type} [BoundValue α] (K : Coordinates α)
    {c : ValueConstraint α} (hfin : c.lower.isMin = false ∧ c.upper.isMax = false)
    (hne : ∃ x, c.Has x) : 0 ≤ openEnds c ∧ openEnds c ≤ K.width c := by
  obtain ⟨lo, o, up, p, rfl⟩ := finite_value hfin
  obtain ⟨x, hx⟩ := hne
  obtain ⟨hlo, hhi⟩ := (K.has_iff lo up x o p).mp hx
  simp only [openEnds, Coordinates.width]
  constructor
  · split_ifs <;> omega
  · omega

/-- The result of `CountValues` is the number of the values, and its logarithm is enough
bits for as many. -/
def CountRight {α : Type} (substract : α → α → Intx) (l : List (ValueConstraint α))
    (number : Nat) : Prop :=
  ∃ n, CountValues substract l = some n ∧ intOf n = number ∧
    (1 ≤ number → (number : Int) ≤ 2 ^ ASN1intx_log2 n)

theorem countRight_iff {α : Type} {substract : α → α → Intx} {difference : α → α → Int}
    (hsub : ∀ v w, substract v w ≠ [] ∧ intOf (substract v w) = difference v w)
    {l : List (ValueConstraint α)} (hfin : ∀ c ∈ l, c.lower.isMin = false ∧ c.upper.isMax = false)
    (number : Nat) :
    CountRight substract l number ↔
      (l.map (countedBy difference)).sum = (number : Int) := by
  obtain ⟨m, hm, hne, hval⟩ := countLoop_spec hsub hfin (n := [0]) (by simp)
  have hzero : intOf ([0] : Intx) = 0 := by decide
  rw [hzero, zero_add] at hval
  rw [← hval]
  constructor
  · rintro ⟨n, hn, hnum, -⟩
    obtain rfl : m = n := Option.some.inj (hm.symm.trans hn)
    exact hnum
  · intro hnum
    refine ⟨m, hm, hnum, fun hpos => ?_⟩
    rw [← hnum]
    exact (log2_range hne (by omega) _).mpr le_rfl

/-- For integers the difference has the wrong sign: only single values are counted. -/
theorem integers_counted_iff {l : List (ValueConstraint IntBound)}
    (h : FiniteReduced (l.map ValueConstraint.ints)) :
    CountRight substractIntegers l { x | InRoot l x }.ncard ↔
      ∀ c ∈ l, intCoordinates.width c.ints = 0 := by
  have hints : valuesOf (l.map ValueConstraint.ints) = { x | InRoot l x } := by
    ext x
    simp [valuesOf, InRoot]
  have hcard := (intCoordinates.ncard_values h).2
  rw [hints, List.map_map] at hcard
  have hfin : ∀ c ∈ l, c.lower.isMin = false ∧ c.upper.isMax = false := by
    intro c hc
    have hf := h.finite c.ints (List.mem_map_of_mem hc)
    obtain ⟨⟨_⟩ | ⟨_, _⟩, ⟨_⟩ | ⟨_, _⟩⟩ := c
    · cases hf.1
    · cases hf.1
    · cases hf.2
    · exact ⟨rfl, rfl⟩
  have hsub (v w : IntBound) : substractIntegers v w ≠ [] ∧
      intOf (substractIntegers v w) = v.toInt - w.toInt :=
    ⟨(sub_computes v.2 w.2).2.1, (sub_computes v.2 w.2).1⟩
  have hterm : ∀ c ∈ l, countedBy (fun lo up : IntBound => lo.toInt - up.toInt) c = 1 - intCoordinates.width c.ints := by
    intro c hc
    obtain ⟨lo, o, up, p, rfl⟩ := finite_value (hfin c hc)
    simp only [countedBy, ValueConstraint.ints, LowerEndPoint.ints, UpperEndPoint.ints,
      Coordinates.width, intCoordinates, id]
    omega
  have hwide : ∀ c ∈ l, 0 ≤ openEnds c.ints ∧ openEnds c.ints ≤ intCoordinates.width c.ints :=
    fun c hc => intCoordinates.openEnds_le (h.finite _ (List.mem_map_of_mem hc))
      (h.nonempty _ (List.mem_map_of_mem hc))
  rw [countRight_iff hsub hfin, hcard, List.map_congr_left hterm, (sum_map_eq_iff _).2]
  · refine forall₂_congr fun c hc => ?_
    have := hwide c hc
    simp only [Function.comp_apply]
    omega
  · intro c hc
    have := hwide c hc
    simp only [Function.comp_apply]
    omega

theorem dropZeros_spec (v : List Octet) (h : v ≠ []) (hneg : isNegative v = false) :
    dropZeros v ≠ [] ∧ intOf (dropZeros v) = natOf v := by
  induction v with
  | nil => exact absurd rfl h
  | cons x v ih =>
    cases v with
    | nil => exact ⟨h, by simp [dropZeros, intOf, hneg]⟩
    | cons y v =>
      rw [dropZeros]
      split_ifs with hxy
      · obtain ⟨rfl, hy⟩ := hxy
        obtain ⟨hne, hval⟩ := ih (by simp) (decide_eq_false (by omega))
        exact ⟨hne, by rw [hval]; simp [natOf]⟩
      · exact ⟨h, by simp [intOf, hneg]⟩

theorem setuint32_spec (c : Char32) : ASN1intx_setuint32 c ≠ [] ∧ intOf (ASN1intx_setuint32 c) = c.val := by
  obtain ⟨hne, hval⟩ := dropZeros_spec [0, BitVec.ofNat 8 (c.val / 2 ^ 24), BitVec.ofNat 8 (c.val / 2 ^ 16),
    BitVec.ofNat 8 (c.val / 2 ^ 8), BitVec.ofNat 8 c.val] (by simp) rfl
  refine ⟨hne, hval.trans ?_⟩
  have hlt := c.isLt
  have h0 : (0 : Octet).toNat = 0 := rfl
  simp only [natOf, h0, BitVec.toNat_ofNat, List.length_cons, List.length_nil]
  omega

/-- Characters are counted with their open ends. -/
theorem characters_counted_iff {l : List (ValueConstraint Char32)} (h : FiniteReduced l) :
    CountRight substractCharacters l (valuesOf l).ncard ↔ ∀ c ∈ l, openEnds c = 0 := by
  have hcard := (charCoordinates.ncard_values h).2
  have hsub (v w : Char32) : substractCharacters v w ≠ [] ∧
      intOf (substractCharacters v w) = ((w - v : Char32).val : Int) := setuint32_spec (w - v)
  have hwide : ∀ c ∈ l, 0 ≤ openEnds c ∧ openEnds c ≤ charCoordinates.width c :=
    fun c hc => charCoordinates.openEnds_le (h.finite c hc) (h.nonempty c hc)
  have hterm : ∀ c ∈ l, countedBy (fun lo up : Char32 => ((up - lo : Char32).val : Int)) c = charCoordinates.width c + 1 := by
    intro c hc
    have hw := hwide c hc
    obtain ⟨lo, o, up, p, rfl⟩ := finite_value (h.finite c hc)
    simp only [countedBy, Coordinates.width, charCoordinates] at hw ⊢
    have hle : lo ≤ up := by
      rw [Fin.le_def]
      omega
    rw [Fin.sub_val_of_le hle]
    rw [Fin.le_def] at hle
    omega
  rw [countRight_iff hsub h.finite, hcard, List.map_congr_left hterm]
  constructor
  · intro heq
    have := (sum_map_eq_iff fun c hc => by have := hwide c hc; omega).2.mp heq.symm
    intro c hc
    have := this c hc
    omega
  · intro hzero
    congr 1
    apply List.map_congr_left
    intro c hc
    rw [hzero c hc]
    omega

/-! ## Sizes of a type -/

/-- Field, C type and number of values of an integer type fit its root. -/
structure IntegerSizesRight (env : Settings) (type : IntegerType) : Prop where
  field : ∀ sign, FieldHolds env (ExaminePERType_Integer env type sign).Root
    (intOf (ExaminePERType_Integer env type sign).Root.UpperVal -
      intOf (ExaminePERType_Integer env type sign).Root.LowerVal + 1)
  offset : ∀ sign x, InRoot type.value.root x →
    0 ≤ x - intOf (ExaminePERType_Integer env type sign).Root.LowerVal ∧
      x - intOf (ExaminePERType_Integer env type sign).Root.LowerVal <
        intOf (ExaminePERType_Integer env type sign).Root.UpperVal -
          intOf (ExaminePERType_Integer env type sign).Root.LowerVal + 1
  ctype : TypeRight env type
  count : CountRight substractIntegers type.value.root { x | InRoot type.value.root x }.ncard

/-- An integer type with a finite root. -/
structure FiniteRoot (type : IntegerType) : Prop where
  constrained : type.value.type ≠ .unconstrained
  ne_nil : type.value.root ≠ []
  reduced : FiniteReduced (type.value.root.map ValueConstraint.ints)
  additions : ∀ c ∈ type.additions, ∃ x, c.ints.Has x

theorem integerSizes_iff (env : Settings) {type : IntegerType} (h : FiniteRoot type) :
    IntegerSizesRight env type ↔ type.fIntx = false ∧
      ((∀ c ∈ type.additions, c.ints.lower.isMin = false ∧ c.ints.upper.isMax = false) ∨
        restriction env (type.value.root ++ type.additions) = .intx) ∧
      ∀ c ∈ type.value.root, intCoordinates.width c.ints = 0 := by
  have htype := typeRight_iff env h.ne_nil
    (fun c hc => h.reduced.finite c.ints (List.mem_map_of_mem hc)) h.additions
  have hcount := integers_counted_iff h.reduced
  constructor
  · intro hs
    obtain ⟨hf, hadd⟩ := htype.mp hs.ctype
    exact ⟨hf, hadd, hcount.mp hs.count⟩
  · rintro ⟨hf, hadd, hsingle⟩
    exact ⟨fun sign => (examine_finite env sign h.constrained h.ne_nil h.reduced).1,
      fun sign => (examine_finite env sign h.constrained h.ne_nil h.reduced).2,
      htype.mpr ⟨hf, hadd⟩, hcount.mpr hsingle⟩

/-- When the sizes of an integer type, and the count of an alphabet, are right. -/
theorem per_sizes_iff (env : Settings) {type : IntegerType} (h : FiniteRoot type)
    {alphabet : List (ValueConstraint Char32)} (halphabet : FiniteReduced alphabet) :
    (IntegerSizesRight env type ↔ type.fIntx = false ∧
      ((∀ c ∈ type.additions, c.ints.lower.isMin = false ∧ c.ints.upper.isMax = false) ∨
        restriction env (type.value.root ++ type.additions) = .intx) ∧
      ∀ c ∈ type.value.root, intCoordinates.width c.ints = 0) ∧
    (CountRight substractCharacters alphabet (valuesOf alphabet).ncard ↔
      ∀ c ∈ alphabet, openEnds c = 0) :=
  ⟨integerSizes_iff env h, characters_counted_iff halphabet⟩

/-- The type of the integers from `lo` to `up`. -/
def integersTo (lo up : IntBound) : IntegerType where
  fIntx := false
  value := { type := .unextended, root := [⟨.value lo false, .value up false⟩] }

theorem integersTo_finite {lo up : IntBound} (h : lo.toInt ≤ up.toInt) :
    FiniteRoot (integersTo lo up) where
  constrained := by simp [integersTo]
  ne_nil := by simp [integersTo]
  reduced := by
    refine ⟨fun c hc => ?_, fun c hc => ?_, List.pairwise_singleton _ _⟩
    · rw [List.mem_singleton.mp hc]
      exact ⟨rfl, rfl⟩
    · rw [List.mem_singleton.mp hc]
      exact ⟨lo.toInt, le_rfl, h⟩
  additions := fun c hc => by cases hc

/-- The letters. -/
theorem letters_finite :
    FiniteReduced ([⟨.value 97 false, .value 122 false⟩] : List (ValueConstraint Char32)) := by
  refine ⟨fun c hc => ?_, fun c hc => ?_, List.pairwise_singleton _ _⟩
  · rw [List.mem_singleton.mp hc]
    exact ⟨rfl, rfl⟩
  · rw [List.mem_singleton.mp hc]
    exact ⟨97, le_rfl, (by decide : (97 : Char32) ≤ 122)⟩

def defaultSettings : Settings where
  Has64Bits := false
  IntegerRestriction := .int32
  UIntegerRestriction := .uint32
  unaligned := false

theorem per_sizes_iff_five :
    IntegerSizesRight defaultSettings (integersTo ⟨[5], by simp⟩ ⟨[5], by simp⟩) ∧
      CountRight substractCharacters [⟨.value 97 false, .value 122 false⟩]
        (valuesOf ([⟨.value 97 false, .value 122 false⟩] : List (ValueConstraint Char32))).ncard := by
  have hfive : FiniteRoot (integersTo ⟨[5], by simp⟩ ⟨[5], by simp⟩) := integersTo_finite le_rfl
  have h := per_sizes_iff defaultSettings hfive letters_finite
  refine ⟨h.1.mpr ⟨rfl, .inl fun c hc => ?_, fun c hc => ?_⟩, h.2.mpr fun c hc => ?_⟩
  · cases hc
  · rw [List.mem_singleton.mp hc]
    rfl
  · rw [List.mem_singleton.mp hc]
    rfl

/-- `INTEGER (1..5)` has five values; the count is `-3`. -/
theorem integers_to_five :
    CountValues substractIntegers (integersTo ⟨[1], by simp⟩ ⟨[5], by simp⟩).value.root = some [253] ∧
      ¬ IntegerSizesRight defaultSettings (integersTo ⟨[1], by simp⟩ ⟨[5], by simp⟩) := by
  refine ⟨by decide, fun h => ?_⟩
  have hfinite : FiniteRoot (integersTo ⟨[1], by simp⟩ ⟨[5], by simp⟩) :=
    integersTo_finite (by decide)
  have hwidth := ((integerSizes_iff defaultSettings hfinite).mp h).2.2 _ (List.mem_singleton_self _)
  exact absurd hwidth (by decide)

end SdkTools.Asn1
