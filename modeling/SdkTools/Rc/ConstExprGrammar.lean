import Mathlib.Data.BitVec
import SdkTools.Rc.ConstExpr

/-!
# The grammar of constant expressions

`Grammar` is the grammar that the comments of `p0expr.c` give, level by level, and
`Ast.value` the value of an expression in C. `CGrammar` is the grammar of C.
-/

namespace SdkTools.Rc

set_option autoImplicit false

inductive UnOp where
  | not
  | compl
  | neg
  | pos
deriving DecidableEq

def UnOp.token : UnOp → Punct
  | .not => .exclaim
  | .compl => .tilde
  | .neg => .minus
  | .pos => .plus

inductive Ast where
  | int (v : LONG)
  | paren (e : Ast)
  | unary (o : UnOp) (e : Ast)
  | binary (o : BinOp) (l r : Ast)
  | cond (c a b : Ast)
  /-- a conditional without its last part -/
  | short (c a : Ast)

def Ast.yield : Ast → List Tok
  | int v => [.constant v]
  | paren e => .punct .lparen :: (e.yield ++ [.punct .rparen])
  | unary o e => .punct o.token :: e.yield
  | binary o l r => l.yield ++ .punct o.token :: r.yield
  | cond c a b => c.yield ++ .punct .quest :: (a.yield ++ .punct .colon :: b.yield)
  | short c a => c.yield ++ .punct .quest :: a.yield

/-- The level of an operator; `?:` has level 0, unary operators level 11 and primaries
level 12. -/
def BinOp.level : BinOp → Nat
  | .oror => 1
  | .andand => 2
  | .or => 3
  | .xor => 4
  | .and => 5
  | .equals => 6
  | .noteq => 6
  | .lt => 7
  | .gt => 7
  | .lteq => 7
  | .gteq => 7
  | .rshift => 8
  | .lshift => 8
  | .plus => 9
  | .minus => 9
  | .mult => 10
  | .div => 10
  | .mod => 10

/-- The levels whose operators can follow one another. -/
def repeats (p : Nat) : Bool := p ∉ [6, 7, 8]

/-- The expressions of a level; `short` says whether a conditional may lack its last
part. -/
inductive Grammar (short : Bool) : Nat → Ast → Prop where
  | int (v : LONG) : Grammar short 12 (.int v)
  | paren {e : Ast} (h : Grammar short 0 e) : Grammar short 12 (.paren e)
  | unary {o : UnOp} {e : Ast} (ho : o ≠ .pos) (h : Grammar short 12 e) :
      Grammar short 11 (.unary o e)
  | binary {o : BinOp} {l r : Ast}
      (hl : Grammar short (if repeats o.level then o.level else o.level + 1) l)
      (hr : Grammar short (o.level + 1) r) : Grammar short o.level (.binary o l r)
  | cond {c a b : Ast} (hc : Grammar short 1 c) (ha : Grammar short 1 a) (hb : Grammar short 1 b) :
      Grammar short 0 (.cond c a b)
  | short {c a : Ast} (hshort : short = true) (hc : Grammar short 1 c) (ha : Grammar short 1 a) :
      Grammar short 0 (.short c a)
  | up {p : Nat} {e : Ast} (h : Grammar short (p + 1) e) : Grammar short p e

/-- The constant expressions of C: every binary operator repeats, unary operators are
applied to one another, and conditionals nest. -/
inductive CGrammar : Nat → Ast → Prop where
  | int (v : LONG) : CGrammar 12 (.int v)
  | paren {e : Ast} (h : CGrammar 0 e) : CGrammar 12 (.paren e)
  | unary {o : UnOp} {e : Ast} (h : CGrammar 11 e) : CGrammar 11 (.unary o e)
  | binary {o : BinOp} {l r : Ast} (hl : CGrammar o.level l) (hr : CGrammar (o.level + 1) r) :
      CGrammar o.level (.binary o l r)
  | cond {c a b : Ast} (hc : CGrammar 1 c) (ha : CGrammar 0 a) (hb : CGrammar 0 b) :
      CGrammar 0 (.cond c a b)
  | up {p : Nat} {e : Ast} (h : CGrammar (p + 1) e) : CGrammar p e

/-! ## Values -/

section

variable (undefined : BinOp → LONG → LONG → LONG)

/-- The value of an operation in C on numbers of 32 bits; division by zero gives zero. -/
def BinOp.value : BinOp → LONG → LONG → LONG
  | .oror, a, b => ofBool (a ≠ 0 ∨ b ≠ 0)
  | .andand, a, b => ofBool (a ≠ 0 ∧ b ≠ 0)
  | .or, a, b => a ||| b
  | .xor, a, b => a ^^^ b
  | .and, a, b => a &&& b
  | .equals, a, b => ofBool (a.toInt = b.toInt)
  | .noteq, a, b => ofBool (a.toInt ≠ b.toInt)
  | .lt, a, b => ofBool (a.toInt < b.toInt)
  | .gt, a, b => ofBool (a.toInt > b.toInt)
  | .lteq, a, b => ofBool (a.toInt ≤ b.toInt)
  | .gteq, a, b => ofBool (a.toInt ≥ b.toInt)
  | .rshift, a, b =>
    if 0 ≤ b.toInt ∧ b.toInt < 32 then BitVec.ofInt 32 (a.toInt / 2 ^ b.toNat)
    else undefined .rshift a b
  | .lshift, a, b =>
    if 0 ≤ b.toInt ∧ b.toInt < 32 then BitVec.ofInt 32 (a.toInt * 2 ^ b.toNat)
    else undefined .lshift a b
  | .plus, a, b => BitVec.ofInt 32 (a.toInt + b.toInt)
  | .minus, a, b => BitVec.ofInt 32 (a.toInt - b.toInt)
  | .mult, a, b => BitVec.ofInt 32 (a.toInt * b.toInt)
  | .div, a, b =>
    if b.toInt = 0 then 0
    else if a.toInt = -2 ^ 31 ∧ b.toInt = -1 then undefined .div a b
    else BitVec.ofInt 32 (a.toInt.tdiv b.toInt)
  | .mod, a, b =>
    if b.toInt = 0 then 0
    else if a.toInt = -2 ^ 31 ∧ b.toInt = -1 then undefined .mod a b
    else BitVec.ofInt 32 (a.toInt.tmod b.toInt)

def UnOp.value : UnOp → LONG → LONG
  | .not, a => ofBool (a.toInt = 0)
  | .compl, a => BitVec.ofInt 32 (-a.toInt - 1)
  | .neg, a => BitVec.ofInt 32 (-a.toInt)
  | .pos, a => a

def Ast.value (uninitialised : LONG) : Ast → LONG
  | int v => v
  | paren e => e.value uninitialised
  | unary o e => o.value (e.value uninitialised)
  | binary o l r => o.value undefined (l.value uninitialised) (r.value uninitialised)
  | cond c a b =>
    if c.value uninitialised ≠ 0 then a.value uninitialised else b.value uninitialised
  | short c a => if c.value uninitialised ≠ 0 then a.value uninitialised else uninitialised

theorem toNat_lt_iff (b : LONG) : b.toNat < 32 ↔ 0 ≤ b.toInt ∧ b.toInt < 32 := by
  have hlt := b.isLt
  rw [BitVec.toInt_eq_toNat_cond]
  split
  · omega
  · omega

theorem intMin_iff (a : LONG) : a = BitVec.intMin 32 ↔ a.toInt = -2 ^ 31 := by
  constructor
  · rintro rfl
    rfl
  · intro h
    apply BitVec.eq_of_toInt_eq
    rw [h]
    rfl

theorem neg_one_iff (b : LONG) : b = -1 ↔ b.toInt = -1 := by
  constructor
  · rintro rfl
    rfl
  · intro h
    apply BitVec.eq_of_toInt_eq
    rw [h]
    rfl

theorem zero_iff (b : LONG) : b = 0 ↔ b.toInt = 0 := by
  constructor
  · rintro rfl
    rfl
  · intro h
    apply BitVec.eq_of_toInt_eq
    rw [h]
    rfl

theorem sdiv_value (a b : LONG) : a.sdiv b = BitVec.ofInt 32 (a.toInt.tdiv b.toInt) := by
  apply BitVec.eq_of_toInt_eq
  rw [BitVec.toInt_sdiv, BitVec.toInt_ofInt]

theorem srem_value (a b : LONG) : a.srem b = BitVec.ofInt 32 (a.toInt.tmod b.toInt) := by
  rw [← BitVec.toInt_srem, BitVec.ofInt_toInt]

theorem sshiftRight_value (a : LONG) (n : Nat) :
    a.sshiftRight n = BitVec.ofInt 32 (a.toInt / 2 ^ n) := by
  rw [← BitVec.ofInt_toInt (x := a.sshiftRight n), BitVec.toInt_sshiftRight,
    Int.shiftRight_eq_div_pow]
  simp

theorem shiftLeft_value (a : LONG) (n : Nat) : a <<< n = BitVec.ofInt 32 (a.toInt * 2 ^ n) := by
  have hcast : (2 : Int) ^ n = ((2 ^ n : Nat) : Int) := by rw [Nat.cast_pow, Nat.cast_ofNat]
  have hpow : BitVec.ofInt 32 (2 ^ n) = BitVec.twoPow 32 n := by
    apply BitVec.eq_of_toNat_eq
    rw [hcast, BitVec.ofInt_natCast, BitVec.toNat_ofNat, BitVec.toNat_twoPow]
  rw [BitVec.shiftLeft_eq_mul_twoPow, BitVec.ofInt_mul, BitVec.ofInt_toInt, hpow]

theorem sub_value (a b : LONG) : a - b = BitVec.ofInt 32 (a.toInt - b.toInt) := by
  rw [Int.sub_eq_add_neg, BitVec.ofInt_add, BitVec.ofInt_neg, BitVec.ofInt_toInt,
    BitVec.ofInt_toInt, BitVec.sub_eq_add_neg]

/-- The operations of the code are those of C. -/
theorem apply_eq_value (o : BinOp) (a b : LONG) : o.apply undefined a b = o.value undefined a b := by
  cases o with
  | oror => simp [BinOp.apply, BinOp.value, Bool.or_comm]
  | andand => simp [BinOp.apply, BinOp.value, Bool.and_comm]
  | or => rfl
  | xor => rfl
  | and => rfl
  | equals => simp [BinOp.apply, BinOp.value, BitVec.toInt_inj]
  | noteq => simp [BinOp.apply, BinOp.value, BitVec.toInt_inj]
  | lt => simp [BinOp.apply, BinOp.value, BitVec.slt]
  | gt => simp [BinOp.apply, BinOp.value, BitVec.slt]
  | lteq => simp [BinOp.apply, BinOp.value, BitVec.sle]
  | gteq => simp [BinOp.apply, BinOp.value, BitVec.sle]
  | rshift => simp only [BinOp.apply, BinOp.value, toNat_lt_iff, sshiftRight_value]
  | lshift => simp only [BinOp.apply, BinOp.value, toNat_lt_iff, shiftLeft_value]
  | plus => simp only [BinOp.apply, BinOp.value, BitVec.ofInt_add, BitVec.ofInt_toInt]
  | minus => exact sub_value a b
  | mult => simp only [BinOp.apply, BinOp.value, BitVec.ofInt_mul, BitVec.ofInt_toInt]
  | div =>
    simp only [BinOp.apply, BinOp.value, intMin_iff, neg_one_iff, sdiv_value, ne_eq, zero_iff]
    by_cases hb : b.toInt = 0
    · rw [if_neg (fun hne => hne hb), if_pos hb, (zero_iff b).mpr hb]
    · rw [if_pos hb, if_neg hb]
  | mod =>
    simp only [BinOp.apply, BinOp.value, intMin_iff, neg_one_iff, srem_value, ne_eq, zero_iff]
    by_cases hb : b.toInt = 0
    · rw [if_neg (fun hne => hne hb), if_pos hb]
    · rw [if_pos hb, if_neg hb]

theorem neg_value (a : LONG) : -a = BitVec.ofInt 32 (-a.toInt) := by
  rw [BitVec.ofInt_neg, BitVec.ofInt_toInt]

theorem compl_value (a : LONG) : ~~~a = BitVec.ofInt 32 (-a.toInt - 1) := by
  rw [Int.sub_eq_add_neg, BitVec.ofInt_add, ← neg_value, BitVec.not_eq_neg_add,
    BitVec.sub_eq_add_neg]
  rfl

end

end SdkTools.Rc
