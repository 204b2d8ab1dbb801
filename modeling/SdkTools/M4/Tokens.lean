import SdkTools.Lib.Digits
import SdkTools.Lib.Operators
import SdkTools.M4.Eval

/-!
# Texts of expressions

`Spells` says how a sequence of tokens is written: C literals, operators by longest
match, white space anywhere between tokens. `lexemes` is what the parser reads in
an arbitrary text. On well-formed texts they agree.
-/

namespace SdkTools.M4

open Lib.Operators Lib.Digits

set_option autoImplicit false

inductive Lexeme where
  | op (o : Eop)
  /-- a number, and whether its characters are a literal of C -/
  | num (value : AT) (valid : Bool)
  | lpar
  | rpar
  | junk
deriving DecidableEq, Repr

/-! ### Literals -/

/-- The radix of a literal and its digits. -/
def literalDigits (s : List TCH) : Nat × List TCH :=
  if s.head? = some (tch '0') then
    if s.getD 1 0 = tch 'x' ∨ s.getD 1 0 = tch 'X' then (16, s.drop 2) else (8, s)
  else (10, s)

/-- The value of a literal of C, reduced to the width of an `int`. -/
def literalValue (s : List TCH) : Option AT :=
  if (literalDigits s).2 ≠ [] ∧ (literalDigits s).2.all (isDigit (literalDigits s).1) then
    some (BitVec.ofNat 32 (digitsValue (literalDigits s).1 (literalDigits s).2))
  else none

/-! ### The tokens of a text -/

def White (w : List TCH) : Prop := ∀ c ∈ w, fWhiteTch c = true

/-- No other operator that starts here is longer than `o`. -/
def Longest (o : Eop) (t : List TCH) : Prop :=
  ∀ o' ∈ rgeopi, o'.text <+: o.text ++ t → o'.text.length ≤ o.text.length

/-- A literal ends before `t`. -/
def Ends (t : List TCH) : Bool := !(t.head?.map isAlnum).getD false

inductive Spells : List TCH → List Lexeme → Prop
  | nil {w : List TCH} : White w → Spells w []
  | op {w t : List TCH} {o : Eop} {ls : List Lexeme} : White w → o ∈ rgeopi → Longest o t →
      Spells t ls → Spells (w ++ (o.text ++ t)) (.op o :: ls)
  | num {w s t : List TCH} {a : AT} {ls : List Lexeme} : White w → literalValue s = some a →
      Ends t = true → Spells t ls → Spells (w ++ (s ++ t)) (.num a true :: ls)
  | lpar {w t : List TCH} {ls : List Lexeme} : White w → Spells t ls →
      Spells (w ++ tch '(' :: t) (.lpar :: ls)
  | rpar {w t : List TCH} {ls : List Lexeme} : White w → Spells t ls →
      Spells (w ++ tch ')' :: t) (.rpar :: ls)

abbrev Unary := { o : Eop // o.isUn = true }

abbrev Binary := { o : Eop // o.isBin = true }

/-- The operator as it stands in the table, before its unary alias is taken. -/
def Eop.written : Eop → Eop
  | .plu => .add
  | .neg => .sub
  | o => o

def spelling : Spelling AT Unit Unary Binary Lexeme where
  atom a := .num a true
  unary u := .op u.1.written
  binary o := .op o.1
  lpar _ := .lpar
  rpar _ := .rpar

abbrev Expr := Ast AT Unit Unary Binary

def WellFormed (arg : List TCH) : Prop := ∃ e : Expr, Spells arg (e.yield spelling)

/-- The precedences of the table in the source, by the name of the operator. -/
def precedences : Levels Unary Binary where
  unary u := u.1.prec
  binary o := o.1.prec
  distinct u o := by
    obtain ⟨u, hu⟩ := u
    obtain ⟨o, ho⟩ := o
    cases u <;> cases hu <;> cases o <;> simp [Eop.prec] at ho ⊢ <;> cases ho

/-- All levels but exponentiation associate to the left. -/
def leftLevels (q : Nat) : Bool := q ≠ Eop.exp.prec

def Expr.value (undef : Undefined) (e : Expr) : AT :=
  e.eval id (fun u => eop1 u.1) (fun o => eop2 undef o.1)

/-! ### What the parser reads -/

/-- The next lexeme and the text after it; `none` at the end of the text. -/
def nextLexeme (t : List TCH) : Option (Lexeme × List TCH) :=
  let tok := skipWhitePtok t
  match findEopi tok with
  | some o => some (.op o, tok.drop o.text.length)
  | none =>
    match fEvalPtokPat tok with
    | some (a, rest) =>
      let valid := (literalValue (tok.take (tok.length - rest.length))).isSome && Ends rest
      some (.num a valid, rest)
    | none =>
      match tok with
      | [] => none
      | c :: rest =>
        some (if c = tch '(' then .lpar else if c = tch ')' then .rpar else .junk, rest)

def lexemesLoop : Nat → List TCH → List Lexeme
  | 0, _ => []
  | fuel + 1, t =>
    match nextLexeme t with
    | none => []
    | some (l, rest) => l :: lexemesLoop fuel rest

def lexemes (t : List TCH) : List Lexeme := lexemesLoop (t.length + 1) t

end SdkTools.M4
