import SdkTools.M4.Parser

/-!
# Which texts the parser misjudges

`scan` reads the lexemes from left to right, keeping for every open parenthesis
whether an integer was already there. It accepts exactly the token sequences of
expressions. It says `misjudged` where `fPrimary` gives up inside a group, and its
caller takes that for the end of the input.
-/

namespace SdkTools.M4

open Lib.Operators

set_option autoImplicit false

inductive Verdict where
  | accept
  | error
  | misjudged
deriving DecidableEq, Repr

/-- An operand follows an operand: an error outside of parentheses only. -/
def integerUnexpected (outer : List Bool) : Verdict := if outer.isEmpty then .error else .misjudged

/-- `outer` has an entry for each open parenthesis, innermost first: whether the
group follows an operand. `complete` says whether an operand was read last. -/
def scan : (outer : List Bool) → (complete : Bool) → List Lexeme → Verdict
  | outer, false, .op o :: ls => if o.isAmb || o.isUn then scan outer false ls else .error
  | outer, false, .num _ _ :: ls => scan outer true ls
  | outer, false, .lpar :: ls => scan (false :: outer) false ls
  | _, false, _ => .error
  | outer, true, .op o :: ls => if o.isBin then scan outer false ls else .error
  | outer, true, .num _ _ :: _ => integerUnexpected outer
  | outer, true, .lpar :: ls => scan (true :: outer) false ls
  | [], true, .rpar :: _ => .misjudged
  | extra :: outer, true, .rpar :: ls =>
    if extra then integerUnexpected outer else scan outer true ls
  | _, true, .junk :: _ => .misjudged
  | outer, true, [] => if outer.isEmpty then .accept else .misjudged

/-- What follows a complete expression inside the parentheses `outer`. -/
def Follows : List Bool → List Lexeme → Prop
  | [], tail => tail = []
  | false :: outer, .rpar :: rest => scan outer true rest = .accept
  | _, _ => False

/-- Every lexeme is a token that a text can spell. -/
def Tokens (ls : List Lexeme) : Prop :=
  ∀ l ∈ ls, l.good = true ∧ ∀ o, l = .op o → o ∈ rgeopi

theorem Tokens.tail {l : Lexeme} {ls : List Lexeme} (h : Tokens (l :: ls)) : Tokens ls :=
  fun k hk => h k (List.mem_cons_of_mem _ hk)

end SdkTools.M4
