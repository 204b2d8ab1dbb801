import SdkTools.Lib.Fallible
import SdkTools.M4.Xtoken

/-!
# The arguments of a macro call

What a call hands to its operator, without the hold and the token array: the texts of the tokens
between the delimiters. `xmacPtok` does this in the two buffers, as long as the token array is not
moved under the cookie of the arguments.
-/

namespace SdkTools.M4

open Lib

set_option autoImplicit false

/-! ## Reading a call -/

/-- A count of the token array along a reading: how often it was allocated, and whether it was
moved under a cookie. -/
structure Meter where
  tokBlocks : Nat
  stale : Bool

/-- With one token more than the ones in use. -/
def Meter.get (m : Meter) (used : Nat) : Meter :=
  { m with tokBlocks := if used ≥ ctokGrow * m.tokBlocks then m.tokBlocks + 1 else m.tokBlocks }

/-- With the null argument behind the others. -/
def Meter.null (addr : Addresses) (m : Meter) (used : Nat) : Meter :=
  { m.get used with
    stale := m.stale ||
      decide (addr.rgtokArgv m.tokBlocks ≠ addr.rgtokArgv (m.get used).tokBlocks) }

section

variable {ω : Type} (addr : Addresses) (rgop : Operators ω)

/-- A reader of expanded tokens, with the number of tokens in use. -/
abbrev Reader (ω : Type) :=
  Nat → Meter → World ω → Except Stop (TYP × Text × Meter × World ω)

/-- The depth behind a token, unless it is the delimiter of the argument. -/
def tokenDepth : TYP → Text → Nat → Option Nat
  | .typPunc, [tch], iDepth => depthAfter tch iDepth
  | _, _, iDepth => some iDepth

/-- The text of an argument and its delimiter: the texts of the tokens in a row. -/
def argText (xtok : Reader ω) (used : Nat) :
    Nat → Nat → Meter → World ω → Except Stop (Text × Text × Meter × World ω)
  | 0, _, _, _ => .error .fuel
  | fuel + 1, iDepth, m, w => do
    let (typ, text, m, w) ← xtok used m w
    match tokenDepth typ text iDepth with
    | none => .ok ([], text, m, w)
    | some iDepth => do
      let (more, delimiter, m, w) ← argText xtok used fuel iDepth m w
      .ok (text ++ more, delimiter, m, w)

/-- The arguments up to the closing parenthesis. -/
def argTexts (xtok : Reader ω) :
    Nat → Nat → Meter → World ω → Except Stop (List Text × Meter × World ω)
  | 0, _, _, _ => .error .fuel
  | fuel + 1, used, m, w => do
    let input ← eatWhite w.input
    let (text, delimiter, m, w) ←
      argText xtok (used + 1) fuel 0 (m.get used) { w with input }
    if delimiter = [tchComma] then
      let (more, m, w) ← argTexts xtok fuel (used + 1) m w
      .ok (text :: more, m, w)
    else .ok ([text], m, w)

def callArgs (xtok : Reader ω) (fuel used : Nat) (m : Meter) (w : World ω) :
    Except Stop (List Text × Meter × World ω) := do
  let tch ← tchPeekAt w
  if tch = tchLpar then argTexts xtok fuel used m { w with input := w.input.tail }
  else .ok ([], m, w)

/-- The arguments of a call, and the world behind its operator. -/
def callMacro (xtok : Reader ω) (fuel used : Nat) (m : Meter) (w : World ω) (name : Text) :
    Except Stop (List Text × Meter × World ω) := do
  let (args, m, w) ← callArgs xtok fuel (used + 2) ((m.get used).get (used + 1)) w
  let w ← crackleArgv rgop name args w
  .ok (args, m.null addr (used + 2 + args.length), w)

/-- The next token that no macro expands. -/
def expandedToken : Nat → Reader ω
  | 0, _, _, _ => .error .fuel
  | fuel + 1, used, m, w =>
    match scanToken w.input with
    | (_, .error stop) => .error stop
    | (typ, .ok (text, input)) =>
      if typ = .typId ∧ (w.macros text).isSome then do
        let (_, m, w) ←
          callMacro addr rgop (expandedToken fuel) fuel used m { w with input } text
        expandedToken fuel used m w
      else .ok (typ, text, m, { w with input })

end

/-! ## The meter -/

section

variable {ω : Type} {addr : Addresses} {rgop : Operators ω}

/-- A cookie that was moved stays so. -/
def Sticky (xtok : Reader ω) : Prop :=
  ∀ used m w typ text m' w', xtok used m w = .ok (typ, text, m', w') → m.stale = true →
    m'.stale = true

theorem argText_sticky {xtok : Reader ω} (h : Sticky xtok) {used fuel iDepth : Nat} {m m' : Meter}
    {w w' : World ω} {text delimiter : Text}
    (hread : argText xtok used fuel iDepth m w = .ok (text, delimiter, m', w'))
    (hm : m.stale = true) : m'.stale = true := by
  induction fuel generalizing iDepth m w text with
  | zero => cases hread
  | succ fuel ih =>
    obtain ⟨⟨typ, tok, m₁, w₁⟩, htok, hread⟩ := bind_eq_ok hread
    have hm₁ := h _ _ _ _ _ _ _ htok hm
    simp only at hread
    split at hread
    · cases hread
      exact hm₁
    · obtain ⟨⟨more, d, m₂, w₂⟩, hmore, hread⟩ := bind_eq_ok hread
      cases hread
      exact ih hmore hm₁

theorem argTexts_sticky {xtok : Reader ω} (h : Sticky xtok) {fuel used : Nat} {m m' : Meter}
    {w w' : World ω} {args : List Text}
    (hread : argTexts xtok fuel used m w = .ok (args, m', w')) (hm : m.stale = true) :
    m'.stale = true := by
  induction fuel generalizing used m w args with
  | zero => cases hread
  | succ fuel ih =>
    obtain ⟨input, -, hread⟩ := bind_eq_ok hread
    obtain ⟨⟨text, delimiter, m₁, w₁⟩, htext, hread⟩ := bind_eq_ok hread
    have hm₁ : m₁.stale = true := argText_sticky h htext hm
    simp only at hread
    split at hread
    · obtain ⟨⟨more, m₂, w₂⟩, hmore, hread⟩ := bind_eq_ok hread
      cases hread
      exact ih hmore hm₁
    · cases hread
      exact hm₁

theorem callArgs_sticky {xtok : Reader ω} (h : Sticky xtok) {fuel used : Nat} {m m' : Meter}
    {w w' : World ω} {args : List Text}
    (hread : callArgs xtok fuel used m w = .ok (args, m', w')) (hm : m.stale = true) :
    m'.stale = true := by
  obtain ⟨tch, -, hread⟩ := bind_eq_ok hread
  split at hread
  · exact argTexts_sticky h hread hm
  · cases hread
    exact hm

theorem callMacro_sticky {xtok : Reader ω} (h : Sticky xtok) {fuel used : Nat} {m m' : Meter}
    {w w' : World ω} {name : Text} {args : List Text}
    (hread : callMacro addr rgop xtok fuel used m w name = .ok (args, m', w'))
    (hm : m.stale = true) : m'.stale = true := by
  obtain ⟨⟨args₁, m₁, w₁⟩, hargs, hread⟩ := bind_eq_ok hread
  obtain ⟨w₂, -, hread⟩ := bind_eq_ok hread
  have hm₁ : m₁.stale = true := callArgs_sticky h hargs hm
  cases hread
  exact Bool.or_eq_true_iff.mpr (.inl hm₁)

theorem expandedToken_sticky (fuel : Nat) : Sticky (expandedToken addr rgop fuel) := by
  induction fuel with
  | zero => exact fun used m w typ text m' w' h => by cases h
  | succ fuel ih =>
    intro used m w typ text m' w' hread hm
    rw [expandedToken] at hread
    split at hread
    · cases hread
    · split at hread
      · obtain ⟨⟨args, m₁, w₁⟩, hcall, hread⟩ := bind_eq_ok hread
        exact ih _ _ _ _ _ _ _ hread (callMacro_sticky ih hcall hm)
      · cases hread
        exact hm

end

end SdkTools.M4
