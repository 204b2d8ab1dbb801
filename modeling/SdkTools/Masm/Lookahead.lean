import SdkTools.Lib.EState
import SdkTools.Masm.Lexing

/-!
# The token of look-ahead

`At cs ts s` says that the evaluator has consumed the tokens `cs` and still has to read
`ts`, whether or not it has peeked at the next token already.
-/

namespace SdkTools.Masm

open Lib.EState

set_option autoImplicit false

/-! ### Reading several tokens -/

section Reading

variable {cfg : LexConfig} {force force' : Bool} {t t' : List CHAR}

theorem ReadsTo.concat {cs : List Token} (h : ReadsTo cfg force t cs force' t') {w r r' : List CHAR}
    {tok : Token} (ht : t' = w ++ r) (hw : White w) (hr : Reads cfg force' r tok r') :
    ReadsTo cfg force t (cs ++ [tok]) tok.isPlus r' := by
  induction h with
  | nil =>
    subst ht
    exact .cons hw hr .nil
  | cons hw' hr' _ ih => exact .cons hw' hr' (ih ht hr)

theorem ReadsTo.length_le {cs : List Token} (h : ReadsTo cfg force t cs force' t') :
    cs.length + t'.length ≤ t.length := by
  induction h with
  | nil => simp
  | cons _ hr _ ih =>
    have := hr.length_lt
    simp only [List.length_cons, List.length_append]
    omega

theorem lexToken_white {w r r' : List CHAR} {tok : Token} (hw : White w)
    (h : Reads cfg force r tok r') : lexToken cfg force false (w ++ r) = some (tok, r') :=
  (lexToken_append hw r).trans (lexToken_of_reads h)

/-- The tokens that a text is read as lead to one place only. -/
theorem ReadsTo.unique {cs : List Token} {f₁ f₂ : Bool} {t₁ t₂ : List CHAR}
    (h₁ : ReadsTo cfg force t cs f₁ t₁) (h₂ : ReadsTo cfg force t cs f₂ t₂) :
    f₁ = f₂ ∧ t₁ = t₂ := by
  induction cs generalizing force t with
  | nil =>
    cases h₁
    cases h₂
    exact ⟨rfl, rfl⟩
  | cons tok cs ih =>
    generalize ht : t = t₀ at h₂
    cases h₁ with
    | cons hw hr hrest =>
      cases h₂ with
      | cons hw' hr' hrest' =>
        have hlex := lexToken_white hw hr
        rw [ht, lexToken_white hw' hr'] at hlex
        obtain ⟨_, rfl⟩ := Prod.mk.inj (Option.some.inj hlex)
        exact ih hrest hrest'

theorem Spells.length_le {ts : List Token} (h : Spells cfg force t ts) : ts.length ≤ t.length := by
  obtain ⟨_, _, hreads, _⟩ := h
  have := hreads.length_le
  omega

/-- The tokens that the language has. -/
def Token.plain : Token → Bool
  | .addop _ | .logop _ | .lrelop _ | .shift _ => true
  | .lparen | .rparen | .lbrack | .rbrack | .number _ => true
  | .mulop o => o ≠ .mulopSeg
  | .unop o => o = .unopNot ∨ o = .unopLow ∨ o = .unopHi
  | _ => false

theorem Reads.plain {tok : Token} (h : Reads cfg force t tok t') : tok.plain = true := by
  have hsymbols : ∀ x ∈ symbols, x.2.plain = true := by decide
  have hwords : ∀ x ∈ words, x.2.plain = true := by decide
  cases h with
  | symbol hs _ => exact hsymbols _ hs
  | word hs _ => exact hwords _ hs
  | literal _ _ => rfl

theorem Spells.uncons {tok : Token} {ts : List Token} (h : Spells cfg force t (tok :: ts)) :
    ∃ w r r', t = w ++ r ∧ White w ∧ Reads cfg force r tok r' ∧ Spells cfg tok.isPlus r' ts := by
  obtain ⟨f, e, hreads, hend⟩ := h
  cases hreads with
  | cons hw hr hrest => exact ⟨_, _, _, rfl, hw, hr, f, e, hrest, hend⟩

theorem lexToken_of_spells {ts : List Token} (h : Spells cfg force t ts) :
    ∃ t', lexToken cfg force false t = some (ts.head?.getD .eol, t') := by
  cases ts with
  | nil =>
    obtain ⟨f, e, hreads, hend⟩ := h
    cases hreads
    exact lexToken_atEnd hend
  | cons tok ts =>
    obtain ⟨w, r, r', rfl, hw, hr, _⟩ := h.uncons
    exact ⟨r', lexToken_white hw hr⟩

end Reading

/-! ### The state between tokens -/

section State

variable {Addr : Type} (env : Env Addr) (f₀ : Bool) (t₀ : List CHAR)

structure At (cs ts : List Token) (s : MasmState Addr) : Prop where
  prefer : s.preferSymbolValues = false
  text : ∃ f, ReadsTo env.config f₀ t₀ cs f s.lex ∧ Spells env.config f s.lex ts ∧
    (s.saved = none ∧ s.forcePositiveNumber = f ∨
      ∃ command, s.saved = some (ts.head?.getD .eol, command) ∧
        lexToken env.config f false s.lex = some (ts.head?.getD .eol, command) ∧
        s.forcePositiveNumber = (ts.head?.getD .eol).isPlus)

variable {env f₀ t₀} {cs ts : List Token} {s : MasmState Addr}

theorem At.plain {tok : Token} (h : At env f₀ t₀ cs (tok :: ts) s) : tok.plain = true := by
  obtain ⟨_, _, hspells, _⟩ := h.text
  obtain ⟨_, _, _, _, _, hr, _⟩ := hspells.uncons
  exact hr.plain

/-- Only the members for addresses differ. -/
def SameText (s s' : MasmState Addr) : Prop :=
  s'.lex = s.lex ∧ s'.saved = s.saved ∧ s'.forcePositiveNumber = s.forcePositiveNumber ∧
    s'.preferSymbolValues = s.preferSymbolValues

theorem At.sameText {s' : MasmState Addr} (h : At env f₀ t₀ cs ts s) (hs : SameText s s') :
    At env f₀ t₀ cs ts s' := by
  obtain ⟨hlex, hsaved, hforce, hprefer⟩ := hs
  obtain ⟨hpref, htext⟩ := h
  exact ⟨hprefer.trans hpref, by rw [hlex, hsaved, hforce]; exact htext⟩

theorem peekToken_at (h : At env f₀ t₀ cs ts s) :
    ∃ s', peekToken env s = .ok (ts.head?.getD .eol) s' ∧ At env f₀ t₀ cs ts s' ∧
      s'.saved ≠ none := by
  obtain ⟨hprefer, f, hreads, hspells, ⟨hsaved, hforce⟩ | ⟨command, hsaved, hlex, hforce⟩⟩ := h
  · obtain ⟨t', hlex⟩ := lexToken_of_spells hspells
    have hnext : nextToken env s = .ok (ts.head?.getD .eol) { s with lex := t' } := by
      simp [nextToken, get, getThe, MonadStateOf.get, EStateM.get, bind, EStateM.bind, set,
        EStateM.set, pure, EStateM.pure, hforce, hprefer, hlex]
    refine ⟨{ s with
      saved := some (ts.head?.getD .eol, t')
      forcePositiveNumber := (ts.head?.getD .eol).isPlus }, ?_, ⟨hprefer, ?_⟩, by simp⟩
    · simp [peekToken, get, getThe, MonadStateOf.get, EStateM.get, bind, EStateM.bind, hsaved,
        hnext, modify, modifyGet, MonadStateOf.modifyGet, EStateM.modifyGet, pure, EStateM.pure]
    · exact ⟨f, hreads, hspells, Or.inr ⟨t', rfl, hlex, rfl⟩⟩
  · refine ⟨s, ?_, ⟨hprefer, f, hreads, hspells, Or.inr ⟨command, hsaved, hlex, hforce⟩⟩,
      by simp [hsaved]⟩
    simp [peekToken, get, getThe, MonadStateOf.get, EStateM.get, bind, EStateM.bind, hsaved, pure,
      EStateM.pure]

theorem At.next {tok : Token} (h : At env f₀ t₀ cs (tok :: ts) s) (hs : s.saved ≠ none) :
    ∃ command, s.saved = some (tok, command) ∧
      At env f₀ t₀ (cs ++ [tok]) ts { s with saved := none, lex := command } := by
  obtain ⟨hprefer, f, hreads, hspells, hsaved | ⟨command, hsaved, hlex, hforce⟩⟩ := h
  · exact absurd hsaved.1 hs
  · obtain ⟨w, r, r', ht, hw, hr, hrest⟩ := hspells.uncons
    rw [ht, lexToken_white hw hr] at hlex
    obtain ⟨_, rfl⟩ := Prod.mk.inj (Option.some.inj hlex)
    exact ⟨r', hsaved, hprefer, tok.isPlus, hreads.concat ht hw hr, hrest, Or.inl ⟨rfl, hforce⟩⟩

theorem acceptToken_at {tok : Token} (h : At env f₀ t₀ cs (tok :: ts) s) (hs : s.saved ≠ none) :
    ∃ s', acceptToken s = .ok () s' ∧ At env f₀ t₀ (cs ++ [tok]) ts s' := by
  obtain ⟨command, hsaved, hnext⟩ := h.next hs
  refine ⟨_, ?_, hnext⟩
  simp [acceptToken, modify, modifyGet, MonadStateOf.modifyGet, EStateM.modifyGet, hsaved]

end State

end SdkTools.Masm
