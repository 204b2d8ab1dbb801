import SdkTools.M4.MacroRuns
import SdkTools.M4.Xtoken

/-!
# Expansion over the macro table

The loop of `main` with the operators of `define.c` on the hash table gives what it gives with the
same operators on stacks of values: two worlds that agree in their input and their macros are
expanded alike, as long as the operators keep them so.
-/

namespace SdkTools.M4

set_option autoImplicit false

/-! ### Two worlds -/

/-- Two runs stop alike, or return related results. -/
def Matches {α β : Type} (r : α → β → Prop) : Except Stop α → Except Stop β → Prop
  | .ok a, .ok b => r a b
  | .error stop, .error stop' => stop = stop'
  | _, _ => False

section

variable {ω ω' : Type}

/-- The input and the macros are the same. -/
structure World.Agrees (Q : ω → ω' → Prop) (w : World ω) (w' : World ω') : Prop where
  input : w.input = w'.input
  macros : w.macros = w'.macros
  rest : Q w.rest w'.rest

/-- So are the hold and the token array. -/
structure Xstate.Alike (Q : ω → ω' → Prop) (s : Xstate ω) (s' : Xstate ω') : Prop where
  hold : s.hold = s'.hold
  holdBlocks : s.holdBlocks = s'.holdBlocks
  toks : s.toks = s'.toks
  tokBlocks : s.tokBlocks = s'.tokBlocks
  world : s.world.Agrees Q s'.world

/-- The operators keep two worlds in agreement. -/
def Parallel (Q : ω → ω' → Prop) (rgop : Operators ω) (rgop' : Operators ω') : Prop :=
  ∀ c args w w', World.Agrees Q w w' → Matches (World.Agrees Q) (rgop c args w) (rgop' c args w')

/-- The same token, with what is left. -/
def SameToken (Q : ω → ω' → Prop) (a : TYP × TOK × Xstate ω) (b : TYP × TOK × Xstate ω') : Prop :=
  a.1 = b.1 ∧ a.2.1 = b.2.1 ∧ a.2.2.Alike Q b.2.2

variable {Q : ω → ω' → Prop} {addr : Addresses} {rgop : Operators ω} {rgop' : Operators ω'}
  {s : Xstate ω} {s' : Xstate ω'} {w : World ω} {w' : World ω'}

theorem Matches.bind {α α' β β' : Type} {r : α → α' → Prop} {r' : β → β' → Prop}
    {x : Except Stop α} {x' : Except Stop α'} {f : α → Except Stop β} {f' : α' → Except Stop β'}
    (h : Matches r x x') (hf : ∀ a a', r a a' → Matches r' (f a) (f' a')) :
    Matches r' (x >>= f) (x' >>= f') := by
  cases x with
  | error stop =>
    cases x' with
    | error stop' => exact h
    | ok a' => cases h
  | ok a =>
    cases x' with
    | error stop' => cases h
    | ok a' => exact hf a a' h

/-- A step that both runs have in common. -/
theorem Matches.bind_same {α β β' : Type} {r' : β → β' → Prop} {x x' : Except Stop α}
    {f : α → Except Stop β} {f' : α → Except Stop β'} (h : x = x')
    (hf : ∀ a, Matches r' (f a) (f' a)) : Matches r' (x >>= f) (x' >>= f') := by
  subst h
  cases x with
  | error stop => exact rfl
  | ok a => exact hf a

/-! ### Tokens -/

theorem World.Agrees.setInput (h : World.Agrees Q w w') (input : Text) :
    World.Agrees Q { w with input } { w' with input } := ⟨rfl, h.macros, h.rest⟩

theorem Xstate.Alike.setWorld (h : s.Alike Q s') (hw : World.Agrees Q w w') :
    Xstate.Alike Q { s with world := w } { s' with world := w' } :=
  ⟨h.hold, h.holdBlocks, h.toks, h.tokBlocks, hw⟩

theorem Xstate.Alike.setToks (h : s.Alike Q s') {toks toks' : List TOK} (ht : toks = toks') :
    Xstate.Alike Q { s with toks } { s' with toks := toks' } :=
  ⟨h.hold, h.holdBlocks, ht, h.tokBlocks, h.world⟩

theorem Xstate.Alike.addArgText (h : s.Alike Q s') (text : Text) :
    (s.addArgText text).Alike Q (s'.addArgText text) := by
  induction text generalizing s s' with
  | nil => exact h
  | cons tch text ih =>
    have hadd : (s.addArgTch tch).Alike Q (s'.addArgTch tch) := by
      obtain ⟨hhold, hblocks, htoks, htokBlocks, hworld⟩ := h
      refine ⟨?_, ?_, htoks, htokBlocks, hworld⟩
      · unfold Xstate.addArgTch
        dsimp only
        rw [hhold]
      · unfold Xstate.addArgTch
        dsimp only
        rw [hhold, hblocks]
    exact ih hadd

theorem Xstate.Alike.textPtok (h : s.Alike Q s') (tok : TOK) :
    s.textPtok addr tok = s'.textPtok addr tok := by
  unfold Xstate.textPtok Xstate.ptchMin
  rw [h.hold, h.holdBlocks]

theorem Xstate.Alike.ptokGet (h : s.Alike Q s') : s.ptokGet.Alike Q s'.ptokGet := by
  refine ⟨h.hold, h.holdBlocks, ?_, ?_, h.world⟩
  · unfold Xstate.ptokGet
    dsimp only
    rw [h.toks]
  · unfold Xstate.ptokGet
    dsimp only
    rw [h.toks, h.tokBlocks]

theorem Xstate.Alike.setTop (h : s.Alike Q s') {f f' : TOK → TOK} (hf : f = f') :
    (s.setTop f).Alike Q (s'.setTop f') := by
  subst hf
  refine ⟨h.hold, h.holdBlocks, ?_, h.tokBlocks, h.world⟩
  unfold Xstate.setTop
  dsimp only
  rw [h.toks]

theorem Xstate.Alike.openArgPtok (h : s.Alike Q s') : s.openArgPtok = s'.openArgPtok := by
  funext tok
  unfold Xstate.openArgPtok
  rw [h.hold]

theorem Xstate.Alike.closeArgPtok (h : s.Alike Q s') : s.closeArgPtok = s'.closeArgPtok := by
  funext tok
  unfold Xstate.closeArgPtok
  rw [h.hold]

theorem Xstate.Alike.snapArgPtok (h : s.Alike Q s') :
    s.snapArgPtok addr = s'.snapArgPtok addr := by
  funext tok
  unfold Xstate.snapArgPtok Xstate.ptchMin
  rw [h.holdBlocks]

theorem Xstate.Alike.unsnapArgPtok (h : s.Alike Q s') :
    s.unsnapArgPtok addr = s'.unsnapArgPtok addr := by
  funext tok
  unfold Xstate.unsnapArgPtok Xstate.ptchMin
  rw [h.holdBlocks]

theorem Xstate.Alike.ptokArgv (h : s.Alike Q s') (argv : ARGV) (i : Nat) :
    s.ptokArgv addr argv i = s'.ptokArgv addr argv i := by
  unfold Xstate.ptokArgv Xstate.rgtokArgv
  rw [h.toks, h.tokBlocks]

theorem Xstate.Alike.popArgPtok (h : s.Alike Q s') (tok : TOK) :
    Matches (Xstate.Alike Q) (s.popArgPtok addr tok) (s'.popArgPtok addr tok) := by
  unfold Xstate.popArgPtok Xstate.ptchMin
  rw [h.hold, h.holdBlocks]
  split
  · refine ⟨?_, rfl, h.toks, h.tokBlocks, h.world⟩
    rfl
  · exact rfl

theorem typGetPtok_alike (h : s.Alike Q s') :
    Matches (SameToken Q) (typGetPtok addr s) (typGetPtok addr s') := by
  unfold typGetPtok
  rw [h.world.input, h.openArgPtok]
  obtain ⟨typ, scanned⟩ := scanToken s'.world.input
  cases scanned with
  | error stop => exact rfl
  | ok result =>
    obtain ⟨text, input⟩ := result
    have hadd := (h.setWorld (h.world.setInput input)).addArgText text
    refine ⟨rfl, ?_, hadd⟩
    dsimp only
    rw [hadd.snapArgPtok, hadd.closeArgPtok]

/-! ### Arguments -/

section Arguments

variable {xtok : Xstate ω → Except Stop (TYP × TOK × Xstate ω)}
  {xtok' : Xstate ω' → Except Stop (TYP × TOK × Xstate ω')}

/-- The readers of tokens agree. -/
abbrev ReadAlike (Q : ω → ω' → Prop) (xtok : Xstate ω → Except Stop (TYP × TOK × Xstate ω))
    (xtok' : Xstate ω' → Except Stop (TYP × TOK × Xstate ω')) : Prop :=
  ∀ s s', Xstate.Alike Q s s' → Matches (SameToken Q) (xtok s) (xtok' s')

theorem firstTch_alike (h : s.Alike Q s') (tok : TOK) :
    firstTch addr s tok = firstTch addr s' tok := by
  unfold firstTch
  rw [h.textPtok]

theorem collectArg_alike (hxtok : ReadAlike Q xtok xtok') (fuel iDepth : Nat)
    (h : s.Alike Q s') :
    Matches (fun a b => a.1 = b.1 ∧ a.2.Alike Q b.2) (collectArg addr xtok fuel iDepth s)
      (collectArg addr xtok' fuel iDepth s') := by
  induction fuel generalizing iDepth s s' with
  | zero => exact rfl
  | succ fuel ih =>
    rw [collectArg, collectArg]
    apply (hxtok s s' h).bind
    rintro ⟨typ, tok, s₁⟩ ⟨_, _, s₁'⟩ ⟨rfl, rfl, h₁⟩
    dsimp only at h₁ ⊢
    split
    · apply Matches.bind_same (firstTch_alike h₁ tok)
      intro tch
      cases depthAfter tch iDepth with
      | none => exact ⟨rfl, h₁⟩
      | some iDepth => exact ih iDepth h₁
    · exact ih iDepth h₁

theorem collectArgs_alike (hxtok : ReadAlike Q xtok xtok') (fuel : Nat) (h : s.Alike Q s') :
    Matches (Xstate.Alike Q) (collectArgs addr xtok fuel s) (collectArgs addr xtok' fuel s') := by
  induction fuel generalizing s s' with
  | zero => exact rfl
  | succ fuel ih =>
    rw [collectArgs, collectArgs]
    apply Matches.bind_same (by rw [h.world.input])
    intro input
    have h₁ := (h.setWorld (h.world.setInput input)).ptokGet
    have h₂ := h₁.setTop h₁.openArgPtok
    apply (collectArg_alike hxtok fuel 0 h₂).bind
    rintro ⟨tok, s₃⟩ ⟨_, s₃'⟩ ⟨rfl, h₃⟩
    dsimp only at h₃ ⊢
    have h₄ := (h₃.setTop h₃.closeArgPtok).setTop
      (rfl : (fun top : TOK => { top with ctch := top.ctch - 1 }) = _)
    apply Matches.bind_same (firstTch_alike h₄ tok)
    intro tch
    split
    · exact ih h₄
    · exact h₄

theorem collectParens_alike (hxtok : ReadAlike Q xtok xtok') (fuel : Nat) (h : s.Alike Q s') :
    Matches (Xstate.Alike Q) (collectParens addr xtok fuel s)
      (collectParens addr xtok' fuel s') := by
  unfold collectParens
  have hpeek : tchPeekAt s.world = tchPeekAt s'.world := by
    unfold tchPeekAt
    rw [h.world.input]
  apply Matches.bind_same hpeek
  intro tch
  split
  · apply collectArgs_alike hxtok
    rw [h.world.input]
    exact h.setWorld (h.world.setInput _)
  · exact h

theorem argvParsePtok_alike (hxtok : ReadAlike Q xtok xtok') (fuel : Nat) (ptok : TOK)
    (h : s.Alike Q s') :
    Matches (fun a b => a.1 = b.1 ∧ a.2.Alike Q b.2) (argvParsePtok addr xtok fuel ptok s)
      (argvParsePtok addr xtok' fuel ptok s') := by
  unfold argvParsePtok
  have h₁ := h.ptokGet.ptokGet.setTop (rfl : (fun _ : TOK => ptok) = _)
  apply (collectParens_alike hxtok fuel h₁).bind
  intro s₂ s₂' h₂
  have hitok : s.ptokGet.toks.length = s'.ptokGet.toks.length := by rw [h.ptokGet.toks]
  have h₃ : Xstate.Alike Q
      { s₂ with toks := s₂.toks.modify (s.ptokGet.toks.length - 1) fun tok =>
          { tok with ctch := s₂.toks.length - s.ptokGet.toks.length - 1 } }
      { s₂' with toks := s₂'.toks.modify (s'.ptokGet.toks.length - 1) fun tok =>
          { tok with ctch := s₂'.toks.length - s'.ptokGet.toks.length - 1 } } :=
    h₂.setToks (by rw [h₂.toks, hitok])
  have h₄ := h₃.ptokGet.setTop h₃.ptokGet.openArgPtok
  refine ⟨?_, h₄.setTop h₄.closeArgPtok⟩
  dsimp only
  rw [hitok]
  unfold Xstate.rgtokArgv
  rw [h₂.tokBlocks]

theorem argvTexts_alike (h : s.Alike Q s') (argv : ARGV) (first count : Nat) :
    argvTexts addr s argv first count = argvTexts addr s' argv first count := by
  induction count generalizing first with
  | zero => rfl
  | succ count ih =>
    rw [argvTexts, argvTexts, h.ptokArgv]
    congr 1
    funext tok
    rw [h.textPtok, ih]

/-! ### Calls -/

theorem crackleArgv_alike (hops : Parallel Q rgop rgop') (name : Text) (args : List Text)
    (h : World.Agrees Q w w') :
    Matches (World.Agrees Q) (crackleArgv rgop name args w) (crackleArgv rgop' name args w') := by
  have hpush (text : Text) : World.Agrees Q (w.pushPtok text) (w'.pushPtok text) := by
    unfold World.pushPtok
    rw [h.input]
    exact h.setInput _
  unfold crackleArgv
  rw [h.macros]
  split
  · split
    · exact hops _ _ w w' h
    · exact hpush _
  · exact hpush _
  · exact hpush _

theorem xmacPtok_alike (hops : Parallel Q rgop rgop') (hxtok : ReadAlike Q xtok xtok')
    (fuel : Nat) (ptok : TOK) (h : s.Alike Q s') :
    Matches (Xstate.Alike Q) (xmacPtok addr rgop xtok fuel ptok s)
      (xmacPtok addr rgop' xtok' fuel ptok s') := by
  unfold xmacPtok
  rw [h.unsnapArgPtok]
  apply (argvParsePtok_alike hxtok fuel _ h).bind
  rintro ⟨argv, s₁⟩ ⟨_, s₁'⟩ ⟨rfl, h₁⟩
  dsimp only at h₁ ⊢
  apply Matches.bind_same (h₁.ptokArgv _ _)
  intro head
  have hsnap : (s₁.toks.mapIdx fun i tok =>
        if argv.itok ≤ i ∧ i ≤ argv.itok + head.ctch + 1 then s₁.snapArgPtok addr tok else tok) =
      s₁'.toks.mapIdx fun i tok =>
        if argv.itok ≤ i ∧ i ≤ argv.itok + head.ctch + 1 then s₁'.snapArgPtok addr tok
        else tok := by
    rw [h₁.toks, h₁.snapArgPtok]
  have h₂ := h₁.setToks hsnap
  apply Matches.bind_same (h₂.ptokArgv _ _)
  intro nameTok
  apply Matches.bind_same (h₂.textPtok _)
  intro name
  apply Matches.bind_same (argvTexts_alike h₂ _ _ _)
  intro args
  apply (crackleArgv_alike hops name args h₂.world).bind
  intro world world' hworld
  have h₃ := h₂.setWorld hworld
  apply Matches.bind_same (h₃.ptokArgv _ _)
  intro dollar0
  apply (h₃.popArgPtok dollar0).bind
  intro s₄ s₄' h₄
  exact h₄.setToks (by rw [h₄.toks])

end Arguments

theorem typXtokPtok_alike (hops : Parallel Q rgop rgop') (fuel : Nat) :
    ReadAlike Q (typXtokPtok addr rgop fuel) (typXtokPtok addr rgop' fuel) := by
  induction fuel with
  | zero => exact fun _ _ _ => rfl
  | succ fuel ih =>
    intro s s' h
    rw [typXtokPtok, typXtokPtok]
    apply (typGetPtok_alike h).bind
    rintro ⟨typ, tok, s₁⟩ ⟨_, _, s₁'⟩ ⟨rfl, rfl, h₁⟩
    dsimp only at h₁ ⊢
    apply Matches.bind_same (h₁.textPtok tok)
    intro text
    rw [h₁.world.macros]
    split
    · apply (xmacPtok_alike hops ih fuel tok h₁).bind
      intro s₂ s₂' h₂
      exact ih s₂ s₂' h₂
    · exact ⟨rfl, rfl, h₁⟩

/-! ### The main loop -/

def tchEoi : TCH := 26

def tokEoi : Text := [tchMagic, tchEoi]

/-- The loop of `main` over the tokens of a file, up to the mark at its end. -/
def mainLoop {ω : Type} (addr : Addresses) (rgop : Operators ω) :
    Nat → Text → Xstate ω → Except Stop (Text × Xstate ω)
  | 0, _, _ => .error .fuel
  | fuel + 1, out, s => do
    let (typ, tok, s) ← typXtokPtok addr rgop fuel s
    let text ← s.textPtok addr tok
    if typ = .typMagic then
      if text.getD 1 0 = tchEoi then .ok (out, s)
      else
        let s ← s.popArgPtok addr tok
        mainLoop addr rgop fuel out s
    else
      let s ← s.popArgPtok addr tok
      mainLoop addr rgop fuel (out ++ text) s

theorem mainLoop_alike (hops : Parallel Q rgop rgop') (fuel : Nat) (out : Text)
    (h : s.Alike Q s') :
    Matches (fun a b => a.1 = b.1 ∧ a.2.Alike Q b.2) (mainLoop addr rgop fuel out s)
      (mainLoop addr rgop' fuel out s') := by
  induction fuel generalizing out s s' with
  | zero => exact rfl
  | succ fuel ih =>
    rw [mainLoop, mainLoop]
    apply (typXtokPtok_alike hops fuel s s' h).bind
    rintro ⟨typ, tok, s₁⟩ ⟨_, _, s₁'⟩ ⟨rfl, rfl, h₁⟩
    dsimp only at h₁ ⊢
    apply Matches.bind_same (h₁.textPtok tok)
    intro text
    split
    · split
      · exact ⟨rfl, h₁⟩
      · apply (h₁.popArgPtok tok).bind
        intro s₂ s₂' h₂
        exact ih out h₂
    · apply (h₁.popArgPtok tok).bind
      intro s₂ s₂' h₂
      exact ih _ h₂

/-- The loop of `main` over its files; `InputHfPtsz` puts the mark behind each. -/
def mainFiles {ω : Type} (addr : Addresses) (rgop : Operators ω) (fuel : Nat) :
    List HF → Text → Xstate ω → Except Stop (Text × Xstate ω)
  | [], out, s => .ok (out, s)
  | hf :: files, out, s => do
    let input := fileText hf ++ tokEoi ++ s.world.input
    let (out, s) ← mainLoop addr rgop fuel out { s with world := { s.world with input } }
    mainFiles addr rgop fuel files out s

theorem mainFiles_alike (hops : Parallel Q rgop rgop') (fuel : Nat) (files : List HF)
    (out : Text) (h : s.Alike Q s') :
    Matches (fun a b => a.1 = b.1 ∧ a.2.Alike Q b.2) (mainFiles addr rgop fuel files out s)
      (mainFiles addr rgop' fuel files out s') := by
  induction files generalizing out s s' with
  | nil => exact ⟨rfl, h⟩
  | cons hf files ih =>
    rw [mainFiles, mainFiles]
    dsimp only
    rw [h.world.input]
    apply (mainLoop_alike hops fuel out (h.setWorld (h.world.setInput _))).bind
    rintro ⟨out₁, s₁⟩ ⟨_, s₁'⟩ ⟨rfl, h₁⟩
    exact ih out₁ h₁

end

/-! ### The operators on the table -/

namespace MacroTable

/-- `rgop`, as far as it changes the macro table. -/
def callOf (ch : TCH) (name : Text) (argv : List Text) : Option Call :=
  match ch.toNat with
  | 0 => some (.define name argv)
  | 1 => some (.undefine argv)
  | 2 => some (.defn argv)
  | 3 => some (.pushdef name argv)
  | 4 => some (.popdef argv)
  | 5 => some (.ifdef name argv)
  | 22 => some (.traceon argv)
  | 23 => some (.traceoff argv)
  | _ => none

/-- The world over the hash table: every lookup goes through the chains. -/
def Machine.world (m : Machine) : World (Heap × Bool) where
  input := m.input
  macros name := match m.valueOf name with
    | .ok value => value.map Prod.fst
    | .error _ => none
  rest := (m.heap, m.g_fTrace)

/-- The world over stacks of values. -/
def Stacks.world (σ : Stacks) : World ((Text → List (Text × Bool)) × Bool) where
  input := σ.input
  macros name := (σ.stack name).head?.map Prod.fst
  rest := (σ.stack, σ.g_fTrace)

/-- The other operators use their arguments and the input. -/
abbrev Others := TCH → List Text → Text → Except Stop Text

def rgop (other : Others) : Operators (Heap × Bool) := fun ch args w =>
  match callOf ch (args.headD []) args.tail with
  | some call => do
    let m ← call.exec ⟨w.rest.1, w.input, w.rest.2⟩
    .ok m.world
  | none => do
    let input ← other ch args w.input
    .ok { w with input }

def rgopSpec (other : Others) : Operators ((Text → List (Text × Bool)) × Bool) := fun ch args w =>
  match callOf ch (args.headD []) args.tail with
  | some call => do
    let σ ← call.spec ⟨w.rest.1, w.input, w.rest.2⟩
    .ok σ.world
  | none => do
    let input ← other ch args w.input
    .ok { w with input }

/-- The heap holds these stacks. -/
def Stored (a : Heap × Bool) (b : (Text → List (Text × Bool)) × Bool) : Prop :=
  ∃ es, Represents ⟨a.1, [], a.2⟩ es ⟨b.1, [], b.2⟩

theorem Represents.input_irrelevant {m : Machine} {σ : Stacks} {es : List Entry}
    (hm : Represents m es σ) (input : Text) :
    Represents { m with input } es { σ with input } :=
  ⟨hm.holds, hm.values, hm.stack, rfl, hm.trace⟩

theorem Represents.agrees {m : Machine} {σ : Stacks} {es : List Entry} (hm : Represents m es σ) :
    World.Agrees Stored m.world σ.world := by
  refine ⟨hm.input.symm, ?_, es, hm.input_irrelevant []⟩
  funext name
  unfold Machine.world Stacks.world
  dsimp only
  rw [hm.valueOf name]
  dsimp only
  rw [Option.map_map]
  rfl

theorem rgop_parallel (other : Others) : Parallel Stored (rgop other) (rgopSpec other) := by
  intro ch args w w' h
  unfold rgop rgopSpec
  obtain ⟨es, hm⟩ := h.rest
  cases callOf ch (args.headD []) args.tail with
  | none =>
    rw [h.input]
    apply Matches.bind_same rfl
    intro input
    exact h.setInput input
  | some call =>
    have hm' := hm.input_irrelevant w.input
    obtain ⟨hok, herror⟩ := exec_spec hm' call
    dsimp only at hok herror ⊢
    rw [← h.input]
    cases hspec : call.spec ⟨w'.rest.1, w.input, w'.rest.2⟩ with
    | error stop =>
      rw [herror stop hspec]
      exact rfl
    | ok σ =>
      obtain ⟨m, es', hrun, hm₁⟩ := hok σ hspec
      rw [hrun]
      exact hm₁.agrees

/-- The whole program: over the hash table `main` writes, file after file, what it writes over
stacks of values, and stops where it stops there; the table is in order to the end. -/
theorem main_refines_stacks (h : Heap) (addr : Addresses) (other : Others) (fuel : Nat)
    (files : List HF) :
    ∃ h₀, initPredefs mptchptch 0 (initHash h) = .ok h₀ ∧
      Matches (fun a b => a.1 = b.1 ∧ a.2.hold = b.2.hold ∧
          ∃ es, Represents ⟨a.2.world.rest.1, a.2.world.input, a.2.world.rest.2⟩ es
            ⟨b.2.world.rest.1, b.2.world.input, b.2.world.rest.2⟩)
        (mainFiles addr (rgop other) fuel files [] ⟨[], 1, [], 0, Machine.world ⟨h₀, [], false⟩⟩)
        (mainFiles addr (rgopSpec other) fuel files []
          ⟨[], 1, [], 0, (Stacks.start []).world⟩) := by
  obtain ⟨h₀, es, hinit, hm⟩ := start_spec h []
  have hstart : Xstate.Alike Stored ⟨[], 1, [], 0, Machine.world ⟨h₀, [], false⟩⟩
      ⟨[], 1, [], 0, (Stacks.start []).world⟩ := ⟨rfl, rfl, rfl, rfl, hm.agrees⟩
  have hfiles : Matches (fun a b => a.1 = b.1 ∧ a.2.Alike Stored b.2)
      (mainFiles addr (rgop other) fuel files [] _)
      (mainFiles addr (rgopSpec other) fuel files [] _) :=
    mainFiles_alike (rgop_parallel other) fuel files [] hstart
  refine ⟨h₀, hinit, ?_⟩
  generalize mainFiles addr (rgop other) fuel files [] _ = x at hfiles ⊢
  generalize mainFiles addr (rgopSpec other) fuel files [] _ = y at hfiles ⊢
  cases x with
  | error stop =>
    cases y with
    | error stop' => exact hfiles
    | ok b => cases hfiles
  | ok a =>
    cases y with
    | error stop => cases hfiles
    | ok b =>
      obtain ⟨hout, halike⟩ := hfiles
      obtain ⟨es', hm'⟩ := halike.world.rest
      refine ⟨hout, halike.hold, es', ?_⟩
      have hinput := hm'.input_irrelevant a.2.world.input
      rw [← halike.world.input]
      exact hinput

end MacroTable

end SdkTools.M4
