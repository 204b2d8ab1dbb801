import Mathlib
import SdkTools.M4.Arguments

/-!
# The arguments in the hold

The two buffers of `xtoken.c` against the reading of a call. Between tokens the hold has the text
of what is collected behind what it had before, and the token array the tokens that are open.
-/

namespace SdkTools.M4

open Lib

set_option autoImplicit false

variable {ω : Type} {addr : Addresses} {rgop : Operators ω}

/-! ## The buffers -/

theorem addArgText_spec (s : Xstate ω) (text : Text) :
    (s.addArgText text).hold = s.hold ++ text ∧ (s.addArgText text).toks = s.toks ∧
      (s.addArgText text).tokBlocks = s.tokBlocks ∧ (s.addArgText text).world = s.world := by
  induction text generalizing s with
  | nil => exact ⟨(List.append_nil _).symm, rfl, rfl, rfl⟩
  | cons c text ih =>
    obtain ⟨hhold, hrest⟩ := ih (s.addArgTch c)
    refine ⟨hhold.trans ?_, hrest⟩
    simp [Xstate.addArgTch]

theorem setTop_toks {s : Xstate ω} {toks : List TOK} {top : TOK} (h : s.toks = toks ++ [top])
    (f : TOK → TOK) : (s.setTop f).toks = toks ++ [f top] := by
  rw [Xstate.setTop, h]
  exact List.modifyLast_concat f top toks

theorem ptokGet_toks (s : Xstate ω) : s.ptokGet.toks = s.toks ++ [⟨0, 0⟩] := rfl

theorem ptokGet_blocks {s : Xstate ω} {m : Meter} (h : s.tokBlocks = m.tokBlocks) :
    s.ptokGet.tokBlocks = (m.get s.toks.length).tokBlocks := by
  unfold Xstate.ptokGet Meter.get
  rw [h]

/-- An unsnapped token of the hold with its text. -/
def HoldsArg (hold : Text) (tok : TOK) (arg : Text) : Prop :=
  ∃ before behind, hold = before ++ (arg ++ behind) ∧ tok = ⟨before.length, arg.length⟩

theorem HoldsArg.append {hold arg : Text} {tok : TOK} (h : HoldsArg hold tok arg) (more : Text) :
    HoldsArg (hold ++ more) tok arg := by
  obtain ⟨before, behind, rfl, rfl⟩ := h
  exact ⟨before, behind ++ more, by simp, rfl⟩

/-- A token is read where it is snapped. -/
theorem HoldsArg.text {s : Xstate ω} {tok : TOK} {arg : Text} (h : HoldsArg s.hold tok arg) :
    s.textPtok addr (s.snapArgPtok addr tok) = .ok arg := by
  obtain ⟨before, behind, hhold, rfl⟩ := h
  have hu : s.ptchMin addr + before.length - s.ptchMin addr = before.length :=
    Nat.add_sub_cancel_left ..
  unfold Xstate.textPtok Xstate.snapArgPtok
  simp only [hu]
  rw [if_pos ⟨Nat.le_add_right _ _, by simp [hhold]⟩, hhold, List.drop_left, List.take_left]

theorem popArgPtok_snapped {s : Xstate ω} {below behind : Text} (h : s.hold = below ++ behind)
    (ctch : Nat) : s.popArgPtok addr (s.snapArgPtok addr ⟨below.length, ctch⟩) =
      .ok { s with hold := below } := by
  have hu : s.ptchMin addr + below.length - s.ptchMin addr = below.length :=
    Nat.add_sub_cancel_left ..
  have htake : s.hold.take below.length = below := by rw [h, List.take_left]
  unfold Xstate.popArgPtok Xstate.snapArgPtok
  simp only [hu, htake]
  exact if_pos ⟨Nat.le_add_right _ _, by simp [h]⟩

theorem ptokArgv_eq {s : Xstate ω} {argv : ARGV} {i : Nat} {tok : TOK}
    (hbase : argv.rgtokArgv = s.rgtokArgv addr) (h : s.toks[i]? = some tok) :
    s.ptokArgv addr argv i = .ok tok := by
  rw [Xstate.ptokArgv, if_pos hbase, h]

/-! ## Runs with a meter -/

theorem ok_bind {α β : Type} (a : α) (f : α → Except Stop β) : (Except.ok a >>= f) = f a := rfl

/-- Under a cookie that was moved the run is undefined; otherwise it ends well. -/
def Lands {α : Type} (m : Meter) (result : Except Stop α) (good : α → Prop) : Prop :=
  if m.stale = true then result = .error .undefined else ∃ a, result = .ok a ∧ good a

theorem Lands.of_ok {α : Type} {m : Meter} {result : Except Stop α} {good : α → Prop} {a : α}
    (hm : m.stale = false) (h : result = .ok a) (ha : good a) : Lands m result good := by
  rw [Lands, hm, if_neg Bool.false_ne_true]
  exact ⟨a, h, ha⟩

theorem Lands.bind {α β : Type} {m₁ m₂ : Meter} {x : Except Stop α} {f : α → Except Stop β}
    {good₁ : α → Prop} {good₂ : β → Prop} (h : Lands m₁ x good₁)
    (hsticky : m₁.stale = true → m₂.stale = true)
    (hf : ∀ a, m₁.stale = false → good₁ a → Lands m₂ (f a) good₂) :
    Lands m₂ (x >>= f) good₂ := by
  cases hm : m₁.stale with
  | true =>
    rw [Lands, if_pos hm] at h
    rw [Lands, if_pos (hsticky hm), h]
    rfl
  | false =>
    rw [Lands, if_neg (by simp [hm])] at h
    obtain ⟨a, rfl, ha⟩ := h
    exact hf a hm ha

theorem Lands.imp {α : Type} {m : Meter} {result : Except Stop α} {good good' : α → Prop}
    (h : Lands m result good) (himp : ∀ a, good a → good' a) : Lands m result good' := by
  cases hm : m.stale with
  | true =>
    rw [Lands, if_pos hm] at h ⊢
    exact h
  | false =>
    rw [Lands, if_neg (by simp [hm])] at h ⊢
    obtain ⟨a, ha, hgood⟩ := h
    exact ⟨a, ha, himp a hgood⟩

/-- The state behind a text that was added to the hold. -/
structure After (s s' : Xstate ω) (text : Text) (m : Meter) (w : World ω) : Prop where
  hold : s'.hold = s.hold ++ text
  toks : s'.toks = s.toks
  blocks : s'.tokBlocks = m.tokBlocks
  world : s'.world = w

/-- The token that a reader gives is stacked on the hold, and snapped. -/
def Stacks (addr : Addresses) (xtok : Xstate ω → Except Stop (TYP × TOK × Xstate ω))
    (read : Reader ω) : Prop :=
  ∀ s m typ text m' w', s.tokBlocks = m.tokBlocks → m.stale = false →
    read s.toks.length m s.world = .ok (typ, text, m', w') →
    Lands m' (xtok s) fun r => After s r.2.2 text m' w' ∧ r.1 = typ ∧
      r.2.1 = r.2.2.snapArgPtok addr ⟨s.hold.length, text.length⟩ ∧
      (typ = .typPunc → ∃ c, text = [c])

section Collecting

variable {xtok : Xstate ω → Except Stop (TYP × TOK × Xstate ω)} {read : Reader ω}

theorem firstTch_eq {s : Xstate ω} {before : Text} {c : TCH} (h : s.hold = before ++ [c]) :
    firstTch addr s (s.snapArgPtok addr ⟨before.length, 1⟩) = .ok c := by
  have hholds : HoldsArg s.hold ⟨before.length, 1⟩ [c] := ⟨before, [], h, rfl⟩
  rw [firstTch, hholds.text]
  rfl

theorem tokenDepth_other {typ : TYP} (h : typ ≠ .typPunc) (text : Text) (iDepth : Nat) :
    tokenDepth typ text iDepth = some iDepth := by
  unfold tokenDepth
  split
  · exact absurd rfl h
  · rfl

theorem collectArg_lands (hstacks : Stacks addr xtok read) (hsticky : Sticky read)
    {fuel iDepth : Nat} {s : Xstate ω} {m m' : Meter} {w' : World ω} {text delimiter : Text}
    (hs : s.tokBlocks = m.tokBlocks) (hm : m.stale = false)
    (hread : argText read s.toks.length fuel iDepth m s.world = .ok (text, delimiter, m', w')) :
    Lands m' (collectArg addr xtok fuel iDepth s) fun r =>
      After s r.2 (text ++ delimiter) m' w' ∧
        ∃ c, delimiter = [c] ∧ firstTch addr r.2 r.1 = .ok c := by
  induction fuel generalizing iDepth s m text with
  | zero => cases hread
  | succ fuel ih =>
    obtain ⟨⟨typ, tok, m₁, w₁⟩, htok, hread⟩ := bind_eq_ok hread
    simp only at hread
    rw [collectArg]
    refine (hstacks s m typ tok m₁ w₁ hs hm htok).bind (fun hm₁ => ?_) fun r hm₁ hr => ?_
    · split at hread
      · cases hread
        exact hm₁
      · obtain ⟨⟨more, d, m₂, w₂⟩, hmore, hread⟩ := bind_eq_ok hread
        cases hread
        exact argText_sticky hsticky hmore hm₁
    obtain ⟨typ', ptok, s₁⟩ := r
    obtain ⟨hafter, rfl, hptok, hpunc⟩ := hr
    simp only at hafter hptok ⊢
    -- The token does not end the argument: the rest is collected behind it.
    have hnext : ∀ iDepth' more, argText read s.toks.length fuel iDepth' m₁ w₁ =
        .ok (more, delimiter, m', w') → text = tok ++ more →
        Lands m' (collectArg addr xtok fuel iDepth' s₁) fun r =>
          After s r.2 (text ++ delimiter) m' w' ∧
            ∃ c, delimiter = [c] ∧ firstTch addr r.2 r.1 = .ok c := by
      intro iDepth' more hmore htext
      rw [← hafter.toks, ← hafter.world] at hmore
      have hrest := ih hafter.blocks hm₁ hmore
      refine hrest.imp fun r hr => ⟨⟨?_, ?_, hr.1.blocks, hr.1.world⟩, hr.2⟩
      · rw [hr.1.hold, hafter.hold, htext]
        simp
      · rw [hr.1.toks, hafter.toks]
    by_cases hp : typ' = .typPunc
    · subst hp
      obtain ⟨c, rfl⟩ := hpunc rfl
      rw [if_pos rfl, hptok]
      have hfirst : firstTch addr s₁ (s₁.snapArgPtok addr ⟨s.hold.length, [c].length⟩) = .ok c :=
        firstTch_eq hafter.hold
      rw [hfirst, ok_bind]
      rw [tokenDepth] at hread
      cases hd : depthAfter c iDepth with
      | none =>
        rw [hd] at hread
        cases hread
        exact .of_ok hm₁ rfl ⟨hafter, c, rfl, hfirst⟩
      | some iDepth' =>
        rw [hd] at hread
        obtain ⟨⟨more, d, m₂, w₂⟩, hmore, hread⟩ := bind_eq_ok hread
        cases hread
        exact hnext iDepth' more hmore rfl
    · rw [if_neg hp]
      rw [tokenDepth_other hp] at hread
      obtain ⟨⟨more, d, m₂, w₂⟩, hmore, hread⟩ := bind_eq_ok hread
      cases hread
      exact hnext iDepth more hmore rfl

/-- The state behind the arguments: each has its token, and its text in the hold. -/
def Collected (s : Xstate ω) (args : List Text) (m : Meter) (w : World ω) (s' : Xstate ω) : Prop :=
  ∃ text toks, s'.hold = s.hold ++ text ∧ s'.toks = s.toks ++ toks ∧
    List.Forall₂ (HoldsArg s'.hold) toks args ∧ s'.tokBlocks = m.tokBlocks ∧ s'.world = w

theorem Collected.cons {s s₁ s' : Xstate ω} {arg delimiter : Text} {args : List Text} {m : Meter}
    {w : World ω} (hhold : s₁.hold = s.hold ++ (arg ++ delimiter))
    (htoks : s₁.toks = s.toks ++ [⟨s.hold.length, arg.length⟩])
    (h : Collected s₁ args m w s') : Collected s (arg :: args) m w s' := by
  obtain ⟨text, toks, hhold', htoks', hargs, hrest⟩ := h
  refine ⟨arg ++ delimiter ++ text, ⟨s.hold.length, arg.length⟩ :: toks, ?_, ?_, ?_, hrest⟩
  · rw [hhold', hhold]
    simp
  · rw [htoks', htoks]
    simp
  · refine .cons ⟨s.hold, delimiter ++ text, ?_, rfl⟩ hargs
    rw [hhold', hhold]
    simp

theorem collectArgs_lands (hstacks : Stacks addr xtok read) (hsticky : Sticky read)
    {fuel : Nat} {s : Xstate ω} {m m' : Meter} {w' : World ω} {args : List Text}
    (hs : s.tokBlocks = m.tokBlocks) (hm : m.stale = false)
    (hread : argTexts read fuel s.toks.length m s.world = .ok (args, m', w')) :
    Lands m' (collectArgs addr xtok fuel s) (Collected s args m' w') := by
  induction fuel generalizing s m args with
  | zero => cases hread
  | succ fuel ih =>
    obtain ⟨input, hinput, hread⟩ := bind_eq_ok hread
    obtain ⟨⟨text, delimiter, m₁, w₁⟩, htext, hread⟩ := bind_eq_ok hread
    simp only at hread
    rw [collectArgs, hinput]
    -- The argument is opened at the end of the hold.
    let s₀ : Xstate ω := { s with world := { s.world with input } }
    let s₁ : Xstate ω := s₀.ptokGet.setTop s₀.ptokGet.openArgPtok
    have htoks₁ : s₁.toks = s.toks ++ [⟨s.hold.length, 0⟩] :=
      setTop_toks (ptokGet_toks s₀) s₀.ptokGet.openArgPtok
    have hlength : s₁.toks.length = s.toks.length + 1 := by
      rw [htoks₁, List.length_append, List.length_singleton]
    have hblocks : s₁.tokBlocks = (m.get s.toks.length).tokBlocks :=
      ptokGet_blocks (s := s₀) hs
    have hlands : Lands m₁ (collectArg addr xtok fuel 0 s₁) fun r =>
        After s₁ r.2 (text ++ delimiter) m₁ w₁ ∧
          ∃ c, delimiter = [c] ∧ firstTch addr r.2 r.1 = .ok c := by
      refine collectArg_lands hstacks hsticky hblocks hm ?_
      rw [hlength]
      exact htext
    refine hlands.bind (fun hm₁ => ?_) fun r hm₁ hr => ?_
    · split at hread
      · obtain ⟨⟨more, m₂, w₂⟩, hmore, hread⟩ := bind_eq_ok hread
        cases hread
        exact argTexts_sticky hsticky hmore hm₁
      · cases hread
        exact hm₁
    obtain ⟨tok, s₂⟩ := r
    obtain ⟨hafter, c, rfl, hfirst⟩ := hr
    simp only at hafter hfirst ⊢
    -- It is closed behind its delimiter, which is eaten.
    let s₃ : Xstate ω := s₂.setTop s₂.closeArgPtok
    let s₄ : Xstate ω := s₃.setTop fun top => { top with ctch := top.ctch - 1 }
    have hhold₄ : s₄.hold = s.hold ++ (text ++ [c]) := hafter.hold
    have htoks₃ : s₃.toks = s.toks ++ [s₂.closeArgPtok ⟨s.hold.length, 0⟩] :=
      setTop_toks (hafter.toks.trans htoks₁) s₂.closeArgPtok
    have hctch : s₂.hold.length - s.hold.length - 1 = text.length := by
      rw [show s₂.hold = s.hold ++ (text ++ [c]) from hafter.hold]
      simp
    have htoks₄ : s₄.toks = s.toks ++ [⟨s.hold.length, text.length⟩] := by
      rw [← hctch]
      exact setTop_toks htoks₃ _
    have hfirst₄ : firstTch addr s₄ tok = .ok c := hfirst
    show Lands m' (firstTch addr s₄ tok >>= fun tch =>
      if tch = tchComma then collectArgs addr xtok fuel s₄ else .ok s₄) _
    rw [hfirst₄]
    show Lands m' (if c = tchComma then collectArgs addr xtok fuel s₄ else .ok s₄) _
    by_cases hc : c = tchComma
    · rw [if_pos (by rw [hc])] at hread
      rw [if_pos hc]
      obtain ⟨⟨more, m₂, w₂⟩, hmore, hread⟩ := bind_eq_ok hread
      cases hread
      have hlength₄ : s₄.toks.length = s.toks.length + 1 := by
        rw [htoks₄, List.length_append, List.length_singleton]
      rw [← hlength₄, ← show s₄.world = w₁ from hafter.world] at hmore
      exact (ih (s := s₄) hafter.blocks hm₁ hmore).imp fun s' hs' => hs'.cons hhold₄ htoks₄
    · rw [if_neg (by simpa using hc)] at hread
      rw [if_neg hc]
      cases hread
      refine .of_ok hm₁ rfl (Collected.cons hhold₄ htoks₄ ⟨[], [], ?_, ?_, .nil, ?_, ?_⟩)
      · exact (List.append_nil _).symm
      · exact (List.append_nil _).symm
      · exact hafter.blocks
      · exact hafter.world

theorem collectParens_lands (hstacks : Stacks addr xtok read) (hsticky : Sticky read)
    {fuel : Nat} {s : Xstate ω} {m m' : Meter} {w' : World ω} {args : List Text}
    (hs : s.tokBlocks = m.tokBlocks) (hm : m.stale = false)
    (hread : callArgs read fuel s.toks.length m s.world = .ok (args, m', w')) :
    Lands m' (collectParens addr xtok fuel s) (Collected s args m' w') := by
  obtain ⟨tch, htch, hread⟩ := bind_eq_ok hread
  rw [collectParens, htch]
  show Lands m' (if tch = tchLpar then collectArgs addr xtok fuel
    { s with world := { s.world with input := s.world.input.tail } } else .ok s) _
  by_cases h : tch = tchLpar
  · rw [if_pos h] at hread ⊢
    exact collectArgs_lands hstacks hsticky
      (s := { s with world := { s.world with input := s.world.input.tail } }) hs hm hread
  · rw [if_neg h] at hread ⊢
    cases hread
    exact .of_ok hm rfl ⟨[], [], (List.append_nil _).symm, (List.append_nil _).symm, .nil, hs, rfl⟩

/-- The tokens of a call from `$#` to the null argument, unsnapped. -/
theorem argvParsePtok_lands (hstacks : Stacks addr xtok read) (hsticky : Sticky read)
    {fuel : Nat} {s : Xstate ω} {m m' : Meter} {w' : World ω} {args : List Text} {ptok : TOK}
    (hs : s.tokBlocks = m.tokBlocks) (hm : m.stale = false)
    (hread : callArgs read fuel (s.toks.length + 2)
      ((m.get s.toks.length).get (s.toks.length + 1)) s.world = .ok (args, m', w')) :
    Lands m' (argvParsePtok addr xtok fuel ptok s) fun r =>
      r.1 = ⟨addr.rgtokArgv m'.tokBlocks, s.toks.length + 1⟩ ∧
      ∃ text toks dollar null, r.2.hold = s.hold ++ text ∧
        r.2.toks = s.toks ++ dollar :: ptok :: (toks ++ [null]) ∧ dollar.ctch = args.length ∧
        List.Forall₂ (HoldsArg r.2.hold) toks args ∧
        r.2.tokBlocks = (m'.get (s.toks.length + 2 + args.length)).tokBlocks ∧ r.2.world = w' := by
  let s₁ : Xstate ω := s.ptokGet
  have hlength₁ : s₁.toks.length = s.toks.length + 1 := by
    rw [show s₁.toks = s.toks ++ [⟨0, 0⟩] from rfl, List.length_append, List.length_singleton]
  have hblocks₁ : s₁.tokBlocks = (m.get s.toks.length).tokBlocks := ptokGet_blocks hs
  let s₂ : Xstate ω := s₁.ptokGet.setTop fun _ => ptok
  have htoks₂ : s₂.toks = s.toks ++ [⟨0, 0⟩, ptok] := by
    rw [show s₂.toks = s₁.toks ++ [ptok] from setTop_toks (ptokGet_toks s₁) _,
      show s₁.toks = s.toks ++ [⟨0, 0⟩] from rfl, List.append_assoc]
    rfl
  have hlength₂ : s₂.toks.length = s.toks.length + 2 := by
    rw [htoks₂, List.length_append]
    rfl
  have hblocks₂ : s₂.tokBlocks = ((m.get s.toks.length).get (s.toks.length + 1)).tokBlocks := by
    rw [← hlength₁]
    exact ptokGet_blocks hblocks₁
  rw [← hlength₂] at hread
  refine (collectParens_lands (s := s₂) hstacks hsticky hblocks₂ hm hread).bind id
    fun s₃ hm' hcollected => .of_ok hm' rfl ?_
  obtain ⟨text, toks, hhold, htoks, hargs, hblocks, hworld⟩ := hcollected
  have hcount : toks.length = args.length := hargs.length_eq
  have htoks₃ : s₃.toks = s.toks ++ ⟨0, 0⟩ :: ptok :: toks := by
    rw [htoks, htoks₂]
    simp
  have hlength₃ : s₃.toks.length = s.toks.length + 2 + args.length := by
    rw [htoks, List.length_append, hlength₂, hcount]
  -- `$#` is set once the arguments are counted.
  let s₄ : Xstate ω := { s₃ with
    toks := s₃.toks.modify (s₁.toks.length - 1) fun tok =>
      { tok with ctch := s₃.toks.length - s₁.toks.length - 1 } }
  have htoks₄ : s₄.toks = s.toks ++ ⟨0, args.length⟩ :: ptok :: toks := by
    have hindex : s₁.toks.length - 1 = s.toks.length := by omega
    have hctok : s₃.toks.length - s₁.toks.length - 1 = args.length := by omega
    show s₃.toks.modify (s₁.toks.length - 1) _ = _
    rw [hindex, hctok, htoks₃, List.modify_eq_take_cons_drop (by simp)]
    simp
  let s₅ : Xstate ω := s₄.ptokGet.setTop s₄.ptokGet.openArgPtok
  have htoks₅ : s₅.toks = s₄.toks ++ [s₄.ptokGet.openArgPtok ⟨0, 0⟩] :=
    setTop_toks (ptokGet_toks s₄) _
  have hblocks₅ : s₅.tokBlocks = (m'.get (s.toks.length + 2 + args.length)).tokBlocks := by
    have hlength₄ : s₄.toks.length = s.toks.length + 2 + args.length := by
      rw [htoks₄, List.length_append, ← hcount]
      simp only [List.length_cons]
      omega
    rw [← hlength₄]
    exact ptokGet_blocks (s := s₄) hblocks
  refine ⟨?_, text, toks, ⟨0, args.length⟩, s₅.closeArgPtok (s₄.ptokGet.openArgPtok ⟨0, 0⟩), hhold,
    ?_, rfl, hargs, hblocks₅, hworld⟩
  · show ARGV.mk (addr.rgtokArgv s₃.tokBlocks) s₁.toks.length = _
    rw [hblocks, hlength₁]
  · show (s₅.setTop s₅.closeArgPtok).toks = _
    rw [setTop_toks htoks₅, htoks₄, List.append_assoc]
    rfl

end Collecting

/-- Snapped tokens give the texts of the arguments. -/
theorem argvTexts_eq {s : Xstate ω} {argv : ARGV} (hbase : argv.rgtokArgv = s.rgtokArgv addr)
    {toks : List TOK} {args : List Text} (h : List.Forall₂ (HoldsArg s.hold) toks args)
    {first : Nat} (hget : ∀ j < toks.length,
      s.toks[first + j]? = (toks[j]?).map (s.snapArgPtok addr)) :
    argvTexts addr s argv first args.length = .ok args := by
  induction h generalizing first with
  | nil => rfl
  | @cons tok arg toks args htok _ ih =>
    have hfirst : s.toks[first]? = some (s.snapArgPtok addr tok) := hget 0 (Nat.zero_lt_succ _)
    have hrest : argvTexts addr s argv (first + 1) args.length = .ok args := by
      refine ih fun j hj => ?_
      rw [Nat.add_assoc, Nat.add_comm 1 j]
      exact hget (j + 1) (Nat.succ_lt_succ hj)
    rw [List.length_cons, argvTexts, ptokArgv_eq hbase hfirst]
    show (s.textPtok addr (s.snapArgPtok addr tok) >>= fun text =>
      argvTexts addr s argv (first + 1) args.length >>= fun texts => .ok (text :: texts)) = _
    rw [htok.text, hrest]
    rfl

theorem take_mapIdx_of_id {l : List TOK} {f : Nat → TOK → TOK} {n : Nat}
    (h : ∀ i < n, ∀ tok, f i tok = tok) : (l.mapIdx f).take n = l.take n := by
  refine List.ext_getElem? fun i => ?_
  rw [List.getElem?_take, List.getElem?_take, List.getElem?_mapIdx]
  split
  · rename_i hi
    cases l[i]? with
    | none => rfl
    | some tok => exact congrArg some (h i hi tok)
  · rfl

/-! ## A call -/

section Call

variable {xtok : Xstate ω → Except Stop (TYP × TOK × Xstate ω)} {read : Reader ω}

/-- The name and everything behind it is popped again, and what was below is as it was. -/
def Popped (s : Xstate ω) (below : Text) (m : Meter) (w : World ω) (s' : Xstate ω) : Prop :=
  s'.hold = below ∧ s'.toks = s.toks ∧ s'.tokBlocks = m.tokBlocks ∧ s'.world = w

theorem xmacPtok_lands (hstacks : Stacks addr xtok read) (hsticky : Sticky read)
    {fuel : Nat} {s : Xstate ω} {m m' : Meter} {w' : World ω} {args : List Text}
    {below name : Text} (hs : s.tokBlocks = m.tokBlocks) (hm : m.stale = false)
    (hhold : s.hold = below ++ name)
    (hread : callMacro addr rgop read fuel s.toks.length m s.world name = .ok (args, m', w')) :
    Lands m' (xmacPtok addr rgop xtok fuel
      (s.snapArgPtok addr ⟨below.length, name.length⟩) s) (Popped s below m' w') := by
  obtain ⟨⟨args₁, m₁, w₁⟩, hargs, hread⟩ := bind_eq_ok hread
  obtain ⟨w₂, hcrackle, hread⟩ := bind_eq_ok hread
  cases hread
  have hunsnap : s.unsnapArgPtok addr (s.snapArgPtok addr ⟨below.length, name.length⟩) =
      ⟨below.length, name.length⟩ := by
    simp [Xstate.unsnapArgPtok, Xstate.snapArgPtok]
  rw [xmacPtok, hunsnap]
  refine (argvParsePtok_lands hstacks hsticky hs hm hargs).bind
    (fun h => Bool.or_eq_true_iff.mpr (.inl h)) fun r hm₁ hr => ?_
  obtain ⟨argv, s₂⟩ := r
  obtain ⟨hargv, text, toks, dollar, null, hhold₂, htoks₂, hdollar, htexts, hblocks₂, hworld₂⟩ := hr
  simp only at hargv hhold₂ htoks₂ htexts hblocks₂ hworld₂ ⊢
  subst hargv
  have hstale : (m₁.null addr (s.toks.length + 2 + args.length)).stale = (m₁.stale ||
      decide (addr.rgtokArgv m₁.tokBlocks ≠
        addr.rgtokArgv (m₁.get (s.toks.length + 2 + args.length)).tokBlocks)) := rfl
  have hcount : toks.length = args.length := htexts.length_eq
  have hdollar₂ : s₂.toks[s.toks.length]? = some dollar := by
    rw [htoks₂, List.getElem?_append_right (Nat.le_refl _), Nat.sub_self]
    rfl
  have hname₂ : s₂.toks[s.toks.length + 1]? = some ⟨below.length, name.length⟩ := by
    rw [htoks₂, List.getElem?_append_right (Nat.le_add_right _ 1), Nat.add_sub_cancel_left]
    rfl
  have hargs₂ : ∀ j < toks.length, s₂.toks[s.toks.length + 1 + 1 + j]? = toks[j]? := by
    intro j hj
    have hindex : s.toks.length + 1 + 1 + j - s.toks.length = j + 1 + 1 := by omega
    rw [htoks₂, List.getElem?_append_right (by omega), hindex, List.getElem?_cons_succ,
      List.getElem?_cons_succ, List.getElem?_append_left hj]
  rw [hblocks₂.symm] at hstale
  by_cases hmoved : addr.rgtokArgv m₁.tokBlocks = addr.rgtokArgv s₂.tokBlocks
  · have hbase : addr.rgtokArgv m₁.tokBlocks = s₂.rgtokArgv addr := hmoved
    have hm' : (m₁.null addr (s.toks.length + 2 + args.length)).stale = false := by
      rw [hstale, hm₁, decide_eq_false (not_not_intro hmoved), Bool.or_false]
    rw [Nat.add_sub_cancel, ptokArgv_eq hbase hdollar₂, ok_bind, hdollar]
    -- From `$0` to the null argument the tokens are snapped.
    let snapped : List TOK := s₂.toks.mapIdx fun i tok =>
      if s.toks.length + 1 ≤ i ∧ i ≤ s.toks.length + 1 + args.length + 1 then
        s₂.snapArgPtok addr tok
      else tok
    let s₃ : Xstate ω := { s₂ with toks := snapped }
    have hsnapped : ∀ i, s.toks.length + 1 ≤ i → i ≤ s.toks.length + 1 + args.length + 1 →
        s₃.toks[i]? = (s₂.toks[i]?).map (s₃.snapArgPtok addr) := by
      intro i hlo hhi
      show snapped[i]? = _
      rw [List.getElem?_mapIdx]
      simp only [hlo, hhi, and_self, if_true]
      rfl
    have hname₃ : s₃.toks[s.toks.length + 1]? =
        some (s₃.snapArgPtok addr ⟨below.length, name.length⟩) := by
      rw [hsnapped _ (Nat.le_refl _) (by omega), hname₂]
      rfl
    have htext₃ : HoldsArg s₃.hold ⟨below.length, name.length⟩ name := by
      refine ⟨below, text, ?_, rfl⟩
      show s₂.hold = _
      rw [hhold₂, hhold, List.append_assoc]
    have hbase₃ : (ARGV.mk (addr.rgtokArgv m₁.tokBlocks) (s.toks.length + 1)).rgtokArgv =
        s₃.rgtokArgv addr := hmoved
    have hargs₃ : argvTexts addr s₃ ⟨addr.rgtokArgv m₁.tokBlocks, s.toks.length + 1⟩
        (s.toks.length + 1 + 1) args.length = .ok args := by
      refine argvTexts_eq (s := s₃) hbase₃ htexts fun j hj => ?_
      rw [hsnapped _ (by omega) (by omega), hargs₂ j hj]
    show Lands _ (s₃.ptokArgv addr _ _ >>= _) _
    rw [ptokArgv_eq hbase₃ hname₃, ok_bind, htext₃.text, ok_bind]
    show Lands _ (argvTexts addr s₃ _ _ _ >>= _) _
    rw [hargs₃, ok_bind]
    show Lands _ (crackleArgv rgop name args s₂.world >>= _) _
    rw [hworld₂, hcrackle, ok_bind]
    let s₄ : Xstate ω := { s₃ with world := w' }
    have hname₄ : s₄.toks[s.toks.length + 1]? =
        some (s₃.snapArgPtok addr ⟨below.length, name.length⟩) := hname₃
    have hpop₄ : s₄.popArgPtok addr (s₃.snapArgPtok addr ⟨below.length, name.length⟩) =
        .ok { s₄ with hold := below } := by
      have hhold₄ : s₄.hold = below ++ (name ++ text) := by
        show s₂.hold = _
        rw [hhold₂, hhold, List.append_assoc]
      exact popArgPtok_snapped hhold₄ name.length
    show Lands _ (s₄.ptokArgv addr _ _ >>= _) _
    rw [ptokArgv_eq (s := s₄) hbase₃ hname₄, ok_bind, hpop₄, ok_bind]
    refine .of_ok hm' rfl ⟨rfl, ?_, hblocks₂, rfl⟩
    show snapped.take (s.toks.length + 1 - 1) = s.toks
    rw [Nat.add_sub_cancel, take_mapIdx_of_id, htoks₂, List.take_left]
    intro i hi tok
    exact if_neg (by omega)
  · have hstuck : ∀ i, s₂.ptokArgv addr ⟨addr.rgtokArgv m₁.tokBlocks, s.toks.length + 1⟩ i =
        .error .undefined := fun i => if_neg hmoved
    rw [hstuck, Lands, if_pos]
    · rfl
    · rw [hstale, decide_eq_true hmoved, Bool.or_true]

end Call

/-! ## Expanded tokens -/

theorem scanToken_punc {input text rest : Text} {typ : TYP}
    (h : scanToken input = (typ, .ok (text, rest))) (hp : typ = .typPunc) : ∃ c, text = [c] := by
  subst hp
  cases input with
  | nil => cases h
  | cons c input =>
    rw [scanToken] at h
    split at h
    · cases h
    · split at h
      · cases h
      · split at h
        · cases h
        · split at h
          · cases h
          · cases h
            exact ⟨c, rfl⟩

/-- The scanned token is stacked on the hold. -/
theorem typGetPtok_eq {s : Xstate ω} {typ : TYP} {text input : Text}
    (h : scanToken s.world.input = (typ, .ok (text, input))) :
    ∃ s', typGetPtok addr s = .ok (typ, s'.snapArgPtok addr ⟨s.hold.length, text.length⟩, s') ∧
      s'.hold = s.hold ++ text ∧ s'.toks = s.toks ∧ s'.tokBlocks = s.tokBlocks ∧
      s'.world = { s.world with input } := by
  let s' : Xstate ω := { s with world := { s.world with input } }.addArgText text
  obtain ⟨hhold, hrest⟩ := addArgText_spec { s with world := { s.world with input } } text
  have hclose : s'.closeArgPtok (s.openArgPtok ⟨0, 0⟩) = ⟨s.hold.length, text.length⟩ := by
    show TOK.mk s.hold.length (s'.hold.length - s.hold.length) = _
    rw [show s'.hold = s.hold ++ text from hhold, List.length_append, Nat.add_sub_cancel_left]
  refine ⟨s', ?_, hhold, hrest⟩
  rw [typGetPtok, h]
  show Except.ok (typ, s'.snapArgPtok addr (s'.closeArgPtok (s.openArgPtok ⟨0, 0⟩)), s') = _
  rw [hclose]

theorem typXtokPtok_stacks (fuel : Nat) :
    Stacks addr (typXtokPtok addr rgop fuel) (expandedToken addr rgop fuel) := by
  induction fuel with
  | zero => exact fun s m typ text m' w' _ _ h => by cases h
  | succ fuel ih =>
    intro s m typ text m' w' hs hm hread
    rw [expandedToken] at hread
    split at hread
    · cases hread
    rename_i typ₁ text₁ input hscan
    obtain ⟨s₁, hget, hhold₁, htoks₁, hblocks₁, hworld₁⟩ := @typGetPtok_eq _ addr _ _ _ _ hscan
    have htext₁ : HoldsArg s₁.hold ⟨s.hold.length, text₁.length⟩ text₁ :=
      ⟨s.hold, [], by rw [hhold₁, List.append_nil], rfl⟩
    rw [typXtokPtok, hget, ok_bind]
    show Lands m' (s₁.textPtok addr _ >>= _) _
    rw [htext₁.text, ok_bind, hworld₁]
    split at hread
    · rename_i hmacro
      rw [if_pos hmacro]
      obtain ⟨⟨args, m₂, w₂⟩, hcall, hread⟩ := bind_eq_ok hread
      rw [← htoks₁, ← hworld₁] at hcall
      refine (xmacPtok_lands ih (expandedToken_sticky fuel) (hblocks₁.trans hs) hm hhold₁
        hcall).bind (fun h => expandedToken_sticky fuel _ _ _ _ _ _ _ hread h)
        fun s₂ hm₂ hcalled => ?_
      obtain ⟨hhold₂, htoks₂, hblocks₂, hworld₂⟩ := hcalled
      have htoks : s₂.toks = s.toks := htoks₂.trans htoks₁
      rw [← htoks, ← hworld₂] at hread
      refine (ih s₂ m₂ typ text m' w' hblocks₂ hm₂ hread).imp fun r hr => ?_
      obtain ⟨hafter, htyp, htok, hpunc⟩ := hr
      refine ⟨⟨?_, ?_, hafter.blocks, hafter.world⟩, htyp, ?_, hpunc⟩
      · rw [hafter.hold, hhold₂]
      · rw [hafter.toks, htoks]
      · rw [htok, hhold₂]
    · rename_i hplain
      rw [if_neg hplain]
      cases hread
      exact .of_ok hm rfl
        ⟨⟨hhold₁, htoks₁, hblocks₁.trans hs, hworld₁⟩, rfl, rfl, scanToken_punc hscan⟩

/-! ## The expansion of a call -/

/-- A call hands to its operator what is read between its delimiters, and leaves the hold and the
token array as they were before its name, if and only if the token array is never moved under a
cookie, neither in this call nor in one in its arguments. -/
theorem xmacPtok_iff {fuel : Nat} {s : Xstate ω} {below name : Text}
    (hhold : s.hold = below ++ name) :
    (∀ args m w', callMacro addr rgop (expandedToken addr rgop fuel) fuel s.toks.length
        ⟨s.tokBlocks, false⟩ s.world name = .ok (args, m, w') →
      ∃ s', xmacPtok addr rgop (typXtokPtok addr rgop fuel) fuel
          (s.snapArgPtok addr ⟨below.length, name.length⟩) s = .ok s' ∧
        s'.hold = below ∧ s'.toks = s.toks ∧ s'.world = w') ↔
    ∀ args m w', callMacro addr rgop (expandedToken addr rgop fuel) fuel s.toks.length
      ⟨s.tokBlocks, false⟩ s.world name = .ok (args, m, w') → m.stale = false := by
  have hlands : ∀ args m w', callMacro addr rgop (expandedToken addr rgop fuel) fuel
      s.toks.length ⟨s.tokBlocks, false⟩ s.world name = .ok (args, m, w') →
      Lands m (xmacPtok addr rgop (typXtokPtok addr rgop fuel) fuel
        (s.snapArgPtok addr ⟨below.length, name.length⟩) s) (Popped s below m w') :=
    fun args m w' h => xmacPtok_lands (typXtokPtok_stacks fuel) (expandedToken_sticky fuel) rfl rfl
      hhold h
  constructor
  · intro h args m w' hcall
    obtain ⟨s', hrun, -⟩ := h args m w' hcall
    have hl := hlands args m w' hcall
    rw [hrun] at hl
    cases hm : m.stale with
    | false => rfl
    | true =>
      rw [Lands, if_pos hm] at hl
      cases hl
  · intro h args m w' hcall
    have hl := hlands args m w' hcall
    rw [Lands, if_neg (by simp [h args m w' hcall])] at hl
    obtain ⟨s', hrun, hhold', htoks, -, hworld⟩ := hl
    exact ⟨s', hrun, hhold', htoks, hworld⟩

/-- The array is given a new address each time. -/
def movingBlocks : Addresses := ⟨id, id⟩

/-- The macro `f` is the empty text. -/
def worldOfF (input : Text) : World Unit :=
  ⟨input, fun name => if name = [tch 'f'] then some [] else none, ()⟩

/-- Behind the name `f`, before anything else was read. -/
def behindF (input : Text) : Xstate Unit := ⟨[tch 'f'], 1, [], 0, worldOfF input⟩

def noOperator : Operators Unit := fun _ _ _ => .error .undefined

/-- `f(a,(f,))` and a line end: the second argument is `(,)`. -/
theorem xmacPtok_iff_f :
    ∃ s', xmacPtok movingBlocks noOperator (typXtokPtok movingBlocks noOperator 20) 20
        ((behindF ("(a,(f,))\n".toList.map tch)).snapArgPtok movingBlocks ⟨0, 1⟩)
        (behindF ("(a,(f,))\n".toList.map tch)) = .ok s' ∧
      s'.hold = [] ∧ s'.toks = [] ∧ s'.world = worldOfF [tch '\n'] := by
  refine (@xmacPtok_iff _ _ _ _ _ [] _ rfl).mpr (fun args m w' h => ?_)
    ["a".toList.map tch, "(,)".toList.map tch] ⟨1, false⟩ _ rfl
  cases h
  rfl

/-- The text of 254 empty arguments. -/
def emptyArgs : Text := tchLpar :: (List.replicate 253 tchComma ++ [tchRpar])

theorem emptyArgs_read :
    ∃ m w', callMacro movingBlocks noOperator (expandedToken movingBlocks noOperator 300) 300 0
        ⟨0, false⟩ (worldOfF emptyArgs) [tch 'f'] = .ok (List.replicate 254 [], m, w') ∧
      m.stale = true := by
  have h : (match callMacro movingBlocks noOperator (expandedToken movingBlocks noOperator 300)
      300 0 ⟨0, false⟩ (worldOfF emptyArgs) [tch 'f'] with
    | .ok (args, m, _) => decide (args = List.replicate 254 [] ∧ m.stale = true)
    | .error _ => false) = true := by
    decide +kernel
  split at h
  · rename_i args m w' hcall
    obtain ⟨rfl, hm⟩ := of_decide_eq_true h
    exact ⟨m, w', hcall, hm⟩
  · cases h

/-- With `$#` and `$0` they fill the array, and the null argument moves it. -/
theorem full_array :
    ∃ m w', callMacro movingBlocks noOperator (expandedToken movingBlocks noOperator 300) 300 0
        ⟨0, false⟩ (worldOfF emptyArgs) [tch 'f'] = .ok (List.replicate 254 [], m, w') ∧
      xmacPtok movingBlocks noOperator (typXtokPtok movingBlocks noOperator 300) 300
        ((behindF emptyArgs).snapArgPtok movingBlocks ⟨0, 1⟩) (behindF emptyArgs) =
        .error .undefined := by
  obtain ⟨m, w', hcall, hm⟩ := emptyArgs_read
  have hhold : (behindF emptyArgs).hold = [] ++ [tch 'f'] := rfl
  have hl := xmacPtok_lands (typXtokPtok_stacks 300) (expandedToken_sticky 300) rfl rfl hhold hcall
  rw [Lands, if_pos hm] at hl
  exact ⟨m, w', hcall, hl⟩

end SdkTools.M4
