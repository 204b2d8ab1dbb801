import SdkTools.Lib.Fallible
import SdkTools.M4.Holds
import SdkTools.M4.StreamRefinement

/-!
# The tokenizer on the input streams

The scanners of `token.c` on the chain of buffers, and the operators that push quoted
texts. The text that is added to the hold is a list.
-/

namespace SdkTools.M4.Tokenizer

open Lib

set_option autoImplicit false

inductive Fault where
  | stream (fault : StreamFault)
  | die (message : String)
  | fuel
deriving DecidableEq

section

variable (fresh : Nat → TCH)

def tchGet (chain : Chain) : Except Fault (TCH × Chain) :=
  (M4.tchGet fresh chain).mapError .stream

def ungetTch (tch : TCH) (chain : Chain) : Except Fault Chain :=
  (M4.ungetTch tch chain).mapError .stream

/-! ### Scanners -/

/-- The loop of `typGetIdentTch`; `tch` has been got. -/
def identLoop : Nat → TCH → Text → Chain → Except Fault (Text × Chain)
  | 0, _, _, _ => .error .fuel
  | fuel + 1, tch, hold, chain => do
    let hold := hold ++ [tch]
    let (tch, chain) ← tchGet fresh chain
    if fIdentTch tch then identLoop fuel tch hold chain
    else do
      let chain ← ungetTch tch chain
      .ok (hold, chain)

/-- After a magic, the character that belongs to it. -/
def getMagic (message : String) (chain : Chain) : Except Fault (TCH × Chain) := do
  let (tch, chain) ← tchGet fresh chain
  if tch = tchEof then .error (.die message) else .ok (tch, chain)

/-- The loop of `typGetComTch`. -/
def comLoop : Nat → Text → Chain → Except Fault (Text × Chain)
  | 0, _, _ => .error .fuel
  | fuel + 1, hold, chain => do
    let (tch, chain) ← tchGet fresh chain
    if tch = tchMagic then do
      let (magic, chain) ← getMagic fresh "EOF in comment" chain
      let hold := hold ++ [tch, magic]
      if fRcomTch magic then .ok (hold, chain) else comLoop fuel hold chain
    else if fRcomTch tch then .ok (hold ++ [tch], chain)
    else comLoop fuel (hold ++ [tch]) chain

/-- The loop of `typGetQuoTch`. -/
def quoLoop : Nat → Nat → Text → Chain → Except Fault (Text × Chain)
  | 0, _, _, _ => .error .fuel
  | fuel + 1, iDepth, hold, chain => do
    let (tch, chain) ← tchGet fresh chain
    if tch = tchMagic then do
      let (magic, chain) ← getMagic fresh "EOF in quote" chain
      quoLoop fuel iDepth (hold ++ [tch, magic]) chain
    else if fLquoTch tch then quoLoop fuel (iDepth + 1) (hold ++ [tch]) chain
    else if fRquoTch tch then
      if iDepth - 1 = 0 then .ok (hold, chain)
      else quoLoop fuel (iDepth - 1) (hold ++ [tch]) chain
    else quoLoop fuel iDepth (hold ++ [tch]) chain

def typGetMagicTch (tch : TCH) (chain : Chain) : Except Fault (Text × Chain) := do
  let (magic, chain) ← tchGet fresh chain
  .ok ([tch, magic], chain)

def withType (typ : TYP) (scanned : Except Fault (Text × Chain)) :
    Except Fault (TYP × Text × Chain) := do
  let (text, chain) ← scanned
  .ok (typ, text, chain)

/-- The type and the text of the next token. -/
def typGetPtok (fuel : Nat) (chain : Chain) : Except Fault (TYP × Text × Chain) := do
  let (tch, chain) ← tchGet fresh chain
  if fInitialIdentTch tch then withType .typId (identLoop fresh fuel tch [] chain)
  else if fLcomTch tch then withType .typQuo (comLoop fresh fuel [tch] chain)
  else if fLquoTch tch then withType .typQuo (quoLoop fresh fuel 1 [] chain)
  else if fMagicTch tch then withType .typMagic (typGetMagicTch fresh tch chain)
  else withType .typPunc (.ok ([tch], chain))

/-! ### Operators -/

/-- `opc` for every argument, from the last one to the first, which has the number `iptok`. -/
def eachReverseOpcArgv (opc : Text → Nat → Chain → Except StreamFault Chain) (iptok : Nat) :
    List Text → Chain → Except StreamFault Chain
  | [], chain => .ok chain
  | ptok :: argv, chain => do
    let chain ← eachReverseOpcArgv opc (iptok + 1) argv chain
    opc ptok iptok chain

def opcShift (ptok : Text) (itok : Nat) (chain : Chain) : Except StreamFault Chain :=
  if itok > 1 then do
    let chain ← pushQuotedPtok fresh ptok chain
    if itok > 2 then pushTch fresh tchComma chain else .ok chain
  else .ok chain

/-- The arguments are `$1`, `$2` and so on. -/
def opShift (argv : List Text) (chain : Chain) : Except StreamFault Chain :=
  eachReverseOpcArgv (opcShift fresh) 1 argv chain

variable (pmacFindPtok : Text → Option Text)

def opcDefn (ptok : Text) (_itok : Nat) (chain : Chain) : Except StreamFault Chain :=
  match pmacFindPtok ptok with
  | some value => pushQuotedPtok fresh value chain
  | none => .ok chain

def opDefn (argv : List Text) (chain : Chain) : Except StreamFault Chain :=
  eachReverseOpcArgv (opcDefn fresh pmacFindPtok) 1 argv chain

end

/-! ### What is left to read -/

/-- The unread part of a buffer, and the file that fills it. -/
abbrev Segment := List TCH × Option HF

/-- A string stream that has been read is dropped. -/
def consSegment (text : List TCH) (hf : Option HF) (rest : List Segment) : List Segment :=
  if text = [] ∧ hf = none then rest else (text, hf) :: rest

def contents : Chain → List Segment
  | [] => []
  | pstm :: rest => consSegment (pstm.buffer.drop pstm.ptchCur) pstm.hf (contents rest)

/-- A stack of streams, each with its current character in or at the end of its buffer. -/
structure Valid (chain : Chain) : Prop where
  ne_nil : chain ≠ []
  cur_le : ∀ pstm ∈ chain, pstm.ptchCur ≤ pstm.buffer.length

/-- The character `c` is next, and `b'` is left behind it. -/
def Gives (c : TCH) (b b' : List Segment) : Prop :=
  ∃ text hf rest, b = (c :: text, hf) :: rest ∧ b' = consSegment text hf rest

/-- The text is next, and `b'` is left behind it. -/
inductive Peels : List TCH → List Segment → List Segment → Prop where
  | nil (b : List Segment) : Peels [] b b
  | cons {c : TCH} {tok : List TCH} {b b' b'' : List Segment} (hc : Gives c b b')
      (h : Peels tok b' b'') : Peels (c :: tok) b b''

theorem Peels.append {s t : List TCH} {b b' b'' : List Segment} (hs : Peels s b b')
    (ht : Peels t b' b'') : Peels (s ++ t) b b'' := by
  induction hs with
  | nil b => exact ht
  | cons hc _ ih => exact .cons hc (ih ht)

theorem Peels.split {s t : List TCH} {b b'' : List Segment} (h : Peels (s ++ t) b b'') :
    ∃ b', Peels s b b' ∧ Peels t b' b'' := by
  induction s generalizing b with
  | nil => exact ⟨b, .nil b, h⟩
  | cons c s ih =>
    cases h with
    | cons hc h =>
      obtain ⟨b', hs, ht⟩ := ih h
      exact ⟨b', .cons hc hs, ht⟩

theorem peels_consSegment (tok text : List TCH) (hf : Option HF) (rest : List Segment) :
    Peels tok (consSegment (tok ++ text) hf rest) (consSegment text hf rest) := by
  induction tok with
  | nil => exact .nil _
  | cons c tok ih =>
    have hc : Gives c (consSegment (c :: (tok ++ text)) hf rest)
        (consSegment (tok ++ text) hf rest) :=
      ⟨tok ++ text, hf, rest, if_neg (by simp), rfl⟩
    exact .cons hc ih

variable (fresh : Nat → TCH)

/-! ### Reading a character -/

theorem tchPeekLoop_gives {c : TCH} {b' : List Segment} {chain : Chain} {n : Nat}
    (hcur : ∀ pstm ∈ chain, pstm.ptchCur ≤ pstm.buffer.length)
    (h : Gives c (contents chain) b') (hn : chain.length < n) :
    ∃ chain', tchPeekLoop fresh n chain = .ok (c, chain') ∧ Valid (advance chain') ∧
      contents (advance chain') = b' := by
  induction chain generalizing n with
  | nil =>
    obtain ⟨text, hf, rest, hb, -⟩ := h
    cases hb
  | cons pstm rest ih =>
    obtain ⟨hpstm, hrest⟩ := List.forall_mem_cons.mp hcur
    obtain ⟨n, rfl⟩ : ∃ m, n = m + 1 := ⟨n - 1, by omega⟩
    rw [List.length_cons] at hn
    by_cases hlt : pstm.ptchCur < pstm.buffer.length
    · have hdrop := List.drop_eq_getElem_cons hlt
      obtain ⟨text, hf, rest', hb, rfl⟩ := h
      rw [contents, hdrop, consSegment, if_neg fun hnil => List.cons_ne_nil _ _ hnil.1] at hb
      obtain ⟨hhead, rfl⟩ := List.cons.inj hb
      obtain ⟨htext, rfl⟩ := Prod.mk.inj hhead
      obtain ⟨rfl, rfl⟩ := List.cons.inj htext
      refine ⟨pstm :: rest, ?_, ⟨by simp [advance], ?_⟩, rfl⟩
      · rw [tchPeekLoop, dif_pos hlt]
      · intro p hp
        rcases List.mem_cons.mp hp with rfl | hp
        · exact hlt
        · exact hrest p hp
    · have hend : pstm.ptchCur = pstm.buffer.length := Nat.le_antisymm hpstm (by omega)
      rw [tchPeekLoop, dif_neg hlt, if_neg (fun hne => hne hend)]
      have hdrop : pstm.buffer.drop pstm.ptchCur = [] := by
        rw [hend]
        exact List.drop_length
      rw [contents, hdrop] at h
      cases hhf : pstm.hf with
      | none =>
        rw [hhf, consSegment, if_pos ⟨rfl, rfl⟩] at h
        exact ih hrest h (by omega)
      | some hf =>
        obtain ⟨text, hf', rest', hb, -⟩ := h
        rw [hhf, consSegment, if_neg (by simp)] at hb
        cases hb

theorem tchGet_gives {c : TCH} {b' : List Segment} {chain : Chain} (hchain : Valid chain)
    (h : Gives c (contents chain) b') :
    ∃ chain', tchGet fresh chain = .ok (c, chain') ∧ Valid chain' ∧ contents chain' = b' := by
  obtain ⟨chain', hpeek, hvalid, hb⟩ :=
    tchPeekLoop_gives fresh hchain.cur_le h (Nat.lt_succ_self chain.length)
  refine ⟨advance chain', ?_, hvalid, hb⟩
  rw [tchGet, M4.tchGet, tchPeek, hpeek]
  rfl

/-! ### Pushing -/

theorem pushPtok_peels (tok : List TCH) {chain : Chain} (hchain : Valid chain) :
    ∃ chain', pushPtok fresh tok chain = .ok chain' ∧ Valid chain' ∧
      Peels tok (contents chain') (contents chain) := by
  cases chain with
  | nil => exact absurd rfl hchain.ne_nil
  | cons pstm rest =>
    obtain ⟨hpstm, hrest⟩ := List.forall_mem_cons.mp hchain.cur_le
    by_cases hroom : tok.length > pstm.ptchCur
    · have hfresh := length_ptchAllocCtch fresh (max tok.length ctchMinPush)
      obtain ⟨hlen, hdrop⟩ :=
        drop_store ⟨ptchAllocCtch fresh (max tok.length ctchMinPush),
          max tok.length ctchMinPush, none⟩ tok (Nat.le_of_eq hfresh.symm) (Nat.le_max_left _ _)
      have hcur := Nat.le_trans (Nat.sub_le (max tok.length ctchMinPush) tok.length)
        (Nat.le_of_eq (hlen.trans hfresh).symm)
      refine ⟨_, by rw [pushPtok, if_pos hroom], ⟨List.cons_ne_nil _ _, ?_⟩, ?_⟩
      · exact List.forall_mem_cons.mpr ⟨hcur, hchain.cur_le⟩
      · rw [contents, hdrop, List.drop_eq_nil_of_le (Nat.le_of_eq hfresh)]
        exact peels_consSegment tok [] none _
    · obtain ⟨hlen, hdrop⟩ := drop_store pstm tok hpstm (by omega)
      have hcur := Nat.le_trans (Nat.sub_le pstm.ptchCur tok.length) (hlen ▸ hpstm)
      refine ⟨_, by rw [pushPtok, if_neg hroom], ⟨List.cons_ne_nil _ _, ?_⟩, ?_⟩
      · exact List.forall_mem_cons.mpr ⟨hcur, hrest⟩
      · rw [contents, hdrop]
        exact peels_consSegment tok _ _ _

theorem pushQuotedPtok_peels (tok : List TCH) {chain : Chain} (hchain : Valid chain) :
    ∃ chain', pushQuotedPtok fresh tok chain = .ok chain' ∧ Valid chain' ∧
      Peels (tchLquo :: (tok ++ [tchRquo])) (contents chain') (contents chain) := by
  obtain ⟨chain₁, hright, hvalid₁, hpeels₁⟩ := pushPtok_peels fresh [tchRquo] hchain
  obtain ⟨chain₂, htok, hvalid₂, hpeels₂⟩ := pushPtok_peels fresh tok hvalid₁
  obtain ⟨chain₃, hleft, hvalid₃, hpeels₃⟩ := pushPtok_peels fresh [tchLquo] hvalid₂
  refine ⟨chain₃, ?_, hvalid₃, hpeels₃.append (hpeels₂.append hpeels₁)⟩
  unfold pushQuotedPtok pushTch
  rw [hright]
  dsimp only [bind, Except.bind]
  rw [htok]
  exact hleft

end SdkTools.M4.Tokenizer
