import SdkTools.M4.Tokenizer

/-!
# Quoted texts are read back

A text that is pushed in quotes comes back as one token, and the streams are then as
they were before. The end-of-file marker is the one magic that does not pass a quote.
-/

namespace SdkTools.M4.Tokenizer

open Lib

set_option autoImplicit false

/-- Every quote that is opened is closed, and none is closed that was not opened. A magic
and the character after it are one marker, also when that character is a quote. -/
inductive Balanced (marker : TCH → Prop) : Text → Prop where
  | nil : Balanced marker []
  | char {c : TCH} {s : Text} (hm : c ≠ tchMagic) (hl : c ≠ tchLquo) (hr : c ≠ tchRquo)
      (h : Balanced marker s) : Balanced marker (c :: s)
  | marker {m : TCH} {s : Text} (hm : marker m) (h : Balanced marker s) :
      Balanced marker (tchMagic :: m :: s)
  | quoted {s t : Text} (h : Balanced marker s) (h' : Balanced marker t) :
      Balanced marker (tchLquo :: (s ++ tchRquo :: t))

/-- The text of a token without an end-of-file marker. -/
abbrev EofFree : Text → Prop := Balanced (· ≠ tchEof)

abbrev Input := { chain : Chain // Valid chain }

section

variable (fresh : Nat → TCH)

/-- These tokens are read, one after the other. -/
inductive Reads : Chain → List (TYP × Text) → Chain → Prop where
  | nil (chain : Chain) : Reads chain [] chain
  | cons {fuel : Nat} {chain chain' chain'' : Chain} {typ : TYP} {text : Text}
      {toks : List (TYP × Text)} (h : typGetPtok fresh fuel chain = .ok (typ, text, chain'))
      (hs : Reads chain' toks chain'') : Reads chain ((typ, text) :: toks) chain''

/-- What is pushed is read as these tokens, and then the input is as before. -/
def HandsOn (push : Chain → Except StreamFault Chain) (input : Input)
    (toks : List (TYP × Text)) : Prop :=
  ∃ chain₁ chain₂, push input.1 = .ok chain₁ ∧ Reads fresh chain₁ toks chain₂ ∧
    contents chain₂ = contents input.1

/-- The arguments in quotes, with commas between them. -/
def listTokens : List Text → List (TYP × Text)
  | [] => []
  | arg :: more => (.typQuo, arg) :: more.flatMap fun arg => [(.typPunc, [tchComma]), (.typQuo, arg)]

end

variable {fresh : Nat → TCH}

/-! ### One round of the quote scanner -/

section

variable {chain chain' : Chain} {hold : Text} {c m : TCH}

attribute [local simp] quoLoop

theorem quoLoop_char (hget : tchGet fresh chain = .ok (c, chain')) (hm : c ≠ tchMagic)
    (hl : c ≠ tchLquo) (hr : c ≠ tchRquo) (fuel iDepth : Nat) :
    quoLoop fresh (fuel + 1) iDepth hold chain = quoLoop fresh fuel iDepth (hold ++ [c]) chain' := by
  have hlquo : fLquoTch c = false := decide_eq_false hl
  have hrquo : fRquoTch c = false := decide_eq_false hr
  simp only [quoLoop, hget, bind, Except.bind, if_neg hm, hlquo, hrquo, Bool.false_eq_true, if_false]

theorem quoLoop_marker {chain'' : Chain} (hget : tchGet fresh chain = .ok (tchMagic, chain'))
    (hget' : tchGet fresh chain' = .ok (m, chain'')) (hm : m ≠ tchEof) (fuel iDepth : Nat) :
    quoLoop fresh (fuel + 1) iDepth hold chain =
      quoLoop fresh fuel iDepth (hold ++ [tchMagic, m]) chain'' := by
  simp [hget, bind, Except.bind, getMagic, hget', hm]

theorem quoLoop_lquo (hget : tchGet fresh chain = .ok (tchLquo, chain')) (fuel iDepth : Nat) :
    quoLoop fresh (fuel + 1) iDepth hold chain =
      quoLoop fresh fuel (iDepth + 1) (hold ++ [tchLquo]) chain' := by
  have hm : tchLquo ≠ tchMagic := by decide
  have hlquo : fLquoTch tchLquo = true := by decide
  simp only [quoLoop, hget, bind, Except.bind, if_neg hm, hlquo, if_true]

theorem quoLoop_rquo (hget : tchGet fresh chain = .ok (tchRquo, chain')) (fuel iDepth : Nat) :
    quoLoop fresh (fuel + 1) iDepth hold chain =
      if iDepth - 1 = 0 then .ok (hold, chain')
      else quoLoop fresh fuel (iDepth - 1) (hold ++ [tchRquo]) chain' := by
  have hm : tchRquo ≠ tchMagic := by decide
  have hlquo : fLquoTch tchRquo = false := by decide
  have hrquo : fRquoTch tchRquo = true := by decide
  simp only [quoLoop, hget, bind, Except.bind, if_neg hm, hlquo, hrquo, Bool.false_eq_true,
    if_false, if_true]

end

/-! ### Balanced texts -/

/-- The scanner takes a balanced text into the hold, at whatever depth. -/
theorem quoLoop_balanced {s : Text} (hs : EofFree s) {chain : Chain} {b' : List Segment}
    (hchain : Valid chain) (h : Peels s (contents chain) b') (iDepth : Nat) (hold : Text) :
    ∃ k chain', Valid chain' ∧ contents chain' = b' ∧ ∀ n,
      quoLoop fresh (n + k) (iDepth + 1) hold chain =
        quoLoop fresh n (iDepth + 1) (hold ++ s) chain' := by
  induction hs generalizing chain b' iDepth hold with
  | nil =>
    cases h
    exact ⟨0, chain, hchain, rfl, fun n => by rw [List.append_nil, Nat.add_zero]⟩
  | @char c s hm hl hr _ ih =>
    cases h with
    | cons hc h =>
      obtain ⟨chain₁, hget, hvalid, rfl⟩ := tchGet_gives fresh hchain hc
      obtain ⟨k, chain', hvalid', hb, hloop⟩ := ih hvalid h iDepth (hold ++ [c])
      refine ⟨k + 1, chain', hvalid', hb, fun n => ?_⟩
      rw [← Nat.add_assoc, quoLoop_char hget hm hl hr, hloop, List.append_assoc]
      rfl
  | @marker m s hm _ ih =>
    cases h with
    | cons hc h =>
      obtain ⟨chain₁, hget, hvalid, rfl⟩ := tchGet_gives fresh hchain hc
      cases h with
      | cons hc' h =>
        obtain ⟨chain₂, hget', hvalid', rfl⟩ := tchGet_gives fresh hvalid hc'
        obtain ⟨k, chain', hvalid'', hb, hloop⟩ := ih hvalid' h iDepth (hold ++ [tchMagic, m])
        refine ⟨k + 1, chain', hvalid'', hb, fun n => ?_⟩
        rw [← Nat.add_assoc, quoLoop_marker hget hget' hm, hloop, List.append_assoc]
        rfl
  | @quoted s t _ _ ih ih' =>
    cases h with
    | cons hc h =>
      obtain ⟨chain₁, hget, hvalid, rfl⟩ := tchGet_gives fresh hchain hc
      obtain ⟨b₁, hinner, h⟩ := h.split
      obtain ⟨k, chain₂, hvalid₂, rfl, hloop⟩ := ih hvalid hinner (iDepth + 1) (hold ++ [tchLquo])
      cases h with
      | cons hc' h =>
        obtain ⟨chain₃, hget', hvalid₃, rfl⟩ := tchGet_gives fresh hvalid₂ hc'
        obtain ⟨k', chain', hvalid', hb, hloop'⟩ :=
          ih' hvalid₃ h iDepth (hold ++ [tchLquo] ++ s ++ [tchRquo])
        refine ⟨k' + 1 + k + 1, chain', hvalid', hb, fun n => ?_⟩
        have hdeep : ¬ iDepth + 1 + 1 - 1 = 0 := by omega
        rw [← Nat.add_assoc, quoLoop_lquo hget, ← Nat.add_assoc, hloop, ← Nat.add_assoc,
          quoLoop_rquo hget', if_neg hdeep, Nat.add_sub_cancel, hloop']
        simp only [List.append_assoc, List.cons_append, List.nil_append]

theorem typGetPtok_lquo {chain chain' : Chain} (hget : tchGet fresh chain = .ok (tchLquo, chain'))
    (fuel : Nat) :
    typGetPtok fresh fuel chain = withType .typQuo (quoLoop fresh fuel 1 [] chain') := by
  have hident : fInitialIdentTch tchLquo = false := by decide
  have hcom : fLcomTch tchLquo = false := by decide
  have hlquo : fLquoTch tchLquo = true := by decide
  simp only [typGetPtok, hget, bind, Except.bind, hident, hcom, hlquo, Bool.false_eq_true, if_false,
    if_true]

/-- A quoted text that is next in the input is one token. -/
theorem typGetPtok_quoted {s : Text} (hs : EofFree s) {chain : Chain} {b' : List Segment}
    (hchain : Valid chain) (h : Peels (tchLquo :: (s ++ [tchRquo])) (contents chain) b') :
    ∃ fuel chain', typGetPtok fresh fuel chain = .ok (.typQuo, s, chain') ∧ Valid chain' ∧
      contents chain' = b' := by
  cases h with
  | cons hc h =>
    obtain ⟨chain₁, hget, hvalid, rfl⟩ := tchGet_gives fresh hchain hc
    obtain ⟨b₁, hinner, hend⟩ := h.split
    obtain ⟨k, chain₂, hvalid₂, rfl, hloop⟩ := quoLoop_balanced hs hvalid hinner 0 []
    cases hend with
    | cons hc' hend =>
      cases hend
      obtain ⟨chain₃, hget', hvalid₃, hb⟩ := tchGet_gives fresh hvalid₂ hc'
      refine ⟨1 + k, chain₃, ?_, hvalid₃, hb⟩
      rw [typGetPtok_lquo hget, hloop 1, quoLoop_rquo hget', if_pos rfl]
      rfl

theorem typGetPtok_comma {chain : Chain} {b' : List Segment} (hchain : Valid chain)
    (h : Peels [tchComma] (contents chain) b') :
    ∃ fuel chain', typGetPtok fresh fuel chain = .ok (.typPunc, [tchComma], chain') ∧
      Valid chain' ∧ contents chain' = b' := by
  cases h with
  | cons hc hend =>
    cases hend
    obtain ⟨chain', hget, hvalid, hb⟩ := tchGet_gives fresh hchain hc
    refine ⟨0, chain', ?_, hvalid, hb⟩
    have hident : fInitialIdentTch tchComma = false := by decide
    have hcom : fLcomTch tchComma = false := by decide
    have hlquo : fLquoTch tchComma = false := by decide
    have hmagic : fMagicTch tchComma = false := by decide
    simp only [typGetPtok, hget, bind, Except.bind, hident, hcom, hlquo, hmagic,
      Bool.false_eq_true, if_false]
    rfl

/-! ### Pushed tokens -/

/-- From any streams with the contents `b` the tokens are read, and `b'` is left. -/
def ReadsAs (fresh : Nat → TCH) (b : List Segment) (toks : List (TYP × Text))
    (b' : List Segment) : Prop :=
  ∀ chain, Valid chain → contents chain = b →
    ∃ chain', Reads fresh chain toks chain' ∧ Valid chain' ∧ contents chain' = b'

theorem ReadsAs.nil (b : List Segment) : ReadsAs fresh b [] b := by
  intro chain hchain hb
  exact ⟨chain, .nil chain, hchain, hb⟩

theorem ReadsAs.quoted {s : Text} (hs : EofFree s) {b b' b'' : List Segment}
    {toks : List (TYP × Text)} (h : Peels (tchLquo :: (s ++ [tchRquo])) b b')
    (hmore : ReadsAs fresh b' toks b'') : ReadsAs fresh b ((.typQuo, s) :: toks) b'' := by
  rintro chain hchain rfl
  obtain ⟨fuel, chain₁, htok, hvalid, hb⟩ := typGetPtok_quoted hs hchain h
  obtain ⟨chain₂, hreads, hvalid', hb'⟩ := hmore chain₁ hvalid hb
  exact ⟨chain₂, .cons htok hreads, hvalid', hb'⟩

theorem ReadsAs.comma {b b' b'' : List Segment} {toks : List (TYP × Text)}
    (h : Peels [tchComma] b b') (hmore : ReadsAs fresh b' toks b'') :
    ReadsAs fresh b ((.typPunc, [tchComma]) :: toks) b'' := by
  rintro chain hchain rfl
  obtain ⟨fuel, chain₁, htok, hvalid, hb⟩ := typGetPtok_comma hchain h
  obtain ⟨chain₂, hreads, hvalid', hb'⟩ := hmore chain₁ hvalid hb
  exact ⟨chain₂, .cons htok hreads, hvalid', hb'⟩

/-- A push that succeeds and is read as these tokens. -/
def Pushes (fresh : Nat → TCH) (push : Chain → Except StreamFault Chain)
    (toks : List (TYP × Text)) : Prop :=
  ∀ chain, Valid chain → ∃ chain', push chain = .ok chain' ∧ Valid chain' ∧
    ReadsAs fresh (contents chain') toks (contents chain)

theorem Pushes.handsOn {push : Chain → Except StreamFault Chain} {toks : List (TYP × Text)}
    (h : Pushes fresh push toks) (input : Input) : HandsOn fresh push input toks := by
  obtain ⟨chain₁, hpush, hvalid, hread⟩ := h input.1 input.2
  obtain ⟨chain₂, hreads, -, hb⟩ := hread chain₁ hvalid rfl
  exact ⟨chain₁, chain₂, hpush, hreads, hb⟩

theorem pushes_quoted {s : Text} (hs : EofFree s) :
    Pushes fresh (pushQuotedPtok fresh s) [(.typQuo, s)] := by
  intro chain hchain
  obtain ⟨chain', hpush, hvalid, hpeels⟩ := pushQuotedPtok_peels fresh s hchain
  exact ⟨chain', hpush, hvalid, .quoted hs hpeels (.nil _)⟩

/-- The arguments from the third on come with a comma each. -/
theorem pushes_shift_rest {argv : List Text} (hargv : ∀ arg ∈ argv, EofFree arg) (i : Nat) :
    Pushes fresh (eachReverseOpcArgv (opcShift fresh) (i + 3) argv)
      (argv.flatMap fun arg => [(.typPunc, [tchComma]), (.typQuo, arg)]) := by
  induction argv generalizing i with
  | nil =>
    intro chain hchain
    exact ⟨chain, rfl, hchain, .nil _⟩
  | cons arg argv ih =>
    obtain ⟨harg, hmore⟩ := List.forall_mem_cons.mp hargv
    intro chain hchain
    obtain ⟨chain₁, hpush₁, hvalid₁, hread₁⟩ := ih hmore (i + 1) chain hchain
    obtain ⟨chain₂, hpush₂, hvalid₂, hpeels₂⟩ := pushQuotedPtok_peels fresh arg hvalid₁
    obtain ⟨chain₃, hpush₃, hvalid₃, hpeels₃⟩ := pushPtok_peels fresh [tchComma] hvalid₂
    refine ⟨chain₃, ?_, hvalid₃, .comma hpeels₃ (.quoted harg hpeels₂ hread₁)⟩
    have hsecond : i + 3 > 1 := by omega
    have hthird : i + 3 > 2 := by omega
    rw [eachReverseOpcArgv, show i + 3 + 1 = i + 1 + 3 by omega, hpush₁]
    simp only [bind, Except.bind, opcShift, if_pos hsecond, if_pos hthird, hpush₂]
    exact hpush₃

theorem pushes_shift {argv : List Text} (hargv : ∀ arg ∈ argv.tail, EofFree arg) :
    Pushes fresh (opShift fresh argv) (listTokens argv.tail) := by
  intro chain hchain
  cases argv with
  | nil => exact ⟨chain, rfl, hchain, .nil _⟩
  | cons first argv =>
    cases argv with
    | nil => exact ⟨chain, rfl, hchain, .nil _⟩
    | cons arg argv =>
      obtain ⟨harg, hmore⟩ := List.forall_mem_cons.mp hargv
      obtain ⟨chain₁, hpush₁, hvalid₁, hread₁⟩ := pushes_shift_rest hmore 0 chain hchain
      obtain ⟨chain₂, hpush₂, hvalid₂, hpeels₂⟩ := pushQuotedPtok_peels fresh arg hvalid₁
      refine ⟨chain₂, ?_, hvalid₂, .quoted harg hpeels₂ hread₁⟩
      rw [opShift, eachReverseOpcArgv, eachReverseOpcArgv, show 1 + 1 + 1 = 0 + 3 from rfl, hpush₁]
      simp only [bind, Except.bind, opcShift, show 1 + 1 > 1 by omega, show ¬ 1 + 1 > 2 by omega,
        show ¬ 1 > 1 by omega, if_true, if_false, hpush₂]

theorem pushes_defn {pmacFindPtok : Text → Option Text} {argv : List Text}
    (hargv : ∀ arg ∈ argv, ∀ value ∈ pmacFindPtok arg, EofFree value) (i : Nat) :
    Pushes fresh (eachReverseOpcArgv (opcDefn fresh pmacFindPtok) i argv)
      ((argv.filterMap pmacFindPtok).map (Prod.mk TYP.typQuo)) := by
  induction argv generalizing i with
  | nil =>
    intro chain hchain
    exact ⟨chain, rfl, hchain, .nil _⟩
  | cons arg argv ih =>
    obtain ⟨harg, hmore⟩ := List.forall_mem_cons.mp hargv
    intro chain hchain
    obtain ⟨chain₁, hpush₁, hvalid₁, hread₁⟩ := ih hmore (i + 1) chain hchain
    rw [eachReverseOpcArgv, hpush₁]
    cases hvalue : pmacFindPtok arg with
    | none =>
      refine ⟨chain₁, by simp only [bind, Except.bind, opcDefn, hvalue], hvalid₁, ?_⟩
      rw [List.filterMap_cons_none hvalue]
      exact hread₁
    | some value =>
      obtain ⟨chain₂, hpush₂, hvalid₂, hpeels₂⟩ := pushQuotedPtok_peels fresh value hvalid₁
      refine ⟨chain₂, by simp only [bind, Except.bind, opcDefn, hvalue, hpush₂], hvalid₂, ?_⟩
      rw [List.filterMap_cons_some hvalue]
      exact .quoted (harg value hvalue) hpeels₂ hread₁

/-! ### The round trip -/

/-- Every balanced text without an end-of-file marker passes `PushQuotedPtok` unchanged,
and so do the arguments of `shift` and the definitions of `defn`. -/
theorem quoted_round_trip (fresh : Nat → TCH) (input : Input) :
    (∀ s, EofFree s → HandsOn fresh (pushQuotedPtok fresh s) input [(.typQuo, s)]) ∧
      (∀ argv : List Text, (∀ arg ∈ argv.tail, EofFree arg) →
        HandsOn fresh (opShift fresh argv) input (listTokens argv.tail)) ∧
      (∀ (pmacFindPtok : Text → Option Text) (argv : List Text),
        (∀ arg ∈ argv, ∀ value ∈ pmacFindPtok arg, EofFree value) →
        HandsOn fresh (opDefn fresh pmacFindPtok argv) input
          ((argv.filterMap pmacFindPtok).map (Prod.mk TYP.typQuo))) := by
  refine ⟨?_, ?_, ?_⟩
  · intro s hs
    exact (pushes_quoted hs).handsOn input
  · intro argv hargv
    exact (pushes_shift hargv).handsOn input
  · intro pmacFindPtok argv hargv
    exact (pushes_defn hargv 1).handsOn input

theorem valid_noInput (fresh : Nat → TCH) : Valid (noInput fresh) := by
  refine ⟨List.cons_ne_nil _ _, ?_⟩
  intro pstm hpstm
  rw [List.mem_singleton.mp hpstm]
  exact Nat.le_of_eq (length_ptchAllocCtch fresh 2).symm

theorem quoted_marker : HandsOn (fun _ => 0)
    (pushQuotedPtok (fun _ => 0) [tchMagic, tchRquo, tchLquo, tch 'a', tchRquo])
    ⟨noInput fun _ => 0, valid_noInput _⟩
    [(.typQuo, [tchMagic, tchRquo, tchLquo, tch 'a', tchRquo])] := by
  apply (quoted_round_trip _ _).1
  apply Balanced.marker (by decide)
  exact Balanced.quoted (.char (by decide) (by decide) (by decide) .nil) .nil

/-- The text of an end-of-file marker is balanced, but its quote is not read. -/
theorem quoted_eof : ¬ ∀ (fresh : Nat → TCH) (input : Input) (s : Text),
    Balanced (fun _ => True) s → HandsOn fresh (pushQuotedPtok fresh s) input [(.typQuo, s)] := by
  intro h
  obtain ⟨chain₁, chain₂, hpush, hreads, -⟩ :=
    h (fun _ => 0) ⟨noInput fun _ => 0, valid_noInput _⟩ tokEof (.marker trivial .nil)
  obtain ⟨chain, hpush', hvalid, hpeels⟩ :=
    pushQuotedPtok_peels (fun _ => 0) tokEof (valid_noInput fun _ => 0)
  obtain rfl := Except.ok.inj (hpush.symm.trans hpush')
  cases hpeels with
  | cons hc hpeels =>
    obtain ⟨chain₃, hget, hvalid, rfl⟩ := tchGet_gives (fun _ => 0) hvalid hc
    cases hpeels with
    | cons hc' hpeels =>
      obtain ⟨chain₄, hget', hvalid', rfl⟩ := tchGet_gives (fun _ => 0) hvalid hc'
      cases hpeels with
      | cons hc'' _ =>
        obtain ⟨chain₅, hget'', -, -⟩ := tchGet_gives (fun _ => 0) hvalid' hc''
        cases hreads with
        | @cons fuel _ _ _ _ _ _ htok _ =>
          rw [typGetPtok_lquo hget] at htok
          cases fuel with
          | zero => cases htok
          | succ fuel =>
            simp only [quoLoop, hget', bind, Except.bind, if_true, getMagic, hget'', withType] at htok
            cases htok

end SdkTools.M4.Tokenizer
