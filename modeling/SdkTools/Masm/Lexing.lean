import SdkTools.Masm.Tokens

/-!
# The lexer reads the tokens of the language

`NextToken` returns the token that a text reads, and the end of line where a text
ends.
-/

namespace SdkTools.Masm

open Lib.Digits

set_option autoImplicit false

variable {cfg : LexConfig} {force : Bool}

/-! ### White space and the end of line -/

theorem peek_append {w : List CHAR} (hw : White w) (t : List CHAR) : peek (w ++ t) = peek t := by
  induction w with
  | nil => rfl
  | cons c w ih =>
    rw [List.cons_append, peek, if_pos (hw c List.mem_cons_self)]
    exact ih fun d hd => hw d (List.mem_cons_of_mem _ hd)

theorem lexToken_append {w : List CHAR} (hw : White w) (t : List CHAR) :
    lexToken cfg force false (w ++ t) = lexToken cfg force false t := by
  unfold lexToken
  rw [peek_append hw]

theorem lexToken_atEnd {t : List CHAR} (h : AtEnd t) :
    ∃ t', lexToken cfg force false t = some (.eol, t') := by
  obtain ⟨w, r, hw, rfl, hr⟩ := h
  rw [lexToken_append hw]
  cases r with
  | nil => exact ⟨[], rfl⟩
  | cons c r =>
    have hc : c = 0 ∨ c = chr ';' := by
      rcases hr with hr | hr | hr
      · cases hr
      · exact Or.inl (Option.some.inj hr)
      · exact Or.inr (Option.some.inj hr)
    refine ⟨c :: r, ?_⟩
    rcases hc with rfl | rfl <;> rfl

/-! ### Symbols -/

theorem lexToken_operator {c : CHAR} {t t' : List CHAR} {tok : Token}
    (hc : peek (c :: t) = c :: t ∧ ¬ (c = 0 ∨ c = chr ';'))
    (h : operatorToken c t = some (tok, t')) :
    lexToken cfg force false (c :: t) = some (tok, t') := by
  unfold lexToken
  rw [hc.1]
  simp only [if_neg hc.2, h]

theorem operatorToken_single {c : CHAR} {tok : Token} (h : singleOperators.lookup c = some tok)
    (t : List CHAR) : operatorToken c t = some (tok, t) := by
  unfold operatorToken
  rw [h]

theorem Longest.head_ne {s t : List CHAR} {c : CHAR} (h : Longest s t)
    (hmem : s ++ [c] ∈ symbols.map Prod.fst) : t.head? ≠ some c := by
  intro hc
  obtain ⟨x, hx, hxs⟩ := List.mem_map.mp hmem
  obtain ⟨t', rfl⟩ : ∃ t', t = c :: t' := by
    cases t with
    | nil => cases hc
    | cons d t' => exact ⟨t', by rw [Option.some.inj hc]⟩
  have hle := h x hx ⟨t', by simp [hxs]⟩
  simp only [hxs, List.length_append, List.length_singleton] at hle
  omega

/-- No symbol starts where an expression ends. -/
theorem symbols_start : ∀ x ∈ symbols, ∀ c ∈ x.1.head?, ¬ (c = 0 ∨ c = chr ';') := by
  simp [symbols, chr]

theorem lexToken_symbol {s t : List CHAR} {tok : Token} (hs : (s, tok) ∈ symbols)
    (hl : Longest s t) : lexToken cfg force false (s ++ t) = some (tok, t) := by
  have hstart := symbols_start _ hs
  simp only [symbols, List.mem_cons, Prod.mk.injEq, List.not_mem_nil, or_false] at hs
  rcases hs with ⟨rfl, rfl⟩ | ⟨rfl, rfl⟩ | ⟨rfl, rfl⟩ | ⟨rfl, rfl⟩ | ⟨rfl, rfl⟩ | ⟨rfl, rfl⟩ |
    ⟨rfl, rfl⟩ | ⟨rfl, rfl⟩ | hs | hs | hs | hs | hs | hs | hs | hs | hs
  iterate 8 exact lexToken_operator ⟨rfl, hstart _ rfl⟩ (operatorToken_single rfl t)
  · obtain ⟨rfl, rfl⟩ := hs
    have hne := hl.head_ne (c := chr '=') (by decide)
    exact lexToken_operator ⟨rfl, hstart _ rfl⟩ (if_neg hne)
  · obtain ⟨rfl, rfl⟩ := hs
    exact lexToken_operator ⟨rfl, hstart _ rfl⟩ rfl
  · obtain ⟨rfl, rfl⟩ := hs
    exact lexToken_operator ⟨rfl, hstart _ rfl⟩ rfl
  · obtain ⟨rfl, rfl⟩ := hs
    have hne := hl.head_ne (c := chr '<') (by decide)
    exact lexToken_operator ⟨rfl, hstart _ rfl⟩ (if_neg hne)
  · obtain ⟨rfl, rfl⟩ := hs
    have hne := hl.head_ne (c := chr '>') (by decide)
    exact lexToken_operator ⟨rfl, hstart _ rfl⟩ (if_neg hne)
  · obtain ⟨rfl, rfl⟩ := hs
    exact lexToken_operator ⟨rfl, hstart _ rfl⟩ rfl
  · obtain ⟨rfl, rfl⟩ := hs
    have hne := hl.head_ne (c := chr '>') (by decide)
    exact lexToken_operator ⟨rfl, hstart _ rfl⟩ (if_neg hne)
  · obtain ⟨rfl, rfl⟩ := hs
    exact lexToken_operator ⟨rfl, hstart _ rfl⟩ rfl
  · rcases hs with ⟨rfl, rfl⟩ | ⟨rfl, rfl⟩ | ⟨rfl, rfl⟩ | ⟨rfl, rfl⟩ | ⟨rfl, rfl⟩
    all_goals exact lexToken_operator ⟨rfl, hstart _ rfl⟩ (operatorToken_single rfl t)

/-! ### Words and numbers -/

theorem boundary_cons {c : CHAR} {t : List CHAR} (h : boundary (c :: t) = true) :
    isWordChar (tolower c) = false ∧ c ≠ chr '`' ∧ c ≠ chr ':' ∧
      (c = chr '!' → t.head? = some (chr '=')) := by
  simp only [boundary, Bool.and_eq_true, Bool.not_eq_true', decide_eq_true_eq, Bool.or_eq_true]
    at h
  obtain ⟨⟨⟨hword, hquote⟩, hcolon⟩, hbang⟩ := h
  exact ⟨hword, hquote, hcolon, fun hc => hbang.resolve_left fun hne => hne hc⟩

theorem boundary_head_ne_colon {t : List CHAR} (ht : boundary t = true) :
    t.head? ≠ some (chr ':') := by
  cases t with
  | nil => simp
  | cons c t => exact fun h => (boundary_cons ht).2.2.1 (Option.some.inj h)

theorem tolower_eq_quote (c : CHAR) : tolower c = chr '`' ↔ c = chr '`' := by
  revert c
  decide

theorem tolower_eq_colon (c : CHAR) : tolower c = chr ':' ↔ c = chr ':' := by
  revert c
  decide

/-- Letters and digits start neither white space nor an operator. -/
theorem alnum_facts {c : CHAR} (h : isAlnum c = true) :
    ¬ (c = chr ' ' ∨ c = chr '\t' ∨ c = chr '\r' ∨ c = chr '\n') ∧ ¬ (c = 0 ∨ c = chr ';') ∧
      operatorToken c [] = none ∧ isForeign c = false ∧
      (c ≠ chr '=' ∧ c ≠ chr '>' ∧ c ≠ chr '<' ∧ c ≠ chr '!') := by
  have hne {d : CHAR} (hd : isAlnum d = false) : c ≠ d := by
    rintro rfl
    exact Bool.false_ne_true (hd.symm.trans h)
  have hlookup : singleOperators.lookup c = none := by
    have hkeys : ∀ p ∈ singleOperators, isAlnum p.1 = false := by decide
    apply List.lookup_eq_none_iff.mpr
    intro p hp
    exact bne_iff_ne.mpr (hne (hkeys p hp))
  have hcmp : c ≠ chr '=' ∧ c ≠ chr '>' ∧ c ≠ chr '<' ∧ c ≠ chr '!' :=
    ⟨hne rfl, hne rfl, hne rfl, hne rfl⟩
  refine ⟨?_, ?_, ?_, ?_, hcmp⟩
  · rintro (hc | hc | hc | hc)
    all_goals exact hne rfl hc
  · rintro (hc | hc)
    all_goals exact hne rfl hc
  · unfold operatorToken
    rw [hlookup]
    simp only [hcmp, false_and, if_false]
  · apply decide_eq_false
    rintro (hc | hc | hc | hc | hc)
    all_goals exact hne rfl hc

theorem operatorToken_alnum {c : CHAR} (h : isAlnum c = true) (t : List CHAR) :
    operatorToken c t = none := by
  obtain ⟨_, _, hop, _, heq, hgt, hlt, hbang⟩ := alnum_facts h
  unfold operatorToken at hop ⊢
  cases hl : singleOperators.lookup c with
  | some tok => simp [hl] at hop
  | none => simp [heq, hgt, hlt, hbang]

theorem lexToken_alnum {c : CHAR} (h : isAlnum c = true) (t : List CHAR) :
    lexToken cfg force false (c :: t) = lexWord cfg force (c :: t) := by
  obtain ⟨hwhite, hend, _, hforeign, _⟩ := alnum_facts h
  have hpeek : peek (c :: t) = c :: t := by rw [peek, if_neg hwhite]
  unfold lexToken
  rw [hpeek]
  dsimp only
  rw [if_neg hend, operatorToken_alnum h, hforeign]
  rfl

theorem scanModule_boundary {t : List CHAR} (ht : boundary t = true) (b : Bool) :
    scanModule b t = (false, t) := by
  cases t with
  | nil => rfl
  | cons c t =>
    obtain ⟨hword, hquote, hcolon, _⟩ := boundary_cons ht
    have hquote' := mt (tolower_eq_quote c).mp hquote
    have hcolon' := mt (tolower_eq_colon c).mp hcolon
    simp [scanModule, hword, hquote', hcolon']

/-- The scan for a module name stops at the end of the word, or at a back quote. -/
theorem scanModule_append {s t : List CHAR}
    (hs : ∀ c ∈ s, isWordChar (tolower c) = true ∨ c = chr '`') (ht : boundary t = true)
    (b : Bool) :
    ∃ s', scanModule b (s ++ t) = (false, s' ++ t) ∧ (s' = [] ∨ s'.head? = some (chr '`')) := by
  induction s generalizing b with
  | nil => exact ⟨[], scanModule_boundary ht b, Or.inl rfl⟩
  | cons c s ih =>
    have ih := ih fun d hd => hs d (List.mem_cons_of_mem _ hd)
    rcases hs c List.mem_cons_self with hc | rfl
    · simp only [List.cons_append, scanModule, hc, true_or, if_true]
      exact ih _
    · have hq : isWordChar (chr '`') = false := by decide
      have hlow : tolower (chr '`') = chr '`' := by decide
      have hcolon : chr '`' ≠ chr ':' := by decide
      simp only [List.cons_append, scanModule, hq, hlow, Bool.false_eq_true, false_or, and_true]
      split
      · exact ih _
      · simp only [hcolon, false_and, if_false]
        exact ⟨chr '`' :: s, rfl, Or.inr rfl⟩

theorem not_isModuleName {s t : List CHAR}
    (hs : ∀ c ∈ s, isWordChar (tolower c) = true ∨ c = chr '`') (ht : boundary t = true) :
    isModuleName (s ++ t) = false := by
  obtain ⟨s', hscan, hs'⟩ := scanModule_append hs ht false
  simp only [isModuleName, hscan, decide_eq_false_iff_not, not_and]
  intro _ hbang hne
  rcases hs' with rfl | hs'
  · cases t with
    | nil => cases hbang
    | cons c t =>
      obtain ⟨_, _, _, hc⟩ := boundary_cons ht
      exact hne (hc (Option.some.inj hbang))
  · cases s' with
    | nil => cases hs'
    | cons d s' =>
      have hd : chr '`' = chr '!' := (Option.some.inj hs').symm.trans (Option.some.inj hbang)
      exact absurd hd (by decide)

/-- The scan of a word that is neither a module name nor a register. -/
theorem lexWord_eq {s t : List CHAR}
    (hs : ∀ c ∈ s, isWordChar (tolower c) = true ∨ c = chr '`') (ht : boundary t = true) :
    lexWord cfg force (s ++ t) =
      let first := tolower ((s ++ t).headD 0)
      let startsNumber : Bool := chr '0' ≤ first ∧ first ≤ chr '9'
      let start :=
        if startsNumber then numberStart cfg.defaultRadix.base (s ++ t)
        else (cfg.defaultRadix.base, s ++ t, false)
      let isNumber : Bool :=
        startsNumber || ((chr 'a' ≤ first ∧ first ≤ chr 'f') ∧ cfg.defaultRadix = .hexadecimal)
      let w := scanWord start.1 (!startsNumber)
        { value := 0, isNumber, isDigit := start.2.2, allowSignExtension := cfg.kernelTarget,
          errNumber := 0, symbol := [] } start.2.1
      wordToken cfg force (!startsNumber) w.1 w.2 := by
  obtain ⟨s', hscan, _⟩ := scanModule_append hs ht false
  unfold lexWord
  rw [hscan, not_isModuleName hs ht]
  simp

/-! ### Reserved words -/

theorem scanWord_boundary {base : ULONG64} {isSymbol : Bool} {t : List CHAR}
    (ht : boundary t = true) (w : WordScan) : scanWord base isSymbol w t = (w, t) := by
  cases t with
  | nil => rfl
  | cons c t =>
    obtain ⟨hword, hquote, _, _⟩ := boundary_cons ht
    have hquote' := mt (tolower_eq_quote c).mp hquote
    simp [scanWord, hword, hquote']

theorem scanWord_word {base : ULONG64} {isSymbol : Bool} {s t : List CHAR}
    (hs : ∀ c ∈ s, isWordChar (tolower c) = true) (ht : boundary t = true) (w : WordScan) :
    scanWord base isSymbol w (s ++ t) = (s.foldl (fun w c => w.char base isSymbol c) w, t) := by
  induction s generalizing w with
  | nil => exact scanWord_boundary ht w
  | cons c s ih =>
    rw [List.cons_append, scanWord, if_pos (Or.inl (hs c List.mem_cons_self))]
    exact ih (fun d hd => hs d (List.mem_cons_of_mem _ hd)) _

theorem char_symbol (base : ULONG64) (w : WordScan) (c : CHAR) :
    (w.char base true c).symbol = w.symbol ++ [c] := by
  unfold WordScan.char
  dsimp only
  rw [if_pos rfl]
  split
  · split
    · rfl
    · split <;> rfl
  · rfl

theorem foldl_char_symbol (base : ULONG64) (s : List CHAR) (w : WordScan) :
    (s.foldl (fun w c => w.char base true c) w).symbol = w.symbol ++ s := by
  induction s generalizing w with
  | nil => simp
  | cons c s ih =>
    rw [List.foldl_cons, ih, char_symbol]
    simp

theorem char_isNumber {base : ULONG64} {isSymbol : Bool} {w : WordScan} {c : CHAR}
    (h : w.isNumber = false ∨ isBaseDigit base (tolower c) = false ∧ c ≠ chr '`') :
    (w.char base isSymbol c).isNumber = false := by
  unfold WordScan.char
  dsimp only
  have hsymbol : ∀ w : WordScan, (if isSymbol = true then
      { w with symbol := w.symbol ++ [c] } else w).isNumber = w.isNumber := by
    intro w
    split <;> rfl
  rw [hsymbol]
  rcases h with h | ⟨hdigit, hquote⟩
  · simp [h]
  · have hquote' := mt (tolower_eq_quote c).mp hquote
    cases hn : w.isNumber
    · simp [hn]
    · simp [hdigit, hquote']

/-- A word with a character that is no digit is not a number. -/
theorem foldl_char_isNumber {base : ULONG64} {isSymbol : Bool} {s : List CHAR} {w : WordScan}
    (h : w.isNumber = false ∨ ∃ c ∈ s, isBaseDigit base (tolower c) = false ∧ c ≠ chr '`') :
    (s.foldl (fun w c => w.char base isSymbol c) w).isNumber = false := by
  induction s generalizing w with
  | nil => exact h.resolve_right (by simp)
  | cons c s ih =>
    rw [List.foldl_cons]
    apply ih
    rcases h with h | ⟨d, hd, hdigit⟩
    · exact Or.inl (char_isNumber (Or.inl h))
    · rcases List.mem_cons.mp hd with rfl | hd
      · exact Or.inl (char_isNumber (Or.inr hdigit))
      · exact Or.inr ⟨d, hd, hdigit⟩

theorem isBaseDigit_le {base : ULONG64} {l : CHAR} (h : isBaseDigit base l = true) :
    l ≤ chr 'f' := by
  have hnine : chr '9' ≤ chr 'f' := by decide
  have hseven : chr '7' ≤ chr '9' := by decide
  have hone : chr '1' ≤ chr '9' := by decide
  simp only [isBaseDigit, decide_eq_true_eq] at h
  rcases h with ⟨_, h⟩ | ⟨_, h⟩
  · split at h
    · exact BitVec.le_trans h (BitVec.le_trans hone hnine)
    · split at h
      · exact BitVec.le_trans h (BitVec.le_trans hseven hnine)
      · exact BitVec.le_trans h hnine
  · split at h
    · exact h
    · exact BitVec.le_trans h hnine

/-- What the scan of a reserved word rests on. -/
theorem words_spec : ∀ x ∈ words, g_Reserved.lookup x.1 = some x.2 ∧
    (∃ c ∈ x.1, ¬ c ≤ chr 'f') ∧ ∀ c ∈ x.1, chr 'a' ≤ c ∧ c ≤ chr 'z' := by
  intro x hx
  have hlookup : ∀ x ∈ words, g_Reserved.lookup x.1 = some x.2 := by decide
  have hany : ∀ x ∈ words, (x.1.any fun c => !decide (c ≤ chr 'f')) = true := by decide
  have hletters : ∀ x ∈ words, (x.1.all fun c => chr 'a' ≤ c ∧ c ≤ chr 'z') = true := by
    decide
  refine ⟨hlookup x hx, ?_, ?_⟩
  · obtain ⟨c, hc, hle⟩ := List.any_eq_true.mp (hany x hx)
    exact ⟨c, hc, by simpa using hle⟩
  · intro c hc
    exact of_decide_eq_true (List.all_eq_true.mp (hletters x hx) c hc)

theorem letter_facts {c : CHAR} (h : chr 'a' ≤ tolower c ∧ tolower c ≤ chr 'z') :
    isAlnum c = true ∧ isWordChar (tolower c) = true ∧ c ≠ chr '`' ∧
      ¬ (chr '0' ≤ tolower c ∧ tolower c ≤ chr '9') := by
  have hall : ∀ c : CHAR, chr 'a' ≤ tolower c ∧ tolower c ≤ chr 'z' →
      isAlnum c = true ∧ isWordChar (tolower c) = true ∧ c ≠ chr '`' ∧
        ¬ (chr '0' ≤ tolower c ∧ tolower c ≤ chr '9') := by decide
  exact hall c h

theorem lexToken_word {s t : List CHAR} {tok : Token} (hs : (s.map tolower, tok) ∈ words)
    (ht : boundary t = true) : lexToken cfg force false (s ++ t) = some (tok, t) := by
  obtain ⟨hlookup, ⟨d, hd, hnodigit⟩, hletters⟩ := words_spec _ hs
  obtain ⟨c', hc', rfl⟩ := List.mem_map.mp hd
  have hletter : ∀ c ∈ s, chr 'a' ≤ tolower c ∧ tolower c ≤ chr 'z' := fun c hc =>
    hletters _ (List.mem_map_of_mem hc)
  have hword : ∀ c ∈ s, isWordChar (tolower c) = true := fun c hc =>
    (letter_facts (hletter c hc)).2.1
  cases s with
  | nil => cases hc'
  | cons c s =>
    obtain ⟨halnum, _, _, hdigit⟩ := letter_facts (hletter c List.mem_cons_self)
    rw [List.cons_append, lexToken_alnum halnum, ← List.cons_append,
      lexWord_eq (fun c hc => Or.inl (hword c hc)) ht]
    have hdigit' : decide (chr '0' ≤ tolower c ∧ tolower c ≤ chr '9') = false :=
      decide_eq_false hdigit
    have hfirst : (c :: s ++ t).headD 0 = c := rfl
    simp only [hfirst, hdigit', Bool.false_eq_true, if_false, Bool.not_false]
    rw [scanWord_word hword ht]
    have hnumber : ∀ w : WordScan, ((c :: s).foldl
        (fun w c => w.char cfg.defaultRadix.base true c) w).isNumber = false := by
      intro w
      apply foldl_char_isNumber
      refine Or.inr ⟨c', hc', ?_, (letter_facts (hletter c' hc')).2.2.1⟩
      cases h : isBaseDigit cfg.defaultRadix.base (tolower c') with
      | false => rfl
      | true => exact absurd (isBaseDigit_le h) hnodigit
    unfold wordToken
    simp only [hnumber, foldl_char_symbol]
    simp only [boundary_head_ne_colon ht, List.nil_append, List.map_cons] at hlookup ⊢
    simp [hlookup]


/-! ### Literals -/

theorem base_cases (cfg : LexConfig) {radix : Nat} {base : ULONG64} (hb : base.toNat = radix)
    (h : radix = cfg.defaultRadix.base.toNat ∨ radix ∈ radixPrefixes.map Prod.snd) :
    base = 2 ∨ base = 8 ∨ base = 10 ∨ base = 16 := by
  have hradix : radix = 2 ∨ radix = 8 ∨ radix = 10 ∨ radix = 16 := by
    rcases h with rfl | h
    · cases cfg.defaultRadix <;> simp [DefaultRadix.base]
    · simp only [radixPrefixes, List.map_cons, List.map_nil, List.mem_cons, List.not_mem_nil,
        or_false] at h
      omega
  rcases hradix with h | h | h | h
  · exact Or.inl (BitVec.eq_of_toNat_eq (hb.trans h))
  · exact Or.inr (Or.inl (BitVec.eq_of_toNat_eq (hb.trans h)))
  · exact Or.inr (Or.inr (Or.inl (BitVec.eq_of_toNat_eq (hb.trans h))))
  · exact Or.inr (Or.inr (Or.inr (BitVec.eq_of_toNat_eq (hb.trans h))))

theorem isBaseDigit_of_isDigit {base : ULONG64}
    (hbase : base = 2 ∨ base = 8 ∨ base = 10 ∨ base = 16) {c : CHAR}
    (h : isDigit base.toNat c = true) :
    isBaseDigit base (tolower c) = true ∧ isWordChar (tolower c) = true := by
  have h2 : ∀ c : CHAR, isDigit 2 c = true →
      isBaseDigit 2 (tolower c) = true ∧ isWordChar (tolower c) = true := by decide
  have h8 : ∀ c : CHAR, isDigit 8 c = true →
      isBaseDigit 8 (tolower c) = true ∧ isWordChar (tolower c) = true := by decide
  have h10 : ∀ c : CHAR, isDigit 10 c = true →
      isBaseDigit 10 (tolower c) = true ∧ isWordChar (tolower c) = true := by decide
  have h16 : ∀ c : CHAR, isDigit 16 c = true →
      isBaseDigit 16 (tolower c) = true ∧ isWordChar (tolower c) = true := by decide
  rcases hbase with rfl | rfl | rfl | rfl
  · exact h2 c h
  · exact h8 c h
  · exact h10 c h
  · exact h16 c h

theorem digitValue_tolower {radix : Nat} {c : CHAR} (h : isDigit radix c = true) :
    (digitValue (tolower c)).toNat = (digitOf c).getD 0 := by
  have hall : ∀ c : CHAR, digitValue (tolower c) = BitVec.ofNat 64 ((digitOf c).getD 0) ∨
      digitOf c = none := by decide
  obtain ⟨d, hd, _⟩ := exists_of_isDigit h
  have hlt := digitOf_lt hd
  have hvalue := (hall c).resolve_right (by simp [hd])
  rw [hvalue, hd, Option.getD_some, BitVec.toNat_ofNat, Nat.mod_eq_of_lt (by omega)]

/-- A digit that keeps the value below 64 bits raises no overflow. -/
theorem digit_exact {base : ULONG64} {w : WordScan} {l : CHAR} {d : Nat}
    (hbase : 0 < base.toNat) (hd : (digitValue l).toNat = d)
    (hlt : w.value.toNat * base.toNat + d < 2 ^ 64) :
    (w.digit base l).errNumber = w.errNumber ∧
      (w.digit base l).value.toNat = w.value.toNat * base.toNat + d := by
  have hmul : (w.value * base).toNat = w.value.toNat * base.toNat := by
    rw [BitVec.toNat_mul, Nat.mod_eq_of_lt (by omega)]
  have hsum : (w.value * base + digitValue l).toNat = w.value.toNat * base.toNat + d := by
    rw [BitVec.toNat_add, hmul, hd, Nat.mod_eq_of_lt hlt]
  have hle := Nat.le_mul_of_pos_right w.value.toNat hbase
  have hno : ¬ (w.value * base < w.value ∨ w.value * base + digitValue l < w.value * base) := by
    rintro (h | h)
    · rw [BitVec.lt_def, hmul] at h
      omega
    · rw [BitVec.lt_def, hsum, hmul] at h
      omega
  exact ⟨if_neg hno, hsum⟩

theorem separated_cons {c : CHAR} (hc : c ≠ chr '`') (d : List CHAR) :
    separated (c :: d) = c :: separated d := by
  simp [separated, hc]

theorem separated_quote (d : List CHAR) : separated (chr '`' :: d) = separated d := by
  simp [separated]

theorem length_separated_le (d : List CHAR) : (separated d).length ≤ d.length :=
  List.length_filter_le _ d

/-- What the scan of the digits `d` makes of `w`. -/
structure Scanned (radix : Nat) (w : WordScan) (d : List CHAR) (w' : WordScan) : Prop where
  isNumber : w'.isNumber = true
  errNumber : w'.errNumber = 0
  value : w'.value.toNat = valueFrom radix w.value.toNat (separated d)
  isDigit : w.isDigit = true ∨ d ≠ [] → w'.isDigit = true
  allowSignExtension : w'.allowSignExtension = true ↔
    w.allowSignExtension = true ∧ separated d = d

theorem char_digit {base : ULONG64} (isSymbol : Bool) {w : WordScan} {c : CHAR}
    (hn : w.isNumber = true) (hc : isBaseDigit base (tolower c) = true) :
    (w.char base isSymbol c).isNumber = true ∧ (w.char base isSymbol c).isDigit = true ∧
      (w.char base isSymbol c).errNumber = (w.digit base (tolower c)).errNumber ∧
      (w.char base isSymbol c).value = (w.digit base (tolower c)).value ∧
      (w.char base isSymbol c).allowSignExtension = w.allowSignExtension := by
  have hdigit : (w.digit base (tolower c)).isNumber = true := hn
  cases isSymbol <;> simp [WordScan.char, hn, hc, hdigit] <;> simp [WordScan.digit]

theorem char_quote {base : ULONG64} (isSymbol : Bool) {w : WordScan}
    (hbase : base = 16) (hn : w.isNumber = true) (hd : w.isDigit = true) :
    (w.char base isSymbol (chr '`')).isNumber = true ∧
      (w.char base isSymbol (chr '`')).isDigit = true ∧
      (w.char base isSymbol (chr '`')).errNumber = w.errNumber ∧
      (w.char base isSymbol (chr '`')).value = w.value ∧
      (w.char base isSymbol (chr '`')).allowSignExtension = false := by
  have hlow : tolower (chr '`') = chr '`' := by decide
  have hno : isBaseDigit base (chr '`') = false := by
    subst hbase
    decide
  cases isSymbol <;> simp [WordScan.char, hn, hd, hlow, hno]

theorem scanWord_digits {base : ULONG64} (isSymbol : Bool) {d t : List CHAR} {w : WordScan}
    (hbase : base = 2 ∨ base = 8 ∨ base = 10 ∨ base = 16) (hn : w.isNumber = true)
    (herr : w.errNumber = 0) (hd : (separated d).all (isDigit base.toNat) = true)
    (hsep : separated d = d ∨
      base.toNat = 16 ∧ (w.isDigit = true ∨ d.head? ≠ some (chr '`')))
    (hlt : valueFrom base.toNat w.value.toNat (separated d) < 2 ^ 64)
    (ht : boundary t = true) :
    ∃ w', scanWord base isSymbol w (d ++ t) = (w', t) ∧ Scanned base.toNat w d w' := by
  have hpos : 0 < base.toNat := by
    rcases hbase with rfl | rfl | rfl | rfl <;> decide
  induction d generalizing w with
  | nil =>
    refine ⟨w, scanWord_boundary ht w, hn, herr, rfl, ?_, ?_⟩
    · exact fun h => h.resolve_right fun hne => hne rfl
    · simp [separated]
  | cons c d ih =>
    by_cases hc : c = chr '`'
    · subst hc
      have hne : separated (chr '`' :: d) ≠ chr '`' :: d := by
        intro h
        have hlen := congrArg List.length h
        have hle := length_separated_le d
        rw [separated_quote, List.length_cons] at hlen
        omega
      obtain ⟨h16, hdigit⟩ := hsep.resolve_left hne
      have hdigit := hdigit.resolve_right fun h => h rfl
      have h16' : base = 16 := BitVec.eq_of_toNat_eq h16
      obtain ⟨hn', hd', herr', hvalue', hallow'⟩ :=
        char_quote isSymbol h16' hn hdigit
      rw [separated_quote] at hd hlt
      obtain ⟨w', hscan, hw'⟩ := ih hn' (herr'.trans herr) hd
        (Or.inr ⟨h16, Or.inl hd'⟩) (by rw [hvalue']; exact hlt)
      refine ⟨w', ?_, hw'.isNumber, hw'.errNumber, ?_, fun _ => hw'.isDigit (Or.inl hd'), ?_⟩
      · rw [List.cons_append, scanWord, if_pos (Or.inr ⟨hdigit, h16', by decide⟩)]
        exact hscan
      · rw [hw'.value, hvalue', separated_quote]
      · rw [hw'.allowSignExtension, hallow']
        simp [hne]
    · rw [separated_cons hc, List.all_cons, Bool.and_eq_true] at hd
      obtain ⟨hbd, hword⟩ := isBaseDigit_of_isDigit hbase hd.1
      have hdv := digitValue_tolower hd.1
      rw [separated_cons hc, valueFrom_cons] at hlt
      have hle := le_valueFrom hpos
        (w.value.toNat * base.toNat + (digitOf c).getD 0) (separated d)
      obtain ⟨hderr, hdvalue⟩ := digit_exact hpos hdv (Nat.lt_of_le_of_lt hle hlt)
      obtain ⟨hn', hd', herr', hvalue', hallow'⟩ :=
        char_digit isSymbol hn hbd
      have hsep' : separated d = d ∨ base.toNat = 16 ∧
          ((w.char base isSymbol c).isDigit = true ∨ d.head? ≠ some (chr '`')) := by
        rw [separated_cons hc] at hsep
        exact hsep.imp (fun h => (List.cons.inj h).2) fun h => ⟨h.1, Or.inl hd'⟩
      have hval : (w.char base isSymbol c).value.toNat =
          w.value.toNat * base.toNat + (digitOf c).getD 0 := by rw [hvalue', hdvalue]
      obtain ⟨w', hscan, hw'⟩ := ih hn' (by rw [herr', hderr, herr]) hd.2 hsep'
        (by rw [hval]; exact hlt)
      refine ⟨w', ?_, hw'.isNumber, hw'.errNumber, ?_, fun _ => hw'.isDigit (Or.inl hd'), ?_⟩
      · rw [List.cons_append, scanWord, if_pos (Or.inl hword)]
        exact hscan
      · rw [hw'.value, hval, separated_cons hc, valueFrom_cons]
      · rw [hw'.allowSignExtension, hallow', separated_cons hc]
        simp

theorem digit_facts {radix : Nat} {c : CHAR} (h : isDigit radix c = true) :
    isAlnum c = true ∧ isWordChar (tolower c) = true ∧
      ((chr '0' ≤ tolower c ∧ tolower c ≤ chr '9') ∨
        10 < radix ∧ chr 'a' ≤ tolower c ∧ tolower c ≤ chr 'f') := by
  have hall : ∀ c : CHAR, digitOf c ≠ none →
      isAlnum c = true ∧ isWordChar (tolower c) = true ∧
      ((chr '0' ≤ tolower c ∧ tolower c ≤ chr '9') ∨
        9 < (digitOf c).getD 0 ∧ chr 'a' ≤ tolower c ∧ tolower c ≤ chr 'f') := by
    decide
  obtain ⟨d, hd, hlt⟩ := exists_of_isDigit h
  obtain ⟨halnum, hword, hrange⟩ := hall c (by simp [hd])
  refine ⟨halnum, hword, hrange.imp_right fun h => ⟨?_, h.2⟩⟩
  rw [hd, Option.getD_some] at h
  omega

/-- A character that may stand in a radix prefix is part of a word. -/
theorem radixPrefixes_word {c : CHAR} {r : Nat} (h : radixPrefixes.lookup (tolower c) = some r) :
    isWordChar (tolower c) = true := by
  have hall : ∀ c : CHAR, radixPrefixes.lookup (tolower c) ≠ none →
      isWordChar (tolower c) = true := by decide
  exact hall c (by simp [h])

/-- The base that a number starts with is the one of the table of prefixes. -/
theorem numberStart_eq (base : ULONG64) {p : CHAR} (rest : List CHAR) :
    numberStart base (chr '0' :: p :: rest) =
      match radixPrefixes.lookup (tolower p) with
      | some r => (BitVec.ofNat 64 r, rest, true)
      | none => (base, p :: rest, true) := by
  unfold numberStart
  dsimp only
  rw [if_pos rfl]
  generalize tolower p = l
  by_cases hn : l = chr 'n'
  · subst hn
    rfl
  by_cases ht : l = chr 't'
  · subst ht
    rfl
  by_cases hx : l = chr 'x'
  · subst hx
    rfl
  by_cases hy : l = chr 'y'
  · subst hy
    rfl
  have hnone : radixPrefixes.lookup l = none := by
    apply List.lookup_eq_none_iff.mpr
    simp [radixPrefixes, hn, ht, hx, hy]
  rw [hnone, if_neg hn, if_neg ht, if_neg hx, if_neg hy]

theorem numberStart_zero {base : ULONG64} {d t : List CHAR} (ht : boundary t = true)
    (hd : radixPrefixes.lookup (tolower (d.headD 0)) = none) :
    numberStart base (chr '0' :: (d ++ t)) = (base, d ++ t, true) := by
  cases d with
  | nil =>
    cases t with
    | nil => rfl
    | cons c t =>
      have hnone : radixPrefixes.lookup (tolower c) = none := by
        cases h : radixPrefixes.lookup (tolower c) with
        | none => rfl
        | some r =>
          have hword := (boundary_cons ht).1
          rw [radixPrefixes_word h] at hword
          cases hword
      rw [List.nil_append, numberStart_eq, hnone]
  | cons c d =>
    have hnone : radixPrefixes.lookup (tolower c) = none := hd
    rw [List.cons_append, numberStart_eq, hnone]

theorem numberStart_ne {base : ULONG64} {c : CHAR} (hc : c ≠ chr '0') (t : List CHAR) :
    numberStart base (c :: t) = (base, c :: t, false) := by
  cases t with
  | nil => simp [numberStart, hc]
  | cons p t => simp [numberStart, hc]

theorem shiftRight_32_eq_zero (v : ULONG64) : v >>> 32 = 0 ↔ v.toNat < 2 ^ 32 := by
  have hv : (v >>> 32).toNat = v.toNat / 2 ^ 32 := by
    rw [BitVec.toNat_ushiftRight, Nat.shiftRight_eq_div_pow]
  constructor
  · intro h
    rw [h] at hv
    have hzero : (0 : ULONG64).toNat = 0 := rfl
    omega
  · intro h
    apply BitVec.eq_of_toNat_eq
    rw [hv]
    exact Nat.div_eq_of_lt h

theorem wordToken_scanned {radix : Nat} {w w' : WordScan} {d t : List CHAR} {isSymbol : Bool}
    (h : Scanned radix w d w') (hw : w.value = 0 ∧ w.allowSignExtension = cfg.kernelTarget)
    (hd : w.isDigit = true ∨ d ≠ []) (ht : boundary t = true) :
    wordToken cfg force isSymbol w' t = some (.number (numberValue cfg force radix d), t) := by
  have hvalue : w'.value.toNat = digitsValue radix (separated d) := by
    rw [h.value, hw.1]
    rfl
  have hnat : w'.value = BitVec.ofNat 64 (digitsValue radix (separated d)) := by
    rw [← hvalue, BitVec.ofNat_toNat, BitVec.setWidth_eq]
  have hcolon := boundary_head_ne_colon ht
  have hsign : (w'.allowSignExtension = true ∧ ¬ force = true ∧ w'.value >>> 32 = 0) ↔
      (cfg.kernelTarget = true ∧ ¬ force = true ∧ separated d = d ∧
        digitsValue radix (separated d) < 2 ^ 32) := by
    rw [h.allowSignExtension, hw.2, shiftRight_32_eq_zero, hvalue]
    constructor
    · rintro ⟨⟨h1, h2⟩, h3, h4⟩
      exact ⟨h1, h3, h2, h4⟩
    · rintro ⟨h1, h2, h3, h4⟩
      exact ⟨⟨h1, h3⟩, h2, h4⟩
  unfold wordToken numberValue
  rw [if_neg fun hc => hcolon hc.2, if_pos ⟨h.isNumber, h.errNumber, h.isDigit hd⟩]
  by_cases hs : cfg.kernelTarget = true ∧ ¬ force = true ∧ separated d = d ∧
      digitsValue radix (separated d) < 2 ^ 32
  · rw [if_pos (hsign.mpr hs), if_pos hs, hnat]
  · rw [if_neg (mt hsign.mp hs), if_neg hs, hnat]

theorem literalValue_eq_some {s : List CHAR} {v : ULONG64}
    (h : literalValue cfg force s = some v) :
    ∃ radix d, literalDigits cfg.defaultRadix.base.toNat s = (radix, d) ∧ d ≠ [] ∧
      (separated d).all (isDigit radix) = true ∧ digitsValue radix (separated d) < 2 ^ 64 ∧
      (separated d = d ∨ radix = 16 ∧ d.head? ≠ some (chr '`')) ∧
      v = numberValue cfg force radix d := by
  refine ⟨_, _, rfl, ?_⟩
  unfold literalValue at h
  dsimp only at h
  split at h
  · next hif => exact ⟨hif.1, hif.2.1, hif.2.2.1, hif.2.2.2, (Option.some.inj h).symm⟩
  · cases h

theorem word_of_digits {radix : Nat} {d : List CHAR}
    (h : (separated d).all (isDigit radix) = true) :
    ∀ c ∈ d, isWordChar (tolower c) = true ∨ c = chr '`' := by
  intro c hc
  by_cases hq : c = chr '`'
  · exact Or.inr hq
  · have hmem : c ∈ separated d := List.mem_filter.mpr ⟨hc, by simp [hq]⟩
    exact Or.inl (digit_facts (List.all_eq_true.mp h c hmem)).2.1

/-- The number that starts with `c` is read as the digits `d` in base `base`. -/
theorem lexToken_digits {c : CHAR} {s d t : List CHAR} {base : ULONG64}
    (startsNumber isDigit₀ : Bool) (hc : isAlnum c = true)
    (hs : ∀ x ∈ c :: s, isWordChar (tolower x) = true ∨ x = chr '`')
    (hfirst : decide (chr '0' ≤ tolower c ∧ tolower c ≤ chr '9') = startsNumber)
    (hhex : startsNumber = true ∨
      (chr 'a' ≤ tolower c ∧ tolower c ≤ chr 'f') ∧ cfg.defaultRadix = .hexadecimal)
    (hstart : (if startsNumber = true then numberStart cfg.defaultRadix.base (c :: s ++ t)
      else (cfg.defaultRadix.base, c :: s ++ t, false)) = (base, d ++ t, isDigit₀))
    (hbase : base = 2 ∨ base = 8 ∨ base = 10 ∨ base = 16) (hne : isDigit₀ = true ∨ d ≠ [])
    (hd : (separated d).all (isDigit base.toNat) = true)
    (hlt : digitsValue base.toNat (separated d) < 2 ^ 64)
    (hsep : separated d = d ∨
      base.toNat = 16 ∧ (isDigit₀ = true ∨ d.head? ≠ some (chr '`')))
    (ht : boundary t = true) :
    lexToken cfg force false (c :: s ++ t) =
      some (.number (numberValue cfg force base.toNat d), t) := by
  have hnumber : (startsNumber || decide ((chr 'a' ≤ tolower c ∧ tolower c ≤ chr 'f') ∧
      cfg.defaultRadix = .hexadecimal)) = true := by
    rcases hhex with h | h
    · rw [h, Bool.true_or]
    · rw [decide_eq_true h, Bool.or_true]
  obtain ⟨w', hscan, hw'⟩ := scanWord_digits (!startsNumber) (d := d) (t := t)
    (w := ⟨0, true, isDigit₀, cfg.kernelTarget, 0, []⟩) hbase rfl rfl hd hsep hlt ht
  have hhead : (c :: s ++ t).headD 0 = c := rfl
  rw [List.cons_append, lexToken_alnum hc, ← List.cons_append, lexWord_eq hs ht]
  simp only [hhead, hfirst, hnumber, hstart, hscan]
  exact wordToken_scanned hw' ⟨rfl, rfl⟩ hne ht

theorem digitsValue_zero (radix : Nat) (d : List CHAR) :
    digitsValue radix (separated (chr '0' :: d)) = digitsValue radix (separated d) := by
  have hzero : digitOf (chr '0') = some 0 := by decide
  rw [separated_cons (by decide), digitsValue, valueFrom_cons, hzero, digitsValue]
  simp

theorem numberValue_zero (radix : Nat) (d : List CHAR) :
    numberValue cfg force radix (chr '0' :: d) = numberValue cfg force radix d := by
  unfold numberValue
  rw [digitsValue_zero, separated_cons (by decide)]
  simp only [List.cons.injEq, true_and]

theorem radixPrefixes_radix {l : CHAR} {r : Nat} (h : radixPrefixes.lookup l = some r) :
    (BitVec.ofNat 64 r).toNat = r ∧ r ∈ radixPrefixes.map Prod.snd := by
  obtain ⟨l₁, l₂, heq, _⟩ := List.lookup_eq_some_iff.mp h
  have hmem : (l, r) ∈ radixPrefixes := by
    rw [heq]
    simp
  have hall : ∀ x ∈ radixPrefixes, (BitVec.ofNat 64 x.2).toNat = x.2 := by decide
  exact ⟨hall _ hmem, List.mem_map_of_mem hmem⟩

theorem defaultRadix_hexadecimal (h : 10 < cfg.defaultRadix.base.toNat) :
    cfg.defaultRadix = .hexadecimal := by
  cases hr : cfg.defaultRadix with
  | hexadecimal => rfl
  | octal => simp [hr, DefaultRadix.base] at h
  | decimal => simp [hr, DefaultRadix.base] at h

theorem literalDigits_zero (radix : Nat) (s : List CHAR) :
    literalDigits radix (chr '0' :: s) =
      match radixPrefixes.lookup (tolower (s.headD 0)) with
      | some r => (r, s.tail)
      | none => (radix, chr '0' :: s) := by
  unfold literalDigits
  rw [List.head?_cons, if_pos rfl]
  cases s <;> rfl

theorem lexToken_literal {s t : List CHAR} {v : ULONG64}
    (h : literalValue cfg force s = some v) (ht : boundary t = true) :
    lexToken cfg force false (s ++ t) = some (.number v, t) := by
  obtain ⟨radix, d, hdigits, hne, hall, hlt, hsep, rfl⟩ := literalValue_eq_some h
  have hwords := word_of_digits hall
  have hzero : isAlnum (chr '0') = true ∧ isWordChar (tolower (chr '0')) = true ∧
      decide (chr '0' ≤ tolower (chr '0') ∧ tolower (chr '0') ≤ chr '9') = true := by decide
  cases s with
  | nil =>
    obtain ⟨rfl, rfl⟩ := Prod.mk.inj hdigits
    exact absurd rfl hne
  | cons c s =>
    by_cases hc : c = chr '0'
    · subst hc
      cases hp : radixPrefixes.lookup (tolower (s.headD 0)) with
      | some r =>
        -- The literal has a prefix for its radix.
        obtain ⟨hr, hmem⟩ := radixPrefixes_radix hp
        cases s with
        | nil =>
          have hnil : radixPrefixes.lookup (tolower 0) = none := by decide
          cases hnil.symm.trans hp
        | cons p s =>
          have hp : radixPrefixes.lookup (tolower p) = some r := hp
          have hpair : (r, s) = (radix, d) := by
            rw [← hdigits, literalDigits_zero, List.headD_cons, hp, List.tail_cons]
          obtain ⟨rfl, rfl⟩ := Prod.mk.inj hpair
          have hstart : numberStart cfg.defaultRadix.base (chr '0' :: p :: s ++ t) =
              (BitVec.ofNat 64 r, s ++ t, true) := by
            rw [List.cons_append, List.cons_append, numberStart_eq, hp]
          rw [← hr] at hall hlt hsep ⊢
          refine lexToken_digits true true hzero.1 ?_ hzero.2.2
            (Or.inl rfl) hstart (base_cases cfg hr (Or.inr hmem)) (Or.inl rfl) hall hlt
            (hsep.imp_right fun h => ⟨h.1, Or.inl rfl⟩) ht
          intro x hx
          rcases List.mem_cons.mp hx with rfl | hx
          · exact Or.inl hzero.2.1
          · rcases List.mem_cons.mp hx with rfl | hx
            · exact Or.inl (radixPrefixes_word hp)
            · exact hwords x hx
      | none =>
        -- A leading zero is a digit of its own.
        have hpair : (cfg.defaultRadix.base.toNat, chr '0' :: s) = (radix, d) := by
          rw [← hdigits, literalDigits_zero, hp]
        obtain ⟨rfl, rfl⟩ := Prod.mk.inj hpair
        rw [digitsValue_zero] at hlt
        rw [numberValue_zero]
        rw [separated_cons (by decide), List.all_cons, Bool.and_eq_true] at hall
        refine lexToken_digits true true hzero.1 hwords hzero.2.2
          (Or.inl rfl) (numberStart_zero ht hp) (base_cases cfg rfl (Or.inl rfl)) (Or.inl rfl)
          hall.2 hlt ?_ ht
        rw [separated_cons (by decide)] at hsep
        exact hsep.imp (fun h => (List.cons.inj h).2) fun h => ⟨h.1, Or.inl rfl⟩
    · have hpair : (cfg.defaultRadix.base.toNat, c :: s) = (radix, d) := by
        rw [← hdigits]
        simp [literalDigits, hc]
      obtain ⟨rfl, rfl⟩ := Prod.mk.inj hpair
      have hcd : isDigit cfg.defaultRadix.base.toNat c = true := by
        have hq : c ≠ chr '`' := by
          rcases hsep with h | h
          · rintro rfl
            rw [separated_quote] at h
            have hlen := congrArg List.length h
            have hle := length_separated_le s
            rw [List.length_cons] at hlen
            omega
          · exact fun hq => h.2 (congrArg some hq)
        rw [separated_cons hq, List.all_cons, Bool.and_eq_true] at hall
        exact hall.1
      obtain ⟨halnum, _, hrange⟩ := digit_facts hcd
      cases hs : decide (chr '0' ≤ tolower c ∧ tolower c ≤ chr '9') with
      | true =>
        exact lexToken_digits true false halnum hwords hs
          (Or.inl rfl) (numberStart_ne hc _) (base_cases cfg rfl (Or.inl rfl)) (Or.inr hne)
          hall hlt (hsep.imp_right fun h => ⟨h.1, Or.inr h.2⟩) ht
      | false =>
        obtain ⟨hradix, hletter⟩ := hrange.resolve_left (of_decide_eq_false hs)
        exact lexToken_digits false false halnum hwords hs
          (Or.inr ⟨hletter, defaultRadix_hexadecimal hradix⟩) rfl
          (base_cases cfg rfl (Or.inl rfl)) (Or.inr hne)
          hall hlt (hsep.imp_right fun h => ⟨h.1, Or.inr h.2⟩) ht

/-! ### Every token of the language -/

theorem lexToken_of_reads {t t' : List CHAR} {tok : Token} (h : Reads cfg force t tok t') :
    lexToken cfg force false t = some (tok, t') := by
  cases h with
  | symbol hs hl => exact lexToken_symbol hs hl
  | word hs ht => exact lexToken_word hs ht
  | literal hs ht => exact lexToken_literal hs ht

theorem Reads.length_lt {t t' : List CHAR} {tok : Token} (h : Reads cfg force t tok t') :
    t'.length < t.length := by
  have happend : ∀ s : List CHAR, s ≠ [] → t'.length < (s ++ t').length := by
    intro s hs
    have := List.length_pos_iff.mpr hs
    rw [List.length_append]
    omega
  cases h with
  | @symbol s _ _ hs _ =>
    apply happend
    rintro rfl
    have hne : ∀ x ∈ symbols, x.1 ≠ [] := by decide
    exact hne _ hs rfl
  | @word s _ _ hs _ =>
    apply happend
    rintro rfl
    have hne : ∀ x ∈ words, x.1 ≠ [] := by decide
    exact hne _ hs rfl
  | @literal s _ v hs _ =>
    apply happend
    rintro rfl
    obtain ⟨_, _, hdigits, hne, _⟩ := literalValue_eq_some hs
    obtain ⟨rfl, rfl⟩ := Prod.mk.inj hdigits
    exact hne rfl

end SdkTools.Masm
