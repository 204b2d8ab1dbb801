import SdkTools.M4.Tokens

/-!
# The parser reads the tokens that a text spells

On a text that spells a token sequence, `lexemes` is that sequence; and a text
whose lexemes are all tokens spells them.
-/

namespace SdkTools.M4

open Lib.Digits

set_option autoImplicit false

/-! ### Characters -/

theorem atDigit_eq (c : TCH) : atDigit c = (digitOf c).map (BitVec.ofNat 32) := by
  revert c
  decide

theorem not_white_of_isAlnum {c : TCH} (h : isAlnum c = true) : fWhiteTch c = false := by
  have hall : ∀ c : TCH, isAlnum c = true → fWhiteTch c = false := by decide
  exact hall c h

theorem lower_eq_x (c : TCH) : (c ||| 0x20) = tch 'x' ↔ c = tch 'x' ∨ c = tch 'X' := by
  revert c
  decide

/-! ### White space -/

theorem skipWhitePtok_append {w : List TCH} (hw : White w) (t : List TCH) :
    skipWhitePtok (w ++ t) = skipWhitePtok t := by
  induction w with
  | nil => rfl
  | cons c w ih =>
    have hc := hw c List.mem_cons_self
    simp only [List.cons_append, skipWhitePtok, hc, if_true]
    exact ih fun d hd => hw d (List.mem_cons_of_mem _ hd)

theorem skipWhitePtok_cons {c : TCH} (hc : fWhiteTch c = false) (t : List TCH) :
    skipWhitePtok (c :: t) = c :: t := by
  simp [skipWhitePtok, hc]

theorem skipWhitePtok_spec (t : List TCH) :
    ∃ w, White w ∧ t = w ++ skipWhitePtok t ∧
      ∀ c, (skipWhitePtok t).head? = some c → fWhiteTch c = false := by
  induction t with
  | nil => exact ⟨[], by simp [White], rfl, by simp [skipWhitePtok]⟩
  | cons c t ih =>
    cases hc : fWhiteTch c with
    | true =>
      obtain ⟨w, hw, ht, hhead⟩ := ih
      refine ⟨c :: w, by simpa [White, hc] using hw, ?_, ?_⟩
      · simp only [skipWhitePtok, hc, if_true, List.cons_append, ← ht]
      · simpa only [skipWhitePtok, hc, if_true] using hhead
    | false =>
      refine ⟨[], by simp [White], by simp [skipWhitePtok, hc], ?_⟩
      rintro d hd
      simp only [skipWhitePtok, hc, Bool.false_eq_true, if_false, List.head?_cons,
        Option.some.injEq] at hd
      exact hd ▸ hc

theorem skipWhitePtok_idem (t : List TCH) : skipWhitePtok (skipWhitePtok t) = skipWhitePtok t := by
  obtain ⟨_, _, _, hhead⟩ := skipWhitePtok_spec t
  cases h : skipWhitePtok t with
  | nil => rfl
  | cons c s => exact skipWhitePtok_cons (hhead c (by rw [h]; rfl)) s

theorem length_skipWhitePtok_le (t : List TCH) : (skipWhitePtok t).length ≤ t.length := by
  obtain ⟨w, _, ht, _⟩ := skipWhitePtok_spec t
  have := congrArg List.length ht
  simp only [List.length_append] at this
  omega

/-! ### Operators -/

/-- No operator of the table is hidden by an earlier one. -/
theorem rgeopi_pairwise : rgeopi.Pairwise fun a b =>
    ¬ a.text <+: b.text ∧ b.text.length ≤ a.text.length := by decide

theorem text_ne_nil {o : Eop} (h : o ∈ rgeopi) : o.text ≠ [] := by
  revert o
  decide

/-- Operators are written in characters of their own. -/
theorem text_head {o : Eop} (h : o ∈ rgeopi) {c : TCH} (hc : o.text.head? = some c) :
    fWhiteTch c = false ∧ isAlnum c = false ∧ c ≠ tch '(' ∧ c ≠ tch ')' := by
  have hall : ∀ o ∈ rgeopi, (o.text.head?.all fun c =>
      !fWhiteTch c && !isAlnum c && c != tch '(' && c != tch ')') = true := by decide
  have hhead := hall o h
  rw [hc] at hhead
  simpa [and_assoc] using hhead

theorem find?_of_pairwise {l : List Eop} {p : Eop → Bool} {R : Eop → Eop → Prop} {o : Eop}
    (hl : l.Pairwise R) (ho : o ∈ l) (hp : p o = true)
    (hR : ∀ a, p a = true → ¬ R a o) : l.find? p = some o := by
  induction l with
  | nil => simp at ho
  | cons a l ih =>
    obtain ⟨ha, hl⟩ := List.pairwise_cons.mp hl
    rcases List.mem_cons.mp ho with rfl | ho
    · exact List.find?_cons_of_pos hp
    · rw [List.find?_cons_of_neg fun hpa => hR a hpa (ha o ho)]
      exact ih hl ho

theorem findEopi_text {o : Eop} {t : List TCH} (ho : o ∈ rgeopi) (hlong : Longest o t) :
    findEopi (o.text ++ t) = some o := by
  refine find?_of_pairwise rgeopi_pairwise ho (by simp) fun a ha hR => ?_
  -- An earlier entry that matches is no longer, hence a prefix of this one.
  by_cases hmem : a ∈ rgeopi
  · have hpre : a.text <+: o.text ++ t := List.isPrefixOf_iff_prefix.mp ha
    exact hR.1 (List.prefix_of_prefix_length_le hpre (List.prefix_append _ _)
      (hlong a hmem hpre))
  · revert hmem
    cases a <;> first | decide | skip
    all_goals exact fun _ => hR.1 (by simp [Eop.text])

theorem findEopi_eq_some {tok : List TCH} {o : Eop} (h : findEopi tok = some o) :
    o ∈ rgeopi ∧ tok = o.text ++ tok.drop o.text.length ∧
      Longest o (tok.drop o.text.length) := by
  have hpre : o.text <+: tok :=
    List.isPrefixOf_iff_prefix.mp (List.find?_some (p := fun o : Eop => o.text.isPrefixOf tok) h)
  have htok : tok = o.text ++ tok.drop o.text.length := by
    obtain ⟨t, rfl⟩ := hpre
    simp
  have hmem := List.mem_of_find?_eq_some h
  refine ⟨hmem, htok, fun o' ho' hpre' => ?_⟩
  rw [← htok] at hpre'
  obtain ⟨_, l₁, l₂, heq, hbefore⟩ := List.find?_eq_some_iff_append.mp h
  rw [heq] at ho'
  rcases List.mem_append.mp ho' with hm | hm
  · have hfalse := hbefore o' hm
    simp [List.isPrefixOf_iff_prefix.mpr hpre'] at hfalse
  · rcases List.mem_cons.mp hm with rfl | hm
    · exact Nat.le_refl _
    · have hpw := rgeopi_pairwise
      rw [heq] at hpw
      exact ((List.pairwise_cons.mp (List.pairwise_append.mp hpw).2.1).1 o' hm).2

/-- Where a token starts that is not an operator, none is found. -/
theorem findEopi_eq_none {c : TCH} {t : List TCH}
    (hc : isAlnum c = true ∨ c = tch '(' ∨ c = tch ')') : findEopi (c :: t) = none := by
  refine List.find?_eq_none.mpr fun o ho hpre => ?_
  have hpre := List.isPrefixOf_iff_prefix.mp hpre
  cases htext : o.text with
  | nil => exact text_ne_nil ho htext
  | cons d ds =>
    rw [htext] at hpre
    obtain rfl := (List.cons_prefix_cons.mp hpre).1
    have hd := text_head ho (c := d) (by rw [htext]; rfl)
    rcases hc with hc | hc | hc
    · exact absurd (hc.symm.trans hd.2.1) (by decide)
    · exact hd.2.2.1 hc
    · exact hd.2.2.2 hc

theorem findEopi_nil : findEopi [] = none := by decide

/-! ### Numbers -/

theorem atRadixLoop_ends {radix value : AT} {t : List TCH} (ht : Ends t = true) :
    atRadixLoop radix value t = (value, t) := by
  cases t with
  | nil => rfl
  | cons c t =>
    have hc : isAlnum c = false := by simpa [Ends] using ht
    simp [atRadixLoop, atDigit_eq, digitOf_eq_none hc]

theorem atRadixLoop_digits {radix : Nat} (hr : radix ≤ 16) {s t : List TCH} (n : Nat)
    (hs : s.all (isDigit radix) = true) (ht : Ends t = true) :
    atRadixLoop (BitVec.ofNat 32 radix) (BitVec.ofNat 32 n) (s ++ t) =
      (BitVec.ofNat 32 (valueFrom radix n s), t) := by
  induction s generalizing n with
  | nil => exact atRadixLoop_ends ht
  | cons c s ih =>
    simp only [List.all_cons, Bool.and_eq_true] at hs
    obtain ⟨hc, hs⟩ := hs
    obtain ⟨d, hd, hlt⟩ := exists_of_isDigit hc
    have hnot : ¬ BitVec.ofNat 32 d > BitVec.ofNat 32 radix := by
      simp only [gt_iff_lt, BitVec.lt_def, BitVec.toNat_ofNat]
      omega
    simp only [List.cons_append, atRadixLoop, atDigit_eq, hd, Option.map_some, if_neg hnot]
    rw [← BitVec.ofNat_mul, ← BitVec.ofNat_add, ih _ hs, valueFrom_cons, hd, Option.getD_some]

theorem literalDigits_radix_le (s : List TCH) : (literalDigits s).1 ≤ 16 := by
  unfold literalDigits
  split <;> first | omega | (split <;> omega)

theorem literalValue_eq_some {s : List TCH} {a : AT} (h : literalValue s = some a) :
    (literalDigits s).2 ≠ [] ∧ (literalDigits s).2.all (isDigit (literalDigits s).1) = true ∧
      a = BitVec.ofNat 32 (digitsValue (literalDigits s).1 (literalDigits s).2) := by
  unfold literalValue at h
  split at h
  · next h' => exact ⟨h'.1, h'.2, (Option.some.inj h).symm⟩
  · cases h

theorem literalDigits_decimal {c : TCH} (hc : c ≠ tch '0') (s : List TCH) :
    literalDigits (c :: s) = (10, c :: s) := by
  simp only [literalDigits, List.head?_cons, Option.some.injEq, if_neg hc]

theorem literal_ne_nil {s : List TCH} {a : AT} (h : literalValue s = some a) : s ≠ [] := by
  rintro rfl
  exact (literalValue_eq_some h).1 rfl

/-- The parser finds the radix and the digits of a literal. -/
theorem radixPtok_literal {s t : List TCH} {a : AT} (h : literalValue s = some a)
    (ht : Ends t = true) :
    radixPtok (s ++ t) = (BitVec.ofNat 32 (literalDigits s).1, (literalDigits s).2 ++ t) := by
  obtain ⟨hne, hall, _⟩ := literalValue_eq_some h
  cases s with
  | nil => exact absurd rfl (literal_ne_nil h)
  | cons c s =>
    by_cases hc : c = tch '0'
    · subst hc
      cases s with
      | nil =>
        -- Only the text after a lone zero could look like a hexadecimal prefix.
        have hx : ¬ ((List.cons (tch '0') t).length > 2 ∧
            ((tch '0' :: t).getD 1 0 ||| 0x20) = tch 'x') := by
          rintro ⟨hlen, hx⟩
          cases t with
          | nil => simp at hlen
          | cons d t =>
            have hd : isAlnum d = false := by simpa [Ends] using ht
            rcases (lower_eq_x d).mp hx with rfl | rfl <;> revert hd <;> decide
        simp only [List.cons_append, List.nil_append, radixPtok, List.head?_cons, if_true,
          if_neg hx]
        rfl
      | cons d s =>
        by_cases hd : d = tch 'x' ∨ d = tch 'X'
        · have hdig : literalDigits (tch '0' :: d :: s) = (16, s) := by
            simp only [literalDigits, List.head?_cons, if_true, List.getD_cons_succ,
              List.getD_cons_zero, if_pos hd]
            rfl
          rw [hdig] at hne ⊢
          have hlen : (tch '0' :: d :: s ++ t).length > 2 := by
            have : 0 < s.length := List.length_pos_iff.mpr hne
            simp only [List.cons_append, List.length_cons, List.length_append]
            omega
          have hx := (lower_eq_x d).mpr hd
          simp only [radixPtok, List.cons_append, List.head?_cons, if_true] at hlen ⊢
          rw [if_pos ⟨hlen, hx⟩]
          rfl
        · have hdig : literalDigits (tch '0' :: d :: s) = (8, tch '0' :: d :: s) := by
            simp only [literalDigits, List.head?_cons, if_true, List.getD_cons_succ,
              List.getD_cons_zero, if_neg hd]
          rw [hdig]
          have hx : ¬ ((tch '0' :: d :: (s ++ t)).length > 2 ∧
              ((tch '0' :: d :: (s ++ t)).getD 1 0 ||| 0x20) = tch 'x') :=
            fun hx => hd ((lower_eq_x d).mp hx.2)
          simp only [radixPtok, List.cons_append, List.head?_cons, if_true, if_neg hx]
          rfl
    · simp only [literalDigits_decimal hc, radixPtok, List.cons_append, List.head?_cons,
        Option.some.injEq, if_neg hc]
      rfl

theorem fEvalPtokPat_literal {s t : List TCH} {a : AT} (h : literalValue s = some a)
    (ht : Ends t = true) : fEvalPtokPat (s ++ t) = some (a, t) := by
  obtain ⟨hne, hall, ha⟩ := literalValue_eq_some h
  have hs := literal_ne_nil h
  have hloop := atRadixLoop_digits (literalDigits_radix_le s) 0 hall ht
  have hempty : (s ++ t).isEmpty = false := by
    cases s with
    | nil => exact absurd rfl hs
    | cons c s => rfl
  have hlen : t.length ≠ ((literalDigits s).2 ++ t).length := by
    have := List.length_pos_iff.mpr hne
    simp only [List.length_append]
    omega
  simp only [fEvalPtokPat, hempty, Bool.false_eq_true, if_false, radixPtok_literal h ht,
    atRadixPtok]
  rw [show (0 : AT) = BitVec.ofNat 32 0 from rfl, hloop]
  simp only [if_neg hlen, ha, digitsValue]

/-- The digits of a literal start with a letter or digit, as the literal does. -/
theorem literal_head {s : List TCH} {a : AT} (h : literalValue s = some a) :
    ∃ c s', s = c :: s' ∧ isAlnum c = true := by
  obtain ⟨hne, hall, _⟩ := literalValue_eq_some h
  cases s with
  | nil => exact absurd rfl (literal_ne_nil h)
  | cons c s =>
    refine ⟨c, s, rfl, ?_⟩
    by_cases hc : c = tch '0'
    · subst hc
      decide
    · rw [literalDigits_decimal hc, List.all_cons, Bool.and_eq_true] at hall
      exact isAlnum_of_isDigit hall.1

theorem fEvalPtokPat_eq_none {c : TCH} {t : List TCH} (hc : isAlnum c = false) :
    fEvalPtokPat (c :: t) = none := by
  have hzero : ¬ (some c = some (tch '0')) := by
    rintro h
    obtain rfl := Option.some.inj h
    revert hc
    decide
  have hends : Ends (c :: t) = true := by simp [Ends, hc]
  simp [fEvalPtokPat, radixPtok, hzero, atRadixPtok, atRadixLoop_ends hends]

theorem atRadixLoop_suffix (radix value : AT) (t : List TCH) :
    (atRadixLoop radix value t).2 <:+ t := by
  induction t generalizing value with
  | nil => exact List.suffix_refl _
  | cons c t ih =>
    unfold atRadixLoop
    split
    · exact List.suffix_refl _
    · split
      · exact List.suffix_refl _
      · exact (ih _).trans (List.suffix_cons _ _)

theorem radixPtok_suffix (t : List TCH) : (radixPtok t).2 <:+ t := by
  unfold radixPtok
  split
  · split
    · exact List.drop_suffix _ _
    · exact List.suffix_refl _
  · exact List.suffix_refl _

theorem fEvalPtokPat_suffix {t rest : List TCH} {a : AT} (h : fEvalPtokPat t = some (a, rest)) :
    rest <:+ t ∧ rest.length < t.length := by
  unfold fEvalPtokPat at h
  split at h
  · cases h
  · dsimp only at h
    split at h
    · cases h
    · next hne =>
      have hloop := atRadixLoop_suffix (radixPtok t).1 0 (radixPtok t).2
      rw [show atRadixLoop _ _ _ = (a, rest) from Option.some.inj h] at hloop
      rw [Option.some.inj h] at hne
      have hlen : rest.length ≠ (radixPtok t).2.length := hne
      have hle : rest.length ≤ (radixPtok t).2.length := hloop.length_le
      have hstart := (radixPtok_suffix t).length_le
      exact ⟨hloop.trans (radixPtok_suffix t), by omega⟩

/-! ### One lexeme -/

theorem nextLexeme_white {w : List TCH} (hw : White w) (t : List TCH) :
    nextLexeme (w ++ t) = nextLexeme t := by
  simp only [nextLexeme, skipWhitePtok_append hw]

theorem nextLexeme_nil : nextLexeme [] = none := by decide

theorem nextLexeme_op {o : Eop} {t : List TCH} (ho : o ∈ rgeopi) (hlong : Longest o t) :
    nextLexeme (o.text ++ t) = some (.op o, t) := by
  have hskip : skipWhitePtok (o.text ++ t) = o.text ++ t := by
    cases htext : o.text with
    | nil => exact absurd htext (text_ne_nil ho)
    | cons c s => exact skipWhitePtok_cons (text_head ho (c := c) (by rw [htext]; rfl)).1 _
  simp [nextLexeme, hskip, findEopi_text ho hlong]

theorem nextLexeme_num {s t : List TCH} {a : AT} (h : literalValue s = some a)
    (ht : Ends t = true) : nextLexeme (s ++ t) = some (.num a true, t) := by
  have htake : (s ++ t).take ((s ++ t).length - t.length) = s := by simp
  have heval := fEvalPtokPat_literal h ht
  obtain ⟨c, s', rfl, hc⟩ := literal_head h
  have hskip := skipWhitePtok_cons (not_white_of_isAlnum hc) (s' ++ t)
  have hfind : findEopi (c :: (s' ++ t)) = none := findEopi_eq_none (Or.inl hc)
  simp only [List.cons_append] at heval htake ⊢
  simp only [nextLexeme, hskip, hfind, heval, htake, h, ht]
  rfl

theorem nextLexeme_lpar (t : List TCH) : nextLexeme (tch '(' :: t) = some (.lpar, t) := by
  have hskip := skipWhitePtok_cons (c := tch '(') (by decide) t
  simp [nextLexeme, hskip, findEopi_eq_none, fEvalPtokPat_eq_none (c := tch '(') (by decide)]

theorem nextLexeme_rpar (t : List TCH) : nextLexeme (tch ')' :: t) = some (.rpar, t) := by
  have hskip := skipWhitePtok_cons (c := tch ')') (by decide) t
  have hne : tch ')' ≠ tch '(' := by decide
  simp [nextLexeme, hskip, findEopi_eq_none, fEvalPtokPat_eq_none (c := tch ')') (by decide), hne]

/-- What a lexeme tells about the text it was read from. -/
inductive Reads (tok : List TCH) : Option (Lexeme × List TCH) → Prop
  | op {o : Eop} {rest : List TCH} : findEopi tok = some o → tok = o.text ++ rest → o ∈ rgeopi →
      Longest o rest → Reads tok (some (.op o, rest))
  | num {a : AT} {s rest : List TCH} {valid : Bool} : findEopi tok = none →
      fEvalPtokPat tok = some (a, rest) → tok = s ++ rest → s ≠ [] →
      (valid = true → literalValue s = some a ∧ Ends rest = true) →
      Reads tok (some (.num a valid, rest))
  | lpar {rest : List TCH} : findEopi tok = none → fEvalPtokPat tok = none →
      tok = tch '(' :: rest → Reads tok (some (.lpar, rest))
  | rpar {rest : List TCH} : findEopi tok = none → fEvalPtokPat tok = none →
      tok = tch ')' :: rest → Reads tok (some (.rpar, rest))
  | junk {c : TCH} {rest : List TCH} : findEopi tok = none → fEvalPtokPat tok = none →
      tok = c :: rest → c ≠ tch '(' → c ≠ tch ')' → Reads tok (some (.junk, rest))
  | done : tok = [] → Reads tok none

theorem reads_nextLexeme (t : List TCH) : Reads (skipWhitePtok t) (nextLexeme t) := by
  unfold nextLexeme
  generalize skipWhitePtok t = tok
  dsimp only
  cases hop : findEopi tok with
  | some o =>
    obtain ⟨ho, htok, hlong⟩ := findEopi_eq_some hop
    exact .op hop htok ho hlong
  | none =>
    cases hnum : fEvalPtokPat tok with
    | some r =>
      obtain ⟨a, rest⟩ := r
      obtain ⟨⟨s, hs⟩, hlen⟩ := fEvalPtokPat_suffix hnum
      have htake : tok.take (tok.length - rest.length) = s := by simp [← hs]
      refine .num (s := s) hop hnum hs.symm ?_ fun hvalid => ?_
      · rintro rfl
        simp [← hs] at hlen
      · simp only [htake, Bool.and_eq_true] at hvalid
        obtain ⟨b, hb⟩ := Option.isSome_iff_exists.mp hvalid.1
        have heval := fEvalPtokPat_literal hb hvalid.2
        rw [hs, hnum] at heval
        obtain ⟨rfl, _⟩ := Prod.mk.inj (Option.some.inj heval)
        exact ⟨hb, hvalid.2⟩
    | none =>
      cases htok : tok with
      | nil => exact .done rfl
      | cons c rest =>
        subst htok
        by_cases hl : c = tch '('
        · subst hl
          simpa using Reads.lpar hop hnum rfl
        · by_cases hr : c = tch ')'
          · subst hr
            simpa [hl] using Reads.rpar hop hnum rfl
          · simpa [hl, hr] using Reads.junk hop hnum rfl hl hr

theorem nextLexeme_length {t rest : List TCH} {l : Lexeme} (h : nextLexeme t = some (l, rest)) :
    rest.length < t.length := by
  have hle := length_skipWhitePtok_le t
  have hreads := reads_nextLexeme t
  rw [h] at hreads
  cases hreads with
  | op _ htok ho _ =>
    have := List.length_pos_iff.mpr (text_ne_nil ho)
    rw [htok, List.length_append] at hle
    omega
  | num _ _ htok hs _ =>
    have := List.length_pos_iff.mpr hs
    rw [htok, List.length_append] at hle
    omega
  | lpar _ _ htok => rw [htok, List.length_cons] at hle; omega
  | rpar _ _ htok => rw [htok, List.length_cons] at hle; omega
  | junk _ _ htok _ _ => rw [htok, List.length_cons] at hle; omega

/-! ### All lexemes -/

theorem lexemesLoop_eq {fuel fuel' : Nat} {t : List TCH} (h : t.length < fuel)
    (h' : t.length < fuel') : lexemesLoop fuel t = lexemesLoop fuel' t := by
  induction fuel generalizing t fuel' with
  | zero => omega
  | succ fuel ih =>
    cases fuel' with
    | zero => omega
    | succ fuel' =>
      simp only [lexemesLoop]
      cases hn : nextLexeme t with
      | none => rfl
      | some r =>
        obtain ⟨l, rest⟩ := r
        have hlen := nextLexeme_length hn
        exact congrArg (l :: ·) (ih (by omega) (by omega))

theorem lexemes_none {t : List TCH} (h : nextLexeme t = none) : lexemes t = [] := by
  simp only [lexemes, lexemesLoop, h]

theorem lexemes_some {t rest : List TCH} {l : Lexeme} (h : nextLexeme t = some (l, rest)) :
    lexemes t = l :: lexemes rest := by
  have hlen := nextLexeme_length h
  rw [lexemes, lexemesLoop, h]
  exact congrArg (l :: ·) (lexemesLoop_eq hlen (Nat.lt_succ_self _))

def Lexeme.good : Lexeme → Bool
  | .num _ valid => valid
  | .junk => false
  | _ => true

theorem spells_of_good {t : List TCH} (h : ∀ l ∈ lexemes t, l.good = true) :
    Spells t (lexemes t) := by
  induction hn : t.length using Nat.strongRecOn generalizing t with
  | ind n ih =>
    obtain ⟨w, hw, ht, _⟩ := skipWhitePtok_spec t
    have hreads := reads_nextLexeme t
    cases hl : nextLexeme t with
    | none =>
      rw [hl] at hreads
      cases hreads with
      | done htok =>
        rw [lexemes_none hl, ht, htok, List.append_nil]
        exact .nil hw
    | some r =>
      obtain ⟨l, rest⟩ := r
      have hlen := nextLexeme_length hl
      rw [lexemes_some hl] at h ⊢
      have htail := ih _ (by omega) (fun l hl => h l (List.mem_cons_of_mem _ hl)) rfl
      have hgood := h l List.mem_cons_self
      rw [hl] at hreads
      rw [ht]
      cases hreads with
      | op _ htok ho hlong => exact htok ▸ .op hw ho hlong htail
      | num _ _ htok _ hvalid =>
        obtain ⟨hs, hends⟩ := hvalid hgood
        obtain rfl : _ = true := hgood
        exact htok ▸ .num hw hs hends htail
      | lpar _ _ htok => exact htok ▸ .lpar hw htail
      | rpar _ _ htok => exact htok ▸ .rpar hw htail
      | junk _ _ _ _ _ => cases hgood

end SdkTools.M4
