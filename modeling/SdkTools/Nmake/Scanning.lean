import SdkTools.Nmake.Selection

/-!
# Scanning without losing a line

Comments, continued lines and skipped lines are passed over without passing a
`!` in column zero.
-/

namespace SdkTools.Nmake

set_option autoImplicit false

/-- The text after the next `!` in column zero. -/
def toBang : Bool → Text → Option Text
  | _, [] => none
  | colZero, c :: text => if colZero && c == '!' then some text else toBang (c == '\n') text

theorem toBang_char {c : Char} (h : c ≠ '!') (colZero : Bool) (text : Text) :
    toBang colZero (c :: text) = toBang (c == '\n') text := by
  simp [toBang, h]

theorem toBang_inLine (c : Char) (text : Text) :
    toBang false (c :: text) = toBang (c == '\n') text := rfl

theorem toBang_bang (text : Text) : toBang true ('!' :: text) = some text := rfl

theorem toBang_length {colZero : Bool} {text rest : Text} (h : toBang colZero text = some rest) :
    rest.length < text.length := by
  induction text generalizing colZero with
  | nil => cases h
  | cons c text ih =>
    unfold toBang at h
    split at h
    · obtain rfl := Option.some.inj h
      exact Nat.lt_succ_self _
    · exact Nat.lt_succ_of_lt (ih h)

theorem skipComments_length (text : Text) : (skipComments text).length ≤ text.length := by
  fun_induction skipComments text with
  | case1 => exact Nat.le_refl _
  | case2 text ih => exact Nat.le_succ_of_le (Nat.le_succ_of_le ih)
  | case3 text h => exact Nat.le_succ _
  | case4 c text _ _ ih => exact Nat.le_succ_of_le ih

theorem toBang_skipComments (text : Text) :
    toBang true (skipComments text) = toBang false text := by
  fun_induction skipComments text with
  | case1 => rfl
  | case2 text ih => rw [ih]; rfl
  | case3 text h => rfl
  | case4 c text h₁ h₂ ih =>
    have hc : (c == '\n') = false := by
      apply beq_false_of_ne
      intro hc
      exact h₂ hc
    rw [ih, toBang_inLine, hc]

theorem afterContinuation_length (text : Text) :
    (afterContinuation text).length ≤ text.length := by
  unfold afterContinuation
  split
  · exact Nat.le_succ_of_le (skipComments_length _)
  · exact Nat.le_refl _

theorem toBang_afterContinuation (text : Text) :
    toBang true (afterContinuation text) = toBang true text := by
  unfold afterContinuation
  split
  · exact toBang_skipComments _
  · rfl

theorem nextLine_length (text : Text) : (nextLine text).length ≤ text.length := by
  fun_induction nextLine text with
  | case1 => exact Nat.le_refl _
  | case2 text => exact Nat.le_succ _
  | case3 c text _ ih => exact Nat.le_succ_of_le ih

theorem toBang_nextLine {text : Text} (h : '\n' ∈ text) :
    toBang true (nextLine text) = toBang false text := by
  fun_induction nextLine text with
  | case1 => cases h
  | case2 text => rfl
  | case3 c text hc ih =>
    have hne : c ≠ '\n' := fun heq => hc heq
    have hmem : '\n' ∈ text := by
      rcases List.mem_cons.mp h with heq | hmem
      · exact absurd heq.symm hne
      · exact hmem
    rw [ih hmem, toBang_inLine, beq_false_of_ne hne]

theorem toBang_lastLine {text : Text} (h : '\n' ∉ text) : toBang false text = none := by
  induction text with
  | nil => rfl
  | cons c text ih =>
    have hne : c ≠ '\n' := fun heq => h (heq ▸ List.mem_cons_self)
    rw [toBang_inLine, beq_false_of_ne hne]
    exact ih fun hmem => h (List.mem_cons_of_mem c hmem)

/-- A character that stands for a backslash: the backslash itself, or the first
character of a line after it. -/
inductive Joined (text : Text) : Option Char → Text → Bool → Prop where
  | backslash {rest : Text} {colZero : Bool} (hlen : rest.length ≤ text.length)
      (h : toBang false text = toBang false rest) : Joined text (some '\\') rest colZero
  | char {c : Char} {rest : Text} (hlen : rest.length < text.length)
      (h : toBang false text = toBang true (c :: rest)) : Joined text (some c) rest true
  | eof {colZero : Bool} (h : toBang false text = none) : Joined text none [] colZero

theorem Joined.of_rest {text rest rest' : Text} {c : Option Char} {colZero : Bool}
    (h : Joined rest c rest' colZero) (hlen : rest.length ≤ text.length)
    (hbang : toBang false text = toBang false rest) : Joined text c rest' colZero := by
  cases h with
  | backslash hlen' h => exact .backslash (Nat.le_trans hlen' hlen) (hbang.trans h)
  | char hlen' h => exact .char (Nat.lt_of_lt_of_le hlen' hlen) (hbang.trans h)
  | eof h => exact .eof (hbang.trans h)

theorem skipBackSlash_newline (k : Nat) (text : Text) (colZero : Bool) :
    skipBackSlash (k + 1) ('\n' :: text) colZero =
      match afterContinuation text with
      | [] => (none, [], true)
      | '\\' :: text => skipBackSlash k text true
      | c :: text => (some c, text, true) := rfl

theorem skipBackSlash_spec (k : Nat) (text : Text) (colZero : Bool) :
    Joined text (skipBackSlash k text colZero).1 (skipBackSlash k text colZero).2.1
      (skipBackSlash k text colZero).2.2 := by
  induction k generalizing text colZero with
  | zero =>
    unfold skipBackSlash
    exact .backslash (Nat.le_refl _) rfl
  | succ k ih =>
    cases text with
    | nil =>
      unfold skipBackSlash
      exact .backslash (Nat.le_refl _) rfl
    | cons c text =>
      by_cases hc : c = '\n'
      · subst hc
        have hlen := afterContinuation_length text
        have hbang : toBang false ('\n' :: text) = toBang true (afterContinuation text) :=
          (toBang_afterContinuation text).symm
        rw [skipBackSlash_newline]
        split
        · next hnil => exact .eof (by rw [hbang, hnil]; rfl)
        · next rest hrest =>
          rw [hrest, List.length_cons] at hlen
          rw [hrest, toBang_char (by decide)] at hbang
          have hskip : toBang false ('\n' :: text) = toBang false rest := hbang
          exact (ih rest true).of_rest (by simp only [List.length_cons]; omega) hskip
        · next d rest hd hrest =>
          rw [hrest, List.length_cons] at hlen
          refine .char ?_ (hbang.trans (by rw [hrest]))
          simp only [List.length_cons]
          omega
      · have hout : skipBackSlash (k + 1) (c :: text) colZero = (some '\\', c :: text, colZero) := by
          unfold skipBackSlash
          split
          · next heq => exact absurd (List.cons.inj heq).1 hc
          · rfl
        rw [hout]
        exact .backslash (Nat.le_refl _) rfl

/-! ## Skipped lines -/

/-- `toBang` with a character of the line already read. -/
def toBangFrom (c : Option Char) (text : Text) : Option Text :=
  match c with
  | none => none
  | some c => toBang (c == '\n') text

/-- How a skipped line ends, seen from where `toBang` finds the next `!`. -/
inductive LineEnd (bang : Option Text) (size : Nat) : Option Char → Text → Prop where
  | eof {rest : Text} (h : bang = none) : LineEnd bang size none rest
  | newline {rest : Text} (hlen : rest.length ≤ size) (h : bang = toBang true rest) :
      LineEnd bang size (some '\n') rest
  | bang {rest : Text} (h : bang = some rest) : LineEnd bang size (some '!') rest

theorem LineEnd.mono {bang : Option Text} {size size' : Nat} {c : Option Char} {rest : Text}
    (h : LineEnd bang size c rest) (hle : size ≤ size') : LineEnd bang size' c rest := by
  cases h with
  | eof h => exact .eof h
  | newline hlen h => exact .newline (Nat.le_trans hlen hle) h
  | bang h => exact .bang h

theorem endOrNext_spec {next : Option Char → Text → Bool → Option Char × Text × Bool}
    {c : Option Char} {text : Text} {colZero : Bool}
    (hnext : LineEnd (toBangFrom text.head? text.tail) text.tail.length
      (next text.head? text.tail colZero).1 (next text.head? text.tail colZero).2.1) :
    LineEnd (toBangFrom c text) text.length (endOrNext next c text colZero).1
      (endOrNext next c text colZero).2.1 := by
  cases c with
  | none => exact .eof rfl
  | some c =>
    unfold endOrNext
    by_cases hn : c = '\n'
    · subst hn
      exact .newline (Nat.le_refl _) rfl
    · have hbang : toBangFrom (some c) text = toBang false text := by
        show toBang (c == '\n') text = _
        rw [beq_false_of_ne hn]
      rw [hbang]
      by_cases hc : c = '#'
      · subst hc
        by_cases hmem : '\n' ∈ text
        · simp only [hmem, if_true]
          exact .newline (nextLine_length text) (toBang_nextLine hmem).symm
        · simp only [hmem, if_false]
          exact .eof (toBang_lastLine hmem)
      · simp only [hn, hc, if_false]
        have hfrom : toBang false text = toBangFrom text.head? text.tail := by
          cases text with
          | nil => rfl
          | cons c text => rfl
        rw [hfrom]
        apply hnext.mono
        rw [List.length_tail]
        exact Nat.sub_le _ _

theorem skipLine_spec (k : Nat) (c : Option Char) (text : Text) (colZero : Bool)
    (hk : text.length < k ∨ c = none) :
    LineEnd (toBangFrom c text) text.length (skipLine k c text colZero).1
      (skipLine k c text colZero).2.1 := by
  induction k generalizing c text colZero with
  | zero =>
    obtain rfl : c = none := by
      rcases hk with hk | hk
      · exact absurd hk (Nat.not_lt_zero _)
      · exact hk
    exact .eof rfl
  | succ k ih =>
    -- The rest of the line is shorter, or there is none.
    have hnext : ∀ (rest : Text) (colZero : Bool), rest.length < k + 1 →
        LineEnd (toBangFrom rest.head? rest.tail) rest.tail.length
          (skipLine k rest.head? rest.tail colZero).1
          (skipLine k rest.head? rest.tail colZero).2.1 := by
      intro rest colZero hrest
      apply ih
      cases rest with
      | nil => exact Or.inr rfl
      | cons c rest => exact Or.inl (Nat.lt_of_succ_lt_succ hrest)
    unfold skipLine
    by_cases hc : c = some '\\'
    · subst hc
      have hk' : text.length < k + 1 := by
        rcases hk with hk | hk
        · exact hk
        · cases hk
      have hfrom : toBangFrom (some '\\') text = toBang false text := rfl
      have hj := skipBackSlash_spec k text colZero
      rw [hfrom]
      simp only [if_true]
      generalize skipBackSlash k text colZero = j at hj ⊢
      obtain ⟨d, rest, colZero'⟩ := j
      cases hj with
      | backslash hlen h =>
        have hne : ¬ ((some '\\' : Option Char) = some '!' ∧ colZero' = true) := by simp
        have hrest : rest.length ≤ text.length := hlen
        rw [if_neg hne, h]
        exact (endOrNext_spec (c := some '\\') (hnext rest false (by omega))).mono hrest
      | char hlen h =>
        rename_i d
        by_cases hd : d = '!'
        · subst hd
          exact .bang h
        · have hne : ¬ (some d = some '!' ∧ (true : Bool) = true) := by simp [hd]
          have hrest : rest.length < text.length := hlen
          rw [if_neg hne, h, toBang_char hd]
          exact (endOrNext_spec (c := some d) (hnext rest false (by omega))).mono
            (Nat.le_of_lt hrest)
      | eof h =>
        have hne : ¬ ((none : Option Char) = some '!' ∧ colZero' = true) := by simp
        rw [if_neg hne]
        exact .eof h
    · simp only [hc, if_false]
      rcases hk with hk | rfl
      · exact endOrNext_spec (hnext text colZero hk)
      · exact .eof rfl

theorem skipLines_spec (k : Nat) (text : Text) (colZero : Bool) (hk : text.length < k) :
    (skipLines k text colZero).map Prod.fst = toBang true text := by
  induction k generalizing text colZero with
  | zero => omega
  | succ k ih =>
    cases text with
    | nil => rfl
    | cons c text =>
      rw [List.length_cons] at hk
      unfold skipLines
      by_cases hc : c = '!'
      · subst hc
        rfl
      · have hline := skipLine_spec (text.length + 2) (some c) text colZero (Or.inl (by omega))
        rw [if_neg hc, toBang_char hc]
        generalize skipLine (text.length + 2) (some c) text colZero = r at hline ⊢
        obtain ⟨d, rest, colZero'⟩ := r
        cases hline with
        | eof h => exact h.symm
        | newline hlen h =>
          have hrest : rest.length ≤ text.length := hlen
          exact (ih rest colZero' (by omega)).trans h.symm
        | bang h => exact h.symm

/-! ## The text of a directive -/

theorem getJoined_length (k : Nat) (text : Text) :
    (getJoined k text).2.length ≤ text.length ∧
      ((getJoined k text).1 ≠ none → (getJoined k text).2.length < text.length) := by
  cases text with
  | nil => exact ⟨Nat.le_refl _, fun h => absurd rfl h⟩
  | cons c text =>
    by_cases hc : c = '\\'
    · subst hc
      have hj := skipBackSlash_spec k text false
      have hlen : (skipBackSlash k text false).2.1.length ≤ text.length := by
        generalize skipBackSlash k text false = j at hj
        obtain ⟨d, rest, colZero'⟩ := j
        cases hj with
        | backslash hlen h => exact hlen
        | char hlen h => exact Nat.le_of_lt hlen
        | eof h => exact Nat.zero_le _
      exact ⟨Nat.le_succ_of_le hlen, fun _ => Nat.lt_succ_of_le hlen⟩
    · have hj : getJoined k (c :: text) = (some c, text) := by
        unfold getJoined
        split
        · next heq => cases heq
        · next heq => exact absurd (List.cons.inj heq).1 hc
        · next heq =>
          obtain ⟨rfl, rfl⟩ := List.cons.inj heq
          rfl
      rw [hj]
      exact ⟨Nat.le_succ _, fun _ => Nat.lt_succ_self _⟩

/-- The character returned and what follows it are no longer than the text. -/
theorem skipWhiteSpace_length (k : Nat) (text : Text) :
    (skipWhiteSpace k text).2.length ≤ text.length ∧
      ((skipWhiteSpace k text).1 ≠ none → (skipWhiteSpace k text).2.length < text.length) := by
  induction k generalizing text with
  | zero => exact ⟨Nat.le_refl _, fun h => absurd rfl h⟩
  | succ k ih =>
    cases text with
    | nil => exact ⟨Nat.le_refl _, fun h => absurd rfl h⟩
    | cons c text =>
      unfold skipWhiteSpace
      by_cases hc : c = ESCH
      · rw [if_pos hc]
        cases text with
        | nil => exact ⟨Nat.zero_le _, fun _ => Nat.succ_pos _⟩
        | cons w rest =>
          by_cases hw : isWhitespace w = true
          · have h := ih rest
            simp only [hw, if_true, List.length_cons]
            exact ⟨by omega, fun hne => by have := h.2 hne; omega⟩
          · simp only [hw, Bool.false_eq_true, if_false, List.length_cons]
            exact ⟨by omega, fun _ => by omega⟩
      · rw [if_neg hc]
        have hj := getJoined_length k (c :: text)
        generalize getJoined k (c :: text) = j at hj ⊢
        obtain ⟨d, rest⟩ := j
        cases d with
        | none => exact ⟨hj.1, fun h => absurd rfl h⟩
        | some d =>
          have hrest : rest.length < (c :: text).length := hj.2 (Option.some_ne_none d)
          have h := ih rest
          have hcomm := skipComments_length rest
          by_cases hw : isWhitespace d = true
          · simp only [hw, if_true]
            exact ⟨Nat.le_trans h.1 (Nat.le_of_lt hrest), fun hne =>
              Nat.lt_trans (h.2 hne) hrest⟩
          · by_cases hd : d = '#'
            · simp only [hd, if_true]
              exact ⟨Nat.le_trans hcomm (Nat.le_of_lt hrest), fun _ =>
                Nat.lt_of_le_of_lt hcomm hrest⟩
            · simp only [hw, hd, Bool.false_eq_true, if_false]
              exact ⟨Nat.le_of_lt hrest, fun _ => hrest⟩

theorem readBuffer_length (k : Nat) (text : Text) :
    (readBuffer k text).2.length ≤ text.length := by
  induction k generalizing text with
  | zero => exact Nat.le_refl _
  | succ k ih =>
    unfold readBuffer
    have hj := getJoined_length k text
    generalize getJoined k text = j at hj ⊢
    obtain ⟨d, rest⟩ := j
    cases d with
    | none => exact hj.1
    | some d =>
      have hnext := nextLine_length rest
      have h := ih rest
      have hrest : rest.length ≤ text.length := hj.1
      by_cases hn : d = '\n'
      · simp only [hn, if_true]
        exact hrest
      · by_cases hc : d = '#'
        · simp only [hc, if_true]
          exact Nat.le_trans hnext hrest
        · simp only [hn, hc, if_false]
          exact Nat.le_trans h hrest

theorem readInOneLine_length {env : Env} {text s rest : Text}
    (h : readInOneLine env text = .ok (s, rest)) : rest.length ≤ text.length := by
  unfold readInOneLine at h
  have hw := skipWhiteSpace_length (text.length + 1) text
  generalize skipWhiteSpace (text.length + 1) text = w at hw h
  obtain ⟨c, rest'⟩ := w
  cases c with
  | none => cases h
  | some c =>
    have hlen : rest'.length < text.length := hw.2 (Option.some_ne_none c)
    by_cases hn : c = '\n'
    · simp only [hn, if_true] at h
      cases h
    · simp only [hn, if_false] at h
      have hb := readBuffer_length (text.length + 2) (c :: rest')
      rw [List.length_cons] at hb
      cases hm : env.removeMacros (readBuffer (text.length + 2) (c :: rest')).2.length
          (readBuffer (text.length + 2) (c :: rest')).1 with
      | none =>
        rw [hm] at h
        cases h
      | some s' =>
        rw [hm] at h
        obtain ⟨-, rfl⟩ := Prod.mk.inj (Except.ok.inj h)
        omega

end SdkTools.Nmake
