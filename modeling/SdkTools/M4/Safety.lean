import SdkTools.M4.Scan
import SdkTools.M4.Value

/-!
# What `eval` does on an arbitrary argument

Every call of `fSecondary` ends in one of six ways (`Frame`), each tied to what the
scan says about the text. From this follows exactly when `eval` is safe: it reports
an error, or the argument is a well-formed expression and the stack is as before.
-/

namespace SdkTools.M4

set_option autoImplicit false

variable {undef : Undefined} {term : Terminator}

/-- How the rest `t` of an expression above the cells `K₀` is parsed. -/
inductive Frame (term : Terminator) (K₀ : List Cell) (t : List TCH) (complete : Bool) :
    Except Fault (Bool × EvalState) → Prop
  /-- an operator is left on top -/
  | failed {rest : List TCH} {o : Eop} {K : List Cell} :
      (∀ outer, scan outer complete (lexemes t) = .error) →
      Frame term K₀ t complete (.ok (false, ⟨rest, .eopi o :: K⟩))
  /-- two integers are left on top -/
  | juxtaposed {rest : List TCH} {a b : AT} {K : List Cell} :
      (∀ outer, scan outer complete (lexemes t) = integerUnexpected outer) →
      Frame term K₀ t complete (.ok (false, ⟨rest, .int b :: .int a :: K⟩))
  /-- a value, in front of a closing parenthesis -/
  | closed {rest : List TCH} {a : AT} : rest.length < t.length →
      (∀ extra outer, scan (extra :: outer) complete (lexemes t) =
        if extra then integerUnexpected outer else scan outer true (lexemes rest)) →
      scan [] complete (lexemes t) = .misjudged →
      Frame term K₀ t complete (.ok (true, ⟨tch ')' :: rest, .int a :: K₀⟩))
  /-- a value, at the end of the text -/
  | ended {a : AT} :
      (∀ outer, scan outer complete (lexemes t) =
        if outer.isEmpty then .accept else .misjudged) →
      Frame term K₀ t complete (.ok (true, ⟨[], .int a :: K₀⟩))
  /-- a value, in front of something that cannot go on -/
  | stuck {rest : List TCH} {a : AT} : ptch0 term rest ≠ tch ')' →
      (∀ outer, scan outer complete (lexemes t) = .misjudged) →
      Frame term K₀ t complete (.ok (true, ⟨rest, .int a :: K₀⟩))
  | crashed {f : Fault} : f ≠ .fuel → (∀ outer, scan outer complete (lexemes t) = .misjudged) →
      Frame term K₀ t complete (.error f)

/-- A frame for a shorter text is one for the whole when the scan gets there. -/
theorem Frame.of_rest {K₀ : List Cell} {t t' : List TCH} {complete complete' : Bool}
    {r : Except Fault (Bool × EvalState)} (h : Frame term K₀ t' complete' r)
    (hlen : t'.length < t.length)
    (hscan : ∀ outer, scan outer complete (lexemes t) = scan outer complete' (lexemes t')) :
    Frame term K₀ t complete r := by
  cases h with
  | failed h => exact .failed fun outer => (hscan outer).trans (h outer)
  | juxtaposed h => exact .juxtaposed fun outer => (hscan outer).trans (h outer)
  | closed hrest h h₀ =>
    exact .closed (by omega) (fun extra outer => (hscan _).trans (h extra outer))
      ((hscan []).trans h₀)
  | ended h => exact .ended fun outer => (hscan outer).trans (h outer)
  | stuck hp h => exact .stuck hp fun outer => (hscan outer).trans (h outer)
  | crashed hf h => exact .crashed hf fun outer => (hscan outer).trans (h outer)

/-- How `fPrimary` treats a group that starts before `rest`, above the cells `K`. -/
inductive Group (term : Terminator) (K : List Cell) (rest : List TCH) :
    Except Fault (Bool × EvalState) → Prop
  | failed {t' : List TCH} {o : Eop} {K' : List Cell} :
      (∀ extra outer, scan (extra :: outer) false (lexemes rest) = .error) →
      Group term K rest (.ok (false, ⟨t', .eopi o :: K'⟩))
  | juxtaposed {t' : List TCH} {a b : AT} {K' : List Cell} :
      (∀ extra outer, scan (extra :: outer) false (lexemes rest) = .misjudged) →
      Group term K rest (.ok (false, ⟨t', .int b :: .int a :: K'⟩))
  | value {t' : List TCH} {a : AT} : t'.length < rest.length →
      (∀ extra outer, scan (extra :: outer) false (lexemes rest) =
        if extra then integerUnexpected outer else scan outer true (lexemes t')) →
      Group term K rest (.ok (true, ⟨t', .int a :: K⟩))
  | unclosed {t' : List TCH} {a : AT} : ptch0 term t' ≠ tch ')' →
      (∀ extra outer, scan (extra :: outer) false (lexemes rest) = .misjudged) →
      Group term K rest (.ok (false, ⟨t', .int a :: K⟩))
  | crashed {f : Fault} : f ≠ .fuel →
      (∀ extra outer, scan (extra :: outer) false (lexemes rest) = .misjudged) →
      Group term K rest (.error f)

theorem Frame.closeParen {K : List Cell} {rest : List TCH} {r : Except Fault (Bool × EvalState)}
    (h : Frame term K rest false r) : Group term K rest (r >>= closeParen term) := by
  cases h with
  | failed h => exact .failed fun _ _ => h _
  | juxtaposed h => exact .juxtaposed fun _ _ => h _
  | closed hlen h _ => exact .value hlen h
  | @ended a h =>
    cases term with
    | comma => exact .unclosed (by decide) fun _ _ => h _
    | rpar => exact .crashed (f := .overrun) (by decide) fun _ _ => h _
  | @stuck t' a hp h =>
    have hclose : M4.closeParen term (true, ⟨t', .int a :: K⟩) = .ok (false, ⟨t', .int a :: K⟩) := by
      simp only [M4.closeParen, hp, and_false, if_false]
      rfl
    exact (show (Except.ok (true, _) >>= M4.closeParen term) = _ from hclose) ▸
      .unclosed hp fun _ _ => h _
  | crashed hf h => exact .crashed hf fun _ _ => h _

theorem fSecondaryLoop_of_error {n : Nat} {t : List TCH} {K : List Cell} {f : Fault}
    (h : fPrimary undef term n ⟨t, K⟩ = .error f) :
    fSecondaryLoop undef term (n + 1) ⟨t, K⟩ = .error f := by
  simp only [fSecondaryLoop, h]
  rfl

/-- Two integers on top cannot be reduced. -/
theorem flushEstack_juxtaposed (t : List TCH) (a b : AT) (K : List Cell) :
    flushEstack undef ⟨t, .int b :: .int a :: K⟩ = .error .badCell := rfl

theorem lexemes_stops (term : Terminator) {t : List TCH} (h : Stops t) :
    lexemes t = [] ∧ skipWhitePtok t = [] ∨
      (∃ rest, lexemes t = .rpar :: lexemes rest ∧ skipWhitePtok t = tch ')' :: rest ∧
        rest.length < t.length) ∨
      (∃ ls, lexemes t = .junk :: ls ∧ ptch0 term (skipWhitePtok t) ≠ tch ')') := by
  have hreads := reads_nextLexeme t
  rcases h with h | ⟨l, rest, h, rfl | rfl⟩
  · rw [h] at hreads
    cases hreads with
    | done htok => exact Or.inl ⟨lexemes_none h, htok⟩
  · have hlen := nextLexeme_length h
    have hls := lexemes_some h
    rw [h] at hreads
    cases hreads with
    | rpar _ _ htok => exact Or.inr (Or.inl ⟨rest, hls, htok, hlen⟩)
  · have hls := lexemes_some h
    rw [h] at hreads
    cases hreads with
    | junk _ _ htok _ hne => exact Or.inr (Or.inr ⟨_, hls, by rw [htok]; exact hne⟩)

/-- The text has a next lexeme on which a primary starts, or none. -/
theorem stops_or (t : List TCH) :
    Stops t ∨ (∃ o rest, nextLexeme t = some (.op o, rest)) ∨
      (∃ a valid rest, nextLexeme t = some (.num a valid, rest)) ∨
      (∃ rest, nextLexeme t = some (.lpar, rest)) := by
  cases h : nextLexeme t with
  | none => exact Or.inl (Or.inl h)
  | some r =>
    obtain ⟨l, rest⟩ := r
    cases l with
    | op o => exact Or.inr (Or.inl ⟨o, rest, rfl⟩)
    | num a valid => exact Or.inr (Or.inr (Or.inl ⟨a, valid, rest, rfl⟩))
    | lpar => exact Or.inr (Or.inr (Or.inr ⟨rest, rfl⟩))
    | rpar => exact Or.inl (Or.inr ⟨_, rest, h, Or.inl rfl⟩)
    | junk => exact Or.inl (Or.inr ⟨_, rest, h, Or.inr rfl⟩)

/-- What is known of all shorter texts. -/
def FramesBelow (undef : Undefined) (term : Terminator) (len : Nat) : Prop :=
  ∀ t : List TCH, t.length < len → ∀ (K₀ K : List Cell) (n : Nat), Pending K₀ K → loopFuel t ≤ n →
    Frame term K₀ t false (fSecondaryLoop undef term n ⟨t, K⟩) ∧
      ∀ a, Frame term K₀ t true (fSecondaryLoop undef term n ⟨t, .int a :: K⟩)

theorem FramesBelow.group {t rest : List TCH} (ih : FramesBelow undef term t.length)
    (hl : nextLexeme t = some (.lpar, rest)) (K : List Cell) {n : Nat}
    (hn : loopFuel t ≤ n + 3) : Group term K rest (fPrimary undef term (n + 2) ⟨t, K⟩) := by
  have hlen := nextLexeme_length hl
  unfold loopFuel at hn
  have hframe := (ih rest hlen K (.eopi .boe :: K) n .boe (by unfold loopFuel; omega)).1
  rw [fPrimary_lpar hl, fSecondary]
  exact hframe.closeParen

/-- The next lexeme where an operand is expected. -/
theorem FramesBelow.operand {t : List TCH} (ih : FramesBelow undef term t.length)
    {K₀ K : List Cell} {n : Nat} (hK : Pending K₀ K) (hn : loopFuel t ≤ n) :
    Frame term K₀ t false (fSecondaryLoop undef term n ⟨t, K⟩) := by
  unfold loopFuel at hn
  obtain ⟨q, K', rfl⟩ := hK.top
  obtain ⟨m, rfl⟩ : ∃ m, n = m + 2 := ⟨n - 2, by omega⟩
  rcases stops_or t with h | ⟨o, rest, h⟩ | ⟨a, valid, rest, h⟩ | ⟨rest, h⟩
  · rw [loop_operand_missing h]
    refine .failed fun outer => ?_
    rcases lexemes_stops term h with h | ⟨rest, h, _⟩ | ⟨ls, h, _⟩
    · rw [h.1]; rfl
    · rw [h]; rfl
    · rw [h]; rfl
  · have hlen := nextLexeme_length h
    have hls := lexemes_some h
    by_cases ho : (o.isAmb || o.isUn) = true
    · have hun : o.unFromAmb.isUn = true := by
        revert ho
        cases o <;> decide
      rw [loop_unary h (by simpa using ho)]
      refine (ih rest hlen K₀ _ (m + 1) (.unary hun hK) (by unfold loopFuel; omega)).1.of_rest hlen
        fun outer => ?_
      rw [hls, scan, if_pos ho]
    · simp only [Bool.or_eq_true, not_or, Bool.not_eq_true] at ho
      rw [loop_binary_unexpected h ho.1 ho.2]
      refine .failed fun outer => ?_
      simp only [hls, scan, ho, Bool.or_self, Bool.false_eq_true, if_false]
  · have hlen := nextLexeme_length h
    rw [loop_operand (fPrimary_num h)]
    refine ((ih rest hlen K₀ _ (m + 1) hK (by unfold loopFuel; omega)).2 a).of_rest hlen
      fun outer => ?_
    rw [lexemes_some h, scan]
  · have hlen := nextLexeme_length h
    have hls : ∀ outer, scan outer false (lexemes t) = scan (false :: outer) false (lexemes rest) :=
      fun outer => by rw [lexemes_some h, scan]
    obtain ⟨k, rfl⟩ : ∃ k, m = k + 1 := ⟨m - 1, by omega⟩
    have hgroup := ih.group h (.eopi q :: K') (n := k) (by unfold loopFuel; omega)
    cases hr : fPrimary undef term (k + 2) ⟨t, .eopi q :: K'⟩ with
    | error f =>
      rw [fSecondaryLoop_of_error hr]
      rw [hr] at hgroup
      cases hgroup with
      | crashed hf hscan => exact .crashed hf fun outer => (hls outer).trans (hscan _ _)
    | ok r =>
      rw [hr] at hgroup
      cases hgroup with
      | failed hscan =>
        rw [fSecondaryLoop_of_primary hr]
        exact .failed fun outer => (hls outer).trans (hscan _ _)
      | juxtaposed hscan =>
        rw [fSecondaryLoop_of_primary hr]
        exact .crashed (f := .badCell) (by decide) fun outer => (hls outer).trans (hscan _ _)
      | @value t' a hlen' hscan =>
        rw [loop_operand hr]
        exact ((ih t' (by omega) K₀ _ (k + 2) hK (by unfold loopFuel; omega)).2 a).of_rest
          (by omega) fun outer => (hls outer).trans (hscan _ _)
      | @unclosed t' a hp hscan =>
        obtain ⟨b, hflush⟩ := hK.flush undef t' a
        rw [fSecondaryLoop_of_primary hr, afterPrimary, hflush]
        exact .stuck hp fun outer => (hls outer).trans (hscan _ _)

end SdkTools.M4
