import SdkTools.M4.Lexing

/-!
# One step of the parser

How `fPrimary` and the loop of `fSecondary` treat the next lexeme, and what
`Reduce` leaves of a pending stack.
-/

namespace SdkTools.M4

set_option autoImplicit false

variable {undef : Undefined} {term : Terminator} {n : Nat} {t rest : List TCH} {K : List Cell}

attribute [local simp] fPrimary fSecondaryLoop afterPrimary reduceLoop

/-! ### Primaries -/

theorem eatHeadPtokCtch_append (s t : List TCH) : eatHeadPtokCtch (s ++ t) s.length = .ok t := by
  simp [eatHeadPtokCtch]

theorem eatHeadPtokCtch_cons (c : TCH) (t : List TCH) : eatHeadPtokCtch (c :: t) 1 = .ok t := by
  simp [eatHeadPtokCtch]

theorem fPrimary_op {o : Eop} (h : nextLexeme t = some (.op o, rest)) :
    fPrimary undef term (n + 1) ⟨t, K⟩ = .ok (true, ⟨rest, .eopi o :: K⟩) := by
  have hreads := reads_nextLexeme t
  rw [h] at hreads
  cases hreads with
  | op hfind htok _ _ =>
    rw [htok] at hfind
    simp only [fPrimary, htok, hfind, eatHeadPtokCtch_append]
    rfl

theorem fPrimary_num {a : AT} {valid : Bool} (h : nextLexeme t = some (.num a valid, rest)) :
    fPrimary undef term (n + 1) ⟨t, K⟩ = .ok (true, ⟨rest, .int a :: K⟩) := by
  have hreads := reads_nextLexeme t
  rw [h] at hreads
  cases hreads with
  | num hfind heval _ _ _ => simp only [fPrimary, hfind, heval]

theorem fPrimary_lpar (h : nextLexeme t = some (.lpar, rest)) :
    fPrimary undef term (n + 1) ⟨t, K⟩ =
      (fSecondary undef term n ⟨rest, K⟩ >>= closeParen term) := by
  have hreads := reads_nextLexeme t
  rw [h] at hreads
  cases hreads with
  | lpar hfind heval htok =>
    rw [htok] at hfind heval
    simp only [fPrimary, htok, hfind, heval, ptch0, List.headD_cons, if_true,
      eatHeadPtokCtch_cons]
    rfl

/-- No primary starts at `t`. -/
def Stops (t : List TCH) : Prop :=
  nextLexeme t = none ∨ ∃ l rest, nextLexeme t = some (l, rest) ∧ (l = .rpar ∨ l = .junk)

theorem fPrimary_stops (h : Stops t) :
    fPrimary undef term (n + 1) ⟨t, K⟩ = .ok (false, ⟨skipWhitePtok t, K⟩) := by
  have hreads := reads_nextLexeme t
  have hterm : term.tch ≠ tch '(' := by cases term <;> decide
  rcases h with h | ⟨l, rest, h, rfl | rfl⟩
  · rw [h] at hreads
    cases hreads with
    | done htok => simp [htok, findEopi_nil, fEvalPtokPat, ptch0, hterm]
  · rw [h] at hreads
    cases hreads with
    | rpar hfind heval htok =>
      have hne : tch ')' ≠ tch '(' := by decide
      rw [htok] at hfind heval
      simp only [fPrimary, htok, hfind, heval, ptch0, List.headD_cons, if_neg hne]
  · rw [h] at hreads
    cases hreads with
    | junk hfind heval htok hne _ =>
      rw [htok] at hfind heval
      simp only [fPrimary, htok, hfind, heval, ptch0, List.headD_cons, if_neg hne]

/-! ### The loop -/

/-- How the loop goes on once the next primary is known. -/
theorem fSecondaryLoop_of_primary {r : Bool × EvalState}
    (h : fPrimary undef term n ⟨t, K⟩ = .ok r) :
    fSecondaryLoop undef term (n + 1) ⟨t, K⟩ =
      (afterPrimary undef r >>= fun
        | .again e => fSecondaryLoop undef term n e
        | .done found e => return (found, e)) := by
  simp only [fSecondaryLoop, h]
  rfl

section OperandExpected

variable {q : Eop} {K' : List Cell}

theorem loop_unary {o : Eop} (h : nextLexeme t = some (.op o, rest))
    (ho : o.isAmb = true ∨ o.isUn = true) :
    fSecondaryLoop undef term (n + 2) ⟨t, .eopi q :: K'⟩ =
      fSecondaryLoop undef term (n + 1) ⟨rest, .eopi o.unFromAmb :: .eopi q :: K'⟩ := by
  rw [fSecondaryLoop_of_primary (fPrimary_op h)]
  cases hamb : o.isAmb with
  | true => simp only [afterPrimary, hamb, if_true]; rfl
  | false =>
    have hun : o.isUn = true := by simpa [hamb] using ho
    have hsame : o.unFromAmb = o := by revert hamb; cases o <;> simp [Eop.isAmb, Eop.unFromAmb]
    simp only [afterPrimary, hamb, hun, hsame, if_true, Bool.false_eq_true, if_false]
    rfl

theorem loop_binary_unexpected {o : Eop} (h : nextLexeme t = some (.op o, rest))
    (hamb : o.isAmb = false) (hun : o.isUn = false) :
    fSecondaryLoop undef term (n + 2) ⟨t, .eopi q :: K'⟩ =
      .ok (false, ⟨rest, .eopi o :: .eopi q :: K'⟩) := by
  rw [fSecondaryLoop_of_primary (fPrimary_op h)]
  simp only [afterPrimary, hamb, hun, Bool.false_eq_true, if_false]
  rfl

theorem loop_operand {a : AT} (h : fPrimary undef term n ⟨t, .eopi q :: K'⟩ =
      .ok (true, ⟨rest, .int a :: .eopi q :: K'⟩)) :
    fSecondaryLoop undef term (n + 1) ⟨t, .eopi q :: K'⟩ =
      fSecondaryLoop undef term n ⟨rest, .int a :: .eopi q :: K'⟩ := by
  rw [fSecondaryLoop_of_primary h]
  rfl

theorem loop_operand_missing (h : Stops t) :
    fSecondaryLoop undef term (n + 2) ⟨t, .eopi q :: K'⟩ =
      .ok (false, ⟨skipWhitePtok t, .eopi q :: K'⟩) := by
  rw [fSecondaryLoop_of_primary (fPrimary_stops h)]
  rfl

end OperandExpected

section OperatorExpected

variable {a : AT}

theorem loop_binary {o : Eop} {s : List Cell} (h : nextLexeme t = some (.op o, rest))
    (hbin : o.isBin = true) (hred : reduce undef (.eopi o :: .int a :: K) = .ok s) :
    fSecondaryLoop undef term (n + 2) ⟨t, .int a :: K⟩ =
      fSecondaryLoop undef term (n + 1) ⟨rest, s⟩ := by
  rw [fSecondaryLoop_of_primary (fPrimary_op h)]
  simp only [afterPrimary, hbin, hred, if_true]
  rfl

theorem loop_end (h : Stops t) :
    fSecondaryLoop undef term (n + 2) ⟨t, .int a :: K⟩ =
      flushEstack undef ⟨skipWhitePtok t, .int a :: K⟩ := by
  rw [fSecondaryLoop_of_primary (fPrimary_stops h)]
  simp only [afterPrimary]
  cases flushEstack undef ⟨skipWhitePtok t, .int a :: K⟩ <;> rfl

end OperatorExpected

/-! ### Pending stacks -/

/-- The cells of an unfinished expression above `K₀`: every operator waits for
its last operand, and a binary one lies above its first. -/
inductive Pending (K₀ : List Cell) : List Cell → Prop
  | boe : Pending K₀ (.eopi .boe :: K₀)
  | unary {o : Eop} {K : List Cell} : o.isUn = true → Pending K₀ K → Pending K₀ (.eopi o :: K)
  | binary {o : Eop} {a : AT} {K : List Cell} : o.isBin = true → Pending K₀ K →
      Pending K₀ (.eopi o :: .int a :: K)

theorem Pending.top {K₀ K : List Cell} (h : Pending K₀ K) : ∃ q K', K = .eopi q :: K' := by
  cases h
  all_goals exact ⟨_, _, rfl⟩

theorem isUn_of_isBin {o : Eop} (h : o.isBin = true) : o.isUn = false := by
  revert h
  cases o <;> simp [Eop.isBin, Eop.isUn]

theorem one_lt_prec {o : Eop} (h : o.isUn = true ∨ o.isBin = true) : 1 < o.prec := by
  revert h
  cases o <;> simp [Eop.isBin, Eop.isUn, Eop.prec]

theorem reduceLoop_stop {prec : Nat} {o : Eop} (h : o.prec ≤ prec) (a : AT) (K : List Cell) :
    reduceLoop undef prec a (.eopi o :: K) = .ok (.int a :: .eopi o :: K) := by
  rw [reduceLoop.eq_def]
  simp only [if_neg (Nat.not_lt.mpr h)]

theorem reduceLoop_unary {prec : Nat} {o : Eop} (h : prec < o.prec) (ho : o.isUn = true) (a : AT)
    (K : List Cell) :
    reduceLoop undef prec a (.eopi o :: K) = reduceLoop undef prec (eop1 o a) K := by
  rw [reduceLoop.eq_def]
  simp only [gt_iff_lt, if_pos h, ho, if_true]

theorem reduceLoop_binary {prec : Nat} {o : Eop} (h : prec < o.prec) (ho : o.isBin = true)
    (a b : AT) (K : List Cell) :
    reduceLoop undef prec a (.eopi o :: .int b :: K) =
      reduceLoop undef prec (eop2 undef o b a) K := by
  rw [reduceLoop.eq_def]
  simp only [gt_iff_lt, if_pos h, isUn_of_isBin ho, ho, if_true, Bool.false_eq_true, if_false]

/-- Reducing a pending stack meets only the cells it expects. -/
theorem Pending.reduceLoop {K₀ K : List Cell} (h : Pending K₀ K) (undef : Undefined)
    (prec : Nat) (a : AT) :
    ∃ b K', reduceLoop undef prec a K = .ok (.int b :: K') ∧ Pending K₀ K' ∧
      (prec = 1 → K' = .eopi .boe :: K₀) := by
  induction h generalizing a with
  | boe => exact ⟨a, _, reduceLoop_stop (Nat.zero_le _) a K₀, .boe, fun _ => rfl⟩
  | @unary o K ho hK ih =>
    by_cases hprec : prec < o.prec
    · rw [reduceLoop_unary hprec ho]
      exact ih (eop1 o a)
    · refine ⟨a, _, reduceLoop_stop (by omega) a K, .unary ho hK, fun h => ?_⟩
      have := one_lt_prec (Or.inl ho)
      omega
  | @binary o b K ho hK ih =>
    by_cases hprec : prec < o.prec
    · rw [reduceLoop_binary hprec ho]
      exact ih (eop2 undef o b a)
    · refine ⟨a, _, reduceLoop_stop (by omega) a _, .binary ho hK, fun h => ?_⟩
      have := one_lt_prec (Or.inr ho)
      omega

theorem Pending.reduce {K₀ K : List Cell} (h : Pending K₀ K) (undef : Undefined) (o : Eop)
    (a : AT) :
    ∃ b K', M4.reduce undef (.eopi o :: .int a :: K) = .ok (.eopi o :: .int b :: K') ∧
      Pending K₀ K' := by
  obtain ⟨b, K', hred, hpend, _⟩ := h.reduceLoop undef o.prec a
  exact ⟨b, K', by simp only [M4.reduce, hred]; rfl, hpend⟩

theorem flushEstack_eq {K₀ : List Cell} {a b : AT}
    (h : reduceLoop undef 1 a K = .ok (.int b :: .eopi .boe :: K₀)) :
    flushEstack undef ⟨t, .int a :: K⟩ = .ok (true, ⟨t, .int b :: K₀⟩) := by
  simp only [flushEstack, M4.reduce, Eop.prec, h]
  rfl

theorem Pending.flush {K₀ K : List Cell} (h : Pending K₀ K) (undef : Undefined)
    (t : List TCH) (a : AT) :
    ∃ b, flushEstack undef ⟨t, .int a :: K⟩ = .ok (true, ⟨t, .int b :: K₀⟩) := by
  obtain ⟨b, K', hred, _, hbase⟩ := h.reduceLoop undef 1 a
  exact ⟨b, flushEstack_eq (hbase rfl ▸ hred)⟩

end SdkTools.M4
