import SdkTools.M4.Parser

/-!
# The value of a well-formed expression

`Reduce` stops at operators of the same precedence, so every level is read from
the right. On a well-formed text the parser returns the value of that reading. It
is the value of the documented reading when the operators of every
left-associative chain regroup.
-/

namespace SdkTools.M4

open Lib.Operators

set_option autoImplicit false

/-! ### Operators that regroup -/

/-- The pairs of operators of one level that may be applied in either order. -/
def regroups : Eop → Eop → Bool
  | .add, .add | .add, .sub | .mul, .mul | .band, .band | .bxor, .bxor | .bor, .bor
  | .land, .land | .lor, .lor => true
  | _, _ => false

theorem decide_atOfBool (b : Bool) : decide (atOfBool b = 0#32) = !b := by
  cases b <;> decide

theorem regroups_sound (undef : Undefined) {o₁ o₂ : Eop} (h : regroups o₁ o₂ = true)
    (a b c : AT) : eop2 undef o₂ (eop2 undef o₁ a b) c = eop2 undef o₁ a (eop2 undef o₂ b c) := by
  revert h
  cases o₁ <;> cases o₂ <;> simp only [regroups, Bool.false_eq_true, false_implies, forall_const]
  case add.add => exact BitVec.add_assoc a b c
  case add.sub => simp only [eop2, BitVec.sub_eq_add_neg, BitVec.add_assoc]
  case mul.mul => exact BitVec.mul_assoc a b c
  case band.band => exact BitVec.and_assoc a b c
  case bxor.bxor => exact BitVec.xor_assoc a b c
  case bor.bor => exact BitVec.or_assoc a b c
  case land.land => simp [eop2, decide_atOfBool, Bool.and_assoc]
  case lor.lor => simp [eop2, decide_atOfBool, Bool.or_assoc]

/-- No other pair of a left-associative level regroups. -/
theorem regroups_of_assoc {o₁ o₂ : Eop} (h₁ : o₁.isBin = true) (h₂ : o₂.isBin = true)
    (hlevel : o₁.prec = o₂.prec) (hleft : leftLevels o₁.prec = true)
    (h : ∀ (undef : Undefined) (a b c : AT),
      eop2 undef o₂ (eop2 undef o₁ a b) c = eop2 undef o₁ a (eop2 undef o₂ b c)) :
    regroups o₁ o₂ = true := by
  have hall : ∀ o₁ ∈ rgeopi, ∀ o₂ ∈ rgeopi, o₁.prec = o₂.prec → leftLevels o₁.prec = true →
      regroups o₁ o₂ = false → o₁.isBin = true → o₂.isBin = true →
      ∃ abc ∈ [((3, 1, 2) : AT × AT × AT), (0, 0, 2), (1, 2, 0), (1, 4, 2), (0, 2, 1)],
        eop2 (fun _ _ _ => 0) o₂ (eop2 (fun _ _ _ => 0) o₁ abc.1 abc.2.1) abc.2.2 ≠
          eop2 (fun _ _ _ => 0) o₁ abc.1 (eop2 (fun _ _ _ => 0) o₂ abc.2.1 abc.2.2) := by
    decide
  have hmem : ∀ o : Eop, o.isBin = true → o ∈ rgeopi := by
    intro o ho
    revert ho
    cases o <;> decide
  by_contra hno
  obtain ⟨abc, _, hne⟩ := hall o₁ (hmem o₁ h₁) o₂ (hmem o₂ h₂) hlevel hleft
    (Bool.eq_false_iff.mpr hno) h₁ h₂
  exact hne (h _ abc.1 abc.2.1 abc.2.2)

/-! ### The parser on a spelled expression -/

theorem Spells.next {t : List TCH} {l : Lexeme} {ls : List Lexeme} (h : Spells t (l :: ls)) :
    ∃ rest, nextLexeme t = some (l, rest) ∧ Spells rest ls := by
  cases h with
  | op hw ho hlong hs => exact ⟨_, (nextLexeme_white hw _).trans (nextLexeme_op ho hlong), hs⟩
  | num hw hn he hs => exact ⟨_, (nextLexeme_white hw _).trans (nextLexeme_num hn he), hs⟩
  | lpar hw hs => exact ⟨_, (nextLexeme_white hw _).trans (nextLexeme_lpar _), hs⟩
  | rpar hw hs => exact ⟨_, (nextLexeme_white hw _).trans (nextLexeme_rpar _), hs⟩

theorem Unary.written (u : Unary) :
    (u.1.written.isAmb = true ∨ u.1.written.isUn = true) ∧ u.1.written.unFromAmb = u.1 := by
  obtain ⟨u, hu⟩ := u
  revert hu
  cases u <;> decide

/-- The calls that reading `t` may nest. -/
def loopFuel (t : List TCH) : Nat := 3 * t.length + 2

/-- After the expression `e` has been read, the stack reduces as if the value of `e`
lay on the stack that was there before. -/
structure ReadsAs (undef : Undefined) (e : Expr) (K : List Cell) (a : AT) (L : List Cell) :
    Prop where
  settle : ∀ prec, (∀ k ∈ e.rightEdge precedences, prec < k) →
    reduceLoop undef prec a L = reduceLoop undef prec (e.value undef) K

theorem one_lt_of_mem_rightEdge {e : Expr} {k : Nat} (hk : k ∈ e.rightEdge precedences) :
    1 < k := by
  induction e with
  | atom a => simp [Ast.rightEdge] at hk
  | group k e _ => simp [Ast.rightEdge] at hk
  | unary u e ih =>
    rcases List.mem_cons.mp hk with rfl | hk
    · exact one_lt_prec (Or.inl u.2)
    · exact ih hk
  | binary o l r _ ihr =>
    rcases List.mem_cons.mp hk with rfl | hk
    · exact one_lt_prec (Or.inr o.2)
    · exact ihr hk

variable {undef : Undefined} {term : Terminator}

/-- A closed group is one primary. -/
theorem fPrimary_group {e : Expr} {t t₁ t₂ t₃ : List TCH} {K L : List Cell} {a : AT}
    (hl : nextLexeme t = some (.lpar, t₁)) (hr : nextLexeme t₂ = some (.rpar, t₃))
    (hread : ReadsAs undef e (.eopi .boe :: K) a L) {n n' : Nat}
    (hloop : fSecondaryLoop undef term n ⟨t₁, .eopi .boe :: K⟩ =
      fSecondaryLoop undef term (n' + 2) ⟨t₂, .int a :: L⟩) :
    fPrimary undef term (n + 2) ⟨t, K⟩ = .ok (true, ⟨t₃, .int (e.value undef) :: K⟩) := by
  have hstops : Stops t₂ := Or.inr ⟨_, _, hr, Or.inl rfl⟩
  have hred : reduceLoop undef 1 a L = .ok (.int (e.value undef) :: .eopi .boe :: K) := by
    rw [hread.settle 1 fun k hk => one_lt_of_mem_rightEdge hk]
    exact reduceLoop_stop (Nat.zero_le _) _ _
  have hreads := reads_nextLexeme t₂
  rw [hr] at hreads
  cases hreads with
  | rpar _ _ htok =>
    rw [fPrimary_lpar hl, fSecondary, hloop, loop_end hstops, flushEstack_eq hred, htok]
    rfl

theorem fSecondaryLoop_expr (undef : Undefined) (term : Terminator) {e : Expr}
    (hg : e.GroupedRight precedences) {t : List TCH} {ls : List Lexeme} (hs : Spells t (e.yield spelling ++ ls)) {q : Eop} {K : List Cell}
    (hq : ∀ k ∈ e.leftEdge precedences, q.prec ≤ k) :
    ∃ t' a L, Spells t' ls ∧ t'.length < t.length ∧ ReadsAs undef e (.eopi q :: K) a L ∧
      ∀ n, loopFuel t ≤ n → ∃ n', loopFuel t' ≤ n' ∧
        fSecondaryLoop undef term n ⟨t, .eopi q :: K⟩ =
          fSecondaryLoop undef term n' ⟨t', .int a :: L⟩ := by
  induction e generalizing t ls q K with
  | atom a =>
    obtain ⟨t', hnext, hs'⟩ := hs.next
    have hlen := nextLexeme_length hnext
    refine ⟨t', a, .eopi q :: K, hs', hlen, ⟨fun _ _ => rfl⟩, fun n hn => ?_⟩
    unfold loopFuel at hn ⊢
    obtain ⟨m, rfl⟩ : ∃ m, n = m + 2 := ⟨n - 2, by omega⟩
    exact ⟨m + 1, by omega, loop_operand (fPrimary_num hnext)⟩
  | group k e ih =>
    simp only [Ast.yield, List.cons_append, List.append_assoc] at hs
    obtain ⟨t₁, hl, hs₁⟩ := hs.next
    have hlen₁ := nextLexeme_length hl
    obtain ⟨t₂, a, L, hs₂, hlen₂, hread, hloop⟩ := ih hg hs₁ (q := .boe) fun k _ => Nat.zero_le k
    obtain ⟨t₃, hr, hs₃⟩ := hs₂.next
    have hlen₃ := nextLexeme_length hr
    refine ⟨t₃, _, .eopi q :: K, hs₃, by omega, ⟨fun _ _ => rfl⟩, fun n hn => ?_⟩
    unfold loopFuel at hn hloop ⊢
    obtain ⟨m, rfl⟩ : ∃ m, n = m + 3 := ⟨n - 3, by omega⟩
    obtain ⟨n', hn', heq⟩ := hloop m (by omega)
    obtain ⟨m', rfl⟩ : ∃ m', n' = m' + 2 := ⟨n' - 2, by omega⟩
    exact ⟨m + 2, by omega, loop_operand (fPrimary_group hl hr hread heq)⟩
  | unary u e ih =>
    obtain ⟨t₁, hnext, hs₁⟩ := hs.next
    have hlen₁ := nextLexeme_length hnext
    obtain ⟨hkind, hsame⟩ := u.written
    obtain ⟨t', a, L, hs', hlen', hread, hloop⟩ :=
      ih hg.2 hs₁ (q := u.1) (K := .eopi q :: K) fun k hk => Nat.le_of_lt (hg.1 k hk)
    refine ⟨t', a, L, hs', by omega, ⟨fun prec hprec => ?_⟩, fun n hn => ?_⟩
    · rw [hread.settle prec fun k hk => hprec k (List.mem_cons_of_mem _ hk)]
      exact reduceLoop_unary (hprec _ List.mem_cons_self) u.2 _ _
    · unfold loopFuel at hn hloop ⊢
      obtain ⟨m, rfl⟩ : ∃ m, n = m + 2 := ⟨n - 2, by omega⟩
      obtain ⟨n', hn', heq⟩ := hloop (m + 1) (by omega)
      refine ⟨n', hn', ?_⟩
      rw [loop_unary hnext hkind, hsame, heq]
  | binary o l r ihl ihr =>
    obtain ⟨hle, hre, hgl, hgr⟩ := hg
    rw [Ast.yield, List.append_assoc] at hs
    obtain ⟨t₁, a₁, L₁, hs₁, hlen₁, hread₁, hloop₁⟩ :=
      ihl hgl hs (q := q) (K := K) fun k hk => hq k (List.mem_cons_of_mem _ hk)
    obtain ⟨t₂, hnext, hs₂⟩ := hs₁.next
    have hlen₂ := nextLexeme_length hnext
    have hred : reduce undef (.eopi o.1 :: .int a₁ :: L₁) =
        .ok (.eopi o.1 :: .int (Expr.value undef l) :: .eopi q :: K) := by
      have hstop : q.prec ≤ o.1.prec := hq _ List.mem_cons_self
      simp only [reduce]
      rw [hread₁.settle o.1.prec fun k hk => ?_, reduceLoop_stop hstop]
      · rfl
      · exact (hle k hk).resolve_right fun h => Bool.false_ne_true h.2
    obtain ⟨t', a, L, hs', hlen', hread, hloop⟩ :=
      ihr hgr hs₂ (q := o.1) (K := .int (Expr.value undef l) :: .eopi q :: K) fun k hk =>
        (hre k hk).elim Nat.le_of_lt fun h => Nat.le_of_eq h.1
    refine ⟨t', a, L, hs', by omega, ⟨fun prec hprec => ?_⟩, fun n hn => ?_⟩
    · rw [hread.settle prec fun k hk => hprec k (List.mem_cons_of_mem _ hk)]
      exact reduceLoop_binary (hprec _ List.mem_cons_self) o.2 _ _ _
    · obtain ⟨n₁, hn₁, heq₁⟩ := hloop₁ n hn
      unfold loopFuel at hn₁ hloop ⊢
      obtain ⟨m, rfl⟩ : ∃ m, n₁ = m + 2 := ⟨n₁ - 2, by omega⟩
      obtain ⟨n', hn', heq⟩ := hloop (m + 1) (by omega)
      refine ⟨n', hn', ?_⟩
      rw [heq₁, loop_binary hnext o.2 hred, heq]

theorem opEval_ok {arg rest : List TCH} {a : AT} {estack estack' : List Cell}
    (h : fSecondary undef term (evalFuel arg) ⟨arg, estack⟩ =
      .ok (true, ⟨rest, .int a :: estack'⟩)) (more : List (List TCH)) :
    opEval undef term (arg :: more) estack = .ok (.value a (pushedText (arg :: more) a), estack') := by
  rw [opEval, h]
  rfl

/-- The parser returns the value of the reading that groups every level to the right. -/
theorem opEval_right {e : Expr} (hg : e.GroupedRight precedences) {arg : List TCH}
    (hs : Spells arg (e.yield spelling)) (more : List (List TCH)) (estack : List Cell) :
    opEval undef term (arg :: more) estack =
      .ok (.value (e.value undef) (pushedText (arg :: more) (e.value undef)), estack) := by
  have hs₀ : Spells arg (e.yield spelling ++ []) := by rwa [List.append_nil]
  obtain ⟨t', a, L, hs', _, hread, hloop⟩ :=
    fSecondaryLoop_expr undef term hg hs₀ (q := .boe) (K := estack) fun k _ => Nat.zero_le k
  obtain ⟨n', hn', heq⟩ := hloop (3 * arg.length + 3) (by unfold loopFuel; omega)
  unfold loopFuel at hn'
  obtain ⟨m, rfl⟩ : ∃ m, n' = m + 2 := ⟨n' - 2, by omega⟩
  have hstops : Stops t' := by
    cases hs' with
    | nil hw => exact Or.inl (by simpa using (nextLexeme_white hw []).trans nextLexeme_nil)
  have hred : reduceLoop undef 1 a L =
      .ok (.int (Expr.value undef e) :: .eopi .boe :: estack) := by
    rw [hread.settle 1 fun k hk => one_lt_of_mem_rightEdge hk]
    exact reduceLoop_stop (Nat.zero_le _) _ _
  have hsecondary : fSecondary undef term (evalFuel arg) ⟨arg, estack⟩ =
      .ok (true, ⟨skipWhitePtok t', .int (e.value undef) :: estack⟩) := by
    rw [evalFuel, fSecondary, heq, loop_end hstops, flushEstack_eq hred]
  exact opEval_ok hsecondary more

/-- On a well-formed text in which the operators of every left-associative chain
regroup, `eval` computes the value of the documented reading. -/
theorem opEval_value (undef : Undefined) (term : Terminator) {e : Expr}
    (hg : e.Grouped precedences leftLevels) {arg : List TCH} (hs : Spells arg (e.yield spelling))
    (hchains : e.ChainsIn precedences leftLevels fun o₁ o₂ => regroups o₁.1 o₂.1 = true)
    (more : List (List TCH)) (estack : List Cell) :
    opEval undef term (arg :: more) estack =
      .ok (.value (e.value undef) (pushedText (arg :: more) (e.value undef)), estack) := by
  have hright := Ast.grouped_toRight precedences leftLevels hg
  have hs' : Spells arg ((e.toRight precedences leftLevels).yield spelling) := by
    rwa [Ast.yield_toRight]
  have hvalue : Expr.value undef (e.toRight precedences leftLevels) = e.value undef :=
    Ast.eval_toRight precedences leftLevels _ _ _
      (hchains.mono fun o₁ o₂ h => regroups_sound undef h)
  exact hvalue ▸ opEval_right hright hs' more estack

/-- A text spells its lexemes when all of them are tokens. -/
theorem spells_of_lexemes {t : List TCH} {ls : List Lexeme} (h : lexemes t = ls)
    (hgood : ∀ l ∈ ls, l.good = true) : Spells t ls := by
  subst h
  exact spells_of_good hgood

/-- `2 + 3*4-1` is 13. -/
theorem opEval_value_mixed :
    opEval (fun _ _ _ => 0) .rpar
        [[tch '2', tch ' ', tch '+', tch ' ', tch '3', tch '*', tch '4', tch '-', tch '1']] [] =
      .ok (.value 13 [tch '1', tch '3'], []) :=
  opEval_value (fun _ _ _ => 0) .rpar
    (e := .binary ⟨.sub, rfl⟩
      (.binary ⟨.add, rfl⟩ (.atom 2) (.binary ⟨.mul, rfl⟩ (.atom 3) (.atom 4))) (.atom 1))
    (by simp [Ast.Grouped, Ast.leftEdge, Ast.rightEdge, precedences, leftLevels, Eop.prec])
    (spells_of_lexemes (by decide) (by decide))
    (by simp [Ast.ChainsIn, Ast.chain, precedences, leftLevels, Eop.prec, regroups]) [] []

/-- `1-2-3` is read as `1-(2-3)`. -/
theorem opEval_sub_chain :
    ∃ e : Expr, e.Grouped precedences leftLevels ∧
      Spells [tch '1', tch '-', tch '2', tch '-', tch '3'] (e.yield spelling) ∧
      e.value (fun _ _ _ => 0) = -4 ∧
      opEval (fun _ _ _ => 0) .rpar [[tch '1', tch '-', tch '2', tch '-', tch '3']] [] =
        .ok (.value 2 [tch '2'], []) := by
  refine ⟨.binary ⟨.sub, rfl⟩ (.binary ⟨.sub, rfl⟩ (.atom 1) (.atom 2)) (.atom 3), ?_,
    spells_of_lexemes (by decide) (by decide), by decide, by decide⟩
  simp [Ast.Grouped, Ast.leftEdge, Ast.rightEdge, precedences, leftLevels, Eop.prec]

end SdkTools.M4
