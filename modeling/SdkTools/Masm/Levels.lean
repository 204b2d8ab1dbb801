import SdkTools.Masm.Lookahead

/-!
# The levels of the MASM grammar

A level of the recursive descent reads an operand and loops over its operators. When
the level below reads the longest expression of its level and returns the value, so
does the level itself.
-/

namespace SdkTools.Masm

open Lib.EState Lib.Operators

set_option autoImplicit false

/-! ### Operators -/

section Operators

variable {Addr : Type} (env : Env Addr)

end Operators

/-! ### Outcomes -/

section Outcomes

variable {Addr σ : Type}

/-- The program returns the value `x` in a state that satisfies `Q`, or raises an error
when there is no value. -/
def Returns (r : EStateM.Result EvalFault (MasmState Addr) σ) (val : σ → LONG64)
    (x : Option LONG64) (Q : MasmState Addr → Prop) : Prop :=
  match x with
  | some v => ∃ a s', r = .ok a s' ∧ val a = v ∧ Q s'
  | none => ∃ code s', r = .error (.error code) s'

/-- The program stops, and returns only if `P` holds. -/
def Accounted (r : EStateM.Result EvalFault (MasmState Addr) σ) (P : Prop) : Prop :=
  (∃ a s', r = .ok a s' ∧ P) ∨ ∃ code s', r = .error (.error code) s'

theorem Accounted.of_ok {r : EStateM.Result EvalFault (MasmState Addr) σ} {P : Prop}
    (h : Accounted r P) {a : σ} {s' : MasmState Addr} (hr : r = .ok a s') : P := by
  rcases h with ⟨_, _, _, h⟩ | ⟨_, _, h⟩
  · exact h
  · cases hr.symm.trans h

theorem Accounted.bind {α : Type} {x : Eval Addr α} {f : α → Eval Addr σ} {s : MasmState Addr}
    {P : Prop} (hx : Accounted (x s) True)
    (h : ∀ a s', x s = .ok a s' → Accounted (f a s') P) : Accounted ((x >>= f) s) P := by
  rcases hx with ⟨a, s', hx, _⟩ | ⟨code, s', hx⟩
  · rw [bind_of_ok hx]
    exact h a s' hx
  · exact Or.inr ⟨code, s', bind_of_error hx⟩

theorem Accounted.mono {r : EStateM.Result EvalFault (MasmState Addr) σ} {P Q : Prop}
    (h : Accounted r P) (hPQ : P → Q) : Accounted r Q :=
  h.imp_left fun ⟨a, s', hr, hP⟩ => ⟨a, s', hr, hPQ hP⟩

theorem Returns.of_ok {r : EStateM.Result EvalFault (MasmState Addr) σ} {val : σ → LONG64}
    {x : Option LONG64} {Q : MasmState Addr → Prop} (h : Returns r val x Q) {a : σ}
    {s' : MasmState Addr} (hr : r = .ok a s') : x = some (val a) ∧ Q s' := by
  cases x with
  | none =>
    obtain ⟨code, s₁, h₁⟩ := h
    cases hr.symm.trans h₁
  | some v =>
    obtain ⟨b, s₁, h₁, hv, hQ⟩ := h
    obtain ⟨rfl, rfl⟩ := EStateM.Result.ok.inj (hr.symm.trans h₁)
    exact ⟨congrArg some hv.symm, hQ⟩

theorem Returns.accounted {r : EStateM.Result EvalFault (MasmState Addr) σ} {val : σ → LONG64}
    {x : Option LONG64} {Q : MasmState Addr → Prop} (h : Returns r val x Q) :
    Accounted r True := by
  cases x with
  | none => exact Or.inr h
  | some v =>
    obtain ⟨a, s', hr, _⟩ := h
    exact Or.inl ⟨a, s', hr, trivial⟩

theorem evalError_run (code : ULONG) (s : MasmState Addr) :
    (evalError code : Eval Addr σ) s = .error (.error code) s := rfl

end Outcomes

/-! ### Parsers of a level -/

section Levels

variable {Addr : Type} (env : Env Addr) (f₀ : Bool) (t₀ : List CHAR)

/-- On fewer than `n` tokens the program reads the longest expression of level `k`. -/
structure Parses (k n : Nat) (m : Eval Addr LONG64) : Prop where
  returns : ∀ {cs ts rest : List Token} {e : Expr} {s : MasmState Addr},
    At env f₀ t₀ cs ts s → ts.length < n → CompleteAt k ts e rest →
      Returns (m s) id (e.value env) (At env f₀ t₀ (cs ++ e.yield spelling) rest)
  accounted : ∀ {cs ts : List Token} {s : MasmState Addr}, At env f₀ t₀ cs ts s →
    ts.length < n → Accounted (m s) (∃ e rest, CompleteAt k ts e rest)

/-- The operators of a level with their effect on the accumulator of its loop. -/
structure LevelOps {ω σ : Type} (k : Nat) (accepts : Token → Option ω)
    (apply : ω → σ → LONG64 → Eval Addr σ) (val : σ → LONG64) : Prop where
  eol : accepts .eol = none
  accepted : ∀ {tok : Token} {o : ω}, tok.plain = true → accepts tok = some o →
    ∃ b : Binary, b.level = k ∧ tok = b.token
  applied : ∀ b : Binary, b.level = k → ∃ o, accepts b.token = some o ∧ ∀ acc v s,
    Returns (apply o acc v s) val (b.apply env (val acc) v) (SameText s)

/-- The value of a chain whose first operand has the value `x`. -/
def chainValue (x : Option LONG64) (l : List (Binary × Expr)) : Option LONG64 :=
  l.foldl (fun x y => x.bind fun a => (y.2.value env).bind (y.1.apply env a)) x

variable {env f₀ t₀}

theorem chainValue_none (l : List (Binary × Expr)) : chainValue env none l = none := by
  induction l with
  | nil => rfl
  | cons y l ih => exact ih

theorem value_joinLeft (e : Expr) (l : List (Binary × Expr)) :
    Expr.value env (Ast.joinLeft e l) = chainValue env (e.value env) l :=
  Ast.eval_joinLeft some _ _ e l

theorem Parses.ok {k n : Nat} {m : Eval Addr LONG64} (h : Parses env f₀ t₀ k n m)
    {cs ts : List Token} {s s' : MasmState Addr} {v : LONG64} (hat : At env f₀ t₀ cs ts s)
    (hlen : ts.length < n) (hm : m s = .ok v s') :
    ∃ e rest, CompleteAt k ts e rest ∧ e.value env = some v ∧
      At env f₀ t₀ (cs ++ e.yield spelling) rest s' := by
  obtain ⟨e, rest, hcomplete⟩ := (h.accounted hat hlen).of_ok hm
  obtain ⟨hv, hat'⟩ := (h.returns hat hlen hcomplete).of_ok hm
  exact ⟨e, rest, hcomplete, hv, hat'⟩

theorem token_injective {b b' : Binary} (h : b.token = b'.token) : b = b' := by
  cases b <;> cases b' <;> simp [Binary.token] at h ⊢ <;> exact h

theorem Stops.mono {j k : Nat} {rest : List Token} (h : Stops k rest) (hjk : k ≤ j) :
    Stops j rest := fun b hb => h b (Nat.le_trans hjk hb)

theorem stops_yieldChain {k : Nat} {l : List (Binary × Expr)} {rest : List Token}
    (hl : ∀ x ∈ l, Ast.IsLink levels k x) (hrest : Stops k rest) :
    Stops (k + 1) (Ast.yieldChain spelling l ++ rest) := by
  cases l with
  | nil => exact hrest.mono (Nat.le_succ k)
  | cons x l =>
    intro b hb h
    have hx : x.1.level = k := (hl x List.mem_cons_self).1
    have hbx : x.1 = b := token_injective (Option.some.inj h)
    rw [← hbx] at hb
    omega

/-- A link of a chain is complete at the next level. -/
theorem complete_link {k : Nat} {x : Binary × Expr} {l : List (Binary × Expr)}
    {rest : List Token} (hl : ∀ y ∈ x :: l, Ast.IsLink levels k y) (hrest : Stops k rest) :
    CompleteAt (k + 1) (x.2.yield spelling ++ (Ast.yieldChain spelling l ++ rest)) x.2
      (Ast.yieldChain spelling l ++ rest) := by
  obtain ⟨_, hgrouped, hedge⟩ := hl x List.mem_cons_self
  exact ⟨rfl, hgrouped, hedge,
    stops_yieldChain (fun y hy => hl y (List.mem_cons_of_mem _ hy)) hrest⟩

section Loop

variable {ω σ : Type} {k n : Nat} {accepts : Token → Option ω}
  {apply : ω → σ → LONG64 → Eval Addr σ} {val : σ → LONG64} {next : Eval Addr LONG64}

variable (apply next) in
/-- Without an operator of its level the loop is over. -/
theorem levelLoop_stop (fuel : Nat) (acc : σ) {cs ts : List Token} {s : MasmState Addr}
    (hat : At env f₀ t₀ cs ts s) (hnone : accepts (ts.head?.getD .eol) = none) :
    ∃ s', levelLoop env accepts next apply (fuel + 1) acc s = .ok acc s' ∧
      At env f₀ t₀ cs ts s' := by
  obtain ⟨s', hpeek, hat', _⟩ := peekToken_at hat
  refine ⟨s', ?_, hat'⟩
  rw [levelLoop, bind_of_ok hpeek, hnone]
  rfl

variable (apply next) in
/-- An operator of its level is accepted, and its operand is read. -/
theorem levelLoop_step (fuel : Nat) (acc : σ) {cs ts : List Token} {tok : Token} {o : ω}
    {s : MasmState Addr} (hat : At env f₀ t₀ cs (tok :: ts) s) (ho : accepts tok = some o) :
    ∃ s', At env f₀ t₀ (cs ++ [tok]) ts s' ∧
      levelLoop env accepts next apply (fuel + 1) acc s =
        (next >>= fun v => apply o acc v >>= levelLoop env accepts next apply fuel) s' := by
  obtain ⟨s₁, hpeek, hat₁, hsaved⟩ := peekToken_at hat
  obtain ⟨s₂, haccept, hat₂⟩ := acceptToken_at hat₁ hsaved
  refine ⟨s₂, hat₂, ?_⟩
  have htok : (tok :: ts).head?.getD .eol = tok := rfl
  rw [levelLoop, bind_of_ok hpeek, htok, ho]
  exact bind_of_ok haccept

theorem accepts_none (hops : LevelOps env k accepts apply val) {cs ts : List Token}
    {s : MasmState Addr} (hat : At env f₀ t₀ cs ts s) (hts : Stops k ts) :
    accepts (ts.head?.getD .eol) = none := by
  cases ts with
  | nil => exact hops.eol
  | cons tok ts =>
    cases ho : accepts tok with
    | none => exact ho
    | some o =>
      obtain ⟨b, hb, rfl⟩ := hops.accepted hat.plain ho
      exact absurd rfl (hts b (Nat.le_of_eq hb.symm))

theorem levelLoop_returns (hops : LevelOps env k accepts apply val)
    (hnext : Parses env f₀ t₀ (k + 1) n next) {fuel : Nat} (hfuel : fuel ≤ n)
    {l : List (Binary × Expr)} {cs rest : List Token} (acc : σ) {s : MasmState Addr}
    (hl : ∀ x ∈ l, Ast.IsLink levels k x) (hrest : Stops k rest)
    (hat : At env f₀ t₀ cs (Ast.yieldChain spelling l ++ rest) s)
    (hlen : (Ast.yieldChain spelling l ++ rest).length < fuel) :
    Returns (levelLoop env accepts next apply fuel acc s) val (chainValue env (some (val acc)) l)
      (At env f₀ t₀ (cs ++ Ast.yieldChain spelling l) rest) := by
  induction l generalizing fuel cs acc s with
  | nil =>
    obtain ⟨fuel, rfl⟩ : ∃ f, fuel = f + 1 := ⟨fuel - 1, by omega⟩
    obtain ⟨s', hloop, hat'⟩ := levelLoop_stop apply next fuel acc hat (accepts_none hops hat hrest)
    refine ⟨acc, s', hloop, rfl, ?_⟩
    rw [Ast.yieldChain, List.flatMap_nil, List.append_nil]
    exact hat'
  | cons x l ih =>
    obtain ⟨b, r⟩ := x
    obtain ⟨fuel, rfl⟩ : ∃ f, fuel = f + 1 := ⟨fuel - 1, by omega⟩
    have hb : b.level = k := (hl (b, r) List.mem_cons_self).1
    have hlink := complete_link hl hrest
    obtain ⟨o, ho, happly⟩ := hops.applied b hb
    have hyield : Ast.yieldChain spelling ((b, r) :: l) ++ rest =
        b.token :: (r.yield spelling ++ (Ast.yieldChain spelling l ++ rest)) := by
      simp [Ast.yieldChain, spelling]
    rw [hyield] at hat hlen
    rw [List.length_cons] at hlen
    obtain ⟨s₁, hat₁, hloop⟩ := levelLoop_step apply next fuel acc hat ho
    rw [hloop]
    have hnextr := hnext.returns hat₁ (by omega) hlink
    dsimp only at hnextr
    have hchain : chainValue env (some (val acc)) ((b, r) :: l) =
        chainValue env ((r.value env).bind (b.apply env (val acc))) l := rfl
    rw [hchain]
    cases hr : r.value env with
    | none =>
      rw [hr] at hnextr
      obtain ⟨code, s₂, h₂⟩ := hnextr
      rw [Option.bind_none, chainValue_none]
      exact ⟨code, s₂, bind_of_error h₂⟩
    | some v =>
      rw [hr] at hnextr
      obtain ⟨v', s₂, h₂, rfl, hat₂⟩ := hnextr
      have happ := happly acc v' s₂
      rw [bind_of_ok h₂, Option.bind_some]
      dsimp only [id] at happ ⊢
      cases hv : b.apply env (val acc) v' with
      | none =>
        rw [hv] at happ
        obtain ⟨code, s₃, h₃⟩ := happ
        rw [chainValue_none]
        exact ⟨code, s₃, bind_of_error h₃⟩
      | some x =>
        rw [hv] at happ
        obtain ⟨acc', s₃, h₃, rfl, hsame⟩ := happ
        rw [bind_of_ok h₃]
        have hrun := ih (Nat.le_of_succ_le hfuel) acc'
          (fun y hy => hl y (List.mem_cons_of_mem _ hy)) (hat₂.sameText hsame) (by
            rw [List.length_append] at hlen
            omega)
        have hcs : cs ++ Ast.yieldChain spelling ((b, r) :: l) =
            cs ++ [b.token] ++ r.yield spelling ++ Ast.yieldChain spelling l := by
          simp [Ast.yieldChain, spelling]
        rw [hcs]
        exact hrun

theorem levelLoop_accounted (hops : LevelOps env k accepts apply val)
    (hnext : Parses env f₀ t₀ (k + 1) n next) {fuel : Nat} (hfuel : fuel ≤ n)
    {cs ts : List Token} (acc : σ) {s : MasmState Addr} (hat : At env f₀ t₀ cs ts s)
    (hlen : ts.length < fuel) (hts : Stops (k + 1) ts) :
    Accounted (levelLoop env accepts next apply fuel acc s)
      (∃ l rest, ts = Ast.yieldChain spelling l ++ rest ∧
        (∀ x ∈ l, Ast.IsLink levels k x) ∧ Stops k rest) := by
  induction fuel generalizing cs ts acc s with
  | zero => omega
  | succ fuel ih =>
    cases ho : accepts (ts.head?.getD .eol) with
    | none =>
      obtain ⟨s', hloop, _⟩ := levelLoop_stop apply next fuel acc hat ho
      refine Or.inl ⟨acc, s', hloop, [], ts, rfl, List.forall_mem_nil _, ?_⟩
      intro b hb h
      rcases Nat.lt_or_eq_of_le hb with hlt | rfl
      · exact hts b hlt h
      · obtain ⟨o, ho', _⟩ := hops.applied b rfl
        rw [h, Option.getD_some, ho'] at ho
        cases ho
    | some o =>
      cases ts with
      | nil => cases hops.eol.symm.trans ho
      | cons tok ts =>
        obtain ⟨b, hb, rfl⟩ := hops.accepted hat.plain ho
        obtain ⟨o', ho', happly⟩ := hops.applied b hb
        obtain rfl : o' = o := Option.some.inj (ho'.symm.trans ho)
        rw [List.length_cons] at hlen
        obtain ⟨s₁, hat₁, hloop⟩ := levelLoop_step apply next fuel acc hat ho'
        rw [hloop]
        apply Accounted.bind ((hnext.accounted hat₁ (by omega)).mono fun _ => trivial)
        intro v s₂ h₂
        obtain ⟨r, rest, hcomplete, hv, hat₂⟩ := hnext.ok hat₁ (by omega) h₂
        have happ := happly acc v s₂
        apply Accounted.bind happ.accounted
        intro acc' s₃ h₃
        have hsame : SameText s₂ s₃ := (happ.of_ok h₃).2
        have htokens := hcomplete.tokens
        have hlen' : rest.length < fuel := by
          rw [htokens, List.length_append] at hlen
          omega
        refine (ih (Nat.le_of_succ_le hfuel) acc' (hat₂.sameText hsame) hlen'
          hcomplete.stops).mono ?_
        rintro ⟨l, rest', rfl, hl, hrest⟩
        refine ⟨(b, r) :: l, rest', ?_, ?_, hrest⟩
        · simp [Ast.yieldChain, spelling, htokens]
        · intro x hx
          rcases List.mem_cons.mp hx with rfl | hx
          · exact ⟨hb, hcomplete.grouped, hcomplete.level⟩
          · exact hl x hx

end Loop

/-- A level is an operand of the next level and the loop over its operators. -/
theorem Parses.level {ω σ : Type} {k n : Nat} {accepts : Token → Option ω}
    {apply : ω → σ → LONG64 → Eval Addr σ} {val : σ → LONG64} {next m : Eval Addr LONG64}
    (start : LONG64 → Eval Addr σ) (hk : k ≤ 5) (hops : LevelOps env k accepts apply val)
    (hnext : Parses env f₀ t₀ (k + 1) n next)
    (hstart : ∀ v s, ∃ acc, start v s = .ok acc s ∧ val acc = v)
    (hm : m = next >>= fun v => start v >>= fun acc =>
      levelLoop env accepts next apply n acc >>= fun acc => pure (val acc)) :
    Parses env f₀ t₀ k n m where
  returns := by
    intro cs ts rest e s hat hlen hcomplete
    obtain ⟨htokens, hgrouped, hlevel, hstops⟩ := hcomplete
    obtain ⟨e₀, l, rfl, hg₀, htop₀, hl⟩ := Ast.exists_joinLeft levels hgrouped hlevel
    have hts : ts = e₀.yield spelling ++ (Ast.yieldChain spelling l ++ rest) := by
      rw [htokens, Ast.yield_joinLeft, List.append_assoc]
    have hfirst : CompleteAt (k + 1) ts e₀ (Ast.yieldChain spelling l ++ rest) :=
      ⟨hts, hg₀, htop₀, stops_yieldChain hl hstops⟩
    have hr := hnext.returns hat hlen hfirst
    rw [hm, value_joinLeft]
    cases hv : Expr.value env e₀ with
    | none =>
      rw [hv] at hr
      obtain ⟨code, s', h'⟩ := hr
      rw [chainValue_none]
      exact ⟨code, s', bind_of_error h'⟩
    | some v =>
      rw [hv] at hr
      obtain ⟨v', s₁, h₁, rfl, hat₁⟩ := hr
      obtain ⟨acc, hacc, hval⟩ := hstart v' s₁
      have hloop := levelLoop_returns hops hnext (Nat.le_refl n) acc hl hstops hat₁ (by
        rw [hts, List.length_append] at hlen
        omega)
      rw [bind_of_ok h₁, bind_of_ok hacc]
      rw [hval] at hloop
      dsimp only [id]
      cases hc : chainValue env (some v') l with
      | none =>
        rw [hc] at hloop
        obtain ⟨code, s', h'⟩ := hloop
        exact ⟨code, s', bind_of_error h'⟩
      | some x =>
        rw [hc] at hloop
        obtain ⟨acc', s', h', rfl, hat'⟩ := hloop
        refine ⟨val acc', s', (bind_of_ok h').trans rfl, rfl, ?_⟩
        rw [Ast.yield_joinLeft, ← List.append_assoc]
        exact hat'
  accounted := by
    intro cs ts s hat hlen
    rw [hm]
    apply Accounted.bind ((hnext.accounted hat hlen).mono fun _ => trivial)
    intro v s₁ h₁
    obtain ⟨e₀, rest₀, ⟨htokens, hg₀, htop₀, hstops₀⟩, _, hat₁⟩ := hnext.ok hat hlen h₁
    obtain ⟨acc, hacc, _⟩ := hstart v s₁
    rw [bind_of_ok hacc]
    have hloop := levelLoop_accounted hops hnext (Nat.le_refl n) acc hat₁ (by
      rw [htokens, List.length_append] at hlen
      omega) hstops₀
    apply Accounted.bind (hloop.mono fun _ => trivial)
    intro acc' s' h'
    obtain ⟨l, rest, rfl, hl, hrest⟩ := hloop.of_ok h'
    obtain ⟨hgrouped, hedge, _⟩ := Ast.grouped_joinLeft levels
      (fun _ => Nat.lt_succ_of_le hk) hg₀ htop₀ hl
    refine Or.inl ⟨val acc', s', rfl, Ast.joinLeft e₀ l, rest, ?_, hgrouped, hedge, hrest⟩
    rw [htokens, Ast.yield_joinLeft, List.append_assoc]

/-! ### The operators of the five levels -/

end Levels

end SdkTools.Masm
