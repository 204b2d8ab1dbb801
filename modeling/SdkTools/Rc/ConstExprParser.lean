import SdkTools.Rc.ConstExprGrammar

/-!
# What the parser of constant expressions accepts

A level reads the expressions of its grammar: it returns the value of one that is followed
by what cannot continue it, and whatever it returns is the value of one it has read. The
levels are built from one another, so each needs only the one below.
-/

namespace SdkTools.Rc

open Lib.EState

set_option autoImplicit false

/-! ## Outcomes -/

/-- The program returns what satisfies `Q`, or stops with an error of the source. -/
def Post {α : Type} (r : EStateM.Result Fatal Lexer α) (Q : α → Lexer → Prop) : Prop :=
  match r with
  | .ok a s => Q a s
  | .error e _ => e ≠ .fuel

theorem Post.bind {α β : Type} {x : Parser α} {f : α → Parser β} {s : Lexer}
    {Q : α → Lexer → Prop} {R : β → Lexer → Prop} (hx : Post (x s) Q)
    (hf : ∀ a s', Q a s' → Post (f a s') R) : Post ((x >>= f) s) R := by
  cases hr : x s with
  | ok a s' =>
    rw [hr] at hx
    rw [bind_of_ok hr]
    exact hf a s' hx
  | error e s' =>
    rw [hr] at hx
    rw [bind_of_error hr]
    exact hx

theorem Post.mono {α : Type} {r : EStateM.Result Fatal Lexer α} {Q R : α → Lexer → Prop}
    (h : Post r Q) (hQR : ∀ a s, Q a s → R a s) : Post r R := by
  cases r with
  | ok a s => exact hQR a s h
  | error e s => exact h

theorem Post.of_ok {α : Type} {r : EStateM.Result Fatal Lexer α} {Q : α → Lexer → Prop} {a : α}
    {s : Lexer} (h : Post r Q) (hr : r = .ok a s) : Q a s := by
  rw [hr] at h
  exact h

/-! ## Tokens -/

/-- The tokens still to be read are `ts`. -/
def Holds (s : Lexer) (ts : List Tok) : Prop :=
  match s.Currtok with
  | none => s.input = ts
  | some .cinteger => ts = .constant s.Currval :: s.input
  | some (.punct p) => ts = .punct p :: s.input

/-- No token is left unread behind `L_NOTOKEN`. -/
def Peeked (s : Lexer) : Prop := s.Currtok = none → s.input = []

def Tok.basic : Tok → Option Basic
  | .constant _ => some .cinteger
  | .real => none
  | .punct p => some (.punct p)

/-- What `nextis` does on tokens that do not start with a floating constant. -/
structure Next (tok : Basic) (s : Lexer) (ts : List Tok) (b : Bool) (s' : Lexer) : Prop where
  parencnt : s'.Parencnt = s.Parencnt
  hit : b = true → ∃ t rest, ts = t :: rest ∧ t.basic = some tok ∧ Holds s' rest ∧
    ∀ v, t = .constant v → s'.Currval = v
  miss : b = false → Holds s' ts ∧ Peeked s' ∧ ∀ t, ts.head? = some t → t.basic ≠ some tok

theorem nextis_spec (tok : Basic) {s : Lexer} {ts : List Tok} (h : Holds s ts)
    (hreal : ts.head? ≠ some .real) : ∃ b s', nextis tok s = .ok b s' ∧ Next tok s ts b s' := by
  obtain ⟨currtok, currval, parencnt, input⟩ := s
  cases currtok with
  | none =>
    have hts : input = ts := h
    subst hts
    cases input with
    | nil => exact ⟨false, _, rfl, rfl, nofun, fun _ => ⟨rfl, fun _ => rfl, nofun⟩⟩
    | cons t input =>
      cases t with
      | real => exact absurd rfl hreal
      | constant v =>
        by_cases htok : tok = .cinteger
        · refine ⟨true, ⟨none, v, parencnt, input⟩, ?_, rfl, fun _ => ?_, nofun⟩
          · unfold nextis
            exact if_pos htok
          · refine ⟨_, _, rfl, congrArg some htok.symm, rfl, fun v' hv => ?_⟩
            exact Tok.constant.inj hv
        · refine ⟨false, ⟨some .cinteger, v, parencnt, input⟩, ?_, rfl, nofun, fun _ => ?_⟩
          · unfold nextis
            exact if_neg htok
          · refine ⟨rfl, nofun, fun t ht hb => htok ?_⟩
            obtain rfl := Option.some.inj ht
            exact (Option.some.inj hb).symm
      | punct p =>
        by_cases htok : tok = .punct p
        · refine ⟨true, ⟨none, currval, parencnt, input⟩, ?_, rfl, fun _ => ?_, nofun⟩
          · unfold nextis
            exact if_pos htok
          · exact ⟨_, _, rfl, congrArg some htok.symm, rfl, nofun⟩
        · refine ⟨false, ⟨some (.punct p), currval, parencnt, input⟩, ?_, rfl, nofun, fun _ => ?_⟩
          · unfold nextis
            exact if_neg htok
          · refine ⟨rfl, nofun, fun t ht hb => htok ?_⟩
            obtain rfl := Option.some.inj ht
            exact (Option.some.inj hb).symm
  | some t =>
    obtain ⟨t', rest, rfl, hbasic, hvalue, hrest⟩ : ∃ t' rest, ts = t' :: rest ∧
        t'.basic = some t ∧ (∀ v, t' = .constant v → currval = v) ∧ rest = input := by
      cases t with
      | cinteger => exact ⟨_, _, h, rfl, fun v hv => Tok.constant.inj hv, rfl⟩
      | punct p => exact ⟨_, _, h, rfl, nofun, rfl⟩
    by_cases htok : tok = t
    · refine ⟨true, ⟨none, currval, parencnt, input⟩, ?_, rfl, fun _ => ?_, nofun⟩
      · unfold nextis
        exact if_pos htok
      · exact ⟨_, _, rfl, by rw [hbasic, htok], hrest.symm, hvalue⟩
    · refine ⟨false, ⟨some t, currval, parencnt, input⟩, ?_, rfl, nofun, fun _ => ?_⟩
      · unfold nextis
        exact if_neg htok
      · refine ⟨h, nofun, fun t'' ht hb => htok ?_⟩
        obtain rfl := Option.some.inj ht
        exact (Option.some.inj (hbasic.symm.trans hb)).symm

theorem nextis_real (tok : Basic) {s : Lexer} {ts : List Tok} (h : Holds s ts)
    (hreal : ts.head? = some .real) : nextis tok s = .error .invalid s := by
  obtain ⟨currtok, currval, parencnt, input⟩ := s
  cases currtok with
  | none =>
    have hts : input = ts := h
    subst hts
    cases input with
    | nil => exact nomatch hreal
    | cons t input =>
      obtain rfl := Option.some.inj hreal
      rfl
  | some t =>
    cases t with
    | cinteger =>
      have hts : ts = .constant currval :: input := h
      rw [hts] at hreal
      exact nomatch hreal
    | punct p =>
      have hts : ts = .punct p :: input := h
      rw [hts] at hreal
      exact nomatch hreal

theorem nextis_post (tok : Basic) {s : Lexer} {ts : List Tok} (h : Holds s ts) :
    Post (nextis tok s) (Next tok s ts) := by
  by_cases hreal : ts.head? = some .real
  · rw [nextis_real tok h hreal]
    exact nofun
  · obtain ⟨b, s', hrun, hnext⟩ := nextis_spec tok h hreal
    rw [hrun]
    exact hnext

theorem Next.punct {p : Punct} {s s' : Lexer} {ts : List Tok}
    (h : Next (.punct p) s ts true s') : ∃ rest, ts = .punct p :: rest ∧ Holds s' rest := by
  obtain ⟨t, rest, rfl, hbasic, hholds, -⟩ := h.hit rfl
  cases t with
  | constant v => exact nomatch hbasic
  | real => exact nomatch hbasic
  | punct q =>
    obtain rfl := Basic.punct.inj (Option.some.inj hbasic)
    exact ⟨rest, rfl, hholds⟩

theorem Next.cinteger {s s' : Lexer} {ts : List Tok} (h : Next .cinteger s ts true s') :
    ∃ v rest, ts = .constant v :: rest ∧ Holds s' rest ∧ s'.Currval = v := by
  obtain ⟨t, rest, rfl, hbasic, hholds, hval⟩ := h.hit rfl
  cases t with
  | constant v => exact ⟨v, rest, rfl, hholds, hval v rfl⟩
  | real => exact nomatch hbasic
  | punct q => exact nomatch hbasic

/-- An expected token of punctuation is used up. -/
theorem nextis_punct {p : Punct} {s : Lexer} {rest : List Tok} (h : Holds s (.punct p :: rest)) :
    ∃ s', nextis (.punct p) s = .ok true s' ∧ Holds s' rest ∧ s'.Parencnt = s.Parencnt := by
  obtain ⟨b, s', hrun, hnext⟩ := nextis_spec (.punct p) h nofun
  cases b with
  | false =>
    obtain ⟨-, -, hmiss⟩ := hnext.miss rfl
    exact absurd rfl (hmiss _ rfl)
  | true =>
    obtain ⟨t, rest', heq, -, hholds, -⟩ := hnext.hit rfl
    obtain ⟨rfl, rfl⟩ := List.cons.inj heq
    exact ⟨s', hrun, hholds, hnext.parencnt⟩

theorem nextis_not {tok : Basic} {s : Lexer} {ts : List Tok} (h : Holds s ts)
    (hhead : ∀ t, ts.head? = some t → t ≠ .real ∧ t.basic ≠ some tok) :
    ∃ s', nextis tok s = .ok false s' ∧ Holds s' ts ∧ s'.Parencnt = s.Parencnt := by
  obtain ⟨b, s', hrun, hnext⟩ := nextis_spec tok h fun hreal => (hhead _ hreal).1 rfl
  cases b with
  | false =>
    obtain ⟨hholds, -, -⟩ := hnext.miss rfl
    exact ⟨s', hrun, hholds, hnext.parencnt⟩
  | true =>
    obtain ⟨t, rest, rfl, hbasic, -, -⟩ := hnext.hit rfl
    exact absurd hbasic (hhead t rfl).2

/-! ## Operators -/

theorem token_injective {o o' : BinOp} (h : o.token = o'.token) : o = o' := by
  cases o <;> cases o' <;> first | rfl | exact nomatch h

/-- What the search for an operator does. -/
structure NextOp (ops : List BinOp) (s : Lexer) (ts : List Tok) (found : Option BinOp)
    (s' : Lexer) : Prop where
  parencnt : s'.Parencnt = s.Parencnt
  none : found = none → Holds s' ts ∧ (ops ≠ [] ∨ Peeked s → Peeked s') ∧
    ∀ o ∈ ops, ts.head? ≠ some (.punct o.token)
  some : ∀ o, found = some o → o ∈ ops ∧ ∃ rest, ts = .punct o.token :: rest ∧ Holds s' rest

theorem nextOp_post (ops : List BinOp) {s : Lexer} {ts : List Tok} (h : Holds s ts) :
    Post (nextOp ops s) (NextOp ops s ts) := by
  induction ops generalizing s with
  | nil => exact ⟨rfl, fun _ => ⟨h, fun hp => hp.resolve_left fun hne => hne rfl, nofun⟩, nofun⟩
  | cons o ops ih =>
    rw [nextOp]
    refine (nextis_post (.punct o.token) h).bind fun b s₁ hnext => ?_
    cases b with
    | true =>
      obtain ⟨rest, hts, hholds⟩ := hnext.punct
      refine ⟨hnext.parencnt, nofun, fun o' ho' => ?_⟩
      obtain rfl := Option.some.inj ho'
      exact ⟨List.mem_cons_self, rest, hts, hholds⟩
    | false =>
      obtain ⟨hholds, hpeeked, hmiss⟩ := hnext.miss rfl
      refine (ih hholds).mono fun found s₂ hfound => ⟨?_, fun hnone => ?_, fun o' ho' => ?_⟩
      · exact hfound.parencnt.trans hnext.parencnt
      · obtain ⟨hholds₂, hpeeked₂, hother⟩ := hfound.none hnone
        refine ⟨hholds₂, fun _ => ?_, List.forall_mem_cons.mpr ⟨fun hhead => ?_, hother⟩⟩
        · exact hpeeked₂ (.inr hpeeked)
        · exact hmiss _ hhead rfl
      · obtain ⟨hmem, hrest⟩ := hfound.some o' ho'
        exact ⟨List.mem_cons_of_mem _ hmem, hrest⟩

theorem nextOp_token {ops : List BinOp} {o : BinOp} (ho : o ∈ ops) {s : Lexer} {rest : List Tok}
    (h : Holds s (.punct o.token :: rest)) :
    ∃ s', nextOp ops s = .ok (some o) s' ∧ Holds s' rest ∧ s'.Parencnt = s.Parencnt := by
  induction ops generalizing s with
  | nil => exact nomatch ho
  | cons o' ops ih =>
    rw [nextOp]
    by_cases heq : o' = o
    · subst heq
      obtain ⟨s', hrun, hholds, hparen⟩ := nextis_punct h
      exact ⟨s', by rw [bind_of_ok hrun]; rfl, hholds, hparen⟩
    · have hne : ∀ t, (Tok.punct o.token :: rest).head? = some t →
          t ≠ .real ∧ t.basic ≠ some (.punct o'.token) := by
        intro t ht
        obtain rfl := Option.some.inj ht
        exact ⟨nofun, fun hb => heq (token_injective
          (Basic.punct.inj (Option.some.inj hb)).symm)⟩
      obtain ⟨s₁, hrun, hholds, hparen⟩ := nextis_not h hne
      have hmem : o ∈ ops := (List.mem_cons.mp ho).resolve_left fun h => heq h.symm
      obtain ⟨s', hrun', hholds', hparen'⟩ := ih hmem hholds
      refine ⟨s', ?_, hholds', hparen'.trans hparen⟩
      rw [bind_of_ok hrun]
      exact hrun'

theorem nextOp_not {ops : List BinOp} {s : Lexer} {ts : List Tok} (h : Holds s ts)
    (hreal : ts.head? ≠ some .real) (hops : ∀ o ∈ ops, ts.head? ≠ some (.punct o.token)) :
    ∃ s', nextOp ops s = .ok none s' ∧ Holds s' ts ∧ s'.Parencnt = s.Parencnt := by
  induction ops generalizing s with
  | nil => exact ⟨s, rfl, h, rfl⟩
  | cons o ops ih =>
    obtain ⟨ho, hrest⟩ := List.forall_mem_cons.mp hops
    have hne : ∀ t, ts.head? = some t → t ≠ .real ∧ t.basic ≠ some (.punct o.token) := by
      intro t ht
      refine ⟨fun heq => hreal (heq ▸ ht), fun hb => ho ?_⟩
      cases t with
      | constant v => exact nomatch hb
      | real => exact nomatch hb
      | punct p =>
        obtain rfl := Basic.punct.inj (Option.some.inj hb)
        exact ht
    obtain ⟨s₁, hrun, hholds, hparen⟩ := nextis_not h hne
    obtain ⟨s', hrun', hholds', hparen'⟩ := ih hholds hrest
    refine ⟨s', ?_, hholds', hparen'.trans hparen⟩
    rw [nextOp, bind_of_ok hrun]
    exact hrun'

/-! ## Levels -/

/-- What follows does not continue an expression of level `p`. -/
structure Ends (p : Nat) (ts : List Tok) : Prop where
  real : ts.head? ≠ some .real
  quest : p = 0 → ts.head? ≠ some (.punct .quest)
  binary : ∀ o : BinOp, p ≤ o.level → ts.head? ≠ some (.punct o.token)

theorem Ends.mono {p q : Nat} {ts : List Tok} (h : Ends p ts) (hpq : p ≤ q) : Ends q ts :=
  ⟨h.real, fun hq => h.quest (by omega), fun o ho => h.binary o (hpq.trans ho)⟩

theorem ends_binary {p : Nat} {o : BinOp} (ho : o.level < p) (ts : List Tok) :
    Ends p (.punct o.token :: ts) := by
  refine ⟨nofun, fun hp => by omega, fun o' ho' heq => ?_⟩
  obtain rfl := token_injective (Tok.punct.inj (Option.some.inj heq))
  omega

/-- Tokens that are no operators end every expression. -/
theorem ends_other {p : Nat} {t : Punct} (hquest : p = 0 → t ≠ .quest)
    (ht : ∀ o : BinOp, t ≠ o.token) (ts : List Tok) : Ends p (.punct t :: ts) :=
  ⟨nofun, fun hp heq => hquest hp (Tok.punct.inj (Option.some.inj heq)),
    fun o _ heq => ht o (Tok.punct.inj (Option.some.inj heq))⟩

theorem exists_level {p : Nat} (hpos : p ≠ 0) (hp : p ≤ 10) : ∃ o : BinOp, o.level = p := by
  have hall : ∀ q : Fin 11, q.val ≠ 0 → ∃ o ∈ [BinOp.oror, .andand, .or, .xor, .and, .equals, .lt,
      .rshift, .plus, .mult], o.level = q.val := by decide
  obtain ⟨o, -, ho⟩ := hall ⟨p, by omega⟩ hpos
  exact ⟨o, ho⟩

/-- An expression of a level of binary operators is one of the next level, or has an
operator of its level. -/
theorem Grammar.inv {short : Bool} {p : Nat} {e : Ast} (h : Grammar short p e) (hpos : p ≠ 0)
    (hp : p ≤ 10) :
    Grammar short (p + 1) e ∨ ∃ o l r, e = .binary o l r ∧ o.level = p ∧
      Grammar short (if repeats p then p else p + 1) l ∧ Grammar short (p + 1) r := by
  cases h with
  | int v => omega
  | paren h => omega
  | unary ho h => omega
  | binary hl hr => exact .inr ⟨_, _, _, rfl, rfl, hl, hr⟩
  | cond hc ha hb => exact absurd rfl hpos
  | short hshort hc ha => exact absurd rfl hpos
  | up h => exact .inl h

theorem BinOp.level_le (o : BinOp) : o.level ≤ 10 := by
  cases o <;> decide

theorem Grammar.le {short : Bool} {p : Nat} {e : Ast} (h : Grammar short p e) : p ≤ 12 := by
  induction h with
  | binary hl hr => exact (BinOp.level_le _).trans (by omega)
  | up h ih => omega
  | _ => omega

theorem Grammar.primary {short : Bool} {e : Ast} (h : Grammar short 12 e) :
    (∃ v, e = .int v) ∨ ∃ e', e = .paren e' ∧ Grammar short 0 e' := by
  generalize hp : 12 = p at h
  cases h with
  | int v => exact .inl ⟨v, rfl⟩
  | paren h => exact .inr ⟨_, rfl, h⟩
  | binary hl hr =>
    have hle := BinOp.level_le ‹_›
    omega
  | up h =>
    have hle := h.le
    omega
  | _ => omega

theorem Grammar.prefixed {short : Bool} {e : Ast} (h : Grammar short 11 e) :
    Grammar short 12 e ∨ ∃ o e', e = .unary o e' ∧ o ≠ .pos ∧ Grammar short 12 e' := by
  generalize hp : 11 = p at h
  cases h with
  | unary ho h => exact .inr ⟨_, _, rfl, ho, h⟩
  | binary hl hr =>
    have hle := BinOp.level_le ‹_›
    omega
  | up h =>
    subst hp
    exact .inl h
  | _ => omega

theorem BinOp.level_ne_zero (o : BinOp) : o.level ≠ 0 := by
  cases o <;> decide

theorem Grammar.conditional {short : Bool} {e : Ast} (h : Grammar short 0 e) :
    Grammar short 1 e ∨
      (∃ c a b, e = .cond c a b ∧ Grammar short 1 c ∧ Grammar short 1 a ∧ Grammar short 1 b) ∨
      ∃ c a, e = .short c a ∧ short = true ∧ Grammar short 1 c ∧ Grammar short 1 a := by
  generalize hp : 0 = p at h
  cases h with
  | cond hc ha hb => exact .inr (.inl ⟨_, _, _, rfl, hc, ha, hb⟩)
  | short hshort hc ha => exact .inr (.inr ⟨_, _, rfl, hshort, hc, ha⟩)
  | binary hl hr => exact absurd hp.symm (BinOp.level_ne_zero _)
  | up h =>
    subst hp
    exact .inl h
  | _ => omega

section

variable (undefined : BinOp → LONG → LONG → LONG) (uninitialised : LONG)

/-- The program has read an expression of level `p`. -/
def HasRead (p : Nat) (s : Lexer) (ts : List Tok) (v : LONG) (s' : Lexer) : Prop :=
  ∃ e rest, Grammar true p e ∧ ts = e.yield ++ rest ∧ e.value undefined uninitialised = v ∧
    Holds s' rest ∧ s'.Parencnt = s.Parencnt ∧ (p ≤ 10 → Peeked s')

/-- On fewer than `n` tokens the program reads the expressions of level `p`. -/
structure Parses (p n : Nat) (m : Parser LONG) : Prop where
  complete : ∀ {e : Ast} {rest : List Tok} {s : Lexer}, Grammar false p e → Ends p rest →
    Holds s (e.yield ++ rest) → (e.yield ++ rest).length < n →
      ∃ s', m s = .ok (e.value undefined uninitialised) s' ∧ Holds s' rest ∧
        s'.Parencnt = s.Parencnt
  sound : ∀ {s : Lexer} {ts : List Tok}, Holds s ts → ts.length < n →
    Post (m s) (HasRead undefined uninitialised p s ts)

variable {undefined uninitialised} {p n : Nat} {ops : List BinOp} {next : Parser LONG}

section Level

variable (hpos : p ≠ 0) (hp : p ≤ 10) (hops : ∀ o, o ∈ ops ↔ o.level = p)
  (hnext : Parses undefined uninitialised (p + 1) n next)

theorem ends_ops {rest : List Tok} (hops : ∀ o, o ∈ ops ↔ o.level = p) (h : Ends p rest) :
    ∀ o ∈ ops, rest.head? ≠ some (.punct o.token) := fun o ho =>
  h.binary o (Nat.le_of_eq ((hops o).mp ho).symm)

include hnext in
theorem repeated_next {e : Ast} {rest : List Tok} {s : Lexer} (he : Grammar false (p + 1) e)
    (hrest : Ends (p + 1) rest) (h : Holds s (e.yield ++ rest))
    (hlen : (e.yield ++ rest).length < n) :
    ∃ m s', repeated undefined n ops next s =
        operands undefined ops next m (e.value undefined uninitialised) s' ∧
      Holds s' rest ∧ s'.Parencnt = s.Parencnt ∧ rest.length < m := by
  obtain ⟨s', hrun, hholds, hparen⟩ := hnext.complete he hrest h hlen
  rw [List.length_append] at hlen
  exact ⟨n, s', bind_of_ok hrun, hholds, hparen, by omega⟩

include hpos hp hops hnext

/-- The loop stands after the operands read so far. -/
theorem repeated_run (hrepeats : repeats p = true) {e : Ast} {rest : List Tok} {s : Lexer}
    (he : Grammar false p e) (hrest : Ends (p + 1) rest) (h : Holds s (e.yield ++ rest))
    (hlen : (e.yield ++ rest).length < n) :
    ∃ m s', repeated undefined n ops next s =
        operands undefined ops next m (e.value undefined uninitialised) s' ∧
      Holds s' rest ∧ s'.Parencnt = s.Parencnt ∧ rest.length < m := by
  induction e generalizing rest s with
  | binary o l r ihl _ =>
    rcases he.inv hpos hp with hup | ⟨o', l', r', heq, hlevel, hl, hr⟩
    · exact repeated_next hnext hup hrest h hlen
    · obtain ⟨rfl, rfl, rfl⟩ := Ast.binary.inj heq
      rw [if_pos hrepeats] at hl
      have hyield : (Ast.binary o l r).yield ++ rest =
          l.yield ++ .punct o.token :: (r.yield ++ rest) := by
        rw [Ast.yield, List.append_assoc, List.cons_append]
      rw [hyield] at h hlen
      obtain ⟨m, s₁, hrun, hholds, hparen, hm⟩ :=
        ihl hl (ends_binary (by omega) _) h hlen
      rw [List.length_append, List.length_cons] at hlen
      rw [List.length_cons] at hm
      obtain ⟨m, rfl⟩ := Nat.exists_eq_succ_of_ne_zero (show m ≠ 0 by omega)
      obtain ⟨s₂, hop, hholds₂, hparen₂⟩ := nextOp_token ((hops o).mpr hlevel) hholds
      obtain ⟨s₃, hread, hholds₃, hparen₃⟩ := hnext.complete hr hrest hholds₂ (by omega)
      refine ⟨m, s₃, ?_, hholds₃, hparen₃.trans (hparen₂.trans hparen), ?_⟩
      · rw [hrun, Nat.succ_eq_add_one, operands, bind_of_ok hop]
        dsimp only
        rw [bind_of_ok hread, apply_eq_value]
        rfl
      · rw [List.length_append] at hm
        omega
  | int v =>
    exact repeated_next hnext ((he.inv hpos hp).resolve_right fun ⟨_, _, _, heq, _⟩ =>
      nomatch heq) hrest h hlen
  | paren e _ =>
    exact repeated_next hnext ((he.inv hpos hp).resolve_right fun ⟨_, _, _, heq, _⟩ =>
      nomatch heq) hrest h hlen
  | unary o e _ =>
    exact repeated_next hnext ((he.inv hpos hp).resolve_right fun ⟨_, _, _, heq, _⟩ =>
      nomatch heq) hrest h hlen
  | cond c a b _ _ _ =>
    exact repeated_next hnext ((he.inv hpos hp).resolve_right fun ⟨_, _, _, heq, _⟩ =>
      nomatch heq) hrest h hlen
  | short c a _ _ =>
    exact repeated_next hnext ((he.inv hpos hp).resolve_right fun ⟨_, _, _, heq, _⟩ =>
      nomatch heq) hrest h hlen

/-- The loop reads on from an expression of the level. -/
theorem operands_post (hrepeats : repeats p = true) (m : Nat) (hm : m ≤ n) {e₀ : Ast}
    (he₀ : Grammar true p e₀) {s : Lexer} {ts : List Tok} (h : Holds s ts) (hlen : ts.length < m) :
    Post (operands undefined ops next m (e₀.value undefined uninitialised) s) fun v s' =>
      ∃ e rest, Grammar true p e ∧ e₀.yield ++ ts = e.yield ++ rest ∧
        e.value undefined uninitialised = v ∧ Holds s' rest ∧ s'.Parencnt = s.Parencnt ∧
          Peeked s' := by
  induction m generalizing e₀ s ts with
  | zero => omega
  | succ m ih =>
    obtain ⟨o₀, ho₀⟩ := exists_level hpos hp
    have hne : ops ≠ [] := List.ne_nil_of_mem ((hops o₀).mpr ho₀)
    rw [operands]
    refine (nextOp_post ops h).bind fun found s₁ hfound => ?_
    cases found with
    | none =>
      obtain ⟨hholds, hpeeked, -⟩ := hfound.none rfl
      exact ⟨e₀, ts, he₀, rfl, rfl, hholds, hfound.parencnt, hpeeked (.inl hne)⟩
    | some o =>
      obtain ⟨hmem, rest, rfl, hholds⟩ := hfound.some o rfl
      have hlevel := (hops o).mp hmem
      rw [List.length_cons] at hlen
      refine (hnext.sound hholds (by omega)).bind fun r s₂ hread => ?_
      obtain ⟨e, rest₂, he, rfl, rfl, hholds₂, hparen₂, -⟩ := hread
      subst hlevel
      have hbinary : Grammar true o.level (.binary o e₀ e) :=
        .binary (by rw [if_pos hrepeats]; exact he₀) he
      rw [List.length_append] at hlen
      have hloop := ih (by omega) hbinary hholds₂ (by omega)
      rw [Ast.value, ← apply_eq_value] at hloop
      refine hloop.mono fun v s₃ hv => ?_
      obtain ⟨e', rest', he', hts, hval, hholds', hparen', hpeeked⟩ := hv
      refine ⟨e', rest', he', ?_, hval, hholds', ?_, hpeeked⟩
      · rw [← hts, Ast.yield, List.append_assoc, List.cons_append]
      · exact hparen'.trans (hparen₂.trans hfound.parencnt)

theorem Parses.repeated (hrepeats : repeats p = true) :
    Parses undefined uninitialised p n (repeated undefined n ops next) where
  complete := by
    intro e rest s he hrest h hlen
    obtain ⟨m, s₁, hrun, hholds, hparen, hm⟩ :=
      repeated_run hpos hp hops hnext hrepeats he (hrest.mono (Nat.le_succ p)) h hlen
    obtain ⟨m, rfl⟩ := Nat.exists_eq_succ_of_ne_zero (show m ≠ 0 by omega)
    obtain ⟨s₂, hop, hholds₂, hparen₂⟩ := nextOp_not hholds hrest.real (ends_ops hops hrest)
    refine ⟨s₂, ?_, hholds₂, hparen₂.trans hparen⟩
    rw [hrun, Nat.succ_eq_add_one, operands, bind_of_ok hop]
    rfl
  sound := by
    intro s ts h hlen
    refine (hnext.sound h hlen).bind fun v s₁ hread => ?_
    obtain ⟨e₀, rest, he₀, rfl, rfl, hholds, hparen, -⟩ := hread
    rw [List.length_append] at hlen
    refine (operands_post hpos hp hops hnext hrepeats n (Nat.le_refl n) (.up he₀) hholds
      (by omega)).mono fun v s₂ hv => ?_
    obtain ⟨e, rest', he, hts, hval, hholds', hparen', hpeeked⟩ := hv
    exact ⟨e, rest', he, hts, hval, hholds', hparen'.trans hparen, fun _ => hpeeked⟩

theorem Parses.single (hsingle : repeats p = false) :
    Parses undefined uninitialised p n (single undefined ops next) where
  complete := by
    intro e rest s he hrest h hlen
    rcases he.inv hpos hp with hup | ⟨o, l, r, rfl, hlevel, hl, hr⟩
    · obtain ⟨s₁, hrun, hholds, hparen⟩ := hnext.complete hup (hrest.mono (Nat.le_succ p)) h hlen
      obtain ⟨s₂, hop, hholds₂, hparen₂⟩ := nextOp_not hholds hrest.real (ends_ops hops hrest)
      refine ⟨s₂, ?_, hholds₂, hparen₂.trans hparen⟩
      rw [Rc.single, bind_of_ok hrun, bind_of_ok hop]
      rfl
    · rw [if_neg (by rw [hsingle]; exact Bool.false_ne_true)] at hl
      have hyield : (Ast.binary o l r).yield ++ rest =
          l.yield ++ .punct o.token :: (r.yield ++ rest) := by
        rw [Ast.yield, List.append_assoc, List.cons_append]
      rw [hyield] at h hlen
      obtain ⟨s₁, hrun, hholds, hparen⟩ := hnext.complete hl (ends_binary (by omega) _) h hlen
      rw [List.length_append, List.length_cons] at hlen
      obtain ⟨s₂, hop, hholds₂, hparen₂⟩ := nextOp_token ((hops o).mpr hlevel) hholds
      obtain ⟨s₃, hread, hholds₃, hparen₃⟩ :=
        hnext.complete hr (hrest.mono (Nat.le_succ p)) hholds₂ (by omega)
      refine ⟨s₃, ?_, hholds₃, hparen₃.trans (hparen₂.trans hparen)⟩
      rw [Rc.single, bind_of_ok hrun, bind_of_ok hop]
      dsimp only
      rw [bind_of_ok hread, apply_eq_value]
      rfl
  sound := by
    intro s ts h hlen
    obtain ⟨o₀, ho₀⟩ := exists_level hpos hp
    have hne : ops ≠ [] := List.ne_nil_of_mem ((hops o₀).mpr ho₀)
    refine (hnext.sound h hlen).bind fun v s₁ hread => ?_
    obtain ⟨e₀, rest, he₀, rfl, rfl, hholds, hparen, -⟩ := hread
    rw [List.length_append] at hlen
    refine (nextOp_post ops hholds).bind fun found s₂ hfound => ?_
    cases found with
    | none =>
      obtain ⟨hholds₂, hpeeked, -⟩ := hfound.none rfl
      exact ⟨e₀, rest, .up he₀, rfl, rfl, hholds₂, hfound.parencnt.trans hparen,
        fun _ => hpeeked (.inl hne)⟩
    | some o =>
      obtain ⟨hmem, rest₂, rfl, hholds₂⟩ := hfound.some o rfl
      have hlevel := (hops o).mp hmem
      rw [List.length_cons] at hlen
      refine (hnext.sound hholds₂ (by omega)).bind fun r s₃ hread => ?_
      obtain ⟨e, rest₃, he, rfl, rfl, hholds₃, hparen₃, hpeeked⟩ := hread
      subst hlevel
      have hbinary : Grammar true o.level (.binary o e₀ e) :=
        .binary (by rw [if_neg (by rw [hsingle]; exact Bool.false_ne_true)]; exact he₀) he
      refine ⟨.binary o e₀ e, rest₃, hbinary, ?_, ?_, hholds₃, ?_, fun hle => hpeeked ?_⟩
      · rw [Ast.yield, List.append_assoc, List.cons_append]
      · rw [Ast.value, apply_eq_value]
      · exact hparen₃.trans (hfound.parencnt.trans hparen)
      · simp only [repeats, List.mem_cons, List.not_mem_nil, or_false, decide_eq_false_iff_not,
          not_not] at hsingle
        omega

end Level

/-! ## Primaries -/

theorem ends_rparen (p : Nat) (ts : List Tok) : Ends p (.punct .rparen :: ts) := by
  have hquest : Punct.rparen ≠ .quest := nofun
  exact ends_other (fun _ => hquest) (fun o => by cases o <;> exact nofun) ts

theorem Parses.constant {cexp : Parser LONG}
    (hc : Parses undefined uninitialised 0 (n - 1) cexp) :
    Parses undefined uninitialised 12 n (constant cexp) where
  complete := by
    intro e rest s he hrest h hlen
    rcases he.primary with ⟨v, rfl⟩ | ⟨e, rfl, he₀⟩
    · have hhead : ∀ t, (Tok.constant v :: rest).head? = some t →
          t ≠ .real ∧ t.basic ≠ some (.punct .lparen) := by
        intro t ht
        obtain rfl := Option.some.inj ht
        exact ⟨nofun, nofun⟩
      obtain ⟨s₁, hrun, hholds, hparen⟩ := nextis_not h hhead
      obtain ⟨b, s₂, hrun₂, hnext⟩ := nextis_spec .cinteger hholds nofun
      cases b with
      | false => exact absurd rfl ((hnext.miss rfl).2.2 _ rfl)
      | true =>
        obtain ⟨v', rest', heq, hholds₂, hval⟩ := hnext.cinteger
        obtain ⟨hv, rfl⟩ := List.cons.inj heq
        obtain rfl := Tok.constant.inj hv
        refine ⟨s₂, ?_, hholds₂, hnext.parencnt.trans hparen⟩
        rw [Rc.constant, bind_of_ok hrun]
        simp only [Bool.false_eq_true, if_false]
        rw [bind_of_ok hrun₂]
        exact congrArg (fun v => EStateM.Result.ok v s₂) hval
    · have hyield : (Ast.paren e).yield ++ rest =
          .punct .lparen :: (e.yield ++ .punct .rparen :: rest) := by
        rw [Ast.yield, List.cons_append, List.append_assoc, List.singleton_append]
      rw [hyield] at h hlen
      rw [List.length_cons] at hlen
      obtain ⟨s₁, hrun, hholds, hparen⟩ := nextis_punct h
      have hopen : Holds ⟨s₁.Currtok, s₁.Currval, s₁.Parencnt + 1, s₁.input⟩
          (e.yield ++ .punct .rparen :: rest) := hholds
      have hmodify : (modify fun s : Lexer => ⟨s.Currtok, s.Currval, s.Parencnt + 1, s.input⟩ :
          Parser PUnit) s₁ = .ok () ⟨s₁.Currtok, s₁.Currval, s₁.Parencnt + 1, s₁.input⟩ := rfl
      obtain ⟨s₂, hrun₂, hholds₂, hparen₂⟩ :=
        hc.complete he₀ (ends_rparen 0 rest) hopen (by omega)
      obtain ⟨s₃, hrun₃, hholds₃, hparen₃⟩ := nextis_punct hholds₂
      refine ⟨⟨s₃.Currtok, s₃.Currval, s₃.Parencnt - 1, s₃.input⟩, ?_, hholds₃, ?_⟩
      · rw [Rc.constant, bind_of_ok hrun]
        simp only [if_true]
        rw [bind_of_ok hmodify, bind_of_ok hrun₂, bind_of_ok hrun₃]
        rfl
      · show s₃.Parencnt - 1 = s.Parencnt
        rw [hparen₃, hparen₂, hparen]
        exact Int.add_sub_cancel s.Parencnt 1
  sound := by
    intro s ts h hlen
    refine (nextis_post (.punct .lparen) h).bind fun b s₁ hnext => ?_
    cases b with
    | true =>
      obtain ⟨rest, rfl, hholds⟩ := hnext.punct
      rw [List.length_cons] at hlen
      have hopen : Holds ⟨s₁.Currtok, s₁.Currval, s₁.Parencnt + 1, s₁.input⟩ rest := hholds
      refine (hc.sound hopen (by omega)).bind fun v s₂ hread => ?_
      obtain ⟨e, rest₂, he, rfl, rfl, hholds₂, hparen₂, -⟩ := hread
      refine (nextis_post (.punct .rparen) hholds₂).bind fun b s₃ hnext₃ => ?_
      cases b with
      | true =>
        obtain ⟨rest₃, rfl, hholds₃⟩ := hnext₃.punct
        refine ⟨.paren e, rest₃, .paren he, ?_, rfl, hholds₃, ?_, by omega⟩
        · rw [Ast.yield, List.cons_append, List.append_assoc, List.singleton_append]
        · show s₃.Parencnt - 1 = s.Parencnt
          rw [hnext₃.parencnt, hparen₂, hnext.parencnt]
          exact Int.add_sub_cancel s.Parencnt 1
      | false => exact nofun
    | false =>
      obtain ⟨hholds, -, -⟩ := hnext.miss rfl
      refine (nextis_post .cinteger hholds).bind fun b s₂ hnext₂ => ?_
      cases b with
      | true =>
        obtain ⟨v, rest, rfl, hholds₂, hval⟩ := hnext₂.cinteger
        exact ⟨.int v, rest, .int v, rfl, hval.symm, hholds₂,
          hnext₂.parencnt.trans hnext.parencnt, by omega⟩
      | false => exact nofun

/-- A primary starts with no unary operator. -/
theorem primary_head {e : Ast} (he : Grammar false 12 e) (rest : List Tok) (p : Punct)
    (hp : p ≠ .lparen) :
    ∀ t, (e.yield ++ rest).head? = some t → t ≠ .real ∧ t.basic ≠ some (.punct p) := by
  intro t ht
  rcases he.primary with ⟨v, rfl⟩ | ⟨e, rfl, he⟩
  · obtain rfl := Option.some.inj ht
    exact ⟨nofun, nofun⟩
  · obtain rfl := Option.some.inj ht
    exact ⟨nofun, fun hb => hp (Basic.punct.inj (Option.some.inj hb)).symm⟩

theorem ofBool_eq_value (a : LONG) : ofBool (a = 0) = UnOp.not.value a := by
  unfold UnOp.value
  simp only [zero_iff]

theorem Parses.prim {cexp : Parser LONG}
    (hc : Parses undefined uninitialised 12 n (Rc.constant cexp)) :
    Parses undefined uninitialised 11 n (prim cexp) where
  complete := by
    intro e rest s he hrest h hlen
    have hrest₂ := hrest.mono (Nat.le_succ 11)
    rcases he.prefixed with he | ⟨o, e, rfl, ho, he₀⟩
    · obtain ⟨s₁, hrun₁, hholds₁, hparen₁⟩ := nextis_not h (primary_head he rest .exclaim nofun)
      obtain ⟨s₂, hrun₂, hholds₂, hparen₂⟩ := nextis_not hholds₁ (primary_head he rest .tilde nofun)
      obtain ⟨s₃, hrun₃, hholds₃, hparen₃⟩ := nextis_not hholds₂ (primary_head he rest .minus nofun)
      obtain ⟨s₄, hrun₄, hholds₄, hparen₄⟩ := hc.complete he hrest₂ hholds₃ hlen
      refine ⟨s₄, ?_, hholds₄, hparen₄.trans (hparen₃.trans (hparen₂.trans hparen₁))⟩
      rw [Rc.prim, bind_of_ok hrun₁]
      simp only [Bool.false_eq_true, if_false]
      rw [bind_of_ok hrun₂]
      simp only [Bool.false_eq_true, if_false]
      rw [bind_of_ok hrun₃]
      simp only [Bool.false_eq_true, if_false]
      exact hrun₄
    · have hyield : (Ast.unary o e).yield ++ rest = .punct o.token :: (e.yield ++ rest) := rfl
      rw [hyield] at h hlen
      rw [List.length_cons] at hlen
      have hother (p : Punct) (hp : o.token ≠ p) : ∀ t,
          (Tok.punct o.token :: (e.yield ++ rest)).head? = some t →
            t ≠ .real ∧ t.basic ≠ some (.punct p) := by
        intro t ht
        obtain rfl := Option.some.inj ht
        exact ⟨nofun, fun hb => hp (Basic.punct.inj (Option.some.inj hb))⟩
      cases o with
      | pos => exact absurd rfl ho
      | not =>
        obtain ⟨s₁, hrun₁, hholds₁, hparen₁⟩ := @nextis_punct .exclaim _ _ h
        obtain ⟨s₂, hrun₂, hholds₂, hparen₂⟩ := hc.complete he₀ hrest₂ hholds₁ (by omega)
        refine ⟨s₂, ?_, hholds₂, hparen₂.trans hparen₁⟩
        rw [Rc.prim, bind_of_ok hrun₁]
        simp only [if_true]
        rw [bind_of_ok hrun₂, ofBool_eq_value]
        rfl
      | compl =>
        obtain ⟨s₁, hrun₁, hholds₁, hparen₁⟩ := nextis_not h (hother .exclaim nofun)
        obtain ⟨s₂, hrun₂, hholds₂, hparen₂⟩ := @nextis_punct .tilde _ _ hholds₁
        obtain ⟨s₃, hrun₃, hholds₃, hparen₃⟩ := hc.complete he₀ hrest₂ hholds₂ (by omega)
        refine ⟨s₃, ?_, hholds₃, hparen₃.trans (hparen₂.trans hparen₁)⟩
        rw [Rc.prim, bind_of_ok hrun₁]
        simp only [Bool.false_eq_true, if_false]
        rw [bind_of_ok hrun₂]
        simp only [if_true]
        rw [bind_of_ok hrun₃, compl_value]
        rfl
      | neg =>
        obtain ⟨s₁, hrun₁, hholds₁, hparen₁⟩ := nextis_not h (hother .exclaim nofun)
        obtain ⟨s₂, hrun₂, hholds₂, hparen₂⟩ := nextis_not hholds₁ (hother .tilde nofun)
        obtain ⟨s₃, hrun₃, hholds₃, hparen₃⟩ := @nextis_punct .minus _ _ hholds₂
        obtain ⟨s₄, hrun₄, hholds₄, hparen₄⟩ := hc.complete he₀ hrest₂ hholds₃ (by omega)
        refine ⟨s₄, ?_, hholds₄, hparen₄.trans (hparen₃.trans (hparen₂.trans hparen₁))⟩
        rw [Rc.prim, bind_of_ok hrun₁]
        simp only [Bool.false_eq_true, if_false]
        rw [bind_of_ok hrun₂]
        simp only [Bool.false_eq_true, if_false]
        rw [bind_of_ok hrun₃]
        simp only [if_true]
        rw [bind_of_ok hrun₄, neg_value]
        rfl
  sound := by
    -- an operator that is there, and the primary after it
    have hunary (o : UnOp) (ho : o ≠ .pos) {s s₁ : Lexer} {ts : List Tok} (f : LONG → LONG)
        (hf : ∀ v, f v = o.value v) (hlen : ts.length < n)
        (hnext : Next (.punct o.token) s ts true s₁) :
        Post ((Rc.constant cexp >>= fun val => pure (f val)) s₁)
          (HasRead undefined uninitialised 11 s ts) := by
      obtain ⟨rest, rfl, hholds⟩ := hnext.punct
      rw [List.length_cons] at hlen
      refine (hc.sound hholds (by omega)).bind fun v s₂ hread => ?_
      obtain ⟨e, rest₂, he, rfl, rfl, hholds₂, hparen₂, -⟩ := hread
      exact ⟨.unary o e, rest₂, .unary ho he, rfl, (hf _).symm, hholds₂,
        hparen₂.trans hnext.parencnt, by omega⟩
    intro s ts h hlen
    refine (nextis_post (.punct .exclaim) h).bind fun b s₁ hnext₁ => ?_
    cases b with
    | true => exact hunary .not nofun _ ofBool_eq_value hlen hnext₁
    | false =>
      obtain ⟨hholds₁, -, -⟩ := hnext₁.miss rfl
      refine (nextis_post (.punct .tilde) hholds₁).bind fun b s₂ hnext₂ => ?_
      cases b with
      | true =>
        refine (hunary .compl nofun _ compl_value hlen hnext₂).mono fun v s' hread => ?_
        obtain ⟨e, rest, he, hts, hval, hholds, hparen, hpeeked⟩ := hread
        exact ⟨e, rest, he, hts, hval, hholds, hparen.trans hnext₁.parencnt, hpeeked⟩
      | false =>
        obtain ⟨hholds₂, -, -⟩ := hnext₂.miss rfl
        refine (nextis_post (.punct .minus) hholds₂).bind fun b s₃ hnext₃ => ?_
        have hsame : s₂.Parencnt = s.Parencnt := hnext₂.parencnt.trans hnext₁.parencnt
        cases b with
        | true =>
          refine (hunary .neg nofun _ neg_value hlen hnext₃).mono fun v s' hread => ?_
          obtain ⟨e, rest, he, hts, hval, hholds, hparen, hpeeked⟩ := hread
          exact ⟨e, rest, he, hts, hval, hholds, hparen.trans hsame, hpeeked⟩
        | false =>
          obtain ⟨hholds₃, -, -⟩ := hnext₃.miss rfl
          refine (hc.sound hholds₃ hlen).mono fun v s' hread => ?_
          obtain ⟨e, rest, he, hts, hval, hholds, hparen, -⟩ := hread
          exact ⟨e, rest, .up he, hts, hval, hholds,
            hparen.trans (hnext₃.parencnt.trans hsame), by omega⟩

/-! ## The whole expression -/

/-- The levels from the primaries up. -/
theorem Parses.orelse {cexp : Parser LONG}
    (hc : Parses undefined uninitialised 0 (n - 1) cexp) :
    Parses undefined uninitialised 1 n (orelse undefined n cexp) := by
  have hprim := hc.constant.prim
  have hmult : Parses undefined uninitialised 10 n (mult undefined n cexp) :=
    .repeated (by decide) (by decide) (fun o => by cases o <;> decide) hprim rfl
  have hplus : Parses undefined uninitialised 9 n (plus undefined n cexp) :=
    .repeated (by decide) (by decide) (fun o => by cases o <;> decide) hmult rfl
  have hshift : Parses undefined uninitialised 8 n (shift undefined n cexp) :=
    .single (by decide) (by decide) (fun o => by cases o <;> decide) hplus rfl
  have hrelation : Parses undefined uninitialised 7 n (relation undefined n cexp) :=
    .single (by decide) (by decide) (fun o => by cases o <;> decide) hshift rfl
  have heqset : Parses undefined uninitialised 6 n (eqset undefined n cexp) :=
    .single (by decide) (by decide) (fun o => by cases o <;> decide) hrelation rfl
  have hand : Parses undefined uninitialised 5 n (Rc.and undefined n cexp) :=
    .repeated (by decide) (by decide) (fun o => by cases o <;> decide) heqset rfl
  have hxor : Parses undefined uninitialised 4 n (Rc.xor undefined n cexp) :=
    .repeated (by decide) (by decide) (fun o => by cases o <;> decide) hand rfl
  have hor : Parses undefined uninitialised 3 n (Rc.or undefined n cexp) :=
    .repeated (by decide) (by decide) (fun o => by cases o <;> decide) hxor rfl
  have handif : Parses undefined uninitialised 2 n (andif undefined n cexp) :=
    .repeated (by decide) (by decide) (fun o => by cases o <;> decide) hor rfl
  exact .repeated (by decide) (by decide) (fun o => by cases o <;> decide) handif rfl

theorem ends_quest (ts : List Tok) : Ends 1 (.punct .quest :: ts) :=
  @ends_other 1 .quest (fun h => absurd h Nat.one_ne_zero) (fun o => by cases o <;> exact nofun) ts

theorem ends_colon (ts : List Tok) : Ends 1 (.punct .colon :: ts) :=
  @ends_other 1 .colon (fun h => absurd h Nat.one_ne_zero) (fun o => by cases o <;> exact nofun) ts

theorem Parses.constexpr (n : Nat) :
    Parses undefined uninitialised 0 (n - 1) (constexpr undefined uninitialised n) := by
  induction n with
  | zero =>
    exact ⟨fun _ _ _ hlen => absurd hlen (Nat.not_lt_zero _),
      fun _ hlen => absurd hlen (Nat.not_lt_zero _)⟩
  | succ n ih =>
    have horelse := ih.orelse
    refine ⟨?_, ?_⟩
    · intro e rest s he hrest h hlen
      rw [Nat.add_sub_cancel] at hlen
      have hrest₁ := hrest.mono (Nat.zero_le 1)
      rcases he.conditional with he₁ | ⟨c, a, b, rfl, hc, ha, hb⟩ | ⟨c, a, rfl, hshort, -, -⟩
      · obtain ⟨s₁, hrun₁, hholds₁, hparen₁⟩ := horelse.complete he₁ hrest₁ h hlen
        have hquest : ∀ t, rest.head? = some t → t ≠ .real ∧ t.basic ≠ some (.punct .quest) := by
          intro t ht
          refine ⟨fun heq => hrest.real (heq ▸ ht), fun hb => hrest.quest rfl ?_⟩
          cases t with
          | constant v => exact nomatch hb
          | real => exact nomatch hb
          | punct p =>
            obtain rfl := Basic.punct.inj (Option.some.inj hb)
            exact ht
        obtain ⟨s₂, hrun₂, hholds₂, hparen₂⟩ := nextis_not hholds₁ hquest
        refine ⟨s₂, ?_, hholds₂, hparen₂.trans hparen₁⟩
        rw [Rc.constexpr, bind_of_ok hrun₁, bind_of_ok hrun₂]
        rfl
      · have hyield : (Ast.cond c a b).yield ++ rest = c.yield ++ .punct .quest ::
            (a.yield ++ .punct .colon :: (b.yield ++ rest)) := by
          simp only [Ast.yield, List.append_assoc, List.cons_append]
        rw [hyield] at h hlen
        obtain ⟨s₁, hrun₁, hholds₁, hparen₁⟩ := horelse.complete hc (ends_quest _) h hlen
        rw [List.length_append, List.length_cons] at hlen
        obtain ⟨s₂, hrun₂, hholds₂, hparen₂⟩ := nextis_punct hholds₁
        obtain ⟨s₃, hrun₃, hholds₃, hparen₃⟩ :=
          horelse.complete ha (ends_colon _) hholds₂ (by omega)
        rw [List.length_append, List.length_cons] at hlen
        obtain ⟨s₄, hrun₄, hholds₄, hparen₄⟩ := nextis_punct hholds₃
        obtain ⟨s₅, hrun₅, hholds₅, hparen₅⟩ := horelse.complete hb hrest₁ hholds₄ (by omega)
        refine ⟨s₅, ?_, hholds₅,
          hparen₅.trans (hparen₄.trans (hparen₃.trans (hparen₂.trans hparen₁)))⟩
        rw [Rc.constexpr, bind_of_ok hrun₁, bind_of_ok hrun₂]
        simp only [if_true]
        rw [bind_of_ok hrun₃, bind_of_ok hrun₄]
        simp only [if_true]
        rw [bind_of_ok hrun₅]
        rfl
      · exact nomatch hshort
    · intro s ts h hlen
      rw [Nat.add_sub_cancel] at hlen
      refine (horelse.sound h hlen).bind fun v s₁ hread => ?_
      obtain ⟨c, rest, hc, rfl, rfl, hholds, hparen, -⟩ := hread
      rw [List.length_append] at hlen
      refine (nextis_post (.punct .quest) hholds).bind fun b s₂ hnext => ?_
      cases b with
      | false =>
        obtain ⟨hholds₂, hpeeked, -⟩ := hnext.miss rfl
        exact ⟨c, rest, .up hc, rfl, rfl, hholds₂, hnext.parencnt.trans hparen, fun _ => hpeeked⟩
      | true =>
        obtain ⟨rest₂, rfl, hholds₂⟩ := hnext.punct
        rw [List.length_cons] at hlen
        refine (horelse.sound hholds₂ (by omega)).bind fun v₁ s₃ hread₁ => ?_
        obtain ⟨a, rest₃, ha, rfl, rfl, hholds₃, hparen₃, -⟩ := hread₁
        rw [List.length_append] at hlen
        refine (nextis_post (.punct .colon) hholds₃).bind fun b s₄ hnext₄ => ?_
        have hsame : s₄.Parencnt = s.Parencnt :=
          hnext₄.parencnt.trans (hparen₃.trans (hnext.parencnt.trans hparen))
        cases b with
        | false =>
          obtain ⟨hholds₄, hpeeked, -⟩ := hnext₄.miss rfl
          refine ⟨.short c a, rest₃, .short rfl hc ha, ?_, rfl, hholds₄, hsame, fun _ => hpeeked⟩
          simp only [Ast.yield, List.append_assoc, List.cons_append]
        | true =>
          obtain ⟨rest₄, rfl, hholds₄⟩ := hnext₄.punct
          rw [List.length_cons] at hlen
          refine (horelse.sound hholds₄ (by omega)).bind fun v₂ s₅ hread₂ => ?_
          obtain ⟨b, rest₅, hb, rfl, rfl, hholds₅, hparen₅, hpeeked⟩ := hread₂
          refine ⟨.cond c a b, rest₅, .cond hc ha hb, ?_, rfl, hholds₅, hparen₅.trans hsame,
            fun _ => hpeeked (by omega)⟩
          simp only [Ast.yield, List.append_assoc, List.cons_append]

end

/-- `do_constexpr` gives every expression of its grammar the value it has in C, without a
warning; and what it gives a value without a warning is such an expression, or lacks the
last part of a conditional. -/
theorem do_constexpr_grammar (undefined : BinOp → LONG → LONG → LONG) (uninitialised : LONG) :
    (∀ e, Grammar false 0 e →
      doConstexpr undefined uninitialised e.yield = .ok (e.value undefined uninitialised, false)) ∧
    ∀ ts v, doConstexpr undefined uninitialised ts = .ok (v, false) →
      ∃ e, Grammar true 0 e ∧ e.yield = ts ∧ e.value undefined uninitialised = v := by
  constructor
  · intro e he
    have hparses := @Parses.constexpr undefined uninitialised (e.yield.length + 2)
    have hends : Ends 0 [] := ⟨nofun, fun _ => nofun, fun _ _ => nofun⟩
    have hstart : Holds ⟨none, 0, 0, e.yield⟩ (e.yield ++ []) := (List.append_nil _).symm
    obtain ⟨s', hrun, hholds, hparen⟩ := hparses.complete he hends hstart (by
      rw [List.append_nil]
      omega)
    have hcurr : s'.Currtok = none := by
      unfold Holds at hholds
      split at hholds
      · assumption
      · exact nomatch hholds
      · exact nomatch hholds
    have hzero : s'.Parencnt = 0 := hparen
    unfold doConstexpr
    simp only [hrun, hcurr, hzero]
    rfl
  · intro ts v hval
    have hparses := @Parses.constexpr undefined uninitialised (ts.length + 2)
    have hstart : Holds ⟨none, 0, 0, ts⟩ ts := rfl
    have hpost := hparses.sound hstart (by omega)
    unfold doConstexpr at hval
    split at hval
    · exact nomatch hval
    · rename_i v' s' hrun
      obtain ⟨e, rest, he, rfl, rfl, hholds, hparen, hpeeked⟩ := hpost.of_ok hrun
      have hzero : s'.Parencnt = 0 := hparen
      have hpeek := hpeeked (by omega)
      split at hval
      · exact nomatch hval
      · rw [if_neg (by omega)] at hval
        obtain ⟨hv, hcurr⟩ := Prod.mk.inj (Except.ok.inj hval)
        have hnone : s'.Currtok = none := of_decide_eq_false hcurr |> Decidable.not_not.mp
        have hempty : rest = [] := by
          unfold Holds at hholds
          rw [hnone] at hholds
          exact hholds.symm.trans (hpeek hnone)
        exact ⟨e, he, by rw [hempty, List.append_nil], hv⟩

theorem Grammar.down {short : Bool} {p : Nat} {e : Ast} (h : Grammar short p e) :
    Grammar short 0 e := by
  induction p with
  | zero => exact h
  | succ p ih => exact ih h.up

theorem CGrammar.down {p : Nat} {e : Ast} (h : CGrammar p e) : CGrammar 0 e := by
  induction p with
  | zero => exact h
  | succ p ih => exact ih h.up

/-- `7 - 2 - 1` -/
theorem do_constexpr_grammar_minus :
    doConstexpr (fun _ _ _ => 0) 0 [.constant 7, .punct .minus, .constant 2, .punct .minus,
      .constant 1] = .ok (4, false) := by
  have hseven : Grammar false 9 (.int 7) := .up (.up (.up (.int 7)))
  have hone (v : LONG) : Grammar false 10 (.int v) := .up (.up (.int v))
  have hfive : Grammar false 9 (.binary .minus (.int 7) (.int 2)) :=
    @Grammar.binary false .minus _ _ hseven (hone 2)
  have hfour : Grammar false 9 (.binary .minus (.binary .minus (.int 7) (.int 2)) (.int 1)) :=
    @Grammar.binary false .minus _ _ hfive (hone 1)
  have hval := (do_constexpr_grammar (fun _ _ _ => 0) 0).1 _ hfour.down
  have hvalue : Ast.value (fun _ _ _ => 0) 0
      (.binary .minus (.binary .minus (.int 7) (.int 2)) (.int 1)) = 4 := by decide
  rw [hvalue] at hval
  exact hval

/-- A repeated unary operator is an error. -/
theorem repeated_unary_rejected :
    ¬ ∀ (undefined : BinOp → LONG → LONG → LONG) (uninitialised : LONG) (e : Ast), CGrammar 0 e →
      doConstexpr undefined uninitialised e.yield =
        .ok (e.value undefined uninitialised, false) := by
  intro h
  have hnot : CGrammar 11 (.unary .not (.unary .not (.int 1))) := .unary (.unary (.up (.int 1)))
  have hval := h (fun _ _ _ => 0) 0 _ hnot.down
  have hreject : doConstexpr (fun _ _ _ => 0) 0
      (Ast.unary .not (.unary .not (.int 1))).yield = .error .invalid := rfl
  exact nomatch hreject.symm.trans hval

end SdkTools.Rc
