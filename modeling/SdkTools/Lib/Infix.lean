import Mathlib.Data.List.Basic

/-!
# Infix expressions with precedences

Expressions of operands, binary operators that associate to the left, at most one
unary operator before each primary, and parentheses. `Derives` is their grammar
with one level for each precedence; `scan` recognises the same token lists by
looking at neighbouring tokens and counting parentheses. Nothing here refers to a
particular language.
-/

namespace SdkTools.Lib.Infix

set_option autoImplicit false

universe u v w

inductive Tok (α : Type u) (β : Type v) (γ : Type w) where
  | operand (a : α)
  | binary (b : β)
  | unary (c : γ)
  | leftParen
  | rightParen
deriving DecidableEq, Repr

inductive Expr (α : Type u) (β : Type v) (γ : Type w) where
  | operand (a : α)
  | binary (b : β) (l r : Expr α β γ)
  | unary (c : γ) (e : Expr α β γ)
  | paren (e : Expr α β γ)
deriving DecidableEq, Repr

variable {α : Type u} {β : Type v} {γ : Type w}

/-- The tokens `ts` are the expression `e` at level `p`: binary operators have the
levels below `top`, unary operators have level `top`, primaries the one above. -/
inductive Derives (prec : β → Nat) (top : Nat) : Nat → List (Tok α β γ) → Expr α β γ → Prop where
  | operand (a : α) : Derives prec top (top + 1) [.operand a] (.operand a)
  | paren {ts : List (Tok α β γ)} {e : Expr α β γ} (h : Derives prec top 1 ts e) :
      Derives prec top (top + 1) (.leftParen :: (ts ++ [.rightParen])) (.paren e)
  | unary (c : γ) {ts : List (Tok α β γ)} {e : Expr α β γ} (h : Derives prec top (top + 1) ts e) :
      Derives prec top top (.unary c :: ts) (.unary c e)
  | binary (b : β) {ts ts' : List (Tok α β γ)} {l r : Expr α β γ} (hb : prec b < top)
      (hl : Derives prec top (prec b) ts l) (hr : Derives prec top (prec b + 1) ts' r) :
      Derives prec top (prec b) (ts ++ .binary b :: ts') (.binary b l r)
  | up {p : Nat} {ts : List (Tok α β γ)} {e : Expr α β γ} (hp : p ≤ top)
      (h : Derives prec top (p + 1) ts e) : Derives prec top p ts e

/-- What may come next: an operand with or without unary operator, an operand, or
a binary operator. -/
inductive Phase where
  | start
  | prefixed
  | done
deriving DecidableEq, Repr

def Phase.next : Phase → Tok α β γ → Option Phase
  | .start, .operand _ => some .done
  | .start, .unary _ => some .prefixed
  | .start, .leftParen => some .start
  | .prefixed, .operand _ => some .done
  | .prefixed, .leftParen => some .start
  | .done, .binary _ => some .start
  | .done, .rightParen => some .done
  | _, _ => none

/-- The number of open parentheses after a token. -/
def opened (k : Nat) : Tok α β γ → Option Nat
  | .leftParen => some (k + 1)
  | .rightParen => if k = 0 then none else some (k - 1)
  | _ => some k

def scan (ph : Phase) (k : Nat) : List (Tok α β γ) → Option (Phase × Nat)
  | [] => some (ph, k)
  | t :: ts =>
    match ph.next t, opened k t with
    | some ph, some k => scan ph k ts
    | _, _ => none

/-- A whole expression: an operand at the end, no parenthesis open. -/
def WellFormed (ts : List (Tok α β γ)) : Prop := scan .start 0 ts = some (.done, 0)

variable {prec : β → Nat} {top : Nat}

theorem Derives.le {p q : Nat} {ts : List (Tok α β γ)} {e : Expr α β γ}
    (h : Derives prec top q ts e) (hpq : p ≤ q) (hq : q ≤ top + 1) : Derives prec top p ts e := by
  obtain ⟨d, rfl⟩ := Nat.exists_eq_add_of_le hpq
  induction d with
  | zero => exact h
  | succ d ih => exact ih (.up (by omega) h) (by omega) (by omega)

/-- An operator and its right operand are attached to an expression. -/
theorem Derives.attach {p : Nat} {ts ts' : List (Tok α β γ)} {e e' : Expr α β γ} {b : β}
    (h : Derives prec top p ts e) (hp : p ≤ prec b) (hb : prec b < top)
    (h' : Derives prec top top ts' e') :
    ∃ e'', Derives prec top p (ts ++ .binary b :: ts') e'' := by
  induction h with
  | operand a => omega
  | paren h ih => omega
  | unary c h ih => omega
  | binary b₀ hb₀ hl hr ihl ihr =>
    rename_i ts₁ ts₂ l r
    by_cases heq : prec b₀ = prec b
    · rw [heq] at hl hr ⊢
      have hboth : Derives prec top (prec b) (ts₁ ++ .binary b₀ :: ts₂) (.binary b₀ l r) := by
        rw [← heq] at hl hr ⊢
        exact .binary b₀ hb₀ hl hr
      exact ⟨_, .binary b hb hboth (h'.le (by omega) (by omega))⟩
    · obtain ⟨r', hr'⟩ := ihr (by omega)
      refine ⟨.binary b₀ l r', ?_⟩
      have hall := Derives.binary b₀ hb₀ hl hr'
      simpa [List.append_assoc] using hall
  | up hp₀ h ih =>
    rename_i q ts e
    by_cases heq : q = prec b
    · subst heq
      exact ⟨_, .binary b hb (.up hp₀ h) (h'.le (by omega) (by omega))⟩
    · obtain ⟨e'', he⟩ := ih (by omega)
      exact ⟨e'', .up hp₀ he⟩

/-- What is left of a scan begins with an expression that goes on to the end or to
a right parenthesis; an expression read so far goes on to there. -/
structure Reads (prec : β → Nat) (top : Nat) (ts : List (Tok α β γ)) : Prop where
  whole : ∀ k, scan .start k ts = some (.done, 0) →
    ∃ us rest e, ts = us ++ rest ∧ Derives prec top 1 us e ∧ scan .done k rest = some (.done, 0) ∧
      (rest = [] ∧ k = 0 ∨ ∃ rest', rest = .rightParen :: rest')
  more : ∀ us e k, Derives prec top 1 us e → scan .done k ts = some (.done, 0) →
    ∃ us' rest e', ts = us' ++ rest ∧ Derives prec top 1 (us ++ us') e' ∧
      scan .done k rest = some (.done, 0) ∧
      (rest = [] ∧ k = 0 ∨ ∃ rest', rest = .rightParen :: rest')

theorem reads_primary {n : Nat} (ih : ∀ ts : List (Tok α β γ), ts.length ≤ n → Reads prec top ts)
    {t : Tok α β γ} {ts : List (Tok α β γ)} (hlen : ts.length ≤ n) {ph : Phase} {k : Nat}
    (hph : ph ≠ .done) (hun : ∀ c, t ≠ .unary c) (hscan : scan ph k (t :: ts) = some (.done, 0)) :
    ∃ us rest e, t :: ts = us ++ rest ∧ Derives prec top (top + 1) us e ∧
      scan .done k rest = some (.done, 0) := by
  cases t with
  | operand a =>
    refine ⟨[.operand a], ts, .operand a, rfl, .operand a, ?_⟩
    cases ph with
    | start => exact hscan
    | prefixed => exact hscan
    | done => exact absurd rfl hph
  | binary b =>
    cases ph with
    | done => exact absurd rfl hph
    | _ => cases hscan
  | unary c => exact absurd rfl (hun c)
  | leftParen =>
    have hin : scan .start (k + 1) ts = some (.done, 0) := by
      cases ph with
      | start => exact hscan
      | prefixed => exact hscan
      | done => exact absurd rfl hph
    obtain ⟨us, rest, e, rfl, he, hrest, hend⟩ := (ih ts hlen).whole (k + 1) hin
    rcases hend with ⟨-, hk⟩ | ⟨rest', rfl⟩
    · omega
    · refine ⟨.leftParen :: (us ++ [.rightParen]), rest', .paren e, ?_, .paren he, hrest⟩
      simp only [List.cons_append, List.append_assoc, List.nil_append]
  | rightParen =>
    cases ph with
    | done => exact absurd rfl hph
    | start => cases hscan
    | prefixed => cases hscan

/-- Where an operand is due, a primary with or without a unary operator follows. -/
theorem reads_unit {n : Nat} (ih : ∀ ts : List (Tok α β γ), ts.length ≤ n → Reads prec top ts)
    {ts : List (Tok α β γ)} (hlen : ts.length ≤ n + 1) {k : Nat}
    (hscan : scan .start k ts = some (.done, 0)) :
    ∃ us rest e, ts = us ++ rest ∧ Derives prec top top us e ∧
      scan .done k rest = some (.done, 0) ∧ rest.length < ts.length := by
  cases ts with
  | nil => cases hscan
  | cons t ts =>
    have hlen' : ts.length ≤ n := Nat.le_of_succ_le_succ hlen
    by_cases hun : ∃ c, t = .unary c
    · obtain ⟨c, rfl⟩ := hun
      have hin : scan .prefixed k ts = some (.done, 0) := hscan
      cases ts with
      | nil => cases hin
      | cons t ts =>
        have hne : ∀ c', t ≠ .unary c' := by
          intro c' ht
          rw [ht] at hin
          cases hin
        obtain ⟨us, rest, e, hts, he, hrest⟩ := reads_primary ih (Nat.le_of_succ_le hlen')
          (fun h => Phase.noConfusion h) hne hin
        refine ⟨.unary c :: us, rest, .unary c e, by rw [hts]; rfl, .unary c he, hrest, ?_⟩
        rw [hts]
        simp only [List.length_cons, List.length_append]
        omega
    · obtain ⟨us, rest, e, hts, he, hrest⟩ := reads_primary ih hlen'
        (fun h => Phase.noConfusion h) (fun c hc => hun ⟨c, hc⟩) hscan
      refine ⟨us, rest, e, hts, .up (Nat.le_refl _) he, hrest, ?_⟩
      have hne : us ≠ [] := by
        intro hnil
        subst hnil
        generalize hq : top + 1 = q at he
        generalize hus : ([] : List (Tok α β γ)) = us at he
        cases he with
        | operand a => cases hus
        | paren h => cases hus
        | unary c h => cases hus
        | binary b hb hl hr => simp at hus
        | up hp h => omega
      have hpos := List.length_pos_iff.mpr hne
      rw [hts, List.length_append]
      omega

theorem reads_more {n : Nat} (ih : ∀ ts : List (Tok α β γ), ts.length ≤ n → Reads prec top ts)
    (hprec : ∀ b, 1 ≤ prec b ∧ prec b < top) {ts us : List (Tok α β γ)} {e : Expr α β γ} {k : Nat}
    (hlen : ts.length ≤ n + 1) (he : Derives prec top 1 us e)
    (hscan : scan .done k ts = some (.done, 0)) :
    ∃ us' rest e', ts = us' ++ rest ∧ Derives prec top 1 (us ++ us') e' ∧
      scan .done k rest = some (.done, 0) ∧
      (rest = [] ∧ k = 0 ∨ ∃ rest', rest = .rightParen :: rest') := by
  cases ts with
  | nil =>
    have hk : k = 0 := (Prod.mk.inj (Option.some.inj hscan)).2
    exact ⟨[], [], e, rfl, by rwa [List.append_nil], hscan, Or.inl ⟨rfl, hk⟩⟩
  | cons t ts =>
    have hlen' : ts.length ≤ n := Nat.le_of_succ_le_succ hlen
    cases t with
    | operand a => cases hscan
    | unary c => cases hscan
    | leftParen => cases hscan
    | rightParen => exact ⟨[], .rightParen :: ts, e, rfl, by rwa [List.append_nil], hscan,
        Or.inr ⟨ts, rfl⟩⟩
    | binary b =>
      have hin : scan .start k ts = some (.done, 0) := hscan
      obtain ⟨us₁, rest₁, e₁, rfl, he₁, hscan₁, hshort⟩ :=
        reads_unit ih (Nat.le_succ_of_le hlen') hin
      obtain ⟨e₂, he₂⟩ := he.attach (hprec b).1 (hprec b).2 he₁
      have hlen₁ : rest₁.length ≤ n := by
        rw [List.length_append] at hlen'
        omega
      obtain ⟨us₂, rest, e₃, rfl, he₃, hscan₃, hend⟩ := (ih rest₁ hlen₁).more _ e₂ k he₂ hscan₁
      refine ⟨.binary b :: (us₁ ++ us₂), rest, e₃, ?_, ?_, hscan₃, hend⟩
      · simp only [List.cons_append, List.append_assoc]
      · simpa only [List.append_assoc, List.cons_append] using he₃

theorem reads (hprec : ∀ b, 1 ≤ prec b ∧ prec b < top) (htop : 1 ≤ top) (n : Nat) :
    ∀ ts : List (Tok α β γ), ts.length ≤ n → Reads prec top ts := by
  induction n with
  | zero =>
    intro ts hlen
    obtain rfl := List.eq_nil_of_length_eq_zero (Nat.le_zero.mp hlen)
    constructor
    · intro k hscan
      cases hscan
    · intro us e k he hscan
      have hk : k = 0 := (Prod.mk.inj (Option.some.inj hscan)).2
      exact ⟨[], [], e, rfl, by rwa [List.append_nil], hscan, Or.inl ⟨rfl, hk⟩⟩
  | succ n ih =>
    intro ts hlen
    constructor
    · intro k hscan
      obtain ⟨us, rest, e, rfl, he, hscan', hshort⟩ := reads_unit ih hlen hscan
      have he' : Derives prec top 1 us e := he.le htop (Nat.le_succ top)
      have hlen' : rest.length ≤ n := by omega
      obtain ⟨us', rest', e', rfl, hall, hrest, hend⟩ := (ih rest hlen').more us e k he' hscan'
      exact ⟨us ++ us', rest', e', (List.append_assoc _ _ _).symm, hall, hrest, hend⟩
    · intro us e k he hscan
      exact reads_more ih hprec hlen he hscan

end SdkTools.Lib.Infix
