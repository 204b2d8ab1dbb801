import SdkTools.M4.MacroChains

/-!
# Runs on the macro table

Any calls of the operators, from the predefined macros on: the table behaves as a stack of values
for each name, and no block is lost, freed twice or used after it was freed.
-/

namespace SdkTools.M4.MacroTable

open Lib

set_option autoImplicit false

/-! ### Stacks by name -/

/-- What the operators do: for each name a stack of values, each traced or not. -/
structure Stacks where
  stack : Text → List (Text × Bool)
  input : Text
  g_fTrace : Bool

namespace Stacks

variable (σ : Stacks)

def set (name : Text) (values : List (Text × Bool)) : Stacks :=
  { σ with stack := Function.update σ.stack name values }

def pushPtok (ptok : Text) : Stacks := { σ with input := ptok ++ σ.input }

def pushQuotedPtok (ptok : Text) : Stacks :=
  { σ with input := tchLquo :: (ptok ++ tchRquo :: σ.input) }

/-- A definition replaces the topmost value, and `pushdef` covers it. -/
def defineOrPushdef (name : Text) (argv : List Text) (fPush : Bool) : Except Stop Stacks :=
  match argv with
  | [] => .ok (σ.pushQuotedPtok name)
  | ptok :: argv =>
    if fIdentPtok ptok then
      .ok (σ.set ptok ((argv.headD [], false) ::
        if fPush then σ.stack ptok else (σ.stack ptok).tail))
    else .error (.die "invalid macro name")

def popdef (ptok : Text) : Stacks := σ.set ptok (σ.stack ptok).tail

def undefine (ptok : Text) : Stacks := σ.set ptok []

def defn (ptok : Text) : Stacks :=
  match σ.stack ptok with
  | [] => σ
  | (text, _) :: _ => σ.pushQuotedPtok text

def traceonoff (dw : Bool) (ptok : Text) : Stacks :=
  match σ.stack ptok with
  | [] => σ
  | (text, _) :: values => σ.set ptok ((text, dw) :: values)

def ifdef (name : Text) (argv : List Text) : Stacks :=
  if argv.length ≥ 2 then
    if σ.stack (argv.getD 0 []) = [] then σ.pushPtok (argv.getD 2 [])
    else σ.pushPtok (argv.getD 1 [])
  else if argv.length = 0 then σ.pushQuotedPtok name
  else σ

end Stacks

open Stacks in
def Call.spec : Call → Stacks → Except Stop Stacks
  | define name argv, σ => σ.defineOrPushdef name argv false
  | pushdef name argv, σ => σ.defineOrPushdef name argv true
  | popdef argv, σ => .ok (argv.foldl Stacks.popdef σ)
  | undefine argv, σ => .ok (argv.foldl Stacks.undefine σ)
  | defn argv, σ => .ok (argv.reverse.foldl Stacks.defn σ)
  | ifdef name argv, σ => .ok (σ.ifdef name argv)
  | traceon argv, σ =>
    .ok (if argv.length = 0 then { σ with g_fTrace := true }
      else argv.foldl (fun σ => σ.traceonoff true) σ)
  | traceoff argv, σ =>
    .ok (argv.foldl (fun σ => σ.traceonoff false) { σ with g_fTrace := false })

def runSpec : List Call → Stacks → Except Stop Stacks
  | [], σ => .ok σ
  | call :: calls, σ => do
    let σ ← call.spec σ
    runSpec calls σ

/-- The stacks after `InitPredefs`. -/
def predefined : List Text → TCH → Stacks → Stacks
  | [], _, σ => σ
  | sym :: syms, ch, σ =>
    predefined syms (ch + 1) (σ.set sym (([tchMagic, ch], false) :: σ.stack sym))

/-! ### The heap as stacks -/

def stackOf (es : List Entry) (name : Text) : List (Text × Bool) :=
  ((es.find? fun e => decide (e.name = name)).map Entry.stack).getD []

/-- The heap holds exactly these stacks, and no macro without a value. -/
structure Represents (m : Machine) (es : List Entry) (σ : Stacks) : Prop where
  holds : Holds m.heap es
  values : ∀ e ∈ es, e.values ≠ []
  stack : ∀ name, σ.stack name = stackOf es name
  input : σ.input = m.input
  trace : σ.g_fTrace = m.g_fTrace

variable {m m' : Machine} {σ σ' : Stacks} {h' : Heap} {es l r : List Entry} {e e' : Entry}
  {name ptok : Text}

theorem stackOf_split (hnames : ((l ++ e :: r).map Entry.name).Nodup) (name : Text) :
    stackOf (l ++ e :: r) name = if name = e.name then e.stack else stackOf (l ++ r) name := by
  unfold stackOf
  rw [List.map_append, List.map_cons, List.nodup_middle] at hnames
  obtain ⟨hnotmem, -⟩ := List.nodup_cons.mp hnames
  split
  · rename_i heq
    subst heq
    have hl : l.find? (fun a => decide (a.name = e.name)) = none := by
      rw [List.find?_eq_none]
      intro a ha hname
      apply hnotmem
      rw [List.mem_append]
      exact Or.inl (List.mem_map.mpr ⟨a, ha, by simpa using hname⟩)
    rw [List.find?_append, hl, Option.none_or, List.find?_cons_of_pos (by simp)]
    rfl
  · rename_i hne
    rw [List.find?_append, List.find?_append, List.find?_cons_of_neg (by simp [Ne.symm hne])]

theorem Represents.stack_eq (hm : Represents m (l ++ e :: r) σ) : σ.stack e.name = e.stack := by
  rw [hm.stack, stackOf_split hm.holds.distinct, if_pos rfl]

theorem Represents.stack_new (hm : Represents m es σ) (hnew : ∀ e ∈ es, e.name ≠ ptok) :
    σ.stack ptok = [] := by
  rw [hm.stack, stackOf, List.find?_eq_none.mpr]
  · rfl
  · intro e he
    simpa using hnew e he

/-- One entry is replaced. -/
theorem Represents.replace (hm : Represents m (l ++ e :: r) σ) (hh : Holds h' (l ++ e' :: r))
    (hname : e'.name = e.name) (hvalues : e'.values ≠ []) :
    Represents { m with heap := h' } (l ++ e' :: r) (σ.set e.name e'.stack) := by
  refine ⟨hh, ?_, ?_, hm.input, hm.trace⟩
  · intro a ha
    rw [List.mem_append, List.mem_cons] at ha
    rcases ha with ha | rfl | ha
    · exact hm.values a (List.mem_append_left _ ha)
    · exact hvalues
    · exact hm.values a (List.mem_append_right _ (List.mem_cons_of_mem _ ha))
  · intro name
    have hold := hm.stack name
    rw [stackOf_split hm.holds.distinct] at hold
    rw [stackOf_split hh.distinct, hname]
    unfold Stacks.set
    dsimp only
    by_cases hn : name = e.name
    · rw [hn, Function.update_self, if_pos rfl]
    · rw [Function.update_of_ne hn, if_neg hn, hold, if_neg hn]

/-- One entry is gone. -/
theorem Represents.remove (hm : Represents m (l ++ e :: r) σ) (hh : Holds h' (l ++ r)) :
    Represents { m with heap := h' } (l ++ r) (σ.set e.name []) := by
  refine ⟨hh, ?_, ?_, hm.input, hm.trace⟩
  · intro a ha
    apply hm.values a
    rw [List.mem_append] at ha
    rw [List.mem_append, List.mem_cons]
    tauto
  · intro name
    have hold := hm.stack name
    rw [stackOf_split hm.holds.distinct] at hold
    unfold Stacks.set
    dsimp only
    by_cases hn : name = e.name
    · rw [hn, Function.update_self]
      have hnames := hm.holds.distinct
      rw [List.map_append, List.map_cons, List.nodup_middle] at hnames
      have hnotmem := (List.nodup_cons.mp hnames).1
      rw [stackOf, List.find?_eq_none.mpr]
      · rfl
      · intro a ha hname
        apply hnotmem
        rw [← List.map_append]
        exact List.mem_map.mpr ⟨a, ha, by simpa using hname⟩
    · rw [Function.update_of_ne hn, hold, if_neg hn]

/-- A new entry. -/
theorem Represents.insert (hm : Represents m es σ) (hh : Holds h' (e :: es))
    (hvalues : e.values ≠ []) :
    Represents { m with heap := h' } (e :: es) (σ.set e.name e.stack) := by
  refine ⟨hh, ?_, ?_, hm.input, hm.trace⟩
  · intro a ha
    rcases List.mem_cons.mp ha with rfl | ha
    · exact hvalues
    · exact hm.values a ha
  · intro name
    have hsplit := stackOf_split (l := []) hh.distinct name
    rw [List.nil_append, List.nil_append] at hsplit
    rw [hsplit]
    unfold Stacks.set
    dsimp only
    by_cases hn : name = e.name
    · rw [hn, Function.update_self, if_pos rfl]
    · rw [Function.update_of_ne hn, if_neg hn, hm.stack]

theorem Stacks.set_eq_self {values : List (Text × Bool)} (hs : σ.stack ptok = values) :
    σ.set ptok values = σ := by
  unfold Stacks.set
  rw [← hs, Function.update_eq_self]

/-! ### Single operators -/

/-- The topmost value of a macro in the table. -/
theorem Represents.top (hm : Represents m (l ++ e :: r) σ) :
    ∃ v vs, e.values = v :: vs ∧ (m.heap.mac e.pmac).pval = some v.pval ∧
      m.heap.pval v.pval = .ok (m.heap.val v.pval) ∧ m.topVal e.pmac =
        .ok (v.pval, m.heap.val v.pval) ∧ m.heap.ptch v.tok = .ok v.text ∧ v.Held m.heap ∧
      ((m.heap.val v.pval).pvalPrev = none ↔ vs = []) := by
  have he := hm.holds.held e mem_split
  obtain ⟨v, vs, hvalues⟩ := List.exists_cons_of_ne_nil (hm.values e mem_split)
  have hv : v ∈ e.values := by
    rw [hvalues]
    exact List.mem_cons_self
  have hstack := he.stack
  rw [hvalues, List.map_cons] at hstack
  obtain ⟨htop, hrest⟩ := hstack
  have hpval : m.heap.pval v.pval = .ok (m.heap.val v.pval) :=
    if_pos (hm.holds.ledger.live (Holds.block_mem mem_split (Entry.value_mem hv v.pval_mem)))
  refine ⟨v, vs, hvalues, htop, hpval, ?_, ?_, he.values v hv, ?_⟩
  · unfold Machine.topVal
    rw [hm.holds.pmac_eq mem_split]
    simp only [bind, Except.bind, htop, hpval]
  · exact ptch_eq hm.holds.ledger (he.values v hv).text fun p hp =>
      Holds.block_mem mem_split (Entry.value_mem hv (List.mem_cons_of_mem _ hp))
  · rw [← hrest.eq_nil_iff, List.map_eq_nil_iff]

theorem Entry.stack_eq {v : Value} {vs : List Value} (hvalues : e.values = v :: vs) :
    e.stack = (v.text, v.fTrace) :: vs.map fun v => (v.text, v.fTrace) := by
  rw [Entry.stack, hvalues, List.map_cons]

/-- The program does what the stacks do. -/
def Refines (run : Except Stop Machine) (σ : Stacks) : Prop :=
  ∃ m es, run = .ok m ∧ Represents m es σ

theorem Represents.pushQuoted (hm : Represents m es σ) (ptok : Text) :
    Represents (m.pushQuotedPtok ptok) es (σ.pushQuotedPtok ptok) :=
  ⟨hm.holds, hm.values, hm.stack, by
    unfold Stacks.pushQuotedPtok Machine.pushQuotedPtok
    dsimp only
    rw [hm.input], hm.trace⟩

theorem Represents.push (hm : Represents m es σ) (ptok : Text) :
    Represents (m.pushPtok ptok) es (σ.pushPtok ptok) :=
  ⟨hm.holds, hm.values, hm.stack, by
    unfold Stacks.pushPtok Machine.pushPtok
    dsimp only
    rw [hm.input], hm.trace⟩

theorem opcPopdef_spec (hm : Represents m es σ) (ptok : Text) :
    Refines (m.opcPopdef ptok) (σ.popdef ptok) := by
  unfold Machine.opcPopdef Stacks.popdef
  rcases find_cases hm.holds ptok with ⟨l, e, r, rfl, rfl, hfind⟩ | ⟨hnew, hfind⟩
  · obtain ⟨v, vs, hvalues, htop, hpval, -, -, -, hlast⟩ := hm.top
    rw [hfind, hm.stack_eq, Entry.stack_eq hvalues, List.tail_cons]
    simp only [bind, Except.bind, hm.holds.pmac_eq mem_split, htop, hpval]
    cases vs with
    | nil =>
      obtain ⟨h', hfree, hh'⟩ := hm.holds.free
      rw [hlast.mpr rfl]
      simp only [Option.isSome_none, hfree]
      exact ⟨_, _, rfl, hm.remove hh'⟩
    | cons w ws =>
      obtain ⟨h', hpop, hh'⟩ := hm.holds.popdef hvalues
      have hsome : (m.heap.val v.pval).pvalPrev.isSome = true := by
        rw [Option.isSome_iff_ne_none]
        exact fun hnone => List.cons_ne_nil w ws (hlast.mp hnone)
      simp only [hsome, if_true, hpop]
      exact ⟨_, _, rfl, hm.replace hh' rfl (List.cons_ne_nil w ws)⟩
  · rw [hfind, hm.stack_new hnew, List.tail_nil, Stacks.set_eq_self (hm.stack_new hnew)]
    exact ⟨m, es, rfl, hm⟩

theorem opcUndefine_spec (hm : Represents m es σ) (ptok : Text) :
    Refines (m.opcUndefine ptok) (σ.undefine ptok) := by
  unfold Machine.opcUndefine Stacks.undefine
  rcases find_cases hm.holds ptok with ⟨l, e, r, rfl, rfl, hfind⟩ | ⟨hnew, hfind⟩
  · obtain ⟨h', hfree, hh'⟩ := hm.holds.free
    rw [hfind]
    simp only [bind, Except.bind, hfree]
    exact ⟨_, _, rfl, hm.remove hh'⟩
  · rw [hfind, Stacks.set_eq_self (hm.stack_new hnew)]
    exact ⟨m, es, rfl, hm⟩

theorem opcDefn_spec (hm : Represents m es σ) (ptok : Text) :
    Refines (m.opcDefn ptok) (σ.defn ptok) := by
  unfold Machine.opcDefn Stacks.defn
  rcases find_cases hm.holds ptok with ⟨l, e, r, rfl, rfl, hfind⟩ | ⟨hnew, hfind⟩
  · obtain ⟨v, vs, hvalues, -, -, htop, htext, hheld, -⟩ := hm.top
    rw [hfind, hm.stack_eq, Entry.stack_eq hvalues]
    simp only [bind, Except.bind, htop, hheld.tok, htext]
    exact ⟨_, _, rfl, hm.pushQuoted _⟩
  · rw [hfind, hm.stack_new hnew]
    exact ⟨m, es, rfl, hm⟩

theorem opcTraceonoff_spec (hm : Represents m es σ) (dw : Bool) (ptok : Text) :
    Refines (m.opcTraceonoff dw ptok) (σ.traceonoff dw ptok) := by
  unfold Machine.opcTraceonoff Stacks.traceonoff
  rcases find_cases hm.holds ptok with ⟨l, e, r, rfl, rfl, hfind⟩ | ⟨hnew, hfind⟩
  · obtain ⟨v, vs, hvalues, -, -, htop, -, -, -⟩ := hm.top
    rw [hfind, hm.stack_eq, Entry.stack_eq hvalues]
    simp only [bind, Except.bind, htop]
    exact ⟨_, _, rfl, hm.replace (hm.holds.trace hvalues dw) rfl (List.cons_ne_nil _ _)⟩
  · rw [hfind, hm.stack_new hnew]
    exact ⟨m, es, rfl, hm⟩

theorem opIfdef_spec (hm : Represents m es σ) (name : Text) (argv : List Text) :
    Refines (m.opIfdef name argv) (σ.ifdef name argv) := by
  unfold Machine.opIfdef Stacks.ifdef
  by_cases htwo : argv.length ≥ 2
  · rw [if_pos htwo, if_pos htwo]
    rcases find_cases hm.holds (argv.getD 0 []) with ⟨l, e, r, rfl, hname, hfind⟩ | ⟨hnew, hfind⟩
    · obtain ⟨v, vs, hvalues, -⟩ := hm.top
      have hstack : σ.stack (argv.getD 0 []) ≠ [] := by
        rw [← hname, hm.stack_eq, Entry.stack_eq hvalues]
        exact List.cons_ne_nil _ _
      rw [hfind, if_neg hstack]
      exact ⟨_, _, rfl, hm.push _⟩
    · rw [hfind, if_pos (hm.stack_new hnew)]
      exact ⟨_, _, rfl, hm.push _⟩
  · rw [if_neg htwo, if_neg htwo]
    by_cases hzero : argv.length = 0
    · rw [if_pos hzero, if_pos hzero]
      exact ⟨_, _, rfl, hm.pushQuoted _⟩
    · rw [if_neg hzero, if_neg hzero]
      exact ⟨m, es, rfl, hm⟩

theorem Stacks.set_set (ptok : Text) (values values' : List (Text × Bool)) :
    (σ.set ptok values).set ptok values' = σ.set ptok values' := by
  unfold Stacks.set
  dsimp only
  rw [Function.update_idem]

/-- Only an invalid name stops a definition. -/
theorem opDefineOrPushdef_spec (hm : Represents m es σ) (name : Text) (argv : List Text)
    (fPush : Bool) :
    (∀ σ', σ.defineOrPushdef name argv fPush = .ok σ' →
      Refines (m.opDefineOrPushdef name argv fPush) σ') ∧
    ∀ stop, σ.defineOrPushdef name argv fPush = .error stop →
      m.opDefineOrPushdef name argv fPush = .error stop := by
  cases argv with
  | nil =>
    refine ⟨?_, ?_⟩
    · rintro _ ⟨⟩
      exact ⟨_, _, rfl, hm.pushQuoted name⟩
    · rintro _ ⟨⟩
  | cons ptok argv =>
    unfold Machine.opDefineOrPushdef Stacks.defineOrPushdef
    dsimp only
    by_cases hident : fIdentPtok ptok = true
    · rw [if_pos hident, if_pos hident]
      refine ⟨?_, ?_⟩
      · rintro _ ⟨⟩
        rcases pmacGetPtok_spec hm.holds ptok with ⟨l, e, r, rfl, rfl, hget⟩ |
          ⟨hnew, e, h₁, hget, rfl, hempty, hh₁⟩
        · obtain ⟨v, vs, hvalues, htop, -⟩ := hm.top
          simp only [bind, Except.bind, hget, hm.holds.pmac_eq mem_split, htop, hm.stack_eq,
            Option.isSome_some, Bool.and_true]
          cases fPush with
          | true =>
            obtain ⟨w, h', hpush, htext, htrace, hh'⟩ := hm.holds.pushdef (argv.headD [])
            simp only [Bool.not_true, Bool.false_eq_true, if_false, if_true, hpush]
            have hr := hm.replace hh' rfl (List.cons_ne_nil w e.values)
            rw [Entry.stack_eq (e := { e with values := w :: e.values }) rfl, htext, htrace] at hr
            exact ⟨_, _, rfl, hr⟩
          | false =>
            obtain ⟨h₁, hpop, hh₁⟩ := hm.holds.popdef hvalues
            obtain ⟨w, h', hpush, htext, htrace, hh'⟩ := hh₁.pushdef (argv.headD [])
            dsimp only at hpush
            simp only [Bool.not_false, if_true, Bool.false_eq_true, if_false, hpop, hpush,
              Entry.stack_eq hvalues, List.tail_cons]
            have hr := hm.replace hh' rfl (List.cons_ne_nil w vs)
            rw [Entry.stack_eq (e := { e with values := w :: vs }) rfl, htext, htrace] at hr
            exact ⟨_, _, rfl, hr⟩
        · have hpval : (h₁.mac e.pmac).pval = none := by
            have hstack := (hh₁.held e List.mem_cons_self).stack
            rw [hempty] at hstack
            exact hstack
          obtain ⟨w, h', hpush, htext, htrace, hh'⟩ :=
            Holds.pushdef (l := []) hh₁ (argv.headD [])
          simp only [bind, Except.bind, hget, hh₁.pmac_eq List.mem_cons_self, hpval,
            Option.isSome_none, Bool.and_false, Bool.false_eq_true, if_false, hpush,
            hm.stack_new hnew, List.tail_nil, ite_self]
          have hr := hm.insert hh' (List.cons_ne_nil w e.values)
          rw [Entry.stack_eq (e := { e with values := w :: e.values }) rfl, htext, htrace,
            hempty] at hr
          exact ⟨_, _, rfl, hr⟩
      · rintro _ ⟨⟩
    · rw [if_neg hident, if_neg hident]
      refine ⟨?_, ?_⟩
      · rintro _ ⟨⟩
      · rintro _ ⟨⟩
        rfl

/-! ### Runs -/

theorem eachOpcArgv_spec {opc : Machine → Text → Except Stop Machine}
    {spec : Stacks → Text → Stacks}
    (hopc : ∀ m es σ ptok, Represents m es σ → Refines (opc m ptok) (spec σ ptok))
    (argv : List Text) (hm : Represents m es σ) :
    Refines (Machine.eachOpcArgv opc argv m) (argv.foldl spec σ) := by
  induction argv generalizing m es σ with
  | nil => exact ⟨m, es, rfl, hm⟩
  | cons ptok argv ih =>
    obtain ⟨m₁, es₁, hrun, hm₁⟩ := hopc m es σ ptok hm
    rw [Machine.eachOpcArgv, hrun]
    exact ih hm₁

theorem exec_spec (hm : Represents m es σ) (call : Call) :
    (∀ σ', call.spec σ = .ok σ' → Refines (call.exec m) σ') ∧
    ∀ stop, call.spec σ = .error stop → call.exec m = .error stop := by
  have hall {run : Except Stop Machine} {σ₁ : Stacks} (hrun : Refines run σ₁) :
      (∀ σ', Except.ok σ₁ = (.ok σ' : Except Stop Stacks) → Refines run σ') ∧
      ∀ stop, Except.ok σ₁ = (.error stop : Except Stop Stacks) → run = .error stop := by
    refine ⟨?_, ?_⟩
    · rintro _ ⟨⟩
      exact hrun
    · rintro _ ⟨⟩
  cases call with
  | define name argv => exact opDefineOrPushdef_spec hm name argv false
  | pushdef name argv => exact opDefineOrPushdef_spec hm name argv true
  | popdef argv =>
    exact hall (eachOpcArgv_spec (fun _ _ _ ptok hm => opcPopdef_spec hm ptok) argv hm)
  | undefine argv =>
    exact hall (eachOpcArgv_spec (fun _ _ _ ptok hm => opcUndefine_spec hm ptok) argv hm)
  | defn argv =>
    exact hall (eachOpcArgv_spec (fun _ _ _ ptok hm => opcDefn_spec hm ptok) argv.reverse hm)
  | ifdef name argv => exact hall (opIfdef_spec hm name argv)
  | traceon argv =>
    rw [Call.exec, Call.spec]
    by_cases hnil : argv.length = 0
    · rw [if_pos hnil, if_pos hnil]
      exact hall ⟨_, es, rfl, hm.holds, hm.values, hm.stack, hm.input, rfl⟩
    · rw [if_neg hnil, if_neg hnil]
      exact hall (eachOpcArgv_spec (fun _ _ _ ptok hm => opcTraceonoff_spec hm true ptok) argv hm)
  | traceoff argv =>
    exact hall (eachOpcArgv_spec (fun _ _ _ ptok hm => opcTraceonoff_spec hm false ptok) argv
      ⟨hm.holds, hm.values, hm.stack, hm.input, rfl⟩)

theorem run_spec (calls : List Call) (hm : Represents m es σ) :
    (∀ σ', runSpec calls σ = .ok σ' → Refines (run calls m) σ') ∧
    ∀ stop, runSpec calls σ = .error stop → run calls m = .error stop := by
  induction calls generalizing m es σ with
  | nil =>
    refine ⟨?_, ?_⟩
    · rintro _ ⟨⟩
      exact ⟨m, es, rfl, hm⟩
    · rintro _ ⟨⟩
  | cons call calls ih =>
    obtain ⟨hok, herror⟩ := exec_spec hm call
    rw [run, runSpec]
    cases hspec : call.spec σ with
    | error stop =>
      rw [herror stop hspec]
      refine ⟨?_, ?_⟩
      · rintro _ ⟨⟩
      · rintro _ ⟨⟩
        rfl
    | ok σ₁ =>
      obtain ⟨m₁, es₁, hrun, hm₁⟩ := hok σ₁ hspec
      rw [hrun]
      exact ih hm₁

/-! ### From the start -/

theorem initHash_holds (h : Heap) : Holds (initHash h) [] :=
  ⟨fun _ => rfl, fun _ he => absurd he List.not_mem_nil, List.nodup_nil, List.Perm.refl _⟩

theorem initPredefs_spec (syms : List Text) (ch : TCH) (hm : Represents m es σ) :
    ∃ h' es', initPredefs syms ch m.heap = .ok h' ∧
      Represents { m with heap := h' } es' (predefined syms ch σ) := by
  induction syms generalizing ch m es σ with
  | nil => exact ⟨m.heap, es, rfl, hm⟩
  | cons sym syms ih =>
    rw [initPredefs, predefined]
    rcases pmacGetPtok_spec hm.holds sym with ⟨l, e, r, rfl, rfl, hget⟩ |
      ⟨hnew, e, h₁, hget, rfl, hempty, hh₁⟩
    · obtain ⟨w, h', hpush, htext, htrace, hh'⟩ := hm.holds.pushdef [tchMagic, ch]
      have hr := hm.replace hh' rfl (List.cons_ne_nil w e.values)
      rw [Entry.stack_eq (e := { e with values := w :: e.values }) rfl, htext, htrace] at hr
      simp only [bind, Except.bind, hget, hpush, hm.stack_eq]
      exact ih (ch + 1) hr
    · obtain ⟨w, h', hpush, htext, htrace, hh'⟩ := Holds.pushdef (l := []) hh₁ [tchMagic, ch]
      have hr := hm.insert hh' (List.cons_ne_nil w e.values)
      rw [Entry.stack_eq (e := { e with values := w :: e.values }) rfl, htext, htrace, hempty] at hr
      simp only [bind, Except.bind, hget, hpush, hm.stack_new hnew]
      exact ih (ch + 1) hr

/-- The stacks before the first call. -/
def Stacks.start (input : Text) : Stacks := predefined mptchptch 0 ⟨fun _ => [], input, false⟩

theorem start_spec (h : Heap) (input : Text) :
    ∃ h₀ es, initPredefs mptchptch 0 (initHash h) = .ok h₀ ∧
      Represents ⟨h₀, input, false⟩ es (Stacks.start input) := by
  have hm : Represents ⟨initHash h, input, false⟩ [] ⟨fun _ => [], input, false⟩ :=
    ⟨initHash_holds h, fun _ he => absurd he List.not_mem_nil, fun _ => rfl, rfl, rfl⟩
  exact initPredefs_spec mptchptch 0 hm

theorem Represents.valueOf (hm : Represents m es σ) (name : Text) :
    m.valueOf name = .ok ((σ.stack name).head?.map fun v => (v.1, σ.g_fTrace || v.2)) := by
  unfold Machine.valueOf
  rcases find_cases hm.holds name with ⟨l, e, r, rfl, rfl, hfind⟩ | ⟨hnew, hfind⟩
  · obtain ⟨v, vs, hvalues, -, -, htop, htext, hheld, -⟩ := hm.top
    rw [hfind, hm.stack_eq, Entry.stack_eq hvalues, hm.trace]
    simp only [bind, Except.bind, htop, hheld.tok, hheld.fTrace, htext]
    rfl
  · rw [hfind, hm.stack_new hnew]
    rfl

theorem spec_error {call : Call} {stop : Stop} (hspec : call.spec σ = .error stop) :
    stop = .die "invalid macro name" := by
  have hdefine {name : Text} {argv : List Text} {fPush : Bool}
      (h : σ.defineOrPushdef name argv fPush = .error stop) :
      stop = .die "invalid macro name" := by
    cases argv with
    | nil => cases h
    | cons ptok argv =>
      unfold Stacks.defineOrPushdef at h
      dsimp only at h
      split at h
      · cases h
      · cases h
        rfl
  cases call with
  | define name argv => exact hdefine hspec
  | pushdef name argv => exact hdefine hspec
  | popdef argv => cases hspec
  | undefine argv => cases hspec
  | defn argv => cases hspec
  | ifdef name argv => cases hspec
  | traceon argv => cases hspec
  | traceoff argv => cases hspec

theorem runSpec_error {calls : List Call} {stop : Stop} (hspec : runSpec calls σ = .error stop) :
    stop = .die "invalid macro name" := by
  induction calls generalizing σ with
  | nil => cases hspec
  | cons call calls ih =>
    rw [runSpec] at hspec
    cases hcall : call.spec σ with
    | error stop' =>
      rw [hcall] at hspec
      cases hspec
      exact spec_error hcall
    | ok σ₁ =>
      rw [hcall] at hspec
      exact ih hspec

/-- Through hash collisions, unlinked chains and freed values, a run from the predefined macros on
does what it does on stacks of values: it stops at the same call, pushes the same text back, and
every name has the topmost value of its stack. -/
theorem run_refines_stacks (h : Heap) (input : Text) (calls : List Call) :
    ∃ h₀, initPredefs mptchptch 0 (initHash h) = .ok h₀ ∧
      match runSpec calls (Stacks.start input) with
      | .error stop => run calls ⟨h₀, input, false⟩ = .error stop
      | .ok σ => ∃ m, run calls ⟨h₀, input, false⟩ = .ok m ∧ m.input = σ.input ∧
          ∀ name, m.valueOf name =
            .ok ((σ.stack name).head?.map fun v => (v.1, σ.g_fTrace || v.2)) := by
  obtain ⟨h₀, es, hinit, hm⟩ := start_spec h input
  obtain ⟨hok, herror⟩ := run_spec calls hm
  refine ⟨h₀, hinit, ?_⟩
  cases hspec : runSpec calls (Stacks.start input) with
  | error stop => exact herror stop hspec
  | ok σ =>
    obtain ⟨m, es', hrun, hm'⟩ := hok σ hspec
    exact ⟨m, hrun, hm'.input.symm, hm'.valueOf⟩

/-- A run is stopped by an invalid name only: it uses no block that was freed, and afterwards every
block is freed or in use, each once, by one macro or one of its values, and each macro is in the
chain of its hash, once, with at least one value. -/
theorem run_owns_blocks (h : Heap) (input : Text) (calls : List Call) :
    ∃ h₀, initPredefs mptchptch 0 (initHash h) = .ok h₀ ∧
      (run calls ⟨h₀, input, false⟩ = .error (.die "invalid macro name") ∨
        ∃ m es, run calls ⟨h₀, input, false⟩ = .ok m ∧ Holds m.heap es ∧
          ∀ e ∈ es, e.values ≠ []) := by
  obtain ⟨h₀, es, hinit, hm⟩ := start_spec h input
  obtain ⟨hok, herror⟩ := run_spec calls hm
  refine ⟨h₀, hinit, ?_⟩
  cases hspec : runSpec calls (Stacks.start input) with
  | error stop =>
    have hstop := herror stop hspec
    rw [runSpec_error hspec] at hstop
    exact Or.inl hstop
  | ok σ =>
    obtain ⟨m, es', hrun, hm'⟩ := hok σ hspec
    exact Or.inr ⟨m, es', hrun, hm'.holds, hm'.values⟩

theorem Represents.eq_nil (hm : Represents m es σ) (hempty : ∀ name, σ.stack name = []) :
    es = [] := by
  cases es with
  | nil => rfl
  | cons e es =>
    have hsplit := stackOf_split (l := []) hm.holds.distinct e.name
    rw [List.nil_append, ← hm.stack, hempty, if_pos rfl] at hsplit
    have hvalues := List.map_eq_nil_iff.mp hsplit.symm
    exact absurd hvalues (hm.values e List.mem_cons_self)

theorem foldl_undefine (names : List Text) (name : Text) :
    (names.foldl Stacks.undefine σ).stack name = if name ∈ names then [] else σ.stack name := by
  induction names generalizing σ with
  | nil => rw [if_neg List.not_mem_nil]; rfl
  | cons a names ih =>
    rw [List.foldl_cons, ih]
    by_cases hmem : name ∈ names
    · rw [if_pos hmem, if_pos (List.mem_cons_of_mem a hmem)]
    · rw [if_neg hmem]
      unfold Stacks.undefine Stacks.set
      dsimp only
      by_cases ha : name = a
      · rw [ha, Function.update_self, if_pos List.mem_cons_self]
      · rw [Function.update_of_ne ha, if_neg (by simp [ha, hmem])]

theorem predefined_mem {syms : List Text} {ch : TCH} {name : Text}
    (hs : (predefined syms ch σ).stack name ≠ []) : name ∈ syms ∨ σ.stack name ≠ [] := by
  induction syms generalizing ch σ with
  | nil => exact Or.inr hs
  | cons sym syms ih =>
    rcases ih hs with hmem | hold
    · exact Or.inl (List.mem_cons_of_mem sym hmem)
    · by_cases hname : name = sym
      · exact Or.inl (by simp [hname])
      · unfold Stacks.set at hold
        dsimp only at hold
        rw [Function.update_of_ne hname] at hold
        exact Or.inr hold

/-- The table gives all its memory back. -/
theorem undefine_frees_all (h : Heap) (input : Text) {calls : List Call} {names : List Text}
    {σ : Stacks} (hspec : runSpec calls (Stacks.start input) = .ok σ)
    (hnames : ∀ name, σ.stack name ≠ [] → name ∈ names) :
    ∃ h₀ m m', initPredefs mptchptch 0 (initHash h) = .ok h₀ ∧
      run calls ⟨h₀, input, false⟩ = .ok m ∧ (Call.undefine names).exec m = .ok m' ∧
      m'.heap.freed.Perm (List.range m'.heap.allocated) ∧
      ∀ hash, m'.heap.mphashpmac hash = none := by
  obtain ⟨h₀, es, hinit, hm⟩ := start_spec h input
  obtain ⟨m, es₁, hrun, hm₁⟩ := (run_spec calls hm).1 σ hspec
  obtain ⟨m', es₂, hexec, hm₂⟩ := (exec_spec hm₁ (.undefine names)).1 _ rfl
  have hnil : es₂ = [] := by
    apply hm₂.eq_nil
    intro name
    rw [foldl_undefine]
    by_cases hmem : name ∈ names
    · rw [if_pos hmem]
    · rw [if_neg hmem]
      by_contra hne
      exact hmem (hnames name hne)
  subst hnil
  exact ⟨h₀, m, m', hinit, hrun, hexec, hm₂.holds.ledger, fun hash => hm₂.holds.chain hash⟩

theorem undefine_frees_all_start :
    ∃ h₀ m m', initPredefs mptchptch 0 (initHash ⟨fun _ => none, fun _ => ⟨none, none, none⟩,
        fun _ => ⟨none, false, none⟩, fun _ => [], 0, []⟩) = .ok h₀ ∧
      run [] ⟨h₀, [], false⟩ = .ok m ∧ (Call.undefine mptchptch).exec m = .ok m' ∧
      m'.heap.freed.Perm (List.range m'.heap.allocated) ∧
      ∀ hash, m'.heap.mphashpmac hash = none :=
  undefine_frees_all _ [] rfl fun _ hname =>
    (predefined_mem hname).resolve_right fun hne => hne rfl

end SdkTools.M4.MacroTable
