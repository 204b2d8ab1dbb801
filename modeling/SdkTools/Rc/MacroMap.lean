import SdkTools.Rc.MacroTable

/-!
# The macro table as a map

What a lookup finds after any sequence of directives: the text and the number of
formals of the last `#define` of the name. A redefinition that the comparison of the
texts misses, or an empty one, breaks it.
-/

namespace SdkTools.Rc

set_option autoImplicit false

/-! ## One directive -/

theorem getDefined_eq (ident : Text) (t : Table) :
    getDefined ident t = Lib.lookup Defn.ident ident (t.chains (hash ident)) :=
  getDefinedIn_eq ident _

theorem ident_of_getDefined {ident : Text} {t : Table} {p : Defn}
    (h : getDefined ident t = some p) : p.ident = ident := by
  rw [getDefined_eq] at h
  exact Lib.key_of_lookup h

/-- A lookup in a table with one chain replaced. -/
theorem getDefined_set {t : Table} {b : BitVec 8} {ps : List Defn} {hplaced hdistinct}
    (ident : Text) : getDefined ident (t.set b ps hplaced hdistinct) =
      if hash ident = b then Lib.lookup Defn.ident ident ps else getDefined ident t := by
  rw [getDefined_eq, Table.set]
  simp only
  split
  · rfl
  · rw [getDefined_eq]

theorem getDefined_undefine_self {ident : Text} {t : Table}
    (hplain : ∀ p, getDefined ident t = some p → preDefined p = false) :
    getDefined ident (undefine ident t) = none := by
  unfold undefine
  rw [getDefined_set, if_pos rfl, undefineIn_eq, if_neg]
  · exact Lib.lookup_unlink_self (t.distinct _)
  · have hnone : ((getDefined ident t).any preDefined) = false := by
      cases hp : getDefined ident t with
      | none => rfl
      | some p => exact hplain p hp
    exact Bool.eq_false_iff.mp hnone

theorem getDefined_undefine_ne {ident ident' : Text} {t : Table} (hne : ident ≠ ident') :
    getDefined ident' (undefine ident t) = getDefined ident' t := by
  unfold undefine
  rw [getDefined_set, undefineIn_eq]
  split
  · rename_i hhash
    rw [getDefined_eq, hhash]
    split
    · rfl
    · exact Lib.lookup_unlink_ne hne
  · rfl

theorem getDefined_change_self {ident : Text} {t : Table} {text : List WCHAR} {number : Int} :
    getDefined ident (t.change ident text number) =
      (getDefined ident t).map (install text number) := by
  unfold Table.change
  rw [getDefined_set, if_pos rfl, getDefined_eq]
  exact Lib.lookup_change_self fun _ => rfl

theorem getDefined_change_ne {ident ident' : Text} {t : Table} {text : List WCHAR} {number : Int}
    (hne : ident ≠ ident') :
    getDefined ident' (t.change ident text number) = getDefined ident' t := by
  unfold Table.change
  rw [getDefined_set]
  split
  · rename_i hhash
    rw [getDefined_eq, hhash]
    exact Lib.lookup_change_ne (fun _ => rfl) hne
  · rfl

theorem getDefined_push_self {p : Defn} {t : Table} (hnone : getDefined p.ident t = none) :
    getDefined p.ident (t.push p hnone) = some p := by
  unfold Table.push
  rw [getDefined_set, if_pos rfl]
  exact Lib.lookup_push_self p

theorem getDefined_push_ne {p : Defn} {ident : Text} {t : Table}
    (hnone : getDefined p.ident t = none) (hne : p.ident ≠ ident) :
    getDefined ident (t.push p hnone) = getDefined ident t := by
  unfold Table.push
  rw [getDefined_set]
  split
  · rename_i hhash
    rw [getDefined_eq, hhash]
    exact Lib.lookup_push_ne hne
  · rfl

/-- What `definstall` can do. -/
theorem definstall_cases (ident : Text) (text : List WCHAR) (number : Int) (t : Table) :
    (definstall ident text number t = t ∧ (ident = defined ∨ ∃ p, getDefined ident t = some p ∧
      (preDefined p = true ∨
        redefn (if text.length = 0 then none else some text) p.text text.length = false))) ∨
    (definstall ident text number t = t.change ident text number ∧
      ∃ p, getDefined ident t = some p) ∨
    ∃ hnone : getDefined ident t = none,
      definstall ident text number t = t.push (install text number ⟨ident, none, 0⟩) hnone := by
  unfold definstall
  split
  · rename_i hdefined
    exact .inl ⟨rfl, .inl hdefined⟩
  split
  · rename_i p hp
    split
    · rename_i hpre
      exact .inl ⟨rfl, .inr ⟨p, hp, .inl hpre⟩⟩
    · by_cases hsame :
        redefn (if text.length = 0 then none else some text) p.text text.length = true
      · rw [if_pos hsame]
        exact .inr (.inl ⟨rfl, p, hp⟩)
      · rw [if_neg hsame]
        exact .inl ⟨rfl, .inr ⟨p, hp, .inr (Bool.eq_false_iff.mpr hsame)⟩⟩
  · rename_i hnone
    exact .inr (.inr ⟨hnone, rfl⟩)

/-- A directive changes the entry of no other name. -/
theorem getDefined_run_ne {d : Directive} {ident : Text} {t : Table} (hne : d.ident ≠ ident) :
    getDefined ident (d.run t) = getDefined ident t := by
  cases d with
  | undef name => exact getDefined_undefine_ne hne
  | define name formals text =>
    change getDefined ident (definstall name _ _ t) = _
    rcases definstall_cases name (definition text) (nFormals formals) t with
      ⟨h, -⟩ | ⟨h, -⟩ | ⟨hnone, h⟩
    · rw [h]
    · rw [h]
      exact getDefined_change_ne hne
    · rw [h]
      exact getDefined_push_ne _ hne

/-! ## Texts -/

theorem wcsncmpEq_terminated {a b : List WCHAR} (ha : EOS_CHAR ∉ a) (hb : EOS_CHAR ∉ b) {n : Nat}
    (hn : a.length < n) {r s : List WCHAR} :
    wcsncmpEq n (a ++ EOS_CHAR :: r) (b ++ EOS_CHAR :: s) = true ↔ a = b := by
  induction a generalizing b n with
  | nil =>
    obtain ⟨n, rfl⟩ := Nat.exists_eq_succ_of_ne_zero (Nat.ne_of_gt hn)
    rw [wcsncmpEq, decide_eq_true_iff]
    cases b with
    | nil =>
      rw [iff_true_right rfl]
      exact ⟨rfl, .inl rfl⟩
    | cons d b =>
      have hd : EOS_CHAR ≠ d := fun h => hb (by rw [h]; exact List.mem_cons_self)
      exact iff_of_false (fun h => hd h.1) nofun
  | cons c a ih =>
    obtain ⟨n, rfl⟩ := Nat.exists_eq_succ_of_ne_zero (Nat.ne_of_gt (Nat.zero_lt_of_lt hn))
    have hc : c ≠ EOS_CHAR := fun h => ha (by rw [h]; exact List.mem_cons_self)
    rw [wcsncmpEq, decide_eq_true_iff]
    cases b with
    | nil => exact iff_of_false (fun h => hc h.1) nofun
    | cons d b =>
      have hrest := @ih b (fun h => ha (List.mem_cons_of_mem c h))
        (fun h => hb (List.mem_cons_of_mem d h)) n (Nat.lt_of_succ_lt_succ hn)
      constructor
      · rintro ⟨hd, hor⟩
        have htail := hor.resolve_left hc
        have hab := hrest.mp htail
        rw [show c = d from hd, hab]
      · intro h
        obtain ⟨hd, hab⟩ := List.cons.inj h
        exact ⟨hd, .inr (hrest.mpr hab)⟩

/-- The text an entry holds. -/
def heldText (text : Text) : Option (List WCHAR) :=
  if text.chars = [] then none else some (definition text)

theorem definition_length_eq_zero (text : Text) :
    (definition text).length = 0 ↔ text.chars = [] := by
  unfold definition
  split
  · rename_i h
    exact iff_of_true rfl h
  · rename_i h
    exact iff_of_false (by rw [List.length_append]; exact Nat.succ_ne_zero _) h

theorem newText_eq (text : Text) :
    (if (definition text).length = 0 then none else some (definition text)) = heldText text := by
  unfold heldText
  by_cases h : text.chars = []
  · rw [if_pos ((definition_length_eq_zero text).mpr h), if_pos h]
  · rw [if_neg (mt (definition_length_eq_zero text).mp h), if_neg h]

/-- On texts of the source `redefn` is exact. -/
theorem redefn_heldText (new old : Text) :
    redefn (heldText new) (heldText old) (definition new).length = false ↔
      heldText new = heldText old := by
  unfold heldText
  by_cases hnew : new.chars = []
  · by_cases hold : old.chars = []
    · rw [if_pos hnew, if_pos hold]
      exact iff_of_true rfl rfl
    · rw [if_pos hnew, if_neg hold]
      exact iff_of_false nofun nofun
  · by_cases hold : old.chars = []
    · rw [if_neg hnew, if_pos hold]
      exact iff_of_false nofun nofun
    · rw [if_neg hnew, if_neg hold]
      have hnew' : definition new = new.chars ++ [EOS_CHAR, EOS_DEFINITION] := if_neg hnew
      have hold' : definition old = old.chars ++ [EOS_CHAR, EOS_DEFINITION] := if_neg hold
      have hlength : new.chars.length < (definition new).length := by
        rw [hnew', List.length_append]
        exact Nat.lt_add_of_pos_right Nat.zero_lt_two
      have heq := @wcsncmpEq_terminated new.chars old.chars new.noEos old.noEos _ hlength
        [EOS_DEFINITION] [EOS_DEFINITION]
      simp only [redefn, Bool.not_eq_false', Option.some.injEq]
      rw [hnew'] at heq ⊢
      rw [hold', heq]
      constructor
      · intro h
        rw [h]
      · intro h
        exact List.append_inj_left' h rfl

/-! ## Runs -/

/-- Text and number of formals. -/
abbrev Meaning := Option (List WCHAR) × Int

/-- What a lookup finds. -/
def entry (ident : Text) (t : Table) : Option Meaning :=
  (getDefined ident t).map fun p => (p.text, p.nformals.toInt)

/-- What a directive says of its name. -/
def Directive.meaning : Directive → Option Meaning
  | define _ formals text => some (heldText text, nFormals formals)
  | undef _ => none

/-- What the last directive about a name says. -/
def lastMeaning (ident : Text) (ds : List Directive) : Option Meaning :=
  ds.foldl (fun m d => if d.ident = ident then d.meaning else m) none

theorem lastMeaning_snoc (ident : Text) (ds : List Directive) (d : Directive) :
    lastMeaning ident (ds ++ [d]) =
      if d.ident = ident then d.meaning else lastMeaning ident ds := by
  unfold lastMeaning
  rw [List.foldl_append]
  rfl

theorem lastMeaning_cases (ident : Text) (ds : List Directive) :
    lastMeaning ident ds = none ∨
      ∃ formals text, lastMeaning ident ds = some (heldText text, nFormals formals) := by
  rcases List.eq_nil_or_concat ds with rfl | ⟨ds', d, rfl⟩
  · exact .inl rfl
  · rw [List.concat_eq_append, lastMeaning_snoc]
    split
    · cases d with
      | define name formals text => exact .inr ⟨formals, text, rfl⟩
      | undef name => exact .inl rfl
    · exact lastMeaning_cases ident ds'
termination_by ds.length

/-- The condition on a directive: `defined` is not defined, a `char` holds the number of
formals, and a definition that is not undefined before is repeated with the same number
of formals, or has another text that is not empty. -/
def Tells (d : Directive) (t : Table) : Prop :=
  match d with
  | .define ident formals text =>
    ident ≠ defined ∧ nFormals formals ≤ 127 ∧
      ∀ m, entry ident t = some m →
        if m.1 = heldText text then m.2 = nFormals formals else text.chars ≠ []
  | .undef _ => True

theorem nFormals_ge (formals : Option Nat) : -1 ≤ nFormals formals := by
  cases formals with
  | none => exact Int.negSucc_le_zero 0
  | some k =>
    cases k with
    | zero => exact Int.le_refl _
    | succ k =>
      change (-1 : Int) ≤ k + 1
      omega

theorem toInt_install {text : List WCHAR} {formals : Option Nat} {p : Defn}
    (hle : nFormals formals ≤ 127) :
    (install text (nFormals formals) p).nformals.toInt = nFormals formals := by
  have hge := nFormals_ge formals
  have hne : nFormals formals ≠ FROM_COMMAND := by
    unfold FROM_COMMAND
    omega
  unfold install
  simp only [if_neg hne, BitVec.toInt_ofInt]
  exact Int.bmod_eq_of_le (by omega) (by omega)

theorem text_install {text : Text} {formals : Option Nat} {p : Defn}
    (h : text.chars = [] → p.text = none) :
    (install (definition text) (nFormals formals) p).text = heldText text := by
  have hge := nFormals_ge formals
  have hne : nFormals formals ≠ FROM_COMMAND := by
    unfold FROM_COMMAND
    omega
  unfold install heldText
  by_cases hempty : text.chars = []
  · rw [if_pos ((definition_length_eq_zero text).mpr hempty), if_pos hempty]
    exact h hempty
  · rw [if_neg (mt (definition_length_eq_zero text).mp hempty), if_neg hempty, if_neg hne]

theorem plain_of_entry {p : Defn} {formals : Option Nat} (h : p.nformals.toInt = nFormals formals) :
    preDefined p = false := by
  have hge := nFormals_ge formals
  unfold preDefined FROM_COMMAND
  rw [decide_eq_false_iff_not, h]
  omega

theorem entry_define {ident : Text} {formals : Option Nat} {text : Text} {t : Table}
    (hheld : entry ident t = none ∨
      ∃ formals' text', entry ident t = some (heldText text', nFormals formals'))
    (htells : Tells (.define ident formals text) t) :
    entry ident ((Directive.define ident formals text).run t) =
      some (heldText text, nFormals formals) := by
  obtain ⟨hreserved, hle, hsame⟩ := htells
  change entry ident (definstall ident (definition text) (nFormals formals) t) = _
  cases hp : getDefined ident t with
  | none =>
    rcases definstall_cases ident (definition text) (nFormals formals) t with
      ⟨-, hor⟩ | ⟨-, p, hp'⟩ | ⟨hnone, h⟩
    · rcases hor with hdefined | ⟨p, hp', -⟩
      · exact absurd hdefined hreserved
      · rw [hp] at hp'
        cases hp'
    · rw [hp] at hp'
      cases hp'
    · unfold entry
      rw [h]
      have hpush := getDefined_push_self (p := install (definition text) (nFormals formals)
        ⟨ident, none, 0⟩) hnone
      rw [show getDefined ident _ = _ from hpush]
      simp only [Option.map_some]
      rw [text_install fun _ => rfl, toInt_install hle]
  | some p =>
    have hentry : entry ident t = some (p.text, p.nformals.toInt) := by
      unfold entry
      rw [hp]
      rfl
    rcases hheld with hnone | ⟨formals', text', hheld⟩
    · rw [hentry] at hnone
      cases hnone
    have hboth := Option.some.inj (hentry.symm.trans hheld)
    have htext : p.text = heldText text' := congrArg Prod.fst hboth
    have hformals : p.nformals.toInt = nFormals formals' := congrArg Prod.snd hboth
    have hcond := hsame _ hheld
    rcases definstall_cases ident (definition text) (nFormals formals) t with
      ⟨h, hor⟩ | ⟨h, -⟩ | ⟨hnone, -⟩
    · rcases hor with hdefined | ⟨q, hq, hor⟩
      · exact absurd hdefined hreserved
      rw [hp] at hq
      cases hq
      rcases hor with hpre | hredefn
      · rw [plain_of_entry hformals] at hpre
        cases hpre
      -- the texts are the same, so the condition gives the number of formals
      rw [newText_eq, htext, redefn_heldText] at hredefn
      rw [if_pos hredefn.symm] at hcond
      rw [h, hheld, hredefn, show nFormals formals' = nFormals formals from hcond]
    · unfold entry
      rw [h, getDefined_change_self, hp]
      simp only [Option.map_some]
      have hempty : text.chars = [] → p.text = none := by
        intro hempty
        by_cases htexts : heldText text' = heldText text
        · rw [htext, htexts]
          exact if_pos hempty
        · rw [if_neg htexts] at hcond
          exact absurd hempty hcond
      rw [text_install hempty, toInt_install hle]
    · rw [hp] at hnone
      cases hnone

theorem entry_undef {ident : Text} {t : Table}
    (hheld : entry ident t = none ∨
      ∃ formals text, entry ident t = some (heldText text, nFormals formals)) :
    entry ident ((Directive.undef ident).run t) = none := by
  change entry ident (undefine ident t) = none
  unfold entry
  rw [getDefined_undefine_self]
  · rfl
  · intro p hp
    unfold entry at hheld
    rw [hp] at hheld
    rcases hheld with hnone | ⟨formals, text, hheld⟩
    · cases hnone
    · exact plain_of_entry (congrArg Prod.snd (Option.some.inj hheld))

/-- After every run of directives each of which tells its definition, a name that is not
predefined has the text and the number of formals of its last directive, and no other
name has changed. -/
theorem macro_table_map {t₀ t : Table} {ds : List Directive}
    (hrun : Lib.Run (fun t d t' => t' = Directive.run d t ∧ Tells d t) t₀ ds t) (ident : Text) :
    (getDefined ident t₀ = none → entry ident t = lastMeaning ident ds) ∧
      ((∀ d ∈ ds, d.ident ≠ ident) → getDefined ident t = getDefined ident t₀) := by
  apply hrun.history (I := fun ds t =>
    (getDefined ident t₀ = none → entry ident t = lastMeaning ident ds) ∧
      ((∀ d ∈ ds, d.ident ≠ ident) → getDefined ident t = getDefined ident t₀))
  · refine ⟨?_, fun _ => rfl⟩
    intro hnone
    unfold entry
    rw [hnone]
    rfl
  · rintro hist t d t' ⟨hmap, hother⟩ ⟨rfl, htells⟩
    refine ⟨?_, ?_⟩
    · intro hnone
      have hheld := lastMeaning_cases ident hist
      rw [← hmap hnone] at hheld
      rw [lastMeaning_snoc]
      by_cases hident : d.ident = ident
      · subst hident
        rw [if_pos rfl]
        cases d with
        | define name formals text => exact entry_define hheld htells
        | undef name => exact entry_undef hheld
      · rw [if_neg hident]
        unfold entry
        rw [getDefined_run_ne hident]
        exact hmap hnone
    · intro hall
      rw [getDefined_run_ne (hall d (List.mem_append_right hist List.mem_cons_self))]
      exact hother fun d' hd' => hall d' (List.mem_append_left [d] hd')

def emptyTable : Table where
  chains _ := []
  placed _ := nofun
  distinct _ := .nil

def nameA : Text := ⟨[0x41], by decide⟩

def textX : Text := ⟨[0x78], by decide⟩

def emptyText : Text := ⟨[], by decide⟩

theorem macro_table_map_redefined :
    entry nameA ((Directive.define nameA (some 1) textX).run
      ((Directive.define nameA none emptyText).run emptyTable)) =
      some (some [0x78, EOS_CHAR, EOS_DEFINITION], 1) := by
  have hfirst : Tells (.define nameA none emptyText) emptyTable := by
    refine ⟨by decide, by decide, ?_⟩
    intro m hm
    cases hm
  have hsecond : Tells (.define nameA (some 1) textX)
      ((Directive.define nameA none emptyText).run emptyTable) := by
    refine ⟨by decide, by decide, ?_⟩
    intro m hm
    split
    · rename_i heq
      cases hm
      cases heq
    · exact List.cons_ne_nil _ _
  exact (macro_table_map (.snoc (.snoc .nil ⟨rfl, hfirst⟩) ⟨rfl, hsecond⟩) nameA).1 rfl

/-- A macro redefined with an empty text keeps the old one. -/
theorem empty_redefinition_lost :
    ¬ ∀ (t₀ t : Table) (ds : List Directive) (ident : Text),
      Lib.Run (fun t d t' => t' = Directive.run d t) t₀ ds t → getDefined ident t₀ = none →
      entry ident t = lastMeaning ident ds := by
  intro h
  have hstale := h emptyTable _ [.define nameA none textX, .define nameA none emptyText] nameA
    (.snoc (.snoc .nil rfl) rfl) rfl
  cases hstale

end SdkTools.Rc
