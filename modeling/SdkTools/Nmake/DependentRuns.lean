import Mathlib
import SdkTools.Nmake.DependentOrder

/-!
# The list of dependents

Each dependent adds its elements, and so do the texts one after the other.
-/

namespace SdkTools.Nmake.DependentList

open Lib

set_option autoImplicit false

variable {fs : FileSystem}

/-! ### Searches -/

theorem findFirst_mem {s : Text} {f : FindData} {more : List FindData}
    (h : findFirst fs s = some (f, more)) : f ∈ fs.files (elide s) := by
  unfold findFirst at h
  cases hfiles : fs.files (elide s) with
  | nil =>
    rw [hfiles] at h
    cases h
  | cons g gs =>
    rw [hfiles] at h
    cases h
    exact List.mem_cons_self

/-- The search for a name without wildcards leaves nothing in the handle. -/
theorem findFirst_plain {s : Text} (hs : hasWildcard s = false) {f : FindData}
    {more : List FindData} (h : findFirst fs s = some (f, more)) : more = [] := by
  have helide : hasWildcard (elide s) = false := by
    rw [hasWildcard, List.any_eq_false] at hs ⊢
    intro c hc
    exact hs c (List.mem_of_mem_filter hc)
  unfold findFirst at h
  rw [helide] at h
  cases hfiles : fs.files (elide s) with
  | nil =>
    rw [hfiles] at h
    cases h
  | cons g gs =>
    rw [hfiles] at h
    cases h
    rfl

theorem searchDir_found {s name p : Text} {found : FindData × List FindData}
    (h : searchDir fs s name = some (p, found)) : findFirst fs p = some found := by
  have htry (s : Text) (h : (if hasWildcard s then none
      else (findFirst fs (s ++ name)).map fun found => (s ++ name, found)) = some (p, found)) :
      findFirst fs p = some found := by
    split at h
    · cases h
    · obtain ⟨found', hfound, heq⟩ := Option.map_eq_some_iff.mp h
      cases heq
      exact hfound
  exact htry _ h

theorem searchDirs_found {name p : Text} {found : FindData × List FindData} (path : Text)
    (s : Text) (h : searchDirs fs name s path = some (p, found)) :
    findFirst fs p = some found := by
  induction path generalizing s with
  | nil =>
    unfold searchDirs at h
    split at h
    · cases h
    · exact searchDir_found h
  | cons c path ih =>
    unfold searchDirs at h
    split at h
    · exact ih s h
    · split at h
      · split at h
        · exact ih [] h
        · split at h
          · cases h
            exact searchDir_found ‹_›
          · exact ih [] h
      · exact ih _ h

theorem searchPath_found {path : Option Text} {name p : Text}
    {found : FindData × List FindData} (h : searchPath fs path name = some (p, found)) :
    findFirst fs p = some found := by
  unfold searchPath at h
  split at h
  · cases h
    assumption
  · split at h
    · cases h
    · exact searchDirs_found _ _ h

/-! ### One dependent -/

theorem addLoop_append (fs : FileSystem) (again : Bool) (depName depPath : Text) (f : FindData)
    (handle : List FindData) (depList : List DEPLIST) :
    ∃ l, addLoop fs false again depName (handle.length + 1) depPath f handle depList =
        .ok (depList ++ l) ∧
      l.map (·.name) = quotedName depPath :: (if again && hasWildcard depName then
        handle.map fun f => quotedName (prependPath depName f.name) else []) := by
  induction handle generalizing depPath f depList with
  | nil =>
    refine ⟨[⟨quotedName depPath, getDateTime f⟩], ?_, ?_⟩
    · unfold addLoop
      simp [newElement, addElement]
    · split <;> rfl
  | cons g handle ih =>
    by_cases hmore : (again && hasWildcard depName) = true
    · obtain ⟨l, hrun, hnames⟩ :=
        ih (prependPath depName g.name) g (depList ++ [⟨quotedName depPath, getDateTime f⟩])
      refine ⟨⟨quotedName depPath, getDateTime f⟩ :: l, ?_, ?_⟩
      · rw [List.length_cons]
        unfold addLoop
        simp only [newElement, addElement, Bool.false_eq_true, if_false, hmore, if_true]
        rw [hrun, List.append_assoc]
        rfl
      · rw [if_pos hmore] at hnames ⊢
        rw [List.map_cons, hnames, List.map_cons]
    · refine ⟨[⟨quotedName depPath, getDateTime f⟩], ?_, ?_⟩
      · unfold addLoop
        simp [newElement, addElement, hmore]
      · rw [if_neg hmore]
        rfl

/-- With `/O` only one element is added: there is no search left to go on with. -/
theorem addLoop_insert {again : Bool} {depName depPath : Text}
    (h : (again && hasWildcard depName) = true → hasWildcard depPath = false) (fuel : Nat)
    (f : FindData) (handle : List FindData) (depList : List DEPLIST) :
    addLoop fs true again depName (fuel + 1) depPath f handle depList =
      .ok (insertSort depList ⟨quotedName depPath, fileTime fs depPath⟩) := by
  unfold addLoop
  cases hfind : findFirst fs depPath with
  | none => simp [newElement, addElement, hfind, fileTime]
  | some found =>
    obtain ⟨g, more⟩ := found
    by_cases hmore : (again && hasWildcard depName) = true
    · have hnone := findFirst_plain (h hmore) hfind
      simp [newElement, addElement, hfind, fileTime, hnone]
    · simp [newElement, addElement, hfind, fileTime, hmore]

/-- The first of the files that a dependent stands for. -/
def firstPath (fs : FileSystem) (d : Dependent) : Text := (expanded fs d).headD []

def elementOf (fs : FileSystem) (path : Text) : DEPLIST := ⟨quotedName path, fileTime fs path⟩

/-- What the dependents add to a list. -/
def Adds (fs : FileSystem) (fDescRebuildOrder : Bool) (ds : List Dependent)
    (l r : List DEPLIST) : Prop :=
  if fDescRebuildOrder then
    r = ((ds.map (firstPath fs)).map (elementOf fs)).foldl insertSort l
  else ∃ more, r = l ++ more ∧ more.map (·.name) = (ds.flatMap (expanded fs)).map quotedName

theorem Adds.nil (fDescRebuildOrder : Bool) (l : List DEPLIST) :
    Adds fs fDescRebuildOrder [] l l := by
  cases fDescRebuildOrder with
  | true => exact rfl
  | false => exact ⟨[], (List.append_nil l).symm, rfl⟩

theorem Adds.append {fDescRebuildOrder : Bool} {ds es : List Dependent} {l m r : List DEPLIST}
    (h : Adds fs fDescRebuildOrder ds l m) (hmore : Adds fs fDescRebuildOrder es m r) :
    Adds fs fDescRebuildOrder (ds ++ es) l r := by
  cases fDescRebuildOrder with
  | true =>
    simp only [Adds, if_true] at h hmore ⊢
    rw [hmore, h, List.map_append, List.map_append, List.foldl_append]
  | false =>
    obtain ⟨x, rfl, hx⟩ := h
    obtain ⟨y, rfl, hy⟩ := hmore
    refine ⟨x ++ y, List.append_assoc _ _ _, ?_⟩
    rw [List.map_append, hx, hy, List.flatMap_append, List.map_append]

theorem addToken_text (fs : FileSystem) (fDescRebuildOrder : Bool) (d : Dependent)
    (l : List DEPLIST) :
    ∃ r, addToken fs fDescRebuildOrder d.text l = .ok r ∧ Adds fs fDescRebuildOrder [d] l r := by
  rw [addToken, splitToken_text]
  simp only [bind, Except.bind]
  cases hfound : (if hasWildcard d.name || d.path.isSome then searchPath fs d.path d.name
      else none) with
  | none =>
    have hexpanded : expanded fs d = [d.name] := by
      unfold expanded
      rw [hfound]
    dsimp only
    cases fDescRebuildOrder with
    | true =>
      refine ⟨_, addLoop_insert (by simp) 0 noFile [] l, ?_⟩
      simp [Adds, firstPath, elementOf, hexpanded]
    | false =>
      obtain ⟨more, hrun, hnames⟩ := addLoop_append fs false d.name d.name noFile [] l
      exact ⟨_, hrun, more, rfl, by simpa [hexpanded] using hnames⟩
  | some found =>
    obtain ⟨depName, f, handle⟩ := found
    have hexpanded : expanded fs d = prependPath depName f.name ::
        (if hasWildcard depName then handle.map fun f => prependPath depName f.name else []) := by
      unfold expanded
      rw [hfound]
    dsimp only
    have hsearch : searchPath fs d.path d.name = some (depName, f, handle) := by
      split at hfound
      · exact hfound
      · cases hfound
    have hplain := fs.plain depName f (findFirst_mem (searchPath_found hsearch))
    cases fDescRebuildOrder with
    | true =>
      refine ⟨_, addLoop_insert (fun _ => hplain) handle.length f handle l, ?_⟩
      simp [Adds, firstPath, elementOf, hexpanded]
    | false =>
      obtain ⟨more, hrun, hnames⟩ :=
        addLoop_append fs true depName (prependPath depName f.name) f handle l
      refine ⟨_, hrun, more, rfl, ?_⟩
      rw [hnames, List.flatMap_singleton, hexpanded, List.map_cons]
      cases hasWildcard depName with
      | true => simp
      | false => rfl

/-! ### All dependents -/

theorem addTokens_text (fs : FileSystem) (fDescRebuildOrder : Bool) {t : Text} {ds : List Dependent}
    (h : Dependents t ds) {fuel : Nat} (hfuel : t.length < fuel) (l : List DEPLIST) :
    ∃ r, addTokens fs fDescRebuildOrder fuel t l = .ok r ∧ Adds fs fDescRebuildOrder ds l r := by
  induction h generalizing fuel l with
  | none hw =>
    obtain ⟨fuel, rfl⟩ : ∃ n, fuel = n + 1 := ⟨fuel - 1, by omega⟩
    refine ⟨l, ?_, .nil _ l⟩
    rw [addTokens, nextToken_white hw]
    rfl
  | last hw d =>
    obtain ⟨fuel, rfl⟩ : ∃ n, fuel = n + 1 := ⟨fuel - 1, by omega⟩
    have htoken := nextToken_text (u := []) hw d fun b hb => by cases hb
    rw [List.append_nil] at htoken
    obtain ⟨r, hadd, hadds⟩ := addToken_text fs fDescRebuildOrder d l
    refine ⟨r, ?_, hadds⟩
    obtain ⟨c, t, htext, -⟩ := d.head_text
    rw [htext, List.length_append, List.length_cons] at hfuel
    obtain ⟨fuel, rfl⟩ : ∃ n, fuel = n + 1 := ⟨fuel - 1, by omega⟩
    rw [addTokens, htoken]
    simp only [bind, Except.bind, hadd]
    rfl
  | @cons w hw d b hb t ds h ih =>
    obtain ⟨fuel, rfl⟩ : ∃ n, fuel = n + 1 := ⟨fuel - 1, by omega⟩
    have htoken := nextToken_text (u := b :: t) hw d fun c hc => by cases hc; exact hb
    obtain ⟨m, hadd, hadds⟩ := addToken_text fs fDescRebuildOrder d l
    rw [List.length_append, List.length_cons] at hfuel
    obtain ⟨r, hrun, hmore⟩ := ih (show t.length < fuel by omega) m
    refine ⟨r, ?_, hadds.append hmore⟩
    rw [addTokens, htoken]
    simp only [bind, Except.bind, hadd, List.tail_cons]
    exact hrun

theorem addSources_texts (fs : FileSystem) (fDescRebuildOrder : Bool) {sources : List Text}
    {ds : List Dependent}
    (h : AllDependents sources ds) (l : List DEPLIST) :
    ∃ r, addSources fs fDescRebuildOrder sources l = .ok r ∧ Adds fs fDescRebuildOrder ds l r := by
  induction h generalizing l with
  | nil => exact ⟨l, rfl, .nil _ l⟩
  | cons h _ ih =>
    obtain ⟨m, hrun, hadds⟩ :=
      addTokens_text fs fDescRebuildOrder h (Nat.lt_succ_self _) l
    obtain ⟨r, hmore, haddsMore⟩ := ih m
    refine ⟨r, ?_, hadds.append haddsMore⟩
    rw [addSources, hrun]
    exact hmore

/-! ### Complete lists -/

theorem length_expanded_pos (fs : FileSystem) (d : Dependent) : 0 < (expanded fs d).length := by
  unfold expanded
  dsimp only
  split
  · exact Nat.succ_pos _
  · exact Nat.succ_pos _

/-- There are as many files as dependents only when each stands for one. -/
theorem length_flatMap_expanded (fs : FileSystem) (ds : List Dependent) :
    ds.length ≤ (ds.flatMap (expanded fs)).length ∧
      ((ds.flatMap (expanded fs)).length ≤ ds.length →
        ∀ d ∈ ds, (expanded fs d).length = 1) := by
  induction ds with
  | nil => simp
  | cons d ds ih =>
    have hpos := length_expanded_pos fs d
    rw [List.flatMap_cons, List.length_append, List.length_cons, List.forall_mem_cons]
    refine ⟨by omega, fun h => ⟨by omega, ih.2 (by omega)⟩⟩

theorem flatMap_expanded_eq {ds : List Dependent} (h : ∀ d ∈ ds, (expanded fs d).length = 1) :
    ds.flatMap (expanded fs) = ds.map (firstPath fs) := by
  induction ds with
  | nil => rfl
  | cons d ds ih =>
    obtain ⟨hd, hds⟩ := List.forall_mem_cons.mp h
    obtain ⟨p, hp⟩ := List.length_eq_one_iff.mp hd
    rw [List.flatMap_cons, List.map_cons, ih hds, firstPath, hp]
    rfl

theorem foldl_insertSort_perm_iff (paths : List Text) :
    (((paths.map (elementOf fs)).foldl insertSort []).Perm (paths.map (elementOf fs))) ↔
      ∀ first ∈ paths.head?, ∀ path ∈ paths, fileTime fs path ≤ fileTime fs first := by
  cases paths with
  | nil => simp
  | cons first paths =>
    have hkeeps := foldl_insertSort_keeps_iff (paths.map (elementOf fs)) (elementOf fs first) []
    have hmove : (paths.map (elementOf fs) ++ [elementOf fs first]).Perm
        (elementOf fs first :: paths.map (elementOf fs)) := List.perm_append_singleton _ _
    rw [hmove.congr_right] at hkeeps
    rw [List.map_cons, List.foldl_cons]
    refine hkeeps.trans ?_
    constructor
    · intro hall f hf path hpath
      cases hf
      rcases List.mem_cons.mp hpath with rfl | hpath
      · exact Int.le_refl _
      · exact hall _ (List.mem_map_of_mem hpath)
    · intro hall e he
      obtain ⟨path, hpath, rfl⟩ := List.mem_map.mp he
      exact hall first rfl path (List.mem_cons_of_mem _ hpath)

theorem Adds.complete_iff {fDescRebuildOrder : Bool} {ds : List Dependent} {l : List DEPLIST}
    (h : Adds fs fDescRebuildOrder ds [] l) :
    Complete fs fDescRebuildOrder ds l ↔ (fDescRebuildOrder = true → FirstNewest fs ds) := by
  cases fDescRebuildOrder with
  | false =>
    obtain ⟨more, rfl, hnames⟩ := h
    constructor
    · intro _ hfalse
      cases hfalse
    · intro _
      exact hnames
  | true =>
    simp only [Adds, if_true] at h
    simp only [Complete, if_true, forall_true_left]
    constructor
    · rintro ⟨hperm, -⟩
      have hbound := length_foldl_insertSort_le ((ds.map (firstPath fs)).map (elementOf fs)) []
      have hlen := hperm.length_eq
      rw [← h] at hbound
      simp only [List.length_map, List.length_nil] at hbound hlen
      have hsingle := (length_flatMap_expanded fs ds).2 (by omega)
      refine ⟨hsingle, ?_⟩
      rw [flatMap_expanded_eq hsingle] at hperm ⊢
      rw [h] at hperm
      exact (foldl_insertSort_perm_iff _).mp hperm
    · rintro ⟨hsingle, hnewest⟩
      rw [flatMap_expanded_eq hsingle] at hnewest ⊢
      rw [h]
      exact ⟨(foldl_insertSort_perm_iff _).mpr hnewest, Sorted.foldl_insertSort List.Pairwise.nil _⟩

/-- Without `/O` there is one element for each expanded dependent; with it, exactly when no
dependent stands for several files and none is newer than the first. The same way a sorted
list keeps its elements exactly when the new one is not newer than its head. -/
theorem createDepList_complete_iff (fs : FileSystem) (fDescRebuildOrder : Bool) {σ : Type}
    (expandMacros : Text → σ → Text × σ) (dependents : List Text) (dependentMacros : σ)
    {sources : List Text} {ds : List Dependent}
    (hsources : expandDependents expandMacros dependents dependentMacros = .ok sources)
    (hds : AllDependents sources ds) :
    ((∃ l, createDepList fs fDescRebuildOrder expandMacros dependents dependentMacros = .ok l ∧
        Complete fs fDescRebuildOrder ds l) ↔
      (fDescRebuildOrder = true → FirstNewest fs ds)) ∧
    ∀ (l : List DEPLIST) (e : DEPLIST), Sorted l →
      ((insertSort l e).Perm (e :: l) ∧ Sorted (insertSort l e) ↔
        ∀ first ∈ l.head?, e.depTime ≤ first.depTime) := by
  constructor
  · obtain ⟨r, hrun, hadds⟩ := addSources_texts fs fDescRebuildOrder hds []
    have hcreate : createDepList fs fDescRebuildOrder expandMacros dependents dependentMacros =
        .ok r := by
      rw [createDepList, hsources]
      exact hrun
    rw [← hadds.complete_iff]
    constructor
    · rintro ⟨l, hl, hcomplete⟩
      rw [hcreate] at hl
      cases hl
      exact hcomplete
    · intro hcomplete
      exact ⟨r, hcreate, hcomplete⟩
  · intro l e hsorted
    rw [and_iff_left (hsorted.insertSort e)]
    exact insertSort_keeps_iff l e

/-! ### Two files -/

theorem splitDir_plain {p : Text} (h : ∀ c ∈ p, c ≠ '\\' ∧ c ≠ '/' ∧ c ≠ ':') :
    splitDir p = [] := by
  have hbase : (p.reverse.takeWhile fun c => c ≠ '\\' ∧ c ≠ '/') = p.reverse := by
    apply List.takeWhile_eq_self_iff.mpr
    intro c hc
    obtain ⟨hback, hslash, -⟩ := h c (List.mem_reverse.mp hc)
    simp [hback, hslash]
  have hdrive : p[1]? ≠ some ':' := by
    intro hcolon
    exact (h ':' (List.mem_of_getElem? hcolon)).2.2 rfl
  simp only [splitDir, hbase, List.length_reverse, Nat.lt_irrefl, if_false, hdrive]

theorem mem_elide {p : Text} {c : Char} (hc : c ∈ p) : c ∈ elide p ∨ c = ESCH ∨ c = '"' := by
  by_cases h : c ≠ ESCH ∧ c ≠ '"'
  · exact Or.inl (List.mem_filter.mpr ⟨hc, by simpa using h⟩)
  · exact Or.inr (by tauto)

/-- A directory with `a`, and `b`, which is newer. -/
def twoFiles : FileSystem where
  files p :=
    if p = ['a'] then [⟨['a'], false, 0, 1⟩]
    else if p = ['b'] then [⟨['b'], false, 0, 2⟩]
    else if p = ['*'] then [⟨['a'], false, 0, 1⟩, ⟨['b'], false, 0, 2⟩]
    else []
  plain p f hf := by
    have hone : elide p = ['a'] ∨ elide p = ['b'] ∨ elide p = ['*'] := by
      by_contra hnone
      push Not at hnone
      rw [if_neg hnone.1, if_neg hnone.2.1, if_neg hnone.2.2] at hf
      cases hf
    have hdir : splitDir p = [] := by
      apply splitDir_plain
      intro c hc
      rcases mem_elide hc with hc | rfl | rfl
      · rcases hone with h | h | h
        all_goals
          rw [h, List.mem_singleton] at hc
          subst hc
          decide
      · decide
      · decide
    have hname : f.name = ['a'] ∨ f.name = ['b'] := by
      rcases hone with h | h | h
      all_goals
        rw [h] at hf
        simp at hf
      · exact Or.inl (hf ▸ rfl)
      · exact Or.inr (hf ▸ rfl)
      · rcases hf with rfl | rfl
        · exact Or.inl rfl
        · exact Or.inr rfl
    rw [prependPath, hdir]
    rcases hname with h | h
    all_goals
      rw [h]
      rfl

/-- A dependent that is one character. -/
def letter (c : Char) (hquote : c ≠ '"') (hbrace : c ≠ '{') (hwhite : WHITESPACE c = false) :
    Dependent where
  path := none
  name := [c]
  isName := .word (List.cons_ne_nil _ _) (by simpa using hquote) (by simpa using hwhite)
  isPath := by simpa using hbrace

def letterA : Dependent := letter 'a' (by decide) (by decide) rfl

def letterB : Dependent := letter 'b' (by decide) (by decide) rfl

theorem dependents_pair (d e : Dependent) :
    AllDependents [d.text ++ ' ' :: e.text] [d, e] := by
  have hlast : Dependents e.text [e] := .last (w := []) (by simp) e
  have hboth : Dependents (d.text ++ ' ' :: e.text) [d, e] := .cons (w := []) (by simp) d rfl hlast
  exact .cons hboth .nil

/-- With the newer file first nothing is lost. -/
theorem createDepList_newest_first :
    ∃ l, createDepList twoFiles true (fun s u => (s, u)) [['b', ' ', 'a']] () = .ok l ∧
      Complete twoFiles true [letterB, letterA] l := by
  apply (createDepList_complete_iff twoFiles true (fun s u => (s, u)) [['b', ' ', 'a']] () rfl
    (dependents_pair letterB letterA)).1.mpr
  intro _
  exact ⟨by decide, by decide⟩

/-- The newer file takes the place of the list; of the files that a wildcard matches only the
first is added. -/
theorem createDepList_loses :
    (createDepList twoFiles true (fun s u => (s, u)) [['a', ' ', 'b']] () = .ok [⟨['b'], 2⟩] ∧
      AllDependents [['a', ' ', 'b']] [letterA, letterB] ∧
      ¬ Complete twoFiles true [letterA, letterB] [⟨['b'], 2⟩]) ∧
    createDepList twoFiles true (fun s u => (s, u)) [['*']] () = .ok [⟨['a'], 1⟩] ∧
    insertSort [⟨['a'], 1⟩] ⟨['b'], 2⟩ = [⟨['b'], 2⟩] := by
  refine ⟨⟨rfl, dependents_pair letterA letterB, ?_⟩, rfl, rfl⟩
  intro hcomplete
  exact absurd hcomplete.1.length_eq (by decide)

end SdkTools.Nmake.DependentList
