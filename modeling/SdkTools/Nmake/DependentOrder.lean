import SdkTools.Lib.Fallible
import SdkTools.Nmake.DependentList
import Mathlib.Data.List.Perm.Basic
import Mathlib.Data.List.TakeWhile

/-!
# Which lists of dependents are complete

The tokens are the dependents of the text. With `/O` a search for the time of a file takes
the place of the search of a wildcard, and an element that goes to the head takes the place
of the list.
-/

namespace SdkTools.Nmake.DependentList

open Lib

set_option autoImplicit false

/-! ### Insertion -/

theorem insertWalk_eq (item : Int) (current l : List DEPLIST) :
    insertWalk item current l =
      (if (l.takeWhile (item ≤ ·.depTime)).length = 0 then current
        else l.drop ((l.takeWhile (item ≤ ·.depTime)).length - 1),
        l.dropWhile (item ≤ ·.depTime)) := by
  induction l generalizing current with
  | nil => rfl
  | cons p next ih =>
    unfold insertWalk
    by_cases hle : item ≤ p.depTime
    · rw [if_pos hle, ih, List.takeWhile_cons_of_pos (by simpa using hle),
        List.dropWhile_cons_of_pos (by simpa using hle), List.length_cons]
      generalize (next.takeWhile _).length = n
      cases n with
      | zero => rfl
      | succ n => rfl
    · rw [if_neg hle, List.takeWhile_cons_of_neg (by simpa using hle),
        List.dropWhile_cons_of_neg (by simpa using hle)]
      rfl

/-- The elements that are not older come first; without any the list is lost. -/
theorem insertSort_eq (l : List DEPLIST) (e : DEPLIST) :
    insertSort l e =
      if l.takeWhile (e.depTime ≤ ·.depTime) = [] then [e]
      else l.takeWhile (e.depTime ≤ ·.depTime) ++ e :: l.dropWhile (e.depTime ≤ ·.depTime) := by
  have happend := List.takeWhile_append_dropWhile (p := (e.depTime ≤ ·.depTime)) (l := l)
  have hlen := congrArg List.length happend
  rw [List.length_append] at hlen
  unfold insertSort
  rw [insertWalk_eq]
  generalize hbefore : l.takeWhile (e.depTime ≤ ·.depTime) = before at *
  generalize hafter : l.dropWhile (e.depTime ≤ ·.depTime) = after at *
  cases before with
  | nil =>
    have hall : after = l := by simpa using happend
    simp [hall]
  | cons b before =>
    have hne : ¬ (l.drop (before.length + 1 - 1)).length = after.length := by
      rw [List.length_drop]
      simp only [List.length_cons] at hlen
      omega
    have htake : l.length - (l.drop (before.length + 1 - 1)).length + 1 =
        (b :: before).length := by
      rw [List.length_drop]
      simp only [List.length_cons] at hlen ⊢
      omega
    simp only [List.length_cons, Nat.add_eq_zero_iff, Nat.one_ne_zero, and_false, if_false, hne,
      htake, List.cons_ne_nil]
    rw [← happend, ← List.length_cons, List.take_left]

/-- An element that is not newer than the head. -/
theorem insertSort_cons {h e : DEPLIST} (l : List DEPLIST) (hle : e.depTime ≤ h.depTime) :
    insertSort (h :: l) e = h :: (l.takeWhile (e.depTime ≤ ·.depTime) ++
      e :: l.dropWhile (e.depTime ≤ ·.depTime)) := by
  rw [insertSort_eq, List.takeWhile_cons_of_pos (by simpa using hle),
    List.dropWhile_cons_of_pos (by simpa using hle), if_neg (List.cons_ne_nil _ _)]
  rfl

theorem insertSort_newer {h e : DEPLIST} (l : List DEPLIST) (hlt : ¬ e.depTime ≤ h.depTime) :
    insertSort (h :: l) e = [e] := by
  rw [insertSort_eq, List.takeWhile_cons_of_neg (by simpa using hlt), if_pos rfl]

theorem insertSort_perm {h e : DEPLIST} (l : List DEPLIST) (hle : e.depTime ≤ h.depTime) :
    (insertSort (h :: l) e).Perm (e :: h :: l) := by
  rw [insertSort_cons l hle]
  have hmiddle : (l.takeWhile (e.depTime ≤ ·.depTime) ++
      e :: l.dropWhile (e.depTime ≤ ·.depTime)).Perm (e :: l) := by
    have happend := List.takeWhile_append_dropWhile (p := (e.depTime ≤ ·.depTime)) (l := l)
    have hperm := List.perm_middle.trans (List.Perm.of_eq (congrArg (e :: ·) happend))
    exact hperm
  exact (hmiddle.cons h).trans (List.Perm.swap e h l)

theorem Sorted.insertSort {l : List DEPLIST} (hl : Sorted l) (e : DEPLIST) :
    Sorted (insertSort l e) := by
  rw [insertSort_eq]
  split
  · exact List.pairwise_singleton _ _
  · have happend := List.takeWhile_append_dropWhile (p := (e.depTime ≤ ·.depTime)) (l := l)
    have hparts := hl
    rw [← happend] at hparts
    obtain ⟨hbefore, hafter, hcross⟩ := List.pairwise_append.mp hparts
    apply List.pairwise_append.mpr
    refine ⟨hbefore, ?_, ?_⟩
    · apply List.pairwise_cons.mpr
      refine ⟨?_, hafter⟩
      intro a ha
      cases hdrop : l.dropWhile (e.depTime ≤ ·.depTime) with
      | nil =>
        rw [hdrop] at ha
        cases ha
      | cons d more =>
        have hnot := List.head_dropWhile_not (e.depTime ≤ ·.depTime) (l := l)
          (by rw [hdrop]; exact List.cons_ne_nil _ _)
        simp only [hdrop, List.head_cons, decide_eq_false_iff_not, Int.not_le] at hnot
        rw [hdrop] at ha hafter
        rcases List.mem_cons.mp ha with rfl | ha
        · exact Int.le_of_lt hnot
        · exact Int.le_trans ((List.pairwise_cons.mp hafter).1 a ha) (Int.le_of_lt hnot)
    · intro a ha b hb
      rcases List.mem_cons.mp hb with rfl | hb
      · simpa using List.mem_takeWhile_imp ha
      · exact hcross a ha b hb

/-- Nothing is lost exactly when the new element is not newer than the head. -/
theorem insertSort_keeps_iff (l : List DEPLIST) (e : DEPLIST) :
    (insertSort l e).Perm (e :: l) ↔ ∀ first ∈ l.head?, e.depTime ≤ first.depTime := by
  cases l with
  | nil =>
    constructor
    · intro _ first hfirst
      cases hfirst
    · intro _
      exact List.Perm.refl _
  | cons h l =>
    constructor
    · intro hperm first hfirst
      cases hfirst
      by_contra hnewer
      rw [insertSort_newer l hnewer] at hperm
      exact absurd hperm.length_eq (by simp)
    · intro hall
      exact insertSort_perm l (hall h rfl)

theorem length_insertSort_le (l : List DEPLIST) (e : DEPLIST) :
    (insertSort l e).length ≤ l.length + 1 := by
  cases l with
  | nil => exact Nat.le_refl _
  | cons h l =>
    by_cases hle : e.depTime ≤ h.depTime
    · exact Nat.le_of_eq (insertSort_perm l hle).length_eq
    · rw [insertSort_newer l hle]
      simp

theorem length_foldl_insertSort_le (es l : List DEPLIST) :
    (es.foldl insertSort l).length ≤ l.length + es.length := by
  induction es generalizing l with
  | nil => exact Nat.le_refl _
  | cons e es ih =>
    have hstep := length_insertSort_le l e
    have hrest := ih (insertSort l e)
    rw [List.foldl_cons, List.length_cons]
    omega

theorem Sorted.foldl_insertSort {l : List DEPLIST} (hl : Sorted l) (es : List DEPLIST) :
    Sorted (es.foldl DependentList.insertSort l) := by
  induction es generalizing l with
  | nil => exact hl
  | cons e es ih => exact ih (hl.insertSort e)

/-- No element is lost exactly when none is newer than the head. -/
theorem foldl_insertSort_keeps_iff (es : List DEPLIST) (h : DEPLIST) (l : List DEPLIST) :
    (es.foldl insertSort (h :: l)).Perm (es ++ h :: l) ↔ ∀ e ∈ es, e.depTime ≤ h.depTime := by
  induction es generalizing l with
  | nil => simp
  | cons e es ih =>
    rw [List.foldl_cons, List.forall_mem_cons]
    by_cases hle : e.depTime ≤ h.depTime
    · have hstep := insertSort_perm l hle
      rw [insertSort_cons l hle] at hstep ⊢
      rw [and_iff_right hle, ← ih]
      have hmove : (es ++ e :: h :: l).Perm (e :: es ++ h :: l) := List.perm_middle
      exact ((hstep.append_left es).trans hmove).symm.congr_right _
    · rw [insertSort_newer l hle]
      constructor
      · intro hperm
        have hlen := hperm.length_eq
        have hbound := length_foldl_insertSort_le es [e]
        simp only [List.length_append, List.length_cons, List.length_nil] at hlen hbound
        omega
      · intro hall
        exact absurd hall.1 hle

/-! ### Tokens -/

section

variable {u : Text}

/-- A token can end here. -/
def Ends (u : Text) : Prop := ∀ b ∈ u.head?, WHITESPACE b = true

theorem upTo_append (s u : Text) : upTo (s ++ u) u = s := by
  rw [upTo, List.length_append, Nat.add_sub_cancel, List.take_left]

theorem dropWhile_of_head {p : Char → Bool} (h : ∀ c ∈ u.head?, p c = false) :
    u.dropWhile p = u := by
  cases u with
  | nil => rfl
  | cons c u => rw [List.dropWhile_cons_of_neg (by simp [h c rfl])]

theorem closeToken_quoted {q : Text} (hq : ∀ c ∈ q, c ≠ '"') (s : Text) :
    closeToken (s ++ u) ('"' :: q ++ ['"'] ++ u) = .ok (some (s, u.tail)) := by
  have hdrop : (q ++ '"' :: u).dropWhile (· ≠ '"') = '"' :: u := by
    rw [List.dropWhile_append_of_pos (by simpa using hq), dropWhile_of_head]
    intro c hc
    cases hc
    rfl
  have htail : ('"' :: q ++ ['"'] ++ u).tail = q ++ '"' :: u := by simp
  rw [closeToken, htail, hdrop]
  dsimp only
  rw [upTo_append]

theorem closeWord_word {n : Text} (hn : ∀ c ∈ n, WHITESPACE c = false) (hu : Ends u)
    (s : Text) : closeWord (s ++ u) (n ++ u) = .ok (some (s, u.tail)) := by
  have hdrop : (n ++ u).dropWhile (fun c => !WHITESPACE c) = u := by
    rw [List.dropWhile_append_of_pos (by simpa using hn), dropWhile_of_head]
    intro c hc
    rw [hu c hc]
    rfl
  rw [closeWord, hdrop, upTo_append]

theorem skipQuoted_other {s : Text} (h : s.head? ≠ some '"') : skipQuoted s = s := if_neg h

theorem skipBrace_cons (c : Char) (s : Text) :
    skipBrace (c :: s) =
      if (skipQuoted s).head? = some '}' then skipQuoted s else skipBrace (skipQuoted s) := by
  conv_lhs => unfold skipBrace

/-- Only what follows the quoted part matters. -/
theorem skipBrace_skipQuoted {s : Text} (h : (skipQuoted s).head? ≠ some '"') (c b : Char) :
    skipBrace (c :: s) = skipBrace (b :: skipQuoted s) := by
  rw [skipBrace_cons, skipBrace_cons b, skipQuoted_other h]

theorem skipBrace_plain {c : Char} (hquote : c ≠ '"') (hbrace : c ≠ '}') (b : Char) (s : Text) :
    skipBrace (b :: c :: s) = skipBrace (c :: s) := by
  have hhead : (c :: s).head? ≠ some '"' := by simpa using hquote
  rw [skipBrace_cons b, skipQuoted_other hhead, if_neg (by simpa using hbrace)]

theorem skipBrace_pathList {p : Text} (hp : IsPathList p) (b : Char) (u : Text) :
    skipBrace (b :: (p ++ '}' :: u)) = '}' :: u := by
  induction hp generalizing b with
  | nil =>
    have hhead : ('}' :: u).head? ≠ some '"' := by simp
    rw [List.nil_append, skipBrace_cons, skipQuoted_other hhead]
    exact if_pos rfl
  | plain hc _ ih =>
    rw [List.cons_append, skipBrace_plain hc.1 hc.2.1]
    exact ih _
  | escape hc _ ih =>
    rw [List.cons_append, List.cons_append, skipBrace_plain (by decide) (by decide),
      skipBrace_plain hc.1 hc.2]
    exact ih _
  | @quoted q t hq hnext _ ih =>
    have hskip : skipQuoted ('"' :: q ++ '"' :: t ++ '}' :: u) = t ++ '}' :: u := by
      have htail : ('"' :: q ++ '"' :: t ++ '}' :: u).tail = q ++ '"' :: (t ++ '}' :: u) := by
        simp
      have hfirst : ('"' :: q ++ '"' :: t ++ '}' :: u).head? = some '"' := rfl
      rw [skipQuoted, if_pos hfirst, htail,
        List.dropWhile_append_of_pos (by simpa using fun c hc => (hq c hc).1), dropWhile_of_head]
      · rfl
      · intro c hc
        cases hc
        rfl
    have hhead : (t ++ '}' :: u).head? ≠ some '"' := by
      cases t with
      | nil => simp
      | cons c t => exact hnext
    rw [skipBrace_skipQuoted (by rw [hskip]; exact hhead) b b, hskip]
    exact ih b

theorem Dependent.head_text (d : Dependent) : ∃ c t, d.text = c :: t ∧ WHITESPACE c = false := by
  have hname : ∃ c t, d.name = c :: t ∧ WHITESPACE c = false := by
    cases hn : d.name with
    | nil =>
      have hisName := d.isName
      rw [hn] at hisName
      exact absurd hisName (by rintro (⟨hne, -, -⟩ | -); exact hne rfl)
    | cons c t =>
      have hisName := d.isName
      rw [hn] at hisName
      refine ⟨c, t, rfl, ?_⟩
      generalize heq : c :: t = n at hisName
      cases hisName with
      | word _ _ hn => exact hn c (heq ▸ List.mem_cons_self)
      | quoted _ =>
        cases heq
        rfl
  rw [Dependent.text]
  cases d.path with
  | none => exact hname
  | some p => exact ⟨'{', _, rfl, rfl⟩

theorem nextToken_text {w : Text} (hw : ∀ c ∈ w, WHITESPACE c = true) (d : Dependent)
    (hu : Ends u) : nextToken (w ++ d.text ++ u) = .ok (some (d.text, u.tail)) := by
  obtain ⟨c, t, htext, hc⟩ := d.head_text
  have hdrop : (w ++ d.text ++ u).dropWhile WHITESPACE = d.text ++ u := by
    rw [List.append_assoc, List.dropWhile_append_of_pos hw, dropWhile_of_head]
    intro b hb
    rw [htext] at hb
    cases hb
    exact hc
  have hne : d.text ++ u ≠ [] := by
    rw [htext]
    exact List.cons_ne_nil _ _
  rw [nextToken, hdrop]
  simp only [hne, if_false]
  have hisPath := d.isPath
  have hisName := d.isName
  rw [Dependent.text] at *
  cases hpath : d.path with
  | none =>
    simp only [hpath] at hisPath ⊢
    generalize d.name = n at hisName hisPath
    cases hisName with
    | word hn hquote hwhite =>
      have hhead : (n ++ u).head? = n.head? := by
        cases n with
        | nil => exact absurd rfl hn
        | cons c n => rfl
      rw [hhead, if_neg hquote, if_neg hisPath]
      exact closeWord_word hwhite hu n
    | quoted hq => exact closeToken_quoted hq _
  | some p =>
    simp only [hpath] at hisPath ⊢
    have hbrace := skipBrace_pathList hisPath '{' (d.name ++ u)
    have hassoc : '{' :: p ++ '}' :: d.name ++ u = '{' :: (p ++ '}' :: (d.name ++ u)) := by simp
    have hfirst : ('{' :: p ++ '}' :: d.name ++ u).head? = some '{' := rfl
    rw [hfirst, if_neg (by decide), if_pos rfl]
    rw [← hassoc] at hbrace
    rw [hbrace]
    dsimp only
    generalize d.name = n at hisName
    cases hisName with
    | word hn hquote hwhite =>
      have hhead : (n ++ u).head? = n.head? := by
        cases n with
        | nil => exact absurd rfl hn
        | cons c n => rfl
      rw [hhead, if_neg hquote]
      exact closeWord_word hwhite hu _
    | quoted hq => exact closeToken_quoted hq _

theorem nextToken_white {w : Text} (hw : ∀ c ∈ w, WHITESPACE c = true) :
    nextToken w = .ok none := by
  have hdrop : w.dropWhile WHITESPACE = [] := List.dropWhile_eq_nil_iff.mpr hw
  simp [nextToken, hdrop]

/-! ### Path lists -/

theorem findBrace_other {c : Char} (hbrace : c ≠ '}') (hesc : c ≠ ESCH) (s : Text) :
    findBrace (c :: s) = findBrace s := by
  conv_lhs => unfold findBrace
  rw [if_neg hbrace, if_neg hesc]

theorem findBrace_escape (c : Char) (s : Text) : findBrace (ESCH :: c :: s) = findBrace s := by
  conv_lhs => unfold findBrace
  rw [if_neg (by decide), if_pos rfl]

/-- An escape character before the closing quote is harmless. -/
theorem findBrace_quoted (s : Text) : ∀ q : Text, (∀ c ∈ q, c ≠ '}') →
    findBrace (q ++ '"' :: s) = findBrace s
  | [], _ => findBrace_other (by decide) (by decide) s
  | [c], hq => by
    by_cases hc : c = ESCH
    · rw [hc]
      exact findBrace_escape _ _
    · rw [List.cons_append, findBrace_other (hq c List.mem_cons_self) hc]
      exact findBrace_other (by decide) (by decide) s
  | c :: b :: q, hq => by
    obtain ⟨hbrace, hq⟩ := List.forall_mem_cons.mp hq
    by_cases hc : c = ESCH
    · rw [hc, List.cons_append, List.cons_append, findBrace_escape]
      exact findBrace_quoted s q (List.forall_mem_cons.mp hq).2
    · rw [List.cons_append, findBrace_other hbrace hc]
      exact findBrace_quoted s (b :: q) hq

theorem findBrace_pathList {p : Text} (hp : IsPathList p) (u : Text) :
    findBrace (p ++ '}' :: u) = .ok ('}' :: u) := by
  induction hp with
  | nil =>
    rw [List.nil_append]
    unfold findBrace
    rw [if_pos rfl]
  | plain hc _ ih =>
    rw [List.cons_append, findBrace_other hc.2.1 hc.2.2]
    exact ih
  | escape hc _ ih =>
    rw [List.cons_append, List.cons_append, findBrace_escape]
    exact ih
  | @quoted q t hq hnext _ ih =>
    have hassoc : '"' :: q ++ '"' :: t ++ '}' :: u = '"' :: (q ++ '"' :: (t ++ '}' :: u)) := by
      simp
    rw [hassoc, findBrace_other (by decide) (by decide),
      findBrace_quoted _ q fun c hc => (hq c hc).2]
    exact ih

theorem splitToken_text (d : Dependent) : splitToken d.text = .ok (d.path, d.name) := by
  have hisPath := d.isPath
  rw [Dependent.text]
  cases hpath : d.path with
  | none =>
    simp only [hpath] at hisPath
    exact if_neg hisPath
  | some p =>
    simp only [hpath] at hisPath
    have hfind : findBrace ('{' :: p ++ '}' :: d.name) = .ok ('}' :: d.name) := by
      rw [List.cons_append, findBrace_other (by decide) (by decide)]
      exact findBrace_pathList hisPath d.name
    have htake : upTo ('{' :: p ++ '}' :: d.name) ('}' :: d.name) = '{' :: p := upTo_append _ _
    simp only [splitToken, hfind, htake]
    rfl

end

end SdkTools.Nmake.DependentList
