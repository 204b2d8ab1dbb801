import SdkTools.Lib.Replacement
import SdkTools.Nmake.MacroValue

/-!
# Substitution in the value of a macro

The scans of an invocation meet at the same delimiters, and every character is stored
inside the block of the result, which grows when it is full.
-/

namespace SdkTools.Nmake.MacroValue

open Lib

set_option autoImplicit false

variable {mem : Memory}

/-! ### Storing characters -/

/-- A block that is needed cannot be allocated. -/
def NoMemory (mem : Memory) (e : Stop) : Prop :=
  ∃ n, (e = .OUT_OF_MEMORY n ∨ e = .MACRO_TOO_LONG n) ∧ mem.allocates n = false

/-- The text is appended to the result, unless a block cannot be allocated. -/
def Appends (mem : Memory) (r : Result) (s : Text) : Except Stop Result → Prop
  | .ok r' => r'.Valid ∧ r'.text = r.text ++ s
  | .error e => NoMemory mem e

theorem Appends.bind {r : Result} {s t : Text} {x : Except Stop Result}
    {f : Result → Except Stop Result} (h : Appends mem r s x)
    (hf : ∀ r', r'.Valid → Appends mem r' t (f r')) : Appends mem r (s ++ t) (x >>= f) := by
  cases x with
  | error e => exact h
  | ok r' =>
    obtain ⟨hvalid, htext⟩ := h
    have hmore := hf r' hvalid
    change Appends mem r (s ++ t) (f r')
    cases hrun : f r' with
    | error e =>
      rw [hrun] at hmore
      exact hmore
    | ok r'' =>
      rw [hrun] at hmore
      refine ⟨hmore.1, ?_⟩
      rw [hmore.2, htext, List.append_assoc]

theorem take_set {α : Type} {l : List α} {n : Nat} (c : α) (h : n < l.length) :
    (l.set n c).take (n + 1) = l.take n ++ [c] := by
  rw [List.set_eq_take_append_cons_drop, if_pos h, List.take_append,
    List.length_take, Nat.min_eq_left (Nat.le_of_lt h), Nat.add_sub_cancel_left, List.take_take,
    Nat.min_eq_right (Nat.le_succ n)]
  rfl

theorem store_appends (mem : Memory) {r : Result} (hr : r.Valid) (hroom : r.dest < r.length)
    (c : Char) :
    Appends mem r [c] (store r c) := by
  obtain ⟨hlength, hend, -, hbounded⟩ := hr
  have hin : r.dest < r.block.length := by omega
  rw [store, if_pos hin]
  exact ⟨⟨by rw [List.length_set]; exact hlength, hend, hroom, hbounded⟩, take_set c hin⟩

/-- A full block is replaced by a larger one with the same text. -/
theorem increaseBuffer_spec (mem : Memory) {r : Result} (hr : r.Valid) (hfull : r.dest = r.endPos) :
    (∃ r', increaseBuffer mem r = .ok r' ∧ r'.Valid ∧ r'.dest < r'.length ∧ r'.text = r.text) ∨
      ∃ e, increaseBuffer mem r = .error e ∧ NoMemory mem e := by
  obtain ⟨hlength, hend, -, hbounded⟩ := hr
  have hcopy : (∃ r₁, rallocate mem r = .ok r₁ ∧ r₁.block = r.block ∧ r₁.length = r.length) ∨
      ∃ e, rallocate mem r = .error e ∧ NoMemory mem e := by
    unfold rallocate
    by_cases hfirst : r.isFirst = true
    · rw [if_pos hfirst]
      cases hmem : mem.allocates r.length with
      | true => exact Or.inl ⟨_, rfl, List.take_of_length_le (Nat.le_of_eq hlength), rfl⟩
      | false => exact Or.inr ⟨_, rfl, _, Or.inl rfl, hmem⟩
    · rw [if_neg hfirst]
      exact Or.inl ⟨r, rfl, rfl, rfl⟩
  rcases hcopy with ⟨r₁, hcopy, hblock, hlen⟩ | ⟨e, hcopy, hmem⟩
  · have hsize : (r₁.length + MAXBUF) % 2 ^ 32 = r.length + MAXBUF := by
      rw [hlen]
      exact Nat.mod_eq_of_lt hbounded
    have hpos : 0 < MAXBUF := by decide
    rw [increaseBuffer, hcopy]
    simp only [bind, Except.bind, hsize]
    cases hmem : mem.allocates (r.length + MAXBUF) with
    | false => exact Or.inr ⟨_, rfl, _, Or.inr rfl, hmem⟩
    | true =>
      refine Or.inl ⟨_, rfl, ⟨?_, rfl, ?_, mem.bounded _ hmem⟩, ?_, ?_⟩
      · simp only [hblock, List.length_append, List.length_take, List.length_map,
          List.length_range]
        omega
      · dsimp only
        omega
      · dsimp only
        omega
      · have hall : r.block.take (r.length + MAXBUF) = r.block :=
          List.take_of_length_le (by omega)
        simp only [Result.text, hblock, hlen, hall]
        rw [List.take_append_of_le_length (by omega), hfull, hend]
  · rw [increaseBuffer, hcopy]
    exact Or.inr ⟨e, rfl, hmem⟩

theorem putChar_appends {r : Result} (hr : r.Valid) (c : Char) :
    Appends mem r [c] (putChar mem r c) := by
  unfold putChar
  by_cases hfull : r.dest = r.endPos
  · rw [if_pos hfull]
    rcases increaseBuffer_spec mem hr hfull with ⟨r', hgrow, hvalid, hroom, htext⟩ |
      ⟨e, hgrow, hmem⟩
    · rw [hgrow]
      have hstore := store_appends mem hvalid hroom c
      change Appends mem r [c] (store r' c)
      unfold Appends at hstore ⊢
      rw [htext] at hstore
      exact hstore
    · rw [hgrow]
      exact hmem
  · rw [if_neg hfull]
    have hend := hr.end_eq
    have hle := hr.dest_le
    exact store_appends mem hr (by omega) c

theorem putText_appends {r : Result} (hr : r.Valid) (s : Text) :
    Appends mem r s (putText mem s r) := by
  induction s generalizing r with
  | nil => exact ⟨hr, (List.append_nil _).symm⟩
  | cons c s ih => exact (putChar_appends hr c).bind fun r' hvalid => ih hvalid

/-! ### Replacing -/

theorem substituteLoop_appends (mem : Memory) {oldString newString : Text}
    (hold : oldString ≠ []) (fuel : Nat) (source : Text) {r : Result} (hr : r.Valid)
    (hfuel : source.length < fuel) :
    ∃ out, Replaced oldString newString source out ∧
      Appends mem r out (substituteLoop mem oldString newString fuel source r) := by
  induction fuel generalizing source r with
  | zero => omega
  | succ fuel ih =>
    have hpos := List.length_pos_iff.mpr hold
    cases source with
    | nil => exact ⟨[], .short hpos, hr, (List.append_nil _).symm⟩
    | cons c source =>
      rw [List.length_cons] at hfuel
      by_cases hmatch : oldString <+: c :: source
      · have hhead : oldString.head? = some c := by
          cases oldString with
          | nil => exact absurd rfl hold
          | cons d old =>
            rw [(List.cons_prefix_cons.mp hmatch).1]
            rfl
        obtain ⟨more, hmore⟩ := hmatch
        have hdrop : (c :: source).drop oldString.length = more := by
          rw [← hmore, List.drop_left]
        have hlen := congrArg List.length hmore
        rw [List.length_append, List.length_cons] at hlen
        obtain ⟨out, hreplaced, -⟩ := ih more hr (by omega)
        refine ⟨newString ++ out, hmore ▸ hreplaced.hit, ?_⟩
        rw [substituteLoop, if_pos ⟨hhead, more, hmore⟩, hdrop]
        apply (putText_appends hr newString).bind
        intro r' hvalid
        obtain ⟨out', hreplaced', happends⟩ := ih more hvalid (by omega)
        rw [hreplaced.unique hreplaced']
        exact happends
      · obtain ⟨out, hreplaced, -⟩ := ih source hr (by omega)
        refine ⟨c :: out, hreplaced.miss hmatch, ?_⟩
        rw [substituteLoop, if_neg fun h => hmatch h.2]
        apply Appends.bind (s := [c]) (putChar_appends hr c)
        intro r' hvalid
        obtain ⟨out', hreplaced', happends⟩ := ih source hvalid (by omega)
        rw [hreplaced.unique hreplaced']
        exact happends

/-! ### Scanning an invocation -/

section

variable {special : Char → Prop} {stop : Char} {t s : Text}

theorem scanTo_stop (stop : Char) (u : Text) : scanTo stop (stop :: u) = .ok (stop :: u) := by
  unfold scanTo
  rw [if_pos rfl]

theorem scanTo_other {c : Char} (hc : c ≠ stop) (he : c ≠ ESCH) (u : Text) :
    scanTo stop (c :: u) = scanTo stop u := by
  conv_lhs => unfold scanTo
  rw [if_neg hc, if_neg he]

theorem scanTo_escape (hne : stop ≠ ESCH) (c : Char) (u : Text) :
    scanTo stop (ESCH :: c :: u) = scanTo stop u := by
  conv_lhs => unfold scanTo
  rw [if_neg hne.symm, if_pos rfl]

theorem scanTo_escaped (h : Escaped special t s) (hstop : special stop) (hne : stop ≠ ESCH)
    (u : Text) : scanTo stop (t ++ u) = scanTo stop u := by
  induction h with
  | nil => rfl
  | @plain c t s hc he _ ih =>
    have hcs : c ≠ stop := by
      intro heq
      exact hc (heq ▸ hstop)
    rw [List.cons_append, scanTo_other hcs he]
    exact ih
  | escape c _ ih =>
    rw [List.cons_append, List.cons_append, scanTo_escape hne]
    exact ih

theorem copyTo_escaped (h : Escaped special t s) (hstop : special stop) (hne : stop ≠ ESCH)
    (u : Text) : copyTo stop (t ++ stop :: u) = .ok (s, stop :: u) := by
  induction h with
  | nil =>
    rw [List.nil_append]
    unfold copyTo
    rw [if_pos rfl]
  | @plain c t s hc he _ ih =>
    have hcs : c ≠ stop := by
      intro heq
      exact hc (heq ▸ hstop)
    rw [List.cons_append]
    unfold copyTo
    rw [if_neg hcs, if_neg he, ih]
    rfl
  | escape c _ ih =>
    rw [List.cons_append, List.cons_append]
    unfold copyTo
    rw [if_neg hne.symm, if_pos rfl]
    dsimp only
    rw [ih]
    rfl

theorem Escaped.ne_nil (h : Escaped special t s) (ht : t ≠ []) : s ≠ [] := by
  cases h with
  | nil => exact absurd rfl ht
  | plain _ _ _ => exact List.cons_ne_nil _ _
  | escape _ _ => exact List.cons_ne_nil _ _

theorem findColon_eq (h : ∀ c ∈ t, c ≠ ':') (u : Text) :
    findColon (t ++ ':' :: u) = some (':' :: u) := by
  have hdrop : (t ++ ':' :: u).dropWhile (· ≠ ':') = ':' :: u := by
    rw [List.dropWhile_append_of_pos (by simpa using h)]
    rfl
  rw [findColon, hdrop]

end

namespace Invocation

variable (inv : Invocation) (rest : Text)

/-- What follows the colon. -/
def tail : Text := inv.oldText ++ '=' :: (inv.newText ++ ')' :: rest)

theorem text_append :
    inv.text ++ rest = '$' :: '(' :: (inv.name ++ ':' :: inv.tail rest) := by
  simp [text, tail]

theorem oldString_ne_nil : inv.oldString ≠ [] := inv.old_escaped.ne_nil inv.old_ne_nil

theorem scanTo_equals :
    scanTo '=' (inv.tail rest) = .ok ('=' :: (inv.newText ++ ')' :: rest)) := by
  rw [tail, scanTo_escaped inv.old_escaped (Or.inl rfl) (by decide), scanTo_stop]

theorem scanTo_paren :
    scanTo ')' ('=' :: (inv.newText ++ ')' :: rest)) = .ok (')' :: rest) := by
  rw [scanTo_other (by decide) (by decide), scanTo_escaped inv.new_escaped rfl (by decide),
    scanTo_stop]

/-- The first parenthesis that is not escaped is the same from the start on. -/
theorem scanTo_whole :
    scanTo ')' ('(' :: (inv.name ++ ':' :: inv.tail rest)) = .ok (')' :: rest) := by
  rw [scanTo_other (by decide) (by decide),
    scanTo_escaped inv.name_escaped (Or.inr rfl) (by decide),
    scanTo_other (by decide) (by decide), tail,
    scanTo_escaped inv.old_escaped (Or.inr rfl) (by decide)]
  exact inv.scanTo_paren rest

theorem colonBefore_eq :
    colonBefore ('(' :: (inv.name ++ ':' :: inv.tail rest)) (')' :: rest) =
      some (':' :: inv.tail rest) := by
  have hname : ∀ c ∈ '(' :: inv.name, c ≠ ':' := by
    intro c hc
    rcases List.mem_cons.mp hc with rfl | hc
    · decide
    · intro heq
      exact inv.name_no_colon (heq ▸ hc)
  have hfind := findColon_eq hname (inv.tail rest)
  rw [List.cons_append] at hfind
  have hlen : (')' :: rest).length < (':' :: inv.tail rest).length := by
    simp only [tail, List.length_cons, List.length_append]
    omega
  simp only [colonBefore, List.head?_cons, if_true, hfind, if_pos hlen]

theorem substituteStrings_eq (mem : Memory) (source : Text) (r : Result) :
    substituteStrings mem (':' :: inv.tail rest) source r =
      substituteLoop mem inv.oldString inv.newString (source.length + 1) source r >>= fun r =>
        .ok (r, rest) := by
  have hne : '=' :: (inv.newText ++ ')' :: rest) ≠ inv.tail rest := by
    intro heq
    have hlen := congrArg List.length heq
    have hpos := List.length_pos_iff.mpr inv.old_ne_nil
    simp only [tail, List.length_cons, List.length_append] at hlen
    omega
  have hold := copyTo_escaped inv.old_escaped (Or.inl rfl) (by decide) (inv.newText ++ ')' :: rest)
  have hnew := copyTo_escaped inv.new_escaped rfl (by decide) rest
  rw [substituteStrings, List.tail_cons, inv.scanTo_equals]
  simp only [bind, Except.bind, List.cons_ne_nil, if_false, hne, inv.scanTo_paren]
  rw [← tail] at hold
  simp only [hold, List.tail_cons, hnew]

end Invocation

/-! ### The value -/

/-- The result and the position after `putValue`, unless a block cannot be allocated. -/
def Substitutes (mem : Memory) (inv : Invocation) (source rest : Text) (r : Result) :
    Except Stop (Result × Text) → Prop
  | .ok (r', name) => name = rest ∧ r'.Valid ∧
      ∃ out, Replaced inv.oldString inv.newString source out ∧ r'.text = r.text ++ out
  | .error e => NoMemory mem e

/-- `putValue` appends the text of the macro with every occurrence of the old text
replaced, and goes to behind the invocation; all it writes is in the block. -/
theorem putValue_substitutes (mem : Memory) (inv : Invocation) (source rest : Text) {r : Result}
    (hr : r.Valid) :
    Substitutes mem inv source rest r (putValue mem (inv.text ++ rest) source r) := by
  obtain ⟨out, hreplaced, happends⟩ :=
    substituteLoop_appends mem inv.oldString_ne_nil (source.length + 1) source hr
      (Nat.lt_succ_self source.length)
  have hescape : ('(' :: (inv.name ++ ':' :: inv.tail rest)).head? ≠ some ESCH := by
    simp [ESCH]
  rw [inv.text_append, putValue, List.tail_cons, if_neg hescape, inv.scanTo_whole]
  simp only [bind, Except.bind, inv.colonBefore_eq, inv.substituteStrings_eq]
  cases hrun : substituteLoop mem inv.oldString inv.newString (source.length + 1) source r with
  | error e =>
    rw [hrun] at happends
    exact happends
  | ok r' =>
    rw [hrun] at happends
    exact ⟨rfl, happends.1, out, hreplaced, happends.2⟩

/-- Memory for blocks of at most four times the first one. -/
def smallMemory : Memory where
  allocates n := n ≤ 4 * MAXBUF
  fresh _ := 'x'
  bounded n h := by
    have hle := of_decide_eq_true h
    have hmax : 4 * MAXBUF + MAXBUF < 2 ^ 32 := by decide
    omega

/-- `$(M:a=b)` -/
def aToB : Invocation where
  name := ['M']
  nameString := ['M']
  oldText := ['a']
  newText := ['b']
  oldString := ['a']
  newString := ['b']
  name_escaped := .plain (by decide) (by decide) .nil
  name_no_colon := by decide
  old_escaped := .plain (by decide) (by decide) .nil
  new_escaped := .plain (by decide) (by decide) .nil
  old_ne_nil := List.cons_ne_nil _ _

/-- A block with room for one character. -/
def shortResult : Result where
  isFirst := true
  block := ['d', 'i', 'r']
  dest := 2
  endPos := 3
  length := 3

theorem shortResult_valid : shortResult.Valid where
  length_eq := rfl
  end_eq := rfl
  dest_le := Nat.le_succ 2
  bounded := by decide

theorem putValue_one_letter :
    Substitutes smallMemory aToB ['a'] [] shortResult
      (putValue smallMemory (aToB.text ++ []) ['a'] shortResult) :=
  putValue_substitutes smallMemory aToB ['a'] [] shortResult_valid

end SdkTools.Nmake.MacroValue
