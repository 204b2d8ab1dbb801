import Mathlib.Algebra.Order.Group.Int
import SdkTools.Ztools.Translate

/-!
# The length of a replacement

Both loops read a template piece by piece. They agree exactly on the templates in which
no escape character is last and which name no group but the ten.
-/

namespace SdkTools.Ztools

open Lib

set_option autoImplicit false

/-! ### The loops, piece by piece -/

def Piece.write (buf : patType) : Piece → Except Fault (Option (List CHAR))
  | .arg w i => writeArg buf w i
  | .char c => .ok (some [c])

def Piece.measure (buf : patType) : Piece → Except Fault Int
  | .arg w i => do
    let i ← RELength buf i
    let w ← abs w
    .ok (max i w)
  | .char _ => .ok 1

/-- What `RETranslate` does with the first piece. -/
def translatePiece (buf : patType) (fuel : Nat) (dst : List CHAR) :
    Piece × List CHAR ⊕ Ending → Except Fault (Option (List CHAR))
  | .inr .done => .ok (some dst)
  | .inr _ => .ok none
  | .inl (p, rest) => do
    let text ← p.write buf
    match text with
    | none => .ok none
    | some text => translateLoop buf fuel rest (dst ++ text)

/-- What `RETranslateLength` does with the first piece. -/
def measurePiece (buf : patType) (fuel : Nat) (length : Int) :
    Piece × List CHAR ⊕ Ending → Except Fault Int
  | .inr .done => .ok length
  | .inr .unclosed => .ok (-1)
  | .inr .trailing => .error .beyond
  | .inl (p, rest) => do
    let k ← p.measure buf
    let length ← addLength length k
    lengthLoop buf fuel rest length

variable (buf : patType)

theorem translateLoop_succ (fuel : Nat) (src dst : List CHAR) :
    translateLoop buf (fuel + 1) src dst =
      firstPiece buf.chArg src >>= translatePiece buf fuel dst := by
  cases src with
  | nil => rfl
  | cons c src =>
    simp only [translateLoop, firstPiece]
    by_cases htag : c = buf.chArg ∧ startsTag (src.headD 0) = true
    · rw [if_pos htag, if_pos htag]
      cases tagged (src.headD 0) src.tail with
      | error fault => rfl
      | ok tag =>
        cases tag with
        | none => rfl
        | some tag => rfl
    · rw [if_neg htag, if_neg htag]
      by_cases hescape : c = ch '\\'
      · rw [if_pos hescape, if_pos hescape]
        cases src with
        | nil => rfl
        | cons e src => rfl
      · rw [if_neg hescape, if_neg hescape]
        split
        · rfl
        · rfl

theorem lengthLoop_succ (fuel : Nat) (src : List CHAR) (length : Int) :
    lengthLoop buf (fuel + 1) src length =
      firstPiece buf.chArg src >>= measurePiece buf fuel length := by
  cases src with
  | nil => rfl
  | cons c src =>
    simp only [lengthLoop, firstPiece]
    by_cases htag : c = buf.chArg ∧ startsTag (src.headD 0) = true
    · rw [if_pos htag, if_pos htag]
      cases tagged (src.headD 0) src.tail with
      | error fault => rfl
      | ok tag =>
        cases tag with
        | none => rfl
        | some tag =>
          change (RELength buf tag.2.1 >>= _) = (Piece.measure buf (.arg tag.1 tag.2.1) >>= _)
          rw [Piece.measure]
          cases RELength buf tag.2.1 with
          | error fault => rfl
          | ok i =>
            cases abs tag.1 with
            | error fault => rfl
            | ok w => rfl
    · rw [if_neg htag, if_neg htag]
      by_cases hescape : c = ch '\\'
      · rw [if_pos hescape, if_pos hescape]
        cases src with
        | nil => rfl
        | cons e src => rfl
      · rw [if_neg hescape, if_neg hescape]
        split
        · rfl
        · rfl

/-! ### A piece is not empty -/

theorem closeParen_length {w i w' i' : Int} {src rest : List CHAR}
    (h : closeParen w i src = some (w', i', rest)) : rest.length ≤ src.length := by
  unfold closeParen at h
  split at h
  · obtain ⟨-, hrest⟩ := Prod.mk.inj (Option.some.inj h)
    obtain ⟨-, rfl⟩ := Prod.mk.inj hrest
    rw [List.length_tail]
    omega
  · cases h

theorem strbskip_length (src : List CHAR) : (strbskip src).length ≤ src.length :=
  (List.dropWhile_suffix isdigit).length_le

theorem afterNumber_length {n w i : Int} {src rest : List CHAR}
    (h : afterNumber n src = .ok (some (w, i, rest))) : rest.length ≤ src.length := by
  unfold afterNumber at h
  split at h
  · obtain ⟨m, -, h⟩ := bind_eq_ok h
    have hclose := closeParen_length (Except.ok.inj h)
    have hskip := strbskip_length src.tail
    rw [List.length_tail] at hskip
    omega
  · exact closeParen_length (Except.ok.inj h)

theorem tagged_length {c : CHAR} {w i : Int} {src rest : List CHAR}
    (h : tagged c src = .ok (some (w, i, rest))) : rest.length ≤ src.length := by
  unfold tagged at h
  split at h
  · obtain ⟨-, hrest⟩ := Prod.mk.inj (Option.some.inj (Except.ok.inj h))
    obtain ⟨-, rfl⟩ := Prod.mk.inj hrest
    exact Nat.le_refl _
  · obtain ⟨n, -, h⟩ := bind_eq_ok h
    have hafter := afterNumber_length h
    have hskip := strbskip_length (if src.head? = some (ch '-') then src.tail else src)
    have hsign : (if src.head? = some (ch '-') then src.tail else src).length ≤ src.length := by
      split
      · rw [List.length_tail]
        omega
      · exact Nat.le_refl _
    omega

theorem firstPiece_length {chArg : CHAR} {src rest : List CHAR} {p : Piece}
    (h : firstPiece chArg src = .ok (.inl (p, rest))) : rest.length < src.length := by
  cases src with
  | nil => cases h
  | cons c src =>
    rw [List.length_cons]
    have htail : src.tail.length ≤ src.length := by
      rw [List.length_tail]
      omega
    simp only [firstPiece] at h
    split at h
    · obtain ⟨tag, htag, h⟩ := bind_eq_ok h
      cases tag with
      | none => cases h
      | some tag =>
        cases h
        have := tagged_length htag
        omega
    · split at h
      · cases src with
        | nil => cases h
        | cons e src =>
          cases h
          rw [List.length_cons]
          omega
      · split at h
        · cases h
          omega
        · cases h
          omega

/-! ### One piece in both functions -/

/-- The group of a tag is one of the ten. -/
def Piece.InRange : Piece → Prop
  | .arg w i => (0 ≤ i ∧ i < 10) ∧ w ≠ -2 ^ 31
  | .char _ => True

variable {buf}

theorem abs_eq {w : Int} (h : w ≠ -2 ^ 31) : abs w = .ok w.natAbs := if_neg h

theorem length_sprintf (w : Int) (work : List CHAR) :
    (sprintf w work).length = max work.length w.natAbs := by
  unfold sprintf
  split
  · rw [List.length_append, List.length_replicate]
    omega
  · rw [List.length_append, List.length_replicate]
    omega

theorem REGetArg_eq {i : Int} (h : 0 ≤ i ∧ i < 10) :
    REGetArg buf i = .ok (some (buf.text i)) ∧ RELength buf i = .ok (buf.text i).length := by
  have hle : ¬ i > MAXPATARG := by
    unfold MAXPATARG
    omega
  unfold REGetArg RELength patType.text
  rw [if_neg hle, if_neg hle, dif_pos h, dif_pos h, dif_pos h]
  cases buf.arg ⟨i.toNat, by omega⟩ with
  | none => exact ⟨rfl, rfl⟩
  | some text => exact ⟨rfl, rfl⟩

theorem REGetArg_above (buf : patType) {i : Int} (h : MAXPATARG < i) :
    REGetArg buf i = .ok none ∧ RELength buf i = .ok (-1) ∧ buf.text i = [] := by
  refine ⟨if_pos h, if_pos h, dif_neg ?_⟩
  unfold MAXPATARG at h
  omega

theorem REGetArg_outside {i : Int} (h : ¬ (0 ≤ i ∧ i < 10)) (hle : ¬ MAXPATARG < i) :
    REGetArg buf i = .error (.index i) ∧ RELength buf i = .error (.index i) := by
  unfold REGetArg RELength
  rw [if_neg hle, if_neg hle, dif_neg h, dif_neg h]
  exact ⟨rfl, rfl⟩

theorem Piece.InRange.write (buf : patType) {p : Piece} (h : p.InRange) :
    ∃ text, p.write buf = .ok (some text) ∧ text.length = p.width buf := by
  cases p with
  | arg w i =>
    refine ⟨sprintf w (buf.text i), ?_, length_sprintf w _⟩
    simp only [Piece.write, writeArg, (REGetArg_eq h.1).1, abs_eq h.2, bind, Except.bind]
  | char c => exact ⟨[c], rfl, rfl⟩

theorem Piece.inRange_of_write {p : Piece} {text : List CHAR}
    (h : p.write buf = .ok (some text)) : p.InRange := by
  cases p with
  | arg w i =>
    obtain ⟨work, hwork, h⟩ := bind_eq_ok h
    cases work with
    | none => cases h
    | some work =>
      obtain ⟨n, hn, -⟩ := bind_eq_ok h
      refine ⟨?_, ?_⟩
      · by_contra hout
        by_cases habove : MAXPATARG < i
        · rw [(REGetArg_above buf habove).1] at hwork
          cases hwork
        · rw [(REGetArg_outside hout habove).1] at hwork
          cases hwork
      · rintro rfl
        cases hn
  | char c => trivial

/-- In a template that is not closed, a group above the last one is measured too. -/
theorem Piece.fits_of_measure {p : Piece} {k : Int} (h : p.measure buf = .ok k) :
    p.Fits .unclosed ∧ k = p.width buf := by
  cases p with
  | arg w i =>
    obtain ⟨n, hn, h⟩ := bind_eq_ok h
    obtain ⟨m, hm, h⟩ := bind_eq_ok h
    have hw : w ≠ -2 ^ 31 := by
      rintro rfl
      cases hm
    rw [abs_eq hw] at hm
    obtain rfl := Except.ok.inj hm
    obtain rfl := Except.ok.inj h
    by_cases hin : 0 ≤ i ∧ i < 10
    · rw [(REGetArg_eq hin).2] at hn
      obtain rfl := Except.ok.inj hn
      refine ⟨⟨Or.inl hin, hw⟩, ?_⟩
      rw [Piece.width]
      omega
    · by_cases habove : MAXPATARG < i
      · obtain ⟨-, hlen, htext⟩ := REGetArg_above buf habove
        rw [hlen] at hn
        obtain rfl := Except.ok.inj hn
        refine ⟨⟨Or.inr ⟨rfl, habove⟩, hw⟩, ?_⟩
        rw [Piece.width, htext, List.length_nil]
        omega
      · rw [(REGetArg_outside hin habove).2] at hn
        cases hn
  | char c =>
    obtain rfl := Except.ok.inj h
    exact ⟨trivial, rfl⟩

theorem Piece.Fits.measure {p : Piece} {e : Ending} (h : p.Fits e) :
    p.measure buf = .ok (p.width buf) := by
  cases p with
  | arg w i =>
    rcases h.1 with hin | ⟨-, habove⟩
    · simp only [Piece.measure, (REGetArg_eq hin).2, abs_eq h.2, bind, Except.bind, Piece.width]
      congr 1
      omega
    · obtain ⟨-, hlen, htext⟩ := REGetArg_above buf habove
      simp only [Piece.measure, hlen, abs_eq h.2, bind, Except.bind, Piece.width, htext,
        List.length_nil]
      congr 1
  | char c => rfl

/-! ### Whole templates -/

theorem totalWidth_cons (p : Piece) (ps : List Piece) :
    totalWidth buf (p :: ps) = p.width buf + totalWidth buf ps := by
  rw [totalWidth, List.map_cons, List.sum_cons]
  rfl

theorem addLength_eq {length k : Int} (h : length + k < 2 ^ 31) :
    addLength length k = .ok (length + k) := if_pos h

/-- A length that is returned is the one of a template that was read to its end. -/
theorem template_of_length {fuel : Nat} {src : List CHAR} {length r : Int}
    (h : lengthLoop buf fuel src length = .ok r) (hlength : length < 2 ^ 31) :
    ∃ ps e, Template buf.chArg src ps e ∧ e ≠ .trailing ∧ (∀ p ∈ ps, p.Fits .unclosed) ∧
      length + totalWidth buf ps < 2 ^ 31 ∧
      (e = .done → r = length + totalWidth buf ps) ∧ (e = .unclosed → r = -1) := by
  induction fuel generalizing src length with
  | zero => cases h
  | succ fuel ih =>
    rw [lengthLoop_succ] at h
    obtain ⟨first, hfirst, h⟩ := bind_eq_ok h
    cases first with
    | inr e =>
      have htemplate : Template buf.chArg src [] e := .ending hfirst
      cases e with
      | done =>
        obtain rfl := Except.ok.inj h
        exact ⟨[], .done, htemplate, by simp, by simp, by simpa [totalWidth] using hlength,
          by simp [totalWidth], by simp⟩
      | unclosed =>
        obtain rfl := Except.ok.inj h
        exact ⟨[], .unclosed, htemplate, by simp, by simp, by simpa [totalWidth] using hlength,
          by simp, fun _ => rfl⟩
      | trailing => cases h
    | inl first =>
      obtain ⟨p, rest⟩ := first
      obtain ⟨k, hk, h⟩ := bind_eq_ok h
      obtain ⟨hfits, rfl⟩ := Piece.fits_of_measure hk
      obtain ⟨length', hadd, h⟩ := bind_eq_ok h
      unfold addLength at hadd
      split at hadd
      · next hroom =>
        obtain rfl := Except.ok.inj hadd
        obtain ⟨ps, e, htemplate, hne, hall, htotal, hdone, hunclosed⟩ := ih h hroom
        refine ⟨p :: ps, e, .piece hfirst htemplate, hne, ?_, ?_, ?_, hunclosed⟩
        · exact List.forall_mem_cons.mpr ⟨hfits, hall⟩
        · rw [totalWidth_cons]
          push_cast
          omega
        · intro he
          rw [hdone he, totalWidth_cons]
          push_cast
          omega
      · cases hadd

theorem length_of_template {src : List CHAR} {ps : List Piece} {e : Ending}
    (h : Template buf.chArg src ps e) (hne : e ≠ .trailing) (hall : ∀ p ∈ ps, p.Fits e)
    (fuel : Nat) (hfuel : src.length < fuel) (length : Int)
    (htotal : length + totalWidth buf ps < 2 ^ 31) :
    lengthLoop buf fuel src length =
      .ok (if e = .done then length + totalWidth buf ps else -1) := by
  induction h generalizing fuel length with
  | @ending src e hfirst =>
    obtain ⟨fuel, rfl⟩ : ∃ n, fuel = n + 1 := ⟨fuel - 1, by omega⟩
    rw [lengthLoop_succ, hfirst]
    cases e with
    | done =>
      change Except.ok length = _
      simp [totalWidth]
    | unclosed => rfl
    | trailing => exact absurd rfl hne
  | @piece src rest p ps e hfirst _ ih =>
    obtain ⟨fuel, rfl⟩ : ∃ n, fuel = n + 1 := ⟨fuel - 1, by omega⟩
    obtain ⟨hp, hps⟩ := List.forall_mem_cons.mp hall
    have hshort := firstPiece_length hfirst
    rw [totalWidth_cons] at htotal ⊢
    push_cast at htotal ⊢
    have hstep := ih hne hps fuel (by omega) (length + p.width buf) (by omega)
    rw [lengthLoop_succ, hfirst]
    change (p.measure buf >>= fun k => addLength length k >>= lengthLoop buf fuel rest) = _
    rw [hp.measure]
    change (addLength length (p.width buf) >>= lengthLoop buf fuel rest) = _
    rw [addLength_eq (by omega)]
    change lengthLoop buf fuel rest _ = _
    rw [hstep, Int.add_assoc]

theorem translate_of_template {src : List CHAR} {ps : List Piece} {e : Ending}
    (h : Template buf.chArg src ps e) (hall : ∀ p ∈ ps, p.Fits e)
    (fuel : Nat) (hfuel : src.length < fuel) (dst : List CHAR) :
    ∃ r, translateLoop buf fuel src dst = .ok r ∧ (e ≠ .done → r = none) ∧
      (e = .done → ∃ out, r = some out ∧ out.length = dst.length + totalWidth buf ps) := by
  induction h generalizing fuel dst with
  | @ending src e hfirst =>
    obtain ⟨fuel, rfl⟩ : ∃ n, fuel = n + 1 := ⟨fuel - 1, by omega⟩
    rw [translateLoop_succ, hfirst]
    cases e with
    | done => exact ⟨some dst, rfl, by simp, fun _ => ⟨dst, rfl, rfl⟩⟩
    | unclosed => exact ⟨none, rfl, fun _ => rfl, by simp⟩
    | trailing => exact ⟨none, rfl, fun _ => rfl, by simp⟩
  | @piece src rest p ps e hfirst _ ih =>
    obtain ⟨fuel, rfl⟩ : ∃ n, fuel = n + 1 := ⟨fuel - 1, by omega⟩
    obtain ⟨hp, hps⟩ := List.forall_mem_cons.mp hall
    have hshort := firstPiece_length hfirst
    rw [translateLoop_succ, hfirst]
    by_cases hin : p.InRange
    · obtain ⟨text, hwrite, hlen⟩ := hin.write buf
      obtain ⟨r, hloop, hfail, hout⟩ := ih hps fuel (by omega) (dst ++ text)
      refine ⟨r, ?_, hfail, ?_⟩
      · change (p.write buf >>= _) = _
        rw [hwrite]
        exact hloop
      · intro he
        obtain ⟨out, hr, hlength⟩ := hout he
        refine ⟨out, hr, ?_⟩
        rw [hlength, totalWidth_cons, List.length_append]
        omega
    · cases p with
      | arg w i =>
        rcases hp.1 with hi | ⟨he, habove⟩
        · exact absurd ⟨hi, hp.2⟩ hin
        · refine ⟨none, ?_, fun _ => rfl, fun hdone => ?_⟩
          · change (writeArg buf w i >>= _) = _
            rw [writeArg, (REGetArg_above buf habove).1]
            rfl
          · rw [hdone] at he
            cases he
      | char c => exact absurd trivial hin

theorem inRange_of_translate {src : List CHAR} {ps : List Piece} {e : Ending}
    (h : Template buf.chArg src ps e) {fuel : Nat} {dst out : List CHAR}
    (hloop : translateLoop buf fuel src dst = .ok (some out)) : ∀ p ∈ ps, p.InRange := by
  induction h generalizing fuel dst with
  | ending _ => simp
  | @piece src rest p ps e hfirst _ ih =>
    cases fuel with
    | zero => cases hloop
    | succ fuel =>
      rw [translateLoop_succ, hfirst] at hloop
      obtain ⟨text, hwrite, hloop⟩ := bind_eq_ok (x := p.write buf) hloop
      cases text with
      | none => cases hloop
      | some text =>
        exact List.forall_mem_cons.mpr ⟨Piece.inRange_of_write hwrite, ih hloop⟩

/-! ### The two functions -/

/-- The length and the translation agree, without leaving the template or the groups,
exactly on the templates that can be translated or are not closed. -/
theorem translate_agrees_iff (buf : patType) (src : List CHAR) :
    Agrees buf src ↔ Translatable buf src := by
  constructor
  · rintro ⟨result, length, htranslate, hlength, hagree⟩
    obtain ⟨ps, e, htemplate, hne, hall, htotal, hdone, -⟩ :=
      template_of_length hlength (by omega)
    refine ⟨ps, e, htemplate, hne, ?_, by omega⟩
    cases e with
    | unclosed => exact hall
    | trailing => exact absurd rfl hne
    | done =>
      have hvalue := hdone rfl
      cases result with
      | none =>
        dsimp only at hagree
        omega
      | some dst =>
        have hrange := inRange_of_translate htemplate htranslate
        intro p hp
        cases p with
        | arg w i => exact ⟨Or.inl (hrange _ hp).1, (hrange _ hp).2⟩
        | char c => trivial
  · rintro ⟨ps, e, htemplate, hne, hall, htotal⟩
    have hlength := length_of_template htemplate hne hall _ (Nat.lt_succ_self src.length) 0
      (by omega)
    obtain ⟨r, htranslate, hfail, hout⟩ :=
      translate_of_template htemplate hall _ (Nat.lt_succ_self src.length) []
    refine ⟨r, _, htranslate, hlength, ?_⟩
    by_cases he : e = .done
    · obtain ⟨out, rfl, hlen⟩ := hout he
      rw [if_pos he]
      dsimp only
      rw [hlen, List.length_nil]
      omega
    · rw [hfail he, if_neg he]

/-- One group, the first, has matched two characters. -/
def oneGroup : patType :=
  ⟨false, fun i => if i = 1 then some ⟨[ch 'a', ch 'b'], by decide⟩ else none⟩

theorem translate_agrees_one : Agrees oneGroup [ch '<', ch '$', ch '1', ch '>'] := by
  apply (translate_agrees_iff _ _).mpr
  exact ⟨[.char (ch '<'), .arg 0 1, .char (ch '>')], .done,
    .piece rfl (.piece rfl (.piece rfl (.ending rfl))), by decide,
    by simp [Piece.Fits], by decide⟩

/-- A group that does not exist has the width of its field, and after a last backslash
the template is left; group 10 is outside the array in both functions. -/
theorem translate_disagrees :
    (RETranslate oneGroup [ch '$', ch '(', ch '1', ch '1', ch ')'] = .ok none ∧
      RETranslateLength oneGroup [ch '$', ch '(', ch '1', ch '1', ch ')'] = .ok 0) ∧
      ¬ Agrees oneGroup [ch '$', ch '(', ch '1', ch '1', ch ')'] ∧
      (RETranslate oneGroup [ch '\\'] = .ok none ∧
        RETranslateLength oneGroup [ch '\\'] = .error .beyond) ∧
      RETranslateLength oneGroup [ch '$', ch '(', ch '1', ch '0', ch ')'] = .error (.index 10) := by
  refine ⟨⟨by decide, by decide⟩, ?_, ⟨by decide, by decide⟩, by decide⟩
  rintro ⟨result, length, htranslate, hlength, hagree⟩
  have hnone : RETranslate oneGroup [ch '$', ch '(', ch '1', ch '1', ch ')'] = .ok none := by decide
  have hzero : RETranslateLength oneGroup [ch '$', ch '(', ch '1', ch '1', ch ')'] = .ok 0 := by
    decide
  obtain rfl := Except.ok.inj (htranslate.symm.trans hnone)
  obtain rfl := Except.ok.inj (hlength.symm.trans hzero)
  cases hagree

end SdkTools.Ztools
