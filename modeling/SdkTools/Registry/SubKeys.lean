import SdkTools.Types
import Mathlib.Data.List.Forall2

/-!
# Subkey strings

`regkey.c` and `regmisc.c`: the validation of a subkey string, its components, and the
comparison and the hash of counted strings. A string is the memory that can be read from
its pointer on; a read behind it has no result.
-/

namespace SdkTools.Registry

set_option autoImplicit false

/-- The code page of the system. Without `DBCS` no byte is a lead byte. -/
structure CodePage where
  isDBCSLeadByte : UCHAR → Bool
  toUpper : UCHAR → UCHAR
  /-- `MAXIMUM_SUB_KEY_LENGTH` -/
  maximumSubKeyLength : Nat

abbrev LPCSTR := List UCHAR

def backslash : UCHAR := 0x5C

/-- The bytes before the terminating null. -/
def cString (lps : LPCSTR) : List UCHAR := lps.takeWhile (· != 0)

/-- `IsBadStringPtr` -/
def isBadStringPtr (lps : LPCSTR) : Bool := !lps.contains 0

variable (page : CodePage)

/-- The loop of `RgIsBadSubKey`; `first` is `lpString == lpSubKey`. -/
def badSubKeyFrom : LPCSTR → Nat → Bool → Option Bool
  | [], _, _ => none
  | char :: rest, subSubKeyLength, first =>
    if char = 0 then some false
    else if char = backslash then
      if subSubKeyLength = 0 ∧ first = false then some true else badSubKeyFrom rest 0 false
    else if page.isDBCSLeadByte char then
      -- The test for an unpaired byte reads the lead byte again; the trail byte is not read.
      if subSubKeyLength + 2 ≥ page.maximumSubKeyLength then some true
      else
        match rest with
        | [] => none
        | _ :: rest => badSubKeyFrom rest (subSubKeyLength + 2) false
    else if char < 0x20 then some true
    else if subSubKeyLength + 1 ≥ page.maximumSubKeyLength then some true
    else badSubKeyFrom rest (subSubKeyLength + 1) false

def rgIsBadSubKey (lpSubKey : LPCSTR) : Option Bool :=
  if isBadStringPtr lpSubKey then some true else badSubKeyFrom page lpSubKey 0 true

/-- The number of bytes before the next backslash or null, and what begins there. -/
def scanSubSubKey : LPCSTR → Option (Nat × LPCSTR)
  | [] => none
  | char :: rest =>
    if char = 0 ∨ char = backslash then some (0, char :: rest)
    else if page.isDBCSLeadByte char then
      match rest with
      | [] => none
      | _ :: rest => (scanSubSubKey rest).map fun r => (r.1 + 2, r.2)
    else (scanSubSubKey rest).map fun r => (r.1 + 1, r.2)

structure SubSubKey where
  lpSubSubKey : LPCSTR
  length : Nat
  /-- `lpLastSubSubKey` -/
  last : LPCSTR

def skipBackslash : LPCSTR → LPCSTR
  | [] => []
  | char :: rest => if char = backslash then rest else char :: rest

/-- At the terminating null the component is empty; its pointer is null there. -/
def rgGetNextSubSubKey : LPCSTR → Option SubSubKey
  | [] => none
  | char :: rest =>
    if char = 0 then some ⟨[], 0, char :: rest⟩
    else
      (scanSubSubKey page (skipBackslash (char :: rest))).map fun r =>
        ⟨skipBackslash (char :: rest), r.1, r.2⟩

/-- The length of the component of a valid name of a hive. -/
def rgValidateHiveSubKey (lpSubKey : LPCSTR) : Option (Option Nat) := do
  let bad ← rgIsBadSubKey page lpSubKey
  if bad then pure none
  else
    let sub ← rgGetNextSubSubKey page lpSubKey
    if sub.length = 0 then pure none
    else
      let next ← rgGetNextSubSubKey page sub.last
      pure (if next.length = 0 then some sub.length else none)

/-- The difference of the first two characters that differ. -/
def rgStrCmpNI : LPCSTR → LPCSTR → Nat → Option Int
  | _, _, 0 => some 0
  | a :: as, b :: bs, length + 1 =>
    if page.isDBCSLeadByte a then
      if a ≠ b then some (a.toInt - b.toInt)
      else
        match as, bs, length with
        | _, _, 0 => some 0
        | a :: as, b :: bs, length + 1 =>
          if a ≠ b then some (a.toInt - b.toInt) else rgStrCmpNI as bs length
        | _, _, _ => none
    else if page.toUpper a ≠ page.toUpper b then
      some ((page.toUpper a).toNat - (page.toUpper b).toNat)
    else rgStrCmpNI as bs length
  | _, _, _ => none

/-- The loop of `RgHashString`. The length is decremented twice for a lead byte. -/
def hashFrom (hash : BitVec 32) : LPCSTR → Nat → Option (BitVec 32)
  | _, 0 => some hash
  | [], _ + 1 => none
  | byte :: rest, length + 1 =>
    if page.isDBCSLeadByte byte then
      match rest with
      | [] => none
      | trail :: rest =>
        hashFrom (hash + byte.setWidth 32 + trail.setWidth 32) rest ((length + 2 ^ 32 - 1) % 2 ^ 32)
    else
      hashFrom (if byte < 0x80 then hash + (page.toUpper byte).setWidth 32 else hash) rest length

def rgHashString (lpString : LPCSTR) (length : Nat) : Option (BitVec 32) :=
  hashFrom page 0 lpString length

/-! ## Characters -/

/-- A character of a component; a lead byte before the null has no trail byte. -/
inductive DBChar where
  | single (byte : UCHAR)
  | double (lead trail : UCHAR)
  | unpaired (lead : UCHAR)
  deriving DecidableEq

def DBChar.bytes : DBChar → List UCHAR
  | .single byte => [byte]
  | .double lead trail => [lead, trail]
  | .unpaired lead => [lead]

def bytes (chars : List DBChar) : List UCHAR := chars.flatMap DBChar.bytes

def componentChars : LPCSTR → List DBChar
  | [] => []
  | char :: rest =>
    if char = 0 ∨ char = backslash then []
    else if page.isDBCSLeadByte char then
      match rest with
      | [] => [.unpaired char]
      | trail :: rest =>
        if trail = 0 then [.unpaired char] else .double char trail :: componentChars rest
    else .single char :: componentChars rest

/-- The first component of a path, after at most one backslash. -/
def firstComponent (path : LPCSTR) : List DBChar := componentChars page (skipBackslash path)

def DBChar.Paired : DBChar → Prop
  | .unpaired _ => False
  | _ => True

/-- Equal but for the case of single-byte characters. -/
def SameChar : DBChar → DBChar → Prop
  | .single a, .single b => page.toUpper a = page.toUpper b
  | c, d => c = d

def SameName (cs ds : List DBChar) : Prop := List.Forall₂ (SameChar page) cs ds


/-! ## Components -/

variable {page : CodePage}

/-- The characters that a component can have. -/
def DBChar.Proper (page : CodePage) : DBChar → Prop
  | .single byte => page.isDBCSLeadByte byte = false ∧ byte ≠ 0 ∧ byte ≠ backslash
  | .double lead trail =>
    page.isDBCSLeadByte lead = true ∧ lead ≠ 0 ∧ lead ≠ backslash ∧ trail ≠ 0
  | .unpaired lead => page.isDBCSLeadByte lead = true ∧ lead ≠ 0 ∧ lead ≠ backslash

section Equations

variable {char : UCHAR} (hend : ¬ (char = 0 ∨ char = backslash))

attribute [local simp] componentChars scanSubSubKey

theorem componentChars_end {char : UCHAR} (h : char = 0 ∨ char = backslash) (rest : LPCSTR) :
    componentChars page (char :: rest) = [] := by
  unfold componentChars
  exact if_pos h

theorem scan_end {char : UCHAR} (h : char = 0 ∨ char = backslash) (rest : LPCSTR) :
    scanSubSubKey page (char :: rest) = some (0, char :: rest) := by
  unfold scanSubSubKey
  exact if_pos h

include hend

theorem componentChars_last (hlead : page.isDBCSLeadByte char = true) :
    componentChars page [char] = [.unpaired char] := by
  rw [componentChars, if_neg hend, if_pos hlead]

theorem componentChars_unpaired (hlead : page.isDBCSLeadByte char = true) (rest : LPCSTR) :
    componentChars page (char :: 0 :: rest) = [.unpaired char] := by
  simpa [hlead] using hend

theorem componentChars_double (hlead : page.isDBCSLeadByte char = true) {trail : UCHAR}
    (htrail : ¬ trail = 0) (rest : LPCSTR) :
    componentChars page (char :: trail :: rest) =
      .double char trail :: componentChars page rest := by
  rw [componentChars, if_neg hend, if_pos hlead]
  exact if_neg htrail

theorem componentChars_single (hlead : ¬ page.isDBCSLeadByte char = true) (rest : LPCSTR) :
    componentChars page (char :: rest) = .single char :: componentChars page rest := by
  conv_lhs => unfold componentChars
  exact (if_neg hend).trans (if_neg hlead)

theorem scan_last (hlead : page.isDBCSLeadByte char = true) :
    scanSubSubKey page [char] = none := by
  simpa [hlead] using hend

theorem scan_double (hlead : page.isDBCSLeadByte char = true) (trail : UCHAR) (rest : LPCSTR) :
    scanSubSubKey page (char :: trail :: rest) =
      (scanSubSubKey page rest).map fun r => (r.1 + 2, r.2) := by
  rw [scanSubSubKey, if_neg hend, if_pos hlead]

theorem scan_single (hlead : ¬ page.isDBCSLeadByte char = true) (rest : LPCSTR) :
    scanSubSubKey page (char :: rest) =
      (scanSubSubKey page rest).map fun r => (r.1 + 1, r.2) := by
  conv_lhs => unfold scanSubSubKey
  exact (if_neg hend).trans (if_neg hlead)

end Equations

theorem componentChars_proper (s : LPCSTR) : ∀ c ∈ componentChars page s, c.Proper page := by
  induction s using componentChars.induct page with
  | case1 => exact fun c hc => by cases hc
  | case2 char rest hend =>
    rw [componentChars_end hend]
    exact fun c hc => by cases hc
  | case3 char hend hlead =>
    rw [componentChars_last hend hlead]
    rw [not_or] at hend
    exact List.forall_mem_singleton.mpr ⟨hlead, hend.1, hend.2⟩
  | case4 char hend hlead rest =>
    rw [componentChars_unpaired hend hlead]
    rw [not_or] at hend
    exact List.forall_mem_singleton.mpr ⟨hlead, hend.1, hend.2⟩
  | case5 char hend hlead trail rest htrail ih =>
    rw [componentChars_double hend hlead htrail]
    rw [not_or] at hend
    exact List.forall_mem_cons.mpr ⟨⟨hlead, hend.1, hend.2, htrail⟩, ih⟩
  | case6 char rest hend hlead ih =>
    rw [componentChars_single hend hlead]
    rw [not_or] at hend
    exact List.forall_mem_cons.mpr ⟨⟨eq_false_of_ne_true hlead, hend.1, hend.2⟩, ih⟩

@[simp] theorem bytes_nil : bytes [] = [] := rfl

@[simp] theorem bytes_single (byte : UCHAR) (cs : List DBChar) :
    bytes (.single byte :: cs) = byte :: bytes cs := rfl

@[simp] theorem bytes_double (lead trail : UCHAR) (cs : List DBChar) :
    bytes (.double lead trail :: cs) = lead :: trail :: bytes cs := rfl

@[simp] theorem bytes_unpaired (lead : UCHAR) (cs : List DBChar) :
    bytes (.unpaired lead :: cs) = lead :: bytes cs := rfl

/-- A component of whole characters is scanned to its end. -/
theorem scan_of_paired {s : LPCSTR} (hnull : 0 ∈ s)
    (hpaired : ∀ c ∈ componentChars page s, c.Paired) :
    ∃ rest, scanSubSubKey page s = some ((bytes (componentChars page s)).length, rest) ∧
      s = bytes (componentChars page s) ++ rest := by
  induction s using componentChars.induct page with
  | case1 => cases hnull
  | case2 char rest hend =>
    rw [componentChars_end hend]
    exact ⟨char :: rest, scan_end hend rest, rfl⟩
  | case3 char hend hlead =>
    rw [componentChars_last hend hlead] at hpaired
    exact absurd (hpaired _ (List.mem_singleton_self _)) id
  | case4 char hend hlead rest =>
    rw [componentChars_unpaired hend hlead] at hpaired
    exact absurd (hpaired _ (List.mem_singleton_self _)) id
  | case5 char hend hlead trail rest htrail ih =>
    rw [componentChars_double hend hlead htrail] at hpaired ⊢
    have hrest : 0 ∈ rest := by
      rcases List.mem_cons.mp hnull with h | h
      · exact absurd h.symm (not_or.mp hend).1
      · exact (List.mem_cons.mp h).resolve_left fun h => htrail h.symm
    obtain ⟨last, hscan, heq⟩ := ih hrest (List.forall_mem_cons.mp hpaired).2
    refine ⟨last, ?_, ?_⟩
    · rw [scan_double hend hlead, hscan, Option.map_some, bytes_double, List.length_cons,
        List.length_cons]
    · rw [bytes_double, List.cons_append, List.cons_append, ← heq]
  | case6 char rest hend hlead ih =>
    rw [componentChars_single hend hlead] at hpaired ⊢
    have hrest : 0 ∈ rest :=
      (List.mem_cons.mp hnull).resolve_left fun h => (not_or.mp hend).1 h.symm
    obtain ⟨last, hscan, heq⟩ := ih hrest (List.forall_mem_cons.mp hpaired).2
    refine ⟨last, ?_, ?_⟩
    · rw [scan_single hend hlead, hscan, Option.map_some, bytes_single, List.length_cons]
    · rw [bytes_single, List.cons_append, ← heq]

/-- The scan goes past the null behind an unpaired byte. -/
theorem scan_of_unpaired {s : LPCSTR} {n : Nat} {rest : LPCSTR}
    (hscan : scanSubSubKey page s = some (n, rest))
    (hunpaired : ¬ ∀ c ∈ componentChars page s, c.Paired) :
    (bytes (componentChars page s)).length < n := by
  induction s using componentChars.induct page generalizing n with
  | case1 => exact absurd (fun c hc => by cases hc) hunpaired
  | case2 char rest hend =>
    rw [componentChars_end hend] at hunpaired
    exact absurd (fun c hc => by cases hc) hunpaired
  | case3 char hend hlead =>
    rw [scan_last hend hlead] at hscan
    cases hscan
  | case4 char hend hlead tail =>
    rw [scan_double hend hlead, Option.map_eq_some_iff] at hscan
    obtain ⟨r, -, hr⟩ := hscan
    obtain ⟨rfl, -⟩ := Prod.mk.inj hr
    rw [componentChars_unpaired hend hlead]
    exact Nat.le_add_left 2 r.1
  | case5 char hend hlead trail tail htrail ih =>
    rw [scan_double hend hlead, Option.map_eq_some_iff] at hscan
    obtain ⟨⟨m, last⟩, hscan, hr⟩ := hscan
    obtain ⟨rfl, rfl⟩ := Prod.mk.inj hr
    rw [componentChars_double hend hlead htrail] at hunpaired ⊢
    have := ih hscan fun h => hunpaired (List.forall_mem_cons.mpr ⟨trivial, h⟩)
    rw [bytes_double, List.length_cons, List.length_cons]
    exact Nat.add_lt_add_right this 2
  | case6 char tail hend hlead ih =>
    rw [scan_single hend hlead, Option.map_eq_some_iff] at hscan
    obtain ⟨⟨m, last⟩, hscan, hr⟩ := hscan
    obtain ⟨rfl, rfl⟩ := Prod.mk.inj hr
    rw [componentChars_single hend hlead] at hunpaired ⊢
    have := ih hscan fun h => hunpaired (List.forall_mem_cons.mpr ⟨trivial, h⟩)
    rw [bytes_single, List.length_cons]
    exact Nat.add_lt_add_right this 1

theorem rgStrCmpNI_single {a b : UCHAR} (ha : page.isDBCSLeadByte a = false)
    (hab : page.toUpper a = page.toUpper b) (as bs : LPCSTR) (n : Nat) :
    rgStrCmpNI page (a :: as) (b :: bs) (n + 1) = rgStrCmpNI page as bs n := by
  conv_lhs => unfold rgStrCmpNI
  exact (if_neg (Bool.eq_false_iff.mp ha)).trans (if_neg (not_not.mpr hab))

/-- Where a scan ends. -/
theorem scan_split {s : LPCSTR} {n : Nat} {rest : LPCSTR}
    (hscan : scanSubSubKey page s = some (n, rest)) :
    (∃ head, s = head ++ rest ∧ head.length = n) ∧
      ∃ char tail, rest = char :: tail ∧ (char = 0 ∨ char = backslash) := by
  induction s using scanSubSubKey.induct page generalizing n with
  | case1 => cases hscan
  | case2 char tail hend =>
    rw [scan_end hend] at hscan
    obtain ⟨rfl, rfl⟩ := Prod.mk.inj (Option.some.inj hscan)
    exact ⟨⟨[], rfl, rfl⟩, char, tail, rfl, hend⟩
  | case3 char hend hlead =>
    rw [scan_last hend hlead] at hscan
    cases hscan
  | case4 char hend hlead trail tail ih =>
    rw [scan_double hend hlead, Option.map_eq_some_iff] at hscan
    obtain ⟨⟨m, last⟩, hscan, hr⟩ := hscan
    obtain ⟨rfl, rfl⟩ := Prod.mk.inj hr
    obtain ⟨⟨head, rfl, rfl⟩, hlast⟩ := ih hscan
    exact ⟨⟨char :: trail :: head, rfl, rfl⟩, hlast⟩
  | case5 char tail hend hlead ih =>
    rw [scan_single hend hlead, Option.map_eq_some_iff] at hscan
    obtain ⟨⟨m, last⟩, hscan, hr⟩ := hscan
    obtain ⟨rfl, rfl⟩ := Prod.mk.inj hr
    obtain ⟨⟨head, rfl, rfl⟩, hlast⟩ := ih hscan
    exact ⟨⟨char :: head, rfl, rfl⟩, hlast⟩

/-- The validation walks over a component as the scan does. -/
theorem badSubKeyFrom_scan {s : LPCSTR} {n k : Nat} {first : Bool} {rest : LPCSTR}
    (hscan : scanSubSubKey page s = some (n, rest))
    (hgood : badSubKeyFrom page s k first = some false) :
    ∃ k' first', badSubKeyFrom page rest k' first' = some false ∧
      (0 < n ∨ 0 < k → 0 < k') := by
  induction s using scanSubSubKey.induct page generalizing n k first with
  | case1 => cases hscan
  | case2 char tail hend =>
    rw [scan_end hend] at hscan
    obtain ⟨rfl, rfl⟩ := Prod.mk.inj (Option.some.inj hscan)
    exact ⟨k, first, hgood, fun h => h.resolve_left (Nat.lt_irrefl 0)⟩
  | case3 char hend hlead =>
    rw [scan_last hend hlead] at hscan
    cases hscan
  | case4 char hend hlead trail tail ih =>
    rw [scan_double hend hlead, Option.map_eq_some_iff] at hscan
    obtain ⟨⟨m, last⟩, hscan, hr⟩ := hscan
    obtain ⟨rfl, rfl⟩ := Prod.mk.inj hr
    obtain ⟨hzero, hback⟩ := not_or.mp hend
    unfold badSubKeyFrom at hgood
    rw [if_neg hzero, if_neg hback, if_pos hlead] at hgood
    split at hgood
    · cases hgood
    · obtain ⟨k', first', hrest, hpos⟩ := ih hscan hgood
      exact ⟨k', first', hrest, fun _ => hpos (.inr (Nat.succ_pos _))⟩
  | case5 char tail hend hlead ih =>
    rw [scan_single hend hlead, Option.map_eq_some_iff] at hscan
    obtain ⟨⟨m, last⟩, hscan, hr⟩ := hscan
    obtain ⟨rfl, rfl⟩ := Prod.mk.inj hr
    obtain ⟨hzero, hback⟩ := not_or.mp hend
    unfold badSubKeyFrom at hgood
    rw [if_neg hzero, if_neg hback, if_neg hlead] at hgood
    split at hgood
    · cases hgood
    · split at hgood
      · cases hgood
      · obtain ⟨k', first', hrest, hpos⟩ := ih hscan hgood
        exact ⟨k', first', hrest, fun _ => hpos (.inr (Nat.succ_pos _))⟩

theorem length_cString_append_le (head rest : LPCSTR) :
    (cString (head ++ rest)).length ≤ head.length + (cString rest).length := by
  induction head with
  | nil => simp
  | cons char head ih =>
    unfold cString at ih ⊢
    rw [List.cons_append, List.takeWhile_cons]
    split
    · simp only [List.length_cons]
      omega
    · simp

/-- Names of whole characters that are equal but for the case compare as equal. -/
theorem rgStrCmpNI_same {cs ds : List DBChar} (h : SameName page cs ds)
    (hcs : ∀ c ∈ cs, c.Proper page) (hds : ∀ d ∈ ds, d.Paired) (x y : LPCSTR) :
    (bytes cs).length = (bytes ds).length ∧
      rgStrCmpNI page (bytes cs ++ x) (bytes ds ++ y) (bytes ds).length = some 0 := by
  induction h with
  | nil => exact ⟨rfl, by simp [rgStrCmpNI]⟩
  | @cons c d cs ds hcd _ ih =>
    obtain ⟨hc, hcs⟩ := List.forall_mem_cons.mp hcs
    obtain ⟨hd, hds⟩ := List.forall_mem_cons.mp hds
    obtain ⟨hlen, hcmp⟩ := ih hcs hds
    cases d with
    | unpaired lead => exact absurd hd id
    | single b =>
      cases c with
      | single a =>
        have hab : page.toUpper a = page.toUpper b := hcd
        refine ⟨by simp [hlen], ?_⟩
        exact (rgStrCmpNI_single hc.1 hab _ _ _).trans hcmp
      | double lead trail => cases (hcd : DBChar.double lead trail = DBChar.single b)
      | unpaired lead => cases (hcd : DBChar.unpaired lead = DBChar.single b)
    | double lead trail =>
      cases c with
      | single a => cases (hcd : DBChar.single a = DBChar.double lead trail)
      | double lead' trail' =>
        cases (hcd : DBChar.double lead' trail' = DBChar.double lead trail)
        refine ⟨by simp [hlen], ?_⟩
        simpa [rgStrCmpNI, hc.1] using hcmp
      | unpaired lead' => cases (hcd : DBChar.unpaired lead' = DBChar.double lead trail)

end SdkTools.Registry
