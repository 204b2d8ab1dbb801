import SdkTools.Registry.SubKeys

/-!
# Hives

`reghive.c`, with the parts of `regkey.c` and `regekey.c` that look at the hives of a key:
loading and unloading a hive, entering it by its name and enumerating it. The keys of the
file itself are an environment.
-/

namespace SdkTools.Registry

set_option autoImplicit false

/-- The 32-bit layout of a `HIVE_INFO`. -/
def sizeofHiveInfo : Nat := 16
def offsetofName : Nat := 13

structure HiveInfo where
  lpFileInfo : Nat
  nameLength : Nat
  hash : UCHAR
  /-- what `StrCpy` wrote, with the null -/
  name : List UCHAR
  deriving DecidableEq

inductive HKEY where
  | localMachine
  | users
  | other
  deriving DecidableEq

/-- A key: the names of its subkeys in its file, and its hives, the latest first. -/
structure Key where
  predefined : HKEY
  children : List (List UCHAR)
  lpHiveInfoList : List HiveInfo
  deriving DecidableEq

/-- `KEYF_HIVESALLOWED`, as the predefined keys are initialized. -/
def Key.hivesAllowed (key : Key) : Bool :=
  match key.predefined with
  | .localMachine | .users => true
  | .other => false

inductive HiveError where
  | invalidParameter
  | badKey
  | lockFailed
  | outOfMemory
  | moreData
  | noMoreItems
  | file (error : Nat)
  deriving DecidableEq

/-- Where `RgLookupKey` goes on: the key itself, a hive with the rest of the path, or the
subkeys in the file of the key. -/
inductive Entered where
  | key
  | hive (lpFileInfo : Nat) (rest : LPCSTR)
  | children
  deriving DecidableEq

variable (page : CodePage)

/-- The length is that of the hive's name, and the comparison gives 0. -/
def isNamed (lpSubKey : LPCSTR) (length : Nat) (hive : HiveInfo) : Option Bool :=
  if length = hive.nameLength then
    (rgStrCmpNI page lpSubKey hive.name length).map fun difference => decide (difference = 0)
  else some false

/-- The walk over the hives in `RgLookupKey`. -/
def findHive (lpSubSubKey : LPCSTR) (length : Nat) : List HiveInfo → Option (Option HiveInfo)
  | [] => some none
  | hive :: hives =>
    match isNamed page lpSubSubKey length hive with
    | none => none
    | some true => some (some hive)
    | some false => findHive lpSubSubKey length hives

/-- The walk in `VMMRegUnLoadKey`: the hive that is unlinked, and the others. -/
def unlinkHive (lpSubKey : LPCSTR) (length : Nat) :
    List HiveInfo → Option (Option (HiveInfo × List HiveInfo))
  | [] => some none
  | hive :: hives =>
    match isNamed page lpSubKey length hive with
    | none => none
    | some true => some (some (hive, hives))
    | some false =>
      (unlinkHive lpSubKey length hives).map (Option.map fun r => (r.1, hive :: r.2))

/-- `RgLookupKey` as far as it chooses the file to search. -/
def rgLookupKey (key : Key) : Option LPCSTR → Option Entered
  | none => some .key
  | some lpSubKey => do
    let sub ← rgGetNextSubSubKey page lpSubKey
    if sub.length = 0 then pure .key
    else if key.hivesAllowed then
      match ← findHive page sub.lpSubSubKey sub.length key.lpHiveInfoList with
      | some hive => pure (.hive hive.lpFileInfo sub.last)
      | none => pure .children
    else pure .children

/-- Copies a string with its null into `room` bytes. -/
def strCpy (room : Nat) (lps : LPCSTR) : Option (List UCHAR) :=
  if (cString lps).length + 1 ≤ room then some (cString lps ++ [0]) else none

/-- `MoveMemory` out of a name. -/
def copyName (lps : List UCHAR) (count : Nat) : Option (List UCHAR) :=
  if count ≤ lps.length then some (lps.take count) else none

/-- What the name and its length are after a call for an existing entry; without a buffer
(`cbKeyName` is `none`) only the length is asked for. -/
def giveName (name : List UCHAR) (nameLength : Nat) (cbKeyName : Option Nat) :
    Option (Except HiveError (Option (List UCHAR)) × Nat) :=
  match cbKeyName with
  | none => some (.ok none, nameLength)
  | some cb =>
    if cb ≤ nameLength then some (.error .moreData, nameLength)
    else (copyName name nameLength).map fun given => (.ok (some given), nameLength)

/-- The children come first; the cached position of an enumeration is left out. -/
def rgLookupKeyByIndex (key : Key) (index : Nat) (cbKeyName : Option Nat) :
    Option (Except HiveError (Option (List UCHAR)) × Nat) :=
  match key.children[index]? with
  | some name => giveName name name.length cbKeyName
  | none =>
    match if key.hivesAllowed then key.lpHiveInfoList[index - key.children.length]? else none with
    | some hive => giveName hive.name hive.nameLength cbKeyName
    | none => some (.error .noMoreItems, 0)

/-- What the functions around a load and an unload give. -/
structure HiveEnv where
  badFileName : Bool
  lockFails : Bool
  /-- the error of `RgValidateAndConvertKeyHandle` -/
  handleError : Option Nat
  /-- the lookup succeeds where it goes on -/
  opens : Entered → Bool
  outOfMemory : Bool
  /-- `RgCreateFileInfoExisting` -/
  created : Except Nat Nat

/-- The key with its new hive, or the error. -/
def vmmRegLoadKey (env : HiveEnv) (key : Key) (lpSubKey : Option LPCSTR) :
    Option (Except HiveError Key) :=
  if env.badFileName then some (.error .invalidParameter)
  else if key.predefined ≠ .localMachine ∧ key.predefined ≠ .users then some (.error .badKey)
  else if env.lockFails then some (.error .lockFailed)
  else
    match env.handleError, lpSubKey with
    | some error, _ => some (.error (.file error))
    | none, none => some (.error .badKey)
    | none, some lpSubKey => do
      match ← rgValidateHiveSubKey page lpSubKey with
      | none => pure (.error .badKey)
      | some subKeyLength =>
        let entered ← rgLookupKey page key (some lpSubKey)
        if env.opens entered then pure (.error .badKey)
        else if env.outOfMemory then pure (.error .outOfMemory)
        else
          let name ← strCpy (sizeofHiveInfo + subKeyLength - offsetofName) lpSubKey
          let hash ← rgHashString page lpSubKey subKeyLength
          match env.created with
          | .error error => pure (.error (.file error))
          | .ok lpFileInfo =>
            let hive := ⟨lpFileInfo, subKeyLength, hash.setWidth 8, name⟩
            pure (.ok { key with lpHiveInfoList := hive :: key.lpHiveInfoList })

/-- The key without the hive, and the file that is flushed and destroyed. -/
def vmmRegUnLoadKey (env : HiveEnv) (key : Key) (lpSubKey : Option LPCSTR) :
    Option (Except HiveError (Key × Nat)) :=
  if key.predefined ≠ .localMachine ∧ key.predefined ≠ .users then some (.error .badKey)
  else if env.lockFails then some (.error .lockFailed)
  else
    match env.handleError, lpSubKey with
    | some error, _ => some (.error (.file error))
    | none, none => some (.error .badKey)
    | none, some lpSubKey => do
      match ← rgValidateHiveSubKey page lpSubKey with
      | none => pure (.error .badKey)
      | some subKeyLength =>
        match ← unlinkHive page lpSubKey subKeyLength key.lpHiveInfoList with
        | none => pure (.error .badKey)
        | some (hive, hives) =>
          pure (.ok ({ key with lpHiveInfoList := hives }, hive.lpFileInfo))

/-! ## Valid names -/

section

variable {page}

theorem rgGetNextSubSubKey_eq_some {s : LPCSTR} {sub : SubSubKey}
    (h : rgGetNextSubSubKey page s = some sub) (hpos : 0 < sub.length) :
    s.head? ≠ some 0 ∧ sub.lpSubSubKey = skipBackslash s ∧
      scanSubSubKey page (skipBackslash s) = some (sub.length, sub.last) := by
  cases s with
  | nil => cases h
  | cons char rest =>
    simp only [rgGetNextSubSubKey] at h
    split at h
    · cases h
      exact absurd hpos (Nat.lt_irrefl 0)
    · rename_i hchar
      obtain ⟨r, hscan, rfl⟩ := Option.map_eq_some_iff.mp h
      exact ⟨fun heq => hchar (Option.some.inj heq), rfl, hscan⟩

theorem rgGetNextSubSubKey_of_scan {s : LPCSTR} {n : Nat} {last : LPCSTR} (hs : s.head? ≠ some 0)
    (hscan : scanSubSubKey page (skipBackslash s) = some (n, last)) :
    rgGetNextSubSubKey page s = some ⟨skipBackslash s, n, last⟩ := by
  cases s with
  | nil => cases hscan
  | cons char rest =>
    simp only [rgGetNextSubSubKey]
    rw [if_neg fun heq => hs (congrArg some heq), hscan]
    rfl

/-- What the validation of a name has found. -/
structure Validated (page : CodePage) (s : LPCSTR) (length : Nat) : Prop where
  null : 0 ∈ s
  good : badSubKeyFrom page s 0 true = some false
  pos : 0 < length
  start : s.head? ≠ some 0
  single : ∃ last next, scanSubSubKey page (skipBackslash s) = some (length, last) ∧
    rgGetNextSubSubKey page last = some next ∧ next.length = 0

theorem validated {s : LPCSTR} {length : Nat}
    (h : rgValidateHiveSubKey page s = some (some length)) : Validated page s length := by
  simp only [rgValidateHiveSubKey, Option.bind_eq_bind, Option.bind_eq_some_iff] at h
  obtain ⟨bad, hbad, h⟩ := h
  cases bad with
  | true => cases h
  | false =>
    simp only [Bool.false_eq_true, if_false, Option.bind_eq_some_iff] at h
    obtain ⟨sub, hsub, h⟩ := h
    split at h
    · cases h
    · rename_i hpos
      obtain ⟨next, hnext, h⟩ := Option.bind_eq_some_iff.mp h
      split at h
      · rename_i hzero
        obtain rfl : sub.length = length := Option.some.inj (Option.some.inj h)
        obtain ⟨hstart, -, hscan⟩ := rgGetNextSubSubKey_eq_some hsub (Nat.pos_of_ne_zero hpos)
        unfold rgIsBadSubKey at hbad
        split at hbad
        · cases hbad
        · rename_i hnull
          refine ⟨?_, hbad, Nat.pos_of_ne_zero hpos, hstart, _, next, hscan, hnext, hzero⟩
          simpa [isBadStringPtr] using hnull
      · cases h

theorem skipBackslash_cons {char : UCHAR} (h : char ≠ backslash) (rest : LPCSTR) :
    skipBackslash (char :: rest) = char :: rest := if_neg h

/-- The copy of a valid name fits: only a leading and a trailing backslash are not counted. -/
theorem Validated.fits {s : LPCSTR} {length : Nat} (h : Validated page s length) :
    (cString s).length + 1 ≤ sizeofHiveInfo + length - offsetofName := by
  obtain ⟨last, next, hscan, hnext, hzero⟩ := h.single
  obtain ⟨⟨head, heq, hhead⟩, char, tail, rfl, hend⟩ := scan_split hscan
  have hskip : (cString s).length ≤ 1 + (cString (skipBackslash s)).length ∧
      ∃ first, badSubKeyFrom page (skipBackslash s) 0 first = some false := by
    have hgood := h.good
    cases s with
    | nil => cases h.null
    | cons c rest =>
      by_cases hc : c = backslash
      · subst hc
        have hstep : badSubKeyFrom page (backslash :: rest) 0 true =
            badSubKeyFrom page rest 0 false := by
          conv_lhs => unfold badSubKeyFrom
          rw [if_neg (by decide), if_pos rfl, if_neg (by simp)]
        exact ⟨length_cString_append_le [backslash] rest, false, hstep.symm.trans hgood⟩
      · rw [skipBackslash_cons hc]
        exact ⟨Nat.le_add_left _ 1, true, hgood⟩
  obtain ⟨hlength, first, hgood⟩ := hskip
  obtain ⟨k, first', hrest, hk⟩ := badSubKeyFrom_scan hscan hgood
  have hlast : (cString (char :: tail)).length ≤ 1 := by
    rcases hend with rfl | rfl
    · exact Nat.zero_le 1
    · unfold badSubKeyFrom at hrest
      rw [if_neg (by decide), if_pos rfl, if_neg fun hc => Nat.ne_of_gt (hk (.inl h.pos)) hc.1] at hrest
      have hscan' : scanSubSubKey page tail = some (0, next.last) := by
        have hnext' : rgGetNextSubSubKey page (backslash :: tail) =
            (scanSubSubKey page tail).map fun r => ⟨tail, r.1, r.2⟩ := rfl
        rw [hnext', Option.map_eq_some_iff] at hnext
        obtain ⟨r, hr, rfl⟩ := hnext
        rw [hr]
        exact congrArg some (Prod.ext hzero rfl)
      obtain ⟨⟨head', htail, hnil⟩, char', tail', hlast, hend'⟩ := scan_split hscan'
      obtain rfl := List.eq_nil_of_length_eq_zero hnil
      rw [htail, List.nil_append, hlast] at hrest ⊢
      rcases hend' with rfl | rfl
      · exact Nat.le_refl 1
      · unfold badSubKeyFrom at hrest
        rw [if_neg (by decide), if_pos rfl, if_pos ⟨rfl, rfl⟩] at hrest
        cases hrest
  have happend := length_cString_append_le head (char :: tail)
  rw [heq] at hlength
  unfold sizeofHiveInfo offsetofName
  omega

/-! ## A hive after its load -/

/-- The name neither begins with a backslash nor ends inside a character. -/
structure PlainName (page : CodePage) (s : LPCSTR) : Prop where
  noBackslash : s.head? ≠ some backslash
  paired : ∀ c ∈ firstComponent page s, c.Paired

/-- A loaded hive is known by its component. -/
structure HiveNamesRight (page : CodePage) (key key' : Key) (s : LPCSTR) (lpFileInfo : Nat) :
    Prop where
  lookup : ∀ path, 0 ∈ path → SameName page (firstComponent page path) (firstComponent page s) →
    ∃ rest, rgLookupKey page key' (some path) = some (.hive lpFileInfo rest)
  enumerated : ∀ cb, (bytes (firstComponent page s)).length < cb →
    rgLookupKeyByIndex key' key.children.length (some cb) =
      some (.ok (some (bytes (firstComponent page s))), (bytes (firstComponent page s)).length)
  unload : ∀ env : HiveEnv, env.lockFails = false → env.handleError = none →
    vmmRegUnLoadKey page env key' (some s) = some (.ok (key, lpFileInfo))

/-- What a load that succeeds has done. -/
structure HiveLoaded (page : CodePage) (env : HiveEnv) (key key' : Key) (s : LPCSTR) (length : Nat)
    (hash : UCHAR) (lpFileInfo : Nat) : Prop where
  valid : rgValidateHiveSubKey page s = some (some length)
  predefined : key.predefined = .localMachine ∨ key.predefined = .users
  created : env.created = .ok lpFileInfo
  hive : key' = { key with
    lpHiveInfoList := ⟨lpFileInfo, length, hash, cString s ++ [0]⟩ :: key.lpHiveInfoList }

theorem hiveLoaded {env : HiveEnv} {key key' : Key} {s : LPCSTR}
    (h : vmmRegLoadKey page env key (some s) = some (.ok key')) :
    ∃ length hash lpFileInfo, HiveLoaded page env key key' s length hash lpFileInfo := by
  unfold vmmRegLoadKey at h
  split at h
  · cases h
  split at h
  · cases h
  rename_i hkey
  split at h
  · cases h
  split at h
  · cases h
  · cases h
  · rename_i heq
    cases heq
    simp only [Option.bind_eq_bind, Option.bind_eq_some_iff] at h
    obtain ⟨found, hvalid, h⟩ := h
    cases found with
    | none => cases h
    | some length =>
      simp only [Option.bind_eq_some_iff] at h
      obtain ⟨entered, -, h⟩ := h
      split at h
      · cases h
      split at h
      · cases h
      obtain ⟨name, hname, h⟩ := Option.bind_eq_some_iff.mp h
      obtain ⟨hash, -, h⟩ := Option.bind_eq_some_iff.mp h
      split at h
      · cases h
      · rename_i lpFileInfo hcreated
        unfold strCpy at hname
        split at hname
        · cases hname
          cases h
          refine ⟨length, hash.setWidth 8, lpFileInfo, hvalid, ?_, hcreated, rfl⟩
          by_contra hno
          exact hkey (not_or.mp hno)
        · cases hname

theorem HiveLoaded.hivesAllowed {env : HiveEnv} {key key' : Key} {s : LPCSTR} {length : Nat}
    {hash : UCHAR} {lpFileInfo : Nat} (h : HiveLoaded page env key key' s length hash lpFileInfo) :
    key'.hivesAllowed = true := by
  rw [h.hive]
  rcases h.predefined with hkey | hkey <;> simp [Key.hivesAllowed, hkey]

theorem HiveLoaded.lookupByIndex {env : HiveEnv} {key key' : Key} {s : LPCSTR} {length : Nat}
    {hash : UCHAR} {lpFileInfo : Nat} (h : HiveLoaded page env key key' s length hash lpFileInfo)
    (cb : Nat) :
    rgLookupKeyByIndex key' key.children.length (some cb) =
      giveName (cString s ++ [0]) length (some cb) := by
  have hchild : key'.children[key.children.length]? = none := by
    rw [h.hive]
    exact List.getElem?_eq_none (Nat.le_refl _)
  have hhive : key'.lpHiveInfoList[key.children.length - key'.children.length]? =
      some ⟨lpFileInfo, length, hash, cString s ++ [0]⟩ := by
    rw [h.hive, Nat.sub_self]
    rfl
  unfold rgLookupKeyByIndex
  rw [hchild, if_pos h.hivesAllowed, hhive]

theorem isNamed_of_cmp {lpSubKey : LPCSTR} {length : Nat} {hive : HiveInfo}
    (hlength : length = hive.nameLength)
    (hcmp : rgStrCmpNI page lpSubKey hive.name length = some 0) :
    isNamed page lpSubKey length hive = some true := by
  rw [isNamed, if_pos hlength, hcmp]
  rfl

theorem findHive_head {lpSubSubKey : LPCSTR} {length : Nat} {hive : HiveInfo}
    (h : isNamed page lpSubSubKey length hive = some true) (hives : List HiveInfo) :
    findHive page lpSubSubKey length (hive :: hives) = some (some hive) := by
  rw [findHive, h]

theorem unlinkHive_head {lpSubKey : LPCSTR} {length : Nat} {hive : HiveInfo}
    (h : isNamed page lpSubKey length hive = some true) (hives : List HiveInfo) :
    unlinkHive page lpSubKey length (hive :: hives) = some (some (hive, hives)) := by
  rw [unlinkHive, h]

theorem SameName.paired {cs ds : List DBChar} (h : SameName page cs ds)
    (hds : ∀ d ∈ ds, d.Paired) : ∀ c ∈ cs, c.Paired := by
  induction h with
  | nil => exact hds
  | @cons c d cs ds hcd _ ih =>
    obtain ⟨hd, hds⟩ := List.forall_mem_cons.mp hds
    refine List.forall_mem_cons.mpr ⟨?_, ih hds⟩
    cases c with
    | unpaired lead =>
      obtain rfl : DBChar.unpaired lead = d := hcd
      exact hd
    | single byte => trivial
    | double lead trail => trivial

theorem first_byte_ne_backslash {cs : List DBChar} (hcs : ∀ c ∈ cs, c.Proper page) :
    (bytes cs).head? ≠ some backslash := by
  cases cs with
  | nil => simp
  | cons c cs =>
    have hc := hcs c List.mem_cons_self
    cases c with
    | single byte => exact fun h => hc.2.2 (Option.some.inj h)
    | double lead trail => exact fun h => hc.2.2.1 (Option.some.inj h)
    | unpaired lead => exact fun h => hc.2.2 (Option.some.inj h)

theorem cString_bytes {cs : List DBChar} (hcs : ∀ c ∈ cs, c.Proper page)
    (hpaired : ∀ c ∈ cs, c.Paired) (rest : LPCSTR) :
    cString (bytes cs ++ rest) = bytes cs ++ cString rest := by
  induction cs with
  | nil => rfl
  | cons c cs ih =>
    obtain ⟨hc, hcs⟩ := List.forall_mem_cons.mp hcs
    obtain ⟨hp, hpaired⟩ := List.forall_mem_cons.mp hpaired
    have ih := ih hcs hpaired
    unfold cString at ih ⊢
    cases c with
    | single byte =>
      rw [bytes_single, List.cons_append, List.takeWhile_cons, if_pos (bne_iff_ne.mpr hc.2.1), ih]
      rfl
    | double lead trail =>
      rw [bytes_double, List.cons_append, List.cons_append, List.takeWhile_cons,
        if_pos (bne_iff_ne.mpr hc.2.1), List.takeWhile_cons, if_pos (bne_iff_ne.mpr hc.2.2.2), ih]
      rfl
    | unpaired lead => exact absurd hp id

/-- Enumeration finds the component only if the name is plain. -/
theorem HiveLoaded.plain_of_enumerated {env : HiveEnv} {key key' : Key} {s : LPCSTR} {length : Nat}
    {hash : UCHAR} {lpFileInfo : Nat} (h : HiveLoaded page env key key' s length hash lpFileInfo)
    (hright : HiveNamesRight page key key' s lpFileInfo) : PlainName page s := by
  have hvalid := validated h.valid
  obtain ⟨last, next, hscan, -, -⟩ := hvalid.single
  let cs := firstComponent page s
  have hcs : ∀ c ∈ cs, c.Proper page := componentChars_proper _
  have henum := hright.enumerated (length + (bytes cs).length + 1)
    (Nat.lt_succ_of_le (Nat.le_add_left _ length))
  rw [h.lookupByIndex, giveName] at henum
  simp only [if_neg (show ¬ length + (bytes cs).length + 1 ≤ length by omega),
    Option.map_eq_some_iff] at henum
  obtain ⟨given, hgiven, hpair⟩ := henum
  obtain ⟨hname, hlength⟩ := Prod.mk.inj hpair
  obtain rfl : given = bytes cs := Option.some.inj (Except.ok.inj hname)
  constructor
  · intro hhead
    unfold copyName at hgiven
    split at hgiven
    · have htake := Option.some.inj hgiven
      obtain ⟨n, rfl⟩ := Nat.exists_eq_succ_of_ne_zero (Nat.ne_of_gt hvalid.pos)
      obtain ⟨rest, rfl⟩ : ∃ rest, s = backslash :: rest := by
        cases s with
        | nil => cases hhead
        | cons c rest => exact ⟨rest, by rw [Option.some.inj hhead]⟩
      have hfirst : cString (backslash :: rest) = backslash :: cString rest := rfl
      rw [hfirst, List.cons_append, List.take_succ_cons] at htake
      exact first_byte_ne_backslash hcs (by rw [← htake]; rfl)
    · cases hgiven
  · by_contra hunpaired
    have hlt := scan_of_unpaired hscan hunpaired
    exact absurd hlength (Nat.ne_of_gt hlt)

/-- A plain name is used alike by all functions. -/
theorem HiveLoaded.namesRight {env : HiveEnv} {key key' : Key} {s : LPCSTR} {length : Nat}
    {hash : UCHAR} {lpFileInfo : Nat} (h : HiveLoaded page env key key' s length hash lpFileInfo)
    (hplain : PlainName page s) : HiveNamesRight page key key' s lpFileInfo := by
  have hvalid := validated h.valid
  obtain ⟨last, next, hscan, -, -⟩ := hvalid.single
  let cs := firstComponent page s
  have hcs : ∀ c ∈ cs, c.Proper page := componentChars_proper _
  have hskip : skipBackslash s = s := by
    cases hs : s with
    | nil => rfl
    | cons c rest =>
      exact skipBackslash_cons (fun hc => hplain.noBackslash (by rw [hs, hc]; rfl)) rest
  have hnull : 0 ∈ skipBackslash s := hskip.symm ▸ hvalid.null
  obtain ⟨rest, hscan', hs⟩ := scan_of_paired hnull hplain.paired
  obtain ⟨hlen, rfl⟩ := Prod.mk.inj (Option.some.inj (hscan.symm.trans hscan'))
  replace hlen : length = (bytes cs).length := hlen
  have hs : s = bytes cs ++ last := hskip.symm.trans hs
  have hname : cString s ++ [0] = bytes cs ++ (cString last ++ [0]) := by
    rw [hs, cString_bytes hcs hplain.paired, List.append_assoc]
  have hallowed := h.hivesAllowed
  constructor
  · intro path hpath hsame
    have hpath' : ∀ c ∈ componentChars page (skipBackslash path), c.Proper page :=
      componentChars_proper _
    have hpaired := SameName.paired hsame hplain.paired
    obtain ⟨hlength, -⟩ := rgStrCmpNI_same hsame hpath' hplain.paired [] []
    cases hstart : path with
    | nil =>
      rw [hstart] at hpath
      cases hpath
    | cons char tail =>
      have hchar : char ≠ 0 := by
        rintro rfl
        have hnone : firstComponent page path = [] := by
          rw [hstart]
          exact componentChars_end (.inl rfl) tail
        rw [hnone] at hlength
        exact absurd (hlength.trans hlen.symm) (Nat.ne_of_lt hvalid.pos)
      have hnull' : 0 ∈ skipBackslash path := by
        rw [hstart] at hpath ⊢
        by_cases hback : char = backslash
        · rw [skipBackslash, if_pos hback]
          exact (List.mem_cons.mp hpath).resolve_left fun h => hchar h.symm
        · rw [skipBackslash_cons hback]
          exact hpath
      obtain ⟨rest, hscan₂, hpath₂⟩ := scan_of_paired hnull' hpaired
      have hhead : path.head? ≠ some 0 := by
        rw [hstart]
        exact fun heq => hchar (Option.some.inj heq)
      have hsub : rgGetNextSubSubKey page path =
          some ⟨skipBackslash path, (bytes (firstComponent page path)).length, rest⟩ :=
        rgGetNextSubSubKey_of_scan hhead hscan₂
      have hcmp := (rgStrCmpNI_same hsame hpath' hplain.paired rest (cString last ++ [0])).2
      rw [show bytes (firstComponent page path) ++ rest = skipBackslash path from hpath₂.symm,
        show bytes (firstComponent page s) ++ _ = cString s ++ [0] from hname.symm] at hcmp
      refine ⟨rest, ?_⟩
      rw [← hstart]
      have hfind : findHive page (skipBackslash path) (bytes (firstComponent page path)).length
          key'.lpHiveInfoList =
            some (some ⟨lpFileInfo, length, hash, cString s ++ [0]⟩) := by
        rw [h.hive]
        exact findHive_head (isNamed_of_cmp (hlength.trans hlen.symm) (hlength.symm ▸ hcmp)) _
      have hpos : ¬ (bytes (firstComponent page path)).length = 0 := by
        rw [hlength]
        exact hlen ▸ Nat.ne_of_gt hvalid.pos
      simp only [rgLookupKey, hsub, Option.bind_eq_bind, Option.bind_some]
      rw [if_neg hpos, if_pos hallowed]
      exact (congrArg (Option.bind · _) hfind).trans rfl
  · intro cb hcb
    have hmove : copyName (cString s ++ [0]) (bytes cs).length = some (bytes cs) := by
      rw [hname, copyName, if_pos (by rw [List.length_append]; exact Nat.le_add_right _ _),
        List.take_left]
    rw [h.lookupByIndex, hlen, giveName]
    exact (if_neg (Nat.not_le.mpr hcb)).trans (congrArg (Option.map _) hmove)
  · intro env' hlock hhandle
    have hkey : ¬ (key'.predefined ≠ .localMachine ∧ key'.predefined ≠ .users) := by
      rw [h.hive]
      exact fun hno => h.predefined.elim hno.1 hno.2
    have hself : SameName page cs cs := List.forall₂_same.mpr fun c _ => by
      cases c <;> rfl
    have hcmp := (rgStrCmpNI_same hself hcs hplain.paired last (cString last ++ [0])).2
    rw [← hs, ← hname, ← hlen] at hcmp
    have hnamed : isNamed page s length ⟨lpFileInfo, length, hash, cString s ++ [0]⟩ = some true :=
      isNamed_of_cmp rfl hcmp
    have hunlink : unlinkHive page s length key'.lpHiveInfoList =
        some (some (⟨lpFileInfo, length, hash, cString s ++ [0]⟩, key.lpHiveInfoList)) := by
      rw [h.hive]
      exact unlinkHive_head hnamed _
    unfold vmmRegUnLoadKey
    rw [if_neg hkey, hlock, hhandle]
    simp only [Bool.false_eq_true, if_false, h.valid, Option.bind_eq_bind, Option.bind_some]
    rw [hunlink, h.hive]
    rfl

/-- A hive is known by its component exactly when its name is plain. -/
theorem namesRight_iff {env : HiveEnv} {key key' : Key} {s : LPCSTR} {lpFileInfo : Nat}
    (h : vmmRegLoadKey page env key (some s) = some (.ok key'))
    (hcreated : env.created = .ok lpFileInfo) :
    HiveNamesRight page key key' s lpFileInfo ↔ PlainName page s := by
  obtain ⟨length, hash, file, hloaded⟩ := hiveLoaded h
  obtain rfl : file = lpFileInfo := Except.ok.inj (hloaded.created.symm.trans hcreated)
  exact ⟨hloaded.plain_of_enumerated, hloaded.namesRight⟩

end

/-- The copy of a valid name fits, and a loaded hive is entered, enumerated and unloaded by its
component exactly when the name is plain. -/
theorem hive_names_iff (page : CodePage) :
    (∀ s length, rgValidateHiveSubKey page s = some (some length) →
      (cString s).length + 1 ≤ sizeofHiveInfo + length - offsetofName) ∧
    ∀ env key key' s lpFileInfo, vmmRegLoadKey page env key (some s) = some (.ok key') →
      env.created = .ok lpFileInfo →
        (HiveNamesRight page key key' s lpFileInfo ↔ PlainName page s) :=
  ⟨fun _ _ h => (validated h).fits, fun _ _ _ _ _ h hcreated => namesRight_iff h hcreated⟩

/-- A code page without lead bytes. -/
def asciiPage : CodePage where
  isDBCSLeadByte := fun _ => false
  toUpper := fun byte => if 0x61 ≤ byte ∧ byte ≤ 0x7A then byte - 0x20 else byte
  maximumSubKeyLength := 256

/-- No failures; the name is new and its file is number 1. -/
def newHiveEnv : HiveEnv where
  badFileName := false
  lockFails := false
  handleError := none
  opens := fun _ => false
  outOfMemory := false
  created := .ok 1

def localMachine : Key := ⟨.localMachine, [], []⟩

theorem hive_names_iff_foo :
    HiveNamesRight asciiPage localMachine
      { localMachine with lpHiveInfoList := [⟨1, 3, 0xE4, [0x66, 0x6F, 0x6F, 0]⟩] }
      [0x66, 0x6F, 0x6F, 0] 1 := by
  refine ((hive_names_iff asciiPage).2 newHiveEnv localMachine _ _ 1 ?_ rfl).mpr ⟨by decide, ?_⟩
  · decide
  · have hchars : firstComponent asciiPage [0x66, 0x6F, 0x6F, 0] =
        [.single 0x66, .single 0x6F, .single 0x6F] := by decide
    intro c hc
    rw [hchars, List.mem_cons, List.mem_cons, List.mem_singleton] at hc
    rcases hc with rfl | rfl | rfl <;> trivial

/-- HiveLoaded as `\foo`, the hive is known as `\fo`. -/
theorem leading_backslash :
    let key : Key :=
      { localMachine with lpHiveInfoList := [⟨1, 3, 0xF1, [0x5C, 0x66, 0x6F, 0x6F, 0]⟩] }
    vmmRegLoadKey asciiPage newHiveEnv localMachine (some [0x5C, 0x66, 0x6F, 0x6F, 0]) =
        some (.ok key) ∧
      rgLookupKey asciiPage key (some [0x66, 0x6F, 0x6F, 0]) = some .children ∧
      ¬ HiveNamesRight asciiPage localMachine key [0x5C, 0x66, 0x6F, 0x6F, 0] 1 := by
  intro key
  have hload : vmmRegLoadKey asciiPage newHiveEnv localMachine
      (some [0x5C, 0x66, 0x6F, 0x6F, 0]) = some (.ok key) := by decide
  refine ⟨hload, by decide, fun hright => ?_⟩
  exact ((namesRight_iff hload rfl).mp hright).noBackslash rfl

end SdkTools.Registry
