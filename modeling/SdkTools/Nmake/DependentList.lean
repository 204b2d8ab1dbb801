import Mathlib.Data.List.Basic

/-!
# Lists of dependents

`createDepList`, `insertSort` and `nextToken` of `build.cpp`, with `searchPath`, `findFirst`
and `prependPath`. A position in a string is the list of the characters from there to its
NUL, and a pointer to an element of a list is the list from there on. The directories are
a parameter: what `_findfirst` and `_findnext` give for a pattern.
-/

namespace SdkTools.Nmake.DependentList

set_option autoImplicit false

abbrev Text := List Char

def ESCH : Char := '^'

def WHITESPACE (c : Char) : Bool := c = ' ' ∨ c = '\t'

/-- `_tcspbrk (s, "*?")` -/
def hasWildcard (s : Text) : Bool := s.any fun c => c = '*' ∨ c = '?'

inductive Stop where
  /-- A quote is missing. -/
  | LEXER_INTERNAL
  | MISSING_CLOSING_BRACE
  /-- A character after the NUL of a string is read. -/
  | beyond
  | fuel
deriving DecidableEq

/-! ### Tokens -/

/-- The text from `s` up to the later position `t`. -/
def upTo (s t : Text) : Text := s.take (s.length - t.length)

/-- The token that ends at the quote which closes the one at `q`, and the next position. -/
def closeToken (s q : Text) : Except Stop (Option (Text × Text)) :=
  match q.tail.dropWhile (· ≠ '"') with
  | [] => .error .LEXER_INTERNAL
  | _ :: t => .ok (some (upTo s t, t.tail))

/-- The token that ends at white space. -/
def closeWord (s e : Text) : Except Stop (Option (Text × Text)) :=
  let t := e.dropWhile fun c => !WHITESPACE c
  .ok (some (upTo s t, t.tail))

/-- Past a quoted part. -/
def skipQuoted (s : Text) : Text :=
  if s.head? = some '"' then (s.tail.dropWhile (· ≠ '"')).tail else s

theorem length_skipQuoted_le (s : Text) : (skipQuoted s).length ≤ s.length := by
  unfold skipQuoted
  split
  · rw [List.length_tail]
    have hdrop := (List.dropWhile_suffix (l := s.tail) (· ≠ '"')).length_le
    rw [List.length_tail] at hdrop
    omega
  · exact Nat.le_refl _

/-- To the next brace that is not in quotes, or to the end. -/
def skipBrace : Text → Text
  | [] => []
  | _ :: s =>
    if (skipQuoted s).head? = some '}' then skipQuoted s else skipBrace (skipQuoted s)
termination_by s => s.length
decreasing_by exact Nat.lt_succ_of_le (length_skipQuoted_le s)

def nextToken (pNext : Text) : Except Stop (Option (Text × Text)) :=
  let s := pNext.dropWhile WHITESPACE
  if s = [] then .ok none
  else if s.head? = some '"' then closeToken s s
  else if s.head? = some '{' then
    match skipBrace s with
    | [] => .error .MISSING_CLOSING_BRACE
    | _ :: e => if e.head? = some '"' then closeToken s e else closeWord s e
  else closeWord s s

/-! ### Files -/

/-- What is known of a file. -/
structure FindData where
  name : Text
  isSubdir : Bool
  time_create : Int
  time_write : Int

def getDateTime (f : FindData) : Int :=
  if f.isSubdir then if f.time_create = -1 then f.time_write else f.time_create
  else f.time_write

/-- Drive and directory of a path. -/
def splitDir (path : Text) : Text :=
  let base := path.reverse.takeWhile fun c => c ≠ '\\' ∧ c ≠ '/'
  if base.length < path.length then path.take (path.length - base.length)
  else if path[1]? = some ':' then path.take 2
  else []

def prependPath (pszWildcard pszFilename : Text) : Text := splitDir pszWildcard ++ pszFilename

/-- The name without escape characters and quotes. -/
def elide (s : Text) : Text := s.filter fun c => c ≠ ESCH ∧ c ≠ '"'

/-- The files that match a pattern. No name of a file has a wildcard, and no directory of a
pattern that matches. -/
structure FileSystem where
  files : Text → List FindData
  plain : ∀ p f, f ∈ files (elide p) → hasWildcard (prependPath p f.name) = false

section

variable (fs : FileSystem)

/-- The first match, and the matches that are left in the handle. -/
def findFirst (s : Text) : Option (FindData × List FindData) :=
  match fs.files (elide s) with
  | [] => none
  | f :: more => some (f, if hasWildcard (elide s) then more else [])

/-- `name` in a directory of the search path. -/
def searchDir (s name : Text) : Option (Text × FindData × List FindData) :=
  let s := if s.getLast? = some '\\' ∨ s.getLast? = some '/' then s else s ++ ['\\']
  if hasWildcard s then none
  else (findFirst fs (s ++ name)).map fun found => (s ++ name, found)

/-- The directories of the path `p` in turn; `s` is the start of the next of them. -/
def searchDirs (name : Text) (s : Text) : Text → Option (Text × FindData × List FindData)
  | [] => if s = [] then none else searchDir fs s name
  | c :: p =>
    if c = '"' then searchDirs name s p
    else if c = ';' then
      if s = [] then searchDirs name [] p
      else
        match searchDir fs s name with
        | some found => some found
        | none => searchDirs name [] p
    else searchDirs name (s ++ [c]) p

/-- The path found, its first match, and the matches that are left. -/
def searchPath (p : Option Text) (name : Text) : Option (Text × FindData × List FindData) :=
  match findFirst fs name with
  | some found => some (name, found)
  | none =>
    match p with
    | none => none
    | some p => searchDirs fs name [] p

end

/-! ### The list -/

structure DEPLIST where
  name : Text
  depTime : Int
deriving DecidableEq

/-- The walk of the two pointers; `current` trails `pList`. -/
def insertWalk (item : Int) : List DEPLIST → List DEPLIST → List DEPLIST × List DEPLIST
  | current, [] => (current, [])
  | current, p :: next =>
    if item ≤ p.depTime then insertWalk item (p :: next) next else (current, p :: next)

def insertSort (pDepList : List DEPLIST) (pElement : DEPLIST) : List DEPLIST :=
  let (current, pList) := insertWalk pElement.depTime pDepList pDepList
  -- Pointers into one list are equal when as many elements follow.
  if current.length = pList.length then [pElement]
  else pDepList.take (pDepList.length - current.length + 1) ++ pElement :: pList

/-- A name with a space is quoted. -/
def quotedName (depPath : Text) : Text :=
  if ' ' ∈ depPath ∧ '"' ∉ depPath then '"' :: depPath ++ ['"'] else depPath

/-- To the first brace that is not escaped, or to the end. -/
def findBrace : Text → Except Stop Text
  | [] => .ok []
  | c :: s =>
    if c = '}' then .ok (c :: s)
    else if c = ESCH then
      match s with
      | [] => .error .beyond
      | _ :: s => findBrace s
    else findBrace s

/-- The path list, which may be missing, and the name of a token. -/
def splitToken (token : Text) : Except Stop (Option Text × Text) :=
  if token.head? = some '{' then
    match findBrace token with
    | .error e => .error e
    | .ok [] => .ok (some token, [])
    | .ok (b :: depName) => .ok (some (upTo token (b :: depName)).tail, depName)
  else .ok (none, token)

section

variable (fs : FileSystem) (fDescRebuildOrder : Bool)

/-- An element for `depPath`, and the handle, which is the one of the search for `depPath`
when there was one. -/
def newElement (depPath : Text) (finddata : FindData) (handle : List FindData) :
    DEPLIST × List FindData :=
  if fDescRebuildOrder then
    match findFirst fs depPath with
    | some (f, more) => (⟨quotedName depPath, getDateTime f⟩, more)
    | none => (⟨quotedName depPath, 0⟩, [])
  else (⟨quotedName depPath, getDateTime finddata⟩, handle)

def addElement (depList : List DEPLIST) (pNew : DEPLIST) : List DEPLIST :=
  if fDescRebuildOrder then insertSort depList pNew else depList ++ [pNew]

/-- The elements for one token: all the files that its wildcards match. -/
def addLoop (again : Bool) (depName : Text) :
    Nat → Text → FindData → List FindData → List DEPLIST → Except Stop (List DEPLIST)
  | 0, _, _, _, _ => .error .fuel
  | fuel + 1, depPath, finddata, handle, depList =>
    let (pNew, handle) := newElement fs fDescRebuildOrder depPath finddata handle
    let depList := addElement fDescRebuildOrder depList pNew
    if again && hasWildcard depName then
      match handle with
      | [] => .ok depList
      | f :: handle => addLoop again depName fuel (prependPath depName f.name) f handle depList
    else .ok depList

/-- `finddata` for a name that is not searched. -/
def noFile : FindData := ⟨[], false, 0, 0⟩

def addToken (token : Text) (depList : List DEPLIST) : Except Stop (List DEPLIST) := do
  let (path, depName) ← splitToken token
  let found :=
    if hasWildcard depName || path.isSome then searchPath fs path depName else none
  match found with
  | some (depName, f, handle) =>
    addLoop fs fDescRebuildOrder true depName (handle.length + 1) (prependPath depName f.name) f
      handle depList
  | none => addLoop fs fDescRebuildOrder false depName 1 depName noFile [] depList

def addTokens : Nat → Text → List DEPLIST → Except Stop (List DEPLIST)
  | 0, _, _ => .error .fuel
  | fuel + 1, t, depList => do
    match ← nextToken t with
    | none => .ok depList
    | some (token, t) => addToken fs fDescRebuildOrder token depList >>= addTokens fuel t

/-- The scan for a macro. -/
def hasMacro : Text → Except Stop Bool
  | [] => .ok false
  | c :: s =>
    if c = '$' then .ok true
    else if c = ESCH then
      match s with
      | [] => .error .beyond
      | _ :: s => hasMacro s
    else hasMacro s

/-- The texts of the dependents with their macros expanded; `expandMacros` also moves on in
the list of the values. -/
def expandDependents {σ : Type} (expandMacros : Text → σ → Text × σ) :
    List Text → σ → Except Stop (List Text)
  | [], _ => .ok []
  | text :: dependents, pMacros => do
    if ← hasMacro text then
      let (source, pMacros) := expandMacros text pMacros
      let sources ← expandDependents expandMacros dependents pMacros
      .ok (source :: sources)
    else
      let sources ← expandDependents expandMacros dependents pMacros
      .ok (text :: sources)

def addSources : List Text → List DEPLIST → Except Stop (List DEPLIST)
  | [], depList => .ok depList
  | source :: sources, depList =>
    addTokens fs fDescRebuildOrder (source.length + 1) source depList >>= addSources sources

def createDepList {σ : Type} (expandMacros : Text → σ → Text × σ) (dependents : List Text)
    (dependentMacros : σ) : Except Stop (List DEPLIST) :=
  expandDependents expandMacros dependents dependentMacros >>= fun sources =>
    addSources fs fDescRebuildOrder sources []

end

/-! ### Dependents -/

/-- A path list: directories, parts of which may be quoted. -/
inductive IsPathList : Text → Prop where
  | nil : IsPathList []
  | plain {c : Char} {t : Text} (hc : c ≠ '"' ∧ c ≠ '}' ∧ c ≠ ESCH) (h : IsPathList t) :
      IsPathList (c :: t)
  | escape {c : Char} {t : Text} (hc : c ≠ '"' ∧ c ≠ '}') (h : IsPathList t) :
      IsPathList (ESCH :: c :: t)
  | quoted {q t : Text} (hq : ∀ c ∈ q, c ≠ '"' ∧ c ≠ '}') (hnext : t.head? ≠ some '"')
      (h : IsPathList t) : IsPathList ('"' :: q ++ '"' :: t)

/-- A name is a word or a quoted text. -/
inductive IsName : Text → Prop where
  | word {n : Text} (hne : n ≠ []) (hquote : n.head? ≠ some '"')
      (hn : ∀ c ∈ n, WHITESPACE c = false) : IsName n
  | quoted {q : Text} (hq : ∀ c ∈ q, c ≠ '"') : IsName ('"' :: q ++ ['"'])

/-- A name, which may be looked for in a path list. -/
structure Dependent where
  path : Option Text
  name : Text
  isName : IsName name
  isPath : match path with
    | none => name.head? ≠ some '{'
    | some p => IsPathList p

def Dependent.text (d : Dependent) : Text :=
  match d.path with
  | none => d.name
  | some p => '{' :: p ++ '}' :: d.name

/-- A text of dependents with white space between them. -/
inductive Dependents : Text → List Dependent → Prop where
  | none {w : Text} (hw : ∀ c ∈ w, WHITESPACE c = true) : Dependents w []
  | last {w : Text} (hw : ∀ c ∈ w, WHITESPACE c = true) (d : Dependent) :
      Dependents (w ++ d.text) [d]
  | cons {w : Text} (hw : ∀ c ∈ w, WHITESPACE c = true) (d : Dependent) {b : Char}
      (hb : WHITESPACE b = true) {t : Text} {ds : List Dependent} (h : Dependents t ds) :
      Dependents (w ++ d.text ++ b :: t) (d :: ds)

/-- The dependents of the texts, one text after the other. -/
inductive AllDependents : List Text → List Dependent → Prop where
  | nil : AllDependents [] []
  | cons {source : Text} {sources : List Text} {ds more : List Dependent}
      (h : Dependents source ds) (hmore : AllDependents sources more) :
      AllDependents (source :: sources) (ds ++ more)

section

variable (fs : FileSystem)

/-- The files that a dependent stands for; itself, when there is none. -/
def expanded (d : Dependent) : List Text :=
  let found :=
    if hasWildcard d.name || d.path.isSome then searchPath fs d.path d.name else none
  match found with
  | some (depName, f, more) =>
    prependPath depName f.name ::
      (if hasWildcard depName then more.map fun f => prependPath depName f.name else [])
  | none => [d.name]

/-- The time of a file, 0 when there is no such file. -/
def fileTime (path : Text) : Int :=
  match findFirst fs path with
  | some (f, _) => getDateTime f
  | none => 0

def Sorted (l : List DEPLIST) : Prop := l.Pairwise fun a b => b.depTime ≤ a.depTime

/-- One element for each expanded dependent, in the order of the text or of the times. -/
def Complete (fDescRebuildOrder : Bool) (ds : List Dependent) (l : List DEPLIST) : Prop :=
  if fDescRebuildOrder then
    l.Perm ((ds.flatMap (expanded fs)).map fun path => ⟨quotedName path, fileTime fs path⟩) ∧
      Sorted l
  else l.map (·.name) = (ds.flatMap (expanded fs)).map quotedName

/-- No dependent stands for several files, and none is newer than the first. -/
def FirstNewest (ds : List Dependent) : Prop :=
  (∀ d ∈ ds, (expanded fs d).length = 1) ∧
    ∀ first ∈ (ds.flatMap (expanded fs)).head?, ∀ path ∈ ds.flatMap (expanded fs),
      fileTime fs path ≤ fileTime fs first

end

end SdkTools.Nmake.DependentList
