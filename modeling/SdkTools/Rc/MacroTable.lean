import SdkTools.Lib.Chain
import SdkTools.Lib.Run

/-!
# The macro table of the resource compiler

`define`, `undefine`, `definstall`, `get_defined` and `redefn` of `p0macros.c`. A
directive comes with what `getid`, `get_formals` and `get_definition` have read.
-/

namespace SdkTools.Rc

set_option autoImplicit false

abbrev WCHAR := BitVec 16

def EOS_CHAR : WCHAR := 0

/-- `'D'`, behind the end of a definition -/
def EOS_DEFINITION : WCHAR := 0x44

/-- `-2`, the number of formals of a definition of the command line -/
def FROM_COMMAND : Int := -2

/-- A string before its terminator. -/
structure Text where
  chars : List WCHAR
  noEos : EOS_CHAR ∉ chars
deriving DecidableEq

/-- `memcmp` of identifiers with their terminators, over the length of the first. -/
def memcmpEq (reuseW ident : Text) : Bool :=
  (ident.chars ++ [EOS_CHAR]).take (reuseW.chars.length + 1) = reuseW.chars ++ [EOS_CHAR]

/-- The hash `getid` makes of an identifier. -/
def hash (ident : Text) : BitVec 8 :=
  ident.chars.foldl (fun c p => c + (p &&& 0x5f).setWidth 8) 0

/-- `defn_t` -/
structure Defn where
  ident : Text
  text : Option (List WCHAR)
  nformals : BitVec 8
deriving DecidableEq

def preDefined (p : Defn) : Bool := p.nformals.toInt < FROM_COMMAND

/-- `Defn_level_0` -/
structure Table where
  chains : BitVec 8 → List Defn
  placed : ∀ b, ∀ p ∈ chains b, hash p.ident = b
  distinct : ∀ b, Lib.Distinct Defn.ident (chains b)

/-- `get_defined` on a chain. -/
def getDefinedIn (reuseW : Text) : List Defn → Option Defn
  | [] => none
  | p :: ps => if memcmpEq reuseW p.ident then some p else getDefinedIn reuseW ps

def getDefined (reuseW : Text) (t : Table) : Option Defn :=
  getDefinedIn reuseW (t.chains (hash reuseW))

/-- The loop of `undefine`. -/
def undefineIn (reuseW : Text) : List Defn → List Defn
  | [] => []
  | p :: ps =>
    if memcmpEq reuseW p.ident then if preDefined p then p :: ps else ps
    else p :: undefineIn reuseW ps

/-- `wcsncmp` finds no difference. -/
def wcsncmpEq : Nat → List WCHAR → List WCHAR → Bool
  | 0, _, _ => true
  | n + 1, a, b =>
    a.headD EOS_CHAR = b.headD EOS_CHAR ∧
      (a.headD EOS_CHAR = EOS_CHAR ∨ wcsncmpEq n a.tail b.tail)

def redefn (new old : Option (List WCHAR)) (n : Nat) : Bool :=
  match old, new with
  | some old, some new => !wcsncmpEq n new old
  | old, new => old.isSome || new.isSome

/-- The change to an entry at the end of `definstall`. -/
def install (text : List WCHAR) (number : Int) (p : Defn) : Defn :=
  { p with
    text :=
      if text.length = 0 then p.text
      else if number = FROM_COMMAND then some (text.dropLast ++ [EOS_DEFINITION])
      else some text
    nformals := BitVec.ofInt 8 (if number = FROM_COMMAND then 0 else number) }

/-- The identifier `definstall` reserves. -/
def defined : Text := ⟨[0x64, 0x65, 0x66, 0x69, 0x6e, 0x65, 0x64], by decide⟩

theorem memcmpEq_iff (reuseW ident : Text) : memcmpEq reuseW ident = true ↔ ident = reuseW := by
  unfold memcmpEq
  rw [decide_eq_true_iff]
  constructor
  · intro h
    have hall : ∀ (a b : List WCHAR), EOS_CHAR ∉ a → EOS_CHAR ∉ b →
        (b ++ [EOS_CHAR]).take (a.length + 1) = a ++ [EOS_CHAR] → b = a := by
      intro a
      induction a with
      | nil =>
        intro b _ hb h
        cases b with
        | nil => rfl
        | cons c b =>
          have hc : c = EOS_CHAR := (List.cons.inj h).1
          rw [hc] at hb
          exact absurd List.mem_cons_self hb
      | cons c a ih =>
        intro b ha hb h
        cases b with
        | nil =>
          have hc : EOS_CHAR = c := (List.cons.inj h).1
          rw [← hc] at ha
          exact absurd List.mem_cons_self ha
        | cons d b =>
          obtain ⟨hd, htail⟩ := List.cons.inj h
          rw [hd, ih b (fun hm => ha (List.mem_cons_of_mem c hm))
            (fun hm => hb (List.mem_cons_of_mem d hm)) htail]
    have hchars := hall reuseW.chars ident.chars reuseW.noEos ident.noEos h
    cases ident
    cases reuseW
    cases hchars
    rfl
  · rintro rfl
    apply List.take_of_length_le
    exact Nat.le_of_eq (by rw [List.length_append, List.length_singleton])

theorem getDefinedIn_eq (reuseW : Text) (ps : List Defn) :
    getDefinedIn reuseW ps = Lib.lookup Defn.ident reuseW ps := by
  induction ps with
  | nil => rfl
  | cons p ps ih =>
    rw [getDefinedIn, Lib.lookup, ih]
    by_cases hp : p.ident = reuseW
    · rw [if_pos ((memcmpEq_iff reuseW p.ident).mpr hp), if_pos hp]
    · rw [if_neg fun h => hp ((memcmpEq_iff reuseW p.ident).mp h), if_neg hp]

/-- A predefined macro is not undefined. -/
theorem undefineIn_eq (reuseW : Text) (ps : List Defn) :
    undefineIn reuseW ps =
      if (getDefinedIn reuseW ps).any preDefined then ps else Lib.unlink Defn.ident reuseW ps := by
  induction ps with
  | nil =>
    rw [undefineIn, getDefinedIn]
    rfl
  | cons p ps ih =>
    rw [undefineIn, getDefinedIn, Lib.unlink]
    by_cases hp : p.ident = reuseW
    · rw [if_pos ((memcmpEq_iff reuseW p.ident).mpr hp), if_pos hp,
        if_pos ((memcmpEq_iff reuseW p.ident).mpr hp)]
      rfl
    · have hne : ¬ memcmpEq reuseW p.ident = true :=
        fun h => hp ((memcmpEq_iff reuseW p.ident).mp h)
      rw [if_neg hne, if_neg hne, if_neg hp, ih]
      split
      · rfl
      · rfl

/-- The table with one chain replaced. -/
def Table.set (t : Table) (b : BitVec 8) (ps : List Defn) (hplaced : ∀ p ∈ ps, hash p.ident = b)
    (hdistinct : Lib.Distinct Defn.ident ps) : Table where
  chains c := if c = b then ps else t.chains c
  placed := by
    intro c p hp
    split at hp
    · rename_i hc
      rw [hc]
      exact hplaced p hp
    · exact t.placed c p hp
  distinct := by
    intro c
    split
    · exact hdistinct
    · exact t.distinct c

def undefine (reuseW : Text) (t : Table) : Table :=
  t.set (hash reuseW) (undefineIn reuseW (t.chains (hash reuseW)))
    (by
      intro p hp
      rw [undefineIn_eq] at hp
      split at hp
      · exact t.placed _ p hp
      · exact t.placed _ p (Lib.mem_of_mem_unlink hp))
    (by
      rw [undefineIn_eq]
      split
      · exact t.distinct _
      · exact (t.distinct _).unlink)

/-- The entry of an identifier changed in place. -/
def Table.change (t : Table) (reuseW : Text) (text : List WCHAR) (number : Int) : Table :=
  t.set (hash reuseW)
    (Lib.change Defn.ident reuseW (install text number) (t.chains (hash reuseW)))
    (by
      intro p hp
      have hident : p.ident ∈ (t.chains (hash reuseW)).map Defn.ident := by
        rw [← Lib.map_key_change (k := reuseW) (f := install text number) fun _ => rfl]
        exact List.mem_map_of_mem hp
      obtain ⟨q, hq, heq⟩ := List.mem_map.mp hident
      rw [← heq]
      exact t.placed _ q hq)
    ((t.distinct _).change fun _ => rfl)

/-- A new entry in front of its chain. -/
def Table.push (t : Table) (p : Defn) (hnone : getDefined p.ident t = none) : Table :=
  t.set (hash p.ident) (p :: t.chains (hash p.ident))
    (by
      intro q hq
      rcases List.mem_cons.mp hq with rfl | hq
      · rfl
      · exact t.placed _ q hq)
    (by
      unfold getDefined at hnone
      rw [getDefinedIn_eq] at hnone
      exact (t.distinct _).push hnone)

def definstall (reuseW : Text) (text : List WCHAR) (number : Int) (t : Table) : Table :=
  if reuseW = defined then t
  else
    match h : getDefined reuseW t with
    | some p =>
      if preDefined p then t
      else if redefn (if text.length = 0 then none else some text) p.text text.length then
        t.change reuseW text number
      else t
    | none => t.push (install text number ⟨reuseW, none, 0⟩) h

/-! ## Directives -/

/-- What `get_definition` returns: nothing for an empty text. -/
def definition (text : Text) : List WCHAR :=
  if text.chars = [] then [] else text.chars ++ [EOS_CHAR, EOS_DEFINITION]

/-- `N_formals` after the identifier: a formal list without formals is told from none
at all. -/
def nFormals : Option Nat → Int
  | none => 0
  | some 0 => -1
  | some (k + 1) => k + 1

/-- A directive as it is read: the number of formals is that of its formal list. -/
inductive Directive where
  | define (ident : Text) (formals : Option Nat) (text : Text)
  | undef (ident : Text)
deriving DecidableEq

def Directive.ident : Directive → Text
  | define ident _ _ => ident
  | undef ident => ident

/-- A directive of the source changes the table. -/
def Directive.run : Directive → Table → Table
  | define ident formals text => definstall ident (definition text) (nFormals formals)
  | undef ident => undefine ident

end SdkTools.Rc
