import SdkTools.Registry.DatablockHeap

/-!
# The records that tile a datablock

A block is described by the list of its records, key records with their contents
and free ones; where a record lies follows from the sizes before it.
-/

namespace SdkTools.Registry

set_option autoImplicit false

theorem dwordAt_congr {m m' : Buffer} {o o' : Nat} (h : ∀ k < 4, m' (o' + k) = m (o + k)) :
    dwordAt m' o' = dwordAt m o := by
  have h0 := h 0 (by omega)
  have h1 := h 1 (by omega)
  have h2 := h 2 (by omega)
  have h3 := h 3 (by omega)
  simp only [Nat.add_zero] at h0
  simp only [dwordAt, wordAt, byteAt, Nat.add_assoc, Nat.reduceAdd]
  rw [h0, h1, h2, h3]

theorem setDword_ne {m : Buffer} {o v i : Nat} (h : i < o ∨ o + 4 ≤ i) :
    setDword m o v i = m i := by
  unfold setDword
  rw [if_neg (by omega), if_neg (by omega), if_neg (by omega), if_neg (by omega)]

theorem dwordAt_setDword {m : Buffer} {o v : Nat} (hv : v < 2 ^ 32) :
    dwordAt (setDword m o v) o = v := by
  have h0 : setDword m o v o = BitVec.ofNat 8 v := if_pos rfl
  have h1 : setDword m o v (o + 1) = BitVec.ofNat 8 (v / 256) := by
    unfold setDword
    rw [if_neg (by omega), if_pos rfl]
  have h2 : setDword m o v (o + 2) = BitVec.ofNat 8 (v / 65536) := by
    unfold setDword
    rw [if_neg (by omega), if_neg (by omega), if_pos rfl]
  have h3 : setDword m o v (o + 3) = BitVec.ofNat 8 (v / 16777216) := by
    unfold setDword
    rw [if_neg (by omega), if_neg (by omega), if_neg (by omega), if_pos rfl]
  simp only [dwordAt, wordAt, byteAt, Nat.add_assoc, Nat.reduceAdd, h0, h1, h2, h3,
    BitVec.toNat_ofNat]
  omega

theorem dwordAt_setDword_ne {m : Buffer} {o o' v : Nat} (h : o' + 4 ≤ o ∨ o + 4 ≤ o') :
    dwordAt (setDword m o v) o' = dwordAt m o' :=
  dwordAt_congr fun k hk => setDword_ne (by omega)

theorem dwordAt_lt (m : Buffer) (o : Nat) : dwordAt m o < 2 ^ 32 := by
  have h0 := (m o).isLt
  have h1 := (m (o + 1)).isLt
  have h2 := (m (o + 2)).isLt
  have h3 := (m (o + 3)).isLt
  simp only [dwordAt, wordAt, byteAt, Nat.add_assoc, Nat.reduceAdd]
  omega

theorem moveMemory_in {m : Buffer} {d s n k : Nat} (h : k < n) :
    moveMemory m d s n (d + k) = m (s + k) := by
  unfold moveMemory
  rw [if_pos (by omega), Nat.add_sub_cancel_left]

theorem moveMemory_out {m : Buffer} {d s n i : Nat} (h : i < d ∨ d + n ≤ i) :
    moveMemory m d s n i = m i := by
  unfold moveMemory
  rw [if_neg (by omega)]

/-- A record: a key record has its datablock address and the bytes behind it,
which begin with its record size. -/
inductive Rec where
  | used (address : Nat) (body : List UCHAR)
  | free (size : Nat)

def Rec.size : Rec → Nat
  | .used _ body => 8 + body.length
  | .free size => size

def Rec.isFree : Rec → Bool
  | .used _ _ => false
  | .free _ => true

def Rec.freeSize : Rec → Nat
  | .used _ _ => 0
  | .free size => size

/-- The record is what the memory at the offset holds. -/
def Holds (m : Buffer) (o : Nat) : Rec → Prop
  | .used address body => dwordAt m o = 8 + body.length ∧ dwordAt m (o + 4) = address ∧
      address ≠ REG_NULL ∧ 4 ≤ body.length ∧ ∀ k (h : k < body.length), m (o + 8 + k) = body[k]
  | .free size => dwordAt m o = size ∧ dwordAt m (o + 4) = REG_NULL ∧ 12 ≤ size

def Tiles (m : Buffer) : Nat → List Rec → Nat → Prop
  | o, [], e => o = e
  | o, r :: l, e => Holds m o r ∧ Tiles m (o + r.size) l e

def total (l : List Rec) : Nat := (l.map Rec.size).sum

@[simp] theorem total_nil : total [] = 0 := rfl

@[simp] theorem total_cons (r : Rec) (l : List Rec) : total (r :: l) = r.size + total l := rfl

@[simp] theorem total_append (a b : List Rec) : total (a ++ b) = total a + total b := by
  simp only [total, List.map_append, List.sum_append]

theorem Holds.size_eq {m : Buffer} {o : Nat} {r : Rec} (h : Holds m o r) :
    dwordAt m o = r.size := by
  cases r with
  | used address body => exact h.1
  | free size => exact h.1

theorem Holds.le_size {m : Buffer} {o : Nat} {r : Rec} (h : Holds m o r) : 12 ≤ r.size := by
  cases r with
  | used address body =>
    have hbody := h.2.2.2.1
    simp only [Rec.size]
    omega
  | free size => exact h.2.2

theorem Holds.hasIndex_eq {m : Buffer} {o : Nat} {r : Rec} (h : Holds m o r) :
    hasIndex m o = !r.isFree := by
  cases r with
  | used address body =>
    simp only [hasIndex, h.2.1, Rec.isFree, Bool.not_false, decide_eq_true_iff]
    exact h.2.2.1
  | free size =>
    simp only [hasIndex, h.2.1, Rec.isFree, Bool.not_true, decide_eq_false_iff_not, ne_eq,
      not_true_eq_false, not_false_eq_true]

/-- A record goes where its bytes go. -/
theorem Holds.move {m m' : Buffer} {o o' : Nat} {r : Rec} (h : Holds m o r)
    (hm : ∀ k < r.size, m' (o' + k) = m (o + k)) : Holds m' o' r := by
  have hsize := h.le_size
  have h0 : dwordAt m' o' = dwordAt m o := dwordAt_congr fun k hk => hm k (by omega)
  have h4 : dwordAt m' (o' + 4) = dwordAt m (o + 4) := by
    apply dwordAt_congr
    intro k hk
    rw [Nat.add_assoc, Nat.add_assoc]
    exact hm (4 + k) (by omega)
  cases r with
  | used address body =>
    obtain ⟨h1, h2, h3, hb, h5⟩ := h
    refine ⟨h0.trans h1, h4.trans h2, h3, hb, fun k hk => ?_⟩
    rw [← h5 k hk, Nat.add_assoc, Nat.add_assoc]
    exact hm (8 + k) (by simp only [Rec.size]; omega)
  | free size => exact ⟨h0.trans h.1, h4.trans h.2.1, h.2.2⟩

theorem tiles_append {m : Buffer} {a b : List Rec} : ∀ {o e : Nat},
    Tiles m o (a ++ b) e ↔ Tiles m o a (o + total a) ∧ Tiles m (o + total a) b e := by
  induction a with
  | nil =>
    intro o e
    simp only [List.nil_append, total_nil, Nat.add_zero, Tiles, true_and]
  | cons r a ih =>
    intro o e
    simp only [List.cons_append, Tiles, total_cons, ih, and_assoc, Nat.add_assoc]

theorem Tiles.end_eq {m : Buffer} {l : List Rec} : ∀ {o e : Nat}, Tiles m o l e → e = o + total l := by
  induction l with
  | nil =>
    intro o e h
    exact h.symm
  | cons r l ih =>
    intro o e h
    rw [ih h.2, total_cons]
    omega

theorem Tiles.move {m m' : Buffer} {l : List Rec} : ∀ {o o' e : Nat}, Tiles m o l e →
    (∀ k < total l, m' (o' + k) = m (o + k)) → Tiles m' o' l (o' + total l) := by
  induction l with
  | nil =>
    intro o o' e _ _
    exact rfl
  | cons r l ih =>
    intro o o' e h hm
    rw [total_cons] at hm
    refine ⟨h.1.move fun k hk => hm k (by omega), ?_⟩
    rw [total_cons, ← Nat.add_assoc]
    apply ih h.2
    intro k hk
    rw [Nat.add_assoc, Nat.add_assoc]
    exact hm (r.size + k) (by omega)

/-- Tiling reads only the bytes of the range. -/
theorem Tiles.congr {m m' : Buffer} {l : List Rec} {o e : Nat} (h : Tiles m o l e)
    (hm : ∀ i, o ≤ i → i < e → m' i = m i) : Tiles m' o l e := by
  have he := h.end_eq
  rw [he]
  exact h.move fun k hk => hm (o + k) (by omega) (by omega)

theorem Tiles.le {m : Buffer} {l : List Rec} {o e : Nat} (h : Tiles m o l e) : o ≤ e := by
  rw [h.end_eq]
  omega

theorem Tiles.length_le {m : Buffer} {l : List Rec} : ∀ {o e : Nat}, Tiles m o l e →
    o + 12 * l.length ≤ e := by
  induction l with
  | nil =>
    intro o e h
    exact Nat.le_of_eq h
  | cons r l ih =>
    intro o e h
    have hsize := h.1.le_size
    have hrest := ih h.2
    rw [List.length_cons]
    omega

/-- The addresses of the key records. -/
def addresses : List Rec → List Nat
  | [] => []
  | .used address _ :: l => address :: addresses l
  | .free _ :: l => addresses l

/-- The key record of an address: its offset and its bytes. -/
def find (address : Nat) : Nat → List Rec → Option (Nat × List UCHAR)
  | _, [] => none
  | o, .used a body :: l =>
    if a = address then some (o, body) else find address (o + (8 + body.length)) l
  | o, .free size :: l => find address (o + size) l

def freeOffsets : Nat → List Rec → List Nat
  | _, [] => []
  | o, .used _ body :: l => freeOffsets (o + (8 + body.length)) l
  | o, .free size :: l => o :: freeOffsets (o + size) l

def freeTotal (l : List Rec) : Nat := (l.map Rec.freeSize).sum

theorem addresses_append (a b : List Rec) : addresses (a ++ b) = addresses a ++ addresses b := by
  induction a with
  | nil => rfl
  | cons r a ih =>
    cases r with
    | used address body => exact congrArg (List.cons address) ih
    | free size => exact ih

theorem freeOffsets_append (a b : List Rec) : ∀ o : Nat,
    freeOffsets o (a ++ b) = freeOffsets o a ++ freeOffsets (o + total a) b := by
  induction a with
  | nil =>
    intro o
    rfl
  | cons r a ih =>
    intro o
    cases r with
    | used address body =>
      simp only [List.cons_append, freeOffsets, ih, total_cons, Rec.size, Nat.add_assoc]
    | free size =>
      simp only [List.cons_append, freeOffsets, ih, total_cons, Rec.size, Nat.add_assoc]

theorem freeTotal_append (a b : List Rec) : freeTotal (a ++ b) = freeTotal a + freeTotal b := by
  simp only [freeTotal, List.map_append, List.sum_append]

theorem find_append (address : Nat) (a b : List Rec) : ∀ o : Nat,
    find address o (a ++ b) = (find address o a).or (find address (o + total a) b) := by
  induction a with
  | nil =>
    intro o
    rfl
  | cons r a ih =>
    intro o
    cases r with
    | used x body =>
      simp only [List.cons_append, find, ih, total_cons, Rec.size, Nat.add_assoc]
      split
      · rfl
      · rfl
    | free size => simp only [List.cons_append, find, ih, total_cons, Rec.size, Nat.add_assoc]

theorem find_none {address : Nat} {l : List Rec} (h : address ∉ addresses l) : ∀ o : Nat,
    find address o l = none := by
  induction l with
  | nil =>
    intro o
    rfl
  | cons r l ih =>
    intro o
    cases r with
    | used x body =>
      have hne : address ≠ x := List.ne_of_not_mem_cons h
      rw [find, if_neg (Ne.symm hne)]
      exact ih (List.not_mem_of_not_mem_cons h) _
    | free size => exact ih h _

theorem find_some {address : Nat} {l : List Rec} {x : Nat} {body : List UCHAR} : ∀ {o : Nat},
    find address o l = some (x, body) →
    ∃ pre post, l = pre ++ .used address body :: post ∧ x = o + total pre := by
  induction l with
  | nil =>
    intro o h
    cases h
  | cons r l ih =>
    intro o h
    cases r with
    | used a body' =>
      rw [find] at h
      split at h
      · rename_i ha
        obtain ⟨rfl, rfl⟩ := Prod.mk.inj (Option.some.inj h)
        exact ⟨[], l, by rw [ha]; rfl, rfl⟩
      · obtain ⟨pre, post, hl, hx⟩ := ih h
        refine ⟨.used a body' :: pre, post, by rw [hl]; rfl, ?_⟩
        rw [hx, total_cons, Rec.size, Nat.add_assoc]
    | free size =>
      obtain ⟨pre, post, hl, hx⟩ := ih h
      refine ⟨.free size :: pre, post, by rw [hl]; rfl, ?_⟩
      rw [hx, total_cons, Rec.size, Nat.add_assoc]

/-- A free record lies in the range, and its header does. -/
theorem Tiles.freeOffset {m : Buffer} {l : List Rec} {x : Nat} : ∀ {o e : Nat}, Tiles m o l e →
    x ∈ freeOffsets o l → o ≤ x ∧ x + 12 ≤ e := by
  induction l with
  | nil =>
    intro o e _ hx
    exact absurd hx List.not_mem_nil
  | cons r l ih =>
    intro o e h hx
    have hsize := h.1.le_size
    have hle := h.2.le
    cases r with
    | used address body =>
      have hrest := ih h.2 hx
      simp only [Rec.size] at hrest hle
      omega
    | free size =>
      rcases List.mem_cons.mp hx with rfl | hx
      · simp only [Rec.size] at hle hsize
        omega
      · have hrest := ih h.2 hx
        simp only [Rec.size] at hrest hle
        omega

/-- The free records from `head` on, by their next offsets. -/
def Chain (m : Buffer) : Nat → List Nat → Prop
  | head, [] => head = REG_NULL
  | head, x :: chain => head = x ∧ x ≠ REG_NULL ∧ Chain m (dwordAt m (x + 8)) chain

theorem Chain.congr {m m' : Buffer} {chain : List Nat}
    (hm : ∀ x ∈ chain, dwordAt m' (x + 8) = dwordAt m (x + 8)) : ∀ {head : Nat},
    Chain m head chain → Chain m' head chain := by
  induction chain with
  | nil =>
    intro head h
    exact h
  | cons x chain ih =>
    intro head h
    refine ⟨h.1, h.2.1, ?_⟩
    rw [hm x List.mem_cons_self]
    exact ih (fun y hy => hm y (List.mem_cons_of_mem x hy)) h.2.2

end SdkTools.Registry
