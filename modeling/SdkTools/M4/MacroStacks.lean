import Mathlib
import SdkTools.Lib.LinkedList
import SdkTools.M4.MacroTable

/-!
# Stacks of values

What the heap of the macro table holds: chains of macros by their hashes, each with the list of its
values, and every block that is in use in one place only. One lemma for each function of `obj.c`.
-/

namespace SdkTools.M4.MacroTable

open Lib

set_option autoImplicit false

/-! ### What the heap holds -/

structure Value where
  pval : Nat
  tok : PTCH
  text : Text
  fTrace : Bool

def Value.blocks (v : Value) : List Nat := v.pval :: v.tok.toList

structure Entry where
  pmac : Nat
  tokName : PTCH
  name : Text
  values : List Value

def Entry.blocks (e : Entry) : List Nat :=
  e.pmac :: (e.tokName.toList ++ e.values.flatMap Value.blocks)

def Entry.stack (e : Entry) : List (Text × Bool) := e.values.map fun v => (v.text, v.fTrace)

def HoldsText (h : Heap) : PTCH → Text → Prop
  | none, text => text = []
  | some p, text => h.text p = text

structure Value.Held (h : Heap) (v : Value) : Prop where
  tok : (h.val v.pval).tok = v.tok
  fTrace : (h.val v.pval).fTrace = v.fTrace
  text : HoldsText h v.tok v.text

structure Entry.Held (h : Heap) (e : Entry) : Prop where
  tokName : (h.mac e.pmac).tokName = e.tokName
  name : HoldsText h e.tokName e.name
  stack : IsList (fun p => (h.val p).pvalPrev) (h.mac e.pmac).pval (e.values.map Value.pval)
  values : ∀ v ∈ e.values, v.Held h

/-- The blocks in use and the freed ones are all blocks, each once. -/
def Ledger (h : Heap) (blocks : List Nat) : Prop :=
  (blocks ++ h.freed).Perm (List.range h.allocated)

/-- The macros of a chain. -/
def chainOf (es : List Entry) (hash : BitVec 32) : List Nat :=
  (es.filter fun e => decide (hashPtok e.name = hash)).map Entry.pmac

structure Holds (h : Heap) (es : List Entry) : Prop where
  chain : ∀ hash, IsList (fun p => (h.mac p).pmacNext) (h.mphashpmac hash) (chainOf es hash)
  held : ∀ e ∈ es, e.Held h
  distinct : (es.map Entry.name).Nodup
  ledger : Ledger h (es.flatMap Entry.blocks)

/-- These blocks are as before. -/
def SameOn (blocks : List Nat) (h h' : Heap) : Prop :=
  ∀ p ∈ blocks, h'.mac p = h.mac p ∧ h'.val p = h.val p ∧ h'.text p = h.text p

variable {h h' h'' : Heap} {es l r : List Entry} {e : Entry} {v : Value} {vs : List Value}
  {blocks more : List Nat} {p : Nat} {ptok : Text} {tok : PTCH}

/-! ### Blocks -/

theorem SameOn.trans (h₁ : SameOn blocks h h') (h₂ : SameOn blocks h' h'') :
    SameOn blocks h h'' := by
  intro p hp
  obtain ⟨hmac, hval, htext⟩ := h₁ p hp
  obtain ⟨hmac', hval', htext'⟩ := h₂ p hp
  exact ⟨hmac'.trans hmac, hval'.trans hval, htext'.trans htext⟩

theorem SameOn.mono (hs : SameOn blocks h h') (hsub : more ⊆ blocks) : SameOn more h h' :=
  fun p hp => hs p (hsub hp)

theorem Ledger.nodup (hl : Ledger h blocks) : (blocks ++ h.freed).Nodup :=
  hl.nodup_iff.mpr List.nodup_range

theorem Ledger.lt (hl : Ledger h blocks) (hp : p ∈ blocks) : p < h.allocated :=
  List.mem_range.mp (hl.subset (List.mem_append_left _ hp))

theorem Ledger.live (hl : Ledger h blocks) (hp : p ∈ blocks) : h.live p = true := by
  unfold Heap.live
  rw [decide_eq_true_iff]
  refine ⟨hl.lt hp, ?_⟩
  exact fun hfreed => (List.nodup_append.mp hl.nodup).2.2 p hp p hfreed rfl

theorem Ledger.perm (hl : Ledger h blocks) (hp : blocks.Perm more) : Ledger h more :=
  (hp.symm.append_right _).trans hl

theorem Ledger.length_le (hl : Ledger h blocks) : blocks.length ≤ h.allocated := by
  have hlength := List.Perm.length_eq hl
  rw [List.length_append, List.length_range] at hlength
  omega

theorem Ledger.alloc (hl : Ledger h blocks) (hfreed : h'.freed = h.freed)
    (hallocated : h'.allocated = h.allocated + 1) : Ledger h' (h.allocated :: blocks) := by
  unfold Ledger
  rw [hfreed, hallocated, List.range_succ, List.cons_append]
  exact (List.Perm.cons _ hl).trans (List.perm_append_singleton _ _).symm

theorem Ledger.free (hl : Ledger h (p :: blocks)) :
    Ledger { h with freed := p :: h.freed } blocks :=
  List.perm_middle.trans hl

/-- A block that is in use can be freed. -/
theorem freePv_spec (hl : Ledger h (p :: blocks)) :
    ∃ h', h.freePv p = .ok h' ∧ Ledger h' blocks ∧ h'.mphashpmac = h.mphashpmac ∧
      h'.mac = h.mac ∧ h'.val = h.val ∧ h'.text = h.text ∧ h'.allocated = h.allocated := by
  refine ⟨_, ?_, hl.free, rfl, rfl, rfl, rfl, rfl⟩
  unfold Heap.freePv
  rw [if_pos (hl.live List.mem_cons_self)]

theorem freePtok_spec (hl : Ledger h (tok.toList ++ blocks)) :
    ∃ h', h.freePtok tok = .ok h' ∧ Ledger h' blocks ∧ h'.mphashpmac = h.mphashpmac ∧
      h'.mac = h.mac ∧ h'.val = h.val ∧ h'.text = h.text ∧ h'.allocated = h.allocated := by
  cases tok with
  | none => exact ⟨h, rfl, hl, rfl, rfl, rfl, rfl, rfl⟩
  | some p => exact freePv_spec hl

theorem ptch_eq (hl : Ledger h blocks) (htext : HoldsText h tok ptok)
    (hmem : ∀ p ∈ tok.toList, p ∈ blocks) : h.ptch tok = .ok ptok := by
  cases tok with
  | none =>
    cases htext
    rfl
  | some p =>
    rw [Heap.ptch, if_pos (hl.live (hmem p (by simp)))]
    exact congrArg Except.ok htext

theorem HoldsText.congr (ht : HoldsText h tok ptok) (hsame : SameOn blocks h h')
    (hmem : ∀ p ∈ tok.toList, p ∈ blocks) : HoldsText h' tok ptok := by
  cases tok with
  | none => exact ht
  | some p => exact (hsame p (hmem p (by simp))).2.2.trans ht

/-- The copy is a new block, if there is anything to copy. -/
theorem dupPtokPtok_spec (hl : Ledger h blocks) (ptok : Text) :
    ∃ tok h', h.dupPtokPtok ptok = (tok, h') ∧ Ledger h' (tok.toList ++ blocks) ∧
      HoldsText h' tok ptok ∧ SameOn blocks h h' ∧ h'.mphashpmac = h.mphashpmac ∧
      h'.mac = h.mac ∧ h'.val = h.val := by
  unfold Heap.dupPtokPtok
  by_cases hnil : ptok = []
  · rw [if_pos hnil]
    exact ⟨none, h, rfl, hl, hnil, fun p _ => ⟨rfl, rfl, rfl⟩, rfl, rfl, rfl⟩
  · rw [if_neg hnil]
    refine ⟨some h.allocated, _, rfl, hl.alloc rfl rfl, Function.update_self .., ?_, rfl, rfl, rfl⟩
    intro p hp
    exact ⟨rfl, rfl, Function.update_of_ne (Nat.ne_of_lt (hl.lt hp)) _ _⟩

/-! ### Entries -/

theorem Value.pval_mem (v : Value) : v.pval ∈ v.blocks := List.mem_cons_self

theorem Entry.pmac_mem (e : Entry) : e.pmac ∈ e.blocks := List.mem_cons_self

theorem Entry.tokName_mem : ∀ p ∈ e.tokName.toList, p ∈ e.blocks :=
  fun _ hp => List.mem_cons_of_mem _ (List.mem_append_left _ hp)

theorem Entry.value_mem (hv : v ∈ e.values) (hp : p ∈ v.blocks) : p ∈ e.blocks :=
  List.mem_cons_of_mem _ (List.mem_append_right _ (List.mem_flatMap.mpr ⟨v, hv, hp⟩))

theorem Value.Held.congr (hv : v.Held h) (hsame : SameOn v.blocks h h') : v.Held h' := by
  obtain ⟨-, hval, -⟩ := hsame v.pval v.pval_mem
  exact ⟨by rw [hval]; exact hv.tok, by rw [hval]; exact hv.fTrace,
    hv.text.congr hsame fun p hp => List.mem_cons_of_mem _ hp⟩

/-- The macro node may be linked elsewhere. -/
theorem Entry.Held.congr (he : e.Held h) (hsame : SameOn e.blocks.tail h h')
    (htokName : (h'.mac e.pmac).tokName = (h.mac e.pmac).tokName)
    (hpval : (h'.mac e.pmac).pval = (h.mac e.pmac).pval) : e.Held h' := by
  refine ⟨htokName.trans he.tokName, he.name.congr hsame fun p hp =>
    List.mem_append_left _ hp, ?_, ?_⟩
  · rw [hpval]
    apply he.stack.congr
    intro p hp
    obtain ⟨v, hv, rfl⟩ := List.mem_map.mp hp
    obtain ⟨-, hval, -⟩ := hsame v.pval
      (List.mem_append_right _ (List.mem_flatMap.mpr ⟨v, hv, v.pval_mem⟩))
    rw [hval]
  · intro v hv
    apply (he.values v hv).congr
    exact hsame.mono fun p hp => List.mem_append_right _ (List.mem_flatMap.mpr ⟨v, hv, hp⟩)

theorem Entry.Held.same (he : e.Held h) (hsame : SameOn e.blocks h h') : e.Held h' := by
  obtain ⟨hmac, -, -⟩ := hsame e.pmac e.pmac_mem
  exact he.congr (hsame.mono fun _ hp => List.mem_of_mem_tail hp) (by rw [hmac]) (by rw [hmac])

theorem Entry.Held.pmac_eq (hl : Ledger h (e.blocks ++ blocks)) :
    h.pmac e.pmac = .ok (h.mac e.pmac) :=
  if_pos (hl.live (List.mem_append_left _ e.pmac_mem))

/-! ### Values -/

/-- A pop frees the blocks of the value, and touches nothing else. -/
theorem popdefPmac_spec (he : e.Held h) (hvalues : e.values = v :: vs)
    (hl : Ledger h (e.blocks ++ blocks)) :
    ∃ h', h.popdefPmac e.pmac = .ok h' ∧ Entry.Held h' { e with values := vs } ∧
      Ledger h' (Entry.blocks { e with values := vs } ++ blocks) ∧
      h'.allocated = h.allocated ∧ h'.mphashpmac = h.mphashpmac ∧
      (∀ p, (h'.mac p).pmacNext = (h.mac p).pmacNext) ∧ SameOn blocks h h' := by
  have hv : v ∈ e.values := by
    rw [hvalues]
    exact List.mem_cons_self
  have hheld := he.values v hv
  have hstack := he.stack
  rw [hvalues, List.map_cons] at hstack
  obtain ⟨htop, hrest⟩ := hstack
  have hperm : (e.blocks ++ blocks).Perm
      (v.tok.toList ++ v.pval :: (Entry.blocks { e with values := vs } ++ blocks)) := by
    unfold Entry.blocks
    rw [hvalues]
    simp only [List.flatMap_cons, Value.blocks, List.cons_append, List.append_assoc]
    rw [List.perm_iff_count]
    intro a
    simp only [List.count_append, List.count_cons]
    omega
  obtain ⟨h₁, hfree₁, hl₁, hhash₁, hmac₁, hval₁, htext₁, halloc₁⟩ := freePtok_spec (hl.perm hperm)
  obtain ⟨h₂, hfree₂, hl₂, hhash₂, hmac₂, hval₂, htext₂, halloc₂⟩ := freePv_spec hl₁
  have hnodup : (e.pmac :: (e.tokName.toList ++ vs.flatMap Value.blocks ++ blocks)).Nodup :=
    (List.nodup_append.mp hl₂.nodup).1
  obtain ⟨hnotmem, -⟩ := List.nodup_cons.mp hnodup
  have hsame (q : Nat) (hq : q ≠ e.pmac) (mac : MAC) :
      (h₂.setMac e.pmac mac).mac q = h.mac q := by
    unfold Heap.setMac
    dsimp only
    rw [Function.update_of_ne hq, hmac₂, hmac₁]
  refine ⟨h₂.setMac e.pmac { h.mac e.pmac with pval := (h.val v.pval).pvalPrev }, ?_, ?_, hl₂,
    halloc₂.trans halloc₁, hhash₂.trans hhash₁, ?_, ?_⟩
  · unfold Heap.popdefPmac
    have hval : h.pval v.pval = .ok (h.val v.pval) :=
      if_pos (hl.live (List.mem_append_left _ (Entry.value_mem hv v.pval_mem)))
    rw [Entry.Held.pmac_eq hl]
    simp only [bind, Except.bind, htop, hval, hheld.tok, hfree₁, hfree₂]
  · refine ⟨?_, ?_, ?_, ?_⟩
    · unfold Heap.setMac
      dsimp only
      rw [Function.update_self]
      exact he.tokName
    · have htokName : SameOn e.tokName.toList h (h₂.setMac e.pmac
          { h.mac e.pmac with pval := (h.val v.pval).pvalPrev }) := by
        intro q hq
        refine ⟨hsame q ?_ _, congrFun (hval₂.trans hval₁) q, congrFun (htext₂.trans htext₁) q⟩
        rintro rfl
        exact hnotmem (by simp [hq])
      exact he.name.congr htokName fun _ hp => hp
    · have hnext : (fun p => (h₂.val p).pvalPrev) = fun p => (h.val p).pvalPrev := by
        rw [hval₂, hval₁]
      unfold Heap.setMac
      dsimp only
      rw [Function.update_self, hnext]
      exact hrest
    · intro w hw
      have hheldw := he.values w (by rw [hvalues]; exact List.mem_cons_of_mem v hw)
      apply hheldw.congr
      intro q hq
      refine ⟨hsame q ?_ _, congrFun (hval₂.trans hval₁) q, congrFun (htext₂.trans htext₁) q⟩
      rintro rfl
      apply hnotmem
      rw [List.mem_append, List.mem_append]
      exact Or.inl (Or.inr (List.mem_flatMap.mpr ⟨w, hw, hq⟩))
  · intro q
    unfold Heap.setMac
    dsimp only
    by_cases hq : q = e.pmac
    · rw [hq, Function.update_self]
    · rw [Function.update_of_ne hq, hmac₂, hmac₁]
  · intro q hq
    refine ⟨hsame q ?_ _, congrFun (hval₂.trans hval₁) q, congrFun (htext₂.trans htext₁) q⟩
    rintro rfl
    exact hnotmem (List.mem_append_right _ hq)

/-- A push takes two new blocks, or one, and touches nothing else. -/
theorem pushdefPmacPtok_spec (he : e.Held h) (hl : Ledger h (e.blocks ++ blocks)) (ptok : Text) :
    ∃ v h', h.pushdefPmacPtok e.pmac ptok = .ok h' ∧ v.text = ptok ∧ v.fTrace = false ∧
      Entry.Held h' { e with values := v :: e.values } ∧
      Ledger h' (Entry.blocks { e with values := v :: e.values } ++ blocks) ∧
      h'.mphashpmac = h.mphashpmac ∧ (∀ p, (h'.mac p).pmacNext = (h.mac p).pmacNext) ∧
      SameOn blocks h h' := by
  have hl₁ : Ledger { h with allocated := h.allocated + 1 } (h.allocated :: (e.blocks ++ blocks)) :=
    hl.alloc rfl rfl
  obtain ⟨tok, h₁, hdup, hl₂, htext, hsame₁, hhash₁, hmac₁, hval₁⟩ := dupPtokPtok_spec hl₁ ptok
  have hne (q : Nat) (hq : q ∈ e.blocks ++ blocks) : q ≠ h.allocated := Nat.ne_of_lt (hl.lt hq)
  have hsame : SameOn (e.blocks ++ blocks) h h₁ :=
    fun q hq => hsame₁ q (List.mem_cons_of_mem _ hq)
  have hnodup : (e.pmac :: (e.tokName.toList ++ e.values.flatMap Value.blocks ++ blocks)).Nodup :=
    (List.nodup_append.mp hl.nodup).1
  obtain ⟨hnotmem, -⟩ := List.nodup_cons.mp hnodup
  generalize hh' : (h₁.setVal h.allocated ⟨tok, false, (h.mac e.pmac).pval⟩).setMac e.pmac
    { h.mac e.pmac with pval := some h.allocated } = h'
  have hmac' : h'.mac = Function.update h.mac e.pmac
      { h.mac e.pmac with pval := some h.allocated } := by
    rw [← hh']
    unfold Heap.setMac Heap.setVal
    dsimp only
    rw [hmac₁]
  have hval' : h'.val = Function.update h.val h.allocated
      ⟨tok, false, (h.mac e.pmac).pval⟩ := by
    rw [← hh']
    unfold Heap.setMac Heap.setVal
    dsimp only
    rw [hval₁]
  have htext' : h'.text = h₁.text := by
    rw [← hh']
    rfl
  have hkept (q : Nat) (hq : q ∈ e.blocks ++ blocks) (hqe : q ≠ e.pmac) :
      h'.mac q = h.mac q ∧ h'.val q = h.val q ∧ h'.text q = h.text q := by
    rw [hmac', hval', htext', Function.update_of_ne hqe, Function.update_of_ne (hne q hq)]
    exact ⟨rfl, rfl, (hsame q hq).2.2⟩
  refine ⟨⟨h.allocated, tok, ptok, false⟩, h', ?_, rfl, rfl, ?_, ?_, ?_, ?_, ?_⟩
  · unfold Heap.pushdefPmacPtok
    rw [Entry.Held.pmac_eq hl]
    simp only [bind, Except.bind, hdup]
    rw [hh']
  · have htail : SameOn e.blocks.tail h h' := by
      intro q hq
      apply hkept q (List.mem_append_left _ (List.mem_of_mem_tail hq))
      rintro rfl
      exact hnotmem (List.mem_append_left _ hq)
    refine ⟨?_, ?_, ?_, ?_⟩
    · rw [hmac', Function.update_self]
      exact he.tokName
    · exact he.name.congr htail fun p hp => List.mem_append_left _ hp
    · rw [hmac', Function.update_self]
      apply IsList.push
      · apply he.stack.congr
        intro q hq
        obtain ⟨w, hw, rfl⟩ := List.mem_map.mp hq
        rw [hval', Function.update_of_ne]
        exact hne _ (List.mem_append_left _ (Entry.value_mem hw w.pval_mem))
      · rw [hval', Function.update_self]
    · intro w hw
      rcases List.mem_cons.mp hw with rfl | hw
      · refine ⟨?_, ?_, ?_⟩
        · rw [hval', Function.update_self]
        · rw [hval', Function.update_self]
        · cases tok with
          | none => exact htext
          | some q => exact (congrFun htext' q).trans htext
      · apply (he.values w hw).congr
        exact htail.mono fun p hp => List.mem_append_right _ (List.mem_flatMap.mpr ⟨w, hw, hp⟩)
  · have hledger : Ledger h' (tok.toList ++ h.allocated :: (e.blocks ++ blocks)) := by
      rw [← hh']
      exact hl₂
    apply hledger.perm
    unfold Entry.blocks
    simp only [List.flatMap_cons, Value.blocks, List.cons_append, List.append_assoc]
    rw [List.perm_iff_count]
    intro a
    simp only [List.count_append, List.count_cons]
    omega
  · rw [← hh']
    exact hhash₁
  · intro q
    rw [hmac']
    by_cases hq : q = e.pmac
    · rw [hq, Function.update_self]
    · rw [Function.update_of_ne hq]
  · intro q hq
    apply hkept q (List.mem_append_right _ hq)
    rintro rfl
    exact hnotmem (List.mem_append_right _ hq)

end SdkTools.M4.MacroTable
