import SdkTools.M4.MacroStacks

/-!
# Chains of macros

Looking a macro up, making one, and unlinking one; the other macros keep their values.
-/

namespace SdkTools.M4.MacroTable

open Lib

set_option autoImplicit false

variable {h h' : Heap} {es l r : List Entry} {e e' : Entry} {v : Value} {vs : List Value}
  {p : Nat} {ptok : Text} {hash : BitVec 32}

theorem fEqPtokPtok_iff (ptok1 ptok2 : Text) : fEqPtokPtok ptok1 ptok2 = true ↔ ptok1 = ptok2 := by
  unfold fEqPtokPtok
  rw [Bool.and_eq_true, decide_eq_true_iff, decide_eq_true_iff]
  constructor
  · intro h
    rw [h.1, List.take_length] at h
    exact h.2
  · rintro rfl
    exact ⟨rfl, List.take_length.symm⟩

/-! ### The table as a whole -/

theorem pmac_sublist (es : List Entry) :
    (es.map Entry.pmac).Sublist (es.flatMap Entry.blocks) := by
  induction es with
  | nil => exact List.Sublist.refl _
  | cons e es ih =>
    rw [List.map_cons, List.flatMap_cons, Entry.blocks, List.cons_append]
    exact (ih.trans (List.sublist_append_right _ _)).cons_cons _

theorem Holds.pmac_nodup (hh : Holds h es) : (es.map Entry.pmac).Nodup :=
  (List.nodup_append.mp hh.ledger.nodup).1.sublist (pmac_sublist es)

theorem Holds.length_le (hh : Holds h es) : es.length ≤ h.allocated := by
  have hle := (pmac_sublist es).length_le
  rw [List.length_map] at hle
  exact Nat.le_trans hle hh.ledger.length_le

theorem Holds.block_mem (he : e ∈ es) (hp : p ∈ e.blocks) : p ∈ es.flatMap Entry.blocks :=
  List.mem_flatMap.mpr ⟨e, he, hp⟩

theorem Holds.pmac_eq (hh : Holds h es) (he : e ∈ es) : h.pmac e.pmac = .ok (h.mac e.pmac) :=
  if_pos (hh.ledger.live (Holds.block_mem he e.pmac_mem))

theorem Holds.ptch_name (hh : Holds h es) (he : e ∈ es) : h.ptch e.tokName = .ok e.name :=
  ptch_eq hh.ledger (hh.held e he).name fun _ hp => Holds.block_mem he (Entry.tokName_mem _ hp)

theorem mem_chainOf : p ∈ chainOf es hash ↔ ∃ e ∈ es, hashPtok e.name = hash ∧ e.pmac = p := by
  unfold chainOf
  simp only [List.mem_map, List.mem_filter, decide_eq_true_eq, and_assoc]

theorem chainOf_sublist (es : List Entry) (hash : BitVec 32) :
    (chainOf es hash).Sublist (es.map Entry.pmac) :=
  List.filter_sublist.map _

/-- The entry in the middle is replaced by one of the same name in the same node. -/
theorem chainOf_replace (hpmac : e'.pmac = e.pmac) (hname : e'.name = e.name) (hash : BitVec 32) :
    chainOf (l ++ e' :: r) hash = chainOf (l ++ e :: r) hash := by
  unfold chainOf
  rw [List.filter_append, List.filter_append, List.filter_cons, List.filter_cons, hname]
  split
  · simp [hpmac]
  · rfl

theorem flatMap_blocks_perm :
    ((l ++ e :: r).flatMap Entry.blocks).Perm (e.blocks ++ (l ++ r).flatMap Entry.blocks) := by
  rw [List.flatMap_append, List.flatMap_cons, List.flatMap_append]
  exact List.perm_append_comm_assoc _ _ _

/-- A change of the values of one entry. -/
theorem Holds.replace (hh : Holds h (l ++ e :: r)) (hpmac : e'.pmac = e.pmac)
    (hname : e'.name = e.name) (he' : e'.Held h')
    (hledger : Ledger h' (e'.blocks ++ (l ++ r).flatMap Entry.blocks))
    (hhash : h'.mphashpmac = h.mphashpmac)
    (hnext : ∀ p, (h'.mac p).pmacNext = (h.mac p).pmacNext)
    (hsame : SameOn ((l ++ r).flatMap Entry.blocks) h h') : Holds h' (l ++ e' :: r) := by
  refine ⟨?_, ?_, ?_, hledger.perm flatMap_blocks_perm.symm⟩
  · intro hash
    rw [chainOf_replace hpmac hname, hhash]
    exact (hh.chain hash).congr fun p _ => hnext p
  · intro a ha
    rw [List.mem_append, List.mem_cons] at ha
    by_cases hae : a = e'
    · rw [hae]
      exact he'
    · have hmem : a ∈ l ++ r := by
        rw [List.mem_append]
        tauto
      have hmem' : a ∈ l ++ e :: r := by
        rw [List.mem_append, List.mem_cons]
        tauto
      exact (hh.held a hmem').same (hsame.mono fun p hp => Holds.block_mem hmem hp)
  · have hnames := hh.distinct
    rw [List.map_append, List.map_cons] at hnames ⊢
    rw [hname]
    exact hnames

/-! ### Looking up -/

theorem findLoop_spec (ptok : Text) {fuel : Nat} {q : Option Nat} (hheld : ∀ e ∈ es, e.Held h)
    (hpmac : ∀ e ∈ es, h.pmac e.pmac = .ok (h.mac e.pmac))
    (hname : ∀ e ∈ es, h.ptch e.tokName = .ok e.name)
    (hlist : IsList (fun p => (h.mac p).pmacNext) q (es.map Entry.pmac))
    (hfuel : es.length < fuel) :
    h.findLoop ptok fuel q =
      .ok ((es.find? fun e => decide (e.name = ptok)).map Entry.pmac) := by
  induction es generalizing fuel q with
  | nil =>
    obtain ⟨fuel, rfl⟩ := Nat.exists_eq_succ_of_ne_zero (Nat.ne_of_gt hfuel)
    obtain rfl : q = none := hlist
    rfl
  | cons e es ih =>
    obtain ⟨fuel, rfl⟩ := Nat.exists_eq_succ_of_ne_zero (Nat.ne_of_gt (Nat.zero_lt_of_lt hfuel))
    obtain ⟨rfl, hrest⟩ := hlist
    have he := hheld e List.mem_cons_self
    rw [Heap.findLoop, hpmac e List.mem_cons_self]
    simp only [bind, Except.bind, he.tokName, hname e List.mem_cons_self]
    by_cases heq : e.name = ptok
    · rw [if_pos ((fEqPtokPtok_iff _ _).mpr heq),
        List.find?_cons_of_pos (by simp [heq])]
      rfl
    · rw [if_neg (mt (fEqPtokPtok_iff _ _).mp heq), List.find?_cons_of_neg (by simp [heq])]
      exact ih (fun a ha => hheld a (List.mem_cons_of_mem e ha))
        (fun a ha => hpmac a (List.mem_cons_of_mem e ha))
        (fun a ha => hname a (List.mem_cons_of_mem e ha)) hrest (Nat.lt_of_succ_lt_succ hfuel)

theorem pmacFindPtok_spec (hh : Holds h es) (ptok : Text) :
    h.pmacFindPtok ptok = .ok ((es.find? fun e => decide (e.name = ptok)).map Entry.pmac) := by
  have hmem {a : Entry} (ha : a ∈ es.filter fun e => decide (hashPtok e.name = hashPtok ptok)) :
      a ∈ es := List.mem_of_mem_filter ha
  have hfind := findLoop_spec ptok
    (fun a ha => hh.held a (hmem ha)) (fun a ha => hh.pmac_eq (hmem ha))
    (fun a ha => hh.ptch_name (hmem ha)) (hh.chain (hashPtok ptok))
    (Nat.lt_succ_of_le (Nat.le_trans (List.length_filter_le _ _) hh.length_le))
  unfold Heap.pmacFindPtok
  rw [hfind, List.find?_filter]
  congr 3
  funext a
  by_cases ha : a.name = ptok
  · simp [ha]
  · simp [ha]

/-- The two cases of a lookup. -/
theorem find_cases (hh : Holds h es) (ptok : Text) :
    (∃ l e r, es = l ++ e :: r ∧ e.name = ptok ∧ h.pmacFindPtok ptok = .ok (some e.pmac)) ∨
    (∀ e ∈ es, e.name ≠ ptok) ∧ h.pmacFindPtok ptok = .ok none := by
  rw [pmacFindPtok_spec hh]
  cases hfind : es.find? fun e => decide (e.name = ptok) with
  | none =>
    refine Or.inr ⟨fun e he => ?_, rfl⟩
    simpa using List.find?_eq_none.mp hfind e he
  | some e =>
    obtain ⟨hname, l, r, hsplit, -⟩ := List.find?_eq_some_iff_append.mp hfind
    exact Or.inl ⟨l, e, r, hsplit, by simpa using hname, rfl⟩

/-! ### A new macro -/

theorem pmacGetPtok_spec (hh : Holds h es) (ptok : Text) :
    (∃ l e r, es = l ++ e :: r ∧ e.name = ptok ∧ h.pmacGetPtok ptok = .ok (e.pmac, h)) ∨
    (∀ e ∈ es, e.name ≠ ptok) ∧ ∃ e h', h.pmacGetPtok ptok = .ok (e.pmac, h') ∧ e.name = ptok ∧
      e.values = [] ∧ Holds h' (e :: es) := by
  rcases find_cases hh ptok with ⟨l, e, r, hes, hname, hfind⟩ | ⟨hnew, hfind⟩
  · refine Or.inl ⟨l, e, r, hes, hname, ?_⟩
    unfold Heap.pmacGetPtok
    rw [hfind]
    rfl
  · have hl₁ : Ledger { h with allocated := h.allocated + 1 }
        (h.allocated :: es.flatMap Entry.blocks) := hh.ledger.alloc rfl rfl
    obtain ⟨tok, h₁, hdup, hl₂, htext, hsame, hhash₁, hmac₁, hval₁⟩ := dupPtokPtok_spec hl₁ ptok
    have hlt (q : Nat) (hq : q ∈ es.flatMap Entry.blocks) : q ≠ h.allocated :=
      Nat.ne_of_lt (hh.ledger.lt hq)
    generalize hh' : { h₁.setMac h.allocated ⟨h.mphashpmac (hashPtok ptok), tok, none⟩ with
      mphashpmac := Function.update h.mphashpmac (hashPtok ptok) (some h.allocated) } = h'
    have hmac' : h'.mac = Function.update h.mac h.allocated
        ⟨h.mphashpmac (hashPtok ptok), tok, none⟩ := by
      rw [← hh']
      unfold Heap.setMac
      dsimp only
      rw [hmac₁]
    have hsame' : SameOn (es.flatMap Entry.blocks) h h' := by
      intro q hq
      rw [hmac', Function.update_of_ne (hlt q hq), ← hh']
      exact ⟨rfl, congrFun hval₁ q, (hsame q (List.mem_cons_of_mem _ hq)).2.2⟩
    refine Or.inr ⟨hnew, ⟨h.allocated, tok, ptok, []⟩, h', ?_, rfl, rfl, ?_, ?_, ?_, ?_⟩
    · unfold Heap.pmacGetPtok
      rw [hfind]
      have hhash : h₁.mphashpmac = h.mphashpmac := hhash₁
      simp only [bind, Except.bind, hdup, Heap.setMac, hhash]
      rw [← hh', Heap.setMac]
    · intro hash
      have hold : IsList (fun p => (h'.mac p).pmacNext) (h.mphashpmac hash) (chainOf es hash) := by
        apply (hh.chain hash).congr
        intro q hq
        rw [hmac', Function.update_of_ne]
        apply hlt
        exact ((chainOf_sublist es hash).trans (pmac_sublist es)).subset hq
      by_cases hb : hashPtok ptok = hash
      · have hchain : chainOf (⟨h.allocated, tok, ptok, []⟩ :: es) hash =
            h.allocated :: chainOf es hash := by
          unfold chainOf
          rw [List.filter_cons_of_pos (by simp [hb])]
          rfl
        have hhead : h'.mphashpmac hash = some h.allocated := by
          rw [← hh', ← hb]
          exact Function.update_self ..
        rw [hchain, hhead]
        apply hold.push
        rw [hmac', Function.update_self, hb]
      · have hchain : chainOf (⟨h.allocated, tok, ptok, []⟩ :: es) hash = chainOf es hash := by
          unfold chainOf
          rw [List.filter_cons_of_neg (by simp [hb])]
        have hhead : h'.mphashpmac hash = h.mphashpmac hash := by
          rw [← hh']
          exact Function.update_of_ne (Ne.symm hb) _ _
        rw [hchain, hhead]
        exact hold
    · intro a ha
      rcases List.mem_cons.mp ha with rfl | ha
      · refine ⟨?_, ?_, ?_, fun w hw => absurd hw List.not_mem_nil⟩
        · rw [hmac', Function.update_self]
        · rw [← hh']
          cases tok with
          | none => exact htext
          | some q => exact htext
        · rw [hmac', Function.update_self]
          rfl
      · exact (hh.held a ha).same (hsame'.mono fun q hq => Holds.block_mem ha hq)
    · rw [List.map_cons, List.nodup_cons]
      refine ⟨?_, hh.distinct⟩
      intro hmem
      obtain ⟨a, ha, hname⟩ := List.mem_map.mp hmem
      exact hnew a ha hname
    · have hledger : Ledger h' (tok.toList ++ h.allocated :: es.flatMap Entry.blocks) := by
        rw [← hh']
        exact hl₂
      apply hledger.perm
      rw [List.flatMap_cons, Entry.blocks, List.flatMap_nil, List.append_nil]
      exact List.perm_middle

/-! ### Values of a macro in the table -/

theorem Holds.ledger_split (hh : Holds h (l ++ e :: r)) :
    Ledger h (e.blocks ++ (l ++ r).flatMap Entry.blocks) := hh.ledger.perm flatMap_blocks_perm

theorem mem_split : e ∈ l ++ e :: r := List.mem_append_right l List.mem_cons_self

theorem Holds.popdef (hh : Holds h (l ++ e :: r)) (hvalues : e.values = v :: vs) :
    ∃ h', h.popdefPmac e.pmac = .ok h' ∧ Holds h' (l ++ { e with values := vs } :: r) := by
  obtain ⟨h', hrun, hheld, hledger, -, hhash, hnext, hsame⟩ :=
    popdefPmac_spec (hh.held e mem_split) hvalues hh.ledger_split
  exact ⟨h', hrun, hh.replace rfl rfl hheld hledger hhash hnext hsame⟩

theorem Holds.pushdef (hh : Holds h (l ++ e :: r)) (ptok : Text) :
    ∃ v h', h.pushdefPmacPtok e.pmac ptok = .ok h' ∧ v.text = ptok ∧ v.fTrace = false ∧
      Holds h' (l ++ { e with values := v :: e.values } :: r) := by
  obtain ⟨v, h', hrun, htext, htrace, hheld, hledger, hhash, hnext, hsame⟩ :=
    pushdefPmacPtok_spec (hh.held e mem_split) hh.ledger_split ptok
  exact ⟨v, h', hrun, htext, htrace, hh.replace rfl rfl hheld hledger hhash hnext hsame⟩

/-- The trace of the topmost value is set. -/
theorem Holds.trace (hh : Holds h (l ++ e :: r)) (hvalues : e.values = v :: vs) (dw : Bool) :
    Holds (h.setVal v.pval { h.val v.pval with fTrace := dw })
      (l ++ { e with values := { v with fTrace := dw } :: vs } :: r) := by
  have he := hh.held e mem_split
  have hl := hh.ledger_split
  have hv := he.values v (by rw [hvalues]; exact List.mem_cons_self)
  have hperm : (e.blocks ++ (l ++ r).flatMap Entry.blocks).Perm
      (v.pval :: (v.tok.toList ++ vs.flatMap Value.blocks ++ (e.pmac :: e.tokName.toList) ++
        (l ++ r).flatMap Entry.blocks)) := by
    unfold Entry.blocks
    rw [hvalues]
    simp only [List.flatMap_cons, Value.blocks, List.cons_append, List.append_assoc]
    rw [List.perm_iff_count]
    intro a
    simp only [List.count_append, List.count_cons]
    omega
  obtain ⟨hnotmem, -⟩ := List.nodup_cons.mp (List.nodup_append.mp (hl.perm hperm).nodup).1
  have hsame {q : Nat} (hq : q ∈ v.tok.toList ++ vs.flatMap Value.blocks ++
      (e.pmac :: e.tokName.toList) ++ (l ++ r).flatMap Entry.blocks) :
      (h.setVal v.pval { h.val v.pval with fTrace := dw }).mac q = h.mac q ∧
      (h.setVal v.pval { h.val v.pval with fTrace := dw }).val q = h.val q ∧
      (h.setVal v.pval { h.val v.pval with fTrace := dw }).text q = h.text q := by
    refine ⟨rfl, ?_, rfl⟩
    apply Function.update_of_ne
    rintro rfl
    exact hnotmem hq
  have hprev (q : Nat) : ((h.setVal v.pval { h.val v.pval with fTrace := dw }).val q).pvalPrev =
      (h.val q).pvalPrev := by
    rw [Heap.setVal]
    dsimp only
    by_cases hq : q = v.pval
    · rw [hq, Function.update_self]
    · rw [Function.update_of_ne hq]
  refine hh.replace rfl rfl ⟨he.tokName, ?_, ?_, ?_⟩ ?_ rfl (fun p => rfl) ?_
  · exact he.name.congr (fun q hq => hsame (List.mem_append_left _ (List.mem_append_right _
      (List.mem_cons_of_mem _ hq)))) (fun _ hq => hq)
  · have hstack := he.stack
    rw [hvalues] at hstack
    exact hstack.congr fun q _ => hprev q
  · intro w hw
    rcases List.mem_cons.mp hw with rfl | hw
    · refine ⟨?_, ?_, ?_⟩
      · rw [Heap.setVal]
        dsimp only
        rw [Function.update_self]
        exact hv.tok
      · rw [Heap.setVal]
        dsimp only
        rw [Function.update_self]
      · exact hv.text.congr (fun q hq => hsame (List.mem_append_left _ (List.mem_append_left _
          (List.mem_append_left _ hq)))) (fun _ hq => hq)
    · apply (he.values w (by rw [hvalues]; exact List.mem_cons_of_mem v hw)).congr
      intro q hq
      exact hsame (List.mem_append_left _ (List.mem_append_left _ (List.mem_append_right _
        (List.mem_flatMap.mpr ⟨w, hw, hq⟩))))
  · have hblocks : Entry.blocks { e with values := { v with fTrace := dw } :: vs } = e.blocks := by
      unfold Entry.blocks
      rw [hvalues]
      rfl
    rw [hblocks]
    exact hl
  · exact fun q hq => hsame (List.mem_append_right _ hq)

/-! ### Unlinking -/

theorem dadLoop_spec {as bs : List Nat} {fuel : Nat} {pmacDad q : Option Nat}
    (hlive : ∀ a ∈ as, h.pmac a = .ok (h.mac a)) (hp : p ∉ as)
    (hdad : h.next hash pmacDad = .ok q)
    (hlist : IsList (fun p => (h.mac p).pmacNext) q (as ++ p :: bs)) (hfuel : as.length < fuel) :
    h.dadLoop hash p fuel pmacDad = .ok (as.getLast?.or pmacDad) := by
  induction as generalizing fuel pmacDad q with
  | nil =>
    obtain ⟨fuel, rfl⟩ := Nat.exists_eq_succ_of_ne_zero (Nat.ne_of_gt hfuel)
    obtain rfl : q = some p := hlist.1
    rw [Heap.dadLoop, hdad]
    simp only [bind, Except.bind, if_true]
    rfl
  | cons a as ih =>
    obtain ⟨fuel, rfl⟩ := Nat.exists_eq_succ_of_ne_zero (Nat.ne_of_gt (Nat.zero_lt_of_lt hfuel))
    obtain ⟨rfl, hrest⟩ := hlist
    have hne : a ≠ p := fun heq => hp (by simp [heq])
    rw [Heap.dadLoop, hdad]
    simp only [bind, Except.bind]
    rw [if_neg hne, ih (fun b hb => hlive b (List.mem_cons_of_mem a hb))
      (fun hmem => hp (List.mem_cons_of_mem a hmem)) ?_ hrest (Nat.lt_of_succ_lt_succ hfuel)]
    · rw [List.getLast?_cons]
      cases as.getLast? <;> rfl
    · rw [Heap.next, hlive a List.mem_cons_self]
      rfl

/-- The chains without the macro. -/
theorem setNext_chain (hh : Holds h (l ++ e :: r)) (hash : BitVec 32) :
    IsList (fun p => ((h.setNext (hashPtok e.name) (h.mac e.pmac).pmacNext
        (chainOf l (hashPtok e.name)).getLast?).mac p).pmacNext)
      ((h.setNext (hashPtok e.name) (h.mac e.pmac).pmacNext
        (chainOf l (hashPtok e.name)).getLast?).mphashpmac hash) (chainOf (l ++ r) hash) := by
  have hchain := hh.chain hash
  have hnodup := hh.pmac_nodup.sublist (chainOf_sublist _ hash)
  have happ : chainOf (l ++ r) hash = chainOf l hash ++ chainOf r hash := by
    unfold chainOf
    rw [List.filter_append, List.map_append]
  by_cases hb : hashPtok e.name = hash
  · have hsplit : chainOf (l ++ e :: r) hash = chainOf l hash ++ e.pmac :: chainOf r hash := by
      unfold chainOf
      rw [List.filter_append, List.filter_cons_of_pos (by simp [hb]), List.map_append,
        List.map_cons]
    rw [hsplit] at hchain hnodup
    rw [hb, happ]
    rcases List.eq_nil_or_concat (chainOf l hash) with hnil | ⟨before, d, hlast⟩
    · rw [hnil] at hchain ⊢
      rw [List.getLast?_nil, Heap.setNext]
      dsimp only
      rw [Function.update_self]
      exact hchain.2
    · rw [List.concat_eq_append] at hlast
      rw [hlast] at hchain hnodup ⊢
      rw [List.append_assoc, List.singleton_append] at hchain hnodup ⊢
      rw [List.getLast?_append, List.getLast?_singleton, Option.some_or, Heap.setNext,
        Heap.setMac]
      dsimp only
      have hunlink := hchain.unlink hnodup
      apply hunlink.congr
      intro q _
      by_cases hq : q = d
      · rw [hq, Function.update_self, Function.update_self]
      · rw [Function.update_of_ne hq, Function.update_of_ne hq]
  · have hsplit : chainOf (l ++ e :: r) hash = chainOf (l ++ r) hash := by
      unfold chainOf
      rw [List.filter_append, List.filter_cons_of_neg (by simp [hb]), List.filter_append]
    rw [hsplit] at hchain
    cases hlast : (chainOf l (hashPtok e.name)).getLast? with
    | none =>
      rw [Heap.setNext]
      dsimp only
      rw [Function.update_of_ne (Ne.symm hb)]
      exact hchain
    | some d =>
      rw [Heap.setNext, Heap.setMac]
      dsimp only
      apply hchain.congr
      intro q hq
      rw [Function.update_of_ne]
      rintro rfl
      -- a macro has one name only
      obtain ⟨a, ha, hahash, hapmac⟩ := mem_chainOf.mp (List.mem_of_getLast? hlast)
      obtain ⟨b, hbmem, hbhash, hbpmac⟩ := mem_chainOf.mp hq
      have ha' : a ∈ l ++ e :: r := List.mem_append_left _ ha
      have hb' : b ∈ l ++ e :: r := by
        rw [List.mem_append] at hbmem
        rw [List.mem_append, List.mem_cons]
        tauto
      have hab := List.inj_on_of_nodup_map hh.pmac_nodup ha' hb' (hapmac.trans hbpmac.symm)
      rw [hab, hbhash] at hahash
      exact hb hahash.symm

theorem setNext_fields (h : Heap) (hash : BitVec 32) (pmacNext pmacDad : Option Nat) :
    (h.setNext hash pmacNext pmacDad).val = h.val ∧
    (h.setNext hash pmacNext pmacDad).text = h.text ∧
    (h.setNext hash pmacNext pmacDad).allocated = h.allocated ∧
    (h.setNext hash pmacNext pmacDad).freed = h.freed ∧
    ∀ p, ((h.setNext hash pmacNext pmacDad).mac p).tokName = (h.mac p).tokName ∧
      ((h.setNext hash pmacNext pmacDad).mac p).pval = (h.mac p).pval := by
  cases pmacDad with
  | none => exact ⟨rfl, rfl, rfl, rfl, fun p => ⟨rfl, rfl⟩⟩
  | some d =>
    refine ⟨rfl, rfl, rfl, rfl, fun p => ?_⟩
    rw [Heap.setNext, Heap.setMac]
    dsimp only
    by_cases hp : p = d
    · rw [hp, Function.update_self]
      exact ⟨rfl, rfl⟩
    · rw [Function.update_of_ne hp]
      exact ⟨rfl, rfl⟩

theorem freeValues_spec {blocks : List Nat} {fuel : Nat} (he : e.Held h)
    (hl : Ledger h (e.blocks ++ blocks)) (hfuel : e.values.length < fuel) :
    ∃ h', Heap.freeValues e.pmac fuel h = .ok h' ∧
      Ledger h' (Entry.blocks { e with values := [] } ++ blocks) ∧
      h'.mphashpmac = h.mphashpmac ∧ (∀ p, (h'.mac p).pmacNext = (h.mac p).pmacNext) ∧
      SameOn blocks h h' := by
  generalize hvs : e.values = vs at hfuel
  induction vs generalizing e h fuel with
  | nil =>
    obtain ⟨fuel, rfl⟩ := Nat.exists_eq_succ_of_ne_zero (Nat.ne_of_gt hfuel)
    have hstack := he.stack
    rw [hvs] at hstack
    have hpval : (h.mac e.pmac).pval = none := hstack
    refine ⟨h, ?_, ?_, rfl, fun p => rfl, fun p _ => ⟨rfl, rfl, rfl⟩⟩
    · rw [Heap.freeValues, Entry.Held.pmac_eq hl]
      simp only [bind, Except.bind, hpval]
      rfl
    · rw [← hvs]
      exact hl
  | cons v vs ih =>
    obtain ⟨fuel, rfl⟩ := Nat.exists_eq_succ_of_ne_zero (Nat.ne_of_gt (Nat.zero_lt_of_lt hfuel))
    have hstack := he.stack
    rw [hvs] at hstack
    obtain ⟨h₁, hpop, he₁, hl₁, -, hhash₁, hnext₁, hsame₁⟩ := popdefPmac_spec he hvs hl
    obtain ⟨h₂, hrun, hl₂, hhash₂, hnext₂, hsame₂⟩ :=
      ih he₁ hl₁ rfl (Nat.lt_of_succ_lt_succ hfuel)
    refine ⟨h₂, ?_, hl₂, hhash₂.trans hhash₁, fun p => (hnext₂ p).trans (hnext₁ p),
      hsame₁.trans hsame₂⟩
    rw [Heap.freeValues, Entry.Held.pmac_eq hl]
    simp only [bind, Except.bind, hstack.1, Option.isSome_some, if_true, hpop]
    exact hrun

/-- A macro is freed with all its values, and the other ones are as before. -/
theorem Holds.free (hh : Holds h (l ++ e :: r)) :
    ∃ h', h.freePmac e.pmac = .ok h' ∧ Holds h' (l ++ r) := by
  have he := hh.held e mem_split
  have hnodup := hh.pmac_nodup.sublist (chainOf_sublist _ (hashPtok e.name))
  have hchain := hh.chain (hashPtok e.name)
  have hsplit : chainOf (l ++ e :: r) (hashPtok e.name) =
      chainOf l (hashPtok e.name) ++ e.pmac :: chainOf r (hashPtok e.name) := by
    unfold chainOf
    rw [List.filter_append, List.filter_cons_of_pos (by simp), List.map_append, List.map_cons]
  rw [hsplit] at hchain hnodup
  have hdad : h.dadLoop (hashPtok e.name) e.pmac (h.allocated + 1) none =
      .ok ((chainOf l (hashPtok e.name)).getLast?.or none) := by
    refine dadLoop_spec ?_ ?_ rfl hchain ?_
    · intro a ha
      obtain ⟨b, hb, -, rfl⟩ := mem_chainOf.mp ha
      exact hh.pmac_eq (List.mem_append_left _ hb)
    · exact fun hmem => (List.nodup_append.mp hnodup).2.2 _ hmem _ List.mem_cons_self rfl
    · have hle := (chainOf_sublist l (hashPtok e.name)).length_le
      have htotal := hh.length_le
      rw [List.length_map] at hle
      rw [List.length_append] at htotal
      omega
  rw [Option.or_none] at hdad
  have hchains := setNext_chain hh
  generalize hh₁ : h.setNext (hashPtok e.name) (h.mac e.pmac).pmacNext
    (chainOf l (hashPtok e.name)).getLast? = h₁ at hchains
  obtain ⟨hval₁, htext₁, halloc₁, hfreed₁, hmac₁⟩ := setNext_fields h (hashPtok e.name)
    (h.mac e.pmac).pmacNext (chainOf l (hashPtok e.name)).getLast?
  rw [hh₁] at hval₁ htext₁ halloc₁ hfreed₁ hmac₁
  have hheld₁ (a : Entry) (ha : a.Held h) : a.Held h₁ := by
    obtain ⟨htok, hpval⟩ := hmac₁ a.pmac
    refine ⟨htok.trans ha.tokName, ?_, ?_, ?_⟩
    · have hname := ha.name
      cases htokName : a.tokName with
      | none =>
        rw [htokName] at hname
        exact hname
      | some q =>
        rw [htokName] at hname
        exact (congrFun htext₁ q).trans hname
    · rw [hval₁, hpval]
      exact ha.stack
    · intro w hw
      obtain ⟨htok, htrace, htext⟩ := ha.values w hw
      refine ⟨by rw [hval₁]; exact htok, by rw [hval₁]; exact htrace, ?_⟩
      cases hwtok : w.tok with
      | none =>
        rw [hwtok] at htext
        exact htext
      | some q =>
        rw [hwtok] at htext
        exact (congrFun htext₁ q).trans htext
  have hl₁ : Ledger h₁ (e.blocks ++ (l ++ r).flatMap Entry.blocks) := by
    have hl := hh.ledger_split
    unfold Ledger at hl ⊢
    rw [hfreed₁, halloc₁]
    exact hl
  have hfuel : e.values.length < h.allocated + 1 := by
    have hle := hl₁.length_le
    have hblocks : e.values.length ≤ (e.values.flatMap Value.blocks).length := by
      generalize e.values = vs
      induction vs with
      | nil => exact Nat.le_refl 0
      | cons v vs ih =>
        rw [List.flatMap_cons, List.length_append, List.length_cons, Value.blocks, List.length_cons]
        omega
    rw [Entry.blocks] at hle
    simp only [List.length_append, List.length_cons] at hle
    omega
  obtain ⟨h₂, hfree₂, hl₂, hhash₂, hnext₂, hsame₂⟩ := freeValues_spec (hheld₁ e he) hl₁ hfuel
  have hperm : (Entry.blocks { e with values := [] } ++ (l ++ r).flatMap Entry.blocks).Perm
      (e.tokName.toList ++ e.pmac :: (l ++ r).flatMap Entry.blocks) := by
    unfold Entry.blocks
    rw [List.flatMap_nil, List.append_nil]
    exact List.perm_middle.symm
  obtain ⟨h₃, hfree₃, hl₃, hhash₃, hmac₃, hval₃, htext₃, -⟩ := freePtok_spec (hl₂.perm hperm)
  obtain ⟨h₄, hfree₄, hl₄, hhash₄, hmac₄, hval₄, htext₄, -⟩ := freePv_spec hl₃
  refine ⟨h₄, ?_, ?_, ?_, ?_, hl₄⟩
  · unfold Heap.freePmac
    rw [hh.pmac_eq mem_split]
    simp only [bind, Except.bind, he.tokName, hh.ptch_name mem_split, hdad, hh₁, halloc₁, hfree₂,
      hfree₃, hfree₄]
  · intro hash
    rw [hhash₄, hhash₃, hhash₂]
    apply (hchains hash).congr
    intro q _
    rw [hmac₄, hmac₃, hnext₂ q]
  · intro a ha
    have hmem : a ∈ l ++ e :: r := by
      rw [List.mem_append] at ha
      rw [List.mem_append, List.mem_cons]
      tauto
    apply (hheld₁ a (hh.held a hmem)).same
    intro q hq
    rw [hmac₄, hmac₃, hval₄, hval₃, htext₄, htext₃]
    exact hsame₂ q (Holds.block_mem ha hq)
  · exact hh.distinct.sublist (((List.sublist_cons_self e r).append_left l).map _)

end SdkTools.M4.MacroTable
