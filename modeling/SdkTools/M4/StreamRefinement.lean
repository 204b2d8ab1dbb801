import SdkTools.M4.Stream

/-!
# Streams are a sequence of characters

The chain of streams represents the sequence still to be read. Every operation does to the
sequence what it is for, as long as no short read has a magic character: the buffer
`ctchDemagicPstmCtch` makes for such a read is too small for the next one.
-/

namespace SdkTools.M4

open Lib

set_option autoImplicit false

/-! ### Buffers -/

theorem length_ptchAllocCtch (fresh : Nat → TCH) (ctch : Nat) :
    (ptchAllocCtch fresh ctch).length = ctch := by
  rw [ptchAllocCtch, List.length_map, List.length_range]

section CopyAt

variable {buffer src : List TCH} {itch : Nat}

theorem length_copyAt (h : itch + src.length ≤ buffer.length) :
    (copyAt buffer itch src).length = buffer.length := by
  unfold copyAt
  rw [List.length_append, List.length_append, List.length_take, List.length_drop]
  omega

theorem drop_copyAt (h : itch ≤ buffer.length) :
    (copyAt buffer itch src).drop itch = src ++ buffer.drop (itch + src.length) := by
  have hlen : (buffer.take itch).length = itch := List.length_take_of_le h
  unfold copyAt
  rw [List.append_assoc, List.drop_append_of_le_length (Nat.le_of_eq hlen.symm),
    List.drop_eq_nil_of_le (Nat.le_of_eq hlen), List.nil_append]

theorem take_copyAt_zero : (copyAt buffer 0 src).take src.length = src := by
  unfold copyAt
  rw [List.take_zero, List.nil_append, List.take_left]

/-- A copy that reaches the end of the buffer. -/
theorem drop_copyAt_end (h : itch + src.length = buffer.length) :
    (copyAt buffer itch src).drop itch = src := by
  rw [drop_copyAt (by omega), h, List.drop_length, List.append_nil]

end CopyAt

/-! ### Magic characters -/

theorem demagic_append (s t : List TCH) : demagic (s ++ t) = demagic s ++ demagic t := by
  induction s with
  | nil => rfl
  | cons c s ih =>
    rw [List.cons_append, demagic, demagic, ih]
    split <;> rfl

theorem demagic_eq_self {s : List TCH} (h : tchMagic ∉ s) : demagic s = s := by
  induction s with
  | nil => rfl
  | cons c s ih =>
    have hc : c ≠ tchMagic := fun hc => h (hc ▸ List.mem_cons_self)
    have hs : tchMagic ∉ s := fun hs => h (List.mem_cons_of_mem c hs)
    rw [demagic, if_neg hc, ih hs]

theorem length_demagic (s : List TCH) :
    s.length ≤ (demagic s).length ∧ (demagic s).length ≤ 2 * s.length := by
  induction s with
  | nil => exact ⟨Nat.le_refl 0, Nat.le_refl 0⟩
  | cons c s ih =>
    rw [demagic]
    split
    · rw [List.length_cons, List.length_cons, List.length_cons]
      omega
    · rw [List.length_cons, List.length_cons]
      omega

theorem fileText_cons (chunk : Chunk) (hf : HF) :
    fileText (chunk :: hf) = demagic chunk.val ++ fileText hf := by
  rw [fileText, List.flatMap_cons, demagic_append, List.append_assoc, fileText]

/-! ### What a chain holds -/

/-- The unread characters of a stream, of its buffer and then of its file. -/
def Stm.text (pstm : Stm) : List TCH :=
  pstm.buffer.drop pstm.ptchCur ++ (pstm.hf.map fileText).getD []

def chainText (chain : Chain) : List TCH := chain.flatMap Stm.text

/-- No short read of the file has a magic character. -/
def NoShortMagic (hf : HF) : Prop :=
  ∀ chunk ∈ hf, tchMagic ∈ chunk.val → ctchFile ≤ 2 * chunk.val.length

/-- The buffer of an open file takes a read. -/
structure Stm.Sound (pstm : Stm) : Prop where
  cur_le : pstm.ptchCur ≤ pstm.buffer.length
  file : ∀ hf, pstm.hf = some hf → ctchFile ≤ pstm.buffer.length ∧ NoShortMagic hf

def Sound (chain : Chain) : Prop := ∀ pstm ∈ chain, pstm.Sound

theorem sound_cons {pstm : Stm} {rest : Chain} (h : pstm.Sound) (hrest : Sound rest) :
    Sound (pstm :: rest) := List.forall_mem_cons.mpr ⟨h, hrest⟩

/-- The first stream has a character. -/
def Ready (c : TCH) : Chain → Prop
  | [] => False
  | pstm :: _ => pstm.buffer[pstm.ptchCur]? = some c

section

variable (fresh : Nat → TCH)

theorem ready_of_drop {c : TCH} {text : List TCH} {pstm : Stm} {rest : Chain}
    (h : pstm.buffer.drop pstm.ptchCur = c :: text) : Ready c (pstm :: rest) := by
  have hhead := congrArg List.head? h
  rwa [List.head?_drop] at hhead

theorem drop_store (pstm : Stm) (tok : List TCH) (hcur : pstm.ptchCur ≤ pstm.buffer.length)
    (hle : tok.length ≤ pstm.ptchCur) :
    (pstm.store tok).buffer.length = pstm.buffer.length ∧
      (pstm.store tok).buffer.drop (pstm.store tok).ptchCur =
        tok ++ pstm.buffer.drop pstm.ptchCur := by
  constructor
  · exact length_copyAt (by omega)
  · change (copyAt pstm.buffer (pstm.ptchCur - tok.length) tok).drop (pstm.ptchCur - tok.length) = _
    rw [drop_copyAt (by omega), Nat.sub_add_cancel hle]

theorem store_spec {pstm : Stm} {tok : List TCH} (h : pstm.Sound) (hle : tok.length ≤ pstm.ptchCur) :
    (pstm.store tok).Sound ∧ (pstm.store tok).text = tok ++ pstm.text ∧
      (pstm.store tok).buffer.drop (pstm.store tok).ptchCur =
        tok ++ pstm.buffer.drop pstm.ptchCur := by
  have hcur := h.cur_le
  obtain ⟨hlen, hdrop⟩ := drop_store pstm tok hcur hle
  refine ⟨⟨?_, ?_⟩, ?_, hdrop⟩
  · rw [hlen]
    change pstm.ptchCur - tok.length ≤ _
    omega
  · intro hf hhf
    obtain ⟨hroom, hmagic⟩ := h.file hf hhf
    refine ⟨?_, hmagic⟩
    rw [hlen]
    exact hroom
  · rw [Stm.text, hdrop, List.append_assoc]
    rfl

theorem pushPtok_spec (tok : List TCH) {pstm : Stm} {rest : Chain} (h : Sound (pstm :: rest)) :
    ∃ chain, pushPtok fresh tok (pstm :: rest) = .ok chain ∧ chain ≠ [] ∧ Sound chain ∧
      chainText chain = tok ++ chainText (pstm :: rest) ∧
      ∀ c text, tok = c :: text → Ready c chain := by
  obtain ⟨hpstm, hrest⟩ := List.forall_mem_cons.mp h
  rw [pushPtok]
  split
  · have hnew : Stm.Sound ⟨ptchAllocCtch fresh (max tok.length ctchMinPush),
        max tok.length ctchMinPush, none⟩ :=
      ⟨Nat.le_of_eq (length_ptchAllocCtch fresh _).symm, nofun⟩
    obtain ⟨hsound, htext, hdrop⟩ := store_spec hnew (Nat.le_max_left tok.length ctchMinPush)
    refine ⟨_, rfl, List.cons_ne_nil _ _, sound_cons hsound h, ?_, ?_⟩
    · unfold chainText
      rw [List.flatMap_cons, htext, Stm.text]
      dsimp only
      rw [List.drop_eq_nil_of_le (Nat.le_of_eq (length_ptchAllocCtch fresh _)), Option.map_none,
        Option.getD_none, List.append_nil, List.append_nil]
    · rintro c text rfl
      exact ready_of_drop hdrop
  · rename_i hroom
    obtain ⟨hsound, htext, hdrop⟩ := store_spec hpstm (Nat.le_of_not_lt hroom)
    refine ⟨_, rfl, List.cons_ne_nil _ _, sound_cons hsound hrest, ?_, ?_⟩
    · unfold chainText
      rw [List.flatMap_cons, List.flatMap_cons, htext, List.append_assoc]
    · rintro c text rfl
      exact ready_of_drop hdrop

/-- The characters read, slid to the end of the buffer. -/
theorem slide_spec {buffer out : List TCH} {hf : HF} (htake : buffer.take out.length = out)
    (hle : out.length ≤ buffer.length) (hroom : ctchFile ≤ buffer.length)
    (hmagic : NoShortMagic hf) :
    let ptchCur := buffer.length - out.length
    Stm.Sound ⟨copyAt buffer ptchCur (buffer.take out.length), ptchCur, some hf⟩ ∧
      (copyAt buffer ptchCur (buffer.take out.length)).drop ptchCur = out ∧
      Stm.text ⟨copyAt buffer ptchCur (buffer.take out.length), ptchCur, some hf⟩ =
        out ++ fileText hf := by
  dsimp only
  rw [htake]
  have hlen : (copyAt buffer (buffer.length - out.length) out).length = buffer.length :=
    length_copyAt (by omega)
  have hdrop : (copyAt buffer (buffer.length - out.length) out).drop
      (buffer.length - out.length) = out := drop_copyAt_end (by omega)
  refine ⟨⟨?_, ?_⟩, hdrop, by rw [Stm.text, hdrop]; rfl⟩
  · dsimp only
    omega
  · intro hf' hsome
    obtain rfl := Option.some.inj hsome
    exact ⟨Nat.le_trans hroom (Nat.le_of_eq hlen.symm), hmagic⟩

/-- A fill gives characters and leaves the sequence as it is. -/
theorem fFillPstm_spec {pstm : Stm} {hf : HF} {rest : Chain} (h : Sound (pstm :: rest))
    (hend : pstm.ptchCur = pstm.buffer.length) (hhf : pstm.hf = some hf) :
    ∃ chain c, fFillPstm fresh pstm hf rest = .ok chain ∧ Sound chain ∧ Ready c chain ∧
      chainText chain = chainText (pstm :: rest) := by
  obtain ⟨hpstm, hrest⟩ := List.forall_mem_cons.mp h
  obtain ⟨hroom, hmagic⟩ := hpstm.file hf hhf
  have htext : chainText (pstm :: rest) = fileText hf ++ chainText rest := by
    unfold chainText
    rw [List.flatMap_cons, Stm.text, hhf, hend, List.drop_length]
    rfl
  rw [htext]
  cases hf with
  | nil =>
    have hclosed : Stm.Sound ⟨pstm.buffer, pstm.ptchCur, none⟩ := ⟨hpstm.cur_le, nofun⟩
    obtain ⟨chain, hpush, -, hsound, hchain, hready⟩ :=
      pushPtok_spec fresh tokEof (sound_cons hclosed hrest)
    refine ⟨chain, tchMagic, ?_, hsound, hready _ _ rfl, ?_⟩
    · rw [fFillPstm, if_neg (Nat.not_lt.mpr hroom)]
      exact hpush
    · rw [hchain, chainText, List.flatMap_cons, Stm.text]
      dsimp only
      rw [hend, List.drop_length]
      rfl
  | cons chunk hf =>
    obtain ⟨hne, hchunk⟩ := chunk.property
    obtain ⟨hshort, hlater⟩ := List.forall_mem_cons.mp hmagic
    obtain ⟨hlow, hhigh⟩ := length_demagic chunk.val
    have hread : (copyAt pstm.buffer 0 chunk.val).length = pstm.buffer.length :=
      length_copyAt (by omega)
    obtain ⟨c, text, hc⟩ : ∃ c text, demagic chunk.val = c :: text := by
      cases hout : demagic chunk.val with
      | nil =>
        rw [hout, List.length_nil] at hlow
        exact absurd (List.length_eq_zero_iff.mp (Nat.le_zero.mp hlow)) hne
      | cons c text => exact ⟨c, text, rfl⟩
    rw [fFillPstm, if_neg (Nat.not_lt.mpr hroom), fileText_cons]
    dsimp only
    split
    · rename_i hhas
      -- the buffer is reallocated
      have hfit := hshort hhas
      unfold ctchDemagicPstmCtch
      dsimp only
      rw [take_copyAt_zero]
      have hnew : (copyAt (ptchAllocCtch fresh (chunk.val.length * 2)) 0
          (demagic chunk.val)).length = chunk.val.length * 2 := by
        rw [length_copyAt (by rw [length_ptchAllocCtch]; omega), length_ptchAllocCtch]
      have htake : (copyAt (ptchAllocCtch fresh (chunk.val.length * 2)) 0 (demagic chunk.val)).take
          (demagic chunk.val).length = demagic chunk.val := take_copyAt_zero
      obtain ⟨hsound, hdrop, hfile⟩ := slide_spec htake (by omega) (by omega) hlater
      refine ⟨_, c, rfl, sound_cons hsound hrest, ready_of_drop (hdrop.trans hc), ?_⟩
      unfold chainText
      rw [List.flatMap_cons, hfile]
    · rename_i hplain
      have hsame := demagic_eq_self hplain
      have htake : (copyAt pstm.buffer 0 chunk.val).take chunk.val.length = chunk.val :=
        take_copyAt_zero
      obtain ⟨hsound, hdrop, hfile⟩ := slide_spec htake (by omega) (by omega) hlater
      rw [hsame] at hc ⊢
      refine ⟨_, c, rfl, sound_cons hsound hrest, ready_of_drop (hdrop.trans hc), ?_⟩
      unfold chainText
      rw [List.flatMap_cons, hfile]

/-! ### Reading -/

theorem tchPeekLoop_ready {c : TCH} {chain : Chain} (h : Ready c chain) (n : Nat) :
    tchPeekLoop fresh (n + 1) chain = .ok (c, chain) := by
  cases chain with
  | nil => exact h.elim
  | cons pstm rest =>
    obtain ⟨hlt, hc⟩ := List.getElem?_eq_some_iff.mp h
    rw [tchPeekLoop, dif_pos hlt, hc]

/-- The first stream is advanced over its character. -/
theorem chainText_ready {c : TCH} {chain : Chain} (h : Ready c chain) :
    chainText chain = c :: chainText (advance chain) := by
  cases chain with
  | nil => exact h.elim
  | cons pstm rest =>
    obtain ⟨hlt, hc⟩ := List.getElem?_eq_some_iff.mp h
    unfold chainText advance
    rw [List.flatMap_cons, List.flatMap_cons, Stm.text, Stm.text, List.drop_eq_getElem_cons hlt, hc]
    rfl

theorem tchPeekLoop_spec {c : TCH} {text : List TCH} {chain : Chain} {n : Nat} (h : Sound chain)
    (htext : chainText chain = c :: text) (hn : chain.length < n) :
    ∃ chain', tchPeekLoop fresh n chain = .ok (c, chain') ∧ Sound chain' ∧ Ready c chain' ∧
      chainText chain' = c :: text := by
  induction chain generalizing n with
  | nil => exact nomatch htext
  | cons pstm rest ih =>
    obtain ⟨n, rfl⟩ := Nat.exists_eq_succ_of_ne_zero (Nat.ne_of_gt (Nat.zero_lt_of_lt hn))
    obtain ⟨hpstm, hrest⟩ := List.forall_mem_cons.mp h
    rw [List.length_cons] at hn
    cases Nat.lt_or_eq_of_le hpstm.cur_le with
    | inl hlt =>
      have hready : Ready pstm.buffer[pstm.ptchCur] (pstm :: rest) := List.getElem?_eq_getElem hlt
      have hsame := chainText_ready hready
      rw [htext] at hsame
      obtain ⟨hc, -⟩ := List.cons.inj hsame
      rw [← hc] at hready
      exact ⟨pstm :: rest, tchPeekLoop_ready fresh hready n, h, hready, htext⟩
    | inr hend =>
      rw [Nat.succ_eq_add_one, tchPeekLoop, dif_neg (by omega), if_neg (fun hne => hne hend)]
      cases hhf : pstm.hf with
      | none =>
        have hpop : chainText rest = c :: text := by
          rw [← htext, chainText, chainText, List.flatMap_cons, Stm.text, hhf, hend,
            List.drop_length]
          rfl
        exact ih hrest hpop (by omega)
      | some hf =>
        obtain ⟨chain, c', hfill, hsound, hready, hsame⟩ := fFillPstm_spec fresh h hend hhf
        have hhead := chainText_ready hready
        rw [hsame, htext] at hhead
        obtain ⟨rfl, -⟩ := List.cons.inj hhead
        obtain ⟨m, rfl⟩ := Nat.exists_eq_succ_of_ne_zero (show n ≠ 0 by omega)
        refine ⟨chain, ?_, hsound, hready, hsame.trans htext⟩
        dsimp only
        rw [hfill]
        exact tchPeekLoop_ready fresh hready m

/-! ### The refinement -/

/-- The chain represents the sequence; the character just got is the one before the
current one. -/
structure Represents (s : Unread) (chain : Chain) : Prop where
  ne_nil : chain ≠ []
  sound : Sound chain
  text : chainText chain = s.text
  got : ∀ c, s.got = some c → ∃ pstm rest, chain = pstm :: rest ∧ 0 < pstm.ptchCur ∧
    pstm.buffer[pstm.ptchCur - 1]? = some c

theorem tchGet_spec {c : TCH} {text : List TCH} {got : Option TCH} {chain : Chain}
    (h : Represents ⟨c :: text, got⟩ chain) :
    ∃ chain', tchGet fresh chain = .ok (c, chain') ∧ Represents ⟨text, some c⟩ chain' := by
  obtain ⟨chain', hpeek, hsound, hready, htext⟩ :=
    tchPeekLoop_spec fresh h.sound h.text (Nat.lt_succ_self chain.length)
  have hadvance := chainText_ready hready
  rw [htext] at hadvance
  obtain ⟨-, hrest⟩ := List.cons.inj hadvance
  cases chain' with
  | nil => exact hready.elim
  | cons pstm rest =>
    obtain ⟨hlt, -⟩ := List.getElem?_eq_some_iff.mp hready
    obtain ⟨hpstm, hbelow⟩ := List.forall_mem_cons.mp hsound
    have hnext : Stm.Sound ⟨pstm.buffer, pstm.ptchCur + 1, pstm.hf⟩ := ⟨hlt, hpstm.file⟩
    refine ⟨advance (pstm :: rest), ?_, List.cons_ne_nil _ _, sound_cons hnext hbelow,
      hrest.symm, ?_⟩
    · rw [tchGet, tchPeek, hpeek]
      rfl
    rintro c' hc'
    obtain rfl := Option.some.inj hc'
    exact ⟨_, rest, rfl, Nat.zero_lt_succ _, hready⟩

theorem ungetTch_spec {c : TCH} {text : List TCH} {chain : Chain}
    (h : Represents ⟨text, some c⟩ chain) :
    ∃ chain', ungetTch c chain = .ok chain' ∧ Represents ⟨c :: text, none⟩ chain' := by
  obtain ⟨pstm, rest, rfl, hpos, hc⟩ := h.got c rfl
  obtain ⟨hpstm, hbelow⟩ := List.forall_mem_cons.mp h.sound
  have hcur := hpstm.cur_le
  have hready : Ready c (⟨pstm.buffer, pstm.ptchCur - 1, pstm.hf⟩ :: rest) := hc
  have hback : advance (⟨pstm.buffer, pstm.ptchCur - 1, pstm.hf⟩ :: rest) = pstm :: rest := by
    rw [advance]
    dsimp only
    rw [Nat.sub_add_cancel hpos]
  have hprev : Stm.Sound ⟨pstm.buffer, pstm.ptchCur - 1, pstm.hf⟩ := by
    refine ⟨?_, hpstm.file⟩
    dsimp only
    omega
  refine ⟨⟨pstm.buffer, pstm.ptchCur - 1, pstm.hf⟩ :: rest, ?_, List.cons_ne_nil _ _,
    sound_cons hprev hbelow, ?_, nofun⟩
  · rw [ungetTch, if_pos ⟨hcur, hpos, hc⟩]
  · rw [chainText_ready hready, hback, h.text]

theorem pushPtok_represents (tok : List TCH) {s : Unread} {chain : Chain}
    (h : Represents s chain) :
    ∃ chain', pushPtok fresh tok chain = .ok chain' ∧ Represents ⟨tok ++ s.text, none⟩ chain' := by
  obtain ⟨pstm, rest, rfl⟩ := List.exists_cons_of_ne_nil h.ne_nil
  obtain ⟨chain', hpush, hne, hsound, htext, -⟩ := pushPtok_spec fresh tok h.sound
  rw [h.text] at htext
  exact ⟨chain', hpush, hne, hsound, htext, nofun⟩

theorem pushQuotedPtok_represents (tok : List TCH) {s : Unread} {chain : Chain}
    (h : Represents s chain) :
    ∃ chain', pushQuotedPtok fresh tok chain = .ok chain' ∧
      Represents ⟨tchLquo :: (tok ++ tchRquo :: s.text), none⟩ chain' := by
  obtain ⟨chain₁, hright, h₁⟩ := pushPtok_represents fresh [tchRquo] h
  obtain ⟨chain₂, htok, h₂⟩ := pushPtok_represents fresh tok h₁
  obtain ⟨chain₃, hleft, h₃⟩ := pushPtok_represents fresh [tchLquo] h₂
  refine ⟨chain₃, ?_, h₃⟩
  unfold pushQuotedPtok pushTch
  rw [hright]
  dsimp only [bind, Except.bind]
  rw [htok]
  exact hleft

theorem pushHf_represents {hf : HF} (hhf : NoShortMagic hf) {s : Unread} {chain : Chain}
    (h : Represents s chain) :
    Represents ⟨fileText hf ++ s.text, none⟩ (pstmPushHfPtch fresh hf chain) := by
  have hlen := length_ptchAllocCtch fresh ctchFile
  have hsound : Stm.Sound ⟨ptchAllocCtch fresh ctchFile, ctchFile, some hf⟩ := by
    refine ⟨?_, fun hf' hsome => ⟨?_, ?_⟩⟩
    · dsimp only
      omega
    · dsimp only
      omega
    · obtain rfl := Option.some.inj hsome
      exact hhf
  rw [pstmPushHfPtch]
  refine ⟨List.cons_ne_nil _ _, sound_cons hsound h.sound, ?_, nofun⟩
  have hdrop : (ptchAllocCtch fresh ctchFile).drop ctchFile = [] :=
    List.drop_eq_nil_of_le (by omega)
  rw [← h.text, chainText, List.flatMap_cons, Stm.text]
  dsimp only
  rw [hdrop]
  rfl

/-- The files an operation brings have no short read with a magic character. -/
def StreamOp.Long : StreamOp → Prop
  | .pushHf hf => NoShortMagic hf
  | _ => True

theorem exec_follows : Follows StreamOp.spec (StreamOp.exec fresh) Represents StreamOp.Long := by
  intro op s chain out s' hlong h hspec
  obtain ⟨text, got⟩ := s
  cases op with
  | tchPeek =>
    cases text with
    | nil => exact nomatch hspec
    | cons c text =>
      obtain ⟨rfl, rfl⟩ := Prod.mk.inj (Except.ok.inj hspec)
      obtain ⟨chain', hpeek, hsound, hready, htext⟩ :=
        tchPeekLoop_spec fresh h.sound h.text (Nat.lt_succ_self chain.length)
      refine ⟨chain', ?_, ?_, hsound, htext, nofun⟩
      · rw [StreamOp.exec, M4.tchPeek, hpeek]
        rfl
      · rintro rfl
        exact hready
  | tchGet =>
    cases text with
    | nil => exact nomatch hspec
    | cons c text =>
      obtain ⟨rfl, rfl⟩ := Prod.mk.inj (Except.ok.inj hspec)
      obtain ⟨chain', hget, hrep⟩ := tchGet_spec fresh h
      exact ⟨chain', by rw [StreamOp.exec, hget]; rfl, hrep⟩
  | ungetTch c =>
    cases got with
    | none => exact nomatch hspec
    | some c' =>
      rw [StreamOp.spec] at hspec
      split at hspec
      · rename_i hsame
        subst hsame
        obtain ⟨rfl, rfl⟩ := Prod.mk.inj (Except.ok.inj hspec)
        obtain ⟨chain', hunget, hrep⟩ := ungetTch_spec h
        exact ⟨chain', by rw [StreamOp.exec, hunget]; rfl, hrep⟩
      · exact nomatch hspec
  | pushPtok tok =>
    obtain ⟨rfl, rfl⟩ := Prod.mk.inj (Except.ok.inj hspec)
    obtain ⟨chain', hpush, hrep⟩ := pushPtok_represents fresh tok h
    exact ⟨chain', by rw [StreamOp.exec, hpush]; rfl, hrep⟩
  | pushTch c =>
    obtain ⟨rfl, rfl⟩ := Prod.mk.inj (Except.ok.inj hspec)
    obtain ⟨chain', hpush, hrep⟩ := pushPtok_represents fresh [c] h
    exact ⟨chain', by rw [StreamOp.exec, M4.pushTch, hpush]; rfl, hrep⟩
  | pushQuotedPtok tok =>
    obtain ⟨rfl, rfl⟩ := Prod.mk.inj (Except.ok.inj hspec)
    obtain ⟨chain', hpush, hrep⟩ := pushQuotedPtok_represents fresh tok h
    exact ⟨chain', by rw [StreamOp.exec, hpush]; rfl, hrep⟩
  | pushHf hf =>
    obtain ⟨rfl, rfl⟩ := Prod.mk.inj (Except.ok.inj hspec)
    exact ⟨_, rfl, pushHf_represents fresh hlong h⟩

theorem noInput_represents : Represents ⟨[], none⟩ (noInput fresh) := by
  have hlen := length_ptchAllocCtch fresh 2
  have hsound : Stm.Sound ⟨ptchAllocCtch fresh 2, 2, none⟩ := ⟨Nat.le_of_eq hlen.symm, nofun⟩
  refine ⟨List.cons_ne_nil _ _, sound_cons hsound nofun, ?_, nofun⟩
  rw [noInput, pstmPushStringCtch, chainText, List.flatMap_cons, Stm.text]
  dsimp only
  rw [List.drop_eq_nil_of_le (Nat.le_of_eq hlen)]
  rfl

/-- Every sequence of operations gives what the sequence of characters gives, and no
`Assert` fails, in particular none about the buffer of a read. -/
theorem stream_refinement {ops : List StreamOp} (hlong : ∀ op ∈ ops, op.Long)
    {outs : List (Option TCH)} {s : Unread}
    (hrun : runAll StreamOp.spec ops ⟨[], none⟩ = .ok (outs, s)) :
    ∃ chain, runAll (StreamOp.exec fresh) ops (noInput fresh) = .ok (outs, chain) ∧
      Represents s chain :=
  (exec_follows fresh).run hlong (noInput_represents fresh) hrun

end

/-- A file of one magic character. -/
def magicFile : HF := [⟨[tchMagic], by decide⟩]

theorem stream_refinement_push :
    ∃ chain, runAll (StreamOp.exec fun _ => 0)
        [.pushPtok [65, 66], .tchGet, .ungetTch 65, .tchPeek] (noInput fun _ => 0) =
          .ok ([none, some 65, none, some 65], chain) ∧
      Represents ⟨[65, 66], none⟩ chain := by
  refine stream_refinement (fun _ => 0) ?_ rfl
  simp only [List.forall_mem_cons, StreamOp.Long, List.not_mem_nil, false_implies, implies_true,
    and_self]

/-- The end of the file is read into a buffer of two characters. -/
theorem short_magic_overrun :
    ¬ ∀ (fresh : Nat → TCH) (ops : List StreamOp) (outs : List (Option TCH)) (s : Unread),
      runAll StreamOp.spec ops ⟨[], none⟩ = .ok (outs, s) →
        ∃ chain, runAll (StreamOp.exec fresh) ops (noInput fresh) = .ok (outs, chain) := by
  intro h
  obtain ⟨chain, hrun⟩ := h (fun _ => 0) [.pushHf magicFile, .tchGet, .tchGet, .tchGet] _ _ rfl
  have hfault : (runAll (StreamOp.exec fun _ => 0)
      [.pushHf magicFile, .tchGet, .tchGet, .tchGet] (noInput fun _ => 0)).toOption.isNone := by
    decide +kernel
  rw [hrun] at hfault
  exact nomatch hfault

end SdkTools.M4
