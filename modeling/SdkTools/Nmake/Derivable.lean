import SdkTools.Lib.Grammar
import SdkTools.Nmake.Recognizer

/-!
# The documented grammar

The productions of `grammar.h` with the actions of `table.h`. As the notes to the table
say, commands start with a semicolon or with an indented line.
-/

namespace SdkTools.Nmake.Makefile

open Lib

set_option autoImplicit false

variable {τ : Type}

inductive Nonterminal where
  | makefile
  | body
  | nameList
  | commands
  | moreBuildLines
  | blankLines
  | buildInfo
  | separator

abbrev Symbols := List (Sym Nonterminal Kind UCHAR)

inductive Production : Nonterminal → Symbols → Prop where
  | makefile_empty : Production .makefile []
  | makefile_blank : Production .makefile [.nt .blankLines, .nt .makefile]
  | makefile_entry : Production .makefile
      [.tok .newline, .tok .name, .act DONAME, .nt .body, .nt .makefile]
  | body_names : Production .body
      [.nt .nameList, .nt .separator, .act DOLASTNAME, .nt .buildInfo, .act DOBUILDCMDS]
  | body_definition : Production .body [.tok .equals, .tok .value, .act DOMACRO]
  | nameList_empty : Production .nameList []
  | nameList_name : Production .nameList [.tok .name, .act DONAMELIST, .nt .nameList]
  | commands_empty : Production .commands []
  | commands_indented : Production .commands
      [.tok .newlineWhitespace, .tok .string, .act DONAMELIST, .nt .moreBuildLines]
  | commands_semicolon : Production .commands
      [.tok .semicolon, .tok .string, .act DONAMELIST, .nt .moreBuildLines]
  | more_empty : Production .moreBuildLines []
  | more_indented : Production .moreBuildLines
      [.tok .newlineWhitespace, .tok .string, .act DONAMELIST, .nt .moreBuildLines]
  | more_newline : Production .moreBuildLines [.tok .newline, .nt .moreBuildLines]
  | blankLines_empty : Production .blankLines []
  | blankLines_newline : Production .blankLines [.tok .newline, .nt .blankLines]
  | blankLines_indented : Production .blankLines [.tok .newlineWhitespace, .nt .blankLines]
  | buildInfo_empty : Production .buildInfo [.act DODEPENDS]
  | buildInfo_names : Production .buildInfo [.nt .nameList, .act DODEPENDS, .nt .commands]
  | separator_colon : Production .separator [.tok .colon]
  | separator_doublecolon : Production .separator [.tok .doublecolon]

/-- The symbols `γ`, after the token `last`, derive the tokens and perform the actions. An
action is about the token that was read last. -/
abbrev Derives (last : Option (Token τ)) (γ : Symbols) (ts : List (Token τ))
    (events : List (Event τ)) : Prop :=
  Derivation Production Token.kind (fun a last => doAction a (last.map Token.text)) last γ ts events

/-- The symbols of `stack` at each place. -/
def Pos.symbols : Pos → Symbols
  | .makefile => [.nt .makefile]
  | .blank => [.nt .blankLines, .nt .makefile]
  | .name => [.tok .name, .act DONAME, .nt .body, .nt .makefile]
  | .body => [.nt .body, .nt .makefile]
  | .targets => [.nt .nameList, .nt .separator, .act DOLASTNAME, .nt .buildInfo,
      .act DOBUILDCMDS, .nt .makefile]
  | .info => [.nt .buildInfo, .act DOBUILDCMDS, .nt .makefile]
  | .dependents => [.nt .nameList, .act DODEPENDS, .nt .commands, .act DOBUILDCMDS, .nt .makefile]
  | .string => [.tok .string, .act DONAMELIST, .nt .moreBuildLines, .act DOBUILDCMDS, .nt .makefile]
  | .more => [.nt .moreBuildLines, .act DOBUILDCMDS, .nt .makefile]
  | .value => [.tok .value, .act DOMACRO, .nt .makefile]

section

variable {last : Option (Token τ)} {text : τ} {ts : List (Token τ)} {events : List (Event τ)}

theorem Derives.read {kind : Kind} {γ : Symbols} (h : Derives (some ⟨kind, text⟩) γ ts events) :
    Derives last (.tok kind :: γ) (⟨kind, text⟩ :: ts) events :=
  Derivation.tok (i := (⟨kind, text⟩ : Token τ)) h

theorem Derives.makefile_end : Derives last (.makefile : Pos).symbols ([] : List (Token τ)) [] :=
  .nt .makefile_empty .nil

/-- A newline that starts a blank line. -/
theorem Derives.newline_blank (h : Derives (some ⟨.newline, text⟩) Pos.blank.symbols ts events) :
    Derives last Pos.makefile.symbols (⟨.newline, text⟩ :: ts) events :=
  .nt .makefile_blank (.nt .blankLines_newline (Derives.read h))

theorem Derives.newline_name (h : Derives (some ⟨.newline, text⟩) Pos.name.symbols ts events) :
    Derives last Pos.makefile.symbols (⟨.newline, text⟩ :: ts) events :=
  .nt .makefile_entry (Derives.read h)

theorem Derives.after_newline {next : Option (Token τ)}
    (h : Derives (some ⟨.newline, text⟩) (afterNewline next).symbols ts events) :
    Derives last Pos.makefile.symbols (⟨.newline, text⟩ :: ts) events := by
  generalize hp : afterNewline next = p at h
  unfold afterNewline at hp
  split at hp <;> subst hp
  · exact newline_blank h
  · exact newline_blank h
  · exact newline_blank h
  · exact newline_name h

theorem Derives.indented_blank
    (h : Derives (some ⟨.newlineWhitespace, text⟩) Pos.blank.symbols ts events) :
    Derives last Pos.makefile.symbols (⟨.newlineWhitespace, text⟩ :: ts) events :=
  .nt .makefile_blank (.nt .blankLines_indented (Derives.read h))

end

/-! ## What the recognizer accepts is derivable -/

/-- A move of the recognizer is a part of a derivation. -/
def Sound (τ : Type) (p : Pos) : Prop :=
  ∀ {t : Token τ} {next : Option (Token τ)} {es : List (Event τ)} {q : Pos},
    move p t next = .goto es q → ∀ {last : Option (Token τ)} {ts : List (Token τ)}
      {events : List (Event τ)}, Derives (some t) q.symbols ts events →
        Derives last p.symbols (t :: ts) (es ++ events)

theorem sound_makefile : Sound τ .makefile := by
  rintro ⟨kind, text⟩ next es q h last ts events hq
  cases kind with
  | newline =>
    cases h
    exact hq.after_newline
  | newlineWhitespace =>
    cases h
    exact hq.indented_blank
  | _ => exact nomatch h

theorem sound_blank : Sound τ .blank := by
  rintro ⟨kind, text⟩ next es q h last ts events hq
  cases kind with
  | newline =>
    cases h
    exact .nt .blankLines_empty hq.after_newline
  | newlineWhitespace =>
    cases h
    exact .nt .blankLines_empty hq.indented_blank
  | _ => exact nomatch h

theorem sound_name : Sound τ .name := by
  rintro ⟨kind, text⟩ next es q h last ts events hq
  cases kind with
  | name =>
    cases h
    exact Derives.read (.act hq)
  | _ => exact nomatch h

/-- The separator after the targets. -/
theorem Derives.colon {last : Option (Token τ)} {text : τ} {ts : List (Token τ)}
    {events : List (Event τ)} (h : Derives (some ⟨.colon, text⟩) Pos.info.symbols ts events) :
    Derives last Pos.targets.symbols (⟨.colon, text⟩ :: ts)
      (doAction DOLASTNAME (some text) :: events) :=
  .nt .nameList_empty (.nt .separator_colon (Derives.read (.act h)))

theorem Derives.doublecolon {last : Option (Token τ)} {text : τ} {ts : List (Token τ)}
    {events : List (Event τ)}
    (h : Derives (some ⟨.doublecolon, text⟩) Pos.info.symbols ts events) :
    Derives last Pos.targets.symbols (⟨.doublecolon, text⟩ :: ts)
      (doAction DOLASTNAME (some text) :: events) :=
  .nt .nameList_empty (.nt .separator_doublecolon (Derives.read (.act h)))

theorem sound_targets : Sound τ .targets := by
  rintro ⟨kind, text⟩ next es q h last ts events hq
  cases kind with
  | name =>
    cases h
    exact .nt .nameList_name (Derives.read (.act hq))
  | colon =>
    cases h
    exact hq.colon
  | doublecolon =>
    cases h
    exact hq.doublecolon
  | _ => exact nomatch h

theorem sound_body : Sound τ .body := by
  rintro ⟨kind, text⟩ next es q h last ts events hq
  cases kind with
  | name =>
    cases h
    exact .nt .body_names (.nt .nameList_name (Derives.read (.act hq)))
  | colon =>
    cases h
    exact .nt .body_names hq.colon
  | doublecolon =>
    cases h
    exact .nt .body_names hq.doublecolon
  | equals =>
    cases h
    exact .nt .body_definition (Derives.read hq)
  | _ => exact nomatch h

/-- The commands of a block, or its end, after the dependents. -/
theorem sound_dependents : Sound τ .dependents := by
  rintro ⟨kind, text⟩ next es q h last ts events hq
  cases kind with
  | name =>
    cases h
    exact .nt .nameList_name (Derives.read (.act hq))
  | newline =>
    cases h
    exact .nt .nameList_empty (.act (.nt .commands_empty (.act hq.after_newline)))
  | newlineWhitespace =>
    cases h
    exact .nt .nameList_empty (.act (.nt .commands_indented (Derives.read hq)))
  | semicolon =>
    cases h
    exact .nt .nameList_empty (.act (.nt .commands_semicolon (Derives.read hq)))
  | _ => exact nomatch h

theorem sound_info : Sound τ .info := by
  rintro ⟨kind, text⟩ next es q h last ts events hq
  have hnames : ∀ {es : List (Event τ)} {q : Pos},
      move .dependents ⟨kind, text⟩ next = .goto es q →
        Derives (some ⟨kind, text⟩) q.symbols ts events →
          Derives last Pos.info.symbols (⟨kind, text⟩ :: ts) (es ++ events) :=
    fun h hq => .nt .buildInfo_names (sound_dependents h hq)
  cases kind with
  | equals => exact nomatch h
  | _ => exact hnames h hq

theorem sound_string : Sound τ .string := by
  rintro ⟨kind, text⟩ next es q h last ts events hq
  cases kind with
  | string =>
    cases h
    exact Derives.read (.act hq)
  | _ => exact nomatch h

theorem sound_more : Sound τ .more := by
  rintro ⟨kind, text⟩ next es q h last ts events hq
  cases kind with
  | newline =>
    simp only [move] at h
    split at h
    · cases h
      exact .nt .more_newline (Derives.read hq)
    · cases h
      exact .nt .more_newline (Derives.read hq)
    · cases h
      exact .nt .more_empty (.act hq.after_newline)
  | newlineWhitespace =>
    cases h
    exact .nt .more_indented (Derives.read hq)
  | _ => exact nomatch h

theorem sound_value : Sound τ .value := by
  rintro ⟨kind, text⟩ next es q h last ts events hq
  cases kind with
  | value =>
    cases h
    exact Derives.read (.act hq)
  | _ => exact nomatch h

theorem sound (p : Pos) : Sound τ p := by
  cases p with
  | makefile => exact sound_makefile
  | blank => exact sound_blank
  | name => exact sound_name
  | body => exact sound_body
  | targets => exact sound_targets
  | info => exact sound_info
  | dependents => exact sound_dependents
  | string => exact sound_string
  | more => exact sound_more
  | value => exact sound_value

theorem sound_end {p : Pos} {events : List (Event τ)} {stack : List UCHAR}
    (h : atEnd p = .finished events stack) (last : Option (Token τ)) :
    stack = [] ∧ Derives last p.symbols [] events := by
  cases p with
  | makefile =>
    cases h
    exact ⟨rfl, Derives.makefile_end⟩
  | blank =>
    cases h
    exact ⟨rfl, .nt .blankLines_empty Derives.makefile_end⟩
  | info =>
    cases h
    exact ⟨rfl, .nt .buildInfo_empty (.act (.act Derives.makefile_end))⟩
  | dependents =>
    cases h
    exact ⟨rfl, .nt .nameList_empty (.act (.nt .commands_empty (.act Derives.makefile_end)))⟩
  | more =>
    cases h
    exact ⟨rfl, .nt .more_empty (.act Derives.makefile_end)⟩
  | _ => exact nomatch h

theorem after_eq_finished {events es : List (Event τ)} {o : Outcome τ} {stack : List UCHAR}
    (h : o.after events = .finished es stack) :
    ∃ rest, o = .finished rest stack ∧ es = events ++ rest := by
  induction events generalizing es with
  | nil => exact ⟨es, h, rfl⟩
  | cons e events ih =>
    have hperform : (o.after events).perform e = .finished es stack := h
    cases ho : o.after events with
    | finished rest stack' =>
      rw [ho] at hperform
      cases hperform
      obtain ⟨rest', hrest, rfl⟩ := ih ho
      exact ⟨rest', hrest, rfl⟩
    | _ =>
      rw [ho] at hperform
      exact nomatch hperform

/-- The parse has come to an end within its stack. -/
def Outcome.ended : Outcome τ → Bool
  | .finished _ _ | .makeError _ | .unread | .unasked => true
  | .stackOverrun | .fuel => false

theorem ended_after (events : List (Event τ)) (o : Outcome τ) :
    (o.after events).ended = o.ended := by
  induction events with
  | nil => rfl
  | cons e events ih =>
    have hperform : ((o.after events).perform e).ended = (o.after events).ended := by
      cases o.after events <;> rfl
    exact hperform.trans ih

/-- The recognizer stops at an error only. -/
theorem move_stop {p : Pos} {t : Token τ} {next : Option (Token τ)} {o : Outcome τ}
    (h : move p t next = .stop o) :
    o.ended = true ∧ ∀ events stack, o ≠ .finished events stack := by
  have hmore : ∀ {text : τ}, move .more ⟨.newline, text⟩ next ≠ .stop o := by
    intro text hstop
    simp only [move] at hstop
    split at hstop <;> exact nomatch hstop
  obtain ⟨kind, text⟩ := t
  cases p <;> cases kind <;> first
    | exact absurd h hmore
    | (cases h; done)
    | (cases h; exact ⟨rfl, nofun⟩)

theorem recognize_ended (ts : List (Token τ)) (p : Pos) : (recognize ts p).ended = true := by
  induction ts generalizing p with
  | nil => cases p <;> rfl
  | cons t ts ih =>
    rw [recognize]
    cases hmove : move p t ts.head? with
    | stop o => exact (move_stop hmove).1
    | goto events q =>
      dsimp only
      rw [ended_after]
      exact ih q

theorem recognize_sound {ts : List (Token τ)} {p : Pos} {events : List (Event τ)}
    {stack : List UCHAR} (h : recognize ts p = .finished events stack) (last : Option (Token τ)) :
    stack = [] ∧ Derives last p.symbols ts events := by
  induction ts generalizing p events last with
  | nil => exact sound_end h last
  | cons t ts ih =>
    rw [recognize] at h
    cases hmove : move p t ts.head? with
    | stop o =>
      rw [hmove] at h
      exact absurd h ((move_stop hmove).2 events stack)
    | goto es q =>
      rw [hmove] at h
      obtain ⟨rest, hrest, rfl⟩ := after_eq_finished h
      obtain ⟨hstack, hderives⟩ := ih hrest (some t)
      exact ⟨hstack, sound p hmove hderives⟩

/-! ## What is derivable is accepted -/

/-- A block that has ended, at the rest of the makefile. -/
def blockEnd (ts : List (Token τ)) : Outcome τ :=
  (recognize ts .makefile).perform (doAction DOBUILDCMDS none)

/-- What the recognizer does at `Commands`. -/
def recognizeCommands (ts : List (Token τ)) : Outcome τ :=
  match ts with
  | [] | ⟨.newline, _⟩ :: _ => blockEnd ts
  | ⟨.newlineWhitespace, _⟩ :: ts | ⟨.semicolon, _⟩ :: ts => recognize ts .string
  | _ => .makeError SYNTAX

/-- What the recognizer does at `Separator`. -/
def recognizeSeparator (ts : List (Token τ)) : Outcome τ :=
  match ts with
  | ⟨.colon, text⟩ :: ts | ⟨.doublecolon, text⟩ :: ts =>
    (recognize ts .info).perform (doAction DOLASTNAME (some text))
  | _ => .makeError SEPRTR

/-- What the recognizer does with the tokens after `last` where the symbols `γ` are due. -/
def recognizeSymbols : Symbols → Option (Token τ) → List (Token τ) → Outcome τ
  | [], _, [] => .finished [] []
  | [], _, _ :: _ => .makeError SYNTAX
  | .act a :: γ, last, ts =>
    (recognizeSymbols γ last ts).perform (doAction a (last.map Token.text))
  | .tok _ :: _, _, [] => .makeError SYNTAX
  | .tok kind :: γ, _, t :: ts =>
    if t.kind = kind then recognizeSymbols γ (some t) ts else .makeError SYNTAX
  | .nt .makefile :: _, _, ts => recognize ts .makefile
  | .nt .blankLines :: _, _, ts => recognize ts .blank
  | .nt .body :: _, _, ts => recognize ts .body
  | .nt .nameList :: .nt .separator :: _, _, ts => recognize ts .targets
  | .nt .nameList :: _, _, ts => recognize ts .dependents
  | .nt .separator :: _, _, ts => recognizeSeparator ts
  | .nt .buildInfo :: _, _, ts => recognize ts .info
  | .nt .commands :: _, _, ts => recognizeCommands ts
  | .nt .moreBuildLines :: _, _, ts => recognize ts .more

/-- The stacks of leftmost derivations from `Makefile`. -/
inductive Shape : Symbols → Prop where
  | nil : Shape []
  | makefile : Shape [.nt .makefile]
  | blank : Shape [.nt .blankLines, .nt .makefile]
  | blank_newline : Shape [.tok .newline, .nt .blankLines, .nt .makefile]
  | blank_indented : Shape [.tok .newlineWhitespace, .nt .blankLines, .nt .makefile]
  | entry : Shape [.tok .newline, .tok .name, .act DONAME, .nt .body, .nt .makefile]
  | name : Shape [.tok .name, .act DONAME, .nt .body, .nt .makefile]
  | doName : Shape [.act DONAME, .nt .body, .nt .makefile]
  | body : Shape [.nt .body, .nt .makefile]
  | equals : Shape [.tok .equals, .tok .value, .act DOMACRO, .nt .makefile]
  | value : Shape [.tok .value, .act DOMACRO, .nt .makefile]
  | doMacro : Shape [.act DOMACRO, .nt .makefile]
  | targets : Shape [.nt .nameList, .nt .separator, .act DOLASTNAME, .nt .buildInfo,
      .act DOBUILDCMDS, .nt .makefile]
  | targetName : Shape [.tok .name, .act DONAMELIST, .nt .nameList, .nt .separator,
      .act DOLASTNAME, .nt .buildInfo, .act DOBUILDCMDS, .nt .makefile]
  | doTargetName : Shape [.act DONAMELIST, .nt .nameList, .nt .separator, .act DOLASTNAME,
      .nt .buildInfo, .act DOBUILDCMDS, .nt .makefile]
  | separator : Shape [.nt .separator, .act DOLASTNAME, .nt .buildInfo, .act DOBUILDCMDS,
      .nt .makefile]
  | colon : Shape [.tok .colon, .act DOLASTNAME, .nt .buildInfo, .act DOBUILDCMDS,
      .nt .makefile]
  | doublecolon : Shape [.tok .doublecolon, .act DOLASTNAME, .nt .buildInfo, .act DOBUILDCMDS,
      .nt .makefile]
  | doLastName : Shape [.act DOLASTNAME, .nt .buildInfo, .act DOBUILDCMDS, .nt .makefile]
  | info : Shape [.nt .buildInfo, .act DOBUILDCMDS, .nt .makefile]
  | doDepends : Shape [.act DODEPENDS, .act DOBUILDCMDS, .nt .makefile]
  | dependents : Shape [.nt .nameList, .act DODEPENDS, .nt .commands, .act DOBUILDCMDS,
      .nt .makefile]
  | dependentName : Shape [.tok .name, .act DONAMELIST, .nt .nameList, .act DODEPENDS,
      .nt .commands, .act DOBUILDCMDS, .nt .makefile]
  | doDependentName : Shape [.act DONAMELIST, .nt .nameList, .act DODEPENDS, .nt .commands,
      .act DOBUILDCMDS, .nt .makefile]
  | doDependents : Shape [.act DODEPENDS, .nt .commands, .act DOBUILDCMDS, .nt .makefile]
  | commands : Shape [.nt .commands, .act DOBUILDCMDS, .nt .makefile]
  | indented : Shape [.tok .newlineWhitespace, .tok .string, .act DONAMELIST,
      .nt .moreBuildLines, .act DOBUILDCMDS, .nt .makefile]
  | semicolon : Shape [.tok .semicolon, .tok .string, .act DONAMELIST, .nt .moreBuildLines,
      .act DOBUILDCMDS, .nt .makefile]
  | string : Shape [.tok .string, .act DONAMELIST, .nt .moreBuildLines, .act DOBUILDCMDS,
      .nt .makefile]
  | doString : Shape [.act DONAMELIST, .nt .moreBuildLines, .act DOBUILDCMDS, .nt .makefile]
  | more : Shape [.nt .moreBuildLines, .act DOBUILDCMDS, .nt .makefile]
  | moreNewline : Shape [.tok .newline, .nt .moreBuildLines, .act DOBUILDCMDS, .nt .makefile]
  | doBuildCmds : Shape [.act DOBUILDCMDS, .nt .makefile]

theorem Shape.tok {kind : Kind} {γ : Symbols} (h : Shape (.tok kind :: γ)) : Shape γ := by
  cases h <;> constructor

theorem Shape.act {a : UCHAR} {γ : Symbols} (h : Shape (.act a :: γ)) : Shape γ := by
  cases h <;> constructor

theorem Shape.nt {n : Nonterminal} {γ rhs : Symbols} (h : Shape (.nt n :: γ))
    (hprod : Production n rhs) : Shape (rhs ++ γ) := by
  cases hprod <;> cases h <;> constructor

/-- The outcome of a run that goes on as derived, or that a token was not read as a string
where the parser asks for one. -/
def Good (o : Outcome τ) (events : List (Event τ)) : Prop :=
  o = .finished events [] ∨ o = .unread

theorem Good.perform {o : Outcome τ} {events : List (Event τ)} (h : Good o events) (e : Event τ) :
    Good (o.perform e) (e :: events) := by
  rcases h with rfl | rfl
  · exact .inl rfl
  · exact .inr rfl

theorem not_good_error {n : UCHAR} {events : List (Event τ)} :
    ¬Good (.makeError n : Outcome τ) events := by
  rintro (h | h) <;> exact nomatch h

theorem not_good_unasked {events : List (Event τ)} : ¬Good (.unasked : Outcome τ) events := by
  rintro (h | h) <;> exact nomatch h

/-- A derivation that starts with the production is one that the recognizer follows. -/
def Closed (n : Nonterminal) (γ rhs : Symbols) : Prop :=
  ∀ {τ : Type} {last : Option (Token τ)} {ts : List (Token τ)} {events : List (Event τ)},
    Good (recognizeSymbols (rhs ++ γ) last ts) events →
      Good (recognizeSymbols (.nt n :: γ) last ts) events

/-- A production that starts with a token needs a look at the tokens after it only. -/
theorem closed_tok {n : Nonterminal} {kind : Kind} {γ rhs : Symbols}
    (hrest : ∀ {τ : Type} {last : Option (Token τ)} {text : τ} {ts : List (Token τ)}
      {events : List (Event τ)},
      Good (recognizeSymbols (rhs ++ γ) (some ⟨kind, text⟩) ts) events →
        Good (recognizeSymbols (.nt n :: γ) last (⟨kind, text⟩ :: ts)) events) :
    Closed n γ (.tok kind :: rhs) := by
  intro τ last ts events h
  cases ts with
  | nil => exact absurd h not_good_error
  | cons t ts =>
    rw [List.cons_append, recognizeSymbols] at h
    split at h
    · rename_i hkind
      subst hkind
      exact hrest h
    · exact absurd h not_good_error

theorem closed_makefile_blank : Closed .makefile [] [.nt .blankLines, .nt .makefile] := by
  intro τ last ts events h
  cases ts with
  | nil => exact h
  | cons t ts =>
    obtain ⟨kind, text⟩ := t
    cases kind with
    | newline => exact h
    | newlineWhitespace => exact h
    | _ => rcases h with h | h <;> exact nomatch h

theorem closed_blankLines_empty : Closed .blankLines [.nt .makefile] [] := by
  intro τ last ts events h
  cases ts with
  | nil => exact h
  | cons t ts =>
    obtain ⟨kind, text⟩ := t
    cases kind with
    | newline => exact h
    | newlineWhitespace => exact h
    | _ => rcases h with h | h <;> exact nomatch h

theorem Good.of_perform {o : Outcome τ} {e : Event τ} {events : List (Event τ)}
    (h : Good (o.perform e) events) : ∃ rest, Good o rest := by
  cases o with
  | finished rest stack =>
    rcases h with h | h
    · cases h
      exact ⟨rest, .inl rfl⟩
    · exact nomatch h
  | unread => exact ⟨[], .inr rfl⟩
  | _ => rcases h with h | h <;> exact nomatch h

/-- After an indented line has been read as a blank line, no string was there to read. -/
theorem string_unread {ts : List (Token τ)} {events : List (Event τ)}
    (h : Good (recognize ts .blank) events) : recognize ts .string = .unread := by
  cases ts with
  | nil => rfl
  | cons t ts =>
    obtain ⟨kind, text⟩ := t
    cases kind with
    | string => exact absurd h not_good_unasked
    | _ => rfl

theorem closed_makefile_empty : Closed .makefile [] [] := by
  intro τ last ts events h
  cases ts with
  | nil => exact h
  | cons t ts => exact absurd h not_good_error

theorem closed_makefile_entry : Closed .makefile []
    [.tok .newline, .tok .name, .act DONAME, .nt .body, .nt .makefile] := by
  apply closed_tok
  intro τ last text ts events h
  cases ts with
  | nil => exact absurd h not_good_error
  | cons t ts =>
    obtain ⟨kind, text⟩ := t
    cases kind with
    | name => exact h
    | _ => exact absurd h not_good_error

theorem closed_body_names : Closed .body [.nt .makefile]
    [.nt .nameList, .nt .separator, .act DOLASTNAME, .nt .buildInfo, .act DOBUILDCMDS] := by
  intro τ last ts events h
  cases ts with
  | nil => exact absurd h not_good_error
  | cons t ts =>
    obtain ⟨kind, text⟩ := t
    cases kind with
    | name => exact h
    | colon => exact h
    | doublecolon => exact h
    | string => exact absurd h not_good_unasked
    | value => exact absurd h not_good_unasked
    | _ => exact absurd h not_good_error

theorem closed_body_definition : Closed .body [.nt .makefile]
    [.tok .equals, .tok .value, .act DOMACRO] := by
  apply closed_tok
  intro τ last text ts events h
  cases ts with
  | nil => exact absurd h not_good_error
  | cons t ts =>
    obtain ⟨kind, text⟩ := t
    cases kind with
    | value => exact h
    | _ => exact absurd h not_good_error

theorem closed_nameList_empty_targets : Closed .nameList [.nt .separator, .act DOLASTNAME,
    .nt .buildInfo, .act DOBUILDCMDS, .nt .makefile] [] := by
  intro τ last ts events h
  cases ts with
  | nil => exact absurd h not_good_error
  | cons t ts =>
    obtain ⟨kind, text⟩ := t
    cases kind with
    | colon => exact h
    | doublecolon => exact h
    | _ => exact absurd h not_good_error

theorem closed_nameList_empty_dependents : Closed .nameList [.act DODEPENDS, .nt .commands,
    .act DOBUILDCMDS, .nt .makefile] [] := by
  intro τ last ts events h
  cases ts with
  | nil => exact h
  | cons t ts =>
    obtain ⟨kind, text⟩ := t
    cases kind with
    | newline => exact h
    | newlineWhitespace => exact h
    | semicolon => exact h
    | _ => exact absurd h not_good_error

theorem closed_nameList_name_targets : Closed .nameList [.nt .separator, .act DOLASTNAME,
    .nt .buildInfo, .act DOBUILDCMDS, .nt .makefile]
    [.tok .name, .act DONAMELIST, .nt .nameList] :=
  closed_tok fun h => h

theorem closed_nameList_name_dependents : Closed .nameList [.act DODEPENDS, .nt .commands,
    .act DOBUILDCMDS, .nt .makefile] [.tok .name, .act DONAMELIST, .nt .nameList] :=
  closed_tok fun h => h

theorem closed_commands_empty : Closed .commands [.act DOBUILDCMDS, .nt .makefile] [] := by
  intro τ last ts events h
  cases ts with
  | nil => exact h
  | cons t ts =>
    obtain ⟨kind, text⟩ := t
    cases kind with
    | newline => exact h
    | newlineWhitespace =>
      obtain ⟨rest, hblank⟩ := Good.of_perform h
      exact .inr (string_unread hblank)
    | string => exact absurd h not_good_unasked
    | value => exact absurd h not_good_unasked
    | _ => exact absurd h not_good_error

/-- A command, after the token that starts its line. -/
theorem good_string {ts : List (Token τ)} {last : Option (Token τ)} {events : List (Event τ)}
    (h : Good (recognizeSymbols [.tok .string, .act DONAMELIST, .nt .moreBuildLines,
      .act DOBUILDCMDS, .nt .makefile] last ts) events) : Good (recognize ts .string) events := by
  cases ts with
  | nil => exact absurd h not_good_error
  | cons t ts =>
    obtain ⟨kind, text⟩ := t
    cases kind with
    | string => exact h
    | _ => exact absurd h not_good_error

theorem closed_commands_indented : Closed .commands [.act DOBUILDCMDS, .nt .makefile]
    [.tok .newlineWhitespace, .tok .string, .act DONAMELIST, .nt .moreBuildLines] :=
  closed_tok good_string

theorem closed_commands_semicolon : Closed .commands [.act DOBUILDCMDS, .nt .makefile]
    [.tok .semicolon, .tok .string, .act DONAMELIST, .nt .moreBuildLines] :=
  closed_tok good_string

/-- Blank lines after the commands can as well be read as part of them. -/
theorem closed_more_empty : Closed .moreBuildLines [.act DOBUILDCMDS, .nt .makefile] [] := by
  intro τ last ts events h
  induction ts with
  | nil => exact h
  | cons t ts ih =>
    obtain ⟨kind, text⟩ := t
    cases kind with
    | newline =>
      cases ts with
      | nil => exact h
      | cons t ts =>
        obtain ⟨kind, text⟩ := t
        cases kind with
        | newline => exact ih h
        | newlineWhitespace => exact ih h
        | _ => exact h
    | newlineWhitespace =>
      obtain ⟨rest, hblank⟩ := Good.of_perform h
      exact .inr (string_unread hblank)
    | string => exact absurd h not_good_unasked
    | value => exact absurd h not_good_unasked
    | _ => exact absurd h not_good_error

theorem closed_more_indented : Closed .moreBuildLines [.act DOBUILDCMDS, .nt .makefile]
    [.tok .newlineWhitespace, .tok .string, .act DONAMELIST, .nt .moreBuildLines] :=
  closed_tok good_string

theorem closed_more_newline : Closed .moreBuildLines [.act DOBUILDCMDS, .nt .makefile]
    [.tok .newline, .nt .moreBuildLines] := by
  apply closed_tok
  intro τ last text ts events h
  cases ts with
  | nil => exact h
  | cons t ts =>
    obtain ⟨kind, text⟩ := t
    cases kind with
    | newline => exact h
    | newlineWhitespace => exact h
    | string => exact absurd h not_good_unasked
    | value => exact absurd h not_good_unasked
    | _ => exact absurd h not_good_error

theorem closed_blankLines_newline : Closed .blankLines [.nt .makefile]
    [.tok .newline, .nt .blankLines] := by
  apply closed_tok
  intro τ last text ts events h
  cases ts with
  | nil => exact h
  | cons t ts =>
    obtain ⟨kind, text⟩ := t
    cases kind with
    | newline => exact h
    | newlineWhitespace => exact h
    | string => exact absurd h not_good_unasked
    | value => exact absurd h not_good_unasked
    | _ => exact absurd h not_good_error

theorem closed_blankLines_indented : Closed .blankLines [.nt .makefile]
    [.tok .newlineWhitespace, .nt .blankLines] :=
  closed_tok fun h => h

theorem closed_buildInfo_empty : Closed .buildInfo [.act DOBUILDCMDS, .nt .makefile]
    [.act DODEPENDS] := by
  intro τ last ts events h
  cases ts with
  | nil => exact h
  | cons t ts =>
    obtain ⟨kind, text⟩ := t
    cases kind with
    | newline => exact h
    | newlineWhitespace =>
      obtain ⟨rest, hend⟩ := Good.of_perform h
      obtain ⟨rest', hblank⟩ := Good.of_perform hend
      have hunread := string_unread hblank
      refine .inr ?_
      exact congrArg (Outcome.perform (doAction DODEPENDS none)) hunread
    | string => exact absurd h not_good_unasked
    | value => exact absurd h not_good_unasked
    | _ => exact absurd h not_good_error

theorem closed_buildInfo_names : Closed .buildInfo [.act DOBUILDCMDS, .nt .makefile]
    [.nt .nameList, .act DODEPENDS, .nt .commands] := by
  intro τ last ts events h
  cases ts with
  | nil => exact h
  | cons t ts =>
    obtain ⟨kind, text⟩ := t
    cases kind with
    | equals => exact absurd h not_good_error
    | _ => exact h

theorem closed_separator_colon : Closed .separator [.act DOLASTNAME, .nt .buildInfo,
    .act DOBUILDCMDS, .nt .makefile] [.tok .colon] :=
  closed_tok fun h => h

theorem closed_separator_doublecolon : Closed .separator [.act DOLASTNAME, .nt .buildInfo,
    .act DOBUILDCMDS, .nt .makefile] [.tok .doublecolon] :=
  closed_tok fun h => h

theorem closed {n : Nonterminal} {γ rhs : Symbols} (hshape : Shape (.nt n :: γ))
    (hprod : Production n rhs) : Closed n γ rhs := by
  cases hprod with
  | makefile_empty =>
    cases hshape
    exact closed_makefile_empty
  | makefile_blank =>
    cases hshape
    exact closed_makefile_blank
  | makefile_entry =>
    cases hshape
    exact closed_makefile_entry
  | body_names =>
    cases hshape
    exact closed_body_names
  | body_definition =>
    cases hshape
    exact closed_body_definition
  | nameList_empty =>
    cases hshape with
    | targets => exact closed_nameList_empty_targets
    | dependents => exact closed_nameList_empty_dependents
  | nameList_name =>
    cases hshape with
    | targets => exact closed_nameList_name_targets
    | dependents => exact closed_nameList_name_dependents
  | commands_empty =>
    cases hshape
    exact closed_commands_empty
  | commands_indented =>
    cases hshape
    exact closed_commands_indented
  | commands_semicolon =>
    cases hshape
    exact closed_commands_semicolon
  | more_empty =>
    cases hshape
    exact closed_more_empty
  | more_indented =>
    cases hshape
    exact closed_more_indented
  | more_newline =>
    cases hshape
    exact closed_more_newline
  | blankLines_empty =>
    cases hshape
    exact closed_blankLines_empty
  | blankLines_newline =>
    cases hshape
    exact closed_blankLines_newline
  | blankLines_indented =>
    cases hshape
    exact closed_blankLines_indented
  | buildInfo_empty =>
    cases hshape
    exact closed_buildInfo_empty
  | buildInfo_names =>
    cases hshape
    exact closed_buildInfo_names
  | separator_colon =>
    cases hshape
    exact closed_separator_colon
  | separator_doublecolon =>
    cases hshape
    exact closed_separator_doublecolon

theorem recognizeSymbols_tok {γ : Symbols} (last : Option (Token τ)) (t : Token τ)
    (ts : List (Token τ)) :
    recognizeSymbols (.tok t.kind :: γ) last (t :: ts) = recognizeSymbols γ (some t) ts := by
  rw [recognizeSymbols, if_pos rfl]

/-- Whatever is derivable is recognized, unless a string is not read where it is due. -/
theorem recognizeSymbols_complete {γ : Symbols} {last : Option (Token τ)} {ts : List (Token τ)}
    {events : List (Event τ)} (h : Derives last γ ts events) (hγ : Shape γ) :
    Good (recognizeSymbols γ last ts) events := by
  apply Derivation.closed Shape (fun last γ ts events => Good (recognizeSymbols γ last ts) events)
    _ _ _ _ h hγ
  · exact fun last => .inl rfl
  · intro last γ t ts events hshape
    refine ⟨hshape.tok, fun hgood => ?_⟩
    rw [recognizeSymbols_tok]
    exact hgood
  · exact fun last γ a ts events hshape => ⟨hshape.act, fun hgood => hgood.perform _⟩
  · exact fun last γ rhs n ts events hshape hprod => ⟨hshape.nt hprod, closed hshape hprod⟩

theorem recognize_complete {ts : List (Token τ)} {events : List (Event τ)}
    (h : Derives none Pos.makefile.symbols ts events) : Good (recognize ts .makefile) events :=
  recognizeSymbols_complete h .makefile

/-! ## The parser -/

/-- `parse` comes to an end for every sequence of tokens, within its stack, which it leaves
empty again. If `getToken` can supply the sequence (a string or a value just where one is
asked for) then the parse finishes without an error exactly when the tokens are derivable
from `Makefile`, and its actions are those of the derivation in their order, each with the
text of the token it is about. -/
theorem parse_correct (ts : List (Token τ)) :
    ∃ o, (∃ n, ∀ k, parse (k + n) ts = o) ∧
      ((∃ events, o = .finished events []) ∨ (∃ number, o = .makeError number) ∨
        o = .unread ∨ o = .unasked) ∧
      (∀ events, o = .finished events [] → Derives none [.nt .makefile] ts events) ∧
      (o ≠ .unread → o ≠ .unasked → ∀ events, Derives none [.nt .makefile] ts events →
        o = .finished events []) := by
  refine ⟨recognize ts .makefile, parse_recognize ts, ?_, ?_, ?_⟩
  · have hended := recognize_ended ts .makefile
    cases ho : recognize ts .makefile with
    | finished events stack =>
      obtain ⟨rfl, -⟩ := recognize_sound ho none
      exact .inl ⟨events, rfl⟩
    | makeError number => exact .inr (.inl ⟨number, rfl⟩)
    | unread => exact .inr (.inr (.inl rfl))
    | unasked => exact .inr (.inr (.inr rfl))
    | stackOverrun =>
      rw [ho] at hended
      exact nomatch hended
    | fuel =>
      rw [ho] at hended
      exact nomatch hended
  · exact fun events h => (recognize_sound h none).2
  · intro hunread hunasked events h
    rcases recognize_complete h with hfinished | hstring
    · exact hfinished
    · exact absurd hstring hunread

/-- The tokens of `name = value`. -/
def macroTokens : List (Token Nat) := [⟨.newline, 0⟩, ⟨.name, 1⟩, ⟨.equals, 2⟩, ⟨.value, 3⟩]

theorem parse_correct_macro : ∃ o, (∃ n, ∀ k, parse (k + n) macroTokens = o) ∧
    (o ≠ .unread → o ≠ .unasked →
      o = .finished [⟨DONAME, some 1⟩, ⟨DOMACRO, some 3⟩] []) := by
  obtain ⟨o, hrun, -, -, hcomplete⟩ := parse_correct macroTokens
  refine ⟨o, hrun, fun hunread hunasked => hcomplete hunread hunasked _ ?_⟩
  apply Derives.newline_name
  apply Derives.read
  apply Derivation.act
  apply Derivation.nt .body_definition
  apply Derives.read
  apply Derives.read
  exact .act Derives.makefile_end

end SdkTools.Nmake.Makefile
