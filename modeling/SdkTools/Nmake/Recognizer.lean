import SdkTools.Nmake.Parse

/-!
# What the parser does between two tokens

Whenever the parser asks for a token its stack is one of ten. From each of them the next
token, and after a newline the one after it, decide the actions and the next stack.
-/

namespace SdkTools.Nmake.Makefile

set_option autoImplicit false

variable {τ : Type}

/-- The places of a makefile at which the parser reads a token. -/
inductive Pos where
  | makefile
  | blank
  | name
  | body
  | targets
  | info
  | dependents
  | string
  | more
  | value

def Pos.stack : Pos → List UCHAR
  | .makefile => [MAKEFILE, ACCEPT]
  | .blank => [BLANKLINES, MAKEFILE, ACCEPT]
  | .name => [NAME, DONAME, BODY, MAKEFILE, ACCEPT]
  | .body => [BODY, MAKEFILE, ACCEPT]
  | .targets => [NAMELIST, SEPARATOR, DOLASTNAME, BUILDINFO, DOBUILDCMDS, MAKEFILE, ACCEPT]
  | .info => [BUILDINFO, DOBUILDCMDS, MAKEFILE, ACCEPT]
  | .dependents => [NAMELIST, DODEPENDS, COMMANDS, DOBUILDCMDS, MAKEFILE, ACCEPT]
  | .string => [STRING, DONAMELIST, MOREBUILDLINES, DOBUILDCMDS, MAKEFILE, ACCEPT]
  | .more => [MOREBUILDLINES, DOBUILDCMDS, MAKEFILE, ACCEPT]
  | .value => [VALUE, DOMACRO, MAKEFILE, ACCEPT]

inductive Move (τ : Type) where
  | goto (events : List (Event τ)) (p : Pos)
  | stop (o : Outcome τ)

/-- The place after a newline: a blank line, or the name that starts an entry. -/
def afterNewline (next : Option (Token τ)) : Pos :=
  match next with
  | none | some ⟨.newline, _⟩ | some ⟨.newlineWhitespace, _⟩ => .blank
  | _ => .name

def moveMakefile (unexpected : Token τ → UCHAR) (t : Token τ) (next : Option (Token τ)) : Move τ :=
  match t with
  | ⟨.newline, _⟩ => .goto [] (afterNewline next)
  | ⟨.newlineWhitespace, _⟩ => .goto [] .blank
  | ⟨.string, _⟩ | ⟨.value, _⟩ => .stop .unasked
  | t => .stop (.makeError (unexpected t))

/-- The errors of `table` for `MAKEFILE`. -/
def makefileError : Token τ → UCHAR
  | ⟨.name, _⟩ => SEPRTR
  | ⟨.colon, _⟩ | ⟨.doublecolon, _⟩ => NOTARG
  | ⟨.equals, _⟩ => MACRO
  | _ => SYNTAX

/-- The start of the commands of a block, or its end. -/
def moveCommands (names : UCHAR) (t : Token τ) (next : Option (Token τ)) : Move τ :=
  match t with
  | ⟨.name, text⟩ => .goto [doAction DONAMELIST (some text)] .dependents
  | ⟨.newline, _⟩ => .goto [doAction DODEPENDS none, doAction DOBUILDCMDS none] (afterNewline next)
  | ⟨.newlineWhitespace, _⟩ | ⟨.semicolon, _⟩ => .goto [doAction DODEPENDS none] .string
  | ⟨.string, _⟩ | ⟨.value, _⟩ => .stop .unasked
  | ⟨.equals, _⟩ => .stop (.makeError names)
  | _ => .stop (.makeError SYNTAX)

def move (p : Pos) (t : Token τ) (next : Option (Token τ)) : Move τ :=
  match p with
  | .makefile => moveMakefile makefileError t next
  | .blank => moveMakefile (fun _ => SYNTAX) t next
  | .name =>
    match t with
    | ⟨.name, text⟩ => .goto [doAction DONAME (some text)] .body
    | ⟨.string, _⟩ | ⟨.value, _⟩ => .stop .unasked
    | _ => .stop (.makeError SYNTAX)
  | .body =>
    match t with
    | ⟨.name, text⟩ => .goto [doAction DONAMELIST (some text)] .targets
    | ⟨.colon, text⟩ | ⟨.doublecolon, text⟩ => .goto [doAction DOLASTNAME (some text)] .info
    | ⟨.equals, _⟩ => .goto [] .value
    | ⟨.string, _⟩ | ⟨.value, _⟩ => .stop .unasked
    | ⟨.semicolon, _⟩ => .stop (.makeError SEPRTR)
    | _ => .stop (.makeError SEPEQU)
  | .targets =>
    match t with
    | ⟨.name, text⟩ => .goto [doAction DONAMELIST (some text)] .targets
    | ⟨.colon, text⟩ | ⟨.doublecolon, text⟩ => .goto [doAction DOLASTNAME (some text)] .info
    | ⟨.string, _⟩ | ⟨.value, _⟩ => .stop .unasked
    | ⟨.equals, _⟩ => .stop (.makeError NAMES)
    | _ => .stop (.makeError SEPRTR)
  | .info => moveCommands SYNTAX t next
  | .dependents => moveCommands NAMES t next
  | .string =>
    match t with
    | ⟨.string, text⟩ => .goto [doAction DONAMELIST (some text)] .more
    | _ => .stop .unread
  | .more =>
    match t with
    | ⟨.newline, _⟩ =>
      match next with
      | some ⟨.newline, _⟩ | some ⟨.newlineWhitespace, _⟩ => .goto [] .more
      | next => .goto [doAction DOBUILDCMDS none] (afterNewline next)
    | ⟨.newlineWhitespace, _⟩ => .goto [] .string
    | ⟨.string, _⟩ | ⟨.value, _⟩ => .stop .unasked
    | ⟨.name, _⟩ | ⟨.semicolon, _⟩ => .stop (.makeError PARSER)
    | _ => .stop (.makeError SYNTAX)
  | .value =>
    match t with
    | ⟨.value, text⟩ => .goto [doAction DOMACRO (some text)] .makefile
    | _ => .stop .unread

/-- The outcome where the file ends. -/
def atEnd : Pos → Outcome τ
  | .makefile | .blank => .finished [] []
  | .name => .makeError SYNTAX
  | .body => .makeError SEPEQU
  | .targets => .makeError SEPRTR
  | .info | .dependents => .finished [doAction DODEPENDS none, doAction DOBUILDCMDS none] []
  | .string | .value => .unread
  | .more => .finished [doAction DOBUILDCMDS none] []

def recognize : List (Token τ) → Pos → Outcome τ
  | [], p => atEnd p
  | t :: ts, p =>
    match move p t ts.head? with
    | .goto events q => (recognize ts q).after events
    | .stop o => o

theorem getToken_error {expected : UCHAR} {ts : List (Token τ)} {o : Outcome τ}
    (h : getToken expected ts = .error o) : o = .unread ∨ o = .unasked := by
  cases ts with
  | nil =>
    rw [getToken] at h
    split at h
    · exact .inl (Except.error.inj h).symm
    · exact nomatch h
  | cons t ts =>
    obtain ⟨kind, text⟩ := t
    rw [getToken] at h
    split at h
    · split at h
      · exact nomatch h
      · exact .inl (Except.error.inj h).symm
    · split at h
      · exact .inr (Except.error.inj h).symm
      · exact nomatch h

theorem perform_getToken_error {expected : UCHAR} {ts : List (Token τ)} {o : Outcome τ}
    (h : getToken expected ts = .error o) (e : Event τ) : o.perform e = o := by
  rcases getToken_error h with rfl | rfl <;> rfl

/-- The loop from a step. -/
def goOn (k : Nat) : Step τ → Outcome τ
  | .stop o => o
  | .next events s => (parseLoop k s).after events

/-- A matched token with an action above the rest of the stack, and nothing peeked at. -/
theorem matched_action {top : UCHAR} (htop : ON top ACTION_MASK = true) (k : Nat)
    (rest : List UCHAR) (token : UCHAR) (buf : Option τ) (input : List (Token τ)) :
    goOn k (matched ⟨top :: rest, token, 0, buf, input⟩) =
      (resume k rest input).perform (doAction top buf) := by
  simp only [matched, htop, if_true, ne_eq, not_true_eq_false, if_false, resume]
  cases h : getToken (topStack rest) input with
  | error o => exact (perform_getToken_error h _).symm
  | ok r => rfl

theorem matched_other {top : UCHAR} (htop : ON top ACTION_MASK = false) (k : Nat)
    (rest : List UCHAR) (token : UCHAR) (buf : Option τ) (input : List (Token τ)) :
    goOn k (matched ⟨top :: rest, token, 0, buf, input⟩) = resume k (top :: rest) input := by
  simp only [matched, htop, Bool.false_eq_true, ne_eq, not_true_eq_false, if_false, resume]
  cases h : getToken (topStack (top :: rest)) input with
  | error o => rfl
  | ok r => rfl

/-- How the loop goes on after the moves of the recognizer. -/
def follow (k : Nat) (ts : List (Token τ)) : Move τ → Outcome τ
  | .goto events q => (resume k q.stack ts).after events
  | .stop o => o

/-- After enough passes the loop has made the move for the next token. -/
def Makes (p : Pos) : Prop :=
  ∀ (t : Token τ) (ts : List (Token τ)),
    ∃ c, ∀ k, resume (k + c) p.stack (t :: ts) = follow k ts (move p t ts.head?)

theorem makes_value : Makes (τ := τ) .value := by
  rintro ⟨kind, text⟩ ts
  cases kind with
  | value => exact ⟨1, fun k => matched_action rfl k [MAKEFILE, ACCEPT] VALUE (some text) ts⟩
  | _ => exact ⟨0, fun k => rfl⟩

theorem makes_string : Makes (τ := τ) .string := by
  rintro ⟨kind, text⟩ ts
  cases kind with
  | string =>
    exact ⟨1, fun k => matched_action rfl k [MOREBUILDLINES, DOBUILDCMDS, MAKEFILE, ACCEPT]
      STRING (some text) ts⟩
  | _ => exact ⟨0, fun k => rfl⟩

theorem makes_name : Makes (τ := τ) .name := by
  rintro ⟨kind, text⟩ ts
  cases kind with
  | name =>
    exact ⟨1, fun k => matched_action rfl k [BODY, MAKEFILE, ACCEPT] NAME (some text) ts⟩
  | _ => exact ⟨1, fun k => rfl⟩

theorem makes_makefile : Makes (τ := τ) .makefile := by
  rintro ⟨kind, text⟩ ts
  cases kind with
  | newline =>
    cases ts with
    | nil => exact ⟨3, fun k => rfl⟩
    | cons t' ts =>
      obtain ⟨kind', text'⟩ := t'
      cases kind' with
      | newline => exact ⟨3, fun k => rfl⟩
      | newlineWhitespace => exact ⟨3, fun k => rfl⟩
      | _ => exact ⟨2, fun k => rfl⟩
  | newlineWhitespace =>
    exact ⟨3, fun k => matched_other rfl k [MAKEFILE, ACCEPT] NEWLINESPACE (some text) ts⟩
  | _ => exact ⟨1, fun k => rfl⟩

theorem makes_blank : Makes (τ := τ) .blank := by
  rintro ⟨kind, text⟩ ts
  cases kind with
  | newline =>
    cases ts with
    | nil => exact ⟨2, fun k => rfl⟩
    | cons t' ts =>
      obtain ⟨kind', text'⟩ := t'
      cases kind' with
      | newline => exact ⟨2, fun k => rfl⟩
      | newlineWhitespace => exact ⟨2, fun k => rfl⟩
      | _ => exact ⟨3, fun k => rfl⟩
  | newlineWhitespace =>
    exact ⟨2, fun k => matched_other rfl k [MAKEFILE, ACCEPT] NEWLINESPACE (some text) ts⟩
  | _ => exact ⟨1, fun k => rfl⟩

theorem makes_body : Makes (τ := τ) .body := by
  rintro ⟨kind, text⟩ ts
  cases kind with
  | name =>
    exact ⟨3, fun k => matched_action rfl k
      [NAMELIST, SEPARATOR, DOLASTNAME, BUILDINFO, DOBUILDCMDS, MAKEFILE, ACCEPT] NAME
      (some text) ts⟩
  | colon =>
    exact ⟨4, fun k => matched_action rfl k [BUILDINFO, DOBUILDCMDS, MAKEFILE, ACCEPT] COLON
      (some text) ts⟩
  | doublecolon =>
    exact ⟨4, fun k => matched_action rfl k [BUILDINFO, DOBUILDCMDS, MAKEFILE, ACCEPT]
      DOUBLECOLON (some text) ts⟩
  | equals =>
    exact ⟨2, fun k => matched_other rfl k [DOMACRO, MAKEFILE, ACCEPT] EQUALS (some text) ts⟩
  | _ => exact ⟨1, fun k => rfl⟩

theorem makes_targets : Makes (τ := τ) .targets := by
  rintro ⟨kind, text⟩ ts
  cases kind with
  | name =>
    exact ⟨2, fun k => matched_action rfl k
      [NAMELIST, SEPARATOR, DOLASTNAME, BUILDINFO, DOBUILDCMDS, MAKEFILE, ACCEPT] NAME
      (some text) ts⟩
  | colon =>
    exact ⟨3, fun k => matched_action rfl k [BUILDINFO, DOBUILDCMDS, MAKEFILE, ACCEPT] COLON
      (some text) ts⟩
  | doublecolon =>
    exact ⟨3, fun k => matched_action rfl k [BUILDINFO, DOBUILDCMDS, MAKEFILE, ACCEPT]
      DOUBLECOLON (some text) ts⟩
  | _ => exact ⟨2, fun k => rfl⟩

/-- The outcome of a request for a command, after `DODEPENDS`. -/
theorem matched_command (k : Nat) (token : UCHAR) (buf : Option τ) (ts : List (Token τ)) :
    (goOn k (matched ⟨Pos.string.stack, token, 0, buf, ts⟩)).perform (doAction DODEPENDS none) =
      follow k ts (.goto [doAction DODEPENDS none] .string) :=
  congrArg _ (matched_other rfl k [DONAMELIST, MOREBUILDLINES, DOBUILDCMDS, MAKEFILE, ACCEPT]
    token buf ts)

theorem makes_info : Makes (τ := τ) .info := by
  rintro ⟨kind, text⟩ ts
  cases kind with
  | name =>
    exact ⟨3, fun k => matched_action rfl k
      [NAMELIST, DODEPENDS, COMMANDS, DOBUILDCMDS, MAKEFILE, ACCEPT] NAME (some text) ts⟩
  | newline =>
    cases ts with
    | nil => exact ⟨6, fun k => rfl⟩
    | cons t' ts =>
      obtain ⟨kind', text'⟩ := t'
      cases kind' with
      | newline => exact ⟨6, fun k => rfl⟩
      | newlineWhitespace => exact ⟨6, fun k => rfl⟩
      | _ => exact ⟨5, fun k => rfl⟩
  | newlineWhitespace => exact ⟨6, fun k => matched_command k NEWLINESPACE (some text) ts⟩
  | semicolon => exact ⟨5, fun k => matched_command k SEMICOLON (some text) ts⟩
  | _ => exact ⟨1, fun k => rfl⟩

theorem makes_dependents : Makes (τ := τ) .dependents := by
  rintro ⟨kind, text⟩ ts
  cases kind with
  | name =>
    exact ⟨2, fun k => matched_action rfl k
      [NAMELIST, DODEPENDS, COMMANDS, DOBUILDCMDS, MAKEFILE, ACCEPT] NAME (some text) ts⟩
  | newline =>
    cases ts with
    | nil => exact ⟨7, fun k => rfl⟩
    | cons t' ts =>
      obtain ⟨kind', text'⟩ := t'
      cases kind' with
      | newline => exact ⟨7, fun k => rfl⟩
      | newlineWhitespace => exact ⟨7, fun k => rfl⟩
      | _ => exact ⟨6, fun k => rfl⟩
  | newlineWhitespace => exact ⟨5, fun k => matched_command k NEWLINESPACE (some text) ts⟩
  | semicolon => exact ⟨4, fun k => matched_command k SEMICOLON (some text) ts⟩
  | _ => exact ⟨3, fun k => rfl⟩

theorem makes_more : Makes (τ := τ) .more := by
  rintro ⟨kind, text⟩ ts
  cases kind with
  | newline =>
    cases ts with
    | nil => exact ⟨5, fun k => rfl⟩
    | cons t' ts =>
      obtain ⟨kind', text'⟩ := t'
      cases kind' with
      | newline => exact ⟨2, fun k => rfl⟩
      | newlineWhitespace => exact ⟨2, fun k => rfl⟩
      | _ => exact ⟨4, fun k => rfl⟩
  | newlineWhitespace =>
    exact ⟨2, fun k => matched_other rfl k
      [DONAMELIST, MOREBUILDLINES, DOBUILDCMDS, MAKEFILE, ACCEPT] NEWLINESPACE (some text) ts⟩
  | _ => exact ⟨1, fun k => rfl⟩

theorem makes (p : Pos) : Makes (τ := τ) p := by
  cases p with
  | makefile => exact makes_makefile
  | blank => exact makes_blank
  | name => exact makes_name
  | body => exact makes_body
  | targets => exact makes_targets
  | info => exact makes_info
  | dependents => exact makes_dependents
  | string => exact makes_string
  | more => exact makes_more
  | value => exact makes_value

theorem resume_end (p : Pos) (k : Nat) :
    resume (k + 6) p.stack ([] : List (Token τ)) = atEnd p := by
  cases p <;> rfl

/-- What a run of `parse` comes to from each place: the loop needs only so many passes. -/
theorem resume_recognize (ts : List (Token τ)) (p : Pos) :
    ∃ n, ∀ k, resume (k + n) p.stack ts = recognize ts p := by
  induction ts generalizing p with
  | nil => exact ⟨6, resume_end p⟩
  | cons t ts ih =>
    obtain ⟨c, hc⟩ := makes p t ts
    rw [recognize]
    cases hmove : move p t ts.head? with
    | stop o =>
      refine ⟨c, fun k => ?_⟩
      rw [hc k, hmove]
      rfl
    | goto events q =>
      obtain ⟨n, hn⟩ := ih q
      refine ⟨n + c, fun k => ?_⟩
      rw [← Nat.add_assoc, hc (k + n), hmove, follow, hn k]

theorem parse_recognize (ts : List (Token τ)) :
    ∃ n, ∀ k, parse (k + n) ts = recognize ts .makefile := resume_recognize ts .makefile

end SdkTools.Nmake.Makefile
