import ThreeAddress.Proofs.PlainTranslation

/-!
# What is said about a program of the grammar

If the lexemes of a source are derived by a program of the grammar, then the
derivation says what the generator will report, for every limit on the nesting.
This module computes the reports from the derivation and proves that the
generator makes them.

* `roles` gives each token of a derivation its part: it declares a name, it is
  assigned to, it is an operand, or none of these.
* `events` is the story of a run on a derivation, a number of levels being left:
  each token is read in its role or skipped, a construct beyond the limit is
  noted, and a lexeme is missed.
* `Journal.tell` carries out a story. A journal is the part of a state that the
  story is about: what is left to read, the names, and what was said.
* `Generate.Tells` says of a procedure that its runs follow a story, and
  `program_tells` says this of a whole program.

Where the story leaves the plain reading is seen in `testEvents`. If a choice or
a loop stands right at the limit, the first side of its condition is refused.
What is skipped then is the rest of the statement, up to the lexeme that ends
it, and the relation and the keyword behind the condition are missed there.
-/

set_option autoImplicit false

namespace ThreeAddress

/-! ### Roles -/

/-- The part that a token plays for the names of a program. -/
inductive Role where
  /-- The name is declared. -/
  | declares (kind : SymbolKind)
  /-- The name is assigned to. -/
  | target
  /-- The name stands for its value. -/
  | operand
  /-- None of these. The name of the program is plain too. -/
  | plain
deriving DecidableEq, Repr, Inhabited

/-- The roles of the tokens of a phrase. -/
def Phrase.roles : {level : Level} → Phrase level → List Role
  | _, name _ => [.operand]
  | _, number _ => [.plain]
  | _, parens inner => .plain :: inner.roles ++ [.plain]
  | _, factor first => first.roles
  | _, product front _ last => front.roles ++ .plain :: last.roles
  | _, term sign first => (signLexemes sign).map (fun _ => .plain) ++ first.roles
  | _, sum front _ last => front.roles ++ .plain :: last.roles
  | _, expression whole => whole.roles

/-- The roles of the tokens of a condition. -/
def Comparison.roles (c : Comparison) : List Role :=
  c.lhs.roles ++ .plain :: c.rhs.roles

/-- The roles of the tokens of a statement. -/
def Clause.roles : {extent : Extent} → Clause extent → List Role
  | _, empty => []
  | _, assign _ value => .target :: .plain :: value.roles
  | _, choice test body => .plain :: test.roles ++ .plain :: body.roles
  | _, loop test body => .plain :: test.roles ++ .plain :: body.roles
  | _, compound body => .plain :: body.roles ++ [.plain]
  | _, one first => first.roles
  | _, next front last => front.roles ++ .plain :: last.roles

/-- The roles of the tokens of a definition. -/
def Definition.roles : List Role := [.declares .const, .plain, .plain]

/-- The roles of the tokens of one item and of `rest`, each behind a comma. -/
def Section.itemRoles {α : Type} (roles : List Role) (rest : List α) : List Role :=
  roles ++ rest.flatMap fun _ => .plain :: roles

/-- The roles of the tokens of a section: a keyword, the items and a semicolon. -/
def Section.roles : Section → List Role
  | consts _ rest => .plain :: itemRoles Definition.roles rest ++ [.plain]
  | vars _ rest => .plain :: itemRoles [.declares .var] rest ++ [.plain]

/-- The roles of the tokens of a program. -/
def Program.roles (p : Program) : List Role :=
  .plain :: .plain :: p.sections.flatMap Section.roles ++ p.body.roles

/-- Every token of a phrase has a role. -/
@[simp] theorem Phrase.length_roles {level : Level} (p : Phrase level) :
    p.roles.length = p.lexemes.length := by
  induction p with
  | name text => rfl
  | number digits => rfl
  | parens inner ih => simp [roles, lexemes, ih]
  | factor first ih => exact ih
  | product front op last ihf ihl => simp [roles, lexemes, ihf, ihl]
  | term sign first ih => simp [roles, lexemes, ih]
  | sum front op last ihf ihl => simp [roles, lexemes, ihf, ihl]
  | expression whole ih => exact ih

/-- Every token of a condition has a role. -/
@[simp] theorem Comparison.length_roles (c : Comparison) :
    c.roles.length = c.lexemes.length := by
  simp [roles, lexemes]

/-- Every token of a statement has a role. -/
@[simp] theorem Clause.length_roles {extent : Extent} (c : Clause extent) :
    c.roles.length = c.lexemes.length := by
  induction c with
  | empty => rfl
  | assign name value => simp [roles, lexemes]
  | choice test body ih => simp [roles, lexemes, ih]
  | loop test body ih => simp [roles, lexemes, ih]
  | compound body ih => simp [roles, lexemes, ih]
  | one first ih => exact ih
  | next front last ihf ihl => simp [roles, lexemes, ihf, ihl]

/-! ### Events -/

/-- What happens in a run on a program of the grammar. -/
inductive Event where
  /-- The current token is read in its role. -/
  | read (role : Role)
  /-- The current token is passed over, whatever its role is. -/
  | skip (role : Role)
  /-- A construct at the current token is found to lie too deep. -/
  | note
  /-- Something else was expected than the current token. -/
  | miss (what : String)
deriving DecidableEq, Repr, Inhabited

/-- The story of a construct that is a level of its own. Without a level left it
is noted and skipped. -/
def levelEvents (roles : List Role) (inside : Nat → List Event) : Nat → List Event
  | 0 => .note :: roles.map .skip
  | room + 1 => inside room

/-- The story of a phrase, `room` levels being left. -/
def Phrase.events : {level : Level} → Phrase level → (room : Nat) → List Event
  | _, name _, _ => [.read .operand]
  | _, number _, _ => [.read .plain]
  | _, parens inner, room => .read .plain :: inner.events room ++ [.read .plain]
  | _, factor first, room => first.events room
  | _, product front _ last, room => front.events room ++ .read .plain :: last.events room
  | _, term sign first, room =>
    (signLexemes sign).map (fun _ => .read .plain) ++ first.events room
  | _, sum front _ last, room => front.events room ++ .read .plain :: last.events room
  | _, expression whole, room => levelEvents whole.roles whole.events room

/-- The story of a condition, of the keyword `closing` behind it and of a body with
the given roles and story. If no level is left the first side is refused, and all
is skipped up to the end of the body. There the relation and the keyword are
missed, and the second side and the body are refused as well. -/
def testEvents (closing : Lexeme) (test : Comparison) (roles : List Role)
    (body : Nat → List Event) : Nat → List Event
  | 0 =>
    .note :: (test.roles ++ .plain :: roles).map .skip ++
      [.miss "relational operator", .note, .miss closing.describe, .note]
  | room + 1 =>
    test.lhs.events (room + 1) ++ .read .plain :: test.rhs.events (room + 1) ++
      .read .plain :: body (room + 1)

/-- The story of a statement, `room` levels being left. -/
def Clause.events : {extent : Extent} → Clause extent → (room : Nat) → List Event
  | _, empty, room => levelEvents [] (fun _ => []) room
  | _, assign name value, room =>
    levelEvents (assign name value).roles
      (fun room => .read .target :: .read .plain :: value.events room) room
  | _, choice test body, room =>
    levelEvents (choice test body).roles
      (fun room => .read .plain ::
        testEvents (.keyword .thenKw) test body.roles body.events room) room
  | _, loop test body, room =>
    levelEvents (loop test body).roles
      (fun room => .read .plain ::
        testEvents (.keyword .doKw) test body.roles body.events room) room
  | _, compound body, room =>
    levelEvents (compound body).roles
      (fun room => .read .plain :: body.events room ++ [.read .plain]) room
  | _, one first, room => first.events room
  | _, next front last, room => front.events room ++ .read .plain :: last.events room

/-- The story of a program, `room` being the limit on the nesting. The name and the
sections are read as they stand. -/
def Program.events (p : Program) (room : Nat) : List Event :=
  (.plain :: .plain :: p.sections.flatMap Section.roles).map .read ++ p.body.events room

/-! ### Journals -/

/-- What is reported about a lexeme for its role. -/
def Role.problem? (symbols : SymbolTable) : Role → Lexeme → Option Problem
  | declares _, .ident name =>
    if symbols.contains name then some (.duplicateDeclaration name) else none
  | target, .ident name =>
    match symbols.kindOf? name with
    | some .var => none
    | some .const => some (.assignToConstant name)
    | none => some (.undeclared name)
  | operand, .ident name =>
    if symbols.contains name then none else some (.undeclared name)
  | _, _ => none

/-- The declaration that a lexeme on a line makes in its role. -/
def Role.declaration? (line : Nat) : Role → Lexeme → Option Symbol
  | declares kind, .ident name => some ⟨name, kind, line⟩
  | _, _ => none

/-- The table after a declaration, which has no effect if the name is taken. -/
def SymbolTable.add (table : SymbolTable) (entry : Symbol) : SymbolTable :=
  (table.declare? entry).getD table

/-- No number stands here. -/
def NoNumber (rest : List Lexeme) : Prop :=
  ∀ digits, rest.head? ≠ some (.number digits)

/-- What stands here is no number of more than `maxDigits` digits. -/
def Short (maxDigits : Nat) (rest : List Lexeme) : Prop :=
  ∀ digits, rest.head? = some (.number digits) → digits.length ≤ maxDigits

/-- Where no number stands, none is too long. -/
theorem NoNumber.short {rest : List Lexeme} (h : NoNumber rest) (maxDigits : Nat) :
    Short maxDigits rest :=
  fun digits hhead => absurd hhead (h digits)

/-- What is not too long is not reported as such. -/
theorem Short.overlong? {maxDigits : Nat} {stream : TokenStream}
    (h : Short maxDigits stream.lexemes) :
    stream.tokens.head?.bind (Token.overlong? maxDigits) = none := by
  unfold Short TokenStream.lexemes at h
  cases htokens : stream.tokens with
  | nil => rfl
  | cons token rest =>
      rw [htokens] at h
      show Token.overlong? maxDigits token = none
      unfold Token.overlong?
      split
      · next digits hlexeme => exact if_neg (Nat.not_lt.mpr (h digits (congrArg some hlexeme)))
      · rfl

/-- What starts with no number has nothing too long in front. -/
theorem NoNumber.overlong? {stream : TokenStream} (h : NoNumber stream.lexemes)
    (maxDigits : Nat) : stream.tokens.head?.bind (Token.overlong? maxDigits) = none :=
  (h.short maxDigits).overlong?

/-- What a run is known by as far as its reports go. -/
structure Journal where
  input : TokenStream
  symbols : SymbolTable
  diagnostics : List Diagnostic
  depthReported : Bool

namespace Journal

/-- The journal before the first token. -/
def start (input : TokenStream) : Journal where
  input := input
  symbols := .empty
  diagnostics := []
  depthReported := false

/-- One more diagnostic. -/
def report (j : Journal) (diagnostic : Diagnostic) : Journal :=
  { j with diagnostics := j.diagnostics ++ [diagnostic] }

/-- The current token is left behind, and the next one is checked if it is a
number. -/
def advance (j : Journal) (maxDigits : Nat) : Journal :=
  { j with
    input := j.input.tail
    diagnostics := j.diagnostics ++
      (j.input.tail.tokens.head?.bind (Token.overlong? maxDigits)).toList }

/-- The current token is examined in a role: it may declare a name, and it may
deserve a report at its line. -/
def examine (j : Journal) (role : Role) : Journal :=
  match j.input.current? with
  | some lexeme =>
    { j with
      symbols := ((role.declaration? j.input.line lexeme).map j.symbols.add).getD j.symbols
      diagnostics := j.diagnostics ++
        ((role.problem? j.symbols lexeme).map (Diagnostic.mk j.input.line)).toList }
  | none => j

/-- The note that a construct lies too deep, which is made once. -/
def noteDepth (j : Journal) (max : Nat) : Journal :=
  if j.depthReported then j
  else { j with depthReported := true }.report ⟨j.input.line, .nestingTooDeep max⟩

/-- The journal after one event. -/
def after (options : Options) (j : Journal) : Event → Journal
  | .read role => (j.examine role).advance options.maxDigits.toNat
  | .skip _ => j.advance options.maxDigits.toNat
  | .note => j.noteDepth options.maxDepth.toNat
  | .miss what =>
    j.report ⟨j.input.line, .expected what (Lexeme.describe? j.input.current?)⟩

/-- The journal after a story. -/
def tell (options : Options) (j : Journal) (events : List Event) : Journal :=
  events.foldl (after options) j

/-- The empty story changes nothing. -/
@[simp] theorem tell_nil (options : Options) (j : Journal) : j.tell options [] = j := rfl

/-- A story is told event by event. -/
@[simp] theorem tell_cons (options : Options) (j : Journal) (event : Event)
    (events : List Event) :
    j.tell options (event :: events) = (j.after options event).tell options events := rfl

/-- One story after another. -/
theorem tell_append (options : Options) (j : Journal) (events more : List Event) :
    j.tell options (events ++ more) = (j.tell options events).tell options more :=
  List.foldl_append

/-- How a current lexeme is examined. -/
theorem examine_of_current? {j : Journal} {lexeme : Lexeme}
    (h : j.input.current? = some lexeme) (role : Role) :
    j.examine role =
      { j with
        symbols := ((role.declaration? j.input.line lexeme).map j.symbols.add).getD j.symbols
        diagnostics := j.diagnostics ++
          ((role.problem? j.symbols lexeme).map (Diagnostic.mk j.input.line)).toList } := by
  unfold examine
  rw [h]

/-- An examination does not move the input. -/
@[simp] theorem input_examine (j : Journal) (role : Role) : (j.examine role).input = j.input := by
  unfold examine
  split
  · rfl
  · rfl

end Journal

/-- The number of levels that are left at a depth. -/
def Options.room (options : Options) (depth : Nat) : Nat :=
  options.maxDepth.toNat - depth

/-! ### Skipping a construct -/

/-- What is skipped and what is left is all. -/
theorem constructLength_add_length (opened : Nat) (tokens : List Token) :
    constructLength opened tokens + (afterConstruct opened (tokens.map Token.lexeme)).length
      = tokens.length := by
  induction tokens generalizing opened with
  | nil => rfl
  | cons token rest ih =>
      simp only [constructLength, List.map_cons, afterConstruct]
      cases token.lexeme.bracketing <;> cases opened <;>
        simp only [List.length_cons, List.length_map, Nat.zero_add]
      all_goals rw [Nat.add_right_comm, ih]

/-- The brackets of a phrase are parentheses, and they match. -/
theorem Phrase.afterConstruct_append {level : Level} (p : Phrase level) (opened : Nat)
    (rest : List Lexeme) :
    afterConstruct opened (p.lexemes ++ rest) = afterConstruct opened rest := by
  induction p generalizing opened rest with
  | name text => simp [lexemes, afterConstruct, Lexeme.bracketing]
  | number digits => simp [lexemes, afterConstruct, Lexeme.bracketing]
  | parens inner ih => simp [lexemes, afterConstruct, Lexeme.bracketing, ih]
  | factor first ih => exact ih opened rest
  | product front op last ihf ihl =>
      simp [lexemes, afterConstruct, Lexeme.bracketing, ihf, ihl]
  | term sign first ih =>
      cases sign <;> simp [lexemes, signLexemes, afterConstruct, Lexeme.bracketing, ih]
  | sum front op last ihf ihl =>
      simp [lexemes, afterConstruct, Lexeme.bracketing, ihf, ihl]
  | expression whole ih => exact ih opened rest

/-- A condition has no brackets of its own. -/
theorem Comparison.afterConstruct_append (c : Comparison) (opened : Nat) (rest : List Lexeme) :
    afterConstruct opened (c.lexemes ++ rest) = afterConstruct opened rest := by
  simp [lexemes, afterConstruct, Lexeme.bracketing, Phrase.afterConstruct_append]

/-- The brackets of a statement match, and its semicolons stand in brackets. The
semicolons of a sequence stand in those around it. -/
theorem Clause.afterConstruct_append {extent : Extent} (c : Clause extent) {opened : Nat}
    (hopened : extent = .sequence → opened ≠ 0) (rest : List Lexeme) :
    afterConstruct opened (c.lexemes ++ rest) = afterConstruct opened rest := by
  induction c generalizing opened rest with
  | empty => rfl
  | assign name value =>
      simp [lexemes, afterConstruct, Lexeme.bracketing, Phrase.afterConstruct_append]
  | choice test body ih =>
      simp [lexemes, afterConstruct, Lexeme.bracketing, Comparison.afterConstruct_append, ih]
  | loop test body ih =>
      simp [lexemes, afterConstruct, Lexeme.bracketing, Comparison.afterConstruct_append, ih]
  | compound body ih => simp [lexemes, afterConstruct, Lexeme.bracketing, ih]
  | one first ih => exact ih (by simp) rest
  | next front last ihf ihl =>
      -- The semicolon between the two stands in a bracket, so it does not end the construct.
      obtain ⟨around, rfl⟩ := Nat.exists_eq_succ_of_ne_zero (hopened rfl)
      simp [lexemes, afterConstruct, Lexeme.bracketing, ihf, ihl]

namespace Generate

/-- The journal of a state. -/
def State.journal (s : State) : Journal where
  input := s.input
  symbols := s.symbols
  diagnostics := s.diagnostics.toList
  depthReported := s.depthReported

namespace State

/-- A report of a state is one of its journal. -/
@[simp] theorem journal_report (s : State) (diagnostic : Diagnostic) :
    (s.report diagnostic).journal = s.journal.report diagnostic := by
  simp [journal, report, Journal.report]

/-- Moving on in a state is moving on in its journal. -/
@[simp] theorem journal_advance (s : State) (maxDigits : Nat) :
    (s.advance maxDigits).journal = s.journal.advance maxDigits := by
  unfold advance checkNumber overlong?
  cases h : s.input.tail.tokens.head?.bind (Token.overlong? maxDigits) with
  | none => simp [journal, Journal.advance, h]
  | some diagnostic => simp [journal, Journal.advance, report, h]

/-- Nothing is said of a current token that is not too long. -/
theorem checkNumber_of_short {s : State} {maxDigits : Nat} (h : Short maxDigits s.input.lexemes) :
    s.checkNumber maxDigits = s := by
  unfold checkNumber overlong?
  rw [h.overlong?]

/-- Nothing is said on the way to what is not too long. -/
theorem advance_of_short {s : State} {lexeme : Lexeme} {rest : List Lexeme} {maxDigits : Nat}
    (hlex : s.input.lexemes = lexeme :: rest) (hrest : Short maxDigits rest) :
    s.advance maxDigits = { s with input := s.input.tail } := by
  have htail : s.input.tail.lexemes = rest := by
    rw [TokenStream.lexemes_tail, hlex]
    rfl
  exact checkNumber_of_short (htail.symm ▸ hrest)

/-- The note of the depth is made in the journal too. -/
@[simp] theorem journal_noteDepth (s : State) (max : Nat) :
    (s.noteDepth max).journal = s.journal.noteDepth max := by
  unfold noteDepth Journal.noteDepth
  show State.journal (if s.depthReported then s else _) = if s.depthReported then _ else _
  split
  · rfl
  · exact journal_report _ _

end State

/-! ### Procedures that tell a story -/

/-- From `s` to `s'` a story happened, and the lexemes in `rest` are left. -/
structure Told (options : Options) (rest : List Lexeme) (events : List Event) (s s' : State) :
    Prop where
  depth : s'.depth = s.depth
  lexemes : s'.input.lexemes = rest
  journal : s'.journal = s.journal.tell options events

/-- The runs of `x` at a depth, the lexemes in `front` and then those in `rest` being
left, read what is in `front` and follow a story. -/
def Tells {α : Type} (options : Options) (depth : Nat) (front rest : List Lexeme)
    (events : List Event) (x : Generate α) : Prop :=
  ∀ s, s.depth = depth → s.input.lexemes = front ++ rest →
    Ends (fun _ => True) x options s fun _ s' => Told options rest events s s'

section
variable {α β : Type} {options : Options} {depth : Nat} {front rest : List Lexeme}
  {events : List Event}

/-- One story after another. -/
theorem Told.trans {between : List Lexeme} {more : List Event} {s s' s'' : State}
    (h : Told options between events s s') (h' : Told options rest more s' s'') :
    Told options rest (events ++ more) s s'' := by
  refine ⟨h'.depth.trans h.depth, h'.lexemes, ?_⟩
  rw [h'.journal, h.journal, Journal.tell_append]

/-- The current token is read in its role, if the state that is left behind has
examined it. -/
theorem Told.read {lexeme : Lexeme} {role : Role} {s s' : State}
    (hlex : s.input.lexemes = lexeme :: rest) (hdepth : s'.depth = s.depth)
    (hjournal : s'.journal = s.journal.examine role) :
    Told options rest [.read role] s (s'.advance options.maxDigits.toNat) := by
  -- To examine a token moves nothing, so the token is still current in `s'`.
  have hinput : s'.input = s.input := by
    have hsame := congrArg Journal.input hjournal
    rw [Journal.input_examine] at hsame
    exact hsame
  refine ⟨(State.depth_advance _ _).trans hdepth, ?_, ?_⟩
  · rw [State.input_advance, TokenStream.lexemes_tail, hinput, hlex]
    rfl
  · rw [State.journal_advance, hjournal]
    rfl

/-- A plain token is read by moving on. -/
theorem Told.advance {lexeme : Lexeme} {s : State} (hlex : s.input.lexemes = lexeme :: rest) :
    Told options rest [.read .plain] s (s.advance options.maxDigits.toNat) := by
  refine Told.read hlex rfl ?_
  unfold Journal.examine
  split
  · simp [Role.problem?, Role.declaration?]
  · rfl

/-- The same if the token is examined only after moving on, and what follows it is
not too long. -/
theorem Told.late {lexeme : Lexeme} {role : Role} {s s' : State}
    (hlex : s.input.lexemes = lexeme :: rest) (hrest : Short options.maxDigits.toNat rest)
    (hdepth : s'.depth = s.depth)
    (hjournal : s'.journal = { s.journal.examine role with input := s.input.tail }) :
    Told options rest [.read role] s s' := by
  have hinput : s'.input = s.input.tail := congrArg Journal.input hjournal
  have htail : s.input.tail.lexemes = rest := by
    rw [TokenStream.lexemes_tail, hlex]
    rfl
  refine ⟨hdepth, ?_, ?_⟩
  · rw [hinput, htail]
  · -- Moving on has nothing to say about the next token, so it does not matter which came first.
    have hshort := Short.overlong? (htail.symm ▸ hrest)
    rw [hjournal, Journal.tell_cons, Journal.tell_nil, Journal.after, Journal.advance,
      Journal.input_examine]
    show _ = Journal.mk s.input.tail _ (_ ++ Option.toList _) _
    rw [show s.journal.input = s.input from rfl, hshort, Option.toList_none, List.append_nil]

/-- The same lexemes and the same story in another form. -/
theorem Tells.congr {front' : List Lexeme} {events' : List Event} {x : Generate α}
    (h : Tells options depth front rest events x) (hfront : front = front')
    (hevents : events = events') : Tells options depth front' rest events' x := by
  subst hfront hevents
  exact h

/-- One procedure after another tells one story after another. -/
theorem Tells.bind {front' : List Lexeme} {more : List Event} {x : Generate α}
    {f : α → Generate β} (hx : Tells options depth front (front' ++ rest) events x)
    (hf : ∀ a, Tells options depth front' rest more (f a)) :
    Tells options depth (front ++ front') rest (events ++ more) (x >>= f) := by
  intro s hdepth hlex
  rw [List.append_assoc] at hlex
  rw [ends_bind]
  refine (hx s hdepth hlex).mono ?_
  intro a s₁ hfirst
  refine (hf a s₁ (hfirst.depth.trans hdepth) hfirst.lexemes).mono ?_
  intro b s₂ hsecond
  exact hfirst.trans hsecond

/-- A procedure followed by one that reads nothing. -/
theorem Tells.bind_nil {more : List Event} {x : Generate α} {f : α → Generate β}
    (hx : Tells options depth front rest events x)
    (hf : ∀ a, Tells options depth [] rest more (f a)) :
    Tells options depth front rest (events ++ more) (x >>= f) := by
  have hboth : Tells options depth (front ++ []) rest (events ++ more) (x >>= f) := hx.bind hf
  exact hboth.congr (List.append_nil _) rfl

/-- A procedure followed by one that tells nothing. -/
theorem Tells.quiet {x : Generate α} {f : α → Generate β}
    (hx : Tells options depth front rest events x)
    (hf : ∀ a, Tells options depth [] rest [] (f a)) :
    Tells options depth front rest events (x >>= f) :=
  (hx.bind_nil hf).congr rfl (List.append_nil _)

/-- A procedure that looks at the current lexeme first. -/
theorem Tells.look {f : Option Lexeme → Generate α}
    (h : Tells options depth front rest events (f (front ++ rest).head?)) :
    Tells options depth front rest events (current? >>= f) := by
  intro s hdepth hlex
  rw [ends_bind, ends_current?, TokenStream.current?_eq_head?, hlex]
  exact h s hdepth hlex

/-- What changes neither the depth nor the journal tells nothing. -/
theorem tells_of_keeps {x : Generate α}
    (h : ∀ s, Ends (fun _ => True) x options s fun _ s' =>
      s'.depth = s.depth ∧ s'.journal = s.journal) :
    Tells options depth [] rest [] x := by
  intro s _ hlex
  refine (h s).mono ?_
  intro a s' hkeeps
  refine ⟨hkeeps.1, ?_, hkeeps.2⟩
  have hinput : s'.input = s.input := congrArg Journal.input hkeeps.2
  rw [hinput, hlex]
  rfl

/-- To answer at once tells nothing. -/
theorem tells_pure (a : α) : Tells options depth [] rest [] (pure a) :=
  tells_of_keeps fun _ => ⟨rfl, rfl⟩

/-- Work on the code tells nothing. -/
theorem tells_onCode (action : EStateM Fault Store α) :
    Tells options depth [] rest [] (onCode action) := by
  refine tells_of_keeps fun s => ?_
  unfold Ends onCode
  cases action s.code with
  | ok a code => exact ⟨rfl, rfl⟩
  | error fault code => trivial

/-- An instruction is no part of the story. -/
theorem tells_emit (instruction : Instruction) :
    Tells options depth [] rest [] (emit instruction) :=
  tells_onCode _

/-- The assignment to a temporary is no part of the story. -/
theorem tells_emitTemp (value : Rvalue) : Tells options depth [] rest [] (emitTemp value) :=
  tells_of_keeps fun _ => ends_emitTemp_of_room ⟨rfl, rfl⟩

/-- Resolving jumps is no part of the story. -/
theorem tells_backpatchHere (list : JumpList) :
    Tells options depth [] rest [] (backpatchHere list) := by
  -- The address is asked for, and then the code is changed. Neither is a part of the story.
  have hnext : Tells options depth [] rest [] nextAddress := tells_of_keeps fun _ => ⟨rfl, rfl⟩
  exact hnext.bind fun here => (tells_onCode (list.backpatch here)).bind fun _ => tells_pure here

/-- Moving past a lexeme is reading it in no role of its own. -/
theorem tells_advance (lexeme : Lexeme) :
    Tells options depth [lexeme] rest [.read .plain] advance :=
  fun _ _ hlex => Told.advance hlex

/-- An expected lexeme that is there is read. -/
theorem tells_expect (lexeme : Lexeme) :
    Tells options depth [lexeme] rest [.read .plain] (expect lexeme) :=
  fun _ _ hlex => ends_expect_of_lexemes hlex (Told.advance hlex)

/-- A lexeme that is not there is missed. -/
theorem tells_expect_miss {lexeme : Lexeme} (h : rest.head? ≠ some lexeme) :
    Tells options depth [] rest [.miss lexeme.describe] (expect lexeme) := by
  intro s _ hlex
  have hlex₀ : s.input.lexemes = rest := hlex
  have hcurrent : s.input.current? ≠ some lexeme := by
    rw [TokenStream.current?_eq_head?, hlex₀]
    exact h
  rw [ends_expect, if_neg hcurrent]
  exact ⟨rfl, hlex₀, State.journal_report _ _⟩

/-- What is expected and not there is missed. -/
theorem tells_expected (what : String) :
    Tells options depth [] rest [.miss what] (expected what) :=
  fun _ _ hlex => ⟨rfl, hlex, State.journal_report _ _⟩

/-- A lexeme that is there is read before what depends on it. -/
theorem Tells.eat {lexeme : Lexeme} {f : Bool → Generate α}
    (h : Tells options depth front rest events (f true)) :
    Tells options depth (lexeme :: front) rest (.read .plain :: events)
      (eat lexeme >>= f) := by
  intro s hdepth hlex
  have hlex₀ : s.input.lexemes = lexeme :: (front ++ rest) := hlex
  have hread : Told options (front ++ rest) [.read .plain] s _ := Told.advance hlex₀
  rw [ends_bind, ends_eat, if_pos (TokenStream.current?_of_lexemes hlex₀)]
  refine (h _ (hread.depth.trans hdepth) hread.lexemes).mono ?_
  intro a s' htold
  exact hread.trans htold

/-- The assignment operator that is there is read. -/
theorem tells_expectBecomes :
    Tells options depth [.punct .becomes] rest [.read .plain] expectBecomes :=
  Tells.eat (tells_pure ())

/-- A lexeme that is not there is not read. -/
theorem Tells.eat_of_ne {lexeme : Lexeme} {f : Bool → Generate α}
    (hne : (front ++ rest).head? ≠ some lexeme)
    (h : Tells options depth front rest events (f false)) :
    Tells options depth front rest events (Generate.eat lexeme >>= f) := by
  intro s hdepth hlex
  rw [ends_bind, ends_eat, TokenStream.current?_eq_head?, hlex, if_neg hne]
  exact h s hdepth hlex

/-- A name that is there is read. Its role is examined by the caller. -/
theorem tells_ident? (name what : String) :
    Tells options depth [.ident name] rest [.read .plain] (ident? what) := by
  refine Tells.look ?_
  exact (tells_advance (.ident name)).bind fun _ => tells_pure (some name)

/-! ### Levels -/

/-- Skipping is told token by token. -/
theorem State.journal_skip (s : State) (roles : List Role) :
    (s.skip options.maxDigits.toNat roles.length).journal
      = s.journal.tell options (roles.map .skip) := by
  induction roles generalizing s with
  | nil => rfl
  | cons role roles ih =>
      rw [List.length_cons, State.skip, ih, State.journal_advance]
      rfl

/-- A construct that is refused is noted and skipped, up to where skipping stops. -/
theorem Told.refuse {roles : List Role} {s : State} (hlen : roles.length = front.length)
    (hlex : s.input.lexemes = front ++ rest) (hstop : afterConstruct 0 (front ++ rest) = rest) :
    Told options rest (.note :: roles.map .skip) s (s.refuse options) := by
  refine ⟨State.depth_refuse s options, ?_, ?_⟩
  · rw [State.lexemes_refuse, hlex, hstop]
  · -- As many tokens are skipped as there are lexemes in front of the stop.
    have hcount := constructLength_add_length 0 s.input.tokens
    have htotal : s.input.tokens.length = front.length + rest.length := by
      rw [← List.length_append, ← hlex, TokenStream.lexemes, List.length_map]
    rw [show s.input.tokens.map Token.lexeme = front ++ rest from hlex, hstop] at hcount
    have hlength : constructLength 0 s.input.tokens = roles.length := by omega
    unfold State.refuse
    rw [hlength, State.journal_skip, State.journal_noteDepth]
    rfl

/-- A construct with a level of its own: the level is entered, or else the construct is
noted and skipped. -/
theorem tells_level {x body : Generate α} {instead : α} (hlevel : OwnLevel options x body instead)
    {roles : List Role} {inside : Nat → List Event} (hlen : roles.length = front.length)
    (hstop : options.room depth = 0 → afterConstruct 0 (front ++ rest) = rest)
    (hbody : ∀ room, options.room depth = room + 1 → options.room (depth + 1) = room →
      Tells options (depth + 1) front rest (inside room) body) :
    Tells options depth front rest (levelEvents roles inside (options.room depth)) x := by
  intro s hdepth hlex
  rw [hlevel]
  -- Whether a level is left decides between the two sides of `levelEvents`.
  cases hroom : options.room depth with
  | zero =>
      have hfull : ¬ s.depth < options.maxDepth.toNat := by
        unfold Options.room at hroom
        omega
      rw [if_neg hfull]
      exact Told.refuse hlen hlex (hstop hroom)
  | succ room =>
      have hfree : s.depth < options.maxDepth.toNat := by
        unfold Options.room at hroom
        omega
      have hinside : options.room (depth + 1) = room := by
        unfold Options.room at hroom ⊢
        omega
      rw [if_pos hfree]
      refine (hbody room hroom hinside { s with depth := s.depth + 1 }
        (by rw [hdepth]) hlex).mono ?_
      intro a s₁ htold
      exact ⟨rfl, htold.lexemes, htold.journal⟩

/-- An expression is a level of its own. -/
theorem tells_expression {roles : List Role} {inside : Nat → List Event}
    (hlen : roles.length = front.length)
    (hstop : options.room depth = 0 → afterConstruct 0 (front ++ rest) = rest)
    (hbody : ∀ fuel room, options.room depth = room + 1 → options.room (depth + 1) = room →
      Tells options (depth + 1) front rest (inside room)
        (signedTerm (expression fuel) fuel >>= chain sumOp? (term (expression fuel) fuel) fuel))
    (fuel : Nat) :
    Tells options depth front rest (levelEvents roles inside (options.room depth))
      (expression fuel) := by
  cases fuel with
  | zero => exact fun _ _ _ => trivial
  | succ fuel => exact tells_level (expression_ownLevel options fuel) hlen hstop (hbody fuel)

/-- A statement is a level of its own. -/
theorem tells_statement {roles : List Role} {inside : Nat → List Event} {pending : JumpList}
    (hlen : roles.length = front.length)
    (hstop : options.room depth = 0 → afterConstruct 0 (front ++ rest) = rest)
    (hbody : ∀ fuel room, options.room depth = room + 1 → options.room (depth + 1) = room →
      Tells options (depth + 1) front rest (inside room)
        (construct (statement fuel) fuel pending)) (fuel : Nat) :
    Tells options depth front rest (levelEvents roles inside (options.room depth))
      (statement fuel pending) := by
  cases fuel with
  | zero => exact fun _ _ _ => trivial
  | succ fuel =>
      exact tells_level (statement_ownLevel options fuel pending) hlen hstop (hbody fuel)

/-- An expression is refused if no level is left. -/
theorem tells_expression_refused (roles : List Role) (hroom : options.room depth = 0)
    (hlen : roles.length = front.length) (hstop : afterConstruct 0 (front ++ rest) = rest)
    (fuel : Nat) :
    Tells options depth front rest (.note :: roles.map .skip) (expression fuel) := by
  have hlevel : Tells options depth front rest
      (levelEvents roles (fun _ => []) (options.room depth)) (expression fuel) := by
    refine tells_expression hlen (fun _ => hstop) ?_ fuel
    intro _ room hsome
    exact absurd (hroom.symm.trans hsome) (Nat.succ_ne_zero room).symm
  rw [hroom] at hlevel
  exact hlevel

/-- A statement is refused if no level is left. Here nothing of it is there. -/
theorem tells_statement_refused (hroom : options.room depth = 0)
    (hstop : afterConstruct 0 rest = rest) (fuel : Nat) (pending : JumpList) :
    Tells options depth [] rest [.note] (statement fuel pending) := by
  have hlevel : Tells options depth [] rest
      (levelEvents [] (fun _ => []) (options.room depth)) (statement fuel pending) := by
    have hnone : afterConstruct 0 ([] ++ rest) = rest := hstop
    refine tells_statement rfl (fun _ => hnone) ?_ fuel
    intro _ room hsome
    exact absurd (hroom.symm.trans hsome) (Nat.succ_ne_zero room).symm
  rw [hroom] at hlevel
  exact hlevel

/-! ### Expressions -/

/-- A chain stops at what is not one of its operators. -/
theorem tells_chain_of_stop {op? : Option Lexeme → Option ArithOp} {operand : Generate String}
    (hop : op? rest.head? = none) (fuel : Nat) (value : String) :
    Tells options depth [] rest [] (chain op? operand fuel value) := by
  intro s _ hlex
  have hlex₀ : s.input.lexemes = rest := hlex
  refine ends_chain_of_stop ?_ ⟨rfl, hlex₀, rfl⟩ fuel
  rw [hlex₀]
  exact hop

/-- A chain reads one of its operators and an operand, and goes on. -/
theorem tells_chain_of_op {op? : Option Lexeme → Option ArithOp} {operand : Generate String}
    {lexeme : Lexeme} {op : ArithOp} {front' : List Lexeme} {more : List Event}
    (hop : op? (some lexeme) = some op)
    (hoperand : Tells options depth front (front' ++ rest) events operand)
    (hnext : ∀ n value, Tells options depth front' rest more (chain op? operand n value))
    (n : Nat) (value : String) :
    Tells options depth (lexeme :: (front ++ front')) rest (.read .plain :: (events ++ more))
      (chain op? operand n value) := by
  cases n with
  | zero => exact fun _ _ _ => trivial
  | succ n =>
      refine Tells.look ?_
      rw [List.cons_append, List.head?_cons, hop]
      exact (tells_advance lexeme).bind fun _ => hoperand.bind fun _ =>
        (tells_emitTemp _).bind fun value' => hnext n value'

end

/-- What the procedures tell at a phrase. As in `Translates`, a term and a sum are
what a loop has read so far, and the loop goes on with what it tells behind the
phrase. An expression that may be refused stands where skipping stops. -/
def Narrates (options : Options) : {level : Level} → Phrase level → Prop
  | .factor, p => ∀ (fuel depth : Nat) (rest : List Lexeme),
      Tells options depth p.lexemes rest (p.events (options.room depth))
        (factor (expression fuel))
  | .term, p => ∀ (fuel depth : Nat) (front rest : List Lexeme) (more : List Event),
      (∀ n value, Tells options depth front rest more
        (chain productOp? (factor (expression fuel)) n value)) →
      ∀ n, Tells options depth (p.lexemes ++ front) rest (p.events (options.room depth) ++ more)
        (term (expression fuel) n)
  | .sum, p => ∀ (fuel depth : Nat) (front rest : List Lexeme) (more : List Event),
      productOp? (front ++ rest).head? = none →
      (∀ n value, Tells options depth front rest more
        (chain sumOp? (term (expression fuel) fuel) n value)) →
      ∀ n, Tells options depth (p.lexemes ++ front) rest (p.events (options.room depth) ++ more)
        (signedTerm (expression fuel) fuel >>= chain sumOp? (term (expression fuel) fuel) n)
  | .expression, p => ∀ (fuel depth : Nat) (rest : List Lexeme), EndsExpression rest →
      (options.room depth = 0 → afterConstruct 0 rest = rest) →
      Tells options depth p.lexemes rest (p.events (options.room depth)) (expression fuel)

section
variable {options : Options}

/-- A name is examined before it is left behind. -/
theorem narrates_name (text : String) : Narrates options (.name text) := by
  intro fuel depth rest s hdepth hlex
  have hcurrent := TokenStream.current?_of_lexemes hlex
  rw [factor, ends_bind, ends_current?, hcurrent]
  simp only [ends_bind, ends_get]
  split
  · next hdeclared =>
    refine Told.read hlex rfl ?_
    simp [Journal.examine, State.journal, hcurrent, Role.problem?, Role.declaration?, hdeclared]
  · next hdeclared =>
    refine Told.read hlex rfl ?_
    simp [Journal.examine, State.journal, State.report, hcurrent, Role.problem?,
      Role.declaration?, hdeclared]

/-- A number is read. Whether it is too long was checked before. -/
theorem narrates_number (digits : String) : Narrates options (.number digits) := by
  intro fuel depth rest
  refine Tells.look ?_
  exact (tells_advance (.number digits)).bind fun _ => tells_pure _

/-- Skipping stops at the closing parenthesis. -/
theorem narrates_parens {inner : Phrase .expression} (ih : Narrates options inner) :
    Narrates options (.parens inner) := by
  intro fuel depth rest
  have hends : EndsExpression (.punct .rparen :: rest) := endsExpression_cons (by simp) _
  refine Tells.look ?_
  exact (tells_advance (.punct .lparen)).bind fun _ =>
    (ih fuel depth _ hends fun _ => rfl).bind fun value =>
      (tells_expect (.punct .rparen)).bind fun _ => tells_pure value

/-- The first factor of a term. -/
theorem narrates_factor {first : Phrase .factor} (ih : Narrates options first) :
    Narrates options (.factor first) := by
  intro fuel depth front rest more hnext n
  exact (ih fuel depth (front ++ rest)).bind fun value => hnext n value

/-- One more factor of a term. -/
theorem narrates_product {front : Phrase .term} {op : ProductOp} {last : Phrase .factor}
    (ihf : Narrates options front) (ihl : Narrates options last) :
    Narrates options (.product front op last) := by
  intro fuel depth after rest more hnext n
  -- The loop that goes on behind the first factors reads the operator and the last one.
  have hloop := tells_chain_of_op (productOp?_arith op) (ihl fuel depth (after ++ rest)) hnext
  refine (ihf fuel depth _ rest _ hloop n).congr ?_ ?_
  · simp [Phrase.lexemes]
  · simp [Phrase.events]

/-- A term that stands as a whole is told as a whole. -/
theorem tells_term_of_stop {p : Phrase .term} (h : Narrates options p) {depth : Nat}
    {rest : List Lexeme} (hstop : productOp? rest.head? = none) (fuel n : Nat) :
    Tells options depth p.lexemes rest (p.events (options.room depth))
      (term (expression fuel) n) := by
  have hterm := h fuel depth [] rest [] (tells_chain_of_stop hstop) n
  exact hterm.congr (List.append_nil _) (List.append_nil _)

/-- A sign is read if it is there, in front of what does not start with one. -/
theorem tells_leadingMinus (sign : Option SumOp) {depth : Nat} {rest : List Lexeme}
    (hrest : sumOp? rest.head? = none) :
    Tells options depth (Phrase.signLexemes sign) rest
      ((Phrase.signLexemes sign).map fun _ => .read .plain) leadingMinus := by
  refine Tells.look ?_
  cases sign with
  | none =>
      rw [Phrase.signLexemes, List.nil_append, hrest]
      exact tells_pure false
  | some sign =>
      rw [Phrase.signLexemes, List.cons_append, List.head?_cons, sumOp?_arith]
      exact (tells_advance _).bind fun _ => tells_pure _

/-- The first term of a sum, with its sign. -/
theorem narrates_term {sign : Option SumOp} {first : Phrase .term}
    (ih : Narrates options first) : Narrates options (.term sign first) := by
  intro fuel depth after rest more hstop hnext n
  -- No term starts with a sign, so a sign in front belongs to the sum.
  have hsign : Tells options depth _ _ _ leadingMinus :=
    tells_leadingMinus sign (sumOp?_head?_lexemes first (.inr rfl) (after ++ rest))
  have hsigned : Tells options depth (Phrase.term sign first).lexemes (after ++ rest)
      ((Phrase.term sign first).events (options.room depth))
      (signedTerm (expression fuel) fuel) := by
    refine hsign.bind fun negate => (tells_term_of_stop ih hstop fuel fuel).quiet fun value => ?_
    -- The sign has its instruction or not; neither is told.
    cases negate with
    | true => exact tells_emitTemp _
    | false => exact tells_pure value
  exact hsigned.bind fun value => hnext n value

/-- One more term of a sum. -/
theorem narrates_sum {front : Phrase .sum} {op : SumOp} {last : Phrase .term}
    (ihf : Narrates options front) (ihl : Narrates options last) :
    Narrates options (.sum front op last) := by
  intro fuel depth after rest more hstop hnext n
  -- Here the operand of the loop is a whole term, which stops in front of the next sign.
  have hloop := tells_chain_of_op (sumOp?_arith op) (tells_term_of_stop ihl hstop fuel fuel) hnext
  refine (ihf fuel depth (.arith op.arith :: (last.lexemes ++ after)) rest _
    (productOp?_sumOp op) hloop n).congr ?_ ?_
  · simp [Phrase.lexemes]
  · simp [Phrase.events]

/-- An expression is entered, or it is noted and skipped as a whole. -/
theorem narrates_expression {whole : Phrase .sum} (ih : Narrates options whole) :
    Narrates options (.expression whole) := by
  intro fuel depth rest hends hstop
  refine tells_expression (Phrase.length_roles whole) ?_ ?_ fuel
  · intro hroom
    rw [Phrase.afterConstruct_append, hstop hroom]
  · intro fuel room _ hinside
    have hwhole := ih fuel (depth + 1) [] rest [] hends.productOp?
      (tells_chain_of_stop hends.sumOp?) fuel
    rw [hinside] at hwhole
    exact hwhole.congr (List.append_nil _) (List.append_nil _)

/-- **Every phrase is told**, within the limit or not. -/
theorem phrase_narrates {level : Level} (p : Phrase level) : Narrates options p := by
  induction p with
  | name text => exact narrates_name text
  | number digits => exact narrates_number digits
  | parens inner ih => exact narrates_parens ih
  | factor first ih => exact narrates_factor ih
  | product front op last ihf ihl => exact narrates_product ihf ihl
  | term sign first ih => exact narrates_term ih
  | sum front op last ihf ihl => exact narrates_sum ihf ihl
  | expression whole ih => exact narrates_expression ih

/-! ### Conditions -/

/-- Skipping stops where a statement ends. -/
theorem EndsStatement.afterConstruct {rest : List Lexeme} (h : EndsStatement rest) :
    afterConstruct 0 rest = rest := by
  cases rest with
  | nil => rfl
  | cons lexeme rest =>
      rcases h with h | h | h
      · exact nomatch h
      · rw [Option.some.inj h]
        rfl
      · rw [Option.some.inj h]
        rfl

/-- Where a statement ends, there is no other lexeme than those that end it. -/
theorem EndsStatement.head?_ne {rest : List Lexeme} (h : EndsStatement rest) {lexeme : Lexeme}
    (hsemicolon : lexeme ≠ .punct .semicolon) (hend : lexeme ≠ .keyword .endKw) :
    rest.head? ≠ some lexeme := by
  intro hhead
  rcases h with h | h | h
  · exact nomatch h.symm.trans hhead
  · exact hsemicolon (Option.some.inj (hhead.symm.trans h))
  · exact hend (Option.some.inj (hhead.symm.trans h))

/-- A relation that is there is read. -/
theorem tells_relation (op : RelOp) {depth : Nat} {rest : List Lexeme} :
    Tells options depth [.relation op] rest [.read .plain] relation := by
  refine Tells.look ?_
  exact (tells_advance (.relation op)).bind fun _ => tells_pure op

/-- A relation that is not there is missed. -/
theorem tells_relation_miss {depth : Nat} {rest : List Lexeme}
    (h : ∀ op, rest.head? ≠ some (.relation op)) :
    Tells options depth [] rest [.miss "relational operator"] relation := by
  refine Tells.look ?_
  rw [List.nil_append]
  split
  · next op hop => exact absurd hop (h op)
  · exact (tells_expected "relational operator").bind fun _ => tells_pure RelOp.eq

/-- A condition whose sides may be entered. -/
theorem tells_condition (c : Comparison) {depth : Nat} {rest : List Lexeme}
    (hends : EndsExpression rest) (hroom : options.room depth ≠ 0) (fuel : Nat) :
    Tells options depth c.lexemes rest
      (c.lhs.events (options.room depth) ++ .read .plain :: c.rhs.events (options.room depth))
      (condition fuel) := by
  have hrelation : EndsExpression (.relation c.op :: (c.rhs.lexemes ++ rest)) :=
    endsExpression_cons (by simp) _
  have hlhs := phrase_narrates c.lhs fuel depth _ hrelation fun hfull => absurd hfull hroom
  have hrhs := phrase_narrates c.rhs fuel depth rest hends fun hfull => absurd hfull hroom
  exact hlhs.bind fun _ => (tells_relation c.op).bind fun _ => hrhs.quiet fun _ =>
    (tells_emit _).bind fun _ => (tells_emit _).bind fun _ => tells_pure _

/-- A condition whose sides are refused. With the first side all is skipped up to
`rest`, so the relation is missed there. -/
theorem tells_condition_refused {roles : List Role} {depth : Nat} {front rest : List Lexeme}
    (hends : EndsStatement rest) (hroom : options.room depth = 0)
    (hlen : roles.length = front.length) (hstop : afterConstruct 0 (front ++ rest) = rest)
    (fuel : Nat) :
    Tells options depth front rest
      (.note :: roles.map .skip ++ [.miss "relational operator", .note]) (condition fuel) := by
  have hnone : afterConstruct 0 ([] ++ rest) = rest := hends.afterConstruct
  have hrelation : Tells options depth [] rest _ relation :=
    tells_relation_miss fun _ => hends.head?_ne (by simp) (by simp)
  have hrhs : Tells options depth [] rest [.note] (expression fuel) :=
    tells_expression_refused [] hroom rfl hnone fuel
  exact (tells_expression_refused roles hroom hlen hstop fuel).bind_nil fun _ =>
    hrelation.bind fun _ => hrhs.quiet fun _ =>
      (tells_emit _).bind fun _ => (tells_emit _).bind fun _ => tells_pure _

/-! ### Statements -/

/-- What the procedures tell at statements. As in `Carries`, statements in sequence
are what a loop has read so far. -/
def Recounts (options : Options) : {extent : Extent} → Clause extent → Prop
  | .statement, c => ∀ (fuel depth : Nat) (rest : List Lexeme) (pending : JumpList),
      EndsStatement rest →
      Tells options depth c.lexemes rest (c.events (options.room depth)) (statement fuel pending)
  | .sequence, c => ∀ (fuel depth : Nat) (front rest : List Lexeme) (more : List Event),
      EndsStatement (front ++ rest) →
      (∀ n pending, Tells options depth front rest more (sequence (statement fuel) n pending)) →
      ∀ n pending, Tells options depth (c.lexemes ++ front) rest
        (c.events (options.room depth) ++ more)
        (statement fuel pending >>= sequence (statement fuel) n)

/-- A statement that is not refused is told by its construct. -/
theorem recounts_of_construct {c : Clause .statement} {inside : Nat → List Event}
    (hevents : ∀ room, c.events room = levelEvents c.roles inside room)
    (h : ∀ (fuel depth : Nat) (rest : List Lexeme) (pending : JumpList), EndsStatement rest →
      Tells options depth c.lexemes rest (inside (options.room depth))
        (construct (statement fuel) fuel pending)) : Recounts options c := by
  intro fuel depth rest pending hends
  rw [hevents]
  refine tells_statement (Clause.length_roles c) ?_ ?_ fuel
  · intro _
    rw [Clause.afterConstruct_append c (by simp), hends.afterConstruct]
  · intro fuel room _ hinside
    have hconstruct := h fuel (depth + 1) rest pending hends
    rw [hinside] at hconstruct
    exact hconstruct

/-- Where a statement ends, a construct is empty. -/
theorem tells_construct_empty {depth fuel : Nat} {rest : List Lexeme}
    {inner : JumpList → Generate JumpList} {pending : JumpList} (hends : EndsStatement rest) :
    Tells options depth [] rest [] (construct inner fuel pending) := by
  refine Tells.look ?_
  rw [List.nil_append]
  rcases hends with h | h | h
  · rw [h]
    exact tells_pure pending
  · rw [h]
    exact tells_pure pending
  · rw [h]
    exact tells_pure pending

/-- The empty statement reads nothing. -/
theorem recounts_empty : Recounts options .empty := by
  refine recounts_of_construct (fun _ => rfl) ?_
  intro fuel depth rest pending hends
  exact tells_construct_empty hends

/-- The name that is assigned to is examined only after it was left behind. If what
follows it is not too long, the order of the reports is the same. -/
theorem tells_target (name : String) {depth : Nat} {rest : List Lexeme}
    (hrest : Short options.maxDigits.toNat rest) :
    Tells options depth [.ident name] rest [.read .target] (do
      let start ← line
      advance
      checkTarget name start) := by
  intro s hdepth hlex
  have hlex₀ : s.input.lexemes = .ident name :: rest := hlex
  have hcurrent := TokenStream.current?_of_lexemes hlex₀
  have hadvance := State.advance_of_short hlex₀ hrest
  rw [ends_bind, ends_line, ends_bind, ends_advance, hadvance, checkTarget, ends_bind, ends_get]
  split
  · next hkind =>
    refine Told.late hlex₀ hrest rfl ?_
    simp_all [Journal.examine, State.journal, Role.problem?, Role.declaration?]
  · next hkind =>
    refine Told.late hlex₀ hrest rfl ?_
    simp_all [Journal.examine, State.journal, State.report, Role.problem?, Role.declaration?]
  · next hkind =>
    refine Told.late hlex₀ hrest rfl ?_
    simp_all [Journal.examine, State.journal, State.report, Role.problem?, Role.declaration?]

/-- An assignment: its target is examined, and its value is told. If the value is refused,
skipping stops at the end of the statement. -/
theorem recounts_assign {name : String} {value : Phrase .expression} :
    Recounts options (.assign name value) := by
  refine recounts_of_construct (fun _ => rfl) ?_
  intro fuel depth rest pending hends
  have hvalue : Tells options depth value.lexemes rest _ (expression fuel) :=
    phrase_narrates value fuel depth rest hends.endsExpression fun _ => hends.afterConstruct
  refine Tells.look ?_
  -- The operator follows the name, so the line of the name is reported before a long number is.
  have hassign := (tells_backpatchHere pending).bind fun _ =>
    (tells_target name (by simp [Short])).bind fun _ => tells_expectBecomes.bind fun _ =>
      hvalue.quiet fun operand => (tells_emit (.assign name (.copy operand))).bind fun _ =>
        tells_pure JumpList.empty
  simp only [bind_assoc] at hassign
  exact hassign

/-- What a choice and a loop consist of: a condition, a keyword, the body and some work
on the code. -/
theorem tells_test (test : Comparison) {closing : Keyword} {body : Clause .statement}
    (ih : Recounts options body) (hword : closing = .thenKw ∨ closing = .doKw) {depth : Nat}
    {rest : List Lexeme}
    (hends : EndsStatement rest) (fuel : Nat) {after : Exits → JumpList → Generate JumpList}
    (hafter : ∀ exits next, Tells options depth [] rest [] (after exits next)) :
    Tells options depth (test.lexemes ++ .keyword closing :: body.lexemes) rest
      (testEvents (.keyword closing) test body.roles body.events (options.room depth)) (do
        let exits ← condition fuel
        expect (.keyword closing)
        let _ ← backpatchHere exits.onTrue
        let next ← statement fuel .empty
        after exits next) := by
  cases hroom : options.room depth with
  | zero =>
      have hlen : (test.roles ++ .plain :: body.roles).length
          = (test.lexemes ++ .keyword closing :: body.lexemes).length := by
        simp
      have hstop :
          afterConstruct 0 ((test.lexemes ++ .keyword closing :: body.lexemes) ++ rest) = rest := by
        have hplain : (Lexeme.keyword closing).bracketing = .none := by
          rcases hword with rfl | rfl <;> rfl
        rw [List.append_assoc, Comparison.afterConstruct_append]
        simp only [List.cons_append, afterConstruct, hplain]
        rw [Clause.afterConstruct_append body (by simp), hends.afterConstruct]
      -- The keyword was skipped with the condition, so it is missed, and the body is refused.
      have hmissed : rest.head? ≠ some (.keyword closing) :=
        hends.head?_ne (by simp) (by rcases hword with rfl | rfl <;> simp)
      have htest := (tells_condition_refused hends hroom hlen hstop fuel).bind_nil fun exits =>
        (tells_expect_miss hmissed).bind fun _ =>
          (tells_backpatchHere exits.onTrue).bind fun _ =>
            (tells_statement_refused hroom hends.afterConstruct fuel .empty).quiet fun next =>
              hafter exits next
      refine htest.congr rfl ?_
      simp [testEvents]
  | succ room =>
      have hclosing : EndsExpression (.keyword closing :: (body.lexemes ++ rest)) :=
        endsExpression_cons (by simp) _
      have hbody := ih fuel depth rest .empty hends
      have htest := (tells_condition test hclosing (by omega) fuel).bind fun exits =>
        (tells_expect (.keyword closing)).bind fun _ =>
          (tells_backpatchHere exits.onTrue).bind fun _ =>
            hbody.quiet fun next => hafter exits next
      rw [hroom] at htest
      refine htest.congr (by simp) ?_
      simp [testEvents]

/-- A choice is told up to its body by `tells_test`, and what is left is work on the code. -/
theorem recounts_choice {test : Comparison} {body : Clause .statement}
    (ih : Recounts options body) : Recounts options (.choice test body) := by
  refine recounts_of_construct (fun _ => rfl) ?_
  intro fuel depth rest pending hends
  refine Tells.look ?_
  exact (tells_backpatchHere pending).bind fun _ => (tells_advance (.keyword .ifKw)).bind fun _ =>
    tells_test test ih (.inl rfl) hends fuel fun exits next =>
      (tells_backpatchHere exits.onFalse).bind fun _ => tells_pure next

/-- A loop is told as a choice is. It has one more instruction, which is no part of the story. -/
theorem recounts_loop {test : Comparison} {body : Clause .statement}
    (ih : Recounts options body) : Recounts options (.loop test body) := by
  refine recounts_of_construct (fun _ => rfl) ?_
  intro fuel depth rest pending hends
  refine Tells.look ?_
  exact (tells_backpatchHere pending).bind fun start =>
    (tells_advance (.keyword .whileKw)).bind fun _ =>
      tells_test test ih (.inr rfl) hends fuel fun exits next =>
        (tells_onCode (next.backpatch start)).bind fun _ =>
          (tells_emit (.jump (some start))).bind fun _ =>
            (tells_backpatchHere exits.onFalse).bind fun _ => tells_pure JumpList.empty

/-- The statements between `BEGIN` and `END`. -/
theorem recounts_compound {body : Clause .sequence} (ih : Recounts options body) :
    Recounts options (.compound body) := by
  refine recounts_of_construct (fun _ => rfl) ?_
  intro fuel depth rest pending hends
  -- The loop that has read the whole sequence finds `END` and stops.
  have hstop : ∀ n pending, Tells options depth [] (.keyword .endKw :: rest) []
      (sequence (statement fuel) n pending) :=
    fun n _ _ _ hlex => ends_sequence_of_end hlex ⟨rfl, hlex, rfl⟩ n
  have hbody := ih fuel depth [] (.keyword .endKw :: rest) [] (.inr (.inr rfl)) hstop fuel pending
  refine Tells.look ?_
  have hcompound := (tells_advance (.keyword .beginKw)).bind fun _ =>
    (hbody.congr (List.append_nil _) (List.append_nil _)).bind fun next =>
      (tells_expect (.keyword .endKw)).bind fun _ => tells_pure next
  simp only [bind_assoc] at hcompound
  exact hcompound

/-- The first statement of a sequence. -/
theorem recounts_one {first : Clause .statement} (ih : Recounts options first) :
    Recounts options (.one first) := by
  intro fuel depth front rest more hends hnext n pending
  exact (ih fuel depth (front ++ rest) pending hends).bind fun pending' => hnext n pending'

/-- One more statement of a sequence. -/
theorem recounts_next {front : Clause .sequence} {last : Clause .statement}
    (ihf : Recounts options front) (ihl : Recounts options last) :
    Recounts options (.next front last) := by
  intro fuel depth after rest more hends hnext n pending
  -- What the loop tells behind the first statements: the semicolon, the last one, and then
  -- `more`.
  have hloop : ∀ n pending, Tells options depth (.punct .semicolon :: (last.lexemes ++ after)) rest
      (.read .plain :: (last.events (options.room depth) ++ more))
      (sequence (statement fuel) n pending) := by
    intro n pending
    cases n with
    | zero => exact fun _ _ _ => trivial
    | succ n =>
        exact Tells.eat ((ihl fuel depth (after ++ rest) pending hends).bind fun pending' =>
          hnext n pending')
  refine (ihf fuel depth (.punct .semicolon :: (last.lexemes ++ after)) rest _ (.inr (.inl rfl))
    hloop n pending).congr ?_ ?_
  · simp [Clause.lexemes]
  · simp [Clause.events]

/-- **Every statement is told**, within the limit or not. -/
theorem clause_recounts {extent : Extent} (c : Clause extent) : Recounts options c := by
  induction c with
  | empty => exact recounts_empty
  | assign name value => exact recounts_assign
  | choice test body ih => exact recounts_choice ih
  | loop test body ih => exact recounts_loop ih
  | compound body ih => exact recounts_compound ih
  | one first ih => exact recounts_one ih
  | next front last ihf ihl => exact recounts_next ihf ihl

/-! ### Declarations -/

/-- A declared name is entered only after it was left behind. If what follows it is not
too long, the order of the reports is the same. -/
theorem tells_declaration? (what name : String) (kind : SymbolKind) {depth : Nat}
    {rest : List Lexeme} (hrest : Short options.maxDigits.toNat rest) :
    Tells options depth [.ident name] rest [.read (.declares kind)] (declaration? what kind) := by
  intro s hdepth hlex
  have hlex₀ : s.input.lexemes = .ident name :: rest := hlex
  have hcurrent := TokenStream.current?_of_lexemes hlex₀
  have hadvance := State.advance_of_short hlex₀ hrest
  rw [declaration?, ends_bind, ends_line, ends_bind, ident?, ends_bind, ends_current?, hcurrent,
    ends_bind, ends_advance, hadvance, ends_pure, ends_bind, declare, ends_bind, ends_get]
  split
  · next symbols hadded =>
    have hfree : s.symbols.contains name = false := by
      have hsome : s.symbols.declare? ⟨name, kind, s.input.line⟩ ≠ none := by
        simp [show s.symbols.declare? _ = some symbols from hadded]
      simpa [SymbolTable.declare?_eq_none_iff] using hsome
    refine Told.late hlex₀ hrest rfl ?_
    simp_all [Journal.examine, State.journal, Role.problem?, Role.declaration?, SymbolTable.add]
  · next htaken =>
    have hthere : s.symbols.contains name = true :=
      (SymbolTable.declare?_eq_none_iff _ _).mp htaken
    refine Told.late hlex₀ hrest rfl ?_
    simp_all [Journal.examine, State.journal, State.report, Role.problem?, Role.declaration?,
      SymbolTable.add]

/-- The definition of a constant. A number that is too long stands behind the name and behind the
operator, so the name is reported first. -/
theorem tells_definition (d : Definition) {depth : Nat} {rest : List Lexeme} :
    Tells options depth d.lexemes rest (Definition.roles.map .read) definition := by
  have hnumber : Tells options depth [.number d.digits] rest [.read .plain] number? := by
    refine Tells.look ?_
    exact (tells_advance _).bind fun _ => tells_pure _
  refine (tells_declaration? "constant name" d.name .const (by simp [Short])).bind fun name? =>
    tells_expectBecomes.bind fun _ => hnumber.quiet fun value? => ?_
  split
  · exact (tells_emit _).bind fun _ => tells_pure _
  · exact tells_pure _

/-- The declaration of a variable, with no number behind it. -/
theorem tells_variableName (name : String) {depth : Nat} {rest : List Lexeme}
    (hrest : NoNumber rest) :
    Tells options depth [.ident name] rest ([.declares .var].map .read) variableName :=
  (tells_declaration? "variable name" name .var (hrest.short _)).bind fun _ => tells_pure _

/-- Items with commas between them. The induction is on the items behind the first. -/
theorem tells_items {α : Type} {lexemes : α → List Lexeme} {roles : List Role}
    {item : Generate Unit} {depth : Nat}
    (hitem : ∀ (x : α) {rest : List Lexeme}, NoNumber rest →
      Tells options depth (lexemes x) rest (roles.map .read) item)
    {rest : List Lexeme} (hrest : NoNumber rest) (hstop : rest.head? ≠ some (.punct .comma))
    (more : List α) (first : α) (fuel : Nat) :
    Tells options depth (lexemes first ++ Section.restLexemes lexemes more) rest
      ((Section.itemRoles roles more).map .read) (items item fuel) := by
  induction more generalizing first fuel with
  | nil =>
      cases fuel with
      | zero => exact fun _ _ _ => trivial
      | succ fuel =>
          refine ((hitem first hrest).quiet fun _ => ?_).congr ?_ ?_
          · exact Tells.eat_of_ne hstop (tells_pure ())
          · simp [Section.restLexemes]
          · simp [Section.itemRoles]
  | cons second more ih =>
      cases fuel with
      | zero => exact fun _ _ _ => trivial
      | succ fuel =>
          -- A comma follows the item, so no number does.
          have hcomma : NoNumber (.punct .comma ::
              (lexemes second ++ Section.restLexemes lexemes more) ++ rest) := by
            simp [NoNumber]
          refine ((hitem first hcomma).bind fun _ => Tells.eat (ih second fuel)).congr ?_ ?_
          · simp [Section.restLexemes]
          · simp [Section.itemRoles]

/-- A section of one kind of items. -/
theorem tells_declarationSection {α : Type} {lexemes : α → List Lexeme} {roles : List Role}
    {item : Generate Unit} {depth : Nat}
    (hitem : ∀ (x : α) {rest : List Lexeme}, NoNumber rest →
      Tells options depth (lexemes x) rest (roles.map .read) item)
    (opening : Lexeme) (first : α) (more : List α) {rest : List Lexeme} (fuel : Nat) :
    Tells options depth
      (opening :: (lexemes first ++ Section.restLexemes lexemes more) ++ [.punct .semicolon]) rest
      ((Role.plain :: Section.itemRoles roles more ++ [Role.plain]).map .read)
      (declarationSection item fuel) := by
  have hitems : Tells options depth _ (.punct .semicolon :: rest) _ (items item fuel) :=
    tells_items hitem (by simp [NoNumber]) (by simp) more first fuel
  refine ((tells_advance opening).bind fun _ => hitems.bind fun _ =>
    tells_expect (.punct .semicolon)).congr rfl ?_
  simp

/-- The declarations of a program. The induction is on the sections. -/
theorem tells_declarations (sections : List Section) {depth : Nat} {rest : List Lexeme}
    (hconst : rest.head? ≠ some (.keyword .constKw)) (hvar : rest.head? ≠ some (.keyword .varKw))
    (fuel : Nat) :
    Tells options depth (sections.flatMap Section.lexemes) rest
      ((sections.flatMap Section.roles).map .read) (declarations fuel) := by
  induction sections generalizing fuel with
  | nil =>
      cases fuel with
      | zero => exact fun _ _ _ => trivial
      | succ fuel =>
          refine Tells.look ?_
          rw [List.flatMap_nil, List.nil_append]
          split
          · next hcur => exact absurd hcur hconst
          · next hcur => exact absurd hcur hvar
          · exact tells_pure ()
  | cons first sections ih =>
      cases fuel with
      | zero => exact fun _ _ _ => trivial
      | succ fuel =>
          refine Tells.look ?_
          cases first with
          | consts d more =>
              have hsection : Tells options depth _ (sections.flatMap Section.lexemes ++ rest) _
                  (declarationSection definition fuel) :=
                tells_declarationSection (fun d _ _ => tells_definition d) (.keyword .constKw)
                  d more fuel
              refine (hsection.bind fun _ => ih fuel).congr ?_ ?_
              · simp [Section.lexemes]
              · simp [Section.roles]
          | vars name more =>
              have hsection : Tells options depth _ (sections.flatMap Section.lexemes ++ rest) _
                  (declarationSection variableName fuel) :=
                tells_declarationSection (fun name _ hname => tells_variableName name hname)
                  (.keyword .varKw) name more fuel
              refine (hsection.bind fun _ => ih fuel).congr ?_ ?_
              · simp [Section.lexemes]
              · simp [Section.roles]

/-! ### Programs -/

/-- At the end there is nothing to report. -/
theorem tells_expectEnd {depth : Nat} : Tells options depth [] [] [] expectEnd :=
  Tells.look (tells_pure ())

/-- The last check reads and reports nothing. -/
theorem tells_checkResolved {depth : Nat} {rest : List Lexeme} :
    Tells options depth [] rest [] checkResolved := by
  refine tells_of_keeps fun s => ?_
  rw [checkResolved, ends_bind, ends_get]
  split
  · exact ⟨rfl, rfl⟩
  · trivial

/-- A program is told from its first token on. -/
theorem tells_program (p : Program) (fuel : Nat) :
    Tells options 0 p.lexemes [] (p.events options.maxDepth.toNat) (do
      expect (.keyword .programKw)
      let name? ← ident? "program name"
      declarations fuel
      let next ← statement fuel .empty
      expectEnd
      let _ ← backpatchHere next
      checkResolved
      return name?) := by
  have hbody : Tells options 0 p.body.lexemes [] (p.body.events options.maxDepth.toNat)
      (statement fuel .empty) := clause_recounts p.body fuel 0 [] .empty (.inl rfl)
  have hdeclarations : Tells options 0 _ (p.body.lexemes ++ []) _ (declarations fuel) :=
    tells_declarations p.sections (head?_lexemes_ne (.inl rfl)) (head?_lexemes_ne (.inr rfl)) fuel
  refine ((tells_expect (.keyword .programKw)).bind fun _ =>
    (tells_ident? p.name "program name").bind fun name? => hdeclarations.bind fun _ =>
      hbody.quiet fun next => tells_expectEnd.bind fun _ => (tells_backpatchHere next).bind
        fun _ => tells_checkResolved.bind fun _ => tells_pure name?).congr ?_ ?_
  · simp [Program.lexemes]
  · simp [Program.events]

end

/-- **A run on a program of the grammar follows the story of the program.** -/
theorem program_tells (p : Program) {options : Options} {input : TokenStream} {fuel : Nat}
    (hlex : input.lexemes = p.lexemes) :
    Ends (fun _ => True) (program fuel) options (.start options input) fun _ s' =>
      s'.journal = (Journal.start input).tell options (p.events options.maxDepth.toNat) := by
  -- The first token is a keyword, so its check says nothing.
  have hfirst : (State.start options input).checkNumber options.maxDigits.toNat
      = .start options input := by
    have hrest : NoNumber input.lexemes := by
      rw [hlex]
      simp [NoNumber, Program.lexemes]
    exact State.checkNumber_of_short (hrest.short _)
  rw [program, ends_bind, ends_checkNumber, hfirst]
  refine (tells_program p fuel (.start options input) rfl ?_).mono ?_
  · rw [List.append_nil]
    exact hlex
  · intro name? s' htold
    exact htold.journal

end Generate

/-- The diagnostics and the names of a compilation are those of the story of its
program. -/
theorem journal_of_compile {options : Options} {source : String} {p : Program}
    {compilation : Compilation} (hok : compile options source = .ok compilation)
    (hlex : p.lexemes = (scan source).lexemes) :
    ∃ input depthReported,
      (Journal.start (scan source)).tell options (p.events options.maxDepth.toNat)
        = ⟨input, compilation.symbols, compilation.diagnostics.toList, depthReported⟩ := by
  unfold compile compileTokens at hok
  split at hok
  · next name? s hrun =>
    obtain rfl := Except.ok.inj hok
    exact ⟨s.input, s.depthReported, ((Generate.program_tells p hlex.symm).ok hrun).symm⟩
  · exact nomatch hok

end ThreeAddress
