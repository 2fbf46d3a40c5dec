import ThreeAddress.Compilation

/-!
# Runs of the generator

`Generate.Ends E x options s Q` says how the run of the action `x` from the
state `s` ends: with a value and a state that satisfy `Q`, or with a fault that
satisfies `E`. The lemmas `ends_…` say when this holds of each step, so that a
run is followed by rewriting, one step after the other. With
`E := fun _ => True` a statement is about the runs that end well; with a narrow
`E` it also says which faults there are.

What the generator does next depends on the lexemes that are left and on the
depth, and on nothing else. `TokenStream.lexemes` is that view of the input. A
construct that is refused because it lies too deep is dropped, and
`afterConstruct` says what is left then.
-/

set_option autoImplicit false

namespace ThreeAddress

/-! ### The lexemes that are left -/

/-- The lexemes that are still to be read. -/
def TokenStream.lexemes (stream : TokenStream) : List Lexeme :=
  stream.tokens.map Token.lexeme

namespace TokenStream

/-- The current lexeme is the first of those that are left. -/
theorem current?_eq_head? (stream : TokenStream) :
    stream.current? = stream.lexemes.head? := by
  unfold current? lexemes
  rw [List.head?_map]

/-- Behind the current token the lexemes behind the first one are left. -/
@[simp] theorem lexemes_tail (stream : TokenStream) :
    stream.tail.lexemes = stream.lexemes.tail := by
  unfold tail lexemes
  rw [List.map_tail]

/-- A stream whose lexemes are known has a known current one. -/
theorem current?_of_lexemes {stream : TokenStream} {lexeme : Lexeme} {rest : List Lexeme}
    (h : stream.lexemes = lexeme :: rest) : stream.current? = some lexeme := by
  rw [current?_eq_head?, h]
  rfl

/-- What is left behind a current lexeme. -/
theorem lexemes_of_current? {stream : TokenStream} {lexeme : Lexeme}
    (h : stream.current? = some lexeme) :
    stream.lexemes = lexeme :: stream.lexemes.tail := by
  rw [current?_eq_head?] at h
  cases hlex : stream.lexemes with
  | nil => simp [hlex] at h
  | cons first rest =>
      -- The first of the lexemes is the current one.
      rw [hlex, List.head?_cons, Option.some.injEq] at h
      rw [h, List.tail_cons]

end TokenStream

/-- What is left when the rest of the current construct is dropped, `opened`
brackets being open. -/
def afterConstruct : Nat → List Lexeme → List Lexeme
  | _, [] => []
  | opened, lexeme :: rest =>
    match lexeme.bracketing, opened with
    | .opens, opened => afterConstruct (opened + 1) rest
    | .closes, 0 => lexeme :: rest
    | .closes, opened + 1 => afterConstruct opened rest
    | .separates, 0 => lexeme :: rest
    | .separates, opened + 1 => afterConstruct (opened + 1) rest
    | .none, opened => afterConstruct opened rest

/-- `constructLength` counts the lexemes that `afterConstruct` drops. -/
theorem drop_constructLength (opened : Nat) (tokens : List Token) :
    (tokens.map Token.lexeme).drop (constructLength opened tokens)
      = afterConstruct opened (tokens.map Token.lexeme) := by
  induction tokens generalizing opened with
  | nil => simp [afterConstruct]
  | cons token rest ih =>
      simp only [constructLength, List.map_cons, afterConstruct]
      -- Both sides look at the same bracket and the same count, and stop in the same cases.
      cases token.lexeme.bracketing <;> cases opened <;> simp [ih]

/-- Dropping a construct leaves the end of the lexemes. -/
theorem afterConstruct_suffix (opened : Nat) (lexemes : List Lexeme) :
    afterConstruct opened lexemes <:+ lexemes := by
  induction lexemes generalizing opened with
  | nil => exact List.suffix_rfl
  | cons lexeme rest ih =>
      simp only [afterConstruct]
      -- Where the construct ends nothing more is dropped; otherwise one lexeme is.
      cases lexeme.bracketing <;> cases opened <;> simp only [List.suffix_rfl]
      all_goals exact (ih _).trans (List.suffix_cons lexeme rest)

/-- Dropping a construct leaves no more lexemes than there were. -/
theorem length_afterConstruct_le (opened : Nat) (lexemes : List Lexeme) :
    (afterConstruct opened lexemes).length ≤ lexemes.length :=
  (afterConstruct_suffix opened lexemes).length_le

namespace Generate

/-- Where an operator is found, a lexeme stands. -/
theorem exists_current {op? : Option Lexeme → Option ArithOp} (hnone : op? none = none)
    {current? : Option Lexeme} {op : ArithOp} (h : op? current? = some op) :
    ∃ lexeme, current? = some lexeme := by
  cases current? with
  | none =>
      rw [hnone] at h
      exact nomatch h
  | some lexeme => exact ⟨lexeme, rfl⟩

/-! ### What the steps keep of a state -/

namespace State

/-- The check of a number changes nothing but the diagnostics. -/
theorem checkNumber_eq (s : State) (maxDigits : Nat) :
    s.checkNumber maxDigits = { s with diagnostics := (s.checkNumber maxDigits).diagnostics } := by
  unfold checkNumber
  split <;> rfl

/-- Moving on changes nothing but the input and the diagnostics. -/
theorem advance_eq (s : State) (maxDigits : Nat) :
    s.advance maxDigits =
      { s with
        input := s.input.tail
        diagnostics := (s.advance maxDigits).diagnostics } := by
  unfold advance
  rw [checkNumber_eq]

/-- The check of a number uses no temporary. -/
@[simp] theorem temps_checkNumber (s : State) (maxDigits : Nat) :
    (s.checkNumber maxDigits).temps = s.temps := by
  rw [checkNumber_eq]

/-- The check of a number opens and closes no level. -/
@[simp] theorem depth_checkNumber (s : State) (maxDigits : Nat) :
    (s.checkNumber maxDigits).depth = s.depth := by
  rw [checkNumber_eq]

/-- The check of a number does not count as a report of the depth. -/
@[simp] theorem depthReported_checkNumber (s : State) (maxDigits : Nat) :
    (s.checkNumber maxDigits).depthReported = s.depthReported := by
  rw [checkNumber_eq]

/-- Moving on uses no temporary. -/
@[simp] theorem temps_advance (s : State) (maxDigits : Nat) :
    (s.advance maxDigits).temps = s.temps := by
  rw [advance_eq]

/-- Moving on opens and closes no level. -/
@[simp] theorem depth_advance (s : State) (maxDigits : Nat) :
    (s.advance maxDigits).depth = s.depth := by
  rw [advance_eq]

/-- Moving on does not report the depth. -/
@[simp] theorem depthReported_advance (s : State) (maxDigits : Nat) :
    (s.advance maxDigits).depthReported = s.depthReported := by
  rw [advance_eq]

/-- The state with the report that a construct lies too deep, which is made
once. -/
def noteDepth (s : State) (max : Nat) : State :=
  if s.depthReported then s
  else { s with depthReported := true }.report ⟨s.input.line, .nestingTooDeep max⟩

/-- The state a number of tokens further on. -/
def skip (s : State) (maxDigits : Nat) : Nat → State
  | 0 => s
  | count + 1 => (s.advance maxDigits).skip maxDigits count

/-- The state after the refusal of a construct that lies too deep. -/
def refuse (s : State) (options : Options) : State :=
  (s.noteDepth options.maxDepth.toNat).skip options.maxDigits.toNat
    (constructLength 0 s.input.tokens)

/-- Skipping moves the input and keeps the code, the temporaries and the
nesting. -/
theorem skip_keeps (s : State) (maxDigits count : Nat) :
    (s.skip maxDigits count).input.lexemes = s.input.lexemes.drop count ∧
      (s.skip maxDigits count).code = s.code ∧
      (s.skip maxDigits count).temps = s.temps ∧
      (s.skip maxDigits count).depth = s.depth ∧
      (s.skip maxDigits count).depthReported = s.depthReported := by
  induction count generalizing s with
  | zero => simp [skip]
  | succ count ih =>
      have h := ih (s.advance maxDigits)
      simpa [skip] using h

/-- The tokens that are skipped are taken from the input. -/
theorem input_skip (s : State) (maxDigits count : Nat) :
    (s.skip maxDigits count).input = { s.input with tokens := s.input.tokens.drop count } := by
  induction count generalizing s with
  | zero => rfl
  | succ count ih =>
      rw [skip, ih, input_advance]
      -- To move on once and then `count` times drops one token and then `count` more.
      show TokenStream.mk (s.input.tokens.tail.drop count) _ = _
      rw [List.drop_tail]
      rfl

/-- A check reports the current token if it deserves it. -/
theorem diagnostics_checkNumber (s : State) (maxDigits : Nat) :
    (s.checkNumber maxDigits).diagnostics.toList
      = s.diagnostics.toList
        ++ (s.input.tokens.take 1).filterMap (Token.overlong? maxDigits) := by
  unfold checkNumber overlong?
  cases s.input.tokens with
  | nil => simp
  | cons token tokens =>
      cases hlong : token.overlong? maxDigits <;> simp [hlong, report]

/-- Of the tokens that become the current one those are reported that deserve it. -/
theorem diagnostics_skip (s : State) (maxDigits count : Nat) :
    (s.skip maxDigits count).diagnostics.toList
      = s.diagnostics.toList
        ++ (s.input.tokens.tail.take count).filterMap (Token.overlong? maxDigits) := by
  induction count generalizing s with
  | zero => simp [skip]
  | succ count ih =>
      rw [skip, ih, input_advance, advance, diagnostics_checkNumber]
      show (s.diagnostics.toList ++ (s.input.tokens.tail.take 1).filterMap _)
        ++ (s.input.tokens.tail.tail.take count).filterMap _ = _
      -- The token that becomes current first and the others that do are the tokens behind the
      -- current one.
      rw [List.append_assoc, ← List.filterMap_append,
        show s.input.tokens.tail.tail = s.input.tokens.tail.drop 1 from List.drop_one.symm,
        ← List.take_add, Nat.add_comm]

/-- The note that a construct lies too deep keeps all but the diagnostics, and
it is on record afterwards. -/
theorem noteDepth_keeps (s : State) (max : Nat) :
    (s.noteDepth max).input = s.input ∧
      (s.noteDepth max).code = s.code ∧
      (s.noteDepth max).temps = s.temps ∧
      (s.noteDepth max).depth = s.depth ∧
      (s.noteDepth max).depthReported = true := by
  unfold noteDepth
  split
  · -- It was on record before.
    next hreported => exact ⟨rfl, rfl, rfl, rfl, hreported⟩
  · exact ⟨rfl, rfl, rfl, rfl, rfl⟩

/-- A refusal drops the rest of the construct. -/
@[simp] theorem lexemes_refuse (s : State) (options : Options) :
    (s.refuse options).input.lexemes = afterConstruct 0 s.input.lexemes := by
  unfold refuse
  rw [(skip_keeps _ _ _).1, (noteDepth_keeps _ _).1]
  exact drop_constructLength 0 s.input.tokens

/-- A refusal emits nothing. -/
@[simp] theorem code_refuse (s : State) (options : Options) :
    (s.refuse options).code = s.code := by
  unfold refuse
  rw [(skip_keeps _ _ _).2.1, (noteDepth_keeps _ _).2.1]

/-- A refusal uses no temporary. -/
@[simp] theorem temps_refuse (s : State) (options : Options) :
    (s.refuse options).temps = s.temps := by
  unfold refuse
  rw [(skip_keeps _ _ _).2.2.1, (noteDepth_keeps _ _).2.2.1]

/-- The level that was refused is not open. -/
@[simp] theorem depth_refuse (s : State) (options : Options) :
    (s.refuse options).depth = s.depth := by
  unfold refuse
  rw [(skip_keeps _ _ _).2.2.2.1, (noteDepth_keeps _ _).2.2.2.1]

/-- After a refusal the depth has been reported, by this one or an earlier one. -/
@[simp] theorem depthReported_refuse (s : State) (options : Options) :
    (s.refuse options).depthReported = true := by
  unfold refuse
  rw [(skip_keeps _ _ _).2.2.2.2, (noteDepth_keeps _ _).2.2.2.2]

end State

/-! ### How a run ends -/

/-- The run of `x` from `s` ends with a value and a state in `Q`, or with a
fault in `E`. -/
def Ends {α : Type} (E : Fault → Prop) (x : Generate α) (options : Options) (s : State)
    (Q : α → State → Prop) : Prop :=
  match x options s with
  | .ok a s' => Q a s'
  | .error fault _ => E fault

section
variable {α β : Type} {E : Fault → Prop} {options : Options} {s : State}

/-- A run that ends in a postcondition ends in every weaker one. -/
theorem Ends.mono {x : Generate α} {P Q : α → State → Prop} (h : Ends E x options s P)
    (himp : ∀ a s', P a s' → Q a s') : Ends E x options s Q := by
  unfold Ends at h ⊢
  cases hx : x options s with
  | ok a s' =>
      rw [hx] at h
      exact himp a s' h
  | error fault s' =>
      rw [hx] at h
      exact h

/-- A run may end in more faults than it does. -/
theorem Ends.weaken {E' : Fault → Prop} {x : Generate α} {Q : α → State → Prop}
    (h : Ends E x options s Q) (himp : ∀ fault, E fault → E' fault) : Ends E' x options s Q := by
  unfold Ends at h ⊢
  cases hx : x options s with
  | ok a s' =>
      rw [hx] at h
      exact h
  | error fault s' =>
      rw [hx] at h
      exact himp fault h

/-- What a run that ended well satisfies. -/
theorem Ends.ok {x : Generate α} {Q : α → State → Prop} (h : Ends E x options s Q)
    {a : α} {s' : State} (hx : x options s = .ok a s') : Q a s' := by
  unfold Ends at h
  rw [hx] at h
  exact h

/-- To answer at once leaves the state as it is. -/
@[simp] theorem ends_pure (a : α) (Q : α → State → Prop) :
    Ends E (pure a) options s Q ↔ Q a s := Iff.rfl

/-- The second action starts where the first one ends. -/
@[simp] theorem ends_bind (x : Generate α) (f : α → Generate β) (Q : β → State → Prop) :
    Ends E (x >>= f) options s Q ↔
      Ends E x options s fun a s' => Ends E (f a) options s' Q := by
  unfold Ends
  rw [bind_run]
  cases x options s <;> rfl

/-- What is done finally may fail from wherever the first action ends, and goes on from
where it ends well. -/
theorem Ends.ensure {x : Generate α} {y : Generate β} {P Q : α → State → Prop}
    (hx : Ends E x options s P) (hy : ∀ t, Ends E y options t fun _ _ => True)
    (hQ : ∀ a t, P a t → Ends E y options t fun _ u => Q a u) :
    Ends E (tryFinally x y) options s Q := by
  unfold Ends at hx ⊢
  rw [tryFinally_run]
  cases hrun : x options s with
  | ok a t =>
      rw [hrun] at hx
      have hend := hQ a t hx
      unfold Ends at hend
      dsimp only
      cases hlast : y options t with
      | ok b u =>
          rw [hlast] at hend
          exact hend
      | error fault u =>
          rw [hlast] at hend
          exact hend
  | error fault t =>
      rw [hrun] at hx
      -- Behind a fault of `x` it is enough that `y` has no fault outside of `E`. If it has none
      -- at all, the one of `x` counts.
      have hend := hy t
      unfold Ends at hend
      dsimp only
      cases hlast : y options t with
      | ok b u => exact hx
      | error fault u =>
          rw [hlast] at hend
          exact hend

/-- A run that fails at once has no answer. -/
@[simp] theorem ends_throw (fault : Fault) (Q : α → State → Prop) :
    Ends E (throw fault) options s Q ↔ E fault := Iff.rfl

/-- The state is answered and kept. -/
@[simp] theorem ends_get (Q : State → State → Prop) :
    Ends E get options s Q ↔ Q s s := Iff.rfl

/-- The options are answered, and they are the same throughout a run. -/
@[simp] theorem ends_read (Q : Options → State → Prop) :
    Ends E read options s Q ↔ Q options s := Iff.rfl

/-- The state is replaced, and it can not fail. -/
@[simp] theorem ends_modify (f : State → State) (Q : Unit → State → Prop) :
    Ends E (modify f) options s Q ↔ Q () (f s) := Iff.rfl

/-- The current lexeme is answered, and it stays current. -/
@[simp] theorem ends_current? (Q : Option Lexeme → State → Prop) :
    Ends E current? options s Q ↔ Q s.input.current? s := Iff.rfl

/-- The line of the current token is answered. -/
@[simp] theorem ends_line (Q : Nat → State → Prop) :
    Ends E line options s Q ↔ Q s.input.line s := Iff.rfl

/-- A report at a line is put behind the others. -/
@[simp] theorem ends_reportAt (line : Nat) (problem : Problem) (Q : Unit → State → Prop) :
    Ends E (reportAt line problem) options s Q ↔ Q () (s.report ⟨line, problem⟩) := Iff.rfl

/-- A report is made at the line of the current token. -/
@[simp] theorem ends_report (problem : Problem) (Q : Unit → State → Prop) :
    Ends E (report problem) options s Q ↔ Q () (s.report ⟨s.input.line, problem⟩) := Iff.rfl

/-- The current token is checked against the limit that the options set. -/
@[simp] theorem ends_checkNumber (Q : Unit → State → Prop) :
    Ends E checkNumber options s Q ↔ Q () (s.checkNumber options.maxDigits.toNat) := Iff.rfl

/-- Moving on checks the token that becomes the current one. -/
@[simp] theorem ends_advance (Q : Unit → State → Prop) :
    Ends E advance options s Q ↔ Q () (s.advance options.maxDigits.toNat) := Iff.rfl

/-- The next address is answered, and nothing is emitted. -/
@[simp] theorem ends_nextAddress (Q : Nat → State → Prop) :
    Ends E nextAddress options s Q ↔ Q s.code.nextAddress s := Iff.rfl

/-- The state with the report that something else was expected. -/
def State.miss (s : State) (what : String) : State :=
  s.report ⟨s.input.line, .expected what (Lexeme.describe? s.input.current?)⟩

/-- What was expected is reported together with what stands there. -/
@[simp] theorem ends_expected (what : String) (Q : Unit → State → Prop) :
    Ends E (expected what) options s Q ↔ Q () (s.miss what) := Iff.rfl

/-- The lexeme is passed if it is the current one. The answer tells which of the two happened. -/
@[simp] theorem ends_eat (lexeme : Lexeme) (Q : Bool → State → Prop) :
    Ends E (eat lexeme) options s Q ↔
      if s.input.current? = some lexeme then Q true (s.advance options.maxDigits.toNat)
      else Q false s := by
  unfold Ends
  rw [eat_run]
  by_cases h : s.input.current? = some lexeme
  · rw [if_pos h, if_pos h]
  · rw [if_neg h, if_neg h]

/-- The lexeme is passed if it is the current one, and reported as missing if it is not. -/
@[simp] theorem ends_expect (lexeme : Lexeme) (Q : Unit → State → Prop) :
    Ends E (expect lexeme) options s Q ↔
      if s.input.current? = some lexeme then Q () (s.advance options.maxDigits.toNat)
      else Q () (s.miss lexeme.describe) := by
  unfold Ends
  rw [expect_run]
  by_cases h : s.input.current? = some lexeme
  · rw [if_pos h, if_pos h]
  · rw [if_neg h, if_neg h]
    rfl

/-- Skipping always succeeds. -/
theorem skip_run (count : Nat) (options : Options) (s : State) :
    skip count options s = .ok () (s.skip options.maxDigits.toNat count) := by
  induction count generalizing s with
  | zero => rfl
  | succ count ih =>
      rw [skip, bind_run, advance_run]
      exact ih _

/-- Skipping moves on as often as it is told, and it can not fail. -/
@[simp] theorem ends_skip (count : Nat) (Q : Unit → State → Prop) :
    Ends E (skip count) options s Q ↔ Q () (s.skip options.maxDigits.toNat count) := by
  unfold Ends
  rw [skip_run]

/-- Entering a level: the limit allows it, or the construct is refused. -/
@[simp] theorem ends_descend (Q : Bool → State → Prop) :
    Ends E descend options s Q ↔
      if s.depth < options.maxDepth.toNat then Q true { s with depth := s.depth + 1 }
      else Q false (s.refuse options) := by
  simp only [descend, skipConstruct, ends_bind, ends_read, ends_get]
  split
  · rfl
  · -- The refusal notes the depth once, and then the rest of the construct is passed over.
    simp only [ends_bind, ends_get, State.refuse, State.noteDepth]
    split
    · simp only [ends_bind, ends_get, ends_pure, ends_skip]
    · simp only [ends_bind, ends_get, ends_modify, ends_report, ends_pure, ends_skip]
      rfl

/-- Leaving a level that was entered. -/
theorem ends_ascend {depth : Nat} (h : s.depth = depth + 1) (Q : Unit → State → Prop) :
    Ends E ascend options s Q ↔ Q () { s with depth } := by
  simp only [ascend, ends_bind, ends_get, h]
  rfl

/-- Leaving a level fails only if none is open. -/
theorem ends_ascend_of_fault (h : E .unbalancedNesting) :
    Ends E ascend options s fun _ _ => True := by
  simp only [ascend, ends_bind, ends_get]
  split
  · exact h
  · trivial

/-- An instruction is emitted while its successor has an address. -/
@[simp] theorem ends_emit (instruction : Instruction) (Q : Nat → State → Prop) :
    Ends E (emit instruction) options s Q ↔
      if s.code.nextAddress < maxWord then
        Q s.code.nextAddress { s with code := s.code.push instruction }
      else E (.addressOverflow s.code.first.toNat) := by
  unfold Ends emit onCode Store.emit
  by_cases h : s.code.nextAddress < maxWord
  · simp only [h, if_true]
  · simp only [h, if_false]

/-- The name of the counter is answered, and the counter is raised by one. -/
@[simp] theorem ends_freshTemp (Q : String → State → Prop) :
    Ends E freshTemp options s Q ↔
      Q (Temporaries.name s.temps.next) { s with temps := ⟨s.temps.next + 1⟩ } := Iff.rfl

/-- The value of an operation goes to the next temporary. -/
@[simp] theorem ends_emitTemp (value : Rvalue) (Q : String → State → Prop) :
    Ends E (emitTemp value) options s Q ↔
      if s.code.nextAddress < maxWord then
        Q (Temporaries.name s.temps.next)
          { s with
            code := s.code.push (.assign (Temporaries.name s.temps.next) value)
            temps := ⟨s.temps.next + 1⟩ }
      else E (.addressOverflow s.code.first.toNat) := by
  simp only [emitTemp, ends_bind, ends_freshTemp, ends_emit, ends_pure]

end

end Generate

/-- What a compilation that succeeds answers. -/
theorem exists_compilation {options : Options} {source : String}
    (h : (compile options source).isOk = true) :
    ∃ compilation, compile options source = .ok compilation := by
  cases hcompile : compile options source with
  | error fault =>
      rw [hcompile] at h
      exact nomatch h
  | ok compilation => exact ⟨compilation, rfl⟩

/-- What is observed of a compilation that succeeds. -/
theorem exists_compilation_of_map {α : Type} {options : Options} {source : String}
    {f : Compilation → α} {a : α} (h : (compile options source).map f = .ok a) :
    ∃ compilation, compile options source = .ok compilation ∧ f compilation = a := by
  cases hcompile : compile options source with
  | error fault =>
      rw [hcompile] at h
      exact nomatch h
  | ok compilation =>
      rw [hcompile] at h
      exact ⟨compilation, rfl, Except.ok.inj h⟩

/-- A compilation that succeeds shows the end of a run of the generator. -/
theorem run_of_compile {options : Options} {source : String} {compilation : Compilation}
    (h : compile options source = .ok compilation) :
    ∃ s, Generate.program (scan source).budget options (.start options (scan source))
        = .ok compilation.program s ∧
      compilation.code = s.code ∧ compilation.diagnostics = s.diagnostics := by
  unfold compile compileTokens at h
  split at h
  · next name? s hrun =>
    obtain rfl := Except.ok.inj h
    exact ⟨s, hrun, rfl, rfl⟩
  · exact nomatch h

end ThreeAddress
