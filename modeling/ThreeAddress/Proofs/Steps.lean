import Mathlib.Logic.Relation
import ThreeAddress.Proofs.Compositional

/-!
# What a run does to the diagnostics, step by step

`Generate.Step` lists what a single step of the generator can do to the input,
the diagnostics and the record of the depth: move on, report a problem, or note
that a construct lies too deep. Everything else a step changes is left open.
`program_walks` says that every run is a sequence of such steps, whatever the
tokens and the budget are. An invariant of `Step` is therefore an invariant of
every run.

`refusals` are the diagnostics that say so of the depth. The first use is
`notedOnce_of_program`: there is one of them if a construct was refused, and none
otherwise.
-/

set_option autoImplicit false

namespace ThreeAddress

/-- The limit on nesting that a problem names, if it is that a construct lies too
deep. -/
def Problem.exceeded? : Problem → Option Nat
  | nestingTooDeep max => some max
  | expected _ _ => none
  | duplicateDeclaration _ => none
  | undeclared _ => none
  | assignToConstant _ => none
  | numberTooLong _ _ => none
  | trailingInput _ => none

/-- The reports of a construct that lies too deep: the limit that each of them
names. -/
def refusals (diagnostics : Array Diagnostic) : List Nat :=
  diagnostics.toList.filterMap fun diagnostic => diagnostic.problem.exceeded?

/-- A diagnostic that is added counts if it is a refusal. -/
theorem refusals_push (diagnostics : Array Diagnostic) (diagnostic : Diagnostic) :
    refusals (diagnostics.push diagnostic)
      = refusals diagnostics ++ diagnostic.problem.exceeded?.toList := by
  unfold refusals
  rw [Array.toList_push, List.filterMap_append]
  cases hexceeded : diagnostic.problem.exceeded? with
  | none => simp [hexceeded]
  | some max => simp [hexceeded]

/-- A report of something else is none of them. -/
theorem refusals_push_of_ne {diagnostic : Diagnostic}
    (h : ∀ max, diagnostic.problem ≠ .nestingTooDeep max) (diagnostics : Array Diagnostic) :
    refusals (diagnostics.push diagnostic) = refusals diagnostics := by
  have hexceeded : diagnostic.problem.exceeded? = none := by
    cases hproblem : diagnostic.problem with
    | nestingTooDeep max => exact absurd hproblem (h max)
    | _ => rfl
  rw [refusals_push, hexceeded]
  exact List.append_nil _

/-- What a token deserves by itself is a report of something else. -/
theorem Token.problem_ne_of_overlong? {max : Nat} {token : Token} {diagnostic : Diagnostic}
    (h : token.overlong? max = some diagnostic) (limit : Nat) :
    diagnostic.problem ≠ .nestingTooDeep limit := by
  unfold overlong? at h
  split at h
  · split at h
    · rw [← Option.some.inj h]
      simp
    · exact nomatch h
  · exact nomatch h

namespace Generate

/-- What one step can do to the input, the diagnostics and the record of the
depth. -/
inductive Step (options : Options) : State → State → Prop where
  /-- It moves to the next token. -/
  | advance (s : State) : Step options s (s.advance options.maxDigits.toNat)
  /-- It checks the first token. -/
  | checkNumber (s : State) : Step options s (s.checkNumber options.maxDigits.toNat)
  /-- It reports a problem other than the depth. -/
  | report (s : State) (diagnostic : Diagnostic)
      (h : ∀ max, diagnostic.problem ≠ .nestingTooDeep max) : Step options s (s.report diagnostic)
  /-- It notes that a construct lies too deep. -/
  | noteDepth (s : State) : Step options s (s.noteDepth options.maxDepth.toNat)
  /-- It changes something else. -/
  | other {s s' : State} (input : s'.input = s.input) (diagnostics : s'.diagnostics = s.diagnostics)
      (depthReported : s'.depthReported = s.depthReported) : Step options s s'

/-- Any number of steps. -/
abbrev Steps (options : Options) : State → State → Prop := Relation.ReflTransGen (Step options)

/-- The runs of `x` that end well consist of steps. -/
def Walks {α : Type} (options : Options) (x : Generate α) : Prop :=
  ∀ s, Ends (fun _ => True) x options s fun _ s' => Steps options s s'

section
variable {α β : Type} {options : Options}

/-- To answer at once takes no step. -/
theorem Walks.pure (a : α) : Walks options (pure a) := fun _ => .refl

/-- Nothing is asked of a run that fails. -/
theorem Walks.throw (fault : Fault) : Walks options (throw fault : Generate α) := fun _ => trivial

/-- Steps after steps are steps. -/
theorem Walks.bind {x : Generate α} {f : α → Generate β} (hx : Walks options x)
    (hf : ∀ a, Walks options (f a)) : Walks options (x >>= f) := by
  intro s
  rw [ends_bind]
  refine (hx s).mono ?_
  intro a s' hsteps
  refine (hf a s').mono ?_
  intro b s'' hsteps'
  exact hsteps.trans hsteps'

/-! ### The shared steps -/

/-- Looking at the state takes no step. -/
theorem walks_get : Walks options get := fun _ => .refl

/-- Looking at the current lexeme takes no step. -/
theorem walks_current? : Walks options current? := fun _ => .refl

/-- Asking for the line takes no step. -/
theorem walks_line : Walks options line := fun _ => .refl

/-- Moving on is a step. -/
theorem walks_advance : Walks options advance := fun s => .single (.advance s)

/-- The check of a number is a step. -/
theorem walks_checkNumber : Walks options checkNumber := fun s => .single (.checkNumber s)

/-- A report is a step if it does not say that a construct lies too deep. -/
theorem walks_reportAt (line : Nat) {problem : Problem}
    (h : ∀ max, problem ≠ .nestingTooDeep max) : Walks options (reportAt line problem) :=
  fun s => .single (.report s _ h)

/-- A report at the current line is a step on the same condition. -/
theorem walks_report {problem : Problem} (h : ∀ max, problem ≠ .nestingTooDeep max) :
    Walks options (report problem) :=
  fun s => .single (.report s _ h)

/-- The report that something is missing is a step. -/
theorem walks_expected (what : String) : Walks options (expected what) :=
  walks_current?.bind fun _ => walks_report (by simp)

/-- A name is passed, or it is reported that there is none. -/
theorem walks_ident? (what : String) : Walks options (ident? what) := by
  refine walks_current?.bind fun _ => ?_
  split
  · exact walks_advance.bind fun _ => .pure _
  · exact (walks_expected _).bind fun _ => .pure _

/-- Work on the code is none of the steps that count. -/
theorem walks_onCode (action : EStateM Fault Store α) : Walks options (onCode action) :=
  fun _ => ends_onCode fun _ _ => .single (.other rfl rfl rfl)

/-- Asking for the next address takes no step. -/
theorem walks_nextAddress : Walks options nextAddress := fun _ => .refl

/-- The counter of temporaries is none of the parts that a step is about. -/
theorem walks_freshTemp : Walks options freshTemp := fun _ => .single (.other rfl rfl rfl)

/-- Skipping is moving on a number of times. -/
theorem steps_skip (s : State) (count : Nat) :
    Steps options s (s.skip options.maxDigits.toNat count) := by
  induction count generalizing s with
  | zero => exact .refl
  | succ count ih => exact (Relation.ReflTransGen.single (.advance s)).trans (ih _)

/-- A level is entered in one step. A refusal consists of the note and of the steps that skip the
construct. -/
theorem walks_descend : Walks options descend := by
  intro s
  rw [ends_descend]
  split
  · exact .single (.other rfl rfl rfl)
  · exact (Relation.ReflTransGen.single (.noteDepth s)).trans (steps_skip _ _)

/-- A level is left in one step. If none is open, the run fails. -/
theorem walks_ascend : Walks options ascend := by
  refine walks_get.bind fun s => ?_
  split
  · exact .throw _
  · exact fun _ => .single (.other rfl rfl rfl)

/-- An undeclared operand is reported, which is a step. -/
theorem walks_checkOperand (name : String) : Walks options (checkOperand name) := by
  refine walks_get.bind fun s => ?_
  split
  · exact .pure _
  · exact walks_report (by simp)

/-- A target that is no variable is reported, which is a step. -/
theorem walks_checkTarget (name : String) (line : Nat) : Walks options (checkTarget name line) := by
  refine walks_get.bind fun s => ?_
  split
  · exact .pure _
  · exact walks_reportAt _ (by simp)
  · exact walks_reportAt _ (by simp)

/-- A name is entered into the table, or reported as taken. -/
theorem walks_declare (entry : Symbol) : Walks options (declare entry) := by
  refine walks_get.bind fun s => ?_
  split
  · exact fun _ => .single (.other rfl rfl rfl)
  · exact walks_reportAt _ (by simp)

/-- A level consists of steps if what is inside does. -/
theorem walks_level {body : Generate α} (otherwise : α) (hbody : Walks options body) :
    Walks options (level body otherwise) := by
  refine walks_descend.bind fun _ => ?_
  split
  · exact hbody.bind fun _ => walks_ascend.bind fun _ => .pure _
  · exact .pure _

/-- **Every procedure consists of steps.** -/
theorem compositional_walks (options : Options) : Compositional (Walks options) where
  pure := .pure
  bind := .bind
  outOfFuel := .throw _
  current? := walks_current?
  advance := walks_advance
  expected := walks_expected
  checkOperand := walks_checkOperand
  target name := walks_line.bind fun _ => walks_advance.bind fun _ => walks_checkTarget name _
  declaration? what kind := by
    refine walks_line.bind fun _ => (walks_ident? what).bind fun name? => ?_
    cases name? with
    | none => exact .pure _
    | some name => exact (walks_declare _).bind fun _ => .pure _
  emit instruction := walks_onCode (Store.emit instruction)
  backpatch list address := walks_onCode (list.backpatch address)
  nextAddress := walks_nextAddress
  freshTemp := walks_freshTemp
  level := walks_level
  levelFinally otherwise hbody s := .levelFinally trivial (walks_level otherwise hbody s)

/-- What stands behind the program is reported, which is a step. -/
theorem walks_expectEnd : Walks options expectEnd := by
  refine walks_current?.bind fun _ => ?_
  split
  · exact walks_report (by simp)
  · exact .pure _

/-- The last check only looks at the code. -/
theorem walks_checkResolved : Walks options checkResolved := by
  refine walks_get.bind fun s => ?_
  split
  · exact .pure _
  · exact .throw _

/-- **Every run of the generator is a sequence of steps.** -/
theorem program_walks (fuel : Nat) : Walks options (program fuel) := by
  have hwalks := compositional_walks options
  exact walks_checkNumber.bind fun _ => (hwalks.expect _).bind fun _ =>
    (walks_ident? _).bind fun _ => (hwalks.declarations fuel).bind fun _ =>
      (hwalks.statement fuel _).bind fun _ => walks_expectEnd.bind fun _ =>
        (hwalks.backpatchHere _).bind fun _ => walks_checkResolved.bind fun _ => .pure _

end

/-! ### The note on the depth -/

/-- A refusal stays on record. -/
theorem Steps.depthReported {options : Options} {s s' : State} (h : Steps options s s')
    (hreported : s.depthReported = true) : s'.depthReported = true := by
  induction h with
  | refl => exact hreported
  | tail _ hstep ih =>
      cases hstep with
      | advance => rw [State.depthReported_advance, ih]
      | checkNumber => rw [State.depthReported_checkNumber, ih]
      | report diagnostic _ => exact ih
      | noteDepth => exact (State.noteDepth_keeps _ _).2.2.2.2
      | other _ _ hsame => rw [hsame, ih]

/-- The diagnostics say once that a construct was refused, and only if one was. -/
def NotedOnce (options : Options) (s : State) : Prop :=
  refusals s.diagnostics = if s.depthReported then [options.maxDepth.toNat] else []

/-- The check of a number adds no such report. -/
theorem refusals_checkNumber (s : State) (maxDigits : Nat) :
    refusals (s.checkNumber maxDigits).diagnostics = refusals s.diagnostics := by
  unfold State.checkNumber State.overlong?
  split
  · next diagnostic hlong =>
    obtain ⟨token, -, htoken⟩ := Option.bind_eq_some_iff.mp hlong
    exact refusals_push_of_ne (Token.problem_ne_of_overlong? htoken) _
  · rfl

/-- A step that neither refuses nor reports a refusal keeps the note. -/
theorem NotedOnce.keep {options : Options} {s s' : State} (h : NotedOnce options s)
    (hreported : s'.depthReported = s.depthReported)
    (hrefusals : refusals s'.diagnostics = refusals s.diagnostics) : NotedOnce options s' := by
  unfold NotedOnce
  rw [hreported, hrefusals]
  exact h

/-- Each step keeps the note. -/
theorem NotedOnce.step {options : Options} {s s' : State} (h : NotedOnce options s)
    (hstep : Step options s s') : NotedOnce options s' := by
  cases hstep with
  | advance =>
      -- Moving on is to drop a token and to check the next one.
      exact h.keep (State.depthReported_advance _ _)
        (refusals_checkNumber { s with input := s.input.tail } _)
  | checkNumber => exact h.keep (State.depthReported_checkNumber _ _) (refusals_checkNumber _ _)
  | report diagnostic hproblem => exact h.keep rfl (refusals_push_of_ne hproblem _)
  | noteDepth =>
      unfold State.noteDepth
      split
      · exact h
      · next hshallow =>
        -- The first refusal adds the report that is asked for, and there was none before.
        have hnone : refusals s.diagnostics = [] := by
          rw [h, if_neg hshallow]
        exact (refusals_push _ _).trans (by rw [hnone]; rfl)
  | other _ hdiagnostics hreported => exact h.keep hreported (congrArg refusals hdiagnostics)

/-- **A refusal is reported once.** At the end of every run the diagnostics say so
exactly if a construct was refused. -/
theorem notedOnce_of_program {options : Options} {input : TokenStream} {fuel : Nat}
    {name? : Option String} {s : State}
    (hrun : program fuel options (.start options input) = .ok name? s) : NotedOnce options s := by
  have hsteps : Steps options (.start options input) s := (program_walks fuel _).ok hrun
  clear hrun
  induction hsteps with
  -- Nothing has been refused before the first step.
  | refl => rfl
  | tail _ hstep ih => exact ih.step hstep

/-- If a construct was refused, a diagnostic says so. -/
def DepthNoted (options : Options) (s : State) : Prop :=
  s.depthReported = true →
    ∃ diagnostic ∈ s.diagnostics, diagnostic.problem = .nestingTooDeep options.maxDepth.toNat

/-- At the end of every run, a refused construct is on record. -/
theorem depthNoted_of_program {options : Options} {input : TokenStream} {fuel : Nat}
    {name? : Option String} {s : State}
    (hrun : program fuel options (.start options input) = .ok name? s) : DepthNoted options s := by
  intro hreported
  have hnoted : refusals s.diagnostics = [options.maxDepth.toNat] := by
    rw [notedOnce_of_program hrun, if_pos hreported]
  have hmem : options.maxDepth.toNat ∈ refusals s.diagnostics := by
    rw [hnoted]
    exact List.mem_singleton_self _
  obtain ⟨diagnostic, hdiagnostic, hexceeded⟩ := List.mem_filterMap.mp hmem
  refine ⟨diagnostic, Array.mem_toList_iff.mp hdiagnostic, ?_⟩
  cases hproblem : diagnostic.problem with
  | nestingTooDeep max =>
      rw [hproblem] at hexceeded
      rw [Option.some.inj hexceeded]
  | _ =>
      rw [hproblem] at hexceeded
      exact nomatch hexceeded

end Generate

end ThreeAddress
