import ThreeAddress.Proofs.Diagnosis
import ThreeAddress.Proofs.JumpBookkeeping
import ThreeAddress.Proofs.Lockstep

/-!
# Runs that look alike

The lines of the tokens and the names that are declared steer nothing: the generator
saves them, and it reports about them. So two runs on the same lexemes differ in their
tables and in their diagnostics at most. A `View` says what of these is compared, and
which lines and tables may stand against each other.

* `View.Alike` is the correspondence of two states, up to what is left to read.
* `View.Lawful` says that the view fits: what is seen of two reports that are made at
  the same time is the same, and a declaration leads from tables that correspond to
  tables that do.
* `View.steady` is the conclusion: under a lawful view two runs stay alike.

All reports about names are those of `Role.problem?`, so a view has to be checked
against this one function.
-/

set_option autoImplicit false

namespace ThreeAddress

/-! ### Reports about names -/

/-- Whether a problem is about the binding of a name. -/
def Problem.isBinding : Problem → Bool
  | duplicateDeclaration _ => true
  | undeclared _ => true
  | assignToConstant _ => true
  | expected _ _ => false
  | numberTooLong _ _ => false
  | nestingTooDeep _ => false
  | trailingInput _ => false

/-- All that is reported about a name is about its binding. -/
theorem Role.isBinding_of_problem? {role : Role} {table : SymbolTable} {lexeme : Lexeme}
    {problem : Problem} (h : role.problem? table lexeme = some problem) :
    problem.isBinding = true := by
  unfold Role.problem? at h
  split at h
  · split at h
    · rw [← Option.some.inj h]
      rfl
    · exact nomatch h
  · split at h
    · exact nomatch h
    · rw [← Option.some.inj h]
      rfl
    · rw [← Option.some.inj h]
      rfl
  · split at h
    · exact nomatch h
    · rw [← Option.some.inj h]
      rfl
  · exact nomatch h

namespace Generate

/-! ### Steps that report -/

/-- The state with a diagnostic more, if there is one. -/
def State.note (s : State) : Option Diagnostic → State
  | some diagnostic => s.report diagnostic
  | none => s

/-- A note does not move the input. -/
@[simp] theorem State.input_note (s : State) (diagnostic? : Option Diagnostic) :
    (s.note diagnostic?).input = s.input := by
  cases diagnostic? <;> rfl

section
variable (options : Options) (s : State) (name : String)

/-- A name that is used as an operand is examined in this role. -/
theorem checkOperand_run :
    checkOperand name options s = .ok () (s.note
      ((Role.operand.problem? s.symbols (.ident name)).map (Diagnostic.mk s.input.line))) := by
  simp only [checkOperand, get_bind_run, Role.problem?]
  cases s.symbols.contains name with
  | true => rfl
  | false => rfl

/-- A name that is assigned to is examined in this role. -/
theorem checkTarget_run (line : Nat) :
    checkTarget name line options s = .ok () (s.note
      ((Role.target.problem? s.symbols (.ident name)).map (Diagnostic.mk line))) := by
  simp only [checkTarget, get_bind_run, Role.problem?]
  rcases s.symbols.kindOf? name with _ | _ | _
  · rfl
  · rfl
  · rfl

/-- A name that is declared is examined in this role, and then it is in the table. -/
theorem declare_run (kind : SymbolKind) (line : Nat) :
    declare ⟨name, kind, line⟩ options s = .ok () { s.note
      (((Role.declares kind).problem? s.symbols (.ident name)).map (Diagnostic.mk line)) with
      symbols := s.symbols.add ⟨name, kind, line⟩ } := by
  -- The table refuses the declaration exactly where the role finds a problem with it.
  have htaken := s.symbols.declare?_eq_none_iff ⟨name, kind, line⟩
  simp only [declare, get_bind_run, Role.problem?, SymbolTable.add]
  cases hadded : s.symbols.declare? ⟨name, kind, line⟩ with
  | none =>
      rw [if_pos (htaken.mp hadded)]
      rfl
  | some after =>
      rw [if_neg (mt htaken.mpr (by simp [hadded]))]
      rfl

end

/-! ### Views -/

/-- Two runs, and what of them is compared. -/
structure View (α : Type) where
  /-- The options of the first run. -/
  left : Options
  /-- The options of the second run. -/
  right : Options
  /-- What is seen of a diagnostic of the first run, if anything is. -/
  seen : Diagnostic → Option α
  /-- What is seen of a diagnostic of the second run. -/
  seen' : Diagnostic → Option α
  /-- The lines that may stand against each other. -/
  Line : Nat → Nat → Prop
  /-- The tables that may stand against each other. -/
  Symbols : SymbolTable → SymbolTable → Prop

namespace View
variable {α : Type} (V : View α)

/-- The same lexeme on lines that correspond. -/
structure SameToken (token token' : Token) : Prop where
  lexeme : token.lexeme = token'.lexeme
  line : V.Line token.line token'.line

/-- The same lexemes are left to read, on lines that correspond. -/
structure SameInput (input input' : TokenStream) : Prop where
  tokens : List.Forall₂ V.SameToken input.tokens input'.tokens
  endLine : V.Line input.endLine input'.endLine

/-- The states look alike, whatever is left to read. -/
structure Alike (s s' : State) : Prop where
  symbols : V.Symbols s.symbols s'.symbols
  code : s.code = s'.code
  temps : s.temps = s'.temps
  depth : s.depth = s'.depth
  depthReported : s.depthReported = s'.depthReported
  diagnostics : s.diagnostics.toList.filterMap V.seen = s'.diagnostics.toList.filterMap V.seen'

/-- The two runs in step. The second ends in a fault only if the first one does. -/
def lockstep : Lockstep where
  left := V.left
  right := V.right
  Rel s s' := V.SameInput s.input s'.input ∧ V.Alike s s'
  Lost _ := False
  Line := V.Line
  Addr := Eq
  Excused fault := fault = .outOfFuel ∨ fault = .unbalancedNesting

/-- What is seen of two reports is the same if they are made at the same time. -/
structure Lawful : Prop where
  maxDepth : V.left.maxDepth = V.right.maxDepth
  syntactic {line line' : Nat} {problem : Problem} (h : V.Line line line')
    (hform : problem.isSyntactic = true) : V.seen ⟨line, problem⟩ = V.seen' ⟨line', problem⟩
  overlong {token token' : Token} (h : V.SameToken token token') :
    (token.overlong? V.left.maxDigits.toNat).bind V.seen
      = (token'.overlong? V.right.maxDigits.toNat).bind V.seen'
  problem {table table' : SymbolTable} {line line' : Nat} (h : V.Symbols table table')
    (hline : V.Line line line') (role : Role) (name : String) :
    ((role.problem? table (.ident name)).map (Diagnostic.mk line)).bind V.seen
      = ((role.problem? table' (.ident name)).map (Diagnostic.mk line')).bind V.seen'
  add {table table' : SymbolTable} {line line' : Nat} (h : V.Symbols table table')
    (hline : V.Line line line') (name : String) (kind : SymbolKind) :
    V.Symbols (table.add ⟨name, kind, line⟩) (table'.add ⟨name, kind, line'⟩)

variable {V}

/-! ### Reading in step -/

namespace SameInput
variable {input input' : TokenStream} (h : V.SameInput input input')
include h

/-- The same lexemes are left in both runs. -/
theorem lexemes : input.lexemes = input'.lexemes := by
  unfold TokenStream.lexemes
  rw [← List.forall₂_eq_eq_eq, List.forall₂_map_left_iff, List.forall₂_map_right_iff]
  exact h.tokens.imp fun _ _ htoken => htoken.lexeme

/-- So the current lexeme is the same. -/
theorem current? : input.current? = input'.current? := by
  rw [TokenStream.current?_eq_head?, TokenStream.current?_eq_head?, h.lexemes]

/-- The current lines correspond. -/
theorem line : V.Line input.line input'.line := by
  obtain ⟨tokens, endLine⟩ := input
  obtain ⟨tokens', endLine'⟩ := input'
  cases h.tokens with
  | nil => exact h.endLine
  | cons htoken _ => exact htoken.line

/-- After one token more the inputs are still the same. -/
theorem tail : V.SameInput input.tail input'.tail := by
  obtain ⟨tokens, endLine⟩ := input
  obtain ⟨tokens', endLine'⟩ := input'
  cases h.tokens with
  | nil => exact ⟨.nil, h.endLine⟩
  | cons _ hrest => exact ⟨hrest, h.endLine⟩

/-- The construct that is skipped has the same length in both runs. -/
theorem constructLength : constructLength 0 input.tokens = constructLength 0 input'.tokens := by
  -- What is skipped and what is left make up all the tokens, and what is left depends on the
  -- lexemes.
  have hleft := constructLength_add_length 0 input.tokens
  have hright := constructLength_add_length 0 input'.tokens
  have hsame : input.tokens.map Token.lexeme = input'.tokens.map Token.lexeme := h.lexemes
  have hlength := h.tokens.length_eq
  rw [hsame] at hleft
  omega

/-- Numbers that are too long are seen in the same way. -/
theorem overlong (hV : V.Lawful) :
    (input.tokens.head?.bind (Token.overlong? V.left.maxDigits.toNat)).bind V.seen
      = (input'.tokens.head?.bind (Token.overlong? V.right.maxDigits.toNat)).bind V.seen' := by
  obtain ⟨tokens, endLine⟩ := input
  obtain ⟨tokens', endLine'⟩ := input'
  cases h.tokens with
  | nil => rfl
  | cons htoken _ => exact hV.overlong htoken

end SameInput

namespace Alike
variable {s s' : State} (h : V.Alike s s')
include h

/-- The states still look alike after reports of which the same is seen. -/
theorem note {diagnostic? diagnostic?' : Option Diagnostic}
    (hseen : diagnostic?.bind V.seen = diagnostic?'.bind V.seen') :
    V.Alike (s.note diagnostic?) (s'.note diagnostic?') := by
  have hnote : ∀ (seen : Diagnostic → Option α) (s : State) (diagnostic? : Option Diagnostic),
      (s.note diagnostic?).diagnostics.toList.filterMap seen
        = s.diagnostics.toList.filterMap seen ++ (diagnostic?.bind seen).toList := by
    intro seen s diagnostic?
    cases diagnostic? with
    | none => exact (List.append_nil _).symm
    | some diagnostic =>
        simp only [State.note, State.report, Array.toList_push, List.filterMap_append]
        cases seen diagnostic <;> rfl
  -- A note changes the diagnostics and nothing else.
  have hkeep : ∀ (s : State) (diagnostic? : Option Diagnostic), s.note diagnostic?
      = { s with diagnostics := (s.note diagnostic?).diagnostics } := by
    intro s diagnostic?
    cases diagnostic? <;> rfl
  rw [hkeep s, hkeep s']
  refine ⟨h.symbols, h.code, h.temps, h.depth, h.depthReported, ?_⟩
  rw [hnote, hnote, h.diagnostics, hseen]

/-- What is left to read may be replaced. -/
theorem withInput (input input' : TokenStream) :
    V.Alike { s with input } { s' with input := input' } :=
  ⟨h.symbols, h.code, h.temps, h.depth, h.depthReported, h.diagnostics⟩

end Alike

/-! ### Steps in step -/

section
variable (hV : V.Lawful) {s s' : State} (hinput : V.SameInput s.input s'.input) (h : V.Alike s s')
include hV hinput h

/-- The check of the current number is seen in the same way. -/
theorem rel_checkNumber : V.lockstep.Rel (s.checkNumber V.left.maxDigits.toNat)
    (s'.checkNumber V.right.maxDigits.toNat) := by
  refine ⟨?_, h.note (hinput.overlong hV)⟩
  rw [State.input_checkNumber, State.input_checkNumber]
  exact hinput

/-- A report about the form is seen in the same way. -/
theorem rel_report {problem : Problem} (hform : problem.isSyntactic = true) :
    V.lockstep.Rel (s.report ⟨s.input.line, problem⟩) (s'.report ⟨s'.input.line, problem⟩) := by
  have hseen : Option.bind (some ⟨s.input.line, problem⟩) V.seen
      = Option.bind (some ⟨s'.input.line, problem⟩) V.seen' := hV.syntactic hinput.line hform
  exact ⟨hinput, h.note hseen⟩

/-- Both runs move on. -/
theorem rel_advance : V.lockstep.Rel (s.advance V.left.maxDigits.toNat)
    (s'.advance V.right.maxDigits.toNat) :=
  rel_checkNumber hV hinput.tail (h.withInput s.input.tail s'.input.tail)

/-- Both runs skip the same number of tokens. -/
theorem rel_skip (count : Nat) : V.lockstep.Rel (s.skip V.left.maxDigits.toNat count)
    (s'.skip V.right.maxDigits.toNat count) := by
  induction count generalizing s s' with
  | zero => exact ⟨hinput, h⟩
  | succ count ih =>
      obtain ⟨hinput', h'⟩ := rel_advance hV hinput h
      exact ih hinput' h'

/-- Both runs refuse the construct that lies too deep, and it is reported in both or
in none. -/
theorem rel_refuse : V.lockstep.Rel (s.refuse V.left) (s'.refuse V.right) := by
  have hnoted : V.lockstep.Rel (s.noteDepth V.left.maxDepth.toNat)
      (s'.noteDepth V.right.maxDepth.toNat) := by
    unfold State.noteDepth
    rw [h.depthReported, hV.maxDepth]
    split
    · exact ⟨hinput, h⟩
    · -- Both runs mark the report before they make it.
      have hmarked : V.Alike { s with depthReported := true } { s' with depthReported := true } :=
        ⟨h.symbols, h.code, h.temps, h.depth, rfl, h.diagnostics⟩
      have hsame : V.SameInput ({ s with depthReported := true } : State).input
          ({ s' with depthReported := true } : State).input := hinput
      have hform : (Problem.nestingTooDeep V.right.maxDepth.toNat).isSyntactic = true := rfl
      exact rel_report hV hsame hmarked hform
  unfold State.refuse
  rw [hinput.constructLength]
  exact rel_skip hV hnoted.1 hnoted.2 _

end

section
variable {β γ : Type} {R : β → γ → Prop} {x : Generate β} {y : Generate γ}

/-- Neither run is ever alone, so it is enough that the two agree. -/
theorem follows_of_agrees
    (h : ∀ s s', V.lockstep.Rel s s' →
      Ends (V.lockstep.Fails (y V.right s')) x V.left s fun a t =>
        V.lockstep.Agrees R a t (y V.right s')) :
    V.lockstep.Follows R x y :=
  .of_agrees (fun _ => id) h fun _ => False.elim

/-- Two actions that never fail follow each other if they lead to values and states that
correspond. -/
theorem follows_of_runs {a : State → β} {b : State → γ} {f g : State → State}
    (hx : ∀ s, x V.left s = .ok (a s) (f s)) (hy : ∀ s, y V.right s = .ok (b s) (g s))
    (h : ∀ s s', V.SameInput s.input s'.input → V.Alike s s' →
      R (a s) (b s') ∧ V.lockstep.Rel (f s) (g s')) :
    V.lockstep.Follows R x y := by
  refine follows_of_agrees ?_
  rintro s s' ⟨hinput, halike⟩
  unfold Ends
  rw [hx, hy]
  exact h s s' hinput halike

/-- The same action on the code has the same outcome in both runs. -/
theorem follows_onCode (action : EStateM Fault Store β) :
    V.lockstep.Follows Eq (onCode action) (onCode action) := by
  refine follows_of_agrees ?_
  rintro s s' ⟨hinput, h⟩
  unfold Ends onCode
  -- The action sees the code only, and the code is the same in both runs.
  rw [← h.code]
  cases action s.code with
  | ok a code =>
      exact ⟨rfl, hinput, h.symbols, rfl, h.temps, h.depth, h.depthReported, h.diagnostics⟩
  | error fault code => exact .inr ⟨fault, _, rfl⟩

end

/-- Both runs report what is found about a name, and the same of it is seen. -/
theorem rel_note {s s' : State} {diagnostic? diagnostic?' : Option Diagnostic}
    (hinput : V.SameInput s.input s'.input) (h : V.Alike s s')
    (hseen : diagnostic?.bind V.seen = diagnostic?'.bind V.seen') :
    V.lockstep.Rel (s.note diagnostic?) (s'.note diagnostic?') := by
  refine ⟨?_, h.note hseen⟩
  rw [State.input_note, State.input_note]
  exact hinput

/-- **Two runs under a lawful view stay alike.** -/
theorem steady (hV : V.Lawful) : V.lockstep.Steady where
  outOfFuel := .inl rfl
  unbalancedNesting := .inr rfl
  current? := follows_of_runs (fun _ => rfl) (fun _ => rfl) fun s s' hinput h =>
    ⟨hinput.current?, hinput, h⟩
  line := follows_of_runs (fun _ => rfl) (fun _ => rfl) fun s s' hinput h =>
    ⟨hinput.line, hinput, h⟩
  checkNumber := follows_of_runs (fun _ => rfl) (fun _ => rfl) fun s s' hinput h =>
    ⟨rfl, rel_checkNumber hV hinput h⟩
  advance := follows_of_runs (fun _ => rfl) (fun _ => rfl) fun s s' hinput h =>
    ⟨rfl, rel_advance hV hinput h⟩
  expected what := by
    refine follows_of_runs (fun _ => rfl) (fun _ => rfl) fun s s' hinput h => ⟨rfl, ?_⟩
    rw [hinput.current?]
    exact rel_report hV hinput h rfl
  expectEnd := by
    refine follows_of_agrees ?_
    rintro s s' ⟨hinput, h⟩
    rw [expectEnd, ends_bind, ends_current?, bind_run, current?_run, hinput.current?]
    cases s'.input.current? with
    | none => exact ⟨rfl, hinput, h⟩
    | some lexeme => exact ⟨rfl, rel_report hV hinput h rfl⟩
  checkOperand name := follows_of_runs (checkOperand_run _ · name) (checkOperand_run _ · name)
    fun s s' hinput h => ⟨rfl, rel_note hinput h (hV.problem h.symbols hinput.line _ name)⟩
  checkTarget name line line' hline := follows_of_runs (checkTarget_run _ · name line)
    (checkTarget_run _ · name line') fun s s' hinput h =>
      ⟨rfl, rel_note hinput h (hV.problem h.symbols hline _ name)⟩
  declare name kind line line' hline := by
    refine follows_of_runs (declare_run _ · name kind line) (declare_run _ · name kind line')
      fun s s' hinput h => ?_
    obtain ⟨hinput', hnoted⟩ := rel_note hinput h (hV.problem h.symbols hline (.declares kind) name)
    exact ⟨rfl, hinput', hV.add h.symbols hline name kind, hnoted.code, hnoted.temps, hnoted.depth,
      hnoted.depthReported, hnoted.diagnostics⟩
  descend := by
    refine follows_of_agrees ?_
    rintro s s' ⟨hinput, h⟩
    -- Depth and limit are the same, so the level is entered in both runs or refused in both.
    rw [ends_descend, descend_run, h.depth, hV.maxDepth]
    split
    · exact ⟨rfl, hinput, h.symbols, h.code, h.temps, rfl, h.depthReported, h.diagnostics⟩
    · exact ⟨rfl, rel_refuse hV hinput h⟩
  ascend := by
    refine follows_of_agrees ?_
    rintro s s' ⟨hinput, h⟩
    simp only [Ends, ascend, get_bind_run, h.depth]
    cases s'.depth with
    | zero => exact .inr ⟨_, _, rfl⟩
    | succ depth =>
        exact ⟨rfl, hinput, h.symbols, h.code, h.temps, rfl, h.depthReported, h.diagnostics⟩
  freshTemp := by
    refine follows_of_runs (fun _ => rfl) (fun _ => rfl) fun s s' hinput h => ?_
    exact ⟨congrArg (fun temps : Temporaries => temps.fresh.1) h.temps, hinput, h.symbols, h.code,
      congrArg (fun temps : Temporaries => temps.fresh.2) h.temps, h.depth, h.depthReported,
      h.diagnostics⟩
  nextAddress := follows_of_runs (fun _ => rfl) (fun _ => rfl) fun s s' hinput h =>
    ⟨congrArg Store.nextAddress h.code, hinput, h⟩
  emit := by
    rintro instruction instruction' hsame
    obtain rfl := hsame.eq fun _ _ => id
    exact follows_onCode (Store.emit instruction)
  backpatch := by
    rintro list list' target target' hlist rfl
    obtain rfl := hlist.eq fun _ _ => id
    exact follows_onCode (list.backpatch target)
  checkResolved := by
    refine follows_of_agrees ?_
    rintro s s' ⟨hinput, h⟩
    simp only [Ends, checkResolved, get_bind_run, h.code]
    cases s'.code.unresolved with
    | nil => exact ⟨rfl, hinput, h⟩
    | cons address rest => exact .inr ⟨_, _, rfl⟩

/-! ### Compilations that look alike -/

/-- What the compilations of two runs that stay alike have in common. -/
structure SameOutcome (V : View α) (compilation compilation' : Compilation) : Prop where
  program : compilation.program = compilation'.program
  symbols : V.Symbols compilation.symbols compilation'.symbols
  code : compilation.code = compilation'.code
  diagnostics : compilation.diagnostics.toList.filterMap V.seen
    = compilation'.diagnostics.toList.filterMap V.seen'

/-- If the runs on two inputs agree, both of them run out of addresses, or both of them
end with compilations that look alike. -/
theorem compileTokens_alike {input input' : TokenStream}
    (h : Ends
      (V.lockstep.Fails (Generate.program input'.budget V.right (.start V.right input')))
      (Generate.program input.budget) V.left (.start V.left input) fun name? s =>
        V.lockstep.Agrees Eq name? s
          (Generate.program input'.budget V.right (.start V.right input'))) :
    (compileTokens V.left input = .error (.addressOverflow V.left.firstAddress.toNat) ∧
      compileTokens V.right input' = .error (.addressOverflow V.right.firstAddress.toNat)) ∨
    ∃ compilation compilation', compileTokens V.left input = .ok compilation ∧
      compileTokens V.right input' = .ok compilation' ∧
      V.SameOutcome compilation compilation' := by
  have hleft := compileTokens_cases V.left input
  have hright := compileTokens_cases V.right input'
  unfold Ends at h
  unfold compileTokens at hleft hright ⊢
  cases hrun : Generate.program input.budget V.left (.start V.left input) with
  | ok name? s =>
      cases hrun' : Generate.program input'.budget V.right (.start V.right input') with
      | ok name?' s' =>
          rw [hrun, hrun'] at h
          obtain ⟨hname, -, halike⟩ := h
          exact .inr ⟨_, _, rfl, rfl, hname, halike.symbols, halike.code, halike.diagnostics⟩
      | error fault' s' =>
          -- The second run does not fail alone.
          rw [hrun, hrun'] at h
          exact h.2.elim
  | error fault s =>
      rw [hrun] at h hleft
      rcases hleft with ⟨_, _, hok, -⟩ | ⟨herror, -⟩
      · exact nomatch hok
      · obtain rfl := Except.error.inj herror
        -- The first run ended in an overflow of addresses, which is no excuse for the second
        -- one.
        rcases h with (hfuel | hnesting) | ⟨fault', s', hrun'⟩
        · exact nomatch hfuel
        · exact nomatch hnesting
        · rw [hrun'] at hright ⊢
          rcases hright with ⟨_, _, hok, -⟩ | ⟨herror', -⟩
          · exact nomatch hok
          · exact .inl ⟨rfl, herror'⟩

end View

end Generate

end ThreeAddress
