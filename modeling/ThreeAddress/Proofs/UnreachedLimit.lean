import ThreeAddress.Proofs.Lockstep
import ThreeAddress.Proofs.Steps

/-!
# A limit on nesting that is not reached

The limit on nesting is looked at where a statement or an expression starts, and nowhere
else. As long as no construct is refused, a run does the same under every larger limit.
`depthLimits` compares the two runs: their states are equal until the first run refuses a
construct, and from then on it goes its own way. A refusal is reported, so a source without
such a report has one compilation for all larger limits.

- `follows_of_walks`: a step that does not look at the limit does the same in both runs.
- `steady_depthLimits`: the two runs stay in step.
- `compile_depth_limit_unreached`: the conclusion for sources.
-/

set_option autoImplicit false

namespace ThreeAddress

namespace Generate

/-- Two runs that differ in the limit on nesting. Once the first one has refused a construct,
the runs are not compared any more. -/
def depthLimits (options : Options) (maxDepth : UInt64) : Lockstep where
  left := options
  right := { options with maxDepth }
  Rel s s' := s' = s
  Lost _ := False
  Line := Eq
  Addr := Eq
  Excused _ := True
  Apart s := s.depthReported = true

section
variable {α : Type} {options : Options} {maxDepth : UInt64}

/-- A run that has refused a construct stays on its own way. -/
theorem apart_of_walks {x : Generate α} (hwalks : Walks options x) (s : State)
    (hrefused : (depthLimits options maxDepth).Apart s) :
    Ends (depthLimits options maxDepth).Excused x options s fun a t =>
      (∃ b, a = b) ∧ (depthLimits options maxDepth).Apart t :=
  (hwalks s).mono fun a _ hsteps => ⟨⟨a, rfl⟩, hsteps.depthReported hrefused⟩

/-- A step that does not look at the limit does the same in both runs. -/
theorem follows_of_walks {x : Generate α} (hwalks : Walks options x)
    (hsame : ∀ s, x { options with maxDepth } s = x options s) :
    (depthLimits options maxDepth).Follows Eq x x where
  parts := by
    rintro s s' rfl
    unfold Ends
    -- The states are equal and the step is the same, so it is one run that is looked at.
    rw [show (depthLimits options maxDepth).right = { options with maxDepth } from rfl, hsame,
      show (depthLimits options maxDepth).left = options from rfl]
    cases x options s' with
    | ok a t => exact .inl ⟨rfl, rfl⟩
    | error fault t => exact .inl trivial
  lost _ := False.elim
  apart := apart_of_walks hwalks

/-- A level that can be entered under the limit can be entered under a larger one. If it
cannot, the construct is refused. -/
theorem follows_descend (hle : options.maxDepth ≤ maxDepth) :
    (depthLimits options maxDepth).Follows Eq descend descend where
  parts := by
    rintro s s' rfl
    rw [ends_descend, descend_run]
    split
    · next hroom =>
      have hroom' : s'.depth < (depthLimits options maxDepth).right.maxDepth.toNat :=
        Nat.lt_of_lt_of_le hroom (UInt64.le_iff_toNat_le.mp hle)
      rw [if_pos hroom']
      exact .inl ⟨rfl, rfl⟩
    · -- Whatever the larger limit allows, the first run is on its own now.
      exact .inr ⟨⟨false, rfl⟩, State.depthReported_refuse _ _⟩
  lost _ := False.elim
  apart := apart_of_walks walks_descend

/-- **The run under a larger limit stays in step** until a construct is refused. -/
theorem steady_depthLimits (hle : options.maxDepth ≤ maxDepth) :
    (depthLimits options maxDepth).Steady where
  outOfFuel := trivial
  unbalancedNesting := trivial
  current? := follows_of_walks walks_current? fun _ => rfl
  line := follows_of_walks walks_line fun _ => rfl
  checkNumber := follows_of_walks walks_checkNumber fun _ => rfl
  advance := follows_of_walks walks_advance fun _ => rfl
  expected what := follows_of_walks (walks_expected what) fun _ => rfl
  expectEnd := by
    refine follows_of_walks walks_expectEnd fun s => ?_
    simp only [expectEnd, bind_run, current?_run]
    cases s.input.current? <;> rfl
  checkOperand name := by
    refine follows_of_walks (walks_checkOperand name) fun s => ?_
    simp only [checkOperand, get_bind_run]
    cases s.symbols.contains name <;> rfl
  checkTarget name line line' hline := by
    obtain rfl : line = line' := hline
    refine follows_of_walks (walks_checkTarget name line) fun s => ?_
    simp only [checkTarget, get_bind_run]
    rcases s.symbols.kindOf? name with _ | _ | _ <;> rfl
  declare name kind line line' hline := by
    obtain rfl : line = line' := hline
    refine follows_of_walks (walks_declare _) fun s => ?_
    simp only [declare, get_bind_run]
    cases s.symbols.declare? ⟨name, kind, line⟩ <;> rfl
  descend := follows_descend hle
  ascend := by
    refine follows_of_walks walks_ascend fun s => ?_
    simp only [ascend, get_bind_run]
    cases s.depth <;> rfl
  freshTemp := follows_of_walks walks_freshTemp fun _ => rfl
  nextAddress := follows_of_walks walks_nextAddress fun _ => rfl
  emit hsame := by
    rw [← hsame.eq fun _ _ => id]
    exact follows_of_walks (walks_onCode _) fun _ => rfl
  backpatch {list list' target target'} hlist htarget := by
    obtain rfl : target = target' := htarget
    rw [← hlist.eq fun _ _ => id]
    exact follows_of_walks (walks_onCode _) fun _ => rfl
  checkResolved := by
    refine follows_of_walks walks_checkResolved fun s => ?_
    simp only [checkResolved, get_bind_run]
    cases s.code.unresolved <;> rfl

/-- A run that refuses no construct is the run under every larger limit. -/
theorem program_of_larger_limit (hle : options.maxDepth ≤ maxDepth) {input : TokenStream}
    {fuel : Nat} {name? : Option String} {s : State}
    (hrun : program fuel options (.start options input) = .ok name? s)
    (hshallow : s.depthReported = false) :
    program fuel { options with maxDepth } (.start { options with maxDepth } input)
      = .ok name? s := by
  have hparts := (((steady_depthLimits hle).program (Nat.le_refl fuel)).parts
    (.start options input) (.start { options with maxDepth } input) rfl).ok hrun
  rw [show (depthLimits options maxDepth).right = { options with maxDepth } from rfl] at hparts
  -- Either the two runs agree to the end, or the first one has refused a construct.
  rcases hparts with hagrees | ⟨-, hrefused⟩
  · cases hrun' : program fuel { options with maxDepth }
        (.start { options with maxDepth } input) with
    | ok name?' s' =>
        rw [hrun'] at hagrees
        obtain ⟨rfl, rfl⟩ := hagrees
        rfl
    | error fault s' =>
        rw [hrun'] at hagrees
        exact hagrees.2.elim
  · rw [show s.depthReported = true from hrefused] at hshallow
    exact nomatch hshallow

end

end Generate

/-- **A limit on nesting that is not reached has no influence.** A compilation reports at most
once that a construct lies too deep, and names the limit. If it does not, the compilation is
the same under every larger limit. -/
theorem compile_depth_limit_unreached {options : Options} {source : String}
    {compilation : Compilation} (hok : compile options source = .ok compilation) :
    (refusals compilation.diagnostics = [] ∨
      refusals compilation.diagnostics = [options.maxDepth.toNat]) ∧
    (refusals compilation.diagnostics = [] →
      ∀ maxDepth, options.maxDepth ≤ maxDepth →
        compile { options with maxDepth } source = .ok compilation) := by
  unfold compile compileTokens at hok
  split at hok
  · next name? s hrun =>
    obtain rfl := Except.ok.inj hok
    -- Whether a refusal was reported can be seen from the state, and that is what the runs are
    -- compared by.
    have hnoted : refusals s.diagnostics
        = if s.depthReported then [options.maxDepth.toNat] else [] :=
      Generate.notedOnce_of_program hrun
    cases hreported : s.depthReported with
    | true =>
        rw [hreported, if_pos rfl] at hnoted
        refine ⟨.inr hnoted, ?_⟩
        intro hnone
        rw [hnoted] at hnone
        exact nomatch hnone
    | false =>
        rw [hreported, if_neg Bool.false_ne_true] at hnoted
        refine ⟨.inl hnoted, ?_⟩
        intro _ maxDepth hle
        unfold compile compileTokens
        rw [Generate.program_of_larger_limit hle hrun hreported]
  · exact nomatch hok

/-- A source with slips, four levels deep. Under the limit three one construct is refused.
The limit four is just enough, and the largest limit makes no difference any more. -/
theorem compile_depth_limit_unreached_parens :
    (∃ compilation,
      compile { maxDepth := 3 } "PROGRAM p VAR x; BEGIN x = (1 + y x := ) 2" = .ok compilation ∧
      refusals compilation.diagnostics = [3]) ∧
    ∃ compilation,
      compile { maxDepth := 4 } "PROGRAM p VAR x; BEGIN x = (1 + y x := ) 2" = .ok compilation ∧
      refusals compilation.diagnostics = [] ∧
      compile { maxDepth := 18446744073709551615 } "PROGRAM p VAR x; BEGIN x = (1 + y x := ) 2"
        = .ok compilation := by
  refine ⟨exists_compilation_of_map (f := fun c => refusals c.diagnostics) (by decide +kernel), ?_⟩
  obtain ⟨compilation, hok, hnone⟩ := exists_compilation_of_map
    (show (compile { maxDepth := 4 } "PROGRAM p VAR x; BEGIN x = (1 + y x := ) 2").map
      (fun c => refusals c.diagnostics) = .ok [] by decide +kernel)
  have hsame := (compile_depth_limit_unreached hok).2 hnone 18446744073709551615 (by decide)
  exact ⟨compilation, hok, hnone, hsame⟩

end ThreeAddress
