import ThreeAddress.Proofs.Compositional
import ThreeAddress.Proofs.DigitLimit

/-!
# Diagnostics follow the source

A problem is reported with the line of the current token, or with the line of a name that the
generator has just moved past. A number of too many digits is reported earlier, namely when it
becomes the current token. So the diagnostics about such numbers and the other ones can overtake
each other, but neither sort gets out of order by itself.

* `pairwise_lines_scan`: the lines of the tokens of a source increase.
* `Orderly` is what holds of the diagnostics at every point of a run: they are of lines that were
  reached, and each sort is in order.
* `compositional_keepsOrder`: all procedures keep it.
* `compile_diagnostics_follow_source`: the diagnostics of a compilation follow the source, and
  what stands behind the program is reported last.
-/

set_option autoImplicit false

namespace ThreeAddress

/-- Whether a problem is that the source goes on behind the program. -/
def Problem.isTrailing : Problem → Bool
  | trailingInput _ => true
  | expected _ _ => false
  | duplicateDeclaration _ => false
  | undeclared _ => false
  | assignToConstant _ => false
  | numberTooLong _ _ => false
  | nestingTooDeep _ => false

/-! ### Lines -/

/-- The lines of the tokens, and behind them that of the end of input. -/
def TokenStream.lines (stream : TokenStream) : List Nat :=
  stream.tokens.map Token.line ++ [stream.endLine]

namespace TokenStream

/-- The line of the first token is the first line. -/
@[simp] theorem lines_cons (token : Token) (stream : TokenStream) :
    (stream.cons token).lines = token.line :: stream.lines := rfl

/-- The current line is the first of those that are left. -/
theorem lines_eq (stream : TokenStream) : ∃ rest, stream.lines = stream.line :: rest := by
  obtain ⟨tokens, endLine⟩ := stream
  cases tokens with
  | nil => exact ⟨[], rfl⟩
  | cons token rest => exact ⟨_, rfl⟩

/-- The current line is one of those that are left. -/
theorem line_mem_lines (stream : TokenStream) : stream.line ∈ stream.lines := by
  obtain ⟨rest, hlines⟩ := stream.lines_eq
  rw [hlines]
  exact List.mem_cons_self

/-- Where the lines increase, the current one is the least of those that are left. -/
theorem line_le {stream : TokenStream} (h : stream.lines.Pairwise (· ≤ ·)) {line : Nat}
    (hmem : line ∈ stream.lines) : stream.line ≤ line := by
  obtain ⟨rest, hlines⟩ := stream.lines_eq
  rw [hlines] at h hmem
  rcases List.mem_cons.mp hmem with heq | hrest
  · exact Nat.le_of_eq heq.symm
  · exact (List.pairwise_cons.mp h).1 line hrest

/-- Moving on leaves the end of the lines. -/
theorem lines_tail_suffix (stream : TokenStream) : stream.tail.lines <:+ stream.lines := by
  obtain ⟨tokens, endLine⟩ := stream
  cases tokens with
  | nil => exact List.suffix_rfl
  | cons token rest => exact List.suffix_cons _ _

end TokenStream

/-- The lines of the tokens increase from the line on which the text starts. -/
theorem pairwise_lines_scanFrom (line : Nat) (cs : List Char) :
    (line :: (scanFrom line cs).lines).Pairwise (· ≤ ·) := by
  fun_induction scanFrom line cs with
  | case1 line => simp [TokenStream.lines]
  | case2 line cs => simp [TokenStream.lines]
  | case3 line c cs hcomment hblank ih =>
      obtain ⟨hfirst, hrest⟩ := List.pairwise_cons.mp ih
      -- A blank may end the line, so what follows starts on the same line or on the next one.
      refine List.pairwise_cons.mpr ⟨fun later hlater => ?_, hrest⟩
      have hafter : line ≤ lineAfter line c := by
        unfold lineAfter
        split <;> omega
      exact Nat.le_trans hafter (hfirst later hlater)
  | case4 line c cs hcomment hblank ih =>
      rw [TokenStream.lines_cons]
      refine List.pairwise_cons.mpr ⟨?_, ih⟩
      intro later hlater
      rcases List.mem_cons.mp hlater with heq | hrest
      · exact Nat.le_of_eq heq.symm
      · exact (List.pairwise_cons.mp ih).1 later hrest

/-- The lines of the tokens of a source increase. -/
theorem pairwise_lines_scan (source : String) : (scan source).lines.Pairwise (· ≤ ·) :=
  (List.pairwise_cons.mp (pairwise_lines_scanFrom 1 source.toList)).2

/-- The lines of the diagnostics about numbers of too many digits, or of all the others. -/
def linesOf (tooLong : Bool) (diagnostics : List Diagnostic) : List Nat :=
  (diagnostics.filter fun d => d.problem.isNumberTooLong == tooLong).map Diagnostic.line

/-- A diagnostic comes last among those of its sort. -/
theorem linesOf_append_singleton (tooLong : Bool) (diagnostics : List Diagnostic)
    (diagnostic : Diagnostic) :
    linesOf tooLong (diagnostics ++ [diagnostic])
      = if diagnostic.problem.isNumberTooLong = tooLong then
          linesOf tooLong diagnostics ++ [diagnostic.line]
        else linesOf tooLong diagnostics := by
  unfold linesOf
  rw [List.filter_append]
  by_cases hsort : diagnostic.problem.isNumberTooLong = tooLong
  · simp [hsort]
  · simp [hsort]

/-- A line of a sort is the line of some diagnostic. -/
theorem mem_of_mem_linesOf {tooLong : Bool} {diagnostics : List Diagnostic} {line : Nat}
    (h : line ∈ linesOf tooLong diagnostics) : ∃ d ∈ diagnostics, d.line = line := by
  obtain ⟨d, hmem, hline⟩ := List.mem_map.mp h
  exact ⟨d, List.mem_of_mem_filter hmem, hline⟩

/-! ### What holds at every point of a run -/

/-- The diagnostics that were reported when `rest` was left to read of `whole`. -/
structure Orderly (whole rest : TokenStream) (diagnostics : Array Diagnostic) : Prop where
  left : rest.lines <:+ whole.lines
  line_mem (d : Diagnostic) (h : d ∈ diagnostics.toList) : d.line ∈ whole.lines
  reached (d : Diagnostic) (h : d ∈ diagnostics.toList) : d.line ≤ rest.line
  ordered (tooLong : Bool) : (linesOf tooLong diagnostics.toList).Pairwise (· ≤ ·)
  inside (d : Diagnostic) (h : d ∈ diagnostics.toList) : d.problem.isTrailing = false

namespace Orderly
variable {whole rest : TokenStream} {diagnostics : Array Diagnostic}

/-- The line of each diagnostic of a sort is reached. -/
theorem le_line (h : Orderly whole rest diagnostics) {tooLong : Bool} {line : Nat}
    (hline : line ∈ linesOf tooLong diagnostics.toList) : line ≤ rest.line := by
  obtain ⟨d, hmem, rfl⟩ := mem_of_mem_linesOf hline
  exact h.reached d hmem

/-- Each sort stays in order if a report does not stand before the last one of its sort. -/
theorem ordered_push (h : Orderly whole rest diagnostics) {diagnostic : Diagnostic}
    (hlast : ∀ line ∈ linesOf diagnostic.problem.isNumberTooLong diagnostics.toList,
      line ≤ diagnostic.line) (tooLong : Bool) :
    (linesOf tooLong (diagnostics.push diagnostic).toList).Pairwise (· ≤ ·) := by
  rw [Array.toList_push, linesOf_append_singleton]
  split
  · next hsort =>
    subst hsort
    rw [List.pairwise_append]
    refine ⟨h.ordered _, List.pairwise_singleton _ _, ?_⟩
    simpa using hlast
  · exact h.ordered tooLong

/-- A report of a line that was reached keeps all of this. -/
theorem push (h : Orderly whole rest diagnostics) {diagnostic : Diagnostic}
    (hmem : diagnostic.line ∈ whole.lines) (hreached : diagnostic.line ≤ rest.line)
    (hlast : ∀ line ∈ linesOf diagnostic.problem.isNumberTooLong diagnostics.toList,
      line ≤ diagnostic.line)
    (hinside : diagnostic.problem.isTrailing = false) :
    Orderly whole rest (diagnostics.push diagnostic) where
  left := h.left
  line_mem := by
    simp only [Array.toList_push, List.forall_mem_append, List.forall_mem_singleton]
    exact ⟨h.line_mem, hmem⟩
  reached := by
    simp only [Array.toList_push, List.forall_mem_append, List.forall_mem_singleton]
    exact ⟨h.reached, hreached⟩
  ordered := h.ordered_push hlast
  inside := by
    simp only [Array.toList_push, List.forall_mem_append, List.forall_mem_singleton]
    exact ⟨h.inside, hinside⟩

/-- A report of the current line keeps the order. -/
theorem pushHere (h : Orderly whole rest diagnostics) {problem : Problem}
    (hinside : problem.isTrailing = false) :
    Orderly whole rest (diagnostics.push ⟨rest.line, problem⟩) :=
  h.push (h.left.subset rest.line_mem_lines) (Nat.le_refl _) (fun _ => h.le_line) hinside

end Orderly

namespace Generate
variable {whole : TokenStream} {options : Options} {s : State}

/-- The diagnostics of a state follow the part of `whole` that was read. -/
def State.Orderly (whole : TokenStream) (s : State) : Prop :=
  ThreeAddress.Orderly whole s.input s.diagnostics

namespace State

/-- The check of a number keeps the order. It adds nothing but a report of the current line. -/
theorem Orderly.checkNumber (h : s.Orderly whole) (maxDigits : Nat) :
    (s.checkNumber maxDigits).Orderly whole ∧
      linesOf false (s.checkNumber maxDigits).diagnostics.toList
        = linesOf false s.diagnostics.toList := by
  unfold State.checkNumber overlong?
  split
  · next diagnostic hlong =>
    obtain ⟨token, htoken, hlong⟩ := Option.bind_eq_some_iff.mp hlong
    obtain ⟨hline, hsort⟩ := Token.diagnostic_of_overlong? hlong
    obtain ⟨tokens, htokens⟩ := List.head?_eq_some_iff.mp htoken
    have hhere : diagnostic.line = s.input.line := by
      rw [hline, TokenStream.line, htokens]
    obtain ⟨line, problem⟩ := diagnostic
    dsimp only at hhere hsort
    subst hhere
    refine ⟨h.pushHere ?_, ?_⟩
    · cases problem with
      | numberTooLong digits max => rfl
      | _ => exact nomatch hsort
    · rw [report, Array.toList_push, linesOf_append_singleton, if_neg (by simp [hsort])]
  · exact ⟨h, rfl⟩

/-- Moving on keeps the order, and reports nothing but a number. -/
theorem Orderly.advance (hsorted : whole.lines.Pairwise (· ≤ ·)) (h : s.Orderly whole)
    (maxDigits : Nat) :
    (s.advance maxDigits).Orderly whole ∧ s.input.line ≤ (s.advance maxDigits).input.line ∧
      linesOf false (s.advance maxDigits).diagnostics.toList
        = linesOf false s.diagnostics.toList := by
  have hleft := s.input.lines_tail_suffix.trans h.left
  have hlater : s.input.line ≤ s.input.tail.line :=
    TokenStream.line_le (hsorted.sublist h.left.sublist)
      (s.input.lines_tail_suffix.subset s.input.tail.line_mem_lines)
  -- Moving on only raises the line that was reached, and then the new token is checked.
  have htail : ({ s with input := s.input.tail } : State).Orderly whole :=
    { h with
      left := hleft
      reached := fun d hd => Nat.le_trans (h.reached d hd) hlater }
  obtain ⟨hchecked, hothers⟩ := htail.checkNumber maxDigits
  refine ⟨hchecked, ?_, hothers⟩
  rw [input_advance]
  exact hlater

/-- Reporting a name at the line where it stands keeps the order, although the generator has
moved past it. -/
theorem Orderly.reportBehind (hsorted : whole.lines.Pairwise (· ≤ ·)) (h : s.Orderly whole)
    (maxDigits : Nat) {problem : Problem} (hsort : problem.isNumberTooLong = false)
    (hinside : problem.isTrailing = false) :
    ((s.advance maxDigits).report ⟨s.input.line, problem⟩).Orderly whole := by
  obtain ⟨hadvanced, hlater, hothers⟩ := h.advance hsorted maxDigits
  refine ThreeAddress.Orderly.push hadvanced (h.left.subset s.input.line_mem_lines) hlater ?_
    hinside
  -- Between the name and the report only a number can have been reported, which is the other
  -- sort.
  intro line hline
  rw [hsort, hothers] at hline
  exact h.le_line hline

/-- The refusal of a construct is reported before the construct is skipped. -/
theorem Orderly.refuse (hsorted : whole.lines.Pairwise (· ≤ ·)) (h : s.Orderly whole)
    (options : Options) : (s.refuse options).Orderly whole := by
  -- The induction is on the number of tokens that are skipped.
  have hskip : ∀ (count : Nat) {t : State}, t.Orderly whole →
      (t.skip options.maxDigits.toNat count).Orderly whole := by
    intro count
    induction count with
    | zero => exact fun ht => ht
    | succ count ih => exact fun ht => ih (ht.advance hsorted _).1
  refine hskip _ ?_
  unfold noteDepth
  split
  · exact h
  · exact h.pushHere rfl

end State

/-- An action that keeps the diagnostics in order. -/
def KeepsOrder (whole : TokenStream) (options : Options) {α : Type} (x : Generate α) : Prop :=
  ∀ s, s.Orderly whole → Ends (fun _ => True) x options s fun _ s' => s'.Orderly whole

/-- A level keeps the diagnostics in order if what is inside does. -/
theorem KeepsOrder.level {α : Type} {body : Generate α} (hsorted : whole.lines.Pairwise (· ≤ ·))
    (hbody : KeepsOrder whole options body) (otherwise : α) :
    KeepsOrder whole options (level body otherwise) := by
  intro s h
  simp only [Generate.level, ends_bind, ends_descend]
  split
  · rw [if_pos trivial, ends_bind]
    refine (hbody { s with depth := s.depth + 1 } h).mono ?_
    intro a t ht
    simp only [ascend, ends_bind, ends_get]
    split
    · trivial
    · exact ht
  · exact h.refuse hsorted options

/-- **Every procedure keeps the diagnostics in order.** -/
theorem compositional_keepsOrder (hsorted : whole.lines.Pairwise (· ≤ ·)) :
    Compositional (KeepsOrder whole options) where
  pure a s h := h
  bind hx hf s h := by
    rw [ends_bind]
    exact (hx s h).mono fun a s' h' => hf a s' h'
  outOfFuel s h := trivial
  current? s h := h
  advance s h := (h.advance hsorted _).1
  expected what s h := h.pushHere rfl
  checkOperand name s h := by
    simp only [checkOperand, ends_bind, ends_get]
    split
    · exact h
    · exact h.pushHere rfl
  target name s h := by
    simp only [target, ends_bind, ends_line, ends_advance, checkTarget, ends_get]
    split
    · exact (h.advance hsorted _).1
    · exact h.reportBehind hsorted _ rfl rfl
    · exact h.reportBehind hsorted _ rfl rfl
  declaration? what kind s h := by
    simp only [declaration?, ident?, ends_bind, ends_line, ends_current?]
    split
    · simp only [ends_bind, ends_advance, ends_pure, declare, ends_get]
      split
      · exact (h.advance hsorted _).1
      · exact h.reportBehind hsorted _ rfl rfl
    · exact h.pushHere rfl
  emit instruction s h := ends_onCode fun _ _ => h
  backpatch list address s h := ends_onCode fun _ _ => h
  nextAddress s h := h
  freshTemp s h := h
  level otherwise hbody := hbody.level hsorted otherwise
  levelFinally otherwise hbody s h := .levelFinally trivial (hbody.level hsorted otherwise s h)

end Generate

/-- Diagnostics that follow a source: they are of its lines, each of the two sorts is in order,
and nothing is reported behind what stands behind the program. -/
structure FollowsSource (input : TokenStream) (diagnostics : List Diagnostic) : Prop where
  line_mem (d : Diagnostic) (h : d ∈ diagnostics) : d.line ∈ input.lines
  ordered (tooLong : Bool) : (linesOf tooLong diagnostics).Pairwise (· ≤ ·)
  trailing (front back : List Diagnostic) (d : Diagnostic) (h : diagnostics = front ++ d :: back)
    (htrailing : d.problem.isTrailing = true) :
    back = [] ∧ ∀ e ∈ front, e.problem.isTrailing = false

/-- Diagnostics in order follow the source. -/
theorem Orderly.followsSource {whole rest : TokenStream} {diagnostics : Array Diagnostic}
    (h : Orderly whole rest diagnostics) : FollowsSource whole diagnostics.toList where
  line_mem := h.line_mem
  ordered := h.ordered
  trailing front back d heq htrailing := by
    have hinside := h.inside d (by simp [heq])
    exact absurd (hinside.symm.trans htrailing) (by simp)

/-- They do so too if the current token is then reported as the first behind the program. -/
theorem Orderly.followsSource_push {whole rest : TokenStream} {diagnostics : Array Diagnostic}
    (h : Orderly whole rest diagnostics) (found : String) :
    FollowsSource whole (diagnostics.push ⟨rest.line, .trailingInput found⟩).toList where
  line_mem := by
    simp only [Array.toList_push, List.forall_mem_append, List.forall_mem_singleton]
    exact ⟨h.line_mem, h.left.subset rest.line_mem_lines⟩
  ordered := h.ordered_push fun _ => h.le_line
  trailing front back d heq htrailing := by
    rw [Array.toList_push] at heq
    rcases back.eq_nil_or_concat with rfl | ⟨between, last, rfl⟩
    · obtain ⟨rfl, -⟩ := List.append_inj' heq rfl
      exact ⟨rfl, h.inside⟩
    · -- Then it stands among those that were reported inside the program.
      rw [List.concat_eq_append, ← List.cons_append, ← List.append_assoc] at heq
      have hfront : diagnostics.toList = front ++ d :: between := (List.append_inj' heq rfl).1
      have hinside := h.inside d (by simp [hfront])
      exact absurd (hinside.symm.trans htrailing) (by simp)

namespace Generate

/-- **The diagnostics of every run follow the source.** -/
theorem program_followsSource {options : Options} {input : TokenStream}
    (hsorted : input.lines.Pairwise (· ≤ ·)) (fuel : Nat) :
    Ends (fun _ => True) (program fuel) options (.start options input) fun _ s =>
      FollowsSource input s.diagnostics.toList := by
  have hkeeps : Compositional (KeepsOrder input options) := compositional_keepsOrder hsorted
  have hstart : (State.start options input).Orderly input :=
    ⟨List.suffix_rfl, nofun, nofun, fun _ => .nil, nofun⟩
  simp only [program, ends_bind, ends_checkNumber]
  refine (hkeeps.expect _ _ (hstart.checkNumber _).1).mono fun _ s₁ h₁ => ?_
  refine (hkeeps.ident? _ s₁ h₁).mono fun _ s₂ h₂ => ?_
  refine (hkeeps.declarations fuel s₂ h₂).mono fun _ s₃ h₃ => ?_
  refine (hkeeps.statement fuel _ s₃ h₃).mono fun next s₄ h₄ => ?_
  have hend : Ends (fun _ => True) expectEnd options s₄ fun _ s₅ =>
      FollowsSource input s₅.diagnostics.toList := by
    simp only [expectEnd, ends_bind, ends_current?]
    split
    · exact Orderly.followsSource_push h₄ _
    · exact Orderly.followsSource h₄
  -- What is done to the code afterwards reports nothing.
  refine hend.mono fun _ s₅ h₅ => ?_
  simp only [backpatchHere, ends_bind, ends_nextAddress]
  refine ends_onCode fun _ code => ?_
  simp only [checkResolved, ends_bind, ends_get, ends_pure]
  split
  · exact h₅
  · trivial

end Generate

/-- **Diagnostics follow the source.** -/
theorem compile_diagnostics_follow_source {options : Options} {source : String}
    {compilation : Compilation} (h : compile options source = .ok compilation) :
    FollowsSource (scan source) compilation.diagnostics.toList := by
  obtain ⟨s, hrun, -, hdiagnostics⟩ := run_of_compile h
  rw [hdiagnostics]
  exact (Generate.program_followsSource (pairwise_lines_scan source) _).ok hrun

/-- A malformed source whose third line is reported after a number of the fourth, and which goes
on behind the program. -/
theorem compile_diagnostics_follow_source_overtaken :
    ∃ compilation,
      compile { maxDigits := 3 } "PROGRAM p\nVAR x, x;\ny\n12345 * z\n)" = .ok compilation ∧
      compilation.diagnostics.toList.map Diagnostic.line = [2, 4, 3, 4, 4, 5] ∧
      FollowsSource (scan "PROGRAM p\nVAR x, x;\ny\n12345 * z\n)")
        compilation.diagnostics.toList := by
  obtain ⟨compilation, hok, hlines⟩ := exists_compilation_of_map
    (show (compile { maxDigits := 3 } "PROGRAM p\nVAR x, x;\ny\n12345 * z\n)").map
      (fun c => c.diagnostics.toList.map Diagnostic.line) = .ok [2, 4, 3, 4, 4, 5] by
        decide +kernel)
  exact ⟨compilation, hok, hlines, compile_diagnostics_follow_source hok⟩

end ThreeAddress
