import ThreeAddress.Proofs.Resemblance

/-!
# The limit on digits is only reported

A number of too many digits is reported when it becomes the current token, and then it is
read like any other number. So the limit decides which numbers are reported and nothing else.
Under a larger limit a source has the same outcome, and its diagnostics are those under the
smaller one, without the numbers that are short enough now.

`Diagnostic.relaxed? max` is what becomes of a diagnostic when the limit is raised to `max`,
and `digitLimits` is the view in which the diagnostics of the first run are compared in this
form. The order in which the two kinds of report alternate is compared as well.
-/

set_option autoImplicit false

namespace ThreeAddress

/-- Whether a problem is a number of too many digits. -/
def Problem.isNumberTooLong : Problem → Bool
  | numberTooLong _ _ => true
  | expected _ _ => false
  | duplicateDeclaration _ => false
  | undeclared _ => false
  | assignToConstant _ => false
  | nestingTooDeep _ => false
  | trailingInput _ => false

/-- What a token deserves by itself is a report of its line, about a number. -/
theorem Token.diagnostic_of_overlong? {max : Nat} {token : Token} {diagnostic : Diagnostic}
    (h : token.overlong? max = some diagnostic) :
    diagnostic.line = token.line ∧ diagnostic.problem.isNumberTooLong = true := by
  unfold overlong? at h
  split at h
  · split at h
    · rw [← Option.some.inj h]
      exact ⟨rfl, rfl⟩
    · exact nomatch h
  · exact nomatch h

namespace Diagnostic

/-- What becomes of a diagnostic when the limit on digits is raised to `max`: a number that
is short enough now is not reported any more, and every other one names the new limit. -/
def relaxed? (max : Nat) (diagnostic : Diagnostic) : Option Diagnostic :=
  match diagnostic.problem with
  | .numberTooLong digits _ =>
    if max < digits.length then some ⟨diagnostic.line, .numberTooLong digits max⟩ else none
  | _ => some diagnostic

/-- A diagnostic about something else stays as it is. -/
theorem relaxed?_of_not {diagnostic : Diagnostic}
    (h : diagnostic.problem.isNumberTooLong = false) (max : Nat) :
    diagnostic.relaxed? max = some diagnostic := by
  obtain ⟨line, problem⟩ := diagnostic
  cases problem with
  | numberTooLong digits _ => exact nomatch h
  | _ => rfl

/-- What is left of a diagnostic about a number is about a number. -/
theorem isNumberTooLong_of_relaxed? {max : Nat} {diagnostic diagnostic' : Diagnostic}
    (h : diagnostic.relaxed? max = some diagnostic') :
    diagnostic'.problem.isNumberTooLong = diagnostic.problem.isNumberTooLong := by
  cases hlong : diagnostic.problem.isNumberTooLong with
  | false =>
      rw [relaxed?_of_not hlong] at h
      rw [← Option.some.inj h, hlong]
  | true =>
      obtain ⟨line, problem⟩ := diagnostic
      cases problem with
      | numberTooLong digits _ =>
          unfold relaxed? at h
          split at h
          · split at h
            · rw [← Option.some.inj h]
              rfl
            · exact nomatch h
          · next hother => exact absurd rfl (hother _ _)
      | _ => exact nomatch hlong

/-- Whether a diagnostic is about a number can be asked before the limit is raised. -/
theorem filter_relaxed? (max : Nat) (p : Bool → Bool) (diagnostics : List Diagnostic) :
    (diagnostics.filterMap (relaxed? max)).filter (fun d => p d.problem.isNumberTooLong)
      = (diagnostics.filter fun d => p d.problem.isNumberTooLong).filterMap (relaxed? max) := by
  -- Both sides are one pass over the diagnostics, and they are compared diagnostic by
  -- diagnostic.
  rw [List.filter_filterMap, List.filterMap_filter]
  congr 1
  funext diagnostic
  cases hrelaxed : diagnostic.relaxed? max with
  | none => simp
  | some diagnostic' => simp [Option.filter_some, isNumberTooLong_of_relaxed? hrelaxed]

/-- The diagnostics about something else are the same. -/
theorem filterMap_relaxed?_of_not (max : Nat) (diagnostics : List Diagnostic) :
    (diagnostics.filter fun d => !d.problem.isNumberTooLong).filterMap (relaxed? max)
      = diagnostics.filter fun d => !d.problem.isNumberTooLong := by
  rw [List.filterMap_filter, ← List.filterMap_eq_filter]
  congr 1
  funext diagnostic
  cases hlong : diagnostic.problem.isNumberTooLong with
  | false => simp [relaxed?_of_not hlong, Option.guard, hlong]
  | true => simp [Option.guard, hlong]

end Diagnostic

namespace Generate

/-- Two runs that differ in the limit on digits. What is seen of the first one is what the
limit of the second leaves of it. -/
def digitLimits (options : Options) (maxDigits : UInt64) : View Diagnostic where
  left := options
  right := { options with maxDigits }
  seen := Diagnostic.relaxed? maxDigits.toNat
  seen' := some
  Line := Eq
  Symbols := Eq

/-- Under a larger limit a token is reported if it still is too long. -/
theorem overlong?_bind_relaxed? {max max' : Nat} (hle : max ≤ max') (token : Token) :
    (token.overlong? max).bind (Diagnostic.relaxed? max') = token.overlong? max' := by
  unfold Token.overlong?
  split
  · next digits _ =>
    by_cases hlong : max < digits.length
    · rw [if_pos hlong]
      rfl
    · rw [if_neg hlong, if_neg (by omega)]
      rfl
  · rfl

/-- **A larger limit on digits changes reports about numbers only.** What is reported about a
form or about a name is not about a number, so nothing of it is left out or rewritten. -/
theorem lawful_digitLimits {options : Options} {maxDigits : UInt64}
    (hle : options.maxDigits ≤ maxDigits) : (digitLimits options maxDigits).Lawful where
  maxDepth := rfl
  syntactic {line line' problem} hline hform := by
    obtain rfl : line = line' := hline
    refine Diagnostic.relaxed?_of_not ?_ _
    cases problem with
    | numberTooLong digits max => exact nomatch hform
    | _ => rfl
  overlong {token token'} h := by
    obtain ⟨lexeme, line⟩ := token
    obtain ⟨lexeme', line'⟩ := token'
    obtain rfl : lexeme = lexeme' := h.lexeme
    obtain rfl : line = line' := h.line
    exact (overlong?_bind_relaxed? (UInt64.le_iff_toNat_le.mp hle) _).trans
      (Option.bind_fun_some _).symm
  problem {table table' line line'} h hline role name := by
    obtain rfl : table = table' := h
    obtain rfl : line = line' := hline
    cases hproblem : role.problem? table (.ident name) with
    | none => rfl
    | some problem =>
        -- What is reported about a name is not about a number.
        have hbinding := Role.isBinding_of_problem? hproblem
        have hnot : (Diagnostic.mk line problem).problem.isNumberTooLong = false := by
          cases problem with
          | numberTooLong digits max => exact nomatch hbinding
          | _ => rfl
        exact Diagnostic.relaxed?_of_not hnot _
  add {table table' line line'} h hline name kind := by
    obtain rfl : table = table' := h
    obtain rfl : line = line' := hline
    rfl

end Generate

/-- **The limit on digits is only reported.** If it is raised, both compilations run out of
addresses, or both succeed with the same program name, the same names and the same code. All
diagnostics but those about long numbers stay, and of those the ones stay whose numbers are
still too long. -/
theorem compile_digit_limit_only_reported (options : Options) {maxDigits : UInt64}
    (hle : options.maxDigits ≤ maxDigits) (source : String) :
    (compile options source = .error (.addressOverflow options.firstAddress.toNat) ∧
      compile { options with maxDigits } source
        = .error (.addressOverflow options.firstAddress.toNat)) ∨
    ∃ compilation compilation', compile options source = .ok compilation ∧
      compile { options with maxDigits } source = .ok compilation' ∧
      compilation.program = compilation'.program ∧
      compilation.symbols = compilation'.symbols ∧
      compilation.code = compilation'.code ∧
      compilation.diagnostics.toList.filter (fun d => !d.problem.isNumberTooLong)
        = compilation'.diagnostics.toList.filter (fun d => !d.problem.isNumberTooLong) ∧
      compilation'.diagnostics.toList.filter (fun d => d.problem.isNumberTooLong)
        = (compilation.diagnostics.toList.filter fun d => d.problem.isNumberTooLong).filterMap
            (Diagnostic.relaxed? maxDigits.toNat) := by
  have hV := Generate.lawful_digitLimits hle
  have hinput : (Generate.digitLimits options maxDigits).SameInput (scan source) (scan source) :=
    ⟨List.forall₂_same.mpr fun _ _ => ⟨rfl, rfl⟩, rfl⟩
  have hstart : (Generate.digitLimits options maxDigits).lockstep.Rel
      (.start options (scan source)) (.start { options with maxDigits } (scan source)) :=
    ⟨hinput, rfl, rfl, rfl, rfl, rfl, rfl⟩
  have hagrees := ((Generate.View.steady hV).program
    (Nat.le_refl (scan source).budget)).agrees (fun _ => id) hstart
  rcases Generate.View.compileTokens_alike hagrees with
    hfail | ⟨compilation, compilation', hok, hok', hsame⟩
  · exact .inl hfail
  · -- What is seen of the first run are the diagnostics of the second.
    have hdiagnostics : compilation.diagnostics.toList.filterMap
        (Diagnostic.relaxed? maxDigits.toNat) = compilation'.diagnostics.toList :=
      hsame.diagnostics.trans List.filterMap_some
    refine .inr ⟨compilation, compilation', hok, hok', hsame.program, hsame.symbols, hsame.code,
      ?_, ?_⟩
    · rw [← hdiagnostics, Diagnostic.filter_relaxed? _ not, Diagnostic.filterMap_relaxed?_of_not]
    · rw [← hdiagnostics]
      exact Diagnostic.filter_relaxed? _ id _

/-- A source with numbers of two, three and five digits, the last in a construct that is
skipped, and with other slips. Under the larger limit one number is still too long. -/
theorem compile_digit_limit_only_reported_skipped :
    ∃ compilation compilation',
      compile { maxDigits := 1, maxDepth := 2 } "PROGRAM p y = 12 + (777) * (12345" = .ok compilation ∧
      compile { maxDigits := 4, maxDepth := 2 } "PROGRAM p y = 12 + (777) * (12345" = .ok compilation' ∧
      compilation.program = compilation'.program ∧
      compilation.symbols = compilation'.symbols ∧
      compilation.code = compilation'.code ∧
      compilation.diagnostics.toList.filter (fun d => !d.problem.isNumberTooLong)
        = compilation'.diagnostics.toList.filter (fun d => !d.problem.isNumberTooLong) ∧
      compilation'.diagnostics.toList.filter (fun d => d.problem.isNumberTooLong)
        = (compilation.diagnostics.toList.filter fun d => d.problem.isNumberTooLong).filterMap
            (Diagnostic.relaxed? 4) := by
  obtain ⟨compilation, hok⟩ := exists_compilation
    (show (compile { maxDigits := 1, maxDepth := 2 } "PROGRAM p y = 12 + (777) * (12345").isOk
      = true by decide +kernel)
  have hle : ({ maxDigits := 1, maxDepth := 2 } : Options).maxDigits ≤ 4 := by decide
  rcases compile_digit_limit_only_reported { maxDigits := 1, maxDepth := 2 } hle
      "PROGRAM p y = 12 + (777) * (12345" with ⟨hfail, -⟩ | hsame
  · rw [hok] at hfail
    exact nomatch hfail
  · exact hsame

end ThreeAddress
