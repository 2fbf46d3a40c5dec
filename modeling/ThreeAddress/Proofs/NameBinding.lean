import ThreeAddress.Proofs.Resemblance

/-!
# Declarations do not influence the code

A name that is looked up is reported or it is not, and the generator goes on in the same
way. So a section of variables in front of a program changes nothing but what is said
about names. Whatever stands behind the header of a program, with and without such a
section there, both compilations run out of addresses, or both succeed with the same code
and the same diagnostics, apart from those about the binding of names.

`withoutNames` is the view in which no table and no such diagnostic is seen. The section
itself is passed over by the second run while the first one stands still: it is read
without a report that is seen (`passes_section`). Behind it both runs are in step, and the
second has the larger budget.
-/

set_option autoImplicit false

namespace ThreeAddress

namespace Generate

/-! ### The view without names -/

/-- A diagnostic that is not about the binding of a name. -/
def besidesNames : Diagnostic → Option Diagnostic :=
  Option.guard fun diagnostic => !diagnostic.problem.isBinding

/-- Two runs with the same options, seen without what depends on the declared names. -/
def withoutNames (options : Options) : View Diagnostic where
  left := options
  right := options
  seen := besidesNames
  seen' := besidesNames
  Line := Eq
  Symbols _ _ := True

/-- What is reported about a name is not seen. -/
theorem besidesNames_problem? (role : Role) (table : SymbolTable) (line : Nat)
    (lexeme : Lexeme) :
    ((role.problem? table lexeme).map (Diagnostic.mk line)).bind besidesNames = none := by
  cases hproblem : role.problem? table lexeme with
  | none => rfl
  | some problem => simp [besidesNames, Option.guard, Role.isBinding_of_problem? hproblem]

section
variable {options : Options}

/-- **The table of names bears on reports about names only.** The two runs see the same reports
of every other kind. -/
theorem lawful_withoutNames (options : Options) : (withoutNames options).Lawful where
  maxDepth := rfl
  syntactic {line line' problem} h _ := by
    rw [show line = line' from h]
    rfl
  overlong {token token'} h := by
    obtain ⟨lexeme, line⟩ := token
    obtain ⟨lexeme', line'⟩ := token'
    rw [show lexeme = lexeme' from h.lexeme, show line = line' from h.line]
    rfl
  problem {table table' line line'} _ _ role name :=
    (besidesNames_problem? role table line _).trans
      (besidesNames_problem? role table' line' _).symm
  add _ _ _ _ := trivial

/-- The same input looks the same. -/
theorem sameInput_refl (input : TokenStream) : (withoutNames options).SameInput input input := by
  refine ⟨?_, rfl⟩
  exact List.forall₂_same.mpr fun _ _ => ⟨rfl, rfl⟩

/-! ### A section that is passed over -/

/-- The second run moves on to what is no number, and the states still look alike. -/
theorem alike_advance {s s' : State} {token : Token} {more : List Token}
    (h : (withoutNames options).Alike s s') (htokens : s'.input.tokens = token :: more)
    (hmore : NoNumber (more.map Token.lexeme)) :
    (withoutNames options).Alike s (s'.advance options.maxDigits.toNat) ∧
      (s'.advance options.maxDigits.toNat).input = ⟨more, s'.input.endLine⟩ := by
  have hlex : s'.input.lexemes = token.lexeme :: more.map Token.lexeme := by
    rw [TokenStream.lexemes, htokens]
    rfl
  have htail : s'.input.tail = ⟨more, s'.input.endLine⟩ := by
    unfold TokenStream.tail
    rw [htokens]
    rfl
  rw [State.advance_of_short hlex (hmore.short _), htail]
  exact ⟨h.withInput s.input _, rfl⟩

/-- The second run reports about a name, and the states still look alike. -/
theorem alike_note {s s' : State} (h : (withoutNames options).Alike s s') (role : Role)
    (table : SymbolTable) (line : Nat) (lexeme : Lexeme) :
    (withoutNames options).Alike s
      (s'.note ((role.problem? table lexeme).map (Diagnostic.mk line))) := by
  -- The first run stands still, so it is as if it reported nothing.
  have hseen : Option.bind none besidesNames
      = ((role.problem? table lexeme).map (Diagnostic.mk line)).bind besidesNames :=
    (besidesNames_problem? role table line lexeme).symm
  exact h.note hseen

/-- A variable is declared. -/
theorem passes_variableName {s s' : State} {name : String} {token : Token} {more : List Token}
    (h : (withoutNames options).Alike s s') (htokens : s'.input.tokens = token :: more)
    (hname : token.lexeme = .ident name) (hmore : NoNumber (more.map Token.lexeme)) :
    Ends (· = .outOfFuel) variableName options s' fun _ t =>
      (withoutNames options).Alike s t ∧ t.input = ⟨more, s'.input.endLine⟩ := by
  have hcurrent : s'.input.current? = some (.ident name) := by
    unfold TokenStream.current?
    rw [htokens, ← hname]
    rfl
  obtain ⟨halike, hinput⟩ := alike_advance h htokens hmore
  simp only [variableName, declaration?, ident?, ends_bind, ends_line, ends_current?, hcurrent,
    ends_advance, ends_pure]
  unfold Ends
  rw [declare_run]
  have hnoted := alike_note halike (.declares .var)
    (s'.advance options.maxDigits.toNat).symbols s'.input.line (.ident name)
  refine ⟨⟨trivial, hnoted.code, hnoted.temps, hnoted.depth, hnoted.depthReported,
    hnoted.diagnostics⟩, ?_⟩
  rw [← hinput]
  exact State.input_note _ _

/-- The variables of a section are declared. The induction is on those after the first. -/
theorem passes_items {s : State} {last : Token} {rest : List Token}
    (hlast : last.lexeme = .punct .semicolon) (names : List String) :
    ∀ (name : String) (tokens : List Token) (s' : State) (fuel : Nat),
      (withoutNames options).Alike s s' → s'.input.tokens = tokens ++ last :: rest →
      tokens.map Token.lexeme
        = .ident name :: Section.restLexemes (fun name => [.ident name]) names →
      Ends (· = .outOfFuel) (items variableName fuel) options s' fun _ t =>
        (withoutNames options).Alike s t ∧ t.input = ⟨last :: rest, s'.input.endLine⟩ := by
  induction names with
  | nil =>
      intro name tokens s' fuel h htokens hlexemes
      obtain ⟨token, rfl, hname⟩ := List.map_eq_singleton_iff.mp hlexemes
      cases fuel with
      | zero => rfl
      | succ fuel =>
          rw [items, ends_bind]
          refine (passes_variableName h htokens hname (by simp [NoNumber, hlast])).mono ?_
          rintro - t ⟨halike, hinput⟩
          -- A semicolon follows, so this was the last item.
          have hcurrent : t.input.current? ≠ some (.punct .comma) := by
            simp [TokenStream.current?, hinput, hlast]
          rw [ends_bind, ends_eat, if_neg hcurrent]
          exact ⟨halike, hinput⟩
  | cons second names ih =>
      intro name tokens s' fuel h htokens hlexemes
      obtain ⟨token, behind, rfl, hname, hbehind⟩ := List.map_eq_cons_iff.mp hlexemes
      obtain ⟨comma, more, rfl, hcomma, hmore⟩ := List.map_eq_cons_iff.mp hbehind
      cases fuel with
      | zero => rfl
      | succ fuel =>
          rw [items, ends_bind]
          refine (passes_variableName h htokens hname (by simp [NoNumber, hcomma])).mono ?_
          rintro - t ⟨halike, hinput⟩
          have hcurrent : t.input.current? = some (.punct .comma) := by
            simp [TokenStream.current?, hinput, hcomma]
          have hident : NoNumber ((more ++ last :: rest).map Token.lexeme) := by
            rw [List.map_append, hmore]
            simp [NoNumber]
          obtain ⟨halike', hinput'⟩ := alike_advance halike (congrArg _ hinput) hident
          rw [ends_bind, ends_eat, if_pos hcurrent, if_pos rfl]
          refine (ih second more _ fuel halike' (congrArg _ hinput') hmore).mono ?_
          rintro - u ⟨halike'', hinput''⟩
          refine ⟨halike'', ?_⟩
          rw [hinput'', hinput', hinput]

/-- The second run passes over a section of variables while the first one stands still, and
then both move on to the same tokens. -/
theorem passes_section {s s' : State} {before : Token} {declaration rest : List Token}
    {name : String} {names : List String}
    (hdeclaration : declaration.map Token.lexeme = (Section.vars name names).lexemes)
    (h : (withoutNames options).Alike s s') (htokens : s.input.tokens = before :: rest)
    (htokens' : s'.input.tokens = declaration ++ rest)
    (hendLine : s'.input.endLine = s.input.endLine) (fuel : Nat) :
    Ends (· = .outOfFuel) (declarationSection variableName fuel) options s' fun _ t =>
      (withoutNames options).lockstep.Rel (s.advance options.maxDigits.toNat) t := by
  obtain ⟨front, ends, rfl, hfront, hends⟩ := List.map_eq_append_iff.mp hdeclaration
  obtain ⟨last, rfl, hlast⟩ := List.map_eq_singleton_iff.mp hends
  obtain ⟨first, tokens, rfl, -, hitems⟩ := List.map_eq_cons_iff.mp hfront
  have hbehind : s'.input.tokens = first :: (tokens ++ last :: rest) := by
    rw [htokens']
    simp
  have hident : NoNumber ((tokens ++ last :: rest).map Token.lexeme) := by
    rw [List.map_append, hitems]
    simp [NoNumber]
  obtain ⟨halike, hinput⟩ := alike_advance h hbehind hident
  rw [declarationSection, ends_bind, ends_advance, ends_bind]
  refine (passes_items hlast names name tokens _ fuel halike (congrArg _ hinput) hitems).mono ?_
  rintro - t ⟨halike', hinput'⟩
  have hsemicolon : t.input.current? = some (.punct .semicolon) := by
    simp [TokenStream.current?, hinput', hlast]
  have hrest : t.input.tail = s.input.tail := by
    rw [hinput', hinput]
    simp [TokenStream.tail, htokens, hendLine]
  rw [ends_expect, if_pos hsemicolon]
  refine View.rel_checkNumber (lawful_withoutNames options) ?_ (halike'.withInput s.input.tail _)
  show (withoutNames options).SameInput s.input.tail t.input.tail
  rw [hrest]
  exact sameInput_refl _

/-! ### Programs with a section more -/

/-- The state behind the header of a program, which ends with its name. -/
def State.behindHeader (options : Options) (nameToken : Token) (rest : List Token)
    (endLine : Nat) : State :=
  (State.start options ⟨nameToken :: rest, endLine⟩).advance options.maxDigits.toNat

/-- Behind the header the rest of the tokens is left. -/
@[simp] theorem State.input_behindHeader (nameToken : Token) (rest : List Token) (endLine : Nat) :
    (State.behindHeader options nameToken rest endLine).input = ⟨rest, endLine⟩ :=
  State.input_advance _ _

section
variable {programToken nameToken : Token} {title : String} {endLine : Nat}

/-- A program goes on behind its header. -/
theorem program_header (hprogram : programToken.lexeme = .keyword .programKw)
    (hname : nameToken.lexeme = .ident title) (rest : List Token) (fuel : Nat) :
    program fuel options (.start options ⟨programToken :: nameToken :: rest, endLine⟩)
      = body (some title) fuel fuel options (.behindHeader options nameToken rest endLine) := by
  have hlex : (State.start options ⟨programToken :: nameToken :: rest, endLine⟩).input.lexemes
      = .keyword .programKw :: .ident title :: rest.map Token.lexeme := by
    simp [State.start, TokenStream.lexemes, hprogram, hname]
  -- Neither of the two tokens is a number, so nothing is said of them.
  have hcheck : (State.start options ⟨programToken :: nameToken :: rest, endLine⟩).checkNumber
      options.maxDigits.toNat = .start options ⟨programToken :: nameToken :: rest, endLine⟩ := by
    refine State.checkNumber_of_short ?_
    rw [hlex]
    exact NoNumber.short (by simp [NoNumber]) _
  have hnamed := State.advance_of_short hlex
    (NoNumber.short (by simp [NoNumber]) options.maxDigits.toNat)
  have hident : (State.start options ⟨nameToken :: rest, endLine⟩).input.current?
      = some (.ident title) := congrArg some hname
  unfold program
  rw [bind_run, checkNumber_run, hcheck]
  show (expect _ >>= _) options _ = _
  rw [bind_run, expect_run, if_pos (TokenStream.current?_of_lexemes hlex), hnamed]
  show (ident? _ >>= _) options (State.start options ⟨nameToken :: rest, endLine⟩) = _
  rw [bind_run, ident?, bind_run, current?_run, hident]
  rfl

/-- The first section of a body is read, and then the rest of it. -/
theorem body_of_var {s : State} (h : s.input.current? = some (.keyword .varKw))
    (name? : Option String) (fuel budget : Nat) :
    body name? (fuel + 1) budget options s
      = (declarationSection variableName fuel >>= fun _ => body name? fuel budget) options s := by
  have hdeclarations : declarations (fuel + 1) options s
      = (declarationSection variableName fuel >>= fun _ => declarations fuel) options s := by
    rw [declarations, bind_run, current?_run, h]
  unfold body
  rw [bind_run, hdeclarations]
  simp only [bind_run]
  cases declarationSection variableName fuel options s with
  | ok a t => rfl
  | error fault t => rfl

variable {declaration rest : List Token} {name : String} {names : List String}
  (hdeclaration : declaration.map Token.lexeme = (Section.vars name names).lexemes)
include hdeclaration

/-- A section of variables starts with its keyword. -/
theorem current?_declaration :
    (State.behindHeader options nameToken (declaration ++ rest) endLine).input.current?
      = some (.keyword .varKw) := by
  rw [State.input_behindHeader, TokenStream.current?, ← List.head?_map, List.map_append,
    hdeclaration]
  rfl

/-- The second run passes over a section behind the header, while the first one stands there
still. -/
theorem passes_declaration (options : Options) (nameToken : Token) (rest : List Token)
    (endLine fuel : Nat) :
    Ends (· = .outOfFuel) (declarationSection variableName fuel) options
      (.behindHeader options nameToken (declaration ++ rest) endLine) fun _ t =>
        (withoutNames options).lockstep.Rel (.behindHeader options nameToken rest endLine) t := by
  have hnoNumber : NoNumber ((declaration ++ rest).map Token.lexeme) := by
    rw [List.map_append, hdeclaration]
    simp [NoNumber, Section.lexemes]
  have hstart : (withoutNames options).Alike
      (.start options ⟨nameToken :: rest, endLine⟩)
      (.start options ⟨nameToken :: (declaration ++ rest), endLine⟩) :=
    ⟨trivial, rfl, rfl, rfl, rfl, rfl⟩
  obtain ⟨halike, hbehind⟩ := alike_advance hstart rfl hnoNumber
  exact passes_section hdeclaration halike rfl (by rw [hbehind]) (by rw [hbehind]; rfl) fuel

/-- The run on a program agrees with the run on that program with a section of variables
behind its header. -/
theorem agrees_of_declaration (hprogram : programToken.lexeme = .keyword .programKw)
    (hname : nameToken.lexeme = .ident title) (options : Options) {input input' : TokenStream}
    (hinput : input = ⟨programToken :: nameToken :: rest, endLine⟩)
    (hinput' : input' = ⟨programToken :: nameToken :: (declaration ++ rest), endLine⟩) :
    Ends ((withoutNames options).lockstep.Fails
        (program input'.budget options (.start options input')))
      (program input.budget) options (.start options input) fun name? t =>
        (withoutNames options).lockstep.Agrees Eq name? t
          (program input'.budget options (.start options input')) := by
  have hcases := compileTokens_cases options input'
  -- The section has at least its keyword, so the second run enters it with a budget that
  -- is still enough for the first.
  obtain ⟨fuel, hfuel, hle⟩ : ∃ fuel, input'.budget = fuel + 1 ∧ input.budget ≤ fuel := by
    have hlength := congrArg List.length hdeclaration
    simp only [List.length_map, Section.lexemes, List.cons_append, List.length_cons] at hlength
    refine ⟨input'.budget - 1, ?_, ?_⟩
    · simp [TokenStream.budget]
    · simp only [TokenStream.budget, hinput, hinput', List.length_cons, List.length_append]
      omega
  have hprogram' : program input'.budget options (.start options input')
      = (declarationSection variableName fuel >>= fun _ => body (some title) fuel (fuel + 1))
          options (.behindHeader options nameToken (declaration ++ rest) endLine) := by
    rw [hfuel, hinput', program_header hprogram hname,
      body_of_var (current?_declaration hdeclaration)]
  have hpass := passes_declaration hdeclaration options nameToken rest endLine fuel
  unfold compileTokens at hcases
  unfold Ends at hpass ⊢
  rw [hprogram', bind_run] at hcases ⊢
  rw [hinput, program_header hprogram hname]
  cases hrun : declarationSection variableName fuel options
      (.behindHeader options nameToken (declaration ++ rest) endLine) with
  | ok a t =>
      rw [hrun] at hpass
      rw [hinput] at hle
      exact ((View.steady (lawful_withoutNames options)).body (some title) hle
        (Nat.le_succ_of_le hle)).agrees (fun _ => id) hpass
  | error fault t =>
      -- A budget for the whole input does not run out.
      rw [hrun] at hpass hcases
      obtain rfl : fault = .outOfFuel := hpass
      rcases hcases with ⟨_, _, hok, -⟩ | ⟨herror, -⟩
      · cases hok
      · cases herror

end

end

end Generate

/-- **Declarations do not influence the code.** Of two sources with the same tokens, except
that one has a section of variables behind the header of the program, both run out of
addresses, or both compile to the same code with the same diagnostics, apart from those about
the binding of names. -/
theorem compile_declarations_irrelevant {source source' : String} {programToken nameToken : Token}
    {declaration rest : List Token} {program name : String} {names : List String} {endLine : Nat}
    (hscan : scan source = ⟨programToken :: nameToken :: rest, endLine⟩)
    (hscan' : scan source' = ⟨programToken :: nameToken :: (declaration ++ rest), endLine⟩)
    (hprogram : programToken.lexeme = .keyword .programKw)
    (hname : nameToken.lexeme = .ident program)
    (hdeclaration : declaration.map Token.lexeme = (Section.vars name names).lexemes)
    (options : Options) :
    (compile options source = .error (.addressOverflow options.firstAddress.toNat) ∧
      compile options source' = .error (.addressOverflow options.firstAddress.toNat)) ∨
    ∃ compilation compilation', compile options source = .ok compilation ∧
      compile options source' = .ok compilation' ∧
      compilation.program = compilation'.program ∧
      compilation.code = compilation'.code ∧
      compilation.diagnostics.toList.filter (fun diagnostic => !diagnostic.problem.isBinding)
        = compilation'.diagnostics.toList.filter
            (fun diagnostic => !diagnostic.problem.isBinding) := by
  have hagrees := Generate.agrees_of_declaration hdeclaration hprogram hname options hscan hscan'
  rcases Generate.View.compileTokens_alike hagrees with
    hfail | ⟨compilation, compilation', hok, hok', hsame⟩
  · exact .inl hfail
  · have hdiagnostics := hsame.diagnostics
    simp only [Generate.withoutNames, Generate.besidesNames, List.filterMap_eq_filter]
      at hdiagnostics
    exact .inr ⟨compilation, compilation', hok, hok', hsame.program, hsame.code, hdiagnostics⟩

/-- A source that misses a `THEN`, a statement and an `END`. With the section in front `x` is
declared twice, and without it `y` is not declared. -/
theorem compile_declarations_irrelevant_malformed :
    ∃ compilation compilation',
      compile {} "PROGRAM p VAR x; BEGIN IF x > y := 1" = .ok compilation ∧
      compile {} "PROGRAM p VAR y, x; VAR x; BEGIN IF x > y := 1" = .ok compilation' ∧
      compilation.program = compilation'.program ∧
      compilation.code = compilation'.code ∧
      compilation.diagnostics.toList.filter (fun diagnostic => !diagnostic.problem.isBinding)
        = compilation'.diagnostics.toList.filter
            (fun diagnostic => !diagnostic.problem.isBinding) := by
  obtain ⟨compilation, hok⟩ := exists_compilation
    (show (compile {} "PROGRAM p VAR x; BEGIN IF x > y := 1").isOk = true by decide +kernel)
  -- The section has five tokens, and what stands behind it is the same in both sources.
  have hscan : scan "PROGRAM p VAR x; BEGIN IF x > y := 1"
      = ⟨⟨.keyword .programKw, 1⟩ :: ⟨.ident "p", 1⟩ ::
          (scan "PROGRAM p VAR x; BEGIN IF x > y := 1").tokens.drop 2, 1⟩ := by decide +kernel
  have hscan' : scan "PROGRAM p VAR y, x; VAR x; BEGIN IF x > y := 1"
      = ⟨⟨.keyword .programKw, 1⟩ :: ⟨.ident "p", 1⟩ ::
          (((scan "PROGRAM p VAR y, x;").tokens.drop 2)
            ++ (scan "PROGRAM p VAR x; BEGIN IF x > y := 1").tokens.drop 2), 1⟩ := by
    decide +kernel
  have hdeclaration : ((scan "PROGRAM p VAR y, x;").tokens.drop 2).map Token.lexeme
      = (Section.vars "y" ["x"]).lexemes := by decide +kernel
  rcases compile_declarations_irrelevant hscan hscan' rfl rfl hdeclaration {} with
    ⟨hfail, -⟩ | halike
  · rw [hok] at hfail
    exact nomatch hfail
  · exact halike

end ThreeAddress
