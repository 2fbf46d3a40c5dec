import ThreeAddress.Proofs.Resemblance

/-!
# Layout does not matter

How the lexemes of a source are spread over its lines shows in the lines of the
diagnostics and of the declarations and nowhere else. Two sources with the same lexemes
may differ in the blanks between them, in their line breaks and in what stands behind
a `#`. Their compilations both run out of addresses, or both succeed with the same
program name, the same code, the same names of the same kinds, and the same problems in
the same order.

`withoutLines` is the view in which all lines are left out. A table is looked up by name,
and what is found there is used for its kind, so tables that differ in their lines give
the same answers (`SymbolTable.kindOf?_eq`).
-/

set_option autoImplicit false

namespace ThreeAddress

/-- A declared name without its line. -/
def Symbol.declared (entry : Symbol) : String × SymbolKind := (entry.name, entry.kind)

namespace SymbolTable

/-- The kind of a name can be looked up in a table without lines. -/
theorem kindOf?_eq (table : SymbolTable) (name : String) :
    table.kindOf? name
      = ((table.entries.toList.map Symbol.declared).find? (·.1 = name)).map Prod.snd := by
  unfold kindOf? find?
  rw [List.find?_map, ← Array.find?_toList, Option.map_map]
  rfl

/-- A name is declared if it has a kind. -/
theorem contains_eq (table : SymbolTable) (name : String) :
    table.contains name = (table.kindOf? name).isSome := by
  unfold contains kindOf?
  rw [Option.isSome_map]

/-- A declaration adds its name to a table without lines, or it does nothing. -/
theorem declared_add (table : SymbolTable) (entry : Symbol) :
    (table.add entry).entries.toList.map Symbol.declared
      = table.entries.toList.map Symbol.declared
        ++ if (table.kindOf? entry.name).isSome then [] else [entry.declared] := by
  rw [← contains_eq]
  unfold add declare?
  cases table.contains entry.name with
  | true => simp
  | false => simp

end SymbolTable

/-- What is reported about a name depends on the kinds in the table alone. -/
theorem Role.problem?_congr {table table' : SymbolTable}
    (h : ∀ name, table.kindOf? name = table'.kindOf? name) (role : Role) (name : String) :
    role.problem? table (.ident name) = role.problem? table' (.ident name) := by
  cases role <;> simp only [problem?, SymbolTable.contains_eq, h]

namespace Generate

/-- Two runs with the same options, seen without any line. -/
def withoutLines (options : Options) : View Problem where
  left := options
  right := options
  seen diagnostic := some diagnostic.problem
  seen' diagnostic := some diagnostic.problem
  Line _ _ := True
  Symbols table table' :=
    table.entries.toList.map Symbol.declared = table'.entries.toList.map Symbol.declared

/-- A line is never a reason to report something else, or to declare something else. -/
theorem lawful_withoutLines (options : Options) : (withoutLines options).Lawful where
  maxDepth := rfl
  syntactic _ _ := rfl
  overlong {token token'} h := by
    unfold Token.overlong?
    rw [h.lexeme]
    split
    · next digits _ =>
      by_cases hlong : options.maxDigits.toNat < digits.length
      · simp [withoutLines, hlong]
      · simp [withoutLines, hlong]
    · rfl
  problem {table table'} line line' h _ role name := by
    have hkinds : ∀ name, table.kindOf? name = table'.kindOf? name := by
      intro name
      rw [table.kindOf?_eq, table'.kindOf?_eq, show _ = _ from h]
    rw [role.problem?_congr hkinds name]
    cases role.problem? table' (.ident name) <;> rfl
  add {table table'} line line' h _ name kind := by
    show List.map _ _ = List.map _ _
    rw [table.declared_add, table'.declared_add, table.kindOf?_eq, table'.kindOf?_eq,
      show _ = _ from h]
    rfl

/-- Streams with the same lexemes are the same without their lines. -/
theorem sameInput_withoutLines (options : Options) {input input' : TokenStream}
    (h : input.lexemes = input'.lexemes) : (withoutLines options).SameInput input input' := by
  refine ⟨?_, trivial⟩
  have hlexemes : List.Forall₂ Eq (input.tokens.map Token.lexeme)
      (input'.tokens.map Token.lexeme) := by
    rw [List.forall₂_eq_eq_eq]
    exact h
  rw [List.forall₂_map_left_iff, List.forall₂_map_right_iff] at hlexemes
  exact hlexemes.imp fun _ _ hlexeme => ⟨hlexeme, trivial⟩

end Generate

/-- **Layout does not matter.** If two sources have the same lexemes, both of them run out
of addresses, or both of them compile to the same program name, the same code, the same
names of the same kinds, and the same problems. -/
theorem compile_layout_irrelevant {source source' : String}
    (h : (scan source).lexemes = (scan source').lexemes) (options : Options) :
    (compile options source = .error (.addressOverflow options.firstAddress.toNat) ∧
      compile options source' = .error (.addressOverflow options.firstAddress.toNat)) ∨
    ∃ compilation compilation', compile options source = .ok compilation ∧
      compile options source' = .ok compilation' ∧
      compilation.program = compilation'.program ∧
      compilation.code = compilation'.code ∧
      compilation.symbols.entries.toList.map Symbol.declared
        = compilation'.symbols.entries.toList.map Symbol.declared ∧
      compilation.diagnostics.toList.map Diagnostic.problem
        = compilation'.diagnostics.toList.map Diagnostic.problem := by
  have hinput := Generate.sameInput_withoutLines options h
  have hbudget : (scan source).budget ≤ (scan source').budget :=
    Nat.le_of_eq (congrArg (· + 2) hinput.tokens.length_eq)
  -- Before the first token nothing is declared and nothing is said, so the runs start in step.
  have hstart : (Generate.withoutLines options).lockstep.Rel (.start options (scan source))
      (.start options (scan source')) := ⟨hinput, rfl, rfl, rfl, rfl, rfl, rfl⟩
  have hagrees := ((Generate.View.steady (Generate.lawful_withoutLines options)).program
    hbudget).agrees (fun _ => id) hstart
  rcases Generate.View.compileTokens_alike hagrees with
    hfail | ⟨compilation, compilation', hok, hok', hsame⟩
  · exact .inl hfail
  · refine .inr ⟨compilation, compilation', hok, hok', hsame.program, hsame.code, hsame.symbols, ?_⟩
    have hproblems := hsame.diagnostics
    simp only [Generate.withoutLines, List.filterMap_eq_map'] at hproblems
    exact hproblems

/-- A source on one line, and the same lexemes close together on many lines with
comments. Both miss a `THEN`, use a name that is not declared and declare one twice. -/
theorem compile_layout_irrelevant_comments :
    ∃ compilation compilation',
      compile {} "PROGRAM p VAR x , x ; IF x > 0 y := 1" = .ok compilation ∧
      compile {} "PROGRAM p\nVAR x,x;IF\n\n x>0\n\ty:=1# y := 2" = .ok compilation' ∧
      compilation.program = compilation'.program ∧
      compilation.code = compilation'.code ∧
      compilation.symbols.entries.toList.map Symbol.declared
        = compilation'.symbols.entries.toList.map Symbol.declared ∧
      compilation.diagnostics.toList.map Diagnostic.problem
        = compilation'.diagnostics.toList.map Diagnostic.problem := by
  obtain ⟨compilation, hok⟩ := exists_compilation
    (show (compile {} "PROGRAM p VAR x , x ; IF x > 0 y := 1").isOk = true by decide +kernel)
  have hlexemes : (scan "PROGRAM p VAR x , x ; IF x > 0 y := 1").lexemes
      = (scan "PROGRAM p\nVAR x,x;IF\n\n x>0\n\ty:=1# y := 2").lexemes := by decide +kernel
  rcases compile_layout_irrelevant hlexemes {} with ⟨hfail, -⟩ | halike
  · rw [hok] at hfail
    exact nomatch hfail
  · exact halike

end ThreeAddress
