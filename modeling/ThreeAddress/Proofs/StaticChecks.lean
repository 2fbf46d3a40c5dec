import ThreeAddress.Proofs.Diagnosis

/-!
# Static checking is exact

If the lexemes of a source are derived by a program whose nesting is within the
limit, its diagnostics are known from its tokens and their roles alone.
`staticDiagnostics` goes through the tokens in order and lists what is wrong with
each of them, at its own line:

* a number has too many digits;
* a name is declared that an earlier token has declared;
* a name is assigned to whose first declaration is that of a constant;
* a name is assigned to or used as an operand, and nothing declares it.

A compilation reports exactly this list, and its table has the first declaration of
each name, in order.

The generator knows only the declarations that it has read, and it sees a number
one token early and a declared name one token late. Neither shows in the result.
Declarations stand before all uses (`Program.pairwise_roles`). And a token that is
reported early is a number, while one that is reported late is followed by none.
-/

set_option autoImplicit false

namespace ThreeAddress

/-! ### What is to be reported -/

/-- The declaration that a token makes in its role. -/
def Token.declaration? (token : Token) (role : Role) : Option Symbol :=
  role.declaration? token.line token.lexeme

/-- The declarations that tokens make in their roles, in order. -/
def declared (marked : List (Token × Role)) : List Symbol :=
  marked.filterMap fun mark => mark.1.declaration? mark.2

/-- The first of some declarations that is for a name. -/
def firstFor? (declarations : List Symbol) (name : String) : Option Symbol :=
  declarations.find? (·.name = name)

/-- What is wrong with a lexeme in its role, `earlier` being the declarations before
it and `all` those of the whole program. -/
def Lexeme.problem? (maxDigits : Nat) (earlier all : List Symbol) : Lexeme → Role → Option Problem
  | .number digits, _ =>
    if maxDigits < digits.length then some (.numberTooLong digits maxDigits) else none
  | .ident name, .declares _ =>
    if (firstFor? earlier name).isSome then some (.duplicateDeclaration name) else none
  | .ident name, .target =>
    match (firstFor? all name).map Symbol.kind with
    | some .var => none
    | some .const => some (.assignToConstant name)
    | none => some (.undeclared name)
  | .ident name, .operand =>
    if (firstFor? all name).isSome then none else some (.undeclared name)
  | _, _ => none

/-- What is wrong with a token in its role, at its line. -/
def Token.diagnostic? (maxDigits : Nat) (earlier all : List Symbol) (token : Token)
    (role : Role) : Option Diagnostic :=
  (token.lexeme.problem? maxDigits earlier all role).map (Diagnostic.mk token.line)

/-- What is wrong with the tokens of a program, token by token. The declarations of
the program are `all`, and those in `earlier` stand before these tokens. -/
def staticDiagnostics (maxDigits : Nat) (all : List Symbol) :
    (earlier : List Symbol) → List (Token × Role) → List Diagnostic
  | _, [] => []
  | earlier, (token, role) :: rest =>
    (token.diagnostic? maxDigits earlier all role).toList ++
      staticDiagnostics maxDigits all (earlier ++ (token.declaration? role).toList) rest

/-- No number is too long. -/
def AllShort (maxDigits : Nat) (lexemes : List Lexeme) : Prop :=
  ∀ digits, .number digits ∈ lexemes → digits.length ≤ maxDigits

/-- A token with which nothing is wrong is no number that is too long. -/
theorem Token.overlong?_of_diagnostic? {maxDigits : Nat} {all earlier : List Symbol} {token : Token}
    {role : Role} (h : token.diagnostic? maxDigits earlier all role = none) :
    token.overlong? maxDigits = none := by
  unfold Token.diagnostic? at h
  unfold Token.overlong?
  split
  · next digits hlexeme =>
    rw [hlexeme] at h
    split
    · next hlong => simp [Lexeme.problem?, hlong] at h
    · rfl
  · rfl

/-- If nothing is wrong with the tokens of a program, no number in it is too long. -/
theorem allShort_of_static {maxDigits : Nat} {all earlier : List Symbol} {tokens : List Token}
    {roles : List Role} (hlen : tokens.length = roles.length)
    (hclean : staticDiagnostics maxDigits all earlier (tokens.zip roles) = []) :
    AllShort maxDigits (tokens.map Token.lexeme) := by
  induction tokens generalizing earlier roles with
  | nil => exact fun _ hmem => absurd hmem List.not_mem_nil
  | cons token rest ih =>
      obtain ⟨role, roles, rfl⟩ := List.exists_cons_of_length_eq_add_one hlen.symm
      obtain ⟨hnone, hrest⟩ := List.append_eq_nil_iff.mp hclean
      intro digits hmem
      -- The number is this token or one behind it.
      rcases List.mem_cons.mp hmem with hhead | hmem
      · have hshort := Token.overlong?_of_diagnostic? (Option.toList_eq_nil_iff.mp hnone)
        unfold Token.overlong? at hshort
        rw [← hhead] at hshort
        by_contra hlong
        exact absurd hshort (by simp [Nat.lt_of_not_le hlong])
      · exact ih (Nat.succ.inj hlen) hrest digits hmem

/-! ### Tables of declarations -/

namespace SymbolTable

/-- A declaration is for its own name, and it changes nothing if there is an entry. -/
theorem find?_add (table : SymbolTable) (entry : Symbol) (name : String) :
    (table.add entry).find? name
      = (table.find? name).or (if entry.name = name then some entry else none) := by
  unfold add
  cases hadded : table.declare? entry with
  | none =>
      -- Nothing is added, because the name has an entry already.
      have htaken : (table.find? entry.name).isSome = true :=
        (declare?_eq_none_iff table entry).mp hadded
      by_cases hname : entry.name = name
      · obtain ⟨taken, hfound⟩ := Option.isSome_iff_exists.mp htaken
        rw [← hname, Option.getD_none, hfound]
        rfl
      · rw [if_neg hname, Option.getD_none, Option.or_none]
  | some after =>
      rw [Option.getD_some, find?_declare? hadded]
      by_cases hname : entry.name = name
      · have hfree : table.find? entry.name = none := by
          have hsome : table.contains entry.name ≠ true := by
            rw [Ne, ← declare?_eq_none_iff, hadded]
            exact Option.some_ne_none after
          simpa [contains] using hsome
        rw [if_pos hname, if_pos hname, ← hname, hfree, Option.none_or]
      · rw [if_neg hname, if_neg hname, Option.or_none]

/-- The entry of a name is its first declaration. -/
theorem find?_foldl_add (entries : List Symbol) (table : SymbolTable) (name : String) :
    (entries.foldl add table).find? name = (table.find? name).or (firstFor? entries name) := by
  induction entries generalizing table with
  | nil => exact (Option.or_none).symm
  | cons entry entries ih =>
      rw [List.foldl_cons, ih, find?_add, Option.or_assoc]
      unfold firstFor?
      by_cases hname : entry.name = name
      · simp [hname]
      · simp [hname]

/-- The table lists the first declaration of each name. The induction is on the
declarations, and the entries that are there are what the loop of `eraseDupsBy` has
kept so far. -/
theorem entries_foldl_add (entries : List Symbol) (table : SymbolTable) :
    (entries.foldl add table).entries.toList
      = List.eraseDupsBy.loop (fun entry kept => entry.name == kept.name) entries
          table.entries.toList.reverse := by
  induction entries generalizing table with
  | nil => simp [List.eraseDupsBy.loop]
  | cons entry entries ih =>
      -- The loop compares with the entries kept so far, and these are the entries of the table.
      have hcontains : table.contains entry.name
          = table.entries.toList.reverse.any fun kept => entry.name == kept.name := by
        rw [Bool.eq_iff_iff]
        simp only [contains, find?, Array.find?_isSome, List.any_eq_true,
          List.mem_reverse, Array.mem_toList_iff, decide_eq_true_iff, beq_iff_eq]
        constructor
        · rintro ⟨kept, hmem, hname⟩
          exact ⟨kept, hmem, hname.symm⟩
        · rintro ⟨kept, hmem, hname⟩
          exact ⟨kept, hmem, hname.symm⟩
      rw [List.foldl_cons, ih, List.eraseDupsBy.loop, ← hcontains]
      unfold add declare?
      cases table.contains entry.name with
      | true => rfl
      | false => simp

end SymbolTable

/-! ### Declarations stand before uses -/

/-- Whether a name in this role has to be declared. -/
def Role.isUse : Role → Bool
  | target => true
  | operand => true
  | declares _ => false
  | plain => false

/-- Whether a name in this role is declared by it. -/
def Role.isDeclaration : Role → Bool
  | declares _ => true
  | target => false
  | operand => false
  | plain => false

/-- A token whose role is no declaration declares nothing. -/
theorem Token.declaration?_eq_none {role : Role} (h : role.isDeclaration = false)
    (token : Token) : token.declaration? role = none := by
  cases role with
  | declares kind => exact nomatch h
  | target => rfl
  | operand => rfl
  | plain => rfl

/-- Where no role is a declaration, nothing is declared. -/
theorem declared_eq_nil {roles : List Role} (h : ∀ role ∈ roles, role.isDeclaration = false)
    (tokens : List Token) : declared (tokens.zip roles) = [] := by
  unfold declared
  rw [List.filterMap_eq_nil_iff]
  rintro ⟨token, role⟩ hmem
  exact token.declaration?_eq_none (h role (List.of_mem_zip hmem).2)

/-- A token declares before those behind it do. -/
theorem declared_zip_cons (token : Token) (tokens : List Token) (role : Role)
    (roles : List Role) :
    declared ((token :: tokens).zip (role :: roles))
      = (token.declaration? role).toList ++ declared (tokens.zip roles) := by
  simp only [declared, List.zip_cons_cons, List.filterMap_cons]
  cases token.declaration? role with
  | none => rfl
  | some entry => rfl

/-- A use declares nothing, and if no declaration stands behind it then the
declarations in front of it are all there are. -/
theorem declared_eq_nil_of_isUse {role : Role} {roles : List Role} (huse : role.isUse = true)
    (hbehind : ∀ later ∈ roles, role.isUse = true → later.isDeclaration = false)
    (tokens : List Token) : declared (tokens.zip (role :: roles)) = [] := by
  refine declared_eq_nil ?_ tokens
  intro later hmem
  rcases List.mem_cons.mp hmem with rfl | hmem
  · cases later with
    | declares kind => exact nomatch huse
    | target => rfl
    | operand => rfl
    | plain => rfl
  · exact hbehind later hmem huse

/-- No token of a phrase declares a name. -/
theorem Phrase.isDeclaration_of_mem_roles {level : Level} (p : Phrase level) :
    ∀ role ∈ p.roles, role.isDeclaration = false := by
  induction p with
  | name text => simp [roles, Role.isDeclaration]
  | number digits => simp [roles, Role.isDeclaration]
  | parens inner ih => simpa [roles, Role.isDeclaration, or_imp, forall_and] using ih
  | factor first ih => exact ih
  | product front op last ihf ihl =>
      simpa [roles, Role.isDeclaration, or_imp, forall_and] using ⟨ihf, ihl⟩
  | term sign first ih =>
      cases sign with
      | none => exact ih
      | some sign => simpa [roles, signLexemes, Role.isDeclaration] using ih
  | sum front op last ihf ihl =>
      simpa [roles, Role.isDeclaration, or_imp, forall_and] using ⟨ihf, ihl⟩
  | expression whole ih => exact ih

/-- No token of a statement declares a name. -/
theorem Clause.isDeclaration_of_mem_roles {extent : Extent} (c : Clause extent) :
    ∀ role ∈ c.roles, role.isDeclaration = false := by
  -- A comparison has no constructor with statements in it, so it needs no induction.
  have htest : ∀ (c : Comparison), ∀ role ∈ c.roles, role.isDeclaration = false := by
    intro c
    simpa [Comparison.roles, Role.isDeclaration, or_imp, forall_and] using
      ⟨c.lhs.isDeclaration_of_mem_roles, c.rhs.isDeclaration_of_mem_roles⟩
  induction c with
  | empty => simp [roles]
  | assign name value =>
      simpa [roles, Role.isDeclaration] using value.isDeclaration_of_mem_roles
  | choice test body ih =>
      simpa [roles, Role.isDeclaration, or_imp, forall_and] using ⟨htest test, ih⟩
  | loop test body ih =>
      simpa [roles, Role.isDeclaration, or_imp, forall_and] using ⟨htest test, ih⟩
  | compound body ih => simpa [roles, Role.isDeclaration, or_imp, forall_and] using ih
  | one first ih => exact ih
  | next front last ihf ihl =>
      simpa [roles, Role.isDeclaration, or_imp, forall_and] using ⟨ihf, ihl⟩

/-- The tokens of items are those of an item and commas. -/
theorem Section.mem_itemRoles {α : Type} {roles : List Role} {rest : List α} {role : Role}
    (h : role ∈ itemRoles roles rest) : role ∈ roles ∨ role = .plain := by
  simp only [itemRoles, List.mem_append, List.mem_flatMap, List.mem_cons] at h
  rcases h with h | ⟨_, _, h | h⟩
  · exact .inl h
  · exact .inr h
  · exact .inl h

/-- No token of a section uses a name. -/
theorem Section.isUse_of_mem_roles {s : Section} {role : Role} (h : role ∈ s.roles) :
    role.isUse = false := by
  have hitems : ∀ {α : Type} {roles : List Role} {rest : List α},
      (∀ role ∈ roles, role.isUse = false) →
      role ∈ Role.plain :: itemRoles roles rest ++ [.plain] → role.isUse = false := by
    intro α roles rest hroles hmem
    simp only [List.cons_append, List.mem_cons, List.mem_append, List.not_mem_nil, or_false] at hmem
    rcases hmem with rfl | hmem | rfl
    · rfl
    · rcases mem_itemRoles hmem with hmem | rfl
      · exact hroles role hmem
      · rfl
    · rfl
  cases s with
  | consts first rest => exact hitems (by simp [Definition.roles, Role.isUse]) h
  | vars first rest => exact hitems (by simp [Role.isUse]) h

/-- Behind a token that uses a name, none declares one. -/
theorem Program.pairwise_roles (p : Program) :
    p.roles.Pairwise fun role later => role.isUse = true → later.isDeclaration = false := by
  unfold roles
  rw [List.pairwise_append]
  refine ⟨?_, ?_, ?_⟩
  · -- The name of the program and the sections use no name.
    refine List.pairwise_of_forall_mem_list ?_
    intro role hmem later _ huse
    have hnot : role.isUse = false := by
      simp only [List.mem_cons, List.mem_flatMap] at hmem
      rcases hmem with rfl | rfl | ⟨s, _, hmem⟩
      · rfl
      · rfl
      · exact Section.isUse_of_mem_roles hmem
    exact absurd (huse.symm.trans hnot) (by decide)
  · -- In the statement of the program nothing is declared.
    refine List.pairwise_of_forall_mem_list ?_
    intro role _ later hmem _
    exact p.body.isDeclaration_of_mem_roles later hmem
  · intro role _ later hmem _
    exact p.body.isDeclaration_of_mem_roles later hmem

/-! ### Reading -/

/-- A journal at the first of `tokens`, `earlier` having been declared. What was said
is `said`, and the first token is reported already if it is a number that is too
long. -/
structure Journal.Stands (maxDigits : Nat) (said : List Diagnostic) (earlier : List Symbol)
    (left : List Token) (j : Journal) : Prop where
  tokens : j.input.tokens = left
  symbols : j.symbols = earlier.foldl SymbolTable.add .empty
  diagnostics : j.diagnostics = said ++ (left.head?.bind (Token.overlong? maxDigits)).toList

/-- What is said of a token when it becomes the current one, and what is said of it in
its role, make up what is wrong with it. A name in use has to be compared with all
declarations. -/
theorem Token.overlong_append_problem {maxDigits : Nat} {earlier all : List Symbol}
    {token : Token} {role : Role} (huse : role.isUse = true → all = earlier) :
    (token.overlong? maxDigits).toList ++
        ((role.problem? (earlier.foldl SymbolTable.add .empty) token.lexeme).map
          (Diagnostic.mk token.line)).toList
      = (token.diagnostic? maxDigits earlier all role).toList := by
  have hfind : ∀ name,
      (earlier.foldl SymbolTable.add .empty).find? name = firstFor? earlier name := by
    intro name
    rw [SymbolTable.find?_foldl_add, SymbolTable.find?_empty, Option.none_or]
  unfold Token.overlong? Token.diagnostic?
  cases token.lexeme with
  | number digits =>
      -- Nothing is wrong with a number in its role; all that can be wrong is its length.
      have hnone : ∀ symbols, role.problem? symbols (.number digits) = none := by
        intro symbols
        cases role <;> rfl
      by_cases hlong : maxDigits < digits.length
      · simp [hnone, Lexeme.problem?, hlong]
      · simp [hnone, Lexeme.problem?, hlong]
  | ident name =>
      cases role with
      | declares kind => simp [Role.problem?, Lexeme.problem?, SymbolTable.contains, hfind]
      | target =>
          obtain rfl := huse rfl
          cases hkind : (firstFor? all name).map Symbol.kind with
          | none => simp [Role.problem?, Lexeme.problem?, SymbolTable.kindOf?, hfind, hkind]
          | some kind =>
              cases kind <;>
                simp [Role.problem?, Lexeme.problem?, SymbolTable.kindOf?, hfind, hkind]
      | operand =>
          obtain rfl := huse rfl
          simp [Role.problem?, Lexeme.problem?, SymbolTable.contains, hfind]
      | plain => rfl
  | keyword word => cases role <;> rfl
  | arith op => cases role <;> rfl
  | relation op => cases role <;> rfl
  | punct mark => cases role <;> rfl
  | unknown char => cases role <;> rfl

/-- A token is read: what is wrong with it has been said, and it has been declared if
it is to be. -/
theorem Journal.Stands.read {options : Options} {said : List Diagnostic}
    {earlier all : List Symbol} {token : Token} {rest : List Token} {role : Role} {j : Journal}
    (h : j.Stands options.maxDigits.toNat said earlier (token :: rest))
    (huse : role.isUse = true → all = earlier) :
    (j.after options (.read role)).Stands options.maxDigits.toNat
      (said ++ (token.diagnostic? options.maxDigits.toNat earlier all role).toList)
      (earlier ++ (token.declaration? role).toList) rest := by
  have hcurrent : j.input.current? = some token.lexeme := by
    simp [TokenStream.current?, h.tokens]
  have hline : j.input.line = token.line := by
    simp [TokenStream.line, h.tokens]
  have htail : (j.examine role).input.tail.tokens = rest := by
    simp [TokenStream.tail, h.tokens]
  -- The journal examines the current lexeme, and that is the one of the token.
  have hexamine := Journal.examine_of_current? hcurrent role
  rw [hline] at hexamine
  refine ⟨htail, ?_, ?_⟩
  · show (j.examine role).symbols = _
    rw [hexamine, List.foldl_append, ← h.symbols]
    show (((token.declaration? role).map j.symbols.add).getD j.symbols) = _
    cases token.declaration? role with
    | none => rfl
    | some entry => rfl
  · show (j.examine role).diagnostics ++ _ = _
    rw [htail, ← Token.overlong_append_problem huse, hexamine, ← h.symbols]
    show j.diagnostics ++ _ ++ _ = _
    rw [h.diagnostics]
    simp

/-- **Tokens are read one after the other**, and what is wrong with them is said. The
induction is on the roles. Behind a use there is no declaration, so the declarations
that were read before it are all there are. -/
theorem Journal.Stands.tell_reads {options : Options} {said : List Diagnostic}
    {earlier : List Symbol} {left : List Token} {roles : List Role} {j : Journal}
    (h : j.Stands options.maxDigits.toNat said earlier left) (hlen : left.length = roles.length)
    (horder : roles.Pairwise fun role later => role.isUse = true → later.isDeclaration = false) :
    (j.tell options (roles.map .read)).Stands options.maxDigits.toNat
      (said ++ staticDiagnostics options.maxDigits.toNat (earlier ++ declared (left.zip roles))
        earlier (left.zip roles))
      (earlier ++ declared (left.zip roles)) [] := by
  induction roles generalizing said earlier left j with
  | nil =>
      obtain rfl := List.eq_nil_of_length_eq_zero hlen
      simpa [declared, staticDiagnostics] using h
  | cons role roles ih =>
      obtain ⟨token, rest, rfl⟩ := List.exists_cons_of_length_eq_add_one hlen
      obtain ⟨hbehind, horder⟩ := List.pairwise_cons.mp horder
      -- If this token is a use, all declarations were read before it.
      have huse : role.isUse = true →
          earlier ++ declared ((token :: rest).zip (role :: roles)) = earlier := by
        intro hrole
        rw [declared_eq_nil_of_isUse hrole hbehind, List.append_nil]
      -- The declarations of the whole program do not change along the way, only the part of them
      -- that was read.
      have hall : earlier ++ (token.declaration? role).toList ++ declared (rest.zip roles)
          = earlier ++ declared ((token :: rest).zip (role :: roles)) := by
        rw [List.append_assoc, declared_zip_cons]
      have hnext := ih (h.read huse) (Nat.succ.inj hlen) horder
      rw [hall, List.append_assoc] at hnext
      exact hnext

/-! ### Programs within the limit -/

/-- A phrase within the limit is read token by token. -/
theorem Phrase.events_of_nesting_le {level : Level} (p : Phrase level) {room : Nat}
    (h : p.nesting ≤ room) : p.events room = p.roles.map .read := by
  induction p generalizing room with
  | name text => rfl
  | number digits => rfl
  | parens inner ih => simp [events, roles, ih h]
  | factor first ih => exact ih h
  | product front op last ihf ihl =>
      obtain ⟨hfront, hlast⟩ := Nat.max_le.mp h
      simp [events, roles, ihf hfront, ihl hlast]
  | term sign first ih => simp [events, roles, ih h]
  | sum front op last ihf ihl =>
      obtain ⟨hfront, hlast⟩ := Nat.max_le.mp h
      simp [events, roles, ihf hfront, ihl hlast]
  | expression whole ih =>
      cases room with
      | zero => exact absurd h (Nat.not_succ_le_zero _)
      | succ room => exact ih (Nat.le_of_succ_le_succ h)

/-- A condition and a body within the limit are read token by token. -/
theorem testEvents_of_nesting_le {closing : Lexeme} {test : Comparison} {body : Clause .statement}
    {room : Nat} (htest : test.nesting ≤ room)
    (hbody : body.events room = body.roles.map .read) :
    testEvents closing test body.roles body.events room
      = (test.roles ++ .plain :: body.roles).map .read := by
  obtain ⟨hlhs, hrhs⟩ := Nat.max_le.mp htest
  cases room with
  | zero =>
      -- An expression has a level, so a condition does not fit where none is left.
      cases hphrase : test.lhs with
      | expression whole =>
          rw [hphrase] at hlhs
          exact absurd hlhs (Nat.not_succ_le_zero _)
  | succ room =>
      simp [testEvents, Comparison.roles, hbody, test.lhs.events_of_nesting_le hlhs,
        test.rhs.events_of_nesting_le hrhs]

/-- A statement within the limit is read token by token. -/
theorem Clause.events_of_nesting_le {extent : Extent} (c : Clause extent) {room : Nat}
    (h : c.nesting ≤ room) : c.events room = c.roles.map .read := by
  induction c generalizing room with
  | empty =>
      cases room with
      | zero => exact absurd h (Nat.not_succ_le_zero _)
      | succ room => rfl
  | assign name value =>
      cases room with
      | zero => exact absurd h (Nat.not_succ_le_zero _)
      | succ room =>
          simp [events, levelEvents, roles, value.events_of_nesting_le (Nat.le_of_succ_le_succ h)]
  | choice test body ih =>
      cases room with
      | zero => exact absurd h (Nat.not_succ_le_zero _)
      | succ room =>
          obtain ⟨htest, hbody⟩ := Nat.max_le.mp (Nat.le_of_succ_le_succ h)
          simp [events, levelEvents, roles, testEvents_of_nesting_le htest (ih hbody)]
  | loop test body ih =>
      cases room with
      | zero => exact absurd h (Nat.not_succ_le_zero _)
      | succ room =>
          obtain ⟨htest, hbody⟩ := Nat.max_le.mp (Nat.le_of_succ_le_succ h)
          simp [events, levelEvents, roles, testEvents_of_nesting_le htest (ih hbody)]
  | compound body ih =>
      cases room with
      | zero => exact absurd h (Nat.not_succ_le_zero _)
      | succ room => simp [events, levelEvents, roles, ih (Nat.le_of_succ_le_succ h)]
  | one first ih => exact ih h
  | next front last ihf ihl =>
      obtain ⟨hfront, hlast⟩ := Nat.max_le.mp h
      simp [events, roles, ihf hfront, ihl hlast]

/-- A program within the limit is read token by token. -/
theorem Program.events_of_nesting_le (p : Program) {room : Nat} (h : p.nesting ≤ room) :
    p.events room = p.roles.map .read := by
  unfold events roles
  rw [p.body.events_of_nesting_le h, List.map_append]

/-- Every token of a section has a role. -/
@[simp] theorem Section.length_roles (s : Section) : s.roles.length = s.lexemes.length := by
  cases s with
  | consts first rest =>
      simp [roles, itemRoles, lexemes, restLexemes, Definition.roles, Definition.lexemes]
  | vars first rest => simp [roles, itemRoles, lexemes, restLexemes]

/-- The tokens of an input that a program derives have one role each. -/
theorem Program.length_tokens (p : Program) {input : TokenStream}
    (hlex : p.lexemes = input.lexemes) : input.tokens.length = p.roles.length := by
  have hlength : p.roles.length = p.lexemes.length := by
    simp [roles, lexemes, List.length_flatMap]
  rw [hlength, hlex, TokenStream.lexemes, List.length_map]

/-- A program starts with a keyword, so nothing is said before it is read. -/
theorem Journal.stands_start {p : Program} {input : TokenStream}
    (hlex : p.lexemes = input.lexemes) (maxDigits : Nat) :
    (Journal.start input).Stands maxDigits [] [] input.tokens := by
  have hrest : NoNumber input.lexemes := by
    rw [← hlex]
    simp [NoNumber, Program.lexemes]
  refine ⟨rfl, rfl, ?_⟩
  rw [hrest.overlong?]
  rfl

/-- What a compilation of a program says and which names it has got. -/
theorem static_of_compile {options : Options} {source : String} {p : Program}
    {compilation : Compilation} (hok : compile options source = .ok compilation)
    (hlex : p.lexemes = (scan source).lexemes) (hroom : p.nesting ≤ options.maxDepth.toNat) :
    compilation.diagnostics.toList
        = staticDiagnostics options.maxDigits.toNat (declared ((scan source).tokens.zip p.roles)) []
            ((scan source).tokens.zip p.roles) ∧
      compilation.symbols
        = (declared ((scan source).tokens.zip p.roles)).foldl SymbolTable.add .empty := by
  obtain ⟨input, depthReported, hjournal⟩ := journal_of_compile hok hlex
  have hend := (Journal.stands_start hlex options.maxDigits.toNat).tell_reads
    (p.length_tokens hlex) p.pairwise_roles
  -- Within the limit every token is read, so the journal of the run is the one of the roles.
  rw [← p.events_of_nesting_le hroom, hjournal] at hend
  refine ⟨?_, hend.symbols⟩
  have hsaid := hend.diagnostics
  simpa using hsaid

/-- A program that compiles without a report has no number that is too long. -/
theorem allShort_of_compile {options : Options} {source : String} {p : Program}
    {compilation : Compilation} (hok : compile options source = .ok compilation)
    (hclean : compilation.diagnostics = #[]) (hlex : p.lexemes = (scan source).lexemes)
    (hroom : p.nesting ≤ options.maxDepth.toNat) :
    AllShort options.maxDigits.toNat p.lexemes := by
  have hsaid := (static_of_compile hok hlex hroom).1
  rw [hclean] at hsaid
  rw [hlex]
  exact allShort_of_static (p.length_tokens hlex) hsaid.symm

/-- **Static checking is exact.** If the lexemes of a source are derived by a program
whose nesting is within the limit, a compilation that succeeds reports what is wrong
with its tokens, token by token, and nothing else. Its table has the first
declaration of each name, in order. -/
theorem compile_static_checks (options : Options) (source : String) (p : Program)
    (compilation : Compilation) (hlex : p.lexemes = (scan source).lexemes)
    (hroom : p.nesting ≤ options.maxDepth.toNat)
    (hok : compile options source = .ok compilation) :
    compilation.diagnostics.toList
        = staticDiagnostics options.maxDigits.toNat (declared ((scan source).tokens.zip p.roles)) []
            ((scan source).tokens.zip p.roles) ∧
      compilation.symbols.entries.toList
        = (declared ((scan source).tokens.zip p.roles)).eraseDupsBy
            (fun entry kept => entry.name == kept.name) := by
  obtain ⟨hsaid, hsymbols⟩ := static_of_compile hok hlex hroom
  refine ⟨hsaid, ?_⟩
  rw [hsymbols, SymbolTable.entries_foldl_add]
  rfl

/-- A program with each of the problems: a number that is too long, a name declared
twice, a constant assigned to, and names that nothing declares. -/
theorem compile_static_checks_all_kinds :
    ∃ compilation,
      compile { maxDigits := 3 }
        "PROGRAM p CONST c := 1234; VAR x, c; BEGIN\n c := y;\n z := x * 0001 END"
          = .ok compilation ∧
      compilation.diagnostics.toList =
        [⟨1, .numberTooLong "1234" 3⟩, ⟨1, .duplicateDeclaration "c"⟩, ⟨2, .assignToConstant "c"⟩,
          ⟨2, .undeclared "y"⟩, ⟨3, .undeclared "z"⟩, ⟨3, .numberTooLong "0001" 3⟩] ∧
      compilation.symbols.entries.toList = [⟨"c", .const, 1⟩, ⟨"x", .var, 1⟩] := by
  obtain ⟨compilation, hok⟩ : ∃ compilation,
      compile { maxDigits := 3 }
        "PROGRAM p CONST c := 1234; VAR x, c; BEGIN\n c := y;\n z := x * 0001 END"
          = .ok compilation :=
    exists_compilation (by decide +kernel)
  have hchecks := compile_static_checks { maxDigits := 3 } _
    ⟨"p", [.consts ⟨"c", "1234"⟩ [], .vars "x" ["c"]],
      .compound (.next
        (.one (.assign "c" (.expression (.term none (.factor (.name "y"))))))
        (.assign "z" (.expression (.term none
          (.product (.factor (.name "x")) .mul (.number "0001"))))))⟩
    compilation (by decide +kernel) (by decide +kernel) hok
  refine ⟨compilation, hok, ?_, ?_⟩
  · rw [hchecks.1]
    decide +kernel
  · rw [hchecks.2]
    decide +kernel

end ThreeAddress
