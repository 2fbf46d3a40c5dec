import ThreeAddress.Proofs.Effects

/-!
# The limit on the nesting drops what lies too deep

A program of the grammar may be nested deeper than the limit. `pruned` cuts its
derivation down to the limit: a statement beyond it becomes the empty statement, and an
expression beyond it becomes the missing operand. Both sides of a condition lie equally
deep. If they are cut off, so is the relation, and equality is taken.

The generator knows nothing of derivations. It skips tokens by counting brackets, and
behind a condition that is cut off it meets the end of the statement where it expects
the keyword and the body. `compile_eq_pruned_translation` says that it emits the plain
translation of the pruned program all the same. What is not cut off is translated as if
nothing had happened.
-/

set_option autoImplicit false

namespace ThreeAddress

/-! ### Pruned programs -/

/-- The tree of a phrase, `room` levels being left. -/
def Phrase.pruned : {level : Level} → Phrase level → (room : Nat) → Expr
  | _, name text, _ => .name text
  | _, number digits, _ => .number digits
  | _, parens inner, room => inner.pruned room
  | _, factor first, room => first.pruned room
  | _, product front op last, room => .binary op.arith (front.pruned room) (last.pruned room)
  | _, term sign first, room => signed sign (first.pruned room)
  | _, sum front op last, room => .binary op.arith (front.pruned room) (last.pruned room)
  | _, expression _, 0 => .missing
  | _, expression whole, room + 1 => whole.pruned room

/-- The tree of a condition, `room` levels being left for its sides. -/
def Comparison.pruned (c : Comparison) (room : Nat) : Condition :=
  ⟨c.lhs.pruned room, if room = 0 then .eq else c.op, c.rhs.pruned room⟩

/-- The tree of a statement, `room` levels being left. -/
def Clause.pruned : {extent : Extent} → Clause extent → (room : Nat) → Stmt
  | _, empty, _ => .skip
  | _, assign _ _, 0 => .skip
  | _, assign name value, room + 1 => .assign name (value.pruned room)
  | _, choice _ _, 0 => .skip
  | _, choice test body, room + 1 => .choice (test.pruned room) (body.pruned room)
  | _, loop _ _, 0 => .skip
  | _, loop test body, room + 1 => .loop (test.pruned room) (body.pruned room)
  | _, compound _, 0 => .skip
  | _, compound body, room + 1 => body.pruned room
  | _, one first, room => first.pruned room
  | _, next front last, room => .seq (front.pruned room) (last.pruned room)

/-- The plain translation of a program that is cut down to `limit` levels. -/
def Program.prunedCode (base next : Nat) (p : Program) (limit : Nat) : List Instruction :=
  p.constants.map Definition.instruction ++
    (p.body.pruned limit).code (base + p.constants.length) next

/-- Within the limit nothing is cut off a phrase. -/
theorem Phrase.pruned_of_nesting_le {level : Level} (p : Phrase level) {room : Nat}
    (h : p.nesting ≤ room) : p.pruned room = p.tree := by
  induction p generalizing room with
  | name text => rfl
  | number digits => rfl
  | parens inner ih => exact ih h
  | factor first ih => exact ih h
  | product front op last ihf ihl =>
      obtain ⟨hf, hl⟩ := Nat.max_le.mp h
      rw [pruned, ihf hf, ihl hl, tree]
  | term sign first ih => rw [pruned, ih h, tree]
  | sum front op last ihf ihl =>
      obtain ⟨hf, hl⟩ := Nat.max_le.mp h
      rw [pruned, ihf hf, ihl hl, tree]
  | expression whole ih =>
      obtain ⟨inside, rfl⟩ := Nat.exists_eq_succ_of_ne_zero (Nat.ne_zero_of_lt h)
      exact ih (Nat.le_of_succ_le_succ h)

/-- Within the limit nothing is cut off a condition, not even its relation: a condition
has expressions, so it has levels. -/
theorem Comparison.pruned_of_nesting_le (c : Comparison) {room : Nat} (h : c.nesting ≤ room) :
    c.pruned room = c.tree := by
  obtain ⟨hl, hr⟩ := Nat.max_le.mp h
  -- The first side is an expression, and that takes a level.
  have hroom : room ≠ 0 := by
    obtain ⟨⟨whole⟩, op, rhs⟩ := c
    exact Nat.ne_of_gt (Nat.lt_of_lt_of_le (Nat.succ_pos _) hl)
  rw [pruned, Phrase.pruned_of_nesting_le _ hl, Phrase.pruned_of_nesting_le _ hr, if_neg hroom,
    tree]

/-- Within the limit nothing is cut off a statement. -/
theorem Clause.pruned_of_nesting_le {extent : Extent} (c : Clause extent) {room : Nat}
    (h : c.nesting ≤ room) : c.pruned room = c.tree := by
  induction c generalizing room with
  | empty => rfl
  | assign name value =>
      obtain ⟨inside, rfl⟩ := Nat.exists_eq_succ_of_ne_zero (Nat.ne_zero_of_lt h)
      rw [pruned, Phrase.pruned_of_nesting_le value (Nat.le_of_succ_le_succ h), tree]
  | choice test body ih =>
      obtain ⟨inside, rfl⟩ := Nat.exists_eq_succ_of_ne_zero (Nat.ne_zero_of_lt h)
      obtain ⟨ht, hb⟩ := Nat.max_le.mp (Nat.le_of_succ_le_succ h)
      rw [pruned, Comparison.pruned_of_nesting_le test ht, ih hb, tree]
  | loop test body ih =>
      obtain ⟨inside, rfl⟩ := Nat.exists_eq_succ_of_ne_zero (Nat.ne_zero_of_lt h)
      obtain ⟨ht, hb⟩ := Nat.max_le.mp (Nat.le_of_succ_le_succ h)
      rw [pruned, Comparison.pruned_of_nesting_le test ht, ih hb, tree]
  | compound body ih =>
      obtain ⟨inside, rfl⟩ := Nat.exists_eq_succ_of_ne_zero (Nat.ne_zero_of_lt h)
      exact ih (Nat.le_of_succ_le_succ h)
  | one first ih => exact ih h
  | next front last ihf ihl =>
      obtain ⟨hf, hl⟩ := Nat.max_le.mp h
      rw [pruned, ihf hf, ihl hl, tree]

/-- A program within the limit has its plain translation. -/
theorem Program.prunedCode_of_nesting_le (base next : Nat) (p : Program) {limit : Nat}
    (h : p.nesting ≤ limit) : p.prunedCode base next limit = p.code base next := by
  rw [prunedCode, Clause.pruned_of_nesting_le p.body h, code]

namespace Generate

/-! ### Expressions -/

/-- What the procedures yield at a phrase. As in `Narrates`, a term and a sum are what a
loop has read so far, and the loop goes on behind the phrase with the operand that holds
its value. -/
def Prunes (lenient : Prop) (options : Options) : {level : Level} → Phrase level → Prop
  | .factor, p => ∀ (fuel depth : Nat) (rest : List Lexeme),
      Yields lenient options depth p.lexemes rest (.ofExpr (p.pruned (options.room depth)))
        (factor (expression fuel))
  | .term, p => ∀ (fuel depth : Nat) (front rest : List Lexeme) (more : String → Effect String),
      (∀ n value, Yields lenient options depth front rest (more value)
        (chain productOp? (factor (expression fuel)) n value)) →
      ∀ n, Yields lenient options depth (p.lexemes ++ front) rest
        ((Effect.ofExpr (p.pruned (options.room depth))).bind more) (term (expression fuel) n)
  | .sum, p => ∀ (fuel depth : Nat) (front rest : List Lexeme) (more : String → Effect String),
      productOp? (front ++ rest).head? = none →
      (∀ n value, Yields lenient options depth front rest (more value)
        (chain sumOp? (term (expression fuel) fuel) n value)) →
      ∀ n, Yields lenient options depth (p.lexemes ++ front) rest
        ((Effect.ofExpr (p.pruned (options.room depth))).bind more)
        (signedTerm (expression fuel) fuel >>= chain sumOp? (term (expression fuel) fuel) n)
  | .expression, p => ∀ (fuel depth : Nat) (rest : List Lexeme), EndsExpression rest →
      (options.room depth = 0 → afterConstruct 0 rest = rest) →
      Yields lenient options depth p.lexemes rest (.ofExpr (p.pruned (options.room depth)))
        (expression fuel)

section
variable {lenient : Prop} {options : Options}

/-- A name is read, declared or not. -/
theorem prunes_name (text : String) : Prunes lenient options (.name text) := by
  intro fuel depth rest
  refine Yields.look ?_
  rw [show ((Phrase.name text).lexemes ++ rest).head? = some (.ident text) from rfl]
  refine yields_of_keeps fun s hlex => ?_
  have htail : s.input.tail.lexemes = rest := by
    rw [TokenStream.lexemes_tail, hlex]
    rfl
  simp only [ends_bind, ends_get]
  split
  · refine ⟨rfl, State.depth_advance _ _, ?_, State.code_advance _ _, State.temps_advance _ _⟩
    rw [State.input_advance, htail]
  · refine ⟨rfl, State.depth_advance _ _, ?_, State.code_advance _ _, State.temps_advance _ _⟩
    rw [State.input_advance, State.input_report, htail]

/-- A number is read, and its literal is the operand. -/
theorem prunes_number (digits : String) : Prunes lenient options (.number digits) := by
  intro fuel depth rest
  refine Yields.look ?_
  exact (yields_advance (.number digits)).andThen (yields_pure _)

/-- Skipping stops at the closing parenthesis. -/
theorem prunes_parens {inner : Phrase .expression} (ih : Prunes lenient options inner) :
    Prunes lenient options (.parens inner) := by
  intro fuel depth rest
  have hends : EndsExpression (.punct .rparen :: rest) := endsExpression_cons (by simp) _
  have hinner := ih fuel depth (.punct .rparen :: rest) hends fun _ => rfl
  refine Yields.look ?_
  exact (yields_advance (.punct .lparen)).andThen (hinner.handOn fun value =>
    (yields_expect (.punct .rparen)).andThen (yields_pure value))

/-- The first factor of a term. -/
theorem prunes_factor {first : Phrase .factor} (ih : Prunes lenient options first) :
    Prunes lenient options (.factor first) := by
  intro fuel depth front rest more hnext n
  exact (ih fuel depth (front ++ rest)).bind fun value => hnext n value

/-- One more factor of a term. -/
theorem prunes_product {front : Phrase .term} {op : ProductOp} {last : Phrase .factor}
    (ihf : Prunes lenient options front) (ihl : Prunes lenient options last) :
    Prunes lenient options (.product front op last) := by
  intro fuel depth after rest more hnext n
  -- The loop that goes on behind the front reads the operator and the last factor.
  have hloop := yields_chain_of_op (productOp?_arith op) (ihl fuel depth (after ++ rest)) hnext
  refine (ihf fuel depth _ rest _ hloop n).congr ?_ ?_
  · simp [Phrase.lexemes]
  · rw [Phrase.pruned, Effect.ofExpr_binary, Effect.bind_assoc]
    simp only [Effect.bind_assoc]

/-- A term that stands as a whole is read as a whole. -/
theorem yields_term_of_stop {p : Phrase .term} (h : Prunes lenient options p) {depth : Nat}
    {rest : List Lexeme} (hstop : productOp? rest.head? = none) (fuel n : Nat) :
    Yields lenient options depth p.lexemes rest (.ofExpr (p.pruned (options.room depth)))
      (term (expression fuel) n) := by
  have hterm := h fuel depth [] rest _ (yields_chain_of_stop hstop) n
  exact hterm.congr (List.append_nil _) (Effect.bind_pure _)

/-- A sign is read if it is there, in front of what does not start with one. -/
theorem yields_leadingMinus (sign : Option SumOp) {depth : Nat} {rest : List Lexeme}
    (hrest : sumOp? rest.head? = none) :
    Yields lenient options depth (Phrase.signLexemes sign) rest (.pure (decide (sign = some .sub)))
      leadingMinus := by
  refine Yields.look ?_
  cases sign with
  | none =>
      rw [Phrase.signLexemes, List.nil_append, hrest]
      exact yields_pure false
  | some sign =>
      rw [Phrase.signLexemes, List.cons_append, List.head?_cons, sumOp?_arith]
      refine (yields_advance _).andThen ?_
      cases sign with
      | add => exact yields_pure false
      | sub => exact yields_pure true

/-- The first term of a sum, with its sign. Only a minus has an instruction. -/
theorem prunes_term {sign : Option SumOp} {first : Phrase .term}
    (ih : Prunes lenient options first) : Prunes lenient options (.term sign first) := by
  intro fuel depth after rest more hstop hnext n
  have hsign : Yields lenient options depth _ _ _ leadingMinus :=
    yields_leadingMinus sign (sumOp?_head?_lexemes first (.inr rfl) (after ++ rest))
  have hfirst : Yields lenient options depth first.lexemes (after ++ rest) _ _ :=
    yields_term_of_stop ih hstop fuel fuel
  -- The cases are no sign, a plus and a minus.
  have hsigned : Yields lenient options depth (Phrase.term sign first).lexemes (after ++ rest)
      (.ofExpr ((Phrase.term sign first).pruned (options.room depth)))
      (signedTerm (expression fuel) fuel) := by
    refine hsign.andThen ?_
    rcases sign with _ | _ | _
    · exact (hfirst.bind_nil fun value => yields_pure value).congr rfl (Effect.bind_pure _)
    · exact (hfirst.bind_nil fun value => yields_pure value).congr rfl (Effect.bind_pure _)
    · exact (hfirst.bind_nil fun value => yields_emitTemp (.neg value)).congr rfl
        (Effect.ofExpr_neg _).symm
  exact hsigned.bind fun value => hnext n value

/-- One more term of a sum. -/
theorem prunes_sum {front : Phrase .sum} {op : SumOp} {last : Phrase .term}
    (ihf : Prunes lenient options front) (ihl : Prunes lenient options last) :
    Prunes lenient options (.sum front op last) := by
  intro fuel depth after rest more hstop hnext n
  have hloop := yields_chain_of_op (sumOp?_arith op) (yields_term_of_stop ihl hstop fuel fuel) hnext
  refine (ihf fuel depth (.arith op.arith :: (last.lexemes ++ after)) rest _
    (productOp?_sumOp op) hloop n).congr ?_ ?_
  · simp [Phrase.lexemes]
  · rw [Phrase.pruned, Effect.ofExpr_binary, Effect.bind_assoc]
    simp only [Effect.bind_assoc]

/-- An expression is entered, or it is skipped as a whole and the operand is missing. -/
theorem prunes_expression {whole : Phrase .sum} (ih : Prunes lenient options whole) :
    Prunes lenient options (.expression whole) := by
  intro fuel depth rest hends hstop
  have hlevel : Yields lenient options depth whole.lexemes rest
      (.level missing (fun room => .ofExpr (whole.pruned room)) (options.room depth))
      (expression fuel) := by
    refine yields_expression ?_ ?_ fuel
    · -- The parentheses of the phrase match, so skipping does not stop inside of it.
      intro hroom
      rw [Phrase.afterConstruct_append, hstop hroom]
    · intro fuel room _ hinside
      have hwhole := ih fuel (depth + 1) [] rest _ hends.productOp?
        (yields_chain_of_stop hends.sumOp?) fuel
      rw [hinside] at hwhole
      exact hwhole.congr (List.append_nil _) (Effect.bind_pure _)
  refine hlevel.congr rfl ?_
  cases options.room depth with
  | zero => rfl
  | succ room => rfl

/-- **Every phrase yields its pruned tree.** -/
theorem phrase_prunes {level : Level} (p : Phrase level) : Prunes lenient options p := by
  induction p with
  | name text => exact prunes_name text
  | number digits => exact prunes_number digits
  | parens inner ih => exact prunes_parens ih
  | factor first ih => exact prunes_factor ih
  | product front op last ihf ihl => exact prunes_product ihf ihl
  | term sign first ih => exact prunes_term ih
  | sum front op last ihf ihl => exact prunes_sum ihf ihl
  | expression whole ih => exact prunes_expression ih

/-! ### Conditions -/

/-- An expression is refused if no level is left. -/
theorem yields_expression_refused {depth : Nat} {front rest : List Lexeme}
    (hroom : options.room depth = 0) (hstop : afterConstruct 0 (front ++ rest) = rest)
    (fuel : Nat) :
    Yields lenient options depth front rest (.pure missing) (expression fuel) := by
  have hlevel : Yields lenient options depth front rest
      (.level missing (fun _ => .pure missing) (options.room depth)) (expression fuel) := by
    refine yields_expression (fun _ => hstop) ?_ fuel
    intro _ room hsome
    exact absurd (hroom.symm.trans hsome) (Nat.succ_ne_zero room).symm
  rw [hroom] at hlevel
  exact hlevel

/-- A statement is refused if no level is left. -/
theorem yields_statement_refused {depth : Nat} {front rest : List Lexeme}
    (hroom : options.room depth = 0) (hstop : afterConstruct 0 (front ++ rest) = rest)
    (fuel : Nat) (pending : JumpList) :
    Yields lenient options depth front rest (.pure pending) (statement fuel pending) := by
  have hlevel : Yields lenient options depth front rest
      (.level pending (fun _ => .pure pending) (options.room depth)) (statement fuel pending) := by
    refine yields_statement (fun _ => hstop) ?_ fuel
    intro _ room hsome
    exact absurd (hroom.symm.trans hsome) (Nat.succ_ne_zero room).symm
  rw [hroom] at hlevel
  exact hlevel

/-- A relation that is there is read and answered. -/
theorem yields_relation (op : RelOp) {depth : Nat} {rest : List Lexeme} :
    Yields lenient options depth [.relation op] rest (.pure op) relation := by
  refine Yields.look ?_
  exact (yields_advance (.relation op)).andThen (yields_pure op)

/-- Where a relation is missing, equality is taken. -/
theorem yields_relation_miss {depth : Nat} {rest : List Lexeme}
    (h : ∀ op, rest.head? ≠ some (.relation op)) :
    Yields lenient options depth [] rest (.pure .eq) relation := by
  refine Yields.look ?_
  rw [List.nil_append]
  split
  · next op hop => exact absurd hop (h op)
  · exact (yields_expected _).andThen (yields_pure RelOp.eq)

/-- The two sides of a condition and what is found between them. -/
theorem yields_condition_of_sides {lhs rhs : Expr} {op : RelOp} {depth fuel : Nat}
    {front middle front' rest : List Lexeme}
    (hlhs : Yields lenient options depth front (middle ++ (front' ++ rest)) (.ofExpr lhs)
      (expression fuel))
    (hop : Yields lenient options depth middle (front' ++ rest) (.pure op) relation)
    (hrhs : Yields lenient options depth front' rest (.ofExpr rhs) (expression fuel)) :
    Yields lenient options depth (front ++ (middle ++ front')) rest (.ofCondition ⟨lhs, op, rhs⟩)
      (condition fuel) := by
  rw [Effect.ofCondition_eq]
  rw [← List.append_assoc] at hlhs
  exact hlhs.bind fun left => hop.andThen (hrhs.bind_nil fun right =>
    (yields_emit (.branch left op right none)).bind_nil fun onTrue =>
      (yields_emit (.jump none)).bind_nil fun onFalse => yields_pure _)

/-- A condition whose sides may be entered. -/
theorem yields_condition (c : Comparison) {depth : Nat} {rest : List Lexeme}
    (hends : EndsExpression rest) (hroom : options.room depth ≠ 0) (fuel : Nat) :
    Yields lenient options depth c.lexemes rest (.ofCondition (c.pruned (options.room depth)))
      (condition fuel) := by
  have hrelation : EndsExpression (.relation c.op :: (c.rhs.lexemes ++ rest)) :=
    endsExpression_cons (by simp) _
  have hlhs : Yields lenient options depth c.lhs.lexemes _ _ (expression fuel) :=
    phrase_prunes c.lhs fuel depth _ hrelation fun hfull => absurd hfull hroom
  have hrhs : Yields lenient options depth c.rhs.lexemes rest _ (expression fuel) :=
    phrase_prunes c.rhs fuel depth rest hends fun hfull => absurd hfull hroom
  have hcondition := yields_condition_of_sides hlhs (yields_relation c.op) hrhs
  rw [Comparison.pruned, if_neg hroom]
  exact hcondition

/-- A condition whose sides are refused. With the first side all is skipped up to `rest`,
so nothing is left for the relation and the second side. -/
theorem yields_condition_refused (c : Comparison) {depth : Nat} {front rest : List Lexeme}
    (hends : EndsStatement rest) (hroom : options.room depth = 0)
    (hstop : afterConstruct 0 (front ++ rest) = rest) (fuel : Nat) :
    Yields lenient options depth front rest (.ofCondition (c.pruned (options.room depth)))
      (condition fuel) := by
  -- The second side starts where the first one has stopped, and nothing is skipped there.
  have hnone : afterConstruct 0 ([] ++ rest) = rest := hends.afterConstruct
  have hop : Yields lenient options depth [] rest (.pure .eq) relation :=
    yields_relation_miss fun _ => hends.head?_ne (by simp) (by simp)
  have hlhs : Yields lenient options depth front rest (.ofExpr .missing) (expression fuel) :=
    yields_expression_refused hroom hstop fuel
  have hrhs : Yields lenient options depth [] rest (.ofExpr .missing) (expression fuel) :=
    yields_expression_refused hroom hnone fuel
  have hcondition := yields_condition_of_sides hlhs hop hrhs
  obtain ⟨⟨lhs⟩, op, ⟨rhs⟩⟩ := c
  rw [hroom]
  exact hcondition.congr (List.append_nil _) rfl

/-! ### Statements -/

/-- What the procedures yield at statements. As in `Recounts`, statements in sequence are
what a loop has read so far. -/
def Trims (lenient : Prop) (options : Options) : {extent : Extent} → Clause extent → Prop
  | .statement, c => ∀ (fuel depth : Nat) (rest : List Lexeme), EndsStatement rest →
      Yields lenient options depth c.lexemes rest (.ofStmt (c.pruned (options.room depth)))
        (statement fuel .empty)
  | .sequence, c => ∀ (fuel depth : Nat) (front rest : List Lexeme) (more : Effect JumpList),
      EndsStatement (front ++ rest) →
      (∀ n, Yields lenient options depth front rest more (sequence (statement fuel) n .empty)) →
      ∀ n, Yields lenient options depth (c.lexemes ++ front) rest
        ((Effect.ofStmt (c.pruned (options.room depth))).bind fun _ => more)
        (statement fuel .empty >>= sequence (statement fuel) n)

/-- Without a level nothing is left of a statement. -/
theorem pruned_zero (c : Clause .statement) : c.pruned 0 = .skip := by
  cases c <;> rfl

/-- A statement that is not refused yields what its construct does. -/
theorem trims_of_construct {c : Clause .statement}
    (h : ∀ (fuel depth room : Nat) (rest : List Lexeme), EndsStatement rest →
      options.room depth = room →
      Yields lenient options depth c.lexemes rest (.ofStmt (c.pruned (room + 1)))
        (construct (statement fuel) fuel .empty)) : Trims lenient options c := by
  intro fuel depth rest hends
  have hlevel : Yields lenient options depth c.lexemes rest
      (.level .empty (fun room => .ofStmt (c.pruned (room + 1))) (options.room depth))
      (statement fuel .empty) := by
    refine yields_statement ?_ ?_ fuel
    · intro _
      rw [Clause.afterConstruct_append c (by simp), hends.afterConstruct]
    · intro fuel room _ hinside
      exact h fuel (depth + 1) room rest hends hinside
  refine hlevel.congr rfl ?_
  cases options.room depth with
  | zero =>
      rw [pruned_zero]
      rfl
  | succ room => rfl

/-- The empty statement reads nothing. -/
theorem trims_empty : Trims lenient options .empty := by
  refine trims_of_construct ?_
  intro fuel depth room rest hends _
  exact yields_construct_empty hends

/-- An assignment within its level. If its value is refused, the operand is missing and the
assignment stays. -/
theorem trims_assign {name : String} {value : Phrase .expression} :
    Trims lenient options (.assign name value) := by
  refine trims_of_construct ?_
  intro fuel depth room rest hends hroom
  subst hroom
  have hvalue : Yields lenient options depth value.lexemes rest _ (expression fuel) :=
    phrase_prunes value fuel depth rest hends.endsExpression fun _ => hends.afterConstruct
  refine Yields.look ?_
  exact yields_assignment (Yields.eat (yields_pure ())) hvalue

/-- The condition of a choice or a loop, the keyword `closing` and the body. If no level is
left the condition takes all of it. -/
theorem exists_yields_test (test : Comparison) {closing : Keyword} {body : Clause .statement}
    (ih : Trims lenient options body) (hword : closing = .thenKw ∨ closing = .doKw)
    {depth : Nat} {rest : List Lexeme} (hends : EndsStatement rest) (fuel : Nat) :
    ∃ front middle last : List Lexeme,
      front ++ (middle ++ last) = test.lexemes ++ .keyword closing :: body.lexemes ∧
      Yields lenient options depth front (middle ++ (last ++ rest))
        (.ofCondition (test.pruned (options.room depth))) (condition fuel) ∧
      Yields lenient options depth middle (last ++ rest) (.pure ()) (expect (.keyword closing)) ∧
      Yields lenient options depth last rest (.ofStmt (body.pruned (options.room depth)))
        (statement fuel .empty) := by
  -- A refused condition skips the keyword and the body too, so nothing is left for these.
  by_cases hroom : options.room depth = 0
  · refine ⟨test.lexemes ++ .keyword closing :: body.lexemes, [], [], by simp, ?_, ?_, ?_⟩
    · refine yields_condition_refused test hends hroom ?_ fuel
      have hplain : (Lexeme.keyword closing).bracketing = .none := by
        rcases hword with rfl | rfl <;> rfl
      show afterConstruct 0 ((test.lexemes ++ _) ++ rest) = rest
      rw [List.append_assoc, Comparison.afterConstruct_append]
      simp only [List.cons_append, afterConstruct, hplain]
      rw [Clause.afterConstruct_append body (by simp), hends.afterConstruct]
    · refine yields_expect_miss (hends.head?_ne (by simp) ?_)
      rcases hword with rfl | rfl <;> simp
    · have hnone : afterConstruct 0 ([] ++ rest) = rest := hends.afterConstruct
      rw [hroom, pruned_zero]
      exact yields_statement_refused hroom hnone fuel .empty
  · have hclosing : EndsExpression (.keyword closing :: (body.lexemes ++ rest)) :=
      endsExpression_cons (by simp) _
    exact ⟨test.lexemes, [.keyword closing], body.lexemes, rfl,
      yields_condition test hclosing hroom fuel, yields_expect _, ih fuel depth rest hends⟩

/-- A choice is read as `exists_yields_test` divides its lexemes. -/
theorem trims_choice {test : Comparison} {body : Clause .statement}
    (ih : Trims lenient options body) : Trims lenient options (.choice test body) := by
  refine trims_of_construct ?_
  intro fuel depth room rest hends hroom
  subst hroom
  obtain ⟨front, middle, last, hlex, htest, hclosing, hbody⟩ :=
    exists_yields_test test ih (.inl rfl) hends fuel
  refine Yields.look ?_
  exact (yields_choice htest hbody hclosing).congr (congrArg _ hlex) rfl

/-- A loop is divided in the same way. -/
theorem trims_loop {test : Comparison} {body : Clause .statement}
    (ih : Trims lenient options body) : Trims lenient options (.loop test body) := by
  refine trims_of_construct ?_
  intro fuel depth room rest hends hroom
  subst hroom
  obtain ⟨front, middle, last, hlex, htest, hclosing, hbody⟩ :=
    exists_yields_test test ih (.inr rfl) hends fuel
  refine Yields.look ?_
  exact (yields_loop htest hbody hclosing).congr (congrArg _ hlex) rfl

/-- The statements between `BEGIN` and `END`. -/
theorem trims_compound {body : Clause .sequence} (ih : Trims lenient options body) :
    Trims lenient options (.compound body) := by
  refine trims_of_construct ?_
  intro fuel depth room rest hends hroom
  subst hroom
  -- The loop over the statements stops at `END`, where nothing more is to do.
  have hbody := ih fuel depth [] (.keyword .endKw :: rest) (.pure .empty) (.inr (.inr rfl))
    (fun n => yields_sequence_of_end fuel n) fuel
  refine Yields.look ?_
  refine yields_compound (hbody.congr (List.append_nil _) ?_)
  exact Effect.bind_pure _

/-- The first statement of a sequence. -/
theorem trims_one {first : Clause .statement} (ih : Trims lenient options first) :
    Trims lenient options (.one first) := by
  intro fuel depth front rest more hends hnext n
  exact (ih fuel depth (front ++ rest) hends).bind_value fun _ _ => hnext n

/-- One more statement of a sequence. -/
theorem trims_next {front : Clause .sequence} {last : Clause .statement}
    (ihf : Trims lenient options front) (ihl : Trims lenient options last) :
    Trims lenient options (.next front last) := by
  intro fuel depth after rest more hends hnext n
  -- Behind the first statements the loop reads the semicolon and the last one, and goes on.
  have hloop : ∀ n, Yields lenient options depth (.punct .semicolon :: (last.lexemes ++ after)) rest
      ((Effect.ofStmt (last.pruned (options.room depth))).bind fun _ => more)
      (sequence (statement fuel) n .empty) := by
    intro n
    cases n with
    | zero => exact yields_throw_outOfFuel
    | succ n =>
        exact Yields.eat ((ihl fuel depth (after ++ rest) hends).bind_value fun _ _ => hnext n)
  refine (ihf fuel depth (.punct .semicolon :: (last.lexemes ++ after)) rest _ (.inr (.inl rfl))
    hloop n).congr ?_ ?_
  · simp [Clause.lexemes]
  · rw [Clause.pruned, Effect.ofStmt_seq, Effect.bind_assoc]

/-- **Every statement yields its pruned tree.** -/
theorem clause_trims {extent : Extent} (c : Clause extent) : Trims lenient options c := by
  induction c with
  | empty => exact trims_empty
  | assign name value => exact trims_assign
  | choice test body ih => exact trims_choice ih
  | loop test body ih => exact trims_loop ih
  | compound body ih => exact trims_compound ih
  | one first ih => exact trims_one ih
  | next front last ihf ihl => exact trims_next ihf ihl

end

/-- A run on a program of the grammar emits the plain translation of the pruned
program. -/
theorem program_ends_pruned (p : Program) {options : Options} {input : TokenStream} {fuel : Nat}
    (hlex : input.lexemes = p.lexemes) :
    Ends (fun _ => True) (program fuel) options (.start options input) fun name? s' =>
      name? = some p.name ∧
        s'.code = (emptyStore options).append (p.prunedCode options.firstAddress.toNat
          options.firstTemp.toNat options.maxDepth.toNat) := by
  refine ends_program_of_body p hlex ?_
  intro s hbody hdepth _ hcode htemps
  rw [ends_bind]
  have hbody : Ends (Excused True) _ options s _ :=
    clause_trims p.body fuel 0 [] (.inl rfl) s hdepth hbody (.inl trivial)
  refine (hbody.weaken fun _ _ => trivial).mono ?_
  intro out s₁ hyielded
  have hend : s₁.input.current? = none := by
    rw [TokenStream.current?_eq_head?, hyielded.lexemes]
    rfl
  rw [show out = .empty from hyielded.value, ends_bind, expectEnd, ends_bind, ends_current?, hend,
    ends_pure, ends_bind, ends_backpatchHere_empty, ends_bind, checkResolved, ends_bind, ends_get]
  -- A jump that is left pending would be a fault, and faults are left out here.
  split
  · refine ⟨rfl, ?_⟩
    rw [hyielded.code, htemps, hcode, Store.append_append, Store.nextAddress_append]
    simp [Program.prunedCode, emptyStore, Store.nextAddress, Effect.ofStmt, Options.room]
  · trivial

end Generate

/-- **What the limit drops is exactly what lies too deep.** If the lexemes of a source are
derived by a program, nested as deep as it may be, then a compilation that succeeds answers
its name and the plain translation of the program cut down to the limit. -/
theorem compile_eq_pruned_translation (options : Options) (source : String) (p : Program)
    (compilation : Compilation) (hlex : p.lexemes = (scan source).lexemes)
    (hok : compile options source = .ok compilation) :
    compilation.program = some p.name ∧
      compilation.code.first = options.firstAddress ∧
      compilation.code.code.toList = p.prunedCode options.firstAddress.toNat
        options.firstTemp.toNat options.maxDepth.toNat := by
  obtain ⟨s, hrun, hcode, -⟩ := run_of_compile hok
  obtain ⟨hname, hstore⟩ := (Generate.program_ends_pruned p hlex.symm).ok hrun
  rw [hcode, hstore]
  refine ⟨hname, rfl, ?_⟩
  simp [Store.append, Generate.emptyStore]

/-- Three levels, and a loop on the third one. Its condition and its body lie on the fourth
and are cut off, and so is the sum in parentheses. The other statements are translated as they
stand. -/
theorem compile_eq_pruned_translation_loop :
    ∃ compilation,
      compile { maxDepth := 3 }
        "PROGRAM p VAR x; BEGIN BEGIN WHILE (x) < 3 DO x := 1 END; x := 2 * (x + 1); x := x END"
          = .ok compilation ∧
      compilation.program = some "p" ∧
      compilation.code.first = 0 ∧
      compilation.code.code.toList =
        [.branch "?" .eq "?" (some 2), .jump (some 3), .jump (some 0),
          .assign "t0" (.binary .mul "2" "?"), .assign "x" (.copy "t0"),
          .assign "x" (.copy "x")] := by
  obtain ⟨compilation, hok⟩ : ∃ compilation, compile { maxDepth := 3 }
      "PROGRAM p VAR x; BEGIN BEGIN WHILE (x) < 3 DO x := 1 END; x := 2 * (x + 1); x := x END"
        = .ok compilation :=
    exists_compilation (by decide +kernel)
  have hpruned := compile_eq_pruned_translation { maxDepth := 3 } _
    ⟨"p", [.vars "x" []], .compound (.next (.next (.one (.compound (.one (.loop
      ⟨.expression (.term none (.factor (.parens
          (.expression (.term none (.factor (.name "x"))))))), .lt,
        .expression (.term none (.factor (.number "3")))⟩
      (.assign "x" (.expression (.term none (.factor (.number "1")))))))))
      (.assign "x" (.expression (.term none (.product (.factor (.number "2")) .mul (.parens
        (.expression (.sum (.term none (.factor (.name "x"))) .add
          (.factor (.number "1"))))))))))
      (.assign "x" (.expression (.term none (.factor (.name "x"))))))⟩
    compilation (by decide +kernel) hok
  refine ⟨compilation, hok, hpruned.1, hpruned.2.1, ?_⟩
  rw [hpruned.2.2]
  decide +kernel

end ThreeAddress
