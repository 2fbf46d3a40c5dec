import ThreeAddress.Proofs.Pruning
import ThreeAddress.Proofs.Relocation
import ThreeAddress.Proofs.Slips

/-!
# Recovery from slips

The generator reads a program that is written with slips as if there were none: it takes
what is missing as present, and what it finds next is what comes next. `compile_recovers`
says so of a source that compiles without problems and is then written with slips.

A run is described as before, by what it tells and by what it yields. What has to be seen
at each slip is that the lexeme behind it is not taken for a part of the construct before
it. An expression goes on only at an operator, and `ContinuesAfter` says what may stand
behind a statement: the end of it, or the start of another one if the statement is solid.
Behind an empty statement the start of another one would be taken for the statement itself.
-/

set_option autoImplicit false

namespace ThreeAddress

namespace Generate

/-! ### What stands behind a statement -/

/-- A statement stands here, or it is empty and its end stands here. -/
def Enters (rest : List Lexeme) : Prop :=
  EndsStatement rest ∨ startsStatement rest.head? = true

/-- What may stand behind a statement: what ends it, or the start of the next statement if
it is solid. -/
def ContinuesAfter {extent : Extent} (c : Clause extent) (rest : List Lexeme) : Prop :=
  EndsStatement rest ∨ c.solid = true ∧ startsStatement rest.head? = true

/-- Behind a statement its end stands, or the next statement. -/
theorem ContinuesAfter.enters {extent : Extent} {c : Clause extent} {rest : List Lexeme}
    (h : ContinuesAfter c rest) : Enters rest :=
  h.imp_right And.right

/-- No statement starts or ends with one of the other lexemes. -/
theorem Enters.head?_ne {rest : List Lexeme} (h : Enters rest) {lexeme : Lexeme}
    (hsemicolon : lexeme ≠ .punct .semicolon) (hend : lexeme ≠ .keyword .endKw)
    (hstart : startsStatement (some lexeme) = false) : rest.head? ≠ some lexeme := by
  rcases h with h | h
  · exact h.head?_ne hsemicolon hend
  · intro hhead
    rw [hhead, hstart] at h
    exact nomatch h

/-- An expression ends where a statement is entered, since no operator stands there. -/
theorem Enters.endsExpression {rest : List Lexeme} (h : Enters rest) : EndsExpression rest :=
  fun _ => h.head?_ne (by simp) (by simp) rfl

/-- A statement that is not empty is written with its first lexeme. -/
theorem startsStatement_written {c : Clause .statement} {marks : List (Lexeme × Slip)}
    (h : c.Written marks) (hne : c ≠ .empty) (rest : List Lexeme) :
    startsStatement (written marks ++ rest).head? = true := by
  cases h with
  | empty => exact absurd rfl hne
  | assign slip => rfl
  | choice hslip hbody => rfl
  | loop hslip hbody => rfl
  | compound hbody => rfl

/-- The same with what follows in two parts. -/
theorem startsStatement_behind {c : Clause .statement} {marks : List (Lexeme × Slip)}
    (h : c.Written marks) (hne : c ≠ .empty) {after rest : List Lexeme} :
    startsStatement (written marks ++ after ++ rest).head? = true := by
  rw [List.append_assoc]
  exact startsStatement_written h hne (after ++ rest)

/-- What is written for the semicolon and the statement behind it may stand behind the
statements before it. -/
theorem continuesAfter_separator {front : Clause .sequence} {last : Clause .statement}
    {slip : Slip} {more : List (Lexeme × Slip)}
    (hslip : slip = .kept ∨ slip = .dropped ∧ front.solid = true ∧ last ≠ .empty)
    (hlast : last.Written more) {after rest : List Lexeme} :
    ContinuesAfter front
      (slip.lexemes (.punct .semicolon) ++ (written more ++ after) ++ rest) := by
  rcases hslip with rfl | ⟨rfl, hsolid, hne⟩
  · exact .inl (.inr (.inl rfl))
  · exact .inr ⟨hsolid, startsStatement_behind hlast hne⟩

/-- Where a statement is written it is entered. -/
theorem enters_written {c : Clause .statement} {marks : List (Lexeme × Slip)}
    (h : c.Written marks) {rest : List Lexeme} (hrest : ContinuesAfter c rest) :
    Enters (written marks ++ rest) := by
  by_cases hempty : c = .empty
  · subst hempty
    cases h
    exact hrest.enters
  · exact .inr (startsStatement_written h hempty rest)

/-- Behind a condition the keyword stands, or the body if the keyword was left out. Neither
goes on with an expression. -/
theorem behind_condition {closing : Keyword} {body : Clause .statement} {slip : Slip}
    {marks : List (Lexeme × Slip)} (hbody : body.Written marks)
    (hword : closing = .thenKw ∨ closing = .doKw) (hslip : slip = .kept ∨ slip = .dropped)
    {rest : List Lexeme} (hrest : ContinuesAfter body rest) :
    (written marks ++ rest).head? ≠ some (.keyword closing) ∧
      EndsExpression (slip.lexemes (.keyword closing) ++ (written marks ++ rest)) := by
  have henters := enters_written hbody hrest
  constructor
  · rcases hword with rfl | rfl
    · exact henters.head?_ne (by simp) (by simp) rfl
    · exact henters.head?_ne (by simp) (by simp) rfl
  · rcases hslip with rfl | rfl
    · exact endsExpression_cons (by simp) _
    · exact henters.endsExpression

/-- A phrase starts neither with `:=` nor with a relation. -/
theorem head?_phrase_ne {level : Level} (p : Phrase level) (rest : List Lexeme) :
    (p.lexemes ++ rest).head? ≠ some (.punct .becomes) ∧
      ∀ op, (p.lexemes ++ rest).head? ≠ some (.relation op) := by
  induction p generalizing rest with
  | name text => exact ⟨by simp [Phrase.lexemes], by simp [Phrase.lexemes]⟩
  | number digits => exact ⟨by simp [Phrase.lexemes], by simp [Phrase.lexemes]⟩
  | parens inner _ => exact ⟨by simp [Phrase.lexemes], by simp [Phrase.lexemes]⟩
  | factor first ih => exact ih rest
  | product front op last ihf _ =>
      rw [Phrase.lexemes_product_append]
      exact ihf _
  | term sign first ih =>
      cases sign with
      | none => exact ih rest
      | some sign =>
          exact ⟨by simp [Phrase.lexemes, Phrase.signLexemes],
            by simp [Phrase.lexemes, Phrase.signLexemes]⟩
  | sum front op last ihf _ =>
      rw [Phrase.lexemes_sum_append]
      exact ihf _
  | expression whole ih => exact ih rest

section
variable {options : Options} {depth : Nat} {rest : List Lexeme} {lexeme : Lexeme} {slip : Slip}

/-! ### Single slips -/

/-- What stands behind a name is not too long, whether `:=` is there or not. -/
theorem short_becomes {maxDigits : Nat} {lexemes : List Lexeme} (slip : Slip)
    (h : AllShort maxDigits lexemes) (hne : lexemes ≠ []) (rest : List Lexeme) :
    Short maxDigits (slip.lexemes (.punct .becomes) ++ lexemes ++ rest) := by
  cases slip with
  | kept => simp [Short, Slip.lexemes]
  | equals line => simp [Short, Slip.lexemes]
  | dropped => exact h.short hne rest

/-- A lexeme that is expected is read, or it is missed where it was left out. -/
theorem tells_expect_slip (hslip : slip = .kept ∨ slip = .dropped)
    (hrest : rest.head? ≠ some lexeme) :
    Tells options depth (slip.lexemes lexeme) rest (slip.events lexeme .plain)
      (expect lexeme) := by
  rcases hslip with rfl | rfl
  · exact tells_expect lexeme
  · exact tells_expect_miss hrest

/-- A lexeme that is expected has no effect on the code, whether it is there or not. -/
theorem yields_expect_slip {lenient : Prop} (hslip : slip = .kept ∨ slip = .dropped)
    (hrest : rest.head? ≠ some lexeme) :
    Yields lenient options depth (slip.lexemes lexeme) rest (.pure ()) (expect lexeme) := by
  rcases hslip with rfl | rfl
  · exact yields_expect lexeme
  · exact yields_expect_miss hrest

/-- A `:=` is read or missed. An `=` in its place is read all the same. -/
theorem tells_expectBecomes_slip (slip : Slip)
    (hbecomes : rest.head? ≠ some (.punct .becomes))
    (hequals : rest.head? ≠ some (.relation .eq)) :
    Tells options depth (slip.lexemes (.punct .becomes)) rest
      (slip.events (.punct .becomes) .plain) expectBecomes := by
  cases slip with
  | kept => exact tells_expectBecomes
  | equals line =>
      refine Tells.eat_of_ne (by simp [Slip.lexemes]) ?_
      exact (tells_expected _).bind fun _ => Tells.eat (tells_pure ())
  | dropped =>
      refine Tells.eat_of_ne hbecomes ?_
      exact (tells_expected _).bind fun _ => Tells.eat_of_ne hequals (tells_pure ())

/-- Nor has a `:=`, however it is written. -/
theorem yields_expectBecomes_slip {lenient : Prop} (slip : Slip)
    (hbecomes : rest.head? ≠ some (.punct .becomes))
    (hequals : rest.head? ≠ some (.relation .eq)) :
    Yields lenient options depth (slip.lexemes (.punct .becomes)) rest (.pure ())
      expectBecomes := by
  cases slip with
  | kept => exact Yields.eat (yields_pure ())
  | equals line =>
      refine Yields.eat_of_ne (by simp [Slip.lexemes]) ?_
      exact (yields_expected _).andThen (Yields.eat (yields_pure ()))
  | dropped =>
      refine Yields.eat_of_ne hbecomes ?_
      exact (yields_expected _).andThen (Yields.eat_of_ne hequals (yields_pure ()))

/-! ### Levels -/

/-- A statement that may be entered is told by its construct. -/
theorem tells_statement_entered {front : List Lexeme} {events : List Event}
    {pending : JumpList} (hroom : options.room depth ≠ 0)
    (hbody : ∀ fuel, options.room depth = options.room (depth + 1) + 1 →
      Tells options (depth + 1) front rest events (construct (statement fuel) fuel pending))
    (fuel : Nat) : Tells options depth front rest events (statement fuel pending) := by
  have hlevel : Tells options depth front rest
      (levelEvents (List.replicate front.length .plain) (fun _ => events) (options.room depth))
      (statement fuel pending) := by
    refine tells_statement List.length_replicate (fun hfull => absurd hfull hroom) ?_ fuel
    intro fuel room hleft hinside
    exact hbody fuel (by rw [hleft, hinside])
  obtain ⟨room, hleft⟩ := Nat.exists_eq_succ_of_ne_zero hroom
  rw [hleft] at hlevel
  exact hlevel

/-- It yields what its construct does. -/
theorem yields_statement_entered {lenient : Prop} {front : List Lexeme}
    {effect : Effect JumpList} {pending : JumpList} (hroom : options.room depth ≠ 0)
    (hbody : ∀ fuel, options.room depth = options.room (depth + 1) + 1 →
      Yields lenient options (depth + 1) front rest effect
        (construct (statement fuel) fuel pending))
    (fuel : Nat) : Yields lenient options depth front rest effect (statement fuel pending) := by
  have hlevel : Yields lenient options depth front rest
      (.level pending (fun _ => effect) (options.room depth)) (statement fuel pending) := by
    refine yields_statement (fun hfull => absurd hfull hroom) ?_ fuel
    intro fuel room hleft hinside
    exact hbody fuel (by rw [hleft, hinside])
  obtain ⟨room, hleft⟩ := Nat.exists_eq_succ_of_ne_zero hroom
  rw [hleft] at hlevel
  exact hlevel

/-- An expression takes a level. -/
theorem room_ne_zero_of_nesting_le {p : Phrase .expression} {room : Nat}
    (h : p.nesting ≤ room) : room ≠ 0 := by
  cases p with
  | expression whole => exact Nat.ne_zero_of_lt h

/-- An expression within the limit is read, and it yields its tree. -/
theorem tells_value (p : Phrase .expression) (hends : EndsExpression rest)
    (hroom : p.nesting ≤ options.room depth) (fuel : Nat) :
    Tells options depth p.lexemes rest (p.roles.map .read) (expression fuel) := by
  rw [← p.events_of_nesting_le hroom]
  exact phrase_narrates p fuel depth rest hends
    fun hfull => absurd hfull (room_ne_zero_of_nesting_le hroom)

/-- An expression within the limit yields its tree. -/
theorem yields_value {lenient : Prop} (p : Phrase .expression) (hends : EndsExpression rest)
    (hroom : p.nesting ≤ options.room depth) (fuel : Nat) :
    Yields lenient options depth p.lexemes rest (.ofExpr p.tree) (expression fuel) := by
  rw [← p.pruned_of_nesting_le hroom]
  exact phrase_prunes p fuel depth rest hends
    fun hfull => absurd hfull (room_ne_zero_of_nesting_le hroom)

/-- The same of a condition. -/
theorem tells_test_read (c : Comparison) (hends : EndsExpression rest)
    (hroom : c.nesting ≤ options.room depth) (fuel : Nat) :
    Tells options depth c.lexemes rest (c.roles.map .read) (condition fuel) := by
  obtain ⟨hlhs, hrhs⟩ := Nat.max_le.mp hroom
  refine (tells_condition c hends (room_ne_zero_of_nesting_le hlhs) fuel).congr rfl ?_
  rw [c.lhs.events_of_nesting_le hlhs, c.rhs.events_of_nesting_le hrhs]
  simp [Comparison.roles]

/-- A condition within the limit yields its tree. -/
theorem yields_test_read {lenient : Prop} (c : Comparison) (hends : EndsExpression rest)
    (hroom : c.nesting ≤ options.room depth) (fuel : Nat) :
    Yields lenient options depth c.lexemes rest (.ofCondition c.tree) (condition fuel) := by
  rw [← c.pruned_of_nesting_le hroom]
  exact yields_condition c hends (room_ne_zero_of_nesting_le (Nat.max_le.mp hroom).1) fuel

/-! ### Statements -/

/-- What the procedures tell at a statement that is written with slips, within the limit.
As in `Recounts`, statements in sequence are what a loop has read so far. -/
def Retells (options : Options) (marks : List (Lexeme × Slip)) :
    {extent : Extent} → Clause extent → Prop
  | .statement, c => ∀ (fuel depth : Nat) (rest : List Lexeme) (pending : JumpList),
      c.nesting ≤ options.room depth → ContinuesAfter c rest →
      Tells options depth (written marks) rest (slipEvents marks c.roles)
        (statement fuel pending)
  | .sequence, c => ∀ (fuel depth : Nat) (front rest : List Lexeme) (more : List Event),
      c.nesting ≤ options.room depth → ContinuesAfter c (front ++ rest) →
      (∀ n pending, Tells options depth front rest more (sequence (statement fuel) n pending)) →
      ∀ n pending, Tells options depth (written marks ++ front) rest
        (slipEvents marks c.roles ++ more)
        (statement fuel pending >>= sequence (statement fuel) n)

/-- A statement within the limit is told by its construct. -/
theorem retells_of_construct {c : Clause .statement} {marks : List (Lexeme × Slip)}
    (hlevel : c.nesting ≠ 0)
    (h : ∀ (fuel depth : Nat) (rest : List Lexeme) (pending : JumpList),
      c.nesting ≤ options.room depth + 1 → ContinuesAfter c rest →
      Tells options depth (written marks) rest (slipEvents marks c.roles)
        (construct (statement fuel) fuel pending)) : Retells options marks c := by
  intro fuel depth rest pending hroom hrest
  refine tells_statement_entered (by omega) ?_ fuel
  intro fuel hinside
  exact h fuel (depth + 1) rest pending (hinside ▸ hroom) hrest

/-- The empty statement stands in front of an end. A statement behind it would be taken for it.
-/
theorem retells_empty : Retells options [] .empty := by
  refine retells_of_construct Nat.one_ne_zero ?_
  intro fuel depth rest pending _ hrest
  exact tells_construct_empty (hrest.resolve_right (by simp [Clause.solid]))

/-- The value starts with a number at most, so the name is examined before anything is said
about the value. -/
theorem retells_assign {name : String} {value : Phrase .expression} (slip : Slip)
    (hshort : AllShort options.maxDigits.toNat value.lexemes) :
    Retells options ((.ident name, .kept) :: (.punct .becomes, slip) :: keptMarks value.lexemes)
      (.assign name value) := by
  refine retells_of_construct (Nat.succ_ne_zero _) ?_
  intro fuel depth rest pending hroom hrest
  have hvalue := tells_value value hrest.enters.endsExpression (Nat.le_of_succ_le_succ hroom) fuel
  obtain ⟨hbecomes, hequals⟩ := head?_phrase_ne value rest
  have hname := short_becomes slip hshort value.lexemes_ne_nil rest
  refine Tells.look ?_
  have hassign := (tells_backpatchHere pending).bind fun _ => (tells_target name hname).bind
    fun _ => (tells_expectBecomes_slip slip hbecomes (hequals .eq)).bind fun _ =>
      hvalue.quiet fun operand => (tells_emit (.assign name (.copy operand))).bind fun _ =>
        tells_pure JumpList.empty
  simp only [bind_assoc] at hassign
  refine hassign.congr ?_ ?_
  · simp [Slip.lexemes]
  · simp [Clause.roles, Slip.events, slipEvents_keptMarks]

/-- The condition of a choice or a loop, the keyword `closing` with its slip, and the
body. -/
theorem tells_test_slip (test : Comparison) {closing : Keyword} {body : Clause .statement}
    {marks : List (Lexeme × Slip)} (ih : Retells options marks body)
    (hbody : body.Written marks) (hword : closing = .thenKw ∨ closing = .doKw)
    (hslip : slip = .kept ∨ slip = .dropped)
    (hroom : max test.nesting body.nesting ≤ options.room depth)
    (hrest : ContinuesAfter body rest) (fuel : Nat)
    {after : Exits → JumpList → Generate JumpList}
    (hafter : ∀ exits next, Tells options depth [] rest [] (after exits next)) :
    Tells options depth
      (written (keptMarks test.lexemes ++ (.keyword closing, slip) :: marks)) rest
      (slipEvents (keptMarks test.lexemes ++ (.keyword closing, slip) :: marks)
        (test.roles ++ .plain :: body.roles)) (do
        let exits ← condition fuel
        expect (.keyword closing)
        let _ ← backpatchHere exits.onTrue
        let next ← statement fuel .empty
        after exits next) := by
  -- If the keyword is left out, the body ends the condition, and no body starts with the
  -- keyword.
  obtain ⟨hcondition, hinner⟩ := Nat.max_le.mp hroom
  obtain ⟨hclosing, hends⟩ := behind_condition hbody hword hslip hrest
  rw [← List.append_assoc] at hends
  -- Condition, keyword, jumps and body, one behind the other.
  have htest := (tells_test_read test hends hcondition fuel).bind fun exits =>
    (tells_expect_slip hslip hclosing).bind fun _ =>
      (tells_backpatchHere exits.onTrue).bind fun _ =>
        (ih fuel depth rest .empty hinner hrest).quiet fun next => hafter exits next
  refine htest.congr ?_ ?_
  · simp
  · rw [slipEvents_append (by simp), slipEvents_keptMarks (by simp)]
    simp

/-- A choice, whether `THEN` is there or not. -/
theorem retells_choice {test : Comparison} {body : Clause .statement}
    {marks : List (Lexeme × Slip)} (ih : Retells options marks body)
    (hbody : body.Written marks) (hslip : slip = .kept ∨ slip = .dropped) :
    Retells options ((.keyword .ifKw, .kept) ::
      (keptMarks test.lexemes ++ (.keyword .thenKw, slip) :: marks)) (.choice test body) := by
  refine retells_of_construct (Nat.succ_ne_zero _) ?_
  intro fuel depth rest pending hroom hrest
  refine Tells.look ?_
  exact (tells_backpatchHere pending).bind fun _ => (tells_advance (.keyword .ifKw)).bind fun _ =>
    tells_test_slip test ih hbody (.inl rfl) hslip (Nat.le_of_succ_le_succ hroom) hrest fuel
      fun exits next => (tells_backpatchHere exits.onFalse).bind fun _ => tells_pure next

/-- A loop, whether `DO` is there or not. -/
theorem retells_loop {test : Comparison} {body : Clause .statement}
    {marks : List (Lexeme × Slip)} (ih : Retells options marks body)
    (hbody : body.Written marks) (hslip : slip = .kept ∨ slip = .dropped) :
    Retells options ((.keyword .whileKw, .kept) ::
      (keptMarks test.lexemes ++ (.keyword .doKw, slip) :: marks)) (.loop test body) := by
  refine retells_of_construct (Nat.succ_ne_zero _) ?_
  intro fuel depth rest pending hroom hrest
  refine Tells.look ?_
  exact (tells_backpatchHere pending).bind fun start =>
    (tells_advance (.keyword .whileKw)).bind fun _ =>
      tells_test_slip test ih hbody (.inr rfl) hslip (Nat.le_of_succ_le_succ hroom) hrest fuel
        fun exits next => (tells_onCode (next.backpatch start)).bind fun _ =>
          (tells_emit (.jump (some start))).bind fun _ =>
            (tells_backpatchHere exits.onFalse).bind fun _ => tells_pure JumpList.empty

/-- The statements between `BEGIN` and `END`, neither of which can slip. -/
theorem retells_compound {body : Clause .sequence} {marks : List (Lexeme × Slip)}
    (ih : Retells options marks body) (hbody : body.Written marks) :
    Retells options ((.keyword .beginKw, .kept) :: (marks ++ [(.keyword .endKw, .kept)]))
      (.compound body) := by
  refine retells_of_construct (Nat.succ_ne_zero _) ?_
  intro fuel depth rest pending hroom _
  -- The loop over the statements stops at `END` and tells nothing more.
  have hstop : ∀ n pending, Tells options depth [] (.keyword .endKw :: rest) []
      (sequence (statement fuel) n pending) :=
    fun n _ _ _ hlex => ends_sequence_of_end hlex ⟨rfl, hlex, rfl⟩ n
  have hinner := ih fuel depth [] (.keyword .endKw :: rest) [] (Nat.le_of_succ_le_succ hroom)
    (.inl (.inr (.inr rfl))) hstop fuel pending
  refine Tells.look ?_
  have hcompound := (tells_advance (.keyword .beginKw)).bind fun _ =>
    (hinner.congr (List.append_nil _) (List.append_nil _)).bind fun next =>
      (tells_expect (.keyword .endKw)).bind fun _ => tells_pure next
  simp only [bind_assoc] at hcompound
  refine hcompound.congr ?_ ?_
  · simp [Slip.lexemes]
  · show _ = .read .plain :: slipEvents (marks ++ _) (body.roles ++ _)
    rw [slipEvents_append hbody.length_eq]
    rfl

/-- The first statement of a sequence. -/
theorem retells_one {first : Clause .statement} {marks : List (Lexeme × Slip)}
    (ih : Retells options marks first) : Retells options marks (.one first) := by
  intro fuel depth front rest more hroom hrest hnext n pending
  exact (ih fuel depth (front ++ rest) pending hroom hrest).bind fun pending' => hnext n pending'

/-- One more round of the loop over a sequence. If the semicolon is left out, the statement
behind it is recognised by its first lexeme. -/
theorem tells_sequence_slip {front : List Lexeme} {events : List Event} {fuel : Nat}
    (hslip : slip = .kept ∨ slip = .dropped ∧ startsStatement (front ++ rest).head? = true)
    (hstatement : ∀ n pending, Tells options depth front rest events
      (statement fuel pending >>= sequence (statement fuel) n)) (n : Nat) (pending : JumpList) :
    Tells options depth (slip.lexemes (.punct .semicolon) ++ front) rest
      (slip.events (.punct .semicolon) .plain ++ events)
      (sequence (statement fuel) n pending) := by
  cases n with
  | zero => exact fun _ _ _ => trivial
  | succ n =>
      rcases hslip with rfl | ⟨rfl, hstart⟩
      · exact Tells.eat (hstatement n pending)
      · -- No statement starts with a semicolon, so it is missed, and the loop goes on.
        show Tells options depth front rest (.miss _ :: events) _
        have hne : (front ++ rest).head? ≠ some (.punct .semicolon) := by
          intro hhead
          rw [hhead] at hstart
          exact nomatch hstart
        refine Tells.eat_of_ne hne (Tells.look ?_)
        rw [hstart]
        exact (tells_expected _).bind fun _ => hstatement n pending

/-- One more statement of a sequence. -/
theorem retells_next {front : Clause .sequence} {last : Clause .statement}
    {marks more : List (Lexeme × Slip)} (ihf : Retells options marks front)
    (ihl : Retells options more last) (hfront : front.Written marks) (hlast : last.Written more)
    (hslip : slip = .kept ∨ slip = .dropped ∧ front.solid = true ∧ last ≠ .empty) :
    Retells options (marks ++ (.punct .semicolon, slip) :: more) (.next front last) := by
  intro fuel depth after rest events hroom hrest hnext n pending
  obtain ⟨hroomf, hrooml⟩ := Nat.max_le.mp hroom
  have hstatement : ∀ n pending, Tells options depth (written more ++ after) rest
      (slipEvents more last.roles ++ events)
      (statement fuel pending >>= sequence (statement fuel) n) :=
    fun n pending => (ihl fuel depth (after ++ rest) pending hrooml hrest).bind fun pending' =>
      hnext n pending'
  -- What stands behind the semicolon is a round of the loop, and the front of the sequence goes
  -- before it.
  have hloop := tells_sequence_slip
    (hslip.imp_right fun hdropped => ⟨hdropped.1, startsStatement_behind hlast hdropped.2.2⟩)
    hstatement
  refine (ihf fuel depth _ rest _ hroomf (continuesAfter_separator hslip hlast) hloop n
    pending).congr ?_ ?_
  · simp
  · rw [Clause.roles, slipEvents_append hfront.length_eq]
    simp

/-- **Every statement is told as it is written**, with a miss at each slip. -/
theorem written_retells {extent : Extent} {c : Clause extent} {marks : List (Lexeme × Slip)}
    (h : c.Written marks) (hshort : AllShort options.maxDigits.toNat c.lexemes) :
    Retells options marks c := by
  induction h with
  | empty => exact retells_empty
  -- The lexemes of each part are among those of the whole, so no number in it is too long.
  | assign slip =>
      exact retells_assign slip
        (hshort.mono fun _ hmem => List.mem_cons_of_mem _ (List.mem_cons_of_mem _ hmem))
  | choice hslip hbody ih =>
      exact retells_choice (ih (hshort.mono fun _ hmem =>
        List.mem_append_right _ (List.mem_cons_of_mem _ hmem))) hbody hslip
  | loop hslip hbody ih =>
      exact retells_loop (ih (hshort.mono fun _ hmem =>
        List.mem_append_right _ (List.mem_cons_of_mem _ hmem))) hbody hslip
  | compound hbody ih =>
      exact retells_compound (ih (hshort.mono fun _ hmem =>
        List.mem_append_left _ (List.mem_cons_of_mem _ hmem))) hbody
  | one hfirst ih => exact retells_one (ih hshort)
  | next hslip hfront hlast ihf ihl =>
      exact retells_next (ihf (hshort.mono fun _ hmem => List.mem_append_left _ hmem))
        (ihl (hshort.mono fun _ hmem => List.mem_append_right _ (List.mem_cons_of_mem _ hmem)))
        hfront hlast hslip

/-! ### The code of statements -/

/-- What the procedures yield at a statement that is written with slips, within the
limit. -/
def Rebuilds (lenient : Prop) (options : Options) (marks : List (Lexeme × Slip)) :
    {extent : Extent} → Clause extent → Prop
  | .statement, c => ∀ (fuel depth : Nat) (rest : List Lexeme),
      c.nesting ≤ options.room depth → ContinuesAfter c rest →
      Yields lenient options depth (written marks) rest (.ofStmt c.tree) (statement fuel .empty)
  | .sequence, c => ∀ (fuel depth : Nat) (front rest : List Lexeme) (more : Effect JumpList),
      c.nesting ≤ options.room depth → ContinuesAfter c (front ++ rest) →
      (∀ n, Yields lenient options depth front rest more (sequence (statement fuel) n .empty)) →
      ∀ n, Yields lenient options depth (written marks ++ front) rest
        ((Effect.ofStmt c.tree).bind fun _ => more)
        (statement fuel .empty >>= sequence (statement fuel) n)

section
variable {lenient : Prop}

/-- A statement within the limit yields what its construct does. -/
theorem rebuilds_of_construct {c : Clause .statement} {marks : List (Lexeme × Slip)}
    (hlevel : c.nesting ≠ 0)
    (h : ∀ (fuel depth : Nat) (rest : List Lexeme),
      c.nesting ≤ options.room depth + 1 → ContinuesAfter c rest →
      Yields lenient options depth (written marks) rest (.ofStmt c.tree)
        (construct (statement fuel) fuel .empty)) : Rebuilds lenient options marks c := by
  intro fuel depth rest hroom hrest
  refine yields_statement_entered (by omega) ?_ fuel
  intro fuel hinside
  exact h fuel (depth + 1) rest (hinside ▸ hroom) hrest

/-- The empty statement has no code. -/
theorem rebuilds_empty : Rebuilds lenient options [] .empty := by
  refine rebuilds_of_construct Nat.one_ne_zero ?_
  intro fuel depth rest _ hrest
  exact yields_construct_empty (hrest.resolve_right (by simp [Clause.solid]))

/-- An assignment has its code, however the `:=` is written. -/
theorem rebuilds_assign {name : String} {value : Phrase .expression} (slip : Slip) :
    Rebuilds lenient options
      ((.ident name, .kept) :: (.punct .becomes, slip) :: keptMarks value.lexemes)
      (.assign name value) := by
  refine rebuilds_of_construct (Nat.succ_ne_zero _) ?_
  intro fuel depth rest hroom hrest
  obtain ⟨hbecomes, hequals⟩ := head?_phrase_ne value rest
  refine Yields.look ?_
  refine (yields_assignment (yields_expectBecomes_slip slip hbecomes (hequals .eq))
    (yields_value value hrest.enters.endsExpression (Nat.le_of_succ_le_succ hroom)
      fuel)).congr ?_ rfl
  simp [Slip.lexemes]

/-- A choice has its code, whether `THEN` is there or not. -/
theorem rebuilds_choice {test : Comparison} {body : Clause .statement}
    {marks : List (Lexeme × Slip)} (ih : Rebuilds lenient options marks body)
    (hbody : body.Written marks) (hslip : slip = .kept ∨ slip = .dropped) :
    Rebuilds lenient options ((.keyword .ifKw, .kept) ::
      (keptMarks test.lexemes ++ (.keyword .thenKw, slip) :: marks)) (.choice test body) := by
  refine rebuilds_of_construct (Nat.succ_ne_zero _) ?_
  intro fuel depth rest hroom hrest
  obtain ⟨htest, hinner⟩ := Nat.max_le.mp (Nat.le_of_succ_le_succ hroom)
  obtain ⟨hclosing, hends⟩ := behind_condition hbody (.inl rfl) hslip hrest
  have hchoice : Yields lenient options depth
      (.keyword .ifKw :: (test.lexemes ++ (slip.lexemes (.keyword .thenKw) ++ written marks))) rest
      (.ofStmt (.choice test.tree body.tree)) (choice (statement fuel) fuel .empty) :=
    yields_choice (yields_test_read test hends htest fuel) (ih fuel depth rest hinner hrest)
      (yields_expect_slip hslip hclosing)
  refine Yields.look ?_
  refine hchoice.congr ?_ rfl
  simp [Slip.lexemes]

/-- A loop has its code, whether `DO` is there or not. -/
theorem rebuilds_loop {test : Comparison} {body : Clause .statement}
    {marks : List (Lexeme × Slip)} (ih : Rebuilds lenient options marks body)
    (hbody : body.Written marks) (hslip : slip = .kept ∨ slip = .dropped) :
    Rebuilds lenient options ((.keyword .whileKw, .kept) ::
      (keptMarks test.lexemes ++ (.keyword .doKw, slip) :: marks)) (.loop test body) := by
  refine rebuilds_of_construct (Nat.succ_ne_zero _) ?_
  intro fuel depth rest hroom hrest
  obtain ⟨htest, hinner⟩ := Nat.max_le.mp (Nat.le_of_succ_le_succ hroom)
  obtain ⟨hclosing, hends⟩ := behind_condition hbody (.inr rfl) hslip hrest
  have hloop : Yields lenient options depth
      (.keyword .whileKw :: (test.lexemes ++ (slip.lexemes (.keyword .doKw) ++ written marks))) rest
      (.ofStmt (.loop test.tree body.tree)) (loop (statement fuel) fuel .empty) :=
    yields_loop (yields_test_read test hends htest fuel) (ih fuel depth rest hinner hrest)
      (yields_expect_slip hslip hclosing)
  refine Yields.look ?_
  refine hloop.congr ?_ rfl
  simp [Slip.lexemes]

/-- The statements between `BEGIN` and `END` have their code. -/
theorem rebuilds_compound {body : Clause .sequence} {marks : List (Lexeme × Slip)}
    (ih : Rebuilds lenient options marks body) :
    Rebuilds lenient options ((.keyword .beginKw, .kept) :: (marks ++ [(.keyword .endKw, .kept)]))
      (.compound body) := by
  refine rebuilds_of_construct (Nat.succ_ne_zero _) ?_
  intro fuel depth rest hroom _
  -- The loop ends at `END`, so nothing is added to the statements.
  have hinner := ih fuel depth [] (.keyword .endKw :: rest) (.pure .empty)
    (Nat.le_of_succ_le_succ hroom) (.inl (.inr (.inr rfl)))
    (fun n => yields_sequence_of_end fuel n) fuel
  refine Yields.look ?_
  refine (yields_compound (hinner.congr (List.append_nil _) (Effect.bind_pure _))).congr ?_ rfl
  simp [Slip.lexemes]

/-- The first statement of a sequence. -/
theorem rebuilds_one {first : Clause .statement} {marks : List (Lexeme × Slip)}
    (ih : Rebuilds lenient options marks first) : Rebuilds lenient options marks (.one first) := by
  intro fuel depth front rest more hroom hrest hnext n
  exact (ih fuel depth (front ++ rest) hroom hrest).bind_value fun _ _ => hnext n

/-- One more round of the loop over a sequence. -/
theorem yields_sequence_slip {front : List Lexeme} {effect : Effect JumpList} {fuel : Nat}
    (hslip : slip = .kept ∨ slip = .dropped ∧ startsStatement (front ++ rest).head? = true)
    (hstatement : ∀ n, Yields lenient options depth front rest effect
      (statement fuel .empty >>= sequence (statement fuel) n)) (n : Nat) :
    Yields lenient options depth (slip.lexemes (.punct .semicolon) ++ front) rest effect
      (sequence (statement fuel) n .empty) := by
  cases n with
  | zero => exact yields_throw_outOfFuel
  | succ n =>
      rcases hslip with rfl | ⟨rfl, hstart⟩
      · exact Yields.eat (hstatement n)
      · -- The report has no effect, and the loop goes on with the statement.
        show Yields lenient options depth front rest effect _
        have hne : (front ++ rest).head? ≠ some (.punct .semicolon) := by
          intro hhead
          rw [hhead] at hstart
          exact nomatch hstart
        refine Yields.eat_of_ne hne (Yields.look ?_)
        rw [hstart]
        exact (yields_expected _).andThen (hstatement n)

/-- One more statement of a sequence. -/
theorem rebuilds_next {front : Clause .sequence} {last : Clause .statement}
    {marks more : List (Lexeme × Slip)} (ihf : Rebuilds lenient options marks front)
    (ihl : Rebuilds lenient options more last) (hlast : last.Written more)
    (hslip : slip = .kept ∨ slip = .dropped ∧ front.solid = true ∧ last ≠ .empty) :
    Rebuilds lenient options (marks ++ (.punct .semicolon, slip) :: more) (.next front last) := by
  intro fuel depth after rest effect hroom hrest hnext n
  obtain ⟨hroomf, hrooml⟩ := Nat.max_le.mp hroom
  have hstatement : ∀ n, Yields lenient options depth (written more ++ after) rest
      ((Effect.ofStmt last.tree).bind fun _ => effect)
      (statement fuel .empty >>= sequence (statement fuel) n) :=
    fun n => (ihl fuel depth (after ++ rest) hrooml hrest).bind_value fun _ _ => hnext n
  have hloop := yields_sequence_slip
    (hslip.imp_right fun hdropped => ⟨hdropped.1, startsStatement_behind hlast hdropped.2.2⟩)
    hstatement
  refine (ihf fuel depth _ rest _ hroomf (continuesAfter_separator hslip hlast) hloop n).congr
    ?_ ?_
  · simp
  · rw [Clause.tree, Effect.ofStmt_seq, Effect.bind_assoc]

/-- **Every statement yields its tree as it is written.** -/
theorem written_rebuilds {extent : Extent} {c : Clause extent} {marks : List (Lexeme × Slip)}
    (h : c.Written marks) : Rebuilds lenient options marks c := by
  induction h with
  | empty => exact rebuilds_empty
  | assign slip => exact rebuilds_assign slip
  | choice hslip hbody ih => exact rebuilds_choice ih hbody hslip
  | loop hslip hbody ih => exact rebuilds_loop ih hbody hslip
  | compound hbody ih => exact rebuilds_compound ih
  | one hfirst ih => exact rebuilds_one ih
  | next hslip hfront hlast ihf ihl => exact rebuilds_next ihf ihl hlast hslip

end

/-! ### Declarations -/

/-- What may stand behind a section: another one, a statement, or the end. -/
def FollowsSection (rest : List Lexeme) : Prop :=
  rest = [] ∨ ∃ lexeme, rest.head? = some lexeme ∧
    (lexeme = .keyword .constKw ∨ lexeme = .keyword .varKw ∨
      startsStatement (some lexeme) = true)

/-- None of the other lexemes does. -/
theorem FollowsSection.head?_ne (h : FollowsSection rest) (hconst : lexeme ≠ .keyword .constKw)
    (hvar : lexeme ≠ .keyword .varKw) (hstart : startsStatement (some lexeme) = false) :
    rest.head? ≠ some lexeme := by
  intro hhead
  rcases h with rfl | ⟨first, hfirst, hcase⟩
  · exact nomatch hhead
  · obtain rfl := Option.some.inj (hfirst.symm.trans hhead)
    rcases hcase with rfl | rfl | hcase
    · exact hconst rfl
    · exact hvar rfl
    · exact absurd (hstart.symm.trans hcase) Bool.false_ne_true

/-- Behind sections stands a section, or what follows them all. -/
theorem followsSection_written {sections : List Section} {marks : List (Lexeme × Slip)}
    (hmarks : MarksOf (sections.flatMap Section.lexemes) marks) (hrest : FollowsSection rest) :
    FollowsSection (written marks ++ rest) := by
  cases sections with
  | nil =>
      obtain rfl := List.map_eq_nil_iff.mp hmarks.map_fst
      exact hrest
  | cons first sections =>
      cases first with
      | consts d more =>
          obtain ⟨marks, rfl, -⟩ := hmarks.of_fixed_cons (by simp [slippable])
          exact .inr ⟨_, rfl, .inl rfl⟩
      | vars name more =>
          obtain ⟨marks, rfl, -⟩ := hmarks.of_fixed_cons (by simp [slippable])
          exact .inr ⟨_, rfl, .inr (.inl rfl)⟩

/-- A declaration has no effect on the code. -/
theorem yields_declaration? {lenient : Prop} (what name : String) (kind : SymbolKind) :
    Yields lenient options depth [.ident name] rest (.pure (some name))
      (declaration? what kind) := by
  refine yields_of_keeps fun s hlex => ?_
  have hread := Reads.advance hlex options.maxDigits.toNat
  rw [declaration?, ends_bind, ends_line, ends_bind, ident?, ends_bind, ends_current?,
    TokenStream.current?_of_lexemes hlex]
  simp only [ends_bind, ends_advance, ends_pure, declare, ends_get]
  split
  · exact ⟨trivial, hread.depth, hread.lexemes, State.code_advance _ _, State.temps_advance _ _⟩
  · exact ⟨trivial, hread.depth, hread.lexemes, State.code_advance _ _, State.temps_advance _ _⟩

/-- What `item` does at the items of a kind, however they are written. -/
structure ReadsItems {α : Type} (lenient : Prop) (options : Options) (depth : Nat)
    (lexemes : α → List Lexeme) (roles : List Role) (code : α → List Instruction)
    (item : Generate Unit) : Prop where
  length_eq : ∀ x, (lexemes x).length = roles.length
  tells : ∀ (x : α) {marks : List (Lexeme × Slip)} {rest : List Lexeme},
    MarksOf (lexemes x) marks → AllShort options.maxDigits.toNat (lexemes x) →
    Short options.maxDigits.toNat rest →
    Tells options depth (written marks) rest (slipEvents marks roles) item
  yields : ∀ (x : α) {marks : List (Lexeme × Slip)} {rest : List Lexeme},
    MarksOf (lexemes x) marks →
    Yields lenient options depth (written marks) rest (.block (code x)) item

/-- The definition of a constant, in which only the `:=` can slip. -/
theorem readsItems_definition {lenient : Prop} :
    ReadsItems lenient options depth Definition.lexemes Definition.roles
      (fun d => [d.instruction]) definition := by
  refine ⟨fun _ => rfl, ?_, ?_⟩
  · intro d marks rest hmarks hshort _
    obtain ⟨slip, rfl⟩ := d.exists_slip hmarks
    have hnumber : Tells options depth [.number d.digits] rest [.read .plain] number? :=
      Tells.look ((tells_advance _).bind fun _ => tells_pure _)
    -- A number becomes current only behind the `:=`, and it is not too long.
    have hname : Short options.maxDigits.toNat
        (slip.lexemes (.punct .becomes) ++ [.number d.digits] ++ rest) :=
      short_becomes slip (hshort.mono (List.subset_cons_of_subset _ (List.subset_cons_self _ _)))
        (by simp) rest
    refine (tells_declaration? "constant name" d.name .const hname).bind fun name? =>
      (tells_expectBecomes_slip slip (by simp) (by simp)).bind fun _ =>
        hnumber.quiet fun value? => ?_
    split
    · exact (tells_emit _).bind fun _ => tells_pure _
    · exact tells_pure _
  · intro d marks rest hmarks
    obtain ⟨slip, rfl⟩ := d.exists_slip hmarks
    have hnumber : Yields lenient options depth [.number d.digits] rest
        (.pure (some (Lexeme.literalText d.digits))) number? :=
      Yields.look ((yields_advance _).andThen (yields_pure _))
    exact (yields_declaration? "constant name" d.name .const).andThen
      ((yields_expectBecomes_slip slip (by simp [Slip.lexemes]) (by simp [Slip.lexemes])).andThen
        (hnumber.andThen ((yields_emit d.instruction).bind_nil fun _ => yields_pure ())))

/-- A variable is a name, which can not slip. -/
theorem readsItems_variableName {lenient : Prop} :
    ReadsItems lenient options depth (fun name => [.ident name]) [.declares .var]
      (fun _ => []) variableName := by
  refine ⟨fun _ => rfl, ?_, ?_⟩
  · intro name marks rest hmarks _ hrest
    obtain rfl := hmarks.eq_keptMarks (by simp [slippable])
    exact (tells_declaration? "variable name" name .var hrest).bind fun _ => tells_pure ()
  · intro name marks rest hmarks
    obtain rfl := hmarks.eq_keptMarks (by simp [slippable])
    exact (yields_declaration? "variable name" name .var).andThen (yields_pure ())

section
variable {α : Type} {lenient : Prop} {lexemes : α → List Lexeme} {roles : List Role}
  {code : α → List Instruction} {item : Generate Unit}

/-- Items with commas between them. The induction is on the items behind the first. -/
theorem items_slip (hitem : ReadsItems lenient options depth lexemes roles code item)
    (hstop : rest.head? ≠ some (.punct .comma)) (hrest : Short options.maxDigits.toNat rest)
    (more : List α) (first : α) {marks : List (Lexeme × Slip)}
    (hmarks : MarksOf (lexemes first ++ Section.restLexemes lexemes more) marks)
    (hshort : AllShort options.maxDigits.toNat
      (lexemes first ++ Section.restLexemes lexemes more)) (fuel : Nat) :
    Tells options depth (written marks) rest
        (slipEvents marks (Section.itemRoles roles more)) (items item fuel) ∧
      Yields lenient options depth (written marks) rest (.block ((first :: more).flatMap code))
        (items item fuel) := by
  induction more generalizing first fuel marks with
  | nil =>
      rw [show Section.restLexemes lexemes [] = [] from rfl, List.append_nil] at hmarks hshort
      rw [show Section.itemRoles roles ([] : List α) = roles from List.append_nil _]
      cases fuel with
      | zero => exact ⟨fun _ _ _ => trivial, yields_throw_outOfFuel⟩
      | succ fuel =>
          constructor
          · exact (hitem.tells first hmarks hshort hrest).quiet fun _ =>
              Tells.eat_of_ne hstop (tells_pure ())
          · refine ((hitem.yields first hmarks).bind_nil fun _ =>
              Yields.eat_of_ne hstop (yields_pure ())).congr rfl ?_
            rw [Effect.bind_pure, List.flatMap_singleton]
  | cons second more ih =>
      -- A comma can not slip, so the marks are divided there.
      obtain ⟨front, behind, rfl, hfront, hbehind⟩ := hmarks.of_append
      have hcomma : MarksOf (.punct .comma :: (lexemes second ++ Section.restLexemes lexemes more))
          behind := hbehind
      obtain ⟨later, rfl, hlater⟩ := hcomma.of_fixed_cons (by simp [slippable])
      have hfirst := hshort.mono fun _ hmem => List.mem_append_left _ hmem
      have hmore := hshort.mono fun _ hmem =>
        List.mem_append_right _ (List.mem_cons_of_mem _ hmem)
      cases fuel with
      | zero => exact ⟨fun _ _ _ => trivial, yields_throw_outOfFuel⟩
      | succ fuel =>
          obtain ⟨htells, hyields⟩ := ih second hlater hmore fuel
          constructor
          · refine ((hitem.tells first hfront hfirst (by simp [Short])).bind fun _ =>
              Tells.eat htells).congr ?_ ?_
            · simp [Slip.lexemes]
            · show _ = slipEvents (front ++ _) (roles ++ .plain :: Section.itemRoles roles more)
              rw [slipEvents_append (hfront.length_eq.trans (hitem.length_eq first))]
              rfl
          · refine ((hitem.yields first hfront).bind fun _ => Yields.eat hyields).congr ?_ ?_
            · simp [Slip.lexemes]
            · exact (Effect.block_append _ _).symm

/-- A section of one kind of items. -/
theorem declarationSection_slip
    (hitem : ReadsItems lenient options depth lexemes roles code item) {opening : Lexeme}
    (hopening : opening ∉ slippable) {first : α} {more : List α}
    {marks : List (Lexeme × Slip)}
    (hmarks : MarksOf (opening :: (lexemes first ++ Section.restLexemes lexemes more) ++
      [.punct .semicolon]) marks)
    (hshort : AllShort options.maxDigits.toNat (opening :: (lexemes first ++
      Section.restLexemes lexemes more) ++ [.punct .semicolon]))
    (hrest : FollowsSection rest) (fuel : Nat) :
    Tells options depth (written marks) rest
        (slipEvents marks (.plain :: Section.itemRoles roles more ++ [.plain]))
        (declarationSection item fuel) ∧
      Yields lenient options depth (written marks) rest (.block ((first :: more).flatMap code))
        (declarationSection item fuel) := by
  obtain ⟨behind, rfl, hbehind⟩ := hmarks.of_fixed_cons hopening
  obtain ⟨inside, last, rfl, hinside, hlast⟩ := hbehind.of_append
  obtain ⟨slip, last, rfl, hsemicolon, hnil⟩ := hlast.of_cons
  obtain rfl := List.map_eq_nil_iff.mp hnil.map_fst
  have hslip := hsemicolon.kept_or_dropped (by simp)
  have hne : rest.head? ≠ some (.punct .semicolon) := hrest.head?_ne (by simp) (by simp) rfl
  -- Whether the semicolon is there or not, no comma follows and no long number does.
  have hstop : (slip.lexemes (.punct .semicolon) ++ rest).head? ≠ some (.punct .comma) := by
    rcases hslip with rfl | rfl
    · simp [Slip.lexemes]
    · exact hrest.head?_ne (by simp) (by simp) rfl
  have hnext : Short options.maxDigits.toNat (slip.lexemes (.punct .semicolon) ++ rest) := by
    rcases hslip with rfl | rfl
    · simp [Short, Slip.lexemes]
    · exact fun digits hhead => absurd hhead (hrest.head?_ne (by simp) (by simp) rfl)
  have hlen : inside.length = (Section.itemRoles roles more).length := by
    rw [hinside.length_eq]
    simp [Section.restLexemes, Section.itemRoles, List.length_flatMap, hitem.length_eq]
  obtain ⟨htells, hyields⟩ := items_slip hitem hstop hnext more first hinside
    (hshort.mono fun _ hmem => List.mem_append_left _ (List.mem_cons_of_mem _ hmem)) fuel
  constructor
  · refine ((tells_advance opening).bind fun _ => htells.bind fun _ =>
      tells_expect_slip hslip hne).congr ?_ ?_
    · simp [Slip.lexemes]
    · show _ = .read .plain :: slipEvents (inside ++ _) (Section.itemRoles roles more ++ _)
      rw [slipEvents_append hlen, slipEvents_singleton]
      rfl
  · refine ((yields_advance opening).andThen (hyields.handOn fun _ =>
      yields_expect_slip hslip hne)).congr ?_ rfl
    simp [Slip.lexemes]

end

/-- The declarations of a program. The induction is on the sections. -/
theorem declarations_slip {lenient : Prop} (sections : List Section)
    {marks : List (Lexeme × Slip)} (hmarks : MarksOf (sections.flatMap Section.lexemes) marks)
    (hshort : AllShort options.maxDigits.toNat (sections.flatMap Section.lexemes))
    (hrest : FollowsSection rest) (hconst : rest.head? ≠ some (.keyword .constKw))
    (hvar : rest.head? ≠ some (.keyword .varKw)) (fuel : Nat) :
    Tells options depth (written marks) rest
        (slipEvents marks (sections.flatMap Section.roles)) (declarations fuel) ∧
      Yields lenient options depth (written marks) rest
        (.block ((sections.flatMap Section.constants).map Definition.instruction))
        (declarations fuel) := by
  induction sections generalizing fuel marks with
  | nil =>
      obtain rfl := List.map_eq_nil_iff.mp hmarks.map_fst
      cases fuel with
      | zero => exact ⟨fun _ _ _ => trivial, yields_throw_outOfFuel⟩
      | succ fuel =>
          refine ⟨Tells.look ?_, Yields.look ?_⟩
          · rw [written_nil, List.nil_append]
            split
            · next hcur => exact absurd hcur hconst
            · next hcur => exact absurd hcur hvar
            · exact tells_pure ()
          · rw [written_nil, List.nil_append]
            split
            · next hcur => exact absurd hcur hconst
            · next hcur => exact absurd hcur hvar
            · exact yields_pure ()
  | cons first sections ih =>
      obtain ⟨front, later, rfl, hfront, hlater⟩ := hmarks.of_append
      have hfollows := followsSection_written hlater hrest
      have hfirst := hshort.mono fun _ hmem => List.mem_append_left _ hmem
      have hmore := hshort.mono fun _ hmem => List.mem_append_right _ hmem
      cases fuel with
      | zero => exact ⟨fun _ _ _ => trivial, yields_throw_outOfFuel⟩
      | succ fuel =>
          obtain ⟨htells, hyields⟩ := ih hlater hmore fuel
          have hlen : front.length = first.roles.length := by
            rw [hfront.length_eq, first.length_roles]
          rw [written_append, List.flatMap_cons, slipEvents_append hlen, List.flatMap_cons,
            List.map_append, Effect.block_append]
          cases first with
          | consts d more =>
              obtain ⟨hsection, hcode⟩ : _ ∧ Yields lenient options depth _ _ _ _ :=
                declarationSection_slip readsItems_definition (by simp [slippable]) hfront hfirst
                  hfollows fuel
              rw [← List.map_eq_flatMap] at hcode
              obtain ⟨inside, rfl, -⟩ := hfront.of_fixed_cons (by simp [slippable])
              exact ⟨Tells.look (hsection.bind fun _ => htells),
                Yields.look (hcode.bind fun _ => hyields)⟩
          | vars name more =>
              obtain ⟨hsection, hcode⟩ : _ ∧ Yields lenient options depth _ _ _ _ :=
                declarationSection_slip readsItems_variableName (by simp [slippable]) hfront hfirst
                  hfollows fuel
              -- Variables emit nothing, whatever their number.
              have hnone : (name :: more).flatMap (fun _ => ([] : List Instruction)) = [] := by
                simp
              rw [hnone] at hcode
              obtain ⟨inside, rfl, -⟩ := hfront.of_fixed_cons (by simp [slippable])
              exact ⟨Tells.look (hsection.bind fun _ => htells),
                Yields.look (hcode.bind fun _ => hyields)⟩

/-! ### Programs -/

/-- What stands behind the sections of a program is its statement, if there is one. -/
theorem followsSection_body {c : Clause .statement} {marks : List (Lexeme × Slip)}
    (h : c.Written marks) : FollowsSection (written marks ++ []) := by
  by_cases hempty : c = .empty
  · subst hempty
    cases h
    exact .inl rfl
  · have hstart := startsStatement_written h hempty []
    cases hhead : (written marks ++ []).head? with
    | none =>
        rw [hhead] at hstart
        exact nomatch hstart
    | some lexeme =>
        rw [hhead] at hstart
        exact .inr ⟨lexeme, hhead, .inr (.inr hstart)⟩

/-- No section stands behind the sections of a program. -/
theorem head?_body_ne {c : Clause .statement} {marks : List (Lexeme × Slip)}
    (h : c.Written marks) {word : Keyword} (hword : word = .constKw ∨ word = .varKw) :
    (written marks ++ []).head? ≠ some (.keyword word) := by
  have hends : ContinuesAfter c [] := .inl (.inl rfl)
  have henters := enters_written h hends
  rcases hword with rfl | rfl
  · exact henters.head?_ne (by simp) (by simp) rfl
  · exact henters.head?_ne (by simp) (by simp) rfl

/-- A program is read up to its end. -/
theorem program_slip {lenient : Prop} (p : Program) {marks : List (Lexeme × Slip)}
    (h : p.Written marks) (hroom : p.nesting ≤ options.maxDepth.toNat)
    (hshort : AllShort options.maxDigits.toNat p.lexemes) (fuel : Nat) :
    Tells options 0 (written marks) [] (slipEvents marks p.roles) (do
        expect (.keyword .programKw)
        let name? ← ident? "program name"
        declarations fuel
        let next ← statement fuel .empty
        expectEnd
        let _ ← backpatchHere next
        checkResolved
        return name?) ∧
      Yields lenient options 0 (written marks) []
        ((Effect.block (p.constants.map Definition.instruction)).bind fun _ =>
          (Effect.ofStmt p.body.tree).bind fun _ => .pure (some p.name)) (do
        expect (.keyword .programKw)
        let name? ← ident? "program name"
        declarations fuel
        let next ← statement fuel .empty
        expectEnd
        let _ ← backpatchHere next
        return name?) := by
  obtain @⟨before, behind, hsections, hbody⟩ := h
  have hlevel : p.body.nesting ≤ options.room 0 := hroom
  have hends : ContinuesAfter p.body [] := .inl (.inl rfl)
  obtain ⟨htells, hyields⟩ : _ ∧ Yields lenient options 0 _ _ _ _ :=
    declarations_slip p.sections hsections
      (hshort.mono fun _ hmem => List.mem_append_left _
        (List.mem_cons_of_mem _ (List.mem_cons_of_mem _ hmem)))
      (followsSection_body hbody) (head?_body_ne hbody (.inl rfl)) (head?_body_ne hbody (.inr rfl))
      fuel
  constructor
  · have hstatement := written_retells hbody
      (hshort.mono fun _ hmem => List.mem_append_right _ hmem) fuel 0 [] .empty hlevel hends
    have hlen : before.length = (p.sections.flatMap Section.roles).length := by
      rw [hsections.length_eq, List.length_flatMap, List.length_flatMap]
      simp only [Section.length_roles]
    refine ((tells_expect (.keyword .programKw)).bind fun _ =>
      (tells_ident? p.name "program name").bind fun name? => htells.bind fun _ =>
        hstatement.quiet fun next => tells_expectEnd.bind fun _ =>
          (tells_backpatchHere next).bind fun _ => tells_checkResolved.bind fun _ =>
            tells_pure name?).congr ?_ ?_
    · simp [Slip.lexemes]
    · show _ = .read .plain :: .read .plain :: slipEvents (before ++ behind)
        (p.sections.flatMap Section.roles ++ p.body.roles)
      rw [slipEvents_append hlen]
      simp
  · have hstatement : Yields lenient options 0 _ [] _ (statement fuel .empty) :=
      written_rebuilds hbody fuel 0 [] hlevel hends
    have hresolve : Yields lenient options 0 [] [] (.pure (some p.name)) (do
        let _ ← backpatchHere .empty
        return some p.name) := yields_backpatchHere_empty fun _ => yields_pure (some p.name)
    have hend : Yields lenient options 0 [] [] (.pure (some p.name)) (do
        expectEnd
        let _ ← backpatchHere .empty
        return some p.name) :=
      (yields_expectEnd.bind fun _ => hresolve).congr rfl (Effect.pure_bind () _)
    have hbehind : Yields lenient options 0 (written behind) []
        ((Effect.ofStmt p.body.tree).bind fun _ => .pure (some p.name)) (do
          let next ← statement fuel .empty
          expectEnd
          let _ ← backpatchHere next
          return some p.name) :=
      (hstatement.bind_value fun _ _ => hend).congr (List.append_nil _) rfl
    refine ((yields_expect (.keyword .programKw)).andThen
      ((yields_ident? p.name "program name").andThen (hyields.bind fun _ => hbehind))).congr ?_ rfl
    simp [Slip.lexemes]

/-- The first lexeme of a program is a keyword, so its check says nothing. -/
theorem checkNumber_start {p : Program} {input : TokenStream} {marks : List (Lexeme × Slip)}
    (h : p.Written marks) (hlex : input.lexemes = written marks) (maxDigits : Nat) :
    (State.start options input).checkNumber maxDigits = .start options input := by
  have hrest : NoNumber input.lexemes := by
    rw [hlex]
    cases h
    simp [NoNumber, Slip.lexemes]
  exact State.checkNumber_of_short (hrest.short _)

section
variable {p : Program} {input : TokenStream} {marks : List (Lexeme × Slip)}
  (h : p.Written marks) (hlex : input.lexemes = written marks)
  (hroom : p.nesting ≤ options.maxDepth.toNat)
  (hshort : AllShort options.maxDigits.toNat p.lexemes)
include h hlex hroom hshort

/-- A run on a program that is written with slips follows its story. -/
theorem program_tells_slips (fuel : Nat) :
    Ends (fun _ => True) (program fuel) options (.start options input) fun _ s' =>
      s'.journal = (Journal.start input).tell options (slipEvents marks p.roles) := by
  obtain ⟨htells, -⟩ : _ ∧ Yields True options 0 _ _ _ _ := program_slip p h hroom hshort fuel
  rw [program, ends_bind, ends_checkNumber, checkNumber_start h hlex]
  refine (htells (.start options input) rfl ?_).mono ?_
  · rw [List.append_nil]
    exact hlex
  · intro name? s' htold
    exact htold.journal

/-- It does not run out of addresses if the plain translation of the program fits, and it
emits just that. -/
theorem program_ends_slips (fuel : Nat) (hfits : options.firstAddress.toNat +
      (p.code options.firstAddress.toNat options.firstTemp.toNat).length ≤ maxWord) :
    Ends (fun fault => ∀ first, fault ≠ .addressOverflow first) (program fuel) options
      (.start options input) fun name? s' =>
        name? = some p.name ∧ s'.code = (emptyStore options).append
          (p.code options.firstAddress.toNat options.firstTemp.toNat) := by
  obtain ⟨-, hyields⟩ : _ ∧ Yields False options 0 _ _ _ _ := program_slip p h hroom hshort fuel
  -- The last check comes behind what is known to yield the code.
  have hsplit : program fuel = (do
      checkNumber
      let name? ← (do
        expect (.keyword .programKw)
        let name? ← ident? "program name"
        declarations fuel
        let next ← statement fuel .empty
        expectEnd
        let _ ← backpatchHere next
        return name?)
      checkResolved
      return name?) := by
    simp only [program, bind_assoc, pure_bind]
  have hcode : ((Effect.block (p.constants.map Definition.instruction)).bind fun _ =>
      (Effect.ofStmt p.body.tree).bind fun _ => Effect.pure (some p.name)).code
        options.firstAddress.toNat options.firstTemp.toNat
      = p.code options.firstAddress.toNat options.firstTemp.toNat := by
    simp [Effect.bind, Effect.block, Effect.ofStmt, Effect.pure, Program.code]
  have hrun : Ends (Excused False) _ options (.start options input) _ :=
    hyields (.start options input) rfl (by rw [List.append_nil]; exact hlex)
      (.inr (by rw [← hcode] at hfits; exact hfits))
  rw [hsplit, ends_bind, ends_checkNumber, checkNumber_start h hlex, ends_bind]
  refine (hrun.weaken ?_).mono ?_
  · rintro fault (rfl | hfalse) first
    · simp
    · exact hfalse.elim
  · intro name? s' hyielded
    rw [ends_bind, checkResolved, ends_bind, ends_get]
    split
    · refine ⟨hyielded.value, ?_⟩
      rw [hyielded.code, ← hcode]
      rfl
    · exact fun first => by simp

end

end

end Generate

/-- A program that is written with slips compiles to its plain translation, if this fits. Its
names and its diagnostics are those of its story. -/
theorem compile_of_written {options : Options} {source : String} {p : Program}
    {marks : List (Lexeme × Slip)} (h : p.Written marks)
    (hlex : (scan source).lexemes = written marks) (hroom : p.nesting ≤ options.maxDepth.toNat)
    (hshort : AllShort options.maxDigits.toNat p.lexemes)
    (hfits : options.firstAddress.toNat +
      (p.code options.firstAddress.toNat options.firstTemp.toNat).length ≤ maxWord) :
    ∃ compilation, compile options source = .ok compilation ∧
      compilation.program = some p.name ∧
      compilation.code = (Generate.emptyStore options).append
        (p.code options.firstAddress.toNat options.firstTemp.toNat) ∧
      ∃ input depthReported,
        (Journal.start (scan source)).tell options (slipEvents marks p.roles)
          = ⟨input, compilation.symbols, compilation.diagnostics.toList, depthReported⟩ := by
  have htells := Generate.program_tells_slips h hlex hroom hshort (scan source).budget
  have hends := Generate.program_ends_slips h hlex hroom hshort (scan source).budget hfits
  have hcases := compileTokens_cases options (scan source)
  unfold compile
  unfold compileTokens at hcases ⊢
  cases hrun : Generate.program (scan source).budget options (.start options (scan source)) with
  | ok name? s =>
      obtain ⟨hname, hcode⟩ := hends.ok hrun
      exact ⟨_, rfl, hname, hcode, s.input, s.depthReported, (htells.ok hrun).symm⟩
  | error fault s =>
      -- The addresses are the only thing that can run out, and here they do not.
      unfold Generate.Ends at hends
      rw [hrun] at hcases hends
      rcases hcases with ⟨compilation, tree, hok, -⟩ | ⟨hfault, -⟩
      · exact nomatch hok
      · exact absurd (Except.error.inj hfault) (hends _)

/-- **Slips are recovered from.** If a source compiles without problems and is written with
slips that are allowed, then what is written compiles to the same name, the same names in the
program and the same code. Each slip is reported where it happened, and nothing else is
said. -/
theorem compile_recovers {options : Options} {source altered : String}
    {compilation : Compilation} {marked : List (Token × Slip)}
    (hok : compile options source = .ok compilation) (hclean : compilation.isClean = true)
    (htokens : marked.map Prod.fst = (scan source).tokens)
    (hallowed : SlipsAllowed [] [] (lexemeMarks marked))
    (haltered : (scan altered).tokens = slipped marked) :
    ∃ recovered, compile options altered = .ok recovered ∧
      recovered.program = compilation.program ∧
      recovered.symbols = compilation.symbols ∧
      recovered.code = compilation.code ∧
      recovered.diagnostics.toList = slipDiagnostics (scan altered).endLine marked := by
  have hquiet : compilation.diagnostics = #[] := Array.isEmpty_iff.mp hclean
  obtain ⟨p, hlex, hroom⟩ := mem_language_of_compile hok (by simp [hquiet])
  obtain ⟨hname, hcode⟩ := code_of_compile hok hlex hroom
  -- The first compilation says that nothing is wrong with the tokens.
  have hlen := p.length_tokens hlex
  obtain ⟨hsaid, hsymbols⟩ := static_of_compile hok hlex hroom
  have hstatic : staticDiagnostics options.maxDigits.toNat
      (declared ((scan source).tokens.zip p.roles)) [] ((scan source).tokens.zip p.roles) = [] := by
    rw [← hsaid, hquiet]
  have hshort := allShort_of_compile hok hquiet hlex hroom
  -- What is written is the program with slips, so it is told and translated as such.
  have hmarks : (lexemeMarks marked).map Prod.fst = p.lexemes := by
    rw [hlex, TokenStream.lexemes, ← htokens, lexemeMarks, List.map_map, List.map_map]
    rfl
  have hwritten := p.written_of_allowed hmarks hallowed
  have hlex' : (scan altered).lexemes = written (lexemeMarks marked) := by
    rw [TokenStream.lexemes, haltered, map_lexeme_slipped]
  have hfits : options.firstAddress.toNat +
      (p.code options.firstAddress.toNat options.firstTemp.toNat).length ≤ maxWord := by
    have hsize := fits_of_compile hok
    rw [hcode] at hsize
    simpa [Store.append, Store.nextAddress, Generate.emptyStore] using hsize
  obtain ⟨recovered, hrecovered, hname', hcode', input', depthReported', hjournal'⟩ :=
    compile_of_written hwritten hlex' hroom hshort hfits
  have hstands := Journal.stands_tell_slipped haltered (by rw [← hlen, ← htokens, List.length_map])
    p.pairwise_roles (htokens ▸ hstatic) fun mark hmem =>
      hallowed.suits _ (List.mem_map_of_mem hmem)
  rw [hjournal', htokens] at hstands
  refine ⟨recovered, hrecovered, hname'.trans hname.symm, ?_, hcode'.trans hcode.symm, ?_⟩
  · exact hstands.symbols.trans hsymbols.symm
  · have hslips := hstands.diagnostics
    simpa using hslips

/-- Every kind of slip in one program. -/
theorem compile_recovers_all_slips :
    ∃ compilation recovered,
      compile {} "PROGRAM p VAR x; BEGIN x := 1;\nIF x < 2 THEN x := 3;\nWHILE x > 4 DO x := 5 END"
        = .ok compilation ∧
      compile {} "PROGRAM p VAR x BEGIN x = 1\nIF x < 2 x 3\nWHILE x > 4 x := 5 END"
        = .ok recovered ∧
      recovered.program = compilation.program ∧
      recovered.symbols = compilation.symbols ∧
      recovered.code = compilation.code ∧
      recovered.diagnostics.toList =
        [⟨1, .expected "';'" "'BEGIN'"⟩, ⟨1, .expected "':='" "'='"⟩,
          ⟨2, .expected "';'" "'IF'"⟩, ⟨2, .expected "'THEN'" "identifier 'x'"⟩,
          ⟨2, .expected "':='" "number 3"⟩, ⟨3, .expected "';'" "'WHILE'"⟩,
          ⟨3, .expected "'DO'" "identifier 'x'"⟩] := by
  have hclean : (compile {}
      "PROGRAM p VAR x; BEGIN x := 1;\nIF x < 2 THEN x := 3;\nWHILE x > 4 DO x := 5 END").map
        (·.isClean) = .ok true := by decide +kernel
  obtain ⟨compilation, hok⟩ : ∃ compilation, compile {}
      "PROGRAM p VAR x; BEGIN x := 1;\nIF x < 2 THEN x := 3;\nWHILE x > 4 DO x := 5 END"
        = .ok compilation :=
    exists_compilation (by decide +kernel)
  rw [hok] at hclean
  obtain ⟨marked, htokens, hallowed, haltered, hslips⟩ : ∃ marked : List (Token × Slip),
      marked.map Prod.fst = (scan
        "PROGRAM p VAR x; BEGIN x := 1;\nIF x < 2 THEN x := 3;\nWHILE x > 4 DO x := 5 END").tokens ∧
      SlipsAllowed [] [] (lexemeMarks marked) ∧
      scan "PROGRAM p VAR x BEGIN x = 1\nIF x < 2 x 3\nWHILE x > 4 x := 5 END"
        = ⟨slipped marked, 3⟩ ∧
      slipDiagnostics 3 marked =
        [⟨1, .expected "';'" "'BEGIN'"⟩, ⟨1, .expected "':='" "'='"⟩,
          ⟨2, .expected "';'" "'IF'"⟩, ⟨2, .expected "'THEN'" "identifier 'x'"⟩,
          ⟨2, .expected "':='" "number 3"⟩, ⟨3, .expected "';'" "'WHILE'"⟩,
          ⟨3, .expected "'DO'" "identifier 'x'"⟩] :=
    ⟨[(⟨.keyword .programKw, 1⟩, .kept), (⟨.ident "p", 1⟩, .kept), (⟨.keyword .varKw, 1⟩, .kept),
      (⟨.ident "x", 1⟩, .kept), (⟨.punct .semicolon, 1⟩, .dropped),
      (⟨.keyword .beginKw, 1⟩, .kept), (⟨.ident "x", 1⟩, .kept),
      (⟨.punct .becomes, 1⟩, .equals 1), (⟨.number "1", 1⟩, .kept),
      (⟨.punct .semicolon, 1⟩, .dropped), (⟨.keyword .ifKw, 2⟩, .kept),
      (⟨.ident "x", 2⟩, .kept), (⟨.relation .lt, 2⟩, .kept), (⟨.number "2", 2⟩, .kept),
      (⟨.keyword .thenKw, 2⟩, .dropped), (⟨.ident "x", 2⟩, .kept),
      (⟨.punct .becomes, 2⟩, .dropped), (⟨.number "3", 2⟩, .kept),
      (⟨.punct .semicolon, 2⟩, .dropped), (⟨.keyword .whileKw, 3⟩, .kept),
      (⟨.ident "x", 3⟩, .kept), (⟨.relation .gt, 3⟩, .kept), (⟨.number "4", 3⟩, .kept),
      (⟨.keyword .doKw, 3⟩, .dropped), (⟨.ident "x", 3⟩, .kept), (⟨.punct .becomes, 3⟩, .kept),
      (⟨.number "5", 3⟩, .kept), (⟨.keyword .endKw, 3⟩, .kept)],
      by decide +kernel⟩
  obtain ⟨recovered, hrecovered, hname, hsymbols, hcode, hsaid⟩ :=
    compile_recovers hok (Except.ok.inj hclean) htokens hallowed
      (congrArg TokenStream.tokens haltered)
  rw [haltered, hslips] at hsaid
  exact ⟨compilation, recovered, hok, hrecovered, hname, hsymbols, hcode, hsaid⟩

end ThreeAddress
