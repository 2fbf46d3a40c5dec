import ThreeAddress.Proofs.Diagnosis

/-!
# What a procedure makes of what it reads

`Generate.Tells` says what a procedure reads and reports. This module has the other
half, `Generate.Yields`: what it reads and emits. The code is described by an
`Effect`: the instructions that are appended, the temporaries that are taken and the
value that is answered, all of them depending on nothing but the next address and the
next temporary. Effects can be sequenced, and `Yields.bind` says that a sequence of
procedures has the sequence of their effects.

Jumps are filled in after they are emitted, so the effect of a choice or a loop is not
a sequence of effects. `yields_choice` and `yields_loop` give it as a whole, from the
effects of the condition and of the body. What stands between these two is a
parameter: the keyword may be there or not.

A run may also run out of addresses. If `lenient` holds then nothing is said about such
runs. If not, `Yields` is about the runs whose code fits, and they do not fail.
-/

set_option autoImplicit false

namespace ThreeAddress

/-! ### Effects -/

/-- What a procedure does to the code, as functions of the next address and the next
temporary. -/
structure Effect (α : Type) where
  /-- The instructions that are appended. -/
  code : Nat → Nat → List Instruction
  /-- The number of temporaries that are taken. -/
  temps : Nat → Nat → Nat
  /-- What is answered. -/
  value : Nat → Nat → α

namespace Effect
variable {α β γ : Type}

/-- Effects are equal if they do the same from everywhere. -/
theorem eq_of_forall {x y : Effect α} (hcode : ∀ base next, x.code base next = y.code base next)
    (htemps : ∀ base next, x.temps base next = y.temps base next)
    (hvalue : ∀ base next, x.value base next = y.value base next) : x = y := by
  obtain ⟨code, temps, value⟩ := x
  obtain rfl : code = y.code := funext fun base => funext fun next => hcode base next
  obtain rfl : temps = y.temps := funext fun base => funext fun next => htemps base next
  obtain rfl : value = y.value := funext fun base => funext fun next => hvalue base next
  rfl

/-- Nothing is done, and `a` is answered. -/
protected def pure (a : α) : Effect α := ⟨fun _ _ => [], fun _ _ => 0, fun _ _ => a⟩

/-- One effect after another. -/
protected def bind (x : Effect α) (f : α → Effect β) : Effect β where
  code base next := x.code base next ++
    (f (x.value base next)).code (base + (x.code base next).length) (next + x.temps base next)
  temps base next := x.temps base next +
    (f (x.value base next)).temps (base + (x.code base next).length) (next + x.temps base next)
  value base next :=
    (f (x.value base next)).value (base + (x.code base next).length) (next + x.temps base next)

/-- An effect behind nothing is the effect itself. -/
theorem pure_bind (a : α) (f : α → Effect β) : (Effect.pure a).bind f = f a :=
  eq_of_forall (fun _ _ => rfl) (fun _ _ => Nat.zero_add _) fun _ _ => rfl

/-- Nothing behind an effect adds nothing to it. -/
theorem bind_pure (x : Effect α) : x.bind Effect.pure = x :=
  eq_of_forall (fun _ _ => List.append_nil _) (fun _ _ => rfl) fun _ _ => rfl

/-- Three effects in a row can be grouped either way. The instructions of the third start behind
those of both others. -/
theorem bind_assoc (x : Effect α) (f : α → Effect β) (g : β → Effect γ) :
    (x.bind f).bind g = x.bind fun a => (f a).bind g := by
  refine eq_of_forall ?_ ?_ ?_
  · intro base next
    simp only [Effect.bind, List.append_assoc, List.length_append, Nat.add_assoc]
  · intro base next
    simp only [Effect.bind, List.length_append, Nat.add_assoc]
  · intro base next
    simp only [Effect.bind, List.length_append, Nat.add_assoc]

/-- The effect of a construct that is a level of its own, a number of levels being
left. Without any it is skipped, and `instead` is answered. -/
def level (instead : α) (inside : Nat → Effect α) : Nat → Effect α
  | 0 => .pure instead
  | room + 1 => inside room

/-- One instruction, whose address is answered. -/
def instruction (i : Instruction) : Effect Nat := ⟨fun _ _ => [i], fun _ _ => 0, fun base _ => base⟩

/-- Some instructions. -/
def block (code : List Instruction) : Effect Unit := ⟨fun _ _ => code, fun _ _ => 0, fun _ _ => ()⟩

/-- The assignment of a value to a new temporary, whose name is answered. -/
def temporary (value : Rvalue) : Effect String where
  code _ next := [.assign (Temporaries.name next) value]
  temps _ _ := 1
  value _ next := Temporaries.name next

/-- The effect of an expression. -/
def ofExpr (e : Expr) : Effect String where
  code _ next := e.code next
  temps _ _ := e.temps
  value _ next := e.operand next

/-- The effect of a condition. Its two jumps are pending. -/
def ofCondition (c : Condition) : Effect Generate.Exits where
  code _ next := c.operandCode next ++ [c.branch next none, .jump none]
  temps _ _ := c.temps
  value base _ := ⟨.single (base + c.temps), .single (base + c.temps + 1)⟩

/-- The effect of a statement. No jump is left over. -/
def ofStmt (t : Stmt) : Effect JumpList where
  code base next := t.code base next
  temps _ _ := t.temps
  value _ _ := .empty

/-- A condition has two instructions behind those of its sides. -/
@[simp] theorem length_ofCondition (c : Condition) (base next : Nat) :
    ((ofCondition c).code base next).length = c.temps + 2 := by
  simp [ofCondition]

/-- The code of a statement is as long as its size says, wherever it starts. -/
@[simp] theorem length_ofStmt (t : Stmt) (base next : Nat) :
    ((ofStmt t).code base next).length = t.size :=
  Stmt.length_code base next t

/-- Two runs of instructions are one effect after another. -/
theorem block_append (code more : List Instruction) :
    block (code ++ more) = (block code).bind fun _ => block more := rfl

/-- A negation is its operand and one temporary. -/
theorem ofExpr_neg (e : Expr) :
    ofExpr (.neg e) = (ofExpr e).bind fun value => temporary (.neg value) :=
  eq_of_forall (fun _ _ => rfl) (fun _ _ => rfl) fun _ _ => rfl

/-- An operation is its two operands and one temporary. -/
theorem ofExpr_binary (op : ArithOp) (lhs rhs : Expr) :
    ofExpr (.binary op lhs rhs) = (ofExpr lhs).bind fun left => (ofExpr rhs).bind fun right =>
      temporary (.binary op left right) :=
  eq_of_forall (fun _ _ => List.append_assoc _ _ _) (fun _ _ => Nat.add_assoc _ _ _)
    fun _ _ => rfl

/-- A condition is its two sides, the branch and the jump. The addresses of the last two are the
exits. -/
theorem ofCondition_eq (c : Condition) :
    ofCondition c = (ofExpr c.lhs).bind fun left => (ofExpr c.rhs).bind fun right =>
      (instruction (.branch left c.op right none)).bind fun onTrue =>
        (instruction (.jump none)).bind fun onFalse =>
          .pure ⟨.single onTrue, .single onFalse⟩ := by
  -- The branch stands behind the code of both sides, and the jump behind the branch.
  refine eq_of_forall ?_ (fun _ _ => rfl) ?_
  · intro base next
    exact List.append_assoc _ _ _
  · intro base next
    simp only [Effect.bind, Effect.pure, ofCondition, ofExpr, instruction, Expr.length_code,
      Condition.temps, List.length_singleton, Nat.add_assoc]

/-- An assignment is its value and the copy of it. -/
theorem ofStmt_assign (name : String) (e : Expr) :
    ofStmt (.assign name e) = (ofExpr e).bind fun value =>
      (instruction (.assign name (.copy value))).bind fun _ => .pure .empty :=
  eq_of_forall (fun _ _ => rfl) (fun _ _ => rfl) fun _ _ => rfl

/-- Two statements in a row are two effects in a row. -/
theorem ofStmt_seq (first second : Stmt) :
    ofStmt (.seq first second) = (ofStmt first).bind fun _ => ofStmt second := by
  refine eq_of_forall ?_ (fun _ _ => rfl) fun _ _ => rfl
  intro base next
  simp only [Effect.bind, ofStmt, Stmt.code, Stmt.length_code]

end Effect

namespace Generate

/-! ### Procedures with an effect -/

/-- The lexemes before `rest` were read from `s` to `s'`, and the effect took place. -/
structure Yielded {α : Type} (rest : List Lexeme) (effect : Effect α) (s : State) (a : α)
    (s' : State) : Prop where
  depth : s'.depth = s.depth
  lexemes : s'.input.lexemes = rest
  code : s'.code = s.code.append (effect.code s.code.nextAddress s.temps.next)
  temps : s'.temps.next = s.temps.next + effect.temps s.code.nextAddress s.temps.next
  value : a = effect.value s.code.nextAddress s.temps.next

/-- There are addresses for `count` more instructions, unless this is left open. -/
def Affords (lenient : Prop) (store : Store) (count : Nat) : Prop :=
  lenient ∨ store.nextAddress + count ≤ maxWord

/-- The faults about which nothing is said. -/
def Excused (lenient : Prop) (fault : Fault) : Prop := fault = .outOfFuel ∨ lenient

/-- The runs of `x` at a depth, the lexemes in `front` and then those in `rest` being
left, read what is in `front` and have an effect. -/
def Yields {α : Type} (lenient : Prop) (options : Options) (depth : Nat)
    (front rest : List Lexeme) (effect : Effect α) (x : Generate α) : Prop :=
  ∀ s, s.depth = depth → s.input.lexemes = front ++ rest →
    Affords lenient s.code (effect.code s.code.nextAddress s.temps.next).length →
    Ends (Excused lenient) x options s (Yielded rest effect s)

section
variable {α β : Type} {lenient : Prop} {options : Options} {depth : Nat}
  {front rest : List Lexeme} {effect : Effect α}

/-- Who affords more affords less. -/
theorem Affords.mono {store : Store} {count fewer : Nat} (h : Affords lenient store count)
    (hle : fewer ≤ count) : Affords lenient store fewer := by
  rcases h with h | h
  · exact .inl h
  · exact .inr (by omega)

/-- What is left to afford behind the instructions that were appended. -/
theorem Affords.append {store : Store} {code : List Instruction} {count : Nat}
    (h : Affords lenient store (code.length + count)) :
    Affords lenient (store.append code) count := by
  rcases h with h | h
  · exact .inl h
  · refine .inr ?_
    rw [Store.nextAddress_append]
    omega

/-- The same lexemes and the same effect in another form. -/
theorem Yields.congr {front' : List Lexeme} {effect' : Effect α} {x : Generate α}
    (h : Yields lenient options depth front rest effect x) (hfront : front = front')
    (heffect : effect = effect') : Yields lenient options depth front' rest effect' x := by
  subst hfront heffect
  exact h

/-- One procedure after another has one effect after another. What follows need be known
only for the values that can be answered. -/
theorem Yields.bind_value {front' : List Lexeme} {more : α → Effect β} {x : Generate α}
    {f : α → Generate β} (hx : Yields lenient options depth front (front' ++ rest) effect x)
    (hf : ∀ base next, Yields lenient options depth front' rest (more (effect.value base next))
      (f (effect.value base next))) :
    Yields lenient options depth (front ++ front') rest (effect.bind more) (x >>= f) := by
  intro s hdepth hlex hroom
  rw [List.append_assoc] at hlex
  rw [show (effect.bind more).code s.code.nextAddress s.temps.next = _ ++ _ from rfl,
    List.length_append] at hroom
  rw [ends_bind]
  refine (hx s hdepth hlex (hroom.mono (Nat.le_add_right _ _))).mono ?_
  intro a s₁ hfirst
  -- The second effect starts where the first one has stopped writing.
  have hnext : s₁.code.nextAddress = s.code.nextAddress
      + (effect.code s.code.nextAddress s.temps.next).length := by
    rw [hfirst.code, Store.nextAddress_append]
  have hroom₁ := hroom.append
  rw [← hfirst.code, ← hfirst.temps, ← hnext] at hroom₁
  rw [hfirst.value]
  refine (hf _ _ s₁ (hfirst.depth.trans hdepth) hfirst.lexemes hroom₁).mono ?_
  intro b s₂ hsecond
  refine ⟨hsecond.depth.trans hfirst.depth, hsecond.lexemes, ?_, ?_, ?_⟩
  · rw [hsecond.code, hfirst.code, Store.append_append, ← hfirst.code, hnext, hfirst.temps]
    rfl
  · rw [hsecond.temps, hnext, hfirst.temps, Nat.add_assoc]
    rfl
  · rw [hsecond.value, hnext, hfirst.temps]
    rfl

/-- The same if what follows is known for all values. -/
theorem Yields.bind {front' : List Lexeme} {more : α → Effect β} {x : Generate α}
    {f : α → Generate β} (hx : Yields lenient options depth front (front' ++ rest) effect x)
    (hf : ∀ a, Yields lenient options depth front' rest (more a) (f a)) :
    Yields lenient options depth (front ++ front') rest (effect.bind more) (x >>= f) :=
  hx.bind_value fun _ _ => hf _

/-- A procedure followed by one that reads nothing. -/
theorem Yields.bind_nil {more : α → Effect β} {x : Generate α} {f : α → Generate β}
    (hx : Yields lenient options depth front rest effect x)
    (hf : ∀ a, Yields lenient options depth [] rest (more a) (f a)) :
    Yields lenient options depth front rest (effect.bind more) (x >>= f) := by
  have hboth : Yields lenient options depth (front ++ []) rest (effect.bind more) (x >>= f) :=
    hx.bind hf
  exact hboth.congr (List.append_nil _) rfl

/-- A procedure without effect before one with an effect. -/
theorem Yields.andThen {a : α} {front' : List Lexeme} {after : Effect β} {x : Generate α}
    {f : α → Generate β} (hx : Yields lenient options depth front (front' ++ rest) (.pure a) x)
    (hf : Yields lenient options depth front' rest after (f a)) :
    Yields lenient options depth (front ++ front') rest after (x >>= f) :=
  (hx.bind_value fun _ _ => hf).congr rfl (Effect.pure_bind a fun _ => after)

/-- A procedure with an effect before one that only hands on the value. -/
theorem Yields.handOn {front' : List Lexeme} {x : Generate α} {f : α → Generate α}
    (hx : Yields lenient options depth front (front' ++ rest) effect x)
    (hf : ∀ a, Yields lenient options depth front' rest (.pure a) (f a)) :
    Yields lenient options depth (front ++ front') rest effect (x >>= f) :=
  (hx.bind hf).congr rfl (Effect.bind_pure effect)

/-- A procedure that looks at the current lexeme first. -/
theorem Yields.look {f : Option Lexeme → Generate α}
    (h : Yields lenient options depth front rest effect (f (front ++ rest).head?)) :
    Yields lenient options depth front rest effect (current? >>= f) := by
  intro s hdepth hlex hroom
  rw [ends_bind, ends_current?, TokenStream.current?_eq_head?, hlex]
  exact h s hdepth hlex hroom

/-- What changes neither the code nor the depth has no effect. -/
theorem yields_of_keeps {a : α} {x : Generate α}
    (h : ∀ s, s.input.lexemes = front ++ rest →
      Ends (Excused lenient) x options s fun b s' => b = a ∧ s'.depth = s.depth ∧
        s'.input.lexemes = rest ∧ s'.code = s.code ∧ s'.temps = s.temps) :
    Yields lenient options depth front rest (.pure a) x := by
  intro s _ hlex _
  refine (h s hlex).mono ?_
  rintro b s' ⟨hvalue, hdepth, hlex', hcode, htemps⟩
  refine ⟨hdepth, hlex', ?_, congrArg _ htemps, hvalue⟩
  rw [hcode]
  exact (Store.append_nil _).symm

/-- To answer at once has no effect. -/
theorem yields_pure (a : α) : Yields lenient options depth [] rest (.pure a) (pure a) :=
  yields_of_keeps fun _ hlex => ⟨rfl, rfl, hlex, rfl, rfl⟩

/-- Moving past a lexeme has no effect. -/
theorem yields_advance (lexeme : Lexeme) :
    Yields lenient options depth [lexeme] rest (.pure ()) advance := by
  refine yields_of_keeps fun s hlex => ?_
  refine ⟨rfl, State.depth_advance _ _, ?_, State.code_advance _ _, State.temps_advance _ _⟩
  rw [State.input_advance, TokenStream.lexemes_tail, hlex]
  rfl

/-- A report has no effect on the code. -/
theorem yields_expected (what : String) :
    Yields lenient options depth [] rest (.pure ()) (expected what) :=
  yields_of_keeps fun _ hlex => ⟨rfl, rfl, hlex, rfl, rfl⟩

/-- A lexeme that is there is read before what depends on it. -/
theorem Yields.eat {lexeme : Lexeme} {f : Bool → Generate α}
    (h : Yields lenient options depth front rest effect (f true)) :
    Yields lenient options depth (lexeme :: front) rest effect (eat lexeme >>= f) := by
  have heat : Yields lenient options depth [lexeme] (front ++ rest) (.pure true)
      (Generate.eat lexeme) := by
    refine Yields.look ?_
    rw [List.cons_append, List.head?_cons, if_pos rfl]
    exact (yields_advance lexeme).andThen (yields_pure true)
  exact heat.andThen h

/-- A lexeme that is not there is not read. -/
theorem Yields.eat_of_ne {lexeme : Lexeme} {f : Bool → Generate α}
    (hne : (front ++ rest).head? ≠ some lexeme)
    (h : Yields lenient options depth front rest effect (f false)) :
    Yields lenient options depth front rest effect (Generate.eat lexeme >>= f) := by
  have heat : Yields lenient options depth [] (front ++ rest) (.pure false)
      (Generate.eat lexeme) := by
    refine Yields.look ?_
    rw [List.nil_append, if_neg hne]
    exact yields_pure false
  exact heat.andThen h

/-- An expected lexeme that is there is read. -/
theorem yields_expect (lexeme : Lexeme) :
    Yields lenient options depth [lexeme] rest (.pure ()) (expect lexeme) :=
  Yields.eat (yields_pure ())

/-- One that is not there is missed. -/
theorem yields_expect_miss {lexeme : Lexeme} (h : rest.head? ≠ some lexeme) :
    Yields lenient options depth [] rest (.pure ()) (expect lexeme) :=
  Yields.eat_of_ne h (yields_expected _)

/-- A name that is there is passed and answered. -/
theorem yields_ident? (name what : String) :
    Yields lenient options depth [.ident name] rest (.pure (some name)) (ident? what) :=
  Yields.look ((yields_advance (.ident name)).andThen (yields_pure (some name)))

/-- At the end nothing is left to read. -/
theorem yields_expectEnd : Yields lenient options depth [] [] (.pure ()) expectEnd :=
  Yields.look (yields_pure ())

/-- An instruction is emitted if there is an address for it. -/
theorem yields_emit (i : Instruction) :
    Yields lenient options depth [] rest (.instruction i) (emit i) := by
  intro s _ hlex hroom
  rw [ends_emit]
  split
  · exact ⟨rfl, hlex, Store.push_eq_append _ _, rfl, rfl⟩
  · rcases hroom with hroom | hroom
    · exact .inr hroom
    · -- There is room for one instruction, so it was not refused.
      exact absurd (Nat.lt_of_succ_le hroom) ‹_›

/-- A temporary is assigned to if there is an address for the instruction. -/
theorem yields_emitTemp (value : Rvalue) :
    Yields lenient options depth [] rest (.temporary value) (emitTemp value) := by
  intro s _ hlex hroom
  rw [ends_emitTemp]
  split
  · exact ⟨rfl, hlex, Store.push_eq_append _ _, rfl, rfl⟩
  · rcases hroom with hroom | hroom
    · exact .inr hroom
    · exact absurd (Nat.lt_of_succ_le hroom) ‹_›

/-- Without jumps nothing is filled in. -/
theorem yields_backpatchHere_empty {f : Nat → Generate α}
    (h : ∀ here, Yields lenient options depth front rest effect (f here)) :
    Yields lenient options depth front rest effect (backpatchHere .empty >>= f) := by
  intro s hdepth hlex hroom
  rw [ends_bind, ends_backpatchHere_empty]
  exact h _ s hdepth hlex hroom

/-- A budget that is used up is excused. -/
theorem yields_throw_outOfFuel :
    Yields lenient options depth front rest effect (throw .outOfFuel) :=
  fun _ _ _ _ => .inl rfl

/-! ### Levels and chains -/

/-- A construct with a level of its own: the level is entered, or else the construct is
skipped and `instead` is answered. -/
theorem yields_level {x body : Generate α} {instead : α}
    (hlevel : OwnLevel options x body instead) {inside : Nat → Effect α}
    (hstop : options.room depth = 0 → afterConstruct 0 (front ++ rest) = rest)
    (hbody : ∀ room, options.room depth = room + 1 → options.room (depth + 1) = room →
      Yields lenient options (depth + 1) front rest (inside room) body) :
    Yields lenient options depth front rest (.level instead inside (options.room depth)) x := by
  intro s hdepth hlex hroom
  rw [hlevel]
  cases hleft : options.room depth with
  | zero =>
      -- No level is left, so the construct is refused, and `hstop` says what is skipped.
      have hfull : ¬ s.depth < options.maxDepth.toNat := by
        unfold Options.room at hleft
        omega
      rw [if_neg hfull]
      refine ⟨State.depth_refuse s options, ?_, ?_, ?_, rfl⟩
      · rw [State.lexemes_refuse, hlex, hstop hleft]
      · rw [State.code_refuse]
        exact (Store.append_nil _).symm
      · rw [State.temps_refuse]
        rfl
  | succ room =>
      rw [hleft] at hroom
      have hfree : s.depth < options.maxDepth.toNat := by
        unfold Options.room at hleft
        omega
      have hinside : options.room (depth + 1) = room := by
        unfold Options.room at hleft ⊢
        omega
      rw [if_pos hfree]
      refine (hbody room hleft hinside { s with depth := s.depth + 1 } (by rw [hdepth]) hlex
        hroom).mono ?_
      intro a s₁ hyielded
      exact ⟨rfl, hyielded.lexemes, hyielded.code, hyielded.temps, hyielded.value⟩

/-- An expression is a level of its own. -/
theorem yields_expression {inside : Nat → Effect String}
    (hstop : options.room depth = 0 → afterConstruct 0 (front ++ rest) = rest)
    (hbody : ∀ fuel room, options.room depth = room + 1 → options.room (depth + 1) = room →
      Yields lenient options (depth + 1) front rest (inside room)
        (signedTerm (expression fuel) fuel >>= chain sumOp? (term (expression fuel) fuel) fuel))
    (fuel : Nat) :
    Yields lenient options depth front rest (.level missing inside (options.room depth))
      (expression fuel) := by
  cases fuel with
  | zero => exact yields_throw_outOfFuel
  | succ fuel => exact yields_level (expression_ownLevel options fuel) hstop (hbody fuel)

/-- A statement is a level of its own. -/
theorem yields_statement {inside : Nat → Effect JumpList} {pending : JumpList}
    (hstop : options.room depth = 0 → afterConstruct 0 (front ++ rest) = rest)
    (hbody : ∀ fuel room, options.room depth = room + 1 → options.room (depth + 1) = room →
      Yields lenient options (depth + 1) front rest (inside room)
        (construct (statement fuel) fuel pending)) (fuel : Nat) :
    Yields lenient options depth front rest (.level pending inside (options.room depth))
      (statement fuel pending) := by
  cases fuel with
  | zero => exact yields_throw_outOfFuel
  | succ fuel => exact yields_level (statement_ownLevel options fuel pending) hstop (hbody fuel)

/-- A chain stops at what is not one of its operators. -/
theorem yields_chain_of_stop {op? : Option Lexeme → Option ArithOp} {operand : Generate String}
    (hop : op? rest.head? = none) (fuel : Nat) (value : String) :
    Yields lenient options depth [] rest (.pure value) (chain op? operand fuel value) := by
  cases fuel with
  | zero => exact yields_throw_outOfFuel
  | succ fuel =>
      refine Yields.look ?_
      rw [List.nil_append, hop]
      exact yields_pure value

/-- A chain reads one of its operators and an operand, and goes on with the temporary
that holds their combination. -/
theorem yields_chain_of_op {op? : Option Lexeme → Option ArithOp} {operand : Generate String}
    {lexeme : Lexeme} {op : ArithOp} {front' : List Lexeme} {right : Effect String}
    {more : String → Effect String} (hop : op? (some lexeme) = some op)
    (hoperand : Yields lenient options depth front (front' ++ rest) right operand)
    (hnext : ∀ n value, Yields lenient options depth front' rest (more value)
      (chain op? operand n value))
    (n : Nat) (value : String) :
    Yields lenient options depth (lexeme :: (front ++ front')) rest
      (right.bind fun operand => (Effect.temporary (.binary op value operand)).bind more)
      (chain op? operand n value) := by
  cases n with
  | zero => exact yields_throw_outOfFuel
  | succ n =>
      refine Yields.look ?_
      rw [List.cons_append, List.head?_cons, hop]
      exact (yields_advance lexeme).andThen (hoperand.bind fun _ =>
        (yields_emitTemp _).bind fun value' => hnext n value')

/-! ### Choices and loops -/

/-- The effect of a condition as a fact about stores. -/
theorem Yielded.tests {c : Condition} {s s' : State} {exits : Exits}
    (h : Yielded rest (.ofCondition c) s exits s') :
    Tests s.code s.temps.next c exits s'.code s'.temps.next := by
  rw [h.value]
  exact ⟨h.code, h.temps, rfl, rfl⟩

/-- The effect of a statement as a fact about stores. -/
theorem Yielded.performs {t : Stmt} {s s' : State} {out : JumpList}
    (h : Yielded rest (.ofStmt t) s out s') :
    Performs s.code s.temps.next .empty t .empty s'.code s'.temps.next := by
  refine ⟨h.temps, ?_, fun _ => ⟨h.code, rfl⟩⟩
  intro hsize
  -- A statement without code hands the jumps on, and here there are none.
  have hnil : t.code s.code.nextAddress s.temps.next = [] :=
    List.eq_nil_of_length_eq_zero (by rw [Stmt.length_code, hsize])
  refine ⟨?_, rfl⟩
  rw [h.code, show (Effect.ofStmt t).code _ _ = _ from hnil, Store.append_nil]

/-- A statement whose code was appended has its effect. -/
theorem Yielded.of_performs {t : Stmt} {s s' : State} (hdepth : s'.depth = s.depth)
    (hlex : s'.input.lexemes = rest)
    (h : Performs s.code s.temps.next .empty t .empty s'.code s'.temps.next) :
    Yielded rest (.ofStmt t) s .empty s' :=
  ⟨hdepth, hlex, h.of_empty.1, h.temps, rfl⟩

/-- What a choice and a loop begin with: a keyword, a condition, and what is made of the
lexemes in `middle` where `closing` is expected. Then the branch is resolved. -/
theorem ends_test_of_yields {c : Condition} {opening closing : Lexeme} {middle : List Lexeme}
    {fuel : Nat} {s : State} {k : Exits → Generate β} {Q : β → State → Prop}
    (htest : Yields lenient options depth front (middle ++ rest) (.ofCondition c)
      (condition fuel))
    (hclosing : Yields lenient options depth middle rest (.pure ()) (expect closing))
    (hdepth : s.depth = depth) (hlex : s.input.lexemes = opening :: (front ++ (middle ++ rest)))
    (hroom : Affords lenient s.code (c.temps + 2))
    (hk : ∀ exits s' store, s'.depth = depth → s'.input.lexemes = rest →
      Tests s.code s.temps.next c exits store s'.temps.next →
      s'.code = store.resolve exits.onTrue.addresses store.nextAddress →
      Ends (Excused lenient) (k exits) options s' Q) :
    Ends (Excused lenient) (do
      advance
      let exits ← condition fuel
      expect closing
      let _ ← backpatchHere exits.onTrue
      k exits) options s Q := by
  have hopening := Reads.advance hlex options.maxDigits.toNat
  rw [ends_bind, ends_advance, ends_bind]
  refine (htest _ (hopening.depth.trans hdepth) hopening.lexemes ?_).mono ?_
  · rwa [Effect.length_ofCondition, State.code_advance]
  · intro exits s₁ hyielded
    -- The keyword between them emits nothing, so it needs no address.
    have hafter : Affords lenient s₁.code 0 := by
      rw [hyielded.code, State.code_advance]
      exact Affords.append (by rwa [Effect.length_ofCondition])
    rw [ends_bind]
    refine (hclosing s₁ (hyielded.depth.trans (hopening.depth.trans hdepth)) hyielded.lexemes
      hafter).mono ?_
    intro _ s₂ hclosed
    have hcode : s₂.code = s₁.code := hclosed.code.trans (Store.append_nil _)
    have htemps : s₂.temps.next = s₁.temps.next := hclosed.temps
    have htests := hyielded.tests
    rw [ends_bind, ends_backpatchHere (by rw [hcode]; exact htests.waiting_onTrue)]
    refine hk exits _ s₁.code ?_ hclosed.lexemes ?_ ?_
    · exact hclosed.depth.trans (hyielded.depth.trans (hopening.depth.trans hdepth))
    · rw [← htemps, State.code_advance, State.temps_advance] at htests
      exact htests
    · rw [hcode]

/-- What there is to afford behind a condition. -/
theorem Affords.body {c : Condition} {exits : Exits} {s s' : State} {store : Store} {count : Nat}
    (h : Affords lenient s.code (c.temps + 2 + count))
    (htests : Tests s.code s.temps.next c exits store s'.temps.next)
    (hcode : s'.code = store.resolve exits.onTrue.addresses store.nextAddress) :
    Affords lenient s'.code count := by
  rcases h with h | h
  · exact .inl h
  · refine .inr ?_
    rw [hcode, htests.resolve_onTrue, Tests.nextAddress_body]
    omega

section
variable {c : Condition} {t : Stmt} {opening closing : Lexeme} {middle front' : List Lexeme}
  {fuel : Nat}
  (htest : Yields lenient options depth front (middle ++ (front' ++ rest)) (.ofCondition c)
    (condition fuel))
  (hbody : Yields lenient options depth front' rest (.ofStmt t) (statement fuel .empty))
include htest hbody

/-- The effect of a choice, whether `THEN` is there or not. -/
theorem yields_choice
    (hclosing : Yields lenient options depth middle (front' ++ rest) (.pure ())
      (expect (.keyword .thenKw))) :
    Yields lenient options depth (opening :: (front ++ (middle ++ front'))) rest
      (.ofStmt (.choice c t)) (choice (statement fuel) fuel .empty) := by
  intro s hdepth hlex hroom
  rw [List.cons_append, List.append_assoc, List.append_assoc] at hlex
  rw [Effect.length_ofStmt] at hroom
  have hsize : Affords lenient s.code (c.temps + 2 + t.size) := hroom
  rw [choice, ends_bind, ends_backpatchHere_empty]
  refine ends_test_of_yields htest hclosing hdepth hlex (hsize.mono (Nat.le_add_right _ _)) ?_
  intro exits s₁ store hdepth₁ hlex₁ htests hcode
  have hafter : Affords lenient s₁.code t.size := hsize.body htests hcode
  rw [ends_bind]
  refine (hbody s₁ hdepth₁ hlex₁ (by rwa [Effect.length_ofStmt])).mono ?_
  intro out s₂ hyielded
  have hperforms := hyielded.performs
  rw [hcode] at hperforms
  have hchoice : s₂.code.Waiting exits.onFalse.addresses ∧
      Performs s.code s.temps.next .empty (.choice c t) .empty _ _ :=
    Performs.choice htests hperforms
  -- The jump of the condition goes to what follows the body.
  rw [ends_bind, ends_backpatchHere hchoice.1, ends_pure, show out = .empty from hyielded.value]
  exact .of_performs (hyielded.depth.trans (hdepth₁.trans hdepth.symm)) hyielded.lexemes hchoice.2

/-- The effect of a loop, whether `DO` is there or not. -/
theorem yields_loop
    (hclosing : Yields lenient options depth middle (front' ++ rest) (.pure ())
      (expect (.keyword .doKw))) :
    Yields lenient options depth (opening :: (front ++ (middle ++ front'))) rest
      (.ofStmt (.loop c t)) (loop (statement fuel) fuel .empty) := by
  intro s hdepth hlex hroom
  rw [List.cons_append, List.append_assoc, List.append_assoc] at hlex
  rw [Effect.length_ofStmt] at hroom
  have hsize : Affords lenient s.code (c.temps + 2 + (t.size + 1)) := hroom
  rw [loop, ends_bind, ends_backpatchHere_empty]
  refine ends_test_of_yields htest hclosing hdepth hlex (hsize.mono (Nat.le_add_right _ _)) ?_
  intro exits s₁ store hdepth₁ hlex₁ htests hcode
  have hafter : Affords lenient s₁.code (t.size + 1) := hsize.body htests hcode
  have hroom₁ := hafter.mono (Nat.le_succ t.size)
  rw [ends_bind]
  refine (hbody s₁ hdepth₁ hlex₁ (by rwa [Effect.length_ofStmt])).mono ?_
  intro out s₂ hyielded
  have hperforms := hyielded.performs
  rw [hcode] at hperforms
  have hloop : (s₂.code.push (.jump (some s.code.nextAddress))).Waiting exits.onFalse.addresses ∧
      Performs s.code s.temps.next .empty (.loop c t) .empty _ _ :=
    Performs.loop htests hperforms
  rw [show out = .empty from hyielded.value]
  -- No jump is left over from the body, so only the closing jump goes back.
  show Ends _ (do
    let _ ← emit (.jump (some s.code.nextAddress))
    let _ ← backpatchHere exits.onFalse
    return JumpList.empty) options s₂ _
  rw [ends_bind, ends_emit]
  split
  · rw [ends_bind, ends_backpatchHere hloop.1, ends_pure]
    exact .of_performs (hyielded.depth.trans (hdepth₁.trans hdepth.symm)) hyielded.lexemes
      hloop.2
  · next hfull =>
    rcases hafter with hafter | hafter
    · exact .inr hafter
    · -- There was room for the body and one more, and the body has taken no more than its own.
      have hnext : s₂.code.nextAddress = s₁.code.nextAddress + t.size := by
        rw [hyielded.code, Store.nextAddress_append, Effect.length_ofStmt]
      omega

end

/-! ### Assignments and compounds -/

/-- The effect of an assignment, whatever is made of the lexemes in `middle` where `:=` is
expected. -/
theorem yields_assignment {name : String} {e : Expr} {middle front' : List Lexeme} {fuel : Nat}
    (hbecomes : Yields lenient options depth middle (front' ++ rest) (.pure ()) expectBecomes)
    (hvalue : Yields lenient options depth front' rest (.ofExpr e) (expression fuel)) :
    Yields lenient options depth (.ident name :: (middle ++ front')) rest
      (.ofStmt (.assign name e)) (assignment fuel name .empty) := by
  -- The target is passed and checked, and a report is no effect.
  have hname : Yields lenient options depth [.ident name] ((middle ++ front') ++ rest) (.pure ())
      (do let start ← line; advance; checkTarget name start) := by
    refine yields_of_keeps fun s hlex => ?_
    have hread := Reads.advance hlex options.maxDigits.toNat
    have hkeep : ((s.advance options.maxDigits.toNat).code = s.code) ∧
        (s.advance options.maxDigits.toNat).temps = s.temps :=
      ⟨State.code_advance _ _, State.temps_advance _ _⟩
    rw [ends_bind, ends_line, ends_bind, ends_advance, checkTarget, ends_bind, ends_get]
    split
    · exact ⟨rfl, hread.depth, hread.lexemes, hkeep⟩
    · exact ⟨rfl, hread.depth, hread.lexemes, hkeep⟩
    · exact ⟨rfl, hread.depth, hread.lexemes, hkeep⟩
  have hemit : Yields lenient options depth front' rest (.ofStmt (.assign name e)) (do
      let value ← expression fuel
      let _ ← emit (.assign name (.copy value))
      return JumpList.empty) :=
    (hvalue.bind_nil fun value => (yields_emit (.assign name (.copy value))).bind_nil fun _ =>
      yields_pure JumpList.empty).congr rfl (Effect.ofStmt_assign name e).symm
  have hassign : Yields lenient options depth ([.ident name] ++ (middle ++ front')) rest
      (.ofStmt (.assign name e)) (do
        let start ← line
        advance
        checkTarget name start
        expectBecomes
        let value ← expression fuel
        let _ ← emit (.assign name (.copy value))
        return JumpList.empty) := hname.andThen (hbecomes.andThen hemit)
  intro s hdepth hlex hroom
  rw [assignment, ends_bind, ends_backpatchHere_empty]
  exact hassign s hdepth hlex hroom

/-- Where a statement ends, a construct is empty. -/
theorem yields_construct_empty {inner : JumpList → Generate JumpList} {fuel : Nat}
    (hends : EndsStatement rest) :
    Yields lenient options depth [] rest (.ofStmt .skip) (construct inner fuel .empty) := by
  refine Yields.look ?_
  rw [List.nil_append]
  -- A statement ends at the end of the input, at a semicolon or at `END`.
  rcases hends with h | h | h
  · rw [h]
    exact yields_pure JumpList.empty
  · rw [h]
    exact yields_pure JumpList.empty
  · rw [h]
    exact yields_pure JumpList.empty

/-- A sequence stops at `END`. -/
theorem yields_sequence_of_end (fuel n : Nat) :
    Yields lenient options depth [] (.keyword .endKw :: rest) (.pure .empty)
      (sequence (statement fuel) n .empty) := by
  cases n with
  | zero => exact yields_throw_outOfFuel
  | succ n => exact Yields.eat_of_ne (by simp) (Yields.look (yields_pure JumpList.empty))

/-- A compound has the effect of the statements in it. -/
theorem yields_compound {t : Stmt} {fuel : Nat}
    (hbody : Yields lenient options depth front (.keyword .endKw :: rest) (.ofStmt t)
      (statement fuel .empty >>= sequence (statement fuel) fuel)) :
    Yields lenient options depth (.keyword .beginKw :: (front ++ [.keyword .endKw])) rest
      (.ofStmt t) (compound (statement fuel) fuel .empty) := by
  have hcompound : Yields lenient options depth
      ([.keyword .beginKw] ++ (front ++ [.keyword .endKw])) rest (.ofStmt t) (do
        advance
        let next ← statement fuel .empty >>= sequence (statement fuel) fuel
        expect (.keyword .endKw)
        return next) :=
    (yields_advance (.keyword .beginKw)).andThen (hbody.handOn fun next =>
      (yields_expect (.keyword .endKw)).andThen (yields_pure next))
  simp only [bind_assoc] at hcompound
  exact hcompound

end

end Generate

end ThreeAddress
