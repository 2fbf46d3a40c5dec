import Mathlib.Data.List.Forall2
import ThreeAddress.Proofs.Run

/-!
# Two runs in step

Some properties compare two runs of the generator that differ in a setting or in
a part of the state that steers nothing. A `Lockstep` says how: by the options of
the two runs, by a relation between their states, and by relations between the
lines and the addresses that the runs hand around. The second run may end in a
fault that the first one does not see. From then on the first run goes on alone,
and all that is said of its states is `Lockstep.Lost`. The first run may also take a
way of its own, and then all that is said is `Lockstep.Apart`. If the first run ends
in a fault, the second one does too, unless the fault is one of `Lockstep.Excused`.

`Lockstep.Follows` compares two actions, value by value and state by state. It is
closed under sequencing, so it holds of all procedures of the generator as soon as
it holds of the shared steps. `Lockstep.Steady` lists these, and
`Lockstep.Steady.program` is the conclusion. A comparison of two settings then
consists of a relation and a proof of `Steady`. The second run may have a larger
budget than the first, so two programs of different lengths can be compared.
-/

set_option autoImplicit false

namespace ThreeAddress.Generate

/-- Reports a name that is used as an operand and not declared. -/
def checkOperand (name : String) : Generate Unit := do
  unless (← get).symbols.contains name do
    report (.undeclared name)

/-- A name as a factor: it is checked, passed and answered. -/
theorem checkOperand_bind (name : String) (rest : Generate String) :
    (do unless (← get).symbols.contains name do report (.undeclared name)
        rest : Generate String) = (do checkOperand name; rest) := by
  rw [checkOperand, bind_assoc]
  congr 1
  funext s
  split
  · rw [pure_bind]
  · rfl

/-- A program behind its header: the declarations with one budget, and the statement
with another. -/
def body (name? : Option String) (fuel budget : Nat) : Generate (Option String) := do
  declarations fuel
  let next ← statement budget .empty
  expectEnd
  let _ ← backpatchHere next
  checkResolved
  return name?

/-- An action that looks at the state goes on from there. -/
theorem get_bind_run {α : Type} (f : State → Generate α) (options : Options) (s : State) :
    (get >>= f) options s = f s options s := rfl

/-- A level is entered, or the construct is refused. -/
theorem descend_run (options : Options) (s : State) :
    descend options s =
      if s.depth < options.maxDepth.toNat then .ok true { s with depth := s.depth + 1 }
      else .ok false (s.refuse options) := by
  have hends : Ends (fun _ => False) descend options s fun entered t =>
      (if s.depth < options.maxDepth.toNat then .ok true { s with depth := s.depth + 1 }
        else .ok false (s.refuse options)) = (.ok entered t : EStateM.Result Fault State Bool) := by
    rw [ends_descend]
    split <;> rfl
  unfold Ends at hends
  cases hrun : descend options s with
  | ok entered t =>
      rw [hrun] at hends
      exact hends.symm
  | error fault t =>
      rw [hrun] at hends
      exact hends.elim

/-- Two runs of the generator and how they correspond. -/
structure Lockstep where
  /-- The options of the first run. -/
  left : Options
  /-- The options of the second run. -/
  right : Options
  /-- How the states correspond while both runs go on. -/
  Rel : State → State → Prop
  /-- What is known of the first run after the second has ended in a fault. -/
  Lost : State → Prop
  /-- How the lines correspond. -/
  Line : Nat → Nat → Prop
  /-- How the addresses correspond. -/
  Addr : Nat → Nat → Prop
  /-- The faults of the first run that say nothing about the second. -/
  Excused : Fault → Prop
  /-- What is known of the first run after it took a way of its own. -/
  Apart : State → Prop := fun _ => False

namespace Lockstep

/-- The jump lists of the two runs have corresponding addresses. -/
def Jumps (L : Lockstep) (list list' : JumpList) : Prop :=
  List.Forall₂ L.Addr list.addresses list'.addresses

/-- The instructions that the two runs emit at the same time. -/
inductive Same (L : Lockstep) : Instruction → Instruction → Prop where
  | assign (dest : String) (value : Rvalue) : Same L (.assign dest value) (.assign dest value)
  | branch (lhs : String) (op : RelOp) (rhs : String) :
      Same L (.branch lhs op rhs none) (.branch lhs op rhs none)
  | pending : Same L (.jump none) (.jump none)
  | jump {target target' : Nat} (h : L.Addr target target') :
      Same L (.jump (some target)) (.jump (some target'))

section
variable {α β γ δ : Type} {L : Lockstep}

/-- What became of the second run when the first one ended with `a` in the state
`t`: it ended with a corresponding value in a corresponding state, or it is lost. -/
def Agrees (L : Lockstep) (R : α → β → Prop) (a : α) (t : State) :
    EStateM.Result Fault State β → Prop
  | .ok b t' => R a b ∧ L.Rel t t'
  | .error _ _ => (∃ b, R a b) ∧ L.Lost t

/-- A fault of the first run is excused, or the second run ended in a fault too. -/
def Fails (L : Lockstep) (result : EStateM.Result Fault State β) (fault : Fault) : Prop :=
  L.Excused fault ∨ ∃ fault' t', result = .error fault' t'

/-- While the second run has not failed, a fault of the first one is excused. -/
theorem Fails.excused_of_ok {b : β} {t : State} {fault : Fault}
    (h : L.Fails (.ok b t) fault) : L.Excused fault := by
  rcases h with hexcused | ⟨fault', t', hfailed⟩
  · exact hexcused
  · exact nomatch hfailed

/-- Whenever `x` ends well from a state of the first run, `y` agrees from the
corresponding state of the second, and whenever `x` fails, so does `y`. A lost run
stays lost, and a run on a way of its own stays on it. -/
structure Follows (L : Lockstep) (R : α → β → Prop) (x : Generate α) (y : Generate β) :
    Prop where
  parts : ∀ s s', L.Rel s s' →
    Ends (L.Fails (y L.right s')) x L.left s fun a t =>
      L.Agrees R a t (y L.right s') ∨ (∃ b, R a b) ∧ L.Apart t
  lost : ∀ s, L.Lost s →
    Ends (fun _ => True) x L.left s fun a t => (∃ b, R a b) ∧ L.Lost t
  apart : ∀ s, L.Apart s → Ends L.Excused x L.left s fun a t => (∃ b, R a b) ∧ L.Apart t

/-- Where the first run never takes a way of its own, it is enough that the runs agree. -/
theorem Follows.of_agrees {R : α → β → Prop} {x : Generate α} {y : Generate β}
    (htogether : ∀ s, ¬L.Apart s)
    (hagrees : ∀ s s', L.Rel s s' →
      Ends (L.Fails (y L.right s')) x L.left s fun a t => L.Agrees R a t (y L.right s'))
    (hlost : ∀ s, L.Lost s → Ends (fun _ => True) x L.left s fun a t => (∃ b, R a b) ∧ L.Lost t) :
    L.Follows R x y where
  parts s s' hrel := (hagrees s s' hrel).mono fun _ _ h => .inl h
  lost := hlost
  apart s hapart := (htogether s hapart).elim

/-- If the first run never takes a way of its own, then from corresponding states the second run
agrees with it. -/
theorem Follows.agrees {R : α → β → Prop} {x : Generate α} {y : Generate β}
    (h : L.Follows R x y) (htogether : ∀ s, ¬L.Apart s) {s s' : State} (hrel : L.Rel s s') :
    Ends (L.Fails (y L.right s')) x L.left s fun a t => L.Agrees R a t (y L.right s') := by
  refine (h.parts s s' hrel).mono ?_
  rintro a t (hagrees | ⟨-, hapart⟩)
  · exact hagrees
  · exact (htogether t hapart).elim

/-- To answer at once keeps two runs in step if the answers correspond. -/
theorem Follows.pure {R : α → β → Prop} {a : α} {b : β} (h : R a b) :
    L.Follows R (pure a) (pure b) where
  parts _ _ hrel := .inl ⟨h, hrel⟩
  lost _ hlost := ⟨⟨b, h⟩, hlost⟩
  apart _ hapart := ⟨⟨b, h⟩, hapart⟩

/-- A run that ends in an excused fault is followed by every other. -/
theorem Follows.throw {R : α → β → Prop} {fault : Fault} {y : Generate β}
    (h : L.Excused fault) : L.Follows R (throw fault) y where
  parts _ _ _ := .inl h
  lost _ _ := trivial
  apart _ _ := h

/-- **Runs in step are closed under sequencing.** Take two actions in step, and continuations
that are in step on every two corresponding answers. Then the sequences are in step. -/
theorem Follows.bind {R : α → β → Prop} {S : γ → δ → Prop} {x : Generate α} {y : Generate β}
    {f : α → Generate γ} {g : β → Generate δ} (hx : L.Follows R x y)
    (hf : ∀ a b, R a b → L.Follows S (f a) (g b)) : L.Follows S (x >>= f) (y >>= g) where
  parts := by
    intro s s' hrel
    have hfirst := hx.parts s s' hrel
    -- What is to be shown depends on how the second run gets through its first action.
    rw [ends_bind, bind_run]
    cases hy : y L.right s' with
    | ok b t' =>
        rw [hy] at hfirst
        refine (hfirst.weaken fun _ h => .inl h.excused_of_ok).mono ?_
        -- Both runs go on together, or the first one goes on on its own way.
        rintro a t (hagrees | ⟨⟨b', hab⟩, hapart⟩)
        · exact (hf a b hagrees.1).parts t t' hagrees.2
        · exact (((hf a b' hab).apart t hapart).weaken fun _ => .inl).mono fun _ _ => .inr
    | error fault t' =>
        rw [hy] at hfirst
        have hfails : ∀ other, L.Fails (.error fault t' : EStateM.Result Fault State δ) other :=
          fun _ => .inr ⟨fault, t', rfl⟩
        refine (hfirst.weaken fun _ _ => hfails _).mono ?_
        -- The second run has ended, and the first one goes on alone.
        rintro a t (⟨⟨b, hab⟩, hlost⟩ | ⟨⟨b, hab⟩, hapart⟩)
        · exact (((hf a b hab).lost t hlost).weaken fun _ _ => hfails _).mono fun _ _ => .inl
        · exact (((hf a b hab).apart t hapart).weaken fun _ _ => hfails _).mono fun _ _ => .inr
  lost := by
    intro s hlost
    rw [ends_bind]
    refine (hx.lost s hlost).mono ?_
    rintro a t ⟨⟨b, hab⟩, hlost'⟩
    exact (hf a b hab).lost t hlost'
  apart := by
    intro s hapart
    rw [ends_bind]
    refine (hx.apart s hapart).mono ?_
    rintro a t ⟨⟨b, hab⟩, hapart'⟩
    exact (hf a b hab).apart t hapart'

/-- What both runs do finally keeps them in step, if a fault in it is excused. -/
theorem Follows.ensure {R : α → β → Prop} {x : Generate α} {y : Generate β}
    {u v : Generate γ} (hx : L.Follows R x y) (hu : L.Follows Eq u v)
    (hexcused : ∀ s, Ends L.Excused u L.left s fun _ _ => True) :
    L.Follows R (tryFinally x u) (tryFinally y v) where
  parts := by
    intro s s' hrel
    have hfirst := hx.parts s s' hrel
    have hrun := tryFinally_run y v L.right s'
    cases hy : y L.right s' with
    | ok b t' =>
        simp only [hy] at hfirst hrun
        refine Ends.ensure (hfirst.weaken fun _ h => .inl (h.excused_of_ok))
          (fun t => (hexcused t).weaken fun _ => .inl) ?_
        rintro a t (⟨hab, htogether⟩ | ⟨⟨b', hab⟩, hapart⟩)
        · -- The second run decides what the first one is compared with at the end.
          have hlast := hu.parts t t' htogether
          cases hv : v L.right t' with
          | ok c u' =>
              simp only [hv] at hlast hrun
              rw [hrun]
              refine (hlast.weaken fun _ h => .inl h.excused_of_ok).mono ?_
              rintro c' w (hagrees | ⟨-, hapart⟩)
              · exact .inl ⟨hab, hagrees.2⟩
              · exact .inr ⟨⟨b, hab⟩, hapart⟩
          | error fault u' =>
              simp only [hv] at hlast hrun
              rw [hrun]
              refine (hlast.weaken fun _ _ => .inr ⟨fault, u', rfl⟩).mono ?_
              rintro c' w (hagrees | ⟨-, hapart⟩)
              · exact .inl ⟨⟨b, hab⟩, hagrees.2⟩
              · exact .inr ⟨⟨b, hab⟩, hapart⟩
        · exact ((hu.apart t hapart).weaken fun _ => .inl).mono
            fun _ _ h => .inr ⟨⟨b', hab⟩, h.2⟩
    | error fault t' =>
        simp only [hy] at hfirst hrun
        -- Whatever is done finally, the second run has failed.
        obtain ⟨fault', u', hfailed⟩ : ∃ fault' u',
            tryFinally y v L.right s' = .error fault' u' := by
          rw [hrun]
          cases v L.right t' with
          | ok c u' => exact ⟨fault, u', rfl⟩
          | error other u' => exact ⟨other, u', rfl⟩
        rw [hfailed]
        have hfails : ∀ other,
            L.Fails (.error fault' u' : EStateM.Result Fault State β) other :=
          fun _ => .inr ⟨fault', u', rfl⟩
        refine Ends.ensure (hfirst.weaken fun _ _ => hfails _)
          (fun t => (hexcused t).weaken fun _ _ => hfails _) ?_
        rintro a t (⟨⟨b, hab⟩, hlost⟩ | ⟨⟨b, hab⟩, hapart⟩)
        · exact ((hu.lost t hlost).weaken fun _ _ => hfails _).mono
            fun _ _ h => .inl ⟨⟨b, hab⟩, h.2⟩
        · exact ((hu.apart t hapart).weaken fun _ _ => hfails _).mono
            fun _ _ h => .inr ⟨⟨b, hab⟩, h.2⟩
  lost := by
    intro s hlost
    refine Ends.ensure (hx.lost s hlost) (fun t => (hexcused t).weaken fun _ _ => trivial) ?_
    rintro a t ⟨hab, hlost'⟩
    exact (hu.lost t hlost').mono fun _ _ h => ⟨hab, h.2⟩
  apart := by
    intro s hapart
    refine Ends.ensure (hx.apart s hapart) hexcused ?_
    rintro a t ⟨hab, hapart'⟩
    exact (hu.apart t hapart').mono fun _ _ h => ⟨hab, h.2⟩

/-- Sequencing after a step with the same value in both runs. -/
theorem Follows.bind_eq {S : γ → δ → Prop} {x y : Generate α} {f : α → Generate γ}
    {g : α → Generate δ} (hx : L.Follows Eq x y) (hf : ∀ a, L.Follows S (f a) (g a)) :
    L.Follows S (x >>= f) (y >>= g) :=
  hx.bind fun a _ hab => hab ▸ hf a

end

/-- Where the addresses are the same, the instructions are. -/
theorem Same.eq {L : Lockstep} (haddr : ∀ address address', L.Addr address address' →
    address = address') {instruction instruction' : Instruction}
    (h : L.Same instruction instruction') : instruction = instruction' := by
  cases h with
  | assign dest value => rfl
  | branch lhs op rhs => rfl
  | pending => rfl
  | jump htarget => rw [haddr _ _ htarget]

/-- Where the addresses are the same, the lists of jumps are. -/
theorem Jumps.eq {L : Lockstep} (haddr : ∀ address address', L.Addr address address' →
    address = address') {list list' : JumpList} (h : L.Jumps list list') : list = list' := by
  have haddresses : List.Forall₂ Eq list.addresses list'.addresses := h.imp haddr
  -- Lists that correspond by equality are equal.
  rw [List.forall₂_eq_eq_eq] at haddresses
  exact congrArg JumpList.mk haddresses

/-! ### The shared steps -/

/-- The shared steps of the generator keep the two runs in step. -/
structure Steady (L : Lockstep) : Prop where
  outOfFuel : L.Excused .outOfFuel
  unbalancedNesting : L.Excused .unbalancedNesting
  current? : L.Follows Eq current? current?
  line : L.Follows L.Line line line
  checkNumber : L.Follows Eq checkNumber checkNumber
  advance : L.Follows Eq advance advance
  expected (what : String) : L.Follows Eq (expected what) (expected what)
  expectEnd : L.Follows Eq expectEnd expectEnd
  checkOperand (name : String) : L.Follows Eq (checkOperand name) (checkOperand name)
  checkTarget (name : String) {line line' : Nat} (h : L.Line line line') :
    L.Follows Eq (checkTarget name line) (checkTarget name line')
  declare (name : String) (kind : SymbolKind) {line line' : Nat} (h : L.Line line line') :
    L.Follows Eq (declare ⟨name, kind, line⟩) (declare ⟨name, kind, line'⟩)
  descend : L.Follows Eq descend descend
  ascend : L.Follows Eq ascend ascend
  freshTemp : L.Follows Eq freshTemp freshTemp
  nextAddress : L.Follows L.Addr nextAddress nextAddress
  emit {instruction instruction' : Instruction} (h : L.Same instruction instruction') :
    L.Follows L.Addr (emit instruction) (emit instruction')
  backpatch {list list' : JumpList} {target target' : Nat} (h : L.Jumps list list')
    (htarget : L.Addr target target') :
    L.Follows Eq (backpatch list target) (backpatch list' target')
  checkResolved : L.Follows Eq checkResolved checkResolved

namespace Steady
variable {L : Lockstep} (h : L.Steady)
include h

/-- A lexeme that may be there: both runs see the same one, so both pass it or neither does. -/
theorem eat (lexeme : Lexeme) : L.Follows Eq (eat lexeme) (eat lexeme) := by
  refine h.current?.bind_eq fun current => ?_
  split
  · exact h.advance.bind_eq fun _ => .pure rfl
  · exact .pure rfl

/-- A lexeme that must be there: both runs pass it, or both report that it is missing. -/
theorem expect (lexeme : Lexeme) : L.Follows Eq (expect lexeme) (expect lexeme) := by
  refine (h.eat lexeme).bind_eq fun eaten => ?_
  split
  · exact .pure rfl
  · exact h.expected _

/-- Both runs answer the same name, or both report that there is none. -/
theorem ident? (what : String) : L.Follows Eq (ident? what) (ident? what) := by
  refine h.current?.bind_eq fun current => ?_
  split
  · exact h.advance.bind_eq fun _ => .pure rfl
  · exact (h.expected _).bind_eq fun _ => .pure rfl

/-- Both runs pass the assignment operator, or both report it and may pass a `=` in its place. -/
theorem expectBecomes : L.Follows Eq expectBecomes expectBecomes := by
  refine (h.eat _).bind_eq fun eaten => ?_
  split
  · exact .pure rfl
  · exact (h.expected _).bind_eq fun _ => (h.eat _).bind_eq fun _ => .pure rfl

/-- Both runs keep the value in a temporary of the same name. The addresses of the two
instructions correspond, and they are not answered. -/
theorem emitTemp (value : Rvalue) : L.Follows Eq (emitTemp value) (emitTemp value) :=
  h.freshTemp.bind_eq fun dest => (h.emit (.assign dest value)).bind fun _ _ _ => .pure rfl

/-- Corresponding lists are resolved with corresponding addresses, namely the next ones of the
two runs. -/
theorem backpatchHere {list list' : JumpList} (hlist : L.Jumps list list') :
    L.Follows L.Addr (backpatchHere list) (backpatchHere list') :=
  h.nextAddress.bind fun _ _ hhere => (h.backpatch hlist hhere).bind_eq fun _ => .pure hhere

/-! ### Expressions and conditions -/

section
variable {inner inner' : Generate String} (hinner : L.Follows Eq inner inner')
include hinner

/-- A factor keeps the runs in step if a bracketed expression does. -/
theorem factor : L.Follows Eq (factor inner) (factor inner') := by
  refine h.current?.bind_eq fun current => ?_
  split
  · rw [checkOperand_bind]
    exact (h.checkOperand _).bind_eq fun _ => h.advance.bind_eq fun _ => .pure rfl
  · exact h.advance.bind_eq fun _ => .pure rfl
  · exact h.advance.bind_eq fun _ => hinner.bind_eq fun _ =>
      (h.expect _).bind_eq fun _ => .pure rfl
  · exact (h.expected _).bind_eq fun _ => .pure rfl

omit hinner in
/-- A chain of operands with operators between them. The induction is on the first budget; the
second one is not smaller, so it lasts as long. -/
theorem chain (op? : Option Lexeme → Option ArithOp) {operand operand' : Generate String}
    (hoperand : L.Follows Eq operand operand') {fuel fuel' : Nat} (hle : fuel ≤ fuel')
    (lhs : String) :
    L.Follows Eq (chain op? operand fuel lhs) (chain op? operand' fuel' lhs) := by
  induction fuel generalizing fuel' lhs with
  | zero => exact .throw h.outOfFuel
  | succ fuel ih =>
      obtain ⟨fuel', rfl⟩ := Nat.exists_eq_succ_of_ne_zero (Nat.ne_zero_of_lt hle)
      refine h.current?.bind_eq fun current => ?_
      split
      · -- The value so far is a temporary of the same name in both runs.
        exact h.advance.bind_eq fun _ => hoperand.bind_eq fun _ =>
          (h.emitTemp _).bind_eq fun value => ih (Nat.le_of_succ_le_succ hle) value
      · exact .pure rfl

/-- A term is a chain of factors. -/
theorem term {fuel fuel' : Nat} (hle : fuel ≤ fuel') :
    L.Follows Eq (term inner fuel) (term inner' fuel') :=
  (h.factor hinner).bind_eq fun first => h.chain _ (h.factor hinner) hle first

omit hinner in
/-- Both runs answer whether a minus stands in front. -/
theorem leadingMinus : L.Follows Eq leadingMinus leadingMinus := by
  refine h.current?.bind_eq fun current => ?_
  split
  · exact h.advance.bind_eq fun _ => .pure rfl
  · exact .pure rfl

/-- The first term of an expression, which both runs negate or neither. -/
theorem signedTerm {fuel fuel' : Nat} (hle : fuel ≤ fuel') :
    L.Follows Eq (signedTerm inner fuel) (signedTerm inner' fuel') := by
  refine h.leadingMinus.bind_eq fun negate => (h.term hinner hle).bind_eq fun value => ?_
  split
  · exact h.emitTemp _
  · exact .pure rfl

end

/-- An expression with two budgets, by induction on the first one. Both runs enter the level or
both are refused. -/
theorem expression {fuel fuel' : Nat} (hle : fuel ≤ fuel') :
    L.Follows Eq (expression fuel) (expression fuel') := by
  induction fuel generalizing fuel' with
  | zero => exact .throw h.outOfFuel
  | succ fuel ih =>
      obtain ⟨fuel', rfl⟩ := Nat.exists_eq_succ_of_ne_zero (Nat.ne_zero_of_lt hle)
      have hless : fuel ≤ fuel' := Nat.le_of_succ_le_succ hle
      refine h.descend.bind_eq fun entered => ?_
      split
      · exact (h.signedTerm (ih hless) hless).bind_eq fun first =>
          (h.chain _ (h.term (ih hless) hless) hless first).bind_eq fun value =>
            h.ascend.bind_eq fun _ => .pure rfl
      · exact .pure rfl

/-- Both runs answer the same relation. Where there is none, both report it and go on with the
same default. -/
theorem relation : L.Follows Eq relation relation := by
  refine h.current?.bind_eq fun current => ?_
  split
  · exact h.advance.bind_eq fun _ => .pure rfl
  · exact (h.expected _).bind_eq fun _ => .pure rfl

/-- The exits of a condition correspond if both of their lists do. -/
theorem condition {fuel fuel' : Nat} (hle : fuel ≤ fuel') :
    L.Follows (fun exits exits' => L.Jumps exits.onTrue exits'.onTrue ∧
        L.Jumps exits.onFalse exits'.onFalse)
      (condition fuel) (condition fuel') :=
  (h.expression hle).bind_eq fun _ => h.relation.bind_eq fun _ =>
    (h.expression hle).bind_eq fun _ => (h.emit (.branch _ _ _)).bind fun _ _ htrue =>
      (h.emit .pending).bind fun _ _ hfalse =>
        .pure ⟨.cons htrue .nil, .cons hfalse .nil⟩

/-! ### Statements -/

section
variable {fuel fuel' : Nat} (hle : fuel ≤ fuel')
include hle

/-- An assignment. The line of its target, which a report about it names, corresponds too. -/
theorem assignment (name : String) {pending pending' : JumpList}
    (hpending : L.Jumps pending pending') :
    L.Follows L.Jumps (assignment fuel name pending) (assignment fuel' name pending') :=
  (h.backpatchHere hpending).bind fun _ _ _ => h.line.bind fun _ _ hline =>
    h.advance.bind_eq fun _ => (h.checkTarget name hline).bind_eq fun _ =>
      h.expectBecomes.bind_eq fun _ => (h.expression hle).bind_eq fun _ =>
        (h.emit (.assign _ _)).bind fun _ _ _ => .pure .nil

variable {inner inner' : JumpList → Generate JumpList}
  (hinner : ∀ {pending pending' : JumpList}, L.Jumps pending pending' →
    L.Follows L.Jumps (inner pending) (inner' pending'))
  {pending pending' : JumpList} (hpending : L.Jumps pending pending')
include hinner hpending

/-- An `IF` statement with corresponding pending jumps leaves corresponding pending jumps. -/
theorem choice :
    L.Follows L.Jumps (choice inner fuel pending) (choice inner' fuel' pending') :=
  (h.backpatchHere hpending).bind fun _ _ _ => h.advance.bind_eq fun _ =>
    (h.condition hle).bind fun _ _ hexits => (h.expect _).bind_eq fun _ =>
      (h.backpatchHere hexits.1).bind fun _ _ _ => (hinner .nil).bind fun _ _ hnext =>
        (h.backpatchHere hexits.2).bind fun _ _ _ => .pure hnext

/-- A `WHILE` statement: the jumps that its body leaves pending go back to corresponding
addresses, and it leaves none pending itself. -/
theorem loop : L.Follows L.Jumps (loop inner fuel pending) (loop inner' fuel' pending') :=
  (h.backpatchHere hpending).bind fun _ _ hstart => h.advance.bind_eq fun _ =>
    (h.condition hle).bind fun _ _ hexits => (h.expect _).bind_eq fun _ =>
      (h.backpatchHere hexits.1).bind fun _ _ _ => (hinner .nil).bind fun _ _ hnext =>
        (h.backpatch hnext hstart).bind_eq fun _ => (h.emit (.jump hstart)).bind fun _ _ _ =>
          (h.backpatchHere hexits.2).bind fun _ _ _ => .pure .nil

/-- What follows the first statement of a `BEGIN` block, by induction on the first budget. The
pending jumps of one statement are handed to the next one. -/
theorem sequence :
    L.Follows L.Jumps (sequence inner fuel pending) (sequence inner' fuel' pending') := by
  induction fuel generalizing fuel' pending pending' with
  | zero => exact .throw h.outOfFuel
  | succ fuel ih =>
      obtain ⟨fuel', rfl⟩ := Nat.exists_eq_succ_of_ne_zero (Nat.ne_zero_of_lt hle)
      have hless : fuel ≤ fuel' := Nat.le_of_succ_le_succ hle
      refine (h.eat _).bind_eq fun eaten => ?_
      cases eaten with
      | true => exact (hinner hpending).bind fun _ _ hnext => ih hless hnext
      | false =>
          refine h.current?.bind_eq fun current => ?_
          cases startsStatement current with
          | true =>
              exact (h.expected _).bind_eq fun _ =>
                (hinner hpending).bind fun _ _ hnext => ih hless hnext
          | false => exact .pure hpending

/-- A `BEGIN` block. -/
theorem compound :
    L.Follows L.Jumps (compound inner fuel pending) (compound inner' fuel' pending') :=
  h.advance.bind_eq fun _ => (hinner hpending).bind fun _ _ hfirst =>
    (h.sequence hle hinner hfirst).bind fun _ _ hnext => (h.expect _).bind_eq fun _ => .pure hnext

/-- What stands at the start of a statement decides which of the procedures is called, and it is
the same in both runs. -/
theorem construct :
    L.Follows L.Jumps (construct inner fuel pending) (construct inner' fuel' pending') := by
  refine h.current?.bind_eq fun current => ?_
  split
  · exact h.assignment hle _ hpending
  · exact h.choice hle hinner hpending
  · exact h.loop hle hinner hpending
  · exact h.compound hle hinner hpending
  · exact .pure hpending
  · exact .pure hpending
  · exact .pure hpending
  · exact (h.expected _).bind_eq fun _ => h.advance.bind_eq fun _ => .pure hpending

end

/-- A statement with two budgets, by induction on the first one. The level is left in both runs,
whatever came of the construct; a fault of leaving it is excused. -/
theorem statement {fuel fuel' : Nat} (hle : fuel ≤ fuel') {pending pending' : JumpList}
    (hpending : L.Jumps pending pending') :
    L.Follows L.Jumps (statement fuel pending) (statement fuel' pending') := by
  induction fuel generalizing fuel' pending pending' with
  | zero => exact .throw h.outOfFuel
  | succ fuel ih =>
      obtain ⟨fuel', rfl⟩ := Nat.exists_eq_succ_of_ne_zero (Nat.ne_zero_of_lt hle)
      have hless : fuel ≤ fuel' := Nat.le_of_succ_le_succ hle
      refine h.descend.bind_eq fun entered => ?_
      cases entered with
      | true =>
          -- The level is left finally, and the only fault of that is excused.
          exact (h.construct hless (ih hless) hpending).ensure h.ascend
            fun _ => ends_ascend_of_fault h.unbalancedNesting
      | false => exact .pure hpending

/-! ### Declarations and programs -/

/-- A declared name, with the lines at which the two runs found it. -/
theorem declaration? (what : String) (kind : SymbolKind) :
    L.Follows Eq (declaration? what kind) (declaration? what kind) := by
  refine h.line.bind fun start start' hstart => (h.ident? what).bind_eq fun name? => ?_
  cases name? with
  | none => exact .pure rfl
  | some name => exact (h.declare name kind hstart).bind_eq fun _ => .pure rfl

/-- Both runs answer the same number, or both report that there is none. -/
theorem number? : L.Follows Eq number? number? := by
  refine h.current?.bind_eq fun current => ?_
  split
  · exact h.advance.bind_eq fun _ => .pure rfl
  · exact (h.expected _).bind_eq fun _ => .pure rfl

/-- The definition of a constant emits the same assignment in both runs, or none. -/
theorem definition : L.Follows Eq definition definition := by
  refine (h.declaration? _ _).bind_eq fun name? => h.expectBecomes.bind_eq fun _ =>
    h.number?.bind_eq fun value? => ?_
  split
  · exact (h.emit (.assign _ _)).bind fun _ _ _ => .pure rfl
  · exact .pure rfl

/-- Items between commas, by induction on the first budget. -/
theorem items {item : Generate Unit} (hitem : L.Follows Eq item item) {fuel fuel' : Nat}
    (hle : fuel ≤ fuel') : L.Follows Eq (items item fuel) (items item fuel') := by
  induction fuel generalizing fuel' with
  | zero => exact .throw h.outOfFuel
  | succ fuel ih =>
      obtain ⟨fuel', rfl⟩ := Nat.exists_eq_succ_of_ne_zero (Nat.ne_zero_of_lt hle)
      refine hitem.bind_eq fun _ => (h.eat _).bind_eq fun eaten => ?_
      split
      · exact ih (Nat.le_of_succ_le_succ hle)
      · exact .pure rfl

/-- A section of declarations keeps the runs in step if its items do. -/
theorem declarationSection {item : Generate Unit} (hitem : L.Follows Eq item item)
    {fuel fuel' : Nat} (hle : fuel ≤ fuel') :
    L.Follows Eq (declarationSection item fuel) (declarationSection item fuel') :=
  h.advance.bind_eq fun _ => (h.items hitem hle).bind_eq fun _ => h.expect _

/-- All sections of declarations, by induction on the first budget. -/
theorem declarations {fuel fuel' : Nat} (hle : fuel ≤ fuel') :
    L.Follows Eq (declarations fuel) (declarations fuel') := by
  induction fuel generalizing fuel' with
  | zero => exact .throw h.outOfFuel
  | succ fuel ih =>
      -- The second budget is not less than the first, so it is not used up either.
      obtain ⟨fuel', rfl⟩ := Nat.exists_eq_succ_of_ne_zero (Nat.ne_zero_of_lt hle)
      have hless : fuel ≤ fuel' := Nat.le_of_succ_le_succ hle
      have hvariable : L.Follows Eq variableName variableName :=
        (h.declaration? _ _).bind_eq fun _ => .pure rfl
      refine h.current?.bind_eq fun current => ?_
      split
      · exact (h.declarationSection h.definition hless).bind_eq fun _ => ih hless
      · exact (h.declarationSection hvariable hless).bind_eq fun _ => ih hless
      · exact .pure rfl

/-- What stands behind the header of a program. -/
theorem body (name? : Option String) {fuel fuel' budget budget' : Nat} (hle : fuel ≤ fuel')
    (hbudget : budget ≤ budget') :
    L.Follows Eq (body name? fuel budget) (body name? fuel' budget') :=
  (h.declarations hle).bind_eq fun _ => (h.statement hbudget .nil).bind fun _ _ hnext =>
    h.expectEnd.bind_eq fun _ => (h.backpatchHere hnext).bind fun _ _ _ =>
      h.checkResolved.bind_eq fun _ => .pure rfl

/-- **Two runs of the generator stay in step** if the shared steps do. -/
theorem program {fuel fuel' : Nat} (hle : fuel ≤ fuel') :
    L.Follows Eq (program fuel) (program fuel') :=
  h.checkNumber.bind_eq fun _ => (h.expect _).bind_eq fun _ => (h.ident? _).bind_eq fun _ =>
    h.body _ hle hle

end Steady

end Lockstep

end ThreeAddress.Generate
