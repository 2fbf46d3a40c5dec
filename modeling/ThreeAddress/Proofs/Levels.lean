import ThreeAddress.Proofs.Compositional

/-!
# Levels that are entered and left

A statement and an expression are a level each. A level is entered by one step and left by another
one, and there are ways out between them: the level can be refused, and a fault can end the run
inside. The level of a statement is left behind a fault, too, and that of an expression is not.

* `Balanced` says that an action leaves the levels that it enters and no other, and that a fault
  ends it in no more levels than the limit allows. It holds of every procedure
  (`compositional_balanced`).
* `OwnLevel` says what a construct with a level of its own does: its body one level further in, or
  nothing where no level is left. This is how expressions and statements end
  (`expression_ownLevel`, `statement_ownLevel`), and from here on nobody has to look at how they
  enter and leave their level.
-/

set_option autoImplicit false

namespace ThreeAddress.Generate

/-! ### Where a run can come to -/

/-- From `s` a run came to `t`: it read on, the levels around it are still open, and those that it
entered are within the limit. -/
structure Reached (options : Options) (s t : State) : Prop where
  left : t.input.tokens <:+ s.input.tokens
  open_le : s.depth ≤ t.depth
  depth_le : t.depth ≤ max s.depth options.maxDepth.toNat

namespace Reached
variable {options : Options} {s t u : State}

/-- Where neither the input nor the depth is changed, nothing is left to show. -/
theorem of_eq (hinput : t.input = s.input) (hdepth : t.depth = s.depth) : Reached options s t := by
  refine ⟨?_, Nat.le_of_eq hdepth.symm, ?_⟩
  · simp only [hinput, List.suffix_rfl]
  · simp only [hdepth, Nat.le_max_left]

/-- One part of a run after the other. -/
theorem trans (h : Reached options s t) (h' : Reached options t u) : Reached options s u := by
  refine ⟨h'.left.trans h.left, Nat.le_trans h.open_le h'.open_le, ?_⟩
  have hfirst := h.depth_le
  have hsecond := h'.depth_le
  omega

/-- Moving on reads a token, if there is one. -/
theorem advance (s : State) (options : Options) (maxDigits : Nat) :
    Reached options s (s.advance maxDigits) := by
  refine ⟨?_, Nat.le_of_eq (State.depth_advance _ _).symm, ?_⟩
  · rw [State.input_advance]
    exact List.tail_suffix _
  · rw [State.depth_advance]
    exact Nat.le_max_left _ _

/-- A level that the limit allows is entered. -/
theorem enter (h : s.depth < options.maxDepth.toNat) :
    Reached options s { s with depth := s.depth + 1 } :=
  ⟨List.suffix_rfl, Nat.le_succ _, Nat.le_trans h (Nat.le_max_right _ _)⟩

/-- A construct that is refused is skipped. -/
theorem refuse (s : State) (options : Options) : Reached options s (s.refuse options) := by
  refine ⟨?_, Nat.le_of_eq (State.depth_refuse s options).symm, ?_⟩
  · rw [State.refuse, State.input_skip, (State.noteDepth_keeps _ _).1]
    exact List.drop_suffix _ _
  · rw [State.depth_refuse]
    exact Nat.le_max_left _ _

/-- What is reached inside of a level is reached from outside of it, once one level is left. -/
theorem leave (h : Reached options { s with depth := s.depth + 1 } t)
    (hlt : s.depth < options.maxDepth.toNat) {depth : Nat} (hdepth : t.depth = depth + 1) :
    Reached options s { t with depth } := by
  have hopen : s.depth + 1 ≤ t.depth := h.open_le
  have hlimit : t.depth ≤ max (s.depth + 1) options.maxDepth.toNat := h.depth_le
  refine ⟨h.left, ?_, ?_⟩
  · show s.depth ≤ depth
    omega
  · show depth ≤ max s.depth options.maxDepth.toNat
    omega

end Reached

/-! ### Actions that leave what they enter -/

/-- Leaving a level that was entered. -/
theorem ascend_run {options : Options} {s : State} {depth : Nat} (h : s.depth = depth + 1) :
    ascend options s = .ok () { s with depth } := by
  unfold ascend
  rw [get_bind_run, h]
  rfl

/-- An action that leaves each level it enters, and no other. A fault may end it inside of levels
that it has entered, but those around it are still open. -/
def Balanced (options : Options) {α : Type} (x : Generate α) : Prop :=
  ∀ s, match x options s with
    | .ok _ t => Reached options s t ∧ t.depth = s.depth
    | .error _ t => Reached options s t

section
variable {α : Type} {options : Options} {s t : State} {x body : Generate α}

/-- Where a balanced action ends well, as many levels are open as before. -/
theorem Balanced.ok (h : Balanced options x) {a : α} (hrun : x options s = .ok a t) :
    Reached options s t ∧ t.depth = s.depth := by
  have hend := h s
  rw [hrun] at hend
  exact hend

/-- Where a balanced action ends in a fault, the levels around it are open. -/
theorem Balanced.error (h : Balanced options x) {fault : Fault}
    (hrun : x options s = .error fault t) : Reached options s t := by
  have hend := h s
  rw [hrun] at hend
  exact hend

/-- An action that never fails only has to read on and to leave the depth as it is. -/
theorem Balanced.of_ends
    (h : ∀ s, Ends (fun _ => False) x options s fun _ t =>
      Reached options s t ∧ t.depth = s.depth) : Balanced options x := by
  intro s
  have hends := h s
  unfold Ends at hends
  cases hrun : x options s with
  | ok a t =>
      rw [hrun] at hends
      exact hends
  | error fault t =>
      rw [hrun] at hends
      exact hends.elim

/-- Work on the code reads nothing and leaves the depth as it is. -/
theorem Balanced.onCode (action : EStateM Fault Store α) : Balanced options (onCode action) := by
  intro s
  unfold Generate.onCode
  cases action s.code with
  | ok a code => exact ⟨.of_eq rfl rfl, rfl⟩
  | error fault code => exact .of_eq rfl rfl

/-- A level is left where its body has a value. -/
theorem Balanced.level (hbody : Balanced options body) (otherwise : α) :
    Balanced options (level body otherwise) := by
  intro s
  rw [Generate.level, bind_run, descend_run]
  by_cases hlt : s.depth < options.maxDepth.toNat
  · rw [if_pos hlt]
    dsimp only
    rw [if_pos rfl, bind_run]
    cases hrun : body options { s with depth := s.depth + 1 } with
    | ok a t =>
        obtain ⟨hreached, hdepth⟩ := hbody.ok hrun
        dsimp only
        -- The body left what it entered, so the level that is left here is the one entered
        -- above.
        rw [bind_run, ascend_run hdepth]
        exact ⟨hreached.leave hlt hdepth, rfl⟩
    | error fault t => exact (Reached.enter hlt).trans (hbody.error hrun)
  · rw [if_neg hlt]
    exact ⟨.refuse s options, State.depth_refuse s options⟩

/-- A level is left in any case. Behind a fault further levels may still be open, and this closes
the innermost one of them. -/
theorem Balanced.levelFinally (hbody : Balanced options body) (otherwise : α) :
    Balanced options (levelFinally body otherwise) := by
  intro s
  rw [Generate.levelFinally, bind_run, descend_run]
  by_cases hlt : s.depth < options.maxDepth.toNat
  · rw [if_pos hlt]
    dsimp only
    rw [if_pos rfl, tryFinally_run]
    cases hrun : body options { s with depth := s.depth + 1 } with
    | ok a t =>
        obtain ⟨hreached, hdepth⟩ := hbody.ok hrun
        dsimp only
        rw [ascend_run hdepth]
        exact ⟨hreached.leave hlt hdepth, rfl⟩
    | error fault t =>
        -- The depth is not known here, only that it did not fall below that of the level.
        have hreached := hbody.error hrun
        obtain ⟨depth, hdepth⟩ := Nat.exists_eq_add_of_le' (Nat.le_trans (Nat.le_add_left 1 _)
          hreached.open_le)
        dsimp only
        rw [ascend_run hdepth]
        exact hreached.leave hlt hdepth
  · rw [if_neg hlt]
    exact ⟨.refuse s options, State.depth_refuse s options⟩

end

/-- **Every procedure leaves the levels that it enters.** -/
theorem compositional_balanced (options : Options) : Compositional (Balanced options) where
  pure a s := ⟨.of_eq rfl rfl, rfl⟩
  -- A fault of the second part is one of the whole, reached through the end of the first.
  bind {α β x f} hx hf s := by
    rw [bind_run]
    cases hrun : x options s with
    | ok a t =>
        obtain ⟨hreached, hdepth⟩ := hx.ok hrun
        dsimp only
        cases hrest : f a options t with
        | ok b u =>
            obtain ⟨hreached', hdepth'⟩ := (hf a).ok hrest
            exact ⟨hreached.trans hreached', hdepth'.trans hdepth⟩
        | error fault u => exact hreached.trans ((hf a).error hrest)
    | error fault t => exact hx.error hrun
  outOfFuel s := .of_eq rfl rfl
  current? s := ⟨.of_eq rfl rfl, rfl⟩
  advance s := ⟨.advance s options _, State.depth_advance _ _⟩
  expected what s := ⟨.of_eq rfl rfl, rfl⟩
  -- What follows never fails, so only the end of the run is looked at.
  checkOperand name := .of_ends fun s => by
    simp only [checkOperand, ends_bind, ends_get]
    split
    · exact ⟨.of_eq rfl rfl, rfl⟩
    · exact ⟨.of_eq rfl rfl, rfl⟩
  target name := .of_ends fun s => by
    have hread := Reached.advance s options options.maxDigits.toNat
    have hdepth := State.depth_advance s options.maxDigits.toNat
    simp only [target, ends_bind, ends_line, ends_advance, checkTarget, ends_get]
    split
    · exact ⟨hread, hdepth⟩
    · exact ⟨hread.trans (.of_eq rfl rfl), hdepth⟩
    · exact ⟨hread.trans (.of_eq rfl rfl), hdepth⟩
  declaration? what kind := .of_ends fun s => by
    simp only [declaration?, ident?, ends_bind, ends_line, ends_current?]
    split
    · have hread := Reached.advance s options options.maxDigits.toNat
      have hdepth := State.depth_advance s options.maxDigits.toNat
      simp only [ends_bind, ends_advance, ends_pure, declare, ends_get]
      split
      · exact ⟨hread.trans (.of_eq rfl rfl), hdepth⟩
      · exact ⟨hread.trans (.of_eq rfl rfl), hdepth⟩
    · exact ⟨.of_eq rfl rfl, rfl⟩
  emit instruction := .onCode (Store.emit instruction)
  backpatch list address := .onCode (list.backpatch address)
  nextAddress s := ⟨.of_eq rfl rfl, rfl⟩
  freshTemp s := ⟨.of_eq rfl rfl, rfl⟩
  level otherwise hbody := hbody.level otherwise
  levelFinally otherwise hbody := hbody.levelFinally otherwise

/-! ### Constructs with a level of their own -/

/-- `x` is `body` one level further in. Where no level is left, the construct is refused and
`otherwise` is answered. -/
def OwnLevel (options : Options) {α : Type} (x body : Generate α) (otherwise : α) : Prop :=
  ∀ (E : Fault → Prop) (s : State) (Q : α → State → Prop),
    Ends E x options s Q ↔
      if s.depth < options.maxDepth.toNat then
        Ends E body options { s with depth := s.depth + 1 } fun a t =>
          Q a { t with depth := s.depth }
      else Q otherwise (s.refuse options)

section
variable {α : Type} {options : Options} {body : Generate α}

/-- A level that is left where its body has a value. -/
theorem Balanced.ownLevel (hbody : Balanced options body) (otherwise : α) :
    OwnLevel options (Generate.level body otherwise) body otherwise := by
  intro E s Q
  rw [Generate.level, ends_bind, ends_descend]
  split
  · rw [if_pos rfl, ends_bind]
    unfold Ends
    cases hrun : body options { s with depth := s.depth + 1 } with
    | ok a t =>
        -- The depth behind the body is one more than that of `s`, whatever the body did in
        -- between.
        dsimp only
        rw [bind_run, ascend_run (hbody.ok hrun).2]
        rfl
    | error fault t => rfl
  · rw [if_neg Bool.false_ne_true, ends_pure]

/-- A level that is left in any case. To leave it never fails, so each fault is one of the
body. -/
theorem Balanced.ownLevel_finally (hbody : Balanced options body) (otherwise : α) :
    OwnLevel options (Generate.levelFinally body otherwise) body otherwise := by
  intro E s Q
  rw [Generate.levelFinally, ends_bind, ends_descend]
  split
  · rw [if_pos rfl]
    unfold Ends
    rw [tryFinally_run]
    cases hrun : body options { s with depth := s.depth + 1 } with
    | ok a t =>
        dsimp only
        rw [ascend_run (hbody.ok hrun).2]
    | error fault t =>
        -- `Ends` asks nothing of the state behind a fault, so it is enough that leaving
        -- succeeds.
        obtain ⟨depth, hdepth⟩ := Nat.exists_eq_add_of_le' (Nat.le_trans (Nat.le_add_left 1 _)
          (hbody.error hrun).open_le)
        dsimp only
        rw [ascend_run hdepth]
  · rw [if_neg Bool.false_ne_true, ends_pure]

end

/-- **An expression has a level of its own.** -/
theorem expression_ownLevel (options : Options) (fuel : Nat) :
    OwnLevel options (expression (fuel + 1))
      (signedTerm (expression fuel) fuel >>= chain sumOp? (term (expression fuel) fuel) fuel)
      missing := by
  have hkeeps := compositional_balanced options
  have hinner := hkeeps.expression fuel
  have hlevel := (hkeeps.bind (hkeeps.signedTerm hinner fuel) fun first =>
    hkeeps.chain sumOp? (hkeeps.term hinner fuel) fuel first).ownLevel missing
  rw [level] at hlevel
  simp only [bind_assoc] at hlevel
  exact hlevel

/-- **A statement has a level of its own.** -/
theorem statement_ownLevel (options : Options) (fuel : Nat) (pending : JumpList) :
    OwnLevel options (statement (fuel + 1) pending) (construct (statement fuel) fuel pending)
      pending := by
  have hkeeps := compositional_balanced options
  exact (hkeeps.construct (hkeeps.statement fuel) fuel pending).ownLevel_finally pending

end ThreeAddress.Generate
