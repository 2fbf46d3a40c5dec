import ThreeAddress.Proofs.Activations
import ThreeAddress.Proofs.JumpBookkeeping

/-!
# The generator terminates because it reads

Several procedures can end without having read anything: a factor that is missing, an empty
statement, a lexeme that was expected in vain, a construct that is skipped and has no token. Still,
no procedure comes about again inside of itself before a token was read. A round of a loop counts
as a call of the loop inside of itself, so a loop has no further round before a token was read.

The limit on nesting plays no part in this. `program_terminates` is the result, and its parts are
the fields of `TerminatesByReading`.
-/

set_option autoImplicit false

namespace ThreeAddress.Generate

/-- The run for an input ends because tokens are read, whatever the limit on nesting is. -/
structure TerminatesByReading (options : Options) (input : TokenStream) : Prop where
  /-- Without a budget the procedures satisfy their recursion equations. -/
  equation (p : Procedure) (s : State) (h : Activation options input (p, s)) (a : p.Args) :
    procedures p a options s = perform procedures p a options s
  /-- A call reads nothing back, and one behind which nothing was read yet goes to a procedure of
  a lower rank. -/
  call (p q : Procedure) (s t : State) (h : Activation options input (p, s))
    (hcall : Calls options (p, s) (q, t)) :
    t.input.tokens <:+ s.input.tokens ∧
      (t.input.tokens = s.input.tokens → q.rank < p.rank)
  /-- Where a procedure comes about again inside of itself, or a loop goes on to another round, at
  least one token was read. -/
  again (p : Procedure) (s t : State) (h : Activation options input (p, s))
    (hagain : Relation.TransGen (Calls options) (p, s) (p, t)) :
    t.input.tokens <:+ s.input.tokens ∧ t.input.tokens.length < s.input.tokens.length
  /-- There is no infinite sequence of calls inside each other. -/
  wellFounded : WellFounded fun inner outer =>
    Activation options input outer ∧ Calls options outer inner
  /-- Whatever its budget is, a procedure does the same as without one or uses the budget up. -/
  budget (p : Procedure) (s : State) (h : Activation options input (p, s)) (fuel rounds : Nat)
    (a : p.Args) :
    bounded fuel rounds p a options s = procedures p a options s ∨
      ∃ t, bounded fuel rounds p a options s = .error .outOfFuel t
  /-- A budget of two more than there are tokens is not used up. -/
  enough (fuel : Nat) (h : input.tokens.length + 2 ≤ fuel) :
    program fuel options (.start options input)
        = procedures .program () options (.start options input) ∧
      ∀ t, program fuel options (.start options input) ≠ .error .outOfFuel t

section
variable {options : Options} {input : TokenStream} {outer inner : Procedure × State}

/-- What is known of calls inside each other. -/
theorem Activation.transGen (h : Activation options input outer)
    (hcalls : Relation.TransGen (Calls options) outer inner) :
    inner.2.input.tokens <:+ outer.2.input.tokens ∧
      weight inner.1 inner.2 < weight outer.1 outer.2 := by
  induction hcalls with
  | single hcall =>
      have hinside := h.inside hcall
      exact ⟨hinside.left, hinside.smaller⟩
  | tail hcalls hcall ih =>
      -- The call in the middle is an activation itself, so the next one is inside of it.
      have hmiddle : Activation options input _ := h.trans hcalls.to_reflTransGen
      have hinside := hmiddle.inside hcall
      exact ⟨hinside.left.trans ih.1, Nat.lt_trans hinside.smaller ih.2⟩

end

/-- **The generator terminates because it reads.** -/
theorem program_terminates (options : Options) (input : TokenStream) :
    TerminatesByReading options input where
  equation p s h a := procedures_eq_perform h.ready a
  call p q s t h hcall := by
    have hinside := h.inside hcall
    refine ⟨hinside.left, fun hsame => ?_⟩
    have hsmaller := hinside.smaller
    -- With the same tokens left, only the rank can have become less.
    simp only [weight, hsame] at hsmaller
    omega
  again p s t h hagain := by
    obtain ⟨hleft, hsmaller⟩ := h.transGen hagain
    refine ⟨hleft, ?_⟩
    -- The procedure and so its rank are the same, so it must be the tokens.
    simp only [weight] at hsmaller
    omega
  wellFounded := by
    have hweight : WellFounded fun inner outer : Procedure × State =>
        weight inner.1 inner.2 < weight outer.1 outer.2 :=
      InvImage.wf (fun x : Procedure × State => weight x.1 x.2) Nat.lt_wfRel.wf
    refine Subrelation.wf ?_ hweight
    rintro inner outer ⟨hactive, hcall⟩
    exact (hactive.inside hcall).smaller
  budget p s h fuel rounds a := by
    rcases (bounded_alike h.ready fuel rounds a).same with hsame | ⟨fault, t, herror, rfl⟩
    · exact .inl hsame
    · exact .inr ⟨t, herror⟩
  enough fuel hfuel := by
    -- A fault of a run with this budget is that there is no further address, so the budget is
    -- not used up.
    have hnot : ∀ t, program fuel options (.start options input) ≠ .error .outOfFuel t :=
      fun t herror => nomatch fault_of_program hfuel herror
    refine ⟨?_, hnot⟩
    have hready := Procedure.ready_program (.start options input)
    rcases (bounded_alike hready fuel fuel ()).same with hsame | ⟨fault, t, herror, rfl⟩
    · exact hsame
    · exact absurd herror (hnot t)

/-- The statement inside a block comes about inside the statement that is the block, behind
`BEGIN`. -/
theorem program_terminates_block :
    ∃ s t, Activation {} (scan "PROGRAM p BEGIN") (.statement, s) ∧
      Relation.TransGen (Calls {}) (.statement, s) (.statement, t) ∧
      t.input.tokens.length < s.input.tokens.length := by
  have hprogram : Calls {} (.program, .start {} (scan "PROGRAM p BEGIN"))
      (.statement, .start {} ⟨[⟨.keyword .beginKw, 1⟩], 1⟩) :=
    calls_of_stopped () (by decide +kernel)
  have hblock : Calls {} (.statement, .start {} ⟨[⟨.keyword .beginKw, 1⟩], 1⟩)
      (.compound, { State.start {} ⟨[⟨.keyword .beginKw, 1⟩], 1⟩ with depth := 1 }) :=
    calls_of_stopped .empty (by decide +kernel)
  have hinner : Calls {}
      (.compound, { State.start {} ⟨[⟨.keyword .beginKw, 1⟩], 1⟩ with depth := 1 })
      (.statement, { State.start {} ⟨[], 1⟩ with depth := 1 }) :=
    calls_of_stopped .empty (by decide +kernel)
  have hactive := Relation.ReflTransGen.single hprogram
  have hcalls := (Relation.TransGen.single hblock).tail hinner
  exact ⟨_, _, hactive, hcalls,
    ((program_terminates {} (scan "PROGRAM p BEGIN")).again _ _ _ hactive hcalls).2⟩

end ThreeAddress.Generate
