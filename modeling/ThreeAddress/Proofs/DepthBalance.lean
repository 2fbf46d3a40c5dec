import ThreeAddress.Proofs.Activations
import ThreeAddress.Proofs.JumpBookkeeping

/-!
# Levels that are entered are left

Entering and leaving a level are procedures of their own, and nothing else changes the depth. So a
bound where procedures are called, where they have a result and where they end in a fault is one
for every point of a run.

`program_balances_depth` is about whole runs: the depth is within the limit everywhere, a level is
open wherever one is left, and in the end all are left. A fault leaves the levels of expressions
open and closes those of statements, one for each statement around it, and each of these steps
finds a level that is open. The parts of the result are the fields of `BalancesDepth`.
-/

set_option autoImplicit false

namespace ThreeAddress.Generate

/-- Levels are entered and left in pairs in the run for an input, and never more than the limit
allows. -/
structure BalancesDepth (options : Options) (input : TokenStream) : Prop where
  statement (fuel : Nat) (pending : JumpList) : Balanced options (Generate.statement fuel pending)
  compound (fuel : Nat) (pending : JumpList) :
    Balanced options (Generate.compound (Generate.statement fuel) fuel pending)
  choice (fuel : Nat) (pending : JumpList) :
    Balanced options (Generate.choice (Generate.statement fuel) fuel pending)
  loop (fuel : Nat) (pending : JumpList) :
    Balanced options (Generate.loop (Generate.statement fuel) fuel pending)
  condition (fuel : Nat) : Balanced options (Generate.condition fuel)
  expression (fuel : Nat) : Balanced options (Generate.expression fuel)
  term (fuel : Nat) : Balanced options (Generate.term (Generate.expression fuel) fuel)
  factor (fuel : Nat) : Balanced options (Generate.factor (Generate.expression fuel))
  /-- Where a procedure is called, no more levels are open than the limit allows. -/
  called (p : Procedure) (s : State) (h : Activation options input (p, s)) :
    s.depth ≤ options.maxDepth.toNat
  /-- Nor are they where it has a result. -/
  answered (p : Procedure) (s : State) (h : Activation options input (p, s)) (a : p.Args)
    (r : p.Result) (t : State) (hrun : procedures p a options s = .ok r t) :
    t.depth ≤ options.maxDepth.toNat
  /-- Nor are they where it ends in a fault, and then the levels around it are still open. -/
  broken (p : Procedure) (s : State) (h : Activation options input (p, s)) (a : p.Args)
    (fault : Fault) (t : State) (hrun : procedures p a options s = .error fault t) :
    s.depth ≤ t.depth ∧ t.depth ≤ options.maxDepth.toNat
  /-- Only a level that is open is left, behind a fault too. -/
  ascend (s : State) (h : Activation options input (.ascend, s)) : 1 ≤ s.depth
  /-- So it is left without a fault. -/
  left (s : State) (h : Activation options input (.ascend, s)) :
    Generate.ascend options s = .ok () { s with depth := s.depth - 1 }
  /-- In the end all levels are left. -/
  final (fuel : Nat) (name? : Option String) (t : State)
    (h : program fuel options (.start options input) = .ok name? t) : t.depth = 0
  /-- A run that ends in a fault is within the limit, too. -/
  aborted (fuel : Nat) (fault : Fault) (t : State)
    (h : program fuel options (.start options input) = .error fault t) :
    t.depth ≤ options.maxDepth.toNat
  /-- A level that is not open is never left. -/
  noFault (fuel : Nat) (hfuel : input.tokens.length + 2 ≤ fuel) (t : State) :
    program fuel options (.start options input) ≠ .error .unbalancedNesting t

/-- What a run can reach from within the limit is within the limit. -/
theorem Reached.depth_le_limit {options : Options} {s t : State} (h : Reached options s t)
    (hle : s.depth ≤ options.maxDepth.toNat) : t.depth ≤ options.maxDepth.toNat := by
  have hlimit := h.depth_le
  omega

/-- The depth at a call is within the limit. The induction is on the calls: each is reached by its
caller. -/
theorem Activation.depth_le {options : Options} {input : TokenStream} {x : Procedure × State}
    (h : Activation options input x) : x.2.depth ≤ options.maxDepth.toNat := by
  induction h with
  | refl => exact Nat.zero_le _
  | tail hprev hcall ih =>
      have hactive : Activation options input _ := hprev
      exact (hactive.inside hcall).toReached.depth_le_limit ih

/-- A procedure has its result within the limit if it was called within it. -/
theorem After.depth_le {options : Options} {p : Procedure} {s t : State} {r : p.Result}
    (h : After options s p r t) (hle : s.depth ≤ options.maxDepth.toNat) :
    t.depth ≤ options.maxDepth.toNat := by
  cases p with
  | descend =>
      cases r with
      -- This is the one step that opens a level, and it looks at the limit first.
      | true =>
          obtain ⟨hlt, rfl⟩ := h
          exact hlt
      | false =>
          rw [Progress.depth h]
          exact hle
  | ascend =>
      obtain rfl := h
      exact Nat.le_trans (Nat.sub_le _ _) hle
  | _ =>
      rw [Progress.depth h]
      exact hle

/-- **The accounting of levels is balanced.** -/
theorem program_balances_depth (options : Options) (input : TokenStream) :
    BalancesDepth options input := by
  have hkeeps := compositional_balanced options
  have hprogram (fuel : Nat) : Alike _ options _ (program fuel) _ _ _ :=
    bounded_alike (Procedure.ready_program (.start options input)) fuel fuel ()
  exact {
    statement := hkeeps.statement
    compound := fun fuel => hkeeps.compound (hkeeps.statement fuel) fuel
    choice := fun fuel => hkeeps.choice (hkeeps.statement fuel) fuel
    loop := fun fuel => hkeeps.loop (hkeeps.statement fuel) fuel
    condition := hkeeps.condition
    expression := hkeeps.expression
    term := fun fuel => hkeeps.term (hkeeps.expression fuel) fuel
    factor := fun fuel => hkeeps.factor (hkeeps.expression fuel)
    called := fun p s h => h.depth_le
    answered := fun p s h a r t hrun =>
      After.depth_le ((procedures_alike h.ready a).ok hrun) h.depth_le
    broken := fun p s h a fault t hrun => by
      have hfailed := (procedures_alike h.ready a).error hrun
      exact ⟨hfailed.open_le, hfailed.toReached.depth_le_limit h.depth_le⟩
    ascend := fun s h => h.ready.entered rfl
    left := fun s h => by
      obtain ⟨depth, hdepth⟩ := Nat.exists_eq_succ_of_ne_zero (Nat.ne_of_gt (h.ready.entered rfl))
      -- Here the depth is positive, so one less is one level less.
      rw [ascend_run hdepth, hdepth]
      rfl
    final := fun fuel name? t h => by
      have hafter : After options (.start options input) .program name? t := (hprogram fuel).ok h
      exact Progress.depth hafter
    aborted := fun fuel fault t h =>
      ((hprogram fuel).error h).toReached.depth_le_limit (Nat.zero_le _)
    -- With this budget the only fault is that there is no further address.
    noFault := fun fuel hfuel t herror => nomatch fault_of_program hfuel herror }

/-- There is no address for the assignment. The level of the statement is left behind this fault,
and then no level is open. -/
theorem program_balances_depth_fault :
    ∃ s, Activation { firstAddress := 18446744073709551615 } (scan "PROGRAM p VAR x; x := 1")
        (.ascend, s) ∧ 1 ≤ s.depth ∧
      (match program 9 { firstAddress := 18446744073709551615 }
          (.start { firstAddress := 18446744073709551615 } (scan "PROGRAM p VAR x; x := 1")) with
        | .ok _ _ => none
        | .error fault t => some (fault, t.depth))
        = some (.addressOverflow 18446744073709551615, 0) := by
  have hprogram : Calls { firstAddress := 18446744073709551615 }
      (.program, .start { firstAddress := 18446744073709551615 } (scan "PROGRAM p VAR x; x := 1"))
      (.statement, { State.start { firstAddress := 18446744073709551615 }
          ⟨[⟨.ident "x", 1⟩, ⟨.punct .becomes, 1⟩, ⟨.number "1", 1⟩], 1⟩ with
        symbols := ⟨#[⟨"x", .var, 1⟩]⟩ }) :=
    calls_of_stopped () (by decide +kernel)
  have hleave : Calls { firstAddress := 18446744073709551615 }
      (.statement, { State.start { firstAddress := 18446744073709551615 }
          ⟨[⟨.ident "x", 1⟩, ⟨.punct .becomes, 1⟩, ⟨.number "1", 1⟩], 1⟩ with
        symbols := ⟨#[⟨"x", .var, 1⟩]⟩ })
      (.ascend, { State.start { firstAddress := 18446744073709551615 } ⟨[], 1⟩ with
        symbols := ⟨#[⟨"x", .var, 1⟩]⟩, depth := 1 }) :=
    calls_of_stopped .empty (by decide +kernel)
  have hactive := (Relation.ReflTransGen.single hprogram).tail hleave
  have hbalance := program_balances_depth { firstAddress := 18446744073709551615 }
    (scan "PROGRAM p VAR x; x := 1")
  exact ⟨_, hactive, hbalance.ascend _ hactive, by decide +kernel⟩

end ThreeAddress.Generate
