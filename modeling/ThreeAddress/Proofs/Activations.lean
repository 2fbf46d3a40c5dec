import Mathlib.Logic.Relation
import ThreeAddress.Proofs.Levels
import ThreeAddress.Proofs.Procedures

/-!
# Which calls come about

An activation is a procedure with the state in which it was called. `Calls` says that one
activation calls another: what the first does depends on what the second does. A call that is
really made is of this kind, for if it ended in another fault than before, so would the caller.
That holds of the calls behind a fault, too: where the construct of a statement ended in a fault,
the level of the statement is left, and a fault of this step would take the place of the first.

Every call is `Inside` of its caller. It starts on what the caller has left to read, no level that
was open at the caller is left, and its weight is less. The weight counts the tokens that are left.
Of two procedures that are called at the same token, the one that is called has the lower rank.

* `performsAlike_of_calls`: what a procedure does depends on the calls inside of it and on no
  others. There is one lemma for each procedure, and each follows its run step by step.
* `procedures`: the recursion equations, unfolded as often as the weight asks for.
* `procedures_eq_perform`: they satisfy the equations, where nothing bounds the recursion.
* `bounded_alike`: the procedures as they are defined do the same, or a budget is used up.
* `inside_of_calls`: every call is inside of its caller.
-/

set_option autoImplicit false

namespace ThreeAddress.Generate

/-! ### How far a run has come -/

/-- From `s` a run came to `t`: it read at least `count` tokens, and so many levels are open
at `t`. -/
structure Progress (options : Options) (s : State) (count depth : Nat) (t : State) : Prop
    extends Reached options s t where
  read : t.input.tokens.length + count ≤ s.input.tokens.length
  depth : t.depth = depth

namespace Progress
variable {options : Options} {s t u : State} {count depth : Nat}

/-- Where neither the input nor the depth is changed, nothing is left to show. -/
theorem of_eq (hinput : t.input = s.input) (hdepth : t.depth = s.depth) :
    Progress options s 0 s.depth t := by
  refine ⟨.of_eq hinput hdepth, ?_, hdepth⟩
  simp only [hinput, Nat.add_zero, Nat.le_refl]

/-- A run starts where it is. -/
theorem start (s : State) : Progress options s 0 s.depth s := .of_eq rfl rfl

/-- A run that leaves what it enters reads on. -/
theorem of_reached (h : Reached options s t) (hdepth : t.depth = s.depth) :
    Progress options s 0 s.depth t :=
  ⟨h, h.left.length_le, hdepth⟩

/-- Less is claimed of what was read. -/
theorem mono {fewer : Nat} (h : Progress options s count depth t) (hle : fewer ≤ count) :
    Progress options s fewer depth t :=
  ⟨h.toReached, Nat.le_trans (Nat.add_le_add_left hle _) h.read, h.depth⟩

/-- What is read in one part of a run and in the next adds up. -/
theorem trans {more : Nat} (h : Progress options s count depth t)
    (h' : Progress options t more t.depth u) : Progress options s (count + more) depth u := by
  refine ⟨h.toReached.trans h'.toReached, ?_, h'.depth.trans h.depth⟩
  have hread := h.read
  have hread' := h'.read
  omega

/-- What is read later does not undo what was read. -/
theorem extend {more : Nat} (h : Progress options s count depth t)
    (h' : Progress options t more t.depth u) : Progress options s count depth u :=
  (h.trans h').mono (Nat.le_add_right _ _)

/-- Where something is current later, something was left before. -/
theorem pos (h : Progress options s count depth t) {lexeme : Lexeme}
    (hcur : t.input.current? = some lexeme) : 0 < s.input.tokens.length := by
  have hread := h.read
  have hsome : t.input.tokens ≠ [] := by
    intro hnil
    rw [(TokenStream.current?_eq_none_iff _).mpr hnil] at hcur
    exact nomatch hcur
  have hpos := List.length_pos_of_ne_nil hsome
  omega

/-- Moving on undoes nothing. -/
theorem advance (h : Progress options s count depth t) (maxDigits : Nat) :
    Progress options s count depth (t.advance maxDigits) :=
  h.extend (.of_reached (.advance t options maxDigits) (State.depth_advance _ _))

/-- Where something was left, a token is read if the generator moves on. -/
theorem advance_one (h : Progress options s 0 depth t) (hpos : 0 < s.input.tokens.length)
    (maxDigits : Nat) : Progress options s 1 depth (t.advance maxDigits) := by
  have hnext := h.advance maxDigits
  refine ⟨hnext.toReached, ?_, hnext.depth⟩
  have hread := h.read
  rw [State.input_advance, TokenStream.tail, List.length_tail]
  omega

/-- What is done inside of a level is done outside of it, once the level is left. -/
theorem leave (h : Progress options { s with depth := s.depth + 1 } count (s.depth + 1) t)
    (hlt : s.depth < options.maxDepth.toNat) :
    Progress options s count s.depth { t with depth := t.depth - 1 } := by
  rw [h.depth]
  exact ⟨h.toReached.leave hlt h.depth, h.read, rfl⟩

end Progress

/-! ### Two runs that are alike -/

/-- From `s` the actions `x` and `y` end in the same way, unless `x` ends in an excused fault.
Where `x` ends well, it ends in `Q`, and where it ends in a fault, in `R`. -/
structure Alike (E : Fault → Prop) (options : Options) (s : State) {α : Type} (x y : Generate α)
    (Q : α → State → Prop) (R : Fault → State → Prop) : Prop where
  same : x options s = y options s ∨ ∃ fault t, x options s = .error fault t ∧ E fault
  ends : match x options s with
    | .ok a t => Q a t
    | .error fault t => R fault t

/-- A fault ends a run from `s` somewhere that it can reach. -/
abbrev Breaks (options : Options) (s : State) (_ : Fault) (t : State) : Prop :=
  Reached options s t

namespace Alike
variable {E : Fault → Prop} {options : Options} {s t u : State} {α β : Type}
  {Q : α → State → Prop} {R : Fault → State → Prop} {T : β → State → Prop}

/-- How the first run ends, if it has a result. -/
theorem ok {x y : Generate α} (h : Alike E options s x y Q R) {a : α}
    (hrun : x options s = .ok a t) : Q a t := by
  have hends := h.ends
  rw [hrun] at hends
  exact hends

/-- How the first run ends, if it ends in a fault. -/
theorem error {x y : Generate α} (h : Alike E options s x y Q R) {fault : Fault}
    (hrun : x options s = .error fault t) : R fault t := by
  have hends := h.ends
  rw [hrun] at hends
  exact hends

/-- An action that never fails is like itself. -/
theorem of_ends {x : Generate α} (h : Ends (fun _ => False) x options s Q) :
    Alike E options s x x Q R := by
  refine ⟨.inl rfl, ?_⟩
  unfold Ends at h
  cases hrun : x options s with
  | ok a t =>
      rw [hrun] at h
      exact h
  | error fault t =>
      rw [hrun] at h
      exact h.elim

/-- An action that leaves what it enters is like itself. -/
theorem of_balanced {x : Generate α} {count depth : Nat} (hx : Balanced options x)
    (h : Progress options s count depth t) :
    Alike E options t x x (fun _ u => Progress options s count depth u) (Breaks options s) := by
  refine ⟨.inl rfl, ?_⟩
  cases hrun : x options t with
  | ok a u =>
      obtain ⟨hreached, hdepth⟩ := hx.ok hrun
      exact h.extend (.of_reached hreached hdepth)
  | error fault u => exact h.toReached.trans (hx.error hrun)

/-- Nothing is done. -/
theorem done {a : α} (h : Q a s) : Alike E options s (pure a) (pure a) Q R := of_ends h

/-- Less is claimed of how the runs end. -/
theorem mono {x y : Generate α} {P : α → State → Prop} {R' : Fault → State → Prop}
    (h : Alike E options s x y P R') (hok : ∀ a t, P a t → Q a t)
    (herror : ∀ fault t, R' fault t → R fault t) : Alike E options s x y Q R := by
  refine ⟨h.same, ?_⟩
  cases hrun : x options s with
  | ok a t => exact hok a t (h.ok hrun)
  | error fault t => exact herror fault t (h.error hrun)

/-- One step after the other. -/
theorem bind {x y : Generate α} {f g : α → Generate β} (h : Alike E options s x y Q R)
    (hf : ∀ a t, Q a t → Alike E options t (f a) (g a) T R) :
    Alike E options s (x >>= f) (y >>= g) T R := by
  refine ⟨?_, ?_⟩
  · rw [bind_run, bind_run]
    rcases h.same with heq | ⟨fault, t, herror, hexcused⟩
    · -- The first steps end alike, so both runs go on from one state.
      rw [← heq]
      cases hrun : x options s with
      | ok a t => exact (hf a t (h.ok hrun)).same
      | error fault t => exact .inl rfl
    · -- An excused fault of the first step ends the whole of the first run.
      rw [herror]
      exact .inr ⟨fault, t, rfl, hexcused⟩
  · rw [bind_run]
    cases hrun : x options s with
    | ok a t => exact (hf a t (h.ok hrun)).ends
    | error fault t => exact h.error hrun

/-- What is done finally is done behind a value and behind a fault. Behind a fault it may only
fail with an excused one, which then takes the place of the fault. -/
theorem ensure {x y : Generate α} {fin fin' : Generate Unit} {P : α → State → Prop}
    {R' : Fault → State → Prop} (h : Alike E options s x y P R')
    (hvalue : ∀ a t, P a t → Alike E options t fin fin' (fun _ u => Q a u) R)
    (hfault : ∀ fault t, R' fault t →
      Alike E options t fin fin' (fun _ u => R fault u) fun fault' u => E fault' ∧ R fault' u) :
    Alike E options s (tryFinally x fin) (tryFinally y fin') Q R := by
  refine ⟨?_, ?_⟩
  · rw [tryFinally_run, tryFinally_run]
    rcases h.same with heq | ⟨fault, t, herror, hexcused⟩
    · rw [← heq]
      cases hrun : x options s with
      | ok a t =>
          dsimp only
          rcases (hvalue a t (h.ok hrun)).same with hfin | ⟨fault, u, hfin, hexcused⟩
          · rw [hfin]
            exact .inl rfl
          · rw [hfin]
            exact .inr ⟨fault, u, rfl, hexcused⟩
      | error fault t =>
          dsimp only
          rcases (hfault fault t (h.error hrun)).same with hfin | ⟨fault', u, hfin, hexcused⟩
          · rw [hfin]
            exact .inl rfl
          · rw [hfin]
            exact .inr ⟨fault', u, rfl, hexcused⟩
    · -- The fault of the first run is excused, and so is a fault of what is done finally.
      rw [herror]
      dsimp only
      cases hfin : fin options t with
      | ok _ u => exact .inr ⟨fault, u, rfl, hexcused⟩
      | error fault' u =>
          exact .inr ⟨fault', u, rfl, ((hfault fault t (h.error herror)).error hfin).1⟩
  · rw [tryFinally_run]
    cases hrun : x options s with
    | ok a t =>
        have hend := hvalue a t (h.ok hrun)
        dsimp only
        cases hfin : fin options t with
        | ok _ u => exact hend.ok hfin
        | error fault u => exact hend.error hfin
    | error fault t =>
        have hend := hfault fault t (h.error hrun)
        dsimp only
        cases hfin : fin options t with
        | ok _ u => exact hend.ok hfin
        | error fault' u => exact (hend.error hfin).2

/-- Both runs go on behind a step whose result is known. -/
theorem run {x : Generate α} {f g : α → Generate β} {a : α} (hx : x options s = .ok a t)
    (h : Alike E options t (f a) (g a) T R) : Alike E options s (x >>= f) (x >>= g) T R := by
  have hends : Ends (fun _ => False) x options s fun b u => b = a ∧ u = t := by
    unfold Ends
    rw [hx]
    exact ⟨rfl, rfl⟩
  refine (of_ends hends).bind ?_
  rintro b u ⟨rfl, rfl⟩
  exact h

/-- Both runs go on behind a step that leaves what it enters. -/
theorem step {x : Generate α} {f g : α → Generate β} {count depth : Nat}
    (hx : Balanced options x) (h : Progress options s count depth t)
    (hf : ∀ a u, Progress options s count depth u →
      Alike E options u (f a) (g a) T (Breaks options s)) :
    Alike E options t (x >>= f) (x >>= g) T (Breaks options s) :=
  (of_balanced hx h).bind hf

/-- A lexeme is taken in both runs or in neither. -/
theorem eat {lexeme : Lexeme} {f g : Bool → Generate β}
    (hyes : s.input.current? = some lexeme →
      Alike E options (s.advance options.maxDigits.toNat) (f true) (g true) T R)
    (hno : Alike E options s (f false) (g false) T R) :
    Alike E options s (eat lexeme >>= f) (eat lexeme >>= g) T R := by
  by_cases hcur : s.input.current? = some lexeme
  · exact run (by rw [eat_run, if_pos hcur]) (hyes hcur)
  · exact run (by rw [eat_run, if_neg hcur]) hno

end Alike

/-! ### What a call has to satisfy -/

namespace Procedure

/-- The procedures are ranked so that a procedure which calls another one before it has read
anything stands above it. -/
def rank : Procedure → Nat
  | ascend => 0
  | skipping => 0
  -- Before anything is read, a term calls a factor, an expression a term, a condition an
  -- expression, and a sequence a statement.
  | term => 2
  | statement => 3
  | expression => 3
  | condition => 4
  | sequence => 4
  | program => 5
  | _ => 1

/-- The constructs with a first token of their own, which is current when they are called. -/
def isConstruct : Procedure → Bool
  | assignment => true
  | choice => true
  | loop => true
  | compound => true
  | _ => false

/-- The procedures that do not leave as many levels open as they found. -/
def isLevel : Procedure → Bool
  | descend => true
  | ascend => true
  | _ => false

/-- Where a procedure can be called. -/
structure Ready (p : Procedure) (s : State) : Prop where
  /-- A construct is called at a token that can start a statement. -/
  starts : p.isConstruct = true → startsStatement s.input.current? = true
  /-- A level is left where one is open. -/
  entered : p = .ascend → 0 < s.depth

/-- The procedures that read or skip a statement, if one starts. -/
def readsStatement : Procedure → Bool
  | statement => true
  | descend => true
  | skipping => true
  | p => p.isConstruct

/-- How many tokens a procedure reads at least. -/
def least (p : Procedure) (s : State) : Nat :=
  if p.readsStatement && startsStatement s.input.current? then 1 else 0

/-- No procedure has to read more than one token. -/
theorem least_le_one (p : Procedure) (s : State) : p.least s ≤ 1 := by
  unfold least
  split <;> omega

/-- A construct is a statement. -/
theorem readsStatement_of_isConstruct {p : Procedure} (h : p.isConstruct = true) :
    p.readsStatement = true := by
  cases p <;> first | rfl | exact h

/-- To leave a level is no other procedure. -/
theorem ne_ascend_of_isLevel {p : Procedure} (h : p.isLevel = false) : p ≠ ascend := by
  rintro rfl
  exact Bool.noConfusion h

/-- Most procedures can be called everywhere. -/
theorem Ready.of_not {p : Procedure} {s : State} (hconstruct : p.isConstruct = false)
    (hascend : p ≠ ascend) : p.Ready s := by
  refine ⟨fun h => ?_, fun h => absurd h hascend⟩
  rw [hconstruct] at h
  exact absurd h Bool.false_ne_true

/-- A program can be called everywhere. -/
theorem ready_program (s : State) : program.Ready s := .of_not rfl (by decide)

/-- Where a construct is called, a token is left. -/
theorem Ready.pos {p : Procedure} {s : State} (h : p.Ready s)
    (hconstruct : p.isConstruct = true) : 0 < s.input.tokens.length := by
  have hstarts := h.starts hconstruct
  cases htokens : s.input.tokens with
  | nil =>
      rw [(TokenStream.current?_eq_none_iff _).mpr htokens] at hstarts
      exact nomatch hstarts
  | cons token rest => exact Nat.succ_pos _

end Procedure

/-- What gets smaller from call to call: the number of tokens that are left, and if this stays
the same the rank of the procedure. -/
def weight (p : Procedure) (s : State) : Nat :=
  8 * s.input.tokens.length + p.rank

/-- Reading does not add to the weight. -/
theorem weight_le_of_reached {options : Options} {s t : State} (h : Reached options s t)
    (p : Procedure) : weight p t ≤ weight p s := by
  have hlength := h.left.length_le
  unfold weight
  omega

/-- What is known of a call of `q` in `t` that `p` makes if it was called in `s`. -/
structure Inside (options : Options) (p : Procedure) (s : State) (q : Procedure) (t : State) :
    Prop extends Reached options s t where
  smaller : weight q t < weight p s
  ready : q.Ready t

/-- How a procedure ends that was called in `s`, if it has a result. -/
def After (options : Options) (s : State) : (p : Procedure) → p.Result → State → Prop
  | .descend, true, t => s.depth < options.maxDepth.toNat ∧ t = { s with depth := s.depth + 1 }
  | .ascend, (), t => t = { s with depth := s.depth - 1 }
  | p, _, t => Progress options s (p.least s) s.depth t

/-- How a procedure ends that was called in `s`, if it ends in a fault. A fault that is not
excused is none of the step that leaves a level. -/
structure Failed (E : Fault → Prop) (options : Options) (s : State) (p : Procedure)
    (fault : Fault) (t : State) : Prop extends Reached options s t where
  excused : p = .ascend → E fault

/-- Most procedures leave as many levels open as they found. -/
theorem After.progress {options : Options} {p : Procedure} (hlevel : p.isLevel = false)
    {s t : State} {r : p.Result} (h : After options s p r t) :
    Progress options s (p.least s) s.depth t := by
  cases p with
  | descend => exact nomatch hlevel
  | ascend => exact nomatch hlevel
  | _ => exact h

/-- Behind `count` tokens `p` may call `q`, which is no construct and changes no level. -/
def Procedure.mayCall (p : Procedure) (count : Nat) (q : Procedure) : Bool :=
  !q.isLevel && !q.isConstruct && q.rank < p.rank + 8 * count

/-- The calls that `p` may make are alike. -/
def CallsAlike (E : Fault → Prop) (options : Options) (p : Procedure) (s : State)
    (call call' : Procedures) : Prop :=
  ∀ q b t, Inside options p s q t →
    Alike E options t (call q b) (call' q b) (After options t q) (Failed E options t q)

section
variable {E : Fault → Prop} {options : Options} {p : Procedure} {s t : State}
  {call call' : Procedures} {count depth : Nat} {β : Type}

/-- What is inside of a later part of a run is inside of the run. -/
theorem CallsAlike.later (h : CallsAlike E options p s call call') (ht : Reached options s t) :
    CallsAlike E options p t call call' := by
  intro q b u hu
  exact h q b u ⟨ht.trans hu.toReached,
    Nat.lt_of_lt_of_le hu.smaller (weight_le_of_reached ht p), hu.ready⟩

/-- A call on the way of a procedure: where it has come to, and how it goes on from there. -/
theorem CallsAlike.made (h : CallsAlike E options p s call call') (q : Procedure) (b : q.Args)
    (ht : Progress options s count depth t) (hlevel : q.isLevel = false)
    (hrank : q.rank < p.rank + 8 * count) (hready : q.Ready t) :
    Alike E options t (call q b) (call' q b)
      (fun _ u => Progress options s (count + q.least t) depth u) (Breaks options s) := by
  have hinside : Inside options p s q t := by
    refine ⟨ht.toReached, ?_, hready⟩
    -- A token that was read outweighs every rank, since the ranks are less than eight.
    have hread := ht.read
    unfold weight
    omega
  refine (h q b t hinside).mono (fun a u hu => ht.trans ?_) fun fault u hu => ?_
  · exact hu.progress hlevel
  · exact ht.toReached.trans hu.toReached

/-- The last call of a procedure. Of what it has read no more is claimed than is needed. -/
theorem CallsAlike.last (h : CallsAlike E options p s call call') (q : Procedure) (b : q.Args)
    (ht : Progress options s count depth t) (hcall : p.mayCall count q = true) {fewer : Nat}
    (hfewer : fewer ≤ count) :
    Alike E options t (call q b) (call' q b) (fun _ u => Progress options s fewer depth u)
      (Breaks options s) := by
  simp only [Procedure.mayCall, Bool.and_eq_true, Bool.not_eq_true', decide_eq_true_eq] at hcall
  obtain ⟨⟨hlevel, hconstruct⟩, hrank⟩ := hcall
  have hready : q.Ready t := .of_not hconstruct (Procedure.ne_ascend_of_isLevel hlevel)
  refine (h.made q b ht hlevel hrank hready).mono (fun _ u hu => ?_) fun _ _ hu => hu
  exact hu.mono (Nat.le_trans hfewer (Nat.le_add_right _ _))

/-- A call in the middle of a procedure. -/
theorem CallsAlike.next (h : CallsAlike E options p s call call') (q : Procedure) (b : q.Args)
    (ht : Progress options s count depth t) (hcall : p.mayCall count q = true)
    {f g : q.Result → Generate β} {Q : β → State → Prop}
    (hf : ∀ a u, Progress options s count depth u →
      Alike E options u (f a) (g a) Q (Breaks options s)) :
    Alike E options t (call q b >>= f) (call' q b >>= g) Q (Breaks options s) :=
  (h.last q b ht hcall (Nat.le_refl _)).bind hf

end

/-! ### Each procedure in turn -/

/-- From `s` the bodies of `p` are alike, whatever it is given. -/
abbrev PerformsAlike (E : Fault → Prop) (options : Options) (p : Procedure) (s : State)
    (call call' : Procedures) : Prop :=
  ∀ a, Alike E options s (perform call p a) (perform call' p a) (After options s p)
    (Breaks options s)

section
variable {E : Fault → Prop} {options : Options} {s : State} {call call' : Procedures}

/-- A section reads its keyword, and then come its items and the other sections. -/
theorem alike_section {lexeme : Lexeme} (hcur : s.input.current? = some lexeme)
    {section? section?' next next' : Generate Unit}
    (hsection : ∀ t, Progress options s 1 s.depth t →
      Alike E options t section? section?' (fun _ u => Progress options s 1 s.depth u)
        (Breaks options s))
    (hnext : ∀ t, Progress options s 1 s.depth t →
      Alike E options t next next' (fun _ u => Progress options s 0 s.depth u)
        (Breaks options s)) :
    Alike E options s (do advance; section?; expect (.punct .semicolon); next)
      (do advance; section?'; expect (.punct .semicolon); next')
      (fun _ t => Progress options s 0 s.depth t) (Breaks options s) := by
  have hstart : Progress options s 0 s.depth s := .start s
  refine .run (advance_run _ _) ?_
  refine (hsection _ (hstart.advance_one (hstart.pos hcur) _)).bind fun _ s₂ h₂ => ?_
  exact .step ((compositional_balanced options).expect _) h₂ fun _ s₃ h₃ => hnext s₃ h₃

/-- The sections come one after the other, each with a keyword. -/
theorem performsAlike_declarations (h : CallsAlike E options .declarations s call call') :
    PerformsAlike E options .declarations s call call' := by
  intro _
  have hnext : ∀ t, Progress options s 1 s.depth t →
      Alike E options t (call .declarations ()) (call' .declarations ())
        (fun _ u => Progress options s 0 s.depth u) (Breaks options s) :=
    fun t ht => h.last .declarations () ht rfl (Nat.zero_le _)
  refine .run (current?_run _ _) ?_
  split
  · next hcur =>
    refine alike_section hcur (fun t ht => ?_) hnext
    exact h.last .constantItems () ht rfl (Nat.le_refl _)
  · next hcur =>
    refine alike_section hcur (fun t ht => ?_) hnext
    exact h.last .variableItems () ht rfl (Nat.le_refl _)
  · exact .done (.of_eq rfl rfl)

/-- An assignment reads its name, and then its value comes. -/
theorem performsAlike_assignment (h : CallsAlike E options .assignment s call call')
    (hready : Procedure.assignment.Ready s) :
    PerformsAlike E options .assignment s call call' := by
  rintro ⟨name, pending⟩
  have hkeeps := compositional_balanced options
  refine .step (hkeeps.backpatchHere pending) (.start s) fun _ s₁ h₁ => ?_
  have htarget : Ends (fun _ => False) (target name) options s₁ fun _ t =>
      Progress options s 1 s.depth t := by
    -- The name is current where an assignment is called. A report undoes nothing of what is
    -- read.
    have hread := h₁.advance_one (hready.pos rfl) options.maxDigits.toNat
    simp only [target, ends_bind, ends_line, ends_advance, checkTarget, ends_get]
    split
    · exact hread
    · exact hread.extend (.of_eq rfl rfl)
    · exact hread.extend (.of_eq rfl rfl)
  refine (Alike.of_ends htarget).bind fun _ s₂ h₂ => ?_
  refine .step hkeeps.expectBecomes h₂ fun _ s₃ h₃ => ?_
  refine h.next .expression () h₃ rfl fun _ s₄ h₄ => ?_
  refine .step (hkeeps.emit _) h₄ fun _ s₅ h₅ => ?_
  exact .done (h₅.mono (Procedure.least_le_one _ _))

/-- A choice reads `IF`, and then its condition and its body come. -/
theorem performsAlike_choice (h : CallsAlike E options .choice s call call')
    (hready : Procedure.choice.Ready s) : PerformsAlike E options .choice s call call' := by
  intro pending
  have hkeeps := compositional_balanced options
  refine .step (hkeeps.backpatchHere pending) (.start s) fun _ s₁ h₁ => ?_
  refine .run (advance_run _ _) ?_
  have h₂ := h₁.advance_one (hready.pos rfl) options.maxDigits.toNat
  refine h.next .condition () h₂ rfl fun exits s₃ h₃ => ?_
  refine .step (hkeeps.expect _) h₃ fun _ s₄ h₄ => ?_
  refine .step (hkeeps.backpatchHere _) h₄ fun _ s₅ h₅ => ?_
  refine h.next .statement _ h₅ rfl fun next s₆ h₆ => ?_
  refine .step (hkeeps.backpatchHere _) h₆ fun _ s₇ h₇ => ?_
  exact .done (h₇.mono (Procedure.least_le_one _ _))

/-- A loop reads `WHILE`, and then its condition and its body come. -/
theorem performsAlike_loop (h : CallsAlike E options .loop s call call')
    (hready : Procedure.loop.Ready s) : PerformsAlike E options .loop s call call' := by
  intro pending
  have hkeeps := compositional_balanced options
  refine .step (hkeeps.backpatchHere pending) (.start s) fun start s₁ h₁ => ?_
  refine .run (advance_run _ _) ?_
  have h₂ := h₁.advance_one (hready.pos rfl) options.maxDigits.toNat
  refine h.next .condition () h₂ rfl fun exits s₃ h₃ => ?_
  refine .step (hkeeps.expect _) h₃ fun _ s₄ h₄ => ?_
  refine .step (hkeeps.backpatchHere _) h₄ fun _ s₅ h₅ => ?_
  refine h.next .statement _ h₅ rfl fun next s₆ h₆ => ?_
  refine .step (hkeeps.backpatch _ _) h₆ fun _ s₇ h₇ => ?_
  refine .step (hkeeps.emit _) h₇ fun _ s₈ h₈ => ?_
  refine .step (hkeeps.backpatchHere _) h₈ fun _ s₉ h₉ => ?_
  exact .done (h₉.mono (Procedure.least_le_one _ _))

/-- A block reads `BEGIN`, and then its statements come. -/
theorem performsAlike_compound (h : CallsAlike E options .compound s call call')
    (hready : Procedure.compound.Ready s) : PerformsAlike E options .compound s call call' := by
  intro pending
  have hkeeps := compositional_balanced options
  have hstart : Progress options s 0 s.depth s := .start s
  refine .run (advance_run _ _) ?_
  have h₁ := hstart.advance_one (hready.pos rfl) options.maxDigits.toNat
  refine h.next .statement _ h₁ rfl fun first s₂ h₂ => ?_
  refine h.next .sequence _ h₂ rfl fun next s₃ h₃ => ?_
  refine .step (hkeeps.expect _) h₃ fun _ s₄ h₄ => ?_
  exact .done (h₄.mono (Procedure.least_le_one _ _))

/-- A semicolon that is missing is not read, but then the statement behind it starts here. -/
theorem performsAlike_sequence (h : CallsAlike E options .sequence s call call') :
    PerformsAlike E options .sequence s call call' := by
  intro pending
  have hstart : Progress options s 0 s.depth s := .start s
  refine .eat (fun hcur => ?_) ?_
  · have h₁ := hstart.advance_one (hstart.pos hcur) options.maxDigits.toNat
    refine h.next .statement _ h₁ rfl fun next s₂ h₂ => ?_
    exact h.last .sequence _ h₂ rfl (Nat.zero_le _)
  · refine .run (current?_run _ _) ?_
    split
    · next hcur =>
      refine .run (expected_run _ _ _) ?_
      have h₁ : Progress options s 0 s.depth (s.report ⟨s.input.line,
          .expected (Lexeme.punct .semicolon).describe (Lexeme.describe? s.input.current?)⟩) :=
        .of_eq rfl rfl
      -- So far nothing was read. It is the statement that reads a token before the next round.
      have hreads : Procedure.least .statement (s.report ⟨s.input.line,
          .expected (Lexeme.punct .semicolon).describe (Lexeme.describe? s.input.current?)⟩)
          = 1 := by
        simp [Procedure.least, Procedure.readsStatement, hcur]
      refine (h.made .statement _ h₁ rfl (by decide) (.of_not rfl (by decide))).bind
        fun next s₂ h₂ => ?_
      rw [hreads] at h₂
      exact h.last .sequence _ h₂ rfl (Nat.zero_le _)
    · exact .done hstart

/-- Entering a level is a call of its own. What comes behind it depends on whether the level was
refused. -/
theorem alike_entered {p : Procedure} (h : CallsAlike E options p s call call')
    (hrank : Procedure.rank .descend < p.rank) {α : Type} {f f' : Bool → Generate α}
    {Q : α → State → Prop}
    (hrefused : ∀ t, Progress options s (Procedure.least .descend s) s.depth t →
      Alike E options t (f false) (f' false) Q (Breaks options s))
    (hentered : s.depth < options.maxDepth.toNat →
      Alike E options { s with depth := s.depth + 1 } (f true) (f' true) Q (Breaks options s)) :
    Alike E options s (call .descend () >>= f) (call' .descend () >>= f') Q
      (Breaks options s) := by
  have hfirst : Inside options p s .descend s :=
    ⟨.of_eq rfl rfl, Nat.add_lt_add_left hrank _, .of_not rfl (by decide)⟩
  have hcall : Alike E options s (call .descend ()) (call' .descend ())
      (After options s .descend) (Breaks options s) :=
    (h .descend () s hfirst).mono (fun _ _ ht => ht) fun _ _ ht => ht.toReached
  refine hcall.bind fun entered t ht => ?_
  cases entered with
  | false => exact hrefused t ht
  | true =>
      obtain ⟨hlt, rfl⟩ := ht
      exact hentered hlt

/-- Leaving a level is a call of its own, too. A run that came to `u` inside of the level has not
left it before, so the step does not fail. -/
theorem CallsAlike.leave {p : Procedure} (h : CallsAlike E options p s call call')
    (hrank : Procedure.rank .ascend < p.rank) (hlt : s.depth < options.maxDepth.toNat) {u : State}
    (hu : Reached options { s with depth := s.depth + 1 } u) :
    Alike E options u (call .ascend ()) (call' .ascend ())
      (fun _ v => v = { u with depth := u.depth - 1 })
      fun fault v => E fault ∧ Reached options s v := by
  have hreached : Reached options s u := (Reached.enter hlt).trans hu
  have hpos : 0 < u.depth := Nat.lt_of_lt_of_le (Nat.succ_pos _) hu.open_le
  have hlast : Inside options p s .ascend u := by
    refine ⟨hreached, ?_, fun hconstruct => absurd hconstruct (by decide), fun _ => hpos⟩
    have hlength := hreached.left.length_le
    unfold weight
    omega
  refine (h .ascend () u hlast).mono (fun _ _ hv => hv) fun fault v hv => ?_
  exact ⟨hv.excused rfl, hreached.trans hv.toReached⟩

/-- Each way to go on with a statement reads a token, if the current one starts it. -/
theorem alike_dispatch (h : CallsAlike E options .statement s call call') (pending : JumpList) :
    Alike E options s (dispatch call pending) (dispatch call' pending)
      (fun _ t => Progress options s (Procedure.least .statement s) s.depth t)
      (Breaks options s) := by
  have hstart : Progress options s 0 s.depth s := .start s
  -- A construct is called at the token at which the statement was, so it has to be of lower
  -- rank.
  have hconstruct : ∀ (q : Procedure) (b : q.Args), q.isConstruct = true →
      startsStatement s.input.current? = true →
      Alike E options s (call q b) (call' q b)
        (fun _ t => Progress options s (Procedure.least .statement s) s.depth t)
        (Breaks options s) := by
    intro q b hq hcur
    have hrank : q.isLevel = false ∧ q.rank < Procedure.rank .statement + 8 * 0 := by
      cases q <;> simp_all [Procedure.isConstruct, Procedure.isLevel, Procedure.rank]
    have hready : q.Ready s := by
      refine ⟨fun _ => hcur, fun hascend => ?_⟩
      exact absurd hascend (Procedure.ne_ascend_of_isLevel hrank.1)
    have hreads : q.least s = 1 := by
      rw [Procedure.least, Procedure.readsStatement_of_isConstruct hq, hcur]
      rfl
    refine (h.made q b hstart hrank.1 hrank.2 hready).mono (fun _ t ht => ?_) fun _ _ ht => ht
    rw [hreads] at ht
    exact ht.mono (Procedure.least_le_one _ _)
  -- Where no statement starts, nothing has to be read.
  have hempty : startsStatement s.input.current? = false →
      Progress options s (Procedure.least .statement s) s.depth s := by
    intro hcur
    rw [Procedure.least, hcur, Bool.and_false]
    exact hstart
  refine .run (current?_run _ _) ?_
  split
  · next name hcur => exact hconstruct .assignment (name, pending) rfl (by rw [hcur]; rfl)
  · next hcur => exact hconstruct .choice pending rfl (by rw [hcur]; rfl)
  · next hcur => exact hconstruct .loop pending rfl (by rw [hcur]; rfl)
  · next hcur => exact hconstruct .compound pending rfl (by rw [hcur]; rfl)
  · next hcur => exact .done (hempty (by rw [hcur]; rfl))
  · next hcur => exact .done (hempty (by rw [hcur]; rfl))
  · next hcur => exact .done (hempty (by rw [hcur]; rfl))
  · next hcur =>
    -- What cannot start a statement is passed over, too.
    refine .run (expected_run _ _ _) ?_
    refine .run (advance_run _ _) ?_
    have hmiss : Progress options s 0 s.depth (s.report ⟨s.input.line,
        .expected "statement" (Lexeme.describe? s.input.current?)⟩) := .of_eq rfl rfl
    exact .done ((hmiss.advance_one (hstart.pos hcur) _).mono (Procedure.least_le_one _ _))

/-- A statement leaves its level behind a result and behind a fault. -/
theorem performsAlike_statement (h : CallsAlike E options .statement s call call') :
    PerformsAlike E options .statement s call call' := by
  intro pending
  refine alike_entered h (by decide) (fun t ht => .done ht) fun hlt => ?_
  -- A call from inside of the level is a call of the statement, too.
  have hinner := alike_dispatch (h.later (.enter hlt)) pending
  refine hinner.ensure (fun next u hu => ?_) fun fault u hu => ?_
  · refine (h.leave (by decide) hlt hu.toReached).mono ?_ fun _ _ hv => hv.2
    rintro _ v rfl
    exact Progress.leave hu hlt
  · refine (h.leave (by decide) hlt hu).mono ?_ fun _ _ hv => hv
    rintro _ v rfl
    -- Further levels may still be open, so this is not the depth at the start of the statement.
    obtain ⟨depth, hdepth⟩ := Nat.exists_eq_add_of_le' (Nat.le_trans (Nat.le_add_left 1 _)
      hu.open_le)
    rw [hdepth]
    exact hu.leave hlt hdepth

/-- A sign is read here, and the term behind it is called. -/
theorem alike_signed (h : CallsAlike E options .expression s call call') :
    Alike E options s (signed (call .term ())) (signed (call' .term ()))
      (fun _ t => Progress options s 0 s.depth t) (Breaks options s) := by
  have hkeeps := compositional_balanced options
  refine .step hkeeps.leadingMinus (.start s) fun negate s₁ h₁ => ?_
  refine h.next .term () h₁ rfl fun value s₂ h₂ => ?_
  split
  · exact .of_balanced (hkeeps.emitTemp _) h₂
  · exact .done h₂

/-- An expression leaves its level behind a result. -/
theorem performsAlike_expression (h : CallsAlike E options .expression s call call') :
    PerformsAlike E options .expression s call call' := by
  intro _
  refine alike_entered h (by decide) (fun t ht => .done (ht.mono (Nat.zero_le _))) fun hlt => ?_
  have hinner := h.later (.enter hlt)
  have hout : ∀ fault t, Breaks options { s with depth := s.depth + 1 } fault t →
      Breaks options s fault t := fun _ _ ht => (Reached.enter hlt).trans ht
  rw [if_pos rfl, if_pos rfl]
  refine ((alike_signed hinner).mono (fun _ _ ht => ht) hout).bind fun first t ht => ?_
  refine ((hinner.last .sum first ht rfl (Nat.zero_le _)).mono (fun _ _ hu => hu) hout).bind
    fun value u hu => ?_
  refine ((h.leave (by decide) hlt hu.toReached).mono (fun _ _ hv => hv) fun _ _ hv => hv.2).bind ?_
  rintro _ v rfl
  exact .done (Progress.leave hu hlt)

/-- A round of a chain reads its operator. -/
theorem alike_round {op? : Option Lexeme → Option ArithOp} (hnone : op? none = none)
    {operand operand' : Generate String} {next next' : String → Generate String}
    (hoperand : ∀ t, Progress options s 1 s.depth t →
      Alike E options t operand operand' (fun _ u => Progress options s 1 s.depth u)
        (Breaks options s))
    (hnext : ∀ value t, Progress options s 1 s.depth t →
      Alike E options t (next value) (next' value) (fun _ u => Progress options s 1 s.depth u)
        (Breaks options s))
    (lhs : String) :
    Alike E options s
      (do
        match op? (← current?) with
        | some op =>
          advance
          let rhs ← operand
          let value ← emitTemp (.binary op lhs rhs)
          next value
        | none => return lhs)
      (do
        match op? (← current?) with
        | some op =>
          advance
          let rhs ← operand'
          let value ← emitTemp (.binary op lhs rhs)
          next' value
        | none => return lhs)
      (fun _ t => Progress options s 0 s.depth t) (Breaks options s) := by
  have hkeeps := compositional_balanced options
  have hstart : Progress options s 0 s.depth s := .start s
  refine .run (current?_run _ _) ?_
  split
  · next op hop =>
    -- There is an operator, so there is a token, and it is read before the operand is called.
    obtain ⟨lexeme, hcur⟩ := exists_current hnone hop
    refine .run (advance_run _ _) ?_
    refine (hoperand _ (hstart.advance_one (hstart.pos hcur) _)).bind fun rhs s₂ h₂ => ?_
    refine .step (hkeeps.emitTemp _) h₂ fun value s₃ h₃ => ?_
    exact (hnext value s₃ h₃).mono (fun _ _ ht => ht.mono (Nat.zero_le _)) fun _ _ ht => ht
  · exact .done hstart

/-- A round of a sum calls a term. -/
theorem performsAlike_sum (h : CallsAlike E options .sum s call call') :
    PerformsAlike E options .sum s call call' :=
  alike_round rfl
    (fun _ ht => h.last .term () ht rfl (Nat.le_refl _))
    (fun value _ ht => h.last .sum value ht rfl (Nat.le_refl _))

/-- A round of a product calls a factor. -/
theorem performsAlike_product (h : CallsAlike E options .product s call call') :
    PerformsAlike E options .product s call call' :=
  alike_round rfl
    (fun _ ht => h.last .factor () ht rfl (Nat.le_refl _))
    (fun value _ ht => h.last .product value ht rfl (Nat.le_refl _))

/-- A term reads nothing itself. -/
theorem performsAlike_term (h : CallsAlike E options .term s call call') :
    PerformsAlike E options .term s call call' := by
  intro _
  have hstart : Progress options s 0 s.depth s := .start s
  refine h.next .factor () hstart rfl fun first s₁ h₁ => ?_
  exact h.last .product first h₁ rfl (Nat.zero_le _)

/-- A factor reads a token, if there is one that it can be. -/
theorem performsAlike_factor (h : CallsAlike E options .factor s call call') :
    PerformsAlike E options .factor s call call' := by
  intro _
  have hkeeps := compositional_balanced options
  have hstart : Progress options s 0 s.depth s := .start s
  refine .run (current?_run _ _) ?_
  split
  · rw [checkOperand_bind]
    exact .of_balanced (hkeeps.bind (hkeeps.checkOperand _) fun _ =>
      hkeeps.bind hkeeps.advance fun _ => hkeeps.pure _) hstart
  · exact .of_balanced (hkeeps.bind hkeeps.advance fun _ => hkeeps.pure _) hstart
  · next hcur =>
    refine .run (advance_run _ _) ?_
    have h₁ := hstart.advance_one (hstart.pos hcur) options.maxDigits.toNat
    refine h.next .expression () h₁ rfl fun value s₂ h₂ => ?_
    refine .step (hkeeps.expect _) h₂ fun _ s₃ h₃ => ?_
    exact .done (h₃.mono (Nat.zero_le _))
  · exact .of_balanced (hkeeps.bind (hkeeps.expected _) fun _ => hkeeps.pure _) hstart

/-- A condition reads its relation, and its sides are called. -/
theorem performsAlike_condition (h : CallsAlike E options .condition s call call') :
    PerformsAlike E options .condition s call call' := by
  intro _
  have hkeeps := compositional_balanced options
  have hstart : Progress options s 0 s.depth s := .start s
  refine h.next .expression () hstart rfl fun lhs s₁ h₁ => ?_
  refine .step hkeeps.relation h₁ fun op s₂ h₂ => ?_
  refine h.next .expression () h₂ rfl fun rhs s₃ h₃ => ?_
  refine .step (hkeeps.emit _) h₃ fun onTrue s₄ h₄ => ?_
  refine .step (hkeeps.emit _) h₄ fun onFalse s₅ h₅ => ?_
  exact .done h₅

/-- Behind an item the next one is read, if a comma is. -/
theorem alike_items {item : Generate Unit} (hitem : Balanced options item)
    {next next' : Generate Unit}
    (hnext : ∀ t, Progress options s 1 s.depth t →
      Alike E options t next next' (fun _ u => Progress options s 1 s.depth u)
        (Breaks options s)) :
    Alike E options s
      (do
        item
        if ← eat (.punct .comma) then
          next)
      (do
        item
        if ← eat (.punct .comma) then
          next')
      (fun _ t => Progress options s 0 s.depth t) (Breaks options s) := by
  have hstart : Progress options s 0 s.depth s := .start s
  refine .step hitem hstart fun _ s₁ h₁ => ?_
  refine .eat (fun hcur => ?_) (.done h₁)
  exact (hnext _ (h₁.advance_one (h₁.pos hcur) _)).mono (fun _ _ ht => ht.mono (Nat.zero_le _))
    fun _ _ ht => ht

/-- Behind a definition the next one may come. -/
theorem performsAlike_constantItems (h : CallsAlike E options .constantItems s call call') :
    PerformsAlike E options .constantItems s call call' := fun _ =>
  alike_items (compositional_balanced options).definition fun _ ht =>
    h.last .constantItems () ht rfl (Nat.le_refl _)

/-- Behind a variable the next one may come. -/
theorem performsAlike_variableItems (h : CallsAlike E options .variableItems s call call') :
    PerformsAlike E options .variableItems s call call' := fun _ =>
  alike_items (compositional_balanced options).variableName fun _ ht =>
    h.last .variableItems () ht rfl (Nat.le_refl _)

/-- A token that starts a statement does not end a construct that is skipped. -/
theorem openBehind?_ne_none_of_starts {lexeme : Lexeme} (h : startsStatement (some lexeme) = true)
    (opened : Nat) : lexeme.openBehind? opened ≠ none := by
  intro hnone
  have hcloser := (Lexeme.mem_closers_of_openBehind? hnone).2
  simp only [closers, List.mem_cons, List.not_mem_nil, or_false] at hcloser
  rcases hcloser with rfl | rfl | rfl <;> exact absurd h (by decide)

/-- Of a construct that is skipped, each token is a round. -/
theorem performsAlike_skipping (h : CallsAlike E options .skipping s call call') :
    PerformsAlike E options .skipping s call call' := by
  intro opened
  have hstart : Progress options s 0 s.depth s := .start s
  have hstay : startsStatement s.input.current? ≠ true →
      Progress options s (Procedure.least .skipping s) s.depth s := by
    intro hcur
    rw [Procedure.least, if_neg (by simp [hcur])]
    exact hstart
  refine .run (current?_run _ _) ?_
  split
  · next lexeme hcur =>
    split
    · next behind hbehind =>
      refine .run (advance_run _ _) ?_
      have h₁ := hstart.advance_one (hstart.pos hcur) options.maxDigits.toNat
      exact h.last .skipping behind h₁ rfl (Procedure.least_le_one _ _)
    · next hnone =>
      refine .done (hstay fun hstarts => ?_)
      rw [hcur] at hstarts
      exact openBehind?_ne_none_of_starts hstarts opened hnone
  · next hcur =>
    refine .done (hstay fun hstarts => ?_)
    rw [hcur] at hstarts
    exact absurd hstarts (by decide)

/-- A level is entered, or the construct is skipped. -/
theorem performsAlike_descend (h : CallsAlike E options .descend s call call') :
    PerformsAlike E options .descend s call call' := by
  intro _
  have hskip : ∀ t, t.input = s.input → t.depth = s.depth →
      Alike E options t (do call .skipping 0; return false) (do call' .skipping 0; return false)
        (After options s .descend) (Breaks options s) := by
    intro t hinput hdepth
    have hleast : Procedure.least .skipping t = Procedure.least .descend s := by
      rw [Procedure.least, Procedure.least, hinput]
      rfl
    have hhere : Progress options s 0 s.depth t := .of_eq hinput hdepth
    refine (h.made .skipping 0 hhere rfl (by decide) (.of_not rfl (by decide))).bind
      fun _ u hu => ?_
    rw [hleast, Nat.zero_add] at hu
    exact .done hu
  refine .run (a := options) (t := s) rfl ?_
  refine .run (a := s) (t := s) rfl ?_
  split
  · next hlt => exact .of_ends ⟨hlt, rfl⟩
  · refine .run (a := s) (t := s) rfl ?_
    split
    · -- A refusal was reported before.
      exact hskip s rfl rfl
    · refine .run (a := ()) (t := { s with depthReported := true }) rfl ?_
      refine .run (report_run _ _ _) ?_
      exact hskip _ rfl rfl

/-- A level that is open can be left. -/
theorem performsAlike_ascend (hready : Procedure.ascend.Ready s) (a : Procedure.Args .ascend) :
    Alike E options s (perform call .ascend a) (perform call' .ascend a)
      (After options s .ascend) (Failed E options s .ascend) := by
  obtain ⟨depth, hdepth⟩ := Nat.exists_eq_succ_of_ne_zero (Nat.ne_of_gt (hready.entered rfl))
  refine .of_ends ?_
  show Ends _ ascend options s _
  rw [ends_ascend hdepth]
  show _ = { s with depth := s.depth - 1 }
  rw [hdepth]
  rfl

/-- The program is the only procedure that looks behind the statement. -/
theorem performsAlike_program (h : CallsAlike E options .program s call call') :
    PerformsAlike E options .program s call call' := by
  intro _
  have hkeeps := compositional_balanced options
  have hchecked : Progress options s 0 s.depth (s.checkNumber options.maxDigits.toNat) :=
    .of_eq (State.input_checkNumber _ _) (State.depth_checkNumber _ _)
  have hend : Balanced options expectEnd := .of_ends fun t => by
    rw [expectEnd, ends_bind, ends_current?]
    split
    · exact ⟨.of_eq rfl rfl, rfl⟩
    · exact ⟨.of_eq rfl rfl, rfl⟩
  have hresolved : Balanced options checkResolved := by
    intro t
    rw [checkResolved, get_bind_run]
    cases t.code.unresolved with
    | nil => exact ⟨.of_eq rfl rfl, rfl⟩
    | cons address addresses => exact .of_eq rfl rfl
  refine .run (checkNumber_run _ _) ?_
  refine .step (hkeeps.expect _) hchecked fun _ s₂ h₂ => ?_
  refine .step (hkeeps.ident? _) h₂ fun name? s₃ h₃ => ?_
  refine h.next .declarations () h₃ rfl fun _ s₄ h₄ => ?_
  refine h.next .statement _ h₄ rfl fun next s₅ h₅ => ?_
  refine .step hend h₅ fun _ s₆ h₆ => ?_
  refine .step (hkeeps.backpatchHere _) h₆ fun _ s₇ h₇ => ?_
  refine .step hresolved h₇ fun _ s₈ h₈ => ?_
  exact .done h₈

/-- **What a procedure does depends on the calls that it makes, and these are inside.** -/
theorem performsAlike_of_calls {p : Procedure} (hready : p.Ready s)
    (h : CallsAlike E options p s call call') (a : p.Args) :
    Alike E options s (perform call p a) (perform call' p a) (After options s p)
      (Failed E options s p) := by
  have hother : p ≠ .ascend → PerformsAlike E options p s call call' →
      Alike E options s (perform call p a) (perform call' p a) (After options s p)
        (Failed E options s p) := by
    intro hne hperforms
    refine (hperforms a).mono (fun _ _ ht => ht) fun fault t ht => ⟨ht, fun heq => ?_⟩
    exact absurd heq hne
  cases p with
  | program => exact hother (by decide) (performsAlike_program h)
  | declarations => exact hother (by decide) (performsAlike_declarations h)
  | constantItems => exact hother (by decide) (performsAlike_constantItems h)
  | variableItems => exact hother (by decide) (performsAlike_variableItems h)
  | statement => exact hother (by decide) (performsAlike_statement h)
  | assignment => exact hother (by decide) (performsAlike_assignment h hready)
  | choice => exact hother (by decide) (performsAlike_choice h hready)
  | loop => exact hother (by decide) (performsAlike_loop h hready)
  | compound => exact hother (by decide) (performsAlike_compound h hready)
  | sequence => exact hother (by decide) (performsAlike_sequence h)
  | condition => exact hother (by decide) (performsAlike_condition h)
  | expression => exact hother (by decide) (performsAlike_expression h)
  | sum => exact hother (by decide) (performsAlike_sum h)
  | term => exact hother (by decide) (performsAlike_term h)
  | product => exact hother (by decide) (performsAlike_product h)
  | factor => exact hother (by decide) (performsAlike_factor h)
  | descend => exact hother (by decide) (performsAlike_descend h)
  | skipping => exact hother (by decide) (performsAlike_skipping h)
  | ascend => exact performsAlike_ascend hready a

end

/-! ### The procedures without a budget -/

/-- The recursion equations, unfolded a number of times. -/
def unroll : Nat → Procedures
  | 0 => fun _ _ => throw .outOfFuel
  | times + 1 => perform (unroll times)

/-- What the procedures do. The equations are unfolded as often as calls can be inside each other,
and there is no other limit. -/
def procedures : Procedures := fun p a options s => unroll (weight p s + 1) p a options s

section
variable {options : Options} {p q : Procedure} {s t : State}

/-- Where no fault is excused, both runs end in the same way. -/
theorem Alike.eq {α : Type} {x y : Generate α} {Q : α → State → Prop}
    {R : Fault → State → Prop} (h : Alike (fun _ => False) options s x y Q R) :
    x options s = y options s := by
  rcases h.same with hsame | ⟨fault, t, -, hfalse⟩
  · exact hsame
  · exact hfalse.elim

/-- It does not matter how often the equations are unfolded, if it is often enough. The induction
is on the weight, which is less for every call. -/
theorem unroll_alike (hready : p.Ready s) {times times' : Nat} (htimes : weight p s < times)
    (htimes' : weight p s < times') (a : p.Args) :
    Alike (fun _ => False) options s (unroll times p a) (unroll times' p a)
      (After options s p) (Failed (fun _ => False) options s p) := by
  induction hweight : weight p s using Nat.strongRecOn
    generalizing p s times times' with
  | ind _ ih =>
      obtain ⟨times, rfl⟩ := Nat.exists_eq_succ_of_ne_zero (Nat.ne_zero_of_lt htimes)
      obtain ⟨times', rfl⟩ := Nat.exists_eq_succ_of_ne_zero (Nat.ne_zero_of_lt htimes')
      -- One round is unfolded on each side, and what it calls has less weight.
      refine performsAlike_of_calls hready (fun q b t hinside => ?_) a
      have hsmaller := hinside.smaller
      exact ih (weight q t) (by omega) hinside.ready (by omega) (by omega) b rfl

/-- A procedure is like one round of its equation. -/
theorem procedures_alike (hready : p.Ready s) (a : p.Args) :
    Alike (fun _ => False) options s (procedures p a) (perform procedures p a)
      (After options s p) (Failed (fun _ => False) options s p) := by
  have hcalls : CallsAlike (fun _ => False) options p s (unroll (weight p s)) procedures := by
    intro q b t hinside
    have halike : Alike (fun _ => False) options t _ _ _ _ :=
      unroll_alike hinside.ready hinside.smaller (Nat.lt_succ_self _) b
    exact ⟨halike.same, halike.ends⟩
  have halike := performsAlike_of_calls hready hcalls a
  exact ⟨halike.same, halike.ends⟩

/-- **The procedures satisfy their recursion equations**, where nothing bounds the recursion. -/
theorem procedures_eq_perform (hready : p.Ready s) (a : p.Args) :
    procedures p a options s = perform procedures p a options s :=
  (procedures_alike hready a).eq

/-- **The procedures as they are defined do the same as without a budget**, or the budget is used
up. -/
theorem bounded_alike (hready : p.Ready s) (fuel rounds : Nat) (a : p.Args) :
    Alike (· = .outOfFuel) options s (bounded fuel rounds p a) (procedures p a)
      (After options s p) (Failed (· = .outOfFuel) options s p) := by
  induction hweight : weight p s using Nat.strongRecOn
    generalizing p s fuel rounds with
  | ind _ ih =>
      rcases bounded_eq_perform fuel rounds p a with hthrow | ⟨fuel', rounds', heq⟩
      · -- The budget is used up before anything is done.
        rw [hthrow]
        exact ⟨.inr ⟨.outOfFuel, s, rfl, rfl⟩, .of_eq rfl rfl, fun _ => rfl⟩
      · have hcalls : CallsAlike (· = .outOfFuel) options p s (bounded fuel' rounds')
            procedures := by
          intro q b t hinside
          have hsmaller := hinside.smaller
          exact ih (weight q t) (by omega) hinside.ready _ _ b rfl
        have halike := performsAlike_of_calls hready hcalls a
        rw [← heq] at halike
        refine ⟨?_, halike.ends⟩
        rw [procedures_eq_perform hready a]
        exact halike.same

/-! ### Activations -/

/-- A procedure that was called in a state calls another one in another state. What it does then
depends on what the other one does. -/
def Calls (options : Options) (outer inner : Procedure × State) : Prop :=
  ∃ (a : outer.1.Args) (other : Procedures),
    (∀ r b u, (r, u) ≠ inner → other r b options u = procedures r b options u) ∧
      perform other outer.1 a options outer.2 ≠ perform procedures outer.1 a options outer.2

/-- **Every call is inside.** -/
theorem inside_of_calls (hready : p.Ready s) (h : Calls options (p, s) (q, t)) :
    Inside options p s q t := by
  obtain ⟨a, other, hother, hne⟩ := h
  -- Suppose it is not. Then `other` differs from the procedures only where the caller does not
  -- call, and the caller does the same with both.
  by_contra hnot
  have hcalls : CallsAlike (fun _ => False) options p s procedures other := by
    intro r b u hinside
    have hsame : (r, u) ≠ (q, t) := by
      rintro heq
      obtain ⟨rfl, rfl⟩ := Prod.mk.inj heq
      exact hnot hinside
    refine ⟨.inl (hother r b u hsame).symm, (procedures_alike hinside.ready b).ends⟩
  exact hne (performsAlike_of_calls hready hcalls a).eq.symm

end

/-- The procedures, except that the call of `q` in `t` ends in a fault. -/
def stopped (q : Procedure) (t : State) : Procedures := fun r b options u =>
  if (r, u) = (q, t) then .error .unbalancedNesting u else procedures r b options u

/-- The fault in which a run ends, if it does. -/
def faultOf {α : Type} : EStateM.Result Fault State α → Option Fault
  | .ok _ _ => none
  | .error fault _ => some fault

/-- A call comes about if the caller ends in another fault when the call is stopped, or if it then
ends in a fault at all. -/
theorem calls_of_stopped {options : Options} {p q : Procedure} {s t : State} (a : p.Args)
    (h : faultOf (perform (stopped q t) p a options s)
      ≠ faultOf (perform procedures p a options s)) :
    Calls options (p, s) (q, t) :=
  ⟨a, stopped q t, fun _ _ _ hne => if_neg hne, fun heq => h (congrArg faultOf heq)⟩

/-- The calls of procedures that come about in the run for an input. -/
def Activation (options : Options) (input : TokenStream) : Procedure × State → Prop :=
  Relation.ReflTransGen (Calls options) (.program, .start options input)

section
variable {options : Options} {input : TokenStream} {outer inner : Procedure × State}

/-- A construct is only called at a token that starts a statement, and a level is only left where
one is open. -/
theorem Activation.ready (h : Activation options input outer) : outer.1.Ready outer.2 := by
  induction h with
  | refl => exact Procedure.ready_program _
  | tail _ hcall ih => exact (inside_of_calls ih hcall).ready

/-- Each call of an activation is inside of it. -/
theorem Activation.inside (h : Activation options input outer) (hcall : Calls options outer inner) :
    Inside options outer.1 outer.2 inner.1 inner.2 :=
  inside_of_calls h.ready hcall

end

end ThreeAddress.Generate
