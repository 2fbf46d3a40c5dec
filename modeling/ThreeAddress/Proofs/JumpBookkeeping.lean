import ThreeAddress.Proofs.Backpatching
import ThreeAddress.Proofs.Emission
import ThreeAddress.Proofs.Levels

/-!
# Every run emits the code of a tree

Whatever the tokens are, the generator ends with the code of some tree, or the
addresses run out. No other fault is possible: the budget of rounds suffices,
every level of nesting that is left was entered, and every jump that is filled
in was pending.

The contract of a procedure has two parts. `Settled` is about the reading: the
depth is as before and no lexeme was added. `Computes`, `Tests` and `Performs`
are about the code. An induction on the budget carries both through all
procedures: each round that is followed by another one has read a lexeme, so
`length + 1 < fuel` is kept.

`Ready` keeps count of the addresses. Each instruction is paid for by a lexeme
that was read before it, and a lexeme pays for three: `WHILE` is the dearest,
with a branch, a jump and the jump that closes the loop. So the addresses run
out only if three for each token do not fit.

`Ready` also says that the names which are left to be read are known. So the tree
has no names but those that stand in the source (`exists_tree_of_compile`).
-/

set_option autoImplicit false

namespace ThreeAddress

namespace Generate

/-! ### The addresses that an instruction can have -/

/-- An action that emits no instruction at the largest address or behind it. -/
def KeepsRoom (options : Options) {α : Type} (x : Generate α) : Prop :=
  ∀ s, s.code.nextAddress ≤ maxWord →
    Ends (fun _ => True) x options s fun _ s' => s'.code.nextAddress ≤ maxWord

/-- A level keeps the code within the addresses if what is inside does. -/
theorem KeepsRoom.level {α : Type} {options : Options} {body : Generate α}
    (hbody : KeepsRoom options body) (otherwise : α) :
    KeepsRoom options (level body otherwise) := by
  intro s h
  simp only [Generate.level, ends_bind, ends_descend]
  split
  · rw [if_pos trivial, ends_bind]
    refine (hbody { s with depth := s.depth + 1 } h).mono ?_
    intro a t ht
    simp only [ascend, ends_bind, ends_get]
    split
    · trivial
    · exact ht
  · simp only [Bool.false_eq_true, if_false, ends_pure, State.code_refuse]
    exact h

/-- **Every procedure keeps the code within the addresses.** An instruction is emitted only
where its successor has one. -/
theorem compositional_keepsRoom (options : Options) : Compositional (KeepsRoom options) where
  pure a s h := h
  bind hx hf s h := by
    rw [ends_bind]
    exact (hx s h).mono fun a s' h' => hf a s' h'
  outOfFuel s h := trivial
  current? s h := h
  advance s h := by
    rw [ends_advance, State.code_advance]
    exact h
  expected what s h := h
  checkOperand name s h := by
    simp only [checkOperand, ends_bind, ends_get]
    split
    · exact h
    · exact h
  target name s h := by
    rw [← State.code_advance s options.maxDigits.toNat] at h
    simp only [target, ends_bind, ends_line, ends_advance, checkTarget, ends_get]
    split
    · exact h
    · exact h
    · exact h
  declaration? what kind s h := by
    simp only [declaration?, ident?, ends_bind, ends_line, ends_current?]
    split
    · rw [← State.code_advance s options.maxDigits.toNat] at h
      simp only [ends_bind, ends_advance, ends_pure, declare, ends_get]
      split
      · exact h
      · exact h
    · exact h
  emit instruction s h := by
    rw [ends_emit]
    split
    · next hroom =>
      rw [Store.nextAddress_push]
      exact hroom
    · trivial
  backpatch list address s h := by
    unfold Ends backpatch onCode
    cases hrun : list.backpatch address s.code with
    -- Targets are filled in where instructions stand, so the code is as long as before.
    | ok a code =>
        obtain ⟨-, rfl⟩ := JumpList.backpatch_eq_ok_iff.mp hrun
        simpa using h
    | error fault code => trivial
  nextAddress s h := h
  freshTemp s h := h
  level otherwise hbody := hbody.level otherwise
  levelFinally otherwise hbody s h := .levelFinally trivial (hbody.level otherwise s h)

/-- The code of every run that ends well is within the addresses. -/
theorem program_keepsRoom (options : Options) (fuel : Nat) :
    KeepsRoom options (program fuel) := by
  have hkeeps := compositional_keepsRoom options
  have hchecked : KeepsRoom options checkNumber := by
    intro s h
    rw [ends_checkNumber, State.code_checkNumber]
    exact h
  have hend : KeepsRoom options expectEnd := by
    intro s h
    simp only [expectEnd, ends_bind, ends_current?]
    split
    · exact h
    · exact h
  have hresolved : KeepsRoom options checkResolved := by
    intro s h
    simp only [checkResolved, ends_bind, ends_get]
    split
    · exact h
    · trivial
  exact hkeeps.bind hchecked fun _ => hkeeps.bind (hkeeps.expect _) fun _ =>
    hkeeps.bind (hkeeps.ident? _) fun name? => hkeeps.bind (hkeeps.declarations fuel) fun _ =>
      hkeeps.bind (hkeeps.statement fuel _) fun next => hkeeps.bind hend fun _ =>
        hkeeps.bind (hkeeps.backpatchHere next) fun _ => hkeeps.bind hresolved fun _ =>
          hkeeps.pure name?

/-! ### Counting addresses -/

/-- The code starts at `first`, and the addresses up to `bound` suffice for
three instructions for each lexeme that is left and `spare` more. The names that are
left are known. -/
structure Ready (known : String → Prop) (first bound spare : Nat) (s : State) : Prop where
  first : s.code.first.toNat = first
  room : s.code.nextAddress + 3 * s.input.lexemes.length + spare ≤ bound
  names : ∀ x, .ident x ∈ s.input.lexemes → known x

/-- The only fault that is left: the addresses ran out, and `bound` lies beyond
the largest one. -/
def Overflows (first bound : Nat) (fault : Fault) : Prop :=
  fault = .addressOverflow first ∧ maxWord < bound

/-- A piece was read: the depth is as before, no lexeme was added, and there is
room for `spare` instructions. -/
structure Settled (known : String → Prop) (first bound spare : Nat) (s s' : State) : Prop where
  ready : Ready known first bound spare s'
  depth : s'.depth = s.depth
  length : s'.input.lexemes.length ≤ s.input.lexemes.length

section
variable {known : String → Prop} {first bound spare : Nat} {options : Options} {s s' s'' : State}

/-- Where nothing was read, everything is as it was. -/
theorem Settled.refl (h : Ready known first bound spare s) : Settled known first bound spare s s :=
  ⟨h, rfl, Nat.le_refl _⟩

/-- A piece and the piece behind it are one piece. The room is that behind the second one. -/
theorem Settled.trans {between : Nat} (h : Settled known first bound between s s')
    (h' : Settled known first bound spare s' s'') : Settled known first bound spare s s'' :=
  ⟨h'.ready, h'.depth.trans h.depth, Nat.le_trans h'.length h.length⟩

/-- Less room is always there. -/
theorem Ready.mono {more : Nat} (h : Ready known first bound more s) (hle : spare ≤ more) :
    Ready known first bound spare s :=
  ⟨h.first, Nat.le_trans (Nat.add_le_add_left hle _) h.room, h.names⟩

/-- A report changes nothing that counts. -/
theorem Ready.report (h : Ready known first bound spare s) (diagnostic : Diagnostic) :
    Settled known first bound spare s (s.report diagnostic) :=
  ⟨⟨h.first, h.room, h.names⟩, rfl, Nat.le_refl _⟩

/-- Moving on never costs anything. -/
theorem Ready.advance (h : Ready known first bound spare s) (maxDigits : Nat) :
    Settled known first bound spare s (s.advance maxDigits) := by
  have hlen : s.input.lexemes.tail.length ≤ s.input.lexemes.length := by simp
  refine ⟨⟨?_, ?_, ?_⟩, ?_, ?_⟩
  · rw [State.code_advance]
    exact h.first
  · have hroom := h.room
    rw [State.code_advance, State.input_advance, TokenStream.lexemes_tail]
    omega
  · intro x hx
    rw [State.input_advance, TokenStream.lexemes_tail] at hx
    exact h.names x (List.mem_of_mem_tail hx)
  · exact State.depth_advance s maxDigits
  · rw [State.input_advance, TokenStream.lexemes_tail]
    exact hlen

/-- Moving past a lexeme makes room for three instructions. -/
theorem Ready.advance_some (h : Ready known first bound spare s) {lexeme : Lexeme}
    (hcur : s.input.current? = some lexeme) (maxDigits : Nat) :
    Settled known first bound (spare + 3) s (s.advance maxDigits) ∧
      (s.advance maxDigits).input.lexemes.length < s.input.lexemes.length := by
  have hlen := congrArg List.length (TokenStream.lexemes_of_current? hcur)
  rw [List.length_cons] at hlen
  have hadv := h.advance maxDigits
  have hlt : (s.advance maxDigits).input.lexemes.length < s.input.lexemes.length := by
    rw [State.input_advance, TokenStream.lexemes_tail]
    omega
  refine ⟨⟨⟨hadv.ready.first, ?_, hadv.ready.names⟩, hadv.depth, hadv.length⟩, hlt⟩
  -- One lexeme less is left, and it counted for three addresses.
  have hroom := h.room
  rw [State.code_advance]
  omega

/-- An emitted instruction takes one address. -/
theorem Ready.push (h : Ready known first bound (spare + 1) s) (instruction : Instruction)
    (temps : Temporaries) :
    Settled known first bound spare s { s with code := s.code.push instruction, temps } := by
  refine ⟨⟨h.first, ?_, h.names⟩, rfl, Nat.le_refl _⟩
  have hroom := h.room
  simp only [Store.nextAddress_push]
  omega

/-- Filling in targets takes no address. -/
theorem Ready.resolve (h : Ready known first bound spare s) (addresses : List Nat) (target : Nat) :
    Settled known first bound spare s { s with code := s.code.resolve addresses target } := by
  refine ⟨⟨?_, ?_, h.names⟩, rfl, Nat.le_refl _⟩
  · simpa using h.first
  · simpa using h.room

/-- A missing lexeme is reported and costs nothing; one that is there is read. -/
theorem Ready.expect (h : Ready known first bound spare s) (lexeme : Lexeme) :
    Ends (Overflows first bound) (expect lexeme) options s fun _ s' =>
      Settled known first bound spare s s' ∧ s'.code = s.code ∧ s'.temps = s.temps := by
  rw [ends_expect]
  split
  · exact ⟨h.advance _, State.code_advance _ _, State.temps_advance _ _⟩
  · exact ⟨h.report _, rfl, rfl⟩

/-- A missing `:=` is reported and costs nothing; one that is there is read. -/
theorem Ready.expectBecomes (h : Ready known first bound spare s) :
    Ends (Overflows first bound) expectBecomes options s fun _ s' =>
      Settled known first bound spare s s' ∧ s'.code = s.code ∧ s'.temps = s.temps := by
  simp only [Generate.expectBecomes, ends_bind, ends_eat]
  split
  · exact ⟨h.advance _, State.code_advance _ _, State.temps_advance _ _⟩
  · simp only [Bool.false_eq_true, if_false, ends_bind, ends_expected, ends_eat]
    have hmiss : Settled known first bound spare s (s.miss (Lexeme.punct .becomes).describe) :=
      h.report _
    split
    · exact ⟨hmiss.trans (hmiss.ready.advance _), State.code_advance _ _, State.temps_advance _ _⟩
    · exact ⟨hmiss, rfl, rfl⟩

/-- With room for one instruction, one can be emitted or the addresses run
out. -/
theorem Ready.emit (h : Ready known first bound (spare + 1) s) (instruction : Instruction)
    {Q : Nat → State → Prop}
    (hQ : Settled known first bound spare s { s with code := s.code.push instruction } →
      Q s.code.nextAddress { s with code := s.code.push instruction }) :
    Ends (Overflows first bound) (emit instruction) options s Q := by
  rw [ends_emit]
  split
  · exact hQ (h.push instruction s.temps)
  · -- The room was there, so only a bound beyond the largest address can be to blame.
    next hfull =>
    have hroom := h.room
    exact ⟨by rw [h.first], by omega⟩

/-- The same for an operation on temporaries. -/
theorem Ready.emitTemp (h : Ready known first bound (spare + 1) s) (value : Rvalue)
    {Q : String → State → Prop}
    (hQ : ∀ s', Settled known first bound spare s s' →
      s'.code = s.code.push (.assign (Temporaries.name s.temps.next) value) →
      s'.temps = ⟨s.temps.next + 1⟩ → Q (Temporaries.name s.temps.next) s') :
    Ends (Overflows first bound) (emitTemp value) options s Q := by
  rw [ends_emitTemp]
  split
  · exact hQ _ (h.push _ _) rfl rfl
  · next hfull =>
    have hroom := h.room
    exact ⟨by rw [h.first], by omega⟩

/-- A refused construct costs nothing. -/
theorem Ready.refuse (h : Ready known first bound spare s) (options : Options) :
    Settled known first bound spare s (s.refuse options) := by
  have hlen := length_afterConstruct_le 0 s.input.lexemes
  refine ⟨⟨?_, ?_, ?_⟩, State.depth_refuse s options, ?_⟩
  · rw [State.code_refuse]
    exact h.first
  · have hroom := h.room
    rw [State.code_refuse, State.lexemes_refuse]
    omega
  · intro x hx
    rw [State.lexemes_refuse] at hx
    exact h.names x ((afterConstruct_suffix 0 _).subset hx)
  · rw [State.lexemes_refuse]
    exact hlen

end

/-! ### Expressions -/

/-- Each name in a list is known, or it stands for an operand that is missing. -/
def Known (known : String → Prop) (names : List String) : Prop :=
  ∀ x ∈ names, known x ∨ x = missing

/-- In an empty list every name is known. -/
theorem Known.nil {known : String → Prop} : Known known [] :=
  fun _ hx => absurd hx List.not_mem_nil

/-- Two lists of known names are one. -/
theorem Known.append {known : String → Prop} {names more : List String}
    (h : Known known names) (h' : Known known more) : Known known (names ++ more) := by
  intro x hx
  rcases List.mem_append.mp hx with hx | hx
  · exact h x hx
  · exact h' x hx

/-- The current name is known. -/
theorem Ready.known {known : String → Prop} {first bound spare : Nat} {s : State}
    (h : Ready known first bound spare s) {name : String}
    (hcur : s.input.current? = some (.ident name)) : Known known [name] := by
  intro x hx
  obtain rfl := List.mem_singleton.mp hx
  refine Or.inl (h.names x ?_)
  rw [TokenStream.lexemes_of_current? hcur]
  exact List.mem_cons_self ..

/-- The operand that stands for a missing one is always known. -/
theorem Known.missing {known : String → Prop} : Known known [Generate.missing] :=
  fun _ hx => Or.inr (List.mem_singleton.mp hx)

/-- The contract of an action that reads an operand, for inputs of fewer than
`n` lexemes: it emits the code of an expression over the known names and answers its
operand. -/
def Evaluates (known : String → Prop) (first bound : Nat) (options : Options) (n : Nat)
    (x : Generate String) : Prop :=
  ∀ (spare : Nat) (s : State), s.input.lexemes.length < n → Ready known first bound spare s →
    Ends (Overflows first bound) x options s fun value s' =>
      Settled known first bound spare s s' ∧
        ∃ e : Expr, Known known e.names ∧
          Computes s.code s.temps.next e value s'.code s'.temps.next

section
variable {known : String → Prop} {first bound n : Nat} {options : Options}

/-- A factor, if the expression in its parentheses keeps the contract. The
parenthesis is read before that expression, so there is one lexeme more. -/
theorem factor_evaluates {inner : Generate String}
    (hinner : Evaluates known first bound options n inner) :
    Evaluates known first bound options (n + 1) (factor inner) := by
  intro spare s hlen h
  simp only [factor, ends_bind, ends_current?]
  split
  · next name hcur =>
    simp only [ends_bind, ends_get]
    split
    · simp only [ends_bind, ends_pure, ends_advance]
      refine ⟨h.advance _, .name name, h.known hcur, ?_⟩
      rw [State.code_advance, State.temps_advance]
      exact Computes.name _ _ name
    · simp only [ends_bind, ends_pure, ends_report, ends_advance]
      have hrep := h.report ⟨s.input.line, .undeclared name⟩
      refine ⟨hrep.trans (hrep.ready.advance _), .name name, h.known hcur, ?_⟩
      rw [State.code_advance, State.temps_advance]
      exact Computes.name _ _ name
  · next digits hcur =>
    simp only [ends_bind, ends_pure, ends_advance]
    refine ⟨h.advance _, .number digits, Known.nil, ?_⟩
    rw [State.code_advance, State.temps_advance]
    exact Computes.number _ _ digits
  · next hcur =>
    simp only [ends_bind, ends_pure, ends_advance]
    obtain ⟨-, hlt⟩ := h.advance_some hcur options.maxDigits.toNat
    refine (hinner spare _ (by omega) (h.advance _).ready).mono ?_
    rintro value s' ⟨hset, e, hknown, he⟩
    refine (hset.ready.expect (.punct .rparen)).mono ?_
    rintro - s'' ⟨hset', hcode, htemps⟩
    refine ⟨((h.advance _).trans hset).trans hset', e, hknown, ?_⟩
    rw [State.code_advance, State.temps_advance] at he
    rw [hcode, htemps]
    exact he
  · -- What stands here stays, and a missing operand takes its place.
    simp only [ends_bind, ends_pure, ends_expected]
    exact ⟨h.report _, .missing, Known.missing, Computes.missing _ _⟩

/-- A chain of operands. The expression so far is `e`, which was computed from
`store` on. Each round reads an operator, which pays for its instruction. -/
theorem chain_evaluates {op? : Option Lexeme → Option ArithOp} (hop : op? none = none)
    {operand : Generate String} (hoperand : Evaluates known first bound options n operand)
    (fuel : Nat) :
    ∀ (spare : Nat) (s : State) (store : Store) (next : Nat) (e : Expr) (lhs : String),
      s.input.lexemes.length < fuel → s.input.lexemes.length ≤ n → Ready known first bound spare s →
      Known known e.names → Computes store next e lhs s.code s.temps.next →
      Ends (Overflows first bound) (chain op? operand fuel lhs) options s fun value s' =>
        Settled known first bound spare s s' ∧
          ∃ e' : Expr, Known known e'.names ∧
            Computes store next e' value s'.code s'.temps.next := by
  induction fuel with
  | zero => intro spare s store next e lhs hlen; omega
  | succ fuel ih =>
      intro spare s store next e lhs hlen hn h hknown he
      simp only [chain, ends_bind, ends_current?]
      split
      · next op hsome =>
        obtain ⟨lexeme, hcur⟩ := exists_current hop hsome
        simp only [ends_bind, ends_advance]
        obtain ⟨hadv, hlt⟩ := h.advance_some hcur options.maxDigits.toNat
        refine (hoperand _ _ (by omega) hadv.ready).mono ?_
        rintro rhs s₁ ⟨hset₁, r, hknown₁, hr⟩
        rw [State.code_advance, State.temps_advance] at hr
        -- The operator was read, so there is room for its instruction.
        have hroom : Ready known first bound (spare + 1) s₁ := hset₁.ready.mono (by omega)
        refine hroom.emitTemp _ ?_
        intro s₂ hset₂ hcode htemps
        have hread := (hadv.trans hset₁).trans hset₂
        have hlen₁ := hset₁.length
        have hlen₂ := hset₂.length
        have hcomp : Computes store next (.binary op e r) (Temporaries.name s₁.temps.next)
            s₂.code s₂.temps.next := by
          rw [hcode, htemps]
          exact he.binary op hr
        refine (ih spare s₂ store next (.binary op e r) _ (by omega) (by omega) hset₂.ready
          (hknown.append hknown₁) hcomp).mono ?_
        rintro value s₃ ⟨hset₃, e', he'⟩
        exact ⟨hread.trans hset₃, e', he'⟩
      · simp only [ends_pure]
        exact ⟨Settled.refl h, e, hknown, he⟩

/-- A term, the budget being larger than the number of lexemes. -/
theorem term_evaluates {inner : Generate String} {fuel : Nat} (hfuel : n < fuel)
    (hinner : Evaluates known first bound options n inner) :
    Evaluates known first bound options (n + 1) (term inner fuel) := by
  intro spare s hlen h
  simp only [term, ends_bind]
  refine (factor_evaluates hinner spare s hlen h).mono ?_
  rintro value s₁ ⟨hset₁, e, hknown, he⟩
  have hlen₁ := hset₁.length
  refine (chain_evaluates rfl (factor_evaluates hinner) fuel spare s₁ s.code s.temps.next e value
    (by omega) (by omega) hset₁.ready hknown he).mono ?_
  rintro value' s₂ ⟨hset₂, e', he'⟩
  exact ⟨hset₁.trans hset₂, e', he'⟩

/-- The first term with its sign. A minus was read before its instruction. -/
theorem signedTerm_evaluates {inner : Generate String} {fuel : Nat} (hfuel : n < fuel)
    (hinner : Evaluates known first bound options n inner) :
    Evaluates known first bound options (n + 1) (signedTerm inner fuel) := by
  intro spare s hlen h
  simp only [signedTerm, leadingMinus, ends_bind, ends_current?]
  split
  · next op hsome =>
    obtain ⟨lexeme, hcur⟩ := exists_current rfl hsome
    obtain ⟨hadv, hlt⟩ := h.advance_some hcur options.maxDigits.toNat
    simp only [ends_bind, ends_advance, ends_pure]
    refine (term_evaluates hfuel hinner _ _ (by omega) hadv.ready).mono ?_
    rintro value s₁ ⟨hset₁, e, hknown, he⟩
    rw [State.code_advance, State.temps_advance] at he
    have hroom : Ready known first bound (spare + 1) s₁ := hset₁.ready.mono (by omega)
    split
    · refine hroom.emitTemp _ ?_
      intro s₂ hset₂ hcode htemps
      refine ⟨(hadv.trans hset₁).trans hset₂, .neg e, hknown, ?_⟩
      rw [hcode, htemps]
      exact he.neg
    · -- A plus is read and emits nothing, so its room is given back.
      have hread := hadv.trans hset₁
      exact ⟨⟨hread.ready.mono (by omega), hread.depth, hread.length⟩, e, hknown, he⟩
  · simp only [ends_pure, Bool.false_eq_true, if_false]
    exact term_evaluates hfuel hinner spare s hlen h

/-- **Every expression keeps the contract**, if the budget exceeds the number of
lexemes by two. -/
theorem expression_evaluates (fuel : Nat) :
    Evaluates known first bound options (fuel - 1) (expression fuel) := by
  induction fuel with
  | zero => intro spare s hlen; omega
  | succ fuel ih =>
      intro spare s hlen h
      have hlen' : s.input.lexemes.length < fuel := by omega
      obtain ⟨n, rfl⟩ : ∃ n, fuel = n + 1 := ⟨fuel - 1, by omega⟩
      rw [Nat.add_sub_cancel] at ih
      rw [expression_ownLevel]
      split
      · -- Inside, the depth is one more than outside, until it is left again.
        rw [ends_bind]
        have hin : Ready known first bound spare { s with depth := s.depth + 1 } :=
          ⟨h.first, h.room, h.names⟩
        refine (signedTerm_evaluates (Nat.lt_succ_self n) ih spare { s with depth := s.depth + 1 }
          hlen' hin).mono ?_
        rintro value s₁ ⟨hset₁, e, hknown, he⟩
        have hlen₁ : s₁.input.lexemes.length ≤ s.input.lexemes.length := hset₁.length
        refine (chain_evaluates rfl (term_evaluates (Nat.lt_succ_self n) ih) (n + 1) spare s₁
          s.code s.temps.next e value (by omega) (by omega) hset₁.ready hknown he).mono ?_
        rintro value' s₂ ⟨hset₂, e', he'⟩
        have hread := hset₁.trans hset₂
        exact ⟨⟨⟨hread.ready.first, hread.ready.room, hread.ready.names⟩, rfl, hread.length⟩,
          e', he'⟩
      · -- The expression lies too deep and is refused: it counts as a missing operand.
        refine ⟨h.refuse options, .missing, Known.missing, ?_⟩
        rw [State.code_refuse, State.temps_refuse]
        exact Computes.missing _ _

/-- A condition emits two pending jumps behind the code of its sides, for which
there must be room. -/
theorem condition_tests {spare fuel : Nat} {s : State}
    (hlen : s.input.lexemes.length < fuel - 1) (h : Ready known first bound (spare + 2) s) :
    Ends (Overflows first bound) (condition fuel) options s fun exits s' =>
      Settled known first bound spare s s' ∧
        ∃ c : Condition, Known known c.names ∧
          Tests s.code s.temps.next c exits s'.code s'.temps.next := by
  simp only [condition, ends_bind]
  refine (expression_evaluates fuel _ s hlen h).mono ?_
  rintro left s₁ ⟨hset₁, l, hknownl, hl⟩
  -- The relation is read or its absence is reported; neither touches the code.
  have hrel : Ends (Overflows first bound) relation options s₁ fun _ s' =>
      Settled known first bound (spare + 2) s₁ s' ∧ s'.code = s₁.code ∧ s'.temps = s₁.temps := by
    simp only [relation, ends_bind, ends_current?]
    split
    · exact ⟨hset₁.ready.advance _, State.code_advance _ _, State.temps_advance _ _⟩
    · exact ⟨hset₁.ready.report _, rfl, rfl⟩
  refine hrel.mono ?_
  rintro op s₂ ⟨hset₂, hcode₂, htemps₂⟩
  have hlen₁ := hset₁.length
  have hlen₂ := hset₂.length
  refine (expression_evaluates fuel _ s₂ (by omega) hset₂.ready).mono ?_
  rintro right s₃ ⟨hset₃, r, hknownr, hr⟩
  rw [hcode₂, htemps₂] at hr
  -- The two addresses that were kept free are for the two jumps.
  refine hset₃.ready.emit _ ?_
  intro hset₄
  refine hset₄.ready.emit _ ?_
  intro hset₅
  exact ⟨(((hset₁.trans hset₂).trans hset₃).trans hset₄).trans hset₅, ⟨l, op, r⟩,
    hknownl.append hknownr, Tests.of_computes op hl hr⟩

end

/-! ### Statements -/

/-- A statement was read from `s` to `s'`: the code of some tree was emitted,
the jumps in `pending` lead to it, and those in `out` are left. What can start a
statement is not left standing. -/
structure Executed (known : String → Prop) (first bound spare : Nat) (pending : JumpList)
    (s : State) (out : JumpList) (s' : State) : Prop where
  settled : Settled known first bound spare s s'
  progress : startsStatement s.input.current? = true →
    s'.input.lexemes.length < s.input.lexemes.length
  performs : ∃ t : Stmt, Known known t.names ∧
    Performs s.code s.temps.next pending t out s'.code s'.temps.next

/-- The contract of an action that reads a statement, for inputs of fewer than
`n` lexemes. -/
def Executes (known : String → Prop) (first bound : Nat) (options : Options) (n : Nat)
    (x : JumpList → Generate JumpList) : Prop :=
  ∀ (spare : Nat) (s : State) (pending : JumpList), s.input.lexemes.length < n →
    Ready known first bound spare s → s.code.Waiting pending.addresses →
    Ends (Overflows first bound) (x pending) options s (Executed known first bound spare pending s)

section
variable {known : String → Prop} {first bound n spare : Nat} {options : Options} {s : State}
  {pending : JumpList}

/-- An assignment is paid for by its name. -/
theorem assignment_executes {fuel : Nat} {name : String}
    (hlen : s.input.lexemes.length < fuel) (h : Ready known first bound spare s)
    (hwait : s.code.Waiting pending.addresses)
    (hcur : s.input.current? = some (.ident name)) :
    Ends (Overflows first bound) (assignment fuel name pending) options s
      (Executed known first bound spare pending s) := by
  simp only [assignment, ends_bind, ends_backpatchHere hwait, ends_line, ends_advance]
  have hres := h.resolve pending.addresses s.code.nextAddress
  obtain ⟨hadv, hlt⟩ := hres.ready.advance_some hcur options.maxDigits.toNat
  generalize hs₁ : State.advance _ _ = s₁ at hadv hlt ⊢
  have hcode₁ : s₁.code = s.code.resolve pending.addresses s.code.nextAddress := by
    rw [← hs₁, State.code_advance]
  have htemps₁ : s₁.temps = s.temps := by
    rw [← hs₁, State.temps_advance]
  -- The check of the target and of `:=` may report, and keeps the code.
  have hcheck : Ends (Overflows first bound) (checkTarget name s.input.line) options s₁
      fun _ s' => Settled known first bound (spare + 3) s₁ s' ∧
        s'.code = s₁.code ∧ s'.temps = s₁.temps := by
    simp only [checkTarget, ends_bind, ends_get]
    split
    · exact ⟨Settled.refl hadv.ready, rfl, rfl⟩
    · exact ⟨hadv.ready.report _, rfl, rfl⟩
    · exact ⟨hadv.ready.report _, rfl, rfl⟩
  refine hcheck.mono ?_
  rintro - s₂ ⟨hset₂, hcode₂, htemps₂⟩
  refine hset₂.ready.expectBecomes.mono ?_
  rintro - s₃ ⟨hset₃, hcode₃, htemps₃⟩
  have hread := (hadv.trans hset₂).trans hset₃
  have hlen₂ := hset₂.length
  have hlen₃ := hset₃.length
  have hlt₁ : s₁.input.lexemes.length < s.input.lexemes.length := hlt
  refine (expression_evaluates fuel _ s₃ (by omega) hset₃.ready).mono ?_
  rintro value s₄ ⟨hset₄, e, hknown, he⟩
  rw [hcode₃, hcode₂, hcode₁, htemps₃, htemps₂, htemps₁] at he
  have hroom : Ready known first bound (spare + 1) s₄ := hset₄.ready.mono (by omega)
  refine hroom.emit _ ?_
  intro hset₅
  have hlen₄ := hset₄.length
  rw [ends_pure]
  refine ⟨hres.trans ((hread.trans hset₄).trans hset₅), fun _ => ?_, .assign name e,
    (h.known hcur).append hknown, Performs.assign name he⟩
  show s₄.input.lexemes.length < s.input.lexemes.length
  omega

/-- What a choice and a loop begin with: the keyword is read, which pays for
three instructions, then the condition, and its branch is resolved. -/
theorem test_executes {fuel : Nat} {lexeme : Lexeme} (closing : Lexeme)
    (h : Ready known first bound spare s) (hlen : s.input.lexemes.length < fuel)
    (hcur : s.input.current? = some lexeme) {Q : Exits → State → Prop}
    (hQ : ∀ exits s' (c : Condition) store, Settled known first bound (spare + 1) s s' →
      s'.input.lexemes.length < s.input.lexemes.length → Known known c.names →
      Tests s.code s.temps.next c exits store s'.temps.next →
      s'.code = store.resolve exits.onTrue.addresses store.nextAddress → Q exits s') :
    Ends (Overflows first bound) (condition fuel) options (s.advance options.maxDigits.toNat)
      fun exits s₁ => Ends (Overflows first bound) (expect closing) options s₁ fun _ s₂ =>
        Ends (Overflows first bound) (backpatchHere exits.onTrue) options s₂ fun _ s₃ =>
          Q exits s₃ := by
  obtain ⟨hadv, hlt⟩ := h.advance_some hcur options.maxDigits.toNat
  refine (condition_tests (by omega) hadv.ready).mono ?_
  rintro exits s₁ ⟨hset₁, c, hknown, hc⟩
  rw [State.code_advance, State.temps_advance] at hc
  refine (hset₁.ready.expect closing).mono ?_
  rintro - s₂ ⟨hset₂, hcode₂, htemps₂⟩
  -- The branch still stands where the condition left it.
  have hwait : s₂.code.Waiting exits.onTrue.addresses := by
    rw [hcode₂]
    exact hc.waiting_onTrue
  rw [ends_backpatchHere hwait]
  have hread := (hadv.trans hset₁).trans hset₂
  have hlen₁ := hset₁.length
  have hlen₂ := hset₂.length
  refine hQ exits _ c s₁.code (hread.trans (hset₂.ready.resolve _ _)) ?_ hknown ?_ ?_
  · show s₂.input.lexemes.length < s.input.lexemes.length
    omega
  · rw [htemps₂]
    exact hc
  · rw [hcode₂]

/-- A choice: `IF` pays for two instructions. -/
theorem choice_executes {fuel : Nat} {inner : JumpList → Generate JumpList}
    (hinner : Executes known first bound options n inner) (hn : s.input.lexemes.length ≤ n)
    (hlen : s.input.lexemes.length < fuel) (h : Ready known first bound spare s)
    (hwait : s.code.Waiting pending.addresses)
    (hcur : s.input.current? = some (.keyword .ifKw)) :
    Ends (Overflows first bound) (choice inner fuel pending) options s
      (Executed known first bound spare pending s) := by
  simp only [choice, ends_bind, ends_backpatchHere hwait, ends_advance]
  have hres := h.resolve pending.addresses s.code.nextAddress
  refine test_executes (.keyword .thenKw) hres.ready hlen hcur ?_
  intro exits s₁ c store hset₁ hlt hknown hc hcode₁
  have hlt₁ : s₁.input.lexemes.length < s.input.lexemes.length := hlt
  refine (hinner _ s₁ .empty (by omega) hset₁.ready (Store.waiting_nil _)).mono ?_
  rintro out s₂ ⟨hset₂, -, t, hknownt, ht⟩
  rw [hcode₁] at ht
  obtain ⟨hwait₂, hperf⟩ := Performs.choice hc ht
  rw [ends_backpatchHere hwait₂, ends_pure]
  have hread := hres.trans (hset₁.trans hset₂)
  -- A choice has no closing jump, so one of the three addresses is left over.
  have hend := hread.trans (hread.ready.resolve exits.onFalse.addresses s₂.code.nextAddress)
  have hlen₂ := hset₂.length
  refine ⟨⟨hend.ready.mono (by omega), hend.depth, hend.length⟩, fun _ => ?_, .choice c t,
    hknown.append hknownt, hperf⟩
  show s₂.input.lexemes.length < s.input.lexemes.length
  omega

/-- A loop: `WHILE` pays for three instructions. -/
theorem loop_executes {fuel : Nat} {inner : JumpList → Generate JumpList}
    (hinner : Executes known first bound options n inner) (hn : s.input.lexemes.length ≤ n)
    (hlen : s.input.lexemes.length < fuel) (h : Ready known first bound spare s)
    (hwait : s.code.Waiting pending.addresses)
    (hcur : s.input.current? = some (.keyword .whileKw)) :
    Ends (Overflows first bound) (loop inner fuel pending) options s
      (Executed known first bound spare pending s) := by
  simp only [loop, ends_bind, ends_backpatchHere hwait, ends_advance]
  have hres := h.resolve pending.addresses s.code.nextAddress
  refine test_executes (.keyword .doKw) hres.ready hlen hcur ?_
  intro exits s₁ c store hset₁ hlt hknown hc hcode₁
  have hlt₁ : s₁.input.lexemes.length < s.input.lexemes.length := hlt
  refine (hinner _ s₁ .empty (by omega) hset₁.ready (Store.waiting_nil _)).mono ?_
  rintro out s₂ ⟨hset₂, -, t, hknownt, ht⟩
  rw [hcode₁] at ht
  obtain ⟨hwait₂, hperf⟩ := Performs.loop hc ht
  obtain ⟨-, rfl⟩ := ht.of_empty
  -- The body leaves no jump, so there is nothing to send back to the start.
  rw [show backpatch .empty s.code.nextAddress = (pure () : Generate Unit) from rfl, ends_pure]
  refine hset₂.ready.emit _ ?_
  intro hset₃
  rw [ends_backpatchHere hwait₂, ends_pure]
  have hread := hres.trans (hset₁.trans (hset₂.trans hset₃))
  have hlen₂ := hset₂.length
  refine ⟨hread.trans (hread.ready.resolve _ _), fun _ => ?_, .loop c t,
    hknown.append hknownt, hperf⟩
  show s₂.input.lexemes.length < s.input.lexemes.length
  omega

/-- The statements of a compound after the first. A round that is followed by
another one reads a semicolon or a whole statement. -/
theorem sequence_executes {inner : JumpList → Generate JumpList}
    (hinner : Executes known first bound options n inner) (fuel : Nat) :
    ∀ (spare : Nat) (s : State) (pending : JumpList), s.input.lexemes.length < fuel →
      s.input.lexemes.length < n → Ready known first bound spare s →
      s.code.Waiting pending.addresses →
      Ends (Overflows first bound) (sequence inner fuel pending) options s fun out s' =>
        Settled known first bound spare s s' ∧
          ∃ t : Stmt, Known known t.names ∧
          Performs s.code s.temps.next pending t out s'.code s'.temps.next := by
  induction fuel with
  | zero => intro spare s pending hlen; omega
  | succ fuel ih =>
      intro spare s pending hlen hn h hwait
      simp only [sequence, ends_bind, ends_eat]
      split
      · next hcur =>
        simp only [if_true, ends_bind]
        have hadv := h.advance options.maxDigits.toNat
        obtain ⟨-, hlt⟩ := h.advance_some hcur options.maxDigits.toNat
        have hwait₁ : (s.advance options.maxDigits.toNat).code.Waiting pending.addresses := by
          rw [State.code_advance]
          exact hwait
        refine (hinner spare _ pending (by omega) hadv.ready hwait₁).mono ?_
        rintro between s₁ ⟨hset₁, -, f, hknownf, hf⟩
        have hlen₁ := hset₁.length
        refine (ih spare s₁ between (by omega) (by omega) hset₁.ready (hf.waiting hwait₁)).mono ?_
        rintro out s₂ ⟨hset₂, t, hknownt, ht⟩
        rw [State.code_advance, State.temps_advance] at hf
        exact ⟨(hadv.trans hset₁).trans hset₂, .seq f t, hknownf.append hknownt, hf.seq ht⟩
      · simp only [Bool.false_eq_true, if_false, ends_bind, ends_current?]
        split
        · -- The semicolon is missing but a statement starts here. It reads a lexeme at
          -- least, so the budget suffices for the next round.
          next hstarts =>
          simp only [ends_bind, ends_expected]
          have hmiss : Settled known first bound spare s
              (s.miss (Lexeme.punct .semicolon).describe) :=
            h.report _
          refine (hinner spare (s.miss _) pending hn hmiss.ready hwait).mono ?_
          rintro between s₁ ⟨hset₁, hprogress, f, hknownf, hf⟩
          have hlt := hprogress hstarts
          have hlen₁ : s₁.input.lexemes.length < s.input.lexemes.length := hlt
          refine (ih spare s₁ between (by omega) (by omega) hset₁.ready (hf.waiting hwait)).mono ?_
          rintro out s₂ ⟨hset₂, t, hknownt, ht⟩
          exact ⟨(hmiss.trans hset₁).trans hset₂, .seq f t, hknownf.append hknownt, hf.seq ht⟩
        · -- Neither a semicolon nor a statement: the sequence ends.
          rw [ends_pure]
          exact ⟨Settled.refl h, .skip, Known.nil, Performs.skip _ _ _⟩

/-- A compound emits its statements one after the other. -/
theorem compound_executes {fuel : Nat} {inner : JumpList → Generate JumpList}
    (hinner : Executes known first bound options n inner) (hn : s.input.lexemes.length ≤ n)
    (hlen : s.input.lexemes.length < fuel) (h : Ready known first bound spare s)
    (hwait : s.code.Waiting pending.addresses)
    (hcur : s.input.current? = some (.keyword .beginKw)) :
    Ends (Overflows first bound) (compound inner fuel pending) options s
      (Executed known first bound spare pending s) := by
  simp only [compound, ends_bind, ends_advance]
  have hadv := h.advance options.maxDigits.toNat
  obtain ⟨-, hlt⟩ := h.advance_some hcur options.maxDigits.toNat
  have hwait₁ : (s.advance options.maxDigits.toNat).code.Waiting pending.addresses := by
    rw [State.code_advance]
    exact hwait
  refine (hinner spare _ pending (by omega) hadv.ready hwait₁).mono ?_
  rintro between s₁ ⟨hset₁, -, f, hknownf, hf⟩
  have hlen₁ := hset₁.length
  refine (sequence_executes hinner fuel spare s₁ between (by omega) (by omega) hset₁.ready
    (hf.waiting hwait₁)).mono ?_
  rintro out s₂ ⟨hset₂, t, hknownt, ht⟩
  have hlen₂ := hset₂.length
  refine (hset₂.ready.expect (.keyword .endKw)).mono ?_
  rintro - s₃ ⟨hset₃, hcode₃, htemps₃⟩
  have hlen₃ := hset₃.length
  rw [State.code_advance, State.temps_advance] at hf
  rw [ends_pure]
  exact ⟨((hadv.trans hset₁).trans hset₂).trans hset₃, fun _ => by omega, .seq f t,
    hknownf.append hknownt, by rw [hcode₃, htemps₃]; exact hf.seq ht⟩

/-- The statement at the current token, whatever that is. -/
theorem construct_executes {fuel : Nat} {inner : JumpList → Generate JumpList}
    (hinner : Executes known first bound options n inner) (hn : s.input.lexemes.length ≤ n)
    (hlen : s.input.lexemes.length < fuel) (h : Ready known first bound spare s)
    (hwait : s.code.Waiting pending.addresses) :
    Ends (Overflows first bound) (construct inner fuel pending) options s
      (Executed known first bound spare pending s) := by
  -- The empty statement: what stands here follows a statement, and stays.
  have hquiet : startsStatement s.input.current? = false →
      Executed known first bound spare pending s pending s := by
    intro hno
    refine ⟨Settled.refl h, ?_, .skip, Known.nil, Performs.skip _ _ _⟩
    intro hyes
    rw [hno] at hyes
    exact nomatch hyes
  simp only [construct, ends_bind, ends_current?]
  split
  · next name hcur => exact assignment_executes hlen h hwait hcur
  · next hcur => exact choice_executes hinner hn hlen h hwait hcur
  · next hcur => exact loop_executes hinner hn hlen h hwait hcur
  · next hcur => exact compound_executes hinner hn hlen h hwait hcur
  · next hcur => exact hquiet (by rw [hcur]; rfl)
  · next hcur => exact hquiet (by rw [hcur]; rfl)
  · next hcur => exact hquiet (by rw [hcur]; rfl)
  · next hcur =>
    -- A stray lexeme is reported and passed over.
    simp only [ends_bind, ends_expected, ends_advance, ends_pure]
    have hmiss : Settled known first bound spare s (s.miss "statement") := h.report _
    obtain ⟨-, hlt⟩ := hmiss.ready.advance_some hcur options.maxDigits.toNat
    refine ⟨hmiss.trans (hmiss.ready.advance _), fun _ => hlt, .skip, Known.nil, ?_⟩
    rw [State.code_advance, State.temps_advance]
    exact Performs.skip _ _ _

end

/-- What starts a statement is not left when a construct is dropped. -/
theorem length_afterConstruct_lt {lexemes : List Lexeme}
    (h : startsStatement lexemes.head? = true) :
    (afterConstruct 0 lexemes).length < lexemes.length := by
  cases lexemes with
  | nil => exact nomatch h
  | cons lexeme rest =>
      have hle := length_afterConstruct_le
      simp only [List.head?_cons, startsStatement] at h
      -- Each lexeme that starts a statement is dropped; `BEGIN` opens a bracket as well.
      split at h
      · next heq => cases heq; exact Nat.lt_succ_of_le (hle 0 rest)
      · next heq => cases heq; exact Nat.lt_succ_of_le (hle 0 rest)
      · next heq => cases heq; exact Nat.lt_succ_of_le (hle 0 rest)
      · next heq => cases heq; exact Nat.lt_succ_of_le (hle 1 rest)
      · exact nomatch h

/-- **Every statement keeps the contract**, if the budget exceeds the number of
lexemes by two. -/
theorem statement_executes {known : String → Prop} {first bound : Nat} {options : Options}
    (fuel : Nat) :
    Executes known first bound options (fuel - 1) (statement fuel) := by
  induction fuel with
  | zero => intro spare s pending hlen; omega
  | succ fuel ih =>
      intro spare s pending hlen h hwait
      have hlen' : s.input.lexemes.length < fuel := by omega
      rw [statement_ownLevel]
      split
      · have hin : Ready known first bound spare { s with depth := s.depth + 1 } :=
          ⟨h.first, h.room, h.names⟩
        refine (construct_executes (s := { s with depth := s.depth + 1 }) ih
          (show s.input.lexemes.length ≤ fuel - 1 by omega) hlen' hin hwait).mono ?_
        rintro out s₁ ⟨hset, hprogress, t, ht⟩
        exact ⟨⟨⟨hset.ready.first, hset.ready.room, hset.ready.names⟩, rfl, hset.length⟩,
          hprogress, t, ht⟩
      · -- The statement lies too deep and is refused: it counts as the empty one, and the
        -- jumps that were to reach it are handed on.
        refine ⟨h.refuse options, ?_, .skip, Known.nil, ?_⟩
        · intro hstarts
          rw [TokenStream.current?_eq_head?] at hstarts
          rw [State.lexemes_refuse]
          exact length_afterConstruct_lt hstarts
        · rw [State.code_refuse, State.temps_refuse]
          exact Performs.skip _ _ _

/-! ### Declarations -/

/-- The contract of an action that reads declarations, for inputs of fewer than
`n` lexemes: it emits the code of a statement. -/
def Declares (known : String → Prop) (first bound : Nat) (options : Options) (n : Nat)
    (x : Generate Unit) : Prop :=
  ∀ (spare : Nat) (s : State), s.input.lexemes.length < n → Ready known first bound spare s →
    Ends (Overflows first bound) x options s fun _ s' =>
      Settled known first bound spare s s' ∧
        ∃ t : Stmt, Known known t.names ∧
          Performs s.code s.temps.next .empty t .empty s'.code s'.temps.next

section
variable {known : String → Prop} {first bound n : Nat} {options : Options}

/-- The name of a declaration keeps the code. If it is there, it pays for three
instructions. -/
theorem declaration?_settles {spare : Nat} {s : State} (what : String) (kind : SymbolKind)
    (h : Ready known first bound spare s) :
    Ends (Overflows first bound) (declaration? what kind) options s fun name? s' =>
      Settled known first bound (if name?.isSome then spare + 3 else spare) s s' ∧
        Known known name?.toList ∧ s'.code = s.code ∧ s'.temps = s.temps := by
  simp only [declaration?, ident?, ends_bind, ends_line, ends_current?]
  split
  · next name hcur =>
    obtain ⟨hadv, -⟩ := h.advance_some hcur options.maxDigits.toNat
    simp only [ends_bind, ends_advance, ends_pure, declare, ends_get]
    split
    · exact ⟨⟨⟨hadv.ready.first, hadv.ready.room, hadv.ready.names⟩, hadv.depth, hadv.length⟩,
        h.known hcur, State.code_advance _ _, State.temps_advance _ _⟩
    · exact ⟨hadv.trans (hadv.ready.report _), h.known hcur, State.code_advance _ _,
        State.temps_advance _ _⟩
  · simp only [ends_bind, ends_expected, ends_pure]
    exact ⟨h.report _, Known.nil, rfl, rfl⟩

/-- The definition of a constant is an assignment, or nothing. -/
theorem definition_declares : Declares known first bound options n definition := by
  intro spare s hlen h
  simp only [definition, ends_bind]
  refine (declaration?_settles "constant name" .const h).mono ?_
  rintro name? s₁ ⟨hset₁, hknown, hcode₁, htemps₁⟩
  refine hset₁.ready.expectBecomes.mono ?_
  rintro - s₂ ⟨hset₂, hcode₂, htemps₂⟩
  have hread := hset₁.trans hset₂
  have hcode : s₂.code = s.code := hcode₂.trans hcode₁
  have htemps : s₂.temps = s.temps := htemps₂.trans htemps₁
  have hless : ∀ {s' : State},
      Settled known first bound (if name?.isSome then spare + 3 else spare) s s' →
      Settled known first bound spare s s' := by
    intro s' hset
    refine ⟨hset.ready.mono ?_, hset.depth, hset.length⟩
    split <;> omega
  simp only [number?, ends_bind, ends_current?]
  split
  · next digits hcur =>
    simp only [ends_bind, ends_advance, ends_pure]
    have hadv := hread.trans (hread.ready.advance options.maxDigits.toNat)
    cases name? with
    -- Without a name nothing is emitted, even if the number is there.
    | none =>
        refine ⟨hless hadv, .skip, Known.nil, ?_⟩
        rw [State.code_advance, State.temps_advance, hcode, htemps]
        exact Performs.skip _ _ _
    | some name =>
        have hroom : Ready known first bound (spare + 1) (s₂.advance options.maxDigits.toNat) :=
          hadv.ready.mono (by simp)
        simp only [ends_bind]
        refine hroom.emit _ ?_
        intro hset₃
        refine ⟨hadv.trans hset₃, .assign name (.number digits), hknown, ?_⟩
        have hnum := Computes.number s.code s.temps.next digits
        simp only [State.code_advance, State.temps_advance, hcode, htemps]
        exact Performs.assign name hnum
  · simp only [ends_bind, ends_expected, ends_pure]
    have hmiss := hread.trans (hread.ready.report ⟨s₂.input.line, .expected "number"
      (Lexeme.describe? s₂.input.current?)⟩)
    refine ⟨hless hmiss, .skip, Known.nil, ?_⟩
    show Performs _ _ _ _ _ s₂.code s₂.temps.next
    rw [hcode, htemps]
    exact Performs.skip _ _ _

/-- The declaration of a variable emits nothing. -/
theorem variableName_declares : Declares known first bound options n variableName := by
  intro spare s hlen h
  simp only [variableName, ends_bind, ends_pure]
  refine (declaration?_settles "variable name" .var h).mono ?_
  rintro name? s₁ ⟨hset₁, hknown, hcode₁, htemps₁⟩
  refine ⟨⟨hset₁.ready.mono ?_, hset₁.depth, hset₁.length⟩, .skip, Known.nil, ?_⟩
  · split <;> omega
  · rw [hcode₁, htemps₁]
    exact Performs.skip _ _ _

/-- Items with commas between them. Each round but the last reads a comma. -/
theorem items_declares {item : Generate Unit}
    (hitem : ∀ {n : Nat}, Declares known first bound options n item) (fuel : Nat) :
    Declares known first bound options fuel (items item fuel) := by
  induction fuel with
  | zero => intro spare s hlen; omega
  | succ fuel ih =>
      intro spare s hlen h
      simp only [items, ends_bind]
      refine (hitem spare s hlen h).mono ?_
      rintro - s₁ ⟨hset₁, f, hknownf, hf⟩
      simp only [ends_eat]
      split
      · next hcur =>
        simp only [if_true]
        have hadv := hset₁.ready.advance options.maxDigits.toNat
        obtain ⟨-, hlt⟩ := hset₁.ready.advance_some hcur options.maxDigits.toNat
        have hlen₁ := hset₁.length
        refine (ih spare _ (by omega) hadv.ready).mono ?_
        rintro - s₂ ⟨hset₂, t, hknownt, ht⟩
        rw [State.code_advance, State.temps_advance] at ht
        exact ⟨(hset₁.trans hadv).trans hset₂, .seq f t, hknownf.append hknownt, hf.seq ht⟩
      · simp only [Bool.false_eq_true, if_false, ends_pure]
        exact ⟨hset₁, f, hknownf, hf⟩

/-- A section of declarations, whose keyword is read first. -/
theorem declarationSection_declares {item : Generate Unit}
    (hitem : ∀ {n : Nat}, Declares known first bound options n item) {fuel spare : Nat} {s : State}
    {lexeme : Lexeme} (hcur : s.input.current? = some lexeme)
    (hlen : s.input.lexemes.length ≤ fuel) (h : Ready known first bound spare s) :
    Ends (Overflows first bound) (declarationSection item fuel) options s fun _ s' =>
      Settled known first bound spare s s' ∧
        s'.input.lexemes.length < s.input.lexemes.length ∧
        ∃ t : Stmt, Known known t.names ∧
          Performs s.code s.temps.next .empty t .empty s'.code s'.temps.next := by
  simp only [declarationSection, ends_bind, ends_advance]
  have hadv := h.advance options.maxDigits.toNat
  obtain ⟨-, hlt⟩ := h.advance_some hcur options.maxDigits.toNat
  refine (items_declares hitem fuel spare _ (by omega) hadv.ready).mono ?_
  rintro - s₁ ⟨hset₁, t, hknown, ht⟩
  refine (hset₁.ready.expect (.punct .semicolon)).mono ?_
  rintro - s₂ ⟨hset₂, hcode₂, htemps₂⟩
  have hlen₁ := hset₁.length
  have hlen₂ := hset₂.length
  rw [State.code_advance, State.temps_advance] at ht
  refine ⟨(hadv.trans hset₁).trans hset₂, by omega, t, hknown, ?_⟩
  rw [hcode₂, htemps₂]
  exact ht

/-- The declarations of a program. Each round but the last reads a keyword. -/
theorem declarations_declares (fuel : Nat) :
    Declares known first bound options fuel (declarations fuel) := by
  induction fuel with
  | zero => intro spare s hlen; omega
  | succ fuel ih =>
      intro spare s hlen h
      -- One section, and then what the induction says about the others.
      have hround : ∀ {item : Generate Unit} {lexeme : Lexeme},
          (∀ {n : Nat}, Declares known first bound options n item) →
          s.input.current? = some lexeme →
          Ends (Overflows first bound)
            (do declarationSection item fuel; declarations fuel) options s fun _ s' =>
            Settled known first bound spare s s' ∧
              ∃ t : Stmt, Known known t.names ∧
          Performs s.code s.temps.next .empty t .empty s'.code s'.temps.next := by
        intro item lexeme hitem hcur
        rw [ends_bind]
        refine (declarationSection_declares hitem hcur (by omega) h).mono ?_
        rintro - s₁ ⟨hset₁, hlt, f, hknownf, hf⟩
        refine (ih spare s₁ (by omega) hset₁.ready).mono ?_
        rintro - s₂ ⟨hset₂, t, hknownt, ht⟩
        exact ⟨hset₁.trans hset₂, .seq f t, hknownf.append hknownt, hf.seq ht⟩
      rw [declarations, ends_bind, ends_current?]
      split
      · next hcur => exact hround definition_declares hcur
      · next hcur => exact hround variableName_declares hcur
      · rw [ends_pure]
        exact ⟨Settled.refl h, .skip, Known.nil, Performs.skip _ _ _⟩

end

/-! ### Programs -/

/-- Code without a pending jump has no unresolved address. -/
theorem unresolved_eq_nil {store : Store}
    (h : ∀ instruction ∈ store.code, instruction.isPending = false) : store.unresolved = [] := by
  unfold Store.unresolved
  rw [List.map_eq_nil_iff, List.filter_eq_nil_iff]
  intro entry hentry
  simp [h entry.2 (Store.mem_of_mem_entries hentry)]

/-- **Every program ends with the code of a tree**, or the addresses run out. -/
theorem program_ends {options : Options} {input : TokenStream} {fuel bound : Nat}
    (hfuel : input.lexemes.length + 2 ≤ fuel)
    (hbound : options.firstAddress.toNat + 3 * input.lexemes.length ≤ bound) :
    Ends (Overflows options.firstAddress.toNat bound) (program fuel) options
      (.start options input) fun _ s' =>
        ∃ t : Stmt, Known (fun x => .ident x ∈ input.lexemes) t.names ∧
          s'.code = (emptyStore options).append
            (t.code options.firstAddress.toNat options.firstTemp.toNat) := by
  have h : Ready (fun x => .ident x ∈ input.lexemes) options.firstAddress.toNat bound 0
      (.start options input) := ⟨rfl, hbound, fun _ hx => hx⟩
  have hcode₀ : (State.start options input).code = emptyStore options := rfl
  have htemps₀ : (State.start options input).temps.next = options.firstTemp.toNat := rfl
  have hlen₀ : (State.start options input).input.lexemes.length + 2 ≤ fuel := hfuel
  generalize State.start options input = s at h hcode₀ htemps₀ hlen₀ ⊢
  simp only [program, ends_bind, ends_checkNumber]
  have hcheck : Ready (fun x => .ident x ∈ input.lexemes) options.firstAddress.toNat bound 0
      (s.checkNumber options.maxDigits.toNat) := by
    refine ⟨?_, ?_, ?_⟩
    · simpa using h.first
    · simpa using h.room
    · simpa using h.names
  refine (hcheck.expect (.keyword .programKw)).mono ?_
  rintro - s₁ ⟨hset₁, hcode₁, htemps₁⟩
  -- The name of the program is read or missed, and the code is as before.
  have hname : Ends (Overflows options.firstAddress.toNat bound) (ident? "program name") options s₁
      fun _ s' => Settled (fun x => .ident x ∈ input.lexemes) options.firstAddress.toNat bound 0
        s₁ s' ∧
        s'.code = s₁.code ∧ s'.temps = s₁.temps := by
    simp only [ident?, ends_bind, ends_current?]
    split
    · exact ⟨hset₁.ready.advance _, State.code_advance _ _, State.temps_advance _ _⟩
    · exact ⟨hset₁.ready.report _, rfl, rfl⟩
  refine hname.mono ?_
  rintro name? s₂ ⟨hset₂, hcode₂, htemps₂⟩
  have hlen₁ := hset₁.length
  have hlen₂ := hset₂.length
  rw [State.input_checkNumber] at hlen₁
  refine (declarations_declares fuel 0 s₂ (by omega) hset₂.ready).mono ?_
  rintro - s₃ ⟨hset₃, d, hknownd, hd⟩
  have hlen₃ := hset₃.length
  refine (statement_executes fuel 0 s₃ .empty (by omega) hset₃.ready (Store.waiting_nil _)).mono ?_
  rintro out s₄ ⟨-, -, t, hknownt, ht⟩
  rw [hcode₂, hcode₁, htemps₂, htemps₁, State.code_checkNumber, State.temps_checkNumber, hcode₀,
    htemps₀] at hd
  obtain ⟨hcode₄, rfl⟩ := (hd.seq ht).of_empty
  -- What stands behind the statement is reported, and no jump is left.
  have hend : Ends (Overflows options.firstAddress.toNat bound) expectEnd options s₄
      fun _ s' => s'.code = s₄.code := by
    simp only [expectEnd, ends_bind, ends_current?]
    split <;> rfl
  refine hend.mono ?_
  rintro - s₅ hcode₅
  rw [ends_backpatchHere_empty]
  -- Every jump of a tree has its target, so the final check finds nothing.
  have hresolved : s₅.code.unresolved = [] := by
    refine unresolved_eq_nil ?_
    intro instruction hmem
    rw [hcode₅, hcode₄] at hmem
    simp only [Store.append, emptyStore, Array.empty_append, List.mem_toArray] at hmem
    cases hjump : instruction.isJump with
    | false => simp [Instruction.isPending, hjump]
    | true =>
        obtain ⟨target, htarget, -, -⟩ := Stmt.target_mem_range hmem hjump
        simp [Instruction.isPending, htarget]
  simp only [checkResolved, ends_bind, ends_get, hresolved, ends_pure]
  exact ⟨d.seq t, hknownd.append hknownt, by rw [hcode₅, hcode₄]; rfl⟩

/-- The only fault that a program can end in is that the addresses run out. -/
theorem fault_of_program {options : Options} {input : TokenStream} {fuel : Nat}
    (hfuel : input.tokens.length + 2 ≤ fuel) {fault : Fault} {s : State}
    (h : program fuel options (.start options input) = .error fault s) :
    fault = .addressOverflow options.firstAddress.toNat := by
  have hlexemes : input.lexemes.length + 2 ≤ fuel := by
    rw [TokenStream.lexemes, List.length_map]
    exact hfuel
  have hends : Ends _ (program fuel) options (.start options input) _ :=
    program_ends hlexemes (Nat.le_refl _)
  unfold Ends at hends
  rw [h] at hends
  exact hends.1

end Generate

/-- The code of a compilation is that of a tree, whose names stand in the source. -/
theorem exists_tree_of_compile {options : Options} {source : String} {compilation : Compilation}
    (hok : compile options source = .ok compilation) :
    ∃ t : Stmt, Generate.Known (fun x => .ident x ∈ (scan source).lexemes) t.names ∧
      compilation.code = (Generate.emptyStore options).append
        (t.code options.firstAddress.toNat options.firstTemp.toNat) := by
  obtain ⟨s, hrun, hcode, -⟩ := run_of_compile hok
  have hfuel : (scan source).lexemes.length + 2 ≤ (scan source).budget := by
    rw [TokenStream.lexemes, List.length_map]
    exact Nat.le_refl _
  rw [hcode]
  exact (Generate.program_ends hfuel (Nat.le_refl _)).ok hrun

/-- Each instruction of a compilation has an address, and so has the end of its code. -/
theorem fits_of_compile {options : Options} {source : String} {compilation : Compilation}
    (hok : compile options source = .ok compilation) :
    compilation.code.nextAddress ≤ maxWord := by
  obtain ⟨s, hrun, hcode, -⟩ := run_of_compile hok
  rw [hcode]
  have hstart : (Generate.State.start options (scan source)).code.nextAddress ≤ maxWord :=
    toNat_le_maxWord options.firstAddress
  exact (Generate.program_keepsRoom options _ _ hstart).ok hrun

/-- A compilation has fewer instructions than there are words. -/
theorem size_lt_of_compile {options : Options} {source : String} {compilation : Compilation}
    (hok : compile options source = .ok compilation) :
    compilation.code.code.size < UInt64.size := by
  have hfits : compilation.code.first.toNat + compilation.code.code.size ≤ maxWord :=
    fits_of_compile hok
  have hword : maxWord < UInt64.size := by decide
  omega

/-- The code of a compilation is that of a tree. The only fault is that the
addresses run out, and then three for each token did not fit. -/
theorem compileTokens_cases (options : Options) (input : TokenStream) :
    (∃ compilation t, compileTokens options input = .ok compilation ∧
      compilation.code = (Generate.emptyStore options).append
        (Stmt.code options.firstAddress.toNat options.firstTemp.toNat t)) ∨
    (compileTokens options input = .error (.addressOverflow options.firstAddress.toNat) ∧
      maxWord < options.firstAddress.toNat + 3 * input.tokens.length) := by
  have hlen : input.lexemes.length = input.tokens.length := List.length_map ..
  have hfuel : input.lexemes.length + 2 ≤ input.budget := by
    rw [hlen]
    exact Nat.le_refl _
  have hends := Generate.program_ends hfuel
    (Nat.le_refl (options.firstAddress.toNat + 3 * input.lexemes.length))
  unfold Generate.Ends at hends
  unfold compileTokens
  cases hrun : Generate.program input.budget options (.start options input) with
  | ok name? s =>
      rw [hrun] at hends
      obtain ⟨t, -, hcode⟩ := hends
      exact Or.inl ⟨_, t, rfl, hcode⟩
  | error fault s =>
      rw [hrun] at hends
      obtain ⟨rfl, hlarge⟩ := hends
      rw [hlen] at hlarge
      exact Or.inr ⟨rfl, hlarge⟩

/-- **No source can break the bookkeeping of jumps.** A compilation succeeds or
runs out of addresses. If it succeeds, every jump has a target, which is an
address of the code or the one right after it. It succeeds whenever three
addresses for each token fit. -/
theorem compile_jumps_have_targets (options : Options) (source : String) :
    ((∃ compilation, compile options source = .ok compilation ∧
        ∀ instruction ∈ compilation.code.code, instruction.isJump = true →
          ∃ target, instruction.target? = some target ∧
            options.firstAddress.toNat ≤ target ∧ target ≤ compilation.code.nextAddress) ∨
      compile options source = .error (.addressOverflow options.firstAddress.toNat)) ∧
    (options.firstAddress.toNat + 3 * (scan source).tokens.length ≤ maxWord →
      ∃ compilation, compile options source = .ok compilation) := by
  unfold compile
  rcases compileTokens_cases options (scan source) with
    ⟨compilation, t, hok, hcode⟩ | ⟨herr, hlarge⟩
  · refine ⟨Or.inl ⟨compilation, hok, ?_⟩, fun _ => ⟨compilation, hok⟩⟩
    intro instruction hmem hjump
    -- The code is that of a tree, whose targets lie in its own range.
    rw [hcode] at hmem ⊢
    rw [Store.nextAddress_append, Stmt.length_code]
    simp only [Store.append, Generate.emptyStore, Array.empty_append, List.mem_toArray] at hmem
    exact Stmt.target_mem_range hmem hjump
  · refine ⟨Or.inr herr, fun hfits => ?_⟩
    exact absurd hfits (by omega)

/-- A source that is no program: a loop and a choice in it, both without a condition,
and a parenthesis that is left over. The compilation succeeds, and the jumps of both
have targets. -/
theorem compile_jumps_have_targets_stray :
    ∃ compilation, compile {} "WHILE DO IF THEN )" = .ok compilation ∧
      ∀ instruction ∈ compilation.code.code, instruction.isJump = true →
        ∃ target, instruction.target? = some target ∧
          0 ≤ target ∧ target ≤ compilation.code.nextAddress := by
  obtain ⟨hends, hfits⟩ := compile_jumps_have_targets {} "WHILE DO IF THEN )"
  obtain ⟨compilation, hok⟩ := hfits (by decide +kernel)
  rcases hends with hok' | herror
  · exact hok'
  · rw [hok] at herror
    exact nomatch herror

end ThreeAddress
