import ThreeAddress.Proofs.Emission
import ThreeAddress.Proofs.Grammar
import ThreeAddress.Proofs.Levels

/-!
# One pass gives the plain translation

If the lexemes of a source are derived by a program of the grammar, and its
nesting is within the limit, then the generator emits the plain translation of
this program and has nothing to say about its form. Names that are undeclared
or declared twice do not matter for this.

The proof follows the derivation. `Translates` says of a phrase what the
procedure for its level does when the phrase stands at the front of the input,
and `Carries` says the same of a statement. Terms, sums and sequences are read
by loops: the front part of the phrase is what the loop has read so far, so
these cases are stated about the loop that goes on behind the phrase.

The statements are about runs that end well. `program_ends` says which faults the
others end in.
-/

set_option autoImplicit false

namespace ThreeAddress

/-- Whether a problem concerns the form of a program: what stands where, and how
deep. -/
def Problem.isSyntactic : Problem → Bool
  | expected _ _ => true
  | nestingTooDeep _ => true
  | trailingInput _ => true
  | duplicateDeclaration _ => false
  | undeclared _ => false
  | assignToConstant _ => false
  | numberTooLong _ _ => false

namespace Generate

/-! ### Reading without complaint -/

/-- Nothing was said about the form of the program so far. -/
structure State.Clean (s : State) : Prop where
  depthReported : s.depthReported = false
  diagnostics : ∀ diagnostic ∈ s.diagnostics, diagnostic.problem.isSyntactic = false

namespace State

/-- A report keeps a state clean if it is not about the form. -/
theorem clean_report (s : State) (diagnostic : Diagnostic) :
    (s.report diagnostic).Clean ↔ s.Clean ∧ diagnostic.problem.isSyntactic = false := by
  constructor
  · intro h
    have hold : ∀ d ∈ s.diagnostics, d.problem.isSyntactic = false :=
      fun d hd => h.diagnostics d (Array.mem_push_of_mem diagnostic hd)
    exact ⟨⟨h.depthReported, hold⟩, h.diagnostics diagnostic Array.mem_push_self⟩
  · intro h
    refine ⟨h.1.depthReported, ?_⟩
    intro d hd
    rcases Array.mem_push.mp hd with hd | rfl
    · exact h.1.diagnostics d hd
    · exact h.2

/-- The length of a number is no matter of form. -/
@[simp] theorem clean_checkNumber (s : State) (maxDigits : Nat) :
    (s.checkNumber maxDigits).Clean ↔ s.Clean := by
  unfold checkNumber
  split
  · next diagnostic hlong =>
    -- The only report that is made here is about a number with too many digits.
    have hform : diagnostic.problem.isSyntactic = false := by
      simp only [overlong?, Option.bind_eq_some_iff, Token.overlong?] at hlong
      obtain ⟨token, -, hlong⟩ := hlong
      split at hlong
      · split at hlong
        · rw [← Option.some.inj hlong]
          rfl
        · exact nomatch hlong
      · exact nomatch hlong
    rw [clean_report]
    exact ⟨fun h => h.1, fun h => ⟨h, hform⟩⟩
  · exact Iff.rfl

/-- Moving on is no cause for complaint. -/
@[simp] theorem clean_advance (s : State) (maxDigits : Nat) :
    (s.advance maxDigits).Clean ↔ s.Clean := by
  unfold advance
  rw [clean_checkNumber]
  exact ⟨fun h => ⟨h.depthReported, h.diagnostics⟩, fun h => ⟨h.depthReported, h.diagnostics⟩⟩

end State

/-- From `s` to `s'` the lexemes before `rest` were read. The depth is as before,
and there was no complaint about the form. -/
structure Reads (rest : List Lexeme) (s s' : State) : Prop where
  lexemes : s'.input.lexemes = rest
  depth : s'.depth = s.depth
  clean : s.Clean → s'.Clean

namespace Reads

/-- Nothing is read. -/
theorem refl (s : State) : Reads s.input.lexemes s s := ⟨rfl, rfl, id⟩

/-- One piece after another. -/
theorem trans {between rest : List Lexeme} {s s' s'' : State} (h : Reads between s s')
    (h' : Reads rest s' s'') : Reads rest s s'' :=
  ⟨h'.lexemes, h'.depth.trans h.depth, fun hclean => h'.clean (h.clean hclean)⟩

/-- The current lexeme is read by moving on. -/
theorem advance {s : State} {lexeme : Lexeme} {rest : List Lexeme}
    (h : s.input.lexemes = lexeme :: rest) (maxDigits : Nat) :
    Reads rest s (s.advance maxDigits) := by
  refine ⟨?_, State.depth_advance s maxDigits, (State.clean_advance s maxDigits).mpr⟩
  rw [State.input_advance, TokenStream.lexemes_tail, h]
  rfl

/-- One more lexeme is read by moving on. -/
theorem next {s s' : State} {lexeme : Lexeme} {rest : List Lexeme}
    (h : Reads (lexeme :: rest) s s') (maxDigits : Nat) : Reads rest s (s'.advance maxDigits) :=
  h.trans (advance h.lexemes maxDigits)

/-- Work on the code and on the names reads nothing. -/
theorem keep {rest : List Lexeme} {s s' s'' : State} (h : Reads rest s s')
    (hinput : s''.input = s'.input) (hdepth : s''.depth = s'.depth)
    (hreported : s''.depthReported = s'.depthReported)
    (hdiagnostics : s''.diagnostics = s'.diagnostics) : Reads rest s s'' := by
  refine ⟨?_, hdepth.trans h.depth, ?_⟩
  · rw [hinput, h.lexemes]
  · intro hclean
    have hclean' := h.clean hclean
    exact ⟨hreported.trans hclean'.depthReported, hdiagnostics ▸ hclean'.diagnostics⟩

/-- What was read one level deeper was read. -/
theorem leave {rest : List Lexeme} {s s' : State}
    (h : Reads rest { s with depth := s.depth + 1 } s') :
    Reads rest s { s' with depth := s.depth } := by
  refine ⟨h.lexemes, rfl, ?_⟩
  intro hclean
  have hclean' := h.clean ⟨hclean.depthReported, hclean.diagnostics⟩
  exact ⟨hclean'.depthReported, hclean'.diagnostics⟩

/-- A report that is not about the form reads nothing. -/
theorem report {rest : List Lexeme} {s s' : State} (h : Reads rest s s')
    {diagnostic : Diagnostic} (hform : diagnostic.problem.isSyntactic = false) :
    Reads rest s (s'.report diagnostic) :=
  ⟨h.lexemes, h.depth, fun hclean =>
    (State.clean_report s' diagnostic).mpr ⟨h.clean hclean, hform⟩⟩

end Reads

/-- What stands before `rest` was read, and the instructions in `code` were
emitted for it. -/
structure Emits (code : List Instruction) (rest : List Lexeme) (s s' : State) : Prop where
  reads : Reads rest s s'
  code : s'.code = s.code.append code
  temps : s'.temps = s.temps

namespace Emits

/-- One piece after another. -/
theorem trans {code code' : List Instruction} {between rest : List Lexeme} {s s' s'' : State}
    (h : Emits code between s s') (h' : Emits code' rest s' s'') :
    Emits (code ++ code') rest s s'' := by
  refine ⟨h.reads.trans h'.reads, ?_, h'.temps.trans h.temps⟩
  rw [h'.code, h.code, Store.append_append]

/-- Moving on emits nothing. -/
theorem advance {code : List Instruction} {lexeme : Lexeme} {rest : List Lexeme} {s s' : State}
    (h : Emits code (lexeme :: rest) s s') (maxDigits : Nat) :
    Emits code rest s (s'.advance maxDigits) := by
  refine ⟨h.reads.next maxDigits, ?_, ?_⟩
  · rw [State.code_advance, h.code]
  · rw [State.temps_advance, h.temps]

/-- Nothing is read and nothing emitted. -/
theorem refl {rest : List Lexeme} {s : State} (h : s.input.lexemes = rest) :
    Emits [] rest s s :=
  ⟨h ▸ Reads.refl s, (Store.append_nil _).symm, rfl⟩

end Emits

section
variable {options : Options} {s : State}

/-- An expected lexeme that is there is read. -/
theorem ends_expect_of_lexemes {lexeme : Lexeme} {rest : List Lexeme}
    (h : s.input.lexemes = lexeme :: rest) {Q : Unit → State → Prop}
    (hQ : Q () (s.advance options.maxDigits.toNat)) :
    Ends (fun _ => True) (expect lexeme) options s Q := by
  rw [ends_expect, if_pos (TokenStream.current?_of_lexemes h)]
  exact hQ

/-- What an emission that succeeds leads to. -/
theorem ends_emit_of_room {instruction : Instruction} {Q : Nat → State → Prop}
    (hQ : Q s.code.nextAddress { s with code := s.code.push instruction }) :
    Ends (fun _ => True) (emit instruction) options s Q := by
  rw [ends_emit]
  split
  · exact hQ
  · trivial

/-- The same for the assignment to a new temporary. -/
theorem ends_emitTemp_of_room {value : Rvalue} {Q : String → State → Prop}
    (hQ : Q (Temporaries.name s.temps.next)
      { s with
        code := s.code.push (.assign (Temporaries.name s.temps.next) value)
        temps := ⟨s.temps.next + 1⟩ }) :
    Ends (fun _ => True) (emitTemp value) options s Q := by
  rw [ends_emitTemp]
  split
  · exact hQ
  · trivial

/-- A chain stops at what is not one of its operators. -/
theorem ends_chain_of_stop {op? : Option Lexeme → Option ArithOp} {operand : Generate String}
    {value : String} (hop : op? s.input.lexemes.head? = none) {Q : String → State → Prop}
    (hQ : Q value s) (fuel : Nat) :
    Ends (fun _ => True) (chain op? operand fuel value) options s Q := by
  cases fuel with
  -- Without budget the run ends in a fault, about which nothing is said.
  | zero => trivial
  | succ fuel =>
      rw [chain, ends_bind, ends_current?, TokenStream.current?_eq_head?, hop]
      exact hQ

end

/-! ### Expressions -/

/-- No operator stands here, so an expression ends. -/
def EndsExpression (rest : List Lexeme) : Prop :=
  ∀ op, rest.head? ≠ some (.arith op)

/-- A lexeme that is no operator ends an expression. -/
theorem endsExpression_cons {lexeme : Lexeme} (h : ∀ op, lexeme ≠ .arith op)
    (rest : List Lexeme) : EndsExpression (lexeme :: rest) := by
  intro op hop
  exact h op (Option.some.inj hop)

/-- No sign stands where an expression ends. -/
theorem EndsExpression.sumOp? {rest : List Lexeme} (h : EndsExpression rest) :
    sumOp? rest.head? = none := by
  unfold Generate.sumOp?
  split
  · next hop => exact absurd hop (h .add)
  · next hop => exact absurd hop (h .sub)
  · rfl

/-- No operator of a term stands there either. -/
theorem EndsExpression.productOp? {rest : List Lexeme} (h : EndsExpression rest) :
    productOp? rest.head? = none := by
  unfold Generate.productOp?
  split
  · next hop => exact absurd hop (h .mul)
  · next hop => exact absurd hop (h .div)
  · rfl

/-- The phrase before `rest` was read and its code emitted, and its value is in
the operand `value`. -/
structure Evaluated {level : Level} (p : Phrase level) (rest : List Lexeme) (s : State)
    (value : String) (s' : State) : Prop where
  reads : Reads rest s s'
  computes : Computes s.code s.temps.next p.tree value s'.code s'.temps.next

/-- What the procedures do at a phrase whose nesting is within the limit. A factor
and an expression are read and translated. A term and a sum are what a loop has
read so far: if the loop, going on behind the phrase, ends in `Q`, then reading
from the start of the phrase ends in `Q`. -/
def Translates (options : Options) : {level : Level} → Phrase level → Prop
  | .factor, p => ∀ (fuel : Nat) (s : State) (rest : List Lexeme),
      s.input.lexemes = p.lexemes ++ rest → p.nesting ≤ options.maxDepth.toNat - s.depth →
      Ends (fun _ => True) (factor (expression fuel)) options s (Evaluated p rest s)
  | .term, p => ∀ (fuel : Nat) (s : State) (rest : List Lexeme) (Q : String → State → Prop),
      s.input.lexemes = p.lexemes ++ rest → p.nesting ≤ options.maxDepth.toNat - s.depth →
      (∀ value s', Evaluated p rest s value s' → ∀ n,
        Ends (fun _ => True) (chain productOp? (factor (expression fuel)) n value) options s' Q) →
      ∀ n, Ends (fun _ => True) (term (expression fuel) n) options s Q
  | .sum, p => ∀ (fuel : Nat) (s : State) (rest : List Lexeme) (Q : String → State → Prop),
      productOp? rest.head? = none →
      s.input.lexemes = p.lexemes ++ rest → p.nesting ≤ options.maxDepth.toNat - s.depth →
      (∀ value s', Evaluated p rest s value s' → ∀ n,
        Ends (fun _ => True) (chain sumOp? (term (expression fuel) fuel) n value) options s' Q) →
      ∀ n, Ends (fun _ => True)
        (signedTerm (expression fuel) fuel >>= chain sumOp? (term (expression fuel) fuel) n)
        options s Q
  | .expression, p => ∀ (fuel : Nat) (s : State) (rest : List Lexeme), EndsExpression rest →
      s.input.lexemes = p.lexemes ++ rest → p.nesting ≤ options.maxDepth.toNat - s.depth →
      Ends (fun _ => True) (expression fuel) options s (Evaluated p rest s)

section
variable {options : Options}

/-- A name is read, declared or not. -/
theorem translates_name (text : String) : Translates options (.name text) := by
  intro fuel s rest hlex hroom
  rw [factor, ends_bind, ends_current?, TokenStream.current?_of_lexemes hlex]
  simp only [ends_bind, ends_get]
  split
  · simp only [ends_bind, ends_pure, ends_advance]
    refine ⟨Reads.advance hlex _, ?_⟩
    rw [State.code_advance, State.temps_advance]
    exact Computes.name _ _ text
  · -- An undeclared name is reported and read all the same.
    simp only [ends_bind, ends_pure, ends_report, ends_advance]
    have hreport : Reads s.input.lexemes s (s.report ⟨s.input.line, .undeclared text⟩) :=
      (Reads.refl s).report rfl
    refine ⟨hreport.trans (Reads.advance (s := s.report _) hlex _), ?_⟩
    rw [State.code_advance, State.temps_advance]
    exact Computes.name _ _ text

/-- A number is read. -/
theorem translates_number (digits : String) : Translates options (.number digits) := by
  intro fuel s rest hlex hroom
  rw [factor, ends_bind, ends_current?, TokenStream.current?_of_lexemes hlex]
  simp only [ends_bind, ends_pure, ends_advance]
  refine ⟨Reads.advance hlex _, ?_⟩
  rw [State.code_advance, State.temps_advance]
  exact Computes.number _ _ digits

/-- Parentheses are read with what is in them. -/
theorem translates_parens {inner : Phrase .expression} (ih : Translates options inner) :
    Translates options (.parens inner) := by
  intro fuel s rest hlex hroom
  rw [Phrase.lexemes_parens_append] at hlex
  rw [factor, ends_bind, ends_current?, TokenStream.current?_of_lexemes hlex]
  simp only [ends_bind, ends_pure, ends_advance]
  have hopen := Reads.advance hlex options.maxDigits.toNat
  -- The closing parenthesis is no operator, so the expression in front of it ends.
  have hends : EndsExpression (.punct .rparen :: rest) := endsExpression_cons (by simp) _
  apply (ih fuel _ _ hends hopen.lexemes (by rw [hopen.depth]; exact hroom)).mono
  intro value s₁ hinner
  apply ends_expect_of_lexemes hinner.reads.lexemes
  refine ⟨(hopen.trans hinner.reads).next options.maxDigits.toNat, ?_⟩
  have hcomputes := hinner.computes
  rw [State.code_advance, State.temps_advance] at hcomputes
  rw [State.code_advance, State.temps_advance]
  exact hcomputes

/-- The first factor of a term. -/
theorem translates_factor {first : Phrase .factor} (ih : Translates options first) :
    Translates options (.factor first) := by
  intro fuel s rest Q hlex hroom hnext n
  rw [term, ends_bind]
  apply (ih fuel s rest hlex hroom).mono
  intro value s₁ hfirst
  exact hnext value s₁ ⟨hfirst.reads, hfirst.computes⟩ n

/-- One more factor of a term. The loop that has read the front part reads the
operator and the factor, and goes on. -/
theorem translates_product {front : Phrase .term} {op : ProductOp} {last : Phrase .factor}
    (ihf : Translates options front) (ihl : Translates options last) :
    Translates options (.product front op last) := by
  intro fuel s rest Q hlex hroom hnext n
  rw [Phrase.lexemes_product_append] at hlex
  obtain ⟨hroomf, hrooml⟩ := Nat.max_le.mp hroom
  -- What the loop does behind the front part is to read one operator and one factor.
  apply ihf fuel s _ Q hlex hroomf
  intro value s₁ hfront n
  cases n with
  | zero => trivial
  | succ n =>
      rw [chain, ends_bind, ends_current?, TokenStream.current?_of_lexemes hfront.reads.lexemes,
        productOp?_arith]
      simp only [ends_bind, ends_advance]
      have hread := hfront.reads.next options.maxDigits.toNat
      apply (ihl fuel _ rest hread.lexemes (by rw [hread.depth]; exact hrooml)).mono
      intro right s₂ hlast
      apply ends_emitTemp_of_room
      apply hnext
      have hreads := hread.trans hlast.reads
      have hright := hlast.computes
      rw [State.code_advance, State.temps_advance] at hright
      exact ⟨hreads.keep rfl rfl rfl rfl, hfront.computes.binary op.arith hright⟩

/-- A term starts with a name, a number or a parenthesis, and so with no sign. -/
theorem sumOp?_head?_lexemes {level : Level} (p : Phrase level)
    (hlevel : level = .factor ∨ level = .term) (rest : List Lexeme) :
    sumOp? (p.lexemes ++ rest).head? = none := by
  induction p generalizing rest with
  | name text => rfl
  | number digits => rfl
  | parens inner _ => rfl
  | factor first ih => exact ih (.inl rfl) rest
  | product front op last ihf _ =>
      simp only [Phrase.lexemes, List.append_assoc]
      exact ihf (.inr rfl) _
  | term sign first _ => simp at hlevel
  | sum front op last _ _ => simp at hlevel
  | expression whole _ => simp at hlevel

/-- A term that stands as a whole before `rest` is read as a whole. -/
theorem ends_term_of_stop {p : Phrase .term} (h : Translates options p) {fuel : Nat} {s : State}
    {rest : List Lexeme} {Q : String → State → Prop} (hstop : productOp? rest.head? = none)
    (hlex : s.input.lexemes = p.lexemes ++ rest)
    (hroom : p.nesting ≤ options.maxDepth.toNat - s.depth)
    (hQ : ∀ value s', Evaluated p rest s value s' → Q value s') (n : Nat) :
    Ends (fun _ => True) (term (expression fuel) n) options s Q := by
  apply h fuel s rest Q hlex hroom
  intro value s₁ hterm
  apply ends_chain_of_stop
  · rw [hterm.reads.lexemes]
    exact hstop
  · exact hQ value s₁ hterm

/-- The first term of a sum, with its sign. -/
theorem translates_term {sign : Option SumOp} {first : Phrase .term}
    (ih : Translates options first) : Translates options (.term sign first) := by
  intro fuel s rest Q hstop hlex hroom hnext n
  rw [ends_bind, signedTerm, ends_bind, leadingMinus, ends_bind, ends_current?,
    TokenStream.current?_eq_head?]
  cases sign with
  -- A term does not start with a sign, so none is found.
  | none =>
      have hlex₀ : s.input.lexemes = first.lexemes ++ rest := hlex
      rw [hlex₀, sumOp?_head?_lexemes first (.inr rfl)]
      simp only [ends_pure, ends_bind, Bool.false_eq_true, if_false]
      apply ends_term_of_stop ih hstop hlex₀ hroom
      intro value s₁ hfirst
      exact hnext value s₁ ⟨hfirst.reads, hfirst.computes⟩ n
  | some sign =>
      have hlex₀ : s.input.lexemes = .arith sign.arith :: (first.lexemes ++ rest) := hlex
      have hsign := Reads.advance hlex₀ options.maxDigits.toNat
      rw [hlex₀, List.head?_cons, sumOp?_arith]
      simp only [ends_bind, ends_advance, ends_pure]
      apply ends_term_of_stop ih hstop hsign.lexemes (by rw [hsign.depth]; exact hroom)
      intro value s₁ hfirst
      have hreads := hsign.trans hfirst.reads
      have hvalue := hfirst.computes
      rw [State.code_advance, State.temps_advance] at hvalue
      -- Only a minus has an instruction.
      cases sign with
      | add => exact hnext value s₁ ⟨hreads, hvalue⟩ n
      | sub =>
          apply ends_emitTemp_of_room
          apply hnext
          exact ⟨hreads.keep rfl rfl rfl rfl, hvalue.neg⟩

/-- One more term of a sum. -/
theorem translates_sum {front : Phrase .sum} {op : SumOp} {last : Phrase .term}
    (ihf : Translates options front) (ihl : Translates options last) :
    Translates options (.sum front op last) := by
  intro fuel s rest Q hstop hlex hroom hnext n
  rw [Phrase.lexemes_sum_append] at hlex
  obtain ⟨hroomf, hrooml⟩ := Nat.max_le.mp hroom
  -- The operator of the sum ends the last product of the front part.
  apply ihf fuel s (.arith op.arith :: (last.lexemes ++ rest)) Q (productOp?_sumOp op) hlex hroomf
  intro value s₁ hfront n
  cases n with
  | zero => trivial
  | succ n =>
      rw [chain, ends_bind, ends_current?, TokenStream.current?_of_lexemes hfront.reads.lexemes,
        sumOp?_arith]
      simp only [ends_bind, ends_advance]
      have hread := hfront.reads.next options.maxDigits.toNat
      -- The last term is read as a whole, since no product goes on behind it.
      apply ends_term_of_stop ihl hstop hread.lexemes (by rw [hread.depth]; exact hrooml)
      intro right s₂ hlast
      apply ends_emitTemp_of_room
      apply hnext
      have hreads := hread.trans hlast.reads
      have hright := hlast.computes
      rw [State.code_advance, State.temps_advance] at hright
      exact ⟨hreads.keep rfl rfl rfl rfl, hfront.computes.binary op.arith hright⟩

/-- An expression is one level deeper than what is around it. -/
theorem translates_expression {whole : Phrase .sum} (ih : Translates options whole) :
    Translates options (.expression whole) := by
  intro fuel s rest hends hlex hroom
  simp only [Phrase.nesting] at hroom
  cases fuel with
  | zero => trivial
  | succ fuel =>
      rw [expression_ownLevel, if_pos (show s.depth < _ by omega)]
      -- The level that is entered here is left behind the last term.
      have hinside : whole.nesting ≤ options.maxDepth.toNat - (s.depth + 1) := by
        omega
      have hrun := ih fuel { s with depth := s.depth + 1 } rest
        (Evaluated whole rest { s with depth := s.depth + 1 }) hends.productOp? hlex hinside
        (fun value s₁ hwhole n => ends_chain_of_stop
          (by rw [hwhole.reads.lexemes]; exact hends.sumOp?) hwhole n) fuel
      apply hrun.mono
      intro value s₁ hwhole
      exact ⟨hwhole.reads.leave, hwhole.computes⟩

/-- **Every phrase within the limit is translated.** -/
theorem phrase_translates {level : Level} (p : Phrase level) : Translates options p := by
  induction p with
  | name text => exact translates_name text
  | number digits => exact translates_number digits
  | parens inner ih => exact translates_parens ih
  | factor first ih => exact translates_factor ih
  | product front op last ihf ihl => exact translates_product ihf ihl
  | term sign first ih => exact translates_term ih
  | sum front op last ihf ihl => exact translates_sum ihf ihl
  | expression whole ih => exact translates_expression ih

/-- A condition within the limit is translated, its two jumps being pending. -/
theorem ends_condition (c : Comparison) {fuel : Nat} {s : State} {rest : List Lexeme}
    (hends : EndsExpression rest) (hlex : s.input.lexemes = c.lexemes ++ rest)
    (hroom : c.nesting ≤ options.maxDepth.toNat - s.depth) :
    Ends (fun _ => True) (condition fuel) options s fun exits s' =>
      Reads rest s s' ∧ Tests s.code s.temps.next c.tree exits s'.code s'.temps.next := by
  rw [Comparison.lexemes_append] at hlex
  obtain ⟨hrooml, hroomr⟩ := Nat.max_le.mp hroom
  have hrel : EndsExpression (.relation c.op :: (c.rhs.lexemes ++ rest)) :=
    endsExpression_cons (by simp) _
  rw [condition, ends_bind]
  apply (phrase_translates c.lhs fuel s _ hrel hlex hrooml).mono
  intro left s₁ hleft
  rw [ends_bind, relation, ends_bind, ends_current?,
    TokenStream.current?_of_lexemes hleft.reads.lexemes]
  simp only [ends_bind, ends_advance, ends_pure]
  have hread := hleft.reads.next options.maxDigits.toNat
  apply (phrase_translates c.rhs fuel _ rest hends hread.lexemes
    (by rw [hread.depth]; exact hroomr)).mono
  intro right s₂ hright
  -- The branch and the jump get their targets later.
  apply ends_emit_of_room
  apply ends_emit_of_room
  have hvalue := hright.computes
  rw [State.code_advance, State.temps_advance] at hvalue
  exact ⟨(hread.trans hright.reads).keep rfl rfl rfl rfl,
    Tests.of_computes c.op hleft.computes hvalue⟩

end

/-! ### Statements -/

/-- A statement ends here: at the end of the input, at a semicolon or at `END`. -/
def EndsStatement (rest : List Lexeme) : Prop :=
  rest.head? = none ∨ rest.head? = some (.punct .semicolon) ∨ rest.head? = some (.keyword .endKw)

/-- Where a statement ends, an expression ends too. -/
theorem EndsStatement.endsExpression {rest : List Lexeme} (h : EndsStatement rest) :
    EndsExpression rest := by
  intro op hop
  rcases h with h | h | h
  · exact nomatch h.symm.trans hop
  · exact nomatch h.symm.trans hop
  · exact nomatch h.symm.trans hop

/-- The statement before `rest` was read and its code emitted. No jump is left
that should reach what follows. -/
structure Performed {extent : Extent} (c : Clause extent) (rest : List Lexeme) (s s' : State) :
    Prop where
  reads : Reads rest s s'
  performs : Performs s.code s.temps.next .empty c.tree .empty s'.code s'.temps.next

/-- What the procedures do at statements whose nesting is within the limit. As for
a term, statements in sequence are what a loop has read so far. -/
def Carries (options : Options) : {extent : Extent} → Clause extent → Prop
  | .statement, c => ∀ (fuel : Nat) (s : State) (rest : List Lexeme), EndsStatement rest →
      s.input.lexemes = c.lexemes ++ rest → c.nesting ≤ options.maxDepth.toNat - s.depth →
      Ends (fun _ => True) (statement fuel .empty) options s fun out s' =>
        out = .empty ∧ Performed c rest s s'
  | .sequence, c => ∀ (fuel : Nat) (s : State) (rest : List Lexeme)
      (Q : JumpList → State → Prop), EndsStatement rest →
      s.input.lexemes = c.lexemes ++ rest → c.nesting ≤ options.maxDepth.toNat - s.depth →
      (∀ s', Performed c rest s s' → ∀ n,
        Ends (fun _ => True) (sequence (statement fuel) n .empty) options s' Q) →
      ∀ n, Ends (fun _ => True) (statement fuel .empty >>= sequence (statement fuel) n) options s Q

section
variable {options : Options}

/-- A statement is one level deeper than what is around it. The level is entered
before the construct and left after it. -/
theorem carries_of_construct {c : Clause .statement} {nesting : Nat}
    (hnesting : c.nesting = nesting + 1)
    (h : ∀ (fuel : Nat) (s : State) (rest : List Lexeme), EndsStatement rest →
      s.input.lexemes = c.lexemes ++ rest → nesting ≤ options.maxDepth.toNat - s.depth →
      Ends (fun _ => True) (construct (statement fuel) fuel .empty) options s fun out s' =>
        out = .empty ∧ Performed c rest s s') :
    Carries options c := by
  intro fuel s rest hends hlex hroom
  rw [hnesting] at hroom
  cases fuel with
  | zero => trivial
  | succ fuel =>
      rw [statement_ownLevel, if_pos (show s.depth < _ by omega)]
      -- One level is used up, and what is inside has one level less.
      have hinside : nesting ≤ options.maxDepth.toNat - (s.depth + 1) := by omega
      apply (h fuel { s with depth := s.depth + 1 } rest hends hlex hinside).mono
      intro out s₁ hdone
      obtain ⟨rfl, hdone⟩ := hdone
      exact ⟨rfl, hdone.reads.leave, hdone.performs⟩

/-- The empty statement reads nothing. -/
theorem carries_empty : Carries options .empty := by
  apply carries_of_construct rfl
  intro fuel s rest hends hlex hroom
  have hdone : Performed .empty rest s s := ⟨⟨hlex, rfl, id⟩, Performs.skip _ _ _⟩
  have hlex₀ : s.input.lexemes = rest := hlex
  rw [construct, ends_bind, ends_current?, TokenStream.current?_eq_head?, hlex₀]
  -- Each of the three lexemes that end a statement is left for what is around it.
  rcases hends with h | h | h
  · rw [h]
    exact ⟨rfl, hdone⟩
  · rw [h]
    exact ⟨rfl, hdone⟩
  · rw [h]
    exact ⟨rfl, hdone⟩

/-- What an assignment begins with: its name and `:=`. A name that may not be
assigned to is reported, and this is all. -/
theorem ends_target {name : String} {s : State} {rest : List Lexeme} {line : Nat}
    (hlex : s.input.lexemes = .ident name :: .punct .becomes :: rest) {Q : Unit → State → Prop}
    (hQ : ∀ s', Emits [] rest s s' → Q () s') :
    Ends (fun _ => True) (checkTarget name line) options (s.advance options.maxDigits.toNat)
      fun _ s₁ => Ends (fun _ => True) expectBecomes options s₁ Q := by
  have hname := (Emits.refl hlex).advance options.maxDigits.toNat
  have hcheck : Ends (fun _ => True) (checkTarget name line) options
      (s.advance options.maxDigits.toNat) fun _ s' => Emits [] (.punct .becomes :: rest) s s' := by
    rw [checkTarget, ends_bind, ends_get]
    split
    · exact hname
    · exact ⟨hname.reads.report rfl, hname.code, hname.temps⟩
    · exact ⟨hname.reads.report rfl, hname.code, hname.temps⟩
  apply hcheck.mono
  intro _ s₁ hchecked
  rw [expectBecomes, ends_bind, ends_eat,
    if_pos (TokenStream.current?_of_lexemes hchecked.reads.lexemes), if_pos rfl, ends_pure]
  exact hQ _ (hchecked.advance options.maxDigits.toNat)

/-- An assignment, whether its name may be assigned to or not. -/
theorem carries_assign {name : String} {value : Phrase .expression} :
    Carries options (.assign name value) := by
  apply carries_of_construct rfl
  intro fuel s rest hends hlex hroom
  rw [construct, ends_bind, ends_current?, TokenStream.current?_of_lexemes hlex]
  simp only [assignment, ends_bind, ends_backpatchHere_empty, ends_line, ends_advance]
  apply ends_target hlex
  intro s₁ htarget
  apply (phrase_translates value fuel s₁ rest hends.endsExpression htarget.reads.lexemes
    (by rw [htarget.reads.depth]; exact hroom)).mono
  intro operand s₂ hvalue
  apply ends_emit_of_room
  have hcomputes := hvalue.computes
  -- No jump was waiting, so the value is computed right behind what was there.
  rw [htarget.code, htarget.temps, Store.append_nil] at hcomputes
  have hperforms : Performs s.code s.temps.next .empty (.assign name value.tree) .empty _ _ :=
    Performs.assign name hcomputes
  exact ⟨rfl, (htarget.reads.trans hvalue.reads).keep rfl rfl rfl rfl, hperforms⟩

/-- What a choice and a loop begin with: the keyword `opening`, the condition and
the keyword `closing`. The branch of the condition then leads to the body. -/
theorem ends_test (test : Comparison) {opening closing : Lexeme} {fuel : Nat} {s : State}
    {rest : List Lexeme} (hclosing : EndsExpression (closing :: rest))
    (hlex : s.input.lexemes = opening :: (test.lexemes ++ closing :: rest))
    (hroom : test.nesting ≤ options.maxDepth.toNat - s.depth) {Q : Exits → State → Prop}
    (hQ : ∀ exits s' store, Reads rest s s' →
      Tests s.code s.temps.next test.tree exits store s'.temps.next →
      s'.code = store.resolve exits.onTrue.addresses store.nextAddress → Q exits s') :
    Ends (fun _ => True) (condition fuel) options (s.advance options.maxDigits.toNat)
      fun exits s₁ => Ends (fun _ => True) (expect closing) options s₁ fun _ s₂ =>
        Ends (fun _ => True) (backpatchHere exits.onTrue) options s₂ fun _ s₃ => Q exits s₃ := by
  have hopening := Reads.advance hlex options.maxDigits.toNat
  apply (ends_condition test hclosing hopening.lexemes (by rw [hopening.depth]; exact hroom)).mono
  intro exits s₁ htest
  obtain ⟨hread, htest⟩ := htest
  rw [State.code_advance, State.temps_advance] at htest
  apply ends_expect_of_lexemes hread.lexemes
  have hwait : (s₁.advance options.maxDigits.toNat).code.Waiting exits.onTrue.addresses := by
    rw [State.code_advance]
    exact htest.waiting_onTrue
  -- The branch goes to the next address, where the body starts.
  rw [ends_backpatchHere hwait]
  apply hQ exits _ s₁.code
  · exact ((hopening.trans hread).next options.maxDigits.toNat).keep rfl rfl rfl rfl
  · rw [State.temps_advance]
    exact htest
  · rw [State.code_advance]

/-- A choice, if its body is carried. -/
theorem carries_choice {test : Comparison} {body : Clause .statement}
    (ih : Carries options body) : Carries options (.choice test body) := by
  apply carries_of_construct rfl
  intro fuel s rest hends hlex hroom
  rw [Clause.lexemes_choice_append] at hlex
  have hthen : EndsExpression (.keyword .thenKw :: (body.lexemes ++ rest)) :=
    endsExpression_cons (by simp) _
  obtain ⟨hroomt, hroomb⟩ := Nat.max_le.mp hroom
  rw [construct, ends_bind, ends_current?, TokenStream.current?_of_lexemes hlex]
  simp only [choice, ends_bind, ends_backpatchHere_empty, ends_advance]
  apply ends_test test hthen hlex hroomt
  intro exits s₁ store hread htest hcode
  apply (ih fuel s₁ rest hends hread.lexemes (by rw [hread.depth]; exact hroomb)).mono
  intro out s₂ hbody
  obtain ⟨rfl, hbody⟩ := hbody
  have hperforms := hbody.performs
  rw [hcode] at hperforms
  have hchoice : s₂.code.Waiting exits.onFalse.addresses ∧
      Performs s.code s.temps.next .empty (.choice test.tree body.tree) .empty _ _ :=
    Performs.choice htest hperforms
  -- The jump of the condition goes to what follows the body.
  rw [ends_backpatchHere hchoice.1]
  exact ⟨rfl, (hread.trans hbody.reads).keep rfl rfl rfl rfl, hchoice.2⟩

/-- A loop, if its body is carried. -/
theorem carries_loop {test : Comparison} {body : Clause .statement}
    (ih : Carries options body) : Carries options (.loop test body) := by
  apply carries_of_construct rfl
  intro fuel s rest hends hlex hroom
  rw [Clause.lexemes_loop_append] at hlex
  have hdo : EndsExpression (.keyword .doKw :: (body.lexemes ++ rest)) :=
    endsExpression_cons (by simp) _
  obtain ⟨hroomt, hroomb⟩ := Nat.max_le.mp hroom
  rw [construct, ends_bind, ends_current?, TokenStream.current?_of_lexemes hlex]
  simp only [loop, ends_bind, ends_backpatchHere_empty, ends_advance]
  apply ends_test test hdo hlex hroomt
  intro exits s₁ store hread htest hcode
  apply (ih fuel s₁ rest hends hread.lexemes (by rw [hread.depth]; exact hroomb)).mono
  intro out s₂ hbody
  obtain ⟨rfl, hbody⟩ := hbody
  have hperforms := hbody.performs
  rw [hcode] at hperforms
  -- No jump is left over from the body, so only the closing jump goes back.
  have hloop : (s₂.code.push (.jump (some s.code.nextAddress))).Waiting exits.onFalse.addresses ∧
      Performs s.code s.temps.next .empty (.loop test.tree body.tree) .empty _ _ :=
    Performs.loop htest hperforms
  show Ends (fun _ => True) (emit (.jump (some s.code.nextAddress))) options s₂ _
  apply ends_emit_of_room
  rw [ends_backpatchHere hloop.1]
  exact ⟨rfl, (hread.trans hbody.reads).keep rfl rfl rfl rfl, hloop.2⟩

/-- `END` is neither a semicolon nor the start of a statement, so a sequence stops
there. -/
theorem ends_sequence_of_end {inner : JumpList → Generate JumpList} {s : State}
    {rest : List Lexeme} (h : s.input.lexemes = .keyword .endKw :: rest) {pending : JumpList}
    {Q : JumpList → State → Prop} (hQ : Q pending s) (n : Nat) :
    Ends (fun _ => True) (sequence inner n pending) options s Q := by
  cases n with
  | zero => trivial
  | succ n =>
      have hcurrent := TokenStream.current?_of_lexemes h
      rw [sequence, ends_bind, ends_eat, hcurrent, if_neg (by simp), if_neg (by simp), ends_bind,
        ends_current?, hcurrent]
      exact hQ

/-- The statements between `BEGIN` and `END`. -/
theorem carries_compound {body : Clause .sequence} (ih : Carries options body) :
    Carries options (.compound body) := by
  apply carries_of_construct rfl
  intro fuel s rest hends hlex hroom
  rw [Clause.lexemes_compound_append] at hlex
  have hbegin := Reads.advance hlex options.maxDigits.toNat
  rw [construct, ends_bind, ends_current?, TokenStream.current?_of_lexemes hlex]
  simp only [compound, ends_bind, ends_advance]
  -- The loop that has read the whole sequence finds `END` and stops.
  have hbody := ih fuel _ (.keyword .endKw :: rest)
    (fun out s' => out = .empty ∧ Performed body (.keyword .endKw :: rest)
      (s.advance options.maxDigits.toNat) s')
    (.inr (.inr rfl)) hbegin.lexemes (by rw [hbegin.depth]; exact hroom)
    (fun s₁ hdone n => ends_sequence_of_end hdone.reads.lexemes ⟨rfl, hdone⟩ n) fuel
  rw [ends_bind] at hbody
  apply hbody.mono
  intro first s₁ hfirst
  apply hfirst.mono
  intro out s₂ hdone
  obtain ⟨rfl, hdone⟩ := hdone
  apply ends_expect_of_lexemes hdone.reads.lexemes
  have hperforms := hdone.performs
  rw [State.code_advance, State.temps_advance] at hperforms
  rw [ends_pure]
  refine ⟨rfl, (hbegin.trans hdone.reads).next options.maxDigits.toNat, ?_⟩
  rw [State.code_advance, State.temps_advance]
  exact hperforms

/-- The first statement of a sequence. -/
theorem carries_one {first : Clause .statement} (ih : Carries options first) :
    Carries options (.one first) := by
  intro fuel s rest Q hends hlex hroom hnext n
  rw [ends_bind]
  apply (ih fuel s rest hends hlex hroom).mono
  intro out s₁ hfirst
  obtain ⟨rfl, hfirst⟩ := hfirst
  exact hnext s₁ ⟨hfirst.reads, hfirst.performs⟩ n

/-- One more statement of a sequence. -/
theorem carries_next {front : Clause .sequence} {last : Clause .statement}
    (ihf : Carries options front) (ihl : Carries options last) :
    Carries options (.next front last) := by
  intro fuel s rest Q hends hlex hroom hnext n
  rw [Clause.lexemes_next_append] at hlex
  obtain ⟨hroomf, hrooml⟩ := Nat.max_le.mp hroom
  apply ihf fuel s _ Q (.inr (.inl rfl)) hlex hroomf
  intro s₁ hfront n
  cases n with
  | zero => trivial
  | succ n =>
      rw [sequence, ends_bind, ends_eat,
        if_pos (TokenStream.current?_of_lexemes hfront.reads.lexemes), if_pos rfl, ends_bind]
      have hread := hfront.reads.next options.maxDigits.toNat
      apply (ihl fuel _ rest hends hread.lexemes (by rw [hread.depth]; exact hrooml)).mono
      intro out s₂ hlast
      obtain ⟨rfl, hlast⟩ := hlast
      have hperforms := hlast.performs
      rw [State.code_advance, State.temps_advance] at hperforms
      exact hnext s₂ ⟨hread.trans hlast.reads, hfront.performs.seq hperforms⟩ n

/-- **Every statement within the limit is carried.** -/
theorem clause_carries {extent : Extent} (c : Clause extent) : Carries options c := by
  induction c with
  | empty => exact carries_empty
  | assign name value => exact carries_assign
  | choice test body ih => exact carries_choice ih
  | loop test body ih => exact carries_loop ih
  | compound body ih => exact carries_compound ih
  | one first ih => exact carries_one ih
  | next front last ihf ihl => exact carries_next ihf ihl

end

/-! ### Declarations -/

section
variable {options : Options}

/-- A name is declared, or it is reported as declared before. -/
theorem ends_declaration? {what name : String} {kind : SymbolKind} {s : State}
    {rest : List Lexeme} (hlex : s.input.lexemes = .ident name :: rest) :
    Ends (fun _ => True) (declaration? what kind) options s fun name? s' =>
      name? = some name ∧ Emits [] rest s s' := by
  rw [declaration?, ends_bind, ends_line, ends_bind, ident?, ends_bind, ends_current?,
    TokenStream.current?_of_lexemes hlex]
  simp only [ends_bind, ends_advance, ends_pure, declare, ends_get]
  have hname := (Emits.refl hlex).advance options.maxDigits.toNat
  split
  · exact ⟨trivial, hname.reads.keep rfl rfl rfl rfl, hname.code, hname.temps⟩
  · exact ⟨trivial, hname.reads.report rfl, hname.code, hname.temps⟩

/-- A definition emits the instruction that gives the constant its value. -/
theorem ends_definition (d : Definition) {s : State} {rest : List Lexeme}
    (hlex : s.input.lexemes = d.lexemes ++ rest) :
    Ends (fun _ => True) definition options s fun _ s' => Emits [d.instruction] rest s s' := by
  rw [definition, ends_bind]
  apply (ends_declaration? hlex).mono
  intro name? s₁ hname
  obtain ⟨rfl, hname⟩ := hname
  have hcurrent₁ := TokenStream.current?_of_lexemes hname.reads.lexemes
  rw [ends_bind, expectBecomes, ends_bind, ends_eat, if_pos hcurrent₁, if_pos rfl, ends_pure]
  have hbecomes := hname.advance options.maxDigits.toNat
  rw [ends_bind, number?, ends_bind, ends_current?,
    TokenStream.current?_of_lexemes hbecomes.reads.lexemes]
  simp only [ends_bind, ends_advance, ends_pure]
  have hnumber := hbecomes.advance options.maxDigits.toNat
  apply ends_emit_of_room
  refine ⟨hnumber.reads.keep rfl rfl rfl rfl, ?_, hnumber.temps⟩
  rw [Store.push_eq_append, hnumber.code, Store.append_append]
  rfl

/-- The declaration of a variable emits nothing. -/
theorem ends_variableName (name : String) {s : State} {rest : List Lexeme}
    (hlex : s.input.lexemes = [.ident name] ++ rest) :
    Ends (fun _ => True) variableName options s fun _ s' => Emits [] rest s s' := by
  rw [variableName, ends_bind]
  apply (ends_declaration? hlex).mono
  intro name? s₁ hname
  exact hname.2

/-- Items with commas between them, if each item is read and emits `code`. The
induction is on the items behind the first. -/
theorem ends_items {α : Type} {lexemes : α → List Lexeme} {code : α → List Instruction}
    {item : Generate Unit}
    (hitem : ∀ (x : α) {s : State} {rest : List Lexeme}, s.input.lexemes = lexemes x ++ rest →
      Ends (fun _ => True) item options s fun _ s' => Emits (code x) rest s s')
    (more : List α) :
    ∀ (first : α) (fuel : Nat) (s : State) (rest : List Lexeme),
      rest.head? ≠ some (.punct .comma) →
      s.input.lexemes = lexemes first ++ (Section.restLexemes lexemes more ++ rest) →
      Ends (fun _ => True) (items item fuel) options s fun _ s' =>
        Emits ((first :: more).flatMap code) rest s s' := by
  induction more with
  -- The last item: no comma follows.
  | nil =>
      intro first fuel s rest hstop hlex
      cases fuel with
      | zero => trivial
      | succ fuel =>
          rw [items, ends_bind]
          apply (hitem first hlex).mono
          intro _ s₁ hfirst
          have hread : s₁.input.lexemes = rest := hfirst.reads.lexemes
          rw [ends_bind, ends_eat, TokenStream.current?_eq_head?, hread, if_neg hstop,
            if_neg (by simp), ends_pure]
          rw [List.flatMap_singleton]
          exact hfirst
  | cons second more ih =>
      intro first fuel s rest hstop hlex
      cases fuel with
      | zero => trivial
      | succ fuel =>
          have hlex₀ : s.input.lexemes = lexemes first ++ .punct .comma ::
              (lexemes second ++ (Section.restLexemes lexemes more ++ rest)) := by
            rw [hlex]
            simp [Section.restLexemes]
          rw [items, ends_bind]
          apply (hitem first hlex₀).mono
          intro _ s₁ hfirst
          rw [ends_bind, ends_eat, if_pos (TokenStream.current?_of_lexemes hfirst.reads.lexemes),
            if_pos rfl]
          have hcomma := hfirst.advance options.maxDigits.toNat
          apply (ih second fuel _ rest hstop hcomma.reads.lexemes).mono
          intro _ s₂ hmore
          exact hcomma.trans hmore

/-- A section of one kind of items. -/
theorem ends_declarationSection {α : Type} {lexemes : α → List Lexeme}
    {code : α → List Instruction} {item : Generate Unit}
    (hitem : ∀ (x : α) {s : State} {rest : List Lexeme}, s.input.lexemes = lexemes x ++ rest →
      Ends (fun _ => True) item options s fun _ s' => Emits (code x) rest s s')
    {first : α} {more : List α} {opening : Lexeme} {fuel : Nat} {s : State} {rest : List Lexeme}
    (hlex : s.input.lexemes = opening :: (lexemes first ++
      (Section.restLexemes lexemes more ++ .punct .semicolon :: rest))) :
    Ends (fun _ => True) (declarationSection item fuel) options s fun _ s' =>
      Emits ((first :: more).flatMap code) rest s s' := by
  have hopening := (Emits.refl hlex).advance options.maxDigits.toNat
  rw [declarationSection, ends_bind, ends_advance, ends_bind]
  apply (ends_items hitem more first fuel _ _ (by simp) hopening.reads.lexemes).mono
  intro _ s₁ hitems
  apply ends_expect_of_lexemes hitems.reads.lexemes
  exact hopening.trans (hitems.advance options.maxDigits.toNat)

/-- The declarations of a program. The induction is on the sections. -/
theorem ends_declarations (sections : List Section) :
    ∀ (fuel : Nat) (s : State) (rest : List Lexeme),
      rest.head? ≠ some (.keyword .constKw) → rest.head? ≠ some (.keyword .varKw) →
      s.input.lexemes = sections.flatMap Section.lexemes ++ rest →
      Ends (fun _ => True) (declarations fuel) options s fun _ s' =>
        Emits ((sections.flatMap Section.constants).map Definition.instruction) rest s s' := by
  induction sections with
  -- The statement starts with neither keyword, so the declarations end.
  | nil =>
      intro fuel s rest hconst hvar hlex
      cases fuel with
      | zero => trivial
      | succ fuel =>
          have hlex₀ : s.input.lexemes = rest := hlex
          rw [declarations, ends_bind, ends_current?, TokenStream.current?_eq_head?, hlex₀]
          split
          · next hcur => exact absurd hcur hconst
          · next hcur => exact absurd hcur hvar
          · exact Emits.refl hlex₀
  | cons first sections ih =>
      intro fuel s rest hconst hvar hlex
      cases fuel with
      | zero => trivial
      | succ fuel =>
          rw [declarations, ends_bind, ends_current?]
          cases first with
          | consts d more =>
              have hlex₀ : s.input.lexemes = .keyword .constKw :: (d.lexemes ++
                  (Section.restLexemes Definition.lexemes more ++ .punct .semicolon ::
                    (sections.flatMap Section.lexemes ++ rest))) := by
                rw [hlex]
                simp [Section.lexemes]
              rw [TokenStream.current?_of_lexemes hlex₀, ends_bind]
              apply (ends_declarationSection ends_definition hlex₀).mono
              intro _ s₁ hsection
              apply (ih fuel s₁ rest hconst hvar hsection.reads.lexemes).mono
              intro _ s₂ hrest
              have hboth := hsection.trans hrest
              simpa [Section.constants, List.map_eq_flatMap] using hboth
          | vars name more =>
              have hlex₀ : s.input.lexemes = .keyword .varKw :: ([.ident name] ++
                  (Section.restLexemes (fun name => [.ident name]) more ++ .punct .semicolon ::
                    (sections.flatMap Section.lexemes ++ rest))) := by
                rw [hlex]
                simp [Section.lexemes]
              rw [TokenStream.current?_of_lexemes hlex₀, ends_bind]
              apply (ends_declarationSection ends_variableName hlex₀).mono
              intro _ s₁ hsection
              apply (ih fuel s₁ rest hconst hvar hsection.reads.lexemes).mono
              intro _ s₂ hrest
              have hboth := hsection.trans hrest
              -- Variables emit nothing, whatever their number.
              have hnone : (name :: more).flatMap (fun _ => ([] : List Instruction)) = [] := by
                simp
              rw [hnone] at hboth
              exact hboth

end

/-! ### Programs -/

/-- A statement starts with neither `CONST` nor `VAR`. -/
theorem head?_lexemes_ne {c : Clause .statement} {word : Keyword}
    (h : word = .constKw ∨ word = .varKw) :
    (c.lexemes ++ []).head? ≠ some (.keyword word) := by
  cases c <;> rcases h with rfl | rfl <;> simp [Clause.lexemes]

/-- What a program begins with: its name and its sections. -/
theorem ends_program_of_body (p : Program) {options : Options} {input : TokenStream} {fuel : Nat}
    (hlex : input.lexemes = p.lexemes) {Q : Option String → State → Prop}
    (h : ∀ s, s.input.lexemes = p.body.lexemes ++ [] → s.depth = 0 → s.Clean →
      s.code = (emptyStore options).append (p.constants.map Definition.instruction) →
      s.temps = ⟨options.firstTemp.toNat⟩ →
      Ends (fun _ => True) (do
        let next ← statement fuel .empty
        expectEnd
        let _ ← backpatchHere next
        checkResolved
        return some p.name) options s Q) :
    Ends (fun _ => True) (program fuel) options (.start options input) Q := by
  have hlex₀ : ((State.start options input).checkNumber options.maxDigits.toNat).input.lexemes
      = .keyword .programKw :: .ident p.name ::
        (p.sections.flatMap Section.lexemes ++ (p.body.lexemes ++ [])) := by
    rw [State.input_checkNumber]
    show input.lexemes = _
    rw [hlex, Program.lexemes]
    simp
  have hclean₀ : ((State.start options input).checkNumber options.maxDigits.toNat).Clean := by
    rw [State.clean_checkNumber]
    exact ⟨rfl, fun diagnostic hmem => nomatch hmem⟩
  have hcode₀ : ((State.start options input).checkNumber options.maxDigits.toNat).code
      = emptyStore options := State.code_checkNumber _ _
  have htemps₀ : ((State.start options input).checkNumber options.maxDigits.toNat).temps
      = ⟨options.firstTemp.toNat⟩ := State.temps_checkNumber _ _
  have hdepth₀ : ((State.start options input).checkNumber options.maxDigits.toNat).depth
      = 0 := State.depth_checkNumber _ _
  rw [program, ends_bind, ends_checkNumber]
  -- From here on only these facts about the start matter.
  generalize (State.start options input).checkNumber options.maxDigits.toNat = s at *
  have hkeyword := (Emits.refl hlex₀).advance options.maxDigits.toNat
  rw [ends_bind]
  apply ends_expect_of_lexemes hlex₀
  rw [ends_bind, ident?, ends_bind, ends_current?,
    TokenStream.current?_of_lexemes hkeyword.reads.lexemes, ends_bind, ends_advance, ends_pure,
    ends_bind]
  have hname := hkeyword.advance options.maxDigits.toNat
  apply (ends_declarations p.sections fuel _ _ (head?_lexemes_ne (.inl rfl))
    (head?_lexemes_ne (.inr rfl)) hname.reads.lexemes).mono
  intro _ s₁ hsections
  have hread := hname.trans hsections
  apply h s₁ hread.reads.lexemes (hread.reads.depth.trans hdepth₀) (hread.reads.clean hclean₀)
  · rw [hread.code, hcode₀]
    rfl
  · rw [hread.temps, htemps₀]

/-- **A program within the limit is translated plainly**, and there is no complaint
about its form. -/
theorem program_ends_plain (p : Program) {options : Options} {input : TokenStream} {fuel : Nat}
    (hlex : input.lexemes = p.lexemes) (hroom : p.nesting ≤ options.maxDepth.toNat) :
    Ends (fun _ => True) (program fuel) options (.start options input) fun name? s' =>
      name? = some p.name ∧ s'.Clean ∧
        s'.code = (emptyStore options).append
          (p.code options.firstAddress.toNat options.firstTemp.toNat) := by
  apply ends_program_of_body p hlex
  intro s hbody hdepth hclean hcode htemps
  rw [ends_bind]
  apply (clause_carries p.body fuel s [] (.inl rfl) hbody (by rw [hdepth]; exact hroom)).mono
  intro out s₁ hdone
  obtain ⟨rfl, hdone⟩ := hdone
  have hend : s₁.input.current? = none := by
    rw [TokenStream.current?_eq_head?, hdone.reads.lexemes]
    rfl
  rw [ends_bind, expectEnd, ends_bind, ends_current?, hend, ends_pure, ends_bind,
    ends_backpatchHere_empty, ends_bind, checkResolved, ends_bind, ends_get]
  -- A jump that is left pending would be a fault, and faults are left out here.
  split
  · refine ⟨rfl, hdone.reads.clean hclean, ?_⟩
    obtain ⟨hstore, -⟩ := hdone.performs.of_empty
    rw [hstore, htemps, hcode, Store.append_append, Store.nextAddress_append]
    simp [Program.code, emptyStore, Store.nextAddress]
  · trivial

end Generate

/-- The name and the code of a compilation whose source is a program within the
limit. -/
theorem code_of_compile {options : Options} {source : String} {p : Program}
    {compilation : Compilation} (hok : compile options source = .ok compilation)
    (hlex : p.lexemes = (scan source).lexemes) (hroom : p.nesting ≤ options.maxDepth.toNat) :
    compilation.program = some p.name ∧
      compilation.code = (Generate.emptyStore options).append
        (p.code options.firstAddress.toNat options.firstTemp.toNat) := by
  obtain ⟨s, hrun, hcode, -⟩ := run_of_compile hok
  obtain ⟨hname, -, hstore⟩ := (Generate.program_ends_plain p hlex.symm hroom).ok hrun
  rw [hcode]
  exact ⟨hname, hstore⟩

/-- **One pass gives the plain translation.** If the lexemes of a source are
derived by a program whose nesting is within the limit, then a compilation that
succeeds answers its name and its plain translation. -/
theorem compile_eq_plain_translation (options : Options) (source : String) (p : Program)
    (compilation : Compilation) (hlex : p.lexemes = (scan source).lexemes)
    (hroom : p.nesting ≤ options.maxDepth.toNat)
    (hok : compile options source = .ok compilation) :
    compilation.program = some p.name ∧
      compilation.code.first = options.firstAddress ∧
      compilation.code.code.toList
        = p.code options.firstAddress.toNat options.firstTemp.toNat := by
  obtain ⟨hname, hcode⟩ := code_of_compile hok hlex hroom
  refine ⟨hname, ?_, ?_⟩
  · rw [hcode]
    rfl
  · rw [hcode]
    simp [Store.append, Generate.emptyStore]

/-- The loop `WHILE x < c DO x := -x * c`, whose name `x` is not declared. -/
theorem compile_eq_plain_translation_loop :
    ∃ compilation,
      compile {} "PROGRAM p CONST c := 2; WHILE x < c DO x := -x * c" = .ok compilation ∧
      compilation.program = some "p" ∧
      compilation.code.first = 0 ∧
      compilation.code.code.toList =
        [.assign "c" (.copy "2"), .branch "x" .lt "c" (some 3), .jump (some 7),
          .assign "t0" (.binary .mul "x" "c"), .assign "t1" (.neg "t0"),
          .assign "x" (.copy "t1"), .jump (some 1)] := by
  obtain ⟨compilation, hok⟩ : ∃ compilation,
      compile {} "PROGRAM p CONST c := 2; WHILE x < c DO x := -x * c" = .ok compilation :=
    exists_compilation (by decide +kernel)
  have hplain := compile_eq_plain_translation {} _
    ⟨"p", [.consts ⟨"c", "2"⟩ []],
      .loop ⟨.expression (.term none (.factor (.name "x"))), .lt,
          .expression (.term none (.factor (.name "c")))⟩
        (.assign "x" (.expression (.term (some .sub)
          (.product (.factor (.name "x")) .mul (.name "c")))))⟩
    compilation (by decide +kernel) (by decide +kernel) hok
  refine ⟨compilation, hok, hplain.1, hplain.2.1, ?_⟩
  rw [hplain.2.2]
  decide +kernel

end ThreeAddress
