import ThreeAddress.Proofs.Diagnosis
import ThreeAddress.Proofs.DigitLimit

/-!
# Where a skipped construct ends

A construct beyond the limit on nesting is not parsed. It is skipped by counting brackets, and
those of both kinds are counted alike, whether they match or not. This module says where that
ends, for every sequence of tokens.

* `balance` is the number of brackets that some lexemes open minus the number of those that
  they close.
* `Unended` says that a construct goes on to the end of some lexemes: they never close more
  than is open, and each of their semicolons stands in a bracket.
* `unended_take_iff`: as many tokens are skipped as the construct goes on.
* `constructLength_split`: the count of open brackets with which a token is read is the balance
  of what was skipped before it.
* `skipConstruct_stops_at_closer`: what is skipped, where it stops, and what it leaves alone. A
  statement or an expression of the grammar is skipped as a whole.
-/

set_option autoImplicit false

namespace ThreeAddress

/-! ### Brackets -/

/-- What a lexeme adds to the number of open brackets. -/
def Lexeme.weight : Lexeme → Int
  | .keyword .beginKw => 1
  | .punct .lparen => 1
  | .keyword .endKw => -1
  | .punct .rparen => -1
  | _ => 0

/-- The number of brackets that are opened minus the number of those that are closed. -/
def balance : List Lexeme → Int
  | [] => 0
  | lexeme :: rest => lexeme.weight + balance rest

/-- Without lexemes no bracket is opened or closed. -/
@[simp] theorem balance_nil : balance [] = 0 := rfl

/-- The balance is counted lexeme by lexeme. -/
@[simp] theorem balance_cons (lexeme : Lexeme) (rest : List Lexeme) :
    balance (lexeme :: rest) = lexeme.weight + balance rest := rfl

/-- The weight of a lexeme is what it does as a bracket. -/
theorem Lexeme.weight_eq (lexeme : Lexeme) :
    lexeme.weight = match lexeme.bracketing with
      | .opens => 1
      | .closes => -1
      | .separates => 0
      | .none => 0 := by
  cases lexeme with
  | keyword word => cases word <;> rfl
  | punct mark => cases mark <;> rfl
  | _ => rfl

/-- The lexeme that separates is the semicolon. -/
theorem Lexeme.bracketing_eq_separates_iff (lexeme : Lexeme) :
    lexeme.bracketing = .separates ↔ lexeme = .punct .semicolon := by
  unfold bracketing
  split <;> simp_all

/-- A construct in which `opened` brackets are open goes on to the end of these lexemes. -/
structure Unended (opened : Int) (lexemes : List Lexeme) : Prop where
  /-- No bracket is closed that is not open. -/
  covered (front : List Lexeme) (h : front <+: lexemes) : 0 ≤ opened + balance front
  /-- A semicolon outside all brackets would end the construct. -/
  enclosed (front : List Lexeme) (h : front ++ [.punct .semicolon] <+: lexemes) :
    opened + balance front ≠ 0

/-- A construct that goes on has no bracket closed that was not open. -/
theorem Unended.nonneg {opened : Int} {lexemes : List Lexeme} (h : Unended opened lexemes) :
    0 ≤ opened := by
  simpa using h.covered [] List.nil_prefix

/-- A construct goes on where nothing has been read of it. -/
theorem unended_nil {opened : Int} : Unended opened [] ↔ 0 ≤ opened := by
  constructor
  · exact Unended.nonneg
  · intro h
    refine ⟨fun front hfront => ?_, fun front hfront => ?_⟩
    · rw [List.prefix_nil.mp hfront]
      simpa using h
    · simp at hfront

/-- A construct goes on behind a lexeme with the brackets that are open then. -/
theorem unended_cons {opened : Int} {lexeme : Lexeme} {rest : List Lexeme} :
    Unended opened (lexeme :: rest) ↔
      0 ≤ opened ∧ (lexeme = .punct .semicolon → opened ≠ 0) ∧
        Unended (opened + lexeme.weight) rest := by
  constructor
  · intro h
    refine ⟨h.nonneg, ?_, ?_, ?_⟩
    · rintro rfl
      simpa using h.enclosed [] (by simp)
    · intro front hfront
      have hcovered := h.covered (lexeme :: front) (by simpa using hfront)
      rw [balance_cons] at hcovered
      omega
    · intro front hfront
      have henclosed := h.enclosed (lexeme :: front) (by simpa using hfront)
      rw [balance_cons] at henclosed
      omega
  · rintro ⟨hopened, hseparator, hrest⟩
    constructor
    · intro front hfront
      cases front with
      | nil => simpa using hopened
      | cons first front =>
          obtain ⟨rfl, htail⟩ := List.cons_prefix_cons.mp hfront
          have hcovered := hrest.covered front htail
          rw [balance_cons]
          omega
    · intro front hfront
      cases front with
      | nil =>
          obtain ⟨hfirst, -⟩ := List.cons_prefix_cons.mp hfront
          simpa using hseparator hfirst.symm
      | cons first front =>
          obtain ⟨rfl, htail⟩ := List.cons_prefix_cons.mp hfront
          have henclosed := hrest.enclosed front htail
          rw [balance_cons]
          omega

/-! ### How much is skipped -/

/-- The count of open brackets behind a lexeme that is skipped. A construct that ends at the
lexeme leaves no count. -/
def Lexeme.openBehind? (lexeme : Lexeme) (opened : Nat) : Option Nat :=
  match lexeme.bracketing, opened with
  | .opens, opened => some (opened + 1)
  | .closes, 0 => none
  | .closes, opened + 1 => some opened
  | .separates, 0 => none
  | .separates, opened + 1 => some (opened + 1)
  | .none, opened => some opened

/-- A token is skipped with the rest behind it, or the construct ends at it. -/
theorem constructLength_cons (opened : Nat) (token : Token) (rest : List Token) :
    constructLength opened (token :: rest) =
      match token.lexeme.openBehind? opened with
      | some opened => constructLength opened rest + 1
      | none => 0 := by
  simp only [constructLength, Lexeme.openBehind?]
  cases token.lexeme.bracketing <;> cases opened <;> rfl

/-- The count is the number of brackets that are open. -/
theorem Lexeme.weight_of_openBehind? {lexeme : Lexeme} {opened behind : Nat}
    (h : lexeme.openBehind? opened = some behind) : (behind : Int) = opened + lexeme.weight := by
  rw [weight_eq]
  simp only [openBehind?] at h
  cases hpart : lexeme.bracketing <;> cases opened <;>
    simp only [hpart, reduceCtorEq, Option.some.injEq] at h
  all_goals
    subst h
    dsimp only
    omega

/-- A lexeme is skipped exactly if the construct goes on behind it. -/
theorem unended_cons_iff {opened : Nat} {lexeme : Lexeme} {rest : List Lexeme} :
    Unended opened (lexeme :: rest) ↔
      ∃ behind : Nat, lexeme.openBehind? opened = some behind ∧ Unended behind rest := by
  have hseparates := lexeme.bracketing_eq_separates_iff
  rw [unended_cons, ← hseparates]
  constructor
  · rintro ⟨-, hseparator, hrest⟩
    have hopen := hrest.nonneg
    -- The count would fall below zero only behind a bracket that closes the construct.
    have hbehind : ∃ behind, lexeme.openBehind? opened = some behind := by
      rw [lexeme.weight_eq] at hopen
      simp only [Lexeme.openBehind?]
      cases hpart : lexeme.bracketing <;> cases opened <;> simp_all
    obtain ⟨behind, hbehind⟩ := hbehind
    refine ⟨behind, hbehind, ?_⟩
    rw [Lexeme.weight_of_openBehind? hbehind]
    exact hrest
  · rintro ⟨behind, hbehind, hrest⟩
    rw [Lexeme.weight_of_openBehind? hbehind] at hrest
    refine ⟨by omega, ?_, hrest⟩
    intro hpart hzero
    simp_all [Lexeme.openBehind?]

/-- As many tokens are skipped as the construct goes on. -/
theorem unended_take_iff (opened : Nat) (tokens : List Token) {count : Nat}
    (h : count ≤ tokens.length) :
    Unended opened ((tokens.take count).map Token.lexeme) ↔
      count ≤ constructLength opened tokens := by
  induction tokens generalizing opened count with
  | nil =>
      obtain rfl := Nat.le_zero.mp h
      simp [unended_nil]
  | cons token rest ih =>
      cases count with
      | zero => simp [unended_nil]
      | succ count =>
          rw [List.take_succ_cons, List.map_cons, unended_cons_iff, constructLength_cons]
          have hcount : count ≤ rest.length := Nat.le_of_succ_le_succ h
          cases hbehind : token.lexeme.openBehind? opened with
          | none => simp
          | some behind =>
              have hrest := ih behind hcount
              simp_all

/-- No more is skipped than there is. -/
theorem constructLength_le (opened : Nat) (tokens : List Token) :
    constructLength opened tokens ≤ tokens.length := by
  have htotal := constructLength_add_length opened tokens
  omega

/-- Behind some tokens that are skipped, the rest is skipped with the count of brackets that are
open there. This is the balance of what was skipped, and no count falls below zero. -/
theorem constructLength_split (opened : Nat) {front rest : List Token}
    (h : front.length ≤ constructLength opened (front ++ rest)) :
    ∃ behind : Nat, (behind : Int) = opened + balance (front.map Token.lexeme) ∧
      constructLength opened (front ++ rest) = front.length + constructLength behind rest := by
  induction front generalizing opened with
  | nil => exact ⟨opened, by simp, by simp⟩
  | cons token front ih =>
      rw [List.cons_append, constructLength_cons] at h ⊢
      cases hbehind : token.lexeme.openBehind? opened with
      | none =>
          rw [hbehind] at h
          exact absurd h (by simp)
      | some between =>
          rw [hbehind] at h
          obtain ⟨behind, hbalance, hlength⟩ := ih between (Nat.le_of_succ_le_succ h)
          have hweight := Lexeme.weight_of_openBehind? hbehind
          refine ⟨behind, ?_, ?_⟩
          · rw [List.map_cons, balance_cons]
            omega
          · show constructLength between (front ++ rest) + 1 = _
            rw [List.length_cons]
            omega

/-- The lexemes that can end a construct. -/
def closers : List Lexeme := [.punct .semicolon, .keyword .endKw, .punct .rparen]

/-- A lexeme that is not skipped ends the construct, and no bracket is open. -/
theorem Lexeme.mem_closers_of_openBehind? {lexeme : Lexeme} {opened : Nat}
    (h : lexeme.openBehind? opened = none) : opened = 0 ∧ lexeme ∈ closers := by
  have hpart : opened = 0 ∧ (lexeme.bracketing = .closes ∨ lexeme.bracketing = .separates) := by
    simp only [openBehind?] at h
    cases hpart : lexeme.bracketing <;> cases opened <;> simp_all
  refine ⟨hpart.1, ?_⟩
  cases lexeme with
  | keyword word => cases word <;> simp_all [bracketing, closers]
  | punct mark => cases mark <;> simp_all [bracketing, closers]
  | _ => simp_all [bracketing]

/-- Where nothing is skipped, nothing is left or the construct ends. -/
theorem closer_of_constructLength_eq_zero {opened : Nat} {tokens : List Token}
    (h : constructLength opened tokens = 0) :
    tokens = [] ∨ opened = 0 ∧ ∃ token rest, tokens = token :: rest ∧ token.lexeme ∈ closers := by
  cases tokens with
  | nil => exact .inl rfl
  | cons token rest =>
      rw [constructLength_cons] at h
      cases hbehind : token.lexeme.openBehind? opened with
      | none =>
          obtain ⟨hopened, hcloser⟩ := Lexeme.mem_closers_of_openBehind? hbehind
          exact .inr ⟨hopened, token, rest, rfl, hcloser⟩
      | some behind =>
          rw [hbehind] at h
          exact nomatch h

/-! ### What skipping does -/

/-- The tokens in `dropped`, and then those in `rest`, are divided where the construct at the
first of them ends. -/
structure EndsConstruct (dropped rest : List Token) : Prop where
  unended : Unended 0 (dropped.map Token.lexeme)
  /-- Nothing longer goes on. -/
  longest (front : List Token) (h : front <+: dropped ++ rest)
    (hunended : Unended 0 (front.map Token.lexeme)) : front <+: dropped
  /-- The count with which a token is read is the balance of what stands before it. -/
  counted (front back : List Token) (h : dropped = front ++ back) :
    ∃ opened : Nat, (opened : Int) = balance (front.map Token.lexeme) ∧
      constructLength 0 (dropped ++ rest) = front.length + constructLength opened (back ++ rest)
  /-- Nothing is left, or a closer that stands outside all brackets. -/
  closed : rest = [] ∨ balance (dropped.map Token.lexeme) = 0 ∧
    ∃ closer behind, rest = closer :: behind ∧ closer.lexeme ∈ closers

/-- Tokens end a construct if as many are skipped. -/
theorem endsConstruct_of_constructLength {dropped rest : List Token}
    (h : constructLength 0 (dropped ++ rest) = dropped.length) : EndsConstruct dropped rest := by
  -- A front part goes on exactly if it is no longer than what was dropped.
  have hunended : ∀ {front}, front <+: dropped ++ rest →
      (Unended 0 (front.map Token.lexeme) ↔ front.length ≤ dropped.length) := by
    intro front hfront
    have hiff := unended_take_iff 0 (dropped ++ rest) hfront.length_le
    rw [← List.prefix_iff_eq_take.mp hfront, h] at hiff
    exact hiff
  have hcounted : ∀ front back, dropped = front ++ back →
      ∃ opened : Nat, (opened : Int) = balance (front.map Token.lexeme) ∧
        constructLength 0 (dropped ++ rest)
          = front.length + constructLength opened (back ++ rest) := by
    rintro front back rfl
    rw [List.append_assoc] at h ⊢
    obtain ⟨opened, hbalance, hlength⟩ :=
      constructLength_split 0 (by rw [h, List.length_append]; exact Nat.le_add_right _ _)
    exact ⟨opened, by omega, hlength⟩
  refine ⟨(hunended (List.prefix_append _ _)).mpr (Nat.le_refl _), ?_, hcounted, ?_⟩
  · intro front hfront hgoes
    exact List.prefix_of_prefix_length_le hfront (List.prefix_append _ _)
      ((hunended hfront).mp hgoes)
  · obtain ⟨opened, hbalance, hlength⟩ := hcounted dropped [] (List.append_nil _).symm
    have hzero : constructLength opened rest = 0 := by
      rw [List.nil_append] at hlength
      omega
    rcases closer_of_constructLength_eq_zero hzero with hnil | ⟨hopened, hcloser⟩
    · exact .inl hnil
    · exact .inr ⟨by omega, hcloser⟩

namespace Generate

/-- Skipping changes nothing but the input and the diagnostics. -/
theorem State.skip_eq (s : State) (maxDigits count : Nat) :
    s.skip maxDigits count =
      { s with
        input := (s.skip maxDigits count).input
        diagnostics := (s.skip maxDigits count).diagnostics } := by
  induction count generalizing s with
  | zero => rfl
  | succ count ih =>
      rw [skip, ih, advance_eq]

/-- The tokens in `dropped` are skipped, and those in `rest` are left. Nothing comes of the
tokens that are skipped, but that numbers of too many digits are reported. -/
structure Skips (s s' : State) (dropped rest : List Token) : Prop where
  before : s.input.tokens = dropped ++ rest
  input : s'.input = { s.input with tokens := rest }
  code : s'.code = s.code
  symbols : s'.symbols = s.symbols
  temps : s'.temps = s.temps
  depth : s'.depth = s.depth
  depthReported : s'.depthReported = s.depthReported
  reported : ∃ numbers : List Diagnostic,
    s'.diagnostics.toList = s.diagnostics.toList ++ numbers ∧
      ∀ diagnostic ∈ numbers, diagnostic.problem.isNumberTooLong = true

/-- Skipping the length of a construct divides the tokens there. -/
theorem skips_constructLength (options : Options) (s : State) :
    Skips s (s.skip options.maxDigits.toNat (constructLength 0 s.input.tokens))
      (s.input.tokens.take (constructLength 0 s.input.tokens))
      (s.input.tokens.drop (constructLength 0 s.input.tokens)) where
  before := (List.take_append_drop _ _).symm
  input := State.input_skip _ _ _
  code := by rw [State.skip_eq]
  symbols := by rw [State.skip_eq]
  temps := by rw [State.skip_eq]
  depth := by rw [State.skip_eq]
  depthReported := by rw [State.skip_eq]
  reported := by
    refine ⟨_, State.diagnostics_skip _ _ _, ?_⟩
    intro diagnostic hmem
    obtain ⟨token, -, hlong⟩ := List.mem_filterMap.mp hmem
    exact (Token.diagnostic_of_overlong? hlong).2

/-- An expression can end here: where a statement ends, or at a closing parenthesis. -/
def EndsOperand (rest : List Lexeme) : Prop :=
  EndsStatement rest ∨ rest.head? = some (.punct .rparen)

/-- Skipping stops where an expression can end. -/
theorem EndsOperand.afterConstruct {rest : List Lexeme} (h : EndsOperand rest) :
    afterConstruct 0 rest = rest := by
  rcases h with hends | hparen
  · exact hends.afterConstruct
  · obtain ⟨behind, rfl⟩ := List.head?_eq_some_iff.mp hparen
    rfl

/-- **A construct is skipped up to its closer.** Exactly the longest part of the tokens that goes
on is dropped, and nothing comes of it but the reports of numbers. A statement or an expression
that is followed by what can end it is dropped as a whole. -/
theorem skipConstruct_stops_at_closer (options : Options) (s : State) :
    ∃ dropped rest s', skipConstruct options s = .ok () s' ∧
      Skips s s' dropped rest ∧ EndsConstruct dropped rest ∧
      (∀ (c : Clause .statement) behind, EndsStatement behind →
        s.input.lexemes = c.lexemes ++ behind →
        dropped.map Token.lexeme = c.lexemes ∧ s'.input.lexemes = behind) ∧
      (∀ (p : Phrase .expression) behind, EndsOperand behind →
        s.input.lexemes = p.lexemes ++ behind →
        dropped.map Token.lexeme = p.lexemes ∧ s'.input.lexemes = behind) := by
  have hskips := skips_constructLength options s
  have hends : EndsConstruct (s.input.tokens.take (constructLength 0 s.input.tokens))
      (s.input.tokens.drop (constructLength 0 s.input.tokens)) := by
    refine endsConstruct_of_constructLength ?_
    rw [List.take_append_drop, List.length_take, Nat.min_eq_left (constructLength_le 0 _)]
  have hrun : skipConstruct options s
      = .ok () (s.skip options.maxDigits.toNat (constructLength 0 s.input.tokens)) := skip_run _ _ _
  -- Both for a statement and for an expression it is enough that skipping leaves what is behind
  -- it.
  have hwhole : ∀ whole behind, afterConstruct 0 (whole ++ behind) = behind →
      s.input.lexemes = whole ++ behind →
      (s.input.tokens.take (constructLength 0 s.input.tokens)).map Token.lexeme = whole ∧
        (s.skip options.maxDigits.toNat (constructLength 0 s.input.tokens)).input.lexemes
          = behind := by
    intro whole behind hafter hlex
    have hrest : (s.input.tokens.drop (constructLength 0 s.input.tokens)).map Token.lexeme
        = behind := by
      rw [List.map_drop, drop_constructLength]
      exact (congrArg (afterConstruct 0) hlex).trans hafter
    refine ⟨?_, ?_⟩
    · -- What is left is the same list on both sides, so what is dropped is too.
      refine List.append_cancel_right (?_ : _ ++ behind = _ ++ behind)
      rw [← hlex, ← hrest, ← List.map_append, List.take_append_drop]
      rfl
    · rw [hskips.input]
      exact hrest
  refine ⟨_, _, _, hrun, hskips, hends, ?_, ?_⟩
  · intro c behind hbehind
    refine hwhole _ _ ?_
    rw [c.afterConstruct_append nofun, hbehind.afterConstruct]
  · intro p behind hbehind
    refine hwhole _ _ ?_
    rw [p.afterConstruct_append, hbehind.afterConstruct]

/-- A block whose only semicolon stands inside it, in front of a semicolon that ends it. -/
theorem skipConstruct_stops_behind_block :
    ∃ s', skipConstruct {} (.start {} (scan "BEGIN x := (1); END; y")) = .ok () s' ∧
      s'.input.lexemes = [.punct .semicolon, .ident "y"] := by
  obtain ⟨_, _, s', hrun, -, -, hstatement, -⟩ :=
    skipConstruct_stops_at_closer {} (.start {} (scan "BEGIN x := (1); END; y"))
  refine ⟨s', hrun, ?_⟩
  exact (hstatement
    (.compound (.next (.one (.assign "x" (.expression (.term none (.factor (.parens
      (.expression (.term none (.factor (.number "1")))))))))) .empty))
    [.punct .semicolon, .ident "y"] (.inr (.inl rfl)) (by decide +kernel)).2

end Generate

end ThreeAddress
