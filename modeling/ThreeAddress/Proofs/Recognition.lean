import Mathlib.Computability.Language
import ThreeAddress.Proofs.PlainTranslation
import ThreeAddress.Proofs.Steps

/-!
# The generator accepts exactly the grammar

A compilation has nothing to say about the form of a source exactly when the
lexemes of the source are a word of `Program.language`, which holds the programs
whose nesting is within the limit.

* From left to right, `Recognises` says of a procedure that the lexemes it reads
  in a clean run are a word of a language. The missing lexemes that the generator
  supplies, the `=` that it takes for `:=` and the constructs that it skips are
  all reported, so no clean run passes through them. The procedures for
  repetitions read words of `tails`: words that may be put behind any word of a
  language without leaving it.
* From right to left, `program_ends_plain` says that a word of the language is
  read without complaint.

A program of the grammar that lies too deep is reported as such. Up to the first
construct that is refused the generator reads the program as it stands, and the
note on the depth stays on record.
-/

set_option autoImplicit false

namespace ThreeAddress

/-! ### The languages of the grammar -/

/-- The words of a level of expressions, with at most `limit` expressions inside
each other. -/
def Phrase.language (level : Level) (limit : Nat) : Language Lexeme :=
  {w | ∃ p : Phrase level, p.lexemes = w ∧ p.nesting ≤ limit}

/-- The conditions within a limit. -/
def Comparison.language (limit : Nat) : Language Lexeme :=
  {w | ∃ c : Comparison, c.lexemes = w ∧ c.nesting ≤ limit}

/-- The statements, or the sequences of statements, within a limit. -/
def Clause.language (extent : Extent) (limit : Nat) : Language Lexeme :=
  {w | ∃ c : Clause extent, c.lexemes = w ∧ c.nesting ≤ limit}

/-- The programs within a limit. -/
def Program.language (limit : Nat) : Language Lexeme :=
  {w | ∃ p : Program, p.lexemes = w ∧ p.nesting ≤ limit}

/-- The words of a family. -/
def words {α : Type} (lexemes : α → List Lexeme) : Language Lexeme :=
  {w | ∃ x, lexemes x = w}

/-- The words that lead from any word of a language to a word of it. -/
def tails (L : Language Lexeme) : Language Lexeme :=
  {v | ∀ u ∈ L, u ++ v ∈ L}

/-- The empty word leads from each word to itself. -/
theorem nil_mem_tails (L : Language Lexeme) : [] ∈ tails L := by
  intro u hu
  rw [List.append_nil]
  exact hu

/-- Two words that lead on lead on together. -/
theorem append_mem_tails {L : Language Lexeme} {v w : List Lexeme} (hv : v ∈ tails L)
    (hw : w ∈ tails L) : v ++ w ∈ tails L := by
  intro u hu
  rw [← List.append_assoc]
  exact hw _ (hv u hu)

namespace Generate

/-! ### What a clean run has read -/

/-- From the clean state `s` to `s'` a word of `L` was read. -/
structure Spells (L : Language Lexeme) (s s' : State) : Prop where
  clean : s.Clean
  word : ∃ w ∈ L, s.input.lexemes = w ++ s'.input.lexemes

namespace Spells

/-- A word of a part is a word of the whole. -/
theorem mono {L L' : Language Lexeme} {s s' : State} (h : Spells L s s') (hle : ∀ w ∈ L, w ∈ L') :
    Spells L' s s' := by
  obtain ⟨w, hw, hlex⟩ := h.word
  exact ⟨h.clean, w, hle w hw, hlex⟩

/-- One word after another. -/
theorem mul {L L' : Language Lexeme} {s s' s'' : State} (h : Spells L s s')
    (h' : Spells L' s' s'') : Spells (L * L') s s'' := by
  obtain ⟨u, hu, hlex⟩ := h.word
  obtain ⟨v, hv, hlex'⟩ := h'.word
  refine ⟨h.clean, u ++ v, Language.append_mem_mul hu hv, ?_⟩
  rw [hlex, hlex', List.append_assoc]

/-- Nothing is read. -/
theorem one {s s' : State} (hclean : s'.Clean) (hinput : s'.input = s.input)
    (hreported : s'.depthReported = s.depthReported)
    (hdiagnostics : s'.diagnostics = s.diagnostics) : Spells 1 s s' := by
  refine ⟨⟨hreported ▸ hclean.depthReported, hdiagnostics ▸ hclean.diagnostics⟩, [], ?_, ?_⟩
  · exact Language.nil_mem_one
  · rw [hinput]
    rfl

/-- The current lexeme is read. -/
theorem advance {s : State} {lexeme : Lexeme} {maxDigits : Nat}
    (h : s.input.current? = some lexeme) (hclean : (s.advance maxDigits).Clean) :
    Spells {[lexeme]} s (s.advance maxDigits) := by
  refine ⟨(State.clean_advance s maxDigits).mp hclean, [lexeme], rfl, ?_⟩
  rw [State.input_advance, TokenStream.lexemes_tail]
  exact TokenStream.lexemes_of_current? h

end Spells

/-- Runs of `x` from a state of the given depth end at this depth, and the clean
ones among them read words of `L`. -/
def Recognises {α : Type} (options : Options) (depth : Nat) (L : Language Lexeme)
    (x : Generate α) : Prop :=
  ∀ s, s.depth = depth → Ends (fun _ => True) x options s fun _ s' =>
    s'.depth = depth ∧ (s'.Clean → Spells L s s')

/-- A state with a report about the form is not clean. -/
theorem State.not_clean_report (s : State) {diagnostic : Diagnostic}
    (h : diagnostic.problem.isSyntactic = true) : ¬ (s.report diagnostic).Clean := by
  intro hclean
  have hform := ((State.clean_report s diagnostic).mp hclean).2
  rw [h] at hform
  exact Bool.false_ne_true hform.symm

/-- A state with a missing lexeme on record is not clean. -/
theorem State.not_clean_miss (s : State) (what : String) : ¬ (s.miss what).Clean :=
  s.not_clean_report rfl

/-- A state with a refused construct on record is not clean. -/
theorem State.not_clean_refuse (s : State) (options : Options) : ¬ (s.refuse options).Clean := by
  intro h
  have hreported := h.depthReported
  rw [State.depthReported_refuse] at hreported
  exact nomatch hreported

section
variable {α β : Type} {options : Options} {depth : Nat}

/-- A procedure that reads words of a part reads words of the whole. -/
theorem Recognises.mono {L L' : Language Lexeme} {x : Generate α}
    (h : Recognises options depth L x) (hle : ∀ w ∈ L, w ∈ L') :
    Recognises options depth L' x := by
  intro s hdepth
  apply (h s hdepth).mono
  intro a s' hend
  exact ⟨hend.1, fun hclean => (hend.2 hclean).mono hle⟩

/-- One procedure after another reads one word after another: a clean end is
reached over a clean state only. -/
theorem Recognises.bind {L L' : Language Lexeme} {x : Generate α} {f : α → Generate β}
    (hx : Recognises options depth L x) (hf : ∀ a, Recognises options depth L' (f a)) :
    Recognises options depth (L * L') (x >>= f) := by
  intro s hdepth
  rw [ends_bind]
  apply (hx s hdepth).mono
  intro a s₁ hfirst
  apply (hf a s₁ hfirst.1).mono
  intro b s₂ hsecond
  refine ⟨hsecond.1, ?_⟩
  intro hclean
  -- The end is clean, so the state between the two was, and the first part read
  -- a word too.
  have hspells := hsecond.2 hclean
  exact (hfirst.2 hspells.clean).mul hspells

/-- What changes neither the input nor the diagnostics reads the empty word. -/
theorem recognises_of_keeps {x : Generate α}
    (h : ∀ s, Ends (fun _ => True) x options s fun _ s' =>
      s'.depth = s.depth ∧ s'.input = s.input ∧ s'.depthReported = s.depthReported ∧
        s'.diagnostics = s.diagnostics) :
    Recognises options depth 1 x := by
  intro s hdepth
  apply (h s).mono
  intro a s' hkeeps
  obtain ⟨hdepth', hinput, hreported, hdiagnostics⟩ := hkeeps
  exact ⟨hdepth'.trans hdepth, fun hclean => Spells.one hclean hinput hreported hdiagnostics⟩

/-- To answer at once reads the empty word. -/
theorem recognises_pure (a : α) : Recognises options depth 1 (pure a) :=
  recognises_of_keeps fun _ => ⟨rfl, rfl, rfl, rfl⟩

/-- Nothing is asked of a run that fails. -/
theorem recognises_throw (fault : Fault) (L : Language Lexeme) :
    Recognises options depth L (throw fault : Generate α) :=
  fun _ _ => trivial

/-- Work on the code reads the empty word. -/
theorem recognises_onCode (action : EStateM Fault Store α) :
    Recognises options depth 1 (onCode action) := by
  apply recognises_of_keeps
  intro s
  unfold Ends onCode
  cases action s.code with
  | ok a code => exact ⟨rfl, rfl, rfl, rfl⟩
  | error fault code => trivial

/-- An instruction is emitted without reading. -/
theorem recognises_emit (instruction : Instruction) :
    Recognises options depth 1 (emit instruction) :=
  recognises_onCode _

/-- A temporary is assigned to without reading. -/
theorem recognises_emitTemp (value : Rvalue) : Recognises options depth 1 (emitTemp value) := by
  apply recognises_of_keeps
  intro s
  exact ends_emitTemp_of_room ⟨rfl, rfl, rfl, rfl⟩

/-- Jumps are resolved without reading. -/
theorem recognises_backpatchHere (list : JumpList) :
    Recognises options depth 1 (backpatchHere list) := by
  have hnext : Recognises options depth 1 nextAddress :=
    recognises_of_keeps fun _ => ⟨rfl, rfl, rfl, rfl⟩
  have hbind := hnext.bind fun here => (recognises_onCode (list.backpatch here)).bind fun _ =>
    recognises_pure here
  simp only [mul_one] at hbind
  exact hbind

/-- The current lexeme, if moving on is all that is done about it. -/
theorem ends_advance_spells {s : State} {lexeme : Lexeme} {L : Language Lexeme} {maxDigits : Nat}
    (hcurrent : s.input.current? = some lexeme) (hmem : [lexeme] ∈ L) (hdepth : s.depth = depth) :
    (s.advance maxDigits).depth = depth ∧
      ((s.advance maxDigits).Clean → Spells L s (s.advance maxDigits)) := by
  refine ⟨(State.depth_advance _ _).trans hdepth, ?_⟩
  intro hclean
  refine (Spells.advance hcurrent hclean).mono ?_
  intro w hw
  rw [Set.mem_singleton_iff.mp hw]
  exact hmem

/-- The current lexeme and what is read behind it. -/
theorem ends_after_advance {s : State} {lexeme : Lexeme} {L L' : Language Lexeme}
    {x : Generate α} (hcurrent : s.input.current? = some lexeme) (hdepth : s.depth = depth)
    (hx : Recognises options depth L' x) (hmem : ∀ v ∈ L', lexeme :: v ∈ L) (maxDigits : Nat) :
    Ends (fun _ => True) x options (s.advance maxDigits) fun _ s' =>
      s'.depth = depth ∧ (s'.Clean → Spells L s s') := by
  apply (hx _ ((State.depth_advance _ _).trans hdepth)).mono
  intro a s' hend
  refine ⟨hend.1, ?_⟩
  intro hclean
  have hspells := hend.2 hclean
  refine ((Spells.advance hcurrent hspells.clean).mul hspells).mono ?_
  rintro w ⟨u, rfl, v, hv, rfl⟩
  exact hmem v hv

/-- Filling in targets reads nothing. -/
theorem ends_backpatchHere_then {s : State} {L : Language Lexeme} {list : JumpList}
    {next : Nat → Generate α}
    (h : ∀ here code, Ends (fun _ => True) (next here) options { s with code } fun _ s' =>
      s'.depth = depth ∧ (s'.Clean → Spells L { s with code } s')) :
    Ends (fun _ => True) (backpatchHere list >>= next) options s fun _ s' =>
      s'.depth = depth ∧ (s'.Clean → Spells L s s') := by
  -- Only the code changes. This does not need to know that the jumps are waiting.
  have hcode : Ends (fun _ => True) (backpatchHere list) options s fun _ s' =>
      ∃ code, s' = { s with code } := by
    rw [backpatchHere, ends_bind, ends_nextAddress, ends_bind]
    unfold Ends backpatch onCode
    cases list.backpatch s.code.nextAddress s.code with
    | ok a code => exact ⟨code, rfl⟩
    | error fault code => trivial
  rw [ends_bind]
  apply hcode.mono
  intro here s₁ hs₁
  obtain ⟨code, rfl⟩ := hs₁
  apply (h here code).mono
  intro a s' hend
  refine ⟨hend.1, ?_⟩
  intro hclean
  have hspells := hend.2 hclean
  exact ⟨⟨hspells.clean.depthReported, hspells.clean.diagnostics⟩, hspells.word⟩

/-- A missing lexeme is reported, so the run is not clean. -/
theorem ends_miss_spells {s : State} {L : Language Lexeme} (what : String)
    (hdepth : s.depth = depth) :
    (s.miss what).depth = depth ∧ ((s.miss what).Clean → Spells L s (s.miss what)) :=
  ⟨hdepth, fun hclean => absurd hclean (State.not_clean_miss s what)⟩

/-- In a clean run an expected lexeme is there. -/
theorem recognises_expect (lexeme : Lexeme) :
    Recognises options depth {[lexeme]} (expect lexeme) := by
  intro s hdepth
  rw [ends_expect]
  split
  · next hcurrent => exact ends_advance_spells hcurrent rfl hdepth
  · exact ends_miss_spells _ hdepth

/-- The `=` that is taken for `:=` does not go unreported. -/
theorem recognises_expectBecomes :
    Recognises options depth {[.punct .becomes]} expectBecomes := by
  intro s hdepth
  rw [expectBecomes, ends_bind, ends_eat]
  split
  · next hcurrent => exact ends_advance_spells hcurrent rfl hdepth
  · rw [if_neg (by simp), ends_bind, ends_expected, ends_bind, ends_eat]
    -- The report is on record before the `=` is passed over.
    have hmiss := State.not_clean_miss s (Lexeme.punct .becomes).describe
    split
    · refine ⟨(State.depth_advance _ _).trans hdepth, ?_⟩
      intro hclean
      exact absurd ((State.clean_advance _ _).mp hclean) hmiss
    · exact ends_miss_spells _ hdepth

/-- In a clean run an expected name is there. -/
theorem recognises_ident? (what : String) :
    Recognises options depth (words fun name => [.ident name]) (ident? what) := by
  intro s hdepth
  rw [ident?, ends_bind, ends_current?]
  split
  · next name hcurrent =>
    exact ends_advance_spells hcurrent ⟨name, rfl⟩ hdepth
  · exact ends_miss_spells _ hdepth

/-! ### Expressions -/

/-- A factor, if what is in the parentheses is recognised. -/
theorem recognises_factor {inner : Generate String} {limit : Nat}
    (hinner : Recognises options depth (Phrase.language .expression limit) inner) :
    Recognises options depth (Phrase.language .factor limit) (factor inner) := by
  intro s hdepth
  rw [factor, ends_bind, ends_current?]
  split
  · next name hcurrent =>
    have hname : [.ident name] ∈ Phrase.language .factor limit :=
      ⟨.name name, rfl, Nat.zero_le _⟩
    simp only [ends_bind, ends_get]
    split
    · simp only [ends_bind, ends_pure, ends_advance]
      exact ends_advance_spells hcurrent hname hdepth
    · -- An undeclared name is reported, but not for its form.
      simp only [ends_bind, ends_pure, ends_report, ends_advance]
      refine ⟨(State.depth_advance _ _).trans hdepth, ?_⟩
      intro hclean
      have hspells := Spells.advance (s := s.report ⟨s.input.line, .undeclared name⟩)
        hcurrent hclean
      obtain ⟨w, rfl, hlex⟩ := hspells.word
      exact ⟨((State.clean_report s _).mp hspells.clean).1, _, hname, hlex⟩
  · next digits hcurrent =>
    exact ends_advance_spells hcurrent ⟨.number digits, rfl, Nat.zero_le _⟩ hdepth
  · next hcurrent =>
    have hrest := hinner.bind fun value =>
      (recognises_expect (.punct .rparen)).bind fun _ => recognises_pure value
    rw [ends_bind, ends_advance]
    refine ends_after_advance hcurrent hdepth hrest ?_ _
    -- The three pieces behind the opening parenthesis: an expression, a closing
    -- parenthesis and nothing.
    rintro v ⟨x, ⟨p, rfl, hp⟩, y, ⟨z, rfl, z', rfl, rfl⟩, rfl⟩
    exact ⟨.parens p, by simp [Phrase.lexemes], hp⟩
  · exact ends_miss_spells _ hdepth

/-- A chain reads tails: each operator with its operand is one. -/
theorem recognises_chain {op? : Option Lexeme → Option ArithOp} {operand : Generate String}
    {Part Whole : Language Lexeme} (hoperand : Recognises options depth Part operand)
    (hnone : op? none = none)
    (htail : ∀ lexeme op, op? (some lexeme) = some op → ∀ v ∈ Part, lexeme :: v ∈ tails Whole)
    (fuel : Nat) (lhs : String) :
    Recognises options depth (tails Whole) (chain op? operand fuel lhs) := by
  induction fuel generalizing lhs with
  | zero => exact recognises_throw _ _
  | succ fuel ih =>
      intro s hdepth
      rw [chain, ends_bind, ends_current?]
      split
      · next op hop =>
        obtain ⟨lexeme, hcurrent⟩ := exists_current hnone hop
        rw [hcurrent] at hop
        have hrest := hoperand.bind fun rhs =>
          (recognises_emitTemp (.binary op lhs rhs)).bind fun value => ih value
        rw [ends_bind, ends_advance]
        refine ends_after_advance hcurrent hdepth hrest ?_ _
        -- An operator with its operand is a tail, and so are all the rounds together.
        rintro w ⟨x, hx, y, ⟨z, rfl, z', hz, rfl⟩, rfl⟩
        exact append_mem_tails (htail lexeme op hop x hx) hz
      · rw [ends_pure]
        refine ⟨hdepth, ?_⟩
        intro hclean
        exact ⟨hclean, [], nil_mem_tails Whole, rfl⟩

/-- What is read as an operator of a sum is one. -/
theorem exists_sumOp {lexeme : Lexeme} {op : ArithOp} (h : sumOp? (some lexeme) = some op) :
    ∃ op : SumOp, lexeme = .arith op.arith := by
  unfold sumOp? at h
  split at h
  · next hlexeme => exact ⟨.add, Option.some.inj hlexeme⟩
  · next hlexeme => exact ⟨.sub, Option.some.inj hlexeme⟩
  · exact nomatch h

/-- What is read as an operator of a product is one. -/
theorem exists_productOp {lexeme : Lexeme} {op : ArithOp}
    (h : productOp? (some lexeme) = some op) : ∃ op : ProductOp, lexeme = .arith op.arith := by
  unfold productOp? at h
  split at h
  · next hlexeme => exact ⟨.mul, Option.some.inj hlexeme⟩
  · next hlexeme => exact ⟨.div, Option.some.inj hlexeme⟩
  · exact nomatch h

/-- An operator of a product and a factor may be put behind a term. -/
theorem cons_mem_tails_term {limit : Nat} {lexeme : Lexeme} {op : ArithOp}
    (hop : productOp? (some lexeme) = some op) {v : List Lexeme}
    (hv : v ∈ Phrase.language .factor limit) :
    lexeme :: v ∈ tails (Phrase.language .term limit) := by
  rintro u ⟨front, rfl, hfront⟩
  obtain ⟨last, rfl, hlast⟩ := hv
  obtain ⟨op, rfl⟩ := exists_productOp hop
  exact ⟨.product front op last, rfl, Nat.max_le.mpr ⟨hfront, hlast⟩⟩

/-- An operator of a sum and a term may be put behind a sum. -/
theorem cons_mem_tails_sum {limit : Nat} {lexeme : Lexeme} {op : ArithOp}
    (hop : sumOp? (some lexeme) = some op) {v : List Lexeme}
    (hv : v ∈ Phrase.language .term limit) :
    lexeme :: v ∈ tails (Phrase.language .sum limit) := by
  rintro u ⟨front, rfl, hfront⟩
  obtain ⟨last, rfl, hlast⟩ := hv
  obtain ⟨op, rfl⟩ := exists_sumOp hop
  exact ⟨.sum front op last, rfl, Nat.max_le.mpr ⟨hfront, hlast⟩⟩

/-- A term, if what is in parentheses is recognised. -/
theorem recognises_term {inner : Generate String} {limit : Nat}
    (hinner : Recognises options depth (Phrase.language .expression limit) inner) (fuel : Nat) :
    Recognises options depth (Phrase.language .term limit) (term inner fuel) := by
  have hfactor := recognises_factor hinner
  have hchain := recognises_chain hfactor rfl
    (fun lexeme op hop v hv => cons_mem_tails_term hop hv) fuel
  refine (hfactor.bind hchain).mono ?_
  -- The chain reads a tail of terms, and the first factor is a term.
  rintro w ⟨u, ⟨first, rfl, hfirst⟩, v, hv, rfl⟩
  exact hv _ ⟨.factor first, rfl, hfirst⟩

/-- The first term with its sign is a sum. -/
theorem recognises_signedTerm {inner : Generate String} {limit : Nat}
    (hinner : Recognises options depth (Phrase.language .expression limit) inner) (fuel : Nat) :
    Recognises options depth (Phrase.language .sum limit) (signedTerm inner fuel) := by
  have hminus : Recognises options depth (words Phrase.signLexemes)
      leadingMinus := by
    intro s hdepth
    rw [leadingMinus, ends_bind, ends_current?]
    split
    · next op hop =>
      obtain ⟨lexeme, hcurrent⟩ := exists_current rfl hop
      rw [hcurrent] at hop
      obtain ⟨sign, rfl⟩ := exists_sumOp hop
      exact ends_advance_spells hcurrent ⟨some sign, rfl⟩ hdepth
    · rw [ends_pure]
      exact ⟨hdepth, fun hclean => ⟨hclean, [], ⟨none, rfl⟩, rfl⟩⟩
  -- The instruction for a minus reads nothing.
  have hnegate : ∀ (negate : Bool) (value : String), Recognises options depth 1
      (if negate then emitTemp (.neg value) else pure value) := by
    intro negate value
    split
    · exact recognises_emitTemp _
    · exact recognises_pure _
  refine (hminus.bind fun negate => (recognises_term hinner fuel).bind (hnegate negate)).mono ?_
  rintro w ⟨u, ⟨sign, rfl⟩, v, ⟨x, ⟨first, rfl, hfirst⟩, y, rfl, rfl⟩, rfl⟩
  exact ⟨.term sign first, by simp [Phrase.lexemes], hfirst⟩

/-- A construct one level deeper. It is refused, which is reported, or it is read
at the next depth. -/
theorem recognises_nested {L : Language Lexeme} {x inside : Generate α} {outside : α}
    (hlevel : OwnLevel options x inside outside)
    (hinside : depth < options.maxDepth.toNat → Recognises options (depth + 1) L inside) :
    Recognises options depth L x := by
  intro s hdepth
  rw [hlevel]
  split
  · next hroom =>
    apply (hinside (hdepth ▸ hroom) { s with depth := s.depth + 1 } (by simp [hdepth])).mono
    intro value s₁ hend
    refine ⟨hdepth, ?_⟩
    intro hclean
    have hspells := hend.2 ⟨hclean.depthReported, hclean.diagnostics⟩
    exact ⟨⟨hspells.clean.depthReported, hspells.clean.diagnostics⟩, hspells.word⟩
  · -- A refusal is on record, so the run is not clean.
    refine ⟨(State.depth_refuse s options).trans hdepth, ?_⟩
    intro hclean
    exact absurd hclean (State.not_clean_refuse s options)

/-- **Every expression is recognised.** The induction is on the budget, for all
depths at once. -/
theorem recognises_expression (fuel : Nat) :
    Recognises options depth
      (Phrase.language .expression (options.maxDepth.toNat - depth)) (expression fuel) := by
  induction fuel generalizing depth with
  | zero => exact recognises_throw _ _
  | succ fuel ih =>
      apply recognises_nested (expression_ownLevel options fuel)
      intro hroom
      have hinner : Recognises options (depth + 1)
          (Phrase.language .expression (options.maxDepth.toNat - (depth + 1)))
          (expression fuel) := ih
      have hterm := recognises_term hinner fuel
      have hchain := recognises_chain hterm rfl
        (fun lexeme op hop v hv => cons_mem_tails_sum hop hv) fuel
      refine ((recognises_signedTerm hinner fuel).bind hchain).mono ?_
      rintro w ⟨u, hu, v, hv, rfl⟩
      -- One level was entered, so there is one more on the outside.
      obtain ⟨whole, hwhole, hnesting⟩ := hv u hu
      refine ⟨.expression whole, hwhole, ?_⟩
      simp only [Phrase.nesting]
      omega

/-- A condition is recognised. -/
theorem recognises_condition (fuel : Nat) :
    Recognises options depth (Comparison.language (options.maxDepth.toNat - depth))
      (condition fuel) := by
  have hrelation : Recognises options depth (words fun op => [.relation op]) relation := by
    intro s hdepth
    rw [relation, ends_bind, ends_current?]
    split
    · next op hcurrent => exact ends_advance_spells hcurrent ⟨op, rfl⟩ hdepth
    · exact ends_miss_spells _ hdepth
  have hside : Recognises options depth
      (Phrase.language .expression (options.maxDepth.toNat - depth)) (expression fuel) :=
    recognises_expression fuel
  have hall := hside.bind fun lhs => hrelation.bind fun op => hside.bind fun rhs =>
      (recognises_emit (.branch lhs op rhs none)).bind fun onTrue =>
        (recognises_emit (.jump none)).bind fun onFalse =>
          recognises_pure (⟨.single onTrue, .single onFalse⟩ : Exits)
  simp only [mul_one] at hall
  refine hall.mono ?_
  rintro w ⟨u, ⟨lhs, rfl, hlhs⟩, v, ⟨x, ⟨op, rfl⟩, y, ⟨rhs, rfl, hrhs⟩, rfl⟩, rfl⟩
  exact ⟨⟨lhs, op, rhs⟩, rfl, Nat.max_le.mpr ⟨hlhs, hrhs⟩⟩

/-! ### Statements -/

/-- A report reads nothing, whatever it is about. -/
theorem recognises_reportAt (line : Nat) (problem : Problem) :
    Recognises options depth 1 (reportAt line problem) := by
  intro s hdepth
  rw [ends_reportAt]
  refine ⟨hdepth, ?_⟩
  intro hclean
  exact ⟨((State.clean_report s _).mp hclean).1, [], Language.nil_mem_one, rfl⟩

/-- An assignment, whose name is the current lexeme. -/
theorem ends_assignment_spells {s : State} {fuel : Nat} {name : String} {pending : JumpList}
    (hcurrent : s.input.current? = some (.ident name)) (hdepth : s.depth = depth) :
    Ends (fun _ => True) (assignment fuel name pending) options s fun _ s' =>
      s'.depth = depth ∧ (s'.Clean →
        Spells (Clause.language .statement (options.maxDepth.toNat - depth + 1)) s s') := by
  have hcheck : ∀ line, Recognises options depth 1 (checkTarget name line) := by
    intro line s hdepth
    rw [checkTarget, ends_bind, ends_get]
    split
    · exact recognises_pure () s hdepth
    · exact recognises_reportAt line _ s hdepth
    · exact recognises_reportAt line _ s hdepth
  have hvalue : Recognises options depth
      (Phrase.language .expression (options.maxDepth.toNat - depth)) (expression fuel) :=
    recognises_expression fuel
  have hrest := (hcheck s.input.line).bind fun _ => recognises_expectBecomes.bind fun _ =>
    hvalue.bind fun value => (recognises_emit (.assign name (.copy value))).bind fun _ =>
      recognises_pure JumpList.empty
  simp only [one_mul, mul_one] at hrest
  rw [assignment]
  apply ends_backpatchHere_then
  intro here code
  rw [ends_bind, ends_line, ends_bind, ends_advance]
  refine ends_after_advance (s := { s with code }) hcurrent hdepth hrest ?_ _
  rintro w ⟨u, rfl, v, ⟨value, rfl, hnesting⟩, rfl⟩
  exact ⟨.assign name value, rfl, Nat.succ_le_succ hnesting⟩

end

section
variable {options : Options} {depth : Nat} {inner : JumpList → Generate JumpList}
  (hinner : ∀ pending, Recognises options depth
    (Clause.language .statement (options.maxDepth.toNat - depth)) (inner pending))
include hinner

/-- A choice, whose `IF` is the current lexeme. -/
theorem ends_choice_spells {s : State} {fuel : Nat} {pending : JumpList}
    (hcurrent : s.input.current? = some (.keyword .ifKw)) (hdepth : s.depth = depth) :
    Ends (fun _ => True) (choice inner fuel pending) options s fun _ s' =>
      s'.depth = depth ∧ (s'.Clean →
        Spells (Clause.language .statement (options.maxDepth.toNat - depth + 1)) s s') := by
  have hrest := (recognises_condition fuel).bind fun exits =>
    (recognises_expect (.keyword .thenKw)).bind fun _ =>
      (recognises_backpatchHere exits.onTrue).bind fun _ => (hinner .empty).bind fun next =>
        (recognises_backpatchHere exits.onFalse).bind fun _ => recognises_pure next
  simp only [one_mul, mul_one] at hrest
  rw [choice]
  apply ends_backpatchHere_then
  intro here code
  rw [ends_bind, ends_advance]
  refine ends_after_advance (s := { s with code }) hcurrent hdepth hrest ?_ _
  rintro w ⟨u, ⟨test, rfl, htest⟩, v, ⟨x, rfl, y, ⟨body, rfl, hbody⟩, rfl⟩, rfl⟩
  have hnesting := Nat.max_le.mpr ⟨htest, hbody⟩
  exact ⟨.choice test body, by simp [Clause.lexemes], Nat.succ_le_succ hnesting⟩

/-- A loop, whose `WHILE` is the current lexeme. -/
theorem ends_loop_spells {s : State} {fuel : Nat} {pending : JumpList}
    (hcurrent : s.input.current? = some (.keyword .whileKw)) (hdepth : s.depth = depth) :
    Ends (fun _ => True) (loop inner fuel pending) options s fun _ s' =>
      s'.depth = depth ∧ (s'.Clean →
        Spells (Clause.language .statement (options.maxDepth.toNat - depth + 1)) s s') := by
  have hrest := fun start => (recognises_condition fuel).bind fun exits =>
    (recognises_expect (.keyword .doKw)).bind fun _ =>
      (recognises_backpatchHere exits.onTrue).bind fun _ => (hinner .empty).bind fun next =>
        (recognises_onCode (next.backpatch start)).bind fun _ =>
          (recognises_emit (.jump (some start))).bind fun _ =>
            (recognises_backpatchHere exits.onFalse).bind fun _ => recognises_pure JumpList.empty
  simp only [one_mul, mul_one] at hrest
  rw [loop]
  apply ends_backpatchHere_then
  intro here code
  rw [ends_bind, ends_advance]
  refine ends_after_advance (s := { s with code }) hcurrent hdepth (hrest here) ?_ _
  rintro w ⟨u, ⟨test, rfl, htest⟩, v, ⟨x, rfl, y, ⟨body, rfl, hbody⟩, rfl⟩, rfl⟩
  have hnesting := Nat.max_le.mpr ⟨htest, hbody⟩
  exact ⟨.loop test body, by simp [Clause.lexemes], Nat.succ_le_succ hnesting⟩

/-- The statements of a compound after the first are a tail of a sequence. A
missing semicolon does not go unreported. -/
theorem recognises_sequence (fuel : Nat) (pending : JumpList) :
    Recognises options depth
      (tails (Clause.language .sequence (options.maxDepth.toNat - depth)))
      (sequence inner fuel pending) := by
  induction fuel generalizing pending with
  | zero => exact recognises_throw _ _
  | succ fuel ih =>
      intro s hdepth
      have hrest := (hinner pending).bind fun next => ih next
      rw [sequence, ends_bind, ends_eat]
      split
      · next hcurrent =>
        refine ends_after_advance hcurrent hdepth hrest ?_ _
        rintro w ⟨u, ⟨last, rfl, hlast⟩, v, hv, rfl⟩
        -- A semicolon and a statement may be put behind any sequence.
        have hsecond : .punct .semicolon :: last.lexemes ∈
            tails (Clause.language .sequence (options.maxDepth.toNat - depth)) := by
          rintro x ⟨front, rfl, hfront⟩
          exact ⟨.next front last, rfl, Nat.max_le.mpr ⟨hfront, hlast⟩⟩
        exact append_mem_tails hsecond hv
      · rw [if_neg (by simp), ends_bind, ends_current?]
        split
        · -- The semicolon is missing, which was reported, so no clean run goes on from here.
          rw [ends_bind, ends_expected]
          apply (hrest (s.miss _) hdepth).mono
          intro out s₁ hend
          refine ⟨hend.1, ?_⟩
          intro hclean
          exact absurd (hend.2 hclean).clean (State.not_clean_miss s _)
        · rw [ends_pure]
          exact ⟨hdepth, fun hclean => ⟨hclean, [], nil_mem_tails _, rfl⟩⟩

/-- A compound, whose `BEGIN` is the current lexeme. -/
theorem ends_compound_spells {s : State} {fuel : Nat} {pending : JumpList}
    (hcurrent : s.input.current? = some (.keyword .beginKw)) (hdepth : s.depth = depth) :
    Ends (fun _ => True) (compound inner fuel pending) options s fun _ s' =>
      s'.depth = depth ∧ (s'.Clean →
        Spells (Clause.language .statement (options.maxDepth.toNat - depth + 1)) s s') := by
  have hrest := (hinner pending).bind fun first => (recognises_sequence hinner fuel first).bind
    fun next => (recognises_expect (.keyword .endKw)).bind fun _ => recognises_pure next
  simp only [mul_one] at hrest
  rw [compound, ends_bind, ends_advance]
  refine ends_after_advance hcurrent hdepth hrest ?_ _
  rintro w ⟨u, ⟨first, rfl, hfirst⟩, v, ⟨x, hx, y, rfl, rfl⟩, rfl⟩
  -- The first statement is a sequence by itself, and the rest is a tail of it.
  obtain ⟨body, hlex, hbody⟩ := hx first.lexemes ⟨.one first, rfl, hfirst⟩
  refine ⟨.compound body, ?_, Nat.succ_le_succ hbody⟩
  rw [Clause.lexemes, hlex]
  simp

/-- The statement at the current lexeme. Where a statement may end there is an
empty one, and anything else is reported. -/
theorem recognises_construct (fuel : Nat) (pending : JumpList) :
    Recognises options depth
      (Clause.language .statement (options.maxDepth.toNat - depth + 1))
      (construct inner fuel pending) := by
  intro s hdepth
  -- The empty statement is one level, for which the limit has room.
  have hempty : s.depth = depth ∧ (s.Clean →
      Spells (Clause.language .statement (options.maxDepth.toNat - depth + 1)) s s) :=
    ⟨hdepth, fun hclean => ⟨hclean, [], ⟨.empty, rfl, Nat.le_add_left 1 _⟩, rfl⟩⟩
  rw [construct, ends_bind, ends_current?]
  split
  · next name hcurrent => exact ends_assignment_spells hcurrent hdepth
  · next hcurrent => exact ends_choice_spells hinner hcurrent hdepth
  · next hcurrent => exact ends_loop_spells hinner hcurrent hdepth
  · next hcurrent => exact ends_compound_spells hinner hcurrent hdepth
  · exact hempty
  · exact hempty
  · exact hempty
  · simp only [ends_bind, ends_expected, ends_advance, ends_pure]
    refine ⟨(State.depth_advance _ _).trans hdepth, ?_⟩
    intro hclean
    exact absurd ((State.clean_advance _ _).mp hclean) (State.not_clean_miss s _)

end

/-- **Every statement is recognised.** -/
theorem recognises_statement {options : Options} {depth : Nat} (fuel : Nat)
    (pending : JumpList) :
    Recognises options depth (Clause.language .statement (options.maxDepth.toNat - depth))
      (statement fuel pending) := by
  induction fuel generalizing depth pending with
  | zero => exact recognises_throw _ _
  | succ fuel ih =>
      apply recognises_nested (statement_ownLevel options fuel pending)
      intro hroom
      have hlimit : options.maxDepth.toNat - (depth + 1) + 1 = options.maxDepth.toNat - depth := by
        omega
      rw [← hlimit]
      exact recognises_construct ih fuel pending

/-! ### Declarations and programs -/

section
variable {options : Options} {depth : Nat}

/-- A declared name. A second declaration is reported, but not for its form. -/
theorem recognises_declaration? (what : String) (kind : SymbolKind) :
    Recognises options depth (words fun name => [.ident name]) (declaration? what kind) := by
  have hline : Recognises options depth 1 line :=
    recognises_of_keeps fun _ => ⟨rfl, rfl, rfl, rfl⟩
  have hdeclare : ∀ entry, Recognises options depth 1 (declare entry) := by
    intro entry s hdepth
    rw [declare, ends_bind, ends_get]
    split
    · rw [ends_modify]
      exact ⟨hdepth, fun hclean => Spells.one hclean rfl rfl rfl⟩
    · exact recognises_reportAt _ _ s hdepth
  -- Whether the name is there decides about the entry in the table, not about the word.
  have hall : Recognises options depth (1 * (words (fun name => [.ident name]) * 1))
      (declaration? what kind) := by
    refine hline.bind fun start => (recognises_ident? what).bind fun name? => ?_
    cases name? with
    | none => exact recognises_pure none
    | some name =>
        have hbind := (hdeclare ⟨name, kind, start⟩).bind fun _ => recognises_pure (some name)
        rw [mul_one] at hbind
        exact hbind
  rw [one_mul, mul_one] at hall
  exact hall

/-- The definition of a constant. -/
theorem recognises_definition :
    Recognises options depth (words Definition.lexemes) definition := by
  have hnumber : Recognises options depth (words fun digits => [.number digits]) number? := by
    intro s hdepth
    rw [number?, ends_bind, ends_current?]
    split
    · next digits hcurrent => exact ends_advance_spells hcurrent ⟨digits, rfl⟩ hdepth
    · exact ends_miss_spells _ hdepth
  have hall : Recognises options depth (words (fun name => [.ident name]) *
      ({[.punct .becomes]} * (words (fun digits => [.number digits]) * 1))) definition := by
    refine (recognises_declaration? "constant name" .const).bind fun name? =>
      recognises_expectBecomes.bind fun _ => hnumber.bind fun value? => ?_
    -- The instruction is emitted if both parts are there, and it reads nothing.
    split
    · next name value =>
      have hassign : Recognises options depth 1 (emit (.assign name (.copy value))) :=
        recognises_emit _
      have hbind := hassign.bind fun _ => recognises_pure ()
      rw [mul_one] at hbind
      exact hbind
    · exact recognises_pure ()
  rw [mul_one] at hall
  refine hall.mono ?_
  rintro w ⟨u, ⟨name, rfl⟩, v, ⟨x, rfl, y, ⟨digits, rfl⟩, rfl⟩, rfl⟩
  exact ⟨⟨name, digits⟩, rfl⟩

/-- The declaration of a variable. -/
theorem recognises_variableName :
    Recognises options depth (words fun name => [.ident name]) variableName := by
  have hname : Recognises options depth (words fun name => [.ident name])
      (declaration? "variable name" .var) := recognises_declaration? _ _
  have hall := hname.bind fun _ => recognises_pure ()
  rw [mul_one] at hall
  exact hall

/-- Items with commas between them. -/
theorem recognises_items {α : Type} {lexemes : α → List Lexeme} {item : Generate Unit}
    (hitem : Recognises options depth (words lexemes) item) (fuel : Nat) :
    Recognises options depth
      (words fun list : α × List α => lexemes list.1 ++ Section.restLexemes lexemes list.2)
      (items item fuel) := by
  induction fuel with
  | zero => exact recognises_throw _ _
  | succ fuel ih =>
      -- Behind an item there is a comma with more items, or nothing.
      have hmore : Recognises options depth (words (Section.restLexemes lexemes))
          (do if ← eat (.punct .comma) then items item fuel) := by
        intro s hdepth
        rw [ends_bind, ends_eat]
        split
        · next hcurrent =>
          refine ends_after_advance hcurrent hdepth ih ?_ _
          rintro w ⟨⟨first, more⟩, rfl⟩
          exact ⟨first :: more, by simp [Section.restLexemes]⟩
        · exact ⟨hdepth, fun hclean => ⟨hclean, [], ⟨[], rfl⟩, rfl⟩⟩
      refine (hitem.bind fun _ => hmore).mono ?_
      rintro w ⟨u, ⟨first, rfl⟩, v, ⟨more, rfl⟩, rfl⟩
      exact ⟨(first, more), rfl⟩

/-- The sections of declarations. -/
theorem recognises_declarations (fuel : Nat) :
    Recognises options depth (words fun sections : List Section => sections.flatMap Section.lexemes)
      (declarations fuel) := by
  induction fuel with
  | zero => exact recognises_throw _ _
  | succ fuel ih =>
      intro s hdepth
      rw [declarations, ends_bind, ends_current?]
      split
      · next hcurrent =>
        have hrest := ((recognises_items recognises_definition fuel).bind fun _ =>
          recognises_expect (.punct .semicolon)).bind fun _ => ih
        rw [declarationSection, bind_assoc, ends_bind, ends_advance]
        refine ends_after_advance hcurrent hdepth hrest ?_ _
        rintro w ⟨u, ⟨x, ⟨⟨first, more⟩, rfl⟩, y, rfl, rfl⟩, v, ⟨sections, rfl⟩, rfl⟩
        exact ⟨.consts first more :: sections, by simp [Section.lexemes]⟩
      · next hcurrent =>
        have hrest := ((recognises_items recognises_variableName fuel).bind fun _ =>
          recognises_expect (.punct .semicolon)).bind fun _ => ih
        rw [declarationSection, bind_assoc, ends_bind, ends_advance]
        refine ends_after_advance hcurrent hdepth hrest ?_ _
        rintro w ⟨u, ⟨x, ⟨⟨first, more⟩, rfl⟩, y, rfl, rfl⟩, v, ⟨sections, rfl⟩, rfl⟩
        exact ⟨.vars first more :: sections, by simp [Section.lexemes]⟩
      · exact ⟨hdepth, fun hclean => ⟨hclean, [], ⟨[], rfl⟩, rfl⟩⟩

end

/-- **A clean run has read a program of the grammar.** -/
theorem program_recognises {options : Options} {input : TokenStream} {fuel : Nat} :
    Ends (fun _ => True) (program fuel) options (.start options input) fun _ s' =>
      s'.Clean → input.lexemes ∈ Program.language options.maxDepth.toNat := by
  have hstatement : Recognises options 0 (Clause.language .statement options.maxDepth.toNat)
      (statement fuel .empty) := recognises_statement fuel .empty
  have hresolved : Recognises options 0 1 checkResolved := by
    apply recognises_of_keeps
    intro s
    rw [checkResolved, ends_bind, ends_get]
    split
    · exact ⟨rfl, rfl, rfl, rfl⟩
    · trivial
  rw [program, ends_bind, ends_checkNumber, ends_bind]
  have hdepth₀ : ((State.start options input).checkNumber options.maxDigits.toNat).depth = 0 :=
    State.depth_checkNumber _ _
  apply (recognises_expect (.keyword .programKw) _ hdepth₀).mono
  intro _ s₁ hkeyword
  rw [ends_bind]
  apply (recognises_ident? "program name" s₁ hkeyword.1).mono
  intro name? s₂ hname
  rw [ends_bind]
  apply (recognises_declarations fuel s₂ hname.1).mono
  intro _ s₃ hsections
  rw [ends_bind]
  apply (hstatement s₃ hsections.1).mono
  intro next s₄ hbody
  -- What is left behind the statement does not go unreported.
  have hend : Ends (fun _ => True) expectEnd options s₄ fun _ s' =>
      s'.depth = 0 ∧ (s'.Clean → s₄.Clean ∧ s₄.input.lexemes = []) := by
    rw [expectEnd, ends_bind, ends_current?]
    split
    · rw [ends_report]
      refine ⟨hbody.1, ?_⟩
      intro hclean
      exact absurd hclean (State.not_clean_report s₄ rfl)
    · next hcurrent =>
      rw [TokenStream.current?_eq_head?, List.head?_eq_none_iff] at hcurrent
      exact ⟨hbody.1, fun hclean => ⟨hclean, hcurrent⟩⟩
  rw [ends_bind]
  apply hend.mono
  intro _ s₅ hended
  have hlast := (recognises_backpatchHere next).bind fun _ => hresolved.bind fun _ =>
    recognises_pure name?
  apply (hlast s₅ hended.1).mono
  intro _ s₆ hfinal hclean
  -- From the clean end back to the start, piece by piece.
  obtain ⟨hclean₄, hnil⟩ := hended.2 (hfinal.2 hclean).clean
  have hspells₃ := hbody.2 hclean₄
  have hspells₂ := (hsections.2 hspells₃.clean).mul hspells₃
  have hspells₁ := (hname.2 hspells₂.clean).mul hspells₂
  have hspells := (hkeyword.2 hspells₁.clean).mul hspells₁
  obtain ⟨w, hw, hlex⟩ := hspells.word
  rw [State.input_checkNumber, hnil, List.append_nil] at hlex
  have hinput : input.lexemes = w := hlex
  rw [hinput]
  obtain ⟨u, rfl, v, ⟨x, ⟨name, rfl⟩, y, hy, rfl⟩, rfl⟩ := hw
  obtain ⟨z, ⟨sections, rfl⟩, z', ⟨body, rfl, hbody⟩, rfl⟩ := hy
  exact ⟨⟨name, sections, body⟩, rfl, hbody⟩

/-! ### Programs that lie too deep -/

/-- Runs of `x` from `s` end with a refusal on record. -/
def Notes {α : Type} (options : Options) (x : Generate α) (s : State) : Prop :=
  Ends (fun _ => True) x options s fun _ s' => s'.depthReported = true

section
variable {options : Options}

/-- Whatever comes after a refusal, it stays on record. -/
theorem Notes.bind {α β : Type} {x : Generate α} {f : α → Generate β} {s : State}
    (hx : Notes options x s) (hf : ∀ a, Walks options (f a)) : Notes options (x >>= f) s := by
  unfold Notes
  rw [ends_bind]
  apply hx.mono
  intro a s₁ hnoted
  apply (hf a s₁).mono
  intro b s₂ hsteps
  exact hsteps.depthReported hnoted

/-- What the procedures do at a phrase whose nesting exceeds the limit. -/
def Refuses (options : Options) : {level : Level} → Phrase level → Prop
  | .factor, p => ∀ (fuel : Nat) (s : State) (rest : List Lexeme),
      s.input.lexemes = p.lexemes ++ rest → options.maxDepth.toNat - s.depth < p.nesting →
      Notes options (factor (expression fuel)) s
  | .term, p => ∀ (fuel n : Nat) (s : State) (rest : List Lexeme),
      s.input.lexemes = p.lexemes ++ rest → options.maxDepth.toNat - s.depth < p.nesting →
      Notes options (term (expression fuel) n) s
  | .sum, p => ∀ (fuel n : Nat) (s : State) (rest : List Lexeme),
      s.input.lexemes = p.lexemes ++ rest → options.maxDepth.toNat - s.depth < p.nesting →
      Notes options
        (signedTerm (expression fuel) fuel >>= chain sumOp? (term (expression fuel) fuel) n) s
  | .expression, p => ∀ (fuel : Nat) (s : State) (rest : List Lexeme),
      s.input.lexemes = p.lexemes ++ rest → options.maxDepth.toNat - s.depth < p.nesting →
      Notes options (expression fuel) s

/-- Parentheses lie too deep if what is in them does. -/
theorem refuses_parens {inner : Phrase .expression} (ih : Refuses options inner) :
    Refuses options (.parens inner) := by
  have hwalks := compositional_walks options
  intro fuel s rest hlex hdeep
  rw [Phrase.lexemes_parens_append] at hlex
  have hopen := Reads.advance hlex options.maxDigits.toNat
  unfold Notes
  rw [factor, ends_bind, ends_current?, TokenStream.current?_of_lexemes hlex, ends_bind,
    ends_advance]
  have hinner := ih fuel _ _ hopen.lexemes (by rw [hopen.depth]; exact hdeep)
  exact hinner.bind fun value => (hwalks.expect _).bind fun _ => .pure value

/-- A product lies too deep if its front part does, or else its last factor. -/
theorem refuses_product {front : Phrase .term} {op : ProductOp} {last : Phrase .factor}
    (ihf : Refuses options front) (ihl : Refuses options last) :
    Refuses options (.product front op last) := by
  have hwalks := compositional_walks options
  intro fuel n s rest hlex hdeep
  rw [Phrase.lexemes_product_append] at hlex
  by_cases hfront : options.maxDepth.toNat - s.depth < front.nesting
  · exact ihf fuel n s _ hlex hfront
  · have hlast : options.maxDepth.toNat - s.depth < last.nesting := by
      simp only [Phrase.nesting] at hdeep
      omega
    -- The front part is within the limit, so it is read as it stands.
    apply phrase_translates front fuel s _ _ hlex (by omega)
    intro value s₁ hvalue n
    cases n with
    | zero => trivial
    | succ n =>
        have hread := hvalue.reads.next options.maxDigits.toNat
        rw [chain, ends_bind, ends_current?, TokenStream.current?_of_lexemes hvalue.reads.lexemes,
          productOp?_arith, ends_bind, ends_advance]
        have hnotes := ihl fuel _ rest hread.lexemes (by rw [hread.depth]; exact hlast)
        exact hnotes.bind fun rhs => (hwalks.emitTemp _).bind fun value =>
          hwalks.chain _ (hwalks.factor (hwalks.expression fuel)) n value

/-- The first term of a sum. -/
theorem refuses_term {sign : Option SumOp} {first : Phrase .term} (ih : Refuses options first) :
    Refuses options (.term sign first) := by
  have hwalks := compositional_walks options
  intro fuel n s rest hlex hdeep
  -- Whatever follows the term, the note stays.
  have hafter : ∀ (negate : Bool) (value : String), Walks options
      (if negate then emitTemp (.neg value) else pure value) := by
    intro negate value
    split
    · exact hwalks.emitTemp _
    · exact .pure _
  have hsigned : Notes options (signedTerm (expression fuel) fuel) s := by
    unfold Notes
    rw [signedTerm, ends_bind, leadingMinus, ends_bind, ends_current?,
      TokenStream.current?_eq_head?]
    cases sign with
    | none =>
        have hlex₀ : s.input.lexemes = first.lexemes ++ rest := hlex
        rw [hlex₀, sumOp?_head?_lexemes first (.inr rfl), ends_pure]
        exact (ih fuel fuel s rest hlex₀ hdeep).bind (hafter false)
    | some sign =>
        have hlex₀ : s.input.lexemes = .arith sign.arith :: (first.lexemes ++ rest) := hlex
        have hsign := Reads.advance hlex₀ options.maxDigits.toNat
        rw [hlex₀, List.head?_cons, sumOp?_arith, ends_bind, ends_advance, ends_pure]
        have hterm := ih fuel fuel _ rest hsign.lexemes (by rw [hsign.depth]; exact hdeep)
        exact hterm.bind (hafter _)
  exact hsigned.bind fun value => hwalks.chain _ (hwalks.term (hwalks.expression fuel) fuel) n value

/-- A sum lies too deep if its front part does, or else its last term. -/
theorem refuses_sum {front : Phrase .sum} {op : SumOp} {last : Phrase .term}
    (ihf : Refuses options front) (ihl : Refuses options last) :
    Refuses options (.sum front op last) := by
  have hwalks := compositional_walks options
  intro fuel n s rest hlex hdeep
  rw [Phrase.lexemes_sum_append] at hlex
  by_cases hfront : options.maxDepth.toNat - s.depth < front.nesting
  · exact ihf fuel n s _ hlex hfront
  · have hlast : options.maxDepth.toNat - s.depth < last.nesting := by
      simp only [Phrase.nesting] at hdeep
      omega
    -- The front part is within the limit, so it is read as it stands.
    apply phrase_translates front fuel s (.arith op.arith :: (last.lexemes ++ rest)) _
      (productOp?_sumOp op) hlex (by omega)
    intro value s₁ hvalue n
    cases n with
    | zero => trivial
    | succ n =>
        have hread := hvalue.reads.next options.maxDigits.toNat
        rw [chain, ends_bind, ends_current?, TokenStream.current?_of_lexemes hvalue.reads.lexemes,
          sumOp?_arith, ends_bind, ends_advance]
        have hnotes := ihl fuel fuel _ rest hread.lexemes (by rw [hread.depth]; exact hlast)
        exact hnotes.bind fun rhs => (hwalks.emitTemp _).bind fun value =>
          hwalks.chain _ (hwalks.term (hwalks.expression fuel) fuel) n value

/-- An expression is refused itself, or what is in it lies too deep. -/
theorem refuses_expression {whole : Phrase .sum} (ih : Refuses options whole) :
    Refuses options (.expression whole) := by
  intro fuel s rest hlex hdeep
  cases fuel with
  | zero => trivial
  | succ fuel =>
      unfold Notes
      rw [expression_ownLevel]
      split
      · have hinside : options.maxDepth.toNat - (s.depth + 1) < whole.nesting := by
          simp only [Phrase.nesting] at hdeep
          omega
        exact ih fuel fuel { s with depth := s.depth + 1 } rest hlex hinside
      · -- The limit is reached here, and the expression itself is refused.
        exact State.depthReported_refuse s options

/-- **Every phrase beyond the limit leaves a refusal on record.** -/
theorem phrase_refuses {level : Level} (p : Phrase level) : Refuses options p := by
  have hwalks := compositional_walks options
  induction p with
  | name text => exact fun fuel s rest _ hdeep => absurd hdeep (Nat.not_lt_zero _)
  | number digits => exact fun fuel s rest _ hdeep => absurd hdeep (Nat.not_lt_zero _)
  | parens inner ih => exact refuses_parens ih
  | factor first ih =>
      intro fuel n s rest hlex hdeep
      exact (ih fuel s rest hlex hdeep).bind fun value =>
        hwalks.chain _ (hwalks.factor (hwalks.expression fuel)) n value
  | product front op last ihf ihl => exact refuses_product ihf ihl
  | term sign first ih => exact refuses_term ih
  | sum front op last ihf ihl => exact refuses_sum ihf ihl
  | expression whole ih => exact refuses_expression ih

/-- A condition beyond the limit. -/
theorem condition_notes (c : Comparison) (fuel : Nat) {s : State} {rest : List Lexeme}
    (hlex : s.input.lexemes = c.lexemes ++ rest)
    (hdeep : options.maxDepth.toNat - s.depth < c.nesting) :
    Notes options (condition fuel) s := by
  have hwalks := compositional_walks options
  rw [Comparison.lexemes_append] at hlex
  have hemit : ∀ (lhs : String) (op : RelOp) (rhs : String), Walks options (do
      let onTrue ← emit (.branch lhs op rhs none)
      let onFalse ← emit (.jump none)
      return (⟨.single onTrue, .single onFalse⟩ : Exits)) :=
    fun _ _ _ => (hwalks.emit _).bind fun _ => (hwalks.emit _).bind fun _ => .pure _
  by_cases hleft : options.maxDepth.toNat - s.depth < c.lhs.nesting
  · exact (phrase_refuses c.lhs fuel s _ hlex hleft).bind fun lhs =>
      hwalks.relation.bind fun op => (hwalks.expression fuel).bind (hemit lhs op)
  · have hright : options.maxDepth.toNat - s.depth < c.rhs.nesting := by
      simp only [Comparison.nesting] at hdeep
      omega
    have hends : EndsExpression (.relation c.op :: (c.rhs.lexemes ++ rest)) :=
      endsExpression_cons (by simp) _
    unfold Notes
    rw [condition, ends_bind]
    -- The left side is within the limit, so it is read as it stands.
    apply (phrase_translates c.lhs fuel s _ hends hlex (by omega)).mono
    intro lhs s₁ hlhs
    have hread := hlhs.reads.next options.maxDigits.toNat
    rw [ends_bind, relation, ends_bind, ends_current?,
      TokenStream.current?_of_lexemes hlhs.reads.lexemes, ends_bind, ends_advance, ends_pure]
    have hrhs := phrase_refuses c.rhs fuel _ rest hread.lexemes (by rw [hread.depth]; exact hright)
    exact hrhs.bind (hemit lhs c.op)

/-- What the procedures do at statements whose nesting exceeds the limit. -/
def Drops (options : Options) : {extent : Extent} → Clause extent → Prop
  | .statement, c => ∀ (fuel : Nat) (s : State) (rest : List Lexeme),
      s.input.lexemes = c.lexemes ++ rest → options.maxDepth.toNat - s.depth < c.nesting →
      Notes options (statement fuel .empty) s
  | .sequence, c => ∀ (fuel n : Nat) (s : State) (rest : List Lexeme),
      s.input.lexemes = c.lexemes ++ rest → options.maxDepth.toNat - s.depth < c.nesting →
      Notes options (statement fuel .empty >>= sequence (statement fuel) n) s

/-- A statement is refused itself, or what is in it lies too deep. -/
theorem drops_of_construct {c : Clause .statement} {nesting : Nat}
    (hnesting : c.nesting = nesting + 1)
    (h : ∀ (fuel : Nat) (s : State) (rest : List Lexeme),
      s.input.lexemes = c.lexemes ++ rest → options.maxDepth.toNat - s.depth < nesting →
      Notes options (construct (statement fuel) fuel .empty) s) :
    Drops options c := by
  intro fuel s rest hlex hdeep
  rw [hnesting] at hdeep
  cases fuel with
  | zero => trivial
  | succ fuel =>
      unfold Notes
      rw [statement_ownLevel]
      split
      · have hinside : options.maxDepth.toNat - (s.depth + 1) < nesting := by
          omega
        exact h fuel { s with depth := s.depth + 1 } rest hlex hinside
      · exact State.depthReported_refuse s options

/-- What follows the keyword of a choice or a loop, the condition or the body
being beyond the limit. -/
theorem test_notes {test : Comparison} {body : Clause .statement} (ih : Drops options body)
    {opening closing : Lexeme} {fuel : Nat} {s : State} {rest : List Lexeme}
    (hclosing : EndsExpression (closing :: (body.lexemes ++ rest)))
    (hlex : s.input.lexemes
      = opening :: (test.lexemes ++ closing :: (body.lexemes ++ rest)))
    (hdeep : options.maxDepth.toNat - s.depth < max test.nesting body.nesting)
    {after : Exits → JumpList → Generate JumpList}
    (hafter : ∀ exits next, Walks options (after exits next)) :
    Notes options (do
      advance
      let exits ← condition fuel
      expect closing
      let _ ← backpatchHere exits.onTrue
      let next ← statement fuel .empty
      after exits next) s := by
  have hwalks := compositional_walks options
  have hopening := Reads.advance hlex options.maxDigits.toNat
  unfold Notes
  rw [ends_bind, ends_advance]
  by_cases htest : options.maxDepth.toNat - s.depth < test.nesting
  · have hnotes := condition_notes test fuel hopening.lexemes (by rw [hopening.depth]; exact htest)
    exact hnotes.bind fun exits => (hwalks.expect closing).bind fun _ =>
      (hwalks.backpatchHere exits.onTrue).bind fun _ =>
        (hwalks.statement fuel .empty).bind fun next => hafter exits next
  · -- The condition is within the limit, so the body is reached.
    have hbody : options.maxDepth.toNat - s.depth < body.nesting := by
      omega
    simp only [ends_bind]
    apply ends_test test hclosing hlex (by omega)
    intro exits s₁ store hread _ _
    have hnotes := ih fuel s₁ rest hread.lexemes (by rw [hread.depth]; exact hbody)
    rw [← ends_bind]
    exact hnotes.bind fun next => hafter exits next

/-- An assignment lies too deep if its value does. -/
theorem drops_assign {name : String} {value : Phrase .expression} :
    Drops options (.assign name value) := by
  have hwalks := compositional_walks options
  apply drops_of_construct rfl
  intro fuel s rest hlex hdeep
  unfold Notes
  rw [construct, ends_bind, ends_current?, TokenStream.current?_of_lexemes hlex]
  simp only [assignment, ends_bind, ends_backpatchHere_empty, ends_line, ends_advance]
  apply ends_target hlex
  intro s₁ htarget
  have hvalue := phrase_refuses value fuel s₁ rest htarget.reads.lexemes
    (by rw [htarget.reads.depth]; exact hdeep)
  have hnotes := hvalue.bind fun operand =>
    (hwalks.emit (.assign name (.copy operand))).bind fun _ => .pure JumpList.empty
  simp only [Notes, ends_bind] at hnotes
  exact hnotes

/-- A choice lies too deep if its condition or its body does. -/
theorem drops_choice {test : Comparison} {body : Clause .statement} (ih : Drops options body) :
    Drops options (.choice test body) := by
  have hwalks := compositional_walks options
  apply drops_of_construct rfl
  intro fuel s rest hlex hdeep
  rw [Clause.lexemes_choice_append] at hlex
  have hthen : EndsExpression (.keyword .thenKw :: (body.lexemes ++ rest)) :=
    endsExpression_cons (by simp) _
  unfold Notes
  rw [construct, ends_bind, ends_current?, TokenStream.current?_of_lexemes hlex]
  simp only [choice]
  rw [ends_bind, ends_backpatchHere_empty]
  exact test_notes ih hthen hlex hdeep fun exits next =>
    (hwalks.backpatchHere exits.onFalse).bind fun _ => .pure next

/-- A loop lies too deep if its condition or its body does. -/
theorem drops_loop {test : Comparison} {body : Clause .statement} (ih : Drops options body) :
    Drops options (.loop test body) := by
  have hwalks := compositional_walks options
  apply drops_of_construct rfl
  intro fuel s rest hlex hdeep
  rw [Clause.lexemes_loop_append] at hlex
  have hdo : EndsExpression (.keyword .doKw :: (body.lexemes ++ rest)) :=
    endsExpression_cons (by simp) _
  unfold Notes
  rw [construct, ends_bind, ends_current?, TokenStream.current?_of_lexemes hlex]
  simp only [loop]
  rw [ends_bind, ends_backpatchHere_empty]
  exact test_notes ih hdo hlex hdeep fun exits next =>
    (walks_onCode (next.backpatch s.code.nextAddress)).bind fun _ =>
      (hwalks.emit (.jump (some s.code.nextAddress))).bind fun _ =>
        (hwalks.backpatchHere exits.onFalse).bind fun _ => .pure JumpList.empty

/-- A compound lies too deep if one of its statements does. -/
theorem drops_compound {body : Clause .sequence} (ih : Drops options body) :
    Drops options (.compound body) := by
  have hwalks := compositional_walks options
  apply drops_of_construct rfl
  intro fuel s rest hlex hdeep
  rw [Clause.lexemes_compound_append] at hlex
  have hbegin := Reads.advance hlex options.maxDigits.toNat
  unfold Notes
  rw [construct, ends_bind, ends_current?, TokenStream.current?_of_lexemes hlex]
  simp only [compound]
  rw [ends_bind, ends_advance]
  have hbody := ih fuel fuel _ _ hbegin.lexemes (by rw [hbegin.depth]; exact hdeep)
  have hnotes := hbody.bind fun next =>
    (hwalks.expect (.keyword .endKw)).bind fun _ => .pure next
  rw [bind_assoc] at hnotes
  exact hnotes

/-- A sequence lies too deep if its front part does, or else its last statement. -/
theorem drops_next {front : Clause .sequence} {last : Clause .statement}
    (ihf : Drops options front) (ihl : Drops options last) :
    Drops options (.next front last) := by
  have hwalks := compositional_walks options
  intro fuel n s rest hlex hdeep
  rw [Clause.lexemes_next_append] at hlex
  by_cases hfront : options.maxDepth.toNat - s.depth < front.nesting
  · exact ihf fuel n s _ hlex hfront
  · have hlast : options.maxDepth.toNat - s.depth < last.nesting := by
      simp only [Clause.nesting] at hdeep
      omega
    -- The statements in front are within the limit, so they are read as they stand.
    apply clause_carries front fuel s _ _ (.inr (.inl rfl)) hlex (by omega)
    intro s₁ hdone n
    cases n with
    | zero => trivial
    | succ n =>
        have hread := hdone.reads.next options.maxDigits.toNat
        rw [sequence, ends_bind, ends_eat,
          if_pos (TokenStream.current?_of_lexemes hdone.reads.lexemes), if_pos rfl]
        have hnotes := ihl fuel _ rest hread.lexemes (by rw [hread.depth]; exact hlast)
        exact hnotes.bind fun next => hwalks.sequence (hwalks.statement fuel) n next

/-- **Every statement beyond the limit leaves a refusal on record.** -/
theorem clause_drops {extent : Extent} (c : Clause extent) : Drops options c := by
  have hwalks := compositional_walks options
  induction c with
  | empty =>
      apply drops_of_construct rfl
      exact fun fuel s rest _ hdeep => absurd hdeep (Nat.not_lt_zero _)
  | assign name value => exact drops_assign
  | choice test body ih => exact drops_choice ih
  | loop test body ih => exact drops_loop ih
  | compound body ih => exact drops_compound ih
  | one first ih =>
      intro fuel n s rest hlex hdeep
      exact (ih fuel s rest hlex hdeep).bind fun next =>
        hwalks.sequence (hwalks.statement fuel) n next
  | next front last ihf ihl => exact drops_next ihf ihl

/-- **A program beyond the limit leaves a refusal on record.** -/
theorem program_notes (p : Program) {input : TokenStream} (fuel : Nat)
    (hlex : input.lexemes = p.lexemes) (hdeep : options.maxDepth.toNat < p.nesting) :
    Notes options (program fuel) (.start options input) := by
  have hwalks := compositional_walks options
  apply ends_program_of_body p hlex
  intro s hbody hdepth _ _ _
  have hnotes := clause_drops p.body fuel s [] hbody (by rw [hdepth]; exact hdeep)
  exact hnotes.bind fun next => walks_expectEnd.bind fun _ =>
    (hwalks.backpatchHere next).bind fun _ => walks_checkResolved.bind fun _ => .pure (some p.name)

end

end Generate

/-- A compilation that has nothing to say about the form of a source has read a
program within the limit. -/
theorem mem_language_of_compile {options : Options} {source : String}
    {compilation : Compilation} (hok : compile options source = .ok compilation)
    (hform : ∀ diagnostic ∈ compilation.diagnostics, diagnostic.problem.isSyntactic = false) :
    (scan source).lexemes ∈ Program.language options.maxDepth.toNat := by
  obtain ⟨s, hrun, -, hdiagnostics⟩ := run_of_compile hok
  rw [hdiagnostics] at hform
  -- A refusal would have left a diagnostic about the form.
  have hshallow : s.depthReported = false := by
    cases hreported : s.depthReported with
    | false => rfl
    | true =>
        obtain ⟨diagnostic, hmem, hproblem⟩ := Generate.depthNoted_of_program hrun hreported
        have hsyntactic := hform diagnostic hmem
        rw [hproblem] at hsyntactic
        exact nomatch hsyntactic
  exact Generate.program_recognises.ok hrun ⟨hshallow, hform⟩

/-- A program that lies too deep is reported as such. -/
theorem nestingTooDeep_of_compile {options : Options} {source : String}
    {compilation : Compilation} (hok : compile options source = .ok compilation) {p : Program}
    (hlex : p.lexemes = (scan source).lexemes) (hdeep : options.maxDepth.toNat < p.nesting) :
    ∃ diagnostic ∈ compilation.diagnostics,
      diagnostic.problem = .nestingTooDeep options.maxDepth.toNat := by
  obtain ⟨s, hrun, -, hdiagnostics⟩ := run_of_compile hok
  rw [hdiagnostics]
  have hreported := (Generate.program_notes p _ hlex.symm hdeep).ok hrun
  exact Generate.depthNoted_of_program hrun hreported

/-- **The generator accepts exactly the grammar.** A compilation reports no problem
with the form of a source exactly when the lexemes of the source are a program
whose nesting is within the limit. If they are a program that lies deeper, this is
reported. -/
theorem compile_accepts_grammar (options : Options) (source : String)
    (compilation : Compilation) (hok : compile options source = .ok compilation) :
    ((∀ diagnostic ∈ compilation.diagnostics, diagnostic.problem.isSyntactic = false) ↔
      (scan source).lexemes ∈ Program.language options.maxDepth.toNat) ∧
    ∀ p : Program, p.lexemes = (scan source).lexemes → options.maxDepth.toNat < p.nesting →
      ∃ diagnostic ∈ compilation.diagnostics,
        diagnostic.problem = .nestingTooDeep options.maxDepth.toNat := by
  refine ⟨⟨mem_language_of_compile hok, ?_⟩, ?_⟩
  · intro hmem
    -- A program within the limit is translated plainly, and such a run is clean.
    obtain ⟨p, hlex, hroom⟩ := hmem
    obtain ⟨s, hrun, -, hdiagnostics⟩ := run_of_compile hok
    obtain ⟨-, hclean, -⟩ := (Generate.program_ends_plain p hlex.symm hroom).ok hrun
    rw [hdiagnostics]
    exact hclean.diagnostics
  · intro p hlex hdeep
    exact nestingTooDeep_of_compile hok hlex hdeep

/-- The assignment of `(1)` is three levels deep. It is accepted with the limit
three, and reported with the limit two. -/
theorem compile_accepts_grammar_parens :
    (∃ compilation, compile { maxDepth := 3 } "PROGRAM p x := (1)" = .ok compilation ∧
      ∀ diagnostic ∈ compilation.diagnostics, diagnostic.problem.isSyntactic = false) ∧
    (∃ compilation, compile { maxDepth := 2 } "PROGRAM p x := (1)" = .ok compilation ∧
      ∃ diagnostic ∈ compilation.diagnostics, diagnostic.problem = .nestingTooDeep 2) := by
  constructor
  · obtain ⟨compilation, hok⟩ : ∃ compilation,
        compile { maxDepth := 3 } "PROGRAM p x := (1)" = .ok compilation :=
      exists_compilation (by decide +kernel)
    refine ⟨compilation, hok, (compile_accepts_grammar _ _ compilation hok).1.mpr ?_⟩
    exact ⟨⟨"p", [], .assign "x" (.expression (.term none (.factor (.parens
      (.expression (.term none (.factor (.number "1"))))))))⟩, by decide +kernel, by decide +kernel⟩
  · obtain ⟨compilation, hok⟩ : ∃ compilation,
        compile { maxDepth := 2 } "PROGRAM p x := (1)" = .ok compilation :=
      exists_compilation (by decide +kernel)
    refine ⟨compilation, hok, (compile_accepts_grammar _ _ compilation hok).2
      ⟨"p", [], .assign "x" (.expression (.term none (.factor (.parens
        (.expression (.term none (.factor (.number "1"))))))))⟩ ?_ ?_⟩
    · decide +kernel
    · decide +kernel

end ThreeAddress
