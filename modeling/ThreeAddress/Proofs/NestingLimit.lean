import Mathlib.Order.MinMax
import ThreeAddress.Proofs.StaticChecks

/-!
# A program beyond the limit

A program of the grammar in which nothing is wrong but that its nesting exceeds the
limit should be reported once: one diagnostic says that it lies too deep. This
happens exactly if no choice and no loop stands on the level of the limit.
`Clause.testLevels` lists the levels on which they stand.

If a choice or a loop stands right at the limit, its condition is refused. The
generator then skips to the end of the whole statement and expects the relation and
the keyword of the condition there, so two more lexemes are reported as missing.

The proof reads both off the story of the program. `miss_mem_events` says when
something is missed, `note_mem_events` that a construct is noted. If nothing is wrong
with the tokens then all other events are silent, whether a token is read or skipped
(`Journal.Stands.silent`).
-/

set_option autoImplicit false

namespace ThreeAddress

/-! ### The levels of choices and loops -/

/-- The levels on which the choices and loops of a statement stand, the statement
itself being on the first. -/
def Clause.testLevels : {extent : Extent} → Clause extent → List Nat
  | _, empty => []
  | _, assign _ _ => []
  | _, choice _ body => 1 :: body.testLevels.map (· + 1)
  | _, loop _ body => 1 :: body.testLevels.map (· + 1)
  | _, compound body => body.testLevels.map (· + 1)
  | _, one first => first.testLevels
  | _, next front last => front.testLevels ++ last.testLevels

/-- Nothing is missed in a phrase. -/
theorem Phrase.miss_not_mem_events {level : Level} (p : Phrase level) (room : Nat)
    (what : String) : .miss what ∉ p.events room := by
  induction p generalizing room with
  | name text => simp [events]
  | number digits => simp [events]
  | parens inner ih => simp [events, ih]
  | factor first ih => exact ih room
  | product front op last ihf ihl => simp [events, ihf, ihl]
  | term sign first ih => simp [events, ih]
  | sum front op last ihf ihl => simp [events, ihf, ihl]
  | expression whole ih =>
      cases room with
      | zero => simp [events, levelEvents]
      | succ room => exact ih room

/-- Something is missed in a condition and its body if no level is left for the
condition, or else in the body. -/
theorem miss_mem_testEvents {closing : Lexeme} {test : Comparison} {body : Clause .statement}
    {room : Nat} (ih : (∃ what, .miss what ∈ body.events room) ↔ room ∈ body.testLevels) :
    (∃ what, .miss what ∈ testEvents closing test body.roles body.events room)
      ↔ room + 1 ∈ 1 :: body.testLevels.map (· + 1) := by
  cases room with
  | zero => simp [testEvents]
  | succ room =>
      simp only [testEvents, List.mem_append, List.mem_cons, Phrase.miss_not_mem_events,
        reduceCtorEq, false_or]
      rw [ih]
      simp

/-- **Something is missed exactly if a choice or a loop stands right at the limit.** -/
theorem Clause.miss_mem_events {extent : Extent} (c : Clause extent) (room : Nat) :
    (∃ what, .miss what ∈ c.events room) ↔ room ∈ c.testLevels := by
  induction c generalizing room with
  | empty =>
      cases room <;> simp [events, levelEvents, testLevels]
  | assign name value =>
      cases room <;>
        simp [events, levelEvents, testLevels, Phrase.miss_not_mem_events]
  | choice test body ih =>
      cases room with
      | zero => simp [events, levelEvents, testLevels]
      | succ room => simpa [events, levelEvents, testLevels] using miss_mem_testEvents (ih room)
  | loop test body ih =>
      cases room with
      | zero => simp [events, levelEvents, testLevels]
      | succ room => simpa [events, levelEvents, testLevels] using miss_mem_testEvents (ih room)
  | compound body ih =>
      cases room with
      | zero => simp [events, levelEvents, testLevels]
      | succ room => simpa [events, levelEvents, testLevels] using ih room
  | one first ih => exact ih room
  | next front last ihf ihl =>
      simp only [events, testLevels, List.mem_append, List.mem_cons, exists_or, reduceCtorEq,
        false_or, ihf, ihl]

/-! ### Notes -/

/-- A phrase beyond the limit is noted. -/
theorem Phrase.note_mem_events {level : Level} (p : Phrase level) {room : Nat}
    (h : room < p.nesting) : .note ∈ p.events room := by
  induction p generalizing room with
  | name text => exact absurd h (Nat.not_lt_zero _)
  | number digits => exact absurd h (Nat.not_lt_zero _)
  | parens inner ih => simp [events, ih h]
  | factor first ih => exact ih h
  | product front op last ihf ihl =>
      rcases lt_max_iff.mp h with h | h
      · simp [events, ihf h]
      · simp [events, ihl h]
  | term sign first ih => simp [events, ih h]
  | sum front op last ihf ihl =>
      rcases lt_max_iff.mp h with h | h
      · simp [events, ihf h]
      · simp [events, ihl h]
  | expression whole ih =>
      cases room with
      | zero => simp [events, levelEvents]
      | succ room => exact ih (Nat.lt_of_succ_lt_succ h)

/-- A condition or a body beyond the limit is noted. -/
theorem note_mem_testEvents {closing : Lexeme} {test : Comparison} {body : Clause .statement}
    {room : Nat} (h : room < max test.nesting body.nesting)
    (ih : room < body.nesting → .note ∈ body.events room) :
    .note ∈ testEvents closing test body.roles body.events room := by
  cases room with
  | zero => simp [testEvents]
  | succ room =>
      -- One of the two sides or the body lies too deep.
      rcases lt_max_iff.mp h with h | h
      · rcases lt_max_iff.mp h with h | h
        · simp [testEvents, Phrase.note_mem_events _ h]
        · simp [testEvents, Phrase.note_mem_events _ h]
      · simp [testEvents, ih h]

/-- **A statement beyond the limit is noted.** -/
theorem Clause.note_mem_events {extent : Extent} (c : Clause extent) {room : Nat}
    (h : room < c.nesting) : .note ∈ c.events room := by
  induction c generalizing room with
  | empty =>
      obtain rfl := Nat.lt_one_iff.mp h
      simp [events, levelEvents]
  | assign name value =>
      cases room with
      | zero => simp [events, levelEvents]
      | succ room =>
          simp [events, levelEvents, Phrase.note_mem_events value (Nat.lt_of_succ_lt_succ h)]
  | choice test body ih =>
      cases room with
      | zero => simp [events, levelEvents]
      | succ room =>
          simp [events, levelEvents, note_mem_testEvents (Nat.lt_of_succ_lt_succ h) ih]
  | loop test body ih =>
      cases room with
      | zero => simp [events, levelEvents]
      | succ room =>
          simp [events, levelEvents, note_mem_testEvents (Nat.lt_of_succ_lt_succ h) ih]
  | compound body ih =>
      cases room with
      | zero => simp [events, levelEvents]
      | succ room => simp [events, levelEvents, ih (Nat.lt_of_succ_lt_succ h)]
  | one first ih => exact ih h
  | next front last ihf ihl =>
      rcases lt_max_iff.mp h with h | h
      · simp [events, ihf h]
      · simp [events, ihl h]

/-! ### Every token is read or skipped -/

/-- The role of the token that an event leaves behind. -/
def Event.role? : Event → Option Role
  | read role => some role
  | skip role => some role
  | note => none
  | miss _ => none

/-- A role that is read is found in the event. -/
@[simp] theorem Event.role?_comp_read : Event.role? ∘ Event.read = some := rfl

/-- So is a role that is skipped. -/
@[simp] theorem Event.role?_comp_skip : Event.role? ∘ Event.skip = some := rfl

/-- Each token of a phrase is read or skipped, in order. -/
@[simp] theorem Phrase.filterMap_role?_events {level : Level} (p : Phrase level) (room : Nat) :
    (p.events room).filterMap Event.role? = p.roles := by
  induction p generalizing room with
  | name text => rfl
  | number digits => rfl
  | parens inner ih => simp [events, roles, ih, Event.role?]
  | factor first ih => exact ih room
  | product front op last ihf ihl => simp [events, roles, ihf, ihl, Event.role?]
  | term sign first ih => cases sign <;> simp [events, roles, signLexemes, ih, Event.role?]
  | sum front op last ihf ihl => simp [events, roles, ihf, ihl, Event.role?]
  | expression whole ih =>
      cases room with
      | zero => simp [events, roles, levelEvents, List.filterMap_cons, Event.role?]
      | succ room => exact ih room

/-- The same for a condition and its body. -/
theorem filterMap_role?_testEvents {closing : Lexeme} {test : Comparison}
    {body : Clause .statement} {room : Nat}
    (ih : (body.events room).filterMap Event.role? = body.roles) :
    (testEvents closing test body.roles body.events room).filterMap Event.role?
      = test.roles ++ .plain :: body.roles := by
  cases room with
  | zero => simp [testEvents, List.filterMap_cons, Event.role?]
  | succ room => simp [testEvents, Comparison.roles, ih, Event.role?]

/-- Each token of a statement is read or skipped, in order. -/
theorem Clause.filterMap_role?_events {extent : Extent} (c : Clause extent) (room : Nat) :
    (c.events room).filterMap Event.role? = c.roles := by
  induction c generalizing room with
  | empty => cases room <;> simp [events, levelEvents, roles, Event.role?]
  | assign name value =>
      cases room <;> simp [events, levelEvents, roles, List.filterMap_cons, Event.role?]
  | choice test body ih =>
      cases room <;>
        simp [events, levelEvents, roles, List.filterMap_cons, Event.role?,
          filterMap_role?_testEvents (ih _)]
  | loop test body ih =>
      cases room <;>
        simp [events, levelEvents, roles, List.filterMap_cons, Event.role?,
          filterMap_role?_testEvents (ih _)]
  | compound body ih =>
      cases room <;> simp [events, levelEvents, roles, List.filterMap_cons, Event.role?, ih]
  | one first ih => exact ih room
  | next front last ihf ihl => simp [events, roles, ihf, ihl, Event.role?]

/-- Each token of a program is read or skipped, in order. -/
theorem Program.filterMap_role?_events (p : Program) (room : Nat) :
    (p.events room).filterMap Event.role? = p.roles := by
  simp [events, roles, p.body.filterMap_role?_events, Event.role?]

/-- A token that is skipped declares nothing. -/
theorem Program.isDeclaration_of_skip_mem {p : Program} {room : Nat} {role : Role}
    (h : .skip role ∈ p.events room) : role.isDeclaration = false := by
  have hbody : .skip role ∈ p.body.events room := by
    simpa [events] using h
  -- A role that is skipped is one of the roles of the statement, and there nothing is declared.
  have hrole : role ∈ (p.body.events room).filterMap Event.role? :=
    List.mem_filterMap.mpr ⟨_, hbody, rfl⟩
  rw [Clause.filterMap_role?_events] at hrole
  exact p.body.isDeclaration_of_mem_roles role hrole

/-! ### Silent events -/

namespace Journal

/-- Whatever is read or skipped in a story, nothing is said. -/
def Silent (options : Options) : Journal → List Event → Prop
  | _, [] => True
  | j, event :: events =>
    (event.role?.isSome → (j.after options event).diagnostics = j.diagnostics) ∧
      (j.after options event).Silent options events

/-- What is said only grows. -/
theorem diagnostics_prefix_after (options : Options) (j : Journal) (event : Event) :
    j.diagnostics <+: (j.after options event).diagnostics := by
  cases event with
  | read role =>
      show j.diagnostics <+: (j.examine role).diagnostics ++ _
      unfold examine
      split
      · exact (List.prefix_append _ _).trans (List.prefix_append _ _)
      · exact List.prefix_append _ _
  | skip role => exact List.prefix_append _ _
  | note =>
      show j.diagnostics <+: (j.noteDepth options.maxDepth.toNat).diagnostics
      unfold noteDepth
      split
      · exact List.prefix_rfl
      · exact List.prefix_append _ _
  | miss what => exact List.prefix_append _ _

/-- What was said stays. -/
theorem mem_diagnostics_tell {options : Options} {j : Journal} (events : List Event)
    {diagnostic : Diagnostic} (h : diagnostic ∈ j.diagnostics) :
    diagnostic ∈ (j.tell options events).diagnostics := by
  induction events generalizing j with
  | nil => exact h
  | cons event events ih => exact ih ((diagnostics_prefix_after options j event).subset h)

/-- What is missed is reported. -/
theorem expected_mem_diagnostics_tell (options : Options) (j : Journal) {events : List Event}
    {what : String} (h : .miss what ∈ events) :
    ∃ diagnostic ∈ (j.tell options events).diagnostics,
      ∃ found, diagnostic.problem = .expected what found := by
  induction events generalizing j with
  | nil => exact nomatch h
  | cons event events ih =>
      rcases List.mem_cons.mp h with rfl | h
      · -- It is said when the event comes, and what was said stays.
        have hsaid : ⟨j.input.line, .expected what (Lexeme.describe? j.input.current?)⟩
            ∈ (j.after options (.miss what)).diagnostics :=
          List.mem_append_right _ (List.mem_singleton_self _)
        exact ⟨_, mem_diagnostics_tell events hsaid, _, rfl⟩
      · exact ih _ h

/-- Reading and skipping keep the record of the depth. -/
theorem depthReported_after {options : Options} {j : Journal} {event : Event}
    (h : event.role?.isSome) : (j.after options event).depthReported = j.depthReported := by
  cases event with
  | read role =>
      show (j.examine role).depthReported = _
      unfold examine
      split
      · rfl
      · rfl
  | skip role => rfl
  | note => exact nomatch h
  | miss what => exact nomatch h

/-- After a first note, a silent story without a miss says nothing. -/
theorem Silent.diagnostics_of_reported {options : Options} {j : Journal} {events : List Event}
    (h : j.Silent options events) (hmiss : ∀ what, .miss what ∉ events)
    (hreported : j.depthReported = true) :
    (j.tell options events).diagnostics = j.diagnostics := by
  induction events generalizing j with
  | nil => rfl
  | cons event events ih =>
      have hmiss' : ∀ what, .miss what ∉ events :=
        fun what hmem => hmiss what (List.mem_cons_of_mem _ hmem)
      -- Each event says nothing: a token by assumption, and a note because one was made before.
      have hkept : (j.after options event).diagnostics = j.diagnostics ∧
          (j.after options event).depthReported = true := by
        cases event with
        | read role => exact ⟨h.1 rfl, (depthReported_after rfl).trans hreported⟩
        | skip role => exact ⟨h.1 rfl, hreported⟩
        | note =>
            have hagain : j.after options .note = j := if_pos hreported
            rw [hagain]
            exact ⟨rfl, hreported⟩
        | miss what => exact absurd (List.mem_cons_self ..) (hmiss what)
      rw [tell_cons, ih h.2 hmiss' hkept.2, hkept.1]

/-- A silent story with a note and without a miss says one thing. -/
theorem Silent.diagnostics_of_note {options : Options} {j : Journal} {events : List Event}
    (h : j.Silent options events) (hmiss : ∀ what, .miss what ∉ events)
    (hreported : j.depthReported = false) (hnote : .note ∈ events) :
    ∃ line, (j.tell options events).diagnostics
      = j.diagnostics ++ [⟨line, .nestingTooDeep options.maxDepth.toNat⟩] := by
  induction events generalizing j with
  | nil => exact nomatch hnote
  | cons event events ih =>
      have hmiss' : ∀ what, .miss what ∉ events :=
        fun what hmem => hmiss what (List.mem_cons_of_mem _ hmem)
      -- Up to the first note nothing is said, and behind it nothing is said any more.
      by_cases hfirst : event = .note
      · subst hfirst
        have hafter : j.after options .note = _ := if_neg (Bool.not_eq_true _ ▸ hreported)
        refine ⟨j.input.line, ?_⟩
        rw [tell_cons, h.2.diagnostics_of_reported hmiss' (by rw [hafter]; rfl), hafter]
        rfl
      · have hrole : event.role?.isSome := by
          cases event with
          | read role => rfl
          | skip role => rfl
          | note => exact absurd rfl hfirst
          | miss what => exact absurd (List.mem_cons_self ..) (hmiss what)
        have hlater := (List.mem_cons.mp hnote).resolve_left (Ne.symm hfirst)
        rw [tell_cons, ← h.1 hrole]
        exact ih h.2 hmiss' ((depthReported_after hrole).trans hreported) hlater

/-- A remark leaves the tokens and the names alone. -/
theorem Stands.remark {options : Options} {said : List Diagnostic} {earlier : List Symbol}
    {left : List Token} {event : Event} {j : Journal}
    (h : j.Stands options.maxDigits.toNat said earlier left)
    (hquiet : left.head?.bind (Token.overlong? options.maxDigits.toNat) = none)
    (hrole : event.role? = none) :
    (j.after options event).Stands options.maxDigits.toNat (j.after options event).diagnostics
      earlier left := by
  have hsame : (j.after options event).input = j.input ∧
      (j.after options event).symbols = j.symbols := by
    cases event with
    | read role => exact nomatch hrole
    | skip role => exact nomatch hrole
    | note =>
        show (j.noteDepth _).input = _ ∧ (j.noteDepth _).symbols = _
        unfold noteDepth
        split
        · exact ⟨rfl, rfl⟩
        · exact ⟨rfl, rfl⟩
    | miss what => exact ⟨rfl, rfl⟩
  refine ⟨?_, hsame.2.trans h.symbols, ?_⟩
  · rw [hsame.1, h.tokens]
  · rw [hquiet, Option.toList_none, List.append_nil]

/-- A token with which nothing is wrong is left behind. It may be skipped if it
declares nothing. -/
theorem Stands.pass {options : Options} {said : List Diagnostic} {earlier all : List Symbol}
    {token : Token} {rest : List Token} {event : Event} {role : Role} {j : Journal}
    (h : j.Stands options.maxDigits.toNat said earlier (token :: rest))
    (hclean : token.diagnostic? options.maxDigits.toNat earlier all role = none)
    (huse : role.isUse = true → all = earlier) (hrole : event.role? = some role)
    (hskip : event = .skip role → role.isDeclaration = false) :
    (j.after options event).Stands options.maxDigits.toNat said
      (earlier ++ (token.declaration? role).toList) rest := by
  cases event with
  | read role' =>
      obtain rfl := Option.some.inj hrole
      have hread := h.read huse
      rw [hclean, Option.toList_none, List.append_nil] at hread
      exact hread
  | skip role' =>
      obtain rfl := Option.some.inj hrole
      have htail : j.input.tail.tokens = rest := by
        simp [TokenStream.tail, h.tokens]
      have hsaid : j.diagnostics = said := by
        rw [h.diagnostics, List.head?_cons, Option.bind_some, Token.overlong?_of_diagnostic? hclean,
          Option.toList_none, List.append_nil]
      rw [token.declaration?_eq_none (hskip rfl), Option.toList_none, List.append_nil]
      refine ⟨htail, h.symbols, ?_⟩
      show j.diagnostics ++ _ = _
      rw [hsaid, htail]
  | note => cases hrole
  | miss what => cases hrole

/-- If nothing is wrong with the tokens, the first is no number that is too long. -/
theorem overlong?_head?_of_static {maxDigits : Nat} {all earlier : List Symbol}
    {left : List Token} {roles : List Role} (hlen : left.length = roles.length)
    (hclean : staticDiagnostics maxDigits all earlier (left.zip roles) = []) :
    left.head?.bind (Token.overlong? maxDigits) = none := by
  cases left with
  | nil => rfl
  | cons token rest =>
      obtain ⟨role, roles, rfl⟩ := List.exists_cons_of_length_eq_add_one hlen.symm
      have hnone := (List.append_eq_nil_iff.mp hclean).1
      exact Token.overlong?_of_diagnostic? (Option.toList_eq_nil_iff.mp hnone)

/-- **If nothing is wrong with the tokens, reading and skipping them is silent.** The
induction is on the story. The tokens that are left have the roles of the events that
are left. -/
theorem Stands.silent {options : Options} {all earlier : List Symbol} {said : List Diagnostic}
    {left : List Token} {events : List Event} {j : Journal}
    (h : j.Stands options.maxDigits.toNat said earlier left)
    (hlen : left.length = (events.filterMap Event.role?).length)
    (horder : (events.filterMap Event.role?).Pairwise
      fun role later => role.isUse = true → later.isDeclaration = false)
    (hskip : ∀ role, .skip role ∈ events → role.isDeclaration = false)
    (hall : all = earlier ++ declared (left.zip (events.filterMap Event.role?)))
    (hclean : staticDiagnostics options.maxDigits.toNat all earlier
      (left.zip (events.filterMap Event.role?)) = []) : j.Silent options events := by
  induction events generalizing said earlier left j with
  | nil => trivial
  | cons event events ih =>
      have hquiet := overlong?_head?_of_static hlen hclean
      have hskip' : ∀ role, .skip role ∈ events → role.isDeclaration = false :=
        fun role hmem => hskip role (List.mem_cons_of_mem _ hmem)
      cases hrole : event.role? with
      | none =>
          rw [List.filterMap_cons_none hrole] at hlen horder hall hclean
          refine ⟨fun hsome => ?_, ih (h.remark hquiet hrole) hlen horder hskip' hall hclean⟩
          rw [hrole] at hsome
          exact absurd hsome Bool.false_ne_true
      | some role =>
          rw [List.filterMap_cons_some hrole] at hlen horder hall hclean
          obtain ⟨token, rest, rfl⟩ := List.exists_cons_of_length_eq_add_one hlen
          obtain ⟨hbehind, horder⟩ := List.pairwise_cons.mp horder
          obtain ⟨hnone, hrest⟩ := List.append_eq_nil_iff.mp hclean
          have hlen' : rest.length = (events.filterMap Event.role?).length := Nat.succ.inj hlen
          -- A name is used only behind all declarations, so nothing is declared later.
          have huse : role.isUse = true → all = earlier := by
            intro hrole
            rw [hall, declared_eq_nil_of_isUse hrole hbehind, List.append_nil]
          have hnext := h.pass (Option.toList_eq_nil_iff.mp hnone) huse hrole
            fun hevent => hskip role (hevent ▸ List.mem_cons_self ..)
          rw [declared_zip_cons, ← List.append_assoc] at hall
          refine ⟨fun _ => ?_, ih hnext hlen' horder hskip' hall hrest⟩
          rw [hnext.diagnostics, h.diagnostics, hquiet, overlong?_head?_of_static hlen' hrest]

end Journal

/-! ### Programs beyond the limit -/

/-- **A program beyond the limit is reported once, exactly if no choice and no loop
stands right at the limit.** The lexemes of the source are derived by the program,
nothing is wrong with its tokens, and its nesting exceeds the limit. -/
theorem compile_too_deep_reports_once (options : Options) (source : String) (p : Program)
    (compilation : Compilation) (hlex : p.lexemes = (scan source).lexemes)
    (hstatic : staticDiagnostics options.maxDigits.toNat
      (declared ((scan source).tokens.zip p.roles)) [] ((scan source).tokens.zip p.roles) = [])
    (hdeep : options.maxDepth.toNat < p.nesting)
    (hok : compile options source = .ok compilation) :
    (∃ line, compilation.diagnostics.toList = [⟨line, .nestingTooDeep options.maxDepth.toNat⟩])
      ↔ options.maxDepth.toNat ∉ p.body.testLevels := by
  obtain ⟨input, depthReported, hjournal⟩ := journal_of_compile hok hlex
  have hdiagnostics : ((Journal.start (scan source)).tell options
      (p.events options.maxDepth.toNat)).diagnostics = compilation.diagnostics.toList := by
    rw [hjournal]
  have hmissed : (∃ what, .miss what ∈ p.events options.maxDepth.toNat)
      ↔ options.maxDepth.toNat ∈ p.body.testLevels := by
    rw [← p.body.miss_mem_events]
    simp [Program.events]
  constructor
  · -- A lexeme that is missed is reported too, and this is a second report.
    intro honce hlevel
    obtain ⟨line, honce⟩ := honce
    obtain ⟨what, hmiss⟩ := hmissed.mpr hlevel
    obtain ⟨diagnostic, hmem, found, hproblem⟩ :=
      Journal.expected_mem_diagnostics_tell options (.start (scan source)) hmiss
    rw [hdiagnostics, honce, List.mem_singleton] at hmem
    rw [hmem] at hproblem
    exact absurd hproblem (by simp)
  · intro hlevel
    have hmiss : ∀ what, .miss what ∉ p.events options.maxDepth.toNat :=
      fun what hmem => hlevel (hmissed.mp ⟨what, hmem⟩)
    -- Exactly one thing is said, because the story is silent apart from its first note.
    have hnote : .note ∈ p.events options.maxDepth.toNat :=
      List.mem_append_right _ (p.body.note_mem_events hdeep)
    have hroles := p.filterMap_role?_events options.maxDepth.toNat
    have hsilent : (Journal.start (scan source)).Silent options
        (p.events options.maxDepth.toNat) := by
      refine (Journal.stands_start hlex _).silent ?_ ?_ ?_ rfl ?_
      · rw [hroles, p.length_tokens hlex]
      · rw [hroles]
        exact p.pairwise_roles
      · intro role hmem
        exact Program.isDeclaration_of_skip_mem hmem
      · rw [hroles]
        exact hstatic
    obtain ⟨line, honce⟩ := hsilent.diagnostics_of_note hmiss rfl hnote
    rw [hdiagnostics] at honce
    exact ⟨line, honce⟩

/-- An assignment whose parentheses lie too deep: one report. -/
theorem compile_too_deep_reports_once_parens :
    ∃ compilation line,
      compile { maxDepth := 2 } "PROGRAM p VAR x; x := (1 + 2) * x" = .ok compilation ∧
      compilation.diagnostics.toList = [⟨line, .nestingTooDeep 2⟩] := by
  obtain ⟨compilation, hok⟩ : ∃ compilation,
      compile { maxDepth := 2 } "PROGRAM p VAR x; x := (1 + 2) * x" = .ok compilation :=
    exists_compilation (by decide +kernel)
  have honce := compile_too_deep_reports_once { maxDepth := 2 } _
    ⟨"p", [.vars "x" []],
      .assign "x" (.expression (.term none (.product
        (.factor (.parens (.expression (.sum (.term none (.factor (.number "1"))) .add
          (.factor (.number "2")))))) .mul (.name "x"))))⟩
    compilation (by decide +kernel) (by decide +kernel) (by decide +kernel) hok
  obtain ⟨line, hline⟩ := honce.mpr (by decide +kernel)
  exact ⟨compilation, line, hok, hline⟩

/-- **A choice at the limit is reported three times.** So it does not hold of every
program beyond the limit that it is reported once. -/
theorem compile_too_deep_choice_at_limit :
    ¬ ∀ (options : Options) (source : String) (p : Program) (compilation : Compilation),
      p.lexemes = (scan source).lexemes →
      staticDiagnostics options.maxDigits.toNat (declared ((scan source).tokens.zip p.roles)) []
        ((scan source).tokens.zip p.roles) = [] →
      options.maxDepth.toNat < p.nesting → compile options source = .ok compilation →
      ∃ line, compilation.diagnostics.toList
        = [⟨line, .nestingTooDeep options.maxDepth.toNat⟩] := by
  intro hclaim
  have hcompile : compile { maxDepth := 1 } "PROGRAM p VAR x; IF x > 0 THEN x := 1" = .ok
      { program := some "p"
        symbols := ⟨#[⟨"x", .var, 1⟩]⟩
        code := ⟨0, #[.branch "?" .eq "?" (some 2), .jump (some 2)]⟩
        diagnostics := #[⟨1, .nestingTooDeep 1⟩,
          ⟨1, .expected "relational operator" "end of input"⟩,
          ⟨1, .expected "'THEN'" "end of input"⟩] } := by
    decide +kernel
  obtain ⟨line, honce⟩ := hclaim { maxDepth := 1 } _
    ⟨"p", [.vars "x" []],
      .choice ⟨.expression (.term none (.factor (.name "x"))), .gt,
          .expression (.term none (.factor (.number "0")))⟩
        (.assign "x" (.expression (.term none (.factor (.number "1")))))⟩
    _ (by decide +kernel) (by decide +kernel) (by decide +kernel) hcompile
  exact absurd (congrArg List.length honce) (by simp)

end ThreeAddress
