import ThreeAddress.Proofs.NestingLimit

/-!
# Slips of the pen

A source may be written with slips: `=` in the place of `:=`, or a `:=`, `THEN`, `DO` or
semicolon that is left out. This module says what a slip is, where it is allowed, and what
is reported for it. `Recovery` proves that the generator reads such a source as if there
were no slips.

* A token is paired with the `Slip` that happens to it. `slipped` is what is written then,
  and `slipDiagnostics` what is to be said: each slip is missed where it happened.
* `SlipsAllowed` looks at the neighbours of a token before any slip. Only semicolons need
  this: without one, a statement must not be drawn into the construct before it, and what
  follows has to be recognised as a statement.
* `Clause.Written` is the same condition along a derivation. There it does not speak of
  neighbours but of the statement in front of the semicolon, which must not end in an empty
  one.
* `slipEvents` is the story of a derivation that is written with slips, and
  `Journal.Stands.tell_slipped` what it comes to if nothing is wrong with the tokens.
-/

set_option autoImplicit false

namespace ThreeAddress

/-! ### Slips -/

/-- What may happen to a token when it is written down. -/
inductive Slip where
  /-- It is written as it is. -/
  | kept
  /-- An `=` is written on a line in its place. -/
  | equals (line : Nat)
  /-- It is left out. -/
  | dropped
deriving DecidableEq, Repr, Inhabited

/-- The lexemes that may be left out. -/
def slippable : List Lexeme :=
  [.punct .becomes, .keyword .thenKw, .keyword .doKw, .punct .semicolon]

example : slippable.map Lexeme.describe = ["':='", "'THEN'", "'DO'", "';'"] := by decide

namespace Slip

/-- What is written for a token. -/
def tokens (token : Token) : Slip → List Token
  | kept => [token]
  | equals line => [⟨.relation .eq, line⟩]
  | dropped => []

/-- What is written for a lexeme. -/
def lexemes (lexeme : Lexeme) : Slip → List Lexeme
  | kept => [lexeme]
  | equals _ => [.relation .eq]
  | dropped => []

/-- Whether a slip can happen to a lexeme at all. -/
def Suits (lexeme : Lexeme) : Slip → Prop
  | kept => True
  | equals _ => lexeme = .punct .becomes
  | dropped => lexeme ∈ slippable

/-- It is decidable whether a slip can happen to a lexeme. -/
instance (lexeme : Lexeme) : (slip : Slip) → Decidable (slip.Suits lexeme)
  | kept => inferInstanceAs (Decidable True)
  | equals _ => inferInstanceAs (Decidable (lexeme = .punct .becomes))
  | dropped => inferInstanceAs (Decidable (lexeme ∈ slippable))

/-- What is said about a slip, `here` being what is left to read where it happened. -/
def diagnostics (lexeme : Lexeme) (here : TokenStream) : Slip → List Diagnostic
  | kept => []
  | _ => [⟨here.line, .expected lexeme.describe (Lexeme.describe? here.current?)⟩]

end Slip

/-- What is written of tokens with slips. -/
def slipped (marked : List (Token × Slip)) : List Token :=
  marked.flatMap fun mark => mark.2.tokens mark.1

/-- What is written of lexemes with slips. -/
def written (marks : List (Lexeme × Slip)) : List Lexeme :=
  marks.flatMap fun mark => mark.2.lexemes mark.1

/-- The lexemes of tokens, with their slips. -/
def lexemeMarks (marked : List (Token × Slip)) : List (Lexeme × Slip) :=
  marked.map fun mark => (mark.1.lexeme, mark.2)

/-- What is said about the slips of tokens, in order. The source ends on `endLine`. -/
def slipDiagnostics (endLine : Nat) : List (Token × Slip) → List Diagnostic
  | [] => []
  | (token, slip) :: rest =>
    slip.diagnostics token.lexeme ⟨slipped ((token, slip) :: rest), endLine⟩ ++
      slipDiagnostics endLine rest

/-- The lexemes behind which a statement is to come. -/
def introducers : List Lexeme :=
  [.keyword .beginKw, .keyword .thenKw, .keyword .doKw, .punct .semicolon]

/-- A semicolon between these lexemes may be left out: it ends a section, or it stands
between two statements that are told apart without it. A semicolon of a program ends a
section just when there is no `BEGIN` before it. -/
def Dispensable (before after : List Lexeme) : Prop :=
  .keyword .beginKw ∉ before ∨
    (∀ last ∈ before.getLast?, last ∉ introducers) ∧
      Generate.startsStatement after.head? = true

/-- It is decidable whether a semicolon may be left out. -/
instance (before after : List Lexeme) : Decidable (Dispensable before after) :=
  inferInstanceAs (Decidable (_ ∨ _))

/-- A slip of a lexeme between these others is allowed. -/
def Slip.Allowed (before after : List Lexeme) (lexeme : Lexeme) (slip : Slip) : Prop :=
  slip.Suits lexeme ∧
    (slip = .dropped → lexeme = .punct .semicolon → Dispensable before after)

/-- It is decidable whether a slip is allowed. -/
instance (before after : List Lexeme) (lexeme : Lexeme) (slip : Slip) :
    Decidable (slip.Allowed before after lexeme) :=
  inferInstanceAs (Decidable (_ ∧ _))

/-- All slips are allowed where they happen. The lexemes in `before` and `after` stand
around the marked ones. -/
def SlipsAllowed (after : List Lexeme) : (before : List Lexeme) → List (Lexeme × Slip) → Prop
  | _, [] => True
  | before, (lexeme, slip) :: rest =>
    slip.Allowed before (rest.map Prod.fst ++ after) lexeme ∧
      SlipsAllowed after (before ++ [lexeme]) rest

/-- It is decidable whether all slips are allowed, from the first mark on. -/
instance decidableSlipsAllowed (after : List Lexeme) :
    (before : List Lexeme) → (marks : List (Lexeme × Slip)) →
      Decidable (SlipsAllowed after before marks)
  | _, [] => inferInstanceAs (Decidable True)
  | before, (lexeme, _) :: rest =>
    have := decidableSlipsAllowed after (before ++ [lexeme]) rest
    inferInstanceAs (Decidable (_ ∧ _))

/-- Lexemes without slips. -/
def keptMarks (lexemes : List Lexeme) : List (Lexeme × Slip) :=
  lexemes.map fun lexeme => (lexeme, .kept)

/-- What is written of two lists of marks. -/
@[simp] theorem written_append (marks more : List (Lexeme × Slip)) :
    written (marks ++ more) = written marks ++ written more :=
  List.flatMap_append

/-- What is written of a mark and of those behind it. -/
@[simp] theorem written_cons (mark : Lexeme × Slip) (marks : List (Lexeme × Slip)) :
    written (mark :: marks) = mark.2.lexemes mark.1 ++ written marks := rfl

/-- Without marks nothing is written. -/
@[simp] theorem written_nil : written [] = [] := rfl

/-- Without slips the lexemes are written. -/
@[simp] theorem written_keptMarks (lexemes : List Lexeme) :
    written (keptMarks lexemes) = lexemes := by
  simp [written, keptMarks, Slip.lexemes, List.flatMap_map]

/-- Each lexeme has one mark. -/
@[simp] theorem length_keptMarks (lexemes : List Lexeme) :
    (keptMarks lexemes).length = lexemes.length :=
  List.length_map ..

/-- The marks are on the lexemes. -/
@[simp] theorem map_fst_keptMarks (lexemes : List Lexeme) :
    (keptMarks lexemes).map Prod.fst = lexemes := by
  rw [keptMarks, List.map_map]
  exact List.map_id lexemes

/-- What is written is the same with lines and without. -/
theorem map_lexeme_slipped (marked : List (Token × Slip)) :
    (slipped marked).map Token.lexeme = written (lexemeMarks marked) := by
  -- A slip does not look at the line of its token.
  have htoken : ∀ mark : Token × Slip,
      (mark.2.tokens mark.1).map Token.lexeme = mark.2.lexemes mark.1.lexeme := by
    rintro ⟨token, slip⟩
    cases slip <;> rfl
  simp only [slipped, written, lexemeMarks, List.map_flatMap, List.flatMap_map, htoken]

/-! ### Where slips are allowed -/

/-- What cannot slip is written as it is. -/
theorem Slip.Suits.eq_kept {lexeme : Lexeme} {slip : Slip} (h : slip.Suits lexeme)
    (hlexeme : lexeme ∉ slippable) : slip = .kept := by
  cases slip with
  | kept => rfl
  | equals line =>
      have hbecomes : lexeme = .punct .becomes := h
      exact absurd (hbecomes ▸ List.mem_cons_self ..) hlexeme
  | dropped => exact absurd h hlexeme

/-- Only a `:=` is mistaken for `=`. -/
theorem Slip.Suits.kept_or_dropped {lexeme : Lexeme} {slip : Slip} (h : slip.Suits lexeme)
    (hlexeme : lexeme ≠ .punct .becomes) : slip = .kept ∨ slip = .dropped := by
  cases slip with
  | kept => exact .inl rfl
  | equals line => exact absurd h hlexeme
  | dropped => exact .inr rfl

/-- A slip that is allowed can happen to its lexeme. -/
theorem SlipsAllowed.suits {after before : List Lexeme} {marks : List (Lexeme × Slip)}
    (h : SlipsAllowed after before marks) : ∀ mark ∈ marks, mark.2.Suits mark.1 := by
  induction marks generalizing before with
  | nil => exact fun _ hmem => nomatch hmem
  | cons mark rest ih =>
      obtain ⟨hfirst, hrest⟩ := h
      exact List.forall_mem_cons.mpr ⟨hfirst.1, ih hrest⟩

/-- In two lists of marks each part is judged by the lexemes of the other one, as they were
before anything slipped. -/
theorem slipsAllowed_append {after before : List Lexeme} {marks more : List (Lexeme × Slip)} :
    SlipsAllowed after before (marks ++ more) ↔
      SlipsAllowed (more.map Prod.fst ++ after) before marks ∧
        SlipsAllowed after (before ++ marks.map Prod.fst) more := by
  induction marks generalizing before with
  | nil => simp [SlipsAllowed]
  | cons mark rest ih => simp [SlipsAllowed, ih, and_assoc]

/-- The marks are on these lexemes, and each slip can happen to its lexeme. -/
structure MarksOf (lexemes : List Lexeme) (marks : List (Lexeme × Slip)) : Prop where
  map_fst : marks.map Prod.fst = lexemes
  suits : ∀ mark ∈ marks, mark.2.Suits mark.1

namespace MarksOf
variable {lexeme : Lexeme} {lexemes more : List Lexeme} {marks : List (Lexeme × Slip)}

/-- There are as many marks as lexemes. -/
theorem length_eq (h : MarksOf lexemes marks) : marks.length = lexemes.length := by
  rw [← h.map_fst, List.length_map]

/-- Lexemes that cannot slip are all written as they are. -/
theorem eq_keptMarks (h : MarksOf lexemes marks) (hfixed : ∀ lexeme ∈ lexemes, lexeme ∉ slippable) :
    marks = keptMarks lexemes := by
  obtain ⟨rfl, hsuits⟩ := h
  -- Each mark is on a lexeme that cannot slip.
  have hkept : ∀ mark ∈ marks, (mark.1, Slip.kept) = mark := by
    intro mark hmem
    rw [← (hsuits mark hmem).eq_kept (hfixed _ (List.mem_map_of_mem hmem))]
  rw [keptMarks, List.map_map]
  calc marks = marks.map id := (List.map_id marks).symm
    _ = marks.map fun mark => (mark.1, Slip.kept) :=
      List.map_congr_left fun mark hmem => (hkept mark hmem).symm

/-- The marks of a lexeme and of what follows it. -/
theorem of_cons (h : MarksOf (lexeme :: lexemes) marks) :
    ∃ slip rest, marks = (lexeme, slip) :: rest ∧ slip.Suits lexeme ∧ MarksOf lexemes rest := by
  obtain ⟨⟨_, slip⟩, rest, rfl, rfl, hrest⟩ := List.map_eq_cons_iff.mp h.map_fst
  obtain ⟨hfirst, hsuits⟩ := List.forall_mem_cons.mp h.suits
  exact ⟨slip, rest, rfl, hfirst, hrest, hsuits⟩

/-- The marks of two lists of lexemes. -/
theorem of_append (h : MarksOf (lexemes ++ more) marks) :
    ∃ front rest, marks = front ++ rest ∧ MarksOf lexemes front ∧ MarksOf more rest := by
  obtain ⟨front, rest, rfl, hfront, hrest⟩ := List.map_eq_append_iff.mp h.map_fst
  obtain ⟨hsuits, hmore⟩ := List.forall_mem_append.mp h.suits
  exact ⟨front, rest, rfl, ⟨hfront, hsuits⟩, hrest, hmore⟩

/-- The marks of a lexeme that cannot slip and of what follows it. -/
theorem of_fixed_cons (h : MarksOf (lexeme :: lexemes) marks) (hfixed : lexeme ∉ slippable) :
    ∃ rest, marks = (lexeme, .kept) :: rest ∧ MarksOf lexemes rest := by
  obtain ⟨slip, rest, rfl, hslip, hrest⟩ := h.of_cons
  obtain rfl := hslip.eq_kept hfixed
  exact ⟨rest, rfl, hrest⟩

/-- The marks of lexemes that cannot slip and of what follows them. -/
theorem of_fixed_append (h : MarksOf (lexemes ++ more) marks)
    (hfixed : ∀ lexeme ∈ lexemes, lexeme ∉ slippable) :
    ∃ rest, marks = keptMarks lexemes ++ rest ∧ MarksOf more rest := by
  obtain ⟨front, rest, rfl, hfront, hrest⟩ := h.of_append
  obtain rfl := hfront.eq_keptMarks hfixed
  exact ⟨rest, rfl, hrest⟩

end MarksOf

/-! ### Slips in a derivation -/

/-- A phrase has no lexeme that can slip. -/
theorem Phrase.not_mem_slippable {level : Level} (p : Phrase level) :
    ∀ lexeme ∈ p.lexemes, lexeme ∉ slippable := by
  induction p with
  | name text => simp [lexemes, slippable]
  | number digits => simp [lexemes, slippable]
  | parens inner ih =>
      have hparen : ∀ mark : Punctuation, mark = .lparen ∨ mark = .rparen →
          .punct mark ∉ slippable := by
        rintro mark (rfl | rfl) <;> simp [slippable]
      exact List.forall_mem_append.mpr ⟨List.forall_mem_cons.mpr ⟨hparen _ (.inl rfl), ih⟩,
        List.forall_mem_singleton.mpr (hparen _ (.inr rfl))⟩
  | factor first ih => exact ih
  | product front op last ihf ihl =>
      exact List.forall_mem_append.mpr
        ⟨ihf, List.forall_mem_cons.mpr ⟨by simp [slippable], ihl⟩⟩
  | term sign first ih =>
      cases sign with
      | none => exact ih
      | some sign => exact List.forall_mem_cons.mpr ⟨by simp [slippable], ih⟩
  | sum front op last ihf ihl =>
      exact List.forall_mem_append.mpr
        ⟨ihf, List.forall_mem_cons.mpr ⟨by simp [slippable], ihl⟩⟩
  | expression whole ih => exact ih

/-- A condition has no lexeme that can slip. -/
theorem Comparison.not_mem_slippable (c : Comparison) :
    ∀ lexeme ∈ c.lexemes, lexeme ∉ slippable :=
  List.forall_mem_append.mpr ⟨c.lhs.not_mem_slippable,
    List.forall_mem_cons.mpr ⟨by simp [slippable], c.rhs.not_mem_slippable⟩⟩

/-- In a definition only the `:=` can slip. -/
theorem Definition.exists_slip (d : Definition) {marks : List (Lexeme × Slip)}
    (h : MarksOf d.lexemes marks) :
    ∃ slip, marks
      = [(.ident d.name, .kept), (.punct .becomes, slip), (.number d.digits, .kept)] := by
  obtain ⟨rest, rfl, hrest⟩ := h.of_fixed_cons (by simp [slippable])
  obtain ⟨slip, last, rfl, -, hlast⟩ := hrest.of_cons
  obtain rfl := hlast.eq_keptMarks (by simp [slippable])
  exact ⟨slip, rfl⟩

/-- A phrase has a first lexeme. -/
theorem Phrase.lexemes_ne_nil {level : Level} (p : Phrase level) : p.lexemes ≠ [] := by
  induction p with
  | name text => simp [lexemes]
  | number digits => simp [lexemes]
  | parens inner ih => simp [lexemes]
  | factor first ih => exact ih
  | product front op last ihf ihl => simp [lexemes]
  | term sign first ih => simp [lexemes, ih]
  | sum front op last ihf ihl => simp [lexemes]
  | expression whole ih => exact ih

/-- Fewer lexemes have no number that is too long either. -/
theorem AllShort.mono {maxDigits : Nat} {lexemes fewer : List Lexeme}
    (h : AllShort maxDigits lexemes) (hsub : fewer ⊆ lexemes) : AllShort maxDigits fewer :=
  fun digits hmem => h digits (hsub hmem)

/-- The first lexeme is no number that is too long either. -/
theorem AllShort.short {maxDigits : Nat} {lexemes : List Lexeme} (h : AllShort maxDigits lexemes)
    (hne : lexemes ≠ []) (rest : List Lexeme) : Short maxDigits (lexemes ++ rest) := by
  obtain ⟨first, others, rfl⟩ := List.exists_cons_of_ne_nil hne
  intro digits hhead
  obtain rfl := Option.some.inj hhead
  exact h digits (List.mem_cons_self ..)

namespace Clause

/-- Whether a statement does not end in an empty one. -/
def solid : {extent : Extent} → Clause extent → Bool
  | _, empty => false
  | _, assign _ _ => true
  | _, choice _ body => body.solid
  | _, loop _ body => body.solid
  | _, compound _ => true
  | _, one first => first.solid
  | _, next _ last => last.solid

/-- The marks are those of a derivation. A keyword may be left out, and a `:=` may be
anything. A semicolon may be left out if the statement before it is solid and the one
behind it is not empty. -/
inductive Written : {extent : Extent} → Clause extent → List (Lexeme × Slip) → Prop
  | empty : Written .empty []
  | assign {name : String} {value : Phrase .expression} (slip : Slip) :
      Written (.assign name value)
        ((.ident name, .kept) :: (.punct .becomes, slip) :: keptMarks value.lexemes)
  | choice {test : Comparison} {body : Clause .statement} {slip : Slip}
      {marks : List (Lexeme × Slip)} (hslip : slip = .kept ∨ slip = .dropped)
      (hbody : Written body marks) :
      Written (.choice test body)
        ((.keyword .ifKw, .kept) ::
          (keptMarks test.lexemes ++ (.keyword .thenKw, slip) :: marks))
  | loop {test : Comparison} {body : Clause .statement} {slip : Slip}
      {marks : List (Lexeme × Slip)} (hslip : slip = .kept ∨ slip = .dropped)
      (hbody : Written body marks) :
      Written (.loop test body)
        ((.keyword .whileKw, .kept) ::
          (keptMarks test.lexemes ++ (.keyword .doKw, slip) :: marks))
  | compound {body : Clause .sequence} {marks : List (Lexeme × Slip)}
      (hbody : Written body marks) :
      Written (.compound body)
        ((.keyword .beginKw, .kept) :: (marks ++ [(.keyword .endKw, .kept)]))
  | one {first : Clause .statement} {marks : List (Lexeme × Slip)}
      (hfirst : Written first marks) : Written (.one first) marks
  | next {front : Clause .sequence} {last : Clause .statement} {slip : Slip}
      {marks more : List (Lexeme × Slip)}
      (hslip : slip = .kept ∨ slip = .dropped ∧ front.solid = true ∧ last ≠ .empty)
      (hfront : Written front marks) (hlast : Written last more) :
      Written (.next front last) (marks ++ (.punct .semicolon, slip) :: more)

/-- The marks of a derivation are on its lexemes. -/
theorem Written.map_fst {extent : Extent} {c : Clause extent} {marks : List (Lexeme × Slip)}
    (h : c.Written marks) : marks.map Prod.fst = c.lexemes := by
  induction h with
  | empty => rfl
  | assign slip => simp [lexemes]
  | choice hslip hbody ih => simp [lexemes, ih]
  | loop hslip hbody ih => simp [lexemes, ih]
  | compound hbody ih => simp [lexemes, ih]
  | one hfirst ih => exact ih
  | next hslip hfront hlast ihf ihl => simp [lexemes, ihf, ihl]

/-- There are as many marks as roles. -/
theorem Written.length_eq {extent : Extent} {c : Clause extent}
    {marks : List (Lexeme × Slip)} (h : c.Written marks) : marks.length = c.roles.length := by
  rw [c.length_roles, ← h.map_fst, List.length_map]

/-- A statement is solid if it does not end in an introducer. What stands before it must
end in one, in case it is empty. -/
theorem solid_of_getLast? {extent : Extent} (c : Clause extent) {before : List Lexeme}
    (hbefore : ∃ last ∈ before.getLast?, last ∈ introducers)
    (h : ∀ last ∈ (before ++ c.lexemes).getLast?, last ∉ introducers) : c.solid = true := by
  induction c generalizing before with
  | empty =>
      obtain ⟨last, hlast, hmem⟩ := hbefore
      rw [lexemes, List.append_nil] at h
      exact absurd hmem (h last hlast)
  | assign name value => rfl
  | choice test body ih =>
      refine @ih (before ++ .keyword .ifKw :: test.lexemes ++ [.keyword .thenKw]) ?_ ?_
      · exact ⟨.keyword .thenKw, List.getLast?_concat, by simp [introducers]⟩
      · simpa [lexemes] using h
  | loop test body ih =>
      refine @ih (before ++ .keyword .whileKw :: test.lexemes ++ [.keyword .doKw]) ?_ ?_
      · exact ⟨.keyword .doKw, List.getLast?_concat, by simp [introducers]⟩
      · simpa [lexemes] using h
  | compound body ih => rfl
  | one first ih => exact ih hbefore h
  | next front last ihf ihl =>
      refine @ihl (before ++ front.lexemes ++ [.punct .semicolon]) ?_ ?_
      · exact ⟨.punct .semicolon, List.getLast?_concat, by simp [introducers]⟩
      · simpa [lexemes] using h

/-- **Slips that are allowed by the neighbours are those of the derivation.** A sequence
stands behind `BEGIN`. -/
theorem written_of_allowed {extent : Extent} (c : Clause extent)
    {before after : List Lexeme} {marks : List (Lexeme × Slip)}
    (hmarks : MarksOf c.lexemes marks) (hallowed : SlipsAllowed after before marks)
    (hafter : Generate.EndsStatement after)
    (hbefore : extent = .sequence → before.getLast? = some (.keyword .beginKw)) :
    c.Written marks := by
  induction c generalizing before after marks with
  | empty =>
      obtain rfl := List.map_eq_nil_iff.mp hmarks.map_fst
      exact .empty
  | assign name value =>
      obtain ⟨rest, rfl, hrest⟩ := hmarks.of_fixed_cons (by simp [slippable])
      obtain ⟨slip, marks, rfl, -, hvalue⟩ := hrest.of_cons
      obtain rfl := hvalue.eq_keptMarks value.not_mem_slippable
      exact .assign slip
  | choice test body ih =>
      have hfront : ∀ lexeme ∈ Lexeme.keyword .ifKw :: test.lexemes, lexeme ∉ slippable :=
        List.forall_mem_cons.mpr ⟨by simp [slippable], test.not_mem_slippable⟩
      obtain ⟨rest, rfl, hrest⟩ := hmarks.of_fixed_append hfront
      obtain ⟨slip, marks, rfl, hslip, hbody⟩ := hrest.of_cons
      obtain ⟨-, -, hallowed⟩ := slipsAllowed_append.mp hallowed
      exact .choice (hslip.kept_or_dropped (by simp)) (ih hbody hallowed hafter (by simp))
  | loop test body ih =>
      have hfront : ∀ lexeme ∈ Lexeme.keyword .whileKw :: test.lexemes, lexeme ∉ slippable :=
        List.forall_mem_cons.mpr ⟨by simp [slippable], test.not_mem_slippable⟩
      obtain ⟨rest, rfl, hrest⟩ := hmarks.of_fixed_append hfront
      obtain ⟨slip, marks, rfl, hslip, hbody⟩ := hrest.of_cons
      obtain ⟨-, -, hallowed⟩ := slipsAllowed_append.mp hallowed
      exact .loop (hslip.kept_or_dropped (by simp)) (ih hbody hallowed hafter (by simp))
  | compound body ih =>
      obtain ⟨rest, rfl, hrest⟩ := hmarks.of_fixed_cons (by simp [slippable])
      obtain ⟨marks, closing, rfl, hbody, hclosing⟩ := hrest.of_append
      obtain rfl := hclosing.eq_keptMarks (by simp [slippable])
      obtain ⟨hallowed, -⟩ := slipsAllowed_append.mp hallowed.2
      exact .compound (ih hbody hallowed (.inr (.inr rfl)) fun _ => List.getLast?_concat)
  | one first ih => exact .one (ih hmarks hallowed hafter (by simp))
  | next front last ihf ihl =>
      -- Only here the neighbours matter: what they say of the semicolon has to become a fact
      -- about the statements on both sides.
      obtain ⟨marks, rest, rfl, hfront, hrest⟩ := hmarks.of_append
      obtain ⟨slip, more, rfl, hslip, hlast⟩ := hrest.of_cons
      obtain ⟨hallowed, hsemicolon, hmore⟩ := slipsAllowed_append.mp hallowed
      refine .next ?_ (ihf hfront hallowed (.inr (.inl rfl)) hbefore)
        (ihl hlast hmore hafter (by simp))
      refine (hslip.kept_or_dropped (by simp)).imp_right fun hdropped => ⟨hdropped, ?_⟩
      have hbegin := hbefore rfl
      rw [hfront.map_fst, hlast.map_fst] at hsemicolon
      -- The semicolon stands behind `BEGIN`, so it does not end a section.
      rcases hsemicolon.2 hdropped rfl with hsection | ⟨hend, hstart⟩
      · exact absurd (List.mem_append_left _ (List.mem_of_getLast? hbegin)) hsection
      · refine ⟨front.solid_of_getLast? ⟨_, hbegin, by simp [introducers]⟩ hend, ?_⟩
        rintro rfl
        rcases hafter with h | h | h <;> simp [lexemes, h, Generate.startsStatement] at hstart

end Clause

/-- The marks are those of a program: its sections may be written with any slips, its
statement with those that its derivation allows. -/
inductive Program.Written (p : Program) : List (Lexeme × Slip) → Prop
  | intro {declarations marks : List (Lexeme × Slip)}
      (hsections : MarksOf (p.sections.flatMap Section.lexemes) declarations)
      (hbody : p.body.Written marks) :
      Written p ((.keyword .programKw, .kept) :: (.ident p.name, .kept) ::
        (declarations ++ marks))

/-- The same for a whole program. -/
theorem Program.written_of_allowed (p : Program) {marks : List (Lexeme × Slip)}
    (hmarks : marks.map Prod.fst = p.lexemes) (hallowed : SlipsAllowed [] [] marks) :
    p.Written marks := by
  have hmarks : MarksOf (.keyword .programKw :: .ident p.name ::
      (p.sections.flatMap Section.lexemes ++ p.body.lexemes)) marks := ⟨hmarks, hallowed.suits⟩
  obtain ⟨rest, rfl, hname⟩ := hmarks.of_fixed_cons (by simp [slippable])
  obtain ⟨rest, rfl, hrest⟩ := hname.of_fixed_cons (by simp [slippable])
  obtain ⟨declarations, marks, rfl, hsections, hbody⟩ := hrest.of_append
  obtain ⟨-, hallowed⟩ := slipsAllowed_append.mp hallowed.2.2
  exact .intro hsections (p.body.written_of_allowed hbody hallowed (.inl rfl) (by simp))

/-! ### The story of what is written -/

/-- What happens at a lexeme with a slip. What is missed has no role, and an `=` in its
place is plain. -/
def Slip.events (lexeme : Lexeme) (role : Role) : Slip → List Event
  | kept => [.read role]
  | equals _ => [.miss lexeme.describe, .read .plain]
  | dropped => [.miss lexeme.describe]

/-- The story of lexemes with slips, in their roles. -/
def slipEvents (marks : List (Lexeme × Slip)) (roles : List Role) : List Event :=
  (List.zipWith (fun mark role => mark.2.events mark.1 role) marks roles).flatten

/-- The story of a mark, and then that of those behind it. -/
@[simp] theorem slipEvents_cons (mark : Lexeme × Slip) (marks : List (Lexeme × Slip))
    (role : Role) (roles : List Role) :
    slipEvents (mark :: marks) (role :: roles)
      = mark.2.events mark.1 role ++ slipEvents marks roles := rfl

/-- The story of one mark. -/
@[simp] theorem slipEvents_singleton (mark : Lexeme × Slip) (role : Role) :
    slipEvents [mark] [role] = mark.2.events mark.1 role :=
  List.append_nil _

/-- The story of two lists of marks. The roles are divided where the marks are. -/
theorem slipEvents_append {marks more : List (Lexeme × Slip)} {roles others : List Role}
    (hlen : marks.length = roles.length) :
    slipEvents (marks ++ more) (roles ++ others)
      = slipEvents marks roles ++ slipEvents more others := by
  rw [slipEvents, List.zipWith_append hlen, List.flatten_append]
  rfl

/-- Without slips the lexemes are read. -/
theorem slipEvents_keptMarks {lexemes : List Lexeme} {roles : List Role}
    (hlen : lexemes.length = roles.length) :
    slipEvents (keptMarks lexemes) roles = roles.map .read := by
  induction roles generalizing lexemes with
  | nil =>
      obtain rfl := List.eq_nil_of_length_eq_zero hlen
      rfl
  | cons role roles ih =>
      obtain ⟨lexeme, lexemes, rfl⟩ := List.exists_cons_of_length_eq_add_one hlen
      exact congrArg _ (ih (Nat.succ.inj hlen))

/-! ### What the story comes to -/

namespace Journal

/-- No event moves the end of the source. -/
theorem endLine_after (options : Options) (j : Journal) (event : Event) :
    (j.after options event).input.endLine = j.input.endLine := by
  cases event with
  | read role =>
      show (j.examine role).input.tail.endLine = _
      rw [input_examine]
      rfl
  | skip role => rfl
  | note =>
      show (j.noteDepth _).input.endLine = _
      unfold noteDepth
      split
      · rfl
      · rfl
  | miss what => rfl

/-- If nothing is wrong with tokens, then what is written of them with slips does not start
with a number that is too long. -/
theorem overlong?_head?_slipped {maxDigits : Nat} {all earlier : List Symbol}
    {marked : List (Token × Slip)} {roles : List Role} (hlen : marked.length = roles.length)
    (hclean : staticDiagnostics maxDigits all earlier ((marked.map Prod.fst).zip roles) = []) :
    (slipped marked).head?.bind (Token.overlong? maxDigits) = none := by
  induction marked generalizing earlier roles with
  | nil => rfl
  | cons mark rest ih =>
      obtain ⟨token, slip⟩ := mark
      obtain ⟨role, roles, rfl⟩ := List.exists_cons_of_length_eq_add_one hlen.symm
      obtain ⟨hnone, hrest⟩ := List.append_eq_nil_iff.mp hclean
      cases slip with
      | kept => exact Token.overlong?_of_diagnostic? (Option.toList_eq_nil_iff.mp hnone)
      | equals line => rfl
      | dropped => exact ih (Nat.succ.inj hlen) hrest

/-- What can slip declares nothing. -/
theorem declaration?_of_mem_slippable {token : Token} (h : token.lexeme ∈ slippable)
    (role : Role) : token.declaration? role = none := by
  unfold Token.declaration?
  simp only [slippable, List.mem_cons, List.not_mem_nil, or_false] at h
  rcases h with h | h | h | h <;> rw [h] <;> cases role <;> rfl

/-- A miss is said and changes nothing else. -/
theorem Stands.miss {options : Options} {said : List Diagnostic} {earlier : List Symbol}
    {left : List Token} {j : Journal}
    (h : j.Stands options.maxDigits.toNat said earlier left)
    (hquiet : left.head?.bind (Token.overlong? options.maxDigits.toNat) = none) (what : String) :
    (j.after options (.miss what)).Stands options.maxDigits.toNat
      (said ++ [⟨j.input.line, .expected what (Lexeme.describe? j.input.current?)⟩])
      earlier left := by
  refine ⟨h.tokens, h.symbols, ?_⟩
  show j.diagnostics ++ _ = _
  rw [h.diagnostics, hquiet, Option.toList_none, List.append_nil, List.append_nil]

/-- A relation is read, and nothing is said. -/
theorem Stands.relation {options : Options} {said : List Diagnostic} {earlier : List Symbol}
    {op : RelOp} {line : Nat} {rest : List Token} {j : Journal}
    (h : j.Stands options.maxDigits.toNat said earlier (⟨.relation op, line⟩ :: rest)) :
    (j.after options (.read .plain)).Stands options.maxDigits.toNat said earlier rest := by
  have huse : Role.plain.isUse = true → earlier = earlier := fun _ => rfl
  have hread : (j.after options (.read .plain)).Stands options.maxDigits.toNat (said ++ [])
      (earlier ++ []) rest := h.read huse
  rwa [List.append_nil, List.append_nil] at hread

/-- **Tokens that are written with slips come to the same names**, and each slip is reported
where it happened. Nothing is wrong with the tokens themselves. The induction is on the
marks, and what is left to read is what is written of those that are left. -/
theorem Stands.tell_slipped {options : Options} {all earlier : List Symbol}
    {said : List Diagnostic} {marked : List (Token × Slip)} {roles : List Role} {j : Journal}
    (h : j.Stands options.maxDigits.toNat said earlier (slipped marked))
    (hlen : marked.length = roles.length)
    (horder : roles.Pairwise fun role later => role.isUse = true → later.isDeclaration = false)
    (hall : all = earlier ++ declared ((marked.map Prod.fst).zip roles))
    (hclean : staticDiagnostics options.maxDigits.toNat all earlier
      ((marked.map Prod.fst).zip roles) = [])
    (hsuits : ∀ mark ∈ marked, mark.2.Suits mark.1.lexeme) :
    (j.tell options (slipEvents (lexemeMarks marked) roles)).Stands options.maxDigits.toNat
      (said ++ slipDiagnostics j.input.endLine marked) all [] := by
  induction marked generalizing said earlier roles j with
  | nil =>
      obtain rfl := List.eq_nil_of_length_eq_zero hlen.symm
      simpa [hall, declared, slipDiagnostics, lexemeMarks, slipEvents, slipped] using h
  | cons mark rest ih =>
      obtain ⟨token, slip⟩ := mark
      obtain ⟨role, roles, rfl⟩ := List.exists_cons_of_length_eq_add_one hlen.symm
      obtain ⟨hbehind, horder'⟩ := List.pairwise_cons.mp horder
      obtain ⟨hnone, hclean'⟩ := List.append_eq_nil_iff.mp hclean
      obtain ⟨hfirst, hsuits'⟩ := List.forall_mem_cons.mp hsuits
      have hquiet := overlong?_head?_slipped hlen hclean
      have hlen' : rest.length = roles.length := Nat.succ.inj hlen
      have huse : role.isUse = true → all = earlier := by
        intro hrole
        rw [hall, List.map_cons, declared_eq_nil_of_isUse hrole hbehind, List.append_nil]
      rw [List.map_cons, declared_zip_cons, ← List.append_assoc] at hall
      -- The input is what is written of the marks, so it is where a slip is reported.
      have hhere : TokenStream.mk (slipped ((token, slip) :: rest)) j.input.endLine = j.input :=
        congrArg (TokenStream.mk · j.input.endLine) h.tokens.symm
      rw [slipDiagnostics, hhere]
      cases slip with
      | kept =>
          have hread : (j.after options (.read role)).Stands _ said _ (slipped rest) :=
            h.pass (Option.toList_eq_nil_iff.mp hnone) huse rfl fun hskip => absurd hskip (by simp)
          have hrest := ih hread hlen' horder' hall hclean' hsuits'
          rw [endLine_after] at hrest
          exact hrest
      | equals line =>
          have hmem : token.lexeme ∈ slippable := by
            rw [show token.lexeme = .punct .becomes from hfirst]
            exact List.mem_cons_self ..
          rw [declaration?_of_mem_slippable hmem, Option.toList_none, List.append_nil]
            at hall hclean'
          have hequals := (h.miss hquiet token.lexeme.describe).relation
          have hrest := ih hequals hlen' horder' hall hclean' hsuits'
          rw [endLine_after, endLine_after, List.append_assoc] at hrest
          exact hrest
      | dropped =>
          rw [declaration?_of_mem_slippable hfirst, Option.toList_none, List.append_nil]
            at hall hclean'
          have hrest := ih (h.miss hquiet token.lexeme.describe) hlen' horder' hall hclean' hsuits'
          rw [endLine_after, List.append_assoc] at hrest
          exact hrest

/-- The same from the start of a source. -/
theorem stands_tell_slipped {options : Options} {input : TokenStream}
    {marked : List (Token × Slip)} {roles : List Role} (hinput : input.tokens = slipped marked)
    (hlen : marked.length = roles.length)
    (horder : roles.Pairwise fun role later => role.isUse = true → later.isDeclaration = false)
    (hclean : staticDiagnostics options.maxDigits.toNat (declared ((marked.map Prod.fst).zip roles))
      [] ((marked.map Prod.fst).zip roles) = [])
    (hsuits : ∀ mark ∈ marked, mark.2.Suits mark.1.lexeme) :
    ((start input).tell options (slipEvents (lexemeMarks marked) roles)).Stands
      options.maxDigits.toNat (slipDiagnostics input.endLine marked)
      (declared ((marked.map Prod.fst).zip roles)) [] := by
  have hstart : (start input).Stands options.maxDigits.toNat [] [] (slipped marked) := by
    refine ⟨hinput, rfl, ?_⟩
    rw [overlong?_head?_slipped hlen hclean]
    rfl
  exact hstart.tell_slipped hlen horder rfl hclean hsuits

end Journal

end ThreeAddress
