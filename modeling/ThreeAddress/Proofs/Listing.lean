import ThreeAddress.Proofs.Lifetimes

/-!
# The listing loses nothing

A line of the listing has its operands and operators side by side, with no mark between
them. It can be read back all the same, because every text that the generator puts into an
instruction is an *operand*: it is not empty, and it has letters, digits and question marks
only. No operator, blank, colon or line feed is among these, so an operand ends where another
part of the line starts.

The lemmas `…_append_inj` say this of one part after the other. Two texts that start with
such a part and are equal have equal parts in front, and the same text behind them. A minus
in front of an operand needs most care: it is written like a difference without its left
operand (`Rvalue.parts`), and that no operand is empty tells them apart.

That all texts are operands is an invariant of trees (`Stmt.isLegible_of_mem_code`), and the
code of every compilation is that of a tree.
-/

set_option autoImplicit false

namespace ThreeAddress

/-! ### Texts that end where something else starts -/

/-- The text is at its end, or a character follows that is not one of `p`. -/
def Stops (p : Char → Bool) (rest : List Char) : Prop := ∀ c ∈ rest.head?, p c = false

/-- Whether a text stops depends on its first character. -/
theorem stops_cons {p : Char → Bool} {c : Char} {rest : List Char} :
    Stops p (c :: rest) ↔ p c = false := by simp [Stops]

section
variable {p : Char → Bool} {front rest : List Char} (hfront : ∀ c ∈ front, p c = true)
  (hstops : Stops p rest)
include hfront hstops

/-- The characters of `p` in front are taken. -/
theorem takeWhile_append_of_stops : (front ++ rest).takeWhile p = front := by
  rw [List.takeWhile_append_of_pos hfront]
  cases rest with
  | nil => exact List.append_nil _
  | cons c rest =>
      rw [List.takeWhile_cons, stops_cons.mp hstops, if_neg Bool.false_ne_true, List.append_nil]

/-- What follows the characters of `p` is left. -/
theorem dropWhile_append_of_stops : (front ++ rest).dropWhile p = rest := by
  rw [List.dropWhile_append_of_pos hfront]
  cases rest with
  | nil => rfl
  | cons c rest => rw [List.dropWhile_cons, stops_cons.mp hstops, if_neg Bool.false_ne_true]

end

/-- Of two texts that are equal, the longest front parts with characters of `p` are equal. -/
theorem append_inj_of_stops {p : Char → Bool} {front front' rest rest' : List Char}
    (hfront : ∀ c ∈ front, p c = true) (hfront' : ∀ c ∈ front', p c = true)
    (hstops : Stops p rest) (hstops' : Stops p rest') (h : front ++ rest = front' ++ rest') :
    front = front' ∧ rest = rest' := by
  have hsame : front = front' := by
    rw [← takeWhile_append_of_stops hfront hstops, h, takeWhile_append_of_stops hfront' hstops']
  subst hsame
  exact ⟨rfl, List.append_cancel_left h⟩

/-- The digits of a number end where no digit follows. -/
theorem toDigits_append_inj {m n : Nat} {rest rest' : List Char}
    (hstops : Stops Char.isDigit rest) (hstops' : Stops Char.isDigit rest')
    (h : Nat.toDigits 10 m ++ rest = Nat.toDigits 10 n ++ rest') : m = n ∧ rest = rest' := by
  have hdigits : ∀ k, ∀ c ∈ Nat.toDigits 10 k, c.isDigit = true := fun k c hc =>
    Nat.isDigit_of_mem_toDigits (by decide) (by decide) hc
  obtain ⟨hsame, hrest⟩ := append_inj_of_stops (hdigits m) (hdigits n) hstops hstops' h
  -- Equal digits are digits of one number.
  have hvalue := congrArg Decimal.value hsame
  rw [Decimal.value_toDigits, Decimal.value_toDigits] at hvalue
  exact ⟨hvalue, hrest⟩

/-! ### Operands -/

/-- The characters of operands. -/
def isOperandChar (c : Char) : Bool := c.isAlphanum || c = '?'

/-- A text that can be an operand. -/
structure IsOperand (text : String) : Prop where
  ne_nil : text.toList ≠ []
  chars : ∀ c ∈ text.toList, isOperandChar c = true

/-- An operand ends where no character of operands follows. -/
theorem operand_append_inj {text text' : String} {rest rest' : List Char}
    (htext : IsOperand text) (htext' : IsOperand text')
    (hstops : Stops isOperandChar rest) (hstops' : Stops isOperandChar rest')
    (h : text.toList ++ rest = text'.toList ++ rest') : text = text' ∧ rest = rest' := by
  obtain ⟨hsame, hrest⟩ := append_inj_of_stops htext.chars htext'.chars hstops hstops' h
  exact ⟨String.toList_inj.mp hsame, hrest⟩

/-- Digits are characters of operands. -/
theorem isOperandChar_of_mem_toDigits {n : Nat} {c : Char} (h : c ∈ Nat.toDigits 10 n) :
    isOperandChar c = true := by
  have hdigit := Nat.isDigit_of_mem_toDigits (by decide) (by decide) h
  show (c.isAlpha || c.isDigit || _) = true
  rw [hdigit, Bool.or_true, Bool.true_or]

/-- The text that stands for a missing operand is an operand. -/
theorem isOperand_missing : IsOperand Generate.missing :=
  ⟨List.cons_ne_nil _ _, List.all_eq_true.mp rfl⟩

/-- A literal is written in digits. -/
theorem isOperand_literalText (digits : String) : IsOperand (Lexeme.literalText digits) := by
  have hlist : (Lexeme.literalText digits).toList
      = Nat.toDigits 10 (Decimal.literal digits.toList) := by
    rw [Lexeme.literalText, Nat.toString_eq_repr, Nat.toList_repr]
  refine ⟨?_, ?_⟩
  · rw [hlist]
    exact Nat.toDigits_ne_nil
  · rw [hlist]
    exact fun c hc => isOperandChar_of_mem_toDigits hc

/-- A temporary is written as a letter and digits. -/
theorem isOperand_name (k : Nat) : IsOperand (Temporaries.name k) := by
  refine ⟨?_, ?_⟩
  · rw [Temporaries.toList_name]
    exact List.cons_ne_nil _ _
  · rw [Temporaries.toList_name, List.forall_mem_cons]
    exact ⟨by decide, fun c hc => isOperandChar_of_mem_toDigits hc⟩

/-- The names of a source are operands. -/
theorem isOperand_of_ident_mem_scan {source : String} {x : String}
    (h : .ident x ∈ (scan source).lexemes) : IsOperand x := by
  obtain ⟨first, rest, hfirst, hrest, rfl⟩ := exists_word_of_ident_mem_scan h
  refine ⟨?_, ?_⟩
  · rw [String.toList_ofList]
    exact List.cons_ne_nil _ _
  · rw [String.toList_ofList, List.forall_mem_cons]
    refine ⟨?_, fun c hc => ?_⟩
    · show (first.isAlpha || first.isDigit || _) = true
      rw [hfirst, Bool.true_or, Bool.true_or]
    · rw [isOperandChar, hrest c hc, Bool.true_or]

/-- An operand starts with one of its characters. -/
theorem IsOperand.stops {text : String} (h : IsOperand text) (rest : List Char) :
    Stops (fun c => !isOperandChar c) (text.toList ++ rest) := by
  obtain ⟨hne, hchars⟩ := h
  cases htext : text.toList with
  | nil => exact absurd htext hne
  | cons c cs =>
      have hc := hchars c (by rw [htext]; exact List.mem_cons_self)
      rw [List.cons_append, stops_cons, hc]
      rfl

/-! ### Right-hand sides -/

namespace Rvalue

/-- All texts of a right-hand side are operands. -/
def IsLegible : Rvalue → Prop
  | copy operand => IsOperand operand
  | neg operand => IsOperand operand
  | binary _ lhs rhs => IsOperand lhs ∧ IsOperand rhs

/-- A right-hand side by its parts: an operand, and an operator with another one. A sign is an
operator without an operand in front. -/
def parts : Rvalue → String × Option (ArithOp × String)
  | copy operand => (operand, none)
  | neg operand => ("", some (.sub, operand))
  | binary op lhs rhs => (lhs, some (op, rhs))

/-- How an operator with an operand is written, if there is one. -/
def tailText : Option (ArithOp × String) → List Char
  | none => []
  | some (op, operand) => op.symbol.toList ++ operand.toList

/-- The text of a right-hand side is its two parts, one behind the other. -/
theorem toList_text (value : Rvalue) :
    value.text.toList = value.parts.1.toList ++ tailText value.parts.2 := by
  cases value with
  | copy operand => simp [text, parts, tailText]
  | neg operand => simp [text, parts, tailText, ArithOp.symbol]
  | binary op lhs rhs => simp [text, parts, tailText]

/-- The part in front has no other characters, even where it is empty. -/
theorem isOperandChar_of_mem_parts {value : Rvalue} (h : value.IsLegible) :
    ∀ c ∈ value.parts.1.toList, isOperandChar c = true := by
  cases value with
  | copy operand => exact h.chars
  | neg operand => exact fun c hc => nomatch hc
  | binary op lhs rhs => exact h.1.chars

/-- The part behind an operator is an operand. -/
theorem isOperand_of_parts {value : Rvalue} (h : value.IsLegible) {op : ArithOp}
    {operand : String} (hparts : value.parts.2 = some (op, operand)) : IsOperand operand := by
  cases value with
  | copy operand' => exact nomatch hparts
  | neg operand' =>
      cases hparts
      exact h
  | binary op' lhs rhs =>
      cases hparts
      exact h.2

/-- No two right-hand sides have the same parts, because no operand is empty. -/
theorem parts_inj {value value' : Rvalue} (hlegible : value.IsLegible)
    (hlegible' : value'.IsLegible) (h : value.parts = value'.parts) : value = value' := by
  -- This is what tells a sign from a difference.
  have hempty : ¬IsOperand "" := fun hempty => hempty.ne_nil rfl
  cases value with
  | copy operand =>
      cases value' with
      | copy operand' => exact congrArg copy (Prod.mk.inj h).1
      | neg operand' => exact nomatch (Prod.mk.inj h).2
      | binary op' lhs' rhs' => exact nomatch (Prod.mk.inj h).2
  | neg operand =>
      cases value' with
      | copy operand' => exact nomatch (Prod.mk.inj h).2
      | neg operand' => simpa [parts] using h
      | binary op' lhs' rhs' => exact absurd ((Prod.mk.inj h).1 ▸ hlegible'.1) hempty
  | binary op lhs rhs =>
      cases value' with
      | copy operand' => exact nomatch (Prod.mk.inj h).2
      | neg operand' => exact absurd ((Prod.mk.inj h).1 ▸ hlegible.1) hempty
      | binary op' lhs' rhs' =>
          simp only [parts, Prod.mk.injEq, Option.some.injEq] at h
          obtain ⟨rfl, rfl, rfl⟩ := h
          rfl

/-- An operand ends where an operator or the end of a line follows. -/
theorem stops_tailText (tail : Option (ArithOp × String)) (rest : List Char) :
    Stops isOperandChar (tailText tail ++ '\n' :: rest) := by
  rcases tail with _ | ⟨op, operand⟩
  · exact stops_cons.mpr rfl
  · cases op <;> exact stops_cons.mpr rfl

/-- No operator is a line feed. -/
theorem tailText_some_ne (op : ArithOp) (operand : String) (rest rest' : List Char) :
    tailText (some (op, operand)) ++ rest ≠ '\n' :: rest' := by
  intro h
  cases op <;> exact absurd (List.cons.inj h).1 (by decide)

/-- An operator with an operand is read back up to the end of its line. -/
theorem tailText_append_inj {tail tail' : Option (ArithOp × String)} {rest rest' : List Char}
    (htail : ∀ op operand, tail = some (op, operand) → IsOperand operand)
    (htail' : ∀ op operand, tail' = some (op, operand) → IsOperand operand)
    (h : tailText tail ++ '\n' :: rest = tailText tail' ++ '\n' :: rest') :
    tail = tail' ∧ rest = rest' := by
  rcases tail with _ | ⟨op, operand⟩
  · rcases tail' with _ | ⟨op', operand'⟩
    · exact ⟨rfl, List.tail_eq_of_cons_eq h⟩
    · exact absurd h.symm (tailText_some_ne op' operand' _ rest)
  · rcases tail' with _ | ⟨op', operand'⟩
    · exact absurd h (tailText_some_ne op operand _ rest')
    · have hoperand := htail op operand rfl
      have hoperand' := htail' op' operand' rfl
      -- An operator has no character of an operand, so the texts fall apart in the same place.
      have hsymbol : ∀ (op : ArithOp), ∀ c ∈ op.symbol.toList, (!isOperandChar c) = true :=
        fun op => List.all_eq_true.mp (by cases op <;> rfl)
      simp only [tailText, List.append_assoc] at h
      obtain ⟨hop, hbehind⟩ := append_inj_of_stops (hsymbol op) (hsymbol op') (hoperand.stops _)
        (hoperand'.stops _) h
      obtain ⟨rfl, hrest⟩ := operand_append_inj hoperand hoperand' (stops_cons.mpr rfl)
        (stops_cons.mpr rfl) hbehind
      rw [ArithOp.symbol_inj.mp (String.toList_inj.mp hop)]
      exact ⟨rfl, List.tail_eq_of_cons_eq hrest⟩

/-- A right-hand side is read back up to the end of its line. -/
theorem text_append_inj {value value' : Rvalue} {rest rest' : List Char}
    (hlegible : value.IsLegible) (hlegible' : value'.IsLegible)
    (h : value.text.toList ++ '\n' :: rest = value'.text.toList ++ '\n' :: rest') :
    value = value' ∧ rest = rest' := by
  rw [toList_text, toList_text, List.append_assoc, List.append_assoc] at h
  obtain ⟨hfront, h⟩ := append_inj_of_stops (isOperandChar_of_mem_parts hlegible)
    (isOperandChar_of_mem_parts hlegible') (stops_tailText _ _) (stops_tailText _ _) h
  obtain ⟨htail, h⟩ := tailText_append_inj (fun _ _ => isOperand_of_parts hlegible)
    (fun _ _ => isOperand_of_parts hlegible') h
  exact ⟨parts_inj hlegible hlegible' (Prod.ext (String.toList_inj.mp hfront) htail), h⟩

/-- With an empty operand a difference would be written like a sign. -/
example : (binary .sub "" "x").text = (neg "x").text := by decide

end Rvalue

/-! ### Lines -/

namespace Instruction

/-- All texts of an instruction are operands. -/
def IsLegible : Instruction → Prop
  | assign dest value => IsOperand dest ∧ value.IsLegible
  | branch lhs _ rhs _ => IsOperand lhs ∧ IsOperand rhs
  | jump _ => True

/-- The line of an instruction behind the address and its colon. -/
def body : Instruction → List Char
  | assign dest value => '\t' :: (dest.toList ++ ':' :: '=' :: value.text.toList)
  | branch lhs op rhs target =>
    [' ', ' ', ' ', ' ', 'i', 'f', ' '] ++ (lhs.toList ++ ' ' :: (op.symbol.toList ++ ' ' ::
      (rhs.toList ++ ([' ', 'g', 'o', 't', 'o', ' '] ++ (targetText target).toList))))
  | jump target => [' ', ' ', ' ', ' ', 'g', 'o', 't', 'o', ' '] ++ (targetText target).toList

/-- A line is the digits of its address, a colon, and the body of the instruction. -/
theorem toList_render (address : Nat) (instruction : Instruction) :
    (instruction.render address).toList = Nat.toDigits 10 address ++ ':' :: instruction.body := by
  cases instruction
  all_goals
    simp only [render, String.toList_append, List.append_assoc, Nat.toString_eq_repr,
      Nat.toList_repr]
    rfl

/-- A target is read back up to the end of its line. -/
theorem targetText_append_inj {target target' : Option Nat} {rest rest' : List Char}
    (h : (targetText target).toList ++ '\n' :: rest
      = (targetText target').toList ++ '\n' :: rest') :
    target = target' ∧ rest = rest' := by
  have htext : ∀ target : Nat, (targetText (some target)).toList = Nat.toDigits 10 target := by
    intro target
    rw [targetText, Nat.toString_eq_repr, Nat.toList_repr]
  -- A line feed is no digit, so a target that is missing is not taken for one that is there.
  have hne : ∀ (target : Nat) (rest rest' : List Char),
      (targetText (some target)).toList ++ rest ≠ '\n' :: rest' := by
    intro target rest rest' h
    rw [htext] at h
    cases hdigits : Nat.toDigits 10 target with
    | nil => exact absurd hdigits Nat.toDigits_ne_nil
    | cons c cs =>
        have hdigit := Nat.isDigit_of_mem_toDigits (by decide) (by decide)
          (hdigits ▸ List.mem_cons_self : c ∈ Nat.toDigits 10 target)
        rw [hdigits] at h
        rw [(List.cons.inj h).1] at hdigit
        exact absurd hdigit (by decide)
  cases target with
  | none =>
      cases target' with
      | none => exact ⟨rfl, List.tail_eq_of_cons_eq h⟩
      | some target' => exact absurd h.symm (hne target' _ rest)
  | some target =>
      cases target' with
      | none => exact absurd h (hne target _ rest')
      | some target' =>
          rw [htext, htext] at h
          obtain ⟨rfl, hrest⟩ := toDigits_append_inj (stops_cons.mpr rfl) (stops_cons.mpr rfl) h
          exact ⟨rfl, List.tail_eq_of_cons_eq hrest⟩

/-- An instruction is read back up to the end of its line. -/
theorem body_append_inj {instruction instruction' : Instruction} {rest rest' : List Char}
    (hlegible : instruction.IsLegible) (hlegible' : instruction'.IsLegible)
    (h : instruction.body ++ '\n' :: rest = instruction'.body ++ '\n' :: rest') :
    instruction = instruction' ∧ rest = rest' := by
  cases instruction with
  | assign dest value =>
      cases instruction' with
      | assign dest' value' =>
          -- The assigned name ends at the colon, and the value at the end of the line.
          simp only [body, List.cons_append, List.append_assoc, List.cons.injEq, true_and] at h
          obtain ⟨hdest, hbehind⟩ := operand_append_inj hlegible.1 hlegible'.1
            (stops_cons.mpr rfl) (stops_cons.mpr rfl) h
          simp only [List.cons.injEq, true_and] at hbehind
          obtain ⟨hvalue, hrest⟩ := Rvalue.text_append_inj hlegible.2 hlegible'.2 hbehind
          exact ⟨by rw [hdest, hvalue], hrest⟩
      | branch lhs' op' rhs' target' => simp [body] at h
      | jump target' => simp [body] at h
  -- Of two kinds of instructions the lines differ in a fixed part: the tabulator, or what
  -- follows the four blanks.
  | branch lhs op rhs target =>
      cases instruction' with
      | assign dest' value' => simp [body] at h
      | branch lhs' op' rhs' target' =>
          -- The relation stands between blanks, which it has none of itself.
          have hsymbol : ∀ (op : RelOp), ∀ c ∈ op.symbol.toList, (c != ' ') = true :=
            fun op => List.all_eq_true.mp (by cases op <;> rfl)
          simp only [body, List.cons_append, List.nil_append, List.append_assoc, List.cons.injEq,
            true_and] at h
          obtain ⟨hlhs, hbehind⟩ := operand_append_inj hlegible.1 hlegible'.1
            (stops_cons.mpr rfl) (stops_cons.mpr rfl) h
          obtain ⟨hop, hbehind⟩ := append_inj_of_stops (hsymbol op) (hsymbol op')
            (stops_cons.mpr rfl) (stops_cons.mpr rfl) (List.tail_eq_of_cons_eq hbehind)
          obtain ⟨hrhs, hbehind⟩ := operand_append_inj hlegible.2 hlegible'.2
            (stops_cons.mpr rfl) (stops_cons.mpr rfl) (List.tail_eq_of_cons_eq hbehind)
          simp only [List.cons.injEq, true_and] at hbehind
          obtain ⟨htarget, hrest⟩ := targetText_append_inj hbehind
          have hop' : op = op' := RelOp.symbol_inj.mp (String.toList_inj.mp hop)
          exact ⟨by rw [hlhs, hop', hrhs, htarget], hrest⟩
      | jump target' => simp [body] at h
  | jump target =>
      cases instruction' with
      | assign dest' value' => simp [body] at h
      | branch lhs' op' rhs' target' => simp [body] at h
      | jump target' =>
          simp only [body, List.cons_append, List.nil_append, List.cons.injEq, true_and] at h
          obtain ⟨htarget, hrest⟩ := targetText_append_inj h
          exact ⟨by rw [htarget], hrest⟩

/-- **A line is read back**, with its address, whatever follows it. -/
theorem render_append_inj {address address' : Nat} {instruction instruction' : Instruction}
    {rest rest' : List Char} (hlegible : instruction.IsLegible)
    (hlegible' : instruction'.IsLegible)
    (h : (instruction.render address).toList ++ '\n' :: rest
      = (instruction'.render address').toList ++ '\n' :: rest') :
    address = address' ∧ instruction = instruction' ∧ rest = rest' := by
  rw [toList_render, toList_render, List.append_assoc, List.append_assoc] at h
  obtain ⟨haddress, hbehind⟩ := toDigits_append_inj (stops_cons.mpr rfl) (stops_cons.mpr rfl) h
  exact ⟨haddress, body_append_inj hlegible hlegible' (List.tail_eq_of_cons_eq hbehind)⟩

end Instruction

/-! ### Listings -/

/-- The text of a listing as the texts of its lines. -/
theorem Store.toList_render (store : Store) :
    store.render.toList
      = store.entries.flatMap fun entry => (entry.2.render entry.1).toList ++ ['\n'] := by
  unfold render listing
  rw [String.toList_join, List.flatMap_map, List.flatMap_map]
  simp

/-- **A listing is read back**, line by line. -/
theorem entries_inj {entries entries' : List (Nat × Instruction)}
    (hlegible : ∀ entry ∈ entries, entry.2.IsLegible)
    (hlegible' : ∀ entry ∈ entries', entry.2.IsLegible)
    (h : (entries.flatMap fun entry => (entry.2.render entry.1).toList ++ ['\n'])
      = entries'.flatMap fun entry => (entry.2.render entry.1).toList ++ ['\n']) :
    entries = entries' := by
  induction entries generalizing entries' with
  | nil =>
      cases entries' with
      | nil => rfl
      | cons entry' entries' => simp at h
  | cons entry entries ih =>
      cases entries' with
      | nil => simp at h
      | cons entry' entries' =>
          -- The first lines are equal and so is what follows them, because a line ends at its
          -- line feed.
          rw [List.forall_mem_cons] at hlegible hlegible'
          simp only [List.flatMap_cons, List.append_assoc, List.singleton_append] at h
          obtain ⟨haddress, hinstruction, hrest⟩ :=
            Instruction.render_append_inj hlegible.1 hlegible'.1 h
          rw [Prod.ext haddress hinstruction, ih hlegible.2 hlegible'.2 hrest]

/-! ### The code of trees is legible -/

/-- The value of an expression is held in an operand if its names are operands. -/
theorem Expr.isOperand_operand {e : Expr} (h : ∀ x ∈ e.names, IsOperand x) (next : Nat) :
    IsOperand (e.operand next) := by
  cases e with
  | name text => exact h text List.mem_cons_self
  | number digits => exact isOperand_literalText digits
  | missing => exact isOperand_missing
  | neg operand => exact isOperand_name _
  | binary op lhs rhs => exact isOperand_name _

/-- The code of an expression is legible if its names are operands. The induction is on the tree.
-/
theorem Expr.isLegible_of_mem_code {e : Expr} (h : ∀ x ∈ e.names, IsOperand x) {next : Nat}
    {instruction : Instruction} (hmem : instruction ∈ e.code next) : instruction.IsLegible := by
  induction e generalizing next with
  | name text => exact nomatch hmem
  | number digits => exact nomatch hmem
  | missing => exact nomatch hmem
  | neg operand ih =>
      rw [code, List.mem_append, List.mem_singleton] at hmem
      rcases hmem with hmem | rfl
      · exact ih h hmem
      · exact ⟨isOperand_name _, operand.isOperand_operand h next⟩
  | binary op lhs rhs ihl ihr =>
      rw [names, List.forall_mem_append] at h
      rw [code, List.mem_append, List.mem_append, List.mem_singleton] at hmem
      rcases hmem with (hmem | hmem) | rfl
      · exact ihl h.1 hmem
      · exact ihr h.2 hmem
      · exact ⟨isOperand_name _, lhs.isOperand_operand h.1 _, rhs.isOperand_operand h.2 _⟩

/-- The code of a condition is that of its sides and the two jumps. -/
theorem Condition.isLegible_of_mem_code {c : Condition} (h : ∀ x ∈ c.names, IsOperand x)
    {base next exit : Nat} {instruction : Instruction}
    (hmem : instruction ∈ c.code base next exit) : instruction.IsLegible := by
  rw [names, List.forall_mem_append] at h
  simp only [code, operandCode, List.mem_append, List.mem_cons, List.not_mem_nil, or_false] at hmem
  rcases hmem with (hmem | hmem) | rfl | rfl
  · exact Expr.isLegible_of_mem_code h.1 hmem
  · exact Expr.isLegible_of_mem_code h.2 hmem
  · exact ⟨c.lhs.isOperand_operand h.1 _, c.rhs.isOperand_operand h.2 _⟩
  · trivial

/-- **The code of a statement is legible** if its names are operands. -/
theorem Stmt.isLegible_of_mem_code {t : Stmt} (h : ∀ x ∈ t.names, IsOperand x) {base next : Nat}
    {instruction : Instruction} (hmem : instruction ∈ t.code base next) :
    instruction.IsLegible := by
  induction t generalizing base next with
  | skip => exact nomatch hmem
  | assign name value =>
      rw [names, List.forall_mem_cons] at h
      rw [code, List.mem_append, List.mem_singleton] at hmem
      rcases hmem with hmem | rfl
      · exact Expr.isLegible_of_mem_code h.2 hmem
      · exact ⟨h.1, value.isOperand_operand h.2 next⟩
  | seq first second ihf ihs =>
      rw [names, List.forall_mem_append] at h
      rw [code, List.mem_append] at hmem
      rcases hmem with hmem | hmem
      · exact ihf h.1 hmem
      · exact ihs h.2 hmem
  | choice test body ih =>
      rw [names, List.forall_mem_append] at h
      rw [code, List.mem_append] at hmem
      rcases hmem with hmem | hmem
      · exact Condition.isLegible_of_mem_code h.1 hmem
      · exact ih h.2 hmem
  | loop test body ih =>
      rw [names, List.forall_mem_append] at h
      rw [code, List.mem_append, List.mem_append, List.mem_singleton] at hmem
      rcases hmem with (hmem | hmem) | rfl
      · exact Condition.isLegible_of_mem_code h.1 hmem
      · exact ih h.2 hmem
      · trivial

/-- All that a compilation emits is legible. The source may have errors. -/
theorem isLegible_of_compile {options : Options} {source : String} {compilation : Compilation}
    (hok : compile options source = .ok compilation) :
    ∀ entry ∈ compilation.code.entries, entry.2.IsLegible := by
  -- A name of the tree is written in the source, or it stands for an operand that is missing.
  obtain ⟨t, hknown, hcode⟩ := exists_tree_of_compile hok
  have hnames : ∀ x ∈ t.names, IsOperand x := by
    intro x hx
    rcases hknown x hx with hident | rfl
    · exact isOperand_of_ident_mem_scan hident
    · exact isOperand_missing
  intro entry hentry
  have hmem := Array.mem_toList_iff.mpr (Store.mem_of_mem_entries hentry)
  rw [hcode, Generate.toList_code_append] at hmem
  exact Stmt.isLegible_of_mem_code hnames hmem

/-- **The listing loses nothing.** If the listings of two compilations are the same text, the
same instructions stand at the same addresses. The sources may have errors, and the options
may differ. -/
theorem compile_entries_of_render {options options' : Options} {source source' : String}
    {compilation compilation' : Compilation} (hok : compile options source = .ok compilation)
    (hok' : compile options' source' = .ok compilation')
    (h : compilation.code.render = compilation'.code.render) :
    compilation.code.entries = compilation'.code.entries := by
  have htext := congrArg String.toList h
  rw [Store.toList_render, Store.toList_render] at htext
  exact entries_inj (isLegible_of_compile hok) (isLegible_of_compile hok') htext

/-- A program, and a text that misses its name, a semicolon, a `THEN` and a parenthesis,
compiled with another limit for digits. Their listings are the same text. -/
theorem compile_entries_of_render_malformed :
    ∃ compilation compilation',
      compile {} "PROGRAM p CONST c := 07; VAR x; IF x > c THEN x := -c * (x + 1)"
        = .ok compilation ∧
      compile { maxDigits := 1 } "PROGRAM CONST c := 7 IF x > c x := -c * (x + 1"
        = .ok compilation' ∧
      compilation.code.render = compilation'.code.render ∧
      compilation.code.entries = compilation'.code.entries := by
  obtain ⟨compilation, hok⟩ := exists_compilation (show (compile {}
    "PROGRAM p CONST c := 07; VAR x; IF x > c THEN x := -c * (x + 1)").isOk = true by
      decide +kernel)
  obtain ⟨compilation', hok'⟩ := exists_compilation (show (compile { maxDigits := 1 }
    "PROGRAM CONST c := 7 IF x > c x := -c * (x + 1").isOk = true by decide +kernel)
  have hrender : (compile {}
        "PROGRAM p CONST c := 07; VAR x; IF x > c THEN x := -c * (x + 1)").toOption.map
          (·.code.render)
      = (compile { maxDigits := 1 }
        "PROGRAM CONST c := 7 IF x > c x := -c * (x + 1").toOption.map (·.code.render) := by
    decide +kernel
  rw [hok, hok'] at hrender
  have htext : compilation.code.render = compilation'.code.render := Option.some.inj hrender
  exact ⟨compilation, compilation', hok, hok', htext, compile_entries_of_render hok hok' htext⟩

end ThreeAddress
