import Mathlib.Data.List.Induction
import ThreeAddress.Proofs.Printing

/-!
# The scanner cuts a source into longest lexemes

A source counts up to its first `#`. This part is blanks and lexemes in turn, where each
lexeme is the longest that stands at its place. There is one way to cut it so, and the scanner
finds it: it delivers the lexemes one by one, each with its line, and then the end of input
however often it is asked.

* `IsLexemeText` are the texts that a lexeme may have, and `Denotes` says which lexeme a text
  is. Neither mentions the scanner.
* `Partition.IsMunch` says that a text is cut into longest lexemes, and
  `Partition.IsMunch.unique` that there is no other way to do it.
* `munched` is about one lexeme, and `exists_cut` about a whole text.
* `State.pulled` is the state after some tokens were asked for, and `scan_maximal_munch` says
  what stands next then and what was reported.
-/

set_option autoImplicit false

namespace ThreeAddress

/-! ### Lexemes as texts -/

/-- The texts of lexemes: words, digit runs, the pairs, and every single character that is no
blank. -/
inductive IsLexemeText : List Char → Prop where
  | word (c : Char) (cs : List Char) (hc : c.isAlpha = true)
      (hcs : ∀ d ∈ cs, d.isAlphanum = true) : IsLexemeText (c :: cs)
  | digits (c : Char) (cs : List Char) (hc : c.isDigit = true)
      (hcs : ∀ d ∈ cs, d.isDigit = true) : IsLexemeText (c :: cs)
  | pair (text : List Char) (h : text ∈ Terminal.pairs) : IsLexemeText text
  | single (c : Char) (hc : isBlank c = false) : IsLexemeText [c]

/-- In front of `rest` the text is the longest lexeme. -/
structure Longest (text rest : List Char) : Prop where
  isLexemeText : IsLexemeText text
  longest : ∀ other, other <+: text ++ rest → IsLexemeText other → other.length ≤ text.length

/-- What the text of a lexeme means. A word is reserved or a name, a digit run stands for its
value or for the largest signed word, and a character that is nothing else is unknown. -/
inductive Denotes : List Char → Terminal → Prop where
  | keyword (word : Keyword) : Denotes word.text.toList (.keyword word)
  | ident (c : Char) (cs : List Char) (hc : c.isAlpha = true)
      (hcs : ∀ d ∈ cs, d.isAlphanum = true)
      (hfree : ∀ word : Keyword, word.text.toList ≠ c :: cs) :
      Denotes (c :: cs) (.ident (String.ofList (c :: cs)))
  | number (c : Char) (cs : List Char) (hc : c.isDigit = true)
      (hcs : ∀ d ∈ cs, d.isDigit = true) :
      Denotes (c :: cs) (.number (min (Decimal.value (c :: cs)) 9223372036854775807))
  | arith (op : ArithOp) : Denotes op.symbol.toList (.arith op)
  | relation (op : RelOp) : Denotes op.symbol.toList (.relation op)
  | punct (mark : Punctuation) : Denotes mark.text.toList (.punct mark)
  | unknown (c : Char) (hc : c.isAlphanum = false)
      (harith : ∀ op : ArithOp, op.symbol.toList ≠ [c])
      (hrelation : ∀ op : RelOp, op.symbol.toList ≠ [c])
      (hpunct : ∀ mark : Punctuation, mark.text.toList ≠ [c]) : Denotes [c] (.unknown c)

/-- No character of a lexeme is a blank, and only a lexeme of one character may be the mark
that ends a source. -/
theorem IsLexemeText.of_mem {text : List Char} (h : IsLexemeText text) {c : Char}
    (hc : c ∈ text) : isBlank c = false ∧ (c = '#' → text = ['#']) := by
  have halnum : ∀ d : Char, d.isAlphanum = true → isBlank d = false ∧ (d = '#' → text = ['#']) :=
    fun d hd => ⟨(Terminal.not_blank_of_isAlphanum hd).2,
      fun hhash => absurd hhash (Terminal.not_blank_of_isAlphanum hd).1⟩
  cases h with
  | word first rest hfirst hrest =>
      rcases List.mem_cons.mp hc with rfl | hmem
      · exact halnum _ (Bool.or_eq_true_iff.mpr (.inl hfirst))
      · exact halnum _ (hrest c hmem)
  | digits first rest hfirst hrest =>
      rcases List.mem_cons.mp hc with rfl | hmem
      · exact halnum _ (Bool.or_eq_true_iff.mpr (.inr hfirst))
      · exact halnum _ (Bool.or_eq_true_iff.mpr (.inr (hrest c hmem)))
  | pair _ hpair =>
      have hmarks : ∀ pair ∈ Terminal.pairs,
          (pair.all fun d => !isBlank d && decide (d ≠ '#')) = true := by decide
      have hmark := List.all_eq_true.mp (hmarks _ hpair) c hc
      rw [Bool.and_eq_true, Bool.not_eq_true', decide_eq_true_eq] at hmark
      obtain ⟨hblank, hhash⟩ := hmark
      exact ⟨hblank, fun heq => absurd heq hhash⟩
  | single only honly =>
      obtain rfl := List.mem_singleton.mp hc
      exact ⟨honly, fun heq => by rw [heq]⟩

/-- A lexeme has a first character. -/
theorem IsLexemeText.ne_nil {text : List Char} (h : IsLexemeText text) : text ≠ [] := by
  cases h with
  | word => exact List.cons_ne_nil _ _
  | digits => exact List.cons_ne_nil _ _
  | pair _ hpair =>
      rintro rfl
      exact absurd hpair (by decide)
  | single => exact List.cons_ne_nil _ _

/-! ### One lexeme -/

/-- Characters of `p` in front of a text are among those that are taken from it. -/
theorem length_le_takeWhile {p : Char → Bool} {ds cs : List Char} (hstarts : ds <+: cs)
    (hds : ∀ d ∈ ds, p d = true) : ds.length ≤ (cs.takeWhile p).length := by
  obtain ⟨rest, rfl⟩ := hstarts
  rw [List.takeWhile_append_of_pos hds, List.length_append]
  exact Nat.le_add_right _ _

/-- A lexeme that starts a text starts with its first character. -/
theorem exists_tail_of_prefix {other cs : List Char} {c : Char} (h : IsLexemeText other)
    (hstarts : other <+: c :: cs) : ∃ ds, other = c :: ds ∧ ds <+: cs := by
  cases other with
  | nil => exact absurd rfl h.ne_nil
  | cons d ds =>
      obtain ⟨rfl, htail⟩ := List.cons_prefix_cons.mp hstarts
      exact ⟨ds, rfl, htail⟩

/-- A lexeme that starts with neither a letter nor a digit is a pair or a single character. -/
theorem IsLexemeText.of_symbol {c : Char} {ds : List Char} (h : IsLexemeText (c :: ds))
    (hc : c.isAlphanum = false) : c :: ds ∈ Terminal.pairs ∨ ds = [] := by
  obtain ⟨halpha, hdigit⟩ := Bool.or_eq_false_iff.mp hc
  cases h with
  | word _ _ hfirst => exact absurd hfirst (ne_true_of_eq_false halpha)
  | digits _ _ hfirst => exact absurd hfirst (ne_true_of_eq_false hdigit)
  | pair _ hpair => exact .inl hpair
  | single => exact .inr rfl

/-- No pair starts with a letter or a digit. -/
theorem isAlphanum_of_pair {c : Char} {ds : List Char} (h : c :: ds ∈ Terminal.pairs) :
    c.isAlphanum = false ∧ ds.length = 1 := by
  have hpairs : ∀ pair ∈ Terminal.pairs,
      (pair.head?.all fun d => !d.isAlphanum) = true ∧ pair.length = 2 := by decide
  obtain ⟨hfirst, hlength⟩ := hpairs _ h
  rw [List.head?_cons, Option.all_some, Bool.not_eq_true'] at hfirst
  exact ⟨hfirst, Nat.succ.inj hlength⟩

/-- The text of a lexeme that was read, what it means, and that it is the longest. -/
structure Munched (chars : List Char) (lexeme : Lexeme) (rest : List Char) : Prop where
  split : chars = lexeme.text.toList ++ rest
  denotes : Denotes lexeme.text.toList lexeme.terminal
  longest : Longest lexeme.text.toList rest

/-- A word is written as it is read. -/
theorem text_ofWord (word : List Char) : (Lexeme.ofWord word).text.toList = word := by
  unfold Lexeme.ofWord
  split
  · next reserved hreserved =>
    unfold Keyword.ofText? at hreserved
    have htext := List.find?_some hreserved
    rw [decide_eq_true_eq] at htext
    show reserved.text.toList = word
    rw [htext, String.toList_ofList]
  · exact String.toList_ofList

/-- A word is reserved or a name. -/
theorem denotes_ofWord {c : Char} {cs : List Char} (hc : c.isAlpha = true)
    (hcs : ∀ d ∈ cs, d.isAlphanum = true) :
    Denotes (c :: cs) (Lexeme.ofWord (c :: cs)).terminal := by
  cases hword : Keyword.ofText? (String.ofList (c :: cs)) with
  | some reserved =>
      have htext := text_ofWord (c :: cs)
      unfold Lexeme.ofWord at htext ⊢
      simp only [hword] at htext ⊢
      rw [← htext]
      exact .keyword reserved
  | none =>
      unfold Lexeme.ofWord
      simp only [hword]
      refine .ident c cs hc hcs fun word htext => ?_
      unfold Keyword.ofText? at hword
      refine List.find?_eq_none.mp hword word (by cases word <;> decide) ?_
      rw [decide_eq_true_eq, ← htext, String.ofList_toList]

/-- A word is read as a whole. -/
theorem munched_word {c : Char} (hc : c.isAlpha = true) (cs : List Char) :
    Munched (c :: cs) (Lexeme.ofWord (c :: cs.takeWhile Char.isAlphanum))
      (cs.dropWhile Char.isAlphanum) := by
  have htaken : ∀ d ∈ cs.takeWhile Char.isAlphanum, d.isAlphanum = true :=
    List.all_eq_true.mp List.all_takeWhile
  refine ⟨?_, ?_, ?_⟩
  · rw [text_ofWord, List.cons_append, List.takeWhile_append_dropWhile]
  · rw [text_ofWord]
    exact denotes_ofWord hc htaken
  · rw [text_ofWord]
    refine ⟨.word c _ hc htaken, fun other hstarts hother => ?_⟩
    rw [List.cons_append, List.takeWhile_append_dropWhile] at hstarts
    obtain ⟨ds, rfl, hds⟩ := exists_tail_of_prefix hother hstarts
    -- What starts with a letter is a word, and the characters of a word were all taken.
    refine Nat.succ_le_succ (length_le_takeWhile hds ?_)
    cases hother with
    | word _ _ _ hall => exact hall
    | digits _ _ hdigit =>
        rw [isDigit_eq_false_of_isAlpha hc] at hdigit
        exact nomatch hdigit
    | pair _ hpair =>
        have hnot := (isAlphanum_of_pair hpair).1
        rw [Char.isAlphanum, hc] at hnot
        exact nomatch hnot
    | single => exact fun _ hmem => absurd hmem List.not_mem_nil

/-- A digit run is read as a whole. -/
theorem munched_digits {c : Char} (hc : c.isDigit = true) (cs : List Char) :
    Munched (c :: cs) (.number (String.ofList (c :: cs.takeWhile Char.isDigit)))
      (cs.dropWhile Char.isDigit) := by
  have htaken : ∀ d ∈ cs.takeWhile Char.isDigit, d.isDigit = true :=
    List.all_eq_true.mp List.all_takeWhile
  have htext : (Lexeme.number (String.ofList (c :: cs.takeWhile Char.isDigit))).text.toList
      = c :: cs.takeWhile Char.isDigit := String.toList_ofList
  refine ⟨?_, ?_, ?_⟩
  · rw [htext, List.cons_append, List.takeWhile_append_dropWhile]
  · rw [htext]
    show Denotes _ (.number (Decimal.literal (String.ofList _).toList))
    rw [String.toList_ofList, Decimal.literal_eq_min]
    exact .number c _ hc htaken
  · rw [htext]
    refine ⟨.digits c _ hc htaken, fun other hstarts hother => ?_⟩
    rw [List.cons_append, List.takeWhile_append_dropWhile] at hstarts
    obtain ⟨ds, rfl, hds⟩ := exists_tail_of_prefix hother hstarts
    refine Nat.succ_le_succ (length_le_takeWhile hds ?_)
    cases hother with
    | word _ _ halpha =>
        rw [isDigit_eq_false_of_isAlpha halpha] at hc
        exact nomatch hc
    | digits _ _ _ hall => exact hall
    | pair _ hpair =>
        have hnot := (isAlphanum_of_pair hpair).1
        rw [Char.isAlphanum, hc, Bool.or_true] at hnot
        exact nomatch hnot
    | single => exact fun _ hmem => absurd hmem List.not_mem_nil

/-- A character alone is an operator or a mark that is written so, or it is unknown. -/
theorem single_cases (c : Char) :
    (∃ op : ArithOp, op.symbol.toList = [c] ∧ Lexeme.single c = .arith op) ∨
    (∃ op : RelOp, op.symbol.toList = [c] ∧ Lexeme.single c = .relation op) ∨
    (∃ mark : Punctuation, mark.text.toList = [c] ∧ Lexeme.single c = .punct mark) ∨
    Lexeme.single c = .unknown c := by
  unfold Lexeme.single
  split
  · exact .inl ⟨.add, rfl, rfl⟩
  · exact .inl ⟨.sub, rfl, rfl⟩
  · exact .inl ⟨.mul, rfl, rfl⟩
  · exact .inl ⟨.div, rfl, rfl⟩
  · exact .inr (.inr (.inl ⟨.lparen, rfl, rfl⟩))
  · exact .inr (.inr (.inl ⟨.rparen, rfl, rfl⟩))
  · exact .inr (.inr (.inl ⟨.comma, rfl, rfl⟩))
  · exact .inr (.inr (.inl ⟨.semicolon, rfl, rfl⟩))
  · exact .inr (.inl ⟨.eq, rfl, rfl⟩)
  · exact .inr (.inl ⟨.lt, rfl, rfl⟩)
  · exact .inr (.inl ⟨.gt, rfl, rfl⟩)
  · exact .inr (.inr (.inr rfl))

/-- An operator or mark of one character is read from it. -/
theorem single_of_text (c : Char) :
    (∀ op : ArithOp, op.symbol.toList = [c] → Lexeme.single c = .arith op) ∧
    (∀ op : RelOp, op.symbol.toList = [c] → Lexeme.single c = .relation op) ∧
    ∀ mark : Punctuation, mark.text.toList = [c] → Lexeme.single c = .punct mark := by
  refine ⟨?_, ?_, ?_⟩
  · intro op htext
    cases op <;> cases htext <;> rfl
  · intro op htext
    cases op <;> cases htext <;> rfl
  · intro mark htext
    cases mark <;> cases htext <;> rfl

/-- A character alone means what it is read as. -/
theorem denotes_single {c : Char} (hc : c.isAlphanum = false) :
    (Lexeme.single c).text.toList = [c] ∧ Denotes [c] (Lexeme.single c).terminal := by
  rcases single_cases c with ⟨op, htext, hsingle⟩ | ⟨op, htext, hsingle⟩ |
    ⟨mark, htext, hsingle⟩ | hsingle
  · rw [hsingle]
    exact ⟨htext, htext ▸ .arith op⟩
  · rw [hsingle]
    exact ⟨htext, htext ▸ .relation op⟩
  · rw [hsingle]
    exact ⟨htext, htext ▸ .punct mark⟩
  · obtain ⟨harith, hrelation, hpunct⟩ := single_of_text c
    rw [hsingle] at harith hrelation hpunct ⊢
    exact ⟨String.toList_singleton c, .unknown c hc (fun op htext => nomatch harith op htext)
      (fun op htext => nomatch hrelation op htext) (fun mark htext => nomatch hpunct mark htext)⟩

/-- Two characters are read together if they are one of the pairs. -/
theorem denotes_pair {c d : Char} {lexeme : Lexeme} (h : Lexeme.pair? c d = some lexeme) :
    lexeme.text.toList = [c, d] ∧ Denotes [c, d] lexeme.terminal ∧ [c, d] ∈ Terminal.pairs := by
  unfold Lexeme.pair? at h
  split at h
  · obtain rfl := Option.some.inj h
    exact ⟨rfl, .punct .becomes, by decide⟩
  · obtain rfl := Option.some.inj h
    exact ⟨rfl, .relation .le, by decide⟩
  · obtain rfl := Option.some.inj h
    exact ⟨rfl, .relation .ne, by decide⟩
  · obtain rfl := Option.some.inj h
    exact ⟨rfl, .relation .ge, by decide⟩
  · exact nomatch h

/-- The pairs are read together. -/
theorem exists_pair {c d : Char} (h : [c, d] ∈ Terminal.pairs) :
    ∃ lexeme, Lexeme.pair? c d = some lexeme := by
  simp only [Terminal.pairs, List.mem_cons, List.cons.injEq, and_true, List.not_mem_nil,
    or_false] at h
  rcases h with ⟨rfl, rfl⟩ | ⟨rfl, rfl⟩ | ⟨rfl, rfl⟩ | ⟨rfl, rfl⟩ <;> exact ⟨_, rfl⟩

section
variable {c : Char} (hc : c.isAlphanum = false) (hblank : isBlank c = false)
include hc

/-- A pair is the longest lexeme of those that start with a symbol. -/
theorem longest_pair {d : Char} (h : [c, d] ∈ Terminal.pairs) (rest : List Char) :
    Longest [c, d] rest := by
  refine ⟨.pair _ h, fun other hstarts hother => ?_⟩
  obtain ⟨ds, rfl, -⟩ := exists_tail_of_prefix hother hstarts
  rcases hother.of_symbol hc with hpair | rfl
  · exact Nat.succ_le_succ (Nat.le_of_eq (isAlphanum_of_pair hpair).2)
  · exact Nat.succ_le_succ (Nat.zero_le _)

include hblank

/-- A symbol alone is the longest lexeme unless it is the first of a pair. -/
theorem longest_single {rest : List Char} (h : ∀ d ∈ rest.head?, Lexeme.pair? c d = none) :
    Longest [c] rest := by
  refine ⟨.single c hblank, fun other hstarts hother => ?_⟩
  rw [List.singleton_append] at hstarts
  obtain ⟨ds, rfl, hds⟩ := exists_tail_of_prefix hother hstarts
  -- A longer lexeme is a pair, but the next character does not make one.
  rcases hother.of_symbol hc with hpair | rfl
  · obtain ⟨d, rfl⟩ := List.length_eq_one_iff.mp (isAlphanum_of_pair hpair).2
    obtain ⟨more, hmore⟩ := hds
    obtain ⟨lexeme, hsome⟩ := exists_pair hpair
    rw [h d (by rw [← hmore]; rfl)] at hsome
    exact nomatch hsome
  · exact Nat.le_refl _

/-- A symbol is read with the next character if both are a pair, and alone otherwise. -/
theorem munched_symbol (cs : List Char) :
    Munched (c :: cs) (Lexeme.munchSymbol c cs).1 (Lexeme.munchSymbol c cs).2 := by
  obtain ⟨htext, hdenotes⟩ := denotes_single hc
  have halone (h : ∀ d ∈ cs.head?, Lexeme.pair? c d = none) :
      Munched (c :: cs) (Lexeme.single c) cs := by
    refine ⟨?_, ?_, ?_⟩
    · rw [htext, List.singleton_append]
    · rw [htext]
      exact hdenotes
    · rw [htext]
      exact longest_single hc hblank h
  unfold Lexeme.munchSymbol
  split
  · exact halone fun d hd => absurd hd (Option.not_mem_none d)
  · next d rest =>
    split
    · next lexeme hpair =>
      obtain ⟨htext, hdenotes, hmem⟩ := denotes_pair hpair
      refine ⟨?_, ?_, ?_⟩
      · rw [htext, List.cons_append, List.singleton_append]
      · rw [htext]
        exact hdenotes
      · rw [htext]
        exact longest_pair hc hmem rest
    · next hnone =>
      refine halone fun other hother => ?_
      rw [List.head?_cons, Option.mem_some_iff] at hother
      rw [← hother, hnone]

end

/-- **One lexeme.** What is read off a text is its longest lexeme, and it is understood as its
text says. -/
theorem munched {c : Char} (hblank : isBlank c = false) (cs : List Char) :
    Munched (c :: cs) (Lexeme.munch c cs).1 (Lexeme.munch c cs).2 := by
  unfold Lexeme.munch
  split
  · next halpha => exact munched_word halpha cs
  · next halpha =>
    split
    · next hdigit => exact munched_digits hdigit cs
    · next hdigit =>
      refine munched_symbol (Bool.or_eq_false_iff.mpr ⟨?_, ?_⟩) hblank cs
      · exact eq_false_of_ne_true halpha
      · exact eq_false_of_ne_true hdigit

/-! ### Partitions -/

/-- Blanks, and the text of the lexeme behind them. -/
structure Segment where
  blanks : List Char
  text : List Char
deriving DecidableEq, Repr

/-- The characters of a segment. -/
def Segment.chars (segment : Segment) : List Char := segment.blanks ++ segment.text

/-- A text cut into blanks and lexemes in turn, with the blanks behind the last lexeme. -/
structure Partition where
  segments : List Segment
  blanks : List Char
deriving DecidableEq, Repr

namespace Partition

/-- The text that is cut. -/
def chars (p : Partition) : List Char := p.segments.flatMap Segment.chars ++ p.blanks

/-- The text is cut so that each lexeme is the longest at its place. -/
structure IsMunch (p : Partition) (text : List Char) : Prop where
  chars : p.chars = text
  blanks : ∀ c ∈ p.blanks, isBlank c = true
  gaps : ∀ segment ∈ p.segments, ∀ c ∈ segment.blanks, isBlank c = true
  longest : ∀ before segment after, p.segments = before ++ segment :: after →
    Longest segment.text (Partition.mk after p.blanks).chars

/-- The texts of the lexemes with their lines, where the text starts on `line`. Every line feed
in front of a lexeme, wherever it stands, moves the lexeme down by one. -/
def placed (line : Nat) (p : Partition) : List (List Char × Nat) :=
  p.segments.zipIdx.map fun entry =>
    (entry.1.text,
      line + ((p.segments.take entry.2).flatMap Segment.chars ++ entry.1.blanks).count '\n')

variable {segment : Segment} {segments : List Segment} {blanks rest text : List Char}

/-- The text of a partition starts with its first segment. -/
theorem chars_cons : (Partition.mk (segment :: segments) blanks).chars
    = segment.blanks ++ (segment.text ++ (Partition.mk segments blanks).chars) := by
  simp only [chars, Segment.chars, List.flatMap_cons, List.append_assoc]

/-- The lexemes behind the first are placed as in the text behind it. -/
theorem placed_cons (line : Nat) :
    placed line ⟨segment :: segments, blanks⟩
      = (segment.text, line + segment.blanks.count '\n')
        :: placed (line + segment.chars.count '\n') ⟨segments, blanks⟩ := by
  unfold placed
  rw [List.zipIdx_cons, List.map_cons, List.take_zero, List.flatMap_nil, List.nil_append,
    Nat.zero_add, List.zipIdx_succ, List.map_map]
  refine congrArg (_ :: ·) (List.map_congr_left fun entry _ => ?_)
  show (entry.1.text, _) = (entry.1.text, _)
  rw [List.take_succ_cons, List.flatMap_cons, List.append_assoc, List.count_append, Nat.add_assoc]

namespace IsMunch

/-- A longest lexeme in front of a text that is cut. -/
theorem cons (hgap : ∀ c ∈ segment.blanks, isBlank c = true) (hlongest : Longest segment.text rest)
    (h : IsMunch ⟨segments, blanks⟩ rest) :
    IsMunch ⟨segment :: segments, blanks⟩ (segment.blanks ++ (segment.text ++ rest)) where
  chars := by
    rw [chars_cons, h.chars]
  blanks := h.blanks
  gaps := List.forall_mem_cons.mpr ⟨hgap, h.gaps⟩
  longest before next after hsplit := by
    cases before with
    | nil =>
        obtain ⟨rfl, rfl⟩ := List.cons.inj hsplit
        rw [h.chars]
        exact hlongest
    | cons first before => exact h.longest before next after (List.cons.inj hsplit).2

/-- What stands behind the first lexeme of a text that is cut. -/
theorem of_cons (h : IsMunch ⟨segment :: segments, blanks⟩ text) :
    ∃ rest, text = segment.blanks ++ (segment.text ++ rest) ∧ Longest segment.text rest ∧
      IsMunch ⟨segments, blanks⟩ rest := by
  refine ⟨_, chars_cons ▸ h.chars.symm, h.longest [] segment segments rfl, rfl, h.blanks,
    (List.forall_mem_cons.mp h.gaps).2, fun before next after hsplit => ?_⟩
  exact h.longest (segment :: before) next after (congrArg (segment :: ·) hsplit)

end IsMunch

end Partition

/-- No blank stands in front of a lexeme. -/
theorem Longest.stops {text rest : List Char} (h : Longest text rest) :
    Stops isBlank (text ++ rest) := by
  obtain ⟨c, cs, rfl⟩ := List.exists_cons_of_ne_nil h.isLexemeText.ne_nil
  exact stops_cons.mpr (h.isLexemeText.of_mem List.mem_cons_self).1

/-- A text starts with one longest lexeme. -/
theorem Longest.inj {text text' rest rest' : List Char} (h : Longest text rest)
    (h' : Longest text' rest') (heq : text ++ rest = text' ++ rest') :
    text = text' ∧ rest = rest' := by
  have hle : text.length ≤ text'.length :=
    h'.longest text (heq ▸ List.prefix_append text rest) h.isLexemeText
  have hge : text'.length ≤ text.length :=
    h.longest text' (heq.symm ▸ List.prefix_append text' rest') h'.isLexemeText
  exact List.append_inj heq (Nat.le_antisymm hle hge)

namespace Partition

/-- A text in front of which a lexeme stands is not made of blanks. -/
theorem IsMunch.not_blank {segment : Segment} {segments : List Segment} {blanks text : List Char}
    (h : IsMunch ⟨segment :: segments, blanks⟩ text) : ∃ c ∈ text, isBlank c = false := by
  obtain ⟨rest, rfl, hlongest, -⟩ := h.of_cons
  obtain ⟨c, cs, hcons⟩ := List.exists_cons_of_ne_nil hlongest.isLexemeText.ne_nil
  have hc : c ∈ segment.text := by rw [hcons]; exact List.mem_cons_self
  exact ⟨c, List.mem_append_right _ (List.mem_append_left _ hc),
    (hlongest.isLexemeText.of_mem hc).1⟩

/-- **There is one way to cut a text into longest lexemes.** -/
theorem IsMunch.unique {p q : Partition} {text : List Char} (hp : p.IsMunch text)
    (hq : q.IsMunch text) : p = q := by
  obtain ⟨segments, blanks⟩ := p
  obtain ⟨segments', blanks'⟩ := q
  induction segments generalizing segments' text with
  | nil =>
      have htext : text = blanks := hp.chars.symm
      cases segments' with
      | nil =>
          have htext' : text = blanks' := hq.chars.symm
          rw [← htext, ← htext']
      | cons segment' segments' =>
          obtain ⟨c, hc, hblank⟩ := hq.not_blank
          rw [htext] at hc
          exact absurd (hp.blanks c hc) (ne_true_of_eq_false hblank)
  | cons segment segments ih =>
      cases segments' with
      | nil =>
          have htext' : text = blanks' := hq.chars.symm
          obtain ⟨c, hc, hblank⟩ := hp.not_blank
          rw [htext'] at hc
          exact absurd (hq.blanks c hc) (ne_true_of_eq_false hblank)
      | cons segment' segments' =>
          obtain ⟨gap, lexeme⟩ := segment
          obtain ⟨gap', lexeme'⟩ := segment'
          have hgap := hp.gaps _ List.mem_cons_self
          have hgap' := hq.gaps _ List.mem_cons_self
          obtain ⟨rest, rfl, hlongest, hrest⟩ := hp.of_cons
          obtain ⟨rest', htext, hlongest', hrest'⟩ := hq.of_cons
          -- The blanks end where the lexeme starts, and the lexeme ends where it is longest.
          obtain ⟨rfl, hbehind⟩ :=
            append_inj_of_stops hgap hgap' hlongest.stops hlongest'.stops htext
          obtain ⟨rfl, rfl⟩ := hlongest.inj hlongest' hbehind
          obtain ⟨rfl, rfl⟩ := Partition.mk.inj (ih hrest segments' hrest')
          rfl

end Partition

/-! ### The whole source -/

/-- The part of a text that counts: what stands in front of the first `#`. -/
def sourcePart (text : List Char) : List Char := text.takeWhile (· ≠ '#')

/-- A front without `#` belongs to the source. -/
theorem sourcePart_append {front : List Char} (h : '#' ∉ front) (rest : List Char) :
    sourcePart (front ++ rest) = front ++ sourcePart rest := by
  refine List.takeWhile_append_of_pos fun c hc => ?_
  rw [decide_eq_true_eq]
  rintro rfl
  exact h hc

/-- What is the longest lexeme in front of a text is so in front of the part that counts. -/
theorem Longest.of_sourcePart {text rest : List Char} (h : Longest text rest) :
    Longest text (sourcePart rest) := by
  -- A rival in front of the part is one in front of the whole text.
  refine ⟨h.isLexemeText, fun other hstarts => h.longest other (hstarts.trans ?_)⟩
  exact (List.prefix_append_right_inj text).mpr (List.takeWhile_prefix _)

/-- The tokens `stream` of a text that starts on `line`, seen as a partition of it. -/
structure Cut (line : Nat) (text : List Char) (stream : TokenStream) (p : Partition) : Prop where
  isMunch : p.IsMunch (sourcePart text)
  placed : stream.tokens.map (fun token => (token.lexeme.text.toList, token.line)) = p.placed line
  denotes : ∀ token ∈ stream.tokens, Denotes token.lexeme.text.toList token.lexeme.terminal
  endLine : stream.endLine = line + (sourcePart text).count '\n'

/-- A lexeme is not broken by the end of a line, and it ends a source only if it is `#`. -/
theorem IsLexemeText.not_mem {text : List Char} (h : IsLexemeText text) (hhash : text ≠ ['#']) :
    '#' ∉ text ∧ text.count '\n' = 0 := by
  constructor
  · exact fun hmem => hhash ((h.of_mem hmem).2 rfl)
  · rw [List.count_eq_zero]
    exact fun hmem => absurd (h.of_mem hmem).1 (by decide)

/-- Blanks up to the end of what counts. -/
theorem cut_blanks {blanks rest : List Char} (hblanks : ∀ c ∈ blanks, isBlank c = true)
    (hrest : sourcePart rest = []) (line : Nat) :
    Cut line (blanks ++ rest) ⟨[], line + blanks.count '\n'⟩ ⟨[], blanks⟩ := by
  have hhash : '#' ∉ blanks := fun hmem => absurd (hblanks _ hmem) (by decide)
  have hpart : sourcePart (blanks ++ rest) = blanks := by
    rw [sourcePart_append hhash, hrest, List.append_nil]
  constructor
  case isMunch =>
    rw [hpart]
    exact ⟨rfl, hblanks, List.forall_mem_nil _, fun before _ _ hsplit => by simp at hsplit⟩
  case placed => rfl
  case denotes => exact List.forall_mem_nil _
  case endLine => rw [hpart]

/-- Blanks and a lexeme in front of a text that is cut. -/
theorem Cut.cons {blanks chars rest : List Char} {lexeme : Lexeme} {line : Nat}
    {stream : TokenStream} {p : Partition} (hblanks : ∀ c ∈ blanks, isBlank c = true)
    (hmunched : Munched chars lexeme rest) (hchars : chars.head? ≠ some '#')
    (h : Cut (line + blanks.count '\n') rest stream p) :
    Cut line (blanks ++ chars) (stream.cons ⟨lexeme, line + blanks.count '\n'⟩)
      ⟨⟨blanks, lexeme.text.toList⟩ :: p.segments, p.blanks⟩ := by
  obtain ⟨rfl, hdenotes, hlongest⟩ := hmunched
  have hhash : '#' ∉ blanks := fun hmem => absurd (hblanks _ hmem) (by decide)
  obtain ⟨hnot, hfeeds⟩ := hlongest.isLexemeText.not_mem (by
    intro htext
    rw [htext] at hchars
    exact hchars rfl)
  -- Neither the blanks nor the lexeme end the source.
  have hpart : sourcePart (blanks ++ (lexeme.text.toList ++ rest))
      = blanks ++ (lexeme.text.toList ++ sourcePart rest) := by
    rw [sourcePart_append hhash, sourcePart_append hnot]
  constructor
  case isMunch =>
    rw [hpart]
    exact .cons hblanks hlongest.of_sourcePart h.isMunch
  case placed =>
    -- The lexeme has no line feed, so the text behind it starts on the line of the lexeme.
    have hcount : (Segment.mk blanks lexeme.text.toList).chars.count '\n' = blanks.count '\n' := by
      rw [Segment.chars, List.count_append, hfeeds, Nat.add_zero]
    rw [Partition.placed_cons, hcount]
    exact congrArg (_ :: ·) h.placed
  case denotes => exact List.forall_mem_cons.mpr ⟨hdenotes, h.denotes⟩
  case endLine =>
    rw [hpart, List.count_append, List.count_append, hfeeds, Nat.zero_add, ← Nat.add_assoc]
    exact h.endLine

/-- **The tokens of a text are its longest lexemes.** The induction is on the length of the
text: the blanks in front are skipped, and then one lexeme is read. -/
theorem exists_cut (line : Nat) (text : List Char) : ∃ p, Cut line text (scanFrom line text) p := by
  induction hlength : text.length using Nat.strongRecOn generalizing line text with
  | ind length ih =>
    have hblanks : ∀ c ∈ text.takeWhile isBlank, isBlank c = true :=
      List.all_eq_true.mp List.all_takeWhile
    have hsplit : text.takeWhile isBlank ++ text.dropWhile isBlank = text :=
      List.takeWhile_append_dropWhile
    rw [← hsplit, scanFrom_blanks List.all_takeWhile]
    cases hrest : text.dropWhile isBlank with
    | nil =>
        rw [scanFrom]
        exact ⟨_, cut_blanks hblanks rfl line⟩
    | cons c cs =>
        have hc : isBlank c = false := by
          have hfirst := List.head?_dropWhile_not isBlank text
          rw [hrest] at hfirst
          simpa using hfirst
        rw [scanFrom]
        -- The end mark is not read as a lexeme, although it has the form of one.
        by_cases hhash : c = '#'
        · subst hhash
          exact ⟨_, cut_blanks hblanks rfl line⟩
        · rw [if_neg hhash, if_neg (ne_true_of_eq_false hc)]
          have hshort : (Lexeme.munch c cs).2.length < length := by
            have hlt := Lexeme.length_munch_lt c cs
            rw [← hsplit, hrest, List.length_append] at hlength
            omega
          obtain ⟨p, hp⟩ := ih _ hshort (line + (text.takeWhile isBlank).count '\n') _ rfl
          refine ⟨_, Cut.cons hblanks (munched hc cs) ?_ hp⟩
          rw [List.head?_cons, Ne, Option.some.injEq]
          exact hhash

/-! ### One token after the other -/

/-- The report that a lexeme at a line deserves: a run of more than `max` digits is too long. -/
def tooLong? (max : Nat) (entry : List Char × Nat) : Option Diagnostic :=
  if entry.1.all Char.isDigit && max < entry.1.length then
    some ⟨entry.2, .numberTooLong (String.ofList entry.1) max⟩
  else none

/-- Digit runs are the numbers. -/
theorem Denotes.all_isDigit {text : List Char} {t : Terminal} (h : Denotes text t) :
    text.all Char.isDigit = true ↔ ∃ value, t = .number value := by
  cases h with
  | keyword word => cases word <;> exact iff_of_false (by decide) (fun ⟨_, h⟩ => nomatch h)
  | ident c cs hc =>
      refine iff_of_false ?_ (fun ⟨_, h⟩ => nomatch h)
      rw [List.all_cons, isDigit_eq_false_of_isAlpha hc]
      exact Bool.false_ne_true
  | number c cs hc hcs =>
      exact iff_of_true (List.all_eq_true.mpr (List.forall_mem_cons.mpr ⟨hc, hcs⟩)) ⟨_, rfl⟩
  | arith op => cases op <;> exact iff_of_false (by decide) (fun ⟨_, h⟩ => nomatch h)
  | relation op => cases op <;> exact iff_of_false (by decide) (fun ⟨_, h⟩ => nomatch h)
  | punct mark => cases mark <;> exact iff_of_false (by decide) (fun ⟨_, h⟩ => nomatch h)
  | unknown c hc =>
      refine iff_of_false ?_ (fun ⟨_, h⟩ => nomatch h)
      rw [List.all_cons, (Bool.or_eq_false_iff.mp hc).2]
      exact Bool.false_ne_true

/-- A token is reported as its text deserves. -/
theorem tooLong?_eq_overlong? {token : Token}
    (h : Denotes token.lexeme.text.toList token.lexeme.terminal) (max : Nat) :
    tooLong? max (token.lexeme.text.toList, token.line) = token.overlong? max := by
  obtain ⟨lexeme, line⟩ := token
  have hdigits := h.all_isDigit
  -- The scanner looks at the kind of the token, and `tooLong?` only at its characters.
  cases lexeme with
  | number digits =>
      have hall : digits.toList.all Char.isDigit = true := hdigits.mpr ⟨_, rfl⟩
      show (if digits.toList.all Char.isDigit && max < digits.toList.length then
        some (Diagnostic.mk line (.numberTooLong (String.ofList digits.toList) max)) else none) = _
      rw [hall, Bool.true_and, String.ofList_toList, String.length_toList]
      simp only [decide_eq_true_eq]
      rfl
  | _ =>
      have hnot := eq_false_of_ne_true (mt hdigits.mp fun ⟨_, h⟩ => nomatch h)
      simp only [tooLong?, hnot, Bool.false_and, Bool.false_eq_true, if_false]
      rfl

namespace Generate.State

/-- The state in which the first token is the current one, and then as many more were asked
for. -/
def pulled (options : Options) (source : String) (count : Nat) : State :=
  ((start options (scan source)).checkNumber options.maxDigits.toNat).skip
    options.maxDigits.toNat count

/-- What stands next after some tokens of a source. -/
theorem input_pulled (options : Options) (source : String) (count : Nat) :
    (pulled options source count).input
      = { scan source with tokens := (scan source).tokens.drop count } := by
  rw [pulled, input_skip, input_checkNumber]
  rfl

/-- What was reported about some tokens of a source. -/
theorem diagnostics_pulled (options : Options) (source : String) (count : Nat) :
    (pulled options source count).diagnostics.toList
      = ((scan source).tokens.take (count + 1)).filterMap
          (Token.overlong? options.maxDigits.toNat) := by
  rw [pulled, diagnostics_skip, diagnostics_checkNumber, input_checkNumber, List.append_assoc,
    ← List.filterMap_append]
  show [] ++ ((scan source).tokens.take 1 ++ (scan source).tokens.tail.take count).filterMap _ = _
  rw [List.nil_append, ← List.drop_one, ← List.take_add, Nat.add_comm]

end Generate.State

/-- What is delivered of a source that is cut into `p`. -/
structure Delivers (options : Options) (source : String) (p : Partition) : Prop where
  /-- The lexemes come one by one, each as its text says and with its line. -/
  lexeme (k : Nat) (text : List Char) (line : Nat) (h : (p.placed 1)[k]? = some (text, line)) :
    ∃ lexeme, (Generate.State.pulled options source k).input.current? = some lexeme ∧
      lexeme.text.toList = text ∧ Denotes text lexeme.terminal ∧
      (Generate.State.pulled options source k).input.line = line
  /-- Then there is nothing more, on the line behind all line feeds. -/
  ended (k : Nat) (h : p.segments.length ≤ k) :
    (Generate.State.pulled options source k).input.current? = none ∧
      (Generate.State.pulled options source k).input.line
        = 1 + (sourcePart source.toList).count '\n'
  /-- What was delivered is reported if it is a run of too many digits, and nothing else is. -/
  reported (k : Nat) : (Generate.State.pulled options source k).diagnostics.toList
    = ((p.placed 1).take (k + 1)).filterMap (tooLong? options.maxDigits.toNat)

/-- The tokens of a partition are delivered. -/
theorem Cut.delivers {options : Options} {source : String} {p : Partition}
    (h : Cut 1 source.toList (scan source) p) : Delivers options source p where
  lexeme k text line hplaced := by
    rw [← h.placed, List.getElem?_map, Option.map_eq_some_iff] at hplaced
    obtain ⟨token, htoken, hentry⟩ := hplaced
    obtain ⟨rfl, rfl⟩ := Prod.mk.inj hentry
    have hmem : token ∈ (scan source).tokens := List.mem_of_getElem? htoken
    have hdrop : (scan source).tokens.drop k = token :: (scan source).tokens.drop (k + 1) := by
      rw [List.drop_eq_getElem?_toList_append, htoken]
      rfl
    rw [Generate.State.input_pulled, hdrop]
    exact ⟨token.lexeme, rfl, rfl, h.denotes token hmem, rfl⟩
  ended k hk := by
    have hlength : (scan source).tokens.length = p.segments.length := by
      have hplaced := congrArg List.length h.placed
      rw [List.length_map, Partition.placed, List.length_map, List.length_zipIdx] at hplaced
      exact hplaced
    rw [Generate.State.input_pulled, List.drop_eq_nil_of_le (by omega)]
    exact ⟨rfl, h.endLine⟩
  reported k := by
    rw [Generate.State.diagnostics_pulled, ← h.placed, ← List.map_take, List.filterMap_map]
    refine List.filterMap_congr fun token htoken => ?_
    exact (tooLong?_eq_overlong? (h.denotes token (List.mem_of_mem_take htoken)) _).symm

/-- **Scanning is maximal munch.** The part of a source in front of the first `#` can be cut in
one way into blanks and lexemes of which each is the longest at its place. These lexemes are
delivered one after the other, and then the end of input for ever. -/
theorem scan_maximal_munch (options : Options) (source : String) :
    ∃ p : Partition, p.IsMunch (sourcePart source.toList) ∧
      (∀ q : Partition, q.IsMunch (sourcePart source.toList) → q = p) ∧
      Delivers options source p := by
  obtain ⟨p, hcut⟩ := exists_cut 1 source.toList
  exact ⟨p, hcut.isMunch, fun q hq => hq.unique hcut.isMunch, hcut.delivers⟩

end ThreeAddress
