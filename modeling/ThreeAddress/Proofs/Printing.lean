import ThreeAddress.Proofs.Listing

/-!
# Scanning undoes printing

A `Terminal` is a lexeme as the generator understands it, with a number by its value. Any
sequence of terminals can be printed, with blanks between them, and the scanner reads back
the same terminals. The line of each follows from the line feeds in front of it.

Blanks may be left out where two terminals do not run together. Two words would become one
word, and a character may form one of `:=`, `<=`, `<>` and `>=` with the next. Otherwise the
scanner stops where the printed terminal ends (`Terminal.EndsBefore`), whatever follows.

- `Terminal.Reads`: what the scanner makes of the text of one terminal, with an arbitrary
  text behind it. `exists_reads` proves it for every terminal that can be printed.
- `scanFrom_print`: the same for a sequence, by induction.
- `scan_print`: the terminals, their lines, and that no number is too long.
-/

set_option autoImplicit false

namespace ThreeAddress

/-! ### Terminals -/

/-- A lexeme as the generator understands it: a number is given by its value. -/
inductive Terminal where
  | ident (name : String)
  | number (value : Nat)
  | keyword (word : Keyword)
  | arith (op : ArithOp)
  | relation (op : RelOp)
  | punct (mark : Punctuation)
  | unknown (char : Char)
deriving DecidableEq, Repr, Inhabited

/-- What the generator understands by a lexeme. -/
def Lexeme.terminal : Lexeme → Terminal
  | ident name => .ident name
  | number digits => .number (Decimal.literal digits.toList)
  | keyword word => .keyword word
  | arith op => .arith op
  | relation op => .relation op
  | punct mark => .punct mark
  | unknown char => .unknown char

namespace Terminal

/-- The characters other than letters, digits and blanks that start a lexeme of their own or
end the source. A colon is not one of them: alone it is an unknown character. -/
def marks : List Char := ['+', '-', '*', '/', '(', ')', ',', ';', '=', '<', '>', '#']

/-- The lexemes of two characters whose first character is a lexeme too. -/
def pairs : List (List Char) := [[':', '='], ['<', '='], ['<', '>'], ['>', '=']]

/-- The lexeme that is printed for a terminal. A number is printed in decimal. -/
def lexeme : Terminal → Lexeme
  | ident name => .ident name
  | number value => .number (toString value)
  | keyword word => .keyword word
  | arith op => .arith op
  | relation op => .relation op
  | punct mark => .punct mark
  | unknown char => .unknown char

/-- A terminal as it is printed. -/
def text (t : Terminal) : String := t.lexeme.text

/-- Whether a terminal is printed with letters and digits. -/
def isWord : Terminal → Bool
  | ident _ => true
  | number _ => true
  | keyword _ => true
  | arith _ => false
  | relation _ => false
  | punct _ => false
  | unknown _ => false

/-- Whether a text is a letter with letters and digits behind it and is not reserved. -/
def isName (name : String) : Bool :=
  match name.toList with
  | [] => false
  | first :: rest =>
    first.isAlpha && rest.all Char.isAlphanum && Keyword.all.all fun word => word.text ≠ name

/-- Whether a terminal can be printed: its name is one, its value is that of a literal, and
its character is no part of another lexeme. -/
def isPrintable : Terminal → Bool
  | ident name => isName name
  | number value => value ≤ Decimal.literalMax
  | unknown char => !char.isAlphanum && !isBlank char && char ∉ marks
  | _ => true

/-- Whether two terminals can be printed side by side: they are not both words, and the first
does not form a pair with the first character of the second. The first counts with its whole
text, so `<>` can stand right before `=`. -/
def mayTouch (t u : Terminal) : Bool :=
  !(t.isWord && u.isWord) && t.text.toList ++ u.text.toList.take 1 ∉ pairs

/-- The text does not go on in a way that would be read as part of the terminal. -/
def EndsBefore (t : Terminal) (rest : List Char) : Prop :=
  ∀ c ∈ rest.head?, (t.isWord = true → c.isAlphanum = false) ∧ t.text.toList ++ [c] ∉ pairs

/-- The text of the terminal `t` is `c` followed by `cs`, and this is what the scanner makes
of it. -/
structure Reads (t : Terminal) (c : Char) (cs : List Char) : Prop where
  text : t.text.toList = c :: cs
  ne_hash : c ≠ '#'
  not_blank : isBlank c = false
  isAlphanum : c.isAlphanum = t.isWord
  munch : ∀ rest, t.EndsBefore rest → Lexeme.munch c (cs ++ rest) = (t.lexeme, rest)

/-! ### One terminal -/

/-- A letter or digit neither ends the source nor separates lexemes. -/
theorem not_blank_of_isAlphanum {c : Char} (h : c.isAlphanum = true) :
    c ≠ '#' ∧ isBlank c = false := by
  have hne : ∀ d : Char, d.isAlphanum = false → c ≠ d := by
    rintro d hd rfl
    rw [h] at hd
    exact nomatch hd
  refine ⟨hne _ (by decide), ?_⟩
  unfold isBlank
  simp [hne ' ' (by decide), hne '\t' (by decide), hne '\n' (by decide),
    hne '\x0c' (by decide), hne '\r' (by decide)]

/-- A word is read up to its end. -/
theorem reads_word {t : Terminal} {c : Char} {cs : List Char} (htext : t.text.toList = c :: cs)
    (hword : t.isWord = true) (hc : c.isAlpha = true) (hcs : ∀ d ∈ cs, d.isAlphanum = true)
    (hlexeme : Lexeme.ofWord (c :: cs) = t.lexeme) : t.Reads c cs := by
  have halnum : c.isAlphanum = true := Bool.or_eq_true_iff.mpr (.inl hc)
  obtain ⟨hhash, hblank⟩ := not_blank_of_isAlphanum halnum
  refine ⟨htext, hhash, hblank, halnum.trans hword.symm, ?_⟩
  intro rest hends
  have hstops : Stops Char.isAlphanum rest := fun d hd => (hends d hd).1 hword
  unfold Lexeme.munch
  rw [if_pos hc, takeWhile_append_of_stops hcs hstops, dropWhile_append_of_stops hcs hstops,
    hlexeme]

/-- The digits of a number are read up to its end. -/
theorem reads_number (value : Nat) : ∃ c cs, (number value).Reads c cs := by
  have htext : (toString value).toList = Nat.toDigits 10 value := by
    rw [Nat.toString_eq_repr, Nat.toList_repr]
  have hdigits : ∀ d ∈ (toString value).toList, d.isDigit = true := by
    rw [htext]
    exact fun d hd => Nat.isDigit_of_mem_toDigits (by decide) (by decide) hd
  obtain ⟨c, cs, hcons⟩ : ∃ c cs, (toString value).toList = c :: cs := by
    rw [htext]
    exact List.exists_cons_of_ne_nil Nat.toDigits_ne_nil
  rw [hcons, List.forall_mem_cons] at hdigits
  obtain ⟨hc, hcs⟩ := hdigits
  -- The first character decides how the text is read on, and it is no letter.
  have hletter : c.isAlpha = false := by
    cases halpha : c.isAlpha with
    | false => rfl
    | true => exact absurd hc (ne_true_of_eq_false (isDigit_eq_false_of_isAlpha halpha))
  have halnum : c.isAlphanum = true := Bool.or_eq_true_iff.mpr (.inr hc)
  obtain ⟨hhash, hblank⟩ := not_blank_of_isAlphanum halnum
  refine ⟨c, cs, hcons, hhash, hblank, halnum, ?_⟩
  intro rest hends
  have hstops : Stops Char.isDigit rest := fun d hd =>
    (Bool.or_eq_false_iff.mp ((hends d hd).1 rfl)).2
  unfold Lexeme.munch
  rw [if_neg (ne_true_of_eq_false hletter), if_pos hc, takeWhile_append_of_stops hcs hstops,
    dropWhile_append_of_stops hcs hstops, ← hcons, String.ofList_toList]
  rfl

/-- Two characters are read together only if they are one of the pairs. -/
theorem pair?_eq_none {c d : Char} (h : [c, d] ∉ pairs) : Lexeme.pair? c d = none := by
  unfold Lexeme.pair?
  split
  case h_5 => rfl
  all_goals exact absurd (by decide) h

/-- What starts with another character than a letter or digit is read as a symbol. -/
theorem munch_eq_munchSymbol {c : Char} (hc : c.isAlphanum = false) (cs : List Char) :
    Lexeme.munch c cs = Lexeme.munchSymbol c cs := by
  obtain ⟨halpha, hdigit⟩ := Bool.or_eq_false_iff.mp hc
  unfold Lexeme.munch
  rw [if_neg (ne_true_of_eq_false halpha), if_neg (ne_true_of_eq_false hdigit)]

section
variable {t : Terminal} {c : Char} (hword : t.isWord = false) (hc : c.isAlphanum = false)
  (hhash : c ≠ '#') (hblank : isBlank c = false)
include hword hc hhash hblank

/-- A symbol of one character is read alone. -/
theorem reads_single (htext : t.text.toList = [c]) (hlexeme : Lexeme.single c = t.lexeme) :
    t.Reads c [] := by
  refine ⟨htext, hhash, hblank, hc.trans hword.symm, ?_⟩
  intro rest hends
  rw [munch_eq_munchSymbol hc, List.nil_append]
  cases rest with
  | nil => exact congrArg (·, []) hlexeme
  | cons d rest =>
      -- What follows is not taken into the symbol.
      have hpair : [c, d] ∉ pairs := by
        have hnot := (hends d rfl).2
        rw [htext] at hnot
        exact hnot
      simp only [Lexeme.munchSymbol, pair?_eq_none hpair, hlexeme]

/-- A symbol of two characters is read as a whole. -/
theorem reads_pair {d : Char} (htext : t.text.toList = [c, d])
    (hlexeme : Lexeme.pair? c d = some t.lexeme) : t.Reads c [d] := by
  refine ⟨htext, hhash, hblank, hc.trans hword.symm, ?_⟩
  intro rest _
  rw [munch_eq_munchSymbol hc, List.singleton_append]
  simp only [Lexeme.munchSymbol, hlexeme]

end

/-- No reserved word is written like a name. -/
theorem ofWord_of_isName {name : String} (h : isName name = true) :
    ∃ c cs, name.toList = c :: cs ∧ c.isAlpha = true ∧ (∀ d ∈ cs, d.isAlphanum = true) ∧
      Lexeme.ofWord (c :: cs) = .ident name := by
  unfold isName at h
  split at h
  · exact absurd h Bool.false_ne_true
  · next c cs hlist =>
    rw [Bool.and_eq_true, Bool.and_eq_true] at h
    obtain ⟨⟨hc, hcs⟩, hfree⟩ := h
    have hnone : Keyword.ofText? name = none := by
      refine List.find?_eq_none.mpr fun word hmem htext => ?_
      have hne := List.all_eq_true.mp hfree word hmem
      rw [decide_eq_true_eq] at hne htext
      exact hne htext
    refine ⟨c, cs, hlist, hc, List.all_eq_true.mp hcs, ?_⟩
    unfold Lexeme.ofWord
    rw [← hlist, String.ofList_toList, hnone]

/-- **Every terminal that can be printed is read back**, whatever text follows it. -/
theorem exists_reads {t : Terminal} (h : t.isPrintable = true) : ∃ c cs, t.Reads c cs := by
  cases t with
  | ident name =>
      obtain ⟨c, cs, hlist, hc, hcs, hlexeme⟩ := ofWord_of_isName h
      exact ⟨c, cs, reads_word hlist rfl hc hcs hlexeme⟩
  | number value => exact reads_number value
  | keyword word =>
      cases word <;> exact ⟨_, _, reads_word rfl rfl rfl (List.all_eq_true.mp rfl) rfl⟩
  | arith op =>
      cases op <;> exact ⟨_, _, reads_single rfl rfl (by decide) rfl rfl rfl⟩
  | relation op =>
      cases op with
      | eq => exact ⟨_, _, reads_single rfl rfl (by decide) rfl rfl rfl⟩
      | lt => exact ⟨_, _, reads_single rfl rfl (by decide) rfl rfl rfl⟩
      | gt => exact ⟨_, _, reads_single rfl rfl (by decide) rfl rfl rfl⟩
      | ne => exact ⟨_, _, reads_pair rfl rfl (by decide) rfl rfl rfl⟩
      | le => exact ⟨_, _, reads_pair rfl rfl (by decide) rfl rfl rfl⟩
      | ge => exact ⟨_, _, reads_pair rfl rfl (by decide) rfl rfl rfl⟩
  | punct mark =>
      cases mark with
      | becomes => exact ⟨_, _, reads_pair rfl rfl (by decide) rfl rfl rfl⟩
      | _ => exact ⟨_, _, reads_single rfl rfl (by decide) rfl rfl rfl⟩
  | unknown char =>
      unfold isPrintable at h
      rw [Bool.and_eq_true, Bool.and_eq_true, Bool.not_eq_true', Bool.not_eq_true',
        decide_eq_true_eq] at h
      obtain ⟨⟨halnum, hblank⟩, hmarks⟩ := h
      -- The character is none of those that start a lexeme of their own.
      have hne : ∀ mark ∈ marks, char ≠ mark := by
        rintro mark hmark rfl
        exact hmarks hmark
      have hlexeme : Lexeme.single char = .unknown char := by
        unfold Lexeme.single
        split
        case h_12 => rfl
        all_goals exact absurd rfl (hne _ (by decide))
      exact ⟨_, _, reads_single rfl halnum (hne _ (by decide)) hblank (String.toList_singleton _)
        hlexeme⟩

/-- A terminal is printed so that it is understood again. -/
theorem terminal_lexeme {t : Terminal} (h : t.isPrintable = true) : t.lexeme.terminal = t := by
  cases t with
  | number value =>
      have hvalue : Decimal.value (toString value).toList = value := by
        rw [Nat.toString_eq_repr, Nat.toList_repr, Decimal.value_toDigits]
      have hle : value ≤ Decimal.literalMax := of_decide_eq_true h
      show number (Decimal.literal (toString value).toList) = number value
      rw [Decimal.literal_eq_min, hvalue, Nat.min_eq_left hle]
  | _ => rfl

/-- The value of a literal has at most 19 digits. -/
theorem overlong?_lexeme {t : Terminal} (h : t.isPrintable = true) {max : Nat} (hmax : 19 ≤ max)
    (line : Nat) : Token.overlong? max ⟨t.lexeme, line⟩ = none := by
  cases t with
  | number value =>
      have hle : value ≤ Decimal.literalMax := of_decide_eq_true h
      have hlength : (toString value).length ≤ 19 := by
        rw [← String.length_toList, Nat.toString_eq_repr, Nat.toList_repr,
          Nat.length_toDigits_le_iff (by decide) (by decide)]
        exact Nat.lt_of_le_of_lt hle (by decide)
      exact if_neg (Nat.not_lt.mpr (Nat.le_trans hlength hmax))
  | _ => rfl

end Terminal

/-! ### Sequences of terminals -/

/-- A terminal and the blanks that are printed in front of it. -/
structure Piece where
  blanks : String
  terminal : Terminal
deriving DecidableEq, Repr, Inhabited

namespace Piece

/-- The number of lines that end in the blanks in front of a terminal. -/
def lineFeeds (piece : Piece) : Nat := piece.blanks.toList.count '\n'

/-- The number of lines that end in the blanks of a sequence. -/
def allLineFeeds (pieces : List Piece) : Nat :=
  (pieces.flatMap fun piece => piece.blanks.toList).count '\n'

/-- A sequence of terminals as it is printed. -/
def print : List Piece → String
  | [] => ""
  | piece :: rest => piece.blanks ++ piece.terminal.text ++ print rest

/-- The terminals of a sequence with their lines, where `line` is the first. -/
def numbered (line : Nat) : List Piece → List (Terminal × Nat)
  | [] => []
  | piece :: rest =>
    (piece.terminal, line + piece.lineFeeds) :: numbered (line + piece.lineFeeds) rest

/-- A sequence of terminals that do not run together when they are printed. -/
structure Separated (pieces : List Piece) : Prop where
  printable : ∀ piece ∈ pieces, piece.terminal.isPrintable = true
  blanks : ∀ piece ∈ pieces, piece.blanks.toList.all isBlank = true
  apart : pieces.IsChain fun piece next =>
    next.blanks = "" → piece.terminal.mayTouch next.terminal = true

variable {piece : Piece} {pieces : List Piece}

/-- A sequence starts with the blanks and the text of its first terminal. -/
theorem toList_print_cons : (print (piece :: pieces)).toList
    = piece.blanks.toList ++ (piece.terminal.text.toList ++ (print pieces).toList) := by
  rw [print, String.toList_append, String.toList_append, List.append_assoc]

/-- The lines are counted piece by piece. -/
theorem allLineFeeds_cons :
    allLineFeeds (piece :: pieces) = piece.lineFeeds + allLineFeeds pieces := by
  rw [allLineFeeds, List.flatMap_cons, List.count_append]
  rfl

/-- The numbers leave the terminals as they are. -/
theorem map_fst_numbered (line : Nat) :
    (numbered line pieces).map Prod.fst = pieces.map Piece.terminal := by
  induction pieces generalizing line with
  | nil => rfl
  | cons piece pieces ih => rw [numbered, List.map_cons, List.map_cons, ih]

/-- What follows the first terminal is separated too. -/
theorem Separated.tail (h : Separated (piece :: pieces)) : Separated pieces :=
  ⟨(List.forall_mem_cons.mp h.printable).2, (List.forall_mem_cons.mp h.blanks).2, h.apart.of_cons⟩

/-- What is numbered can be printed. -/
theorem Separated.isPrintable (h : Separated pieces) {line : Nat} {entry : Terminal × Nat}
    (hentry : entry ∈ numbered line pieces) : entry.1.isPrintable = true := by
  have hmem : entry.1 ∈ (numbered line pieces).map Prod.fst := List.mem_map_of_mem hentry
  rw [map_fst_numbered] at hmem
  obtain ⟨piece, hpiece, hterminal⟩ := List.mem_map.mp hmem
  rw [← hterminal]
  exact h.printable piece hpiece

/-- A blank is no letter or digit, and it ends none of the pairs. -/
theorem endsBefore_blank {t : Terminal} {c : Char} (hc : isBlank c = true) (rest : List Char) :
    t.EndsBefore (c :: rest) := by
  rintro _ ⟨⟩
  constructor
  · intro _
    cases halnum : c.isAlphanum with
    | false => rfl
    | true => exact absurd hc (ne_true_of_eq_false (Terminal.not_blank_of_isAlphanum halnum).2)
  · intro hmem
    have hlast : ∀ pair ∈ Terminal.pairs, pair.getLast?.all (fun d => !isBlank d) = true := by
      decide
    have hnot := hlast _ hmem
    rw [List.getLast?_concat, Option.all_some, hc] at hnot
    exact nomatch hnot

/-- Terminals that may touch end where the next one starts. -/
theorem endsBefore_of_mayTouch {t u : Terminal} (h : t.mayTouch u = true)
    (hu : u.isPrintable = true) (rest : List Char) : t.EndsBefore (u.text.toList ++ rest) := by
  obtain ⟨c, cs, hreads⟩ := Terminal.exists_reads hu
  unfold Terminal.mayTouch at h
  rw [Bool.and_eq_true, decide_eq_true_eq, hreads.text, ← hreads.isAlphanum] at h
  rw [hreads.text]
  rintro _ ⟨⟩
  refine ⟨?_, h.2⟩
  intro hword
  have hwords := h.1
  rw [hword, Bool.true_and] at hwords
  rwa [Bool.not_eq_true'] at hwords

/-- A printed terminal ends where the rest of the sequence starts. -/
theorem Separated.endsBefore (h : Separated (piece :: pieces)) :
    piece.terminal.EndsBefore (print pieces).toList := by
  cases pieces with
  | nil => exact fun c hc => nomatch hc
  | cons next rest =>
      rw [toList_print_cons]
      -- Without blanks the next terminal follows at once, and then the two may touch.
      cases hblanks : next.blanks.toList with
      | nil =>
          have hprintable := h.printable next (List.mem_cons_of_mem _ List.mem_cons_self)
          have htouch := (List.isChain_cons_cons.mp h.apart).1 (String.toList_eq_nil_iff.mp hblanks)
          exact endsBefore_of_mayTouch htouch hprintable _
      | cons c cs =>
          have hblank := h.blanks next (List.mem_cons_of_mem _ List.mem_cons_self)
          rw [hblanks, List.all_cons, Bool.and_eq_true] at hblank
          exact endsBefore_blank hblank.1 _

end Piece

/-- Blanks are skipped, and the lines that end in them are counted. -/
theorem scanFrom_blanks {blanks : List Char} (h : blanks.all isBlank = true) (line : Nat)
    (cs : List Char) : scanFrom line (blanks ++ cs) = scanFrom (line + blanks.count '\n') cs := by
  induction blanks generalizing line with
  | nil => rfl
  | cons c blanks ih =>
      rw [List.all_cons, Bool.and_eq_true] at h
      have hhash : c ≠ '#' := by
        rintro rfl
        exact absurd h.1 (by decide)
      rw [List.cons_append, scanFrom, if_neg hhash, if_pos h.1, ih h.2, List.count_cons]
      congr 1
      unfold lineAfter
      by_cases hfeed : c = '\n'
      · subst hfeed
        simp only [beq_self_eq_true, if_true]
        omega
      · rw [if_neg hfeed, if_neg (by rwa [beq_iff_eq]), Nat.add_zero]

/-- What is printed is scanned, from any line on. -/
theorem scanFrom_print {pieces : List Piece} (h : Piece.Separated pieces) (line : Nat) :
    scanFrom line (Piece.print pieces).toList =
      { tokens := (Piece.numbered line pieces).map fun entry => ⟨entry.1.lexeme, entry.2⟩
        endLine := line + Piece.allLineFeeds pieces } := by
  induction pieces generalizing line with
  | nil =>
      show scanFrom line [] = _
      rw [scanFrom]
      rfl
  | cons piece pieces ih =>
      obtain ⟨c, cs, hreads⟩ := Terminal.exists_reads (h.printable piece List.mem_cons_self)
      -- First the blanks are skipped, then one lexeme is read, and then the induction goes on.
      rw [Piece.toList_print_cons, scanFrom_blanks (h.blanks piece List.mem_cons_self),
        hreads.text, List.cons_append, scanFrom, if_neg hreads.ne_hash,
        if_neg (ne_true_of_eq_false hreads.not_blank), hreads.munch _ h.endsBefore, ih h.tail]
      simp only [TokenStream.cons, Piece.numbered, List.map_cons, Piece.allLineFeeds_cons,
        Piece.lineFeeds, Nat.add_assoc]

/-- **Scanning undoes printing.** Terminals that can be printed, with blanks wherever two of
them would run together, are read back in order. Each stands on the line that the line feeds
in front of it say, and so does the end. No number is reported if 19 digits are allowed. -/
theorem scan_print (pieces : List Piece) (h : Piece.Separated pieces) :
    (scan (Piece.print pieces)).tokens.map (fun token => (token.lexeme.terminal, token.line))
        = Piece.numbered 1 pieces ∧
      (scan (Piece.print pieces)).endLine = 1 + Piece.allLineFeeds pieces ∧
      ∀ max, 19 ≤ max → (scan (Piece.print pieces)).overlong max = [] := by
  unfold scan
  rw [scanFrom_print h]
  refine ⟨?_, rfl, ?_⟩
  · rw [List.map_map]
    refine (List.map_congr_left fun entry hentry => ?_).trans (List.map_id _)
    exact Prod.ext (Terminal.terminal_lexeme (h.isPrintable hentry)) rfl
  · intro max hmax
    unfold TokenStream.overlong
    rw [List.filterMap_map, List.filterMap_eq_nil_iff]
    exact fun entry hentry => Terminal.overlong?_lexeme (h.isPrintable hentry) hmax _

/-- Words, the largest literal, characters beyond ASCII, a colon and pairs, with blanks only
where they are needed. -/
theorem scan_print_touching :
    ∃ pieces, Piece.Separated pieces ∧
      Piece.print pieces = "x1:=9223372036854775807\n\tENDé<: =→<>=\n(" ∧
      (scan "x1:=9223372036854775807\n\tENDé<: =→<>=\n(").tokens.map
          (fun token => (token.lexeme.terminal, token.line))
        = [(.ident "x1", 1), (.punct .becomes, 1), (.number 9223372036854775807, 1),
          (.keyword .endKw, 2), (.unknown 'é', 2), (.relation .lt, 2), (.unknown ':', 2),
          (.relation .eq, 2), (.unknown '→', 2), (.relation .ne, 2), (.relation .eq, 2),
          (.punct .lparen, 3)] ∧
      (scan "x1:=9223372036854775807\n\tENDé<: =→<>=\n(").endLine = 3 ∧
      (scan "x1:=9223372036854775807\n\tENDé<: =→<>=\n(").overlong 19 = [] := by
  have hprint : Piece.print [⟨"", .ident "x1"⟩, ⟨"", .punct .becomes⟩,
      ⟨"", .number 9223372036854775807⟩, ⟨"\n\t", .keyword .endKw⟩, ⟨"", .unknown 'é'⟩,
      ⟨"", .relation .lt⟩, ⟨"", .unknown ':'⟩, ⟨" ", .relation .eq⟩, ⟨"", .unknown '→'⟩,
      ⟨"", .relation .ne⟩, ⟨"", .relation .eq⟩, ⟨"\n", .punct .lparen⟩]
      = "x1:=9223372036854775807\n\tENDé<: =→<>=\n(" := by decide +kernel
  have hseparated : Piece.Separated [⟨"", .ident "x1"⟩, ⟨"", .punct .becomes⟩,
      ⟨"", .number 9223372036854775807⟩, ⟨"\n\t", .keyword .endKw⟩, ⟨"", .unknown 'é'⟩,
      ⟨"", .relation .lt⟩, ⟨"", .unknown ':'⟩, ⟨" ", .relation .eq⟩, ⟨"", .unknown '→'⟩,
      ⟨"", .relation .ne⟩, ⟨"", .relation .eq⟩, ⟨"\n", .punct .lparen⟩] :=
    ⟨by decide +kernel, by decide +kernel, by decide +kernel⟩
  obtain ⟨hterminals, hend, hshort⟩ := scan_print _ hseparated
  rw [hprint] at hterminals hend hshort
  exact ⟨_, hseparated, hprint, hterminals, hend, hshort 19 (by decide)⟩

end ThreeAddress
