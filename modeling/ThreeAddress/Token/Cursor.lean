import ThreeAddress.Token.Scanner

/-!
# A cursor on bytes

A source is held in UTF-8, and it can be read by its bytes: the cursor is the offset of a byte,
blanks, letters and digits are told by single bytes, and only where none of them stands is a whole
character decoded. The text of a word or number is cut out between two offsets. To cut or to decode
anywhere else than between two characters would be an error, which is `none` here.

`next_at` is about one call for a token: the cursor stands between two characters before and after
it, and what the call answers is what `scanFrom` says of the text from the cursor on. By
`cursor_scans`, calls that follow one another never come to an error and deliver the tokens of the
source, and then its end for ever.

The reason is that a byte below 128 is a character of its own, and that every other character
starts with a byte from 128 on, which is no blank, letter, digit or sign.
-/

set_option autoImplicit false

namespace ThreeAddress

/-! ### Reading bytes -/

/-- The bytes of a text. -/
def bytesOf (cs : List Char) : List UInt8 := cs.flatMap String.utf8EncodeChar

/-- The character that a byte is if it stands for itself. -/
def byteChar (b : UInt8) : Char := Char.ofNat b.toNat

/-- Where the scanner stands: the offset of a byte, and its line. -/
structure Cursor where
  pos : Nat
  line : Nat
deriving DecidableEq, Repr, Inhabited

namespace Cursor

/-- Whether an offset lies between two characters or at an end: no byte that continues a character
stands there. -/
def isBoundary (src : List UInt8) (pos : Nat) : Bool :=
  pos == src.length || src[pos]?.any fun b => decide b.IsUTF8FirstByte

/-- The text between two offsets, which have to be boundaries. -/
def slice? (src : List UInt8) (start stop : Nat) : Option String :=
  if isBoundary src start && isBoundary src stop then
    String.fromUTF8? ((src.take stop).drop start).toByteArray
  else
    none

/-- The character at an offset, which has to be a boundary. -/
def char? (src : List UInt8) (pos : Nat) : Option Char :=
  if isBoundary src pos then (src.drop pos).toByteArray.utf8DecodeChar? 0 else none

/-- Moves past the bytes of one class. -/
def passWhile (class? : Char → Bool) (src : List UInt8) (pos : Nat) : Nat :=
  match h : src[pos]? with
  | some b => if class? (byteChar b) then passWhile class? src (pos + 1) else pos
  | none => pos
termination_by src.length - pos
decreasing_by
  have hlt := (List.getElem?_eq_some_iff.mp h).1
  omega

/-- Moves past blanks, and counts the lines that end in them. -/
def skipBlanks (src : List UInt8) (pos line : Nat) : Cursor :=
  match h : src[pos]? with
  | some b =>
    if isBlank (byteChar b) then skipBlanks src (pos + 1) (lineAfter line (byteChar b))
    else ⟨pos, line⟩
  | none => ⟨pos, line⟩
termination_by src.length - pos
decreasing_by
  have hlt := (List.getElem?_eq_some_iff.mp h).1
  omega

/-- The operator, mark or unknown character at an offset, and the offset behind it. The second
character of a pair is told by its byte. -/
def symbol? (src : List UInt8) (pos : Nat) : Option (Lexeme × Nat) :=
  (char? src pos).map fun c =>
    match src[pos + c.utf8Size]?.bind fun b => Lexeme.pair? c (byteChar b) with
    | some lexeme => (lexeme, pos + c.utf8Size + 1)
    | none => (Lexeme.single c, pos + c.utf8Size)

/-- The lexeme at an offset where the byte `b` stands, and the offset behind it. -/
def lexeme? (src : List UInt8) (pos : Nat) (b : UInt8) : Option (Lexeme × Nat) :=
  if (byteChar b).isAlpha then
    -- The run is cut out of the source at two offsets, and both have to be boundaries.
    let stop := passWhile Char.isAlphanum src pos
    (slice? src pos stop).map fun word => (Lexeme.ofWord word.toList, stop)
  else if (byteChar b).isDigit then
    let stop := passWhile Char.isDigit src pos
    (slice? src pos stop).map fun digits => (.number digits, stop)
  else
    symbol? src pos

/-- A call for the next token. It answers the lexeme, if there is one, and its line. From the mark
`#` on nothing is read. -/
def next (src : List UInt8) (cursor : Cursor) : Option ((Option Lexeme × Nat) × Cursor) :=
  let start := skipBlanks src cursor.pos cursor.line
  match src[start.pos]? with
  | none => some ((none, start.line), start)
  | some b =>
    -- Behind the mark the cursor is put at the end, so every further call ends there, too.
    if byteChar b = '#' then some ((none, start.line), ⟨src.length, start.line⟩)
    else (lexeme? src start.pos b).map fun found =>
      ((some found.1, start.line), ⟨found.2, start.line⟩)

/-- The cursor after a number of calls. -/
def after (src : List UInt8) : Nat → Option Cursor
  | 0 => some ⟨0, 1⟩
  | calls + 1 => (after src calls).bind fun cursor => (next src cursor).map Prod.snd

end Cursor

/-! ### Single bytes -/

/-- The bytes of a text in front of another one. -/
theorem bytesOf_append (front rest : List Char) :
    bytesOf (front ++ rest) = bytesOf front ++ bytesOf rest := List.flatMap_append

/-- The bytes of a character in front of a text. -/
theorem bytesOf_cons (c : Char) (cs : List Char) :
    bytesOf (c :: cs) = String.utf8EncodeChar c ++ bytesOf cs := List.flatMap_cons

/-- The bytes are those in which a source is held. -/
theorem bytesOf_toList (source : String) :
    (bytesOf source.toList).toByteArray = source.toByteArray := String.utf8Encode_toList

/-- A byte as a character has the number of the byte. -/
theorem toNat_byteChar (b : UInt8) : (byteChar b).toNat = b.toNat := by
  have hvalid : b.toNat.isValidChar := .inl (Nat.lt_of_lt_of_le b.toNat_lt (by decide))
  unfold byteChar
  rw [Char.ofNat, dif_pos hvalid]
  rfl

/-- **A character below 128 is one byte, which stands for itself.** -/
theorem utf8EncodeChar_of_lt {c : Char} (h : c.toNat < 128) :
    ∃ b, String.utf8EncodeChar c = [b] ∧ byteChar b = c := by
  refine ⟨UInt8.ofNat c.toNat, ?_, ?_⟩
  · unfold String.utf8EncodeChar
    exact if_pos (Nat.le_of_lt_succ h)
  · unfold byteChar
    rw [UInt8.toNat_ofNat_of_lt' (Nat.lt_trans h (by decide)), Char.ofNat_toNat]

/-- **Every other character starts with a byte from 128 on.** -/
theorem utf8EncodeChar_of_le {c : Char} (h : 128 ≤ c.toNat) :
    ∃ b bs, String.utf8EncodeChar c = b :: bs ∧ 128 ≤ (byteChar b).toNat := by
  -- Two, three or four bytes: the first one has its highest bit set in each case.
  have hone : ¬ c.val.toNat ≤ 127 := Nat.not_le.mpr h
  unfold String.utf8EncodeChar
  dsimp only
  rw [if_neg hone]
  split
  · refine ⟨_, _, rfl, ?_⟩
    rw [toNat_byteChar, UInt8.toNat_ofNat']
    omega
  · split
    · refine ⟨_, _, rfl, ?_⟩
      rw [toNat_byteChar, UInt8.toNat_ofNat']
      omega
    · refine ⟨_, _, rfl, ?_⟩
      rw [toNat_byteChar, UInt8.toNat_ofNat']
      omega

/-- A class of characters below 128. -/
def IsAscii (class? : Char → Bool) : Prop := ∀ c, class? c = true → c.toNat < 128

/-- Letters and digits are below 128. -/
theorem isAscii_isAlphanum : IsAscii Char.isAlphanum := by
  intro c h
  -- By definition the class is three ranges of words.
  have hranges : (decide (65 ≤ c.val ∧ c.val ≤ 90) ||
      (decide (97 ≤ c.val) && decide (c.val ≤ 122)) ||
      (decide (48 ≤ c.val) && decide (c.val ≤ 57))) = true := h
  simp only [Bool.or_eq_true, Bool.and_eq_true, decide_eq_true_eq,
    UInt32.le_iff_toNat_le] at hranges
  change ((65 ≤ c.toNat ∧ c.toNat ≤ 90) ∨ 97 ≤ c.toNat ∧ c.toNat ≤ 122) ∨
    48 ≤ c.toNat ∧ c.toNat ≤ 57 at hranges
  omega

/-- Letters are below 128. -/
theorem isAscii_isAlpha : IsAscii Char.isAlpha := fun c h =>
  isAscii_isAlphanum c (by rw [Char.isAlphanum, h, Bool.true_or])

/-- Digits are below 128. -/
theorem isAscii_isDigit : IsAscii Char.isDigit := fun c h =>
  isAscii_isAlphanum c (by rw [Char.isAlphanum, h, Bool.or_true])

/-- Blanks are below 128. -/
theorem isAscii_isBlank : IsAscii isBlank := by
  intro c h
  simp only [isBlank, Bool.or_eq_true, decide_eq_true_eq] at h
  rcases h with (((rfl | rfl) | rfl) | rfl) | rfl <;> decide

/-- The second character of a pair is below 128. -/
theorem isAscii_pair? (c : Char) : IsAscii fun d => (Lexeme.pair? c d).isSome := by
  intro d h
  dsimp only [Lexeme.pair?] at h
  split at h
  · decide
  · decide
  · decide
  · decide
  · exact absurd h Bool.false_ne_true

/-! ### Between two characters -/

/-- At the offset `pos` the rest of the source is the text `rest`. So the offset lies between two
characters. -/
structure At (src : List UInt8) (pos : Nat) (rest : List Char) : Prop where
  left : src.drop pos = bytesOf rest
  le : pos ≤ src.length

namespace At
variable {src : List UInt8} {pos : Nat} {front rest : List Char} {c : Char} {cs : List Char}

/-- A source starts with its text. -/
theorem start (cs : List Char) : At (bytesOf cs) 0 cs := ⟨rfl, Nat.zero_le _⟩

/-- At the end nothing is left. -/
theorem finish (src : List UInt8) : At src src.length [] := ⟨List.drop_length, Nat.le_refl _⟩

/-- The byte at an offset is the first one of what is left. -/
theorem peek (h : At src pos rest) : src[pos]? = (bytesOf rest).head? := by
  rw [← h.left, List.head?_drop]

/-- Behind the bytes of a text the offset lies between two characters again. -/
theorem move (h : At src pos (front ++ rest)) : At src (pos + (bytesOf front).length) rest := by
  have hleft := h.left
  rw [bytesOf_append] at hleft
  constructor
  · rw [← List.drop_drop, hleft, List.drop_left]
  · have hlength := congrArg List.length hleft
    rw [List.length_drop, List.length_append] at hlength
    have hle := h.le
    omega

/-- Behind one character. -/
theorem move_one (h : At src pos (c :: cs)) : At src (pos + c.utf8Size) cs := by
  have hmove : At src (pos + (bytesOf [c]).length) cs := h.move
  rw [bytesOf_cons, List.length_append, String.length_utf8EncodeChar] at hmove
  exact hmove

/-- **An offset between two characters is a boundary**, so there is no error in cutting there. -/
theorem isBoundary (h : At src pos rest) : Cursor.isBoundary src pos = true := by
  unfold Cursor.isBoundary
  rw [Bool.or_eq_true, h.peek]
  cases rest with
  | nil =>
      -- Nothing is left, so this is the end of the source.
      have hle := List.drop_eq_nil_iff.mp h.left
      exact .inl (beq_iff_eq.mpr (Nat.le_antisymm h.le hle))
  | cons c cs =>
      -- The byte is the first one of a character.
      have hfirst := @UInt8.isUTF8FirstByte_getElem_zero_utf8EncodeChar c
      obtain ⟨b, bs, hbytes⟩ := List.exists_cons_of_ne_nil (@String.utf8EncodeChar_ne_nil c)
      simp only [hbytes, List.getElem_cons_zero] at hfirst
      rw [bytesOf_cons, hbytes]
      exact .inr (decide_eq_true hfirst)

/-- The text in front of what is left can be cut out. -/
theorem slice? (h : At src pos (front ++ rest)) :
    Cursor.slice? src pos (pos + (bytesOf front).length) = some (String.ofList front) := by
  have hbytes : (src.take (pos + (bytesOf front).length)).drop pos = bytesOf front := by
    rw [List.drop_take, h.left, bytesOf_append, Nat.add_sub_cancel_left, List.take_left]
  unfold Cursor.slice?
  rw [h.isBoundary, h.move.isBoundary, Bool.and_self, if_pos rfl, hbytes]
  exact dif_pos (String.ofList front).isValidUTF8

/-- The character that comes next can be decoded. -/
theorem char? (h : At src pos (c :: cs)) : Cursor.char? src pos = some c := by
  unfold Cursor.char?
  rw [h.isBoundary, if_pos rfl, h.left]
  exact List.utf8DecodeChar?_utf8Encode_cons

/-- The byte at which a character starts is in the classes that the character is in. If the
character is below 128, it is the byte. -/
theorem first (h : At src pos (c :: cs)) :
    ∃ b, src[pos]? = some b ∧
      (∀ class?, IsAscii class? → class? (byteChar b) = class? c) ∧
      (c.toNat < 128 → byteChar b = c ∧ At src (pos + 1) cs) := by
  have hpeek := h.peek
  rw [bytesOf_cons] at hpeek
  rcases Nat.lt_or_ge c.toNat 128 with hlt | hge
  · obtain ⟨b, hbytes, rfl⟩ := utf8EncodeChar_of_lt hlt
    rw [hbytes] at hpeek
    refine ⟨b, hpeek, fun _ _ => rfl, fun _ => ⟨rfl, ?_⟩⟩
    have hmove := h.move_one
    rw [← String.length_utf8EncodeChar, hbytes] at hmove
    exact hmove
  · obtain ⟨b, bs, hbytes, hb⟩ := utf8EncodeChar_of_le hge
    rw [hbytes] at hpeek
    refine ⟨b, hpeek, fun class? hascii => ?_, fun hlt => absurd hlt (Nat.not_lt.mpr hge)⟩
    -- Neither the byte nor the character is in the class.
    have hbyte : class? (byteChar b) = false :=
      Bool.eq_false_iff.mpr fun htrue => Nat.not_lt.mpr hb (hascii _ htrue)
    have hchar : class? c = false :=
      Bool.eq_false_iff.mpr fun htrue => Nat.not_lt.mpr hge (hascii _ htrue)
    rw [hbyte, hchar]

/-- The bytes of one class are those of the characters of this class. The induction is on the
text that is left. -/
theorem passWhile {class? : Char → Bool} (hascii : IsAscii class?) (h : At src pos rest) :
    Cursor.passWhile class? src pos = pos + (bytesOf (rest.takeWhile class?)).length := by
  induction rest generalizing pos with
  | nil =>
      have hnone : src[pos]? = none := h.peek
      rw [Cursor.passWhile]
      split
      · next b hb =>
        rw [hnone] at hb
        exact nomatch hb
      · rfl
  | cons c cs ih =>
      obtain ⟨b, hb, hclass, hsmall⟩ := h.first
      rw [Cursor.passWhile]
      split
      · next b' hb' =>
        obtain rfl := Option.some.inj (hb.symm.trans hb')
        rw [hclass class? hascii]
        by_cases hc : class? c = true
        · -- The character is in the class, so it is a single byte and one step of the cursor.
          have hlt := hascii c hc
          obtain ⟨d, hbytes, -⟩ := utf8EncodeChar_of_lt hlt
          rw [if_pos hc, ih (hsmall hlt).2, List.takeWhile_cons_of_pos hc, bytesOf_cons, hbytes,
            List.length_append, List.length_singleton, Nat.add_assoc]
        · rw [if_neg hc, List.takeWhile_cons_of_neg hc]
          rfl
      · next hnone =>
        rw [hb] at hnone
        exact nomatch hnone

/-- A run of characters of one class can be cut out, and behind it the offset lies between two
characters. -/
theorem run {class? : Char → Bool} (hascii : IsAscii class?) (h : At src pos rest) :
    Cursor.slice? src pos (Cursor.passWhile class? src pos)
        = some (String.ofList (rest.takeWhile class?)) ∧
      At src (Cursor.passWhile class? src pos) (rest.dropWhile class?) := by
  have hsplit : At src pos (rest.takeWhile class? ++ rest.dropWhile class?) := by
    rw [List.takeWhile_append_dropWhile]
    exact h
  rw [h.passWhile hascii]
  exact ⟨hsplit.slice?, hsplit.move⟩

/-- A symbol is read as from the text. -/
theorem symbol? (h : At src pos (c :: cs)) :
    ∃ stop, Cursor.symbol? src pos = some ((Lexeme.munchSymbol c cs).1, stop) ∧
      At src stop (Lexeme.munchSymbol c cs).2 := by
  have hbehind := h.move_one
  unfold Cursor.symbol?
  rw [h.char?, Option.map_some]
  cases cs with
  | nil =>
      have hnone : src[pos + c.utf8Size]? = none := hbehind.peek
      rw [hnone]
      exact ⟨_, rfl, hbehind⟩
  | cons d rest =>
      obtain ⟨b, hb, hclass, hsmall⟩ := hbehind.first
      -- The byte stands for the character where it matters: the second of a pair is below 128.
      have hsome : (Lexeme.pair? c (byteChar b)).isSome = (Lexeme.pair? c d).isSome :=
        hclass _ (isAscii_pair? c)
      rw [hb, Option.bind_some, Lexeme.munchSymbol]
      cases hpair : Lexeme.pair? c d with
      | none =>
          rw [hpair] at hsome
          rw [Option.isSome_eq_false_iff.mp hsome |> Option.isNone_iff_eq_none.mp]
          exact ⟨_, rfl, hbehind⟩
      | some lexeme =>
          have hlt : d.toNat < 128 := isAscii_pair? c d (Option.isSome_of_eq_some hpair)
          rw [(hsmall hlt).1, hpair]
          exact ⟨_, rfl, (hsmall hlt).2⟩

/-- A lexeme is read as from the text. -/
theorem lexeme? (h : At src pos (c :: cs)) {b : UInt8} (hb : src[pos]? = some b) :
    ∃ stop, Cursor.lexeme? src pos b = some ((Lexeme.munch c cs).1, stop) ∧
      At src stop (Lexeme.munch c cs).2 := by
  obtain ⟨b', hb', hclass, -⟩ := h.first
  obtain rfl := Option.some.inj (hb.symm.trans hb')
  unfold Cursor.lexeme? Lexeme.munch
  rw [hclass _ isAscii_isAlpha, hclass _ isAscii_isDigit]
  by_cases halpha : c.isAlpha = true
  · have halnum : c.isAlphanum = true := by rw [Char.isAlphanum, halpha, Bool.true_or]
    obtain ⟨hslice, hrest⟩ := h.run isAscii_isAlphanum
    rw [List.takeWhile_cons_of_pos halnum] at hslice
    rw [List.dropWhile_cons_of_pos halnum] at hrest
    rw [if_pos halpha, if_pos halpha]
    dsimp only
    rw [hslice, Option.map_some, String.toList_ofList]
    exact ⟨_, rfl, hrest⟩
  · rw [if_neg halpha, if_neg halpha]
    by_cases hdigit : c.isDigit = true
    · obtain ⟨hslice, hrest⟩ := h.run isAscii_isDigit
      rw [List.takeWhile_cons_of_pos hdigit] at hslice
      rw [List.dropWhile_cons_of_pos hdigit] at hrest
      rw [if_pos hdigit, if_pos hdigit]
      dsimp only
      rw [hslice, Option.map_some]
      exact ⟨_, rfl, hrest⟩
    · rw [if_neg hdigit, if_neg hdigit]
      exact h.symbol?

/-- Blanks are skipped as in the text. -/
theorem skipBlanks (h : At src pos rest) (line : Nat) :
    ∃ cursor rest', Cursor.skipBlanks src pos line = cursor ∧ At src cursor.pos rest' ∧
      scanFrom cursor.line rest' = scanFrom line rest ∧
      ∀ c ∈ rest'.head?, isBlank c = false := by
  induction rest generalizing pos line with
  | nil =>
      have hnone : src[pos]? = none := h.peek
      refine ⟨_, [], rfl, ?_⟩
      rw [Cursor.skipBlanks]
      split
      · next b hb =>
        rw [hnone] at hb
        exact nomatch hb
      · exact ⟨h, rfl, fun c hc => nomatch hc⟩
  | cons c cs ih =>
      obtain ⟨b, hb, hclass, hsmall⟩ := h.first
      by_cases hc : isBlank c = true
      · obtain ⟨hchar, hnext⟩ := hsmall (isAscii_isBlank c hc)
        obtain ⟨cursor, rest', hskip, hat, hscan, hfirst⟩ := ih hnext (lineAfter line c)
        refine ⟨cursor, rest', ?_, hat, ?_, hfirst⟩
        · rw [Cursor.skipBlanks]
          split
          · next b' hb' =>
            obtain rfl := Option.some.inj (hb.symm.trans hb')
            rw [hchar, if_pos hc, hskip]
          · next hnone =>
            rw [hb] at hnone
            exact nomatch hnone
        · have hhash : c ≠ '#' := by
            rintro rfl
            exact absurd hc (by decide)
          rw [hscan, scanFrom, if_neg hhash, if_pos hc]
      · have hstay : Cursor.skipBlanks src pos line = ⟨pos, line⟩ := by
          rw [Cursor.skipBlanks]
          split
          · next b' hb' =>
            obtain rfl := Option.some.inj (hb.symm.trans hb')
            rw [hclass _ isAscii_isBlank, if_neg hc]
          · rfl
        refine ⟨_, c :: cs, hstay, h, rfl, fun d hd => ?_⟩
        obtain rfl := Option.some.inj hd
        exact Bool.eq_false_iff.mpr hc

end At

/-! ### Calls for tokens -/

/-- The line of what comes next. -/
theorem TokenStream.line_eq (stream : TokenStream) :
    stream.line = stream.tokens.head?.elim stream.endLine Token.line := by
  unfold line
  cases stream.tokens <;> rfl

/-- **One call for a token.** Where the cursor stands between two characters, the call comes to no
error. It answers the first token of what is left, or its end, and then the cursor stands between
two characters again, in front of the other tokens. -/
theorem next_at {src : List UInt8} {cursor : Cursor} {rest : List Char}
    (h : At src cursor.pos rest) :
    ∃ cursor' rest', Cursor.next src cursor
        = some (((scanFrom cursor.line rest).current?, (scanFrom cursor.line rest).line), cursor') ∧
      At src cursor'.pos rest' ∧
      scanFrom cursor'.line rest' = (scanFrom cursor.line rest).tail := by
  obtain ⟨start, rest', hskip, hat, hscan, hfirst⟩ := h.skipBlanks cursor.line
  unfold Cursor.next
  rw [hskip, ← hscan]
  dsimp only
  cases rest' with
  | nil =>
      have hnone : src[start.pos]? = none := hat.peek
      rw [hnone, scanFrom]
      exact ⟨_, [], rfl, hat, by rw [scanFrom]; rfl⟩
  | cons c cs =>
      obtain ⟨b, hb, hclass, -⟩ := hat.first
      have hblank : isBlank c = false := hfirst c rfl
      -- A byte in the middle of a character is never taken for the mark.
      have hmark : (byteChar b == '#') = (c == '#') := hclass (· == '#') fun d hd => by
        rw [beq_iff_eq.mp hd]
        decide
      rw [hb, scanFrom]
      dsimp only
      by_cases hhash : c = '#'
      · have hbyte : byteChar b = '#' := by
          rw [hhash] at hmark
          exact beq_iff_eq.mp hmark
        rw [if_pos hbyte, if_pos hhash]
        exact ⟨_, [], rfl, .finish src, by rw [scanFrom]; rfl⟩
      · have hbyte : byteChar b ≠ '#' := by
          rw [beq_false_of_ne hhash] at hmark
          exact ne_of_beq_false hmark
        obtain ⟨stop, hlexeme, hstop⟩ := hat.lexeme? hb
        rw [if_neg hbyte, if_neg hhash, if_neg (ne_true_of_eq_false hblank), hlexeme]
        exact ⟨_, _, rfl, hstop, rfl⟩

/-- **The cursor scans the source.** However many calls were made, none came to an error and the
cursor stands between two characters. The next call answers the token of the source that is next,
with its line, and behind the last token the end of the source. -/
theorem cursor_scans (source : String) (calls : Nat) :
    ∃ cursor cursor', Cursor.after (bytesOf source.toList) calls = some cursor ∧
      Cursor.isBoundary (bytesOf source.toList) cursor.pos = true ∧
      Cursor.next (bytesOf source.toList) cursor
        = some (((scan source).tokens[calls]?.map Token.lexeme,
            (scan source).tokens[calls]?.elim (scan source).endLine Token.line), cursor') := by
  -- By induction on the calls: the cursor stands where the scanner of the text has come to.
  have hreached : ∃ cursor rest, Cursor.after (bytesOf source.toList) calls = some cursor ∧
      At (bytesOf source.toList) cursor.pos rest ∧
      scanFrom cursor.line rest
        = { scan source with tokens := (scan source).tokens.drop calls } := by
    induction calls with
    | zero => exact ⟨⟨0, 1⟩, source.toList, rfl, .start _, rfl⟩
    | succ calls ih =>
        obtain ⟨cursor, rest, hafter, hat, hscan⟩ := ih
        obtain ⟨cursor', rest', hnext, hat', hscan'⟩ := next_at hat
        refine ⟨cursor', rest', ?_, hat', ?_⟩
        · rw [Cursor.after, hafter, Option.bind_some, hnext]
          rfl
        · rw [hscan', hscan, TokenStream.tail, List.tail_drop]
  obtain ⟨cursor, rest, hafter, hat, hscan⟩ := hreached
  obtain ⟨cursor', -, hnext, -⟩ := next_at hat
  refine ⟨cursor, cursor', hafter, hat.isBoundary, ?_⟩
  rw [hnext, hscan, TokenStream.line_eq, TokenStream.current?, List.head?_drop]

end ThreeAddress
