import ThreeAddress.Token

/-!
# From source text to tokens

A source is blanks and lexemes in turn, up to the first `#` or the end of the
text. At each position the longest lexeme wins: a word takes all letters and
digits that follow its first letter, a number takes all digits, and the pairs
`:=`, `<=`, `<>` and `>=` are tried before their first character alone. Letters
and digits are those of ASCII; every other character is a lexeme of its own.

`munch` reads one lexeme and `length_munch_lt` says that it uses up at least
one character, on which the recursion of `scanFrom` rests.

The text is read by characters here. A cursor that reads it by bytes delivers the
same tokens (`cursor_scans`).
-/

set_option autoImplicit false

namespace ThreeAddress

/-! ### One lexeme -/

namespace Lexeme

/-- The lexeme that a word is: a keyword, or else a name. -/
def ofWord (word : List Char) : Lexeme :=
  match Keyword.ofText? (String.ofList word) with
  | some reserved => .keyword reserved
  | none => .ident (String.ofList word)

/-- The lexeme that two characters form together. -/
def pair? : Char → Char → Option Lexeme
  | ':', '=' => some (.punct .becomes)
  | '<', '=' => some (.relation .le)
  | '<', '>' => some (.relation .ne)
  | '>', '=' => some (.relation .ge)
  | _, _ => none

/-- The lexeme that a character other than a letter or digit forms alone. -/
def single : Char → Lexeme
  | '+' => .arith .add
  | '-' => .arith .sub
  | '*' => .arith .mul
  | '/' => .arith .div
  | '(' => .punct .lparen
  | ')' => .punct .rparen
  | ',' => .punct .comma
  | ';' => .punct .semicolon
  | '=' => .relation .eq
  | '<' => .relation .lt
  | '>' => .relation .gt
  | other => .unknown other

/-- The operator, mark or unknown character that starts with `c`, and what
follows it. -/
def munchSymbol (c : Char) (cs : List Char) : Lexeme × List Char :=
  match cs with
  | [] => (single c, [])
  | d :: rest =>
    match pair? c d with
    | some lexeme => (lexeme, rest)
    | none => (single c, d :: rest)

/-- The longest lexeme that starts with `c`, and what follows it. -/
def munch (c : Char) (cs : List Char) : Lexeme × List Char :=
  if c.isAlpha then
    (ofWord (c :: cs.takeWhile Char.isAlphanum), cs.dropWhile Char.isAlphanum)
  else if c.isDigit then
    (.number (String.ofList (c :: cs.takeWhile Char.isDigit)), cs.dropWhile Char.isDigit)
  else
    munchSymbol c cs

/-- Dropping characters leaves no more of them. -/
theorem length_dropWhile_le (p : Char → Bool) (cs : List Char) :
    (cs.dropWhile p).length ≤ cs.length :=
  (List.dropWhile_sublist p).length_le

/-- A symbol takes nothing beyond the text it stands in. -/
theorem length_munchSymbol_le (c : Char) (cs : List Char) :
    (munchSymbol c cs).2.length ≤ cs.length := by
  unfold munchSymbol
  split
  · simp
  · split <;> simp

/-- A lexeme takes nothing beyond the text it stands in. -/
theorem length_munch_le (c : Char) (cs : List Char) :
    (munch c cs).2.length ≤ cs.length := by
  unfold munch
  split
  · exact length_dropWhile_le _ cs
  · split
    · exact length_dropWhile_le _ cs
    · exact length_munchSymbol_le c cs

/-- A lexeme uses up at least its first character. -/
theorem length_munch_lt (c : Char) (cs : List Char) :
    (munch c cs).2.length < (c :: cs).length :=
  Nat.lt_succ_of_le (length_munch_le c cs)

end Lexeme

/-! ### The whole source -/

/-- The characters that separate lexemes: space, tab, line feed, form feed and
carriage return. The vertical tab is not one of them. -/
def isBlank (c : Char) : Bool :=
  c = ' ' || c = '\t' || c = '\n' || c = '\x0c' || c = '\r'

/-- The line after `c`, if `c` stands on `line`. Only a line feed ends a
line. -/
def lineAfter (line : Nat) (c : Char) : Nat :=
  if c = '\n' then line + 1 else line

/-- The tokens of `cs`, whose first character stands on `line`. -/
def scanFrom (line : Nat) (cs : List Char) : TokenStream :=
  match cs with
  | [] => ⟨[], line⟩
  | c :: cs =>
    if c = '#' then ⟨[], line⟩
    else if isBlank c then scanFrom (lineAfter line c) cs
    else (scanFrom line (Lexeme.munch c cs).2).cons ⟨(Lexeme.munch c cs).1, line⟩
termination_by cs.length
decreasing_by
  · simp
  · exact Lexeme.length_munch_lt c cs

/-- The tokens of a source text. -/
def scan (source : String) : TokenStream :=
  scanFrom 1 source.toList

end ThreeAddress
