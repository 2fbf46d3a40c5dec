import ThreeAddress.Decimal
import ThreeAddress.Operator

/-!
# Lexemes and tokens

A source text is a sequence of lexemes. A token is a lexeme with the line on
which it starts, and a token stream is what is left to read: the tokens, and
the line on which the source ends.

Each lexeme has two texts. `Lexeme.text` is how it is written in a source.
`Lexeme.describe` is how a diagnostic names it.
-/

set_option autoImplicit false

namespace ThreeAddress

/-! ### Lexemes -/

/-- The reserved words. -/
inductive Keyword where
  | programKw
  | beginKw
  | endKw
  | ifKw
  | thenKw
  | whileKw
  | doKw
  | constKw
  | varKw
deriving DecidableEq, Repr, Inhabited

namespace Keyword

/-- All reserved words. -/
def all : List Keyword :=
  [programKw, beginKw, endKw, ifKw, thenKw, whileKw, doKw, constKw, varKw]

/-- A reserved word as it is written. -/
def text : Keyword → String
  | programKw => "PROGRAM"
  | beginKw => "BEGIN"
  | endKw => "END"
  | ifKw => "IF"
  | thenKw => "THEN"
  | whileKw => "WHILE"
  | doKw => "DO"
  | constKw => "CONST"
  | varKw => "VAR"

/-- The reserved word that is written `word`. Case counts. -/
def ofText? (word : String) : Option Keyword :=
  all.find? (·.text = word)

end Keyword

/-- The marks that are no operator. -/
inductive Punctuation where
  | becomes
  | lparen
  | rparen
  | comma
  | semicolon
deriving DecidableEq, Repr, Inhabited

/-- A mark as it is written. -/
def Punctuation.text : Punctuation → String
  | .becomes => ":="
  | .lparen => "("
  | .rparen => ")"
  | .comma => ","
  | .semicolon => ";"

/-- The words of the language. A number keeps its digits as they are written,
so that a diagnostic can show them. Every character that starts no other
lexeme is a lexeme of its own. -/
inductive Lexeme where
  | ident (name : String)
  | number (digits : String)
  | keyword (word : Keyword)
  | arith (op : ArithOp)
  | relation (op : RelOp)
  | punct (mark : Punctuation)
  | unknown (char : Char)
deriving DecidableEq, Repr, Inhabited

namespace Lexeme

/-- A lexeme as it is written in a source. -/
def text : Lexeme → String
  | ident name => name
  | number digits => digits
  | keyword word => word.text
  | arith op => op.symbol
  | relation op => op.symbol
  | punct mark => mark.text
  | unknown char => String.singleton char

/-- The operand that a number stands for, in decimal without leading zeros. -/
def literalText (digits : String) : String :=
  toString (Decimal.literal digits.toList)

/-- How a diagnostic names a lexeme. A number is named by its value. -/
def describe : Lexeme → String
  | ident name => s!"identifier '{name}'"
  | number digits => s!"number {literalText digits}"
  | unknown char => s!"unrecognised character '{char}'"
  | keyword word => s!"'{word.text}'"
  | arith op => s!"'{op.symbol}'"
  | relation op => s!"'{op.symbol}'"
  | punct mark => s!"'{mark.text}'"

/-- How a diagnostic names what stands next, `none` being the end. -/
def describe? : Option Lexeme → String
  | some lexeme => lexeme.describe
  | none => "end of input"

end Lexeme

/-! ### Tokens -/

/-- A lexeme and the line on which it starts. Lines are counted from one. -/
structure Token where
  lexeme : Lexeme
  line : Nat
deriving DecidableEq, Repr, Inhabited

/-- The tokens that are still to be read and the line of the end of input. -/
structure TokenStream where
  tokens : List Token
  endLine : Nat
deriving DecidableEq, Repr, Inhabited

namespace TokenStream

/-- The lexeme to be read next, `none` at the end. -/
def current? (stream : TokenStream) : Option Lexeme :=
  stream.tokens.head?.map Token.lexeme

/-- The line of what is to be read next. -/
def line (stream : TokenStream) : Nat :=
  match stream.tokens with
  | token :: _ => token.line
  | [] => stream.endLine

/-- The stream after its next token. At the end nothing changes. -/
def tail (stream : TokenStream) : TokenStream :=
  { stream with tokens := stream.tokens.tail }

/-- The stream with one token before it. -/
def cons (token : Token) (stream : TokenStream) : TokenStream :=
  { stream with tokens := token :: stream.tokens }

/-- Nothing stands next exactly when no token is left. -/
theorem current?_eq_none_iff (stream : TokenStream) :
    stream.current? = none ↔ stream.tokens = [] := by
  cases h : stream.tokens <;> simp [current?, h]

end TokenStream

end ThreeAddress
