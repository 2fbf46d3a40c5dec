import ThreeAddress.Generate.Basic

/-!
# The limit on nesting

Each statement and each expression is one level inside the construct that
holds it. A construct beyond the limit is not read: it is skipped up to the
token that closes it, and the first time this is reported.

`constructLength` says how many tokens are skipped. Reading `BEGIN` and `(` as
opening and `END` and `)` as closing, of whatever kind, these are all tokens
before the first `;`, `END` or `)` that stands outside everything opened on the
way.
-/

set_option autoImplicit false

namespace ThreeAddress

/-- The part that a lexeme plays in the bracketing of a program. -/
inductive Bracketing where
  /-- It opens a bracket: `BEGIN` and `(`. -/
  | opens
  /-- It closes a bracket: `END` and `)`. -/
  | closes
  /-- It separates what stands in a bracket: `;`. -/
  | separates
  | none
deriving DecidableEq, Repr, Inhabited

/-- The part that a lexeme plays in the bracketing. -/
def Lexeme.bracketing : Lexeme → Bracketing
  | .keyword .beginKw => .opens
  | .punct .lparen => .opens
  | .keyword .endKw => .closes
  | .punct .rparen => .closes
  | .punct .semicolon => .separates
  | _ => .none

/-- The number of tokens before the one that ends the current construct, when
`opened` brackets are open. -/
def constructLength : Nat → List Token → Nat
  | _, [] => 0
  | opened, token :: rest =>
    match token.lexeme.bracketing, opened with
    | .opens, opened => constructLength (opened + 1) rest + 1
    -- The bracket is one in which the construct itself stands.
    | .closes, 0 => 0
    | .closes, opened + 1 => constructLength opened rest + 1
    | .separates, 0 => 0
    | .separates, opened + 1 => constructLength (opened + 1) rest + 1
    | .none, opened => constructLength opened rest + 1

namespace Generate

/-- Moves past a number of tokens. -/
def skip : Nat → Generate Unit
  | 0 => pure ()
  | count + 1 => do
    advance
    skip count

/-- Moves to the token that ends the current construct. -/
def skipConstruct : Generate Unit := do
  skip (constructLength 0 (← get).input.tokens)

/-- Enters one level of nesting, and says whether the limit allows it. If not,
the construct at the current token is skipped. -/
def descend : Generate Bool := do
  let max := (← read).maxDepth.toNat
  if (← get).depth < max then
    modify fun s => { s with depth := s.depth + 1 }
    return true
  else
    -- Constructs refused later are skipped without a report.
    unless (← get).depthReported do
      modify fun s => { s with depthReported := true }
      report (.nestingTooDeep max)
    skipConstruct
    return false

/-- Leaves one level of nesting. -/
def ascend : Generate Unit := do
  match (← get).depth with
  | 0 => throw .unbalancedNesting
  | depth + 1 => modify fun s => { s with depth }

end Generate

end ThreeAddress
