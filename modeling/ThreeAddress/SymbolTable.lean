/-!
# Declared names

The language has one scope. The table lists each declared name once, in the
order of the first declarations, with the kind and the line of the first
declaration. A later declaration of the same name changes nothing.
-/

set_option autoImplicit false

namespace ThreeAddress

/-- What a name is declared as. -/
inductive SymbolKind where
  | const
  | var
deriving DecidableEq, Repr, Inhabited

/-- A kind as it is shown. -/
def SymbolKind.text : SymbolKind → String
  | const => "constant"
  | var => "variable"

/-- One declared name. -/
structure Symbol where
  name : String
  kind : SymbolKind
  line : Nat
deriving DecidableEq, Repr, Inhabited

/-- A declared name as the dump of the table shows it. -/
def Symbol.render (entry : Symbol) : String :=
  s!"name: {entry.name}, kind: {entry.kind.text}"

/-- The declared names in the order of their first declarations. -/
structure SymbolTable where
  entries : Array Symbol
deriving DecidableEq, Repr, Inhabited

namespace SymbolTable

/-- The table without names. -/
def empty : SymbolTable := ⟨#[]⟩

/-- The entry of a name. -/
def find? (table : SymbolTable) (name : String) : Option Symbol :=
  table.entries.find? (·.name = name)

/-- Whether a name is declared. -/
def contains (table : SymbolTable) (name : String) : Bool :=
  (table.find? name).isSome

/-- The kind of a name. -/
def kindOf? (table : SymbolTable) (name : String) : Option SymbolKind :=
  (table.find? name).map Symbol.kind

/-- Adds an entry at the end, or answers `none` if its name is taken. -/
def declare? (table : SymbolTable) (entry : Symbol) : Option SymbolTable :=
  if table.contains entry.name then none else some ⟨table.entries.push entry⟩

/-- The dump of the table, one name on each line. -/
def render (table : SymbolTable) : String :=
  String.join (table.entries.toList.map fun entry => entry.render ++ "\n")

/-- The empty table has no entry. -/
@[simp] theorem find?_empty (name : String) : empty.find? name = none := rfl

/-- A declaration fails exactly when the name is declared. -/
theorem declare?_eq_none_iff (table : SymbolTable) (entry : Symbol) :
    table.declare? entry = none ↔ table.contains entry.name = true := by
  unfold declare?; split <;> simp_all

/-- After a declaration the name has the declared entry, and every other name
has the entry it had. -/
theorem find?_declare? {table after : SymbolTable} {entry : Symbol}
    (h : table.declare? entry = some after) (name : String) :
    after.find? name = if entry.name = name then some entry else table.find? name := by
  unfold declare? contains at h
  split at h
  · simp at h
  · next hfree =>
    obtain rfl := Option.some.inj h
    have hnone : table.entries.find? (·.name = entry.name) = none := by
      simpa [find?] using hfree
    by_cases hn : entry.name = name
    · subst hn
      simp only [find?, Array.find?_push, hnone]
      simp
    · simp [find?, Array.find?_push, hn]

end SymbolTable

end ThreeAddress
