import MicroGo.Program.Basic

/-!
# Scopes

A scope remembers which variable a name stands for.  Scopes nest, and a name stands for the
variable of the innermost scope that knows it.  A scope knows a name at most once; an inner scope
may know a name again, and hides the outer variable until it is closed.
-/

namespace MicroGo

/-- The names of one block, the latest first. -/
abbrev Scope := List (String × VarId)

/-- The scope knows the name. -/
def Scope.knows (scope : Scope) (name : String) : Bool :=
  (scope.lookup name).isSome

/-- The open scopes, the innermost first. -/
abbrev Scopes := List Scope

namespace Scopes

/-- The variable that a name stands for. -/
def find? (scopes : Scopes) (name : String) : Option VarId :=
  scopes.findSome? (List.lookup name)

end Scopes
end MicroGo
