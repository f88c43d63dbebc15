/-!
Variables of the host program. A variable is a name seen through a scope; two scopes may share one
storage, and the frame of a run decides which.
-/

namespace AffineLoops

/-- How the host program reaches a variable. -/
inductive Scope where
  | name
  | global
  | fast
  | deref
  deriving DecidableEq, Repr

namespace Scope

def label : Scope → String
  | .name => "name"
  | .global => "global"
  | .fast => "fast"
  | .deref => "deref"

def all : List Scope := [.name, .global, .fast, .deref]

def ofLabel? (text : String) : Option Scope := all.find? fun scope => scope.label = text

end Scope

/-- A name in a scope. -/
structure Variable where
  scope : Scope
  name : String
  deriving DecidableEq, Repr

def Variable.text (v : Variable) : String := v.scope.label ++ ":" ++ v.name

end AffineLoops
