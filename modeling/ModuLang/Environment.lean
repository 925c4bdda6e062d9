import ModuLang.Heap

/-!
# Environments

An environment binds names to values and remembers which names were bound since it was made. There
is no chain of scopes: a call works on a clone, in which every object is copied, so nothing that the
call binds or changes can be seen outside it.
-/

namespace ModuLang

/-- The bindings, and the names bound since the environment was made, in order. -/
structure Environment where
  vars : Table Value := .empty
  bound : List String := []

instance : Inhabited Environment := ⟨{}⟩

namespace Environment

/-- Binds a name. -/
def define (env : Environment) (name : String) (value : Value) : Environment where
  vars := env.vars.insert name value
  bound := if env.bound.contains name then env.bound else env.bound ++ [name]

/-- Binds names one after the other. -/
def update (env : Environment) (bindings : List (String × Value)) : Environment :=
  bindings.foldl (fun env binding => env.define binding.1 binding.2) env

/-- The environment that starts with some bindings, none of which counts as bound since. -/
def ofList (bindings : List (String × Value)) : Environment :=
  { vars := Table.ofList bindings }

/-- The value of a name. -/
def get? (env : Environment) (name : String) : Option Value :=
  env.vars.get? name

/-- Whether a name is bound. -/
def contains (env : Environment) (name : String) : Bool :=
  env.vars.contains name

/-- The value of a name, which is null where the name is not bound. -/
def lookup (env : Environment) (name : String) : Value :=
  (env.get? name).getD .null

/-- The value of a name that has to be bound; `what` says what it should name. -/
def require (env : Environment) (what name : String) : Except Cause Value :=
  match env.get? name with
  | some value => .ok value
  | none => .error (.notFound what name)

/-- The bindings made since the environment was made. -/
def boundSinceCreation (env : Environment) : List (String × Value) :=
  env.bound.filterMap fun name => (env.get? name).map fun value => (name, value)

/-- A copy of the environment and of all objects that it reaches; one object stays one object. -/
def clone (env : Environment) (h : Heap) : Environment × Heap :=
  let (moved, h') := h.copy (env.vars.entries.map Prod.snd)
  ({ vars := env.vars.map (Value.rename moved) }, h')

end Environment

end ModuLang
