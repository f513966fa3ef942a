import SmallScript.Scope

/-!
Histories of a scope: what can be done to it one action at a time, and what each action gives.
-/
namespace SmallScript.Scope

inductive Action where
  | enter
  | leave
  | define (name : String) (value : Value)
  | lookup (name : Token)
  | assign (name : Token) (value : Value)
  deriving DecidableEq, Repr

/-- What an action gives, a value or a fault or nothing, and the scope after it. -/
structure Effect where
  result : Except Fault (Option Value)
  scope : Scope

/-- Carry out an action. One that fails leaves the scope as it was. -/
def Action.perform (s : Scope) : Action → Effect
  | enter => ⟨.ok none, s.enter⟩
  | leave => ⟨.ok none, s.leave⟩
  | define name v => ⟨.ok none, s.define name v⟩
  | lookup name => ⟨(s.lookup name).map some, s⟩
  | assign name v =>
    match s.assign name v with
    | .ok t => ⟨.ok none, t⟩
    | .error f => ⟨.error f, s⟩

/-- The effects of actions carried out in turn. -/
def Action.performAll (s : Scope) : List Action → List Effect
  | [] => []
  | a :: rest => a.perform s :: performAll (a.perform s).scope rest

end SmallScript.Scope
