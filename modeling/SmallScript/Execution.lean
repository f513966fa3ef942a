import SmallScript.Evaluation

/-!
Execution of statements in order, up to the first fault. A block has a scope of its own, which is
left however the block ends.
-/
namespace SmallScript

/-- The lines that an execution printed, the fault that ended it, and the scope it leaves behind. -/
structure Execution where
  output : List String
  fault? : Option Fault
  scope : Scope

/-- Evaluate for a statement: go on with the value, or stop at the fault with nothing printed. -/
def Evaluation.execute (a : Evaluation) (next : Value → Scope → Execution) : Execution :=
  match a.result with
  | .ok v => next v a.scope
  | .error f => ⟨[], some f, a.scope⟩

/-- Go on after an execution, unless it ended in a fault. -/
def Execution.andThen (x : Execution) (next : Scope → Execution) : Execution :=
  match x.fault? with
  | some _ => x
  | none =>
    let y := next x.scope
    ⟨x.output ++ y.output, y.fault?, y.scope⟩

mutual

def execute : Stmt → Scope → Execution
  | .print e, s => (evaluate e s).execute fun v t => ⟨[v.text], none, t⟩
  | .expression e, s => (evaluate e s).execute fun _ t => ⟨[], none, t⟩
  | .declare name none, s => ⟨[], none, s.define name.lexeme .nil⟩
  | .declare name (some e), s =>
    (evaluate e s).execute fun v t => ⟨[], none, t.define name.lexeme v⟩
  | .block body, s =>
    let x := executeAll body s.enter
    ⟨x.output, x.fault?, x.scope.leave⟩

def executeAll : List Stmt → Scope → Execution
  | [], s => ⟨[], none, s⟩
  | first :: rest, s => (execute first s).andThen (executeAll rest)

end

end SmallScript
