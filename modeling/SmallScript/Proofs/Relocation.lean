import SmallScript.Execution
import SmallScript.Source.Tokens
import SmallScript.Syntax.Statement

/-!
Programs on other lines. A line is read only to report it: a program whose tokens are moved to
other lines runs as before, and only the line of its fault moves with them.
-/
namespace SmallScript

variable (move : Nat → Nat)

/-- The same token on the line to which its own is moved. -/
def Token.relocate (t : Token) : Token := { t with line := move t.line }

@[simp] theorem Token.kind_relocate (t : Token) : (t.relocate move).kind = t.kind := rfl

@[simp] theorem Token.lexeme_relocate (t : Token) : (t.relocate move).lexeme = t.lexeme := rfl

namespace Expr

/-- The same expression with its tokens moved. -/
def relocate : Expr → Expr
  | literal v => literal v
  | grouping e => grouping e.relocate
  | unary op e => unary (op.relocate move) e.relocate
  | binary l op r => binary l.relocate (op.relocate move) r.relocate
  | var name => var (name.relocate move)
  | assign name e => assign (name.relocate move) e.relocate

end Expr

mutual

/-- The same statement with its tokens moved. -/
def Stmt.relocate : Stmt → Stmt
  | .print e => .print (e.relocate move)
  | .expression e => .expression (e.relocate move)
  | .declare name initializer =>
    .declare (name.relocate move) (initializer.map (Expr.relocate move))
  | .block body => .block (Stmt.relocateAll body)

def Stmt.relocateAll : List Stmt → List Stmt
  | [] => []
  | first :: rest => first.relocate :: Stmt.relocateAll rest

end

theorem Stmt.relocateAll_append (first rest : List Stmt) :
    relocateAll move (first ++ rest) = relocateAll move first ++ relocateAll move rest := by
  induction first with
  | nil => rfl
  | cons s first ih => rw [List.cons_append, relocateAll, relocateAll, ih, List.cons_append]

/-- The same message about the line to which its own is moved. -/
def Diagnostic.relocate (d : Diagnostic) : Diagnostic := { d with line := move d.line }

def LexicalFault.relocate (f : LexicalFault) : LexicalFault := { f with line := move f.line }

def SyntaxFault.relocate (f : SyntaxFault) : SyntaxFault :=
  { f with token := f.token.relocate move }

def Fault.relocate : Fault → Fault
  | operand op cause => operand (op.relocate move) cause
  | undefined name => undefined (name.relocate move)
  | unknownOperator op => unknownOperator (op.relocate move)

theorem LexicalFault.diagnostic_relocate (f : LexicalFault) :
    (f.relocate move).diagnostic = f.diagnostic.relocate move := rfl

theorem SyntaxFault.diagnostic_relocate (f : SyntaxFault) :
    (f.relocate move).diagnostic = f.diagnostic.relocate move := rfl

theorem Fault.diagnostic_relocate (f : Fault) :
    (f.relocate move).diagnostic = f.diagnostic.relocate move := by
  cases f <;> rfl

theorem Scope.lookup_relocate (name : Token) (s : Scope) :
    s.lookup (name.relocate move) = (s.lookup name).mapError (Fault.relocate move) := by
  unfold lookup
  rw [Token.lexeme_relocate]
  split <;> rfl

theorem Scope.assign_relocate (name : Token) (v : Value) (s : Scope) :
    s.assign (name.relocate move) v = (s.assign name v).mapError (Fault.relocate move) := by
  unfold assign
  rw [Token.lexeme_relocate]
  split <;> rfl

theorem applyUnary_relocate (op : Token) (v : Value) :
    applyUnary (op.relocate move) v = (applyUnary op v).mapError (Fault.relocate move) := by
  unfold applyUnary
  rw [Token.kind_relocate]
  split <;> rfl

theorem applyNumeric_relocate (op : Token) (f : Float → Float → Value) (l r : Value) :
    applyNumeric (op.relocate move) f l r =
      (applyNumeric op f l r).mapError (Fault.relocate move) := by
  unfold applyNumeric
  split <;> rfl

theorem applyPlus_relocate (op : Token) (l r : Value) :
    applyPlus (op.relocate move) l r = (applyPlus op l r).mapError (Fault.relocate move) := by
  unfold applyPlus
  split <;> rfl

theorem applyBinary_relocate (op : Token) (l r : Value) :
    applyBinary (op.relocate move) l r = (applyBinary op l r).mapError (Fault.relocate move) := by
  unfold applyBinary
  rw [Token.kind_relocate]
  split
  case h_3 => exact applyPlus_relocate move op l r
  case h_1 | h_2 | h_11 => rfl
  all_goals exact applyNumeric_relocate move op _ l r

/-- The same outcome, with its fault moved. -/
def Evaluation.relocate (a : Evaluation) : Evaluation :=
  ⟨a.result.mapError (Fault.relocate move), a.scope⟩

/-- The same outcome, with its fault moved. -/
def Execution.relocate (x : Execution) : Execution :=
  ⟨x.output, x.fault?.map (Fault.relocate move), x.scope⟩

theorem mapError_ok (g : Fault → Fault) (v : α) :
    (.ok v : Except Fault α).mapError g = .ok v := rfl

theorem evaluate_relocate (e : Expr) (s : Scope) :
    evaluate (e.relocate move) s = (evaluate e s).relocate move := by
  induction e generalizing s with
  | literal v => rfl
  | grouping e ih => exact ih s
  | unary op e ih =>
    rw [Expr.relocate, evaluate, evaluate, ih s, Evaluation.relocate]
    cases (evaluate e s).result with
    | ok v => exact congrArg (Evaluation.mk · _) (applyUnary_relocate move op v)
    | error f => rfl
  | binary l op r ihl ihr =>
    rw [Expr.relocate, evaluate, evaluate, ihl s, Evaluation.relocate]
    cases (evaluate l s).result with
    | error f => rfl
    | ok v =>
      simp only [mapError_ok]
      rw [ihr, Evaluation.relocate]
      cases (evaluate r (evaluate l s).scope).result with
      | ok w => exact congrArg (Evaluation.mk · _) (applyBinary_relocate move op v w)
      | error f => rfl
  | var name => exact congrArg (Evaluation.mk · s) (Scope.lookup_relocate move name s)
  | assign name e ih =>
    rw [Expr.relocate, evaluate, evaluate, ih s, Evaluation.relocate]
    cases (evaluate e s).result with
    | error f => rfl
    | ok v =>
      simp only [mapError_ok, Scope.assign_relocate]
      cases (evaluate e s).scope.assign name v with
      | ok t => rfl
      | error f => rfl

theorem Evaluation.execute_relocate (a : Evaluation) {next : Value → Scope → Execution}
    (h : ∀ v s, (next v s).relocate move = next v s) :
    (a.relocate move).execute next = (a.execute next).relocate move := by
  obtain ⟨result, s⟩ := a
  cases result with
  | ok v => exact (h v s).symm
  | error f => rfl

theorem Execution.andThen_relocate (x : Execution) (next next' : Scope → Execution)
    (h : ∀ s, next' s = (next s).relocate move) :
    (x.relocate move).andThen next' = (x.andThen next).relocate move := by
  obtain ⟨output, fault?, s⟩ := x
  cases fault? with
  | some f => rfl
  | none =>
    change Execution.mk (output ++ (next' s).output) (next' s).fault? (next' s).scope = _
    rw [h]
    rfl

mutual

theorem execute_relocate :
    (st : Stmt) → (s : Scope) → execute (st.relocate move) s = (execute st s).relocate move
  | .print e, s | .expression e, s => by
    rw [Stmt.relocate, execute, execute, evaluate_relocate]
    exact Evaluation.execute_relocate move _ fun _ _ => rfl
  | .declare name (some e), s => by
    rw [Stmt.relocate, Option.map_some, execute, execute, evaluate_relocate]
    exact Evaluation.execute_relocate move _ fun _ _ => rfl
  | .declare name none, s => rfl
  | .block body, s => by
    rw [Stmt.relocate, execute, execute, executeAll_relocate body s.enter]
    rfl

theorem executeAll_relocate : (body : List Stmt) → (s : Scope) →
    executeAll (Stmt.relocateAll move body) s = (executeAll body s).relocate move
  | [], _ => rfl
  | first :: rest, s => by
    rw [Stmt.relocateAll, executeAll, executeAll, execute_relocate first s]
    exact Execution.andThen_relocate move _ _ _ (executeAll_relocate rest)

end

end SmallScript
