import SmallScript.Syntax.Tree

/-!
Syntax trees as lists of nodes in postorder: children from left to right, then their parent.
A list of nodes determines the trees, which two stacks put together again.
-/
namespace SmallScript

/-- A node of a tree without its children. -/
inductive Node where
  | literal (value : Value)
  | grouping
  | unary (operator : Token)
  | binary (operator : Token)
  | var (name : Token)
  | assign (name : Token)
  | print
  | expression
  | declare (name : Token) (initialized : Bool)
  | block (size : Nat)
  deriving DecidableEq, Repr

def Expr.postorder : Expr → List Node
  | .literal v => [.literal v]
  | .grouping e => e.postorder ++ [.grouping]
  | .unary op e => e.postorder ++ [.unary op]
  | .binary l op r => l.postorder ++ r.postorder ++ [.binary op]
  | .var name => [.var name]
  | .assign name e => e.postorder ++ [.assign name]

mutual

def Stmt.postorder : Stmt → List Node
  | .print e => e.postorder ++ [.print]
  | .expression e => e.postorder ++ [.expression]
  | .declare name (some e) => e.postorder ++ [.declare name true]
  | .declare name none => [.declare name false]
  | .block body => Stmt.postorderAll body ++ [.block body.length]

def Stmt.postorderAll : List Stmt → List Node
  | [] => []
  | s :: rest => s.postorder ++ Stmt.postorderAll rest

end

/-- The trees put together so far, the latest first. -/
structure Forest where
  exprs : List Expr
  stmts : List Stmt

namespace Forest

def empty : Forest := ⟨[], []⟩

/-- Let a node take its children off the forest and join it. -/
def add? (f : Forest) : Node → Option Forest
  | .literal v => some { f with exprs := .literal v :: f.exprs }
  | .var name => some { f with exprs := .var name :: f.exprs }
  | .grouping =>
    match f.exprs with
    | e :: es => some { f with exprs := .grouping e :: es }
    | _ => none
  | .unary op =>
    match f.exprs with
    | e :: es => some { f with exprs := .unary op e :: es }
    | _ => none
  | .binary op =>
    match f.exprs with
    | r :: l :: es => some { f with exprs := .binary l op r :: es }
    | _ => none
  | .assign name =>
    match f.exprs with
    | e :: es => some { f with exprs := .assign name e :: es }
    | _ => none
  | .print =>
    match f.exprs with
    | e :: es => some ⟨es, .print e :: f.stmts⟩
    | _ => none
  | .expression =>
    match f.exprs with
    | e :: es => some ⟨es, .expression e :: f.stmts⟩
    | _ => none
  | .declare name false => some { f with stmts := .declare name none :: f.stmts }
  | .declare name true =>
    match f.exprs with
    | e :: es => some ⟨es, .declare name (some e) :: f.stmts⟩
    | _ => none
  | .block size =>
    if size ≤ f.stmts.length then
      some { f with stmts := .block (f.stmts.take size).reverse :: f.stmts.drop size }
    else none

/-- Add nodes from left to right. -/
def addAll? (f : Forest) : List Node → Option Forest
  | [] => some f
  | n :: rest => (f.add? n).bind fun g => g.addAll? rest

@[simp] theorem addAll?_nil (f : Forest) : f.addAll? [] = some f := rfl

@[simp] theorem addAll?_cons (f : Forest) (n : Node) (rest : List Node) :
    f.addAll? (n :: rest) = (f.add? n).bind fun g => g.addAll? rest := rfl

theorem addAll?_append (f : Forest) (ms ns : List Node) :
    f.addAll? (ms ++ ns) = (f.addAll? ms).bind fun g => g.addAll? ns := by
  induction ms generalizing f with
  | nil => rfl
  | cons m ms ih => cases h : f.add? m <;> simp [h, ih]

/-- The nodes of an expression leave that expression on the forest. -/
theorem addAll?_postorder (f : Forest) (e : Expr) :
    f.addAll? e.postorder = some { f with exprs := e :: f.exprs } := by
  induction e generalizing f with
  | literal v => simp [Expr.postorder, add?]
  | grouping e ih => simp [Expr.postorder, addAll?_append, ih, add?]
  | unary op e ih => simp [Expr.postorder, addAll?_append, ih, add?]
  | binary l op r ihl ihr => simp [Expr.postorder, addAll?_append, ihl, ihr, add?]
  | var name => simp [Expr.postorder, add?]
  | assign name e ih => simp [Expr.postorder, addAll?_append, ih, add?]

end Forest

/-- The statements that these nodes make up, or nothing if a node lacks a child. Expressions that
no statement took are left out. -/
def Stmt.ofNodes? (nodes : List Node) : Option (List Stmt) :=
  (Forest.empty.addAll? nodes).map fun f => f.stmts.reverse

mutual

/-- The nodes of a statement leave that statement on the forest. -/
theorem Forest.addAll?_postorder_stmt (f : Forest) :
    (s : Stmt) → f.addAll? s.postorder = some { f with stmts := s :: f.stmts }
  | .print e => by simp [Stmt.postorder, addAll?_append, addAll?_postorder, add?]
  | .expression e => by simp [Stmt.postorder, addAll?_append, addAll?_postorder, add?]
  | .declare name (some e) => by simp [Stmt.postorder, addAll?_append, addAll?_postorder, add?]
  | .declare name none => by simp [Stmt.postorder, add?]
  | .block body => by
    simp [Stmt.postorder, addAll?_append, Forest.addAll?_postorderAll f body, add?]

theorem Forest.addAll?_postorderAll (f : Forest) :
    (body : List Stmt) →
      f.addAll? (Stmt.postorderAll body) = some { f with stmts := body.reverse ++ f.stmts }
  | [] => by simp [Stmt.postorderAll]
  | s :: rest => by
    simp [Stmt.postorderAll, addAll?_append, Forest.addAll?_postorder_stmt f s,
      Forest.addAll?_postorderAll _ rest]

end

/-- Statements are made up of their own nodes. -/
theorem Stmt.ofNodes?_postorderAll (body : List Stmt) :
    Stmt.ofNodes? (Stmt.postorderAll body) = some body := by
  simp [Stmt.ofNodes?, Forest.addAll?_postorderAll, Forest.empty]

end SmallScript
