import SmallScript.Execution
import SmallScript.Proofs.Visits

/-!
Programs as straight lines of commands, in textual order. Execution carries them out one by one and
stops at the first whose expression has a fault; then it only leaves the blocks that are open.
-/
namespace SmallScript

inductive Command where
  | enter
  | leave
  | print (value : Expr)
  | expression (value : Expr)
  | declare (name : Token) (initializer : Option Expr)
  deriving DecidableEq, Repr

mutual

/-- What a statement says to do. A block is entered and left around its body. -/
def Stmt.commands : Stmt → List Command
  | .print e => [.print e]
  | .expression e => [.expression e]
  | .declare name init => [.declare name init]
  | .block body => .enter :: (Stmt.commandsAll body ++ [.leave])

def Stmt.commandsAll : List Stmt → List Command
  | [] => []
  | first :: rest => first.commands ++ Stmt.commandsAll rest

end

/-- The lines printed so far, and the scope. -/
structure Console where
  output : List String
  scope : Scope

/-- Go on with the value of an expression. A fault leads to no console. -/
def Console.evaluate? (k : Console) (e : Expr) (next : Value → Scope → Console) : Option Console :=
  match (evaluate e k.scope).result with
  | .ok v => some (next v (evaluate e k.scope).scope)
  | .error _ => none

/-- Leave this many blocks. -/
def Scope.leaveTimes (s : Scope) : Nat → Scope
  | 0 => s
  | n + 1 => (s.leaveTimes n).leave

namespace Command

/-- The expression that a command evaluates. -/
def expr? : Command → Option Expr
  | print e => some e
  | expression e => some e
  | declare _ init => init
  | enter | leave => none

def prints : Command → Bool
  | print _ => true
  | _ => false

def enters (c : Command) : Bool := c == enter

def leaves (c : Command) : Bool := c == leave

/-- Carry out a command, unless its expression has a fault. -/
def perform? (k : Console) : Command → Option Console
  | enter => some ⟨k.output, k.scope.enter⟩
  | leave => some ⟨k.output, k.scope.leave⟩
  | print e => k.evaluate? e fun v t => ⟨k.output ++ [v.text], t⟩
  | expression e => k.evaluate? e fun _ t => ⟨k.output, t⟩
  | declare name none => some ⟨k.output, k.scope.define name.lexeme .nil⟩
  | declare name (some e) => k.evaluate? e fun v t => ⟨k.output, t.define name.lexeme v⟩

/-- Carry out commands one after another, if none of them has a fault. -/
def performAll? (k : Console) : List Command → Option Console
  | [] => some k
  | c :: rest => (c.perform? k).bind fun next => performAll? next rest

theorem performAll?_append (k : Console) (cs ds : List Command) :
    performAll? k (cs ++ ds) = (performAll? k cs).bind fun next => performAll? next ds := by
  induction cs generalizing k with
  | nil => rfl
  | cons c cs ih =>
    simp only [List.cons_append, performAll?, Option.bind_assoc]
    exact congrArg _ (funext ih)

variable {k next : Console} {c : Command} {cs ds before after : List Command}
  {lines : List String} {e : Expr} {s t u : Scope} {x y : Execution} {f : Fault}

theorem evaluate?_eq_some {g : Value → Scope → Console} (h : k.evaluate? e g = some next) :
    ∃ v, (evaluate e k.scope).result = .ok v ∧ next = g v (evaluate e k.scope).scope := by
  rw [Console.evaluate?] at h
  split at h <;> cases h
  exact ⟨_, ‹_›, rfl⟩

theorem perform?_of_fault (output : List String) (hc : c.expr? = some e)
    (he : evaluate e t = ⟨.error f, u⟩) : c.perform? ⟨output, t⟩ = none := by
  cases c with
  | enter => cases hc
  | leave => cases hc
  | print _ =>
    cases hc
    rw [perform?, Console.evaluate?, he]
  | expression _ =>
    cases hc
    rw [perform?, Console.evaluate?, he]
  | declare _ _ =>
    cases hc
    rw [perform?, Console.evaluate?, he]

/-- A command adds one line if it prints, and otherwise none. -/
theorem perform?_output (h : c.perform? k = some next) :
    ∃ lines, next.output = k.output ++ lines ∧ lines.length = [c].countP prints := by
  have silent (hp : c.prints = false) (ho : next.output = k.output) :
      ∃ lines, next.output = k.output ++ lines ∧ lines.length = [c].countP prints :=
    ⟨[], by rw [ho, List.append_nil], by simp [hp]⟩
  unfold perform? at h
  split at h
  · cases h
    exact silent rfl rfl
  · cases h
    exact silent rfl rfl
  · obtain ⟨v, _, rfl⟩ := evaluate?_eq_some h
    exact ⟨[v.text], rfl, rfl⟩
  · obtain ⟨v, _, rfl⟩ := evaluate?_eq_some h
    exact silent rfl rfl
  · cases h
    exact silent rfl rfl
  · obtain ⟨v, _, rfl⟩ := evaluate?_eq_some h
    exact silent rfl rfl

theorem performAll?_output (h : performAll? k cs = some next) :
    ∃ lines, next.output = k.output ++ lines ∧ lines.length = cs.countP prints := by
  induction cs generalizing k with
  | nil =>
    cases h
    exact ⟨[], (List.append_nil _).symm, rfl⟩
  | cons c cs ih =>
    obtain ⟨mid, hc, hcs⟩ := Option.bind_eq_some_iff.mp h
    obtain ⟨first, hfirst, hlength⟩ := perform?_output hc
    obtain ⟨others, hothers, hlength'⟩ := ih hcs
    refine ⟨first ++ others, ?_, ?_⟩
    · rw [hothers, hfirst, List.append_assoc]
    · rw [List.length_append, hlength, hlength', ← List.countP_append, List.singleton_append]

/-- The lines are those of the commands that print, one for each in their order: the text of the value
that its expression has at that point. -/
structure Prints (k : Console) (cs : List Command) (lines : List String) : Prop where
  length : lines.length = cs.countP prints
  line : ∀ before e after, cs = before ++ print e :: after →
    ∃ t v, performAll? k before = some ⟨k.output ++ lines.take (before.countP prints), t⟩ ∧
      (evaluate e t).result = .ok v ∧ lines[before.countP prints]? = some v.text

theorem prints_of_performAll? (h : performAll? k cs = some ⟨k.output ++ lines, t⟩) :
    Prints k cs lines := by
  constructor
  · obtain ⟨lines', ho, hl⟩ := performAll?_output h
    rw [List.append_cancel_left ho]
    exact hl
  · rintro before e after rfl
    rw [performAll?_append] at h
    obtain ⟨mid, hb, hrest⟩ := Option.bind_eq_some_iff.mp h
    obtain ⟨printed, hp, hafter⟩ := Option.bind_eq_some_iff.mp hrest
    obtain ⟨v, hv, rfl⟩ := evaluate?_eq_some hp
    obtain ⟨first, hfirst, hlength⟩ := performAll?_output hb
    obtain ⟨others, hothers, _⟩ := performAll?_output hafter
    have hlines : lines = first ++ v.text :: others := by
      rw [hfirst] at hothers
      simpa using hothers
    refine ⟨mid.scope, v, ?_, hv, ?_⟩
    · rw [hb, hlines, ← hlength, List.take_left, ← hfirst]
    · rw [hlines, ← hlength, List.getElem?_append_right (Nat.le_refl _), Nat.sub_self]
      rfl

/-- Two places in the same commands are one, or one of them stands before the other. -/
theorem split_cases {before' after' : List Command} {c' : Command}
    (h : before ++ c :: after = before' ++ c' :: after') :
    (before = before' ∧ c = c') ∨ (∃ between, before' = before ++ c :: between) ∨
      ∃ between, before = before' ++ c' :: between := by
  obtain ⟨between, hb, hr⟩ | ⟨between, hb, hr⟩ := List.append_eq_append_iff.mp h
  · cases between with
    | nil =>
      cases hr
      exact .inl ⟨by rw [hb, List.append_nil], rfl⟩
    | cons b between =>
      cases hr
      exact .inr (.inl ⟨between, hb⟩)
  · cases between with
    | nil =>
      cases hr
      exact .inl ⟨by rw [hb, List.append_nil], rfl⟩
    | cons b between =>
      cases hr
      exact .inr (.inr ⟨between, hb⟩)

/-- Commands are carried out as an execution goes: all of them, or those before the first with a fault
and then as many blocks are left as are open. -/
inductive Performs (k : Console) : List Command → Execution → Prop where
  | through (cs : List Command) {lines : List String} {t : Scope}
    (h : performAll? k cs = some ⟨k.output ++ lines, t⟩)
    (hb : cs.countP enters = cs.countP leaves) :
    Performs k cs ⟨lines, none, t⟩
  | upTo (before : List Command) (c : Command) (after : List Command) {lines : List String}
    {t u : Scope} {e : Expr} {f : Fault} {n : Nat}
    (h : performAll? k before = some ⟨k.output ++ lines, t⟩) (hc : c.expr? = some e)
    (he : evaluate e t = ⟨.error f, u⟩) (hn : before.countP enters = before.countP leaves + n) :
    Performs k (before ++ c :: after) ⟨lines, some f, u.leaveTimes n⟩

namespace Performs

/-- A command that evaluates an expression and then does its own work. -/
theorem evaluating {next : Value → Scope → Execution} (hc : c.expr? = some e)
    (hnext : ∀ v, (evaluate e k.scope).result = .ok v →
      (next v (evaluate e k.scope).scope).fault? = none ∧
        c.perform? k = some ⟨k.output ++ (next v (evaluate e k.scope).scope).output,
          (next v (evaluate e k.scope).scope).scope⟩) :
    Performs k [c] ((evaluate e k.scope).execute next) := by
  rw [Evaluation.execute]
  split
  · next v hv =>
    obtain ⟨hf, hp⟩ := hnext v hv
    generalize next v (evaluate e k.scope).scope = y at hf hp ⊢
    obtain ⟨output, fault?, t⟩ := y
    cases hf
    refine through [c] ?_ ?_
    · rw [performAll?, hp]
      rfl
    · cases c <;> first | rfl | cases hc
  · next f hf =>
    have he : evaluate e k.scope = ⟨.error f, (evaluate e k.scope).scope⟩ := by rw [← hf]
    refine upTo [] c [] (n := 0) ?_ hc he rfl
    rw [List.append_nil]
    rfl

theorem andThen {next : Scope → Execution} (h : Performs k cs x)
    (hnext : x.fault? = none → Performs ⟨k.output ++ x.output, x.scope⟩ ds (next x.scope)) :
    Performs k (cs ++ ds) (x.andThen next) := by
  cases h with
  | through _ hx hb =>
    have hd := hnext rfl
    simp only [Execution.andThen] at hd ⊢
    generalize next _ = y at hd ⊢
    cases hd with
    | through _ hy hb' =>
      refine through _ ?_ ?_
      · rw [performAll?_append, hx, ← List.append_assoc]
        exact hy
      · rw [List.countP_append, List.countP_append, hb, hb']
    | upTo before c after hy hc he hn =>
      rw [← List.append_assoc]
      refine upTo _ c after ?_ hc he ?_
      · rw [performAll?_append, hx, ← List.append_assoc]
        exact hy
      · rw [List.countP_append, List.countP_append, hb, hn, Nat.add_assoc]
  | upTo before c after hx hc he hn =>
    rw [List.append_assoc, List.cons_append]
    exact upTo before c (after ++ ds) hx hc he hn

/-- A block is left however its body ends. -/
theorem block (h : Performs ⟨k.output, k.scope.enter⟩ cs x) :
    Performs k (enter :: (cs ++ [leave])) ⟨x.output, x.fault?, x.scope.leave⟩ := by
  cases h with
  | through _ hx hb =>
    refine through _ ?_ ?_
    · rw [performAll?, perform?, Option.bind_some, performAll?_append, hx]
      rfl
    · rw [List.countP_cons, List.countP_cons, List.countP_append, List.countP_append, hb]
      rfl
  | @upTo before c after _ _ _ _ _ n hx hc he hn =>
    rw [List.append_assoc, List.cons_append, ← List.cons_append]
    refine upTo (enter :: before) c (after ++ [leave]) (n := n + 1) ?_ hc he ?_
    · rw [performAll?, perform?, Option.bind_some]
      exact hx
    · have he : (enter :: before).countP enters = before.countP enters + 1 :=
        List.countP_cons_of_pos rfl
      have hl : (enter :: before).countP leaves = before.countP leaves :=
        List.countP_cons_of_neg Bool.false_ne_true
      rw [he, hl, hn, Nat.add_assoc]

/-- Where the first command with a fault stands, the execution is settled. -/
theorem settled (h : Performs k (before ++ c :: after) x) (hb : performAll? k before = some next)
    (hc : c.perform? next = none) :
    ∃ lines e f u n, next.output = k.output ++ lines ∧ c.expr? = some e ∧
      evaluate e next.scope = ⟨.error f, u⟩ ∧
      before.countP enters = before.countP leaves + n ∧ x = ⟨lines, some f, u.leaveTimes n⟩ := by
  generalize hcs : before ++ c :: after = cs at h
  cases h with
  | through _ hx _ =>
    rw [← hcs, performAll?_append, hb, Option.bind_some, performAll?, hc] at hx
    cases hx
  | upTo before' c' after' hx hc' he hn =>
    obtain ⟨rfl, rfl⟩ | ⟨between, rfl⟩ | ⟨between, rfl⟩ := split_cases hcs
    · cases hb.symm.trans hx
      exact ⟨_, _, _, _, _, rfl, hc', he, hn, rfl⟩
    · rw [performAll?_append, hb, Option.bind_some, performAll?, hc] at hx
      cases hx
    · rw [performAll?_append, hx, Option.bind_some, performAll?, perform?_of_fault _ hc' he] at hb
      cases hb

end Performs

end Command

open Command

mutual

theorem Stmt.performs : (st : Stmt) → (k : Console) →
    Performs k st.commands (execute st k.scope)
  | .print e, k => Performs.evaluating rfl fun v hv =>
      ⟨rfl, by simp only [perform?, Console.evaluate?, hv]⟩
  | .expression e, k => Performs.evaluating rfl fun v hv =>
      ⟨rfl, by simp only [perform?, Console.evaluate?, hv, List.append_nil]⟩
  | .declare name none, k => .through _ (by rw [List.append_nil]; rfl) rfl
  | .declare name (some e), k => by
    rw [Stmt.commands, execute]
    exact Performs.evaluating rfl fun v hv =>
      ⟨rfl, by simp only [perform?, Console.evaluate?, hv, List.append_nil]⟩
  | .block body, k => by
    rw [Stmt.commands, execute]
    exact (Stmt.performsAll body ⟨k.output, k.scope.enter⟩).block

theorem Stmt.performsAll : (body : List Stmt) → (k : Console) →
    Performs k (Stmt.commandsAll body) (executeAll body k.scope)
  | [], k => .through [] (by rw [List.append_nil]; rfl) rfl
  | first :: rest, k => by
    rw [Stmt.commandsAll, executeAll]
    exact (Stmt.performs first k).andThen fun _ => Stmt.performsAll rest ⟨_, _⟩

end

/-- Execution is straight-line. Without a fault, all commands are carried out: what was printed before
stays, and each print command adds its line. With a fault there is a command whose expression has it;
all those before it are carried out and it adds no line; of the scope it leaves, the open blocks are
left; and whatever commands come after it, the execution is the same. -/
theorem executeAll_in_order (program : List Stmt) (output : List String) (s : Scope) :
    match (executeAll program s).fault? with
    | none =>
      performAll? ⟨output, s⟩ (Stmt.commandsAll program) =
          some ⟨output ++ (executeAll program s).output, (executeAll program s).scope⟩ ∧
        Prints ⟨output, s⟩ (Stmt.commandsAll program) (executeAll program s).output
    | some f =>
      ∃ before c after e t u n, Stmt.commandsAll program = before ++ c :: after ∧
        performAll? ⟨output, s⟩ before = some ⟨output ++ (executeAll program s).output, t⟩ ∧
        Prints ⟨output, s⟩ before (executeAll program s).output ∧
        c.expr? = some e ∧ evaluate e t = ⟨.error f, u⟩ ∧
        before.countP enters = before.countP leaves + n ∧
        (executeAll program s).scope = u.leaveTimes n ∧
        ∀ other after', Stmt.commandsAll other = before ++ c :: after' →
          executeAll other s = executeAll program s := by
  have h := Stmt.performsAll program ⟨output, s⟩
  have hother (other : List Stmt) := Stmt.performsAll other ⟨output, s⟩
  dsimp only at h hother
  generalize executeAll program s = x at h ⊢
  generalize Stmt.commandsAll program = cs at h ⊢
  cases h with
  | through _ hx _ => exact ⟨hx, prints_of_performAll? hx⟩
  | @upTo before c after lines t u e f n hx hc he hn =>
    refine ⟨before, c, after, e, t, u, n, rfl, hx, prints_of_performAll? hx, hc, he, hn, rfl, ?_⟩
    intro other after' hcs
    have hy := hother other
    rw [hcs] at hy
    obtain ⟨lines', e', f', u', n', hl, hc', he', hn', hout⟩ :=
      hy.settled hx (perform?_of_fault _ hc he)
    rw [hout]
    cases List.append_cancel_left hl
    cases hc.symm.trans hc'
    cases he.symm.trans he'
    cases Nat.add_left_cancel (hn.symm.trans hn')
    rfl

end SmallScript
