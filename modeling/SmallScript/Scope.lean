import SmallScript.Fault

/-!
Scopes: a chain of frames from the innermost block out to the globals. Every chain has globals.
-/
namespace SmallScript

/-- The bindings of one scope. -/
abbrev Frame := List (String × Value)

namespace Frame

def get? : Frame → String → Option Value
  | [], _ => none
  | (n, v) :: rest, name => if n = name then some v else get? rest name

/-- Bind a name, in the place of its binding if it has one. -/
def put : Frame → String → Value → Frame
  | [], name, v => [(name, v)]
  | (n, w) :: rest, name, v => if n = name then (name, v) :: rest else (n, w) :: put rest name v

/-- The names bound in a frame. -/
def names (f : Frame) : List String := f.map Prod.fst

@[simp] theorem get?_nil (name : String) : get? [] name = none := rfl

theorem get?_put (f : Frame) (name m : String) (v : Value) :
    (f.put name v).get? m = if name = m then some v else f.get? m := by
  induction f with
  | nil => rfl
  | cons b rest ih =>
    obtain ⟨n, w⟩ := b
    simp only [put]
    split
    · next h => subst h; simp only [get?]; split <;> rfl
    · next h =>
      simp only [get?, ih]
      split
      · next hm => subst hm; rw [if_neg (Ne.symm h)]
      · rfl

end Frame

inductive Scope where
  | globals (frame : Frame)
  | block (frame : Frame) (outer : Scope)
  deriving DecidableEq, Repr

namespace Scope

/-- The globals before anything is declared. -/
def empty : Scope := globals []

/-- The number of frames. -/
def depth : Scope → Nat
  | globals _ => 1
  | block _ outer => outer.depth + 1

/-- Open a block. -/
def enter (s : Scope) : Scope := block [] s

/-- Close the innermost block. The globals stay. -/
def leave : Scope → Scope
  | globals f => globals f
  | block _ outer => outer

/-- Bind a name in the innermost frame. -/
def define (name : String) (v : Value) : Scope → Scope
  | globals f => globals (f.put name v)
  | block f outer => block (f.put name v) outer

/-- The value of the innermost binding of a name. -/
def get? (name : String) : Scope → Option Value
  | globals f => f.get? name
  | block f outer => (f.get? name).or (outer.get? name)

/-- Change the innermost binding of a name, if it has any. -/
def assign? (name : String) (v : Value) : Scope → Option Scope
  | globals f => if (f.get? name).isSome then some (globals (f.put name v)) else none
  | block f outer =>
    if (f.get? name).isSome then some (block (f.put name v) outer)
    else (outer.assign? name v).map (block f)

/-- The value of a name, which must be bound. -/
def lookup (name : Token) (s : Scope) : Except Fault Value :=
  match s.get? name.lexeme with
  | some v => .ok v
  | none => .error (.undefined name)

/-- Change the value of a name, which must be bound. -/
def assign (name : Token) (v : Value) (s : Scope) : Except Fault Scope :=
  match s.assign? name.lexeme v with
  | some t => .ok t
  | none => .error (.undefined name)

@[simp] theorem leave_enter (s : Scope) : s.enter.leave = s := rfl

@[simp] theorem depth_enter (s : Scope) : s.enter.depth = s.depth + 1 := rfl

theorem depth_pos (s : Scope) : 0 < s.depth := by cases s <;> simp [depth]

@[simp] theorem depth_define (name : String) (v : Value) (s : Scope) :
    (s.define name v).depth = s.depth := by cases s <;> rfl

@[simp] theorem get?_enter (name : String) (s : Scope) : s.enter.get? name = s.get? name := rfl

theorem get?_define (name m : String) (v : Value) (s : Scope) :
    (s.define name v).get? m = if name = m then some v else s.get? m := by
  cases s with
  | globals f => exact f.get?_put name m v
  | block f outer =>
    simp only [define, get?, Frame.get?_put]
    split <;> simp

/-- A name can be assigned to just when it is bound. -/
theorem assign?_isSome (name : String) (v : Value) (s : Scope) :
    (s.assign? name v).isSome = (s.get? name).isSome := by
  induction s with
  | globals f => simp only [assign?, get?]; split <;> simp_all
  | block f outer ih => simp only [assign?, get?]; split <;> simp_all

theorem depth_assign? (name : String) (v : Value) (s t : Scope)
    (h : s.assign? name v = some t) : t.depth = s.depth := by
  induction s generalizing t with
  | globals f =>
    simp only [assign?] at h
    split at h <;> cases h
    rfl
  | block f outer ih =>
    simp only [assign?] at h
    split at h
    · cases h; rfl
    · obtain ⟨u, hu, rfl⟩ := Option.map_eq_some_iff.mp h
      simp [depth, ih u hu]

theorem get?_assign? (name m : String) (v : Value) (s t : Scope)
    (h : s.assign? name v = some t) : t.get? m = if name = m then some v else s.get? m := by
  induction s generalizing t with
  | globals f =>
    simp only [assign?] at h
    split at h <;> cases h
    exact f.get?_put name m v
  | block f outer ih =>
    simp only [assign?] at h
    split at h
    · cases h
      simp only [get?, Frame.get?_put]
      split <;> simp
    · next hf =>
      obtain ⟨u, hu, rfl⟩ := Option.map_eq_some_iff.mp h
      simp only [get?, ih u hu]
      split
      · next hm => subst hm; simp_all
      · rfl

end Scope
end SmallScript
