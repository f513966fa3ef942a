import SmallScript.Proofs.Grammar.Soundness
import SmallScript.Proofs.Unbound
import SmallScript.Session

/-!
Programs that are read from tokens have only operators that evaluation knows. The grammar and
evaluation each have their own list of operators; here the first is shown to be within the second.
-/
namespace SmallScript

/-- Prefix operators of the grammar are known to evaluation. -/
theorem Node.known_unary {op : Token} (h : op.kind.isPrefix) : (Node.unary op).Known := by
  unfold Kind.isPrefix at h
  split at h
  · next hk => simp [Known, hk]
  · next hk => simp [Known, hk]
  · cases h

/-- Binary operators of the grammar are known to evaluation. -/
theorem Node.known_binary {op : Token} (h : op.kind.level?.isSome) : (Node.binary op).Known := by
  rw [Known]
  unfold Kind.level? at h
  split at h <;> simp_all

theorem Expr.known {e : Expr} (h : e.Grammatical) : ∀ n ∈ e.postorder, n.Known := by
  induction e with
  | literal v => exact List.forall_mem_singleton.mpr trivial
  | grouping e ih =>
    rw [postorder, List.forall_mem_append, List.forall_mem_singleton]
    exact ⟨ih h, trivial⟩
  | unary op e ih =>
    rw [postorder, List.forall_mem_append, List.forall_mem_singleton]
    exact ⟨ih h.2.2, Node.known_unary h.1⟩
  | binary l op r ihl ihr =>
    obtain ⟨hop, _, _, hl, hr⟩ := h
    rw [postorder, List.forall_mem_append, List.forall_mem_append, List.forall_mem_singleton]
    exact ⟨⟨ihl hl, ihr hr⟩, Node.known_binary hop⟩
  | var name => exact List.forall_mem_singleton.mpr trivial
  | assign name e ih =>
    rw [postorder, List.forall_mem_append, List.forall_mem_singleton]
    exact ⟨ih h.2, trivial⟩

mutual

theorem Stmt.known : (st : Stmt) → st.Grammatical → ∀ n ∈ st.postorder, n.Known
  | .print e, h => by
    rw [Stmt.postorder, List.forall_mem_append, List.forall_mem_singleton]
    exact ⟨Expr.known h, trivial⟩
  | .expression e, h => by
    rw [Stmt.postorder, List.forall_mem_append, List.forall_mem_singleton]
    exact ⟨Expr.known h, trivial⟩
  | .declare name none, _ => List.forall_mem_singleton.mpr trivial
  | .declare name (some e), h => by
    rw [Stmt.postorder, List.forall_mem_append, List.forall_mem_singleton]
    exact ⟨Expr.known h.2, trivial⟩
  | .block body, h => by
    rw [Stmt.postorder, List.forall_mem_append, List.forall_mem_singleton]
    exact ⟨Stmt.known_all body h, trivial⟩

theorem Stmt.known_all :
    (body : List Stmt) → Stmt.AllGrammatical body → ∀ n ∈ Stmt.postorderAll body, n.Known
  | [], _ => List.forall_mem_nil _
  | first :: rest, h => by
    rw [Stmt.postorderAll, List.forall_mem_append]
    exact ⟨Stmt.known first h.1, Stmt.known_all rest h.2⟩

end

/-- A run comes to no nodes but those of the program. -/
theorem Follows.subset {walk : List Sight} {visits : List Node} {fault? : Option Fault}
    (h : Follows walk visits fault?) : visits ⊆ walk.map Sight.node := by
  cases h with
  | through _ _ => exact List.Subset.refl _
  | upTo before x after _ _ =>
    apply List.map_subset
    simp

/-- A program whose operators are all known never fails for an unknown one. -/
theorem Follows.ne_unknown {walk : List Sight} {visits : List Node} {fault? : Option Fault}
    (h : Follows walk visits fault?) (hk : ∀ n ∈ walk.map Sight.node, n.Known) (op : Token) :
    fault? ≠ some (.unknownOperator op) := by
  rintro rfl
  cases h with
  | upTo before x after _ hx => exact hx.2.2 (hk x.node (List.mem_map_of_mem (by simp)))

/-- A message that does not start as the one for an unknown operator. -/
def Diagnostic.Known (d : Diagnostic) : Prop := d.message.toList.take 3 ≠ ['U', 'n', 'k']

theorem Diagnostic.Known.ne_unknown {d : Diagnostic} (h : d.Known) (op : Token) :
    d ≠ (Fault.unknownOperator op).diagnostic := by
  intro hd
  apply h
  have hm : d.message = "Unknown operator '" ++ (op.lexeme ++ "'.") := by
    rw [hd, ← String.append_assoc]
    rfl
  rw [hm, String.toList_append]
  simp

theorem LexicalFault.known_diagnostic (fault : LexicalFault) : fault.diagnostic.Known := by
  rw [diagnostic, Diagnostic.Known]
  cases fault.cause <;> simp [LexicalCause.message]

theorem SyntaxFault.known_diagnostic (fault : SyntaxFault) : fault.diagnostic.Known := by
  rw [diagnostic, Diagnostic.Known]
  cases fault.cause <;> simp [SyntaxCause.message]

theorem Fault.known_diagnostic {fault : Fault} (h : ∀ op, fault ≠ .unknownOperator op) :
    fault.diagnostic.Known := by
  cases fault with
  | operand op cause =>
    have hm : cause.message.toList.take 3 ≠ ['U', 'n', 'k'] := by
      cases cause <;> simp [OperandCause.message]
    exact hm
  | undefined name =>
    have hm : ("Undefined variable '" ++ (name.lexeme ++ "'.")).toList.take 3 ≠ ['U', 'n', 'k'] := by
      rw [String.toList_append]
      simp
    rw [← String.append_assoc] at hm
    exact hm
  | unknownOperator op => exact absurd rfl (h op)

/-- All operators of a program that is read from tokens are known, whatever faults the tokens have. -/
theorem parse_known (ts : List Token) : ∀ n ∈ Stmt.postorderAll (parse ts).program, n.Known :=
  Stmt.known_all _ (parse_salvaged ts).grammatical

theorem executeAll_ne_unknown {program : List Stmt} (h : ∀ n ∈ Stmt.postorderAll program, n.Known)
    (s : Scope) (op : Token) : (executeAll program s).fault? ≠ some (.unknownOperator op) := by
  have hv := Stmt.visitsAll_follow program (inSight_names s)
  rw [← Stmt.map_node_walkAll s.names] at h
  exact hv.ne_unknown h op

theorem run_reports_ne_unknown (source : String) (s : Scope) (op : Token) :
    (Fault.unknownOperator op).diagnostic ∉ (run source s).reports := by
  intro hd
  rw [run, List.mem_append] at hd
  obtain hd | hd := hd
  · rw [Script.ofSource, List.mem_append, List.mem_map, List.mem_map] at hd
    obtain ⟨f, _, hf⟩ | ⟨f, _, hf⟩ := hd
    · exact f.known_diagnostic.ne_unknown op hf
    · exact f.known_diagnostic.ne_unknown op hf
  · rw [Option.mem_toList, Option.map_eq_some_iff] at hd
    obtain ⟨f, hf, he⟩ := hd
    have hk : ∀ o, f ≠ .unknownOperator o := by
      rintro o rfl
      exact executeAll_ne_unknown (parse_known _) s o hf
    exact (Fault.known_diagnostic hk).ne_unknown op he

theorem runAll_reports_ne_unknown (sources : List String) (s : Scope) (op : Token) :
    ∀ r ∈ runAll sources s, (Fault.unknownOperator op).diagnostic ∉ r.reports := by
  induction sources generalizing s with
  | nil => exact List.forall_mem_nil _
  | cons source rest ih =>
    rw [runAll, List.forall_mem_cons]
    exact ⟨run_reports_ne_unknown source s op, ih _⟩

/-- No program that is read from tokens has an unknown operator, comes to one in any scope, or ends at
one; so no run of a session does. -/
theorem parse_operators_known (ts : List Token) :
    (∀ n ∈ Stmt.postorderAll (parse ts).program, n.Known) ∧
      (∀ s : Scope, (∀ n ∈ Stmt.visitsAll (parse ts).program s, n.Known) ∧
        ∀ op, (executeAll (parse ts).program s).fault? ≠ some (.unknownOperator op)) ∧
      ∀ (sources : List String) (s : Scope), ∀ r ∈ runAll sources s,
        ∀ op, (Fault.unknownOperator op).diagnostic ∉ r.reports := by
  have hk := parse_known ts
  refine ⟨hk, ?_, fun sources s r hr op => runAll_reports_ne_unknown sources s op r hr⟩
  intro s
  refine ⟨?_, executeAll_ne_unknown hk s⟩
  intro n hn
  have hv := Stmt.visitsAll_follow (parse ts).program (inSight_names s)
  apply hk
  rw [← Stmt.map_node_walkAll s.names]
  exact hv.subset hn

end SmallScript
