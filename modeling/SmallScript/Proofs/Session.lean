import SmallScript.Proofs.Containment
import SmallScript.Proofs.Reading.Relocation
import SmallScript.Proofs.Source.Join
import SmallScript.Session

/-!
A session as one source. Sources that are run one after another do what they do when they are
joined by newlines and run at once, as long as only the last of them reports anything.
-/
namespace SmallScript

theorem kind_ne_stop_relocate {us : List Token} (h : ∀ t ∈ us, t.kind ≠ .stop)
    (move : Nat → Nat) : ∀ t ∈ us.map (Token.relocate move), t.kind ≠ .stop :=
  List.forall_mem_map.mpr h

/-- A program without faults, and behind it one that is moved to other lines. -/
theorem parse_join {us vs : List Token} (hu : ∀ t ∈ us, t.kind ≠ .stop)
    (hv : ∀ t ∈ vs, t.kind ≠ .stop) (line line' : Nat) (move : Nat → Nat)
    (h : (parse (us ++ [Token.stop line])).faults = []) :
    parse (us ++ (vs ++ [Token.stop line']).map (Token.relocate move)) =
      ⟨(parse (us ++ [Token.stop line])).program ++
          Stmt.relocateAll move (parse (vs ++ [Token.stop line'])).program,
        (parse (vs ++ [Token.stop line'])).faults.map (SyntaxFault.relocate move)⟩ := by
  have hk : ∀ t ∈ us ++ vs.map (Token.relocate move), t.kind ≠ .stop :=
    List.forall_mem_append.mpr ⟨hu, kind_ne_stop_relocate hv move⟩
  rw [parse_stop hu rfl] at h ⊢
  have hf : (parseBody (Token.stop line) us).faults = [] := h
  have hs : (Token.stop line).kind = .stop := rfl
  have hb := parseBody_append hs ((Token.stop line').relocate move) us
    (vs.map (Token.relocate move)) (.inl hf)
  rw [parseBody_relocate] at hb
  rw [List.map_append, List.map_singleton, ← List.append_assoc, parse_stop hk rfl,
    parse_stop hv rfl, hb]
  simp only [Body.followedBy, Body.relocate, hf, List.nil_append]

/-- A source without faults, and behind it and a newline another. -/
theorem Script.ofSource_join {first : String} (second : String)
    (h : (Script.ofSource first).faults = []) :
    Script.ofSource (first ++ "\n" ++ second) =
      ⟨(Script.ofSource first).program ++
          Stmt.relocateAll (· + linesBefore first) (Script.ofSource second).program,
        (Script.ofSource second).faults.map (Diagnostic.relocate (· + linesBefore first))⟩ := by
  obtain ⟨hl, hp⟩ := List.append_eq_nil_iff.mp h
  rw [List.map_eq_nil_iff] at hl hp
  obtain ⟨ht, hf⟩ := tokenize_join first second (by rw [hl]; exact List.forall_mem_nil _)
  rw [tokens_tokenize] at hp
  have hj := parse_join (kind_ne_stop_of_mem_lexemes first) (kind_ne_stop_of_mem_lexemes second) _
    (lastLine second.toList) (· + linesBefore first) hp
  rw [Script.ofSource, ht, hf, hl, tokens_tokenize second, hj]
  simp only [Script.ofSource, tokens_tokenize, List.nil_append, List.map_append, List.map_map]
  rfl

theorem Execution.andThen_assoc (x : Execution) (next next' : Scope → Execution) :
    (x.andThen next).andThen next' = x.andThen fun s => (next s).andThen next' := by
  obtain ⟨output, fault?, s⟩ := x
  cases fault? with
  | some f => rfl
  | none =>
    simp only [andThen]
    cases next s with
    | mk output' fault?' t =>
      cases fault?' with
      | some f => rfl
      | none => simp only [List.append_assoc]

theorem executeAll_append (first rest : List Stmt) (s : Scope) :
    executeAll (first ++ rest) s = (executeAll first s).andThen (executeAll rest) := by
  induction first generalizing s with
  | nil => rfl
  | cons st first ih =>
    rw [List.cons_append, executeAll, executeAll, Execution.andThen_assoc]
    exact congrArg _ (funext ih)

theorem reports_relocate (move : Nat → Nat) (fault? : Option Fault) :
    ((fault?.map (Fault.relocate move)).map Fault.diagnostic).toList =
      (fault?.map Fault.diagnostic).toList.map (Diagnostic.relocate move) := by
  cases fault? with
  | none => rfl
  | some f => exact congrArg ([·]) (f.diagnostic_relocate move)

/-- A run without reports, and a second one from its scope, are one run of both sources. The second
source stands lower there. -/
theorem run_join {first : String} (second : String) {s : Scope}
    (h : (run first s).status = ⟨false, false⟩) :
    run (first ++ "\n" ++ second) s =
      { output := (run first s).output ++ (run second (run first s).scope).output
        reports := (run second (run first s).scope).reports.map
          (Diagnostic.relocate (· + linesBefore first))
        status := (run second (run first s).scope).status
        scope := (run second (run first s).scope).scope } := by
  simp only [run, Status.mk.injEq, Bool.not_eq_false', List.isEmpty_iff,
    Option.isSome_eq_false_iff, Option.isNone_iff_eq_none] at h
  obtain ⟨hf, hx⟩ := h
  have hexec : executeAll (Script.ofSource (first ++ "\n" ++ second)).program s =
      (executeAll (Script.ofSource first).program s).andThen fun t =>
        (executeAll (Script.ofSource second).program t).relocate (· + linesBefore first) := by
    rw [Script.ofSource_join second hf, executeAll_append]
    exact congrArg _ (funext (executeAll_relocate _ _))
  have hfaults := congrArg Script.faults (Script.ofSource_join second hf)
  simp only [Execution.andThen, hx, Execution.relocate] at hexec
  simp only [run, hexec, hfaults, reports_relocate, List.isEmpty_map, Option.isSome_map,
    List.map_append]

/-- A session is the run of one source. Sources of which none but the last reports anything do, one
after another, what they do when they are joined by newlines and run at once; what the last reports
is then lower by the newlines that stand before it. -/
theorem run_intercalate (sources : List String) (last : String) (s : Scope)
    (h : ∀ r ∈ runAll sources s, r.status = ⟨false, false⟩) :
    ∃ before final, "\n".intercalate (sources ++ [last]) = before ++ last ∧
      (runAll (sources ++ [last]) s).getLast? = some final ∧
      run ("\n".intercalate (sources ++ [last])) s =
        { output := (runAll (sources ++ [last]) s).flatMap Run.output
          reports := final.reports.map (Diagnostic.relocate (· + before.toList.count '\n'))
          status := final.status
          scope := final.scope } := by
  induction sources generalizing s with
  | nil =>
    have hm : (run last s).reports.map (Diagnostic.relocate (· + 0)) = (run last s).reports :=
      List.map_id _
    refine ⟨"", run last s, by simp, rfl, ?_⟩
    rw [String.toList_empty, List.count_nil, hm]
    simp [runAll]
  | cons first sources ih =>
    obtain ⟨hfirst, hrest⟩ := List.forall_mem_cons.mp h
    obtain ⟨before, final, hb, hl, hr⟩ := ih _ hrest
    have hj : "\n".intercalate (first :: sources ++ [last]) =
        first ++ "\n" ++ "\n".intercalate (sources ++ [last]) :=
      String.intercalate_cons_of_ne_nil (by simp)
    -- the first source moves the rest down, and the rest already moved its last source down
    have hlines (n : Nat) : n + before.toList.count '\n' + linesBefore first =
        n + (first ++ "\n" ++ before).toList.count '\n' := by
      simp only [linesBefore, String.toList_append, List.count_append, String.reduceToList,
        List.count_singleton_self]
      omega
    have hm : Diagnostic.relocate (· + linesBefore first) ∘
        Diagnostic.relocate (· + before.toList.count '\n') =
          Diagnostic.relocate (· + (first ++ "\n" ++ before).toList.count '\n') :=
      funext fun d => congrArg (Diagnostic.mk · d.location d.message) (hlines d.line)
    refine ⟨first ++ "\n" ++ before, final, ?_, ?_, ?_⟩
    · rw [hj, hb, ← String.append_assoc]
    · rw [List.cons_append, runAll, List.getLast?_cons, hl]
      rfl
    · rw [hj, run_join _ hfirst, hr, List.cons_append, runAll, List.flatMap_cons, List.map_map, hm]

/-- The last of three sources has a fault in its text and another in its execution. -/
theorem run_intercalate_faulty :
    (∀ r ∈ runAll ["var a;\nvar b = a; // b", "\x7b print b; \x7d"] .empty,
        r.status = ⟨false, false⟩) ∧
      ∃ before final, "\n".intercalate ["var a;\nvar b = a; // b", "\x7b print b; \x7d",
            "print a;\nprint c; @"] = before ++ "print a;\nprint c; @" ∧
        (runAll ["var a;\nvar b = a; // b", "\x7b print b; \x7d", "print a;\nprint c; @"]
          .empty).getLast? = some final ∧
        run ("\n".intercalate ["var a;\nvar b = a; // b", "\x7b print b; \x7d",
            "print a;\nprint c; @"]) .empty =
          { output := (runAll ["var a;\nvar b = a; // b", "\x7b print b; \x7d",
              "print a;\nprint c; @"] .empty).flatMap Run.output
            reports := final.reports.map (Diagnostic.relocate (· + before.toList.count '\n'))
            status := final.status
            scope := final.scope } := by
  have h : ∀ r ∈ runAll ["var a;\nvar b = a; // b", "\x7b print b; \x7d"] .empty,
      r.status = ⟨false, false⟩ := by decide +kernel
  exact ⟨h, run_intercalate _ "print a;\nprint c; @" .empty h⟩

end SmallScript
