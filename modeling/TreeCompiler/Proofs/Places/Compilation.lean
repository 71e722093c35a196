import TreeCompiler.Proofs.Places.Bodies
import TreeCompiler.Proofs.Reading.WithinBounds

/-!
# Places make no difference

Trees that differ in places only, that is in regions, names of files and texts of sources, are compiled to the same
artifact or fail with the same error, and the diagnostics are the same but for the regions of their labels.

* `Compilation.emit_gist` : neither target reads a place.
-/

namespace TreeCompiler

namespace Compilation

variable (trees : List Tree) (options : Options)

theorem emit_gist (target : Target) :
    target.emit (lowered trees options).assembly.gist = target.emit (lowered trees options).assembly := by
  have hbounded := bounded_lowered trees options
  have hcore := hasCore_of_run trees options (run_of_visits trees options (visits_lowered trees options)).1
  exact (Assembly.Bounded.alike_emit ⟨hbounded.types, hbounded.entry⟩ hcore (TypeTable.readsAs_gist _) target).eq

/-- What a compilation gives after both lowerings. -/
def outcome (c : Compilation) : Except CompileError Artifact :=
  if c.hasErrors then .error (.failed c.errorCount) else (c.options.target.emit c.assembly).mapError .emission

theorem outcome_congr {trees trees' : List Tree} {options : Options}
    (h : (lowered trees options).context.gist = (lowered trees' options).context.gist) :
    (lowered trees options).outcome = (lowered trees' options).outcome := by
  have hdiagnostics : (lowered trees options).diagnostics.map Diagnostic.gist =
      (lowered trees' options).diagnostics.map Diagnostic.gist := congrArg Context.diagnostics h
  have hassembly : (lowered trees options).assembly.gist = (lowered trees' options).assembly.gist :=
    congrArg Context.assembly h
  have herrors (ds : List Diagnostic) :
      Diagnostic.hasErrors (ds.map Diagnostic.gist) = Diagnostic.hasErrors ds := List.any_map
  have hcount (ds : List Diagnostic) :
      Diagnostic.errorCount (ds.map Diagnostic.gist) = Diagnostic.errorCount ds := List.countP_map
  unfold outcome hasErrors errorCount
  rw [← herrors, ← hcount, hdiagnostics, herrors, hcount, ← emit_gist, hassembly, emit_gist]
  rfl

/-- A compilation that has not started gives the outcome of its lowerings, with their diagnostics. -/
theorem exists_compile_start : ∃ c, (start trees options).compile = .ok ((lowered trees options).outcome, c) ∧
      c.diagnostics = (lowered trees options).diagnostics := by
  have hcompile : (start trees options).compile = if (lowered trees options).hasErrors then
        .ok (.error (.failed (lowered trees options).errorCount), lowered trees options)
      else (lowered trees options).emit := rfl
  rw [hcompile]
  unfold outcome
  split
  · exact ⟨_, rfl, rfl⟩
  · unfold emit
    rw [show (lowered trees options).stage = .bodiesLowered from rfl]
    cases (lowered trees options).options.target.emit (lowered trees options).assembly with
    | ok artifact | error e => exact ⟨_, rfl, rfl⟩

/-- Both lowerings go along with taking the places away. -/
theorem context_lowered_gist : (lowered trees options).context.gist =
      ((start [] options).context.gist.lowerDeclarations (trees.map Tree.gist)).context.lowerBodies
        ((start [] options).context.gist.lowerDeclarations (trees.map Tree.gist)).queue := by
  rw [Context.lowerDeclarations_gist]
  exact (Context.lowerBodies_gist _ _).symm

/-- If some trees differ from others in places only, they are compiled to the same artifact or fail with the same
error, and the diagnostics have the same levels, codes, messages, notes, helps and labels but for the regions. -/
theorem places_irrelevant {trees trees' : List Tree} (h : trees.map Tree.gist = trees'.map Tree.gist)
    (options : Options) : ∃ result c c',
      (start trees options).compile = .ok (result, c) ∧ (start trees' options).compile = .ok (result, c') ∧
        c.diagnostics.map Diagnostic.gist = c'.diagnostics.map Diagnostic.gist := by
  have hcontext : (lowered trees options).context.gist = (lowered trees' options).context.gist := by
    rw [context_lowered_gist, context_lowered_gist, h]
  have houtcome : (lowered trees options).outcome = (lowered trees' options).outcome := outcome_congr hcontext
  obtain ⟨c, hcompile, hc⟩ := exists_compile_start trees options
  obtain ⟨c', hcompile', hc'⟩ := exists_compile_start trees' options
  refine ⟨_, c, c', hcompile, ?_, ?_⟩
  · rw [hcompile', houtcome]
  · rw [hc, hc']
    exact congrArg Context.diagnostics hcontext

/-- A call of a function that does not exist, in a tree with a name and a text. -/
def lostCall (name source : String) (span : Span) : Tree where
  file := some name
  source := some source
  body := [.fn { name := "main", body := some [.call (.unqualified "missing") [] span], span }]

/-- Two trees that differ in the name of the file, in the text and in the regions. -/
theorem places_irrelevant_lostCall :
    lostCall "first" "missing();" {} ≠ lostCall "second" "  missing()" { file := 1 } ∧
    [lostCall "first" "missing();" {}].map Tree.gist =
        [lostCall "second" "  missing()" { file := 1 }].map Tree.gist ∧
      ∃ result c c', (start [lostCall "first" "missing();" {}] {}).compile = .ok (result, c) ∧
        (start [lostCall "second" "  missing()" { file := 1 }] {}).compile = .ok (result, c') ∧
          c.diagnostics.map Diagnostic.gist = c'.diagnostics.map Diagnostic.gist := by
  have hgist : [lostCall "first" "missing();" {}].map Tree.gist =
      [lostCall "second" "  missing()" { file := 1 }].map Tree.gist := rfl
  refine ⟨fun h => ?_, hgist, places_irrelevant hgist {}⟩
  exact absurd (congrArg Tree.file h) (by decide)

end Compilation

end TreeCompiler
