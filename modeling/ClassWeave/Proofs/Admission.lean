import ClassWeave.Helper.Transform
import ClassWeave.Proofs.Acceptance
/-!
# Spans that can be read

A text can be read at a span that runs forward from one boundary between characters to another. What
is made of the texts at some spans is made if all of them can be read, and else it is the same
failure whichever of them cannot.
-/

namespace ClassWeave

theorem Module.admits_iff {m : Module} {span : Span} : m.admits span = true ↔
    (m.range span).start ≤ (m.range span).stop ∧ m.text.Boundary (m.range span).start ∧
      m.text.Boundary (m.range span).stop := Text.slice?_isSome_iff

theorem Module.textAt?_eq_some_iff {m : Module} {span : Span} {text : Text} :
    m.textAt? span = some text ↔ m.admits span = true ∧ m.textAt span = text := by
  constructor
  · intro h
    exact ⟨by rw [admits, h]; rfl, Text.slice_of_slice? h⟩
  · rintro ⟨hadmits, rfl⟩
    obtain ⟨part, hpart⟩ := Option.isSome_iff_exists.1 hadmits
    rw [hpart, Module.textAt, Text.slice_of_slice? hpart]

namespace Pass

variable {α : Type} {pass : Pass} {spans : List Span} {result : α}

theorem reading_of_admits (h : ∀ span ∈ spans, pass.module.admits span = true) :
    pass.reading spans result = .ok result := if_pos (List.all_eq_true.2 h)

theorem reading_cases (pass : Pass) (spans : List Span) (result : α) :
    (∀ span ∈ spans, pass.module.admits span = true) ∧ pass.reading spans result = .ok result ∨
      (∃ span ∈ spans, pass.module.admits span = false) ∧
        pass.reading spans result = .error (.misfit .misplaced) := by
  by_cases h : ∀ span ∈ spans, pass.module.admits span = true
  · exact .inl ⟨h, reading_of_admits h⟩
  · refine .inr ⟨by simpa using h, if_neg fun hall => h (List.all_eq_true.1 hall)⟩

theorem reading_eq_ok {other : α} : pass.reading spans result = .ok other ↔
    (∀ span ∈ spans, pass.module.admits span = true) ∧ result = other := by
  rcases reading_cases pass spans result with ⟨hall, h⟩ | ⟨⟨span, hspan, hnot⟩, h⟩
  · rw [h, Except.ok.injEq]
    exact (and_iff_right hall).symm
  · rw [h]
    refine iff_of_false nofun fun ⟨hall, _⟩ => ?_
    rw [hall span hspan] at hnot
    cases hnot

end Pass

namespace Rule

variable {σ χ ε : Type} {rule : Rule σ χ ε} {pass : Pass} {state : σ} {span : Span} {picked : χ}

theorem replaceAt_eq_ok {replacement : Option Text} :
    rule.replaceAt pass state span picked = .ok replacement ↔
      rule.replace pass state picked = .ok replacement ∧ pass.module.admits span = true := by
  unfold replaceAt
  cases rule.replace pass state picked with
  | error failure => exact iff_of_false nofun fun h => nomatch h.1
  | ok other =>
    show (pass.reading [span] other).mapError rule.failure = _ ↔ _
    rcases Pass.reading_cases pass [span] other with ⟨hall, h⟩ | ⟨hsome, h⟩
    · have hspan := hall span List.mem_cons_self
      simp [h, hspan, Except.mapError]
    · have hspan : pass.module.admits span = false := by simpa using hsome
      simp [h, hspan, Except.mapError]

theorem replaceAt_of_admits {replacement : Option Text} (hspan : pass.module.admits span = true)
    (h : rule.replace pass state picked = .ok replacement) :
    rule.replaceAt pass state span picked = .ok replacement := replaceAt_eq_ok.2 ⟨h, hspan⟩

theorem replaceAt_of_error {failure : ε}
    (h : rule.replace pass state picked = .error failure) :
    rule.replaceAt pass state span picked = .error failure := by
  rw [replaceAt, h]; rfl

end Rule

/-! ## What helpers become -/

theorem compileTx_of_admits {pass : Pass} {given : List Node} (options : Options)
    (h : ∀ argument ∈ given, pass.module.admits (argumentSpan argument) = true) :
    compileTx pass given options =
      (simplifyTemplate (templateOf pass given) options.fileName options.maxPasses).mapError .pass := by
  have hall : ∀ span ∈ given.map argumentSpan, pass.module.admits span = true := by simpa using h
  rw [compileTx, Pass.reading_of_admits hall]
  rfl

/-- A call of `tx` is compiled as its template is, unless an argument of it cannot be read. -/
theorem compileTx_cases (pass : Pass) (given : List Node) :
    (∀ argument ∈ given, pass.module.admits (argumentSpan argument) = true) ∨
      (∃ argument ∈ given, pass.module.admits (argumentSpan argument) = false) ∧
        ∀ options, compileTx pass given options = .error (.pass (.misfit .misplaced)) := by
  rcases Pass.reading_cases pass (given.map argumentSpan) (templateOf pass given) with ⟨hall, -⟩ | ⟨hsome, h⟩
  · exact .inl (by simpa using hall)
  · refine .inr ⟨by simpa using hsome, fun options => ?_⟩
    rw [compileTx, h]
    rfl

theorem compileTx_eq_ok {pass : Pass} {given : List Node} {options : Options} {text : Text} :
    compileTx pass given options = .ok text ↔
      (∀ argument ∈ given, pass.module.admits (argumentSpan argument) = true) ∧
        simplifyTemplate (templateOf pass given) options.fileName options.maxPasses = .ok text := by
  rcases compileTx_cases pass given with hall | ⟨⟨argument, hargument, hnot⟩, h⟩
  · rw [compileTx_of_admits options hall, and_iff_right hall]
    cases simplifyTemplate (templateOf pass given) options.fileName options.maxPasses <;>
      simp [Except.mapError]
  · rw [h]
    refine iff_of_false nofun fun ⟨hall, _⟩ => ?_
    rw [hall argument hargument] at hnot
    cases hnot

end ClassWeave
