import ClassWeave.Pass.Fixpoint
import ClassWeave.Proofs.Copying
/-!
# Runs of passes

One pass of a run, taken apart: it reads the text, its edits apply, and the run ends there or goes on with
what they wrote. A completed run is the passes of its edits, and its last pass found none in the code.
-/

namespace ClassWeave

theorem toOption_eq_some_iff {ε α : Type} {result : Except ε α} {value : α} :
    result.toOption = some value ↔ result = .ok value := by
  cases result with
  | error failure => exact ⟨nofun, nofun⟩
  | ok found => exact ⟨fun h => by cases h; rfl, fun h => by cases h; rfl⟩

theorem Module.text_of_read {text : Text} {elements : Bool} {m : Module}
    (h : Module.read text elements = .ok m) :
    m.text = text := by
  unfold Module.read at h
  simp only at h
  split at h
  · cases h
    rfl
  · cases h

theorem Edit.applyAll_nil (index : Nat) (text : Text) :
    applyAll index text [] = .ok (text, ⟨index, Progress.copyRuns ⟨Position.origin, Position.origin⟩ text⟩) :=
  rfl

namespace Rule

variable {σ χ ε : Type} {rule : Rule σ χ ε} {file : Option String}
    {limit left : Nat} {state : σ} {text : Text}
  {records : List Record} {fixpoint : Fixpoint}

def elementsIn (file : Option String) : Bool := Module.holdsElements (file.getD "")

theorem onePass_eq_ok_iff {pass : Pass} {state' : σ} {edits : List Edit} {output : Text} {record : Record} :
    rule.onePass pass state = .ok (state', edits, output, record) ↔
      rule.seed pass state = .ok state' ∧ rule.collectEdits pass state' = .ok edits ∧
        Edit.applyAll pass.index pass.module.text edits = .ok (output, record) := by
  unfold onePass
  cases rule.seed pass state with
  | error failure =>
    constructor
    · intro h; cases h
    · rintro ⟨h, -⟩; cases h
  | ok seeded =>
    show ((rule.collectEdits pass seeded).bind _ = _) ↔ _
    cases hedits : rule.collectEdits pass seeded with
    | error failure =>
      constructor
      · intro h; cases h
      · rintro ⟨hseed, hnone, -⟩
        cases hseed
        rw [hedits] at hnone
        cases hnone
    | ok found =>
      simp only [Except.bind]
      constructor
      · intro h
        split at h
        · rename_i happly
          cases h
          exact ⟨rfl, hedits, happly⟩
        · cases h
      · rintro ⟨hseed, hfound, happly⟩
        cases hseed
        rw [hedits] at hfound
        cases hfound
        rw [happly]
        rfl

theorem passes_eq_ok (h : (rule.passes file limit left state text records).outcome = .ok fixpoint) :
    ∃ left' found state' edits output record, left = left' + 1 ∧
      Module.read text (elementsIn file) = .ok found ∧
      rule.seed ⟨records.length, found⟩ state = .ok state' ∧
      rule.collectEdits ⟨records.length, found⟩ state' = .ok edits ∧
      Edit.applyAll records.length text edits = .ok (output, record) ∧
      ((edits = [] ∧ fixpoint = ⟨output, records ++ [record]⟩) ∨
        (edits ≠ [] ∧ (rule.passes file limit left' state' output (records ++ [record])).outcome =
          .ok fixpoint)) := by
  cases left with
  | zero => cases h
  | succ left =>
    unfold passes at h
    simp only at h
    cases hread : Module.read text (Module.holdsElements (file.getD "")) with
    | error fault => rw [hread] at h; cases h
    | ok found =>
      rw [hread] at h
      simp only at h
      cases hpass : rule.onePass ⟨records.length, found⟩ state with
      | error failure => rw [hpass] at h; cases h
      | ok result =>
        obtain ⟨state', edits, output, record⟩ := result
        rw [hpass] at h
        obtain ⟨hseed, hedits, happly⟩ := onePass_eq_ok_iff.1 hpass
        simp only [Module.text_of_read hread] at happly
        refine ⟨left, found, state', edits, output, record, rfl, hread, hseed, hedits, happly, ?_⟩
        simp only at h
        by_cases hnil : edits = []
        · subst hnil
          cases h
          exact .inl ⟨rfl, rfl⟩
        · rw [if_neg (by simp [hnil])] at h
          exact .inr ⟨hnil, h⟩

section
variable {found : Module} {state' : σ} {edits : List Edit} {output : Text} {record : Record}

theorem passes_of_edits (records : List Record) (hread : Module.read text (elementsIn file) = .ok found)
    (hseed : rule.seed ⟨records.length, found⟩ state = .ok state')
    (hedits : rule.collectEdits ⟨records.length, found⟩ state' = .ok edits)
    (happly : Edit.applyAll records.length text edits = .ok (output, record)) (hne : edits ≠ []) :
    (rule.passes file limit (left + 1) state text records).outcome =
      (rule.passes file limit left state' output (records ++ [record])).outcome := by
  have htext := Module.text_of_read hread
  have hpass := onePass_eq_ok_iff.2 ⟨hseed, hedits, htext.symm ▸ happly⟩
  unfold elementsIn at hread
  rw [passes]
  simp only [hread, hpass]
  rw [if_neg (by simpa using hne)]

theorem passes_of_collectEdits_eq_nil (records : List Record)
    (hread : Module.read text (elementsIn file) = .ok found)
    (hseed : rule.seed ⟨records.length, found⟩ state = .ok state')
    (hedits : rule.collectEdits ⟨records.length, found⟩ state' = .ok []) :
    ∃ record, (rule.passes file limit (left + 1) state text records).outcome =
      .ok ⟨text, records ++ [record]⟩ := by
  have htext := Module.text_of_read hread
  have hpass := onePass_eq_ok_iff.2 ⟨hseed, hedits, Edit.applyAll_nil _ _⟩
  unfold elementsIn at hread
  rw [passes]
  simp only [hread, hpass, htext]
  exact ⟨_, rfl⟩

end

theorem code_of_passes {keeps : Text → Prop}
    (step : ∀ pass state edits result, keeps pass.module.text → rule.collectEdits pass state = .ok edits →
      Edit.applyAll pass.index pass.module.text edits = .ok result → keeps result.1) :
    ∀ {left : Nat} {state : σ} {text : Text} {records : List Record}, keeps text →
      (rule.passes file limit left state text records).outcome = .ok fixpoint → keeps fixpoint.code
  | 0, state, text, records, _, h => by cases h
  | left + 1, state, text, records, htext, h => by
    obtain ⟨_, found, state', edits, output, record, hleft, hread, -, hedits, happly, hrest⟩ := passes_eq_ok h
    cases hleft
    have hfound := Module.text_of_read hread
    have houtput : keeps output := step ⟨records.length, found⟩ state' edits (output, record)
      (hfound ▸ htext) hedits (hfound ▸ happly)
    rcases hrest with ⟨-, rfl⟩ | ⟨-, hrest⟩
    · exact houtput
    · exact code_of_passes step houtput hrest

theorem applyPasses_of_passes : ∀ {left : Nat} {state : σ} {text : Text} {records : List Record},
    (rule.passes file limit left state text records).outcome = .ok fixpoint →
    ∃ edits rest more, Edit.applyPasses records.length text (edits :: rest) = .ok (fixpoint.code, more) ∧
      fixpoint.records = records ++ more
  | 0, state, text, records, h => by cases h
  | left + 1, state, text, records, h => by
    obtain ⟨_, found, state', edits, output, record, hleft, -, -, -, happly, hrest⟩ := passes_eq_ok h
    cases hleft
    rcases hrest with ⟨-, rfl⟩ | ⟨-, hrest⟩
    · refine ⟨edits, [], [record], ?_, rfl⟩
      rw [Edit.applyPasses, happly]
      rfl
    · obtain ⟨next, rest, more, hpasses, hrecords⟩ := applyPasses_of_passes hrest
      rw [List.length_append, List.length_singleton] at hpasses
      refine ⟨edits, next :: rest, record :: more, ?_, ?_⟩
      · rw [Edit.applyPasses, happly]
        simp only [hpasses]
      · rw [hrecords, List.append_assoc]
        rfl

/-- A run whose rule keeps its state from some pass on ends with a pass that finds nothing in the code. -/
theorem lastPass_of_passes (keeps : ∀ pass, pass.isFirst = false → rule.seed pass state = .ok state) :
    ∀ {left : Nat} {text : Text} {records : List Record}, records ≠ [] →
      (rule.passes file limit left state text records).outcome = .ok fixpoint →
      ∃ last index, Module.read fixpoint.code (elementsIn file) = .ok last ∧
        rule.collectEdits ⟨index, last⟩ state = .ok []
  | 0, text, records, _, h => by cases h
  | left + 1, text, records, hrecords, h => by
    obtain ⟨_, found, state', edits, output, record, hleft, hread, hseed, hedits, happly, hrest⟩ :=
      passes_eq_ok h
    cases hleft
    have hlater : Pass.isFirst ⟨records.length, found⟩ = false := by
      simp [Pass.isFirst, hrecords]
    rw [keeps _ hlater] at hseed
    cases hseed
    rcases hrest with ⟨rfl, rfl⟩ | ⟨-, hrest⟩
    · rw [Edit.applyAll_nil] at happly
      cases happly
      exact ⟨found, records.length, hread, hedits⟩
    · exact lastPass_of_passes keeps (by simp) hrest

theorem lastPass_of_run {seeded : Module → σ}
    (seeds : ∀ found, rule.seed ⟨0, found⟩ rule.initial = .ok (seeded found))
    (keeps : ∀ state pass, pass.isFirst = false → rule.seed pass state = .ok state)
    (h : (rule.run file limit text).outcome = .ok fixpoint) :
    ∃ first last index, Module.read text (elementsIn file) = .ok first ∧
      Module.read fixpoint.code (elementsIn file) = .ok last ∧
      rule.collectEdits ⟨index, last⟩ (seeded first) = .ok [] := by
  obtain ⟨_, first, state, edits, output, record, -, hread, hseed, hedits, happly, hrest⟩ := passes_eq_ok h
  rw [List.length_nil] at hseed hedits happly
  rw [seeds] at hseed
  cases hseed
  rcases hrest with ⟨rfl, rfl⟩ | ⟨-, hrest⟩
  · rw [Edit.applyAll_nil] at happly
    cases happly
    exact ⟨first, first, 0, hread, hread, hedits⟩
  · obtain ⟨last, index, hlast, hnone⟩ := lastPass_of_passes (keeps _) (by simp) hrest
    exact ⟨first, last, index, hread, hlast, hnone⟩

theorem run_of_collectEdits_eq_nil {found : Module} (hlimit : 0 < limit)
    (hread : Module.read text (elementsIn file) = .ok found)
    (hseed : rule.seed ⟨0, found⟩ rule.initial = .ok state)
    (hedits : rule.collectEdits ⟨0, found⟩ state = .ok []) :
    ∃ record, (rule.run file limit text).outcome = .ok ⟨text, [record]⟩ := by
  obtain ⟨limit, rfl⟩ := Nat.exists_eq_add_of_lt hlimit
  exact passes_of_collectEdits_eq_nil [] hread hseed hedits

theorem collectEdits_of_run_once (h : (rule.run file limit text).outcome = .ok fixpoint)
    (honce : fixpoint.passes = 1) : ∃ found state, Module.read text (elementsIn file) = .ok found ∧
      rule.seed ⟨0, found⟩ rule.initial = .ok state ∧ rule.collectEdits ⟨0, found⟩ state = .ok [] := by
  obtain ⟨_, found, state, edits, output, record, -, hread, hseed, hedits, -, hrest⟩ := passes_eq_ok h
  refine ⟨found, state, hread, hseed, ?_⟩
  rcases hrest with ⟨rfl, -⟩ | ⟨-, hrest⟩
  · exact hedits
  · obtain ⟨next, rest, more, hpasses, hrecords⟩ := applyPasses_of_passes hrest
    obtain ⟨_, second, more, -, -, rfl⟩ := Edit.applyPasses_cons hpasses
    rw [Fixpoint.passes, hrecords] at honce
    simp at honce

end Rule
end ClassWeave
