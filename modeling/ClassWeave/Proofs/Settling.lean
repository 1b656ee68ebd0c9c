import ClassWeave.Helper.Transform
import ClassWeave.Proofs.Marking
import ClassWeave.Proofs.PassEdits
import Mathlib.Data.List.Forall2
/-!
# What transforming leaves

No call of a helper is left in transformed code: what it is compiled to begins differently, so such
a call is never settled. An import of the helper module is settled if it binds no compiled helper
and is written as it would be left; code whose imports are settled is its own transformation.
-/

namespace ClassWeave

def compiledNames (aliases : Aliases) (name : String) : Bool := (aliases.lookup name).any Helper.isCompiled

namespace Node

def called? : Node → Option String
  | .mk (.call _) _ (.mk (.identifier name) _ _ :: _) => some name
  | _ => none

def isHelperCall (aliases : Aliases) (node : Node) : Bool := node.called?.any (compiledNames aliases)

def helperImport? (options : Options) (node : Node) : Option ImportDeclaration :=
  match node.shape with
  | .importDeclaration declaration => if declaration.isOfHelpers options then some declaration else none
  | _ => none

end Node

namespace Module

def helperImports (options : Options) (m : Module) : List (Span × ImportDeclaration) :=
  (Node.allTargets m.items).filterMap fun node => (node.helperImport? options).map fun found =>
    (node.span, found)

structure Orderly (m : Module) : Prop where
  nested : Node.AllNested m.items
  named : ∀ node ∈ Node.allTargets m.items, node.called?.isSome → ¬ (m.textAt node.span).Marked

instance (m : Module) : Decidable m.Orderly :=
  decidable_of_iff (Node.AllNested m.items ∧
    ∀ node ∈ Node.allTargets m.items, node.called?.isSome → ¬ (m.textAt node.span).Marked)
    ⟨fun h => ⟨h.1, h.2⟩, fun h => ⟨h.1, h.2⟩⟩

def HelperFree (options : Options) (m : Module) : Prop :=
  ∀ found ∈ m.helperImports options, found.2.bindings = []

/-- An import that can be read, and stands as it would be left. -/
structure StandsAsLeft (options : Options) (m : Module) (span : Span)
    (declaration : ImportDeclaration) : Prop where
  readable : ∀ kept ∈ declaration.keptSpans, m.admits kept = true
  text : m.textAt? span = some ((declaration.withoutHelpers ⟨0, m⟩ options.module).getD [])

/-- Every import of the helper module binds no compiled helper and stands as it would be left. -/
def Settled (options : Options) (m : Module) : Prop :=
  ∀ found ∈ m.helperImports options, found.2.bindings = [] ∧ m.StandsAsLeft options found.1 found.2

theorem mem_helperImports {options : Options} {m : Module} {span : Span} {declaration : ImportDeclaration} :
    (span, declaration) ∈ m.helperImports options ↔
      ∃ node ∈ Node.allTargets m.items, node.helperImport? options = some declaration ∧ node.span = span := by
  simp only [helperImports, List.mem_filterMap, Option.map_eq_some_iff, Prod.mk.injEq]
  constructor
  · rintro ⟨node, hnode, found, hfound, rfl, rfl⟩
    exact ⟨node, hnode, hfound, rfl⟩
  · rintro ⟨node, hnode, hfound, rfl⟩
    exact ⟨node, hnode, declaration, hfound, rfl, rfl⟩

end Module

section
variable {options : Options} {pass : Pass} {aliases : Aliases} {node : Node}

/-! ## Calls -/

theorem pick_of_called {name : String} {helper : Helper} (hcalled : node.called? = some name)
    (hlookup : aliases.lookup name = some helper) (hcompiled : helper.isCompiled = true) :
    ∃ given, pick options pass aliases node = some (.tx given) ∨
    pick options pass aliases node = some (.tm given) := by
  unfold Node.called? at hcalled
  split at hcalled
  · cases hcalled
    unfold pick
    simp only [hlookup]
    cases helper with
    | tx => exact ⟨_, .inl rfl⟩
    | tm => exact ⟨_, .inr rfl⟩
    | tv => cases hcompiled
  · cases hcalled

theorem isTarget_of_called {name : String} (h : node.called? = some name) : node.shape.isTarget = true := by
  unfold Node.called? at h
  split at h
  · rfl
  · cases h

theorem isTarget_of_isHelperCall (h : node.isHelperCall aliases = true) : node.shape.isTarget = true := by
  obtain ⟨name, hname, -⟩ := (Option.any_eq_true _ _).1 h
  exact isTarget_of_called hname

theorem isHelperCall_of_pick {picked : HelperTarget} (hlater : pass.isFirst = false)
    (h : pick options pass aliases node = some picked) : node.isHelperCall aliases = true := by
  unfold pick at h
  split at h
  · rw [hlater] at h
    cases h
  · rename_i arity span name span' inner behind
    show Option.any (compiledNames aliases) (some name) = true
    rw [Option.any_some, compiledNames]
    split at h
    · rename_i hlookup
      rw [hlookup]
      rfl
    · rename_i hlookup
      rw [hlookup]
      rfl
    · cases h
  · cases h

/-- A compiled call is never as it was, unless it began as what it is compiled to. -/
theorem changes_of_unmarked {span : Span} {given : List Node} {picked : HelperTarget}
    (hpicked : picked = .tx given ∨ picked = .tm given) (h : ¬ (pass.textAt span).Marked) :
    (transformer options).changes pass aliases span picked = true := by
  unfold Rule.changes
  cases hreplaced : (transformer options).replaceAt pass aliases span picked with
  | error failure => rfl
  | ok replacement =>
    have hreplace := (Rule.replaceAt_eq_ok.1 hreplaced).1
    have hmarked : ∃ text, replacement = some text ∧ text.Marked := by
      rcases hpicked with rfl | rfl
      · change (compileTx pass given options).map some = _ at hreplace
        cases hcompile : compileTx pass given options with
        | error failure => rw [hcompile] at hreplace; cases hreplace
        | ok text =>
          rw [hcompile] at hreplace
          cases hreplace
          exact ⟨text, rfl, marked_of_compileTx hcompile⟩
      · change (compileTm given).map some = _ at hreplace
        cases hcompile : compileTm given with
        | error failure => rw [hcompile] at hreplace; cases hreplace
        | ok text =>
          rw [hcompile] at hreplace
          cases hreplace
          exact ⟨text, rfl, marked_of_compileTm hcompile⟩
    obtain ⟨text, rfl, htext⟩ := hmarked
    simp only [Option.getD_some, bne_iff_ne, ne_eq]
    intro heq
    exact h (heq ▸ htext)

theorem not_called_of_collectEdits (orderly : pass.module.Orderly)
    (h : (transformer options).collectEdits pass aliases = .ok [])
    (hnode : node ∈ Node.allTargets pass.module.items) {name : String}
    (hcalled : node.called? = some name) {helper : Helper} (hlookup : aliases.lookup name = some helper) :
    helper.isCompiled = false := by
  by_contra hcompiled
  rw [Bool.not_eq_false] at hcompiled
  obtain ⟨given, hpick⟩ := @pick_of_called options pass aliases node _ _ hcalled hlookup hcompiled
  have hunmarked : ¬ (pass.textAt node.span).Marked := orderly.named node hnode (by rw [hcalled]; rfl)
  have hpicked := fun found (hfound : pick options pass aliases node = some found) =>
    (Rule.collectEdits_eq_nil_iff orderly.nested).1 h node hnode found
      ((Rule.picked?_of_isTarget (isTarget_of_called hcalled)).trans hfound)
  rcases hpick with hpick | hpick
  · have := hpicked _ hpick
    rw [changes_of_unmarked (.inl rfl) hunmarked] at this
    cases this
  · have := hpicked _ hpick
    rw [changes_of_unmarked (.inr rfl) hunmarked] at this
    cases this

end

/-! ## Imports -/

section
variable {options : Options} {m : Module}

theorem pick_of_helperImport {node : Node} {declaration : ImportDeclaration} (aliases : Aliases)
    (h : node.helperImport? options = some declaration) :
    pick options ⟨0, m⟩ aliases node = some (.importDeclaration declaration) := by
  obtain ⟨shape, span, children⟩ := node
  unfold Node.helperImport? at h
  split at h
  · rename_i found hshape
    split at h
    · rename_i hhelpers
      cases h
      cases hshape
      exact if_pos (by simp [Pass.isFirst, hhelpers])
    · cases h
  · cases h

theorem helperImport_of_pick {node : Node} {picked : HelperTarget}
    (h : pick options ⟨0, m⟩ [] node = some picked) :
    ∃ declaration, node.helperImport? options = some declaration ∧
    picked = .importDeclaration declaration := by
  unfold pick at h
  split at h
  · rename_i declaration span children
    split at h
    · rename_i hhelpers
      cases h
      simp only [Pass.isFirst, beq_self_eq_true, Bool.true_and] at hhelpers
      exact ⟨declaration, if_pos hhelpers, rfl⟩
    · cases h
  · cases h
  · cases h

theorem isTarget_of_helperImport {node : Node} {declaration : ImportDeclaration}
    (h : node.helperImport? options = some declaration) : node.shape.isTarget = true := by
  unfold Node.helperImport? at h
  split at h
  · rename_i hshape
    rw [hshape]
    rfl
  · cases h

theorem changes_import_eq_false {aliases : Aliases} {span : Span} {declaration : ImportDeclaration} :
    (transformer options).changes ⟨0, m⟩ aliases span (.importDeclaration declaration) = false ↔
      m.StandsAsLeft options span declaration := by
  have hreplace : (transformer options).replace ⟨0, m⟩ aliases (.importDeclaration declaration) =
      (Pass.reading ⟨0, m⟩ declaration.keptSpans
        (declaration.withoutHelpers ⟨0, m⟩ options.module)).mapError .pass := rfl
  unfold Rule.changes
  rcases Pass.reading_cases ⟨0, m⟩ declaration.keptSpans
    (declaration.withoutHelpers ⟨0, m⟩ options.module) with
    ⟨hreadable, hreading⟩ | ⟨⟨kept, hkept, hnot⟩, hreading⟩
  · rw [hreading] at hreplace
    cases hspan : m.admits span with
    | true =>
      rw [Rule.replaceAt_of_admits hspan hreplace]
      refine bne_eq_false_iff_eq.trans ⟨fun h => ⟨hreadable, ?_⟩, fun h => ?_⟩
      · exact Module.textAt?_eq_some_iff.2 ⟨hspan, h.symm⟩
      · exact (Module.textAt?_eq_some_iff.1 h.text).2.symm
    | false =>
      have hnot : ∀ replacement, (transformer options).replaceAt ⟨0, m⟩ aliases span
          (.importDeclaration declaration) ≠ .ok replacement := by
        intro replacement h
        rw [(Rule.replaceAt_eq_ok.1 h).2] at hspan
        cases hspan
      cases hreplaced : (transformer options).replaceAt ⟨0, m⟩
        aliases span (.importDeclaration declaration) with
      | ok replacement => exact absurd hreplaced (hnot replacement)
      | error failure =>
        refine iff_of_false nofun fun h => ?_
        rw [(Module.textAt?_eq_some_iff.1 h.text).1] at hspan
        cases hspan
  · rw [hreading] at hreplace
    rw [Rule.replaceAt_of_error hreplace]
    refine iff_of_false nofun fun h => ?_
    rw [h.readable kept hkept] at hnot
    cases hnot

theorem collectEdits_eq_nil_iff_imports (nested : Node.AllNested m.items) :
    (transformer options).collectEdits ⟨0, m⟩ [] = .ok [] ↔
      ∀ found ∈ m.helperImports options, m.StandsAsLeft options found.1 found.2 := by
  rw [Rule.collectEdits_eq_nil_iff nested]
  constructor
  · rintro h ⟨span, declaration⟩ hfound
    obtain ⟨node, hnode, himport, rfl⟩ := Module.mem_helperImports.1 hfound
    have hpicked : (transformer options).picked? ⟨0, m⟩ [] node = some (.importDeclaration declaration) := by
      rw [Rule.picked?_of_isTarget (isTarget_of_helperImport himport)]
      exact pick_of_helperImport [] himport
    exact changes_import_eq_false.1 (h node hnode (.importDeclaration declaration) hpicked)
  · intro h node hnode picked hpicked
    unfold Rule.picked? at hpicked
    split at hpicked
    · obtain ⟨declaration, himport, rfl⟩ := helperImport_of_pick hpicked
      exact changes_import_eq_false.2
        (h (node.span, declaration) (Module.mem_helperImports.2 ⟨node, hnode, himport, rfl⟩))
    · cases hpicked

theorem Node.mem_allTargets {node : Node} (htarget : node.shape.isTarget = true) :
    ∀ {trees : List Node}, node ∈ trees → node ∈ allTargets trees
  | first :: rest, h => by
    rw [allTargets]
    rcases List.mem_cons.1 h with rfl | h
    · obtain ⟨shape, span, children⟩ := node
      exact List.mem_append_left _ (mem_targets_self htarget)
    · exact List.mem_append_right _ (mem_allTargets htarget h)

theorem aliasesIn_eq_nil (h : m.HelperFree options) : aliasesIn options m.items = [] := by
  rw [aliasesIn, List.flatten_eq_nil_iff]
  intro found hfound
  obtain ⟨item, hitem, rfl⟩ := List.mem_map.1 hfound
  rw [List.mem_reverse] at hitem
  unfold aliasesOf
  split
  · rename_i declaration span children
    split
    · rename_i hhelpers
      have himport : (Node.mk (.importDeclaration declaration) span children).helperImport? options =
          some declaration := if_pos hhelpers
      have hmem := Node.mem_allTargets (isTarget_of_helperImport himport) hitem
      rw [h (span, declaration) (Module.mem_helperImports.2 ⟨_, hmem, himport, rfl⟩)]
      rfl
    · rfl
  · rfl

theorem seed_first (found : Module) : (transformer options).seed ⟨0, found⟩ (transformer options).initial =
    .ok (aliasesIn options found.items) := by
  rw [← List.append_nil (aliasesIn options found.items)]
  rfl

/-- Code holds no compiled helper and is done in one pass, as it is, exactly if it is settled. -/
theorem run_once_iff_settled {code : Text} (hlimit : 0 < options.maxPasses)
    (hread : Module.read code (Rule.elementsIn options.fileName) = .ok m) (nested : Node.AllNested m.items) :
    (m.HelperFree options ∧ ∃ again, (transformTrace code options).outcome = .ok again ∧
      again.code = code ∧ again.passes = 1) ↔ m.Settled options := by
  constructor
  · rintro ⟨hfree, again, hrun, -, honce⟩
    obtain ⟨found, state, hfound, hseed, hedits⟩ := Rule.collectEdits_of_run_once hrun honce
    rw [hread] at hfound
    cases hfound
    rw [seed_first, aliasesIn_eq_nil hfree] at hseed
    cases hseed
    have hsame := (collectEdits_eq_nil_iff_imports nested).1 hedits
    exact fun found hfound => ⟨hfree found hfound, hsame found hfound⟩
  · intro settled
    have hfree : m.HelperFree options := fun found hfound => (settled found hfound).1
    have hedits := (collectEdits_eq_nil_iff_imports nested).2 fun found hfound => (settled found hfound).2
    have hseed := @seed_first options m
    rw [aliasesIn_eq_nil hfree] at hseed
    obtain ⟨record, hrun⟩ := Rule.run_of_collectEdits_eq_nil hlimit hread hseed hedits
    exact ⟨hfree, _, hrun, rfl, rfl⟩

end

/-! ## Imports that a pass has left -/

namespace ImportSpecifier

inductive Alike (before after : Module) : ImportSpecifier → ImportSpecifier → Prop where
  | single {span span' : Span} {binding : String} (text : after.textAt? span' = some (before.textAt span)) :
    Alike before after (.single span binding) (.single span' binding)
  | everything {span span' : Span} {binding : String}
      (text : after.textAt? span' = some (before.textAt span)) :
    Alike before after (.everything span binding) (.everything span' binding)
  | named {span span' : Span} {imported binding : String} {typeOnly : Bool}
    (text : after.textAt? span' = some (before.textAt span)) :
    Alike before after (.named span imported binding typeOnly) (.named span' imported binding typeOnly)

instance (before after : Module) (specifier other : ImportSpecifier) :
    Decidable (Alike before after specifier other) :=
  match specifier, other with
  | .single span binding, .single span' binding' =>
    decidable_of_iff (binding = binding' ∧ after.textAt? span' = some (before.textAt span))
      ⟨by rintro ⟨rfl, h⟩; exact .single h, by intro h; cases h with | single text => exact ⟨rfl, text⟩⟩
  | .everything span binding, .everything span' binding' =>
    decidable_of_iff (binding = binding' ∧ after.textAt? span' = some (before.textAt span))
      ⟨by rintro ⟨rfl, h⟩; exact .everything h, by
        intro h; cases h with | everything text => exact ⟨rfl, text⟩⟩
  | .named span imported binding typeOnly, .named span' imported' binding' typeOnly' =>
    decidable_of_iff ((imported = imported' ∧ binding = binding' ∧ typeOnly = typeOnly') ∧
      after.textAt? span' = some (before.textAt span))
      ⟨by rintro ⟨⟨rfl, rfl, rfl⟩, h⟩; exact .named h, by
        intro h; cases h with | named text => exact ⟨⟨rfl, rfl, rfl⟩, text⟩⟩
  | .single _ _, .everything _ _ | .single _ _, .named _ _ _ _ | .everything _ _, .single _ _
  | .everything _ _, .named _ _ _ _ | .named _ _ _ _, .single _ _ | .named _ _ _ _, .everything _ _ =>
    .isFalse nofun

theorem Alike.textAt_eq {before after : Module} {specifier other : ImportSpecifier}
    (h : Alike before after specifier other) :
    before.textAt specifier.span = after.textAt other.span ∧ after.admits other.span = true := by
  have hread : ∀ {span span' : Span}, after.textAt? span' = some (before.textAt span) →
      before.textAt span = after.textAt span' ∧ after.admits span' = true := fun h =>
    ⟨(Module.textAt?_eq_some_iff.1 h).2.symm, (Module.textAt?_eq_some_iff.1 h).1⟩
  cases h with
  | single text => exact hread text
  | everything text => exact hread text
  | named text => exact hread text

end ImportSpecifier

namespace ImportDeclaration

theorem span_of_mem_keptSpans {declaration : ImportDeclaration}
    {span : Span} (h : span ∈ declaration.keptSpans) :
    ∃ specifier ∈ declaration.specifiers, specifier.span = span := by
  have hfound : ∀ {found : ImportSpecifier → Option Span},
      (∀ specifier span, found specifier = some span → specifier.span = span) →
      span ∈ declaration.specifiers.filterMap found →
      ∃ specifier ∈ declaration.specifiers, specifier.span = span := by
    intro found hspan h
    obtain ⟨specifier, hspecifier, hsome⟩ := List.mem_filterMap.1 h
    exact ⟨specifier, hspecifier, hspan specifier span hsome⟩
  rw [keptSpans, List.mem_append, List.mem_append] at h
  rcases h with (h | h) | h
  · refine hfound ?_ (List.mem_of_getLast? (Option.mem_toList.1 h))
    intro specifier span hsome
    cases specifier <;> cases hsome
    rfl
  · refine hfound ?_ (List.mem_of_getLast? (Option.mem_toList.1 h))
    intro specifier span hsome
    cases specifier <;> cases hsome
    rfl
  · refine hfound ?_ h
    intro specifier span hsome
    cases specifier with
    | single => cases hsome
    | everything => cases hsome
    | named =>
      simp only [Option.ite_none_right_eq_some, Option.some.injEq] at hsome
      exact hsome.2

def kept (declaration : ImportDeclaration) : List ImportSpecifier :=
  declaration.specifiers.filter (·.compiled?.isNone)

/-- The text that one import leaves, in which another has the specifiers that stay of it. -/
structure LeavesAs (before after : Module) (options : Options)
    (declaration left : ImportDeclaration) (span : Span) :
    Prop where
  stays : (declaration.withoutHelpers ⟨0, before⟩ options.module).isSome = true
  text : after.textAt? span = declaration.withoutHelpers ⟨0, before⟩ options.module
  specifiers : List.Forall₂ (ImportSpecifier.Alike before after) declaration.kept left.specifiers

variable {before after : Module} {declaration left : ImportDeclaration}

instance (options : Options) (span : Span) :
    Decidable (declaration.LeavesAs before after options left span) :=
  decidable_of_iff ((declaration.withoutHelpers ⟨0, before⟩ options.module).isSome = true ∧
    after.textAt? span = declaration.withoutHelpers ⟨0, before⟩ options.module ∧
    List.Forall₂ (ImportSpecifier.Alike before after) declaration.kept left.specifiers)
    ⟨fun h => ⟨h.1, h.2.1, h.2.2⟩, fun h => ⟨h.stays, h.text, h.specifiers⟩⟩

theorem filterMap_alike {found : ImportSpecifier → Option Span}
    (hcompiled : ∀ specifier, specifier.compiled?.isNone = false → found specifier = none)
    (halike : ∀ specifier other, ImportSpecifier.Alike before after specifier other →
      (found specifier).map before.textAt = (found other).map after.textAt)
    (h : List.Forall₂ (ImportSpecifier.Alike before after) declaration.kept left.specifiers) :
    (declaration.specifiers.filterMap found).map before.textAt =
      (left.specifiers.filterMap found).map after.textAt := by
  have hkept : declaration.specifiers.filterMap found = declaration.kept.filterMap found := by
    rw [kept, List.filterMap_filter]
    apply List.filterMap_congr
    intro specifier _
    by_cases hnone : specifier.compiled?.isNone = true
    · rw [if_pos hnone]
    · rw [if_neg hnone, hcompiled specifier (Bool.not_eq_true _ ▸ hnone)]
  rw [hkept, List.map_filterMap, List.map_filterMap]
  generalize declaration.kept = kept, left.specifiers = specifiers at h
  induction h with
  | nil => rfl
  | cons hfirst _ ih => rw [List.filterMap_cons, List.filterMap_cons, halike _ _ hfirst, ih]

theorem compiled?_alike {specifier other : ImportSpecifier}
    (h : ImportSpecifier.Alike before after specifier other) :
    other.compiled? = specifier.compiled? := by
  cases h with
  | single => rfl
  | everything => rfl
  | named => rename_i typeOnly _; cases typeOnly <;> rfl

theorem LeavesAs.bindings_eq_nil {span : Span} {options : Options}
    (h : LeavesAs before after options declaration left span) : left.bindings = [] := by
  have hnone : ∀ specifier ∈ declaration.kept, specifier.compiled? = none := by
    intro specifier hspecifier
    exact Option.isNone_iff_eq_none.1 (List.mem_filter.1 hspecifier).2
  have hspecifiers := h.specifiers
  unfold bindings
  rw [List.filterMap_eq_nil_iff]
  generalize declaration.kept = kept at hnone hspecifiers
  generalize left.specifiers = specifiers at hspecifiers
  induction hspecifiers with
  | nil => simp
  | cons hfirst _ ih =>
    intro specifier hspecifier
    rcases List.mem_cons.1 hspecifier with rfl | hrest
    · rw [compiled?_alike hfirst]
      exact hnone _ List.mem_cons_self
    · exact ih (fun other hother => hnone other (List.mem_cons_of_mem _ hother)) specifier hrest

theorem LeavesAs.readable {span : Span} {options : Options}
    (h : LeavesAs before after options declaration left span) :
    ∀ kept ∈ left.keptSpans, after.admits kept = true := by
  intro kept hkept
  obtain ⟨specifier, hspecifier, rfl⟩ := span_of_mem_keptSpans hkept
  have hspecifiers := h.specifiers
  generalize declaration.kept = specifiers at hspecifiers
  generalize left.specifiers = others at hspecifiers hspecifier
  induction hspecifiers with
  | nil => cases hspecifier
  | cons hfirst _ ih =>
    rcases List.mem_cons.1 hspecifier with rfl | hrest
    · exact hfirst.textAt_eq.2
    · exact ih hrest

theorem LeavesAs.withoutHelpers_eq {span : Span} {options : Options}
    (h : LeavesAs before after options declaration left span) :
    left.withoutHelpers ⟨0, after⟩ options.module =
      declaration.withoutHelpers ⟨0, before⟩ options.module := by
  have hsingle : declaration.single?.map before.textAt = left.single?.map after.textAt := by
    unfold single?
    rw [← List.getLast?_map, ← List.getLast?_map, filterMap_alike ?_ ?_ h.specifiers]
    · intro specifier hspecifier
      cases specifier <;> first | rfl | cases hspecifier
    · intro specifier other halike
      have htext := halike.textAt_eq.1
      cases halike with
      | single => exact congrArg some htext
      | everything => rfl
      | named => rfl
  have heverything : declaration.everything?.map before.textAt = left.everything?.map after.textAt := by
    unfold everything?
    rw [← List.getLast?_map, ← List.getLast?_map, filterMap_alike ?_ ?_ h.specifiers]
    · intro specifier hspecifier
      cases specifier <;> first | rfl | cases hspecifier
    · intro specifier other halike
      have htext := halike.textAt_eq.1
      cases halike with
      | single => rfl
      | everything => exact congrArg some htext
      | named => rfl
  have hnames : declaration.keptNames.map before.textAt = left.keptNames.map after.textAt := by
    refine filterMap_alike ?_ ?_ h.specifiers
    · intro specifier hspecifier
      cases specifier with
      | single => rfl
      | everything => rfl
      | named => exact if_neg (Bool.eq_false_iff.1 hspecifier)
    · intro specifier other halike
      have hcompiled := compiled?_alike halike
      have htext := halike.textAt_eq.1
      cases halike with
      | single => rfl
      | everything => rfl
      | named =>
        simp only [hcompiled]
        split
        · exact congrArg some htext
        · rfl
  have htextAt : ∀ m : Module, Pass.textAt ⟨0, m⟩ = m.textAt := fun _ => rfl
  simp only [withoutHelpers, htextAt, hsingle, heverything, hnames]

end ImportDeclaration

/-- Every import of the helper module is one that another module had, as that would be left. -/
def Module.ImportsLeftOf (options : Options) (before after : Module) : Prop :=
  ∀ found ∈ after.helperImports options, ∃ original ∈ before.helperImports options,
    original.2.LeavesAs before after options found.2 found.1

instance (options : Options) (before after : Module) :
    Decidable (Module.ImportsLeftOf options before after) :=
  inferInstanceAs
    (Decidable (∀ found ∈ after.helperImports options, ∃ original ∈ before.helperImports options,
    original.2.LeavesAs before after options found.2 found.1))

theorem Module.ImportsLeftOf.settled {options : Options} {before after : Module}
    (h : ImportsLeftOf options before after) : after.Settled options := by
  intro found hfound
  obtain ⟨original, -, hleft⟩ := h found hfound
  refine ⟨hleft.bindings_eq_nil, hleft.readable, ?_⟩
  obtain ⟨text, htext⟩ := Option.isSome_iff_exists.1 hleft.stays
  rw [hleft.withoutHelpers_eq, hleft.text, htext]
  rfl

/-! ## Transformed code -/

theorem outcome_of_transform {source : String} {options : Options} {out : Transformed}
    (h : transform source options = .ok out) :
    ∃ fixpoint, (transformTrace source.toList options).outcome = .ok fixpoint ∧
      fixpoint.code = out.code.toList := by
  unfold transform at h
  cases hrun : (transformTrace source.toList options).outcome with
  | error failure => rw [hrun] at h; cases h
  | ok fixpoint =>
    rw [hrun] at h
    cases h
    exact ⟨fixpoint, rfl, String.toList_ofList.symm⟩

theorem transform_of_outcome {source : String} {options : Options} {fixpoint : Fixpoint}
    (h : (transformTrace source.toList options).outcome = .ok fixpoint) :
    transform source options = .ok ⟨String.ofList fixpoint.code, fixpoint.map options.fileName⟩ := by
  unfold transform
  rw [h]
  rfl

theorem keeps_aliases (options : Options) (aliases : Aliases) (pass : Pass) (h : pass.isFirst = false) :
    (transformer options).seed pass aliases = .ok aliases := by
  show Except.ok (if pass.isFirst = true then _ else _) = _
  rw [if_neg (by rw [h]; exact Bool.false_ne_true)]

/-- Transformed code holds no call of a compiled helper. It holds no import of one and is its own
transformation if its imports are those that the first pass left. -/
theorem transform_leaves_nothing {source : String} {options : Options} {out : Transformed}
    (h : transform source options = .ok out) :
    ∃ first last : Module, Module.read source.toList (Rule.elementsIn options.fileName) = .ok first ∧
      Module.read out.code.toList (Rule.elementsIn options.fileName) = .ok last ∧
      (last.Orderly →
        (∀ node ∈ Node.allTargets last.items, ∀ name helper, node.called? = some name →
          (aliasesIn options first.items).lookup name = some helper → helper.isCompiled = false) ∧
        ((last.HelperFree options ∧ ∃ again, (transformTrace out.code.toList options).outcome = .ok again ∧
          again.code = out.code.toList ∧ again.passes = 1) ↔ last.Settled options) ∧
        (Module.ImportsLeftOf options first last →
          last.HelperFree options ∧ ∃ again, transform out.code options = .ok again ∧
          again.code = out.code)) := by
  obtain ⟨fixpoint, hrun, hcode⟩ := outcome_of_transform h
  have hlimit : 0 < options.maxPasses := by
    obtain ⟨left, _, _, _, _, _, hleft, -⟩ := Rule.passes_eq_ok hrun
    omega
  obtain ⟨first, last, index, hfirst, hlast, hnone⟩ :=
    Rule.lastPass_of_run seed_first (fun state pass => keeps_aliases options state pass) hrun
  rw [hcode] at hlast
  refine ⟨first, last, hfirst, hlast, fun orderly =>
    ⟨?_, run_once_iff_settled hlimit hlast orderly.nested, ?_⟩⟩
  · intro node hnode name helper hcalled hlookup
    exact @not_called_of_collectEdits options ⟨index, last⟩ _
      node orderly hnone hnode name hcalled helper hlookup
  · intro left
    obtain ⟨hfree, again, hagain, hsame, -⟩ :=
      (run_once_iff_settled hlimit hlast orderly.nested).2 left.settled
    exact ⟨hfree, _, transform_of_outcome hagain, by rw [hsame, String.ofList_toList]⟩

def leavesOrderly (source : Text) (options : Options) : Bool :=
  match (transformTrace source options).outcome with
  | .error _ => false
  | .ok fixpoint =>
    match Module.read source (Rule.elementsIn options.fileName),
      Module.read fixpoint.code (Rule.elementsIn options.fileName) with
    | .ok first, .ok last => decide last.Orderly && decide (Module.ImportsLeftOf options first last)
    | _, _ => false

theorem of_leavesOrderly {source : Text} {options : Options} (h : leavesOrderly source options = true) :
    ∃ fixpoint first last, (transformTrace source options).outcome = .ok fixpoint ∧
      Module.read source (Rule.elementsIn options.fileName) = .ok first ∧
      Module.read fixpoint.code (Rule.elementsIn options.fileName) = .ok last ∧
      last.Orderly ∧ Module.ImportsLeftOf options first last := by
  unfold leavesOrderly at h
  split at h
  · cases h
  · rename_i fixpoint hrun
    split at h
    · rename_i first last hfirst hlast
      rw [Bool.and_eq_true, decide_eq_true_eq, decide_eq_true_eq] at h
      exact ⟨fixpoint, first, last, hrun, hfirst, hlast, h⟩
    · cases h

set_option maxRecDepth 100000 in
/-- Code with a compiled call and an import that stays is its own transformation. -/
theorem transform_leaves_nothing_but_tv :
    ∃ out, transform "import { tx, tv } from \"@mkx419/tx\";f(tx('a', b), tv)" {} = .ok out ∧
      ∃ again, transform out.code {} = .ok again ∧ again.code = out.code := by
  have hleaves :
      leavesOrderly "import { tx, tv } from \"@mkx419/tx\";f(tx('a', b), tv)".toList {} = true := by
    decide +kernel
  obtain ⟨fixpoint, first, last, hrun, hfirst, hlast, orderly, hleft⟩ := of_leavesOrderly hleaves
  have h := transform_of_outcome hrun
  obtain ⟨first', last', hfirst', hlast', hthen⟩ := transform_leaves_nothing h
  rw [hfirst] at hfirst'
  rw [String.toList_ofList, hlast] at hlast'
  cases hfirst'
  cases hlast'
  exact ⟨_, h, ((hthen orderly).2.2 hleft).2⟩

end ClassWeave
