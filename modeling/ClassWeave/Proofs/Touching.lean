import ClassWeave.Proofs.Regrowing
import ClassWeave.Proofs.Settling
import Mathlib.Data.List.Pairwise
/-!
# What transforming touches

The outermost picked targets of the first pass are the only stretches of a source that its
transformation changes. In every later text each target that is picked stands inside the stretch
that one of them has become: what is written for a target stays inside it, and what is kept is
moved, and picked no sooner than before.
-/

namespace ClassWeave

namespace Node

/-! ## Outermost targets -/

section
variable (picks : Node → Bool)

mutual

def outermost : Node → List Node
  | .mk shape span children =>
    if shape.isTarget && picks (.mk shape span children) then [.mk shape span children]
      else allOutermost children

def allOutermost : List Node → List Node
  | [] => []
  | node :: rest => outermost node ++ allOutermost rest

end

end

variable {picks : Node → Bool}

mutual

theorem outermost_subset : ∀ node : Node, outermost picks node ⊆ node.targets
  | .mk shape span children => by
    have ih := allOutermost_subset children
    rw [outermost]
    split
    · rename_i hpicked
      rw [Bool.and_eq_true] at hpicked
      rw [List.cons_subset]
      exact ⟨mem_targets_self hpicked.1, List.nil_subset _⟩
    · exact List.Subset.trans ih allTargets_subset_targets

theorem allOutermost_subset : ∀ trees : List Node, allOutermost picks trees ⊆ allTargets trees
  | [] => List.nil_subset _
  | node :: rest => by
    rw [allOutermost, allTargets, List.append_subset]
    exact ⟨List.Subset.trans (outermost_subset node) (List.subset_append_left _ _),
      List.Subset.trans (allOutermost_subset rest) (List.subset_append_right _ _)⟩

end

mutual

theorem outermost_apart : ∀ node : Node, node.Nested →
    (outermost picks node).Pairwise fun a b => a.span.Apart b.span
  | .mk shape span children, hnested => by
    rw [Nested] at hnested
    have ih := allOutermost_apart children hnested.2
    rw [outermost]
    split
    · exact List.pairwise_singleton _ _
    · exact ih

theorem allOutermost_apart : ∀ trees : List Node, AllNested trees →
    (allOutermost picks trees).Pairwise fun a b => a.span.Apart b.span
  | [], _ => .nil
  | node :: rest, hnested => by
    rw [AllNested] at hnested
    obtain ⟨hnode, hrest, happart⟩ := hnested
    rw [allOutermost, List.pairwise_append]
    exact ⟨outermost_apart node hnode, allOutermost_apart rest hrest, fun a ha b hb =>
      happart a (outermost_subset node ha) b (allOutermost_subset rest hb)⟩

end

mutual

theorem exists_outermost : ∀ node : Node, node.Nested → ∀ target ∈ node.targets, picks target = true →
    ∃ outer ∈ outermost picks node, target.span.Within outer.span
  | .mk shape span children, hnested, target, htarget, hpicked => by
    rw [Nested] at hnested
    have ih := exists_allOutermost children hnested.2 target
    rw [targets] at htarget
    rw [outermost]
    split at htarget
    · rename_i hshape
      rw [hshape, Bool.true_and]
      rcases List.mem_cons.1 htarget with rfl | hinner
      · rw [if_pos hpicked]
        exact ⟨_, List.mem_singleton_self _, Nat.le_refl _, Nat.le_refl _⟩
      · split
        · have hinside := hnested.1 hshape target hinner
          exact ⟨_, List.mem_singleton_self _, hinside.start, hinside.stop⟩
        · exact ih hinner hpicked
    · rename_i hshape
      rw [if_neg (by simp [hshape])]
      exact ih htarget hpicked

theorem exists_allOutermost : ∀ trees : List Node, AllNested trees →
    ∀ target ∈ allTargets trees, picks target = true →
    ∃ outer ∈ allOutermost picks trees, target.span.Within outer.span
  | node :: rest, hnested, target, htarget, hpicked => by
    rw [AllNested] at hnested
    rw [allTargets] at htarget
    rw [allOutermost]
    rcases List.mem_append.1 htarget with htarget | htarget
    · obtain ⟨outer, houter, hwithin⟩ := exists_outermost node hnested.1 target htarget hpicked
      exact ⟨outer, List.mem_append_left _ houter, hwithin⟩
    · obtain ⟨outer, houter, hwithin⟩ := exists_allOutermost rest hnested.2.1 target htarget hpicked
      exact ⟨outer, List.mem_append_right _ houter, hwithin⟩

end

end Node
namespace Rule

variable {options : Options} {pass : Pass} {aliases : Aliases}

/-! ## One pass -/

/-- Whether a node is where a kept one is moved to: as much of a target, and a call of the same name. -/
def Stays (edits : List Edit) (node found : Node) : Prop :=
  found.shape.targetKind? = node.shape.targetKind? ∧ found.called? = node.called? ∧
    found.span = node.span.moved edits

def Fills (edits : List Edit) (node : Node) (trees : List Node) : Prop :=
  ∀ inner ∈ Node.allTargets trees, inner.span.Within (node.span.moved edits)

instance (edits : List Edit) (node found : Node) : Decidable (Stays edits node found) :=
  inferInstanceAs (Decidable (_ ∧ _ ∧ _))

instance (edits : List Edit) (node : Node) (trees : List Node) : Decidable (Fills edits node trees) :=
  inferInstanceAs (Decidable (∀ inner ∈ Node.allTargets trees, inner.span.Within (node.span.moved edits)))

theorem isSome_pick_of_stays {edits : List Edit} {later : Pass}
    {node found : Node} (hlater : later.isFirst = false) (hstays : Stays edits node found)
    (hpicked : (pick options later aliases found).isSome = true) :
    (pick options pass aliases node).isSome = true := by
  obtain ⟨-, hcalled, -⟩ := hstays
  unfold pick at hpicked
  rw [hlater] at hpicked
  split at hpicked
  · simp at hpicked
  · rename_i arity span name span' inner behind
    change some name = node.called? at hcalled
    unfold Node.called? at hcalled
    split at hcalled
    · cases hcalled
      unfold pick
      split at hpicked
      · rename_i hlookup
        simp only [hlookup]
        rfl
      · rename_i hlookup
        simp only [hlookup]
        rfl
      · cases hpicked
    · cases hcalled
  · cases hpicked

def PicksWithin (options : Options) (pass : Pass) (aliases : Aliases) (stretches : List Span) : Prop :=
  ∀ target ∈ Node.allTargets pass.module.items, (pick options pass aliases target).isSome = true →
    ∃ stretch ∈ stretches, target.span.Within stretch

section
variable {edits : List Edit} {stretches : List Span}

theorem edits_within (seated : pass.module.Seated)
    (hedits : (transformer options).collectEdits pass aliases = .ok edits)
    (hwithin : PicksWithin options pass aliases stretches) :
    ∀ edit ∈ edits, ∃ stretch ∈ stretches, edit.span.Within stretch := by
  intro edit hedit
  have hspan : edit.span ∈ edits.map (·.span) := List.mem_map_of_mem hedit
  rw [mem_collectEdits seated.proper hedits] at hspan
  obtain ⟨⟨target, picked⟩, htarget, heq⟩ := List.mem_map.1 hspan
  obtain ⟨hmem, -, -, hpicked⟩ := mem_frontier.1 htarget
  obtain ⟨shape, span, children⟩ := target
  have hpick : pick options pass aliases (.mk shape span children) = some picked :=
    (picked?_of_isTarget (isTarget_of_picked hpicked)).symm.trans hpicked
  rw [← heq]
  exact hwithin _ hmem (by rw [hpick]; rfl)

theorem span_of_edited (seated : pass.module.Seated)
    (hedits : (transformer options).collectEdits pass aliases = .ok edits)
    {node : Node} (hnode : node ∈ Node.allTargets pass.module.items) :
    (transformer options).edited pass aliases node = true → ∃ edit ∈ edits, edit.span = node.span := by
  intro hedited
  obtain ⟨picked, hfrontier⟩ := (edited_iff hnode).1 hedited
  have hspan : node.span ∈ edits.map (·.span) := by
    rw [mem_collectEdits seated.proper hedits]
    exact List.mem_map_of_mem hfrontier
  obtain ⟨edit, hedit, heq⟩ := List.mem_map.1 hspan
  exact ⟨edit, hedit, heq⟩

theorem edited_of_edit (seated : pass.module.Seated)
    (hedits : (transformer options).collectEdits pass aliases = .ok edits)
    {edit : Edit} (hedit : edit ∈ edits) : ∃ node ∈ Node.allTargets pass.module.items,
      (transformer options).edited pass aliases node = true ∧ node.span = edit.span := by
  have hspan : edit.span ∈ edits.map (·.span) := List.mem_map_of_mem hedit
  rw [mem_collectEdits seated.proper hedits] at hspan
  obtain ⟨⟨node, picked⟩, hfrontier, heq⟩ := List.mem_map.1 hspan
  have hnode := (mem_frontier.1 hfrontier).1
  exact ⟨node, hnode, (edited_iff hnode).2 ⟨picked, hfrontier⟩, heq⟩

/-- Where one of some spans apart from each other begins, none of the others, and nothing inside
them, is straddled. -/
theorem apart_or_eq {spans : List Span} (happart : spans.Pairwise Span.Apart)
    {a b : Span} (ha : a ∈ spans) (hb : b ∈ spans) :
    a = b ∨ a.Apart b := by
  have : Std.Symm Span.Apart := ⟨fun _ _ => Span.Apart.symm⟩
  exact or_iff_not_imp_left.2 fun hne => happart.forall ha hb hne

theorem picksWithin_moved {later : Pass} (seated : pass.module.Seated)
    (hedits : (transformer options).collectEdits pass aliases = .ok edits)
    (hwithin : PicksWithin options pass aliases stretches) (happart : stretches.Pairwise Span.Apart)
    (hforward : ∀ stretch ∈ stretches, stretch.start ≤ stretch.stop) (hlater : later.isFirst = false)
    (hregrow : Node.AllRegrow ((transformer options).edited pass aliases)
      (Stays edits) (Fills edits) pass.module.items
      later.module.items) :
    PicksWithin options later aliases (stretches.map (Span.moved edits)) := by
  have apart := collectEdits_apart seated.proper hedits
  have filled := fun edit hedit => (collectEdits_filled seated.proper hedits edit hedit).1
  have hinside := edits_within seated hedits hwithin
  -- What moves a span with its stretch: no edit straddles where the stretch begins, as it stands in
  -- that one or another.
  have hmoved : ∀ (span stretch : Span), stretch ∈ stretches → span.Within stretch →
      (∀ edit ∈ edits, edit.span.stop ≤ span.stop ∨ span.stop ≤ edit.span.start) →
      ∃ become ∈ stretches.map (Span.moved edits), (span.moved edits).Within become := by
    intro span stretch hstretch hspan hclear
    refine ⟨stretch.moved edits, List.mem_map_of_mem hstretch,
      hspan.moved apart filled (fun edit hedit => ?_) hclear⟩
    obtain ⟨other, hother, hstart, hstop⟩ := hinside edit hedit
    have := filled edit hedit
    rcases apart_or_eq happart hother hstretch with rfl | hbefore | hbehind
    · exact .inr hstart
    · exact .inl (hstop.trans hbefore)
    · have := hforward stretch hstretch
      exact .inr (by omega)
  intro found hfound hpicked
  rcases Node.comesFrom_of_allRegrow (fun node => isTarget_of_edited) (fun node found hstays htarget => by
      rw [Shape.isTarget, ← hstays.1]; exact htarget) _ _ seated.proper.nested hregrow found hfound with
    ⟨target, htarget, hedited, trees, hfills, hin⟩ | ⟨target, htarget, hstays, hclear⟩
  · obtain ⟨edit, hedit, heq⟩ := span_of_edited seated hedits htarget hedited
    obtain ⟨stretch, hstretch, hspan⟩ := hinside edit hedit
    obtain ⟨become, hbecome, hwithin'⟩ := hmoved edit.span stretch hstretch hspan fun other hother => by
      have := filled other hother
      have := filled edit hedit
      rcases apart_or_eq (List.pairwise_map.2 apart) (List.mem_map_of_mem hother)
        (List.mem_map_of_mem hedit) with hsame | hbefore | hbehind
      · exact .inl (hsame ▸ Nat.le_refl _)
      · exact .inl (by omega)
      · exact .inr hbehind
    exact ⟨become, hbecome, (heq ▸ hfills found hin).trans hwithin'⟩
  · obtain ⟨stretch, hstretch, hspan⟩ := hwithin target htarget (isSome_pick_of_stays hlater hstays hpicked)
    rw [hstays.2.2]
    refine hmoved target.span stretch hstretch hspan fun edit hedit => ?_
    obtain ⟨other, hother, hedited, heq⟩ := edited_of_edit seated hedits hedit
    have := filled edit hedit
    have := (seated.proper.filled target htarget).1
    rw [← heq]
    rcases hclear other hother hedited with hinner | hbefore | hbehind
    · exact .inl hinner.2
    · exact .inl (by omega)
    · exact .inr hbehind

end

/-! ## Whole runs -/

variable (options) in
/-- Whether every pass of the transformation of a text has its targets seated, and is read as the
tree of the pass regrown in its place. -/
def RereadsInPlace (source : Text) : Prop :=
  ∀ pass aliases, (transformer options).Begins options.fileName source pass aliases →
    pass.module.Seated ∧
    (transformer options).RereadsAs pass aliases (elementsIn options.fileName) Stays Fills

variable {source : Text} {fixpoint : Fixpoint} {spans : List Span}

theorem framed_of_passes (rereads : RereadsInPlace options source) (limit : Nat) :
    ∀ (left : Nat) {state : Aliases} {records : List Record} {text : Text}
      {found : Module} {stretches : List Span},
      (transformer options).Reaches options.fileName source state records text →
      Module.read text (elementsIn options.fileName) = .ok found →
      (transformer options).seed ⟨records.length, found⟩ state = .ok aliases →
      Framed 0 0 spans stretches source text → PicksWithin options ⟨records.length, found⟩ aliases stretches →
      ((transformer options).passes options.fileName limit left state text records).outcome = .ok fixpoint →
      ∃ stretches, Framed 0 0 spans stretches source fixpoint.code
  | 0, _, _, _, _, _, _, _, _, _, _, h => by cases h
  | left + 1, state, records, text, found, stretches, reaches, hread, hseed, framed, hwithin, h => by
    obtain ⟨_, found', state', edits, output, record, hleft, hread', hseed', hedits, happly, hrest⟩ :=
      passes_eq_ok h
    cases hleft
    rw [hread] at hread'
    cases hread'
    rw [hseed] at hseed'
    cases hseed'
    rcases hrest with ⟨rfl, rfl⟩ | ⟨hne, hrest⟩
    · rw [Edit.applyAll_nil] at happly
      cases happly
      exact ⟨stretches, framed⟩
    · obtain ⟨seated, hreread⟩ :=
        rereads ⟨records.length, found⟩ aliases ⟨state, records, text, reaches, hread, rfl, hseed⟩
      have happly' := (Module.text_of_read hread).symm ▸ happly
      obtain ⟨next, hnext, hregrow⟩ := hreread.next hedits hne happly'
      have hlater : Pass.isFirst ⟨(records ++ [record]).length, next⟩ = false := by simp [Pass.isFirst]
      have filled := fun edit hedit => (collectEdits_filled seated.proper hedits edit hedit).1
      have hframed :
          Framed 0 0 spans (stretches.map (Span.moved ([] ++ Edit.inOrder edits))) source output := by
        refine framed.patch (.of_applyAll happly) (fun edit hedit => ?_) (fun _ hnone => by cases hnone) rfl
        rw [Edit.mem_inOrder] at hedit
        exact ⟨filled edit hedit, edits_within seated hedits hwithin edit hedit⟩
      rw [List.nil_append, Span.moved_inOrder] at hframed
      exact framed_of_passes rereads limit left
        (.pass reaches hread (onePass_eq_ok_iff.2 ⟨hseed, hedits, happly'⟩) hne)
        hnext (keeps_aliases options aliases _ hlater) hframed
        (picksWithin_moved seated hedits hwithin framed.apart
          (fun stretch hstretch => (framed.le_start stretch hstretch).2) hlater
          hregrow) hrest

end Rule

/-! ## Transformed code -/

def Module.outermostPicked (options : Options) (m : Module) : List Node :=
  Node.allOutermost (fun node => (pick options ⟨0, m⟩ (aliasesIn options m.items) node).isSome) m.items

theorem Module.exists_frame (options : Options) {m : Module} (seated : m.Seated) : ∃ spans,
    spans.Perm ((m.outermostPicked options).map (·.span)) ∧ Framed 0 0 spans spans m.text m.text := by
  have hsubset : m.outermostPicked options ⊆ Node.allTargets m.items := Node.allOutermost_subset _
  -- Deleting the outermost targets is one way to edit all of them.
  let edits := (m.outermostPicked options).map fun node => (⟨node.span, none⟩ : Edit)
  have apart : edits.Pairwise fun a b => a.span.Apart b.span :=
    List.pairwise_map.2 (Node.allOutermost_apart _ seated.proper.nested)
  obtain ⟨⟨output, record⟩, happly⟩ := (Edit.applyAll_isOk_iff 0 apart fun edit hedit => by
    obtain ⟨node, hnode, rfl⟩ := List.mem_map.1 hedit
    exact (seated.proper.filled node (hsubset hnode)).1).2 fun edit hedit => by
      obtain ⟨node, hnode, rfl⟩ := List.mem_map.1 hedit
      exact seated.fits node (hsubset hnode)
  refine ⟨_, ?_, Framed.of_patch (.of_applyAll happly)⟩
  have hspans : edits.map (·.span) = (m.outermostPicked options).map (·.span) := by
    rw [List.map_map]
    rfl
  rw [← hspans]
  exact (Edit.inOrder_perm edits).map _

theorem collectEdits_of_no_import {options : Options} {m : Module} (hnone : m.helperImports options = []) :
    (transformer options).collectEdits ⟨0, m⟩ [] = .ok [] := by
  have hvisit : ∀ (found : Rule.Findings TransformFailure) (node : Node), node.shape.isTarget = true →
      node.targets ⊆ Node.allTargets m.items → found = ⟨[], none⟩ →
      ((transformer options).visit ⟨0, m⟩ [] found node).1 = ⟨[], none⟩ := by
    rintro found node htarget hsubset rfl
    unfold Rule.visit
    split
    · rfl
    · rename_i picked hpicked
      obtain ⟨declaration, himport, rfl⟩ := helperImport_of_pick hpicked
      obtain ⟨shape, span, children⟩ := node
      have hmem := Module.mem_helperImports.2 ⟨_, hsubset (Node.mem_targets_self htarget), himport, rfl⟩
      rw [hnone] at hmem
      cases hmem
  have hfound := @Node.walkAll_keeps _ ((transformer options).visit ⟨0, m⟩ [])
    (· = ⟨[], none⟩) m.items ⟨[], none⟩ hvisit rfl
  rw [Rule.collectEdits, hfound]
  rfl

/-- Transforming changes nothing of a source but its outermost picked targets, and nothing at all
without an import of helpers. -/
theorem transform_touches_picked {source : String} {options : Options} {out : Transformed}
    (h : transform source options = .ok out) :
    ∃ first, Module.read source.toList (Rule.elementsIn options.fileName) = .ok first ∧
      (Rule.RereadsInPlace options source.toList → ∃ edits : List Edit,
        (edits.map (·.span)).Perm ((first.outermostPicked options).map (·.span)) ∧
        ∃ record, Edit.applyAll 0 source.toList edits = .ok (out.code.toList, record)) ∧
      (first.helperImports options = [] → out.code = source ∧
        ∃ fixpoint, (transformTrace source.toList options).outcome = .ok fixpoint ∧ fixpoint.passes = 1) := by
  obtain ⟨fixpoint, hrun, hcode⟩ := outcome_of_transform h
  obtain ⟨left, first, state, edits, output, record, hlimit, hread, hseed, -⟩ := Rule.passes_eq_ok hrun
  refine ⟨first, hread, fun rereads => ?_, fun hnone => ?_⟩
  · have begins : (transformer options).Begins options.fileName
      source.toList ⟨0, first⟩ (aliasesIn options first.items) :=
      ⟨_, [], source.toList, .start, hread, rfl, seed_first first⟩
    have seated := (rereads _ _ begins).1
    obtain ⟨spans, hperm, framed⟩ := Module.exists_frame options seated
    rw [Module.text_of_read hread] at framed
    have hwithin : Rule.PicksWithin options ⟨0, first⟩ (aliasesIn options first.items) spans := by
      intro target htarget hpicked
      obtain ⟨outer, houter, hwithin⟩ := @Node.exists_allOutermost (fun node =>
        (pick options ⟨0, first⟩ (aliasesIn options first.items) node).isSome)
          _ seated.proper.nested target htarget hpicked
      exact ⟨outer.span, hperm.mem_iff.2 (List.mem_map_of_mem houter), hwithin⟩
    obtain ⟨stretches, hframed⟩ :=
      Rule.framed_of_passes rereads _ _ .start hread (seed_first first) framed hwithin hrun
    obtain ⟨edits, rfl, hpatch⟩ := hframed.exists_patch
    exact ⟨edits, hperm, hcode ▸ hpatch.applyAll 0⟩
  · have hseed := @seed_first options first
    rw [aliasesIn_eq_nil fun found hfound => by rw [hnone] at hfound; cases hfound] at hseed
    have hpos : 0 < options.maxPasses := by omega
    obtain ⟨record, honce⟩ :=
      Rule.run_of_collectEdits_eq_nil hpos hread hseed (collectEdits_of_no_import hnone)
    have hsame : fixpoint = ⟨source.toList, [record]⟩ := by
      have := hrun.symm.trans honce
      cases this
      rfl
    refine ⟨?_, fixpoint, hrun, by rw [hsame]; rfl⟩
    rw [hsame] at hcode
    exact String.toList_injective hcode.symm

def touchesOnly (source : Text) (options : Options) (spans : List Span) : Bool :=
  match (transformTrace source options).outcome, Module.read source (Rule.elementsIn options.fileName) with
  | .ok _, .ok first => decide ((first.outermostPicked options).map (·.span) = spans) &&
      decide (∀ entry ∈ (transformer options).begun options.fileName options.maxPasses [] source 0,
        entry.1.module.Seated ∧
        (transformer options).RereadsAs entry.1 entry.2 (Rule.elementsIn options.fileName)
        Rule.Stays Rule.Fills)
  | _, _ => false

theorem of_touchesOnly {source : Text} {options : Options} {spans : List Span}
    (h : touchesOnly source options spans = true) :
    ∃ fixpoint first, (transformTrace source options).outcome = .ok fixpoint ∧
      Module.read source (Rule.elementsIn options.fileName) = .ok first ∧
      (first.outermostPicked options).map (·.span) = spans ∧
      Rule.RereadsInPlace options source := by
  unfold touchesOnly at h
  split at h
  · rename_i fixpoint first hrun hread
    rw [Bool.and_eq_true, decide_eq_true_eq, decide_eq_true_eq] at h
    exact ⟨fixpoint, first, hrun, hread, h.1, fun pass aliases begins =>
      h.2 _ (Rule.mem_begun_of_begins hrun begins)⟩
  · cases h

set_option maxRecDepth 100000 in
/-- Of two calls side by side, the one has another inside it. -/
theorem transform_touches_nested_call :
    ∃ out edits record,
    transform "import { tx } from \"@mkx419/tx\"; f(tx('a', tx(b && 'c')), 0, tx('d'))" {} = .ok out ∧
      (edits.map (·.span)).Perm [⟨0, 32⟩, ⟨35, 56⟩, ⟨61, 68⟩] ∧
      Edit.applyAll 0 "import { tx } from \"@mkx419/tx\"; f(tx('a', tx(b && 'c')), 0, tx('d'))".toList edits =
        .ok (out.code.toList, record) := by
  have hchecked :
      touchesOnly "import { tx } from \"@mkx419/tx\"; f(tx('a', tx(b && 'c')), 0, tx('d'))".toList {}
        [⟨0, 32⟩, ⟨35, 56⟩, ⟨61, 68⟩] = true := by decide +kernel
  obtain ⟨fixpoint, first, hrun, hread, hspans, hrereads⟩ := of_touchesOnly hchecked
  have h := transform_of_outcome hrun
  obtain ⟨first', hread', hframe, -⟩ := transform_touches_picked h
  rw [hread] at hread'
  cases hread'
  obtain ⟨edits, hperm, record, happly⟩ := hframe hrereads
  exact ⟨_, edits, record, h, hspans ▸ hperm, happly⟩

end ClassWeave
