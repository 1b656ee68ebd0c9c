import ClassWeave.Proofs.ImportReading
import ClassWeave.Script.Walk
/-!
# The order of a walk

A walk hands over the targets of a tree in pre-order, each of them once. Behind one that is skipped
those inside it are left out, and they are the next ones in pre-order; behind one that stops the
walk all are. A tagged template is no target, its tag and what it embeds are walked. Expressions in
its type arguments are not even in the tree, unlike those in the type arguments of a call.
-/

namespace ClassWeave

theorem Shape.isTarget_iff {shape : Shape} : shape.isTarget = true ↔
    (∃ declaration, shape = .importDeclaration declaration) ∨ (∃ arity, shape = .call arity) ∨
      ∃ chunks, shape = .template chunks := by
  cases shape <;> simp [isTarget, targetKind?]

namespace Node

/-! ## Pre-order -/

mutual

def preorder : Node → List Node
  | .mk shape span children => .mk shape span children :: allPreorder children

def allPreorder : List Node → List Node
  | [] => []
  | node :: rest => preorder node ++ allPreorder rest

end

mutual

theorem targets_eq_filter : ∀ node : Node, targets node = (preorder node).filter (·.shape.isTarget)
  | .mk shape span children => by
    rw [targets, preorder, allTargets_eq_filter children]
    by_cases htarget : shape.isTarget = true
    · rw [if_pos htarget]
      exact Eq.symm (List.filter_cons_of_pos htarget)
    · rw [if_neg htarget]
      exact Eq.symm (List.filter_cons_of_neg htarget)

theorem allTargets_eq_filter :
    ∀ trees : List Node, allTargets trees = (allPreorder trees).filter (·.shape.isTarget)
  | [] => rfl
  | node :: rest => by
    rw [allTargets, allPreorder, List.filter_append, targets_eq_filter node, allTargets_eq_filter rest]

end

mutual

theorem prefix_of_targets : ∀ (node : Node) {front back : List Node} {target : Node},
    targets node = front ++ target :: back → allTargets target.children <+: back
  | .mk shape span children, front, back, target, h => by
    rw [targets] at h
    by_cases htarget : shape.isTarget = true
    · rw [if_pos htarget] at h
      cases front with
      | nil =>
        obtain ⟨rfl, rfl⟩ := List.cons.inj h
        exact List.prefix_rfl
      | cons first front => exact prefix_of_allTargets children (List.cons.inj h).2
    · rw [if_neg htarget] at h
      exact prefix_of_allTargets children h

theorem prefix_of_allTargets : ∀ (trees : List Node) {front back : List Node} {target : Node},
    allTargets trees = front ++ target :: back → allTargets target.children <+: back
  | [], front, back, target, h => by simp [allTargets] at h
  | node :: rest, front, back, target, h => by
    rw [allTargets] at h
    rcases List.append_eq_append_iff.1 h with ⟨between, -, hrest⟩ | ⟨between, hnode, hback⟩
    · exact prefix_of_allTargets rest hrest
    · cases between with
      | nil => exact prefix_of_allTargets rest (show allTargets rest = [] ++ target :: back from hback.symm)
      | cons first between =>
        obtain ⟨rfl, rfl⟩ := List.cons.inj hback
        exact (prefix_of_targets node hnode).trans (List.prefix_append _ _)

end

/-! ## What is handed over -/

variable {σ : Type}

def recording (visit : σ → Node → σ × Step) : σ × List Node → Node → (σ × List Node) × Step
  | (state, seen), node => (((visit state node).1, seen ++ [node]), (visit state node).2)

/-- What a visitor is handed of targets in pre-order, the first `skipped` of which it leaves out. -/
def handed (visit : σ → Node → σ × Step) : (skipped : Nat) → σ → List Node → List Node
  | _, _, [] => []
  | skipped + 1, state, _ :: rest => handed visit skipped state rest
  | 0, state, target :: rest =>
    target :: match visit state target with
      | (state, .descend) => handed visit 0 state rest
      | (state, .skip) => handed visit (allTargets target.children).length state rest
      | (_, .stop) => []

theorem handed_skipped (visit : σ → Node → σ × Step) (state : σ) (rest : List Node) : ∀ skipped : List Node,
    handed visit skipped.length state (skipped ++ rest) = handed visit 0 state rest
  | [] => rfl
  | _ :: skipped => by
    rw [List.length_cons, List.cons_append, handed]
    exact handed_skipped visit state rest skipped

theorem handed_sublist (visit : σ → Node → σ × Step) (skipped : Nat) (state : σ) (targets : List Node) :
    (handed visit skipped state targets).Sublist targets := by
  induction targets generalizing skipped state with
  | nil => simp [handed]
  | cons target rest ih =>
    cases skipped with
    | zero =>
      rw [handed]
      apply List.Sublist.cons_cons
      split
      · exact ih 0 _
      · exact ih _ _
      · exact List.nil_sublist rest
    | succ skipped =>
      rw [handed]
      exact (ih skipped state).cons target

mutual

theorem handed_of_walk (visit : σ → Node → σ × Step) (rest : List Node) :
    ∀ (node : Node) (state : σ) (seen : List Node),
    seen ++ handed visit 0 state (targets node ++ rest) =
      (walk (recording visit) (state, seen) node).1.2 ++
        if (walk (recording visit) (state, seen) node).2 then []
        else handed visit 0 (walk (recording visit) (state, seen) node).1.1 rest
  | .mk shape span children, state, seen => by
    rw [walk, targets]
    by_cases htarget : shape.isTarget = true
    · rw [if_pos htarget, if_pos htarget, List.cons_append, handed, recording]
      rcases visit state (.mk shape span children) with ⟨state', step⟩
      cases step with
      | descend =>
        have ih := handed_of_walkAll visit rest children state' (seen ++ [.mk shape span children])
        rw [List.append_assoc, List.singleton_append] at ih
        exact ih
      | skip =>
        have hskipped := handed_skipped visit state' rest (allTargets children)
        show _ = (seen ++ [.mk shape span children]) ++ handed visit 0 state' rest
        rw [← hskipped, List.append_assoc]
        rfl
      | stop => simp
    · rw [if_neg htarget, if_neg htarget]
      exact handed_of_walkAll visit rest children state seen

theorem handed_of_walkAll (visit : σ → Node → σ × Step) (rest : List Node) : ∀ (trees : List Node) (state : σ)
    (seen : List Node),
    seen ++ handed visit 0 state (allTargets trees ++ rest) =
      (walkAll (recording visit) (state, seen) trees).1.2 ++
        if (walkAll (recording visit) (state, seen) trees).2 then []
        else handed visit 0 (walkAll (recording visit) (state, seen) trees).1.1 rest
  | [], state, seen => by simp [walkAll, allTargets]
  | node :: trees, state, seen => by
    have hnode := handed_of_walk visit (allTargets trees ++ rest) node state seen
    rw [allTargets, List.append_assoc, hnode, walkAll]
    rcases walk (recording visit) (state, seen) node with ⟨⟨state', seen'⟩, stopped⟩
    cases stopped with
    | true => simp
    | false =>
      simp only [Bool.false_eq_true, if_false]
      exact handed_of_walkAll visit rest trees state' seen'

end

mutual

theorem walk_recording (visit : σ → Node → σ × Step) : ∀ (node : Node) (state : σ) (seen : List Node),
    walk visit state node =
      ((walk (recording visit) (state, seen) node).1.1, (walk (recording visit) (state, seen) node).2)
  | .mk shape span children, state, seen => by
    rw [walk, walk]
    by_cases htarget : shape.isTarget = true
    · rw [if_pos htarget, if_pos htarget, recording]
      rcases visit state (.mk shape span children) with ⟨state', step⟩
      cases step with
      | descend => exact walkAll_recording visit children state' _
      | skip => rfl
      | stop => rfl
    · rw [if_neg htarget, if_neg htarget]
      exact walkAll_recording visit children state seen

theorem walkAll_recording (visit : σ → Node → σ × Step) :
    ∀ (trees : List Node) (state : σ) (seen : List Node),
    walkAll visit state trees =
      ((walkAll (recording visit) (state, seen) trees).1.1, (walkAll (recording visit) (state, seen) trees).2)
  | [], _, _ => rfl
  | node :: rest, state, seen => by
    rw [walkAll, walkAll, walk_recording visit node state seen]
    rcases walk (recording visit) (state, seen) node with ⟨⟨state', seen'⟩, stopped⟩
    cases stopped with
    | true => rfl
    | false => exact walkAll_recording visit rest state' seen'

end

end Node

/-! ## Tagged templates in trees that are read -/

namespace Reader

variable {α : Type} {s : Surroundings}

theorem Ensures.any {P : Place → Prop} {reader : Reader α} : Ensures s P reader fun _ _ => True :=
  fun _ _ _ _ _ => trivial

theorem ensures_templateTail {inner : Reader α} {start : Nat} {tagged : Bool} (fuel : Nat) (cursor : Cursor) :
    Ensures s (fun _ => True) (templateTail inner start tagged fuel cursor) fun found _ =>
      found.1.length = found.2.length + 1 := by
  induction fuel generalizing cursor with
  | zero => rintro _ _ _ - ⟨⟩
  | succ fuel ih =>
    have behind (chunk : Chunk) (value : α) : Ensures s (fun _ => True)
        (do
          let found ← templateTail inner start tagged fuel (← Reader.place).ahead.stop
          return (chunk :: found.1, value :: found.2))
        fun found _ => found.1.length = found.2.length + 1 := by
      refine .bind .any fun place => (ih place.ahead.stop).bind fun found => .pure ?_
      intro _ hlength
      simpa using hlength
    rw [templateTail]
    rcases TemplateText.readChunk cursor.rest with ⟨chunk, fault, stop, rest⟩
    -- Whatever is refused in between, a chunk is read, and either it ends the template or a value
    -- and the rest follow.
    have tail : Ensures s (fun _ => True)
        (if (stop == .closed) = true then pure ([chunk], [])
        else do
          let value ← inner
          unless ← atMark "\x7d" do failUnexpected "\x60\x7d\x60"
          let found ← templateTail inner start tagged fuel (← place).ahead.stop
          return (chunk :: found.1, value :: found.2))
        fun found _ => found.1.length = found.2.length + 1 := by
      refine .ite (.pure fun _ _ => rfl) ?_
      refine .bind .any fun value => .bind .any fun closes => .ite (behind chunk value) ?_
      exact .bind .any fun _ => behind chunk value
    cases tagged with
    | true => exact .bind .any fun _ => .ite (.bind .any fun _ => tail) tail
    | false =>
      cases fault with
      | none => exact .bind .any fun _ => .ite (.bind .any fun _ => tail) tail
      | some fault =>
          exact .bind .any fun _ =>
            .ite (.bind .any fun _ => .bind .any fun _ => tail) (.bind .any fun _ => tail)

def IsTagged (target node : Node) : Prop :=
  ∀ chunks, node.shape = .taggedTemplate chunks → ∃ embedded, node.children = target :: embedded ∧
    chunks.length = embedded.length + 1

theorem ensures_node {P : Place → Prop} (shape : Shape) (start : Nat) (children : List Node) :
    Ensures s P (node shape start children) fun found _ =>
      found.shape = shape ∧ found.children = children := by
  refine .bind .any fun _ => .pure fun _ _ => ⟨rfl, rfl⟩

theorem ensures_tagged {P : Place → Prop} (g : Grammar) (target : Node) :
    Ensures s P (tagged g target) fun found _ => IsTagged target found := by
  refine .bind (Q := fun found _ => found.1.length = found.2.length + 1) ?_ fun found => ?_
  · refine .bind .any fun opening => ensures_templateTail _ _
  · rintro _ tree _ hlength hnode
    obtain ⟨hshape, hchildren⟩ := ensures_node (P := fun _ => True) _ _ _ _ _ _ trivial hnode
    intro chunks htagged
    cases hshape.symm.trans htagged
    exact ⟨found.2, hchildren, hlength⟩

theorem ensures_untagged {P : Place → Prop} (target : Node) {shape : Shape}
    (h : ∀ chunks, shape ≠ .taggedTemplate chunks) (start : Nat) (children : List Node) :
    Ensures s P (node shape start children) fun found _ => IsTagged target found := by
  refine (ensures_node shape start children).mono fun found _ hfound => ?_
  intro chunks htagged
  exact absurd (hfound.1.symm.trans htagged) (h chunks)

theorem ensures_stepWithTypes (g : Grammar) (noCall : Bool) (target : Node) :
    Ensures s (fun _ => True) (stepWithTypes g noCall target) fun found _ => IsTagged target found.1 := by
  have call (types : List Node) : Ensures s (fun _ => True) (callTail g target types) fun found _ =>
    IsTagged target found := by
    refine .bind .any fun given => ensures_untagged target ?_ _ _
    intro chunks
    by_cases hchain : target.isChain = true
    · simp [hchain]
    · simp [hchain]
  have typed (types : List Node) :
      Ensures s (fun _ => True) (form .typed target.span.start (target :: types)) fun found _ =>
        IsTagged target found := ensures_untagged target (fun _ h => by cases h) _ _
  have behind (types : List Node) : Ensures s (fun _ => True)
      (do
        if !noCall && (← atMark "(") then return (← callTail g target types, true)
        if ← atTemplate then return (← tagged g target, true)
        unless (← atMark "=") || (← atWord "as") || (← atWord "satisfies") do
          failUnexpected (if noCall then "\x60" else "( or \x60")
        return (← form .typed target.span.start (target :: types), false))
      fun found _ => IsTagged target found.1 := by
    refine .bind .any fun opens => .ite ?_ (.bind .any fun begins => .ite ?_ ?_)
    · exact (call types).bind fun found => .pure fun _ hfound => hfound
    · exact (ensures_tagged g target).bind fun found => .pure fun _ hfound => hfound
    · refine .bind .any fun assigns => .bind .any fun asserts =>
        .bind .any fun satisfied => .ite ?_ (.bind .any fun _ => ?_)
      · exact (typed types).bind fun found => .pure fun _ hfound => hfound
      · exact (typed types).bind fun found => .pure fun _ hfound => hfound
  rw [stepWithTypes]
  exact .ite (.bind .any behind) (.bind .any behind)

end Reader

/-! ## The walk as a whole -/

namespace Node

/-- A walk hands over import declarations, calls and templates without a tag, in pre-order and each
of them once: all but those inside one that is skipped, which are the next ones, and those behind
one that stops it. The targets of a tagged template are those of its tag and of what it embeds.
Reading it leaves nothing of its type arguments, so the calls in these are not handed over. -/
theorem walkAll_hands_targets {σ : Type} (visit : σ → Node → σ × Step) (state : σ) (items : List Node) :
    let run := walkAll (recording visit) (state, []) items
    run.1.2 = handed visit 0 state (allTargets items) ∧ (run.1.1, run.2) = walkAll visit state items ∧
      run.1.2.Sublist (allTargets items) ∧ allTargets items = (allPreorder items).filter (·.shape.isTarget) ∧
      (∀ node ∈ run.1.2, (∃ declaration, node.shape = .importDeclaration declaration) ∨
        (∃ arity, node.shape = .call arity) ∨ ∃ chunks, node.shape = .template chunks) ∧
      (∀ front target back, allTargets items = front ++ target :: back →
        allTargets target.children <+: back) ∧
      (∀ chunks span tag embedded, targets (.mk (.taggedTemplate chunks) span (tag :: embedded)) =
        targets tag ++ allTargets embedded) ∧
      ∀ s g noCall target,
      Reader.Ensures s (fun _ => True) (Reader.stepWithTypes g noCall target) fun found _ =>
        ∀ chunks, found.1.shape = .taggedTemplate chunks →
          ∃ embedded, found.1.children = target :: embedded ∧ chunks.length = embedded.length + 1 := by
  intro run
  have hhanded : run.1.2 = handed visit 0 state (allTargets items) := by
    have h := handed_of_walkAll visit [] items state []
    rw [List.nil_append, List.append_nil] at h
    rw [h]
    by_cases hstopped : run.2 = true
    · rw [if_pos hstopped, List.append_nil]
    · rw [if_neg hstopped, handed, List.append_nil]
  have hsublist : run.1.2.Sublist (allTargets items) := by
    rw [hhanded]
    exact handed_sublist visit 0 state _
  refine ⟨hhanded, (walkAll_recording visit items state []).symm,
    hsublist, allTargets_eq_filter items, ?_, ?_, ?_, ?_⟩
  · intro node hnode
    have hmem := hsublist.subset hnode
    rw [allTargets_eq_filter] at hmem
    exact Shape.isTarget_iff.1 (List.mem_filter.1 hmem).2
  · intro front target back hsplit
    exact prefix_of_allTargets items hsplit
  · intro chunks span tag embedded
    rfl
  · intro s g noCall target
    exact Reader.ensures_stepWithTypes g noCall target

set_option maxRecDepth 100000 in
/-- A call in the type arguments of a call, and one in those of a tagged template. -/
example :
    (Module.read "f<\x7b [g()]: number \x7d>()".toList false).toOption.map
      (fun m => (allTargets m.items).length) = some 2 ∧
    (Module.read "f<\x7b [g()]: number \x7d>\x60x\x60".toList false).toOption.map
      (fun m => (allTargets m.items).length) = some 0 := by
  decide +kernel

end Node
end ClassWeave
