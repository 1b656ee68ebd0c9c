import ClassWeave.Proofs.Becoming
import ClassWeave.Proofs.TreeRun
/-!
# Trees that are read again

What a pass leaves of a tree of helper calls is read as the tree was, with a literal in the place of
every call that was edited.
-/

namespace ClassWeave

/-! ## Runs whose passes are read again -/

def RunTrace.modules {ε : Type} (run : RunTrace ε) (elements : Bool) : List Module :=
  run.texts.filterMap fun text => (Module.read text elements).toOption

namespace Rule

variable {σ χ ε : Type} {rule : Rule σ χ ε} {file : Option String} {limit left : Nat} {state state' : σ}
  {text output : Text} {records : List Record} {m : Module} {edits : List Edit} {record : Record}

theorem modules_passes (hread : Module.read text (elementsIn file) = .ok m)
    (hpass : rule.onePass ⟨records.length, m⟩ state = .ok (state', edits, output, record)) :
    (rule.passes file limit (left + 1) state text records).modules (elementsIn file) = m ::
      if edits.isEmpty then []
      else (rule.passes file limit left state' output (records ++ [record])).modules (elementsIn file) := by
  have htexts : (rule.passes file limit (left + 1) state text records).texts = text ::
      if edits.isEmpty then []
        else (rule.passes file limit left state' output (records ++ [record])).texts := by
    unfold elementsIn at hread
    rw [passes]
    simp only [hread, hpass]
    split
    · rfl
    · rfl
  unfold RunTrace.modules
  rw [htexts, List.filterMap_cons, hread]
  show m :: List.filterMap _ _ = _
  split
  · rfl
  · rfl

end Rule

def Node.isDeleted (options : Options) (pass : Pass) (aliases : Aliases) (item : Node) : Bool :=
  match pick options pass aliases item with
  | some (.importDeclaration declaration) => (declaration.withoutHelpers pass options.module).isNone
  | _ => false

/-- Whether the items of every module of a run are what the pass made of those before that it did
not delete. -/
inductive Rereads (options : Options) (aliases : Aliases) : Nat → List Module → Prop
  | last {index : Nat} {m : Module} : Rereads options aliases index [m]
  | pass {index : Nat} {m next : Module} {rest : List Module} :
    (transformer options).AllBecome ⟨index, m⟩ ⟨index + 1, next⟩ aliases (Rule.elementsIn options.fileName)
      (m.items.filter fun item => !item.isDeleted options ⟨index, m⟩ aliases) next.items →
    Rereads options aliases (index + 1) (next :: rest) → Rereads options aliases index (m :: next :: rest)

/-! ## One pass over a tree -/

theorem Leaf.readAlone_quoted {next : Pass} {value : Text} {start : Nat}
    (holds : next.Holds start (quoted value).text) (elements : Bool) :
    ((quoted value).node start).ReadAlone (Quoted.encode value) elements next := by
  obtain ⟨span, hread⟩ := read_encode value elements
  have halone :
      Pass.Holds ⟨0, ⟨Quoted.encode value, [.mk .expressionStatement span [(quoted value).node 0]]⟩⟩ 0
        (quoted value).text := ⟨[], [], by simp, rfl⟩
  refine ⟨_, toOption_eq_some_iff.2 hread, _, rfl,
    Node.alike_mk_iff.2 ⟨_, _, rfl, ?_, Node.allAlike_nil_iff.2 rfl⟩⟩
  exact halone.textAt_eq.trans holds.textAt_eq.symm

namespace HelperTree

variable {options : Options} {aliases : Aliases} {pass next : Pass} {elements : Bool}

mutual

theorem becomes_node (hlimit : 3 ≤ options.maxPasses) :
    ∀ (tree : HelperTree) {start start' : Nat}, tree.Names aliases →
    pass.Holds start tree.text → next.Holds start' tree.step.text →
    (transformer options).Becomes pass next aliases elements (tree.node start) (tree.step.node start')
  | .leaf lead literal trail, start, start', _, holds, holds' => by
    have hnone :
        (transformer options).picked? pass aliases ((leaf lead literal trail).node start) = none := by
      cases literal <;> rfl
    refine .of_kept (Rule.frontier_singleton_of_none hnone) (Rule.allBecome_nil_iff.2 rfl) fun _ => ?_
    exact holds.right.left.textAt_eq.trans holds'.right.left.textAt_eq.symm
  | .call lead helper callee behind given trail, start, start', names, holds, holds' => by
    obtain ⟨hlookup, hhelper, hall⟩ := names
    have hcore : pass.Holds (start + lead.text.byteLength)
      (call lead helper callee behind given trail).core := holds.right.left
    have hgiven :
        pass.Holds (start + lead.text.byteLength + (opening callee behind).byteLength) (list given) := by
      rw [core_eq] at hcore
      exact hcore.right.left
    obtain ⟨hrewrites, hpending⟩ := allRewrite hlimit given hall hgiven
    have hinside :=
      (Rule.Rewrites.skip (nameNode callee (start + lead.text.byteLength))
        rfl (opening callee behind) hrewrites).2
    rw [hpending] at hinside
    rw [step] at holds' ⊢
    rw [node_call]
    -- Either the call is the edited node, or it stays and each of its arguments becomes what it becomes.
    by_cases hleaves : given.all isLeaf = true
    · rw [if_pos hleaves] at holds' ⊢
      rw [hleaves, Bool.not_true] at hinside
      have hreplace := @replace_call pass options aliases helper
        given lead behind trail callee _ hlimit hhelper hleaves hgiven
      refine .of_replaced
        (Rule.frontier_of_ne rfl hcore hinside (select_call callee hlookup hhelper (length_nodes given _))
          hreplace (encode_ne_core _ _ _ _ _ _ _)) ?_
      exact ⟨_, toOption_eq_some_iff.2 hreplace, Leaf.readAlone_quoted holds'.right.left elements⟩
    · rw [if_neg hleaves] at holds' ⊢
      rw [Bool.not_eq_true] at hleaves
      rw [hleaves, Bool.not_false] at hinside
      have hcore' : next.Holds (start' + lead.text.byteLength)
        (call lead helper callee behind (steps given) trail).core :=
        holds'.right.left
      rw [core_eq] at hcore hcore'
      rw [node_call, length_steps]
      refine .of_kept (Rule.frontier_singleton_of_inside hinside)
        (Rule.allBecome_cons_iff.2 ⟨_, _, rfl, ?_, ?_⟩) fun hnone => ?_
      · refine .of_kept (Rule.frontier_singleton_of_none rfl) (Rule.allBecome_nil_iff.2 rfl) fun _ => ?_
        exact hcore.left.left.textAt_eq.trans hcore'.left.left.textAt_eq.symm
      · exact allBecome_nodes hlimit given hall hgiven hcore'.right.left
      · rw [hinside] at hnone
        cases hnone

theorem allBecome_nodes (hlimit : 3 ≤ options.maxPasses) : ∀ (given : List HelperTree) {start start' : Nat},
    AllName aliases given → pass.Holds start (list given) → next.Holds start' (list (steps given)) →
    (transformer options).AllBecome pass next aliases elements
    (nodes given start) (nodes (steps given) start')
  | [], _, _, _, _, _ => Rule.allBecome_nil_iff.2 rfl
  | [tree], start, start', names, holds, holds' =>
    Rule.allBecome_cons_iff.2 ⟨_, _, rfl, becomes_node hlimit tree names.1 holds holds',
      Rule.allBecome_nil_iff.2 rfl⟩
  | tree :: following :: given, start, start', names, holds, holds' => by
    have hsteps : list (steps (tree :: following :: given)) =
      tree.step.text ++ (',' :: list (steps (following :: given))) := by
      rw [steps, steps, text_list_cons]
    rw [text_list_cons] at holds
    rw [hsteps] at holds'
    have hrest : pass.Holds (start + tree.text.byteLength + 1) (list (following :: given)) :=
      @Pass.Holds.right _ _ [','] _ holds.right
    have hrest' : next.Holds (start' + tree.step.text.byteLength + 1) (list (steps (following :: given))) :=
      @Pass.Holds.right _ _ [','] _ holds'.right
    exact Rule.allBecome_cons_iff.2 ⟨_, _, rfl, becomes_node hlimit tree names.1 holds.left holds'.left,
      allBecome_nodes hlimit (following :: given) names.2 hrest hrest'⟩

end

theorem isDeleted_header {header : HelperImport}
    (hmodule : options.isHelperModule (String.ofList header.source) = true) (m : Module) :
    header.node.isDeleted options ⟨0, m⟩ aliases = true := by
  have hpick : pick options ⟨0, m⟩ aliases header.node = some (.importDeclaration header.declaration) :=
    if_pos hmodule
  unfold Node.isDeleted
  rw [hpick]
  simp only [header.withoutHelpers_declaration]
  rfl

end HelperTree
end ClassWeave
