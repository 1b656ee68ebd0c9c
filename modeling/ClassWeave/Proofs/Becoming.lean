import ClassWeave.Proofs.Frontier
import ClassWeave.Proofs.Simplifying
/-!
# What becomes of trees

The next pass reads back what a pass has written if what was put in the place of a target is read
there as it is read alone, and everything around it as it was. A tree of which nothing is picked is
read as one that is like it.
-/

namespace ClassWeave

/-- Whether a node of another text is an expression as it is read alone. -/
def Node.ReadAlone (code : Text) (elements : Bool) (next : Pass) (found : Node) : Prop :=
  ∃ m ∈ (Module.read code elements).toOption, ∃ node ∈ m.sole?, node.Alike ⟨0, m⟩ next found

instance (code : Text) (elements : Bool) (next : Pass) (found : Node) :
    Decidable (found.ReadAlone code elements next) :=
  inferInstanceAs (Decidable (∃ m ∈ (Module.read code elements).toOption, ∃ node ∈ m.sole?,
    node.Alike ⟨0, m⟩ next found))

namespace Rule

variable {σ χ ε : Type} (rule : Rule σ χ ε) (pass next : Pass) (state : σ) (elements : Bool)

def Replaces (found : Node) (target : Node × χ) : Prop :=
  ∃ replacement ∈ (rule.replace pass state target.2).toOption,
    found.ReadAlone (replacement.getD []) elements next

instance (found : Node) (target : Node × χ) :
    Decidable (rule.Replaces pass next state elements found target) :=
  inferInstanceAs (Decidable (∃ replacement ∈ (rule.replace pass state target.2).toOption,
    found.ReadAlone (replacement.getD []) elements next))

mutual

/-- Whether a tree of the next text is what a pass makes of one. -/
def Becomes : Node → Node → Prop
  | .mk shape span children, found =>
    (∀ target ∈ rule.frontier pass state [.mk shape span children],
      rule.Replaces pass next state elements found target) ∧
      ((rule.frontier pass state [.mk shape span children]).isEmpty → shape = found.shape ∧
        AllBecome children found.children ∧
        (rule.anyPending pass state children = false → pass.textAt span = next.textAt found.span))

def AllBecome : List Node → List Node → Prop
  | [], [] => True
  | node :: rest, node' :: rest' => Becomes node node' ∧ AllBecome rest rest'
  | _, _ => False

end

mutual

def decideBecomes : (node found : Node) → Decidable (rule.Becomes pass next state elements node found)
  | .mk shape span children, found =>
    have := decideAllBecome children found.children
    decidable_of_iff' _ (by rw [Becomes])

def decideAllBecome : (trees trees' : List Node) →
    Decidable (rule.AllBecome pass next state elements trees trees')
  | [], [] => .isTrue (by rw [AllBecome]; trivial)
  | node :: rest, node' :: rest' =>
    have := decideBecomes node node'
    have := decideAllBecome rest rest'
    decidable_of_iff' (rule.Becomes pass next state elements node node' ∧
      rule.AllBecome pass next state elements rest rest')
      (by rw [AllBecome])
  | [], _ :: _ => .isFalse (by rw [AllBecome]; exact id; simp; simp)
  | _ :: _, [] => .isFalse (by rw [AllBecome]; exact id; simp; simp)

end

instance (node found : Node) : Decidable (rule.Becomes pass next state elements node found) :=
  rule.decideBecomes pass next state elements node found

instance (nodes trees : List Node) : Decidable (rule.AllBecome pass next state elements nodes trees) :=
  rule.decideAllBecome pass next state elements nodes trees

section
variable {rule pass next state elements}

theorem allBecome_nil_iff {trees : List Node} :
    rule.AllBecome pass next state elements [] trees ↔ trees = [] := by
  cases trees <;> simp [AllBecome]

theorem allBecome_cons_iff {node : Node} {rest trees : List Node} :
    rule.AllBecome pass next state elements (node :: rest) trees ↔ ∃ node' rest', trees = node' :: rest' ∧
      rule.Becomes pass next state elements node node' ∧
      rule.AllBecome pass next state elements rest rest' := by
  cases trees with
  | nil => simp [AllBecome]
  | cons node' rest' =>
    rw [AllBecome]
    constructor
    · exact fun h => ⟨node', rest', rfl, h⟩
    · rintro ⟨_, _, heq, h⟩
      cases heq
      exact h

theorem Becomes.replaced {node found : Node} (h : rule.Becomes pass next state elements node found)
    {target : Node × χ} (htarget : target ∈ rule.frontier pass state [node]) :
    rule.Replaces pass next state elements found target := by
  obtain ⟨shape, span, children⟩ := node
  rw [Becomes] at h
  exact h.1 target htarget

theorem Becomes.kept {shape : Shape} {span : Span} {children : List Node} {found : Node}
    (h : rule.Becomes pass next state elements (.mk shape span children) found)
    (hnone : rule.frontier pass state [.mk shape span children] = []) :
    ∃ span' children', found = .mk shape span' children' ∧
    rule.AllBecome pass next state elements children children' ∧
      (rule.anyPending pass state children = false → pass.textAt span = next.textAt span') := by
  rw [Becomes, hnone] at h
  obtain ⟨hshape, hchildren, htext⟩ := h.2 rfl
  obtain ⟨shape', span', children'⟩ := found
  cases (show shape = shape' from hshape)
  exact ⟨span', children', rfl, hchildren, htext⟩

theorem Becomes.of_kept {shape : Shape} {span span' : Span} {children children' : List Node}
    (hfrontier : rule.frontier pass state [.mk shape span children] = [])
    (hchildren : rule.AllBecome pass next state elements children children')
    (htext : rule.anyPending pass state children = false → pass.textAt span = next.textAt span') :
    rule.Becomes pass next state elements (.mk shape span children) (.mk shape span' children') := by
  rw [Becomes, hfrontier]
  exact ⟨nofun, fun _ => ⟨rfl, hchildren, htext⟩⟩

theorem Becomes.of_replaced {node found : Node} {picked : χ}
    (hfrontier : rule.frontier pass state [node] = [(node, picked)])
    (hreplaces : rule.Replaces pass next state elements found (node, picked)) :
    rule.Becomes pass next state elements node found := by
  obtain ⟨shape, span, children⟩ := node
  rw [Becomes, hfrontier]
  exact ⟨fun target htarget => List.mem_singleton.1 htarget ▸ hreplaces, nofun⟩

theorem picked?_of_not_target {shape : Shape} (hshape : shape.isTarget = false)
    (span : Span) (children : List Node) :
    rule.picked? pass state (.mk shape span children) = none := by
  rw [picked?, Node.shape, hshape]
  rfl

theorem Becomes.kept_of_not_target {shape : Shape} {span : Span} {children : List Node} {found : Node}
    (h : rule.Becomes pass next state elements (.mk shape span children) found)
    (hshape : shape.isTarget = false) :
    ∃ span' children', found = .mk shape span' children' ∧
    rule.AllBecome pass next state elements children children' := by
  obtain ⟨span', children', hfound, hchildren, -⟩ :=
    h.kept (frontier_singleton_of_none (picked?_of_not_target hshape span children))
  exact ⟨span', children', hfound, hchildren⟩

theorem Becomes.one {shape : Shape} {span : Span} {a found : Node}
    (h : rule.Becomes pass next state elements (.mk shape span [a]) found) (hshape : shape.isTarget = false) :
    ∃ span' a', found = .mk shape span' [a'] ∧ rule.Becomes pass next state elements a a' := by
  obtain ⟨span', children', rfl, hchildren⟩ := h.kept_of_not_target hshape
  obtain ⟨a', rest', rfl, ha, hrest⟩ := allBecome_cons_iff.1 hchildren
  obtain rfl := allBecome_nil_iff.1 hrest
  exact ⟨span', a', rfl, ha⟩

theorem Becomes.two {shape : Shape} {span : Span} {a b found : Node}
    (h : rule.Becomes pass next state elements (.mk shape span [a, b]) found)
    (hshape : shape.isTarget = false) :
    ∃ span' a' b', found = .mk shape span' [a', b'] ∧ rule.Becomes pass next state elements a a' ∧
      rule.Becomes pass next state elements b b' := by
  obtain ⟨span', children', rfl, hchildren⟩ := h.kept_of_not_target hshape
  obtain ⟨a', rest', rfl, ha, hrest⟩ := allBecome_cons_iff.1 hchildren
  obtain ⟨b', rest', rfl, hb, hrest⟩ := allBecome_cons_iff.1 hrest
  obtain rfl := allBecome_nil_iff.1 hrest
  exact ⟨span', a', b', rfl, ha, hb⟩

theorem Becomes.three {shape : Shape} {span : Span} {a b c found : Node}
    (h : rule.Becomes pass next state elements (.mk shape span [a, b, c]) found)
    (hshape : shape.isTarget = false) :
    ∃ span' a' b' c', found = .mk shape span' [a', b', c'] ∧ rule.Becomes pass next state elements a a' ∧
      rule.Becomes pass next state elements b b' ∧ rule.Becomes pass next state elements c c' := by
  obtain ⟨span', children', rfl, hchildren⟩ := h.kept_of_not_target hshape
  obtain ⟨a', rest', rfl, ha, hrest⟩ := allBecome_cons_iff.1 hchildren
  obtain ⟨b', rest', rfl, hb, hrest⟩ := allBecome_cons_iff.1 hrest
  obtain ⟨c', rest', rfl, hc, hrest⟩ := allBecome_cons_iff.1 hrest
  obtain rfl := allBecome_nil_iff.1 hrest
  exact ⟨span', a', b', c', rfl, ha, hb, hc⟩

theorem anyPending_of_unpicked {trees : List Node}
    (h : ∀ inner ∈ Node.allTargets trees, rule.picked? pass state inner = none) :
    rule.anyPending pass state trees = false := by
  rw [Bool.eq_false_iff, ne_eq, anyPending_iff]
  rintro ⟨inner, hinner, hpending⟩
  rw [pending, h inner hinner] at hpending
  cases hpending

theorem mem_targets_of_picked {node : Node} {picked : χ} (h : rule.picked? pass state node = some picked) :
    node ∈ node.targets := by
  obtain ⟨shape, span, children⟩ := node
  exact Node.mem_targets_self (isTarget_of_picked h)

theorem picked?_eq_none {shape : Shape} {span : Span} {children : List Node}
    (h : ∀ inner ∈ (Node.mk shape span children).targets, rule.picked? pass state inner = none) :
    rule.picked? pass state (.mk shape span children) = none := by
  cases htarget : shape.isTarget with
  | true => exact h _ (Node.mem_targets_self htarget)
  | false => exact picked?_of_not_target htarget span children

theorem alike_of_unpicked : (∀ node : Node, (∀ inner ∈ node.targets, rule.picked? pass state inner = none) →
      ∀ found, rule.Becomes pass next state elements node found → node.Alike pass next found) ∧
    (∀ trees : List Node, (∀ inner ∈ Node.allTargets trees, rule.picked? pass state inner = none) →
      ∀ found, rule.AllBecome pass next state elements trees found →
      Node.AllAlike pass next trees found) := by
  have hmk : ∀ shape span children,
    ((∀ inner ∈ Node.allTargets children, rule.picked? pass state inner = none) →
        ∀ found, rule.AllBecome pass next state elements children found →
        Node.AllAlike pass next children found) →
      (∀ inner ∈ (Node.mk shape span children).targets, rule.picked? pass state inner = none) →
      ∀ found, rule.Becomes pass next state elements (.mk shape span children) found →
        (Node.mk shape span children).Alike pass next found := by
    intro shape span children ih hnone found h
    have hinside := fun inner hinner => hnone inner (Node.allTargets_subset_targets hinner)
    obtain ⟨span', children', rfl, hchildren, htext⟩ :=
      h.kept (frontier_singleton_of_none (picked?_eq_none hnone))
    exact Node.alike_mk_iff.2 ⟨span', children', rfl, htext (anyPending_of_unpicked hinside),
      ih hinside children' hchildren⟩
  apply Node.targets.mutual_induct
  · intro shape span children _ ih
    exact hmk shape span children ih
  · intro shape span children _ ih
    exact hmk shape span children ih
  · intro _ found h
    rw [allBecome_nil_iff.1 h]
    exact Node.allAlike_nil_iff.2 rfl
  · intro node rest ih ihrest hnone found h
    obtain ⟨node', rest', rfl, hnode, hrest⟩ := allBecome_cons_iff.1 h
    rw [Node.allTargets] at hnone
    refine Node.allAlike_cons_iff.2 ⟨node', rest', rfl, ih (fun inner hinner => ?_) node' hnode,
      ihrest (fun inner hinner => ?_) rest' hrest⟩
    · exact hnone inner (List.mem_append_left _ hinner)
    · exact hnone inner (List.mem_append_right _ hinner)

mutual

theorem becomes_of_alike :
    ∀ {node found : Node}, (∀ inner ∈ node.targets, rule.picked? pass state inner = none) →
    node.Alike pass next found → rule.Becomes pass next state elements node found
  | .mk shape span children, found, hnone, h => by
    obtain ⟨span', children', rfl, htext, hchildren⟩ := Node.alike_mk_iff.1 h
    exact .of_kept (frontier_singleton_of_none (picked?_eq_none hnone))
      (allBecome_of_allAlike (fun inner hinner => hnone inner (Node.allTargets_subset_targets hinner))
        hchildren) fun _ => htext

theorem allBecome_of_allAlike : ∀ {nodes trees : List Node},
    (∀ inner ∈ Node.allTargets nodes, rule.picked? pass state inner = none) →
    Node.AllAlike pass next nodes trees →
    rule.AllBecome pass next state elements nodes trees
  | [], _, _, h => allBecome_nil_iff.2 (Node.allAlike_nil_iff.1 h)
  | node :: rest, _, hnone, h => by
    obtain ⟨node', rest', rfl, hnode, hrest⟩ := Node.allAlike_cons_iff.1 h
    rw [Node.allTargets] at hnone
    exact allBecome_cons_iff.2 ⟨node', rest', rfl,
      becomes_of_alike (fun inner hinner => hnone inner (List.mem_append_left _ hinner)) hnode,
      allBecome_of_allAlike (fun inner hinner => hnone inner (List.mem_append_right _ hinner)) hrest⟩

end

/-! ## Rules that agree -/

variable {other : Rule σ χ ε}

theorem Agrees.frontier_singleton {node : Node} (h : rule.Agrees other pass state node.targets) :
    rule.frontier pass state [node] = other.frontier pass state [node] := by
  obtain ⟨shape, span, children⟩ := node
  have hinner := Agrees.anyPending_eq children (h.mono Node.allTargets_subset_targets)
  cases hpicked : rule.picked? pass state (.mk shape span children) with
  | none => rw [frontier_singleton_of_none hpicked, frontier_singleton_of_none (h.picked? _ ▸ hpicked)]
  | some picked =>
    cases hinside : rule.anyPending pass state children with
    | true => rw [frontier_singleton_of_inside hinside, frontier_singleton_of_inside (hinner ▸ hinside)]
    | false =>
      have hreplace := h.replaceAt (mem_targets_of_picked hpicked) hpicked hinside span
      rw [frontier_singleton_of_some hinside hpicked,
        frontier_singleton_of_some (hinner ▸ hinside) (h.picked? _ ▸ hpicked),
        changes, changes, Node.span, hreplace]

theorem Agrees.replaces {targets : List Node} (h : rule.Agrees other pass state targets) {target : Node × χ}
    (htarget : target ∈ rule.frontier pass state targets) {found : Node}
    (hreplaces : rule.Replaces pass next state elements found target) :
    other.Replaces pass next state elements found target := by
  obtain ⟨hmem, -, hinside, hpicked⟩ := mem_frontier.1 htarget
  unfold Replaces
  rw [← h.replace target.1 hmem target.2 hpicked hinside]
  exact hreplaces

mutual

theorem Agrees.becomes : ∀ {node found : Node}, rule.Agrees other pass state node.targets →
    rule.Becomes pass next state elements node found → other.Becomes pass next state elements node found
  | .mk shape span children, found, h, hbecomes => by
    have hchildren := h.mono Node.allTargets_subset_targets
    rw [Becomes] at hbecomes ⊢
    rw [← h.frontier_singleton, ← Agrees.anyPending_eq children hchildren]
    refine ⟨fun target htarget => ?_, fun hnone => ?_⟩
    · obtain ⟨node, picked⟩ := target
      obtain ⟨hmem, hpending, hinside, hpicked⟩ := mem_frontier.1 htarget
      cases List.mem_singleton.1 hmem
      exact h.replaces (mem_frontier.2 ⟨mem_targets_of_picked hpicked, hpending, hinside, hpicked⟩)
        (hbecomes.1 _ htarget)
    · obtain ⟨hshape, hbecome, htext⟩ := hbecomes.2 hnone
      exact ⟨hshape, Agrees.allBecome hchildren hbecome, htext⟩

theorem Agrees.allBecome : ∀ {nodes trees : List Node}, rule.Agrees other pass state (Node.allTargets nodes) →
    rule.AllBecome pass next state elements nodes trees → other.AllBecome pass next state elements nodes trees
  | [], _, _, hbecome => allBecome_nil_iff.2 (allBecome_nil_iff.1 hbecome)
  | node :: rest, _, h, hbecome => by
    rw [Node.allTargets] at h
    obtain ⟨node', rest', rfl, hnode, hrest⟩ := allBecome_cons_iff.1 hbecome
    exact allBecome_cons_iff.2
      ⟨node', rest', rfl, Agrees.becomes (h.mono (List.subset_append_left _ _)) hnode,
      Agrees.allBecome (h.mono (List.subset_append_right _ _)) hrest⟩

end

end

end Rule
end ClassWeave
