import ClassWeave.Proofs.Failing
import ClassWeave.Proofs.Framing
import ClassWeave.Proofs.PassEdits
/-!
# Trees regrown

Between two passes the text is read again. A tree is regrown if a forest of the next reading stands
in the place of every node that was edited, and every other node is still there, with its children
regrown.
-/

namespace ClassWeave

namespace Node

section
variable (edited : Node → Bool) (same : Node → Node → Prop) (fresh : Node → List Node → Prop)

mutual

/-- Whether a forest stands in the place of a tree. -/
def Regrows : Node → List Node → Prop
  | .mk shape span children, trees =>
    if edited (.mk shape span children) then fresh (.mk shape span children) trees
    else ∃ found ∈ trees.head?, trees.tail = [] ∧ same (.mk shape span children) found ∧
    AllRegrow children found.children

def AllRegrow : List Node → List Node → Prop
  | [], trees => trees = []
  | node :: rest, trees => ∃ count < trees.length + 1, Regrows node (trees.take count) ∧
      AllRegrow rest (trees.drop count)

end

end

section
variable {edited : Node → Bool} {same : Node → Node → Prop} {fresh : Node → List Node → Prop}

theorem regrows_of_edited {node : Node} {trees : List Node} (hedited : edited node = true) :
    Regrows edited same fresh node trees ↔ fresh node trees := by
  obtain ⟨shape, span, children⟩ := node
  rw [Regrows, if_pos hedited]

theorem regrows_of_kept {node : Node} {trees : List Node} (hedited : edited node = false) :
    Regrows edited same fresh node trees ↔
      ∃ found, trees = [found] ∧ same node found ∧
      AllRegrow edited same fresh node.children found.children := by
  obtain ⟨shape, span, children⟩ := node
  rw [Regrows, if_neg (by simp [hedited])]
  constructor
  · rintro ⟨found, hhead, htail, h⟩
    obtain ⟨rest, rfl⟩ := List.head?_eq_some_iff.1 hhead
    exact ⟨found, by rw [← htail, List.tail_cons], h⟩
  · rintro ⟨found, rfl, h⟩
    exact ⟨found, rfl, rfl, h⟩

theorem allRegrow_cons_iff {node : Node} {rest trees : List Node} :
    AllRegrow edited same fresh (node :: rest) trees ↔
    ∃ here behind, trees = here ++ behind ∧ Regrows edited same fresh node here ∧
    AllRegrow edited same fresh rest behind := by
  rw [AllRegrow]
  constructor
  · rintro ⟨count, -, hnode, hrest⟩
    exact ⟨_, _, (List.take_append_drop count trees).symm, hnode, hrest⟩
  · rintro ⟨here, behind, rfl, hnode, hrest⟩
    exact ⟨here.length, by rw [List.length_append]; omega, by simpa using hnode, by simpa using hrest⟩

end

section
variable (edited : Node → Bool) (same : Node → Node → Prop) (fresh : Node → List Node → Prop)
  [∀ node found, Decidable (same node found)] [∀ node trees, Decidable (fresh node trees)]

mutual

def decideRegrows : (node : Node) → (trees : List Node) → Decidable (Regrows edited same fresh node trees)
  | .mk shape span children, trees =>
    have (found : Node) := decideAllRegrow children found.children
    decidable_of_iff' _ (by rw [Regrows])

def decideAllRegrow : (nodes trees : List Node) → Decidable (AllRegrow edited same fresh nodes trees)
  | [], [] => .isTrue (by rw [AllRegrow])
  | [], _ :: _ => .isFalse (by rw [AllRegrow]; exact List.cons_ne_nil _ _)
  | node :: rest, trees =>
    have (here : List Node) := decideRegrows node here
    have (behind : List Node) := decideAllRegrow rest behind
    decidable_of_iff' (∃ count < trees.length + 1, Regrows edited same fresh node (trees.take count) ∧
      AllRegrow edited same fresh rest (trees.drop count)) (by rw [AllRegrow])

end

instance (nodes trees : List Node) : Decidable (AllRegrow edited same fresh nodes trees) :=
  decideAllRegrow edited same fresh nodes trees

end

/-! ## Targets of a regrown tree -/

section
variable {edited : Node → Bool} {same : Node → Node → Prop} {fresh : Node → List Node → Prop}

theorem allTargets_append : ∀ a b : List Node, allTargets (a ++ b) = allTargets a ++ allTargets b
  | [], _ => rfl
  | node :: rest, b => by
    rw [List.cons_append, allTargets, allTargets, allTargets_append rest b, List.append_assoc]

theorem allTargets_singleton (node : Node) : allTargets [node] = node.targets := by
  rw [allTargets, allTargets, List.append_nil]

variable (edited same fresh) in
/-- Where a target of a regrown tree comes from: it stands in the place of an edited target, or is
one of the kept ones, which no edited target straddles an end of. -/
def ComesFrom (targets : List Node) (found : Node) : Prop :=
  (∃ target ∈ targets, edited target = true ∧ ∃ trees, fresh target trees ∧ found ∈ allTargets trees) ∨
    ∃ target ∈ targets, same target found ∧
      ∀ other ∈ targets, edited other = true → other.span.Within target.span ∨ other.span.Apart target.span

mutual

theorem comesFrom_of_regrows (hedited : ∀ node, edited node = true → node.shape.isTarget = true)
    (hsame : ∀ node found, same node found → found.shape.isTarget = true → node.shape.isTarget = true) :
    ∀ (node : Node) (trees : List Node), node.Nested → Regrows edited same fresh node trees →
      ∀ found ∈ allTargets trees, ComesFrom edited same fresh node.targets found
  | .mk shape span children, trees, hnested, hregrows, found, hfound => by
    rw [Nested] at hnested
    cases hself : edited (.mk shape span children) with
    | true =>
      exact .inl ⟨_, mem_targets_self (hedited _ hself), hself,
        trees, (regrows_of_edited hself).1 hregrows, hfound⟩
    | false =>
      obtain ⟨⟨shape', span', children'⟩, rfl, hkept, hchildren⟩ := (regrows_of_kept hself).1 hregrows
      -- The node is not edited itself, so the edited targets of the tree are those inside it.
      have hothers : ∀ other ∈ (mk shape span children).targets, edited other = true →
        other ∈ allTargets children := by
        intro other hother hedited'
        rw [targets] at hother
        split at hother
        · rcases List.mem_cons.1 hother with rfl | hother
          · rw [hself] at hedited'
            cases hedited'
          · exact hother
        · exact hother
      have hinner : found ∈ allTargets children' →
        ComesFrom edited same fresh (mk shape span children).targets found := by
        intro hinner
        rcases comesFrom_of_allRegrow hedited hsame children children' hnested.2 hchildren found hinner with
          ⟨target, htarget, hfresh⟩ | ⟨target, htarget, hsame', hclear⟩
        · exact .inl ⟨target, allTargets_subset_targets htarget, hfresh⟩
        · exact .inr ⟨target, allTargets_subset_targets htarget, hsame', fun other hother hedited' =>
            hclear other (hothers other hother hedited') hedited'⟩
      rw [allTargets_singleton, targets] at hfound
      split at hfound
      · rename_i htarget'
        rcases List.mem_cons.1 hfound with rfl | hfound
        · have htarget : shape.isTarget = true := hsame _ _ hkept htarget'
          refine .inr ⟨_, mem_targets_self htarget, hkept, fun other hother hedited' => .inl ?_⟩
          have hinside := hnested.1 htarget other (hothers other hother hedited')
          exact ⟨hinside.start, hinside.stop⟩
        · exact hinner hfound
      · exact hinner hfound

theorem comesFrom_of_allRegrow (hedited : ∀ node, edited node = true → node.shape.isTarget = true)
    (hsame : ∀ node found, same node found → found.shape.isTarget = true → node.shape.isTarget = true) :
    ∀ nodes trees : List Node, AllNested nodes → AllRegrow edited same fresh nodes trees →
      ∀ found ∈ allTargets trees, ComesFrom edited same fresh (allTargets nodes) found
  | [], trees, _, hregrow, found, hfound => by
    rw [AllRegrow] at hregrow
    rw [hregrow] at hfound
    cases hfound
  | node :: rest, trees, hnested, hregrow, found, hfound => by
    rw [AllNested] at hnested
    obtain ⟨hnode, hrest, happart⟩ := hnested
    obtain ⟨here, behind, rfl, hhere, hbehind⟩ := allRegrow_cons_iff.1 hregrow
    rw [allTargets_append] at hfound
    rw [allTargets]
    rcases List.mem_append.1 hfound with hfound | hfound
    · rcases comesFrom_of_regrows hedited hsame node here hnode hhere found hfound with
        ⟨target, htarget, hfresh⟩ | ⟨target, htarget, hsame', hclear⟩
      · exact .inl ⟨target, List.mem_append_left _ htarget, hfresh⟩
      · refine .inr ⟨target, List.mem_append_left _ htarget, hsame', fun other hother hedited' => ?_⟩
        rcases List.mem_append.1 hother with hother | hother
        · exact hclear other hother hedited'
        · exact .inr (happart target htarget other hother).symm
    · rcases comesFrom_of_allRegrow hedited hsame rest behind hrest hbehind found hfound with
        ⟨target, htarget, hfresh⟩ | ⟨target, htarget, hsame', hclear⟩
      · exact .inl ⟨target, List.mem_append_right _ htarget, hfresh⟩
      · refine .inr ⟨target, List.mem_append_right _ htarget, hsame', fun other hother hedited' => ?_⟩
        rcases List.mem_append.1 hother with hother | hother
        · exact .inr (happart other hother target htarget)
        · exact hclear other hother hedited'

end

end

end Node

structure Module.Seated (m : Module) : Prop where
  proper : m.Proper
  fits : ∀ target ∈ Node.allTargets m.items, m.text.Boundary target.span.start ∧
    m.text.Boundary target.span.stop

theorem Module.seated_iff {m : Module} : m.Seated ↔ Node.AllNested m.items ∧
    ∀ target ∈ Node.allTargets m.items,
    (target.span.start < target.span.stop ∧ target.span.stop ≤ m.text.byteLength) ∧
      m.text.Boundary target.span.start ∧ m.text.Boundary target.span.stop :=
  ⟨fun h => ⟨h.proper.nested, fun target htarget => ⟨h.proper.filled target htarget, h.fits target htarget⟩⟩,
    fun h =>
      ⟨⟨h.1, fun target htarget => (h.2 target htarget).1⟩, fun target htarget => (h.2 target htarget).2⟩⟩

instance (m : Module) : Decidable m.Seated := decidable_of_iff' _ Module.seated_iff

theorem Module.Seated.admits {m : Module} (h : m.Seated) : ∀ target ∈ Node.allTargets m.items,
    m.admits target.span = true := by
  intro target htarget
  obtain ⟨hforward, hstop⟩ := h.proper.filled target htarget
  rw [admits_iff, range_eq hforward hstop]
  exact ⟨Nat.le_of_lt hforward, h.fits target htarget⟩

namespace Rule

variable {σ χ ε : Type} {rule : Rule σ χ ε} {pass : Pass} {state : σ}

/-! ## What is edited -/

variable (rule pass state) in
def edited (node : Node) : Bool := rule.pending pass state node && !rule.anyPending pass state node.children

theorem isTarget_of_edited {node : Node} (h : rule.edited pass state node = true) :
    node.shape.isTarget = true := by
  rw [edited, Bool.and_eq_true] at h
  obtain ⟨picked, hpicked, -⟩ := pending_iff.1 h.1
  obtain ⟨shape, span, children⟩ := node
  exact isTarget_of_picked hpicked

theorem edited_iff {targets : List Node} {node : Node} (hnode : node ∈ targets) :
    rule.edited pass state node = true ↔ ∃ picked, (node, picked) ∈ rule.frontier pass state targets := by
  simp only [edited, Bool.and_eq_true, Bool.not_eq_true', mem_frontier]
  constructor
  · rintro ⟨hpending, hinside⟩
    obtain ⟨picked, hpicked, -⟩ := pending_iff.1 hpending
    exact ⟨picked, hnode, hpending, hinside, hpicked⟩
  · rintro ⟨picked, -, hpending, hinside, -⟩
    exact ⟨hpending, hinside⟩

theorem exists_output (proper : pass.module.Proper) {edits : List Edit}
    (hedits : rule.collectEdits pass state = .ok edits) :
    ∃ output record, Edit.applyAll pass.index pass.module.text edits = .ok (output, record) := by
  have filled := collectEdits_filled proper hedits
  obtain ⟨⟨output, record⟩, happly⟩ := (Edit.applyAll_isOk_iff pass.index (collectEdits_apart proper hedits)
    fun edit hedit => (filled edit hedit).1).2 (collectEdits_boundary proper hedits)
  exact ⟨output, record, happly⟩

section
variable (rule pass state) (elements : Bool) (same : List Edit → Node → Node → Prop)
    (fresh : List Edit → Node → List Node → Prop)

def RereadsAs : Prop := ∀ edits ∈ (rule.collectEdits pass state).toOption, edits ≠ [] →
  ∀ result ∈ (Edit.applyAll pass.index pass.module.text edits).toOption,
  ∃ next ∈ (Module.read result.1 elements).toOption,
    Node.AllRegrow (rule.edited pass state) (same edits) (fresh edits) pass.module.items next.items

instance [∀ edits node found, Decidable (same edits node found)]
    [∀ edits node trees, Decidable (fresh edits node trees)] :
    Decidable (rule.RereadsAs pass state elements same fresh) :=
  inferInstanceAs (Decidable (∀ edits ∈ (rule.collectEdits pass state).toOption, edits ≠ [] →
    ∀ result ∈ (Edit.applyAll pass.index pass.module.text edits).toOption,
    ∃ next ∈ (Module.read result.1 elements).toOption,
      Node.AllRegrow (rule.edited pass state) (same edits) (fresh edits) pass.module.items next.items))

/-- Whether what the edits of a pass write, if there are any and it can be read, is read as the tree
of the pass regrown. -/
def RegrowsAs (gone : List Edit → Node → Bool) : Prop :=
  ∀ edits ∈ (rule.collectEdits pass state).toOption, edits ≠ [] →
    ∀ result ∈ (Edit.applyAll pass.index pass.module.text edits).toOption,
    ∀ next ∈ (Module.read result.1 elements).toOption,
      Node.AllRegrow (gone edits) (same edits) (fresh edits) pass.module.items next.items

instance (gone : List Edit → Node → Bool) [∀ edits node found, Decidable (same edits node found)]
    [∀ edits node trees, Decidable (fresh edits node trees)] : Decidable
      (rule.RegrowsAs pass state elements same fresh gone) :=
  inferInstanceAs (Decidable (∀ edits ∈ (rule.collectEdits pass state).toOption, edits ≠ [] →
    ∀ result ∈ (Edit.applyAll pass.index pass.module.text edits).toOption,
    ∀ next ∈ (Module.read result.1 elements).toOption,
      Node.AllRegrow (gone edits) (same edits) (fresh edits) pass.module.items next.items))

variable {rule pass state elements same fresh}

theorem RegrowsAs.of_read {gone : List Edit → Node → Bool}
    (h : rule.RegrowsAs pass state elements same fresh gone) {edits : List Edit}
    {output : Text} {record : Record} {next : Module} (hedits : rule.collectEdits pass state = .ok edits)
    (hne : edits ≠ []) (happly : Edit.applyAll pass.index pass.module.text edits = .ok (output, record))
    (hread : Module.read output elements = .ok next) :
    Node.AllRegrow (gone edits) (same edits) (fresh edits) pass.module.items next.items :=
  h edits (toOption_eq_some_iff.2 hedits) hne _ (toOption_eq_some_iff.2 happly)
    next (toOption_eq_some_iff.2 hread)

theorem RereadsAs.regrows (h : rule.RereadsAs pass state elements same fresh) :
    rule.RegrowsAs pass state elements same fresh fun _ => rule.edited pass state := by
  intro edits hedits hne result hresult next hnext
  obtain ⟨next', hnext', hregrow⟩ := h edits hedits hne result hresult
  cases hnext.symm.trans hnext'
  exact hregrow

theorem RereadsAs.next (h : rule.RereadsAs pass state elements same fresh)
    {edits : List Edit} {output : Text} {record : Record} (hedits : rule.collectEdits pass state = .ok edits)
    (hne : edits ≠ []) (happly : Edit.applyAll pass.index pass.module.text edits = .ok (output, record)) :
    ∃ next, Module.read output elements = .ok next ∧
      Node.AllRegrow (rule.edited pass state) (same edits) (fresh edits) pass.module.items next.items := by
  obtain ⟨next, hread, hregrow⟩ :=
    h edits (toOption_eq_some_iff.2 hedits) hne _ (toOption_eq_some_iff.2 happly)
  exact ⟨next, toOption_eq_some_iff.1 hread, hregrow⟩

end

/-! ## The passes of a run -/

variable (rule) in
/-- At most `left` passes from one over `text` on, each with the state that it was seeded with. -/
def begun (file : Option String) : Nat → σ → Text → Nat → List (Pass × σ)
  | 0, _, _, _ => []
  | left + 1, state, text, index =>
    match Module.read text (elementsIn file) with
    | .error _ => []
    | .ok found =>
      match rule.seed ⟨index, found⟩ state with
      | .error _ => []
      | .ok seeded => (⟨index, found⟩, seeded) ::
        match rule.onePass ⟨index, found⟩ state with
        | .error _ => []
        | .ok (state', edits, output, _) => if edits.isEmpty then []
            else begun file left state' output (index + 1)

variable {file : Option String} {source : Text} {limit : Nat} {fixpoint : Fixpoint}

theorem begun_eq_cons {left : Nat} {text output : Text} {index : Nat}
    {found : Module} {state' : σ} {edits : List Edit} {record : Record}
    (hread : Module.read text (elementsIn file) = .ok found)
    (hpass : rule.onePass ⟨index, found⟩ state = .ok (state', edits, output, record)) :
    rule.begun file (left + 1) state text index = (⟨index, found⟩, state') ::
      if edits.isEmpty then [] else rule.begun file left state' output (index + 1) := by
  rw [begun, hread]
  simp only [(onePass_eq_ok_iff.1 hpass).1, hpass]

theorem begun_of_reaches (hrun : (rule.run file limit source).outcome = .ok fixpoint)
    {records : List Record} {text : Text} (h : rule.Reaches file source state records text) : ∃ left,
      (rule.passes file limit left state text records).outcome = .ok fixpoint ∧
      rule.begun file left state text records.length ⊆ rule.begun file limit rule.initial source 0 := by
  induction h with
  | start => exact ⟨limit, hrun, List.Subset.refl _⟩
  | pass reaches hread hpass hne ih =>
    obtain ⟨left, hpasses, hsubset⟩ := ih
    obtain ⟨left, found, state', edits, output, record, rfl, hread', hseed, hedits, happly, hrest⟩ :=
      passes_eq_ok hpasses
    rw [hread] at hread'
    cases hread'
    rw [onePass_eq_ok_iff.2 ⟨hseed, hedits, Module.text_of_read hread ▸ happly⟩] at hpass
    cases hpass
    rw [begun_eq_cons hread (onePass_eq_ok_iff.2 ⟨hseed, hedits, Module.text_of_read hread ▸ happly⟩),
      if_neg (by simpa using hne)] at hsubset
    refine ⟨left, (hrest.resolve_left fun hnil => hne hnil.1).2, ?_⟩
    rw [List.length_append]
    exact List.Subset.trans (List.subset_cons_self _ _) hsubset

theorem mem_begun_of_begins (hrun : (rule.run file limit source).outcome = .ok fixpoint)
    (h : rule.Begins file source pass state) :
    (pass, state) ∈ rule.begun file limit rule.initial source 0 := by
  obtain ⟨earlier, records, text, reaches, hread, hindex, hseed⟩ := h
  obtain ⟨left, hpasses, hsubset⟩ := begun_of_reaches hrun reaches
  obtain ⟨left, found, state', edits, output, record, rfl, hread', hseed', hedits, happly, -⟩ :=
    passes_eq_ok hpasses
  obtain ⟨index, m⟩ := pass
  cases hindex
  rw [hread] at hread'
  cases hread'
  rw [hseed] at hseed'
  cases hseed'
  refine hsubset ?_
  rw [begun_eq_cons hread (onePass_eq_ok_iff.2 ⟨hseed, hedits, Module.text_of_read hread ▸ happly⟩)]
  exact List.mem_cons_self

end Rule
end ClassWeave
