import ClassWeave.Edit.Apply
import ClassWeave.Proofs.Order
import ClassWeave.Proofs.Probing
/-!
# Texts that are edited piece by piece

The edits of a text that is put together are the edits of its pieces, and what they write is what
they write of each piece.
-/

namespace ClassWeave

/-! ## Where a piece of text stands -/

def Pass.Holds (pass : Pass) (start : Nat) (text : Text) : Prop :=
  ∃ front behind, pass.module.text = front ++ (text ++ behind) ∧ front.byteLength = start

namespace Pass.Holds

variable {pass : Pass} {start : Nat} {a b text : Text}

theorem left (h : pass.Holds start (a ++ b)) : pass.Holds start a := by
  obtain ⟨front, behind, htext, hstart⟩ := h
  exact ⟨front, b ++ behind, by rw [htext, List.append_assoc], hstart⟩

theorem right (h : pass.Holds start (a ++ b)) : pass.Holds (start + a.byteLength) b := by
  obtain ⟨front, behind, htext, hstart⟩ := h
  exact ⟨front ++ a, behind, by rw [htext, List.append_assoc, List.append_assoc],
    by rw [Text.byteLength_append, hstart]⟩

theorem range_eq (h : pass.Holds start text) :
    pass.module.range ⟨start, start + text.byteLength⟩ = ⟨start, start + text.byteLength⟩ := by
  obtain ⟨front, behind, htext, rfl⟩ := h
  rw [Module.range, htext]
  simp only [Text.byteLength_append]
  rw [Nat.min_eq_left (by omega), Nat.min_eq_left (by omega)]

theorem textAt_eq (h : pass.Holds start text) : pass.textAt ⟨start, start + text.byteLength⟩ = text := by
  rw [Pass.textAt, Module.textAt, h.range_eq]
  obtain ⟨front, behind, htext, rfl⟩ := h
  rw [htext, Text.slice_append]

theorem admits (h : pass.Holds start text) :
    pass.module.admits ⟨start, start + text.byteLength⟩ = true := by
  rw [Module.admits_iff, h.range_eq]
  obtain ⟨front, behind, htext, rfl⟩ := h
  refine ⟨Nat.le_add_right _ _, ⟨front, text ++ behind, htext, rfl⟩, ⟨front ++ text, behind, ?_, ?_⟩⟩
  · rw [htext, List.append_assoc]
  · exact Text.byteLength_append front text

theorem textAt?_eq (h : pass.Holds start text) :
    pass.module.textAt? ⟨start, start + text.byteLength⟩ = some text :=
  Module.textAt?_eq_some_iff.2 ⟨h.admits, h.textAt_eq⟩

end Pass.Holds

/-! ## Edits of a piece -/

/-- The edits of a text that begins at an offset, and what they make of it. -/
inductive Patch : Nat → Text → List Edit → Text → Prop
  | keep (start : Nat) (text : Text) : Patch start text [] text
  | edit {start : Nat} (kept removed : Text) (replacement : Option Text)
      {rest output : Text} {edits : List Edit} :
      Patch (start + kept.byteLength + removed.byteLength) rest edits output →
      Patch start (kept ++ (removed ++ rest))
        (⟨⟨start + kept.byteLength, start + kept.byteLength + removed.byteLength⟩, replacement⟩ :: edits)
        (kept ++ (replacement.getD [] ++ output))

namespace Patch

theorem whole (start : Nat) (text : Text) (replacement : Option Text) :
    Patch start text [⟨⟨start, start + text.byteLength⟩, replacement⟩] (replacement.getD []) := by
  have h : Patch start ([] ++ (text ++ [])) _ _ := edit [] text replacement (keep _ [])
  simpa using h

variable {start : Nat} {a a' b b' : Text} {edits edits' : List Edit}

theorem behind (front : Text) (h : Patch (start + front.byteLength) a edits a') :
    Patch start (front ++ a) edits (front ++ a') := by
  generalize hoffset : start + front.byteLength = offset at h
  cases h with
  | keep => exact keep start (front ++ a)
  | edit kept removed replacement hrest =>
    subst hoffset
    have hlength : start + (front ++ kept).byteLength = start + front.byteLength + kept.byteLength := by
      rw [Text.byteLength_append]
      omega
    rw [← hlength] at hrest
    have h := edit (front ++ kept) removed replacement hrest
    rw [hlength] at h
    simpa only [List.append_assoc] using h

theorem append (h : Patch start a edits a') (h' : Patch (start + a.byteLength) b edits' b') :
    Patch start (a ++ b) (edits ++ edits') (a' ++ b') := by
  induction h with
  | keep start text => exact behind text h'
  | edit kept removed replacement hrest ih =>
    simp only [Text.byteLength_append, ← Nat.add_assoc] at h'
    have h := edit kept removed replacement (ih h')
    simpa only [List.append_assoc, List.cons_append] using h

theorem le_start (h : Patch start a edits a') : ∀ edit ∈ edits, start ≤ edit.span.start := by
  induction h with
  | keep => exact nofun
  | edit kept removed replacement hrest ih =>
    intro other hother
    rcases List.mem_cons.1 hother with rfl | hother
    · exact Nat.le_add_right _ _
    · have := ih other hother
      omega

theorem sorted (h : Patch start a edits a') : edits.Pairwise fun a b => a.span.start ≤ b.span.start := by
  induction h with
  | keep => exact List.Pairwise.nil
  | edit kept removed replacement hrest ih =>
    refine List.pairwise_cons.2 ⟨fun other hother => ?_, ih⟩
    have := hrest.le_start other hother
    show _ + _ ≤ _
    omega

theorem applyFrom (h : Patch start a edits a') :
    ∀ at', ∃ runs, Edit.applyFrom start at' a edits = .ok (a', runs) := by
  induction h with
  | keep => exact fun at' => ⟨_, rfl⟩
  | @edit start kept removed replacement rest output edits hrest ih =>
    intro at'
    obtain ⟨runs, hruns⟩ := ih ((at'.copy kept).edit removed (replacement.getD []))
    have hkept := Text.cut_append (removed ++ rest) kept
    have hremoved := Text.cut_append rest removed
    rw [Edit.applyFrom, if_neg (by simp), if_neg (by simp)]
    simp only [Nat.add_sub_cancel_left, hkept, hremoved, Edit.text, hruns]
    exact ⟨_, by rw [List.append_assoc]⟩

theorem applyAll (h : Patch 0 a edits a') (index : Nat) :
    ∃ record, Edit.applyAll index a edits = .ok (a', record) := by
  have horder : Edit.inOrder edits = edits :=
    Sorting.sort_eq_self (h.sorted.imp fun hle => decide_eq_true hle)
  obtain ⟨runs, hruns⟩ := h.applyFrom ⟨Position.origin, Position.origin⟩
  unfold Edit.applyAll
  rw [horder, hruns]
  exact ⟨_, rfl⟩

end Patch

/-! ## Passes over pieces -/

structure Node.Contained (trees : List Node) (start stop : Nat) : Prop where
  nested : AllNested trees
  within : ∀ target ∈ allTargets trees, start ≤ target.span.start ∧ target.span.start < target.span.stop ∧
    target.span.stop ≤ stop

namespace Node.Contained

variable {shape : Shape} {children rest : List Node} {node : Node} {start middle stop : Nat}

theorem nil (start stop : Nat) : Contained [] start stop := ⟨trivial, nofun⟩

theorem mono {start' stop' : Nat} (h : Contained children start stop)
    (hstart : start' ≤ start) (hstop : stop ≤ stop') :
    Contained children start' stop' := by
  refine ⟨h.nested, fun target htarget => ?_⟩
  have := h.within target htarget
  omega

theorem cons (h : Contained [node] start middle) (hrest : Contained rest middle stop) (hstop : middle ≤ stop)
    (hstart : start ≤ middle) : Contained (node :: rest) start stop := by
  have hnode : ∀ target ∈ node.targets, start ≤ target.span.start ∧ target.span.start < target.span.stop ∧
      target.span.stop ≤ middle := fun target htarget => h.within target (List.mem_append_left _ htarget)
  refine ⟨⟨h.nested.1, hrest.nested, fun a ha b hb => .inl ?_⟩, fun target htarget => ?_⟩
  · have := hnode a ha
    have := hrest.within b hb
    omega
  · rcases List.mem_append.1 htarget with htarget | htarget
    · have := hnode target htarget
      omega
    · have := hrest.within target htarget
      omega

theorem around (h : Contained children middle stop) (hstart : start < middle) (hfilled : start < stop) :
    Contained [.mk shape ⟨start, stop⟩ children] start stop := by
  have hinside : ∀ target ∈ allTargets children, target.span.Inside ⟨start, stop⟩ := fun target htarget => by
    obtain ⟨hlow, -, hhigh⟩ := h.within target htarget
    refine ⟨Nat.le_trans (Nat.le_of_lt hstart) hlow, hhigh, fun heq => ?_⟩
    rw [heq] at hlow
    exact absurd hlow (Nat.not_le_of_lt hstart)
  refine ⟨⟨⟨fun _ => hinside, h.nested⟩, trivial, fun _ _ _ => nofun⟩, fun target htarget => ?_⟩
  rw [allTargets, allTargets, List.append_nil, targets] at htarget
  have hchildren : ∀ target ∈ allTargets children, start ≤ target.span.start ∧
    target.span.start < target.span.stop ∧
      target.span.stop ≤ stop := fun target htarget => by
    have := h.within target htarget
    omega
  split at htarget
  · rcases List.mem_cons.1 htarget with rfl | htarget
    · exact ⟨Nat.le_refl _, hfilled, Nat.le_refl _⟩
    · exact hchildren target htarget
  · exact hchildren target htarget

theorem of_children {span : Span} (htarget : shape.isTarget = false) (h : Contained children start stop) :
    Contained [.mk shape span children] start stop := by
  have htargets : allTargets [.mk shape span children] = allTargets children := by
    rw [allTargets, allTargets, List.append_nil, targets, if_neg (by simp [htarget])]
  exact ⟨⟨⟨fun h => by simp [htarget] at h, h.nested⟩, trivial, fun _ _ _ => nofun⟩, htargets ▸ h.within⟩

end Node.Contained

namespace Rule

variable {σ χ ε : Type} {rule : Rule σ χ ε} {pass : Pass} {state : σ} {trees : List Node} {start : Nat}
  {a a' b b' : Text}

/-- What the edits of a pass make of a text, as far as they are those of some trees in it. -/
def Rewrites (rule : Rule σ χ ε) (pass : Pass) (state : σ) (trees : List Node)
    (start : Nat) (text output : Text) : Prop :=
  ∃ edits, (rule.frontier pass state (Node.allTargets trees)).mapM (rule.editOf pass state) = .ok edits ∧
    Patch start text edits output

section
variable {shape : Shape} {span : Span}

theorem Rewrites.of_none (hpicked : rule.picked? pass state (.mk shape span trees) = none)
    (h : rule.Rewrites pass state trees start a a') :
    rule.Rewrites pass state [.mk shape span trees] start a a' := by
  obtain ⟨edits, hedits, hpatch⟩ := h
  refine ⟨edits, ?_, hpatch⟩
  rw [Node.allTargets, Node.allTargets, List.append_nil, frontier_mk_of_none hpicked, hedits]

theorem Rewrites.inside (hinside : rule.anyPending pass state trees = true)
    (h : rule.Rewrites pass state trees start a a') :
    rule.Rewrites pass state [.mk shape span trees] start a a' := by
  obtain ⟨edits, hedits, hpatch⟩ := h
  refine ⟨edits, ?_, hpatch⟩
  rw [Node.allTargets, Node.allTargets, List.append_nil, frontier_mk_of_inside hinside, hedits]

theorem anyPending_of_inside (hinside : rule.anyPending pass state trees = true) :
    rule.anyPending pass state [.mk shape span trees] = true := by
  rw [anyPending, holdsPending, hinside]
  rfl

end

theorem Rewrites.keep (h : rule.anyPending pass state trees = false) (start : Nat) (text : Text) :
    rule.Rewrites pass state trees start text text := by
  refine ⟨[], ?_, .keep start text⟩
  rw [frontier_eq_nil h]
  rfl

theorem Rewrites.behind (front : Text) (h : rule.Rewrites pass state trees (start + front.byteLength) a a') :
    rule.Rewrites pass state trees start (front ++ a) (front ++ a') := by
  obtain ⟨edits, hedits, hpatch⟩ := h
  exact ⟨edits, hedits, hpatch.behind front⟩

theorem Rewrites.before (rest : Text) (h : rule.Rewrites pass state trees start a a') :
    rule.Rewrites pass state trees start (a ++ rest) (a' ++ rest) := by
  obtain ⟨edits, hedits, hpatch⟩ := h
  refine ⟨edits, hedits, ?_⟩
  have hall := hpatch.append (.keep _ rest)
  rwa [List.append_nil] at hall

theorem Rewrites.cons {node : Node} (h : rule.Rewrites pass state [node] start a a')
    (hrest : rule.Rewrites pass state trees (start + a.byteLength) b b') :
    rule.Rewrites pass state (node :: trees) start (a ++ b) (a' ++ b') := by
  obtain ⟨edits, hedits, hpatch⟩ := h
  obtain ⟨more, hmore, hpatch'⟩ := hrest
  refine ⟨edits ++ more, ?_, hpatch.append hpatch'⟩
  rw [Node.allTargets, Node.allTargets, List.append_nil] at hedits
  rw [Node.allTargets, frontier_append, List.mapM_append, hedits, hmore]
  rfl

theorem Rewrites.skip (node : Node) (hnone : rule.anyPending pass state [node] = false) (front : Text)
    (h : rule.Rewrites pass state trees (start + front.byteLength) a a') :
    rule.Rewrites pass state (node :: trees) start (front ++ a) (front ++ a') ∧
      rule.anyPending pass state (node :: trees) = rule.anyPending pass state trees := by
  refine ⟨.cons (.keep hnone start front) h, ?_⟩
  rw [anyPending, anyPending, Bool.or_false] at hnone
  rw [anyPending, hnone, Bool.false_or]

section Replaced

variable {shape : Shape} {children : List Node} {picked : χ} {text : Text} {replacement : Option Text}

theorem changes_of_ne (holds : pass.Holds start text)
    (hreplace : rule.replace pass state picked = .ok replacement) (hne : replacement.getD [] ≠ text) :
    rule.changes pass state ⟨start, start + text.byteLength⟩ picked = true := by
  rw [changes, replaceAt_of_admits holds.admits hreplace, holds.textAt_eq]
  exact bne_iff_ne.2 hne

theorem frontier_of_ne (htarget : shape.isTarget = true) (holds : pass.Holds start text)
    (hinside : rule.anyPending pass state children = false)
    (hpicked : rule.select pass state (.mk shape ⟨start, start + text.byteLength⟩ children) = some picked)
    (hreplace : rule.replace pass state picked = .ok replacement) (hne : replacement.getD [] ≠ text) :
    rule.frontier pass state [.mk shape ⟨start, start + text.byteLength⟩ children] =
      [(.mk shape ⟨start, start + text.byteLength⟩ children, picked)] := by
  have hpicked' : rule.picked? pass state (.mk shape ⟨start, start + text.byteLength⟩ children) =
    some picked :=
    (if_pos htarget).trans hpicked
  exact (frontier_singleton_of_some hinside hpicked').trans (if_pos (changes_of_ne holds hreplace hne))

/-- A picked target with nothing pending inside is replaced. -/
theorem Rewrites.replaced (replacement : Option Text) (htarget : shape.isTarget = true)
    (holds : pass.Holds start text) (hinside : rule.anyPending pass state children = false)
    (hpicked : rule.select pass state (.mk shape ⟨start, start + text.byteLength⟩ children) = some picked)
    (hreplace : rule.replace pass state picked = .ok replacement) (hne : replacement.getD [] ≠ text) :
    rule.Rewrites pass state [.mk shape ⟨start, start + text.byteLength⟩ children]
      start text (replacement.getD []) ∧
      rule.anyPending pass state [.mk shape ⟨start, start + text.byteLength⟩ children] = true := by
  have hfrontier := frontier_of_ne htarget holds hinside hpicked hreplace hne
  have htargets : Node.allTargets [.mk shape ⟨start, start + text.byteLength⟩ children] =
      .mk shape ⟨start, start + text.byteLength⟩ children :: Node.allTargets children := by
    rw [Node.allTargets, Node.allTargets, List.append_nil, Node.targets, if_pos htarget]
  have hall :
      rule.frontier pass state (Node.allTargets [.mk shape ⟨start, start + text.byteLength⟩ children]) =
        [(.mk shape ⟨start, start + text.byteLength⟩ children, picked)] := by
    rw [htargets, frontier_cons, hfrontier, frontier_eq_nil hinside, List.append_nil]
  refine ⟨⟨_, ?_, .whole start text replacement⟩, ?_⟩
  · have hreplaced := replaceAt_of_admits holds.admits hreplace
    rw [hall, List.mapM_cons, List.mapM_nil, editOf, Node.span, hreplaced]
    show Except.ok [Edit.mk (pass.module.range ⟨start, start + text.byteLength⟩) replacement] = _
    rw [holds.range_eq]
  · by_contra hnone
    rw [frontier_eq_nil (Bool.not_eq_true _ ▸ hnone)] at hall
    cases hall

end Replaced

theorem Rewrites.applyAll {output : Text} (nested : Node.AllNested pass.module.items)
    (h : rule.Rewrites pass state pass.module.items 0 pass.module.text output) (index : Nat) :
    ∃ edits record, rule.collectEdits pass state = .ok edits ∧
    Edit.applyAll index pass.module.text edits = .ok (output, record) ∧
      (rule.anyPending pass state pass.module.items = true → edits ≠ []) := by
  obtain ⟨edits, hedits, hpatch⟩ := h
  obtain ⟨record, hrecord⟩ := hpatch.applyAll index
  refine ⟨edits, record, (collectEdits_eq_mapM nested).trans hedits, hrecord, fun hpending hnil => ?_⟩
  have hfrontier := frontier_allTargets_ne_nil _ hpending
  obtain ⟨target, rest, htargets⟩ := List.exists_cons_of_ne_nil hfrontier
  rw [htargets, List.mapM_cons, hnil] at hedits
  cases hfirst : rule.editOf pass state target with
  | error failure => rw [hfirst] at hedits; cases hedits
  | ok edit =>
    rw [hfirst] at hedits
    cases hrest : rest.mapM (rule.editOf pass state) with
    | error failure => rw [hrest] at hedits; cases hedits
    | ok more => rw [hrest] at hedits; cases hedits

end Rule
end ClassWeave
