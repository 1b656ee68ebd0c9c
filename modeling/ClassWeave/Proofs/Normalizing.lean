import ClassWeave.Proofs.NormalForm
import ClassWeave.Proofs.PassEdits
import ClassWeave.Proofs.Simplifying
/-!
# Simplified code

The code of a run is the text of a pass that found nothing to edit. For class lists that means that
every template in class position is written as it is, in whichever pass, so that another run returns
the code, and that no class list in it can be simplified.
-/

namespace ClassWeave

namespace Rule

variable {σ χ ε : Type} {rule : Rule σ χ ε}

theorem replaceAt_of_module {pass other : Pass} {state : σ}
    (hmodule : pass.module = other.module) {picked : χ}
    (hreplace : rule.replace pass state picked = rule.replace other state picked) (span : Span) :
    rule.replaceAt pass state span picked = rule.replaceAt other state span picked := by
  have hreading : ∀ replacement : Option Text,
    pass.reading [span] replacement = other.reading [span] replacement :=
    fun replacement => by rw [Pass.reading, hmodule]; rfl
  unfold replaceAt
  simp only [hreplace, hreading]

section
variable {pass other : Pass} {state : σ} (hmodule : pass.module = other.module)
  (hselect : ∀ node, rule.select pass state node = rule.select other state node)
  (hreplace : ∀ picked, rule.replace pass state picked = rule.replace other state picked)
include hmodule hselect hreplace

theorem hasLive_of_module :
    (∀ outer node, rule.hasLive pass state outer node = rule.hasLive other state outer node) ∧
    ∀ outer trees, rule.anyLive pass state outer trees = rule.anyLive other state outer trees := by
  have htext : ∀ span, pass.textAt span = other.textAt span := fun span => by rw [Pass.textAt, hmodule]; rfl
  apply hasLive.mutual_induct rule pass state
  · intro outer shape span children htarget hpicked ih
    rw [hasLive, hasLive, if_pos htarget, if_pos htarget, ← hselect, hpicked]
    exact ih
  · intro outer shape span children htarget picked hpicked ih
    rw [hasLive, hasLive, if_pos htarget, if_pos htarget, ← hselect, hpicked]
    simp only [ih, replaceAt_of_module hmodule (hreplace _), htext]
  · intro outer shape span children htarget ih
    rw [hasLive, hasLive, if_neg htarget, if_neg htarget]
    exact ih
  · intro outer
    rfl
  · intro outer node rest ih ihrest
    rw [anyLive, anyLive, ih, ihrest]

theorem collectEdits_of_module : rule.collectEdits pass state = rule.collectEdits other state := by
  have htext : ∀ span, pass.textAt span = other.textAt span := fun span => by rw [Pass.textAt, hmodule]; rfl
  have hvisit : rule.visit pass state = rule.visit other state := by
    funext found node
    have hlive := (hasLive_of_module hmodule hselect hreplace).2 node.span node.children
    unfold visit resolve
    simp only [hselect, replaceAt_of_module hmodule (hreplace _), hlive, htext, hmodule]
  unfold collectEdits
  rw [hvisit, hmodule]

end

end Rule

/-! ## Simplified class lists -/

def Module.InPosition (m : Module) (template : Node) : Prop :=
  template ∈ Node.allTargets m.items ∧ template.span ∈ m.items.flatMap classTemplatesOf

/-- Whether targets of a module nest by their spans, and templates in class position are laid out as
the tree says. -/
structure Module.LaidOut (m : Module) : Prop where
  nested : Node.AllNested m.items
  inPosition : ∀ {chunks span inner}, m.InPosition (.mk (.template chunks) span inner) →
    (Node.mk (.template chunks) span inner).LaidOut ⟨0, m⟩

theorem parts_of_module (m : Module) (index other : Nat) (chunks : List Chunk) (inner : List Node) :
    parts ⟨index, m⟩ chunks inner = parts ⟨other, m⟩ chunks inner :=
  parts_alike ((@Node.alike_refl ⟨index, m⟩ ⟨other, m⟩ rfl).2 inner)

theorem collectEdits_simplifier (m : Module) (index other : Nat) (state : List Span) :
    simplifier.collectEdits ⟨index, m⟩ state = simplifier.collectEdits ⟨other, m⟩ state :=
  Rule.collectEdits_of_module rfl (fun _ => rfl) fun picked =>
    congrArg
      (fun parts => Pass.reading ⟨index, m⟩ (partSpans picked.chunks picked.inner) (some (render parts)))
      (parts_of_module m index other picked.chunks picked.inner)

theorem render_eq_of_changes {pass : Pass} {places : List Span} {span : Span} {picked : PickedTemplate}
    (h : simplifier.changes pass places span picked = false) :
    render (parts pass picked.chunks picked.inner) = pass.textAt span := by
  unfold Rule.changes at h
  split at h
  · cases h
  · rename_i replacement hreplaced
    have hwritten : some (render (parts pass picked.chunks picked.inner)) = replacement :=
      (Pass.reading_eq_ok.1 (Rule.replaceAt_eq_ok.1 hreplaced).1).2
    rw [← hwritten] at h
    exact bne_eq_false_iff_eq.1 h

theorem render_eq_of_collectEdits {m : Module} (nested : Node.AllNested m.items)
    (hnone : simplifier.collectEdits ⟨0, m⟩ (m.items.flatMap classTemplatesOf) = .ok [])
    {chunks : List Chunk} {span : Span} {inner : List Node}
    (h : m.InPosition (.mk (.template chunks) span inner)) :
    render (parts ⟨0, m⟩ chunks inner) = m.textAt span := by
  have hpicked : simplifier.picked? ⟨0, m⟩ (m.items.flatMap classTemplatesOf)
    (.mk (.template chunks) span inner) = some ⟨chunks, inner⟩ := by
    rw [Rule.picked?_of_isTarget rfl]
    exact if_pos (List.contains_iff_mem.2 h.2)
  exact render_eq_of_changes ((Rule.collectEdits_eq_nil_iff nested).1 hnone _ h.1 _ hpicked)

theorem collectEdits_of_simplifyTemplate {code out : Text} {file : Option String} {limit : Nat}
    (h : simplifyTemplate code file limit = .ok out) : ∃ m, Module.read out (Rule.elementsIn file) = .ok m ∧
      simplifier.collectEdits ⟨0, m⟩ (m.items.flatMap classTemplatesOf) = .ok [] := by
  obtain ⟨fixpoint, hrun, hcode⟩ : ∃ fixpoint, (simplifier.run file limit code).outcome = .ok fixpoint ∧
    fixpoint.code = out := by
    unfold simplifyTemplate at h
    cases hrun : (simplifier.run file limit code).outcome with
    | error failure =>
      rw [hrun] at h
      cases h
    | ok fixpoint =>
      rw [hrun] at h
      cases h
      exact ⟨fixpoint, rfl, rfl⟩
  obtain ⟨before, records, m, seeded, -, hread, hseed, hnone⟩ := Rule.reaches_of_run hrun
  cases hseed
  rw [collectEdits_simplifier m records.length 0] at hnone
  rw [hcode] at hread
  exact ⟨m, hread, hnone⟩

theorem Module.LaidOut.isNormal {m : Module} (laidOut : m.LaidOut)
    (hnone : simplifier.collectEdits ⟨0, m⟩ (m.items.flatMap classTemplatesOf) = .ok [])
    {chunks : List Chunk} {span : Span} {inner : List Node}
    (h : m.InPosition (.mk (.template chunks) span inner)) : IsNormal chunks inner :=
  isNormal_of_settled (laidOut.inPosition h) (render_eq_of_collectEdits laidOut.nested hnone h)

/-- Simplifying the code of a run again leaves it as it is, and no class list in class position can
be simplified. -/
theorem simplifyTemplate_normal {code out : Text} {file : Option String}
    {limit : Nat} (h : simplifyTemplate code file limit = .ok out) :
    ∃ m, Module.read out (Rule.elementsIn file) = .ok m ∧
      (∀ limit' > 0, simplifyTemplate out file limit' = .ok out) ∧
      (m.LaidOut → ∀ chunks span inner, m.InPosition (.mk (.template chunks) span inner) →
        IsNormal chunks inner) := by
  obtain ⟨m, hread, hnone⟩ := collectEdits_of_simplifyTemplate h
  refine ⟨m, hread, fun limit' hlimit => ?_, fun laidOut chunks span inner => laidOut.isNormal hnone⟩
  obtain ⟨record, hagain⟩ := Rule.run_of_collectEdits_eq_nil hlimit hread rfl hnone
  rw [simplifyTemplate, hagain]
  rfl

set_option maxRecDepth 100000 in
/-- A conditional that has become part of the class in front of it. -/
theorem simplifyTemplate_normal_joined : ∃ m chunks inner,
    simplifyTemplate "` a  $\x7bc && d\x7d `".toList none 5 = .ok "`a$\x7bc ? \" \" + d : \"\"\x7d`".toList ∧
      Module.read "`a$\x7bc ? \" \" + d : \"\"\x7d`".toList false = .ok m ∧ m.LaidOut ∧
      m.InPosition (.mk (.template chunks) ⟨0, 22⟩ inner) ∧ IsNormal chunks inner ∧
      simplifyTemplate "`a$\x7bc ? \" \" + d : \"\"\x7d`".toList none 1 =
        .ok "`a$\x7bc ? \" \" + d : \"\"\x7d`".toList := by
  let test : Node := .mk (.identifier "c") ⟨4, 5⟩ []
  let lead : Node := .mk (.literal (.string [' '])) ⟨8, 11⟩ []
  let value : Node := .mk (.identifier "d") ⟨14, 15⟩ []
  let blank : Node := .mk (.literal (.string [])) ⟨18, 20⟩ []
  let inner : List Node := [.mk .conditional ⟨4, 20⟩ [test, .mk (.binary "+") ⟨8, 15⟩ [lead, value], blank]]
  let chunks : List Chunk := [⟨['a'], some ['a']⟩, ⟨[], some []⟩]
  let m : Module := ⟨"`a$\x7bc ? \" \" + d : \"\"\x7d`".toList,
    [.mk .expressionStatement ⟨0, 22⟩ [.mk (.template chunks) ⟨0, 22⟩ inner]]⟩
  have hsimplify : simplifyTemplate "` a  $\x7bc && d\x7d `".toList none 5 =
    .ok "`a$\x7bc ? \" \" + d : \"\"\x7d`".toList :=
    toOption_eq_some_iff.1 (by decide +kernel)
  have hread : Module.read "`a$\x7bc ? \" \" + d : \"\"\x7d`".toList false = .ok m := by rfl
  have hnone : Text.Loose [] := by decide
  have hspace : Text.Loose [' '] := by decide
  have htest : test.LaidOut ⟨0, m⟩ := .plain rfl (by decide +kernel)
  have hvalue : value.LaidOut ⟨0, m⟩ := .plain rfl (by decide +kernel)
  have hlead : lead.LaidOut ⟨0, m⟩ :=
    .string hnone (.inl rfl) (by decide +kernel : _ = [] ++ '\x22' :: [' '] ++ ['\x22']) rfl
  have hblank : blank.LaidOut ⟨0, m⟩ :=
    .string hnone (.inl rfl) (by decide +kernel : _ = [] ++ '\x22' :: [] ++ ['\x22']) rfl
  have hsum : (Node.mk (.binary "+") ⟨8, 15⟩ [lead, value]).LaidOut ⟨0, m⟩ :=
    .binary (by decide) (by decide +kernel : _ = "\" \" ".toList ++ "+".toList ++ " d".toList)
      ⟨[], [' '], hnone, hspace, by decide +kernel⟩ ⟨[' '], [], hspace, hnone, by decide +kernel⟩ hlead hvalue
  have hchoice : ∀ node ∈ inner, node.LaidOut ⟨0, m⟩ := List.forall_mem_singleton.2 <|
    .conditional (by decide +kernel : _ = "c ".toList ++ '?' :: " \" \" + d ".toList ++ ':' :: " \"\"".toList)
      ⟨[], [' '], hnone, hspace, by decide +kernel⟩ ⟨[' '], [' '], hspace, hspace, by decide +kernel⟩
      ⟨[' '], [], hspace, hnone, by decide +kernel⟩ htest hsum hblank
  have hopening : TemplateText.readChunk "a$\x7bc ? \" \" + d : \"\"\x7d`".toList =
      ⟨⟨['a'], some ['a']⟩, none, .expression,
        "c ? \" \" + d : \"\"".toList ++ '\x7d' :: [TemplateText.mark]⟩ := by rfl
  have hclosing : TemplateText.readChunk [TemplateText.mark] = ⟨⟨[], some []⟩, none, .closed, []⟩ := by rfl
  have hbraided : Braided chunks ["c ? \" \" + d : \"\"".toList] "a$\x7bc ? \" \" + d : \"\"\x7d`".toList :=
    .cons hopening (.last hclosing)
  have htargets : Node.allTargets m.items = [.mk (.template chunks) ⟨0, 22⟩ inner] := rfl
  have hlaidOut : m.LaidOut := by
    refine ⟨by decide +kernel, fun {chunks span inner} hposition => ?_⟩
    cases List.mem_singleton.1 (htargets ▸ hposition.1)
    exact .template hnone (by decide +kernel) hbraided
      (.cons ⟨[], [], hnone, hnone, by decide +kernel⟩ .nil) hchoice
  have hposition : m.InPosition (.mk (.template chunks) ⟨0, 22⟩ inner) :=
    ⟨List.mem_singleton_self _, by decide +kernel⟩
  obtain ⟨found, hfound, hagain, hnormal⟩ := simplifyTemplate_normal hsimplify
  obtain rfl : m = found := Except.ok.inj (hread.symm.trans hfound)
  exact ⟨m, chunks, inner, hsimplify, hread, hlaidOut, hposition,
    hnormal hlaidOut _ _ _ hposition, hagain 1 (by decide)⟩

end ClassWeave
