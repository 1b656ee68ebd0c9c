import ClassWeave.Proofs.Admission
/-!
# Limits of passes

A larger limit changes nothing but what failed for the limit. The results under two limits are
therefore compared as they are, up to the failures of the smaller one that are for want of passes:
rules, walks and runs keep that relation.
-/

namespace ClassWeave

def PassFailure.IsLimit : PassFailure → Prop
  | passLimit _ => True
  | _ => False

def TransformFailure.IsLimit : TransformFailure → Prop
  | pass failure => failure.IsLimit
  | _ => False

/-- Whether a result stays what it is, or was lost to one of some failures. -/
def UpTo {ε α : Type} (lost : ε → Prop) (result more : Except ε α) : Prop :=
  result = more ∨ ∃ failure, lost failure ∧ result = .error failure

namespace UpTo

variable {ε α β : Type} {lost : ε → Prop} {result more : Except ε α}

theorem refl (result : Except ε α) : UpTo lost result result := .inl rfl

theorem bind {next next' : α → Except ε β} (h : UpTo lost result more)
    (hnext : ∀ value, UpTo lost (next value) (next' value)) :
    UpTo lost (result.bind next) (more.bind next') := by
  rcases h with rfl | ⟨failure, hlost, rfl⟩
  · cases result with
    | error failure => exact .inl rfl
    | ok value => exact hnext value
  · exact .inr ⟨failure, hlost, rfl⟩

theorem map (f : α → β) (h : UpTo lost result more) : UpTo lost (result.map f) (more.map f) := by
  rcases h with rfl | ⟨failure, hlost, rfl⟩
  · exact .inl rfl
  · exact .inr ⟨failure, hlost, rfl⟩

theorem mono {other : ε → Prop} (h : UpTo lost result more) (himp : ∀ failure, lost failure → other failure) :
    UpTo other result more := by
  rcases h with rfl | ⟨failure, hlost, hresult⟩
  · exact .inl rfl
  · exact .inr ⟨failure, himp failure hlost, hresult⟩

theorem eq_of_not_lost (h : UpTo lost result more)
    (hkept : ∀ failure, result = .error failure → ¬lost failure) :
    more = result := by
  rcases h with rfl | ⟨failure, hlost, hresult⟩
  · rfl
  · exact absurd hlost (hkept failure hresult)

end UpTo

/-! ## Walks -/

namespace Node

variable {σ : Type} {visit more : σ → Node → σ × Step} {halted : σ → Prop}

def WalksUpTo (halted : σ → Prop) (result more : σ × Bool) : Prop :=
  result = more ∨ halted result.1 ∧ result.2 = true

mutual

theorem walk_upTo (step : ∀ state node, visit state node = more state node ∨
      halted (visit state node).1 ∧ (visit state node).2 = .stop) : ∀ (node : Node) (state : σ),
    WalksUpTo halted (walk visit state node) (walk more state node)
  | .mk shape span children, state => by
    rw [walk, walk]
    split
    · rcases step state (.mk shape span children) with heq | ⟨hhalted, hstop⟩
      · rw [heq]
        split
        · exact walkAll_upTo step children _
        · exact .inl rfl
        · exact .inl rfl
      · generalize visit state (.mk shape span children) = visited at hhalted hstop ⊢
        obtain ⟨state', how⟩ := visited
        cases hstop
        exact .inr ⟨hhalted, rfl⟩
    · exact walkAll_upTo step children state

theorem walkAll_upTo (step : ∀ state node, visit state node = more state node ∨
      halted (visit state node).1 ∧ (visit state node).2 = .stop) : ∀ (trees : List Node) (state : σ),
    WalksUpTo halted (walkAll visit state trees) (walkAll more state trees)
  | [], _ => .inl rfl
  | node :: rest, state => by
    rw [walkAll, walkAll]
    rcases walk_upTo step node state with heq | ⟨hhalted, hstop⟩
    · rw [heq]
      split
      · exact .inl rfl
      · exact walkAll_upTo step rest _
    · generalize walk visit state node = walked at hhalted hstop ⊢
      obtain ⟨state', stopped⟩ := walked
      cases hstop
      exact .inr ⟨hhalted, rfl⟩

end

end Node

/-! ## Rules -/

namespace Rule

variable {σ χ ε : Type} {lost : ε → Prop} {rule more : Rule σ χ ε}

/-- Two rules that differ in the replacements that the one has lost. -/
structure ExtendedBy (lost : ε → Prop) (rule more : Rule σ χ ε) : Prop where
  initial : rule.initial = more.initial
  seed : rule.seed = more.seed
  select : rule.select = more.select
  failure : rule.failure = more.failure
  replace : ∀ pass state picked, UpTo lost (rule.replace pass state picked) (more.replace pass state picked)

theorem ExtendedBy.refl (rule : Rule σ χ ε) : rule.ExtendedBy lost rule :=
  ⟨rfl, rfl, rfl, rfl, fun _ _ _ => .refl _⟩

theorem ExtendedBy.mono {other : ε → Prop} (h : rule.ExtendedBy lost more)
    (himp : ∀ failure, lost failure → other failure) :
    rule.ExtendedBy other more :=
  ⟨h.initial, h.seed, h.select, h.failure, fun pass state picked => (h.replace pass state picked).mono himp⟩

variable {pass : Pass} {state : σ}

theorem replaceAt_upTo (h : rule.ExtendedBy lost more) (span : Span) (picked : χ) :
    UpTo lost (rule.replaceAt pass state span picked) (more.replaceAt pass state span picked) := by
  unfold replaceAt
  rw [h.failure]
  exact (h.replace pass state picked).bind fun _ => .refl _

mutual

theorem hasLive_upTo (h : rule.ExtendedBy lost more) : ∀ (node : Node) (outer : Span),
    UpTo lost (rule.hasLive pass state outer node) (more.hasLive pass state outer node)
  | .mk shape span children, outer => by
    have ih := anyLive_upTo h children
    rw [hasLive, hasLive, h.select]
    split
    · split
      · exact ih outer
      · refine (ih span).bind fun live => ?_
        cases live with
        | true => exact .refl _
        | false => exact (replaceAt_upTo h span _).bind fun _ => .refl _
    · exact ih outer

theorem anyLive_upTo (h : rule.ExtendedBy lost more) : ∀ (trees : List Node) (outer : Span),
    UpTo lost (rule.anyLive pass state outer trees) (more.anyLive pass state outer trees)
  | [], _ => .refl _
  | node :: rest, outer => by
    rw [anyLive, anyLive]
    refine (hasLive_upTo h node outer).bind fun live => ?_
    cases live with
    | true => exact .refl _
    | false => exact anyLive_upTo h rest outer

end

theorem resolve_upTo (h : rule.ExtendedBy lost more) (node : Node) (picked : χ) :
    UpTo lost (rule.resolve pass state node picked) (more.resolve pass state node picked) := by
  refine (anyLive_upTo h node.children node.span).bind fun live => ?_
  cases live with
  | true => exact .refl _
  | false => exact (replaceAt_upTo h node.span picked).bind fun _ => .refl _

def Findings.LostTo (lost : ε → Prop) (found : Findings ε) : Prop :=
  ∃ failure, lost failure ∧ found.failure = some failure

theorem visit_upTo (h : rule.ExtendedBy lost more) (found : Findings ε) (node : Node) :
    rule.visit pass state found node = more.visit pass state found node ∨
      (rule.visit pass state found node).1.LostTo lost ∧ (rule.visit pass state found node).2 = .stop := by
  unfold visit
  rw [h.select]
  split
  · exact .inl rfl
  · rename_i picked _
    rcases @resolve_upTo _ _ _ _ _ _ pass state h node picked with heq | ⟨failure, hlost, heq⟩
    · rw [heq]
      exact .inl rfl
    · rw [heq]
      exact .inr ⟨⟨failure, hlost, rfl⟩, rfl⟩

theorem collectEdits_upTo (h : rule.ExtendedBy lost more) :
    UpTo lost (rule.collectEdits pass state) (more.collectEdits pass state) := by
  unfold collectEdits
  rcases Node.walkAll_upTo (visit_upTo h) pass.module.items ⟨[], none⟩ with heq | ⟨⟨failure, hlost, heq⟩, -⟩
  · rw [heq]
    exact .refl _
  · simp only [heq]
    exact .inr ⟨failure, hlost, rfl⟩

theorem onePass_upTo (h : rule.ExtendedBy lost more) :
    UpTo lost (rule.onePass pass state) (more.onePass pass state) := by
  unfold onePass
  rw [h.seed, h.failure]
  refine (UpTo.refl _).bind fun seeded => ?_
  exact (collectEdits_upTo h).bind fun _ => .refl _

/-! ## Runs -/

variable {file : Option String} {limit limit' : Nat}

theorem passes_upTo (h : rule.ExtendedBy lost more) (hlimit : lost (rule.failure (.passLimit limit))) :
    ∀ {left left' : Nat} {state : σ} {text : Text} {records : List Record}, left ≤ left' →
      UpTo lost (rule.passes file limit left state text records).outcome
        (more.passes file limit' left' state text records).outcome
  | 0, _, _, _, _, _ => .inr ⟨_, hlimit, rfl⟩
  | left + 1, 0, _, _, _, hle => absurd hle (Nat.not_succ_le_zero left)
  | left + 1, left' + 1, state, text, records, hle => by
    rw [passes, passes]
    simp only
    -- Up to the first pass that is lost both runs read the same texts with the same records.
    cases hread : Module.read text (Module.holdsElements (file.getD "")) with
    | error fault =>
      simp only [h.failure]
      exact .refl _
    | ok found =>
      simp only
      rcases @onePass_upTo _ _ _ _ _ _ ⟨records.length, found⟩ state h with heq | ⟨failure, hlost, heq⟩
      · rw [heq]
        cases more.onePass ⟨records.length, found⟩ state with
        | error failure => exact .refl _
        | ok result =>
          obtain ⟨state', edits, output, record⟩ := result
          simp only
          split
          · exact .refl _
          · exact passes_upTo h hlimit (Nat.le_of_succ_le_succ hle)
      · rw [heq]
        exact .inr ⟨failure, hlost, rfl⟩

/-- With a larger limit, a run ends as it did, unless it was for want of passes. -/
theorem run_upTo (h : rule.ExtendedBy lost more) (hlimit : lost (rule.failure (.passLimit limit)))
    (hle : limit ≤ limit') (text : Text) :
    UpTo lost (rule.run file limit text).outcome (more.run file limit' text).outcome := by
  unfold run
  rw [← h.initial]
  exact passes_upTo h hlimit hle

end Rule

/-! ## Files -/

-- What is lost is one failure throughout, the limit itself: the simplifier of a template is given
-- the limit of the file, so a probe that runs out of passes fails as the run around it would.

theorem simplifyTemplate_upTo {limit limit' : Nat} (hle : limit ≤ limit')
    (code : Text) (file : Option String) :
    UpTo (· = .passLimit limit) (simplifyTemplate code file limit) (simplifyTemplate code file limit') := by
  have hrun : UpTo (· = .passLimit limit) (simplifier.run file limit code).outcome
    (simplifier.run file limit' code).outcome :=
    Rule.run_upTo (.refl _) (by rfl) hle code
  exact hrun.map Fixpoint.code

def Options.allowing (options : Options) (limit : Nat) : Options := { options with maxPasses := limit }

variable {options : Options} {limit limit' : Nat}

theorem compileTx_upTo (hle : limit ≤ limit') (pass : Pass) (given : List Node) :
    UpTo (· = .pass (.passLimit limit))
    (compileTx pass given (options.allowing limit)) (compileTx pass given (options.allowing limit')) := by
  rcases compileTx_cases pass given with hreadable | ⟨-, hmisfit⟩
  · rw [compileTx_of_admits _ hreadable, compileTx_of_admits _ hreadable]
    rcases simplifyTemplate_upTo hle (templateOf pass given) options.fileName with heq | ⟨failure, rfl, heq⟩
    · simp only [Options.allowing, heq]
      exact .refl _
    · simp only [Options.allowing, heq]
      exact .inr ⟨_, rfl, rfl⟩
  · rw [hmisfit, hmisfit]
    exact .refl _

theorem transformer_upTo (hle : limit ≤ limit') :
    (transformer (options.allowing limit)).ExtendedBy (· = .pass (.passLimit limit))
    (transformer (options.allowing limit')) where
  initial := rfl
  seed := rfl
  select := rfl
  failure := rfl
  replace pass _ picked := by
    cases picked with
    | importDeclaration declaration => exact .refl _
    | tx given => exact (compileTx_upTo hle pass given).map some
    | tm given => exact .refl _

theorem transform_upTo_passLimit (hle : limit ≤ limit') (source : String) :
    UpTo (· = .pass (.passLimit limit))
    (transform source (options.allowing limit)) (transform source (options.allowing limit')) :=
  (Rule.run_upTo (transformer_upTo hle) rfl hle source.toList).map _

theorem transform_upTo (hle : limit ≤ limit') (source : String) : UpTo TransformFailure.IsLimit
    (transform source (options.allowing limit)) (transform source (options.allowing limit')) :=
  (transform_upTo_passLimit hle source).mono fun _ hlost => hlost ▸ trivial

/-- Whatever a file is transformed to, or fails for, under a limit that it does not fail for itself,
it is transformed to, or fails for, under every larger one. -/
theorem transform_of_larger_limit (source : String) (options : Options)
    {limit limit' : Nat} (hle : limit ≤ limit') :
    transform source (options.allowing limit) = .error (.pass (.passLimit limit)) ∨
      transform source (options.allowing limit') = transform source (options.allowing limit) := by
  rcases @transform_upTo_passLimit options limit limit' hle source with heq | ⟨failure, rfl, hresult⟩
  · exact .inr heq.symm
  · exact .inl hresult

set_option maxRecDepth 100000 in
/-- Three passes are enough for a call within a call, and so is every larger number. -/
theorem transform_nested_calls_of_larger_limit :
    (match transform "import { tx } from \"@mkx419/tx\"; tx(\"a\", tx(b && \"c\"))"
      (({} : Options).allowing 1000) with
      | .ok transformed => decide (transformed.code = " `a$\x7bb ? \" c\" : \"\"\x7d`")
      | .error _ => false) = true := by
  have hlimit :
      (match transform "import { tx } from \"@mkx419/tx\"; tx(\"a\", tx(b && \"c\"))"
        (({} : Options).allowing 3) with
        | .ok transformed => decide (transformed.code = " `a$\x7bb ? \" c\" : \"\"\x7d`")
        | .error _ => false) = true := by decide +kernel
  rcases transform_of_larger_limit "import { tx } from \"@mkx419/tx\"; tx(\"a\", tx(b && \"c\"))" {}
    (show 3 ≤ 1000 by decide) with hresult | hresult
  · rw [hresult] at hlimit
    cases hlimit
  · rw [hresult]
    exact hlimit

end ClassWeave
