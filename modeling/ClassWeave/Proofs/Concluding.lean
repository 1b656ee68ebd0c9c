import ClassWeave.Proofs.Descending
import ClassWeave.Proofs.Ending
import ClassWeave.Proofs.Settling
/-!
# Transforming comes to an end

Every pass behind the first has fewer calls of compiled helpers to do with than the one before it,
and what it compiles is simplified in a run that comes to an end itself. So from some limit on a
file is transformed, or there is an obstacle.
-/

namespace ClassWeave

/-! ## Templates -/

theorem grow_simplifier : Rule.Grow PassFailure.IsLimit fun _ => simplifier where
  extended _ := .refl _
  limit_lost _ := trivial

theorem exists_limit_of_steady {code : Text} {file : Option String}
    (steady : ∀ pass state, simplifier.Begins file code pass state →
      Steady (Rule.elementsIn file) pass state) :
    ∃ limit, ∀ failure, simplifyTemplate code file limit = .error failure → ¬ failure.IsLimit := by
  have conclude : Rule.Conclude (Prod.Lex (· < ·) (· < ·))
      (fun pass _ => (tallying.weighAll pass.module.items, pass.module.slack))
      PassFailure.IsLimit (fun _ => simplifier)
      file code 0 := {
    seeds := fun _ _ _ => ⟨_, rfl⟩
    reads := fun _ _ _ => id
    edits := by
      intro limit pass state _ begins
      obtain ⟨edits, hedits⟩ := exists_edits (steady pass state begins).legible state
      refine ⟨limit, Nat.le_refl _, fun failure hfailure => ?_⟩
      rw [hedits] at hfailure
      cases hfailure
    applies := fun _ _ _ _ => id
    descends := fun _ begins hedits hne happly hnext _ =>
      Prod.lex_def.2 (descends_of_pass (steady _ _ begins) hedits hne happly hnext) }
  obtain ⟨limit, -, sound⟩ :=
    conclude.exists_limit grow_simplifier (fun _ => id) (WellFounded.prod_lex wellFounded_lt wellFounded_lt)
  refine ⟨limit, fun failure h => sound failure ?_⟩
  unfold simplifyTemplate at h
  cases hrun : (simplifier.run file limit code).outcome with
  | error other => rw [hrun] at h; cases h; rfl
  | ok fixpoint => rw [hrun] at h; cases h

/-! ## Calls -/

namespace Node

theorem countP_targets {chosen : Node → Bool}
    (hchosen : ∀ node, chosen node = true → node.shape.isTarget = true)
    (shape : Shape) (span : Span) (children : List Node) : (mk shape span children).targets.countP chosen =
      (allTargets children).countP chosen + (chosen (mk shape span children)).toNat := by
  rw [targets]
  split
  · rw [List.countP_cons]
    cases chosen (mk shape span children) <;> rfl
  · rename_i htarget
    have hnot : chosen (mk shape span children) = false := by
      rw [Bool.eq_false_iff]
      exact fun h => htarget (hchosen _ h)
    rw [hnot]
    rfl

section
variable {edited chosen : Node → Bool}

mutual

theorem countP_of_regrows (hchosen : ∀ node, chosen node = true → node.shape.isTarget = true) :
    ∀ (node : Node) (trees : List Node), Regrows edited (fun node found => chosen found = chosen node)
      (fun _ trees => ∀ inner ∈ allTargets trees, chosen inner = false) node trees →
      (allTargets trees).countP chosen + node.targets.countP (fun target => edited target && chosen target) ≤
        node.targets.countP chosen
  | mk shape span children, trees, hregrows => by
    cases hedited : edited (mk shape span children) with
    | true =>
      have hnone : (allTargets trees).countP chosen = 0 := by
        simpa [List.countP_eq_zero] using (regrows_of_edited hedited).1 hregrows
      rw [hnone, Nat.zero_add]
      exact List.countP_mono_left fun target _ h => (Bool.and_eq_true _ _ ▸ h : _ ∧ _).2
    | false =>
      obtain ⟨⟨shape', span', children'⟩, rfl, hsame, hchildren⟩ := (regrows_of_kept hedited).1 hregrows
      have ih : (allTargets children').countP chosen +
          (allTargets children).countP (fun target => edited target && chosen target) ≤
            (allTargets children).countP chosen :=
        countP_of_allRegrow hchosen children children' hchildren
      rw [allTargets_singleton, countP_targets hchosen, countP_targets hchosen,
        countP_targets fun node h => hchosen node (Bool.and_eq_true _ _ ▸ h : _ ∧ _).2,
        hsame, hedited, Bool.false_and,
        Bool.toNat_false]
      omega

theorem countP_of_allRegrow (hchosen : ∀ node, chosen node = true → node.shape.isTarget = true) :
    ∀ nodes trees : List Node, AllRegrow edited (fun node found => chosen found = chosen node)
      (fun _ trees => ∀ inner ∈ allTargets trees, chosen inner = false) nodes trees →
      (allTargets trees).countP chosen + (allTargets nodes).countP
        (fun target => edited target && chosen target) ≤
        (allTargets nodes).countP chosen
  | [], trees, hregrow => by
    rw [AllRegrow] at hregrow
    rw [hregrow]
    exact Nat.le_refl _
  | node :: rest, trees, hregrow => by
    obtain ⟨here, behind, rfl, hhere, hbehind⟩ := allRegrow_cons_iff.1 hregrow
    have hnode := countP_of_regrows hchosen node here hhere
    have hrest := countP_of_allRegrow hchosen rest behind hbehind
    rw [allTargets_append, allTargets, List.countP_append, List.countP_append, List.countP_append]
    omega

end

end

end Node

def Pass.editedBy (pass : Pass) (edits : List Edit) (node : Node) : Bool :=
  node.shape.isTarget && edits.any fun edit => edit.span == pass.module.range node.span

/-- A pass of a file, as a parser sees it that reads what the pass writes as the tree with other
trees, without calls of compiled helpers, where it was edited, and that reads the templates of calls
as `Steady` says. -/
structure Compiles (options : Options) (pass : Pass) (aliases : Aliases) : Prop where
  regrows : (transformer options).RegrowsAs pass aliases (Rule.elementsIn options.fileName)
    (fun _ node found => found.isHelperCall aliases = node.isHelperCall aliases)
    (fun _ _ trees => ∀ inner ∈ Node.allTargets trees, inner.isHelperCall aliases = false) pass.editedBy
  steady : ∀ node ∈ Node.allTargets pass.module.items, ∀ given,
    pick options pass aliases node = some (.tx given) →
    ∀ inner places, simplifier.Begins options.fileName (templateOf pass given) inner places →
      Steady (Rule.elementsIn options.fileName) inner places

section
variable {options : Options}

theorem grow_transformer (options : Options) :
    Rule.Grow TransformFailure.IsLimit fun limit => transformer (options.allowing limit) where
  extended hle := (transformer_upTo hle).mono fun _ hlost => hlost ▸ trivial
  limit_lost _ := trivial

theorem not_limit_of_compileTm {given : List Node} {failure : TransformFailure}
    (h : compileTm given = .error failure) :
    ¬ failure.IsLimit := by
  unfold compileTm at h
  split at h
  · split at h
    · cases h; exact id
    · split at h
      · cases h; exact id
      · cases h
  · cases h; exact id

def Enough (options : Options) (pass : Pass) (aliases : Aliases) (node : Node) (limit : Nat) : Prop :=
  ∀ given, pick options pass aliases node = some (.tx given) → ∀ failure,
    simplifyTemplate (templateOf pass given) options.fileName limit = .error failure → ¬ failure.IsLimit

theorem Enough.mono {pass : Pass} {aliases : Aliases} {node : Node} {limit limit' : Nat}
    (h : Enough options pass aliases node limit) (hle : limit ≤ limit') :
    Enough options pass aliases node limit' := by
  intro given hpick failure hfailure
  have hsame := (simplifyTemplate_upTo hle (templateOf pass given) options.fileName).eq_of_not_lost
    fun other hother hlost =>
    h given hpick other hother (hlost ▸ trivial)
  exact h given hpick failure (hsame ▸ hfailure)

namespace Compiles

variable {pass : Pass} {aliases : Aliases} {limit : Nat}

theorem exists_bound (compiles : Compiles (options.allowing limit) pass aliases) :
    ∃ bound, limit ≤ bound ∧ ∀ failure,
    (transformer (options.allowing bound)).collectEdits pass aliases = .error failure →
    ¬ failure.IsLimit := by
  have each : ∀ node ∈ Node.allTargets pass.module.items, ∃ bound,
    Enough options pass aliases node bound := by
    intro node hnode
    by_cases htx : ∃ given, pick options pass aliases node = some (.tx given)
    · obtain ⟨given, hpick⟩ := htx
      obtain ⟨bound, hbound⟩ := exists_limit_of_steady (compiles.steady node hnode given hpick)
      exact ⟨bound, fun other hother => by cases hpick.symm.trans hother; exact hbound⟩
    · exact ⟨0, fun given hpick => absurd ⟨given, hpick⟩ htx⟩
  obtain ⟨least, hleast⟩ :=
    Rule.exists_bound (fun node _ _ (h : Enough options pass aliases node _) => h.mono) _ each
  refine ⟨max limit least, Nat.le_max_left .., fun failure hfailure => ?_⟩
  obtain ⟨node, hnode, picked, hpick, -, hreplaced⟩ := Rule.collectEdits_error hfailure
  rcases Rule.replaceAt_eq_error hreplaced with hreplace | ⟨-, rfl⟩
  · rcases replace_error hreplace with ⟨-, rfl⟩ | ⟨given, cause, rfl, rfl, hcode⟩ | ⟨given, rfl, hcompiled⟩
    · exact id
    · exact (hleast node hnode).mono (Nat.le_max_right ..) given hpick cause hcode
    · exact not_limit_of_compileTm hcompiled
  · exact id

theorem descends (compiles : Compiles options pass aliases) {edits : List Edit}
    {output : Text} {record : Record} {next : Module}
    (hedits : (transformer options).collectEdits pass aliases = .ok edits)
    (hne : edits ≠ []) (happly : Edit.applyAll pass.index pass.module.text edits = .ok (output, record))
    (hnext : Module.read output (Rule.elementsIn options.fileName) = .ok next) :
    (Node.allTargets next.items).countP (Node.isHelperCall aliases) <
      (Node.allTargets pass.module.items).countP (Node.isHelperCall aliases) + pass.isFirst.toNat := by
  have hregrow := compiles.regrows.of_read hedits hne happly hnext
  let edited : Node → Bool := fun target => pass.editedBy edits target && target.isHelperCall aliases
  have hfewer : (Node.allTargets next.items).countP (Node.isHelperCall aliases) +
      (Node.allTargets pass.module.items).countP edited ≤
        (Node.allTargets pass.module.items).countP (Node.isHelperCall aliases) :=
    Node.countP_of_allRegrow (fun _ => isTarget_of_isHelperCall) _ _ hregrow
  cases hfirst : pass.isFirst with
  | true =>
    rw [Bool.toNat_true]
    omega
  | false =>
    obtain ⟨edit, hedit⟩ := List.exists_mem_of_ne_nil _ hne
    obtain ⟨node, hnode, picked, hpicked, -, hspan⟩ := Rule.target_of_collectEdits hedits edit hedit
    have htarget : node.shape.isTarget = true := by
      obtain ⟨shape, span, children⟩ := node
      exact Rule.isTarget_of_picked hpicked
    rw [Rule.picked?_of_isTarget htarget] at hpicked
    have hedited : pass.editedBy edits node = true := by
      rw [Pass.editedBy, htarget, Bool.true_and, List.any_eq_true]
      exact ⟨edit, hedit, beq_iff_eq.2 hspan⟩
    have hcall : edited node = true := by
      show (pass.editedBy edits node && node.isHelperCall aliases) = true
      rw [hedited, isHelperCall_of_pick hfirst hpicked]
      rfl
    have hsome := List.countP_pos_iff.2 ⟨node, hnode, hcall⟩
    rw [Bool.toNat_false]
    omega

end Compiles

/-- There is a limit under which a file is transformed, or fails for another reason. -/
theorem exists_limit_of_compiles {source : Text} {least : Nat}
    (compiles : ∀ limit, least ≤ limit → ∀ pass aliases,
      (transformer (options.allowing limit)).Begins options.fileName source pass aliases →
      Compiles (options.allowing limit) pass aliases) :
    ∃ limit, least ≤ limit ∧ ∀ failure,
    (transformTrace source (options.allowing limit)).outcome = .error failure →
      ¬ failure.IsLimit := by
  have conclude : Rule.Conclude (· < ·) (fun pass aliases =>
        (Node.allTargets pass.module.items).countP (Node.isHelperCall aliases) + pass.isFirst.toNat)
      TransformFailure.IsLimit (fun limit => transformer (options.allowing limit))
        options.fileName source least := {
    seeds := fun _ _ _ => ⟨_, rfl⟩
    reads := fun _ _ _ => id
    edits := fun hle begins => (compiles _ hle _ _ begins).exists_bound
    applies := fun _ _ _ _ => id
    descends := by
      intro limit pass aliases edits output record next aliases' hle begins hedits hne happly hnext hseed
      rw [keeps_aliases _ _ _ (by simp [Pass.isFirst])] at hseed
      cases hseed
      exact (compiles limit hle pass aliases begins).descends hedits hne happly hnext }
  exact conclude.exists_limit (grow_transformer options) (fun _ => id) wellFounded_lt

end

/-! ## Files -/

/-- From some limit of passes on, a file is transformed to the same code, or there is an obstacle
and it fails for that. -/
theorem transform_settles (source : String) (options : Options)
    (compiles : ∀ limit, options.maxPasses ≤ limit → ∀ pass aliases,
      (transformer (options.allowing limit)).Begins options.fileName source.toList pass aliases →
      Compiles (options.allowing limit) pass aliases) :
    (∃ bound transformed, ∀ limit, bound ≤ limit →
      transform source (options.allowing limit) = .ok transformed) ∨
      ∃ bound failure, Obstacle (options.allowing bound) source.toList failure ∧
        ∀ limit, bound ≤ limit → transform source (options.allowing limit) = .error failure := by
  obtain ⟨bound, -, hbound⟩ := exists_limit_of_compiles compiles
  have outcome : ∀ failure, transform source (options.allowing bound) = .error failure →
      (transformTrace source.toList (options.allowing bound)).outcome = .error failure := by
    intro failure h
    unfold transform at h
    cases htrace : (transformTrace source.toList (options.allowing bound)).outcome with
    | error other => rw [htrace] at h; cases h; rfl
    | ok fixpoint => rw [htrace] at h; cases h
  have settled : ∀ limit, bound ≤ limit →
      transform source (options.allowing limit) = transform source (options.allowing bound) :=
    fun limit hle =>
    (transform_upTo hle source).eq_of_not_lost fun failure hfailure =>
      hbound failure (outcome failure hfailure)
  cases hresult : transform source (options.allowing bound) with
  | ok transformed => exact .inl ⟨bound, transformed, fun limit hle => (settled limit hle).trans hresult⟩
  | error failure =>
    refine .inr ⟨bound, failure, ?_, fun limit hle => (settled limit hle).trans hresult⟩
    have htrace := outcome failure hresult
    exact (obstacle_of_transformTrace htrace).resolve_left (hbound failure htrace)

def simplifiesSteadily (code : Text) (file : Option String) (limit : Nat) : Bool :=
  match (simplifier.run file limit code).outcome with
  | .ok _ =>
      decide (∀ entry ∈ simplifier.begun file limit [] code 0, Steady (Rule.elementsIn file) entry.1 entry.2)
  | .error _ => false

theorem steady_of_simplifiesSteadily {code : Text} {file : Option String} {limit : Nat}
    (h : simplifiesSteadily code file limit = true) :
    ∀ pass places, simplifier.Begins file code pass places → Steady (Rule.elementsIn file) pass places := by
  unfold simplifiesSteadily at h
  split at h
  · rename_i hrun
    exact fun pass places begins => of_decide_eq_true h _ (Rule.mem_begun_of_begins hrun begins)
  · cases h

def compilesThrough (source : Text) (options : Options) : Bool :=
  match (transformTrace source options).outcome with
  | .ok _ => ((transformer options).begun options.fileName options.maxPasses [] source 0).all fun entry =>
    decide ((transformer options).RegrowsAs entry.1 entry.2 (Rule.elementsIn options.fileName)
      (fun _ node found => found.isHelperCall entry.2 = node.isHelperCall entry.2)
      (fun _ _ trees => ∀ inner ∈ Node.allTargets trees, inner.isHelperCall entry.2 = false)
      entry.1.editedBy) &&
    (Node.allTargets entry.1.module.items).all fun node =>
      match pick options entry.1 entry.2 node with
      | some (.tx given) => simplifiesSteadily (templateOf entry.1 given) options.fileName options.maxPasses
      | _ => true
  | .error _ => false

theorem compiles_of_compilesThrough {source : Text} {options : Options}
    (h : compilesThrough source options = true) :
    ∀ limit, options.maxPasses ≤ limit → ∀ pass aliases,
      (transformer (options.allowing limit)).Begins options.fileName source pass aliases →
      Compiles (options.allowing limit) pass aliases := by
  unfold compilesThrough at h
  split at h
  · rename_i fixpoint hrun
    intro limit hle pass aliases begins
    have extended := (grow_transformer options).extended hle
    have begins : (transformer options).Begins options.fileName source pass aliases :=
      begins.of_completed extended hrun
    have hentry := List.all_eq_true.1 h _ (Rule.mem_begun_of_begins hrun begins)
    rw [Bool.and_eq_true, decide_eq_true_eq, List.all_eq_true] at hentry
    obtain ⟨hregrows, hsteady⟩ := hentry
    obtain ⟨edits, hedits⟩ := begins.exists_edits hrun
    have hsame : (transformer (options.allowing limit)).collectEdits pass aliases =
        (transformer options).collectEdits pass aliases :=
      (Rule.collectEdits_upTo extended).eq_of_not_lost fun failure hfailure => by
        cases hedits.symm.trans hfailure
    refine ⟨?_, fun node hnode given hpick => ?_⟩
    · unfold Rule.RegrowsAs at hregrows ⊢
      rw [hsame]
      exact hregrows
    · have hsimplifies := hsteady node hnode
      rw [show pick options pass aliases node = some (.tx given) from hpick] at hsimplifies
      exact steady_of_simplifiesSteadily hsimplifies
  · cases h

set_option maxRecDepth 100000 in
/-- A call within an argument, which is compiled a pass earlier. -/
theorem transform_settles_nested_calls : ∃ bound transformed,
    transformed.code = "\n`a$\x7bc ? \" \" + `$\x7bd ? \"e\" : \"\"\x7d` : \"\"\x7d`;" ∧
    ∀ limit, bound ≤ limit → transform "import { tx } from \"@mkx419/tx\";\ntx('a', c && tx(d && 'e'));"
      (({} : Options).allowing limit) = .ok transformed := by
  have hchecked :
      compilesThrough "import { tx } from \"@mkx419/tx\";\ntx('a', c && tx(d && 'e'));".toList {} = true := by
    decide +kernel
  have hcode : (transform "import { tx } from \"@mkx419/tx\";\ntx('a', c && tx(d && 'e'));"
      (({} : Options).allowing 100)).toOption.map Transformed.code =
        some "\n`a$\x7bc ? \" \" + `$\x7bd ? \"e\" : \"\"\x7d` : \"\"\x7d`;" := by decide +kernel
  generalize "import { tx } from \"@mkx419/tx\";\ntx('a', c && tx(d && 'e'));" = source at hchecked hcode ⊢
  obtain ⟨transformed, hresult, hcode⟩ := Option.map_eq_some_iff.1 hcode
  rw [toOption_eq_some_iff] at hresult
  have same : ∀ limit, 100 ≤ limit → transform source (({} : Options).allowing limit) = .ok transformed :=
    fun limit hle => by
    rcases transform_of_larger_limit source {} hle with hlimit | hsame
    · cases hlimit.symm.trans hresult
    · exact hsame.trans hresult
  rcases transform_settles source {} (compiles_of_compilesThrough hchecked) with
      ⟨bound, found, h⟩ | ⟨bound, failure, -, h⟩
  · have hfound := (h _ (Nat.le_max_left bound 100)).symm.trans (same _ (Nat.le_max_right bound 100))
    exact ⟨bound, found, Except.ok.inj hfound ▸ hcode, h⟩
  · cases (h _ (Nat.le_max_left bound 100)).symm.trans (same _ (Nat.le_max_right bound 100))

-- What an argument holds where it stands its template may not hold: here `yield`, which is for generators.
example :
    (match (transformTrace "import { tx } from \"@mkx419/tx\";\nfunction* g() { tx(yield 1) }".toList
      {}).outcome with
    | .error failure => decide (failure = .pass (.unreadable "" ⟨.expressionExpected, 3⟩))
    | .ok _ => false) = true := by decide +kernel

end ClassWeave
