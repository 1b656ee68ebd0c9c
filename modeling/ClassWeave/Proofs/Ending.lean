import ClassWeave.Proofs.Regrowing
/-!
# Runs that come to an end

Whatever a run comes to under one limit it comes to under every larger one. If every pass has, under
some limit, edits or a failure that no larger limit changes, and what it writes comes before it in a
well-founded order, then so does the run: a limit that is large enough for each of its passes is
large enough for all of them.
-/

namespace ClassWeave

namespace Rule

variable {σ χ ε : Type} {lost : ε → Prop} {rule more : Rule σ χ ε} {file : Option String} {source text : Text}
  {pass : Pass} {state : σ} {records : List Record}

/-! ## What a run comes to under larger limits -/

theorem replace_of_collectEdits (nested : Node.AllNested pass.module.items) {edits : List Edit}
    (hedits : rule.collectEdits pass state = .ok edits) {node : Node}
    (hnode : node ∈ Node.allTargets pass.module.items) {picked : χ}
    (hpicked : rule.picked? pass state node = some picked)
    (hinside : rule.anyPending pass state node.children = false) :
    ∃ replacement, rule.replace pass state picked = .ok replacement := by
  have hreplaced : ∃ replacement, rule.replaceAt pass state node.span picked = .ok replacement := by
    cases hchanges : rule.changes pass state node.span picked with
    | false =>
      unfold changes at hchanges
      split at hchanges
      · cases hchanges
      · exact ⟨_, ‹_›⟩
    | true =>
      have hpending := pending_iff.2 ⟨picked, hpicked, .inr hchanges⟩
      rw [collectEdits_eq_mapM nested] at hedits
      have hfrontier : (node, picked) ∈ rule.frontier pass state (Node.allTargets pass.module.items) :=
        mem_frontier.2 ⟨hnode, hpending, hinside, hpicked⟩
      obtain ⟨edit, hedit⟩ := exists_of_mapM hedits _ hfrontier
      unfold editOf at hedit
      cases hreplaced : rule.replaceAt pass state node.span picked with
      | error failure => rw [hreplaced] at hedit; cases hedit
      | ok replacement => exact ⟨replacement, rfl⟩
  obtain ⟨replacement, hreplaced⟩ := hreplaced
  exact ⟨replacement, (replaceAt_eq_ok.1 hreplaced).1⟩

theorem onePass_of_extended (h : rule.ExtendedBy lost more) {result : σ × List Edit × Text × Record}
    (hpass : rule.onePass pass state = .ok result) : more.onePass pass state = .ok result := by
  rw [← hpass]
  exact (onePass_upTo h).eq_of_not_lost fun failure hfailure => by rw [hpass] at hfailure; cases hfailure

theorem Agrees.of_extended (h : rule.ExtendedBy lost more) (nested : Node.AllNested pass.module.items)
    {edits : List Edit} (hedits : rule.collectEdits pass state = .ok edits) :
    rule.Agrees more pass state (Node.allTargets pass.module.items) where
  failure := h.failure
  select := by rw [h.select]
  replace node hnode picked hpicked hinside := by
    obtain ⟨replacement, hreplace⟩ := replace_of_collectEdits nested hedits hnode hpicked hinside
    refine ((h.replace pass state picked).eq_of_not_lost fun failure hfailure => ?_).symm
    cases hreplace.symm.trans hfailure

theorem Reaches.mono (h : rule.ExtendedBy lost more) (reaches : rule.Reaches file source state records text) :
    more.Reaches file source state records text := by
  induction reaches with
  | start => exact h.initial ▸ .start
  | pass _ hread hpass hne ih => exact .pass ih hread (onePass_of_extended h hpass) hne

theorem Reaches.of_completed (h : rule.ExtendedBy lost more) {limit : Nat} {fixpoint : Fixpoint}
    (hrun : (rule.run file limit source).outcome = .ok fixpoint)
    (reaches : more.Reaches file source state records text) :
    rule.Reaches file source state records text := by
  induction reaches with
  | start => exact h.initial ▸ .start
  | pass _ hread hpass hne ih =>
    obtain ⟨left, hpasses, -⟩ := begun_of_reaches hrun ih
    obtain ⟨left, found, state', edits, output, record, rfl, hread', hseed, hedits, happly, -⟩ :=
      passes_eq_ok hpasses
    rw [hread] at hread'
    cases hread'
    have hpass' := onePass_eq_ok_iff.2 ⟨hseed, hedits, Module.text_of_read hread ▸ happly⟩
    rw [onePass_of_extended h hpass'] at hpass
    cases hpass
    exact .pass ih hread hpass' hne

theorem Begins.of_completed (h : rule.ExtendedBy lost more) {limit : Nat} {fixpoint : Fixpoint}
    (hrun : (rule.run file limit source).outcome = .ok fixpoint)
    (begins : more.Begins file source pass state) :
    rule.Begins file source pass state := by
  obtain ⟨earlier, records, text, reaches, hread, hindex, hseed⟩ := begins
  exact ⟨earlier, records, text, reaches.of_completed h hrun, hread, hindex, h.seed ▸ hseed⟩

theorem Begins.exists_edits {limit : Nat} {fixpoint : Fixpoint}
    (hrun : (rule.run file limit source).outcome = .ok fixpoint)
    (begins : rule.Begins file source pass state) : ∃ edits, rule.collectEdits pass state = .ok edits := by
  obtain ⟨earlier, records, text, reaches, hread, hindex, hseed⟩ := begins
  obtain ⟨left, hpasses, -⟩ := begun_of_reaches hrun reaches
  obtain ⟨left, found, state', edits, output, record, -, hread', hseed', hedits, -⟩ := passes_eq_ok hpasses
  obtain ⟨index, m⟩ := pass
  cases hindex
  cases hread.symm.trans hread'
  cases hseed.symm.trans hseed'
  exact ⟨edits, hedits⟩

/-! ## A limit that is large enough -/

theorem exists_bound {β : Type} {enough : β → Nat → Prop} (mono : ∀ b n m, enough b n → n ≤ m → enough b m) :
    ∀ list : List β, (∀ b ∈ list, ∃ n, enough b n) → ∃ n, ∀ b ∈ list, enough b n
  | [], _ => ⟨0, nofun⟩
  | first :: rest, h => by
    obtain ⟨n, hn⟩ := h first List.mem_cons_self
    obtain ⟨m, hm⟩ := exists_bound mono rest fun b hb => h b (List.mem_cons_of_mem _ hb)
    refine ⟨max n m, List.forall_mem_cons.2 ⟨mono _ _ _ hn (Nat.le_max_left ..), fun b hb => ?_⟩⟩
    exact mono _ _ _ (hm b hb) (Nat.le_max_right ..)

/-- Rules that lose less the larger their limit is. -/
structure Grow (lost : ε → Prop) (rules : Nat → Rule σ χ ε) : Prop where
  extended : ∀ {limit limit' : Nat}, limit ≤ limit' → (rules limit).ExtendedBy lost (rules limit')
  limit_lost : ∀ limit, lost ((rules limit).failure (.passLimit limit))

/-- From some limit on, the passes of a run do not fail badly, and what they write comes before them
by a measure. -/
structure Conclude {α : Type} (before : α → α → Prop) (measure : Pass → σ → α)
    (bad : ε → Prop) (rules : Nat → Rule σ χ ε) (file : Option String)
    (source : Text) (least : Nat) : Prop where
  seeds : ∀ limit pass state, ∃ state', (rules limit).seed pass state = .ok state'
  reads : ∀ {limit state records text fault}, least ≤ limit →
    (rules limit).Reaches file source state records text →
    Module.read text (elementsIn file) = .error fault →
    ¬ bad ((rules limit).failure (.unreadable (file.getD "") fault))
  edits : ∀ {limit pass state}, least ≤ limit → (rules limit).Begins file source pass state →
    ∃ bound, limit ≤ bound ∧ ∀ failure, (rules bound).collectEdits pass state = .error failure → ¬ bad failure
  applies : ∀ {limit pass state edits fault}, least ≤ limit → (rules limit).Begins file source pass state →
    (rules limit).collectEdits pass state = .ok edits →
    Edit.applyAll pass.index pass.module.text edits = .error fault →
    ¬ bad ((rules limit).failure (.misfit fault))
  descends : ∀ {limit pass state edits output record next state'}, least ≤ limit →
    (rules limit).Begins file source pass state →
    (rules limit).collectEdits pass state = .ok edits → edits ≠ [] →
    Edit.applyAll pass.index pass.module.text edits = .ok (output, record) →
    Module.read output (elementsIn file) = .ok next →
    (rules limit).seed ⟨pass.index + 1, next⟩ state = .ok state' →
    before (measure ⟨pass.index + 1, next⟩ state') (measure pass state)

section
variable {α : Type} {before : α → α → Prop} {measure : Pass → σ → α}
    {bad : ε → Prop} {rules : Nat → Rule σ χ ε} {least : Nat}

variable (bad rules file) in
def Sound (limit left : Nat) (state : σ) (records : List Record) (text : Text) : Prop :=
  ∀ failure, ((rules limit).passes file limit left state text records).outcome =
    .error failure → ¬ bad failure

theorem Sound.mono (grow : Grow lost rules) (hbad : ∀ failure, lost failure → bad failure)
    {limit limit' left left' : Nat} (h : Sound file bad rules limit left state records text)
    (hlimit : limit ≤ limit') (hleft : left ≤ left') :
    Sound file bad rules limit' left' state records text := by
  have hsame :=
    (@passes_upTo _ _ _ _ _ _ file limit limit' (grow.extended hlimit)
      (grow.limit_lost limit) left left' state
      text records hleft).eq_of_not_lost fun failure hfailure hlost => h failure hfailure (hbad failure hlost)
  intro failure hfailure
  exact h failure (hsame ▸ hfailure)

theorem Conclude.sound_of_unreadable
    (conclude : Conclude before measure bad rules file source least) {limit : Nat} (hle : least ≤ limit)
    {fault : ScriptFault} (reaches : (rules limit).Reaches file source state records text)
    (hread : Module.read text (elementsIn file) = .error fault) (left : Nat) :
    Sound file bad rules limit (left + 1) state records text := by
  intro failure hfailure
  unfold elementsIn at hread
  rw [passes] at hfailure
  simp only [hread] at hfailure
  cases hfailure
  exact conclude.reads hle reaches hread

theorem passes_of_onePass_error {limit left : Nat} {found : Module} {failure : ε}
    (hread : Module.read text (elementsIn file) = .ok found)
    (hpass : rule.onePass ⟨records.length, found⟩ state = .error failure) :
    (rule.passes file limit (left + 1) state text records).outcome = .error failure := by
  unfold elementsIn at hread
  rw [passes]
  simp only [hread, hpass]

theorem Conclude.not_bad_of_onePass
    (conclude : Conclude before measure bad rules file source least)
    {limit : Nat} (hle : least ≤ limit) {earlier : σ} (hseed : (rules limit).seed pass earlier = .ok state)
    (begins : (rules limit).Begins file source pass state)
    (hedits : ∀ failure, (rules limit).collectEdits pass state = .error failure → ¬ bad failure)
    {failure : ε} (h : (rules limit).onePass pass earlier = .error failure) : ¬ bad failure := by
  unfold onePass at h
  rw [hseed] at h
  change (((rules limit).collectEdits pass state).bind _ = _) at h
  cases hcollect : (rules limit).collectEdits pass state with
  | error other =>
    rw [hcollect] at h
    cases h
    exact hedits _ hcollect
  | ok edits =>
    rw [hcollect] at h
    simp only [Except.bind] at h
    split at h
    · cases h
    · rename_i happly
      cases h
      exact conclude.applies hle begins hcollect happly

/-- From every text that a run comes to it does not fail badly, if its limit is large enough. -/
theorem Conclude.exists_sound (conclude : Conclude before measure bad rules file source least)
    (grow : Grow lost rules) (hbad : ∀ failure, lost failure → bad failure)
    (value : α) (hvalue : Acc before value) :
    ∀ {limit : Nat} {state state' : σ} {records : List Record} {text : Text} {found : Module}, least ≤ limit →
      (rules limit).Reaches file source state records text → Module.read text (elementsIn file) = .ok found →
      (rules limit).seed ⟨records.length, found⟩ state = .ok state' →
      measure ⟨records.length, found⟩ state' = value →
      ∃ bound, limit ≤ bound ∧ Sound file bad rules bound bound state records text := by
  induction hvalue with
  | intro value _ ih =>
    intro limit state state' records text found hle reaches hread hseed hvalue
    obtain ⟨bound, hbound, hedits⟩ := conclude.edits hle ⟨state, records, text, reaches, hread, rfl, hseed⟩
    -- Under `bound` the pass is what it will be under every larger limit.
    have extended := grow.extended hbound
    have reaches := reaches.mono extended
    rw [extended.seed] at hseed
    have begins : (rules bound).Begins file source ⟨records.length, found⟩ state' :=
      ⟨state, records, text, reaches, hread, rfl, hseed⟩
    have hle := Nat.le_trans hle hbound
    have enough : Sound file bad rules bound 1 state records text →
        ∃ bound, limit ≤ bound ∧ Sound file bad rules bound bound state records text := fun sound =>
      ⟨bound + 1, by omega, sound.mono grow hbad (by omega) (by omega)⟩
    cases hpass : (rules bound).onePass ⟨records.length, found⟩ state with
    | error failure =>
      refine enough fun other hother => ?_
      rw [passes_of_onePass_error hread hpass] at hother
      cases hother
      exact conclude.not_bad_of_onePass hle hseed begins hedits hpass
    | ok result =>
      obtain ⟨seeded, edits, output, record⟩ := result
      obtain ⟨hseeded, hcollect, happly⟩ := onePass_eq_ok_iff.1 hpass
      cases hseed.symm.trans hseeded
      have htext := Module.text_of_read hread
      by_cases hne : edits = []
      · subst hne
        refine enough fun other hother => ?_
        obtain ⟨record, hpasses⟩ : ∃ record, ((rules bound).passes file bound 1 state text records).outcome =
            .ok ⟨text, records ++ [record]⟩ := passes_of_collectEdits_eq_nil records hread hseed hcollect
        rw [hpasses] at hother
        cases hother
      · -- The rest of the run is that of the output, which comes before by the measure or cannot be read.
        obtain ⟨later, hlater, sound⟩ : ∃ later, bound ≤ later ∧
            Sound file bad rules later later state' (records ++ [record]) output := by
          have reached := Reaches.pass reaches hread hpass hne
          cases hnext : Module.read output (elementsIn file) with
          | error fault =>
            exact ⟨bound + 1, by
              omega, (conclude.sound_of_unreadable hle reached hnext 0).mono grow hbad (by omega) (by omega)⟩
          | ok next =>
            obtain ⟨state'', hstate''⟩ := conclude.seeds bound ⟨records.length + 1, next⟩ state'
            have hbefore := conclude.descends hle begins hcollect hne happly hnext hstate''
            have hlength : (records ++ [record]).length = records.length + 1 := by simp
            exact ih _ (hvalue ▸ hbefore) hle reached hnext (hlength ▸ hstate'') (by rw [hlength])
        refine ⟨later + 1, by omega, fun failure hfailure => ?_⟩
        have hpass := onePass_of_extended (grow.extended (Nat.le_succ_of_le hlater)) hpass
        obtain ⟨hseed, hcollect, happly⟩ := onePass_eq_ok_iff.1 hpass
        rw [passes_of_edits records hread hseed hcollect (htext ▸ happly) hne] at hfailure
        exact sound.mono grow hbad (Nat.le_succ later) (Nat.le_refl _) failure hfailure

theorem Conclude.exists_limit (conclude : Conclude before measure bad rules file source least)
    (grow : Grow lost rules) (hbad : ∀ failure, lost failure → bad failure)
    (wellFounded : WellFounded before) :
    ∃ limit, least ≤ limit ∧ ∀ failure, ((rules limit).run file limit source).outcome = .error failure →
    ¬ bad failure := by
  have reaches : (rules least).Reaches file source (rules least).initial [] source := .start
  obtain ⟨limit, hle, sound⟩ : ∃ limit, least ≤ limit ∧
      Sound file bad rules limit limit (rules least).initial [] source := by
    cases hread : Module.read source (elementsIn file) with
    | error fault =>
      exact ⟨least + 1, by omega,
        (conclude.sound_of_unreadable (Nat.le_refl _) reaches hread 0).mono grow hbad (by omega) (by omega)⟩
    | ok first =>
      obtain ⟨state, hseed⟩ := conclude.seeds least ⟨0, first⟩ (rules least).initial
      exact conclude.exists_sound grow hbad _ (wellFounded.apply _) (Nat.le_refl _) reaches hread hseed rfl
  refine ⟨limit, hle, ?_⟩
  rw [(grow.extended hle).initial] at sound
  exact sound

end

end Rule
end ClassWeave
