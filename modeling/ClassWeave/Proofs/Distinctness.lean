import ClassWeave.Proofs.Bounds
/-!
# One token for each place

The tokens of a composed map stand in order, and two of them share a place only where a range was
cut there several times. That takes two edits of one pass that neither remove nor write anything, at
the end of a line.
-/

namespace ClassWeave

theorem pairwise_of_forall₂ {α β : Type} {P : α → β → Prop} {R : α → α → Prop} {S : β → β → Prop}
    (step : ∀ a b a' b', P a b → P a' b' → R a a' → S b b') {as : List α}
    {bs : List β} (h : List.Forall₂ P as bs) (pairwise : as.Pairwise R) : bs.Pairwise S := by
  induction h with
  | nil => exact .nil
  | @cons a b as bs hab hrest ih =>
    obtain ⟨hfirst, hpairwise⟩ := List.pairwise_cons.1 pairwise
    apply List.Pairwise.cons
    · intro b' hb'
      obtain ⟨a', ha', hab'⟩ := exists_of_forall₂ hrest hb'
      exact step a b a' b' hab hab' (hfirst a' ha')
    · exact ih hpairwise

/-! ## Edits that do nothing -/

def Edit.Unrepeated (edits : List Edit) : Prop :=
  edits.Pairwise fun a b => a.isVoid → b.isVoid → a.span.start ≠ b.span.start

instance (edits : List Edit) : Decidable (Edit.Unrepeated edits) :=
  inferInstanceAs (Decidable (edits.Pairwise _))

def Run.isVoid (run : Run) : Prop := run.kind = .deleted ∧ run.start = run.stop

def Record.Unrepeated (record : Record) : Prop :=
  record.runs.Pairwise fun run later => run.isVoid → later.isVoid → run.start ≠ later.start

theorem Run.StandsFor.isVoid {text : Text} {edit : Edit} {run : Run}
    (h : run.StandsFor text edit) (void : run.isVoid) :
    edit.isVoid := by
  constructor
  · apply Text.positionAt?_inj h.start
    rw [void.2]
    exact h.stop
  · exact h.deleted.1 void.1

theorem Edit.unrepeated_of_applyAll {index : Nat} {text output : Text} {edits : List Edit} {record : Record}
    (happly : applyAll index text edits = .ok (output, record)) (h : Unrepeated edits) :
    record.Unrepeated := by
  have sorted : (inOrder edits).Pairwise fun a b => a.isVoid → b.isVoid → a.span.start ≠ b.span.start := by
    apply ((Sorting.sort_perm _ edits).pairwise_iff _).2 h
    intro a b hab hb ha hsame
    exact hab ha hb hsame.symm
  have edited : (record.runs.filter (·.kind ≠ .unedited)).Pairwise fun run later =>
      run.isVoid → later.isVoid → run.start ≠ later.start := by
    apply pairwise_of_forall₂ _ (forall₂_standsFor_of_applyAll happly) sorted
    intro a run b later hrun hlater hab void void' hsame
    apply hab (hrun.isVoid void) (hlater.isVoid void')
    apply Text.positionAt?_inj hrun.start
    rw [hsame]
    exact hlater.start
  rw [List.pairwise_filter] at edited
  apply edited.imp
  intro run later hpair void void'
  exact hpair (by simp [void.1]) (by simp [void'.1]) void void'

namespace SourceMap

/-! ## Carrying over -/

theorem pairwise_carry {R : MapToken → MapToken → Prop} {newer : Stretch}
    {older : List Stretch} (behind : Consecutive older)
    (reach : ∀ stretch ∈ older, newer.start < stretch.stop)
    (h : older.Pairwise fun a b => a.Meets newer → b.Meets newer →
      R (a.carriedBy newer) (b.carriedBy newer)) :
    (carry newer older).1.Pairwise R := by
  induction older with
  | nil => exact .nil
  | cons first rest ih =>
    obtain ⟨hfirst, hrest⟩ := List.pairwise_cons.1 h
    have reach' := fun stretch hstretch => reach stretch (List.mem_cons_of_mem _ hstretch)
    rw [carry]
    by_cases hstart : first.start < newer.stop
    · by_cases hstop : newer.stop ≤ first.stop
      · rw [if_pos hstart, if_pos hstop]
        exact List.pairwise_singleton _ _
      · rw [if_pos hstart, if_neg hstop]
        apply List.Pairwise.cons
        · intro token htoken
          obtain ⟨stretch, hstretch, hlt, rfl⟩ := (mem_carry behind.tail).1 htoken
          exact hfirst stretch hstretch ⟨hstart, reach first List.mem_cons_self⟩
            ⟨hlt, reach' stretch hstretch⟩
        · exact ih behind.tail reach' hrest
    · rw [if_neg hstart]
      exact .nil

theorem pairwise_carryAll {R : MapToken → MapToken → Prop} {newer older : List Stretch}
    (hnewer : Consecutive newer) (holder : Consecutive older)
    (same : ∀ by' ∈ newer, older.Pairwise fun a b =>
      a.Meets by' → b.Meets by' → R (a.carriedBy by') (b.carriedBy by'))
    (across : newer.Pairwise fun front back => ∀ a ∈ older, ∀ b ∈ older, a.Meets front → b.Meets back →
      R (a.carriedBy front) (b.carriedBy back)) : (carryAll older newer).Pairwise R := by
  induction newer generalizing older with
  | nil => simp [carryAll]
  | cons first rest ih =>
    obtain ⟨hfirst, hrest⟩ := List.pairwise_cons.1 across
    have hdrop := List.dropWhile_suffix (l := older) (fun other => decide (other.stop ≤ first.start))
    have hleft :=
      (carry_suffix first (older.dropWhile fun other => decide (other.stop ≤ first.start))).trans hdrop
    have dropped := holder.of_suffix hdrop
    have left := holder.of_suffix hleft
    rw [carryAll]
    apply List.pairwise_append.2 ⟨_, _, _⟩
    · apply pairwise_carry dropped
      · intro stretch hstretch
        exact ((holder.mem_dropWhile _).1 hstretch).2
      · exact (same first List.mem_cons_self).sublist hdrop.sublist
    · apply ih hnewer.tail left
      · intro by' hby
        exact (same by' (List.mem_cons_of_mem _ hby)).sublist hleft.sublist
      · apply hrest.imp
        intro front back h a ha b hb
        exact h a (hleft.subset ha) b (hleft.subset hb)
    · intro token htoken other hother
      obtain ⟨a, ha, hlt, rfl⟩ := (mem_carry dropped).1 htoken
      obtain ⟨by', hby, b, hb, hmeets, rfl⟩ := (mem_carryAll hnewer.tail left).1 hother
      obtain ⟨hmem, hreach⟩ := (holder.mem_dropWhile _).1 ha
      exact hfirst by' hby a hmem b (hleft.subset hb) ⟨hlt, hreach⟩ hmeets

/-! ## The stretches of a list of tokens -/

theorem map_token_stretches (place : MapToken → Position) : ∀ tokens : List MapToken,
    (stretches place tokens).map Stretch.token = tokens
  | [] => rfl
  | [_] => rfl
  | token :: next :: rest => by
    have ih := map_token_stretches place (next :: rest)
    rw [stretches, List.map_cons, ih]

theorem start_of_mem_stretches {place : MapToken → Position} {tokens : List MapToken}
    (sorted : tokens.Pairwise (place · ≤ place ·)) {stretch : Stretch}
    (h : stretch ∈ stretches place tokens) :
    stretch.start = place stretch.token := by
  obtain ⟨_, _, -, hstart, -⟩ := exists_split_of_mem_stretches sorted h
  exact hstart

theorem pairwise_stretches {R : MapToken → MapToken → Prop} {place : MapToken → Position}
    {tokens : List MapToken} (h : tokens.Pairwise R) :
    (stretches place tokens).Pairwise fun a b => R a.token b.token := by
  rw [← List.pairwise_map, map_token_stretches]
  exact h

/-! ## Aligned tokens -/

section
variable {record : Record} {at' : Progress} {tokens : List MapToken}

/-- A token in front of another one, or at its place if a run that wrote something starts there. -/
def Stacked (record : Record) (token other : MapToken) : Prop :=
  token.generated < other.generated ∨
    token.generated = other.generated ∧ ∃ newer ∈ record.tokens, newer.source = token.generated

theorem Stacked.le {token other : MapToken} (h : Stacked record token other) :
    token.generated ≤ other.generated := by
  rcases h with hlt | ⟨heq, -⟩
  · exact le_of_lt hlt
  · exact le_of_eq heq

theorem pairwise_settle (R : MapToken → MapToken → Prop) (record : Record) (token : MapToken) :
    (settle record token).Pairwise R := by
  unfold settle
  split
  · exact List.pairwise_singleton _ _
  · split
    · exact List.pairwise_singleton _ _
    · split
      · exact List.pairwise_singleton _ _
      · exact .nil
    · exact .nil

/-- Where two runs start at one place, one of them wrote something, or no token is left there. -/
theorem exists_source_of_starts (tiled : Tiled at' record.runs) {run later : Run} (hrun : run ∈ record.runs)
    (hlater : later ∈ record.runs) (precedes : run.Precedes record.runs later)
    (hsame : run.start = later.start) (apart : run.isVoid → later.isVoid → run.start ≠ later.start)
    {token part : MapToken} (hpart : part.generated = run.start) (h : token ∈ settle record part) :
    ∃ newer ∈ record.tokens, newer.source = run.start := by
  have written : ∀ other ∈ record.runs, other.kind ≠ .deleted → other.start = run.start →
      ∃ newer ∈ record.tokens, newer.source = run.start := by
    intro other hother hkind hstart
    refine ⟨other.token, ?_, hstart⟩
    rw [Record.tokens_eq tiled]
    exact List.mem_map_of_mem (Record.mem_writing.2 ⟨hother, hkind⟩)
  by_cases hkind : run.kind = .deleted
  · by_cases hkind' : later.kind = .deleted
    · -- Nothing is between the starts, so the first run takes nothing. The second one then takes what
      -- stands there.
      have hempty : run.start = run.stop := by
        apply le_antisymm (tiled.wellformed run hrun).start_le
        rw [hsame]
        exact precedes.stop_le
      have hnot : ¬ later.isVoid := fun void => apart ⟨hkind, hempty⟩ void hsame
      have hforward : later.start < later.stop :=
        lt_of_le_of_ne (tiled.wellformed later hlater).start_le fun heq => hnot ⟨hkind', heq⟩
      have hfound := Record.runAt_eq_some tiled hlater (le_refl _) hforward
      obtain ⟨hplace, settled⟩ := settled_of_mem_settle h
      rw [← hsame, ← hpart, ← hplace] at hfound
      rcases settled later hfound with hkind'' | ⟨hkind'', -⟩
      · simp [hkind'] at hkind''
      · simp [hkind'] at hkind''
    · exact written later hlater hkind' hsame.symm
  · exact written run hrun hkind rfl

theorem pairwise_split (tiled : Tiled at' record.runs) (unrepeated : record.Unrepeated) (older : MapToken)
    (next : Option MapToken) :
    ((split record older next).flatMap (settle record)).Pairwise (Stacked record) := by
  apply List.pairwise_flatMap.2 ⟨fun part _ => pairwise_settle _ record part, ?_⟩
  unfold split
  split
  · apply List.Pairwise.cons
    · intro part hpart token htoken other hother
      obtain ⟨start, hstart, rfl⟩ := List.mem_map.1 hpart
      have hinside := (List.mem_filter.1 hstart).2
      rw [Bool.and_eq_true, decide_eq_true_eq] at hinside
      apply Or.inl
      rw [(settled_of_mem_settle htoken).1, (settled_of_mem_settle hother).1]
      exact hinside.1
    · apply List.pairwise_map.2
      apply List.Pairwise.filter
      apply List.pairwise_map.2
      apply (tiled.pairwise.and unrepeated).imp_of_mem
      intro run later hrun hlater hpair token htoken other hother
      obtain ⟨precedes, apart⟩ := hpair
      have hplace := (settled_of_mem_settle htoken).1
      have hplace' := (settled_of_mem_settle hother).1
      rcases lt_or_eq_of_le (le_trans (tiled.wellformed run hrun).start_le precedes.stop_le) with hlt | hsame
      · apply Or.inl
        rw [hplace, hplace']
        exact hlt
      · apply Or.inr
        refine ⟨by rw [hplace, hplace']; exact hsame, ?_⟩
        rw [hplace]
        exact exists_source_of_starts tiled hrun hlater precedes hsame apart rfl htoken
  · exact List.pairwise_singleton _ _

theorem pairwise_alignAll (tiled : Tiled at' record.runs) (unrepeated : record.Unrepeated)
    (strict : tokens.Pairwise (·.generated < ·.generated)) :
    (alignAll record tokens).Pairwise (Stacked record) := by
  induction tokens with
  | nil => exact .nil
  | cons first rest ih =>
    obtain ⟨-, hrest⟩ := List.pairwise_cons.1 strict
    rw [alignAll]
    apply List.pairwise_append.2 ⟨pairwise_split tiled unrepeated first rest.head?, ih hrest, ?_⟩
    intro token htoken other hother
    obtain ⟨part, hpart, hsettle⟩ := List.mem_flatMap.1 htoken
    obtain ⟨front, older, back, htokens, part', hpart', hsettle'⟩ := mem_alignAll.1 hother
    have hmem : older ∈ rest := by simp [htokens]
    have hsplit : first :: rest = [] ++ first :: rest := rfl
    have hlt := part_lt (strict.imp le_of_lt) hsplit (List.mem_cons_of_mem _ hmem)
      ((List.pairwise_cons.1 strict).1 older hmem) hpart
    apply Or.inl
    rw [(settled_of_mem_settle hsettle).1, (settled_of_mem_settle hsettle').1]
    exact lt_of_lt_of_le hlt (le_of_mem_split hpart')

theorem inOrder_of_pairwise (sorted : tokens.Pairwise (·.generated ≤ ·.generated)) :
    inOrder tokens = tokens :=
  Sorting.sort_eq_self (sorted.imp fun h => decide_eq_true h)

theorem pairwise_align (tiled : Tiled at' record.runs) (unrepeated : record.Unrepeated)
    (strict : tokens.Pairwise (·.generated < ·.generated)) :
    (align tokens record).Pairwise (Stacked record) := by
  have stacked := pairwise_alignAll tiled unrepeated strict
  rw [align, inOrder_of_pairwise (stacked.imp Stacked.le)]
  exact stacked

/-! ## Strictly ordered tokens -/

theorem strict_tokens (tiled : Tiled at' record.runs) :
    record.tokens.Pairwise (·.generated < ·.generated) := by
  rw [Record.tokens_eq tiled]
  apply List.pairwise_map.2
  exact (Record.writing_pairwise tiled).imp fun h => h.2

theorem carriedBy_lt_of_stacked (tiled : Tiled at' record.runs) {newer a b : Stretch}
    (hnewer : newer ∈ stretches (·.source) record.tokens) (stacked : Stacked record a.token b.token)
    (ha : a.start = a.token.generated) (hb : b.start = b.token.generated) (hstop : a.stop ≤ b.start)
    (meets : a.Meets newer) (meets' : b.Meets newer) :
    (a.carriedBy newer).generated < (b.carriedBy newer).generated := by
  obtain ⟨run, hrun, hkind, htoken, hstart, -, hline, -⟩ := Record.exists_run_of_mem_stretches tiled hnewer
  obtain ⟨place, hplace, line, column, hlands⟩ := generated_carriedBy meets htoken hstart hline
  obtain ⟨place', hplace', line', -, hlands'⟩ := generated_carriedBy meets' htoken hstart hline
  have behind : newer.start < b.start := lt_of_lt_of_le meets.2 hstop
  rcases stacked with hlt | ⟨hsame, other, hother, hsource⟩
  · rw [hlands, hlands']
    apply Run.landing_lt (by rw [line, line']) column
    rw [hplace, hplace', max_eq_left (le_of_lt behind)]
    apply max_lt _ behind
    rw [ha, hb]
    exact hlt
  · -- A newer stretch starts at the place, so this one does not hold it inside.
    exfalso
    have consecutive := consecutive_stretches (Record.sources_pairwise tiled)
    obtain ⟨front, back, hsplit⟩ := List.append_of_mem hother
    obtain ⟨there, hthere, -, hplaceThere, -⟩ := exists_stretch (·.source) other back front
    rw [← hsplit] at hthere
    have hat : there.start = b.start := by rw [hplaceThere, hsource, hsame, hb]
    have apart : newer = there ∨ newer.stop ≤ there.start ∨ there.stop ≤ newer.start := by
      obtain ⟨before, after, hall⟩ := List.append_of_mem hnewer
      rcases eq_or_before_or_behind (hall ▸ consecutive.pairwise) (hall ▸ hthere) with
          rfl | hbefore | ⟨-, hafter⟩
      · exact .inl rfl
      · exact .inr (.inr hbefore)
      · exact .inr (.inl hafter)
    rcases apart with rfl | hle | hle
    · exact absurd behind (by rw [hat]; exact lt_irrefl _)
    · exact absurd meets'.1 (not_lt.2 (hat ▸ hle))
    · exact absurd behind (not_lt.2 (hat ▸ le_trans (consecutive.forward there hthere) hle))

theorem strict_adjust (tiled : Tiled at' record.runs) (settled : ∀ token ∈ tokens, Settled record token)
    (stacked : tokens.Pairwise (Stacked record)) :
    (adjust tokens record.tokens).Pairwise (·.generated < ·.generated) := by
  have sorted := stacked.imp Stacked.le
  have hnewer := consecutive_stretches (Record.sources_pairwise tiled)
  have holder : Consecutive (stretches (·.generated) tokens) := consecutive_stretches sorted
  have strict : (carryAll (stretches (·.generated) tokens) (stretches (·.source) record.tokens)).Pairwise
      (·.generated < ·.generated) := by
    apply pairwise_carryAll hnewer holder
    · intro newer hmem
      apply ((pairwise_stretches stacked).and holder.pairwise).imp_of_mem
      intro a b ha hb hpair meets meets'
      exact carriedBy_lt_of_stacked tiled hmem hpair.1 (start_of_mem_stretches sorted ha)
        (start_of_mem_stretches sorted hb) hpair.2 meets meets'
    · apply (pairwise_stretches (strict_tokens tiled)).imp_of_mem
      intro front back hfront hback hlt a ha b hb meets meets'
      obtain ⟨run, hrun, hkind, htoken, hstart, -, hline, hbefore⟩ :=
        Record.exists_run_of_mem_stretches tiled hfront
      obtain ⟨later, hlater, hkind', htoken', hstart', -, hline', -⟩ :=
        Record.exists_run_of_mem_stretches tiled hback
      obtain ⟨place, -, -, -, hlands⟩ := generated_carriedBy meets' htoken' hstart' hline'
      have hgenerated : run.generated < later.generated := by
        rw [htoken, htoken'] at hlt
        exact hlt
      have precedes : run.Precedes record.runs later := by
        rcases tiled.trichotomy hrun hlater with rfl | hprecedes | hprecedes
        · exact absurd hgenerated (lt_irrefl _)
        · exact hprecedes
        · exact absurd hgenerated (lt_asymm (hprecedes.generated_lt hkind'))
      rw [hlands]
      apply lt_of_lt_of_le _ (later.generated_le_landing place)
      have hmem : a.token ∈ tokens := by
        rw [← map_token_stretches (·.generated) tokens]
        exact List.mem_map_of_mem ha
      exact carriedBy_lt tiled hrun hkind hlater hkind' precedes
        meets (settled _ hmem) (start_of_mem_stretches sorted ha) htoken
        hstart hline hbefore
  rw [adjust, Record.sort_tokens tiled, inOrder_of_pairwise (strict.imp le_of_lt)]
  exact strict

theorem strict_extend (tiled : Tiled at' record.runs) (unrepeated : record.Unrepeated)
    (strict : tokens.Pairwise (·.generated < ·.generated)) :
    (extend tokens record).Pairwise (·.generated < ·.generated) :=
  strict_adjust tiled (fun _ => settled_of_mem_align) (pairwise_align tiled unrepeated strict)

end

/-! ## Passes in a row -/

section
variable {text final : Text} {passes : List (List Edit)} {records : List Record}

theorem strict_composeTokens (happly : Edit.applyPasses 0 text passes = .ok (final, records))
    (unrepeated : ∀ edits ∈ passes.tail, Edit.Unrepeated edits) :
    (composeTokens records).Pairwise (·.generated < ·.generated) := by
  induction passes using List.reverseRecOn generalizing final records with
  | nil =>
    obtain rfl := List.length_eq_zero_iff.1 (Edit.length_of_applyPasses happly)
    exact .nil
  | append_singleton passes last ih =>
    obtain ⟨input, older, record, hpasses, hlast, rfl, hcases⟩ := composeTokens_cases happly
    have tiled := Edit.tiled_applyAll hlast
    rcases hcases with ⟨rfl, rfl, htokens⟩ | ⟨hne, -, htokens⟩
    · rw [htokens]
      exact strict_tokens tiled
    · rw [List.tail_append_of_ne_nil hne] at unrepeated
      rw [htokens]
      apply strict_extend tiled
      · exact Edit.unrepeated_of_applyAll hlast (unrepeated last (by simp))
      · exact ih hpasses fun edits hedits => unrepeated edits (List.mem_append_left _ hedits)

/-- The tokens of a composed map stand in order, and what is found for a position is the only one
there. No two of them stand at one place, unless a pass behind the first repeats an edit that does
nothing. -/
theorem compose_strictlyOrdered (happly : Edit.applyPasses 0 text passes = .ok (final, records))
    (file : Option String) :
    (compose records file).tokens.Pairwise (·.generated ≤ ·.generated) ∧
    (∀ position token, tokenAt (compose records file).tokens position = some token →
      ∀ other ∈ (compose records file).tokens, token.generated ≤ other.generated →
      other.generated ≤ position →
        other = token) ∧
    ((∀ edits ∈ passes.tail, Edit.Unrepeated edits) →
      (compose records file).tokens.Pairwise (·.generated < ·.generated)) := by
  have ordered := ordered_composeTokens happly
  refine ⟨ordered.sorted, ?_, strict_composeTokens happly⟩
  intro position token hfound other hother hle hposition
  obtain ⟨hmem, -, latest⟩ := latest_of_tokenAt ordered.sorted hfound
  exact ordered.unambiguous other hother token hmem (le_antisymm (latest other hother hposition) hle)

/-- Three passes with edits at one place: two texts in front of `ab`, then a text and an edit that
does nothing between them and two texts at the end of the line. -/
theorem compose_strictlyOrdered_insertions :
    let passes : List (List Edit) := [[⟨⟨0, 0⟩, some ['x']⟩, ⟨⟨0, 0⟩, some ['y']⟩],
      [⟨⟨1, 1⟩, none⟩, ⟨⟨1, 1⟩, some ['z']⟩, ⟨⟨4, 4⟩, some ['q']⟩, ⟨⟨4, 4⟩, some ['r']⟩],
      [⟨⟨0, 1⟩, some ['w']⟩]]
    ∃ records, Edit.applyPasses 0 "ab\ncd".toList passes = .ok ("wzyabqr\ncd".toList, records) ∧
      (∀ edits ∈ passes.tail, Edit.Unrepeated edits) ∧
      (compose records none).tokens.Pairwise (·.generated < ·.generated) := by
  intro passes
  have happly : ∃ records, Edit.applyPasses 0 "ab\ncd".toList passes =
    .ok ("wzyabqr\ncd".toList, records) := ⟨_, rfl⟩
  obtain ⟨records, happly⟩ := happly
  have unrepeated : ∀ edits ∈ passes.tail, Edit.Unrepeated edits := by decide
  exact ⟨records, happly, unrepeated, (compose_strictlyOrdered happly none).2.2 unrepeated⟩

/-- Two edits that do nothing at the end of `abc`: the range of the first pass is cut there twice. -/
example : ∃ records, Edit.applyPasses 0 "abc".toList [[], [⟨⟨3, 3⟩, none⟩, ⟨⟨3, 3⟩, none⟩]] =
    .ok ("abc".toList, records) ∧
    (compose records none).tokens =
      [⟨⟨0, 0⟩, ⟨0, 0⟩, true⟩, ⟨⟨0, 3⟩, ⟨0, 3⟩, true⟩, ⟨⟨0, 3⟩, ⟨0, 3⟩, true⟩] :=
  ⟨_, rfl, by decide⟩

end

end SourceMap
end ClassWeave
