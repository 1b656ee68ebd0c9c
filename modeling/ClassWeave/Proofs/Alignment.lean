import ClassWeave.Proofs.Copying
import ClassWeave.Proofs.Stretching
/-!
# Tracked positions and aligned maps

A map tracks a position if the last token at or in front of it is a range token of its line, and the
range leads to the right place of the source. Such a position is looked up correctly, and aligning the
map with the record of the next pass keeps it tracked by a token inside the run that copies it.
-/

namespace ClassWeave

structure MapToken.Leads (token : MapToken) (position source : Position) : Prop where
  isRange : token.isRange = true
  le : token.generated ≤ position
  line : token.generated.line = position.line
  source_eq : source = ⟨token.source.line, token.source.column + (position.column - token.generated.column)⟩

def MapToken.startingAt (token : MapToken) (position : Position) : MapToken :=
  { token with
    generated := position
    source := ⟨token.source.line, token.source.column + (position.column - token.generated.column)⟩ }

theorem MapToken.startingAt_self (token : MapToken) : token.startingAt token.generated = token := by
  simp [MapToken.startingAt]

theorem MapToken.Leads.startingAt {token : MapToken} {position source start : Position}
    (leads : token.Leads position source) (hle : token.generated ≤ start) (hstart : start ≤ position)
    (line : start.line = position.line) : (token.startingAt start).Leads position source := by
  refine ⟨leads.isRange, hstart, line, ?_⟩
  rw [leads.source_eq, MapToken.startingAt]
  have htoken := leads.line
  rw [Position.le_iff] at hle hstart
  simp only [Position.mk.injEq, true_and]
  omega

namespace SourceMap

/-- The last tokens at or in front of a position lead to a source position. -/
def Tracks (tokens : List MapToken) (position source : Position) : Prop :=
  ∃ token ∈ tokens, token.Leads position source ∧ ∀ other ∈ tokens, other.generated ≤ position →
    other.generated ≤ token.generated ∧ (other.generated = token.generated → other.Leads position source)

section
variable {tokens : List MapToken} {position source : Position}

theorem exists_last_le : ∀ {tokens : List MapToken}, tokens.Pairwise (·.generated ≤ ·.generated) →
    (∃ token ∈ tokens, token.generated ≤ position) →
    ∃ front token back, tokens = front ++ token :: back ∧ token.generated ≤ position ∧
      ∀ other ∈ back, position < other.generated
  | [], _, ⟨_, hmem, _⟩ => by cases hmem
  | first :: rest, sorted, hsome => by
    have inOrder := List.pairwise_cons.1 sorted
    by_cases hrest : ∃ token ∈ rest, token.generated ≤ position
    · obtain ⟨front, token, back, rfl, hle, hback⟩ := exists_last_le inOrder.2 hrest
      exact ⟨first :: front, token, back, rfl, hle, hback⟩
    · refine ⟨[], first, rest, rfl, ?_, fun other hother => not_le.1 fun hle => hrest ⟨other, hother, hle⟩⟩
      obtain ⟨token, hmem, hle⟩ := hsome
      rcases List.mem_cons.1 hmem with rfl | hmem
      · exact hle
      · exact absurd ⟨token, hmem, hle⟩ hrest

theorem le_or_mem_back {front back : List MapToken} {token other : MapToken}
    (sorted : (front ++ token :: back).Pairwise (·.generated ≤ ·.generated))
    (h : other ∈ front ++ token :: back) :
    other.generated ≤ token.generated ∨ other ∈ back := by
  rcases eq_or_before_or_behind sorted h with rfl | hle | ⟨hback, -⟩
  · exact .inl (le_refl _)
  · exact .inl hle
  · exact .inr hback

theorem Tracks.exists_last (sorted : tokens.Pairwise (·.generated ≤ ·.generated))
    (h : Tracks tokens position source) :
    ∃ front token back, tokens = front ++ token :: back ∧ token.Leads position source ∧
      (∀ other ∈ back, position < other.generated) ∧
      ∀ other ∈ tokens, other.generated ≤ position → other.generated ≤ token.generated ∧
        (other.generated = token.generated → other.Leads position source) := by
  obtain ⟨lead, hlead, leads, latest⟩ := h
  obtain ⟨front, token, back, htokens, hle, hback⟩ := exists_last_le sorted ⟨lead, hlead, leads.le⟩
  have htoken : token ∈ tokens := by rw [htokens]; simp
  have hsame : token.generated = lead.generated := by
    refine le_antisymm (latest token htoken hle).1 ?_
    rw [htokens] at hlead sorted
    exact (le_or_mem_back sorted hlead).resolve_right fun hbehind => not_le.2 (hback lead hbehind) leads.le
  refine ⟨front, token, back, htokens, (latest token htoken hle).2 hsame, hback, ?_⟩
  rw [hsame]
  exact latest

/-- A position that is tracked is looked up correctly. -/
theorem Tracks.sourcePosition (sorted : tokens.Pairwise (·.generated ≤ ·.generated))
    (h : Tracks tokens position source) (file : Option String) :
    (SourceMap.mk file tokens).sourcePosition position = some source := by
  obtain ⟨front, token, back, rfl, leads, hback, latest⟩ := h.exists_last sorted
  have split := List.pairwise_append.1 sorted
  have upTo : (front ++ token :: back).takeWhile (fun other => decide (other.generated ≤ position)) =
      front ++ [token] := by
    have reached : ∀ other ∈ front, decide (other.generated ≤ position) = true := fun other hother =>
      decide_eq_true (le_trans (split.2.2 other hother token List.mem_cons_self) leads.le)
    rw [List.takeWhile_append_of_pos reached, List.takeWhile_cons, if_pos (decide_eq_true leads.le)]
    cases back with
    | nil => rfl
    | cons next back =>
      rw [List.takeWhile_cons, if_neg (by simpa using hback next List.mem_cons_self)]
  have answer : ∃ answering, tokenAt (front ++ token :: back) position = some answering ∧
      answering.Leads position source := by
    rw [tokenAt, upTo]
    cases hfind : (front ++ [token]).find? (fun other => other.generated == position) with
    | none => exact ⟨token, by simp, leads⟩
    | some exactly =>
      have hposition : exactly.generated = position := by simpa using List.find?_some hfind
      have hmem : exactly ∈ front ++ token :: back := by
        have := List.mem_of_find?_eq_some hfind
        rw [List.mem_append, List.mem_singleton] at this
        rw [List.mem_append, List.mem_cons]
        exact this.imp_right Or.inl
      refine ⟨exactly, rfl, (latest exactly hmem (le_of_eq hposition)).2 ?_⟩
      exact le_antisymm (latest exactly hmem (le_of_eq hposition)).1 (hposition ▸ leads.le)
  obtain ⟨answering, hanswer, hleads⟩ := answer
  rw [SourceMap.sourcePosition, hanswer]
  simp only [hleads.line, if_true, hleads.isRange, hleads.source_eq]

end

/-! ## Aligning -/

section
variable {record : Record}

/-- A token outside edited text, or at the start of a replacement. -/
def Settled (record : Record) (token : MapToken) : Prop :=
  ∀ run, record.runAt token.generated = some run →
    run.kind = .unedited ∨ (run.kind = .replaced ∧ run.start = token.generated)

theorem settle_of_unedited {token : MapToken} {run : Run} (hrun : record.runAt token.generated = some run)
    (hkind : run.kind = .unedited) : settle record token = [token] := by
  simp only [settle, hrun, hkind]

theorem settled_of_mem_settle {token older : MapToken} (h : token ∈ settle record older) :
    token.generated = older.generated ∧ Settled record token := by
  unfold settle at h
  cases hrun : record.runAt older.generated with
  | none =>
    simp only [hrun, List.mem_singleton] at h
    subst h
    exact ⟨rfl, fun run hsome => by rw [hrun] at hsome; cases hsome⟩
  | some run =>
    simp only [hrun] at h
    cases hkind : run.kind with
    | unedited =>
      simp only [hkind, List.mem_singleton] at h
      subst h
      refine ⟨rfl, fun other hsome => ?_⟩
      rw [hrun] at hsome
      cases hsome
      exact .inl hkind
    | replaced =>
      simp only [hkind] at h
      split at h
      · rename_i hstart
        rw [List.mem_singleton] at h
        subst h
        refine ⟨rfl, fun other hsome => ?_⟩
        rw [hrun] at hsome
        cases hsome
        exact .inr ⟨hkind, hstart⟩
      · cases h
    | deleted =>
      simp only [hkind] at h
      cases h

theorem mem_split {token older : MapToken} {next : Option MapToken} :
    token ∈ split record older next ↔ token = older ∨ (older.isRange = true ∧ ∃ run ∈ record.runs,
      older.generated < run.start ∧ run.start < rangeEnd older next ∧
      token = older.startingAt run.start) := by
  unfold split
  by_cases hrange : older.isRange = true
  · rw [if_pos hrange]
    simp only [List.mem_cons, List.mem_map, List.mem_filter, Bool.and_eq_true, decide_eq_true_eq]
    refine or_congr_right ⟨?_, ?_⟩
    · rintro ⟨start, ⟨⟨run, hrun, rfl⟩, hlt, hend⟩, rfl⟩
      exact ⟨hrange, run, hrun, hlt, hend, rfl⟩
    · rintro ⟨-, run, hrun, hlt, hend, rfl⟩
      exact ⟨run.start, ⟨⟨run, hrun, rfl⟩, hlt, hend⟩, rfl⟩
  · rw [if_neg hrange]
    simp [hrange]

theorem mem_alignAll {token : MapToken} : ∀ {tokens : List MapToken}, token ∈ alignAll record tokens ↔
    ∃ front older back, tokens = front ++ older :: back ∧
      ∃ part ∈ split record older back.head?, token ∈ settle record part
  | [] => by simp [alignAll]
  | first :: rest => by
    rw [alignAll, List.mem_append, List.mem_flatMap, mem_alignAll]
    constructor
    · rintro (h | ⟨front, older, back, rfl, h⟩)
      · exact ⟨[], first, rest, rfl, h⟩
      · exact ⟨first :: front, older, back, rfl, h⟩
    · rintro ⟨front, older, back, htokens, h⟩
      cases front with
      | nil =>
        obtain ⟨rfl, rfl⟩ := List.cons.inj htokens
        exact .inl h
      | cons _ front =>
        obtain ⟨rfl, rfl⟩ := List.cons.inj htokens
        exact .inr ⟨front, older, back, rfl, h⟩

theorem settled_of_mem_align {tokens : List MapToken} {token : MapToken} (h : token ∈ align tokens record) :
    Settled record token := by
  obtain ⟨_, _, _, -, _, -, hsettle⟩ := mem_alignAll.1 (mem_inOrder.1 h)
  exact (settled_of_mem_settle hsettle).2

theorem rangeEnd_le {older : MapToken} : ∀ {back : List MapToken},
    (older :: back).Pairwise (·.generated ≤ ·.generated) → ∀ other ∈ back,
      rangeEnd older back.head? ≤ other.generated
  | next :: rest, sorted, other, hother => by
    have inOrder := List.pairwise_cons.1 sorted
    have hnext : next.generated ≤ other.generated := by
      rcases List.mem_cons.1 hother with rfl | hother
      · exact le_refl _
      · exact (List.pairwise_cons.1 inOrder.2).1 other hother
    refine le_trans ?_ hnext
    have holder := inOrder.1 next List.mem_cons_self
    simp only [List.head?_cons, rangeEnd]
    split
    · exact le_refl _
    · rw [Position.le_iff] at holder ⊢
      simp only [Position.nextLine]
      omega

theorem lt_rangeEnd {older : MapToken} {position : Position} (line : older.generated.line = position.line) :
    ∀ {back : List MapToken}, (∀ other ∈ back, position < other.generated) →
      position < rangeEnd older back.head?
  | [], _ => Position.lt_nextLine_iff.2 (Nat.le_of_eq line.symm)
  | next :: rest, hback => by
    simp only [List.head?_cons, rangeEnd]
    split
    · exact hback next List.mem_cons_self
    · exact Position.lt_nextLine_iff.2 (Nat.le_of_eq line.symm)

end

section
variable {record : Record} {at' : Progress} {tokens : List MapToken} {position output source : Position}
  {run : Run}

/-- Aligning keeps a position tracked, by a token inside the run that copies it. -/
theorem Tracks.align (tiled : Tiled at' record.runs) (sorted : tokens.Pairwise (·.generated ≤ ·.generated))
    (h : Tracks tokens position source) (hrun : run ∈ record.runs) (copies : run.Copies position output) :
    Tracks (align tokens record) position source ∧
      ∃ token ∈ align tokens record, run.start ≤ token.generated ∧ token.generated ≤ position := by
  obtain ⟨front, token, back, htokens, leads, hback, latest⟩ := h.exists_last sorted
  have htoken : token ∈ tokens := by rw [htokens]; simp
  -- The token that answers from now on stands where the run starts, or where the old one does.
  have hle : max token.generated run.start ≤ position := max_le leads.le copies.start_le
  have line : (max token.generated run.start).line = position.line := by
    rcases le_total run.start token.generated with hmax | hmax
    · rw [max_eq_left hmax, leads.line]
    · rw [max_eq_right hmax, copies.line]
  have covered : record.runAt (max token.generated run.start) = some run :=
    Record.runAt_eq_some tiled hrun (le_max_right _ _) (lt_of_le_of_lt hle copies.lt_stop)
  have hmem : token.startingAt (max token.generated run.start) ∈ SourceMap.align tokens record := by
    refine mem_inOrder.2 (mem_alignAll.2 ⟨front, token, back, htokens,
      token.startingAt (max token.generated run.start), mem_split.2 ?_, ?_⟩)
    · rcases le_or_gt run.start token.generated with hstart | hstart
      · rw [max_eq_left hstart, MapToken.startingAt_self]
        exact .inl rfl
      · refine .inr ⟨leads.isRange, run, hrun, hstart, ?_, by rw [max_eq_right (le_of_lt hstart)]⟩
        exact lt_of_le_of_lt copies.start_le (lt_rangeEnd leads.line hback)
    · rw [settle_of_unedited covered copies.kind]
      exact List.mem_singleton_self _
  refine ⟨⟨_, hmem, leads.startingAt (le_max_left _ _) hle line, ?_⟩, _, hmem, le_max_right _ _, hle⟩
  intro other hother hposition
  obtain ⟨front', older, back', htokens', part, hpart, hsettle⟩ := mem_alignAll.1 (mem_inOrder.1 hother)
  have hsame := (settled_of_mem_settle hsettle).1
  rw [hsame] at hposition
  have holder : older ∈ tokens := by rw [htokens']; simp
  change other.generated ≤ max token.generated run.start ∧
    (other.generated = max token.generated run.start → other.Leads position source)
  rw [hsame]
  rcases mem_split.1 hpart with rfl | ⟨hrange, run', hrun', hlt, hend, rfl⟩
  · obtain ⟨hbefore, htie⟩ := latest part holder hposition
    refine ⟨le_trans hbefore (le_max_left _ _), fun heq => ?_⟩
    rw [← heq] at covered
    rw [settle_of_unedited covered copies.kind, List.mem_singleton] at hsettle
    rw [hsettle]
    exact htie (le_antisymm hbefore (heq ▸ le_max_left _ _))
  · have hstart' : (older.startingAt run'.start).generated = run'.start := rfl
    rw [hstart'] at hposition ⊢
    obtain ⟨hbefore, htie⟩ := latest older holder (le_trans (le_of_lt hlt) hposition)
    have hfirst : run'.start ≤ run.start := by
      rcases tiled.trichotomy hrun' hrun with rfl | hprecedes | hprecedes
      · exact le_refl _
      · exact le_trans (tiled.wellformed run' hrun').start_le hprecedes.stop_le
      · exact absurd (lt_of_le_of_lt hposition copies.lt_stop) (not_lt.2 hprecedes.stop_le)
    refine ⟨le_trans hfirst (le_max_right _ _), fun heq => ?_⟩
    rw [← heq] at covered line
    rw [settle_of_unedited covered copies.kind, List.mem_singleton] at hsettle
    rw [hsettle]
    -- A token whose range reaches the run is one of those that answered before.
    refine (htie (le_antisymm hbefore (not_lt.1 fun hearlier => ?_))).startingAt (le_of_lt hlt) hposition line
    rw [htokens'] at sorted htoken
    have hbehind : token ∈ back' := (le_or_mem_back sorted htoken).resolve_left (not_le.2 hearlier)
    have := rangeEnd_le (List.pairwise_append.1 sorted).2.1 token hbehind
    exact absurd (lt_of_lt_of_le hend this) (not_lt.2 (heq ▸ le_max_left _ _))

end

end SourceMap
end ClassWeave
