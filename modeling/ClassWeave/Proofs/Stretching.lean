import ClassWeave.Proofs.Order
import ClassWeave.SourceMap.Compose
/-!
# Carrying tokens over

Tokens in order cut the text into stretches that lie one behind the other. Each older stretch is carried
by exactly those newer ones that it meets, so what `adjust` leaves can be read off pair by pair.
-/

namespace ClassWeave

theorem Position.lt_nextLine_iff {p q : Position} : p < q.nextLine ↔ p.line ≤ q.line := by
  rw [Position.lt_iff]
  simp only [nextLine]
  omega

namespace SourceMap

theorem later_eq_max (p q : Position) : later p q = max p q := (max_def p q).symm

/-- A stretch meets another if they share a place, or if an empty one lies inside the other. -/
def Stretch.Meets (older newer : Stretch) : Prop := older.start < newer.stop ∧ newer.start < older.stop

/-- The token of an older stretch as a newer one carries it. -/
def Stretch.carriedBy (older newer : Stretch) : MapToken :=
  { older.token with generated := moved newer.token (later older.start newer.start) }

structure Consecutive (stretches : List Stretch) : Prop where
  pairwise : stretches.Pairwise (·.stop ≤ ·.start)
  forward : ∀ stretch ∈ stretches, stretch.start ≤ stretch.stop

namespace Consecutive

variable {stretch : Stretch} {stretches : List Stretch}

theorem tail (h : Consecutive (stretch :: stretches)) : Consecutive stretches :=
  ⟨(List.pairwise_cons.1 h.pairwise).2, fun other hother => h.forward other (List.mem_cons_of_mem _ hother)⟩

theorem head_le (h : Consecutive (stretch :: stretches)) {other : Stretch} (hother : other ∈ stretches) :
    stretch.stop ≤ other.start := (List.pairwise_cons.1 h.pairwise).1 other hother

theorem of_suffix {part : List Stretch} (h : Consecutive stretches) (hpart : part <:+ stretches) :
    Consecutive part :=
  ⟨h.pairwise.sublist hpart.sublist, fun other hother => h.forward other (hpart.subset hother)⟩

theorem mem_dropWhile (position : Position) : ∀ {stretches : List Stretch}, Consecutive stretches →
    ∀ {other : Stretch}, other ∈ stretches.dropWhile (·.stop ≤ position) ↔
      other ∈ stretches ∧ position < other.stop
  | [], _, other => by simp
  | first :: rest, h, other => by
    rw [List.dropWhile_cons]
    by_cases hfirst : first.stop ≤ position
    · rw [if_pos (decide_eq_true hfirst), mem_dropWhile position h.tail, List.mem_cons]
      constructor
      · exact fun ⟨hmem, hlt⟩ => ⟨.inr hmem, hlt⟩
      · rintro ⟨rfl | hmem, hlt⟩
        · exact absurd hlt (not_lt.2 hfirst)
        · exact ⟨hmem, hlt⟩
    · rw [if_neg (by simpa using hfirst)]
      refine ⟨fun hmem => ⟨hmem, ?_⟩, And.left⟩
      rcases List.mem_cons.1 hmem with rfl | hmem
      · exact not_le.1 hfirst
      · exact lt_of_lt_of_le (not_le.1 hfirst) (le_trans (h.head_le hmem)
          (h.forward other (List.mem_cons_of_mem _ hmem)))

end Consecutive

section
variable {newer : Stretch}

theorem mem_carry : ∀ {older : List Stretch}, Consecutive older → ∀ {token : MapToken},
    token ∈ (carry newer older).1 ↔ ∃ stretch ∈ older, stretch.start < newer.stop ∧
    token = stretch.carriedBy newer
  | [], _, token => by simp [carry]
  | first :: rest, h, token => by
    rw [carry]
    by_cases hstart : first.start < newer.stop
    · rw [if_pos hstart]
      by_cases hstop : newer.stop ≤ first.stop
      · rw [if_pos hstop, List.mem_singleton]
        constructor
        · exact fun htoken => ⟨first, List.mem_cons_self, hstart, htoken⟩
        · rintro ⟨stretch, hstretch, hlt, htoken⟩
          rcases List.mem_cons.1 hstretch with rfl | hstretch
          · exact htoken
          · exact absurd hlt (not_lt.2 (le_trans hstop (h.head_le hstretch)))
      · rw [if_neg hstop]
        simp only [List.mem_cons, mem_carry h.tail, exists_eq_or_imp, hstart, true_and]
        rfl
    · rw [if_neg hstart]
      refine ⟨fun hnone => absurd hnone (List.not_mem_nil), ?_⟩
      rintro ⟨stretch, hstretch, hlt, -⟩
      rcases List.mem_cons.1 hstretch with rfl | hstretch
      · exact absurd hlt hstart
      · refine absurd hlt (not_lt.2 (le_trans (not_lt.1 hstart) ?_))
        exact le_trans (h.forward first List.mem_cons_self) (h.head_le hstretch)

theorem carry_suffix (newer : Stretch) : ∀ older : List Stretch, (carry newer older).2 <:+ older
  | [] => List.suffix_refl _
  | first :: rest => by
    rw [carry]
    split
    · split
      · exact List.suffix_refl _
      · exact (carry_suffix newer rest).trans (List.suffix_cons first rest)
    · exact List.suffix_refl _

theorem mem_carry_left {stretch : Stretch} (hstop : newer.stop < stretch.stop) :
    ∀ {older : List Stretch}, stretch ∈ older → stretch ∈ (carry newer older).2
  | first :: rest, hmem => by
    rw [carry]
    split
    · split
      · exact hmem
      · rename_i hshort
        rcases List.mem_cons.1 hmem with rfl | hmem
        · exact absurd (le_of_lt hstop) hshort
        · exact mem_carry_left hstop hmem
    · exact hmem

end

/-- The tokens that are carried over come from the pairs that meet. -/
theorem mem_carryAll : ∀ {newer older : List Stretch}, Consecutive newer → Consecutive older →
    ∀ {token : MapToken}, token ∈ carryAll older newer ↔
      ∃ by' ∈ newer, ∃ stretch ∈ older, stretch.Meets by' ∧ token = stretch.carriedBy by'
  | [], older, _, _, token => by simp [carryAll]
  | first :: rest, older, hnewer, holder, token => by
    have dropped := holder.of_suffix (List.dropWhile_suffix (fun other => decide (other.stop ≤ first.start)))
    have left := dropped.of_suffix (carry_suffix first _)
    rw [carryAll]
    simp only [List.mem_append, mem_carry dropped, mem_carryAll hnewer.tail left,
      List.mem_cons, exists_eq_or_imp]
    refine or_congr ?_ ?_
    · refine exists_congr fun stretch => ?_
      rw [holder.mem_dropWhile]
      constructor
      · rintro ⟨⟨hmem, hstop⟩, hstart, htoken⟩
        exact ⟨hmem, ⟨hstart, hstop⟩, htoken⟩
      · rintro ⟨hmem, ⟨hstart, hstop⟩, htoken⟩
        exact ⟨⟨hmem, hstop⟩, hstart, htoken⟩
    · refine exists_congr fun by' => and_congr_right fun hby => exists_congr fun stretch => and_congr_left ?_
      rintro ⟨hmeets, -⟩
      constructor
      · exact fun hmem => (holder.mem_dropWhile _).1 ((carry_suffix _ _).subset hmem) |>.1
      · intro hmem
        have hbehind : first.stop < stretch.stop := lt_of_le_of_lt (hnewer.head_le hby) hmeets.2
        refine mem_carry_left hbehind ((holder.mem_dropWhile _).2 ⟨hmem, ?_⟩)
        exact lt_of_le_of_lt (hnewer.forward first List.mem_cons_self) hbehind

/-! ## The stretches of tokens -/

section
variable {place : MapToken → Position}

theorem exists_split_of_mem_stretches : ∀ {tokens : List MapToken}, tokens.Pairwise (place · ≤ place ·) →
    ∀ {stretch : Stretch}, stretch ∈ stretches place tokens →
      ∃ front back, tokens = front ++ stretch.token :: back ∧ stretch.start = place stretch.token ∧
        stretch.start ≤ stretch.stop ∧ stretch.stop ≤ stretch.start.nextLine ∧
        ∀ other ∈ back, stretch.stop ≤ place other
  | [token], _, stretch, h => by
    rw [stretches, List.mem_singleton] at h
    subst h
    exact ⟨[], [], rfl, rfl, le_of_lt (Position.lt_nextLine_iff.2 (Nat.le_refl _)), le_refl _,
      fun other hother => by cases hother⟩
  | token :: next :: rest, sorted, stretch, h => by
    have inOrder := List.pairwise_cons.1 sorted
    rw [stretches] at h
    rcases List.mem_cons.1 h with rfl | h
    · refine ⟨[], next :: rest, rfl, rfl, ?_, ?_, ?_⟩
      · dsimp only
        split
        · exact inOrder.1 next List.mem_cons_self
        · exact le_of_lt (Position.lt_nextLine_iff.2 (Nat.le_refl _))
      · dsimp only
        split
        · assumption
        · exact le_refl _
      · intro other hother
        have hnext : place next ≤ place other := by
          rcases List.mem_cons.1 hother with rfl | hother
          · exact le_refl _
          · exact (List.pairwise_cons.1 inOrder.2).1 other hother
        dsimp only
        split
        · exact hnext
        · rename_i hline
          exact le_trans (le_of_lt (not_le.1 hline)) hnext
    · obtain ⟨front, back, htokens, hrest⟩ := exists_split_of_mem_stretches inOrder.2 h
      exact ⟨token :: front, back, by rw [htokens]; rfl, hrest⟩

theorem consecutive_stretches : ∀ {tokens : List MapToken}, tokens.Pairwise (place · ≤ place ·) →
    Consecutive (stretches place tokens)
  | [], _ => ⟨List.Pairwise.nil, fun _ h => by cases h⟩
  | token :: rest, sorted => by
    have forward : ∀ stretch ∈ stretches place (token :: rest), stretch.start ≤ stretch.stop := by
      intro stretch hstretch
      obtain ⟨_, _, -, -, hforward, -⟩ := exists_split_of_mem_stretches sorted hstretch
      exact hforward
    refine ⟨?_, forward⟩
    cases rest with
    | nil => exact List.pairwise_singleton _ _
    | cons next rest =>
      have inOrder := List.pairwise_cons.1 sorted
      rw [stretches]
      refine List.pairwise_cons.2 ⟨fun other hother => ?_, (consecutive_stretches inOrder.2).pairwise⟩
      have hnext : place next ≤ other.start := by
        obtain ⟨front, back, htokens, hstart, -⟩ := exists_split_of_mem_stretches inOrder.2 hother
        have hmem : other.token ∈ next :: rest := by rw [htokens]; simp
        rw [hstart]
        rcases List.mem_cons.1 hmem with heq | hmem
        · rw [heq]
        · exact (List.pairwise_cons.1 inOrder.2).1 _ hmem
      dsimp only
      split
      · exact hnext
      · rename_i hline
        exact le_trans (le_of_lt (not_le.1 hline)) hnext

theorem exists_stretch (place : MapToken → Position) (token : MapToken) (back : List MapToken) :
    ∀ front : List MapToken, ∃ stretch ∈ stretches place (front ++ token :: back),
      stretch.token = token ∧ stretch.start = place token ∧
        ∀ position, position < (place token).nextLine → (∀ other ∈ back, position < place other) →
          position < stretch.stop
  | [] => by
    rw [List.nil_append]
    cases back with
    | nil => exact ⟨_, by rw [stretches]; exact List.mem_singleton_self _, rfl, rfl, fun _ hline _ => hline⟩
    | cons next rest =>
      refine ⟨_, by rw [stretches]; exact List.mem_cons_self, rfl, rfl, fun position hline hback => ?_⟩
      dsimp only
      split
      · exact hback next List.mem_cons_self
      · exact hline
  | first :: front => by
    obtain ⟨stretch, hstretch, hrest⟩ := exists_stretch place token back front
    refine ⟨stretch, ?_, hrest⟩
    rw [List.cons_append]
    cases hbehind : front ++ token :: back with
    | nil => simp at hbehind
    | cons next rest =>
      rw [hbehind] at hstretch
      rw [stretches]
      exact List.mem_cons_of_mem _ hstretch

end

theorem inOrder_pairwise (tokens : List MapToken) :
    (inOrder tokens).Pairwise (·.generated ≤ ·.generated) := by
  have := @Sorting.sort_pairwise _ (fun a b : MapToken => decide (a.generated ≤ b.generated))
    (fun a b => by simpa using le_total a.generated b.generated)
    (fun a b c => by simpa using le_trans) tokens
  simpa [inOrder] using this

theorem mem_inOrder {tokens : List MapToken} {token : MapToken} : token ∈ inOrder tokens ↔ token ∈ tokens :=
  Sorting.mem_sort _

end SourceMap
end ClassWeave
