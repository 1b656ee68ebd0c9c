import ClassWeave.Proofs.Columns
import ClassWeave.Proofs.Insertion
/-!
# Where tokens stand

A token that a pass carries along lands where a run of the pass lands, or with a character that the
pass copies. It needs a character to stand on for this: one on a line feed is moved by the run in
front of it on its line, past the end of what that line has become. Only text that begins with a
line feed puts a token there, or an edit that neither removes nor writes.
-/

namespace ClassWeave

/-- A character other than a line feed stands at a position of a text. -/
def Text.Bears (text : Text) (position : Position) : Prop :=
  ∃ front c back, text = front ++ c :: back ∧ c ≠ '\n' ∧ position = Position.origin.after front

theorem Text.Bears.holds {text : Text} {position : Position} (h : text.Bears position) :
    text.Holds position := by
  obtain ⟨front, c, back, rfl, -, rfl⟩ := h
  exact holds_after front _

theorem Text.Bears.held {text : Text} {position : Position} (h : text.Bears position) : ∃ front c back,
    text = front ++ c :: back ∧ c ≠ '\n' ∧ Position.origin.after front ≤ position ∧
      position < Position.origin.after (front ++ [c]) := by
  obtain ⟨front, c, back, rfl, hc, rfl⟩ := h
  refine ⟨front, c, back, rfl, hc, le_refl _, ?_⟩
  rw [Position.after_append]
  exact Position.lt_after _ (by simp)

/-! ## Runs in both texts -/

theorem Run.landing_after (run : Run) {piece : Text} (flat : '\n' ∉ piece) :
    run.landing (run.start.after piece) = run.generated.after piece := by
  rw [landing, Position.after_eq_of_flat _ flat, Position.after_eq_of_flat _ flat]
  simp

namespace Tiles

theorem head_target : ∀ {tiles : List Tile} {byte : Nat} (at' : Progress), Seated byte tiles →
    (target tiles).head?.all (· = '\n') = true ∨
      ∃ run ∈ runs at' tiles, run.kind ≠ .deleted ∧ run.generated = at'.generated
  | [], _, _, _ => .inl rfl
  | .lineFeed :: _, _, _, _ => .inl rfl
  | .piece text :: tiles, _, at', _ => .inr ⟨_, List.mem_cons_self, by simp, rfl⟩
  | .edit change removed :: tiles, _, at', ⟨_, hseated⟩ => by
    by_cases hwritten : change.text = []
    · have hpast : (past at' [Tile.edit change removed]).generated = at'.generated := by
        simp [past, Tile.target, hwritten]
      rw [target_cons, Tile.target, hwritten, List.nil_append]
      refine (head_target (past at' [.edit change removed]) hseated).imp_right ?_
      rintro ⟨run, hrun, hkind, hgenerated⟩
      exact ⟨run, List.mem_cons_of_mem _ hrun, hkind, hgenerated.trans hpast⟩
    · exact .inr ⟨_, List.mem_cons_self, by simp [Progress.editRun, hwritten], rfl⟩

end Tiles

namespace Edit

variable {index : Nat} {text output : Text} {edits : List Edit} {record : Record} {run : Run}

theorem exists_tile_of_mem (happly : applyAll index text edits = .ok (output, record))
    (hrun : run ∈ record.runs) :
    ∃ (front : List Tile) (tile : Tile) (back : List Tile),
    text = Tiles.source front ++ (tile.source ++ Tiles.source back) ∧
      output = Tiles.target front ++ (tile.target ++ Tiles.target back) ∧
      (∀ edit ∈ tile.edits, edit ∈ edits) ∧
      tile.Seated (Tiles.source front).byteLength ∧
      tile.runs (Tiles.past ⟨Position.origin, Position.origin⟩ front) = [run] ∧
      ((Tiles.target back).head?.all (· = '\n') = true ∨ ∃ next ∈ record.runs, next.kind ≠ .deleted ∧
        next.generated = Position.origin.after (Tiles.target front ++ tile.target)) := by
  obtain ⟨tiles, rfl, rfl, hedits, hseated, hruns⟩ := Tiles.exists_of_applyFrom (applyAll_eq_ok happly)
  obtain ⟨before, after, hsplit⟩ := List.append_of_mem hrun
  obtain ⟨front, tile, back, rfl, -, htile⟩ := Tiles.exists_tile_of_run (hruns.trans hsplit)
  obtain ⟨-, hhere, hbehind⟩ := (Tiles.seated_append _ _ _).1 hseated
  refine ⟨front, tile, back, by simp, by simp, ?_, by simpa using hhere, htile, ?_⟩
  · intro edit hedit
    refine (Sorting.mem_sort _).1 (?_ : edit ∈ inOrder edits)
    rw [← hedits]
    simp [hedit]
  · refine (Tiles.head_target (Tiles.past ⟨Position.origin, Position.origin⟩ (front ++ [tile]))
      hbehind).imp_right ?_
    rintro ⟨next, hnext, hkind, hgenerated⟩
    refine ⟨next, ?_, hkind, hgenerated.trans ?_⟩
    · rw [← hruns, List.append_cons, Tiles.runs_append]
      exact List.mem_append_right _ hnext
    · simp [Tiles.past]

theorem exists_piece_of_mem (happly : applyAll index text edits = .ok (output, record))
    (hrun : run ∈ record.runs) (hkind : run.kind = .unedited) : run.start < run.stop ∧
      (∀ position, output.Holds position → run.generated.line = position.line →
        (run.landing run.stop).column < position.column →
          ∃ next ∈ record.runs, next.kind ≠ .deleted ∧ next.generated = run.landing run.stop) := by
  obtain ⟨front, tile, back, -, houtput, -, hseated, htile, hbehind⟩ := exists_tile_of_mem happly hrun
  cases tile with
  | lineFeed => cases htile
  | edit change removed =>
    obtain rfl := (List.cons.inj htile).1
    exact absurd hkind (Progress.editRun_kind_ne _ _ _)
  | piece piece =>
    obtain rfl := (List.cons.inj htile).1
    obtain ⟨hpiece, flat⟩ := hseated
    have hlanding := Run.landing_after ⟨.unedited, Position.origin.after (Tiles.target front),
      Position.origin.after (Tiles.source front),
      (Position.origin.after (Tiles.source front)).after piece⟩ flat
    refine ⟨Position.lt_after _ hpiece, fun position holds line hlt => ?_⟩
    simp only [Tiles.past] at line hlt ⊢
    simp only at hlanding
    rw [hlanding, ← Position.after_append] at hlt ⊢
    refine hbehind.resolve_left fun hnone => ?_
    rw [houtput, Tile.target, ← List.append_assoc] at holds
    refine absurd hlt (not_lt.2 (holds.column_le hnone ?_))
    rw [Position.after_append, Position.after_eq_of_flat _ flat]
    exact line

theorem bears_generated (happly : applyAll index text edits = .ok (output, record)) (hrun : run ∈ record.runs)
    (hkind : run.kind ≠ .deleted) (opens : ∀ edit ∈ edits, edit.text.head? ≠ some '\n') :
    output.Bears run.generated := by
  obtain ⟨front, tile, back, -, rfl, hedits, hseated, htile, -⟩ := exists_tile_of_mem happly hrun
  have hgenerated := (tile.start_of_runs htile).2
  have hfirst : ∃ c rest, tile.target = c :: rest ∧ c ≠ '\n' := by
    cases tile with
    | lineFeed => cases htile
    | piece piece =>
      obtain ⟨hpiece, flat⟩ := hseated
      cases piece with
      | nil => exact absurd rfl hpiece
      | cons c rest => exact ⟨c, rest, rfl, fun e => flat (e ▸ List.mem_cons_self)⟩
    | edit change removed =>
      obtain rfl := (List.cons.inj htile).1
      have hopens := opens change (hedits change List.mem_cons_self)
      rw [Tile.target]
      cases hwritten : change.text with
      | nil => simp [Progress.editRun, hwritten] at hkind
      | cons c rest => exact ⟨c, rest, rfl, fun e => hopens (by rw [hwritten, e]; rfl)⟩
  obtain ⟨c, rest, htarget, hc⟩ := hfirst
  refine ⟨Tiles.target front, c, rest ++ Tiles.target back, by rw [htarget]; rfl, hc, ?_⟩
  simpa [Tiles.past] using hgenerated

theorem holds_generated (happly : applyAll index text edits = .ok (output, record))
    (hrun : run ∈ record.runs) :
    text.Holds run.start ∧ output.Holds run.generated := by
  obtain ⟨before, after, hruns⟩ := List.append_of_mem hrun
  obtain ⟨front, back, written, rest, rfl, hstart, rfl, hgenerated, -⟩ := generated_of_applyAll happly hruns
  rw [hstart, hgenerated]
  exact ⟨Text.holds_after _ _, Text.holds_after _ _⟩

/-- An edit that removes nothing and writes nothing. -/
def isVoid (edit : Edit) : Prop := edit.span.start = edit.span.stop ∧ edit.text = []

instance (edit : Edit) : Decidable edit.isVoid := inferInstanceAs (Decidable (_ ∧ _))

theorem lt_stop_of_deleted (happly : applyAll index text edits = .ok (output, record))
    (hrun : run ∈ record.runs) (hkind : run.kind = .deleted) (acts : ∀ edit ∈ edits, ¬ edit.isVoid) :
    run.start < run.stop := by
  obtain ⟨edit, hedit, hstands⟩ := exists_standsFor_of_mem happly hrun (by simp [hkind])
  have forward := ((tiled_applyAll happly).wellformed run hrun).start_le
  refine lt_of_le_of_ne forward fun hsame => acts edit hedit ⟨?_, hstands.deleted.1 hkind⟩
  exact Text.positionAt?_inj hstands.start (hsame ▸ hstands.stop)

theorem bears_landing (happly : applyAll index text edits = .ok (output, record)) (hrun : run ∈ record.runs)
    (hkind : run.kind = .unedited) {front back : Text} (htext : text = front ++ back)
    (hcontains : run.contains (Position.origin.after front)) :
    output.Bears (run.landing (Position.origin.after front)) := by
  obtain ⟨start, piece, rest, written, rest', hpiece, houtput, flat, rfl⟩ :=
    copiesPiece_of_applyAll happly hrun hkind
  obtain ⟨hle, hlt⟩ := Run.contains_iff.1 hcontains
  cases back with
  | nil =>
    have hend := Position.after_le_append Position.origin (start ++ piece) rest
    rw [← hpiece, htext, List.append_nil] at hend
    exact absurd hlt (not_lt.2 hend)
  | cons c back =>
    have hnext : Position.origin.after front < Position.origin.after (front ++ [c]) := by
      rw [Position.after_append]
      exact Position.lt_after _ (by simp)
    obtain ⟨inner, tail, rfl, rfl⟩ := exists_of_meets (hpiece.symm.trans htext) hle hlt (le_refl _) hnext
    have hinner : '\n' ∉ inner := fun h => flat (List.mem_append_left _ h)
    refine ⟨written ++ inner, c, tail ++ rest', by simp [houtput], fun e => flat (by simp [e]), ?_⟩
    rw [Position.after_append _ start inner, Position.after_append _ written inner]
    exact Run.landing_after ⟨.unedited, Position.origin.after written, Position.origin.after start, _⟩ hinner

end Edit

/-! ## Tokens that are carried -/

namespace SourceMap

variable {index : Nat} {text output : Text} {edits : List Edit}
    {record : Record} {run : Run} {tokens : List MapToken}
  {token older : MapToken}

theorem exists_of_mem_align (h : older ∈ align tokens record) : ∃ front origin back part,
    tokens = front ++ origin :: back ∧ part ∈ split record origin back.head? ∧ older ∈ settle record part ∧
      older.generated = part.generated ∧ Settled record older := by
  obtain ⟨front, origin, back, htokens, part, hpart, hsettle⟩ := mem_alignAll.1 (mem_inOrder.1 h)
  obtain ⟨hplace, settled⟩ := settled_of_mem_settle hsettle
  exact ⟨front, origin, back, part, htokens, hpart, hsettle, hplace, settled⟩

theorem Carried.start_ne {at' : Progress} (tiled : Tiled at' record.runs)
    (h : Carried record tokens token run older) (behind : run.start < older.generated)
    {other : Run} (hother : other ∈ record.runs) (hkind : other.kind ≠ .deleted) :
    other.start ≠ older.generated := by
  intro heq
  rcases tiled.trichotomy h.run_mem hother with rfl | hprecedes | hprecedes
  · exact absurd behind (by rw [heq]; exact lt_irrefl _)
  · exact absurd (h.before other hother hkind hprecedes) (by rw [heq]; exact lt_irrefl _)
  · have hle := le_trans (tiled.wellformed other hother).start_le hprecedes.stop_le
    exact absurd behind (not_lt.2 (heq ▸ hle))

theorem Carried.contains {at' : Progress} (tiled : Tiled at' record.runs)
    (h : Carried record tokens token run older) (behind : run.start < older.generated)
    (settled : Settled record older) (covered : record.runAt older.generated ≠ none) :
    run.kind = .unedited ∧ run.contains older.generated := by
  obtain ⟨other, hfound⟩ := Option.ne_none_iff_exists'.1 covered
  obtain ⟨hother, hstart, hstop⟩ := Record.mem_of_runAt hfound
  rcases settled other hfound with hkind | ⟨hkind, hsame⟩
  · rcases tiled.trichotomy h.run_mem hother with rfl | hprecedes | hprecedes
    · exact ⟨hkind, Run.contains_iff.2 ⟨hstart, hstop⟩⟩
    · exact absurd (h.before other hother (by simp [hkind]) hprecedes) (not_lt.2 hstart)
    · exact absurd (lt_of_lt_of_le hstop hprecedes.stop_le) (not_lt.2 (le_of_lt behind))
  · exact absurd hsame (h.start_ne tiled behind hother (by simp [hkind]))

theorem contains_of_carried (happly : Edit.applyAll index text edits = .ok (output, record))
    (acts : ∀ edit ∈ edits, ¬ edit.isVoid) (bears : ∀ token ∈ tokens, text.Bears token.generated)
    (h : Carried record (align tokens record) token run older) (behind : run.start < older.generated) :
    run.kind = .unedited ∧ run.contains older.generated ∧
      ∃ front back, text = front ++ back ∧ older.generated = Position.origin.after front := by
  have tiled := Edit.tiled_applyAll happly
  obtain ⟨front, origin, back, part, htokens, hpart, -, hplace, settled⟩ := exists_of_mem_align h.mem
  -- The token stands on a character, or it was cut off at the start of a run, which then removes something.
  have held : record.runAt older.generated ≠ none ∧
      ∃ front back, text = front ++ back ∧ older.generated = Position.origin.after front := by
    rcases mem_split.1 hpart with rfl | ⟨-, other, hother, -, -, rfl⟩
    · have hbears := bears part (by simp [htokens])
      obtain ⟨before, c, after, htext, hc, hle, hlt⟩ := hbears.held
      obtain ⟨other, hother, hcontains⟩ := Edit.exists_run_over_char happly htext (.inl hc) hle hlt
      rw [hplace]
      refine ⟨?_, ?_⟩
      · rw [(Edit.runAt_eq_some_iff happly).2 ⟨hother, hcontains⟩]
        simp
      · obtain ⟨before, c, after, htext, -, hafter⟩ := hbears
        exact ⟨before, _, htext, hafter⟩
    · have hsame : older.generated = other.start := hplace
      have hkind : other.kind = .deleted := by
        by_contra hkind
        exact h.start_ne tiled behind hother hkind hsame.symm
      refine ⟨?_, ?_⟩
      · rw [hsame,
          Record.runAt_eq_some tiled hother (le_refl _) (Edit.lt_stop_of_deleted happly hother hkind acts)]
        simp
      · obtain ⟨earlier, later, hruns⟩ := List.append_of_mem hother
        obtain ⟨before, after, -, -, htext, hstart, -⟩ := Edit.generated_of_applyAll happly hruns
        exact ⟨before, after, htext, hsame.trans hstart⟩
  obtain ⟨hkind, hcontains⟩ := h.contains tiled behind settled held.1
  exact ⟨hkind, hcontains, held.2⟩

/-- A token is carried to where a run lands or to a character that is copied. -/
theorem landed_or_bears_extend (happly : Edit.applyAll index text edits = .ok (output, record))
    (acts : ∀ edit ∈ edits, ¬ edit.isVoid) (bears : ∀ token ∈ tokens, text.Bears token.generated)
    (h : token ∈ extend tokens record) :
    (∃ run ∈ record.runs, run.kind ≠ .deleted ∧ token.generated = run.generated) ∨
    output.Bears token.generated := by
  have tiled := Edit.tiled_applyAll happly
  obtain ⟨run, older, hcarried⟩ := exists_carried tiled (inOrder_pairwise _) (fun _ => settled_of_mem_align) h
  rcases lt_or_ge run.start older.generated with behind | hle
  · obtain ⟨hkind, hcontains, front, back, htext, hplace⟩ :=
      contains_of_carried happly acts bears hcarried behind
    rw [hcarried.eq, carriedInto, max_eq_left (le_of_lt behind), hplace]
    exact .inr (Edit.bears_landing happly hcarried.run_mem hkind htext (hplace ▸ hcontains))
  · refine .inl ⟨run, hcarried.run_mem, hcarried.kind, ?_⟩
    rw [hcarried.eq, carriedInto, max_eq_right hle, Run.landing_start]

end SourceMap
end ClassWeave
