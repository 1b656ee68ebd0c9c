import ClassWeave.Proofs.Copying
import ClassWeave.Proofs.Splicing
/-!
# What a record says of its pass

A pass cuts its text into tiles: line feeds and pieces of lines that it copies, and ranges that it
edits. The record has one run for each tile that is no line feed, so everything it says can be read
off the tiles, and each of them off the place where it is laid.
-/

namespace ClassWeave

/-! ## Tiles -/

/-- A part of the input of a pass with what becomes of it. -/
inductive Tile where
  | lineFeed
  | piece (text : Text)
  | edit (change : Edit) (removed : Text)

namespace Tile

def source : Tile → Text
  | .lineFeed => ['\n']
  | .piece text => text
  | .edit _ removed => removed

def target : Tile → Text
  | .lineFeed => ['\n']
  | .piece text => text
  | .edit change _ => change.text

def edits : Tile → List Edit
  | .edit change _ => [change]
  | _ => []

def runs (at' : Progress) : Tile → List Run
  | .lineFeed => []
  | .piece text => [⟨.unedited, at'.generated, at'.input, at'.input.after text⟩]
  | .edit change removed => [at'.editRun removed change.text]

theorem runs_eq (at' : Progress) (tile : Tile) : tile.runs at' = [] ∨ ∃ run, tile.runs at' = [run] := by
  cases tile with
  | lineFeed => exact .inl rfl
  | piece text => exact .inr ⟨_, rfl⟩
  | edit change removed => exact .inr ⟨_, rfl⟩

theorem start_of_runs {at' : Progress} {run : Run} (tile : Tile) (h : tile.runs at' = [run]) :
    run.start = at'.input ∧ run.generated = at'.generated := by
  cases tile with
  | lineFeed => cases h
  | piece text =>
    obtain rfl := (List.cons.inj h).1
    exact ⟨rfl, rfl⟩
  | edit change removed =>
    obtain rfl := (List.cons.inj h).1
    exact ⟨rfl, rfl⟩

def Seated (byte : Nat) : Tile → Prop
  | .lineFeed => True
  | .piece text => text ≠ [] ∧ '\n' ∉ text
  | .edit change removed => change.span.start = byte ∧ change.span.stop = byte + removed.byteLength

end Tile

namespace Tiles

def source (tiles : List Tile) : Text := tiles.flatMap Tile.source

def target (tiles : List Tile) : Text := tiles.flatMap Tile.target

def edits (tiles : List Tile) : List Edit := tiles.flatMap Tile.edits

def past (at' : Progress) (tiles : List Tile) : Progress :=
  ⟨at'.generated.after (target tiles), at'.input.after (source tiles)⟩

def runs : Progress → List Tile → List Run
  | _, [] => []
  | at', tile :: tiles => tile.runs at' ++ runs (past at' [tile]) tiles

def Seated : Nat → List Tile → Prop
  | _, [] => True
  | byte, tile :: tiles => tile.Seated byte ∧ Seated (byte + tile.source.byteLength) tiles

@[simp] theorem source_nil : source [] = [] := rfl

@[simp] theorem target_nil : target [] = [] := rfl

@[simp] theorem edits_nil : edits [] = [] := rfl

@[simp] theorem source_cons (tile : Tile) (tiles : List Tile) :
    source (tile :: tiles) = tile.source ++ source tiles :=
  List.flatMap_cons

@[simp] theorem target_cons (tile : Tile) (tiles : List Tile) :
    target (tile :: tiles) = tile.target ++ target tiles :=
  List.flatMap_cons

@[simp] theorem edits_cons (tile : Tile) (tiles : List Tile) :
    edits (tile :: tiles) = tile.edits ++ edits tiles :=
  List.flatMap_cons

@[simp] theorem source_append (a b : List Tile) : source (a ++ b) = source a ++ source b :=
  List.flatMap_append

@[simp] theorem target_append (a b : List Tile) : target (a ++ b) = target a ++ target b :=
  List.flatMap_append

@[simp] theorem edits_append (a b : List Tile) : edits (a ++ b) = edits a ++ edits b := List.flatMap_append

@[simp] theorem past_nil (at' : Progress) : past at' [] = at' := rfl

theorem past_cons (at' : Progress) (tile : Tile) (tiles : List Tile) :
    past at' (tile :: tiles) = past (past at' [tile]) tiles := by
  simp [past]

theorem runs_append (b : List Tile) : ∀ (a : List Tile) (at' : Progress),
    runs at' (a ++ b) = runs at' a ++ runs (past at' a) b
  | [], _ => rfl
  | tile :: a, at' => by
    rw [List.cons_append, runs, runs_append b a, runs, past_cons at' tile a, List.append_assoc]

theorem seated_append (b : List Tile) : ∀ (a : List Tile) (byte : Nat),
    Seated byte (a ++ b) ↔ Seated byte a ∧ Seated (byte + (source a).byteLength) b
  | [], byte => by simp [Seated]
  | tile :: a, byte => by
    rw [List.cons_append, Seated, Seated, seated_append b a, source_cons,
      Text.byteLength_append, and_assoc, Nat.add_assoc]

theorem exists_tile_of_run {run : Run} {after : List Run} :
    ∀ {tiles : List Tile} {at' : Progress} {before : List Run},
    runs at' tiles = before ++ run :: after →
    ∃ front tile back, tiles = front ++ tile :: back ∧ before = runs at' front ∧
    tile.runs (past at' front) = [run]
  | [], at', before, h => by simp [runs] at h
  | tile :: tiles, at', before, h => by
    rw [runs] at h
    -- Either the run is that of the first tile, or the first tile's runs are all in front of it.
    have split : (before = [] ∧ tile.runs at' = [run]) ∨
        ∃ rest, before = tile.runs at' ++ rest ∧ runs (past at' [tile]) tiles = rest ++ run :: after := by
      rcases tile.runs_eq at' with hnone | ⟨first, hone⟩
      · rw [hnone] at h ⊢
        exact .inr ⟨before, rfl, h⟩
      · rw [hone] at h ⊢
        cases before with
        | nil => exact .inl ⟨rfl, by rw [(List.cons.inj h).1]⟩
        | cons other before =>
          obtain ⟨rfl, hrest⟩ := List.cons.inj h
          exact .inr ⟨before, rfl, hrest⟩
    rcases split with ⟨rfl, hrun⟩ | ⟨rest, rfl, hrest⟩
    · exact ⟨[], tile, tiles, rfl, rfl, hrun⟩
    · obtain ⟨front, tile', back, rfl, rfl, hrun⟩ := exists_tile_of_run hrest
      refine ⟨tile :: front, tile', back, rfl, rfl, ?_⟩
      rw [past_cons]
      exact hrun

theorem countP_runs : ∀ (tiles : List Tile) (at' : Progress),
    (runs at' tiles).countP (·.kind ≠ .unedited) = (edits tiles).length
  | [], _ => rfl
  | tile :: tiles, at' => by
    rw [runs, List.countP_append, countP_runs tiles, edits_cons, List.length_append]
    cases tile with
    | lineFeed => rfl
    | piece text => rfl
    | edit change removed =>
      have hkind := Progress.editRun_kind_ne at' removed change.text
      simp [Tile.runs, Tile.edits, hkind]

/-! ## The tiles of a pass -/

theorem exists_of_copyRuns (text : Text) :
    ∃ tiles, source tiles = text ∧ target tiles = text ∧ edits tiles = [] ∧
    (∀ byte, Seated byte tiles) ∧ ∀ at', runs at' tiles = at'.copyRuns text := by
  have ofPiece : ∀ piece : Text, '\n' ∉ piece → ∃ tiles, source tiles = piece ∧
    target tiles = piece ∧ edits tiles = [] ∧
      (∀ byte, Seated byte tiles) ∧ ∀ at', runs at' tiles = at'.pieceRuns piece := by
    intro piece flat
    by_cases hpiece : piece = []
    · subst hpiece
      exact ⟨[], rfl, rfl, rfl, fun _ => trivial, fun _ => rfl⟩
    · refine ⟨[.piece piece], List.append_nil _, List.append_nil _,
        rfl, fun _ => ⟨⟨hpiece, flat⟩, trivial⟩, ?_⟩
      intro at'
      rw [Progress.pieceRuns, if_neg (by simpa using hpiece)]
      rfl
  induction text using Text.lineInduction with
  | flat text flat =>
    obtain ⟨tiles, hsource, htarget, hedits, hseated, hruns⟩ := ofPiece text flat
    refine ⟨tiles, hsource, htarget, hedits, hseated, fun at' => ?_⟩
    rw [hruns, Progress.copyRuns_flat at' flat]
  | line piece rest flat ih =>
    obtain ⟨front, hsource, htarget, hedits, hseated, hruns⟩ := ofPiece piece flat
    obtain ⟨back, hsource', htarget', hedits', hseated', hruns'⟩ := ih
    refine ⟨front ++ .lineFeed :: back, ?_, ?_, ?_, fun byte => ?_, fun at' => ?_⟩
    · rw [source_append, source_cons, hsource, hsource']; rfl
    · rw [target_append, target_cons, htarget, htarget']; rfl
    · rw [edits_append, edits_cons, hedits, hedits']; rfl
    · exact (seated_append _ _ _).2 ⟨hseated byte, trivial, hseated' _⟩
    · rw [runs_append, hruns, runs, hruns', Progress.copyRuns_line at' flat, past, hsource, htarget]
      rfl

theorem exists_of_applyFrom :
    ∀ {edits : List Edit} {cursor : Nat} {at' : Progress} {rest output : Text} {runs : List Run},
    Edit.applyFrom cursor at' rest edits = .ok (output, runs) →
    ∃ tiles, source tiles = rest ∧ target tiles = output ∧
      Tiles.edits tiles = edits ∧ Seated cursor tiles ∧ Tiles.runs at' tiles = runs
  | [], cursor, at', rest, output, runs, h => by
    simp only [Edit.applyFrom, Except.ok.injEq, Prod.mk.injEq] at h
    obtain ⟨rfl, rfl⟩ := h
    obtain ⟨tiles, hsource, htarget, hedits, hseated, hruns⟩ := exists_of_copyRuns rest
    exact ⟨tiles, hsource, htarget, hedits, hseated cursor, hruns at'⟩
  | first :: edits, cursor, at', rest, output, runs, h => by
    obtain ⟨kept, removed, rest', output', runs', hcursor, forward, rfl, hkept, hremoved, happly, rfl, rfl⟩ :=
      Edit.applyFrom_cons h
    obtain ⟨front, hsource, htarget, hedits, hseated, hruns⟩ := exists_of_copyRuns kept
    obtain ⟨back, rfl, rfl, rfl, hseated', rfl⟩ := exists_of_applyFrom happly
    refine ⟨front ++ .edit first removed :: back, ?_, ?_, ?_, ?_, ?_⟩
    · rw [source_append, source_cons, hsource, List.append_assoc]; rfl
    · rw [target_append, target_cons, htarget, List.append_assoc]; rfl
    · rw [edits_append, edits_cons, hedits]; rfl
    · have hstart : first.span.start = cursor + kept.byteLength := by omega
      have hstop : first.span.stop = cursor + kept.byteLength + removed.byteLength := by omega
      rw [seated_append, hsource]
      refine ⟨hseated cursor, ⟨hstart, hstop⟩, ?_⟩
      rw [hstop] at hseated'
      exact hseated'
    · rw [runs_append, hruns, Tiles.runs, past, hsource, htarget]
      simp only [past, source_cons, target_cons, source_nil, target_nil, List.append_nil]
      rfl

/-- What tiles make of their source is what their edits make of it, spliced in one at a time. -/
theorem spliceAll_source : ∀ {tiles : List Tile} {byte : Nat} (front : Text), Seated byte tiles →
    front.byteLength = byte →
    Edit.spliceAll (front ++ source tiles) (edits tiles) = some (front ++ target tiles)
  | [], _, front, _, _ => by simp [Edit.spliceAll]
  | tile :: tiles, byte, front, hseated, hfront => by
    obtain ⟨htile, hseated⟩ := hseated
    have hbyte : (front ++ tile.source).byteLength = byte + tile.source.byteLength := by
      rw [Text.byteLength_append, hfront]
    have ih := spliceAll_source (front ++ tile.source) hseated hbyte
    rw [List.append_assoc] at ih
    rw [source_cons, target_cons, edits_cons]
    cases tile with
    | lineFeed => simpa [Tile.edits, Tile.source, Tile.target] using ih
    | piece text => simpa [Tile.edits, Tile.source, Tile.target] using ih
    | edit change removed =>
      obtain ⟨hstart, hstop⟩ := htile
      have hremoved : removed.byteLength = change.span.stop - change.span.start := by omega
      have here := Edit.splice?_append (target tiles) (by omega) (hfront.trans hstart.symm) hremoved
      rw [Tile.edits, List.cons_append, List.nil_append, Edit.spliceAll]
      simp only [Tile.source, Tile.target] at ih ⊢
      rw [ih, Option.bind_some, here, List.append_assoc]

end Tiles

/-! ## Characters and their positions -/

namespace Position

def right (p : Position) (columns : Nat) : Position := ⟨p.line, p.column + columns⟩

theorem after_le_append (p : Position) (a b : Text) : p.after a ≤ p.after (a ++ b) := by
  rw [after_append]
  exact le_after _ b

theorem after_inj {front front' back back' : Text} (h : front ++ back = front' ++ back')
    (hafter : origin.after front = origin.after front') : front = front' := by
  rcases List.append_eq_append_iff.1 h with ⟨between, rfl, -⟩ | ⟨between, rfl, -⟩
  · rw [after_append] at hafter
    by_contra hne
    exact absurd hafter (ne_of_lt (lt_after _ (by simpa using hne)))
  · rw [after_append] at hafter
    by_contra hne
    exact absurd hafter (ne_of_gt (lt_after _ (by simpa using hne)))

end Position

namespace Text

def positionAt? (text : Text) (byte : Nat) : Option Position :=
  (text.cut byte).map fun (front, _) => Position.origin.after front

/-- The character of a text that takes the column of a position, if the text begins at another one. -/
def charFrom? (position : Position) : Position → Text → Option Char
  | _, [] => none
  | at', c :: text =>
    if at'.line = position.line ∧ at'.column ≤ position.column ∧
      position.column < at'.column + Position.width c then
      some c
    else charFrom? position (at'.past c) text

def charAt? (text : Text) (position : Position) : Option Char := charFrom? position Position.origin text

theorem positionAt?_append (front back : Text) :
    positionAt? (front ++ back) front.byteLength = some (Position.origin.after front) := by
  rw [positionAt?, cut_append, Option.map_some]

theorem positionAt?_inj {text : Text} {a b : Nat} {position : Position}
    (ha : text.positionAt? a = some position) (hb : text.positionAt? b = some position) : a = b := by
  rw [positionAt?, Option.map_eq_some_iff] at ha hb
  obtain ⟨⟨front, back⟩, hcut, rfl⟩ := ha
  obtain ⟨⟨front', back'⟩, hcut', hafter⟩ := hb
  obtain ⟨htext, rfl⟩ := cut_eq_some hcut
  obtain ⟨htext', rfl⟩ := cut_eq_some hcut'
  rw [Position.after_inj (htext'.symm.trans htext) hafter]

theorem charFrom?_append {position : Position} (back : Text) : ∀ (front : Text) {at' : Position},
    at'.after front ≤ position →
    charFrom? position at' (front ++ back) = charFrom? position (at'.after front) back
  | [], _, _ => rfl
  | c :: front, at', h => by
    have passed : at'.past c ≤ position := le_trans (Position.le_after _ front) h
    rw [List.cons_append, charFrom?, if_neg, charFrom?_append back front h, Position.after_cons]
    rintro ⟨hline, hle, hlt⟩
    rw [Position.past] at passed
    split at passed
    · rw [Position.le_iff] at passed
      simp only [Position.nextLine] at passed
      omega
    · rw [Position.le_iff] at passed
      simp only at passed
      omega

theorem exists_charFrom? : ∀ {piece : Text} {columns : Nat}, '\n' ∉ piece →
    columns < (piece.map Position.width).sum →
    ∃ c, ∀ (at' : Position) (back : Text), charFrom? (at'.right columns) at' (piece ++ back) = some c
  | c :: piece, columns, flat, hcolumns => by
    rw [List.map_cons, List.sum_cons] at hcolumns
    by_cases hfirst : columns < Position.width c
    · refine ⟨c, fun at' back => ?_⟩
      rw [List.cons_append, charFrom?, if_pos]
      exact ⟨rfl, Nat.le_add_right _ _, Nat.add_lt_add_left hfirst _⟩
    · have hc : c ≠ '\n' := fun e => flat (e ▸ List.mem_cons_self)
      obtain ⟨d, hd⟩ := @exists_charFrom? piece (columns - Position.width c)
        (fun h => flat (List.mem_cons_of_mem _ h)) (by omega)
      refine ⟨d, fun at' back => ?_⟩
      have hright : at'.right columns = (at'.past c).right (columns - Position.width c) := by
        rw [Position.past, if_neg hc, Position.right, Position.right]
        simp only [Position.mk.injEq, true_and]
        omega
      rw [List.cons_append, charFrom?, if_neg, hright, hd]
      exact fun h => hfirst (Nat.lt_of_add_lt_add_left h.2.2)

end Text

/-! ## The record -/

/-- A run that stands for an edit of a text: it has the range of the edit, and is a deletion exactly
if the edit writes nothing. -/
structure Run.StandsFor (text : Text) (edit : Edit) (run : Run) : Prop where
  edited : run.kind ≠ .unedited
  deleted : run.kind = .deleted ↔ edit.text = []
  start : text.positionAt? edit.span.start = some run.start
  stop : text.positionAt? edit.span.stop = some run.stop

instance (text : Text) (edit : Edit) (run : Run) : Decidable (run.StandsFor text edit) :=
  decidable_of_iff (run.kind ≠ .unedited ∧ (run.kind = .deleted ↔ edit.text = []) ∧
      text.positionAt? edit.span.start = some run.start ∧ text.positionAt? edit.span.stop = some run.stop)
    ⟨fun ⟨edited, deleted, start, stop⟩ => ⟨edited, deleted, start, stop⟩,
      fun ⟨edited, deleted, start, stop⟩ => ⟨edited, deleted, start, stop⟩⟩

def Run.CopiesPiece (text output : Text) (run : Run) : Prop :=
  ∃ front piece back front' back', text = front ++ piece ++ back ∧
    output = front' ++ piece ++ back' ∧ '\n' ∉ piece ∧
    run = ⟨.unedited, Position.origin.after front', Position.origin.after front,
      Position.origin.after (front ++ piece)⟩

namespace Tiles

variable {tiles : List Tile}

theorem forall₂_standsFor :
    ∀ {tiles : List Tile} {byte : Nat} {at' : Progress} (front : Text), Seated byte tiles →
    front.byteLength = byte → at'.input = Position.origin.after front →
    List.Forall₂ (fun edit run => run.StandsFor (front ++ source tiles) edit) (edits tiles)
      ((runs at' tiles).filter (·.kind ≠ .unedited))
  | [], _, _, _, _, _, _ => List.Forall₂.nil
  | tile :: tiles, byte, at', front, ⟨htile, hseated⟩, hfront, hinput => by
    have hbyte : (front ++ tile.source).byteLength = byte + tile.source.byteLength := by
      rw [Text.byteLength_append, hfront]
    have hinput' : (past at' [tile]).input = Position.origin.after (front ++ tile.source) := by
      rw [past, hinput, Position.after_append, source_cons, source_nil, List.append_nil]
    have ih := forall₂_standsFor (front ++ tile.source) hseated hbyte hinput'
    rw [edits_cons, runs, List.filter_append, source_cons, ← List.append_assoc]
    cases tile with
    | lineFeed => exact ih
    | piece text => exact ih
    | edit change removed =>
      obtain ⟨hstart, hstop⟩ := htile
      have hkind := Progress.editRun_kind_ne at' removed change.text
      rw [Tile.runs, List.filter_cons_of_pos (by simpa using hkind)]
      refine List.Forall₂.cons ⟨hkind, ?_, ?_, ?_⟩ ih
      · rw [Progress.editRun]
        by_cases htext : change.text = [] <;> simp [htext]
      · rw [hstart, ← hfront, List.append_assoc, Text.positionAt?_append, ← hinput]
        rfl
      · rw [hstop, ← hfront, ← Text.byteLength_append, Tile.source,
          Text.positionAt?_append, Position.after_append, ← hinput]
        rfl

theorem copiesPiece_of_mem {run : Run} (hseated : Seated 0 tiles)
    (hrun : run ∈ runs ⟨Position.origin, Position.origin⟩ tiles) (hkind : run.kind = .unedited) :
    run.CopiesPiece (source tiles) (target tiles) := by
  obtain ⟨before, after, hruns⟩ := List.append_of_mem hrun
  obtain ⟨front, tile, back, rfl, -, htile⟩ := exists_tile_of_run hruns
  have seated := ((seated_append _ _ _).1 hseated).2.1
  cases tile with
  | lineFeed => cases htile
  | piece text =>
    obtain rfl := (List.cons.inj htile).1
    refine ⟨source front, text, source back, target front, target back, ?_, ?_, seated.2, ?_⟩
    · simp [Tile.source]
    · simp [Tile.target]
    · rw [Position.after_append]
      rfl
  | edit change removed =>
    obtain rfl := (List.cons.inj htile).1
    exact absurd hkind (Progress.editRun_kind_ne _ _ _)

end Tiles

namespace Record

/-- What a record says of a pass that made an output of a text by edits. -/
structure Accounts (record : Record) (text : Text) (edits : List Edit) (output : Text) : Prop where
  forward : ∀ run ∈ record.runs, run.start ≤ run.stop
  /-- The runs are in order and have no place in common. -/
  ordered : record.runs.Pairwise fun run later => run.start ≤ later.start ∧ run.stop ≤ later.start
  /-- One by one, the runs that are no copies stand for the edits by where they start. -/
  edited : List.Forall₂ (fun edit run => run.StandsFor text edit) (Edit.inOrder edits)
    (record.runs.filter (·.kind ≠ .unedited))
  /-- No other run has the range of an edit: there are as many as there are such edits. -/
  counted : ∀ edit ∈ edits, record.runs.countP (·.StandsFor text edit) =
    edits.countP fun other => other.span = edit.span ∧ (other.text = [] ↔ edit.text = [])
  /-- A character outside of all edits lies in one run, a copied one, unless it is a line feed. -/
  covered : ∀ {front : Text} {c : Char} {back : Text}, text = front ++ c :: back → c ≠ '\n' →
    (∀ edit ∈ edits, edit.covers front.byteLength = false) →
    ∃ before run after, record.runs = before ++ run :: after ∧ run.kind = .unedited ∧
      run.start ≤ Position.origin.after front ∧ Position.origin.after (front ++ [c]) ≤ run.stop ∧
      ∀ other ∈ before ++ after, ¬ other.contains (Position.origin.after front)
  /-- No column of a line feed or of a character of an edit lies in a copied run. -/
  clean : ∀ {front : Text} {c : Char} {back : Text}, text = front ++ c :: back →
    (c = '\n' ∨ ∃ edit ∈ edits, edit.covers front.byteLength = true) →
    ∀ run ∈ record.runs, run.kind = .unedited → ∀ position, Position.origin.after front ≤ position →
      position < Position.origin.after (front ++ [c]) → ¬ run.contains position
  /-- A run lands behind what the edits in front of it make of the text in front of it. -/
  generated : ∀ {before : List Run} {run : Run} {after : List Run}, record.runs = before ++ run :: after →
    ∃ front back written rest, text = front ++ back ∧ run.start = Position.origin.after front ∧
      output = written ++ rest ∧ run.generated = Position.origin.after written ∧
      Edit.spliceAll front ((Edit.inOrder edits).take (before.countP (·.kind ≠ .unedited))) = some written
  level : ∀ run ∈ record.runs, run.kind = .unedited → run.start.line = run.stop.line
  /-- The columns of a copied run hold the same characters on both sides. -/
  copied : ∀ run ∈ record.runs, run.kind = .unedited → ∀ columns, run.contains (run.start.right columns) →
    ∃ c, text.charAt? (run.start.right columns) = some c ∧
    output.charAt? (run.generated.right columns) = some c

end Record

theorem exists_of_meets {front piece back front' back' : Text} {c : Char} {position : Position}
    (h : front ++ piece ++ back = front' ++ c :: back') (hstart : Position.origin.after front ≤ position)
    (hstop : position < Position.origin.after (front ++ piece))
    (hle : Position.origin.after front' ≤ position) (hlt : position < Position.origin.after (front' ++ [c])) :
    ∃ inner tail, front' = front ++ inner ∧ piece = inner ++ c :: tail := by
  rw [List.append_assoc] at h
  rcases Text.append_eq_append_cons h with ⟨inner, rfl, -⟩ | ⟨inner, rfl, hpiece⟩
  · have hle' := Position.after_le_append Position.origin (front' ++ [c]) inner
    rw [← List.append_cons] at hle'
    exact absurd hlt (not_lt.2 (le_trans hle' hstart))
  · rcases Text.append_eq_append_cons hpiece with ⟨tail, rfl, -⟩ | ⟨inner, rfl, -⟩
    · exact ⟨inner, tail, rfl, rfl⟩
    · have hle' := Position.after_le_append Position.origin (front ++ piece) inner
      rw [List.append_assoc] at hle'
      exact absurd hstop (not_lt.2 (le_trans hle' hle))

theorem Run.StandsFor.contains {text front back : Text} {c : Char}
    {edit : Edit} {run : Run} {position : Position} (h : run.StandsFor text edit)
    (htext : text = front ++ c :: back) (hcovers : edit.covers front.byteLength = true)
    (hle : Position.origin.after front ≤ position) (hlt : position < Position.origin.after (front ++ [c])) :
    run.contains position := by
  simp only [Edit.covers, Bool.and_eq_true, decide_eq_true_eq] at hcovers
  have hstart := h.start
  have hstop := h.stop
  rw [Text.positionAt?, Option.map_eq_some_iff] at hstart hstop
  obtain ⟨⟨before, behind⟩, hcut, hstart⟩ := hstart
  obtain ⟨⟨before', behind'⟩, hcut', hstop⟩ := hstop
  obtain ⟨hsplit, hlength⟩ := Text.cut_eq_some hcut
  obtain ⟨hsplit', hlength'⟩ := Text.cut_eq_some hcut'
  simp only at hstart hstop
  rw [Run.contains_iff, ← hstart, ← hstop]
  constructor
  · obtain ⟨between, rfl, -⟩ := Text.exists_append_of_le (htext.symm.trans hsplit) (by omega)
    exact le_trans (Position.after_le_append _ _ _) hle
  · obtain ⟨between, hbefore, hback⟩ := Text.exists_append_of_le (hsplit'.symm.trans htext) (by omega)
    cases between with
    | nil =>
      rw [hbefore, List.append_nil] at hlength'
      omega
    | cons d between =>
      obtain ⟨rfl, -⟩ := List.cons.inj hback
      refine lt_of_lt_of_le hlt ?_
      rw [hbefore, List.append_cons front c between]
      exact Position.after_le_append _ _ _

theorem Run.CopiesPiece.charAt? {text output : Text} {run : Run}
    {columns : Nat} (h : run.CopiesPiece text output) (hcontains : run.contains (run.start.right columns)) :
    ∃ c, text.charAt? (run.start.right columns) = some c ∧
    output.charAt? (run.generated.right columns) = some c := by
  obtain ⟨front, piece, back, front', back', rfl, rfl, flat, rfl⟩ := h
  have hcolumns : columns < (piece.map Position.width).sum := by
    have hstop := (Run.contains_iff.1 hcontains).2
    rw [Position.after_append, Position.after_eq_of_flat _ flat, Position.lt_iff] at hstop
    simp only [Position.right] at hstop
    omega
  have reached : ∀ p : Position, p ≤ p.right columns := fun p => .inr ⟨rfl, Nat.le_add_right _ _⟩
  obtain ⟨c, hc⟩ := Text.exists_charFrom? flat hcolumns
  refine ⟨c, ?_, ?_⟩
  · rw [Text.charAt?, List.append_assoc, Text.charFrom?_append _ front (reached _)]
    exact hc _ back
  · rw [Text.charAt?, List.append_assoc, Text.charFrom?_append _ front' (reached _)]
    exact hc _ back'

theorem countP_of_forall₂ {α β : Type} {R : α → β → Prop} {p : α → Bool} {q : β → Bool}
    (h : ∀ a b, R a b → p a = q b) :
    ∀ {as : List α} {bs : List β}, List.Forall₂ R as bs → as.countP p = bs.countP q
  | _, _, .nil => rfl
  | _, _, .cons hab hrest => by
    rw [List.countP_cons, List.countP_cons, h _ _ hab, countP_of_forall₂ h hrest]

namespace Edit

variable {index : Nat} {text output : Text} {edits : List Edit} {record : Record}

theorem forall₂_standsFor_of_applyAll (happly : applyAll index text edits = .ok (output, record)) :
    List.Forall₂ (fun edit run => run.StandsFor text edit) (inOrder edits)
      (record.runs.filter (·.kind ≠ .unedited)) := by
  obtain ⟨tiles, rfl, -, hedits, hseated, hruns⟩ := Tiles.exists_of_applyFrom (applyAll_eq_ok happly)
  rw [← hedits, ← hruns]
  exact Tiles.forall₂_standsFor [] hseated rfl rfl

theorem copiesPiece_of_applyAll (happly : applyAll index text edits = .ok (output, record)) {run : Run}
    (hrun : run ∈ record.runs) (hkind : run.kind = .unedited) : run.CopiesPiece text output := by
  obtain ⟨tiles, rfl, rfl, -, hseated, hruns⟩ := Tiles.exists_of_applyFrom (applyAll_eq_ok happly)
  exact Tiles.copiesPiece_of_mem hseated (hruns ▸ hrun) hkind

theorem countP_standsFor (happly : applyAll index text edits = .ok (output, record)) (edit : Edit) :
    record.runs.countP (·.StandsFor text edit) =
      edits.countP fun other => other.span = edit.span ∧ (other.text = [] ↔ edit.text = []) := by
  have ofPair : ∀ (other : Edit) (run : Run), run.StandsFor text other →
      decide (other.span = edit.span ∧ (other.text = [] ↔ edit.text = [])) =
        decide (run.StandsFor text edit) := by
    intro other run hother
    rw [decide_eq_decide]
    constructor
    · rintro ⟨hspan, htext⟩
      exact ⟨hother.edited, hother.deleted.trans htext, hspan ▸ hother.start, hspan ▸ hother.stop⟩
    · intro hedit
      have hstart := Text.positionAt?_inj hother.start hedit.start
      have hstop := Text.positionAt?_inj hother.stop hedit.stop
      refine ⟨?_, hother.deleted.symm.trans hedit.deleted⟩
      change Span.mk other.span.start other.span.stop = Span.mk edit.span.start edit.span.stop
      rw [hstart, hstop]
  have onlyEdited : ∀ run ∈ record.runs, (decide (run.StandsFor text edit) && decide (run.kind ≠ .unedited)) =
      decide (run.StandsFor text edit) := by
    intro run _
    rw [← Bool.decide_and, decide_eq_decide]
    exact ⟨And.left, fun h => ⟨h, h.edited⟩⟩
  have inOrderPerm : (inOrder edits).Perm edits := Sorting.sort_perm _ edits
  rw [← inOrderPerm.countP_eq, countP_of_forall₂ ofPair (forall₂_standsFor_of_applyAll happly),
    List.countP_filter]
  exact List.countP_congr fun run hrun => by rw [onlyEdited run hrun]

theorem exists_standsFor (happly : applyAll index text edits = .ok (output, record))
    {edit : Edit} (hedit : edit ∈ edits) :
    ∃ run ∈ record.runs, run.StandsFor text edit := by
  have hcount : 0 < record.runs.countP (·.StandsFor text edit) := by
    rw [countP_standsFor happly, List.countP_pos_iff]
    exact ⟨edit, hedit, by simp⟩
  obtain ⟨run, hrun, hstands⟩ := List.countP_pos_iff.1 hcount
  exact ⟨run, hrun, of_decide_eq_true hstands⟩

theorem covered_of_applyAll (happly : applyAll index text edits = .ok (output, record))
    {front back : Text} {c : Char} (htext : text = front ++ c :: back)
    (hc : c ≠ '\n') (hspared : ∀ edit ∈ edits, edit.covers front.byteLength = false) :
    ∃ before run after, record.runs = before ++ run :: after ∧ run.kind = .unedited ∧
      run.start ≤ Position.origin.after front ∧ Position.origin.after (front ++ [c]) ≤ run.stop ∧
      ∀ other ∈ before ++ after, ¬ other.contains (Position.origin.after front) := by
  have hlanding : landing? edits front.byteLength = some _ := if_neg (by simpa using hspared)
  obtain ⟨front', -, -, -, hcopy⟩ := exists_copy_of_applyAll happly htext hlanding
  obtain ⟨run, hrun, hcopies⟩ := hcopy hc
  obtain ⟨before, after, hsplit⟩ := List.append_of_mem hrun
  refine ⟨before, run, after, hsplit, hcopies.kind, hcopies.start_le, ?_, ?_⟩
  · obtain ⟨start, piece, rest, _, _, hpiece, -, -, rfl⟩ := copiesPiece_of_applyAll happly hrun hcopies.kind
    have hlt : Position.origin.after front < Position.origin.after (front ++ [c]) := by
      rw [Position.after_append]
      exact Position.lt_after _ (by simp)
    obtain ⟨inner, tail, rfl, rfl⟩ :=
      exists_of_meets (hpiece.symm.trans htext) hcopies.start_le hcopies.lt_stop le_rfl hlt
    have hle := Position.after_le_append Position.origin (start ++ inner ++ [c]) tail
    simpa only [List.append_assoc, List.cons_append, List.nil_append] using hle
  · have order := (tiled_applyAll happly).pairwise
    rw [hsplit, List.pairwise_append, List.pairwise_cons] at order
    intro other hother hcontains
    obtain ⟨hle, hlt⟩ := Run.contains_iff.1 hcontains
    rcases List.mem_append.1 hother with hother | hother
    · have := (order.2.2 other hother run List.mem_cons_self).stop_le
      exact absurd hlt (not_lt.2 (le_trans this hcopies.start_le))
    · have := (order.2.1.1 other hother).stop_le
      exact absurd hcopies.lt_stop (not_lt.2 (le_trans this hle))

theorem clean_of_applyAll (happly : applyAll index text edits = .ok (output, record))
    {front back : Text} {c : Char} (htext : text = front ++ c :: back)
    (hbarred : c = '\n' ∨ ∃ edit ∈ edits, edit.covers front.byteLength = true)
    {run : Run} (hrun : run ∈ record.runs) (hkind : run.kind = .unedited) {position : Position}
    (hle : Position.origin.after front ≤ position) (hlt : position < Position.origin.after (front ++ [c])) :
    ¬ run.contains position := by
  intro hcontains
  rcases hbarred with rfl | ⟨edit, hedit, hcovers⟩
  · obtain ⟨start, piece, rest, _, _, hpiece, -, flat, rfl⟩ := copiesPiece_of_applyAll happly hrun hkind
    obtain ⟨hstart, hstop⟩ := Run.contains_iff.1 hcontains
    obtain ⟨inner, tail, -, rfl⟩ := exists_of_meets (hpiece.symm.trans htext) hstart hstop hle hlt
    exact flat (List.mem_append_right _ List.mem_cons_self)
  · -- The run of the edit reaches over the position too, and no two runs share one.
    obtain ⟨other, hother, hstands⟩ := exists_standsFor happly hedit
    obtain ⟨hstart, hstop⟩ := Run.contains_iff.1 (hstands.contains htext hcovers hle hlt)
    obtain ⟨hstart', hstop'⟩ := Run.contains_iff.1 hcontains
    rcases (tiled_applyAll happly).trichotomy hrun hother with rfl | hbefore | hbehind
    · exact hstands.edited hkind
    · exact absurd hstop' (not_lt.2 (le_trans hbefore.stop_le hstart))
    · exact absurd hstop (not_lt.2 (le_trans hbehind.stop_le hstart'))

theorem generated_of_applyAll (happly : applyAll index text edits = .ok (output, record))
    {before after : List Run} {run : Run} (hruns : record.runs = before ++ run :: after) :
    ∃ front back written rest, text = front ++ back ∧ run.start = Position.origin.after front ∧
      output = written ++ rest ∧ run.generated = Position.origin.after written ∧
      spliceAll front ((inOrder edits).take (before.countP (·.kind ≠ .unedited))) = some written := by
  obtain ⟨tiles, rfl, rfl, hedits, hseated, htiles⟩ := Tiles.exists_of_applyFrom (applyAll_eq_ok happly)
  obtain ⟨front, tile, back, rfl, rfl, hrun⟩ := Tiles.exists_tile_of_run (htiles.trans hruns)
  have hfront := Tiles.spliceAll_source [] ((Tiles.seated_append _ _ _).1 hseated).1 rfl
  obtain ⟨hstart, hgenerated⟩ := tile.start_of_runs hrun
  refine ⟨Tiles.source front, _, Tiles.target front, _, Tiles.source_append _ _,
    hstart, Tiles.target_append _ _, hgenerated, ?_⟩
  rw [← hedits, Tiles.countP_runs, Tiles.edits_append, List.take_left]
  exact hfront

/-- The record of a pass accounts for the pass. -/
theorem accounts_of_applyAll (happly : applyAll index text edits = .ok (output, record)) :
    record.Accounts text edits output := by
  have tiled := tiled_applyAll happly
  refine ⟨fun run hrun => (tiled.wellformed run hrun).start_le, ?_, forall₂_standsFor_of_applyAll happly,
    fun edit _ => countP_standsFor happly edit, covered_of_applyAll happly,
    fun htext hbarred run hrun hkind position hle hlt =>
      clean_of_applyAll happly htext hbarred hrun hkind hle hlt,
    generated_of_applyAll happly, fun run hrun hkind => (tiled.wellformed run hrun).level hkind,
    fun run hrun hkind columns hcontains => (copiesPiece_of_applyAll happly hrun hkind).charAt? hcontains⟩
  refine tiled.pairwise.imp_of_mem fun hrun _ h => ⟨?_, h.stop_le⟩
  exact le_trans (tiled.wellformed _ hrun).start_le h.stop_le

/-- Two lines: the first character is replaced by a line, one behind a wide character is deleted, and one is
inserted at the end. -/
theorem accounts_of_applyAll_two_lines :
    let text := ['a', '\n', '😀', 'b', 'c']
    let edits : List Edit := [⟨⟨6, 7⟩, none⟩, ⟨⟨8, 8⟩, some ['!']⟩, ⟨⟨0, 1⟩, some ['x', '\n']⟩]
    let record : Record := ⟨0, [⟨.replaced, ⟨0, 0⟩, ⟨0, 0⟩, ⟨0, 1⟩⟩, ⟨.unedited, ⟨2, 0⟩, ⟨1, 0⟩, ⟨1, 2⟩⟩,
      ⟨.deleted, ⟨2, 2⟩, ⟨1, 2⟩, ⟨1, 3⟩⟩, ⟨.unedited, ⟨2, 2⟩, ⟨1, 3⟩, ⟨1, 4⟩⟩,
      ⟨.replaced, ⟨2, 3⟩, ⟨1, 4⟩, ⟨1, 4⟩⟩]⟩
    applyAll 0 text edits = .ok (['x', '\n', '\n', '😀', 'c', '!'], record) ∧
      record.Accounts text edits ['x', '\n', '\n', '😀', 'c', '!'] := by
  intro text edits record
  have happly : applyAll 0 text edits = .ok (['x', '\n', '\n', '😀', 'c', '!'], record) := by decide
  exact ⟨happly, accounts_of_applyAll happly⟩

end Edit
end ClassWeave
