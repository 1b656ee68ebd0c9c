import ClassWeave.Proofs.Touching
/-!
# Texts behind a byte order mark

What stands behind a byte order mark is read as if the mark were not there, so the spans of its tree
do not count the mark. They are taken of the text with the mark, though, where they lie the length
of the mark too early. A text without helpers stays as it is, with the mark and without. Any other
is edited in the wrong places: a target that begins or ends inside the mark cannot be read, and an
edit behind it replaces what stands in front of what was meant.
-/

namespace ClassWeave

def Text.withMark (text : Text) : Text := Module.byteOrderMark :: text

def sourceWithMark (source : String) : String := String.ofList (Text.withMark source.toList)

theorem toList_sourceWithMark (source : String) :
    (sourceWithMark source).toList = Text.withMark source.toList := String.toList_ofList

def Module.withMark (m : Module) : Module := ⟨m.text.withMark, m.items⟩

def Span.earlier (span : Span) (bytes : Nat) : Span := ⟨span.start - bytes, span.stop - bytes⟩

def Edit.earlier (edit : Edit) (bytes : Nat) : Edit := ⟨edit.span.earlier bytes, edit.replacement⟩

def Span.Behind (span : Span) (bytes : Nat) : Prop := bytes ≤ span.start ∧ bytes ≤ span.stop

/-- Whether a span starts or stops inside a mark. -/
def Span.Straddles (span : Span) : Prop :=
  (0 < span.start ∧ span.start < 3) ∨ (0 < span.stop ∧ span.stop < 3)

theorem Module.utf8Size_byteOrderMark : byteOrderMark.utf8Size = 3 := by decide

/-! ## Reading -/

theorem Text.slice_cons {c : Char} {text : Text} {span : Span} (h : c.utf8Size ≤ span.start) :
    slice (c :: text) span = slice text (span.earlier c.utf8Size) := by
  have hpos := c.utf8Size_pos
  obtain ⟨start, hstart⟩ := Nat.exists_eq_add_of_lt (show 0 < span.start by omega)
  rw [Nat.zero_add] at hstart
  unfold slice Span.earlier
  rw [hstart, dropBytes, ← hstart]
  dsimp only
  congr 1
  omega

theorem Text.cut_cons {c : Char} {text : Text} {n : Nat} (h : c.utf8Size ≤ n) :
    cut n (c :: text) = (cut (n - c.utf8Size) text).map fun (front, back) => (c :: front, back) := by
  have hpos := c.utf8Size_pos
  obtain ⟨m, rfl⟩ := Nat.exists_eq_add_of_lt (show 0 < n by omega)
  rw [cut, if_pos (by omega)]

theorem Text.slice?_cons {c : Char} {text : Text} {span : Span} (hstart : c.utf8Size ≤ span.start)
    (hstop : c.utf8Size ≤ span.stop) : slice? (c :: text) span = slice? text (span.earlier c.utf8Size) := by
  unfold slice? Span.earlier
  rw [cut_cons hstart]
  have hbackwards : span.stop - c.utf8Size < span.start - c.utf8Size ↔ span.stop < span.start := by omega
  have hlength : span.stop - c.utf8Size - (span.start - c.utf8Size) = span.stop - span.start := by omega
  simp only [hbackwards, hlength]
  cases cut (span.start - c.utf8Size) text <;> rfl

namespace Module

variable {text : Text}

theorem body_of_plain (plain : text.head? ≠ some byteOrderMark) : body text = text := by
  unfold body
  split
  · rename_i c rest
    rw [if_neg fun h => plain (by rw [h]; rfl)]
  · rfl

theorem body_withMark (text : Text) : body text.withMark = text := by
  unfold Text.withMark body
  exact if_pos rfl

theorem read_withMark (plain : text.head? ≠ some byteOrderMark) (elements : Bool) :
    read text.withMark elements = (read text elements).map withMark := by
  unfold read
  rw [body_withMark, body_of_plain plain]
  dsimp only
  split
  · rfl
  · rfl

theorem range_withMark (m : Module) (span : Span) :
    (m.withMark.range span).earlier 3 = m.range (span.earlier 3) ∧
    (3 ≤ span.start → 3 ≤ (m.withMark.range span).start) ∧
    (3 ≤ span.stop → 3 ≤ (m.withMark.range span).stop) := by
  have hlength : m.withMark.text.byteLength = 3 + m.text.byteLength := by
    rw [← utf8Size_byteOrderMark]
    rfl
  unfold range Span.earlier
  rw [hlength]
  simp only [Span.mk.injEq]
  omega

/-- What the text with the mark holds at a span stands further in front in the text alone. -/
theorem textAt_withMark (m : Module) {span : Span} (h : 3 ≤ span.start) :
    m.withMark.textAt span = m.textAt (span.earlier 3) := by
  obtain ⟨hrange, hstart, -⟩ := m.range_withMark span
  unfold textAt
  rw [← hrange]
  exact Text.slice_cons (utf8Size_byteOrderMark ▸ hstart h)

theorem textAt?_withMark (m : Module) {span : Span} (h : span.Behind 3) :
    m.withMark.textAt? span = m.textAt? (span.earlier 3) := by
  obtain ⟨hrange, hstart, hstop⟩ := m.range_withMark span
  unfold textAt?
  rw [← hrange]
  exact Text.slice?_cons (utf8Size_byteOrderMark ▸ hstart h.1) (utf8Size_byteOrderMark ▸ hstop h.2)

theorem not_boundary_inside {byte : Nat} (hpos : 0 < byte) (hlt : byte < 3) :
    ¬ text.withMark.Boundary byte := by
  rintro ⟨front, back, htext, rfl⟩
  cases front with
  | nil => exact absurd hpos (lt_irrefl 0)
  | cons c front =>
    obtain ⟨rfl, -⟩ := List.cons.inj htext
    rw [Text.byteLength_cons, utf8Size_byteOrderMark] at hlt
    omega

theorem not_admits_withMark (m : Module) {span : Span} (h : span.Straddles) :
    m.withMark.admits span = false := by
  have hlength : 3 ≤ m.withMark.text.byteLength := Nat.le_add_right 3 m.text.byteLength
  by_contra hadmits
  rw [Bool.not_eq_false, admits_iff] at hadmits
  obtain ⟨-, hstart, hstop⟩ := hadmits
  simp only [range] at hstart hstop
  rcases h with ⟨hpos, hlt⟩ | ⟨hpos, hlt⟩
  · rw [Nat.min_eq_left (by omega)] at hstart
    exact not_boundary_inside hpos hlt hstart
  · rw [Nat.min_eq_left (by omega)] at hstop
    exact not_boundary_inside hpos hlt hstop

end Module

/-! ## Editing -/

theorem Sorting.sort_map {α β : Type} {notAfter : α → α → Bool}
    {notAfter' : β → β → Bool} {f : α → β} {items : List α}
    (h : ∀ a ∈ items, ∀ b ∈ items, notAfter' (f a) (f b) = notAfter a b) :
    sort notAfter' (items.map f) = (sort notAfter items).map f := by
  have insert_map : ∀ item (others : List α),
    (∀ other ∈ others, notAfter' (f item) (f other) = notAfter item other) →
      insert notAfter' (f item) (others.map f) = (insert notAfter item others).map f := by
    intro item others hsame
    induction others with
    | nil => rfl
    | cons first rest ih =>
      rw [List.map_cons, insert, insert, hsame first List.mem_cons_self]
      by_cases hbefore : notAfter item first = true
      · rw [if_pos hbefore, if_pos hbefore]
        rfl
      · rw [if_neg hbefore, if_neg hbefore, ih fun other hother =>
          hsame other (List.mem_cons_of_mem _ hother)]
        rfl
  induction items with
  | nil => rfl
  | cons first rest ih =>
    have hrest := ih fun a ha b hb => h a (List.mem_cons_of_mem _ ha) b (List.mem_cons_of_mem _ hb)
    rw [List.map_cons, sort, sort, hrest]
    apply insert_map
    intro other hother
    exact h first List.mem_cons_self other (List.mem_cons_of_mem _ ((mem_sort _).1 hother))

namespace Edit

theorem earlier_zero (edit : Edit) : edit.earlier 0 = edit := rfl

theorem output_cons (cursor : Nat) (at' : Progress) (rest : Text) (edit : Edit) (edits : List Edit) :
    (applyFrom cursor at' rest (edit :: edits)).map Prod.fst =
      if edit.span.start < cursor then .error .overlap
      else if edit.span.stop < edit.span.start then .error .backwards
      else match rest.cut (edit.span.start - cursor) with
        | none => .error .misplaced
        | some (kept, rest) =>
          match rest.cut (edit.span.stop - edit.span.start) with
          | none => .error .misplaced
          | some (removed, rest) =>
            ((applyFrom edit.span.stop ((at'.copy kept).edit removed edit.text) rest edits).map Prod.fst).map
              (kept ++ edit.text ++ ·) := by
  rw [applyFrom]
  split
  · rfl
  split
  · rfl
  rcases rest.cut (edit.span.start - cursor) with _ | ⟨kept, behind⟩
  · rfl
  dsimp only
  rcases behind.cut (edit.span.stop - edit.span.start) with _ | ⟨removed, behind⟩
  · rfl
  dsimp only
  cases applyFrom edit.span.stop ((at'.copy kept).edit removed edit.text) behind edits with
  | error fault => rfl
  | ok reply => rfl

theorem output_of_earlier (bytes : Nat) :
    ∀ {edits : List Edit} {cursor : Nat} (at' at'' : Progress) (rest : Text),
    (∀ edit ∈ edits, edit.span.Behind bytes) →
    (applyFrom (cursor + bytes) at' rest edits).map Prod.fst =
      (applyFrom cursor at'' rest (edits.map (·.earlier bytes))).map Prod.fst
  | [], cursor, at', at'', rest, _ => rfl
  | edit :: edits, cursor, at', at'', rest, h => by
    obtain ⟨⟨hstart, hstop⟩, hrest⟩ := List.forall_mem_cons.1 h
    have hstart' : (edit.earlier bytes).span.start = edit.span.start - bytes := rfl
    have hstop' : (edit.earlier bytes).span.stop = edit.span.stop - bytes := rfl
    rw [List.map_cons, output_cons, output_cons, hstart', hstop']
    by_cases overlaps : edit.span.start < cursor + bytes
    · have overlaps' : edit.span.start - bytes < cursor := by omega
      rw [if_pos overlaps, if_pos overlaps']
    have apart : ¬ edit.span.start - bytes < cursor := by omega
    by_cases backwards : edit.span.stop < edit.span.start
    · have backwards' : edit.span.stop - bytes < edit.span.start - bytes := by omega
      rw [if_neg overlaps, if_neg apart, if_pos backwards, if_pos backwards']
    have forward : ¬ edit.span.stop - bytes < edit.span.start - bytes := by omega
    have hkept : edit.span.start - bytes - cursor = edit.span.start - (cursor + bytes) := by omega
    have hgone : edit.span.stop - bytes - (edit.span.start - bytes) =
      edit.span.stop - edit.span.start := by omega
    rw [if_neg overlaps, if_neg apart, if_neg backwards, if_neg forward, hkept, hgone]
    rcases rest.cut (edit.span.start - (cursor + bytes)) with _ | ⟨kept, behind⟩
    · rfl
    dsimp only
    rcases behind.cut (edit.span.stop - edit.span.start) with _ | ⟨removed, behind⟩
    · rfl
    have ih :=
      @output_of_earlier bytes edits (edit.span.stop - bytes) ((at'.copy kept).edit removed edit.text)
        ((at''.copy kept).edit removed (edit.earlier bytes).text) behind hrest
    rw [Nat.sub_add_cancel hstop] at ih
    dsimp only
    rw [ih]
    rfl

theorem output_of_cons {c : Char} {edits : List Edit} {cursor : Nat} (at' at'' : Progress) (rest : Text)
    (h : ∀ edit ∈ edits, cursor + c.utf8Size ≤ edit.span.start) :
    (applyFrom cursor at' (c :: rest) edits).map Prod.fst =
      ((applyFrom (cursor + c.utf8Size) at'' rest edits).map Prod.fst).map (c :: ·) := by
  cases edits with
  | nil => rfl
  | cons edit edits =>
    have hstart := h edit List.mem_cons_self
    have apart : ¬ edit.span.start < cursor := by omega
    have apart' : ¬ edit.span.start < cursor + c.utf8Size := by omega
    have hkept : edit.span.start - cursor - c.utf8Size = edit.span.start - (cursor + c.utf8Size) := by omega
    rw [output_cons, output_cons, if_neg apart, if_neg apart', Text.cut_cons (by omega), hkept]
    by_cases backwards : edit.span.stop < edit.span.start
    · rw [if_pos backwards, if_pos backwards]
      rfl
    rw [if_neg backwards, if_neg backwards]
    rcases rest.cut (edit.span.start - (cursor + c.utf8Size)) with _ | ⟨kept, behind⟩
    · rfl
    dsimp only [Option.map_some]
    rcases behind.cut (edit.span.stop - edit.span.start) with _ | ⟨removed, behind⟩
    · rfl
    have hsame := @output_of_earlier 0 edits edit.span.stop ((at'.copy (c :: kept)).edit removed edit.text)
      ((at''.copy kept).edit removed edit.text) behind fun _ _ => ⟨Nat.zero_le _, Nat.zero_le _⟩
    rw [List.map_congr_left fun edit _ => earlier_zero edit, List.map_id'] at hsame
    dsimp only
    rw [Nat.add_zero] at hsame
    rw [hsame]
    cases (applyFrom edit.span.stop ((at''.copy kept).edit removed edit.text) behind edits).map Prod.fst with
    | error fault => rfl
    | ok output => rfl

theorem inOrder_earlier {edits : List Edit} {bytes : Nat} (h : ∀ edit ∈ edits, edit.span.Behind bytes) :
    inOrder (edits.map (·.earlier bytes)) = (inOrder edits).map (·.earlier bytes) := by
  apply Sorting.sort_map
  intro a ha b hb
  have hstart := (h a ha).1
  have hstart' := (h b hb).1
  show decide (a.span.start - bytes ≤ b.span.start - bytes) = decide (a.span.start ≤ b.span.start)
  rw [decide_eq_decide]
  omega

theorem output_applyAll (index : Nat) (text : Text) (edits : List Edit) :
    (applyAll index text edits).map Prod.fst =
    (applyFrom 0 ⟨Position.origin, Position.origin⟩ text (inOrder edits)).map Prod.fst := by
  unfold applyAll
  cases applyFrom 0 ⟨Position.origin, Position.origin⟩ text (inOrder edits) with
  | error fault => rfl
  | ok reply => rfl

theorem output_of_withMark (index : Nat) (text : Text) {edits : List Edit}
    (h : ∀ edit ∈ edits, edit.span.Behind 3) :
    (applyAll index text.withMark edits).map Prod.fst =
      ((applyAll index text (edits.map (·.earlier 3))).map Prod.fst).map Text.withMark := by
  have hbehind : ∀ edit ∈ inOrder edits, edit.span.Behind 3 := fun edit hedit => h edit (mem_inOrder.1 hedit)
  have hmark := @output_of_cons Module.byteOrderMark (inOrder edits) 0
    ⟨Position.origin, Position.origin⟩ ⟨Position.origin, Position.origin⟩ text fun edit hedit => by
      rw [Module.utf8Size_byteOrderMark, Nat.zero_add]
      exact (hbehind edit hedit).1
  rw [Module.utf8Size_byteOrderMark] at hmark
  rw [output_applyAll, output_applyAll, inOrder_earlier h, Text.withMark, hmark,
    output_of_earlier 3 _ ⟨Position.origin, Position.origin⟩ text hbehind]
  rfl

end Edit

/-! ## Transforming -/

section
variable {options : Options} {text : Text}

theorem outcome_of_no_passes (text : Text) (hlimit : options.maxPasses = 0) :
    (transformTrace text options).outcome = .error (.pass (.passLimit 0)) := by
  unfold transformTrace Rule.run
  rw [hlimit]
  rfl

theorem outcome_of_unreadable {fault : ScriptFault} (hlimit : 0 < options.maxPasses)
    (hread : Module.read text (Rule.elementsIn options.fileName) = .error fault) :
    (transformTrace text options).outcome =
      .error (.pass (.unreadable (options.fileName.getD "") fault)) := by
  obtain ⟨limit, hlimit'⟩ := Nat.exists_eq_add_of_lt hlimit
  unfold Rule.elementsIn at hread
  unfold transformTrace Rule.run
  rw [hlimit', Rule.passes]
  simp only [hread]
  rfl

theorem code_of_no_import {m : Module} (hlimit : 0 < options.maxPasses)
    (hread : Module.read text (Rule.elementsIn options.fileName) = .ok m)
    (hnone : m.helperImports options = []) :
    (transformTrace text options).outcome.map (·.code) = .ok text := by
  have hseed := @seed_first options m
  rw [aliasesIn_eq_nil fun found hfound => by rw [hnone] at hfound; cases hfound] at hseed
  obtain ⟨record, hrun⟩ :=
    Rule.run_of_collectEdits_eq_nil hlimit hread hseed (collectEdits_of_no_import hnone)
  unfold transformTrace
  rw [hrun]
  rfl

theorem code_of_withMark (plain : text.head? ≠ some Module.byteOrderMark)
    (hnone : ∀ m, Module.read text (Rule.elementsIn options.fileName) = .ok m →
      m.helperImports options = []) :
    (transformTrace text.withMark options).outcome.map (·.code) =
      (transformTrace text options).outcome.map fun fixpoint => fixpoint.code.withMark := by
  by_cases hlimit : options.maxPasses = 0
  · rw [outcome_of_no_passes text hlimit, outcome_of_no_passes text.withMark hlimit]
    rfl
  have hpos := Nat.pos_of_ne_zero hlimit
  have hmarked := Module.read_withMark plain (Rule.elementsIn options.fileName)
  cases hread : Module.read text (Rule.elementsIn options.fileName) with
  | error fault =>
    rw [hread] at hmarked
    rw [outcome_of_unreadable hpos hread, outcome_of_unreadable hpos hmarked]
    rfl
  | ok m =>
    rw [hread] at hmarked
    have hcode := code_of_no_import hpos hread (hnone m hread)
    rw [code_of_no_import hpos hmarked (hnone m hread)]
    cases hrun : (transformTrace text options).outcome with
    | error failure =>
      rw [hrun] at hcode
      cases hcode
    | ok fixpoint =>
      rw [hrun] at hcode
      have hsame : fixpoint.code = text := Except.ok.inj hcode
      show _ = Except.ok fixpoint.code.withMark
      rw [hsame]

theorem code_of_transform (source : String) (options : Options) : (transform source options).map (·.code) =
    ((transformTrace source.toList options).outcome.map (·.code)).map String.ofList := by
  unfold transform
  cases (transformTrace source.toList options).outcome with
  | error failure => rfl
  | ok fixpoint => rfl

theorem transform_of_code {source marked : String}
    (h : (transformTrace marked.toList options).outcome.map (·.code) =
      (transformTrace source.toList options).outcome.map fun fixpoint => fixpoint.code.withMark) :
    (transform marked options).map (·.code) = (transform source options).map fun out =>
      sourceWithMark out.code := by
  rw [code_of_transform, h]
  unfold transform
  cases (transformTrace source.toList options).outcome with
  | error failure => rfl
  | ok fixpoint => simp [Except.map, sourceWithMark]

theorem transform_of_refused {source : String} {m : Module} {failure : TransformFailure}
    (hlimit : 0 < options.maxPasses)
    (hread : Module.read source.toList (Rule.elementsIn options.fileName) = .ok m)
    (hedits : (transformer options).collectEdits ⟨0, m⟩ (aliasesIn options m.items) = .error failure) :
    transform source options = .error failure := by
  have hpass : (transformer options).onePass ⟨0, m⟩ (transformer options).initial = .error failure := by
    unfold Rule.onePass
    rw [seed_first]
    show ((transformer options).collectEdits ⟨0, m⟩ (aliasesIn options m.items)).bind _ = _
    rw [hedits]
    rfl
  obtain ⟨limit, hlimit'⟩ := Nat.exists_eq_add_of_lt hlimit
  unfold Rule.elementsIn at hread
  unfold transform transformTrace Rule.run
  rw [hlimit', Rule.passes]
  simp only [hread, List.length_nil, hpass]
  rfl

/-- A pass that would edit a target that straddles the mark fails. -/
theorem collectEdits_of_straddling {m : Module} {aliases : Aliases} (nested : Node.AllNested m.items)
    {target : Node × HelperTarget}
    (htarget : target ∈ (transformer options).frontier ⟨0, m.withMark⟩ aliases (Node.allTargets m.items))
    (h : target.1.span.Straddles) :
    ∃ failure, (transformer options).collectEdits ⟨0, m.withMark⟩ aliases = .error failure ∧
      (failure = .pass (.misfit .misplaced) ∨ ∃ node ∈ Node.allTargets m.items, ∃ picked,
        pick options ⟨0, m.withMark⟩ aliases node = some picked ∧
          (transformer options).replace ⟨0, m.withMark⟩ aliases picked = .error failure) := by
  cases hedits : (transformer options).collectEdits ⟨0, m.withMark⟩ aliases with
  | ok edits =>
    rw [Rule.collectEdits_eq_mapM nested] at hedits
    have hadmits := Rule.admits_of_mapM hedits target htarget
    rw [m.not_admits_withMark h] at hadmits
    cases hadmits
  | error failure =>
    obtain ⟨node, hnode, picked, hpicked, -, hreplaced⟩ := Rule.collectEdits_error hedits
    refine ⟨failure, rfl, ?_⟩
    rcases Rule.replaceAt_eq_error hreplaced with hreplace | ⟨-, rfl⟩
    · exact .inr ⟨node, hnode, picked, hpicked, hreplace⟩
    · exact .inl rfl

end

/-- A source behind a byte order mark has the tree, or the fault, of the source alone. It is
transformed alike as long as it imports no helper. What is read at a span, and what an edit of the
first pass replaces, stands three bytes further in front than in the source alone, and if the first
pass would edit a target that starts or stops inside the mark the source is not transformed. -/
theorem transform_withMark {source : String} (plain : source.toList.head? ≠ some Module.byteOrderMark)
    (options : Options) :
    Module.read (sourceWithMark source).toList (Rule.elementsIn options.fileName) =
        (Module.read source.toList (Rule.elementsIn options.fileName)).map Module.withMark ∧
      ((∀ m, Module.read source.toList (Rule.elementsIn options.fileName) = .ok m →
        m.helperImports options = []) →
        (transform (sourceWithMark source) options).map (·.code) =
          (transform source options).map fun out => sourceWithMark out.code) ∧
      ∀ m, Module.read source.toList (Rule.elementsIn options.fileName) = .ok m →
        (∀ span, 3 ≤ span.start → m.withMark.textAt span = m.textAt (span.earlier 3)) ∧
        (∀ span, span.Behind 3 → m.withMark.textAt? span = m.textAt? (span.earlier 3)) ∧
        (∀ edits, (transformer options).collectEdits ⟨0, m.withMark⟩ (aliasesIn options m.items) = .ok edits →
          (∀ edit ∈ edits, edit.span.Behind 3) → (Edit.applyAll 0 m.withMark.text edits).map Prod.fst =
            ((Edit.applyAll 0 m.text (edits.map (·.earlier 3))).map Prod.fst).map Text.withMark) ∧
        (0 < options.maxPasses → Node.AllNested m.items →
          ∀ target ∈ (transformer options).frontier ⟨0, m.withMark⟩ (aliasesIn options m.items)
            (Node.allTargets m.items), target.1.span.Straddles →
            ∃ failure, transform (sourceWithMark source) options = .error failure ∧
              (failure = .pass (.misfit .misplaced) ∨ ∃ node ∈ Node.allTargets m.items, ∃ picked,
                pick options ⟨0, m.withMark⟩ (aliasesIn options m.items) node = some picked ∧
                  (transformer options).replace ⟨0, m.withMark⟩ (aliasesIn options m.items) picked =
                    .error failure)) := by
  have hmarked := Module.read_withMark plain (Rule.elementsIn options.fileName)
  rw [← toList_sourceWithMark] at hmarked
  refine ⟨hmarked, fun hnone =>
    transform_of_code (toList_sourceWithMark source ▸ code_of_withMark plain hnone), ?_⟩
  intro m hread
  rw [hread] at hmarked
  refine ⟨fun span h => m.textAt_withMark h, fun span h => m.textAt?_withMark h,
    fun edits _ => Edit.output_of_withMark 0 m.text, ?_⟩
  intro hlimit nested target htarget hstraddles
  obtain ⟨failure, hedits, hwhy⟩ := collectEdits_of_straddling nested htarget hstraddles
  exact ⟨failure, transform_of_refused hlimit hmarked hedits, hwhy⟩

/-- Whether the first pass over a source behind a byte order mark would edit a target that straddles
the mark, and could replace every target that is picked. -/
def straddlesMark (source : String) (options : Options) : Bool :=
  (Module.read source.toList (Rule.elementsIn options.fileName)).toOption.any fun m =>
    decide (Node.AllNested m.items) &&
    ((transformer options).frontier ⟨0, m.withMark⟩ (aliasesIn options m.items) (Node.allTargets m.items)).any
      (fun target => 0 < target.1.span.start && target.1.span.start < 3) &&
    (Node.allTargets m.items).all fun node =>
      (pick options ⟨0, m.withMark⟩ (aliasesIn options m.items) node).all fun picked =>
      ((transformer options).replace ⟨0, m.withMark⟩ (aliasesIn options m.items) picked).toOption.isSome

def importsNoHelper (source : String) (options : Options) : Bool :=
  (Module.read source.toList (Rule.elementsIn options.fileName)).toOption.any fun m =>
    (m.helperImports options).isEmpty

set_option maxRecDepth 100000 in
/-- A template behind an import that is no helper's, and an import of a helper behind a semicolon. -/
theorem transform_withMark_two_imports :
    (transform (sourceWithMark "import \x7b a \x7d from 'b';\na(\x60c\x60);") {}).map (·.code) =
        (transform "import \x7b a \x7d from 'b';\na(\x60c\x60);" {}).map
          (fun out => sourceWithMark out.code) ∧
      transform (sourceWithMark ";import \x7b tx \x7d from \"@mkx419/tx\";") {} =
        .error (.pass (.misfit .misplaced)) := by
  have hfree : importsNoHelper "import \x7b a \x7d from 'b';\na(\x60c\x60);" {} = true := by decide +kernel
  have hstraddles : straddlesMark ";import \x7b tx \x7d from \"@mkx419/tx\";" {} = true := by decide +kernel
  constructor
  · obtain ⟨-, hcode, -⟩ := @transform_withMark "import \x7b a \x7d from 'b';\na(\x60c\x60);" (by decide) {}
    apply hcode
    intro m hread
    unfold importsNoHelper at hfree
    rw [hread] at hfree
    exact List.isEmpty_iff.1 hfree
  · obtain ⟨-, -, hedits⟩ := @transform_withMark ";import \x7b tx \x7d from \"@mkx419/tx\";" (by decide) {}
    unfold straddlesMark at hstraddles
    obtain ⟨m, hread, hstraddles⟩ := (Option.any_eq_true _ _).1 hstraddles
    simp only [Bool.and_eq_true, decide_eq_true_eq] at hstraddles
    obtain ⟨⟨hnested, hsome⟩, hreplaced⟩ := hstraddles
    obtain ⟨target, htarget, hinside⟩ := List.any_eq_true.1 hsome
    rw [Bool.and_eq_true, decide_eq_true_eq, decide_eq_true_eq] at hinside
    obtain ⟨-, -, -, hrefused⟩ := hedits m (toOption_eq_some_iff.1 hread)
    obtain ⟨failure, hresult, rfl | ⟨node, hnode, picked, hpicked, hreplace⟩⟩ :=
      hrefused (by decide) hnested target htarget (.inl hinside)
    · exact hresult
    · have hall := List.all_eq_true.1 hreplaced node hnode
      rw [hpicked, Option.all_some, hreplace] at hall
      cases hall

set_option maxRecDepth 100000 in
/-- Behind a mark the import is deleted three bytes too early. -/
example :
    (transformTrace "abc;import \x7b tx \x7d from \"@mkx419/tx\"   ;".toList {}).outcome.toOption.map
      (·.code) = some "abc;".toList ∧
      (transformTrace (Text.withMark "abc;import \x7b tx \x7d from \"@mkx419/tx\"   ;".toList)
        {}).outcome.toOption.map (·.code) =
        some (Text.withMark "a  ;".toList) := by
  decide +kernel

end ClassWeave
