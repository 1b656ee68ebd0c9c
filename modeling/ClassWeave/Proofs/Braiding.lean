import Mathlib.Algebra.Order.BigOperators.Group.List
import Mathlib.Algebra.Order.Group.Nat
import ClassWeave.Proofs.Bulk
import ClassWeave.Proofs.Stretches
import ClassWeave.Proofs.TemplateReading
/-!
# Braided templates

The text of a template is braided of static chunks and of what stands in its braces. What is written
from characters and expressions and read as a template with as heavy expressions is the template of
those characters and expressions.
-/

namespace ClassWeave

open Text (isHeavy bulk heft Sealed)

/-! ## What counts of a sequence -/

section
variable {α β : Type}

/-- What counts of the characters and expressions of a sequence, with the brace behind each expression. -/
def tally (f : α → Nat) (sequence : List (Char ⊕ α)) : Nat :=
  (sequence.map (Sum.elim (fun c => (isHeavy c).toNat) fun expression => f expression + 1)).sum

theorem tally_append (f : α → Nat) (a b : List (Char ⊕ α)) : tally f (a ++ b) = tally f a + tally f b := by
  rw [tally, List.map_append, List.sum_append]
  rfl

theorem tally_cons (f : α → Nat) (place : Char ⊕ α) (rest : List (Char ⊕ α)) :
    tally f (place :: rest) = tally f [place] + tally f rest := tally_append f [place] rest

theorem tally_char (f : α → Nat) (c : Char) : tally f [.inl c] = (isHeavy c).toNat := Nat.add_zero _

theorem tally_expression (f : α → Nat) (expression : α) : tally f [.inr expression] = f expression + 1 :=
  Nat.add_zero _

theorem tally_chars (f : α → Nat) : ∀ text : Text, tally f (text.map .inl) = heft text
  | [] => rfl
  | c :: text => by rw [List.map_cons, tally_cons, tally_chars f text, tally_char, Text.heft_cons]

theorem tally_map (f : β → Nat) (g : α → β) (sequence : List (Char ⊕ α)) :
    tally f (sequence.map (Sum.map id g)) = tally (f ∘ g) sequence := by
  rw [tally, List.map_map, tally]
  congr 2
  funext place
  cases place <;> rfl

theorem tally_eq (f : α → Nat) : ∀ sequence : List (Char ⊕ α),
    tally f sequence = tally (fun _ => 0) sequence + ((embeddedIn sequence).map f).sum
  | [] => rfl
  | .inl c :: rest => by
    rw [tally_cons, tally_cons fun _ => 0, tally_eq f rest, tally_char, tally_char, ← Nat.add_assoc]
    rfl
  | .inr expression :: rest => by
    have hsum : ((embeddedIn (.inr expression :: rest)).map f).sum =
      f expression + ((embeddedIn rest).map f).sum := rfl
    rw [tally_cons, tally_cons fun _ => 0, tally_eq f rest, tally_expression, tally_expression, hsum]
    omega

theorem tally_le_of_forall₂ {R : α → β → Prop} {f : α → Nat} {g : β → Nat} (hle : ∀ a b, R a b → f a ≤ g b)
    {a : List (Char ⊕ α)} {b : List (Char ⊕ β)} (h : List.Forall₂ (Sum.LiftRel (· = ·) R) a b) :
    tally f a ≤ tally g b := by
  induction h with
  | nil => exact Nat.le_refl _
  | cons hplace _ ih =>
    rw [tally_cons f, tally_cons g]
    refine Nat.add_le_add ?_ ih
    cases hplace with
    | inl heq => rw [heq, tally_char, tally_char]
    | inr hrel =>
      rw [tally_expression, tally_expression]
      exact Nat.succ_le_succ (hle _ _ hrel)

theorem weave_forall₂ {R : α → β → Prop} :
    ∀ (chunks : List Chunk) {a : List α} {b : List β}, List.Forall₂ R a b →
    List.Forall₂ (Sum.LiftRel (· = ·) R) (weave chunks a) (weave chunks b)
  | [], _, _, _ => by rw [weave, weave]; exact .nil
  | chunk :: chunks, _, _, .nil => by
    rw [weave, weave]
    exact List.rel_append (forall₂_chars chunk.value) (weave_forall₂ chunks .nil)
  | chunk :: chunks, _, _, .cons hhead hrest => by
    rw [weave, weave]
    exact List.rel_append (forall₂_chars chunk.value) (.cons (.inr hhead) (weave_forall₂ chunks hrest))

theorem tally_stretches_le (f : α → Nat) (sequence : List (Char ⊕ α)) :
    ((stretches sequence).map (tally f)).sum ≤ tally f sequence := by
  have hfilter : ∀ list : List (List (Char ⊕ α)),
    ((list.filter (!·.isEmpty)).map (tally f)).sum ≤ (list.map (tally f)).sum :=
    fun list => (List.filter_sublist.map (tally f)).sum_le_sum fun _ _ => Nat.zero_le _
  refine (hfilter _).trans ?_
  induction sequence with
  | nil => exact Nat.le_refl _
  | cons place rest ih =>
    obtain ⟨first, more, hsplit⟩ := List.exists_cons_of_ne_nil (List.splitOnP_ne_nil isGap rest)
    rw [hsplit, List.map_cons, List.sum_cons] at ih
    rw [List.splitOnP_cons_eq_if_modifyHead, hsplit, tally_cons]
    split
    · have hnone : tally f ([] : List (Char ⊕ α)) = 0 := rfl
      rw [List.map_cons, List.sum_cons, List.map_cons, List.sum_cons, hnone]
      omega
    · rw [List.modifyHead_cons, List.map_cons, List.sum_cons, tally_cons]
      omega

end

/-! ## Writing -/

namespace TemplateText

def escapeChar (c : Char) (opens : Bool) : Text :=
  if c = mark then ['\\', mark]
  else if c = '\\' then ['\\', '\\']
  else if c = '\r' then ['\\', 'r']
  else if c = '$' && opens then ['\\', '$']
  else [c]

theorem escape_cons (c : Char) (rest : Text) :
    escape (c :: rest) = escapeChar c (decide (rest.head? = some '\x7b')) ++ escape rest := by
  have hsame : (rest.head? == some '\x7b') = decide (rest.head? = some '\x7b') := beq_eq_decide _ _
  rw [escape, escapeChar, hsame]
  split_ifs <;> rfl

theorem escapeChar_of_ne {c : Char} (h : c ≠ '$') (opens : Bool) :
    escapeChar c opens = escapeChar c false := by
  simp [escapeChar, h]

theorem sealed_escapeChar (c : Char) (opens : Bool) :
    Sealed (escapeChar c opens) ∧ bulk (escapeChar c opens) = (isHeavy c).toNat := by
  have hescaped : ∀ d : Char, Sealed ['\\', d] := fun d => Text.sealed_nil.escaped d
  unfold escapeChar
  split_ifs with hmark hslash hreturn hdollar
  · exact ⟨hescaped _, by rw [hmark]; decide⟩
  · exact ⟨hescaped _, by rw [hslash]; decide⟩
  · exact ⟨hescaped _, by rw [hreturn]; decide⟩
  · rw [Bool.and_eq_true, decide_eq_true_eq] at hdollar
    exact ⟨hescaped _, by rw [hdollar.1]; decide⟩
  · exact ⟨Text.sealed_nil.cons hslash, Text.bulk_cons hslash []⟩

theorem sealed_escape : ∀ text : Text, Sealed (escape text) ∧ bulk (escape text) = heft text
  | [] => ⟨Text.sealed_nil, rfl⟩
  | c :: rest => by
    obtain ⟨hsealed, hbulk⟩ := sealed_escapeChar c (decide (rest.head? = some '\x7b'))
    obtain ⟨ih, hrest⟩ := sealed_escape rest
    rw [escape_cons]
    exact ⟨hsealed.append ih, by rw [hsealed, hbulk, hrest, Text.heft_cons]⟩

end TemplateText

theorem sealed_embedded {source : Text} (h : Sealed source) :
    Sealed (embedded source) ∧ bulk (embedded source) = bulk source + 1 := by
  have hopening : Sealed ('$' :: '\x7b' :: source) := (h.cons (by decide)).cons (by decide)
  refine ⟨hopening.append (Text.sealed_nil.cons (by decide)), ?_⟩
  rw [embedded, hopening, Text.bulk_cons (by decide), Text.bulk_cons (by decide)]
  show 0 + (0 + bulk source) + 1 = _
  omega

/-- Characters and expressions as the text of a template. -/
def inked : List (Char ⊕ Text) → Text
  | [] => []
  | .inl c :: rest => TemplateText.escapeChar c (decide (rest.head? = some (.inl '\x7b'))) ++ inked rest
  | .inr source :: rest => embedded source ++ inked rest

theorem inked_append : ∀ {a b : List (Char ⊕ Text)}, a.getLast? ≠ some (.inl '$') ∨
    b.head? ≠ some (.inl '\x7b') →
    inked (a ++ b) = inked a ++ inked b
  | [], _, _ => rfl
  | .inr source :: a, b, h => by
    have ih := @inked_append a b <| by
      cases a with
      | nil => exact .inl nofun
      | cons place a => rwa [List.getLast?_cons_cons] at h
    rw [List.cons_append, inked, inked, ih, List.append_assoc]
  | .inl c :: a, b, h => by
    cases a with
    | nil =>
      show TemplateText.escapeChar c (decide (b.head? = some (.inl '\x7b'))) ++ inked b =
        TemplateText.escapeChar c false ++ [] ++ inked b
      rw [List.append_nil]
      rcases h with hc | hb
      · rw [TemplateText.escapeChar_of_ne fun heq => hc (by rw [heq]; rfl)]
      · rw [decide_eq_false hb]
    | cons place a =>
      rw [List.getLast?_cons_cons] at h
      have ih := inked_append h
      show TemplateText.escapeChar c _ ++ inked (place :: a ++ b) =
        TemplateText.escapeChar c _ ++ inked (place :: a) ++ inked b
      rw [ih, List.append_assoc]
      rfl

theorem inked_chars : ∀ text : Text, inked (text.map .inl) = TemplateText.escape text
  | [] => rfl
  | c :: text => by
    rw [List.map_cons, inked, inked_chars text, TemplateText.escape_cons, List.head?_map]
    congr 2
    exact decide_eq_decide.2 (by cases text.head? <;> simp)

theorem sealed_inked : ∀ {sequence : List (Char ⊕ Text)}, (∀ source ∈ embeddedIn sequence, Sealed source) →
    Sealed (inked sequence) ∧ bulk (inked sequence) = tally bulk sequence
  | [], _ => ⟨Text.sealed_nil, rfl⟩
  | .inl c :: rest, h => by
    obtain ⟨hsealed, hbulk⟩ := TemplateText.sealed_escapeChar c (decide (rest.head? = some (.inl '\x7b')))
    obtain ⟨ih, hrest⟩ := @sealed_inked rest h
    rw [inked, tally_cons, tally_char, ← hrest, ← hbulk]
    exact ⟨hsealed.append ih, hsealed _⟩
  | .inr source :: rest, h => by
    obtain ⟨hsealed, hbulk⟩ := sealed_embedded (h source (List.mem_cons_self ..))
    obtain ⟨ih, hrest⟩ := @sealed_inked rest fun other hother => h other (List.mem_cons_of_mem _ hother)
    rw [inked, tally_cons, tally_expression, ← hrest, ← hbulk]
    exact ⟨hsealed.append ih, hsealed _⟩

/-! ## Reading -/

namespace TemplateText

theorem sealed_of_glyph? {text behind : Text} {points : List CodePoint}
    (h : glyph? text = some (points, behind)) :
    ∃ source, text = source ++ behind ∧ Sealed source ∧ points.countP CodePoint.isHeavy ≤ bulk source := by
  cases text with
  | nil => cases h
  | cons c rest =>
    rw [glyph?] at h
    split at h
    · cases h
    split at h
    · rename_i hslash
      subst hslash
      split at h
      · cases h
      rename_i hrest
      split at h
      · rename_i found hread
        cases h
        obtain ⟨d, rest, rfl⟩ := List.exists_cons_of_ne_nil (by simpa using hrest : rest ≠ [])
        obtain ⟨⟨front, rfl, hinner⟩, hheavy⟩ := Escape.read_inner hread
        have hplain := Text.sealed_of_plain fun hmem => Escape.ne_of_inner (hinner _ hmem) (by decide) rfl
        refine ⟨'\\' :: d :: front, rfl, hplain.escaped d, hheavy.trans ?_⟩
        rw [Text.bulk_escaped]
        exact Nat.le_add_right _ _
      · cases h
    rename_i hslash
    split at h
    · rename_i hreturn
      subst hreturn
      by_cases hfeed : rest.head? = some '\n'
      · obtain ⟨rest', rfl⟩ := List.head?_eq_some_iff.1 hfeed
        cases h
        exact ⟨['\r', '\n'], rfl, Text.sealed_of_plain (by decide), by decide⟩
      · rw [if_neg (by simpa using hfeed)] at h
        cases h
        exact ⟨['\r'], rfl, Text.sealed_of_plain (by decide), by decide⟩
    · cases h
      refine ⟨[c], rfl, Text.sealed_nil.cons hslash, ?_⟩
      rw [Text.bulk_cons hslash, CodePoint.countP_cons]
      exact Nat.le_refl _

theorem sealed_sourceOf {next : Text} : ∀ {list : List Glyph}, ReadInFront list next →
    Sealed (sourceOf list) ∧ (pointsOf list).countP CodePoint.isHeavy ≤ bulk (sourceOf list)
  | [], _ => ⟨Text.sealed_nil, Nat.le_refl _⟩
  | glyph :: list, ⟨⟨_, hglyph⟩, hrest⟩ => by
    obtain ⟨source, heq, hsealed, hheavy⟩ := sealed_of_glyph? hglyph
    obtain rfl := List.append_cancel_right heq
    obtain ⟨ih, hle⟩ := sealed_sourceOf hrest
    rw [sourceOf_cons, pointsOf_cons, List.countP_append, hsealed]
    exact ⟨hsealed.append ih, Nat.add_le_add hheavy hle⟩

theorem stops_of_readUnits : ∀ {fuel : Nat} {text : Text}, text.length < fuel → Stops (readUnits fuel text).2
  | fuel + 1, text, h => by
    cases hglyph : glyph? text with
    | some found =>
      obtain ⟨points, behind⟩ := found
      obtain ⟨source, rfl, hne, -, -⟩ := glyph?_local hglyph
      have hpos := List.length_pos_iff.2 hne
      rw [List.length_append] at h
      rw [readUnits_of_glyph? fuel hglyph]
      exact stops_of_readUnits (by omega)
    | none =>
      cases text with
      | nil => exact .missing
      | cons c rest =>
        rw [glyph?] at hglyph
        rw [readUnits.eq_def]
        dsimp only
        split at hglyph
        · rename_i hstop
          rw [if_pos hstop]
          simp only [Bool.or_eq_true, decide_eq_true_eq, Bool.and_eq_true, beq_iff_eq] at hstop
          rcases hstop with rfl | ⟨rfl, hbrace⟩
          · exact .closed rest
          · obtain ⟨rest', rfl⟩ := List.head?_eq_some_iff.1 hbrace
            exact .expression rest'
        rename_i hstop
        rw [if_neg hstop]
        split at hglyph
        · rename_i hslash
          rw [if_pos hslash]
          split at hglyph
          · rename_i hrest
            obtain rfl := List.isEmpty_iff.1 hrest
            exact stops_of_readUnits (by simpa using h)
          · split at hglyph
            · cases hglyph
            · rename_i failure hread
              rw [hread]
              refine @stops_of_readUnits fuel (rest.drop 1) ?_
              rw [List.length_drop]
              simp only [List.length_cons] at h
              omega
        · split at hglyph <;> cases hglyph

theorem exists_of_readChunk {text rest : Text} {chunk : Chunk}
    {stop : Stop} (h : readChunk text = ⟨chunk, none, stop, rest⟩) (hstop : stop ≠ .missing) :
    ∃ list next, chunk = chunkOf list ∧ text = sourceOf list ++ next ∧ ReadInFront list next ∧
      (stop = .closed ∧ next = mark :: rest ∨ stop = .expression ∧ next = '$' :: '\x7b' :: rest) := by
  have hstops := stops_of_readUnits (Nat.lt_succ_self text.length)
  rcases hunits : readUnits (text.length + 1) text with ⟨⟨raw, points, fault⟩, behind⟩
  rw [hunits] at hstops
  rw [readChunk, hunits] at h
  dsimp only at h hstops
  have hends : ∀ {next : Text}, behind = next → fault = none →
    next ≠ [] → ∃ list, sourceOf list = raw ∧ pointsOf list = points ∧
      text = raw ++ next ∧ ReadInFront list next := by
    rintro next rfl rfl hne
    exact exists_of_readUnits hne hunits
  cases hstops with
  | missing => cases h; exact absurd rfl hstop
  | closed rest' =>
    cases fault with
    | some fault => cases h
    | none =>
      cases h
      obtain ⟨list, rfl, rfl, htext, hread⟩ := hends rfl rfl (List.cons_ne_nil _ _)
      exact ⟨list, _, rfl, htext, hread, .inl ⟨rfl, rfl⟩⟩
  | expression rest' =>
    cases fault with
    | some fault => cases h
    | none =>
      cases h
      obtain ⟨list, rfl, rfl, htext, hread⟩ := hends rfl rfl (List.cons_ne_nil _ _)
      exact ⟨list, _, rfl, htext, hread, .inr ⟨rfl, rfl⟩⟩

end TemplateText

open TemplateText (readChunk mark)

/-- Text behind the backquote of a template: its chunks, and what stands in the braces between them. -/
inductive Braided : List Chunk → List Text → Text → Prop where
  | last {chunk : Chunk} {text : Text} (read : readChunk text = ⟨chunk, none, .closed, []⟩) :
      Braided [chunk] [] text
  | cons {chunk : Chunk} {chunks : List Chunk} {hole : Text} {holes : List Text} {text more : Text}
      (read : readChunk text = ⟨chunk, none, .expression, hole ++ '\x7d' :: more⟩)
      (rest : Braided chunks holes more) :
      Braided (chunk :: chunks) (hole :: holes) text

namespace Braided

variable {chunks : List Chunk} {holes : List Text} {text : Text}

theorem length_eq (h : Braided chunks holes text) : chunks.length = holes.length + 1 := by
  induction h with
  | last _ => rfl
  | cons _ _ ih => rw [List.length_cons, List.length_cons, ih]

theorem heft_chunkOf {next : Text} {list : List TemplateText.Glyph} (h : TemplateText.ReadInFront list next) :
    heft (TemplateText.chunkOf list).value ≤ bulk (TemplateText.sourceOf list) :=
  (CodePoint.heft_decode_le _).trans (TemplateText.sealed_sourceOf h).2

/-- What is braided is no heavier than the text in front of the closing backquote, which ends in no escape. -/
theorem exists_inside (h : Braided chunks holes text) (hholes : ∀ hole ∈ holes, Sealed hole) :
    ∃ inside, text = inside ++ [mark] ∧ Sealed inside ∧ tally bulk (weave chunks holes) ≤ bulk inside := by
  induction h with
  | last read =>
    obtain ⟨list, next, rfl, rfl, hread, hend⟩ := TemplateText.exists_of_readChunk read (by decide)
    obtain ⟨-, rfl⟩ := hend.resolve_right (by rintro ⟨⟨⟩, -⟩)
    refine ⟨_, rfl, (TemplateText.sealed_sourceOf hread).1, ?_⟩
    rw [weave, weave, List.append_nil, tally_chars]
    exact heft_chunkOf hread
  | @cons _ _ hole _ _ more read _ ih =>
    obtain ⟨list, next, rfl, rfl, hread, hend⟩ := TemplateText.exists_of_readChunk read (by decide)
    obtain ⟨-, rfl⟩ := hend.resolve_left (by rintro ⟨⟨⟩, -⟩)
    have hsource := (TemplateText.sealed_sourceOf hread).1
    obtain ⟨inside, rfl, hinside, hle⟩ := ih fun other hother => hholes other (List.mem_cons_of_mem _ hother)
    obtain ⟨hembedded, hbulk⟩ := sealed_embedded (hholes hole (List.mem_cons_self ..))
    refine ⟨TemplateText.sourceOf list ++ (embedded hole ++ inside), by
      simp [embedded], hsource.append (hembedded.append hinside), ?_⟩
    rw [weave, tally_append, tally_cons, tally_chars, tally_expression, hsource, hembedded, hbulk]
    exact Nat.add_le_add (heft_chunkOf hread) (Nat.add_le_add_left hle _)

/-- What is written from a sequence and read with as heavy expressions is the template of the sequence. -/
theorem weave_eq (h : Braided chunks holes text) :
    ∀ {sequence : List (Char ⊕ Text)}, text = inked sequence ++ [mark] →
    (∀ hole ∈ holes, Sealed hole) → (∀ source ∈ embeddedIn sequence, Sealed source) →
    (embeddedIn sequence).map bulk = holes.map bulk → weave chunks holes = sequence := by
  have hsplit : ∀ sequence : List (Char ⊕ Text), ∃ (word : Text) (rest : List (Char ⊕ Text)),
    sequence = word.map .inl ++ rest ∧
      (rest = [] ∨ ∃ source more, rest = .inr source :: more) := by
    intro sequence
    induction sequence with
    | nil => exact ⟨[], [], rfl, .inl rfl⟩
    | cons place sequence ih =>
      cases place with
      | inl c =>
        obtain ⟨word, rest, rfl, hrest⟩ := ih
        exact ⟨c :: word, rest, rfl, hrest⟩
      | inr source => exact ⟨[], _, rfl, .inr ⟨source, sequence, rfl⟩⟩
  induction h with
  | @last chunk text read =>
    intro sequence htext _ hsequence hbulk
    obtain ⟨word, rest, rfl, rfl | ⟨source, more, rfl⟩⟩ := hsplit sequence
    · rw [List.append_nil] at htext ⊢
      have hstatic : readChunk text = ⟨⟨TemplateText.escape word, some word⟩, none, .closed, []⟩ := by
        rw [htext, inked_chars]
        exact TemplateText.static_escape word
      rw [read] at hstatic
      cases hstatic
      rw [weave, weave, List.append_nil]
      rfl
    · rw [embeddedIn_append, embeddedIn_chars] at hbulk
      cases hbulk
  | @cons chunk chunks hole holes text rest read _ ih =>
    intro sequence htext hholes hsequence hbulk
    obtain ⟨word, _, rfl, rfl | ⟨source, more, rfl⟩⟩ := hsplit sequence
    · rw [List.append_nil, embeddedIn_chars] at hbulk
      cases hbulk
    · rw [embeddedIn_append, embeddedIn_chars, List.nil_append] at hbulk hsequence
      obtain ⟨hhead, htail⟩ := List.cons.inj hbulk
      obtain ⟨list, hsource, hpoints, hread⟩ := TemplateText.exists_of_escape word
      have hchunk : TemplateText.chunkOf list = ⟨TemplateText.escape word, some word⟩ := by
        rw [TemplateText.chunkOf, hsource, hpoints, CodePoint.decode_toNat]
      have hwritten : text = TemplateText.sourceOf list ++ '$' ::
        '\x7b' :: (source ++ '\x7d' :: (inked more ++ [mark])) := by
        rw [htext, inked_append (.inr (by simp)), inked_chars, inked, hsource]
        simp [embedded]
      have hfound := TemplateText.readChunk_expression hread (source ++ '\x7d' :: (inked more ++ [mark]))
      rw [← hwritten, read, hchunk] at hfound
      injection hfound with hvalue _ _ hrest
      -- As heavy as each other, what was written and what was found end at the same brace.
      obtain ⟨rfl, hmore⟩ :=
        Text.eq_of_closed (hholes hole (List.mem_cons_self ..)) (hsequence source (List.mem_cons_self ..))
          hhead.symm hrest
      rw [hvalue, weave, ih hmore (fun other hother => hholes other (List.mem_cons_of_mem _ hother))
        (fun other hother => hsequence other (List.mem_cons_of_mem _ hother)) htail]
      rfl

end Braided
end ClassWeave
