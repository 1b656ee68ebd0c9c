/-!
# Byte spans

A text is a list of characters, and a place in it is counted in bytes of its UTF-8 form.
`Text.cut` splits a text at a byte and refuses to split a character, and `Text.slice?` refuses to
read a span that does; `Text.slice` gives the characters that start in a span, split or not.
-/

namespace ClassWeave

abbrev Text := List Char

structure Span where
  start : Nat
  stop : Nat
deriving DecidableEq, Repr, Inhabited

namespace Text

def byteLength : Text → Nat
  | [] => 0
  | c :: cs => c.utf8Size + byteLength cs

/-- The text before and after byte `n`; none if byte `n` lies inside a character or past the end. -/
def cut : Nat → Text → Option (Text × Text)
  | 0, cs => some ([], cs)
  | _ + 1, [] => none
  | n + 1, c :: cs =>
    if c.utf8Size ≤ n + 1 then
      (cut (n + 1 - c.utf8Size) cs).map fun (front, back) => (c :: front, back)
    else none

def dropBytes : Nat → Text → Text
  | 0, cs => cs
  | _ + 1, [] => []
  | n + 1, c :: cs => dropBytes (n + 1 - c.utf8Size) cs

def takeBytes : Nat → Text → Text
  | 0, _ => []
  | _ + 1, [] => []
  | n + 1, c :: cs => c :: takeBytes (n + 1 - c.utf8Size) cs

/-- The characters that start in a span. -/
def slice (text : Text) (span : Span) : Text :=
  takeBytes (span.stop - span.start) (dropBytes span.start text)

/-- The part of a text that a span covers; none if it splits a character or runs backwards. -/
def slice? (text : Text) (span : Span) : Option Text :=
  if span.stop < span.start then none
  else (cut span.start text).bind fun (_, rest) =>
    (cut (span.stop - span.start) rest).map fun (part, _) => part

@[simp] theorem byteLength_nil : byteLength [] = 0 := rfl

@[simp] theorem byteLength_cons (c : Char) (cs : Text) :
    byteLength (c :: cs) = c.utf8Size + byteLength cs := rfl

@[simp] theorem byteLength_append (a b : Text) :
    byteLength (a ++ b) = byteLength a + byteLength b := by
  induction a with
  | nil => simp
  | cons c a ih => simp [ih, Nat.add_assoc]

theorem cut_eq_some {n : Nat} {text front back : Text} (h : cut n text = some (front, back)) :
    text = front ++ back ∧ byteLength front = n := by
  induction text generalizing n front back with
  | nil =>
    cases n with
    | zero => simp only [cut, Option.some.injEq, Prod.mk.injEq] at h; obtain ⟨rfl, rfl⟩ := h; simp
    | succ n => simp [cut] at h
  | cons c cs ih =>
    cases n with
    | zero => simp only [cut, Option.some.injEq, Prod.mk.injEq] at h; obtain ⟨rfl, rfl⟩ := h; simp
    | succ n =>
      rw [cut] at h
      split at h
      · obtain ⟨⟨a, b⟩, hab, hp⟩ := Option.map_eq_some_iff.1 h
        simp only [Prod.mk.injEq] at hp
        obtain ⟨rfl, rfl⟩ := hp
        obtain ⟨rfl, hl⟩ := ih hab
        exact ⟨rfl, by simp [hl]; omega⟩
      · simp at h

theorem cut_append (back : Text) :
    ∀ front : Text, cut (byteLength front) (front ++ back) = some (front, back)
  | [] => by rw [byteLength_nil, List.nil_append, cut]
  | c :: front => by
    have hpos := c.utf8Size_pos
    obtain ⟨n, hn⟩ : ∃ n, byteLength (c :: front) = n + 1 :=
      ⟨byteLength (c :: front) - 1, by rw [byteLength_cons]; omega⟩
    have hfront : n + 1 - c.utf8Size = byteLength front := by rw [← hn, byteLength_cons]; omega
    have hfits : c.utf8Size ≤ n + 1 := by rw [← hn, byteLength_cons]; omega
    rw [hn, List.cons_append, cut, if_pos hfits, hfront, cut_append back front]
    rfl

theorem takeBytes_append (text behind : Text) :
    takeBytes text.byteLength (text ++ behind) = text := by
  induction text with
  | nil => cases behind <;> rfl
  | cons c text ih =>
    obtain ⟨size, hsize⟩ := Nat.exists_eq_add_of_lt c.utf8Size_pos
    have hlength : 0 + size + 1 + byteLength text = size + byteLength text + 1 := by omega
    have hrest : size + byteLength text + 1 - (0 + size + 1) = byteLength text := by omega
    rw [byteLength_cons, hsize, hlength, List.cons_append, takeBytes, hsize, hrest, ih]

theorem dropBytes_append (front text : Text) :
    dropBytes front.byteLength (front ++ text) = text := by
  induction front with
  | nil => cases text <;> rfl
  | cons c front ih =>
    obtain ⟨size, hsize⟩ := Nat.exists_eq_add_of_lt c.utf8Size_pos
    have hlength : 0 + size + 1 + byteLength front = size + byteLength front + 1 := by omega
    have hrest : size + byteLength front + 1 - (0 + size + 1) = byteLength front := by omega
    rw [byteLength_cons, hsize, hlength, List.cons_append, dropBytes, hsize, hrest, ih]

theorem slice_append (front part back : Text) :
    slice (front ++ (part ++ back)) ⟨front.byteLength, front.byteLength + part.byteLength⟩ = part := by
  rw [slice, dropBytes_append, Nat.add_sub_cancel_left, takeBytes_append]

theorem slice?_eq_some_iff {text part : Text} {span : Span} : slice? text span = some part ↔
    ∃ front back, text = front ++ (part ++ back) ∧
      span = ⟨front.byteLength, front.byteLength + part.byteLength⟩ := by
  constructor
  · intro h
    rw [slice?] at h
    split at h
    · cases h
    · rename_i hforward
      obtain ⟨⟨front, rest⟩, hfront, h⟩ := Option.bind_eq_some_iff.1 h
      obtain ⟨⟨part', back⟩, hpart, rfl⟩ := Option.map_eq_some_iff.1 h
      obtain ⟨rfl, hstart⟩ := cut_eq_some hfront
      obtain ⟨rfl, hstop⟩ := cut_eq_some hpart
      refine ⟨front, back, rfl, ?_⟩
      obtain ⟨start, stop⟩ := span
      simp only [Span.mk.injEq] at hstart hstop hforward ⊢
      omega
  · rintro ⟨front, back, rfl, rfl⟩
    simp only [slice?, cut_append, Option.bind_some, Nat.add_sub_cancel_left, Option.map_some]
    exact if_neg (by simp)

theorem slice_of_slice? {text part : Text} {span : Span} (h : slice? text span = some part) :
    slice text span = part := by
  obtain ⟨front, back, rfl, rfl⟩ := slice?_eq_some_iff.1 h
  exact slice_append front part back

end Text
end ClassWeave
