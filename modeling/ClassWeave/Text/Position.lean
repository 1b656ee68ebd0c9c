import ClassWeave.Text.Span
/-!
# Positions

Lines and columns count from zero. A line ends at a line feed only, and a column is a UTF-16 code
unit, so a character outside the basic plane takes two columns.
-/

namespace ClassWeave

structure Position where
  line : Nat
  column : Nat
deriving DecidableEq, Repr, Inhabited

namespace Position

instance : LT Position where
  lt p q := p.line < q.line ∨ (p.line = q.line ∧ p.column < q.column)

instance : LE Position where
  le p q := p.line < q.line ∨ (p.line = q.line ∧ p.column ≤ q.column)

instance (p q : Position) : Decidable (p < q) :=
  inferInstanceAs (Decidable (p.line < q.line ∨ (p.line = q.line ∧ p.column < q.column)))

instance (p q : Position) : Decidable (p ≤ q) :=
  inferInstanceAs (Decidable (p.line < q.line ∨ (p.line = q.line ∧ p.column ≤ q.column)))

def origin : Position := ⟨0, 0⟩

/-- Where the next line starts: behind every column of this one. -/
def nextLine (p : Position) : Position := ⟨p.line + 1, 0⟩

def width (c : Char) : Nat := if c.toNat < 0x10000 then 1 else 2

def past (p : Position) (c : Char) : Position :=
  if c = '\n' then p.nextLine else ⟨p.line, p.column + width c⟩

def after (p : Position) (text : Text) : Position := text.foldl past p

@[simp] theorem after_nil (p : Position) : p.after [] = p := rfl

@[simp] theorem after_cons (p : Position) (c : Char) (text : Text) :
    p.after (c :: text) = (p.past c).after text := rfl

@[simp] theorem after_append (p : Position) (a b : Text) :
    p.after (a ++ b) = (p.after a).after b := List.foldl_append

end Position
end ClassWeave
