import ClassWeave.Sorting
import ClassWeave.Text.Position
import Mathlib.Algebra.GroupWithZero.Nat
import Mathlib.Data.List.Forall2
import Mathlib.Order.Lattice
/-!
# Sorted lists and the order of positions

A sort keeps the items and puts them in order; a list that is in order stays as it is. Positions are
ordered by line first, so everything that is known of linear orders holds of them.
-/

namespace ClassWeave

theorem eq_or_before_or_behind {α : Type} {rel : α → α → Prop} {front back : List α} {item other : α}
    (order : (front ++ item :: back).Pairwise rel) (h : other ∈ front ++ item :: back) :
    other = item ∨ rel other item ∨ other ∈ back ∧ rel item other := by
  have split := List.pairwise_append.1 order
  rcases List.mem_append.1 h with hfront | hrest
  · exact .inr (.inl (split.2.2 other hfront item List.mem_cons_self))
  · rcases List.mem_cons.1 hrest with heq | hback
    · exact .inl heq
    · exact .inr (.inr ⟨hback, (List.pairwise_cons.1 split.2.1).1 other hback⟩)

namespace Sorting

variable {α : Type} (notAfter : α → α → Bool)

theorem insert_perm (item : α) : ∀ items : List α, (insert notAfter item items).Perm (item :: items)
  | [] => List.Perm.refl _
  | first :: rest => by
    rw [insert]; split
    · exact List.Perm.refl _
    · exact ((insert_perm item rest).cons first).trans (List.Perm.swap item first rest)

theorem sort_perm : ∀ items : List α, (sort notAfter items).Perm items
  | [] => List.Perm.refl _
  | first :: rest => (insert_perm notAfter first _).trans ((sort_perm rest).cons first)

theorem mem_sort {items : List α} {item : α} : item ∈ sort notAfter items ↔ item ∈ items :=
  (sort_perm notAfter items).mem_iff

variable {notAfter}

theorem insert_pairwise (total : ∀ a b, notAfter a b ∨ notAfter b a)
    (trans : ∀ a b c, notAfter a b → notAfter b c → notAfter a c) (item : α) :
    ∀ items : List α, items.Pairwise (notAfter · ·) → (insert notAfter item items).Pairwise (notAfter · ·)
  | [], _ => List.pairwise_singleton _ _
  | first :: rest, sorted => by
    have inFront := List.pairwise_cons.1 sorted
    rw [insert]; split
    · rename_i before
      refine List.pairwise_cons.2 ⟨?_, sorted⟩
      intro other hother
      rcases List.mem_cons.1 hother with rfl | hother
      · exact before
      · exact trans _ _ _ before (inFront.1 other hother)
    · rename_i notBefore
      refine List.pairwise_cons.2 ⟨?_, insert_pairwise total trans item rest inFront.2⟩
      intro other hother
      rcases List.mem_cons.1 ((insert_perm notAfter item rest).mem_iff.1 hother) with rfl | hother
      · exact (total first other).resolve_right notBefore
      · exact inFront.1 other hother

theorem sort_pairwise (total : ∀ a b, notAfter a b ∨ notAfter b a)
    (trans : ∀ a b c, notAfter a b → notAfter b c → notAfter a c) :
    ∀ items : List α, (sort notAfter items).Pairwise (notAfter · ·)
  | [] => List.Pairwise.nil
  | first :: rest => insert_pairwise total trans first _ (sort_pairwise total trans rest)

theorem sort_eq_self : ∀ {items : List α}, items.Pairwise (notAfter · ·) → sort notAfter items = items
  | [], _ => rfl
  | [_], _ => rfl
  | first :: second :: rest, sorted => by
    have inFront := List.pairwise_cons.1 sorted
    rw [sort, sort_eq_self inFront.2, insert, if_pos (inFront.1 second (by simp))]

end Sorting

namespace Position

theorem le_iff {p q : Position} : p ≤ q ↔ p.line < q.line ∨ p.line = q.line ∧ p.column ≤ q.column :=
  Iff.rfl

theorem lt_iff {p q : Position} : p < q ↔ p.line < q.line ∨ p.line = q.line ∧ p.column < q.column :=
  Iff.rfl

instance : LinearOrder Position where
  le_refl p := by rw [le_iff]; omega
  le_trans p q r := by simp only [le_iff]; omega
  le_antisymm p q hpq hqp := by
    cases p; cases q
    simp only [le_iff] at hpq hqp
    simp only [mk.injEq]
    omega
  lt_iff_le_not_ge p q := by simp only [le_iff, lt_iff]; omega
  le_total p q := by simp only [le_iff]; omega
  toDecidableLE := inferInstance
  toDecidableEq := inferInstance
  toDecidableLT := inferInstance

theorem le_past (p : Position) (c : Char) : p ≤ p.past c := by
  rw [le_iff, past]
  by_cases hc : c = '\n'
  · simp [hc, nextLine]
  · simp [hc]

theorem width_pos (c : Char) : 0 < width c := by rw [width]; split <;> omega

theorem lt_past (p : Position) (c : Char) : p < p.past c := by
  rw [lt_iff, past]
  by_cases hc : c = '\n'
  · simp [hc, nextLine]
  · simp [hc, width_pos]

theorem le_after (p : Position) : ∀ text : Text, p ≤ p.after text
  | [] => le_refl p
  | c :: text => le_trans (le_past p c) (le_after (p.past c) text)

theorem lt_after (p : Position) : ∀ {text : Text}, text ≠ [] → p < p.after text
  | c :: text, _ => lt_of_lt_of_le (lt_past p c) (le_after (p.past c) text)

theorem after_eq_of_flat (p : Position) : ∀ {text : Text}, '\n' ∉ text →
    p.after text = ⟨p.line, p.column + (text.map width).sum⟩
  | [], _ => rfl
  | c :: text, flat => by
    have hc : c ≠ '\n' := fun e => flat (e ▸ List.mem_cons_self)
    have htext : '\n' ∉ text := fun h => flat (List.mem_cons_of_mem _ h)
    rw [after_cons, after_eq_of_flat _ htext, past, if_neg hc, List.map_cons, List.sum_cons, Nat.add_assoc]

end Position

/-! ## Lists item by item -/

theorem exists_of_forall₂ {α β : Type} {R : α → β → Prop} :
    ∀ {a : List α} {b : List β}, List.Forall₂ R a b → ∀ {y : β}, y ∈ b →
    ∃ x ∈ a, R x y
  | _, _, .cons hxy hrest, y, hy => by
    rcases List.mem_cons.1 hy with rfl | hy
    · exact ⟨_, List.mem_cons_self, hxy⟩
    · obtain ⟨x, hx, hxy⟩ := exists_of_forall₂ hrest hy
      exact ⟨x, List.mem_cons_of_mem _ hx, hxy⟩

end ClassWeave
