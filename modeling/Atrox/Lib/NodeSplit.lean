import Atrox.Lib.Worklist

/-!
# A node in two

A node of a graph is cut in two: its edges in lead to the first half, from there one leads to the
second, which has the edges out. What goes round a set of nodes still goes round it.
-/

namespace Lib
variable {α : Type*}

/-- `F` is `E` with `old` cut in two, the second half being `new`. -/
structure NodeSplit (E F : α → α → Prop) (old new : α) : Prop where
  edge : ∀ a b, F a b ↔ (a = old ∧ b = new) ∨ (a = new ∧ E old b) ∨ (a ≠ old ∧ a ≠ new ∧ E a b)

/-- The second half goes where the first is. -/
def withHalf (S : Set α) (old new : α) : Set α := {x | x ∈ S ∨ x = new ∧ old ∈ S}

/-- Every node of `S` is on a way from `h` back to `h` inside `S`. -/
structure GoesRound (E : α → α → Prop) (S : Set α) (h : α) : Prop where
  start : h ∈ S
  forth : ∀ x ∈ S, Within E S h x
  back : ∀ x ∈ S, ∃ p, Within E S x p ∧ E p h

namespace NodeSplit
variable {E F : α → α → Prop} {old new : α} (h : NodeSplit E F old new)
include h

theorem half : F old new := (h.edge old new).mpr (.inl ⟨rfl, rfl⟩)

theorem out {b : α} (hE : E old b) : F new b := (h.edge new b).mpr (.inr (.inl ⟨rfl, hE⟩))

theorem other {a b : α} (hE : E a b) (hold : a ≠ old) (hnew : a ≠ new) : F a b :=
  (h.edge a b).mpr (.inr (.inr ⟨hold, hnew, hE⟩))

variable {S : Set α} (hnew : new ∉ S)
include hnew

theorem within {a b : α} (ha : a ∈ S) (hab : Within E S a b) : Within F (withHalf S old new) a b := by
  induction hab with
  | refl => exact .refl
  | @tail x y hax hxy ih =>
    have hx : x ∈ S := Within.mem ha hax
    have hy : y ∈ withHalf S old new := .inl hxy.2
    by_cases he : x = old
    · subst he
      exact (ih.tail ⟨h.half, .inr ⟨rfl, hx⟩⟩).tail ⟨h.out hxy.1, hy⟩
    · have hne : x ≠ new := fun hn => hnew (hn ▸ hx)
      exact ih.tail ⟨h.other hxy.1 he hne, hy⟩

theorem back {a x : α} (hx : x ∈ S) (hb : ∃ p, Within E S x p ∧ E p a) :
    ∃ q, Within F (withHalf S old new) x q ∧ F q a := by
  obtain ⟨p, hp, hE⟩ := hb
  have hpS : p ∈ S := Within.mem hx hp
  have hw := h.within hnew hx hp
  by_cases he : p = old
  · subst he
    exact ⟨new, hw.tail ⟨h.half, .inr ⟨rfl, hpS⟩⟩, h.out hE⟩
  · have hne : p ≠ new := fun hn => hnew (hn ▸ hpS)
    exact ⟨p, hw, h.other hE he hne⟩

/-- The second half starts as the whole did. -/
theorem back_half {a : α} (hb : ∃ p, Within E S old p ∧ E p a) :
    ∃ q, Within F (withHalf S old new) new q ∧ F q a := by
  obtain ⟨p, hp, hE⟩ := hb
  rcases Relation.ReflTransGen.cases_head hp with rfl | ⟨y, hy, hyp⟩
  · exact ⟨new, .refl, h.out hE⟩
  · obtain ⟨q, hq, hF⟩ := h.back hnew hy.2 ⟨p, hyp, hE⟩
    exact ⟨q, .head ⟨h.out hy.1, .inl hy.2⟩ hq, hF⟩

theorem goesRound {a : α} (hr : GoesRound E S a) : GoesRound F (withHalf S old new) a where
  start := .inl hr.start
  forth := by
    intro x hx
    rcases hx with hx | ⟨rfl, hold⟩
    · exact h.within hnew hr.start (hr.forth x hx)
    · exact (h.within hnew hr.start (hr.forth old hold)).tail ⟨h.half, .inr ⟨rfl, hold⟩⟩
  back := by
    intro x hx
    rcases hx with hx | ⟨rfl, hold⟩
    · exact h.back hnew hx (hr.back x hx)
    · exact h.back_half hnew (hr.back old hold)

end NodeSplit

end Lib
