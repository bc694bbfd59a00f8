import Mathlib.Data.List.Basic

/-!
# Paths

Paths in a graph, and which of its nodes cannot be avoided. A graph that is copied between
a start and an end node keeps both.
-/

namespace Lib
variable {α β : Type}

/-- A path along the edges `E` with all its nodes. -/
inductive Path (E : α → α → Prop) : α → List α → α → Prop where
  | single (a : α) : Path E a [a] a
  | cons (a b c : α) (p : List α) : E a b → Path E b p c → Path E a (a :: p) c

/-- Every path from `a` to `b` meets `P`. -/
def Unavoidable (E : α → α → Prop) (a b : α) (P : α → Prop) : Prop :=
  ∀ p, Path E a p b → ∃ x ∈ p, P x

/-- The graph `E`, with the ways out `Out`, stands in `F` between `root` and `exit`. -/
structure Embeds (E : α → α → Prop) (S Out : α → Prop) (start : α) (F : β → β → Prop) (root exit : β)
    (f : α → β) : Prop where
  start_mem : S start
  closed : ∀ a b, S a → E a b → S b
  edge : ∀ a y, S a → (F (f a) y ↔ (∃ b, E a b ∧ y = f b) ∨ (Out a ∧ y = exit))
  root_edge : ∀ y, F root y ↔ y = f start
  exit_edge : ∀ y, ¬F exit y
  root_ne : root ≠ exit
  node_ne : ∀ a, S a → f a ≠ exit

namespace Embeds
variable {E : α → α → Prop} {S Out : α → Prop} {start : α} {F : β → β → Prop} {root exit : β} {f : α → β}
  (h : Embeds E S Out start F root exit f)

include h

theorem map {a b : α} {p : List α} (hp : Path E a p b) (ha : S a) (hout : Out b) :
    Path F (f a) (p.map f ++ [exit]) exit := by
  induction hp with
  | single a => exact .cons _ exit _ _ ((h.edge a exit ha).mpr (.inr ⟨hout, rfl⟩)) (.single exit)
  | cons a b c p hab _ ih =>
    exact .cons _ (f b) _ _ ((h.edge a (f b) ha).mpr (.inl ⟨b, hab, rfl⟩)) (ih (h.closed a b ha hab) hout)

/-- A path to the exit runs in the copy until its last step. -/
theorem unmap {x y : β} {p : List β} (hp : Path F x p y) (hy : y = exit) {a : α} (hx : x = f a) (ha : S a) :
    ∃ q b, Path E a q b ∧ Out b ∧ p = q.map f ++ [exit] := by
  induction hp generalizing a with
  | single x => exact absurd (hx.symm.trans hy) (h.node_ne a ha)
  | cons x z y p hxz hp ih =>
    subst hx
    rcases (h.edge a z ha).mp hxz with ⟨b, hab, rfl⟩ | ⟨hout, rfl⟩
    · obtain ⟨q, c, hq, hc, rfl⟩ := ih hy rfl (h.closed a b ha hab)
      exact ⟨a :: q, c, .cons a b c q hab hq, hc, rfl⟩
    · refine ⟨[a], a, .single a, hout, ?_⟩
      cases hp with
      | single => rfl
      | cons _ w _ q hw _ => exact absurd hw (h.exit_edge w)

/-- What cannot be avoided on the way to the exit is what no way out can avoid. -/
theorem unavoidable_iff {P : β → Prop} (hroot : ¬P root) (hexit : ¬P exit) :
    Unavoidable F root exit P ↔ ∀ b, Out b → Unavoidable E start b fun a => P (f a) := by
  constructor
  · intro hF b hb p hp
    have hedge := (h.root_edge (f start)).mpr rfl
    obtain ⟨x, hx, hPx⟩ := hF _ (.cons root (f start) exit _ hedge (h.map hp h.start_mem hb))
    rcases List.mem_cons.mp hx with rfl | hx
    · exact absurd hPx hroot
    · rcases List.mem_append.mp hx with hx | hx
      · obtain ⟨a, ha, rfl⟩ := List.mem_map.mp hx
        exact ⟨a, ha, hPx⟩
      · rw [List.mem_singleton.mp hx] at hPx
        exact absurd hPx hexit
  · intro hE p hp
    cases hp with
    | single => exact absurd rfl h.root_ne
    | cons _ y _ p hy hp =>
      obtain rfl := (h.root_edge y).mp hy
      obtain ⟨q, b, hq, hb, rfl⟩ := h.unmap hp rfl rfl h.start_mem
      obtain ⟨a, ha, hPa⟩ := hE b hb q hq
      exact ⟨f a, List.mem_cons_of_mem _ (List.mem_append_left _ (List.mem_map_of_mem ha)), hPa⟩

end Embeds

end Lib
