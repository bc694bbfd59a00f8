import Mathlib.Data.List.Basic

/-!
# Loops that may fail

Rules for `foldlM` in `Option`: what each round preserves, a successful loop preserves.
-/

namespace Lib
variable {α β : Type}

/-- The invariant may speak of the elements already seen. -/
theorem foldlM_run {f : β → α → Option β} {P : List α → β → Prop} (as : List α)
    (hstep : ∀ pre a post s s', as = pre ++ a :: post → P pre s → f s a = some s' →
      P (pre ++ [a]) s')
    {s s' : β} (hs : P [] s) (h : as.foldlM f s = some s') : P as s' := by
  have key : ∀ (post pre : List α) (t : β), as = pre ++ post → P pre t →
      post.foldlM f t = some s' → P as s' := by
    intro post
    induction post with
    | nil =>
      intro pre t hsplit ht hrun
      rw [List.append_nil] at hsplit
      cases hrun
      exact hsplit ▸ ht
    | cons a post ih =>
      intro pre t hsplit ht hrun
      rw [List.foldlM_cons] at hrun
      obtain ⟨u, hu, hrest⟩ := Option.bind_eq_some_iff.mp hrun
      have hu' := hstep pre a post t u hsplit ht hu
      exact ih (pre ++ [a]) u (by simp [hsplit]) hu' hrest
  exact key as [] s rfl hs h

/-- A loop goes through when each round does where the rounds before it have led. -/
theorem foldlM_total {f : β → α → Option β} {P : List α → β → Prop} (as : List α)
    (hstep : ∀ pre a post s, as = pre ++ a :: post → P pre s → ∃ s', f s a = some s' ∧ P (pre ++ [a]) s')
    {s : β} (hs : P [] s) : ∃ s', as.foldlM f s = some s' ∧ P as s' := by
  have key : ∀ (post pre : List α) (t : β), as = pre ++ post → P pre t → ∃ s', post.foldlM f t = some s' ∧ P as s' := by
    intro post
    induction post with
    | nil =>
      intro pre t hsplit ht
      rw [List.append_nil] at hsplit
      exact ⟨t, rfl, hsplit ▸ ht⟩
    | cons a post ih =>
      intro pre t hsplit ht
      obtain ⟨u, hu, hpre⟩ := hstep pre a post t hsplit ht
      obtain ⟨s', hrest, hall⟩ := ih (pre ++ [a]) u (by simp [hsplit]) hpre
      exact ⟨s', Option.bind_eq_some_iff.mpr ⟨u, hu, hrest⟩, hall⟩
  exact key as [] s rfl hs

theorem foldlM_preserves {f : β → α → Option β} {P : β → Prop} (as : List α)
    (hstep : ∀ a s s', a ∈ as → P s → f s a = some s' → P s')
    {s s' : β} (hs : P s) (h : as.foldlM f s = some s') : P s' := by
  refine foldlM_run (P := fun _ => P) as ?_ hs h
  intro pre a post t t' hsplit ht hf
  exact hstep a t t' (by simp [hsplit]) ht hf

/-- Every round has an outcome, and the invariant speaks of the outcomes so far. -/
theorem foldlM_outcomes {γ : Type} {f : β → α → Option β} {P : List (α × γ) → β → Prop} (as : List α)
    (hstep : ∀ pre a s s', a ∈ as → P pre s → f s a = some s' → ∃ c, P (pre ++ [(a, c)]) s')
    {s s' : β} (hs : P [] s) (h : as.foldlM f s = some s') : ∃ cs, cs.map Prod.fst = as ∧ P cs s' := by
  refine foldlM_run (P := fun pre t => ∃ cs, cs.map Prod.fst = pre ∧ P cs t) as ?_ ⟨[], rfl, hs⟩ h
  intro pre a post t t' hsplit ht hf
  obtain ⟨cs, rfl, hP⟩ := ht
  obtain ⟨c, hc⟩ := hstep cs a t t' (by simp [hsplit]) hP hf
  exact ⟨cs ++ [(a, c)], by rw [List.map_append, List.map_cons, List.map_nil], hc⟩

/-- Of two steps each is judged for itself when the second does not depend on the first. -/
theorem bind_isSome_iff {x : Option α} {f : α → Option β} {p : Prop} (h : ∀ a, (f a).isSome ↔ p) :
    (x.bind f).isSome ↔ x.isSome ∧ p := by
  cases x with
  | none => exact ⟨fun hx => absurd hx Bool.false_ne_true, And.left⟩
  | some a => exact (h a).trans (and_iff_right rfl).symm

/-- A loop goes through when each round does, and whether a round does is told by its element. -/
theorem foldlM_isSome_iff {f : β → α → Option β} {P : β → Prop} {Q : α → Prop} (as : List α)
    (hstep : ∀ a s, a ∈ as → P s → ((f s a).isSome ↔ Q a))
    (hkeep : ∀ a s s', a ∈ as → P s → f s a = some s' → P s') {s : β} (hs : P s) :
    (as.foldlM f s).isSome ↔ ∀ a ∈ as, Q a := by
  induction as generalizing s with
  | nil => exact ⟨fun _ a ha => absurd ha List.not_mem_nil, fun _ => rfl⟩
  | cons a as ih =>
    have hhead := List.mem_cons_self (a := a) (l := as)
    rw [List.foldlM_cons, List.forall_mem_cons, ← hstep a s hhead hs]
    cases hf : f s a with
    | none => exact ⟨fun h => absurd h Bool.false_ne_true, fun h => absurd h.1 Bool.false_ne_true⟩
    | some t =>
      have hrest := ih (fun b u hb => hstep b u (List.mem_cons_of_mem a hb))
        (fun b u u' hb => hkeep b u u' (List.mem_cons_of_mem a hb)) (hkeep a s t hhead hs hf)
      exact hrest.trans (and_iff_right rfl).symm

/-- Rounds that agree where the first kind goes through make loops that do. -/
theorem foldlM_mono {f g : β → α → Option β} (as : List α) (h : ∀ a s s', f s a = some s' → g s a = some s')
    {s s' : β} (hrun : as.foldlM f s = some s') : as.foldlM g s = some s' := by
  induction as generalizing s with
  | nil => exact hrun
  | cons a as ih =>
    rw [List.foldlM_cons] at hrun ⊢
    obtain ⟨t, ht, hrest⟩ := Option.bind_eq_some_iff.mp hrun
    exact Option.bind_eq_some_iff.mpr ⟨t, h a s t ht, ih hrest⟩

theorem foldl_run {f : β → α → β} {P : List α → β → Prop} (as : List α)
    (hstep : ∀ pre a post s, as = pre ++ a :: post → P pre s → P (pre ++ [a]) (f s a))
    {s : β} (hs : P [] s) : P as (as.foldl f s) := by
  refine foldlM_run (f := fun s a => some (f s a)) as ?_ hs (List.foldlM_pure (m := Option))
  intro pre a post t t' hsplit ht hf
  cases hf
  exact hstep pre a post t hsplit ht

theorem foldl_preserves {f : β → α → β} {P : β → Prop} (as : List α)
    (hstep : ∀ a s, a ∈ as → P s → P (f s a)) {s : β} (hs : P s) : P (as.foldl f s) := by
  induction as generalizing s with
  | nil => exact hs
  | cons a as ih =>
    exact ih (fun b t hb => hstep b t (List.mem_cons_of_mem a hb))
      (hstep a s (List.mem_cons_self ..) hs)

end Lib
