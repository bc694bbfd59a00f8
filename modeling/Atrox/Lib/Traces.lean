import Mathlib.Data.List.ReduceOption
import Atrox.Lib.Simulation

/-!
# Traces

A step shows its label or is silent. Two deterministic systems that go from related states to
related states, one stretch at a time, show the same and end alike.
-/

namespace Lib
variable {σ τ υ γ : Type}

section Traces
variable (step : σ → Option γ → σ → Prop)

/-- Some run from `s` shows `os`. -/
def Shows (s : σ) (os : List γ) : Prop := ∃ as t, Run step s as t ∧ as.reduceOption = os

def Ended (s : σ) : Prop := ∀ a t, ¬step s a t

/-- Some run from `s` shows `os` and cannot go on. -/
def Ends (s : σ) (os : List γ) : Prop := ∃ as t, Run step s as t ∧ as.reduceOption = os ∧ Ended step t

def Deterministic : Prop := ∀ s a t b u, step s a t → step s b u → a = b ∧ t = u

end Traces

/-- Runs of the one system show what runs of the other show, and end where those end. -/
structure SameTraces (step : σ → Option γ → σ → Prop) (step' : τ → Option γ → τ → Prop) (s : σ) (t : τ) : Prop where
  shows : ∀ os, Shows step s os ↔ Shows step' t os
  ends : ∀ os, Ends step s os ↔ Ends step' t os

namespace SameTraces
variable {step : σ → Option γ → σ → Prop} {step' : τ → Option γ → τ → Prop} {step'' : υ → Option γ → υ → Prop}

theorem refl (s : σ) : SameTraces step step s s := ⟨fun _ => .rfl, fun _ => .rfl⟩

theorem symm {s : σ} {t : τ} (h : SameTraces step step' s t) : SameTraces step' step t s :=
  ⟨fun os => (h.shows os).symm, fun os => (h.ends os).symm⟩

theorem trans {s : σ} {t : τ} {u : υ} (h : SameTraces step step' s t) (h' : SameTraces step' step'' t u) :
    SameTraces step step'' s u :=
  ⟨fun os => (h.shows os).trans (h'.shows os), fun os => (h.ends os).trans (h'.ends os)⟩

end SameTraces

section Prefixes
variable {step : σ → Option γ → σ → Prop}

theorem Run.of_ended {s t : σ} {as : List (Option γ)} (h : Run step s as t) (he : Ended step s) : as = [] ∧ t = s := by
  cases h with
  | nil => exact ⟨rfl, rfl⟩
  | cons hs _ => exact absurd hs (he _ _)

/- A run that shows more shows less on its way. -/
theorem Run.shows_prefix {s t : σ} {as : List (Option γ)} (h : Run step s as t) {os : List γ}
    (hos : os <+: as.reduceOption) : Shows step s os := by
  induction h generalizing os with
  | nil s =>
    have hnil : os = [] := List.prefix_nil.mp hos
    exact ⟨[], s, .nil s, hnil.symm⟩
  | @cons s t u a as hs hrest ih =>
    cases a with
    | none =>
      rw [List.reduceOption_cons_of_none] at hos
      obtain ⟨bs, v, hrun, hbs⟩ := ih hos
      exact ⟨none :: bs, v, .cons hs hrun, hbs⟩
    | some o =>
      rw [List.reduceOption_cons_of_some] at hos
      cases os with
      | nil => exact ⟨[], s, .nil s, rfl⟩
      | cons o' os =>
        obtain ⟨rfl, hpre⟩ := List.cons_prefix_cons.mp hos
        obtain ⟨bs, v, hrun, hbs⟩ := ih hpre
        refine ⟨some o' :: bs, v, .cons hs hrun, ?_⟩
        rw [List.reduceOption_cons_of_some, hbs]

/- A run to the end goes on from the end of every other run. -/
theorem Run.to_end (hdet : Deterministic step) {s t u : σ} {as bs : List (Option γ)} (h : Run step s as t)
    (h' : Run step s bs u) (he : Ended step u) : ∃ cs, bs = as ++ cs ∧ Run step t cs u := by
  induction h generalizing bs with
  | nil s => exact ⟨bs, rfl, h'⟩
  | @cons s t _ a as hs _ ih =>
    cases h' with
    | nil => exact absurd hs (he a t)
    | cons hs' hrest =>
      obtain ⟨rfl, rfl⟩ := hdet _ _ _ _ _ hs hs'
      obtain ⟨cs, rfl, hcs⟩ := ih hrest
      exact ⟨cs, rfl, hcs⟩

end Prefixes

section Meeting
variable {step : σ → Option γ → σ → Prop} {step' : τ → Option γ → τ → Prop}

/-- Runs that show the same lead to states with `Q`, or both to an end. -/
def Meets (step : σ → Option γ → σ → Prop) (step' : τ → Option γ → τ → Prop) (Q : σ → τ → Prop) (s : σ) (t : τ) :
    Prop :=
  ∃ as s' bs t', Run step s as s' ∧ Run step' t bs t' ∧ as.reduceOption = bs.reduceOption ∧
    (Q s' t' ∨ Ended step s' ∧ Ended step' t')

/-- Both systems take a step with the same label. -/
def Both (step : σ → Option γ → σ → Prop) (step' : τ → Option γ → τ → Prop) (R : σ → τ → Prop) (s : σ) (t : τ) :
    Prop :=
  ∃ a s' t', step s a s' ∧ step' t a t' ∧ R s' t'

/-- From related states the systems meet where both step to related states. -/
def Lockstep (step : σ → Option γ → σ → Prop) (step' : τ → Option γ → τ → Prop) (R : σ → τ → Prop) : Prop :=
  ∀ s t, R s t → Meets step step' (Both step step' R) s t

namespace Meets
variable {Q Q' : σ → τ → Prop} {s : σ} {t : τ}

theorem here (h : Q s t) : Meets step step' Q s t := ⟨[], s, [], t, .nil s, .nil t, rfl, .inl h⟩

theorem ended (h : Ended step s) (h' : Ended step' t) : Meets step step' Q s t :=
  ⟨[], s, [], t, .nil s, .nil t, rfl, .inr ⟨h, h'⟩⟩

/- What both have shown before they meet. -/
theorem after {s' : σ} {t' : τ} {as bs : List (Option γ)} (h : Run step s as s') (h' : Run step' t bs t')
    (hshow : as.reduceOption = bs.reduceOption) (hm : Meets step step' Q s' t') : Meets step step' Q s t := by
  obtain ⟨cs, u, ds, v, hu, hv, hcd, hQ⟩ := hm
  refine ⟨as ++ cs, u, bs ++ ds, v, h.append hu, h'.append hv, ?_, hQ⟩
  rw [List.reduceOption_append, List.reduceOption_append, hshow, hcd]

theorem bind (h : Meets step step' Q s t) (hQ : ∀ s' t', Q s' t' → Meets step step' Q' s' t') :
    Meets step step' Q' s t := by
  obtain ⟨as, s', bs, t', hs, ht, hshow, hq | ⟨he, he'⟩⟩ := h
  · exact (hQ s' t' hq).after hs ht hshow
  · exact (ended he he').after hs ht hshow

theorem mono (h : Meets step step' Q s t) (hQ : ∀ s' t', Q s' t' → Q' s' t') : Meets step step' Q' s t :=
  h.bind fun s' t' hq => here (hQ s' t' hq)

theorem symm (h : Meets step step' Q s t) : Meets step' step (fun t s => Q s t) t s := by
  obtain ⟨as, s', bs, t', hs, ht, hshow, hq⟩ := h
  exact ⟨bs, t', as, s', ht, hs, hshow.symm, hq.imp id And.symm⟩

end Meets

namespace Lockstep
variable {R : σ → τ → Prop}

theorem symm (h : Lockstep step step' R) : Lockstep step' step fun t s => R s t := by
  intro t s hR
  refine (h s t hR).symm.mono ?_
  rintro t' s' ⟨a, s'', t'', hs, ht, hR'⟩
  exact ⟨a, t'', s'', ht, hs, hR'⟩

/- What the one shows the other shows: by induction on the length of the run, over the stretches. -/
theorem shows_of (h : Lockstep step step' R) (hdet : Deterministic step) {s : σ} {t : τ} (hR : R s t) {os : List γ}
    (hos : Shows step s os) : Shows step' t os := by
  obtain ⟨as, u, hrun, rfl⟩ := hos
  induction hn : as.length using Nat.strongRecOn generalizing s t as with
  | ind n ih =>
    subst hn
    obtain ⟨bs, s₁, cs, t₁, hs, ht, hshow, ⟨a, s₂, t₂, hs', ht', hR'⟩ | ⟨he, -⟩⟩ := h s t hR
    · have hs₂ := hs.append (.single hs')
      have ht₂ := ht.append (.single ht')
      have hshow' : (bs ++ [a]).reduceOption = (cs ++ [a]).reduceOption := by
        rw [List.reduceOption_append, List.reduceOption_append, hshow]
      rcases Run.compare hdet hs₂ hrun with ⟨ds, rfl, hds⟩ | hpre
      · -- the run covers the stretch
        have hlt : ds.length < (bs ++ [a] ++ ds).length := by
          simp only [List.length_append, List.length_cons, List.length_nil]
          omega
        obtain ⟨es, v, hes, heq⟩ := ih ds.length hlt hR' ds hds rfl
        refine ⟨cs ++ [a] ++ es, v, ht₂.append hes, ?_⟩
        simp only [List.reduceOption_append, hshow, heq]
      · exact ht₂.shows_prefix (hshow' ▸ hpre.filterMap id)
    · obtain ⟨ds, rfl, -⟩ := hrun.to_end hdet hs he
      refine ht.shows_prefix ?_
      rw [← hshow, List.reduceOption_append]
      exact List.prefix_append _ _

theorem ends_of (h : Lockstep step step' R) (hdet : Deterministic step) {s : σ} {t : τ} (hR : R s t) {os : List γ}
    (hos : Ends step s os) : Ends step' t os := by
  obtain ⟨as, u, hrun, rfl, hu⟩ := hos
  induction hn : as.length using Nat.strongRecOn generalizing s t as with
  | ind n ih =>
    subst hn
    obtain ⟨bs, s₁, cs, t₁, hs, ht, hshow, ⟨a, s₂, t₂, hs', ht', hR'⟩ | ⟨he, he'⟩⟩ := h s t hR
    · obtain ⟨ds, rfl, hds⟩ := (hs.append (.single hs')).to_end hdet hrun hu
      have hlt : ds.length < (bs ++ [a] ++ ds).length := by
        simp only [List.length_append, List.length_cons, List.length_nil]
        omega
      obtain ⟨es, v, hes, heq, hv⟩ := ih ds.length hlt hR' ds hds rfl
      refine ⟨cs ++ [a] ++ es, v, (ht.append (.single ht')).append hes, ?_, hv⟩
      simp only [List.reduceOption_append, hshow, heq]
    · obtain ⟨ds, rfl, hds⟩ := hs.to_end hdet hrun hu
      obtain ⟨rfl, rfl⟩ := hds.of_ended he
      exact ⟨cs, t₁, ht, by rw [List.append_nil, hshow], he'⟩

theorem sameTraces (h : Lockstep step step' R) (hdet : Deterministic step) (hdet' : Deterministic step') {s : σ} {t : τ}
    (hR : R s t) : SameTraces step step' s t :=
  ⟨fun _ => ⟨h.shows_of hdet hR, h.symm.shows_of hdet' hR⟩, fun _ => ⟨h.ends_of hdet hR, h.symm.ends_of hdet' hR⟩⟩

end Lockstep

end Meeting

end Lib
