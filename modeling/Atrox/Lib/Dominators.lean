import Atrox.Lib.NodeSplit

/-!
# Dominators

A node dominates another if every way from the root to the other goes through it. Cutting a node in two and
redirecting edges that go round it change the dominators in a way that can be told beforehand.
-/

namespace Lib
variable {α : Type*}

/-- `b` is reached from `r`. -/
abbrev Reaches (E : α → α → Prop) (r b : α) : Prop := Relation.ReflTransGen E r b

/-- There is a way from `r` to `b` around `d`. -/
def Around (E : α → α → Prop) (r d b : α) : Prop := r ≠ d ∧ Within E {x | x ≠ d} r b

/-- Every way from `r` to `b` goes through `d`. -/
def Dominates (E : α → α → Prop) (r d b : α) : Prop := ¬Around E r d b

/-- The strict dominator of `b` that all strict dominators of `b` dominate. -/
structure Immediate (E : α → α → Prop) (r d b : α) : Prop where
  ne : d ≠ b
  dominates : Dominates E r d b
  closest : ∀ c, c ≠ b → Dominates E r c b → Dominates E r c d

section Basic
variable {E F : α → α → Prop} {r b d : α}

theorem Within.reaches {S : Set α} (h : Within E S r b) : Reaches E r b := by
  induction h with
  | refl => exact .refl
  | tail _ hxy ih => exact ih.tail hxy.1

theorem within_univ : Within E Set.univ r b ↔ Reaches E r b := by
  constructor
  · exact Within.reaches
  · intro h
    induction h with
    | refl => exact .refl
    | tail _ hxy ih => exact ih.tail ⟨hxy, Set.mem_univ _⟩

/-- No edge into `n` is taken if there is none. -/
theorem within_without {S : Set α} {n : α} (hn : ∀ a, ¬E a n) (h : Within E S r b) : Within E {x | x ∈ S ∧ x ≠ n} r b := by
  induction h with
  | refl => exact .refl
  | @tail x y _ hxy ih =>
    refine ih.tail ⟨hxy.1, hxy.2, fun he => ?_⟩
    exact hn x (he ▸ hxy.1)

theorem dominates_self (r b : α) : Dominates E r b b := by
  rintro ⟨hne, hw⟩
  exact Within.mem (S := {x | x ≠ b}) hne hw rfl

/-- What leads to `b` either goes around `n`, or there is a first arrival at `n`. -/
theorem around_or_first {n : α} (hr : r ≠ n) (h : Reaches E r b) : Around E r n b ∨ ∃ p, Around E r n p ∧ E p n := by
  induction h with
  | refl => exact .inl ⟨hr, .refl⟩
  | @tail x y _ hxy ih =>
    rcases ih with ih | ih
    · by_cases hy : y = n
      · subst hy
        exact .inr ⟨x, ih, hxy⟩
      · exact .inl ⟨hr, ih.2.tail ⟨hxy, hy⟩⟩
    · exact .inr ih

/-- What dominates a node that is reached is reached. -/
theorem Dominates.reaches (h : Dominates E r d b) (hb : Reaches E r b) : Reaches E r d := by
  by_cases hr : r = d
  · exact hr ▸ .refl
  · rcases around_or_first hr hb with ha | ⟨p, hp, hd⟩
    · exact absurd ha h
    · exact hp.2.reaches.tail hd

theorem not_reaches {n : α} (hr : r ≠ n) (hn : ∀ a, ¬E a n) : ¬Reaches E r n := by
  intro h
  rcases Relation.ReflTransGen.cases_tail h with he | ⟨p, -, hp⟩
  · exact hr he.symm
  · exact hn p hp

/-- What is closed but for edges to `d` is only left through `d`. -/
theorem dominates_of_closed {S : Set α} (hr : r ∈ S) (hclosed : ∀ x ∈ S, ∀ y, E x y → y ≠ d → y ∈ S) (hb : b ∉ S) :
    Dominates E r d b := by
  rintro ⟨-, hw⟩
  suffices hmem : b ∈ S from hb hmem
  clear hb
  induction hw with
  | refl => exact hr
  | @tail x y _ hxy ih => exact hclosed x ih y hxy.1 hxy.2

theorem dominates_root (r b : α) : Dominates E r r b := fun h => h.1 rfl

/-- A dominator is immediate if every other node can be avoided from there on. -/
theorem Immediate.of_ways (hne : d ≠ b) (hdom : Dominates E r d b) (h : ∀ c, c ≠ b → c ≠ d → Within E {x | x ≠ c} d b) :
    Immediate E r d b where
  ne := hne
  dominates := hdom
  closest := by
    intro c hc hcb hw
    by_cases hcd : c = d
    · exact dominates_self r d (hcd ▸ hw)
    · exact hcb ⟨hw.1, hw.2.trans (h c hc hcd)⟩

end Basic

/-- From `r` the same nodes are reached along `E` and along `F`, inside every set that has `r`. -/
def SameWays (E F : α → α → Prop) (r : α) : Prop := ∀ S : Set α, r ∈ S → ∀ b, Within E S r b ↔ Within F S r b

namespace SameWays
variable {E F : α → α → Prop} {r : α} (h : SameWays E F r)
include h

theorem reaches (b : α) : Reaches E r b ↔ Reaches F r b := by
  rw [← within_univ, h Set.univ (Set.mem_univ r) b, within_univ]

theorem dominates (d b : α) : Dominates E r d b ↔ Dominates F r d b := by
  unfold Dominates Around
  refine not_congr (and_congr_right fun hr => h {x | x ≠ d} hr b)

theorem immediate {d b : α} (hd : Immediate E r d b) : Immediate F r d b where
  ne := hd.ne
  dominates := (h.dominates d b).mp hd.dominates
  closest := fun c hc hcb => (h.dominates c d).mp (hd.closest c hc ((h.dominates c b).mpr hcb))

end SameWays

/-- Edges of nodes that are not reached do not matter. -/
theorem sameWays_of_edges {E F : α → α → Prop} {r : α} (h : ∀ a, Reaches E r a → ∀ b, E a b ↔ F a b) : SameWays E F r := by
  intro S _ b
  constructor
  · intro hw
    induction hw with
    | refl => exact .refl
    | @tail x y hx hxy ih => exact ih.tail ⟨(h x (Within.reaches hx) y).mp hxy.1, hxy.2⟩
  · intro hw
    induction hw with
    | refl => exact .refl
    | @tail x y _ hxy ih => exact ih.tail ⟨(h x (Within.reaches ih) y).mpr hxy.1, hxy.2⟩

namespace NodeSplit
variable {E F : α → α → Prop} {old new r b d : α} (h : NodeSplit E F old new) (hin : ∀ a, ¬E a new) (hr : r ≠ new)
include h hin hr

omit hr in
/-- Only the first half leads to the second. -/
theorem only {a : α} (ha : F a new) : a = old := by
  rcases (h.edge a new).mp ha with ⟨ha, -⟩ | ⟨-, ha⟩ | ⟨-, -, ha⟩
  · exact ha
  · exact absurd ha (hin old)
  · exact absurd ha (hin a)

/-- A way after the cut, with the halves put together. -/
theorem project [DecidableEq α] {S : Set α} (hw : Within F S r b) : Within E S r (if b = new then old else b) := by
  induction hw with
  | refl =>
    rw [if_neg hr]
    exact .refl
  | @tail x y _ hxy ih =>
    rcases (h.edge x y).mp hxy.1 with ⟨rfl, rfl⟩ | ⟨rfl, he⟩ | ⟨-, hx, he⟩
    · rw [if_pos rfl]
      split at ih
      · exact ih
      · exact ih
    · rw [if_pos rfl] at ih
      have hy : y ≠ x := fun hy => hin old (hy ▸ he)
      rw [if_neg hy]
      exact ih.tail ⟨he, hxy.2⟩
    · rw [if_neg hx] at ih
      have hy : y ≠ new := fun hy => hin x (hy ▸ he)
      rw [if_neg hy]
      exact ih.tail ⟨he, hxy.2⟩

/-- A way before the cut goes on after it. -/
theorem lift {S : Set α} (hrS : r ∈ S) (hnew : new ∈ S) (hw : Within E S r b) : Within F S r b := by
  have hlift := h.within (S := {x | x ∈ S ∧ x ≠ new}) (fun hx => hx.2 rfl) ⟨hrS, hr⟩ (within_without hin hw)
  refine Within.mono ?_ hlift
  rintro x (hx | ⟨rfl, -⟩)
  · exact hx.1
  · exact hnew

theorem reaches_old (hb : b ≠ new) : Reaches F r b ↔ Reaches E r b := by
  classical
  rw [← within_univ, ← within_univ]
  constructor
  · intro hw
    have hp := h.project hin hr hw
    rwa [if_neg hb] at hp
  · exact h.lift hin hr (Set.mem_univ r) (Set.mem_univ new)

theorem reaches_new : Reaches F r new ↔ Reaches E r old := by
  classical
  constructor
  · intro hw
    have hp := h.project hin hr (within_univ.mpr hw)
    rw [if_pos rfl] at hp
    exact hp.reaches
  · intro hw
    have hl := h.lift hin hr (Set.mem_univ r) (Set.mem_univ new) (within_univ.mpr hw)
    exact (Within.reaches hl).tail h.half

theorem around_old (hd : d ≠ new) (hb : b ≠ new) : Around F r d b ↔ Around E r d b := by
  classical
  refine and_congr_right fun hrd => ⟨fun hw => ?_, fun hw => h.lift hin hr hrd hd.symm hw⟩
  have hp := h.project hin hr hw
  rwa [if_neg hb] at hp

theorem around_new (hd : d ≠ new) : Around F r d new ↔ Around E r d old := by
  classical
  refine and_congr_right fun hrd => ⟨fun hw => ?_, fun hw => ?_⟩
  · have hp := h.project hin hr hw
    rwa [if_pos rfl] at hp
  · exact (h.lift hin hr hrd hd.symm hw).tail ⟨h.half, hd.symm⟩

/-- What goes around the whole goes around the second half. -/
theorem around_whole (hw : Around E r old b) : Around F r new b := by
  refine ⟨hr, ?_⟩
  obtain ⟨hrold, hw⟩ := hw
  induction hw with
  | refl => exact .refl
  | @tail x y hx hxy ih =>
    have hxold : x ≠ old := Within.mem (S := {x | x ≠ old}) hrold hx
    have hxnew : x ≠ new := Within.mem (S := {x | x ≠ new}) hr ih
    refine ih.tail ⟨h.other hxy.1 hxold hxnew, fun hy => hin x ?_⟩
    exact hy ▸ hxy.1

/-- What goes around the second half goes around the whole, or ends in the first half. -/
theorem around_half (hw : Around F r new b) : b = old ∨ Around E r old b := by
  obtain ⟨-, hw⟩ := hw
  induction hw with
  | refl =>
    by_cases hb : r = old
    · exact .inl hb
    · exact .inr ⟨hb, .refl⟩
  | @tail x y hx hxy ih =>
    have hxnew : x ≠ new := Within.mem (S := {x | x ≠ new}) hr hx
    by_cases hy : y = old
    · exact .inl hy
    · rcases (h.edge x y).mp hxy.1 with ⟨-, rfl⟩ | ⟨rfl, -⟩ | ⟨hxold, -, he⟩
      · exact absurd rfl hxy.2
      · exact absurd rfl hxnew
      · have ha := ih.resolve_left hxold
        exact .inr ⟨ha.1, ha.2.tail ⟨he, hy⟩⟩

/-- The first half is reached without the second. -/
theorem around_first (hold : Reaches E r old) : Around F r new old := by
  by_cases hb : r = old
  · exact ⟨hr, hb ▸ .refl⟩
  · rcases around_or_first hb hold with ha | ⟨p, hp, he⟩
    · exact absurd ha (dominates_self r old)
    · have hw := h.around_whole hin hr hp
      have hpold : p ≠ old := Within.mem (S := {x | x ≠ old}) hb hp.2
      have hpnew : p ≠ new := Within.mem (S := {x | x ≠ new}) hr hw.2
      refine ⟨hr, hw.2.tail ⟨h.other he hpold hpnew, fun hn => hin p ?_⟩⟩
      exact hn ▸ he

/-- The second half dominates what the whole dominates strictly. -/
theorem dominates_half (hb : b ≠ old) : Dominates F r new b ↔ Dominates E r old b := by
  refine not_congr ⟨fun hw => ?_, h.around_whole hin hr⟩
  exact (h.around_half hin hr hw).resolve_left hb

theorem immediate_new (hold : old ≠ new) : Immediate F r old new where
  ne := hold
  dominates := by
    rw [Dominates, h.around_new hin hr hold]
    exact dominates_self r old
  closest := by
    intro c hc hdom
    rw [Dominates, h.around_new hin hr hc] at hdom
    rwa [Dominates, h.around_old hin hr hc hold]

theorem immediate_below (hb : b ≠ new) (hi : Immediate E r old b) : Immediate F r new b where
  ne := hb.symm
  dominates := (h.dominates_half hin hr hi.ne.symm).mpr hi.dominates
  closest := by
    intro c hc hdom
    by_cases hcn : c = new
    · exact hcn ▸ dominates_self r c
    · rw [Dominates, h.around_old hin hr hcn hb] at hdom
      rw [Dominates, h.around_new hin hr hcn]
      exact hi.closest c hc hdom

theorem immediate_other (hb : b ≠ new) (hreach : Reaches E r b) (hd : d ≠ old) (hi : Immediate E r d b) :
    Immediate F r d b where
  ne := hi.ne
  dominates := by
    have hdn : d ≠ new := fun he => not_reaches hr hin (he ▸ hi.dominates.reaches hreach)
    rw [Dominates, h.around_old hin hr hdn hb]
    exact hi.dominates
  closest := by
    have hdn : d ≠ new := fun he => not_reaches hr hin (he ▸ hi.dominates.reaches hreach)
    intro c hc hdom
    by_cases hcn : c = new
    · subst hcn
      have hbold : b ≠ old := fun he => hdom (he ▸ h.around_first hin hr (he ▸ hreach))
      rw [h.dominates_half hin hr hbold] at hdom
      rw [h.dominates_half hin hr hd]
      exact hi.closest old hbold.symm hdom
    · rw [Dominates, h.around_old hin hr hcn hb] at hdom
      rw [Dominates, h.around_old hin hr hcn hdn]
      exact hi.closest c hc hdom

end NodeSplit

/-- `G` is `F` with the edges from `R` to `old` led to `new`, which only `old` leads to. -/
structure Redirect (F G : α → α → Prop) (R : α → Prop) (old new : α) : Prop where
  edge : ∀ a b, G a b ↔ (F a b ∧ ¬(R a ∧ b = old)) ∨ (R a ∧ F a old ∧ b = new)
  half : F old new
  only : ∀ a, F a new → a = old
  ne : old ≠ new

namespace Redirect
variable {F G : α → α → Prop} {R : α → Prop} {old new r : α} (h : Redirect F G R old new)
include h

/-- A way that does not meet `old` does not meet `new`. -/
theorem misses {S : Set α} {b : α} (hrS : r ∈ S) (hold : old ∉ S) (hw : Within F S r b) : Within F {x | x ≠ new} r b := by
  induction hw with
  | refl => exact .refl
  | @tail x y hx hxy ih =>
    refine ih.tail ⟨hxy.1, fun hy => hold ?_⟩
    have hxold : x = old := h.only x (hy ▸ hxy.1)
    exact hxold ▸ Within.mem hrS hx

variable (hr : r ≠ new) (hdom : ∀ a, R a → F a old → Dominates F r new a)
include hr hdom

/-- A way before stays one: where a redirected edge arrives, the way has been already. -/
theorem forth {S : Set α} {b : α} (hw : Within F S r b) :
    Within G S r b ∧ (Within G S r old ∨ Within F {x | x ≠ new} r b) := by
  induction hw with
  | refl => exact ⟨.refl, .inr .refl⟩
  | @tail x y _ hxy ih =>
    obtain ⟨ihG, ih⟩ := ih
    by_cases hred : R x ∧ y = old
    · obtain ⟨hR, rfl⟩ := hred
      have hbefore : Within G S r y := ih.resolve_right fun hw => hdom x hR hxy.1 ⟨hr, hw⟩
      exact ⟨hbefore, .inl hbefore⟩
    · refine ⟨ihG.tail ⟨(h.edge x y).mpr (.inl ⟨hxy.1, hred⟩), hxy.2⟩, ?_⟩
      by_cases hy : y = new
      · subst hy
        exact .inl (h.only x hxy.1 ▸ ihG)
      · exact ih.imp_right fun hw => hw.tail ⟨hxy.1, hy⟩

/-- A way after stays one: either `old` may be gone through, or no edge on it is redirected. -/
theorem back {S : Set α} {b : α} (hrS : r ∈ S) (hw : Within G S r b) : Within F S r b := by
  induction hw with
  | refl => exact .refl
  | @tail x y _ hxy ih =>
    rcases (h.edge x y).mp hxy.1 with ⟨he, -⟩ | ⟨hR, he, rfl⟩
    · exact ih.tail ⟨he, hxy.2⟩
    · by_cases hold : old ∈ S
      · exact (ih.tail ⟨he, hold⟩).tail ⟨h.half, hxy.2⟩
      · exact absurd ⟨hr, h.misses hrS hold ih⟩ (hdom x hR he)

theorem sameWays : SameWays F G r := fun _ hrS _ => ⟨fun hw => (h.forth hr hdom hw).1, h.back hr hdom hrS⟩

end Redirect

end Lib
