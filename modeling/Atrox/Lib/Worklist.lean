import Mathlib.Data.List.Chain
import Mathlib.Data.Set.Card
import Mathlib.Logic.Relation

/-!
# Searches with a work list

A search from a root visits the elements of its work list in any order. Several
searches may run one after the other with a common set of elements that are closed to them.
-/

namespace Lib
variable {α : Type*}

/- `work` is still to be visited, `seen` is closed to the search, `found` is its result. -/
structure Search (α : Type*) where
  work : Set α
  seen : Set α
  found : Set α

/- `b` is reached from `a` along edges that stay inside `S`. -/
def Within (E : α → α → Prop) (S : Set α) : α → α → Prop :=
  Relation.ReflTransGen fun x y => E x y ∧ y ∈ S

theorem Within.mono {E : α → α → Prop} {S T : Set α} (hST : S ⊆ T) {a b : α} (h : Within E S a b) :
    Within E T a b := by
  induction h with
  | refl => exact .refl
  | tail _ hxy ih => exact ih.tail ⟨hxy.1, hST hxy.2⟩

theorem Within.mem {E : α → α → Prop} {S : Set α} {a b : α} (ha : a ∈ S) (h : Within E S a b) : b ∈ S := by
  cases h with
  | refl => exact ha
  | tail _ hxy => exact hxy.2

/- On a closed walk inside `S` every element leads to every other. -/
theorem within_of_walk {E : α → α → Prop} {S : Set α} {a : α} {w : List α}
    (hw : (a :: (w ++ [a])).IsChain fun x y => E x y ∧ y ∈ S) {x y : α} (hx : x ∈ a :: w) (hy : y ∈ a :: w) :
    Within E S x y := by
  have hlast : (a :: (w ++ [a])).getLast (List.cons_ne_nil _ _) = a := by simp
  have hto : Within E S x a :=
    hw.backwards_cons_induction (fun z => Within E S z a) _ hlast (fun _ _ h ih => ih.head h) .refl x
      (List.mem_append_left [a] hx)
  have hfrom : Within E S a y := by
    rcases List.mem_cons.mp hy with rfl | hy
    · exact .refl
    · exact hw.cons_induction (fun z => Within E S a z) _ (fun _ _ h ih => ih.tail h) .refl y
        (List.mem_append_left [a] hy)
  exact hto.trans hfrom

namespace Search
variable (E : α → α → Prop) (ok : Set α)

def start (root : α) (seen : Set α) : Search α := ⟨{root}, seen, {root}⟩

/- A visit takes any element `a` and adds the successors that are `ok` and not closed. -/
def Visit (a : α) (s t : Search α) : Prop :=
  a ∈ s.work ∧ t.seen = insert a s.seen ∧ t.found = insert a s.found ∧
    t.work = s.work \ {a} ∪ {b | E a b ∧ b ∈ ok ∧ b ∉ insert a s.seen}

def Step (s t : Search α) : Prop := ∃ a, Visit E ok a s t

variable {E ok}

/- What holds all along a search from `root` that starts with `seen₀` closed. -/
structure Inv (E : α → α → Prop) (ok : Set α) (root : α) (seen₀ : Set α) (s : Search α) : Prop where
  root_found : root ∈ s.found
  seen_mono : seen₀ ⊆ s.seen
  seen_found : s.seen ⊆ seen₀ ∪ s.found
  found_seen : ∀ a ∈ s.found, a ∈ s.seen ∨ a ∈ s.work
  found_ok : ∀ a ∈ s.found, a = root ∨ a ∈ ok \ seen₀
  work_ok : ∀ a ∈ s.work, a = root ∨ a ∈ ok \ seen₀
  found_path : ∀ a ∈ s.found, Within E s.found root a
  work_path : ∀ a ∈ s.work, a ∈ s.found ∨ ∃ p ∈ s.found, E p a
  closed : ∀ a ∈ s.found, a ∈ s.work ∨ ∀ b, E a b → b ∈ ok → b ∈ s.seen ∨ b ∈ s.work

theorem inv_start (root : α) (seen : Set α) : Inv E ok root seen (start root seen) where
  root_found := Set.mem_singleton root
  seen_mono := Set.Subset.rfl
  seen_found := Set.subset_union_left
  found_seen := fun _ ha => .inr ha
  found_ok := fun _ ha => .inl ha
  work_ok := fun _ ha => .inl ha
  found_path := fun a ha => by
    rw [Set.mem_singleton_iff.mp ha]
    exact .refl
  work_path := fun _ ha => .inl ha
  closed := fun _ ha => .inl ha

theorem inv_visit {root : α} {seen₀ : Set α} {s t : Search α} (h : Inv E ok root seen₀ s) {a : α}
    (hv : Visit E ok a s t) : Inv E ok root seen₀ t := by
  obtain ⟨ha, hseen, hfound, hwork⟩ := hv
  have hsub : s.found ⊆ t.found := hfound ▸ Set.subset_insert a s.found
  have hpath : Within E t.found root a := by
    rcases h.work_path a ha with hf | ⟨p, hp, hpa⟩
    · exact (h.found_path a hf).mono hsub
    · exact ((h.found_path p hp).mono hsub).tail ⟨hpa, hfound ▸ Set.mem_insert a s.found⟩
  constructor
  · exact hsub h.root_found
  · rw [hseen]
    exact h.seen_mono.trans (Set.subset_insert a s.seen)
  · rw [hseen, hfound]
    rintro b (rfl | hb)
    · exact .inr (.inl rfl)
    · exact (h.seen_found hb).imp_right .inr
  · rw [hfound, hseen, hwork]
    rintro b (rfl | hb)
    · exact .inl (.inl rfl)
    · by_cases hba : b = a
      · exact .inl (.inl hba)
      · exact (h.found_seen b hb).imp .inr fun hw => .inl ⟨hw, hba⟩
  · rw [hfound]
    rintro b (rfl | hb)
    · exact h.work_ok b ha
    · exact h.found_ok b hb
  · rw [hwork]
    rintro b (⟨hb, -⟩ | ⟨-, hok, hno⟩)
    · exact h.work_ok b hb
    · exact .inr ⟨hok, fun hs => hno (.inr (h.seen_mono hs))⟩
  · intro b hb
    rw [hfound] at hb
    rcases hb with rfl | hb
    · exact hpath
    · exact (h.found_path b hb).mono hsub
  · rw [hwork]
    rintro b (⟨hb, -⟩ | ⟨hab, -⟩)
    · exact (h.work_path b hb).imp (fun hf => hsub hf) fun ⟨p, hp, hpb⟩ => ⟨p, hsub hp, hpb⟩
    · exact .inr ⟨a, hfound ▸ Set.mem_insert a s.found, hab⟩
  · have hnew : ∀ b, b ∈ s.seen ∨ b ∈ s.work → b ∈ t.seen ∨ b ∈ t.work := by
      rw [hseen, hwork]
      rintro b (hb | hb)
      · exact .inl (.inr hb)
      · by_cases hba : b = a
        · exact .inl (.inl hba)
        · exact .inr (.inl ⟨hb, hba⟩)
    intro b hb
    by_cases hba : b = a
    · subst hba
      refine .inr fun c hc hok => ?_
      rw [hseen, hwork]
      by_cases hcs : c ∈ insert b s.seen
      · exact .inl hcs
      · exact .inr (.inr ⟨hc, hok, hcs⟩)
    · rw [hfound] at hb
      rcases h.closed b (hb.resolve_left hba) with hw | hcl
      · exact .inl (hwork ▸ .inl ⟨hw, hba⟩)
      · exact .inr fun c hc hok => hnew c (hcl c hc hok)

theorem inv_run {root : α} {seen : Set α} {s : Search α}
    (h : Relation.ReflTransGen (Step E ok) (start root seen) s) : Inv E ok root seen s := by
  induction h with
  | refl => exact inv_start root seen
  | tail _ hstep ih =>
    obtain ⟨a, hv⟩ := hstep
    exact inv_visit ih hv

/- A search that has an empty work list. -/
structure Done (E : α → α → Prop) (ok : Set α) (root : α) (seen₀ : Set α) (s : Search α) : Prop where
  run : Relation.ReflTransGen (Step E ok) (start root seen₀) s
  empty : s.work = ∅

theorem Done.seen_eq {root : α} {seen₀ : Set α} {s : Search α} (h : Done E ok root seen₀ s) :
    s.seen = seen₀ ∪ s.found := by
  have hinv := inv_run h.run
  refine Set.Subset.antisymm hinv.seen_found (Set.union_subset hinv.seen_mono fun a ha => ?_)
  refine (hinv.found_seen a ha).resolve_right ?_
  rw [h.empty]
  exact Set.notMem_empty a

/- Nothing that is `ok` and open can be reached from what is found. -/
theorem Done.closed {root : α} {seen₀ : Set α} {s : Search α} (h : Done E ok root seen₀ s) {a b : α}
    (ha : a ∈ s.found) (hab : E a b) (hb : b ∈ ok) : b ∈ seen₀ ∪ s.found := by
  have hinv := inv_run h.run
  rw [← h.seen_eq]
  rcases hinv.closed a ha with hw | hcl
  · rw [h.empty] at hw
    exact absurd hw (Set.notMem_empty a)
  · refine (hcl b hab hb).resolve_right ?_
    rw [h.empty]
    exact Set.notMem_empty b

/- Everything on the work list is open. -/
def Fresh (ok : Set α) (s : Search α) : Prop := s.work ⊆ ok \ s.seen

theorem fresh_of_visit {s t : Search α} {a : α} (hv : Visit E ok a s t)
    (h : s.work \ {a} ⊆ ok \ s.seen) : Fresh ok t := by
  obtain ⟨-, hseen, -, hwork⟩ := hv
  rw [Fresh, hwork, hseen]
  rintro b (⟨hb, hne⟩ | ⟨-, hok, hno⟩)
  · obtain ⟨hok, hno⟩ := h ⟨hb, hne⟩
    exact ⟨hok, fun hs => hs.elim hne hno⟩
  · exact ⟨hok, hno⟩

theorem fresh_first {root : α} {seen : Set α} {t : Search α} {a : α}
    (hv : Visit E ok a (start root seen) t) : Fresh ok t := by
  have ha : a = root := hv.1
  refine fresh_of_visit hv fun b hb => ?_
  exact absurd (hb.1.trans ha.symm) hb.2

/- A visit of an open element leaves fewer of them. -/
theorem open_lt {s t : Search α} {a : α} (hfin : ok.Finite) (h : Fresh ok s) (hv : Visit E ok a s t) :
    (ok \ t.seen).ncard < (ok \ s.seen).ncard := by
  obtain ⟨ha, hseen, -, -⟩ := hv
  refine Set.ncard_lt_ncard ⟨?_, fun hsub => ?_⟩ (hfin.subset Set.sdiff_subset)
  · rw [hseen]
    exact Set.sdiff_subset_sdiff_right (Set.subset_insert a s.seen)
  · have hm := (hsub (h ha)).2
    rw [hseen] at hm
    exact hm (Set.mem_insert a s.seen)

end Search

section Searches
variable {E : α → α → Prop} {ok : Set α}

/- Searches from the roots one after the other: their results, and what is closed in the end. -/
inductive Searches (E : α → α → Prop) (ok : Set α) : Set α → List α → List (Set α) → Set α → Prop where
  | nil (seen : Set α) : Searches E ok seen [] [] seen
  | cons {seen : Set α} {root : α} {s : Search α} {roots : List α} {gs : List (Set α)} {seen' : Set α} :
      Search.Done E ok root seen s → Searches E ok s.seen roots gs seen' →
      Searches E ok seen (root :: roots) (s.found :: gs) seen'

/- The result of a search from `r` among the elements that are `ok` and not in `B`. -/
structure Grown (E : α → α → Prop) (ok B : Set α) (r : α) (g : Set α) : Prop where
  root : r ∈ g
  sub : g ⊆ ok \ B
  path : ∀ b ∈ g, Within E g r b

/- Every edge from `U` to something `ok` ends in `B` or in `U`. -/
def Closed (E : α → α → Prop) (ok B U : Set α) : Prop := ∀ a ∈ U, ∀ b, E a b → b ∈ ok → b ∈ B ∪ U

/- A search closes what it finds. -/
theorem Closed.search {B U seen : Set α} {root : α} {s : Search α} (hcl : Closed E ok B U)
    (h : Search.Done E ok root seen s) (hseen : seen = B ∪ U) :
    s.seen = B ∪ (U ∪ s.found) ∧ Closed E ok B (U ∪ s.found) := by
  refine ⟨by rw [h.seen_eq, hseen, Set.union_assoc], ?_⟩
  rintro a (ha | ha) b hab hb
  · exact (hcl a ha b hab hb).imp_right .inl
  · have hc := h.closed ha hab hb
    rwa [hseen, Set.union_assoc] at hc

theorem Searches.spec {B U seen seen' : Set α} {roots : List α} {gs : List (Set α)}
    (h : Searches E ok seen roots gs seen') (hseen : seen = B ∪ U) (hcl : Closed E ok B U)
    (hroots : ∀ r ∈ roots, r ∈ ok \ B) : List.Forall₂ (Grown E ok B) roots gs ∧
      seen' = B ∪ (U ∪ ⋃ g ∈ gs, g) ∧ Closed E ok B (U ∪ ⋃ g ∈ gs, g) := by
  induction h generalizing U with
  | nil seen =>
    have hnil : (⋃ g ∈ ([] : List (Set α)), g) = ∅ := by simp
    rw [hnil, Set.union_empty]
    exact ⟨.nil, hseen, hcl⟩
  | @cons seen root s roots gs seen' hdone _ ih =>
    have hroot := hroots root (List.mem_cons_self ..)
    have hinv := Search.inv_run hdone.run
    have hB : B ⊆ seen := hseen ▸ Set.subset_union_left
    obtain ⟨hnext, hcl'⟩ := hcl.search hdone hseen
    obtain ⟨h1, h2, h3⟩ := ih hnext hcl' fun r hr => hroots r (List.mem_cons_of_mem _ hr)
    have hunion : U ∪ s.found ∪ ⋃ g ∈ gs, g = U ∪ ⋃ g ∈ s.found :: gs, g := by
      rw [Set.union_assoc]
      congr 1
      ext b
      simp
    rw [hunion] at h2 h3
    refine ⟨.cons ⟨hinv.root_found, fun a ha => ?_, hinv.found_path⟩ h1, h2, h3⟩
    rcases hinv.found_ok a ha with rfl | ⟨hok, hno⟩
    · exact hroot
    · exact ⟨hok, fun hb => hno (hB hb)⟩

/- Together the searches find what can be reached from a root. -/
theorem Searches.covers {B seen' : Set α} {roots : List α} {gs : List (Set α)}
    (h : Searches E ok B roots gs seen') (hroots : ∀ r ∈ roots, r ∈ ok \ B) (b : α) :
    (∃ g ∈ gs, b ∈ g) ↔ ∃ r ∈ roots, Within E (ok \ B) r b := by
  obtain ⟨hgrown, -, hcl⟩ := h.spec (U := ∅) (Set.union_empty B).symm (fun a ha => absurd ha (Set.notMem_empty a)) hroots
  rw [Set.empty_union] at hcl
  constructor
  · rintro ⟨g, hg, hb⟩
    obtain ⟨r, hr, hrg⟩ : ∃ r ∈ roots, Grown E ok B r g := by
      obtain ⟨n, hn, rfl⟩ := List.mem_iff_getElem.mp hg
      have hn' : n < roots.length := hgrown.length_eq ▸ hn
      exact ⟨roots[n], List.getElem_mem hn', hgrown.get hn' hn⟩
    exact ⟨r, hr, (hrg.path b hb).mono hrg.sub⟩
  · rintro ⟨r, hr, hpath⟩
    have hmem : ∀ c, c ∈ (⋃ g ∈ gs, g) ↔ ∃ g ∈ gs, c ∈ g := fun c => by simp
    rw [← hmem]
    induction hpath with
    | refl =>
      rw [hmem]
      obtain ⟨n, hn, rfl⟩ := List.mem_iff_getElem.mp hr
      have hn' : n < gs.length := hgrown.length_eq ▸ hn
      exact ⟨gs[n], List.getElem_mem hn', (hgrown.get hn hn').root⟩
    | tail _ hxy ih => exact (hcl _ ih _ hxy.1 hxy.2.1).resolve_left hxy.2.2

/- A set of which every element leads to every other is closed off as a whole. -/
theorem Closed.whole {B U C : Set α} (hcl : Closed E ok B U) (hC : C ⊆ ok \ B)
    (hconn : ∀ a ∈ C, ∀ b ∈ C, Within E C a b) {c : α} (hc : c ∈ C) (hcU : c ∈ U) : C ⊆ U := by
  have hpath : ∀ b, Within E C c b → b ∈ U := by
    intro b h
    induction h with
    | refl => exact hcU
    | tail _ hxy ih =>
      obtain ⟨hok, hno⟩ := hC hxy.2
      exact (hcl _ ih _ hxy.1 hok).resolve_left hno
  exact fun b hb => hpath b (hconn c hc b hb)

/- A root that an earlier search found finds nothing but itself. -/
theorem Search.Done.found_of_closed {root : α} {seen₀ B U : Set α} {s : Search α}
    (h : Search.Done E ok root seen₀ s) (hseen : seen₀ = B ∪ U) (hcl : Closed E ok B U) (hroot : root ∈ U) :
    s.found = {root} := by
  have hinv := Search.inv_run h.run
  have hpath : ∀ a, Within E s.found root a → a = root := by
    intro a ha
    induction ha with
    | refl => rfl
    | @tail x y _ hxy ih =>
      rcases hinv.found_ok y hxy.2 with he | ⟨hok, hno⟩
      · exact he
      · have hm := hcl root hroot y (ih ▸ hxy.1) hok
        rw [← hseen] at hm
        exact absurd hm hno
  refine Set.Subset.antisymm (fun a ha => ?_) (Set.singleton_subset_iff.mpr hinv.root_found)
  exact hpath a (hinv.found_path a ha)

/- No search finds what was closed before, but for its root. -/
theorem Searches.avoid {seen seen' : Set α} {roots : List α} {gs : List (Set α)}
    (h : Searches E ok seen roots gs seen') : List.Forall₂ (fun r g => ∀ a ∈ g, a = r ∨ a ∉ seen) roots gs := by
  induction h with
  | nil => exact .nil
  | @cons seen root s roots gs seen' hdone _ ih =>
    have hinv := Search.inv_run hdone.run
    refine .cons (fun a ha => (hinv.found_ok a ha).imp_right And.right) (ih.imp fun r g hg a ha => ?_)
    exact (hg a ha).imp_right fun hno hs => hno (hinv.seen_mono hs)

/- Of two searches only the root of the later one can be found twice. -/
theorem Searches.pairwise {B seen' : Set α} {xs : List (α × Set α)}
    (h : Searches E ok B (xs.map Prod.fst) (xs.map Prod.snd) seen') :
    xs.Pairwise fun x y => ∀ a ∈ x.2, a ∈ y.2 → a = y.1 := by
  induction xs generalizing B with
  | nil => exact .nil
  | cons x xs ih =>
    obtain ⟨r, g⟩ := x
    cases h with
    | @cons _ _ s _ _ _ hdone hrest =>
      refine .cons (fun y hy a ha hay => ?_) (ih hrest)
      have havoid := hrest.avoid
      rw [List.forall₂_map_left_iff, List.forall₂_map_right_iff, List.forall₂_same] at havoid
      refine (havoid y hy a hay).resolve_right fun hno => hno ?_
      rw [hdone.seen_eq]
      exact .inr ha

theorem Searches.initial {seen seen' : Set α} {pre post : List (α × Set α)}
    (h : Searches E ok seen ((pre ++ post).map Prod.fst) ((pre ++ post).map Prod.snd) seen') :
    ∃ mid, Searches E ok seen (pre.map Prod.fst) (pre.map Prod.snd) mid := by
  induction pre generalizing seen with
  | nil => exact ⟨seen, .nil seen⟩
  | cons x pre ih =>
    obtain ⟨r, g⟩ := x
    cases h with
    | cons hdone hrest =>
      obtain ⟨mid, hmid⟩ := ih hrest
      exact ⟨mid, .cons hdone hmid⟩

/- What a root leads to is found by its own search or by an earlier one. -/
theorem Searches.earlier {B seen' : Set α} {pre post : List (α × Set α)} {x : α × Set α}
    (h : Searches E ok B ((pre ++ x :: post).map Prod.fst) ((pre ++ x :: post).map Prod.snd) seen')
    (hroots : ∀ y ∈ pre ++ x :: post, y.1 ∈ ok \ B) {b : α} (hb : Within E (ok \ B) x.1 b) :
    ∃ y ∈ pre ++ [x], b ∈ y.2 := by
  have hsplit : pre ++ x :: post = (pre ++ [x]) ++ post := by rw [List.append_assoc]; rfl
  rw [hsplit] at h hroots
  obtain ⟨mid, hmid⟩ := h.initial
  have hx : x.1 ∈ (pre ++ [x]).map Prod.fst := List.mem_map_of_mem (List.mem_append_right pre (List.mem_singleton_self x))
  obtain ⟨g, hg, hbg⟩ := (hmid.covers (fun r hr => by
    obtain ⟨y, hy, rfl⟩ := List.mem_map.mp hr
    exact hroots y (List.mem_append_left post hy)) b).mpr ⟨x.1, hx, hb⟩
  obtain ⟨y, hy, rfl⟩ := List.mem_map.mp hg
  exact ⟨y, hy, hbg⟩

/- The first search finds all that can be reached from its root. -/
theorem Searches.first {B seen' : Set α} {root : α} {roots : List α} {g : Set α} {gs : List (Set α)}
    (h : Searches E ok B (root :: roots) (g :: gs) seen') (hroot : root ∈ ok \ B) :
    (∀ b, b ∈ g ↔ Within E (ok \ B) root b) ∧ List.Forall₂ (fun r x => ∀ a ∈ x, a = r ∨ a ∉ g) roots gs := by
  cases h with
  | @cons _ _ s _ _ _ hdone hrest =>
    constructor
    · intro b
      have hcov := (Searches.cons hdone (.nil s.seen)).covers (fun r hr => List.mem_singleton.mp hr ▸ hroot) b
      simp only [List.mem_singleton, exists_eq_left] at hcov
      exact hcov
    · refine hrest.avoid.imp fun r x hx a ha => (hx a ha).imp_right fun hno hg => hno ?_
      rw [hdone.seen_eq]
      exact .inr hg

/- Of a set of which every element leads to every other, a search finds all or nothing,
but for a root that an earlier search has found. -/
theorem Searches.connected {B U seen seen' : Set α} {roots : List α} {gs : List (Set α)}
    (h : Searches E ok seen roots gs seen') (hseen : seen = B ∪ U) (hcl : Closed E ok B U)
    (hroots : ∀ r ∈ roots, r ∈ ok \ B) {C : Set α} (hC : C ⊆ ok \ B)
    (hconn : ∀ a ∈ C, ∀ b ∈ C, Within E C a b) {rpre rpost : List α} {r : α} {gpre gpost : List (Set α)}
    {g : Set α} (hr : roots = rpre ++ r :: rpost) (hg : gs = gpre ++ g :: gpost)
    (hlen : rpre.length = gpre.length) :
    C ⊆ g ∨ (∀ c ∈ C, c ∉ g) ∨ g = {r} ∧ (r ∈ U ∨ ∃ x ∈ gpre, r ∈ x) := by
  induction h generalizing U rpre gpre with
  | nil seen => exact absurd hr (by simp)
  | @cons seen root s roots gs seen' hdone _ ih =>
    obtain ⟨hnext, hcl'⟩ := hcl.search hdone hseen
    cases rpre with
    | nil =>
      obtain rfl : gpre = [] := List.length_eq_zero_iff.mp hlen.symm
      obtain ⟨rfl, -⟩ := List.cons.inj hr
      obtain ⟨rfl, -⟩ := List.cons.inj hg
      by_cases hmeet : ∃ c ∈ C, c ∈ s.found
      · obtain ⟨c, hc, hcf⟩ := hmeet
        by_cases hold : ∃ d ∈ C, d ∈ U
        · -- an earlier search has found the whole set
          obtain ⟨d, hd, hdU⟩ := hold
          have hCU := hcl.whole hC hconn hd hdU
          have hinv := Search.inv_run hdone.run
          rcases hinv.found_ok c hcf with rfl | ⟨-, hno⟩
          · exact .inr (.inr ⟨hdone.found_of_closed hseen hcl (hCU hc), .inl (hCU hc)⟩)
          · exact absurd (hseen ▸ .inr (hCU hc)) hno
        · refine .inl fun d hd => ?_
          have hm := hcl'.whole hC hconn hc (.inr hcf) hd
          exact hm.resolve_left fun hU => hold ⟨d, hd, hU⟩
      · exact .inr (.inl fun c hc hcf => hmeet ⟨c, hc, hcf⟩)
    | cons r' rpre =>
      cases gpre with
      | nil => exact absurd hlen (by simp)
      | cons g' gpre =>
        obtain ⟨-, hr⟩ := List.cons.inj hr
        obtain ⟨rfl, hgs⟩ := List.cons.inj hg
        have hlen' : rpre.length = gpre.length := Nat.succ.inj hlen
        rcases ih hnext hcl' (fun x hx => hroots x (List.mem_cons_of_mem _ hx)) hr hgs hlen' with h | h | ⟨h, hU⟩
        · exact .inl h
        · exact .inr (.inl h)
        · refine .inr (.inr ⟨h, ?_⟩)
          rcases hU with (hU | hU) | ⟨x, hx, hrx⟩
          · exact .inl hU
          · exact .inr ⟨_, List.mem_cons_self .., hU⟩
          · exact .inr ⟨x, List.mem_cons_of_mem _ hx, hrx⟩

end Searches

end Lib
