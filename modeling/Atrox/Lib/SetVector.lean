import Mathlib.Data.List.Nodup
import Mathlib.Data.List.Dedup

/-!
# Ordered sets

A set that remembers the order of insertion, as a list without repetition.
-/

namespace Lib

/-- An ordered set. -/
structure SetVector (α : Type) where
  elems : List α
  nodup : elems.Nodup

namespace SetVector
variable {α : Type}

instance : EmptyCollection (SetVector α) := ⟨⟨[], List.nodup_nil⟩⟩

instance : Membership α (SetVector α) := ⟨fun s a => a ∈ s.elems⟩

@[ext] theorem ext {s t : SetVector α} (h : s.elems = t.elems) : s = t := by
  cases s
  cases t
  cases h
  rfl

theorem mem_def {a : α} {s : SetVector α} : a ∈ s ↔ a ∈ s.elems := Iff.rfl

def filter (p : α → Bool) (s : SetVector α) : SetVector α := ⟨s.elems.filter p, s.nodup.filter p⟩

def length (s : SetVector α) : Nat := s.elems.length

theorem mem_filter {s : SetVector α} {p : α → Bool} {b : α} :
    b ∈ s.filter p ↔ b ∈ s ∧ p b = true := List.mem_filter

theorem notMem_empty (a : α) : a ∉ (∅ : SetVector α) := List.not_mem_nil

variable [DecidableEq α]

instance (a : α) (s : SetVector α) : Decidable (a ∈ s) :=
  inferInstanceAs (Decidable (a ∈ s.elems))

instance : DecidableEq (SetVector α) := fun s t =>
  decidable_of_iff (s.elems = t.elems) ⟨SetVector.ext, congrArg _⟩

/-- Adds at the end what is not there yet. -/
def insert (s : SetVector α) (a : α) : SetVector α :=
  if h : a ∈ s.elems then s
  else ⟨s.elems ++ [a], s.nodup.append (List.nodup_singleton a) (by simpa using h)⟩

def insertAll (s : SetVector α) (as : List α) : SetVector α := as.foldl insert s

def ofList (as : List α) : SetVector α := insertAll ∅ as

def remove (s : SetVector α) (a : α) : SetVector α := ⟨s.elems.erase a, s.nodup.erase a⟩

theorem insert_elems (s : SetVector α) (a : α) :
    (s.insert a).elems = if a ∈ s.elems then s.elems else s.elems ++ [a] := by
  unfold insert
  split <;> rfl

@[simp] theorem mem_insert {s : SetVector α} {a b : α} : b ∈ s.insert a ↔ b ∈ s ∨ b = a := by
  rw [mem_def, insert_elems]
  split
  · next h =>
    constructor
    · exact .inl
    · rintro (hb | rfl)
      · exact hb
      · exact h
  · simp [mem_def]

@[simp] theorem mem_insertAll {s : SetVector α} {as : List α} {b : α} :
    b ∈ s.insertAll as ↔ b ∈ s ∨ b ∈ as := by
  induction as generalizing s with
  | nil => simp [insertAll]
  | cons a as ih =>
    have h := ih (s := s.insert a)
    simp only [insertAll, List.foldl_cons] at h ⊢
    rw [h, mem_insert, List.mem_cons, or_assoc]

@[simp] theorem mem_ofList {as : List α} {b : α} : b ∈ ofList as ↔ b ∈ as := by
  rw [ofList, mem_insertAll]
  simp [notMem_empty]

@[simp] theorem mem_remove {s : SetVector α} {a b : α} : b ∈ s.remove a ↔ b ≠ a ∧ b ∈ s := by
  simp only [mem_def, remove, s.nodup.mem_erase_iff]

/-- Elements not seen before go to the end in their order. -/
theorem insertAll_elems_of_nodup {s : SetVector α} {as : List α} (hn : as.Nodup)
    (hd : ∀ a ∈ as, a ∉ s.elems) : (s.insertAll as).elems = s.elems ++ as := by
  induction as generalizing s with
  | nil => simp [insertAll]
  | cons a as ih =>
    obtain ⟨ha, hn⟩ := List.nodup_cons.mp hn
    have hs : (s.insert a).elems = s.elems ++ [a] := by
      rw [insert_elems, if_neg (hd a (List.mem_cons_self ..))]
    have h := ih (s := s.insert a) hn fun b hb hm => by
      rw [hs, List.mem_append, List.mem_singleton] at hm
      rcases hm with hm | rfl
      · exact hd b (List.mem_cons_of_mem _ hb) hm
      · exact ha hb
    simp only [insertAll, List.foldl_cons] at h ⊢
    rw [h, hs, List.append_assoc, List.singleton_append]

theorem ofList_elems {as : List α} (hn : as.Nodup) : (ofList as).elems = as :=
  insertAll_elems_of_nodup hn fun _ _ => List.not_mem_nil

/-- A list of which nothing is dropped has no repetition. -/
theorem nodup_of_length_ofList {as : List α} (h : (ofList as).elems.length = as.length) : as.Nodup := by
  have hperm : (ofList as).elems.Perm as.dedup :=
    (List.perm_ext_iff_of_nodup (ofList as).nodup as.nodup_dedup).mpr fun a => by
      rw [← mem_def, mem_ofList, List.mem_dedup]
  rw [hperm.length_eq] at h
  rw [← as.dedup_sublist.eq_of_length h]
  exact as.nodup_dedup

end SetVector

/- A list without repetition is in the order of its positions. -/
theorem pairwise_idxOf {α : Type} [DecidableEq α] {l : List α} (h : l.Nodup) :
    l.Pairwise fun a b => l.idxOf a < l.idxOf b := by
  refine List.pairwise_iff_getElem.mpr fun i j hi hj hij => ?_
  rw [h.idxOf_getElem i hi, h.idxOf_getElem j hj]
  exact hij

/- What stands before a kept element of a filtered list is kept with it. -/
theorem mem_takeWhile_of_before {α : Type} [DecidableEq α] {l : List α} (h : l.Nodup) (q p : α → Bool) {x y : α}
    (hx : x ∈ l.filter q) (hy : y ∈ (l.filter q).takeWhile p) (hlt : l.idxOf x < l.idxOf y) :
    x ∈ (l.filter q).takeWhile p := by
  have hpair : (l.filter q).Pairwise fun a b => l.idxOf a < l.idxOf b := (pairwise_idxOf h).filter q
  rw [← @List.takeWhile_append_dropWhile _ p (l.filter q)] at hx hpair
  refine (List.mem_append.mp hx).resolve_right fun hd => ?_
  have := (List.pairwise_append.mp hpair).2.2 y hy x hd
  omega

/- The first of what a filter keeps stands before the rest of it. -/
theorem head?_filter_iff {α : Type} [DecidableEq α] {l : List α} (h : l.Nodup) (q : α → Bool) {x : α} :
    (l.filter q).head? = some x ↔ x ∈ l.filter q ∧ ∀ y ∈ l.filter q, y ≠ x → l.idxOf x < l.idxOf y := by
  have hpair : (l.filter q).Pairwise fun a b => l.idxOf a < l.idxOf b := (pairwise_idxOf h).filter q
  cases hf : l.filter q with
  | nil => simp
  | cons y ys =>
    rw [hf] at hpair
    have hfirst := (List.pairwise_cons.mp hpair).1
    constructor
    · intro hx
      obtain rfl := Option.some.inj hx
      refine ⟨List.mem_cons_self .., fun z hz hne => ?_⟩
      exact hfirst z ((List.mem_cons.mp hz).resolve_left hne)
    · rintro ⟨hx, hlt⟩
      rcases List.mem_cons.mp hx with rfl | hx
      · rfl
      · by_contra hne
        have h1 := hlt y (List.mem_cons_self ..) fun he => hne (congrArg some he)
        have h2 := hfirst x hx
        omega

end Lib
