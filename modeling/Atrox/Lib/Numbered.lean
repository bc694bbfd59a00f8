import Mathlib.Data.List.Basic

/-!
# Numbered names

A name ends in a dot and a number: the number and what stands in front of it can be told.
-/

namespace Lib

/-- What stands behind the last separator has none. -/
theorem append_separator_inj {α : Type} {sep : α} {as bs ds es : List α} (hd : sep ∉ ds) (he : sep ∉ es)
    (h : as ++ sep :: ds = bs ++ sep :: es) : as = bs ∧ ds = es := by
  have hfront : ∀ {xs ys zs : List α}, sep ∉ ys → sep :: ys = xs ++ sep :: zs → xs = [] := by
    intro xs ys zs hys heq
    cases xs with
    | nil => rfl
    | cons x xs =>
      rw [List.cons_append, List.cons.injEq] at heq
      exact absurd (heq.2 ▸ List.mem_append_right xs (List.mem_cons_self ..)) hys
  rcases List.append_eq_append_iff.mp h with ⟨xs, rfl, hrest⟩ | ⟨xs, rfl, hrest⟩
  · obtain rfl := hfront hd hrest
    rw [List.nil_append, List.cons.injEq] at hrest
    exact ⟨(List.append_nil _).symm, hrest.2⟩
  · obtain rfl := hfront he hrest
    rw [List.nil_append, List.cons.injEq] at hrest
    exact ⟨List.append_nil _, hrest.2.symm⟩

theorem dot_notMem_digits (n : Nat) : '.' ∉ Nat.toDigits 10 n := by
  intro h
  have hdigit := Nat.isDigit_of_mem_toDigits (by decide) (Nat.le_refl 10) h
  revert hdigit
  decide

theorem digits_injective {n m : Nat} (h : Nat.toDigits 10 n = Nat.toDigits 10 m) : n = m := by
  have hvalue := congrArg (fun ds => Nat.ofDigitChars 10 ds 0) h
  simpa only [Nat.ofDigitChars_ten_toDigits] using hvalue

theorem numbered_inj {s t : String} {n m : Nat} (h : s ++ "." ++ toString n = t ++ "." ++ toString m) :
    s = t ∧ n = m := by
  have hlist : s.toList ++ '.' :: Nat.toDigits 10 n = t.toList ++ '.' :: Nat.toDigits 10 m := by
    have heq := congrArg String.toList h
    have hdot : ".".toList = ['.'] := rfl
    simp only [String.toList_append, List.append_assoc, Nat.toString_eq_repr, Nat.toList_repr, hdot] at heq
    exact heq
  obtain ⟨hs, hd⟩ := append_separator_inj (dot_notMem_digits n) (dot_notMem_digits m) hlist
  exact ⟨String.toList_inj.mp hs, digits_injective hd⟩

/-- Names with different ends of one length differ. -/
theorem append_end_inj {s t u v : String} (hlen : u.toList.length = v.toList.length) (h : s ++ u = t ++ v) :
    s = t ∧ u = v := by
  have heq := congrArg String.toList h
  simp only [String.toList_append] at heq
  obtain ⟨hs, hu⟩ := List.append_inj' heq hlen
  exact ⟨String.toList_inj.mp hs, String.toList_inj.mp hu⟩

end Lib
