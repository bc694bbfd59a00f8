import Mathlib.Algebra.GroupWithZero.Nat
import Mathlib.Algebra.Order.BigOperators.Group.List
import Mathlib.Algebra.Order.Group.Nat
import Mathlib.Data.List.Forall2
import Mathlib.Data.List.Lex
import Mathlib.Data.Set.Function
import Mathlib.Order.Interval.Set.Defs

/-!
# Mixed radix

Digits with a radix of their own each. The number they stand for is read from the most
significant digit, or added up from the least significant one.
-/

namespace Lib

/-- Each digit is below its radix. -/
def Digits (ns is : List Nat) : Prop := List.Forall₂ (fun i n => i < n) is ns

/-- The number of the digits; the first one is the most significant. -/
def radixValue : List Nat → List Nat → Nat
  | _ :: ns, i :: is => i * ns.prod + radixValue ns is
  | _, _ => 0

def radixDigits : List Nat → Nat → List Nat
  | [], _ => []
  | _ :: ns, v => v / ns.prod :: radixDigits ns (v % ns.prod)

/-- What a digit counts, when the first one is the least significant and counts `p`. -/
def runningProducts (p : Nat) : List Nat → List Nat
  | [] => []
  | n :: ns => p :: runningProducts (p * n) ns

def scaledDigits (p : Nat) (ns is : List Nat) : List Nat := List.zipWith (fun q i => i * q) (runningProducts p ns) is

section Value
variable {ns is js : List Nat}

theorem radixValue_lt (h : Digits ns is) : radixValue ns is < ns.prod := by
  induction h with
  | nil => exact Nat.zero_lt_one
  | @cons i n is ns hi his ih =>
    have hle : (i + 1) * ns.prod ≤ n * ns.prod := Nat.mul_le_mul_right _ hi
    have hsplit : (i + 1) * ns.prod = i * ns.prod + ns.prod := Nat.succ_mul i ns.prod
    rw [radixValue, List.prod_cons]
    omega

theorem radixDigits_spec {v : Nat} (h : v < ns.prod) :
    Digits ns (radixDigits ns v) ∧ radixValue ns (radixDigits ns v) = v := by
  induction ns generalizing v with
  | nil => exact ⟨.nil, (Nat.lt_one_iff.mp h).symm⟩
  | cons n ns ih =>
    rw [List.prod_cons] at h
    have hpos : 0 < ns.prod := Nat.pos_of_ne_zero fun he => by
      rw [he] at h
      exact Nat.not_lt_zero _ h
    obtain ⟨hdigits, hvalue⟩ := ih (Nat.mod_lt v hpos)
    refine ⟨.cons ((Nat.div_lt_iff_lt_mul hpos).mpr h) hdigits, ?_⟩
    rw [radixDigits, radixValue, hvalue, Nat.div_add_mod']

/-- The most significant digit that differs decides. -/
theorem radixValue_lt_iff (hi : Digits ns is) (hj : Digits ns js) :
    is < js ↔ radixValue ns is < radixValue ns js := by
  induction hi generalizing js with
  | nil =>
    cases hj
    exact iff_of_false (lt_irrefl _) (Nat.lt_irrefl _)
  | @cons i n is ns hi his ih =>
    cases hj with
    | @cons j _ js _ hj hjs =>
      have h1 := radixValue_lt his
      have h2 := radixValue_lt hjs
      rw [List.cons_lt_cons_iff, ih hjs, radixValue, radixValue]
      rcases Nat.lt_trichotomy i j with hlt | rfl | hgt
      · have hle : (i + 1) * ns.prod ≤ j * ns.prod := Nat.mul_le_mul_right _ hlt
        have hsplit : (i + 1) * ns.prod = i * ns.prod + ns.prod := Nat.succ_mul i ns.prod
        omega
      · omega
      · have hle : (j + 1) * ns.prod ≤ i * ns.prod := Nat.mul_le_mul_right _ hgt
        have hsplit : (j + 1) * ns.prod = j * ns.prod + ns.prod := Nat.succ_mul j ns.prod
        omega

theorem radixValue_bijOn (ns : List Nat) : Set.BijOn (radixValue ns) {is | Digits ns is} (Set.Iio ns.prod) := by
  refine ⟨fun is his => radixValue_lt his, fun is his js hjs he => ?_, fun v hv => ?_⟩
  · rcases lt_trichotomy is js with hlt | heq | hgt
    · exact absurd he (Nat.ne_of_lt ((radixValue_lt_iff his hjs).mp hlt))
    · exact heq
    · exact absurd he (Nat.ne_of_gt ((radixValue_lt_iff hjs his).mp hgt))
  · exact ⟨radixDigits ns v, radixDigits_spec hv⟩

end Value

section Scaled
variable {ns is : List Nat} {p : Nat}

theorem runningProducts_length (p : Nat) (ns : List Nat) : (runningProducts p ns).length = ns.length := by
  induction ns generalizing p with
  | nil => rfl
  | cons n ns ih => rw [runningProducts, List.length_cons, List.length_cons, ih]

theorem runningProducts_concat (p : Nat) (ns : List Nat) (n : Nat) :
    runningProducts p (ns ++ [n]) = runningProducts p ns ++ [p * ns.prod] := by
  induction ns generalizing p with
  | nil => simp [runningProducts]
  | cons m ns ih =>
    rw [List.cons_append, runningProducts, ih, runningProducts, List.cons_append, List.prod_cons, Nat.mul_assoc]

theorem runningProducts_take (p : Nat) (ns : List Nat) (m : Nat) :
    (runningProducts p ns).take m = runningProducts p (ns.take m) := by
  induction ns generalizing p m with
  | nil => simp [runningProducts]
  | cons n ns ih =>
    cases m with
    | zero => rfl
    | succ m => rw [runningProducts, List.take_succ_cons, ih, List.take_succ_cons, runningProducts]

theorem mem_runningProducts_le (hpos : ∀ n ∈ ns, 0 < n) {q : Nat} (hq : q ∈ runningProducts p ns) :
    q ≤ p * ns.prod := by
  induction ns generalizing p with
  | nil => exact absurd hq List.not_mem_nil
  | cons n ns ih =>
    obtain ⟨hn, hns⟩ := List.forall_mem_cons.mp hpos
    rw [List.prod_cons, ← Nat.mul_assoc]
    rcases List.mem_cons.mp hq with rfl | hq
    · have hone : q ≤ q * n := Nat.le_mul_of_pos_right q hn
      exact Nat.le_trans hone (Nat.le_mul_of_pos_right _ (List.prod_pos_iff_forall_pos_nat.mpr hns))
    · exact ih hns hq

/-- The low digits stand for less than what the next digit counts. -/
theorem scaledDigits_sum_le (h : Digits ns is) (p : Nat) : (scaledDigits p ns is).sum + p ≤ p * ns.prod := by
  induction h generalizing p with
  | nil => simp [scaledDigits]
  | @cons i n is ns hi his ih =>
    have hrest := ih (p * n)
    have hle : (i + 1) * p ≤ n * p := Nat.mul_le_mul_right p hi
    have hsplit : (i + 1) * p = i * p + p := Nat.succ_mul i p
    have hcomm : n * p = p * n := Nat.mul_comm n p
    have hcons : scaledDigits p (n :: ns) (i :: is) = i * p :: scaledDigits (p * n) ns is := rfl
    rw [hcons, List.sum_cons, List.prod_cons, ← Nat.mul_assoc]
    omega

theorem scaledDigits_take (p : Nat) (ns is : List Nat) (m : Nat) :
    (scaledDigits p ns is).take m = scaledDigits p (ns.take m) (is.take m) := by
  rw [scaledDigits, List.take_zipWith, runningProducts_take, scaledDigits]

/-- Added up from the last digit. -/
theorem scaledDigits_reverse (h : Digits ns is) : (scaledDigits 1 ns.reverse is.reverse).sum = radixValue ns is := by
  induction h with
  | nil => rfl
  | @cons i n is ns hi his ih =>
    have hlen : (runningProducts 1 ns.reverse).length = is.reverse.length := by
      rw [runningProducts_length, List.length_reverse, List.length_reverse, his.length_eq]
    have hrest : (List.zipWith (fun q i => i * q) (runningProducts 1 ns.reverse) is.reverse).sum =
        radixValue ns is := ih
    rw [scaledDigits, List.reverse_cons, List.reverse_cons, runningProducts_concat, List.zipWith_append hlen,
      List.sum_append, hrest, radixValue, Nat.add_comm]
    simp

/-- No digit, and no sum of low digits, counts as much as all digits together. -/
theorem scaledDigits_lt (hpos : ∀ n ∈ ns, 0 < n) (h : Digits ns is) :
    (∀ m, ((scaledDigits 1 ns is).take m).sum < ns.prod) ∧ ∀ x ∈ scaledDigits 1 ns is, x < ns.prod := by
  have htake : ∀ m, ((scaledDigits 1 ns is).take m).sum < ns.prod := by
    intro m
    have hle := scaledDigits_sum_le (List.forall₂_take m h) 1
    have hdvd : (ns.take m).prod ∣ ns.prod := ⟨_, (List.prod_take_mul_prod_drop ns m).symm⟩
    have hprod := Nat.le_of_dvd (List.prod_pos_iff_forall_pos_nat.mpr hpos) hdvd
    rw [scaledDigits_take]
    omega
  refine ⟨htake, fun x hx => ?_⟩
  have hall := htake (scaledDigits 1 ns is).length
  rw [List.take_length] at hall
  exact Nat.lt_of_le_of_lt (List.le_sum_of_mem hx) hall

end Scaled

end Lib
