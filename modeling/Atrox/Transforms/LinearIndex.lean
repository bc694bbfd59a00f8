import Mathlib.Algebra.BigOperators.Ring.Finset
import Atrox.Lib.MixedRadix
import Atrox.Transforms.FlattenedAddress

/-!
# The linear index of an element

While the elements of the nest can be counted in 64 bits nothing wraps around: the products, scaled
indices and sums are those of the mixed radix with the sizes as radices.
-/

namespace Atrox
open IR Lib

section Words
variable {ns is : List Nat} {p : Nat}

/- What the scaled indices hold, from the last index to the first. -/
def scaledWords (ns : List Nat) (ws : List Word) : List Word :=
  List.zipWith (fun (p : Nat) (w : Word) => w * p) (dimProducts 1 ns.reverse) ws.reverse

/- What the flattened GEP is indexed with. -/
def linearWord (ns : List Nat) (ws : List Word) : Word := (scaledWords ns ws).sum

theorem dimProducts_exact (hpos : ∀ n ∈ ns, 0 < n) (h : p * ns.prod < 2 ^ 64) :
    dimProducts p ns = runningProducts p ns := by
  induction ns generalizing p with
  | nil => rfl
  | cons n ns ih =>
    obtain ⟨-, hns⟩ := List.forall_mem_cons.mp hpos
    rw [List.prod_cons, ← Nat.mul_assoc] at h
    have hle : p * n ≤ p * n * ns.prod := Nat.le_mul_of_pos_right _ (List.prod_pos_iff_forall_pos_nat.mpr hns)
    rw [dimProducts, runningProducts, Nat.mod_eq_of_lt (Nat.lt_of_le_of_lt hle h), ih hns h]

theorem scaledWords_cast (hpos : ∀ n ∈ ns, 0 < n) (h : ns.prod < 2 ^ 64) :
    scaledWords ns (is.map Nat.cast) = (scaledDigits 1 ns.reverse is.reverse).map Nat.cast := by
  have hrev : 1 * ns.reverse.prod < 2 ^ 64 := by rwa [Nat.one_mul, List.prod_reverse]
  have hposr : ∀ n ∈ ns.reverse, 0 < n := fun n hn => hpos n (List.mem_reverse.mp hn)
  rw [scaledWords, dimProducts_exact hposr hrev, ← List.map_reverse, scaledDigits, List.map_zipWith,
    List.zipWith_map_right]
  simp only [Nat.cast_mul]

theorem toNat_natCast {n : Nat} (h : n < 2 ^ 64) : ((n : Nat) : Word).toNat = n := by
  have hmod : ((n : Nat) : Word).toNat = n % 2 ^ 64 := by simp
  exact hmod.trans (Nat.mod_eq_of_lt h)

theorem linearWord_value (hpos : ∀ n ∈ ns, 0 < n) (h : ns.prod < 2 ^ 64) (his : Digits ns is) :
    (linearWord ns (is.map Nat.cast)).toNat = radixValue ns is := by
  rw [linearWord, scaledWords_cast hpos h, ← Nat.cast_list_sum, scaledDigits_reverse his]
  exact toNat_natCast (Nat.lt_trans (radixValue_lt his) h)

/- No scaled index and no partial sum wraps around. -/
theorem scaledWords_exact (hpos : ∀ n ∈ ns, 0 < n) (h : ns.prod < 2 ^ 64) (his : Digits ns is) :
    (scaledWords ns (is.map Nat.cast)).map BitVec.toNat = scaledDigits 1 ns.reverse is.reverse ∧
    ∀ m, ((scaledWords ns (is.map Nat.cast)).take m).sum.toNat =
      ((scaledDigits 1 ns.reverse is.reverse).take m).sum := by
  have hposr : ∀ n ∈ ns.reverse, 0 < n := fun n hn => hpos n (List.mem_reverse.mp hn)
  obtain ⟨hsums, hall⟩ := scaledDigits_lt hposr (List.forall₂_reverse_iff.mpr his)
  rw [List.prod_reverse] at hsums hall
  rw [scaledWords_cast hpos h]
  constructor
  · rw [List.map_map]
    exact (List.map_congr_left fun x hx => toNat_natCast (Nat.lt_trans (hall x hx) h)).trans (List.map_id _)
  · intro m
    rw [← List.map_take, ← Nat.cast_list_sum]
    exact toNat_natCast (Nat.lt_trans (hsums m) h)

end Words

section Code
variable {M : Module} {gep : Inst} {base first : Value} {pointee : Ty} {a : Nat} {rest : List Value}

/- The values `scaledIndices` and `summedIndices` hold these words. -/
theorem linearWord_holds (DL : DataLayout) (mem : Word → Word) (σ : Env)
    (h : NestGEP M gep base pointee a first rest) :
    ∃ q v vs, scaleIndices ⟨M.nextId, []⟩ (dimProducts 1 pointee.arraySizes.reverse) rest.reverse = some q ∧
      q.1 = v :: vs ∧
      List.Forall₂ (q.2.Holds DL mem ⟨σ, []⟩) q.1 (scaledWords pointee.arraySizes (rest.map (Value.eval σ))) ∧
      ∀ m, ∃ s, sumIndices q.2 v (vs.take m) = some s ∧
        s.2.Holds DL mem ⟨σ, []⟩ s.1
          ((scaledWords pointee.arraySizes (rest.map (Value.eval σ))).take (m + 1)).sum := by
  obtain ⟨q, v, vs, hq, hv, -, hqt, hqh⟩ := h.scaled_holds DL mem σ
  refine ⟨q, v, vs, hq, hv, hqh, fun m => ?_⟩
  rw [hv] at hqt hqh
  obtain ⟨w, ws, hvw, hrest, hws⟩ := List.forall₂_cons_left_iff.mp hqh
  obtain ⟨s, hs, -, hsh⟩ := sumIndices_holds (List.forall₂_take m hrest)
    (fun u hu => hqt u (List.mem_cons_of_mem v (List.mem_of_mem_take hu))) (hqt v (List.mem_cons_self ..)) hvw
  have hwords : scaledWords pointee.arraySizes (rest.map (Value.eval σ)) = w :: ws := hws
  refine ⟨s, hs, ?_⟩
  rw [hwords, List.take_succ_cons, List.sum_cons]
  exact hsh

/- The index of the flattened GEP counts the elements in the order of their indices, each of them once,
and none of the numbers on the way needs more than 64 bits. -/
theorem linearWord_bijective {ns : List Nat} (hpos : ∀ n ∈ ns, 0 < n) (hfit : ns.prod < 2 ^ 64) :
    Set.BijOn (fun is => (linearWord ns (is.map Nat.cast)).toNat) {is | Digits ns is} (Set.Iio ns.prod) ∧
    (∀ is js, Digits ns is → Digits ns js →
      (is < js ↔ (linearWord ns (is.map Nat.cast)).toNat < (linearWord ns (js.map Nat.cast)).toNat)) ∧
    dimProducts 1 ns.reverse = runningProducts 1 ns.reverse ∧ (∀ p ∈ runningProducts 1 ns.reverse, p < 2 ^ 64) ∧
    (∀ is, Digits ns is → (∀ x ∈ scaledDigits 1 ns.reverse is.reverse, x < 2 ^ 64) ∧
      (scaledWords ns (is.map Nat.cast)).map BitVec.toNat = scaledDigits 1 ns.reverse is.reverse ∧
      ∀ m, ((scaledDigits 1 ns.reverse is.reverse).take m).sum < 2 ^ 64 ∧
        ((scaledWords ns (is.map Nat.cast)).take m).sum.toNat = ((scaledDigits 1 ns.reverse is.reverse).take m).sum) ∧
    ∀ {M : Module} {gep : Inst} {base first : Value} {pointee : Ty} {a : Nat} {rest : List Value},
      NestGEP M gep base pointee a first rest → pointee.arraySizes = ns → ∀ DL mem σ, ∃ q v vs,
        scaleIndices ⟨M.nextId, []⟩ (dimProducts 1 ns.reverse) rest.reverse = some q ∧ q.1 = v :: vs ∧
        List.Forall₂ (q.2.Holds DL mem ⟨σ, []⟩) q.1 (scaledWords ns (rest.map (Value.eval σ))) ∧
        ∀ m, ∃ s, sumIndices q.2 v (vs.take m) = some s ∧
          s.2.Holds DL mem ⟨σ, []⟩ s.1 ((scaledWords ns (rest.map (Value.eval σ))).take (m + 1)).sum := by
  have hposr : ∀ n ∈ ns.reverse, 0 < n := fun n hn => hpos n (List.mem_reverse.mp hn)
  have hprod : 1 * ns.reverse.prod = ns.prod := by rw [Nat.one_mul, List.prod_reverse]
  have hvalue : Set.EqOn (radixValue ns) (fun is => (linearWord ns (is.map Nat.cast)).toNat) {is | Digits ns is} :=
    fun is his => (linearWord_value hpos hfit his).symm
  refine ⟨(radixValue_bijOn ns).congr hvalue, fun is js his hjs => ?_, ?_, fun p hp => ?_, fun is his => ?_, ?_⟩
  · rw [linearWord_value hpos hfit his, linearWord_value hpos hfit hjs]
    exact radixValue_lt_iff his hjs
  · exact dimProducts_exact hposr (hprod ▸ hfit)
  · exact Nat.lt_of_le_of_lt (hprod ▸ mem_runningProducts_le hposr hp) hfit
  · obtain ⟨hwords, hsums⟩ := scaledWords_exact hpos hfit his
    obtain ⟨htake, hall⟩ := scaledDigits_lt hposr (List.forall₂_reverse_iff.mpr his)
    rw [List.prod_reverse] at htake hall
    exact ⟨fun x hx => Nat.lt_trans (hall x hx) hfit, hwords, fun m => ⟨Nat.lt_trans (htake m) hfit, hsums m⟩⟩
  · rintro M gep base first pointee a rest h rfl DL mem σ
    exact linearWord_holds DL mem σ h

theorem linearWord_bijective_matrix :
    Set.BijOn (fun is => (linearWord [2, 3] (is.map Nat.cast)).toNat) {is | Digits [2, 3] is} (Set.Iio [2, 3].prod) ∧
    (∀ is js, Digits [2, 3] is → Digits [2, 3] js →
      (is < js ↔ (linearWord [2, 3] (is.map Nat.cast)).toNat < (linearWord [2, 3] (js.map Nat.cast)).toNat)) ∧
    dimProducts 1 [2, 3].reverse = runningProducts 1 [2, 3].reverse ∧
    (∀ p ∈ runningProducts 1 [2, 3].reverse, p < 2 ^ 64) ∧
    (∀ is, Digits [2, 3] is → (∀ x ∈ scaledDigits 1 [2, 3].reverse is.reverse, x < 2 ^ 64) ∧
      (scaledWords [2, 3] (is.map Nat.cast)).map BitVec.toNat = scaledDigits 1 [2, 3].reverse is.reverse ∧
      ∀ m, ((scaledDigits 1 [2, 3].reverse is.reverse).take m).sum < 2 ^ 64 ∧
        ((scaledWords [2, 3] (is.map Nat.cast)).take m).sum.toNat =
          ((scaledDigits 1 [2, 3].reverse is.reverse).take m).sum) ∧
    ∀ {M : Module} {gep : Inst} {base first : Value} {pointee : Ty} {a : Nat} {rest : List Value},
      NestGEP M gep base pointee a first rest → pointee.arraySizes = [2, 3] → ∀ DL mem σ, ∃ q v vs,
        scaleIndices ⟨M.nextId, []⟩ (dimProducts 1 [2, 3].reverse) rest.reverse = some q ∧ q.1 = v :: vs ∧
        List.Forall₂ (q.2.Holds DL mem ⟨σ, []⟩) q.1 (scaledWords [2, 3] (rest.map (Value.eval σ))) ∧
        ∀ m, ∃ s, sumIndices q.2 v (vs.take m) = some s ∧
          s.2.Holds DL mem ⟨σ, []⟩ s.1 ((scaledWords [2, 3] (rest.map (Value.eval σ))).take (m + 1)).sum :=
  linearWord_bijective (by decide) (by decide)

/- `a[1][2]` of a matrix with rows of 3 elements. -/
example : linearWord [2, 3] [1, 2] = 5 := by decide

end Code

end Atrox
