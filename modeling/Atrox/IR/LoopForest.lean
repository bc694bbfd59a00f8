import Mathlib.Data.List.TakeWhile
import Atrox.IR.NaturalLoops

/-!
# The forest of loops

Sub-loops, the orders in which LLVM walks a nest, and the blocks through which a loop
is left.
-/

namespace Atrox.IR

namespace LoopInfo

/-- `getSubLoops`, in program order. -/
def getSubLoops (LI : LoopInfo) (l : LoopId) : List LoopId :=
  (List.range LI.loops.length).filter fun m => LI.parentOf m = some l

/-- `getLoopDepth` of a loop. -/
def depthOf (LI : LoopInfo) (l : LoopId) : Nat := (LI.enclosing l).length

def topLevelLoops (LI : LoopInfo) : List LoopId :=
  (List.range LI.loops.length).filter fun m => LI.parentOf m = none

def getLoopsInPreorder (LI : LoopInfo) : List LoopId := List.range LI.loops.length

/-- A loop and then its sub-loops with theirs, the last sub-loop first. -/
def reverseSiblingPreorder (LI : LoopInfo) : Nat → LoopId → List LoopId
  | 0, _ => []
  | fuel + 1, l => l :: (LI.getSubLoops l).reverse.flatMap (reverseSiblingPreorder LI fuel)

def getLoopsInReverseSiblingPreorder (LI : LoopInfo) : List LoopId :=
  LI.topLevelLoops.flatMap (LI.reverseSiblingPreorder LI.loops.length)

/-- `L->contains(E->getHeader())`. -/
def containsHeader (LI : LoopInfo) (l e : LoopId) : Bool := (LI.headerOf e).any fun h => h ∈ LI.blocksOf l

/-- The last of `getParentLoop`. -/
def topLoop (LI : LoopInfo) (l : LoopId) : LoopId := ((LI.enclosing l).getLast?).getD l

/-- The blocks of the loop with a successor outside it. -/
def getExitingBlocks (LI : LoopInfo) (M : Module) (l : LoopId) : List BlockId :=
  (LI.blocksOf l).filter fun b => (M.succsOf b).any fun s => s ∉ LI.blocksOf l

/-- `getExitingBlock`: null unless there is exactly one. -/
def getExitingBlock (LI : LoopInfo) (M : Module) (l : LoopId) : Option BlockId :=
  match LI.getExitingBlocks M l with
  | [b] => some b
  | _ => none

/-- `getLoopPredecessor`: the one block outside the loop with edges to the header. -/
def getLoopPredecessor (LI : LoopInfo) (M : Module) (l : LoopId) : Option BlockId :=
  match LI.headerOf l with
  | none => none
  | some h => match ((M.predsOf h).filter fun p => p ∉ LI.blocksOf l).dedup with
    | [p] => some p
    | _ => none

/-- A list of loops in which those nested in a loop follow it at once: they are the next ones deeper than it. -/
def Preorder (LI : LoopInfo) : List LoopId → Prop
  | [] => True
  | l :: ls => (∀ m, m ∈ ls.takeWhile (fun m => LI.depthOf l < LI.depthOf m) ↔ m ∈ ls ∧ l ∈ LI.enclosing m) ∧
    (∀ m ∈ ls, m ∉ LI.enclosing l) ∧ LI.Preorder ls

/-- Every block of a loop has a successor in it, so that it reaches the header again. -/
def StaysInside (LI : LoopInfo) (M : Module) : Prop :=
  ∀ m < LI.loops.length, ∀ b ∈ LI.blocksOf m, ∃ s ∈ M.succsOf b, s ∈ LI.blocksOf m

theorem parentOf_lt {LI : LoopInfo} {m p : LoopId} (h : LI.parentOf m = some p) : m < LI.loops.length := by
  obtain ⟨L, hL, -⟩ := Option.bind_eq_some_iff.mp h
  exact (List.getElem?_eq_some_iff.mp hL).1

/- Of the lists put together only one is not empty. -/
theorem flatMap_ite {α β : Type} [DecidableEq α] {as : List α} (h : as.Nodup) (a : α) (bs : List β) :
    (as.flatMap fun x => if x = a then bs else []) = if a ∈ as then bs else [] := by
  induction as with
  | nil => rfl
  | cons x as ih =>
    obtain ⟨hx, hnd⟩ := List.nodup_cons.mp h
    rw [List.flatMap_cons, ih hnd]
    by_cases he : x = a
    · subst he
      rw [if_pos rfl, if_neg hx, if_pos (List.mem_cons_self ..), List.append_nil]
    · have hmem : a ∈ x :: as ↔ a ∈ as := by
        rw [List.mem_cons]
        exact or_iff_right fun h => he h.symm
      rw [if_neg he, List.nil_append]
      simp only [hmem]

theorem mem_getSubLoops {LI : LoopInfo} {m l : LoopId} : m ∈ LI.getSubLoops l ↔ LI.parentOf m = some l := by
  rw [getSubLoops, List.mem_filter, List.mem_range, decide_eq_true_eq]
  exact ⟨And.right, fun h => ⟨parentOf_lt h, h⟩⟩

section Forest
variable {LI : LoopInfo} {M : Module} (hLI : LI.Natural M)
include hLI

theorem enclosing_lt {m l : LoopId} (hm : m < LI.loops.length) (h : l ∈ LI.enclosing m) : l < LI.loops.length :=
  (enclosing_suffix hLI hm h).1

theorem enclosing_of_parent {m p : LoopId} (h : LI.parentOf m = some p) : LI.enclosing m = m :: LI.enclosing p := by
  rw [enclosing_cons hLI (parentOf_lt h), h]

theorem enclosing_of_top {t : LoopId} (ht : t < LI.loops.length) (h : LI.parentOf t = none) : LI.enclosing t = [t] := by
  rw [enclosing_cons hLI ht, h]

theorem parent_enclosing {m p : LoopId} (h : LI.parentOf m = some p) : p ∈ LI.enclosing m := by
  have hp : p < LI.loops.length := Nat.lt_trans (hLI.parent_lt m p h) (parentOf_lt h)
  rw [enclosing_of_parent hLI h]
  exact List.mem_cons_of_mem m (self_enclosing hLI hp)

theorem containsHeader_iff {l e : LoopId} (hl : l < LI.loops.length) (he : e < LI.loops.length) :
    LI.containsHeader l e = true ↔ l ∈ LI.enclosing e := by
  obtain ⟨h, hh⟩ := headerOf_some he
  rw [containsHeader, hh, Option.any_some, decide_eq_true_eq]
  constructor
  · exact enclosing_of_header hLI hl hh
  · exact fun hle => blocksOf_sub hLI he hle (header_mem hLI hh).2

/- The outermost loop has no loop around it. -/
theorem topLoop_spec {l : LoopId} (hl : l < LI.loops.length) :
    LI.topLoop l ∈ LI.enclosing l ∧ LI.parentOf (LI.topLoop l) = none := by
  induction l using Nat.strongRecOn with
  | ind l ih =>
    cases hp : LI.parentOf l with
    | none =>
      have hself : LI.topLoop l = l := by
        rw [topLoop, enclosing_of_top hLI hl hp]
        rfl
      rw [hself]
      exact ⟨self_enclosing hLI hl, hp⟩
    | some p =>
      have hpl := hLI.parent_lt l p hp
      have hplt : p < LI.loops.length := Nat.lt_trans hpl hl
      have hne : LI.enclosing p ≠ [] := List.ne_nil_of_mem (self_enclosing hLI hplt)
      have hup : LI.topLoop l = LI.topLoop p := by
        rw [topLoop, topLoop, enclosing_of_parent hLI hp, List.getLast?_cons_of_ne_nil hne,
          List.getLast?_eq_some_getLast hne, Option.getD_some, Option.getD_some]
      obtain ⟨h1, h2⟩ := ih p hpl hplt
      rw [hup, enclosing_of_parent hLI hp]
      exact ⟨List.mem_cons_of_mem l h1, h2⟩

theorem depthOf_of_parent {m p : LoopId} (h : LI.parentOf m = some p) : LI.depthOf m = LI.depthOf p + 1 := by
  rw [depthOf, enclosing_of_parent hLI h, List.length_cons, depthOf]

theorem depthOf_le {m l : LoopId} (hm : m < LI.loops.length) (h : l ∈ LI.enclosing m) : LI.depthOf l ≤ LI.depthOf m := by
  by_cases he : m = l
  · exact he ▸ Nat.le_refl _
  · exact Nat.le_of_lt (depth_lt hLI hm ⟨he, h⟩)

/- Around a loop there is one loop of each depth. -/
theorem depthOf_inj {m l k : LoopId} (hm : m < LI.loops.length) (hl : l ∈ LI.enclosing m) (hk : k ∈ LI.enclosing m)
    (hd : LI.depthOf l = LI.depthOf k) : l = k := by
  obtain ⟨hllt, pre, hpre, -⟩ := enclosing_suffix hLI hm hl
  obtain ⟨hklt, pre', hpre', -⟩ := enclosing_suffix hLI hm hk
  have he : LI.enclosing l = LI.enclosing k := List.append_inj_right' (hpre.symm.trans hpre') hd
  rw [enclosing_cons hLI hllt, enclosing_cons hLI hklt] at he
  exact (List.cons.inj he).1

/- Of two loops around a loop one encloses the other. -/
theorem enclosing_total {m l k : LoopId} (hm : m < LI.loops.length) (hl : l ∈ LI.enclosing m) (hk : k ∈ LI.enclosing m) :
    l ∈ LI.enclosing k ∨ k ∈ LI.enclosing l := by
  obtain ⟨hllt, pre, hpre, -⟩ := enclosing_suffix hLI hm hl
  obtain ⟨hklt, pre', hpre', -⟩ := enclosing_suffix hLI hm hk
  rcases List.suffix_or_suffix_of_suffix ⟨pre, hpre.symm⟩ ⟨pre', hpre'.symm⟩ with h | h
  · exact .inl (h.subset (self_enclosing hLI hllt))
  · exact .inr (h.subset (self_enclosing hLI hklt))

/- Only one loop around a loop has none around it. -/
theorem top_unique {m t r : LoopId} (hm : m < LI.loops.length) (ht : t ∈ LI.enclosing m) (hr : r ∈ LI.enclosing m)
    (htop : LI.parentOf t = none) (hrtop : LI.parentOf r = none) : t = r := by
  refine depthOf_inj hLI hm ht hr ?_
  rw [depthOf, depthOf, enclosing_of_top hLI (enclosing_lt hLI hm ht) htop,
    enclosing_of_top hLI (enclosing_lt hLI hm hr) hrtop, List.length_singleton, List.length_singleton]

/- The outermost loop around a loop is around the loops in between too. -/
theorem top_around {m t l : LoopId} (hm : m < LI.loops.length) (ht : t ∈ LI.enclosing m) (htop : LI.parentOf t = none)
    (hl : l ∈ LI.enclosing m) : t ∈ LI.enclosing l := by
  obtain ⟨hr, hrtop⟩ := topLoop_spec hLI (enclosing_lt hLI hm hl)
  rw [top_unique hLI hm ht (enclosing_trans hLI hm hl hr) htop hrtop]
  exact hr

theorem enclosing_nodup {m : LoopId} (hm : m < LI.loops.length) : (LI.enclosing m).Nodup := by
  induction m using Nat.strongRecOn with
  | ind m ih =>
    cases hp : LI.parentOf m with
    | none =>
      rw [enclosing_of_top hLI hm hp]
      exact List.nodup_singleton m
    | some p =>
      have hpm := hLI.parent_lt m p hp
      have hplt : p < LI.loops.length := Nat.lt_trans hpm hm
      rw [enclosing_of_parent hLI hp]
      refine List.nodup_cons.mpr ⟨fun hmp => ?_, ih p hpm hplt⟩
      have hle := depthOf_le hLI hplt hmp
      rw [depthOf_of_parent hLI hp] at hle
      exact Nat.not_succ_le_self _ hle

/- Between a loop and one nested in it there is a sub-loop. -/
theorem subLoop_between {l m : LoopId} (hm : m < LI.loops.length) (h : LI.Inner l m) :
    ∃ s ∈ LI.getSubLoops l, s ∈ LI.enclosing m := by
  induction m using Nat.strongRecOn with
  | ind m ih =>
    obtain ⟨hne, hl⟩ := h
    rw [enclosing_cons hLI hm] at hl
    rcases List.mem_cons.mp hl with rfl | hl
    · exact absurd rfl hne
    · cases hp : LI.parentOf m with
      | none =>
        rw [hp] at hl
        exact absurd hl List.not_mem_nil
      | some p =>
        rw [hp] at hl
        by_cases hpl : p = l
        · exact ⟨m, mem_getSubLoops.mpr (hpl ▸ hp), self_enclosing hLI hm⟩
        · have hpm := hLI.parent_lt m p hp
          obtain ⟨s, hs, hsp⟩ := ih p hpm (Nat.lt_trans hpm hm) ⟨hpl, hl⟩
          rw [enclosing_of_parent hLI hp]
          exact ⟨s, hs, List.mem_cons_of_mem m hsp⟩

/- One level down one unit of fuel less is enough. -/
theorem subLoop_fuel {fuel : Nat} {l s : LoopId} (hfuel : LI.loops.length ≤ l + (fuel + 1))
    (hp : LI.parentOf s = some l) : s < LI.loops.length ∧ LI.loops.length ≤ s + fuel := by
  have hls : l + 1 ≤ s := hLI.parent_lt s l hp
  have hup : l + (fuel + 1) ≤ s + fuel := by
    rw [Nat.add_comm fuel 1, ← Nat.add_assoc]
    exact Nat.add_le_add_right hls fuel
  exact ⟨parentOf_lt hp, Nat.le_trans hfuel hup⟩

/- The walk from a loop meets that loop and those nested in it. -/
theorem mem_reverseSiblingPreorder {fuel : Nat} {l m : LoopId} (hl : l < LI.loops.length)
    (hfuel : LI.loops.length ≤ l + fuel) :
    m ∈ LI.reverseSiblingPreorder fuel l ↔ m < LI.loops.length ∧ l ∈ LI.enclosing m := by
  induction fuel generalizing l with
  | zero => exact absurd hl (Nat.not_lt_of_le hfuel)
  | succ fuel ih =>
    have hstep : ∀ s ∈ LI.getSubLoops l, s < LI.loops.length ∧ LI.loops.length ≤ s + fuel := fun s hs =>
      subLoop_fuel hLI hfuel (mem_getSubLoops.mp hs)
    simp only [reverseSiblingPreorder, List.mem_cons, List.mem_flatMap, List.mem_reverse]
    constructor
    · rintro (rfl | ⟨s, hs, hms⟩)
      · exact ⟨hl, self_enclosing hLI hl⟩
      · obtain ⟨hm, hsm⟩ := (ih (hstep s hs).1 (hstep s hs).2).mp hms
        exact ⟨hm, enclosing_trans hLI hm hsm (parent_enclosing hLI (mem_getSubLoops.mp hs))⟩
    · rintro ⟨hm, hlm⟩
      by_cases hml : m = l
      · exact .inl hml
      · obtain ⟨s, hs, hsm⟩ := subLoop_between hLI hm ⟨hml, hlm⟩
        exact .inr ⟨s, hs, (ih (hstep s hs).1 (hstep s hs).2).mpr ⟨hm, hsm⟩⟩

omit hLI in
/- Two lists in preorder follow each other when the second starts no deeper than the first has been and
no loop of one is nested in a loop of the other. -/
theorem Preorder.append {ls ms : List LoopId} (hls : LI.Preorder ls) (hms : LI.Preorder ms)
    (hstop : ∀ m ∈ ms.head?, ∀ l ∈ ls, LI.depthOf m ≤ LI.depthOf l)
    (hapart : ∀ l ∈ ls, ∀ m ∈ ms, l ∉ LI.enclosing m ∧ m ∉ LI.enclosing l) : LI.Preorder (ls ++ ms) := by
  induction ls with
  | nil => exact hms
  | cons l ls ih =>
    obtain ⟨hnested, hlater, hrest⟩ := hls
    have hstop' : ms.takeWhile (fun m => LI.depthOf l < LI.depthOf m) = [] := by
      cases ms with
      | nil => rfl
      | cons m ms =>
        have hle := hstop m rfl l (List.mem_cons_self ..)
        exact List.takeWhile_cons_of_neg (by simpa using hle)
    have htake : (ls ++ ms).takeWhile (fun m => LI.depthOf l < LI.depthOf m) =
        ls.takeWhile fun m => LI.depthOf l < LI.depthOf m := by
      rw [List.takeWhile_append, hstop', List.append_nil]
      split
      · next hlen => exact ((List.takeWhile_prefix _).eq_of_length hlen).symm
      · rfl
    rw [List.cons_append]
    refine ⟨fun m => ?_, fun m hm => ?_, ?_⟩
    · rw [htake, hnested m, List.mem_append, or_and_right]
      exact (or_iff_left fun hm => (hapart l (List.mem_cons_self ..) m hm.1).1 hm.2).symm
    · rcases List.mem_append.mp hm with hm | hm
      · exact hlater m hm
      · exact (hapart l (List.mem_cons_self ..) m hm).2
    · exact ih hrest (fun m hm k hk => hstop m hm k (List.mem_cons_of_mem l hk))
        fun k hk => hapart k (List.mem_cons_of_mem l hk)

/- The walks from the sub-loops, one after the other. -/
theorem siblings_preorder {fuel : Nat} {l : LoopId} (hfuel : LI.loops.length ≤ l + (fuel + 1))
    (hwalk : ∀ s, LI.parentOf s = some l → LI.Preorder (LI.reverseSiblingPreorder fuel s)) {ss : List LoopId}
    (hnd : ss.Nodup) (hpar : ∀ s ∈ ss, LI.parentOf s = some l) :
    LI.Preorder (ss.flatMap (LI.reverseSiblingPreorder fuel)) := by
  have hmem : ∀ s, LI.parentOf s = some l → ∀ m ∈ LI.reverseSiblingPreorder fuel s,
      m < LI.loops.length ∧ s ∈ LI.enclosing m := fun s hp m =>
    (mem_reverseSiblingPreorder hLI (subLoop_fuel hLI hfuel hp).1 (subLoop_fuel hLI hfuel hp).2).mp
  induction ss with
  | nil => trivial
  | cons s ss ih =>
    obtain ⟨hs, hnd⟩ := List.nodup_cons.mp hnd
    have hps := hpar s (List.mem_cons_self ..)
    have hpss : ∀ r ∈ ss, LI.parentOf r = some l := fun r hr => hpar r (List.mem_cons_of_mem s hr)
    -- of the sub-loops only one is around a loop
    have hone : ∀ r ∈ ss, ∀ m < LI.loops.length, s ∈ LI.enclosing m → r ∉ LI.enclosing m := by
      intro r hr m hm hsm hrm
      have hd : LI.depthOf s = LI.depthOf r := by
        rw [depthOf_of_parent hLI hps, depthOf_of_parent hLI (hpss r hr)]
      exact hs (depthOf_inj hLI hm hsm hrm hd ▸ hr)
    rw [List.flatMap_cons]
    refine (hwalk s hps).append (ih hnd hpss) ?_ ?_
    · intro m hm a ha
      obtain ⟨halt, hsa⟩ := hmem s hps a ha
      refine Nat.le_trans ?_ (depthOf_le hLI halt hsa)
      cases ss with
      | nil => cases hm
      | cons r ss =>
        have hpr := hpss r (List.mem_cons_self ..)
        obtain ⟨hrlt, hrfuel⟩ := subLoop_fuel hLI hfuel hpr
        cases fuel with
        | zero => exact absurd hrlt (Nat.not_lt_of_le hrfuel)
        | succ fuel =>
          obtain rfl : r = m := Option.some.inj hm
          rw [depthOf_of_parent hLI hps, depthOf_of_parent hLI hpr]
    · intro a ha m hm
      obtain ⟨r, hr, hmr⟩ := List.mem_flatMap.mp hm
      obtain ⟨halt, hsa⟩ := hmem s hps a ha
      obtain ⟨hmlt, hrm⟩ := hmem r (hpss r hr) m hmr
      constructor
      · exact fun h => hone r hr m hmlt (enclosing_trans hLI hmlt h hsa) hrm
      · exact fun h => hone r hr a halt hsa (enclosing_trans hLI halt h hrm)

theorem reverseSiblingPreorder_preorder {fuel : Nat} {l : LoopId} (hl : l < LI.loops.length)
    (hfuel : LI.loops.length ≤ l + fuel) : LI.Preorder (LI.reverseSiblingPreorder fuel l) := by
  induction fuel generalizing l with
  | zero => trivial
  | succ fuel ih =>
    have hsub : ∀ s, LI.parentOf s = some l → s < LI.loops.length ∧ LI.loops.length ≤ s + fuel := fun s =>
      subLoop_fuel hLI hfuel
    have hpar : ∀ s ∈ (LI.getSubLoops l).reverse, LI.parentOf s = some l := fun s hs =>
      mem_getSubLoops.mp (List.mem_reverse.mp hs)
    have hnd : (LI.getSubLoops l).reverse.Nodup := List.nodup_reverse.mpr (List.nodup_range.filter _)
    have hdeep : ∀ m ∈ (LI.getSubLoops l).reverse.flatMap (LI.reverseSiblingPreorder fuel),
        l ∈ LI.enclosing m ∧ LI.depthOf l < LI.depthOf m := by
      intro m hm
      obtain ⟨s, hs, hms⟩ := List.mem_flatMap.mp hm
      have hp := hpar s hs
      obtain ⟨hmlt, hsm⟩ := (mem_reverseSiblingPreorder hLI (hsub s hp).1 (hsub s hp).2).mp hms
      refine ⟨enclosing_trans hLI hmlt hsm (parent_enclosing hLI hp), ?_⟩
      have hle := depthOf_le hLI hmlt hsm
      rw [depthOf_of_parent hLI hp] at hle
      exact hle
    have hforest := siblings_preorder hLI hfuel (fun s hp => ih (hsub s hp).1 (hsub s hp).2) hnd hpar
    refine ⟨fun m => ?_, fun m hm hml => ?_, hforest⟩
    · rw [List.takeWhile_eq_self_iff.mpr fun m hm => decide_eq_true (hdeep m hm).2]
      exact ⟨fun hm => ⟨hm, (hdeep m hm).1⟩, And.left⟩
    · exact Nat.not_lt_of_le (depthOf_le hLI hl hml) (hdeep m hm).2

theorem Preorder.nodup {ls : List LoopId} (h : LI.Preorder ls) (hlt : ∀ l ∈ ls, l < LI.loops.length) : ls.Nodup := by
  induction ls with
  | nil => exact List.nodup_nil
  | cons l ls ih =>
    obtain ⟨-, hlater, hrest⟩ := h
    refine List.nodup_cons.mpr ⟨fun hl => ?_, ih hrest fun m hm => hlt m (List.mem_cons_of_mem l hm)⟩
    exact hlater l hl (self_enclosing hLI (hlt l (List.mem_cons_self ..)))

/- The walk from an outermost loop meets each of some loops around one of the nest once. -/
theorem length_filter_around {t l : LoopId} (hl : l < LI.loops.length) (htl : t ∈ LI.enclosing l)
    (htop : LI.parentOf t = none) {as : List LoopId} (has : as.Nodup) (hsub : ∀ m ∈ as, m ∈ LI.enclosing l) :
    ((LI.reverseSiblingPreorder LI.loops.length t).filter fun m => m ∈ as).length = as.length := by
  have ht := enclosing_lt hLI hl htl
  have hwalk : ∀ m, m ∈ LI.reverseSiblingPreorder LI.loops.length t ↔ m < LI.loops.length ∧ t ∈ LI.enclosing m :=
    fun m => mem_reverseSiblingPreorder hLI ht (Nat.le_add_left ..)
  have hnd := (reverseSiblingPreorder_preorder hLI ht (Nat.le_add_left ..)).nodup hLI fun m hm => ((hwalk m).mp hm).1
  refine ((List.perm_ext_iff_of_nodup (hnd.filter _) has).mpr fun m => ?_).length_eq
  rw [List.mem_filter, hwalk, decide_eq_true_eq]
  refine ⟨And.right, fun hma => ?_⟩
  have hm := hsub m hma
  exact ⟨⟨enclosing_lt hLI hl hm, top_around hLI hl htl htop hm⟩, hma⟩

theorem length_filter_enclosing {t l : LoopId} (hl : l < LI.loops.length) (htl : t ∈ LI.enclosing l)
    (htop : LI.parentOf t = none) :
    ((LI.reverseSiblingPreorder LI.loops.length t).filter fun m => m ∈ LI.enclosing l).length = LI.depthOf l :=
  length_filter_around hLI hl htl htop (enclosing_nodup hLI hl) fun _ hm => hm

/- Of the walk over all loops, a nest keeps the walk from its outermost loop. -/
theorem reverseSiblingPreorder_filter {t : LoopId} (ht : t < LI.loops.length) (htop : LI.parentOf t = none) :
    LI.getLoopsInReverseSiblingPreorder.filter (LI.containsHeader t) = LI.reverseSiblingPreorder LI.loops.length t := by
  have hwalk : ∀ r < LI.loops.length, ∀ m, m ∈ LI.reverseSiblingPreorder LI.loops.length r ↔
      m < LI.loops.length ∧ r ∈ LI.enclosing m := fun r hr m =>
    mem_reverseSiblingPreorder hLI hr (Nat.le_add_left ..)
  have htree : ∀ r ∈ LI.topLevelLoops, (LI.reverseSiblingPreorder LI.loops.length r).filter (LI.containsHeader t) =
      if r = t then LI.reverseSiblingPreorder LI.loops.length t else [] := by
    intro r hr
    obtain ⟨hrlt, hrtop⟩ := List.mem_filter.mp hr
    rw [List.mem_range] at hrlt
    rw [decide_eq_true_eq] at hrtop
    split
    · next he =>
      subst he
      refine List.filter_eq_self.mpr fun m hm => ?_
      obtain ⟨hmlt, hrm⟩ := (hwalk r hrlt m).mp hm
      exact (containsHeader_iff hLI hrlt hmlt).mpr hrm
    · next hne =>
      refine List.filter_eq_nil_iff.mpr fun m hm hc => ?_
      obtain ⟨hmlt, hrm⟩ := (hwalk r hrlt m).mp hm
      exact hne (top_unique hLI hmlt hrm ((containsHeader_iff hLI ht hmlt).mp hc) hrtop htop)
  have hmem : t ∈ LI.topLevelLoops := List.mem_filter.mpr ⟨List.mem_range.mpr ht, by simpa using htop⟩
  have hnd : LI.topLevelLoops.Nodup := List.nodup_range.filter _
  rw [getLoopsInReverseSiblingPreorder, List.filter_flatMap, List.flatMap_congr htree, flatMap_ite hnd, if_pos hmem]

end Forest

end LoopInfo

end Atrox.IR
