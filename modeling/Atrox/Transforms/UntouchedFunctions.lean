import Atrox.Transforms.LoopBodyClonerPass

/-!
# Functions out of turn

The pass takes the functions one after the other. A turn changes the function it is for and no other that the module
came with: what the extractor splits, redirects and replaces stays within the function of the loop.
-/

namespace Atrox
open IR Lib

/- The number is that of a block of the function. -/
def BlocksOf (M : Module) (f : FuncId) (n : BlockId) : Prop := ∃ F ∈ M.funcs, F.id = f ∧ ∃ x ∈ F.blocks, x.id = n

/- A function for itself: control and uses stay in it. -/
structure OwnFunction (M : Module) (f : FuncId) : Prop where
  exist : f ∈ M.funcs.map Function.id
  valid : ValidOn M (BlocksOf M f)
  uses : UsesInside M (BlocksOf M f)

section Own
variable {M N : Module} {F G : Function}

theorem Block.succs_inst {b : Block} {s : BlockId} (h : s ∈ b.succs) : ∃ t ∈ b.insts, s ∈ t.succs := by
  unfold Block.succs Block.terminator? at h
  cases hlast : b.insts.getLast? with
  | none =>
    rw [hlast] at h
    cases h
  | some t =>
    rw [hlast] at h
    exact ⟨t, List.mem_of_getLast? hlast, h⟩

theorem blocksOf_iff (hM : M.WF) (hF : F ∈ M.funcs) {x : Block} (hx : x ∈ M.blocks) :
    BlocksOf M F.id x.id ↔ x ∈ F.blocks := by
  constructor
  · rintro ⟨G, hG, hid, y, hy, hyx⟩
    obtain rfl := List.inj_on_of_nodup_map hM.funcs_nodup hG hF hid
    obtain rfl := List.inj_on_of_nodup_map hM.blocks_nodup (List.mem_flatMap.mpr ⟨G, hG, hy⟩) hx hyx
    exact hy
  · intro h
    exact ⟨F, hF, rfl, x, h, rfl⟩

/- A verified module whose functions refer to themselves. -/
theorem Verified.ownFunction (hM : M.WF) (hv : Verified M) (he : ValidEdges M) (hu : ValidUses M) (ha : PHIsPaired M)
    (hself : ∀ F ∈ M.funcs, SelfContained F) (hF : F ∈ M.funcs) : OwnFunction M F.id := by
  have hall := hv.validOn he hu ha
  have hex : ∀ x ∈ M.blocks, ∃ y ∈ M.blocks, y.id = x.id := fun x hx => ⟨x, hx, rfl⟩
  refine ⟨List.mem_map_of_mem hF, ⟨?_, ?_, ?_, ?_, ?_, ?_⟩, ?_⟩
  · rintro n ⟨G, hG, -, x, hx, rfl⟩
    exact ⟨x, List.mem_flatMap.mpr ⟨G, hG, hx⟩, rfl⟩
  · intro x hx hB s hs
    have hxF := (blocksOf_iff hM hF hx).mp hB
    obtain ⟨t, ht, hst⟩ := Block.succs_inst hs
    obtain ⟨b, hb, rfl⟩ := (hself F hF t (List.mem_flatMap.mpr ⟨x, hxF, ht⟩)).2.2 s hst
    exact ⟨F, hF, rfl, b, hb, rfl⟩
  · intro x hx hB i hi hphi p
    have hxF := (blocksOf_iff hM hF hx).mp hB
    rw [hall.phi x hx (hex x hx) i hi hphi p]
    constructor
    · rintro ⟨hp, hpred⟩
      have hin := (hall.phi x hx (hex x hx) i hi hphi p).mpr ⟨hp, hpred⟩
      obtain ⟨b, hb, rfl⟩ := (hself F hF i (List.mem_flatMap.mpr ⟨x, hxF, hi⟩)).2.1 hphi p hin
      exact ⟨⟨F, hF, rfl, b, hb, rfl⟩, hpred⟩
    · rintro ⟨-, q, hq, rfl, hs⟩
      exact ⟨hex q hq, q, hq, rfl, hs⟩
  · exact fun x hx _ => hall.arity x hx (hex x hx)
  · exact fun x hx _ => hall.phisFirst x hx (hex x hx)
  · exact fun x hx _ => hall.last x hx (hex x hx)
  · intro x hx hB i hi j t hj
    have hxF := (blocksOf_iff hM hF hx).mp hB
    obtain ⟨k, hk, rfl⟩ := (hself F hF i (List.mem_flatMap.mpr ⟨x, hxF, hi⟩)).1 (.inst j t) hj
    obtain ⟨b, hb, hkb⟩ := List.mem_flatMap.mp hk
    exact ⟨b, List.mem_flatMap.mpr ⟨F, hF, hb⟩, ⟨F, hF, rfl, b, hb, rfl⟩, List.mem_map_of_mem hkb⟩

/- Another function is aside. -/
theorem OwnFunction.aside (hM : M.WF) (hF : F ∈ M.funcs) (hG : G ∈ M.funcs) (h : OwnFunction M G.id) (hne : G.id ≠ F.id) :
    Aside M (BlocksOf M F.id) G := by
  have hapart : ∀ x ∈ G.blocks, ¬BlocksOf M F.id x.id := by
    intro x hx hB
    have hxM : x ∈ M.blocks := List.mem_flatMap.mpr ⟨G, hG, hx⟩
    exact hne (congrArg Function.id (func_unique hM.toIds hG hF hx ((blocksOf_iff hM hF hxM).mp hB)))
  refine ⟨hapart, fun i hi j t hj x hx hB hmem => ?_⟩
  obtain ⟨b, hb, hib⟩ := List.mem_flatMap.mp hi
  have hbM : b ∈ M.blocks := List.mem_flatMap.mpr ⟨G, hG, hb⟩
  obtain ⟨y, hy, hBy, hjy⟩ := h.uses b hbM ⟨G, hG, rfl, b, hb, rfl⟩ i hib j t hj
  obtain ⟨k, hk, rfl⟩ := List.mem_map.mp hjy
  obtain ⟨l, hl, hlk⟩ := List.mem_map.mp hmem
  -- an instruction is in one block, and that is in one function
  obtain rfl := inst_unique hM.toIds (List.mem_flatMap.mpr ⟨x, hx, hl⟩) (List.mem_flatMap.mpr ⟨y, hy, hk⟩) hlk
  obtain rfl := block_unique hM.toIds hx hy hl hk
  exact hapart x ((blocksOf_iff hM hG hx).mp hBy) hB

/- What is true of a function for itself does not depend on the rest of the module. -/
theorem OwnFunction.kept (hM : M.WF) (hN : N.WF) (hG : G ∈ M.funcs) (hGN : G ∈ N.funcs) (h : OwnFunction M G.id) :
    OwnFunction N G.id := by
  have hsame : ∀ n, BlocksOf N G.id n → BlocksOf M G.id n := by
    rintro n ⟨F, hF, hid, x, hx, rfl⟩
    obtain rfl := List.inj_on_of_nodup_map hN.funcs_nodup hF hGN hid
    exact ⟨F, hG, rfl, x, hx, rfl⟩
  have hback : ∀ n, BlocksOf M G.id n → BlocksOf N G.id n := by
    rintro n ⟨F, hF, hid, x, hx, rfl⟩
    obtain rfl := List.inj_on_of_nodup_map hM.funcs_nodup hF hG hid
    exact ⟨F, hGN, rfl, x, hx, rfl⟩
  have hold : ∀ x ∈ N.blocks, BlocksOf N G.id x.id → x ∈ M.blocks := fun x hx hB =>
    List.mem_flatMap.mpr ⟨G, hG, (blocksOf_iff hN hGN hx).mp hB⟩
  have hnew : ∀ x ∈ M.blocks, BlocksOf M G.id x.id → x ∈ N.blocks := fun x hx hB =>
    List.mem_flatMap.mpr ⟨G, hGN, (blocksOf_iff hM hG hx).mp hB⟩
  refine ⟨List.mem_map_of_mem hGN, ⟨?_, ?_, ?_, ?_, ?_, ?_⟩, ?_⟩
  · intro n hn
    obtain ⟨x, hx, rfl⟩ := h.valid.exist n (hsame n hn)
    exact ⟨x, hnew x hx (hsame x.id hn), rfl⟩
  · exact fun x hx hB s hs => hback s (h.valid.succ x (hold x hx hB) (hsame x.id hB) s hs)
  · intro x hx hB i hi hphi p
    rw [h.valid.phi x (hold x hx hB) (hsame x.id hB) i hi hphi p]
    constructor
    · rintro ⟨hp, q, hq, rfl, hs⟩
      exact ⟨hback q.id hp, q, hnew q hq hp, rfl, hs⟩
    · rintro ⟨hp, q, hq, rfl, hs⟩
      exact ⟨hsame q.id hp, q, hold q hq hp, rfl, hs⟩
  · exact fun x hx hB => h.valid.arity x (hold x hx hB) (hsame x.id hB)
  · exact fun x hx hB => h.valid.phisFirst x (hold x hx hB) (hsame x.id hB)
  · exact fun x hx hB => h.valid.last x (hold x hx hB) (hsame x.id hB)
  · intro x hx hB i hi j t hj
    obtain ⟨y, hy, hBy, hjy⟩ := h.uses x (hold x hx hB) (hsame x.id hB) i hi j t hj
    exact ⟨y, hnew y hy hBy, hback y.id hBy, hjy⟩

/- What grows from the blocks of a function are the blocks of that function. -/
theorem Grown.blocksOf {B' : BlockId → Prop} {fs : List Function} (h : Grown M (BlocksOf M F.id) N B' fs) (hM : M.WF)
    (hF : F ∈ M.funcs) : B' = BlocksOf N F.id := by
  have hinside : Inside [F.id] B' N := by
    refine h.inside [F.id] (fun g hg => ?_) fun G hG b hb hid => ⟨G, hG, List.mem_singleton.mp hid, b, hb, rfl⟩
    rw [List.mem_singleton.mp hg]
    exact List.mem_map_of_mem hF
  have hconfined : Confined [F.id] B' N := by
    refine h.confined [F.id] fun G hG b hb hB => ?_
    have hbF := (blocksOf_iff hM hF (List.mem_flatMap.mpr ⟨G, hG, hb⟩)).mp hB
    rw [func_unique hM.toIds hG hF hb hbF]
    exact List.mem_singleton_self _
  funext n
  apply propext
  constructor
  · intro hn
    obtain ⟨x, hx, rfl⟩ := h.valid.exist n hn
    obtain ⟨G, hG, hxG⟩ := List.mem_flatMap.mp hx
    exact ⟨G, hG, List.mem_singleton.mp (hconfined G hG x hxG hn), x, hxG, rfl⟩
  · rintro ⟨G, hG, hid, x, hx, rfl⟩
    exact hinside G hG x hx (List.mem_singleton.mpr hid)

end Own

namespace LoopBodyClonerPass
variable {S : Type} {p : LoopBodyClonerPass S} {M : Module} {gs : List FuncId}

/- The functions of the given numbers are each for itself. -/
structure Apart (gs : List FuncId) (M : Module) : Prop where
  wf : M.WF
  own : ∀ g ∈ gs, OwnFunction M g

/- A turn leaves the other functions as they are. -/
theorem processFunction_apart {fs : List FuncId} {st st' : ClonerPassState} {f : FuncId} (h : Apart gs st.M)
    (hp : p.FitFor fs) (hf : f ∈ fs) (hg : f ∈ gs) (hstep : p.processFunction st f = some st') :
    Apart gs st'.M ∧ ∀ G ∈ st.M.funcs, G.id ∈ gs → G.id ≠ f → G ∈ st'.M.funcs := by
  obtain ⟨lpc, hlpc, hst⟩ := Option.bind_eq_some_iff.mp hstep
  obtain rfl := Option.some.inj hst
  obtain ⟨F, hF, rfl⟩ := List.mem_map.mp (h.own f hg).exist
  have hrpo : ∀ N, ∀ l ∈ (p.analyses st.M F.id).li.getLoopsInPreorder, ∀ n ∈ (p.analyses st.M F.id).rpo N l,
      BlocksOf st.M F.id n := fun N l _ n hn => hp.blocks st.M F.id hf l n (hp.rpo st.M F.id hf N l n hn)
  obtain ⟨B', os, -, hc⟩ := cloneLoops_run (a := p.cloneLoopsArgs (p.analyses st.M F.id)) h.wf (h.own F.id hg).valid hrpo hlpc
  have hgrown := hc.grown
  obtain rfl := hgrown.blocksOf h.wf hF
  have hstay : ∀ G ∈ st.M.funcs, G.id ∈ gs → G.id ≠ F.id → G ∈ lpc.M.funcs := by
    intro G hG hGg hne
    exact (hgrown.spares G hG ((h.own G.id hGg).aside h.wf hF hG hne)).1
  refine ⟨⟨hgrown.wf, fun g hgg => ?_⟩, hstay⟩
  by_cases he : g = F.id
  · subst he
    have hexist : F.id ∈ lpc.M.funcs.map Function.id := by
      rw [hgrown.ids]
      exact List.mem_append_left _ (List.mem_map_of_mem hF)
    exact ⟨hexist, hgrown.valid, hgrown.usesInside (h.own F.id hg).uses⟩
  · obtain ⟨G, hG, rfl⟩ := List.mem_map.mp (h.own g hgg).exist
    exact (h.own G.id hgg).kept h.wf hgrown.wf hG (hstay G hG hgg he)

/- Turns leave the functions as they are that have none. -/
theorem processFunctions_apart {ws fs : List FuncId} {st st' : ClonerPassState} (h : Apart gs st.M) (hp : p.FitFor ws)
    (hws : ∀ f ∈ fs, f ∈ ws) (hgs : ∀ f ∈ fs, f ∈ gs) (hrun : fs.foldlM p.processFunction st = some st') :
    Apart gs st'.M ∧ ∀ G ∈ st.M.funcs, G.id ∈ gs → G.id ∉ fs → G ∈ st'.M.funcs := by
  induction fs generalizing st with
  | nil =>
    obtain rfl := Option.some.inj hrun
    exact ⟨h, fun G hG _ _ => hG⟩
  | cons f fs ih =>
    rw [List.foldlM_cons] at hrun
    obtain ⟨s, hs, hrest⟩ := Option.bind_eq_some_iff.mp hrun
    obtain ⟨hfirst, hstay⟩ := processFunction_apart h hp (hws f (List.mem_cons_self ..)) (hgs f (List.mem_cons_self ..)) hs
    obtain ⟨hlast, hkeep⟩ := ih hfirst (fun g hg => hws g (List.mem_cons_of_mem _ hg))
      (fun g hg => hgs g (List.mem_cons_of_mem _ hg)) hrest
    refine ⟨hlast, fun G hG hGg hno => ?_⟩
    rw [List.mem_cons, not_or] at hno
    exact hkeep G (hstay G hG hGg hno.1) hGg hno.2

/- However far the pass has come, the functions whose turn has not been are those the module came with, and those whose
turn has been are those it ends with. -/
theorem perform_untouched {st : ClonerPassState} {fs rest : List FuncId} (hM : M.WF) (hv : Verified M) (he : ValidEdges M)
    (hu : ValidUses M) (ha : PHIsPaired M) (hself : ∀ F ∈ M.funcs, SelfContained F) (hp : p.FitFor (p.workList M))
    (hsplit : (p.workList M).reverse = fs ++ rest) (h : p.perform M = some st) :
    ∃ s, fs.foldlM p.processFunction ⟨false, M, []⟩ = some s ∧ rest.foldlM p.processFunction s = some st ∧
      (∀ G ∈ M.funcs, G.id ∉ fs → G ∈ s.M.funcs) ∧
      ∀ G ∈ s.M.funcs, G.id ∈ M.funcs.map Function.id → G.id ∉ rest → G ∈ st.M.funcs := by
  unfold perform at h
  rw [hsplit, List.foldlM_append] at h
  obtain ⟨s, hs, hrest⟩ := Option.bind_eq_some_iff.mp h
  have hmem : ∀ f ∈ fs ++ rest, f ∈ p.workList M := fun f hf => List.mem_reverse.mp (hsplit ▸ hf)
  have hwork : ∀ f ∈ p.workList M, f ∈ M.funcs.map Function.id := by
    intro f hf
    obtain ⟨F, hF, rfl⟩ := List.mem_map.mp hf
    exact List.mem_map_of_mem (List.mem_filter.mp hF).1
  have hstart : Apart (M.funcs.map Function.id) (ClonerPassState.mk false M []).M := by
    refine ⟨hM, fun g hg => ?_⟩
    obtain ⟨F, hF, rfl⟩ := List.mem_map.mp hg
    exact hv.ownFunction hM he hu ha hself hF
  have hfs : ∀ f ∈ fs, f ∈ p.workList M := fun f hf => hmem f (List.mem_append_left _ hf)
  have hrs : ∀ f ∈ rest, f ∈ p.workList M := fun f hf => hmem f (List.mem_append_right _ hf)
  obtain ⟨hmid, hbefore⟩ := processFunctions_apart hstart hp hfs (fun f hf => hwork f (hfs f hf)) hs
  obtain ⟨-, hafter⟩ := processFunctions_apart hmid hp hrs (fun f hf => hwork f (hrs f hf)) hrest
  exact ⟨s, hs, hrest, fun G hG hno => hbefore G hG (List.mem_map_of_mem hG) hno, hafter⟩

end LoopBodyClonerPass

instance (F : Function) (v : Value) : Decidable (F.Owns v) :=
  match v with
  | .inst j _ => inferInstanceAs (Decidable (∃ x ∈ F.insts, x.id = j))
  | .arg f k _ => inferInstanceAs (Decidable (f = F.id ∧ F.params.length > k))
  | .const _ | .func _ | .global _ _ _ => isTrue trivial

/- `sumLoop`, and a function that only returns. -/
def sumAndIdle : Module :=
  { sumLoop with funcs := sumLoop.funcs ++ [{ id := 25, params := [], isVarArg := false, blocks :=
    [⟨26, [⟨27, .ret, .void, [], [], []⟩], false⟩] }] }

theorem sumAndIdle_wf : sumAndIdle.WF := by
  refine ⟨⟨by decide, by decide, by decide, by decide⟩, by decide, by decide, ?_⟩
  decide

theorem sumAndIdle_verified : Verified sumAndIdle where
  entry := by
    intro b hb
    have he : 0 = b ∨ 26 = b := by
      simpa [Module.isEntryBlock, sumAndIdle, sumLoop] using hb
    rcases he with rfl | rfl <;> decide
  ret := by decide
  terminated := by decide
  phisFirst := by decide
  incoming := by decide

theorem sumAndIdle_selfContained : ∀ F ∈ sumAndIdle.funcs, SelfContained F := by
  unfold SelfContained
  decide

/- The idle function has the first turn, and that of the sum leaves it as it is. -/
theorem perform_untouched_sumAndIdle : ∃ st, sumPass.perform sumAndIdle = some st ∧ st.hasChanged = true ∧
    ∃ s, [25].foldlM sumPass.processFunction ⟨false, sumAndIdle, []⟩ = some s ∧
      [9].foldlM sumPass.processFunction s = some st ∧ (∀ G ∈ sumAndIdle.funcs, G.id ∉ [25] → G ∈ s.M.funcs) ∧
      ∀ G ∈ s.M.funcs, G.id ∈ sumAndIdle.funcs.map Function.id → G.id ∉ [9] → G ∈ st.M.funcs := by
  have hrun : (sumPass.perform sumAndIdle).any (fun st => st.hasChanged) = true := by decide
  obtain ⟨st, hst, hchanged⟩ := (Option.any_eq_true _ _).mp hrun
  exact ⟨st, hst, hchanged, LoopBodyClonerPass.perform_untouched sumAndIdle_wf sumAndIdle_verified
    ⟨by decide, by decide⟩ ⟨by decide, by decide⟩ (by unfold PHIsPaired; decide) sumAndIdle_selfContained
    (sumPass_fitFor _) rfl hst⟩

end Atrox
