import Atrox.Analysis.Selectors
import Atrox.Transforms.CloneBehaviour
import Atrox.Transforms.StackSlots

/-!
# Cloning the bodies of all loops (LoopBodyCloner.hpp)

`cloneLoops` goes over the loops of a function while it changes the module. `LoopInfo` stays as
it was; what else is asked is asked of the module at hand.
-/

namespace Atrox
open IR Lib

/- An entry of `StoreInfo`: `FunctionArgSpec` with its pointers, of which that to the function is null for a
loop that was not cloned. -/
structure StoredSpec where
  func : Option FuncId
  curLoop : Option LoopId
  args : List ArgSpec
  deriving DecidableEq

def FunctionArgSpec.stored (s : FunctionArgSpec) : StoredSpec := ⟨some s.func, some s.curLoop, s.args⟩

/- The arguments of `cloneLoops` and the options it reads, with the answers of the analyses. `getBlocks`
is that of the selector, and `rpo` the order of `LoopBlocksRPO`. -/
structure CloneLoopsArgs (S : Type) where
  LI : LoopInfo
  getBlocks : Module → LoopId → Option (List BlockId)
  rpo : Module → LoopId → List BlockId
  getIteratorInfoFor : LoopId → Option IteratorInfo
  getDisposition : LoopId → Value → Int
  SE : Module → ScalarEvolution S
  AA : Module → AAResults
  skipCalls : Bool
  ignoreAliasing : Bool
  aggregateArgs : Bool
  flattenArrayAccesses : Bool
  storeSuccessInfo : Bool
  storeFailInfo : Bool

/- `TargetModule`, `lba` and `StoreInfo` between two loops. -/
structure CloneLoopsState (S : Type) where
  hasChanged : Bool
  M : Module
  lba : LoopBounds S
  storeInfo : List StoredSpec

section Model
variable {S : Type} (a : CloneLoopsArgs S)

/- The call of `cloneLoop` for a loop; `evalLBA` is the copy of the analyzer that `findStackAllocatable`
evaluates. -/
def CloneLoopsArgs.loopArgs (M : Module) (lba evalLBA : LoopBounds S) (curLoop : LoopId) (selected : List BlockId) :
    CloneLoopArgs where
  curLoop := curLoop
  selected := selected
  rpo := a.rpo M curLoop
  itrInfo := some (a.getIteratorInfoFor curLoop)
  getDisposition := some (a.getDisposition curLoop)
  LBA := lba.answers a.LI M (a.SE M) true evalLBA curLoop
    ((∅ : SetVector BlockId).insertAll (orderBlocks (a.rpo M curLoop) selected))
  AA := a.AA M
  skipCalls := a.skipCalls
  ignoreAliasing := a.ignoreAliasing
  aggregateArgs := a.aggregateArgs
  flattenArrayAccesses := a.flattenArrayAccesses
  storeSuccessInfo := a.storeSuccessInfo

/- The call gets past its two early exits, to `prepare`. -/
def CloneLoopArgs.prepares (b : CloneLoopArgs) (M : Module) : Bool :=
  b.selected ≠ [] && !(b.skipCalls && (M.regionInsts (orderBlocks b.rpo b.selected)).any isDetectedCall)

/- One round of the loop over the loops. The evaluation of the analyzer is part of `prepare`; `cloneLoop` puts
its entry behind those there are. -/
def processLoop (st : CloneLoopsState S) (curLoop : LoopId) : Option (CloneLoopsState S) := do
  let lba ← st.lba.analyze a.LI st.M (a.SE st.M) curLoop
  let selected ← a.getBlocks st.M curLoop
  let evalLBA := lba.evaluate a.LI (a.SE st.M) 0 5 curLoop
  let b := a.loopArgs st.M lba (evalLBA.getD lba) curLoop selected
  if b.prepares st.M && evalLBA.isNone then none else
  let r ← cloneLoop b st.M []
  let storeInfo := st.storeInfo ++ r.storeInfo.map FunctionArgSpec.stored
  if r.hasChanged then return ⟨true, r.M, lba, storeInfo⟩
  else if a.storeFailInfo then return ⟨st.hasChanged, r.M, lba, storeInfo ++ [⟨none, some curLoop, []⟩]⟩
  else return ⟨st.hasChanged, r.M, lba, storeInfo⟩

/- `LoopBodyCloner::cloneLoops` of a new cloner. -/
def cloneLoops (M : Module) : Option (CloneLoopsState S) :=
  a.LI.getLoopsInPreorder.foldlM (processLoop a) ⟨false, M, .empty, []⟩

end Model

section Run
variable {S : Type} {a : CloneLoopsArgs S} {M : Module} {B : BlockId → Prop}

/- The specs of an entry have the names of the parameters. -/
theorem argSpecs_names {ps : List Param} {ds : List ArgDirection} {bs : List Bool} (hd : ps.length = ds.length)
    (hb : bs.length = ds.length) : (argSpecs ps ds bs).map ArgSpec.name = ps.map Param.name := by
  have hzip : ps.length ≤ (ds.zip bs).length := by
    rw [List.length_zip]
    omega
  calc (argSpecs ps ds bs).map ArgSpec.name
      = (ps.zip (ds.zip bs)).map fun p => p.1.name := by rw [argSpecs, List.map_map]; rfl
    _ = ((ps.zip (ds.zip bs)).map Prod.fst).map Param.name := by rw [List.map_map]; rfl
    _ = ps.map Param.name := by rw [List.map_fst_zip hzip]

/- A call that extracts nothing leaves all as it is; else the module has grown by the function, and its
parameters are in the entry. -/
theorem cloneLoop_grown {b : CloneLoopArgs} {r : CloneLoopResult} (hM : M.WF) (hv : ValidOn M B)
    (hrpo : ∀ n ∈ b.rpo, B n) (h : cloneLoop b M [] = some r) :
    r = ⟨false, M, [], none⟩ ∨ r.hasChanged = true ∧ ∃ (B' : BlockId → Prop) (F : Function), Grown M B r.M B' [F] ∧
      ∃ args, args.map ArgSpec.name = F.params.map Param.name ∧
        r.storeInfo = if b.storeSuccessInfo then [⟨F.id, b.curLoop, args⟩] else [] := by
  rcases cloneLoop_cases h with rfl | ⟨info, ce, ce', M', f, hx⟩
  · exact .inl rfl
  · have hp := hx.prepared
    unfold preparedExtractor at hp
    obtain ⟨ce₀, h0, hp⟩ := Option.bind_eq_some_iff.mp hp
    obtain ⟨B', F, rfl, hg⟩ := cloneCodeRegion_grown hM hv h0 (fun n hn => hrpo n (List.mem_filter.mp hn).1) hp hx.cloned
    obtain ⟨hchanged, hrM, -, ds, hds, hno, hyes⟩ := recordInfo_spec hx.recorded
    refine .inr ⟨hchanged, B', F, hrM.symm ▸ hg, ?_⟩
    cases hs : b.storeSuccessInfo with
    | false => exact ⟨F.params.map fun p => ⟨p.name, .both, false⟩, by rw [List.map_map]; rfl, hno hs⟩
    | true =>
      obtain ⟨G, hG, hlen, hstore⟩ := hyes hs
      have hvar := (argIteratorVariance_slot b (generateArgDirection_slot hds).1).1
      -- the function of the number has the parameters of `F`
      have hface : F.face ∈ M'.funcs.map Function.face := by
        rw [hg.face]
        exact List.mem_map_of_mem (List.mem_append_right _ (List.mem_singleton_self F))
      obtain ⟨H, hH, hHF⟩ := List.mem_map.mp hface
      have hid : G.id = H.id := (of_decide_eq_true (List.find?_some (p := fun g : Function => decide (g.id = F.id)) hG)).trans
        (congrArg Prod.fst hHF).symm
      obtain rfl := List.inj_on_of_nodup_map hg.wf.funcs_nodup (List.mem_of_find?_eq_some hG) hH hid
      have hparams : G.params = F.params := congrArg (fun f => f.2.1) hHF
      exact ⟨_, (argSpecs_names hlen hvar).trans (by rw [hparams]), hstore⟩

/- The loop, the function and the names of the parameters of an entry. -/
def StoredSpec.key (s : StoredSpec) : Option LoopId × Option FuncId × List String :=
  (s.curLoop, s.func, s.args.map ArgSpec.name)

/- The entry for a loop and the function made of its body, if entries of its kind are stored. -/
def CloneLoopsArgs.entry (a : CloneLoopsArgs S) (o : LoopId × Option Function) :
    Option (Option LoopId × Option FuncId × List String) :=
  match o.2 with
  | some F => if a.storeSuccessInfo then some (some o.1, some F.id, F.params.map Param.name) else none
  | none => if a.storeFailInfo then some (some o.1, none, []) else none

theorem processLoop_grown {st st' : CloneLoopsState S} {l : LoopId} (hM : st.M.WF) (hv : ValidOn st.M B)
    (hrpo : ∀ n ∈ a.rpo st.M l, B n) (h : processLoop a st l = some st') :
    ∃ (B' : BlockId → Prop) (o : Option Function), Grown st.M B st'.M B' o.toList ∧
      st'.hasChanged = (st.hasChanged || o.isSome) ∧
      st'.storeInfo.map StoredSpec.key = st.storeInfo.map StoredSpec.key ++ (a.entry (l, o)).toList := by
  unfold processLoop at h
  obtain ⟨lba, -, h⟩ := Option.bind_eq_some_iff.mp h
  obtain ⟨selected, -, h⟩ := Option.bind_eq_some_iff.mp h
  dsimp only at h
  split at h
  · cases h
  · obtain ⟨r, hr, h⟩ := Option.bind_eq_some_iff.mp h
    rcases cloneLoop_grown hM hv hrpo hr with rfl | ⟨hchanged, B', F, hg, args, hargs, hstore⟩
    · refine ⟨B, none, ?_⟩
      rw [if_neg (by simp)] at h
      split at h
      · next hfail =>
        cases h
        exact ⟨.refl hM hv, by simp, by simp [CloneLoopsArgs.entry, hfail, StoredSpec.key]⟩
      · next hfail =>
        cases h
        exact ⟨.refl hM hv, by simp, by simp [CloneLoopsArgs.entry, hfail]⟩
    · refine ⟨B', some F, ?_⟩
      rw [if_pos hchanged] at h
      cases h
      refine ⟨hg, by simp, ?_⟩
      simp only [hstore, List.map_append, CloneLoopsArgs.entry]
      cases hs : a.storeSuccessInfo with
      | false => simp [CloneLoopsArgs.loopArgs, hs]
      | true => simp [CloneLoopsArgs.loopArgs, hs, FunctionArgSpec.stored, StoredSpec.key, hargs]

theorem filterMap_single {α β : Type} (f : α → Option β) (x : α) : [x].filterMap f = (f x).toList := by
  rw [List.filterMap_cons]
  cases f x <;> rfl

/- A run of `cloneLoops`: the function made of each loop body, or none. -/
structure LoopsCloned (a : CloneLoopsArgs S) (M : Module) (B : BlockId → Prop) (st : CloneLoopsState S)
    (B' : BlockId → Prop) (os : List (LoopId × Option Function)) : Prop where
  grown : Grown M B st.M B' (os.filterMap Prod.snd)
  hasChanged : st.hasChanged = os.any fun o => o.2.isSome
  storeInfo : st.storeInfo.map StoredSpec.key = os.filterMap a.entry

theorem cloneLoops_run {st : CloneLoopsState S} (hM : M.WF) (hv : ValidOn M B)
    (hrpo : ∀ N, ∀ l ∈ a.LI.getLoopsInPreorder, ∀ n ∈ a.rpo N l, B n) (h : cloneLoops a M = some st) :
    ∃ B' os, os.map Prod.fst = a.LI.getLoopsInPreorder ∧ LoopsCloned a M B st B' os := by
  have hrun := foldlM_outcomes (P := fun os st => ∃ B', LoopsCloned a M B st B' os) a.LI.getLoopsInPreorder ?_
    ⟨B, .refl hM hv, rfl, rfl⟩ h
  · obtain ⟨os, hos, B', hc⟩ := hrun
    exact ⟨B', os, hos, hc⟩
  · intro pre l st st' hl hst hstep
    obtain ⟨B', hc⟩ := hst
    obtain ⟨B'', o, hg, hchanged, hstore⟩ := processLoop_grown hc.grown.wf hc.grown.valid
      (fun n hn => hc.grown.sub n (hrpo st.M l hl n hn)) hstep
    refine ⟨o, B'', ?_, ?_, ?_⟩
    · rw [List.filterMap_append, filterMap_single]
      exact hc.grown.trans hg
    · rw [hchanged, hc.hasChanged, List.any_append]
      simp
    · rw [hstore, hc.storeInfo, List.filterMap_append, filterMap_single]

/- Over all loops the functions of the module and what control does in them stay. Behind them stands a
function for each loop whose body was cloned, and the entries tell which loop each is of. -/
theorem cloneLoops_behaviour {st : CloneLoopsState S} (hM : M.WF) (hv : Verified M) (he : ValidEdges M)
    (hu : ValidUses M) (ha : PHIsPaired M) (hLI : ∀ l, ∀ n ∈ a.LI.blocksOf l, ∃ x ∈ M.blocks, x.id = n)
    (hrpo : ∀ N l, ∀ n ∈ a.rpo N l, n ∈ a.LI.blocksOf l) (h : cloneLoops a M = some st) :
    st.M.WF ∧ (∀ x ∈ M.blocks, SameBehaviour M st.M x.id) ∧ ∃ os : List (LoopId × Option Function),
      os.map Prod.fst = a.LI.getLoopsInPreorder ∧
      st.M.funcs.map Function.face = (M.funcs ++ os.filterMap Prod.snd).map Function.face ∧
      st.hasChanged = (os.any fun o => o.2.isSome) ∧ st.storeInfo.map StoredSpec.key = os.filterMap a.entry := by
  obtain ⟨B', os, hos, hc⟩ := cloneLoops_run hM (hv.validOn he hu ha) (fun N l _ n hn => hLI l n (hrpo N l n hn)) h
  exact ⟨hc.grown.wf, fun x hx => hc.grown.same x.id ⟨x, hx, rfl⟩, os, hos, hc.grown.face, hc.hasChanged, hc.storeInfo⟩

end Run

def sumLoops : LoopInfo where
  loops := [⟨1, [1, 2, 3], none⟩]
  bbMap := fun b => if b ∈ [1, 2, 3] then some 0 else none

def sumLoopsArgs : CloneLoopsArgs CountingSCEV where
  LI := sumLoops
  getBlocks := fun N l => some (naiveSelector N sumLoops l)
  rpo := fun _ l => sumLoops.blocksOf l
  getIteratorInfoFor := fun _ => some sumInfo
  getDisposition := fun _ _ => 0
  SE := fun _ => countingSE [10]
  AA := fun _ => sumArgs.AA
  skipCalls := true
  ignoreAliasing := true
  aggregateArgs := false
  flattenArrayAccesses := false
  storeSuccessInfo := true
  storeFailInfo := true

theorem sumLoops_blocks {l : LoopId} {n : BlockId} (h : n ∈ sumLoops.blocksOf l) : ∃ x ∈ sumLoop.blocks, x.id = n := by
  match l with
  | 0 =>
    have hall : ∀ n ∈ sumLoops.blocksOf 0, ∃ x ∈ sumLoop.blocks, x.id = n := by decide
    exact hall n h
  | _ + 1 => cases h

theorem cloneLoops_behaviour_sumLoop : ∃ st, cloneLoops sumLoopsArgs sumLoop = some st ∧ st.hasChanged = true ∧
    st.M.WF ∧ (∀ x ∈ sumLoop.blocks, SameBehaviour sumLoop st.M x.id) ∧ ∃ os : List (LoopId × Option Function),
      os.map Prod.fst = sumLoops.getLoopsInPreorder ∧
      st.M.funcs.map Function.face = (sumLoop.funcs ++ os.filterMap Prod.snd).map Function.face ∧
      st.hasChanged = (os.any fun o => o.2.isSome) ∧ st.storeInfo.map StoredSpec.key = os.filterMap sumLoopsArgs.entry := by
  have hrun : (cloneLoops sumLoopsArgs sumLoop).any CloneLoopsState.hasChanged = true := by decide
  obtain ⟨st, hst, hchanged⟩ := (Option.any_eq_true _ _).mp hrun
  exact ⟨st, hst, hchanged, cloneLoops_behaviour sumLoop_wf sumLoop_verified sumLoop_validEdges sumLoop_validUses
    sumLoop_phisPaired (fun _ _ => sumLoops_blocks) (fun _ _ _ hn => hn) hst⟩

end Atrox
