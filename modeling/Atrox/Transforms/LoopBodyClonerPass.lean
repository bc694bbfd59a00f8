import Atrox.Exchange.JSONTransfer
import Atrox.Lib.Numbered

/-!
# The cloning pass over a module (LoopBodyClonerPass.cpp)

The functions with a body are taken from the end of a list made before the first of them is worked
on, so that no clone is ever among them. Each has a cloner of its own, whose entries are exported
before the next function.
-/

namespace Atrox
open IR Lib

inductive SelectionStrategy where
  | naive
  | iteratorRecognitionBased
  | weightedIteratorRecognitionBased

/- What is built for a function when its turn comes. What is asked later is asked of the module then at hand. -/
structure FunctionAnalyses (S : Type) where
  li : LoopInfo
  rpo : Module → LoopId → List BlockId
  getIteratorInfoFor : LoopId → Option IteratorInfo
  payloadOnly : Module → IteratorInfo → BlockId → Bool
  getDisposition : LoopId → Value → Int
  SE : Module → ScalarEvolution S
  AA : Module → AAResults
  loopToJSON : Module → LoopId → Json

/- The options of the pass, the names of the functions and the analyses. `addr` and `pick` are those of the
payload trees. -/
structure LoopBodyClonerPass (S : Type) where
  selectionStrategy : SelectionStrategy
  exportResults : Bool
  exportFailResults : Bool
  functionWhiteList : Option (List String)
  skipCalls : Bool
  ignoreAliasing : Bool
  aggregateArgs : Bool
  flattenArrayAccesses : Bool
  getName : FuncId → String
  analyses : Module → FuncId → FunctionAnalyses S
  addr : BlockId → Nat
  pick : BlockId → Nat → Nat

/- `hasChanged`, the module and the files written so far. -/
structure ClonerPassState where
  hasChanged : Bool
  M : Module
  reports : List (String × Json)

/- The counters of the exports of a function, and its files. -/
structure ExportState where
  successCnt : Nat
  failCnt : Nat
  files : List (String × Json)

def extractedFile (name : String) (n : Nat) : String := "lpc." ++ name ++ ".extracted." ++ toString n

def unextractedFile (name : String) (n : Nat) : String := "lpc." ++ name ++ ".unextracted." ++ toString n

/- The counters are `unsigned int`. -/
def exportEntry (getName : FuncId → String) (loopToJSON : LoopId → Json) (name : String) (st : ExportState)
    (e : StoredSpec) : ExportState :=
  match e.func with
  | some _ => ⟨(st.successCnt + 1) % 2 ^ 32, st.failCnt,
      st.files ++ [(extractedFile name st.successCnt, e.toJSON getName loopToJSON)]⟩
  | none => ⟨st.successCnt, (st.failCnt + 1) % 2 ^ 32,
      st.files ++ [(unextractedFile name st.failCnt, e.toJSON getName loopToJSON)]⟩

inductive PreservedAnalyses where
  | all
  | none
  deriving DecidableEq

namespace LoopBodyClonerPass
variable {S : Type} (p : LoopBodyClonerPass S)

/- `Selector.getBlocks` for the strategy that is set. -/
def getBlocks (A : FunctionAnalyses S) (N : Module) (l : LoopId) : Option (List BlockId) :=
  let info := (A.getIteratorInfoFor l).map (A.payloadOnly N)
  match p.selectionStrategy with
  | .iteratorRecognitionBased => some (iteratorSelector N A.li l (A.rpo N) info)
  | .weightedIteratorRecognitionBased => weightedSelector p.addr p.pick N A.li l info
  | .naive => some (naiveSelector N A.li l)

def cloneLoopsArgs (A : FunctionAnalyses S) : CloneLoopsArgs S where
  LI := A.li
  getBlocks := p.getBlocks A
  rpo := A.rpo
  getIteratorInfoFor := A.getIteratorInfoFor
  getDisposition := A.getDisposition
  SE := A.SE
  AA := A.AA
  skipCalls := p.skipCalls
  ignoreAliasing := p.ignoreAliasing
  aggregateArgs := p.aggregateArgs
  flattenArrayAccesses := p.flattenArrayAccesses
  storeSuccessInfo := p.exportResults
  storeFailInfo := p.exportFailResults

/- A declaration has no block. -/
def workList (M : Module) : List FuncId :=
  (M.funcs.filter fun F => !(F.blocks.isEmpty || p.functionWhiteList.any fun ws => p.getName F.id ∉ ws)).map Function.id

def exportInfo (loopToJSON : LoopId → Json) (f : FuncId) (infos : List StoredSpec) : List (String × Json) :=
  if p.exportResults || p.exportFailResults then
    (infos.foldl (exportEntry p.getName loopToJSON (p.getName f)) ⟨0, 0, []⟩).files
  else []

/- The body of the loop over the work list. -/
def processFunction (st : ClonerPassState) (f : FuncId) : Option ClonerPassState := do
  let A := p.analyses st.M f
  let lpc ← cloneLoops (p.cloneLoopsArgs A) st.M
  return ⟨st.hasChanged || lpc.hasChanged, lpc.M, st.reports ++ p.exportInfo (A.loopToJSON lpc.M) f lpc.storeInfo⟩

/- `LoopBodyClonerPass::perform`; `pop_back_val` takes the functions from the end. -/
def perform (M : Module) : Option ClonerPassState :=
  (p.workList M).reverse.foldlM p.processFunction ⟨false, M, []⟩

/- `LoopBodyClonerPass::run`. -/
def run (M : Module) : Option (PreservedAnalyses × ClonerPassState) := do
  let st ← p.perform M
  return (if st.hasChanged then .all else .none, st)

end LoopBodyClonerPass

section Names

theorem extractedFile_inj {s t : String} {n m : Nat} (h : extractedFile s n = extractedFile t m) : s = t ∧ n = m := by
  have hdot : ".extracted." = ".extracted" ++ "." := rfl
  simp only [extractedFile, hdot, ← String.append_assoc] at h
  obtain ⟨hname, hn⟩ := numbered_inj h
  obtain ⟨hname, -⟩ := append_end_inj rfl hname
  exact ⟨(String.append_right_inj _).mp hname, hn⟩

theorem unextractedFile_inj {s t : String} {n m : Nat} (h : unextractedFile s n = unextractedFile t m) :
    s = t ∧ n = m := by
  have hdot : ".unextracted." = ".unextracted" ++ "." := rfl
  simp only [unextractedFile, hdot, ← String.append_assoc] at h
  obtain ⟨hname, hn⟩ := numbered_inj h
  obtain ⟨hname, -⟩ := append_end_inj rfl hname
  exact ⟨(String.append_right_inj _).mp hname, hn⟩

/- The ends of ten letters differ. -/
theorem extractedFile_ne (s t : String) (n m : Nat) : extractedFile s n ≠ unextractedFile t m := by
  intro h
  have hdot : ".extracted." = ".extracted" ++ "." := rfl
  have hdot' : ".unextracted." = ".u" ++ "nextracted" ++ "." := rfl
  simp only [extractedFile, unextractedFile, hdot, hdot', ← String.append_assoc] at h
  obtain ⟨hname, -⟩ := numbered_inj h
  obtain ⟨-, hend⟩ := append_end_inj (by decide) hname
  revert hend
  decide

end Names

section Export
variable (getName : FuncId → String) (loopToJSON : LoopId → Json) (name : String)

/- The files of a function of which `a` loops were cloned and `b` were not. -/
def reportNames (a b : Nat) : List String :=
  (List.range a).map (extractedFile name) ++ (List.range b).map (unextractedFile name)

theorem reportNames_nodup (a b : Nat) : (reportNames name a b).Nodup := by
  have hextracted : ((List.range a).map (extractedFile name)).Nodup :=
    List.nodup_range.map fun _ _ h => (extractedFile_inj h).2
  have hunextracted : ((List.range b).map (unextractedFile name)).Nodup :=
    List.nodup_range.map fun _ _ h => (unextractedFile_inj h).2
  refine List.nodup_append.mpr ⟨hextracted, hunextracted, ?_⟩
  intro x hx y hy
  obtain ⟨n, -, rfl⟩ := List.mem_map.mp hx
  obtain ⟨m, -, rfl⟩ := List.mem_map.mp hy
  exact extractedFile_ne name name n m

theorem mem_reportNames {a b : Nat} {x : String} (h : x ∈ reportNames name a b) :
    ∃ n, x = extractedFile name n ∨ x = unextractedFile name n := by
  rcases List.mem_append.mp h with h | h
  · obtain ⟨n, -, rfl⟩ := List.mem_map.mp h
    exact ⟨n, .inl rfl⟩
  · obtain ⟨n, -, rfl⟩ := List.mem_map.mp h
    exact ⟨n, .inr rfl⟩

/- Files of functions of different names. -/
theorem reportNames_disjoint {s t : String} (hne : s ≠ t) (a b a' b' : Nat) :
    ∀ x ∈ reportNames s a b, ∀ y ∈ reportNames t a' b', x ≠ y := by
  intro x hx y hy he
  obtain ⟨n, rfl | rfl⟩ := mem_reportNames s hx
  · obtain ⟨m, rfl | rfl⟩ := mem_reportNames t hy
    · exact hne (extractedFile_inj he).1
    · exact extractedFile_ne s t n m he
  · obtain ⟨m, rfl | rfl⟩ := mem_reportNames t hy
    · exact extractedFile_ne t s m n he.symm
    · exact hne (unextractedFile_inj he).1

def StoredSpec.cloned (e : StoredSpec) : Bool := e.func.isSome

def numCloned (es : List StoredSpec) : Nat := es.countP StoredSpec.cloned

def numLeft (es : List StoredSpec) : Nat := es.countP fun e => !e.cloned

theorem numCloned_add_numLeft (es : List StoredSpec) : numCloned es + numLeft es = es.length := by
  have hlength := List.length_eq_countP_add_countP (l := es) StoredSpec.cloned
  simp only [numCloned, numLeft, hlength, Bool.not_eq_true, Bool.decide_eq_false]

/- The exports of the entries so far. -/
structure Exported (es : List StoredSpec) (st : ExportState) : Prop where
  successCnt : st.successCnt = numCloned es % 2 ^ 32
  failCnt : st.failCnt = numLeft es % 2 ^ 32
  names : (st.files.map Prod.fst).Perm (reportNames name (numCloned es) (numLeft es))

theorem exportEntry_exported {es : List StoredSpec} {st : ExportState} (h : Exported name es st)
    (hlen : es.length < 2 ^ 32) (e : StoredSpec) :
    Exported name (es ++ [e]) (exportEntry getName loopToJSON name st e) := by
  have hcount := numCloned_add_numLeft es
  unfold exportEntry
  cases hf : e.func with
  | some f =>
    have hcloned : numCloned (es ++ [e]) = numCloned es + 1 := by simp [numCloned, StoredSpec.cloned, hf]
    have hleft : numLeft (es ++ [e]) = numLeft es := by simp [numLeft, StoredSpec.cloned, hf]
    have hn : st.successCnt = numCloned es := by
      rw [h.successCnt]
      exact Nat.mod_eq_of_lt (by omega)
    refine ⟨?_, ?_, ?_⟩
    · rw [hcloned, hn]
    · rw [hleft]
      exact h.failCnt
    · rw [hcloned, hleft, hn, List.map_append, reportNames, List.range_succ, List.map_append, List.append_assoc]
      refine (h.names.append_right _).trans ?_
      rw [reportNames, List.append_assoc]
      exact List.perm_append_comm.append_left _
  | none =>
    have hcloned : numCloned (es ++ [e]) = numCloned es := by simp [numCloned, StoredSpec.cloned, hf]
    have hleft : numLeft (es ++ [e]) = numLeft es + 1 := by simp [numLeft, StoredSpec.cloned, hf]
    have hn : st.failCnt = numLeft es := by
      rw [h.failCnt]
      exact Nat.mod_eq_of_lt (by omega)
    refine ⟨?_, ?_, ?_⟩
    · rw [hcloned]
      exact h.successCnt
    · rw [hleft, hn]
    · rw [hcloned, hleft, hn, List.map_append, reportNames, List.range_succ, List.map_append, ← List.append_assoc]
      exact h.names.append_right _

theorem exports_spec {es : List StoredSpec} (hlen : es.length ≤ 2 ^ 32) :
    Exported name es (es.foldl (exportEntry getName loopToJSON name) ⟨0, 0, []⟩) := by
  induction es using List.reverseRecOn with
  | nil => exact ⟨rfl, rfl, .refl _⟩
  | append_singleton es e ih =>
    rw [List.length_append, List.length_singleton] at hlen
    rw [List.foldl_append]
    exact exportEntry_exported getName loopToJSON name (ih (by omega)) hlen e

theorem exports_contents (es : List StoredSpec) (st : ExportState) :
    (es.foldl (exportEntry getName loopToJSON name) st).files.map Prod.snd =
      st.files.map Prod.snd ++ es.map (StoredSpec.toJSON getName loopToJSON) := by
  induction es generalizing st with
  | nil => rw [List.foldl_nil, List.map_nil, List.append_nil]
  | cons e es ih =>
    have hstep : (exportEntry getName loopToJSON name st e).files.map Prod.snd =
        st.files.map Prod.snd ++ [e.toJSON getName loopToJSON] := by
      unfold exportEntry
      cases e.func <;> exact List.map_append ..
    rw [List.foldl_cons, ih, hstep, List.map_cons, List.append_assoc]
    rfl

end Export

/- The module when the turn of a function comes and after it, and the function made of each of its loops, or none. -/
structure FunctionRun where
  before : Module
  after : Module
  loops : List (LoopId × Option Function)

def FunctionRun.made (r : FunctionRun) : List Function := r.loops.filterMap Prod.snd

namespace LoopBodyClonerPass
variable {S : Type} (p : LoopBodyClonerPass S)

/- The turns of the functions, one after another, from `M` to `N`. -/
def Consecutive (M : Module) : List (FuncId × FunctionRun) → Module → Prop
  | [], N => N = M
  | r :: rs, N => r.2.before = M ∧ Consecutive r.2.after rs N

theorem Consecutive.push {M N : Module} {rs : List (FuncId × FunctionRun)} (h : Consecutive M rs N)
    {r : FuncId × FunctionRun} (hr : r.2.before = N) : Consecutive M (rs ++ [r]) r.2.after := by
  induction rs generalizing M with
  | nil => exact ⟨hr.trans h, rfl⟩
  | cons s rs ih => exact ⟨h.1, ih h.2⟩

/- What a reader of the files finds about a loop. -/
def reported (r : FuncId × FunctionRun) (o : LoopId × Option Function) : Option (String × Option (Json × List String)) :=
  let loop := (p.analyses r.2.before r.1).loopToJSON r.2.after o.1
  match o.2 with
  | some F => if p.exportResults then some (p.getName F.id, some (loop, F.params.map Param.name)) else none
  | none => if p.exportFailResults then some ("", some (loop, [])) else none

/- The names of the files of a function. -/
def filesOf (r : FuncId × FunctionRun) : List String :=
  reportNames (p.getName r.1)
    (if p.exportResults then r.2.loops.countP fun o => o.2.isSome else 0)
    (if p.exportFailResults then r.2.loops.countP fun o => o.2.isNone else 0)

/- The file, with the names of the arguments only. -/
def readReport (v : Json) : Option (String × Option (Json × List String)) :=
  (readEntry v).map fun e => (e.1, e.2.map fun a => (a.1, a.2.map ArgSpec.name))

section Entries
variable {p} {A : FunctionAnalyses S} {es : List StoredSpec} {os : List (LoopId × Option Function)}

theorem readReport_toJSON (getName : FuncId → String) (loopToJSON : LoopId → Json) (e : StoredSpec) :
    readReport (e.toJSON getName loopToJSON) =
      some ((e.key.2.1.map getName).getD "", e.key.1.map fun l => (loopToJSON l, e.key.2.2)) := by
  rw [readReport, readEntry_toJSON]
  cases h : e.curLoop <;> simp [StoredSpec.told, StoredSpec.key, h]

/- Entries are counted by the loops they are of. -/
theorem countP_entries (q : Option LoopId × Option FuncId × List String → Bool) (r : LoopId × Option Function → Bool)
    (c : Bool) (hq : ∀ o, (((p.cloneLoopsArgs A).entry o).map q).getD false = (c && r o))
    (h : es.map StoredSpec.key = os.filterMap (p.cloneLoopsArgs A).entry) :
    (es.map StoredSpec.key).countP q = if c then os.countP r else 0 := by
  have hcount : os.countP (fun o => (((p.cloneLoopsArgs A).entry o).map q).getD false) = os.countP fun o => c && r o :=
    List.countP_congr fun o _ => by rw [hq]
  rw [h, List.countP_filterMap, hcount]
  cases c with
  | false => simp
  | true => simp

theorem numCloned_entries (h : es.map StoredSpec.key = os.filterMap (p.cloneLoopsArgs A).entry) :
    numCloned es = if p.exportResults then os.countP fun o => o.2.isSome else 0 := by
  have hkey : numCloned es = (es.map StoredSpec.key).countP fun k => k.2.1.isSome := by
    rw [List.countP_map]
    rfl
  rw [hkey]
  refine countP_entries _ _ _ ?_ h
  intro o
  obtain ⟨l, F⟩ := o
  cases F <;> by_cases hs : p.exportResults <;> by_cases hf : p.exportFailResults <;>
    simp [CloneLoopsArgs.entry, cloneLoopsArgs, hs, hf]

theorem numLeft_entries (h : es.map StoredSpec.key = os.filterMap (p.cloneLoopsArgs A).entry) :
    numLeft es = if p.exportFailResults then os.countP fun o => o.2.isNone else 0 := by
  have hkey : numLeft es = (es.map StoredSpec.key).countP fun k => !k.2.1.isSome := by
    rw [List.countP_map]
    rfl
  rw [hkey]
  refine countP_entries _ _ _ ?_ h
  intro o
  obtain ⟨l, F⟩ := o
  cases F <;> by_cases hs : p.exportResults <;> by_cases hf : p.exportFailResults <;>
    simp [CloneLoopsArgs.entry, cloneLoopsArgs, hs, hf]

theorem reported_entry (r : FuncId × FunctionRun) (hA : A = p.analyses r.2.before r.1) (o : LoopId × Option Function) :
    (((p.cloneLoopsArgs A).entry o).map fun k =>
      ((k.2.1.map p.getName).getD "", k.1.map fun l => (A.loopToJSON r.2.after l, k.2.2))) = p.reported r o := by
  obtain ⟨l, F⟩ := o
  subst hA
  cases F <;> by_cases hs : p.exportResults <;> by_cases hf : p.exportFailResults <;>
    simp [CloneLoopsArgs.entry, cloneLoopsArgs, reported, hs, hf]

/- The files of a function tell of its loops. -/
theorem exportInfo_reported {r : FuncId × FunctionRun} (hA : A = p.analyses r.2.before r.1)
    (h : es.map StoredSpec.key = r.2.loops.filterMap (p.cloneLoopsArgs A).entry) :
    (p.exportInfo (A.loopToJSON r.2.after) r.1 es).map (fun f => readReport f.2) =
      (r.2.loops.filterMap (p.reported r)).map some := by
  have hread : es.map (fun e => readReport (e.toJSON p.getName (A.loopToJSON r.2.after))) =
      (r.2.loops.filterMap (p.reported r)).map some := by
    simp only [readReport_toJSON, ← reported_entry r hA, ← List.map_filterMap, ← h, List.map_map]
    rfl
  unfold exportInfo
  by_cases hexport : p.exportResults || p.exportFailResults
  · rw [if_pos hexport, ← hread]
    have hcontents := exports_contents p.getName (A.loopToJSON r.2.after) (p.getName r.1) es ⟨0, 0, []⟩
    calc _ = ((es.foldl (exportEntry p.getName (A.loopToJSON r.2.after) (p.getName r.1)) ⟨0, 0, []⟩).files.map
          Prod.snd).map readReport := by rw [List.map_map]; rfl
      _ = _ := by rw [hcontents, List.map_nil, List.nil_append, List.map_map]; rfl
  · have hnone : ∀ o, p.reported r o = none := by
      intro o
      unfold reported
      simp only [Bool.or_eq_true, not_or, Bool.not_eq_true] at hexport
      cases o.2 <;> simp [hexport]
    rw [if_neg hexport, List.filterMap_eq_nil_iff.mpr fun o _ => hnone o]
    rfl

theorem exportInfo_filesOf {r : FuncId × FunctionRun} (loopToJSON : LoopId → Json)
    (h : es.map StoredSpec.key = r.2.loops.filterMap (p.cloneLoopsArgs A).entry) (hlen : r.2.loops.length ≤ 2 ^ 32) :
    ((p.exportInfo loopToJSON r.1 es).map Prod.fst).Perm (p.filesOf r) := by
  have hes : es.length ≤ 2 ^ 32 := by
    have hkeys : es.length = (r.2.loops.filterMap (p.cloneLoopsArgs A).entry).length := by rw [← h, List.length_map]
    exact (hkeys.le.trans (List.length_filterMap_le _ _)).trans hlen
  unfold exportInfo filesOf
  by_cases hexport : p.exportResults || p.exportFailResults
  · rw [if_pos hexport, ← numCloned_entries h, ← numLeft_entries h]
    exact (exports_spec p.getName loopToJSON (p.getName r.1) hes).names
  · simp only [Bool.or_eq_true, not_or, Bool.not_eq_true] at hexport
    simp [hexport, reportNames]

end Entries

section Pass
variable {p} {M : Module} {B : BlockId → Prop}

/- The analyses are of the function they are asked for: its loops have blocks of it. -/
structure FitFor (p : LoopBodyClonerPass S) (fs : List FuncId) : Prop where
  blocks : ∀ N, ∀ f ∈ fs, ∀ l, ∀ n ∈ (p.analyses N f).li.blocksOf l, ∃ F ∈ N.funcs, F.id = f ∧ ∃ x ∈ F.blocks, x.id = n
  rpo : ∀ N, ∀ f ∈ fs, ∀ K l, ∀ n ∈ (p.analyses N f).rpo K l, n ∈ (p.analyses N f).li.blocksOf l

/- A turn goes over the loops of the function, and what is made of them stands behind the functions there were. -/
structure Turn (p : LoopBodyClonerPass S) (r : FuncId × FunctionRun) : Prop where
  loops : r.2.loops.map Prod.fst = (p.analyses r.2.before r.1).li.getLoopsInPreorder
  face : r.2.after.funcs.map Function.face = (r.2.before.funcs ++ r.2.made).map Function.face

/- The pass after some of its turns. -/
structure PassRun (p : LoopBodyClonerPass S) (M : Module) (B : BlockId → Prop) (runs : List (FuncId × FunctionRun))
    (st : ClonerPassState) (B' : BlockId → Prop) : Prop where
  grown : Grown M B st.M B' (runs.flatMap fun r => r.2.made)
  hasChanged : st.hasChanged = runs.any fun r => r.2.loops.any fun o => o.2.isSome
  consecutive : Consecutive M runs st.M
  turns : ∀ r ∈ runs, p.Turn r
  read : st.reports.map (fun f => readReport f.2) = (runs.flatMap fun r => r.2.loops.filterMap (p.reported r)).map some
  files : (∀ r ∈ runs, r.2.loops.length ≤ 2 ^ 32) → (st.reports.map Prod.fst).Perm (runs.flatMap p.filesOf)

theorem processFunction_run {runs : List (FuncId × FunctionRun)} {st st' : ClonerPassState} {B' : BlockId → Prop} {f : FuncId}
    (h : PassRun p M B runs st B') (hp : p.FitFor (p.workList M)) (hB : Inside (p.workList M) B M)
    (hf : f ∈ p.workList M) (hstep : p.processFunction st f = some st') :
    ∃ r B'', PassRun p M B (runs ++ [(f, r)]) st' B'' := by
  obtain ⟨lpc, hlpc, hst⟩ := Option.bind_eq_some_iff.mp hstep
  obtain rfl := Option.some.inj hst
  have hwork : ∀ g ∈ p.workList M, g ∈ M.funcs.map Function.id := by
    intro g hg
    obtain ⟨F, hF, rfl⟩ := List.mem_map.mp hg
    exact List.mem_map_of_mem (List.mem_filter.mp hF).1
  have hin := h.grown.inside (p.workList M) hwork hB
  have hrpo : ∀ N, ∀ l ∈ (p.analyses st.M f).li.getLoopsInPreorder, ∀ n ∈ (p.analyses st.M f).rpo N l, B' n := by
    intro N l _ n hn
    obtain ⟨F, hF, rfl, x, hx, rfl⟩ := hp.blocks st.M f hf l n (hp.rpo st.M f hf N l n hn)
    exact hin F hF x hx hf
  obtain ⟨B'', os, hos, hc⟩ := cloneLoops_run (a := p.cloneLoopsArgs (p.analyses st.M f)) h.grown.wf h.grown.valid hrpo hlpc
  refine ⟨⟨st.M, lpc.M, os⟩, B'', ?_, ?_, ?_, ?_, ?_, ?_⟩
  · rw [List.flatMap_append, List.flatMap_singleton]
    exact h.grown.trans hc.grown
  · simp only [h.hasChanged, hc.hasChanged, List.any_append, List.any_cons, List.any_nil, Bool.or_false]
  · exact h.consecutive.push (r := (f, ⟨st.M, lpc.M, os⟩)) rfl
  · intro r hr
    rcases List.mem_append.mp hr with hr | hr
    · exact h.turns r hr
    · rw [List.mem_singleton.mp hr]
      exact ⟨hos, hc.grown.face⟩
  · have hfiles := exportInfo_reported (r := (f, ⟨st.M, lpc.M, os⟩)) rfl hc.storeInfo
    rw [List.map_append, h.read, hfiles, List.flatMap_append, List.flatMap_singleton, List.map_append]
  · intro hlen
    have hlast : os.length ≤ 2 ^ 32 := hlen (f, ⟨st.M, lpc.M, os⟩) (List.mem_append_right _ (List.mem_singleton_self _))
    have hfiles := exportInfo_filesOf (r := (f, ⟨st.M, lpc.M, os⟩)) ((p.analyses st.M f).loopToJSON lpc.M) hc.storeInfo hlast
    rw [List.map_append, List.flatMap_append, List.flatMap_singleton]
    exact (h.files fun r hr => hlen r (List.mem_append_left _ hr)).append hfiles

theorem perform_run {st : ClonerPassState} (hM : M.WF) (hv : ValidOn M B) (hp : p.FitFor (p.workList M))
    (hB : Inside (p.workList M) B M) (h : p.perform M = some st) :
    ∃ runs B', runs.map Prod.fst = (p.workList M).reverse ∧ PassRun p M B runs st B' := by
  have hstart : PassRun p M B [] ⟨false, M, []⟩ B :=
    ⟨.refl hM hv, rfl, rfl, fun _ hr => absurd hr List.not_mem_nil, rfl, fun _ => .refl _⟩
  have hrun := foldlM_outcomes (P := fun runs st => ∃ B', PassRun p M B runs st B') (p.workList M).reverse ?_
    ⟨B, hstart⟩ h
  · obtain ⟨runs, hruns, B', hr⟩ := hrun
    exact ⟨runs, B', hruns, hr⟩
  · intro runs f st st' hf hst hstep
    obtain ⟨B', hr⟩ := hst
    exact processFunction_run hr hp hB (List.mem_reverse.mp hf) hstep

theorem inside_blocks (fs : List FuncId) (M : Module) : Inside fs (fun n => ∃ x ∈ M.blocks, x.id = n) M :=
  fun F hF b hb _ => ⟨b, List.mem_flatMap.mpr ⟨F, hF, hb⟩, rfl⟩

theorem any_made (runs : List (FuncId × FunctionRun)) :
    (runs.any fun r => r.2.loops.any fun o => o.2.isSome) = true ↔ 0 < (runs.flatMap fun r => r.2.made).length := by
  constructor
  · intro h
    obtain ⟨r, hr, h⟩ := List.any_eq_true.mp h
    obtain ⟨o, ho, h⟩ := List.any_eq_true.mp h
    obtain ⟨F, hF⟩ := Option.isSome_iff_exists.mp h
    exact List.length_pos_of_mem (List.mem_flatMap.mpr ⟨r, hr, List.mem_filterMap.mpr ⟨o, ho, hF⟩⟩)
  · intro h
    obtain ⟨F, hF⟩ := List.exists_mem_of_length_pos h
    obtain ⟨r, hr, hF⟩ := List.mem_flatMap.mp hF
    obtain ⟨o, ho, hF⟩ := List.mem_filterMap.mp hF
    exact List.any_eq_true.mpr ⟨r, hr, List.any_eq_true.mpr ⟨o, ho, Option.isSome_iff_exists.mpr ⟨F, hF⟩⟩⟩

/- The pass keeps the functions of the module and what control does from every block of them. Behind them stand
the functions made in the turns, and all analyses are said to be preserved when there is one. -/
theorem run_behaviour {pa : PreservedAnalyses} {st : ClonerPassState} (hM : M.WF) (hv : Verified M) (he : ValidEdges M)
    (hu : ValidUses M) (ha : PHIsPaired M) (hp : p.FitFor (p.workList M)) (h : p.run M = some (pa, st)) :
    st.M.WF ∧ (∀ x ∈ M.blocks, SameBehaviour M st.M x.id) ∧
      (pa = .all ↔ M.funcs.length < st.M.funcs.length) ∧ ∃ runs : List (FuncId × FunctionRun),
        runs.map Prod.fst = (p.workList M).reverse ∧ Consecutive M runs st.M ∧ (∀ r ∈ runs, p.Turn r) ∧
        st.M.funcs.map Function.face = (M.funcs ++ runs.flatMap fun r => r.2.made).map Function.face := by
  obtain ⟨st', hperform, hst⟩ := Option.bind_eq_some_iff.mp h
  obtain ⟨hpa, rfl⟩ := Prod.mk.inj (Option.some.inj hst)
  obtain ⟨runs, B', hruns, hr⟩ := perform_run hM (hv.validOn he hu ha) hp (inside_blocks _ M) hperform
  refine ⟨hr.grown.wf, fun x hx => hr.grown.same x.id ⟨x, hx, rfl⟩, ?_, runs, hruns, hr.consecutive, hr.turns, hr.grown.face⟩
  have hlength : st'.M.funcs.length = M.funcs.length + (runs.flatMap fun r => r.2.made).length := by
    have hface := congrArg List.length hr.grown.face
    simpa only [List.length_map, List.length_append] using hface
  have hchanged : st'.hasChanged = true ↔ M.funcs.length < st'.M.funcs.length := by
    rw [hr.hasChanged, any_made, hlength]
    omega
  rw [← hchanged, ← hpa]
  cases st'.hasChanged <;> simp

/- No file overwrites another, and each tells of its loop. -/
theorem perform_reports {st : ClonerPassState} (hM : M.WF) (hv : Verified M) (he : ValidEdges M) (hu : ValidUses M)
    (ha : PHIsPaired M) (hp : p.FitFor (p.workList M))
    (hname : ∀ f ∈ p.workList M, ∀ g ∈ p.workList M, p.getName f = p.getName g → f = g)
    (hloops : ∀ N, ∀ f ∈ p.workList M, (p.analyses N f).li.loops.length ≤ 2 ^ 32) (h : p.perform M = some st) :
    ∃ runs : List (FuncId × FunctionRun),
      runs.map Prod.fst = (p.workList M).reverse ∧ Consecutive M runs st.M ∧ (∀ r ∈ runs, p.Turn r) ∧
      (st.reports.map Prod.fst).Nodup ∧ (st.reports.map Prod.fst).Perm (runs.flatMap p.filesOf) ∧
      st.reports.map (fun f => readReport f.2) = (runs.flatMap fun r => r.2.loops.filterMap (p.reported r)).map some := by
  obtain ⟨runs, B', hruns, hr⟩ := perform_run hM (hv.validOn he hu ha) hp (inside_blocks _ M) h
  have hfunc : ∀ r ∈ runs, r.1 ∈ p.workList M := by
    intro r hmem
    have hfst : r.1 ∈ runs.map Prod.fst := List.mem_map_of_mem hmem
    rw [hruns] at hfst
    exact List.mem_reverse.mp hfst
  have hfiles : (st.reports.map Prod.fst).Perm (runs.flatMap p.filesOf) := by
    refine hr.files fun r hmem => ?_
    have hlength := congrArg List.length (hr.turns r hmem).loops
    simp only [List.length_map, LoopInfo.getLoopsInPreorder, List.length_range] at hlength
    exact hlength.le.trans (hloops r.2.before r.1 (hfunc r hmem))
  refine ⟨runs, hruns, hr.consecutive, hr.turns, hfiles.nodup_iff.mpr ?_, hfiles, hr.read⟩
  refine List.nodup_flatMap.mpr ⟨fun r _ => reportNames_nodup _ _ _, ?_⟩
  have hids : (runs.map Prod.fst).Nodup := by
    rw [hruns, List.nodup_reverse]
    exact hM.funcs_nodup.sublist (List.filter_sublist.map Function.id)
  refine (List.pairwise_map.mp hids).imp_of_mem ?_
  intro r s hmr hms hne x hx hx'
  have hneq : p.getName r.1 ≠ p.getName s.1 := fun he => hne (hname r.1 (hfunc r hmr) s.1 (hfunc s hms) he)
  exact reportNames_disjoint hneq _ _ _ _ x hx x hx' rfl

end Pass

end LoopBodyClonerPass

/- A function with the blocks of the loop of `sumLoop` has that loop. -/
def sumLoopsOf (N : Module) (f : FuncId) : LoopInfo :=
  if N.funcs.any fun F => F.id = f && [1, 2, 3].all fun b => F.blocks.any fun x => x.id = b then sumLoops
  else ⟨[], fun _ => none⟩

def sumAnalyses (N : Module) (f : FuncId) : FunctionAnalyses CountingSCEV where
  li := sumLoopsOf N f
  rpo := fun _ l => (sumLoopsOf N f).blocksOf l
  getIteratorInfoFor := fun _ => some sumInfo
  payloadOnly := fun _ _ _ => true
  getDisposition := fun _ _ => 0
  SE := fun _ => countingSE [10]
  AA := fun _ => sumArgs.AA
  loopToJSON := fun _ l => .integer l

def sumPass : LoopBodyClonerPass CountingSCEV where
  selectionStrategy := .naive
  exportResults := true
  exportFailResults := true
  functionWhiteList := none
  skipCalls := true
  ignoreAliasing := true
  aggregateArgs := false
  flattenArrayAccesses := false
  getName := fun f => toString f
  analyses := sumAnalyses
  addr := id
  pick := fun _ _ => 0

theorem sumPass_fitFor (fs : List FuncId) : sumPass.FitFor fs where
  blocks := by
    intro N f _ l n hn
    have hli : (sumPass.analyses N f).li = sumLoopsOf N f := rfl
    rw [hli] at hn
    unfold sumLoopsOf at hn
    split at hn
    · next hany =>
      obtain ⟨F, hF, hcond⟩ := List.any_eq_true.mp hany
      obtain ⟨hid, hall⟩ := (Bool.and_eq_true _ _).mp hcond
      have hblock : n ∈ [1, 2, 3] := by
        cases l with
        | zero => exact hn
        | succ l => cases hn
      obtain ⟨x, hx, hxn⟩ := List.any_eq_true.mp (List.all_eq_true.mp hall n hblock)
      exact ⟨F, hF, of_decide_eq_true hid, x, hx, of_decide_eq_true hxn⟩
    · cases hn
  rpo := fun _ _ _ _ _ _ hn => hn

theorem sumPass_loops (N : Module) (f : FuncId) : (sumPass.analyses N f).li.loops.length ≤ 2 ^ 32 := by
  have hli : (sumPass.analyses N f).li = sumLoopsOf N f := rfl
  rw [hli]
  unfold sumLoopsOf
  split
  · decide
  · exact Nat.zero_le _

theorem sumPass_workList : sumPass.workList sumLoop = [9] := rfl

theorem run_behaviour_sumLoop : ∃ pa st, sumPass.run sumLoop = some (pa, st) ∧ pa = .all ∧
    st.M.WF ∧ (∀ x ∈ sumLoop.blocks, SameBehaviour sumLoop st.M x.id) ∧
      (pa = .all ↔ sumLoop.funcs.length < st.M.funcs.length) ∧ ∃ runs : List (FuncId × FunctionRun),
        runs.map Prod.fst = (sumPass.workList sumLoop).reverse ∧ LoopBodyClonerPass.Consecutive sumLoop runs st.M ∧
        (∀ r ∈ runs, sumPass.Turn r) ∧
        st.M.funcs.map Function.face = (sumLoop.funcs ++ runs.flatMap fun r => r.2.made).map Function.face := by
  have hrun : (sumPass.run sumLoop).any (fun r => decide (r.1 = .all)) = true := by decide
  obtain ⟨⟨pa, st⟩, hst, hpa⟩ := (Option.any_eq_true _ _).mp hrun
  exact ⟨pa, st, hst, of_decide_eq_true hpa, LoopBodyClonerPass.run_behaviour sumLoop_wf sumLoop_verified
    sumLoop_validEdges sumLoop_validUses sumLoop_phisPaired (sumPass_fitFor _) hst⟩

theorem perform_reports_sumLoop : ∃ st, sumPass.perform sumLoop = some st ∧ st.reports.length = 1 ∧
    ∃ runs : List (FuncId × FunctionRun),
      runs.map Prod.fst = (sumPass.workList sumLoop).reverse ∧ LoopBodyClonerPass.Consecutive sumLoop runs st.M ∧
      (∀ r ∈ runs, sumPass.Turn r) ∧
      (st.reports.map Prod.fst).Nodup ∧ (st.reports.map Prod.fst).Perm (runs.flatMap sumPass.filesOf) ∧
      st.reports.map (fun f => LoopBodyClonerPass.readReport f.2) =
        (runs.flatMap fun r => r.2.loops.filterMap (sumPass.reported r)).map some := by
  have hrun : (sumPass.perform sumLoop).any (fun st => decide (st.reports.length = 1)) = true := by decide
  obtain ⟨st, hst, hlength⟩ := (Option.any_eq_true _ _).mp hrun
  have hname : ∀ f ∈ sumPass.workList sumLoop, ∀ g ∈ sumPass.workList sumLoop, sumPass.getName f = sumPass.getName g →
      f = g := by
    rw [sumPass_workList]
    intro f hf g hg _
    rw [List.mem_singleton.mp hf, List.mem_singleton.mp hg]
  exact ⟨st, hst, of_decide_eq_true hlength, LoopBodyClonerPass.perform_reports sumLoop_wf sumLoop_verified
    sumLoop_validEdges sumLoop_validUses sumLoop_phisPaired (sumPass_fitFor _) hname
    (fun N f _ => sumPass_loops N f) hst⟩

end Atrox
