import Atrox.Transforms.AsideFunctions
import Atrox.Transforms.BidirectionalEntries

/-!
# Severing keeps the behaviour

The PHIs of a severed header are cut in two: what comes from outside stays in front, what comes
from the region moves to the new header, and every use reads the new PHI.
-/

namespace Atrox
open IR Lib

section Rounds
variable (blocks : SetVector BlockId) (hdr new : BlockId)

/- The edges of a PHI from the region, and the others. -/
def innerEdges (pn : Inst) : List (BlockId × Value) := (pn.incoming.zip pn.operands).filter fun e => e.1 ∈ blocks

def outerEdges (pn : Inst) : List (BlockId × Value) := (pn.incoming.zip pn.operands).filter fun e => e.1 ∉ blocks

/- An instruction of the block `n` once the PHIs `done` of the old header are severed. -/
def severedInst (done : List Inst) (ρ : Value → Value) (n : BlockId) (i : Inst) : Inst :=
  if n = hdr ∧ i ∈ done then
    { i with incoming := (outerEdges blocks i).map Prod.fst, operands := (outerEdges blocks i).map fun e => ρ e.2 }
  else { i with operands := i.operands.map ρ }

/- `u` is the PHI of the new header for `pn`. -/
structure TakesOver (ρ : Value → Value) (pn u : Inst) : Prop where
  op : u.op = .phi
  ty : u.ty = pn.ty
  val : u.val = ρ pn.val
  incoming : u.incoming = hdr :: (innerEdges blocks pn).map Prod.fst
  operands : u.operands = pn.val :: (innerEdges blocks pn).map fun e => ρ e.2

/- `N` is `M` after the rounds for the PHIs `done`: `ns` are the PHIs of the new header. -/
structure Rounds (M N : Module) (done : List Inst) (ρ : Value → Value) (ns : List Inst) : Prop where
  wf : N.WF
  le : M.nextId ≤ N.nextId
  blocks_eq : N.blocks = M.blocks.map fun b =>
    { b with insts := (if b.id = new then ns else []) ++ b.insts.map (severedInst blocks hdr done ρ b.id) }
  fixed : ∀ v, (∀ pn ∈ done, v ≠ pn.val) → ρ v = v
  fresh : ∀ pn ∈ done, ∃ u ∈ ns, TakesOver blocks hdr ρ pn u
  back : ∀ u ∈ ns, M.nextId ≤ u.id ∧ ∃ pn ∈ done, TakesOver blocks hdr ρ pn u

variable {blocks hdr new} {M N N' : Module} {done : List Inst} {ρ : Value → Value} {ns : List Inst} {pn : Inst}

theorem severedInst_nil (n : BlockId) : severedInst blocks hdr [] id n = id := by
  funext i
  simp [severedInst]

theorem Rounds.start (hM : M.WF) : Rounds blocks hdr new M M [] id [] where
  wf := hM
  le := Nat.le_refl _
  blocks_eq := by
    conv_lhs => rw [← List.map_id M.blocks]
    apply List.map_congr_left
    intro b _
    rw [severedInst_nil, List.map_id, ite_self, List.nil_append, id]
  fixed := fun _ _ => rfl
  fresh := fun _ h => absurd h List.not_mem_nil
  back := fun _ h => absurd h List.not_mem_nil

/- The value that stands for the PHI from now on. -/
def renamePHI (pn : Inst) (n : Nat) (v : Value) : Value := if v = pn.val then .inst n pn.ty else v

theorem replaceUses_eq (n : Nat) (i : Inst) :
    i.replaceUsesOfWith pn.val (.inst n pn.ty) = { i with operands := i.operands.map (renamePHI pn n) } := rfl

/- Edges whose values are renamed. -/
theorem filter_edges (p : BlockId → Bool) (ρ : Value → Value) (ps : List BlockId) (vs : List Value) :
    (ps.zip (vs.map ρ)).filter (fun e => p e.1) = ((ps.zip vs).filter fun e => p e.1).map (Prod.map id ρ) := by
  rw [← List.map_id ps, List.zip_map, List.map_id, List.filter_map]
  rfl

section Step
variable {x : Block} {PN : Inst}

/- One round on one instruction. -/
theorem severInst_severed {b : Block} {i : Inst} {n : Nat} (hPN : PN = { pn with operands := pn.operands.map ρ })
    (hone : b.id = hdr → i.id = pn.id → i = pn) (hno : pn ∉ done) :
    severInst PN (.inst n PN.ty) hdr ((PN.incoming.zip (PN.replaceUsesOfWith PN.val (.inst n PN.ty)).operands).filter
        fun e => e.1 ∉ blocks) b (severedInst blocks hdr done ρ b.id i) =
      severedInst blocks hdr (done ++ [pn]) (fun v => renamePHI pn n (ρ v)) b.id i := by
  subst hPN
  change severInst _ (.inst n pn.ty) hdr ((pn.incoming.zip ((pn.operands.map ρ).map (renamePHI pn n))).filter
    fun e => e.1 ∉ blocks) b _ = _
  rw [List.map_map]
  have hid : (severedInst blocks hdr done ρ b.id i).id = i.id := by
    unfold severedInst
    split <;> rfl
  have hkept := filter_edges (fun q => decide (q ∉ blocks)) (renamePHI pn n ∘ ρ) pn.incoming pn.operands
  unfold severInst
  rw [hid, hkept]
  by_cases hc : b.id = hdr ∧ i.id = pn.id
  · obtain rfl := hone hc.1 hc.2
    rw [if_pos hc, severedInst, severedInst, if_neg fun h => hno h.2, if_pos ⟨hc.1, by simp⟩]
    simp only [List.map_map, outerEdges, Function.comp_def, Prod.map_fst, Prod.map_snd, id]
  · rw [if_neg hc]
    change Inst.replaceUsesOfWith pn.val (.inst n pn.ty) _ = _
    rw [replaceUses_eq]
    unfold severedInst
    have hmem : (b.id = hdr ∧ i ∈ done ++ [pn]) ↔ b.id = hdr ∧ i ∈ done := by
      refine and_congr_right fun hb => ⟨fun h => ?_, List.mem_append_left _⟩
      rcases List.mem_append.mp h with h | h
      · exact h
      · exact absurd ⟨hb, congrArg Inst.id (List.mem_singleton.mp h)⟩ hc
    simp only [hmem]
    split <;> simp only [List.map_map, Function.comp_def]

/- A PHI of the new header is not the old one of the round. -/
theorem TakesOver.rename {u p : Inst} {n : Nat} (h : TakesOver blocks hdr ρ p u) (hu : u.id ≠ pn.id)
    (hp : p.id ≠ pn.id) : TakesOver blocks hdr (fun v => renamePHI pn n (ρ v)) p
      (u.replaceUsesOfWith pn.val (.inst n pn.ty)) := by
  have hkeep : ∀ i : Inst, i.id ≠ pn.id → renamePHI pn n i.val = i.val := by
    intro i hi
    refine if_neg fun he => hi ?_
    have hval : Value.inst i.id i.ty = .inst pn.id pn.ty := he
    injection hval
  refine ⟨h.op, h.ty, ?_, h.incoming, ?_⟩
  · change u.val = _
    rw [← h.val, hkeep u hu]
  · rw [replaceUses_eq]
    dsimp only
    rw [h.operands, List.map_cons, hkeep p hp, List.map_map]
    rfl

theorem Rounds.step (h : Rounds blocks hdr new M N done ρ ns) (hM : M.WF) (hx : x ∈ M.blocks) (hid : x.id = hdr)
    (hne : hdr ≠ new) (hpn : pn ∈ x.insts) (hno : pn ∉ done) (hdone : ∀ p ∈ done, p ∈ x.insts)
    {ce ce' : CodeExtractor} (hce : ce.blocks = blocks) (hstep : severPHI hdr new (ce, N) pn.id = some (ce', N')) :
    ∃ ρ' ns', Rounds blocks hdr new M N' (done ++ [pn]) ρ' ns' := by
  have hlt : pn.id < M.nextId := hM.insts_lt pn (List.mem_flatMap.mpr ⟨x, hx, hpn⟩)
  have hone : ∀ i ∈ x.insts, i.id = pn.id → i = pn := fun i hi he =>
    inst_unique hM.toIds (List.mem_flatMap.mpr ⟨x, hx, hi⟩) (List.mem_flatMap.mpr ⟨x, hx, hpn⟩) he
  have hdone' : ∀ p ∈ done, p.id ≠ pn.id := fun p hp he => hno (hone p (hdone p hp) he ▸ hp)
  obtain ⟨PN, hfind, hr⟩ := severPHI_exact hstep
  -- the PHI as the rounds before have left it
  have hPN : PN = { pn with operands := pn.operands.map ρ } := by
    have hmem : severedInst blocks hdr done ρ x.id pn ∈ N.insts := by
      refine List.mem_flatMap.mpr ⟨_, h.blocks_eq ▸ List.mem_map_of_mem hx, ?_⟩
      exact List.mem_append_right _ (List.mem_map_of_mem hpn)
    have heq : severedInst blocks hdr done ρ x.id pn = { pn with operands := pn.operands.map ρ } :=
      if_neg fun hc => hno hc.2
    rw [heq] at hmem
    have hfind' := inst?_of_mem h.wf.toIds hmem
    exact Option.some.inj (hfind.symm.trans hfind')
  have hval : PN.val = pn.val := by rw [hPN]; rfl
  have hty : PN.ty = pn.ty := by rw [hPN]
  have hinner : (PN.incoming.zip (PN.replaceUsesOfWith PN.val (.inst N.nextId PN.ty)).operands).filter
      (fun e => e.1 ∈ blocks) = (innerEdges blocks pn).map
        (Prod.map id fun v => renamePHI pn N.nextId (ρ v)) := by
    rw [hval, hty, replaceUses_eq, hPN]
    dsimp only
    rw [List.map_map]
    exact filter_edges (fun q => decide (q ∈ blocks)) (renamePHI pn N.nextId ∘ ρ) pn.incoming pn.operands
  rw [hce] at hr
  dsimp only at hr
  generalize (PN.incoming.zip (PN.replaceUsesOfWith PN.val (.inst N.nextId PN.ty)).operands).filter
    (fun e => e.1 ∈ blocks) = moved at hr hinner
  have hfixed : ρ pn.val = pn.val := h.fixed pn.val fun p hp he => hdone' p hp (by
    have hv : Value.inst pn.id pn.ty = .inst p.id p.ty := he
    injection hv with hv _
    exact hv.symm)
  have hu₀ : TakesOver blocks hdr (fun v => renamePHI pn N.nextId (ρ v)) pn
      (severedPHI N.nextId PN hdr moved) := by
    refine ⟨rfl, hty, ?_, ?_, ?_⟩
    · rw [hfixed, renamePHI, if_pos rfl, ← hty]
      rfl
    · change hdr :: moved.map Prod.fst = _
      rw [hinner, List.map_map]
      rfl
    · change PN.val :: moved.map Prod.snd = _
      rw [hinner, hval, List.map_map]
      rfl
  have huid : ∀ u ∈ ns, u.id ≠ pn.id := fun u hu => Nat.ne_of_gt (Nat.lt_of_lt_of_le hlt (h.back u hu).1)
  refine ⟨fun v => renamePHI pn N.nextId (ρ v), severedPHI N.nextId PN hdr moved ::
    ns.map (Inst.replaceUsesOfWith pn.val (.inst N.nextId pn.ty)), (severPHI_wf h.wf hstep).1, ?_, ?_, ?_, ?_, ?_⟩
  · obtain ⟨-, -, -, -, -, -, -, rfl⟩ := severPHI_inv hstep
    exact Nat.le_succ_of_le h.le
  · rw [hr.blocks, h.blocks_eq, List.map_map]
    apply List.map_congr_left
    intro b hb
    simp only [Function.comp_apply, Block.mk.injEq, true_and, and_true]
    rw [List.map_append, List.map_map, ← List.append_assoc]
    congr 1
    · by_cases hbn : b.id = new
      · rw [if_pos hbn, if_pos hbn, if_pos hbn, List.singleton_append]
        congr 1
        apply List.map_congr_left
        intro u _
        refine (severInst_other fun hc => hne (hc.1.symm.trans hbn)).trans ?_
        rw [hval, hty]
      · rw [if_neg hbn, if_neg hbn, if_neg hbn]
        rfl
    · apply List.map_congr_left
      intro i hi
      exact severInst_severed hPN (fun hbid he => hone i (by
        obtain rfl := List.inj_on_of_nodup_map hM.blocks_nodup hb hx (hbid.trans hid.symm)
        exact hi) he) hno
  · intro v hv
    rw [h.fixed v fun p hp => hv p (List.mem_append_left _ hp)]
    exact if_neg (hv pn (by simp))
  · intro p hp
    rcases List.mem_append.mp hp with hp | hp
    · obtain ⟨u, hu, ht⟩ := h.fresh p hp
      exact ⟨_, List.mem_cons_of_mem _ (List.mem_map_of_mem hu), ht.rename (huid u hu) (hdone' p hp)⟩
    · rw [List.mem_singleton.mp hp]
      exact ⟨_, List.mem_cons_self .., hu₀⟩
  · intro u hu
    rcases List.mem_cons.mp hu with rfl | hu
    · exact ⟨h.le, pn, by simp, hu₀⟩
    · obtain ⟨u', hu', rfl⟩ := List.mem_map.mp hu
      obtain ⟨hge, p, hp, ht⟩ := h.back u' hu'
      exact ⟨hge, p, List.mem_append_left _ hp, ht.rename (huid u' hu') (hdone' p hp)⟩

/- All PHIs of a block, one after the other. -/
theorem Rounds.fold {ps : List Inst} {ce ce' : CodeExtractor} (hM : M.WF) (hx : x ∈ M.blocks) (hid : x.id = hdr)
    (hne : hdr ≠ new) (hps : ∀ p ∈ ps, p ∈ x.insts) (hnd : ps.Nodup)
    (hfold : (ps.map Inst.id).foldlM (severPHI hdr new) (ce, M) = some (ce', N)) :
    ce'.blocks = ce.blocks ∧ ∃ ρ ns, Rounds ce.blocks hdr new M N ps ρ ns := by
  rw [List.foldlM_map] at hfold
  refine foldlM_run (P := fun done (st : CodeExtractor × Module) =>
    st.1.blocks = ce.blocks ∧ ∃ ρ ns, Rounds ce.blocks hdr new M st.2 done ρ ns) ps ?_ ⟨rfl, id, [], .start hM⟩ hfold
  rintro pre pn post ⟨c, K⟩ ⟨c', K'⟩ hsplit ⟨hc, ρ, ns, hr⟩ hstep
  dsimp only at hc hr hstep ⊢
  rw [hsplit, List.nodup_append] at hnd
  have hno : pn ∉ pre := fun h => hnd.2.2 pn h pn (List.mem_cons_self ..) rfl
  have hpn : pn ∈ x.insts := hps pn (by rw [hsplit]; simp)
  have hpre : ∀ p ∈ pre, p ∈ x.insts := fun p hp => hps p (by rw [hsplit]; exact List.mem_append_left _ hp)
  exact ⟨(severPHI_wf hr.wf hstep).2.2.1.trans hc, hr.step hM hx hid hne hpn hno hpre hc hstep⟩

end Step

/- A value is renamed to the PHI that takes it over, or left. -/
theorem Rounds.value (h : Rounds blocks hdr new M N done ρ ns) (v : Value) :
    (∃ pn ∈ done, v = pn.val ∧ ∃ u ∈ ns, TakesOver blocks hdr ρ pn u) ∨ (∀ pn ∈ done, v ≠ pn.val) ∧ ρ v = v := by
  by_cases hv : ∃ pn ∈ done, v = pn.val
  · obtain ⟨pn, hpn, rfl⟩ := hv
    exact .inl ⟨pn, hpn, rfl, h.fresh pn hpn⟩
  · have hno : ∀ pn ∈ done, v ≠ pn.val := fun pn hpn he => hv ⟨pn, hpn, he⟩
    exact .inr ⟨hno, h.fixed v hno⟩

theorem Rounds.value_ty (h : Rounds blocks hdr new M N done ρ ns) (v : Value) : (ρ v).ty = v.ty := by
  rcases h.value v with ⟨pn, -, rfl, u, -, hu⟩ | ⟨-, hv⟩
  · rw [← hu.val]
    exact hu.ty
  · rw [hv]

/- The new PHIs are none of the old values. -/
theorem Rounds.new_val (h : Rounds blocks hdr new M N done ρ ns) {u : Inst} (hu : u ∈ ns) {v : Value}
    (hv : v.below M.nextId) : v ≠ u.val := by
  rintro rfl
  exact Nat.lt_irrefl _ (Nat.lt_of_lt_of_le hv (h.back u hu).1)

theorem Rounds.fixed_iff (h : Rounds blocks hdr new M N done ρ ns) {i : Inst} (hi : i.id < M.nextId)
    (hno : ∀ pn ∈ done, i.val ≠ pn.val) (v : Value) : ρ v = i.val ↔ v = i.val := by
  constructor
  · intro he
    rcases h.value v with ⟨pn, -, rfl, u, hu, ht⟩ | ⟨-, hv⟩
    · exact absurd (he.symm.trans ht.val.symm) (h.new_val hu hi)
    · exact hv.symm.trans he
  · rintro rfl
    exact h.fixed i.val hno

end Rounds

section Header
variable (blocks : SetVector BlockId) (latches : List BlockId) (hdr new : BlockId)

/- An instruction once latches lead to the new header and the PHIs are severed. -/
def movedInst (done : List Inst) (ρ : Value → Value) (n : BlockId) (i : Inst) : Inst :=
  severedInst blocks hdr done ρ n (if n ∈ latches then i.replaceSuccOfWith hdr new else i)

/- A block once all is done, with the PHIs of the new header. -/
def severedBlock (done : List Inst) (ρ : Value → Value) (ns : List Inst) (b : Block) : Block :=
  { b with insts := (if b.id = new then ns else []) ++ b.insts.map (movedInst blocks latches hdr new done ρ b.id) }

/- Control from a latch goes to the new header. -/
def retarget (p s : Option BlockId) : Option BlockId := if s = some hdr ∧ ∃ q ∈ latches, p = some q then some new else s

variable {blocks latches hdr new} {done : List Inst} {ρ : Value → Value} {n : BlockId} {i : Inst}

theorem movedInst_head : (movedInst blocks latches hdr new done ρ n i).head = i.head := by
  unfold movedInst severedInst
  split <;> split <;> rfl

theorem val_of_head {i j : Inst} (h : i.head = j.head) : i.val = j.val := by
  rw [Inst.val, Inst.val, id_of_head h, ty_of_head h]

theorem movedInst_succs : (movedInst blocks latches hdr new done ρ n i).succs =
    if n ∈ latches then i.succs.map fun s => if s = hdr then new else s else i.succs := by
  unfold movedInst severedInst
  split <;> split <;> rfl

theorem movedInst_succ (k : Nat) :
    (movedInst blocks latches hdr new done ρ n i).succs[k]? = retarget latches hdr new (some n) i.succs[k]? := by
  rw [movedInst_succs, retarget]
  by_cases hn : n ∈ latches
  · rw [if_pos hn, List.getElem?_map]
    cases i.succs[k]? with
    | none => rfl
    | some s =>
      by_cases hs : s = hdr
      · simp [hs, hn]
      · simp [hs]
  · rw [if_neg hn, if_neg]
    rintro ⟨-, q, hq, he⟩
    obtain rfl := Option.some.inj he
    exact hn hq

/- All but the severed PHIs keep their edges. -/
variable (blocks new ρ) in
theorem movedInst_other (h : ¬(n = hdr ∧ i ∈ done)) (hlatch : hdr ∉ latches) :
    (movedInst blocks latches hdr new done ρ n i).operands = i.operands.map ρ ∧
      (movedInst blocks latches hdr new done ρ n i).incoming = i.incoming := by
  by_cases hn : n ∈ latches
  · rw [movedInst, if_pos hn, severedInst, if_neg fun hc : n = hdr ∧ _ => hlatch (hc.1 ▸ hn)]
    exact ⟨rfl, rfl⟩
  · rw [movedInst, if_neg hn, severedInst, if_neg h]
    exact ⟨rfl, rfl⟩

variable (blocks new ρ) in
theorem movedInst_lost (hi : i ∈ done) (hlatch : hdr ∉ latches) :
    (movedInst blocks latches hdr new done ρ hdr i).incoming = (outerEdges blocks i).map Prod.fst ∧
      (movedInst blocks latches hdr new done ρ hdr i).operands = (outerEdges blocks i).map fun e => ρ e.2 := by
  unfold movedInst severedInst
  rw [if_neg hlatch, if_pos ⟨rfl, hi⟩]
  exact ⟨rfl, rfl⟩

end Header

section Reads

/- Edges that are dropped do not matter for the others. -/
theorem lookup_filter {α : Type} (p : BlockId → Bool) {q : BlockId} (hq : p q = true) (es : List (BlockId × α)) :
    (es.filter fun e => p e.1).lookup q = es.lookup q := by
  induction es with
  | nil => rfl
  | cons e es ih =>
    obtain ⟨r, v⟩ := e
    by_cases hr : q = r
    · subst hr
      simp only [List.filter_cons, hq, if_true, List.lookup_cons_self]
    · rw [List.lookup_cons, beq_eq_false_iff_ne.mpr hr, ← ih, List.filter_cons]
      split
      · rw [List.lookup_cons, beq_eq_false_iff_ne.mpr hr]
      · rfl

/- What is read on an edge of a list with renamed values. -/
theorem lookup_edges (ρ : Value → Value) (q : BlockId) (es : List (BlockId × Value)) :
    ((es.map Prod.fst).zip (es.map fun e => ρ e.2)).lookup q = (es.lookup q).map ρ := by
  rw [List.zip_map']
  exact lookup_renamed id ρ q es fun _ _ he => he

variable {blocks : SetVector BlockId} {hdr q : BlockId} {ρ : Value → Value} {pn u : Inst}

theorem TakesOver.latch (h : TakesOver blocks hdr ρ pn u) (hq : q ∈ blocks) (hne : q ≠ hdr) :
    u.incomingValue? q = (pn.incomingValue? q).map ρ := by
  unfold Inst.incomingValue?
  rw [h.incoming, h.operands, List.zip_cons_cons, List.lookup_cons, beq_eq_false_iff_ne.mpr hne]
  dsimp only
  rw [lookup_edges, innerEdges, lookup_filter (fun q => decide (q ∈ blocks)) (decide_eq_true hq)]

theorem TakesOver.header (h : TakesOver blocks hdr ρ pn u) : u.incomingValue? hdr = some pn.val := by
  unfold Inst.incomingValue?
  rw [h.incoming, h.operands, List.zip_cons_cons, List.lookup_cons_self]

theorem outer_incoming {latches : List BlockId} {new : BlockId} {done : List Inst} (hi : pn ∈ done)
    (hlatch : hdr ∉ latches) (hq : q ∉ blocks) :
    (movedInst blocks latches hdr new done ρ hdr pn).incomingValue? q = (pn.incomingValue? q).map ρ := by
  obtain ⟨hinc, hops⟩ := movedInst_lost blocks new ρ hi hlatch
  unfold Inst.incomingValue?
  rw [hinc, hops, lookup_edges, outerEdges, lookup_filter (fun q => decide (q ∉ blocks)) (decide_eq_true hq)]

/- PHIs read alike where their values are the same under other names. -/
theorem phiValue_renamed {V Mem : Type} {c d : Config V Mem} {i j : Inst} (hc : c.prev = some q) (hd : d.prev = some q)
    (hj : j.incomingValue? q = (i.incomingValue? q).map ρ) (hvals : ∀ v ∈ i.operands, d.entry (ρ v) = c.entry v) :
    d.phiValue j = c.phiValue i := by
  unfold Config.phiValue
  rw [hc, hd, Option.bind_some, Option.bind_some, hj]
  cases hv : i.incomingValue? q with
  | none => rfl
  | some v => exact hvals v (incomingValue?_mem hv)

end Reads

/- A header with nothing but PHIs `ps` and the branch `t` to a block without PHIs; nothing else leads there. -/
structure CutHeader (M : Module) (B : BlockId → Prop) (x y : Block) (ps : List Inst) (t : Inst) : Prop where
  wf : M.WF
  valid : ValidOn M B
  front : x ∈ M.blocks
  frontIn : B x.id
  back : y ∈ M.blocks
  backIn : B y.id
  ne : x.id ≠ y.id
  insts : x.insts = ps ++ [t]
  phis : ∀ p ∈ ps, p.isPHI = true
  op : t.op = .br
  operands : t.operands = []
  succs : t.succs = [y.id]
  noPHI : ∀ i ∈ y.insts, i.isPHI = false
  full : y.insts ≠ []
  only : ∀ q ∈ M.blocks, B q.id → y.id ∈ q.succs → q.id = x.id

/- Its latches, and the module after the rounds for its PHIs. -/
structure SeveredHeader (M N : Module) (B : BlockId → Prop) (blocks : SetVector BlockId) (latches : List BlockId)
    (x y : Block) (ps : List Inst) (t : Inst) (ρ : Value → Value) (ns : List Inst) : Prop
    extends CutHeader M B x y ps t where
  out : x.id ∉ blocks
  latch : ∀ p, p ∈ latches ↔ p ∈ blocks ∧ B p ∧ ∃ q ∈ M.blocks, q.id = p ∧ x.id ∈ q.succs
  rounds : Rounds blocks x.id y.id (M.mapIn latches (Block.mapInsts (Inst.replaceSuccOfWith x.id y.id))) N ps ρ ns

section Severed
variable {M N : Module} {B : BlockId → Prop} {blocks : SetVector BlockId} {latches : List BlockId} {x y : Block}
  {ps ns : List Inst} {t : Inst} {ρ : Value → Value}

namespace SeveredHeader
variable (h : SeveredHeader M N B blocks latches x y ps t ρ ns)
include h

theorem noLatch : x.id ∉ latches := fun hm => h.out ((h.latch x.id).mp hm).1

theorem blocks_eq : N.blocks = M.blocks.map (severedBlock blocks latches x.id y.id ps ρ ns) := by
  rw [h.rounds.blocks_eq, (latches_blocks M latches x.id y.id).blocks, List.map_map]
  apply List.map_congr_left
  intro b _
  simp only [Function.comp_apply, List.nil_append, List.map_map]
  rfl

theorem mem {b : Block} (hb : b ∈ M.blocks) : severedBlock blocks latches x.id y.id ps ρ ns b ∈ N.blocks :=
  h.blocks_eq ▸ List.mem_map_of_mem hb

theorem code {b : Block} (hb : b ∈ M.blocks) : N.code b.id =
    some ((if b.id = y.id then ns else []) ++ b.insts.map (movedInst blocks latches x.id y.id ps ρ b.id)) :=
  code_block h.rounds.wf.toIds (h.mem hb)

end SeveredHeader

section Run
variable {V Mem : Type} (S : Machine V Mem)

/- A header of PHIs and a branch is left without a trace. -/
theorem header_run {C : Code} {hdr new : BlockId} (hcode : C hdr = some (ps ++ [t])) (hphi : ∀ pn ∈ ps, pn.isPHI = true)
    (hnd : (ps.map Inst.id).Nodup) (hop : t.op = .br) (hops : t.operands = []) (hsucc : t.succs = [new])
    (p : Option BlockId) (vals : Value → Option V) (mem : Mem)
    (hval : ∀ pn ∈ ps, ((Config.enter C p (some hdr) vals mem).phiValue pn).isSome = true) :
    ∃ as vals₁, Run (S.Emits C) (.enter C p (some hdr) vals mem) as (.enter C (some hdr) (some new) vals₁ mem) ∧
      as.reduceOption = [] ∧ (∀ pn ∈ ps, vals₁ pn.val = (Config.enter C p (some hdr) vals mem).phiValue pn) ∧
      ∀ v, (∀ pn ∈ ps, v ≠ pn.val) → vals₁ v = vals v := by
  obtain ⟨as, vals₁, hrun, hshow, hin, hout⟩ := phis_run (S := S) (C := C) (enter_code hcode p vals mem) hphi hnd hval
  have hbr := emits_br S (C := C) (d := { Config.enter C p (some hdr) vals mem with rest := [t], vals := vals₁ })
    (u := t) (r := []) rfl hop hops hsucc
  refine ⟨as ++ [none], vals₁, hrun.append (.single hbr), ?_, hin, hout⟩
  rw [List.reduceOption_append, hshow]
  rfl

/- In front of what is left of the header, on both sides. -/
structure Behind (M : Module) (y : Block) (g : Inst → Inst) (ρ : Value → Value) (c d : Config V Mem) : Prop
    extends Agrees (fun v => v.below M.nextId) ρ c d where
  block : c.block = some y.id
  block' : d.block = some y.id
  rest : c.rest = y.insts
  rest' : d.rest = y.insts.map g

namespace SeveredHeader
variable (h : SeveredHeader M N B blocks latches x y ps t ρ ns) (p : Option BlockId) (w : Value → Option V) (mem : Mem)
include h

/- The PHIs of the new header take the values of the old ones. -/
theorem new_run {f : Inst → Option V} (hf : ∀ pn ∈ ps, (f pn).isSome = true)
    (hval : ∀ pn ∈ ps, ∀ u, TakesOver blocks x.id ρ pn u →
      (Config.enter N.code p (some y.id) w mem).phiValue u = f pn) :
    ∃ as w₁, Run (S.Emits N.code) (.enter N.code p (some y.id) w mem) as
        { Config.enter N.code p (some y.id) w mem with
          rest := y.insts.map (movedInst blocks latches x.id y.id ps ρ y.id), vals := w₁ } ∧
      as.reduceOption = [] ∧ (∀ pn ∈ ps, w₁ (ρ pn.val) = f pn) ∧
      ∀ v, v.below M.nextId → (∀ pn ∈ ps, v ≠ pn.val) → w₁ (ρ v) = w v := by
  have hcode := h.code h.back
  rw [if_pos rfl] at hcode
  have hphi : ∀ u ∈ ns, u.isPHI = true := by
    intro u hu
    obtain ⟨-, pn, -, ht⟩ := h.rounds.back u hu
    rw [Inst.isPHI, ht.op]
    rfl
  have hnd : (ns.map Inst.id).Nodup := by
    have hall := block_insts_nodup h.rounds.wf.toIds (h.mem h.back)
    rw [severedBlock, if_pos rfl, List.map_append] at hall
    exact (List.nodup_append.mp hall).1
  have hsome : ∀ u ∈ ns, ((Config.enter N.code p (some y.id) w mem).phiValue u).isSome = true := by
    intro u hu
    obtain ⟨-, pn, hpn, ht⟩ := h.rounds.back u hu
    rw [hval pn hpn u ht]
    exact hf pn hpn
  obtain ⟨as, w₁, hrun, hshow, hin, hout⟩ := phis_run (S := S) (C := N.code) (enter_code hcode p w mem) hphi hnd hsome
  refine ⟨as, w₁, hrun, hshow, fun pn hpn => ?_, fun v hv hno => ?_⟩
  · obtain ⟨u, hu, ht⟩ := h.rounds.fresh pn hpn
    rw [← ht.val, hin u hu, hval pn hpn u ht]
  · rw [h.rounds.fixed v hno, hout v fun u hu => h.rounds.new_val hu hv]
    rfl

theorem new_ended {f : Inst → Option V} (hf : ∃ pn ∈ ps, f pn = none)
    (hval : ∀ pn ∈ ps, ∀ u, TakesOver blocks x.id ρ pn u →
      (Config.enter N.code p (some y.id) w mem).phiValue u = f pn) :
    ∃ as d, Run (S.Emits N.code) (.enter N.code p (some y.id) w mem) as d ∧ as.reduceOption = [] ∧
      Ended (S.Emits N.code) d := by
  have hcode := h.code h.back
  rw [if_pos rfl] at hcode
  obtain ⟨pn, hpn, hnone⟩ := hf
  obtain ⟨u, hu, ht⟩ := h.rounds.fresh pn hpn
  refine phis_ended (enter_code hcode p w mem) (fun u hu => ?_) ⟨u, hu, (hval pn hpn u ht).trans hnone⟩
  obtain ⟨-, pn', -, ht'⟩ := h.rounds.back u hu
  rw [Inst.isPHI, ht'.op]
  rfl

/- What both headers leave, however control came. -/
theorem agree {c d : Config V Mem} {f : Inst → Option V} {vals : Value → Option V} (hmem : d.mem = c.mem)
    (hc : ∀ pn ∈ ps, c.vals pn.val = f pn) (hd : ∀ pn ∈ ps, d.vals (ρ pn.val) = f pn)
    (hcv : ∀ v, (∀ pn ∈ ps, v ≠ pn.val) → c.vals v = vals v)
    (hdv : ∀ v, v.below M.nextId → (∀ pn ∈ ps, v ≠ pn.val) → d.vals (ρ v) = vals v) :
    Agrees (fun v => v.below M.nextId) ρ c d := by
  refine ⟨fun v hv => ?_, hmem⟩
  rcases h.rounds.value v with ⟨pn, hpn, rfl, -⟩ | ⟨hno, -⟩
  · rw [hd pn hpn, hc pn hpn]
  · rw [hdv v hv hno, hcv v hno]

omit h in
theorem none_of_not {f : Inst → Option V} (hall : ¬∀ pn ∈ ps, (f pn).isSome = true) : ∃ pn ∈ ps, f pn = none := by
  obtain ⟨pn, hpn⟩ := not_forall.mp hall
  obtain ⟨hin, hno⟩ := Classical.not_imp.mp hpn
  exact ⟨pn, hin, by simpa using hno⟩

theorem front_code : M.code x.id = some (ps ++ [t]) := by
  rw [code_block h.wf.toIds h.front, h.insts]

theorem front_nodup : (ps.map Inst.id).Nodup := by
  have hall := block_insts_nodup h.wf.toIds h.front
  rw [h.insts, List.map_append] at hall
  exact (List.nodup_append.mp hall).1

theorem front_below {pn : Inst} (hpn : pn ∈ ps) : ∀ v ∈ pn.operands, v.below M.nextId := by
  refine h.wf.operands_below pn (List.mem_flatMap.mpr ⟨x, h.front, ?_⟩)
  rw [h.insts]
  exact List.mem_append_left _ hpn

/- The old header still has its PHIs and its branch. -/
theorem old_header :
    let g := movedInst blocks latches x.id y.id ps ρ x.id
    N.code x.id = some (ps.map g ++ [g t]) ∧ (∀ u ∈ ps.map g, u.isPHI = true) ∧
      ((ps.map g).map Inst.id).Nodup ∧ (g t).op = .br ∧ (g t).operands = [] ∧ (g t).succs = [y.id] := by
  intro g
  have hcode := h.code h.front
  rw [if_neg h.ne, List.nil_append, h.insts, List.map_append] at hcode
  have hplain : ¬(x.id = x.id ∧ t ∈ ps) := by
    intro hc
    have hphi := h.phis t hc.2
    rw [Inst.isPHI, h.op] at hphi
    cases hphi
  have hids : (ps.map g).map Inst.id = ps.map Inst.id := by
    rw [List.map_map]
    exact List.map_congr_left fun i _ => id_of_head movedInst_head
  refine ⟨hcode, ?_, hids ▸ h.front_nodup, (op_of_head movedInst_head).trans h.op, ?_, ?_⟩
  · rw [List.forall_mem_map]
    intro pn hpn
    rw [isPHI_of_head movedInst_head]
    exact h.phis pn hpn
  · rw [(movedInst_other _ _ _ hplain h.noLatch).1, h.operands]
    rfl
  · change (movedInst _ _ _ _ _ _ _ _).succs = _
    rw [movedInst, if_neg h.noLatch, severedInst, if_neg hplain]
    exact h.succs

section Head
variable {vals vals' : Value → Option V} (hvals : ∀ v, v.below M.nextId → vals' (ρ v) = vals v)
include hvals

/- A latch goes past the old header. -/
theorem head_latch {q : BlockId} (hq : q ∈ latches) :
    Meets (S.Emits M.code) (S.Emits N.code) (Behind M y (movedInst blocks latches x.id y.id ps ρ y.id) ρ)
      (.enter M.code (some q) (some x.id) vals mem) (.enter N.code (some q) (some y.id) vals' mem) := by
  have hqb := (h.latch q).mp hq
  have hne : q ≠ x.id := fun he => h.out (he ▸ hqb.1)
  let f := (Config.enter M.code (some q) (some x.id) vals mem).phiValue
  have hval : ∀ pn ∈ ps, ∀ u, TakesOver blocks x.id ρ pn u →
      (Config.enter N.code (some q) (some y.id) vals' mem).phiValue u = f pn := fun pn hpn u ht =>
    phiValue_renamed rfl rfl (ht.latch hqb.1 hne) fun v hv => hvals v (h.front_below hpn v hv)
  by_cases hall : ∀ pn ∈ ps, (f pn).isSome = true
  · obtain ⟨as, vals₁, hrun, hshow, hin, hout⟩ := header_run S h.front_code h.phis h.front_nodup h.op h.operands h.succs
      (some q) vals mem hall
    obtain ⟨bs, w₁, hrun', hshow', hin', hout'⟩ := h.new_run S (some q) vals' mem hall hval
    refine Meets.after hrun hrun' (hshow.trans hshow'.symm) (.here ⟨?_, rfl, rfl, ?_, rfl⟩)
    · refine h.agree rfl hin hin' hout fun v hv hno => ?_
      have hthrough : vals' v = vals' (ρ v) := by rw [h.rounds.fixed v hno]
      exact (hout' v hv hno).trans (hthrough.trans (hvals v hv))
    · exact enter_code (code_block h.wf.toIds h.back) _ _ _
  · obtain ⟨as, c, hrun, hshow, hend⟩ := phis_ended (S := S) (enter_code h.front_code (some q) vals mem) h.phis
      (none_of_not hall)
    obtain ⟨bs, d, hrun', hshow', hend'⟩ := h.new_ended S (some q) vals' mem (none_of_not hall) hval
    exact Meets.after hrun hrun' (hshow.trans hshow'.symm) (.ended hend hend')

/- From outside both headers are run. -/
theorem head_outside (hedge : GoesTo M B p (some x.id)) (hout : ¬∃ q ∈ latches, p = some q) :
    Meets (S.Emits M.code) (S.Emits N.code) (Behind M y (movedInst blocks latches x.id y.id ps ρ y.id) ρ)
      (.enter M.code p (some x.id) vals mem) (.enter N.code p (some x.id) vals' mem) := by
  let f := (Config.enter M.code p (some x.id) vals mem).phiValue
  have hkept : ∀ pn ∈ ps, (Config.enter N.code p (some x.id) vals' mem).phiValue
      (movedInst blocks latches x.id y.id ps ρ x.id pn) = f pn := by
    intro pn hpn
    cases p with
    | none => rfl
    | some q =>
      have hq : q ∉ blocks := fun hq => hout ⟨q, (h.latch q).mpr ⟨hq, (hedge x.id rfl).2 q rfl⟩, rfl⟩
      exact phiValue_renamed rfl rfl (outer_incoming hpn h.noLatch hq) fun v hv => hvals v (h.front_below hpn v hv)
  obtain ⟨hcode', hphi', hnd', hop, hops, hsucc⟩ := h.old_header
  by_cases hall : ∀ pn ∈ ps, (f pn).isSome = true
  · obtain ⟨as, vals₁, hrun, hshow, hin, hout⟩ := header_run S h.front_code h.phis h.front_nodup h.op h.operands h.succs
      p vals mem hall
    have hall' : ∀ u ∈ ps.map (movedInst blocks latches x.id y.id ps ρ x.id),
        ((Config.enter N.code p (some x.id) vals' mem).phiValue u).isSome = true := by
      rw [List.forall_mem_map]
      intro pn hpn
      rw [hkept pn hpn]
      exact hall pn hpn
    obtain ⟨bs, vals₂, hrun₁, hshow₁, hin₁, hout₁⟩ := header_run S hcode' hphi' hnd' hop hops hsucc p vals' mem hall'
    rw [List.forall_mem_map] at hin₁
    have hold : ∀ pn ∈ ps, vals₂ pn.val = f pn := fun pn hpn => by
      rw [← hkept pn hpn, ← hin₁ pn hpn, val_of_head movedInst_head]
    have hval : ∀ pn ∈ ps, ∀ u, TakesOver blocks x.id ρ pn u →
        (Config.enter N.code (some x.id) (some y.id) vals₂ mem).phiValue u = f pn := by
      intro pn hpn u ht
      rw [← hold pn hpn]
      change (u.incomingValue? x.id).bind vals₂ = _
      rw [ht.header, Option.bind_some]
    obtain ⟨cs, w₁, hrun₂, hshow₂, hin₂, hout₂⟩ := h.new_run S (some x.id) vals₂ mem hall hval
    refine Meets.after hrun (hrun₁.append hrun₂) ?_ (.here ⟨?_, rfl, rfl, ?_, rfl⟩)
    · rw [List.reduceOption_append, hshow, hshow₁, hshow₂]
      rfl
    · refine h.agree rfl hin hin₂ hout fun v hv hno => ?_
      have hkeep : ∀ u ∈ ps.map (movedInst blocks latches x.id y.id ps ρ x.id), v ≠ u.val := by
        rw [List.forall_mem_map]
        intro pn hpn
        rw [val_of_head movedInst_head]
        exact hno pn hpn
      have hthrough : vals₂ v = vals' (ρ v) := by rw [hout₁ v hkeep, h.rounds.fixed v hno]
      exact (hout₂ v hv hno).trans (hthrough.trans (hvals v hv))
    · exact enter_code (code_block h.wf.toIds h.back) _ _ _
  · obtain ⟨as, c, hrun, hshow, hend⟩ := phis_ended (S := S) (enter_code h.front_code p vals mem) h.phis
      (none_of_not hall)
    obtain ⟨pn, hpn, hn⟩ := none_of_not hall
    obtain ⟨bs, d, hrun', hshow', hend'⟩ := phis_ended (S := S) (enter_code hcode' p vals' mem) hphi'
      ⟨_, List.mem_map_of_mem hpn, (hkept pn hpn).trans hn⟩
    exact Meets.after hrun hrun' (hshow.trans hshow'.symm) (.ended hend hend')

theorem head (hedge : GoesTo M B p (some x.id)) :
    Meets (S.Emits M.code) (S.Emits N.code) (Behind M y (movedInst blocks latches x.id y.id ps ρ y.id) ρ)
      (.enter M.code p (some x.id) vals mem)
      (.enter N.code p (retarget latches x.id y.id p (some x.id)) vals' mem) := by
  by_cases hlatch : ∃ q ∈ latches, p = some q
  · obtain ⟨q, hq, rfl⟩ := id hlatch
    rw [retarget, if_pos ⟨rfl, hlatch⟩]
    exact h.head_latch S mem hvals hq
  · rw [retarget, if_neg fun hc => hlatch hc.2]
    exact h.head_outside S p mem hvals hedge hlatch

end Head

/- All other instructions do what they did, as far as PHIs are reached alike. -/
theorem paired {b : Block} (hb : b ∈ M.blocks) {i : Inst} (hi : i ∈ b.insts) (hno : ¬(b.id = x.id ∧ i ∈ ps))
    {c d : Config V Mem} (hphi : i.isPHI = true → d.prev = c.prev ∧ ∀ v, v.below M.nextId → d.entry (ρ v) = c.entry v) :
    Paired (fun v => v.below M.nextId) ρ c d i (movedInst blocks latches x.id y.id ps ρ b.id i) := by
  have him : i ∈ M.insts := List.mem_flatMap.mpr ⟨b, hb, hi⟩
  obtain ⟨hops, hinc⟩ := movedInst_other blocks y.id ρ hno h.noLatch
  have hhead : (movedInst blocks latches x.id y.id ps ρ b.id i).head = i.head := movedInst_head
  obtain ⟨hid, hop, hty⟩ := fields_of_head hhead
  refine ⟨hid, hop, hty, fun hp => ?_, fun _ => ⟨hops, h.wf.operands_below i him⟩, fun v _ => ?_⟩
  · obtain ⟨hprev, hentry⟩ := hphi hp
    cases hc : c.prev with
    | none =>
      unfold Config.phiValue
      rw [hprev, hc]
      rfl
    | some q =>
      refine phiValue_renamed hc (hprev.trans hc) ?_ fun v hv => hentry v (h.wf.operands_below i him v hv)
      exact incomingValue?_renamed (f := ⟨ρ, id, id, 0⟩) hops (by rw [hinc]; exact (List.map_id _).symm)
        fun _ _ he => he
  · refine h.rounds.fixed_iff (h.wf.insts_lt i him) (fun pn hpn he => hno ?_) v
    have hpx : pn ∈ x.insts := by
      rw [h.insts]
      exact List.mem_append_left _ hpn
    have hval : i.id = pn.id := by injection he
    obtain rfl := inst_unique h.wf.toIds him (List.mem_flatMap.mpr ⟨x, h.front, hpx⟩) hval
    exact ⟨congrArg Block.id (block_unique h.wf.toIds hb h.front hi hpx), hpn⟩

end SeveredHeader

/- At the start of a block, the second time perhaps past the old header. -/
inductive AtSever (M N : Module) (B : BlockId → Prop) (latches : List BlockId) (x y : Block) (ρ : Value → Value) :
    Config V Mem → Config V Mem → Prop where
  | enter (p s : Option BlockId) (vals vals' : Value → Option V) (mem : Mem) : GoesTo M B p s → s ≠ some y.id →
      (∀ v, v.below M.nextId → vals' (ρ v) = vals v) →
      AtSever M N B latches x y ρ (.enter M.code p s vals mem)
        (.enter N.code p (retarget latches x.id y.id p s) vals' mem)

namespace SeveredHeader
variable (h : SeveredHeader M N B blocks latches x y ps t ρ ns)
include h

theorem leave {b : Block} (hb : b ∈ M.blocks) (hBb : B b.id) (hne : b.id ≠ x.id) {e : Inst}
    (he : b.insts.getLast? = some e) (n : Nat) {vals vals' : Value → Option V} (mem : Mem)
    (hvals : ∀ v, v.below M.nextId → vals' (ρ v) = vals v) :
    AtSever M N B latches x y ρ (.enter M.code (some b.id) e.succs[n]? vals mem)
      (.enter N.code (some b.id) (movedInst blocks latches x.id y.id ps ρ b.id e).succs[n]? vals' mem) := by
  rw [movedInst_succ]
  refine .enter _ _ _ _ _ (GoesTo.leave h.valid hb hBb he n) (fun hs => hne ?_) hvals
  have hmem : y.id ∈ b.succs := by
    rw [Block.succs, Block.terminator?, he]
    exact List.mem_of_getElem? hs
  exact h.only b hb hBb hmem

theorem lockstep (S : Machine V Mem) :
    Lockstep (S.Emits M.code) (S.Emits N.code) (AtSever M N B latches x y ρ) := by
  have hty : ∀ v : Value, v.below M.nextId → (ρ v).ty = v.ty := fun v _ => h.rounds.value_ty v
  rintro _ _ ⟨p, s, vals, vals', mem, hedge, hnew, hvals⟩
  cases s with
  | none => exact .ended (Machine.ended_nil rfl) (Machine.ended_nil rfl)
  | some n =>
    obtain ⟨hBn, -⟩ := hedge n rfl
    obtain ⟨b, hb, rfl⟩ := h.valid.exist n hBn
    by_cases hx : b.id = x.id
    · rw [hx] at hedge ⊢
      refine (h.head S p mem hvals hedge).bind fun c d hcd => ?_
      have hne : y.id ≠ x.id := Ne.symm h.ne
      refine meets_block hty ?_ (h.valid.last y h.back h.backIn) (hcd.toAgrees.reached hcd.rest hcd.rest') ?_
      · refine List.forall₂_map_right_iff.mpr (List.forall₂_same.mpr fun i hi => ?_)
        refine h.paired h.back hi (fun hc => hne hc.1) fun hphi => ?_
        rw [h.noPHI i hi] at hphi
        cases hphi
      · intro e u he hu n vals₁ vals₂ mem₁ hvals₁
        rw [List.getLast?_map, he, Option.map_some] at hu
        obtain rfl := Option.some.inj hu
        rw [hcd.block, hcd.block']
        exact h.leave h.back h.backIn hne he n mem₁ hvals₁
    · have hret : retarget latches x.id y.id p (some b.id) = some b.id :=
        if_neg fun hc => hx (Option.some.inj hc.1)
      have hcode := h.code hb
      rw [if_neg fun he => hnew (congrArg some he), List.nil_append] at hcode
      rw [hret]
      have hal : Agrees (fun v => v.below M.nextId) ρ (Config.enter M.code p (some b.id) vals mem)
          (Config.enter N.code p (some b.id) vals' mem) := ⟨hvals, rfl⟩
      refine meets_block hty ?_ (h.valid.last b hb hBn)
        (hal.reached (enter_code (code_block h.wf.toIds hb) p vals mem) (enter_code hcode p vals' mem)) ?_
      · refine List.forall₂_map_right_iff.mpr (List.forall₂_same.mpr fun i hi => ?_)
        exact h.paired hb hi (fun hc => hx hc.1) fun _ => ⟨rfl, hvals⟩
      · intro e u he hu n vals₁ vals₂ mem₁ hvals₁
        rw [List.getLast?_map, he, Option.map_some] at hu
        obtain rfl := Option.some.inj hu
        exact h.leave hb hBn hx he n mem₁ hvals₁

/- Control that starts anywhere but behind the header shows the same. -/
theorem behaviour {n : BlockId} (hn : B n) (hne : n ≠ y.id) : SameBehaviour M N n := by
  refine ⟨fun {V Mem} S vals mem hv => ?_⟩
  refine (h.lockstep S).sameTraces (S.emits_deterministic _) (S.emits_deterministic _) ?_
  -- no PHI has run yet
  have hstart : ∀ v, v.below M.nextId → vals (ρ v) = vals v := by
    intro v _
    rcases h.rounds.value v with ⟨pn, -, rfl, u, -, ht⟩ | ⟨-, hfix⟩
    · rw [← ht.val]
      exact (hv _ _).trans (hv _ _).symm
    · rw [hfix]
  have hat : AtSever M N B latches x y ρ _ _ := .enter none (some n) vals vals mem
    (.start hn) (fun he => hne (Option.some.inj he)) hstart
  have hret : retarget latches x.id y.id none (some n) = some n := by
    refine if_neg fun hc => ?_
    obtain ⟨-, q, -, hq⟩ := hc
    cases hq
  rwa [hret] at hat

end SeveredHeader

end Run

/- The edges that stay, and those that move. -/
theorem edges_incoming {pn : Inst} (harity : pn.incoming.length = pn.operands.length) (f : BlockId → Bool) :
    ((pn.incoming.zip pn.operands).filter fun e => f e.1).map Prod.fst = pn.incoming.filter f := by
  have hzip : (pn.incoming.zip pn.operands).map Prod.fst = pn.incoming := List.map_fst_zip (Nat.le_of_eq harity)
  conv_rhs => rw [← hzip, List.filter_map]
  rfl

namespace SeveredHeader
variable (h : SeveredHeader M N B blocks latches x y ps t ρ ns)
include h

theorem block_succs {b : Block} (hb : b ∈ M.blocks) : (severedBlock blocks latches x.id y.id ps ρ ns b).succs =
    if b.id ∈ latches then b.succs.map fun s => if s = x.id then y.id else s else b.succs := by
  have hlast : (severedBlock blocks latches x.id y.id ps ρ ns b).insts.getLast? =
      b.insts.getLast?.map (movedInst blocks latches x.id y.id ps ρ b.id) := by
    unfold severedBlock
    by_cases hnil : b.insts = []
    · have hne : b.id ≠ y.id := fun he => h.full (by
        obtain rfl := List.inj_on_of_nodup_map h.wf.blocks_nodup hb h.back he
        exact hnil)
      rw [if_neg hne, hnil]
      rfl
    · dsimp only
      rw [List.getLast?_append_of_ne_nil _ fun he => hnil (List.map_eq_nil_iff.mp he), List.getLast?_map]
  rw [Block.succs, Block.terminator?, hlast, Block.succs, Block.terminator?]
  cases b.insts.getLast? with
  | none => simp
  | some e =>
    simp only [Option.map_some, Option.getD_some]
    exact movedInst_succs

/- The ways into the blocks: the old header has lost its latches to the new one. -/
theorem leads {b : Block} (hb : b ∈ M.blocks) (hBb : B b.id) (n : BlockId) :
    n ∈ (severedBlock blocks latches x.id y.id ps ρ ns b).succs ↔
      if n = x.id then x.id ∈ b.succs ∧ b.id ∉ latches
      else if n = y.id then b.id = x.id ∨ b.id ∈ latches else n ∈ b.succs := by
  have hfront : y.id ∈ b.succs ↔ b.id = x.id := by
    refine ⟨h.only b hb hBb, fun he => ?_⟩
    obtain rfl := List.inj_on_of_nodup_map h.wf.blocks_nodup hb h.front he
    rw [Block.succs, Block.terminator?, h.insts, List.getLast?_concat, Option.map_some, Option.getD_some, h.succs]
    exact List.mem_singleton_self _
  have hlatch : b.id ∈ latches → x.id ∈ b.succs := by
    intro hl
    obtain ⟨-, -, q, hq, hid, hs⟩ := (h.latch b.id).mp hl
    obtain rfl := List.inj_on_of_nodup_map h.wf.blocks_nodup hq hb hid
    exact hs
  have hne := h.ne
  have hxl := h.noLatch
  rw [h.block_succs hb]
  by_cases hl : b.id ∈ latches
  · rw [if_pos hl, List.mem_map]
    have hin := hlatch hl
    have hbx : b.id ≠ x.id := fun he => hxl (he ▸ hl)
    constructor
    · rintro ⟨s, hs, rfl⟩
      by_cases hsx : s = x.id
      · simp [hsx, Ne.symm hne, hl]
      · have hsy : s ≠ y.id := fun he => hbx (hfront.mp (he ▸ hs))
        simp [hsx, hsy, hs]
    · intro hn
      by_cases hnx : n = x.id
      · rw [if_pos hnx] at hn
        exact absurd hl hn.2
      · rw [if_neg hnx] at hn
        by_cases hny : n = y.id
        · exact ⟨x.id, hin, by simp [hny]⟩
        · rw [if_neg hny] at hn
          exact ⟨n, hn, by simp [hnx]⟩
  · rw [if_neg hl]
    by_cases hnx : n = x.id
    · simp [hnx, hl]
    · by_cases hny : n = y.id
      · simp [hny, Ne.symm hne, hl, hfront]
      · simp [hnx, hny]

theorem preds (n p : BlockId) : (B p ∧ ∃ q ∈ N.blocks, q.id = p ∧ n ∈ q.succs) ↔
    if n = x.id then (B p ∧ ∃ q ∈ M.blocks, q.id = p ∧ x.id ∈ q.succs) ∧ p ∉ latches
    else if n = y.id then p = x.id ∨ p ∈ latches else B p ∧ ∃ q ∈ M.blocks, q.id = p ∧ n ∈ q.succs := by
  have hback : (B p ∧ ∃ q ∈ N.blocks, q.id = p ∧ n ∈ q.succs) ↔ B p ∧ ∃ b ∈ M.blocks, b.id = p ∧
      if n = x.id then x.id ∈ b.succs ∧ b.id ∉ latches
      else if n = y.id then b.id = x.id ∨ b.id ∈ latches else n ∈ b.succs := by
    rw [h.blocks_eq]
    simp only [List.mem_map, exists_exists_and_eq_and]
    refine and_congr_right fun hp => exists_congr fun b => and_congr_right fun hb => and_congr_right fun hid => ?_
    exact h.leads hb (hid ▸ hp) n
  rw [hback]
  by_cases hnx : n = x.id
  · simp only [if_pos hnx]
    constructor
    · rintro ⟨hp, b, hb, rfl, hs, hl⟩
      exact ⟨⟨hp, b, hb, rfl, hs⟩, hl⟩
    · rintro ⟨⟨hp, b, hb, rfl, hs⟩, hl⟩
      exact ⟨hp, b, hb, rfl, hs, hl⟩
  · by_cases hny : n = y.id
    · simp only [if_neg hnx, if_pos hny]
      constructor
      · rintro ⟨-, b, -, rfl, hs⟩
        exact hs
      · intro hs
        obtain ⟨hp, b, hb, rfl⟩ : B p ∧ ∃ b ∈ M.blocks, b.id = p := by
          rcases hs with rfl | hl
          · exact ⟨h.frontIn, x, h.front, rfl⟩
          · obtain ⟨-, hp, q, hq, hid, -⟩ := (h.latch p).mp hl
            exact ⟨hp, q, hq, hid⟩
        exact ⟨hp, b, hb, rfl, hs⟩
    · simp only [if_neg hnx, if_neg hny]

/- A PHI has an edge for every way into its block, and a value for each. -/
theorem phi_edges {b : Block} (hb : b ∈ M.blocks) (hBb : B b.id) {u : Inst}
    (hu : u ∈ (severedBlock blocks latches x.id y.id ps ρ ns b).insts) (hphi : u.isPHI = true) :
    u.incoming.length = u.operands.length ∧
      ∀ p, p ∈ u.incoming ↔ B p ∧ ∃ q ∈ N.blocks, q.id = p ∧ b.id ∈ q.succs := by
  have hpx : ∀ pn ∈ ps, pn ∈ x.insts := fun pn hpn => by
    rw [h.insts]
    exact List.mem_append_left _ hpn
  have harity : ∀ pn ∈ ps, pn.incoming.length = pn.operands.length := fun pn hpn =>
    h.valid.arity x h.front h.frontIn pn (hpx pn hpn) (h.phis pn hpn)
  have hedge : ∀ pn ∈ ps, ∀ p, p ∈ pn.incoming ↔ B p ∧ ∃ q ∈ M.blocks, q.id = p ∧ x.id ∈ q.succs := fun pn hpn =>
    h.valid.phi x h.front h.frontIn pn (hpx pn hpn) (h.phis pn hpn)
  rcases List.mem_append.mp hu with hu | hu
  · -- a PHI of the new header
    split at hu
    · next hby =>
      obtain ⟨-, pn, hpn, ht⟩ := h.rounds.back u hu
      refine ⟨by rw [ht.incoming, ht.operands, List.length_cons, List.length_cons, List.length_map,
        List.length_map], fun p => ?_⟩
      rw [h.preds b.id p, hby, if_neg (Ne.symm h.ne), if_pos rfl, ht.incoming, innerEdges,
        edges_incoming (harity pn hpn) fun q => decide (q ∈ blocks), List.mem_cons, List.mem_filter, h.latch p,
        hedge pn hpn p, decide_eq_true_iff, and_comm (b := p ∈ blocks)]
    · cases hu
  · obtain ⟨i, hi, rfl⟩ := List.mem_map.mp hu
    rw [isPHI_of_head movedInst_head] at hphi
    by_cases hbx : b.id = x.id
    · -- a PHI of the old header
      obtain rfl := List.inj_on_of_nodup_map h.wf.blocks_nodup hb h.front hbx
      have hin : i ∈ ps := by
        rw [h.insts] at hi
        rcases List.mem_append.mp hi with hi | hi
        · exact hi
        · rw [List.mem_singleton.mp hi, Inst.isPHI, h.op] at hphi
          cases hphi
      obtain ⟨hinc, hops⟩ := movedInst_lost blocks y.id ρ hin h.noLatch
      refine ⟨by rw [hinc, hops, List.length_map, List.length_map], fun p => ?_⟩
      rw [h.preds b.id p, if_pos rfl, hinc, outerEdges,
        edges_incoming (harity i hin) fun q => decide (q ∉ blocks), List.mem_filter, hedge i hin p, h.latch p,
        decide_eq_true_iff]
      exact and_congr_right fun hp => not_congr (and_iff_left hp).symm
    · have hby : b.id ≠ y.id := fun he => by
        obtain rfl := List.inj_on_of_nodup_map h.wf.blocks_nodup hb h.back he
        rw [h.noPHI i hi] at hphi
        cases hphi
      obtain ⟨hops, hinc⟩ := movedInst_other blocks y.id ρ
        (fun hc : b.id = x.id ∧ i ∈ ps => hbx hc.1) h.noLatch
      refine ⟨by rw [hinc, hops, List.length_map, h.valid.arity b hb hBb i hi hphi], fun p => ?_⟩
      rw [h.preds b.id p, if_neg hbx, if_neg hby, hinc]
      exact h.valid.phi b hb hBb i hi hphi p

theorem valid' : ValidOn N B := by
  have hmem : ∀ c ∈ N.blocks, ∃ b ∈ M.blocks, severedBlock blocks latches x.id y.id ps ρ ns b = c := by
    intro c hc
    rw [h.blocks_eq] at hc
    exact List.mem_map.mp hc
  have hnew : ∀ (b : Block), ∀ u ∈ (if b.id = y.id then ns else []), u.op = .phi := by
    intro b u hu
    split at hu
    · obtain ⟨-, pn, -, ht⟩ := h.rounds.back u hu
      exact ht.op
    · cases hu
  constructor
  · intro n hn
    obtain ⟨b, hb, rfl⟩ := h.valid.exist n hn
    exact ⟨_, h.mem hb, rfl⟩
  · intro c hc hBc s hs
    obtain ⟨b, hb, rfl⟩ := hmem c hc
    rw [h.leads hb hBc s] at hs
    split at hs
    · next hsx => exact hsx ▸ h.frontIn
    · split at hs
      · next hsy => exact hsy ▸ h.backIn
      · exact h.valid.succ b hb hBc s hs
  · intro c hc hBc u hu hphi
    obtain ⟨b, hb, rfl⟩ := hmem c hc
    exact (h.phi_edges hb hBc hu hphi).2
  · intro c hc hBc u hu hphi
    obtain ⟨b, hb, rfl⟩ := hmem c hc
    exact (h.phi_edges hb hBc hu hphi).1
  · intro c hc hBc
    obtain ⟨b, hb, rfl⟩ := hmem c hc
    obtain ⟨qs, rest, he, hqs, hrest⟩ := h.valid.phisFirst b hb hBc
    refine ⟨(if b.id = y.id then ns else []) ++ qs.map (movedInst blocks latches x.id y.id ps ρ b.id),
      rest.map (movedInst blocks latches x.id y.id ps ρ b.id), ?_, ?_, ?_⟩
    · rw [severedBlock, he, List.map_append, List.append_assoc]
    · intro u hu
      rcases List.mem_append.mp hu with hu | hu
      · rw [Inst.isPHI, hnew b u hu]
        rfl
      · obtain ⟨i, hi, rfl⟩ := List.mem_map.mp hu
        rw [isPHI_of_head movedInst_head]
        exact hqs i hi
    · rw [List.forall_mem_map]
      intro i hi
      rw [isPHI_of_head movedInst_head]
      exact hrest i hi
  · intro c hc hBc u hu
    obtain ⟨b, hb, rfl⟩ := hmem c hc
    rw [severedBlock] at hu
    by_cases hnil : b.insts = []
    · have hby : b.id ≠ y.id := fun he => h.full (by
        obtain rfl := List.inj_on_of_nodup_map h.wf.blocks_nodup hb h.back he
        exact hnil)
      rw [if_neg hby, hnil] at hu
      cases hu
    · dsimp only at hu
      rw [List.dropLast_append_of_ne_nil fun he => hnil (List.map_eq_nil_iff.mp he), ← List.map_dropLast] at hu
      rcases List.mem_append.mp hu with hu | hu
      · rw [hnew b u hu]
        rfl
      · obtain ⟨i, hi, rfl⟩ := List.mem_map.mp hu
        rw [op_of_head movedInst_head]
        exact h.valid.last b hb hBc i hi

end SeveredHeader

end Severed

section Sever
variable {M M' : Module} {B : BlockId → Prop} {ce ce' : CodeExtractor} {header header' : BlockId}

/- The split leaves a header of PHIs and a branch. -/
theorem splitHeader (hM : M.WF) (hv : ValidOn M B) {b : Block} (hb : b ∈ M.blocks) (hB : B b.id) {first : Inst}
    (hfirst : b.insts[b.firstNonPHI]? = some first) (hpad : first.op.isEHPad = false) {x : Block}
    (hx : (M.splitBlock b.id first.id).1.block? b.id = some x) :
    ∃ y t, x.id = b.id ∧ y.id = M.nextId ∧
      CutHeader (M.splitBlock b.id first.id).1 (fun n => B n ∨ n = M.nextId) x y x.phis t := by
  obtain ⟨-, hphi, rest, hsplit⟩ := firstNonPHI_spec hfirst
  have hcode := splitBlock_code hM.toIds hv hb hB hsplit hphi hpad
  have hvalid := splitBlock_valid hM.toIds hv hb hB hsplit hphi hpad
  have hwf := splitBlock_wf hM b.id first.id
  obtain ⟨hxm, hxid⟩ := block?_some hx
  obtain ⟨js, t, hxcode, ht, hjs⟩ := hcode.head
  obtain ⟨ks, hycode, hks⟩ := hcode.tail
  obtain ⟨y, hym, hyid⟩ := hvalid.exist M.nextId (.inr rfl)
  have hxi : x.insts = js ++ [t] := Option.some.inj ((code_block hwf.toIds hxm).symm.trans (hxid ▸ hxcode))
  have hyi : y.insts = ks := Option.some.inj ((code_block hwf.toIds hym).symm.trans (hyid ▸ hycode))
  obtain ⟨-, hop, -, hops, hsucc⟩ := fields_of_core ht
  have hphis : ∀ j ∈ js, j.isPHI = true := by
    intro j hj
    obtain ⟨i, hi, hij⟩ := forall₂_right hjs j hj
    rw [isPHI_of_core hij.1]
    exact List.all_eq_true.mp List.all_takeWhile i hi
  have hps : x.phis = js := by
    rw [Block.phis, hxi, List.takeWhile_append_of_pos hphis]
    simp [Inst.isPHI, hop, Inst.uncondBr]
  have hne : b.id ≠ M.nextId := Nat.ne_of_lt (hM.blocks_lt b hb)
  refine ⟨y, t, hxid, hyid, hwf, hvalid, hxm, hxid ▸ .inl hB, hym, .inr hyid, ?_, hps ▸ hxi, hps ▸ hphis, hop, hops,
    hyid ▸ hsucc, ?_, ?_, ?_⟩
  · rw [hxid, hyid]
    exact hne
  · rw [hyi]
    intro u hu
    obtain ⟨i, hi, hiu⟩ := forall₂_right hks u hu
    rw [isPHI_of_core hiu.1]
    exact hv.tail_phi hb hB hsplit hphi i hi
  · rw [hyi]
    intro hnil
    rw [hnil] at hks
    cases hks
  · -- the tail is new, and only the head leads there
    intro q hq hBq hs
    obtain ⟨c, rfl, hc⟩ := (splitBlock_exact hM.toIds hb hsplit hphi hpad q).mp hq
    rw [redirectIn_succs, hyid] at hs
    have hold : ∀ z ∈ M.blocks, B z.id → M.nextId ∉ z.succs := fun z hz hBz hm =>
      Nat.lt_irrefl _ (hv.lt hM.toIds (hv.succ z hz hBz _ hm))
    rw [redirectIn_id] at hBq
    rcases hc with ⟨hc, -⟩ | rfl | rfl
    · rcases hBq with hBq | hid
      · exact absurd hs (hold c hc hBq)
      · exact absurd hid (Nat.ne_of_lt (hM.blocks_lt c hc))
    · rw [redirectIn_id]
      exact hxid.symm
    · change M.nextId ∈ (tailHalf (first :: rest) M.nextId).succs at hs
      rw [tailHalf_succs hsplit] at hs
      exact absurd hs (hold b hb hB)

/- The ways through `severSplitPHINodes`, with the latches. -/
theorem severSplitPHINodes_cases (h : severSplitPHINodes ce M header = some (ce', M', header')) :
    ∃ hb, M.block? header = some hb ∧ ((severs M ce.blocks hb = none ∧ ce' = ce ∧ M' = M) ∨
      ∃ n first, severs M ce.blocks hb = some n ∧ hb.insts[hb.firstNonPHI]? = some first ∧
      let M₁ := (M.splitBlock header first.id).1
      let ce₁ := { ce with blocks := (ce.blocks.remove header).insert M.nextId }
      ((ce' = ce₁ ∧ M' = M₁) ∨ ∃ x pn, M₁.block? header = some x ∧ x.phis.head? = some pn ∧
        (x.phis.map Inst.id).foldlM (severPHI header M.nextId)
          (ce₁, M₁.mapIn (pn.incoming.filter fun b => b ∈ ce₁.blocks)
            (Block.mapInsts (Inst.replaceSuccOfWith header M.nextId))) = some (ce', M'))) := by
  unfold severSplitPHINodes at h
  obtain ⟨hb, hfind, h⟩ := Option.bind_eq_some_iff.mp h
  refine ⟨hb, hfind, ?_⟩
  split at h
  · next hsev =>
    cases h
    exact .inl ⟨hsev, rfl, rfl⟩
  · next n hsev =>
    obtain ⟨first, hfirst, h⟩ := Option.bind_eq_some_iff.mp h
    dsimp only at h
    refine .inr ⟨n, first, hsev, hfirst, ?_⟩
    split at h
    · cases h
      exact .inl ⟨rfl, rfl⟩
    · obtain ⟨x, hx, h⟩ := Option.bind_eq_some_iff.mp h
      obtain ⟨pn, hpn, h⟩ := Option.bind_eq_some_iff.mp h
      obtain ⟨⟨ce₂, M₂⟩, hfold, h⟩ := Option.bind_eq_some_iff.mp h
      cases h
      exact .inr ⟨x, pn, hx, hpn, hfold⟩

theorem severPHI_face {ce₁ ce₂ : CodeExtractor} {N N' : Module} {old new : BlockId} {pn : InstId}
    (h : severPHI old new (ce₁, N) pn = some (ce₂, N')) : N'.funcs.map Function.face = N.funcs.map Function.face := by
  obtain ⟨PN, moved, kept, -, -, -, -, rfl⟩ := severPHI_inv h
  change (((N.replaceAllUsesWith _ _).mapIn _ _).mapIn _ _).funcs.map Function.face = _
  rw [mapIn_face (g := consInst _) fun _ => rfl, mapIn_face (g := Block.mapInsts _) fun _ => rfl]
  simp only [Module.replaceAllUsesWith, Module.mapBlocks, List.map_map]
  apply List.map_congr_left
  intro F _
  simp only [Function.comp_apply, Function.face, Function.mapBlocks, Prod.mk.injEq, true_and, List.head?_map,
    Option.map_map]
  rfl

theorem severSplitPHINodes_face (h : severSplitPHINodes ce M header = some (ce', M', header')) :
    M'.funcs.map Function.face = M.funcs.map Function.face := by
  have hrun := severSplitPHINodes_run (P := fun _ N => N.funcs.map Function.face = M.funcs.map Function.face) h
    (fun _ _ _ _ => splitBlock_face _ _ _) (fun _ N latches hN => (mapIn_face (g := Block.mapInsts _) (fun _ => rfl) N latches).trans hN)
    fun _ _ _ _ _ hN hstep => (severPHI_face hstep).trans hN
  rcases hrun with ⟨-, rfl, -⟩ | ⟨-, hface⟩
  · rfl
  · exact hface

theorem severPHI_placed {ce₁ ce₂ : CodeExtractor} {N N' : Module} {old new : BlockId} {pn : InstId}
    {P : FuncId → BlockId → Prop} (hN : Placed P N) (h : severPHI old new (ce₁, N) pn = some (ce₂, N')) : Placed P N' := by
  obtain ⟨PN, moved, kept, -, -, -, -, rfl⟩ := severPHI_inv h
  have h₁ := hN.mapBlocks (g := Block.mapInsts (Inst.replaceUsesOfWith PN.val (.inst N.nextId PN.ty))) fun _ => rfl
  exact (h₁.mapIn (g := Block.mapInsts _) (fun _ => rfl) [old]).mapIn (g := consInst _) (fun _ => rfl) [new]

/- The latches, and one round for every PHI. -/
theorem CutHeader.severed {x y : Block} {t pn : Inst} (h : CutHeader M B x y x.phis t) (hpn : x.phis.head? = some pn)
    (hout : x.id ∉ ce.blocks) (hfold : (x.phis.map Inst.id).foldlM (severPHI x.id y.id)
      (ce, M.mapIn (pn.incoming.filter fun b => b ∈ ce.blocks)
        (Block.mapInsts (Inst.replaceSuccOfWith x.id y.id))) = some (ce', M')) :
    ce'.blocks = ce.blocks ∧ ValidOn M' B ∧ ∀ n, B n → n ≠ y.id → SameBehaviour M M' n := by
  have hpnm : pn ∈ x.phis := List.mem_of_mem_head? hpn
  have hsub : ∀ p ∈ x.phis, p ∈ x.insts := fun p hp => List.takeWhile_subset _ hp
  have hlatch : ∀ p, p ∈ pn.incoming.filter (fun b => b ∈ ce.blocks) ↔
      p ∈ ce.blocks ∧ B p ∧ ∃ q ∈ M.blocks, q.id = p ∧ x.id ∈ q.succs := by
    intro p
    rw [List.mem_filter, h.valid.phi x h.front h.frontIn pn (hsub pn hpnm) (h.phis pn hpnm) p, decide_eq_true_iff,
      and_comm]
  have hx₂ : x ∈ (M.mapIn (pn.incoming.filter fun b => b ∈ ce.blocks)
      (Block.mapInsts (Inst.replaceSuccOfWith x.id y.id))).blocks := by
    rw [mapIn_blocks]
    exact List.mem_map.mpr ⟨x, h.front, if_neg fun hm => hout ((hlatch x.id).mp hm).1⟩
  have hnd : x.phis.Nodup := ((List.takeWhile_sublist _).map Inst.id).nodup (block_insts_nodup h.wf.toIds h.front)
    |>.of_map _
  obtain ⟨hblocks, ρ, ns, hr⟩ := Rounds.fold (latches_wf h.wf _ _ _) hx₂ rfl h.ne hsub hnd hfold
  have hs : SeveredHeader M M' B ce.blocks _ x y x.phis t ρ ns := ⟨h, hout, hlatch, hr⟩
  exact ⟨hblocks, hs.valid', fun n hn hne => hs.behaviour hn hne⟩

/- Severing any header that is no pad keeps what control does. -/
theorem severSplitPHINodes_preserves (hM : M.WF) (hv : ValidOn M B) (hB : B header) (hpad : HeaderNoPad M header)
    (h : severSplitPHINodes ce M header = some (ce', M', header')) :
    ∃ B', Preserves M B M' B' ∧ ((∀ b ∈ ce.blocks, B b) → (∀ b ∈ ce'.blocks, B' b) ∧ Spares M B M' B') ∧
      (UsesInside M B → UsesInside M' B') ∧
      ∀ fs, (Inside fs B M → Inside fs B' M') ∧ (Confined fs B M → Confined fs B' M') := by
  obtain ⟨hb, hfind, hcase⟩ := severSplitPHINodes_cases h
  obtain ⟨hbm, rfl⟩ := block?_some hfind
  rcases hcase with ⟨-, rfl, rfl⟩ | ⟨-, first, -, hfirst, hcase⟩
  · exact ⟨B, .refl hv, fun hin => ⟨hin, .refl⟩, id, fun _ => ⟨id, id⟩⟩
  · have hp := hpad.first hfind hfirst
    obtain ⟨-, hphi, rest, hsplit⟩ := firstNonPHI_spec hfirst
    have hspares := splitBlock_spares hM hv hbm hB hsplit hphi hp
    have huses := fun huse => splitBlock_usesInside hM huse hbm hB hsplit hphi hp
    have hpres := splitBlock_preserves hM.toIds hv hbm hB hsplit hphi hp
    have hblocks : (∀ b ∈ ce.blocks, B b) →
        ∀ b ∈ (ce.blocks.remove hb.id).insert M.nextId, B b ∨ b = M.nextId := by
      intro hin b hbb
      rcases SetVector.mem_insert.mp hbb with hbb | rfl
      · exact .inl (hin b (SetVector.mem_remove.mp hbb).2)
      · exact .inr rfl
    refine ⟨fun n => B n ∨ n = M.nextId, ?_⟩
    rcases hcase with ⟨rfl, rfl⟩ | ⟨x, pn, hx, hpn, hfold⟩
    · exact ⟨hpres, fun hin => ⟨hblocks hin, hspares⟩, huses,
        fun fs => ⟨fun hin => hin.splitBlock hM.toIds first.id, fun hcon => hcon.splitBlock hM.toIds hB first.id⟩⟩
    · obtain ⟨y, t, hxid, hyid, hcut⟩ := splitHeader hM hv hbm hB hfirst hp hx
      have hout : x.id ∉ (ce.blocks.remove hb.id).insert M.nextId := by
        rw [hxid, SetVector.mem_insert, SetVector.mem_remove]
        rintro (h' | h')
        · exact h'.1 rfl
        · exact Nat.ne_of_lt (hM.blocks_lt hb hbm) h'
      obtain ⟨hsame, hvalid, hbeh⟩ := hcut.severed hpn hout (by rw [hxid, hyid]; exact hfold)
      have hsplitWF := splitBlock_wf hM hb.id first.id
      have hphis : ∀ p ∈ x.phis.map Inst.id, ∃ z ∈ ((M.splitBlock hb.id first.id).1.mapIn
          (pn.incoming.filter fun b => b ∈ (ce.blocks.remove hb.id).insert M.nextId)
          (Block.mapInsts (Inst.replaceSuccOfWith hb.id M.nextId))).blocks,
          (B z.id ∨ z.id = M.nextId) ∧ p ∈ z.insts.map Inst.id := by
        intro p hpm
        obtain ⟨q, hq, rfl⟩ := List.mem_map.mp hpm
        exact latches_keep (B := fun n => B n ∨ n = M.nextId) hcut.front hcut.frontIn
          (List.mem_map_of_mem (List.takeWhile_subset _ hq))
      refine ⟨⟨hvalid, fun n hn => .inl hn, fun n hn => (hpres.same n hn).trans (hbeh n (.inl hn) ?_)⟩, ?_, ?_, ?_⟩
      · rw [hyid]
        exact Nat.ne_of_lt (hv.lt hM.toIds hn)
      · intro hin
        rw [hsame]
        refine ⟨hblocks hin, hspares.trans ((latches_spares hsplitWF ?_ _ _).trans
          (rounds_spares (latches_wf hsplitWF _ _ _) (.inl hB) (.inr rfl) hphis hfold))⟩
        exact fun b hbl => hblocks hin b (of_decide_eq_true (List.mem_filter.mp hbl).2)
      · intro huse
        refine rounds_usesInside (latches_wf hsplitWF _ _ _) (latches_usesInside (huses huse) _ _ _) ?_ (.inr rfl) hphis hfold
        have hmem : M.nextId ∈ (M.splitBlock hb.id first.id).1.blocks.map Block.id :=
          List.mem_map.mpr ((splitBlock_mem hM first.id ⟨hb, hbm, rfl⟩ M.nextId).mpr (.inr rfl))
        rw [← mapIn_ids (g := Block.mapInsts (Inst.replaceSuccOfWith hb.id M.nextId)) (fun _ => rfl)
          (pn.incoming.filter fun b => b ∈ (ce.blocks.remove hb.id).insert M.nextId)] at hmem
        exact List.mem_map.mp hmem
      · have hplaced : ∀ P : FuncId → BlockId → Prop, Placed P (M.splitBlock hb.id first.id).1 → Placed P M' := by
          intro P hP
          exact foldlM_preserves (P := fun st : CodeExtractor × Module => Placed P st.2) _
            (fun _ _ _ _ hst hstep => severPHI_placed hst hstep) (hP.mapIn (g := Block.mapInsts _) (fun _ => rfl) _) hfold
        exact fun fs => ⟨fun hin => hplaced _ (hin.splitBlock hM.toIds first.id),
          fun hcon => hplaced _ (hcon.splitBlock hM.toIds hB first.id)⟩

theorem severSplitPHINodes_wf (hM : M.WF) (h : severSplitPHINodes ce M header = some (ce', M', header')) : M'.WF := by
  have hrun := severSplitPHINodes_run (P := fun _ N => N.WF) h (fun _ _ _ _ => splitBlock_wf hM _ _)
    (fun _ _ latches hN => latches_wf hN latches _ _) fun _ _ _ _ _ hN hstep => (severPHI_wf hN hstep).1
  rcases hrun with ⟨-, rfl, -⟩ | ⟨-, hwf⟩
  · exact hM
  · exact hwf

/- Severing keeps the functions, and what control does from every block, whatever leads into the region. -/
theorem severSplitPHINodes_behaviour (hM : M.WF) (hv : Verified M) (he : ValidEdges M) (hu : ValidUses M)
    (ha : PHIsPaired M) (hpad : HeaderNoPad M header) (h : severSplitPHINodes ce M header = some (ce', M', header')) :
    M'.WF ∧ M'.funcs.map Function.face = M.funcs.map Function.face ∧ ∀ x ∈ M.blocks, SameBehaviour M M' x.id := by
  obtain ⟨hb, hfind, -⟩ := severSplitPHINodes_cases h
  obtain ⟨B', hp, -⟩ := severSplitPHINodes_preserves hM (hv.validOn he hu ha) ⟨hb, block?_some hfind⟩ hpad h
  exact ⟨severSplitPHINodes_wf hM h, severSplitPHINodes_face h, fun x hx => hp.same x.id ⟨x, hx, rfl⟩⟩

theorem severSplitPHINodes_behaviour_walkLoop : ∃ ce ce' M' header',
    severSplitPHINodes ce walkLoop 3 = some (ce', M', header') ∧ header' = 30 ∧
    M'.WF ∧ M'.funcs.map Function.face = walkLoop.funcs.map Function.face ∧
      ∀ x ∈ walkLoop.blocks, SameBehaviour walkLoop M' x.id := by
  have hrun : walkExtractors.any (fun r => decide (r.2.2.2.2 = 30)) = true := by decide
  obtain ⟨⟨ce₀, ce, ce', M', header'⟩, hr, hnew⟩ := (Option.any_eq_true _ _).mp hrun
  obtain ⟨-, -, -, hsever⟩ := walkExtractors_spec hr
  have hpad : HeaderNoPad walkLoop 3 := by
    intro hb hfind
    obtain ⟨hbm, hid⟩ := block?_some hfind
    have hall : ∀ b ∈ walkLoop.blocks, isEHPad b = false := by decide
    exact hall hb hbm
  exact ⟨_, ce', M', header', hsever, of_decide_eq_true hnew, severSplitPHINodes_behaviour walkLoop_wf walkLoop_verified
    ⟨by decide, by decide⟩ ⟨by decide, by decide⟩ (by unfold PHIsPaired; decide) hpad hsever⟩

end Sever

end Atrox
