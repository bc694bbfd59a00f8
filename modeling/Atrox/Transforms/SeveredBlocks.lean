import Atrox.Transforms.CloneFrame

/-!
# The blocks of a severed region

What splits and new PHIs leave true of the instructions, block by block.
-/

namespace Atrox
open IR Lib

/- What the LLVM verifier promises of blocks and PHIs. -/
structure Verified (M : Module) : Prop extends ValidCFG M where
  terminated : ∀ b ∈ M.blocks, b.Terminated
  phisFirst : ∀ b ∈ M.blocks, PhisFirst b.insts
  incoming : ∀ b ∈ M.blocks, ∀ i ∈ b.insts, i.isPHI = true → ∀ p ∈ i.incoming,
    ∃ q ∈ M.blocks, q.id = p ∧ b.id ∈ q.succs

/- Number, opcode and type of an instruction. -/
def IR.Inst.head (i : Inst) : Nat × Opcode × Ty := (i.id, i.op, i.ty)

/- The instruction is an old one, or a PHI or branch made since. -/
def Kin (M : Module) (i : Inst) : Prop :=
  (∃ j ∈ M.insts, j.head = i.head) ∨ (M.nextId ≤ i.id ∧ (i.op = .phi ∨ i.op = .br))

theorem head_of_core {i j : Inst} (h : i.core = j.core) : i.head = j.head := by
  have := congrArg Inst.head h
  exact this

theorem fields_of_head {i j : Inst} (h : i.head = j.head) : i.id = j.id ∧ i.op = j.op ∧ i.ty = j.ty := by
  simp only [Inst.head, Prod.mk.injEq] at h
  exact h

theorem id_of_head {i j : Inst} (h : i.head = j.head) : i.id = j.id := (fields_of_head h).1

theorem op_of_head {i j : Inst} (h : i.head = j.head) : i.op = j.op := (fields_of_head h).2.1

theorem ty_of_head {i j : Inst} (h : i.head = j.head) : i.ty = j.ty := (fields_of_head h).2.2

theorem isPHI_of_head {i j : Inst} (h : i.head = j.head) : i.isPHI = j.isPHI := by
  rw [Inst.isPHI, Inst.isPHI, op_of_head h]

theorem Kin.of_head {M : Module} {i j : Inst} (h : Kin M i) (he : j.head = i.head) : Kin M j := by
  rcases h with ⟨k, hk, hki⟩ | ⟨hlt, hop⟩
  · exact .inl ⟨k, hk, hki.trans he.symm⟩
  · rw [Kin, id_of_head he, op_of_head he]
    exact .inr ⟨hlt, hop⟩

/- What severing and splitting keep of the module. -/
structure SeverShape (M N : Module) : Prop where
  wf : N.WF
  le : M.nextId ≤ N.nextId
  kin : ∀ i ∈ N.insts, Kin M i
  terminated : ∀ b ∈ N.blocks, b.Terminated
  phisFirst : ∀ b ∈ N.blocks, PhisFirst b.insts
  ret : ∀ i ∈ N.insts, i.op = .ret → i.succs = []

theorem SeverShape.refl {M : Module} (hM : M.WF) (hv : Verified M) : SeverShape M M :=
  ⟨hM, Nat.le_refl _, fun i hi => .inl ⟨i, hi, rfl⟩, hv.terminated, hv.phisFirst, hv.ret⟩

theorem SeverShape.splitBlock {M N : Module} (h : SeverShape M N) {b : Block} (hb : b ∈ N.blocks)
    {i : Inst} (hi : i ∈ b.insts) (hphi : i.isPHI = false) (hpad : i.op.isEHPad = false) :
    SeverShape M (N.splitBlock b.id i.id).1 := by
  refine ⟨splitBlock_wf h.wf b.id i.id, Nat.le_succ_of_le h.le, ?_,
    splitBlock_terminated h.wf.toIds h.terminated hb hi hphi hpad,
    splitBlock_phisFirst h.wf.toIds hb i.id h.phisFirst, splitBlock_ret h.ret b.id i.id⟩
  intro x hx
  rcases splitBlock_insts N b.id i.id x hx with ⟨j, hj, he⟩ | he
  · exact (h.kin j hj).of_head (head_of_core he)
  · have hhead := head_of_core (show x.core = (Inst.uncondBr N.nextId N.nextId).core from he)
    simp only [Inst.head, Inst.uncondBr, Prod.mk.injEq] at hhead
    have hle := h.le
    exact .inr ⟨by omega, .inr hhead.2.1⟩

/- A rewriting of instructions that keeps their heads, after instructions put in front. -/
structure Rewrites (M N : Module) (front : Block → List Inst) (g : Block → Inst → Inst) : Prop where
  blocks : N.blocks = M.blocks.map fun b => { b with insts := front b ++ b.insts.map (g b) }
  head : ∀ b i, (g b i).head = i.head
  phi : ∀ b, ∀ i ∈ front b, i.op = .phi

theorem Rewrites.mem {M N : Module} {front : Block → List Inst} {g : Block → Inst → Inst}
    (h : Rewrites M N front g) {c : Block} (hc : c ∈ N.blocks) :
    ∃ b ∈ M.blocks, c = { b with insts := front b ++ b.insts.map (g b) } := by
  rw [h.blocks] at hc
  obtain ⟨b, hb, rfl⟩ := List.mem_map.mp hc
  exact ⟨b, hb, rfl⟩

theorem SeverShape.rewrite {M N N' : Module} {front : Block → List Inst} {g : Block → Inst → Inst}
    (h : SeverShape M N) (hr : Rewrites N N' front g) (hwf : N'.WF) (hle : N.nextId ≤ N'.nextId)
    (hfront : ∀ b, ∀ i ∈ front b, M.nextId ≤ i.id)
    (hret : ∀ b i, i.succs = [] → (g b i).succs = []) : SeverShape M N' := by
  have hold : ∀ b ∈ N.blocks, ∀ i ∈ b.insts, i ∈ N.insts := fun b hb i hi =>
    List.mem_flatMap.mpr ⟨b, hb, hi⟩
  have hmem : ∀ i ∈ N'.insts, (∃ b ∈ N.blocks, i ∈ front b) ∨
      ∃ b ∈ N.blocks, ∃ j ∈ b.insts, i = g b j := by
    intro i hi
    obtain ⟨c, hc, hic⟩ := List.mem_flatMap.mp hi
    obtain ⟨b, hb, rfl⟩ := hr.mem hc
    rcases List.mem_append.mp hic with hi | hi
    · exact .inl ⟨b, hb, hi⟩
    · obtain ⟨j, hj, rfl⟩ := List.mem_map.mp hi
      exact .inr ⟨b, hb, j, hj, rfl⟩
  refine ⟨hwf, Nat.le_trans h.le hle, ?_, ?_, ?_, ?_⟩
  · intro i hi
    rcases hmem i hi with ⟨b, -, hi⟩ | ⟨b, hb, j, hj, rfl⟩
    · exact .inr ⟨hfront b i hi, .inl (hr.phi b i hi)⟩
    · exact (h.kin j (hold b hb j hj)).of_head (hr.head b j)
  · intro c hc
    obtain ⟨b, hb, rfl⟩ := hr.mem hc
    obtain ⟨t, ht, hop⟩ := h.terminated b hb
    have hlast : b.insts.getLast? = some t := ht
    refine ⟨g b t, ?_, ?_⟩
    · have hne : b.insts.map (g b) ≠ [] := by
        intro hnil
        rw [List.map_eq_nil_iff] at hnil
        rw [hnil] at hlast
        cases hlast
      rw [Block.terminator?, List.getLast?_append_of_ne_nil _ hne, List.getLast?_map, hlast]
      rfl
    · rw [op_of_head (hr.head b t)]
      exact hop
  · intro c hc
    obtain ⟨b, hb, rfl⟩ := hr.mem hc
    obtain ⟨ps, rest, hsplit, hps, hrest⟩ := h.phisFirst b hb
    refine ⟨front b ++ ps.map (g b), rest.map (g b), ?_, ?_, ?_⟩
    · simp only [hsplit, List.map_append, List.append_assoc]
    · intro p hp
      rcases List.mem_append.mp hp with hp | hp
      · simp only [Inst.isPHI, hr.phi b p hp, decide_true]
      · obtain ⟨q, hq, rfl⟩ := List.mem_map.mp hp
        rw [isPHI_of_head (hr.head b q)]
        exact hps q hq
    · intro p hp
      obtain ⟨q, hq, rfl⟩ := List.mem_map.mp hp
      rw [isPHI_of_head (hr.head b q)]
      exact hrest q hq
  · intro i hi hop
    rcases hmem i hi with ⟨b, -, hi⟩ | ⟨b, hb, j, hj, rfl⟩
    · rw [hr.phi b i hi] at hop
      cases hop
    · exact hret b j (h.ret j (hold b hb j hj) ((op_of_head (hr.head b j)).symm.trans hop))

section Sever

/- An instruction after one round over the PHIs of the old header. -/
def severInst (PN : Inst) (newPN : Value) (oldPred : BlockId) (kept : List (BlockId × Value)) (b : Block)
    (i : Inst) : Inst :=
  if b.id = oldPred ∧ i.id = PN.id then
    { i with incoming := kept.map Prod.fst, operands := kept.map Prod.snd }
  else i.replaceUsesOfWith PN.val newPN

theorem severInst_other {PN : Inst} {newPN : Value} {oldPred : BlockId} {kept : List (BlockId × Value)} {b : Block}
    {i : Inst} (h : ¬(b.id = oldPred ∧ i.id = PN.id)) :
    severInst PN newPN oldPred kept b i = i.replaceUsesOfWith PN.val newPN :=
  if_neg h

/- The PHI in the new header that takes over the edges `moved`. -/
def severedPHI (n : Nat) (PN : Inst) (oldPred : BlockId) (moved : List (BlockId × Value)) : Inst :=
  ⟨n, .phi, PN.ty, PN.val :: moved.map Prod.snd, oldPred :: moved.map Prod.fst, []⟩

/- One round, exactly. -/
theorem severPHI_exact {oldPred newBB : BlockId} {ce ce' : CodeExtractor} {M M' : Module} {pn : InstId}
    (h : severPHI oldPred newBB (ce, M) pn = some (ce', M')) :
    ∃ PN, M.inst? pn = some PN ∧
      let edges := PN.incoming.zip (PN.replaceUsesOfWith PN.val (.inst M.nextId PN.ty)).operands
      Rewrites M M' (fun b => if b.id = newBB then
          [severedPHI M.nextId PN oldPred (edges.filter fun e => e.1 ∈ ce.blocks)] else [])
        (severInst PN (.inst M.nextId PN.ty) oldPred (edges.filter fun e => e.1 ∉ ce.blocks)) := by
  obtain ⟨PN, moved, kept, hPN, hmoved, hkept, rfl, rfl⟩ := severPHI_inv h
  refine ⟨PN, hPN, ?_⟩
  dsimp only
  rw [← hmoved, ← hkept]
  have hpn : PN.id = pn := inst?_id hPN
  constructor
  · change (((M.replaceAllUsesWith PN.val _).mapIn [oldPred] _).mapIn [newBB] _).blocks = _
    rw [mapIn_blocks, mapIn_blocks, Module.replaceAllUsesWith, mapBlocks_blocks, List.map_map,
      List.map_map]
    apply List.map_congr_left
    intro b _
    simp only [Function.comp_apply, Block.mapInsts, List.mem_singleton]
    -- the edges of the old PHI, then the new PHI
    have hinner : (if b.id = oldPred then
          ({ id := b.id, insts := (b.insts.map (Inst.replaceUsesOfWith PN.val (.inst M.nextId PN.ty))).map
              fun i => if i.id = pn then
                { i with incoming := kept.map Prod.fst, operands := kept.map Prod.snd } else i
             hasAddressTaken := b.hasAddressTaken } : Block)
        else { b with insts := b.insts.map (Inst.replaceUsesOfWith PN.val (.inst M.nextId PN.ty)) }) =
        { b with insts := b.insts.map (severInst PN (.inst M.nextId PN.ty) oldPred kept b) } := by
      split
      · next hb =>
        rw [List.map_map]
        congr 1
        apply List.map_congr_left
        intro i _
        simp only [Function.comp_apply, severInst, hb, hpn, true_and]
        rfl
      · next hb =>
        congr 1
        apply List.map_congr_left
        intro i _
        simp only [severInst, hb, false_and, if_false]
    rw [hinner]
    split <;> rfl
  · intro b i
    unfold severInst
    split <;> rfl
  · intro b i hi
    split at hi
    · rw [List.mem_singleton.mp hi, severedPHI]
    · cases hi

theorem severPHI_blocks {oldPred newBB : BlockId} {ce ce' : CodeExtractor} {M M' : Module} {pn : InstId}
    (h : severPHI oldPred newBB (ce, M) pn = some (ce', M')) :
    ∃ PN, M.inst? pn = some PN ∧ ∃ kept moved,
      (∀ e ∈ kept ++ moved, e.2 ∈ (PN.replaceUsesOfWith PN.val (.inst M.nextId PN.ty)).operands) ∧
      (∀ e ∈ moved, e.1 ∈ ce.blocks) ∧
      Rewrites M M' (fun b => if b.id = newBB then
          [⟨M.nextId, .phi, PN.ty, PN.val :: moved.map Prod.snd, oldPred :: moved.map Prod.fst, []⟩] else [])
        (severInst PN (.inst M.nextId PN.ty) oldPred kept) := by
  obtain ⟨PN, hPN, hr⟩ := severPHI_exact h
  refine ⟨PN, hPN, _, _, ?_, ?_, hr⟩
  · intro e he
    rcases List.mem_append.mp he with he | he
    · exact (List.of_mem_zip (List.mem_of_mem_filter he)).2
    · exact (List.of_mem_zip (List.mem_of_mem_filter he)).2
  · intro e he
    simpa using (List.mem_filter.mp he).2

theorem latches_blocks (M : Module) (latches : List BlockId) (src dst : BlockId) :
    Rewrites M (M.mapIn latches (Block.mapInsts (Inst.replaceSuccOfWith src dst))) (fun _ => [])
      (fun b i => if b.id ∈ latches then i.replaceSuccOfWith src dst else i) := by
  constructor
  · rw [mapIn_blocks]
    apply List.map_congr_left
    intro b _
    by_cases hb : b.id ∈ latches
    · simp only [if_pos hb, Block.mapInsts, List.nil_append]
    · simp only [if_neg hb, List.map_id', List.nil_append]
  · intro b i
    split <;> rfl
  · intro b i hi
    cases hi

theorem firstNonPHI_spec {b : Block} {i : Inst} (h : b.insts[b.firstNonPHI]? = some i) :
    i ∈ b.insts ∧ i.isPHI = false ∧ ∃ rest, b.insts = b.phis ++ i :: rest := by
  have hsplit : b.insts = b.phis ++ b.insts.dropWhile Inst.isPHI := by
    conv_lhs => rw [← List.takeWhile_append_dropWhile (p := Inst.isPHI) (l := b.insts)]
    rfl
  have hmem : i ∈ b.insts := List.mem_of_getElem? h
  rw [hsplit, Block.firstNonPHI, List.getElem?_append_right (Nat.le_refl _), Nat.sub_self] at h
  cases hd : b.insts.dropWhile Inst.isPHI with
  | nil =>
    rw [hd] at h
    cases h
  | cons x rest =>
    rw [hd] at h hsplit
    obtain rfl : x = i := Option.some.inj h
    have hnot := List.head?_dropWhile_not Inst.isPHI b.insts
    rw [hd] at hnot
    exact ⟨hmem, by simpa using hnot, rest, hsplit⟩

/- The header is no EH pad: the constructor refuses such a region. -/
def HeaderNoPad (M : Module) (header : BlockId) : Prop :=
  ∀ hb, M.block? header = some hb → isEHPad hb = false

theorem HeaderNoPad.first {M : Module} {header : BlockId} (h : HeaderNoPad M header) {hb : Block}
    (hfind : M.block? header = some hb) {first : Inst} (hfirst : hb.insts[hb.firstNonPHI]? = some first) :
    first.op.isEHPad = false := by
  have hp := h hb hfind
  rw [isEHPad, hfirst] at hp
  exact hp

theorem severPHI_shape {M N N' : Module} {oldPred newBB : BlockId} {ce ce' : CodeExtractor} {pn : InstId}
    (h : SeverShape M N) (hstep : severPHI oldPred newBB (ce, N) pn = some (ce', N')) :
    SeverShape M N' := by
  have hwf := (severPHI_wf h.wf hstep).1
  have hle : N.nextId ≤ N'.nextId := by
    obtain ⟨PN, moved, kept, -, -, -, -, rfl⟩ := severPHI_inv hstep
    exact Nat.le_succ _
  obtain ⟨PN, -, kept, moved, -, -, hr⟩ := severPHI_blocks hstep
  refine h.rewrite hr hwf hle ?_ ?_
  · intro b i hi
    split at hi
    · rw [List.mem_singleton.mp hi]
      exact h.le
    · cases hi
  · intro b i hi
    unfold severInst
    split <;> exact hi

theorem SeverShape.latches {M N : Module} (h : SeverShape M N) (latches : List BlockId) (src dst : BlockId) :
    SeverShape M (N.mapIn latches (Block.mapInsts (Inst.replaceSuccOfWith src dst))) := by
  refine h.rewrite (latches_blocks _ _ _ _) (latches_wf h.wf _ _ _) (Nat.le_refl _) ?_ ?_
  · intro b i hi
    cases hi
  · intro b i hi
    split
    · simp only [Inst.replaceSuccOfWith, hi, List.map_nil]
    · exact hi

theorem severSplitPHINodes_shape {ce ce' : CodeExtractor} {M M' : Module} {header header' : BlockId}
    (hM : M.WF) (hv : Verified M) (hpad : HeaderNoPad M header)
    (h : severSplitPHINodes ce M header = some (ce', M', header')) : SeverShape M M' := by
  have hrun := severSplitPHINodes_run (P := fun _ N => SeverShape M N) h ?_ ?_ fun _ _ _ _ _ => severPHI_shape
  · rcases hrun with ⟨-, rfl, -⟩ | ⟨-, hshape⟩
    · exact .refl hM hv
    · exact hshape
  · intro hb first hfind hfirst
    obtain ⟨hbm, rfl⟩ := block?_some hfind
    obtain ⟨hmem, hphi, -⟩ := firstNonPHI_spec hfirst
    exact (SeverShape.refl hM hv).splitBlock hbm hmem hphi (hpad.first hfind hfirst)
  · exact fun _ _ latches hN => hN.latches latches _ _

theorem splitReturnBlock_shape {M N : Module} (h : SeverShape M N) (b : BlockId) :
    SeverShape M (splitReturnBlock N b) := by
  unfold splitReturnBlock
  split
  · next ri hri =>
    split
    · next hret =>
      obtain ⟨x, hx, hlast⟩ := Option.bind_eq_some_iff.mp hri
      obtain ⟨hxm, rfl⟩ := block?_some hx
      have hphi : ri.isPHI = false := by simp [Inst.isPHI, hret]
      have hpad : ri.op.isEHPad = false := by rw [hret]; rfl
      exact h.splitBlock hxm (List.mem_of_getLast? hlast) hphi hpad
    · exact h
  · exact h

theorem splitReturnBlocks_shape {M N : Module} (h : SeverShape M N) (blocks : SetVector BlockId) :
    SeverShape M (splitReturnBlocks blocks N) :=
  foldl_preserves (P := SeverShape M) _ (fun b _ _ hN => splitReturnBlock_shape hN b) h

/- The constructor refuses a region that starts with an EH pad. -/
theorem codeExtractor_noPad {ce : CodeExtractor} {M : Module} {bbs : List BlockId} {iterInfo : Option IteratorInfo}
    {LBA : Option LoopBoundsAnalyzer} {DT : Option (BlockId → Bool)} {agg varArgs allocas flatten : Bool}
    (h : codeExtractor M bbs iterInfo LBA DT agg varArgs allocas flatten = some ce) {header : BlockId}
    (hhead : ce.blocks.elems.head? = some header) : HeaderNoPad M header := by
  obtain ⟨blocks, hb, rfl⟩ := Option.map_eq_some_iff.mp h
  unfold buildExtractionBlockSet at hb
  split at hb
  · cases hb
  · obtain ⟨result, -, rfl⟩ := Option.map_eq_some_iff.mp hb
    dsimp only at hhead
    split at hhead
    · next hvalid =>
      intro x hx
      rw [Bool.and_eq_true, Bool.not_eq_true'] at hvalid
      obtain ⟨rest, hrest⟩ := List.head?_eq_some_iff.mp hhead
      have hpad := hvalid.2
      rw [Module.region, hrest, List.filterMap_cons, hx] at hpad
      exact hpad
    · cases hhead

theorem Extraction.shape {ce ce' : CodeExtractor} {M : Module} (x : Extraction ce M ce') (hM : M.WF) (hv : Verified M)
    (hpad : HeaderNoPad M x.header) : SeverShape M (splitReturnBlocks ce'.blocks x.severed) :=
  splitReturnBlocks_shape (severSplitPHINodes_shape hM hv hpad x.severed_eq) ce'.blocks

end Sever

theorem sumLoop_verified : Verified sumLoop where
  toValidCFG := sumLoop_validCFG
  terminated := by decide
  phisFirst := by decide
  incoming := by decide

end Atrox
