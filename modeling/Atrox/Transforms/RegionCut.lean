import Atrox.Lib.Folds
import Atrox.Transforms.LostPHIs

/-!
# The region that is cloned

Where severing has no PHI to split, the blocks that are cloned have the instructions of the
region. An entry block moves to a new block, and branches stand for the returns.
-/

namespace Atrox
open IR Lib

section Property

/- What the LLVM verifier promises of edges. -/
structure ValidEdges (M : Module) : Prop where
  succ : ∀ b ∈ M.blocks, ∀ s ∈ b.succs, ∃ c ∈ M.blocks, c.id = s
  phi : ∀ b ∈ M.blocks, ∀ i ∈ b.insts, i.isPHI = true → i.incoming ≠ [] ∧ (∀ v ∈ i.operands, v.ty = i.ty) ∧
    ∀ q ∈ M.blocks, b.id ∈ q.succs → q.id ∈ i.incoming

/- The first block has at most one incoming edge from outside, as far as it has PHIs. -/
def OneWayIn (M : Module) (blocks : SetVector BlockId) (header : BlockId) : Prop :=
  ∀ b ∈ M.blocks, b.id = header → ∀ i ∈ b.insts, i.isPHI = true → numPredsOutsideRegion blocks i ≤ 1

/- A prepared region that only its first block leads into, all of whose inputs come from outside, without
stack slots, aggregation and flattening. -/
structure PlainRegion (M : Module) (ce : CodeExtractor) : Prop where
  entry : ∀ header, ce.blocks.elems.head? = some header → SingleEntry M ce.blocks header
  oneWay : ∀ header, ce.blocks.elems.head? = some header → OneWayIn M ce.blocks header
  inputs : ∀ v ∈ ce.inputs, v.isGlobalVariable = true ∨ definedInCaller M ce.blocks v = true
  slots : ce.stackAllocas = ∅
  aggregate : ce.aggregateArgs = false
  flatten : ce.flattenArrayAccesses = false

/- `j` stands for `i` once blocks are split: the block that PHIs know as `q` is `ren q` now, and a
branch to a block from `lo` on stands for a return. -/
inductive Recut (ren : BlockId → BlockId) (lo : Nat) (i j : Inst) : Prop where
  | keep : j.core = i.core → i.op ≠ .ret → (i.isPHI = true → j.incoming = i.incoming.map ren) → Recut ren lo i j
  | ret (n : Nat) : i.op = .ret → lo ≤ n → j = Inst.uncondBr n n → Recut ren lo i j

/- The region of `ce'` in `N` is the one of `ce` in `M`, but for how it is cut into blocks. -/
structure RegionCut (M N : Module) (ce ce' : CodeExtractor) (ren : BlockId → BlockId) (lo : Nat) : Prop where
  block : ∀ b ∈ M.blocks, ∃ c ∈ N.blocks, c.id = ren b.id ∧
    (b.id ∈ ce.blocks → List.Forall₂ (Recut ren lo) b.insts c.insts)
  mem : ∀ b ∈ M.blocks, b.id ∈ ce.blocks ↔ ren b.id ∈ ce'.blocks
  succ : ∀ p ∈ M.blocks, ∀ s ∈ p.succs, ren s = s
  inj : ∀ a ∈ M.blocks, ∀ b ∈ M.blocks, ren a.id = ren b.id → a.id = b.id
  fresh : ∀ n, lo ≤ n → n ∉ ce'.blocks
  le : M.nextId ≤ N.nextId
  sets : ce' = { ce with blocks := ce'.blocks }

end Property

theorem forall₂_trans {α β γ : Type} {R : α → β → Prop} {R' : β → γ → Prop} {R'' : α → γ → Prop}
    (h : ∀ a b c, R a b → R' b c → R'' a c) {as : List α} {bs : List β} {cs : List γ} (h1 : List.Forall₂ R as bs)
    (h2 : List.Forall₂ R' bs cs) : List.Forall₂ R'' as cs := by
  induction h1 generalizing cs with
  | nil =>
    cases h2
    exact .nil
  | cons hab _ ih =>
    cases h2 with
    | cons hbc h2 => exact .cons (h _ _ _ hab hbc) (ih h2)

/- Lists in step have a partner for every element, on either side. -/
theorem forall₂_left {α β : Type} {R : α → β → Prop} {as : List α} {bs : List β} (h : List.Forall₂ R as bs) :
    ∀ a ∈ as, ∃ b ∈ bs, R a b := by
  induction h with
  | nil => simp
  | cons hab _ ih =>
    intro x hx
    rcases List.mem_cons.mp hx with rfl | hx
    · exact ⟨_, List.mem_cons_self .., hab⟩
    · obtain ⟨y, hy, hxy⟩ := ih x hx
      exact ⟨y, List.mem_cons_of_mem _ hy, hxy⟩

theorem forall₂_right {α β : Type} {R : α → β → Prop} {as : List α} {bs : List β} (h : List.Forall₂ R as bs) :
    ∀ b ∈ bs, ∃ a ∈ as, R a b := forall₂_left h.flip

section Returns
variable {M : Module}

theorem ReturnSplit.recut {lo : Nat} {b c : Block} (h : ReturnSplit lo b c)
    (hlast : ∀ i ∈ b.insts.dropLast, i.op.isTerminator = false) : List.Forall₂ (Recut id lo) b.insts c.insts := by
  have hkept := (h.insts hlast).1
  have hsame : ∀ is : List Inst, (∀ i ∈ is, i.op ≠ .ret) → List.Forall₂ (Recut id lo) is is := fun is his =>
    List.forall₂_same.mpr fun i hi => .keep rfl (his i hi) fun _ => (List.map_id _).symm
  cases h with
  | keep hno =>
    refine hsame _ fun i hi => ?_
    rcases hkept i hi with ⟨-, hop⟩ | ⟨n, -, rfl⟩
    · exact hop
    · exact fun h => by cases h
  | split xs ri n hxs hop hn =>
    rw [hxs, List.dropLast_concat] at hlast
    rw [hxs]
    exact List.rel_append (hsame xs fun i hi => not_ret (hlast i hi)) (.cons (.ret n hop hn rfl) .nil)

theorem Recut.trans {ren : BlockId → BlockId} {lo : Nat} {i j k : Inst}
    (h : j.core = i.core ∧ (i.isPHI = true → j.incoming = i.incoming.map ren)) (h' : Recut id lo j k) :
    Recut ren lo i k := by
  obtain ⟨hcore, hinc⟩ := h
  have hphi : j.isPHI = i.isPHI := isPHI_of_core hcore
  cases h' with
  | keep hcore' hop hinc' =>
    refine .keep (hcore'.trans hcore) (op_of_core hcore ▸ hop) fun hp => ?_
    rw [hinc' (hphi.trans hp), List.map_id, hinc hp]
  | ret n hop hn he => exact .ret n ((op_of_core hcore).symm.trans hop) hn he

theorem core_of_forall₂ {R : Inst → Inst → Prop} (h : ∀ i j, R i j → j.core = i.core) {is js : List Inst}
    (hall : List.Forall₂ R is js) : js.map Inst.core = is.map Inst.core := by
  induction hall with
  | nil => rfl
  | cons hij _ ih => rw [List.map_cons, List.map_cons, h _ _ hij, ih]

theorem last_of_core {is js : List Inst} (hcore : js.map Inst.core = is.map Inst.core)
    (hlast : ∀ i ∈ is.dropLast, i.op.isTerminator = false) : ∀ j ∈ js.dropLast, j.op.isTerminator = false := by
  intro j hj
  obtain ⟨i, hi, he⟩ := mem_of_core (dropLast_core hcore).symm hj
  rw [← op_of_core he]
  exact hlast i hi

end Returns

section Cut
variable {M M' : Module} {ce ce' : CodeExtractor} {header header' : BlockId}

/- An entry block has no PHIs. -/
theorem entry_phis (hv : Verified M) (he : ValidEdges M) {b : Block} (hb : b ∈ M.blocks)
    (hentry : M.isEntryBlock b.id = true) : ∀ i ∈ b.insts, i.isPHI = false := by
  intro i hi
  cases hphi : i.isPHI with
  | false => rfl
  | true =>
    obtain ⟨p, hp⟩ := List.exists_mem_of_ne_nil _ (he.phi b hb i hi hphi).1
    obtain ⟨q, hq, -, hsucc⟩ := hv.incoming b hb i hi hphi p hp
    exact absurd hsucc (hv.entry b.id hentry q hq)

/- An instruction once edges from `old` leave `new`. -/
def Redirected (old new : BlockId) (i j : Inst) : Prop :=
  j.core = i.core ∧ (i.isPHI = true → j.incoming = i.incoming.map fun q => if q = old then new else q)

theorem redirectIn_insts {succs : List BlockId} {old new : BlockId} {b : Block}
    (h : b.id ∉ succs → ∀ i ∈ b.insts, i.isPHI = true → old ∉ i.incoming) :
    List.Forall₂ (Redirected old new) b.insts (b.redirectIn succs old new).insts := by
  unfold Block.redirectIn
  split
  · rw [Block.redirectPHIs, Block.mapInsts, List.forall₂_map_right_iff, List.forall₂_same]
    intro i _
    by_cases hphi : i.isPHI = true
    · rw [if_pos hphi]
      exact ⟨rfl, fun _ => rfl⟩
    · rw [if_neg hphi]
      exact ⟨rfl, fun hp => absurd hp hphi⟩
  · next hno =>
    rw [List.forall₂_same]
    refine fun i hi => ⟨rfl, fun hphi => ?_⟩
    conv_lhs => rw [← List.map_id i.incoming]
    apply List.map_congr_left
    intro q hq
    rw [if_neg, id]
    rintro rfl
    exact h hno i hi hphi hq

/- The blocks after the entry block has moved. -/
theorem splitEntry_blocks (hM : M.WF) (hv : Verified M) (he : ValidEdges M) {hb : Block} (hbm : hb ∈ M.blocks)
    (hentry : M.isEntryBlock hb.id = true) {first : Inst} (hfirst : hb.insts[hb.firstNonPHI]? = some first)
    (hpad : first.op.isEHPad = false) {b : Block} (hb' : b ∈ M.blocks) :
    ∃ c ∈ (M.splitBlock hb.id first.id).1.blocks, c.id = (if b.id = hb.id then M.nextId else b.id) ∧
      List.Forall₂ (Redirected hb.id M.nextId) b.insts c.insts := by
  have hno := entry_phis hv he hbm hentry
  have hphis : hb.phis = [] := by
    unfold Block.phis
    cases hl : hb.insts with
    | nil => rfl
    | cons i is => rw [List.takeWhile_cons_of_neg (by simp [hno i (by rw [hl]; exact List.mem_cons_self ..)])]
  obtain ⟨-, hphi, rest, hsplit⟩ := firstNonPHI_spec hfirst
  rw [hphis, List.nil_append] at hsplit
  have hsplit' : hb.insts = [] ++ first :: rest := hsplit
  have hex := splitBlock_exact hM.toIds hbm hsplit' hphi hpad
  by_cases hid : b.id = hb.id
  · obtain rfl := List.inj_on_of_nodup_map hM.blocks_nodup hb' hbm hid
    refine ⟨_, (hex _).mpr ⟨⟨M.nextId, first :: rest, false⟩, rfl, .inr (.inr rfl)⟩, ?_, ?_⟩
    · rw [redirectIn_id, if_pos rfl]
    · rw [hsplit]
      refine redirectIn_insts (b := ⟨M.nextId, first :: rest, false⟩) fun _ i hi hp => ?_
      rw [hno i (by rw [hsplit]; exact hi)] at hp
      cases hp
  · refine ⟨_, (hex _).mpr ⟨b, rfl, .inl ⟨hb', hid⟩⟩, ?_, ?_⟩
    · rw [redirectIn_id, if_neg hid]
    · refine redirectIn_insts fun hns i hi hp hold => ?_
      -- an edge of a PHI is an edge of the header
      obtain ⟨q, hq, hqid, hsucc⟩ := hv.incoming b hb' i hi hp hb.id hold
      obtain rfl := List.inj_on_of_nodup_map hM.blocks_nodup hq hbm hqid
      exact hns hsucc

theorem RegionCut.splitReturns {N : Module} {ren : BlockId → BlockId} (hN : N.WF) (hu : ValidUses M)
    (hret : ∀ i ∈ N.insts, i.op = .ret → i.succs = []) (hexist : ∀ n ∈ ce'.blocks, ∃ x ∈ N.blocks, x.id = n)
    (hblock : ∀ b ∈ M.blocks, ∃ c ∈ N.blocks, c.id = ren b.id ∧ List.Forall₂ (fun i j => j.core = i.core ∧
      (i.isPHI = true → j.incoming = i.incoming.map ren)) b.insts c.insts)
    (hmem : ∀ b ∈ M.blocks, b.id ∈ ce.blocks ↔ ren b.id ∈ ce'.blocks)
    (hsucc : ∀ p ∈ M.blocks, ∀ s ∈ p.succs, ren s = s)
    (hinj : ∀ a ∈ M.blocks, ∀ b ∈ M.blocks, ren a.id = ren b.id → a.id = b.id) (hle : M.nextId ≤ N.nextId)
    (hsets : ce' = { ce with blocks := ce'.blocks }) :
    RegionCut M (splitReturnBlocks ce'.blocks N) ce ce' ren N.nextId := by
  refine ⟨fun b hb => ?_, hmem, hsucc, hinj, fun n hn hin => ?_, ?_, hsets⟩
  · obtain ⟨c, hc, hid, hall⟩ := hblock b hb
    obtain ⟨d, hd, hdid, hsplit, -⟩ := splitReturnBlocks_exact hN hret ce'.blocks c hc
    refine ⟨d, hd, hdid.trans hid, fun hin => ?_⟩
    have hlast := last_of_core (core_of_forall₂ (fun i j hij => hij.1) hall) (hu.last b hb)
    have hrecut := (hsplit (hid ▸ (hmem b hb).mp hin)).recut hlast
    refine forall₂_trans ?_ hall hrecut
    exact fun i j k hij hjk => Recut.trans hij hjk
  · obtain ⟨x, hx, rfl⟩ := hexist n hin
    have hlt := hN.blocks_lt x hx
    omega
  · exact Nat.le_trans hle (splitReturnBlocks_sameInsts hN ce'.blocks).le

/- Nothing but an entry block and returns is split. -/
theorem severed_cut (hM : M.WF) (hv : Verified M) (he : ValidEdges M) (hu : ValidUses M)
    (hin : header ∈ ce.blocks) (hexist : ∀ b ∈ ce.blocks, ∃ x ∈ M.blocks, x.id = b) (hpad : HeaderNoPad M header)
    (hone : OneWayIn M ce.blocks header) (hfrom : SeveredFrom ce ce' M M' header')
    (h : severSplitPHINodes ce M header = some (ce', M', header')) :
    RegionCut M (splitReturnBlocks ce'.blocks M') ce ce' (fun q => if q = header then header' else q) M'.nextId := by
  have hshape := severSplitPHINodes_shape hM hv hpad h
  obtain ⟨hb, hfind, hcase⟩ := severSplitPHINodes_inv h
  obtain ⟨hbm, rfl⟩ := block?_some hfind
  rcases hcase with ⟨-, rfl, rfl, rfl⟩ | ⟨n, first, hsev, hfirst, rfl, hrun⟩
  · have hid : (fun q => if q = hb.id then hb.id else q) = (id : BlockId → BlockId) := by
      funext q
      by_cases hq : q = hb.id
      · rw [if_pos hq, hq, id]
      · rw [if_neg hq, id]
    rw [hid]
    refine .splitReturns hM hu hv.ret hexist (fun b hb => ⟨b, hb, rfl, ?_⟩) (fun _ _ => Iff.rfl) (fun _ _ _ _ => rfl)
      (fun _ _ _ _ h => h) (Nat.le_refl _) rfl
    exact List.forall₂_same.mpr fun i _ => ⟨rfl, fun _ => (List.map_id _).symm⟩
  · -- the header is an entry block
    have hentry : M.isEntryBlock hb.id = true := by
      unfold severs at hsev
      split at hsev
      · next hent => exact hent
      · split at hsev
        · cases hsev
        · next pn hpn =>
          have hpm : pn ∈ hb.insts := List.takeWhile_subset _ (List.mem_of_mem_head? hpn)
          have hphi : pn.isPHI = true := List.all_eq_true.mp List.all_takeWhile pn (List.mem_of_mem_head? hpn)
          rw [if_pos (hone hb hbm rfl pn hpm hphi)] at hsev
          cases hsev
    have hn : n = 0 := by
      rw [severs, if_pos hentry] at hsev
      exact (Option.some.inj hsev).symm
    obtain ⟨-, rfl, rfl⟩ | ⟨hn', -⟩ := hrun
    · have hp := hpad.first hfind hfirst
      have hlt := hM.blocks_lt hb hbm
      refine .splitReturns (splitBlock_wf hM hb.id first.id) hu hshape.ret hfrom.blocks
        (fun b hb' => splitEntry_blocks hM hv he hbm hentry hfirst hp hb') ?_ ?_ ?_ (Nat.le_succ _) rfl
      · intro b hb'
        have hne := Nat.ne_of_lt (hM.blocks_lt b hb')
        rw [SetVector.mem_insert, SetVector.mem_remove]
        by_cases hid : b.id = hb.id
        · simp [hid, hin]
        · simp [hid, hne]
      · intro p hpm s hs
        rw [if_neg]
        rintro rfl
        exact hv.entry hb.id hentry p hpm hs
      · intro a ha b hb' heq
        have h1 := Nat.ne_of_lt (hM.blocks_lt a ha)
        have h2 := Nat.ne_of_lt (hM.blocks_lt b hb')
        by_cases hah : a.id = hb.id
        · by_cases hbh : b.id = hb.id
          · exact hah.trans hbh.symm
          · rw [if_pos hah, if_neg hbh] at heq
            exact absurd heq.symm h2
        · by_cases hbh : b.id = hb.id
          · rw [if_neg hah, if_pos hbh] at heq
            exact absurd heq h1
          · rw [if_neg hah, if_neg hbh] at heq
            exact heq
    · exact absurd hn hn'

end Cut

end Atrox
