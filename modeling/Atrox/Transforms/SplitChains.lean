import Atrox.Lib.Folds
import Atrox.Transforms.SplitPieces

/-!
# The chains a loop is split into

`splitAtPartitionPoints` turns each block into a chain of blocks joined by
unconditional branches, one for each of its pieces, and labels them.
-/

namespace Atrox
open IR

section Links

/- A block of the number holds the instructions, up to PHI edges. -/
def Holds (M : Module) (c : BlockId) (is : List Inst) : Prop :=
  ∃ b ∈ M.blocks, b.id = c ∧ b.insts.map Inst.core = is.map Inst.core

/- The blocks hold the pieces one by one, and each but the last ends with a branch to the next. -/
def Links (M : Module) : List BlockId → List (List Inst) → Prop
  | [c], [p] => Holds M c p
  | c :: d :: cs, p :: q :: ps => (∃ n, Holds M c (p ++ [Inst.uncondBr n d])) ∧ Links M (d :: cs) (q :: ps)
  | _, _ => False

/- What the block holds with the branch that joins it to the next one. -/
def Joined (p : List Inst) : List BlockId → List Inst → Prop
  | [], is => is = p
  | d :: _, is => ∃ n, is = p ++ [Inst.uncondBr n d]

theorem links_cons {M : Module} {c : BlockId} {cs : List BlockId} {p : List Inst} {ps : List (List Inst)}
    (h : Links M (c :: cs) (p :: ps)) : (∃ is, Joined p cs is ∧ Holds M c is) ∧
      (cs = [] ∧ ps = [] ∨ Links M cs ps) := by
  cases cs with
  | nil =>
    cases ps with
    | nil => exact ⟨⟨p, rfl, h⟩, .inl ⟨rfl, rfl⟩⟩
    | cons q ps => exact h.elim
  | cons d cs =>
    cases ps with
    | nil => exact h.elim
    | cons q ps =>
      obtain ⟨n, hn⟩ := h.1
      exact ⟨⟨_, ⟨n, rfl⟩, hn⟩, .inr h.2⟩

theorem links_of {M : Module} {c : BlockId} {cs : List BlockId} {p : List Inst} {ps : List (List Inst)}
    (hc : ∃ is, Joined p cs is ∧ Holds M c is) (h : cs = [] ∧ ps = [] ∨ Links M cs ps) :
    Links M (c :: cs) (p :: ps) := by
  obtain ⟨is, hj, hm⟩ := hc
  cases cs with
  | nil =>
    rcases h with ⟨-, rfl⟩ | h
    · obtain rfl : is = p := hj
      exact hm
    · cases ps <;> exact h.elim
  | cons d cs =>
    rcases h with ⟨he, -⟩ | h
    · cases he
    · cases ps with
      | nil => cases cs <;> exact h.elim
      | cons q ps =>
        obtain ⟨n, rfl⟩ := hj
        exact ⟨⟨n, hm⟩, h⟩

/- A chain stays when all its blocks do. -/
theorem links_mono {M M' : Module} {cs : List BlockId} {ps : List (List Inst)}
    (hsame : ∀ c ∈ cs, ∀ is, Holds M c is → Holds M' c is) (h : Links M cs ps) : Links M' cs ps := by
  induction cs generalizing ps with
  | nil => cases ps <;> exact h.elim
  | cons c cs ih =>
    cases ps with
    | nil => cases cs <;> exact h.elim
    | cons p ps =>
      obtain ⟨⟨is, hj, hm⟩, hrest⟩ := links_cons h
      refine links_of ⟨is, hj, hsame c (List.mem_cons_self ..) is hm⟩ ?_
      rcases hrest with hrest | hrest
      · exact .inl hrest
      · exact .inr (ih (fun d hd => hsame d (List.mem_cons_of_mem _ hd)) hrest)

end Links

section Split

theorem core_append_split {is : List Inst} {xs zs : List Inst} (h : is.map Inst.core = (xs ++ zs).map Inst.core) :
    ∃ xs' zs', is = xs' ++ zs' ∧ xs'.map Inst.core = xs.map Inst.core ∧ zs'.map Inst.core = zs.map Inst.core := by
  rw [List.map_append] at h
  exact List.map_eq_append_iff.mp h

theorem splitBlock_holds_other {M : Module} {c : BlockId} (pt : InstId) {d : BlockId} (hd : d ≠ c)
    {is : List Inst} (h : Holds M d is) : Holds (M.splitBlock c pt).1 d is := by
  obtain ⟨x, hx, rfl, hxe⟩ := h
  obtain ⟨g, hg, hblocks⟩ := splitBlock_blocks M c pt
  refine ⟨g x, hblocks ▸ List.mem_map_of_mem (List.mem_flatMap.mpr ⟨x, hx, ?_⟩), (hg x).1, ?_⟩
  · rw [Block.cut, if_neg hd]
    exact List.mem_cons_self ..
  · rw [(hg x).2, hxe]

/- A split at a point that cuts between `xs` and `zs`. -/
theorem splitBlock_holds {M : Module} (hM : M.Ids) {c : BlockId} {xs zs : List Inst} {pt : InstId}
    (hc : Holds M c (xs ++ zs)) (hcut : CutsAt pt xs zs) :
    Holds (M.splitBlock c pt).1 c (xs ++ [Inst.uncondBr M.nextId M.nextId]) ∧
      Holds (M.splitBlock c pt).1 M.nextId zs := by
  obtain ⟨b, hb, rfl, he⟩ := hc
  obtain ⟨h, hh, hblocks⟩ := splitBlock_blocks M b.id pt
  have hk : b.splitIndex pt = xs.length := by
    have hids := ids_of_core he
    rw [splitIndex_core (c := { b with insts := xs ++ zs }) he pt]
    exact splitIndex_cutsAt rfl (hids ▸ block_insts_nodup hM hb) hcut
  obtain ⟨xs', zs', hi, hx, hz⟩ := core_append_split he
  have hlen : xs'.length = xs.length := by
    have := congrArg List.length hx
    simpa using this
  have hcutb : b.cut b.id pt M.nextId =
      [{ b with insts := xs' ++ [Inst.uncondBr M.nextId M.nextId] }, ⟨M.nextId, zs', false⟩] := by
    rw [Block.cut, if_pos rfl, hk, Block.splitAt, hi, ← hlen, List.take_left, List.drop_left]
  have hmem : ∀ y ∈ b.cut b.id pt M.nextId, ∀ is, y.insts.map Inst.core = is.map Inst.core →
      Holds (M.splitBlock b.id pt).1 y.id is := by
    intro y hy is hys
    refine ⟨h y, hblocks ▸ List.mem_map_of_mem (List.mem_flatMap.mpr ⟨b, hb, hy⟩), (hh y).1, ?_⟩
    rw [(hh y).2, hys]
  refine ⟨?_, ?_⟩
  · refine hmem { b with insts := xs' ++ [Inst.uncondBr M.nextId M.nextId] } ?_ _ ?_
    · rw [hcutb]
      exact List.mem_cons_self ..
    · simp only [List.map_append, hx]
  · refine hmem ⟨M.nextId, zs', false⟩ ?_ _ hz
    rw [hcutb]
    exact List.mem_cons_of_mem _ (List.mem_cons_self ..)

/- The chain grows by the block that takes the end of its first piece. -/
theorem splitBlock_links {M : Module} (hM : M.Ids) {c : BlockId} {cs : List BlockId} {xs zs : List Inst}
    {ps : List (List Inst)} {pt : InstId} (hcut : CutsAt pt xs zs) (hc : c ∉ cs)
    (h : Links M (c :: cs) ((xs ++ zs) :: ps)) :
    Links (M.splitBlock c pt).1 (c :: M.nextId :: cs) (xs :: zs :: ps) := by
  obtain ⟨⟨is, hj, hm⟩, hrest⟩ := links_cons h
  -- the branch to the next block goes with the tail
  obtain ⟨ws, hjw, hws, hcw⟩ : ∃ ws, Joined zs cs ws ∧ Holds M c (xs ++ ws) ∧ CutsAt pt xs ws := by
    cases cs with
    | nil =>
      obtain rfl : is = xs ++ zs := hj
      exact ⟨zs, rfl, hm, hcut⟩
    | cons d cs =>
      obtain ⟨n, rfl⟩ := hj
      rw [List.append_assoc] at hm
      exact ⟨_, ⟨n, rfl⟩, hm, hcut.append rfl rfl⟩
  obtain ⟨h1, h2⟩ := splitBlock_holds hM hws hcw
  refine links_of ⟨_, ⟨M.nextId, rfl⟩, h1⟩ (.inr (links_of ⟨ws, hjw, h2⟩ ?_))
  rcases hrest with hrest | hrest
  · exact .inl hrest
  · exact .inr (links_mono (fun d hd _ => splitBlock_holds_other pt (ne_of_mem_of_not_mem hd hc)) hrest)

end Split

section Labels

@[simp] theorem emplaceMode_lookup (modes : BlockModeMapTy) (b : BlockId) (m : Mode) (c : BlockId) :
    (emplaceMode modes b m).lookup c = if c = b then some ((modes.lookup b).getD m) else modes.lookup c := by
  unfold emplaceMode
  split
  · next hb =>
    by_cases hc : c = b
    · subst hc
      obtain ⟨m', hm'⟩ := Option.isSome_iff_exists.mp (AList.lookup_isSome.mpr hb)
      rw [if_pos rfl, hm', Option.getD_some]
    · rw [if_neg hc]
  · next hb =>
    by_cases hc : c = b
    · subst hc
      rw [AList.lookup_insert, if_pos rfl, AList.lookup_eq_none.mpr hb, Option.getD_none]
    · rw [AList.lookup_insert_ne hc, if_neg hc]

theorem emplaceMode_mem {modes : BlockModeMapTy} {b : BlockId} {m : Mode} {c : BlockId}
    (h : c ∈ emplaceMode modes b m) : c = b ∨ c ∈ modes := by
  have hs := AList.lookup_isSome.mpr h
  rw [emplaceMode_lookup] at hs
  by_cases hc : c = b
  · exact .inl hc
  · rw [if_neg hc] at hs
    exact .inr (AList.lookup_isSome.mp hs)

theorem labels_keep {modes modes' : BlockModeMapTy} {cs : List BlockId} {qs : List Segment}
    (hsame : ∀ c ∈ cs, modes'.lookup c = modes.lookup c)
    (h : List.Forall₂ (fun c q => modes.lookup c = some q.1.2) cs qs) :
    List.Forall₂ (fun c q => modes'.lookup c = some q.1.2) cs qs := by
  induction h with
  | nil => exact .nil
  | cons hc _ ih =>
    refine .cons ?_ (ih fun c hc => hsame c (List.mem_cons_of_mem _ hc))
    rw [hsame _ (List.mem_cons_self ..)]
    exact hc

end Labels

section Chains

/- What a block has become: the blocks behind it, what it still holds, the pieces of
the others, and its own label. -/
structure Chain where
  tail : List BlockId
  first : List Inst
  rest : List Segment
  label : Option Mode

structure ChainOf (LI₀ : LoopInfo) (st : SplitState) (b : Block) (k : Chain) : Prop where
  links : Links st.M (b.id :: k.tail) (k.first :: k.rest.map Prod.snd)
  loop : ∀ c ∈ b.id :: k.tail, ∀ l < LI₀.loops.length, c ∈ st.LI.blocksOf l ↔ b.id ∈ LI₀.blocksOf l
  labels : List.Forall₂ (fun c q => st.modes.lookup c = some q.1.2) k.tail k.rest
  label : st.modes.lookup b.id = k.label

/- The state while the blocks of `M₀` are split: each is a chain, and there are no other blocks. -/
structure Chains (M₀ : Module) (LI₀ : LoopInfo) (st : SplitState) (ch : BlockId → Chain) : Prop where
  ids : st.M.Ids
  loops : st.LI.WF
  length : st.LI.loops.length = LI₀.loops.length
  blocks_lt : ∀ l < st.LI.loops.length, ∀ c ∈ st.LI.blocksOf l, c < st.M.nextId
  keys : ∀ c ∈ st.modes, c < st.M.nextId
  nodup : (M₀.blocks.map Block.id).Nodup
  chain : ∀ b ∈ M₀.blocks, ChainOf LI₀ st b (ch b.id)
  perm : List.Perm (st.M.blocks.map Block.id) (M₀.blocks.flatMap fun b => b.id :: (ch b.id).tail)

variable {M₀ : Module} {LI₀ : LoopInfo} {st : SplitState} {ch : BlockId → Chain}

theorem Chains.lt (h : Chains M₀ LI₀ st ch) {b : Block} (hb : b ∈ M₀.blocks) :
    ∀ c ∈ b.id :: (ch b.id).tail, c < st.M.nextId := by
  intro c hc
  have hm : c ∈ st.M.blocks.map Block.id := h.perm.mem_iff.mpr (List.mem_flatMap.mpr ⟨b, hb, hc⟩)
  obtain ⟨x, hx, rfl⟩ := List.mem_map.mp hm
  exact h.ids.blocks_lt x hx

/- A number belongs to one chain, once. -/
theorem Chains.disjoint (h : Chains M₀ LI₀ st ch) {b b' : Block} (hb : b ∈ M₀.blocks)
    (hb' : b' ∈ M₀.blocks) (hne : b' ≠ b) : ∀ c ∈ b'.id :: (ch b'.id).tail, c ≠ b.id := by
  have hnd := (h.perm.nodup_iff).mp h.ids.blocks_nodup
  rw [List.nodup_flatMap] at hnd
  have hdis := hnd.2
  rintro c hc rfl
  have hsym : Std.Symm (Function.onFun List.Disjoint fun x : Block => x.id :: (ch x.id).tail) :=
    ⟨fun _ _ hxy => List.disjoint_symm hxy⟩
  exact hdis.forall hb hb' hne.symm (List.mem_cons_self ..) hc

theorem Chains.notMem_tail (h : Chains M₀ LI₀ st ch) {b : Block} (hb : b ∈ M₀.blocks) :
    b.id ∉ (ch b.id).tail := by
  have hnd := (h.perm.nodup_iff).mp h.ids.blocks_nodup
  rw [List.nodup_flatMap] at hnd
  exact (List.nodup_cons.mp (hnd.1 b hb)).1

theorem flatMap_grow {bs : List Block} (hnd : (bs.map Block.id).Nodup) {b : Block} (hb : b ∈ bs)
    (ch : BlockId → Chain) (k : Chain) {n : BlockId} (hk : k.tail = n :: (ch b.id).tail) :
    List.Perm (bs.flatMap fun x => x.id :: (Function.update ch b.id k x.id).tail)
      (n :: bs.flatMap fun x => x.id :: (ch x.id).tail) := by
  obtain ⟨pre, post, rfl⟩ := List.append_of_mem hb
  simp only [List.map_append, List.map_cons, List.nodup_append, List.nodup_cons] at hnd
  have hpre : ∀ x ∈ pre, x.id :: (Function.update ch b.id k x.id).tail = x.id :: (ch x.id).tail := by
    intro x hx
    have hne : x.id ≠ b.id := hnd.2.2 x.id (List.mem_map_of_mem hx) b.id (List.mem_cons_self ..)
    rw [Function.update_of_ne hne]
  have hpost : ∀ x ∈ post, x.id :: (Function.update ch b.id k x.id).tail = x.id :: (ch x.id).tail := by
    intro x hx
    have hne : x.id ≠ b.id := fun he => hnd.2.1.1 (he ▸ List.mem_map_of_mem hx)
    rw [Function.update_of_ne hne]
  simp only [List.flatMap_append, List.flatMap_cons, Function.update_self, hk]
  rw [List.flatMap_congr hpre, List.flatMap_congr hpost]
  simp only [List.cons_append]
  exact ((List.Perm.swap n b.id _).append_left _).trans List.perm_middle

theorem splitPoint_lookup (b : BlockId) (p : ModeChangePoint) {c : BlockId} (hc : c < st.M.nextId) :
    (splitPoint b st p).modes.lookup c = st.modes.lookup c := by
  have hne : c ≠ st.M.nextId := Nat.ne_of_lt hc
  simp only [splitPoint, splitBlock_snd, emplaceMode_lookup, if_neg hne]

theorem Chains.splitPoint_blocksOf (h : Chains M₀ LI₀ st ch) (b : BlockId) (p : ModeChangePoint) {l : LoopId}
    (hl : l < LI₀.loops.length) (c : BlockId) : c ∈ (splitPoint b st p).LI.blocksOf l ↔
      c ∈ st.LI.blocksOf l ∨ (c = st.M.nextId ∧ b ∈ st.LI.blocksOf l) :=
  LoopInfo.splitUpdate_blocksOf h.loops b st.M.nextId (h.length ▸ hl) c

/- An old block stays in its loops. -/
theorem Chains.splitPoint_blocksOf_old (h : Chains M₀ LI₀ st ch) (b : BlockId) (p : ModeChangePoint) {l : LoopId}
    (hl : l < LI₀.loops.length) {c : BlockId} (hc : c < st.M.nextId) :
    c ∈ (splitPoint b st p).LI.blocksOf l ↔ c ∈ st.LI.blocksOf l := by
  refine (h.splitPoint_blocksOf b p hl c).trans ⟨?_, .inl⟩
  rintro (hm | ⟨rfl, -⟩)
  · exact hm
  · exact absurd hc (Nat.lt_irrefl _)

/- The chain of the block grows by the new one. -/
theorem Chains.splitPoint_chain (h : Chains M₀ LI₀ st ch) {b : Block} (hb : b ∈ M₀.blocks) {p : ModeChangePoint}
    {xs zs : List Inst} (hfirst : (ch b.id).first = xs ++ zs) (hcut : CutsAt p.1 xs zs) :
    ChainOf LI₀ (splitPoint b.id st p) b
      ⟨st.M.nextId :: (ch b.id).tail, xs, (p, zs) :: (ch b.id).rest, (ch b.id).label⟩ := by
  have hlt := h.lt hb
  have hold := h.chain b hb
  have hlinks := hold.links
  rw [hfirst] at hlinks
  have hkey : st.modes.lookup st.M.nextId = none :=
    AList.lookup_eq_none.mpr fun hm => Nat.lt_irrefl _ (h.keys _ hm)
  refine ⟨splitBlock_links h.ids hcut (h.notMem_tail hb) hlinks, ?_, ?_, ?_⟩
  · intro c hc l hl
    rcases List.mem_cons.mp hc with rfl | hc
    · rw [h.splitPoint_blocksOf_old b.id p hl (hlt _ (List.mem_cons_self ..))]
      exact hold.loop _ (List.mem_cons_self ..) l hl
    · rcases List.mem_cons.mp hc with rfl | hc
      · -- the new block goes to the loops of the old one
        have hfresh : st.M.nextId ∉ st.LI.blocksOf l := fun hm =>
          Nat.lt_irrefl _ (h.blocks_lt l (h.length ▸ hl) _ hm)
        refine (h.splitPoint_blocksOf b.id p hl _).trans ⟨?_, ?_⟩
        · rintro (hm | ⟨-, hm⟩)
          · exact absurd hm hfresh
          · exact (hold.loop _ (List.mem_cons_self ..) l hl).mp hm
        · exact fun hm => .inr ⟨rfl, (hold.loop _ (List.mem_cons_self ..) l hl).mpr hm⟩
      · rw [h.splitPoint_blocksOf_old b.id p hl (hlt c (List.mem_cons_of_mem _ hc))]
        exact hold.loop c (List.mem_cons_of_mem _ hc) l hl
  · have hkeep := labels_keep (fun c hc => splitPoint_lookup b.id p (hlt c (List.mem_cons_of_mem _ hc))) hold.labels
    refine .cons ?_ hkeep
    simp only [splitPoint, splitBlock_snd, emplaceMode_lookup, if_true, hkey, Option.getD_none]
  · rw [splitPoint_lookup b.id p (hlt _ (List.mem_cons_self ..))]
    exact hold.label

/- The other chains stay. -/
theorem Chains.splitPoint_other (h : Chains M₀ LI₀ st ch) {b b' : Block} (hb : b ∈ M₀.blocks)
    (hb' : b' ∈ M₀.blocks) (hne : b' ≠ b) (p : ModeChangePoint) :
    ChainOf LI₀ (splitPoint b.id st p) b' (ch b'.id) := by
  have hlt := h.lt hb'
  have hold := h.chain b' hb'
  refine ⟨?_, ?_, ?_, ?_⟩
  · exact links_mono (fun c hc _ => splitBlock_holds_other p.1 (h.disjoint hb hb' hne c hc)) hold.links
  · intro c hc l hl
    rw [h.splitPoint_blocksOf_old b.id p hl (hlt c hc)]
    exact hold.loop c hc l hl
  · exact labels_keep (fun c hc => splitPoint_lookup b.id p (hlt c (List.mem_cons_of_mem _ hc))) hold.labels
  · rw [splitPoint_lookup b.id p (hlt _ (List.mem_cons_self ..))]
    exact hold.label

/- One `SplitBlock`: the end of what the block holds becomes a piece of its own. -/
theorem splitPoint_chains (h : Chains M₀ LI₀ st ch) {b : Block} (hb : b ∈ M₀.blocks) {p : ModeChangePoint}
    {xs zs : List Inst} (hfirst : (ch b.id).first = xs ++ zs) (hcut : CutsAt p.1 xs zs) :
    Chains M₀ LI₀ (splitPoint b.id st p) (Function.update ch b.id
      ⟨st.M.nextId :: (ch b.id).tail, xs, (p, zs) :: (ch b.id).rest, (ch b.id).label⟩) := by
  have hfreshLoop : ∀ l < st.LI.loops.length, st.M.nextId ∉ st.LI.blocksOf l := fun l hl hm =>
    Nat.lt_irrefl _ (h.blocks_lt l hl _ hm)
  constructor
  · exact splitBlock_ids h.ids b.id p.1
  · exact LoopInfo.splitUpdate_wf h.loops b.id st.M.nextId hfreshLoop
  · exact (LoopInfo.splitUpdate_length ..).trans h.length
  · intro l hl c hc
    have hl' : l < st.LI.loops.length := (LoopInfo.splitUpdate_length st.LI b.id st.M.nextId) ▸ hl
    rcases (h.splitPoint_blocksOf b.id p (h.length ▸ hl') c).mp hc with hm | ⟨rfl, -⟩
    · exact Nat.lt_succ_of_lt (h.blocks_lt l hl' c hm)
    · exact Nat.lt_succ_self _
  · intro c hc
    rcases emplaceMode_mem hc with rfl | hm
    · exact Nat.lt_succ_self _
    · exact Nat.lt_succ_of_lt (h.keys c hm)
  · exact h.nodup
  · intro b' hb'
    by_cases he : b' = b
    · subst he
      rw [Function.update_self]
      exact h.splitPoint_chain hb' hfirst hcut
    · have hid : b'.id ≠ b.id := fun hid => he (List.inj_on_of_nodup_map h.nodup hb' hb hid)
      rw [Function.update_of_ne hid]
      exact h.splitPoint_other hb hb' he p
  · obtain ⟨⟨-, -, x, hx, hxb, -⟩, -⟩ := links_cons (h.chain b hb).links
    have hp := (splitBlock_perm h.ids hx p.1).1
    rw [hxb] at hp
    refine hp.trans (((h.perm.cons _)).trans ?_)
    exact (flatMap_grow h.nodup hb ch _ rfl).symm

/- The points of one block, last one first. -/
theorem splitPoints_chains (segs : List Segment) (h : Chains M₀ LI₀ st ch) {b : Block} (hb : b ∈ M₀.blocks)
    {first : List Inst} (hfirst : (ch b.id).first = first ++ concat segs)
    (hcuts : ∀ pre q post, segs = pre ++ q :: post → CutsAt q.1.1 (first ++ concat pre) q.2) :
    ∃ tail, Chains M₀ LI₀ ((segs.map Prod.fst).reverse.foldl (splitPoint b.id) st)
      (Function.update ch b.id ⟨tail, first, segs ++ (ch b.id).rest, (ch b.id).label⟩) := by
  induction segs using List.reverseRecOn generalizing st ch with
  | nil =>
    refine ⟨(ch b.id).tail, ?_⟩
    rw [concat_nil, List.append_nil] at hfirst
    rw [← hfirst, List.nil_append, Function.update_eq_self]
    exact h
  | append_singleton pre q ih =>
    rw [concat_append, concat_cons, concat_nil, List.append_nil, ← List.append_assoc] at hfirst
    have hstep := splitPoint_chains h hb hfirst (hcuts pre q [] rfl)
    obtain ⟨tail, ht⟩ := ih hstep (by rw [Function.update_self]) fun pre' q' post' he =>
      hcuts pre' q' (post' ++ [q]) (by rw [he, List.append_assoc]; rfl)
    refine ⟨tail, ?_⟩
    rw [Function.update_idem, Function.update_self] at ht
    dsimp only at ht
    rw [List.append_cons] at ht
    rw [List.map_append, List.map_cons, List.map_nil, List.reverse_append, List.reverse_singleton,
      List.singleton_append, List.foldl_cons]
    exact ht

/- A new label for the block itself touches no other entry. -/
theorem emplace_chains (h : Chains M₀ LI₀ st ch) {b : Block} (hb : b ∈ M₀.blocks) (m : Mode) :
    Chains M₀ LI₀ { st with modes := emplaceMode st.modes b.id m } (Function.update ch b.id
      { ch b.id with label := some ((ch b.id).label.getD m) }) := by
  have hown := (h.chain b hb).label
  constructor
  · exact h.ids
  · exact h.loops
  · exact h.length
  · exact h.blocks_lt
  · intro c hc
    rcases emplaceMode_mem hc with rfl | hm
    · exact h.lt hb _ (List.mem_cons_self ..)
    · exact h.keys c hm
  · exact h.nodup
  · intro b' hb'
    have hold := h.chain b' hb'
    by_cases he : b' = b
    · subst he
      rw [Function.update_self]
      refine ⟨hold.links, hold.loop, labels_keep (fun c hc => ?_) hold.labels, ?_⟩
      · have hne : c ≠ b'.id := ne_of_mem_of_not_mem hc (h.notMem_tail hb')
        rw [emplaceMode_lookup, if_neg hne]
      · rw [emplaceMode_lookup, if_pos rfl, hown]
    · have hid : b'.id ≠ b.id := fun hid => he (List.inj_on_of_nodup_map h.nodup hb' hb hid)
      have hdis := h.disjoint hb hb' he
      rw [Function.update_of_ne hid]
      refine ⟨hold.links, hold.loop, labels_keep (fun c hc => ?_) hold.labels, ?_⟩
      · rw [emplaceMode_lookup, if_neg (hdis c (List.mem_cons_of_mem _ hc))]
      · rw [emplaceMode_lookup, if_neg hid]
        exact hold.label
  · have hsame : (M₀.blocks.flatMap fun x => x.id :: (Function.update ch b.id
        { ch b.id with label := some ((ch b.id).label.getD m) } x.id).tail) =
        M₀.blocks.flatMap fun x => x.id :: (ch x.id).tail := by
      refine List.flatMap_congr fun x _ => ?_
      by_cases hx : x.id = b.id
      · rw [hx, Function.update_self]
      · rw [Function.update_of_ne hx]
    rw [hsame]
    exact h.perm

/- A block with its points: its pieces, and a label when there is none yet. -/
theorem splitEntry_chains (segs : List Segment) (h : Chains M₀ LI₀ st ch) {b : Block} (hb : b ∈ M₀.blocks)
    {first : List Inst} (hfirst : (ch b.id).first = first ++ concat segs)
    (hcuts : ∀ pre q post, segs = pre ++ q :: post → CutsAt q.1.1 (first ++ concat pre) q.2) :
    ∃ tail, Chains M₀ LI₀ (splitEntry st (b.id, segs.map Prod.fst)) (Function.update ch b.id
      ⟨tail, first, segs ++ (ch b.id).rest,
        match segs.head? with
        | none => (ch b.id).label
        | some q => some ((ch b.id).label.getD (invertMode q.1.2))⟩) := by
  obtain ⟨tail, ht⟩ := splitPoints_chains segs h hb hfirst hcuts
  refine ⟨tail, ?_⟩
  cases segs with
  | nil => exact ht
  | cons q segs =>
    have he := emplace_chains ht hb (invertMode q.1.2)
    rw [Function.update_self, Function.update_idem] at he
    simp only [splitEntry, List.map_cons, List.reverse_cons, List.getLast?_concat, List.head?_cons]
    simp only [List.map_cons, List.reverse_cons] at he
    exact he

end Chains

section Loop
variable (info : IteratorInfo)

/- Label that a round gives a block in which nothing changes. -/
def scanLabel (b : Block) : Option Mode :=
  if (changePoints info (headMode info (scanned info b)) (scanned info b)).isEmpty then
    some (headMode info (scanned info b)) else none

theorem scanBlock_modes (b : Block) (st : BlockModeMapTy × ModeChangePointMap) (c : BlockId)
    (hb : st.1.lookup b.id = none) :
    (scanBlock info b st).1.lookup c = if c = b.id then scanLabel info b else st.1.lookup c := by
  have hmodes : (scanBlock info b st).1 =
      if (changePoints info (headMode info (scanned info b)) (scanned info b)).isEmpty then
        emplaceMode st.1 b.id (headMode info (scanned info b)) else st.1 := rfl
  rw [hmodes, scanLabel]
  split
  · rw [emplaceMode_lookup, hb]
    rfl
  · split
    · next hc => rw [hc, hb]
    · rfl

theorem findModes_lookup (bs : List Block) (hnd : (bs.map Block.id).Nodup)
    (st : BlockModeMapTy × ModeChangePointMap) (hst : ∀ b ∈ bs, st.1.lookup b.id = none) :
    let r := bs.foldl (fun st b => scanBlock info b st) st
    (∀ b ∈ bs, r.1.lookup b.id = scanLabel info b) ∧
      ∀ n, n ∉ bs.map Block.id → r.1.lookup n = st.1.lookup n := by
  induction bs generalizing st with
  | nil => exact ⟨by simp, fun _ _ => rfl⟩
  | cons b bs ih =>
    simp only [List.map_cons, List.nodup_cons] at hnd
    have hlook := fun c => scanBlock_modes info b st c (hst b (List.mem_cons_self ..))
    have hne : ∀ c ∈ bs, c.id ≠ b.id := fun c hc he => hnd.1 (he ▸ List.mem_map_of_mem hc)
    obtain ⟨h1, h2⟩ := ih hnd.2 (scanBlock info b st) fun c hc => by
      rw [hlook, if_neg (hne c hc)]
      exact hst c (List.mem_cons_of_mem _ hc)
    refine ⟨?_, ?_⟩
    · intro c hc
      rcases List.mem_cons.mp hc with rfl | hc
      · rw [List.foldl_cons, h2 c.id hnd.1, hlook, if_pos rfl]
      · rw [List.foldl_cons, h1 c hc]
    · intro n hn
      simp only [List.map_cons, List.mem_cons, not_or] at hn
      rw [List.foldl_cons, h2 n hn.2, hlook, if_neg hn.1]

/- The two calls on one loop, with maps that are empty at the start. -/
def separate (addr : BlockId → Nat) (M : Module) (LI : LoopInfo) (l : LoopId) : Option SplitState :=
  (findPartitionPoints M (LI.blocksOf l) info ∅ []).map fun found =>
    splitAtPartitionPoints addr found.2 ⟨M, LI, found.1⟩

/- What the calls are given. -/
structure LoopReady (M : Module) (LI : LoopInfo) (l : LoopId) : Prop where
  ids : M.Ids
  loops : LI.WF
  blocks_lt : ∀ l < LI.loops.length, ∀ b ∈ LI.blocksOf l, b < M.nextId
  loop : l < LI.loops.length
  layout : ∀ b ∈ M.blocks, b.id ∈ LI.blocksOf l → b.Layout

/- The calls come to an end exactly when every block of the loop has an insertion point. -/
theorem separate_isSome_iff (addr : BlockId → Nat) {M : Module} {LI : LoopInfo} {l : LoopId} (hl : LoopReady M LI l) :
    (separate info addr M LI l).isSome ↔ ∀ b ∈ M.blocks, b.id ∈ LI.blocksOf l → b.HasInsertionPt := by
  rw [separate, Option.isSome_map, findPartitionPoints_eq]
  have hregion : (∀ b ∈ M.region (LI.blocksOf l), b.HasInsertionPt) ↔
      ∀ b ∈ M.blocks, b.id ∈ LI.blocksOf l → b.HasInsertionPt := by
    simp only [mem_region hl.ids, and_imp]
  rw [← hregion]
  split
  · next hall => exact ⟨fun _ => hall, fun _ => rfl⟩
  · next hno => exact ⟨fun h => absurd h Bool.false_ne_true, fun hall => absurd hall hno⟩

theorem LoopReady.shape {M : Module} {LI : LoopInfo} {l : LoopId} (hl : LoopReady M LI l) {addr : BlockId → Nat}
    {st : SplitState} (hst : separate info addr M LI l = some st) {b : Block} (hb : b ∈ M.blocks)
    (hbl : b.id ∈ LI.blocksOf l) : b.Shape where
  toLayout := hl.layout b hb hbl
  insertionPt := (separate_isSome_iff info addr hl).mp (hst ▸ rfl) b hb hbl

/- A block of the loop that is cut at all its points and labelled. -/
structure ChainDone (b : Block) (k : Chain) : Prop where
  segments : Segments info b k.first k.rest
  label : k.label = some (frontLabel info b)

/- The chain of a block no split has touched. -/
def untouched (b : Block) (label : Option Mode) : Chain := ⟨[], b.insts, [], label⟩

variable {info}

theorem untouched_done {b : Block} (hb : b.Shape) (hnil : blockPoints info b = []) :
    ChainDone info b (untouched b (scanLabel info b)) := by
  obtain ⟨first, rest, hseg⟩ := segments_exist info hb
  have hpts := hseg.points
  rw [hnil] at hpts
  obtain rfl : rest = [] := List.map_eq_nil_iff.mp hpts.symm
  have hconcat := hseg.concat
  rw [concat_nil, List.append_nil] at hconcat
  subst hconcat
  refine ⟨hseg, ?_⟩
  have hscan : changePoints info (headMode info (scanned info b)) (scanned info b) = [] := by
    have := List.append_eq_nil_iff.mp hnil
    exact this.2
  simp only [untouched, scanLabel, frontLabel, hscan, List.isEmpty_nil, if_true]

/- A block cut at its points takes the inverse of the first point's mode, unless it has a label. -/
theorem done_label {b : Block} {q : Segment} {rest : List Segment}
    (hpts : blockPoints info b = (q :: rest).map Prod.fst) :
    some ((scanLabel info b).getD (invertMode q.1.2)) = some (frontLabel info b) := by
  unfold scanLabel frontLabel
  rw [hpts]
  split <;> rfl

theorem mem_keys {es : ModeChangePointMap} {n : BlockId} : n ∈ es.map Prod.fst ↔ ∃ e ∈ es, e.1 = n :=
  List.mem_map

theorem lookup_of_mem {es : ModeChangePointMap} (hnd : (es.map Prod.fst).Nodup)
    {e : BlockId × List ModeChangePoint} (he : e ∈ es) : es.lookup e.1 = some e.2 := by
  obtain ⟨k, v⟩ := e
  obtain ⟨pre, post, rfl⟩ := List.append_of_mem he
  rw [List.map_append, List.map_cons, List.nodup_append] at hnd
  rw [List.lookup_append, List.lookup_eq_none_iff.mpr]
  · rw [List.lookup_cons_self]
    rfl
  · intro p hp
    have hne := hnd.2.2 p.1 (List.mem_map_of_mem hp) k (List.mem_cons_self ..)
    simpa using fun h : k = p.1 => hne h.symm

variable {M : Module} {LI : LoopInfo} {l : LoopId}

/- All entries of the map, one block after the other. -/
theorem splitEntries_chains (hl : LoopReady M LI l) (hshapes : ∀ b ∈ M.blocks, b.id ∈ LI.blocksOf l → b.Shape)
    {es : ModeChangePointMap} (hnd : (es.map Prod.fst).Nodup)
    (hown : ∀ b ∈ M.blocks, b.id ∈ LI.blocksOf l → ∀ e ∈ es, e.1 = b.id → e.2 = blockPoints info b)
    (hknown : ∀ e ∈ es, e.2 ≠ [] → ∃ b ∈ M.blocks, b.id = e.1 ∧ b.id ∈ LI.blocksOf l)
    (lab : Block → Option Mode) (hlab : ∀ b ∈ M.blocks, b.id ∈ LI.blocksOf l → lab b = scanLabel info b)
    {st : SplitState} {ch₀ : BlockId → Chain} (hch₀ : ∀ b ∈ M.blocks, ch₀ b.id = untouched b (lab b))
    (h : Chains M LI st ch₀) : ∃ ch, Chains M LI (es.foldl splitEntry st) ch ∧
      ∀ b ∈ M.blocks, (b.id ∉ LI.blocksOf l ∨ b.id ∉ es.map Prod.fst → ch b.id = untouched b (lab b)) ∧
        (b.id ∈ LI.blocksOf l → b.id ∈ es.map Prod.fst → ChainDone info b (ch b.id)) := by
  refine Lib.foldl_run (f := splitEntry) (P := fun pre st => ∃ ch, Chains M LI st ch ∧
    ∀ b ∈ M.blocks, (b.id ∉ LI.blocksOf l ∨ b.id ∉ pre.map Prod.fst → ch b.id = untouched b (lab b)) ∧
      (b.id ∈ LI.blocksOf l → b.id ∈ pre.map Prod.fst → ChainDone info b (ch b.id))) es ?_
    ⟨ch₀, h, fun b hb => ⟨fun _ => hch₀ b hb, fun _ hm => absurd hm List.not_mem_nil⟩⟩
  rintro pre ⟨n, pts⟩ post s hsplit ⟨ch, hch, hinv⟩
  have hmem : (n, pts) ∈ es := hsplit ▸ List.mem_append_right _ (List.mem_cons_self ..)
  have hnew : n ∉ pre.map Prod.fst := by
    rw [hsplit, List.map_append, List.map_cons, List.nodup_append] at hnd
    exact fun hn => hnd.2.2 n hn n (List.mem_cons_self ..) rfl
  have hkeys : ∀ m, m ∈ (pre ++ [(n, pts)]).map Prod.fst ↔ m ∈ pre.map Prod.fst ∨ m = n := by
    intro m
    rw [List.map_append, List.mem_append, List.map_singleton, List.mem_singleton]
  cases pts with
  | nil =>
    -- an entry without points changes nothing
    refine ⟨ch, hch, fun b hb => ⟨fun hno => (hinv b hb).1 ?_, fun hbl hk => ?_⟩⟩
    · rw [hkeys] at hno
      exact hno.imp_right fun hno hk => hno (.inl hk)
    · rcases (hkeys b.id).mp hk with hk | hk
      · exact (hinv b hb).2 hbl hk
      · rw [(hinv b hb).1 (.inr (hk ▸ hnew)), hlab b hb hbl]
        exact untouched_done (hshapes b hb hbl) (hown b hb hbl _ hmem hk.symm).symm
  | cons p pts =>
    obtain ⟨b, hb, hbn, hbl⟩ := hknown _ hmem (List.cons_ne_nil p pts)
    obtain rfl : b.id = n := hbn
    have hshape := hshapes b hb hbl
    obtain ⟨first, rest, hseg⟩ := segments_exist info hshape
    have hpts : p :: pts = rest.map Prod.fst := (hown b hb hbl _ hmem rfl).trans hseg.points
    have hun := (hinv b hb).1 (.inr hnew)
    obtain ⟨tail, ht⟩ := splitEntry_chains rest hch hb (by rw [hun]; exact hseg.concat.symm)
      fun pre q post he => hseg.cutsAt hshape he
    rw [← hpts, hun] at ht
    refine ⟨_, ht, fun b' hb' => ?_⟩
    by_cases hid : b'.id = b.id
    · obtain rfl := List.inj_on_of_nodup_map hl.ids.blocks_nodup hb' hb hid
      rw [Function.update_self]
      refine ⟨fun hno => ?_, fun _ _ => ⟨?_, ?_⟩⟩
      · rw [hkeys] at hno
        exact (hno.elim (fun h => h hbl) fun h => h (.inr rfl)).elim
      · rw [untouched, List.append_nil]
        exact hseg
      · cases rest with
        | nil => cases hpts
        | cons q rest =>
          rw [untouched, hlab b' hb' hbl]
          exact done_label (hseg.points)
    · rw [Function.update_of_ne hid]
      refine ⟨fun hno => (hinv b' hb').1 ?_, fun hbl' hk => ?_⟩
      · rw [hkeys] at hno
        exact hno.imp_right fun hno hk => hno (.inl hk)
      · rcases (hkeys b'.id).mp hk with hk | hk
        · exact (hinv b' hb').2 hbl' hk
        · exact absurd hk hid

/- Before the first split every block is a chain of its own. -/
def initialChain (M : Module) (modes : BlockModeMapTy) (n : BlockId) : Chain :=
  ⟨[], ((M.block? n).map Block.insts).getD [], [], modes.lookup n⟩

theorem initialChain_eq (hM : M.Ids) (modes : BlockModeMapTy) {b : Block} (hb : b ∈ M.blocks) :
    initialChain M modes b.id = untouched b (modes.lookup b.id) := by
  rw [initialChain, block?_mem hM hb]
  rfl

theorem initialChain_chains (hl : LoopReady M LI l) {modes : BlockModeMapTy}
    (hkeys : ∀ c ∈ modes, c < M.nextId) : Chains M LI ⟨M, LI, modes⟩ (initialChain M modes) := by
  refine ⟨hl.ids, hl.loops, rfl, hl.blocks_lt, hkeys, hl.ids.blocks_nodup, fun b hb => ?_, ?_⟩
  · rw [initialChain_eq hl.ids modes hb]
    refine ⟨⟨b, hb, rfl, rfl⟩, fun c hc l' _ => ?_, .nil, rfl⟩
    rw [List.mem_singleton.mp hc]
  · rw [List.map_eq_flatMap]
    exact .refl _

/- The points and labels of `FindPartitionPoints`, block by block. -/
structure Found (info : IteratorInfo) (M : Module) (loopBlocks : List BlockId)
    (found : BlockModeMapTy × ModeChangePointMap) : Prop where
  keys : (found.2.map Prod.fst).Nodup
  points : ∀ b ∈ M.region loopBlocks, (found.2.lookup b.id).getD [] = blockPoints info b
  modes : ∀ b ∈ M.region loopBlocks, found.1.lookup b.id = scanLabel info b
  noPoints : ∀ n, n ∉ (M.region loopBlocks).map Block.id → (found.2.lookup n).getD [] = []
  noModes : ∀ n, n ∉ (M.region loopBlocks).map Block.id → found.1.lookup n = none

theorem findPartitionPoints_found {loopBlocks : List BlockId} (hnd : ((M.region loopBlocks).map Block.id).Nodup)
    {found : BlockModeMapTy × ModeChangePointMap} (h : findPartitionPoints M loopBlocks info ∅ [] = some found) :
    Found info M loopBlocks found := by
  obtain ⟨-, rfl⟩ := findPartitionPoints_some h
  obtain ⟨hkeys, hin, hout⟩ := findPoints_lookup info _ hnd (∅, []) List.nodup_nil
  obtain ⟨hmodes, hnomodes⟩ := findModes_lookup info _ hnd (∅, []) fun _ _ => AList.lookup_empty _
  exact ⟨hkeys, hin, hmodes, hout, fun n hn => (hnomodes n hn).trans (AList.lookup_empty n)⟩

/- Each block of the loop is the chain of its pieces, each other block is as it was. -/
theorem separate_chains {addr : BlockId → Nat} (hl : LoopReady M LI l) {st : SplitState}
    (hst : separate info addr M LI l = some st) : ∃ ch, Chains M LI st ch ∧ ∀ b ∈ M.blocks,
      (b.id ∈ LI.blocksOf l → ChainDone info b (ch b.id)) ∧
      (b.id ∉ LI.blocksOf l → ch b.id = untouched b none) := by
  have hshapes : ∀ b ∈ M.blocks, b.id ∈ LI.blocksOf l → b.Shape := fun b hb hbl => hl.shape info hst hb hbl
  have hnd : ((M.region (LI.blocksOf l)).map Block.id).Nodup :=
    (region_ids_sublist M _).nodup (hl.loops.blocks_nodup l hl.loop)
  obtain ⟨found, hfind, rfl⟩ := Option.map_eq_some_iff.mp hst
  have hfound := findPartitionPoints_found hnd hfind
  unfold splitAtPartitionPoints
  have hnot : ∀ n, n ∉ LI.blocksOf l → n ∉ (M.region (LI.blocksOf l)).map Block.id :=
    fun n hn hm => hn ((region_ids_sublist M _).subset hm)
  have hstart : Chains M LI ⟨M, LI, found.1⟩ (initialChain M found.1) := by
    refine initialChain_chains hl fun c hc => ?_
    by_contra hlt
    have hnone := hfound.noModes c (hnot c fun hm => hlt (hl.blocks_lt l hl.loop c hm))
    exact AList.lookup_eq_none.mp hnone hc
  -- the entries of the map, in the order they are walked in
  have hperm := List.perm_insertionSort (fun x y : BlockId × List ModeChangePoint =>
    addr x.1 ≤ addr y.1) found.2
  have hkeys' := ((hperm.map Prod.fst).nodup_iff).mpr hfound.keys
  have hentry : ∀ e ∈ found.2.insertionSort fun x y => addr x.1 ≤ addr y.1,
      found.2.lookup e.1 = some e.2 := fun e he => lookup_of_mem hfound.keys (hperm.mem_iff.mp he)
  have hown : ∀ b ∈ M.blocks, b.id ∈ LI.blocksOf l →
      ∀ e ∈ found.2.insertionSort fun x y => addr x.1 ≤ addr y.1, e.1 = b.id → e.2 = blockPoints info b := by
    intro b hb hbl e he hid
    have hpts := hfound.points b ((mem_region hl.ids).mpr ⟨hb, hbl⟩)
    rw [← hid, hentry e he] at hpts
    exact hpts
  have hknown : ∀ e ∈ found.2.insertionSort fun x y => addr x.1 ≤ addr y.1, e.2 ≠ [] →
      ∃ b ∈ M.blocks, b.id = e.1 ∧ b.id ∈ LI.blocksOf l := by
    intro e he hne
    by_contra hno
    have hpts := hfound.noPoints e.1 fun hm => by
      obtain ⟨b, hb, hid⟩ := List.mem_map.mp hm
      obtain ⟨h1, h2⟩ := (mem_region hl.ids).mp hb
      exact hno ⟨b, h1, hid, h2⟩
    rw [hentry e he] at hpts
    exact hne hpts
  have hlab : ∀ b ∈ M.blocks, b.id ∈ LI.blocksOf l → found.1.lookup b.id = scanLabel info b :=
    fun b hb hbl => hfound.modes b ((mem_region hl.ids).mpr ⟨hb, hbl⟩)
  obtain ⟨ch, hch, hinv⟩ := splitEntries_chains hl hshapes hkeys' hown hknown (fun b => found.1.lookup b.id) hlab
    (fun _ hb => initialChain_eq hl.ids found.1 hb) hstart
  refine ⟨ch, hch, fun b hb => ⟨fun hbl => ?_, fun hbl => ?_⟩⟩
  · by_cases hk : b.id ∈ (found.2.insertionSort fun x y => addr x.1 ≤ addr y.1).map Prod.fst
    · exact (hinv b hb).2 hbl hk
    · have hnone : found.2.lookup b.id = none := by
        refine List.lookup_eq_none_iff.mpr fun p hp => ?_
        have hne : b.id ≠ p.1 := fun he => hk (he ▸ List.mem_map_of_mem (hperm.mem_iff.mpr hp))
        simpa using hne
      have hpts := hfound.points b ((mem_region hl.ids).mpr ⟨hb, hbl⟩)
      rw [hnone] at hpts
      rw [(hinv b hb).1 (.inr hk), hlab b hb hbl]
      exact untouched_done (hshapes b hb hbl) hpts.symm
  · rw [(hinv b hb).1 (.inl hbl), hfound.noModes b.id (hnot b.id hbl)]

end Loop

end Atrox
