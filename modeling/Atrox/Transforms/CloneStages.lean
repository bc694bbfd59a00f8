import Atrox.Lib.Folds
import Atrox.Transforms.CloneRegion

/-!
# The module while a region is cloned

Between two steps of `cloneCodeRegion` the module is the one before, with the clones
at the end of the old function and the new function at the end of the list.
-/

namespace Atrox
open IR Lib

/-- The module `M` with the clones `cs` in the function `f` and the new function `nf`. -/
def staged (M : Module) (f : FuncId) (cs : List Block) (nf : Function) (n : Nat) : Module :=
  { M with funcs := (appendBlocks M f cs).funcs ++ [nf], nextId := n }

/-- The module `M` with the new function alone. -/
def extended (M : Module) (nf : Function) (n : Nat) : Module :=
  { M with funcs := M.funcs ++ [nf], nextId := n }

/- Numbers below `base` are old; `cl` are the clones. -/
structure Apart (M : Module) (base : Nat) (cl : List BlockId) (nf : Function) : Prop where
  old_lt : ∀ b ∈ M.blocks, b.id < base
  clones_ge : ∀ n ∈ cl, base ≤ n
  clones_lt : ∀ n ∈ cl, 2 * base > n
  new_ge : ∀ b ∈ nf.blocks, 2 * base ≤ b.id

theorem mapBlocks_self (f : Function) (g : Block → Block) (h : ∀ b ∈ f.blocks, g b = b) :
    f.mapBlocks g = f := by
  have hmap : f.blocks.map g = f.blocks := by
    conv_rhs => rw [← List.map_id f.blocks]
    exact List.map_congr_left h
  rw [Function.mapBlocks, hmap]

theorem mem_blocks_of_func {M : Module} {f : Function} (hf : f ∈ M.funcs) {b : Block}
    (hb : b ∈ f.blocks) : b ∈ M.blocks :=
  List.mem_flatMap.mpr ⟨f, hf, hb⟩

/- A rewriting of the blocks that leaves old blocks alone reaches the appended ones. -/
theorem appendBlocks_mapBlocks {M : Module} (f : FuncId) (cs : List Block) (g : Block → Block)
    (h : ∀ b ∈ M.blocks, g b = b) :
    (appendBlocks M f cs).funcs.map (Function.mapBlocks g) = (appendBlocks M f (cs.map g)).funcs := by
  rw [appendBlocks, appendBlocks, List.map_map]
  apply List.map_congr_left
  intro k hk
  have hself := mapBlocks_self k g fun b hb => h b (mem_blocks_of_func hk hb)
  have hblocks : k.blocks.map g = k.blocks := congrArg Function.blocks hself
  simp only [Function.comp_apply]
  split
  · simp only [Function.mapBlocks, List.map_append, hblocks]
  · exact hself

section Staged
variable {M : Module} {base : Nat} {cl : List BlockId} {nf : Function} (f : FuncId)
  (cs : List Block) (n : Nat)

theorem staged_mapBlocks (g : Block → Block) (h : ∀ b ∈ M.blocks, g b = b) :
    (staged M f cs nf n).mapBlocks g = staged M f (cs.map g) (nf.mapBlocks g) n := by
  rw [staged, staged, Module.mapBlocks, List.map_append, appendBlocks_mapBlocks f cs g h]
  rfl

theorem staged_mapIn_clones (hA : Apart M base cl nf) (hcs : ∀ c ∈ cs, c.id ∈ cl)
    (g : Block → Block) :
    (staged M f cs nf n).mapIn cl g = staged M f (cs.map g) nf n := by
  rw [Module.mapIn, staged_mapBlocks]
  · congr 1
    · apply List.map_congr_left
      intro c hc
      rw [if_pos (hcs c hc)]
    · apply mapBlocks_self
      intro b hb
      rw [if_neg]
      intro hm
      have h1 := hA.clones_lt b.id hm
      have h2 := hA.new_ge b hb
      omega
  · intro b hb
    rw [if_neg]
    intro hm
    have h1 := hA.clones_ge b.id hm
    have h2 := hA.old_lt b hb
    omega

theorem staged_mapIn_new (hA : Apart M base cl nf) (hcs : ∀ c ∈ cs, c.id ∈ cl) {r : BlockId}
    (hr : 2 * base ≤ r) (g : Block → Block) :
    (staged M f cs nf n).mapIn [r] g =
      staged M f cs (nf.mapBlocks fun b => if b.id = r then g b else b) n := by
  rw [Module.mapIn]
  simp only [List.mem_singleton]
  rw [staged_mapBlocks]
  · congr 1
    conv_rhs => rw [← List.map_id cs]
    apply List.map_congr_left
    intro c hc
    rw [if_neg, id]
    intro he
    have h1 := hA.clones_lt c.id (hcs c hc)
    omega
  · intro b hb
    rw [if_neg]
    intro he
    have h2 := hA.old_lt b hb
    omega

theorem staged_blocks_perm (nf : Function) (hM : M.WF) (hf : f ∈ M.funcs.map Function.id) :
    List.Perm (staged M f cs nf n).blocks (M.blocks ++ cs ++ nf.blocks) := by
  have key : ∀ fs : List Function, (fs.map Function.id).Nodup → f ∈ fs.map Function.id →
      List.Perm ((fs.map fun g => if g.id = f then { g with blocks := g.blocks ++ cs } else g).flatMap
        Function.blocks) (fs.flatMap Function.blocks ++ cs) := by
    intro fs
    induction fs with
    | nil => intro _ h; cases h
    | cons g fs ih =>
      intro hnd hm
      simp only [List.map_cons, List.nodup_cons] at hnd
      simp only [List.map_cons, List.flatMap_cons]
      by_cases hg : g.id = f
      · have hrest : (fs.map fun g => if g.id = f then { g with blocks := g.blocks ++ cs } else g) =
            fs := by
          conv_rhs => rw [← List.map_id fs]
          apply List.map_congr_left
          intro k hk
          rw [if_neg, id]
          intro he
          exact hnd.1 (hg.trans he.symm ▸ List.mem_map_of_mem hk)
        rw [if_pos hg, hrest, List.append_assoc, List.append_assoc]
        exact List.perm_append_comm.append_left _
      · rw [if_neg hg, List.append_assoc]
        have hm' : f ∈ fs.map Function.id := by
          rcases List.mem_cons.mp hm with he | hm
          · exact absurd he.symm hg
          · exact hm
        exact (ih hnd.2 hm').append_left _
  have hperm := key M.funcs hM.funcs_nodup hf
  simp only [staged, appendBlocks, Module.blocks, List.flatMap_append, List.flatMap_cons,
    List.flatMap_nil, List.append_nil]
  exact hperm.append_right _

/- The clones are found by their numbers. -/
theorem staged_region (hM : M.WF) (hA : Apart M base cl nf) (hf : f ∈ M.funcs.map Function.id)
    (hids : cs.map Block.id = cl) (hcl : cl.Nodup) (hnf : (nf.blocks.map Block.id).Nodup) :
    (staged M f cs nf n).region cl = cs := by
  have hperm := (staged_blocks_perm f cs n nf hM hf).map Block.id
  have hnd : ((staged M f cs nf n).blocks.map Block.id).Nodup := by
    rw [hperm.nodup_iff, List.map_append, List.map_append, hids]
    refine List.Nodup.append (List.Nodup.append hM.blocks_nodup hcl ?_) hnf ?_
    · intro x hx hx'
      obtain ⟨b, hb, rfl⟩ := List.mem_map.mp hx
      have h1 := hA.old_lt b hb
      have h2 := hA.clones_ge b.id hx'
      omega
    · intro x hx hx'
      obtain ⟨b, hb, rfl⟩ := List.mem_map.mp hx'
      have h1 := hA.new_ge b hb
      rcases List.mem_append.mp hx with hx | hx
      · obtain ⟨c, hc, he⟩ := List.mem_map.mp hx
        have h2 := hA.old_lt c hc
        omega
      · have h2 := hA.clones_lt _ hx
        omega
  have hfind : ∀ c ∈ cs, (staged M f cs nf n).block? c.id = some c := by
    intro c hc
    refine block?_of_nodup hnd ?_
    rw [(staged_blocks_perm f cs n nf hM hf).mem_iff]
    simp [hc]
  rw [Module.region, ← hids, List.filterMap_map]
  conv_rhs => rw [← List.filterMap_some (l := cs)]
  exact List.filterMap_congr hfind

theorem staged_push (nf : Function) (hnew : ∀ g ∈ M.funcs, g.id ≠ nf.id) (b : Block) :
    pushBlock (staged M f cs nf n) nf.id b = staged M f cs { nf with blocks := nf.blocks ++ [b] } n := by
  simp only [pushBlock, staged, appendBlocks, List.map_append, List.map_map, List.map_cons,
    List.map_nil, if_true, Module.mk.injEq, and_true]
  congr 1
  apply List.map_congr_left
  intro g hg
  have hne := hnew g hg
  simp only [Function.comp_apply]
  by_cases hgf : g.id = f
  · have hne' : ({ g with blocks := g.blocks ++ cs } : Function).id ≠ nf.id := hne
    rw [if_pos hgf, if_neg hne']
  · rw [if_neg hgf, if_neg hne]

/- Moving takes the clones out of the old function again. -/
theorem staged_move (hM : M.WF) (hA : Apart M base cl nf) (hf : f ∈ M.funcs.map Function.id)
    (hids : cs.map Block.id = cl) (hcl : cl.Nodup) (hnf : (nf.blocks.map Block.id).Nodup)
    (hnew : ∀ g ∈ M.funcs, g.id ≠ nf.id) :
    moveBlocksToFunction (staged M f cs nf n) cl f nf.id =
      extended M { nf with blocks := nf.blocks ++ cs } n := by
  have hreg := staged_region f cs n hM hA hf hids hcl hnf
  have hcs : cs.filter (fun b => b.id ∉ cl) = [] := by
    rw [List.filter_eq_nil_iff]
    intro c hc
    simp [← hids, List.mem_map_of_mem hc]
  have hold : M.funcs.map (fun g =>
      if (if g.id = f then { g with blocks := g.blocks ++ cs } else g).id = nf.id then
        { (if g.id = f then { g with blocks := g.blocks ++ cs } else g) with
          blocks := (if g.id = f then { g with blocks := g.blocks ++ cs } else g).blocks ++ cs }
      else if (if g.id = f then { g with blocks := g.blocks ++ cs } else g).id = f then
        { (if g.id = f then { g with blocks := g.blocks ++ cs } else g) with
          blocks := (if g.id = f then { g with blocks := g.blocks ++ cs } else g).blocks.filter
            fun b => b.id ∉ cl }
      else (if g.id = f then { g with blocks := g.blocks ++ cs } else g)) = M.funcs := by
    conv_rhs => rw [← List.map_id M.funcs]
    apply List.map_congr_left
    intro g hg
    have hne := hnew g hg
    by_cases hgf : g.id = f
    · have hkeep : g.blocks.filter (fun b => b.id ∉ cl) = g.blocks := by
        rw [List.filter_eq_self]
        intro b hb
        have h1 := hA.old_lt b (mem_blocks_of_func hg hb)
        simp only [decide_eq_true_eq]
        intro hm
        have h2 := hA.clones_ge b.id hm
        omega
      have hne' : f ≠ nf.id := hgf ▸ hne
      simp only [hgf, if_true, if_neg hne', List.filter_append, hkeep, hcs, List.append_nil, id]
      rw [← hgf]
    · simp only [if_neg hgf, if_neg hne, id]
  simp only [moveBlocksToFunction, hreg]
  simp only [staged, extended, appendBlocks, List.map_append, List.map_map, List.map_cons,
    List.map_nil, if_true, Module.mk.injEq, and_true]
  congr 1

end Staged

end Atrox
