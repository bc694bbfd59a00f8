import Atrox.IR.Loops

/-!
# Natural loops of a module

Edges, latches and the nest of loops that `LoopInfo` describes. A predecessor is
listed once for each of its edges, as `pred_begin` does.
-/

namespace Atrox.IR

namespace Module

/-- `succ_begin(BB)`, for the block of a number. -/
def succsOf (M : Module) (b : BlockId) : List BlockId := ((M.block? b).map Block.succs).getD []

/-- `pred_begin(BB)`: a block stands in it as often as it has an edge to `b`. -/
def predsOf (M : Module) (b : BlockId) : List BlockId :=
  M.blocks.flatMap fun p => (p.succs.filter fun s => s = b).map fun _ => p.id

theorem mem_predsOf {M : Module} {b p : BlockId} : p ∈ M.predsOf b ↔ ∃ x ∈ M.blocks, x.id = p ∧ b ∈ x.succs := by
  rw [predsOf, List.mem_flatMap]
  constructor
  · rintro ⟨x, hx, hm⟩
    obtain ⟨s, hs, rfl⟩ := List.mem_map.mp hm
    obtain ⟨h1, h2⟩ := List.mem_filter.mp hs
    simp only [decide_eq_true_eq] at h2
    exact ⟨x, hx, rfl, h2 ▸ h1⟩
  · rintro ⟨x, hx, rfl, hb⟩
    exact ⟨x, hx, List.mem_map.mpr ⟨b, List.mem_filter.mpr ⟨hb, by simp⟩, rfl⟩⟩

/-- Control can get to the block. -/
inductive Reached (M : Module) : BlockId → Prop where
  | entry {b : BlockId} : M.isEntryBlock b = true → M.Reached b
  | succ {x : Block} {s : BlockId} : x ∈ M.blocks → M.Reached x.id → s ∈ x.succs → M.Reached s

end Module

namespace LoopInfo

/-- `getHeader`. -/
def headerOf (LI : LoopInfo) (l : LoopId) : Option BlockId := (LI.loops[l]?).map Loop.header

def parentOf (LI : LoopInfo) (l : LoopId) : Option LoopId := (LI.loops[l]?).bind Loop.parent

/-- `getLoopLatches`: the predecessors of the header that the loop contains. -/
def getLoopLatches (LI : LoopInfo) (M : Module) (l : LoopId) : List BlockId :=
  match LI.headerOf l with
  | none => []
  | some h => (M.predsOf h).filter fun p => p ∈ LI.blocksOf l

/-- `getLoopLatch`: null unless there is exactly one edge back to the header. -/
def getLoopLatch (LI : LoopInfo) (M : Module) (l : LoopId) : Option BlockId :=
  match LI.getLoopLatches M l with
  | [p] => some p
  | _ => none

/-- `isLoopLatch` of a block of the loop. -/
def isLoopLatch (LI : LoopInfo) (M : Module) (l : LoopId) (b : BlockId) : Bool :=
  match LI.headerOf l with
  | none => false
  | some h => b ∈ M.predsOf h

/-- `m` is nested in `l`, at any depth. -/
def Inner (LI : LoopInfo) (l m : LoopId) : Prop := m ≠ l ∧ l ∈ LI.enclosing m

/-- Control gets to the block, or some loop holds it (which comes to the same in LLVM). -/
def Live (LI : LoopInfo) (M : Module) (b : BlockId) : Prop := M.Reached b ∨ (LI.bbMap b).isSome = true

/-- Loops as LLVM finds them: a forest in preorder, one header each, and no way
into a loop but through its header. Blocks that control cannot get to may branch
anywhere. -/
structure Natural (LI : LoopInfo) (M : Module) : Prop extends LI.WF where
  parent_lt : ∀ m p, LI.parentOf m = some p → p < m
  bbMap_lt : ∀ b m, LI.bbMap b = some m → m < LI.loops.length
  header : ∀ m h, LI.headerOf m = some h → LI.bbMap h = some m
  entry : ∀ m < LI.loops.length, ∀ x ∈ M.blocks, LI.Live M x.id → ∀ y ∈ x.succs, y ∈ LI.blocksOf m →
    x.id ∉ LI.blocksOf m → LI.headerOf m = some y

theorem ancestors_fuel {ls : List Loop} (hlt : ∀ m p, (ls[m]?).bind Loop.parent = some p → p < m) {n k : Nat}
    {m : LoopId} (hn : n > m) (hk : k > m) : ancestors ls n m = ancestors ls k m := by
  induction n generalizing m k with
  | zero => exact absurd hn (Nat.not_lt_zero m)
  | succ n ih =>
    cases k with
    | zero => exact absurd hk (Nat.not_lt_zero m)
    | succ k =>
      simp only [ancestors]
      cases hp : (ls[m]?).bind Loop.parent with
      | none => rfl
      | some p =>
        have hpm := hlt m p hp
        have h1 : n > p := Nat.lt_of_lt_of_le hpm (Nat.le_of_lt_succ hn)
        have h2 : k > p := Nat.lt_of_lt_of_le hpm (Nat.le_of_lt_succ hk)
        simp only [ih h1 h2]

section Natural
variable {LI : LoopInfo} {M : Module} (hLI : LI.Natural M)
include hLI

theorem enclosing_cons {m : LoopId} (hm : m < LI.loops.length) :
    LI.enclosing m = m :: match LI.parentOf m with
      | none => []
      | some p => LI.enclosing p := by
  obtain ⟨n, hn⟩ := Nat.exists_eq_succ_of_ne_zero (Nat.ne_zero_of_lt hm)
  have hpar : (LI.loops[m]?).bind Loop.parent = LI.parentOf m := rfl
  rw [enclosing, hn, ancestors, hpar]
  cases hp : LI.parentOf m with
  | none => rfl
  | some p =>
    have hpm := hLI.parent_lt m p hp
    have h1 : n > p := Nat.lt_of_lt_of_le hpm (Nat.le_of_lt_succ (hn ▸ hm))
    have h2 : LI.loops.length > p := Nat.lt_trans hpm hm
    simp only [enclosing]
    rw [ancestors_fuel (fun a b hab => hLI.parent_lt a b hab) h1 h2]

theorem self_enclosing {m : LoopId} (hm : m < LI.loops.length) : m ∈ LI.enclosing m := by
  rw [enclosing_cons hLI hm]
  exact List.mem_cons_self ..

/- The loops around an enclosing loop are the last of those around the loop. -/
theorem enclosing_suffix {m l : LoopId} (hm : m < LI.loops.length) (h : l ∈ LI.enclosing m) :
    l < LI.loops.length ∧ ∃ pre, LI.enclosing m = pre ++ LI.enclosing l ∧ (m ≠ l → pre ≠ []) := by
  induction m using Nat.strongRecOn with
  | ind m ih =>
    have hcons := enclosing_cons hLI hm
    rw [hcons] at h
    rcases List.mem_cons.mp h with rfl | h
    · exact ⟨hm, [], rfl, fun hne => absurd rfl hne⟩
    · cases hp : LI.parentOf m with
      | none =>
        rw [hp] at h
        exact absurd h List.not_mem_nil
      | some p =>
        rw [hp] at h hcons
        have hpm := hLI.parent_lt m p hp
        obtain ⟨hl, pre, hpre, -⟩ := ih p hpm (Nat.lt_trans hpm hm) h
        have hcons' : LI.enclosing m = m :: LI.enclosing p := hcons
        exact ⟨hl, m :: pre, by rw [hcons', hpre, List.cons_append], fun _ => List.cons_ne_nil m pre⟩

theorem enclosing_trans {k m l : LoopId} (hk : k < LI.loops.length) (hm : m ∈ LI.enclosing k)
    (hl : l ∈ LI.enclosing m) : l ∈ LI.enclosing k := by
  obtain ⟨-, pre, hpre, -⟩ := enclosing_suffix hLI hk hm
  rw [hpre]
  exact List.mem_append_right _ hl

/- A nested loop is deeper. -/
theorem depth_lt {m l : LoopId} (hm : m < LI.loops.length) (h : LI.Inner l m) :
    (LI.enclosing l).length < (LI.enclosing m).length := by
  obtain ⟨-, pre, hpre, hne⟩ := enclosing_suffix hLI hm h.2
  have hpos := List.length_pos_iff.mpr (hne h.1)
  rw [hpre, List.length_append]
  omega

/- Two loops that enclose each other are one. -/
theorem enclosing_antisymm {m l : LoopId} (hm : m < LI.loops.length) (h : l ∈ LI.enclosing m)
    (h' : m ∈ LI.enclosing l) : m = l := by
  by_contra hne
  have h1 := depth_lt hLI hm ⟨hne, h⟩
  have h2 := depth_lt hLI (enclosing_suffix hLI hm h).1 ⟨fun he => hne he.symm, h'⟩
  omega

theorem blocksOf_sub {m l : LoopId} (hm : m < LI.loops.length) (h : l ∈ LI.enclosing m) {b : BlockId}
    (hb : b ∈ LI.blocksOf m) : b ∈ LI.blocksOf l := by
  obtain ⟨k, hk, hmk⟩ := (hLI.mem_blocksOf m hm b).mp hb
  have hlt := hLI.bbMap_lt b k hk
  exact (hLI.mem_blocksOf l (enclosing_suffix hLI hm h).1 b).mpr ⟨k, hk, enclosing_trans hLI hlt hmk h⟩

theorem live_of_mem {m : LoopId} (hm : m < LI.loops.length) {b : BlockId} (hb : b ∈ LI.blocksOf m) : LI.Live M b := by
  obtain ⟨k, hk, -⟩ := (hLI.mem_blocksOf m hm b).mp hb
  exact .inr (hk ▸ rfl)

omit hLI in
theorem headerOf_some {m : LoopId} (hm : m < LI.loops.length) : ∃ h, LI.headerOf m = some h := by
  rw [headerOf, List.getElem?_eq_getElem hm]
  exact ⟨_, rfl⟩

theorem header_mem {m : LoopId} {h : BlockId} (hh : LI.headerOf m = some h) : m < LI.loops.length ∧ h ∈ LI.blocksOf m := by
  have hb := hLI.header m h hh
  have hm := hLI.bbMap_lt h m hb
  exact ⟨hm, (hLI.mem_blocksOf m hm h).mpr ⟨m, hb, self_enclosing hLI hm⟩⟩

omit hLI in
/- `isLoopHeader`, by the header of the innermost loop. -/
theorem isLoopHeader_iff {b : BlockId} : LI.isLoopHeader b = true ↔ ∃ m, LI.bbMap b = some m ∧ LI.headerOf m = some b := by
  unfold isLoopHeader getLoopFor
  cases hb : LI.bbMap b with
  | none => simp
  | some m => simp [headerOf]

/- A loop that holds the header of another encloses it. -/
theorem enclosing_of_header {m k : LoopId} (hk : k < LI.loops.length) {h : BlockId} (hh : LI.headerOf m = some h)
    (hm : h ∈ LI.blocksOf k) : k ∈ LI.enclosing m := by
  obtain ⟨m', hm', hkm⟩ := (hLI.mem_blocksOf k hk h).mp hm
  rw [hLI.header m h hh] at hm'
  exact Option.some.inj hm' ▸ hkm

/- Of two loops that share a block one encloses the other. -/
theorem nested_of_shared {k m : LoopId} (hk : k < LI.loops.length) (hm : m < LI.loops.length) {b : BlockId}
    (hbk : b ∈ LI.blocksOf k) (hbm : b ∈ LI.blocksOf m) : k ∈ LI.enclosing m ∨ m ∈ LI.enclosing k := by
  obtain ⟨n, hn, hkn⟩ := (hLI.mem_blocksOf k hk b).mp hbk
  obtain ⟨n', hn', hmn⟩ := (hLI.mem_blocksOf m hm b).mp hbm
  obtain rfl := Option.some.inj (hn.symm.trans hn')
  have hlt := hLI.bbMap_lt b n hn
  obtain ⟨-, pre, hpre, -⟩ := enclosing_suffix hLI hlt hkn
  obtain ⟨-, pre', hpre', -⟩ := enclosing_suffix hLI hlt hmn
  rcases List.suffix_or_suffix_of_suffix ⟨pre, hpre.symm⟩ ⟨pre', hpre'.symm⟩ with h | h
  · exact .inl (h.subset (self_enclosing hLI hk))
  · exact .inr (h.subset (self_enclosing hLI hm))

end Natural

/- Natural loops whose innermost-loop map is a finite table. -/
theorem natural_of_lookup {M : Module} {loops : List Loop} {table : List (BlockId × LoopId)}
    (hparent : ∀ m < loops.length, ∀ p ∈ (((loops[m]?).bind Loop.parent).toList), p < m)
    (htable : ∀ e ∈ table, e.2 < loops.length ∧ ∀ l < loops.length, l ∈ ancestors loops loops.length e.2 →
      e.1 ∈ (((loops[l]?).map Loop.blocks).getD []))
    (hblocks : ∀ l < loops.length, ∀ b ∈ (((loops[l]?).map Loop.blocks).getD []),
      ∃ m ∈ (table.lookup b).toList, l ∈ ancestors loops loops.length m)
    (hnodup : ∀ l < loops.length, (((loops[l]?).map Loop.blocks).getD []).Nodup)
    (hheader : ∀ m < loops.length, ∀ h ∈ (((loops[m]?).map Loop.header).toList), table.lookup h = some m)
    (hentry : ∀ m < loops.length, ∀ x ∈ M.blocks, ∀ y ∈ x.succs, y ∈ (((loops[m]?).map Loop.blocks).getD []) →
      x.id ∉ (((loops[m]?).map Loop.blocks).getD []) → (loops[m]?).map Loop.header = some y) :
    LoopInfo.Natural ⟨loops, fun b => table.lookup b⟩ M := by
  have hlt : ∀ {β : Type} (m : LoopId) (f : Loop → Option β) (x : β), (loops[m]?).bind f = some x → m < loops.length := by
    intro β m f x hx
    obtain ⟨L, hL, -⟩ := Option.bind_eq_some_iff.mp hx
    exact (List.getElem?_eq_some_iff.mp hL).1
  have hmem : ∀ b m, table.lookup b = some m → (b, m) ∈ table := by
    intro b m h
    obtain ⟨pre, post, he, -⟩ := List.lookup_eq_some_iff.mp h
    rw [he]
    simp
  constructor
  · constructor
    · intro l hl b
      constructor
      · intro hb
        obtain ⟨m, hm, hlm⟩ := hblocks l hl b hb
        exact ⟨m, Option.mem_toList.mp hm, hlm⟩
      · rintro ⟨m, hm, hlm⟩
        exact (htable (b, m) (hmem b m hm)).2 l hl hlm
    · exact hnodup
  · intro m p hp
    exact hparent m (hlt m _ _ hp) p (Option.mem_toList.mpr hp)
  · intro b m hm
    exact (htable (b, m) (hmem b m hm)).1
  · intro m h hh
    have hm : m < loops.length := by
      obtain ⟨L, hL, -⟩ := Option.map_eq_some_iff.mp hh
      exact (List.getElem?_eq_some_iff.mp hL).1
    exact hheader m hm h (Option.mem_toList.mpr hh)
  · exact fun m hm x hx _ => hentry m hm x hx

end LoopInfo

end Atrox.IR
