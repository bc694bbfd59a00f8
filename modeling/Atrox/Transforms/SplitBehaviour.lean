import Mathlib.Logic.Relation
import Atrox.IR.Behaviour
import Atrox.Transforms.BlockSeparatorPass
import Atrox.Transforms.RegionCut
import Atrox.Transforms.SplitTree

/-!
# Splits keep the behaviour

Control runs through the two halves of a split block the way it ran through the block. So the
separation pass and the split of returns change nothing that shows.
-/

namespace Atrox
open IR Lib

/- What the LLVM verifier promises of the blocks of `B`: they lead to each other, a PHI has an edge from
every block that leads to it and from no other, with a value for each, PHIs stand in front and terminators
behind. -/
structure ValidOn (M : Module) (B : BlockId → Prop) : Prop where
  exist : ∀ n, B n → ∃ x ∈ M.blocks, x.id = n
  succ : ∀ x ∈ M.blocks, B x.id → ∀ s ∈ x.succs, B s
  phi : ∀ x ∈ M.blocks, B x.id → ∀ i ∈ x.insts, i.isPHI = true → ∀ p,
    p ∈ i.incoming ↔ B p ∧ ∃ q ∈ M.blocks, q.id = p ∧ x.id ∈ q.succs
  arity : ∀ x ∈ M.blocks, B x.id → ∀ i ∈ x.insts, i.isPHI = true → i.incoming.length = i.operands.length
  phisFirst : ∀ x ∈ M.blocks, B x.id → PhisFirst x.insts
  last : ∀ x ∈ M.blocks, B x.id → ∀ i ∈ x.insts.dropLast, i.op.isTerminator = false

/- `N` does what `M` does, from every block of `B`. -/
structure Preserves (M : Module) (B : BlockId → Prop) (N : Module) (B' : BlockId → Prop) : Prop where
  valid : ValidOn N B'
  sub : ∀ n, B n → B' n
  same : ∀ n, B n → SameBehaviour M N n

theorem Preserves.refl {M : Module} {B : BlockId → Prop} (h : ValidOn M B) : Preserves M B M B :=
  ⟨h, fun _ hn => hn, fun n _ => .refl M n⟩

theorem Preserves.trans {M N K : Module} {B B' B'' : BlockId → Prop} (h : Preserves M B N B')
    (h' : Preserves N B' K B'') : Preserves M B K B'' :=
  ⟨h'.valid, fun n hn => h'.sub n (h.sub n hn), fun n hn => (h.same n hn).trans (h'.same n (h.sub n hn))⟩

section Split
variable {M : Module} {B : BlockId → Prop} {b : Block} {xs ys : List Inst} {i : Inst}

/- Number of a block that control comes from, once edges from `old` leave `new`. -/
def redirect (old new q : BlockId) : BlockId := if q = old then new else q

/- What a PHI reads on an edge is what it read before. -/
theorem redirected_incoming {old new : BlockId} {u : Inst} (h : Redirected old new i u) (hphi : i.isPHI = true)
    {p : BlockId} (hnew : new ∉ i.incoming) (hp : p ≠ new) :
    u.incomingValue? (redirect old new p) = i.incomingValue? p := by
  obtain ⟨hcore, hinc⟩ := h
  have hread := incomingValue?_renamed (f := ⟨id, id, redirect old new, 0⟩) (i := i) (u := u) (p := p)
    (by rw [operands_of_core hcore, List.map_id]) (hinc hphi) ?_
  · rw [hread, Option.map_id_fun, id]
  · intro q hq he
    have hqn : q ≠ new := fun h => hnew (h ▸ hq)
    simp only [redirect] at he
    split at he <;> split at he
    · next h1 h2 => rw [h1, h2]
    · exact absurd he.symm hp
    · exact absurd he hqn
    · exact he

/- Instructions that differ in redirected edges do the same. -/
theorem redirected_pairs {V Mem : Type} {old new : BlockId} {is js : List Inst} {c d : Config V Mem}
    (hphi : ∀ i ∈ is, i.isPHI = true → new ∉ i.incoming ∧ c.prev ≠ some new ∧
      d.prev = c.prev.map (redirect old new) ∧ d.entry = c.entry)
    (h : List.Forall₂ (Redirected old new) is js) : List.Forall₂ (Paired (fun _ => True) id c d) is js := by
  refine ((List.forall₂_and_left is js).mpr ⟨hphi, h⟩).imp ?_
  rintro i u ⟨hi, hr⟩
  obtain ⟨hid, hop, hty, hops, -⟩ := fields_of_core hr.1
  refine ⟨hid, hop, hty, fun hp => ?_, fun _ => ⟨by rw [hops, List.map_id], fun _ _ => trivial⟩, fun _ _ => .rfl⟩
  obtain ⟨hnew, hne, hprev, hentry⟩ := hi hp
  unfold Config.phiValue
  rw [hprev, hentry]
  cases hc : c.prev with
  | none => rfl
  | some p =>
    rw [Option.map_some, Option.bind_some, Option.bind_some, redirected_incoming hr hp hnew]
    rintro rfl
    exact hne hc

/- The blocks after the split, by number. -/
structure SplitCode (M N : Module) (B : BlockId → Prop) (b : Block) (xs ys : List Inst) (i : Inst) : Prop where
  other : ∀ x ∈ M.blocks, B x.id → x.id ≠ b.id → ∃ js, N.code x.id = some js ∧
    List.Forall₂ (Redirected b.id M.nextId) x.insts js
  head : ∃ js u, N.code b.id = some (js ++ [u]) ∧ u.core = (Inst.uncondBr M.nextId M.nextId).core ∧
    List.Forall₂ (Redirected b.id M.nextId) xs js
  tail : ∃ js, N.code M.nextId = some js ∧ List.Forall₂ (Redirected b.id M.nextId) (i :: ys) js

variable (hM : M.Ids) (hv : ValidOn M B) (hb : b ∈ M.blocks) (hB : B b.id) (hsplit : b.insts = xs ++ i :: ys)
  (hphi : i.isPHI = false) (hpad : i.op.isEHPad = false)

theorem ValidOn.lt (hv : ValidOn M B) (hM : M.Ids) {n : BlockId} (hn : B n) : n < M.nextId := by
  obtain ⟨x, hx, rfl⟩ := hv.exist n hn
  exact hM.blocks_lt x hx

/- Behind an instruction that is no PHI there are no PHIs. -/
theorem ValidOn.tail_phi (hv : ValidOn M B) (hb : b ∈ M.blocks) (hB : B b.id) (hsplit : b.insts = xs ++ i :: ys)
    (hphi : i.isPHI = false) : ∀ j ∈ i :: ys, j.isPHI = false := by
  obtain ⟨ps, rest, he, hps, hrest⟩ := hv.phisFirst b hb hB
  rw [hsplit] at he
  rcases List.append_eq_append_iff.mp he with ⟨zs, rfl, hzs⟩ | ⟨zs, rfl, hzs⟩
  · cases zs with
    | nil =>
      rw [List.nil_append] at hzs
      exact hzs ▸ hrest
    | cons z zs =>
      rw [List.cons_append, List.cons.injEq] at hzs
      obtain ⟨rfl, -⟩ := hzs
      rw [hps i (by simp)] at hphi
      cases hphi
  · intro j hj
    exact hrest j (by rw [hzs]; exact List.mem_append_right _ hj)

include hM hv hb hB hsplit hphi hpad

theorem splitBlock_code : SplitCode M (M.splitBlock b.id i.id).1 B b xs ys i := by
  have hex := splitBlock_exact hM hb hsplit hphi hpad
  have hids := splitBlock_ids hM b.id i.id
  have hcode : ∀ c₀, ((c₀ ∈ M.blocks ∧ c₀.id ≠ b.id) ∨
      c₀ = { b with insts := xs ++ [Inst.uncondBr M.nextId M.nextId] } ∨ c₀ = ⟨M.nextId, i :: ys, false⟩) →
      (M.splitBlock b.id i.id).1.code c₀.id = some (c₀.redirectIn b.succs b.id M.nextId).insts := by
    intro c₀ hc
    have h := code_block hids ((hex (c₀.redirectIn b.succs b.id M.nextId)).mpr ⟨c₀, rfl, hc⟩)
    rwa [redirectIn_id] at h
  -- a PHI with an edge from the block is in a successor
  have hedge : ∀ x ∈ M.blocks, B x.id → ∀ j ∈ x.insts, x.id ∉ b.succs → j.isPHI = true → b.id ∉ j.incoming := by
    intro x hx hBx j hj hno hjphi hin
    obtain ⟨-, q, hq, hqb, hsucc⟩ := (hv.phi x hx hBx j hj hjphi b.id).mp hin
    obtain rfl := List.inj_on_of_nodup_map hM.blocks_nodup hq hb hqb
    exact hno hsucc
  constructor
  · intro x hx hBx hne
    exact ⟨_, hcode x (.inl ⟨hx, hne⟩), redirectIn_insts fun hno j hj hjphi => hedge x hx hBx j hj hno hjphi⟩
  · have hall := @redirectIn_insts b.succs b.id M.nextId
      { b with insts := xs ++ [Inst.uncondBr M.nextId M.nextId] } ?_
    · obtain ⟨js, us, he, hjs, hus⟩ := forall₂_append hall
      cases hus with
      | @cons _ u _ _ hu hnil =>
        cases hnil
        refine ⟨js, u, ?_, hu.1, hjs⟩
        rw [← he]
        exact hcode _ (.inr (.inl rfl))
    · intro hno j hj hjphi
      rcases List.mem_append.mp hj with hj | hj
      · exact hedge b hb hB j (by rw [hsplit]; exact List.mem_append_left _ hj) hno hjphi
      · rw [List.mem_singleton.mp hj] at hjphi
        cases hjphi
  · refine ⟨_, hcode _ (.inr (.inr rfl)), @redirectIn_insts b.succs b.id M.nextId ⟨M.nextId, i :: ys, false⟩ ?_⟩
    intro _ j hj hjphi
    rw [hv.tail_phi hb hB hsplit hphi j hj] at hjphi
    cases hjphi

omit hM hv hb hB hsplit hphi hpad

/- Control goes to a block of `B`, along an edge of the module unless it starts there. -/
def GoesTo (M : Module) (B : BlockId → Prop) (p s : Option BlockId) : Prop :=
  ∀ n, s = some n → B n ∧ ∀ q, p = some q → B q ∧ ∃ x ∈ M.blocks, x.id = q ∧ n ∈ x.succs

theorem GoesTo.start {n : BlockId} (h : B n) : GoesTo M B none (some n) := by
  intro m hm
  obtain rfl := Option.some.inj hm
  refine ⟨h, fun q hq => ?_⟩
  cases hq

theorem GoesTo.leave (hv : ValidOn M B) {x : Block} (hx : x ∈ M.blocks) (hBx : B x.id) {t : Inst}
    (ht : x.insts.getLast? = some t) (n : Nat) : GoesTo M B (some x.id) t.succs[n]? := by
  intro s hs
  have hmem : s ∈ x.succs := by
    rw [Block.succs, Block.terminator?, ht]
    exact List.mem_of_getElem? hs
  refine ⟨hv.succ x hx hBx s hmem, ?_⟩
  intro q hq
  obtain rfl := Option.some.inj hq
  exact ⟨hBx, x, hx, rfl, hmem⟩

theorem last_succs {old new : BlockId} {is js : List Inst} (h : List.Forall₂ (Redirected old new) is js) {t u : Inst}
    (ht : is.getLast? = some t) (hu : js.getLast? = some u) : u.succs = t.succs := by
  have hcore := congrArg List.getLast? (core_of_forall₂ (fun _ _ h => h.1) h)
  rw [List.getLast?_map, List.getLast?_map, ht, hu] at hcore
  exact succs_of_core (Option.some.inj hcore)

section Run
variable {V Mem : Type}

/- At the start of a block, the second time with redirected edges. -/
inductive AtSplit (M N : Module) (B : BlockId → Prop) (old : BlockId) : Config V Mem → Config V Mem → Prop where
  | enter (p s : Option BlockId) (vals : Value → Option V) (mem : Mem) : GoesTo M B p s →
      AtSplit M N B old (.enter M.code p s vals mem) (.enter N.code (p.map (redirect old M.nextId)) s vals mem)

theorem enter_code {C : Code} {n : BlockId} {is : List Inst} (h : C n = some is) (p : Option BlockId)
    (vals : Value → Option V) (mem : Mem) : (Config.enter C p (some n) vals mem).rest = is := by
  rw [Config.enter, Option.bind_some, h, Option.getD_some]

theorem emits_br (S : Machine V Mem) {C : Code} {d : Config V Mem} {u : Inst} {r : List Inst} {s : BlockId}
    (hrest : d.rest = u :: r) (hop : u.op = .br) (hops : u.operands = []) (hsucc : u.succs = [s]) :
    S.Emits C d none (.enter C d.block (some s) d.vals d.mem) := by
  have h := Machine.emits_of (C := C) hrest (Machine.outcome_uncondBr S hop hops)
  have hafter : d.after C u r ⟨none, d.mem, 0⟩ = .enter C d.block (some s) d.vals d.mem := by
    rw [Config.after, if_pos (by rw [hop]; rfl), hsucc]
    rfl
  have hbr : u.isUncondBr = true := by simp [Inst.isUncondBr, hop, hops]
  rw [hafter] at h
  simpa only [Config.event, hbr, Bool.or_true, if_true] using h

include hM hv hb hB hsplit hphi hpad

/- From the start of a block both run to the next: through the block, or through its two halves. -/
theorem split_lockstep (S : Machine V Mem) : Lockstep (S.Emits M.code) (S.Emits (M.splitBlock b.id i.id).1.code)
    (AtSplit M (M.splitBlock b.id i.id).1 B b.id) := by
  have hN := splitBlock_code hM hv hb hB hsplit hphi hpad
  generalize (M.splitBlock b.id i.id).1 = N at hN ⊢
  rintro _ _ ⟨p, s, vals, mem, hedge⟩
  cases s with
  | none => exact .ended (Machine.ended_nil rfl) (Machine.ended_nil rfl)
  | some n =>
    obtain ⟨hBn, hpred⟩ := hedge n rfl
    obtain ⟨x, hx, rfl⟩ := hv.exist n hBn
    have hphis : ∀ j ∈ x.insts, j.isPHI = true → M.nextId ∉ j.incoming ∧ p ≠ some M.nextId := by
      intro j hj hjphi
      refine ⟨fun hm => ?_, fun hp => ?_⟩
      · exact Nat.lt_irrefl _ (hv.lt hM ((hv.phi x hx hBn j hj hjphi M.nextId).mp hm).1)
      · exact Nat.lt_irrefl _ (hv.lt hM (hpred _ hp).1)
    have hc := enter_code (code_block hM hx) p vals mem
    have hal : Agrees (fun _ => True) id (Config.enter M.code p (some x.id) vals mem)
        (Config.enter N.code (p.map (redirect b.id M.nextId)) (some x.id) vals mem) := ⟨fun _ _ => rfl, rfl⟩
    by_cases he : x.id = b.id
    · obtain rfl := List.inj_on_of_nodup_map hM.blocks_nodup hx hb he
      obtain ⟨js, u, hcode, hu, hjs⟩ := hN.head
      obtain ⟨ks, hcode', hks⟩ := hN.tail
      rw [hsplit] at hc
      have hd := enter_code hcode (p.map (redirect x.id M.nextId)) vals mem
      have hlast := hv.last x hx hBn
      rw [hsplit, List.dropLast_append_of_ne_nil (List.cons_ne_nil _ _)] at hlast
      -- through the head, and over the branch to the tail
      refine (meets_line (fun _ _ => rfl) (redirected_pairs ?_ hjs) (fun j hj => hlast j (List.mem_append_left _ hj))
        (hal.reached hc hd)).bind fun c₁ d₁ hr => ?_
      · intro j hj hjphi
        obtain ⟨h1, h2⟩ := hphis j (by rw [hsplit]; exact List.mem_append_left _ hj) hjphi
        exact ⟨h1, h2, rfl, rfl⟩
      · obtain ⟨-, hop, -, hops, hsucc⟩ := fields_of_core hu
        have hbr := emits_br S (C := N.code) (d := d₁) (u := u) (r := []) (by rw [hr.right]) hop hops hsucc
        have hblock : d₁.block = some x.id := by rw [hr.right]; rfl
        rw [hblock] at hbr
        refine Meets.after (.nil c₁) (.single hbr) rfl ?_
        have hal₁ : Agrees (fun _ => True) id c₁ (.enter N.code (some x.id) (some M.nextId) d₁.vals d₁.mem) :=
          ⟨hr.vals, hr.mem⟩
        refine meets_block (fun _ _ => rfl) (redirected_pairs ?_ hks)
          (fun j hj => hlast j (List.mem_append_right _ hj))
          (hal₁.reached (by rw [hr.left]) (enter_code hcode' _ _ _)) ?_
        · intro j hj hjphi
          rw [hv.tail_phi hx hBn hsplit hphi j hj] at hjphi
          cases hjphi
        · intro t u ht hu n vals₁ vals₂ mem₁ hvals₁
          obtain rfl : vals₂ = vals₁ := funext fun v => hvals₁ v trivial
          have hend : x.insts.getLast? = some t := by
            rw [hsplit, List.getLast?_append_cons]
            exact ht
          rw [last_succs hks ht hu]
          have hat : AtSplit M N B x.id _ _ := .enter (some x.id) t.succs[n]? vals₂ mem₁
            (GoesTo.leave hv hx hBn hend n)
          have hleft : c₁.block = some x.id := by rw [hr.left]; rfl
          simpa [redirect, hleft, Config.enter] using hat
    · obtain ⟨js, hcode, hjs⟩ := hN.other x hx hBn he
      refine meets_block (fun _ _ => rfl) (redirected_pairs ?_ hjs) (hv.last x hx hBn)
        (hal.reached hc (enter_code hcode _ _ _)) ?_
      · intro j hj hjphi
        obtain ⟨h1, h2⟩ := hphis j hj hjphi
        exact ⟨h1, h2, rfl, rfl⟩
      · intro t u ht hu n vals₁ vals₂ mem₁ hvals₁
        obtain rfl : vals₂ = vals₁ := funext fun v => hvals₁ v trivial
        rw [last_succs hjs ht hu]
        have hat : AtSplit M N B b.id _ _ := .enter (some x.id) t.succs[n]? vals₂ mem₁
          (GoesTo.leave hv hx hBn ht n)
        simpa [redirect, he, Config.enter] using hat

theorem splitBlock_behaviour {n : BlockId} (hn : B n) : SameBehaviour M (M.splitBlock b.id i.id).1 n :=
  ⟨fun S vals mem _ => (split_lockstep hM hv hb hB hsplit hphi hpad S).sameTraces (S.emits_deterministic _)
    (S.emits_deterministic _) (.enter none (some n) vals mem (.start hn))⟩

end Run

theorem succs_of_cores {x y : Block} (h : x.insts.map Inst.core = y.insts.map Inst.core) : x.succs = y.succs := by
  have hsuccs : ∀ z : Block, z.succs = ((z.insts.map Inst.core).getLast?.map Inst.succs).getD [] := by
    intro z
    rw [List.getLast?_map, Option.map_map]
    rfl
  rw [hsuccs, hsuccs, h]

/- The two halves before PHIs are redirected. -/
def headHalf (b : Block) (xs : List Inst) (new : BlockId) : Block := { b with insts := xs ++ [Inst.uncondBr new new] }

def tailHalf (is : List Inst) (new : BlockId) : Block := ⟨new, is, false⟩

theorem headHalf_succs (b : Block) (xs : List Inst) (new : BlockId) : (headHalf b xs new).succs = [new] := by
  simp only [headHalf, Block.succs, Block.terminator?, List.getLast?_concat]
  rfl

theorem tailHalf_succs (hsplit : b.insts = xs ++ i :: ys) (new : BlockId) : (tailHalf (i :: ys) new).succs = b.succs := by
  simp only [tailHalf, Block.succs, Block.terminator?, hsplit, List.getLast?_append_cons]

theorem redirectIn_succs (succs : List BlockId) (old new : BlockId) (x : Block) :
    (x.redirectIn succs old new).succs = x.succs := succs_of_cores (redirectIn_core ..)

include hM hv hb hB hsplit hphi hpad

/- The predecessors of an old block: the tail takes the place of the block. -/
theorem splitBlock_preds {n : BlockId} (hn : B n) (p : BlockId) :
    ((B p ∨ p = M.nextId) ∧ ∃ q ∈ (M.splitBlock b.id i.id).1.blocks, q.id = p ∧ n ∈ q.succs) ↔
      ∃ q, (B q ∧ ∃ y ∈ M.blocks, y.id = q ∧ n ∈ y.succs) ∧ redirect b.id M.nextId q = p := by
  have hex := splitBlock_exact hM hb hsplit hphi hpad
  constructor
  · rintro ⟨hp, q, hq, rfl, hsucc⟩
    obtain ⟨y, rfl, ⟨hy, hne⟩ | rfl | rfl⟩ := (hex q).mp hq <;> rw [redirectIn_succs] at hsucc <;>
      rw [redirectIn_id] at hp ⊢
    · refine ⟨y.id, ⟨?_, y, hy, rfl, hsucc⟩, if_neg hne⟩
      rcases hp with hp | hp
      · exact hp
      · exact absurd hp (Nat.ne_of_lt (hM.blocks_lt y hy))
    · change n ∈ (headHalf b xs M.nextId).succs at hsucc
      rw [headHalf_succs] at hsucc
      exact absurd (List.mem_singleton.mp hsucc) (Nat.ne_of_lt (hv.lt hM hn))
    · change n ∈ (tailHalf (i :: ys) M.nextId).succs at hsucc
      rw [tailHalf_succs hsplit] at hsucc
      exact ⟨b.id, ⟨hB, b, hb, rfl, hsucc⟩, if_pos rfl⟩
  · rintro ⟨q, ⟨hq, y, hy, rfl, hsucc⟩, rfl⟩
    by_cases he : y.id = b.id
    · obtain rfl := List.inj_on_of_nodup_map hM.blocks_nodup hy hb he
      rw [redirect, if_pos rfl]
      refine ⟨.inr rfl, _, (hex _).mpr ⟨tailHalf (i :: ys) M.nextId, rfl, .inr (.inr rfl)⟩, redirectIn_id .., ?_⟩
      rwa [redirectIn_succs, tailHalf_succs hsplit]
    · rw [redirect, if_neg he]
      refine ⟨.inl hq, _, (hex _).mpr ⟨y, rfl, .inl ⟨hy, he⟩⟩, redirectIn_id .., ?_⟩
      rwa [redirectIn_succs]

omit hB hsplit hphi hpad in
/- A PHI of an old block that is a PHI of `x` once more. -/
theorem redirectIn_phi {x y : Block} (hx : x ∈ M.blocks) (hBx : B x.id) (hid : y.id = x.id)
    (hsub : ∀ j ∈ y.insts, j.isPHI = true → j ∈ x.insts) {u : Inst}
    (hu : u ∈ (y.redirectIn b.succs b.id M.nextId).insts) (huphi : u.isPHI = true) :
    ∃ j ∈ x.insts, j.isPHI = true ∧ u.operands = j.operands ∧
      u.incoming = j.incoming.map (redirect b.id M.nextId) := by
  have hall : List.Forall₂ (Redirected b.id M.nextId) y.insts (y.redirectIn b.succs b.id M.nextId).insts := by
    refine redirectIn_insts fun hno j hj hjphi hin => hno ?_
    obtain ⟨-, q, hq, hqb, hsucc⟩ := (hv.phi x hx hBx j (hsub j hj hjphi) hjphi b.id).mp hin
    obtain rfl := List.inj_on_of_nodup_map hM.blocks_nodup hq hb hqb
    rw [hid]
    exact hsucc
  obtain ⟨j, hj, hcore, hinc⟩ := forall₂_right hall u hu
  have hjphi : j.isPHI = true := (isPHI_of_core hcore).symm.trans huphi
  exact ⟨j, hsub j hj hjphi, hjphi, operands_of_core hcore, hinc hjphi⟩

/- It has an edge for every predecessor, after the split too, and a value for each. -/
theorem splitBlock_phi {x y : Block} (hx : x ∈ M.blocks) (hBx : B x.id) (hid : y.id = x.id)
    (hsub : ∀ j ∈ y.insts, j.isPHI = true → j ∈ x.insts) {u : Inst}
    (hu : u ∈ (y.redirectIn b.succs b.id M.nextId).insts) (huphi : u.isPHI = true) :
    u.incoming.length = u.operands.length ∧ ∀ p, p ∈ u.incoming ↔ (B p ∨ p = M.nextId) ∧
      ∃ q ∈ (M.splitBlock b.id i.id).1.blocks, q.id = p ∧ (y.redirectIn b.succs b.id M.nextId).id ∈ q.succs := by
  obtain ⟨j, hj, hjphi, hops, hinc⟩ := redirectIn_phi hM hv hb hx hBx hid hsub hu huphi
  refine ⟨by rw [hops, hinc, List.length_map, hv.arity x hx hBx j hj hjphi], fun p => ?_⟩
  rw [redirectIn_id, hid, splitBlock_preds hM hv hb hB hsplit hphi hpad hBx p, hinc, List.mem_map]
  exact exists_congr fun q => and_congr_left fun _ => hv.phi x hx hBx j hj hjphi q

theorem splitBlock_valid : ValidOn (M.splitBlock b.id i.id).1 fun n => B n ∨ n = M.nextId := by
  have hex := splitBlock_exact hM hb hsplit hphi hpad
  have hlast := hv.last b hb hB
  rw [hsplit, List.dropLast_append_of_ne_nil (List.cons_ne_nil _ _)] at hlast
  have hold : ∀ x ∈ M.blocks, B x.id ∨ x.id = M.nextId → B x.id := by
    rintro x hx (h | h)
    · exact h
    · exact absurd h (Nat.ne_of_lt (hM.blocks_lt x hx))
  have hphis : ∀ c ∈ (M.splitBlock b.id i.id).1.blocks, (B c.id ∨ c.id = M.nextId) → ∀ u ∈ c.insts, u.isPHI = true →
      u.incoming.length = u.operands.length ∧ ∀ p, p ∈ u.incoming ↔ (B p ∨ p = M.nextId) ∧
        ∃ q ∈ (M.splitBlock b.id i.id).1.blocks, q.id = p ∧ c.id ∈ q.succs := by
    intro c hc hBc u hu huphi
    obtain ⟨x, rfl, ⟨hx, -⟩ | rfl | rfl⟩ := (hex c).mp hc
    · rw [redirectIn_id] at hBc
      exact splitBlock_phi hM hv hb hB hsplit hphi hpad hx (hold x hx hBc) rfl (fun _ hj _ => hj) hu huphi
    · refine splitBlock_phi (y := headHalf b xs M.nextId) hM hv hb hB hsplit hphi hpad hb hB rfl
        (fun j hj hjphi => ?_) hu huphi
      rcases List.mem_append.mp hj with hj | hj
      · rw [hsplit]
        exact List.mem_append_left _ hj
      · rw [List.mem_singleton.mp hj] at hjphi
        cases hjphi
    · obtain ⟨j, hj, hju⟩ := mem_of_core (redirectIn_core b.succs b.id M.nextId (tailHalf (i :: ys) M.nextId)).symm hu
      rw [← isPHI_of_core hju, hv.tail_phi hb hB hsplit hphi j hj] at huphi
      cases huphi
  constructor
  · rintro n (hn | rfl)
    · obtain ⟨x, hx, rfl⟩ := hv.exist n hn
      by_cases he : x.id = b.id
      · exact ⟨_, (hex _).mpr ⟨_, rfl, .inr (.inl rfl)⟩, (redirectIn_id ..).trans he.symm⟩
      · exact ⟨_, (hex _).mpr ⟨x, rfl, .inl ⟨hx, he⟩⟩, redirectIn_id ..⟩
    · exact ⟨_, (hex _).mpr ⟨_, rfl, .inr (.inr rfl)⟩, redirectIn_id ..⟩
  · intro c hc hBc s hs
    obtain ⟨x, rfl, ⟨hx, -⟩ | rfl | rfl⟩ := (hex c).mp hc <;> rw [redirectIn_succs] at hs <;>
      rw [redirectIn_id] at hBc
    · exact .inl (hv.succ x hx (hold x hx hBc) s hs)
    · change s ∈ (headHalf b xs M.nextId).succs at hs
      rw [headHalf_succs] at hs
      exact .inr (List.mem_singleton.mp hs)
    · change s ∈ (tailHalf (i :: ys) M.nextId).succs at hs
      rw [tailHalf_succs hsplit] at hs
      exact .inl (hv.succ b hb hB s hs)
  · exact fun c hc hBc u hu huphi => (hphis c hc hBc u hu huphi).2
  · exact fun c hc hBc u hu huphi => (hphis c hc hBc u hu huphi).1
  · intro c hc hBc
    obtain ⟨x, rfl, ⟨hx, -⟩ | rfl | rfl⟩ := (hex c).mp hc <;> refine phisFirst_core (redirectIn_core ..).symm ?_
    · rw [redirectIn_id] at hBc
      exact hv.phisFirst x hx (hold x hx hBc)
    · have h := phisFirst_take (hv.phisFirst b hb hB) xs.length (Inst.uncondBr M.nextId M.nextId) rfl
      rwa [hsplit, List.take_left] at h
    · exact ⟨[], i :: ys, rfl, fun _ h => absurd h List.not_mem_nil, hv.tail_phi hb hB hsplit hphi⟩
  · intro c hc hBc
    obtain ⟨x, rfl, ⟨hx, -⟩ | rfl | rfl⟩ := (hex c).mp hc <;> refine last_of_core (redirectIn_core ..) ?_
    · rw [redirectIn_id] at hBc
      exact hv.last x hx (hold x hx hBc)
    · intro j hj
      rw [List.dropLast_concat] at hj
      exact hlast j (List.mem_append_left _ hj)
    · exact fun j hj => hlast j (List.mem_append_right _ hj)

/- Splitting at an instruction that is no PHI and no pad keeps what control does. -/
theorem splitBlock_preserves : Preserves M B (M.splitBlock b.id i.id).1 fun n => B n ∨ n = M.nextId :=
  ⟨splitBlock_valid hM hv hb hB hsplit hphi hpad, fun _ hn => .inl hn,
    fun _ hn => splitBlock_behaviour hM hv hb hB hsplit hphi hpad hn⟩

end Split

section Splits
variable {B : BlockId → Prop}

/- A split in front of an instruction that is no PHI and no pad, with its loops. -/
def SplitsTo (s t : Module × LoopInfo) : Prop :=
  ∃ b ∈ s.1.blocks, ∃ i ∈ b.insts, i.isPHI = false ∧ i.op.isEHPad = false ∧
    t = ((s.1.splitBlock b.id i.id).1, s.2.splitUpdate b.id s.1.nextId)

/- Such splits one after the other. -/
abbrev Splits : Module × LoopInfo → Module × LoopInfo → Prop := Relation.ReflTransGen SplitsTo

/- What the rest of the program sees of a function, and where it starts. -/
def IR.Function.face (F : Function) : FuncId × List Param × Bool × Option BlockId :=
  (F.id, F.params, F.isVarArg, F.blocks.head?.map Block.id)

theorem mapIn_face {g : Block → Block} (hg : ∀ b, (g b).id = b.id) (M : Module) (bs : List BlockId) :
    (M.mapIn bs g).funcs.map Function.face = M.funcs.map Function.face := by
  simp only [Module.mapIn, Module.mapBlocks, List.map_map]
  apply List.map_congr_left
  intro F _
  simp only [Function.comp_apply, Function.face, Function.mapBlocks, Prod.mk.injEq, true_and, List.head?_map,
    Option.map_map]
  refine Option.map_congr fun b _ => ?_
  simp only [Function.comp_apply]
  split
  · exact hg b
  · rfl

theorem splitBlock_face (M : Module) (old : BlockId) (pt : InstId) :
    (M.splitBlock old pt).1.funcs.map Function.face = M.funcs.map Function.face := by
  have hid : ∀ b, (Block.redirectPHIs old M.nextId b).id = b.id := fun _ => rfl
  rw [Module.splitBlock, mapIn_face hid]
  simp only [Module.cutBlock, List.map_map]
  apply List.map_congr_left
  intro F _
  simp only [Function.comp_apply, Function.face, Prod.mk.injEq, true_and]
  cases F.blocks with
  | nil => rfl
  | cons x xs =>
    simp only [List.flatMap_cons, Block.cut]
    split <;> rfl

/- Each block stands in a function that `P` allows. -/
def Placed (P : FuncId → BlockId → Prop) (M : Module) : Prop := ∀ F ∈ M.funcs, ∀ b ∈ F.blocks, P F.id b.id

/- The functions of the given numbers have no block outside `B`. -/
def Inside (fs : List FuncId) (B : BlockId → Prop) (M : Module) : Prop := Placed (fun f n => f ∈ fs → B n) M

/- The blocks of `B` are in functions of the given numbers. -/
def Confined (fs : List FuncId) (B : BlockId → Prop) (M : Module) : Prop := Placed (fun f n => B n → f ∈ fs) M

theorem Placed.mapBlocks {P : FuncId → BlockId → Prop} (h : Placed P M) {g : Block → Block} (hg : ∀ b, (g b).id = b.id) :
    Placed P (M.mapBlocks g) := by
  intro F hF b hb
  obtain ⟨G, hG, rfl⟩ := List.mem_map.mp hF
  obtain ⟨c, hc, rfl⟩ := List.mem_map.mp hb
  rw [hg]
  exact h G hG c hc

theorem Placed.mapIn {P : FuncId → BlockId → Prop} (h : Placed P M) {g : Block → Block} (hg : ∀ b, (g b).id = b.id)
    (bs : List BlockId) : Placed P (M.mapIn bs g) := by
  refine h.mapBlocks fun b => ?_
  split
  · exact hg b
  · rfl

/- The new block stands in the function of the old one. -/
theorem Placed.splitBlock {P P' : FuncId → BlockId → Prop} (hM : M.Ids) (h : Placed P M)
    (hsub : ∀ f, ∀ n < M.nextId, P f n → P' f n) {old : BlockId} (hnew : ∀ f, P f old → P' f M.nextId) (pt : InstId) :
    Placed P' (M.splitBlock old pt).1 := by
  have hcut : Placed P' (M.cutBlock old pt) := by
    intro F hF b hb
    obtain ⟨G, hG, rfl⟩ := List.mem_map.mp hF
    obtain ⟨c, hc, hbc⟩ := List.mem_flatMap.mp hb
    have hold := hsub G.id c.id (hM.blocks_lt c (List.mem_flatMap.mpr ⟨G, hG, hc⟩)) (h G hG c hc)
    unfold Block.cut at hbc
    split at hbc
    · next hid =>
      rcases List.mem_cons.mp hbc with rfl | hbc
      · exact hold
      · rw [List.mem_singleton.mp hbc]
        exact hnew G.id (hid ▸ h G hG c hc)
    · rw [List.mem_singleton.mp hbc]
      exact hold
  exact hcut.mapIn (g := Block.redirectPHIs old M.nextId) (fun _ => rfl) _

theorem Inside.splitBlock {fs : List FuncId} (hM : M.Ids) (h : Inside fs B M) {old : BlockId} (pt : InstId) :
    Inside fs (fun n => B n ∨ n = M.nextId) (M.splitBlock old pt).1 := by
  refine Placed.splitBlock hM h ?_ ?_ pt
  · intro f n _ hP hf
    exact .inl (hP hf)
  · intro f _ _
    exact .inr rfl

theorem Confined.splitBlock {fs : List FuncId} (hM : M.Ids) (h : Confined fs B M) {old : BlockId} (hB : B old)
    (pt : InstId) : Confined fs (fun n => B n ∨ n = M.nextId) (M.splitBlock old pt).1 := by
  refine Placed.splitBlock hM h ?_ ?_ pt
  · intro f n hlt hP hn
    exact hP (hn.resolve_right (Nat.ne_of_lt hlt))
  · intro f hP _
    exact hP hB

/- A run of splits keeps the functions, and what control does from every old block. -/
theorem Splits.preserves {s t : Module × LoopInfo} (h : Splits s t) (hM : s.1.WF) (hv : ValidOn s.1 B)
    (hall : ∀ x ∈ s.1.blocks, B x.id) :
    t.1.WF ∧ t.1.funcs.map Function.face = s.1.funcs.map Function.face ∧
      ∃ B', Preserves s.1 B t.1 B' ∧ ∀ x ∈ t.1.blocks, B' x.id := by
  induction h with
  | refl => exact ⟨hM, rfl, B, .refl hv, hall⟩
  | tail _ hstep ih =>
    obtain ⟨hwf, hface, B', hp, hall'⟩ := ih
    obtain ⟨b, hb, i, hi, hphi, hpad, rfl⟩ := hstep
    obtain ⟨xs, ys, hsplit⟩ := List.append_of_mem hi
    refine ⟨splitBlock_wf hwf b.id i.id, (splitBlock_face _ _ _).trans hface, _,
      hp.trans (splitBlock_preserves hwf.toIds hp.valid hb (hall' b hb) hsplit hphi hpad), fun x hx => ?_⟩
    rcases (splitBlock_mem hwf i.id ⟨b, hb, rfl⟩ x.id).mp ⟨x, hx, rfl⟩ with ⟨y, hy, hid⟩ | hid
    · exact .inl (hid ▸ hall' y hy)
    · exact .inr hid

end Splits

section Pass

/- A run of splits without the tree. -/
theorem TreeSplits.forget {s t : Module × LoopInfo × DominatorTree} (h : TreeSplits s t) :
    Splits (s.1, s.2.1) (t.1, t.2.1) := by
  induction h with
  | refl => exact .refl
  | tail _ hstep ih =>
    obtain ⟨b, hb, i, hi, hphi, hpad, rfl⟩ := hstep
    exact ih.tail ⟨b, hb, i, hi, hphi, hpad, rfl⟩

section Perform
variable {addr : BlockId → Nat} {infos : LoopId → Option IteratorInfo} {isDeclaration : Bool}
  {whiteList : Option (List String)} {name : String} {M : Module} {LI : LoopInfo}

/- The pass makes a run of splits; any tree may come along. -/
theorem perform_splits (h : SplitInv M LI) {r : Bool × Module × LoopInfo}
    (hr : perform addr infos isDeclaration whiteList name M LI = some r) : Splits (M, LI) r.2 := by
  rw [← perform_forget addr infos isDeclaration whiteList name M LI ⟨0, ∅⟩] at hr
  obtain ⟨s, hs, rfl⟩ := Option.map_eq_some_iff.mp hr
  exact (performDT_splits h hs).forget

theorem perform_exists (addr : BlockId → Nat) (infos : LoopId → Option IteratorInfo) (isDeclaration : Bool)
    (whiteList : Option (List String)) (name : String) (h : SplitInv M LI) (hpt : ∀ b ∈ M.blocks, b.HasInsertionPt) :
    ∃ r, perform addr infos isDeclaration whiteList name M LI = some r := by
  obtain ⟨s, hs⟩ := performDT_exists addr infos isDeclaration whiteList name ⟨0, ∅⟩ h hpt
  exact ⟨forgetTree s, by rw [← perform_forget addr infos isDeclaration whiteList name M LI ⟨0, ∅⟩, hs]; rfl⟩

end Perform

/- A PHI has a value for each incoming edge. -/
def PHIsPaired (M : Module) : Prop := ∀ i ∈ M.insts, i.isPHI = true → i.incoming.length = i.operands.length

/- Whatever the verifier promises holds of all blocks. -/
theorem Verified.validOn {M : Module} (hv : Verified M) (he : ValidEdges M) (hu : ValidUses M) (ha : PHIsPaired M) :
    ValidOn M fun n => ∃ x ∈ M.blocks, x.id = n where
  exist := fun _ hn => hn
  succ := fun x hx _ => he.succ x hx
  phi := by
    intro x hx _ i hi hphi p
    constructor
    · intro hp
      obtain ⟨q, hq, hqp, hsucc⟩ := hv.incoming x hx i hi hphi p hp
      exact ⟨⟨q, hq, hqp⟩, q, hq, hqp, hsucc⟩
    · rintro ⟨-, q, hq, rfl, hsucc⟩
      exact (he.phi x hx i hi hphi).2.2 q hq hsucc
  arity := fun x hx _ i hi => ha i (List.mem_flatMap.mpr ⟨x, hx, hi⟩)
  phisFirst := fun x hx _ => hv.phisFirst x hx
  last := fun x hx _ => hu.last x hx

/- A block of a verified module without EH pads has an instruction to insert in front of. -/
theorem Verified.hasInsertionPt {M : Module} {LI : LoopInfo} (hv : Verified M) (hinv : SplitInv M LI) :
    ∀ b ∈ M.blocks, b.HasInsertionPt := by
  intro b hb
  obtain ⟨t, hlast, hterm⟩ := hv.terminated b hb
  have ht : t ∈ b.insts := List.mem_of_getLast? hlast
  exact hasInsertionPt_of_terminator ht hterm (hinv.noEHPad b hb t ht)

/- The pass over a loop nest keeps the functions and what control does from every block. -/
theorem perform_behaviour (addr : BlockId → Nat) (infos : LoopId → Option IteratorInfo) (isDeclaration : Bool)
    (whiteList : Option (List String)) (name : String) {M : Module} {LI : LoopInfo} (hM : M.WF) (hinv : SplitInv M LI)
    (hv : Verified M) (he : ValidEdges M) (hu : ValidUses M) (ha : PHIsPaired M) :
    ∃ r, perform addr infos isDeclaration whiteList name M LI = some r ∧
      r.2.1.WF ∧ r.2.1.funcs.map Function.face = M.funcs.map Function.face ∧
      ∀ x ∈ M.blocks, SameBehaviour M r.2.1 x.id := by
  obtain ⟨r, hr⟩ := perform_exists addr infos isDeclaration whiteList name hinv (hv.hasInsertionPt hinv)
  obtain ⟨hwf, hface, B', hp, -⟩ := (perform_splits hinv hr).preserves hM (hv.validOn he hu ha) fun x hx => ⟨x, hx, rfl⟩
  exact ⟨r, hr, hwf, hface, fun x hx => hp.same x.id ⟨x, hx, rfl⟩⟩

theorem counterLoop_wf : counterLoop.WF :=
  ⟨counterLoop_splitInv.ids, by decide, by decide, by decide⟩

theorem counterLoop_verified : Verified counterLoop where
  entry := by
    intro b hb
    have he : b = 0 := by simpa [Module.isEntryBlock, counterLoop, eq_comm] using hb
    subst he
    decide
  ret := by decide
  terminated := by decide
  phisFirst := counterLoop_splitInv.phisFirst
  incoming := by decide

theorem perform_behaviour_counterLoop :
    ∃ r, perform id (fun _ => some counterInfo) false none "f" counterLoop counterLoops = some r ∧
      r.2.1.WF ∧ r.2.1.funcs.map Function.face = counterLoop.funcs.map Function.face ∧
      ∀ x ∈ counterLoop.blocks, SameBehaviour counterLoop r.2.1 x.id :=
  perform_behaviour id (fun _ => some counterInfo) false none "f" counterLoop_wf counterLoop_splitInv
    counterLoop_verified ⟨by decide, by decide⟩ ⟨by decide, by decide⟩ (by unfold PHIsPaired; decide)

end Pass

end Atrox
