import Atrox.IR.Edit
import Atrox.Lib.Simulation

/-!
# Running code

Control goes from instruction to instruction and along edges from block to block. What
an instruction computes is left to a machine, but for PHIs, returns, unconditional
branches and the memory of loads.
-/

namespace Atrox.IR
open Lib

/-- What an instruction leaves behind. `next` is the position of the successor taken. -/
structure Outcome (V Mem : Type) where
  value : Option V
  mem : Mem
  next : Nat

/-- The meaning of opcodes, given the types and values of the operands. A value that
has not been computed yet is missing. -/
structure Machine (V Mem : Type) where
  load : Ty → V → Mem → Option V
  exec : Opcode → Ty → List (Ty × Option V) → Mem → Option (Outcome V Mem)

/-- The instructions of a block, where the block belongs to the code. -/
abbrev Code := BlockId → Option (List Inst)

/-- The blocks of a region. -/
def Module.regionCode (M : Module) (bs : List BlockId) : Code := fun b =>
  if b ∈ bs then (M.block? b).map Block.insts else none

/-- The blocks of a function but for one. -/
def Function.codeUpTo (F : Function) (exit : BlockId) : Code := fun b =>
  if b = exit then none else (F.blocks.find? fun x => x.id = b).map Block.insts

theorem codeUpTo_mem {F : Function} {exit b : BlockId} {is : List Inst} (h : F.codeUpTo exit b = some is) {i : Inst}
    (hi : i ∈ is) : i ∈ F.insts := by
  unfold Function.codeUpTo at h
  split at h
  · cases h
  · obtain ⟨x, hx, rfl⟩ := Option.map_eq_some_iff.mp h
    exact List.mem_flatMap.mpr ⟨x, List.mem_of_find?_eq_some hx, hi⟩

/-- Control stands in `block` in front of `rest`, and came from `prev`. PHIs read the
values at the entry of the block. -/
structure Config (V Mem : Type) where
  prev : Option BlockId
  block : Option BlockId
  rest : List Inst
  entry : Value → Option V
  vals : Value → Option V
  mem : Mem

namespace Config
variable {V Mem : Type}

/-- At the start of a block. -/
def enter (C : Code) (prev block : Option BlockId) (vals : Value → Option V) (mem : Mem) :
    Config V Mem :=
  { prev, block, rest := (block.bind C).getD [], entry := vals, vals, mem }

/-- The values once `i` has run. -/
def set (c : Config V Mem) (i : Inst) (o : Outcome V Mem) : Value → Option V :=
  match o.value with
  | none => c.vals
  | some x => Function.update c.vals i.val (some x)

/-- Behind `i`, with `rest` left to run in the block unless `i` ends it. -/
def after (C : Code) (c : Config V Mem) (i : Inst) (rest : List Inst) (o : Outcome V Mem) :
    Config V Mem :=
  if i.op.isTerminator then enter C c.block (i.succs[o.next]?) (c.set i o) o.mem
  else { c with rest, vals := c.set i o, mem := o.mem }

/- What is left to run at the start of a block is the block. -/
theorem enter_rest {C : Code} {prev s : Option BlockId} {vals : Value → Option V} {mem : Mem} {i : Inst}
    (h : i ∈ (enter C prev s vals mem).rest) :
    ∃ b is, s = some b ∧ C b = some is ∧ (enter C prev s vals mem).rest = is := by
  unfold enter at h ⊢
  cases s with
  | none => cases h
  | some b =>
    rw [Option.bind_some] at h ⊢
    cases hb : C b with
    | none =>
      rw [hb] at h
      cases h
    | some is => exact ⟨b, is, rfl, hb, rfl⟩

end Config

namespace Machine
variable {V Mem : Type} (S : Machine V Mem)

def outcome (c : Config V Mem) (i : Inst) : Option (Outcome V Mem) :=
  match i.op with
  | .phi => (c.prev.bind i.incomingValue?).bind fun v => (c.entry v).map fun x => ⟨some x, c.mem, 0⟩
  | .ret => some ⟨none, c.mem, 0⟩
  | .load => (i.operands.head?.bind c.vals).bind fun p =>
      (S.load i.ty p c.mem).map fun x => ⟨some x, c.mem, 0⟩
  | .br => if i.operands = [] then some ⟨none, c.mem, 0⟩
      else S.exec .br i.ty (i.operands.map fun v => (v.ty, c.vals v)) c.mem
  | op => S.exec op i.ty (i.operands.map fun v => (v.ty, c.vals v)) c.mem

/-- One instruction runs. -/
def step (C : Code) (c : Config V Mem) : Option (Inst × Config V Mem) :=
  match c.rest with
  | [] => none
  | i :: rest => (S.outcome c i).map fun o => (i, c.after C i rest o)

/-- Up to `n` instructions run. -/
def run (C : Code) : Nat → Config V Mem → List Inst × Config V Mem
  | 0, c => ([], c)
  | n + 1, c => match S.step C c with
    | none => ([], c)
    | some (i, d) => (i :: (run C n d).1, (run C n d).2)

/-- Runs, with the instructions they execute. -/
def Runs (C : Code) : Config V Mem → List Inst → Config V Mem → Prop :=
  Run fun c i d => S.step C c = some (i, d)

/-- The opcode never fails and leaves the memory alone. -/
def Harmless (op : Opcode) : Prop :=
  ∀ t vs m, ∃ o, S.exec op t vs m = some o ∧ o.mem = m

variable {S} {C : Code}

theorem step_eq {c d : Config V Mem} {i : Inst} : S.step C c = some (i, d) ↔
    ∃ rest o, c.rest = i :: rest ∧ S.outcome c i = some o ∧ d = c.after C i rest o := by
  unfold step
  cases hrest : c.rest with
  | nil => simp
  | cons j rest =>
    simp only [Option.map_eq_some_iff, Prod.mk.injEq, List.cons.injEq]
    constructor
    · rintro ⟨o, ho, rfl, rfl⟩
      exact ⟨rest, o, ⟨rfl, rfl⟩, ho, rfl⟩
    · rintro ⟨_, o, ⟨rfl, rfl⟩, ho, rfl⟩
      exact ⟨o, ho, rfl, rfl⟩

theorem run_runs (S : Machine V Mem) (C : Code) (n : Nat) (c : Config V Mem) :
    S.Runs C c (S.run C n c).1 (S.run C n c).2 := by
  induction n generalizing c with
  | zero => exact .nil c
  | succ n ih =>
    unfold run
    cases h : S.step C c with
    | none => exact .nil c
    | some r => exact .cons h (ih r.2)

/- What runs are instructions of the code. -/
theorem Runs.mem {c d : Config V Mem} {is : List Inst} (h : S.Runs C c is d)
    (hc : ∀ i ∈ c.rest, ∃ b js, C b = some js ∧ i ∈ js) : ∀ i ∈ is, ∃ b js, C b = some js ∧ i ∈ js := by
  refine (Run.labels (I := fun c => ∀ i ∈ c.rest, ∃ b js, C b = some js ∧ i ∈ js) ?_ h hc).2
  intro c i d hc hstep
  obtain ⟨rest, o, hrest, -, rfl⟩ := step_eq.mp hstep
  refine ⟨hc i (by rw [hrest]; exact List.mem_cons_self ..), fun j hj => ?_⟩
  unfold Config.after at hj
  split at hj
  · obtain ⟨b, js, -, hb, he⟩ := Config.enter_rest hj
    rw [he] at hj
    exact ⟨b, js, hb, hj⟩
  · exact hc j (by rw [hrest]; exact List.mem_cons_of_mem _ hj)

theorem outcome_call (S : Machine V Mem) {c : Config V Mem} {i : Inst} {f : Option Callee} {r : Bool}
    (h : i.op = .call f r) :
    S.outcome c i = S.exec i.op i.ty (i.operands.map fun v => (v.ty, c.vals v)) c.mem := by
  unfold outcome
  rw [h]

theorem outcome_uncondBr (S : Machine V Mem) {c : Config V Mem} {i : Inst} (hop : i.op = .br)
    (hops : i.operands = []) : S.outcome c i = some ⟨none, c.mem, 0⟩ := by
  unfold outcome
  rw [hop]
  exact if_pos hops

theorem outcome_ret (S : Machine V Mem) {c : Config V Mem} {i : Inst} (hop : i.op = .ret) :
    S.outcome c i = some ⟨none, c.mem, 0⟩ := by
  unfold outcome
  rw [hop]

/- A configuration has one run: of two, one goes on from the end of the other. -/
theorem Runs.compare {c d e : Config V Mem} {is js : List Inst} (h : S.Runs C c is d) (h' : S.Runs C c js e) :
    (∃ rest, js = is ++ rest ∧ S.Runs C d rest e) ∨ js <+: is :=
  Run.compare (fun _ _ _ _ _ h1 h2 => Prod.mk.inj (Option.some.inj (h1.symm.trans h2))) h h'

theorem Runs.cons {c d e : Config V Mem} {i : Inst} {is rest : List Inst} {o : Outcome V Mem}
    (hrest : c.rest = i :: rest) (ho : S.outcome c i = some o) (hd : d = c.after C i rest o)
    (h : S.Runs C d is e) : S.Runs C c (i :: is) e :=
  Run.cons (step_eq.mpr ⟨rest, o, hrest, ho, hd⟩) h

end Machine

end Atrox.IR
