import Mathlib.Data.BitVec
import Mathlib.Logic.Function.Basic
import Atrox.IR.Edit

/-!
# Values of straight-line code

What 64-bit arithmetic, pointer casts, GEPs over arrays and loads of pointers
compute. An address is a number modulo 2^64.
-/

namespace Atrox.IR

abbrev Word := BitVec 64

/-- `DataLayout`. The offset inside a composite that is no array is left open. -/
structure DataLayout where
  typeAllocSize : Ty → Nat
  array : ∀ n e, typeAllocSize (.array n e) = n * typeAllocSize e
  inner : Ty → List Word → Word

/-- What the values hold that are no integer constants. -/
abbrev Env := Value → Word

def Const.eval (σ : Env) : Const → Word
  | .int _ n => n
  | .mul a b => a.eval σ * b.eval σ
  | .add a b => a.eval σ + b.eval σ
  | c => σ (.const c)

def Value.eval (σ : Env) : Value → Word
  | .const c => c.eval σ
  | v => σ v

namespace DataLayout
variable (DL : DataLayout)

/-- Where the indices after the first lead inside a type. -/
def offset : Ty → List Word → Word
  | _, [] => 0
  | .array _ e, i :: is => i * DL.typeAllocSize e + offset e is
  | t, i :: is => DL.inner t (i :: is)

/-- The address a GEP computes from a pointer to `elem`. -/
def gepAddress (elem : Ty) (p : Word) : List Word → Word
  | [] => p
  | i :: is => p + i * DL.typeAllocSize elem + DL.offset elem is

end DataLayout

/-- Values so far, and the addresses read. -/
structure Exec where
  env : Env
  reads : List Word

section Run
variable (DL : DataLayout) (mem : Word → Word)

def Inst.result (σ : Env) (i : Inst) : Word :=
  match i.op, i.operands with
  | .mul, [a, b] => a.eval σ * b.eval σ
  | .add, [a, b] => a.eval σ + b.eval σ
  | .cast, [a] => a.eval σ
  | .getElementPtr, p :: is => DL.gepAddress p.ty.pointee (p.eval σ) (is.map (Value.eval σ))
  | .load, [p] => mem (p.eval σ)
  | _, _ => σ i.val

def Inst.addressesRead (σ : Env) (i : Inst) : List Word :=
  match i.op, i.operands with
  | .load, [p] => [p.eval σ]
  | _, _ => []

def Exec.step (x : Exec) (i : Inst) : Exec :=
  ⟨Function.update x.env i.val (i.result DL mem x.env), x.reads ++ i.addressesRead x.env⟩

def Exec.run (x : Exec) (is : List Inst) : Exec := is.foldl (Exec.step DL mem) x

theorem Exec.run_append (x : Exec) (is js : List Inst) :
    x.run DL mem (is ++ js) = (x.run DL mem is).run DL mem js := List.foldl_append

/- An instruction changes no value but its own. -/
theorem Const.eval_update (σ : Env) (n : InstId) (t : Ty) (w : Word) (c : Const) :
    c.eval (Function.update σ (.inst n t) w) = c.eval σ := by
  induction c with
  | int _ _ => rfl
  | mul a b iha ihb => rw [Const.eval, Const.eval, iha, ihb]
  | add a b iha ihb => rw [Const.eval, Const.eval, iha, ihb]
  | symbol i t b => simp [Const.eval]
  | splat k c => simp [Const.eval]

theorem Value.eval_update {σ : Env} {n : InstId} {t : Ty} {w : Word} {v : Value} (hv : v.below n) :
    v.eval (Function.update σ (.inst n t) w) = v.eval σ := by
  cases v with
  | const c => exact c.eval_update σ n t w
  | inst i u =>
    refine Function.update_of_ne (fun he => ?_) _ _
    obtain ⟨rfl, -⟩ := Value.inst.inj he
    exact Nat.lt_irrefl _ hv
  | func f => simp [Value.eval]
  | global g t a => simp [Value.eval]
  | arg f k t => simp [Value.eval]

theorem Exec.step_self (x : Exec) (i : Inst) : i.val.eval (x.step DL mem i).env = i.result DL mem x.env :=
  Function.update_self ..

theorem Exec.step_below (x : Exec) (i : Inst) {v : Value} (hv : v.below i.id) :
    v.eval (x.step DL mem i).env = v.eval x.env := Value.eval_update hv

end Run

end Atrox.IR
