import Atrox.IR.CodeCopy
import Atrox.Lib.Traces

/-!
# Behaviour

What running code shows: the instructions, their operands and the memory they leave. PHIs and
plain branches show nothing. Two pieces of code are compared block by block.
-/

namespace Atrox.IR
open Lib

/-- An instruction that has run: what it was given, and the memory behind it. -/
structure Event (V Mem : Type) where
  id : InstId
  op : Opcode
  ty : Ty
  args : List (Ty × Option V)
  mem : Mem

section Emits
variable {V Mem : Type}

/-- What the step from `c` over `i` to `d` shows. -/
def Config.event (c : Config V Mem) (i : Inst) (d : Config V Mem) : Option (Event V Mem) :=
  if i.isPHI || i.isUncondBr then none
  else some ⟨i.id, i.op, i.ty, i.operands.map fun v => (v.ty, c.vals v), d.mem⟩

/-- One instruction runs, with what it shows. -/
def Machine.Emits (S : Machine V Mem) (C : Code) (c : Config V Mem) (a : Option (Event V Mem)) (d : Config V Mem) :
    Prop :=
  ∃ i, S.step C c = some (i, d) ∧ a = c.event i d

theorem Machine.emits_deterministic (S : Machine V Mem) (C : Code) : Deterministic (S.Emits C) := by
  rintro c a d b e ⟨i, hi, rfl⟩ ⟨j, hj, rfl⟩
  obtain ⟨rfl, rfl⟩ := Prod.mk.inj (Option.some.inj (hi.symm.trans hj))
  exact ⟨rfl, rfl⟩

theorem Machine.emits_of {S : Machine V Mem} {C : Code} {c : Config V Mem} {i : Inst} {rest : List Inst}
    {o : Outcome V Mem} (hrest : c.rest = i :: rest) (ho : S.outcome c i = some o) :
    S.Emits C c (c.event i (c.after C i rest o)) (c.after C i rest o) :=
  ⟨i, step_eq.mpr ⟨rest, o, hrest, ho, rfl⟩, rfl⟩

theorem Machine.ended_nil {S : Machine V Mem} {C : Code} {c : Config V Mem} (h : c.rest = []) :
    Ended (S.Emits C) c := by
  rintro a d ⟨i, hi, -⟩
  obtain ⟨rest, o, hrest, -, -⟩ := step_eq.mp hi
  rw [h] at hrest
  cases hrest

theorem Machine.ended_none {S : Machine V Mem} {C : Code} {c : Config V Mem} {i : Inst} {rest : List Inst}
    (h : c.rest = i :: rest) (ho : S.outcome c i = none) : Ended (S.Emits C) c := by
  rintro a d ⟨j, hj, -⟩
  obtain ⟨rest', o, hrest, ho', -⟩ := step_eq.mp hj
  rw [h] at hrest
  obtain ⟨rfl, rfl⟩ := List.cons.inj hrest
  rw [ho] at ho'
  cases ho'

end Emits

/-- The code of all functions. -/
def Module.code (M : Module) : Code := fun b => (M.block? b).map Block.insts

theorem code_block {M : Module} (hM : M.Ids) {b : Block} (hb : b ∈ M.blocks) : M.code b.id = some b.insts := by
  rw [Module.code, block?_mem hM hb, Option.map_some]

/-- Whatever the opcodes mean, control that starts in the block `b` shows the same in both modules, and
ends alike. -/
structure SameBehaviour (M N : Module) (b : BlockId) : Prop where
  traces : ∀ {V Mem : Type} (S : Machine V Mem) (vals : Value → Option V) (mem : Mem),
    (∀ i t, vals (.inst i t) = none) →
    SameTraces (S.Emits M.code) (S.Emits N.code) (.enter M.code none (some b) vals mem)
      (.enter N.code none (some b) vals mem)

theorem SameBehaviour.refl (M : Module) (b : BlockId) : SameBehaviour M M b := ⟨fun _ _ _ _ => .refl _⟩

theorem SameBehaviour.trans {M N K : Module} {b : BlockId} (h : SameBehaviour M N b) (h' : SameBehaviour N K b) :
    SameBehaviour M K b := ⟨fun S vals mem hv => (h.traces S vals mem hv).trans (h'.traces S vals mem hv)⟩

theorem forall₂_append {α β : Type} {R : α → β → Prop} {xs zs : List α} {js : List β}
    (h : List.Forall₂ R (xs ++ zs) js) : ∃ ys us, js = ys ++ us ∧ List.Forall₂ R xs ys ∧ List.Forall₂ R zs us := by
  induction xs generalizing js with
  | nil => exact ⟨[], js, rfl, .nil, h⟩
  | cons x xs ih =>
    cases h with
    | cons hxy h =>
      obtain ⟨ys, us, rfl, hys, hus⟩ := ih h
      exact ⟨_ :: ys, us, rfl, .cons hxy hys, hus⟩

section Pairs
variable {V Mem : Type}

/-- The value a PHI takes. -/
def Config.phiValue (c : Config V Mem) (i : Inst) : Option V := (c.prev.bind i.incomingValue?).bind c.entry

/-- The values of `P` are those of `c` under new names. -/
structure Agrees (P : Value → Prop) (ρ : Value → Value) (c d : Config V Mem) : Prop where
  vals : ∀ v, P v → d.vals (ρ v) = c.vals v
  mem : d.mem = c.mem

/-- `j` does in `d` what `i` does in `c`. -/
structure Paired (P : Value → Prop) (ρ : Value → Value) (c d : Config V Mem) (i j : Inst) : Prop where
  id : j.id = i.id
  op : j.op = i.op
  ty : j.ty = i.ty
  phi : i.isPHI = true → d.phiValue j = c.phiValue i
  operands : i.isPHI = false → j.operands = i.operands.map ρ ∧ ∀ v ∈ i.operands, P v
  fixed : ∀ v, P v → (ρ v = i.val ↔ v = i.val)

theorem outcome_phi (S : Machine V Mem) {c : Config V Mem} {i : Inst} (h : i.isPHI = true) :
    S.outcome c i = (c.phiValue i).map fun x => ⟨some x, c.mem, 0⟩ := by
  have hop : i.op = .phi := by simpa [Inst.isPHI] using h
  unfold Machine.outcome Config.phiValue
  rw [hop]
  cases c.prev.bind i.incomingValue? <;> rfl

variable {P : Value → Prop} {ρ : Value → Value} {c d : Config V Mem} {i j : Inst}

section Same
variable (hty : ∀ v, P v → (ρ v).ty = v.ty) (ha : Agrees P ρ c d) (hp : Paired P ρ c d i j)
include hty ha hp

theorem Paired.args (hphi : i.isPHI = false) :
    (j.operands.map fun v => (v.ty, d.vals v)) = i.operands.map fun v => (v.ty, c.vals v) := by
  obtain ⟨hops, hP⟩ := hp.operands hphi
  rw [hops, List.map_map]
  apply List.map_congr_left
  intro v hv
  simp only [Function.comp_apply, hty v (hP v hv), ha.vals v (hP v hv)]

theorem Paired.outcome (S : Machine V Mem) : S.outcome d j = S.outcome c i := by
  cases hphi : i.isPHI with
  | true =>
    have hphi' : j.isPHI = true := by rwa [Inst.isPHI, hp.op, ← Inst.isPHI]
    rw [outcome_phi S hphi, outcome_phi S hphi', hp.phi hphi, ha.mem]
  | false =>
    obtain ⟨hops, hP⟩ := hp.operands hphi
    have hargs := hp.args hty ha hphi
    have hnil : j.operands = [] ↔ i.operands = [] := by rw [hops, List.map_eq_nil_iff]
    have hhead : j.operands.head?.bind d.vals = i.operands.head?.bind c.vals := by
      rw [hops]
      cases hl : i.operands with
      | nil => rfl
      | cons v vs =>
        have hv := hP v (by rw [hl]; exact List.mem_cons_self ..)
        simp only [List.map_cons, List.head?_cons, Option.bind_some, ha.vals v hv]
    unfold Machine.outcome
    rw [hp.op, hp.ty, ha.mem, hargs]
    cases hop : i.op with
    | phi => simp [Inst.isPHI, hop] at hphi
    | load => simp only [hhead]
    | br => simp only [hnil]
    | _ => rfl

theorem Paired.event {e f : Config V Mem} (hmem : f.mem = e.mem) : d.event j f = c.event i e := by
  unfold Config.event
  cases hphi : i.isPHI with
  | true =>
    have hphi' : j.isPHI = true := by rwa [Inst.isPHI, hp.op, ← Inst.isPHI]
    simp only [hphi', Bool.true_or, if_true]
  | false =>
    have hphi' : j.isPHI = false := by rwa [Inst.isPHI, hp.op, ← Inst.isPHI]
    have hbr : j.isUncondBr = i.isUncondBr := by
      rw [Inst.isUncondBr, Inst.isUncondBr, hp.op, (hp.operands hphi).1, List.isEmpty_map]
    rw [hphi', hbr, hp.id, hp.op, hp.ty, hp.args hty ha hphi, hmem]

omit hty in
theorem Paired.set (o : Outcome V Mem) : ∀ v, P v → d.set j o (ρ v) = c.set i o v := by
  intro v hv
  have hval : j.val = i.val := by rw [Inst.val, Inst.val, hp.id, hp.ty]
  unfold Config.set
  cases o.value with
  | none => exact ha.vals v hv
  | some x =>
    simp only [hval]
    by_cases he : v = i.val
    · rw [(hp.fixed v hv).mpr he, he, Function.update_self, Function.update_self]
    · rw [Function.update_of_ne he, Function.update_of_ne fun h => he ((hp.fixed v hv).mp h)]
      exact ha.vals v hv

end Same

section Line
variable {S : Machine V Mem} {C C' : Code} {c₁ d₁ : Config V Mem} {is js tc td : List Inst}

/-- What changes on the way through a block, and what stays. -/
structure Reached (P : Value → Prop) (ρ : Value → Value) (c d : Config V Mem) (tc td : List Inst)
    (c' d' : Config V Mem) : Prop extends Agrees P ρ c' d' where
  left : c' = { c with rest := tc, vals := c'.vals, mem := c'.mem }
  right : d' = { d with rest := td, vals := d'.vals, mem := d'.mem }

theorem Agrees.reached (ha : Agrees P ρ c d) (hc : c.rest = tc) (hd : d.rest = td) : Reached P ρ c d tc td c d := by
  subst hc hd
  exact ⟨ha, rfl, rfl⟩

/- PHIs read the same on the way. -/
theorem Reached.paired (hr : Reached P ρ c d tc td c₁ d₁) (hp : Paired P ρ c d i j) : Paired P ρ c₁ d₁ i j := by
  have hphi : d₁.phiValue j = d.phiValue j ∧ c₁.phiValue i = c.phiValue i := by
    rw [hr.left, hr.right]
    exact ⟨rfl, rfl⟩
  exact { hp with phi := fun h => by rw [hphi.1, hphi.2, hp.phi h] }

variable (hty : ∀ v, P v → (ρ v).ty = v.ty)
include hty

theorem Reached.step (hr : Reached P ρ c d (i :: tc) (j :: td) c₁ d₁) (hp : Paired P ρ c d i j)
    (hno : i.op.isTerminator = false) :
    Meets (S.Emits C) (S.Emits C') (Both (S.Emits C) (S.Emits C') (Reached P ρ c d tc td)) c₁ d₁ := by
  have hp₁ := hr.paired hp
  have ho' := hp₁.outcome hty hr.toAgrees S
  have hc : c₁.rest = i :: tc := by rw [hr.left]
  have hd : d₁.rest = j :: td := by rw [hr.right]
  cases ho : S.outcome c₁ i with
  | none => exact .ended (Machine.ended_none hc ho) (Machine.ended_none hd (ho'.trans ho))
  | some o =>
    have hcs : c₁.after C i tc o = { c₁ with rest := tc, vals := c₁.set i o, mem := o.mem } := by
      rw [Config.after, if_neg (by simp [hno])]
    have hds : d₁.after C' j td o = { d₁ with rest := td, vals := d₁.set j o, mem := o.mem } := by
      rw [Config.after, hp.op, if_neg (by simp [hno])]
    refine .here ⟨_, _, d₁.after C' j td o, Machine.emits_of hc ho, ?_, ?_⟩
    · rw [← hp₁.event hty hr.toAgrees (f := d₁.after C' j td o) (by rw [hcs, hds])]
      exact Machine.emits_of hd (ho'.trans ho)
    · rw [hcs, hds]
      refine ⟨⟨hp₁.set hr.toAgrees o, rfl⟩, ?_, ?_⟩
      · rw [hr.left]
      · rw [hr.right]

/-- Two lists of instructions that do the same, without control flow, run side by side. -/
theorem meets_line (hpair : List.Forall₂ (Paired P ρ c d) is js) (hno : ∀ i ∈ is, i.op.isTerminator = false)
    (hr : Reached P ρ c d (is ++ tc) (js ++ td) c₁ d₁) :
    Meets (S.Emits C) (S.Emits C') (Reached P ρ c d tc td) c₁ d₁ := by
  induction hpair generalizing c₁ d₁ with
  | nil => exact .here hr
  | cons hij _ ih =>
    refine (hr.step hty hij (hno _ (List.mem_cons_self ..))).bind ?_
    rintro c₂ d₂ ⟨a, c₃, d₃, hc, hd, hr'⟩
    exact (ih (fun i hi => hno i (List.mem_cons_of_mem _ hi)) hr').after (.single hc) (.single hd) rfl

/-- A terminator runs on both sides. -/
theorem Reached.leave (hr : Reached P ρ c d (i :: tc) (j :: td) c₁ d₁) (hp : Paired P ρ c d i j)
    (hterm : i.op.isTerminator = true) {R : Config V Mem → Config V Mem → Prop}
    (hR : ∀ (n : Nat) vals vals' mem, (∀ v, P v → vals' (ρ v) = vals v) →
      R (.enter C c.block i.succs[n]? vals mem) (.enter C' d.block j.succs[n]? vals' mem)) :
    Meets (S.Emits C) (S.Emits C') (Both (S.Emits C) (S.Emits C') R) c₁ d₁ := by
  have hp₁ := hr.paired hp
  have ho' := hp₁.outcome hty hr.toAgrees S
  have hc : c₁.rest = i :: tc := by rw [hr.left]
  have hd : d₁.rest = j :: td := by rw [hr.right]
  cases ho : S.outcome c₁ i with
  | none => exact .ended (Machine.ended_none hc ho) (Machine.ended_none hd (ho'.trans ho))
  | some o =>
    have hcs : c₁.after C i tc o = .enter C c.block i.succs[o.next]? (c₁.set i o) o.mem := by
      rw [Config.after, if_pos hterm, hr.left]
    have hds : d₁.after C' j td o = .enter C' d.block j.succs[o.next]? (d₁.set j o) o.mem := by
      rw [Config.after, hp.op, if_pos hterm, hr.right]
    refine .here ⟨_, _, d₁.after C' j td o, Machine.emits_of hc ho, ?_, ?_⟩
    · rw [← hp₁.event hty hr.toAgrees (f := d₁.after C' j td o) (by rw [hcs, hds]; rfl)]
      exact Machine.emits_of hd (ho'.trans ho)
    · rw [hcs, hds]
      exact hR o.next _ _ _ (hp₁.set hr.toAgrees o)

/-- Two blocks that do the same run side by side up to where they lead. -/
theorem meets_block (hpair : List.Forall₂ (Paired P ρ c d) is js) (hlast : ∀ i ∈ is.dropLast, i.op.isTerminator = false)
    (hr : Reached P ρ c d is js c₁ d₁) {R : Config V Mem → Config V Mem → Prop}
    (hR : ∀ t u, is.getLast? = some t → js.getLast? = some u → ∀ (n : Nat) vals vals' mem,
      (∀ v, P v → vals' (ρ v) = vals v) →
      R (.enter C c.block t.succs[n]? vals mem) (.enter C' d.block u.succs[n]? vals' mem)) :
    Meets (S.Emits C) (S.Emits C') (Both (S.Emits C) (S.Emits C') R) c₁ d₁ := by
  rcases List.eq_nil_or_concat is with rfl | ⟨xs, t, rfl⟩
  · cases hpair
    exact .ended (Machine.ended_nil (by rw [hr.left])) (Machine.ended_nil (by rw [hr.right]))
  · rw [List.concat_eq_append] at hpair hlast hr hR
    obtain ⟨ys, us, rfl, hys, hus⟩ := forall₂_append hpair
    rw [List.dropLast_concat] at hlast
    refine (meets_line hty hys hlast hr).bind fun c₂ d₂ hr₂ => ?_
    cases hus with
    | @cons _ u _ _ htu hnil =>
      cases hnil
      cases hterm : t.op.isTerminator with
      | true => exact hr₂.leave hty htu hterm fun n => hR t u (by simp) (by simp) n
      | false =>
        refine (hr₂.step hty htu hterm).bind ?_
        rintro c₃ d₃ ⟨a, c₄, d₄, hc, hd, hr₄⟩
        refine (Meets.ended (Machine.ended_nil ?_) (Machine.ended_nil ?_)).after (.single hc) (.single hd) rfl
        · rw [hr₄.left]
        · rw [hr₄.right]

end Line

section PHIs
variable {S : Machine V Mem} {C : Code} {ps tl : List Inst}

theorem phi_step (hrest : c.rest = i :: tl) (hphi : i.isPHI = true) {x : V} (hx : c.phiValue i = some x) :
    S.Emits C c none { c with rest := tl, vals := Function.update c.vals i.val (some x) } := by
  have ho : S.outcome c i = some ⟨some x, c.mem, 0⟩ := by rw [outcome_phi S hphi, hx, Option.map_some]
  have hno : i.op.isTerminator = false := by
    have hop : i.op = .phi := by simpa [Inst.isPHI] using hphi
    rw [hop]
    rfl
  have hafter : c.after C i tl ⟨some x, c.mem, 0⟩ =
      { c with rest := tl, vals := Function.update c.vals i.val (some x) } := by
    rw [Config.after, if_neg (by simp [hno])]
    rfl
  have h := Machine.emits_of (C := C) hrest ho
  rw [hafter] at h
  simpa only [Config.event, hphi, Bool.true_or, if_true] using h

/- PHIs take their values one after the other, each from the entry of the block. -/
theorem phis_run (hc : c.rest = ps ++ tl) (hphi : ∀ p ∈ ps, p.isPHI = true) (hnd : (ps.map Inst.id).Nodup)
    (hval : ∀ p ∈ ps, (c.phiValue p).isSome = true) :
    ∃ as vals, Run (S.Emits C) c as { c with rest := tl, vals := vals } ∧ as.reduceOption = [] ∧
      (∀ p ∈ ps, vals p.val = c.phiValue p) ∧ ∀ v, (∀ p ∈ ps, v ≠ p.val) → vals v = c.vals v := by
  induction ps generalizing c with
  | nil =>
    refine ⟨[], c.vals, ?_, rfl, fun _ h => absurd h List.not_mem_nil, fun _ _ => rfl⟩
    rw [← show c.rest = tl from hc]
    exact .nil c
  | cons p ps ih =>
    obtain ⟨x, hx⟩ := Option.isSome_iff_exists.mp (hval p (List.mem_cons_self ..))
    rw [List.map_cons, List.nodup_cons] at hnd
    have hstep := phi_step (S := S) (C := C) hc (hphi p (List.mem_cons_self ..)) hx
    obtain ⟨as, vals, hrun, hshow, hin, hout⟩ := ih (c := { c with
      rest := ps ++ tl, vals := Function.update c.vals p.val (some x) }) rfl
      (fun q hq => hphi q (List.mem_cons_of_mem _ hq)) hnd.2 fun q hq => hval q (List.mem_cons_of_mem _ hq)
    refine ⟨none :: as, vals, .cons hstep hrun, hshow, fun q hq => ?_, fun v hv => ?_⟩
    · rcases List.mem_cons.mp hq with rfl | hq
      · -- no later PHI has its number
        have hne : ∀ r ∈ ps, q.val ≠ r.val := fun r hr he => hnd.1 (by
          have hid : q.id = r.id := by injection he
          exact hid ▸ List.mem_map_of_mem hr)
        rw [hout _ hne, hx]
        exact Function.update_self ..
      · exact hin q hq
    · rw [hout v fun q hq => hv q (List.mem_cons_of_mem _ hq)]
      exact Function.update_of_ne (hv p (List.mem_cons_self ..)) _ _

theorem phis_ended (hc : c.rest = ps ++ tl) (hphi : ∀ p ∈ ps, p.isPHI = true)
    (hnone : ∃ p ∈ ps, c.phiValue p = none) :
    ∃ as d, Run (S.Emits C) c as d ∧ as.reduceOption = [] ∧ Ended (S.Emits C) d := by
  induction ps generalizing c with
  | nil =>
    obtain ⟨p, hp, -⟩ := hnone
    cases hp
  | cons p ps ih =>
    cases hx : c.phiValue p with
    | none =>
      refine ⟨[], c, .nil c, rfl, Machine.ended_none hc ?_⟩
      rw [outcome_phi S (hphi p (List.mem_cons_self ..)), hx, Option.map_none]
    | some x =>
      obtain ⟨q, hq, hnone⟩ := hnone
      have hq' : q ∈ ps := by
        rcases List.mem_cons.mp hq with rfl | hq
        · rw [hx] at hnone
          cases hnone
        · exact hq
      have hstep := phi_step (S := S) (C := C) hc (hphi p (List.mem_cons_self ..)) hx
      obtain ⟨as, d, hrun, hshow, hend⟩ := ih (c := { c with
        rest := ps ++ tl, vals := Function.update c.vals p.val (some x) }) rfl
        (fun q hq => hphi q (List.mem_cons_of_mem _ hq)) ⟨q, hq', hnone⟩
      exact ⟨none :: as, d, .cons hstep hrun, hshow, hend⟩

end PHIs

end Pairs

section Elsewhere
variable {V Mem : Type} {C C' : Code} {B : BlockId → Prop}

/-- The instructions that are left lead to blocks of `B` only. -/
def Config.Within (B : BlockId → Prop) (c : Config V Mem) : Prop :=
  ∀ i ∈ c.rest, i.op.isTerminator = true → ∀ s ∈ i.succs, B s

/-- Control stays where it started, so code elsewhere does not matter. -/
theorem sameTraces_within (hagree : ∀ n, B n → C' n = C n)
    (hclosed : ∀ n is, B n → C n = some is → ∀ i ∈ is, i.op.isTerminator = true → ∀ s ∈ i.succs, B s)
    (S : Machine V Mem) {n : BlockId} (hn : B n) (p : Option BlockId) (vals : Value → Option V) (mem : Mem) :
    SameTraces (S.Emits C) (S.Emits C') (.enter C p (some n) vals mem) (.enter C' p (some n) vals mem) := by
  have hstart : ∀ q s (vals : Value → Option V) (mem : Mem), (∀ m, s = some m → B m) →
      (Config.enter C' q s vals mem = .enter C q s vals mem) ∧ (Config.enter C q s vals mem).Within B := by
    intro q s vals mem hs
    constructor
    · cases s with
      | none => rfl
      | some m => simp only [Config.enter, Option.bind_some, hagree m (hs m rfl)]
    · intro i hi
      obtain ⟨m, is, rfl, hm, he⟩ := Config.enter_rest hi
      rw [he] at hi
      exact hclosed m is (hs m rfl) hm i hi
  have hlock : Lockstep (S.Emits C) (S.Emits C') fun c d => d = c ∧ c.Within B := by
    intro c d hR
    obtain ⟨rfl, hc⟩ := hR
    cases hrest : d.rest with
    | nil => exact .ended (Machine.ended_nil hrest) (Machine.ended_nil hrest)
    | cons i rest =>
      cases ho : S.outcome d i with
      | none => exact .ended (Machine.ended_none hrest ho) (Machine.ended_none hrest ho)
      | some o =>
        have hafter : d.after C' i rest o = d.after C i rest o ∧ (d.after C i rest o).Within B := by
          unfold Config.after
          split
          · next hterm =>
            refine hstart d.block i.succs[o.next]? (d.set i o) o.mem fun m hm => ?_
            exact hc i (by rw [hrest]; exact List.mem_cons_self ..) hterm m (List.mem_of_getElem? hm)
          · refine ⟨rfl, fun j hj => hc j ?_⟩
            rw [hrest]
            exact List.mem_cons_of_mem i hj
        refine .here ⟨_, _, d.after C' i rest o, Machine.emits_of hrest ho, ?_, hafter⟩
        rw [← hafter.1]
        exact Machine.emits_of hrest ho
  have hn' := hstart p (some n) vals mem fun m hm => Option.some.inj hm ▸ hn
  exact hlock.sameTraces (S.emits_deterministic C) (S.emits_deterministic C') hn'

end Elsewhere

end Atrox.IR
