import Atrox.IR.Execution

/-!
# Copies of code

Code that stands in a function a second time, under new names for values and blocks and
without its silent instructions, runs the way the first copy does.
-/

namespace Atrox.IR
open Lib

/-- New names: of values, of blocks that control goes to or comes from, and of the block
that takes the place of a return. -/
structure Renaming where
  value : Value → Value
  target : BlockId → BlockId
  source : BlockId → BlockId
  exit : BlockId

/-- `u` stands for `i` in the copy. A branch to the exit stands for a return. -/
inductive Copied (f : Renaming) (i u : Inst) : Prop where
  | same : i.op ≠ .ret → u.op = i.op → u.ty = i.ty → u.val = f.value i.val → u.operands = i.operands.map f.value →
      (i.isPHI = true → u.incoming = i.incoming.map f.source) →
      (i.op.isTerminator = true → u.succs = i.succs.map f.target) → Copied f i u
  | ret : i.op = .ret → i.succs = [] → u.op = .br → u.operands = [] → u.succs = [f.exit] → Copied f i u

/-- `D` has a copy of `C`. The values the copy relies on are the `known` ones. -/
structure CopyOf (C D : Code) (f : Renaming) (silent : Inst → Bool) (known : Value → Prop) : Prop where
  block : ∀ b is, C b = some is → ∃ us, D (f.target b) = some us ∧ Matching silent (Copied f) is us
  outside : ∀ b, C b = none → D (f.target b) = none
  exit : D f.exit = none
  source : ∀ b is, C b = some is → f.source b = f.target b
  edges : ∀ b is p ps, C b = some is → C p = some ps → ∀ i ∈ is, i.isPHI = true → ∀ q ∈ i.incoming,
    f.source q = f.source p → q = p
  operands : ∀ b is, C b = some is → ∀ i ∈ is, silent i = false → i.op ≠ .ret → ∀ v ∈ i.operands,
    known v ∧ (f.value v).ty = v.ty
  hidden : ∀ b is, C b = some is → ∀ i ∈ is, silent i = true → ¬known i.val ∧ ∃ c r, i.op = .call c r
  apart : ∀ b is, C b = some is → ∀ i ∈ is, silent i = false → i.op ≠ .ret → ∀ v, known v →
    f.value v = f.value i.val → v = i.val

section Matches
variable {V Mem : Type}

/-- The copy is where the code is, with the same values and the same memory. -/
structure Matches (C : Code) (f : Renaming) (silent : Inst → Bool) (known : Value → Prop)
    (c d : Config V Mem) : Prop where
  rest : Matching silent (Copied f) c.rest d.rest
  here : c.rest ≠ [] → ∃ b is, c.block = some b ∧ C b = some is ∧ ∀ i ∈ c.rest, i ∈ is
  place : ∀ b, c.block = some b → d.block = some (f.target b)
  left : c.block = none → d.block = none ∨ d.block = some f.exit
  prev : ∀ i ∈ c.rest, i.isPHI = true → ∃ p, c.prev = some p ∧ d.prev = some (f.source p) ∧
    ∀ q ∈ i.incoming, f.source q = f.source p → q = p
  entry : ∀ v, known v → d.entry (f.value v) = c.entry v
  vals : ∀ v, known v → d.vals (f.value v) = c.vals v
  mem : d.mem = c.mem

end Matches

/-- An instruction of the code and its copy. -/
def CopiedFrom (C : Code) (f : Renaming) (i u : Inst) : Prop :=
  Copied f i u ∧ ∃ b is, C b = some is ∧ i ∈ is

/- An edge that no other edge is renamed to keeps its value. -/
theorem lookup_renamed {α β α' β' : Type} [DecidableEq α] [DecidableEq α'] (f : α → α') (g : β → β') (p : α)
    (es : List (α × β)) (h : ∀ e ∈ es, f e.1 = f p → e.1 = p) :
    (es.map (Prod.map f g)).lookup (f p) = (es.lookup p).map g := by
  induction es with
  | nil => rfl
  | cons e es ih =>
    have hrest := ih fun e' he' => h e' (List.mem_cons_of_mem _ he')
    obtain ⟨q, v⟩ := e
    rw [List.map_cons, Prod.map_apply, List.lookup_cons, List.lookup_cons, hrest]
    by_cases hq : p = q
    · subst hq
      simp
    · have hf : f p ≠ f q := fun he => hq (h (q, v) (List.mem_cons_self ..) he.symm).symm
      rw [beq_eq_false_iff_ne.mpr hf, beq_eq_false_iff_ne.mpr hq]

theorem incomingValue?_renamed {f : Renaming} {i u : Inst} {p : BlockId}
    (hops : u.operands = i.operands.map f.value) (hinc : u.incoming = i.incoming.map f.source)
    (h : ∀ q ∈ i.incoming, f.source q = f.source p → q = p) :
    u.incomingValue? (f.source p) = (i.incomingValue? p).map f.value := by
  unfold Inst.incomingValue?
  rw [hops, hinc, List.zip_map]
  exact lookup_renamed f.source f.value p _ fun e he => h e.1 (List.of_mem_zip he).1

theorem incomingValue?_mem {i : Inst} {p : BlockId} {v : Value} (h : i.incomingValue? p = some v) :
    v ∈ i.operands := by
  obtain ⟨pre, post, hsplit, -⟩ := List.lookup_eq_some_iff.mp h
  have hmem : (p, v) ∈ i.incoming.zip i.operands := by rw [hsplit]; simp
  exact (List.of_mem_zip hmem).2

section Step
variable {V Mem : Type} {S : Machine V Mem} {C D : Code} {f : Renaming} {silent : Inst → Bool}
  {known : Value → Prop} {c d : Config V Mem} {i u : Inst}

/- Operands have the same types and values in the copy. -/
theorem Matches.operands (hm : Matches C f silent known c d) (hops : u.operands = i.operands.map f.value)
    (h : ∀ v ∈ i.operands, known v ∧ (f.value v).ty = v.ty) :
    (u.operands.map fun v => (v.ty, d.vals v)) = i.operands.map fun v => (v.ty, c.vals v) := by
  rw [hops, List.map_map]
  apply List.map_congr_left
  intro v hv
  obtain ⟨hk, hty⟩ := h v hv
  simp only [Function.comp_apply, hty, hm.vals v hk]

/- An instruction and its copy do the same. -/
theorem Matches.outcome (hm : Matches C f silent known c d) (hi : i ∈ c.rest)
    (h : i.op ≠ .ret → ∀ v ∈ i.operands, known v ∧ (f.value v).ty = v.ty) (hu : Copied f i u) :
    S.outcome d u = S.outcome c i := by
  cases hu with
  | ret hop _ huop huops _ => rw [S.outcome_ret hop, S.outcome_uncondBr huop huops, hm.mem]
  | same hret hop hty hval hops hinc hsuccs =>
    replace h := h hret
    have hvals := hm.operands hops h
    have hnil : u.operands = [] ↔ i.operands = [] := by rw [hops, List.map_eq_nil_iff]
    unfold Machine.outcome
    rw [hop, hty, hvals, hm.mem]
    cases hiop : i.op with
    | phi =>
      have hphi : i.isPHI = true := by simp [Inst.isPHI, hiop]
      obtain ⟨p, hp, hdp, hedge⟩ := hm.prev i hi hphi
      simp only [hp, hdp, Option.bind_some, incomingValue?_renamed hops (hinc hphi) hedge]
      cases hv : i.incomingValue? p with
      | none => rfl
      | some v => simp only [Option.map_some, Option.bind_some, hm.entry v (h v (incomingValue?_mem hv)).1]
    | load =>
      have hhead : u.operands.head?.bind d.vals = i.operands.head?.bind c.vals := by
        rw [hops]
        cases hl : i.operands with
        | nil => rfl
        | cons v vs =>
          have hk := h v (by rw [hl]; exact List.mem_cons_self ..)
          simp only [List.map_cons, List.head?_cons, Option.bind_some, hm.vals v hk.1]
      simp only [hhead]
    | br => simp only [hnil]
    | _ => rfl

theorem Matches.set (hc : CopyOf C D f silent known) (hm : Matches C f silent known c d) {b : BlockId}
    {is : List Inst} (hb : C b = some is) (hi : i ∈ is) (hsil : silent i = false) (hu : Copied f i u)
    {o : Outcome V Mem} (ho : S.outcome c i = some o) : ∀ v, known v → d.set u o (f.value v) = c.set i o v := by
  intro v hv
  unfold Config.set
  cases hx : o.value with
  | none => exact hm.vals v hv
  | some x =>
    cases hu with
    | ret hop =>
      rw [S.outcome_ret hop] at ho
      cases ho
      cases hx
    | same hret hop hty hval hops hinc hsuccs =>
      dsimp only
      rw [hval]
      by_cases he : v = i.val
      · rw [he, Function.update_self, Function.update_self]
      · have hne : f.value v ≠ f.value i.val := fun h => he (hc.apart b is hb i hi hsil hret v hv h)
        rw [Function.update_of_ne hne, Function.update_of_ne he, hm.vals v hv]

/- At the start of a block, or outside. -/
theorem Matches.enter (hc : CopyOf C D f silent known) {prev prev' s : Option BlockId}
    (hprev : ∀ b is, s = some b → C b = some is → ∀ i ∈ is, i.isPHI = true → ∃ p, prev = some p ∧
      prev' = some (f.source p) ∧ ∀ q ∈ i.incoming, f.source q = f.source p → q = p)
    {vals vals' : Value → Option V} (hvals : ∀ v, known v → vals' (f.value v) = vals v) (mem : Mem) :
    Matches C f silent known (Config.enter C prev s vals mem) (Config.enter D prev' (s.map f.target) vals' mem) := by
  have hrest : Matching silent (Copied f) ((s.bind C).getD []) (((s.map f.target).bind D).getD []) := by
    cases s with
    | none => exact .nil
    | some b =>
      simp only [Option.bind_some, Option.map_some]
      cases hb : C b with
      | none =>
        rw [hc.outside b hb]
        exact .nil
      | some is =>
        obtain ⟨us, hus, hmatch⟩ := hc.block b is hb
        rw [hus]
        exact hmatch
  refine ⟨hrest, ?_, ?_, ?_, ?_, hvals, hvals, rfl⟩
  · intro hne
    obtain ⟨i, hi⟩ := List.exists_mem_of_ne_nil _ hne
    obtain ⟨b, is, hs, hb, he⟩ := Config.enter_rest hi
    refine ⟨b, is, hs, hb, fun j hj => ?_⟩
    rw [← he]
    exact hj
  · intro b hb
    have hb' : s = some b := hb
    rw [hb']
    rfl
  · intro hs
    have hs' : s = none := hs
    rw [hs']
    exact .inl rfl
  · intro i hi hphi
    obtain ⟨b, is, hs, hb, he⟩ := Config.enter_rest hi
    refine hprev b is hs hb i ?_ hphi
    rw [← he]
    exact hi

/- Control goes along an edge of the code, or out of it. -/
theorem Matches.jump (hc : CopyOf C D f silent known) {p : BlockId} {ps : List Inst} (hp : C p = some ps)
    (s : Option BlockId) {vals vals' : Value → Option V} (hvals : ∀ v, known v → vals' (f.value v) = vals v)
    (mem : Mem) :
    Matches C f silent known (Config.enter C (some p) s vals mem)
      (Config.enter D (some (f.target p)) (s.map f.target) vals' mem) :=
  Matches.enter hc (fun b is _ hb i hi hphi =>
    ⟨p, rfl, congrArg some (hc.source p ps hp).symm, hc.edges b is p ps hb hp i hi hphi⟩) hvals mem

/- One instruction that has a copy, and its copy. -/
theorem Matches.after (hc : CopyOf C D f silent known) (hm : Matches C f silent known c d) {rest us : List Inst}
    (hrest : c.rest = i :: rest) (hsil : silent i = false) (hu : Copied f i u)
    (hus : Matching silent (Copied f) rest us) {o : Outcome V Mem} (ho : S.outcome c i = some o) :
    Matches C f silent known (c.after C i rest o) (d.after D u us o) := by
  obtain ⟨b, is, hblock, hb, hsub⟩ := hm.here (by rw [hrest]; exact List.cons_ne_nil _ _)
  have hi : i ∈ is := hsub i (by rw [hrest]; exact List.mem_cons_self ..)
  have hvals := hm.set hc hb hi hsil hu ho
  have hplace := hm.place b hblock
  unfold Config.after
  cases hu with
  | ret hop hsuccs huop huops husuccs =>
    rw [S.outcome_ret hop] at ho
    cases ho
    have hterm : Opcode.ret.isTerminator = true := rfl
    have hterm' : Opcode.br.isTerminator = true := rfl
    rw [hop, huop, if_pos hterm, if_pos hterm', hsuccs, husuccs, hblock, hplace]
    refine ⟨?_, fun h => absurd rfl h, (fun s hs => by cases hs), fun _ => .inr rfl, (fun j hj => by cases hj),
      hvals, hvals, rfl⟩
    have hnil : (Config.enter D (some (f.target b)) (some f.exit) (d.set u ⟨none, c.mem, 0⟩) c.mem).rest = [] := by
      simp only [Config.enter, Option.bind_some, hc.exit, Option.getD_none]
    change Matching silent (Copied f) [] (Config.enter D (some (f.target b)) (some f.exit) _ c.mem).rest
    rw [hnil]
    exact .nil
  | same _ hop hty hval hops hinc hsuccs =>
    rw [hop]
    split
    · next hterm =>
      rw [hblock, hplace, hsuccs hterm, List.getElem?_map]
      exact Matches.jump hc hb _ hvals o.mem
    · refine ⟨hus, fun _ => ⟨b, is, hblock, hb, fun j hj => hsub j ?_⟩, hm.place, hm.left, fun j hj => hm.prev j ?_,
        hm.entry, hvals, rfl⟩
      · rw [hrest]
        exact List.mem_cons_of_mem _ hj
      · rw [hrest]
        exact List.mem_cons_of_mem _ hj

/- One silent instruction. -/
theorem Matches.skip (hc : CopyOf C D f silent known) (hS : ∀ j, silent j = true → S.Harmless j.op)
    (hm : Matches C f silent known c d) {rest : List Inst} (hrest : c.rest = i :: rest)
    (hsil : silent i = true) : ∃ o, S.outcome c i = some o ∧ Matches C f silent known (c.after C i rest o) d := by
  obtain ⟨b, is, hblock, hb, hsub⟩ := hm.here (by rw [hrest]; exact List.cons_ne_nil _ _)
  have hi : i ∈ is := hsub i (by rw [hrest]; exact List.mem_cons_self ..)
  obtain ⟨hhid, g, r, hop⟩ := hc.hidden b is hb i hi hsil
  obtain ⟨o, ho, hmem⟩ := hS i hsil i.ty (i.operands.map fun v => (v.ty, c.vals v)) c.mem
  have hterm : i.op.isTerminator = false := by rw [hop]; rfl
  refine ⟨o, (S.outcome_call hop).trans ho, ?_⟩
  rw [Config.after, hterm]
  simp only [Bool.false_eq_true, if_false]
  have hsub' : ∀ j ∈ rest, j ∈ c.rest := fun j hj => by rw [hrest]; exact List.mem_cons_of_mem _ hj
  refine ⟨?_, fun _ => ⟨b, is, hblock, hb, fun j hj => hsub j (hsub' j hj)⟩, hm.place, hm.left,
    fun j hj => hm.prev j (hsub' j hj), hm.entry, fun v hv => ?_, hm.mem.trans hmem.symm⟩
  · have h := hm.rest
    rw [hrest, Matching, List.filter_cons_of_neg (by simp [hsil])] at h
    exact h
  · have hne : v ≠ i.val := fun he => hhid (he ▸ hv)
    unfold Config.set
    cases o.value with
    | none => exact hm.vals v hv
    | some x =>
      dsimp only
      rw [Function.update_of_ne hne]
      exact hm.vals v hv

end Step

section Bisim
variable {V Mem : Type} {S : Machine V Mem} {C D : Code} {f : Renaming} {silent : Inst → Bool}
  {known : Value → Prop}

/- The silent instructions in front of one that has a copy run. -/
theorem Matches.skips (hc : CopyOf C D f silent known) (hS : ∀ j, silent j = true → S.Harmless j.op)
    {d : Config V Mem} (pre : List Inst) (hpre : ∀ x ∈ pre, silent x = true) {rest : List Inst} {c : Config V Mem}
    (hm : Matches C f silent known c d) (hrest : c.rest = pre ++ rest) :
    ∃ c', S.Runs C c pre c' ∧ Matches C f silent known c' d ∧ c'.rest = rest := by
  induction pre generalizing c with
  | nil => exact ⟨c, .nil c, hm, hrest⟩
  | cons x pre ih =>
    have hx := hpre x (List.mem_cons_self ..)
    obtain ⟨o, ho, hm'⟩ := hm.skip hc hS hrest hx
    have hafter : (c.after C x (pre ++ rest) o).rest = pre ++ rest := by
      obtain ⟨b, is, -, hb, hsub⟩ := hm.here (by rw [hrest]; exact List.cons_ne_nil _ _)
      obtain ⟨-, g, r, hop⟩ := hc.hidden b is hb x (hsub x (by rw [hrest]; exact List.mem_cons_self ..)) hx
      rw [Config.after, hop]
      rfl
    obtain ⟨c', hrun, hm'', hrest'⟩ := ih (fun y hy => hpre y (List.mem_cons_of_mem _ hy)) hm' hafter
    exact ⟨c', .cons hrest ho rfl hrun, hm'', hrest'⟩

/-- Code and copy do the same, one instruction after the other. -/
theorem CopyOf.bisim (hc : CopyOf C D f silent known) (hS : ∀ j, silent j = true → S.Harmless j.op) :
    Bisim (fun (c : Config V Mem) i c' => S.step C c = some (i, c')) (fun d u d' => S.step D d = some (u, d')) silent
      (CopiedFrom C f) (Matches C f silent known) where
  skip := by
    intro c d i c' hm hstep hsil
    obtain ⟨rest, o, hrest, ho, rfl⟩ := Machine.step_eq.mp hstep
    obtain ⟨o', ho', hm'⟩ := hm.skip hc hS hrest hsil
    obtain rfl := Option.some.inj (ho.symm.trans ho')
    exact hm'
  forth := by
    intro c d i c' hm hstep hsil
    obtain ⟨rest, o, hrest, ho, rfl⟩ := Machine.step_eq.mp hstep
    have hi : i ∈ c.rest := by rw [hrest]; exact List.mem_cons_self ..
    obtain ⟨b, is, -, hb, hsub⟩ := hm.here (List.ne_nil_of_mem hi)
    have hin : ∃ b is, C b = some is ∧ i ∈ is := ⟨b, is, hb, hsub i hi⟩
    have hall := hm.rest
    rw [hrest, Matching, List.filter_cons_of_pos (by simp [hsil])] at hall
    obtain ⟨u, us, hu, hus, hd⟩ := List.forall₂_cons_left_iff.mp hall
    have ho' := (hm.outcome (S := S) hi (hc.operands b is hb i (hsub i hi) hsil) hu).trans ho
    exact ⟨u, d.after D u us o, Machine.step_eq.mpr ⟨us, o, hd, ho', rfl⟩, ⟨hu, hin⟩,
      hm.after hc hrest hsil hu hus ho⟩
  back := by
    intro c d u d' hm hstep
    obtain ⟨us, o, hd, ho, rfl⟩ := Machine.step_eq.mp hstep
    have hall := hm.rest
    rw [hd, Matching] at hall
    obtain ⟨i, is', hu, hus, hfilter⟩ := List.forall₂_cons_right_iff.mp hall
    obtain ⟨pre, rest, hsplit, hpre, hsil, rfl⟩ := List.filter_eq_cons_iff.mp hfilter
    have hpre' : ∀ x ∈ pre, silent x = true := fun x hx => by simpa using hpre x hx
    have hsil' : silent i = false := by simpa using hsil
    obtain ⟨c', hrun, hm', hrest⟩ := Matches.skips hc hS pre hpre' hm hsplit
    have hi : i ∈ c'.rest := by rw [hrest]; exact List.mem_cons_self ..
    obtain ⟨b, is, -, hb, hsub⟩ := hm'.here (List.ne_nil_of_mem hi)
    have ho' := (hm'.outcome (S := S) hi (hc.operands b is hb i (hsub i hi) hsil') hu).symm.trans ho
    exact ⟨pre, i, _, hpre', hsil', hrun.append (.single (Machine.step_eq.mpr ⟨rest, o, hrest, ho', rfl⟩)),
      ⟨hu, b, is, hb, hsub i hi⟩, hm'.after hc hrest hsil' hu hus ho'⟩

end Bisim

end Atrox.IR
