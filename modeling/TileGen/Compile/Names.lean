/-
The names of the kernel list are final. Every name a kernel writes, and every name a contraction
or elementwise kernel reads, is left as it is by the `var_rewrites` that `Compile` returns
(`compile_kernel_names_fixed`): the runtime can bind the kernels' buffers by these names directly.

The driver looks each name up when it builds a kernel, so the name is no key of the rewrites then.
A later rewrite is keyed by the output of a reshape or ident that a later fused set elides, an op
not yet handled. Every name a kernel mentions is defined, if at all, by an op already handled or
by a constant: the kernel's own ops, the ops before its root, and the targets of earlier rewrites.

`Fixed` states this of a name before op `i`, and `NameInv` of every name of the kernels so far.
-/
import TileGen.Compile.Dataflow

namespace TileGen

/-! ## Fixed names -/

section Fixed

variable (prog : Program)

/-- A name is fixed before op `i`: no rewrite has it as a key, and the op defining it, if any, is
settled, so that no later step makes it one. -/
def Fixed (i : Nat) (st : CompileState) (n : String) : Prop :=
  st.varRewrites.entries.lookup n = none ∧
    ∀ d, (UseDef.ofProgram prog).opDefs n = some d → Settled prog i st.computed d

variable {prog} {vars : Bindings} {i : Nat} {st : CompileState}

theorem Fixed.lookup_eq {n : String} (h : Fixed prog i st n) : st.varRewrites.lookup n = n :=
  VarRewrites.walk_of_none h.1 _

/-- Settledness reads only tags, which the driver's program shares with the input. -/
theorem RunInv.settled_iff (hinv : RunInv prog vars i st) {e : Nat} :
    Settled st.prog i st.computed e ↔ Settled prog i st.computed e := by
  simp only [Settled, hinv.tag]

/-- A looked-up name is fixed when the name it was looked up from is defined, if at all, by a
settled op: the rewrites are flat and their targets settled. -/
theorem RunInv.fixed_lookup (hinv : RunInv prog vars i st) {x : String}
    (hx : ∀ d, (UseDef.ofProgram prog).opDefs x = some d → Settled prog i st.computed d) :
    Fixed prog i st (st.varRewrites.lookup x) := by
  rw [VarRewrites.lookup_of_flat hinv.rewrites.flat]
  cases hl : st.varRewrites.entries.lookup x with
  | none => exact ⟨hl, hx⟩
  | some v =>
    obtain ⟨_, -, -, -, hv⟩ := hinv.rewrites.entry x v (mem_of_lookup_eq_some hl)
    exact ⟨hinv.rewrites.flat x v (mem_of_lookup_eq_some hl), fun e he => hinv.settled_iff.1 (hv e he).1⟩

/-- The output of an op that a step handles, and that was not computed before, is fixed after a
step that keeps the rewrites. -/
theorem RunInv.fixed_fresh (hinv : RunInv prog vars i st) {st' : CompileState}
    (hvr : st'.varRewrites = st.varRewrites) {n : String} {d : Nat} (hd : (UseDef.ofProgram prog).opDefs n = some d)
    (hdC : d ∉ st.computed) (hset : d = i ∨ d ∈ st'.computed) : Fixed prog (i + 1) st' n :=
  ⟨hvr ▸ hinv.lookup_of_not_computed hd hdC, fun d' hd' => by
    obtain rfl := Option.some.inj (hd.symm.trans hd')
    exact hset.imp (fun h => by omega) .inl⟩

end Fixed

/-! ## The kernel `ContractionWrap` builds -/

theorem contractionWrap_mem {vars : Bindings} {c : Option Op} {flat : FlatContraction} {vr : VarRewrites}
    {wsr : List String} {k : Option Kernel} (h : contractionWrap vars c flat vr wsr = .ok k) {k' : Kernel}
    (hk : k' ∈ k.toList) : ∃ ki, k' = .contraction ki ∧ contractionWrap vars c flat vr wsr = .ok (some (.contraction ki)) := by
  rcases contractionWrap_eq_ok h with ⟨rfl, -⟩ | ⟨ki, rfl, -⟩
  · cases hk
  · exact ⟨ki, List.mem_singleton.1 hk, h⟩

/-! ## The walk over a fused set -/

section Walk

variable {prog : Program} {vars : Bindings} {inputs outputs : List String} {i : Nat} {st : CompileState}
  {U : List Nat}

/-- One op of the walk keeps every post-op input defined, if at all, by a settled op: an input
from outside the set is read by a member, and a target of a local rewrite that no member defines
is the target of a driver rewrite or read by a member. -/
theorem postInputs_settled_step (hinv : RunInv prog vars i st) (hi : i < prog.ops.length)
    (hm : Members st.prog vars i st.computed (UseDef.ofProgram prog) U) {done : List Nat} {ws ws' : WalkState}
    {u : Nat} (hu : u ∈ U) (hdone : ∀ x ∈ done, x ∈ U)
    (hw : WalkInv st.prog (UseDef.ofProgram prog) vars i st.computed st.varRewrites done ws)
    (hq : ∀ n ∈ ws.postContractionInputs, ∀ d, (UseDef.ofProgram prog).opDefs n = some d →
      Settled st.prog i st.computed d)
    (h : unifyOp st.prog (UseDef.ofProgram prog) vars inputs outputs U ws u = .ok ws') :
    ∀ n ∈ ws'.postContractionInputs, ∀ d, (UseDef.ofProgram prog).opDefs n = some d →
      Settled st.prog i st.computed d := by
  rcases unifyOp_eq_ok h with ⟨-, rfl⟩ | ⟨-, -, -, -, -, rfl⟩ | ⟨-, rfl⟩
  · exact hq
  · exact hq
  intro n hn d hd
  simp only [emitPostOp, mem_nameInsertAll, List.mem_filter, List.mem_map] at hn
  rcases hn with hn | ⟨⟨x, hx, rfl⟩, hro⟩
  · exact hq n hn d hd
  have hout := (readsOutside_eq_true.1 hro).2
  cases hl : ws.localRewrites.lookup x with
  | some t =>
    simp only [hl, Option.getD_some] at hd hout
    obtain ⟨_, -, -, -, ht⟩ :=
      hw.entry x t (by rw [hw.entries]; exact List.mem_append_left _ (mem_of_lookup_eq_some hl))
    exact (ht d hd).1.resolve_right fun hdd => hout d hd (hdone d hdd)
  | none =>
    simp only [hl, Option.getD_none] at hd hout
    exact hm.settled_of_input hinv hi hu hx hd (hout d hd)

end Walk

/-! ## The run invariant -/

section Names

variable (prog : Program) (vars : Bindings) (inputs outputs : List String)

/-- The driver's state before op `i`: every name the kernels so far write, and every name their
contraction and elementwise kernels read, is fixed. -/
structure NameInv (i : Nat) (st : CompileState) : Prop where
  writes : ∀ k ∈ st.kernels, ∀ n ∈ k.writes, Fixed prog i st n
  reads : ∀ ki, .contraction ki ∈ st.kernels → ∀ n ∈ ki.inputs, Fixed prog i st n

variable {prog vars inputs outputs}

theorem NameInv.start : NameInv prog 0 ⟨prog, [], [], {}⟩ :=
  ⟨fun _ h => absurd h (List.not_mem_nil _), fun _ h => absurd h (List.not_mem_nil _)⟩

section Steps

variable {i : Nat} {st : CompileState} (hN : NameInv prog i st)
include hN

/-- A step that computes more ops and appends kernels keeps the invariant when it makes no name
a key that is defined, if at all, by a settled op, and the new kernels mention fixed names. -/
theorem NameInv.advance {st' : CompileState} (hC : ∀ d ∈ st.computed, d ∈ st'.computed)
    (hkeys : ∀ n, st.varRewrites.entries.lookup n = none →
      (∀ d, (UseDef.ofProgram prog).opDefs n = some d → Settled prog i st.computed d) →
      st'.varRewrites.entries.lookup n = none)
    {ks : List Kernel} (hks : st'.kernels = st.kernels ++ ks)
    (hw : ∀ k ∈ ks, ∀ n ∈ k.writes, Fixed prog (i + 1) st' n)
    (hr : ∀ ki, .contraction ki ∈ ks → ∀ n ∈ ki.inputs, Fixed prog (i + 1) st' n) :
    NameInv prog (i + 1) st' := by
  have hold : ∀ n, Fixed prog i st n → Fixed prog (i + 1) st' n := fun n h =>
    ⟨hkeys n h.1 h.2, fun d hd => (h.2 d hd).mono (Nat.le_succ i) hC⟩
  refine ⟨fun k hk n hn => ?_, fun ki hki n hn => ?_⟩
  · rcases List.mem_append.1 (hks ▸ hk) with hk | hk
    exacts [hold n (hN.writes k hk n hn), hw k hk n hn]
  · rcases List.mem_append.1 (hks ▸ hki) with hki | hki
    exacts [hold n (hN.reads ki hki n hn), hr ki hki n hn]

/-- A step that changes neither the rewrites nor the kernels. -/
theorem NameInv.pass {st' : CompileState} (hC : ∀ d ∈ st.computed, d ∈ st'.computed)
    (hvr : st'.varRewrites = st.varRewrites) (hks : st'.kernels = st.kernels) : NameInv prog (i + 1) st' :=
  hN.advance hC (fun _ h _ => hvr ▸ h) (by rw [hks, List.append_nil]) (fun _ h => absurd h (List.not_mem_nil _))
    fun _ h => absurd h (List.not_mem_nil _)

/-- A special function other than the prng ones writes its own output. -/
theorem NameInv.special (hwf : prog.WF) (hinv : RunInv prog vars i st) (hi : i < prog.ops.length)
    (hiC : i ∉ st.computed) :
    NameInv prog (i + 1) { st with kernels := st.kernels ++ [.special (st.prog.op i) []] } :=
  hN.advance (fun _ h => h) (fun _ h _ => h) rfl (fun k hk n hn => by
    obtain rfl := List.mem_singleton.1 hk
    obtain rfl := List.mem_singleton.1 hn
    exact hinv.fixed_fresh rfl (hinv.opDefs_output hwf (hinv.length ▸ hi)) hiC (.inl rfl))
    fun _ h => by simp at h

/-- A contraction whose output needs zeroing: the prelude and the kernel write its output, and the
kernel reads the contraction's inputs, defined before it. -/
theorem NameInv.zero (hwf : prog.WF)
    (hspecs : ∀ k < prog.ops.length, (prog.op k).tag = .contraction → ∀ x ∈ (prog.op k).specs.tail,
      x ∈ (prog.op k).inputs)
    (hinv : RunInv prog vars i st) (hc : CheckInv prog vars i st) (hi : i < prog.ops.length)
    (hct : (st.prog.op i).tag = .contraction) {pre : Kernel} (hpre : pre.writes = [(st.prog.op i).output])
    (hpre' : ∀ ki, pre ≠ .contraction ki) {flat : FlatContraction} (hpoi : flat.postOpInputs = [])
    (hko : flat.kernelOutputs = [(st.prog.op i).output]) {k : Option Kernel}
    (h : contractionWrap vars (some (st.prog.op i)) flat st.varRewrites [] = .ok k)
    (hinv' : RunInv prog vars (i + 1) { st with kernels := st.kernels ++ pre :: k.toList }) :
    NameInv prog (i + 1) { st with kernels := st.kernels ++ pre :: k.toList } := by
  have hout : Fixed prog (i + 1) { st with kernels := st.kernels ++ pre :: k.toList } (st.prog.op i).output :=
    hinv.fixed_fresh rfl (hinv.opDefs_output hwf (hinv.length ▸ hi)) (hinv.not_computed_of_contraction hct) (.inl rfl)
  refine hN.advance (fun _ h => h) (fun _ h _ => h) rfl (fun k' hk n hn => ?_) fun ki hki n hn => ?_
  · rcases List.mem_cons.1 hk with rfl | hk
    · rw [hpre, List.mem_singleton] at hn
      exact hn ▸ hout
    · obtain ⟨ki, rfl, hki⟩ := contractionWrap_mem h hk
      rw [Kernel.writes, (contractionWrap_kernel hki).1, hko, List.mem_singleton] at hn
      exact hn ▸ hout
  · obtain ⟨ki', hki', hw⟩ := contractionWrap_mem h ((List.mem_cons.1 hki).resolve_left (hpre' ki).symm)
    cases hki'
    rcases (contractionWrap_kernel hw).2 n hn with ⟨op, hop, x, hx, -, rfl⟩ | ⟨x, hx, -⟩
    · obtain rfl : st.prog.op i = op := Option.some.inj (Option.mem_def.1 hop)
      have hpi : st.prog.op i = prog.op i := hc.op_eq_of_contraction hinv.opsWF hct
      have hxin : x ∈ (st.prog.op i).inputs := hpi ▸ hspecs i hi (hpi ▸ hct) x (hpi ▸ hx)
      exact hinv'.fixed_lookup fun d hd => .inl (by have := hinv.fits.defBefore i x d hxin hd; omega)
    · rw [hpoi] at hx
      cases hx

/-- A `prng_step`: its special kernel, if any, writes the step's output and those of its
companions, all handled now; the ident rewrite leaves kernels and rewrites as they are. -/
theorem NameInv.prng (hwf : prog.WF) (hnamed : ∀ op ∈ prog.ops, op.output ≠ "") (hinv : RunInv prog vars i st)
    (hi : i < prog.ops.length) (hiC : i ∉ st.computed) {st' : CompileState}
    (h : prngStep st i (st.prog.op i) = .ok st') : NameInv prog (i + 1) st' := by
  have hsf : ScanFound st.prog i st.computed _ := prngScan_found fun j _ hj => by
    rw [hinv.output]; exact Program.op_named hnamed (hinv.length ▸ hj)
  generalize hscan : List.foldl (prngScan st.prog (st.prog.op i).output) { computed := st.computed }
    (List.range' (i + 1) (st.prog.ops.length - (i + 1))) = scan at hsf
  have hmark : ∀ d ∈ st.computed, d ∈ scan.computed := fun d hd => (hsf.marks d).2 (.inl hd)
  rcases prngStep_eq_ok hscan h with ⟨-, -, rfl⟩ | ⟨-, hs, rfl⟩ | ⟨hv, hs, rfl⟩
  · exact hN.pass hmark rfl rfl
  · -- the state op, rewritten to an ident, is the one companion not computed
    obtain ⟨his, -, hsr, -⟩ := hsf.state hs
    have hsC : scan.soutPos ∉ st.computed := hinv.companion_not_computed hwf hi (.inl hsr) his.le
    exact hN.pass (fun d hd => (List.mem_erase_of_ne fun h : d = scan.soutPos => hsC (h ▸ hd)).2 (hmark d hd)) rfl rfl
  · refine hN.advance hmark (fun _ h _ => h) rfl (fun k hk n hn => ?_) fun _ h => by simp at h
    obtain rfl := List.mem_singleton.1 hk
    simp only [Kernel.writes, List.mem_cons, List.not_mem_nil, or_false] at hn
    rcases hn with rfl | rfl | rfl
    · exact hinv.fixed_fresh (by rfl) (hinv.opDefs_output hwf (hinv.length ▸ hi)) hiC (.inl rfl)
    · obtain ⟨his, hsn, hsr, hso⟩ := hsf.state hs
      rw [hso]
      exact hinv.fixed_fresh (by rfl) (hinv.opDefs_output hwf hsn) (hinv.companion_not_computed hwf hi (.inl hsr) his.le)
        (.inr ((hsf.marks _).2 (.inr ⟨his, hsn, .inl hsr⟩)))
    · obtain ⟨j, hij, hjn, hjr, hvo⟩ := hsf.value hv
      rw [hvo]
      exact hinv.fixed_fresh (by rfl) (hinv.opDefs_output hwf hjn) (hinv.companion_not_computed hwf hi (.inr hjr) hij.le)
        (.inr ((hsf.marks _).2 (.inr ⟨hij, hjn, .inr hjr⟩)))

/-- A step through `DoUnification`. The walk makes keys only of its members' outputs, none of
them settled before; the kernel writes members' outputs, looked up, and reads the contraction's
inputs and post-op inputs, looked up, all defined by members or by settled ops. -/
theorem NameInv.unify (hwf : prog.WF)
    (hspecs : ∀ k < prog.ops.length, (prog.op k).tag = .contraction → ∀ x ∈ (prog.op k).specs.tail,
      x ∈ (prog.op k).inputs)
    (hinv : RunInv prog vars i st) (hc : CheckInv prog vars i st) (hi : i < prog.ops.length) (hiC : i ∉ st.computed)
    (hspec : (st.prog.op i).isSpecial = false) (hroot : (st.prog.op i).tag ≠ .constant) {c : Option Op}
    {flat0 flat : FlatContraction} {outPoly : List Polynomial} {C : List Nat} {vr : VarRewrites}
    {wsr : List String} {k : Option Kernel} (hpo : flat0.postOps = []) (hpoi : flat0.postOpInputs = [])
    (hko : flat0.kernelOutputs = []) (hcop : ∀ op ∈ c, op = st.prog.op i ∧ (st.prog.op i).tag = .contraction)
    (h1 : doUnification st.prog (UseDef.ofProgram prog) vars inputs outputs flat0 st.computed st.varRewrites [] i
      outPoly = .ok (flat, C, vr, wsr))
    (h2 : contractionWrap vars c flat vr wsr = .ok k)
    (hinv' : RunInv prog vars (i + 1) { st with computed := C, varRewrites := vr, kernels := st.kernels ++ k.toList }) :
    NameInv prog (i + 1) { st with computed := C, varRewrites := vr, kernels := st.kernels ++ k.toList } := by
  have hr : i < st.prog.ops.length := hinv.length ▸ hi
  have hm : Members st.prog vars i st.computed (UseDef.ofProgram prog)
      (connectedComponents st.prog vars i st.computed (UseDef.ofProgram prog)) :=
    (connectedComponents_run hinv.fits hr).2.toMembers
  obtain ⟨ws, accs, hw, hq, hacc, rfl, rfl, rfl, rfl⟩ := doUnification_eq_ok_keep hinv.fits
    (fun _ hu => hinv.opDefs_output hwf hu) (fun _ _ h => hinv.output_of_opDefs h) hr hiC hinv.rewrites hpo
    (fun ws => ∀ n ∈ ws.postContractionInputs, ∀ d, (UseDef.ofProgram prog).opDefs n = some d →
      Settled st.prog i st.computed d)
    (fun hu hdone hw hq h => postInputs_settled_step hinv hi hm hu hdone hw hq h)
    (fun _ h => absurd h (List.not_mem_nil _)) h1
  generalize connectedComponents st.prog vars i st.computed (UseDef.ofProgram prog) = U at hm hw hq h2 hinv' ⊢
  have hUC : ∀ u ∈ U, u ∉ st.computed := fun u hu => (fused_fresh hiC hspec hm u hu).1
  -- a name defined by a member or a settled op, looked up, is fixed
  have hfix : ∀ x, (∀ d, (UseDef.ofProgram prog).opDefs x = some d → Settled st.prog i st.computed d ∨ d ∈ U) →
      Fixed prog (i + 1) _ (ws.varRewrites.lookup x) := fun x hx =>
    hinv'.fixed_lookup fun d hd => (hx d hd).elim
      (fun h => (hinv.settled_iff.1 h).mono (Nat.le_succ i) fun _ h => mem_setInsertAll.2 (.inl h))
      (fun h => .inr (.inl (mem_setInsertAll.2 (.inr h))))
  refine hN.advance (fun _ h => mem_setInsertAll.2 (.inl h)) (fun n hn hset => ?_) rfl
    (fun k' hk n hn' => ?_) fun ki hki n hn' => ?_
  · -- the walk's keys are its members' outputs, none of them settled
    show ws.varRewrites.entries.lookup n = none
    rw [hw.entries, List.lookup_append, Option.or_eq_none]
    refine ⟨?_, hn⟩
    cases hl : ws.localRewrites.lookup n with
    | none => rfl
    | some w =>
      obtain ⟨d, hdU, rfl⟩ := hw.localKeys n w (mem_of_lookup_eq_some hl)
      have hb := (hm.sound d hdU).bounds hinv.fits hr
      exact absurd hdU (hm.not_mem_of_settled hinv.fits hr hroot hUC
        (hinv.settled_iff.2 (hset d (hinv.opDefs_output hwf hb.2))))
  · obtain ⟨ki, rfl, hki⟩ := contractionWrap_mem h2 hk
    rw [Kernel.writes, (contractionWrap_kernel hki).1] at hn'
    simp only [hko, List.nil_append] at hn'
    obtain ⟨u, hu, rfl⟩ := of_mem_kernelOutputs hn'
    exact hfix _ fun d hd => .inr (Option.some.inj ((hinv.opDefs_output hwf
      ((hm.sound u hu).bounds hinv.fits hr).2).symm.trans hd) ▸ hu)
  · obtain ⟨ki', hki', hw'⟩ := contractionWrap_mem h2 hki
    cases hki'
    rcases (contractionWrap_kernel hw').2 n hn' with ⟨op, hop, x, hx, -, rfl⟩ | ⟨x, hx, rfl⟩
    · -- an input of the contraction root, defined before it
      obtain ⟨rfl, hct⟩ := hcop op hop
      have hpi : st.prog.op i = prog.op i := hc.op_eq_of_contraction hinv.opsWF hct
      have hxin : x ∈ (st.prog.op i).inputs := hpi ▸ hspecs i hi (hpi ▸ hct) x (hpi ▸ hx)
      exact hfix x fun d hd => .inl (.inl (hinv.fits.defBefore i x d hxin hd))
    · -- a post-op input
      rw [hpoi, List.nil_append, (postOpAccesses_eq_ok hacc).1] at hx
      exact hfix x fun d hd => .inl (hq x hx d hd)

/-- One op of the driver keeps the invariant. -/
theorem NameInv.step (hwf : prog.WF) (hnamed : ∀ op ∈ prog.ops, op.output ≠ "")
    (hspecs : ∀ k < prog.ops.length, (prog.op k).tag = .contraction → ∀ x ∈ (prog.op k).specs.tail,
      x ∈ (prog.op k).inputs)
    {lower : Op → FlatContraction × List Polynomial} (hlower : LoweringWF lower)
    (hpoi : ∀ op, (lower op).1.postOpInputs = []) (hko : ∀ op, (lower op).1.kernelOutputs = [])
    (hinv : RunInv prog vars i st) (hc : CheckInv prog vars i st) (hi : i < prog.ops.length) {st' : CompileState}
    (h : compileStep (UseDef.ofProgram prog) vars inputs outputs lower st i = .ok st') :
    NameInv prog (i + 1) st' := by
  have hinv' := (hinv.step hwf hlower hi h).1
  rcases compileStep_cases h with ⟨k, hct, hk, rfl⟩ | ⟨c, flat0, outPoly, flat, C, vr, wsr, k, hroot, h1, hk, rfl⟩ |
      ⟨-, -, rfl⟩ | ⟨-, -, hic, -, -, -, -, rfl⟩ | ⟨-, hic, -, h⟩
  · exact hN.zero hwf hspecs hinv hc hi hct (by split <;> rfl) (by split <;> simp) (by exact hpoi _)
      (by simp [hko]) hk hinv'
  · rcases hroot with ⟨rfl, hct, -, rfl, rfl⟩ | ⟨rfl, hfun, hic, hsp, rfl, rfl⟩
    · exact hN.unify hwf hspecs hinv hc hi (hinv.not_computed_of_contraction hct)
        (hinv.opsWF.isSpecial_of_contraction hct) (by rw [hct]; decide)
        (by exact hlower.postOps _) (by exact hpoi _) (by exact hko _)
        (fun _ hop => ⟨(Option.some.inj (Option.mem_def.1 hop)).symm, hct⟩) h1 hk hinv'
    · exact hN.unify hwf hspecs hinv hc hi hic hsp (by rw [hfun]; decide) rfl rfl rfl
        (fun _ hop => absurd hop (Option.not_mem_none _)) h1 hk hinv'
  · exact hN.pass (fun _ h => h) rfl rfl
  · exact hN.special hwf hinv hi hic
  · exact hN.prng hwf hnamed hinv hi hic h

end Steps

/-- Every state of a run satisfies the invariant. -/
theorem compileOps_nameInv {lower : Op → FlatContraction × List Polynomial} (hwf : prog.WF) (hops : prog.OpsWF)
    (hnamed : ∀ op ∈ prog.ops, op.output ≠ "")
    (hspecs : ∀ k < prog.ops.length, (prog.op k).tag = .contraction → ∀ x ∈ (prog.op k).specs.tail,
      x ∈ (prog.op k).inputs)
    (hlower : LoweringWF lower) (hpoi : ∀ op, (lower op).1.postOpInputs = [])
    (hko : ∀ op, (lower op).1.kernelOutputs = []) :
    ∀ {i : Nat} {st : CompileState}, i ≤ prog.ops.length →
      compileOps prog vars inputs outputs lower i = .ok st → NameInv prog i st
  | 0, st, _, h => by
    cases h
    exact NameInv.start
  | i + 1, st, hi, h => by
    rw [compileOps_succ] at h
    obtain ⟨st0, h0, h⟩ := except_bind_ok h
    exact (compileOps_nameInv hwf hops hnamed hspecs hlower hpoi hko (by omega) h0).step hwf hnamed hspecs hlower hpoi
      hko (compileOps_inv hwf hops hlower (by omega) h0)
      (compileOps_checkInv hwf hops hnamed hlower (by omega) h0) (by omega) h

end Names

/-- **The kernels name their buffers by final names.** On every well-formed program whose ops
name their outputs and whose contractions' specs name their inputs, under a lowering that gives
no post-op inputs and no kernel outputs of its own, every name a kernel of the list `Compile`
returns writes, and every name a contraction or elementwise kernel reads, is left as it is by the
returned `var_rewrites`. -/
theorem compile_kernel_names_fixed (prog : Program) (vars : Bindings) (inputs outputs : List String)
    (lower : Op → FlatContraction × List Polynomial) (hwf : prog.WF) (hops : prog.OpsWF)
    (hnamed : ∀ op ∈ prog.ops, op.output ≠ "")
    (hspecs : ∀ k < prog.ops.length, (prog.op k).tag = .contraction → ∀ x ∈ (prog.op k).specs.tail,
      x ∈ (prog.op k).inputs)
    (hlower : LoweringWF lower) (hpoi : ∀ op, (lower op).1.postOpInputs = [])
    (hko : ∀ op, (lower op).1.kernelOutputs = []) {res : KernelList}
    (h : compile prog vars inputs outputs lower = .ok res) :
    (∀ k ∈ res.kernels, ∀ n ∈ k.writes, res.varRewrites.lookup n = n) ∧
      ∀ ki, .contraction ki ∈ res.kernels → ∀ n ∈ ki.inputs, res.varRewrites.lookup n = n := by
  obtain ⟨st, hst, rfl⟩ := compile_eq_ok h
  have hN := compileOps_nameInv hwf hops hnamed hspecs hlower hpoi hko le_rfl hst
  exact ⟨fun k hk n hn => (hN.writes k hk n hn).lookup_eq, fun ki hki n hn => (hN.reads ki hki n hn).lookup_eq⟩

/-- The elided output `z` is rewritten to `a`, and the one kernel writes `a`, which is no key. -/
theorem elidedOutput_names_fixed : ∃ res,
    compile elidedOutputProgram vec8Bindings ["X"] ["z"] contiguousLower = .ok res ∧
    res.varRewrites.lookup "z" = "a" ∧
    ((∀ k ∈ res.kernels, ∀ n ∈ k.writes, res.varRewrites.lookup n = n) ∧
      ∀ ki, .contraction ki ∈ res.kernels → ∀ n ∈ ki.inputs, res.varRewrites.lookup n = n) :=
  ⟨_, rfl, rfl, compile_kernel_names_fixed elidedOutputProgram vec8Bindings ["X"] ["z"] contiguousLower
    (by decide) (by decide) (by decide) (by decide) ⟨fun _ => rfl, fun _ => rfl⟩ (fun _ => rfl) (fun _ => rfl) rfl⟩

end TileGen
