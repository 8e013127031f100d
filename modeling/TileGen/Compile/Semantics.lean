/-
The meaning of a program and of a kernel list at the level of buffers: which op computes each
buffer, from which buffers. Element layout, strides and broadcasting are not modelled, so a term
does not say which elements a kernel reads. A `Term` is a name's contents when the program starts,
or what an op computes from the terms of the buffers it reads. `Program.eval` runs the source
program (`Op.value`), `runKernels` the kernel list `Compile` returns. How a flat contraction
computes is the lowering's business; what it tells is whether a contraction writes every element
of its output (`covers`). One that does not also reads the output buffer's prior contents, which a
copy or zero prelude fills: in the program, its `use_default` source or zeros.
-/
import TileGen.Compile.Run

namespace TileGen

/-! ## Values and the interpreter of the source -/

/-- What a buffer holds: the contents `leaf n` of the name `n` when the program starts, or the
result `node o fn args` that the op writing `o` computes with its function `fn` from `args`. -/
inductive Term
  | leaf (n : String)
  | node (o fn : String) (args : List Term)
  deriving Repr, Inhabited

section Value

variable (vars : Bindings) (covers : String → Bool)

/-- The value an op gives its output when each name it reads has the value `env` gives it. A
contraction that does not write every element of its output keeps, in the others, its
`use_default` source or zeros. -/
def Op.value (env : String → Term) (op : Op) : Term :=
  match op.tag with
  | .constant => .leaf op.output
  | .contraction => .node op.output op.fn ((op.specs.tail.filter fun v => (vars v).tag = .tensor).map env ++
      if covers op.output then []
      else [if op.useDefault ≠ "" then env op.useDefault else .node op.output "zero" []])
  | .function =>
    if op.fn = "reshape" ∨ op.fn = "ident" then (op.inputs.map env).headD (.leaf op.output)
    else .node op.output op.fn (op.inputs.map env)

/-- Running ops in order: each binds its output to its value. -/
def runOps : List Op → (String → Term) → String → Term
  | [], env => env
  | op :: ops, env => runOps ops (Function.update env op.output (op.value vars covers env))

/-- The interpreter of the source program, from every name holding its own leaf. -/
def Program.eval (prog : Program) : String → Term := runOps vars covers prog.ops .leaf

theorem runOps_append (a b : List Op) (env : String → Term) :
    runOps vars covers (a ++ b) env = runOps vars covers b (runOps vars covers a env) := by
  induction a generalizing env with
  | nil => rfl
  | cons op a ih => exact ih _

theorem runOps_of_not_mem {n : String} : ∀ {ops : List Op} {env : String → Term},
    n ∉ ops.map (·.output) → runOps vars covers ops env n = env n
  | [], _, _ => rfl
  | op :: ops, env, h => by
    rw [List.map_cons, List.mem_cons, not_or] at h
    rw [runOps, runOps_of_not_mem h.2, Function.update_noteq h.1]

theorem Op.value_congr {op : Op} {env env' : String → Term} (h : ∀ n ∈ op.inputs, env n = env' n)
    (hs : op.tag = .contraction → ∀ n ∈ op.specs.tail, env n = env' n)
    (hd : op.tag = .contraction → op.useDefault ≠ "" → env op.useDefault = env' op.useDefault) :
    op.value vars covers env = op.value vars covers env' := by
  have hin : op.inputs.map env = op.inputs.map env' := List.map_congr_left h
  unfold Op.value
  split
  · rfl
  · rename_i hc
    rw [List.map_congr_left fun n hn => hs hc n (List.mem_filter.1 hn).1]
    by_cases hu : op.useDefault ≠ ""
    · simp only [if_pos hu, hd hc hu]
    · simp only [if_neg hu]
  · rw [hin]

theorem Op.value_inputs {op : Op} (hf : op.tag = .function) {ins : List String} {env : String → Term}
    (h : ins.map env = op.inputs.map env) : { op with inputs := ins }.value vars covers env = op.value vars covers env := by
  simp only [Op.value, hf, h]

/-- Post-op functions run in order. When each one's value, over the right values `E`, is the right
value of its output, and each name it reads is right in the environment or written by an earlier
post-op, then every name right before or written by a post-op is right after. -/
theorem runOps_agree {E : String → Term} : ∀ {ps : List Op} {env : String → Term},
    (∀ p ∈ ps, p.tag = .function ∧ p.value vars covers E = E p.output) →
    (∀ j (hj : j < ps.length), ∀ n ∈ ps[j].inputs, env n = E n ∨ n ∈ (ps.take j).map (·.output)) →
    ∀ n, env n = E n ∨ n ∈ ps.map (·.output) → runOps vars covers ps env n = E n
  | [], _, _, _, _, h => h.resolve_right (List.not_mem_nil _)
  | p :: ps, env, hval, hreads, n, h => by
    obtain ⟨hpf, hpv⟩ := hval p (List.mem_cons_self _ _)
    have hp : p.value vars covers env = E p.output := by
      rw [← hpv]
      refine Op.value_congr vars covers (fun m hm => ?_) (fun hc => absurd (hpf ▸ hc) (by decide))
        fun hc => absurd (hpf ▸ hc) (by decide)
      simpa using hreads 0 (Nat.succ_pos _) m hm
    -- the post-op's update keeps every right name right and makes its output right
    have hupd : ∀ m, env m = E m ∨ m = p.output → Function.update env p.output (p.value vars covers env) m = E m :=
      fun m hm => by
        by_cases hmp : m = p.output
        · rw [hmp, Function.update_same, hp]
        · rw [Function.update_noteq hmp, hm.resolve_right hmp]
    refine runOps_agree (fun q hq => hval q (List.mem_cons_of_mem _ hq)) (fun j hj m hm => ?_) n ?_
    · rcases hreads (j + 1) (Nat.succ_lt_succ hj) m hm with h | h
      · exact .inl (hupd m (.inl h))
      · rw [List.take_succ_cons, List.map_cons, List.mem_cons] at h
        exact h.imp_left fun h => hupd m (.inr h)
    · rw [List.map_cons, List.mem_cons] at h
      rcases h with h | h | h
      · exact .inl (hupd n (.inl h))
      · exact .inl (hupd n (.inr h))
      · exact .inr h

end Value

/-! ## The interpreter's values -/

section Eval

variable {vars : Bindings} {covers : String → Bool} {prog : Program}

theorem Program.eval_of_prefix {k : Nat} {x : String}
    (h : ∀ j, k ≤ j → j < prog.ops.length → (prog.op j).output ≠ x) :
    prog.eval vars covers x = runOps vars covers (prog.ops.take k) .leaf x := by
  unfold Program.eval
  conv_lhs => rw [← List.take_append_drop k prog.ops, runOps_append]
  refine runOps_of_not_mem vars covers fun hx => ?_
  obtain ⟨op, hop, rfl⟩ := List.mem_map.1 hx
  obtain ⟨j, hj, rfl⟩ := List.mem_drop_iff_getElem.1 hop
  exact h (k + j) (by omega) (by omega) (by rw [Program.op_of_lt])

/-- The interpreter's value of an op's output is the op's value over the interpreter's values of
what it reads, when a contraction's specs and `use_default` source are among its inputs. -/
theorem Program.eval_op (hwf : prog.WF) {k : Nat} (hk : k < prog.ops.length)
    (hspecs : (prog.op k).tag = .contraction → ∀ x ∈ (prog.op k).specs.tail, x ∈ (prog.op k).inputs)
    (hdef : (prog.op k).tag = .contraction → (prog.op k).useDefault ≠ "" →
      (prog.op k).useDefault ∈ (prog.op k).inputs) :
    prog.eval vars covers (prog.op k).output = (prog.op k).value vars covers (prog.eval vars covers) := by
  -- no later op writes the output, and no op from `k` on writes a name the op reads
  have hlater : ∀ j, k + 1 ≤ j → j < prog.ops.length → (prog.op j).output ≠ (prog.op k).output :=
    fun j hj hjn he => absurd (output_inj (fun _ hu => UseDef.ofProgram_opDefs_output hwf hu) hjn hk he) (by omega)
  have hread : ∀ x ∈ (prog.op k).inputs, prog.eval vars covers x = runOps vars covers (prog.ops.take k) .leaf x :=
    fun x hx => Program.eval_of_prefix fun j hj hjn he => absurd (hwf.defBefore k hk j hjn x hx he) (by omega)
  rw [Program.eval_of_prefix hlater, List.take_succ, List.getElem?_eq_getElem hk, Option.toList_some,
    runOps_append, runOps, runOps, ← Program.op_of_lt hk, Function.update_same]
  exact Op.value_congr vars covers (fun x hx => (hread x hx).symm) (fun hc x hx => (hread x (hspecs hc x hx)).symm)
    fun hc hu => (hread _ (hdef hc hu)).symm

theorem Program.eval_function (hwf : prog.WF) {k : Nat} (hk : k < prog.ops.length)
    (hf : (prog.op k).tag = .function) :
    prog.eval vars covers (prog.op k).output = (prog.op k).value vars covers (prog.eval vars covers) :=
  Program.eval_op hwf hk (fun hc => absurd (hf.symm.trans hc) (by decide)) fun hc => absurd (hf.symm.trans hc) (by decide)

theorem Program.eval_elided (hwf : prog.WF) {d : Nat} (hd : d < prog.ops.length) (hel : (prog.op d).Elidable)
    {in0 : String} (hin : (prog.op d).inputs.head? = some in0) :
    prog.eval vars covers (prog.op d).output = prog.eval vars covers in0 := by
  rw [Program.eval_function hwf hd hel.1]
  obtain ⟨rest, hr⟩ : ∃ rest, (prog.op d).inputs = in0 :: rest := by
    cases h : (prog.op d).inputs with
    | nil => rw [h] at hin; cases hin
    | cons a rest => rw [h, List.head?_cons, Option.some.injEq] at hin; exact ⟨rest, hin ▸ rfl⟩
  simp [Op.value, hel.1, hel.2, hr]

theorem Program.eval_undefined (hwf : prog.WF) {x : String} (h : (UseDef.ofProgram prog).opDefs x = none) :
    prog.eval vars covers x = .leaf x := by
  refine runOps_of_not_mem vars covers fun hx => ?_
  obtain ⟨op, hop, rfl⟩ := List.mem_map.1 hx
  obtain ⟨k, hk, rfl⟩ := List.getElem_of_mem hop
  rw [← Program.op_of_lt hk, UseDef.ofProgram_opDefs_output hwf hk] at h
  cases h

theorem Program.eval_constant (hwf : prog.WF) {k : Nat} (hk : k < prog.ops.length)
    (hc : (prog.op k).tag = .constant) : prog.eval vars covers (prog.op k).output = .leaf (prog.op k).output := by
  rw [Program.eval_op hwf hk (fun h => absurd (hc.symm.trans h) (by decide)) fun h => absurd (hc.symm.trans h) (by decide)]
  simp [Op.value, hc]

/-- A contraction applied to buffers that hold its tensor specs' values computes the value of its
output; `f` names the buffer each spec is read from. Where it does not write every element, it also
reads `d`, which must hold its `use_default` source's value or zeros. -/
theorem Program.eval_contraction (hwf : prog.WF) {k : Nat} (hk : k < prog.ops.length)
    (hct : (prog.op k).tag = .contraction) (hfn : (prog.op k).fn = "")
    (hspecs : ∀ x ∈ (prog.op k).specs.tail, x ∈ (prog.op k).inputs)
    (hdef : (prog.op k).useDefault ≠ "" → (prog.op k).useDefault ∈ (prog.op k).inputs) {f : String → String}
    {σ : String → Term} (h : ∀ x ∈ (prog.op k).specs.tail.filter fun v => (vars v).tag = .tensor,
      σ (f x) = prog.eval vars covers x) {d : Term}
    (hd : covers (prog.op k).output = false → d = if (prog.op k).useDefault ≠ "" then
      prog.eval vars covers (prog.op k).useDefault else .node (prog.op k).output "zero" []) :
    Term.node (prog.op k).output "" ((((prog.op k).specs.tail.filter fun v => (vars v).tag = .tensor).map f).map σ ++
      if covers (prog.op k).output then [] else [d]) = prog.eval vars covers (prog.op k).output := by
  rw [Program.eval_op hwf hk (fun _ => hspecs) fun _ => hdef, List.map_map]
  simp only [Op.value, hct, hfn]
  congr 2
  · exact List.map_congr_left h
  · cases hc : covers (prog.op k).output
    · rw [hd hc]
    · rfl

/-- A rewrite entry of elided reshapes and idents joins names of the same value: each step of its
chain goes from the output of an elided op to its first input. -/
theorem RewritesInv.eval_eq (hwf : prog.WF) {vr : VarRewrites} {S K : Nat → Prop}
    (hR : RewritesInv prog (UseDef.ofProgram prog) vr S K) {k v : String} (h : (k, v) ∈ vr.entries) :
    prog.eval vars covers k = prog.eval vars covers v := by
  have hstep : ∀ x y, ElidedSource prog (UseDef.ofProgram prog) vr x y → prog.eval vars covers x = prog.eval vars covers y := by
    rintro x y ⟨hkey, d, hd, hhead⟩
    obtain ⟨w, hw⟩ := Option.isSome_iff_exists.1 hkey
    obtain ⟨d', hd', -, hel, -⟩ := hR.entry x w (mem_of_lookup_eq_some hw)
    obtain rfl : d = d' := Option.some.inj (hd.symm.trans hd')
    obtain ⟨hdn, rfl⟩ := UseDef.ofProgram_opDefs hd
    exact Program.eval_elided hwf hdn hel hhead
  obtain hc := hR.chain k v h
  clear h
  induction hc with
  | single hs => exact hstep _ _ hs
  | tail _ hs ih => exact ih.trans (hstep _ _ hs)

theorem RewritesInv.eval_lookup (hwf : prog.WF) {vr : VarRewrites} {S K : Nat → Prop}
    (hR : RewritesInv prog (UseDef.ofProgram prog) vr S K) (x : String) :
    prog.eval vars covers (vr.lookup x) = prog.eval vars covers x := by
  rw [VarRewrites.lookup_of_flat hR.flat]
  cases hl : vr.entries.lookup x with
  | none => rfl
  | some v => exact (hR.eval_eq hwf (mem_of_lookup_eq_some hl)).symm

end Eval

/-! ## The kernel list -/

section Kernels

variable (vars : Bindings) (covers : String → Bool)

/-- How many of `ki.inputs` feed the contraction: `ContractionWrap` puts the post-op inputs last. -/
def KernelInfo.arity (ki : KernelInfo) : Nat := ki.inputs.length - ki.flat.postOpInputs.length

/-- What a name reads in the kernel before any post-op runs: a post-op input reads the buffer at its
place among the kernel's inputs, and any other name its own buffer. Which elements of the buffer a
post-op input's strides select is element layout, which terms do not record. -/
def KernelInfo.bind (ki : KernelInfo) (σ : String → Term) (n : String) : Term :=
  match ((ki.flat.postOpInputs.map (·.1)).zip (ki.inputs.drop ki.arity)).lookup n with
  | some b => σ b
  | none => σ n

/-- The kernel's terms once its post-ops have run. The contraction, if it generates one, gives
its output its value over the buffers of the contraction inputs and, unless it writes every element,
the output's prior buffer. -/
def KernelInfo.env (ki : KernelInfo) (σ : String → Term) : String → Term :=
  runOps vars covers ki.flat.postOps
    (if ki.flat.generateContraction then
      Function.update (ki.bind σ) ki.flat.output (.node ki.flat.output "" ((ki.inputs.take ki.arity).map σ ++
        if covers ki.flat.output then [] else [σ ki.flat.output]))
    else ki.bind σ)

/-- The buffers after a contraction or elementwise kernel, which writes its outputs. -/
def KernelInfo.run (ki : KernelInfo) (σ : String → Term) (n : String) : Term :=
  if n ∈ ki.outputs then ki.env vars covers σ n else σ n

/-- The buffers after one kernel. -/
def Kernel.run (σ : String → Term) : Kernel → String → Term
  | .zero out => Function.update σ out (.node out "zero" [])
  | .copy out src => Function.update σ out (σ src)
  | .special op extra =>
    let v := Term.node op.output op.fn (op.inputs.map σ)
    match extra with
    | [sout, vout] => Function.update (Function.update (Function.update σ op.output v) sout
        (.node sout "prng_state" [v])) vout (.node vout "prng_value" [v])
    | _ => Function.update σ op.output v
  | .contraction ki => ki.run vars covers σ

/-- The buffers after a kernel list, run in order. -/
def runKernels (ks : List Kernel) (σ : String → Term) : String → Term := ks.foldl (Kernel.run vars covers) σ

@[simp] theorem Kernel.run_contraction (ki : KernelInfo) (σ : String → Term) :
    (Kernel.contraction ki).run vars covers σ = ki.run vars covers σ := rfl

theorem Kernel.run_of_not_mem {σ : String → Term} {k : Kernel} {n : String} (h : n ∉ k.writes) :
    k.run vars covers σ n = σ n := by
  cases k with
  | zero out => exact Function.update_noteq (by simpa [Kernel.writes] using h) _ _
  | copy out src => exact Function.update_noteq (by simpa [Kernel.writes] using h) _ _
  | special op extra =>
    simp only [Kernel.writes, List.mem_cons, not_or] at h
    simp only [Kernel.run]
    split
    · simp only [List.mem_cons, List.not_mem_nil, or_false, not_or] at h
      rw [Function.update_noteq h.2.2, Function.update_noteq h.2.1, Function.update_noteq h.1]
    · exact Function.update_noteq h.1 _ _
  | contraction ki => exact if_neg h

@[simp] theorem runKernels_nil (σ : String → Term) : runKernels vars covers [] σ = σ := rfl

@[simp] theorem runKernels_cons (k : Kernel) (ks : List Kernel) (σ : String → Term) :
    runKernels vars covers (k :: ks) σ = runKernels vars covers ks (k.run vars covers σ) := rfl

theorem runKernels_append (ks ks' : List Kernel) (σ : String → Term) :
    runKernels vars covers (ks ++ ks') σ = runKernels vars covers ks' (runKernels vars covers ks σ) :=
  List.foldl_append _ _ _ _

theorem runKernels_of_not_written {n : String} : ∀ {ks : List Kernel} {σ : String → Term},
    (∀ k ∈ ks, n ∉ k.writes) → runKernels vars covers ks σ n = σ n
  | [], _, _ => rfl
  | k :: _, _, h => (runKernels_of_not_written fun k' hk' => h k' (List.mem_cons_of_mem _ hk')).trans
      (Kernel.run_of_not_mem vars covers (h k (List.mem_cons_self _ _)))

theorem lookup_zip_map (f : String → String) (n : String) : ∀ keys : List String,
    (keys.zip (keys.map f)).lookup n = if n ∈ keys then some (f n) else none
  | [] => rfl
  | k :: keys => by
    by_cases h : n = k
    · subst h
      simp
    · rw [List.map_cons, List.zip_cons_cons, lookup_cons_of_ne h, lookup_zip_map f n keys]
      simp [h]

/-- A kernel reading the buffers `A`, then the post-op inputs `keys` at `f` of each: its values
start from the buffer of each post-op input and the contraction's value over `A`. -/
theorem KernelInfo.env_eq {ki : KernelInfo} {A keys : List String} {f : String → String}
    (hin : ki.inputs = A ++ keys.map f) (hkeys : ki.flat.postOpInputs.map (·.1) = keys) (σ : String → Term) :
    ki.env vars covers σ = runOps vars covers ki.flat.postOps
      (if ki.flat.generateContraction then
        Function.update (fun n => if n ∈ keys then σ (f n) else σ n) ki.flat.output
          (.node ki.flat.output "" (A.map σ ++ if covers ki.flat.output then [] else [σ ki.flat.output]))
      else fun n => if n ∈ keys then σ (f n) else σ n) := by
  have har : ki.arity = A.length := by
    rw [KernelInfo.arity, hin, ← List.length_map ki.flat.postOpInputs (·.1), hkeys]
    simp
  have hbind : ki.bind σ = fun n => if n ∈ keys then σ (f n) else σ n := by
    funext n
    rw [KernelInfo.bind, hkeys, har, hin, List.drop_left, lookup_zip_map]
    by_cases hn : n ∈ keys <;> simp [hn]
  rw [KernelInfo.env, hbind, har, hin, List.take_left]

end Kernels

/-! ## The kernel `ContractionWrap` keeps -/

/-- The kernel `ContractionWrap` keeps carries the fused ops, post-op inputs and outputs of the
flat contraction it was given. It reads the contraction's tensor inputs, then the post-op inputs,
each looked up. -/
theorem contractionWrap_info {vars : Bindings} {c : Option Op} {flat : FlatContraction} {vr : VarRewrites}
    {wsr : List String} {ki : KernelInfo} (h : contractionWrap vars c flat vr wsr = .ok (some (.contraction ki))) :
    ki.flat.fusion = flat.fusion ∧ ki.outputs = flat.kernelOutputs ∧
      ki.inputs = (((c.map (·.specs.tail)).getD []).filter fun v => (vars v).tag = .tensor).map vr.lookup ++
        (flat.postOpInputs.map (·.1)).map vr.lookup := by
  have hf := simplifyLoop_fusion .sizeT (flat.ranges.length + 1) flat
  have hkeys : (simplifyFlatLoop .sizeT flat).postOpInputs.map (fun p => vr.lookup p.1) =
      (flat.postOpInputs.map (·.1)).map vr.lookup := by
    rw [← fusion_keys hf, List.map_map]
    rfl
  unfold contractionWrap at h
  split_ifs at h with h0
  · cases h
  rcases c with _ | op
  · cases h
    exact ⟨hf, congrArg (fun f => f.2.2.2.1) hf, by simpa using hkeys⟩
  · dsimp only at h
    split_ifs at h <;> cases h
    exact ⟨hf, congrArg (fun f => f.2.2.2.1) hf, by rw [hkeys]; rfl⟩

end TileGen
