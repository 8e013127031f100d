/-
`Compile` preserves the program's dataflow: running the kernel list it returns leaves every
program input and every name a kernel writes holding the interpreter's term of it, and so does
every tensor program output, looked up through the returned `var_rewrites`
(`compile_preserves_dataflow`). The driver changes the program once on the way: a `prng_step` whose
value no op reads turns its last `prng_state` into an ident of the step's state input, and the
kernels compute `Program.prngRewrite` (`compile_computes_prngRewrite`). `SemInv` carries this over a
run; fusion is where the work lies (`SemInv.unify`, `SemWalk`): a fused kernel runs copies of the
program's functions whose inputs are renamed along elided reshapes and idents, which keep terms.
`Program.BufferWF` states what running kernels over named buffers asks of a program.
-/
import TileGen.Compile.Dataflow
import TileGen.Compile.Semantics

namespace TileGen

instance (op : Op) : Decidable op.Elidable := inferInstanceAs (Decidable (_ ∧ _))

theorem Op.Elidable.fn_ne {op : Op} (h : op.Elidable) : op.fn ≠ "prng_state" := fun he => by
  rcases h.2 with h | h <;> rw [h] at he <;> exact absurd he (by decide)

/-- What running kernels over named buffers asks of a program beyond `FlowWF`: its inputs are
written by no op, every op but a constant writes a tensor, a contraction's `use_default` source is
one of its inputs, and neither a special op nor a `use_default` reads the output of a reshape or
ident, since a special kernel and a copy prelude read their names without looking them up. -/
@[mk_iff] structure Program.BufferWF (prog : Program) (vars : Bindings) (inputs : List String) : Prop where
  inputs : ∀ x ∈ inputs, (UseDef.ofProgram prog).opDefs x = none
  tensors : ∀ k < prog.ops.length, (prog.op k).tag ≠ .constant → (vars (prog.op k).output).tag = .tensor
  specialReads : ∀ k < prog.ops.length, (prog.op k).isSpecial = true → ∀ x ∈ (prog.op k).inputs,
    ∀ d ∈ (UseDef.ofProgram prog).opDefs x, ¬ (prog.op d).Elidable
  defaults : ∀ k < prog.ops.length, (prog.op k).tag = .contraction → (prog.op k).useDefault ≠ "" →
    (prog.op k).useDefault ∈ (prog.op k).inputs ∧
      ∀ d ∈ (UseDef.ofProgram prog).opDefs (prog.op k).useDefault, ¬ (prog.op d).Elidable

instance (prog : Program) (vars : Bindings) (inputs : List String) : Decidable (prog.BufferWF vars inputs) :=
  @decidable_of_iff' _ _ (Program.bufferWF_iff prog vars inputs) <| @instDecidableAnd _ _ inferInstance <|
    @instDecidableAnd _ _ inferInstance <| @instDecidableAnd _ _ inferInstance inferInstance

/-- A program whose dataflow the driver keeps: besides `BufferWF`, a `prng_step` with a state
companion has a value companion. -/
@[mk_iff] structure Program.ValueWF (prog : Program) (vars : Bindings) (inputs : List String) extends
    prog.BufferWF vars inputs : Prop where
  prngValue : ∀ j < prog.ops.length, ∀ k < prog.ops.length,
    (prog.op j).fn = "prng_step" ∧ PrngReads prog "prng_state" (prog.op j).output k →
      ∃ k' < prog.ops.length, PrngReads prog "prng_value" (prog.op j).output k'

instance (prog : Program) (vars : Bindings) (inputs : List String) : Decidable (prog.ValueWF vars inputs) :=
  @decidable_of_iff' _ _ (Program.valueWF_iff prog vars inputs) <| @instDecidableAnd _ _ inferInstance inferInstance

section Values

variable {prog : Program} {vars : Bindings} {covers : String → Bool} {inputs : List String}

/-- A non-tensor's value is its own leaf: only a constant writes one. -/
theorem Program.BufferWF.eval_scalar (hwf : prog.WF) (hbuf : prog.BufferWF vars inputs) {n : String}
    (hn : (vars n).tag ≠ .tensor) : prog.eval vars covers n = .leaf n := by
  cases hd : (UseDef.ofProgram prog).opDefs n with
  | none => exact Program.eval_undefined hwf hd
  | some d =>
    obtain ⟨hdn, rfl⟩ := UseDef.ofProgram_opDefs hd
    by_cases hc : (prog.op d).tag = .constant
    · exact Program.eval_constant hwf hdn hc
    · exact absurd (hbuf.tensors d hdn hc) hn

/-- A special function applies to the values of all its inputs. -/
theorem Op.value_special {op : Op} (hf : op.tag = .function) (hsp : op.isSpecial = true) (env : String → Term) :
    op.value vars covers env = .node op.output op.fn (op.inputs.map env) := by
  simp only [Op.value, hf]
  rw [if_neg]
  rintro (h | h) <;> simp [Op.isSpecial, h] at hsp

end Values

/-! ## The program the driver's run amounts to -/

/-- The op at `k` once the driver has made its rewrites: the ident `prngIdent` when a `prng_step`
rewrites `k`, the op itself otherwise. -/
def prngRewriteOp (prog : Program) (k : Nat) : Op :=
  match (List.range k).find? fun j => decide (PrngRewrites prog j k) with
  | some j => prngIdent prog j k
  | none => prog.op k

/-- The program the driver's run amounts to: the last `prng_state` of each `prng_step` whose value
no op reads is the ident of the step's state input. -/
def Program.prngRewrite (prog : Program) : Program :=
  ⟨(List.range prog.ops.length).map (prngRewriteOp prog)⟩

section Rewrite

variable {prog : Program}

@[simp] theorem Program.prngRewrite_length : prog.prngRewrite.ops.length = prog.ops.length := by
  simp [Program.prngRewrite]

/-- The `prng_step` that rewrites an op is unique: the op reads exactly its output. -/
theorem PrngRewrites.step_unique (hwf : prog.WF) {j j' s : Nat} (h : PrngRewrites prog j s)
    (h' : PrngRewrites prog j' s) : j = j' :=
  (hwf.output_eq_iff (h.2.1.trans h.2.2.1) (h'.2.1.trans h'.2.2.1)).1
    (List.singleton_inj.1 (h.2.2.2.1.2.symm.trans h'.2.2.2.1.2))

/-- Each op of the rewritten program is the ident of the step that rewrites it, or the op itself
when none does. -/
theorem Program.prngRewrite_op (k : Nat) :
    (∃ j, PrngRewrites prog j k ∧ prog.prngRewrite.op k = prngIdent prog j k) ∨
      ((∀ j, ¬ PrngRewrites prog j k) ∧ prog.prngRewrite.op k = prog.op k) := by
  by_cases hk : k < prog.ops.length
  · have hT : prog.prngRewrite.op k = prngRewriteOp prog k := by
      rw [Program.op_of_lt (by simpa using hk)]
      simp [Program.prngRewrite]
    rw [hT, prngRewriteOp]
    cases hf : (List.range k).find? fun j => decide (PrngRewrites prog j k) with
    | some j => exact .inl ⟨j, by simpa using List.find?_some hf, rfl⟩
    | none =>
      refine .inr ⟨fun j hj => ?_, rfl⟩
      simpa [hj] using List.find?_eq_none.1 hf j (List.mem_range.2 hj.2.1)
  · refine .inr ⟨fun j hj => hk hj.2.2.1, ?_⟩
    rw [Program.op_of_ge (by simpa using not_lt.1 hk), Program.op_of_ge (not_lt.1 hk)]

theorem Program.prngRewrite_op_of_rewrites (hwf : prog.WF) {j k : Nat} (h : PrngRewrites prog j k) :
    prog.prngRewrite.op k = prngIdent prog j k := by
  rcases Program.prngRewrite_op k with ⟨j', hj', he⟩ | ⟨hn, -⟩
  · rw [he, hj'.step_unique hwf h]
  · exact absurd h (hn j)

theorem Program.prngRewrite_op_of_not {k : Nat} (h : ∀ j, ¬ PrngRewrites prog j k) :
    prog.prngRewrite.op k = prog.op k :=
  (Program.prngRewrite_op k).elim (fun ⟨j, hj, _⟩ => absurd hj (h j)) (·.2)

@[simp] theorem Program.prngRewrite_output (k : Nat) : (prog.prngRewrite.op k).output = (prog.op k).output := by
  rcases Program.prngRewrite_op k with ⟨j, -, he⟩ | ⟨-, he⟩ <;> rw [he]
  rfl

theorem Program.prngRewrite_outputs : prog.prngRewrite.ops.map (·.output) = prog.ops.map (·.output) :=
  List.ext_getElem (by simp) fun k h1 h2 => by
    have hk : k < prog.ops.length := by simpa using h2
    rw [List.getElem_map, List.getElem_map, ← Program.op_of_lt (by simpa using hk), ← Program.op_of_lt hk,
      Program.prngRewrite_output]

/-- The definitions of a use/def index depend only on the outputs. -/
theorem UseDef.build_opDefs_congr : ∀ {ops ops' : List Op} (i : Nat) {ud ud' : UseDef},
    ops.map (·.output) = ops'.map (·.output) → ud.opDefs = ud'.opDefs →
      (UseDef.build i ops ud).opDefs = (UseDef.build i ops' ud').opDefs
  | [], [], _, _, _, _, hud => hud
  | op :: ops, op' :: ops', i, ud, ud', h, hud => by
    rw [List.map_cons, List.map_cons, List.cons.injEq] at h
    refine UseDef.build_opDefs_congr (i + 1) h.2 ?_
    show (fun v => if v = op.output then some i else ud.opDefs v) =
      fun v => if v = op'.output then some i else ud'.opDefs v
    rw [h.1, hud]
  | [], _ :: _, _, _, _, h, _ => by simp at h
  | _ :: _, [], _, _, _, h, _ => by simp at h

theorem Program.prngRewrite_opDefs : (UseDef.ofProgram prog.prngRewrite).opDefs = (UseDef.ofProgram prog).opDefs :=
  UseDef.build_opDefs_congr 0 Program.prngRewrite_outputs rfl

/-- The rewritten program is well formed: an ident reads its step's state input, which is defined
before the step. -/
theorem Program.WF.prngRewrite (hwf : prog.WF) (hops : prog.OpsWF) : prog.prngRewrite.WF where
  outputsNodup := by rw [Program.prngRewrite_outputs]; exact hwf.outputsNodup
  defBefore k hk j hj v hv he := by
    rw [Program.prngRewrite_length] at hk hj
    rw [Program.prngRewrite_output] at he
    rcases Program.prngRewrite_op k with ⟨s, hs, hT⟩ | ⟨-, hT⟩
    · obtain ⟨a, as, ha⟩ := List.exists_cons_of_ne_nil (hops.step_input hs.1)
      simp only [hT, prngIdent, hs.2.2.2.1.2, ha, List.set_cons_zero, List.getD_cons_zero,
        List.mem_singleton] at hv
      subst hv
      exact (hwf.defBefore s (hs.2.1.trans hs.2.2.1) j hj _ (by rw [ha]; exact List.mem_cons_self _ _) he).trans
        hs.2.1
    · rw [hT] at hv
      exact hwf.defBefore k hk j hj v hv he

/-- When every `prng_step` with a state has a value, the driver rewrites nothing. -/
theorem Program.ValueWF.prngRewrite_eq (hwf : prog.WF) {vars : Bindings} {inputs : List String}
    (hval : prog.ValueWF vars inputs) : prog.prngRewrite = prog := by
  have hno : ∀ j k, ¬ PrngRewrites prog j k := fun j k h => by
    obtain ⟨k', hk', hr⟩ := hval.prngValue j (h.2.1.trans h.2.2.1) k h.2.2.1 ⟨h.1, h.2.2.2.1⟩
    exact h.2.2.2.2.1 k' hk' (hwf.defBefore k' hk' j (h.2.1.trans h.2.2.1) _
      (by rw [hr.2]; exact List.mem_singleton_self _) rfl) hr
  have hops : prog.prngRewrite.ops = prog.ops := List.ext_getElem (by simp) fun k h1 h2 => by
    rw [← Program.op_of_lt h1, ← Program.op_of_lt h2, Program.prngRewrite_op_of_not (hno · k)]
  exact congrArg Program.mk hops

/-- In the rewritten program, the state a `prng_step` whose value no op reads leaves has the value
of the step's state input: the state is not advanced. -/
theorem Program.prngRewrite_eval_state (hwf : prog.WF) (hops : prog.OpsWF) (vars : Bindings)
    (covers : String → Bool) {j s : Nat}
    (h : PrngRewrites prog j s) :
    prog.prngRewrite.eval vars covers (prog.op s).output = prog.prngRewrite.eval vars covers ((prog.op j).inputs.headD "") := by
  have hT := Program.prngRewrite_op_of_rewrites hwf h
  obtain ⟨a, as, ha⟩ := List.exists_cons_of_ne_nil (hops.step_input h.1)
  have hel : (prog.prngRewrite.op s).Elidable := by
    rw [hT]
    exact ⟨hops.tag_of_fn (by rw [h.2.2.2.1.1]; decide), .inr rfl⟩
  have hin : (prog.prngRewrite.op s).inputs.head? = some a := by simp [hT, prngIdent, h.2.2.2.1.2, ha]
  rw [← Program.prngRewrite_output, Program.eval_elided (hwf.prngRewrite hops) (by simpa using h.2.2.1) hel hin, ha]
  rfl

end Rewrite

section Driver

variable {prog : Program} {vars : Bindings} {i : Nat} {st : CompileState}

/-- The driver's program is the rewritten one on every op that no step from `i` on rewrites. -/
theorem CheckInv.op_prngRewrite (hwf : prog.WF) (hc : CheckInv prog vars i st) {k : Nat}
    (hk : ∀ j, i ≤ j → ¬ PrngRewrites prog j k) : st.prog.op k = prog.prngRewrite.op k := by
  rcases hc.ops k with ⟨j, -, hj, he⟩ | ⟨hn, he⟩
  · rw [he, Program.prngRewrite_op_of_rewrites hwf hj]
  · rw [he, Program.prngRewrite_op_of_not fun j hj => (lt_or_le j i).elim (hn j · hj) (hk j · hj)]

/-- So is every op up to `i`: a step rewrites a later op. -/
theorem CheckInv.op_prngRewrite_of_le (hwf : prog.WF) (hc : CheckInv prog vars i st) {k : Nat} (hk : k ≤ i) :
    st.prog.op k = prog.prngRewrite.op k :=
  hc.op_prngRewrite hwf fun j hj h => absurd (h.2.1.trans_le (hk.trans hj)) (lt_irrefl j)

/-- And every op that is no `prng_state`: what is still to be rewritten is a `prng_state`. -/
theorem CheckInv.op_prngRewrite_of_fn (hwf : prog.WF) (hc : CheckInv prog vars i st) {k : Nat}
    (hfn : (st.prog.op k).fn ≠ "prng_state") : st.prog.op k = prog.prngRewrite.op k :=
  hc.op_prngRewrite hwf fun j hj h => by
    rcases hc.ops k with ⟨j', hj', hr, -⟩ | ⟨-, he⟩
    · exact absurd (hr.step_unique hwf h ▸ hj') (not_lt.2 hj)
    · exact hfn (he ▸ h.2.2.2.1.1)

theorem RewritesInv.opDefs_congr {prog : Program} {ud ud' : UseDef} {vr : VarRewrites} {S K : Nat → Prop}
    (h : RewritesInv prog ud vr S K) (hud : ud'.opDefs = ud.opDefs) : RewritesInv prog ud' vr S K where
  flat := h.flat
  entry k v hkv := by rw [hud]; exact h.entry k v hkv
  chain k v hkv := (h.chain k v hkv).mono fun _ _ ⟨hx, d, hd, hin⟩ => ⟨hx, d, by rw [hud]; exact hd, hin⟩

/-- Rewrites over the driver's program are rewrites over the rewritten one: the ops they elide are
no `prng_state`. -/
theorem CheckInv.rewrites_prngRewrite (hwf : prog.WF) (hc : CheckInv prog vars i st) {vr : VarRewrites}
    {S K : Nat → Prop} (hR : RewritesInv st.prog (UseDef.ofProgram prog) vr S K) :
    RewritesInv prog.prngRewrite (UseDef.ofProgram prog.prngRewrite) vr S K :=
  (hR.congr (fun _ hd => (hc.op_prngRewrite_of_fn hwf hd.fn_ne).symm) (fun _ h => h) fun _ h _ => h).opDefs_congr
    Program.prngRewrite_opDefs

end Driver

/-- A name an op reads never looks up to the op's own output: what it looks up to is defined before
the op. -/
theorem RunInv.lookup_ne_output {prog : Program} {vars : Bindings} (hwf : prog.WF) {i : Nat} {st : CompileState}
    (hinv : RunInv prog vars i st)
    {k : Nat} (hk : k < st.prog.ops.length) {x : String} (hx : x ∈ (st.prog.op k).inputs) :
    st.varRewrites.lookup x ≠ (st.prog.op k).output := fun he => by
  have hko := hinv.opDefs_output hwf hk
  rw [VarRewrites.lookup_of_flat hinv.rewrites.flat] at he
  cases hl : st.varRewrites.entries.lookup x with
  | none =>
    rw [hl, Option.getD_none] at he
    rw [← he] at hko
    exact absurd (hinv.fits.defBefore k x k hx hko) (lt_irrefl k)
  | some v =>
    rw [hl, Option.getD_some] at he
    obtain ⟨d, hd, -, -, hv⟩ := hinv.rewrites.entry x v (mem_of_lookup_eq_some hl)
    rw [← he] at hko
    have := (hv k hko).2
    have := hinv.fits.defBefore k x d hx hd
    omega

/-! ## The walk over a fused set -/

/-- The post-ops of a walk are functions, each giving its output its value `E` when what it reads
has its value `E`. -/
def SemWalk (vars : Bindings) (covers : String → Bool) (E : String → Term) (ws : WalkState) : Prop :=
  ∀ p ∈ ws.postOps, p.tag = .function ∧ p.value vars covers E = E p.output

/-- An emitted post-op is a copy of a function of the walked program `Q`, which is the program `T`
gives values to, with its inputs through the local rewrites, each of which joins names of the same
value. -/
theorem SemWalk.step {Q T : Program} {ud : UseDef} {vars : Bindings} {covers : String → Bool}
    {inputs outputs : List String} (hTwf : T.WF) {U : List Nat} {ws ws' : WalkState} {u : Nat}
    (hu : u < T.ops.length) (hop : Q.op u = T.op u)
    (hloc : ∀ x y, (x, y) ∈ ws.localRewrites → T.eval vars covers x = T.eval vars covers y)
    (hq : SemWalk vars covers (T.eval vars covers) ws) (h : unifyOp Q ud vars inputs outputs U ws u = .ok ws') :
    SemWalk vars covers (T.eval vars covers) ws' := by
  rcases unifyOp_eq_ok h with ⟨-, rfl⟩ | ⟨-, -, -, -, -, rfl⟩ | ⟨hf, rfl⟩
  · exact hq
  · exact hq
  intro p hp
  simp only [emitPostOp, List.mem_append, List.mem_singleton] at hp
  rcases hp with hp | rfl
  · exact hq p hp
  rw [hop] at hf ⊢
  refine ⟨hf, ?_⟩
  rw [Op.value_inputs vars covers hf ?_]
  · exact (Program.eval_function hTwf hu hf).symm
  rw [List.map_map]
  refine List.map_congr_left fun x _ => ?_
  cases hl : ws.localRewrites.lookup x with
  | none => simp only [Function.comp_apply, hl, Option.getD_none]
  | some t => simp only [Function.comp_apply, hl, Option.getD_some, hloc x t (mem_of_lookup_eq_some hl)]

/-! ## The run invariant -/

section Sem

variable (prog : Program) (vars : Bindings) (covers : String → Bool) (inputs : List String)

/-- The kernels so far leave every available name holding its value in the program the driver's
run amounts to. -/
structure SemInv (st : CompileState) : Prop where
  agree : ∀ n, Available inputs st.kernels n → runKernels vars covers st.kernels .leaf n = prog.prngRewrite.eval vars covers n

variable {prog vars covers inputs}

theorem SemInv.start (hTwf : prog.prngRewrite.WF) (hbuf : prog.prngRewrite.BufferWF vars inputs) :
    SemInv prog vars covers inputs ⟨prog, [], [], {}⟩ :=
  ⟨fun n hn => by
    rcases hn with hn | ⟨k, hk, -⟩
    · exact (Program.eval_undefined hTwf (hbuf.inputs n hn)).symm
    · cases hk⟩

variable {st : CompileState} (hs : SemInv prog vars covers inputs st)
include hs

/-- A buffer no kernel has written holds its leaf, which is a non-tensor's value. -/
theorem SemInv.scalar (hTwf : prog.prngRewrite.WF) (hbuf : prog.prngRewrite.BufferWF vars inputs) {n : String}
    (hn : (vars n).tag ≠ .tensor) : runKernels vars covers st.kernels .leaf n = prog.prngRewrite.eval vars covers n := by
  by_cases ha : Available inputs st.kernels n
  · exact hs.agree n ha
  · rw [runKernels_of_not_written vars covers fun k hk hnk => ha (.inr ⟨k, hk, hnk⟩), hbuf.eval_scalar hTwf hn]

/-- Kernels appended by a step: a name they write must end with its value, and every other
available name keeps its buffer. -/
theorem SemInv.append {st' : CompileState} {ks : List Kernel} (hks : st'.kernels = st.kernels ++ ks)
    (hnew : ∀ k ∈ ks, ∀ n ∈ k.writes,
      runKernels vars covers ks (runKernels vars covers st.kernels .leaf) n = prog.prngRewrite.eval vars covers n) :
    SemInv prog vars covers inputs st' := by
  refine ⟨fun n hn => ?_⟩
  rw [hks, runKernels_append]
  by_cases hw : ∃ k ∈ ks, n ∈ k.writes
  · obtain ⟨k, hk, hnk⟩ := hw
    exact hnew k hk n hnk
  push_neg at hw
  rw [runKernels_of_not_written vars covers hw]
  rw [hks] at hn
  refine hs.agree n (hn.imp_right fun ⟨k, hk, hnk⟩ => ⟨k, ?_, hnk⟩)
  exact (List.mem_append.1 hk).resolve_right fun hk => hw k hk hnk

/-- A name an op reads that no reshape or ident defines holds its value under its own name: a
tensor is available and no rewrite has it as a key, and a non-tensor holds its leaf. -/
theorem SemInv.read_unrewritten {outputs : List String} (hwf : prog.WF) (hTwf : prog.prngRewrite.WF)
    (hbuf : prog.prngRewrite.BufferWF vars inputs) {i : Nat} (hinv : RunInv prog vars i st)
    (hf : FlowInv prog vars inputs outputs i st) (hc : CheckInv prog vars i st) (hi : i < prog.ops.length)
    (hiC : i ∉ st.computed) {x : String} (hx : x ∈ (st.prog.op i).inputs)
    (hel : ∀ d ∈ (UseDef.ofProgram prog.prngRewrite).opDefs x, ¬ (prog.prngRewrite.op d).Elidable) :
    runKernels vars covers st.kernels .leaf x = prog.prngRewrite.eval vars covers x := by
  by_cases ht : (vars x).tag = .tensor
  · have hA := hf.avail i hi le_rfl hiC x hx ht fun d hd => .inl (hinv.fits.defBefore i x d hx hd)
    rw [VarRewrites.lookup_of_flat hinv.rewrites.flat] at hA
    cases hl : st.varRewrites.entries.lookup x with
    | none => rw [hl] at hA; exact hs.agree x hA
    | some v =>
      obtain ⟨d, hd, -, hdel, -⟩ := hinv.rewrites.entry x v (mem_of_lookup_eq_some hl)
      rw [hc.op_prngRewrite_of_fn hwf hdel.fn_ne] at hdel
      rw [← Program.prngRewrite_opDefs] at hd
      exact absurd hdel (hel d hd)
  · exact hs.scalar hTwf hbuf ht

/-- What a special op reads holds its value: no reshape or ident writes it. -/
theorem SemInv.special_reads {outputs : List String} (hwf : prog.WF) (hTwf : prog.prngRewrite.WF)
    (hbuf : prog.prngRewrite.BufferWF vars inputs) {i : Nat} (hinv : RunInv prog vars i st)
    (hf : FlowInv prog vars inputs outputs i st) (hc : CheckInv prog vars i st) (hi : i < prog.ops.length)
    (hiC : i ∉ st.computed) (hsp : (st.prog.op i).isSpecial = true) :
    ∀ x ∈ (st.prog.op i).inputs, runKernels vars covers st.kernels .leaf x = prog.prngRewrite.eval vars covers x :=
  fun x hx => hs.read_unrewritten hwf hTwf hbuf hinv hf hc hi hiC hx fun d hd => by
    rw [hc.op_prngRewrite_of_le hwf le_rfl] at hx hsp
    exact hbuf.specialReads i (by simpa using hi) hsp x hx d hd

/-! ## One op of the driver -/

/-- A special function other than the prng ones writes its output's value. -/
theorem SemInv.special {outputs : List String} (hwf : prog.WF) (hTwf : prog.prngRewrite.WF)
    (hbuf : prog.prngRewrite.BufferWF vars inputs) {i : Nat} (hinv : RunInv prog vars i st)
    (hf : FlowInv prog vars inputs outputs i st) (hc : CheckInv prog vars i st) (hi : i < prog.ops.length)
    (hiC : i ∉ st.computed) (hsp : (st.prog.op i).isSpecial = true) :
    SemInv prog vars covers inputs { st with kernels := st.kernels ++ [.special (st.prog.op i) []] } := by
  have hreads := hs.special_reads hwf hTwf hbuf hinv hf hc hi hiC hsp
  refine hs.append rfl fun k hk n hn => ?_
  obtain rfl := List.mem_singleton.1 hk
  obtain rfl : n = (st.prog.op i).output := by simpa [Kernel.writes] using hn
  have hfun : (st.prog.op i).tag = .function := hinv.opsWF.tag_of_fn fun h => by simp [Op.isSpecial, h] at hsp
  simp only [runKernels_cons, runKernels_nil, Kernel.run, Function.update_same, List.map_congr_left hreads]
  rw [hc.op_prngRewrite_of_le hwf le_rfl] at hfun hsp ⊢
  rw [Program.eval_function hTwf (by simpa using hi) hfun,
    Op.value_special hfun hsp]

/-- A contraction whose output needs zeroing: its prelude fills the output with the `use_default`
source, which holds its value, or with zeros; its kernel then writes there the contraction's value
over the buffers of its inputs, which the prelude leaves, and over what the prelude wrote. -/
theorem SemInv.zero {outputs : List String} (hwf : prog.WF) (hTwf : prog.prngRewrite.WF)
    (hflow : prog.FlowWF vars inputs) (hbuf : prog.prngRewrite.BufferWF vars inputs) {i : Nat}
    (hinv : RunInv prog vars i st) (hf : FlowInv prog vars inputs outputs i st) (hc : CheckInv prog vars i st)
    (hi : i < prog.ops.length) (hct : (st.prog.op i).tag = .contraction) {pre : Kernel}
    (hpre : pre.writes = [(st.prog.op i).output])
    (hval : ∀ σ, pre.run vars covers σ (st.prog.op i).output = if (st.prog.op i).useDefault ≠ "" then
      σ (st.prog.op i).useDefault else .node (st.prog.op i).output "zero" [])
    {flat : FlatContraction} (hpo : flat.postOps = []) (hpoi : flat.postOpInputs = [])
    (hgen : flat.generateContraction = true) (hout : flat.output = (st.prog.op i).output)
    (hko : flat.kernelOutputs = [(st.prog.op i).output]) {k : Option Kernel}
    (h : contractionWrap vars (some (st.prog.op i)) flat st.varRewrites [] = .ok k) :
    SemInv prog vars covers inputs { st with kernels := st.kernels ++ pre :: k.toList } := by
  obtain ⟨ki, rfl⟩ := contractionWrap_some h (.inl hgen)
  obtain ⟨hfus, houts, hins⟩ := contractionWrap_info h
  have hiC := hinv.not_computed_of_contraction hct
  have hr : i < st.prog.ops.length := hinv.length ▸ hi
  have hpi : st.prog.op i = prog.op i := hc.op_eq_of_contraction hinv.opsWF hct
  have hpT : st.prog.op i = prog.prngRewrite.op i := hc.op_prngRewrite_of_le hwf le_rfl
  have hspecs : ∀ x ∈ (st.prog.op i).specs.tail, x ∈ (st.prog.op i).inputs := hpi ▸ hflow.specs i hi (hpi ▸ hct)
  have hdu : (st.prog.op i).useDefault ≠ "" → (st.prog.op i).useDefault ∈ (st.prog.op i).inputs ∧
      ∀ d ∈ (UseDef.ofProgram prog.prngRewrite).opDefs (st.prog.op i).useDefault,
        ¬ (prog.prngRewrite.op d).Elidable := by
    rw [hpT]
    exact hbuf.defaults i (by simpa using hi) (hpT ▸ hct)
  have hR := hc.rewrites_prngRewrite hwf hinv.rewrites
  refine hs.append rfl fun k hk n hn => ?_
  -- both kernels write the contraction's output only
  obtain rfl : n = (st.prog.op i).output := by
    simp only [Option.toList_some, List.mem_cons, List.mem_singleton, List.not_mem_nil, or_false] at hk
    rcases hk with rfl | rfl
    · rwa [hpre, List.mem_singleton] at hn
    · rwa [Kernel.writes, houts, hko, List.mem_singleton] at hn
  have hins' : ki.inputs = (((st.prog.op i).specs.tail.filter fun v => (vars v).tag = .tensor).map
      st.varRewrites.lookup) ++ ([] : List String).map st.varRewrites.lookup := by
    rw [hins, hpoi]
    rfl
  simp only [Option.toList_some, runKernels_cons, runKernels_nil, Kernel.run_contraction, KernelInfo.run, houts, hko,
    List.mem_singleton, if_true, KernelInfo.env_eq vars covers hins' (by rw [fusion_keys hfus, hpoi]; rfl),
    fusion_postOps hfus, fusion_generate hfus, fusion_output hfus, hpo, hgen, hout, runOps,
    Function.update_same]
  -- each contraction input looks up to a name the prelude does not write, which holds its value
  have hx : ∀ x ∈ (st.prog.op i).specs.tail.filter fun v => (vars v).tag = .tensor,
      pre.run vars covers (runKernels vars covers st.kernels .leaf) (st.varRewrites.lookup x) =
        prog.prngRewrite.eval vars covers x := by
    intro x hx
    obtain ⟨hxs, ht⟩ := List.mem_filter.1 hx
    have hxin := hspecs x hxs
    rw [Kernel.run_of_not_mem vars covers (by rw [hpre, List.mem_singleton]; exact hinv.lookup_ne_output hwf hr hxin),
      hs.agree _ (hf.avail i hi le_rfl hiC x hxin (of_decide_eq_true ht) fun d hd =>
        .inl (hinv.fits.defBefore i x d hxin hd)), hR.eval_lookup hTwf]
  -- what the prelude leaves in the output
  have hd : pre.run vars covers (runKernels vars covers st.kernels .leaf) (st.prog.op i).output =
      if (st.prog.op i).useDefault ≠ "" then prog.prngRewrite.eval vars covers (st.prog.op i).useDefault
      else .node (st.prog.op i).output "zero" [] := by
    rw [hval]
    split_ifs with hu
    · exact hs.read_unrewritten hwf hTwf hbuf hinv hf hc hi hiC (hdu hu).1 (hdu hu).2
    · rfl
  have hfn := hinv.opsWF.fn_empty (by rw [hct]; decide)
  rw [hpT] at hct hfn hx hspecs hd hdu ⊢
  exact Program.eval_contraction hTwf (by simpa using hi) hct hfn hspecs (fun hu => (hdu hu).1) hx fun _ => hd

/-- A `prng_step`: skipped when nothing reads it, turned into a rewrite of its state op when no op
reads its value, which writes nothing, or emitted with its companions, whose values the special
kernel writes. A step with a value has none of its companions rewritten. -/
theorem SemInv.prng {outputs : List String} (hwf : prog.WF) (hTwf : prog.prngRewrite.WF) (hcomp : prog.CompanionsWF)
    (hbuf : prog.prngRewrite.BufferWF vars inputs) {i : Nat} (hinv : RunInv prog vars i st)
    (hf : FlowInv prog vars inputs outputs i st) (hc : CheckInv prog vars i st) (hi : i < prog.ops.length)
    (hiC : i ∉ st.computed) (hstep : (st.prog.op i).fn = "prng_step") {st' : CompileState}
    (h : prngStep st i (st.prog.op i) = .ok st') : SemInv prog vars covers inputs st' := by
  have hsf : ScanFound st.prog i st.computed _ := prngScan_found fun j _ hj => by
    rw [hinv.output]; exact hcomp.named (hinv.length ▸ hj)
  generalize hscan : List.foldl (prngScan st.prog (st.prog.op i).output) { computed := st.computed }
    (List.range' (i + 1) (st.prog.ops.length - (i + 1))) = scan at hsf
  rcases prngStep_eq_ok hscan h with ⟨-, -, rfl⟩ | ⟨-, -, rfl⟩ | ⟨hv, hso, rfl⟩
  · exact hs.append (List.append_nil _).symm fun _ hk => absurd hk (List.not_mem_nil _)
  · exact hs.append (List.append_nil _).symm fun _ hk => absurd hk (List.not_mem_nil _)
  obtain ⟨his, hsn, hsr, hso'⟩ := hsf.state hso
  obtain ⟨j, hij, hjn, hjr, hvo⟩ := hsf.value hv
  have hlen : st.prog.ops.length = prog.ops.length := hinv.length
  have hpi : st.prog.op i = prog.op i := hc.op_eq_of_fn (by rw [hstep]; decide)
  have hpTi : st.prog.op i = prog.prngRewrite.op i := hc.op_prngRewrite_of_le hwf le_rfl
  -- the value companion `j` keeps every companion of the step from being rewritten
  have hpT : ∀ p, PrngCompanion st.prog (st.prog.op i).output p → st.prog.op p = prog.prngRewrite.op p :=
    fun p hp => hc.op_prngRewrite hwf fun j' _ hr => by
      have hpp : st.prog.op p = prog.op p := hc.op_eq_of_fn (by rcases hp with hp | hp <;> rw [hp.1] <;> decide)
      have hpin : (prog.op p).inputs = [(prog.op i).output] := by rw [← hpp, ← hpi]; exact hp.inputs
      have hj' : j' = i := (hwf.output_eq_iff (hr.2.1.trans hr.2.2.1) hi).1
        (List.singleton_inj.1 (hr.2.2.2.1.2.symm.trans hpin))
      rw [hj'] at hr
      exact hr.2.2.2.2.1 j (hlen ▸ hjn) hij ((hc.reads_iff hwf hi (by decide) j).1 (hpi ▸ hjr))
  have hsp : (st.prog.op i).isSpecial = true := by simp [Op.isSpecial, hstep]
  have hne : ∀ a b, a < st.prog.ops.length → b < st.prog.ops.length → a ≠ b →
      (st.prog.op a).output ≠ (st.prog.op b).output := fun a b ha hb hab he =>
    hab ((hwf.output_eq_iff (hlen ▸ ha) (hlen ▸ hb)).1 (by rwa [hinv.output, hinv.output] at he))
  have hsj : scan.soutPos ≠ j := fun he => absurd ((he ▸ hsr.1).symm.trans hjr.1) (by decide)
  -- the step's output, and a companion's output, hold their values
  have hvstep : Term.node (st.prog.op i).output (st.prog.op i).fn
      ((st.prog.op i).inputs.map (runKernels vars covers st.kernels .leaf)) =
        prog.prngRewrite.eval vars covers (st.prog.op i).output := by
    have hfun : (st.prog.op i).tag = .function := hinv.opsWF.tag_of_fn (by rw [hstep]; decide)
    rw [List.map_congr_left (hs.special_reads hwf hTwf hbuf hinv hf hc hi hiC hsp), hpTi]
    rw [hpTi] at hfun hsp
    rw [Program.eval_function hTwf (by simpa using hi) hfun,
      Op.value_special hfun hsp]
  have hcompanion : ∀ p < st.prog.ops.length, ∀ f, (f = "prng_state" ∨ f = "prng_value") →
      PrngReads st.prog f (st.prog.op i).output p → prog.prngRewrite.eval vars covers (st.prog.op p).output =
        .node (st.prog.op p).output f [prog.prngRewrite.eval vars covers (st.prog.op i).output] := by
    intro p hp f hfs hr
    have hpTp := hpT p (by rcases hfs with rfl | rfl; exacts [.inl hr, .inr hr])
    have hfun : (st.prog.op p).tag = .function :=
      hinv.opsWF.tag_of_fn (by rw [hr.1]; rcases hfs with rfl | rfl <;> decide)
    have hsp' : (st.prog.op p).isSpecial = true := by rcases hfs with rfl | rfl <;> simp [Op.isSpecial, hr.1]
    rw [PrngReads, hpTp, hpTi] at hr
    rw [hpTp] at hfun hsp' ⊢
    rw [hpTi, Program.eval_function hTwf (by rw [Program.prngRewrite_length, ← hlen]; exact hp) hfun,
      Op.value_special hfun hsp', hr.1, hr.2]
    rfl
  have hr : i < st.prog.ops.length := hinv.length ▸ hi
  refine hs.append rfl fun k hk n hn => ?_
  obtain rfl := List.mem_singleton.1 hk
  simp only [Kernel.writes, List.mem_cons, List.mem_singleton, List.not_mem_nil, or_false] at hn
  rw [hso', hvo] at hn
  simp only [runKernels_cons, runKernels_nil, Kernel.run, hso', hvo]
  rcases hn with rfl | rfl | rfl
  · rw [Function.update_noteq (hne i j hr hjn (by omega)), Function.update_noteq (hne i _ hr hsn (by omega)),
      Function.update_same, hvstep]
  · rw [Function.update_noteq (hne _ j hsn hjn hsj), Function.update_same, hvstep,
      hcompanion _ hsn _ (.inl rfl) hsr]
  · rw [Function.update_same, hvstep, hcompanion _ hjn _ (.inr rfl) hjr]

/-- A step through `DoUnification` and `ContractionWrap`. The fused kernel starts from its
post-op inputs, which hold their values, and from its contraction's value over buffers that hold
theirs. Its post-ops give their outputs their values. Each name it writes is either the output of
a member it keeps, or an available name that an elided member's output looks up to. -/
theorem SemInv.unify {outputs : List String} (hwf : prog.WF) (hTwf : prog.prngRewrite.WF)
    (hflow : prog.FlowWF vars inputs) (hbuf : prog.prngRewrite.BufferWF vars inputs) {i : Nat}
    (hinv : RunInv prog vars i st) (hf : FlowInv prog vars inputs outputs i st) (hc : CheckInv prog vars i st)
    (hi : i < prog.ops.length) (hiC : i ∉ st.computed)
    (hspec : (st.prog.op i).isSpecial = false) (hroot : (st.prog.op i).tag ≠ .constant)
    {c : Option Op} {flat0 flat : FlatContraction} {outPoly : List Polynomial} {C : List Nat} {vr : VarRewrites}
    {wsr : List String} {k : Option Kernel} (hpo : flat0.postOps = []) (hpoi : flat0.postOpInputs = [])
    (hko : flat0.kernelOutputs = []) (hout : flat0.output = (st.prog.op i).output)
    (hcase : (c = none ∧ flat0.generateContraction = false ∧ (st.prog.op i).tag = .function) ∨
      (c = some (st.prog.op i) ∧ flat0.generateContraction = true ∧ (st.prog.op i).tag = .contraction))
    (hcov : flat0.generateContraction = true → covers (st.prog.op i).output = true)
    (h1 : doUnification st.prog (UseDef.ofProgram prog) vars inputs outputs flat0 st.computed st.varRewrites [] i
      outPoly = .ok (flat, C, vr, wsr))
    (h2 : contractionWrap vars c flat vr wsr = .ok k) :
    SemInv prog vars covers inputs { st with computed := C, varRewrites := vr, kernels := st.kernels ++ k.toList } := by
  have hpTi : st.prog.op i = prog.prngRewrite.op i := hc.op_prngRewrite_of_le hwf le_rfl
  have hr : i < st.prog.ops.length := hinv.length ▸ hi
  have hm : Members st.prog vars i st.computed (UseDef.ofProgram prog)
      (connectedComponents st.prog vars i st.computed (UseDef.ofProgram prog)) :=
    (connectedComponents_run hinv.fits hr).2.toMembers
  have hUC : ∀ u ∈ connectedComponents st.prog vars i st.computed (UseDef.ofProgram prog), u ∉ st.computed :=
    fun u hu => (fused_fresh hiC hspec hm u hu).1
  -- a member is no special op, so the driver's program has it as the rewritten one does
  have hpTU : ∀ u ∈ connectedComponents st.prog vars i st.computed (UseDef.ofProgram prog),
      st.prog.op u = prog.prngRewrite.op u := fun u hu =>
    hc.op_prngRewrite_of_fn hwf fun h => by
      have := (fused_fresh hiC hspec hm u hu).2
      simp [Op.isSpecial, h] at this
  obtain ⟨ws, accs, hw, ⟨hq, hsem⟩, hacc, rfl, rfl, rfl, rfl⟩ := doUnification_eq_ok_keep hinv.fits
    (fun _ hu => hinv.opDefs_output hwf hu) (fun _ _ h => hinv.output_of_opDefs h) hr hiC hinv.rewrites hpo
    (fun ws => FlowWalk (UseDef.ofProgram prog) _ (Available inputs st.kernels) st.varRewrites ws ∧
      SemWalk vars covers (prog.prngRewrite.eval vars covers) ws)
    (fun hu _ hw hq h => ⟨FlowWalk.step hflow hinv hf hi hm hUC hroot hu hw hq.1 h,
      SemWalk.step hTwf (by rw [Program.prngRewrite_length, ← hinv.length]; exact ((hm.sound _ hu).bounds hinv.fits hr).2)
        (hpTU _ hu) (fun _ _ hxy => (hc.rewrites_prngRewrite hwf hw.toRewritesInv).eval_eq hTwf
          (by rw [hw.entries]; exact List.mem_append_left _ hxy)) hq.2 h⟩)
    ⟨FlowWalk.start, fun _ h => absurd h (List.not_mem_nil _)⟩ h1
  generalize connectedComponents st.prog vars i st.computed (UseDef.ofProgram prog) = U at hm hUC hpTU hw hq hsem h2 ⊢
  rcases contractionWrap_eq_ok h2 with ⟨rfl, -, -⟩ | ⟨ki, rfl, -⟩
  · exact hs.append rfl fun _ hk => by simp at hk
  obtain ⟨hfus, houts, hins⟩ := contractionWrap_info h2
  have hflat := hinv.rewrites.flat
  have hR := hc.rewrites_prngRewrite hwf hinv.rewrites
  have hbound : ∀ u ∈ U, i ≤ u ∧ u < st.prog.ops.length := fun u hu => (hm.sound u hu).bounds hinv.fits hr
  have hrootU : (UseDef.ofProgram prog).opDefs (st.prog.op i).output = some i := hinv.opDefs_output hwf hr
  have hrt : (vars (st.prog.op i).output).tag = .tensor := by
    rw [hpTi]; exact hbuf.tensors i (by simpa using hi) (hpTi ▸ hroot)
  have hgen : (st.prog.op i).tag ≠ .function → flat0.generateContraction = true := fun hnf =>
    (hcase.resolve_left fun h => hnf h.2.2).2.1
  -- a name no member defines is not rewritten by the walk
  have hlk : ∀ x, (∀ d, (UseDef.ofProgram prog).opDefs x = some d → d ∉ U) →
      ws.varRewrites.lookup x = st.varRewrites.lookup x := fun _ =>
    hw.lookup_outside hflat fun d hdU => hinv.opDefs_output hwf (hbound d hdU).2
  -- what a name reads in the kernel before the contraction: its buffer, through the binding
  set σ := runKernels vars covers st.kernels .leaf with hσ
  have hagree : ∀ n, Available inputs st.kernels n → σ n = prog.prngRewrite.eval vars covers n := hs.agree
  set B : String → Term := fun n => if n ∈ ws.postContractionInputs then σ (ws.varRewrites.lookup n) else σ n
    with hB
  have hBin : ∀ m ∈ ws.postContractionInputs, B m = prog.prngRewrite.eval vars covers m ∧ m ≠ (st.prog.op i).output :=
    fun m hm' => by
      obtain ⟨hout', hA⟩ := hq.postInputs m hm'
      refine ⟨?_, fun he => hout' i (by rw [he]; exact hrootU) hm.root⟩
      rw [hB]
      dsimp only
      rw [if_pos hm', hlk m hout', hagree _ hA, hR.eval_lookup hTwf]
  have hBsc : ∀ m, (vars m).tag ≠ .tensor → B m = prog.prngRewrite.eval vars covers m := fun m ht => by
    by_cases hm' : m ∈ ws.postContractionInputs
    · exact (hBin m hm').1
    · rw [hB]
      dsimp only
      rw [if_neg hm']
      exact hs.scalar hTwf hbuf ht
  have hBav : ∀ t, Available inputs st.kernels t → (∀ d, (UseDef.ofProgram prog).opDefs t = some d → d ∉ U) →
      st.varRewrites.entries.lookup t = none → B t = prog.prngRewrite.eval vars covers t ∧ t ≠ (st.prog.op i).output :=
    fun t hA hout' hnk => by
      refine ⟨?_, fun he => hout' i (by rw [he]; exact hrootU) hm.root⟩
      have hself : ws.varRewrites.lookup t = t := by
        rw [hlk t hout', VarRewrites.lookup_of_flat hflat, hnk]
        rfl
      rw [hB]
      dsimp only
      split_ifs
      · rw [hself]
        exact hs.agree t hA
      · exact hs.agree t hA
  -- the contraction's value over the buffers of its inputs
  have hcval : flat0.generateContraction = true →
      Term.node (st.prog.op i).output "" ((((((c.map (·.specs.tail)).getD []).filter fun v => (vars v).tag = .tensor).map
        ws.varRewrites.lookup).map σ) ++ if covers (st.prog.op i).output then [] else [σ (st.prog.op i).output]) =
        prog.prngRewrite.eval vars covers (st.prog.op i).output := fun hg => by
    obtain ⟨rfl, -, hct⟩ := hcase.resolve_left fun h => by rw [h.2.1] at hg; cases hg
    have hpi : st.prog.op i = prog.op i := hc.op_eq_of_contraction hinv.opsWF hct
    have hspecs : ∀ x ∈ (st.prog.op i).specs.tail, x ∈ (st.prog.op i).inputs := hpi ▸ hflow.specs i hi (hpi ▸ hct)
    have hx : ∀ x ∈ (st.prog.op i).specs.tail.filter fun v => (vars v).tag = .tensor,
        σ (ws.varRewrites.lookup x) = prog.prngRewrite.eval vars covers x := fun x hx => by
      obtain ⟨hxs, ht⟩ := List.mem_filter.1 hx
      have hxin := hspecs x hxs
      have hout' : ∀ d, (UseDef.ofProgram prog).opDefs x = some d → d ∉ U := fun d hd hdU => by
        have := hinv.fits.defBefore i x d hxin hd
        have := (hbound d hdU).1
        omega
      rw [hlk x hout', hagree _ (hf.outside hflow hinv hi hm hUC hm.root hxin (of_decide_eq_true ht) hout'),
        hR.eval_lookup hTwf]
    have hfn := hinv.opsWF.fn_empty (by rw [hct]; decide)
    have hcv := hcov hg
    simp only [Option.map_some', Option.getD_some]
    rw [hpTi] at hct hfn hx hspecs hcv ⊢
    exact Program.eval_contraction hTwf (by simpa using hi) hct hfn hspecs
      (fun hu => (hbuf.defaults i (by simpa using hi) hct hu).1) hx fun hcf => absurd (hcv.symm.trans hcf) (by decide)
  -- the kernel's values before its post-ops: the contraction's output, and the binding elsewhere
  set env0 : String → Term := if flat0.generateContraction then
      Function.update B (st.prog.op i).output (.node (st.prog.op i).output ""
        ((((((c.map (·.specs.tail)).getD []).filter fun v => (vars v).tag = .tensor).map ws.varRewrites.lookup).map σ) ++
          if covers (st.prog.op i).output then [] else [σ (st.prog.op i).output]))
    else B with henv0
  have hE : ∀ m, m ≠ (st.prog.op i).output → env0 m = B m := fun m hm' => by
    rw [henv0]
    split
    · exact Function.update_noteq hm' _ _
    · rfl
  have hEroot : (st.prog.op i).tag ≠ .function → env0 (st.prog.op i).output = prog.prngRewrite.eval vars covers (st.prog.op i).output :=
    fun hnf => by rw [henv0, if_pos (hgen hnf), Function.update_same, hcval (hgen hnf)]
  -- a member the walk keeps: the root, whose value the contraction gives, or a post-op
  have hkept : ∀ e ∈ U, ws.localRewrites.lookup (st.prog.op e).output = none →
      env0 (st.prog.op e).output = prog.prngRewrite.eval vars covers (st.prog.op e).output ∨
        (st.prog.op e).output ∈ ws.postOps.map (·.output) := fun e he hle => by
    by_cases hef : (st.prog.op e).tag = .function
    · have hacc := hw.account (st.prog.op e).output
      rw [if_pos ⟨e, he, hef, rfl⟩, count_keys_of_lookup_none hle, add_zero] at hacc
      exact .inr (List.count_pos_iff.1 (by omega))
    · obtain rfl : e = i := by
        by_contra her
        exact hef (hm.nonroot he her).2.1
      exact .inl (hEroot hef)
  refine hs.append rfl fun k hk n hn => ?_
  obtain rfl := List.mem_singleton.1 hk
  have hkeys : ki.flat.postOpInputs.map (·.1) = ws.postContractionInputs := by
    rw [fusion_keys hfus, List.map_append, hpoi, List.map_nil, List.nil_append]
    exact (postOpAccesses_eq_ok hacc).1
  have hins' : ki.inputs = (((c.map (·.specs.tail)).getD []).filter fun v => (vars v).tag = .tensor).map
      ws.varRewrites.lookup ++ ws.postContractionInputs.map ws.varRewrites.lookup := by
    rw [hins, ← (postOpAccesses_eq_ok hacc).1]
    simp [hpoi]
  rw [Kernel.writes, houts] at hn
  simp only [Option.toList_some, runKernels_cons, runKernels_nil, Kernel.run_contraction, KernelInfo.run, houts,
    if_pos hn, KernelInfo.env_eq vars covers hins' hkeys, fusion_postOps hfus, fusion_generate hfus, fusion_output hfus, hout]
  refine runOps_agree vars covers hsem (fun j hj m hm => ?_) n ?_
  · -- a post-op reads a post-op input, the contraction's output, an earlier post-op's output or a scalar
    obtain ⟨o, -, -, -, hall⟩ := hw.reads j hj
    obtain ⟨htens, -, -⟩ := hall m hm
    by_cases ht : (vars m).tag = .tensor
    · rcases htens ht with hpci | ⟨rfl, hnf⟩ | hearly
      · exact .inl ((hE m (hBin m hpci).2).trans (hBin m hpci).1)
      · exact .inl (hEroot hnf)
      · exact .inr hearly
    · exact .inl ((hE m fun he => ht (he ▸ hrt)).trans (hBsc m ht))
  · -- a kernel output is what a member's output looks up to
    simp only [hko, List.nil_append] at hn
    obtain ⟨u, hu, rfl⟩ := of_mem_kernelOutputs hn
    rcases FlowWalk.lookup_member hw hq hflat (fun _ _ h => hinv.output_of_opDefs h) hu
        (hinv.lookup_self (hinv.opDefs_output hwf (hbound u hu).2) (hUC u hu)) with ⟨e, heU, hle, he⟩ | ⟨t, hA, hout', hnk, ht⟩
    · rw [he]
      exact hkept e heU hle
    · -- elided into an available name no member defines
      obtain ⟨hBt, hne⟩ := hBav t hA hout' hnk
      rw [ht]
      exact .inl ((hE t hne).trans hBt)

/-- One op of the driver keeps the invariant, when every contraction that the driver computes
without a prelude writes every element of its output. -/
theorem SemInv.step {outputs : List String} (hwf : prog.WF) (hTwf : prog.prngRewrite.WF) (hcomp : prog.CompanionsWF)
    (hflow : prog.FlowWF vars inputs) (hbuf : prog.prngRewrite.BufferWF vars inputs)
    {lower : Op → FlatContraction × List Polynomial} (hlower : LoweringWF lower)
    (hpoi : ∀ op, (lower op).1.postOpInputs = []) (hko : ∀ op, (lower op).1.kernelOutputs = [])
    (hcov : ∀ k < prog.ops.length, (prog.op k).tag = .contraction →
      needsZero .sizeT { (lower (prog.op k)).1 with output := (prog.op k).output } = false →
        covers (prog.op k).output = true) {i : Nat}
    (hinv : RunInv prog vars i st) (hf : FlowInv prog vars inputs outputs i st) (hc : CheckInv prog vars i st)
    (hi : i < prog.ops.length) {st' : CompileState}
    (h : compileStep (UseDef.ofProgram prog) vars inputs outputs lower st i = .ok st') :
    SemInv prog vars covers inputs st' := by
  rcases compileStep_cases h with ⟨k, hct, hk, rfl⟩ | ⟨c, flat0, outPoly, flat, C, vr, wsr, k, hroot, h1, hk, rfl⟩ |
      ⟨-, -, rfl⟩ | ⟨-, -, hiC, hsp, -, -, -, rfl⟩ | ⟨-, hiC, hstep, h⟩
  · exact hs.zero hwf hTwf hflow hbuf hinv hf hc hi hct (by split <;> rfl)
      (fun _ => by split <;> exact Function.update_same _ _ _) (by exact hlower.postOps _)
      (by exact hpoi _) (by exact hlower.generate _) rfl (by simp [hko]) hk
  · rcases hroot with ⟨rfl, hct, hnz, rfl, rfl⟩ | ⟨rfl, hfun, hiC, hsp, rfl, rfl⟩
    · have hpi : st.prog.op i = prog.op i := hc.op_eq_of_contraction hinv.opsWF hct
      exact hs.unify hwf hTwf hflow hbuf hinv hf hc hi (hinv.not_computed_of_contraction hct)
        (hinv.opsWF.isSpecial_of_contraction hct) (by rw [hct]; decide) (by exact hlower.postOps _)
        (by exact hpoi _) (by exact hko _) rfl (.inr ⟨rfl, by exact hlower.generate _, hct⟩)
        (fun _ => by rw [hpi] at hnz ⊢; exact hcov i hi (hpi ▸ hct) hnz) h1 hk
    · exact hs.unify hwf hTwf hflow hbuf hinv hf hc hi hiC hsp (by rw [hfun]; decide) rfl rfl rfl rfl
        (.inl ⟨rfl, rfl, hfun⟩) (fun h => by cases h) h1 hk
  · exact hs
  · exact hs.special hwf hTwf hbuf hinv hf hc hi hiC hsp
  · exact hs.prng hwf hTwf hcomp hbuf hinv hf hc hi hiC hstep h

end Sem

section Run

variable {prog : Program} {vars : Bindings} {covers : String → Bool} {inputs outputs : List String}
  {lower : Op → FlatContraction × List Polynomial}

/-- Every state of a run satisfies the invariant. -/
theorem compileOps_semInv (hwf : prog.WF) (hops : prog.OpsWF) (hcomp : prog.CompanionsWF)
    (hflow : prog.FlowWF vars inputs) (hbuf : prog.prngRewrite.BufferWF vars inputs) (hlower : LoweringWF lower)
    (hpoi : ∀ op, (lower op).1.postOpInputs = []) (hko : ∀ op, (lower op).1.kernelOutputs = [])
    (hcov : ∀ k < prog.ops.length, (prog.op k).tag = .contraction →
      needsZero .sizeT { (lower (prog.op k)).1 with output := (prog.op k).output } = false →
        covers (prog.op k).output = true) :
    ∀ {i : Nat} {st : CompileState}, i ≤ prog.ops.length →
      compileOps prog vars inputs outputs lower i = .ok st → SemInv prog vars covers inputs st
  | 0, st, _, h => by
    cases h
    exact SemInv.start (hwf.prngRewrite hops) hbuf
  | i + 1, st, hi, h => by
    rw [compileOps_succ] at h
    obtain ⟨st0, h0, h⟩ := except_bind_ok h
    exact (compileOps_semInv hwf hops hcomp hflow hbuf hlower hpoi hko hcov (by omega) h0).step hwf
      (hwf.prngRewrite hops) hcomp hflow hbuf hlower hpoi hko hcov (compileOps_inv hwf hops hlower (by omega) h0)
      (compileOps_flowInv hwf hops hcomp hflow hlower hpoi (by omega) h0)
      (compileOps_checkInv hwf hops hcomp.outputNamed hlower (by omega) h0) (by omega) h

/-- At the end of a run, a tensor program output that no `prng_step` writes, looked up through the
final rewrites, holds its value: it is available, and the rewrites keep values. -/
theorem SemInv.output_lookup (hwf : prog.WF) (hops : prog.OpsWF) (hcomp : prog.CompanionsWF)
    (hflow : prog.FlowWF vars inputs) (hlower : LoweringWF lower) (hpoi : ∀ op, (lower op).1.postOpInputs = [])
    {st : CompileState} (hst : compileOps prog vars inputs outputs lower prog.ops.length = .ok st)
    (hs : SemInv prog vars covers inputs st) {k : Nat} (hk : k < prog.ops.length) (hfn : (prog.op k).fn ≠ "prng_step")
    (ho : (prog.op k).output ∈ outputs) (ht : (vars (prog.op k).output).tag = .tensor) :
    runKernels vars covers st.kernels .leaf (st.varRewrites.lookup (prog.op k).output) =
      prog.prngRewrite.eval vars covers (prog.op k).output := by
  have hR := (compileOps_checkInv hwf hops hcomp.outputNamed hlower le_rfl hst).rewrites_prngRewrite hwf
    (compileOps_inv hwf hops hlower le_rfl hst).rewrites
  rw [hs.agree _ ((compileOps_flowInv hwf hops hcomp hflow hlower hpoi le_rfl hst).outs _ ho ht k
    (UseDef.ofProgram_opDefs_output hwf hk) (.inl hk) hfn), hR.eval_lookup (hwf.prngRewrite hops)]

end Run

/-- **`Compile` preserves the program's dataflow.** A term records which op computes a buffer and
from which buffers; element layout, strides and broadcasting are not modelled. Take a well-formed
program whose ops name their outputs, in which no two `prng_state` ops and no two `prng_value` ops
read the same inputs, whose constants are no tensors and all other ops write tensors, whose
`prng_step` outputs only their companions read, whose undefined tensors are program inputs that
no op writes, whose contractions' specs and `use_default` sources are among their inputs, whose
special ops and `use_default` sources read no reshape or ident output, and whose `prng_step`s with
a state have a value. Take a lowering that gives no post-op inputs and no kernel outputs of its
own, and that writes every output element of a contraction for which `NeedsZero` answers false.
Running the kernel list `Compile` returns, from buffers that hold their own names, leaves every
program input and every name a kernel writes holding the interpreter's term of it, and every
tensor program output not written by a `prng_step`, looked up through the returned
`var_rewrites`, holding the output's term. -/
theorem compile_preserves_dataflow (prog : Program) (vars : Bindings) (inputs outputs : List String)
    (lower : Op → FlatContraction × List Polynomial) (covers : String → Bool) (hwf : prog.WF) (hops : prog.OpsWF)
    (hcomp : prog.CompanionsWF) (hflow : prog.FlowWF vars inputs) (hval : prog.ValueWF vars inputs)
    (hlower : LoweringWF lower) (hpoi : ∀ op, (lower op).1.postOpInputs = [])
    (hko : ∀ op, (lower op).1.kernelOutputs = [])
    (hcov : ∀ k < prog.ops.length, (prog.op k).tag = .contraction →
      needsZero .sizeT { (lower (prog.op k)).1 with output := (prog.op k).output } = false →
        covers (prog.op k).output = true) {res : KernelList}
    (h : compile prog vars inputs outputs lower = .ok res) :
    (∀ n, Available inputs res.kernels n → runKernels vars covers res.kernels .leaf n = prog.eval vars covers n) ∧
      ∀ op ∈ prog.ops, op.fn ≠ "prng_step" → op.output ∈ outputs → (vars op.output).tag = .tensor →
        runKernels vars covers res.kernels .leaf (res.varRewrites.lookup op.output) = prog.eval vars covers op.output := by
  have hT := hval.prngRewrite_eq hwf
  obtain ⟨st, hst, rfl⟩ := compile_eq_ok h
  have hs := compileOps_semInv hwf hops hcomp hflow (by rw [hT]; exact hval.toBufferWF) hlower hpoi hko hcov le_rfl hst
  refine ⟨fun n hn => hT ▸ hs.agree n hn, fun op hop hfn ho ht => ?_⟩
  obtain ⟨k, hk, rfl⟩ := List.getElem_of_mem hop
  rw [← Program.op_of_lt hk] at hfn ho ht ⊢
  have := hs.output_lookup hwf hops hcomp hflow hlower hpoi hst hk hfn ho ht
  rwa [hT] at this

/-- `D = relu(X)`, then a contraction into `O` that needs zeroing, with `use_default = D`. -/
def defaultCopyProgram : Program :=
  ⟨[{ tag := .function, output := "D", inputs := ["X"], fn := "relu" },
    { tag := .contraction, output := "O", inputs := ["A", "D"], specs := ["O", "A"], useDefault := "D" }]⟩

/-- Under a lowering that leaves elements of `O` unwritten, `O`'s term reads `D`'s: the copy prelude
fills `O` from `D`, which the first kernel writes. -/
theorem defaultCopy_preserves_dataflow : ∃ res,
    compile defaultCopyProgram vec8Bindings ["X", "A"] ["O"] stridedLower = .ok res ∧
    defaultCopyProgram.eval vec8Bindings (fun _ => false) "O" =
      .node "O" "" [.leaf "A", .node "D" "relu" [.leaf "X"]] ∧
    ((∀ n, Available ["X", "A"] res.kernels n →
        runKernels vec8Bindings (fun _ => false) res.kernels .leaf n =
          defaultCopyProgram.eval vec8Bindings (fun _ => false) n) ∧
      ∀ op ∈ defaultCopyProgram.ops, op.fn ≠ "prng_step" → op.output ∈ ["O"] →
        (vec8Bindings op.output).tag = .tensor → runKernels vec8Bindings (fun _ => false) res.kernels .leaf
          (res.varRewrites.lookup op.output) = defaultCopyProgram.eval vec8Bindings (fun _ => false) op.output) :=
  ⟨_, rfl, rfl, compile_preserves_dataflow defaultCopyProgram vec8Bindings ["X", "A"] ["O"] stridedLower
    (fun _ => false) (by decide) (by decide) (by decide) (by decide) (by decide) ⟨fun _ => rfl, fun _ => rfl⟩
    (fun _ => rfl) (fun _ => rfl) (by decide) rfl⟩

/- Without the `use_default` condition the dataflow is not kept: the copy prelude of `O` reads `D`,
an elided reshape that no kernel writes, where the program reads `X`. -/
example : ∃ res, compile useDefaultProgram vec8Bindings ["X", "A"] ["O"] stridedLower = .ok res ∧
    runKernels vec8Bindings (fun _ => false) res.kernels .leaf "O" = .node "O" "" [.leaf "A", .leaf "D"] ∧
    useDefaultProgram.eval vec8Bindings (fun _ => false) "O" = .node "O" "" [.leaf "A", .leaf "X"] :=
  ⟨_, rfl, rfl, rfl⟩

/-- **`Compile` computes the program its run amounts to.** Without asking that a `prng_step` with a
state have a value: on every program and lowering as for `compile_preserves_dataflow`, with the
special-read and `use_default` conditions asked of the rewritten program, running the kernel list
`Compile` returns leaves every program input and every name a kernel writes holding its term in
`prog.prngRewrite`, and every tensor program output not written by a `prng_step`, looked up through
the returned `var_rewrites`, holding the output's term there. In `prog.prngRewrite` the last state
of a `prng_step` whose value no op reads is the ident of the step's state input: it has the state
input's term, so that state is not advanced. -/
theorem compile_computes_prngRewrite (prog : Program) (vars : Bindings) (inputs outputs : List String)
    (lower : Op → FlatContraction × List Polynomial) (covers : String → Bool) (hwf : prog.WF) (hops : prog.OpsWF)
    (hcomp : prog.CompanionsWF) (hflow : prog.FlowWF vars inputs) (hbuf : prog.prngRewrite.BufferWF vars inputs)
    (hlower : LoweringWF lower) (hpoi : ∀ op, (lower op).1.postOpInputs = [])
    (hko : ∀ op, (lower op).1.kernelOutputs = [])
    (hcov : ∀ k < prog.ops.length, (prog.op k).tag = .contraction →
      needsZero .sizeT { (lower (prog.op k)).1 with output := (prog.op k).output } = false →
        covers (prog.op k).output = true) {res : KernelList}
    (h : compile prog vars inputs outputs lower = .ok res) :
    (∀ n, Available inputs res.kernels n →
        runKernels vars covers res.kernels .leaf n = prog.prngRewrite.eval vars covers n) ∧
      (∀ op ∈ prog.ops, op.fn ≠ "prng_step" → op.output ∈ outputs → (vars op.output).tag = .tensor →
        runKernels vars covers res.kernels .leaf (res.varRewrites.lookup op.output) =
          prog.prngRewrite.eval vars covers op.output) ∧
      ∀ j s, PrngRewrites prog j s → prog.prngRewrite.eval vars covers (prog.op s).output =
        prog.prngRewrite.eval vars covers ((prog.op j).inputs.headD "") := by
  obtain ⟨st, hst, rfl⟩ := compile_eq_ok h
  have hs := compileOps_semInv hwf hops hcomp hflow hbuf hlower hpoi hko hcov le_rfl hst
  refine ⟨hs.agree, fun op hop hfn ho ht => ?_, fun _ _ => Program.prngRewrite_eval_state hwf hops vars covers⟩
  obtain ⟨k, hk, rfl⟩ := List.getElem_of_mem hop
  rw [← Program.op_of_lt hk] at hfn ho ht ⊢
  exact hs.output_lookup hwf hops hcomp hflow hlower hpoi hst hk hfn ho ht

/-- `t = prng_step(S)` and its state `s`, whose value no op reads. -/
def unusedValueProgram : Program :=
  ⟨[{ tag := .function, output := "t", inputs := ["S"], fn := "prng_step" },
    { tag := .function, output := "s", inputs := ["t"], fn := "prng_state" }]⟩

/-- The state of a `prng_step` whose value no op reads: the driver makes it the ident of `S`, and the
kernel list computes it as the contents of `S`. -/
theorem unusedValue_computes_prngRewrite : ∃ res,
    compile unusedValueProgram vec8Bindings ["S"] ["s"] contiguousLower = .ok res ∧
    unusedValueProgram.prngRewrite.eval vec8Bindings (fun _ => true) "s" = .leaf "S" ∧
    ((∀ n, Available ["S"] res.kernels n → runKernels vec8Bindings (fun _ => true) res.kernels .leaf n =
        unusedValueProgram.prngRewrite.eval vec8Bindings (fun _ => true) n) ∧
      (∀ op ∈ unusedValueProgram.ops, op.fn ≠ "prng_step" → op.output ∈ ["s"] →
        (vec8Bindings op.output).tag = .tensor → runKernels vec8Bindings (fun _ => true) res.kernels .leaf
          (res.varRewrites.lookup op.output) = unusedValueProgram.prngRewrite.eval vec8Bindings (fun _ => true) op.output) ∧
      ∀ j s, PrngRewrites unusedValueProgram j s → unusedValueProgram.prngRewrite.eval vec8Bindings (fun _ => true)
        (unusedValueProgram.op s).output = unusedValueProgram.prngRewrite.eval vec8Bindings (fun _ => true)
          ((unusedValueProgram.op j).inputs.headD "")) :=
  ⟨_, rfl, rfl, compile_computes_prngRewrite unusedValueProgram vec8Bindings ["S"] ["s"] contiguousLower
    (fun _ => true) (by decide) (by decide) (by decide) (by decide) (by decide) ⟨fun _ => rfl, fun _ => rfl⟩
    (fun _ => rfl) (fun _ => rfl) (fun _ _ _ _ => rfl) rfl⟩

end TileGen
