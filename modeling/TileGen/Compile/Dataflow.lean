/-
The dataflow of the kernel list. Every contraction or elementwise kernel that `Compile` emits reads
only program inputs and names an earlier kernel writes (`compile_reads_available`, stated against
the kernels before each one by `ReadsAvailable`), and every tensor program output, looked up, is a
program input or written by a kernel (`compile_outputs_available`), a `prng_step`'s own output
apart. Both rest on `DoUnification`: a fused set takes in the ops it reads from at or after its
root, sends the readers of an elided reshape or ident to its source, and writes every output an op
outside needs. Copy preludes and special kernels read their names without looking them up, so they
can read an elided name no kernel writes (`compile_copy_reads_elided`). `FlowInv` carries this
over a run, `FlowWalk` over the walk of a fused set.
-/
import TileGen.Compile.Errors

namespace TileGen

/-! ## Available names -/

section Available

variable {inputs : List String}

/-- A name a kernel can read: a program input, or a name written by one of the kernels `ks`. -/
def Available (inputs : List String) (ks : List Kernel) (n : String) : Prop :=
  n ∈ inputs ∨ ∃ k ∈ ks, n ∈ k.writes

theorem Available.append {ks : List Kernel} {n : String} (h : Available inputs ks n) (ks' : List Kernel) :
    Available inputs (ks ++ ks') n :=
  h.imp_right fun ⟨k, hk, hn⟩ => ⟨k, List.mem_append_left _ hk, hn⟩

/-- Every contraction or elementwise kernel of `ks` reads only names available before it. -/
def ReadsAvailable (inputs : List String) (ks : List Kernel) : Prop :=
  ∀ pre ki post, ks = pre ++ .contraction ki :: post → ∀ n ∈ ki.inputs, Available inputs pre n

theorem ReadsAvailable.nil : ReadsAvailable inputs [] := fun pre _ _ h => by
  cases pre <;> cases h

theorem ReadsAvailable.snoc {ks : List Kernel} {k : Kernel} (h : ReadsAvailable inputs ks)
    (hk : ∀ ki, k = .contraction ki → ∀ n ∈ ki.inputs, Available inputs ks n) :
    ReadsAvailable inputs (ks ++ [k]) := by
  intro pre ki post he
  rcases List.eq_nil_or_concat post with rfl | ⟨L, b, rfl⟩
  · obtain ⟨rfl, hki⟩ := List.append_inj' he rfl
    exact hk ki (List.singleton_inj.1 hki)
  · rw [List.concat_eq_append, ← List.cons_append, ← List.append_assoc] at he
    exact h pre ki L (List.append_inj' he rfl).1

/-- Appending a kernel that is no contraction or elementwise kernel. -/
theorem ReadsAvailable.snoc_other {ks : List Kernel} {k : Kernel} (h : ReadsAvailable inputs ks)
    (hk : ∀ ki, k ≠ .contraction ki) : ReadsAvailable inputs (ks ++ [k]) :=
  h.snoc fun ki he => absurd he (hk ki)

/-- Appending the kernel `ContractionWrap` returns, if any. -/
theorem ReadsAvailable.append_option {ks : List Kernel} {k : Option Kernel} (h : ReadsAvailable inputs ks)
    (hk : ∀ ki, k = some (.contraction ki) → ∀ n ∈ ki.inputs, Available inputs ks n) :
    ReadsAvailable inputs (ks ++ k.toList) := by
  cases k with
  | none => rwa [Option.toList_none, List.append_nil]
  | some k => exact h.snoc fun ki he => hk ki (he ▸ rfl)

end Available

/-! ## The use/def index -/

theorem UseDef.build_uses_of_mem {v : String} {c : Nat} :
    ∀ (i : Nat) (ops : List Op) (ud : UseDef), c ∈ ud.uses v → c ∈ (UseDef.build i ops ud).uses v
  | _, [], _, h => h
  | i, op :: ops, ud, h => UseDef.build_uses_of_mem (i + 1) ops _ (by
      simp only
      split_ifs
      · exact mem_setInsert.2 (.inr h)
      · exact h)

theorem UseDef.build_uses_at {v : String} :
    ∀ (i : Nat) (ops : List Op) (ud : UseDef) (k : Nat) (hk : k < ops.length), v ∈ ops[k].inputs →
      i + k ∈ (UseDef.build i ops ud).uses v
  | _, [], _, _, hk, _ => absurd hk (Nat.not_lt_zero _)
  | i, op :: ops, ud, 0, _, hv => UseDef.build_uses_of_mem (i + 1) ops _ (by
      rw [List.getElem_cons_zero] at hv
      simp only
      rw [if_pos hv]
      exact mem_setInsert.2 (.inl rfl))
  | i, op :: ops, ud, k + 1, hk, hv => by
      rw [show i + (k + 1) = i + 1 + k by omega]
      exact UseDef.build_uses_at (i + 1) ops _ k (Nat.lt_of_succ_lt_succ hk) (by simpa using hv)

/-- Every op reading `v` is among `v`'s uses. -/
theorem UseDef.ofProgram_mem_uses {prog : Program} {v : String} {c : Nat} (hc : c < prog.ops.length)
    (hv : v ∈ (prog.op c).inputs) : c ∈ (UseDef.ofProgram prog).uses v := by
  rw [Program.op_of_lt hc] at hv
  simpa using UseDef.build_uses_at 0 prog.ops _ c hc hv

/-! ## What the guarantee assumes of a program -/

/-- What the dataflow of the kernel list needs of a program beyond what the driver needs: a
constant is no tensor; only its `prng_state` and `prng_value` companions read a `prng_step`; a
tensor that no op defines is a program input; and a contraction's specs name inputs of the op. -/
@[mk_iff] structure Program.FlowWF (prog : Program) (vars : Bindings) (inputs : List String) : Prop where
  constant : ∀ k < prog.ops.length, (prog.op k).tag = .constant → (vars (prog.op k).output).tag ≠ .tensor
  steps : ∀ j < prog.ops.length, ∀ k < prog.ops.length,
    (prog.op j).fn = "prng_step" ∧ (prog.op j).output ∈ (prog.op k).inputs → PrngCompanion prog (prog.op j).output k
  undefined : ∀ k < prog.ops.length, ∀ x ∈ (prog.op k).inputs,
    (vars x).tag = .tensor ∧ (UseDef.ofProgram prog).opDefs x = none → x ∈ inputs
  specs : ∀ k < prog.ops.length, (prog.op k).tag = .contraction → ∀ x ∈ (prog.op k).specs.tail,
    x ∈ (prog.op k).inputs

instance (prog : Program) (tup : String) (k : Nat) : Decidable (PrngCompanion prog tup k) :=
  inferInstanceAs (Decidable (_ ∨ _))

instance (prog : Program) (vars : Bindings) (inputs : List String) : Decidable (prog.FlowWF vars inputs) :=
  @decidable_of_iff' _ _ (Program.flowWF_iff prog vars inputs) <| @instDecidableAnd _ _ inferInstance <|
    @instDecidableAnd _ _ inferInstance <| @instDecidableAnd _ _ inferInstance inferInstance

/-! ## The kernel `ContractionWrap` builds -/

/-- A kernel that `ContractionWrap` keeps writes the kernel outputs and reads, looked up, the
contraction's tensor inputs and the post-op inputs. -/
theorem contractionWrap_kernel {vars : Bindings} {c : Option Op} {flat : FlatContraction} {vr : VarRewrites}
    {wsr : List String} {ki : KernelInfo} (h : contractionWrap vars c flat vr wsr = .ok (some (.contraction ki))) :
    ki.outputs = flat.kernelOutputs ∧ ∀ n ∈ ki.inputs,
      (∃ op ∈ c, ∃ x ∈ op.specs.tail, (vars x).tag = .tensor ∧ n = vr.lookup x) ∨
        ∃ x ∈ flat.postOpInputs.map (·.1), n = vr.lookup x := by
  have hf := simplifyLoop_fusion .sizeT (flat.ranges.length + 1) flat
  have hkeys : ∀ n, (∃ p ∈ (simplifyFlatLoop .sizeT flat).postOpInputs, vr.lookup p.1 = n) →
      ∃ x ∈ flat.postOpInputs.map (·.1), n = vr.lookup x := fun n ⟨p, hp, hpn⟩ =>
    ⟨p.1, (fusion_keys hf) ▸ List.mem_map_of_mem _ hp, hpn.symm⟩
  unfold contractionWrap at h
  split_ifs at h with h0
  · cases h
  rcases c with _ | op
  · cases h
    refine ⟨congrArg (fun f => f.2.2.2.1) hf, fun n hn => .inr (hkeys n ?_)⟩
    simpa using hn
  · dsimp only at h
    split_ifs at h <;> cases h
    refine ⟨congrArg (fun f => f.2.2.2.1) hf, fun n hn => ?_⟩
    simp only [List.mem_append, List.mem_map, List.mem_filter, decide_eq_true_eq] at hn
    rcases hn with ⟨x, ⟨hx, ht⟩, rfl⟩ | hn
    · exact .inl ⟨op, rfl, x, hx, ht, rfl⟩
    · exact .inr (hkeys n hn)

/-- `ContractionWrap` keeps a kernel that has a contraction or a post-op to generate. -/
theorem contractionWrap_some {vars : Bindings} {c : Option Op} {flat : FlatContraction} {vr : VarRewrites}
    {wsr : List String} {k : Option Kernel} (h : contractionWrap vars c flat vr wsr = .ok k)
    (hk : flat.generateContraction = true ∨ flat.postOps ≠ []) : ∃ ki, k = some (.contraction ki) := by
  rcases contractionWrap_eq_ok h with ⟨-, hg, hp⟩ | ⟨ki, rfl, -⟩
  · rcases hk with hk | hk
    · rw [hg] at hk; cases hk
    · exact absurd hp hk
  · exact ⟨ki, rfl⟩

/-! ## The kernel outputs of a fused set -/

theorem mem_foldl_of_mem {α β : Type} {f : List β → α → List β} {x : β} (hf : ∀ acc a, x ∈ acc → x ∈ f acc a) :
    ∀ (l : List α) {acc : List β}, x ∈ acc → x ∈ l.foldl f acc
  | [], _, h => h
  | a :: l, _, h => mem_foldl_of_mem hf l (hf _ a h)

theorem mem_foldl_of_step {α β : Type} {f : List β → α → List β} {x : β} (hf : ∀ acc a, x ∈ acc → x ∈ f acc a)
    {a : α} (hx : ∀ acc, x ∈ f acc a) : ∀ {l : List α} (acc : List β), a ∈ l → x ∈ l.foldl f acc
  | _ :: l, acc, .head _ => mem_foldl_of_mem hf l (hx acc)
  | b :: _, acc, .tail _ h => mem_foldl_of_step hf hx (f acc b) h

theorem of_mem_foldl {α β : Type} {f : List β → α → List β} {x : β} {P : α → Prop}
    (hf : ∀ acc a, x ∈ f acc a → x ∈ acc ∨ P a) : ∀ (l : List α) {acc : List β}, x ∈ l.foldl f acc →
      x ∈ acc ∨ ∃ a ∈ l, P a
  | [], _, h => .inl h
  | a :: l, acc, h => (of_mem_foldl hf l h).elim
    (fun h => (hf acc a h).imp_right fun hp => ⟨a, List.mem_cons_self _ _, hp⟩)
    fun ⟨b, hb, hp⟩ => .inr ⟨b, List.mem_cons_of_mem _ hb, hp⟩

/-- A member's output, looked up, is a kernel output when the root does not read it and a program
output or an op outside the set needs it. -/
theorem mem_kernelOutputs {prog : Program} {ud : UseDef} {outputs : List String} {U : List Nat}
    {kin : List String} {vr : VarRewrites} {u : Nat} (hu : u ∈ U) (hin : vr.lookup (prog.op u).output ∉ kin)
    (hneed : (prog.op u).output ∈ outputs ∨ ∃ c ∈ ud.uses (prog.op u).output, c ∉ U) :
    vr.lookup (prog.op u).output ∈ kernelOutputs prog ud outputs U kin vr := by
  refine mem_foldl_of_step (fun acc a h => ?_) (fun acc => ?_) [] hu
  · dsimp only
    split_ifs
    · exact h
    · exact mem_nameInsert.2 (.inr h)
    · exact h
  · have hneed' : (prog.op u).output ∈ outputs ∨ ((ud.uses (prog.op u).output).any fun c => c ∉ U) = true := by
      simpa using hneed
    dsimp only
    rw [if_neg hin, if_pos hneed']
    exact mem_nameInsert.2 (.inl rfl)

/-- Every kernel output is a member's output, looked up. -/
theorem of_mem_kernelOutputs {prog : Program} {ud : UseDef} {outputs : List String} {U : List Nat}
    {kin : List String} {vr : VarRewrites} {n : String} (h : n ∈ kernelOutputs prog ud outputs U kin vr) :
    ∃ u ∈ U, n = vr.lookup (prog.op u).output := by
  refine (of_mem_foldl (fun acc u h => ?_) U h).resolve_left (List.not_mem_nil n)
  dsimp only at h
  split_ifs at h
  · exact .inl h
  · exact (mem_nameInsert.1 h).symm
  · exact .inl h

/-! ## The walk over a fused set -/

theorem readsOutside_eq_true {ud : UseDef} {vars : Bindings} {U : List Nat} {n : String} :
    readsOutside ud vars U n = true ↔ (vars n).tag = .tensor ∧ ∀ d, ud.opDefs n = some d → d ∉ U := by
  unfold readsOutside
  cases h : ud.opDefs n <;> simp [h]

theorem mem_mapEmplace {m : List (String × String)} {k v : String} {p : String × String}
    (h : p ∈ mapEmplace m k v) : p ∈ m ∨ p = (k, v) := by
  unfold mapEmplace at h
  split_ifs at h
  · exact .inl h
  · exact (List.mem_cons.1 h).symm

/-- During the walk a name looks up through the local rewrites first, then through the driver's. -/
theorem WalkInv.lookup_eq {prog : Program} {ud : UseDef} {vars : Bindings} {r : Nat} {P : List Nat}
    {vr0 : VarRewrites} {done : List Nat} {ws : WalkState} (hw : WalkInv prog ud vars r P vr0 done ws)
    (h0 : vr0.Flat) (x : String) : ws.varRewrites.lookup x = (ws.localRewrites.lookup x).getD (vr0.lookup x) := by
  rw [VarRewrites.lookup_of_flat hw.flat, hw.entries, List.lookup_append, VarRewrites.lookup_of_flat h0]
  cases ws.localRewrites.lookup x <;> rfl

/-- A name no walked op defines keeps the lookup it had before the walk. -/
theorem WalkInv.lookup_outside {prog : Program} {ud : UseDef} {vars : Bindings} {r : Nat} {P : List Nat}
    {vr0 : VarRewrites} {done : List Nat} {ws : WalkState} (hw : WalkInv prog ud vars r P vr0 done ws)
    (h0 : vr0.Flat) (hdef : ∀ d ∈ done, ud.opDefs (prog.op d).output = some d) {x : String}
    (hx : ∀ d, ud.opDefs x = some d → d ∉ done) : ws.varRewrites.lookup x = vr0.lookup x := by
  rw [hw.lookup_eq h0]
  cases hl : ws.localRewrites.lookup x with
  | none => rfl
  | some w =>
    obtain ⟨d, hdU, rfl⟩ := hw.localKeys x w (mem_of_lookup_eq_some hl)
    exact absurd hdU (hx d (hdef d hdU))

/-- The target of a local rewrite is not rewritten locally: the rewrites stay flat. -/
theorem WalkInv.local_target {prog : Program} {ud : UseDef} {vars : Bindings} {r : Nat} {P : List Nat}
    {vr0 : VarRewrites} {done : List Nat} {ws : WalkState} (hw : WalkInv prog ud vars r P vr0 done ws)
    {x t : String} (hl : ws.localRewrites.lookup x = some t) : ws.localRewrites.lookup t = none := by
  have h0 := hw.flat _ t (by rw [hw.entries]; exact List.mem_append_left _ (mem_of_lookup_eq_some hl))
  rw [hw.entries, List.lookup_append] at h0
  exact (Option.or_eq_none.1 h0).1

/-- The ops of a fused set are not settled: a member is at or after the root, not computed and no
constant. -/
theorem Members.not_mem_of_settled {prog : Program} {ud : UseDef} {vars : Bindings} {r : Nat} {P U : List Nat}
    (hm : Members prog vars r P ud U) (hud : ud.Fits prog) (hr : r < prog.ops.length)
    (hroot : (prog.op r).tag ≠ .constant) (hUP : ∀ u ∈ U, u ∉ P) {e : Nat} (he : Settled prog r P e) : e ∉ U :=
  fun heU => by
    rcases he with he | he | he
    · exact absurd ((hm.sound e heU).bounds hud hr).1 (by omega)
    · exact hUP e heU he
    · by_cases her : e = r
      · exact hroot (her ▸ he)
      · rw [(hm.nonroot heU her).2.1] at he
        cases he

/-- What the walk over the fused set `U` keeps of the dataflow, with `A` the names available before
its kernel and `vr0` the driver's rewrites: every post-op input it adds is a name that no member
defines and that looks up to an available name; every local rewrite leads to the output of a
member, or to an available name that no member defines and that is not rewritten. -/
structure FlowWalk (ud : UseDef) (U : List Nat) (A : String → Prop) (vr0 : VarRewrites) (ws : WalkState) :
    Prop where
  postInputs : ∀ n ∈ ws.postContractionInputs, (∀ d, ud.opDefs n = some d → d ∉ U) ∧ A (vr0.lookup n)
  targets : ∀ y t, (y, t) ∈ ws.localRewrites → (∃ d ∈ U, ud.opDefs t = some d) ∨
    (∀ d, ud.opDefs t = some d → d ∉ U) ∧ A t ∧ vr0.entries.lookup t = none

theorem FlowWalk.start {ud : UseDef} {U : List Nat} {A : String → Prop} {vr0 : VarRewrites} {wsr : List String} :
    FlowWalk ud U A vr0 ⟨[], [], [], wsr, vr0⟩ :=
  ⟨fun _ h => absurd h (List.not_mem_nil _), fun _ _ h => absurd h (List.not_mem_nil _)⟩

/-- After the walk, the output of a member that the driver had not rewritten looks up to the
output of a member the walk keeps, or to an available name that no member defines and that is not
rewritten. -/
theorem FlowWalk.lookup_member {prog : Program} {ud : UseDef} {vars : Bindings} {r : Nat} {P U : List Nat}
    {A : String → Prop} {vr0 : VarRewrites} {ws : WalkState} (hw : WalkInv prog ud vars r P vr0 U ws)
    (hq : FlowWalk ud U A vr0 ws) (h0 : vr0.Flat) (hdef' : ∀ v d, ud.opDefs v = some d → (prog.op d).output = v)
    {u : Nat} (hu : u ∈ U) (hself : vr0.lookup (prog.op u).output = (prog.op u).output) :
    (∃ e ∈ U, ws.localRewrites.lookup (prog.op e).output = none ∧
      ws.varRewrites.lookup (prog.op u).output = (prog.op e).output) ∨
    ∃ t, A t ∧ (∀ d, ud.opDefs t = some d → d ∉ U) ∧ vr0.entries.lookup t = none ∧
      ws.varRewrites.lookup (prog.op u).output = t := by
  rw [hw.lookup_eq h0]
  cases hl : ws.localRewrites.lookup (prog.op u).output with
  | none => exact .inl ⟨u, hu, hl, by rw [Option.getD_none, hself]⟩
  | some t =>
    rw [Option.getD_some]
    rcases hq.targets _ t (mem_of_lookup_eq_some hl) with ⟨e, heU, he⟩ | ⟨hout, hA, hnk⟩
    · -- elided into the output of a member the walk keeps
      have heo := hdef' t e he
      exact .inl ⟨e, heU, heo ▸ hw.local_target hl, heo.symm⟩
    · exact .inr ⟨t, hA, hout, hnk, rfl⟩

/-! ## The run invariant -/

section Flow

variable (prog : Program) (vars : Bindings) (inputs outputs : List String)

/-- The driver's state before op `i`: the contraction and elementwise kernels so far read only
available names; every tensor that a pending op reads, once the op defining it is handled, looks
up to an available name; and so does every tensor program output whose defining op is handled,
unless that op is a `prng_step`. An op is pending from `i` on while it is not computed, and
handled when it comes before `i` or is computed. -/
structure FlowInv (i : Nat) (st : CompileState) : Prop where
  reads : ReadsAvailable inputs st.kernels
  avail : ∀ k < prog.ops.length, i ≤ k → k ∉ st.computed → ∀ x ∈ (st.prog.op k).inputs, (vars x).tag = .tensor →
    (∀ d, (UseDef.ofProgram prog).opDefs x = some d → d < i ∨ d ∈ st.computed) →
    Available inputs st.kernels (st.varRewrites.lookup x)
  outs : ∀ x ∈ outputs, (vars x).tag = .tensor → ∀ d, (UseDef.ofProgram prog).opDefs x = some d →
    d < i ∨ d ∈ st.computed → (prog.op d).fn ≠ "prng_step" → Available inputs st.kernels (st.varRewrites.lookup x)

variable {prog vars inputs outputs}

theorem FlowInv.start (hflow : prog.FlowWF vars inputs) : FlowInv prog vars inputs outputs 0 ⟨prog, [], [], {}⟩ where
  reads := .nil
  avail k hk _ _ x hx ht hd := by
    cases hdx : (UseDef.ofProgram prog).opDefs x with
    | none => exact .inl (hflow.undefined k hk x hx ⟨ht, hdx⟩)
    | some d => exact absurd (hd d hdx) (by simp)
  outs _ _ _ _ _ hd := by simp at hd

/-- A name that an op of the driver's program reads is read in the input program by the same op
or, for the ident the prng handling made, by the `prng_step` before `i` it was made from. -/
theorem CheckInv.reads_input (hops : prog.OpsWF) {i : Nat} {st : CompileState} (hc : CheckInv prog vars i st)
    {k : Nat} {x : String} (hx : x ∈ (st.prog.op k).inputs) :
    x ∈ (prog.op k).inputs ∨ ∃ j < i, (prog.op j).fn = "prng_step" ∧ x ∈ (prog.op j).inputs := by
  rcases hc.ops k with ⟨j, hj, hrw, he⟩ | ⟨-, he⟩
  · rw [he] at hx
    simp only [prngIdent, hrw.2.2.2.1.2, List.set_cons_zero, List.mem_singleton] at hx
    subst hx
    obtain ⟨a, l, hl⟩ := List.exists_cons_of_ne_nil (hops.step_input hrw.1)
    exact .inr ⟨j, hj, hrw.1, by rw [hl]; simp⟩
  · exact .inl (he ▸ hx)

/-- A tensor that a member of the fused set of op `i` reads and that no member defines is defined,
if at all, by a settled op: the fused set takes in every op it reads from at or after its root
that is not computed and no constant. -/
theorem Members.settled_of_input {i : Nat} {st : CompileState} (hinv : RunInv prog vars i st) (hi : i < prog.ops.length)
    {U : List Nat} (hm : Members st.prog vars i st.computed (UseDef.ofProgram prog) U) {u : Nat} (hu : u ∈ U)
    {x : String} (hx : x ∈ (st.prog.op u).inputs) {d : Nat} (hd : (UseDef.ofProgram prog).opDefs x = some d)
    (hdU : d ∉ U) : Settled st.prog i st.computed d := by
  by_contra hno
  simp only [Settled, not_or, not_lt] at hno
  by_cases hui : u = i
  · subst hui
    exact absurd (hinv.fits.defBefore u x d hx hd) (by omega)
  · exact hdU (hm.closure hu hui hx hd hno.1 hno.2.1 hno.2.2)

section Facts

variable {i : Nat} {st : CompileState} (hflow : prog.FlowWF vars inputs) (hinv : RunInv prog vars i st)
  (hf : FlowInv prog vars inputs outputs i st) (hi : i < prog.ops.length) {U : List Nat}
  (hm : Members st.prog vars i st.computed (UseDef.ofProgram prog) U) (hUC : ∀ u ∈ U, u ∉ st.computed)
include hflow hinv hf hi hm hUC

/-- A tensor that a member of the fused set of op `i` reads and that no member defines is defined,
if at all, by a handled op, so it looks up to an available name. -/
theorem FlowInv.outside {u : Nat} (hu : u ∈ U) {x : String} (hx : x ∈ (st.prog.op u).inputs)
    (ht : (vars x).tag = .tensor) (hout : ∀ d, (UseDef.ofProgram prog).opDefs x = some d → d ∉ U) :
    Available inputs st.kernels (st.varRewrites.lookup x) := by
  have hb := (hm.sound u hu).bounds hinv.fits (hinv.length ▸ hi)
  refine hf.avail u (hinv.length ▸ hb.2) hb.1 (hUC u hu) x hx ht fun d hd => ?_
  -- a settled op defining a tensor is no constant
  rcases hm.settled_of_input hinv hi hu hx hd (hout d hd) with h | h | hc
  · exact .inl h
  · exact .inr h
  · obtain ⟨hdn, hdo⟩ := UseDef.ofProgram_opDefs hd
    exact absurd (by rw [hdo]; exact ht) (hflow.constant d hdn ((hinv.tag d).symm.trans hc))

/-- One op of the walk keeps `FlowWalk`: an elided op's target is what its first input looks up
to, and a post-op's inputs from outside the set look up through a local rewrite or are read from
outside. -/
theorem FlowWalk.step (hroot : (st.prog.op i).tag ≠ .constant) {done : List Nat}
    {ws ws' : WalkState} {u : Nat} (hu : u ∈ U)
    (hw : WalkInv st.prog (UseDef.ofProgram prog) vars i st.computed st.varRewrites done ws)
    (hq : FlowWalk (UseDef.ofProgram prog) U (Available inputs st.kernels) st.varRewrites ws)
    (h : unifyOp st.prog (UseDef.ofProgram prog) vars inputs outputs U ws u = .ok ws') :
    FlowWalk (UseDef.ofProgram prog) U (Available inputs st.kernels) st.varRewrites ws' := by
  have hflat := hinv.rewrites.flat
  have hr : i < st.prog.ops.length := hinv.length ▸ hi
  rcases unifyOp_eq_ok h with ⟨-, rfl⟩ | ⟨hel, in0, rest, hin, -, rfl⟩ | ⟨-, rfl⟩
  · exact hq
  · have hx : in0 ∈ (st.prog.op u).inputs := hin ▸ List.mem_cons_self in0 rest
    have ht : (vars in0).tag = .tensor := by
      obtain ⟨in0', hin0', ht, -⟩ := unifyOp_ok_iff.1 ⟨_, h⟩ hel.1 hel.2
      rw [hin, List.head?_cons, Option.mem_def, Option.some.injEq] at hin0'
      exact hin0' ▸ ht
    refine ⟨hq.postInputs, fun y t hyt => ?_⟩
    rcases mem_mapEmplace hyt with hyt | hyt
    · exact hq.targets y t hyt
    obtain ⟨-, rfl⟩ := Prod.mk.inj hyt
    rw [hw.lookup_eq hflat]
    cases hl : ws.localRewrites.lookup in0 with
    | some t' => exact hq.targets in0 t' (mem_of_lookup_eq_some hl)
    | none =>
      rw [Option.getD_none, VarRewrites.lookup_of_flat hflat]
      cases hold : st.varRewrites.entries.lookup in0 with
      | some v =>
        obtain ⟨d0, hd0, hd0C, -, hv⟩ := hinv.rewrites.entry in0 v (mem_of_lookup_eq_some hold)
        have hA := hf.outside hflow hinv hi hm hUC hu hx ht fun d hd hdU => hUC d hdU (by
          rw [hd0] at hd; cases hd; exact hd0C)
        rw [VarRewrites.lookup_of_flat hflat, hold] at hA
        exact .inr ⟨fun e he => hm.not_mem_of_settled hinv.fits hr hroot hUC (hv e he).1, hA,
          hflat in0 v (mem_of_lookup_eq_some hold)⟩
      | none =>
        by_cases hdU : ∃ d ∈ U, (UseDef.ofProgram prog).opDefs in0 = some d
        · exact .inl hdU
        · have hout : ∀ d, (UseDef.ofProgram prog).opDefs in0 = some d → d ∉ U := fun d hd hdU' => hdU ⟨d, hdU', hd⟩
          have hA := hf.outside hflow hinv hi hm hUC hu hx ht hout
          rw [VarRewrites.lookup_of_flat hflat, hold] at hA
          exact .inr ⟨hout, hA, hold⟩
  · refine ⟨fun n hn => ?_, hq.targets⟩
    simp only [emitPostOp, mem_nameInsertAll, List.mem_filter, List.mem_map] at hn
    rcases hn with hn | ⟨⟨x, hx, rfl⟩, hro⟩
    · exact hq.postInputs n hn
    obtain ⟨ht, hout⟩ := readsOutside_eq_true.1 hro
    refine ⟨hout, ?_⟩
    cases hl : ws.localRewrites.lookup x with
    | some t =>
      simp only [hl, Option.getD_some] at ht hout ⊢
      rcases hq.targets x t (mem_of_lookup_eq_some hl) with ⟨d, hdU, hd⟩ | ⟨-, hA, hnk⟩
      · exact absurd hdU (hout d hd)
      · rwa [VarRewrites.lookup_of_flat hflat, hnk]
    | none =>
      simp only [hl, Option.getD_none] at ht hout ⊢
      exact hf.outside hflow hinv hi hm hUC hu hx ht hout

end Facts

/-- A name defined by an op outside `computed` looks up to itself. -/
theorem RunInv.lookup_self {i : Nat} {st : CompileState} (hinv : RunInv prog vars i st) {x : String} {d : Nat}
    (hx : (UseDef.ofProgram prog).opDefs x = some d) (hd : d ∉ st.computed) : st.varRewrites.lookup x = x := by
  rw [VarRewrites.lookup_of_flat hinv.rewrites.flat, hinv.lookup_of_not_computed hx hd]
  rfl

/-- A pending op reading the output of the `prng_step` at `i` is one of its companions. -/
theorem FlowInv.step_reader {i : Nat} {st : CompileState} (hwf : prog.WF) (hops : prog.OpsWF) (hflow : prog.FlowWF vars inputs)
    (hinv : RunInv prog vars i st) (hc : CheckInv prog vars i st) (hi : i < prog.ops.length)
    (hstep : (st.prog.op i).fn = "prng_step") {k : Nat} (hk : k < prog.ops.length)
    (hx : (st.prog.op i).output ∈ (st.prog.op k).inputs) : PrngCompanion st.prog (st.prog.op i).output k := by
  have hpi : st.prog.op i = prog.op i := hc.op_eq_of_fn (by rw [hstep]; decide)
  rw [hinv.output] at hx ⊢
  rcases hc.reads_input hops hx with hx | ⟨j, hj, -, hjx⟩
  · exact (hflow.steps i hi k hk ⟨hpi ▸ hstep, hx⟩).imp (hc.reads_iff hwf hi (by decide) k).2
      (hc.reads_iff hwf hi (by decide) k).2
  · exact absurd (hwf.defBefore j (by omega) i hi _ hjx rfl) (by omega)

/-! ## One op of the driver -/

section Steps

variable {i : Nat} {st : CompileState} (hf : FlowInv prog vars inputs outputs i st)
include hf

/-- A step that keeps the program and the rewrites, appends kernels and computes more ops keeps the
invariant when the output of each newly handled op, if a pending op reads it or it is a program
output, finds it available. -/
theorem FlowInv.advance {st' : CompileState} (hprog : st'.prog = st.prog) (hvr : st'.varRewrites = st.varRewrites)
    {ks : List Kernel} (hks : st'.kernels = st.kernels ++ ks) (hC : ∀ d ∈ st.computed, d ∈ st'.computed)
    (hreads : ReadsAvailable inputs st'.kernels)
    (hnew : ∀ x d, (UseDef.ofProgram prog).opDefs x = some d → i ≤ d → d ∉ st.computed → (d = i ∨ d ∈ st'.computed) →
      (vars x).tag = .tensor → (∃ k < prog.ops.length, i < k ∧ k ∉ st'.computed ∧ x ∈ (st.prog.op k).inputs) ∨
        (x ∈ outputs ∧ (prog.op d).fn ≠ "prng_step") → Available inputs st'.kernels (st.varRewrites.lookup x)) :
    FlowInv prog vars inputs outputs (i + 1) st' := by
  refine ⟨hreads, fun k hk hik hkC x hx ht hd => ?_, fun x hx ht d hdx hd hfn => ?_⟩
  · rw [hprog] at hx
    rw [hvr]
    by_cases hold : ∀ d, (UseDef.ofProgram prog).opDefs x = some d → d < i ∨ d ∈ st.computed
    · rw [hks]
      exact (hf.avail k hk (by omega) (fun h => hkC (hC k h)) x hx ht hold).append ks
    · push_neg at hold
      obtain ⟨d, hdx, hdi, hdC⟩ := hold
      exact hnew x d hdx hdi hdC ((hd d hdx).imp (fun h => by omega) id) ht (.inl ⟨k, hk, by omega, hkC, hx⟩)
  · rw [hvr]
    by_cases hold : d < i ∨ d ∈ st.computed
    · rw [hks]
      exact (hf.outs x hx ht d hdx hold hfn).append ks
    · rw [not_or, not_lt] at hold
      exact hnew x d hdx hold.1 hold.2 (hd.imp (fun h => by omega) id) ht (.inr ⟨hx, hfn⟩)

/-- A constant or an op computed ahead is passed over: a constant defines no tensor. -/
theorem FlowInv.pass (hflow : prog.FlowWF vars inputs) (hinv : RunInv prog vars i st)
    (hpass : (st.prog.op i).tag = .constant ∨ i ∈ st.computed) : FlowInv prog vars inputs outputs (i + 1) st :=
  hf.advance rfl rfl (List.append_nil _).symm (fun _ h => h) hf.reads fun x d hdx _ hdC hnew ht _ => by
    obtain rfl := hnew.resolve_right hdC
    rcases hpass with hcst | hic
    · obtain ⟨hdn, hdo⟩ := UseDef.ofProgram_opDefs hdx
      exact absurd (by rw [hdo]; exact ht) (hflow.constant d hdn ((hinv.tag d).symm.trans hcst))
    · exact absurd hic hdC

/-- A special function other than the prng ones is emitted alone, writing its output. -/
theorem FlowInv.special (hinv : RunInv prog vars i st) :
    FlowInv prog vars inputs outputs (i + 1) { st with kernels := st.kernels ++ [.special (st.prog.op i) []] } :=
  hf.advance rfl rfl rfl (fun _ h => h) (hf.reads.snoc_other fun _ => by simp)
    fun x d hdx _ hdC hnew _ _ => by
      obtain rfl := hnew.resolve_right hdC
      rw [hinv.lookup_self hdx hdC, ← hinv.output_of_opDefs hdx]
      exact .inr ⟨_, List.mem_append_right _ (List.mem_singleton_self _), List.mem_cons_self _ _⟩

/-- A contraction whose output needs zeroing: its prelude writes the output, and its kernel reads
the contraction's inputs, all handled before it. -/
theorem FlowInv.zero (hflow : prog.FlowWF vars inputs) (hinv : RunInv prog vars i st)
    (hc : CheckInv prog vars i st) (hi : i < prog.ops.length) (hct : (st.prog.op i).tag = .contraction)
    {pre : Kernel} (hpre : pre.writes = [(st.prog.op i).output]) (hpre' : ∀ ki, pre ≠ .contraction ki)
    {flat : FlatContraction} (hpoi : flat.postOpInputs = []) {k : Option Kernel}
    (h : contractionWrap vars (some (st.prog.op i)) flat st.varRewrites [] = .ok k) :
    FlowInv prog vars inputs outputs (i + 1) { st with kernels := st.kernels ++ pre :: k.toList } := by
  have hiC := hinv.not_computed_of_contraction hct
  have hpi : st.prog.op i = prog.op i := hc.op_eq_of_contraction hinv.opsWF hct
  have hks : st.kernels ++ pre :: k.toList = st.kernels ++ [pre] ++ k.toList := by simp
  refine hf.advance rfl rfl rfl (fun _ h => h) ?_ fun x d hdx _ hdC hnew _ _ => ?_
  · rw [hks]
    refine (hf.reads.snoc_other hpre').append_option fun ki hki n hn => ?_
    subst hki
    rcases (contractionWrap_kernel h).2 n hn with ⟨op, hop, x, hx, ht, rfl⟩ | ⟨x, hx, -⟩
    · obtain rfl : st.prog.op i = op := Option.some.inj (Option.mem_def.1 hop)
      have hxin : x ∈ (st.prog.op i).inputs := hpi ▸ hflow.specs i hi (hpi ▸ hct) x (hpi ▸ hx)
      exact (hf.avail i hi le_rfl hiC x hxin ht fun d hd => .inl (hinv.fits.defBefore i x d hxin hd)).append _
    · rw [hpoi] at hx
      cases hx
  · obtain rfl := hnew.resolve_right hdC
    rw [hinv.lookup_self hdx hdC, ← hinv.output_of_opDefs hdx]
    exact .inr ⟨pre, by simp, by rw [hpre]; exact List.mem_singleton_self _⟩

/-- The ident rewrite of a `prng_step` whose value is unused: its `prng_state` op now reads the
step's state input, available since the step reads it, and the step's output has no reader left. -/
theorem FlowInv.prngRewrite (hwf : prog.WF) (hops : prog.OpsWF) (hcomp : prog.CompanionsWF)
    (hflow : prog.FlowWF vars inputs) (hinv : RunInv prog vars i st) (hc : CheckInv prog vars i st)
    (hi : i < prog.ops.length) (hiC : i ∉ st.computed) (hstep : (st.prog.op i).fn = "prng_step") {scan : PrngScan}
    (hsf : ScanFound st.prog i st.computed scan) (hsorted : scan.computed.Sorted (· < ·)) (hv : scan.vout = "")
    (hs : scan.sout ≠ "") :
    FlowInv prog vars inputs outputs (i + 1) { st with
      prog := ⟨st.prog.ops.set scan.soutPos { st.prog.op scan.soutPos with
        fn := "ident", inputs := (st.prog.op scan.soutPos).inputs.set 0 ((st.prog.op i).inputs.getD 0 "") }⟩
      computed := scan.computed.erase scan.soutPos } := by
  obtain ⟨his, hsn, hsr, -⟩ := hsf.state hs
  have hsC : scan.soutPos ∉ st.computed := hinv.companion_not_computed hwf hi (.inl hsr) his.le
  -- the only companion the scan found is the state op, which it rewrites
  have hone : ∀ k, i < k → k < prog.ops.length → PrngCompanion st.prog (st.prog.op i).output k → k = scan.soutPos := by
    intro k hik hk hcomp
    rcases hcomp with hr | hr
    · rw [hinv.output] at hr hsr
      exact hcomp.reads_unique (.inl rfl) hk (hinv.length ▸ hsn) ((hc.reads_iff hwf hi (by decide) k).1 hr)
        ((hc.reads_iff hwf hi (by decide) _).1 hsr)
    · exact absurd hr (hsf.noValue hv k hik (hinv.length ▸ hk))
  have hC : ∀ d, d ∈ scan.computed.erase scan.soutPos ↔ d ∈ st.computed := fun d => by
    rw [hsorted.nodup.mem_erase_iff, hsf.marks]
    constructor
    · rintro ⟨hds, hd | ⟨hdi, hdn, hcomp⟩⟩
      · exact hd
      · exact absurd (hone d hdi (hinv.length ▸ hdn) hcomp) hds
    · exact fun hd => ⟨fun h => hsC (h ▸ hd), .inl hd⟩
  have hin : (st.prog.op i).inputs.getD 0 "" ∈ (st.prog.op i).inputs := by
    obtain ⟨a, l, hl⟩ := List.exists_cons_of_ne_nil (hinv.opsWF.step_input hstep)
    rw [hl]
    exact List.mem_cons_self _ _
  refine ⟨hf.reads, fun k hk hik hkC x hx ht hd => ?_, fun x hx ht d hdx hd hfn => ?_⟩
  swap
  · -- the step itself is the only op handled now
    rw [hC, Nat.lt_succ_iff_lt_or_eq, or_right_comm] at hd
    refine hf.outs x hx ht d hdx (hd.resolve_right ?_) hfn
    rintro rfl
    exact hfn (hc.op_eq_of_fn (by rw [hstep]; decide) ▸ hstep)
  rw [hC] at hkC
  have hsn' : scan.soutPos < st.prog.ops.length := hsn
  simp only [Program.op_set hsn'] at hx
  split_ifs at hx with hks
  · -- the rewritten op reads the step's state input
    simp only [hsr.2, List.set_cons_zero, List.mem_singleton] at hx
    subst hx
    exact hf.avail i hi le_rfl hiC _ hin ht fun d hd => .inl (hinv.fits.defBefore i _ d hin hd)
  · by_cases hold : ∀ d, (UseDef.ofProgram prog).opDefs x = some d → d < i ∨ d ∈ st.computed
    · exact hf.avail k hk (by omega) hkC x hx ht hold
    push_neg at hold
    obtain ⟨d, hdx, hdi, hdC⟩ := hold
    obtain rfl : d = i := by
      rcases hd d hdx with h | h
      · omega
      · exact absurd ((hC d).1 h) hdC
    rw [← hinv.output_of_opDefs hdx] at hx
    exact absurd (hone k (by omega) hk (FlowInv.step_reader hwf hops hflow hinv hc hi hstep hk hx)) hks

/-- A `prng_step`: skipped when nothing reads it, its state op rewritten to an ident when its value
is unused, or emitted with its companions, whose outputs the special kernel writes. -/
theorem FlowInv.prng (hwf : prog.WF) (hops : prog.OpsWF) (hcomp : prog.CompanionsWF)
    (hflow : prog.FlowWF vars inputs) (hinv : RunInv prog vars i st) (hc : CheckInv prog vars i st)
    (hi : i < prog.ops.length) (hiC : i ∉ st.computed) (hstep : (st.prog.op i).fn = "prng_step") {st' : CompileState}
    (h : prngStep st i (st.prog.op i) = .ok st') : FlowInv prog vars inputs outputs (i + 1) st' := by
  have hsf : ScanFound st.prog i st.computed _ := prngScan_found fun j _ hj => by
    rw [hinv.output]; exact hcomp.named (hinv.length ▸ hj)
  have hsorted := prngScan_sorted st.prog (st.prog.op i).output (List.range' (i + 1) (st.prog.ops.length - (i + 1)))
    { computed := st.computed } hc.sorted
  generalize hscan : List.foldl (prngScan st.prog (st.prog.op i).output) { computed := st.computed }
    (List.range' (i + 1) (st.prog.ops.length - (i + 1))) = scan at hsf hsorted
  have hreader := fun {k} => FlowInv.step_reader hwf hops hflow hinv hc hi hstep (k := k)
  have huniq : ∀ (f : String) (a b : Nat), (f = "prng_state" ∨ f = "prng_value") → a < prog.ops.length →
      b < prog.ops.length → PrngReads st.prog f (st.prog.op i).output a → PrngReads st.prog f (st.prog.op i).output b →
      a = b := fun f _ _ hfs ha hb ra rb => by
    have hid : f ≠ "ident" := by rcases hfs with rfl | rfl <;> decide
    rw [hinv.output] at ra rb
    exact hcomp.reads_unique hfs ha hb ((hc.reads_iff hwf hi hid _).1 ra) ((hc.reads_iff hwf hi hid _).1 rb)
  rcases prngStep_eq_ok hscan h with ⟨hv, hs, rfl⟩ | ⟨hv, hs, rfl⟩ | ⟨hv, hs, rfl⟩
  · -- nothing reads the step
    have hnone : ∀ k, i < k → k < prog.ops.length → ¬ PrngCompanion st.prog (st.prog.op i).output k :=
      fun k hik hk hk' => hk'.elim (hsf.noState hs k hik (hinv.length ▸ hk)) (hsf.noValue hv k hik (hinv.length ▸ hk))
    refine hf.advance rfl rfl (List.append_nil _).symm (fun d hd => (hsf.marks d).2 (.inl hd)) hf.reads
      fun x d hdx _ hdC hnew _ hneed => ?_
    rcases hnew with rfl | hdC'
    · rcases hneed with ⟨k, hk, hik, -, hx⟩ | ⟨-, hfn⟩
      · rw [← hinv.output_of_opDefs hdx] at hx
        exact absurd (hreader hk hx) (hnone k hik hk)
      · exact (hfn (hc.op_eq_of_fn (by rw [hstep]; decide) ▸ hstep)).elim
    · obtain ⟨hdi, hdn, hcomp'⟩ := ((hsf.marks d).1 hdC').resolve_left hdC
      exact absurd hcomp' (hnone d hdi (hinv.length ▸ hdn))
  · exact hf.prngRewrite hwf hops hcomp hflow hinv hc hi hiC hstep hsf hsorted hv hs
  · -- the group: the special kernel writes the step's output, its state and its value
    refine hf.advance rfl rfl rfl (fun d hd => (hsf.marks d).2 (.inl hd)) (hf.reads.snoc_other fun _ => by simp)
      fun x d hdx _ hdC hnew _ _ => ?_
    rw [hinv.lookup_self hdx hdC, ← hinv.output_of_opDefs hdx]
    refine .inr ⟨_, List.mem_append_right _ (List.mem_singleton_self _), ?_⟩
    simp only [Kernel.writes, List.mem_cons, List.not_mem_nil, or_false]
    rcases hnew with rfl | hdC'
    · exact .inl rfl
    obtain ⟨-, hdn, hcomp'⟩ := ((hsf.marks d).1 hdC').resolve_left hdC
    rcases hcomp' with hr | hr
    · obtain ⟨-, hsn, hsr, hso⟩ := hsf.state hs
      rw [hso, huniq _ _ _ (.inl rfl) (hinv.length ▸ hdn) (hinv.length ▸ hsn) hr hsr]
      exact .inr (.inl rfl)
    · obtain ⟨j, -, hjn, hjr, hvo⟩ := hsf.value hv
      rw [hvo, huniq _ _ _ (.inr rfl) (hinv.length ▸ hdn) (hinv.length ▸ hjn) hr hjr]
      exact .inr (.inr rfl)

/-- A step through `DoUnification`. The kernel reads the contraction's inputs and the post-op
inputs, all available before it. An output of the set that a pending op reads looks up to the
output of a member the set keeps, which the kernel writes, or to a name available before. -/
theorem FlowInv.unify (hwf : prog.WF) (hops : prog.OpsWF) (hflow : prog.FlowWF vars inputs)
    (hinv : RunInv prog vars i st) (hc : CheckInv prog vars i st) (hi : i < prog.ops.length) (hiC : i ∉ st.computed)
    (hspec : (st.prog.op i).isSpecial = false) (hroot : (st.prog.op i).tag ≠ .constant) {c : Option Op} {flat0 flat : FlatContraction} {outPoly : List Polynomial} {C : List Nat} {vr : VarRewrites}
    {wsr : List String} {k : Option Kernel} (hpo : flat0.postOps = []) (hpoi : flat0.postOpInputs = [])
    (hgen : (st.prog.op i).tag ≠ .function → flat0.generateContraction = true)
    (hcop : ∀ op ∈ c, op = st.prog.op i ∧ (st.prog.op i).tag = .contraction)
    (h1 : doUnification st.prog (UseDef.ofProgram prog) vars inputs outputs flat0 st.computed st.varRewrites [] i
      outPoly = .ok (flat, C, vr, wsr))
    (h2 : contractionWrap vars c flat vr wsr = .ok k) :
    FlowInv prog vars inputs outputs (i + 1) { st with computed := C, varRewrites := vr, kernels := st.kernels ++ k.toList } := by
  have hr : i < st.prog.ops.length := hinv.length ▸ hi
  have hm : Members st.prog vars i st.computed (UseDef.ofProgram prog)
      (connectedComponents st.prog vars i st.computed (UseDef.ofProgram prog)) :=
    (connectedComponents_run hinv.fits hr).2.toMembers
  have hUC : ∀ u ∈ connectedComponents st.prog vars i st.computed (UseDef.ofProgram prog), u ∉ st.computed :=
    fun u hu => (fused_fresh hiC hspec hm u hu).1
  obtain ⟨ws, accs, hw, hq, hacc, rfl, rfl, rfl, rfl⟩ := doUnification_eq_ok_keep hinv.fits
    (fun _ hu => hinv.opDefs_output hwf hu) (fun _ _ h => hinv.output_of_opDefs h) hr hiC hinv.rewrites hpo
    (FlowWalk (UseDef.ofProgram prog) _ (Available inputs st.kernels) st.varRewrites)
    (fun hu _ hw hq h => FlowWalk.step hflow hinv hf hi hm hUC hroot hu hw hq h) FlowWalk.start h1
  generalize connectedComponents st.prog vars i st.computed (UseDef.ofProgram prog) = U at hm hUC hw hq h2 ⊢
  have hbound : ∀ u ∈ U, i ≤ u ∧ u < st.prog.ops.length := fun u hu => (hm.sound u hu).bounds hinv.fits hr
  -- a name no member defines is not rewritten by the walk
  have hlk : ∀ x, (∀ d, (UseDef.ofProgram prog).opDefs x = some d → d ∉ U) →
      ws.varRewrites.lookup x = st.varRewrites.lookup x := fun _ =>
    hw.lookup_outside hinv.rewrites.flat fun d hdU => hinv.opDefs_output hwf (hbound d hdU).2
  -- a member kept by the walk makes the kernel be emitted
  have hemit : ∀ e ∈ U, ws.localRewrites.lookup (st.prog.op e).output = none →
      ∃ ki, k = some (.contraction ki) := fun e he hle => by
    refine contractionWrap_some h2 ?_
    by_cases hef : (st.prog.op e).tag = .function
    · have hacc := hw.account (st.prog.op e).output
      rw [if_pos ⟨e, he, hef, rfl⟩, count_keys_of_lookup_none hle, add_zero] at hacc
      exact .inr fun h0 : ws.postOps = [] => by simp [h0] at hacc
    · have her : e = i := by
        by_contra her
        exact hef (hm.nonroot he her).2.1
      exact .inl (hgen (her ▸ hef))
  -- the kernel writes what a kept member's output looks up to, for a member read outside the set
  have hwritten : ∀ d ∈ U, ∀ e ∈ U, ws.localRewrites.lookup (st.prog.op e).output = none →
      ws.varRewrites.lookup (st.prog.op d).output = (st.prog.op e).output →
      ((st.prog.op d).output ∈ outputs ∨ ∃ c' ∈ (UseDef.ofProgram prog).uses (st.prog.op d).output, c' ∉ U) →
      Available inputs (st.kernels ++ k.toList) (st.prog.op e).output := fun d hd e he hle hde hneed => by
    obtain ⟨ki, rfl⟩ := hemit e he hle
    have hnotin : ws.varRewrites.lookup (st.prog.op d).output ∉ (st.prog.op i).inputs := fun hmem => by
      rw [hde] at hmem
      have := hinv.fits.defBefore i _ e hmem (hinv.opDefs_output hwf (hbound e he).2)
      have := (hbound e he).1
      omega
    have hko : ws.varRewrites.lookup (st.prog.op d).output ∈
        kernelOutputs st.prog (UseDef.ofProgram prog) outputs U (st.prog.op i).inputs ws.varRewrites :=
      mem_kernelOutputs hd hnotin hneed
    rw [hde] at hko
    refine .inr ⟨.contraction ki, List.mem_append_right _ (List.mem_singleton_self _), ?_⟩
    rw [Kernel.writes, (contractionWrap_kernel h2).1]
    exact List.mem_append_right _ hko
  -- an output of the set that a program output is or an op outside the set reads
  have hnewU : ∀ x d, (UseDef.ofProgram prog).opDefs x = some d → d ∈ U → d ∉ st.computed →
      (x ∈ outputs ∨ ∃ c' ∈ (UseDef.ofProgram prog).uses x, c' ∉ U) →
      Available inputs (st.kernels ++ k.toList) (ws.varRewrites.lookup x) := fun x d hdx hdU hdC hneed => by
    have hdo : (st.prog.op d).output = x := hinv.output_of_opDefs hdx
    subst hdo
    rcases FlowWalk.lookup_member hw hq hinv.rewrites.flat (fun _ _ h => hinv.output_of_opDefs h) hdU
        (hinv.lookup_self hdx hdC) with ⟨e, heU, hle, he⟩ | ⟨t, hA, -, -, ht⟩
    · rw [he]
      exact hwritten d hdU e heU hle he hneed
    · rw [ht]
      exact hA.append _
  -- an op handled now and not before is a member
  have hnowU : ∀ d, d < i + 1 ∨ d ∈ setInsertAll st.computed U → ¬ (d < i ∨ d ∈ st.computed) → d ∈ U :=
    fun d hd hold => by
      rw [not_or, not_lt] at hold
      rcases hd with h | h
      · obtain rfl : d = i := by omega
        exact hm.root
      · exact (mem_setInsertAll.1 h).resolve_left hold.2
  -- a name whose defining op was handled before is defined by no member
  have hkeep : ∀ x, (∀ d, (UseDef.ofProgram prog).opDefs x = some d → d < i ∨ d ∈ st.computed) →
      ∀ d, (UseDef.ofProgram prog).opDefs x = some d → d ∉ U := fun x hold d hd hdU =>
    (hold d hd).elim (fun h => by have := (hbound d hdU).1; omega) (hUC d hdU)
  refine ⟨hf.reads.append_option fun ki hki n hn => ?_, fun k' hk hik hkC x hx ht hd => ?_,
    fun x hx ht d hdx hd hfn => ?_⟩
  · subst hki
    rcases (contractionWrap_kernel h2).2 n hn with ⟨op, hop, x, hx, ht, rfl⟩ | ⟨x, hx, rfl⟩
    · -- an input of the contraction root
      obtain ⟨rfl, hct⟩ := hcop op hop
      have hpi : st.prog.op i = prog.op i := hc.op_eq_of_contraction hinv.opsWF hct
      have hxin : x ∈ (st.prog.op i).inputs := hpi ▸ hflow.specs i hi (hpi ▸ hct) x (hpi ▸ hx)
      have hout := hkeep x fun d hd => .inl (hinv.fits.defBefore i x d hxin hd)
      rw [hlk x hout]
      exact hf.outside hflow hinv hi hm hUC hm.root hxin ht hout
    · -- a post-op input
      rw [hpoi, List.nil_append, (postOpAccesses_eq_ok hacc).1] at hx
      obtain ⟨hout, hA⟩ := hq.postInputs x hx
      rw [hlk x hout]
      exact hA
  · simp only [mem_setInsertAll, not_or] at hkC
    show Available inputs (st.kernels ++ k.toList) (ws.varRewrites.lookup x)
    by_cases hold : ∀ d, (UseDef.ofProgram prog).opDefs x = some d → d < i ∨ d ∈ st.computed
    · rw [hlk x (hkeep x hold)]
      exact (hf.avail k' hk (by omega) hkC.1 x hx ht hold).append _
    push_neg at hold
    obtain ⟨d, hdx, hdi, hdC⟩ := hold
    refine hnewU x d hdx (hnowU d (hd d hdx) fun h => h.elim (by omega) hdC) hdC (.inr ?_)
    -- an op outside the set reads `x`: the reader itself, or the step its ident was made from
    rcases hc.reads_input hops hx with hx' | ⟨j, hj, -, hjx⟩
    · exact ⟨k', UseDef.ofProgram_mem_uses hk hx', hkC.2⟩
    · exact ⟨j, UseDef.ofProgram_mem_uses (by omega) hjx, fun hjU => by have := (hbound j hjU).1; omega⟩
  · show Available inputs (st.kernels ++ k.toList) (ws.varRewrites.lookup x)
    by_cases hold : d < i ∨ d ∈ st.computed
    · rw [hlk x (hkeep x fun _ hd' => Option.some.inj (hdx.symm.trans hd') ▸ hold)]
      exact (hf.outs x hx ht d hdx hold hfn).append _
    · exact hnewU x d hdx (hnowU d hd hold) (fun h => hold (.inr h)) (.inl hx)

/-- One op of the driver keeps the invariant. -/
theorem FlowInv.step (hwf : prog.WF) (hops : prog.OpsWF) (hcomp : prog.CompanionsWF)
    (hflow : prog.FlowWF vars inputs) {lower : Op → FlatContraction × List Polynomial}
    (hlower : LoweringWF lower) (hpoi : ∀ op, (lower op).1.postOpInputs = []) (hinv : RunInv prog vars i st)
    (hc : CheckInv prog vars i st) (hi : i < prog.ops.length) {st' : CompileState}
    (h : compileStep (UseDef.ofProgram prog) vars inputs outputs lower st i = .ok st') :
    FlowInv prog vars inputs outputs (i + 1) st' := by
  rcases compileStep_cases h with ⟨k, hct, hk, rfl⟩ | ⟨c, flat0, outPoly, flat, C, vr, wsr, k, hroot, h1, hk, rfl⟩ |
      ⟨-, hpass, rfl⟩ | ⟨-, -, -, -, -, -, -, rfl⟩ | ⟨-, hic, hstep, h⟩
  · exact hf.zero hflow hinv hc hi hct (by split <;> rfl) (by split <;> simp) (by exact hpoi _) hk
  · rcases hroot with ⟨rfl, hct, -, rfl, rfl⟩ | ⟨rfl, hfun, hic, hsp, rfl, rfl⟩
    · exact hf.unify hwf hops hflow hinv hc hi (hinv.not_computed_of_contraction hct)
        (hinv.opsWF.isSpecial_of_contraction hct) (by rw [hct]; decide)
        (by exact hlower.postOps _) (by exact hpoi _) (fun _ => by exact hlower.generate _)
        (fun _ hop => ⟨(Option.some.inj (Option.mem_def.1 hop)).symm, hct⟩) h1 hk
    · exact hf.unify hwf hops hflow hinv hc hi hic hsp (by rw [hfun]; decide) rfl rfl (absurd hfun)
        (fun _ hop => absurd hop (Option.not_mem_none _)) h1 hk
  · exact hf.pass hflow hinv hpass
  · exact hf.special hinv
  · exact hf.prng hwf hops hcomp hflow hinv hc hi hic hstep h

end Steps

/-- Every state of a run satisfies the invariant. -/
theorem compileOps_flowInv {lower : Op → FlatContraction × List Polynomial}
    (hwf : prog.WF) (hops : prog.OpsWF) (hcomp : prog.CompanionsWF) (hflow : prog.FlowWF vars inputs)
    (hlower : LoweringWF lower) (hpoi : ∀ op, (lower op).1.postOpInputs = []) :
    ∀ {i : Nat} {st : CompileState}, i ≤ prog.ops.length →
      compileOps prog vars inputs outputs lower i = .ok st → FlowInv prog vars inputs outputs i st
  | 0, st, _, h => by
    cases h
    exact FlowInv.start hflow
  | i + 1, st, hi, h => by
    rw [compileOps_succ] at h
    obtain ⟨st0, h0, h⟩ := except_bind_ok h
    exact (compileOps_flowInv hwf hops hcomp hflow hlower hpoi (by omega) h0).step hwf hops hcomp hflow hlower hpoi
      (compileOps_inv hwf hops hlower (by omega) h0)
      (compileOps_checkInv hwf hops hcomp.outputNamed hlower (by omega) h0) (by omega) h

end Flow

/-- **Dataflow of the kernel list.** On every well-formed program whose ops name their outputs,
in which no two `prng_state` ops and no two `prng_value` ops read the same inputs
(`Program.CompanionsWF`), whose constants are no tensors, whose `prng_step` outputs only their
companions read, whose undefined tensors are program inputs and whose contractions' specs name
their inputs, every contraction or elementwise kernel of the list `Compile` returns reads only
program inputs and names that kernels before it write. -/
theorem compile_reads_available (prog : Program) (vars : Bindings) (inputs outputs : List String)
    (lower : Op → FlatContraction × List Polynomial) (hwf : prog.WF) (hops : prog.OpsWF)
    (hcomp : prog.CompanionsWF) (hflow : prog.FlowWF vars inputs) (hlower : LoweringWF lower)
    (hpoi : ∀ op, (lower op).1.postOpInputs = []) {res : KernelList}
    (h : compile prog vars inputs outputs lower = .ok res) : ReadsAvailable inputs res.kernels := by
  obtain ⟨st, hst, rfl⟩ := compile_eq_ok h
  exact (compileOps_flowInv hwf hops hcomp hflow hlower hpoi le_rfl hst).reads

/-- The program whose first kernel writes the program input `X`: its kernels read available names. -/
theorem outsideReshape_reads_available : ∃ res,
    compile outsideReshapeProgram vec8Bindings ["Z", "X", "W"] ["b", "c"] contiguousLower = .ok res ∧
    ReadsAvailable ["Z", "X", "W"] res.kernels :=
  ⟨_, rfl, compile_reads_available outsideReshapeProgram vec8Bindings ["Z", "X", "W"] ["b", "c"] contiguousLower
    (by decide) (by decide) (by decide) (by decide) ⟨fun _ => rfl, fun _ => rfl⟩ (fun _ => rfl) rfl⟩

/-- **Every program output is produced.** On the same programs, every tensor program output that
an op other than a `prng_step` defines looks up, through the `var_rewrites` that `Compile`
returns, to a program input or to a name that a kernel of the list writes. -/
theorem compile_outputs_available (prog : Program) (vars : Bindings) (inputs outputs : List String)
    (lower : Op → FlatContraction × List Polynomial) (hwf : prog.WF) (hops : prog.OpsWF)
    (hcomp : prog.CompanionsWF) (hflow : prog.FlowWF vars inputs) (hlower : LoweringWF lower)
    (hpoi : ∀ op, (lower op).1.postOpInputs = []) {res : KernelList}
    (h : compile prog vars inputs outputs lower = .ok res) :
    ∀ op ∈ prog.ops, op.fn ≠ "prng_step" → op.output ∈ outputs → (vars op.output).tag = .tensor →
      Available inputs res.kernels (res.varRewrites.lookup op.output) := by
  obtain ⟨st, hst, rfl⟩ := compile_eq_ok h
  intro op hop hfn ho ht
  obtain ⟨k, hk, rfl⟩ := List.getElem_of_mem hop
  rw [← Program.op_of_lt hk] at hfn ho ht ⊢
  exact (compileOps_flowInv hwf hops hcomp hflow hlower hpoi le_rfl hst).outs _ ho ht k
    (UseDef.ofProgram_opDefs_output hwf hk) (.inl hk) hfn

/-- `a = relu(X)` and the program output `z = reshape(a)`. -/
def elidedOutputProgram : Program :=
  ⟨[{ tag := .function, output := "a", inputs := ["X"], fn := "relu" },
    { tag := .function, output := "z", inputs := ["a"], fn := "reshape" }]⟩

/-- The output `z` is elided into `a`, which the one kernel writes. -/
theorem elidedOutput_available : ∃ res,
    compile elidedOutputProgram vec8Bindings ["X"] ["z"] contiguousLower = .ok res ∧
    res.varRewrites.lookup "z" = "a" ∧
    ∀ op ∈ elidedOutputProgram.ops, op.fn ≠ "prng_step" → op.output ∈ ["z"] → (vec8Bindings op.output).tag = .tensor →
      Available ["X"] res.kernels (res.varRewrites.lookup op.output) :=
  ⟨_, rfl, rfl, compile_outputs_available elidedOutputProgram vec8Bindings ["X"] ["z"] contiguousLower
    (by decide) (by decide) (by decide) (by decide) ⟨fun _ => rfl, fun _ => rfl⟩ (fun _ => rfl) rfl⟩

end TileGen
