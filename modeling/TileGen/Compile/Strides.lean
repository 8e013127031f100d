/-
The stride loop of every `DoUnification` call the driver makes reads in bounds. The driver calls
`DoUnification` for a contraction with the lowering's output polynomials and for a plain function
with one polynomial per output dim. If the lowering gives one polynomial per dim of the
contraction's output, and the program's functions are broadcast-typed (`Program.BroadcastRanks`),
then every name the call adds to the post-op inputs is read through a shape of at most
`out_poly.size()` dims, at positions `off + i` that do not wrap.

What the walk needs from the driver's state is kept along the whole run (`StrideRunInv`):
- `var_rewrites` keeps element counts;
- every op of the rewritten program is the program's own op, or the single-input ident that a
  lone `prng_state` becomes.
-/
import TileGen.Compile.Run
import TileGen.Unify.Strides

namespace TileGen

/-! ## The run -/

section Run

variable (prog : Program) (vars : Bindings)

/-- What the stride loop needs from the driver's state. -/
structure StrideRunInv (st : CompileState) : Prop where
  ops : ∀ k, st.prog.op k = prog.op k ∨ ((st.prog.op k).fn = "ident" ∧ ∃ x, (st.prog.op k).inputs = [x])
  sizes : st.varRewrites.SizeKept vars

variable {prog vars}

theorem StrideRunInv.start : StrideRunInv prog vars ⟨prog, [], [], {}⟩ :=
  ⟨fun _ => .inl rfl, fun _ _ h => absurd h (List.not_mem_nil _)⟩

/-- A root the driver hands `DoUnification` is broadcast-typed when it is a function. -/
theorem StrideRunInv.root_ranks {st : CompileState} (hs : StrideRunInv prog vars st)
    (hranks : prog.BroadcastRanks vars) {i : Nat} (hi : i < prog.ops.length)
    (hf : (st.prog.op i).tag = .function) (hsp : (st.prog.op i).isSpecial = false) :
    (st.prog.op i).InputRanks vars := by
  rcases hs.ops i with h | ⟨hid, x, hx⟩
  · rw [h] at hf hsp ⊢
    exact hranks i hi hf hsp
  · intro y hy
    rw [if_pos (.inr hid), hx] at hy
    exact absurd hy (List.not_mem_nil y)

/-- One op of the driver keeps `StrideRunInv`. -/
theorem StrideRunInv.step {inputs outputs : List String} {lower : Op → FlatContraction × List Polynomial}
    {i : Nat} {st st' : CompileState} (hinv : RunInv prog vars i st) (hs : StrideRunInv prog vars st)
    (hlower : LoweringWF lower) (hranks : prog.BroadcastRanks vars) (hi : i < prog.ops.length)
    (h : compileStep (UseDef.ofProgram prog) vars inputs outputs lower st i = .ok st') :
    StrideRunInv prog vars st' := by
  rcases compileStep_eq_ok hlower h with ⟨_, _, -, -, -, -, -, rfl⟩ |
      ⟨_, _, _, _, _, _, _, _, hroot, -, -, -, h1, -, rfl⟩ | ⟨-, -, rfl⟩ | ⟨-, -, -, -, -, -, -, rfl⟩ | ⟨-, -, -, h⟩
  · exact ⟨hs.ops, hs.sizes⟩
  · have hfun : (st.prog.op i).tag = .function → (st.prog.op i).InputRanks vars := fun hf =>
      hs.root_ranks hranks hi hf (hroot.elim (fun hc => absurd (hc.symm.trans hf) (by decide)) (·.2.2))
    obtain ⟨ws, -, hws, rfl, -⟩ := doUnification_sizeInv hinv.fits (hinv.length ▸ hi) hfun hs.sizes h1
    exact ⟨hs.ops, hws.rewrites⟩
  · exact hs
  · exact ⟨hs.ops, hs.sizes⟩
  obtain ⟨-, hsS, -⟩ := prngScan_foldl st.prog (st.prog.op i).output
    (List.range' (i + 1) (st.prog.ops.length - (i + 1))) { computed := st.computed }
  generalize hscan : List.foldl (prngScan st.prog (st.prog.op i).output) { computed := st.computed }
    (List.range' (i + 1) (st.prog.ops.length - (i + 1))) = scan at hsS
  rcases prngStep_eq_ok hscan h with ⟨-, -, rfl⟩ | ⟨-, hsn, rfl⟩ | ⟨-, -, rfl⟩
  · exact ⟨hs.ops, hs.sizes⟩
  · rcases hsS with ⟨hs0, -, -⟩ | ⟨hsm, hsr, -⟩
    · exact absurd hs0 hsn
    rw [List.mem_range'_1] at hsm
    refine ⟨fun k => ?_, hs.sizes⟩
    rw [Program.op_set (by omega)]
    split_ifs
    · exact .inr ⟨rfl, _, by rw [hsr.2]; rfl⟩
    · exact hs.ops k
  · exact ⟨hs.ops, hs.sizes⟩

/-- Every state of a run on a well-formed program satisfies `StrideRunInv`. -/
theorem compileOps_strideInv {inputs outputs : List String} {lower : Op → FlatContraction × List Polynomial}
    (hwf : prog.WF) (hops : prog.OpsWF) (hlower : LoweringWF lower) (hranks : prog.BroadcastRanks vars) :
    ∀ {i : Nat} {st : CompileState}, i ≤ prog.ops.length →
      compileOps prog vars inputs outputs lower i = .ok st → StrideRunInv prog vars st
  | 0, st, _, h => by
    cases h
    exact StrideRunInv.start
  | i + 1, st, hi, h => by
    rw [compileOps_succ] at h
    obtain ⟨st0, h0, h⟩ := except_bind_ok h
    exact (compileOps_strideInv hwf hops hlower hranks (by omega) h0).step
      (compileOps_inv hwf hops hlower (by omega) h0) hlower hranks (by omega) h

end Run

/-! ## The stride loop of each call -/

theorem elementwiseFlat_poly_length (vars : Bindings) (op : Op) :
    (elementwiseFlat vars op).2.length = (vars op.output).shape.dims.length := by
  simp [elementwiseFlat]

/-- In every `DoUnification` call of the driver, every name the walk adds to the post-op inputs is
read through a shape of at most `out_poly.size()` dims, at positions `off + i` that do not wrap,
and the stride loop returns its access. This holds with the lowering giving one polynomial per
output dim and the program's functions broadcast-typed. For a reshape or ident the typing asks
only of inputs after the first, which `BindProgram` types as integer sizes and not as tensors. -/
theorem compile_stride_reads_fit (prog : Program) (vars : Bindings) (inputs outputs : List String)
    (lower : Op → FlatContraction × List Polynomial) (hwf : prog.WF) (hops : prog.OpsWF)
    (hlower : LoweringWF lower) (hpoly : ∀ op, (lower op).2.length = (vars op.output).shape.dims.length)
    (hranks : prog.BroadcastRanks vars) {i : Nat} {st : CompileState} (hi : i < prog.ops.length)
    (hst : compileOps prog vars inputs outputs lower i = .ok st) {flat0 : FlatContraction}
    {outPoly : List Polynomial}
    (hcall : ((st.prog.op i).tag = .contraction ∧
        (flat0, outPoly) = ({ (lower (st.prog.op i)).1 with output := (st.prog.op i).output }, (lower (st.prog.op i)).2)) ∨
      ((st.prog.op i).tag = .function ∧ (st.prog.op i).isSpecial = false ∧
        (flat0, outPoly) = elementwiseFlat vars (st.prog.op i)))
    {ws : WalkState}
    (hws : (connectedComponents st.prog vars i st.computed (UseDef.ofProgram prog)).foldlM
      (unifyOp st.prog (UseDef.ofProgram prog) vars inputs outputs
        (connectedComponents st.prog vars i st.computed (UseDef.ofProgram prog)))
      ⟨flat0.postOps, [], [], [], st.varRewrites⟩ = .ok ws) :
    ∀ n ∈ ws.postContractionInputs,
      StrideReadsFit (vars flat0.output).shape outPoly (postOpInputShape vars (vars flat0.output).shape n) ∧
      (postOpInputAccess vars (vars flat0.output).shape outPoly flat0.names n).isSome := by
  have hinv := compileOps_inv hwf hops hlower hi.le hst
  have hs := compileOps_strideInv hwf hops hlower hranks hi.le hst
  have hfun : (st.prog.op i).tag = .function → (st.prog.op i).InputRanks vars := fun hf =>
    hs.root_ranks hranks hi hf (hcall.elim (fun hc => absurd (hc.1.symm.trans hf) (by decide)) (·.2.1))
  have hout : flat0.output = (st.prog.op i).output ∧ outPoly.length = (vars flat0.output).shape.dims.length := by
    rcases hcall with ⟨-, he⟩ | ⟨-, -, he⟩ <;> obtain ⟨rfl, rfl⟩ := Prod.mk.inj he
    exacts [⟨rfl, hpoly _⟩, ⟨rfl, elementwiseFlat_poly_length vars _⟩]
  intro n hn
  have hfit := (unifyOps_sizeInv hinv.fits (hinv.length ▸ hi) hfun (SizeInv.start hs.sizes) hws).inputs n hn
  rw [← hout.1] at hfit
  exact ⟨strideReadsFit_of_rankFits vars hfit hout.2, postOpInputAccess_isSome_of_rankFits vars hfit hout.2⟩

/-- A contraction `C` of `A` and `B`, then `y = add(C, b)`, over eight-element vectors. -/
def biasAddProgram : Program :=
  ⟨[{ tag := .contraction, output := "C", inputs := ["A", "B"], specs := ["C", "A", "B"] },
    { tag := .function, output := "y", inputs := ["C", "b"], fn := "add" }]⟩

theorem biasAdd_reads_fit : ∃ ws,
    (connectedComponents biasAddProgram vec8Bindings 0 [] (UseDef.ofProgram biasAddProgram)).foldlM
      (unifyOp biasAddProgram (UseDef.ofProgram biasAddProgram) vec8Bindings ["A", "B", "b"] ["y"]
        (connectedComponents biasAddProgram vec8Bindings 0 [] (UseDef.ofProgram biasAddProgram)))
      ⟨[], [], [], [], {}⟩ = .ok ws ∧ ws.postContractionInputs = ["b"] ∧
    ∀ n ∈ ws.postContractionInputs,
      StrideReadsFit (vec8Bindings "C").shape (contiguousLower (biasAddProgram.op 0)).2
        (postOpInputShape vec8Bindings (vec8Bindings "C").shape n) ∧
      (postOpInputAccess vec8Bindings (vec8Bindings "C").shape (contiguousLower (biasAddProgram.op 0)).2
        (contiguousLower (biasAddProgram.op 0)).1.names n).isSome :=
  ⟨_, rfl, rfl, compile_stride_reads_fit biasAddProgram vec8Bindings ["A", "B", "b"] ["y"] contiguousLower
    (by decide) (by decide) ⟨fun _ => rfl, fun _ => rfl⟩ (fun _ => rfl) (by decide)
    (show 0 < biasAddProgram.ops.length by decide) rfl (.inl ⟨rfl, rfl⟩) rfl⟩

/-- `Y = reshape(X, B)`: an eight-element `X` read as a `[2, 4]` output, with a `[3, 1, 1]`
tensor `B` as its second argument. -/
def keptReshapeProgram : Program :=
  ⟨[{ tag := .function, output := "Y", inputs := ["X", "B"], fn := "reshape" }]⟩

/-- `X` an eight-element vector, `Y` a `[2, 4]` matrix, `B` a `[3, 1, 1]` tensor. -/
def keptReshapeBindings : Bindings := fun n =>
  if n = "Y" then ⟨.tensor, ⟨1, [⟨2, 4⟩, ⟨4, 1⟩]⟩⟩
  else if n = "B" then ⟨.tensor, ⟨1, [⟨3, 1⟩, ⟨1, 1⟩, ⟨1, 1⟩]⟩⟩
  else ⟨.tensor, ⟨1, [⟨8, 1⟩]⟩⟩

/- Without the typing of a reshape's later inputs, the kept reshape root adds `B`, of three dims,
against two output polynomials: `off` wraps to `2^64 - 1` and the loop reads past `out_poly`. -/
example : doUnification keptReshapeProgram (UseDef.ofProgram keptReshapeProgram) keptReshapeBindings ["X", "B"]
    ["Y"] (elementwiseFlat keptReshapeBindings (keptReshapeProgram.op 0)).1 [] {} [] 0
    (elementwiseFlat keptReshapeBindings (keptReshapeProgram.op 0)).2 = .error outOfBounds := rfl

end TileGen
