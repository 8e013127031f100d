/-
The stride loop of `DoUnification` reads `out_poly[off + i]` and `out_shape.dims[off + i]` for dim
`i` of a post-op input's shape, with `size_t off = out_poly.size() - shape->dims.size()`. The reads
stay in bounds, and `off` does not wrap, when the shape has at most `out_poly.size()` dims
(`StrideReadsFit`); the loop then returns an access (`postOpInputAccess_isSome_of_rankFits`).
Every name the walk adds fits the root output (`RankFits`, kept by `SizeInv`): a non-root
member's inputs are checked by `OpCanBeUnified`, a locally rewritten name has the root's element
count, which `var_rewrites` keeps, and the root function's inputs are bounded by its broadcast
typing (`Op.InputRanks`), the first input of a kept reshape or ident apart.
-/
import TileGen.Unify.Walk

namespace TileGen

/-! ## The stride loop -/

section Loop

variable (vars : Bindings)

/-- The loop's reads for a shape stay in bounds: it has at most `out_poly.size()` dims, and, that
size being a `size_t`, every position read is `off + i` without wrap-around, below
`out_poly.size()` and below the output's rank. -/
def StrideReadsFit (outShape : TensorShape) (outPoly : List Polynomial) (shape : TensorShape) : Prop :=
  shape.dims.length ≤ outPoly.length ∧ (outPoly.length < 2 ^ 64 → ∀ i < shape.dims.length,
    strideIndex outPoly.length shape i = outPoly.length - shape.dims.length + i ∧
    strideIndex outPoly.length shape i < outPoly.length ∧ strideIndex outPoly.length shape i < outShape.dims.length)

/-- A post-op input fits the output when the loop reads it through the output's shape, or when
its own rank is at most the output's. -/
def RankFits (outShape : TensorShape) (name : String) : Prop :=
  (vars name).shape.elemSize = outShape.elemSize ∨ (vars name).shape.dims.length ≤ outShape.dims.length

theorem postOpInputShape_rank {outShape : TensorShape} {name : String} (h : RankFits vars outShape name) :
    (postOpInputShape vars outShape name).dims.length ≤ outShape.dims.length := by
  unfold postOpInputShape
  split_ifs with he
  · exact le_rfl
  · exact h.resolve_left he

/-- With one polynomial per output dim, a fitting input is read in bounds. -/
theorem strideReadsFit_of_rankFits {outShape : TensorShape} {outPoly : List Polynomial} {name : String}
    (h : RankFits vars outShape name) (hlen : outPoly.length = outShape.dims.length) :
    StrideReadsFit outShape outPoly (postOpInputShape vars outShape name) := by
  have hle := postOpInputShape_rank vars h
  refine ⟨hlen ▸ hle, fun hL i hi => ?_⟩
  unfold strideIndex
  omega

/-- A shape of at most `out_poly.size()` dims is read below `out_poly.size()`, whether or not that
size fits a `size_t`. -/
theorem strideIndex_lt {polyLen : Nat} {shape : TensorShape} {i : Nat} (hle : shape.dims.length ≤ polyLen)
    (hi : i < shape.dims.length) : strideIndex polyLen shape i < polyLen := by
  unfold strideIndex
  omega

/-- With one polynomial per output dim, a fitting input gets its access. -/
theorem postOpInputAccess_isSome_of_rankFits {outShape : TensorShape} {outPoly : List Polynomial}
    {names : List String} {name : String} (h : RankFits vars outShape name)
    (hlen : outPoly.length = outShape.dims.length) :
    (postOpInputAccess vars outShape outPoly names name).isSome :=
  postOpInputAccess_isSome fun _ hi =>
    have hlt := strideIndex_lt ((postOpInputShape_rank vars h).trans hlen.ge) hi
    ⟨hlt, hlen ▸ hlt⟩

end Loop

/-! ## Element counts through the rewrites -/

/-- Every rewrite of `var_rewrites` keeps the element count. -/
def VarRewrites.SizeKept (vars : Bindings) (vr : VarRewrites) : Prop :=
  ∀ k v, (k, v) ∈ vr.entries → (vars k).shape.elemSize = (vars v).shape.elemSize

namespace VarRewrites.SizeKept

variable {vars : Bindings} {vr : VarRewrites} (h : vr.SizeKept vars)
include h

theorem walk : ∀ (fuel : Nat) (k : String), (vars (vr.walk fuel k)).shape.elemSize = (vars k).shape.elemSize
  | 0, _ => rfl
  | fuel + 1, k => by
    simp only [VarRewrites.walk]
    split
    · rfl
    · rename_i v hv
      rw [walk fuel v]
      exact (h k v (mem_of_lookup_eq_some hv)).symm

theorem lookup (k : String) : (vars (vr.lookup k)).shape.elemSize = (vars k).shape.elemSize :=
  walk h _ k

theorem insert {k v : String} (hkv : (vars k).shape.elemSize = (vars v).shape.elemSize) :
    (vr.insert k v).SizeKept vars := by
  intro a b hab
  rcases List.mem_cons.1 hab with hab | hab
  · cases hab
    rw [lookup h, hkv]
  · exact h a b hab

end VarRewrites.SizeKept

/-! ## Ranks of the functions -/

/-- The broadcast typing of a function: every tensor input has at most the output's rank, the
first input of a reshape or ident apart. -/
def Op.InputRanks (vars : Bindings) (op : Op) : Prop :=
  ∀ x ∈ (if op.fn = "reshape" ∨ op.fn = "ident" then op.inputs.tail else op.inputs),
    (vars x).tag = .tensor → (vars x).shape.dims.length ≤ (vars op.output).shape.dims.length

instance (vars : Bindings) (op : Op) : Decidable (op.InputRanks vars) :=
  inferInstanceAs (Decidable (∀ x ∈ _, _))

/-- Every non-special function of the program is broadcast-typed. -/
def Program.BroadcastRanks (prog : Program) (vars : Bindings) : Prop :=
  ∀ k < prog.ops.length, (prog.op k).tag = .function → (prog.op k).isSpecial = false →
    (prog.op k).InputRanks vars

instance (prog : Program) (vars : Bindings) : Decidable (prog.BroadcastRanks vars) :=
  inferInstanceAs (Decidable (∀ k < prog.ops.length, _))

/-! ## The walk -/

/-- What the walk keeps for the stride loop: `var_rewrites` keeps element counts, every local
rewrite leads to a name of the root output's element count, and every post-op input so far fits
the root output. -/
structure SizeInv (prog : Program) (vars : Bindings) (r : Nat) (ws : WalkState) : Prop where
  rewrites : ws.varRewrites.SizeKept vars
  targets : ∀ k v, (k, v) ∈ ws.localRewrites →
    (vars v).shape.elemSize = (vars (prog.op r).output).shape.elemSize
  inputs : ∀ n ∈ ws.postContractionInputs, RankFits vars (vars (prog.op r).output).shape n

section Walk

variable {prog : Program} {ud : UseDef} {vars : Bindings} {inputs outputs : List String} {U : List Nat}
  {r : Nat}

/-- What `OpCanBeUnified` checks: the op's output has the root output's element count, and every
tensor input fits the root output. -/
theorem opCanBeUnified_fits {k : Nat} (h : opCanBeUnified prog vars r k = true) :
    (vars (prog.op k).output).shape.elemSize = (vars (prog.op r).output).shape.elemSize ∧
    ∀ x ∈ (prog.op k).inputs, (vars x).tag = .tensor → RankFits vars (vars (prog.op r).output).shape x := by
  simp only [opCanBeUnified] at h
  split_ifs at h with h1 h2
  simp only [differentSize] at h2
  split_ifs at h2 with h3
  · exact absurd rfl h2
  have hs : (vars (prog.op r).output).shape.elemSize = (vars (prog.op k).output).shape.elemSize := by
    simpa using h2
  refine ⟨hs.symm, fun x hx ht => ?_⟩
  have hx := List.all_eq_true.1 h x hx
  simp only [ht, bne_self_eq_false, Bool.false_or, sameSizeOrBroadcastCompatible] at hx
  split_ifs at hx with h4 h5
  · exact .inl h4
  · exact .inr (Nat.le_of_not_lt h5)

/-- A reshape or ident the walk gets past has a first input of its output's element count. -/
theorem unifyOp_first_input {ws ws' : WalkState} {u : Nat} (h : unifyOp prog ud vars inputs outputs U ws u = .ok ws')
    (hel : (prog.op u).Elidable) : ∃ in0 rest, (prog.op u).inputs = in0 :: rest ∧
      (vars in0).shape.elemSize = (vars (prog.op u).output).shape.elemSize := by
  dsimp only [unifyOp] at h
  rw [if_neg (not_not.2 hel.1), if_pos hel.2] at h
  split at h
  · cases h
  · rename_i in0 rest hin
    obtain ⟨-, h⟩ := except_guard_ok h
    obtain ⟨-, h⟩ := except_guard_ok h
    obtain ⟨h3, -⟩ := except_guard_ok h
    exact ⟨in0, rest, hin, not_not.1 h3⟩

/-- One op of the set keeps `SizeInv`: a member other than the root is checked by
`OpCanBeUnified`, and the root, if a function, is broadcast-typed. -/
theorem SizeInv.step {ws ws' : WalkState} {u : Nat} (hi : SizeInv prog vars r ws)
    (hmem : u = r ∨ opCanBeUnified prog vars r u = true)
    (hroot : u = r → (prog.op u).tag = .function → (prog.op u).InputRanks vars)
    (h : unifyOp prog ud vars inputs outputs U ws u = .ok ws') : SizeInv prog vars r ws' := by
  have hsz : (vars (prog.op u).output).shape.elemSize = (vars (prog.op r).output).shape.elemSize :=
    hmem.elim (fun h => h ▸ rfl) fun h => (opCanBeUnified_fits h).1
  rcases unifyOp_eq_ok h with ⟨-, rfl⟩ | ⟨hel, in0, rest, hin, -, rfl⟩ | ⟨hf, rfl⟩
  · exact hi
  · obtain ⟨in0', rest', hin', hsz0⟩ := unifyOp_first_input h hel
    obtain ⟨rfl, -⟩ := List.cons.inj (hin'.symm.trans hin)
    have hl := hi.rewrites.lookup in0'
    refine ⟨hi.rewrites.insert (hsz0.symm.trans hl.symm), fun k v hkv => ?_, hi.inputs⟩
    unfold mapEmplace at hkv
    split_ifs at hkv
    · exact hi.targets k v hkv
    rcases List.mem_cons.1 hkv with hkv | hkv
    · cases hkv
      rw [hl, hsz0, hsz]
    · exact hi.targets k v hkv
  · refine ⟨hi.rewrites, hi.targets, fun n hn => ?_⟩
    simp only [emitPostOp, mem_nameInsertAll, List.mem_filter, List.mem_map] at hn
    rcases hn with hn | ⟨⟨x, hx, rfl⟩, hro⟩
    · exact hi.inputs n hn
    have ht : (vars ((ws.localRewrites.lookup x).getD x)).tag = .tensor := by
      simp only [readsOutside, Bool.and_eq_true, beq_iff_eq] at hro
      exact hro.1
    cases hlx : ws.localRewrites.lookup x with
    | some v =>
      simp only [hlx, Option.getD_some]
      exact .inl (hi.targets x v (mem_of_lookup_eq_some hlx))
    | none =>
      simp only [hlx, Option.getD_none] at ht ⊢
      rcases hmem with rfl | hok
      · by_cases hre : (prog.op u).fn = "reshape" ∨ (prog.op u).fn = "ident"
        · obtain ⟨in0, rest, hin, hsz0⟩ := unifyOp_first_input h ⟨hf, hre⟩
          rw [hin, List.mem_cons] at hx
          rcases hx with rfl | hx
          · exact .inl hsz0
          · exact .inr (hroot rfl hf x (by rw [if_pos hre, hin]; exact hx) ht)
        · exact .inr (hroot rfl hf x (by rw [if_neg hre]; exact hx) ht)
      · exact (opCanBeUnified_fits hok).2 x hx ht

end Walk

/-- An invariant that every step of an `Except` fold keeps holds at its end. -/
theorem foldlM_except_inv {α β ε : Type} {f : β → α → Except ε β} (I : β → Prop) :
    ∀ {l : List α} {b b' : β}, (∀ a ∈ l, ∀ c c', I c → f c a = .ok c' → I c') → I b →
      l.foldlM f b = .ok b' → I b'
  | [], _, _, _, hb, h => by cases h; exact hb
  | a :: _, b, _, hf, hb, h => by
    rw [List.foldlM_cons] at h
    obtain ⟨c, h1, h2⟩ := except_bind_ok h
    exact foldlM_except_inv I (fun a' ha' => hf a' (.tail _ ha')) (hf a (.head _) b c hb h1) h2

theorem SizeInv.start {prog : Program} {vars : Bindings} {r : Nat} {po : List Op} {wsr : List String}
    {vr : VarRewrites} (hvr : vr.SizeKept vars) : SizeInv prog vars r ⟨po, [], [], wsr, vr⟩ :=
  ⟨hvr, fun _ _ h => absurd h (List.not_mem_nil _), fun _ h => absurd h (List.not_mem_nil _)⟩

/-- With one polynomial per dim of the root output, every name a walk keeping `SizeInv` adds gets
its access. -/
theorem SizeInv.accesses_ok {prog : Program} {vars : Bindings} {r : Nat} {ws : WalkState}
    (hs : SizeInv prog vars r ws) {outPoly : List Polynomial} (names : List String)
    (hlen : outPoly.length = (vars (prog.op r).output).shape.dims.length) :
    ∃ accs, postOpAccesses vars (vars (prog.op r).output).shape outPoly names ws.postContractionInputs = .ok accs :=
  postOpAccesses_ok fun n hn => postOpInputAccess_isSome_of_rankFits vars (hs.inputs n hn) hlen

section Unify

variable {prog : Program} {ud : UseDef} {vars : Bindings} {inputs outputs : List String} {r : Nat}
  {P : List Nat}

/-- The walk over the whole fused set keeps `SizeInv`. -/
theorem unifyOps_sizeInv (hud : ud.Fits prog) (hr : r < prog.ops.length)
    (hroot : (prog.op r).tag = .function → (prog.op r).InputRanks vars) {ws0 ws : WalkState}
    (h0 : SizeInv prog vars r ws0)
    (h : (connectedComponents prog vars r P ud).foldlM
      (unifyOp prog ud vars inputs outputs (connectedComponents prog vars r P ud)) ws0 = .ok ws) :
    SizeInv prog vars r ws := by
  have hm : Members prog vars r P ud (connectedComponents prog vars r P ud) :=
    (connectedComponents_run hud hr).2.toMembers
  refine foldlM_except_inv _ (fun u hu c c' hc hs => ?_) h0 h
  by_cases hur : u = r
  · exact hc.step (.inl hur) (fun _ => hur ▸ hroot) hs
  · exact hc.step (.inr (hm.nonroot hu hur).2.2.2) (fun h => absurd h hur) hs

/-- Over the whole fused set: the names `DoUnification` adds to the post-op inputs fit the root
output, and `var_rewrites` keeps element counts. -/
theorem doUnification_sizeInv {P' : List Nat} {vr vr' : VarRewrites} {wsr wsr' : List String}
    {outPoly : List Polynomial} {flat flat' : FlatContraction} (hud : ud.Fits prog) (hr : r < prog.ops.length)
    (hroot : (prog.op r).tag = .function → (prog.op r).InputRanks vars) (hvr : vr.SizeKept vars)
    (h : doUnification prog ud vars inputs outputs flat P vr wsr r outPoly = .ok (flat', P', vr', wsr')) :
    ∃ ws accs, SizeInv prog vars r ws ∧ vr' = ws.varRewrites ∧
      postOpAccesses vars (vars flat.output).shape outPoly flat.names ws.postContractionInputs = .ok accs ∧
      flat'.postOpInputs = flat.postOpInputs ++ accs := by
  obtain ⟨ws, accs, hws, hacc, h⟩ := doUnification_spec h
  cases h
  exact ⟨ws, accs, unifyOps_sizeInv hud hr hroot (SizeInv.start hvr) hws, rfl, hacc, rfl⟩

end Unify

end TileGen
