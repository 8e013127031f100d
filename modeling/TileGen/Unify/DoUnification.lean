/-
`DoUnification`: the fused set of a root op becomes the post-ops of its kernel. The ops of the set
are walked in ascending order; a reshape or ident whose output need not be written is elided, its
output rewritten to its source, globally in `var_rewrites` and locally for the later post-ops;
every other function becomes a post-op whose inputs go through the local rewrites, and its inputs
from outside the set become post-op inputs. The kernel outputs are the (rewritten) outputs of the
set that a program output or an op outside the set needs, and each post-op input gets strides
over the kernel's indices from the output index polynomials.

`VarRewrites` and `Polynomial` are not among the sources; both follow the spec: a name map whose
lookup walks to a name that is not rewritten, with inserts that store the walked-to target, and
a map from index names to rational coefficients.
-/
import TileGen.Flat.Basic
import TileGen.Unify.Components

namespace TileGen

/-! ## Rewrites and polynomials -/

/-- Modelled from the spec: `VarRewrites`, a name-to-name map, newest entry first. -/
structure VarRewrites where
  entries : List (String × String) := []
  deriving DecidableEq, Repr, Inhabited

namespace VarRewrites

/-- Follow rewrites for at most `fuel` steps. -/
def walk (vr : VarRewrites) : Nat → String → String
  | 0, k => k
  | fuel + 1, k =>
    match vr.entries.lookup k with
    | none => k
    | some v => vr.walk fuel v

/-- `Lookup`: the name reached by following rewrites, one step per entry at most. -/
def lookup (vr : VarRewrites) (k : String) : String := vr.walk vr.entries.length k

/-- `Insert`: rewrite `k` to what `v` looks up to, so that the map stays path-compressed. -/
def insert (vr : VarRewrites) (k v : String) : VarRewrites := ⟨(k, vr.lookup v) :: vr.entries⟩

end VarRewrites

/-- Modelled from the spec: a rational coefficient, kept as an unreduced fraction; the planner
only adds coefficients, scales them by integer strides and floors them. -/
structure Frac where
  num : Int
  den : Nat
  den_pos : 0 < den

namespace Frac

def ofInt (k : Int) : Frac := ⟨k, 1, Nat.one_pos⟩

def add (a b : Frac) : Frac := ⟨a.num * b.den + b.num * a.den, a.den * b.den, Nat.mul_pos a.den_pos b.den_pos⟩

def mulInt (a : Frac) (k : Int) : Frac := ⟨a.num * k, a.den, a.den_pos⟩

/-- `Floor`: division rounding down, the denominator being positive. -/
def floor (a : Frac) : Int := a.num / a.den

end Frac

/-- Modelled from the spec: `Polynomial`, linear in the index names; `p[name]` is `p.coeff name`. -/
structure Polynomial where
  coeff : String → Frac

namespace Polynomial

def zero : Polynomial := ⟨fun _ => Frac.ofInt 0⟩

/-- `Polynomial(name)`. -/
def var (n : String) : Polynomial := ⟨fun m => Frac.ofInt (if m = n then 1 else 0)⟩

def add (p q : Polynomial) : Polynomial := ⟨fun m => (p.coeff m).add (q.coeff m)⟩

def mulInt (p : Polynomial) (k : Int) : Polynomial := ⟨fun m => (p.coeff m).mulInt k⟩

end Polynomial

/-- `std::unordered_map::emplace`: an existing key keeps its value. -/
def mapEmplace (m : List (String × String)) (k v : String) : List (String × String) :=
  if (m.lookup k).isSome then m else (k, v) :: m

/-! ## The walk over the fused set -/

section DoUnification

variable (prog : Program) (ud : UseDef) (vars : Bindings) (inputs outputs : List String)

/-- What the walk over the fused set has built so far. -/
structure WalkState where
  postOps : List Op
  localRewrites : List (String × String)
  postContractionInputs : List String
  warSafeReads : List String
  varRewrites : VarRewrites

/-- A post-op input read from outside the fused set: a tensor no op of the set defines. -/
def readsOutside (unified : List Nat) (input : String) : Bool :=
  (vars input).tag == .tensor &&
    match ud.opDefs input with
    | none => true
    | some d => d ∉ unified

/-- Step 3: the op joins the post-ops with its inputs rewritten through the local rewrites, and
the inputs it reads from outside the set join `war_safe_reads` and `post_contraction_inputs`. -/
def emitPostOp (unified : List Nat) (st : WalkState) (op : Op) : WalkState :=
  let ins := op.inputs.map fun input => (st.localRewrites.lookup input).getD input
  let ext := ins.filter (readsOutside ud vars unified)
  { st with
    postOps := st.postOps ++ [{ op with inputs := ins }]
    postContractionInputs := nameInsertAll st.postContractionInputs ext
    warSafeReads := nameInsertAll st.warSafeReads ext }

/-- One op of the fused set: a non-function (the contraction root) is passed over; a reshape or
ident is checked and, unless both its output and its looked-up source are program outputs or
inputs, elided; every other function is emitted. -/
def unifyOp (unified : List Nat) (st : WalkState) (u : Nat) : Except String WalkState :=
  let op := prog.op u
  if op.tag ≠ .function then pure st
  else if op.fn = "reshape" ∨ op.fn = "ident" then
    match op.inputs with
    | [] => throw "reshape must have at least one parameter"
    | in0 :: _ =>
      if (vars in0).tag ≠ .tensor then throw "reshape only works on tensors"
      else if (vars in0).shape.byteSize ≠ (vars op.output).shape.byteSize then throw "Invalid reshape"
      else if (vars in0).shape.elemSize ≠ (vars op.output).shape.elemSize then throw "Invalid reshape"
      else
        let input := st.varRewrites.lookup in0
        if op.output ∉ outputs ∨ (input ∉ outputs ∧ input ∉ inputs) then
          pure { st with
            varRewrites := st.varRewrites.insert op.output input
            localRewrites := mapEmplace st.localRewrites op.output input }
        else pure (emitPostOp ud vars unified st op)
  else pure (emitPostOp ud vars unified st op)

/-- Step 4: the looked-up outputs of the set that are not kernel inputs and that a program output
or an op outside the set needs. -/
def kernelOutputs (unified : List Nat) (kernelInputs : List String) (vr : VarRewrites) : List String :=
  unified.foldl (fun acc u =>
    let op := prog.op u
    if vr.lookup op.output ∈ kernelInputs then acc
    else if op.output ∈ outputs ∨ (ud.uses op.output).any (· ∉ unified) then nameInsert (vr.lookup op.output) acc
    else acc) []

/-- The shape the stride loop reads a post-op input through: the kernel output's when the element
counts agree, its own otherwise. -/
def postOpInputShape (outShape : TensorShape) (name : String) : TensorShape :=
  if (vars name).shape.elemSize = outShape.elemSize then outShape else (vars name).shape

/-- The position `off + i` the loop reads for dim `i`, with
`size_t off = out_poly.size() - shape->dims.size()` incremented once per dim. -/
def strideIndex (polyLen : Nat) (shape : TensorShape) (i : Nat) : Nat :=
  ((((polyLen : Int) - shape.dims.length) % 2 ^ 64).toNat + i) % 2 ^ 64

/-- Step 5: the access of a post-op input. Its dims are right-aligned against the output index
polynomials, a size-1 dim against a larger output dim contributing nothing. The loop reads
`out_shape.dims[off]` when dim `i` has size 1 and `out_poly[off]` when it adds a term; a read past
the end is `none`. -/
def postOpInputAccess (outShape : TensorShape) (outPoly : List Polynomial) (names : List String)
    (name : String) : Option FlatTensorAccess := do
  let shape := postOpInputShape vars outShape name
  let p ← shape.dims.enum.foldlM (fun p (i, d) => do
    let off := strideIndex outPoly.length shape i
    let keep ← if d.size ≠ 1 then pure true else pure ((← outShape.dims[off]?).size == 1)
    if keep then pure (p.add ((← outPoly[off]?).mulInt d.stride)) else pure p) Polynomial.zero
  pure { globalIndexLimit := shape.elemSize, strides := names.map fun idx => (p.coeff idx).floor }

/-- What the model returns where the source indexes a `std::vector` past its end. -/
def outOfBounds : String := "out-of-bounds read"

/-- The loop over `post_contraction_inputs` that gives each its access. -/
def postOpAccesses (outShape : TensorShape) (outPoly : List Polynomial) (names : List String) :
    List String → Except String (List (String × FlatTensorAccess))
  | [] => pure []
  | name :: ns => match postOpInputAccess vars outShape outPoly names name with
    | some a => return (name, a) :: (← postOpAccesses outShape outPoly names ns)
    | none => throw outOfBounds

/-- `DoUnification`: the kernel of root `opidx` with its post-ops, kernel outputs and post-op
inputs, the updated `computed` set, `var_rewrites` and `war_safe_reads`. -/
def doUnification (flat : FlatContraction) (computed : List Nat) (vr : VarRewrites)
    (warSafeReads : List String) (opidx : Nat) (outPoly : List Polynomial) :
    Except String (FlatContraction × List Nat × VarRewrites × List String) := do
  let unified := connectedComponents prog vars opidx computed ud
  let st ← unified.foldlM (unifyOp prog ud vars inputs outputs unified)
    ⟨flat.postOps, [], [], warSafeReads, vr⟩
  let kouts := kernelOutputs prog ud outputs unified (prog.op opidx).inputs st.varRewrites
  let accs ← postOpAccesses vars (vars flat.output).shape outPoly flat.names st.postContractionInputs
  pure ({ flat with
      postOps := st.postOps
      kernelOutputs := flat.kernelOutputs ++ kouts
      postOpInputs := flat.postOpInputs ++ accs },
    setInsertAll computed unified, st.varRewrites, st.warSafeReads)

end DoUnification

section Accesses

variable {vars : Bindings} {outShape : TensorShape} {outPoly : List Polynomial} {names : List String}

/-- An `Option` fold whose step returns from every state, on every element, returns. -/
theorem foldlM_option_isSome {α β : Type} {f : β → α → Option β} :
    ∀ {l : List α} (b : β), (∀ c, ∀ a ∈ l, (f c a).isSome) → (l.foldlM f b).isSome
  | [], _, _ => rfl
  | a :: l, b, hf => by
    obtain ⟨c, hc⟩ := Option.isSome_iff_exists.1 (hf b a (.head _))
    rw [List.foldlM_cons, hc]
    exact foldlM_option_isSome c fun c' a' ha' => hf c' a' (.tail _ ha')

/-- The stride loop returns when every position it reads is below `out_poly.size()` and the
output's rank. -/
theorem postOpInputAccess_isSome {name : String}
    (h : ∀ i < (postOpInputShape vars outShape name).dims.length,
      strideIndex outPoly.length (postOpInputShape vars outShape name) i < outPoly.length ∧
      strideIndex outPoly.length (postOpInputShape vars outShape name) i < outShape.dims.length) :
    (postOpInputAccess vars outShape outPoly names name).isSome := by
  simp only [postOpInputAccess, bind_pure_comp, Option.isSome_map]
  refine foldlM_option_isSome _ fun c ⟨i, d⟩ hid => ?_
  obtain ⟨h1, h2⟩ := h i (List.fst_lt_of_mem_enum hid)
  simp only [List.getElem?_eq_getElem h1, List.getElem?_eq_getElem h2]
  split_ifs <;> simp [apply_ite]

/-- `postOpAccesses` keeps the names in order and gives each the access the loop computes. -/
theorem postOpAccesses_eq_ok : ∀ {ns : List String} {accs : List (String × FlatTensorAccess)},
    postOpAccesses vars outShape outPoly names ns = .ok accs →
      accs.map (·.1) = ns ∧ ∀ p ∈ accs, postOpInputAccess vars outShape outPoly names p.1 = some p.2
  | [], _, h => by cases h; simp
  | n :: ns, accs, h => by
    simp only [postOpAccesses] at h
    split at h
    · rename_i a ha
      cases hr : postOpAccesses vars outShape outPoly names ns <;> rw [hr] at h <;> cases h
      obtain ⟨h1, h2⟩ := postOpAccesses_eq_ok hr
      exact ⟨by simp [h1], List.forall_mem_cons.2 ⟨ha, h2⟩⟩
    · cases h

/-- `postOpAccesses` returns when every name's access does. -/
theorem postOpAccesses_ok : ∀ {ns : List String},
    (∀ n ∈ ns, (postOpInputAccess vars outShape outPoly names n).isSome) →
      ∃ accs, postOpAccesses vars outShape outPoly names ns = .ok accs
  | [], _ => ⟨[], rfl⟩
  | n :: ns, h => by
    obtain ⟨a, ha⟩ := Option.isSome_iff_exists.1 (h n (.head _))
    obtain ⟨r, hr⟩ := postOpAccesses_ok fun m hm => h m (.tail _ hm)
    exact ⟨(n, a) :: r, by simp only [postOpAccesses, ha, hr]; rfl⟩

end Accesses

end TileGen
