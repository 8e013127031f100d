/-
`Compile`, the driver loop of the generator, as a step function over op indices. A contraction
is lowered to a flat contraction; if its output needs zeroing, a `zero_` or `copy_` prelude is
emitted and nothing is fused into it, otherwise `DoUnification` fuses the ops it can. A constant
or an op already computed is passed over; a special function is emitted on its own, a
`prng_step` together with the `prng_state` and `prng_value` ops reading its output; any other
function roots an elementwise kernel shaped like its output. `ContractionWrap` drops a kernel
with nothing to generate, flattens the rest and records what each kernel reads and writes.

The contraction lowering (`Compile(op.c, ...)`), the tiling search and the kernel text
generators are not among the sources: the lowering is a parameter, a kernel records its flat
contraction with the names it reads and writes, and the tile choice is left out.
-/
import TileGen.Unify.DoUnification
import TileGen.Flat.NeedsZero
import TileGen.Flat.Simplify

namespace TileGen

/-! ## Kernels -/

/-- `KernelInfo`, with the fields the generator fills from the flat contraction. -/
structure KernelInfo where
  inputs : List String
  outputs : List String
  flat : FlatContraction
  warSafeReads : List String
  deriving DecidableEq, Repr

/-- A kernel of the list: the `zero_` and `copy_` preludes, a special kernel (`GenSpecial` given
the op with `extra` appended to its parameters), or a contraction or elementwise kernel. -/
inductive Kernel
  | zero (output : String)
  | copy (output source : String)
  | special (op : Op) (extra : List String)
  | contraction (info : KernelInfo)
  deriving DecidableEq, Repr

/-- `KernelList`, without the `types` map pruned from the bindings. -/
structure KernelList where
  kernels : List Kernel
  varRewrites : VarRewrites
  deriving DecidableEq, Repr

/-- The names a kernel reads: a copy its source, a special kernel the tensor inputs of its op, a
contraction or elementwise kernel `ki.inputs`. -/
def Kernel.reads (vars : Bindings) : Kernel → List String
  | .zero _ => []
  | .copy _ src => [src]
  | .special op _ => op.inputs.filter fun v => (vars v).tag = .tensor
  | .contraction ki => ki.inputs

/-- The names a kernel writes: a prelude its output, a special kernel its op's output and the
extra prng parameters, a contraction or elementwise kernel `ki.outputs`. -/
def Kernel.writes : Kernel → List String
  | .zero out => [out]
  | .copy out _ => [out]
  | .special op extra => op.output :: extra
  | .contraction ki => ki.outputs

/-! ## `ContractionWrap` -/

/-- `ContractionWrap`: nothing when there is neither a contraction nor a post-op to generate;
otherwise the flattened kernel, reading the contraction's tensor inputs and the post-op inputs
(looked up through `var_rewrites`) and writing the kernel outputs. -/
def contractionWrap (vars : Bindings) (c : Option Op) (flat : FlatContraction) (vr : VarRewrites)
    (warSafeReads : List String) : Except String (Option Kernel) :=
  if !flat.generateContraction && flat.postOps.isEmpty then pure none
  else do
    let inputs ← match c with
      | none => pure []
      | some op =>
        if op.specs.length = 2 ∨ op.specs.length = 3 ∨ op.specs.length = 4 then pure op.specs.tail
        else throw "Currently, we only support 1, 2, and 3 element Contractions"
    let flat := simplifyFlatLoop .sizeT flat
    pure (some (.contraction
      { inputs := (inputs.filter fun v => (vars v).tag = .tensor).map vr.lookup ++
          flat.postOpInputs.map fun p => vr.lookup p.1
        outputs := flat.kernelOutputs
        flat := flat
        warSafeReads := warSafeReads }))

/-! ## The driver -/

/-- The driver's state: the program (rewritten by the prng handling), the ops computed so far,
the kernels emitted and `var_rewrites`. -/
structure CompileState where
  prog : Program
  computed : List Nat
  kernels : List Kernel
  varRewrites : VarRewrites

/-- The flat contraction of an elementwise kernel: one index `i1, i2, ...` per dim of the root's
output, whose polynomials are the indices themselves. -/
def elementwiseFlat (vars : Bindings) (op : Op) : FlatContraction × List Polynomial :=
  let shape := (vars op.output).shape
  let names := (List.range shape.dims.length).map fun idx => "i" ++ toString (idx + 1)
  let access : FlatTensorAccess :=
    { type := shape.type, vector := 1, offset := 0, globalIndexLimit := shape.elemSize
      strides := shape.dims.map (·.stride) }
  ({ generateContraction := false
     output := op.output
     names := names
     ranges := shape.dims.map (·.size)
     access := [access] },
   names.map Polynomial.var)

/-- What the scan after a `prng_step` has found: the last `prng_state` reading its output and
that op's index, the last `prng_value` reading it, and `computed` with both marked. -/
structure PrngScan where
  sout : String := ""
  soutPos : Nat := 0
  vout : String := ""
  computed : List Nat

/-- One op of the scan after a `prng_step` whose output is `tup`. -/
def prngScan (prog : Program) (tup : String) (acc : PrngScan) (j : Nat) : PrngScan :=
  let nop := prog.op j
  if nop.fn = "prng_state" ∧ nop.inputs = [tup] then
    { acc with sout := nop.output, soutPos := j, computed := setInsert j acc.computed }
  else if nop.fn = "prng_value" ∧ nop.inputs = [tup] then
    { acc with vout := nop.output, computed := setInsert j acc.computed }
  else acc

section Compile

variable (ud : UseDef) (vars : Bindings) (inputs outputs : List String)
  (lower : Op → FlatContraction × List Polynomial)

/-- The `prng_step` at index `i`: grouped with its companions, or, when its value is unused,
dropped with its state op rewritten to an `ident` of the step's state input. -/
def prngStep (st : CompileState) (i : Nat) (op : Op) : Except String CompileState :=
  let scan := (List.range' (i + 1) (st.prog.ops.length - (i + 1))).foldl (prngScan st.prog op.output)
    { computed := st.computed }
  if scan.vout = "" ∧ scan.sout = "" then pure { st with computed := scan.computed }
  else if scan.vout = "" then
    let xop := st.prog.op scan.soutPos
    let xop := { xop with fn := "ident", inputs := xop.inputs.set 0 (op.inputs.getD 0 "") }
    pure { st with prog := ⟨st.prog.ops.set scan.soutPos xop⟩, computed := scan.computed.erase scan.soutPos }
  else if scan.sout = "" then throw "prng_step function missing its companions"
  else pure { st with computed := scan.computed, kernels := st.kernels ++ [.special op [scan.sout, scan.vout]] }

/-- The body of the driver loop for op index `i`. -/
def compileStep (st : CompileState) (i : Nat) : Except String CompileState :=
  let op := st.prog.op i
  if op.tag = .contraction then
    let flat := { (lower op).1 with output := op.output }
    if needsZero .sizeT flat then do
      let pre : Kernel := if op.useDefault ≠ "" then .copy op.output op.useDefault else .zero op.output
      let k ← contractionWrap vars (some op) { flat with kernelOutputs := flat.kernelOutputs ++ [op.output] }
        st.varRewrites []
      pure { st with kernels := st.kernels ++ pre :: k.toList }
    else do
      let (flat, computed, vr, wsr) ← doUnification st.prog ud vars inputs outputs flat st.computed
        st.varRewrites [] i (lower op).2
      let k ← contractionWrap vars (some op) flat vr wsr
      pure { st with computed := computed, varRewrites := vr, kernels := st.kernels ++ k.toList }
  else if op.tag = .constant then pure st
  else if i ∈ st.computed then pure st
  else if op.isSpecial then
    if op.fn = "prng_state" ∨ op.fn = "prng_value" then throw "prng functions must come in threes"
    else if op.fn = "prng_step" then prngStep st i op
    else pure { st with kernels := st.kernels ++ [.special op []] }
  else do
    let (flat, computed, vr, wsr) ← doUnification st.prog ud vars inputs outputs (elementwiseFlat vars op).1
      st.computed st.varRewrites [] i (elementwiseFlat vars op).2
    let k ← contractionWrap vars none flat vr wsr
    pure { st with computed := computed, varRewrites := vr, kernels := st.kernels ++ k.toList }

end Compile

/-- `Compile`: the use/def index of the program, then the driver loop over every op index. -/
def compile (prog : Program) (vars : Bindings) (inputs outputs : List String)
    (lower : Op → FlatContraction × List Polynomial) : Except String KernelList := do
  let st ← (List.range prog.ops.length).foldlM
    (compileStep (UseDef.ofProgram prog) vars inputs outputs lower) ⟨prog, [], [], {}⟩
  pure ⟨st.kernels, st.varRewrites⟩


/-! ## Runs on small programs -/

/-- Every name bound to an eight-element vector. -/
def vec8Bindings : Bindings := fun _ => ⟨.tensor, ⟨1, [⟨8, 1⟩]⟩⟩

/-- A lowering of every contraction to one index over eight output elements, read contiguously. -/
def contiguousLower (_ : Op) : FlatContraction × List Polynomial :=
  ({ names := ["i"], ranges := [8]
     access := [{ globalIndexLimit := 8, strides := [1] }, { globalIndexLimit := 8, strides := [1] }] },
   [Polynomial.var "i"])

/-- A lowering of every contraction to four output elements at stride two, which needs zeroing. -/
def stridedLower (_ : Op) : FlatContraction × List Polynomial :=
  ({ names := ["i"], ranges := [4]
     access := [{ globalIndexLimit := 8, strides := [2] }, { globalIndexLimit := 8, strides := [1] }] },
   [Polynomial.var "i"])

/-- `D = reshape(X)`, then a contraction into `O` that needs zeroing, with `use_default = D`. -/
def useDefaultProgram : Program :=
  ⟨[{ tag := .function, output := "D", inputs := ["X"], fn := "reshape" },
    { tag := .contraction, output := "O", inputs := ["A", "D"], specs := ["O", "A"], useDefault := "D" }]⟩

/-- The reshape is elided and its kernel dropped; the copy prelude then reads `D`, which no kernel
writes and which is not a program input. -/
theorem compile_copy_reads_elided : useDefaultProgram.WF ∧ "D" ∉ ["X", "A"] ∧
    (compile useDefaultProgram vec8Bindings ["X", "A"] ["O"] stridedLower).toOption.map
      (fun r => (r.kernels.head?, r.kernels.all fun k => "D" ∉ k.writes)) = some (some (.copy "O" "D"), true) := by
  decide

/-- An elementwise kernel of `a = relu(Z)` that takes in `y = reshape(X)` as a candidate ancestor
of `b = add(a, y)`, while `y` is also read by a contraction. -/
def outsideReshapeProgram : Program :=
  ⟨[{ tag := .function, output := "a", inputs := ["Z"], fn := "relu" },
    { tag := .function, output := "y", inputs := ["X"], fn := "reshape" },
    { tag := .function, output := "b", inputs := ["a", "y"], fn := "add" },
    { tag := .contraction, output := "c", inputs := ["y", "W"], specs := ["c", "y", "W"] }]⟩

/-- The first kernel both reads and writes the program input `X`: the elided `y` looks up to `X`,
and `y` is needed outside the kernel. -/
theorem compile_writes_program_input : outsideReshapeProgram.WF ∧ "X" ∈ ["Z", "X", "W"] ∧
    (compile outsideReshapeProgram vec8Bindings ["Z", "X", "W"] ["b", "c"] contiguousLower).toOption.map
      (fun r => r.kernels.head?.map fun k => (k.reads vec8Bindings, k.writes)) =
      some (some (["X", "Z"], ["X", "b"])) := by
  decide

/-! ## Broadcasting -/

/-- The row-major coordinates of linear position `pos` in a shape of the given sizes. -/
def rowMajorCoords : List Nat → Nat → List Nat
  | [], _ => []
  | s :: ss, pos => pos / ss.foldr (· * ·) 1 % s :: rowMajorCoords ss pos

/-- NumPy broadcasting: the address of the element of a tensor of shape `input` that is read for
the output element with coordinates `coords`, the dims right-aligned and a size-1 dim read at 0. -/
def broadcastAddr (input : TensorShape) (coords : List Nat) : Int :=
  ((input.dims.zip (coords.drop (coords.length - input.dims.length))).map fun p =>
    (if p.1.size = 1 then 0 else (p.2 : Int)) * p.1.stride).sum

/-- `t0 = relu(A)` over `[4, 2, 2]`, `y = reshape(t0)` to `[2, 8]`, `u = add(y, b)` with `b` of
shape `[2, 1]`. -/
def reshapeBroadcastProgram : Program :=
  ⟨[{ tag := .function, output := "t0", inputs := ["A"], fn := "relu" },
    { tag := .function, output := "y", inputs := ["t0"], fn := "reshape" },
    { tag := .function, output := "u", inputs := ["y", "b"], fn := "add" }]⟩

def reshapeBroadcastVars : Bindings := fun n =>
  if n = "y" ∨ n = "u" then ⟨.tensor, ⟨1, [⟨2, 8⟩, ⟨8, 1⟩]⟩⟩
  else if n = "b" then ⟨.tensor, ⟨1, [⟨2, 1⟩, ⟨1, 1⟩]⟩⟩
  else ⟨.tensor, ⟨1, [⟨4, 4⟩, ⟨2, 2⟩, ⟨2, 1⟩]⟩⟩

/-- The fused `add` reads `b` through strides `[0, 1, 0]` over the root's indices: at the point
`(0, 1, 0)`, root-output position 2, the kernel reads `b` at address 1, while `u`'s own
broadcasting reads, for its element at position 2, `b` at address 0. -/
theorem compile_broadcast_diverges : reshapeBroadcastProgram.WF ∧
    (compile reshapeBroadcastProgram reshapeBroadcastVars ["A", "b"] ["u"] contiguousLower).toOption.map
      (fun r => r.kernels.head?.map fun
        | .contraction ki => (ki.flat.ranges, ki.flat.postOpInputs.lookup "b" |>.map (·.strides))
        | _ => ([], none)) = some (some ([4, 2, 2], some [0, 1, 0])) ∧
    dot [0, 1, 0] [0, 1, 0] = 1 ∧ dot [4, 2, 1] [0, 1, 0] = 2 ∧
    broadcastAddr (reshapeBroadcastVars "b").shape (rowMajorCoords [2, 8] 2) = 0 := by
  decide

end TileGen
