/-
`OpCanBeUnified` and `ConnectedComponents`: which ops can be fused into the kernel of a root op.
From the root, a depth-first walk over the consumers of the set's outputs; each consumer brings
along the producers it still lacks (its candidate set, found depth-first over inputs), taken
whole or discarded whole. Both loops run on fuel here, one round more than the program has ops;
`Unify.Fixpoint` shows the fuel is never exhausted.

The facts about programs and their use/def index that the planner relies on are stated here
too: ops come in topological order (`Program.WF`), and the index built from such a program
points backwards for definitions and forwards for uses (`UseDef.Fits`).
-/
import TileGen.Program.Basic

namespace TileGen

/-! ## Well-formed programs -/

/-- A program in SSA form and topological order: outputs are unique, and an op reads only
names defined by earlier ops (or by no op: program inputs). -/
structure Program.WF (prog : Program) : Prop where
  outputsNodup : (prog.ops.map (·.output)).Nodup
  defBefore : ∀ k < prog.ops.length, ∀ j < prog.ops.length, ∀ v ∈ (prog.op k).inputs,
    (prog.op j).output = v → j < k

instance (prog : Program) : Decidable prog.WF :=
  decidable_of_iff (_ ∧ _) ⟨fun ⟨a, b⟩ => ⟨a, b⟩, fun ⟨a, b⟩ => ⟨a, b⟩⟩

/-- What the planner relies on of a use/def index: indices are ops of the program, a name is
defined before any op that reads it, and used only after its definition. -/
structure UseDef.Fits (ud : UseDef) (prog : Program) : Prop where
  usesLt : ∀ v c, c ∈ ud.uses v → c < prog.ops.length
  defsLt : ∀ v d, ud.opDefs v = some d → d < prog.ops.length
  defBefore : ∀ k v d, v ∈ (prog.op k).inputs → ud.opDefs v = some d → d < k
  useAfter : ∀ u c, u < prog.ops.length → c ∈ ud.uses (prog.op u).output → u < c

theorem Program.op_of_lt {prog : Program} {i : Nat} (h : i < prog.ops.length) : prog.op i = prog.ops[i] := by
  simp [Program.op, List.getElem?_eq_getElem h]

theorem Program.op_of_ge {prog : Program} {i : Nat} (h : prog.ops.length ≤ i) : prog.op i = default := by
  simp [Program.op, List.getElem?_eq_none h]

theorem UseDef.build_opDefs {v : String} {d : Nat} : ∀ (i : Nat) (ops : List Op) (ud : UseDef),
    (UseDef.build i ops ud).opDefs v = some d →
      (∃ k, ∃ h : k < ops.length, d = i + k ∧ ops[k].output = v) ∨ ud.opDefs v = some d
  | _, [], _, h => .inr h
  | i, op :: ops, ud, h => by
    rcases UseDef.build_opDefs (i + 1) ops _ h with ⟨k, hk, rfl, hv⟩ | h'
    · exact .inl ⟨k + 1, by simpa using hk, by omega, by simpa using hv⟩
    · simp only at h'
      split_ifs at h' with hv
      · cases h'; exact .inl ⟨0, by simp, by omega, hv.symm⟩
      · exact .inr h'

theorem UseDef.build_uses {v : String} {c : Nat} : ∀ (i : Nat) (ops : List Op) (ud : UseDef),
    c ∈ (UseDef.build i ops ud).uses v →
      (∃ k, ∃ h : k < ops.length, c = i + k ∧ v ∈ ops[k].inputs) ∨ c ∈ ud.uses v
  | _, [], _, h => .inr h
  | i, op :: ops, ud, h => by
    rcases UseDef.build_uses (i + 1) ops _ h with ⟨k, hk, rfl, hv⟩ | h'
    · exact .inl ⟨k + 1, by simpa using hk, by omega, by simpa using hv⟩
    · simp only at h'
      split_ifs at h' with hv
      · rcases mem_setInsert.1 h' with rfl | h'
        · exact .inl ⟨0, by simp, by omega, hv⟩
        · exact .inr h'
      · exact .inr h'

theorem UseDef.ofProgram_opDefs {prog : Program} {v : String} {d : Nat}
    (h : (UseDef.ofProgram prog).opDefs v = some d) : d < prog.ops.length ∧ (prog.op d).output = v := by
  rcases UseDef.build_opDefs 0 prog.ops _ h with ⟨k, hk, rfl, hv⟩ | h'
  · exact ⟨by omega, by rw [Program.op_of_lt (by omega)]; simpa using hv⟩
  · cases h'

theorem UseDef.ofProgram_uses {prog : Program} {v : String} {c : Nat}
    (h : c ∈ (UseDef.ofProgram prog).uses v) : c < prog.ops.length ∧ v ∈ (prog.op c).inputs := by
  rcases UseDef.build_uses 0 prog.ops _ h with ⟨k, hk, rfl, hv⟩ | h'
  · exact ⟨by omega, by rw [Program.op_of_lt (by omega)]; simpa using hv⟩
  · cases h'

theorem UseDef.build_opDefs_of_not_mem {v : String} : ∀ (i : Nat) (ops : List Op) (ud : UseDef),
    v ∉ ops.map (·.output) → (UseDef.build i ops ud).opDefs v = ud.opDefs v
  | _, [], _, _ => rfl
  | i, op :: ops, ud, h => by
    rw [List.map_cons, List.mem_cons, not_or] at h
    rw [UseDef.build, UseDef.build_opDefs_of_not_mem (i + 1) ops _ h.2]
    exact if_neg h.1

theorem UseDef.build_opDefs_output : ∀ (i : Nat) (ops : List Op) (ud : UseDef), (ops.map (·.output)).Nodup →
    ∀ k (hk : k < ops.length), (UseDef.build i ops ud).opDefs ops[k].output = some (i + k)
  | _, [], _, _, _, hk => absurd hk (Nat.not_lt_zero _)
  | i, op :: ops, ud, hnd, 0, _ => by
    rw [List.map_cons, List.nodup_cons] at hnd
    rw [UseDef.build, List.getElem_cons_zero, UseDef.build_opDefs_of_not_mem (i + 1) ops _ hnd.1]
    simp
  | i, op :: ops, ud, hnd, k + 1, hk => by
    rw [List.map_cons, List.nodup_cons] at hnd
    rw [UseDef.build, List.getElem_cons_succ,
      UseDef.build_opDefs_output (i + 1) ops _ hnd.2 k (Nat.lt_of_succ_lt_succ hk), Nat.add_right_comm, Nat.add_assoc]

/-- In a program with unique outputs, the index defines each output at its op. -/
theorem UseDef.ofProgram_opDefs_output {prog : Program} (hwf : prog.WF) {u : Nat} (hu : u < prog.ops.length) :
    (UseDef.ofProgram prog).opDefs (prog.op u).output = some u := by
  rw [Program.op_of_lt hu, UseDef.ofProgram, UseDef.build_opDefs_output 0 prog.ops _ hwf.outputsNodup u hu,
    Nat.zero_add]

theorem UseDef.ofProgram_fits {prog : Program} (hwf : prog.WF) : (UseDef.ofProgram prog).Fits prog where
  usesLt _ _ h := (UseDef.ofProgram_uses h).1
  defsLt _ _ h := (UseDef.ofProgram_opDefs h).1
  defBefore k v d hv h := by
    by_cases hk : k < prog.ops.length
    · exact hwf.defBefore k hk d (UseDef.ofProgram_opDefs h).1 v hv (UseDef.ofProgram_opDefs h).2
    · rw [Program.op_of_ge (by omega)] at hv; cases hv
  useAfter u c hu h :=
    hwf.defBefore c (UseDef.ofProgram_uses h).1 u hu _ (UseDef.ofProgram_uses h).2 rfl

/-! ## Unifiability -/

/-- `DifferentSize`: not both tensors, or tensors of different element counts. -/
def differentSize (a b : Binding) : Bool :=
  if a.tag != .tensor || b.tag != .tensor then true else a.shape.elemSize != b.shape.elemSize

/-- `SameSizeOrBroadcastCompatible`: equal element counts, or the input's dims right-aligned
under the output's, each of size 1 or of the output's size. -/
def sameSizeOrBroadcastCompatible (input output : Binding) : Bool :=
  if input.shape.elemSize = output.shape.elemSize then true
  else if output.shape.dims.length < input.shape.dims.length then false
  else (input.shape.dims.zip (output.shape.dims.drop (output.shape.dims.length - input.shape.dims.length))).all
    fun p => p.1.size == 1 || p.1.size == p.2.size

/-- `OpCanBeUnified`: the op is a non-special function whose output has the root output's
element count, and whose tensor inputs are broadcast-compatible with the root output. -/
def opCanBeUnified (prog : Program) (vars : Bindings) (rootIdx testIdx : Nat) : Bool :=
  let rootOp := prog.op rootIdx
  let testOp := prog.op testIdx
  if testOp.tag != .function || testOp.isSpecial then false
  else if differentSize (vars rootOp.output) (vars testOp.output) then false
  else testOp.inputs.all fun input =>
    (vars input).tag != .tensor || sameSizeOrBroadcastCompatible (vars input) (vars rootOp.output)

theorem opCanBeUnified_function {prog : Program} {vars : Bindings} {root k : Nat}
    (h : opCanBeUnified prog vars root k = true) : (prog.op k).tag = .function ∧ (prog.op k).isSpecial = false := by
  simp only [opCanBeUnified] at h
  split_ifs at h with h1
  simp only [Bool.or_eq_true, bne_iff_ne, ne_eq, not_or, Bool.not_eq_true] at h1
  exact ⟨not_not.1 h1.1, h1.2⟩

/-! ## Connected components -/

section Components

variable (prog : Program) (vars : Bindings) (root : Nat) (prev : List Nat) (ud : UseDef)

/-- The loop over the inputs of one candidate: the candidates and stack it leaves, or `none` at
an input whose op cannot be unified (`goto discard_candidate_set`). -/
def scanInputs (unified : List Nat) : List String → List Nat × List Nat → Option (List Nat × List Nat)
  | [], acc => some acc
  | input :: rest, (cands, stack) =>
    match ud.opDefs input with
    | none => scanInputs unified rest (cands, stack)
    | some i =>
      if i < root ∨ i ∈ unified ∨ i ∈ cands ∨ i ∈ prev then scanInputs unified rest (cands, stack)
      else if (prog.op i).tag = .constant then scanInputs unified rest (cands, stack)
      else if !opCanBeUnified prog vars root i then none
      else scanInputs unified rest (setInsert i cands, i :: stack)

/-- How the search for one consumer's candidate set ends. -/
inductive Candidates
  | complete (cands : List Nat)
  | discard
  | outOfFuel

/-- The candidate search: pop a candidate and scan its inputs, until the stack is empty. -/
def candidateSearch (unified : List Nat) : Nat → List Nat × List Nat → Candidates
  | 0, _ => .outOfFuel
  | _ + 1, (cands, []) => .complete cands
  | fuel + 1, (cands, c :: stack) =>
    match scanInputs prog vars root prev ud unified (prog.op c).inputs (cands, stack) with
    | none => .discard
    | some acc => candidateSearch unified fuel acc

/-- The body of the loop over the consumers of the popped op: a consumer not yet unified,
unifiable and not previously computed brings its candidate set, which joins the set and the
frontier (pushed in ascending order, so the largest is on top). -/
def visitConsumer (st : List Nat × List Nat) (c : Nat) : List Nat × List Nat :=
  if c ∈ st.1 ∨ !opCanBeUnified prog vars root c ∨ c ∈ prev then st
  else match candidateSearch prog vars root prev ud st.1 (prog.ops.length + 1) ([c], [c]) with
    | .complete cands => (setInsertAll st.1 cands, cands.reverse ++ st.2)
    | _ => st

/-- The loop over the consumers of the popped op. -/
def visitConsumers (cs : List Nat) (st : List Nat × List Nat) : List Nat × List Nat :=
  cs.foldl (visitConsumer prog vars root prev ud) st

/-- The frontier loop: pop an op and visit the consumers of its output. -/
def unifyLoop : Nat → List Nat × List Nat → Option (List Nat)
  | 0, _ => none
  | _ + 1, (unified, []) => some unified
  | fuel + 1, (unified, u :: frontier) =>
    unifyLoop fuel (visitConsumers prog vars root prev ud (ud.uses (prog.op u).output) (unified, frontier))

/-- `ConnectedComponents`. -/
def connectedComponents : List Nat :=
  (unifyLoop prog vars root prev ud (prog.ops.length + 1) ([root], [root])).getD [root]

end Components

end TileGen
