/-
The driver over a whole run. `compileOps` is the driver's state after the ops before `i`, and
`RunInv` what holds of every such state: the program differs from the input only where the prng
handling turned a `prng_state` into an ident; a computed op at or after `i` was fused ahead or
grouped with an earlier `prng_step`; `var_rewrites` is flat, keyed by computed elided ops, with
targets that can no longer be elided; and the post-ops of every kernel read names bound in the
kernel. What one op of the loop body can do is stated once (`compileStep_eq_ok`,
`prngStep_eq_ok`); each branch keeps the invariant (`RunInv.extend`, `RunInv.unify`,
`RunInv.prngRewrite`), and `RunInv.step` dispatches on the branches.
-/
import TileGen.Compile.Driver
import TileGen.Unify.Walk

namespace TileGen

/-! ## Programs the driver accepts -/

/-- What the driver needs of the ops beyond `Program.WF`: only a function has a function name
(`op.f.fn` is empty on the other ops), and a `prng_step` has the state input that the ident
rewrite reads as `op.inputs[0]`. -/
structure Program.OpsWF (prog : Program) : Prop where
  fnEmpty : ∀ op ∈ prog.ops, op.tag ≠ .function → op.fn = ""
  prngStepInput : ∀ op ∈ prog.ops, op.fn = "prng_step" → op.inputs ≠ []

instance (prog : Program) : Decidable prog.OpsWF :=
  decidable_of_iff (_ ∧ _) ⟨fun ⟨a, b⟩ => ⟨a, b⟩, fun ⟨a, b⟩ => ⟨a, b⟩⟩

theorem Program.OpsWF.fn_empty {prog : Program} (h : prog.OpsWF) {k : Nat} (ht : (prog.op k).tag ≠ .function) :
    (prog.op k).fn = "" := by
  by_cases hk : k < prog.ops.length
  · rw [Program.op_of_lt hk] at ht ⊢
    exact h.fnEmpty _ (List.getElem_mem hk) ht
  · rw [Program.op_of_ge (Nat.le_of_not_lt hk)]
    rfl

theorem Program.OpsWF.isSpecial_of_contraction {prog : Program} (h : prog.OpsWF) {k : Nat}
    (hct : (prog.op k).tag = .contraction) : (prog.op k).isSpecial = false := by
  simp [Op.isSpecial, h.fn_empty (by rw [hct]; decide)]

theorem Program.OpsWF.step_input {prog : Program} (h : prog.OpsWF) {k : Nat} (hs : (prog.op k).fn = "prng_step") :
    (prog.op k).inputs ≠ [] := by
  by_cases hk : k < prog.ops.length
  · rw [Program.op_of_lt hk] at hs ⊢
    exact h.prngStepInput _ (List.getElem_mem hk) hs
  · rw [Program.op_of_ge (Nat.le_of_not_lt hk)] at hs
    exact absurd hs (by decide)

/-- A function named `fn` is a function, on a program whose other ops have no function name. -/
theorem Program.OpsWF.tag_of_fn {prog : Program} (h : prog.OpsWF) {k : Nat} (hfn : (prog.op k).fn ≠ "") :
    (prog.op k).tag = .function :=
  Classical.byContradiction fun ht => hfn (h.fn_empty ht)

/-- `prog.ops[s] = x`. -/
theorem Program.op_set {prog : Program} {s k : Nat} {x : Op} (hs : s < prog.ops.length) :
    (⟨prog.ops.set s x⟩ : Program).op k = if k = s then x else prog.op k := by
  simp only [Program.op, List.getD_eq_getElem?_getD, List.getElem?_set]
  by_cases h : k = s
  · subst h; simp [hs]
  · simp [h, Ne.symm h]

/-- What the contraction lowering gives, its source not being among the sources: a flat
contraction with no post-ops yet, whose contraction is generated. -/
structure LoweringWF (lower : Op → FlatContraction × List Polynomial) : Prop where
  postOps : ∀ op, (lower op).1.postOps = []
  generate : ∀ op, (lower op).1.generateContraction = true

/-! ## The run -/

section Run

variable (prog : Program) (vars : Bindings) (inputs outputs : List String)
  (lower : Op → FlatContraction × List Polynomial)

/-- The driver's state after the ops `0 .. i - 1`. -/
def compileOps (i : Nat) : Except String CompileState :=
  (List.range i).foldlM (compileStep (UseDef.ofProgram prog) vars inputs outputs lower) ⟨prog, [], [], {}⟩

theorem compileOps_succ (i : Nat) : compileOps prog vars inputs outputs lower (i + 1) =
    compileOps prog vars inputs outputs lower i >>= fun st =>
      compileStep (UseDef.ofProgram prog) vars inputs outputs lower st i := by
  simp [compileOps, List.range_succ, List.foldlM_append]

variable {prog vars inputs outputs lower}

theorem compile_eq_ok {res : KernelList} (h : compile prog vars inputs outputs lower = .ok res) :
    ∃ st, compileOps prog vars inputs outputs lower prog.ops.length = .ok st ∧ res = ⟨st.kernels, st.varRewrites⟩ := by
  obtain ⟨st, hst, h⟩ := except_bind_ok h
  cases h
  exact ⟨st, hst, rfl⟩

end Run

/-! ## Kernels -/

/-- The fields of a flat contraction that merging indices leaves alone. -/
def FlatContraction.fusion (flat : FlatContraction) : Bool × List Op × List String × List String × String :=
  (flat.generateContraction, flat.postOps, flat.postOpInputs.map (·.1), flat.kernelOutputs, flat.output)

theorem simplifyLoop_fusion (rd : Reading) : ∀ (fuel : Nat) (flat : FlatContraction),
    (simplifyLoop rd fuel flat).fusion = flat.fusion
  | 0, _ => rfl
  | fuel + 1, flat => by
    unfold simplifyLoop
    split
    · rfl
    · rename_i flat' h
      obtain ⟨-, i, j, -, -, -, rfl⟩ := simplifyFlat_eq_some h
      rw [simplifyLoop_fusion rd fuel]
      simp [FlatContraction.fusion, mergeIndexes, Function.comp_def]

/-- A kernel that `ContractionWrap` keeps holds the flattened contraction. -/
theorem contractionWrap_eq_ok {vars : Bindings} {c : Option Op} {flat : FlatContraction} {vr : VarRewrites}
    {wsr : List String} {k : Option Kernel} (h : contractionWrap vars c flat vr wsr = .ok k) :
    (k = none ∧ flat.generateContraction = false ∧ flat.postOps = []) ∨
      ∃ ki, k = some (.contraction ki) ∧ ki.flat.fusion = flat.fusion := by
  unfold contractionWrap at h
  split_ifs at h with h0
  · cases h
    simp only [Bool.and_eq_true, Bool.not_eq_true', List.isEmpty_iff] at h0
    exact .inl ⟨rfl, h0⟩
  · right
    rcases c with _ | op
    · cases h
      exact ⟨_, rfl, simplifyLoop_fusion _ _ _⟩
    · dsimp only at h
      split_ifs at h <;> cases h
      exact ⟨_, rfl, simplifyLoop_fusion _ _ _⟩

theorem fusion_postOps {a b : FlatContraction} (h : a.fusion = b.fusion) : a.postOps = b.postOps :=
  congrArg (fun f => f.2.1) h

theorem fusion_output {a b : FlatContraction} (h : a.fusion = b.fusion) : a.output = b.output :=
  congrArg (fun f => f.2.2.2.2) h

theorem fusion_generate {a b : FlatContraction} (h : a.fusion = b.fusion) :
    a.generateContraction = b.generateContraction :=
  congrArg (fun f => f.1) h

theorem fusion_keys {a b : FlatContraction} (h : a.fusion = b.fusion) :
    a.postOpInputs.map (·.1) = b.postOpInputs.map (·.1) :=
  congrArg (fun f => f.2.2.1) h

/-! ## The prng scan -/

/-- Op `j` is a `fn` reading exactly `tup`, as the scan after a `prng_step` looks for them. -/
def PrngReads (prog : Program) (fn tup : String) (j : Nat) : Prop :=
  (prog.op j).fn = fn ∧ (prog.op j).inputs = [tup]

/-- A `prng_state` or `prng_value` op reading exactly `tup`. -/
def PrngCompanion (prog : Program) (tup : String) (j : Nat) : Prop :=
  PrngReads prog "prng_state" tup j ∨ PrngReads prog "prng_value" tup j

theorem PrngCompanion.inputs {prog : Program} {tup : String} {j : Nat} (h : PrngCompanion prog tup j) :
    (prog.op j).inputs = [tup] :=
  h.elim (·.2) (·.2)

theorem PrngCompanion.special {prog : Program} {tup : String} {j : Nat} (h : PrngCompanion prog tup j) :
    (prog.op j).isSpecial = true := by
  rcases h with h | h <;> simp [Op.isSpecial, h.1]

theorem PrngCompanion.fn_ne {prog : Program} {tup : String} {j : Nat} (h : PrngCompanion prog tup j) :
    (prog.op j).fn ≠ "" ∧ (prog.op j).fn ≠ "prng_step" := by
  rcases h with h | h <;> rw [h.1] <;> decide

/-- What the scan over `js` from `acc` leaves in `res`: it marks exactly the companions of `tup` it
meets; it keeps `sout` and `soutPos` unless it meets a `prng_state`, and then holds one it met;
and likewise `vout` for `prng_value`. -/
def ScanSpec (prog : Program) (tup : String) (js : List Nat) (acc res : PrngScan) : Prop :=
  (∀ x, x ∈ res.computed ↔ x ∈ acc.computed ∨ (x ∈ js ∧ PrngCompanion prog tup x)) ∧
  ((res.sout = acc.sout ∧ res.soutPos = acc.soutPos ∧ ∀ j ∈ js, ¬ PrngReads prog "prng_state" tup j) ∨
    (res.soutPos ∈ js ∧ PrngReads prog "prng_state" tup res.soutPos ∧ res.sout = (prog.op res.soutPos).output)) ∧
  ((res.vout = acc.vout ∧ ∀ j ∈ js, ¬ PrngReads prog "prng_value" tup j) ∨
    ∃ j ∈ js, PrngReads prog "prng_value" tup j ∧ res.vout = (prog.op j).output)

theorem prngScan_spec (prog : Program) (tup : String) (acc : PrngScan) (j : Nat) :
    ScanSpec prog tup [j] acc (prngScan prog tup acc j) := by
  have hsv : ¬ ("prng_state" = "prng_value") := by decide
  have hmark : ∀ c : PrngCompanion prog tup j, ∀ x, x ∈ setInsert j acc.computed ↔
      x ∈ acc.computed ∨ (x = j ∧ PrngCompanion prog tup x) := fun c x => by
    rw [mem_setInsert]
    constructor
    · rintro (rfl | h)
      exacts [.inr ⟨rfl, c⟩, .inl h]
    · rintro (h | ⟨rfl, -⟩)
      exacts [.inr h, .inl rfl]
  unfold ScanSpec
  simp only [List.mem_singleton, forall_eq, exists_eq_left]
  dsimp only [prngScan]
  split_ifs with h1 h2
  · exact ⟨hmark (.inl h1), .inr ⟨rfl, h1, rfl⟩, .inl ⟨rfl, fun h => hsv (h1.1.symm.trans h.1)⟩⟩
  · exact ⟨hmark (.inr h2), .inl ⟨rfl, rfl, h1⟩, .inr ⟨h2, rfl⟩⟩
  · refine ⟨fun x => ?_, .inl ⟨rfl, rfl, h1⟩, .inl ⟨rfl, h2⟩⟩
    simp only [List.mem_singleton, iff_self_or, and_imp]
    rintro rfl (h | h)
    exacts [absurd h h1, absurd h h2]

theorem ScanSpec.cons {prog : Program} {tup : String} {j : Nat} {js : List Nat} {acc mid res : PrngScan}
    (h1 : ScanSpec prog tup [j] acc mid) (h2 : ScanSpec prog tup js mid res) : ScanSpec prog tup (j :: js) acc res := by
  obtain ⟨hc1, hs1, hv1⟩ := h1
  obtain ⟨hc2, hs2, hv2⟩ := h2
  refine ⟨fun x => ?_, ?_, ?_⟩
  · simp only [hc2, hc1, List.mem_cons, List.mem_singleton, List.not_mem_nil, false_and, false_or, or_and_right,
      or_assoc]
  · rcases hs2 with ⟨e1, e2, hn2⟩ | ⟨hm, hr, he⟩
    · rcases hs1 with ⟨f1, f2, hn1⟩ | ⟨hm1, hr1, he1⟩
      · refine .inl ⟨e1.trans f1, e2.trans f2, fun x hx => ?_⟩
        rcases List.mem_cons.1 hx with rfl | hx
        exacts [hn1 x (List.mem_singleton_self x), hn2 x hx]
      · rw [← e2] at hm1 hr1 he1
        rw [List.mem_singleton] at hm1
        exact .inr ⟨hm1 ▸ List.mem_cons_self _ _, hr1, e1.trans he1⟩
    · exact .inr ⟨List.mem_cons_of_mem _ hm, hr, he⟩
  · rcases hv2 with ⟨e1, hn2⟩ | ⟨k, hk, hr, he⟩
    · rcases hv1 with ⟨f1, hn1⟩ | ⟨k, hk, hr, he⟩
      · refine .inl ⟨e1.trans f1, fun x hx => ?_⟩
        rcases List.mem_cons.1 hx with rfl | hx
        exacts [hn1 x (List.mem_singleton_self x), hn2 x hx]
      · rw [List.mem_singleton] at hk
        exact .inr ⟨k, hk ▸ List.mem_cons_self _ _, hr, e1.trans he⟩
    · exact .inr ⟨k, List.mem_cons_of_mem _ hk, hr, he⟩

/-- The whole scan after a `prng_step`. -/
theorem prngScan_foldl (prog : Program) (tup : String) :
    ∀ (js : List Nat) (acc : PrngScan), ScanSpec prog tup js acc (js.foldl (prngScan prog tup) acc)
  | [], acc => ⟨fun x => by simp, .inl ⟨rfl, rfl, fun _ h => absurd h (List.not_mem_nil _)⟩,
      .inl ⟨rfl, fun _ h => absurd h (List.not_mem_nil _)⟩⟩
  | j :: js, acc => (prngScan_spec prog tup acc j).cons (prngScan_foldl prog tup js _)

theorem prngScan_sorted (prog : Program) (tup : String) :
    ∀ (js : List Nat) (acc : PrngScan), acc.computed.Sorted (· < ·) →
      (js.foldl (prngScan prog tup) acc).computed.Sorted (· < ·)
  | [], _, h => h
  | j :: js, acc, h => prngScan_sorted prog tup js _ (by
      dsimp only [prngScan]
      split_ifs
      exacts [setInsert_sorted h, setInsert_sorted h, h])

theorem mem_map_take_output {ops : List Op} {p : Nat} {n : String} (h : n ∈ (ops.take p).map (·.output)) :
    ∃ q, ∃ hq : q < ops.length, q < p ∧ ops[q].output = n := by
  obtain ⟨x, hx, rfl⟩ := List.mem_map.1 h
  obtain ⟨q, hq, rfl⟩ := List.mem_take_iff_getElem.1 hx
  exact ⟨q, (lt_inf_iff.1 hq).2, (lt_inf_iff.1 hq).1, rfl⟩

theorem PrngCompanion.congr {prog prog' : Program} {tup : String} {k : Nat} (h : prog'.op k = prog.op k) :
    PrngCompanion prog' tup k ↔ PrngCompanion prog tup k := by
  unfold PrngCompanion PrngReads
  rw [h]

/-! ## One step of the driver -/

section Step

variable {ud : UseDef} {vars : Bindings} {inputs outputs : List String}
  {lower : Op → FlatContraction × List Polynomial} {st st' : CompileState} {i : Nat}

/-- What a `prng_step` can do, given the scan after it: with no companion found it only marks;
with a `prng_state` but no `prng_value` it rewrites the state op to an ident of the step's state
input; with both it emits the special kernel. -/
theorem prngStep_eq_ok {op : Op} {scan : PrngScan}
    (hscan : (List.range' (i + 1) (st.prog.ops.length - (i + 1))).foldl (prngScan st.prog op.output)
      { computed := st.computed } = scan)
    (h : prngStep st i op = .ok st') :
    (scan.vout = "" ∧ scan.sout = "" ∧ st' = { st with computed := scan.computed }) ∨
    (scan.vout = "" ∧ scan.sout ≠ "" ∧ st' = { st with
      prog := ⟨st.prog.ops.set scan.soutPos { st.prog.op scan.soutPos with
        fn := "ident", inputs := (st.prog.op scan.soutPos).inputs.set 0 (op.inputs.getD 0 "") }⟩
      computed := scan.computed.erase scan.soutPos }) ∨
    (scan.vout ≠ "" ∧ scan.sout ≠ "" ∧
      st' = { st with computed := scan.computed, kernels := st.kernels ++ [.special op [scan.sout, scan.vout]] }) := by
  dsimp only [prngStep] at h
  rw [hscan] at h
  split_ifs at h with h1 h2 h3 <;> cases h
  · exact .inl ⟨h1.1, h1.2, rfl⟩
  · exact .inr (.inl ⟨h2, fun hs => h1 ⟨h2, hs⟩, rfl⟩)
  · exact .inr (.inr ⟨h2, h3, rfl⟩)

/-- Everything a step of the driver can do, with the flat contraction each branch hands on: a
contraction whose output needs zeroing gets its prelude and its own kernel; any other contraction,
or a plain function not yet computed, roots a fused set, the contraction going to
`ContractionWrap`; a constant or a computed op is passed over; a special function other than the
prng ones is emitted alone; and a `prng_step` goes to `prngStep`. -/
theorem compileStep_cases (h : compileStep ud vars inputs outputs lower st i = .ok st') :
    (∃ k, (st.prog.op i).tag = .contraction ∧
      contractionWrap vars (some (st.prog.op i))
        { (lower (st.prog.op i)).1 with
          output := (st.prog.op i).output
          kernelOutputs := (lower (st.prog.op i)).1.kernelOutputs ++ [(st.prog.op i).output] }
        st.varRewrites [] = .ok k ∧
      st' = { st with kernels := st.kernels ++ (if (st.prog.op i).useDefault ≠ "" then
        .copy (st.prog.op i).output (st.prog.op i).useDefault else .zero (st.prog.op i).output) :: k.toList }) ∨
    (∃ c flat0 outPoly flat C vr wsr k,
      ((c = some (st.prog.op i) ∧ (st.prog.op i).tag = .contraction ∧
          needsZero .sizeT { (lower (st.prog.op i)).1 with output := (st.prog.op i).output } = false ∧
          flat0 = { (lower (st.prog.op i)).1 with output := (st.prog.op i).output } ∧ outPoly = (lower (st.prog.op i)).2) ∨
        (c = none ∧ (st.prog.op i).tag = .function ∧ i ∉ st.computed ∧ (st.prog.op i).isSpecial = false ∧
          flat0 = (elementwiseFlat vars (st.prog.op i)).1 ∧ outPoly = (elementwiseFlat vars (st.prog.op i)).2)) ∧
      doUnification st.prog ud vars inputs outputs flat0 st.computed st.varRewrites [] i outPoly = .ok (flat, C, vr, wsr) ∧
      contractionWrap vars c flat vr wsr = .ok k ∧
      st' = { st with computed := C, varRewrites := vr, kernels := st.kernels ++ k.toList }) ∨
    ((st.prog.op i).tag ≠ .contraction ∧ ((st.prog.op i).tag = .constant ∨ i ∈ st.computed) ∧ st' = st) ∨
    ((st.prog.op i).tag ≠ .contraction ∧ (st.prog.op i).tag ≠ .constant ∧ i ∉ st.computed ∧
      (st.prog.op i).isSpecial = true ∧ (st.prog.op i).fn ≠ "prng_state" ∧ (st.prog.op i).fn ≠ "prng_value" ∧
      (st.prog.op i).fn ≠ "prng_step" ∧ st' = { st with kernels := st.kernels ++ [.special (st.prog.op i) []] }) ∨
    ((st.prog.op i).tag ≠ .contraction ∧ i ∉ st.computed ∧ (st.prog.op i).fn = "prng_step" ∧
      prngStep st i (st.prog.op i) = .ok st') := by
  dsimp only [compileStep] at h
  by_cases hc : (st.prog.op i).tag = .contraction
  · rw [if_pos hc] at h
    split at h
    · obtain ⟨k, hk, h⟩ := except_bind_ok h
      cases h
      exact .inl ⟨k, hc, hk, rfl⟩
    · rename_i hnz
      obtain ⟨⟨flat, C, vr, wsr⟩, h1, h⟩ := except_bind_ok h
      obtain ⟨k, h2, h⟩ := except_bind_ok h
      cases h
      exact .inr (.inl ⟨_, _, _, _, _, _, _, _, .inl ⟨rfl, hc, Bool.eq_false_iff.2 hnz, rfl, rfl⟩, h1, h2, rfl⟩)
  rw [if_neg hc] at h
  by_cases hcst : (st.prog.op i).tag = .constant
  · rw [if_pos hcst] at h
    cases h
    exact .inr (.inr (.inl ⟨hc, .inl hcst, rfl⟩))
  rw [if_neg hcst] at h
  by_cases hiP : i ∈ st.computed
  · rw [if_pos hiP] at h
    cases h
    exact .inr (.inr (.inl ⟨hc, .inr hiP, rfl⟩))
  rw [if_neg hiP] at h
  by_cases hsp : (st.prog.op i).isSpecial = true
  · rw [if_pos hsp] at h
    obtain ⟨hsv, h⟩ := except_guard_ok h
    by_cases hstep : (st.prog.op i).fn = "prng_step"
    · rw [if_pos hstep] at h
      exact .inr (.inr (.inr (.inr ⟨hc, hiP, hstep, h⟩)))
    rw [if_neg hstep] at h
    cases h
    exact .inr (.inr (.inr (.inl ⟨hc, hcst, hiP, hsp, fun h => hsv (.inl h), fun h => hsv (.inr h), hstep, rfl⟩)))
  rw [if_neg hsp] at h
  have hf : (st.prog.op i).tag = .function := by
    revert hc hcst
    cases (st.prog.op i).tag <;> simp
  obtain ⟨⟨flat, C, vr, wsr⟩, h1, h⟩ := except_bind_ok h
  obtain ⟨k, h2, h⟩ := except_bind_ok h
  cases h
  exact .inr (.inl ⟨_, _, _, _, _, _, _, _, .inr ⟨rfl, hf, hiP, by simpa using hsp, rfl, rfl⟩, h1, h2, rfl⟩)

/-- What one op of the driver can do: a contraction whose output needs zeroing gets a prelude and
its own kernel; a contraction, or a plain function not yet computed, roots `DoUnification`; a
constant or a computed op is passed over; any other special function is emitted alone; and a
`prng_step` not yet computed goes to `prngStep`. -/
theorem compileStep_eq_ok (hlower : LoweringWF lower)
    (h : compileStep ud vars inputs outputs lower st i = .ok st') :
    (∃ pre ki, (pre = .zero (st.prog.op i).output ∨ pre = .copy (st.prog.op i).output (st.prog.op i).useDefault) ∧
      (st.prog.op i).tag = .contraction ∧ ki.flat.postOps = [] ∧ ki.flat.generateContraction = true ∧
      ki.flat.output = (st.prog.op i).output ∧ st' = { st with kernels := st.kernels ++ [pre, .contraction ki] }) ∨
    (∃ (flat0 : FlatContraction) (outPoly : List Polynomial) (c : Option Op) (flat : FlatContraction) (C : List Nat)
      (vr : VarRewrites) (wsr : List String) (k : Option Kernel),
      ((st.prog.op i).tag = .contraction ∨
        (st.prog.op i).tag = .function ∧ i ∉ st.computed ∧ (st.prog.op i).isSpecial = false) ∧
      flat0.postOps = [] ∧ flat0.output = (st.prog.op i).output ∧
      (flat0.generateContraction = true ↔ (st.prog.op i).tag = .contraction) ∧
      doUnification st.prog ud vars inputs outputs flat0 st.computed st.varRewrites [] i outPoly =
        .ok (flat, C, vr, wsr) ∧
      contractionWrap vars c flat vr wsr = .ok k ∧
      st' = { st with computed := C, varRewrites := vr, kernels := st.kernels ++ k.toList }) ∨
    ((st.prog.op i).tag ≠ .contraction ∧ ((st.prog.op i).tag = .constant ∨ i ∈ st.computed) ∧ st' = st) ∨
    ((st.prog.op i).tag ≠ .contraction ∧ (st.prog.op i).tag ≠ .constant ∧ i ∉ st.computed ∧
      (st.prog.op i).isSpecial = true ∧ (st.prog.op i).fn ≠ "prng_state" ∧ (st.prog.op i).fn ≠ "prng_value" ∧
      (st.prog.op i).fn ≠ "prng_step" ∧ st' = { st with kernels := st.kernels ++ [.special (st.prog.op i) []] }) ∨
    ((st.prog.op i).tag ≠ .contraction ∧ i ∉ st.computed ∧ (st.prog.op i).fn = "prng_step" ∧
      prngStep st i (st.prog.op i) = .ok st') := by
  rcases compileStep_cases h with ⟨k, hc, hk, rfl⟩ | ⟨c, flat0, outPoly, flat, C, vr, wsr, k, hroot, h1, h2, rfl⟩ | h | h | h
  · rcases contractionWrap_eq_ok hk with ⟨-, hgc, -⟩ | ⟨ki, rfl, hf⟩
    · simp [hlower.generate] at hgc
    · exact .inl ⟨_, ki, by split <;> simp, hc, (fusion_postOps hf).trans (hlower.postOps _),
        (fusion_generate hf).trans (hlower.generate _), fusion_output hf, rfl⟩
  · rcases hroot with ⟨rfl, hc, -, rfl, rfl⟩ | ⟨rfl, hf, hiP, hsp, rfl, rfl⟩
    · exact .inr (.inl ⟨_, _, _, _, _, _, _, _, .inl hc, by exact hlower.postOps _, by rfl,
        by simp [hc, hlower.generate], h1, h2, rfl⟩)
    · exact .inr (.inl ⟨_, _, _, _, _, _, _, _, .inr ⟨hf, hiP, hsp⟩, rfl, rfl, by simp [elementwiseFlat, hf],
        h1, h2, rfl⟩)
  · exact .inr (.inr (.inl h))
  · exact .inr (.inr (.inr (.inl h)))
  · exact .inr (.inr (.inr (.inr h)))

end Step

/-! ## Rewrite chains -/

/-- Chains of elided sources are deterministic: from a name they lead to at most one name that is
not rewritten. -/
theorem ElidedSource.chain_unique {prog : Program} {ud : UseDef} {vr : VarRewrites} {x a b : String}
    (ha : Relation.TransGen (ElidedSource prog ud vr) x a) (hb : Relation.TransGen (ElidedSource prog ud vr) x b)
    (hna : vr.entries.lookup a = none) (hnb : vr.entries.lookup b = none) : a = b := by
  have hfun : ∀ {y c c' : String}, ElidedSource prog ud vr y c → ElidedSource prog ud vr y c' → c = c' := by
    rintro y c c' ⟨-, d, hd, hc⟩ ⟨-, d', hd', hc'⟩
    rw [hd] at hd'
    cases hd'
    rw [hc] at hc'
    exact Option.some.inj hc'
  have hend : ∀ {y c : String}, vr.entries.lookup y = none → ¬ ElidedSource prog ud vr y c := fun hy h => by
    simpa [hy] using h.1
  induction ha using Relation.TransGen.head_induction_on generalizing b with
  | base h =>
    obtain ⟨c, hc, hcb⟩ := Relation.TransGen.head'_iff.1 hb
    cases hfun h hc
    rcases Relation.ReflTransGen.cases_head hcb with rfl | ⟨d, hd, -⟩
    · rfl
    · exact absurd hd (hend hna)
  | ih h hca ih =>
    obtain ⟨c, hc, hcb⟩ := Relation.TransGen.head'_iff.1 hb
    cases hfun h hc
    rcases Relation.ReflTransGen.cases_head hcb with rfl | ⟨d, hd, hdb⟩
    · obtain ⟨e, he, -⟩ := Relation.TransGen.head'_iff.1 hca
      exact absurd he (hend hnb)
    · exact ih (Relation.TransGen.head'_iff.2 ⟨d, hd, hdb⟩) hnb

/-- Changing ops that are not elidable keeps a rewrite map's invariant. -/
theorem RewritesInv.congr {prog prog' : Program} {ud : UseDef} {vr : VarRewrites} {S K S' K' : Nat → Prop}
    (h : RewritesInv prog ud vr S K) (hsame : ∀ d, (prog.op d).Elidable → prog'.op d = prog.op d)
    (hS : ∀ e, S e → S' e) (hK : ∀ d, K d → (prog.op d).Elidable → K' d) : RewritesInv prog' ud vr S' K' where
  flat := h.flat
  entry k v hkv :=
    let ⟨d, hd1, hd2, hd3, hd4⟩ := h.entry k v hkv
    ⟨d, hd1, hK d hd2 hd3, hsame d hd3 ▸ hd3, fun e he => ⟨hS e (hd4 e he).1, (hd4 e he).2⟩⟩
  chain k v hkv := (h.chain k v hkv).mono fun x x' ⟨hx, d, hd, hin⟩ => by
    obtain ⟨w, hw⟩ := Option.isSome_iff_exists.1 hx
    obtain ⟨d', hd', -, hel, -⟩ := h.entry x w (mem_of_lookup_eq_some hw)
    rw [hd] at hd'
    cases hd'
    exact ⟨hx, d, hd, by rw [hsame d hel]; exact hin⟩

theorem Settled.mono {prog : Program} {r r' : Nat} {P P' : List Nat} (hr : r ≤ r') (hP : ∀ x ∈ P, x ∈ P') {e : Nat}
    (h : Settled prog r P e) : Settled prog r' P' e :=
  h.imp (fun h => by omega) (Or.imp_left (hP e))

/-! ## The run invariant -/

section RunInv

variable (prog : Program) (vars : Bindings)

/-- The tensor inputs of each post-op of a kernel are bound in the kernel: post-op inputs, the
contraction's output, or earlier post-ops' outputs. Every op defining one comes before the op the
post-op copies, and one that is no post-op input is the output of a computed op that is not
special and is not rewritten. -/
def PostOpReads (stProg : Program) (computed : List Nat) (vr : VarRewrites) (ki : KernelInfo) : Prop :=
  ∀ p (hp : p < ki.flat.postOps.length), ∀ n ∈ ki.flat.postOps[p].inputs, (vars n).tag = .tensor →
    (n ∈ ki.flat.postOpInputs.map (·.1) ∨ (n = ki.flat.output ∧ ki.flat.generateContraction = true) ∨
      n ∈ (ki.flat.postOps.take p).map (·.output)) ∧
    (∀ u < prog.ops.length, ∀ o < prog.ops.length, (prog.op o).output = ki.flat.postOps[p].output →
      (prog.op u).output = n → u < o) ∧
    (n ∈ ki.flat.postOpInputs.map (·.1) ∨ vr.entries.lookup n = none ∧
      ∃ d ∈ computed, (UseDef.ofProgram prog).opDefs n = some d ∧ (stProg.op d).isSpecial = false)

/-- The driver's state before op `i`: the program keeps the input's outputs and tags, its ops
well formed and its use/def index; a computed op from `i` on is a plain function fused ahead or a
companion of an earlier `prng_step`; the rewrites are flat, keyed by computed elided ops, with
settled targets; and each kernel's post-ops read names bound in the kernel. -/
structure RunInv (i : Nat) (st : CompileState) : Prop where
  length : st.prog.ops.length = prog.ops.length
  output : ∀ k, (st.prog.op k).output = (prog.op k).output
  tag : ∀ k, (st.prog.op k).tag = (prog.op k).tag
  opsWF : st.prog.OpsWF
  fits : (UseDef.ofProgram prog).Fits st.prog
  ahead : ∀ k ∈ st.computed, i ≤ k → ((st.prog.op k).tag = .function ∧ (st.prog.op k).isSpecial = false) ∨
    ∃ j < i, PrngCompanion st.prog (prog.op j).output k
  rewrites : RewritesInv st.prog (UseDef.ofProgram prog) st.varRewrites (Settled st.prog i st.computed) (· ∈ st.computed)
  kernels : ∀ ki, .contraction ki ∈ st.kernels → PostOpReads prog vars st.prog st.computed st.varRewrites ki

variable {prog vars}

theorem PostOpReads.mono {stProg stProg' : Program} {C C' : List Nat} {vr vr' : VarRewrites} {ki : KernelInfo}
    (h : PostOpReads prog vars stProg C vr ki)
    (hC : ∀ d ∈ C, (stProg.op d).isSpecial = false → d ∈ C' ∧ (stProg'.op d).isSpecial = false)
    (hvr : ∀ n, ∀ d ∈ C, (UseDef.ofProgram prog).opDefs n = some d → vr.entries.lookup n = none →
      vr'.entries.lookup n = none) :
    PostOpReads prog vars stProg' C' vr' ki := fun p hp n hn ht =>
  let ⟨h1, h2, h3⟩ := h p hp n hn ht
  ⟨h1, h2, h3.imp_right fun ⟨hl, d, hd, hdef, hsp⟩ =>
    ⟨hvr n d hd hdef hl, d, (hC d hd hsp).1, hdef, (hC d hd hsp).2⟩⟩

theorem RunInv.start (hwf : prog.WF) (hops : prog.OpsWF) : RunInv prog vars 0 ⟨prog, [], [], {}⟩ where
  length := rfl
  output _ := rfl
  tag _ := rfl
  opsWF := hops
  fits := UseDef.ofProgram_fits hwf
  ahead _ h := absurd h (List.not_mem_nil _)
  rewrites := ⟨fun _ _ h => absurd h (List.not_mem_nil _), fun _ _ h => absurd h (List.not_mem_nil _),
    fun _ _ h => absurd h (List.not_mem_nil _)⟩
  kernels _ h := absurd h (List.not_mem_nil _)

section Facts

variable {i : Nat} {st : CompileState} (hinv : RunInv prog vars i st)
include hinv

theorem RunInv.opDefs_output (hwf : prog.WF) {u : Nat} (hu : u < st.prog.ops.length) :
    (UseDef.ofProgram prog).opDefs (st.prog.op u).output = some u := by
  rw [hinv.output]
  exact UseDef.ofProgram_opDefs_output hwf (hinv.length ▸ hu)

theorem RunInv.output_of_opDefs {v : String} {d : Nat} (h : (UseDef.ofProgram prog).opDefs v = some d) :
    (st.prog.op d).output = v := by
  rw [hinv.output]
  exact (UseDef.ofProgram_opDefs h).2

/-- A contraction is never computed ahead of its turn. -/
theorem RunInv.not_computed_of_contraction (hc : (st.prog.op i).tag = .contraction) : i ∉ st.computed := fun hmem => by
  rcases hinv.ahead i hmem le_rfl with ⟨hf, -⟩ | ⟨j, -, hj⟩
  · rw [hc] at hf
    cases hf
  · have hf : (st.prog.op i).tag = .function := hinv.opsWF.tag_of_fn hj.fn_ne.1
    rw [hc] at hf
    cases hf

/-- A companion of the op at `i`, read at or after `i`, is not computed before `i` runs. -/
theorem RunInv.companion_not_computed (hwf : prog.WF) (hi : i < prog.ops.length) {k : Nat}
    (hk : PrngCompanion st.prog (st.prog.op i).output k) (hik : i ≤ k) : k ∉ st.computed := fun hkc => by
  rcases hinv.ahead k hkc hik with ⟨-, hsp⟩ | ⟨j, hj, hjc⟩
  · rw [hk.special] at hsp
    cases hsp
  · have hjin := hjc.inputs
    rw [hk.inputs, List.cons.injEq, hinv.output] at hjin
    exact absurd (output_inj (fun _ hu => UseDef.ofProgram_opDefs_output hwf hu) hi (by omega) hjin.1) (by omega)

/-- A step that adds companions of op `i` to `computed` and kernels without post-ops. -/
theorem RunInv.extend (C : List Nat) (ks : List Kernel) (hC : ∀ k ∈ st.computed, k ∈ C)
    (hnew : ∀ k ∈ C, k ∉ st.computed → PrngCompanion st.prog (prog.op i).output k)
    (hks : ∀ ki, .contraction ki ∈ ks → ki.flat.postOps = []) :
    RunInv prog vars (i + 1) { st with computed := C, kernels := st.kernels ++ ks } where
  length := hinv.length
  output := hinv.output
  tag := hinv.tag
  opsWF := hinv.opsWF
  fits := hinv.fits
  ahead k hk hik := by
    by_cases hkc : k ∈ st.computed
    · exact (hinv.ahead k hkc (by omega)).imp_right fun ⟨j, hj, h⟩ => ⟨j, by omega, h⟩
    · exact .inr ⟨i, by omega, hnew k hk hkc⟩
  rewrites := hinv.rewrites.mono (fun _ => Settled.mono (by omega) hC) hC
  kernels ki hki := by
    rcases List.mem_append.1 hki with h | h
    · exact (hinv.kernels ki h).mono (fun d hd hsp => ⟨hC d hd, hsp⟩) fun _ _ _ _ hl => hl
    · intro p hp
      rw [hks ki h] at hp
      exact absurd hp (Nat.not_lt_zero _)

theorem RunInv.next : RunInv prog vars (i + 1) st := by
  have h := hinv.extend st.computed [] (fun _ hk => hk) (fun _ hk hk' => absurd hk hk') (by simp)
  rwa [List.append_nil] at h

/-- A name defined by an op outside `computed` is not rewritten. -/
theorem RunInv.lookup_of_not_computed {n : String} {u : Nat} (hn : (UseDef.ofProgram prog).opDefs n = some u)
    (hu : u ∉ st.computed) : st.varRewrites.entries.lookup n = none := by
  cases hl : st.varRewrites.entries.lookup n with
  | none => rfl
  | some w =>
    obtain ⟨d, hd, hdC, -⟩ := hinv.rewrites.entry n w (mem_of_lookup_eq_some hl)
    rw [hn] at hd
    cases hd
    exact absurd hdC hu

omit hinv in
/-- The fused set of op `i` lies outside `computed` and holds no special op. -/
theorem fused_fresh (hiP : i ∉ st.computed) (hspec : (st.prog.op i).isSpecial = false) {U : List Nat}
    (hm : Members st.prog vars i st.computed (UseDef.ofProgram prog) U) :
    ∀ u ∈ U, u ∉ st.computed ∧ (st.prog.op u).isSpecial = false := fun u hu => by
  by_cases hur : u = i
  · subst hur
    exact ⟨hiP, hspec⟩
  · exact ⟨(hm.nonroot hu hur).1, (hm.nonroot hu hur).2.2.1⟩

section Walked

variable (hwf : prog.WF) (hr : i < st.prog.ops.length) {U : List Nat}
  (hm : Members st.prog vars i st.computed (UseDef.ofProgram prog) U)
  (hUC : ∀ u ∈ U, u ∉ st.computed ∧ (st.prog.op u).isSpecial = false) {ws : WalkState}
  (hw : WalkInv st.prog (UseDef.ofProgram prog) vars i st.computed st.varRewrites U ws)
include hwf hr hm hUC hw

/-- The walk rewrites no name that a computed op defines. -/
theorem RunInv.walk_lookup {n : String} {d : Nat} (hd : d ∈ st.computed)
    (hn : (UseDef.ofProgram prog).opDefs n = some d) (hl : st.varRewrites.entries.lookup n = none) :
    ws.varRewrites.entries.lookup n = none := by
  rw [hw.entries, List.lookup_append, hl, Option.or_none]
  cases hl' : ws.localRewrites.lookup n with
  | none => rfl
  | some w =>
    obtain ⟨u, hu, hun⟩ := hw.localKeys n w (mem_of_lookup_eq_some hl')
    have hdu := hinv.opDefs_output hwf ((hm.sound u hu).bounds hinv.fits hr).2
    rw [hun, hn] at hdu
    exact absurd (Option.some.inj hdu ▸ hd) (hUC u hu).1

/-- The kernel built from the walk: its post-ops read names bound in it. -/
theorem RunInv.walk_reads {ki : KernelInfo} (hpo : ki.flat.postOps = ws.postOps)
    (hout : ki.flat.output = (st.prog.op i).output)
    (hgen : (st.prog.op i).tag ≠ .function → ki.flat.generateContraction = true)
    (hkeys : ∀ n ∈ ws.postContractionInputs, n ∈ ki.flat.postOpInputs.map (·.1)) :
    PostOpReads prog vars st.prog (setInsertAll st.computed U) ws.varRewrites ki := by
  intro p hp n hn ht
  have hp' : p < ws.postOps.length := hpo ▸ hp
  have hget : ki.flat.postOps[p] = ws.postOps[p] := List.getElem_of_eq hpo hp
  rw [hget] at hn ⊢
  obtain ⟨o, hoU, -, hoout, hins⟩ := hw.reads p hp'
  obtain ⟨h1, hloc, hbefore⟩ := hins n hn
  have hbound : ∀ u ∈ U, u < st.prog.ops.length := fun u hu => ((hm.sound u hu).bounds hinv.fits hr).2
  have hdefU : n ∉ ws.postContractionInputs → ∃ d ∈ U, (UseDef.ofProgram prog).opDefs n = some d := by
    intro hnp
    rcases h1 ht with h | ⟨rfl, -⟩ | h
    · exact absurd h hnp
    · exact ⟨i, hm.root, hinv.opDefs_output hwf hr⟩
    · obtain ⟨q, hq, -, rfl⟩ := mem_map_take_output h
      obtain ⟨o', ho'U, -, ho'out, -⟩ := hw.reads q hq
      exact ⟨o', ho'U, ho'out ▸ hinv.opDefs_output hwf (hbound o' ho'U)⟩
  refine ⟨?_, fun u hu o' ho' hout' hun => ?_, ?_⟩
  · rcases h1 ht with h | ⟨h, hf⟩ | h
    · exact .inl (hkeys n h)
    · exact .inr (.inl ⟨h.trans hout.symm, hgen hf⟩)
    · exact .inr (.inr (hpo ▸ h))
  · have ho : o' = o := output_inj (fun _ hu => hinv.opDefs_output hwf hu) (hinv.length ▸ ho') (hbound o hoU)
      (by rw [hinv.output, hout', hoout])
    exact ho ▸ hbefore u (hinv.length ▸ hu) (by rw [hinv.output]; exact hun)
  · by_cases hnp : n ∈ ws.postContractionInputs
    · exact .inl (hkeys n hnp)
    · obtain ⟨d, hdU, hd⟩ := hdefU hnp
      refine .inr ⟨?_, d, mem_setInsertAll.2 (.inr hdU), hd, (hUC d hdU).2⟩
      rw [hw.entries, List.lookup_append, hloc, Option.none_or]
      exact hinv.lookup_of_not_computed hd (hUC d hdU).1

end Walked

/-- A step through `DoUnification`: the fused set joins `computed`, the walk's rewrites, which
extend the driver's, replace them, and the kernel, if kept, reads only names bound in it. -/
theorem RunInv.unify (hwf : prog.WF) (hi : i < prog.ops.length) (hiP : i ∉ st.computed)
    (hspec : (st.prog.op i).isSpecial = false) {inputs outputs : List String} {c : Option Op}
    {flat0 flat : FlatContraction} {outPoly : List Polynomial} {C : List Nat} {vr : VarRewrites}
    {wsr : List String} {k : Option Kernel} (hpo : flat0.postOps = []) (hout : flat0.output = (st.prog.op i).output)
    (hgen : (st.prog.op i).tag ≠ .function → flat0.generateContraction = true)
    (h1 : doUnification st.prog (UseDef.ofProgram prog) vars inputs outputs flat0 st.computed st.varRewrites [] i
      outPoly = .ok (flat, C, vr, wsr))
    (h2 : contractionWrap vars c flat vr wsr = .ok k) :
    RunInv prog vars (i + 1) { st with computed := C, varRewrites := vr, kernels := st.kernels ++ k.toList } ∧
      st.varRewrites.entries <:+ vr.entries := by
  have hr : i < st.prog.ops.length := hinv.length ▸ hi
  obtain ⟨ws, accs, hw, hacc, rfl, rfl, rfl, rfl⟩ := doUnification_eq_ok hinv.fits
    (fun _ hu => hinv.opDefs_output hwf hu) (fun _ _ h => hinv.output_of_opDefs h) hr hiP hinv.rewrites hpo h1
  have hm : Members st.prog vars i st.computed (UseDef.ofProgram prog)
      (connectedComponents st.prog vars i st.computed (UseDef.ofProgram prog)) :=
    (connectedComponents_run hinv.fits hr).2.toMembers
  have hUC := fused_fresh hiP hspec hm
  refine ⟨⟨hinv.length, hinv.output, hinv.tag, hinv.opsWF, hinv.fits, fun k hk hik => ?_, ?_, fun ki hki => ?_⟩, ?_⟩
  · rcases mem_setInsertAll.1 hk with h | h
    · exact (hinv.ahead k h (by omega)).imp_right fun ⟨j, hj, h⟩ => ⟨j, by omega, h⟩
    · exact .inl ⟨(hm.nonroot h (by omega)).2.1, (hm.nonroot h (by omega)).2.2.1⟩
  · exact hw.mono (fun e he => he.elim (Settled.mono (Nat.le_succ i) fun _ hx => mem_setInsertAll.2 (.inl hx))
      fun h => .inr (.inl (mem_setInsertAll.2 (.inr h)))) fun _ hd => mem_setInsertAll.2 hd
  · rcases List.mem_append.1 hki with h | h
    · exact (hinv.kernels ki h).mono (fun d hd hsp => ⟨mem_setInsertAll.2 (.inl hd), hsp⟩)
        fun n d hd hn hl => hinv.walk_lookup hwf hr hm hUC hw hd hn hl
    · rcases contractionWrap_eq_ok h2 with ⟨rfl, -⟩ | ⟨ki', rfl, hf⟩
      · cases h
      · obtain rfl : ki = ki' := by simpa using h
        refine hinv.walk_reads hwf hr hm hUC hw (fusion_postOps hf) ((fusion_output hf).trans hout)
          (fun hn => (fusion_generate hf).trans (hgen hn)) fun n hn => ?_
        rw [fusion_keys hf, List.map_append, (postOpAccesses_eq_ok hacc).1]
        exact List.mem_append_right _ hn
  · rw [hw.entries]
    exact List.suffix_append _ _

/-- The ident rewrite of a `prng_step` whose value is unused: its `prng_state` op `s` now reads the
step's state input and leaves `computed`. -/
theorem RunInv.prngRewrite (hwf : prog.WF) (hi : i < prog.ops.length) (hstep : (st.prog.op i).fn = "prng_step")
    {s : Nat} (his : i < s) (hs : s < prog.ops.length) (hsfn : (st.prog.op s).fn = "prng_state")
    (hsin : (st.prog.op s).inputs = [(st.prog.op i).output]) {C : List Nat} (hC : ∀ k ∈ st.computed, k ∈ C)
    (hnew : ∀ k ∈ C, k ∉ st.computed → PrngCompanion st.prog (prog.op i).output k) :
    RunInv prog vars (i + 1) { st with
      prog := ⟨st.prog.ops.set s { st.prog.op s with
        fn := "ident", inputs := (st.prog.op s).inputs.set 0 ((st.prog.op i).inputs.getD 0 "") }⟩
      computed := C.erase s } := by
  set x : Op := { st.prog.op s with fn := "ident", inputs := (st.prog.op s).inputs.set 0 ((st.prog.op i).inputs.getD 0 "") }
  have hs' : s < st.prog.ops.length := hinv.length ▸ hs
  have hop : ∀ k, k ≠ s → (⟨st.prog.ops.set s x⟩ : Program).op k = st.prog.op k := fun k hk => by
    rw [Program.op_set hs', if_neg hk]
  have hopS : (⟨st.prog.ops.set s x⟩ : Program).op s = x := by rw [Program.op_set hs', if_pos rfl]
  have hsame : ∀ k, ((⟨st.prog.ops.set s x⟩ : Program).op k).output = (st.prog.op k).output ∧
      ((⟨st.prog.ops.set s x⟩ : Program).op k).tag = (st.prog.op k).tag := fun k => by
    rcases eq_or_ne k s with rfl | hk
    · rw [hopS]; exact ⟨rfl, rfl⟩
    · rw [hop k hk]; exact ⟨rfl, rfl⟩
  have hsC : s ∉ st.computed := hinv.companion_not_computed hwf hi (.inl ⟨hsfn, hsin⟩) his.le
  have hne : ∀ d ∈ st.computed, d ≠ s := fun d hd h => hsC (h ▸ hd)
  have hkeep : ∀ d ∈ st.computed, d ∈ C.erase s := fun d hd => (List.mem_erase_of_ne (hne d hd)).2 (hC d hd)
  have hxtag : x.tag = .function := hinv.opsWF.tag_of_fn (by rw [hsfn]; decide)
  have hin : (st.prog.op i).inputs.getD 0 "" ∈ (st.prog.op i).inputs := by
    obtain ⟨a, l, hl⟩ := List.exists_cons_of_ne_nil (hinv.opsWF.step_input hstep)
    rw [hl]
    exact List.mem_cons_self _ _
  refine ⟨(List.length_set _ _ _).trans hinv.length, fun k => (hsame k).1.trans (hinv.output k),
    fun k => (hsame k).2.trans (hinv.tag k), ⟨fun o ho ht => ?_, fun o ho hfn => ?_⟩,
    ⟨fun v c h => ?_, fun v d h => ?_, fun k v d hv hd => ?_, fun u c hu hc => ?_⟩, fun k hk hik => ?_, ?_,
    fun ki hki => ?_⟩
  · rcases List.mem_or_eq_of_mem_set ho with ho | rfl
    · exact hinv.opsWF.fnEmpty o ho ht
    · exact absurd hxtag ht
  · rcases List.mem_or_eq_of_mem_set ho with ho | rfl
    · exact hinv.opsWF.prngStepInput o ho hfn
    · have hid : ¬ ("ident" = "prng_step") := by decide
      exact absurd hfn hid
  · simpa using hinv.fits.usesLt v c h
  · simpa using hinv.fits.defsLt v d h
  · by_cases hk : k = s
    · subst hk
      rw [hopS] at hv
      simp only [x, hsin, List.set_cons_zero, List.mem_singleton] at hv
      subst hv
      have := hinv.fits.defBefore i _ d hin hd
      omega
    · rw [hop k hk] at hv
      exact hinv.fits.defBefore k v d hv hd
  · rw [(hsame u).1] at hc
    exact hinv.fits.useAfter u c (by simpa using hu) hc
  · by_cases hks : k = s
    · subst hks
      rw [hopS]
      exact .inl ⟨hxtag, rfl⟩
    · have hold : ((st.prog.op k).tag = .function ∧ (st.prog.op k).isSpecial = false) ∨
          ∃ j < i + 1, PrngCompanion st.prog (prog.op j).output k := by
        by_cases hkc : k ∈ st.computed
        · exact (hinv.ahead k hkc (by omega)).imp_right fun ⟨j, hj, h⟩ => ⟨j, by omega, h⟩
        · exact .inr ⟨i, by omega, hnew k (List.mem_of_mem_erase hk) hkc⟩
      simpa only [PrngCompanion.congr (hop k hks), hop k hks] using hold
  · refine hinv.rewrites.congr (fun d hd => hop d ?_) (fun e he => ?_) fun d hd _ => hkeep d hd
    · rintro rfl
      rcases hd.2 with h | h <;> rw [hsfn] at h <;> exact absurd h (by decide)
    · rcases he with h | h | h
      · exact .inl (by omega)
      · exact .inr (.inl (hkeep e h))
      · exact .inr (.inr ((hsame e).2.trans h))
  · exact (hinv.kernels ki hki).mono (fun d hd hsp => ⟨hkeep d hd, by rwa [hop d (hne d hd)]⟩)
      fun _ _ _ _ hl => hl

/-- A `prng_step`: its companions join `computed`, and either nothing else happens, or the state
op is rewritten to an ident, or the special kernel is emitted. -/
theorem RunInv.prng (hwf : prog.WF) (hi : i < prog.ops.length) (hstep : (st.prog.op i).fn = "prng_step")
    {st' : CompileState} (h : prngStep st i (st.prog.op i) = .ok st') :
    RunInv prog vars (i + 1) st' ∧ st.varRewrites.entries <:+ st'.varRewrites.entries := by
  have hsuf := List.suffix_refl st.varRewrites.entries
  obtain ⟨hcS, hsS, -⟩ := prngScan_foldl st.prog (st.prog.op i).output
    (List.range' (i + 1) (st.prog.ops.length - (i + 1))) { computed := st.computed }
  generalize hscan : List.foldl (prngScan st.prog (st.prog.op i).output) { computed := st.computed }
    (List.range' (i + 1) (st.prog.ops.length - (i + 1))) = scan at hcS hsS
  have hC : ∀ k ∈ st.computed, k ∈ scan.computed := fun k hk => (hcS k).2 (.inl hk)
  have hnew : ∀ k ∈ scan.computed, k ∉ st.computed → PrngCompanion st.prog (prog.op i).output k := fun k hk hkc =>
    hinv.output i ▸ (((hcS k).1 hk).resolve_left hkc).2
  rcases prngStep_eq_ok hscan h with ⟨-, -, rfl⟩ | ⟨-, hs, rfl⟩ | ⟨-, -, rfl⟩
  · have h' := hinv.extend scan.computed [] hC hnew (by simp)
    rw [List.append_nil] at h'
    exact ⟨h', hsuf⟩
  · rcases hsS with ⟨hs0, -, -⟩ | ⟨hsm, hsr, -⟩
    · exact absurd hs0 hs
    · rw [List.mem_range'_1] at hsm
      exact ⟨hinv.prngRewrite hwf hi hstep (by omega) (by rw [← hinv.length]; omega) hsr.1 hsr.2 hC hnew, hsuf⟩
  · exact ⟨hinv.extend scan.computed _ hC hnew (by simp), hsuf⟩

/-- One op of the driver keeps the invariant, and `var_rewrites` only gains entries. -/
theorem RunInv.step (hwf : prog.WF) {inputs outputs : List String} {lower : Op → FlatContraction × List Polynomial}
    (hlower : LoweringWF lower) (hi : i < prog.ops.length) {st' : CompileState}
    (h : compileStep (UseDef.ofProgram prog) vars inputs outputs lower st i = .ok st') :
    RunInv prog vars (i + 1) st' ∧ st.varRewrites.entries <:+ st'.varRewrites.entries := by
  have hsuf := List.suffix_refl st.varRewrites.entries
  rcases compileStep_eq_ok hlower h with ⟨pre, ki, hpre, -, hpo, -, -, rfl⟩ |
      ⟨flat0, outPoly, c, flat, C, vr, wsr, k, hroot, hpo, hout, hgen, h1, h2, rfl⟩ | ⟨-, -, rfl⟩ |
      ⟨-, -, -, -, -, -, -, rfl⟩ | ⟨-, -, hstep, h⟩
  · refine ⟨hinv.extend st.computed _ (fun _ hk => hk) (fun _ hk hk' => absurd hk hk') fun ki' hki => ?_, hsuf⟩
    rcases hpre with rfl | rfl <;>
    · obtain rfl : ki' = ki := by simpa using hki
      exact hpo
  · have hiP : i ∉ st.computed := hroot.elim hinv.not_computed_of_contraction (·.2.1)
    have hspec : (st.prog.op i).isSpecial = false := hroot.elim
      (fun hc => by simp [Op.isSpecial, hinv.opsWF.fn_empty (by rw [hc]; decide)]) (·.2.2)
    exact hinv.unify hwf hi hiP hspec hpo hout (fun hf => hgen.2 (hroot.resolve_right fun h => hf h.1)) h1 h2
  · exact ⟨hinv.next, hsuf⟩
  · exact ⟨hinv.extend st.computed _ (fun _ hk => hk) (fun _ hk hk' => absurd hk hk') (by simp), hsuf⟩
  · exact hinv.prng hwf hi hstep h

end Facts

/-- Every state of a run on a well-formed program satisfies the invariant. -/
theorem compileOps_inv {inputs outputs : List String} {lower : Op → FlatContraction × List Polynomial}
    (hwf : prog.WF) (hops : prog.OpsWF) (hlower : LoweringWF lower) :
    ∀ {i : Nat} {st : CompileState}, i ≤ prog.ops.length →
      compileOps prog vars inputs outputs lower i = .ok st → RunInv prog vars i st
  | 0, st, _, h => by
    cases h
    exact RunInv.start hwf hops
  | i + 1, st, hi, h => by
    rw [compileOps_succ] at h
    obtain ⟨st0, h0, h⟩ := except_bind_ok h
    exact ((compileOps_inv hwf hops hlower (by omega) h0).step hwf hlower (by omega) h).1

end RunInv

end TileGen
