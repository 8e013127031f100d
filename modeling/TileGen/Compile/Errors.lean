/-
When `Compile` fails. The driver throws at four places: `DoUnification` on a reshape or ident
without a first input, or whose first input is no tensor of the output's byte size and element
count; `ContractionWrap` on a contraction of other than one to three inputs; the driver on a
`prng_state` or `prng_value` no earlier `prng_step` has claimed; and the driver on a `prng_step`
whose value is read but whose state is not. `Program.Accepts` states these checks of the program,
the idents the driver makes of unused `prng_state`s included. A fifth failure, the stride loop
reading past `out_poly`, cannot happen on broadcast-typed programs. `compile_ok_iff`: `Compile`
returns exactly on the programs it accepts; `CheckInv` gives one direction, `compileOps_ok` the
other.
-/
import TileGen.Compile.Accounting
import TileGen.Compile.Strides

namespace TileGen

/-! ## What each function checks -/

/-- The checks `DoUnification` makes of a reshape or ident: a first input, bound to a tensor of
the output's byte size and element count. -/
def ReshapeOk (vars : Bindings) (op : Op) : Prop :=
  ∃ in0 ∈ op.inputs.head?, (vars in0).tag = .tensor ∧
    (vars in0).shape.byteSize = (vars op.output).shape.byteSize ∧
    (vars in0).shape.elemSize = (vars op.output).shape.elemSize

/-- An op `DoUnification` lets through: anything but a reshape or ident failing its checks. -/
def ReshapeCheck (vars : Bindings) (op : Op) : Prop :=
  op.tag = .function → (op.fn = "reshape" ∨ op.fn = "ident") → ReshapeOk vars op

instance (vars : Bindings) (op : Op) : Decidable (ReshapeOk vars op) :=
  inferInstanceAs (Decidable (∃ _ ∈ _, _))

instance (vars : Bindings) (op : Op) : Decidable (ReshapeCheck vars op) :=
  inferInstanceAs (Decidable (_ → _ → _))

section Checks

variable {prog : Program} {ud : UseDef} {vars : Bindings} {inputs outputs : List String}

/-- One op of the walk returns exactly when it passes the reshape checks, whatever the walk's
state. -/
theorem unifyOp_ok_iff {U : List Nat} {ws : WalkState} {u : Nat} :
    (∃ ws', unifyOp prog ud vars inputs outputs U ws u = .ok ws') ↔ ReshapeCheck vars (prog.op u) := by
  dsimp only [unifyOp, ReshapeCheck]
  by_cases h1 : (prog.op u).tag = .function
  swap
  · rw [if_pos h1]
    exact ⟨fun _ h => absurd h h1, fun _ => ⟨_, rfl⟩⟩
  rw [if_neg (not_not.2 h1)]
  by_cases h2 : (prog.op u).fn = "reshape" ∨ (prog.op u).fn = "ident"
  swap
  · rw [if_neg h2]
    exact ⟨fun _ _ h => absurd h h2, fun _ => ⟨_, rfl⟩⟩
  rw [if_pos h2]
  simp only [h1, h2, ReshapeOk, true_implies]
  split
  · rename_i hin
    simp [hin]
  · rename_i in0 rest hin
    simp only [hin, List.head?_cons, Option.mem_def, Option.some.injEq, exists_eq_left']
    constructor
    · rintro ⟨ws', h⟩
      obtain ⟨h3, h⟩ := except_guard_ok h
      obtain ⟨h4, h⟩ := except_guard_ok h
      obtain ⟨h5, -⟩ := except_guard_ok h
      exact ⟨not_not.1 h3, not_not.1 h4, not_not.1 h5⟩
    · rintro ⟨h3, h4, h5⟩
      rw [if_neg (not_not.2 h3), if_neg (not_not.2 h4), if_neg (not_not.2 h5)]
      split <;> exact ⟨_, rfl⟩

/-- An `Except` fold whose step at `a` returns, from any state, exactly when `Q a` holds returns
exactly when `Q` holds along the list. -/
theorem foldlM_except_ok_iff {α β ε : Type} {f : β → α → Except ε β} {Q : α → Prop}
    (hf : ∀ b a, (∃ b', f b a = .ok b') ↔ Q a) :
    ∀ (l : List α) (b : β), (∃ b', l.foldlM f b = .ok b') ↔ ∀ a ∈ l, Q a
  | [], b => ⟨fun _ _ h => absurd h (List.not_mem_nil _), fun _ => ⟨b, rfl⟩⟩
  | a :: l, b => by
    rw [List.foldlM_cons, List.forall_mem_cons]
    constructor
    · rintro ⟨b', h⟩
      obtain ⟨c, h1, h2⟩ := except_bind_ok h
      exact ⟨(hf b a).1 ⟨c, h1⟩, (foldlM_except_ok_iff hf l c).1 ⟨b', h2⟩⟩
    · rintro ⟨ha, hl⟩
      obtain ⟨c, hc⟩ := (hf b a).2 ha
      obtain ⟨b', hb'⟩ := (foldlM_except_ok_iff hf l c).2 hl
      exact ⟨b', by rw [hc]; exact hb'⟩

theorem except_bind_ok_of {ε α β : Type} {x : Except ε α} {f : α → Except ε β} {a : α} (hx : x = .ok a)
    (hf : ∃ b, f a = .ok b) : ∃ b, x >>= f = .ok b := by
  rw [hx]
  exact hf

section Unify

variable {flat : FlatContraction} {P : List Nat} {vr : VarRewrites} {wsr : List String} {r : Nat}
  {outPoly : List Polynomial}

/-- `DoUnification` gets past its walk only when every op of the fused set passes the reshape
checks. -/
theorem doUnification_checks {res : FlatContraction × List Nat × VarRewrites × List String}
    (h : doUnification prog ud vars inputs outputs flat P vr wsr r outPoly = .ok res) :
    ∀ u ∈ connectedComponents prog vars r P ud, ReshapeCheck vars (prog.op u) := by
  obtain ⟨ws, -, hws, -⟩ := doUnification_spec h
  exact (foldlM_except_ok_iff (fun ws u => @unifyOp_ok_iff prog ud vars inputs outputs
    (connectedComponents prog vars r P ud) ws u) _ _).1 ⟨ws, hws⟩

/-- `DoUnification` returns when every op of the fused set passes the reshape checks and the
stride loop reads in bounds: one output polynomial per dim of the root output, the root, if a
function, broadcast-typed, and `var_rewrites` keeping element counts. -/
theorem doUnification_ok (hud : ud.Fits prog) (hr : r < prog.ops.length)
    (hroot : (prog.op r).tag = .function → (prog.op r).InputRanks vars) (hvr : vr.SizeKept vars)
    (hout : flat.output = (prog.op r).output) (hlen : outPoly.length = (vars flat.output).shape.dims.length)
    (hU : ∀ u ∈ connectedComponents prog vars r P ud, ReshapeCheck vars (prog.op u)) :
    ∃ res, doUnification prog ud vars inputs outputs flat P vr wsr r outPoly = .ok res := by
  obtain ⟨ws, hws⟩ := (foldlM_except_ok_iff (fun ws u => @unifyOp_ok_iff prog ud vars inputs outputs
    (connectedComponents prog vars r P ud) ws u) _ ⟨flat.postOps, [], [], wsr, vr⟩).2 hU
  obtain ⟨accs, hacc⟩ := (unifyOps_sizeInv hud hr hroot (SizeInv.start hvr) hws).accesses_ok flat.names
    (by rw [← hout]; exact hlen)
  rw [← hout] at hacc
  exact except_bind_ok_of hws (except_bind_ok_of hacc ⟨_, rfl⟩)

end Unify

/-- `ContractionWrap` returns exactly when it has nothing to generate, or its contraction, if
any, has one to three inputs besides its output. -/
theorem contractionWrap_ok_iff {c : Option Op} {flat : FlatContraction} {vr : VarRewrites} {wsr : List String} :
    (∃ k, contractionWrap vars c flat vr wsr = .ok k) ↔
      (flat.generateContraction = false ∧ flat.postOps = []) ∨
        ∀ op ∈ c, op.specs.length = 2 ∨ op.specs.length = 3 ∨ op.specs.length = 4 := by
  unfold contractionWrap
  split_ifs with h0
  · simp only [Bool.and_eq_true, Bool.not_eq_true', List.isEmpty_iff] at h0
    exact ⟨fun _ => .inl h0, fun _ => ⟨_, rfl⟩⟩
  · have hne : ¬ (flat.generateContraction = false ∧ flat.postOps = []) := by
      simpa only [Bool.and_eq_true, Bool.not_eq_true', List.isEmpty_iff] using h0
    rw [or_iff_right hne]
    rcases c with _ | op
    · exact ⟨fun _ _ h => absurd h (Option.not_mem_none _), fun _ => ⟨_, rfl⟩⟩
    · simp only [Option.mem_def, Option.some.injEq, forall_eq']
      split_ifs with h1
      · exact ⟨fun _ => h1, fun _ => ⟨_, rfl⟩⟩
      · exact ⟨fun ⟨_, h⟩ => (by cases h), fun h => absurd h h1⟩

end Checks

/-! ## The ident rewrite of an unused `prng_step` -/

/-- The op the driver makes of the `prng_state` at `s` when the `prng_step` at `j` has no
`prng_value`: an ident of the step's state input. -/
def prngIdent (prog : Program) (j s : Nat) : Op :=
  { prog.op s with fn := "ident", inputs := (prog.op s).inputs.set 0 ((prog.op j).inputs.getD 0 "") }

/-- Running the `prng_step` at `j`, the driver rewrites the op at `s`: no `prng_value` reads the
step's output, and `s` is the last `prng_state` that does. -/
def PrngRewrites (prog : Program) (j s : Nat) : Prop :=
  (prog.op j).fn = "prng_step" ∧ j < s ∧ s < prog.ops.length ∧
    PrngReads prog "prng_state" (prog.op j).output s ∧
    (∀ k < prog.ops.length, j < k → ¬ PrngReads prog "prng_value" (prog.op j).output k) ∧
    ∀ k < prog.ops.length, s < k → ¬ PrngReads prog "prng_state" (prog.op j).output k

instance (prog : Program) (j s : Nat) : Decidable (PrngRewrites prog j s) :=
  inferInstanceAs (Decidable (_ ∧ _))

/-- At most one op is rewritten per `prng_step`: the last `prng_state` reading it. -/
theorem PrngRewrites.unique {prog : Program} {j s s' : Nat} (h : PrngRewrites prog j s) (h' : PrngRewrites prog j s') :
    s = s' := by
  rcases Nat.lt_trichotomy s s' with hlt | heq | hlt
  · exact absurd h'.2.2.2.1 (h.2.2.2.2.2 s' h'.2.2.1 hlt)
  · exact heq
  · exact absurd h.2.2.2.1 (h'.2.2.2.2.2 s h.2.2.1 hlt)

theorem exists_last_below {P : Nat → Prop} [DecidablePred P] {n k : Nat} (hk : P k) (hkn : k < n) :
    ∃ m, P m ∧ m < n ∧ ∀ k', m < k' → k' < n → ¬ P k' :=
  ⟨Nat.findGreatest P (n - 1), Nat.findGreatest_spec (by omega) hk,
    (Nat.findGreatest_le (n - 1)).trans_lt (by omega), fun _ h1 h2 => Nat.findGreatest_is_greatest h1 (by omega)⟩

theorem PrngCompanion.reshapeCheck {prog : Program} {tup : String} {k : Nat} (h : PrngCompanion prog tup k)
    (vars : Bindings) : ReshapeCheck vars (prog.op k) := fun _ hfn => by
  rcases h with h | h <;> rcases hfn with hfn | hfn <;> rw [h.1] at hfn <;> exact absurd hfn (by decide)

theorem PrngCompanion.lt_length {prog : Program} {tup : String} {k : Nat} (h : PrngCompanion prog tup k) :
    k < prog.ops.length :=
  Nat.lt_of_not_le fun hk => h.fn_ne.1 (by rw [Program.op_of_ge hk]; rfl)

theorem range'_split {i s n : Nat} (his : i < s) (hs : s < n) :
    List.range' (i + 1) (n - (i + 1)) = List.range' (i + 1) (s - (i + 1)) ++ s :: List.range' (s + 1) (n - (s + 1)) := by
  rw [show n - (i + 1) = (n - s) + (s - (i + 1)) by omega, ← List.range'_append_1,
    show i + 1 + (s - (i + 1)) = s by omega, show n - s = n - (s + 1) + 1 by omega, List.range'_succ]

/-- The scan keeps the position of the last `prng_state` it meets. -/
theorem prngScan_last (prog : Program) (tup : String) (acc : PrngScan) {s : Nat} (l₁ l₂ : List Nat)
    (hs : PrngReads prog "prng_state" tup s) (hl : ∀ k ∈ l₂, ¬ PrngReads prog "prng_state" tup k) :
    ((l₁ ++ s :: l₂).foldl (prngScan prog tup) acc).soutPos = s := by
  rw [List.foldl_append, List.foldl_cons]
  obtain ⟨-, hsS, -⟩ := prngScan_foldl prog tup l₂ (prngScan prog tup (l₁.foldl (prngScan prog tup) acc) s)
  rcases hsS with ⟨-, hpos, -⟩ | ⟨hm, hr, -⟩
  · rw [hpos]
    exact congrArg PrngScan.soutPos (if_pos hs)
  · exact absurd hr (hl _ hm)

/-! ## The programs `Compile` accepts -/

/-- What `Compile` checks of a program, one field per place it throws. -/
@[mk_iff]
structure Program.Accepts (prog : Program) (vars : Bindings) : Prop where
  /-- `ContractionWrap`: a contraction has one to three inputs besides its output. -/
  arity : ∀ k < prog.ops.length, (prog.op k).tag = .contraction →
    (prog.op k).specs.length = 2 ∨ (prog.op k).specs.length = 3 ∨ (prog.op k).specs.length = 4
  /-- `DoUnification`: every reshape and ident passes the reshape checks. -/
  reshapes : ∀ k < prog.ops.length, ReshapeCheck vars (prog.op k)
  /-- So does the ident an unused `prng_step` makes of its last `prng_state`. -/
  idents : ∀ j < prog.ops.length, ∀ s < prog.ops.length, PrngRewrites prog j s → ReshapeOk vars (prngIdent prog j s)
  /-- "prng functions must come in threes": a `prng_state` or `prng_value` reads exactly the output
  of an earlier `prng_step`. -/
  claimed : ∀ k < prog.ops.length, (prog.op k).fn = "prng_state" ∨ (prog.op k).fn = "prng_value" →
    ∃ j < k, (prog.op j).fn = "prng_step" ∧ (prog.op k).inputs = [(prog.op j).output]
  /-- "prng_step function missing its companions": a `prng_step` whose output a `prng_value` reads
  is read by a `prng_state` too. -/
  grouped : ∀ j < prog.ops.length, (prog.op j).fn = "prng_step" →
    (∃ k < prog.ops.length, j < k ∧ PrngReads prog "prng_value" (prog.op j).output k) →
    ∃ k < prog.ops.length, j < k ∧ PrngReads prog "prng_state" (prog.op j).output k

instance (prog : Program) (vars : Bindings) : Decidable (prog.Accepts vars) :=
  @decidable_of_iff' _ _ (Program.accepts_iff prog vars) <| @instDecidableAnd _ _ inferInstance <|
    @instDecidableAnd _ _ inferInstance <| @instDecidableAnd _ _ inferInstance <|
      @instDecidableAnd _ _ inferInstance inferInstance

/-! ## What the driver has done and checked -/

section CheckInv

variable (prog : Program) (vars : Bindings)

/-- The driver's state before op `i`: each op is the input's, or the ident an earlier `prng_step`
made of it; every companion of an earlier `prng_step`, from `i` on, is computed or that ident; a
special op computed ahead is such a companion; every plain function before `i` is computed; and
every computed op passed the reshape checks. `computed` is a `std::set`, ascending. -/
structure CheckInv (i : Nat) (st : CompileState) : Prop where
  ops : ∀ k, (∃ j < i, PrngRewrites prog j k ∧ st.prog.op k = prngIdent prog j k) ∨
    ((∀ j < i, ¬ PrngRewrites prog j k) ∧ st.prog.op k = prog.op k)
  marked : ∀ k, i ≤ k → ∀ j < i, (prog.op j).fn = "prng_step" → PrngCompanion prog (prog.op j).output k →
    k ∈ st.computed ∨ PrngRewrites prog j k
  claimed : ∀ k ∈ st.computed, i ≤ k → (st.prog.op k).isSpecial = true →
    ∃ j < i, (prog.op j).fn = "prng_step" ∧ PrngCompanion prog (prog.op j).output k
  done : ∀ k < i, (st.prog.op k).tag = .function → (st.prog.op k).isSpecial = false → k ∈ st.computed
  checked : ∀ k ∈ st.computed, ReshapeCheck vars (st.prog.op k)
  sorted : st.computed.Sorted (· < ·)

theorem CheckInv.start : CheckInv prog vars 0 ⟨prog, [], [], {}⟩ where
  ops _ := .inr ⟨fun _ h => absurd h (Nat.not_lt_zero _), rfl⟩
  marked _ _ _ h := absurd h (Nat.not_lt_zero _)
  claimed _ h := absurd h (List.not_mem_nil _)
  done _ h := absurd h (Nat.not_lt_zero _)
  checked _ h := absurd h (List.not_mem_nil _)
  sorted := List.sorted_nil

variable {prog vars} {i : Nat} {st : CompileState} (hc : CheckInv prog vars i st)
include hc

theorem CheckInv.op_eq {k : Nat} (hk : (prog.op k).fn ≠ "prng_state") : st.prog.op k = prog.op k :=
  (hc.ops k).elim (fun ⟨_, _, hr, _⟩ => absurd hr.2.2.2.1.1 hk) (·.2)

theorem CheckInv.op_eq_of_fn {k : Nat} (hk : (st.prog.op k).fn ≠ "ident") : st.prog.op k = prog.op k :=
  (hc.ops k).elim (fun ⟨_, _, _, he⟩ => absurd (congrArg Op.fn he) hk) (·.2)

theorem CheckInv.op_eq_of_contraction (hops : st.prog.OpsWF) {k : Nat} (hct : (st.prog.op k).tag = .contraction) :
    st.prog.op k = prog.op k :=
  hc.op_eq_of_fn (by rw [hops.fn_empty (by rw [hct]; decide)]; decide)

/-- The ops reading the output of the `prng_step` at `i` are the same in the driver's program as
in the input. -/
theorem CheckInv.reads_iff (hwf : prog.WF) (hi : i < prog.ops.length) {fn : String} (hfn : fn ≠ "ident")
    (k : Nat) : PrngReads st.prog fn (prog.op i).output k ↔ PrngReads prog fn (prog.op i).output k := by
  rcases hc.ops k with ⟨j, hj, hr, he⟩ | ⟨-, he⟩
  · have hne : (prog.op i).output ≠ (prog.op j).output := fun h =>
      absurd ((hwf.output_eq_iff hi (by omega)).1 h) (by omega)
    rw [PrngReads, PrngReads, he]
    exact ⟨fun h => absurd h.1.symm hfn, fun h => absurd (List.singleton_inj.1 (h.2.symm.trans hr.2.2.2.1.2)) hne⟩
  · rw [PrngReads, PrngReads, he]

theorem CheckInv.op_eq_of_reads (hwf : prog.WF) (hi : i < prog.ops.length) {fn : String} {k : Nat}
    (hr : PrngReads prog fn (prog.op i).output k) : st.prog.op k = prog.op k :=
  (hc.ops k).elim (fun ⟨j, hj, hrw, _⟩ => absurd ((hwf.output_eq_iff hi (by omega)).1
    (List.singleton_inj.1 (hr.2.symm.trans hrw.2.2.2.1.2))) (by omega)) (·.2)

/-- A step that is no `prng_step` and adds to `computed` only ops it checked, each the op `i` or a
plain function. -/
theorem CheckInv.extend (hstep : (prog.op i).fn ≠ "prng_step") (C : List Nat) (vr : VarRewrites) (ks : List Kernel)
    (hsorted : C.Sorted (· < ·)) (hC : ∀ k ∈ st.computed, k ∈ C)
    (hnew : ∀ k ∈ C, k ∉ st.computed → (k = i ∨ (st.prog.op k).isSpecial = false) ∧ ReshapeCheck vars (st.prog.op k))
    (hdone : (st.prog.op i).tag = .function → (st.prog.op i).isSpecial = false → i ∈ C) :
    CheckInv prog vars (i + 1) { st with computed := C, varRewrites := vr, kernels := ks } where
  ops k := (hc.ops k).imp (fun ⟨j, hj, h⟩ => ⟨j, by omega, h⟩) fun ⟨hn, he⟩ =>
    ⟨fun j hj hr => (Nat.lt_succ_iff_lt_or_eq.1 hj).elim (hn j · hr) fun hji => hstep (hji ▸ hr.1), he⟩
  marked k hk j hj hs hcomp := by
    rcases Nat.lt_succ_iff_lt_or_eq.1 hj with hj | rfl
    · exact (hc.marked k (by omega) j hj hs hcomp).imp_left (hC k)
    · exact absurd hs hstep
  claimed k hk hik hsp := by
    by_cases hkc : k ∈ st.computed
    · obtain ⟨j, hj, h⟩ := hc.claimed k hkc (by omega) hsp
      exact ⟨j, by omega, h⟩
    · rcases (hnew k hk hkc).1 with rfl | h
      · omega
      · exact absurd (h.symm.trans hsp) Bool.false_ne_true
  done k hk hf hsp := (Nat.lt_succ_iff_lt_or_eq.1 hk).elim (fun hk => hC k (hc.done k hk hf hsp))
    fun hki => hki ▸ hdone (hki ▸ hf) (hki ▸ hsp)
  checked k hk := if hkc : k ∈ st.computed then hc.checked k hkc else (hnew k hk hkc).2
  sorted := hsorted

/-- A `prng_step` that marks its companions and rewrites no op. -/
theorem CheckInv.mark (hwf : prog.WF) (hi : i < prog.ops.length) (hpi : st.prog.op i = prog.op i)
    (hstep : (prog.op i).fn = "prng_step") (C : List Nat) (ks : List Kernel) (hsorted : C.Sorted (· < ·))
    (hC : ∀ x, x ∈ C ↔ x ∈ st.computed ∨ (i < x ∧ PrngCompanion prog (prog.op i).output x))
    (hnone : ∀ k, ¬ PrngRewrites prog i k) :
    CheckInv prog vars (i + 1) { st with computed := C, kernels := ks } where
  ops k := (hc.ops k).imp (fun ⟨j, hj, h⟩ => ⟨j, by omega, h⟩) fun ⟨hn, he⟩ =>
    ⟨fun j hj hr => (Nat.lt_succ_iff_lt_or_eq.1 hj).elim (hn j · hr) fun hji => hnone k (hji ▸ hr), he⟩
  marked k hk j hj hs hcomp := by
    rcases Nat.lt_succ_iff_lt_or_eq.1 hj with hj | rfl
    · exact (hc.marked k (by omega) j hj hs hcomp).imp_left fun h => (hC k).2 (.inl h)
    · exact .inl ((hC k).2 (.inr ⟨by omega, hcomp⟩))
  claimed k hk hik hsp := by
    rcases (hC k).1 hk with hkc | ⟨-, hcomp⟩
    · obtain ⟨j, hj, h⟩ := hc.claimed k hkc (by omega) hsp
      exact ⟨j, by omega, h⟩
    · exact ⟨i, by omega, hstep, hcomp⟩
  done k hk hf hsp := by
    rcases Nat.lt_succ_iff_lt_or_eq.1 hk with hk | rfl
    · exact (hC k).2 (.inl (hc.done k hk hf hsp))
    · rw [hpi] at hsp
      simp [Op.isSpecial, hstep] at hsp
  checked k hk := by
    rcases (hC k).1 hk with hkc | ⟨-, hcomp⟩
    · exact hc.checked k hkc
    · rw [hcomp.elim (hc.op_eq_of_reads hwf hi) (hc.op_eq_of_reads hwf hi)]
      exact hcomp.reshapeCheck vars
  sorted := hsorted

/-- The ident rewrite of the `prng_state` at `s`, made where `PrngRewrites` says. -/
theorem CheckInv.rewrite (hwf : prog.WF) (hi : i < prog.ops.length) (hlen : st.prog.ops.length = prog.ops.length)
    (hpi : st.prog.op i = prog.op i) {s : Nat} (hrw : PrngRewrites prog i s) (C : List Nat)
    (hsorted : C.Sorted (· < ·))
    (hC : ∀ x, x ∈ C ↔ x ∈ st.computed ∨ (i < x ∧ PrngCompanion prog (prog.op i).output x)) :
    CheckInv prog vars (i + 1) { st with
      prog := ⟨st.prog.ops.set s { st.prog.op s with
        fn := "ident", inputs := (st.prog.op s).inputs.set 0 ((prog.op i).inputs.getD 0 "") }⟩
      computed := C.erase s } := by
  have hss : st.prog.op s = prog.op s := hc.op_eq_of_reads hwf hi hrw.2.2.2.1
  have hop : ∀ k, (⟨st.prog.ops.set s { st.prog.op s with
      fn := "ident", inputs := (st.prog.op s).inputs.set 0 ((prog.op i).inputs.getD 0 "") }⟩ : Program).op k =
      if k = s then prngIdent prog i s else st.prog.op k := fun k => by
    rw [Program.op_set (hlen ▸ hrw.2.2.1), hss]
    rfl
  have hmem : ∀ k, k ∈ C.erase s ↔ k ≠ s ∧ k ∈ C := fun k => (hsorted.nodup).mem_erase_iff
  -- a companion of an earlier step is not `s`, which reads the output of op `i`
  have hne : ∀ j < i, ∀ k, PrngCompanion prog (prog.op j).output k → k ≠ s := fun j hj k hk hks => by
    have hio := List.singleton_inj.1 (hk.inputs.symm.trans (hks ▸ hrw.2.2.2.1.2))
    exact absurd ((hwf.output_eq_iff (by omega) hi).1 hio) (by omega)
  refine ⟨fun k => ?_, fun k hk j hj hs hcomp => ?_, fun k hk hik hsp => ?_, fun k hk hf hsp => ?_,
    fun k hk => ?_, List.Pairwise.sublist (List.erase_sublist _ _) hsorted⟩
  · rw [hop]
    split_ifs with hks
    · exact .inl ⟨i, Nat.lt_succ_self i, hks ▸ hrw, by rw [hks]⟩
    · refine (hc.ops k).imp (fun ⟨j, hj, h⟩ => ⟨j, by omega, h⟩) fun ⟨hn, he⟩ => ⟨fun j hj hr => ?_, he⟩
      rcases Nat.lt_succ_iff_lt_or_eq.1 hj with hj | rfl
      · exact hn j hj hr
      · exact hks (hr.unique hrw)
  · rcases Nat.lt_succ_iff_lt_or_eq.1 hj with hj | rfl
    · exact (hc.marked k (by omega) j hj hs hcomp).imp_left fun h =>
        (hmem k).2 ⟨hne j hj k hcomp, (hC k).2 (.inl h)⟩
    · by_cases hks : k = s
      · exact .inr (hks ▸ hrw)
      · exact .inl ((hmem k).2 ⟨hks, (hC k).2 (.inr ⟨by omega, hcomp⟩)⟩)
  · obtain ⟨hks, hkC⟩ := (hmem k).1 hk
    rw [hop, if_neg hks] at hsp
    rcases (hC k).1 hkC with hkc | ⟨-, hcomp⟩
    · obtain ⟨j, hj, h⟩ := hc.claimed k hkc (by omega) hsp
      exact ⟨j, by omega, h⟩
    · exact ⟨i, by omega, hrw.1, hcomp⟩
  · have hks : k ≠ s := by have := hrw.2.1; omega
    rw [hop, if_neg hks] at hf hsp
    rcases Nat.lt_succ_iff_lt_or_eq.1 hk with hk | rfl
    · exact (hmem k).2 ⟨hks, (hC k).2 (.inl (hc.done k hk hf hsp))⟩
    · rw [hpi] at hsp
      simp [Op.isSpecial, hrw.1] at hsp
  · obtain ⟨hks, hkC⟩ := (hmem k).1 hk
    show ReshapeCheck vars ((⟨_⟩ : Program).op k)
    rw [hop, if_neg hks]
    rcases (hC k).1 hkC with hkc | ⟨-, hcomp⟩
    · exact hc.checked k hkc
    · rw [hcomp.elim (hc.op_eq_of_reads hwf hi) (hc.op_eq_of_reads hwf hi)]
      exact hcomp.reshapeCheck vars

/-- The scan after the `prng_step` at `i` leaves `vout` empty exactly when no `prng_value` of the
input reads the step's output. -/
theorem CheckInv.scan_vout (hwf : prog.WF) (hnamed : ∀ op ∈ prog.ops, op.output ≠ "") (hinv : RunInv prog vars i st)
    (hi : i < prog.ops.length) :
    ((List.range' (i + 1) (st.prog.ops.length - (i + 1))).foldl (prngScan st.prog (prog.op i).output)
      { computed := st.computed }).vout = "" ↔
      ∀ k < prog.ops.length, i < k → ¬ PrngReads prog "prng_value" (prog.op i).output k := by
  obtain ⟨-, -, hvS⟩ := prngScan_foldl st.prog (prog.op i).output
    (List.range' (i + 1) (st.prog.ops.length - (i + 1))) { computed := st.computed }
  have hjs : ∀ x, x ∈ List.range' (i + 1) (st.prog.ops.length - (i + 1)) ↔ i < x ∧ x < prog.ops.length :=
    fun x => by rw [List.mem_range'_1, hinv.length]; omega
  have hva := hc.reads_iff hwf hi (show "prng_value" ≠ "ident" by decide)
  rcases hvS with ⟨h0, hno⟩ | ⟨k, hk, hr, he⟩
  · exact ⟨fun _ k hk hik hr => hno k ((hjs k).2 ⟨hik, hk⟩) ((hva k).2 hr), fun _ => h0⟩
  · rw [he, hinv.output, Program.op_of_lt ((hjs k).1 hk).2]
    exact ⟨fun h0 => absurd h0 (hnamed _ (List.getElem_mem _)),
      fun hno => absurd ((hva k).1 hr) (hno k ((hjs k).1 hk).2 ((hjs k).1 hk).1)⟩

/-- Likewise `sout`, for `prng_state`. -/
theorem CheckInv.scan_sout (hwf : prog.WF) (hnamed : ∀ op ∈ prog.ops, op.output ≠ "") (hinv : RunInv prog vars i st)
    (hi : i < prog.ops.length) :
    ((List.range' (i + 1) (st.prog.ops.length - (i + 1))).foldl (prngScan st.prog (prog.op i).output)
      { computed := st.computed }).sout = "" ↔
      ∀ k < prog.ops.length, i < k → ¬ PrngReads prog "prng_state" (prog.op i).output k := by
  obtain ⟨-, hsS, -⟩ := prngScan_foldl st.prog (prog.op i).output
    (List.range' (i + 1) (st.prog.ops.length - (i + 1))) { computed := st.computed }
  have hjs : ∀ x, x ∈ List.range' (i + 1) (st.prog.ops.length - (i + 1)) ↔ i < x ∧ x < prog.ops.length :=
    fun x => by rw [List.mem_range'_1, hinv.length]; omega
  have hst := hc.reads_iff hwf hi (show "prng_state" ≠ "ident" by decide)
  rcases hsS with ⟨h0, -, hno⟩ | ⟨hk, hr, he⟩
  · exact ⟨fun _ k hk hik hr => hno k ((hjs k).2 ⟨hik, hk⟩) ((hst k).2 hr), fun _ => h0⟩
  · rw [he, hinv.output, Program.op_of_lt ((hjs _).1 hk).2]
    exact ⟨fun h0 => absurd h0 (hnamed _ (List.getElem_mem _)),
      fun hno => absurd ((hst _).1 hr) (hno _ ((hjs _).1 hk).2 ((hjs _).1 hk).1)⟩

/-- A `prng_step`: its companions join `computed`, and the op `PrngRewrites` names, if any, is
rewritten to an ident. -/
theorem CheckInv.prng (hwf : prog.WF) (hnamed : ∀ op ∈ prog.ops, op.output ≠ "") (hinv : RunInv prog vars i st)
    (hi : i < prog.ops.length) (hstep : (st.prog.op i).fn = "prng_step") {st' : CompileState}
    (h : prngStep st i (st.prog.op i) = .ok st') : CheckInv prog vars (i + 1) st' := by
  have hpi : st.prog.op i = prog.op i := hc.op_eq_of_fn (by rw [hstep]; decide)
  rw [hpi] at h hstep
  have hsorted := prngScan_sorted st.prog (prog.op i).output
    (List.range' (i + 1) (st.prog.ops.length - (i + 1))) { computed := st.computed } hc.sorted
  have hvout := hc.scan_vout hwf hnamed hinv hi
  have hsout0 := hc.scan_sout hwf hnamed hinv hi
  obtain ⟨hcS, hsS, -⟩ := prngScan_foldl st.prog (prog.op i).output
    (List.range' (i + 1) (st.prog.ops.length - (i + 1))) { computed := st.computed }
  generalize hscan : List.foldl (prngScan st.prog (prog.op i).output) { computed := st.computed }
    (List.range' (i + 1) (st.prog.ops.length - (i + 1))) = scan at hcS hsS hsorted hvout hsout0
  have hjs : ∀ x, x ∈ List.range' (i + 1) (st.prog.ops.length - (i + 1)) ↔ i < x ∧ x < prog.ops.length :=
    fun x => by rw [List.mem_range'_1, hinv.length]; omega
  have hst := hc.reads_iff hwf hi (show "prng_state" ≠ "ident" by decide)
  have hva := hc.reads_iff hwf hi (show "prng_value" ≠ "ident" by decide)
  have hC : ∀ x, x ∈ scan.computed ↔ x ∈ st.computed ∨ (i < x ∧ PrngCompanion prog (prog.op i).output x) :=
    fun x => by
      rw [hcS x, hjs, PrngCompanion, PrngCompanion, hst, hva]
      exact or_congr_right ⟨fun ⟨⟨h1, _⟩, h3⟩ => ⟨h1, h3⟩, fun ⟨h1, h3⟩ => ⟨⟨h1, PrngCompanion.lt_length h3⟩, h3⟩⟩
  -- no `prng_state` after the step leaves `sout` empty; one makes it name the last
  have hsout : scan.sout ≠ "" → i < scan.soutPos ∧ scan.soutPos < prog.ops.length ∧
      PrngReads prog "prng_state" (prog.op i).output scan.soutPos := fun hs =>
    hsS.elim (fun ⟨h0, _⟩ => absurd h0 hs) fun ⟨hm, hr, _⟩ => ⟨((hjs _).1 hm).1, ((hjs _).1 hm).2, (hst _).1 hr⟩
  have hnost : scan.sout = "" → ∀ k, ¬ PrngRewrites prog i k := fun hs k hrw =>
    hsout0.1 hs k hrw.2.2.1 hrw.2.1 hrw.2.2.2.1
  have hlast : ∀ s, i < s → s < prog.ops.length → PrngReads prog "prng_state" (prog.op i).output s →
      (∀ k < prog.ops.length, s < k → ¬ PrngReads prog "prng_state" (prog.op i).output k) → scan.soutPos = s := by
    intro s his hsn hs hl
    rw [← hscan, range'_split his (by rw [hinv.length]; exact hsn)]
    refine prngScan_last _ _ _ _ _ ((hst s).2 hs) fun k hk hr => hl k ?_ ?_ ((hst k).1 hr)
    all_goals rw [List.mem_range'_1, hinv.length] at hk; omega
  rcases prngStep_eq_ok hscan h with ⟨-, hs0, rfl⟩ | ⟨hv0, hs, rfl⟩ | ⟨hv, -, rfl⟩
  · exact hc.mark hwf hi hpi hstep scan.computed st.kernels hsorted hC (hnost hs0)
  · obtain ⟨hlo, hhi, hr⟩ := hsout hs
    obtain ⟨m, ⟨him, hm⟩, hmn, hml⟩ := exists_last_below (P := fun k => i < k ∧
      PrngReads prog "prng_state" (prog.op i).output k) ⟨hlo, hr⟩ hhi
    have hpos : scan.soutPos = m := hlast m him hmn hm fun k _ hmk hk => hml k hmk (by omega) ⟨by omega, hk⟩
    have hrw : PrngRewrites prog i scan.soutPos :=
      ⟨hstep, hlo, hhi, hr, hvout.1 hv0, fun k hk hsk hr' => hml k (hpos ▸ hsk) hk ⟨by omega, hr'⟩⟩
    exact hc.rewrite hwf hi hinv.length hpi hrw scan.computed hsorted hC
  · refine hc.mark hwf hi hpi hstep scan.computed _ hsorted hC fun k hrw => hv (hvout.2 hrw.2.2.2.2.1)

/-- One op of the driver keeps `CheckInv`. -/
theorem CheckInv.step (hwf : prog.WF) (hnamed : ∀ op ∈ prog.ops, op.output ≠ "")
    {inputs outputs : List String} {lower : Op → FlatContraction × List Polynomial} (hlower : LoweringWF lower)
    (hinv : RunInv prog vars i st) (hi : i < prog.ops.length) {st' : CompileState}
    (h : compileStep (UseDef.ofProgram prog) vars inputs outputs lower st i = .ok st') :
    CheckInv prog vars (i + 1) st' := by
  -- a `prng_step` of the input is one of the driver's program
  have hstepSt : (prog.op i).fn = "prng_step" → (st.prog.op i).fn = "prng_step" := fun hs => by
    rw [hc.op_eq (by rw [hs]; decide)]; exact hs
  have hspecial : (prog.op i).fn = "prng_step" → (st.prog.op i).isSpecial = true := fun hs => by
    simp [Op.isSpecial, hstepSt hs]
  rcases compileStep_eq_ok hlower h with ⟨-, -, -, hct, -, -, -, -, rfl⟩ |
      ⟨_, _, _, _, C, vr, _, _, hroot, -, -, -, h1, -, rfl⟩ | ⟨-, hskip, hst⟩ |
      ⟨-, -, -, hsp, -, -, hns, rfl⟩ | ⟨-, -, hs, h⟩
  · have hf : (st.prog.op i).tag ≠ .function := by rw [hct]; decide
    exact hc.extend (fun hs => absurd (hinv.opsWF.fn_empty hf) (by rw [hstepSt hs]; decide)) st.computed
      st.varRewrites _ hc.sorted
      (fun _ => id) (fun _ h h' => absurd h h') (fun h => absurd h hf)
  · have hr : i < st.prog.ops.length := hinv.length ▸ hi
    have hm : Members st.prog vars i st.computed (UseDef.ofProgram prog) (connectedComponents st.prog vars i st.computed (UseDef.ofProgram prog)) :=
      (connectedComponents_run hinv.fits hr).2.toMembers
    have hC : C = setInsertAll st.computed (connectedComponents st.prog vars i st.computed (UseDef.ofProgram prog)) :=
      let ⟨_, _, _, _, h⟩ := doUnification_spec h1; congrArg (·.2.1) h
    have hok := doUnification_checks h1
    subst hC
    refine hc.extend (fun hs => ?_) _ vr _ (setInsertAll_sorted hc.sorted _) (fun _ hk => mem_setInsertAll.2 (.inl hk))
      (fun k hk hkc => ?_) fun _ _ => mem_setInsertAll.2 (.inr hm.root)
    · rcases hroot with hct | ⟨-, -, hns⟩
      · exact absurd (hinv.opsWF.fn_empty (by rw [hct]; decide)) (by rw [hstepSt hs]; decide)
      · exact absurd (hspecial hs) (by rw [hns]; decide)
    · have hU := (mem_setInsertAll.1 hk).resolve_left hkc
      refine ⟨?_, hok k hU⟩
      by_cases hki : k = i
      · exact .inl hki
      · exact .inr (hm.nonroot hU hki).2.2.1
  · rw [hst]
    refine hc.extend (fun hs => ?_) st.computed st.varRewrites st.kernels hc.sorted (fun _ => id)
      (fun _ h h' => absurd h h')
      fun hf _ => hskip.resolve_left fun hct => by rw [hct] at hf; cases hf
    rcases hskip with hct | hic
    · exact absurd (hinv.opsWF.fn_empty (by rw [hct]; decide)) (by rw [hstepSt hs]; decide)
    · obtain ⟨j, -, -, hcomp⟩ := hc.claimed i hic le_rfl (hspecial hs)
      have hfn := hcomp.fn_ne.2
      rw [hs] at hfn
      exact hfn rfl
  · exact hc.extend (fun hs => hns (hstepSt hs)) st.computed st.varRewrites _ hc.sorted (fun _ => id)
      (fun _ h h' => absurd h h') fun _ h => absurd (hsp.symm.trans h) (by decide)
  · exact hc.prng hwf hnamed hinv hi hs h

end CheckInv

/-- Every state of a run on a well-formed program satisfies `CheckInv`. -/
theorem compileOps_checkInv {prog : Program} {vars : Bindings} {inputs outputs : List String}
    {lower : Op → FlatContraction × List Polynomial} (hwf : prog.WF) (hops : prog.OpsWF)
    (hnamed : ∀ op ∈ prog.ops, op.output ≠ "") (hlower : LoweringWF lower) :
    ∀ {i : Nat} {st : CompileState}, i ≤ prog.ops.length →
      compileOps prog vars inputs outputs lower i = .ok st → CheckInv prog vars i st
  | 0, st, _, h => by
    cases h
    exact CheckInv.start prog vars
  | i + 1, st, hi, h => by
    rw [compileOps_succ] at h
    obtain ⟨st0, h0, h⟩ := except_bind_ok h
    exact (compileOps_checkInv hwf hops hnamed hlower (by omega) h0).step hwf hnamed hlower
      (compileOps_inv hwf hops hlower (by omega) h0) (by omega) h

/-! ## `Compile` returns exactly on the programs it accepts -/

section Accepts

variable {prog : Program} {vars : Bindings} {inputs outputs : List String}
  {lower : Op → FlatContraction × List Polynomial}

/-- A contraction the driver gets past has one to three inputs besides its output. -/
theorem compileStep_arity (hlower : LoweringWF lower) {st st' : CompileState} {i : Nat}
    (hct : (st.prog.op i).tag = .contraction)
    (h : compileStep (UseDef.ofProgram prog) vars inputs outputs lower st i = .ok st') :
    (st.prog.op i).specs.length = 2 ∨ (st.prog.op i).specs.length = 3 ∨ (st.prog.op i).specs.length = 4 := by
  have hwrap : ∀ {flat vr wsr k}, contractionWrap vars (some (st.prog.op i)) flat vr wsr = .ok k →
      flat.generateContraction = true →
      (st.prog.op i).specs.length = 2 ∨ (st.prog.op i).specs.length = 3 ∨ (st.prog.op i).specs.length = 4 :=
    fun hk hgen => ((contractionWrap_ok_iff.1 ⟨_, hk⟩).resolve_left fun h => by rw [hgen] at h; cases h.1) _ rfl
  rcases compileStep_cases h with ⟨k, -, hk, -⟩ | ⟨c, flat0, outPoly, flat, C, vr, wsr, k, hroot, h1, hk, -⟩ |
      ⟨hc, -⟩ | ⟨hc, -⟩ | ⟨hc, -⟩
  · exact hwrap hk (hlower.generate _)
  · rcases hroot with ⟨rfl, -, -, rfl, rfl⟩ | ⟨-, hfun, -⟩
    · obtain ⟨_, _, -, -, h1⟩ := doUnification_spec h1
      cases h1
      exact hwrap hk (hlower.generate _)
    · rw [hct] at hfun
      cases hfun
  all_goals exact absurd hct hc

/-- Under `Accepts`, every op of the driver returns, from every state a run reaches. -/
theorem compileStep_ok (hwf : prog.WF) (hnamed : ∀ op ∈ prog.ops, op.output ≠ "") (hA : prog.Accepts vars)
    (hpoly : ∀ op, (lower op).2.length = (vars op.output).shape.dims.length) (hranks : prog.BroadcastRanks vars)
    {i : Nat} {st : CompileState} (hinv : RunInv prog vars i st) (hc : CheckInv prog vars i st)
    (hs : StrideRunInv prog vars st) (hi : i < prog.ops.length) :
    ∃ st', compileStep (UseDef.ofProgram prog) vars inputs outputs lower st i = .ok st' := by
  have hr : i < st.prog.ops.length := hinv.length ▸ hi
  have hm : Members st.prog vars i st.computed (UseDef.ofProgram prog)
      (connectedComponents st.prog vars i st.computed (UseDef.ofProgram prog)) :=
    (connectedComponents_run hinv.fits hr).2.toMembers
  -- every op of the fused set passes the reshape checks, the rewritten idents included
  have hU : ∀ u ∈ connectedComponents st.prog vars i st.computed (UseDef.ofProgram prog),
      ReshapeCheck vars (st.prog.op u) := fun u hu => by
    have hun : u < prog.ops.length := hinv.length ▸ ((hm.sound u hu).bounds hinv.fits hr).2
    rcases hc.ops u with ⟨j, hj, hrw, he⟩ | ⟨-, he⟩
    · rw [he]
      exact fun _ _ => hA.idents j (by omega) u hun hrw
    · rw [he]
      exact hA.reshapes u hun
  -- and the stride loop reads in bounds
  have hunify : ∀ flat0 outPoly (c : Option Op), flat0.output = (st.prog.op i).output →
      outPoly.length = (vars flat0.output).shape.dims.length →
      ((st.prog.op i).tag = .function → (st.prog.op i).InputRanks vars) →
      (∀ op ∈ c, op.specs.length = 2 ∨ op.specs.length = 3 ∨ op.specs.length = 4) →
      ∃ st', (doUnification st.prog (UseDef.ofProgram prog) vars inputs outputs flat0
        st.computed st.varRewrites [] i outPoly >>= fun (flat, computed, vr, wsr) => do
          let k ← contractionWrap vars c flat vr wsr
          pure { st with computed := computed, varRewrites := vr, kernels := st.kernels ++ k.toList }) = .ok st' :=
    fun _ _ c hout hlen hroot hc' => by
      obtain ⟨⟨flat, C, vr, wsr⟩, h1⟩ := doUnification_ok hinv.fits hr hroot hs.sizes hout hlen hU
      obtain ⟨k, hk⟩ : ∃ k, contractionWrap vars c flat vr wsr = .ok k := contractionWrap_ok_iff.2 (.inr hc')
      exact except_bind_ok_of h1 (except_bind_ok_of hk ⟨_, rfl⟩)
  dsimp only [compileStep]
  by_cases hct : (st.prog.op i).tag = .contraction
  · rw [if_pos hct]
    have hpi : st.prog.op i = prog.op i := hc.op_eq_of_contraction hinv.opsWF hct
    have harity : ∀ op ∈ some (st.prog.op i), op.specs.length = 2 ∨ op.specs.length = 3 ∨ op.specs.length = 4 :=
      fun _ hop => (Option.some.inj hop) ▸ hpi ▸ hA.arity i hi (hpi ▸ hct)
    split
    · obtain ⟨k, hk⟩ := contractionWrap_ok_iff.2 (.inr harity)
      exact except_bind_ok_of hk ⟨_, rfl⟩
    · exact hunify _ _ _ rfl (hpoly _) (fun hf => absurd (hct.symm.trans hf) (by decide)) harity
  rw [if_neg hct]
  by_cases hcst : (st.prog.op i).tag = .constant
  · rw [if_pos hcst]; exact ⟨_, rfl⟩
  rw [if_neg hcst]
  by_cases hic : i ∈ st.computed
  · rw [if_pos hic]; exact ⟨_, rfl⟩
  rw [if_neg hic]
  by_cases hsp : (st.prog.op i).isSpecial = true
  swap
  · rw [if_neg hsp]
    exact hunify _ _ none rfl (elementwiseFlat_poly_length vars _)
      (fun hf => hs.root_ranks hranks hi hf (Bool.eq_false_iff.2 hsp)) fun _ h => absurd h (Option.not_mem_none _)
  rw [if_pos hsp]
  by_cases hsv : (st.prog.op i).fn = "prng_state" ∨ (st.prog.op i).fn = "prng_value"
  · -- a companion is computed, or rewritten to an ident, before its turn
    exfalso
    have hpi : st.prog.op i = prog.op i := hc.op_eq_of_fn (by rcases hsv with h | h <;> rw [h] <;> decide)
    obtain ⟨j, hj, hstep, hin⟩ := hA.claimed i hi (hpi ▸ hsv)
    have hcomp : PrngCompanion prog (prog.op j).output i := by
      rw [hpi] at hsv
      exact hsv.imp (⟨·, hin⟩) (⟨·, hin⟩)
    rcases hc.marked i le_rfl j hj hstep hcomp with h | hrw
    · exact hic h
    · rcases hc.ops i with ⟨_, _, _, he⟩ | ⟨hn, -⟩
      · rw [he] at hsv
        exact absurd hsv (by simp [prngIdent])
      · exact hn j hj hrw
  rw [if_neg hsv]
  by_cases hstep : (st.prog.op i).fn = "prng_step"
  swap
  · rw [if_neg hstep]; exact ⟨_, rfl⟩
  rw [if_pos hstep]
  have hpi : st.prog.op i = prog.op i := hc.op_eq_of_fn (by rw [hstep]; decide)
  have hvout := hc.scan_vout hwf hnamed hinv hi
  have hsout := hc.scan_sout hwf hnamed hinv hi
  rw [hpi]
  dsimp only [prngStep]
  generalize List.foldl (prngScan st.prog (prog.op i).output) { computed := st.computed }
    (List.range' (i + 1) (st.prog.ops.length - (i + 1))) = scan at hvout hsout ⊢
  split
  · exact ⟨_, rfl⟩
  split
  · exact ⟨_, rfl⟩
  split
  next h2 h3 =>
    -- a `prng_value` reads the step, so a `prng_state` does too
    exfalso
    have hv : ∃ k < prog.ops.length, i < k ∧ PrngReads prog "prng_value" (prog.op i).output k := by
      by_contra hno
      exact h2 (hvout.2 fun k hk hik hr => hno ⟨k, hk, hik, hr⟩)
    obtain ⟨k, hk, hik, hr⟩ := hA.grouped i hi (hpi ▸ hstep) hv
    exact hsout.1 h3 k hk hik hr
  · exact ⟨_, rfl⟩

/-- Under `Accepts`, the driver returns after every prefix of the ops. -/
theorem compileOps_ok (hwf : prog.WF) (hops : prog.OpsWF) (hnamed : ∀ op ∈ prog.ops, op.output ≠ "")
    (hlower : LoweringWF lower) (hpoly : ∀ op, (lower op).2.length = (vars op.output).shape.dims.length)
    (hranks : prog.BroadcastRanks vars) (hA : prog.Accepts vars) :
    ∀ i ≤ prog.ops.length, ∃ st, compileOps prog vars inputs outputs lower i = .ok st
  | 0, _ => ⟨_, rfl⟩
  | i + 1, hi => by
    obtain ⟨st, hst⟩ := compileOps_ok hwf hops hnamed hlower hpoly hranks hA i (by omega)
    rw [compileOps_succ]
    exact except_bind_ok_of hst (compileStep_ok hwf hnamed hA hpoly hranks
      (compileOps_inv hwf hops hlower (by omega) hst) (compileOps_checkInv hwf hops hnamed hlower (by omega) hst)
      (compileOps_strideInv hwf hops hlower hranks (by omega) hst) (by omega))

theorem compileOps_step_of_ok {n : Nat} {st : CompileState} (h : compileOps prog vars inputs outputs lower n = .ok st) :
    ∀ i < n, ∃ st0 st1, compileOps prog vars inputs outputs lower i = .ok st0 ∧
      compileStep (UseDef.ofProgram prog) vars inputs outputs lower st0 i = .ok st1 := by
  induction n generalizing st with
  | zero => exact fun _ h => absurd h (Nat.not_lt_zero _)
  | succ n ih =>
    rw [compileOps_succ] at h
    obtain ⟨st0, h0, h1⟩ := except_bind_ok h
    intro i hi
    rcases Nat.lt_succ_iff_lt_or_eq.1 hi with hi | rfl
    · exact ih h0 i hi
    · exact ⟨st0, st, h0, h1⟩

/-- The branches a special op can take: it is passed over as computed, emitted alone, or, a
`prng_step`, handed to `prngStep`. -/
theorem compileStep_special (hlower : LoweringWF lower) {i : Nat} {st st' : CompileState} (hops : st.prog.OpsWF)
    (hsp : (st.prog.op i).isSpecial = true)
    (h : compileStep (UseDef.ofProgram prog) vars inputs outputs lower st i = .ok st') :
    i ∈ st.computed ∨
    ((st.prog.op i).fn ≠ "prng_state" ∧ (st.prog.op i).fn ≠ "prng_value" ∧ (st.prog.op i).fn ≠ "prng_step") ∨
    ((st.prog.op i).fn = "prng_step" ∧ prngStep st i (st.prog.op i) = .ok st') := by
  have hf : (st.prog.op i).tag = .function := hops.tag_of_fn fun h0 => by simp [Op.isSpecial, h0] at hsp
  rcases compileStep_eq_ok hlower h with ⟨-, -, -, hct, -⟩ | ⟨_, _, _, _, _, _, _, _, hroot, -⟩ |
      ⟨-, hskip, -⟩ | ⟨-, -, -, -, hns, hnv, hnst, -⟩ | ⟨-, -, hs, h⟩
  · rw [hf] at hct; cases hct
  · rcases hroot with hct | ⟨-, -, hns⟩
    · rw [hf] at hct; cases hct
    · rw [hsp] at hns; cases hns
  · exact .inl (hskip.resolve_left (by rw [hf]; decide))
  · exact .inr (.inl ⟨hns, hnv, hnst⟩)
  · exact .inr (.inr ⟨hs, h⟩)

/-- A `prng_state` or `prng_value` the driver gets past reads an earlier `prng_step`: that step's
scan marked it computed, or rewrote it to an ident. -/
theorem compileStep_claimed (hlower : LoweringWF lower) {k : Nat} {st st' : CompileState}
    (hinv : RunInv prog vars k st) (hc : CheckInv prog vars k st)
    (hfn : (prog.op k).fn = "prng_state" ∨ (prog.op k).fn = "prng_value")
    (h : compileStep (UseDef.ofProgram prog) vars inputs outputs lower st k = .ok st') :
    ∃ j < k, (prog.op j).fn = "prng_step" ∧ (prog.op k).inputs = [(prog.op j).output] := by
  rcases hc.ops k with ⟨j, hj, hrw, -⟩ | ⟨-, he⟩
  · exact ⟨j, hj, hrw.1, hrw.2.2.2.1.2⟩
  have hsp : (st.prog.op k).isSpecial = true := by
    rw [he]; rcases hfn with h | h <;> simp [Op.isSpecial, h]
  rcases compileStep_special hlower hinv.opsWF hsp h with hkc | ⟨hns, hnv, -⟩ | ⟨hs, -⟩
  · obtain ⟨j, hj, hstep, hcomp⟩ := hc.claimed k hkc le_rfl hsp
    exact ⟨j, hj, hstep, hcomp.inputs⟩
  · rw [he] at hns hnv
    exact (hfn.elim hns hnv).elim
  · rw [he] at hs
    rcases hfn with h | h <;> rw [h] at hs <;> exact absurd hs (by decide)

/-- A `prng_step` whose value is read, and that the driver gets past, has its state read too: its
scan found a value, so it must have found a state. -/
theorem compileStep_grouped (hwf : prog.WF) (hnamed : ∀ op ∈ prog.ops, op.output ≠ "") (hlower : LoweringWF lower)
    {j : Nat} {st st' : CompileState} (hinv : RunInv prog vars j st) (hc : CheckInv prog vars j st)
    (hj : j < prog.ops.length) (hstep : (prog.op j).fn = "prng_step")
    (hv : ∃ k < prog.ops.length, j < k ∧ PrngReads prog "prng_value" (prog.op j).output k)
    (h : compileStep (UseDef.ofProgram prog) vars inputs outputs lower st j = .ok st') :
    ∃ k < prog.ops.length, j < k ∧ PrngReads prog "prng_state" (prog.op j).output k := by
  have hpj : st.prog.op j = prog.op j := hc.op_eq (by rw [hstep]; decide)
  have hsp : (st.prog.op j).isSpecial = true := by rw [hpj]; simp [Op.isSpecial, hstep]
  rcases compileStep_special hlower hinv.opsWF hsp h with hjc | ⟨-, -, hns⟩ | ⟨-, h⟩
  · obtain ⟨_, -, -, hcomp⟩ := hc.claimed j hjc le_rfl hsp
    exact (hcomp.fn_ne.2 hstep).elim
  · exact absurd (hpj ▸ hstep) hns
  have hvout := hc.scan_vout hwf hnamed hinv hj
  have hsout := hc.scan_sout hwf hnamed hinv hj
  obtain ⟨k, hk, hjk, hr⟩ := hv
  rw [hpj] at h
  rcases prngStep_eq_ok rfl h with ⟨hv0, -⟩ | ⟨hv0, -⟩ | ⟨-, hs, -⟩
  · exact absurd hr (hvout.1 hv0 k hk hjk)
  · exact absurd hr (hvout.1 hv0 k hk hjk)
  · by_contra hno
    exact hs (hsout.2 fun k hk hjk hr => hno ⟨k, hk, hjk, hr⟩)

/-- At the end of a run every reshape and ident of the input, and every ident the prng handling
made, is computed, so it passed the reshape checks. -/
theorem CheckInv.reshapes {st : CompileState} (hc : CheckInv prog vars prog.ops.length st) :
    ∀ k < prog.ops.length, ReshapeCheck vars (prog.op k) := fun k hk hf hfn => by
  have hpk : st.prog.op k = prog.op k := hc.op_eq (by rcases hfn with h | h <;> rw [h] <;> decide)
  rw [← hpk] at hf hfn ⊢
  exact hc.checked k (hc.done k hk hf (by rcases hfn with h | h <;> simp [Op.isSpecial, h])) hf hfn

theorem CheckInv.idents (hwf : prog.WF) (hops : prog.OpsWF) {st : CompileState}
    (hc : CheckInv prog vars prog.ops.length st) :
    ∀ j < prog.ops.length, ∀ s < prog.ops.length, PrngRewrites prog j s → ReshapeOk vars (prngIdent prog j s) := by
  intro j hj s hs hrw
  rcases hc.ops s with ⟨j', hj', hrw', he⟩ | ⟨hn, -⟩
  · obtain rfl : j' = j := (hwf.output_eq_iff (by omega) hj).1 (List.singleton_inj.1
      (hrw'.2.2.2.1.2.symm.trans hrw.2.2.2.1.2))
    have hf : (st.prog.op s).tag = .function := by
      rw [he]; exact hops.tag_of_fn (by rw [hrw.2.2.2.1.1]; decide)
    have hsp : (st.prog.op s).isSpecial = false := by rw [he]; simp [Op.isSpecial, prngIdent]
    have := hc.checked s (hc.done s hs hf hsp) hf (by rw [he]; exact .inr rfl)
    rwa [he] at this
  · exact absurd hrw (hn j hj)

/-- A run over every op that returns ran on a program the driver accepts. -/
theorem compileOps_accepts (hwf : prog.WF) (hops : prog.OpsWF) (hnamed : ∀ op ∈ prog.ops, op.output ≠ "")
    (hlower : LoweringWF lower) {st : CompileState}
    (hst : compileOps prog vars inputs outputs lower prog.ops.length = .ok st) : prog.Accepts vars := by
  have hc := compileOps_checkInv hwf hops hnamed hlower le_rfl hst
  -- op `k` returned from the state the run reached before it
  have hat : ∀ k < prog.ops.length, ∃ st0 st1,
      compileStep (UseDef.ofProgram prog) vars inputs outputs lower st0 k = .ok st1 ∧
        RunInv prog vars k st0 ∧ CheckInv prog vars k st0 := fun k hk => by
    obtain ⟨st0, st1, h0, h1⟩ := compileOps_step_of_ok hst k hk
    exact ⟨st0, st1, h1, compileOps_inv hwf hops hlower hk.le h0,
      compileOps_checkInv hwf hops hnamed hlower hk.le h0⟩
  refine ⟨fun k hk hct => ?_, hc.reshapes, hc.idents hwf hops, fun k hk hfn => ?_, fun j hj hstep hv => ?_⟩
  · obtain ⟨st0, st1, h1, -, hc0⟩ := hat k hk
    have hpk : st0.prog.op k = prog.op k := hc0.op_eq (by rw [hops.fn_empty (by rw [hct]; decide)]; decide)
    rw [← hpk] at hct ⊢
    exact compileStep_arity hlower hct h1
  · obtain ⟨st0, st1, h1, hinv0, hc0⟩ := hat k hk
    exact compileStep_claimed hlower hinv0 hc0 hfn h1
  · obtain ⟨st0, st1, h1, hinv0, hc0⟩ := hat j hj
    exact compileStep_grouped hwf hnamed hlower hinv0 hc0 hj hstep hv h1

/-- **Error behaviour of `Compile`.** On every well-formed program whose ops name their outputs,
under a lowering that gives one output polynomial per dim of the contraction's output and with
the program's functions broadcast-typed, `Compile` returns a kernel list exactly when the program
passes the checks at its four throw sites: contractions of one to three inputs; reshapes and
idents, the idents the prng handling makes included, with a first input bound to a tensor of
their output's byte size and element count; every `prng_state` and `prng_value` reading an
earlier `prng_step`; and every `prng_step` whose value is read having its state read too. The
conditions on the lowering and the typing keep the stride loop of `DoUnification` in bounds;
without them a reshape with a tensor argument of higher rank reads past `out_poly`. -/
theorem compile_ok_iff (prog : Program) (vars : Bindings) (inputs outputs : List String)
    (lower : Op → FlatContraction × List Polynomial) (hwf : prog.WF) (hops : prog.OpsWF)
    (hnamed : ∀ op ∈ prog.ops, op.output ≠ "") (hlower : LoweringWF lower)
    (hpoly : ∀ op, (lower op).2.length = (vars op.output).shape.dims.length) (hranks : prog.BroadcastRanks vars) :
    (∃ res, compile prog vars inputs outputs lower = .ok res) ↔ prog.Accepts vars := by
  constructor
  · rintro ⟨res, h⟩
    obtain ⟨st, hst, -⟩ := compile_eq_ok h
    exact compileOps_accepts hwf hops hnamed hlower hst
  · intro hA
    obtain ⟨st, hst⟩ := compileOps_ok hwf hops hnamed hlower hpoly hranks hA _ le_rfl
    exact except_bind_ok_of hst ⟨_, rfl⟩

/-- `t = prng_step(s)` whose value `v = prng_value(t)` is read and whose state is not. -/
def prngValueOnlyProgram : Program :=
  ⟨[{ tag := .function, output := "t", inputs := ["s"], fn := "prng_step" },
    { tag := .function, output := "v", inputs := ["t"], fn := "prng_value" }]⟩

/-- The full prng group returns; a step whose value is read without its state throws. -/
theorem compile_ok_iff_prng :
    (∃ res, compile prngTripleProgram vec8Bindings ["s", "B"] ["s2", "C"] contiguousLower = .ok res) ∧
    ¬ ∃ res, compile prngValueOnlyProgram vec8Bindings ["s"] ["v"] contiguousLower = .ok res :=
  ⟨(compile_ok_iff prngTripleProgram vec8Bindings ["s", "B"] ["s2", "C"] contiguousLower (by decide) (by decide)
      (by decide) ⟨fun _ => rfl, fun _ => rfl⟩ (fun _ => rfl) (by decide)).2 (by decide),
    fun h => absurd ((compile_ok_iff prngValueOnlyProgram vec8Bindings ["s"] ["v"] contiguousLower (by decide)
      (by decide) (by decide) ⟨fun _ => rfl, fun _ => rfl⟩ (fun _ => rfl) (by decide)).1 h) (by decide)⟩

end Accepts

end TileGen
