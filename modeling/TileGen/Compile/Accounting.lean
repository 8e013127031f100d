/-
Every op is handled once. What a state of the driver has handled is a list of output names
(`emitted`): the contraction each kernel generates and its post-ops, each special op with the
outputs passed along with it, and the names `var_rewrites` elides. Each branch of the loop body
adds exactly the ops it handles (`CountInv.advance`), so over a whole run every op other than a
constant or a `prng_step` whose value nothing reads is emitted or elided exactly once, no other
op is, and every op marked computed has been emitted or elided. This needs the prng companions
of a program to be named and unique (`Program.CompanionsWF`): a `prng_step` whose state is read
but whose value is not is dropped, and of two `prng_state` ops reading one step only the second
is emitted.
-/
import TileGen.Compile.Run

namespace TileGen

/-! ## What a state has handled -/

/-- The ops a kernel handles, by output: the contraction it generates and its post-ops, or a
special op and the outputs passed with it. A `zero_` or `copy_` prelude handles none. -/
def Kernel.emits : Kernel → List String
  | .contraction ki =>
    (if ki.flat.generateContraction then [ki.flat.output] else []) ++ ki.flat.postOps.map (·.output)
  | .special op extra => op.output :: extra
  | .zero _ => []
  | .copy _ _ => []

def kernelsEmit : List Kernel → List String
  | [] => []
  | k :: ks => k.emits ++ kernelsEmit ks

@[simp] theorem kernelsEmit_nil : kernelsEmit [] = [] := rfl

@[simp] theorem kernelsEmit_cons (k : Kernel) (ks : List Kernel) :
    kernelsEmit (k :: ks) = k.emits ++ kernelsEmit ks := rfl

@[simp] theorem kernelsEmit_append (ks ks' : List Kernel) :
    kernelsEmit (ks ++ ks') = kernelsEmit ks ++ kernelsEmit ks' := by
  induction ks with
  | nil => rfl
  | cons k ks ih => simp [ih]

/-- The ops a state of the driver has handled, by output: those its kernels emit and those
`var_rewrites` elides. -/
def emitted (ks : List Kernel) (vr : VarRewrites) : List String :=
  kernelsEmit ks ++ vr.entries.map (·.1)

/-! ## Programs whose prng ops group -/

/-- What the prng grouping needs beyond `Program.OpsWF`: every op names its output, and no two
`prng_state` ops, nor two `prng_value` ops, read the same inputs. -/
structure Program.CompanionsWF (prog : Program) : Prop where
  outputNamed : ∀ op ∈ prog.ops, op.output ≠ ""
  unique : ∀ j < prog.ops.length, ∀ k < prog.ops.length, (prog.op j).fn = "prng_state" ∨ (prog.op j).fn = "prng_value" →
    (prog.op j).fn = (prog.op k).fn ∧ (prog.op j).inputs = (prog.op k).inputs → j = k

instance (prog : Program) : Decidable prog.CompanionsWF :=
  decidable_of_iff (_ ∧ _) ⟨fun ⟨a, b⟩ => ⟨a, b⟩, fun ⟨a, b⟩ => ⟨a, b⟩⟩

instance (prog : Program) (fn tup : String) (j : Nat) : Decidable (PrngReads prog fn tup j) :=
  inferInstanceAs (Decidable (_ ∧ _))

/-- The ops the driver must handle: all but the constants and the `prng_step` ops whose value no
`prng_value` op reads. -/
def InScope (prog : Program) (k : Nat) : Prop :=
  (prog.op k).tag ≠ .constant ∧
    ((prog.op k).fn = "prng_step" → ∃ j < prog.ops.length, PrngReads prog "prng_value" (prog.op k).output j)

instance (prog : Program) : DecidablePred (InScope prog) := fun _ => inferInstanceAs (Decidable (_ ∧ _))

section Companions

variable {prog : Program}

theorem Program.op_named (hnamed : ∀ op ∈ prog.ops, op.output ≠ "") {k : Nat} (hk : k < prog.ops.length) :
    (prog.op k).output ≠ "" := by
  rw [Program.op_of_lt hk]
  exact hnamed _ (List.getElem_mem hk)

theorem Program.CompanionsWF.named (h : prog.CompanionsWF) {k : Nat} (hk : k < prog.ops.length) :
    (prog.op k).output ≠ "" :=
  Program.op_named h.outputNamed hk

theorem Program.CompanionsWF.reads_unique (h : prog.CompanionsWF) {f tup : String} {j k : Nat}
    (hf : f = "prng_state" ∨ f = "prng_value") (hj : j < prog.ops.length) (hk : k < prog.ops.length)
    (rj : PrngReads prog f tup j) (rk : PrngReads prog f tup k) : j = k :=
  h.unique j hj k hk (rj.1 ▸ hf) ⟨rj.1.trans rk.1.symm, rj.2.trans rk.2.symm⟩

theorem Program.WF.output_eq_iff (hwf : prog.WF) {j k : Nat} (hj : j < prog.ops.length) (hk : k < prog.ops.length) :
    (prog.op j).output = (prog.op k).output ↔ j = k :=
  ⟨output_inj (fun _ hu => UseDef.ofProgram_opDefs_output hwf hu) hj hk, fun h => h ▸ rfl⟩

/-- Distinct ops have distinct outputs, so a list of ops holds an op's output once if it holds
the op. -/
theorem count_map_output (hwf : prog.WF) {k : Nat} (hk : k < prog.ops.length) :
    ∀ {l : List Nat}, (∀ j ∈ l, j < prog.ops.length) → l.Nodup →
      (l.map fun j => (prog.op j).output).count (prog.op k).output = if k ∈ l then 1 else 0
  | [], _, _ => rfl
  | j :: l, hl, hnd => by
    rw [List.map_cons, List.count_cons,
      count_map_output hwf hk (fun x hx => hl x (List.mem_cons_of_mem _ hx)) (List.nodup_cons.1 hnd).2]
    by_cases hjk : j = k
    · subst hjk
      simp [(List.nodup_cons.1 hnd).1]
    · have hne : (prog.op j).output ≠ (prog.op k).output :=
        fun h => hjk ((hwf.output_eq_iff (hl j (List.mem_cons_self _ _)) hk).1 h)
      simp [hne, hjk, Ne.symm hjk]

/-- Kernels that emit the outputs of the ops `l` handle each of them once more. -/
theorem emitted_append_count (hwf : prog.WF) {ks ks' : List Kernel} {vr : VarRewrites} {l : List Nat}
    (hks : kernelsEmit ks' = l.map fun j => (prog.op j).output) (hl : ∀ j ∈ l, j < prog.ops.length)
    (hnd : l.Nodup) {k : Nat} (hk : k < prog.ops.length) :
    (emitted (ks ++ ks') vr).count (prog.op k).output = (emitted ks vr).count (prog.op k).output + if k ∈ l then 1 else 0 := by
  simp only [emitted, kernelsEmit_append, hks, List.count_append, count_map_output hwf hk hl hnd]
  omega

end Companions

/-! ## The accounting invariant -/

section CountInv

variable (prog : Program)

/-- The accounting of the driver's state before op `i`: its program differs from the input only
where a `prng_state` became an ident; `computed` is sorted and holds only ops to handle; an op
before `i` has been handled once if it is to be handled and never otherwise; and an op from `i`
on has been handled once if it is computed and never otherwise. -/
structure CountInv (i : Nat) (st : CompileState) : Prop where
  ops : ∀ k, st.prog.op k = prog.op k ∨ (prog.op k).fn = "prng_state" ∧ (st.prog.op k).fn = "ident"
  sorted : st.computed.Sorted (· < ·)
  marked : ∀ k ∈ st.computed, k < prog.ops.length ∧ InScope prog k
  count : ∀ k < prog.ops.length, (emitted st.kernels st.varRewrites).count (prog.op k).output =
    if k < i ∧ InScope prog k ∨ i ≤ k ∧ k ∈ st.computed then 1 else 0

variable {prog}

theorem CountInv.start : CountInv prog 0 ⟨prog, [], [], {}⟩ where
  ops _ := .inl rfl
  sorted := List.sorted_nil
  marked _ h := absurd h (List.not_mem_nil _)
  count _ _ := by simp [emitted]

variable {vars : Bindings} {i : Nat} {st : CompileState}

/-- A step that handles the ops `A`: it emits or elides each once, marks those after `i` as
computed, and handles `i` itself when `i` is to be handled and not yet computed. -/
theorem CountInv.advance (hc : CountInv prog i st) {st' : CompileState} (A : List Nat)
    (hA : ∀ k ∈ A, i ≤ k ∧ k < prog.ops.length ∧ InScope prog k ∧ k ∉ st.computed)
    (hiA : InScope prog i → i ∉ st.computed → i ∈ A)
    (hemit : ∀ k < prog.ops.length, (emitted st'.kernels st'.varRewrites).count (prog.op k).output =
      (emitted st.kernels st.varRewrites).count (prog.op k).output + if k ∈ A then 1 else 0)
    (hC : ∀ k ∈ st'.computed, k ∈ st.computed ∨ k ∈ A)
    (hC' : ∀ k, i < k → k ∈ st.computed ∨ k ∈ A → k ∈ st'.computed)
    (hops : ∀ k, st'.prog.op k = prog.op k ∨ (prog.op k).fn = "prng_state" ∧ (st'.prog.op k).fn = "ident")
    (hsorted : st'.computed.Sorted (· < ·)) : CountInv prog (i + 1) st' where
  ops := hops
  sorted := hsorted
  marked k hk := (hC k hk).elim (hc.marked k) fun h => ⟨(hA k h).2.1, (hA k h).2.2.1⟩
  count k hk := by
    rw [hemit k hk, hc.count k hk]
    rcases lt_trichotomy k i with hki | rfl | hki
    · have hkA : k ∉ A := fun h => absurd (hA k h).1 (by omega)
      simp [hki, hkA, Nat.lt_succ_of_lt hki, Nat.not_le_of_lt hki, Nat.not_le_of_lt (Nat.lt_succ_of_lt hki)]
    · by_cases hkc : k ∈ st.computed
      · have hkA : k ∉ A := fun h => (hA k h).2.2.2 hkc
        simp [hkc, hkA, (hc.marked k hkc).2]
      · by_cases hs : InScope prog k
        · simp [hkc, hs, hiA hs hkc]
        · have hkA : k ∉ A := fun h => hs (hA k h).2.2.1
          simp [hkc, hs, hkA]
    · have hmem : k ∈ st'.computed ↔ k ∈ st.computed ∨ k ∈ A := ⟨hC k, hC' k hki⟩
      have hn1 : ¬ k < i := by omega
      have hn2 : ¬ k < i + 1 := by omega
      by_cases hkc : k ∈ st.computed
      · have hkA : k ∉ A := fun h => (hA k h).2.2.2 hkc
        simp [hmem, hkc, hkA, hn1, hn2, hki.le, Nat.succ_le_of_lt hki]
      · simp [hmem, hkc, hn1, hn2, hki.le, Nat.succ_le_of_lt hki]

/-- What the kernel `ContractionWrap` keeps, if any, emits: its generated contraction and its
post-ops. -/
theorem contractionWrap_emits {vars : Bindings} {c : Option Op} {flat : FlatContraction} {vr : VarRewrites}
    {wsr : List String} {k : Option Kernel} (h : contractionWrap vars c flat vr wsr = .ok k) (o : String) :
    (kernelsEmit k.toList).count o =
      (if flat.generateContraction = true ∧ flat.output = o then 1 else 0) + (flat.postOps.map (·.output)).count o := by
  rcases contractionWrap_eq_ok h with ⟨rfl, hg, hp⟩ | ⟨ki, rfl, hf⟩
  · simp [hg, hp]
  · simp only [Option.toList_some, kernelsEmit_cons, kernelsEmit_nil, List.append_nil, Kernel.emits,
      fusion_generate hf, fusion_output hf, fusion_postOps hf, List.count_append]
    by_cases hg : flat.generateContraction = true <;> simp [hg, List.count_singleton']

section Facts

variable (hinv : RunInv prog vars i st) (hc : CountInv prog i st)
include hinv hc

/-- An op that is no constant and no `prng_step` is to be handled. -/
theorem CountInv.inScope {k : Nat} (ht : (st.prog.op k).tag ≠ .constant) (hf : (st.prog.op k).fn ≠ "prng_step") :
    InScope prog k := by
  refine ⟨by rwa [← hinv.tag k], fun hs => ?_⟩
  rcases hc.ops k with h | ⟨h, -⟩
  · exact absurd (h ▸ hs) hf
  · exact absurd (h.symm.trans hs) (by decide)

omit hinv in
theorem CountInv.reads_prog {f tup : String} {j : Nat} (hf : f ≠ "ident") (h : PrngReads st.prog f tup j) :
    PrngReads prog f tup j := by
  rcases hc.ops j with he | ⟨-, hid⟩
  · unfold PrngReads at h ⊢
    rwa [← he]
  · exact absurd (hid.symm.trans h.1) (Ne.symm hf)

omit hinv in
theorem CountInv.reads_st {f tup : String} {j : Nat} (hf : f ≠ "prng_state") (h : PrngReads prog f tup j) :
    PrngReads st.prog f tup j := by
  rcases hc.ops j with he | ⟨hs, -⟩
  · unfold PrngReads at h ⊢
    rwa [he]
  · exact absurd (hs.symm.trans h.1) (Ne.symm hf)

omit hinv in
theorem CountInv.reads_unique (hcomp : prog.CompanionsWF) {f tup : String} {j k : Nat}
    (hf : f = "prng_state" ∨ f = "prng_value") (hj : j < prog.ops.length) (hk : k < prog.ops.length)
    (rj : PrngReads st.prog f tup j) (rk : PrngReads st.prog f tup k) : j = k := by
  have hid : f ≠ "ident" := by rcases hf with rfl | rfl <;> decide
  exact hcomp.reads_unique hf hj hk (hc.reads_prog hid rj) (hc.reads_prog hid rk)

omit hinv in
/-- A `prng_step` to be handled has a `prng_value` reading it after it. -/
theorem CountInv.value_reader (hwf : prog.WF) (hi : i < prog.ops.length) (hstep : (st.prog.op i).fn = "prng_step")
    (hs : InScope prog i) :
    ∃ j, i < j ∧ j < prog.ops.length ∧ PrngReads st.prog "prng_value" (st.prog.op i).output j := by
  have he : st.prog.op i = prog.op i :=
    (hc.ops i).resolve_right fun ⟨_, h⟩ => absurd (h.symm.trans hstep) (by decide)
  obtain ⟨j, hj, hr⟩ := hs.2 (by rw [← he]; exact hstep)
  refine ⟨j, hwf.defBefore j hj i hi _ (by rw [hr.2]; exact List.mem_singleton_self _) rfl, hj, ?_⟩
  rw [he]
  exact hc.reads_st (by decide) hr

end Facts

/-! ## The scan after a `prng_step` -/

section Scan

variable (p : Program) (i : Nat) (C : List Nat) (scan : PrngScan)

/-- What the scan after the `prng_step` at `i` of `p` has found, when the ops after it name their
outputs: it marks exactly the companions after `i`; `sout` is empty when no `prng_state` after
`i` reads the step, and otherwise the output of one at `soutPos`; likewise `vout`. -/
structure ScanFound : Prop where
  marks : ∀ x, x ∈ scan.computed ↔ x ∈ C ∨ i < x ∧ x < p.ops.length ∧ PrngCompanion p (p.op i).output x
  noState : scan.sout = "" → ∀ j, i < j → j < p.ops.length → ¬ PrngReads p "prng_state" (p.op i).output j
  state : scan.sout ≠ "" → i < scan.soutPos ∧ scan.soutPos < p.ops.length ∧
    PrngReads p "prng_state" (p.op i).output scan.soutPos ∧ scan.sout = (p.op scan.soutPos).output
  noValue : scan.vout = "" → ∀ j, i < j → j < p.ops.length → ¬ PrngReads p "prng_value" (p.op i).output j
  value : scan.vout ≠ "" → ∃ j, i < j ∧ j < p.ops.length ∧ PrngReads p "prng_value" (p.op i).output j ∧
    scan.vout = (p.op j).output

variable {p i C}

theorem prngScan_found (hnamed : ∀ j, i < j → j < p.ops.length → (p.op j).output ≠ "") :
    ScanFound p i C ((List.range' (i + 1) (p.ops.length - (i + 1))).foldl (prngScan p (p.op i).output)
      { computed := C }) := by
  have hjs : ∀ j, j ∈ List.range' (i + 1) (p.ops.length - (i + 1)) ↔ i < j ∧ j < p.ops.length := fun j => by
    rw [List.mem_range'_1]
    omega
  have hname : ∀ j ∈ List.range' (i + 1) (p.ops.length - (i + 1)), (p.op j).output ≠ "" := fun j hj =>
    hnamed j ((hjs j).1 hj).1 ((hjs j).1 hj).2
  obtain ⟨hcS, hsS, hvS⟩ := prngScan_foldl p (p.op i).output (List.range' (i + 1) (p.ops.length - (i + 1)))
    { computed := C }
  refine ⟨fun x => by rw [hcS, hjs, and_assoc], fun hs j hij hj => ?_, fun hs => ?_, fun hv j hij hj => ?_,
    fun hv => ?_⟩
  · rcases hsS with ⟨-, -, hno⟩ | ⟨hm, -, ho⟩
    · exact hno j ((hjs j).2 ⟨hij, hj⟩)
    · exact absurd (ho.symm.trans hs) (hname _ hm)
  · rcases hsS with ⟨h0, -, -⟩ | ⟨hm, hr, ho⟩
    · exact absurd h0 hs
    · exact ⟨((hjs _).1 hm).1, ((hjs _).1 hm).2, hr, ho⟩
  · rcases hvS with ⟨-, hno⟩ | ⟨k, hm, -, ho⟩
    · exact hno j ((hjs j).2 ⟨hij, hj⟩)
    · exact absurd (ho.symm.trans hv) (hname _ hm)
  · rcases hvS with ⟨h0, -⟩ | ⟨k, hm, hr, ho⟩
    · exact absurd h0 hv
    · exact ⟨k, ((hjs _).1 hm).1, ((hjs _).1 hm).2, hr, ho⟩

end Scan

/-! ## One step -/

/-- A step through `DoUnification` handles the fused set: a contraction root by the contraction
it generates, every other member as a post-op or an elided name. -/
theorem CountInv.unify (hwf : prog.WF) (hinv : RunInv prog vars i st) (hc : CountInv prog i st)
    (hi : i < prog.ops.length) (hiP : i ∉ st.computed) (hspec : (st.prog.op i).isSpecial = false)
    (hroot : (st.prog.op i).tag = .contraction ∨ (st.prog.op i).tag = .function)
    {inputs outputs : List String} {c : Option Op} {flat0 flat : FlatContraction} {outPoly : List Polynomial}
    {C : List Nat} {vr : VarRewrites} {wsr : List String} {k : Option Kernel} (hpo : flat0.postOps = [])
    (hout : flat0.output = (st.prog.op i).output)
    (hgen : flat0.generateContraction = true ↔ (st.prog.op i).tag = .contraction)
    (h1 : doUnification st.prog (UseDef.ofProgram prog) vars inputs outputs flat0 st.computed st.varRewrites [] i
      outPoly = .ok (flat, C, vr, wsr))
    (h2 : contractionWrap vars c flat vr wsr = .ok k) :
    CountInv prog (i + 1) { st with computed := C, varRewrites := vr, kernels := st.kernels ++ k.toList } := by
  have hr : i < st.prog.ops.length := hinv.length ▸ hi
  obtain ⟨ws, accs, hw, -, rfl, rfl, rfl, rfl⟩ := doUnification_eq_ok hinv.fits
    (fun _ hu => hinv.opDefs_output hwf hu) (fun _ _ h => hinv.output_of_opDefs h) hr hiP hinv.rewrites hpo h1
  set U := connectedComponents st.prog vars i st.computed (UseDef.ofProgram prog)
  have hm : Members st.prog vars i st.computed (UseDef.ofProgram prog) U :=
    (connectedComponents_run hinv.fits hr).2.toMembers
  have hUC := fused_fresh hiP hspec hm
  have hbound : ∀ u ∈ U, i ≤ u ∧ u < prog.ops.length := fun u hu => hinv.length ▸ (hm.sound u hu).bounds hinv.fits hr
  -- the kernel, if kept, emits the generated contraction and the walk's post-ops
  have hkern : ∀ o, (kernelsEmit k.toList).count o =
      (if flat0.generateContraction = true ∧ flat0.output = o then 1 else 0) + (ws.postOps.map (·.output)).count o :=
    contractionWrap_emits h2
  refine hc.advance U (fun u hu => ⟨(hbound u hu).1, (hbound u hu).2, hc.inScope hinv ?_ ?_, (hUC u hu).1⟩)
    (fun _ _ => hm.root) (fun j hj => ?_) (fun _ hk => mem_setInsertAll.1 hk) (fun _ _ hk => mem_setInsertAll.2 hk)
    hc.ops (setInsertAll_sorted hc.sorted _)
  · by_cases hui : u = i
    · subst hui
      rcases hroot with h | h <;> rw [h] <;> decide
    · rw [(hm.nonroot hu hui).2.1]
      decide
  · intro hs
    have hsp := (hUC u hu).2
    simp [Op.isSpecial, hs] at hsp
  · have hwalk := hw.account (prog.op j).output
    have hiff : (∃ u ∈ U, (st.prog.op u).tag = .function ∧ (st.prog.op u).output = (prog.op j).output) ↔
        j ∈ U ∧ (st.prog.op j).tag = .function := by
      constructor
      · rintro ⟨u, hu, ht, ho⟩
        rw [hinv.output, hwf.output_eq_iff (hbound u hu).2 hj] at ho
        exact ho ▸ ⟨hu, ht⟩
      · exact fun ⟨hu, ht⟩ => ⟨j, hu, ht, hinv.output j⟩
    simp only [emitted, kernelsEmit_append, hw.entries, List.map_append, List.count_append, hkern] at hwalk ⊢
    rw [if_congr hiff rfl rfl] at hwalk
    have hgi : flat0.generateContraction = true ∧ flat0.output = (prog.op j).output ↔
        j = i ∧ (st.prog.op i).tag = .contraction := by
      rw [hout, hinv.output, hwf.output_eq_iff hi hj, hgen, and_comm, eq_comm]
    rw [if_congr hgi rfl rfl]
    -- an op of the set is either the generated root contraction or a walked function, not both
    have hsplit : ((if j = i ∧ (st.prog.op i).tag = .contraction then 1 else 0) +
        if j ∈ U ∧ (st.prog.op j).tag = .function then 1 else 0) = if j ∈ U then 1 else 0 := by
      by_cases hji : j = i
      · subst hji
        rcases hroot with h | h <;> simp [h, hm.root]
      · by_cases hu : j ∈ U
        · simp [hji, hu, (hm.nonroot hu hji).2.1]
        · simp [hji, hu]
    omega

/-- A `prng_step` that finds no `prng_value` after it is not to be handled. -/
theorem CountInv.not_inScope_of_scan (hwf : prog.WF) (hinv : RunInv prog vars i st) (hc : CountInv prog i st)
    (hi : i < prog.ops.length) (hstep : (st.prog.op i).fn = "prng_step") {scan : PrngScan}
    (hf : ScanFound st.prog i st.computed scan) (hv : scan.vout = "") : ¬ InScope prog i := fun hs => by
  obtain ⟨j, hij, hj, hr⟩ := hc.value_reader hwf hi hstep hs
  exact hf.noValue hv j hij (hinv.length ▸ hj) hr

/-- A `prng_step` that finds its `prng_state` but no `prng_value` handles nothing: the state op,
rewritten to an ident, leaves `computed` and is handled at its own turn. -/
theorem CountInv.prngIdent (hwf : prog.WF) (hcomp : prog.CompanionsWF) (hinv : RunInv prog vars i st)
    (hc : CountInv prog i st) (hi : i < prog.ops.length) (hstep : (st.prog.op i).fn = "prng_step")
    {scan : PrngScan} (hf : ScanFound st.prog i st.computed scan) (hsorted : scan.computed.Sorted (· < ·))
    (hv : scan.vout = "") (hs : scan.sout ≠ "") :
    CountInv prog (i + 1) { st with
      prog := ⟨st.prog.ops.set scan.soutPos { st.prog.op scan.soutPos with
        fn := "ident", inputs := (st.prog.op scan.soutPos).inputs.set 0 ((st.prog.op i).inputs.getD 0 "") }⟩
      computed := scan.computed.erase scan.soutPos } := by
  obtain ⟨hsi, hsn, hsr, -⟩ := hf.state hs
  have hsC := hinv.companion_not_computed hwf hi (.inl hsr) hsi.le
  have honly : ∀ k ∈ scan.computed, k ≠ scan.soutPos → k ∈ st.computed := fun k hk hks =>
    ((hf.marks k).1 hk).resolve_right fun ⟨hik, hkn, hkc⟩ => hkc.elim
      (fun r => hks (hc.reads_unique hcomp (.inl rfl) (hinv.length ▸ hkn) (hinv.length ▸ hsn) r hsr))
      (hf.noValue hv k hik hkn)
  have he : st.prog.op scan.soutPos = prog.op scan.soutPos :=
    (hc.ops _).resolve_right fun ⟨_, h⟩ => absurd (h.symm.trans hsr.1) (by decide)
  refine hc.advance [] (by simp) (fun h => absurd h (hc.not_inScope_of_scan hwf hinv hi hstep hf hv)) (by simp)
    (fun k hk => ?_) (fun k _ hk => ?_) (fun k => ?_) (hsorted.sublist (List.erase_sublist _ _))
  · rw [hsorted.nodup.mem_erase_iff] at hk
    exact .inl (honly k hk.2 hk.1)
  · have hkC := hk.resolve_right (List.not_mem_nil _)
    exact hsorted.nodup.mem_erase_iff.2 ⟨fun h => hsC (h ▸ hkC), (hf.marks k).2 (.inl hkC)⟩
  · rw [Program.op_set hsn]
    split_ifs with hks
    · subst hks
      exact .inr ⟨by rw [← he]; exact hsr.1, rfl⟩
    · exact hc.ops k

/-- A `prng_step` that finds both companions handles itself and them, in its special kernel. -/
theorem CountInv.prngGroup (hwf : prog.WF) (hcomp : prog.CompanionsWF) (hinv : RunInv prog vars i st)
    (hc : CountInv prog i st) (hi : i < prog.ops.length) (hiP : i ∉ st.computed)
    (hstep : (st.prog.op i).fn = "prng_step") {scan : PrngScan} (hf : ScanFound st.prog i st.computed scan)
    (hsorted : scan.computed.Sorted (· < ·)) (hv : scan.vout ≠ "") (hs : scan.sout ≠ "") :
    CountInv prog (i + 1)
      { st with computed := scan.computed, kernels := st.kernels ++ [.special (st.prog.op i) [scan.sout, scan.vout]] } := by
  obtain ⟨hsi, hsn, hsr, hso⟩ := hf.state hs
  obtain ⟨vj, hvi, hvn, hvr, hvo⟩ := hf.value hv
  rw [hinv.length] at hsn hvn
  have hsv : scan.soutPos ≠ vj := fun h => absurd (hsr.1.symm.trans (h ▸ hvr.1)) (by decide)
  have hscope : ∀ k, PrngCompanion st.prog (st.prog.op i).output k → InScope prog k := fun k hk =>
    hc.inScope hinv (by rw [hinv.opsWF.tag_of_fn hk.fn_ne.1]; decide) hk.fn_ne.2
  have hiS : InScope prog i := ⟨by rw [← hinv.tag, hinv.opsWF.tag_of_fn (by rw [hstep]; decide)]; decide,
    fun _ => ⟨vj, hvn, by rw [← hinv.output]; exact hc.reads_prog (by decide) hvr⟩⟩
  have hA : ∀ k ∈ [i, scan.soutPos, vj], i ≤ k ∧ k < prog.ops.length ∧ InScope prog k ∧ k ∉ st.computed := by
    simp only [List.mem_cons, List.mem_singleton, List.not_mem_nil, or_false]
    rintro k (rfl | rfl | rfl)
    exacts [⟨le_rfl, hi, hiS, hiP⟩,
      ⟨hsi.le, hsn, hscope _ (.inl hsr), hinv.companion_not_computed hwf hi (.inl hsr) hsi.le⟩,
      ⟨hvi.le, hvn, hscope _ (.inr hvr), hinv.companion_not_computed hwf hi (.inr hvr) hvi.le⟩]
  refine hc.advance [i, scan.soutPos, vj] hA (fun _ _ => List.mem_cons_self _ _)
    (fun k hk => emitted_append_count hwf ?_ (fun j hj => (hA j hj).2.1) ?_ hk) (fun k hk => ?_) (fun k hik hk => ?_)
    hc.ops hsorted
  · simp [Kernel.emits, hinv.output, hso, hvo]
  · simp only [List.nodup_cons, List.mem_cons, List.mem_singleton, List.not_mem_nil, or_false, not_or]
    exact ⟨⟨by omega, by omega⟩, hsv, not_false, List.nodup_nil⟩
  · rcases (hf.marks k).1 hk with h | ⟨-, hkn, hkc⟩
    · exact .inl h
    · rw [hinv.length] at hkn
      refine .inr (hkc.elim (fun r => ?_) fun r => ?_)
      · rw [hc.reads_unique hcomp (.inl rfl) hkn hsn r hsr]
        simp
      · rw [hc.reads_unique hcomp (.inr rfl) hkn hvn r hvr]
        simp
  · rcases hk with hk | hk
    · exact (hf.marks k).2 (.inl hk)
    · simp only [List.mem_cons, List.mem_singleton, List.not_mem_nil, or_false] at hk
      rw [← hinv.length] at hsn hvn
      rcases hk with rfl | rfl | rfl
      · omega
      · exact (hf.marks _).2 (.inr ⟨hsi, hsn, .inl hsr⟩)
      · exact (hf.marks _).2 (.inr ⟨hvi, hvn, .inr hvr⟩)

/-- A `prng_step` handles itself and its two companions when it finds both, and nothing when it
finds no `prng_value`, being then not to be handled. -/
theorem CountInv.prng (hwf : prog.WF) (hcomp : prog.CompanionsWF) (hinv : RunInv prog vars i st)
    (hc : CountInv prog i st) (hi : i < prog.ops.length) (hiP : i ∉ st.computed)
    (hstep : (st.prog.op i).fn = "prng_step") {st' : CompileState} (h : prngStep st i (st.prog.op i) = .ok st') :
    CountInv prog (i + 1) st' := by
  have hf : ScanFound st.prog i st.computed _ :=
    prngScan_found fun j _ hj => by rw [hinv.output]; exact hcomp.named (hinv.length ▸ hj)
  have hsorted := prngScan_sorted st.prog (st.prog.op i).output
    (List.range' (i + 1) (st.prog.ops.length - (i + 1))) { computed := st.computed } hc.sorted
  generalize hscan : List.foldl (prngScan st.prog (st.prog.op i).output) { computed := st.computed }
    (List.range' (i + 1) (st.prog.ops.length - (i + 1))) = scan at hf hsorted
  rcases prngStep_eq_ok hscan h with ⟨hv, hs, rfl⟩ | ⟨hv, hs, rfl⟩ | ⟨hv, hs, rfl⟩
  · -- nothing found: nothing marked
    have hnone : ∀ k ∈ scan.computed, k ∈ st.computed := fun k hk =>
      ((hf.marks k).1 hk).resolve_right fun ⟨hik, hkn, hkc⟩ =>
        hkc.elim (hf.noState hs k hik hkn) (hf.noValue hv k hik hkn)
    exact hc.advance [] (by simp) (fun h => absurd h (hc.not_inScope_of_scan hwf hinv hi hstep hf hv)) (by simp)
      (fun k hk => .inl (hnone k hk)) (fun k _ hk => (hf.marks k).2 (.inl (hk.resolve_right (List.not_mem_nil _))))
      hc.ops hsorted
  · exact hc.prngIdent hwf hcomp hinv hi hstep hf hsorted hv hs
  · exact hc.prngGroup hwf hcomp hinv hi hiP hstep hf hsorted hv hs

/-- One op of the driver keeps the accounting. -/
theorem CountInv.step (hwf : prog.WF) (hcomp : prog.CompanionsWF) {inputs outputs : List String}
    {lower : Op → FlatContraction × List Polynomial} (hlower : LoweringWF lower) (hinv : RunInv prog vars i st)
    (hc : CountInv prog i st) (hi : i < prog.ops.length) {st' : CompileState}
    (h : compileStep (UseDef.ofProgram prog) vars inputs outputs lower st i = .ok st') : CountInv prog (i + 1) st' := by
  have hone : ∀ k ∈ [i], i ≤ k ∧ k < prog.ops.length := by simpa using hi
  have hpast : ∀ k, i < k → k ∈ st.computed ∨ k ∈ [i] → k ∈ st.computed := fun k hik hk =>
    hk.resolve_right fun h => by rw [List.mem_singleton] at h; omega
  rcases compileStep_eq_ok hlower h with ⟨pre, ki, hpre, hcon, hpo, hgen, hout, rfl⟩ |
      ⟨flat0, outPoly, c, flat, C, vr, wsr, k, hroot, hpo, hout, hgen, h1, h2, rfl⟩ | ⟨-, hskip, rfl⟩ |
      ⟨-, hcst, hiP, -, -, -, hns, rfl⟩ | ⟨-, hiP, hstep, h⟩
  · -- a contraction that needs zeroing: its kernel generates it
    have hiP := hinv.not_computed_of_contraction hcon
    have hiS : InScope prog i := hc.inScope hinv (by rw [hcon]; decide)
      (by rw [hinv.opsWF.fn_empty (by rw [hcon]; decide)]; decide)
    refine hc.advance [i] (by simpa using ⟨hi, hiS, hiP⟩) (fun _ _ => List.mem_singleton_self _)
      (fun k hk => emitted_append_count hwf ?_ (fun j hj => (hone j hj).2) (List.nodup_singleton _) hk)
      (fun k hk => .inl hk) hpast hc.ops hc.sorted
    rcases hpre with rfl | rfl <;> simp [Kernel.emits, hgen, hpo, hout, hinv.output]
  · -- `DoUnification`
    have hiP : i ∉ st.computed := hroot.elim hinv.not_computed_of_contraction (·.2.1)
    have hspec : (st.prog.op i).isSpecial = false := hroot.elim
      (fun hcon => by simp [Op.isSpecial, hinv.opsWF.fn_empty (by rw [hcon]; decide)]) (·.2.2)
    exact hc.unify hwf hinv hi hiP hspec (hroot.imp_right (·.1)) hpo hout hgen h1 h2
  · -- passed over: a constant, or computed already
    refine hc.advance [] (by simp) (fun hs hiP => ?_) (by simp) (fun k hk => .inl hk)
      (fun k _ hk => hk.resolve_right (List.not_mem_nil _)) hc.ops hc.sorted
    exact hskip.elim (fun h => absurd (by rw [← hinv.tag]; exact h) hs.1) fun h => absurd h hiP
  · -- another special function, emitted alone
    have hiS : InScope prog i := hc.inScope hinv hcst hns
    refine hc.advance [i] (by simpa using ⟨hi, hiS, hiP⟩) (fun _ _ => List.mem_singleton_self _)
      (fun k hk => emitted_append_count hwf ?_ (fun j hj => (hone j hj).2) (List.nodup_singleton _) hk)
      (fun k hk => .inl hk) hpast hc.ops hc.sorted
    simp [Kernel.emits, hinv.output]
  · exact hc.prng hwf hcomp hinv hi hiP hstep h

end CountInv

/-! ## Over a run -/

section Run

variable {prog : Program} {vars : Bindings} {inputs outputs : List String}
  {lower : Op → FlatContraction × List Polynomial}

/-- Every state of a run on a well-formed program is accounted for. -/
theorem compileOps_count (hwf : prog.WF) (hops : prog.OpsWF) (hlower : LoweringWF lower)
    (hcomp : prog.CompanionsWF) :
    ∀ {i : Nat} {st : CompileState}, i ≤ prog.ops.length →
      compileOps prog vars inputs outputs lower i = .ok st → CountInv prog i st
  | 0, st, _, h => by
    cases h
    exact CountInv.start
  | i + 1, st, hi, h => by
    rw [compileOps_succ] at h
    obtain ⟨st0, h0, h⟩ := except_bind_ok h
    exact (compileOps_count hwf hops hlower hcomp (by omega) h0).step hwf hcomp hlower
      (compileOps_inv hwf hops hlower (by omega) h0) (by omega) h

end Run

/-- Over any run on a well-formed program whose prng companions are named and unique, every op
other than a constant or a `prng_step` whose value no `prng_value` reads is handled exactly once
(the contraction of a kernel, a post-op, an elided name, a special op or an output passed with
its `prng_step`), and no other op is; and at every state of the run, every computed op has been
handled. -/
theorem compile_handles_each_op_once (prog : Program) (vars : Bindings) (inputs outputs : List String)
    (lower : Op → FlatContraction × List Polynomial) (hwf : prog.WF) (hops : prog.OpsWF)
    (hlower : LoweringWF lower) (hcomp : prog.CompanionsWF) {res : KernelList}
    (h : compile prog vars inputs outputs lower = .ok res) :
    (∀ k < prog.ops.length, (emitted res.kernels res.varRewrites).count (prog.op k).output =
      if InScope prog k then 1 else 0) ∧
    ∀ i ≤ prog.ops.length, ∀ st, compileOps prog vars inputs outputs lower i = .ok st →
      ∀ k ∈ st.computed, (emitted st.kernels st.varRewrites).count (prog.op k).output = 1 := by
  obtain ⟨st, hst, rfl⟩ := compile_eq_ok h
  refine ⟨fun k hk => by simpa [hk, Nat.not_le_of_lt hk] using (compileOps_count hwf hops hlower hcomp le_rfl hst).count k hk,
    fun i hi st' h' k hkc => ?_⟩
  have hc := compileOps_count hwf hops hlower hcomp hi h'
  obtain ⟨hk, hks⟩ := hc.marked k hkc
  rw [hc.count k hk, if_pos]
  by_cases hki : k < i
  exacts [.inl ⟨hki, hks⟩, .inr ⟨by omega, hkc⟩]

/-! ## prng groups -/

/-- A constant `k`; `t = prng_step(s)` with its state `s2` and its value `v`; `y = add(v, k)`,
read by a contraction `C`. -/
def prngTripleProgram : Program :=
  ⟨[{ tag := .constant, output := "k", inputs := [] },
    { tag := .function, output := "t", inputs := ["s"], fn := "prng_step" },
    { tag := .function, output := "s2", inputs := ["t"], fn := "prng_state" },
    { tag := .function, output := "v", inputs := ["t"], fn := "prng_value" },
    { tag := .function, output := "y", inputs := ["v", "k"], fn := "add" },
    { tag := .contraction, output := "C", inputs := ["y", "B"], specs := ["C", "y", "B"] }]⟩

theorem prngTriple_handled_once : ∃ res,
    compile prngTripleProgram vec8Bindings ["s", "B"] ["s2", "C"] contiguousLower = .ok res ∧
    (∀ k < prngTripleProgram.ops.length, (emitted res.kernels res.varRewrites).count (prngTripleProgram.op k).output =
      if InScope prngTripleProgram k then 1 else 0) ∧
    ∀ i ≤ prngTripleProgram.ops.length, ∀ st,
      compileOps prngTripleProgram vec8Bindings ["s", "B"] ["s2", "C"] contiguousLower i = .ok st →
      ∀ k ∈ st.computed, (emitted st.kernels st.varRewrites).count (prngTripleProgram.op k).output = 1 :=
  ⟨_, rfl, compile_handles_each_op_once prngTripleProgram vec8Bindings ["s", "B"] ["s2", "C"] contiguousLower
    (by decide) (by decide) ⟨fun _ => rfl, fun _ => rfl⟩ (by decide) rfl⟩

/-- `t = prng_step(s)` whose state `s2 = prng_state(t)` is read and whose value is not. -/
def prngNoValueProgram : Program :=
  ⟨[{ tag := .function, output := "t", inputs := ["s"], fn := "prng_step" },
    { tag := .function, output := "s2", inputs := ["t"], fn := "prng_state" }]⟩

/-- `t = prng_step(s)` read by two `prng_state` ops `a` and `b` and by `v = prng_value(t)`. -/
def prngTwoStateProgram : Program :=
  ⟨[{ tag := .function, output := "t", inputs := ["s"], fn := "prng_step" },
    { tag := .function, output := "a", inputs := ["t"], fn := "prng_state" },
    { tag := .function, output := "b", inputs := ["t"], fn := "prng_state" },
    { tag := .function, output := "v", inputs := ["t"], fn := "prng_value" }]⟩

/-- A `prng_step` whose state is read but whose value is not is dropped, its state op rewritten to
an ident; and of two `prng_state` ops reading one step, the scan marks both computed but passes
only the second, so the first is never emitted. -/
theorem compile_drops_prng_ops :
    prngNoValueProgram.WF ∧ prngNoValueProgram.OpsWF ∧
    (compile prngNoValueProgram vec8Bindings ["s"] ["s2"] contiguousLower).toOption.map
      (fun r => ((emitted r.kernels r.varRewrites).count "t", (emitted r.kernels r.varRewrites).count "s2")) =
      some (0, 1) ∧
    prngTwoStateProgram.WF ∧ prngTwoStateProgram.OpsWF ∧
    (compileOps prngTwoStateProgram vec8Bindings ["s"] ["a", "b", "v"] contiguousLower 4).toOption.map
      (fun st => (st.computed, (emitted st.kernels st.varRewrites).count "a")) = some ([1, 2, 3], 0) := by
  decide

end TileGen
