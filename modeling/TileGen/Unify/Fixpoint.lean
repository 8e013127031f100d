/-
`ConnectedComponents` computes a least fixpoint. The candidate closure `Anc c` of a consumer `c`
collects the ops reached from `c` through the definitions of inputs, at or after the root but not
the root, not previously computed and not constant. A consumer is admissible when it is not
previously computed and every op of its closure passes `OpCanBeUnified`. `InUnified` is the
least set that holds the root and, with every member, the closures of the admissible consumers
of its output. The two nested depth-first searches return exactly this set, so the result does
not depend on the order they explore in, and neither search runs out of fuel.

Both searches are handled the same way: an invariant of the search state (`CandInv`,
`UnifyInv`) kept by one round of the loop, and a measure, the stack length plus the ops not yet
taken, that one round lowers by one.
-/
import TileGen.Unify.Components

namespace TileGen

section Fixpoint

variable (prog : Program) (vars : Bindings) (r : Nat) (P : List Nat) (ud : UseDef)

/-! ## The declarative side -/

/-- `d` defines an input of `k` and is a candidate ancestor: at or after the root but not the
root, not previously computed, not a constant. -/
def AncStep (k d : Nat) : Prop :=
  ∃ v ∈ (prog.op k).inputs, ud.opDefs v = some d ∧ r ≤ d ∧ d ≠ r ∧ d ∉ P ∧ (prog.op d).tag ≠ .constant

/-- The candidate closure of `c`. -/
inductive Anc (c : Nat) : Nat → Prop
  | self : Anc c c
  | step {k d : Nat} : Anc c k → AncStep prog r P ud k d → Anc c d

/-- A consumer whose candidate set is taken whole. -/
def Admissible (c : Nat) : Prop :=
  c ∉ P ∧ ∀ k, Anc prog r P ud c k → opCanBeUnified prog vars r k = true

/-- Sets that hold the root and the closures of the admissible consumers of their members. -/
structure Closed (S : Nat → Prop) : Prop where
  root : S r
  closure : ∀ u c k, S u → c ∈ ud.uses (prog.op u).output → Admissible prog vars r P ud c →
    Anc prog r P ud c k → S k

/-- The least closed set. -/
inductive InUnified : Nat → Prop
  | root : InUnified r
  | closure {u c k : Nat} : InUnified u → c ∈ ud.uses (prog.op u).output →
      Admissible prog vars r P ud c → Anc prog r P ud c k → InUnified k

/-! ## Invariants of the two searches -/

/-- The op defining `v`, if it is a candidate ancestor, is unified or a candidate already. -/
def Covered (U cands : List Nat) (v : String) : Prop :=
  ∀ d, ud.opDefs v = some d → r ≤ d → d ∉ P → (prog.op d).tag ≠ .constant → d ∈ U ∨ d ∈ cands

/-- What the scan of the inputs `ins` does: it pushes new candidates, each defined by one of
`ins`, fresh and unifiable, and it covers every input. -/
structure ScanStep (U : List Nat) (ins : List String) (cands stack cands' stack' : List Nat) : Prop where
  pushed : ∃ p, stack' = p ++ stack ∧ cands'.length = cands.length + p.length ∧
    (∀ y, y ∈ cands' ↔ y ∈ cands ∨ y ∈ p) ∧ ∀ y ∈ p, ∃ v ∈ ins, ud.opDefs v = some y ∧ r ≤ y ∧
      y ∉ U ∧ y ∉ P ∧ (prog.op y).tag ≠ .constant ∧ opCanBeUnified prog vars r y = true
  sorted : cands.Sorted (· < ·) → cands'.Sorted (· < ·)
  covered : ∀ v ∈ ins, Covered prog r P ud U cands' v

/-- The candidate search from consumer `c` while the unified set is `U`: candidates are fresh,
unifiable members of `Anc c`, and every candidate off the stack has its inputs covered. -/
structure CandInv (U : List Nat) (c : Nat) (cands stack : List Nat) : Prop where
  sorted : cands.Sorted (· < ·)
  start : c ∈ cands
  stack_sub : ∀ x ∈ stack, x ∈ cands
  anc : ∀ x ∈ cands, Anc prog r P ud c x
  fresh : ∀ x ∈ cands, x ∉ U
  ok : ∀ x ∈ cands, opCanBeUnified prog vars r x = true
  covered : ∀ x ∈ cands, x ∉ stack → ∀ v ∈ (prog.op x).inputs, Covered prog r P ud U cands v

/-- The unified set: ascending, holding the root, inside `InUnified`, and holding the candidate
closure of each of its members but the root. -/
structure Members (U : List Nat) : Prop where
  sorted : U.Sorted (· < ·)
  root : r ∈ U
  sound : ∀ x ∈ U, InUnified prog vars r P ud x
  ancClosed : ∀ x ∈ U, x ≠ r → ∀ d, AncStep prog r P ud x d → d ∈ U

/-- From `st` to `st'` the unified set grows, every new member is pushed on the frontier, and
the measure is unchanged. -/
structure Grows (st st' : List Nat × List Nat) : Prop where
  sub : ∀ x ∈ st.1, x ∈ st'.1
  pushed : ∃ p, st'.2 = p ++ st.2 ∧ (∀ y ∈ p, y ∈ st'.1) ∧ ∀ y ∈ st'.1, y ∈ st.1 ∨ y ∈ p
  measure : st'.2.length + (prog.ops.length - st'.1.length) = st.2.length + (prog.ops.length - st.1.length)

/-- The frontier loop: the frontier lies in the set, and every member off the frontier has had
its consumers visited. -/
structure UnifyInv (U F : List Nat) extends Members prog vars r P ud U : Prop where
  frontier : ∀ x ∈ F, x ∈ U
  closed : ∀ x ∈ U, x ∉ F → ∀ c ∈ ud.uses (prog.op x).output, Admissible prog vars r P ud c →
    ∀ k, Anc prog r P ud c k → k ∈ U

variable {prog vars r P ud}

/-! ## The least closed set -/

theorem InUnified.closed : Closed prog vars r P ud (InUnified prog vars r P ud) :=
  ⟨.root, fun _ _ _ hu hc ha hk => .closure hu hc ha hk⟩

theorem InUnified.least {S : Nat → Prop} (hS : Closed prog vars r P ud S) {k : Nat}
    (h : InUnified prog vars r P ud k) : S k := by
  induction h with
  | root => exact hS.root
  | closure _ hc ha hk ih => exact hS.closure _ _ _ ih hc ha hk

theorem Anc.trans {c k j : Nat} (hk : Anc prog r P ud c k) (hj : Anc prog r P ud k j) :
    Anc prog r P ud c j := by
  induction hj with
  | self => exact hk
  | step _ hs ih => exact .step ih hs

theorem Anc.not_mem {c k : Nat} (hc : c ∉ P) (h : Anc prog r P ud c k) : k ∉ P := by
  cases h with
  | self => exact hc
  | step _ hs => obtain ⟨-, -, -, -, -, hP, -⟩ := hs; exact hP

/-- Every member but the root is itself an admissible consumer. -/
theorem InUnified.admissible {k : Nat} (h : InUnified prog vars r P ud k) (hk : k ≠ r) :
    Admissible prog vars r P ud k := by
  cases h with
  | root => exact absurd rfl hk
  | closure _ _ ha hck => exact ⟨hck.not_mem ha.1, fun j hj => ha.2 j (hck.trans hj)⟩

theorem sorted_length_le {l : List Nat} {n : Nat} (hs : l.Sorted (· < ·)) (h : ∀ x ∈ l, x < n) :
    l.length ≤ n := by
  simpa using (List.subperm_of_subset hs.nodup fun x hx => List.mem_range.2 (h x hx)).length_le

section Fits

variable (hud : ud.Fits prog)
include hud

theorem AncStep.bounds {k d : Nat} (h : AncStep prog r P ud k d) : r < d ∧ d < k := by
  obtain ⟨v, hv, hd, hrd, hne, -, -⟩ := h
  exact ⟨lt_of_le_of_ne hrd (Ne.symm hne), hud.defBefore k v d hv hd⟩

theorem AncStep.root_false {d : Nat} (h : AncStep prog r P ud r d) : False := by
  have := h.bounds hud; omega

theorem Anc.le {c k : Nat} (h : Anc prog r P ud c k) : k ≤ c := by
  induction h with
  | self => exact le_rfl
  | step _ hs ih => exact ((hs.bounds hud).2.trans_le ih).le

theorem Anc.eq_or_lt {c k : Nat} (h : Anc prog r P ud c k) : k = c ∨ r < k := by
  cases h with
  | self => exact .inl rfl
  | step _ hs => exact .inr (hs.bounds hud).1

theorem InUnified.bounds (hr : r < prog.ops.length) {k : Nat} (h : InUnified prog vars r P ud k) :
    r ≤ k ∧ k < prog.ops.length := by
  induction h with
  | root => exact ⟨le_rfl, hr⟩
  | closure _ hc _ hk ih =>
    have hcn := hud.usesLt _ _ hc
    have huc := hud.useAfter _ _ ih.2 hc
    have hkc := hk.le hud
    rcases hk.eq_or_lt hud with rfl | hlt <;> omega

theorem Members.length_le (hr : r < prog.ops.length) {U : List Nat} (hm : Members prog vars r P ud U) :
    U.length ≤ prog.ops.length :=
  sorted_length_le hm.sorted fun x hx => ((hm.sound x hx).bounds hud hr).2

theorem Members.anc_mem {U : List Nat} (hm : Members prog vars r P ud U) {x k : Nat} (hx : x ∈ U)
    (h : Anc prog r P ud x k) : k ∈ U := by
  induction h with
  | self => exact hx
  | step _ hs ih => exact hm.ancClosed _ ih (by rintro rfl; exact hs.root_false hud) _ hs

end Fits

/-- A member other than the root is an unifiable function outside the previously computed ops. -/
theorem Members.nonroot {U : List Nat} (hm : Members prog vars r P ud U) {k : Nat} (hk : k ∈ U) (hkr : k ≠ r) :
    k ∉ P ∧ (prog.op k).tag = .function ∧ (prog.op k).isSpecial = false ∧ opCanBeUnified prog vars r k = true := by
  have ha := (hm.sound k hk).admissible hkr
  have hok := ha.2 k .self
  exact ⟨ha.1, (opCanBeUnified_function hok).1, (opCanBeUnified_function hok).2, hok⟩

/-- The inputs of a member other than the root that are defined at or after the root, outside
the previously computed ops and not by a constant, are defined by members. -/
theorem Members.closure {U : List Nat} (hm : Members prog vars r P ud U) {k : Nat} (hk : k ∈ U) (hkr : k ≠ r)
    {v : String} (hv : v ∈ (prog.op k).inputs) {d : Nat} (hd : ud.opDefs v = some d) (hrd : r ≤ d) (hdP : d ∉ P)
    (hdc : (prog.op d).tag ≠ .constant) : d ∈ U := by
  by_cases hdr : d = r
  · exact hdr ▸ hm.root
  · exact hm.ancClosed k hk hkr d ⟨v, hv, hd, hrd, hdr, hdP, hdc⟩

/-! ## The candidate search -/

section Candidates

variable {U : List Nat}

theorem Covered.mono {cands cands' : List Nat} {v : String} (h : Covered prog r P ud U cands v)
    (hs : ∀ y ∈ cands, y ∈ cands') : Covered prog r P ud U cands' v :=
  fun d hd h1 h2 h3 => (h d hd h1 h2 h3).imp_right (hs d)

theorem ScanStep.skip {input : String} {rest : List String} {cands stack cands' stack' : List Nat}
    (h : ScanStep prog vars r P ud U rest cands stack cands' stack')
    (hv : Covered prog r P ud U cands input) :
    ScanStep prog vars r P ud U (input :: rest) cands stack cands' stack' := by
  obtain ⟨⟨p, hs, hl, hm, hp⟩, hsort, hcov⟩ := h
  refine ⟨⟨p, hs, hl, hm, fun y hy => ?_⟩, hsort, fun v hv' => ?_⟩
  · obtain ⟨v, hv, h⟩ := hp y hy
    exact ⟨v, List.mem_cons_of_mem _ hv, h⟩
  · rcases List.mem_cons.1 hv' with rfl | hv'
    · exact hv.mono fun y hy => (hm y).2 (.inl hy)
    · exact hcov v hv'

theorem ScanStep.push {input : String} {rest : List String} {cands stack cands' stack' : List Nat}
    {i : Nat} (h : ScanStep prog vars r P ud U rest (setInsert i cands) (i :: stack) cands' stack')
    (hi : i ∉ cands) (hnew : ud.opDefs input = some i ∧ r ≤ i ∧ i ∉ U ∧ i ∉ P ∧
      (prog.op i).tag ≠ .constant ∧ opCanBeUnified prog vars r i = true) :
    ScanStep prog vars r P ud U (input :: rest) cands stack cands' stack' := by
  obtain ⟨⟨p, hs, hl, hm, hp⟩, hsort, hcov⟩ := h
  refine ⟨⟨p ++ [i], by simp [hs], ?_, fun y => ?_, fun y hy => ?_⟩, fun hc => hsort (setInsert_sorted hc), ?_⟩
  · rw [hl, setInsert_length hi, List.length_append, List.length_singleton]; omega
  · rw [hm, mem_setInsert, List.mem_append, List.mem_singleton]
    constructor
    · rintro ((rfl | h) | h)
      exacts [.inr (.inr rfl), .inl h, .inr (.inl h)]
    · rintro (h | h | rfl)
      exacts [.inl (.inr h), .inr h, .inl (.inl rfl)]
  · rcases List.mem_append.1 hy with hy | hy
    · obtain ⟨v, hv, h⟩ := hp y hy
      exact ⟨v, List.mem_cons_of_mem _ hv, h⟩
    · obtain rfl := List.mem_singleton.1 hy
      exact ⟨input, List.mem_cons_self _ _, hnew⟩
  · intro v hv
    rcases List.mem_cons.1 hv with rfl | hv
    · intro d hd _ _ _
      obtain rfl := Option.some.inj (hnew.1.symm.trans hd)
      exact .inr ((hm _).2 (.inl (mem_setInsert.2 (.inl rfl))))
    · exact hcov v hv

/-- The scan of one candidate's inputs, when it does not discard the candidate set. -/
theorem scanInputs_some : ∀ {ins : List String} {cands stack cands' stack' : List Nat},
    scanInputs prog vars r P ud U ins (cands, stack) = some (cands', stack') →
    ScanStep prog vars r P ud U ins cands stack cands' stack'
  | [], _, _, _, _, h => by
    simp only [scanInputs, Option.some.injEq, Prod.mk.injEq] at h
    obtain ⟨rfl, rfl⟩ := h
    exact ⟨⟨[], by simp, by simp, by simp, by simp⟩, id, by simp⟩
  | input :: rest, cands, stack, cands', stack', h => by
    simp only [scanInputs] at h
    split at h
    · rename_i hnone
      exact (scanInputs_some h).skip fun d hd => by simp [hnone] at hd
    · rename_i i hi
      split_ifs at h with h1 h2 h3
      · refine (scanInputs_some h).skip fun d hd hrd hdP _ => ?_
        obtain rfl := Option.some.inj (hi.symm.trans hd)
        rcases h1 with h1 | h1 | h1 | h1
        · omega
        · exact .inl h1
        · exact .inr h1
        · exact absurd h1 hdP
      · exact (scanInputs_some h).skip fun d hd _ _ hc =>
          absurd ((Option.some.inj (hi.symm.trans hd)) ▸ h2) hc
      · simp only [not_or, not_lt, Bool.not_eq_true', Bool.not_eq_false] at h1 h3
        exact (scanInputs_some h).push h1.2.2.1 ⟨hi, h1.1, h1.2.1, h1.2.2.2, h2, h3⟩

/-- The scan discards the candidate set only at a fresh candidate ancestor that fails
`OpCanBeUnified`. -/
theorem scanInputs_none : ∀ {ins : List String} {cands stack : List Nat},
    scanInputs prog vars r P ud U ins (cands, stack) = none →
    ∃ v ∈ ins, ∃ i, ud.opDefs v = some i ∧ r ≤ i ∧ i ∉ U ∧ i ∉ P ∧ (prog.op i).tag ≠ .constant ∧
      opCanBeUnified prog vars r i = false
  | [], _, _, h => by simp [scanInputs] at h
  | input :: rest, cands, stack, h => by
    simp only [scanInputs] at h
    split at h
    · exact List.exists_mem_cons_of_exists (scanInputs_none h)
    · rename_i i hi
      split_ifs at h with h1 h2 h3
      · exact List.exists_mem_cons_of_exists (scanInputs_none h)
      · exact List.exists_mem_cons_of_exists (scanInputs_none h)
      · simp only [not_or, not_lt, Bool.not_eq_true'] at h1 h3
        exact ⟨input, List.mem_cons_self _ _, i, hi, h1.1, h1.2.1, h1.2.2.2, h2, h3⟩
      · exact List.exists_mem_cons_of_exists (scanInputs_none h)

/-- One round of the candidate search: pop `x` and scan its inputs. -/
theorem CandInv.scan (hrU : r ∈ U) {c x : Nat} {cands stack cands' stack' : List Nat}
    (hi : CandInv prog vars r P ud U c cands (x :: stack))
    (h : scanInputs prog vars r P ud U (prog.op x).inputs (cands, stack) = some (cands', stack')) :
    CandInv prog vars r P ud U c cands' stack' ∧ ∃ p, stack' = p ++ stack ∧ cands'.length = cands.length + p.length := by
  obtain ⟨⟨p, hs, hl, hm, hp⟩, hsort, hcov⟩ := scanInputs_some h
  have hx : x ∈ cands := hi.stack_sub x (List.mem_cons_self _ _)
  have hnew : ∀ y ∈ p, Anc prog r P ud c y ∧ y ∉ U ∧ opCanBeUnified prog vars r y = true := by
    intro y hy
    obtain ⟨v, hv, hd, hry, hyU, hyP, hyc, hyok⟩ := hp y hy
    exact ⟨(hi.anc x hx).step ⟨v, hv, hd, hry, fun e => hyU (e ▸ hrU), hyP, hyc⟩, hyU, hyok⟩
  refine ⟨⟨hsort hi.sorted, (hm c).2 (.inl hi.start), fun y hy => ?_, fun y hy => ?_, fun y hy => ?_,
    fun y hy => ?_, fun y hy hys => ?_⟩, p, hs, hl⟩
  · rw [hs, List.mem_append] at hy
    exact (hm y).2 (hy.elim .inr fun hy => .inl (hi.stack_sub y (List.mem_cons_of_mem _ hy)))
  · exact ((hm y).1 hy).elim (hi.anc y) fun hy => (hnew y hy).1
  · exact ((hm y).1 hy).elim (hi.fresh y) fun hy => (hnew y hy).2.1
  · exact ((hm y).1 hy).elim (hi.ok y) fun hy => (hnew y hy).2.2
  · rw [hs, List.mem_append, not_or] at hys
    rcases (hm y).1 hy with hy | hy
    · by_cases hyx : y = x
      · exact hyx ▸ hcov
      · have hys' : y ∉ x :: stack := by simp [hyx, hys.2]
        exact fun v hv => (hi.covered y hy hys' v hv).mono fun z hz => (hm z).2 (.inl hz)
    · exact absurd hy hys.1

variable (hud : ud.Fits prog)
include hud

theorem CandInv.length_le {c : Nat} (hc : c < prog.ops.length) {cands stack : List Nat}
    (hi : CandInv prog vars r P ud U c cands stack) : cands.length ≤ prog.ops.length :=
  sorted_length_le hi.sorted fun x hx => ((hi.anc x hx).le hud).trans_lt hc

/-- The candidate search never runs out of fuel: it completes with a closed candidate set, or
discards a consumer that is not admissible. -/
theorem candidateSearch_spec (hrU : r ∈ U) {c : Nat} (hc : c < prog.ops.length) :
    ∀ (fuel : Nat) {cands stack : List Nat}, CandInv prog vars r P ud U c cands stack →
      stack.length + (prog.ops.length - cands.length) < fuel →
      (∃ cs, candidateSearch prog vars r P ud U fuel (cands, stack) = .complete cs ∧
        CandInv prog vars r P ud U c cs []) ∨
      (candidateSearch prog vars r P ud U fuel (cands, stack) = .discard ∧
        ¬ Admissible prog vars r P ud c)
  | 0, _, _, _, hf => absurd hf (Nat.not_lt_zero _)
  | fuel + 1, cands, [], hi, _ => .inl ⟨cands, rfl, hi⟩
  | fuel + 1, cands, x :: stack, hi, hf => by
    simp only [candidateSearch]
    split
    · rename_i h
      refine .inr ⟨rfl, fun ha => ?_⟩
      obtain ⟨v, hv, i, hd, hri, hiU, hiP, hic, hiok⟩ := scanInputs_none h
      have hanc := (hi.anc x (hi.stack_sub x (List.mem_cons_self _ _))).step
        ⟨v, hv, hd, hri, fun e => hiU (e ▸ hrU), hiP, hic⟩
      simp [ha.2 i hanc] at hiok
    · rename_i acc h
      obtain ⟨cands', stack'⟩ := acc
      obtain ⟨hi', p, hs, hl⟩ := hi.scan hrU h
      have := hi'.length_le hud hc
      refine candidateSearch_spec hrU hc fuel hi' ?_
      simp only [hs, List.length_append, List.length_cons] at hf ⊢
      omega

/-- A completed candidate set holds, with the unified set, the whole closure of its consumer. -/
theorem CandInv.anc_mem (hm : Members prog vars r P ud U) {cs : List Nat} {c : Nat}
    (hi : CandInv prog vars r P ud U c cs []) {k : Nat} (hk : Anc prog r P ud c k) : k ∈ U ∨ k ∈ cs := by
  induction hk with
  | self => exact .inr hi.start
  | step _ hs ih =>
    rcases ih with hU | hcs
    · exact .inl (hm.ancClosed _ hU (by rintro rfl; exact hs.root_false hud) _ hs)
    · obtain ⟨v, hv, hd, h1, -, h3, h4⟩ := hs
      exact hi.covered _ hcs (List.not_mem_nil _) v hv _ hd h1 h3 h4

theorem CandInv.admissible (hm : Members prog vars r P ud U) {c : Nat} {cs : List Nat}
    (hi : CandInv prog vars r P ud U c cs []) (hcP : c ∉ P) : Admissible prog vars r P ud c := by
  refine ⟨hcP, fun k hk => (hi.anc_mem hud hm hk).elim (fun hU => ?_) (hi.ok k)⟩
  have hkr : k ≠ r := by
    rcases hk.eq_or_lt hud with rfl | hlt
    · rintro rfl; exact hi.fresh _ hi.start hU
    · exact hlt.ne'
  exact ((hm.sound k hU).admissible hkr).2 k .self

end Candidates

/-! ## The frontier loop -/

theorem Grows.refl (st : List Nat × List Nat) : Grows prog st st :=
  ⟨fun _ => id, ⟨[], rfl, by simp, fun _ h => .inl h⟩, rfl⟩

theorem Grows.trans {st st' st'' : List Nat × List Nat} (h : Grows prog st st') (h' : Grows prog st' st'') :
    Grows prog st st'' := by
  obtain ⟨hs, p, hp, hpm, hpn⟩ := h.sub, h.pushed
  obtain ⟨hs', q, hq, hqm, hqn⟩ := h'.sub, h'.pushed
  refine ⟨fun x hx => hs' x (hs x hx), ⟨q ++ p, by rw [hq, hp, List.append_assoc], ?_, ?_⟩,
    h'.measure.trans h.measure⟩
  · intro y hy
    rcases List.mem_append.1 hy with hy | hy
    · exact hqm y hy
    · exact hs' y (hpm y hy)
  · intro y hy
    rcases hqn y hy with hy | hy
    · exact (hpn y hy).imp_right fun h => List.mem_append_right _ h
    · exact .inr (List.mem_append_left _ hy)

section Frontier

variable (hud : ud.Fits prog) (hr : r < prog.ops.length)
include hud hr

/-- One consumer of the popped op: either nothing changes, or its candidate set joins the
unified set and the frontier; an admissible consumer ends with its closure unified. -/
theorem visitConsumer_spec {u c : Nat} (hu : InUnified prog vars r P ud u)
    (hc : c ∈ ud.uses (prog.op u).output) {st : List Nat × List Nat} (hm : Members prog vars r P ud st.1) :
    Members prog vars r P ud (visitConsumer prog vars r P ud st c).1 ∧
      Grows prog st (visitConsumer prog vars r P ud st c) ∧
      (Admissible prog vars r P ud c → ∀ k, Anc prog r P ud c k → k ∈ (visitConsumer prog vars r P ud st c).1) := by
  have hcn := hud.usesLt _ _ hc
  unfold visitConsumer
  split_ifs with h1
  · refine ⟨hm, .refl st, fun ha k hk => ?_⟩
    simp only [Bool.not_eq_true'] at h1
    rcases h1 with h1 | h1 | h1
    · exact hm.anc_mem hud h1 hk
    · simp [ha.2 c .self] at h1
    · exact absurd h1 ha.1
  · simp only [not_or, Bool.not_eq_true', Bool.not_eq_false] at h1
    obtain ⟨hcU, hok, hcP⟩ := h1
    have hinit : CandInv prog vars r P ud st.1 c [c] [c] :=
      ⟨List.sorted_singleton c, List.mem_singleton_self c, fun _ => id,
        fun x hx => (List.mem_singleton.1 hx) ▸ .self, fun x hx => (List.mem_singleton.1 hx) ▸ hcU,
        fun x hx => (List.mem_singleton.1 hx) ▸ hok, fun _ hx hx' => absurd hx hx'⟩
    rcases candidateSearch_spec hud hm.root hcn (prog.ops.length + 1) hinit (by simp; omega) with ⟨cs, hcs, hi⟩ | ⟨hd, hna⟩
    · rw [hcs]
      have hmem : ∀ k, k ∈ setInsertAll st.1 cs ↔ k ∈ st.1 ∨ k ∈ cs := fun _ => mem_setInsertAll
      have hadm := hi.admissible hud hm hcP
      have hm' : Members prog vars r P ud (setInsertAll st.1 cs) := by
        refine ⟨setInsertAll_sorted hm.sorted cs, (hmem r).2 (.inl hm.root), fun x hx => ?_, fun x hx hxr d hd => ?_⟩
        · exact ((hmem x).1 hx).elim (hm.sound x) fun hx => .closure hu hc hadm (hi.anc x hx)
        · rcases (hmem x).1 hx with hx | hx
          · exact (hmem d).2 (.inl (hm.ancClosed x hx hxr d hd))
          · exact (hmem d).2 (hi.anc_mem hud hm ((hi.anc x hx).step hd))
      have hlen := setInsertAll_length hi.sorted.nodup hi.fresh
      have hle := hm'.length_le hud hr
      refine ⟨hm', ⟨fun x hx => (hmem x).2 (.inl hx), ⟨cs.reverse, rfl, fun y hy => (hmem y).2
        (.inr (List.mem_reverse.1 hy)), fun y hy => ((hmem y).1 hy).imp_right List.mem_reverse.2⟩, ?_⟩,
        fun _ k hk => (hmem k).2 (hi.anc_mem hud hm hk)⟩
      simp only [List.length_append, List.length_reverse] at hle ⊢
      omega
    · rw [hd]
      exact ⟨hm, .refl st, fun ha => absurd ha hna⟩

/-- The whole loop over the consumers of the popped op. -/
theorem visitConsumers_spec {u : Nat} (hu : InUnified prog vars r P ud u) :
    ∀ {cs : List Nat} {st : List Nat × List Nat}, (∀ c ∈ cs, c ∈ ud.uses (prog.op u).output) →
      Members prog vars r P ud st.1 →
      Members prog vars r P ud (visitConsumers prog vars r P ud cs st).1 ∧
        Grows prog st (visitConsumers prog vars r P ud cs st) ∧
        ∀ c ∈ cs, Admissible prog vars r P ud c → ∀ k, Anc prog r P ud c k →
          k ∈ (visitConsumers prog vars r P ud cs st).1
  | [], st, _, hm => ⟨hm, .refl st, by simp⟩
  | c :: cs, st, hcs, hm => by
    obtain ⟨hm1, hg1, ha1⟩ := visitConsumer_spec hud hr hu (hcs c (List.mem_cons_self _ _)) hm
    obtain ⟨hm2, hg2, ha2⟩ :=
      visitConsumers_spec hu (fun c' h => hcs c' (List.mem_cons_of_mem _ h)) hm1
    refine ⟨hm2, hg1.trans hg2, fun c' hc' => ?_⟩
    rcases List.mem_cons.1 hc' with rfl | hc'
    · exact fun ha k hk => hg2.sub _ (ha1 ha k hk)
    · exact ha2 c' hc'

/-- The frontier loop never runs out of fuel, and ends with every member's consumers visited. -/
theorem unifyLoop_spec : ∀ (fuel : Nat) {U F : List Nat}, UnifyInv prog vars r P ud U F →
    F.length + (prog.ops.length - U.length) < fuel →
    ∃ U', unifyLoop prog vars r P ud fuel (U, F) = some U' ∧ UnifyInv prog vars r P ud U' []
  | 0, _, _, _, hf => absurd hf (Nat.not_lt_zero _)
  | fuel + 1, U, [], hi, _ => ⟨U, rfl, hi⟩
  | fuel + 1, U, u :: F, hi, hf => by
    have hu := hi.sound u (hi.frontier u (List.mem_cons_self _ _))
    obtain ⟨hm, hg, ha⟩ := visitConsumers_spec hud hr hu (fun _ h => h) (show Members prog vars r P ud (U, F).1 from hi.toMembers)
    set st := visitConsumers prog vars r P ud (ud.uses (prog.op u).output) (U, F)
    obtain ⟨p, hp, hpm, hpn⟩ := hg.pushed
    have hinv : UnifyInv prog vars r P ud st.1 st.2 := by
      refine ⟨hm, fun x hx => ?_, fun x hx hxF c hc ha' k hk => ?_⟩
      · rw [hp, List.mem_append] at hx
        exact hx.elim (hpm x) fun hx => hg.sub x (hi.frontier x (List.mem_cons_of_mem _ hx))
      · rw [hp, List.mem_append, not_or] at hxF
        rcases hpn x hx with hx | hx
        · by_cases hxu : x = u
          · subst hxu; exact ha c hc ha' k hk
          · have : x ∉ u :: F := by simp [hxu, hxF.2]
            exact hg.sub k (hi.closed x hx this c hc ha' k hk)
        · exact absurd hx hxF.1
    have hmeas : st.2.length + (prog.ops.length - st.1.length) = F.length + (prog.ops.length - U.length) :=
      hg.measure
    simp only [List.length_cons] at hf
    exact unifyLoop_spec fuel hinv (show st.2.length + (prog.ops.length - st.1.length) < fuel by omega)

/-- `ConnectedComponents` returns what its frontier loop ends with, a set whose every member's
consumers have been visited. -/
theorem connectedComponents_run :
    unifyLoop prog vars r P ud (prog.ops.length + 1) ([r], [r]) = some (connectedComponents prog vars r P ud) ∧
    UnifyInv prog vars r P ud (connectedComponents prog vars r P ud) [] := by
  have hinit : UnifyInv prog vars r P ud [r] [r] :=
    ⟨⟨List.sorted_singleton r, List.mem_singleton_self r,
      fun x hx => (List.mem_singleton.1 hx) ▸ .root, fun x hx hxr => absurd (List.mem_singleton.1 hx) hxr⟩,
      fun _ => id, fun _ hx hx' => absurd hx hx'⟩
  obtain ⟨U, hrun, hi⟩ := unifyLoop_spec hud hr (prog.ops.length + 1) hinit (by simp; omega)
  have hU : connectedComponents prog vars r P ud = U := by simp only [connectedComponents, hrun, Option.getD_some]
  exact hU ▸ ⟨hrun, hi⟩

end Frontier

end Fixpoint

/-- `ConnectedComponents` returns, without running out of fuel, exactly the least set holding
the root and the candidate closures of the admissible consumers of its members; every member but
the root is an admissible, unifiable function outside `previously_computed`, and every candidate
ancestor of such a member is in the set. -/
theorem connectedComponents_least_fixpoint (prog : Program) (vars : Bindings) (r : Nat) (P : List Nat)
    (hwf : prog.WF) (hr : r < prog.ops.length) :
    let ud := UseDef.ofProgram prog
    let U := connectedComponents prog vars r P ud
    unifyLoop prog vars r P ud (prog.ops.length + 1) ([r], [r]) = some U ∧
    (∀ k, k ∈ U ↔ InUnified prog vars r P ud k) ∧
    Closed prog vars r P ud (· ∈ U) ∧ (∀ S, Closed prog vars r P ud S → ∀ k ∈ U, S k) ∧
    U.Sorted (· < ·) ∧
    (∀ k ∈ U, k ≠ r → k ∉ P ∧ (prog.op k).tag = .function ∧ (prog.op k).isSpecial = false ∧
      opCanBeUnified prog vars r k = true) ∧
    (∀ k ∈ U, k ≠ r → ∀ v ∈ (prog.op k).inputs, ∀ d, ud.opDefs v = some d → r ≤ d → d ∉ P →
      (prog.op d).tag ≠ .constant → d ∈ U) := by
  intro ud U
  obtain ⟨hrun, hi⟩ : unifyLoop prog vars r P ud (prog.ops.length + 1) ([r], [r]) = some U ∧
      UnifyInv prog vars r P ud U [] := connectedComponents_run (UseDef.ofProgram_fits hwf) hr
  have hcl : Closed prog vars r P ud (· ∈ U) :=
    ⟨hi.root, fun u c k hu hc ha hk => hi.closed u hu (List.not_mem_nil _) c hc ha k hk⟩
  exact ⟨hrun, fun k => ⟨hi.sound k, fun hk => hk.least hcl⟩, hcl, fun S hS k hk => (hi.sound k hk).least hS,
    hi.sorted, fun k hk hkr => hi.nonroot hk hkr, fun k hk hkr _ hv _ hd hrd hdP hdc =>
      hi.closure hk hkr hv hd hrd hdP hdc⟩

/-- A matmul followed by a bias add and a relu, over four-element tensors. -/
def biasReluProgram : Program :=
  ⟨[{ tag := .contraction, output := "C", inputs := ["A", "B"] },
    { tag := .function, output := "D", inputs := ["C", "bias"], fn := "add" },
    { tag := .function, output := "E", inputs := ["D"], fn := "relu" }]⟩

/-- Every name bound to a four-element vector. -/
def vecBindings : Bindings := fun _ => ⟨.tensor, ⟨1, [⟨4, 1⟩]⟩⟩

theorem biasRelu_least_fixpoint : biasReluProgram.WF ∧ 0 < biasReluProgram.ops.length ∧
    ∀ k, k ∈ connectedComponents biasReluProgram vecBindings 0 [] (UseDef.ofProgram biasReluProgram) ↔
      InUnified biasReluProgram vecBindings 0 [] (UseDef.ofProgram biasReluProgram) k :=
  ⟨by decide, by decide,
    (connectedComponents_least_fixpoint biasReluProgram vecBindings 0 [] (by decide) (by decide)).2.1⟩

example : connectedComponents biasReluProgram vecBindings 0 [] (UseDef.ofProgram biasReluProgram) = [0, 1, 2] := by
  decide

/-- A root that is itself previously computed stays in the result. -/
theorem connectedComponents_keeps_computed_root : biasReluProgram.WF ∧ 0 < biasReluProgram.ops.length ∧
    0 ∈ ([0] : List Nat) ∧
    connectedComponents biasReluProgram vecBindings 0 [0] (UseDef.ofProgram biasReluProgram) = [0, 1, 2] := by
  decide

end TileGen
