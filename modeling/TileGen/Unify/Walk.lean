/-
The walk of `DoUnification` over the fused set. `var_rewrites` stays flat: no rewritten name is a
rewrite target, so a lookup takes one step, and every target is where the chain of elided
reshape/ident sources of its key first leaves the elided outputs. Each op of the set is passed
over, elided or emitted, exactly one of them; and each emitted post-op reads only post-op inputs,
the contraction root's output and the outputs of earlier post-ops. All of it is one invariant of
the walk (`WalkInv`), kept by each op of the set in ascending order.
-/
import TileGen.Unify.DoUnification
import TileGen.Unify.Fixpoint
import Mathlib.Logic.Relation

namespace TileGen

/-! ## Flat rewrite maps -/

theorem mem_of_lookup_eq_some {l : List (String × String)} {k v : String} (h : l.lookup k = some v) :
    (k, v) ∈ l := by
  obtain ⟨l₁, l₂, rfl, -⟩ := List.lookup_eq_some_iff.1 h
  simp

theorem lookup_isSome_of_mem {l : List (String × String)} {k v : String} (h : (k, v) ∈ l) :
    (l.lookup k).isSome := List.lookup_isSome_iff.2 ⟨_, h, by simp⟩

theorem count_keys_of_lookup_none {l : List (String × String)} {k : String} (h : l.lookup k = none) :
    (l.map (·.1)).count k = 0 := by
  rw [List.count_eq_zero]
  intro hk
  obtain ⟨⟨k', v⟩, hmem, rfl⟩ := List.mem_map.1 hk
  simpa [h] using lookup_isSome_of_mem hmem

namespace VarRewrites

/-- No target of a rewrite is itself rewritten. -/
def Flat (vr : VarRewrites) : Prop := ∀ k v, (k, v) ∈ vr.entries → vr.entries.lookup v = none

theorem walk_of_none {vr : VarRewrites} {k : String} (h : vr.entries.lookup k = none) :
    ∀ fuel, vr.walk fuel k = k
  | 0 => rfl
  | _ + 1 => by simp [walk, h]

theorem lookup_of_flat {vr : VarRewrites} (hf : vr.Flat) (k : String) :
    vr.lookup k = (vr.entries.lookup k).getD k := by
  cases h : vr.entries.lookup k with
  | none => exact walk_of_none h _
  | some v =>
    obtain ⟨m, hm⟩ : ∃ m, vr.entries.length = m + 1 :=
      Nat.exists_eq_succ_of_ne_zero (List.length_pos.2 (List.ne_nil_of_mem (mem_of_lookup_eq_some h))).ne'
    simp only [lookup, hm, walk, h, Option.getD_some]
    exact walk_of_none (hf k v (mem_of_lookup_eq_some h)) m

theorem lookup_lookup_none {vr : VarRewrites} (hf : vr.Flat) (k : String) :
    vr.entries.lookup (vr.lookup k) = none := by
  rw [lookup_of_flat hf]
  cases h : vr.entries.lookup k with
  | none => exact h
  | some v => exact hf k v (mem_of_lookup_eq_some h)

theorem lookup_idem {vr : VarRewrites} (hf : vr.Flat) (k : String) : vr.lookup (vr.lookup k) = vr.lookup k := by
  rw [lookup_of_flat hf (vr.lookup k), lookup_lookup_none hf, Option.getD_none]

end VarRewrites

/-- `x'` is the first input of the reshape or ident whose elided output is `x`. -/
def ElidedSource (prog : Program) (ud : UseDef) (vr : VarRewrites) (x x' : String) : Prop :=
  (vr.entries.lookup x).isSome ∧ ∃ d, ud.opDefs x = some d ∧ (prog.op d).inputs.head? = some x'

/-- A reshape or ident: a function that `DoUnification` may elide. -/
def Op.Elidable (op : Op) : Prop := op.tag = .function ∧ (op.fn = "reshape" ∨ op.fn = "ident")

/-! ## One op of the walk -/

theorem except_bind_ok {ε α β : Type} {x : Except ε α} {f : α → Except ε β} {b : β}
    (h : x >>= f = .ok b) : ∃ a, x = .ok a ∧ f a = .ok b := by
  cases x with
  | error e => cases h
  | ok a => exact ⟨a, rfl, h⟩

/-- A call that returns got past each guard that throws. -/
theorem except_guard_ok {ε α : Type} {c : Prop} [Decidable c] {e : ε} {x : Except ε α} {a : α}
    (h : (if c then throw e else x) = .ok a) : ¬ c ∧ x = .ok a := by
  by_cases hc : c
  · rw [if_pos hc] at h; cases h
  · rw [if_neg hc] at h; exact ⟨hc, h⟩

section Walk

variable {prog : Program} {ud : UseDef} {vars : Bindings} {inputs outputs : List String}

/-- What one op of the fused set does to the walk: nothing for a non-function, an elision of a
reshape or ident, or a post-op. -/
theorem unifyOp_eq_ok {U : List Nat} {ws ws' : WalkState} {u : Nat}
    (h : unifyOp prog ud vars inputs outputs U ws u = .ok ws') :
    ((prog.op u).tag ≠ .function ∧ ws' = ws) ∨
    ((prog.op u).Elidable ∧ ∃ in0 rest, (prog.op u).inputs = in0 :: rest ∧
      ((prog.op u).output ∉ outputs ∨ (ws.varRewrites.lookup in0 ∉ outputs ∧ ws.varRewrites.lookup in0 ∉ inputs)) ∧
      ws' = { ws with
        varRewrites := ws.varRewrites.insert (prog.op u).output (ws.varRewrites.lookup in0)
        localRewrites := mapEmplace ws.localRewrites (prog.op u).output (ws.varRewrites.lookup in0) }) ∨
    ((prog.op u).tag = .function ∧ ws' = emitPostOp ud vars U ws (prog.op u)) := by
  dsimp only [unifyOp] at h
  by_cases h1 : (prog.op u).tag ≠ .function
  · rw [if_pos h1] at h
    exact .inl ⟨h1, (Except.ok.inj h).symm⟩
  rw [if_neg h1] at h
  have hf : (prog.op u).tag = .function := not_not.1 h1
  by_cases h2 : (prog.op u).fn = "reshape" ∨ (prog.op u).fn = "ident"
  · rw [if_pos h2] at h
    split at h
    · cases h
    · rename_i in0 rest hin
      obtain ⟨-, h⟩ := except_guard_ok h
      obtain ⟨-, h⟩ := except_guard_ok h
      obtain ⟨-, h⟩ := except_guard_ok h
      split_ifs at h with h6
      · exact .inr (.inl ⟨⟨hf, h2⟩, in0, rest, hin, h6, (Except.ok.inj h).symm⟩)
      · exact .inr (.inr ⟨hf, (Except.ok.inj h).symm⟩)
  rw [if_neg h2] at h
  exact .inr (.inr ⟨hf, (Except.ok.inj h).symm⟩)

/-- What `DoUnification` returns: the walk over the fused set, the stride loop's accesses for the
names it adds, and the fused set marked computed. -/
theorem doUnification_spec {flat : FlatContraction} {P : List Nat} {vr : VarRewrites} {wsr : List String}
    {r : Nat} {outPoly : List Polynomial} {res : FlatContraction × List Nat × VarRewrites × List String}
    (h : doUnification prog ud vars inputs outputs flat P vr wsr r outPoly = .ok res) :
    ∃ ws accs, (connectedComponents prog vars r P ud).foldlM
        (unifyOp prog ud vars inputs outputs (connectedComponents prog vars r P ud))
        ⟨flat.postOps, [], [], wsr, vr⟩ = .ok ws ∧
      postOpAccesses vars (vars flat.output).shape outPoly flat.names ws.postContractionInputs = .ok accs ∧
      res = ({ flat with
          postOps := ws.postOps
          kernelOutputs := flat.kernelOutputs ++
            kernelOutputs prog ud outputs (connectedComponents prog vars r P ud) (prog.op r).inputs ws.varRewrites
          postOpInputs := flat.postOpInputs ++ accs },
        setInsertAll P (connectedComponents prog vars r P ud), ws.varRewrites, ws.warSafeReads) := by
  dsimp only [doUnification] at h
  obtain ⟨ws, hws, h⟩ := except_bind_ok h
  obtain ⟨accs, hacc, h⟩ := except_bind_ok h
  exact ⟨ws, accs, hws, hacc, (Except.ok.inj h).symm⟩

end Walk

/-! ## The walk invariant -/

section WalkInv

variable (prog : Program) (ud : UseDef) (vars : Bindings) (r : Nat) (P : List Nat) (vr0 : VarRewrites)

/-- Ops that can no longer be elided: before the root, computed, or constants. -/
def Settled (e : Nat) : Prop := e < r ∨ e ∈ P ∨ (prog.op e).tag = .constant

/-- A rewrite map is flat; each key is the output of an elidable op satisfying `K`, and the target
is defined, if at all, by an earlier op satisfying `S`; and the target is where the chain of
elided sources of the key leads. -/
structure RewritesInv (vr : VarRewrites) (S K : Nat → Prop) : Prop where
  flat : vr.Flat
  entry : ∀ k v, (k, v) ∈ vr.entries → ∃ d, ud.opDefs k = some d ∧ K d ∧ (prog.op d).Elidable ∧
    ∀ e, ud.opDefs v = some e → S e ∧ e < d
  chain : ∀ k v, (k, v) ∈ vr.entries → Relation.TransGen (ElidedSource prog ud vr) k v

/-- The walk after the ops `done` of the fused set `U`: the rewrites are those of the driver plus
the local ones, one per elided op; each post-op is the copy of an op of `done`, reading post-op
inputs, the contraction root's output and earlier post-ops' outputs; and every function of
`done` is emitted or elided, once. -/
structure WalkInv (done : List Nat) (ws : WalkState) extends
    RewritesInv prog ud ws.varRewrites (fun e => Settled prog r P e ∨ e ∈ done) (fun d => d ∈ P ∨ d ∈ done) : Prop where
  entries : ws.varRewrites.entries = ws.localRewrites ++ vr0.entries
  localKeys : ∀ k v, (k, v) ∈ ws.localRewrites → ∃ d ∈ done, (prog.op d).output = k
  reads : ∀ p (hp : p < ws.postOps.length), ∃ o ∈ done, (prog.op o).tag = .function ∧
    (prog.op o).output = ws.postOps[p].output ∧ ∀ n ∈ ws.postOps[p].inputs,
      ((vars n).tag = .tensor → n ∈ ws.postContractionInputs ∨
        (n = (prog.op r).output ∧ (prog.op r).tag ≠ .function) ∨ n ∈ (ws.postOps.take p).map (·.output)) ∧
      ws.localRewrites.lookup n = none ∧ ∀ u < prog.ops.length, (prog.op u).output = n → u < o
  account : ∀ o, (ws.postOps.map (·.output)).count o + (ws.localRewrites.map (·.1)).count o =
    if ∃ u ∈ done, (prog.op u).tag = .function ∧ (prog.op u).output = o then 1 else 0

variable {prog ud vars r P vr0} {U : List Nat} {inputs outputs : List String}

theorem RewritesInv.mono {vr : VarRewrites} {S K S' K' : Nat → Prop} (hS : ∀ e, S e → S' e)
    (hK : ∀ d, K d → K' d) (h : RewritesInv prog ud vr S K) : RewritesInv prog ud vr S' K' where
  flat := h.flat
  entry k v hkv :=
    let ⟨d, hd1, hd2, hd3, hd4⟩ := h.entry k v hkv
    ⟨d, hd1, hK d hd2, hd3, fun e he => ⟨hS e (hd4 e he).1, (hd4 e he).2⟩⟩
  chain := h.chain

/-- Distinct ops have distinct outputs, when the index defines each output at its op. -/
theorem output_inj (hdef : ∀ u < prog.ops.length, ud.opDefs (prog.op u).output = some u) {x y : Nat}
    (hx : x < prog.ops.length) (hy : y < prog.ops.length) (h : (prog.op x).output = (prog.op y).output) : x = y := by
  have := hdef x hx
  rw [h, hdef y hy] at this
  exact (Option.some.inj this).symm

theorem ElidedSource.mono {vr vr' : VarRewrites} (hk : ∀ k, (vr.entries.lookup k).isSome → (vr'.entries.lookup k).isSome)
    {x y : String} (h : Relation.TransGen (ElidedSource prog ud vr) x y) :
    Relation.TransGen (ElidedSource prog ud vr') x y :=
  Relation.TransGen.mono (fun _ _ h => ⟨hk _ h.1, h.2⟩) h

theorem WalkInv.rewrites_append {done : List Nat} {ws : WalkState} (hi : WalkInv prog ud vars r P vr0 done ws)
    (u : Nat) : RewritesInv prog ud ws.varRewrites (fun e => Settled prog r P e ∨ e ∈ done ++ [u])
      (fun d => d ∈ P ∨ d ∈ done ++ [u]) :=
  hi.mono (fun _ => Or.imp_right (List.mem_append_left _)) (fun _ => Or.imp_right (List.mem_append_left _))

theorem WalkInv.localKeys_append {done : List Nat} {ws : WalkState} (hi : WalkInv prog ud vars r P vr0 done ws)
    (u : Nat) {k v : String} (hkv : (k, v) ∈ ws.localRewrites) : ∃ d ∈ done ++ [u], (prog.op d).output = k :=
  let ⟨d, hd, hk⟩ := hi.localKeys k v hkv
  ⟨d, List.mem_append_left _ hd, hk⟩

/-- A non-function of the set (the contraction root) is passed over. -/
theorem WalkInv.skip {done : List Nat} {ws : WalkState} {u : Nat} (hi : WalkInv prog ud vars r P vr0 done ws)
    (hf : (prog.op u).tag ≠ .function) : WalkInv prog ud vars r P vr0 (done ++ [u]) ws := by
  refine ⟨hi.rewrites_append u, hi.entries, fun k v => hi.localKeys_append u, fun p hp => ?_, fun o => ?_⟩
  · obtain ⟨o, ho, h⟩ := hi.reads p hp
    exact ⟨o, List.mem_append_left _ ho, h⟩
  · rw [hi.account o]
    congr 1
    simp only [List.mem_append, List.mem_singleton, exists_eq_or_imp, or_and_right, exists_or]
    simp [hf]

theorem lookup_cons_of_ne {l : List (String × String)} {a k b : String} (h : a ≠ k) :
    ((k, b) :: l).lookup a = l.lookup a := by
  simp [List.lookup_cons, beq_false_of_ne h]

theorem lookup_cons_isSome {l : List (String × String)} {a k b : String} (h : (l.lookup a).isSome) :
    (((k, b) :: l).lookup a).isSome := by
  by_cases hak : a = k
  · subst hak; simp
  · rwa [lookup_cons_of_ne hak]

/-- The target of an elided op is defined, if at all, by a settled or walked op before it. -/
theorem WalkInv.source_settled (hud : ud.Fits prog) (hm : Members prog vars r P ud U)
    {done : List Nat} {ws : WalkState} (hi : WalkInv prog ud vars r P vr0 done ws) {u : Nat} (hu : u ∈ U)
    (hcov : ∀ x ∈ U, x < u → x ∈ done) {in0 : String} (hin : in0 ∈ (prog.op u).inputs) :
    ∀ e, ud.opDefs (ws.varRewrites.lookup in0) = some e → (Settled prog r P e ∨ e ∈ done) ∧ e < u := by
  rw [VarRewrites.lookup_of_flat hi.flat]
  cases hl : ws.varRewrites.entries.lookup in0 with
  | some v =>
    obtain ⟨d, hd, -, -, hv⟩ := hi.entry in0 v (mem_of_lookup_eq_some hl)
    have hdu := hud.defBefore u in0 d hin hd
    exact fun e he => ⟨(hv e he).1, (hv e he).2.trans hdu⟩
  | none =>
    intro e he
    have heu := hud.defBefore u in0 e hin he
    refine ⟨?_, heu⟩
    by_cases her : e < r
    · exact .inl (.inl her)
    by_cases heP : e ∈ P
    · exact .inl (.inr (.inl heP))
    by_cases hec : (prog.op e).tag = .constant
    · exact .inl (.inr (.inr hec))
    have hur : u ≠ r := by rintro rfl; exact her heu
    exact .inr (hcov e (hm.closure hu hur hin he (not_lt.1 her) heP hec) heu)

/-- Walking a function `u` whose output no walked function has: the account of its output goes up
by one and every other account is unchanged. -/
theorem account_append {done : List Nat} {u : Nat} (hf : (prog.op u).tag = .function)
    (hnew : ¬ ∃ x ∈ done, (prog.op x).tag = .function ∧ (prog.op x).output = (prog.op u).output) (o : String) :
    (if ∃ x ∈ done ++ [u], (prog.op x).tag = .function ∧ (prog.op x).output = o then 1 else 0) =
      (if ∃ x ∈ done, (prog.op x).tag = .function ∧ (prog.op x).output = o then 1 else 0) +
        if (prog.op u).output = o then 1 else 0 := by
  by_cases ho : (prog.op u).output = o
  · subst ho
    rw [if_neg hnew, if_pos ⟨u, List.mem_append_right _ (List.mem_singleton_self u), hf, rfl⟩, if_pos rfl]
  · rw [if_neg ho, add_zero]
    congr 1
    simp only [List.mem_append, List.mem_singleton, exists_eq_or_imp, or_and_right, exists_or]
    simp [ho]

section Step

variable (hud : ud.Fits prog) (hdef : ∀ u < prog.ops.length, ud.opDefs (prog.op u).output = some u)
  (hdef' : ∀ v d, ud.opDefs v = some d → (prog.op d).output = v) (hr : r < prog.ops.length) (hrP : r ∉ P)
  (hm : Members prog vars r P ud U) {done : List Nat} {ws : WalkState}
  (hi : WalkInv prog ud vars r P vr0 done ws) {u : Nat} (hu : u ∈ U) (hdU : ∀ x ∈ done, x ∈ U)
  (hlt : ∀ x ∈ done, x < u) (hcov : ∀ x ∈ U, x < u → x ∈ done)
include hud hdef hr hm hi hu hdU hlt hcov

omit hcov in
theorem WalkInv.fresh_output : ws.localRewrites.lookup (prog.op u).output = none ∧
    ¬ ∃ x ∈ done, (prog.op x).tag = .function ∧ (prog.op x).output = (prog.op u).output := by
  have hun : u < prog.ops.length := ((hm.sound u hu).bounds hud hr).2
  have hne : ∀ x ∈ done, (prog.op x).output ≠ (prog.op u).output := fun x hx hxu =>
    (hlt x hx).ne (output_inj hdef (((hm.sound x (hdU x hx)).bounds hud hr).2) hun hxu)
  refine ⟨?_, fun ⟨x, hx, _, hxu⟩ => hne x hx hxu⟩
  cases hl : ws.localRewrites.lookup (prog.op u).output with
  | none => rfl
  | some v =>
    obtain ⟨d, hd, hdo⟩ := hi.localKeys _ v (mem_of_lookup_eq_some hl)
    exact absurd hdo (hne d hd)

include hrP in
/-- An elided op: its output is rewritten, globally and locally, to what its first input looks
up to. -/
theorem WalkInv.elide (hel : (prog.op u).Elidable) {in0 : String} {rest : List String}
    (hin : (prog.op u).inputs = in0 :: rest) :
    WalkInv prog ud vars r P vr0 (done ++ [u])
      ⟨ws.postOps, ((prog.op u).output, ws.varRewrites.lookup in0) :: ws.localRewrites,
        ws.postContractionInputs, ws.warSafeReads,
        ⟨((prog.op u).output, ws.varRewrites.lookup in0) :: ws.varRewrites.entries⟩⟩ := by
  have hbounds := (hm.sound u hu).bounds hud hr
  have hy : ud.opDefs (prog.op u).output = some u := hdef u hbounds.2
  have hw := hi.source_settled hud hm hu hcov (hin ▸ List.mem_cons_self in0 rest)
  obtain ⟨-, hnew⟩ := hi.fresh_output hud hdef hr hm hu hdU hlt
  have hunset : ¬ (Settled prog r P u ∨ u ∈ done) := by
    rintro ((h | h | h) | h)
    · omega
    · by_cases hur : u = r
      · exact hrP (hur ▸ h)
      · exact (hm.nonroot hu hur).1 h
    · rw [hel.1] at h; cases h
    · exact lt_irrefl u (hlt u h)
  have hwkey : ws.varRewrites.entries.lookup (ws.varRewrites.lookup in0) = none :=
    VarRewrites.lookup_lookup_none hi.flat in0
  have hwy : ws.varRewrites.lookup in0 ≠ (prog.op u).output := fun h => lt_irrefl u (hw u (h ▸ hy)).2
  have hvy : ∀ k v, (k, v) ∈ ws.varRewrites.entries → v ≠ (prog.op u).output := fun k v hkv h => by
    obtain ⟨d, -, -, -, hv⟩ := hi.entry k v hkv
    exact hunset (hv u (h ▸ hy)).1
  have hd : ∀ x ∈ done, x ∈ done ++ [u] := fun x hx => List.mem_append_left _ hx
  have hud' : u ∈ done ++ [u] := List.mem_append_right _ (List.mem_singleton_self u)
  have hmono : ∀ k, (ws.varRewrites.entries.lookup k).isSome →
      ((((prog.op u).output, ws.varRewrites.lookup in0) :: ws.varRewrites.entries).lookup k).isSome :=
    fun _ h => lookup_cons_isSome h
  refine ⟨⟨fun k v hkv => ?_, fun k v hkv => ?_, fun k v hkv => ?_⟩, by rw [hi.entries]; rfl,
    fun k v hkv => ?_, fun p hp => ?_, fun o => ?_⟩
  · rcases List.mem_cons.1 hkv with h | h
    · obtain ⟨rfl, rfl⟩ := Prod.mk.inj h
      exact (lookup_cons_of_ne hwy).trans hwkey
    · exact (lookup_cons_of_ne (hvy k v h)).trans (hi.flat k v h)
  · rcases List.mem_cons.1 hkv with h | h
    · obtain ⟨rfl, rfl⟩ := Prod.mk.inj h
      exact ⟨u, hy, .inr hud', hel, fun e he => ⟨(hw e he).1.imp_right (hd e), (hw e he).2⟩⟩
    · exact (hi.rewrites_append u).entry k v h
  · rcases List.mem_cons.1 hkv with h | h
    · obtain ⟨rfl, rfl⟩ := Prod.mk.inj h
      have hsrc : ElidedSource prog ud ⟨((prog.op u).output, ws.varRewrites.lookup in0) :: ws.varRewrites.entries⟩
          (prog.op u).output in0 := ⟨by simp, u, hy, by simp [hin]⟩
      cases hl : ws.varRewrites.entries.lookup in0 with
      | none =>
        have hw0 : ws.varRewrites.lookup in0 = in0 := by rw [VarRewrites.lookup_of_flat hi.flat, hl]; rfl
        rw [hw0] at hsrc ⊢
        exact .single hsrc
      | some v =>
        have hwv : ws.varRewrites.lookup in0 = v := by rw [VarRewrites.lookup_of_flat hi.flat, hl]; rfl
        have hch := ElidedSource.mono hmono (hi.chain in0 v (mem_of_lookup_eq_some hl))
        rw [hwv] at hsrc hch ⊢
        exact .head hsrc hch
    · exact ElidedSource.mono hmono (hi.chain k v h)
  · rcases List.mem_cons.1 hkv with h | h
    · exact ⟨u, hud', (Prod.mk.inj h).1.symm⟩
    · exact hi.localKeys_append u h
  · obtain ⟨o, ho, hf, hout, hins⟩ := hi.reads p hp
    refine ⟨o, hd o ho, hf, hout, fun n hn => ⟨(hins n hn).1, ?_, (hins n hn).2.2⟩⟩
    have hny : n ≠ (prog.op u).output := fun h => lt_asymm (hlt o ho) ((hins n hn).2.2 u hbounds.2 h.symm)
    exact (lookup_cons_of_ne hny).trans (hins n hn).2.1
  · rw [account_append hel.1 hnew, ← hi.account o]
    simp only [List.map_cons, List.count_cons, beq_iff_eq]
    omega

include hdef' in
/-- An emitted op: its copy, with the inputs rewritten through the local rewrites, joins the
post-ops, and the inputs it reads from outside the set join the post-op inputs. -/
theorem WalkInv.emit (hf : (prog.op u).tag = .function) :
    WalkInv prog ud vars r P vr0 (done ++ [u]) (emitPostOp ud vars U ws (prog.op u)) := by
  obtain ⟨-, hnew⟩ := hi.fresh_output hud hdef hr hm hu hdU hlt
  have hd : ∀ x ∈ done, x ∈ done ++ [u] := fun x hx => List.mem_append_left _ hx
  have hud' : u ∈ done ++ [u] := List.mem_append_right _ (List.mem_singleton_self u)
  have hsrc : ∀ n0 ∈ (prog.op u).inputs,
      (∀ e, ud.opDefs ((ws.localRewrites.lookup n0).getD n0) = some e → e < u) ∧
        ws.localRewrites.lookup ((ws.localRewrites.lookup n0).getD n0) = none := by
    intro n0 hn0
    cases hl : ws.localRewrites.lookup n0 with
    | none => exact ⟨fun e he => hud.defBefore u n0 e hn0 he, hl⟩
    | some w =>
      have hmem : (n0, w) ∈ ws.varRewrites.entries := by
        rw [hi.entries]; exact List.mem_append_left _ (mem_of_lookup_eq_some hl)
      obtain ⟨d, hd0, -, -, hv⟩ := hi.entry n0 w hmem
      have hdu := hud.defBefore u n0 d hn0 hd0
      refine ⟨fun e he => (hv e he).2.trans hdu, ?_⟩
      have hflat := hi.flat n0 w hmem
      rw [hi.entries, List.lookup_append] at hflat
      cases h' : ws.localRewrites.lookup w with
      | none => exact h'
      | some _ => simp [h'] at hflat
  refine ⟨hi.rewrites_append u, hi.entries, fun k v => hi.localKeys_append u, fun p hp => ?_, fun o => ?_⟩
  · simp only [emitPostOp, List.length_append, List.length_singleton] at hp ⊢
    rcases Nat.lt_or_ge p ws.postOps.length with hp' | hp'
    · obtain ⟨o, ho, hfo, hout, hins⟩ := hi.reads p hp'
      rw [List.getElem_append_left hp', List.take_append_of_le_length hp'.le]
      exact ⟨o, hd o ho, hfo, hout, fun n hn =>
        ⟨fun ht => ((hins n hn).1 ht).imp_left fun h => mem_nameInsertAll.2 (.inl h), (hins n hn).2⟩⟩
    · obtain rfl : p = ws.postOps.length := by omega
      simp only [List.getElem_concat_length, List.take_left']
      refine ⟨u, hud', hf, rfl, fun n hn => ?_⟩
      obtain ⟨n0, hn0, rfl⟩ := List.mem_map.1 hn
      obtain ⟨hbefore, hnl⟩ := hsrc n0 hn0
      refine ⟨fun ht => ?_, hnl, fun u' hu' hout' => hbefore u' (hout' ▸ hdef u' hu')⟩
      cases hdn : ud.opDefs ((ws.localRewrites.lookup n0).getD n0) with
      | none => exact .inl (mem_nameInsertAll.2 (.inr (List.mem_filter.2 ⟨hn, by simp [readsOutside, ht, hdn]⟩)))
      | some e =>
        by_cases heU : e ∈ U
        · have heo := hdef' _ e hdn
          have hed := hcov e heU (hbefore e hdn)
          by_cases hfe : (prog.op e).tag = .function
          · have hacc := hi.account ((ws.localRewrites.lookup n0).getD n0)
            have hex : ∃ x ∈ done, (prog.op x).tag = .function ∧
                (prog.op x).output = (ws.localRewrites.lookup n0).getD n0 := ⟨e, hed, hfe, heo⟩
            rw [if_pos hex, count_keys_of_lookup_none hnl, add_zero] at hacc
            exact .inr (.inr (List.count_pos_iff.1 (by omega)))
          · have her : e = r := by
              by_contra her
              exact hfe (hm.nonroot heU her).2.1
            exact .inr (.inl ⟨her ▸ heo.symm, her ▸ hfe⟩)
        · exact .inl (mem_nameInsertAll.2 (.inr (List.mem_filter.2 ⟨hn, by simp [readsOutside, ht, hdn, heU]⟩)))
  · rw [account_append hf hnew, ← hi.account o]
    simp only [emitPostOp, List.map_append, List.map_singleton, List.count_append, List.count_singleton, beq_iff_eq]
    omega

include hdef' hrP in
/-- One op of the walk keeps the invariant. -/
theorem WalkInv.step {ws' : WalkState} (h : unifyOp prog ud vars inputs outputs U ws u = .ok ws') :
    WalkInv prog ud vars r P vr0 (done ++ [u]) ws' := by
  rcases unifyOp_eq_ok h with ⟨hf, rfl⟩ | ⟨hel, in0, rest, hin, -, rfl⟩ | ⟨hf, rfl⟩
  · exact hi.skip hf
  · have hloc := (hi.fresh_output hud hdef hr hm hu hdU hlt).1
    have heq : mapEmplace ws.localRewrites (prog.op u).output (ws.varRewrites.lookup in0) =
        ((prog.op u).output, ws.varRewrites.lookup in0) :: ws.localRewrites := by
      simp [mapEmplace, hloc]
    have hins : ws.varRewrites.insert (prog.op u).output (ws.varRewrites.lookup in0) =
        ⟨((prog.op u).output, ws.varRewrites.lookup in0) :: ws.varRewrites.entries⟩ := by
      simp [VarRewrites.insert, VarRewrites.lookup_idem hi.flat]
    rw [heq, hins]
    exact hi.elide hud hdef hr hrP hm hu hdU hlt hcov hel hin
  · exact hi.emit hud hdef hdef' hr hm hu hdU hlt hcov hf

end Step

/-- The walk over the whole fused set, in ascending order, keeps the invariant, and with it any
property of walk states that each step keeps from a state satisfying the invariant. -/
theorem WalkInv.run_keep (hud : ud.Fits prog) (hdef : ∀ u < prog.ops.length, ud.opDefs (prog.op u).output = some u)
    (hdef' : ∀ v d, ud.opDefs v = some d → (prog.op d).output = v) (hr : r < prog.ops.length) (hrP : r ∉ P)
    (hm : Members prog vars r P ud U) (Q : WalkState → Prop)
    (hQ : ∀ {done : List Nat} {ws ws' : WalkState} {u : Nat}, u ∈ U → (∀ x ∈ done, x ∈ U) →
      WalkInv prog ud vars r P vr0 done ws → Q ws → unifyOp prog ud vars inputs outputs U ws u = .ok ws' → Q ws') :
    ∀ {rest done : List Nat} {ws ws' : WalkState}, U = done ++ rest → WalkInv prog ud vars r P vr0 done ws → Q ws →
      rest.foldlM (unifyOp prog ud vars inputs outputs U) ws = .ok ws' → WalkInv prog ud vars r P vr0 U ws' ∧ Q ws'
  | [], done, ws, ws', hU, hi, hq, h => by
    rw [List.append_nil] at hU
    cases h
    exact ⟨hU ▸ hi, hq⟩
  | u :: rest, done, ws, ws', hU, hi, hq, h => by
    rw [List.foldlM_cons] at h
    obtain ⟨ws1, h1, h2⟩ := except_bind_ok h
    have hs := hm.sorted
    rw [hU] at hs
    simp only [List.Sorted, List.pairwise_append, List.pairwise_cons] at hs
    have hu : u ∈ U := hU ▸ List.mem_append_right _ (List.mem_cons_self u rest)
    have hdU : ∀ x ∈ done, x ∈ U := fun x hx => hU ▸ List.mem_append_left _ hx
    have hlt : ∀ x ∈ done, x < u := fun x hx => hs.2.2 x hx u (List.mem_cons_self u rest)
    have hcov : ∀ x ∈ U, x < u → x ∈ done := by
      intro x hx hxu
      rw [hU, List.mem_append, List.mem_cons] at hx
      rcases hx with hx | rfl | hx
      · exact hx
      · exact absurd hxu (lt_irrefl x)
      · exact absurd (hs.2.1.1 x hx) (lt_asymm hxu)
    exact WalkInv.run_keep hud hdef hdef' hr hrP hm Q hQ (by rw [hU, List.append_assoc]; rfl)
      (hi.step hud hdef hdef' hr hrP hm hu hdU hlt hcov h1) (hQ hu hdU hi hq h1) h2

/-- The walk over the whole fused set, in ascending order, keeps the invariant. -/
theorem WalkInv.run (hud : ud.Fits prog) (hdef : ∀ u < prog.ops.length, ud.opDefs (prog.op u).output = some u)
    (hdef' : ∀ v d, ud.opDefs v = some d → (prog.op d).output = v) (hr : r < prog.ops.length) (hrP : r ∉ P)
    (hm : Members prog vars r P ud U) :
    ∀ {rest done : List Nat} {ws ws' : WalkState}, U = done ++ rest → WalkInv prog ud vars r P vr0 done ws →
      rest.foldlM (unifyOp prog ud vars inputs outputs U) ws = .ok ws' → WalkInv prog ud vars r P vr0 U ws' :=
  fun hU hi h => (WalkInv.run_keep hud hdef hdef' hr hrP hm (fun _ => True) (fun _ _ _ _ _ => trivial) hU hi trivial h).1

/-- The walk starts with no post-ops, no local rewrites and the driver's rewrites. -/
theorem WalkInv.start {wsr : List String} (hvr : RewritesInv prog ud vr0 (Settled prog r P) (· ∈ P)) :
    WalkInv prog ud vars r P vr0 [] ⟨[], [], [], wsr, vr0⟩ where
  toRewritesInv := hvr.mono (fun _ => .inl) (fun _ => .inl)
  entries := rfl
  localKeys _ _ h := absurd h (List.not_mem_nil _)
  reads _ hp := absurd hp (Nat.not_lt_zero _)
  account _ := by simp

/-- `DoUnification` of a flat contraction without post-ops is the walk over the fused set: the
kernel takes the walk's post-ops and post-op inputs, and the rewrites are the walk's. A predicate
`Q` that each op of the walk keeps holds at its end. -/
theorem doUnification_eq_ok_keep (hud : ud.Fits prog)
    (hdef : ∀ u < prog.ops.length, ud.opDefs (prog.op u).output = some u)
    (hdef' : ∀ v d, ud.opDefs v = some d → (prog.op d).output = v) (hr : r < prog.ops.length) (hrP : r ∉ P)
    (hvr : RewritesInv prog ud vr0 (Settled prog r P) (· ∈ P)) {flat flat' : FlatContraction}
    (hpo : flat.postOps = []) {wsr wsr' : List String} {P' : List Nat} {vr' : VarRewrites}
    {outPoly : List Polynomial} (Q : WalkState → Prop)
    (hQ : ∀ {done : List Nat} {ws ws' : WalkState} {u : Nat}, u ∈ connectedComponents prog vars r P ud →
      (∀ x ∈ done, x ∈ connectedComponents prog vars r P ud) → WalkInv prog ud vars r P vr0 done ws → Q ws →
      unifyOp prog ud vars inputs outputs (connectedComponents prog vars r P ud) ws u = .ok ws' → Q ws')
    (hQ0 : Q ⟨[], [], [], wsr, vr0⟩)
    (h : doUnification prog ud vars inputs outputs flat P vr0 wsr r outPoly = .ok (flat', P', vr', wsr')) :
    ∃ ws accs, WalkInv prog ud vars r P vr0 (connectedComponents prog vars r P ud) ws ∧ Q ws ∧
      postOpAccesses vars (vars flat.output).shape outPoly flat.names ws.postContractionInputs = .ok accs ∧
      flat' = { flat with
        postOps := ws.postOps
        kernelOutputs := flat.kernelOutputs ++
          kernelOutputs prog ud outputs (connectedComponents prog vars r P ud) (prog.op r).inputs ws.varRewrites
        postOpInputs := flat.postOpInputs ++ accs } ∧
      P' = setInsertAll P (connectedComponents prog vars r P ud) ∧ vr' = ws.varRewrites ∧ wsr' = ws.warSafeReads := by
  have hm : Members prog vars r P ud (connectedComponents prog vars r P ud) :=
    (connectedComponents_run hud hr).2.toMembers
  obtain ⟨ws, accs, hws, hacc, h⟩ := doUnification_spec h
  cases h
  rw [hpo] at hws
  obtain ⟨hw, hq⟩ := WalkInv.run_keep hud hdef hdef' hr hrP hm Q hQ (List.nil_append _).symm (WalkInv.start hvr) hQ0 hws
  exact ⟨ws, accs, hw, hq, hacc, rfl, rfl, rfl, rfl⟩

theorem doUnification_eq_ok (hud : ud.Fits prog) (hdef : ∀ u < prog.ops.length, ud.opDefs (prog.op u).output = some u)
    (hdef' : ∀ v d, ud.opDefs v = some d → (prog.op d).output = v) (hr : r < prog.ops.length) (hrP : r ∉ P)
    (hvr : RewritesInv prog ud vr0 (Settled prog r P) (· ∈ P)) {flat flat' : FlatContraction}
    (hpo : flat.postOps = []) {wsr wsr' : List String} {P' : List Nat} {vr' : VarRewrites}
    {outPoly : List Polynomial}
    (h : doUnification prog ud vars inputs outputs flat P vr0 wsr r outPoly = .ok (flat', P', vr', wsr')) :
    ∃ ws accs, WalkInv prog ud vars r P vr0 (connectedComponents prog vars r P ud) ws ∧
      postOpAccesses vars (vars flat.output).shape outPoly flat.names ws.postContractionInputs = .ok accs ∧
      flat' = { flat with
        postOps := ws.postOps
        kernelOutputs := flat.kernelOutputs ++
          kernelOutputs prog ud outputs (connectedComponents prog vars r P ud) (prog.op r).inputs ws.varRewrites
        postOpInputs := flat.postOpInputs ++ accs } ∧
      P' = setInsertAll P (connectedComponents prog vars r P ud) ∧ vr' = ws.varRewrites ∧ wsr' = ws.warSafeReads :=
  let ⟨ws, accs, hw, _, h⟩ := doUnification_eq_ok_keep hud hdef hdef' hr hrP hvr hpo (fun _ => True)
    (fun _ _ _ _ _ => trivial) trivial h
  ⟨ws, accs, hw, h⟩

end WalkInv

end TileGen
