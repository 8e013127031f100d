/-
`SimplifyFlat` and the loop `while (SimplifyFlat(&flat)) {}` of `ContractionWrap`. One call
folds the first pair `(i, j)`, `i` outer, whose output strides nest (`strides[i] ==
ranges[j] * strides[j]`, both nonzero) and that every other access and post-op input takes with
the output's strides, into `j`, dropping `i`. The loop stops after at most one merge per index,
and then no pair merges. `is_safe` computes `both_zeros` but returns `perfect_match ||
perfect_match`, so a pair an access ignores, as a broadcast scalar does, stays apart. Merged
names are `names[i] + "_" + names[j]`: distinct names can collide (`a`, `b`, `a_b`), but the part
of a name before its first `_` survives a merge.
-/
import TileGen.Flat.Basic

namespace TileGen

/-! ## Lists -/

section Lists

variable {α β : Type}

theorem getD_of_lt {l : List α} {i : Nat} (d : α) (h : i < l.length) : l.getD i d = l[i] := by
  simp [List.getElem?_eq_getElem h]

theorem map_eraseIdx (f : α → β) : ∀ (l : List α) (i : Nat), (l.eraseIdx i).map f = (l.map f).eraseIdx i
  | [], _ => rfl
  | _ :: _, 0 => rfl
  | a :: l, i + 1 => by simp [map_eraseIdx f l i]

theorem eraseIdx_set_self (x : α) : ∀ (l : List α) (j : Nat), (l.set j x).eraseIdx j = l.eraseIdx j
  | [], _ => rfl
  | _ :: _, 0 => rfl
  | a :: l, j + 1 => by simp [eraseIdx_set_self x l j]

theorem perm_cons_eraseIdx {l : List α} {i : Nat} (h : i < l.length) : l.Perm (l[i] :: l.eraseIdx i) := by
  have hl : l = l.take i ++ l[i] :: l.drop (i + 1) := by
    rw [← List.drop_eq_getElem_cons h, List.take_append_drop]
  conv_lhs => rw [hl]
  rw [List.eraseIdx_eq_take_drop_succ]
  exact List.perm_middle

/-- Setting position `j` and dropping position `i ≠ j` trades `l[i]` and `l[j]` for the new value. -/
theorem set_eraseIdx_perm [DecidableEq α] {l : List α} {i j : Nat} (hi : i < l.length) (hj : j < l.length)
    (hij : i ≠ j) (x : α) : ∃ R, l.Perm (l[i] :: l[j] :: R) ∧ ((l.set j x).eraseIdx i).Perm (x :: R) := by
  have hmem : l[i] ∈ l.eraseIdx j := List.mem_eraseIdx_iff_getElem.2 ⟨i, hi, hij, rfl⟩
  refine ⟨(l.eraseIdx j).erase l[i], ?_, ?_⟩
  · exact (perm_cons_eraseIdx hj).trans (((List.perm_cons_erase hmem).cons _).trans (List.Perm.swap _ _ _))
  · have h1 := perm_cons_eraseIdx (l := l.set j x) (i := i) (by simpa using hi)
    have h2 := perm_cons_eraseIdx (l := l.set j x) (i := j) (by simpa using hj)
    rw [List.getElem_set_ne (Ne.symm hij)] at h1
    rw [List.getElem_set_self, eraseIdx_set_self] at h2
    have h3 := h1.symm.trans (h2.trans (((List.perm_cons_erase hmem).cons x).trans (List.Perm.swap _ _ _)))
    exact (List.perm_cons _).1 h3

end Lists

/-! ## The model -/

/-- `is_safe`: the access takes the output's strides along both indices. The source computes
`both_zeros` too, but returns `perfect_match || perfect_match`. -/
def isSafe (rd : Reading) (i j : Nat) (iStride jStride : Int) (a : FlatTensorAccess) : Bool :=
  let perfectMatch := rd.word (a.strides.getD i 0) == iStride && rd.word (a.strides.getD j 0) == jStride
  perfectMatch || perfectMatch

/-- The body of the inner loop for the pair `(i, j)`: whether it merges `i` into `j`. -/
def canMerge (rd : Reading) (flat : FlatContraction) (i j : Nat) : Bool :=
  let iStride := rd.word (flat.out.strides.getD i 0)
  let jStride := rd.word (flat.out.strides.getD j 0)
  iStride != 0 && jStride != 0 && iStride == rd.word (flat.ranges.getD j 0 * jStride) &&
    (flat.access.drop 1).all (isSafe rd i j iStride jStride) &&
    flat.postOpInputs.all fun p => isSafe rd i j iStride jStride p.2

/-- `fixup`: drop index `i` from an access. -/
def FlatTensorAccess.dropIndex (i : Nat) (a : FlatTensorAccess) : FlatTensorAccess :=
  { a with strides := a.strides.eraseIdx i }

/-- Folding index `i` into index `j`: rename `j`, multiply its range by `i`'s, drop `i`. -/
def mergeIndexes (rd : Reading) (flat : FlatContraction) (i j : Nat) : FlatContraction :=
  { flat with
    names := (flat.names.set j (flat.names.getD i "" ++ "_" ++ flat.names.getD j "")).eraseIdx i
    ranges := (flat.ranges.set j (rd.nat (flat.ranges.getD j 0 * flat.ranges.getD i 0))).eraseIdx i
    access := flat.access.map (FlatTensorAccess.dropIndex i)
    postOpInputs := flat.postOpInputs.map fun p => (p.1, p.2.dropIndex i) }

/-- The pairs `(i, j)` in the order the two loops visit them. -/
def indexPairs (sz : Nat) : List (Nat × Nat) := (List.range sz).flatMap fun i => (List.range sz).map (i, ·)

/-- `SimplifyFlat`: `some` the merged flat contraction (`return true`), or `none` when there
are constraints or no pair merges (`return false`). -/
def simplifyFlat (rd : Reading) (flat : FlatContraction) : Option FlatContraction :=
  if flat.constraints.length > 0 then none
  else ((indexPairs flat.ranges.length).find? fun p => canMerge rd flat p.1 p.2).map
    fun p => mergeIndexes rd flat p.1 p.2

/-- The loop, on fuel. -/
def simplifyLoop (rd : Reading) : Nat → FlatContraction → FlatContraction
  | 0, flat => flat
  | fuel + 1, flat =>
    match simplifyFlat rd flat with
    | none => flat
    | some flat' => simplifyLoop rd fuel flat'

/-- `while (SimplifyFlat(&flat)) {}`: one round more than there are indices (see
`simplifyFlatLoop_steps`: the loop never reaches the bound). -/
def simplifyFlatLoop (rd : Reading) (flat : FlatContraction) : FlatContraction :=
  simplifyLoop rd (flat.ranges.length + 1) flat

/-! ## One merge -/

theorem simplifyFlat_eq_some {rd : Reading} {flat flat' : FlatContraction} (h : simplifyFlat rd flat = some flat') :
    flat.constraints = [] ∧ ∃ i j, i < flat.ranges.length ∧ j < flat.ranges.length ∧
      canMerge rd flat i j = true ∧ flat' = mergeIndexes rd flat i j := by
  unfold simplifyFlat at h
  split_ifs at h with hc
  obtain ⟨p, hf, rfl⟩ := Option.map_eq_some'.1 h
  have hm := List.mem_of_find?_eq_some hf
  have hp := List.find?_some hf
  simp only [indexPairs, List.mem_flatMap, List.mem_range, List.mem_map] at hm
  obtain ⟨i, hi, j, hj, rfl⟩ := hm
  exact ⟨List.eq_nil_of_length_eq_zero (by omega), i, j, hi, hj, hp, rfl⟩

/-- On exact integers, a merge of `(i, j)` means: the output's stride along `i` is `ranges[j]`
times its nonzero stride along `j`, and every access and post-op input takes both strides. -/
theorem canMerge_exact {flat : FlatContraction} {i j : Nat} (h : canMerge .exact flat i j = true) :
    flat.out.strides.getD i 0 ≠ 0 ∧ flat.out.strides.getD j 0 ≠ 0 ∧
      flat.out.strides.getD i 0 = flat.ranges.getD j 0 * flat.out.strides.getD j 0 ∧
      ∀ a ∈ flat.access ++ flat.postOpInputs.map (·.2),
        a.strides.getD i 0 = flat.out.strides.getD i 0 ∧ a.strides.getD j 0 = flat.out.strides.getD j 0 := by
  simp only [canMerge, isSafe, Reading.exact_word, Bool.or_self, Bool.and_eq_true, bne_iff_ne, ne_eq,
    beq_iff_eq, List.all_eq_true] at h
  obtain ⟨⟨⟨⟨hi, hj⟩, hij⟩, hacc⟩, hpost⟩ := h
  refine ⟨hi, hj, hij, fun a ha => ?_⟩
  rcases List.mem_append.1 ha with ha | ha
  · cases hacc' : flat.access with
    | nil => simp [hacc'] at ha
    | cons b rest =>
      rw [hacc'] at ha hacc
      rcases List.mem_cons.1 ha with rfl | ha
      · simp [FlatContraction.out, hacc']
      · exact hacc a (by simpa using ha)
  · obtain ⟨p, hp, rfl⟩ := List.mem_map.1 ha
    exact hpost p hp

theorem simplifyFlat_ranges_length {rd : Reading} {flat flat' : FlatContraction}
    (h : simplifyFlat rd flat = some flat') : flat'.ranges.length + 1 = flat.ranges.length := by
  obtain ⟨-, i, j, hi, -, -, rfl⟩ := simplifyFlat_eq_some h
  simp only [mergeIndexes]
  rw [List.length_eraseIdx_of_lt (by simpa using hi), List.length_set]
  omega

/-- A merge keeps every stride vector at one entry per index. -/
theorem simplifyFlat_wf {rd : Reading} {flat flat' : FlatContraction} (hw : flat.WF)
    (h : simplifyFlat rd flat = some flat') : flat'.WF := by
  obtain ⟨-, i, j, hi, -, -, rfl⟩ := simplifyFlat_eq_some h
  have hn := hw.ranges
  have hnames : (mergeIndexes rd flat i j).names.length = flat.names.length - 1 := by
    simp only [mergeIndexes]
    rw [List.length_eraseIdx_of_lt (by simp; omega), List.length_set]
  refine ⟨?_, fun a ha => ?_, fun p hp => ?_⟩
  · simp only [mergeIndexes] at hnames ⊢
    rw [hnames, List.length_eraseIdx_of_lt (by simpa using hi), List.length_set, hn]
  · obtain ⟨b, hb, rfl⟩ := List.mem_map.1 ha
    have := hw.access b hb
    rw [hnames, FlatTensorAccess.dropIndex, List.length_eraseIdx_of_lt (by omega), this]
  · obtain ⟨q, hq, rfl⟩ := List.mem_map.1 hp
    have := hw.postOpInputs q hq
    rw [hnames, FlatTensorAccess.dropIndex, List.length_eraseIdx_of_lt (by omega), this]

/-- What a merge leaves alone: an access without its strides. -/
def FlatTensorAccess.frame (a : FlatTensorAccess) : Nat × Nat × Int × Nat := (a.type, a.vector, a.offset, a.globalIndexLimit)

theorem simplifyFlat_frame {rd : Reading} {flat flat' : FlatContraction} (h : simplifyFlat rd flat = some flat') :
    flat'.access.map (·.frame) = flat.access.map (·.frame) ∧
      flat'.postOpInputs.map (fun p => (p.1, p.2.frame)) = flat.postOpInputs.map (fun p => (p.1, p.2.frame)) ∧
      flat'.constraints = flat.constraints := by
  obtain ⟨-, i, j, -, -, -, rfl⟩ := simplifyFlat_eq_some h
  simp [mergeIndexes, FlatTensorAccess.dropIndex, FlatTensorAccess.frame, Function.comp]

/-! ## The loop -/

/-- `k` successful calls lead from one flat contraction to another. -/
inductive MergeSteps (rd : Reading) : FlatContraction → FlatContraction → Nat → Prop
  | refl (flat : FlatContraction) : MergeSteps rd flat flat 0
  | step {flat flat' flat'' : FlatContraction} {k : Nat} :
      simplifyFlat rd flat = some flat' → MergeSteps rd flat' flat'' k → MergeSteps rd flat flat'' (k + 1)

/-- What every merge keeps is kept by every run of merges. -/
theorem MergeSteps.induct_inv {rd : Reading} (P : FlatContraction → Prop)
    (hP : ∀ f f', P f → simplifyFlat rd f = some f' → P f') {flat flat' : FlatContraction} {k : Nat}
    (h : MergeSteps rd flat flat' k) (h0 : P flat) : P flat' := by
  induction h with
  | refl => exact h0
  | step hs _ ih => exact ih (hP _ _ h0 hs)

/-- The loop stops because `SimplifyFlat` answers false, after at most one merge per index. -/
theorem simplifyLoop_steps (rd : Reading) : ∀ (fuel : Nat) (flat : FlatContraction), flat.ranges.length < fuel →
    ∃ k ≤ flat.ranges.length, MergeSteps rd flat (simplifyLoop rd fuel flat) k ∧
      simplifyFlat rd (simplifyLoop rd fuel flat) = none
  | 0, _, h => absurd h (Nat.not_lt_zero _)
  | fuel + 1, flat, h => by
    simp only [simplifyLoop]
    rcases hs : simplifyFlat rd flat with _ | flat'
    · exact ⟨0, Nat.zero_le _, .refl _, hs⟩
    · have hl := simplifyFlat_ranges_length hs
      obtain ⟨k, hk, hsteps, hnone⟩ := simplifyLoop_steps rd fuel flat' (by omega)
      exact ⟨k + 1, by omega, .step hs hsteps, hnone⟩

theorem simplifyFlatLoop_steps (rd : Reading) (flat : FlatContraction) :
    ∃ k ≤ flat.ranges.length, MergeSteps rd flat (simplifyFlatLoop rd flat) k ∧
      simplifyFlat rd (simplifyFlatLoop rd flat) = none :=
  simplifyLoop_steps rd _ flat (Nat.lt_succ_self _)

/-- `SimplifyFlat` answering false on a constraint-free contraction: no pair of indices merges. -/
theorem simplifyFlat_eq_none {rd : Reading} {flat : FlatContraction} (h : simplifyFlat rd flat = none)
    (hc : flat.constraints = []) :
    ∀ i < flat.ranges.length, ∀ j < flat.ranges.length, canMerge rd flat i j = false := by
  intro i hi j hj
  simp only [simplifyFlat, hc, List.length_nil, gt_iff_lt, Nat.lt_irrefl, if_false, Option.map_eq_none'] at h
  simpa using List.find?_eq_none.1 h (i, j) (by simp [indexPairs, hi, hj])

/-- Where the loop stops on a constraint-free contraction, no pair of indices merges. -/
theorem simplifyFlatLoop_maximal (rd : Reading) (flat : FlatContraction) (hc : flat.constraints = []) :
    ∀ i < (simplifyFlatLoop rd flat).ranges.length, ∀ j < (simplifyFlatLoop rd flat).ranges.length,
      canMerge rd (simplifyFlatLoop rd flat) i j = false := by
  obtain ⟨k, -, hsteps, hnone⟩ := simplifyFlatLoop_steps rd flat
  exact simplifyFlat_eq_none hnone
    (hsteps.induct_inv (·.constraints = []) (fun _ _ h hs => (simplifyFlat_frame hs).2.2.trans h) hc)

/-! ## The rule with `both_zeros` -/

/-- `is_safe` with both halves it computes, `perfect_match || both_zeros`, on exact integers: the
access takes the output's strides along both indices, or ignores both. -/
def isSafeBoth (i j : Nat) (iStride jStride : Int) (a : FlatTensorAccess) : Bool :=
  let perfectMatch := a.strides.getD i 0 == iStride && a.strides.getD j 0 == jStride
  let bothZeros := a.strides.getD i 0 == 0 && a.strides.getD j 0 == 0
  perfectMatch || bothZeros

/-- The merge test of `SimplifyFlat` with `isSafeBoth` for `is_safe`, on exact integers. -/
def canMergeBoth (flat : FlatContraction) (i j : Nat) : Bool :=
  let iStride := flat.out.strides.getD i 0
  let jStride := flat.out.strides.getD j 0
  iStride != 0 && jStride != 0 && iStride == flat.ranges.getD j 0 * jStride &&
    (flat.access.drop 1).all (isSafeBoth i j iStride jStride) &&
    flat.postOpInputs.all fun p => isSafeBoth i j iStride jStride p.2

/-- An elementwise kernel over a row-major `[4, 4]` output that also reads a scalar, whose access
ignores both indices. -/
def broadcastFlat : FlatContraction :=
  { names := ["i1", "i2"], ranges := [4, 4],
    access := [{ strides := [4, 1], globalIndexLimit := 16 }, { strides := [0, 0], globalIndexLimit := 1 }] }

/-- The loop leaves `i1` and `i2` apart, although with `both_zeros` they merge. -/
theorem simplifyFlatLoop_keeps_broadcast_pair :
    broadcastFlat.constraints = [] ∧ broadcastFlat.WF ∧
      simplifyFlatLoop .sizeT broadcastFlat = broadcastFlat ∧ canMergeBoth broadcastFlat 0 1 = true :=
  ⟨rfl, ⟨rfl, by decide, by decide⟩, by decide, by decide⟩

/-! ## Names -/

/-- The part of a name before its first `_`. -/
def nameHead (s : String) : List Char := s.data.takeWhile (· ≠ '_')

theorem nameHead_merge (a b : String) : nameHead (a ++ "_" ++ b) = nameHead a := by
  have key : ∀ (p : Char → Bool) (l m : List Char), p '_' = false → (l ++ '_' :: m).takeWhile p = l.takeWhile p := by
    intro p l m hp
    induction l with
    | nil => simp [List.takeWhile_cons, hp]
    | cons c l ih => simp only [List.cons_append, List.takeWhile_cons, ih]
  have : (a ++ "_" ++ b).data = a.data ++ '_' :: b.data := by simp [String.data_append]
  rw [nameHead, nameHead, this, key _ _ _ (by decide)]

/-- A merge keeps the first parts of the names pairwise distinct. -/
theorem simplifyFlat_heads_nodup {rd : Reading} {flat flat' : FlatContraction} (hw : flat.WF)
    (hn : (flat.names.map nameHead).Nodup) (h : simplifyFlat rd flat = some flat') :
    (flat'.names.map nameHead).Nodup := by
  obtain ⟨-, i, j, hi, hj, -, rfl⟩ := simplifyFlat_eq_some h
  rw [hw.ranges] at hi hj
  have hi' : i < (flat.names.map nameHead).length := by simpa using hi
  have hj' : j < (flat.names.map nameHead).length := by simpa using hj
  simp only [mergeIndexes, map_eraseIdx, List.map_set, nameHead_merge, getD_of_lt "" hi]
  have hx : nameHead flat.names[i] = (flat.names.map nameHead)[i] := by simp
  rw [hx]
  by_cases hij : i = j
  · subst hij
    rw [eraseIdx_set_self]
    exact hn.sublist (List.eraseIdx_sublist _ _)
  · obtain ⟨R, h1, h2⟩ := set_eraseIdx_perm hi' hj' hij ((flat.names.map nameHead)[i])
    have h3 := h1.nodup_iff.1 hn
    exact h2.nodup_iff.2 (List.nodup_cons.2 ⟨fun hm => (List.nodup_cons.1 h3).1 (List.mem_cons_of_mem _ hm),
      (List.nodup_cons.1 (List.nodup_cons.1 h3).2).2⟩)

/-- Names whose parts before the first `_` differ stay pairwise distinct, with those parts,
after each successful `SimplifyFlat` and after the whole loop, whichever way strides are read. -/
theorem simplifyFlat_names_distinct (rd : Reading) (flat : FlatContraction) (hw : flat.WF)
    (hn : (flat.names.map nameHead).Nodup) :
    (∀ flat', simplifyFlat rd flat = some flat' → flat'.names.Nodup ∧ (flat'.names.map nameHead).Nodup) ∧
      (simplifyFlatLoop rd flat).names.Nodup ∧ ((simplifyFlatLoop rd flat).names.map nameHead).Nodup := by
  have step : ∀ f f', (f.WF ∧ (f.names.map nameHead).Nodup) → simplifyFlat rd f = some f' →
      f'.WF ∧ (f'.names.map nameHead).Nodup :=
    fun f f' hf hs => ⟨simplifyFlat_wf hf.1 hs, simplifyFlat_heads_nodup hf.1 hf.2 hs⟩
  obtain ⟨k, -, hsteps, -⟩ := simplifyFlatLoop_steps rd flat
  have hloop := hsteps.induct_inv _ step ⟨hw, hn⟩
  exact ⟨fun f' hs => ⟨(step _ _ ⟨hw, hn⟩ hs).2.of_map _, (step _ _ ⟨hw, hn⟩ hs).2⟩, hloop.2.of_map _, hloop.2⟩

/-- An elementwise kernel over a row-major `[4, 4]` tensor: `i1` nests over `i2`. -/
def rowMajorFlat : FlatContraction :=
  { names := ["i1", "i2"], ranges := [4, 4], access := [{ strides := [4, 1], globalIndexLimit := 16 }] }

theorem rowMajorFlat_names_distinct :
    rowMajorFlat.WF ∧ (rowMajorFlat.names.map nameHead).Nodup ∧
      (∀ flat', simplifyFlat .sizeT rowMajorFlat = some flat' →
        flat'.names.Nodup ∧ (flat'.names.map nameHead).Nodup) ∧
      (simplifyFlatLoop .sizeT rowMajorFlat).names.Nodup ∧
      ((simplifyFlatLoop .sizeT rowMajorFlat).names.map nameHead).Nodup :=
  have hw : rowMajorFlat.WF := ⟨rfl, by decide, by decide⟩
  have hn : (rowMajorFlat.names.map nameHead).Nodup := by decide
  ⟨hw, hn, simplifyFlat_names_distinct .sizeT rowMajorFlat hw hn⟩

/-- Indices `a`, `b` and `a_b`, where `a` (range 2, stride 3) nests over `b` (range 3, stride 1). -/
def collidingFlat : FlatContraction :=
  { names := ["a", "b", "a_b"], ranges := [2, 3, 5], access := [{ strides := [3, 1, 6], globalIndexLimit := 30 }] }

/-- Distinct names do not stay distinct: merging `a` into `b` renames `b` to the existing `a_b`. -/
theorem simplifyFlat_names_collide :
    collidingFlat.constraints = [] ∧ collidingFlat.WF ∧ collidingFlat.names.Nodup ∧
      (simplifyFlat .sizeT collidingFlat).map (·.names) = some ["a_b", "a_b"] ∧ ¬ ["a_b", "a_b"].Nodup :=
  ⟨rfl, ⟨rfl, by decide, by decide⟩, by decide, rfl, by decide⟩

end TileGen
