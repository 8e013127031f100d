/-
The flattening loop preserves the meaning of a constraint-free flat contraction: it stops
after at most one merge per index, keeps one stride per index in every access and post-op
input, leaves offsets, vector widths, types and limits alone, and touches the same multiset of
address tuples over the index space.

The index space is read by columns here: each index is its range together with the stride
every access takes along it, and the address tuples are a product over the columns, so they do
not depend on the order of the columns (`spaceTuples_perm`). A merge of `(i, j)` replaces two
columns whose strides nest, `col_i = ranges[j] · col_j`, by one column of range
`ranges[i] · ranges[j]`: the mixed-radix numbering `ranges[j] · x_i + x_j` of
`[0, ranges[i] · ranges[j])` (`spaceTuples_merge`). When `i = j` the nesting forces
`ranges[i] = 1`, and a column of range one contributes nothing (`spaceTuples_range_one`).
-/
import TileGen.Flat.Simplify
import Mathlib.Tactic.Ring

namespace TileGen

/-! ## Columns -/

/-- The index space by columns: each range with the stride every row takes along it. -/
def columns : List Nat → List (List Int) → List (Nat × List Int)
  | [], _ => []
  | r :: rs, ss => (r, ss.map (·.headD 0)) :: columns rs (ss.map (·.tail))

/-- The offsets moved `y` steps along a column. -/
def shiftBy : List Int → List Int → Nat → List Int
  | o :: os, c, y => (o + c.headD 0 * y) :: shiftBy os c.tail y
  | [], _, _ => []

/-- The address tuples of a column space from the given offsets, with multiplicity. -/
def spaceTuples : List Int → List (Nat × List Int) → Multiset (List Int)
  | offs, [] => {offs}
  | offs, (r, c) :: cs => (Multiset.range r).bind fun y => spaceTuples (shiftBy offs c y) cs

theorem shiftBy_zero : ∀ (offs c : List Int), shiftBy offs c 0 = offs
  | [], _ => rfl
  | o :: os, c => by simp [shiftBy, shiftBy_zero os c.tail]

theorem shiftBy_comm : ∀ (offs c d : List Int) (a b : Nat),
    shiftBy (shiftBy offs c a) d b = shiftBy (shiftBy offs d b) c a
  | [], _, _, _, _ => rfl
  | o :: os, c, d, a, b => by simp only [shiftBy, shiftBy_comm os c.tail d.tail a b]; congr 1; ring

theorem shiftBy_nest (r a b : Nat) : ∀ (offs c : List Int),
    shiftBy (shiftBy offs (c.map ((r : Int) * ·)) a) c b = shiftBy offs c (r * a + b)
  | [], _ => rfl
  | o :: os, [] => by
    have ih := shiftBy_nest r a b os []
    simp only [List.map_nil] at ih
    simp [shiftBy, ih]
  | o :: os, t :: c => by
    simp only [shiftBy, List.map_cons, List.headD_cons, List.tail_cons, shiftBy_nest r a b os c]
    congr 1; push_cast; ring

theorem spaceTuples_perm {cs cs' : List (Nat × List Int)} (h : cs.Perm cs') :
    ∀ offs, spaceTuples offs cs = spaceTuples offs cs' := by
  induction h with
  | nil => intro; rfl
  | cons p _ ih => intro offs; obtain ⟨r, c⟩ := p; simp only [spaceTuples, ih]
  | swap p q l =>
    intro offs; obtain ⟨r, c⟩ := p; obtain ⟨s, d⟩ := q
    simp only [spaceTuples]
    rw [Multiset.bind_bind]
    simp only [shiftBy_comm]
  | trans _ _ ih1 ih2 => intro offs; exact (ih1 offs).trans (ih2 offs)

theorem spaceTuples_range_one (offs c : List Int) (cs : List (Nat × List Int)) :
    spaceTuples offs ((1, c) :: cs) = spaceTuples offs cs := by
  simp [spaceTuples, shiftBy_zero]

/-- Two nested columns are one column of the product range. -/
theorem spaceTuples_merge (offs c : List Int) (ri rj : Nat) (cs : List (Nat × List Int)) :
    spaceTuples offs ((ri, c.map ((rj : Int) * ·)) :: (rj, c) :: cs) = spaceTuples offs ((rj * ri, c) :: cs) := by
  simp only [spaceTuples, shiftBy_nest]
  rw [← bind_range_mixed_swap, Multiset.bind_assoc]
  simp only [Multiset.bind_map]

/-! ## From index points to columns -/

/-- The accesses as rows of an offset and strides; post-op inputs sit at offset zero. -/
def FlatContraction.rows (flat : FlatContraction) : List (Int × List Int) :=
  flat.access.map (fun a => (a.offset, a.strides)) ++ flat.postOpInputs.map (fun p => (0, p.2.strides))

theorem dot_cons_headD (s : List Int) (y : Nat) (x : List Nat) : dot s (y :: x) = s.headD 0 * y + dot s.tail x := by
  cases s <;> simp

theorem shiftBy_rows (y : Nat) : ∀ rows : List (Int × List Int),
    shiftBy (rows.map (·.1)) (rows.map (·.2.headD 0)) y = rows.map fun a : Int × List Int => a.1 + a.2.headD 0 * (y : Int)
  | [] => rfl
  | a :: rows => by simp only [List.map_cons, shiftBy, List.headD_cons, List.tail_cons, shiftBy_rows y rows]

theorem tuples_eq_spaceTuples : ∀ (rs : List Nat) (rows : List (Int × List Int)),
    (((boxPoints rs).map fun x => rows.map fun a => a.1 + dot a.2 x : List (List Int)) : Multiset (List Int)) =
      spaceTuples (rows.map (·.1)) (columns rs (rows.map (·.2)))
  | [], rows => by simp [boxPoints, spaceTuples, columns]
  | r :: rs, rows => by
    have step : ∀ y, (((boxPoints rs).map fun x => rows.map fun a => a.1 + dot a.2 (y :: x) : List (List Int)) :
        Multiset (List Int)) = spaceTuples (shiftBy (rows.map (·.1)) (rows.map (·.2.headD 0)) y)
          (columns rs (rows.map (·.2.tail))) := by
      intro y
      have := tuples_eq_spaceTuples rs (rows.map fun a => (a.1 + a.2.headD 0 * y, a.2.tail))
      simp only [List.map_map, Function.comp_def, dot_cons_headD, add_assoc] at this ⊢
      rw [this, shiftBy_rows]
    simp only [boxPoints, columns, spaceTuples, List.map_flatMap, List.map_map, Function.comp_def]
    rw [← Multiset.coe_bind]
    congr 1
    funext y
    rw [← step y]

theorem addrTuples_eq_spaceTuples (flat : FlatContraction) :
    addrTuples flat = spaceTuples (flat.rows.map (·.1)) (columns flat.ranges (flat.rows.map (·.2))) := by
  rw [← tuples_eq_spaceTuples, addrTuples]
  congr 1
  apply List.map_congr_left
  intro x _
  simp [addrTuple, FlatContraction.rows, Function.comp_def]

/-! ## Columns under a merge -/

theorem columns_length : ∀ (rs : List Nat) (ss : List (List Int)), (columns rs ss).length = rs.length
  | [], _ => rfl
  | _ :: rs, ss => by simp [columns, columns_length rs]

theorem columns_getElem : ∀ (rs : List Nat) (ss : List (List Int)) (j : Nat) (h : j < rs.length)
    (hc : j < (columns rs ss).length), (columns rs ss)[j] = (rs[j], ss.map (·.getD j 0))
  | [], _, _, h, _ => absurd h (Nat.not_lt_zero _)
  | r :: rs, ss, 0, _, _ => by
    simp only [columns, List.getElem_cons_zero, Prod.mk.injEq, true_and]
    apply List.map_congr_left; intro s _; cases s <;> rfl
  | r :: rs, ss, j + 1, h, _ => by
    simp only [columns, List.getElem_cons_succ, columns_getElem rs _ j (by simpa using h) (by simpa [columns_length] using h), List.map_map,
      Prod.mk.injEq, true_and]
    apply List.map_congr_left; intro s _; cases s <;> simp

theorem columns_set : ∀ (rs : List Nat) (ss : List (List Int)) (j : Nat) (v : Nat),
    columns (rs.set j v) ss = (columns rs ss).set j (v, ss.map (·.getD j 0))
  | [], _, _, _ => rfl
  | r :: rs, ss, 0, v => by
    simp only [columns, List.set_cons_zero, List.cons.injEq, Prod.mk.injEq, true_and, and_true]
    apply List.map_congr_left; intro s _; cases s <;> rfl
  | r :: rs, ss, j + 1, v => by
    simp only [columns, List.set_cons_succ, columns_set rs _ j v, List.map_map, List.cons.injEq, true_and]
    congr 2
    apply List.map_congr_left; intro s _; cases s <;> simp

theorem columns_eraseIdx : ∀ (rs : List Nat) (ss : List (List Int)) (i : Nat),
    columns (rs.eraseIdx i) (ss.map (·.eraseIdx i)) = (columns rs ss).eraseIdx i
  | [], _, _ => rfl
  | r :: rs, ss, 0 => by
    simp only [List.eraseIdx_cons_zero, columns]
    congr 1; simp only [List.map_inj_left]; intro s _; cases s <;> rfl
  | r :: rs, ss, i + 1 => by
    simp only [List.eraseIdx_cons_succ, columns, List.map_map]
    have h1 : (fun s : List Int => (s.eraseIdx (i + 1)).headD 0) = (·.headD 0) := by funext s; cases s <;> rfl
    have h2 : (fun s : List Int => (s.eraseIdx (i + 1)).tail) = fun s => s.tail.eraseIdx i := by
      funext s; cases s <;> rfl
    simp only [Function.comp_def, h1, h2]
    rw [← columns_eraseIdx rs (ss.map (·.tail)) i, List.map_map]
    rfl

/-! ## One merge -/

theorem mergeIndexes_rows (flat : FlatContraction) (i j : Nat) :
    (mergeIndexes .exact flat i j).rows = flat.rows.map fun a => (a.1, a.2.eraseIdx i) := by
  simp [mergeIndexes, FlatContraction.rows, FlatTensorAccess.dropIndex, Function.comp_def]

theorem mem_rows_strides {flat : FlatContraction} {s : List Int} (hs : s ∈ flat.rows.map (·.2)) :
    ∃ a ∈ flat.access ++ flat.postOpInputs.map (·.2), a.strides = s := by
  simp only [FlatContraction.rows, List.map_append, List.map_map, List.mem_append, List.mem_map,
    Function.comp_def] at hs
  rcases hs with ⟨a, ha, rfl⟩ | ⟨p, hp, rfl⟩
  · exact ⟨a, List.mem_append_left _ ha, rfl⟩
  · exact ⟨p.2, List.mem_append_right _ (List.mem_map_of_mem _ hp), rfl⟩

/-- One merge touches the same address tuples. -/
theorem simplifyFlat_addrTuples {flat flat' : FlatContraction}
    (h : simplifyFlat .exact flat = some flat') : addrTuples flat' = addrTuples flat := by
  obtain ⟨-, i, j, hi, hj, hm, rfl⟩ := simplifyFlat_eq_some h
  obtain ⟨hsi, hsj, hprod, hall⟩ := canMerge_exact hm
  set ss := flat.rows.map (·.2)
  set cols := columns flat.ranges ss
  have hrow : ∀ r ∈ flat.rows, r.2.getD i 0 = flat.out.strides.getD i 0 ∧
      r.2.getD j 0 = flat.out.strides.getD j 0 := by
    intro r hr; obtain ⟨a, ha, h⟩ := mem_rows_strides (List.mem_map_of_mem (·.2) hr); rw [← h]; exact hall a ha
  have hci : ss.map (·.getD i 0) = (ss.map (·.getD j 0)).map ((flat.ranges.getD j 0 : Int) * ·) := by
    simp only [ss, List.map_map]; apply List.map_congr_left; intro r hr
    simp only [Function.comp]; rw [(hrow r hr).1, (hrow r hr).2, hprod]
  have hli : i < cols.length := by rw [columns_length]; exact hi
  have hlj : j < cols.length := by rw [columns_length]; exact hj
  have hcol : ∀ k (hk : k < flat.ranges.length) (hk' : k < cols.length),
      cols[k] = (flat.ranges.getD k 0, ss.map (·.getD k 0)) := by
    intro k hk _; rw [columns_getElem _ _ _ hk, getD_of_lt _ hk]
  have hnew : columns (mergeIndexes .exact flat i j).ranges ((mergeIndexes .exact flat i j).rows.map (·.2)) =
      (cols.set j (flat.ranges.getD j 0 * flat.ranges.getD i 0, ss.map (·.getD j 0))).eraseIdx i := by
    have : (mergeIndexes .exact flat i j).rows.map (·.2) = ss.map (·.eraseIdx i) := by
      rw [mergeIndexes_rows, List.map_map, List.map_map]; rfl
    rw [this]
    simp only [mergeIndexes, Reading.exact_nat]
    rw [columns_eraseIdx, columns_set]
  have hoffs : (mergeIndexes .exact flat i j).rows.map (·.1) = flat.rows.map (·.1) := by
    rw [mergeIndexes_rows]; simp [Function.comp_def]
  rw [addrTuples_eq_spaceTuples, addrTuples_eq_spaceTuples, hnew, hoffs]
  by_cases hij : i = j
  · subst hij
    have hone : flat.ranges.getD i 0 = 1 := by
      have : (flat.ranges.getD i 0 : Int) * flat.out.strides.getD i 0 = 1 * flat.out.strides.getD i 0 := by
        rw [← hprod, one_mul]
      exact_mod_cast Int.eq_of_mul_eq_mul_right hsi this
    rw [eraseIdx_set_self, spaceTuples_perm (perm_cons_eraseIdx hli), hcol i hi, hone, spaceTuples_range_one]
  · obtain ⟨R, h1, h2⟩ := set_eraseIdx_perm hli hlj hij (flat.ranges.getD j 0 * flat.ranges.getD i 0, ss.map (·.getD j 0))
    rw [spaceTuples_perm h2, spaceTuples_perm h1, hcol i hi, hcol j hj, hci, spaceTuples_merge]

/-! ## The loop -/

/-- The flattening loop preserves the meaning of a flat contraction: it stops, because
`SimplifyFlat` answers false, after at most one merge per index, and on a constraint-free
contraction where no pair merges any more; every stride vector keeps one entry per index;
offsets, vector widths, types, limits and post-op input names are unchanged; and the multiset of
address tuples over the index space is the same. -/
theorem simplifyFlatLoop_sound (flat : FlatContraction) (hw : flat.WF) :
    (∃ k ≤ flat.names.length, MergeSteps .exact flat (simplifyFlatLoop .exact flat) k ∧
      simplifyFlat .exact (simplifyFlatLoop .exact flat) = none) ∧
    (flat.constraints = [] → ∀ i < (simplifyFlatLoop .exact flat).ranges.length,
      ∀ j < (simplifyFlatLoop .exact flat).ranges.length, canMerge .exact (simplifyFlatLoop .exact flat) i j = false) ∧
    (simplifyFlatLoop .exact flat).WF ∧
    (simplifyFlatLoop .exact flat).access.map (·.frame) = flat.access.map (·.frame) ∧
    (simplifyFlatLoop .exact flat).postOpInputs.map (fun p => (p.1, p.2.frame)) =
      flat.postOpInputs.map (fun p => (p.1, p.2.frame)) ∧
    addrTuples (simplifyFlatLoop .exact flat) = addrTuples flat := by
  obtain ⟨k, hk, hsteps, hnone⟩ := simplifyFlatLoop_steps .exact flat
  have inv := hsteps.induct_inv (fun f => f.WF ∧ f.access.map (·.frame) = flat.access.map (·.frame) ∧
      f.postOpInputs.map (fun p => (p.1, p.2.frame)) = flat.postOpInputs.map (fun p => (p.1, p.2.frame)) ∧
      addrTuples f = addrTuples flat)
    (fun f f' ⟨hw', ha, hp, ht⟩ hs => by
      obtain ⟨ha', hp', -⟩ := simplifyFlat_frame hs
      exact ⟨simplifyFlat_wf hw' hs, ha'.trans ha, hp'.trans hp, (simplifyFlat_addrTuples hs).trans ht⟩)
    ⟨hw, rfl, rfl, rfl⟩
  exact ⟨⟨k, hw.ranges ▸ hk, hsteps, hnone⟩, simplifyFlatLoop_maximal .exact flat, inv⟩

theorem rowMajorFlat_flattens :
    rowMajorFlat.WF ∧
    ((∃ k ≤ rowMajorFlat.names.length, MergeSteps .exact rowMajorFlat (simplifyFlatLoop .exact rowMajorFlat) k ∧
      simplifyFlat .exact (simplifyFlatLoop .exact rowMajorFlat) = none) ∧
    (rowMajorFlat.constraints = [] → ∀ i < (simplifyFlatLoop .exact rowMajorFlat).ranges.length,
      ∀ j < (simplifyFlatLoop .exact rowMajorFlat).ranges.length,
        canMerge .exact (simplifyFlatLoop .exact rowMajorFlat) i j = false) ∧
    (simplifyFlatLoop .exact rowMajorFlat).WF ∧
    (simplifyFlatLoop .exact rowMajorFlat).access.map (·.frame) = rowMajorFlat.access.map (·.frame) ∧
    (simplifyFlatLoop .exact rowMajorFlat).postOpInputs.map (fun p => (p.1, p.2.frame)) =
      rowMajorFlat.postOpInputs.map (fun p => (p.1, p.2.frame)) ∧
    addrTuples (simplifyFlatLoop .exact rowMajorFlat) = addrTuples rowMajorFlat) :=
  have hw : rowMajorFlat.WF := ⟨rfl, by decide, by decide⟩
  ⟨hw, simplifyFlatLoop_sound rowMajorFlat hw⟩

end TileGen
