/-
The `size_t` reading of the planner's index checks against the exact one. `NeedsZero` multiplies
`curskip` in a `size_t`; `SimplifyFlat` compares `i_stride` with `ranges[j] * j_stride` on strides
converted to `size_t`, and multiplies the merged range in place. All three wrap modulo 2^64.

On a contraction whose numbers fit the words (`FlatContraction.Fits64`: int64 strides, positive
ranges whose product is below 2^64, and an output span below 2^63 along every index) the two
readings agree. `NeedsZero` gives the exact answer, and every merge is an exact one whose merged
range does not wrap. An exact merge keeps the bounds (`simplifyFlat_fits`), so the loop
`while (SimplifyFlat(&flat)) {}` ends where the exact loop ends.

Without the bounds the readings part, on words the source's types hold (`Words64`):
- a walk whose product reaches 2^64 skips the zeroing (`wrapFlat`);
- a negative stride read as a `size_t` merges (`negStrideFlat`);
- a merged range wraps to zero (`wideFlat`).
-/
import TileGen.Flat.NeedsZero
import TileGen.Flat.Simplify
import Mathlib.Data.List.GetD
import Mathlib.Algebra.Order.Ring.Abs

namespace TileGen

/-! ## Words -/

/-- A value an `int64_t` holds. -/
def InInt64 (v : Int) : Prop := -2 ^ 63 ≤ v ∧ v < 2 ^ 63

instance : DecidablePred InInt64 := fun _ => inferInstanceAs (Decidable (_ ∧ _))

theorem sizeT_word_inj {a b : Int} (ha : InInt64 a) (hb : InInt64 b) :
    Reading.sizeT.word a = Reading.sizeT.word b ↔ a = b := by
  simp only [InInt64, Reading.sizeT] at *
  constructor
  · intro h; omega
  · rintro rfl; rfl

theorem sizeT_word_beq {a b : Int} (ha : InInt64 a) (hb : InInt64 b) :
    (Reading.sizeT.word a == Reading.sizeT.word b) = (a == b) := by
  rw [Bool.eq_iff_iff, beq_iff_eq, beq_iff_eq, sizeT_word_inj ha hb]

theorem sizeT_word_bne_zero {a : Int} (ha : InInt64 a) : (Reading.sizeT.word a != 0) = (a != 0) := by
  have h0 : InInt64 0 := by decide
  rw [show (0 : Int) = Reading.sizeT.word 0 from rfl, bne, bne, sizeT_word_beq ha h0]; rfl

/-- `size_t` products: converting the factor first changes nothing modulo 2^64. -/
theorem sizeT_word_mul (r : Nat) (s : Int) :
    Reading.sizeT.word (r * Reading.sizeT.word s) = Reading.sizeT.word (r * s) := by
  simp only [Reading.sizeT]
  rw [Int.mul_emod, Int.emod_emod_of_dvd _ (dvd_refl _), ← Int.mul_emod]

theorem sizeT_nat_of_lt {n : Nat} (h : n < 2 ^ 64) : Reading.sizeT.nat n = n := by
  simp only [Reading.nat, Reading.sizeT]; omega

theorem inInt64_getD {l : List Int} (h : ∀ s ∈ l, InInt64 s) (i : Nat) : InInt64 (l.getD i 0) := by
  rw [List.getD_eq_getElem?_getD]
  cases hi : l[i]? with
  | none => decide
  | some s => exact h s (List.getElem?_mem hi)

/-! ## Products of ranges -/

section Products

variable {α : Type}

theorem foldr_mul_perm {l l' : List Nat} (h : l.Perm l') : l.foldr (· * ·) 1 = l'.foldr (· * ·) 1 :=
  h.foldr_eq' (fun x _ y _ z => Nat.mul_left_comm y x z) 1

theorem foldr_mul_pos : ∀ {l : List Nat}, (∀ r ∈ l, 0 < r) → 0 < l.foldr (· * ·) 1
  | [], _ => Nat.one_pos
  | r :: _, h => Nat.mul_pos (h r (.head _)) (foldr_mul_pos fun x hx => h x (.tail _ hx))

theorem foldr_mul_sublist {l l' : List Nat} (h : l.Sublist l') (hpos : ∀ r ∈ l', 0 < r) :
    l.foldr (· * ·) 1 ≤ l'.foldr (· * ·) 1 := by
  induction h with
  | slnil => exact le_refl 1
  | cons r _ ih =>
    exact (ih fun x hx => hpos x (.tail _ hx)).trans (Nat.le_mul_of_pos_left _ (hpos r (.head _)))
  | cons₂ r _ ih => exact Nat.mul_le_mul_left r (ih fun x hx => hpos x (.tail _ hx))

/-- Two ranges at distinct indices multiply to at most the number of index points. -/
theorem mul_getD_le_foldr {l : List Nat} {i j : Nat} (hi : i < l.length) (hj : j < l.length) (hij : i ≠ j)
    (hpos : ∀ r ∈ l, 0 < r) : l.getD j 0 * l.getD i 0 ≤ l.foldr (· * ·) 1 := by
  obtain ⟨R, hl, -⟩ := set_eraseIdx_perm hi hj hij 0
  have hR : 0 < R.foldr (· * ·) 1 := foldr_mul_pos fun r hr => hpos r (hl.symm.subset (.tail _ (.tail _ hr)))
  rw [foldr_mul_perm hl, getD_of_lt 0 hi, getD_of_lt 0 hj, List.foldr_cons, List.foldr_cons, Nat.mul_comm]
  exact Nat.mul_le_mul_left _ (Nat.le_mul_of_pos_right _ hR)

/-- Merging two ranges into one keeps the number of index points. -/
theorem foldr_mul_merge {l : List Nat} {i j : Nat} (hi : i < l.length) (hj : j < l.length) (hij : i ≠ j) :
    ((l.set j (l.getD j 0 * l.getD i 0)).eraseIdx i).foldr (· * ·) 1 = l.foldr (· * ·) 1 := by
  obtain ⟨R, h1, h2⟩ := set_eraseIdx_perm hi hj hij (l.getD j 0 * l.getD i 0)
  rw [foldr_mul_perm h1, foldr_mul_perm h2, getD_of_lt 0 hi, getD_of_lt 0 hj]
  simp only [List.foldr_cons]
  ac_rfl

theorem getD_eraseIdx (l : List α) (i k : Nat) (d : α) :
    (l.eraseIdx i).getD k d = l.getD (if k < i then k else k + 1) d := by
  simp only [List.getD_eq_getElem?_getD, List.getElem?_eraseIdx]
  split_ifs <;> rfl

theorem all_congr_mem {l : List α} {f g : α → Bool} (h : ∀ x ∈ l, f x = g x) : l.all f = l.all g := by
  induction l with
  | nil => rfl
  | cons a l ih => simp only [List.all_cons, h a (.head _), ih fun x hx => h x (.tail _ hx)]

end Products

/-! ## `NeedsZero` -/

/-- On int64 strides the pattern does not change: a positive stride is its own `size_t`. -/
theorem outPattern_sizeT : ∀ {ss : List Int} {rs : List Nat}, (∀ s ∈ ss, InInt64 s) →
    outPattern .sizeT ss rs = outPattern .exact ss rs
  | [], _, _ => rfl
  | _ :: _, [], _ => rfl
  | s :: ss, r :: rs, h => by
    have ih : outPattern .sizeT ss rs = outPattern .exact ss rs := outPattern_sizeT fun x hx => h x (.tail _ hx)
    have hw : Reading.sizeT.word s = s ∨ s < 0 := by
      have := h s (.head _)
      simp only [InInt64, Reading.sizeT] at this ⊢; omega
    simp only [outPattern, ih, Reading.exact_word]
    rcases hw with hw | hw
    · rw [hw]
    · simp [hw, Int.ne_of_lt hw]

/-- The pattern keeps the ranges of the indices it takes, in order. -/
theorem outPattern_sublist {rd : Reading} : ∀ {ss : List Int} {rs : List Nat} {ps : List (Nat × Nat)},
    outPattern rd ss rs = some ps → (ps.map (·.2)).Sublist rs
  | [], _, ps, h => by cases h; exact List.nil_sublist _
  | _ :: _, [], ps, h => by cases h; exact List.nil_sublist _
  | _ :: _, r :: _, _, h => by
    rcases outPattern_cons h with ⟨-, h⟩ | ⟨-, qs, hq, rfl⟩
    · exact (outPattern_sublist h).cons r
    · exact (outPattern_sublist hq).cons₂ r

/-- While the running product stays below 2^64, the `size_t` walk is the exact one. -/
theorem skipWalk_sizeT : ∀ (cur : Nat) (ps : List (Nat × Nat)), (∀ p ∈ ps, 0 < p.2) →
    cur * (ps.map (·.2)).foldr (· * ·) 1 < 2 ^ 64 → skipWalk .sizeT cur ps = skipWalk .exact cur ps
  | _, [], _, _ => rfl
  | cur, (s, r) :: ps, hpos, hlt => by
    have hps : ∀ p ∈ ps, 0 < p.2 := fun p hp => hpos p (.tail _ hp)
    have hrest : 0 < (ps.map (·.2)).foldr (· * ·) 1 :=
      foldr_mul_pos fun x hx => by obtain ⟨p, hp, rfl⟩ := List.mem_map.1 hx; exact hps p hp
    rw [List.map_cons, List.foldr_cons, ← Nat.mul_assoc] at hlt
    have hcr : cur * r < 2 ^ 64 := lt_of_le_of_lt (Nat.le_mul_of_pos_right _ hrest) hlt
    simp only [skipWalk, sizeT_nat_of_lt hcr, Reading.exact_nat, skipWalk_sizeT (cur * r) ps hps hlt]

/-- On int64 output strides and positive ranges with fewer than 2^64 index points, `NeedsZero`
answers the same under `size_t` arithmetic as on exact integers. -/
theorem needsZero_sizeT {flat : FlatContraction} (hs : ∀ s ∈ flat.out.strides, InInt64 s)
    (hpos : ∀ r ∈ flat.ranges, 0 < r) (hpts : flat.ranges.foldr (· * ·) 1 < 2 ^ 64) :
    needsZero .sizeT flat = needsZero .exact flat := by
  unfold needsZero
  rw [outPattern_sizeT hs]
  rcases hp : outPattern .exact flat.out.strides flat.ranges with _ | ps
  · rfl
  have hsub := outPattern_sublist hp
  have hperm := (List.perm_insertionSort pairLe ps).map (·.2)
  have hsorted : ∀ p ∈ ps.insertionSort pairLe, 0 < p.2 := fun p hp =>
    hpos _ (hsub.subset (List.mem_map_of_mem _ ((List.perm_insertionSort pairLe ps).subset hp)))
  have hlt : 1 * ((ps.insertionSort pairLe).map (·.2)).foldr (· * ·) 1 < 2 ^ 64 := by
    rw [Nat.one_mul, foldr_mul_perm hperm]
    exact lt_of_le_of_lt (foldr_mul_sublist hsub hpos) hpts
  simp only [skipWalk_sizeT 1 _ hsorted hlt]

/-! ## `SimplifyFlat` -/

/-- The numbers of a flat contraction as the source's types hold them: `int64_t` strides,
`uint64_t` ranges and global index limits. -/
structure FlatContraction.Words64 (flat : FlatContraction) : Prop where
  strides : ∀ a ∈ flat.access ++ flat.postOpInputs.map (·.2), ∀ s ∈ a.strides, InInt64 s
  ranges : ∀ r ∈ flat.ranges, r < 2 ^ 64
  limits : ∀ a ∈ flat.access ++ flat.postOpInputs.map (·.2), a.globalIndexLimit < 2 ^ 64

/-- What keeps the index arithmetic off the wrap: the ranges are positive, their product (the
number of index points) is below 2^64, and along every index the output's span
`ranges[j] * |strides[j]|` is below 2^63. -/
structure FlatContraction.Fits64 (flat : FlatContraction) extends FlatContraction.Words64 flat : Prop where
  pos : ∀ r ∈ flat.ranges, 0 < r
  points : flat.ranges.foldr (· * ·) 1 < 2 ^ 64
  span : ∀ j < flat.ranges.length, (flat.ranges.getD j 0 : Int) * |flat.out.strides.getD j 0| < 2 ^ 63

theorem FlatContraction.Words64.out {flat : FlatContraction} (hw : flat.Words64) :
    ∀ s ∈ flat.out.strides, InInt64 s := by
  unfold FlatContraction.out
  cases hacc : flat.access with
  | nil => exact fun s hs => absurd hs (List.not_mem_nil s)
  | cons a rest => exact hw.strides a (by simp [hacc])

/-- The source's product `ranges[j] * j_stride` is an int64 on a contraction that fits. -/
theorem FlatContraction.Fits64.mul_span {flat : FlatContraction} (hf : flat.Fits64) (j : Nat) :
    InInt64 (flat.ranges.getD j 0 * flat.out.strides.getD j 0) := by
  by_cases hj : j < flat.ranges.length
  · have h := hf.span j hj
    rw [← abs_of_nonneg (Int.natCast_nonneg (flat.ranges.getD j 0)), ← abs_mul] at h
    exact ⟨(neg_lt_neg h).le.trans (neg_abs_le _), (le_abs_self _).trans_lt h⟩
  · rw [List.getD_eq_default _ _ (Nat.le_of_not_lt hj), Nat.cast_zero, zero_mul]; decide

theorem isSafe_sizeT {i j : Nat} {si sj : Int} {a : FlatTensorAccess} (ha : ∀ s ∈ a.strides, InInt64 s)
    (hi : InInt64 si) (hj : InInt64 sj) :
    isSafe .sizeT i j (Reading.sizeT.word si) (Reading.sizeT.word sj) a = isSafe .exact i j si sj a := by
  simp only [isSafe, Reading.exact_word, sizeT_word_beq (inInt64_getD ha i) hi,
    sizeT_word_beq (inInt64_getD ha j) hj]

/-- On a contraction that fits, the `size_t` merge test is the exact one. -/
theorem canMerge_sizeT {flat : FlatContraction} (hf : flat.Fits64) (i j : Nat) :
    canMerge .sizeT flat i j = canMerge .exact flat i j := by
  have hi := inInt64_getD hf.out i
  have hj := inInt64_getD hf.out j
  have hacc : ∀ a ∈ flat.access.drop 1, ∀ s ∈ a.strides, InInt64 s := fun a ha =>
    hf.strides a (List.mem_append_left _ (List.mem_of_mem_drop ha))
  have hpost : ∀ p ∈ flat.postOpInputs, ∀ s ∈ p.2.strides, InInt64 s := fun p hp =>
    hf.strides p.2 (List.mem_append_right _ (List.mem_map_of_mem _ hp))
  simp only [canMerge, Reading.exact_word, sizeT_word_bne_zero hi, sizeT_word_bne_zero hj, sizeT_word_mul,
    sizeT_word_beq hi (hf.mul_span j), all_congr_mem fun a ha => isSafe_sizeT (hacc a ha) hi hj,
    all_congr_mem fun p hp => isSafe_sizeT (hpost p hp) hi hj]

/-- A pair that merges with itself has range one. -/
theorem canMerge_exact_self {flat : FlatContraction} {i : Nat} (hm : canMerge .exact flat i i = true) :
    flat.ranges.getD i 0 = 1 := by
  obtain ⟨hi0, -, heq, -⟩ := canMerge_exact hm
  have h : (flat.ranges.getD i 0 : Int) = 1 := Int.eq_of_mul_eq_mul_right hi0 (by rw [one_mul]; exact heq.symm)
  exact_mod_cast h

/-- An exact merge on a contraction that fits has a merged range below 2^64. -/
theorem canMerge_range_lt {flat : FlatContraction} (hf : flat.Fits64) {i j : Nat}
    (hm : canMerge .exact flat i j = true) : flat.ranges.getD j 0 * flat.ranges.getD i 0 < 2 ^ 64 := by
  by_cases hij : i = j
  · subst hij; rw [canMerge_exact_self hm]; decide
  by_cases hi : i < flat.ranges.length
  · by_cases hj : j < flat.ranges.length
    · exact lt_of_le_of_lt (mul_getD_le_foldr hi hj hij hf.pos) hf.points
    · rw [List.getD_eq_default _ _ (Nat.le_of_not_lt hj), Nat.zero_mul]; decide
  · rw [List.getD_eq_default _ _ (Nat.le_of_not_lt hi), Nat.mul_zero]; decide

theorem simplifyFlat_sizeT {flat : FlatContraction} (hf : flat.Fits64) :
    simplifyFlat .sizeT flat = simplifyFlat .exact flat := by
  unfold simplifyFlat
  simp only [canMerge_sizeT hf]
  split_ifs
  · rfl
  refine Option.map_congr fun p hp => ?_
  have hm := List.find?_some (Option.mem_def.1 hp)
  simp only [mergeIndexes, Reading.exact_nat, sizeT_nat_of_lt (canMerge_range_lt hf hm)]

theorem mergeIndexes_out (rd : Reading) (flat : FlatContraction) (i j : Nat) :
    (mergeIndexes rd flat i j).out = flat.out.dropIndex i := by
  unfold FlatContraction.out mergeIndexes
  cases flat.access <;> rfl

/-- A merge keeps the number of index points. -/
theorem mergeIndexes_points {flat : FlatContraction} {i j : Nat} (hm : canMerge .exact flat i j = true)
    (hi : i < flat.ranges.length) (hj : j < flat.ranges.length) :
    (mergeIndexes .exact flat i j).ranges.foldr (· * ·) 1 = flat.ranges.foldr (· * ·) 1 := by
  simp only [mergeIndexes, Reading.exact_nat]
  by_cases hij : i = j
  · subst hij
    have hl := foldr_mul_perm (perm_cons_eraseIdx hi)
    rw [← getD_of_lt 0 hi, canMerge_exact_self hm, List.foldr_cons, Nat.one_mul] at hl
    rw [eraseIdx_set_self, hl]
  · exact foldr_mul_merge hi hj hij

/-- A merge keeps every span of the output below 2^63: the merged index spans what `i` spanned. -/
theorem mergeIndexes_span {flat : FlatContraction} (hf : flat.Fits64) {i j : Nat}
    (hm : canMerge .exact flat i j = true) (hi : i < flat.ranges.length) :
    ∀ k < (mergeIndexes .exact flat i j).ranges.length,
      ((mergeIndexes .exact flat i j).ranges.getD k 0 : Int) * |(mergeIndexes .exact flat i j).out.strides.getD k 0| < 2 ^ 63 := by
  intro k hk
  rw [mergeIndexes_out]
  simp only [mergeIndexes, Reading.exact_nat, FlatTensorAccess.dropIndex] at hk ⊢
  rw [List.length_eraseIdx_of_lt (by simpa using hi), List.length_set] at hk
  rw [getD_eraseIdx, getD_eraseIdx]
  set k' := if k < i then k else k + 1 with hk'
  have hk'lt : k' < flat.ranges.length := by rw [hk']; split_ifs <;> omega
  by_cases hkj : k' = j
  · have hspan := hf.span i hi
    rw [(canMerge_exact hm).2.2.1, abs_mul, abs_of_nonneg (Int.natCast_nonneg _)] at hspan
    rw [hkj, List.getD_eq_getElem?_getD, List.getElem?_set_self (by omega), Option.getD_some]
    calc ((flat.ranges.getD j 0 * flat.ranges.getD i 0 : Nat) : Int) * |flat.out.strides.getD j 0|
        = flat.ranges.getD i 0 * (flat.ranges.getD j 0 * |flat.out.strides.getD j 0|) := by push_cast; ring
      _ < 2 ^ 63 := hspan
  · rw [List.getD_eq_getElem?_getD, List.getElem?_set_ne (Ne.symm hkj), ← List.getD_eq_getElem?_getD]
    exact hf.span k' hk'lt

/-- An exact merge keeps a contraction inside the bounds. -/
theorem simplifyFlat_fits {flat flat' : FlatContraction} (hf : flat.Fits64)
    (h : simplifyFlat .exact flat = some flat') : flat'.Fits64 := by
  obtain ⟨-, i, j, hi, hj, hm, rfl⟩ := simplifyFlat_eq_some h
  have hnew : ∀ r ∈ (mergeIndexes .exact flat i j).ranges,
      r ∈ flat.ranges ∨ r = flat.ranges.getD j 0 * flat.ranges.getD i 0 := fun r hr =>
    List.mem_or_eq_of_mem_set (List.mem_of_mem_eraseIdx hr)
  have hacc : ∀ a ∈ (mergeIndexes .exact flat i j).access ++ (mergeIndexes .exact flat i j).postOpInputs.map (·.2),
      ∃ b ∈ flat.access ++ flat.postOpInputs.map (·.2), a = b.dropIndex i := by
    intro a ha
    simp only [mergeIndexes, List.map_map, List.mem_append, List.mem_map, Function.comp] at ha ⊢
    rcases ha with ⟨b, hb, rfl⟩ | ⟨p, hp, rfl⟩
    · exact ⟨b, .inl hb, rfl⟩
    · exact ⟨p.2, .inr ⟨p, hp, rfl⟩, rfl⟩
  have hpos : ∀ k < flat.ranges.length, 0 < flat.ranges.getD k 0 := fun k hk => by
    rw [getD_of_lt 0 hk]; exact hf.pos _ (List.getElem_mem _)
  refine ⟨⟨fun a ha s hs => ?strides, fun r hr => ?ranges, fun a ha => ?limits⟩, fun r hr => ?pos,
    (mergeIndexes_points hm hi hj).trans_lt hf.points, mergeIndexes_span hf hm hi⟩
  case strides =>
    obtain ⟨b, hb, rfl⟩ := hacc a ha
    exact hf.strides b hb s (List.mem_of_mem_eraseIdx hs)
  case limits =>
    obtain ⟨b, hb, rfl⟩ := hacc a ha
    exact hf.limits b hb
  case ranges => exact (hnew r hr).elim (hf.ranges r) fun h => h ▸ canMerge_range_lt hf hm
  case pos => exact (hnew r hr).elim (hf.pos r) fun h => h ▸ Nat.mul_pos (hpos j hj) (hpos i hi)

/-- The `size_t` loop on a contraction that fits is the exact loop. -/
theorem simplifyLoop_sizeT : ∀ (fuel : Nat) (flat : FlatContraction), flat.Fits64 →
    simplifyLoop .sizeT fuel flat = simplifyLoop .exact fuel flat
  | 0, _, _ => rfl
  | fuel + 1, flat, hf => by
    simp only [simplifyLoop, simplifyFlat_sizeT hf]
    rcases hs : simplifyFlat .exact flat with _ | flat'
    · rfl
    · exact simplifyLoop_sizeT fuel flat' (simplifyFlat_fits hf hs)

/-! ## The checks on words -/

/-- On a contraction that fits the words, the `size_t` checks are the exact ones: `NeedsZero`
answers alike, a `size_t` merge is an exact merge whose range does not wrap, and the loop ends
where the exact loop ends. -/
theorem sizeT_checks_exact (flat : FlatContraction) (hf : flat.Fits64) :
    needsZero .sizeT flat = needsZero .exact flat ∧
    (∀ i j, canMerge .sizeT flat i j = true →
      flat.out.strides.getD i 0 = flat.ranges.getD j 0 * flat.out.strides.getD j 0 ∧
      flat.ranges.getD j 0 * flat.ranges.getD i 0 < 2 ^ 64) ∧
    simplifyFlatLoop .sizeT flat = simplifyFlatLoop .exact flat := by
  refine ⟨needsZero_sizeT hf.out hf.pos hf.points, fun i j hm => ?_, simplifyLoop_sizeT _ flat hf⟩
  rw [canMerge_sizeT hf] at hm
  exact ⟨(canMerge_exact hm).2.2.1, canMerge_range_lt hf hm⟩

theorem matmulFlat_fits :
    matmulFlat.Fits64 ∧ needsZero .sizeT matmulFlat = needsZero .exact matmulFlat ∧
    (∀ i j, canMerge .sizeT matmulFlat i j = true →
      matmulFlat.out.strides.getD i 0 = matmulFlat.ranges.getD j 0 * matmulFlat.out.strides.getD j 0 ∧
      matmulFlat.ranges.getD j 0 * matmulFlat.ranges.getD i 0 < 2 ^ 64) ∧
    simplifyFlatLoop .sizeT matmulFlat = simplifyFlatLoop .exact matmulFlat :=
  have hf : matmulFlat.Fits64 := ⟨⟨by decide, by decide, by decide⟩, by decide, by decide, by decide⟩
  ⟨hf, sizeT_checks_exact matmulFlat hf⟩

/-- A `[2^32, 2^32 + 1]` output numbered from stride 1: its exact walk ends at `2^64 + 2^32`, its
`size_t` walk at `2^32`. -/
def wrapFlat : FlatContraction :=
  { names := ["i1", "i2"], ranges := [2 ^ 32, 2 ^ 32 + 1]
    access := [{ strides := [1, 2 ^ 32], globalIndexLimit := 2 ^ 32 }] }

/-- An output walked backwards along `i1`: `-2` read as a `size_t` is `(2^63 - 1) * 2`. -/
def negStrideFlat : FlatContraction :=
  { names := ["i1", "i2"], ranges := [2, 2 ^ 63 - 1]
    access := [{ strides := [-2, 2], globalIndexLimit := 2 ^ 63 }] }

/-- A row-major `[2^32, 2^32]` output: `i1` nests over `i2`, with `2^64` points between them. -/
def wideFlat : FlatContraction :=
  { names := ["i1", "i2"], ranges := [2 ^ 32, 2 ^ 32]
    access := [{ strides := [2 ^ 32, 1], globalIndexLimit := 2 ^ 64 - 1 }] }

/-- On words past the bounds the `size_t` checks are not the exact ones: `NeedsZero` skips the
zeroing the exact check asks for, a merge is made that the exact check refuses, and a merged
range wraps to zero. -/
theorem sizeT_checks_wrap :
    wrapFlat.Words64 ∧ needsZero .sizeT wrapFlat = false ∧ needsZero .exact wrapFlat = true ∧
    negStrideFlat.Words64 ∧ canMerge .sizeT negStrideFlat 0 1 = true ∧ canMerge .exact negStrideFlat 0 1 = false ∧
      simplifyFlat .exact negStrideFlat = none ∧
    wideFlat.Words64 ∧ canMerge .sizeT wideFlat 0 1 = true ∧
      (simplifyFlat .sizeT wideFlat).map (·.ranges) = some [0] ∧
      (simplifyFlat .exact wideFlat).map (·.ranges) = some [2 ^ 64] :=
  ⟨⟨by decide, by decide, by decide⟩, by decide, by decide, ⟨by decide, by decide, by decide⟩, by decide, by decide,
    by decide, ⟨by decide, by decide, by decide⟩, by decide, by decide, by decide⟩

end TileGen
