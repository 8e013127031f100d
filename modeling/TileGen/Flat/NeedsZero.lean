/-
`NeedsZero` and the zero-cover law. When `NeedsZero` answers false on exact integers, the output
offset is zero, no output stride is negative, no constraint mentions only output indices, and
the output indices are a mixed-radix numbering of `[0, global_index_limit)`: every address below
the limit is written by exactly one assignment of the output indices.

The proof reads the sorted walk `curskip == stride; curskip *= range` as a mixed-radix system
(`skipWalk_addrs`), moves it back to the unsorted pattern by permutation invariance of the
address multiset (`patAddrs_perm`), and from the pattern to the output indices by dropping the
zero-stride coordinates (`select`).
-/
import TileGen.Flat.Basic
import Mathlib.Data.List.Sort
import Mathlib.Tactic.Ring

namespace TileGen

/-! ## The model -/

/-- The first loop of `NeedsZero`, over the indices: the `(stride, range)` pairs of the nonzero
output strides in index order, or `none` at a negative stride (its fallback `return true`). -/
def outPattern (rd : Reading) : List Int → List Nat → Option (List (Nat × Nat))
  | s :: ss, r :: rs =>
    if s = 0 then outPattern rd ss rs
    else if s < 0 then none
    else (outPattern rd ss rs).map (((rd.word s).toNat, r) :: ·)
  | _, _ => some []

/-- One index of the first loop: a zero stride is skipped, a positive one gives a pair. -/
theorem outPattern_cons {rd : Reading} {s : Int} {ss : List Int} {r : Nat} {rs : List Nat}
    {ps : List (Nat × Nat)} (h : outPattern rd (s :: ss) (r :: rs) = some ps) :
    (s = 0 ∧ outPattern rd ss rs = some ps) ∨
      (0 < s ∧ ∃ qs, outPattern rd ss rs = some qs ∧ ps = ((rd.word s).toNat, r) :: qs) := by
  simp only [outPattern] at h
  by_cases h0 : s = 0
  · rw [if_pos h0] at h
    exact .inl ⟨h0, h⟩
  rw [if_neg h0] at h
  by_cases hn : s < 0
  · rw [if_pos hn] at h; cases h
  rw [if_neg hn] at h
  obtain ⟨qs, hq, rfl⟩ := Option.map_eq_some'.1 h
  exact .inr ⟨by omega, qs, hq, rfl⟩

/-- A constraint is output-only when every index it mentions has a nonzero output stride. -/
def outputOnly (strides : List Int) (fc : FlatConstraint) : Bool :=
  (fc.lhs.zip strides).all fun p => !(p.1 != 0 && p.2 == 0)

/-- The order `std::sort` puts `std::pair<size_t, size_t>` in. -/
def pairLe (a b : Nat × Nat) : Prop := a.1 < b.1 ∨ (a.1 = b.1 ∧ a.2 ≤ b.2)

instance : DecidableRel pairLe := fun _ _ => inferInstanceAs (Decidable (_ ∨ _))

/-- The walk over the sorted pattern: `curskip` must meet each stride, then grows by its range. -/
def skipWalk (rd : Reading) : Nat → List (Nat × Nat) → Option Nat
  | cur, [] => some cur
  | cur, (s, r) :: ps => if cur ≠ s then none else skipWalk rd (rd.nat (cur * r)) ps

/-- `NeedsZero`: whether the output must be zeroed (or copied) before the contraction runs. -/
def needsZero (rd : Reading) (flat : FlatContraction) : Bool :=
  if flat.out.offset ≠ 0 then true else
  match outPattern rd flat.out.strides flat.ranges with
  | none => true
  | some pattern =>
    if flat.constraints.any (outputOnly flat.out.strides) then true else
    match skipWalk rd 1 (pattern.insertionSort pairLe) with
    | none => true
    | some cur => cur != flat.out.globalIndexLimit

/-- What `NeedsZero` answering false says, branch by branch. -/
theorem needsZero_eq_false {rd : Reading} {flat : FlatContraction} (h : needsZero rd flat = false) :
    flat.out.offset = 0 ∧ ∃ pattern, outPattern rd flat.out.strides flat.ranges = some pattern ∧
      (∀ fc ∈ flat.constraints, outputOnly flat.out.strides fc = false) ∧
      skipWalk rd 1 (pattern.insertionSort pairLe) = some flat.out.globalIndexLimit := by
  unfold needsZero at h
  by_cases h0 : flat.out.offset ≠ 0
  · simp [h0] at h
  rw [if_neg h0] at h
  rcases hp : outPattern rd flat.out.strides flat.ranges with _ | pattern
  · simp [hp] at h
  simp only [hp] at h
  by_cases hc : flat.constraints.any (outputOnly flat.out.strides) = true
  · simp [hc] at h
  rw [if_neg hc] at h
  rcases hw : skipWalk rd 1 (pattern.insertionSort pairLe) with _ | cur
  · simp [hw] at h
  simp only [hw, bne_eq_false_iff_eq] at h
  exact ⟨not_not.1 h0, pattern, rfl, by simpa using hc, h ▸ hw⟩

/-! ## Pattern addresses -/

/-- `Σ_k s_k · y_k` over a pattern. -/
def patAddr : List (Nat × Nat) → List Nat → Nat
  | p :: ps, y :: ys => p.1 * y + patAddr ps ys
  | _, _ => 0

@[simp] theorem patAddr_cons (p : Nat × Nat) (ps : List (Nat × Nat)) (y : Nat) (ys : List Nat) :
    patAddr (p :: ps) (y :: ys) = p.1 * y + patAddr ps ys := rfl

@[simp] theorem patAddr_nil (y : List Nat) : patAddr [] y = 0 := by cases y <;> rfl

/-- A point of a pattern: one coordinate below each range. -/
def PatPoint (ps : List (Nat × Nat)) (y : List Nat) : Prop := List.Forall₂ (fun y p => y < p.2) y ps

/-- The addresses of all points of a pattern, with multiplicity. -/
def patAddrs : List (Nat × Nat) → Multiset Nat
  | [] => {0}
  | p :: ps => (Multiset.range p.2).bind fun y => (patAddrs ps).map (p.1 * y + ·)

theorem patAddrs_perm {ps qs : List (Nat × Nat)} (h : ps.Perm qs) : patAddrs ps = patAddrs qs := by
  induction h with
  | nil => rfl
  | cons p _ ih => simp only [patAddrs, ih]
  | swap p q l =>
    simp only [patAddrs, Multiset.map_bind, Multiset.map_map]
    rw [Multiset.bind_bind]
    congr 1; funext a; congr 1; funext b; congr 1; funext v
    simp only [Function.comp]; omega
  | trans _ _ ih1 ih2 => exact ih1.trans ih2

theorem mem_patAddrs {a : Nat} : ∀ {ps : List (Nat × Nat)},
    a ∈ patAddrs ps ↔ ∃ y, PatPoint ps y ∧ patAddr ps y = a
  | [] => by simp [patAddrs, PatPoint, eq_comm]
  | p :: ps => by
    simp only [patAddrs, Multiset.mem_bind, Multiset.mem_range, Multiset.mem_map, mem_patAddrs]
    constructor
    · rintro ⟨y, hy, _, ⟨ys, hys, rfl⟩, rfl⟩
      exact ⟨y :: ys, List.Forall₂.cons hy hys, rfl⟩
    · rintro ⟨_ | ⟨y, ys⟩, h, rfl⟩
      · cases h
      · cases h with
        | cons hy hys => exact ⟨y, hy, _, ⟨ys, hys, rfl⟩, rfl⟩

/-- Distinct addresses tell points apart. -/
theorem patAddr_inj : ∀ {ps : List (Nat × Nat)} {y y' : List Nat}, (patAddrs ps).Nodup →
    PatPoint ps y → PatPoint ps y' → patAddr ps y = patAddr ps y' → y = y'
  | [], _, _, _, .nil, .nil, _ => rfl
  | p :: ps, a :: ys, b :: ys', hnd, .cons ha hys, .cons hb hys', he => by
    simp only [patAddrs] at hnd
    have hys_mem := mem_patAddrs.2 ⟨ys, hys, rfl⟩
    have hys'_mem := mem_patAddrs.2 ⟨ys', hys', rfl⟩
    simp only [patAddr_cons] at he
    by_cases hab : a = b
    · subst hab
      have hnd' := (Multiset.nodup_bind.1 hnd).1 a (Multiset.mem_range.2 ha)
      have := patAddr_inj (hnd'.of_map _) hys hys' (by omega)
      rw [this]
    · obtain ⟨-, hdis⟩ := Multiset.nodup_bind.1 hnd
      have hpw := (Multiset.pairwise_coe_iff_pairwise (fun _ _ h => Disjoint.symm h)).1 hdis
      have hd := hpw.forall (fun _ _ h => Disjoint.symm h) (List.mem_range.2 ha) (List.mem_range.2 hb) hab
      exact absurd (Multiset.mem_map.2 ⟨_, hys'_mem, he.symm⟩)
        (Multiset.disjoint_left.1 hd (Multiset.mem_map_of_mem (p.1 * a + ·) hys_mem))

/-- The sorted walk is a mixed-radix system: its addresses are the multiples of the starting
skip below the final one. -/
theorem skipWalk_addrs {c c' : Nat} : ∀ {ps : List (Nat × Nat)}, skipWalk .exact c ps = some c' →
    ∃ m, c' = c * m ∧ patAddrs ps = (Multiset.range m).map (c * ·)
  | [], h => by
    simp only [skipWalk, Option.some.injEq] at h
    exact ⟨1, by simp [h], by simp [patAddrs]⟩
  | (s, r) :: ps, h => by
    simp only [skipWalk, Reading.exact_nat] at h
    split_ifs at h with hs
    obtain rfl := not_not.1 hs
    obtain ⟨m, rfl, hm⟩ := skipWalk_addrs h
    refine ⟨r * m, by ring, ?_⟩
    simp only [patAddrs, hm, Multiset.map_map, ← bind_range_mixed, Multiset.map_bind]
    congr 1; funext y; congr 1; funext z
    simp only [Function.comp]; ring

/-! ## From the pattern to the output indices -/

/-- An assignment of the output indices, as a full index point that is zero off them: below the
range where the output stride is nonzero, zero where it is zero. -/
def OutPoint : List Int → List Nat → List Nat → Prop
  | s :: ss, r :: rs, x :: xs => (if s = 0 then x = 0 else x < r) ∧ OutPoint ss rs xs
  | [], [], [] => True
  | _, _, _ => False

/-- The coordinates of a point on the output indices. -/
def select : List Int → List Nat → List Nat
  | s :: ss, x :: xs => if s = 0 then select ss xs else x :: select ss xs
  | _, _ => []

theorem select_cons (s : Int) (ss : List Int) (x : Nat) (xs : List Nat) :
    select (s :: ss) (x :: xs) = if s = 0 then select ss xs else x :: select ss xs := rfl

theorem outPattern_nonneg {rd : Reading} : ∀ {ss : List Int} {rs : List Nat} {ps},
    outPattern rd ss rs = some ps → ss.length ≤ rs.length → ∀ s ∈ ss, 0 ≤ s
  | [], _, _, _, _ => fun _ h => absurd h (List.not_mem_nil _)
  | _ :: _, [], _, _, hl => absurd hl (Nat.not_succ_le_zero _)
  | s :: ss, r :: rs, ps, hp, hl => by
    simp only [List.mem_cons, forall_eq_or_imp]
    rcases outPattern_cons hp with ⟨h0, hp⟩ | ⟨hpos, qs, hq, -⟩
    · exact ⟨h0.ge, outPattern_nonneg hp (Nat.le_of_succ_le_succ hl)⟩
    · exact ⟨hpos.le, outPattern_nonneg hq (Nat.le_of_succ_le_succ hl)⟩

/-- An output point is a point of the pattern, at the same address. -/
theorem select_spec : ∀ {ss : List Int} {rs xs : List Nat} {ps}, outPattern .exact ss rs = some ps →
    OutPoint ss rs xs → PatPoint ps (select ss xs) ∧ dot ss xs = patAddr ps (select ss xs)
  | [], [], [], ps, hp, _ => by
    simp only [outPattern, Option.some.injEq] at hp; subst hp; exact ⟨.nil, rfl⟩
  | s :: ss, r :: rs, x :: xs, ps, hp, ⟨hx, hxs⟩ => by
    rcases outPattern_cons hp with ⟨h0, hp⟩ | ⟨hpos, qs, hq, rfl⟩
    · rw [if_pos h0] at hx
      obtain ⟨h1, h2⟩ := select_spec hp hxs
      simp [select_cons, h0, hx, h1, h2]
    · rw [if_neg hpos.ne'] at hx
      obtain ⟨h1, h2⟩ := select_spec hq hxs
      refine ⟨by simpa [select_cons, hpos.ne', PatPoint] using ⟨hx, h1⟩, ?_⟩
      simp only [select_cons, hpos.ne', if_false, dot_cons, patAddr_cons, h2, Reading.exact_word]
      push_cast; rw [Int.toNat_of_nonneg hpos.le]
  | [], _ :: _, _, _, _, h => h.elim
  | [], [], _ :: _, _, _, h => h.elim
  | _ :: _, [], _, _, _, h => h.elim
  | _ :: _, _ :: _, [], _, _, h => h.elim

/-- Output points with the same output coordinates are equal. -/
theorem select_inj : ∀ {ss : List Int} {rs xs xs' : List Nat}, OutPoint ss rs xs → OutPoint ss rs xs' →
    select ss xs = select ss xs' → xs = xs'
  | [], [], [], [], _, _, _ => rfl
  | s :: ss, r :: rs, x :: xs, x' :: xs', ⟨hx, hxs⟩, ⟨hx', hxs'⟩, he => by
    by_cases h0 : s = 0
    · simp only [h0, if_true] at hx hx'
      simp only [select_cons, h0, if_true] at he
      rw [hx, hx', select_inj hxs hxs' he]
    · simp only [select_cons, h0, if_false, List.cons.injEq] at he
      rw [he.1, select_inj hxs hxs' he.2]
  | [], [], [], _ :: _, _, h, _ => h.elim
  | [], [], _ :: _, _, h, _, _ => h.elim
  | [], _ :: _, _, _, h, _, _ => h.elim
  | _ :: _, [], _, _, h, _, _ => h.elim
  | _ :: _, _ :: _, [], _, h, _, _ => h.elim
  | _ :: _, _ :: _, _ :: _, [], _, h, _ => h.elim

/-- Every point of the pattern is the output coordinates of an output point. -/
theorem exists_outPoint : ∀ {ss : List Int} {rs : List Nat} {ps y}, ss.length = rs.length →
    outPattern .exact ss rs = some ps → PatPoint ps y → ∃ xs, OutPoint ss rs xs ∧ dot ss xs = patAddr ps y
  | [], [], ps, y, _, hp, hy => by
    simp only [outPattern, Option.some.injEq] at hp; subst hp
    cases hy; exact ⟨[], trivial, rfl⟩
  | s :: ss, r :: rs, ps, y, hl, hp, hy => by
    rcases outPattern_cons hp with ⟨h0, hp⟩ | ⟨hpos, qs, hq, rfl⟩
    · obtain ⟨xs, hxs, hd⟩ := exists_outPoint (Nat.succ.inj hl) hp hy
      exact ⟨0 :: xs, ⟨by simp [h0], hxs⟩, by simp [hd]⟩
    · cases hy with
      | cons hy hys =>
        obtain ⟨xs, hxs, hd⟩ := exists_outPoint (Nat.succ.inj hl) hq hys
        refine ⟨_ :: xs, ⟨by simpa [hpos.ne'] using hy, hxs⟩, ?_⟩
        simp only [dot_cons, hd, patAddr_cons, Reading.exact_word]
        push_cast; rw [Int.toNat_of_nonneg hpos.le]
  | [], _ :: _, _, _, hl, _, _ => by simp at hl
  | _ :: _, [], _, _, hl, _, _ => by simp at hl

theorem outputOnly_eq_false {ss : List Int} {fc : FlatConstraint} (h : outputOnly ss fc = false) :
    ∃ i < ss.length, fc.lhs.getD i 0 ≠ 0 ∧ ss.getD i 0 = 0 := by
  obtain ⟨p, hp, hpf⟩ := List.all_eq_false.1 h
  obtain ⟨i, hi, rfl⟩ := List.getElem_of_mem hp
  have hi' := hi
  rw [List.length_zip] at hi'
  simp only [List.getElem_zip, Bool.not_eq_true, Bool.not_eq_false', Bool.and_eq_true, bne_iff_ne,
    beq_iff_eq] at hpf
  refine ⟨i, by omega, ?_, ?_⟩
  · simpa [List.getElem?_eq_getElem (show i < fc.lhs.length by omega)] using hpf.1
  · simpa [List.getElem?_eq_getElem (show i < ss.length by omega)] using hpf.2

/-! ## The zero-cover law -/

/-- What skipping the zero (or copy) prelude relies on: the output is written from offset zero
with nonnegative strides, no constraint restricts only output indices, and the output indices
number `[0, global_index_limit)` exactly once. -/
structure CoversOutput (flat : FlatContraction) : Prop where
  offset : flat.out.offset = 0
  nonneg : ∀ s ∈ flat.out.strides, 0 ≤ s
  constraints : ∀ fc ∈ flat.constraints,
    ∃ i < flat.names.length, fc.lhs.getD i 0 ≠ 0 ∧ flat.out.strides.getD i 0 = 0
  inRange : ∀ x, OutPoint flat.out.strides flat.ranges x →
    0 ≤ dot flat.out.strides x ∧ dot flat.out.strides x < flat.out.globalIndexLimit
  injective : ∀ x y, OutPoint flat.out.strides flat.ranges x → OutPoint flat.out.strides flat.ranges y →
    dot flat.out.strides x = dot flat.out.strides y → x = y
  surjective : ∀ a < flat.out.globalIndexLimit,
    ∃ x, OutPoint flat.out.strides flat.ranges x ∧ dot flat.out.strides x = a

/-- The zero-cover law: when `NeedsZero` answers false on exact integers, every output element
is written exactly once per assignment of the output indices. -/
theorem needsZero_false_sound (flat : FlatContraction)
    (hs : flat.out.strides.length = flat.names.length) (hr : flat.ranges.length = flat.names.length)
    (h : needsZero .exact flat = false) : CoversOutput flat := by
  obtain ⟨hoff, ps, hp, hc, hw⟩ := needsZero_eq_false h
  obtain ⟨m, hm, haddr⟩ := skipWalk_addrs hw
  rw [one_mul] at hm
  have hP : patAddrs ps = Multiset.range flat.out.globalIndexLimit := by
    rw [patAddrs_perm (List.perm_insertionSort pairLe ps).symm, haddr, hm]; simp
  have hnd : (patAddrs ps).Nodup := hP ▸ Multiset.nodup_range _
  refine ⟨hoff, outPattern_nonneg hp (by omega), fun fc hfc => ?_, fun x hx => ?_, fun x y hx hy he => ?_,
    fun a ha => ?_⟩
  · obtain ⟨i, hi, h1, h2⟩ := outputOnly_eq_false (hc fc hfc)
    exact ⟨i, by omega, h1, h2⟩
  · obtain ⟨hy, hd⟩ := select_spec hp hx
    have := mem_patAddrs.2 ⟨_, hy, rfl⟩
    rw [hP, Multiset.mem_range] at this
    rw [hd]; omega
  · obtain ⟨h1, d1⟩ := select_spec hp hx
    obtain ⟨h2, d2⟩ := select_spec hp hy
    exact select_inj hx hy (patAddr_inj hnd h1 h2 (by omega))
  · obtain ⟨y, hy, rfl⟩ := mem_patAddrs.1 (hP ▸ Multiset.mem_range.2 ha : a ∈ patAddrs ps)
    exact exists_outPoint (by omega) hp hy

/-- The output of the spec's `[4, 4]` matmul, indexed `(i, j, k)` with `k` reduced. -/
def matmulFlat : FlatContraction :=
  { names := ["i", "j", "k"], ranges := [4, 4, 4]
    access := [{ strides := [4, 1, 0], globalIndexLimit := 16 }, { strides := [4, 0, 1], globalIndexLimit := 16 },
      { strides := [0, 1, 4], globalIndexLimit := 16 }] }

theorem matmulFlat_covers :
    matmulFlat.out.strides.length = matmulFlat.names.length ∧ matmulFlat.ranges.length = matmulFlat.names.length ∧
      needsZero .exact matmulFlat = false ∧ CoversOutput matmulFlat :=
  ⟨rfl, rfl, by decide, needsZero_false_sound matmulFlat rfl rfl (by decide)⟩

end TileGen
