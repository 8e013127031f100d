/-
The flat contraction: the loop-nest form a contraction is lowered to, with its index names and
ranges, one strided access per tensor (slot 0 the output), its constraints, and the post-ops
fused into it with the accesses of their extra inputs. The index space gets its meaning here:
`boxPoints` lists every index point and `addrTuple` the addresses the accesses touch at one;
the flattening and zero-cover results are stated over them.
-/
import TileGen.Program.Basic
import Mathlib.Data.Multiset.Bind
import Mathlib.Data.Multiset.Range

namespace TileGen

/-! ## Flat contractions -/

/-- `FlatTensorAccess`, with the defaults of a default-constructed one. -/
structure FlatTensorAccess where
  type : Nat := 0
  vector : Nat := 1
  offset : Int := 0
  globalIndexLimit : Nat := 0
  strides : List Int := []
  deriving DecidableEq, Repr, Inhabited

/-- `Σ lhs[i] · idx[i] < rhs`. -/
structure FlatConstraint where
  lhs : List Int
  rhs : Int
  deriving DecidableEq, Repr

/-- `FlatContraction`, with the fields the generator reads. -/
structure FlatContraction where
  names : List String := []
  ranges : List Nat := []
  access : List FlatTensorAccess := []
  constraints : List FlatConstraint := []
  generateContraction : Bool := true
  postOps : List Op := []
  postOpInputs : List (String × FlatTensorAccess) := []
  kernelOutputs : List String := []
  output : String := ""
  deriving DecidableEq, Repr, Inhabited

/-- `flat.access[0]`, the output access. -/
def FlatContraction.out (flat : FlatContraction) : FlatTensorAccess := flat.access.headD default

/-- Invariant 1 of the spec: every stride vector, of an access or of a post-op input, has one
entry per index. -/
structure FlatContraction.WF (flat : FlatContraction) : Prop where
  ranges : flat.ranges.length = flat.names.length
  access : ∀ a ∈ flat.access, a.strides.length = flat.names.length
  postOpInputs : ∀ p ∈ flat.postOpInputs, p.2.strides.length = flat.names.length

/-- How the planner's index arithmetic is read: as exact integers, or as the `size_t` words the
source computes with. -/
structure Reading where
  word : Int → Int

def Reading.exact : Reading := ⟨id⟩

def Reading.sizeT : Reading := ⟨fun v => v % 2 ^ 64⟩

/-- A natural number as the reading stores it. -/
def Reading.nat (rd : Reading) (n : Nat) : Nat := (rd.word n).toNat

@[simp] theorem Reading.exact_word (v : Int) : Reading.exact.word v = v := rfl

@[simp] theorem Reading.exact_nat (n : Nat) : Reading.exact.nat n = n := rfl

/-! ## The index space -/

/-- `Σ_i strides[i] · x[i]`. -/
def dot : List Int → List Nat → Int
  | s :: ss, x :: xs => s * x + dot ss xs
  | _, _ => 0

@[simp] theorem dot_cons (s : Int) (ss : List Int) (x : Nat) (xs : List Nat) :
    dot (s :: ss) (x :: xs) = s * x + dot ss xs := rfl

@[simp] theorem dot_nil_left (x : List Nat) : dot [] x = 0 := by cases x <;> rfl

@[simp] theorem dot_nil_right (s : List Int) : dot s [] = 0 := by cases s <;> rfl

/-- Every index point `x` with `0 ≤ x_i < ranges[i]`, in row-major order. -/
def boxPoints : List Nat → List (List Nat)
  | [] => [[]]
  | r :: rs => (List.range r).flatMap fun y => (boxPoints rs).map (y :: ·)

theorem mem_boxPoints {x : List Nat} : ∀ {rs : List Nat}, x ∈ boxPoints rs ↔ List.Forall₂ (· < ·) x rs
  | [] => by cases x <;> simp [boxPoints]
  | r :: rs => by
    cases x with
    | nil => simp [boxPoints]
    | cons y ys =>
      simp only [boxPoints, List.mem_flatMap, List.mem_range, List.mem_map, List.cons.injEq,
        List.forall₂_cons, mem_boxPoints]
      constructor
      · rintro ⟨a, ha, b, hb, rfl, rfl⟩; exact ⟨ha, hb⟩
      · rintro ⟨ha, hb⟩; exact ⟨y, ha, ys, hb, rfl, rfl⟩

/-- The addresses one index point touches: `offset_k + Σ_i access[k].strides[i] · x_i` for every
access, then `Σ_i strides[i] · x_i` for every post-op input. -/
def addrTuple (flat : FlatContraction) (x : List Nat) : List Int :=
  flat.access.map (fun a => a.offset + dot a.strides x) ++ flat.postOpInputs.map (fun p => dot p.2.strides x)

/-- The address tuples over the whole index space, with multiplicity. -/
def addrTuples (flat : FlatContraction) : Multiset (List Int) :=
  ((boxPoints flat.ranges).map (addrTuple flat) : List (List Int))

/-! ## Mixed radix -/

theorem bind_range_mixed_swap (r m : Nat) :
    (Multiset.range m).bind (fun z => (Multiset.range r).map fun y => r * z + y) = Multiset.range (r * m) := by
  induction m with
  | zero => simp
  | succ m ih => rw [Multiset.range_succ, Multiset.cons_bind, ih, Nat.mul_succ, Multiset.range_add, add_comm]

/-- Mixed radix: `y + r·z` over `y < r` and `z < m` is `[0, r·m)`, each once. -/
theorem bind_range_mixed (r m : Nat) :
    (Multiset.range r).bind (fun y => (Multiset.range m).map fun z => y + r * z) = Multiset.range (r * m) := by
  rw [← bind_range_mixed_swap]
  simp only [← Multiset.bind_singleton]
  rw [Multiset.bind_bind]
  simp only [Nat.add_comm]

end TileGen
