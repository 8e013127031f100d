/-
The program side of `tile/lang/generate.cc`: tensor shapes and bindings, the ops of a program
and the use/def index the planner consults. `type.h`, `ops.h` and `usedef.cc` are not among the
sources, so shapes, bindings, the special-function test and the use/def index follow the spec's
data model; ops carry exactly the fields `generate.cc` reads. The `std::set`s of the planner are
ascending lists without repeats (`setInsert`), so that iterating one visits it in order.
-/
import Mathlib.Data.List.Sort
import Mathlib.Algebra.BigOperators.Group.List

namespace TileGen

/-! ## Ordered sets -/

section OrdSet

variable {α : Type} [LT α] [DecidableRel (α := α) (· < ·)] [DecidableEq α]

/-- `std::set::insert` on an ascending list without repeats. -/
def setInsert (x : α) : List α → List α
  | [] => [x]
  | y :: ys => if x = y then y :: ys else if x < y then x :: y :: ys else y :: setInsert x ys

@[simp] theorem mem_setInsert {x a : α} {s : List α} : a ∈ setInsert x s ↔ a = x ∨ a ∈ s := by
  induction s with
  | nil => simp [setInsert]
  | cons y ys ih =>
    unfold setInsert
    split_ifs with h1 h2
    · subst h1; simp
    · simp
    · rw [List.mem_cons, ih, List.mem_cons]
      exact or_left_comm

/-- Inserting every element of a list, in order. -/
def setInsertAll (s : List α) (xs : List α) : List α := xs.foldl (fun acc x => setInsert x acc) s

@[simp] theorem mem_setInsertAll {a : α} {s xs : List α} : a ∈ setInsertAll s xs ↔ a ∈ s ∨ a ∈ xs := by
  induction xs generalizing s with
  | nil => simp [setInsertAll]
  | cons x xs ih =>
    simp only [setInsertAll, List.foldl_cons] at ih ⊢
    rw [ih, mem_setInsert, List.mem_cons, or_assoc]
    exact or_left_comm

theorem setInsert_length {x : α} : ∀ {s : List α}, x ∉ s → (setInsert x s).length = s.length + 1
  | [], _ => rfl
  | y :: ys, h => by
    have hne : x ≠ y := fun e => h (e ▸ List.mem_cons_self _ _)
    unfold setInsert
    rw [if_neg hne]
    split_ifs
    · rfl
    · simp [setInsert_length (fun hm => h (List.mem_cons_of_mem _ hm))]

theorem setInsertAll_length : ∀ {s xs : List α}, xs.Nodup → (∀ x ∈ xs, x ∉ s) →
    (setInsertAll s xs).length = s.length + xs.length
  | _, [], _, _ => rfl
  | s, x :: xs, hd, h => by
    have hx := List.nodup_cons.1 hd
    show (setInsertAll (setInsert x s) xs).length = _
    rw [setInsertAll_length hx.2 fun y hy => by
      rw [mem_setInsert]; exact fun h' => h'.elim (fun e => hx.1 (e ▸ hy)) (h y (List.mem_cons_of_mem _ hy))]
    rw [setInsert_length (h x (List.mem_cons_self _ _)), List.length_cons]
    omega

end OrdSet

/-- `std::set<std::string>::insert`: names in the order `std::string` compares them, character by
character. The order is named here so that no other order on strings in scope replaces it. -/
def nameInsert (x : String) (s : List String) : List String := @setInsert String String.instLT String.decLt _ x s

def nameInsertAll (s xs : List String) : List String := @setInsertAll String String.instLT String.decLt _ s xs

@[simp] theorem mem_nameInsert {x a : String} {s : List String} : a ∈ nameInsert x s ↔ a = x ∨ a ∈ s :=
  @mem_setInsert String String.instLT String.decLt _ x a s

@[simp] theorem mem_nameInsertAll {a : String} {s xs : List String} : a ∈ nameInsertAll s xs ↔ a ∈ s ∨ a ∈ xs :=
  @mem_setInsertAll String String.instLT String.decLt _ a s xs

theorem setInsert_sorted {x : Nat} : ∀ {s : List Nat}, s.Sorted (· < ·) → (setInsert x s).Sorted (· < ·)
  | [], _ => List.sorted_singleton x
  | y :: ys, h => by
    have hy := List.rel_of_sorted_cons h
    unfold setInsert
    split_ifs with h1 h2
    · exact h
    · refine List.sorted_cons.2 ⟨fun b hb => ?_, h⟩
      rcases List.mem_cons.1 hb with rfl | hb
      · exact h2
      · exact lt_trans h2 (hy b hb)
    · refine List.sorted_cons.2 ⟨fun b hb => ?_, setInsert_sorted h.of_cons⟩
      rcases mem_setInsert.1 hb with rfl | hb
      · omega
      · exact hy b hb

theorem setInsertAll_sorted {s : List Nat} (h : s.Sorted (· < ·)) (xs : List Nat) :
    (setInsertAll s xs).Sorted (· < ·) := by
  induction xs generalizing s with
  | nil => exact h
  | cons x xs ih => exact ih (setInsert_sorted h)

/-! ## Shapes and bindings -/

/-- One dimension of a tensor shape. -/
structure TensorDim where
  size : Nat
  stride : Int
  deriving DecidableEq, Repr, Inhabited

/-- Modelled from the spec: a shape is `(elem_type, [(size, stride)...])`; the element type
enters only through its width in bytes. -/
structure TensorShape where
  type : Nat
  dims : List TensorDim
  deriving DecidableEq, Repr, Inhabited

/-- `elem_size`: the product of the sizes. -/
def TensorShape.elemSize (s : TensorShape) : Nat := (s.dims.map (·.size)).foldr (· * ·) 1

/-- `byte_size`. -/
def TensorShape.byteSize (s : TensorShape) : Nat := s.elemSize * s.type

/-- Modelled from the spec: a variable resolves to a tensor, a constant or a scalar. -/
inductive BindingTag
  | tensor
  | constant
  | scalar
  deriving DecidableEq, Repr, Inhabited

structure Binding where
  tag : BindingTag
  shape : TensorShape
  deriving DecidableEq, Repr, Inhabited

/-- `Bindings`: what `BindProgram` resolved every name of the program to. -/
abbrev Bindings := String → Binding

/-! ## Ops and programs -/

inductive OpTag
  | contraction
  | function
  | constant
  deriving DecidableEq, Repr, Inhabited

/-- An op, with the fields of its `Contraction` body (`c.specs` ids, `c.use_default`) and of its
`Function` body (`f.fn`, `f.params`) that the generator reads. -/
structure Op where
  tag : OpTag
  output : String
  inputs : List String
  specs : List String := []
  useDefault : String := ""
  fn : String := ""
  params : List String := []
  deriving DecidableEq, Repr, Inhabited

/-- Modelled from the spec: `Function::is_special`. -/
def Op.isSpecial (op : Op) : Bool :=
  op.fn ∈ ["gather", "scatter", "shape", "prng_step", "prng_state", "prng_value"]

structure Program where
  ops : List Op
  deriving Repr

/-- `prog.ops[i]`. -/
def Program.op (prog : Program) (i : Nat) : Op := prog.ops.getD i default

/-! ## The use/def index -/

/-- Modelled from the spec: `usedef.cc` is not among the sources. `opDefs` is `op_defs`, and
`uses v` the set of ops reading `v` (empty when none does). -/
structure UseDef where
  opDefs : String → Option Nat
  uses : String → List Nat

/-- The single pass over `prog.ops`: `op_defs[op.output] = i`, and `i` added to `uses[v]` for
every input `v`. -/
def UseDef.build : Nat → List Op → UseDef → UseDef
  | _, [], ud => ud
  | i, op :: ops, ud => build (i + 1) ops
      { opDefs := fun v => if v = op.output then some i else ud.opDefs v
        uses := fun v => if v ∈ op.inputs then setInsert i (ud.uses v) else ud.uses v }

def UseDef.ofProgram (prog : Program) : UseDef := UseDef.build 0 prog.ops ⟨fun _ => none, fun _ => []⟩

end TileGen
