import Mathlib.Tactic.Ring
import ArcMiner.Spec.Transcript

/-! The matrix unit.

It is outside the repository: `Xmx` is what it computes and what SYCL leaves open
about it, and `Xmx.Exact` what is documented.
-/

namespace ArcMiner.PearlGemm

open Library Spec

abbrev Fragment (α : Type) := Nat → Nat → α

structure Xmx where
  /-- `joint_matrix_mad` on fragments with 8 rows, 32 products and the given width. -/
  mad : Nat → Fragment Int8 → Fragment Int8 → Fragment Int32 → Fragment Int32
  /-- The order in which `joint_matrix_apply` visits an accumulator. -/
  elements : Nat → List (Nat × Nat)
  lane : Nat → Nat × Nat → Nat

structure Xmx.Exact (xmx : Xmx) (width : Nat) : Prop where
  mad : ∀ a b c row col, row < 8 → col < width → xmx.mad width a b c row col =
    c row col + Int32.ofInt (∑ j ∈ Finset.range 32, (a row j).toInt * (b j col).toInt)
  elements : (xmx.elements width).Perm ((List.range 8).product (List.range width))
  lane : ∀ element ∈ xmx.elements width, xmx.lane width element < width

def load (buffer : Nat → Int8) (base stride : Nat) : Fragment Int8 := fun row col => buffer (base + row * stride + col)

theorem Xmx.Exact.mad_load {xmx : Xmx} {width : Nat} (exact : xmx.Exact width) {a b : Nat → Int8}
    {row col strideA strideB n i c : Nat} {accumulator : Fragment Int32} (inRow : i < 8) (inCol : c < width)
    (before : accumulator i c =
      dot (fun l => (a ((row + i) * strideA + l)).toInt) (fun l => (b (l * strideB + (col + c))).toInt) n) :
    xmx.mad width (load a (row * strideA + n) strideA) (load b (n * strideB + col) strideB) accumulator i c =
      dot (fun l => (a ((row + i) * strideA + l)).toInt) (fun l => (b (l * strideB + (col + c))).toInt) (n + 32) := by
  have left : ∀ j, row * strideA + n + i * strideA + j = (row + i) * strideA + (n + j) := fun j => by ring
  have right : ∀ j, n * strideB + col + j * strideB + c = (n + j) * strideB + (col + c) := fun j => by ring
  rw [exact.mad _ _ _ i c inRow inCol, before, dot_add]
  simp only [load, left, right]

/-- A unit that computes exactly, with column `c` of an accumulator in lane `c`. -/
def Xmx.reference : Xmx where
  mad _ a b c row col := c row col + Int32.ofInt (∑ j ∈ Finset.range 32, (a row j).toInt * (b j col).toInt)
  elements width := (List.range 8).product (List.range width)
  lane _ element := element.2

theorem Xmx.reference_exact (width : Nat) : Xmx.reference.Exact width where
  mad _ _ _ _ _ _ _ := rfl
  elements := .refl _
  lane element member := by
    obtain ⟨row, col⟩ := element
    exact List.mem_range.mp (List.pair_mem_product.mp member).2

end ArcMiner.PearlGemm
