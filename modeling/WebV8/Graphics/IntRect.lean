import Mathlib

/-!
# `IntPoint`, `IntSize` and `IntRect`

The part of `platform/graphics/IntRect.{h,cpp}` that `Region` uses. Coordinates are integers: a
run of the C++ code in which no coordinate sum or difference leaves `int` computes exactly these
values. Where the code itself depends on the width of `int` (`Shape::bounds()` starts its search
at `std::numeric_limits<int>`), the limits are spelled out as `intMax` and `intMin`.
-/

namespace WebV8

/-- `std::numeric_limits<int>::max()`. -/
def intMax : Int := 2147483647

/-- `std::numeric_limits<int>::min()`. -/
def intMin : Int := -2147483648

/-- The values an `int` can hold. -/
def FitsInt (z : Int) : Prop := intMin ≤ z ∧ z ≤ intMax

instance (z : Int) : Decidable (FitsInt z) := inferInstanceAs (Decidable (_ ∧ _))

structure IntPoint where
  x : Int
  y : Int
  deriving DecidableEq, Repr

structure IntSize where
  width : Int
  height : Int
  deriving DecidableEq, Repr

structure IntRect where
  location : IntPoint
  size : IntSize
  deriving DecidableEq, Repr

namespace IntSize

def isEmpty (s : IntSize) : Bool := s.width ≤ 0 || s.height ≤ 0

end IntSize

variable (r : IntRect) {r other : IntRect} {p : IntPoint}

namespace IntRect

/-- `IntRect()`: every member is zero. -/
def empty : IntRect := ⟨⟨0, 0⟩, ⟨0, 0⟩⟩

def x (r : IntRect) : Int := r.location.x
def y (r : IntRect) : Int := r.location.y
def width (r : IntRect) : Int := r.size.width
def height (r : IntRect) : Int := r.size.height
def maxX : Int := r.x + r.width
def maxY : Int := r.y + r.height

def isEmpty (r : IntRect) : Bool := r.size.isEmpty

def intersects (r other : IntRect) : Bool :=
  !r.isEmpty && !other.isEmpty
    && r.x < other.maxX && other.x < r.maxX
    && r.y < other.maxY && other.y < r.maxY

def contains (r other : IntRect) : Bool :=
  r.x ≤ other.x && r.maxX ≥ other.maxX
    && r.y ≤ other.y && r.maxY ≥ other.maxY

def containsPoint (p : IntPoint) : Bool :=
  p.x ≥ r.x && p.x < r.maxX && p.y ≥ r.y && p.y < r.maxY

def unite (r other : IntRect) : IntRect :=
  if other.isEmpty then r
  else if r.isEmpty then other
  else
    let l := min r.x other.x
    let t := min r.y other.y
    let r' := max r.maxX other.maxX
    let b := max r.maxY other.maxY
    ⟨⟨l, t⟩, ⟨r' - l, b - t⟩⟩

def move (offset : IntSize) : IntRect :=
  ⟨⟨r.location.x + offset.width, r.location.y + offset.height⟩, r.size⟩

theorem isEmpty_eq_false : r.isEmpty = false ↔ 0 < r.width ∧ 0 < r.height := by
  simp [isEmpty, IntSize.isEmpty, width, height]

theorem containsPoint_iff : r.containsPoint p = true ↔
    (r.x ≤ p.x ∧ p.x < r.maxX) ∧ r.y ≤ p.y ∧ p.y < r.maxY := by
  simp [containsPoint, and_assoc]

theorem contains_iff : r.contains other = true ↔
    (r.x ≤ other.x ∧ other.maxX ≤ r.maxX) ∧ r.y ≤ other.y ∧ other.maxY ≤ r.maxY := by
  simp [contains, and_assoc]

theorem not_containsPoint_of_not_intersects (h : r.intersects other = false)
    (hp : r.containsPoint p = true) : other.containsPoint p = false := by
  by_contra hc
  rw [Bool.not_eq_false, containsPoint_iff] at hc
  rw [containsPoint_iff] at hp
  have hr : r.isEmpty = false := isEmpty_eq_false.mpr (by simp only [maxX, maxY] at hp; omega)
  have ho : other.isEmpty = false := isEmpty_eq_false.mpr (by simp only [maxX, maxY] at hc; omega)
  simp [intersects, hr, ho] at h
  omega

@[simp] theorem move_x (d : IntSize) : (r.move d).x = r.x + d.width := rfl
@[simp] theorem move_y (d : IntSize) : (r.move d).y = r.y + d.height := rfl

@[simp] theorem move_maxX (d : IntSize) : (r.move d).maxX = r.maxX + d.width := by
  simp only [maxX, move, x, width]; omega

@[simp] theorem move_maxY (d : IntSize) : (r.move d).maxY = r.maxY + d.height := by
  simp only [maxY, move, y, height]; omega

end IntRect

end WebV8
