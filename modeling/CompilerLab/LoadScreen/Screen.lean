import Mathlib.Data.BitVec
import Mathlib.Logic.Function.Basic

/-!
# The screen

`screen.c`. An `int` that overflows and a write outside the screen are undefined, which is `none`.
-/

namespace CompilerLab.LoadScreen

/-- `SCREEN_WIDTH` and `SCREEN_HEIGHT`. The number of pixels and the indices a few rows around the screen are `int`s. -/
structure Dimensions where
  SCREEN_WIDTH : Nat
  SCREEN_HEIGHT : Nat
  width_pos : 0 < SCREEN_WIDTH
  height_pos : 0 < SCREEN_HEIGHT
  fits : (SCREEN_HEIGHT + 4) * SCREEN_WIDTH + 4 < 2 ^ 31

namespace Dimensions

/-- The values of `defines.h`. -/
def default : Dimensions where
  SCREEN_WIDTH := 1920
  SCREEN_HEIGHT := 1080
  width_pos := by decide
  height_pos := by decide
  fits := by decide

variable (d : Dimensions)

/-- The member `size` of a `Screen`. -/
def size : Nat := d.SCREEN_HEIGHT * d.SCREEN_WIDTH

end Dimensions

/-- `Point`. -/
structure Point where
  abscissa : BitVec 32
  ordinate : BitVec 32
  deriving DecidableEq, Repr

/-- `RGBPoint`. -/
structure RGBPoint where
  blue : BitVec 8
  green : BitVec 8
  red : BitVec 8
  alpha : BitVec 8
  deriving DecidableEq, Repr

/-- The colour arguments of the drawing functions. -/
structure Color where
  red : BitVec 8
  green : BitVec 8
  blue : BitVec 8
  deriving DecidableEq, Repr

/-- The three assignments to a point. -/
def Color.on (color : Color) (point : RGBPoint) : RGBPoint :=
  { point with red := color.red, green := color.green, blue := color.blue }

/-- `Screen`: its points. -/
abbrev Screen (d : Dimensions) : Type := Fin d.size → RGBPoint

/-- An `int`. -/
def int (v : Int) : Option Int := if -2 ^ 31 ≤ v ∧ v < 2 ^ 31 then some v else none

section
variable {d : Dimensions}

/-- The three assignments to `screen.points[index]`. -/
def Screen.paint (screen : Screen d) (index : Int) (color : Color) : Option (Screen d) :=
  if h : 0 ≤ index ∧ index.toNat < d.size then
    some (Function.update screen ⟨index.toNat, h.2⟩ (color.on (screen ⟨index.toNat, h.2⟩)))
  else none

variable (d) in
/-- `coordinates.abscissa + coordinates.ordinate * SCREEN_WIDTH`. -/
def indexOf (coordinates : Point) : Option Int := do
  let row ← int (coordinates.ordinate.toInt * d.SCREEN_WIDTH)
  int (coordinates.abscissa.toInt + row)

variable (screen : Screen d) (color : Color)

/-- `setPoint`. -/
def setPoint (coordinates : Point) : Option (Int × Screen d) := do
  if coordinates.abscissa.toInt < 0 ∨ coordinates.ordinate.toInt < 0 then return (-1, screen)
  else
    let index ← indexOf d coordinates
    if d.size ≤ index then return (1, screen)
    else return (0, ← screen.paint index color)

/-- The assignments that `pixel_index > 0 && pixel_index < screen.size` guards. -/
def paintInside (pixel_index : Int) : Option (Screen d) :=
  if pixel_index > 0 ∧ pixel_index < d.size then screen.paint pixel_index color else some screen

/-- The body of the loop: the pixel at an offset from `index`, and the one on the other side. -/
def setPixels (index : Int) (screen : Screen d) (offset : Int × Int) : Option (Screen d) := do
  let pixel_index ← int ((← int (index + offset.1)) + offset.2)
  let screen ← paintInside screen color pixel_index
  let pixel_index ← int ((← int (index - offset.1)) - offset.2)
  paintInside screen color pixel_index

/-- `setMediumPoint` and `setLargePoint`, by their tables of offsets. -/
def setShape (abscissaOffsets ordinateOffsets : List Int) (centre : Point) : Option (Int × Screen d) := do
  if centre.abscissa.toInt < 0 ∨ centre.ordinate.toInt < 0 then return (-1, screen)
  else
    let index ← indexOf d centre
    if d.size ≤ index then return (1, screen)
    else return (0, ← (abscissaOffsets.zip ordinateOffsets).foldlM (setPixels color index) screen)

end

def mediumPointAbscissaOffsets : List Int := [0, -1, 0, 1, -2, -1, 0]

def mediumPointOrdinateOffsets (d : Dimensions) : List Int :=
  [-2 * d.SCREEN_WIDTH, -1 * d.SCREEN_WIDTH, -1 * d.SCREEN_WIDTH, -1 * d.SCREEN_WIDTH, 0, 0, 0]

def largePointAbscissaOffsets : List Int :=
  [-1, 0, 1, -2, -1, 0, 1, 2, -3, -2, -1, 0, 1, 2, 3, -4, -3, -2, -1, 0, 1, 2, 3, 4, -4, -3, -2, -1, 0]

def largePointOrdinateOffsets (d : Dimensions) : List Int :=
  [-4 * d.SCREEN_WIDTH, -4 * d.SCREEN_WIDTH, -4 * d.SCREEN_WIDTH, -3 * d.SCREEN_WIDTH, -3 * d.SCREEN_WIDTH,
    -3 * d.SCREEN_WIDTH, -3 * d.SCREEN_WIDTH, -3 * d.SCREEN_WIDTH, -2 * d.SCREEN_WIDTH, -2 * d.SCREEN_WIDTH,
    -2 * d.SCREEN_WIDTH, -2 * d.SCREEN_WIDTH, -2 * d.SCREEN_WIDTH, -2 * d.SCREEN_WIDTH, -2 * d.SCREEN_WIDTH,
    -1 * d.SCREEN_WIDTH, -1 * d.SCREEN_WIDTH, -1 * d.SCREEN_WIDTH, -1 * d.SCREEN_WIDTH, -1 * d.SCREEN_WIDTH,
    -1 * d.SCREEN_WIDTH, -1 * d.SCREEN_WIDTH, -1 * d.SCREEN_WIDTH, -1 * d.SCREEN_WIDTH, 0, 0, 0, 0, 0]

section
variable {d : Dimensions} (screen : Screen d) (color : Color)

/-- `setMediumPoint`. -/
def setMediumPoint : Point → Option (Int × Screen d) :=
  setShape screen color mediumPointAbscissaOffsets (mediumPointOrdinateOffsets d)

/-- `setLargePoint`. -/
def setLargePoint : Point → Option (Int × Screen d) :=
  setShape screen color largePointAbscissaOffsets (largePointOrdinateOffsets d)

end

end CompilerLab.LoadScreen
