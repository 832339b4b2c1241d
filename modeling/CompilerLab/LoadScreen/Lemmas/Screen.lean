import CompilerLab.LoadScreen.Screen
import Mathlib.Tactic.Linarith
import Mathlib.Tactic.Ring

/-!
# What the drawing functions paint

The loop over the tables of offsets paints the points whose index is that of a pixel of the shape when the rows are read one
after the other, the first point of the screen excepted.
-/

namespace CompilerLab.LoadScreen

variable {d : Dimensions}

/-! ## Painting -/

open Classical in
/-- The screen with the points whose index is in `indices` painted. -/
noncomputable def Screen.paintAll (screen : Screen d) (color : Color) (indices : Int → Prop) : Screen d :=
  fun i => if indices i then color.on (screen i) else screen i

theorem Color.on_on (color : Color) (point : RGBPoint) : color.on (color.on point) = color.on point := rfl

theorem Screen.paintAll_none (screen : Screen d) (color : Color) : screen.paintAll color (fun _ => False) = screen := by
  funext i
  simp [Screen.paintAll]

theorem Screen.paintAll_paintAll (screen : Screen d) (color : Color) (first second : Int → Prop) :
    (screen.paintAll color first).paintAll color second = screen.paintAll color (fun i => first i ∨ second i) := by
  funext i
  by_cases hfirst : first i
  · by_cases hsecond : second i <;> simp [Screen.paintAll, hfirst, hsecond, Color.on_on]
  · by_cases hsecond : second i <;> simp [Screen.paintAll, hfirst, hsecond]

theorem Screen.paint_eq (screen : Screen d) (color : Color) {index : Int} (hpos : 0 ≤ index) (hlt : index < d.size) :
    screen.paint index color = some (screen.paintAll color (· = index)) := by
  have h : 0 ≤ index ∧ index.toNat < d.size := ⟨hpos, by omega⟩
  rw [Screen.paint, dif_pos h]
  congr 1
  funext i
  by_cases hi : i = ⟨index.toNat, h.2⟩
  · subst hi
    have heq : ((index.toNat : Nat) : Int) = index := Int.toNat_of_nonneg hpos
    simp [Screen.paintAll, heq]
  · have hne : ¬((i : Nat) : Int) = index := fun heq => hi (Fin.ext (by simp only [← heq, Int.toNat_natCast]))
    rw [Function.update_of_ne hi]
    simp only [Screen.paintAll, if_neg hne]

theorem paintInside_eq (screen : Screen d) (color : Color) (index : Int) :
    paintInside screen color index = some (screen.paintAll color (fun i => 0 < i ∧ i = index)) := by
  by_cases h : index > 0 ∧ index < d.size
  · rw [paintInside, if_pos h, screen.paint_eq color h.1.le h.2]
    congr 2
    funext i
    exact propext ⟨fun hi => ⟨hi ▸ h.1, hi⟩, And.right⟩
  · rw [paintInside, if_neg h]
    congr 1
    funext i
    have hi : ¬(0 < (i : Int) ∧ (i : Int) = index) := by
      rintro ⟨hpos, rfl⟩
      exact h ⟨hpos, by exact_mod_cast i.isLt⟩
    simp only [Screen.paintAll, if_neg hi]

/-! ## Shapes -/

/-- The pixels of a shape given by one half of it: the centre is at the origin. -/
def InShape (half : List (Int × Int)) (x y : Int) : Prop := (x, y) ∈ half ∨ (-x, -y) ∈ half

instance (half : List (Int × Int)) (x y : Int) : Decidable (InShape half x y) := inferInstanceAs (Decidable (_ ∨ _))

/-- No pixel of the shape is more than four columns or rows from the centre. -/
def Small (half : List (Int × Int)) : Prop := ∀ o ∈ half, -4 ≤ o.1 ∧ o.1 ≤ 4 ∧ -4 ≤ o.2 ∧ o.2 ≤ 4

theorem InShape.small {half : List (Int × Int)} (hsmall : Small half) {x y : Int} (h : InShape half x y) :
    -4 ≤ x ∧ x ≤ 4 ∧ -4 ≤ y ∧ y ≤ 4 := by
  rcases h with h | h
  · exact hsmall _ h
  · have := hsmall _ h
    simp only at this
    omega

theorem InShape.neg {half : List (Int × Int)} {x y : Int} (h : InShape half x y) : InShape half (-x) (-y) := by
  rcases h with h | h
  · exact .inr (by simpa using h)
  · exact .inl h

/-- The indices the loop has painted: offsets along a row, then along a column. -/
def Flattened (d : Dimensions) (half : List (Int × Int)) (index i : Int) : Prop :=
  0 < i ∧ ∃ x y, InShape half x y ∧ i = index + x + y * d.SCREEN_WIDTH

theorem int_eq {v : Int} (hlow : -2 ^ 31 ≤ v) (hhigh : v < 2 ^ 31) : int v = some v := if_pos ⟨hlow, hhigh⟩

/-- An index a few rows and columns beside one of the screen is an `int`. -/
theorem int_offset {index x y : Int} (hpos : 0 ≤ index) (hlt : index < d.size) (hx : -4 ≤ x ∧ x ≤ 4) (hy : -4 ≤ y ∧ y ≤ 4) :
    int (index + x) = some (index + x) ∧ int (index + x + y * d.SCREEN_WIDTH) = some (index + x + y * d.SCREEN_WIDTH) := by
  have hfits : ((d.SCREEN_HEIGHT + 4) * d.SCREEN_WIDTH + 4 : Int) < 2 ^ 31 := by exact_mod_cast d.fits
  have hwidth : (1 : Int) ≤ d.SCREEN_WIDTH := by exact_mod_cast d.width_pos
  have hsize : index < d.SCREEN_HEIGHT * d.SCREEN_WIDTH := by exact_mod_cast hlt
  have hhigh : y * d.SCREEN_WIDTH ≤ 4 * d.SCREEN_WIDTH := Int.mul_le_mul_of_nonneg_right hy.2 (by omega)
  have hlow : -4 * d.SCREEN_WIDTH ≤ y * d.SCREEN_WIDTH := Int.mul_le_mul_of_nonneg_right hy.1 (by omega)
  have hproduct : (d.SCREEN_HEIGHT + 4 : Int) * d.SCREEN_WIDTH = d.SCREEN_HEIGHT * d.SCREEN_WIDTH + 4 * d.SCREEN_WIDTH := by
    ring
  refine ⟨int_eq ?_ ?_, int_eq ?_ ?_⟩ <;> omega

theorem setPixels_eq (screen : Screen d) (color : Color) {index : Int} (hpos : 0 ≤ index) (hlt : index < d.size) {o : Int × Int}
    (ho : -4 ≤ o.1 ∧ o.1 ≤ 4 ∧ -4 ≤ o.2 ∧ o.2 ≤ 4) :
    setPixels color index screen (o.1, o.2 * d.SCREEN_WIDTH) = some (screen.paintAll color (Flattened d [o] index)) := by
  obtain ⟨hthere, hthere'⟩ := int_offset hpos hlt ⟨ho.1, ho.2.1⟩ ho.2.2
  obtain ⟨hback, hback'⟩ := int_offset hpos hlt (x := -o.1) (y := -o.2) (by omega) (by omega)
  rw [← Int.sub_eq_add_neg] at hback hback'
  rw [Int.neg_mul, ← Int.sub_eq_add_neg] at hback'
  simp only [setPixels, hthere, hthere', hback, hback', Option.bind_eq_bind, Option.bind_some, paintInside_eq,
    Screen.paintAll_paintAll]
  congr 2
  funext i
  refine propext ⟨?_, ?_⟩
  · rintro (⟨hi, rfl⟩ | ⟨hi, rfl⟩)
    · exact ⟨hi, o.1, o.2, .inl (List.mem_singleton_self o), rfl⟩
    · exact ⟨hi, -o.1, -o.2, .inr (by simp), by ring⟩
  · rintro ⟨hi, x, y, hxy | hxy, rfl⟩
    · cases List.mem_singleton.1 hxy
      exact .inl ⟨hi, rfl⟩
    · cases List.mem_singleton.1 hxy
      exact .inr ⟨hi, by ring⟩

theorem foldlM_setPixels (color : Color) {index : Int} (hpos : 0 ≤ index) (hlt : index < d.size) {half : List (Int × Int)}
    (hsmall : Small half) (screen : Screen d) :
    (half.map fun o => (o.1, o.2 * (d.SCREEN_WIDTH : Int))).foldlM (setPixels color index) screen =
      some (screen.paintAll color (Flattened d half index)) := by
  induction half generalizing screen with
  | nil =>
      have hnone : Flattened d [] index = fun _ => False := by
        funext i
        simp [Flattened, InShape]
      rw [hnone, screen.paintAll_none]
      rfl
  | cons o half ih =>
      have ho := hsmall o List.mem_cons_self
      have hrest : Small half := fun o' ho' => hsmall o' (List.mem_cons_of_mem o ho')
      rw [List.map_cons, List.foldlM_cons, setPixels_eq screen color hpos hlt ho]
      simp only [Option.bind_eq_bind, Option.bind_some]
      rw [ih hrest, Screen.paintAll_paintAll]
      congr 2
      funext i
      refine propext ⟨?_, ?_⟩
      · rintro (⟨hi, x, y, hxy, heq⟩ | ⟨hi, x, y, hxy, heq⟩)
        · exact ⟨hi, x, y, hxy.imp (fun h => List.mem_cons.2 (.inl (List.mem_singleton.1 h)))
            (fun h => List.mem_cons.2 (.inl (List.mem_singleton.1 h))), heq⟩
        · exact ⟨hi, x, y, hxy.imp (List.mem_cons_of_mem o) (List.mem_cons_of_mem o), heq⟩
      · rintro ⟨hi, x, y, hxy, heq⟩
        rcases hxy with hxy | hxy <;> rcases List.mem_cons.1 hxy with h | h
        · exact .inl ⟨hi, x, y, .inl (List.mem_singleton.2 h), heq⟩
        · exact .inr ⟨hi, x, y, .inl h, heq⟩
        · exact .inl ⟨hi, x, y, .inr (List.mem_singleton.2 h), heq⟩
        · exact .inr ⟨hi, x, y, .inr h, heq⟩

/-! ## The index of a point -/

theorem indexOf_eq (p : Point) (hx : 0 ≤ p.abscissa.toInt) (hy : 0 ≤ p.ordinate.toInt) :
    indexOf d p = if p.abscissa.toInt + p.ordinate.toInt * d.SCREEN_WIDTH < 2 ^ 31 then
      some (p.abscissa.toInt + p.ordinate.toInt * d.SCREEN_WIDTH) else none := by
  have hrow : 0 ≤ p.ordinate.toInt * d.SCREEN_WIDTH := Int.mul_nonneg hy (Int.natCast_nonneg _)
  by_cases hfits : p.abscissa.toInt + p.ordinate.toInt * d.SCREEN_WIDTH < 2 ^ 31
  · rw [if_pos hfits, indexOf, int_eq (by omega) (by omega)]
    exact int_eq (by omega) hfits
  · rw [if_neg hfits, indexOf]
    by_cases hproduct : p.ordinate.toInt * d.SCREEN_WIDTH < 2 ^ 31
    · rw [int_eq (by omega) hproduct]
      exact if_neg fun h => hfits h.2
    · have hnone : int (p.ordinate.toInt * d.SCREEN_WIDTH) = none := if_neg fun h => hproduct h.2
      rw [hnone]
      rfl

end CompilerLab.LoadScreen
