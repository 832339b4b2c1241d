import CompilerLab.LoadScreen.Lemmas.Screen

/-!
# When drawing is clipped to the screen

A column beyond the edge of the screen is taken for one of another row. So a centre outside is only reported where its index is
behind the last point, and a shape that reaches over the left or right edge goes on at the other one.
-/

namespace CompilerLab.LoadScreen

variable {d : Dimensions}

/-! ## What is claimed and when it holds -/

/-- The half of the shape of `setPoint` that has its only pixel. -/
def pointHalf : List (Int × Int) := [(0, 0)]

/-- The upper half of the shape of `setMediumPoint`. -/
def mediumHalf : List (Int × Int) := [(0, -2), (-1, -1), (0, -1), (1, -1), (-2, 0), (-1, 0), (0, 0)]

/-- The upper half of the shape of `setLargePoint`. -/
def largeHalf : List (Int × Int) :=
  [(-1, -4), (0, -4), (1, -4), (-2, -3), (-1, -3), (0, -3), (1, -3), (2, -3), (-3, -2), (-2, -2), (-1, -2), (0, -2), (1, -2),
    (2, -2), (3, -2), (-4, -1), (-3, -1), (-2, -1), (-1, -1), (0, -1), (1, -1), (2, -1), (3, -1), (4, -1), (-4, 0), (-3, 0),
    (-2, 0), (-1, 0), (0, 0)]

/-- The column `x` and the row `y` are on the screen. -/
def OnScreen (d : Dimensions) (x y : Int) : Prop := 0 ≤ x ∧ x < d.SCREEN_WIDTH ∧ 0 ≤ y ∧ y < d.SCREEN_HEIGHT

/-- At the centre `(x, y)` the function draws the part of the shape that is on the screen, and nothing for a centre outside. -/
def Clipped (d : Dimensions) (half : List (Int × Int)) (set : Screen d → Color → Point → Option (Int × Screen d))
    (centre : Point) : Prop :=
  ∀ screen color, ∃ result screen', set screen color centre = some (result, screen') ∧
    (¬OnScreen d centre.abscissa.toInt centre.ordinate.toInt → result ≠ 0 ∧ screen' = screen) ∧
    (OnScreen d centre.abscissa.toInt centre.ordinate.toInt → ∀ i : Fin d.size,
      screen' i =
        if InShape half (i % d.SCREEN_WIDTH - centre.abscissa.toInt) (i / d.SCREEN_WIDTH - centre.ordinate.toInt)
        then color.on (screen i) else screen i)

/-- A coordinate is negative, or the index does not overflow and is behind the last point. -/
def Reported (d : Dimensions) (x y : Int) : Prop :=
  x < 0 ∨ y < 0 ∨ d.size ≤ x + y * d.SCREEN_WIDTH ∧ x + y * d.SCREEN_WIDTH < 2 ^ 31

/-- The first pixel of the screen is not in the shape, and what is left or right of the screen does not come back on it: a pixel
there has the index of none of the points behind the first, or of one that is in the shape as well. -/
def Fits (d : Dimensions) (half : List (Int × Int)) (x y : Int) : Prop :=
  ¬InShape half (-x) (-y) ∧ ∀ dx dy, InShape half dx dy → x + dx < 0 ∨ d.SCREEN_WIDTH ≤ x + dx →
    0 < x + dx + (y + dy) * d.SCREEN_WIDTH → x + dx + (y + dy) * d.SCREEN_WIDTH < d.size →
    InShape half ((x + dx + (y + dy) * d.SCREEN_WIDTH) % d.SCREEN_WIDTH - x)
      ((x + dx + (y + dy) * d.SCREEN_WIDTH) / d.SCREEN_WIDTH - y)

/-! ## Indices -/

theorem OnScreen.index {x y : Int} (h : OnScreen d x y) :
    0 ≤ x + y * d.SCREEN_WIDTH ∧ x + y * d.SCREEN_WIDTH < d.size ∧ (d.size : Int) < 2 ^ 31 := by
  obtain ⟨hx, hx', hy, hy'⟩ := h
  have hrow : 0 ≤ y * d.SCREEN_WIDTH := Int.mul_nonneg hy (Int.natCast_nonneg _)
  have hlast : y * d.SCREEN_WIDTH ≤ (d.SCREEN_HEIGHT - 1) * d.SCREEN_WIDTH :=
    Int.mul_le_mul_of_nonneg_right (by omega) (Int.natCast_nonneg _)
  have hsize : (d.size : Int) = (d.SCREEN_HEIGHT - 1) * d.SCREEN_WIDTH + d.SCREEN_WIDTH := by
    rw [Dimensions.size]
    push_cast
    ring
  have hfits : ((d.SCREEN_HEIGHT + 4) * d.SCREEN_WIDTH + 4 : Int) < 2 ^ 31 := by exact_mod_cast d.fits
  have hproduct : (d.SCREEN_HEIGHT + 4 : Int) * d.SCREEN_WIDTH =
      (d.SCREEN_HEIGHT - 1) * d.SCREEN_WIDTH + 5 * d.SCREEN_WIDTH := by
    ring
  omega

/-- An index within a row gives the column and the row back. -/
theorem index_position {x y : Int} (hx : 0 ≤ x) (hx' : x < d.SCREEN_WIDTH) :
    (x + y * d.SCREEN_WIDTH) % d.SCREEN_WIDTH = x ∧ (x + y * d.SCREEN_WIDTH) / d.SCREEN_WIDTH = y := by
  have hne : (d.SCREEN_WIDTH : Int) ≠ 0 := by omega
  rw [Int.add_mul_emod_self_right, Int.emod_eq_of_lt hx hx', Int.add_mul_ediv_right _ _ hne, Int.ediv_eq_zero_of_lt hx hx',
    Int.zero_add]
  exact ⟨rfl, rfl⟩

/-- A column left of the screen is one of the row above. -/
theorem index_left {x y : Int} (hx : -(d.SCREEN_WIDTH : Int) ≤ x) (hx' : x < 0) :
    (x + y * d.SCREEN_WIDTH) % d.SCREEN_WIDTH = x + d.SCREEN_WIDTH ∧ (x + y * d.SCREEN_WIDTH) / d.SCREEN_WIDTH = y - 1 := by
  have heq : x + y * d.SCREEN_WIDTH = x + d.SCREEN_WIDTH + (y - 1) * d.SCREEN_WIDTH := by ring
  rw [heq]
  exact index_position (by omega) (by omega)

/-- A column right of the screen is one of the row below. -/
theorem index_right {x y : Int} (hx : d.SCREEN_WIDTH ≤ x) (hx' : x < 2 * d.SCREEN_WIDTH) :
    (x + y * d.SCREEN_WIDTH) % d.SCREEN_WIDTH = x - d.SCREEN_WIDTH ∧ (x + y * d.SCREEN_WIDTH) / d.SCREEN_WIDTH = y + 1 := by
  have heq : x + y * d.SCREEN_WIDTH = x - d.SCREEN_WIDTH + (y + 1) * d.SCREEN_WIDTH := by ring
  rw [heq]
  exact index_position (by omega) (by omega)

theorem position_index (i : Int) : i % d.SCREEN_WIDTH + i / d.SCREEN_WIDTH * d.SCREEN_WIDTH = i := by
  rw [Int.mul_comm]
  exact Int.emod_add_mul_ediv i d.SCREEN_WIDTH

/-! ## The drawing functions -/

/-- The function returns as they all do, and paints `painted index` for the index of the centre. -/
def Paints (set : Screen d → Color → Point → Option (Int × Screen d)) (painted : Int → Int → Prop) : Prop :=
  ∀ screen color centre, set screen color centre =
    if centre.abscissa.toInt < 0 ∨ centre.ordinate.toInt < 0 then some (-1, screen)
    else if 2 ^ 31 ≤ centre.abscissa.toInt + centre.ordinate.toInt * d.SCREEN_WIDTH then none
    else if d.size ≤ centre.abscissa.toInt + centre.ordinate.toInt * d.SCREEN_WIDTH then some (1, screen)
    else some (0, screen.paintAll color (painted (centre.abscissa.toInt + centre.ordinate.toInt * d.SCREEN_WIDTH)))

theorem setPoint_paints : Paints (d := d) setPoint (fun index i => i = index) := by
  intro screen color centre
  rw [setPoint]
  split_ifs with hneg hover hsize
  · rfl
  · rw [indexOf_eq centre (by omega) (by omega), if_neg (Int.not_lt.2 hover)]
    rfl
  · rw [indexOf_eq centre (by omega) (by omega), if_pos (Int.not_le.1 hover)]
    exact if_pos hsize
  · have hrow : 0 ≤ centre.ordinate.toInt * d.SCREEN_WIDTH := Int.mul_nonneg (by omega) (Int.natCast_nonneg _)
    rw [indexOf_eq centre (by omega) (by omega), if_pos (Int.not_le.1 hover)]
    simp only [Option.bind_eq_bind, Option.bind_some, if_neg hsize, screen.paint_eq color (by omega) (Int.not_le.1 hsize)]
    rfl

theorem setShape_paints {abscissaOffsets ordinateOffsets : List Int} {half : List (Int × Int)} (hsmall : Small half)
    (hzip : abscissaOffsets.zip ordinateOffsets = half.map fun o => (o.1, o.2 * (d.SCREEN_WIDTH : Int))) :
    Paints (d := d) (fun screen color => setShape screen color abscissaOffsets ordinateOffsets) (Flattened d half) := by
  intro screen color centre
  dsimp only
  rw [setShape]
  split_ifs with hneg hover hsize
  · rfl
  · rw [indexOf_eq centre (by omega) (by omega), if_neg (Int.not_lt.2 hover)]
    rfl
  · rw [indexOf_eq centre (by omega) (by omega), if_pos (Int.not_le.1 hover)]
    exact if_pos hsize
  · have hrow : 0 ≤ centre.ordinate.toInt * d.SCREEN_WIDTH := Int.mul_nonneg (by omega) (Int.natCast_nonneg _)
    rw [indexOf_eq centre (by omega) (by omega), if_pos (Int.not_le.1 hover)]
    simp only [Option.bind_eq_bind, Option.bind_some, if_neg hsize, hzip]
    rw [foldlM_setPixels color (by omega) (Int.not_le.1 hsize) hsmall]
    rfl

theorem mediumHalf_small : Small mediumHalf := by
  unfold Small
  decide

theorem largeHalf_small : Small largeHalf := by
  unfold Small
  decide

theorem setMediumPoint_paints : Paints (d := d) setMediumPoint (Flattened d mediumHalf) :=
  setShape_paints mediumHalf_small (by simp [mediumPointAbscissaOffsets, mediumPointOrdinateOffsets, mediumHalf])

theorem setLargePoint_paints : Paints (d := d) setLargePoint (Flattened d largeHalf) :=
  setShape_paints largeHalf_small (by simp [largePointAbscissaOffsets, largePointOrdinateOffsets, largeHalf])

/-! ## Clipping -/

section
variable {set : Screen d → Color → Point → Option (Int × Screen d)} {painted : Int → Int → Prop} {half : List (Int × Int)}
  {centre : Point}

theorem Reported.not_onScreen {x y : Int} (h : Reported d x y) : ¬OnScreen d x y := by
  intro hon
  have hindex := hon.index
  obtain ⟨hx, -, hy, -⟩ := hon
  rcases h with h | h | h <;> omega

theorem Paints.clipped_of_reported (hset : Paints set painted) (h : Reported d centre.abscissa.toInt centre.ordinate.toInt) :
    Clipped d half set centre := by
  intro screen color
  by_cases hneg : centre.abscissa.toInt < 0 ∨ centre.ordinate.toInt < 0
  · refine ⟨-1, screen, ?_, fun _ => ⟨by decide, rfl⟩, fun hon => absurd hon h.not_onScreen⟩
    rw [hset, if_pos hneg]
  · obtain ⟨hsize, hfits⟩ : d.size ≤ centre.abscissa.toInt + centre.ordinate.toInt * d.SCREEN_WIDTH ∧
        centre.abscissa.toInt + centre.ordinate.toInt * d.SCREEN_WIDTH < 2 ^ 31 := by
      rcases h with h | h | h
      · exact absurd (.inl h) hneg
      · exact absurd (.inr h) hneg
      · exact h
    refine ⟨1, screen, ?_, fun _ => ⟨by decide, rfl⟩, fun hon => absurd hon h.not_onScreen⟩
    rw [hset, if_neg hneg, if_neg (Int.not_le.2 hfits), if_pos hsize]

theorem Paints.onScreen_of_clipped (hset : Paints set painted) (h : Clipped d half set centre)
    (hno : ¬Reported d centre.abscissa.toInt centre.ordinate.toInt) :
    OnScreen d centre.abscissa.toInt centre.ordinate.toInt := by
  by_contra hon
  obtain ⟨result, screen', hrun, hout, -⟩ := h (fun _ => ⟨0, 0, 0, 0⟩) ⟨0, 0, 0⟩
  have hneg : ¬(centre.abscissa.toInt < 0 ∨ centre.ordinate.toInt < 0) := by
    rintro (h | h)
    · exact hno (.inl h)
    · exact hno (.inr (.inl h))
  rw [hset, if_neg hneg] at hrun
  split_ifs at hrun with hover hsize
  · exact hno (.inr (.inr ⟨hsize, Int.not_le.1 hover⟩))
  · cases hrun
    exact (hout hon).1 rfl

/-- On the screen the shape is drawn as it should exactly if what is painted is what has its position in the shape. -/
theorem Paints.clipped_iff_painted (hset : Paints set painted)
    (hon : OnScreen d centre.abscissa.toInt centre.ordinate.toInt) :
    Clipped d half set centre ↔ ∀ i : Fin d.size, painted (centre.abscissa.toInt + centre.ordinate.toInt * d.SCREEN_WIDTH) i ↔
      InShape half (i % d.SCREEN_WIDTH - centre.abscissa.toInt) (i / d.SCREEN_WIDTH - centre.ordinate.toInt) := by
  have hrun : ∀ screen color, set screen color centre =
      some (0, screen.paintAll color (painted (centre.abscissa.toInt + centre.ordinate.toInt * d.SCREEN_WIDTH))) := by
    intro screen color
    have hindex := hon.index
    obtain ⟨hx, -, hy, -⟩ := hon
    rw [hset, if_neg (by omega), if_neg (by omega), if_neg (by omega)]
  constructor
  · intro h i
    -- a colour that no point of the screen has
    obtain ⟨result, screen', hsome, -, hin⟩ := h (fun _ => ⟨0, 0, 0, 0⟩) ⟨1, 0, 0⟩
    rw [hrun] at hsome
    cases hsome
    have hi := hin hon i
    have hne : Color.on ⟨1, 0, 0⟩ ⟨0, 0, 0, 0⟩ ≠ (⟨0, 0, 0, 0⟩ : RGBPoint) := by decide
    simp only [Screen.paintAll] at hi
    split_ifs at hi with hpainted hshape hshape
    · exact ⟨fun _ => hshape, fun _ => hpainted⟩
    · exact absurd hi hne
    · exact absurd hi.symm hne
    · exact ⟨fun h => absurd h hpainted, fun h => absurd h hshape⟩
  · intro h screen color
    refine ⟨0, _, hrun screen color, fun hout => absurd hon hout, fun _ i => ?_⟩
    simp only [Screen.paintAll, h i]

theorem Paints.clipped_iff_or (hset : Paints set painted) : Clipped d half set centre ↔
    Reported d centre.abscissa.toInt centre.ordinate.toInt ∨ OnScreen d centre.abscissa.toInt centre.ordinate.toInt ∧
      ∀ i : Fin d.size, painted (centre.abscissa.toInt + centre.ordinate.toInt * d.SCREEN_WIDTH) i ↔
        InShape half (i % d.SCREEN_WIDTH - centre.abscissa.toInt) (i / d.SCREEN_WIDTH - centre.ordinate.toInt) := by
  constructor
  · intro h
    by_cases hreported : Reported d centre.abscissa.toInt centre.ordinate.toInt
    · exact .inl hreported
    · have hon := hset.onScreen_of_clipped h hreported
      exact .inr ⟨hon, (hset.clipped_iff_painted hon).1 h⟩
  · rintro (h | ⟨hon, h⟩)
    · exact hset.clipped_of_reported h
    · exact (hset.clipped_iff_painted hon).2 h

end

section
variable {half : List (Int × Int)} {x y : Int}

theorem painted_point (hon : OnScreen d x y) (i : Fin d.size) :
    ((i : Nat) : Int) = x + y * d.SCREEN_WIDTH ↔ InShape pointHalf (i % d.SCREEN_WIDTH - x) (i / d.SCREEN_WIDTH - y) := by
  obtain ⟨hcolumn, hrow⟩ := index_position (y := y) hon.1 hon.2.1
  constructor
  · intro h
    rw [h, hcolumn, hrow, Int.sub_self, Int.sub_self]
    decide
  · intro h
    have hi := position_index (d := d) i
    have hzero : ((i : Nat) : Int) % d.SCREEN_WIDTH - x = 0 ∧ ((i : Nat) : Int) / d.SCREEN_WIDTH - y = 0 := by
      simp only [InShape, pointHalf, List.mem_singleton, Prod.mk.injEq] at h
      omega
    rw [Int.sub_eq_zero.1 hzero.1, Int.sub_eq_zero.1 hzero.2] at hi
    exact hi.symm

theorem painted_iff_fits :
    (∀ i : Fin d.size, Flattened d half (x + y * d.SCREEN_WIDTH) i ↔
      InShape half (i % d.SCREEN_WIDTH - x) (i / d.SCREEN_WIDTH - y)) ↔ Fits d half x y := by
  have hshift : ∀ dx dy : Int, x + y * d.SCREEN_WIDTH + dx + dy * d.SCREEN_WIDTH = x + dx + (y + dy) * d.SCREEN_WIDTH :=
    fun dx dy => by ring
  constructor
  · intro h
    refine ⟨fun hfirst => ?_, fun dx dy hshape _ hpos hlt => ?_⟩
    · have hzero : 0 < d.size := Nat.mul_pos d.height_pos d.width_pos
      have := (h ⟨0, hzero⟩).2 (by simpa using hfirst)
      exact absurd this.1 (lt_irrefl _)
    · obtain ⟨n, hn⟩ := Int.eq_ofNat_of_zero_le hpos.le
      have hi := (h ⟨n, by omega⟩).1 ⟨by simpa only [← hn] using hpos, dx, dy, hshape, by simp only [hshift, hn]⟩
      simpa only [← hn] using hi
  · rintro ⟨hfirst, hwrap⟩ i
    constructor
    · rintro ⟨hpos, dx, dy, hshape, hi⟩
      rw [hshift] at hi
      by_cases hin : 0 ≤ x + dx ∧ x + dx < d.SCREEN_WIDTH
      · obtain ⟨hcolumn, hrow⟩ := index_position (y := y + dy) hin.1 hin.2
        rw [hi, hcolumn, hrow, add_sub_cancel_left, add_sub_cancel_left]
        exact hshape
      · have hlt : ((i : Nat) : Int) < d.size := by exact_mod_cast i.isLt
        rw [hi] at hpos hlt ⊢
        exact hwrap dx dy hshape (by omega) hpos hlt
    · intro hshape
      have hpos : 0 < ((i : Nat) : Int) := by
        by_contra hle
        have hzero : ((i : Nat) : Int) = 0 := by omega
        rw [hzero, Int.zero_emod, Int.zero_ediv, Int.zero_sub, Int.zero_sub] at hshape
        exact hfirst hshape
      refine ⟨hpos, _, _, hshape, ?_⟩
      rw [hshift, add_sub_cancel, add_sub_cancel, position_index]

end

/-- When each of the functions is clipped. -/
theorem clipped_iff (d : Dimensions) (centre : Point) :
    (Clipped d pointHalf setPoint centre ↔ Reported d centre.abscissa.toInt centre.ordinate.toInt ∨
      OnScreen d centre.abscissa.toInt centre.ordinate.toInt) ∧
    (Clipped d mediumHalf setMediumPoint centre ↔ Reported d centre.abscissa.toInt centre.ordinate.toInt ∨
      OnScreen d centre.abscissa.toInt centre.ordinate.toInt ∧
        Fits d mediumHalf centre.abscissa.toInt centre.ordinate.toInt) ∧
    (Clipped d largeHalf setLargePoint centre ↔ Reported d centre.abscissa.toInt centre.ordinate.toInt ∨
      OnScreen d centre.abscissa.toInt centre.ordinate.toInt ∧
        Fits d largeHalf centre.abscissa.toInt centre.ordinate.toInt) := by
  refine ⟨?_, ?_, ?_⟩
  · rw [setPoint_paints.clipped_iff_or]
    exact or_congr_right ⟨And.left, fun hon => ⟨hon, painted_point hon⟩⟩
  · rw [setMediumPoint_paints.clipped_iff_or]
    exact or_congr_right (and_congr_right fun _ => painted_iff_fits)
  · rw [setLargePoint_paints.clipped_iff_or]
    exact or_congr_right (and_congr_right fun _ => painted_iff_fits)

/-- A column at the width is taken for the first one of the next row. -/
theorem past_edge_not_clipped : ¬Clipped Dimensions.default pointHalf setPoint ⟨1920, 0⟩ := by
  intro h
  have hno : ¬Reported Dimensions.default ((1920 : BitVec 32).toInt) ((0 : BitVec 32).toInt) := by
    unfold Reported
    decide
  exact absurd (setPoint_paints.onScreen_of_clipped h hno).2.1 (by decide)

/-! ## Wide screens -/

section
variable {half : List (Int × Int)} {x y : Int}

/-- On a screen that is wider than the shape what wraps around is never in the shape. -/
theorem Fits.index_out (h : Fits d half x y) (hsmall : Small half) (hwide : 9 ≤ d.SCREEN_WIDTH) (hon : OnScreen d x y) {dx dy : Int}
    (hshape : InShape half dx dy) (hside : x + dx < 0 ∨ d.SCREEN_WIDTH ≤ x + dx) :
    x + dx + (y + dy) * d.SCREEN_WIDTH ≤ 0 ∨ d.size ≤ x + dx + (y + dy) * d.SCREEN_WIDTH := by
  by_contra hin
  obtain ⟨hpos, hlt⟩ := not_or.1 hin
  have hwrapped := (h.2 dx dy hshape hside (Int.not_le.1 hpos) (Int.not_le.1 hlt)).small hsmall
  have hdx := hshape.small hsmall
  obtain ⟨hx, hx', -⟩ := hon
  rcases hside with hleft | hright
  · rw [(index_left (d := d) (y := y + dy) (by omega) hleft).1] at hwrapped
    omega
  · rw [(index_right (d := d) (y := y + dy) hright (by omega)).1] at hwrapped
    omega

theorem size_eq (d : Dimensions) : (d.size : Int) = d.SCREEN_HEIGHT * d.SCREEN_WIDTH := by
  rw [Dimensions.size, Int.natCast_mul]

/-- Whole rows are below a row of the screen. -/
theorem row_lt (hy : y < d.SCREEN_HEIGHT) : (y + 1) * d.SCREEN_WIDTH ≤ d.size := by
  rw [size_eq]
  exact Int.mul_le_mul_of_nonneg_right hy (Int.natCast_nonneg _)

theorem row_pos (hy : 0 < y) : (d.SCREEN_WIDTH : Int) ≤ y * d.SCREEN_WIDTH := by
  have := Int.mul_le_mul_of_nonneg_right hy (Int.natCast_nonneg d.SCREEN_WIDTH)
  simpa using this

variable (hwide : 9 ≤ d.SCREEN_WIDTH) (hhigh : 2 ≤ d.SCREEN_HEIGHT) (hon : OnScreen d x y)
include hwide hhigh hon

/-- `setMediumPoint` is right two columns from the edges, but for the centre next to the first pixel. -/
theorem mediumHalf_fits_iff : Fits d mediumHalf x y ↔
    2 ≤ x ∧ (x + 2 < d.SCREEN_WIDTH ∨ x + 2 = d.SCREEN_WIDTH ∧ y + 1 = d.SCREEN_HEIGHT) ∧ ¬(x = 2 ∧ y = 0) := by
  have hrow := row_lt hon.2.2.2
  have hexpand : (y + 1) * d.SCREEN_WIDTH = y * d.SCREEN_WIDTH + d.SCREEN_WIDTH := by ring
  obtain ⟨hx, hx', hy, hy'⟩ := id hon
  constructor
  · intro h
    have hout : ∀ dx dy : Int, InShape mediumHalf dx dy → x + dx < 0 ∨ d.SCREEN_WIDTH ≤ x + dx →
        x + dx + (y + dy) * d.SCREEN_WIDTH ≤ 0 ∨ d.size ≤ x + dx + (y + dy) * d.SCREEN_WIDTH :=
      fun _ _ => h.index_out mediumHalf_small hwide hon
    refine ⟨?_, ?_, ?_⟩
    · by_contra hleft
      obtain rfl | hpos := hy.eq_or_lt
      · obtain rfl | rfl : x = 0 ∨ x = 1 := by omega
        · exact h.1 (by decide)
        · exact h.1 (by decide)
      · have hbelow := row_pos (d := d) hpos
        have := hout (-2) 0 (by decide) (.inl (by omega))
        rw [Int.add_zero] at this
        omega
    · by_contra hright
      obtain heq | heq : x + 1 = d.SCREEN_WIDTH ∨ x + 2 = d.SCREEN_WIDTH := by omega
      · obtain rfl | hpos := hy.eq_or_lt
        · have := hout 1 0 (by decide) (.inr (by omega))
          have htwo := row_lt (d := d) (y := 1) (by omega)
          simp only [Int.add_zero, Int.zero_mul] at this
          omega
        · have hbelow := row_pos (d := d) hpos
          have := hout 1 (-1) (by decide) (.inr (by omega))
          have habove : (y + -1) * d.SCREEN_WIDTH = y * d.SCREEN_WIDTH - d.SCREEN_WIDTH := by ring
          omega
      · have hnext := row_lt (d := d) (y := y + 1) (by omega)
        have hexpand' : (y + 1 + 1) * d.SCREEN_WIDTH = y * d.SCREEN_WIDTH + 2 * d.SCREEN_WIDTH := by ring
        have hzero : 0 ≤ y * d.SCREEN_WIDTH := Int.mul_nonneg hy (Int.natCast_nonneg _)
        have := hout 2 0 (by decide) (.inr (by omega))
        rw [Int.add_zero] at this
        omega
    · rintro ⟨rfl, rfl⟩
      exact h.1 (by decide)
  · rintro ⟨hleft, hright, hcorner⟩
    have hhalf : ∀ o ∈ mediumHalf, -2 ≤ o.1 ∧ o.1 ≤ 2 ∧ (o.1 = -2 ∨ o.1 = 2 → o.2 = 0) := by decide
    have hall : ∀ {dx dy : Int}, InShape mediumHalf dx dy → -2 ≤ dx ∧ dx ≤ 2 ∧ (dx = -2 ∨ dx = 2 → dy = 0) := by
      rintro dx dy (h | h) <;> have := hhalf _ h <;> simp only at this <;> omega
    refine ⟨fun hfirst => ?_, fun dx dy hshape hside _ hlt => ?_⟩
    · have := hall hfirst
      omega
    · have := hall hshape
      have hdx : dx = 2 := by omega
      obtain rfl : dy = 0 := this.2.2 (.inr hdx)
      rw [Int.add_zero] at hlt
      obtain h | ⟨-, hlast⟩ := hright
      · omega
      · rw [size_eq, ← hlast, hexpand] at hlt
        omega

/-- `setLargePoint` is right four columns from the edges, but for the centres next to the first pixel. -/
theorem largeHalf_fits_iff : Fits d largeHalf x y ↔ 4 ≤ x ∧ x + 4 < d.SCREEN_WIDTH ∧ ¬(x = 4 ∧ y ≤ 1) := by
  have hrow := row_lt hon.2.2.2
  have hexpand : (y + 1) * d.SCREEN_WIDTH = y * d.SCREEN_WIDTH + d.SCREEN_WIDTH := by ring
  obtain ⟨hx, hx', hy, hy'⟩ := id hon
  have htwo := row_lt (d := d) (y := 1) (by omega)
  constructor
  · intro h
    have hout : ∀ dx dy : Int, InShape largeHalf dx dy → x + dx < 0 ∨ d.SCREEN_WIDTH ≤ x + dx →
        x + dx + (y + dy) * d.SCREEN_WIDTH ≤ 0 ∨ d.size ≤ x + dx + (y + dy) * d.SCREEN_WIDTH :=
      fun _ _ => h.index_out largeHalf_small hwide hon
    refine ⟨?_, ?_, ?_⟩
    · by_contra hleft
      obtain rfl | hpos := hy.eq_or_lt
      · have := hout (-4) 1 (by decide) (.inl (by omega))
        simp only [Int.zero_add, Int.one_mul] at this
        omega
      · have hbelow := row_pos (d := d) hpos
        have := hout (-4) 0 (by decide) (.inl (by omega))
        rw [Int.add_zero] at this
        omega
    · by_contra hright
      obtain rfl | hpos := hy.eq_or_lt
      · have := hout 4 0 (by decide) (.inr (by omega))
        simp only [Int.add_zero, Int.zero_mul] at this
        omega
      · have hbelow := row_pos (d := d) hpos
        have := hout 4 (-1) (by decide) (.inr (by omega))
        have habove : (y + -1) * d.SCREEN_WIDTH = y * d.SCREEN_WIDTH - d.SCREEN_WIDTH := by ring
        omega
    · rintro ⟨rfl, hle⟩
      obtain rfl | rfl : y = 0 ∨ y = 1 := by omega
      · exact h.1 (by decide)
      · exact h.1 (by decide)
  · rintro ⟨hleft, hright, hcorner⟩
    have hhalf : ∀ o ∈ largeHalf, o.1 = -4 ∨ o.1 = 4 → -1 ≤ o.2 ∧ o.2 ≤ 1 := by decide
    refine ⟨fun hfirst => ?_, fun dx dy hshape hside _ hlt => ?_⟩
    · have hsmall := hfirst.small largeHalf_small
      have hnear : -1 ≤ -y ∧ -y ≤ 1 := by
        rcases hfirst with h | h
        · exact hhalf _ h (by simp only; omega)
        · have := hhalf _ h (by simp only; omega)
          simp only at this
          omega
      omega
    · have := hshape.small largeHalf_small
      omega

end

end CompilerLab.LoadScreen
