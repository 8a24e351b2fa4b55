import Mathlib.Algebra.Order.Floor.Ring
import Mathlib.Data.Rat.Floor
import Mathlib.Tactic.Linarith
import Mathlib.Tactic.NormNum
import NsPixels.MapMode

/-!
# From WGS-84 to the canvas

The projection of a position to a canvas pixel, with the single-precision
arithmetic read as exact arithmetic on rationals. A coordinate beyond the
canvas is saturated to a byte, and the byte 0 is a coordinate of the canvas.
-/

namespace NsPixels

/-! ### Saturation to a byte -/

/-- A coordinate as a byte. A rational is never NaN, so that branch is absent. -/
def satU8 (v : ℚ) : UInt8 :=
  if v ≤ 0 then 0
  else if v ≥ 255 then 255
  else UInt8.ofNat ⌊v⌋.toNat

theorem satU8_of_le {v : ℚ} (h : v ≤ 0) : satU8 v = 0 := if_pos h

theorem satU8_of_ge {v : ℚ} (h : 255 ≤ v) : satU8 v = 255 := by
  rw [satU8,if_neg (by linarith),if_pos h]

/-- Between the two ends the byte is the integral part. -/
theorem satU8_toNat {v : ℚ} (h0 : 0 ≤ v) (h : v < 255) : ((satU8 v).toNat : ℤ) = ⌊v⌋ := by
  have hf0 : 0 ≤ ⌊v⌋ := Int.floor_nonneg.mpr h0
  have hf : ⌊v⌋ < 255 := Int.floor_lt.mpr (by exact_mod_cast h)
  by_cases hv : v ≤ 0
  · obtain rfl : v = 0 := le_antisymm hv h0
    rw [satU8_of_le le_rfl]
    simp
  · rw [satU8,if_neg hv,if_neg (by linarith),UInt8.toNat_ofNat_of_lt' (show ⌊v⌋.toNat < 2 ^ 8 by omega)]
    exact Int.toNat_of_nonneg hf0

/-- Saturation keeps the upper edge of the canvas: everything below it, also
what is negative, becomes a coordinate on the canvas. -/
theorem satU8_lt_canvasSide_iff (v : ℚ) : satU8 v < canvasSide ↔ v < 224 := by
  by_cases h0 : v ≤ 0
  · rw [satU8_of_le h0]
    exact ⟨fun _ => by linarith,fun _ => by decide⟩
  by_cases h1 : 255 ≤ v
  · rw [satU8_of_ge h1]
    exact ⟨fun h => absurd h (by decide),fun h => by linarith⟩
  have hn := satU8_toNat (le_of_not_ge h0) (lt_of_not_ge h1)
  have hlt : ⌊v⌋ < 224 ↔ v < ((224 : ℤ) : ℚ) := Int.floor_lt
  rw [UInt8.lt_iff_toNat_lt,show canvasSide.toNat = 224 from rfl]
  push_cast at hlt
  rw [← hlt]
  omega

/-! ### The projection -/

/-- RD coordinates of a position: metres east and metres north. -/
def rd (lat lon : ℚ) : ℚ × ℚ :=
  -- differences to Amersfoort
  let dPhi := 0.36 * (lat - 52.155174)
  let dLam := 0.36 * (lon - 5.387206)
  let p2 := dPhi * dPhi
  let p3 := p2 * dPhi
  let l2 := dLam * dLam
  let l3 := l2 * dLam
  let x := 155000.0
  let x := x + dLam * (190094.94 - 11832.228 * dPhi - 114.221 * p2 - 2.340 * p3)
  let x := x + l3 * (-32.391 - 0.608 * dPhi + 0.148 * p2)
  let x := x + (-0.705 * dPhi - 0.008 * p2)
  let y := 463000.0
  let y := y + dPhi * (309056.53 + 73.077 * dPhi + 59.788 * p2)
  let y := y + l2 * (3638.893 - 157.984 * dPhi - 6.439 * p2)
  let y := y + dLam * (0.433 - 0.032 * dPhi)
  let y := y + (l2 * l2) * (0.092 - 0.054 * dPhi)
  (x,y)

/-- Western edge of the bounding box. -/
def xMin : ℚ := 0

/-- Southern edge of the bounding box. -/
def yMin : ℚ := 307500

def mPerCanvasPixel : ℚ := 1250

/-- The pixel of a pair of RD coordinates, north at the top. -/
def rdToCanvas (x y : ℚ) : PixelCoord :=
  let px := (x - xMin) / mPerCanvasPixel
  let py := (y - yMin) / mPerCanvasPixel
  { x := satU8 px, y := satU8 (canvasSide.toNat - py) }

def wgs84ToCanvas (lat lon : ℚ) : PixelCoord := rdToCanvas (rd lat lon).1 (rd lat lon).2

/-- The bounding box of the canvas in RD coordinates: 224 pixels of 1250 m on
either axis, the southern edge excluded as the rows count from the north. -/
structure InBox (x y : ℚ) : Prop where
  west : 0 ≤ x
  east : x < 280000
  south : 307500 < y
  north : y ≤ 587500

/-- The canvas keeps out what lies east and south of the box, and nothing else. -/
theorem rdToCanvas_isOnCanvas (x y : ℚ) :
    (rdToCanvas x y).isOnCanvas = true ↔ x < 280000 ∧ 307500 < y := by
  have hc : ((canvasSide.toNat : ℕ) : ℚ) = 224 := by rw [show canvasSide.toNat = 224 from rfl]; rfl
  rw [PixelCoord.isOnCanvas,Bool.and_eq_true,decide_eq_true_eq,decide_eq_true_eq,rdToCanvas,
    satU8_lt_canvasSide_iff,satU8_lt_canvasSide_iff,hc,xMin,yMin,mPerCanvasPixel]
  refine and_congr ?_ ?_
  · rw [div_lt_iff₀ (by norm_num)]
    constructor <;> intro h <;> linarith
  · rw [sub_lt_self_iff,div_pos_iff_of_pos_right (by norm_num)]
    constructor <;> intro h <;> linarith

/-- Inside the box the pixel is the integral part of the scaled coordinates. -/
theorem rdToCanvas_of_inBox {x y : ℚ} (h : InBox x y) :
    ((rdToCanvas x y).x.toNat : ℤ) = ⌊x / 1250⌋ ∧
      ((rdToCanvas x y).y.toNat : ℤ) = ⌊224 - (y - 307500) / 1250⌋ := by
  have hc : ((canvasSide.toNat : ℕ) : ℚ) = 224 := by rw [show canvasSide.toNat = 224 from rfl]; rfl
  obtain ⟨hw,he,hs,hn⟩ := h
  have hpx : (x - xMin) / mPerCanvasPixel = x / 1250 := by rw [xMin,mPerCanvasPixel,sub_zero]
  have hy0 : (y - 307500) / 1250 ≤ 224 := by rw [div_le_iff₀ (by norm_num)]; linarith
  have hy1 : 0 < (y - 307500) / 1250 := div_pos (by linarith) (by norm_num)
  rw [rdToCanvas,hpx,hc,yMin,mPerCanvasPixel]
  refine ⟨satU8_toNat (div_nonneg hw (by norm_num)) ?_,satU8_toNat (by linarith) (by linarith)⟩
  rw [div_lt_iff₀ (by norm_num)]
  linarith

/-- What is off the canvas is drawn in no mode. -/
theorem canvasToDisplay_of_off {c : PixelCoord} (h : c.isOnCanvas = false) (mode : MapMode) :
    canvasToDisplay c mode = none := by
  rw [canvasToDisplay,h]
  rfl

/-! ### Positions outside the box -/

/-- The canvas holds the position exactly when it lies in the box, at the pixel
of its scaled coordinates, and a position outside the box is never drawn. -/
structure Faithful (lat lon : ℚ) : Prop where
  isOnCanvas_iff : (wgs84ToCanvas lat lon).isOnCanvas = true ↔ InBox (rd lat lon).1 (rd lat lon).2
  pixel : InBox (rd lat lon).1 (rd lat lon).2 →
    ((wgs84ToCanvas lat lon).x.toNat : ℤ) = ⌊(rd lat lon).1 / 1250⌋ ∧
      ((wgs84ToCanvas lat lon).y.toNat : ℤ) = ⌊224 - ((rd lat lon).2 - 307500) / 1250⌋
  hidden : ¬ InBox (rd lat lon).1 (rd lat lon).2 →
    ∀ mode, canvasToDisplay (wgs84ToCanvas lat lon) mode = none

/-- A position is projected faithfully unless it lies west or north of the box
without lying east or south of it: there the saturation to 0 puts it on the
western or northern edge of the canvas. -/
theorem faithful_iff (lat lon : ℚ) :
    Faithful lat lon ↔
      ((rd lat lon).1 < 280000 → 307500 < (rd lat lon).2 →
        0 ≤ (rd lat lon).1 ∧ (rd lat lon).2 ≤ 587500) := by
  have hon := rdToCanvas_isOnCanvas (rd lat lon).1 (rd lat lon).2
  constructor
  · intro hf he hs
    have hbox := hf.isOnCanvas_iff.mp (hon.mpr ⟨he,hs⟩)
    exact ⟨hbox.west,hbox.north⟩
  · intro h
    have hiff : (wgs84ToCanvas lat lon).isOnCanvas = true ↔
        InBox (rd lat lon).1 (rd lat lon).2 := by
      refine ⟨fun hc => ?_,fun hb => hon.mpr ⟨hb.east,hb.south⟩⟩
      obtain ⟨he,hs⟩ := hon.mp hc
      exact ⟨(h he hs).1,he,hs,(h he hs).2⟩
    refine ⟨hiff,rdToCanvas_of_inBox,fun hb => canvasToDisplay_of_off ?_⟩
    exact Bool.eq_false_iff.mpr fun hc => hb (hiff.mp hc)

/-- A position off the coast of Zeeland lies 43 km west of the box and is drawn
in the first column of the display. -/
theorem not_faithful_west :
    ¬ Faithful 52 2.5 ∧ (rd 52 2.5).1 < 0 ∧
      canvasToDisplay (wgs84ToCanvas 52 2.5) .netherlands = some { x := 0, y := 31 } := by
  have hx : (rd 52 2.5).1 < 0 := by decide +kernel
  have hc : (wgs84ToCanvas 52 2.5).isOnCanvas = true := by decide +kernel
  refine ⟨fun hf => ?_,hx,by decide +kernel⟩
  exact absurd (hf.isOnCanvas_iff.mp hc).west (not_le.mpr hx)

-- north of the box: the same in the first row
example : 587500 < (rd 53.9 5).2 ∧
    canvasToDisplay (wgs84ToCanvas 53.9 5) .netherlands = some { x := 29, y := 0 } := by
  decide +kernel

end NsPixels
