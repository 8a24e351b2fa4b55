import NsPixels.Projection

/-!
# Map modes

Which sub-region of the canvas is rendered into the display.
-/

namespace NsPixels

inductive MapMode
  | netherlands
  | randstad
deriving DecidableEq, Repr

namespace MapMode

def next : MapMode → MapMode
  | netherlands => randstad
  | randstad => netherlands

/-- The byte stored in `MODE`. -/
def toU8 : MapMode → UInt8
  | netherlands => 0
  | randstad => 1

/-- The mode `current` reads back from the byte in `MODE`. -/
def current (byte : UInt8) : MapMode := if byte = 0 then netherlands else randstad

@[simp] theorem current_toU8 (m : MapMode) : current m.toU8 = m := by cases m <;> rfl

end MapMode

/-- Left edge of the Randstad window in canvas pixels. -/
def randstadOffsetX : UInt8 := 62

/-- Top edge of the Randstad window in canvas pixels. -/
def randstadOffsetY : UInt8 := 73

/-- `checked_sub` on bytes. -/
def checkedSubU8 (a b : UInt8) : Option UInt8 := if b ≤ a then some (a - b) else none

/-- The linear transform of each mode, before the display window is applied. -/
def MapMode.project (mode : MapMode) (coord : PixelCoord) : Option (UInt8 × UInt8) :=
  match mode with
  | .netherlands =>
    some ((coord.x.toUInt16 * 2 / 7).toUInt8,(coord.y.toUInt16 * 2 / 7).toUInt8)
  | .randstad => do
    let x ← checkedSubU8 coord.x randstadOffsetX
    let y ← checkedSubU8 coord.y randstadOffsetY
    some (x,y)

/-- Project a canvas pixel to the display in `mode`; `none` when it is off the
canvas or outside the window of the mode. -/
def canvasToDisplay (coord : PixelCoord) (mode : MapMode) : Option PixelCoord :=
  if !coord.isOnCanvas then none
  else do
    let (dx,dy) ← mode.project coord
    if dx ≥ displaySide || dy ≥ displaySide then none
    else some { x := dx, y := dy }

/-- Whatever is drawn lies on the display. -/
theorem canvasToDisplay_lt {coord d : PixelCoord} {mode : MapMode}
    (h : canvasToDisplay coord mode = some d) : d.x < displaySide ∧ d.y < displaySide := by
  rw [canvasToDisplay] at h
  split at h
  · cases h
  · obtain ⟨⟨dx,dy⟩,_,hd⟩ := Option.bind_eq_some_iff.mp h
    dsimp only at hd
    split at hd
    · cases hd
    · next hlt =>
      cases hd
      simpa only [Bool.or_eq_true,decide_eq_true_eq,not_or,ge_iff_le,UInt8.not_le] using hlt

end NsPixels
