import Mathlib.Data.UInt

/-!
# Canvas pixels

Trains are stored as pixels of a 224×224 canvas. Coordinates at or above the
canvas size mark positions off the canvas.
-/

namespace NsPixels

/-! ### Bytes of a packed key -/

theorem toNat_shiftLeft_eight (c : UInt16) : (c <<< 8).toNat = c.toNat % 256 * 256 := by
  rw [UInt16.toNat_shiftLeft,show (8 : UInt16).toNat % 16 = 8 from rfl,Nat.shiftLeft_eq]
  omega

theorem toNat_shiftRight_eight (c : UInt16) : (c >>> 8).toNat = c.toNat / 256 := by
  rw [UInt16.toNat_shiftRight,show (8 : UInt16).toNat % 16 = 8 from rfl,Nat.shiftRight_eq_div_pow]

theorem toNat_and_ff (c : UInt16) : (c &&& 0xFF).toNat = c.toNat % 256 := by
  rw [UInt16.toNat_and]
  exact Nat.and_two_pow_sub_one_eq_mod c.toNat 8

theorem toNat_shiftLeft_and_ff00 (c : UInt16) :
    ((c <<< 8) &&& 0xFF00).toNat = c.toNat % 256 * 256 := by
  rw [UInt16.toNat_and,toNat_shiftLeft_eight,← Nat.shiftLeft_eq _ 8,
    show (0xFF00 : UInt16).toNat = 255 <<< 8 from rfl,← Nat.shiftLeft_and_distrib,
    show 255 = 2 ^ 8 - 1 from rfl,Nat.and_two_pow_sub_one_eq_mod _ 8,Nat.mod_mod]

/-- A high byte and a low byte do not overlap. -/
theorem toNat_or_bytes {h l : UInt16} {m : ℕ} (hm : h.toNat = m * 256) (hl : l.toNat < 256) :
    (h ||| l).toNat = m * 256 + l.toNat := by
  rw [UInt16.toNat_or,hm,← Nat.shiftLeft_eq m 8,
    Nat.shiftLeft_add_eq_or_of_lt (by simpa using hl)]

/-- Both bytes of a packed coordinate lie on the display. -/
def OnPanel (k : UInt16) : Prop := k >>> 8 < 64 ∧ k &&& 0xFF < 64

theorem onPanel_iff {k : UInt16} : OnPanel k ↔ k.toNat / 256 < 64 ∧ k.toNat % 256 < 64 := by
  rw [OnPanel,UInt16.lt_iff_toNat_lt,UInt16.lt_iff_toNat_lt,toNat_shiftRight_eight,toNat_and_ff]
  rfl

/-! ### Pixels -/

/-- One side of the virtual canvas, in pixels. -/
def canvasSide : UInt8 := 224

/-- One side of the display, in pixels. -/
def displaySide : UInt8 := 64

/-- A canvas or display pixel. -/
structure PixelCoord where
  x : UInt8
  y : UInt8
deriving DecidableEq, Repr

namespace PixelCoord

def isOnCanvas (c : PixelCoord) : Bool := c.x < canvasSide && c.y < canvasSide

/-- Both coordinates packed into one key, `x` in the high byte. -/
def asU16 (c : PixelCoord) : UInt16 := (c.x.toUInt16 <<< 8) ||| c.y.toUInt16

theorem asU16_toNat (c : PixelCoord) : c.asU16.toNat = c.x.toNat * 256 + c.y.toNat := by
  have hx : (c.x.toUInt16 <<< 8).toNat = c.x.toNat * 256 := by
    rw [toNat_shiftLeft_eight,UInt8.toNat_toUInt16,Nat.mod_eq_of_lt c.x.toNat_lt]
  have hy : c.y.toUInt16.toNat < 256 := by
    rw [UInt8.toNat_toUInt16]
    exact c.y.toNat_lt
  rw [asU16,toNat_or_bytes hx hy,UInt8.toNat_toUInt16]

end PixelCoord

end NsPixels
