import NsPixels.Time
import NsPixels.Projection

/-!
# Trains

The rows of the registry and the clusters drawn on the display.
-/

namespace NsPixels

inductive TrainType
  | unknown
  | sng
  | slt
  | flirt
  | icm
  | ddz
  | virm
  | icng
deriving DecidableEq, Repr

/-- Single-bit mask of a rolling stock type. -/
def TrainType.asBit : TrainType → UInt8
  | unknown => (1 : UInt8) <<< 0
  | sng => (1 : UInt8) <<< 1
  | slt => (1 : UInt8) <<< 2
  | flirt => (1 : UInt8) <<< 3
  | icm => (1 : UInt8) <<< 4
  | ddz => (1 : UInt8) <<< 5
  | virm => (1 : UInt8) <<< 6
  | icng => (1 : UInt8) <<< 7

inductive ServiceType
  | unknown
  | sprinter
  | intercity
  | intercityDirect
deriving DecidableEq, Repr

/-- Single-bit mask of a service category. -/
def ServiceType.asBit : ServiceType → UInt8
  | unknown => (1 : UInt8) <<< 0
  | sprinter => (1 : UInt8) <<< 1
  | intercity => (1 : UInt8) <<< 2
  | intercityDirect => (1 : UInt8) <<< 3

theorem TrainType.asBit_ne_zero (t : TrainType) : t.asBit ≠ 0 := by cases t <;> decide

theorem ServiceType.asBit_ne_zero (s : ServiceType) : s.asBit ≠ 0 := by cases s <;> decide

/-- One row of the live registry, identified externally by train number. The
attempt offsets count seconds from the attempt to `lastSeen`. -/
structure TrainState where
  pixel : PixelCoord
  lastSeen : ℕ
  typ : TrainType
  service : ServiceType
  lastTypeAttemptAgoS : UInt16
  lastServiceAttemptAgoS : UInt16
deriving DecidableEq, Repr

namespace TrainState

/-- Sentinel of the attempt offsets: no attempt yet. -/
def attemptNever : UInt16 := 65535

/-- A train seen for the first time. -/
def new (pixel : PixelCoord) (lastSeen : ℕ) : TrainState where
  pixel := pixel
  lastSeen := lastSeen
  typ := .unknown
  service := .unknown
  lastTypeAttemptAgoS := attemptNever
  lastServiceAttemptAgoS := attemptNever

end TrainState

/-- One display pixel: its packed coordinate and the masks of every type and
service category sharing it. -/
structure PixelData where
  coordKey : UInt16
  types : UInt8
  services : UInt8
deriving DecidableEq, Repr

end NsPixels
