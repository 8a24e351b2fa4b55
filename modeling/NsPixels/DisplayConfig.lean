import Mathlib.Data.Nat.Notation

/-!
# The display configuration

Two modes that the buttons cycle through. `CONFIG` holds the current pair.
-/

namespace NsPixels

/-- How the colors of a pixel change over time. -/
inductive VizMode
  /-- each pixel cycles through its own colors -/
  | perCluster
  /-- the whole map pulses through the types -/
  | globalPulse
deriving DecidableEq, Repr

def VizMode.next : VizMode → VizMode
  | perCluster => globalPulse
  | globalPulse => perCluster

/-- Which property of a train its color shows. -/
inductive ColorMode
  | byType
  | byService
deriving DecidableEq, Repr

def ColorMode.next : ColorMode → ColorMode
  | byType => byService
  | byService => byType

structure DisplayConfig where
  viz : VizMode
  col : ColorMode
deriving DecidableEq, Repr

/-- The configuration before anything is loaded. -/
def DisplayConfig.default : DisplayConfig := ⟨.perCluster,.byType⟩

/-- The presses that change the configuration. A long press of UP does not. -/
inductive Button
  | upShort
  | down
deriving DecidableEq, Repr

/-- The closures that the input task passes to `update_config`. -/
def Button.cycle : Button → DisplayConfig → DisplayConfig
  | .upShort, c => ⟨c.viz.next,c.col⟩
  | .down, c => ⟨c.viz,c.col.next⟩

end NsPixels
