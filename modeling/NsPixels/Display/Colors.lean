import Mathlib.Data.Fin.VecNotation
import NsPixels.DisplayConfig
import NsPixels.Lib.Checked
import NsPixels.Lib.Crossfade
import NsPixels.MapMode
import NsPixels.Train

/-!
# The colors of a frame

A pixel shows the color of one bit of its mask at a time and fades into the next one at
the end of each slot. From one millisecond to the next no channel moves by more than 1,
and none of the checked operations on the way panics.
-/

namespace NsPixels

open Checked Crossfade

/-- Dwell time on a single bit, the fade included. -/
def slotMs : ℕ := 1500

/-- Tail end of each slot spent fading into the next bit. -/
def fadeMs : ℕ := 500

/-- Brightness divisor of the pixels without the active bit. -/
def dimDiv : ℕ := 6

/-- Red, green and blue. -/
abbrev Rgb := Fin 3 → UInt8

def black : Rgb := ![0,0,0]

/-- Color of a single-bit `TrainType` mask. -/
def colorForTypeBit (bit : UInt8) : Rgb :=
  if bit = TrainType.unknown.asBit then ![10,10,10]
  else if bit = TrainType.sng.asBit then ![255,80,0]
  else if bit = TrainType.slt.asBit then ![0,200,255]
  else if bit = TrainType.flirt.asBit then ![255,0,200]
  else if bit = TrainType.icm.asBit then ![255,220,0]
  else if bit = TrainType.ddz.asBit then ![0,255,80]
  else if bit = TrainType.virm.asBit then ![80,80,255]
  else if bit = TrainType.icng.asBit then ![255,255,255]
  else black

/-- Color of a single-bit `ServiceType` mask. -/
def colorForServiceBit (bit : UInt8) : Rgb :=
  if bit = ServiceType.unknown.asBit then ![10,10,10]
  else if bit = ServiceType.sprinter.asBit then ![0,200,255]
  else if bit = ServiceType.intercity.asBit then ![255,220,0]
  else if bit = ServiceType.intercityDirect.asBit then ![255,40,40]
  else black

/-- Masks the pulse cycles through; `unknown` is left out. -/
def activeTypeBits : List UInt8 :=
  [TrainType.sng.asBit,TrainType.slt.asBit,TrainType.flirt.asBit,TrainType.icm.asBit,
    TrainType.ddz.asBit,TrainType.virm.asBit,TrainType.icng.asBit]

def activeServiceBits : List UInt8 :=
  [ServiceType.sprinter.asBit,ServiceType.intercity.asBit,ServiceType.intercityDirect.asBit]

/-- How the mask of a pixel is found, the color of a bit, and the cycle of the pulse. -/
structure Axis where
  extract : PixelData → UInt8
  colorFor : UInt8 → Rgb
  active : List UInt8

def axisFor : ColorMode → Axis
  | .byType => ⟨PixelData.types,colorForTypeBit,activeTypeBits⟩
  | .byService => ⟨PixelData.services,colorForServiceBit,activeServiceBits⟩

/-- `count_ones`. -/
def countOnes (bits : UInt8) : ℕ := bits.toBitVec.cpop.toNat

/-- The loop of `nth_set_bit`: `n` times the lowest bit is cleared. -/
def clearLowest : ℕ → UInt8 → Option UInt8
  | 0,m => some m
  | n + 1,m => do
    let pred ← checkedSubU8 m 1
    clearLowest n (m &&& pred)

/-- The `n`-th set bit of `mask`, counted from 0. -/
def nthSetBit (mask : UInt8) (n : ℕ) : Option UInt8 := do
  let m ← clearLowest n mask
  some (m &&& -m)

/-- One channel of `blend`. -/
def lerpU8 (t x y : UInt8) : Option UInt8 := do
  let inv ← sub 255 t.toNat
  let xv ← fits 16 (x.toNat * inv)
  let yv ← fits 16 (y.toNat * t.toNat)
  let v ← fits 16 (xv + yv)
  some (UInt8.ofNat (v / 255))

def blend (a b : Rgb) (t : UInt8) : Option Rgb := do
  let red ← lerpU8 t (a 0) (b 0)
  let green ← lerpU8 t (a 1) (b 1)
  let blue ← lerpU8 t (a 2) (b 2)
  some ![red,green,blue]

def dim (c : Rgb) : Rgb := fun i => UInt8.ofNat ((c i).toNat / dimDiv)

/-- Whether the fade has not begun `inSlot` ms into a slot. -/
def dwells (inSlot : ℕ) : Option Bool := do
  let edge ← fits 64 (inSlot + fadeMs)
  some (edge ≤ slotMs)

/-- The fade factor `inSlot` ms into a slot. -/
def fadeFactor (inSlot : ℕ) : Option UInt8 := do
  let edge ← fits 64 (inSlot + fadeMs)
  let into ← sub edge slotMs
  let scaled ← fits 64 (into * 255)
  some (UInt8.ofNat (scaled / fadeMs))

/-- Each pixel on its own: the set bits of `bits` in turn. -/
def clusterColor (bits : UInt8) (nowMs : ℕ) (axis : Axis) : Option Rgb :=
  match countOnes bits with
  | 0 => some black
  | 1 => some (axis.colorFor bits)
  | n => do
    let cycle ← fits 64 (n * slotMs)
    let phase ← rem nowMs cycle
    let slot := phase / slotMs % 2 ^ 32
    let inSlot := phase % slotMs
    let a := axis.colorFor (← nthSetBit bits slot)
    if ← dwells inSlot then some a
    else do
      let next ← rem (← fits 32 (slot + 1)) (n % 2 ^ 32)
      let b := axis.colorFor (← nthSetBit bits next)
      let t ← fadeFactor inSlot
      blend a b t

/-- A pixel in one frame of the pulse: the active color where it has the active bit,
else the dimmed color of its lowest bit. -/
def pixelColor (bits active : UInt8) (axis : Axis) : Rgb :=
  if bits = 0 then black
  else if bits &&& active ≠ 0 then axis.colorFor active
  else dim (axis.colorFor (bits &&& -bits))

/-- A point of the panel. -/
structure Point where
  x : ℤ
  y : ℤ
deriving DecidableEq, Repr

def pointOf (coordKey : UInt16) : Point :=
  ⟨(coordKey >>> 8).toNat,(coordKey &&& 0xff).toNat⟩

/-- The calls of `set_pixel`, in order. -/
abbrev Drawing := List (Point × Rgb)

def drawPerCluster (pixels : List PixelData) (nowMs : ℕ) (axis : Axis) : Option Drawing :=
  pixels.mapM fun e => do
    let rgb ← clusterColor (axis.extract e) nowMs axis
    some (pointOf e.coordKey,rgb)

/-- The whole map highlights one bit at a time. `usize` has 32 bits. -/
def drawGlobalPulse (pixels : List PixelData) (nowMs : ℕ) (axis : Axis) : Option Drawing := do
  let n := axis.active.length
  let cycle ← fits 64 (n * slotMs)
  let phase ← rem nowMs cycle
  let slot := phase / slotMs % 2 ^ 32
  let inSlot := phase % slotMs
  let activeA ← axis.active[slot]?
  let fadeT ←
    if ← dwells inSlot then some none
    else do
      let next ← rem (← fits 32 (slot + 1)) n
      let activeB ← axis.active[next]?
      let t ← fadeFactor inSlot
      some (some (activeB,t))
  pixels.mapM fun e => do
    let bits := axis.extract e
    let a := pixelColor bits activeA axis
    let rgb ← match fadeT with
      | none => some a
      | some (activeB,t) => blend a (pixelColor bits activeB axis) t
    some (pointOf e.coordKey,rgb)

/-- Plot the clusters as the configuration says. -/
def drawTrains (cfg : DisplayConfig) (nowMs : ℕ) (clusters : List PixelData) : Option Drawing :=
  match cfg.viz with
  | .perCluster => drawPerCluster clusters nowMs (axisFor cfg.col)
  | .globalPulse => drawGlobalPulse clusters nowMs (axisFor cfg.col)

/-! ### Bits of a mask -/

/-- Clearing the lowest set bit leaves one bit less. -/
theorem countOnes_clear {m : UInt8} (h : m ≠ 0) :
    countOnes (m &&& (m - 1)) + 1 = countOnes m := by
  have hall : ∀ k < 256, UInt8.ofNat k ≠ 0 →
      countOnes (UInt8.ofNat k &&& (UInt8.ofNat k - 1)) + 1 = countOnes (UInt8.ofNat k) := by
    decide +kernel
  have hm := hall m.toNat m.toNat_lt
  rw [UInt8.ofNat_toNat] at hm
  exact hm h

/-- As long as a bit is left, the loop subtracts 1 from a mask that is not 0. -/
theorem exists_clearLowest {n : ℕ} {m : UInt8} (h : n ≤ countOnes m) :
    ∃ m', clearLowest n m = some m' := by
  induction n generalizing m with
  | zero => exact ⟨m,rfl⟩
  | succ n ih =>
    have hm : m ≠ 0 := by
      rintro rfl
      exact Nat.not_succ_le_zero n h
    have hone : 1 ≤ m := UInt8.le_iff_toNat_le.mpr (Nat.pos_of_ne_zero fun h0 =>
      hm (UInt8.toNat_inj.mp h0))
    rw [← countOnes_clear hm] at h
    obtain ⟨m',hm'⟩ := ih (Nat.le_of_succ_le_succ h)
    exact ⟨m',by rw [clearLowest,checkedSubU8,if_pos hone]; exact hm'⟩

theorem exists_nthSetBit {mask : UInt8} {n : ℕ} (h : n < countOnes mask) :
    ∃ bit, nthSetBit mask n = some bit := by
  obtain ⟨m,hm⟩ := exists_clearLowest h.le
  exact ⟨m &&& -m,by rw [nthSetBit,hm]; rfl⟩

/-! ### Fades -/

theorem lerpU8_spec (t x y : UInt8) :
    ∃ v, lerpU8 t x y = some v ∧ v.toNat = lerp 255 x.toNat y.toNat t.toNat := by
  have hx := x.toNat_lt
  have hy := y.toNat_lt
  have ht := t.toNat_lt
  have hnum : x.toNat * (255 - t.toNat) + y.toNat * t.toNat ≤ 255 * 255 :=
    lerp_num_le (by omega) (by omega) (by omega)
  refine ⟨_,?_,UInt8.toNat_ofNat_of_lt' (n := lerp 255 x.toNat y.toNat t.toNat) ?_⟩
  · rw [lerpU8,sub_of_le (by omega)]
    simp only [Option.bind_eq_bind,Option.bind_some]
    rw [fits_of_lt (by omega),fits_of_lt (by omega)]
    simp only [Option.bind_some]
    rw [fits_of_lt (by omega)]
    rfl
  · change lerp 255 x.toNat y.toNat t.toNat < 256
    rw [lerp]
    omega

theorem blend_spec (a b : Rgb) (t : UInt8) :
    ∃ c, blend a b t = some c ∧
      ∀ i, (c i).toNat = lerp 255 (a i).toNat (b i).toNat t.toNat := by
  obtain ⟨red,hred,hred'⟩ := lerpU8_spec t (a 0) (b 0)
  obtain ⟨green,hgreen,hgreen'⟩ := lerpU8_spec t (a 1) (b 1)
  obtain ⟨blue,hblue,hblue'⟩ := lerpU8_spec t (a 2) (b 2)
  refine ⟨![red,green,blue],by rw [blend,hred,hgreen,hblue]; rfl,?_⟩
  intro i
  match i with
  | 0 => exact hred'
  | 1 => exact hgreen'
  | 2 => exact hblue'

/-- `rgb` is the color `inSlot` ms into a slot that goes from `a` to `b`. -/
def Between (a b : Rgb) (inSlot : ℕ) (rgb : Rgb) : Prop :=
  ∀ i, (rgb i).toNat = lerp 255 (a i).toNat (b i).toNat (factor 255 slotMs fadeMs inSlot)

/-- Within a slot either the first color is shown, or the fade factor and the blend
exist and give the color between the two. -/
theorem fade_cases {inSlot : ℕ} (h : inSlot < slotMs) :
    (dwells inSlot = some true ∧ ∀ a b, Between a b inSlot a) ∨
    (dwells inSlot = some false ∧ ∃ t, fadeFactor inSlot = some t ∧
      ∀ a b, ∃ c, blend a b t = some c ∧ Between a b inSlot c) := by
  rw [slotMs] at h
  have hfits : fits 64 (inSlot + fadeMs) = some (inSlot + fadeMs) :=
    fits_of_lt (by rw [fadeMs]; omega)
  rcases Nat.lt_or_ge slotMs (inSlot + fadeMs) with hfade | hdwell
  · refine Or.inr ⟨?_,?_⟩
    · rw [dwells,hfits]
      exact congrArg some (decide_eq_false (Nat.not_le.mpr hfade))
    · have hle : factor 255 slotMs fadeMs inSlot ≤ 255 := factor_le (by decide) h.le
      refine ⟨UInt8.ofNat (factor 255 slotMs fadeMs inSlot),?_,?_⟩
      · rw [fadeFactor,hfits]
        simp only [Option.bind_eq_bind,Option.bind_some]
        rw [sub_of_le hfade.le]
        simp only [Option.bind_some]
        rw [fits_of_lt (by rw [fadeMs,slotMs]; omega)]
        rfl
      · intro a b
        obtain ⟨c,hc,hbetween⟩ := blend_spec a b (UInt8.ofNat (factor 255 slotMs fadeMs inSlot))
        rw [UInt8.toNat_ofNat_of_lt' (Nat.lt_succ_of_le hle)] at hbetween
        exact ⟨c,hc,hbetween⟩
  · refine Or.inl ⟨?_,?_⟩
    · rw [dwells,hfits]
      exact congrArg some (decide_eq_true hdwell)
    · intro a b i
      rw [factor_eq_zero hdwell,lerp_zero (by decide)]

/-! ### Slots -/

/-- The slot arithmetic of a cycle of `n` slots. -/
theorem slot_spec {n : ℕ} (hn : 0 < n) (hlen : n < 2 ^ 32) (t : ℕ) :
    fits 64 (n * slotMs) = some (n * slotMs) ∧
    rem t (n * slotMs) = some (t % (n * slotMs)) ∧
    t % (n * slotMs) / slotMs % 2 ^ 32 = t / slotMs % n ∧
    t % (n * slotMs) % slotMs = t % slotMs ∧
    fits 32 (t / slotMs % n + 1) = some (t / slotMs % n + 1) ∧
    rem (t / slotMs % n + 1) n = some ((t / slotMs % n + 1) % n) := by
  have hslot := Nat.mod_lt (t / slotMs) hn
  refine ⟨fits_of_lt ?_,rem_of_pos (Nat.mul_pos hn (by decide)),?_,Nat.mod_mul_left_mod _ _ _,
    fits_of_lt (by omega),rem_of_pos hn⟩
  · rw [slotMs]
    omega
  · rw [Nat.mod_mul_left_div_self,Nat.mod_eq_of_lt (hslot.trans hlen)]

/-- `color` cycles through `n` colors and gives `rgb` at `t`. -/
def Shows (n : ℕ) (color : ℕ → Rgb) (t : ℕ) (rgb : Rgb) : Prop :=
  ∀ i, (rgb i).toNat = frame 255 n slotMs fadeMs (fun k => (color k i).toNat) t

theorem shows_iff_between {n t : ℕ} {color : ℕ → Rgb} {rgb : Rgb} :
    Shows n color t rgb ↔
      Between (color (t / slotMs % n)) (color ((t / slotMs % n + 1) % n)) (t % slotMs) rgb := by
  simp only [Shows,frame_eq,shown,Between]

/-- Two colors that differ by at most 1 in each channel. -/
def CloseRgb (a b : Rgb) : Prop := ∀ i, Close (a i).toNat (b i).toNat

theorem CloseRgb.refl (a : Rgb) : CloseRgb a a := fun i => Close.refl (a i).toNat

/-- Neighbouring milliseconds show neighbouring colors. -/
theorem Shows.close {n t : ℕ} {color : ℕ → Rgb} {a b : Rgb} (ha : Shows n color t a)
    (hb : Shows n color (t + 1) b) : CloseRgb a b := by
  intro i
  rw [ha i,hb i]
  exact frame_close (by decide) (by decide) (by decide) (by decide)
    (fun k => Nat.le_of_lt_succ (color k i).toNat_lt) t

/-! ### The two drawings -/

/-- A mask with two bits or more cycles through the colors of its bits. -/
theorem clusterColor_spec {bits : UInt8} (h : 2 ≤ countOnes bits) (t : ℕ) (axis : Axis) :
    ∃ rgb, clusterColor bits t axis = some rgb ∧
      Shows (countOnes bits) (fun k => axis.colorFor ((nthSetBit bits k).getD 0)) t rgb := by
  have hpos : 0 < countOnes bits := by omega
  have hlen : countOnes bits < 2 ^ 32 := lt_of_lt_of_le bits.toBitVec.cpop.isLt (by decide)
  obtain ⟨hcycle,hphase,hslot,hin,hnext,hrem⟩ := slot_spec hpos hlen t
  obtain ⟨bitA,hA⟩ := exists_nthSetBit (Nat.mod_lt (t / slotMs) hpos)
  obtain ⟨bitB,hB⟩ := exists_nthSetBit (Nat.mod_lt (t / slotMs % countOnes bits + 1) hpos)
  have hrun : clusterColor bits t axis =
      (dwells (t % slotMs)).bind fun dwell =>
        if dwell then some (axis.colorFor bitA)
        else (fadeFactor (t % slotMs)).bind fun f =>
          blend (axis.colorFor bitA) (axis.colorFor bitB) f := by
    rw [clusterColor]
    split
    · omega
    · omega
    · simp only [Option.bind_eq_bind,hcycle,hphase,hslot,hin,hnext,hrem,hA,hB,Option.bind_some,
        Nat.mod_eq_of_lt hlen]
  simp only [shows_iff_between,hA,hB,Option.getD_some,hrun]
  rcases fade_cases (Nat.mod_lt t (show 0 < slotMs by decide)) with
    ⟨hdwell,hbetween⟩ | ⟨hdwell,f,hf,hblend⟩
  · exact ⟨_,by rw [hdwell]; rfl,hbetween _ _⟩
  · obtain ⟨c,hc,hbetween⟩ := hblend (axis.colorFor bitA) (axis.colorFor bitB)
    exact ⟨c,by rw [hdwell,Option.bind_some,hf]; exact hc,hbetween⟩

/-- From one millisecond to the next a mask keeps its color, up to 1 in each channel. -/
theorem clusterColor_close (bits : UInt8) (t : ℕ) (axis : Axis) :
    ∃ a b, clusterColor bits t axis = some a ∧ clusterColor bits (t + 1) axis = some b ∧
      CloseRgb a b := by
  rcases Nat.lt_or_ge (countOnes bits) 2 with hfew | hmany
  · have hconst : ∃ a, ∀ u, clusterColor bits u axis = some a := by
      obtain h0 | h1 : countOnes bits = 0 ∨ countOnes bits = 1 := by omega
      · exact ⟨black,fun u => by rw [clusterColor,h0]; rfl⟩
      · exact ⟨axis.colorFor bits,fun u => by rw [clusterColor,h1]; rfl⟩
    obtain ⟨a,ha⟩ := hconst
    exact ⟨a,a,ha t,ha (t + 1),CloseRgb.refl a⟩
  · obtain ⟨a,ha,hshows⟩ := clusterColor_spec hmany t axis
    obtain ⟨b,hb,hshows'⟩ := clusterColor_spec hmany (t + 1) axis
    exact ⟨a,b,ha,hb,hshows.close hshows'⟩

/-- A traversal in which no element fails. -/
theorem mapM_eq_some_map {α β : Type} {f : α → Option β} {g : α → β} (h : ∀ a, f a = some (g a))
    (l : List α) : l.mapM f = some (l.map g) := by
  obtain rfl : f = fun a => pure (g a) := by
    funext a
    exact h a
  exact List.mapM_pure

/-- The pulse cycles, for each pixel, through what the active bits make of it. -/
theorem drawGlobalPulse_spec {axis : Axis} (hne : axis.active ≠ [])
    (hlen : axis.active.length < 2 ^ 32) (pixels : List PixelData) (t : ℕ) :
    ∃ paint : PixelData → Rgb,
      drawGlobalPulse pixels t axis =
        some (pixels.map fun e => (pointOf e.coordKey,paint e)) ∧
      ∀ e, Shows axis.active.length
        (fun k => pixelColor (axis.extract e) (axis.active.getD k 0) axis) t (paint e) := by
  have hpos : 0 < axis.active.length := List.length_pos_iff.mpr hne
  obtain ⟨hcycle,hphase,hslot,hin,hnext,hrem⟩ := slot_spec hpos hlen t
  have hget : ∀ k, axis.active[k % axis.active.length]? =
      some (axis.active.getD (k % axis.active.length) 0) := by
    intro k
    rw [List.getD_eq_getElem?_getD,List.getElem?_eq_getElem (Nat.mod_lt k hpos)]
    rfl
  simp only [shows_iff_between,drawGlobalPulse,Option.bind_eq_bind,hcycle,hphase,hslot,hin,hnext,
    hrem,hget,Option.bind_some]
  rcases fade_cases (Nat.mod_lt t (show 0 < slotMs by decide)) with
    ⟨hdwell,hbetween⟩ | ⟨hdwell,f,hf,hblend⟩
  · simp only [hdwell,Option.bind_some,if_true]
    exact ⟨_,mapM_eq_some_map (fun e => rfl) pixels,fun e => hbetween _ _⟩
  · choose mix hmix hbetween using hblend
    simp only [hdwell,hf,Option.bind_some,Bool.false_eq_true,if_false,hmix]
    exact ⟨_,mapM_eq_some_map (fun e => rfl) pixels,fun e => hbetween _ _⟩

/-- Two drawings of the same points whose colors differ by at most 1 in each channel. -/
def CloseDrawing (a b : Drawing) : Prop :=
  List.Forall₂ (fun p q => p.1 = q.1 ∧ CloseRgb p.2 q.2) a b

theorem closeDrawing_map {a b : PixelData → Rgb} (h : ∀ e, CloseRgb (a e) (b e))
    (pixels : List PixelData) :
    CloseDrawing (pixels.map fun e => (pointOf e.coordKey,a e))
      (pixels.map fun e => (pointOf e.coordKey,b e)) := by
  rw [CloseDrawing,List.forall₂_map_left_iff,List.forall₂_map_right_iff,List.forall₂_same]
  exact fun e _ => ⟨rfl,h e⟩

theorem drawGlobalPulse_close {axis : Axis} (hne : axis.active ≠ [])
    (hlen : axis.active.length < 2 ^ 32) (pixels : List PixelData) (t : ℕ) :
    ∃ a b, drawGlobalPulse pixels t axis = some a ∧
      drawGlobalPulse pixels (t + 1) axis = some b ∧
      a.map Prod.fst = pixels.map (fun e => pointOf e.coordKey) ∧ CloseDrawing a b := by
  obtain ⟨paint,hrun,hshows⟩ := drawGlobalPulse_spec hne hlen pixels t
  obtain ⟨paint',hrun',hshows'⟩ := drawGlobalPulse_spec hne hlen pixels (t + 1)
  refine ⟨_,_,hrun,hrun',by rw [List.map_map]; rfl,?_⟩
  exact closeDrawing_map (fun e => (hshows e).close (hshows' e)) pixels

/-- Between neighbouring milliseconds, seams included, both drawings give every pixel
colors that differ by at most 1 in each channel, and no checked operation panics. -/
theorem colors_smooth (axis : Axis) (hne : axis.active ≠ []) (hlen : axis.active.length < 2 ^ 32)
    (t : ℕ) :
    (∀ bits, ∃ a b, clusterColor bits t axis = some a ∧
      clusterColor bits (t + 1) axis = some b ∧ CloseRgb a b) ∧
    (∀ pixels, ∃ a b, drawGlobalPulse pixels t axis = some a ∧
      drawGlobalPulse pixels (t + 1) axis = some b ∧
      a.map Prod.fst = pixels.map (fun e => pointOf e.coordKey) ∧ CloseDrawing a b) :=
  ⟨fun bits => clusterColor_close bits t axis,
    fun pixels => drawGlobalPulse_close hne hlen pixels t⟩

/-- At the last millisecond of the pulse over the types. -/
theorem colors_smooth_wrap :
    let axis := axisFor .byType
    (∀ bits, ∃ a b, clusterColor bits 10499 axis = some a ∧
      clusterColor bits 10500 axis = some b ∧ CloseRgb a b) ∧
    (∀ pixels, ∃ a b, drawGlobalPulse pixels 10499 axis = some a ∧
      drawGlobalPulse pixels 10500 axis = some b ∧
      a.map Prod.fst = pixels.map (fun e => pointOf e.coordKey) ∧ CloseDrawing a b) :=
  colors_smooth (axisFor .byType) (by decide) (by decide) 10499

/-- Every configuration draws without a flash. -/
theorem drawTrains_close (cfg : DisplayConfig) (clusters : List PixelData) (t : ℕ) :
    ∃ a b, drawTrains cfg t clusters = some a ∧ drawTrains cfg (t + 1) clusters = some b ∧
      CloseDrawing a b := by
  match cfg with
  | ⟨.perCluster,col⟩ =>
    choose a b ha hb hclose using
      fun e : PixelData => clusterColor_close ((axisFor col).extract e) t (axisFor col)
    refine ⟨_,_,?_,?_,closeDrawing_map hclose clusters⟩
    · exact mapM_eq_some_map (fun e => by rw [ha]; rfl) clusters
    · exact mapM_eq_some_map (fun e => by rw [hb]; rfl) clusters
  | ⟨.globalPulse,col⟩ =>
    have hactive : (axisFor col).active ≠ [] ∧ (axisFor col).active.length < 2 ^ 32 := by
      cases col <;> decide
    obtain ⟨a,b,ha,hb,-,hclose⟩ := drawGlobalPulse_close hactive.1 hactive.2 clusters t
    exact ⟨a,b,ha,hb,hclose⟩

end NsPixels
