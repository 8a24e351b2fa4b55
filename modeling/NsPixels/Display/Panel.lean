import NsPixels.Display
import NsPixels.Display.Colors
import NsPixels.Lib.Painting

/-!
# What the panel shows

The frame that is drawn in the end, against the registry its snapshot was built from:
each cell of the map is set to the color of the trains there, turned to the direction of the
frame, and to a color other than black exactly if there are any. What the panel shows of a
color is up to the bit planes of the framebuffer.
-/

namespace NsPixels

open FixedCap Painting QuarterTurn Crossfade

/-! ### One pixel at a time -/

/-- The color of a pixel with the mask `m`, drawn alone. -/
def maskColor (cfg : DisplayConfig) (nowMs : ℕ) (m : UInt8) : Rgb :=
  match drawTrains cfg nowMs [⟨0,m,m⟩] with
  | some [(_,rgb)] => rgb
  | _ => black

variable {col : ColorMode} {t : ℕ} {m : UInt8}

theorem extract_alone (col : ColorMode) (m : UInt8) : (axisFor col).extract ⟨0,m,m⟩ = m := by
  cases col <;> rfl

theorem Shows.unique {n : ℕ} {color : ℕ → Rgb} {a b : Rgb} (ha : Shows n color t a)
    (hb : Shows n color t b) : a = b := by
  funext i
  rw [← UInt8.toNat_inj,ha i,hb i]

theorem active_axisFor (col : ColorMode) :
    (axisFor col).active ≠ [] ∧ (axisFor col).active.length < 2 ^ 32 := by
  cases col <;> decide

theorem clusterColor_eq_maskColor (col : ColorMode) (t : ℕ) (m : UInt8) :
    clusterColor m t (axisFor col) = some (maskColor ⟨.perCluster,col⟩ t m) := by
  obtain ⟨rgb,-,hrgb,-⟩ := clusterColor_close m t (axisFor col)
  have halone : drawTrains ⟨.perCluster,col⟩ t [⟨0,m,m⟩] = some [(pointOf 0,rgb)] := by
    rw [drawTrains,drawPerCluster,List.mapM_cons,List.mapM_nil,extract_alone,hrgb]
    rfl
  rw [hrgb,maskColor,halone]

/-- In the pulse a pixel cycles through what the active bits make of its mask. -/
theorem shows_maskColor (col : ColorMode) (t : ℕ) (m : UInt8) :
    Shows (axisFor col).active.length
      (fun k => pixelColor m ((axisFor col).active.getD k 0) (axisFor col)) t
      (maskColor ⟨.globalPulse,col⟩ t m) := by
  obtain ⟨paint,hrun,hshows⟩ :=
    drawGlobalPulse_spec (active_axisFor col).1 (active_axisFor col).2 [⟨0,m,m⟩] t
  have halone : drawTrains ⟨.globalPulse,col⟩ t [⟨0,m,m⟩] = some [(pointOf 0,paint ⟨0,m,m⟩)] := hrun
  have hpaint := hshows ⟨0,m,m⟩
  rw [extract_alone] at hpaint
  rw [maskColor,halone]
  exact hpaint

/-- Every pixel is drawn as if it were alone, and nothing panics. -/
theorem drawTrains_eq (cfg : DisplayConfig) (t : ℕ) (pixels : List PixelData) :
    drawTrains cfg t pixels = some (pixels.map fun e =>
      (pointOf e.coordKey,maskColor cfg t ((axisFor cfg.col).extract e))) := by
  match cfg with
  | ⟨.perCluster,col⟩ =>
    exact mapM_eq_some_map (fun e => by rw [clusterColor_eq_maskColor]; rfl) pixels
  | ⟨.globalPulse,col⟩ =>
    obtain ⟨paint,hrun,hshows⟩ :=
      drawGlobalPulse_spec (active_axisFor col).1 (active_axisFor col).2 pixels t
    refine hrun.trans (congrArg some (List.map_congr_left fun e _ => ?_))
    rw [(hshows e).unique (shows_maskColor col t ((axisFor col).extract e))]

/-! ### Colors other than black -/

/-- The bits of the masks of an axis. -/
def maskBits : ColorMode → List UInt8
  | .byType => [1,2,4,8,16,32,64,128]
  | .byService => [1,2,4,8]

/-- A mask with a bit of the axis and no other. -/
def IsMask (col : ColorMode) (m : UInt8) : Prop := m ≠ 0 ∧ m &&& (maskBits col).foldr (· ||| ·) 0 = m

instance : DecidablePred (IsMask col) := fun m => by unfold IsMask; infer_instance

/-- Two colors that have a channel in common. -/
def Meets (a b : Rgb) : Prop := ∃ i, a i ≠ 0 ∧ b i ≠ 0

instance : DecidableRel Meets := fun a b => by unfold Meets; infer_instance

theorem black_toNat (i : Fin 3) : (black i).toNat = 0 := by
  match i with
  | 0 | 1 | 2 => rfl

/-- The colors of single bits, bright and dim. -/
def palette (col : ColorMode) : List Rgb :=
  (maskBits col).flatMap fun b => [(axisFor col).colorFor b,dim ((axisFor col).colorFor b)]

theorem palette_meets (col : ColorMode) {a b : Rgb} (ha : a ∈ palette col) (hb : b ∈ palette col) :
    Meets a b := by
  have hall : (palette col).all fun a => (palette col).all fun b => decide (Meets a b) := by
    cases col <;> decide +kernel
  exact of_decide_eq_true (List.all_eq_true.mp (List.all_eq_true.mp hall a ha) b hb)

/-- The lowest bit of a mask, and a mask with one bit. -/
theorem IsMask.bit_mem (h : IsMask col m) :
    m &&& -m ∈ maskBits col ∧ (countOnes m = 1 → m ∈ maskBits col) := by
  have hall : ∀ col, ∀ k < 256, IsMask col (UInt8.ofNat k) →
      UInt8.ofNat k &&& -UInt8.ofNat k ∈ maskBits col ∧
        (countOnes (UInt8.ofNat k) = 1 → UInt8.ofNat k ∈ maskBits col) := by
    intro col
    cases col <;> decide +kernel
  have hm := hall col m.toNat m.toNat_lt
  rw [UInt8.ofNat_toNat] at hm
  exact hm h

theorem IsMask.clearLowest {n : ℕ} (h : IsMask col m) (hn : n < countOnes m) :
    ∃ m', clearLowest n m = some m' ∧ IsMask col m' := by
  induction n generalizing m with
  | zero => exact ⟨m,rfl,h⟩
  | succ n ih =>
    have hone : 1 ≤ m := UInt8.le_iff_toNat_le.mpr (Nat.pos_of_ne_zero fun h0 =>
      h.1 (UInt8.toNat_inj.mp h0))
    rw [← countOnes_clear h.1] at hn
    have hpos : countOnes (m &&& (m - 1)) ≠ 0 := by omega
    have hcleared : IsMask col (m &&& (m - 1)) := by
      refine ⟨fun hzero => hpos (by rw [hzero]; rfl),?_⟩
      rw [UInt8.and_assoc,UInt8.and_comm (m - 1),← UInt8.and_assoc,h.2]
    obtain ⟨m',hm',hmask⟩ := ih hcleared (by omega)
    exact ⟨m',by rw [NsPixels.clearLowest,checkedSubU8,if_pos hone]; exact hm',hmask⟩

theorem IsMask.nthSetBit {n : ℕ} (h : IsMask col m) (hn : n < countOnes m) :
    ∃ b ∈ maskBits col, nthSetBit m n = some b := by
  obtain ⟨m',hm',hmask⟩ := h.clearLowest hn
  exact ⟨m' &&& -m',hmask.bit_mem.1,by rw [NsPixels.nthSetBit,hm']; rfl⟩

theorem color_mem_palette {b : UInt8} (h : b ∈ maskBits col) :
    (axisFor col).colorFor b ∈ palette col ∧ dim ((axisFor col).colorFor b) ∈ palette col := by
  constructor
  · exact List.mem_flatMap.mpr ⟨b,h,List.mem_cons_self⟩
  · exact List.mem_flatMap.mpr ⟨b,h,List.mem_cons_of_mem _ (List.mem_singleton_self _)⟩

/-- A color of the palette is not black, as it has a channel in common with itself. -/
theorem ne_black_of_mem_palette {a : Rgb} (h : a ∈ palette col) : a ≠ black := by
  obtain ⟨i,hi,-⟩ := palette_meets col h h
  rintro rfl
  exact hi (UInt8.toNat_inj.mp (black_toNat i))

variable (col) in
/-- Fading between colors that have a channel in common never goes through black. -/
theorem Shows.ne_black {n : ℕ} {color : ℕ → Rgb} {rgb : Rgb} (h : Shows n color t rgb) (hn : 0 < n)
    (hcolor : ∀ k < n, color k ∈ palette col) : rgb ≠ black := by
  obtain ⟨i,hi,hi'⟩ := palette_meets col (hcolor _ (Nat.mod_lt (t / slotMs) hn))
    (hcolor _ (Nat.mod_lt (t / slotMs % n + 1) hn))
  have hpos : ∀ c : UInt8, c ≠ 0 → 1 ≤ c.toNat := fun c hc =>
    Nat.pos_of_ne_zero fun h0 => hc (UInt8.toNat_inj.mp h0)
  have hcolored := le_lerp (by decide) (hpos _ hi) (hpos _ hi')
    (factor_le (D := 255) (show 0 < fadeMs by decide) (Nat.mod_lt t (show 0 < slotMs by decide)).le)
  rw [← shows_iff_between.mp h i] at hcolored
  rintro rfl
  rw [black_toNat] at hcolored
  cases hcolored

/-- A pixel with a mask is never black, at any time and in any mode. -/
theorem maskColor_ne_black (cfg : DisplayConfig) (t : ℕ) (h : IsMask cfg.col m) :
    maskColor cfg t m ≠ black := by
  match cfg with
  | ⟨.perCluster,col⟩ =>
    have hcolor := clusterColor_eq_maskColor col t m
    rcases Nat.lt_or_ge (countOnes m) 2 with hfew | hmany
    · have hone : countOnes m = 1 := by
        have := countOnes_clear h.1
        omega
      have hbit : clusterColor m t (axisFor col) = some ((axisFor col).colorFor m) := by
        rw [clusterColor,hone]
        rfl
      rw [← Option.some.inj (hbit.symm.trans hcolor)]
      exact ne_black_of_mem_palette (color_mem_palette (h.bit_mem.2 hone)).1
    · obtain ⟨rgb,hrgb,hshows⟩ := clusterColor_spec hmany t (axisFor col)
      rw [hrgb,Option.some.injEq] at hcolor
      rw [← hcolor]
      refine Shows.ne_black col hshows (by omega) fun k hk => ?_
      obtain ⟨b,hb,hnth⟩ := h.nthSetBit hk
      rw [hnth,Option.getD_some]
      exact (color_mem_palette hb).1
  | ⟨.globalPulse,col⟩ =>
    refine Shows.ne_black col (shows_maskColor col t m) ?_ fun k hk => ?_
    · exact List.length_pos_iff.mpr (active_axisFor col).1
    · have hactive : (axisFor col).active.getD k 0 ∈ maskBits col := by
        rw [List.getD_eq_getElem?_getD,List.getElem?_eq_getElem hk,Option.getD_some]
        have hall : (axisFor col).active ⊆ maskBits col := by
          cases col <;> decide
        exact hall (List.getElem_mem hk)
      rw [pixelColor,if_neg h.1]
      split
      · exact (color_mem_palette hactive).1
      · exact (color_mem_palette h.bit_mem.1).2

/-- Without any bit a pixel is black. -/
theorem maskColor_zero (cfg : DisplayConfig) (t : ℕ) : maskColor cfg t 0 = black := by
  match cfg with
  | ⟨.perCluster,col⟩ =>
    have hcolor := clusterColor_eq_maskColor col t 0
    exact (Option.some.inj hcolor).symm
  | ⟨.globalPulse,col⟩ =>
    apply (shows_maskColor col t 0).unique
    rw [shows_iff_between]
    intro i
    have hblack : ∀ bit, pixelColor 0 bit (axisFor col) = black := fun _ => if_pos rfl
    rw [hblack,hblack,black_toNat,lerp,Nat.zero_mul,Nat.zero_mul]

/-! ### The framebuffer -/

/-- The point of a cell of the panel. -/
def cellPoint (c : Fin 64 × Fin 64) : Point := ⟨c.1.val,c.2.val⟩

theorem cellPoint_injective : Function.Injective cellPoint := by
  intro c c' h
  obtain ⟨hx,hy⟩ := Point.mk.inj h
  exact Prod.ext (Fin.ext (Int.ofNat.inj hx)) (Fin.ext (Int.ofNat.inj hy))

theorem pointOf_keyOf (c : Fin 64 × Fin 64) : pointOf (keyOf c) = cellPoint c := by
  have hx := c.1.isLt
  have hy := c.2.isLt
  rw [pointOf,cellPoint,toNat_shiftRight_eight,show (0xff : UInt16) = 0xFF from rfl,toNat_and_ff,
    keyOf_toNat,show (c.1.val * 256 + c.2.val) / 256 = c.1.val by omega,
    show (c.1.val * 256 + c.2.val) % 256 = c.2.val by omega]

/-- The framebuffer of the panel driver. Its bit planes keep only `planes` of a color, and
`level` is what the panel shows of it at a cell; points off the panel do not matter. -/
structure FrameBuffer (F C : Type) where
  erase : F → F
  setPixel : F → Point → Rgb → F
  level : F → Fin 64 × Fin 64 → C
  planes : Rgb → C
  level_erase : ∀ f c, level (erase f) c = planes black
  level_setPixel : ∀ f c rgb c', level (setPixel f (cellPoint c) rgb) c' =
    if c' = c then planes rgb else level f c'

/-- Seven bit planes keep the upper seven bits of each channel. -/
def sevenPlanes : FrameBuffer (Fin 64 × Fin 64 → Rgb) Rgb where
  erase _ _ := black
  setPixel f p rgb c := if cellPoint c = p then rgb else f c
  level f c i := f c i >>> 1
  planes rgb i := rgb i >>> 1
  level_erase _ _ := rfl
  level_setPixel f c rgb c' := by
    simp only [cellPoint_injective.eq_iff]
    split <;> rfl

/-- Of an unresolved train nothing is left in the pulse. -/
example : sevenPlanes.planes (pixelColor 1 2 (axisFor .byType)) = sevenPlanes.planes black := by
  decide +kernel

/-- The color a point is set to, black if it is not set. -/
def Drawing.color (d : Drawing) : Point → Rgb := paint black d

namespace FrameBuffer

variable {F C : Type} (fb : FrameBuffer F C)

/-- A frame: the buffer is erased, whatever was in it, and the pixels are set. -/
def render (old : F) (d : Drawing) : F := d.foldl (fun f w => fb.setPixel f w.1 w.2) (fb.erase old)

def surface : Surface F (Fin 64 × Fin 64) Rgb C where
  blank := black
  erase := fb.erase
  set f c rgb := fb.setPixel f (cellPoint c) rgb
  level := fb.level
  keep := fb.planes
  level_erase := fb.level_erase
  level_set f c rgb c' := fb.level_setPixel f c rgb c'

/-- Of pixels on the panel it shows what the planes keep. -/
theorem level_render (old : F) (d : List ((Fin 64 × Fin 64) × Rgb)) (c : Fin 64 × Fin 64) :
    fb.level (fb.render old (d.map fun w => (cellPoint w.1,w.2))) c =
      fb.planes (Drawing.color (d.map fun w => (cellPoint w.1,w.2)) (cellPoint c)) := by
  rw [render,List.foldl_map,Drawing.color,paint_map cellPoint_injective]
  exact fb.surface.level_paint old d c

end FrameBuffer

/-- Drawing the clusters sets the pixels of `d`, and the panel shows what is kept of them. -/
structure Draws {F C : Type} (fb : FrameBuffer F C) (old : F) (cfg : DisplayConfig) (nowMs : ℕ)
    (clusters : ClusterVec) (d : Drawing) : Prop where
  drawn : drawTrains cfg nowMs clusters.toList = some d
  level : ∀ c, fb.level (fb.render old d) c = fb.planes (d.color (cellPoint c))

/-! ### The picture -/

/-- Where a cell of the map is on the panel. -/
def panelPoint (dir : Direction) (q : Fin 64 × Fin 64) : Point := pointOf (keyOf (turn 64 dir.angle q))

/-- The map a snapshot draws, before it is turned. -/
def cells (cfg : DisplayConfig) (nowMs : ℕ) (snap : ClusterVec) : List ((Fin 64 × Fin 64) × Rgb) :=
  snap.toList.map fun p =>
    (cellOf p.coordKey,maskColor cfg nowMs ((axisFor cfg.col).extract p))

theorem pointOf_injective : Function.Injective pointOf := by
  intro c d h
  obtain ⟨hx,hy⟩ := Point.mk.inj h
  have hhigh := Int.ofNat.inj hx
  have hlow := Int.ofNat.inj hy
  rw [toNat_shiftRight_eight,toNat_shiftRight_eight] at hhigh
  rw [show (0xff : UInt16) = 0xFF from rfl,toNat_and_ff,toNat_and_ff] at hlow
  rw [← UInt16.toNat_inj]
  omega

theorem panelPoint_injective (dir : Direction) : Function.Injective (panelPoint dir) := by
  intro q q' h
  have hcell := congrArg cellOf (pointOf_injective h)
  rw [cellOf_keyOf,cellOf_keyOf] at hcell
  exact (turn 64 dir.angle).injective hcell

theorem drawTrains_turned (cfg : DisplayConfig) (t : ℕ) (snap : ClusterVec) (dir : Direction) :
    drawTrains cfg t (snap.map (·.turned dir)).toList =
      some ((cells cfg t snap).map fun w => (panelPoint dir w.1,w.2)) := by
  have hextract : ∀ p : PixelData, (axisFor cfg.col).extract (p.turned dir) =
      (axisFor cfg.col).extract p := by
    intro p
    cases cfg.col <;> rfl
  rw [drawTrains_eq,Vec.toList_map,List.map_map,cells,List.map_map]
  refine congrArg some (List.map_congr_left fun p _ => ?_)
  simp only [Function.comp_apply,hextract]
  rfl

variable {F C : Type} (fb : FrameBuffer F C) (old : F)

/-- The picture of a turned snapshot, cell by cell, and black everywhere else. -/
theorem draws_turned (cfg : DisplayConfig) (t : ℕ) (snap : ClusterVec) (dir : Direction) :
    ∃ d, Draws fb old cfg t (snap.map (·.turned dir)) d ∧
      (∀ q, d.color (panelPoint dir q) = paint black (cells cfg t snap) q) ∧
      ∀ p, (∀ q, p ≠ panelPoint dir q) → d.color p = black := by
  refine ⟨_,⟨drawTrains_turned cfg t snap dir,?_⟩,fun q => paint_map (panelPoint_injective dir),?_⟩
  · have hcells : ((cells cfg t snap).map fun w => (panelPoint dir w.1,w.2)) =
        ((cells cfg t snap).map fun w => (turn 64 dir.angle w.1,w.2)).map
          fun w => (cellPoint w.1,w.2) := by
      rw [List.map_map]
      exact List.map_congr_left fun w _ => Prod.ext (pointOf_keyOf _) rfl
    rw [hcells]
    exact fb.level_render old _
  · intro p hp
    refine paint_of_notMem fun hmem => ?_
    obtain ⟨w,hw,rfl⟩ := List.mem_map.mp hmem
    obtain ⟨c,-,rfl⟩ := List.mem_map.mp hw
    exact hp c.1 rfl

namespace Registry

/-- The bit of a train on an axis. -/
def trainBit : ColorMode → TrainState → UInt8
  | .byType,s => s.typ.asBit
  | .byService,s => s.service.asBit

theorem trainBit_isMask (col : ColorMode) (s : TrainState) : IsMask col (trainBit col s) := by
  cases col with
  | byType =>
    rw [trainBit]
    cases s.typ <;> decide
  | byService =>
    rw [trainBit]
    cases s.service <;> decide

theorem maskOf_isMask {l : List TrainState} (h : l ≠ []) :
    IsMask col (maskOf (trainBit col) l) := by
  refine ⟨maskOf_ne_zero (fun s => (trainBit_isMask col s).1) h,?_⟩
  clear h
  induction l with
  | nil => exact UInt8.zero_and
  | cons s l ih =>
    change (trainBit col s ||| maskOf (trainBit col) l) &&& _ =
      trainBit col s ||| maskOf (trainBit col) l
    rw [← UInt8.toNat_inj,UInt8.toNat_and,UInt8.toNat_or,Nat.and_or_distrib_right,← UInt8.toNat_and,
      ← UInt8.toNat_and,(trainBit_isMask col s).2,ih,← UInt8.toNat_or]

/-- On the map a cell has the color of the trains there. -/
theorem paint_cells {r : Registry} {mode : MapMode} {snap : ClusterVec} (cfg : DisplayConfig) (t : ℕ)
    (h : IsSnapshot r mode snap.toList) (hsnap : Drawable snap) (q : Fin 64 × Fin 64) :
    paint black (cells cfg t snap) q =
      maskColor cfg t (maskOf (trainBit cfg.col) (r.trainsAt mode (keyOf q))) := by
  have hcell : ∀ p ∈ snap.toList, cellOf p.coordKey = q → p.coordKey = keyOf q := by
    intro p hp heq
    rw [← heq,keyOf_cellOf (hsnap.1 p hp)]
  by_cases hq : ∃ p ∈ snap.toList, p.coordKey = keyOf q
  · obtain ⟨p,hp,hkey⟩ := hq
    have hmask : (axisFor cfg.col).extract p =
        maskOf (trainBit cfg.col) (r.trainsAt mode (keyOf q)) := by
      rw [← hkey]
      cases cfg.col with
      | byType => exact h.types_eq p hp
      | byService => exact h.services_eq p hp
    rw [← hmask]
    refine paint_of_mem ?_ (List.mem_map.mpr ⟨p,hp,by rw [hkey,cellOf_keyOf]⟩)
    rw [cells,List.map_map]
    refine List.Nodup.map_on ?_ (List.Nodup.of_map _ hsnap.2)
    intro p hp p' hp' heq
    have hkeys : p.coordKey = p'.coordKey := by
      rw [← keyOf_cellOf (hsnap.1 p hp),← keyOf_cellOf (hsnap.1 p' hp')]
      exact congrArg keyOf heq
    exact List.inj_on_of_nodup_map hsnap.2 hp hp' hkeys
  · have hempty : r.trainsAt mode (keyOf q) = [] := by
      rw [List.eq_nil_iff_forall_not_mem]
      intro s hs
      obtain ⟨⟨n,hn⟩,hkey⟩ := mem_trainsAt_iff.mp hs
      exact hq ((h.mem_iff (keyOf q)).mpr ⟨n,s,hn,hkey⟩)
    rw [hempty,maskOf,List.foldr_nil,maskColor_zero]
    refine paint_of_notMem fun hmem => ?_
    obtain ⟨w,hw,hwq⟩ := List.mem_map.mp hmem
    obtain ⟨p,hp,rfl⟩ := List.mem_map.mp hw
    exact hq ⟨p,hp,hcell p hp hwq⟩

/-- A turned snapshot of a registry: the color of every cell, and which are not black. -/
theorem draws_snapshot {r : Registry} {srt : UnstableSort} {out snap : ClusterVec} {mode : MapMode}
    (h : r.rebuildClustersInto srt out mode = some snap) (dir : Direction) (cfg : DisplayConfig)
    (t : ℕ) :
    ∃ d, Draws fb old cfg t (snap.map (·.turned dir)) d ∧
      (∀ q, d.color (panelPoint dir q) =
        maskColor cfg t (maskOf (trainBit cfg.col) (r.trainsAt mode (keyOf q)))) ∧
      ∀ p, d.color p ≠ black ↔ ∃ n s q, r.get n = some s ∧ displayKey mode s = some (keyOf q) ∧
        p = panelPoint dir q := by
  obtain ⟨snap',hrun,hsnap⟩ := r.rebuildClustersInto_isSnapshot srt out mode
  rw [h,Option.some.injEq] at hrun
  subst hrun
  obtain ⟨d,hdraws,hcells,hblack⟩ := draws_turned fb old cfg t snap dir
  have hcolor : ∀ q, d.color (panelPoint dir q) =
      maskColor cfg t (maskOf (trainBit cfg.col) (r.trainsAt mode (keyOf q))) := fun q =>
    (hcells q).trans (paint_cells cfg t hsnap (drawable_of_rebuild h) q)
  refine ⟨d,hdraws,hcolor,fun p => ⟨fun hcolored => ?_,?_⟩⟩
  · by_cases hp : ∃ q, p = panelPoint dir q
    · obtain ⟨q,rfl⟩ := hp
      have hne : r.trainsAt mode (keyOf q) ≠ [] := by
        intro hempty
        rw [hcolor q,hempty] at hcolored
        exact hcolored (maskColor_zero cfg t)
      obtain ⟨s,hs⟩ := List.exists_mem_of_ne_nil _ hne
      obtain ⟨⟨n,hn⟩,hkey⟩ := mem_trainsAt_iff.mp hs
      exact ⟨n,s,q,hn,hkey,rfl⟩
    · exact absurd (hblack p (not_exists.mp hp)) hcolored
  · rintro ⟨n,s,q,hn,hkey,rfl⟩
    rw [hcolor q]
    exact maskColor_ne_black cfg t (maskOf_isMask
      (List.ne_nil_of_mem (mem_trainsAt_iff.mpr ⟨⟨n,hn⟩,hkey⟩)))

end Registry

namespace DisplayTask

open Registry

variable {fs : List Frame} {f : Frame} {srt : UnstableSort} {r : Registry} {out snap : ClusterVec}
  {mode : MapMode}

/-- A frame draws the latest snapshot, turned to its own direction. -/
theorem clusters_run (fs : List Frame) (f : Frame) :
    (run (fs ++ [f])).clusters = (latest (fs ++ [f])).val.map (·.turned f.direction) := by
  have hdir : (run (fs ++ [f])).direction = f.direction := by
    rw [run,List.foldl_concat]
    rfl
  rw [← hdir]
  exact shows_latest (fs ++ [f])

/-- After any run: the frame sets, at each cell of the map turned to its direction, the color
of the trains that the registry of the latest snapshot has there. No other point is set, and
where there is a train the color is not black. The panel shows what its planes keep. -/
theorem picture_shows (h : r.rebuildClustersInto srt out mode = some snap)
    (hlatest : (latest (fs ++ [f])).val = snap) (cfg : DisplayConfig) (t : ℕ) :
    ∃ d, Draws fb old cfg t (run (fs ++ [f])).clusters d ∧
      (∀ q, d.color (panelPoint f.direction q) =
        maskColor cfg t (maskOf (trainBit cfg.col) (r.trainsAt mode (keyOf q)))) ∧
      ∀ p, d.color p ≠ black ↔ ∃ n s q, r.get n = some s ∧ displayKey mode s = some (keyOf q) ∧
        p = panelPoint f.direction q := by
  rw [clusters_run,hlatest]
  exact draws_snapshot fb old h f.direction cfg t

/-- Between two frames a millisecond apart that adopt no snapshot and turn nothing, no channel
of any point moves by more than 1. -/
theorem picture_smooth (fs : List Frame) (f : Frame) (old' : F) (cfg : DisplayConfig) (t : ℕ) :
    ∃ d d', Draws fb old cfg t (run (fs ++ [f])).clusters d ∧
      Draws fb old' cfg (t + 1) (run (fs ++ [f] ++ [⟨none,f.direction⟩])).clusters d' ∧
      ∀ p, CloseRgb (d.color p) (d'.color p) := by
  have hlatest : latest (fs ++ [f] ++ [⟨none,f.direction⟩]) = latest (fs ++ [f]) :=
    List.foldl_concat _ _ _ _
  rw [clusters_run,clusters_run,hlatest]
  obtain ⟨d,hdraws,-⟩ := draws_turned fb old cfg t (latest (fs ++ [f])).val f.direction
  obtain ⟨d',hdraws',-⟩ := draws_turned fb old' cfg (t + 1) (latest (fs ++ [f])).val f.direction
  obtain ⟨a,b,ha,hb,hclose⟩ := drawTrains_close cfg
    ((latest (fs ++ [f])).val.map (·.turned f.direction)).toList t
  obtain rfl := Option.some.inj (hdraws.drawn.symm.trans ha)
  obtain rfl := Option.some.inj (hdraws'.drawn.symm.trans hb)
  exact ⟨d,d',hdraws,hdraws',fun p i => paint_rel (CloseRgb.refl black) hclose p i⟩

/-- Train 7 in the northwest, on a panel whose y axis points up. -/
theorem picture_shows_oneTrain : letI := microTicks
    let r : Registry := (Registry.new.upsert 7 ⟨3,4⟩ 0).1
    ∃ (snap : Snapshot) (d : Drawing),
      r.rebuildClustersInto mergeSortByKey Vec.empty .netherlands = some snap.val ∧
      Draws sevenPlanes (fun _ => black) .default 0 (run [⟨some snap,.yUp⟩]).clusters d ∧
      d.color (panelPoint .yUp (0,1)) ≠ black := by
  let _ := microTicks
  intro r
  obtain ⟨v,hv,-⟩ := rebuildClustersInto_isSnapshot mergeSortByKey r Vec.empty .netherlands
  let snap : Snapshot := ⟨v,drawable_of_rebuild hv⟩
  obtain ⟨d,hdraws,-,hcolored⟩ := picture_shows sevenPlanes (fun _ => black) (f := ⟨some snap,.yUp⟩) hv
    (show (latest ([] ++ [_])).val = v from rfl) .default 0
  exact ⟨snap,d,hv,hdraws,(hcolored _).mpr
    ⟨7,TrainState.new ⟨3,4⟩ 0,(0,1),by decide +kernel,by decide +kernel,rfl⟩⟩

end DisplayTask

end NsPixels
