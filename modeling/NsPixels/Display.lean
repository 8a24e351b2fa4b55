import NsPixels.Lib.QuarterTurn
import NsPixels.Registry.Clusters

/-!
# The display frame loop

Each frame adopts a fresh snapshot if there is one and turns the clusters in place
from the remembered direction to the current one. On the 64×64 panel every such
turn is a multiple of a quarter turn, so the chain of turns between two adoptions
collapses to one.
-/

namespace NsPixels

open FixedCap QuarterTurn

/-- Which axis of the panel points up. -/
inductive Direction
  | xUp
  | xDown
  | yUp
  | yDown
deriving DecidableEq, Repr, Inhabited

namespace Direction

/-- The byte stored in `DIRECTION`. -/
def toU8 : Direction → UInt8
  | xUp => 1
  | xDown => 2
  | yUp => 3
  | yDown => 4

/-- The direction `get_direction` reads back. -/
def ofU8 (value : UInt8) : Direction :=
  if value = 1 then xUp
  else if value = 2 then xDown
  else if value = 3 then yUp
  else if value = 4 then yDown
  else default

@[simp] theorem ofU8_toU8 (d : Direction) : ofU8 d.toU8 = d := by cases d <;> rfl

/-- Right angles from `xUp`. -/
def angle : Direction → Fin 4
  | xUp => 0
  | yUp => 1
  | xDown => 2
  | yDown => 3

end Direction

/-! ### Turning the clusters -/

/-- `FLIPPED` of the source. -/
def flipped (c : UInt16) : UInt16 := (((63 : UInt16) <<< 8) ||| 63) - c

/-- The change of a packed coordinate from one direction to another. -/
def transform : Direction → Direction → UInt16 → UInt16
  -- axis flip
  | .xUp,.xDown | .xDown,.xUp | .yUp,.yDown | .yDown,.yUp => flipped
  -- counterclockwise
  | .xUp,.yUp | .yUp,.xDown | .xDown,.yDown | .yDown,.xUp =>
    fun c => (c >>> 8) ||| ((flipped c <<< 8) &&& 0xFF00)
  -- clockwise
  | .xUp,.yDown | .yDown,.xDown | .xDown,.yUp | .yUp,.xUp =>
    fun c => (c <<< 8) ||| ((flipped c >>> 8) &&& 0x00FF)
  -- unreachable: `rotate` returns before
  | .xUp,.xUp | .xDown,.xDown | .yUp,.yUp | .yDown,.yDown => id

def rotate (cluster : ClusterVec) (fromDir toDir : Direction) : ClusterVec :=
  if fromDir = toDir then cluster
  else cluster.map fun pixel => { pixel with coordKey := transform fromDir toDir pixel.coordKey }

/-- Packed coordinate of a panel cell. -/
def keyOf (p : Fin 64 × Fin 64) : UInt16 :=
  PixelCoord.asU16 ⟨UInt8.ofNat p.1.val,UInt8.ofNat p.2.val⟩

/-- The panel cell of a packed coordinate. -/
def cellOf (c : UInt16) : Fin 64 × Fin 64 :=
  (Fin.ofNat 64 (c.toNat / 256),Fin.ofNat 64 (c.toNat % 256))

theorem keyOf_toNat (p : Fin 64 × Fin 64) : (keyOf p).toNat = p.1.val * 256 + p.2.val := by
  have hx := p.1.isLt
  have hy := p.2.isLt
  rw [keyOf,PixelCoord.asU16_toNat,UInt8.toNat_ofNat_of_lt' (show p.1.val < 256 by omega),
    UInt8.toNat_ofNat_of_lt' (show p.2.val < 256 by omega)]

theorem keyOf_onPanel (p : Fin 64 × Fin 64) : OnPanel (keyOf p) := by
  have hx := p.1.isLt
  have hy := p.2.isLt
  rw [onPanel_iff,keyOf_toNat]
  omega

@[simp] theorem cellOf_keyOf (p : Fin 64 × Fin 64) : cellOf (keyOf p) = p := by
  have hx := p.1.isLt
  have hy := p.2.isLt
  rw [cellOf,keyOf_toNat]
  ext
  · simp only [Fin.val_ofNat]
    omega
  · simp only [Fin.val_ofNat]
    omega

theorem keyOf_cellOf {c : UInt16} (h : OnPanel c) : keyOf (cellOf c) = c := by
  rw [onPanel_iff] at h
  rw [← UInt16.toNat_inj,keyOf_toNat,cellOf]
  simp only [Fin.val_ofNat]
  omega

/-- On the panel the subtraction in `flipped` does not wrap. -/
theorem OnPanel.le {c : UInt16} (h : OnPanel c) : c ≤ ((63 : UInt16) <<< 8) ||| 63 := by
  rw [onPanel_iff] at h
  rw [UInt16.le_iff_toNat_le,show (((63 : UInt16) <<< 8) ||| 63).toNat = 16191 from rfl]
  omega

theorem flipped_toNat {c : UInt16} (h : OnPanel c) : (flipped c).toNat = 16191 - c.toNat := by
  rw [flipped,UInt16.toNat_sub_of_le _ _ h.le]
  rfl

theorem flipped_keyOf (p : Fin 64 × Fin 64) : flipped (keyOf p) = keyOf (turn 64 2 p) := by
  have hx := p.1.isLt
  have hy := p.2.isLt
  rw [← UInt16.toNat_inj,flipped_toNat (keyOf_onPanel p),keyOf_toNat,turn_two,keyOf_toNat,
    Fin.val_rev,Fin.val_rev]
  omega

theorem ccw_keyOf (p : Fin 64 × Fin 64) :
    (keyOf p >>> 8) ||| ((flipped (keyOf p) <<< 8) &&& 0xFF00) = keyOf (turn 64 1 p) := by
  have hx := p.1.isLt
  have hy := p.2.isLt
  have hlow : (keyOf p >>> 8).toNat < 256 := by
    rw [toNat_shiftRight_eight,keyOf_toNat]
    omega
  rw [← UInt16.toNat_inj,UInt16.or_comm,toNat_or_bytes (toNat_shiftLeft_and_ff00 _) hlow,
    toNat_shiftRight_eight,flipped_toNat (keyOf_onPanel p),keyOf_toNat,turn_one,keyOf_toNat,
    Fin.val_rev]
  dsimp only
  omega

theorem cw_keyOf (p : Fin 64 × Fin 64) :
    (keyOf p <<< 8) ||| ((flipped (keyOf p) >>> 8) &&& 0x00FF) = keyOf (turn 64 3 p) := by
  have hx := p.1.isLt
  have hy := p.2.isLt
  have hlow : ((flipped (keyOf p) >>> 8) &&& 0x00FF).toNat < 256 := by
    rw [toNat_and_ff]
    exact Nat.mod_lt _ (by decide)
  rw [← UInt16.toNat_inj,toNat_or_bytes (toNat_shiftLeft_eight _) hlow,toNat_and_ff,
    toNat_shiftRight_eight,flipped_toNat (keyOf_onPanel p),keyOf_toNat,turn_three,keyOf_toNat,
    Fin.val_rev]
  dsimp only
  omega

/-- Between any two directions the code turns by the difference of their angles. -/
theorem transform_keyOf (a b : Direction) (p : Fin 64 × Fin 64) :
    transform a b (keyOf p) = keyOf (turn 64 (b.angle - a.angle) p) := by
  match a,b with
  | .xUp,.xDown | .xDown,.xUp | .yUp,.yDown | .yDown,.yUp => exact flipped_keyOf p
  | .xUp,.yUp | .yUp,.xDown | .xDown,.yDown | .yDown,.xUp => exact ccw_keyOf p
  | .xUp,.yDown | .yDown,.xDown | .xDown,.yUp | .yUp,.xUp => exact cw_keyOf p
  | .xUp,.xUp | .xDown,.xDown | .yUp,.yUp | .yDown,.yDown =>
    rw [sub_self,turn_zero]
    rfl

/-- A pixel moved by the turn from `xUp` to `dir`. -/
def PixelData.turned (dir : Direction) (p : PixelData) : PixelData :=
  { p with coordKey := keyOf (turn 64 dir.angle (cellOf p.coordKey)) }

/-- A buffer whose pixels lie on the panel and are distinct. -/
def Drawable (v : ClusterVec) : Prop :=
  (∀ p ∈ v.toList, OnPanel p.coordKey) ∧ (v.toList.map (·.coordKey)).Nodup

theorem drawable_empty : Drawable Vec.empty := by simp [Drawable]

/-- What a rebuild leaves in the buffer can be drawn. -/
theorem drawable_of_rebuild {srt : UnstableSort} {r : Registry} {out snap : ClusterVec}
    {mode : MapMode} (h : r.rebuildClustersInto srt out mode = some snap) : Drawable snap := by
  obtain ⟨snap',hrun,hsnap⟩ := r.rebuildClustersInto_isSnapshot srt out mode
  rw [h,Option.some.injEq] at hrun
  subst hrun
  refine ⟨fun p hp => (hsnap.pixel hp).1,?_⟩
  rw [List.Nodup,List.pairwise_map]
  refine hsnap.sorted.imp fun {p q} hlt heq => ?_
  rw [heq] at hlt
  exact UInt16.lt_irrefl _ hlt

/-- Turned pixels are drawable again. -/
theorem Drawable.turned {v : ClusterVec} (h : Drawable v) (dir : Direction) :
    Drawable (v.map (·.turned dir)) := by
  refine ⟨?_,?_⟩
  · intro p hp
    obtain ⟨q,_,rfl⟩ := List.mem_map.mp hp
    exact keyOf_onPanel _
  · have hkeys : (v.map (·.turned dir)).toList.map (·.coordKey) =
        (v.toList.map (·.coordKey)).map fun c => keyOf (turn 64 dir.angle (cellOf c)) := by
      rw [Vec.toList_map,List.map_map,List.map_map]
      rfl
    rw [hkeys]
    refine h.2.map_on fun c hc d hd hcd => ?_
    obtain ⟨p,hp,rfl⟩ := List.mem_map.mp hc
    obtain ⟨q,hq,rfl⟩ := List.mem_map.mp hd
    have hcell := congrArg cellOf hcd
    rw [cellOf_keyOf,cellOf_keyOf] at hcell
    rw [← keyOf_cellOf (h.1 p hp),(turn 64 dir.angle).injective hcell,keyOf_cellOf (h.1 q hq)]

/-- A further rotation of turned pixels is the turn to the new direction. -/
theorem rotate_turned (v : ClusterVec) (a b : Direction) :
    rotate (v.map (·.turned a)) a b = v.map (·.turned b) := by
  rw [rotate]
  split
  · next h => rw [h]
  · apply Vec.ext
    rw [Vec.toList_map,Vec.toList_map,Vec.toList_map,List.map_map]
    refine List.map_congr_left fun p _ => ?_
    simp only [Function.comp_apply,PixelData.turned,transform_keyOf]
    have hchain := turn_sub_turn_sub 64 0 a.angle b.angle (cellOf p.coordKey)
    rw [sub_zero,sub_zero] at hchain
    rw [hchain]

theorem map_turned_xUp {v : ClusterVec} (h : Drawable v) : v.map (·.turned .xUp) = v := by
  refine Vec.ext (List.map_congr_left (g := id) ?_ |>.trans (List.map_id _))
  intro p hp
  rw [PixelData.turned,Direction.angle,turn_zero,Equiv.Perm.one_apply,keyOf_cellOf (h.1 p hp)]
  rfl

/-! ### The frame loop -/

/-- What the display task keeps between frames: the buffer it draws and the direction
its pixels are turned to. -/
structure DisplayTask where
  clusters : ClusterVec
  direction : Direction

namespace DisplayTask

def init : DisplayTask := ⟨Vec.empty,default⟩

/-- Adopt the fresh snapshot, if there is one. It has not been turned yet. -/
def adopt (t : DisplayTask) : Option ClusterVec → DisplayTask
  | some new => ⟨new,default⟩
  | none => t

/-- Turn the clusters to the direction read in this frame. -/
def turnTo (t : DisplayTask) (newDirection : Direction) : DisplayTask :=
  ⟨rotate t.clusters t.direction newDirection,newDirection⟩

/-- One frame; it draws the clusters it leaves behind. -/
def frame (t : DisplayTask) (fresh : Option ClusterVec) (newDirection : Direction) : DisplayTask :=
  (t.adopt fresh).turnTo newDirection

end DisplayTask

/-- A snapshot as the producers publish it. -/
abbrev Snapshot := { v : ClusterVec // Drawable v }

/-- What one frame meets: a fresh snapshot or none, and the direction. -/
structure Frame where
  fresh : Option Snapshot
  direction : Direction

namespace DisplayTask

def run (fs : List Frame) : DisplayTask :=
  fs.foldl (fun t f => t.frame (f.fresh.map Subtype.val) f.direction) init

/-- The snapshot adopted last. -/
def latest (fs : List Frame) : Snapshot :=
  fs.foldl (fun snap f => f.fresh.getD snap) ⟨Vec.empty,drawable_empty⟩

/-- The buffer is `snap` turned to the remembered direction. -/
def Shows (t : DisplayTask) (snap : Snapshot) : Prop :=
  t.clusters = snap.val.map (·.turned t.direction)

theorem Shows.adopt {t : DisplayTask} {snap : Snapshot} (h : t.Shows snap)
    (fresh : Option Snapshot) : (t.adopt (fresh.map Subtype.val)).Shows (fresh.getD snap) := by
  cases fresh with
  | none => exact h
  | some new => exact (map_turned_xUp new.property).symm

theorem Shows.turnTo {t : DisplayTask} {snap : Snapshot} (h : t.Shows snap) (dir : Direction) :
    (t.turnTo dir).Shows snap := by
  rw [Shows,DisplayTask.turnTo,h]
  exact rotate_turned snap.val t.direction dir

theorem shows_latest (fs : List Frame) : (run fs).Shows (latest fs) := by
  induction fs using List.reverseRecOn with
  | nil => exact (map_turned_xUp drawable_empty).symm
  | append_singleton fs f ih =>
    rw [run,latest,List.foldl_concat,List.foldl_concat]
    exact (Shows.adopt ih f.fresh).turnTo f.direction

/-- In the frame after any run: what is drawn is the latest snapshot turned to the
direction of this frame, masks and length kept, pixels on the panel and distinct; and
no subtraction wraps on the way. -/
theorem frame_draws_latest (fs : List Frame) (f : Frame) :
    let before := (run fs).adopt (f.fresh.map Subtype.val)
    let drawn := (before.turnTo f.direction).clusters
    let snap := (latest (fs ++ [f])).val
    run (fs ++ [f]) = before.turnTo f.direction ∧
    drawn = snap.map (·.turned f.direction) ∧ drawn = rotate snap .xUp f.direction ∧
    (∀ p ∈ before.clusters.toList, OnPanel p.coordKey ∧ p.coordKey ≤ ((63 : UInt16) <<< 8) ||| 63) ∧
    Drawable drawn ∧
    drawn.toList.map (fun p => (p.types,p.services)) =
      snap.toList.map (fun p => (p.types,p.services)) ∧
    drawn.len = snap.len := by
  intro before drawn snap
  have hbefore : before.Shows (latest (fs ++ [f])) := by
    rw [latest,List.foldl_concat]
    exact (shows_latest fs).adopt f.fresh
  have hdrawn : drawn = snap.map (·.turned f.direction) := hbefore.turnTo f.direction
  refine ⟨?_,hdrawn,?_,?_,?_,?_,?_⟩
  · rw [run,List.foldl_concat]
    rfl
  · rw [hdrawn,← rotate_turned snap .xUp f.direction,map_turned_xUp (latest (fs ++ [f])).property]
  · intro p hp
    rw [hbefore] at hp
    have hon := ((latest (fs ++ [f])).property.turned before.direction).1 p hp
    exact ⟨hon,hon.le⟩
  · rw [hdrawn]
    exact (latest (fs ++ [f])).property.turned f.direction
  · rw [hdrawn,Vec.toList_map,List.map_map]
    rfl
  · rw [hdrawn,Vec.len,Vec.toList_map,List.length_map]
    rfl

end DisplayTask

end NsPixels
