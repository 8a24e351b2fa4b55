import NsPixels.Display.Panel
import Mathlib.Algebra.Order.Ring.Int

/-!
# The accelerometer

The direction of the panel is that of the last sample that tells one. A device turned by
right angles turns its picture along, as long as no sample lies on a diagonal.
-/

namespace NsPixels

open QuarterTurn Painting

namespace Accel

/-- Magnitudes below it tell no direction. -/
def threshold : ℕ := 4096

/-- `i16::from_le_bytes`. -/
def i16FromLeBytes (lo hi : UInt8) : Int16 := (lo.toUInt16 ||| (hi.toUInt16 <<< 8)).toInt16

/-- The direction that a sample tells, if any. -/
def sampleDirection (x y : Int16) : Option Direction :=
  if x.toInt.natAbs < threshold ∧ y.toInt.natAbs < threshold then none
  else if x.toInt.natAbs > y.toInt.natAbs then
    if 0 < x.toInt then some .xUp else some .xDown
  else if 0 < y.toInt then some .yUp else some .yDown

/-- What one turn of the loop gets from the bus: an error or the four bytes. -/
inductive Event
  | error
  | read (xl xh yl yh : UInt8)
deriving DecidableEq

def Event.direction : Event → Option Direction
  | error => none
  | read xl xh yl yh => sampleDirection (i16FromLeBytes xl xh) (i16FromLeBytes yl yh)

/-- One turn of the loop; `DIRECTION` holds a byte. -/
def step (byte : UInt8) (e : Event) : UInt8 :=
  match e.direction with
  | none => byte
  | some d => d.toU8

def run (es : List Event) : UInt8 := es.foldl step Direction.xUp.toU8

def getDirection (es : List Event) : Direction := .ofU8 (run es)

/-! ### The last direction told -/

/-- The direction of the last event that tells one. -/
def last (es : List Event) : Option Direction := es.reverse.findSome? Event.direction

theorem last_concat (es : List Event) (e : Event) :
    last (es ++ [e]) = e.direction.or (last es) := by
  rw [last,List.reverse_concat,List.findSome?_cons]
  cases e.direction <;> rfl

/-- Errors and weak samples leave the direction alone. -/
theorem getDirection_eq (es : List Event) : getDirection es = (last es).getD .xUp := by
  rw [getDirection]
  induction es using List.reverseRecOn with
  | nil => rfl
  | append_singleton es e ih =>
    rw [run,List.foldl_concat,last_concat,step]
    cases e.direction with
    | none => exact ih
    | some d => exact Direction.ofU8_toU8 d

/-! ### Turning the device -/

/-- The measured acceleration after `k` right angles. -/
def turnVec : Fin 4 → ℤ × ℤ → ℤ × ℤ
  | 0,v => v
  | 1,v => (-v.2,v.1)
  | 2,v => (-v.1,-v.2)
  | 3,v => (v.2,-v.1)

/-- The acceleration in the four bytes. -/
def vec (xl xh yl yh : UInt8) : ℤ × ℤ := ((i16FromLeBytes xl xh).toInt,(i16FromLeBytes yl yh).toInt)

/-- What the turned device gets when the other gets `e`. -/
inductive Event.Turned (k : Fin 4) : Event → Event → Prop
  | error : Turned k error error
  | read {xl xh yl yh xl' xh' yl' yh' : UInt8} (h : vec xl' xh' yl' yh' = turnVec k (vec xl xh yl yh)) :
    Turned k (read xl xh yl yh) (read xl' xh' yl' yh')

/-- A sample that tells a direction is not on a diagonal; half a turn does not mind. -/
def Event.Clear (k : Fin 4) : Event → Prop
  | error => True
  | read xl xh yl yh => (read xl xh yl yh).direction.isSome → k.val % 2 = 1 →
    (vec xl xh yl yh).1.natAbs ≠ (vec xl xh yl yh).2.natAbs

end Accel

/-- The direction `k` right angles on. -/
def Direction.turnBy (k : Fin 4) (d : Direction) : Direction :=
  match (d.angle + k).val with
  | 0 => xUp
  | 1 => yUp
  | 2 => xDown
  | _ => yDown

theorem Direction.turnBy_zero (d : Direction) : d.turnBy 0 = d := by cases d <;> rfl

theorem Direction.turnBy_turnBy (j k : Fin 4) (d : Direction) :
    (d.turnBy j).turnBy k = d.turnBy (j + k) := by
  revert j k
  cases d <;> decide

theorem Direction.angle_turnBy (k : Fin 4) (d : Direction) : (d.turnBy k).angle = d.angle + k := by
  revert k
  cases d <;> decide

namespace Accel

/-- The direction of an acceleration. -/
def ofVec (v : ℤ × ℤ) : Option Direction :=
  if v.1.natAbs < threshold ∧ v.2.natAbs < threshold then none
  else if v.1.natAbs > v.2.natAbs then if 0 < v.1 then some .xUp else some .xDown
  else if 0 < v.2 then some .yUp else some .yDown

theorem Event.direction_read (xl xh yl yh : UInt8) :
    (read xl xh yl yh).direction = ofVec (vec xl xh yl yh) := rfl

section Sectors

variable {x y : ℤ}

theorem ofVec_weak (hx : x.natAbs < threshold) (hy : y.natAbs < threshold) : ofVec (x,y) = none :=
  if_pos ⟨hx,hy⟩

theorem ofVec_x (h : threshold ≤ x.natAbs) (hlt : y.natAbs < x.natAbs) :
    ofVec (x,y) = if 0 < x then some .xUp else some .xDown := by
  rw [ofVec,if_neg (fun hw => Nat.not_lt.mpr h hw.1),if_pos hlt]

theorem ofVec_y (h : threshold ≤ y.natAbs) (hle : x.natAbs ≤ y.natAbs) :
    ofVec (x,y) = if 0 < y then some .yUp else some .yDown := by
  rw [ofVec,if_neg (fun hw => Nat.not_lt.mpr h hw.2),if_neg (Nat.not_lt.mpr hle)]

/-- The three sectors of the plane. -/
theorem sector_cases (x y : ℤ) : (x.natAbs < threshold ∧ y.natAbs < threshold) ∨
    (threshold ≤ x.natAbs ∧ y.natAbs < x.natAbs) ∨ (threshold ≤ y.natAbs ∧ x.natAbs ≤ y.natAbs) := by
  omega

/-- On an axis that tells the direction the reading is not 0. -/
theorem pos_or_neg (h : threshold ≤ x.natAbs) : (0 < x ∧ ¬ 0 < -x) ∨ (¬ 0 < x ∧ 0 < -x) := by
  rw [threshold] at h
  omega

theorem ofVec_half (x y : ℤ) : ofVec (-x,-y) = (ofVec (x,y)).map (·.turnBy 2) := by
  rcases sector_cases x y with ⟨hx,hy⟩ | ⟨hx,hlt⟩ | ⟨hy,hle⟩
  · rw [ofVec_weak hx hy,ofVec_weak (by rwa [Int.natAbs_neg]) (by rwa [Int.natAbs_neg])]
    rfl
  · rw [ofVec_x hx hlt,ofVec_x (by rwa [Int.natAbs_neg]) (by rwa [Int.natAbs_neg,Int.natAbs_neg])]
    rcases pos_or_neg hx with ⟨h,h'⟩ | ⟨h,h'⟩
    · rw [if_pos h,if_neg h']
      rfl
    · rw [if_neg h,if_pos h']
      rfl
  · rw [ofVec_y hy hle,ofVec_y (by rwa [Int.natAbs_neg]) (by rwa [Int.natAbs_neg,Int.natAbs_neg])]
    rcases pos_or_neg hy with ⟨h,h'⟩ | ⟨h,h'⟩
    · rw [if_pos h,if_neg h']
      rfl
    · rw [if_neg h,if_pos h']
      rfl

/-- A right angle takes the direction along off the diagonals, and not on them. -/
theorem ofVec_quarter (x y : ℤ) : ofVec (-y,x) = (ofVec (x,y)).map (·.turnBy 1) ↔
    ((ofVec (x,y)).isSome → x.natAbs ≠ y.natAbs) := by
  rcases sector_cases x y with ⟨hx,hy⟩ | ⟨hx,hlt⟩ | ⟨hy,hle⟩
  · rw [ofVec_weak hx hy,ofVec_weak (by rwa [Int.natAbs_neg]) hx]
    exact iff_of_true rfl fun h => by cases h
  · rw [ofVec_x hx hlt,ofVec_y hx (by rw [Int.natAbs_neg]; exact hlt.le)]
    refine iff_of_true ?_ fun _ => hlt.ne'
    split <;> rfl
  · rw [ofVec_y hy hle]
    rcases hle.lt_or_eq with hlt | heq
    · rw [ofVec_x (by rwa [Int.natAbs_neg]) (by rwa [Int.natAbs_neg])]
      refine iff_of_true ?_ fun _ => hlt.ne
      rcases pos_or_neg hy with ⟨h,h'⟩ | ⟨h,h'⟩
      · rw [if_pos h,if_neg h']
        rfl
      · rw [if_neg h,if_pos h']
        rfl
    · rw [ofVec_y (heq ▸ hy) (by rw [Int.natAbs_neg,heq])]
      refine iff_of_false ?_ fun h => h ?_ heq
      · split <;> split <;> decide
      · split <;> rfl

end Sectors

/-- Whether the turned device tells the turned direction. -/
theorem ofVec_turnVec (k : Fin 4) (v : ℤ × ℤ) :
    ofVec (turnVec k v) = (ofVec v).map (·.turnBy k) ↔
      ((ofVec v).isSome → k.val % 2 = 1 → v.1.natAbs ≠ v.2.natAbs) := by
  obtain ⟨x,y⟩ := v
  match k with
  | 0 =>
    refine iff_of_true ?_ fun _ hk => by cases hk
    simp only [Direction.turnBy_zero,Option.map_id']
    rfl
  | 1 => exact (ofVec_quarter x y).trans ⟨fun h hs _ => h hs,fun h hs => h hs (by decide)⟩
  | 2 => exact iff_of_true (ofVec_half x y) fun _ hk => by cases hk
  | 3 =>
    -- half a turn after the first right angle
    have hhalf : ofVec (y,-x) = (ofVec (-y,x)).map (·.turnBy 2) := by
      have h := ofVec_half (-y) x
      rwa [neg_neg] at h
    have hmap : (ofVec (x,y)).map (·.turnBy 3) = ((ofVec (x,y)).map (·.turnBy 1)).map (·.turnBy 2) := by
      rw [Option.map_map]
      congr 1
      funext d
      exact (d.turnBy_turnBy 1 2).symm
    have hinj : Function.Injective (Direction.turnBy 2) := by
      intro d d' h
      have hback := congrArg (Direction.turnBy 2) h
      rwa [Direction.turnBy_turnBy,Direction.turnBy_turnBy,show (2 + 2 : Fin 4) = 0 from rfl,
        Direction.turnBy_zero,Direction.turnBy_zero] at hback
    change ofVec (y,-x) = _ ↔ _
    rw [hhalf,hmap,(Option.map_injective hinj).eq_iff,ofVec_quarter]
    exact ⟨fun h hs _ => h hs,fun h hs => h hs (by decide)⟩

/-! ### Runs of the turned device -/

section Turned

variable {k : Fin 4} {es es' : List Event}

theorem Event.Turned.direction {e e' : Event} (h : e.Turned k e') (hclear : e.Clear k) :
    e'.direction = e.direction.map (·.turnBy k) := by
  cases h with
  | error => rfl
  | read h =>
    rw [Event.direction_read,Event.direction_read,h]
    exact (ofVec_turnVec k _).mpr hclear

theorem findSome?_turned (h : List.Forall₂ (Event.Turned k) es es') (hclear : ∀ e ∈ es, e.Clear k) :
    es'.findSome? Event.direction = (es.findSome? Event.direction).map (·.turnBy k) := by
  induction h with
  | nil => rfl
  | @cons e e' es es' he _ ih =>
    rw [List.findSome?_cons,List.findSome?_cons,he.direction (hclear e List.mem_cons_self),
      ih fun e he => hclear e (List.mem_cons_of_mem _ he)]
    cases e.direction <;> rfl

theorem last_turned (h : List.Forall₂ (Event.Turned k) es es') (hclear : ∀ e ∈ es, e.Clear k) :
    last es' = (last es).map (·.turnBy k) :=
  findSome?_turned (List.rel_reverse h) fun e he => hclear e (List.mem_reverse.mp he)

theorem last_isSome (h : ∃ e ∈ es, e.direction.isSome) : (last es).isSome := by
  obtain ⟨e,he,hsome⟩ := h
  rw [last,List.findSome?_isSome_iff]
  exact ⟨e,List.mem_reverse.mpr he,hsome⟩

/-- Once a sample has told a direction, the turned device is at the turned direction. -/
theorem getDirection_turned (h : List.Forall₂ (Event.Turned k) es es')
    (hclear : ∀ e ∈ es, e.Clear k) (htold : ∃ e ∈ es, e.direction.isSome) :
    getDirection es' = (getDirection es).turnBy k := by
  obtain ⟨d,hd⟩ := Option.isSome_iff_exists.mp (last_isSome htold)
  rw [getDirection_eq,getDirection_eq,last_turned h hclear,hd]
  rfl

/-- Two panels with the same snapshot, one turned by `k` right angles against the other:
their pictures are turned against each other by as much. -/
theorem picture_turned_device {F C : Type} (fb : FrameBuffer F C) (old old' : F)
    (h : List.Forall₂ (Event.Turned k) es es')
    (hclear : ∀ e ∈ es, e.Clear k) (htold : ∃ e ∈ es, e.direction.isSome) {fs fs' : List Frame}
    {f f' : Frame} (hf : f.direction = getDirection es) (hf' : f'.direction = getDirection es')
    (hsame : DisplayTask.latest (fs' ++ [f']) = DisplayTask.latest (fs ++ [f]))
    (cfg : DisplayConfig) (t : ℕ) :
    ∃ d d', Draws fb old cfg t (DisplayTask.run (fs ++ [f])).clusters d ∧
      Draws fb old' cfg t (DisplayTask.run (fs' ++ [f'])).clusters d' ∧
      ∀ q, d'.color (pointOf (keyOf (turn 64 k q))) = d.color (pointOf (keyOf q)) ∧
        fb.level (fb.render old' d') (turn 64 k q) = fb.level (fb.render old d) q := by
  have hdrawn := DisplayTask.clusters_run fs f
  have hdrawn' := DisplayTask.clusters_run fs' f'
  rw [hsame] at hdrawn'
  obtain ⟨d,hd,hcells,-⟩ :=
    draws_turned fb old cfg t (DisplayTask.latest (fs ++ [f])).val f.direction
  obtain ⟨d',hd',hcells',-⟩ :=
    draws_turned fb old' cfg t (DisplayTask.latest (fs ++ [f])).val f'.direction
  refine ⟨d,d',hdrawn ▸ hd,hdrawn' ▸ hd',?_⟩
  intro q
  have hturn : f'.direction = f.direction.turnBy k := by
    rw [hf',getDirection_turned h hclear htold,hf]
  have hcolor : d'.color (pointOf (keyOf (turn 64 k q))) = d.color (pointOf (keyOf q)) := by
    -- the cell of the map that is seen at `q`
    obtain ⟨p,rfl⟩ := (turn 64 f.direction.angle).surjective q
    have hpoint : panelPoint f'.direction p =
        pointOf (keyOf (turn 64 k (turn 64 f.direction.angle p))) := by
      rw [panelPoint,hturn,Direction.angle_turnBy,add_comm,turn_add]
      rfl
    rw [← hpoint,hcells' p]
    exact (hcells p).symm
  refine ⟨hcolor,?_⟩
  rw [hd.level,hd'.level,← pointOf_keyOf,← pointOf_keyOf,hcolor]

end Turned

/-- A single orange pixel near a corner. -/
def cornerPixel : Snapshot :=
  ⟨⟨[⟨257,2,2⟩],by decide⟩,fun p hp => by
    obtain rfl := List.mem_singleton.mp hp
    exact onPanel_iff.mpr (by decide),List.nodup_singleton _⟩

/-- The x axis up, and the device turned by a right angle. -/
theorem picture_turned_device_right : ∃ d d' : Drawing,
    Draws sevenPlanes (fun _ => black) .default 0
      (DisplayTask.run [⟨some cornerPixel,.xUp⟩]).clusters d ∧
    Draws sevenPlanes (fun _ => black) .default 0
      (DisplayTask.run [⟨some cornerPixel,.yUp⟩]).clusters d' ∧
    ∀ q, d'.color (pointOf (keyOf (turn 64 1 q))) = d.color (pointOf (keyOf q)) :=
  have hturned : List.Forall₂ (Event.Turned 1) [.read 0 64 0 0] [.read 0 0 0 64] :=
    .cons (.read (by decide)) .nil
  have ⟨d,d',hd,hd',hturn⟩ := picture_turned_device sevenPlanes (fun _ => black)
    (fun _ => black) hturned (fun e he => by
      obtain rfl := List.mem_singleton.mp he
      exact fun _ _ => by decide)
    ⟨_,List.mem_singleton_self _,rfl⟩ (show Frame.direction ⟨some cornerPixel,.xUp⟩ = _ from rfl)
    (show Frame.direction ⟨some cornerPixel,.yUp⟩ = _ from rfl)
    (show DisplayTask.latest ([] ++ [_]) = DisplayTask.latest ([] ++ [_]) from rfl) .default 0
  ⟨d,d',hd,hd',fun q => (hturn q).1⟩

end Accel

end NsPixels
