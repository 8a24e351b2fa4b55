import NsPixels.Display.Panel
import NsPixels.Enrichment.Answers
import NsPixels.Enrichment.Reports
import NsPixels.Feed

/-!
# From the feed to the panel

What is set in a frame, in terms of the reports of the feed: every point that is not black is
the last reported position of a train, and all trains of the document just applied are set.
-/

namespace NsPixels

open FixedCap Registry Painting XmlParser Xml

/-- The point of the panel for a position on the canvas, if the mode shows it. -/
def spot (mode : MapMode) (dir : Direction) (pixel : PixelCoord) : Option Point :=
  (canvasToDisplay pixel mode).map fun d => panelPoint dir (cellOf d.asU16)

variable {mode : MapMode} {dir : Direction}

theorem spot_eq_some_iff {s : TrainState} {p : Point} : spot mode dir s.pixel = some p ↔
    ∃ q, displayKey mode s = some (keyOf q) ∧ p = panelPoint dir q := by
  rw [spot,displayKey]
  cases hd : canvasToDisplay s.pixel mode with
  | none =>
    refine iff_of_false (fun h => by cases h) ?_
    rintro ⟨q,hq,-⟩
    cases hq
  | some d =>
    have hon : OnPanel d.asU16 := displayKey_onPanel (by rw [displayKey,hd]; rfl)
    rw [Option.map_some,Option.map_some,Option.some.injEq]
    constructor
    · rintro rfl
      exact ⟨cellOf d.asU16,by rw [keyOf_cellOf hon],rfl⟩
    · rintro ⟨q,hq,rfl⟩
      rw [Option.some.inj hq,cellOf_keyOf]

/-! ### The bits of a cell -/

/-- The bit of what is known of a train, on an axis. -/
def traitBit : ColorMode → Traits → UInt8
  | .byType,k => k.typ.asBit
  | .byService,k => k.service.asBit

variable {col : ColorMode}

theorem trainBit_eq (col : ColorMode) (s : TrainState) : trainBit col s = traitBit col s.traits := by
  cases col <;> rfl

theorem trainBit_mem (col : ColorMode) (s : TrainState) : trainBit col s ∈ maskBits col := by
  cases col with
  | byType =>
    rw [trainBit]
    cases s.typ <;> decide
  | byService =>
    rw [trainBit]
    cases s.service <;> decide

/-- The bits of an axis are different ones. -/
theorem and_maskBits_ne_zero {a b : UInt8} (ha : a ∈ maskBits col) (hb : b ∈ maskBits col) :
    a &&& b ≠ 0 ↔ a = b := by
  have hall : (maskBits col).all fun a => (maskBits col).all fun b =>
      decide (a &&& b ≠ 0 ↔ a = b) := by
    cases col <;> decide +kernel
  exact of_decide_eq_true (List.all_eq_true.mp (List.all_eq_true.mp hall a ha) b hb)

theorem maskOf_eq_zero_or (l : List TrainState) :
    maskOf (trainBit col) l = 0 ∨ IsMask col (maskOf (trainBit col) l) := by
  cases l with
  | nil => exact .inl rfl
  | cons s l => exact .inr (maskOf_isMask (List.cons_ne_nil s l))

/-- A mask has the bits of its trains. -/
theorem maskOf_and_ne_zero {l : List TrainState} {b : UInt8} (hb : b ∈ maskBits col) :
    maskOf (trainBit col) l &&& b ≠ 0 ↔ ∃ s ∈ l, trainBit col s = b := by
  induction l with
  | nil =>
    refine iff_of_false (fun h => h UInt8.zero_and) ?_
    rintro ⟨s,hs,-⟩
    cases hs
  | cons s l ih =>
    have hor : maskOf (trainBit col) (s :: l) &&& b =
        (trainBit col s &&& b) ||| (maskOf (trainBit col) l &&& b) := by
      rw [← UInt8.toNat_inj]
      exact Nat.and_or_distrib_right _ _ _
    rw [hor,Ne,UInt8.or_eq_zero_iff,not_and_or,← Ne,← Ne,and_maskBits_ne_zero (trainBit_mem col s) hb,
      ih,List.exists_mem_cons_iff]

namespace Enrichment

open NsPixels.Feed (projected trainsOf trainsOf_document)

section Runs

variable [TickRate] {ε : Type} {json : NsApi.Json} {headers : List (String × String)}
  {as : List (Action ε)} {s : State ε} {srt : UnstableSort} {out snap : ClusterVec} {fs : List Frame}
  {f : Frame} {F C : Type} (fb : FrameBuffer F C) (old : F)

/-- After any interleaving of the tasks, and any run of the display that ends with a snapshot
of the registry: a point is set to a color other than black exactly if it is the last reported
position of a train of the registry. -/
theorem colored_iff_reported (hrun : (machine json headers).run as = some s)
    (hbuild : s.registry.rebuildClustersInto srt out mode = some snap)
    (hlatest : (DisplayTask.latest (fs ++ [f])).val = snap) (cfg : DisplayConfig) (t : ℕ) :
    ∃ d, Draws fb old cfg t (DisplayTask.run (fs ++ [f])).clusters d ∧
      ∀ p, d.color p ≠ black ↔ ∃ n pixel now, (s.registry.get n).isSome ∧
        lastReport n ((machine json headers).trace reports as) = some (pixel,now) ∧
        spot mode f.direction pixel = some p := by
  rw [DisplayTask.clusters_run,hlatest]
  obtain ⟨d,hdraws,-,hcolored⟩ := draws_snapshot fb old hbuild f.direction cfg t
  refine ⟨d,hdraws,fun p => ⟨fun hp => ?_,?_⟩⟩
  · obtain ⟨n,row,q,hrow,hkey,hq⟩ := (hcolored p).mp hp
    exact ⟨n,row.pixel,row.lastSeen,by rw [hrow]; rfl,row_run hrun hrow,
      spot_eq_some_iff.mpr ⟨q,hkey,hq⟩⟩
  · rintro ⟨n,pixel,now,hn,hreport,hspot⟩
    obtain ⟨row,hrow⟩ := Option.isSome_iff_exists.mp hn
    rw [row_run hrun hrow,Option.some.injEq,Prod.mk.injEq] at hreport
    rw [← hreport.1] at hspot
    obtain ⟨q,hkey,hq⟩ := spot_eq_some_iff.mp hspot
    exact (hcolored p).mpr ⟨n,row,q,hrow,hkey,hq⟩

omit [TickRate] in
/-- The position of train 7 in the northwest is the only point that is set. -/
theorem colored_iff_reported_oneTrain : letI := microTicks
    let as : List (Action Unit) := [.receive [⟨7,⟨3,4⟩⟩],.applyMessage]
    ∃ (s : State Unit) (snap : Snapshot) (d : Drawing),
      (machine NsApi.sampleJson []).run as = some s ∧
      s.registry.rebuildClustersInto mergeSortByKey Vec.empty .netherlands = some snap.val ∧
      Draws sevenPlanes (fun _ => black) .default 0 (DisplayTask.run [⟨some snap,.xUp⟩]).clusters d ∧
      ∀ p, d.color p ≠ black ↔ ∃ n pixel now, (s.registry.get n).isSome ∧
        lastReport n ((machine NsApi.sampleJson []).trace reports as) = some (pixel,now) ∧
        spot .netherlands .xUp pixel = some p := by
  let _ := microTicks
  intro as
  have hsome : ((machine NsApi.sampleJson []).run as).isSome = true := by decide +kernel
  obtain ⟨s,hs⟩ := Option.isSome_iff_exists.mp hsome
  obtain ⟨v,hv,-⟩ := rebuildClustersInto_isSnapshot mergeSortByKey s.registry Vec.empty .netherlands
  let snap : Snapshot := ⟨v,drawable_of_rebuild hv⟩
  obtain ⟨d,hdraws,hcolored⟩ := colored_iff_reported sevenPlanes (fun _ => black)
    (f := ⟨some snap,.xUp⟩) hs hv (show (DisplayTask.latest ([] ++ [_])).val = v from rfl) .default 0
  exact ⟨s,snap,d,hs,hv,hdraws,hcolored⟩

/-- The bits of a cell are what the API last said of the trains last reported there. -/
theorem bit_iff_told (hrun : (machine json headers).run as = some s) (dir : Direction)
    (q : Fin 64 × Fin 64) {col : ColorMode} {b : UInt8} (hb : b ∈ maskBits col) :
    maskOf (trainBit col) (s.registry.trainsAt mode (keyOf q)) &&& b ≠ 0 ↔
      ∃ n pixel now, (s.registry.get n).isSome ∧
        lastReport n ((machine json headers).trace reports as) = some (pixel,now) ∧
        spot mode dir pixel = some (panelPoint dir q) ∧
        traitBit col (traitsOf n ((machine json headers).trace (notes json headers) as)) = b := by
  rw [maskOf_and_ne_zero hb]
  constructor
  · rintro ⟨row,hrow,hbit⟩
    obtain ⟨⟨n,hn⟩,hkey⟩ := mem_trainsAt_iff.mp hrow
    refine ⟨n,row.pixel,row.lastSeen,by rw [hn]; rfl,row_run hrun hn,
      spot_eq_some_iff.mpr ⟨q,hkey,rfl⟩,?_⟩
    rw [← traits_run hrun hn,← trainBit_eq,hbit]
  · rintro ⟨n,pixel,now,hn,hreport,hspot,hbit⟩
    obtain ⟨row,hrow⟩ := Option.isSome_iff_exists.mp hn
    rw [row_run hrun hrow,Option.some.injEq,Prod.mk.injEq] at hreport
    rw [← hreport.1] at hspot
    obtain ⟨q',hkey,hq⟩ := spot_eq_some_iff.mp hspot
    obtain rfl := panelPoint_injective dir hq
    rw [← traits_run hrun hrow,← trainBit_eq] at hbit
    exact ⟨row,mem_trainsAt_iff.mpr ⟨⟨n,hrow⟩,hkey⟩,hbit⟩

/-- After any interleaving of the tasks, and any run of the display that ends with a snapshot
of the registry: a cell is set to the color of a mask with exactly the bits of what the API
last said of the trains of the registry that were last reported there. -/
theorem picture_told (hrun : (machine json headers).run as = some s)
    (hbuild : s.registry.rebuildClustersInto srt out mode = some snap)
    (hlatest : (DisplayTask.latest (fs ++ [f])).val = snap) (cfg : DisplayConfig) (t : ℕ) :
    ∃ d, Draws fb old cfg t (DisplayTask.run (fs ++ [f])).clusters d ∧
      ∀ q, ∃ m, d.color (panelPoint f.direction q) = maskColor cfg t m ∧ (m = 0 ∨ IsMask cfg.col m) ∧
        ∀ b ∈ maskBits cfg.col, m &&& b ≠ 0 ↔ ∃ n pixel now, (s.registry.get n).isSome ∧
          lastReport n ((machine json headers).trace reports as) = some (pixel,now) ∧
          spot mode f.direction pixel = some (panelPoint f.direction q) ∧
          traitBit cfg.col (traitsOf n ((machine json headers).trace (notes json headers) as)) = b := by
  rw [DisplayTask.clusters_run,hlatest]
  obtain ⟨d,hdraws,hcells,-⟩ := draws_snapshot fb old hbuild f.direction cfg t
  exact ⟨d,hdraws,fun q =>
    ⟨_,hcells q,maskOf_eq_zero_or _,fun b hb => bit_iff_told hrun f.direction q hb⟩⟩

omit [TickRate] in
/-- The cell of train 7 has the bit of the type that the API gave. -/
theorem picture_told_typeAnswered : letI := microTicks
    ∃ (s : State Unit) (snap : Snapshot) (d : Drawing) (m : UInt8),
      (machine NsApi.sampleJson []).run typeAnswered = some s ∧
      s.registry.rebuildClustersInto mergeSortByKey Vec.empty .netherlands = some snap.val ∧
      Draws sevenPlanes (fun _ => black) ⟨.perCluster,.byType⟩ 0
        (DisplayTask.run [⟨some snap,.xUp⟩]).clusters d ∧
      d.color (panelPoint .xUp (0,1)) = maskColor ⟨.perCluster,.byType⟩ 0 m ∧
      m &&& TrainType.sng.asBit ≠ 0 := by
  let _ := microTicks
  have hrow : ((machine NsApi.sampleJson []).run typeAnswered).any fun s : State Unit =>
      (s.registry.get 7).isSome := by
    decide +kernel
  obtain ⟨s,hs,hn⟩ := Option.any_eq_true _ _ |>.mp hrow
  obtain ⟨v,hv,-⟩ := rebuildClustersInto_isSnapshot mergeSortByKey s.registry Vec.empty .netherlands
  let snap : Snapshot := ⟨v,drawable_of_rebuild hv⟩
  obtain ⟨d,hdraws,hcells⟩ := picture_told sevenPlanes (fun _ => black) (f := ⟨some snap,.xUp⟩) hs hv
    (show (DisplayTask.latest ([] ++ [_])).val = v from rfl) ⟨.perCluster,.byType⟩ 0
  obtain ⟨m,hcolor,-,hbits⟩ := hcells (0,1)
  have hspot : spot .netherlands .xUp ⟨3,4⟩ = some (panelPoint .xUp (0,1)) := by
    decide +kernel
  exact ⟨s,snap,d,m,hs,hv,hdraws,hcolor,(hbits _ (by decide)).mpr
    ⟨7,⟨3,4⟩,0,hn,by decide +kernel,hspot,by decide +kernel⟩⟩

variable {τ : Type} {tokenizer : String → List (Except τ Token)} {V : Type}
  {parseF32 : List Char → Option V} {project : V → V → PixelCoord} {xml : String}
  {doc : FeedDocument}

variable (parseF32 project) in
/-- The snapshot published with a document shows every train of the document whose position
the mode shows, at its last position there, as long as the map is not full. -/
theorem document_visible (hrun : (machine json headers).run as = some s) {now : ℕ}
    (hfeed : s.feed = .locking now (trainsOf tokenizer parseF32 project xml))
    (hdoc : tokenizer xml = doc.tokens.map Except.ok) {s' : State ε}
    (hstep : step json headers s .applyMessage = some s')
    (hroom : s'.registry.map.len < maxTrains)
    (hbuild : s'.registry.rebuildClustersInto srt out mode = some snap)
    (hlatest : (DisplayTask.latest (fs ++ [f])).val = snap) (cfg : DisplayConfig) (t : ℕ) :
    ∃ d, Draws fb old cfg t (DisplayTask.run (fs ++ [f])).clusters d ∧
      ∀ before train later, doc.trains parseF32 = before ++ train :: later →
        (∀ u ∈ later, u.number ≠ train.number) →
        ∀ p, spot mode f.direction (project train.lat train.lon) = some p → d.color p ≠ black := by
  have hrun' : (machine json headers).run (as ++ [.applyMessage]) = some s' :=
    Machine.run_concat_eq_some_iff.mpr ⟨s,hrun,hstep⟩
  obtain ⟨d,hdraws,hcolored⟩ := colored_iff_reported fb old hrun' hbuild hlatest cfg t
  refine ⟨d,hdraws,?_⟩
  intro before train later htrains hlater p hp
  have hparsed := trainsOf_document parseF32 project hdoc
  rw [htrains,List.map_append,List.map_cons] at hparsed
  have hrow : (s'.registry.get train.number).isSome := by
    refine (row_or_full_run (t := projected project train) hfeed hstep
      ?_).resolve_right hroom.ne
    rw [hparsed]
    exact List.mem_append_right _ List.mem_cons_self
  refine (hcolored p).mpr ⟨train.number,_,now,hrow,?_,hp⟩
  rw [Machine.trace_concat _ hrun,reports,hfeed]
  dsimp only
  rw [hparsed,List.map_append,List.map_cons,← List.append_assoc]
  refine lastReport_append (⟨train.number,_⟩,now) fun r hr => ?_
  obtain ⟨u,hu,rfl⟩ := List.mem_map.mp hr
  obtain ⟨v,hv,rfl⟩ := List.mem_map.mp hu
  exact hlater v hv

end Runs

/-- The coordinates of the sample document, in the middle of the country. -/
def sampleCoordinates (s : List Char) : Option ℚ := if s = "3.0".toList then some 5 else some 52

theorem document_visible_sample : letI := microTicks
    let tokenizer : String → List (Except Unit Token) := fun _ => sampleFeed.tokens.map .ok
    let trains := trainsOf tokenizer sampleCoordinates wgs84ToCanvas ""
    ∃ (s : State Unit) (snap : Snapshot) (d : Drawing) (p : Point),
      (machine NsApi.sampleJson []).run [.receive trains,.applyMessage] = some s ∧
      s.registry.rebuildClustersInto mergeSortByKey Vec.empty .netherlands = some snap.val ∧
      Draws sevenPlanes (fun _ => black) .default 0 (DisplayTask.run [⟨some snap,.xUp⟩]).clusters d ∧
      spot .netherlands .xUp (wgs84ToCanvas 52 5) = some p ∧ d.color p ≠ black := by
  let _ := microTicks
  intro tokenizer trains
  let s : State Unit := { State.init Unit with feed := .locking 0 trains }
  have hrun : (machine NsApi.sampleJson []).run [.receive trains] = some s := rfl
  obtain ⟨s',hstep⟩ : ∃ s', step NsApi.sampleJson [] s .applyMessage = some s' := ⟨_,rfl⟩
  have hroom : s'.registry.map.len < maxTrains := by
    have hlen : (step NsApi.sampleJson [] s .applyMessage).any
        fun s' => decide (s'.registry.map.len < maxTrains) := by
      decide +kernel
    rw [hstep] at hlen
    exact of_decide_eq_true hlen
  obtain ⟨v,hv,-⟩ := rebuildClustersInto_isSnapshot mergeSortByKey s'.registry Vec.empty .netherlands
  let snap : Snapshot := ⟨v,drawable_of_rebuild hv⟩
  obtain ⟨p,hp⟩ := Option.isSome_iff_exists.mp
    (show (spot .netherlands .xUp (wgs84ToCanvas 52 5)).isSome = true by decide +kernel)
  obtain ⟨d,hdraws,hcolored⟩ := document_visible sevenPlanes (fun _ => black) sampleCoordinates
    wgs84ToCanvas (f := ⟨some snap,.xUp⟩) hrun rfl
    (show tokenizer "" = sampleFeed.tokens.map Except.ok from rfl) hstep hroom hv
    (show (DisplayTask.latest ([] ++ [_])).val = v from rfl) .default 0
  have hrun' : (machine NsApi.sampleJson []).run ([.receive trains] ++ [.applyMessage]) = some s' :=
    Machine.run_concat_eq_some_iff.mpr ⟨s,hrun,hstep⟩
  exact ⟨s',snap,d,p,hrun',hv,hdraws,hp,
    hcolored [] ⟨7,5,52⟩ [] (by decide +kernel) (fun u hu => by cases hu) p hp⟩

end Enrichment

end NsPixels
