import NsPixels.NsApi.Stamping

/-!
# Several records of one train

The records of a type response are applied one after another, so the last record of a
train decides its type. An empty last record hides the concrete ones before it.
-/

namespace NsPixels.NsApi

open FixedCap Registry

/-- What the records of `n` say, in the order of the response. -/
def recordTypes (infos : List TrainInfo) (n : UInt32) : List TrainType :=
  (infos.filter fun info => info.number = n).map fun info => mapTrainType info.trainType

theorem recordTypes_concat (infos : List TrainInfo) (info : TrainInfo) (n : UInt32) :
    recordTypes (infos ++ [info]) n =
      recordTypes infos n ++ if info.number = n then [mapTrainType info.trainType] else [] := by
  rw [recordTypes,List.filter_append,List.map_append]
  congr 1
  by_cases h : info.number = n
  · simp [h]
  · simp [h]

/-- `typ` tells what the records of a train tell: unknown if all of them are, and else one
of the concrete types among them. -/
structure Resolved (types : List TrainType) (typ : TrainType) : Prop where
  unknown_iff : typ = .unknown ↔ ∀ t ∈ types, t = .unknown
  concrete : typ ≠ .unknown → typ ∈ types

/-- The last record tells what all of them tell unless it hides a concrete one. -/
theorem resolved_last_iff {types : List TrainType} {last : TrainType}
    (h : types.getLast? = some last) :
    Resolved types last ↔ (last = .unknown → ∀ t ∈ types, t = .unknown) := by
  have hmem : last ∈ types := List.mem_of_getLast? h
  constructor
  · intro hres
    exact hres.unknown_iff.mp
  · intro hlast
    exact ⟨⟨hlast,fun hall => hall last hmem⟩,fun _ => hmem⟩

section Records

variable [TickRate]

/-- A second type result at the same instant replaces the first one. -/
theorem stampType_stampType (s : TrainState) (typ typ' : TrainType) (now : ℕ) :
    (s.stampType typ now).stampType typ' now = s.stampType typ' now := rfl

/-- The row of `n` after the records is stamped with the last of its records. -/
theorem get_run_records (infos : List TrainInfo) (n : UInt32) (now : ℕ) (reg : Registry) :
    (reg.run (infos.map fun info =>
        ⟨now,.setType info.number (mapTrainType info.trainType)⟩)).get n =
      (reg.get n).map fun s =>
        ((recordTypes infos n).getLast?.map fun typ => s.stampType typ now).getD s := by
  induction infos using List.reverseRecOn with
  | nil => simp [recordTypes]
  | append_singleton infos info ih =>
    rw [List.map_append,run_append,List.map_singleton,run_cons,run_nil,recordTypes_concat]
    apply (get_setType _ _ n _ now).trans
    rw [ih]
    by_cases h : n = info.number
    · rw [if_pos h,if_pos h.symm,List.getLast?_concat,Option.map_map]
      congr 1
      funext s
      cases hlast : (recordTypes infos n).getLast? with
      | none => simp
      | some typ => simp [stampType_stampType]
    · rw [if_neg h,if_neg (Ne.symm h),List.append_nil]

variable {ε : Type} {json : Json} {send : Request → Except ε (Response ε)}
  {headers : List (String × String)}

/-- A type response leaves every requested train with a type that its records tell,
exactly when no registered one among them has an empty last record after a concrete one. -/
theorem resolved_fetchTypesOn_iff {batch : List UInt32} {now : ℕ} {reg : Registry}
    {body : List UInt8} {parsed : Vec TrainInfo (batchMax * 5)}
    (hsend : Answered send ((Call.types batch).request headers) body)
    (hparse : parseBody (.ok body : Except ε (List UInt8)) (readTypes json) = .ok parsed) :
    (fetchTypesOn json send headers batch now reg).2.isOk = true ∧
      ((∀ n ∈ batch, ∀ s, (fetchTypesOn json send headers batch now reg).1.get n = some s →
          recordTypes parsed.toList n ≠ [] → Resolved (recordTypes parsed.toList n) s.typ) ↔
        ∀ n ∈ batch, (reg.get n).isSome →
          (recordTypes parsed.toList n).getLast? = some .unknown →
            ∀ t ∈ recordTypes parsed.toList n, t = .unknown) := by
  obtain ⟨hok,hrun⟩ := fetchTypesOn_of_answered hsend hparse
  refine ⟨hok,forall₂_congr fun n _ => ?_⟩
  rw [hrun,get_run_records]
  cases hreg : reg.get n with
  | none => simp
  | some s₀ =>
    cases hlast : (recordTypes parsed.toList n).getLast? with
    | none => simp [List.getLast?_eq_none_iff.mp hlast]
    | some last =>
      have hne : recordTypes parsed.toList n ≠ [] := by
        intro hnil
        rw [hnil] at hlast
        cases hlast
      have hres := resolved_last_iff hlast
      simpa [TrainState.stampType,hne] using hres

end Records

/-- Several records of trains 7 and 9, the concrete ones of train 7 last, and one of a train
that nobody asked for. -/
def mixedRecords : List TrainInfo :=
  [⟨9,none⟩,⟨7,none⟩,⟨7,some "SNG"⟩,⟨12,some "SLT"⟩,⟨7,some "virm-6"⟩,⟨9,some "tram"⟩]

/-- Train 7 has the last of its types, train 9 none, and train 11 no record. -/
theorem resolved_fetchTypesOn_mixed : letI := microTicks
    let json : Json := ⟨fun _ => some mixedRecords,fun _ => none⟩
    let send : Request → Except Unit (Response Unit) := fun _ => .ok ⟨200,.ok []⟩
    let reg := twoTrains.run [⟨0,.upsert 11 ⟨1,1⟩⟩]
    (fetchTypesOn json send [] [7,9,11] 5 reg).2.isOk = true ∧
      ∀ n ∈ [7,9,11], ∀ s, (fetchTypesOn json send [] [7,9,11] 5 reg).1.get n = some s →
        recordTypes mixedRecords n ≠ [] → Resolved (recordTypes mixedRecords n) s.typ := by
  let _ := microTicks
  intro json send reg
  have hparse : parseBody (.ok [] : Except Unit (List UInt8)) (readTypes json) =
      .ok ⟨mixedRecords,by decide⟩ := by decide +kernel
  have hsend : Answered send ((Call.types [7,9,11]).request []) [] := ⟨200,by decide,rfl⟩
  refine ⟨(resolved_fetchTypesOn_iff hsend hparse).1,
    (resolved_fetchTypesOn_iff hsend hparse).2.mpr fun n hn _ hlast => ?_⟩
  obtain rfl | rfl | rfl : n = 7 ∨ n = 9 ∨ n = 11 := by simpa using hn
  · exact absurd hlast (by decide)
  · decide
  · exact absurd hlast (by decide)

/-- A response with two records of train 7. -/
def twoRecords : String :=
  "[\x7b\"ritnummer\":7,\"type\":\"SNG\"\x7d,\x7b\"ritnummer\":7,\"type\":null\x7d]"

/-- A reader that knows it. -/
def recordsJson : Json where
  trainInfos := fun s => if s = twoRecords then some [⟨7,some "SNG"⟩,⟨7,none⟩] else none
  journey := fun _ => none

/-- The type `SNG`, and then null: the train loses its type. -/
theorem not_resolved_nullLast : letI := microTicks
    let send : Request → Except Unit (Response Unit) := fun _ =>
      .ok ⟨200,.ok (utf8 twoRecords.toList)⟩
    (fetchTypesOn recordsJson send [] [7] 5 twoTrains).2.isOk = true ∧
      ¬ ∀ n ∈ [7], ∀ s, (fetchTypesOn recordsJson send [] [7] 5 twoTrains).1.get n = some s →
        recordTypes [⟨7,some "SNG"⟩,⟨7,none⟩] n ≠ [] →
          Resolved (recordTypes [⟨7,some "SNG"⟩,⟨7,none⟩] n) s.typ := by
  let _ := microTicks
  refine ⟨by decide +kernel,fun h => ?_⟩
  have hres := h 7 (by decide) ((TrainState.new ⟨3,4⟩ 0).stampType .unknown 5) (by decide +kernel)
    (by decide)
  have hall := hres.unknown_iff.mp rfl
  exact absurd (hall .sng (by decide)) (by decide)

end NsPixels.NsApi
