import NsPixels.Lib.FixedCap
import NsPixels.Train

/-!
# The live registry

Trains seen on the feed, keyed by train number, in a map of fixed capacity. Each
operation is followed by what it does to the entry of one number.
-/

namespace NsPixels

open FixedCap

/-- Capacity of the registry. -/
def maxTrains : ℕ := 512

/-- Upper bound on trains evicted in one pass. -/
def evictBatch : ℕ := 64

/-- The two enrichment axes of a train. -/
inductive UnknownAxis
  | type
  | service
deriving DecidableEq, Repr

namespace TrainState

/-- Whether `axis` is still awaiting enrichment. -/
def isUnknown (s : TrainState) : UnknownAxis → Bool
  | .type => s.typ = .unknown
  | .service => s.service = .unknown

/-- The attempt offset of `axis`. -/
def attemptAgoS (s : TrainState) : UnknownAxis → UInt16
  | .type => s.lastTypeAttemptAgoS
  | .service => s.lastServiceAttemptAgoS

end TrainState

theorem toNat_ofNat_min (n : ℕ) :
    (UInt16.ofNat (min n (TrainState.attemptNever.toNat - 1))).toNat = min n 65534 := by
  rw [UInt16.toNat_ofNat']
  exact Nat.mod_eq_of_lt (lt_of_le_of_lt (Nat.min_le_right _ _) (by decide))

theorem ofNat_min_ne_attemptNever (n : ℕ) :
    UInt16.ofNat (min n (TrainState.attemptNever.toNat - 1)) ≠ TrainState.attemptNever := by
  intro h
  have hn := congrArg UInt16.toNat h
  rw [toNat_ofNat_min,show TrainState.attemptNever.toNat = 65535 from rfl] at hn
  omega

/-- Whether the cooldown of an attempt with offset `agoS` is over. -/
def ready (agoS : UInt16) (sinceSeenS cooldownS : ℕ) : Bool :=
  if agoS = TrainState.attemptNever then true
  else sinceSeenS + agoS.toNat ≥ cooldownS

theorem ready_attemptNever (sinceSeenS cooldownS : ℕ) :
    ready TrainState.attemptNever sinceSeenS cooldownS = true := rfl

theorem ready_iff {agoS : UInt16} {sinceSeenS cooldownS : ℕ} (h : agoS ≠ TrainState.attemptNever) :
    ready agoS sinceSeenS cooldownS = true ↔ cooldownS ≤ sinceSeenS + agoS.toNat := by
  rw [ready,if_neg h,decide_eq_true_eq]

/-- Grow an offset by the seconds `lastSeen` advanced, keeping the sentinel. -/
def bumpAttemptAgo (agoS : UInt16) (deltaS : ℕ) : UInt16 :=
  if agoS = TrainState.attemptNever then TrainState.attemptNever
  else UInt16.ofNat (min (agoS.toNat + deltaS) (TrainState.attemptNever.toNat - 1))

/-- A bump neither creates nor destroys the sentinel. -/
theorem bumpAttemptAgo_eq_attemptNever_iff {agoS : UInt16} {deltaS : ℕ} :
    bumpAttemptAgo agoS deltaS = TrainState.attemptNever ↔ agoS = TrainState.attemptNever := by
  rw [bumpAttemptAgo]
  split
  · next h => exact iff_of_true rfl h
  · next h => exact iff_of_false (ofNat_min_ne_attemptNever _) h

theorem bumpAttemptAgo_toNat {agoS : UInt16} {deltaS : ℕ} (h : agoS ≠ TrainState.attemptNever) :
    (bumpAttemptAgo agoS deltaS).toNat = min (agoS.toNat + deltaS) 65534 := by
  rw [bumpAttemptAgo,if_neg h,toNat_ofNat_min]

section Offsets

variable [TickRate]

/-- Offset relative to `lastSeen` for stamping an attempt made at `now`. -/
def attemptOffsetS (lastSeen now : ℕ) : UInt16 :=
  ((Instant.checkedDurationSince lastSeen now).map fun d =>
    UInt16.ofNat (min (Duration.asSecs d) (TrainState.attemptNever.toNat - 1))).getD 0

/-- A stamp never writes the sentinel. -/
theorem attemptOffsetS_ne_attemptNever (lastSeen now : ℕ) :
    attemptOffsetS lastSeen now ≠ TrainState.attemptNever := by
  rw [attemptOffsetS]
  cases Instant.checkedDurationSince lastSeen now with
  | none => exact (by decide : (0 : UInt16) ≠ TrainState.attemptNever)
  | some d => exact ofNat_min_ne_attemptNever _

/-- An attempt made no earlier than the train was seen is stamped with offset 0. -/
theorem attemptOffsetS_of_le {lastSeen now : ℕ} (h : lastSeen ≤ now) :
    attemptOffsetS lastSeen now = 0 := by
  rcases h.lt_or_eq with h | rfl
  · rw [attemptOffsetS,Instant.checkedDurationSince_of_lt h]
    rfl
  · rw [attemptOffsetS,Instant.checkedDurationSince_of_le (Nat.le_refl _)]
    simp

end Offsets

namespace TrainState

@[simp] theorem new_attemptAgoS (pixel : PixelCoord) (now : ℕ) (axis : UnknownAxis) :
    (new pixel now).attemptAgoS axis = attemptNever := by
  cases axis <;> rfl

variable [TickRate]

/-- What a refresh at `now` makes of a row: the attempt offsets grow by the whole
seconds `lastSeen` advances. -/
def refresh (state : TrainState) (pixel : PixelCoord) (now : ℕ) : TrainState :=
  let deltaS := ((Instant.checkedDurationSince now state.lastSeen).map Duration.asSecs).getD 0
  { state with
    lastTypeAttemptAgoS := bumpAttemptAgo state.lastTypeAttemptAgoS deltaS
    lastServiceAttemptAgoS := bumpAttemptAgo state.lastServiceAttemptAgoS deltaS
    pixel := pixel
    lastSeen := now }

/-- What a type result at `now` makes of a row. -/
def stampType (s : TrainState) (typ : TrainType) (now : ℕ) : TrainState :=
  { s with typ := typ, lastTypeAttemptAgoS := attemptOffsetS s.lastSeen now }

/-- What a service result at `now` makes of a row. -/
def stampService (s : TrainState) (service : ServiceType) (now : ℕ) : TrainState :=
  { s with service := service, lastServiceAttemptAgoS := attemptOffsetS s.lastSeen now }

@[simp] theorem refresh_lastSeen (s : TrainState) (pixel : PixelCoord) (now : ℕ) :
    (s.refresh pixel now).lastSeen = now := rfl

theorem refresh_attemptAgoS (s : TrainState) (pixel : PixelCoord) (now : ℕ)
    (axis : UnknownAxis) :
    (s.refresh pixel now).attemptAgoS axis =
      bumpAttemptAgo (s.attemptAgoS axis)
        (((Instant.checkedDurationSince now s.lastSeen).map Duration.asSecs).getD 0) := by
  cases axis <;> rfl

end TrainState

/-- The live registry. -/
structure Registry where
  map : IndexMap UInt32 TrainState maxTrains

namespace Registry

/-- The registry at boot. -/
def new : Registry := ⟨IndexMap.empty⟩

/-- The row of train `number`. -/
def get (r : Registry) (number : UInt32) : Option TrainState := r.map.get number

theorem get_eq_some_iff {r : Registry} {n : UInt32} {s : TrainState} :
    r.get n = some s ↔ (n,s) ∈ r.map.entries := IndexMap.get_eq_some_iff

theorem get_foldl_remove (ks : List UInt32) (m : IndexMap UInt32 TrainState maxTrains)
    (n : UInt32) :
    (ks.foldl (fun m k => m.remove k) m).get n = if n ∈ ks then none else m.get n := by
  induction ks generalizing m with
  | nil => simp
  | cons k ks ih =>
    rw [List.foldl_cons,ih,IndexMap.get_remove]
    by_cases hn : n = k <;> by_cases hks : n ∈ ks <;> simp [hn,hks]

/-- The first stale numbers in iteration order, up to the capacity of `toRemove`. -/
def collectStale (cutoff : ℕ) :
    List (UInt32 × TrainState) → Vec UInt32 evictBatch → Vec UInt32 evictBatch
  | [],toRemove => toRemove
  | (k,v) :: rest,toRemove =>
    if v.lastSeen < cutoff then
      match toRemove.push k with
      | none => toRemove
      | some toRemove' => collectStale cutoff rest toRemove'
    else collectStale cutoff rest toRemove

/-- Drop entries last seen before `cutoff`, at most `evictBatch` per call, and
return how many. -/
def evictOlderThan (r : Registry) (cutoff : ℕ) : Registry × ℕ :=
  let toRemove := collectStale cutoff r.map.entries Vec.empty
  (⟨toRemove.toList.foldl (fun m k => m.remove k) r.map⟩,toRemove.len)

/-- Eviction removes the collected numbers and changes no other row. -/
theorem get_evictOlderThan (r : Registry) (cutoff : ℕ) (n : UInt32) :
    (r.evictOlderThan cutoff).1.get n =
      if n ∈ (collectStale cutoff r.map.entries Vec.empty).toList then none else r.get n :=
  get_foldl_remove _ _ _

variable [TickRate]

/-- Insert or refresh `number`; `true` when there was no entry. A full map drops
the insert. -/
def upsert (r : Registry) (number : UInt32) (pixel : PixelCoord) (now : ℕ) : Registry × Bool :=
  match r.get number with
  | some _ => (⟨r.map.modify number fun state => state.refresh pixel now⟩,false)
  | none => (⟨(r.map.insert number (TrainState.new pixel now)).getD r.map⟩,true)

/-- Record a type result for `number`, if it is registered. -/
def setType (r : Registry) (number : UInt32) (typ : TrainType) (now : ℕ) : Registry :=
  ⟨r.map.modify number fun s => s.stampType typ now⟩

/-- Record a service result for `number`, if it is registered. -/
def setService (r : Registry) (number : UInt32) (service : ServiceType) (now : ℕ) : Registry :=
  ⟨r.map.modify number fun s => s.stampService service now⟩

/-- Whether the sweep at `now` would request the train on `axis`. -/
def wants (v : TrainState) (axis : UnknownAxis) (sinceSeenS cooldownS : ℕ) : Bool :=
  v.isUnknown axis && ready (v.attemptAgoS axis) sinceSeenS cooldownS

/-- One guarded push of the sweep: `none` is the `break` after a failed push. -/
def pushIf {N : ℕ} (buf : Vec UInt32 N) (k : UInt32) (cond : Bool) : Option (Vec UInt32 N) :=
  if buf.len < N && cond then buf.push k else some buf

/-- The loop of `pendingEnrichment`. The outer `none` is the panic of
`duration_since` on a row seen after `now`. -/
def pendingLoop {N M : ℕ} (now cooldownS : ℕ) :
    List (UInt32 × TrainState) → Vec UInt32 N → Vec UInt32 M →
      Option (Vec UInt32 N × Vec UInt32 M)
  | [],tBuf,sBuf => some (tBuf,sBuf)
  | (k,v) :: rest,tBuf,sBuf =>
    if tBuf.len = N ∧ sBuf.len = M then some (tBuf,sBuf)
    else
      match Instant.durationSince now v.lastSeen with
      | none => none
      | some d =>
        let sinceSeenS := Duration.asSecs d
        match pushIf tBuf k (wants v .type sinceSeenS cooldownS) with
        | none => some (tBuf,sBuf)
        | some tBuf' =>
          match pushIf sBuf k (wants v .service sinceSeenS cooldownS) with
          | none => some (tBuf',sBuf)
          | some sBuf' => pendingLoop now cooldownS rest tBuf' sBuf'

/-- Append the retry candidates of each axis to its buffer. -/
def pendingEnrichment {N M : ℕ} (r : Registry) (tBuf : Vec UInt32 N) (sBuf : Vec UInt32 M)
    (cooldown now : ℕ) : Option (Vec UInt32 N × Vec UInt32 M) :=
  pendingLoop now (Duration.asSecs cooldown) r.map.entries tBuf sBuf

/-! ### What each operation does to one entry -/

theorem get_upsert_of_some {r : Registry} {n : UInt32} {s : TrainState} (h : r.get n = some s)
    (pixel : PixelCoord) (now : ℕ) (m : UInt32) :
    (r.upsert n pixel now).1.get m =
      if m = n then some (s.refresh pixel now) else r.get m := by
  rw [upsert,h]
  apply (IndexMap.get_modify r.map n m _).trans
  split
  · next hm =>
    subst hm
    rw [show r.map.get m = some s from h]
    rfl
  · rfl

theorem get_upsert_of_none {r : Registry} {n : UInt32} (h : r.get n = none)
    (pixel : PixelCoord) (now : ℕ) (m : UInt32) :
    (r.upsert n pixel now).1.get m =
      if m = n ∧ r.map.len < maxTrains then some (TrainState.new pixel now) else r.get m := by
  rw [upsert,h]
  by_cases hN : r.map.len < maxTrains
  · obtain ⟨m',hins,he⟩ := IndexMap.insert_of_get_none (v := TrainState.new pixel now) h hN
    simp only [hins,Option.getD_some,hN,and_true]
    exact IndexMap.get_of_entries_append he m
  · simp only [IndexMap.insert_full h hN,Option.getD_none,hN,and_false,if_false]

@[simp] theorem get_setType (r : Registry) (n m : UInt32) (typ : TrainType) (now : ℕ) :
    (r.setType n typ now).get m =
      if m = n then (r.get m).map (·.stampType typ now) else r.get m :=
  IndexMap.get_modify r.map n m _

@[simp] theorem get_setService (r : Registry) (n m : UInt32) (service : ServiceType) (now : ℕ) :
    (r.setService n service now).get m =
      if m = n then (r.get m).map (·.stampService service now) else r.get m :=
  IndexMap.get_modify r.map n m _

end Registry

end NsPixels
