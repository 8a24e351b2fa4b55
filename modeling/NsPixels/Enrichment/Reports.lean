import NsPixels.Enrichment.Offers
import NsPixels.Enrichment.OffsetRange

/-!
# A row is its last report

In every interleaving of the two tasks a row holds position and instant of the last report
of its train, both from the same message, and a full map is the only reason for a train
of the message just applied to have no row.
-/

namespace NsPixels

open FixedCap Registry Enrichment

/-- A position together with the instant of its message. -/
abbrev Report := Train × ℕ

/-- The report in an operation of the registry. -/
def Event.report (e : Event) : Option Report :=
  match e.op with
  | .upsert n pixel => some (⟨n,pixel⟩,e.now)
  | _ => none

/-- Position and instant of the last report of `n`. -/
def lastReport (n : UInt32) (reports : List Report) : Option (PixelCoord × ℕ) :=
  (reports.reverse.find? fun r => r.1.number = n).map fun r => (r.1.pixel,r.2)

variable {n : UInt32}

theorem lastReport_concat (reports : List Report) (r : Report) :
    lastReport n (reports ++ [r]) =
      if r.1.number = n then some (r.1.pixel,r.2) else lastReport n reports := by
  rw [lastReport,List.reverse_concat,List.find?_cons]
  by_cases hr : r.1.number = n
  · rw [if_pos hr,decide_eq_true hr]
    rfl
  · rw [if_neg hr,decide_eq_false hr]
    rfl

/-- Later reports of other trains do not matter. -/
theorem lastReport_append {reports : List Report} (r : Report) {later : List Report}
    (hlater : ∀ q ∈ later, q.1.number ≠ r.1.number) :
    lastReport r.1.number (reports ++ r :: later) = some (r.1.pixel,r.2) := by
  induction later using List.reverseRecOn with
  | nil => rw [lastReport_concat,if_pos rfl]
  | append_singleton later q ih =>
    rw [← List.cons_append,← List.append_assoc,lastReport_concat,
      if_neg (hlater q (List.mem_append_right _ (List.mem_singleton_self q)))]
    exact ih fun q' hq' => hlater q' (List.mem_append_left _ hq')

section Rows

variable [TickRate]

/-- One operation, seen from a row it leaves: a report of the train replaces both, and
everything else leaves both alone. -/
theorem TrainState.after_report (s : TrainState) (e : Event) :
    ((s.after n e).pixel,(s.after n e).lastSeen) =
      match e.report with
      | some r => if r.1.number = n then (r.1.pixel,r.2) else (s.pixel,s.lastSeen)
      | none => (s.pixel,s.lastSeen) := by
  obtain ⟨now,op⟩ := e
  cases op with
  | upsert m pixel =>
    by_cases hm : m = n
    · simp only [TrainState.after,Event.report,if_pos hm]
      rfl
    · simp only [TrainState.after,Event.report,if_neg hm]
  | setType m typ =>
    rw [after_setType]
    split <;> rfl
  | setService m service =>
    rw [after_setService]
    split <;> rfl
  | evictOlderThan cutoff => rfl

/-- After any operations a row holds position and instant of the last report. -/
theorem Registry.get_run_lastReport {es : List Event} {s : TrainState}
    (h : (Registry.new.run es).get n = some s) :
    lastReport n (es.filterMap Event.report) = some (s.pixel,s.lastSeen) := by
  induction es using List.reverseRecOn generalizing s with
  | nil => cases h
  | append_singleton es e ih =>
    rw [run_append,run_cons,run_nil] at h
    rw [List.filterMap_append]
    rcases (Registry.new.run es).get_apply_cases e n with
      ⟨s₀,hs₀,hr⟩ | ⟨_,_,hr⟩ | ⟨pixel,hop,_,hr⟩ | ⟨_,hr⟩
    · obtain rfl : s = s₀.after n e := by rw [h,Option.some.injEq] at hr; exact hr
      rw [s₀.after_report]
      cases hreport : e.report with
      | none =>
        rw [List.filterMap_cons_none hreport,List.filterMap_nil,List.append_nil]
        exact ih hs₀
      | some r =>
        rw [List.filterMap_cons_some hreport,List.filterMap_nil,lastReport_concat,ih hs₀]
        dsimp only
        split <;> rfl
    · rw [h] at hr
      cases hr
    · -- the row has just been inserted
      obtain rfl : s = TrainState.new pixel e.now := by rw [h,Option.some.injEq] at hr; exact hr
      have hreport : e.report = some (⟨n,pixel⟩,e.now) := by rw [Event.report,hop]
      rw [List.filterMap_cons_some hreport,List.filterMap_nil,lastReport_concat,if_pos rfl]
      rfl
    · rw [h] at hr
      cases hr

/-! ### Room for a message -/

/-- An upsert leaves a row of the number, unless the map is full. -/
theorem Registry.upsert_row_or_full (r : Registry) (pixel : PixelCoord) (now : ℕ) :
    ((r.upsert n pixel now).1.get n).isSome ∨ (r.upsert n pixel now).1.map.len = maxTrains := by
  cases hn : r.get n with
  | some s =>
    rw [get_upsert_of_some hn,if_pos rfl]
    exact Or.inl rfl
  | none =>
    rw [isSome_get_upsert_iff hn]
    by_cases hN : r.map.len < maxTrains
    · exact Or.inl hN
    · right
      rw [upsert,hn]
      dsimp only
      rw [IndexMap.insert_full hn hN]
      exact Nat.le_antisymm r.map.length_le (Nat.le_of_not_lt hN)

/-- A full map stays full. -/
theorem Registry.upsert_full {r : Registry} (h : r.map.len = maxTrains) (m : UInt32)
    (pixel : PixelCoord) (now : ℕ) : (r.upsert m pixel now).1.map.len = maxTrains := by
  rw [upsert]
  cases hm : r.get m with
  | some s =>
    dsimp only
    rw [IndexMap.len,IndexMap.modify,List.length_map]
    exact h
  | none =>
    dsimp only
    rw [IndexMap.insert_full hm (by rw [h]; exact Nat.lt_irrefl _)]
    exact h

theorem Registry.run_upsertsAt_full {r : Registry} (h : r.map.len = maxTrains) (now : ℕ)
    (trains : List Train) : (r.run (upsertsAt now trains)).map.len = maxTrains := by
  induction trains generalizing r with
  | nil => exact h
  | cons t trains ih => exact ih (r.upsert_full h t.number t.pixel now)

/-- The trains of a message all have rows, unless the map is full. -/
theorem Registry.row_or_full (now : ℕ) {trains : List Train} (r : Registry) {t : Train}
    (ht : t ∈ trains) : ((r.run (upsertsAt now trains)).get t.number).isSome ∨
      (r.run (upsertsAt now trains)).map.len = maxTrains := by
  induction trains generalizing r with
  | nil => cases ht
  | cons u trains ih =>
    obtain rfl | ht := List.mem_cons.mp ht
    · obtain hrow | hfull := r.upsert_row_or_full (n := t.number) t.pixel now
      · left
        have hstays : Stays _ _ (upsertsAt now trains) := stays_upsertsAt trains hrow
        obtain ⟨s,hs⟩ := Option.isSome_iff_exists.mp hrow
        change (((r.upsert t.number t.pixel now).1.run (upsertsAt now trains)).get t.number).isSome
        rw [get_run_of_stays hs hstays]
        rfl
      · exact Or.inr (run_upsertsAt_full hfull now trains)
    · exact ih _ ht

end Rows

namespace Enrichment

open NsApi

variable [TickRate] {ε : Type} {json : Json} {headers : List (String × String)}

/-- The reports of a message that is applied. -/
def reports (s : State ε) : Action ε → List Report
  | .applyMessage =>
    match s.feed with
    | .receiving => []
    | .locking now trains => trains.map fun t => (t,now)
  | _ => []

theorem filterMap_messageEvents (now : ℕ) (trains : List Train) :
    (messageEvents now trains).filterMap Event.report = trains.map fun t => (t,now) := by
  have hevict : (if (Instant.checkedSub now (Duration.fromSecs staleAfterS)).getD now ≠ now then
      [(⟨now,.evictOlderThan ((Instant.checkedSub now (Duration.fromSecs staleAfterS)).getD now)⟩ :
        Event)] else []).filterMap Event.report = [] := by
    split <;> rfl
  rw [messageEvents,List.filterMap_append,hevict,List.nil_append,List.filterMap_map,
    ← List.filterMap_eq_map]
  rfl

omit [TickRate] in
/-- What the API answers reports no train. -/
theorem filterMap_callEvents (call : Call) (send : Request → Except ε (Response ε)) (now : ℕ) :
    (call.events json send headers now).filterMap Event.report = [] := by
  rw [List.filterMap_eq_nil_iff]
  intro e he
  rw [Call.events] at he
  split at he
  · cases he
  · split at he <;> split at he
    · obtain ⟨n,_,rfl⟩ := List.mem_map.mp he
      rfl
    · split at he
      · cases he
      · obtain ⟨info,_,rfl⟩ := List.mem_map.mp he
        rfl
    · rw [List.mem_singleton.mp he]
      rfl
    · split at he
      · cases he
      · rw [List.mem_singleton.mp he]
        rfl

theorem filterMap_events (s : State ε) (a : Action ε) :
    (events json headers s a).filterMap Event.report = reports s a := by
  cases a with
  | applyMessage =>
    cases hfeed : s.feed with
    | receiving => simp only [events,reports,hfeed,List.filterMap_nil]
    | locking now trains => simp only [events,reports,hfeed,filterMap_messageEvents]
  | record =>
    simp only [events,reports]
    split
    · exact filterMap_callEvents _ _ _
    · rfl
  | _ => rfl

variable {as : List (Action ε)} {s : State ε}

theorem filterMap_trace (h : (machine json headers).run as = some s) :
    ((machine json headers).trace (events json headers) as).filterMap Event.report =
      (machine json headers).trace reports as := by
  refine Machine.run_induction (m := machine json headers)
    (P := fun as _ => ((machine json headers).trace (events json headers) as).filterMap Event.report =
      (machine json headers).trace reports as) rfl ?_ h
  intro as s a s' hrun hs _
  rw [Machine.trace_concat _ hrun,Machine.trace_concat _ hrun,List.filterMap_append,hs,
    filterMap_events]

/-- In every reachable state a row holds position and instant of the last report of its
train among the messages applied so far. -/
theorem row_run (h : (machine json headers).run as = some s) {n : UInt32} {row : TrainState}
    (hrow : s.registry.get n = some row) :
    lastReport n ((machine json headers).trace reports as) = some (row.pixel,row.lastSeen) := by
  rw [registry_run h] at hrow
  rw [← filterMap_trace h]
  exact get_run_lastReport hrow

/-- Right after a message was applied its trains have rows, unless the map is full. -/
theorem row_or_full_run {now : ℕ} {trains : List Train} {s' : State ε}
    (hfeed : s.feed = .locking now trains) (hstep : step json headers s .applyMessage = some s')
    {t : Train} (ht : t ∈ trains) :
    (s'.registry.get t.number).isSome ∨ s'.registry.map.len = maxTrains := by
  rw [step_registry hstep,events,hfeed]
  dsimp only
  rw [run_messageEvents]
  exact row_or_full now _ ht

end Enrichment

end NsPixels
