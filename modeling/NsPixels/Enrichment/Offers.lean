import NsPixels.Enrichment

/-!
# Notifications of new trains

The feed offers a number to the queue whenever `upsert` calls it new. On a full map
`upsert` drops the insert and calls the number new all the same.
-/

namespace NsPixels

open FixedCap Registry

section Offers

variable [TickRate]

namespace Registry

theorem upsert_isNew_iff (r : Registry) (n : UInt32) (pixel : PixelCoord) (now : ℕ) :
    (r.upsert n pixel now).2 = true ↔ r.get n = none := by
  rw [upsert]
  cases r.get n <;> simp

/-- The number an operation reports as new. -/
def offer (r : Registry) (e : Event) : Option UInt32 :=
  match e.op with
  | .upsert n pixel => if (r.upsert n pixel e.now).2 then some n else none
  | _ => none

/-- The numbers that a run of operations reports as new, in order. -/
def offers (r : Registry) : List Event → List UInt32
  | [] => []
  | e :: es => (r.offer e).toList ++ offers (r.apply e) es

theorem offer_eq_some_iff {r : Registry} {e : Event} {n : UInt32} :
    r.offer e = some n ↔ (∃ pixel, e.op = .upsert n pixel) ∧ r.get n = none := by
  obtain ⟨now,op⟩ := e
  cases op with
  | upsert m pixel =>
    simp only [offer,upsert_isNew_iff,Op.upsert.injEq]
    constructor
    · intro h
      split at h
      · next hm =>
        cases h
        exact ⟨⟨pixel,rfl,rfl⟩,hm⟩
      · cases h
    · rintro ⟨⟨_,rfl,_⟩,hm⟩
      rw [if_pos hm]
  | _ => simp [offer]

/-- An upsert registers a number that is absent exactly when there is room for it. -/
theorem isSome_get_upsert_iff {r : Registry} {n : UInt32} (h : r.get n = none)
    (pixel : PixelCoord) (now : ℕ) :
    ((r.upsert n pixel now).1.get n).isSome = true ↔ r.map.len < maxTrains := by
  rw [get_upsert_of_none h]
  by_cases hN : r.map.len < maxTrains
  · simp [hN]
  · simp [hN,h]

/-- A number that is registered before a run and not after it has been evicted. -/
theorem exists_evicted {r : Registry} {es : List Event} {n : UInt32}
    (hbefore : (r.get n).isSome = true) (hafter : (r.run es).get n = none) :
    ∃ es₁ now cutoff es₂, es = es₁ ++ ⟨now,.evictOlderThan cutoff⟩ :: es₂ ∧
      ((r.run es₁).get n).isSome = true ∧
      ((r.run es₁).evictOlderThan cutoff).1.get n = none := by
  induction es generalizing r with
  | nil =>
    rw [run_nil] at hafter
    rw [hafter] at hbefore
    cases hbefore
  | cons e es ih =>
    rw [run_cons] at hafter
    rcases r.get_apply_cases e n with ⟨s,_,hr⟩ | ⟨cutoff,hop,hr⟩ | ⟨_,_,hnone,_⟩ | ⟨hnone,_⟩
    · obtain ⟨es₁,now,cutoff,es₂,rfl,hes⟩ := ih (by rw [hr]; rfl) hafter
      exact ⟨e :: es₁,now,cutoff,es₂,rfl,hes⟩
    · obtain ⟨now,op⟩ := e
      subst hop
      exact ⟨[],now,cutoff,es,rfl,hbefore,hr⟩
    · rw [hnone] at hbefore
      cases hbefore
    · rw [hnone] at hbefore
      cases hbefore

end Registry

/-- In the run `es` from boot no notification is spurious or repeated. -/
structure OffersFaithful (es : List Event) : Prop where
  exact : ∀ pre now n pixel post, es = pre ++ ⟨now,.upsert n pixel⟩ :: post →
    (((Registry.new.run pre).upsert n pixel now).2 = true ↔
      (Registry.new.run pre).get n = none ∧
        (((Registry.new.run pre).upsert n pixel now).1.get n).isSome = true)
  registered : ∀ pre e post n, es = pre ++ e :: post →
    (Registry.new.run pre).offer e = some n →
    ((Registry.new.run (pre ++ [e])).get n).isSome = true
  /-- between two offers of a number an eviction pass removes it -/
  evicted : ∀ pre e mid e' post n, es = pre ++ e :: (mid ++ e' :: post) →
    (Registry.new.run pre).offer e = some n →
    (Registry.new.run (pre ++ [e] ++ mid)).offer e' = some n →
    ∃ mid₁ now cutoff mid₂, mid = mid₁ ++ ⟨now,.evictOlderThan cutoff⟩ :: mid₂ ∧
      ((Registry.new.run (pre ++ [e] ++ mid₁)).get n).isSome = true ∧
      ((Registry.new.run (pre ++ [e] ++ mid₁)).evictOlderThan cutoff).1.get n = none

/-- Whenever the run upserts an absent number, the map is not full. -/
def HasRoom (es : List Event) : Prop :=
  ∀ pre now n pixel post, es = pre ++ ⟨now,.upsert n pixel⟩ :: post →
    (Registry.new.run pre).get n = none → (Registry.new.run pre).map.len < maxTrains

theorem offersFaithful_iff_hasRoom (es : List Event) : OffersFaithful es ↔ HasRoom es := by
  constructor
  · intro h pre now n pixel post hes hnone
    have hnew := (upsert_isNew_iff _ n pixel now).mpr hnone
    exact (isSome_get_upsert_iff hnone pixel now).mp ((h.exact pre now n pixel post hes).mp hnew).2
  · intro h
    have hregistered : ∀ pre e post n, es = pre ++ e :: post →
        (Registry.new.run pre).offer e = some n →
        ((Registry.new.run (pre ++ [e])).get n).isSome = true := by
      rintro pre ⟨now,op⟩ post n hes hoffer
      obtain ⟨⟨pixel,rfl⟩,hnone⟩ := offer_eq_some_iff.mp hoffer
      rw [run_append]
      exact (isSome_get_upsert_iff hnone pixel now).mpr (h pre now n pixel post hes hnone)
    refine ⟨?_,hregistered,?_⟩
    · intro pre now n pixel post hes
      rw [upsert_isNew_iff]
      constructor
      · intro hnone
        exact ⟨hnone,(isSome_get_upsert_iff hnone pixel now).mpr (h pre now n pixel post hes hnone)⟩
      · exact And.left
    · intro pre e mid e' post n hes hoffer hoffer'
      have hbefore := hregistered pre e (mid ++ e' :: post) n hes hoffer
      have hafter := (offer_eq_some_iff.mp hoffer').2
      rw [run_append] at hafter
      obtain ⟨mid₁,now,cutoff,mid₂,hmid,hpass⟩ := exists_evicted hbefore hafter
      rw [← run_append] at hpass
      exact ⟨mid₁,now,cutoff,mid₂,hmid,hpass⟩

namespace Enrichment

open NsApi

theorem foldl_applyTrain_snd (now : ℕ) (trains : List Train) (reg : Registry)
    (queue : Vec UInt32 queueCapacity) :
    (trains.foldl (applyTrain now) (reg,queue)).2 =
      (reg.offers (trains.map fun t => ⟨now,.upsert t.number t.pixel⟩)).foldl Vec.pushOrDrop
        queue := by
  induction trains generalizing reg queue with
  | nil => rfl
  | cons t trains ih =>
    have happly : applyTrain now (reg,queue) t = ((reg.upsert t.number t.pixel now).1,
        if (reg.upsert t.number t.pixel now).2 then queue.pushOrDrop t.number else queue) := rfl
    rw [List.foldl_cons,happly,ih,List.map_cons,offers,List.foldl_append]
    congr 1
    by_cases hnew : (reg.upsert t.number t.pixel now).2 = true
    · simp [offer,hnew]
    · simp [offer,hnew]

/-- The queue is offered what the operations of a message report as new, and drops what
does not fit. -/
theorem applyMessage_snd (now : ℕ) (trains : List Train) (reg : Registry)
    (queue : Vec UInt32 queueCapacity) :
    (applyMessage now trains reg queue).2 =
      (reg.offers (messageEvents now trains)).foldl Vec.pushOrDrop queue := by
  rw [applyMessage,foldl_applyTrain_snd,messageEvents]
  split
  · rfl
  · rfl

variable {ε : Type} (json : Json) (headers : List (String × String))

/-- What a message does to the queue. -/
theorem step_applyMessage_queue {s s' : State ε} (h : step json headers s .applyMessage = some s') :
    s'.queue =
      (s.registry.offers (events json headers s .applyMessage)).foldl Vec.pushOrDrop s.queue := by
  simp only [step] at h
  split at h
  · cases h
  · next now trains hfeed =>
    rw [Option.some.injEq] at h
    rw [← h]
    simp only [events,hfeed]
    exact applyMessage_snd now trains s.registry s.queue

/-- In a run of both tasks the queue is offered the notifications of the registry and no
others, and these are faithful exactly when no absent train is upserted into a full map. -/
theorem offersFaithful_run_iff (as : List (Action ε)) :
    (machine json headers).Always (fun s a s' => a = .applyMessage →
        s'.queue = (s.registry.offers (events json headers s a)).foldl Vec.pushOrDrop s.queue) as ∧
      (OffersFaithful ((machine json headers).trace (events json headers) as) ↔
        HasRoom ((machine json headers).trace (events json headers) as)) := by
  refine ⟨?_,offersFaithful_iff_hasRoom _⟩
  rintro pre a post s s' - - hstep rfl
  exact step_applyMessage_queue json headers hstep

/-! ### A full map -/

/-- Distinct numbers that fit are appended in order. -/
theorem keys_run_upserts {r : Registry} {trains : List Train} (now : ℕ)
    (hnodup : (r.map.entries.map Prod.fst ++ trains.map Train.number).Nodup)
    (hroom : r.map.len + trains.length ≤ maxTrains) :
    (r.run (trains.map fun t => ⟨now,.upsert t.number t.pixel⟩)).map.entries.map Prod.fst =
      r.map.entries.map Prod.fst ++ trains.map Train.number := by
  induction trains generalizing r with
  | nil => simp
  | cons t trains ih =>
    rw [List.length_cons] at hroom
    have hmem : t.number ∉ r.map.entries.map Prod.fst := by
      intro h
      have hdisj := (List.nodup_append'.mp hnodup).2.2
      exact hdisj h (by simp)
    have hnone : r.get t.number = none := IndexMap.get_eq_none_iff.mpr hmem
    obtain ⟨m',hins,hentries⟩ := IndexMap.insert_of_get_none (v := TrainState.new t.pixel now)
      (show r.map.get t.number = none from hnone) (show r.map.len < maxTrains by omega)
    have happly : r.apply ⟨now,.upsert t.number t.pixel⟩ = ⟨m'⟩ := by
      simp only [apply,upsert,hnone,hins,Option.getD_some]
    have hkeys : m'.entries.map Prod.fst = r.map.entries.map Prod.fst ++ [t.number] := by
      simp [hentries]
    have hlen : m'.len = r.map.len + 1 := by
      simp [IndexMap.len,hentries]
    rw [List.map_cons,run_cons,happly,ih]
    · rw [hkeys,List.append_assoc,List.singleton_append,List.map_cons]
    · rw [hkeys,List.append_assoc,List.singleton_append]
      exact hnodup
    · dsimp only
      omega

/-- An upsert that follows as many distinct upserts as the registry holds is not faithful. -/
theorem not_offersFaithful_of_full (trains : List Train) {n : UInt32} (pixel : PixelCoord)
    (now : ℕ) (hnodup : (trains.map Train.number).Nodup) (hlen : trains.length = maxTrains)
    (hn : n ∉ trains.map Train.number) :
    ¬ OffersFaithful (((trains.map fun t => ⟨now,.upsert t.number t.pixel⟩) ++
      [⟨now,.upsert n pixel⟩] : List Event)) := by
  rw [offersFaithful_iff_hasRoom]
  intro h
  have hkeys := keys_run_upserts (r := Registry.new) now
    (by simpa [Registry.new] using hnodup) (by simp [Registry.new,IndexMap.len,hlen])
  rw [show Registry.new.map.entries = [] from rfl,List.map_nil,List.nil_append] at hkeys
  have hnone : (Registry.new.run (trains.map fun t => ⟨now,.upsert t.number t.pixel⟩)).get n =
      none := by
    apply IndexMap.get_eq_none_iff.mpr
    rw [hkeys]
    exact hn
  have hlt := h _ now n pixel [] rfl hnone
  have hfull := congrArg List.length hkeys
  rw [List.length_map,List.length_map,hlen] at hfull
  rw [IndexMap.len,hfull] at hlt
  exact Nat.lt_irrefl _ hlt

/-- The registry operations of a first message, received at boot: nothing is evicted. -/
theorem trace_message (trains : List Train) :
    (machine (ε := ε) json headers).trace (events json headers) [.receive trains,.applyMessage] =
      trains.map fun t => ⟨0,.upsert t.number t.pixel⟩ := by
  have hrun : (machine json headers).run [.receive trains] =
      some { State.init ε with feed := .locking 0 trains } := rfl
  have hcutoff : (Instant.checkedSub 0 (Duration.fromSecs staleAfterS)).getD 0 = 0 := by
    rw [Instant.checkedSub,if_neg (Nat.not_le_of_lt (Duration.fromSecs_pos (by decide)))]
    rfl
  apply (Machine.trace_concat (events json headers) hrun).trans
  apply (show _ = messageEvents 0 trains from rfl).trans
  simp only [messageEvents,hcutoff,ne_eq,not_true_eq_false,if_false,List.nil_append]

end Enrichment

end Offers

namespace Enrichment

open NsApi

/-- As many trains as the registry holds. -/
def capacityTrains : List Train := (List.range maxTrains).map fun i => ⟨UInt32.ofNat i,⟨3,4⟩⟩

theorem toNat_capacityTrains : capacityTrains.map (fun t => t.number.toNat) = List.range maxTrains := by
  rw [capacityTrains,List.map_map]
  refine (List.map_congr_left fun i hi => ?_).trans (List.map_id _)
  exact UInt32.toNat_ofNat_of_lt' ((List.mem_range.mp hi).trans (by decide))

/-- One message with one train more. -/
theorem not_offersFaithful_crowd : letI := microTicks
    ¬ OffersFaithful ((machine (ε := Unit) sampleJson []).trace (events sampleJson [])
      [.receive (capacityTrains ++ [⟨512,⟨3,4⟩⟩]),.applyMessage]) := by
  let _ := microTicks
  have hmap : (capacityTrains.map Train.number).map UInt32.toNat = List.range maxTrains := by
    rw [List.map_map]
    exact toNat_capacityTrains
  have hfull := not_offersFaithful_of_full capacityTrains (n := 512) ⟨3,4⟩ 0
    (List.Nodup.of_map UInt32.toNat (hmap ▸ List.nodup_range)) (by simp [capacityTrains]) (by
      intro hmem
      have hlt := List.mem_map_of_mem (f := UInt32.toNat) hmem
      rw [hmap] at hlt
      exact absurd (List.mem_range.mp hlt) (Nat.lt_irrefl _))
  rw [trace_message,List.map_append]
  exact hfull

end Enrichment

end NsPixels
