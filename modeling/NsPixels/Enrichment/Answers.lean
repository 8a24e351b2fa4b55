import NsPixels.Enrichment

/-!
# What a row says of its train

In every interleaving of the two tasks type and service of a row are what the API last said
of the train since it was entered: nothing is made up, nothing said of another train gets in,
and nothing is left from before an eviction.
-/

namespace NsPixels

open FixedCap Registry

/-- Type and service of a train, as far as they are known. -/
structure Traits where
  typ : TrainType
  service : ServiceType
deriving DecidableEq, Repr

def Traits.unknown : Traits := ⟨.unknown,.unknown⟩

def TrainState.traits (s : TrainState) : Traits := ⟨s.typ,s.service⟩

/-- What happens to the traits of trains. -/
inductive Note
  | entered (number : UInt32)
  | type (number : UInt32) (typ : TrainType)
  | service (number : UInt32) (service : ServiceType)
deriving DecidableEq, Repr

/-- What a note makes of the traits of `n`. -/
def Traits.learn (n : UInt32) (k : Traits) : Note → Traits
  | .entered m => if m = n then .unknown else k
  | .type m typ => if m = n then { k with typ := typ } else k
  | .service m service => if m = n then { k with service := service } else k

/-- The traits of `n` after `notes`. -/
def traitsOf (n : UInt32) (notes : List Note) : Traits := notes.foldl (Traits.learn n) .unknown

variable {n : UInt32}

theorem traitsOf_concat (notes : List Note) (x : Note) :
    traitsOf n (notes ++ [x]) = (traitsOf n notes).learn n x := List.foldl_concat _ _ _ _

theorem traitsOf_toList (notes : List Note) (x : Option Note) :
    traitsOf n (notes ++ x.toList) = x.elim (traitsOf n notes) (Traits.learn n (traitsOf n notes)) := by
  cases x with
  | none => exact congrArg (traitsOf n) (List.append_nil _)
  | some x => exact traitsOf_concat notes x

/-- A trait that is known has been noted. -/
theorem mem_of_traitsOf (notes : List Note) :
    ((traitsOf n notes).typ ≠ .unknown → .type n (traitsOf n notes).typ ∈ notes) ∧
      ((traitsOf n notes).service ≠ .unknown → .service n (traitsOf n notes).service ∈ notes) := by
  induction notes using List.reverseRecOn with
  | nil => exact ⟨fun h => absurd rfl h,fun h => absurd rfl h⟩
  | append_singleton notes x ih =>
    have hkept := ih.imp (fun h ht => List.mem_append_left [x] (h ht))
      fun h ht => List.mem_append_left [x] (h ht)
    have hx : x ∈ notes ++ [x] := List.mem_append_right _ (List.mem_singleton_self x)
    rw [traitsOf_concat]
    cases x with
    | entered m =>
      rw [Traits.learn]
      split
      · exact ⟨fun h => absurd rfl h,fun h => absurd rfl h⟩
      · exact hkept
    | type m typ =>
      rw [Traits.learn]
      split
      · next hm => exact ⟨fun _ => hm ▸ hx,hkept.2⟩
      · exact hkept
    | service m service =>
      rw [Traits.learn]
      split
      · next hm => exact ⟨hkept.1,fun _ => hm ▸ hx⟩
      · exact hkept

section Registries

variable [TickRate]

/-- What an operation on `r` notes. -/
def Registry.note (r : Registry) (e : Event) : Option Note :=
  match e.op with
  | .upsert n _ => if (r.get n).isNone then some (.entered n) else none
  | .setType n typ => some (.type n typ)
  | .setService n service => some (.service n service)
  | .evictOlderThan _ => none

/-- What a run of operations notes, one after the other. -/
def Registry.notes (r : Registry) : List Event → List Note
  | [] => []
  | e :: es => (r.note e).toList ++ (r.apply e).notes es

theorem Registry.notes_append (r : Registry) (es es' : List Event) :
    r.notes (es ++ es') = r.notes es ++ (r.run es).notes es' := by
  induction es generalizing r with
  | nil => rfl
  | cons e es ih => rw [List.cons_append,notes,notes,ih,run_cons,List.append_assoc]

/-- An operation changes the traits of a row that stays by what it notes. -/
theorem TrainState.traits_after {r : Registry} {s : TrainState} (h : r.get n = some s) (e : Event) :
    (s.after n e).traits = (r.note e).elim s.traits (s.traits.learn n) := by
  obtain ⟨now,op⟩ := e
  cases op with
  | upsert m pixel =>
    have hnote : r.note ⟨now,.upsert m pixel⟩ =
        if (r.get m).isNone then some (.entered m) else none := rfl
    rw [after_upsert,hnote]
    by_cases hm : m = n
    · rw [if_pos hm,hm,h]
      rfl
    · rw [if_neg hm]
      split
      · exact (if_neg hm).symm
      · rfl
  | setType m typ =>
    rw [after_setType,note,Option.elim,Traits.learn]
    split <;> rfl
  | setService m service =>
    rw [after_setService,note,Option.elim,Traits.learn]
    split <;> rfl
  | evictOlderThan cutoff => rfl

/-- After any operations a row has the traits they have noted. -/
theorem Registry.traits_run {es : List Event} {s : TrainState}
    (h : (Registry.new.run es).get n = some s) : s.traits = traitsOf n (Registry.new.notes es) := by
  induction es using List.reverseRecOn generalizing s with
  | nil => cases h
  | append_singleton es e ih =>
    rw [run_append,run_cons,run_nil] at h
    rw [notes_append,notes,notes,List.append_nil,traitsOf_toList]
    rcases (Registry.new.run es).get_apply_cases e n with
      ⟨s₀,hs₀,hr⟩ | ⟨_,_,hr⟩ | ⟨pixel,hop,hnone,hr⟩ | ⟨_,hr⟩
    · obtain rfl : s = s₀.after n e := by rw [h,Option.some.injEq] at hr; exact hr
      rw [← ih hs₀]
      exact TrainState.traits_after hs₀ e
    · rw [h] at hr
      cases hr
    · -- the row has just been inserted, and nothing is known of it
      obtain rfl : s = TrainState.new pixel e.now := by rw [h,Option.some.injEq] at hr; exact hr
      rw [note,hop]
      dsimp only
      rw [if_pos (Option.isNone_iff_eq_none.mpr hnone)]
      exact (if_pos rfl).symm
    · rw [h] at hr
      cases hr

theorem Registry.mem_notes {r : Registry} {es : List Event} {x : Note} (h : x ∈ r.notes es) :
    ∃ e ∈ es, ∃ r' : Registry, r'.note e = some x := by
  induction es generalizing r with
  | nil => cases h
  | cons e es ih =>
    rw [notes,List.mem_append,Option.mem_toList] at h
    obtain h | h := h
    · exact ⟨e,List.mem_cons_self,r,h⟩
    · obtain ⟨e',he',hr'⟩ := ih h
      exact ⟨e',List.mem_cons_of_mem e he',hr'⟩

omit [TickRate] in
/-- A trait is noted by the operation that sets it. -/
theorem Registry.op_of_note {r : Registry} {e : Event} {x : Note} (h : r.note e = some x) :
    (∀ typ, x = .type n typ → e.op = .setType n typ) ∧
      ∀ service, x = .service n service → e.op = .setService n service := by
  obtain ⟨now,op⟩ := e
  cases op with
  | upsert m pixel =>
    simp only [note] at h
    split at h <;> cases h
    exact ⟨fun _ hx => (by cases hx),fun _ hx => (by cases hx)⟩
  | setType m typ =>
    cases h
    exact ⟨fun _ hx => (by cases hx; rfl),fun _ hx => (by cases hx)⟩
  | setService m service =>
    cases h
    exact ⟨fun _ hx => (by cases hx),fun _ hx => (by cases hx; rfl)⟩
  | evictOlderThan cutoff => cases h

end Registries

namespace Enrichment

open NsApi

variable [TickRate] {ε : Type} (json : Json) (headers : List (String × String))

/-- What an action notes. -/
def notes (s : State ε) (a : Action ε) : List Note := s.registry.notes (events json headers s a)

variable {json headers} {as : List (Action ε)} {s : State ε} {n : UInt32}

theorem notes_run (h : (machine json headers).run as = some s) :
    (machine json headers).trace (notes json headers) as =
      Registry.new.notes ((machine json headers).trace (events json headers) as) := by
  refine Machine.run_induction (m := machine json headers)
    (P := fun as _ => (machine json headers).trace (notes json headers) as =
      Registry.new.notes ((machine json headers).trace (events json headers) as)) rfl ?_ h
  intro as s a s' hrun hs _
  rw [Machine.trace_concat _ hrun,Machine.trace_concat _ hrun,notes_append,hs,← registry_run hrun]
  rfl

/-- In every reachable state a row has the traits noted so far. -/
theorem traits_run (h : (machine json headers).run as = some s) {row : TrainState}
    (hrow : s.registry.get n = some row) :
    row.traits = traitsOf n ((machine json headers).trace (notes json headers) as) := by
  rw [registry_run h] at hrow
  rw [notes_run h]
  exact Registry.traits_run hrow

/-! ### Where the traits come from -/

variable (json) in
/-- What an answer that can be read says: of every train it has a record for, or of the one
train that was asked for. -/
inductive Says : Call → Except ε (Response ε) → Note → Prop
  | types {batch : List UInt32} {resp : Response ε} {parsed : Vec TrainInfo (batchMax * 5)}
      {info : TrainInfo} (successful : isSuccessful resp.status = true)
      (parse : parseBody resp.body (readTypes json) = .ok parsed) (mem : info ∈ parsed.toList) :
      Says (.types batch) (.ok resp) (.type info.number (mapTrainType info.trainType))
  | service {number : UInt32} {resp : Response ε} {parsed : JourneyResp}
      (successful : isSuccessful resp.status = true)
      (parse : parseBody resp.body (readJourney json) = .ok parsed) :
      Says (.service number) (.ok resp) (.service number parsed.service)

omit [TickRate] in
/-- Known traits are only written for an answer that says them. -/
theorem says_of_mem_events {call : Call} {answer : Except ε (Response ε)} {now : ℕ} {e : Event}
    (he : e ∈ call.events json (fun _ => answer) headers now) :
    (∀ typ, e.op = .setType n typ → typ ≠ .unknown → Says json call answer (.type n typ)) ∧
      ∀ service, e.op = .setService n service → service ≠ .unknown →
        Says json call answer (.service n service) := by
  cases answer with
  | error err => cases he
  | ok resp =>
    cases call with
    | types batch =>
      simp only [Call.events] at he
      split at he
      · obtain ⟨m,_,rfl⟩ := List.mem_map.mp he
        exact ⟨fun _ h hne => absurd (by cases h; rfl) hne,fun _ h => (by cases h)⟩
      next hstatus =>
      split at he
      · cases he
      next parsed hparse =>
      obtain ⟨info,hinfo,rfl⟩ := List.mem_map.mp he
      refine ⟨fun typ h _ => ?_,fun _ h => (by cases h)⟩
      cases h
      exact .types (not_not.mp hstatus) hparse hinfo
    | service number =>
      simp only [Call.events] at he
      split at he
      · rw [List.mem_singleton.mp he]
        exact ⟨fun _ h => (by cases h),fun _ h hne => absurd (by cases h; rfl) hne⟩
      next hstatus =>
      split at he
      · cases he
      next parsed hparse =>
      rw [List.mem_singleton.mp he]
      refine ⟨fun _ h => (by cases h),fun service h _ => ?_⟩
      cases h
      exact .service (not_not.mp hstatus) hparse

/-- A message stamps no attempt. -/
theorem messageEvents_stamps {now : ℕ} {trains : List Train} {e : Event}
    (he : e ∈ messageEvents now trains) (axis : UnknownAxis) : e.op.stamps axis = none := by
  rw [messageEvents,List.mem_append] at he
  obtain he | he := he
  · split at he
    · rw [List.mem_singleton.mp he]
      cases axis <;> rfl
    · cases he
  · obtain ⟨t,_,rfl⟩ := List.mem_map.mp he
    cases axis <;> rfl

variable (json headers) in
/-- In the run an answer was recorded that said `x`. -/
def Told (as : List (Action ε)) (x : Note) : Prop :=
  ∃ before later s call rest now answer, as = before ++ .record :: later ∧
    (machine json headers).run before = some s ∧ s.api = .recording call rest now answer ∧
    Says json call answer x

/-- Known traits are only noted for an answer. -/
theorem told_of_mem_notes (h : (machine json headers).run as = some s) {x : Note}
    (hx : x ∈ (machine json headers).trace (notes json headers) as) :
    (∀ typ, x = .type n typ → typ ≠ .unknown → Told json headers as x) ∧
      ∀ service, x = .service n service → service ≠ .unknown → Told json headers as x := by
  obtain ⟨before,a,later,t,has,ht,hxt⟩ := Machine.mem_trace h hx
  obtain ⟨e,he,r',hnote⟩ := mem_notes hxt
  have hop := op_of_note (n := n) hnote
  cases a with
  | applyMessage =>
    simp only [events] at he
    split at he
    · cases he
    have hstamps := messageEvents_stamps he
    constructor
    · intro typ hx
      have htype := hstamps .type
      rw [hop.1 typ hx] at htype
      cases htype
    · intro service hx
      have hservice := hstamps .service
      rw [hop.2 service hx] at hservice
      cases hservice
  | record =>
    simp only [events] at he
    split at he
    · next call rest now answer hapi =>
      have hsays := says_of_mem_events (n := n) he
      constructor
      · intro typ hx hne
        exact ⟨before,later,t,call,rest,now,answer,has,ht,hapi,hx ▸ hsays.1 typ (hop.1 typ hx) hne⟩
      · intro service hx hne
        exact ⟨before,later,t,call,rest,now,answer,has,ht,hapi,
          hx ▸ hsays.2 service (hop.2 service hx) hne⟩
    · cases he
  | _ => cases he

/-- In every reachable state a known type or service of a row comes from an answer of the
API that was recorded in the run and said it of this train. -/
theorem told_run (h : (machine json headers).run as = some s) {row : TrainState}
    (hrow : s.registry.get n = some row) :
    (row.typ ≠ .unknown → Told json headers as (.type n row.typ)) ∧
      (row.service ≠ .unknown → Told json headers as (.service n row.service)) := by
  have htraits := traits_run h hrow
  have hmem := mem_of_traitsOf (n := n) ((machine json headers).trace (notes json headers) as)
  rw [← htraits] at hmem
  exact ⟨fun hne => (told_of_mem_notes h (hmem.1 hne)).1 _ rfl hne,
    fun hne => (told_of_mem_notes h (hmem.2 hne)).2 _ rfl hne⟩

/-- Train 7 is seen, and the API says that it is an SNG. -/
def typeAnswered : List (Action Unit) :=
  [.receive [⟨7,⟨3,4⟩⟩],.applyMessage,.drain,.openResource true,
    .answer (.ok ⟨200,.ok (utf8 sampleDocument.toList)⟩),.record]

/-- A reader for which every text has a record of train 7 and an intercity stop. -/
def bothJson : Json where
  trainInfos := fun _ => some [⟨7,some "SNG"⟩]
  journey := fun _ => some [([⟨none⟩],[⟨some ⟨some "IC"⟩⟩])]

/-- Both calls for train 7 are answered. -/
def bothAnswered : List (Action Unit) :=
  [.receive [⟨7,⟨3,4⟩⟩],.applyMessage,.drain,.openResource true,.answer (.ok ⟨200,.ok []⟩),.record,
    .answer (.ok ⟨200,.ok []⟩),.record]

omit [TickRate] in
theorem told_run_bothAnswered : letI := microTicks
    ∃ (s : State Unit) (row : TrainState), (machine bothJson []).run bothAnswered = some s ∧
      s.registry.get 7 = some row ∧ Told bothJson [] bothAnswered (.type 7 .sng) ∧
      Told bothJson [] bothAnswered (.service 7 .intercity) := by
  let _ := microTicks
  have hdata : (((machine bothJson []).run bothAnswered).bind fun s => s.registry.get 7).map
      (fun row => (row.typ,row.service)) = some (.sng,.intercity) := by
    decide +kernel
  obtain ⟨row,hrow,hdata⟩ := Option.map_eq_some_iff.mp hdata
  obtain ⟨htyp,hservice⟩ := Prod.mk.inj hdata
  obtain ⟨s,hrun,hget⟩ := Option.bind_eq_some_iff.mp hrow
  have htold := (told_run hrun hget).1 (by rw [htyp]; decide)
  have htold' := (told_run hrun hget).2 (by rw [hservice]; decide)
  rw [htyp] at htold
  rw [hservice] at htold'
  exact ⟨s,row,hrun,hget,htold,htold'⟩

end Enrichment

end NsPixels
