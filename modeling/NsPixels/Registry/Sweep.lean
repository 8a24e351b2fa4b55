import NsPixels.Registry

/-!
# The retry sweep

`pendingEnrichment` fills its two buffers independently: each receives the first
candidates of its axis, in iteration order, that its free room admits.
-/

namespace NsPixels.Registry

open FixedCap

section Sweeps

variable [TickRate] {N M : ℕ}

/-- Numbers of the rows the sweep at `now` would request on `axis`. -/
def candidates (axis : UnknownAxis) (now cooldownS : ℕ) (entries : List (UInt32 × TrainState)) :
    List UInt32 :=
  (entries.filter fun e =>
    wants e.2 axis (Duration.asSecs (now - e.2.lastSeen)) cooldownS).map Prod.fst

@[simp] theorem candidates_nil (axis : UnknownAxis) (now cooldownS : ℕ) :
    candidates axis now cooldownS [] = [] := rfl

theorem candidates_cons (axis : UnknownAxis) (now cooldownS : ℕ) (k : UInt32) (v : TrainState)
    (rest : List (UInt32 × TrainState)) :
    candidates axis now cooldownS ((k,v) :: rest) =
      (if wants v axis (Duration.asSecs (now - v.lastSeen)) cooldownS then [k] else []) ++
        candidates axis now cooldownS rest := by
  simp only [candidates,List.filter_cons]
  split <;> rfl

theorem mem_candidates_iff {axis : UnknownAxis} {now cooldownS : ℕ}
    {entries : List (UInt32 × TrainState)} {n : UInt32} :
    n ∈ candidates axis now cooldownS entries ↔
      ∃ v, (n,v) ∈ entries ∧
        wants v axis (Duration.asSecs (now - v.lastSeen)) cooldownS = true := by
  simp [candidates]

omit [TickRate] in
/-- A guarded push never breaks the loop; it appends while there is room. -/
theorem pushIf_spec (buf : Vec UInt32 N) (k : UInt32) (cond : Bool) :
    ∃ buf', pushIf buf k cond = some buf' ∧
      buf'.toList = buf.toList ++ (if cond then [k] else []).take (N - buf.len) := by
  have hlen := buf.len_le
  rw [pushIf]
  by_cases hroom : buf.len < N
  · cases cond with
    | false => exact ⟨buf,by simp [hroom],by simp⟩
    | true =>
      obtain ⟨buf',hb,hl⟩ := Vec.exists_push_eq_some hroom k
      refine ⟨buf',by simpa [hroom] using hb,?_⟩
      rw [hl,if_pos rfl,List.take_of_length_le]
      simp only [List.length_singleton]
      omega
  · refine ⟨buf,by simp [hroom],?_⟩
    rw [show N - buf.len = 0 by omega,List.take_zero,List.append_nil]

omit [TickRate] in
/-- Filling in two rounds is filling at once. -/
theorem append_take_take {N : ℕ} {buf buf' buf'' : Vec UInt32 N} {l₁ l₂ : List UInt32}
    (h₁ : buf'.toList = buf.toList ++ l₁.take (N - buf.len))
    (h₂ : buf''.toList = buf'.toList ++ l₂.take (N - buf'.len)) :
    buf''.toList = buf.toList ++ (l₁ ++ l₂).take (N - buf.len) := by
  have hlen : buf'.len = buf.len + min (N - buf.len) l₁.length := by
    simp only [Vec.len,h₁,List.length_append,List.length_take]
  have hbuf := buf.len_le
  rw [h₂,h₁,List.append_assoc,List.take_append,hlen]
  congr 3
  omega

/-- The loop appends to each buffer the candidates of its axis that fit. -/
theorem pendingLoop_spec {now cooldownS : ℕ} {entries : List (UInt32 × TrainState)}
    (hnow : ∀ e ∈ entries, e.2.lastSeen ≤ now) (tBuf : Vec UInt32 N) (sBuf : Vec UInt32 M) :
    ∃ tBuf' sBuf', pendingLoop now cooldownS entries tBuf sBuf = some (tBuf',sBuf') ∧
      tBuf'.toList = tBuf.toList ++ (candidates .type now cooldownS entries).take (N - tBuf.len) ∧
      sBuf'.toList =
        sBuf.toList ++ (candidates .service now cooldownS entries).take (M - sBuf.len) := by
  induction entries generalizing tBuf sBuf with
  | nil => exact ⟨tBuf,sBuf,rfl,by simp,by simp⟩
  | cons e rest ih =>
    obtain ⟨k,v⟩ := e
    have hv : v.lastSeen ≤ now := hnow (k,v) List.mem_cons_self
    rw [pendingLoop]
    split
    · next hfull =>
      -- both buffers are full, so nothing more would have been taken
      refine ⟨tBuf,sBuf,rfl,?_,?_⟩
      · rw [hfull.1,Nat.sub_self,List.take_zero,List.append_nil]
      · rw [hfull.2,Nat.sub_self,List.take_zero,List.append_nil]
    · obtain ⟨tBuf₁,ht,htl⟩ :=
        pushIf_spec tBuf k (wants v .type (Duration.asSecs (now - v.lastSeen)) cooldownS)
      obtain ⟨sBuf₁,hs,hsl⟩ :=
        pushIf_spec sBuf k (wants v .service (Duration.asSecs (now - v.lastSeen)) cooldownS)
      obtain ⟨tBuf',sBuf',hrun,htl',hsl'⟩ :=
        ih (fun e he => hnow e (List.mem_cons_of_mem _ he)) tBuf₁ sBuf₁
      refine ⟨tBuf',sBuf',?_,?_,?_⟩
      · simp only [Instant.durationSince,Instant.checkedDurationSince_of_le hv,ht,hs,hrun]
      · rw [candidates_cons]
        exact append_take_take htl htl'
      · rw [candidates_cons]
        exact append_take_take hsl hsl'

/-- The sweep, as a whole. -/
theorem pendingEnrichment_spec {r : Registry} {now : ℕ}
    (hnow : ∀ e ∈ r.map.entries, e.2.lastSeen ≤ now) (cooldown : ℕ) (tBuf : Vec UInt32 N)
    (sBuf : Vec UInt32 M) :
    ∃ tBuf' sBuf', r.pendingEnrichment tBuf sBuf cooldown now = some (tBuf',sBuf') ∧
      tBuf'.toList = tBuf.toList ++
        (candidates .type now (Duration.asSecs cooldown) r.map.entries).take (N - tBuf.len) ∧
      sBuf'.toList = sBuf.toList ++
        (candidates .service now (Duration.asSecs cooldown) r.map.entries).take (M - sBuf.len) :=
  pendingLoop_spec hnow tBuf sBuf

/-! ### Two independent scans -/

/-- Nothing is known of the train on `axis`, and as far as its row tells the last attempt
is a cooldown ago or more. -/
def Due (axis : UnknownAxis) (now cooldown : ℕ) (v : TrainState) : Prop :=
  v.isUnknown axis = true ∧ (v.attemptAgoS axis = TrainState.attemptNever ∨
    Duration.asSecs cooldown ≤ Duration.asSecs (now - v.lastSeen) + (v.attemptAgoS axis).toNat)

instance (axis : UnknownAxis) (now cooldown : ℕ) : DecidablePred (Due axis now cooldown) :=
  fun _ => inferInstanceAs (Decidable (_ ∧ _))

theorem wants_iff_due {axis : UnknownAxis} {now cooldown : ℕ} {v : TrainState} :
    wants v axis (Duration.asSecs (now - v.lastSeen)) (Duration.asSecs cooldown) = true ↔
      Due axis now cooldown v := by
  rw [wants,Bool.and_eq_true,Due]
  refine and_congr_right fun _ => ?_
  by_cases hnever : v.attemptAgoS axis = TrainState.attemptNever
  · rw [hnever]
    exact iff_of_true (ready_attemptNever _ _) (Or.inl rfl)
  · rw [ready_iff hnever]
    exact (or_iff_right hnever).symm

/-- The due trains in iteration order. -/
def due (r : Registry) (axis : UnknownAxis) (now cooldown : ℕ) : List UInt32 :=
  (r.map.entries.filter fun e => Due axis now cooldown e.2).map Prod.fst

theorem candidates_eq_due (r : Registry) (axis : UnknownAxis) (now cooldown : ℕ) :
    candidates axis now (Duration.asSecs cooldown) r.map.entries = r.due axis now cooldown := by
  rw [candidates,due]
  congr 2
  funext e
  rw [Bool.eq_iff_iff,wants_iff_due,decide_eq_true_eq]

theorem mem_due_iff {r : Registry} {axis : UnknownAxis} {now cooldown : ℕ} {n : UInt32} :
    n ∈ r.due axis now cooldown ↔ ∃ v, r.get n = some v ∧ Due axis now cooldown v := by
  simp [due,get_eq_some_iff]

/-- The due trains that the scan meets before `n`. -/
def dueBefore (r : Registry) (axis : UnknownAxis) (now cooldown : ℕ) (n : UInt32) : List UInt32 :=
  ((r.map.entries.takeWhile fun e => e.1 ≠ n).filter fun e => Due axis now cooldown e.2).map Prod.fst

/-- A due train is among the first `k` unless as many due trains stand before it. -/
theorem mem_take_due_iff {r : Registry} {axis : UnknownAxis} {now cooldown k : ℕ} {n : UInt32}
    {v : TrainState} (hv : r.get n = some v) (hdue : Due axis now cooldown v) :
    n ∈ (r.due axis now cooldown).take k ↔ (r.dueBefore axis now cooldown n).length < k := by
  obtain ⟨front,back,hentries⟩ := List.append_of_mem (get_eq_some_iff.mp hv)
  have hnodup : (r.map.entries.map Prod.fst).Nodup := r.map.nodup
  rw [hentries,List.map_append,List.map_cons] at hnodup
  have hfront : n ∉ front.map Prod.fst := fun hn =>
    List.disjoint_of_nodup_append hnodup hn List.mem_cons_self
  have hwhile : ∀ e ∈ front, decide (e.1 ≠ n) = true := fun e he =>
    decide_eq_true fun heq => hfront (heq ▸ List.mem_map_of_mem he)
  have hbefore : r.dueBefore axis now cooldown n =
      (front.filter fun e => Due axis now cooldown e.2).map Prod.fst := by
    rw [dueBefore,hentries,List.takeWhile_append_of_pos hwhile,List.takeWhile_cons_of_neg (by simp),
      List.append_nil]
  have hsplit : r.due axis now cooldown = r.dueBefore axis now cooldown n ++
      n :: (back.filter fun e => Due axis now cooldown e.2).map Prod.fst := by
    rw [hbefore,due,hentries,List.filter_append,List.filter_cons_of_pos (by simpa using hdue),
      List.map_append,List.map_cons]
  have hnot : n ∉ (r.dueBefore axis now cooldown n).take k := fun hn => by
    have hmem := List.mem_of_mem_take hn
    rw [hbefore] at hmem
    exact hfront ((List.filter_sublist.map Prod.fst).subset hmem)
  rw [hsplit,List.take_append,List.mem_append,or_iff_right hnot]
  by_cases hroom : (r.dueBefore axis now cooldown n).length < k
  · obtain ⟨j,hj⟩ := Nat.exists_eq_add_of_lt hroom
    refine iff_of_true ?_ hroom
    rw [show k - (r.dueBefore axis now cooldown n).length = j + 1 by omega,List.take_succ_cons]
    exact List.mem_cons_self
  · rw [Nat.sub_eq_zero_of_le (not_lt.mp hroom),List.take_zero]
    exact iff_of_false List.not_mem_nil hroom

/-- `buf'` is `buf` and behind it the due trains that fit. -/
structure Scanned (r : Registry) (axis : UnknownAxis) (now cooldown : ℕ)
    (buf buf' : Vec UInt32 N) : Prop where
  scan : buf'.toList = buf.toList ++ (r.due axis now cooldown).take (N - buf.len)
  /-- nothing is appended twice -/
  nodup : (buf'.toList.drop buf.len).Nodup
  /-- nothing is skipped while there is room -/
  complete : buf'.len < N → ∀ n v, r.get n = some v → Due axis now cooldown v →
    n ∈ buf'.toList.drop buf.len

theorem scanned_of_eq {r : Registry} {axis : UnknownAxis} {now cooldown : ℕ}
    {buf buf' : Vec UInt32 N}
    (h : buf'.toList = buf.toList ++ (r.due axis now cooldown).take (N - buf.len)) :
    Scanned r axis now cooldown buf buf' := by
  have hdrop : buf'.toList.drop buf.len = (r.due axis now cooldown).take (N - buf.len) := by
    rw [h,Vec.len,List.drop_left]
  refine ⟨h,?_,?_⟩
  · rw [hdrop]
    have hkeys : (r.due axis now cooldown).Nodup :=
      (List.filter_sublist.map Prod.fst).nodup r.map.nodup
    exact hkeys.sublist (List.take_sublist _ _)
  · intro hroom n v hv hdue
    have hlen := congrArg List.length h
    rw [List.length_append,List.length_take] at hlen
    -- the buffer did not become full, so all that is due was taken
    have hall : (r.due axis now cooldown).length ≤ N - buf.len := by
      simp only [Vec.len] at hlen hroom ⊢
      omega
    rw [hdrop,List.take_of_length_le hall]
    exact mem_due_iff.mpr ⟨v,hv,hdue⟩

/-- The sweep fills each buffer by a scan of its own, whatever the other buffer is. -/
theorem pendingEnrichment_scans {r : Registry} {now : ℕ}
    (hnow : ∀ n v, r.get n = some v → v.lastSeen ≤ now) (cooldown : ℕ) (tBuf : Vec UInt32 N)
    (sBuf : Vec UInt32 M) :
    ∃ tBuf' sBuf', r.pendingEnrichment tBuf sBuf cooldown now = some (tBuf',sBuf') ∧
      Scanned r .type now cooldown tBuf tBuf' ∧ Scanned r .service now cooldown sBuf sBuf' ∧
      (∀ M' (other : Vec UInt32 M'),
        (r.pendingEnrichment tBuf other cooldown now).map Prod.fst = some tBuf') ∧
      (∀ N' (other : Vec UInt32 N'),
        (r.pendingEnrichment other sBuf cooldown now).map Prod.snd = some sBuf') := by
  have hentries : ∀ e ∈ r.map.entries, e.2.lastSeen ≤ now :=
    fun e he => hnow e.1 e.2 (get_eq_some_iff.mpr he)
  obtain ⟨tBuf',sBuf',hrun,ht,hs⟩ := pendingEnrichment_spec hentries cooldown tBuf sBuf
  refine ⟨tBuf',sBuf',hrun,scanned_of_eq (candidates_eq_due r .type now cooldown ▸ ht),
    scanned_of_eq (candidates_eq_due r .service now cooldown ▸ hs),?_,?_⟩
  · intro M' other
    obtain ⟨tBuf₂,sBuf₂,hrun₂,ht₂,_⟩ := pendingEnrichment_spec hentries cooldown tBuf other
    rw [hrun₂,Option.map_some,Vec.ext (ht₂.trans ht.symm)]
  · intro N' other
    obtain ⟨tBuf₂,sBuf₂,hrun₂,_,hs₂⟩ := pendingEnrichment_spec hentries cooldown other sBuf
    rw [hrun₂,Option.map_some,Vec.ext (hs₂.trans hs.symm)]

end Sweeps

/-- A type buffer with room for one more and a service buffer that is full. -/
theorem pendingEnrichment_scans_two : letI := microTicks
    let r := ((Registry.new.upsert 7 ⟨3,4⟩ 0).1.upsert 9 ⟨3,5⟩ 5).1
    let tBuf : Vec UInt32 2 := ⟨[3],by decide⟩
    let sBuf : Vec UInt32 1 := ⟨[4],by decide⟩
    ∃ tBuf' sBuf', r.pendingEnrichment tBuf sBuf (Duration.fromSecs 120) 8 = some (tBuf',sBuf') ∧
      Scanned r .type 8 (Duration.fromSecs 120) tBuf tBuf' ∧
      Scanned r .service 8 (Duration.fromSecs 120) sBuf sBuf' ∧
      (∀ M' (other : Vec UInt32 M'),
        (r.pendingEnrichment tBuf other (Duration.fromSecs 120) 8).map Prod.fst = some tBuf') ∧
      (∀ N' (other : Vec UInt32 N'),
        (r.pendingEnrichment other sBuf (Duration.fromSecs 120) 8).map Prod.snd = some sBuf') := by
  let _ := microTicks
  intro r tBuf sBuf
  refine pendingEnrichment_scans ?_ (Duration.fromSecs 120) tBuf sBuf
  intro n v hv
  have hentries : ∀ e ∈ r.map.entries, e.2.lastSeen ≤ 8 := by decide
  exact hentries (n,v) (get_eq_some_iff.mp hv)

end NsPixels.Registry
