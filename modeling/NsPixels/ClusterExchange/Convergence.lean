import NsPixels.ClusterExchange
import NsPixels.Display.Panel

/-!
# The display catches up

A producer that finds no free buffer skips its round. Every snapshot that is rebuilt is
adopted, once and in order, and as soon as changes stop one producer that gets a buffer is
enough for the frames to show the registry and the mode as they are.
-/

namespace NsPixels.ClusterExchange

open FixedCap Registry Tokens

variable {srt : UnstableSort} {s s' : State} {a : Action} {log log' : List Note}

/-- A rebuild does not depend on what is in the buffer. -/
theorem rebuild_eq (srt : UnstableSort) (r : Registry) (out out' : ClusterVec) (mode : MapMode) :
    r.rebuildClustersInto srt out mode = r.rebuildClustersInto srt out' mode := by
  obtain ⟨snap,hrun,hsnap⟩ := rebuildClustersInto_isSnapshot srt r out mode
  obtain ⟨snap',hrun',hsnap'⟩ := rebuildClustersInto_isSnapshot srt r out' mode
  rw [hrun,hrun',Vec.ext (hsnap.unique hsnap' (List.Perm.refl _))]

variable (srt) in
/-- The snapshot of the registry and the mode as they are. -/
def current (s : State) : Option ClusterVec :=
  s.registry.rebuildClustersInto srt Vec.empty (MapMode.current s.mode)

variable (srt) in
/-- The display holds the current snapshot, turned to its direction. -/
def UpToDate (s : State) : Prop :=
  ∃ snap, current srt s = some snap ∧ s.memory s.clusters = snap.map (·.turned s.direction)

/-- Nothing has changed since `b` was rebuilt. -/
def Unchanged (log : List Note) (s : State) (b : Buffer) : Prop := ∀ t ∈ changes log, t < s.builtAt b

/-- What the buffers hold as long as nothing changes. -/
structure Following (srt : UnstableSort) (log : List Note) (s : State) : Prop where
  held : Unchanged log s s.clusters → UpToDate srt s
  pending : ∀ b, Pending s b → Unchanged log s b → current srt s = some (s.memory b)
  built : ∀ b, s.builtAt b ≤ s.time
  past : ∀ t ∈ changes log, t < s.time

theorem changes_append (log log' : List Note) : changes (log ++ log') = changes log ++ changes log' :=
  List.filterMap_append

theorem Unchanged.of_append {b : Buffer} (h : Unchanged (log ++ log') s b) : Unchanged log s b :=
  fun t ht => h t (by rw [changes_append]; exact List.mem_append_left _ ht)

/-- A change makes every buffer stale. -/
theorem Following.change (h : Following srt log s) (hbuilt : s'.builtAt = s.builtAt)
    (htime : s'.time = s.time + 1) : Following srt (log ++ [.changed s.time]) s' := by
  have hchanges : changes (log ++ [.changed s.time]) = changes log ++ [s.time] :=
    changes_append _ _
  have hstale : ∀ b, ¬ Unchanged (log ++ [.changed s.time]) s' b := by
    intro b hb
    have hlt := hb s.time (by rw [hchanges]; exact List.mem_append_right _ (List.mem_singleton_self _))
    rw [hbuilt] at hlt
    exact absurd (h.built b) (Nat.not_le_of_lt hlt)
  refine ⟨fun hb => absurd hb (hstale _),fun b _ hb => absurd hb (hstale b),?_,?_⟩
  · intro b
    rw [hbuilt,htime]
    exact Nat.le_succ_of_le (h.built b)
  · intro t ht
    rw [hchanges,List.mem_append,List.mem_singleton] at ht
    rw [htime]
    obtain ht | rfl := ht
    · exact Nat.lt_succ_of_lt (h.past t ht)
    · exact Nat.lt_succ_self _

/-- An action that changes neither registry nor mode and rebuilds nothing. -/
theorem Following.quiet (h : Following srt log s) (hlog : changes log' = [])
    (hcurrent : current srt s' = current srt s) (hbuilt : s'.builtAt = s.builtAt)
    (htime : s.time ≤ s'.time)
    (hheld : (Unchanged log s s.clusters → UpToDate srt s) →
      Unchanged log s s'.clusters → UpToDate srt s')
    (hpending : ∀ b, Pending s' b → Pending s b ∧ s'.memory b = s.memory b) :
    Following srt (log ++ log') s' := by
  have hsame : ∀ b, Unchanged (log ++ log') s' b → Unchanged log s b := by
    intro b hb t ht
    rw [← hbuilt]
    exact hb.of_append t ht
  refine ⟨fun hb => hheld h.held (hsame _ hb),?_,?_,?_⟩
  · intro b hb hun
    obtain ⟨hpend,hmem⟩ := hpending b hb
    rw [hcurrent,hmem]
    exact h.pending b hpend (hsame b hun)
  · intro b
    rw [hbuilt]
    exact (h.built b).trans htime
  · intro t ht
    rw [changes_append,hlog,List.append_nil] at ht
    exact (h.past t ht).trans_le htime

/-- A producer's buffer is not the one the display draws. -/
theorem ne_clusters_of_claimed (hc : Conserved s.slots) {p : Producer} {b : Buffer}
    (hp : s.hand p = .claimed b) : b ≠ s.clusters := by
  rintro rfl
  have hplace : Place.hand p = .held :=
    hc.eq_of_eq_some (t := s.clusters) (by simp [State.slots,hp]) rfl
  cases hplace

/-- A buffer is only made pending by a rebuild. -/
theorem pending_of_act [TickRate] (hc : Conserved s.slots) (h : act srt s a = some s')
    (ha : ∀ p, a ≠ .rebuild p) (b : Buffer) (hb : Pending s' b) :
    Pending s b ∧ s'.memory b = s.memory b := by
  cases a with
  | update e =>
    cases h
    exact ⟨hb,rfl⟩
  | setMode mode =>
    cases h
    exact ⟨hb,rfl⟩
  | claim p =>
    obtain ⟨hp,⟨_,rfl⟩ | ⟨b',_,rfl⟩⟩ := act_claim h
    · exact ⟨hb,rfl⟩
    · obtain hb | ⟨q,hq⟩ := hb
      · exact ⟨Or.inl hb,rfl⟩
      · simp only [Function.update_apply] at hq
        split at hq
        · cases hq
        · exact ⟨Or.inr ⟨q,hq⟩,rfl⟩
  | rebuild p => exact absurd rfl (ha p)
  | publish p =>
    obtain ⟨b',hp,rfl⟩ := act_publish h
    obtain hb | ⟨q,hq⟩ := hb
    · exact ⟨Or.inr ⟨p,hp.trans (congrArg Hand.rebuilt (Option.some.inj hb))⟩,rfl⟩
    · simp only [Function.update_apply] at hq
      split at hq
      · cases hq
      · exact ⟨Or.inr ⟨q,hq⟩,rfl⟩
  | poll =>
    obtain ⟨_,⟨_,rfl⟩ | ⟨new,hnew,rfl⟩⟩ := act_poll h
    · exact ⟨hb,rfl⟩
    · obtain hb | ⟨q,hq⟩ := hb
      · cases hb
      · exact absurd hq (not_rebuilt_of_fresh hc hnew q b)
  | release =>
    obtain ⟨old,_,rfl⟩ := act_release h
    exact ⟨hb,rfl⟩
  | draw direction =>
    -- the display turns its own buffer
    obtain ⟨_,rfl⟩ := act_draw h
    exact ⟨hb,Function.update_of_ne (Pending.ne_clusters hc hb) _ _⟩

variable [TickRate]

theorem Following.step (hc : Conserved s.slots) (h : Following srt log s)
    (hstep : step srt s a = some s') : Following srt (log ++ notes srt s a) s' := by
  obtain ⟨u,hact,rfl⟩ := Option.map_eq_some_iff.mp hstep
  have htime : s.time ≤ s.time + 1 := Nat.le_succ _
  cases a with
  | update e =>
    cases hact
    exact h.change rfl rfl
  | setMode mode =>
    cases hact
    exact h.change rfl rfl
  | claim p =>
    have hpending := pending_of_act hc hact (by simp)
    obtain ⟨_,⟨_,rfl⟩ | ⟨b,_,rfl⟩⟩ := act_claim hact
    · exact h.quiet rfl rfl rfl htime id hpending
    · exact h.quiet rfl rfl rfl htime id hpending
  | rebuild p =>
    obtain ⟨b,snap,hp,hsnap,rfl⟩ := act_rebuild hact
    have honly := not_pending_of_claimed hc hp
    have hne := ne_clusters_of_claimed hc hp
    simp only [notes,hp,hsnap]
    have hlog : changes (log ++ [.built s.time snap]) = changes log :=
      (changes_append _ _).trans (List.append_nil _)
    refine ⟨fun hun => ?_,?_,?_,?_⟩
    · have hun' : Unchanged log s s.clusters := by
        intro t ht
        have hlt := hun t (by rw [hlog]; exact ht)
        dsimp only at hlt
        rwa [Function.update_of_ne hne.symm] at hlt
      obtain ⟨snap',hcurrent,hmem⟩ := h.held hun'
      exact ⟨snap',hcurrent,(Function.update_of_ne hne.symm _ _).trans hmem⟩
    · rintro b' (hb' | ⟨q,hq⟩) -
      · exact absurd (Or.inl hb') (honly b')
      · simp only [Function.update_apply] at hq
        split at hq
        · obtain rfl := Hand.rebuilt.inj hq
          dsimp only
          rw [Function.update_self,← hsnap]
          exact rebuild_eq _ _ _ _ _
        · exact absurd (Or.inr ⟨q,hq⟩) (honly b')
    · intro b'
      dsimp only
      rw [Function.update_apply]
      split
      · exact htime
      · exact (h.built b').trans htime
    · intro t ht
      rw [hlog] at ht
      exact Nat.lt_succ_of_lt (h.past t ht)
  | publish p =>
    have hpending := pending_of_act hc hact (by simp)
    obtain ⟨b,_,rfl⟩ := act_publish hact
    exact h.quiet rfl rfl rfl htime id hpending
  | poll =>
    have hpending := pending_of_act hc hact (by simp)
    obtain ⟨hs,⟨hnone,rfl⟩ | ⟨new,hnew,rfl⟩⟩ := act_poll hact
    · exact h.quiet (by rw [notes_poll_none hs hnone]; rfl) rfl rfl htime id hpending
    · refine h.quiet (by rw [notes_poll_swap hs hnew]; rfl) rfl rfl htime (fun _ hun => ?_) hpending
      -- the new snapshot has not been turned
      have hcurrent := h.pending new (Or.inl hnew) hun
      exact ⟨_,hcurrent,(map_turned_xUp (drawable_of_rebuild hcurrent)).symm⟩
  | release =>
    have hpending := pending_of_act hc hact (by simp)
    obtain ⟨old,_,rfl⟩ := act_release hact
    exact h.quiet rfl rfl rfl htime id hpending
  | draw direction =>
    have hpending := pending_of_act hc hact (by simp)
    obtain ⟨_,rfl⟩ := act_draw hact
    refine h.quiet rfl rfl rfl htime (fun hheld hun => ?_) hpending
    obtain ⟨snap,hcurrent,hmem⟩ := hheld hun
    refine ⟨snap,hcurrent,?_⟩
    dsimp only
    rw [Function.update_self,hmem]
    exact rotate_turned snap s.direction direction

omit [TickRate] in
theorem UpToDate.init : UpToDate srt State.init := by
  obtain ⟨snap,hrun,hsnap⟩ := rebuildClustersInto_isSnapshot srt Registry.new Vec.empty .netherlands
  have hnil : snap.toList = [] := by
    rw [List.eq_nil_iff_forall_not_mem]
    intro p hp
    obtain ⟨n,s,hs,-⟩ := (hsnap.mem_iff p.coordKey).mp ⟨p,hp,rfl⟩
    cases hs
  obtain rfl : snap = Vec.empty := Vec.ext hnil
  exact ⟨Vec.empty,hrun,rfl⟩

variable {as pre post : List Action}

theorem following_run (h : (machine srt).run as = some s) :
    Following srt ((machine srt).trace (notes srt) as) s := by
  refine Machine.run_induction (m := machine srt)
    (P := fun as s => Following srt ((machine srt).trace (notes srt) as) s) ?_ ?_ h
  · refine ⟨fun _ => UpToDate.init,?_,fun _ => le_rfl,fun t ht => by cases ht⟩
    rintro b (hb | ⟨p,hp⟩)
    · cases hb
    · cases hp
  · intro as s a s' hrun hs hstep
    rw [Machine.trace_concat _ hrun]
    exact hs.step (conserved_run hrun) hstep

/-! ### A quiet time -/

/-- Whether an action changes the registry or the mode. -/
def Action.changes : Action → Bool
  | .update _ => true
  | .setMode _ => true
  | _ => false

/-- All that has been rebuilt since `start` was rebuilt without a change, and so was what the
display holds if it has adopted anything but `before`. -/
structure Quiet (start : ℕ) (before : List (ℕ × ClusterVec)) (log : List Note) (s : State) : Prop where
  pending : ∀ b, Pending s b → start ≤ s.builtAt b
  held : adoptions log = before ∨ start ≤ s.builtAt s.clusters
  started : start ≤ s.time
  changes : ∀ t ∈ changes log, t < start

variable {start : ℕ} {before : List (ℕ × ClusterVec)}

omit [TickRate] in
/-- An action that neither changes, rebuilds nor adopts anything. -/
theorem Quiet.quiet (h : Quiet start before log s) (hchanges : ClusterExchange.changes log' = [])
    (hadopt : adoptions log' = []) (hbuilt : s'.builtAt = s.builtAt) (hheld : s'.clusters = s.clusters)
    (htime : s.time ≤ s'.time) (hpending : ∀ b, Pending s' b → Pending s b ∧ s'.memory b = s.memory b) :
    Quiet start before (log ++ log') s' := by
  refine ⟨fun b hb => ?_,?_,h.started.trans htime,?_⟩
  · rw [hbuilt]
    exact h.pending b (hpending b hb).1
  · rw [adoptions_append,hadopt,List.append_nil,hbuilt,hheld]
    exact h.held
  · rw [changes_append,hchanges,List.append_nil]
    exact h.changes

theorem Quiet.step (hc : Conserved s.slots) (h : Quiet start before log s) (ha : a.changes = false)
    (hstep : step srt s a = some s') : Quiet start before (log ++ notes srt s a) s' := by
  obtain ⟨u,hact,rfl⟩ := Option.map_eq_some_iff.mp hstep
  have htime : s.time ≤ s.time + 1 := Nat.le_succ _
  cases a with
  | update e => cases ha
  | setMode mode => cases ha
  | claim p =>
    have hpending := pending_of_act hc hact (by simp)
    obtain ⟨_,⟨_,rfl⟩ | ⟨b,_,rfl⟩⟩ := act_claim hact
    · exact h.quiet rfl rfl rfl rfl htime hpending
    · exact h.quiet rfl rfl rfl rfl htime hpending
  | rebuild p =>
    obtain ⟨b,snap,hp,hsnap,rfl⟩ := act_rebuild hact
    have honly := not_pending_of_claimed hc hp
    have hne := ne_clusters_of_claimed hc hp
    simp only [notes,hp,hsnap]
    refine ⟨?_,?_,h.started.trans htime,?_⟩
    · rintro b' (hb' | ⟨q,hq⟩)
      · exact absurd (Or.inl hb') (honly b')
      · simp only [Function.update_apply] at hq
        split at hq
        · obtain rfl := Hand.rebuilt.inj hq
          dsimp only
          rw [Function.update_self]
          exact h.started
        · exact absurd (Or.inr ⟨q,hq⟩) (honly b')
    · rw [adoptions_append,show adoptions [.built s.time snap] = [] from rfl,List.append_nil]
      dsimp only
      rw [Function.update_of_ne hne.symm]
      exact h.held
    · rw [changes_append,show ClusterExchange.changes [.built s.time snap] = [] from rfl,
        List.append_nil]
      exact h.changes
  | publish p =>
    have hpending := pending_of_act hc hact (by simp)
    obtain ⟨b,_,rfl⟩ := act_publish hact
    exact h.quiet rfl rfl rfl rfl htime hpending
  | poll =>
    have hpending := pending_of_act hc hact (by simp)
    obtain ⟨hs,⟨hnone,rfl⟩ | ⟨new,hnew,rfl⟩⟩ := act_poll hact
    · exact h.quiet (by rw [notes_poll_none hs hnone]; rfl) (by rw [notes_poll_none hs hnone]; rfl) rfl
        rfl htime hpending
    · refine ⟨fun b hb => h.pending b (hpending b hb).1,Or.inr (h.pending new (Or.inl hnew)),
        h.started.trans htime,?_⟩
      rw [notes_poll_swap hs hnew,changes_append]
      simpa [ClusterExchange.changes] using h.changes
  | release =>
    have hpending := pending_of_act hc hact (by simp)
    obtain ⟨old,_,rfl⟩ := act_release hact
    exact h.quiet rfl rfl rfl rfl htime hpending
  | draw direction =>
    have hpending := pending_of_act hc hact (by simp)
    obtain ⟨_,rfl⟩ := act_draw hact
    exact h.quiet rfl rfl rfl rfl htime hpending

/-- A producer that gets a buffer begins a quiet time. -/
theorem Quiet.claim {p : Producer} (hrun : (machine srt).run (pre ++ [.claim p]) = some s)
    (hgot : s.hand p ≠ .empty) : ∃ start,
      Quiet start (adoptions ((machine srt).trace (notes srt) pre))
        ((machine srt).trace (notes srt) (pre ++ [.claim p])) s := by
  obtain ⟨s₀,hpre,hstep⟩ := Machine.run_concat_eq_some_iff.mp hrun
  have hc := conserved_run hrun
  have hpast := (following_run hpre).past
  rw [Machine.trace_concat _ hpre]
  obtain ⟨u,hact,rfl⟩ := Option.map_eq_some_iff.mp hstep
  obtain ⟨hp,⟨_,rfl⟩ | ⟨b,_,rfl⟩⟩ := act_claim hact
  · exact absurd hp hgot
  · have hnone := not_pending_of_claimed hc (p := p) (b := b) (Function.update_self _ _ _)
    refine ⟨s₀.time,fun b' hb' => absurd hb' (hnone b'),Or.inl ?_,Nat.le_succ _,?_⟩
    · rw [adoptions_append]
      exact List.append_nil _
    · rw [changes_append]
      simpa [notes,ClusterExchange.changes] using hpast

theorem quiet_run {p : Producer} {s₁ : State} (hclaim : (machine srt).run (pre ++ [.claim p]) = some s₁)
    (hgot : s₁.hand p ≠ .empty) (hquiet : ∀ a ∈ post, a.changes = false)
    (hrun : (machine srt).run (pre ++ [.claim p] ++ post) = some s) : ∃ start,
      Quiet start (adoptions ((machine srt).trace (notes srt) pre))
        ((machine srt).trace (notes srt) (pre ++ [.claim p] ++ post)) s := by
  obtain ⟨start,hstart⟩ := Quiet.claim hclaim hgot
  refine ⟨start,?_⟩
  induction post using List.reverseRecOn generalizing s with
  | nil =>
    rw [List.append_nil] at hrun ⊢
    rw [hclaim,Option.some.injEq] at hrun
    exact hrun ▸ hstart
  | append_singleton post a ih =>
    rw [← List.append_assoc] at hrun ⊢
    obtain ⟨t,ht,hstep⟩ := Machine.run_concat_eq_some_iff.mp hrun
    rw [Machine.trace_concat _ ht]
    exact (ih (fun b hb => hquiet b (List.mem_append_left _ hb)) ht).step (conserved_run ht)
      (hquiet a (List.mem_append_right _ (List.mem_singleton_self a))) hstep

/-- Whatever rounds were skipped before: once a producer has got a buffer, and nothing changes
from then on, every frame drawn after the first adoption shows the registry in its mode. -/
theorem catches_up {F C : Type} (fb : FrameBuffer F C) (old : F) {p : Producer} {s₁ : State}
    {dir : Direction} (hclaim : (machine srt).run (pre ++ [.claim p]) = some s₁)
    (hgot : s₁.hand p ≠ .empty) (hquiet : ∀ a ∈ post, a.changes = false)
    (hadopted : adoptions ((machine srt).trace (notes srt) (pre ++ [.claim p] ++ post)) ≠
      adoptions ((machine srt).trace (notes srt) pre))
    (hrun : (machine srt).run (pre ++ [.claim p] ++ post ++ [.draw dir]) = some s)
    (cfg : DisplayConfig) (t : ℕ) :
    ∃ d, Draws fb old cfg t (s.memory s.clusters) d ∧
      (∀ q, d.color (panelPoint dir q) = maskColor cfg t
        (maskOf (trainBit cfg.col) (s.registry.trainsAt (MapMode.current s.mode) (keyOf q)))) ∧
      ∀ p, d.color p ≠ black ↔ ∃ n row q, s.registry.get n = some row ∧
        displayKey (MapMode.current s.mode) row = some (keyOf q) ∧ p = panelPoint dir q := by
  obtain ⟨s₂,hbefore,hstep⟩ := Machine.run_concat_eq_some_iff.mp hrun
  obtain ⟨start,hstart⟩ := quiet_run hclaim hgot hquiet hbefore
  have hheld := hstart.held.resolve_left hadopted
  obtain ⟨snap,hcurrent,hmem⟩ := (following_run hbefore).held fun t ht =>
    (hstart.changes t ht).trans_le hheld
  obtain ⟨u,hact,rfl⟩ := Option.map_eq_some_iff.mp hstep
  obtain ⟨-,rfl⟩ := act_draw hact
  dsimp only
  rw [Function.update_self,hmem,rotate_turned snap s₂.direction dir]
  exact draws_snapshot fb old hcurrent dir cfg t

omit [TickRate] in
/-- After the change of mode the mode task gets a buffer, and train 7 is drawn where the new
mode has it. -/
theorem catches_up_twoSnapshots : letI := microTicks
    ∃ (s : State) (d : Drawing),
      (machine mergeSortByKey).run (twoSnapshots ++ [.release,.draw .yDown]) = some s ∧
      Draws sevenPlanes (fun _ => black) .default 0 (s.memory s.clusters) d ∧
      d.color (panelPoint .yDown (38,27)) ≠ black := by
  let _ := microTicks
  have hsome : ((machine mergeSortByKey).run (twoSnapshots ++ [.release,.draw .yDown])).any
      fun s => ((s.registry.get 7).bind (displayKey (MapMode.current s.mode))) =
        some (keyOf (38,27)) := by
    decide +kernel
  obtain ⟨s,hs,hrow⟩ := Option.any_eq_true _ _ |>.mp hsome
  have hclaimed : ((machine mergeSortByKey).run (twoSnapshots.take 9 ++ [.claim .mapMode])).any
      fun s => decide (s.hand .mapMode ≠ .empty) := by
    decide +kernel
  obtain ⟨s₁,hs₁,hgot⟩ := Option.any_eq_true _ _ |>.mp hclaimed
  have hadopted : (adoptions ((machine mergeSortByKey).trace (notes mergeSortByKey)
      (twoSnapshots ++ [.release]))).length ≠
      (adoptions
        ((machine mergeSortByKey).trace (notes mergeSortByKey) (twoSnapshots.take 9))).length := by
    decide +kernel
  have hquiet : ∀ a ∈ twoSnapshots.drop 10 ++ [.release], a.changes = false := by decide
  obtain ⟨d,hdraws,-,hlit⟩ := catches_up sevenPlanes (fun _ => black) hs₁ (of_decide_eq_true hgot)
    hquiet (fun h => hadopted (congrArg List.length h)) hs .default 0
  obtain ⟨row,hget,hkey⟩ := Option.bind_eq_some_iff.mp (of_decide_eq_true hrow)
  exact ⟨s,d,hs,hdraws,(hlit _).mpr ⟨7,row,(38,27),hget,hkey,rfl⟩⟩

/-! ### No snapshot is lost -/

/-- What is rebuilt has been adopted, or is the one that is pending. -/
structure InFlight (log : List Note) (s : State) : Prop where
  pending : ∀ b, Pending s b → builds log = adoptions log ++ [(s.builtAt b,s.memory b)]
  idle : (∀ b, ¬ Pending s b) → builds log = adoptions log

omit [TickRate] in
/-- An action that neither rebuilds nor adopts. -/
theorem InFlight.quiet (h : InFlight log s) (hbuilds : builds log' = []) (hadopt : adoptions log' = [])
    (hbuilt : s'.builtAt = s.builtAt)
    (hpending : ∀ b, Pending s' b → Pending s b ∧ s'.memory b = s.memory b)
    (hkept : ∀ b, Pending s b → Pending s' b) : InFlight (log ++ log') s' := by
  refine ⟨fun b hb => ?_,fun hnone => ?_⟩
  · obtain ⟨hpend,hmem⟩ := hpending b hb
    rw [builds_append,hbuilds,List.append_nil,adoptions_append,hadopt,List.append_nil,hbuilt,hmem]
    exact h.pending b hpend
  · rw [builds_append,hbuilds,List.append_nil,adoptions_append,hadopt,List.append_nil]
    exact h.idle fun b hb => hnone b (hkept b hb)

theorem InFlight.step (hc : Conserved s.slots) (h : InFlight log s) (hstep : step srt s a = some s') :
    InFlight (log ++ notes srt s a) s' := by
  obtain ⟨u,hact,rfl⟩ := Option.map_eq_some_iff.mp hstep
  cases a with
  | update e =>
    cases hact
    exact h.quiet rfl rfl rfl (fun b hb => ⟨hb,rfl⟩) fun b hb => hb
  | setMode mode =>
    cases hact
    exact h.quiet rfl rfl rfl (fun b hb => ⟨hb,rfl⟩) fun b hb => hb
  | claim p =>
    have hpending := pending_of_act hc hact (by simp)
    obtain ⟨hp,⟨_,rfl⟩ | ⟨b,_,rfl⟩⟩ := act_claim hact
    · exact h.quiet rfl rfl rfl hpending fun b hb => hb
    · refine h.quiet rfl rfl rfl hpending fun b' hb' => hb'.imp_right fun ⟨q,hq⟩ => ⟨q,?_⟩
      have hqp : q ≠ p := by
        rintro rfl
        rw [hp] at hq
        cases hq
      exact (Function.update_of_ne hqp _ _).trans hq
  | rebuild p =>
    obtain ⟨b,snap,hp,hsnap,rfl⟩ := act_rebuild hact
    have honly := not_pending_of_claimed hc hp
    have hidle := h.idle honly
    simp only [notes,hp,hsnap]
    refine ⟨?_,fun hnone => absurd (Or.inr ⟨p,Function.update_self _ _ _⟩) (hnone b)⟩
    rintro b' (hb' | ⟨q,hq⟩)
    · exact absurd (Or.inl hb') (honly b')
    · simp only [Function.update_apply] at hq
      split at hq
      · obtain rfl := Hand.rebuilt.inj hq
        rw [builds_append,adoptions_append,hidle]
        simp [builds,adoptions]
      · exact absurd (Or.inr ⟨q,hq⟩) (honly b')
  | publish p =>
    have hpending := pending_of_act hc hact (by simp)
    obtain ⟨b,hp,rfl⟩ := act_publish hact
    refine h.quiet rfl rfl rfl hpending fun b' hb' => Or.inl ?_
    -- no other producer has a buffer
    obtain hb' | ⟨q,hq⟩ := hb'
    · exact absurd hp (not_rebuilt_of_fresh hc hb' p b)
    · obtain rfl := Place.hand.inj (place_unique hc (slots_hand_isSome (p := p) (by simp [hp]))
        (slots_hand_isSome (p := q) (by simp [hq])) (by simp) (by simp))
      rw [hp] at hq
      exact congrArg some (Hand.rebuilt.inj hq)
  | poll =>
    have hpending := pending_of_act hc hact (by simp)
    obtain ⟨hs,⟨hnone,rfl⟩ | ⟨new,hnew,rfl⟩⟩ := act_poll hact
    · rw [notes_poll_none hs hnone]
      exact h.quiet rfl rfl rfl hpending fun b hb => hb
    · have hadopt : builds (log ++ notes srt s .poll) = adoptions (log ++ notes srt s .poll) := by
        rw [notes_poll_swap hs hnew,builds_append,adoptions_append,h.pending new (Or.inl hnew)]
        simp [builds,adoptions]
      refine ⟨fun b hb => ?_,fun _ => hadopt⟩
      obtain hb | ⟨q,hq⟩ := hb
      · cases hb
      · exact absurd hq (not_rebuilt_of_fresh hc hnew q b)
  | release =>
    obtain ⟨old,_,rfl⟩ := act_release hact
    exact h.quiet rfl rfl rfl (fun b hb => ⟨hb,rfl⟩) fun b hb => hb
  | draw direction =>
    have hpending := pending_of_act hc hact (by simp)
    obtain ⟨_,rfl⟩ := act_draw hact
    exact h.quiet rfl rfl rfl hpending fun b hb => hb

theorem inFlight_run (h : (machine srt).run as = some s) :
    InFlight ((machine srt).trace (notes srt) as) s := by
  refine Machine.run_induction (m := machine srt)
    (P := fun as s => InFlight ((machine srt).trace (notes srt) as) s) ?_ ?_ h
  · refine ⟨?_,fun _ => rfl⟩
    rintro b (hb | ⟨p,hp⟩)
    · cases hb
    · cases hp
  · intro as s a s' hrun hs hstep
    rw [Machine.trace_concat _ hrun]
    exact hs.step (conserved_run hrun) hstep

/-- In any run every snapshot that is rebuilt is adopted exactly once, unchanged and in the
order of the rebuilds; only the last one may still be on its way. -/
theorem adopted_run (h : (machine srt).run as = some s) :
    ∃ pending, builds ((machine srt).trace (notes srt) as) =
        adoptions ((machine srt).trace (notes srt) as) ++ pending ∧ pending.length ≤ 1 ∧
      (pending = [] ↔ ∀ b, ¬ Pending s b) := by
  have hinv := inFlight_run h
  by_cases hnone : ∀ b, ¬ Pending s b
  · exact ⟨[],(hinv.idle hnone).trans (List.append_nil _).symm,Nat.zero_le _,iff_of_true rfl hnone⟩
  · obtain ⟨b,hb⟩ := not_forall_not.mp hnone
    exact ⟨_,hinv.pending b hb,le_rfl,iff_of_false (List.cons_ne_nil _ _) hnone⟩

omit [TickRate] in
theorem adopted_run_twoSnapshots : letI := microTicks
    ∃ (s : State) (pending : List (ℕ × ClusterVec)),
      (machine mergeSortByKey).run twoSnapshots = some s ∧
      builds ((machine mergeSortByKey).trace (notes mergeSortByKey) twoSnapshots) =
        adoptions ((machine mergeSortByKey).trace (notes mergeSortByKey) twoSnapshots) ++ pending := by
  let _ := microTicks
  have hsome : ((machine mergeSortByKey).run twoSnapshots).isSome = true := by decide +kernel
  obtain ⟨s,hs⟩ := Option.isSome_iff_exists.mp hsome
  obtain ⟨pending,hbuilds,-⟩ := adopted_run hs
  exact ⟨s,pending,hs,hbuilds⟩

end NsPixels.ClusterExchange
