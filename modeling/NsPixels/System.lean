import NsPixels.ClusterExchange.Convergence
import NsPixels.Feed.Visible

/-!
# The system

The tasks that write the registry together with the circulation of its snapshots. Every
frame that the display draws is that of one moment of the run, and later frames are those
of later moments.
-/

namespace NsPixels.System

open FixedCap Registry Enrichment

abbrev State (ε : Type) := Enrichment.State ε × ClusterExchange.State

abbrev Action (ε : Type) := Enrichment.Action ε ⊕ ClusterExchange.Action

/-- What happens in the exchange beside the updates of the registry. -/
def own : ClusterExchange.Action → Bool
  | .update _ => false
  | _ => true

section Runs

variable [TickRate] {ε : Type} (json : NsApi.Json) (headers : List (String × String))
  (srt : UnstableSort)

/-- The operations of the two tasks are the updates of the registry that the producers read. -/
def machine : Machine (State ε) (Action ε) :=
  (Enrichment.machine json headers).feeding (ClusterExchange.machine srt)
    (fun s a => (events json headers s a).map .update) own

variable {json headers srt} {as bs earlier : List (Action ε)} {s s' : State ε} {a : Action ε}

/-- Updates pass the buffers by. -/
theorem runFrom_updates (s : ClusterExchange.State) (es : List Event) :
    (ClusterExchange.machine srt).runFrom s (es.map .update) =
      some { s with registry := s.registry.run es, time := s.time + es.length } := by
  induction es generalizing s with
  | nil => rfl
  | cons e es ih =>
    rw [List.map_cons,Machine.runFrom]
    apply (ih _).trans
    rw [run_cons,List.length_cons,Nat.add_comm es.length,← Nat.add_assoc]

/-- A step of a task, seen from the exchange. -/
theorem step_task {b : Enrichment.Action ε} (h : (machine json headers srt).step s (.inl b) = some s') :
    Enrichment.step json headers s.1 b = some s'.1 ∧ ∃ es : List Event, es = events json headers s.1 b ∧
      s'.2 = { s.2 with registry := s.2.registry.run es, time := s.2.time + es.length } := by
  obtain ⟨hstep,hrun⟩ := Machine.feeding_step_inl h
  rw [runFrom_updates,Option.some.injEq] at hrun
  exact ⟨hstep,_,rfl,hrun.symm⟩

theorem act_registry {t t' : ClusterExchange.State} {b : ClusterExchange.Action}
    (h : ClusterExchange.act srt t b = some t') (hown : own b = true) :
    t'.registry = t.registry := by
  cases b with
  | update e => cases hown
  | setMode mode =>
    cases h
    rfl
  | claim p =>
    obtain ⟨-,⟨-,rfl⟩ | ⟨_,-,rfl⟩⟩ := ClusterExchange.act_claim h
    · rfl
    · rfl
  | rebuild p =>
    obtain ⟨_,_,-,-,rfl⟩ := ClusterExchange.act_rebuild h
    rfl
  | publish p =>
    obtain ⟨_,-,rfl⟩ := ClusterExchange.act_publish h
    rfl
  | poll =>
    obtain ⟨-,⟨-,rfl⟩ | ⟨_,-,rfl⟩⟩ := ClusterExchange.act_poll h
    · rfl
    · rfl
  | release =>
    obtain ⟨_,-,rfl⟩ := ClusterExchange.act_release h
    rfl
  | draw direction =>
    obtain ⟨-,rfl⟩ := ClusterExchange.act_draw h
    rfl

/-- A step of the exchange leaves the tasks alone and the registry as it is. -/
theorem step_exchange {b : ClusterExchange.Action}
    (h : (machine json headers srt).step s (.inr b) = some s') :
    s'.1 = s.1 ∧ s'.2.registry = s.2.registry ∧ ∃ t, ClusterExchange.act srt s.2 b = some t ∧
      s'.2 = { t with time := s.2.time + 1 } := by
  obtain ⟨hown,htasks,hstep⟩ := Machine.feeding_step_inr h
  obtain ⟨t,hact,ht⟩ := Option.map_eq_some_iff.mp hstep
  have hregistry := act_registry hact hown
  refine ⟨htasks,?_,t,hact,ht.symm⟩
  rw [← ht]
  exact hregistry

/-! ### One registry, one clock of rebuilds -/

/-- The producers read the registry that the tasks write. -/
theorem registry_run (h : (machine json headers srt).run as = some s) :
    s.2.registry = s.1.registry := by
  refine Machine.invariant (P := fun s : State ε => s.2.registry = s.1.registry) rfl ?_ h
  rintro s (b | b) s' hs hstep
  · obtain ⟨htask,es,rfl,hexchange⟩ := step_task hstep
    rw [hexchange,step_registry htask,← hs]
  · obtain ⟨htasks,hregistry,-⟩ := step_exchange hstep
    rw [hregistry,hs,htasks]

theorem tasks_run (h : (machine json headers srt).run as = some s) :
    (Enrichment.machine json headers).run (Machine.lefts as) = some s.1 := Machine.run_lefts h

theorem time_le_step (h : (machine json headers srt).step s a = some s') : s.2.time ≤ s'.2.time := by
  obtain b | b := a
  · obtain ⟨-,es,-,hexchange⟩ := step_task h
    rw [hexchange]
    exact Nat.le_add_right _ _
  · obtain ⟨-,-,t,-,ht⟩ := step_exchange h
    rw [ht]
    exact Nat.le_succ _

theorem time_le_run (h : (machine json headers srt).run as = some s)
    (h' : (machine json headers srt).run (as ++ bs) = some s') : s.2.time ≤ s'.2.time := by
  induction bs using List.reverseRecOn generalizing s' with
  | nil =>
    rw [List.append_nil,h,Option.some.injEq] at h'
    rw [h']
  | append_singleton bs b ih =>
    rw [← List.append_assoc] at h'
    obtain ⟨t,ht,hstep⟩ := Machine.run_concat_eq_some_iff.mp h'
    exact (ih ht).trans (time_le_step hstep)

/-- Before anything happens in the exchange no producer has a buffer. -/
theorem time_pos_of_hand (h : (machine json headers srt).run as = some s) {p : ClusterExchange.Producer}
    (hp : s.2.hand p ≠ .empty) : 0 < s.2.time := by
  have hinv : 0 < s.2.time ∨ s.2.hand = fun _ => .empty := by
    refine Machine.invariant (P := fun s : State ε => 0 < s.2.time ∨ s.2.hand = fun _ => .empty)
      (Or.inr rfl) ?_ h
    rintro s (b | b) s' hs hstep
    · obtain ⟨-,es,-,hexchange⟩ := step_task hstep
      rw [hexchange]
      exact hs.imp_left fun hpos => Nat.add_pos_left hpos _
    · obtain ⟨-,-,t,-,ht⟩ := step_exchange hstep
      rw [ht]
      exact Or.inl (Nat.succ_pos _)
  exact hinv.resolve_right fun hempty => hp (congrFun hempty p)

/-! ### Moments -/

/-- A moment of the run at which a producer begins a rebuild, or the boot. -/
def Marks (earlier as : List (Action ε)) : Prop :=
  earlier = [] ∨ ∃ p, earlier ++ [.inr (.rebuild p)] <+: as

omit [TickRate] in
theorem Marks.isPrefix (h : Marks earlier as) : earlier <+: as := by
  obtain rfl | ⟨p,hp⟩ := h
  · exact List.nil_prefix
  · exact (List.prefix_append _ _).trans hp

omit [TickRate] in
/-- A frame that is drawn marks no moment. -/
theorem Marks.before_draw {dir : Direction} (h : Marks earlier (as ++ [.inr (.draw dir)])) :
    Marks earlier as := by
  refine h.imp_right fun ⟨p,hp⟩ => ⟨p,?_⟩
  obtain heq | hp := List.prefix_concat_iff.mp hp
  · have hlast := (List.append_inj' heq rfl).2
    simp at hlast
  · exact hp

omit [TickRate] in
theorem Marks.append (h : Marks earlier as) (bs : List (Action ε)) : Marks earlier (as ++ bs) :=
  h.imp_right fun ⟨p,hp⟩ => ⟨p,hp.trans (List.prefix_append _ _)⟩

/-- At a rebuild a producer has a buffer, and afterwards time has passed. -/
theorem rebuild_at {p : ClusterExchange.Producer} {t : State ε}
    (hrun : (machine json headers srt).run as = some s) (hp : earlier ++ [.inr (.rebuild p)] <+: as)
    (ht : (machine json headers srt).run earlier = some t) : 0 < t.2.time ∧
      ∃ u, (machine json headers srt).run (earlier ++ [.inr (.rebuild p)]) = some u ∧
        u.2.time = t.2.time + 1 := by
  obtain ⟨u,hu⟩ := Machine.exists_run_of_prefix hrun hp
  obtain ⟨t₀,ht₀,hstep⟩ := Machine.run_concat_eq_some_iff.mp hu
  rw [ht,Option.some.injEq] at ht₀
  subst ht₀
  obtain ⟨-,-,v,hact,hv⟩ := step_exchange hstep
  obtain ⟨b,_,hclaimed,-⟩ := ClusterExchange.act_rebuild hact
  refine ⟨time_pos_of_hand ht (p := p) ?_,u,hu,?_⟩
  · rw [hclaimed]
    simp
  · rw [hv]

/-- Of two moments the one with the earlier rebuild comes first. -/
theorem Marks.prefix_of_time_le {earlier' : List (Action ε)} {t t' : State ε} (h : Marks earlier as)
    (h' : Marks earlier' as) (hrun : (machine json headers srt).run as = some s)
    (ht : (machine json headers srt).run earlier = some t)
    (ht' : (machine json headers srt).run earlier' = some t') (hle : t.2.time ≤ t'.2.time) :
    earlier <+: earlier' := by
  obtain rfl | ⟨p,hp⟩ := h
  · exact List.nil_prefix
  obtain rfl | ⟨p',hp'⟩ := h'
  · have hpos := (rebuild_at hrun hp ht).1
    obtain rfl := Option.some.inj ht'
    exact absurd hle (Nat.not_le_of_lt hpos)
  obtain ⟨-,u,hu,htime⟩ := rebuild_at hrun hp' ht'
  -- `earlier` does not lie behind the rebuild at `earlier'`
  have hbefore : ¬ earlier' ++ [.inr (.rebuild p')] <+: earlier := by
    rintro ⟨rest,hrest⟩
    rw [← hrest] at ht
    have hlater := time_le_run hu ht
    omega
  obtain hpre | hpre := List.prefix_or_prefix_of_prefix hp' ((List.prefix_append _ _).trans hp)
  · exact absurd hpre hbefore
  · obtain heq | hpre := List.prefix_concat_iff.mp hpre
    · exact absurd (by rw [heq]) hbefore
    · exact hpre

/-- `snap` is the snapshot of a moment, with the rebuild that the exchange noted at `time`. -/
def FromMoment (json : NsApi.Json) (headers : List (String × String)) (srt : UnstableSort)
    (as : List (Action ε)) (time : ℕ) (snap : ClusterVec) : Prop :=
  ∃ earlier s, Marks earlier as ∧ (machine json headers srt).run earlier = some s ∧ s.2.time = time ∧
    ClusterExchange.current srt s.2 = some snap

theorem FromMoment.append {time : ℕ} {snap : ClusterVec} (h : FromMoment json headers srt as time snap)
    (bs : List (Action ε)) : FromMoment json headers srt (as ++ bs) time snap := by
  obtain ⟨earlier,t,hmarks,hrest⟩ := h
  exact ⟨earlier,t,hmarks.append bs,hrest⟩

/-- Every snapshot in the exchange is that of a moment, and the display has the oldest. -/
structure Moments (json : NsApi.Json) (headers : List (String × String)) (srt : UnstableSort)
    (as : List (Action ε)) (s : ClusterExchange.State) : Prop where
  held : ∃ snap, FromMoment json headers srt as (s.builtAt s.clusters) snap ∧
    s.memory s.clusters = snap.map (·.turned s.direction)
  pending : ∀ b, ClusterExchange.Pending s b →
    FromMoment json headers srt as (s.builtAt b) (s.memory b) ∧ s.builtAt s.clusters ≤ s.builtAt b

/-- A step that rebuilds and adopts nothing. -/
theorem Moments.quiet {t t' : ClusterExchange.State} (h : Moments json headers srt as t)
    (a : Action ε) (hbuilt : t'.builtAt = t.builtAt) (hclusters : t'.clusters = t.clusters)
    (hheld : ∀ snap : ClusterVec, t.memory t.clusters = snap.map (·.turned t.direction) →
      t'.memory t'.clusters = snap.map (·.turned t'.direction))
    (hpending : ∀ b, ClusterExchange.Pending t' b →
      ClusterExchange.Pending t b ∧ t'.memory b = t.memory b) :
    Moments json headers srt (as ++ [a]) t' ∧ t.builtAt t.clusters ≤ t'.builtAt t'.clusters := by
  refine ⟨⟨?_,fun b hb => ?_⟩,by rw [hbuilt,hclusters]⟩
  · obtain ⟨snap,hmoment,hmem⟩ := h.held
    rw [hbuilt,hclusters]
    exact ⟨snap,hmoment.append [a],hclusters ▸ hheld snap hmem⟩
  · obtain ⟨hpend,hmem⟩ := hpending b hb
    obtain ⟨hmoment,hle⟩ := h.pending b hpend
    rw [hbuilt,hmem,hclusters]
    exact ⟨hmoment.append [a],hle⟩

/-- The display never goes back to an earlier rebuild. -/
theorem Moments.step (hrun : (machine json headers srt).run as = some s)
    (h : Moments json headers srt as s.2) (hstep : (machine json headers srt).step s a = some s') :
    Moments json headers srt (as ++ [a]) s'.2 ∧
      s.2.builtAt s.2.clusters ≤ s'.2.builtAt s'.2.clusters := by
  obtain ⟨cs,hcs⟩ := Machine.exists_run_right hrun
  have hc := ClusterExchange.conserved_run hcs
  obtain b | b := a
  · obtain ⟨-,es,-,hexchange⟩ := step_task hstep
    rw [hexchange]
    exact h.quiet _ rfl rfl (fun _ hmem => hmem) fun b hb => ⟨hb,rfl⟩
  obtain ⟨-,-,t,hact,ht⟩ := step_exchange hstep
  rw [ht]
  cases b with
  | update e =>
    cases hact
    exact h.quiet _ rfl rfl (fun _ hmem => hmem) fun b hb => ⟨hb,rfl⟩
  | setMode mode =>
    cases hact
    exact h.quiet _ rfl rfl (fun _ hmem => hmem) fun b hb => ⟨hb,rfl⟩
  | claim p =>
    have hpending := ClusterExchange.pending_of_act hc hact (by simp)
    obtain ⟨-,⟨-,rfl⟩ | ⟨_,-,rfl⟩⟩ := ClusterExchange.act_claim hact
    · exact h.quiet _ rfl rfl (fun _ hmem => hmem) hpending
    · exact h.quiet _ rfl rfl (fun _ hmem => hmem) hpending
  | rebuild p =>
    obtain ⟨b,snap,hp,hsnap,rfl⟩ := ClusterExchange.act_rebuild hact
    have honly := ClusterExchange.not_pending_of_claimed hc hp
    have hne := ClusterExchange.ne_clusters_of_claimed hc hp
    have hmoment : FromMoment json headers srt (as ++ [.inr (.rebuild p)]) s.2.time snap :=
      ⟨as,s,Or.inr ⟨p,List.prefix_rfl⟩,hrun,rfl,
        (ClusterExchange.rebuild_eq srt _ _ _ _).trans hsnap⟩
    refine ⟨⟨?_,?_⟩,(Function.update_of_ne hne.symm _ _).ge⟩
    · obtain ⟨snap',hmoment',hmem⟩ := h.held
      dsimp only
      rw [Function.update_of_ne hne.symm,Function.update_of_ne hne.symm]
      exact ⟨snap',hmoment'.append _,hmem⟩
    · rintro b' (hb' | ⟨q,hq⟩)
      · exact absurd (Or.inl hb') (honly b')
      · simp only [Function.update_apply] at hq
        split at hq
        · obtain rfl := ClusterExchange.Hand.rebuilt.inj hq
          dsimp only
          rw [Function.update_self,Function.update_self,Function.update_of_ne hne.symm]
          exact ⟨hmoment,(ClusterExchange.following_run hcs).built _⟩
        · exact absurd (Or.inr ⟨q,hq⟩) (honly b')
  | publish p =>
    have hpending := ClusterExchange.pending_of_act hc hact (by simp)
    obtain ⟨_,-,rfl⟩ := ClusterExchange.act_publish hact
    exact h.quiet _ rfl rfl (fun _ hmem => hmem) hpending
  | poll =>
    have hpending := ClusterExchange.pending_of_act hc hact (by simp)
    obtain ⟨-,⟨-,rfl⟩ | ⟨new,hnew,rfl⟩⟩ := ClusterExchange.act_poll hact
    · exact h.quiet _ rfl rfl (fun _ hmem => hmem) hpending
    · -- the new snapshot has not been turned, and nothing else is pending
      obtain ⟨hmoment,hle⟩ := h.pending new (Or.inl hnew)
      obtain ⟨earlier,u,-,-,-,hcurrent⟩ := id hmoment
      refine ⟨⟨⟨_,hmoment.append _,(map_turned_xUp (drawable_of_rebuild hcurrent)).symm⟩,?_⟩,hle⟩
      rintro b' (hb' | ⟨q,hq⟩)
      · cases hb'
      · exact absurd hq (ClusterExchange.not_rebuilt_of_fresh hc hnew q b')
  | release =>
    have hpending := ClusterExchange.pending_of_act hc hact (by simp)
    obtain ⟨_,-,rfl⟩ := ClusterExchange.act_release hact
    exact h.quiet _ rfl rfl (fun _ hmem => hmem) hpending
  | draw direction =>
    have hpending := ClusterExchange.pending_of_act hc hact (by simp)
    obtain ⟨-,rfl⟩ := ClusterExchange.act_draw hact
    refine h.quiet _ rfl rfl (fun snap hmem => ?_) hpending
    dsimp only
    rw [Function.update_self,hmem]
    exact rotate_turned snap s.2.direction direction

theorem moments_run (h : (machine json headers srt).run as = some s) :
    Moments json headers srt as s.2 := by
  refine Machine.run_induction (m := machine json headers srt)
    (P := fun as s => Moments json headers srt as s.2) ?_
    (fun _ _ _ _ hrun hs hstep => (hs.step hrun hstep).1) h
  refine ⟨?_,?_⟩
  · obtain ⟨snap,hcurrent,hmem⟩ := (ClusterExchange.UpToDate.init : ClusterExchange.UpToDate srt _)
    exact ⟨snap,⟨[],_,Or.inl rfl,rfl,rfl,hcurrent⟩,hmem⟩
  · rintro b (hb | ⟨p,hp⟩)
    · cases hb
    · cases hp

theorem builtAt_le_run (h : (machine json headers srt).run as = some s)
    (h' : (machine json headers srt).run (as ++ bs) = some s') :
    s.2.builtAt s.2.clusters ≤ s'.2.builtAt s'.2.clusters := by
  induction bs using List.reverseRecOn generalizing s' with
  | nil =>
    rw [List.append_nil,h,Option.some.injEq] at h'
    rw [h']
  | append_singleton bs b ih =>
    rw [← List.append_assoc] at h'
    obtain ⟨t,ht,hstep⟩ := Machine.run_concat_eq_some_iff.mp h'
    exact (ih ht).trans ((moments_run ht).step ht hstep).2

/-! ### What the frames show -/

/-- A frame that is drawn turns the buffer of the display, and no other rebuild is adopted. -/
theorem draw_at {dir : Direction}
    (h : (machine json headers srt).run (as ++ [.inr (.draw dir)]) = some s) :
    ∃ t, (machine json headers srt).run as = some t ∧ s.2.direction = dir ∧
      s.2.builtAt s.2.clusters = t.2.builtAt t.2.clusters := by
  obtain ⟨t,ht,hstep⟩ := Machine.run_concat_eq_some_iff.mp h
  obtain ⟨-,-,u,hact,hu⟩ := step_exchange hstep
  obtain ⟨-,rfl⟩ := ClusterExchange.act_draw hact
  exact ⟨t,ht,by rw [hu],by rw [hu]⟩

variable {F C : Type} {fb : FrameBuffer F C}

/-- A frame drawn from `s` shows what had been told by the end of `earlier`: the color a cell is
set to is that of a mask with exactly the bits of what the API had last said of the trains of
the registry that were last reported there. -/
def Shows (json : NsApi.Json) (headers : List (String × String)) (srt : UnstableSort)
    (fb : FrameBuffer F C) (earlier : List (Action ε)) (s : State ε) : Prop :=
  ∃ s₀, (machine json headers srt).run earlier = some s₀ ∧ ∀ old cfg t, ∃ d,
    Draws fb old cfg t (s.2.memory s.2.clusters) d ∧
      ∀ q, ∃ m, d.color (panelPoint s.2.direction q) = maskColor cfg t m ∧ (m = 0 ∨ IsMask cfg.col m) ∧
        ∀ b ∈ maskBits cfg.col, m &&& b ≠ 0 ↔ ∃ n pixel now, (s₀.1.registry.get n).isSome ∧
          lastReport n ((Enrichment.machine json headers).trace reports (Machine.lefts earlier)) =
            some (pixel,now) ∧
          spot (MapMode.current s₀.2.mode) s.2.direction pixel = some (panelPoint s.2.direction q) ∧
          traitBit cfg.col (traitsOf n ((Enrichment.machine json headers).trace (notes json headers)
            (Machine.lefts earlier))) = b

theorem shows_of_current {snap : ClusterVec} {s₀ : State ε}
    (h₀ : (machine json headers srt).run earlier = some s₀)
    (hcurrent : ClusterExchange.current srt s₀.2 = some snap)
    (hmem : s.2.memory s.2.clusters = snap.map (·.turned s.2.direction)) :
    Shows json headers srt fb earlier s := by
  refine ⟨s₀,h₀,fun old cfg t => ?_⟩
  rw [ClusterExchange.current,registry_run h₀] at hcurrent
  obtain ⟨d,hdraws,hcells,-⟩ := draws_snapshot fb old hcurrent s.2.direction cfg t
  rw [hmem]
  exact ⟨d,hdraws,fun q => ⟨_,hcells q,maskOf_eq_zero_or _,
    fun b hb => bit_iff_told (tasks_run h₀) s.2.direction q hb⟩⟩

/-- Of any two frames that the display draws in a run of the system, each shows what had been
told by some moment before it, and the moment of the later frame is not before that of the
earlier one: no frame mixes two moments, and none goes back. -/
theorem shows_in_order {dir dir' : Direction}
    (h : (machine json headers srt).run (as ++ [.inr (.draw dir)]) = some s)
    (h' : (machine json headers srt).run (as ++ [.inr (.draw dir)] ++ bs ++ [.inr (.draw dir')]) =
      some s') :
    ∃ earlier earlier', earlier <+: as ∧ earlier' <+: as ++ [.inr (.draw dir)] ++ bs ∧
      earlier <+: earlier' ∧ s.2.direction = dir ∧ s'.2.direction = dir' ∧
      Shows json headers srt fb earlier s ∧ Shows json headers srt fb earlier' s' := by
  obtain ⟨snap,⟨earlier,u,hmarks,hu,htime,hcurrent⟩,hmem⟩ := (moments_run h).held
  obtain ⟨snap',⟨earlier',u',hmarks',hu',htime',hcurrent'⟩,hmem'⟩ := (moments_run h').held
  obtain ⟨-,-,hdir,-⟩ := draw_at h
  obtain ⟨-,-,hdir',-⟩ := draw_at h'
  have hle : u.2.time ≤ u'.2.time := by
    rw [htime,htime']
    rw [List.append_assoc] at h'
    exact builtAt_le_run h h'
  have hmarksAll : Marks earlier (as ++ [.inr (.draw dir)] ++ bs ++ [.inr (.draw dir')]) := by
    rw [List.append_assoc]
    exact hmarks.append _
  exact ⟨earlier,earlier',hmarks.before_draw.isPrefix,hmarks'.before_draw.isPrefix,
    hmarksAll.prefix_of_time_le hmarks' h' hu hu' hle,hdir,hdir',
    shows_of_current hu hcurrent hmem,shows_of_current hu' hcurrent' hmem'⟩

end Runs

/-- A message, and the snapshot that the feed publishes with it. -/
def firstPicture : List (Action Unit) :=
  [.inl (.receive [⟨7,⟨3,4⟩⟩]),.inr (.claim .feed),.inl .applyMessage,.inr (.rebuild .feed),
    .inr (.publish .feed),.inr .poll,.inr .release]

/-- The API says what the train is, and the snapshot after that is adopted. -/
def secondPicture : List (Action Unit) :=
  [.inl .drain,.inl (.openResource true),
    .inl (.answer (.ok ⟨200,.ok (NsApi.utf8 NsApi.sampleDocument.toList)⟩)),.inl .record,
    .inr (.claim .nsApi),.inr (.rebuild .nsApi),.inr (.publish .nsApi),.inr .poll,.inr .release]

theorem shows_in_order_pictures : letI := microTicks
    ∃ (s s' : State Unit) (earlier earlier' : List (Action Unit)),
      (machine NsApi.sampleJson [] mergeSortByKey).run (firstPicture ++ [.inr (.draw .xUp)]) = some s ∧
      (machine NsApi.sampleJson [] mergeSortByKey).run
        (firstPicture ++ [.inr (.draw .xUp)] ++ secondPicture ++ [.inr (.draw .yDown)]) = some s' ∧
      earlier <+: earlier' ∧ s'.2.direction = .yDown ∧
      Shows NsApi.sampleJson [] mergeSortByKey sevenPlanes earlier s ∧
      Shows NsApi.sampleJson [] mergeSortByKey sevenPlanes earlier' s' := by
  let _ := microTicks
  have hsome : ((machine NsApi.sampleJson [] mergeSortByKey).run
      (firstPicture ++ [.inr (.draw .xUp)])).isSome = true := by
    decide +kernel
  have hsome' : ((machine NsApi.sampleJson [] mergeSortByKey).run
      (firstPicture ++ [.inr (.draw .xUp)] ++ secondPicture ++
        [.inr (.draw .yDown)])).isSome = true := by
    decide +kernel
  obtain ⟨s,hs⟩ := Option.isSome_iff_exists.mp hsome
  obtain ⟨s',hs'⟩ := Option.isSome_iff_exists.mp hsome'
  obtain ⟨earlier,earlier',-,-,hpre,-,hdir',hshows,hshows'⟩ := shows_in_order hs hs'
  exact ⟨s,s',earlier,earlier',hs,hs',hpre,hdir',hshows,hshows'⟩

end NsPixels.System
