import NsPixels.FrameBufferExchange

/-!
# From the renderer to the panel

The frames that the renderer draws, as if it were alone, and the frames that the driver
transfers. The signals forget, but the exchange of the buffers does not.
-/

namespace NsPixels.FrameBufferExchange

open Tokens

variable {F : Type*}

/-- The renderer by itself: the frame in its hands and those it has finished. -/
structure Drawn (F : Type*) where
  current : F
  finished : List F

def Drawn.next (blank : F) (d : Drawn F) : Action F → Drawn F
  | .erase => { d with current := blank }
  | .draw pixels => { d with current := pixels d.current }
  | .signal => { d with finished := d.finished ++ [d.current] }
  | _ => d

def drawn (blank : F) (as : List (Action F)) : Drawn F := as.foldl (Drawn.next blank) ⟨blank,[]⟩

/-- The frames that a run has finished. -/
def frames (blank : F) (as : List (Action F)) : List F := (drawn blank as).finished

theorem drawn_concat (blank : F) (as : List (Action F)) (a : Action F) :
    drawn blank (as ++ [a]) = (drawn blank as).next blank a := List.foldl_concat _ _ _ _

/-- The frame of which an action starts a transfer. -/
def transfer (s : State F) : Action F → List F
  | .render => [s.memory s.dma.buffer]
  | _ => []

/-- The transfers of a run. -/
def transfers (blank : F) (as : List (Action F)) : List F := (machine blank).trace transfer as

def Action.ofRenderer : Action F → Bool
  | .erase => true
  | .draw _ => true
  | .signal => true
  | .wake => true
  | _ => false

/-- The driver is at an await that suspends it. -/
def Dma.awaits : Dma → Bool
  | .starting _ => true
  | .blocked _ => true
  | .scanning _ => true
  | _ => false

/-- The driver is not interrupted by the renderer between two of its awaits. -/
def Prompt (blank : F) (as : List (Action F)) : Prop :=
  (machine blank).Always (fun s a _ => (!a.ofRenderer || s.dma.awaits) = true) as

/-- Frames with how often each was transferred, as a list of transfers. -/
def repeated (taken : List (F × ℕ)) : List F := taken.flatMap fun p => List.replicate p.2 p.1

theorem repeated_append (l m : List (F × ℕ)) : repeated (l ++ m) = repeated l ++ repeated m :=
  List.flatMap_append

theorem repeated_succ (l : List (F × ℕ)) (f : F) (n : ℕ) :
    repeated (l ++ [(f,n + 1)]) = repeated (l ++ [(f,n)]) ++ [f] := by
  simp only [repeated_append,List.append_assoc]
  congr 1
  simp [repeated,List.replicate_succ']

/-! ### What the driver has -/

/-- The last of the frames taken is in the driver's buffer, and has been transferred unless
the driver is about to do so and nothing else is pending. -/
def Dma.Holds (memory : Buffer → F) (rx : Option Buffer) (taken : List (F × ℕ)) (dma : Dma) : Prop :=
  match dma with
  | .starting _ => taken = []
  | .polling fb => ∃ init n, taken = init ++ [(memory fb,n)] ∧ (0 < n ∨ rx = none)
  | .ready fb => ∃ init n, taken = init ++ [(memory fb,n)] ∧ (0 < n ∨ rx = none)
  | d => ∃ init n, taken = init ++ [(memory d.buffer,n)] ∧ 0 < n

/-- What the driver has at an await stays so while the renderer runs. -/
theorem Dma.Holds.of_awaits {memory memory' : Buffer → F} {rx rx' : Option Buffer}
    {taken : List (F × ℕ)} {dma : Dma} (h : dma.Holds memory rx taken) (hdma : dma.awaits = true)
    (hmemory : memory' dma.buffer = memory dma.buffer) : dma.Holds memory' rx' taken := by
  cases dma with
  | starting fb => exact h
  | polling fb | exchanging fb | ready fb => cases hdma
  | blocked fb | scanning fb =>
    obtain ⟨init,n,rfl,hn⟩ := h
    exact ⟨init,n,by rw [hmemory],hn⟩

variable {blank : F} {as : List (Action F)} {s s' : State F} {a : Action F}
  {taken : List (F × ℕ)}

/-- `taken` is what the driver has taken so far. -/
structure Relayed (blank : F) (as : List (Action F)) (s : State F) (taken : List (F × ℕ)) : Prop where
  current : ∀ fb, s.renderer = .drawing fb → s.memory fb = (drawn blank as).current
  finished : frames blank as = taken.map Prod.fst ++ (s.rx.map s.memory).toList
  sent : transfers blank as = repeated taken
  once : ∀ p ∈ taken.dropLast, 0 < p.2
  holds : s.dma.Holds s.memory s.rx taken

/-- The buffer the renderer writes into is neither the driver's nor pending. -/
theorem apart_of_buffer (h : Conserved s.slots) {fb : Buffer} (hfb : s.renderer.buffer = some fb) :
    s.dma.buffer ≠ fb ∧ s.rx = none := by
  refine ⟨?_,slots_eq_none h (p := .renderer) (q := .rx) (by rw [State.slots,hfb]; rfl)
    (by simp) (by simp) (by simp)⟩
  rintro rfl
  have hplace : Place.renderer = .dma := h.eq_of_eq_some (t := s.dma.buffer) hfb rfl
  cases hplace

/-! ### Steps -/

/-- A write of the renderer. -/
theorem Relayed.write (h : Relayed blank as s taken) (hc : Conserved s.slots)
    (hawaits : s.dma.awaits = true) {fb : Buffer} (hfb : s.renderer.buffer = some fb) {f : F}
    (hdrawn : drawn blank (as ++ [a]) = { drawn blank as with current := f })
    (htransfers : transfers blank (as ++ [a]) = transfers blank as) :
    Relayed blank (as ++ [a])
      { s with memory := Function.update s.memory fb f, renderer := .drawing fb } taken := by
  obtain ⟨hdma,hrx⟩ := apart_of_buffer hc hfb
  refine ⟨?_,?_,htransfers.trans h.sent,h.once,?_⟩
  · rintro fb' hfb'
    obtain rfl := Renderer.drawing.inj hfb'
    rw [hdrawn]
    exact Function.update_self _ _ _
  · have hframes := h.finished
    rw [frames] at hframes ⊢
    rw [hdrawn,hframes,hrx]
    rfl
  · exact h.holds.of_awaits hawaits (Function.update_of_ne hdma _ _)

/-- The driver takes the pending frame. -/
theorem Relayed.swap (h : Relayed blank as s taken) (hdrawn : drawn blank (as ++ [a]) = drawn blank as)
    (htransfers : transfers blank (as ++ [a]) = transfers blank as) {new : Buffer} {d : Dma}
    (hnew : s.rx = some new) (hd : d = .ready new ∨ d = .polling new)
    (hlast : taken = [] ∨ ∃ init f n, taken = init ++ [(f,n)] ∧ 0 < n) :
    Relayed blank (as ++ [a]) (s.swap s.dma.buffer d) (taken ++ [(s.memory new,0)]) := by
  refine ⟨fun fb hfb => ?_,?_,?_,?_,?_⟩
  · rw [hdrawn]
    exact h.current fb hfb
  · rw [frames,hdrawn,← frames,h.finished,hnew]
    simp [State.swap]
  · rw [htransfers,h.sent,repeated_append]
    simp [repeated]
  · rw [List.dropLast_concat]
    obtain rfl | ⟨init,f,n,rfl,hn⟩ := hlast
    · exact fun p hp => absurd hp List.not_mem_nil
    · intro p hp
      have honce := h.once
      rw [List.dropLast_concat] at honce
      obtain hp | hp := List.mem_append.mp hp
      · exact honce p hp
      · rw [List.mem_singleton.mp hp]
        exact hn
  · obtain rfl | rfl := hd
    · exact ⟨taken,0,rfl,.inr rfl⟩
    · exact ⟨taken,0,rfl,.inr rfl⟩

/-- The driver goes on without an exchange. -/
theorem Relayed.drive (h : Relayed blank as s taken) (hdrawn : drawn blank (as ++ [a]) = drawn blank as)
    (htransfers : transfers blank (as ++ [a]) = transfers blank as) {d : Dma}
    (hholds : d.Holds s.memory s.rx taken) :
    Relayed blank (as ++ [a]) { s with dma := d } taken := by
  refine ⟨fun fb hfb => ?_,?_,htransfers.trans h.sent,h.once,hholds⟩
  · rw [hdrawn]
    exact h.current fb hfb
  · rw [frames,hdrawn,← frames]
    exact h.finished

/-- The driver starts a transfer. -/
theorem Relayed.render (h : Relayed blank as s taken) {fb : Buffer} (hfb : s.dma = .ready fb)
    (htransfers : transfers blank (as ++ [.render]) = transfers blank as ++ [s.memory fb]) :
    ∃ taken', Relayed blank (as ++ [.render]) { s with dma := .scanning fb } taken' := by
  have hholds := h.holds
  rw [hfb] at hholds
  obtain ⟨init,n,rfl,-⟩ := hholds
  have hdrawn : drawn blank (as ++ [.render]) = drawn blank as := drawn_concat blank as .render
  refine ⟨init ++ [(s.memory fb,n + 1)],fun fb' hfb' => ?_,?_,?_,?_,init,n + 1,rfl,Nat.succ_pos n⟩
  · rw [hdrawn]
    exact h.current fb' hfb'
  · rw [frames,hdrawn,← frames,h.finished,List.map_append,List.map_append]
    rfl
  · rw [htransfers,h.sent,repeated_succ]
  · have honce := h.once
    rw [List.dropLast_concat] at honce ⊢
    exact honce

theorem Relayed.step (hc : Conserved s.slots) (h : Relayed blank as s taken)
    (hrun : (machine blank).run as = some s) (hprompt : Prompt blank (as ++ [a]))
    (hstep : step blank s a = some s') : ∃ taken', Relayed blank (as ++ [a]) s' taken' := by
  have htransfers : transfers blank (as ++ [a]) = transfers blank as ++ transfer s a :=
    Machine.trace_concat _ hrun
  have hdrawn := drawn_concat blank as a
  have hawaits := hprompt.last hrun hstep
  cases a with
  | erase =>
    obtain ⟨fb,hfb,rfl⟩ := step_erase hstep
    exact ⟨taken,h.write hc hawaits (by rw [hfb]; rfl) hdrawn
      (htransfers.trans (List.append_nil _))⟩
  | draw pixels =>
    obtain ⟨fb,hfb,rfl⟩ := step_draw hstep
    rw [Drawn.next,← h.current fb hfb] at hdrawn
    have hwrite := h.write hc hawaits (by rw [hfb]; rfl) hdrawn
      (htransfers.trans (List.append_nil _))
    rw [← hfb] at hwrite
    exact ⟨taken,hwrite⟩
  | signal =>
    obtain ⟨fb,hfb,rfl⟩ := step_signal hstep
    obtain ⟨-,hrx⟩ := apart_of_buffer hc (show s.renderer.buffer = some fb by rw [hfb]; rfl)
    refine ⟨taken,by simp,?_,htransfers.trans ((List.append_nil _).trans h.sent),h.once,
      h.holds.of_awaits hawaits rfl⟩
    have hfinished := h.finished
    rw [hrx,Option.map_none,Option.toList_none,List.append_nil] at hfinished
    rw [frames,hdrawn,Drawn.next,← frames,hfinished,← h.current fb hfb]
    rfl
  | wake =>
    obtain ⟨new,hr,hnew,rfl⟩ := step_wake hstep
    refine ⟨taken,by simp,?_,htransfers.trans ((List.append_nil _).trans h.sent),h.once,
      h.holds.of_awaits hawaits rfl⟩
    rw [frames,hdrawn]
    exact h.finished
  | handOff =>
    obtain ⟨fb,new,hfb,hnew,rfl⟩ := step_handOff hstep
    have hswap := h.swap hdrawn (htransfers.trans (List.append_nil _)) hnew (.inr rfl)
      (.inl (by simpa [hfb,Dma.Holds] using h.holds))
    rw [hfb] at hswap
    exact ⟨_,hswap⟩
  | check =>
    obtain ⟨fb,hfb,rfl⟩ := step_check hstep
    have hholds := h.holds
    rw [hfb] at hholds
    obtain ⟨init,n,htaken,hn⟩ := hholds
    refine ⟨taken,h.drive hdrawn (htransfers.trans (List.append_nil _)) ?_⟩
    split
    · next hrx =>
      refine ⟨init,n,htaken,hn.resolve_right fun hnone => ?_⟩
      rw [hnone] at hrx
      cases hrx
    · exact ⟨init,n,htaken,hn⟩
  | exchange =>
    obtain ⟨fb,hfb,⟨new,hnew,rfl⟩ | ⟨hnone,rfl⟩⟩ := step_exchange hstep
    · have hholds := h.holds
      rw [hfb] at hholds
      obtain ⟨init,n,htaken,hn⟩ := hholds
      have hswap := h.swap hdrawn (htransfers.trans (List.append_nil _)) hnew (.inl rfl)
        (.inr ⟨init,_,n,htaken,hn⟩)
      rw [hfb] at hswap
      exact ⟨_,hswap⟩
    · have hholds := h.holds
      rw [hfb] at hholds
      exact ⟨taken,h.drive hdrawn (htransfers.trans (List.append_nil _)) hholds⟩
  | unblock =>
    obtain ⟨fb,new,hfb,hnew,rfl⟩ := step_unblock hstep
    have hholds := h.holds
    rw [hfb] at hholds
    obtain ⟨init,n,htaken,hn⟩ := hholds
    have hswap := h.swap hdrawn (htransfers.trans (List.append_nil _)) hnew (.inl rfl)
      (.inr ⟨init,_,n,htaken,hn⟩)
    rw [hfb] at hswap
    exact ⟨_,hswap⟩
  | render =>
    obtain ⟨fb,hfb,rfl⟩ := step_render hstep
    apply h.render hfb
    rw [htransfers,transfer,hfb]
    rfl
  | transferred ok =>
    obtain ⟨fb,hfb,rfl⟩ := step_transferred hstep
    have hholds := h.holds
    rw [hfb] at hholds
    obtain ⟨init,n,htaken,hn⟩ := hholds
    exact ⟨taken,h.drive hdrawn (htransfers.trans (List.append_nil _)) ⟨init,n,htaken,.inl hn⟩⟩

/-! ### Runs -/

theorem relayed_run (h : (machine blank).run as = some s) (hprompt : Prompt blank as) :
    ∃ taken, Relayed blank as s taken := by
  refine Machine.run_induction (m := machine blank)
    (P := fun as s => Prompt blank as → ∃ taken, Relayed blank as s taken) ?_ ?_ h hprompt
  · intro _
    exact ⟨[],by simp [machine,State.init],rfl,rfl,by simp,rfl⟩
  · intro as s a s' hrun ih hstep hprompt
    obtain ⟨taken,htaken⟩ := ih hprompt.of_append
    exact htaken.step (conserved_run hrun) hrun hprompt hstep

/-- Only one frame at a time waits for its first transfer. -/
theorem Relayed.newest (h : Relayed blank as s taken) : ∃ sent rest,
    frames blank as = sent.map Prod.fst ++ rest ∧ rest.length ≤ 1 ∧ transfers blank as = repeated sent ∧
      ∀ p ∈ sent, 0 < p.2 := by
  have hpending : (s.rx.map s.memory).toList.length ≤ 1 := by cases s.rx <;> simp
  have hcases : taken = [] ∨ ∃ init f n, taken = init ++ [(f,n)] ∧ (0 < n ∨ s.rx = none) := by
    have hholds := h.holds
    cases hdma : s.dma with
    | starting fb =>
      rw [hdma] at hholds
      exact Or.inl hholds
    | polling fb | ready fb =>
      rw [hdma] at hholds
      obtain ⟨init,n,htaken,hn⟩ := hholds
      exact Or.inr ⟨init,_,n,htaken,hn⟩
    | exchanging fb | blocked fb | scanning fb =>
      rw [hdma] at hholds
      obtain ⟨init,n,htaken,hn⟩ := hholds
      exact Or.inr ⟨init,_,n,htaken,Or.inl hn⟩
  obtain rfl | ⟨init,f,n,rfl,hn⟩ := hcases
  · exact ⟨[],_,h.finished,hpending,h.sent,by simp⟩
  have honce := h.once
  rw [List.dropLast_concat] at honce
  rcases Nat.eq_zero_or_pos n with rfl | hpos
  · -- the frame that the driver has is the newest one
    have hnone := hn.resolve_left (Nat.lt_irrefl 0)
    refine ⟨init,[f],?_,Nat.le_refl 1,?_,honce⟩
    · rw [h.finished,hnone,List.map_append]
      simp
    · rw [h.sent,repeated_append]
      simp [repeated]
  · refine ⟨_,_,h.finished,hpending,h.sent,fun p hp => ?_⟩
    obtain hp | hp := List.mem_append.mp hp
    · exact honce p hp
    · rw [List.mem_singleton.mp hp]
      exact hpos

/-- Whatever the interleaving, the transfers are the frames that the renderer has drawn, in
the order drawn, each complete and at least once before the next; only the newest one may
still be pending or wait for its first transfer. -/
theorem transfers_run (h : (machine blank).run as = some s) (hprompt : Prompt blank as) :
    ∃ sent rest, frames blank as = sent.map Prod.fst ++ rest ∧ rest.length ≤ 1 ∧
      transfers blank as = repeated sent ∧ ∀ p ∈ sent, 0 < p.2 := by
  obtain ⟨taken,htaken⟩ := relayed_run h hprompt
  exact htaken.newest

/-- A transfer that fails is made again, then the second frame goes out. -/
theorem transfers_run_twoFrames : frames 0 twoFrames = [5,7] ∧ transfers 0 twoFrames = [5,5,7] ∧
    ∃ sent rest, frames 0 twoFrames = sent.map Prod.fst ++ rest ∧ rest.length ≤ 1 ∧
      transfers 0 twoFrames = repeated sent ∧ ∀ p ∈ sent, 0 < p.2 :=
  ⟨rfl,rfl,transfers_run (show (machine 0).run twoFrames = some _ from rfl)
    (Machine.always_of_trace (by decide))⟩

end NsPixels.FrameBufferExchange
