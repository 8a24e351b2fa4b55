import NsPixels.Decompress.Inflate

/-!
# Messages do not see each other

The decompressor is kept from message to message, and its output buffer starts out
uninitialized. Only what was written for the message at hand is ever read.
-/

namespace NsPixels.Decompress

open OffsetParser

variable {σ ε : Type} {inflate : Inflater σ ε} {reset : σ → σ} {Same : σ → σ → Prop}

/-- States in `Same` cannot be told apart by calls, whose answers do not depend on what
the output slice held before, and a reset forgets everything. -/
structure Forgetful (inflate : Inflater σ ε) (reset : σ → σ) (Same : σ → σ → Prop) : Prop where
  reset : ∀ s s', Same (reset s) (reset s')
  result : ∀ {s s'} input {out out'} flush, Same s s' → out.length = out'.length →
    (inflate s input out flush).1 = (inflate s' input out' flush).1
  state : ∀ {s s'} input {out out'} flush, Same s s' → out.length = out'.length →
    Same (inflate s input out flush).2.1 (inflate s' input out' flush).2.1
  wrote : ∀ {s s'} input {out out'} flush, Same s s' → out.length = out'.length →
    (inflate s input out flush).2.2.take (inflate s input out flush).1.bytesWritten =
      (inflate s' input out' flush).2.2.take (inflate s' input out' flush).1.bytesWritten

/-- Loop states with equal cursors and equal bytes written so far. -/
structure Alike (Same : σ → σ → Prop) (n : ℕ) (s s' : LoopState σ) : Prop where
  state : Same s.state s'.state
  input : s.input = s'.input
  written : s.written = s'.written
  length_buf : s.buf.length = n
  length_buf' : s'.buf.length = n
  within : s.written ≤ n
  wrote : s.buf.take s.written = s'.buf.take s'.written

variable {n : ℕ} {s s' : LoopState σ}

/-- The state of the loop behind a call with the results `res`, `state` and `out`. -/
def LoopState.behind (s : LoopState σ) (r : StreamResult ε × σ × List UInt8) : LoopState σ :=
  { state := r.2.1, buf := s.buf.take s.written ++ r.2.2, input := s.input.drop r.1.bytesConsumed,
    written := s.written + r.1.bytesWritten }

/-- The call itself. -/
def LoopState.callOf (s : LoopState σ) (flush : MZFlush) (r : StreamResult ε × σ × List UInt8) :
    Call ε :=
  { input := s.input, offset := s.written, flush := flush, result := r.1,
    chunk := r.2.2.take r.1.bytesWritten }

theorem turn_eq (hl : Lawful inflate) (hs : s.Within) {flush : MZFlush}
    (hflush : flush = if s.input.isEmpty then .finish else .none) {out : List UInt8}
    (hout : out = s.buf.drop s.written) :
    turn inflate s = .ok (s.callOf flush (inflate s.state s.input out flush),
      s.behind (inflate s.state s.input out flush)) := by
  subst hout
  have hc := hl.consumed_le s.state s.input (s.buf.drop s.written) flush
  simp only [turn,bind,Except.bind,sliceFrom_of_le hs,← hflush,sliceFrom_of_le hc]
  rfl

theorem Alike.within_left (h : Alike Same n s s') : s.Within := by
  rw [LoopState.Within,h.length_buf]
  exact h.within

theorem Alike.within_right (h : Alike Same n s s') : s'.Within := by
  rw [LoopState.Within,h.length_buf',← h.written]
  exact h.within

/-- The buffer behind a call: what was written before it, then what it wrote. -/
theorem LoopState.behind_buf (hs : s.Within) {r : StreamResult ε × σ × List UInt8}
    (hw : r.1.bytesWritten ≤ (s.buf.drop s.written).length)
    (ho : r.2.2.length = (s.buf.drop s.written).length) :
    (s.behind r).buf.length = s.buf.length ∧ (s.behind r).Within ∧
      (s.behind r).buf.take (s.behind r).written =
        s.buf.take s.written ++ r.2.2.take r.1.bytesWritten := by
  have hpre : (s.buf.take s.written).length = s.written := List.length_take_of_le hs
  rw [List.length_drop] at hw ho
  rw [LoopState.Within] at hs
  have hlen : (s.behind r).buf.length = s.buf.length := by
    rw [behind,List.length_append,hpre,ho]
    omega
  refine ⟨hlen,?_,?_⟩
  · rw [LoopState.Within,hlen,behind]
    dsimp only
    omega
  · change (s.buf.take s.written ++ r.2.2).take (s.written + r.1.bytesWritten) = _
    rw [List.take_append,hpre,Nat.add_sub_cancel_left,List.take_of_length_le (by omega)]

/-- A turn from states that are alike makes the same call and leaves states alike. -/
theorem Alike.turn (hl : Lawful inflate) (hf : Forgetful inflate reset Same)
    (h : Alike Same n s s') : ∃ call t t', Decompress.turn inflate s = .ok (call,t) ∧
      Decompress.turn inflate s' = .ok (call,t') ∧ Alike Same n t t' := by
  obtain ⟨flush,hflush⟩ : ∃ f, f = if s.input.isEmpty then MZFlush.finish else MZFlush.none :=
    ⟨_,rfl⟩
  have hlen : (s.buf.drop s.written).length = (s'.buf.drop s'.written).length := by
    rw [List.length_drop,List.length_drop,h.length_buf,h.length_buf',h.written]
  have hres := hf.result s.input flush h.state hlen
  have hstate := hf.state s.input flush h.state hlen
  have hwrote := hf.wrote s.input flush h.state hlen
  have hbuf := LoopState.behind_buf h.within_left
    (hl.written_le s.state s.input (s.buf.drop s.written) flush) (hl.length_out _ _ _ _)
  have hbuf' := LoopState.behind_buf h.within_right
    (hl.written_le s'.state s.input (s'.buf.drop s'.written) flush) (hl.length_out _ _ _ _)
  have hturn := turn_eq hl h.within_left hflush rfl
  have hturn' := turn_eq hl h.within_right (h.input ▸ hflush) rfl
  rw [← h.input] at hturn'
  generalize inflate s.state s.input (s.buf.drop s.written) flush = r at *
  generalize inflate s'.state s.input (s'.buf.drop s'.written) flush = r' at *
  have hcall : s'.callOf flush r' = s.callOf flush r := by
    rw [LoopState.callOf,LoopState.callOf,h.input,h.written,hwrote,hres]
  refine ⟨s.callOf flush r,s.behind r,s'.behind r',hturn,hcall ▸ hturn',hstate,?_,?_,?_,?_,?_,?_⟩
  · rw [LoopState.behind,LoopState.behind,hres,h.input]
  · rw [LoopState.behind,LoopState.behind,hres,h.written]
  · rw [hbuf.1,h.length_buf]
  · rw [hbuf'.1,h.length_buf']
  · rw [← h.length_buf,← hbuf.1]
    exact hbuf.2.1
  · rw [hbuf.2.2,hbuf'.2.2,h.wrote,hwrote]

/-- The loop is left in the same way, in states that are alike. -/
theorem Alike.loopBody (hl : Lawful inflate) (hf : Forgetful inflate reset Same)
    (h : Alike Same n s s') : Loop.Goes (Alike Same n)
      (fun left left' => left.1 = left'.1 ∧ Alike Same n left.2 left'.2)
      (Decompress.loopBody inflate s) (Decompress.loopBody inflate s') := by
  rw [Decompress.loopBody,Decompress.loopBody,h.length_buf,h.length_buf',← h.written]
  by_cases hfull : s.written = n
  · rw [if_pos hfull,if_pos hfull]
    exact .exit ⟨rfl,h⟩
  · obtain ⟨call,t,t',hturn,hturn',halike⟩ := h.turn hl hf
    rw [if_neg hfull,if_neg hfull,hturn,hturn']
    dsimp only
    cases call.result.status with
    | error e => exact .exit ⟨rfl,halike⟩
    | ok status =>
      cases status with
      | streamEnd => exact .exit ⟨rfl,halike⟩
      | ok | needDict =>
        dsimp only
        split
        · exact .exit ⟨rfl,halike⟩
        · exact .next halike

theorem Alike.conclude (h : Alike Same n s s') (exit : Exit ε) :
    Decompress.conclude s exit = Decompress.conclude s' exit := by
  have hs : sliceTo s.buf s.written = sliceTo s'.buf s'.written := by
    rw [sliceTo,sliceTo,h.length_buf,h.length_buf',h.wrote,h.written]
  cases exit with
  | finished => rw [Decompress.conclude,Decompress.conclude,hs]
  | overflow | failed _ | outOfRange => rfl

/-- What a payload comes to, and the calls made for it, do not depend on what the
decompressor was used for before or on what is in its buffer. The buffer keeps its length. -/
theorem inflateGzip_forgets (hl : Lawful inflate) (hf : Forgetful inflate reset Same) (fuel : ℕ)
    {d d' : Decompressor σ} (hbuf : d.buf.length = d'.buf.length) (payload : List UInt8) :
    (inflateGzip inflate reset fuel d payload).1 = (inflateGzip inflate reset fuel d' payload).1 ∧
      Option.Rel (fun left left' => left.1 = left'.1 ∧ left.2.buf.length = d.buf.length ∧
          left'.2.buf.length = d.buf.length)
        (inflateGzip inflate reset fuel d payload).2 (inflateGzip inflate reset fuel d' payload).2 := by
  rw [inflateGzip,inflateGzip]
  cases body payload with
  | error e =>
    cases e with
    | rejected | outOfRange => exact ⟨rfl,.some ⟨rfl,rfl,hbuf.symm⟩⟩
  | ok input =>
    have hstart : Alike Same d.buf.length ⟨reset d.state,d.buf,input,0⟩
        ⟨reset d'.state,d'.buf,input,0⟩ :=
      ⟨hf.reset _ _,rfl,rfl,rfl,hbuf.symm,Nat.zero_le _,rfl⟩
    obtain ⟨hcalls,hleft⟩ := Loop.run_simulation (fun _ _ h => h.loopBody hl hf) fuel hstart
    dsimp only
    refine ⟨hcalls,?_⟩
    generalize (Loop.run (loopBody inflate) fuel ⟨reset d.state,d.buf,input,0⟩).2 = left at *
    generalize (Loop.run (loopBody inflate) fuel ⟨reset d'.state,d'.buf,input,0⟩).2 = left' at *
    cases hleft with
    | none => exact .none
    | some h =>
      obtain ⟨hexit,halike⟩ := h
      refine .some ⟨?_,halike.length_buf,halike.length_buf'⟩
      dsimp only
      rw [hexit,halike.conclude]

theorem forgetful_inflateStored : Forgetful inflateStored id fun _ _ => True := by
  refine ⟨fun _ _ => trivial,?_,by intros; trivial,?_⟩
  · intro _ _ input out out' _ _ hlen
    unfold inflateStored
    rw [hlen]
    split
    · split <;> rfl
    · rfl
  · intro _ _ input out out' _ _ hlen
    unfold inflateStored
    rw [hlen]
    split
    · next lo hi _ _ rest =>
      split
      · next hle =>
        rw [List.take_left' (List.length_take_of_le hle.1),
          List.take_left' (List.length_take_of_le hle.1)]
      · rfl
    · rfl

/-- An inflater for one stored block that takes the block header in a call of its own, and
keeps the number of bytes still to come. -/
def inflateResuming : Inflater (Option ℕ) Unit := fun state input out _ =>
  match state,input with
  | none,1 :: lo :: hi :: _ :: _ :: _ => (⟨5,0,.ok .ok⟩,some (u16FromLeBytes lo hi),out)
  | none,_ => (⟨0,0,.error ()⟩,none,out)
  | some left,input =>
    let n := min left (min input.length out.length)
    (⟨n,n,.ok (if n = left then .streamEnd else .ok)⟩,some (left - n),input.take n ++ out.drop n)

theorem lawful_inflateResuming : Lawful inflateResuming := by
  have hall : ∀ state input out flush,
      (inflateResuming state input out flush).1.bytesConsumed ≤ input.length ∧
        (inflateResuming state input out flush).1.bytesWritten ≤ out.length ∧
        (inflateResuming state input out flush).2.2.length = out.length := by
    intro state input out flush
    unfold inflateResuming
    split
    · refine ⟨?_,Nat.zero_le _,rfl⟩
      simp only [List.length_cons]
      omega
    · exact ⟨Nat.zero_le _,Nat.zero_le _,rfl⟩
    · refine ⟨by dsimp only; omega,by dsimp only; omega,?_⟩
      rw [List.length_append,List.length_take,List.length_drop]
      omega
  exact ⟨fun st i o f => (hall st i o f).1,fun st i o f => (hall st i o f).2.1,
    fun st i o f => (hall st i o f).2.2⟩

/-- What it keeps matters to the calls of a message, and nothing is left of it for the next. -/
theorem forgetful_inflateResuming : Forgetful inflateResuming (fun _ => none) Eq := by
  refine ⟨fun _ _ => rfl,?_,?_,?_⟩
  · rintro state _ input out out' _ rfl hlen
    unfold inflateResuming
    split
    · rfl
    · rfl
    · rw [hlen]
  · rintro state _ input out out' _ rfl hlen
    unfold inflateResuming
    split
    · rfl
    · rfl
    · rw [hlen]
  · rintro state _ input out out' _ rfl hlen
    unfold inflateResuming
    split
    · rfl
    · rfl
    · dsimp only
      rw [hlen]
      exact (List.take_left' (List.length_take_of_le (by omega))).trans
        (List.take_left' (List.length_take_of_le (by omega))).symm

/-- A decompressor that a cut-off message has left in the middle of a block, and a new one with
other bytes in its buffer. -/
theorem inflateGzip_forgets_resuming :
    (inflateGzip inflateResuming (fun _ => none) 27 ⟨some 5,[7,7]⟩ storedPayload).1 =
        (inflateGzip inflateResuming (fun _ => none) 27 ⟨none,[1,2]⟩ storedPayload).1 ∧
      Option.Rel (fun left left' => left.1 = left'.1 ∧ left.2.buf.length = 2 ∧
          left'.2.buf.length = 2)
        (inflateGzip inflateResuming (fun _ => none) 27 ⟨some 5,[7,7]⟩ storedPayload).2
        (inflateGzip inflateResuming (fun _ => none) 27 ⟨none,[1,2]⟩ storedPayload).2 :=
  inflateGzip_forgets lawful_inflateResuming forgetful_inflateResuming 27
    (show [7,7].length = [1,2].length from rfl) storedPayload

example : ((inflateGzip inflateResuming (fun _ => none) 27 ⟨some 5,[7,7]⟩ storedPayload).1.map
    fun c => (c.input.length,c.offset,c.chunk)) = [(14,0,[]),(9,0,[0x41])] := by
  decide

/-! ### The loop ends -/

/-- With this fuel a payload always comes to a result. -/
def fuelFor (d : Decompressor σ) (payload : List UInt8) : ℕ := payload.length + d.buf.length + 1

theorem inflateGzip_returns (hl : Lawful inflate) (reset : σ → σ) (d : Decompressor σ)
    (payload : List UInt8) :
    ∃ r d', (inflateGzip inflate reset (fuelFor d payload) d payload).2 = some (.returned r,d') := by
  rcases body_cases payload with hb | ⟨p,hb⟩
  · rw [inflateGzip,hb]
    exact ⟨_,_,rfl⟩
  · let start : LoopState σ :=
      { state := reset d.state, buf := d.buf, input := payload.drop p, written := 0 }
    have hstart : start.Within := Nat.zero_le _
    have hfuel : start.input.length + (start.buf.length - start.written) < fuelFor d payload := by
      change (payload.drop p).length + (d.buf.length - 0) < payload.length + d.buf.length + 1
      rw [List.length_drop]
      omega
    obtain ⟨⟨exit,s'⟩,hleft⟩ := loop_ends hl hstart hfuel
    have hleaves := (loop_accounts hl _ hstart).2 exit s' hleft
    have hrun : (inflateGzip inflate reset (fuelFor d payload) d payload).2 =
        some (conclude s' exit,⟨s'.state,s'.buf⟩) := by
      rw [inflateGzip,hb]
      dsimp only
      rw [hleft]
      rfl
    cases exit with
    | finished =>
      obtain ⟨text,htext,-⟩ | ⟨hutf8,-⟩ := conclude_finished (ε := ε) hleaves.within
      · exact ⟨_,_,htext ▸ hrun⟩
      · exact ⟨_,_,hutf8 ▸ hrun⟩
    | overflow | failed _ => exact ⟨_,_,hrun⟩
    | outOfRange => exact hleaves.fits.elim

end NsPixels.Decompress
