import NsPixels.Zmq.Frame

/-!
# Receiving messages

`recv` collects the bodies of frames up to one without `MORE`, commands left out. It
inverts `sendFrame` on every stream of messages, and on a stream that is cut short it
returns the complete messages and then fails.
-/

namespace NsPixels.Zmq

open BigEndian

variable {ε α β : Type} {s s' s'' : Subscriber ε}

/-! ### The receive loop -/

theorem exists_of_bind_ok {x : Method ε α} {f : α → Method ε β} {b : β}
    (h : (x >>= f) s = .ok b s'') : ∃ a s', x s = .ok a s' ∧ f a s' = .ok b s'' := by
  simp only [bind,EStateM.bind] at h
  split at h
  · next a s' hx => exact ⟨a,s',hx,h⟩
  · cases h

theorem readExact_took {len : ℕ} {bytes : List UInt8} (h : readExact len s = .ok bytes s') :
    bytes.length = len ∧ Took s bytes s' := by
  rcases readExact_cases len s with ⟨bytes',s₁,hread,hlen,htook⟩ | ⟨s₁,hread,_⟩
  · rw [h,EStateM.Result.ok.injEq] at hread
    obtain ⟨rfl,rfl⟩ := hread
    exact ⟨hlen,htook⟩
  · rw [h] at hread
    cases hread

theorem recvLen_ok {flags : UInt8} {len : UInt32} (h : recvLen flags s = .ok len s') :
    ∃ lenBytes, lenBytes.length = lenWidth flags ∧ len.toNat = ofBytes lenBytes % 2 ^ 32 ∧
      Took s lenBytes s' := by
  by_cases hlen : lenWidth flags ≤ s.unread.length
  · have hwidth : (s.unread.take (lenWidth flags)).length = lenWidth flags :=
      List.length_take_of_le hlen
    obtain ⟨len',s₁,hrecv,hval,htook⟩ :=
      recvLen_append hwidth (List.take_append_drop (lenWidth flags) s.unread).symm
    rw [h,EStateM.Result.ok.injEq] at hrecv
    obtain ⟨rfl,rfl⟩ := hrecv
    exact ⟨_,hwidth,hval,htook⟩
  · obtain ⟨s₁,hrecv,_⟩ := recvLen_short (Nat.lt_of_not_le hlen)
    rw [h] at hrecv
    cases hrecv

/-- A received frame: the bytes it consumed, and its length reduced to 32 bits. -/
theorem recvFrame_ok {r : UInt8 × List UInt8} (h : recvFrame s = .ok r s') :
    ∃ f : RawFrame, r = (f.flags,f.body) ∧ Took s f.bytes s' ∧
      f.body.length = f.declared % 2 ^ 32 ∧ f.body.length ≤ s.maxFrameSize.toNat := by
  obtain ⟨flagByte,s₁,hflag,h⟩ := exists_of_bind_ok h
  obtain ⟨len,s₂,hlen,h⟩ := exists_of_bind_ok h
  obtain ⟨body,s₃,hbody,h⟩ := exists_of_bind_ok h
  obtain ⟨hone,htook₁⟩ := readExact_took hflag
  obtain ⟨flags,rfl⟩ := List.length_eq_one_iff.mp hone
  obtain ⟨lenBytes,hwidth,hval,htook₂⟩ := recvLen_ok hlen
  rw [recvBody] at hbody
  split at hbody
  · cases hbody
  · next hbound =>
    obtain ⟨hsize,htook₃⟩ := readExact_took hbody
    have htook := (htook₁.trans htook₂).trans htook₃
    rw [List.append_assoc] at htook
    rw [(htook₁.trans htook₂).maxFrameSize,gt_iff_lt,UInt32.lt_iff_toNat_lt,Nat.not_lt] at hbound
    cases h
    exact ⟨⟨flags,lenBytes,body,hwidth⟩,rfl,htook,hsize.trans hval,hsize ▸ hbound⟩

/-- A received frame consumes bytes. -/
theorem recvFrame_took {r : UInt8 × List UInt8} (h : recvFrame s = .ok r s') :
    ∃ bytes, bytes ≠ [] ∧ Took s bytes s' := by
  obtain ⟨f,_,htook,_⟩ := recvFrame_ok h
  exact ⟨f.bytes,List.cons_ne_nil _ _,htook⟩

/-- The loop of `recv`, with the bodies collected so far. -/
def recvFrom (frames : List (List UInt8)) (s : Subscriber ε) :
    EStateM.Result (Error ε) (Subscriber ε) (List (List UInt8)) :=
  match _h : recvFrame s with
  | .error e s' => .error e s'
  | .ok (flags,body) s' =>
    -- the body of a command is dropped, within a message too
    if flags &&& flagCommand ≠ 0 then recvFrom frames s'
    else if flags &&& flagMore ≠ 0 then recvFrom (frames ++ [body]) s'
    else .ok (frames ++ [body]) s'
termination_by s.unread.length
decreasing_by
  all_goals
    obtain ⟨bytes,hne,htook⟩ := recvFrame_took _h
    rw [htook.unread,List.length_append]
    have := List.length_pos_of_ne_nil hne
    omega

/-- Receive one message: the bodies of its frames in order. -/
def recv : Method ε (List (List UInt8)) := recvFrom []

theorem recvFrom_ok {flags : UInt8} {body : List UInt8} (frames : List (List UInt8))
    (h : recvFrame s = .ok (flags,body) s') :
    recvFrom frames s =
      if flags &&& flagCommand ≠ 0 then recvFrom frames s'
      else if flags &&& flagMore ≠ 0 then recvFrom (frames ++ [body]) s'
      else .ok (frames ++ [body]) s' := by
  rw [recvFrom]
  split
  · next h' =>
    rw [h] at h'
    cases h'
  · next h' =>
    rw [h] at h'
    cases h'
    rfl

theorem recvFrom_error {e : Error ε} (frames : List (List UInt8))
    (h : recvFrame s = .error e s') : recvFrom frames s = .error e s' := by
  rw [recvFrom]
  split
  · next h' =>
    rw [h] at h'
    cases h'
    rfl
  · next h' =>
    rw [h] at h'
    cases h'

/-! ### Frames on the wire -/

/-- What is handed to `sendFrame`. -/
structure WireFrame where
  flags : UInt8
  body : List UInt8

namespace WireFrame

/-- The bytes `sendFrame` writes. -/
def encode (f : WireFrame) : List UInt8 := frameHeader f.flags f.body ++ f.body

/-- What the frame adds to the message under way. -/
def part (f : WireFrame) : List (List UInt8) :=
  if f.flags &&& flagCommand ≠ 0 then [] else [f.body]

/-- More frames of the message under way are to come. -/
def Continues (f : WireFrame) : Prop := f.flags &&& flagCommand ≠ 0 ∨ f.flags &&& flagMore ≠ 0

end WireFrame

/-- On a socket whose writes succeed, a frame is written as `encode` has it. -/
theorem sendFrame_writes (f : WireFrame) (h : s.socket.outcomes = []) :
    sendFrame f.flags f.body s = .ok () { s with socket := { s.socket with
      outgoing := s.socket.outgoing ++ f.encode } } := by
  obtain ⟨⟨incoming,outgoing,outcomes⟩,maxFrameSize⟩ := s
  obtain rfl : outcomes = [] := h
  simp [sendFrame,writeAll,flush,bind,EStateM.bind,WireFrame.encode]

theorem or_and_distrib (a b c : UInt8) : (a ||| b) &&& c = (a &&& c) ||| (b &&& c) :=
  UInt8.eq_of_toBitVec_eq BitVec.and_or_distrib_right

theorem keep_long_and {flags bit : UInt8} (h : flagLong &&& bit = 0) :
    (flags ||| flagLong) &&& bit = flags &&& bit := by
  rw [or_and_distrib,h,UInt8.or_zero]

theorem keep_short_and {flags bit : UInt8} (h : ~~~flagLong &&& bit = bit) :
    (flags &&& ~~~flagLong) &&& bit = flags &&& bit := by rw [UInt8.and_assoc,h]

/-- The header of a sent frame, as the receiver takes it apart. -/
theorem frameHeader_spec (flags : UInt8) (body : List UInt8) (hbody : body.length < 2 ^ 32) :
    ∃ w lenBytes, frameHeader flags body = w :: lenBytes ∧ lenBytes.length = lenWidth w ∧
      ofBytes lenBytes = body.length ∧ w &&& flagMore = flags &&& flagMore ∧
      w &&& flagCommand = flags &&& flagCommand := by
  rw [frameHeader]
  split
  · next hshort =>
    refine ⟨_,_,rfl,?_,?_,keep_short_and (by decide),keep_short_and (by decide)⟩
    · rw [lenWidth,UInt8.and_assoc,show ~~~flagLong &&& flagLong = 0 by decide,UInt8.and_zero]
      rfl
    · rw [ofBytes,List.foldl_cons,List.foldl_nil,Nat.zero_mul,Nat.zero_add]
      exact UInt8.toNat_ofNat_of_lt' (show body.length < 256 by omega)
  · refine ⟨_,_,rfl,?_,?_,keep_long_and (by decide),keep_long_and (by decide)⟩
    · have hbit : (flags ||| flagLong) &&& flagLong ≠ 0 := by
        rw [or_and_distrib,UInt8.and_self,Ne,UInt8.or_eq_zero_iff]
        exact fun h => absurd h.2 (by decide)
      rw [length_toBytes,lenWidth,if_pos hbit]
    · rw [ofBytes_toBytes]
      exact Nat.mod_eq_of_lt (by omega)

/-! ### Frames received -/

/-- A sent frame is received with its body and with the bits that `recv` looks at. -/
theorem recvFrame_encode {f : WireFrame} {tail : List UInt8}
    (hfit : f.body.length ≤ s.maxFrameSize.toNat) (h : s.unread = f.encode ++ tail) :
    ∃ w s', recvFrame s = .ok (w,f.body) s' ∧ Took s f.encode s' ∧
      w &&& flagMore = f.flags &&& flagMore ∧ w &&& flagCommand = f.flags &&& flagCommand := by
  have hmax := s.maxFrameSize.toNat_lt
  obtain ⟨w,lenBytes,hheader,hwidth,hlen,hmore,hcommand⟩ :=
    frameHeader_spec f.flags f.body (by omega)
  rw [WireFrame.encode,hheader] at h ⊢
  have hunread : s.unread = w :: (lenBytes ++ (f.body ++ tail)) := by simpa using h
  obtain ⟨s₁,htook₁,htail,hframe⟩ := recvFrame_header hwidth hunread
  rw [hlen,Nat.mod_eq_of_lt (by omega),if_neg (by omega)] at hframe
  obtain ⟨s₂,hread,htook₂⟩ := readExact_append htail
  exact ⟨w,s₂,hframe.trans (bind_ok hread),htook₁.trans htook₂,hmore,hcommand⟩

/-- A frame that is cut short ends the stream. -/
theorem recvFrame_truncated {f : WireFrame} {k : ℕ}
    (hfit : f.body.length ≤ s.maxFrameSize.toNat) (hk : k < f.encode.length)
    (h : s.unread = f.encode.take k) :
    ∃ s', recvFrame s = .error (endError s) s' ∧ s'.unread = [] := by
  have hmax := s.maxFrameSize.toNat_lt
  obtain ⟨w,lenBytes,hheader,hwidth,hlen,_,_⟩ :=
    frameHeader_spec f.flags f.body (by omega)
  rw [WireFrame.encode,hheader,List.cons_append] at h hk
  cases k with
  | zero =>
    -- not even the flags
    obtain ⟨s',hread,htook⟩ := readExact_short (show s.unread.length < 1 by simp [h])
    exact ⟨s',bind_error hread,by simpa using htook.unread⟩
  | succ k =>
    rw [List.take_succ_cons] at h
    rw [List.length_cons,List.length_append] at hk
    by_cases hcut : k < lenBytes.length
    · -- within the length field
      rw [List.take_append_of_le_length (Nat.le_of_lt hcut)] at h
      obtain ⟨s₁,hflag,htook₁⟩ := readExact_append (show s.unread = [w] ++ lenBytes.take k from h)
      have hrest := htook₁.unread_eq h
      obtain ⟨s₂,hread,htook₂⟩ := recvLen_short (show s₁.unread.length < lenWidth w by
        rw [hrest,List.length_take,← hwidth]
        omega)
      refine ⟨s₂,?_,by simpa using htook₂.unread⟩
      rw [← htook₁.endError]
      exact (bind_ok hflag).trans (bind_error hread)
    · -- within the body
      rw [List.take_append,List.take_of_length_le (by omega)] at h
      obtain ⟨s₁,htook₁,htail,hframe⟩ := recvFrame_header hwidth h
      rw [hlen,Nat.mod_eq_of_lt (by omega),if_neg (by omega)] at hframe
      obtain ⟨s₂,hread,htook₂⟩ := readExact_short (show s₁.unread.length < f.body.length by
        rw [htail,List.length_take]
        omega)
      refine ⟨s₂,?_,by simpa using htook₂.unread⟩
      rw [hframe,← htook₁.endError]
      exact bind_error hread

/-- The bytes of a list of frames. -/
def encodeAll (fs : List WireFrame) : List UInt8 := fs.flatMap WireFrame.encode

theorem encodeAll_cons (f : WireFrame) (fs : List WireFrame) :
    encodeAll (f :: fs) = f.encode ++ encodeAll fs := List.flatMap_cons

theorem encodeAll_append (fs gs : List WireFrame) :
    encodeAll (fs ++ gs) = encodeAll fs ++ encodeAll gs := List.flatMap_append

/-- Send frames one after another. -/
def sendFrames : List WireFrame → Method ε Unit
  | [] => pure ()
  | f :: fs => do
    sendFrame f.flags f.body
    sendFrames fs

theorem sendFrames_writes (fs : List WireFrame) (h : s.socket.outcomes = []) :
    sendFrames fs s = .ok () { s with socket := { s.socket with
      outgoing := s.socket.outgoing ++ encodeAll fs } } := by
  induction fs generalizing s with
  | nil => simp [sendFrames,encodeAll,pure,EStateM.pure]
  | cons f fs ih =>
    rw [sendFrames]
    refine (bind_ok (sendFrame_writes f h)).trans ((ih ?_).trans ?_)
    · exact h
    · rw [encodeAll_cons,← List.append_assoc]

/-- Every body is within the bound. -/
def Fits (max : UInt32) (fs : List WireFrame) : Prop := ∀ f ∈ fs, f.body.length ≤ max.toNat

/-- A frame that does not end the message adds its part and the loop goes on. -/
theorem recvFrom_continues {f : WireFrame} {tail : List UInt8} (frames : List (List UInt8))
    (hfit : f.body.length ≤ s.maxFrameSize.toNat) (hf : f.Continues)
    (h : s.unread = f.encode ++ tail) :
    ∃ s', Took s f.encode s' ∧ recvFrom frames s = recvFrom (frames ++ f.part) s' := by
  obtain ⟨w,s',hframe,htook,hmore,hcommand⟩ := recvFrame_encode hfit h
  refine ⟨s',htook,?_⟩
  rw [recvFrom_ok frames hframe,hmore,hcommand,WireFrame.part]
  split
  · rw [List.append_nil]
  · next hnot =>
    rw [if_pos (hf.resolve_left hnot)]

theorem recvFrom_all_continue {fs : List WireFrame} {tail : List UInt8}
    (frames : List (List UInt8)) (hfit : Fits s.maxFrameSize fs) (hfs : ∀ f ∈ fs, f.Continues)
    (h : s.unread = encodeAll fs ++ tail) :
    ∃ s', Took s (encodeAll fs) s' ∧
      recvFrom frames s = recvFrom (frames ++ fs.flatMap WireFrame.part) s' := by
  induction fs generalizing s frames with
  | nil => exact ⟨s,Took.refl s,by simp⟩
  | cons f fs ih =>
    rw [encodeAll_cons,List.append_assoc] at h
    obtain ⟨s₁,htook₁,hrun₁⟩ := recvFrom_continues frames (hfit f List.mem_cons_self)
      (hfs f List.mem_cons_self) h
    obtain ⟨s₂,htook₂,hrun₂⟩ := ih (frames ++ f.part)
      (fun g hg => htook₁.maxFrameSize ▸ hfit g (List.mem_cons_of_mem f hg))
      (fun g hg => hfs g (List.mem_cons_of_mem f hg)) (htook₁.unread_eq h)
    refine ⟨s₂,encodeAll_cons f fs ▸ htook₁.trans htook₂,?_⟩
    rw [hrun₁,hrun₂,List.append_assoc,List.flatMap_cons]

/-- Frames of one message, cut short before the last of them is complete. -/
theorem recvFrom_cut {fs : List WireFrame} {k : ℕ} (frames : List (List UInt8))
    (hfit : Fits s.maxFrameSize fs) (hfs : ∀ f ∈ fs.dropLast, f.Continues)
    (hk : k < (encodeAll fs).length) (h : s.unread = (encodeAll fs).take k) :
    ∃ s', recvFrom frames s = .error (endError s) s' ∧ s'.unread = [] := by
  induction fs generalizing s frames k with
  | nil => exact absurd hk (Nat.not_lt_zero _)
  | cons f fs ih =>
    have hfit' := hfit f List.mem_cons_self
    rw [encodeAll_cons] at h hk
    by_cases hcut : k < f.encode.length
    · rw [List.take_append_of_le_length (Nat.le_of_lt hcut)] at h
      obtain ⟨s',herr,hunread⟩ := recvFrame_truncated hfit' hcut h
      exact ⟨s',recvFrom_error frames herr,hunread⟩
    · -- `f` is complete, so it is not the last
      rw [List.length_append] at hk
      have hne : fs ≠ [] := by
        rintro rfl
        exact hcut (by simpa [encodeAll] using hk)
      rw [List.dropLast_cons_of_ne_nil hne] at hfs
      rw [List.take_append,List.take_of_length_le (by omega)] at h
      obtain ⟨s₁,htook,hrun⟩ := recvFrom_continues frames hfit' (hfs f List.mem_cons_self) h
      obtain ⟨s',herr,hunread⟩ := ih (k := k - f.encode.length) (frames ++ f.part)
        (fun g hg => htook.maxFrameSize ▸ hfit g (List.mem_cons_of_mem f hg))
        (fun g hg => hfs g (List.mem_cons_of_mem f hg)) (by omega) (htook.unread_eq h)
      exact ⟨s',by rw [hrun,herr,htook.endError],hunread⟩

/-! ### Messages -/

/-- A command frame. -/
structure Command where
  flags : UInt8
  body : List UInt8
  isCommand : flags &&& flagCommand ≠ 0

/-- One body of a message and the commands sent right before it. -/
structure Part where
  commands : List Command
  body : List UInt8

/-- A message: its last part, and the parts before it. -/
structure Message where
  init : List Part
  last : Part

def Command.frame (c : Command) : WireFrame := ⟨c.flags,c.body⟩

/-- The frames of a part; `MORE` is set on all but the last. -/
def Part.frames (p : Part) (more : Bool) : List WireFrame :=
  p.commands.map Command.frame ++ [⟨if more then flagMore else 0,p.body⟩]

namespace Message

def bodies (m : Message) : List (List UInt8) := m.init.map Part.body ++ [m.last.body]

/-- The frames before the one that ends the message. -/
def leading (m : Message) : List WireFrame :=
  (m.init.flatMap fun p => p.frames true) ++ m.last.commands.map Command.frame

def frames (m : Message) : List WireFrame :=
  (m.init.flatMap fun p => p.frames true) ++ m.last.frames false

theorem frames_eq (m : Message) : m.frames = m.leading ++ [⟨0,m.last.body⟩] := by
  rw [frames,leading,Part.frames,List.append_assoc]
  rfl

end Message

/-- The bytes of a sequence of messages and the commands after them. -/
def encodeStream (msgs : List Message) (trailing : List Command) : List UInt8 :=
  encodeAll (msgs.flatMap Message.frames ++ trailing.map Command.frame)

/-- The messages whose last frame lies within the first `k` bytes. -/
def complete (k : ℕ) : List Message → List Message
  | [] => []
  | m :: msgs =>
    if (encodeAll m.frames).length ≤ k then
      m :: complete (k - (encodeAll m.frames).length) msgs
    else []

/-- Successive calls of `recv` on `s` return `msgs` and leave `t`. -/
def Receives (s : Subscriber ε) : List (List (List UInt8)) → Subscriber ε → Prop
  | [],t => t = s
  | m :: msgs,t => ∃ s', recv s = .ok m s' ∧ Receives s' msgs t

theorem commands_continue {cs : List Command} :
    ∀ f ∈ cs.map Command.frame, f.Continues := by
  intro f hf
  obtain ⟨c,_,rfl⟩ := List.mem_map.mp hf
  exact Or.inl c.isCommand

theorem commands_part (cs : List Command) :
    (cs.map Command.frame).flatMap WireFrame.part = [] := by
  rw [List.flatMap_eq_nil_iff]
  intro f hf
  obtain ⟨c,_,rfl⟩ := List.mem_map.mp hf
  exact if_pos c.isCommand

theorem Message.leading_continue (m : Message) : ∀ f ∈ m.leading, f.Continues := by
  intro f hf
  rw [leading,List.mem_append] at hf
  obtain hf | hf := hf
  · obtain ⟨p,_,hf⟩ := List.mem_flatMap.mp hf
    rw [Part.frames,List.mem_append] at hf
    obtain hf | hf := hf
    · exact commands_continue f hf
    · rw [List.mem_singleton.mp hf]
      exact Or.inr (show flagMore &&& flagMore ≠ 0 by decide)
  · exact commands_continue f hf

theorem Part.frames_part (p : Part) : (p.frames true).flatMap WireFrame.part = [p.body] := by
  rw [Part.frames,List.flatMap_append,commands_part]
  simp [WireFrame.part,show flagMore &&& flagCommand = 0 by decide]

theorem Message.leading_part (m : Message) :
    m.leading.flatMap WireFrame.part = m.init.map Part.body := by
  rw [leading,List.flatMap_append,commands_part,List.append_nil,List.flatMap_assoc]
  simp only [Part.frames_part]
  exact List.flatMap_pure_eq_map Part.body m.init

/-- A complete message is returned with its bodies, and exactly its bytes are taken. -/
theorem recv_message {m : Message} {tail : List UInt8} (hfit : Fits s.maxFrameSize m.frames)
    (h : s.unread = encodeAll m.frames ++ tail) :
    ∃ s', recv s = .ok m.bodies s' ∧ Took s (encodeAll m.frames) s' := by
  rw [m.frames_eq] at hfit h ⊢
  rw [encodeAll_append,List.append_assoc] at h
  obtain ⟨s₁,htook₁,hrun⟩ := recvFrom_all_continue [] (fun f hf => hfit f (by simp [hf]))
    m.leading_continue h
  have hlast := htook₁.unread_eq h
  rw [encodeAll_cons,List.append_assoc] at hlast
  obtain ⟨w,s₂,hframe,htook₂,hmore,hcommand⟩ := recvFrame_encode
    (f := ⟨0,m.last.body⟩) (htook₁.maxFrameSize ▸ hfit _ (by simp)) hlast
  rw [show (0 : UInt8) &&& flagMore = 0 by decide] at hmore
  rw [show (0 : UInt8) &&& flagCommand = 0 by decide] at hcommand
  refine ⟨s₂,?_,?_⟩
  · rw [recv,hrun,recvFrom_ok _ hframe,hmore,hcommand,m.leading_part]
    rfl
  · rw [encodeAll_append,encodeAll_cons,show encodeAll [] = [] from rfl,List.append_nil]
    exact htook₁.trans htook₂

/-- A message whose last frame is not complete makes `recv` fail at the end of the stream. -/
theorem recv_cut {m : Message} {k : ℕ} (hfit : Fits s.maxFrameSize m.frames)
    (hk : k < (encodeAll m.frames).length) (h : s.unread = (encodeAll m.frames).take k) :
    ∃ s', recv s = .error (endError s) s' ∧ s'.unread = [] := by
  refine recvFrom_cut [] hfit ?_ hk h
  rw [m.frames_eq,List.dropLast_concat]
  exact m.leading_continue

/-- So do commands with nothing behind them, complete or not. -/
theorem recv_trailing {cs : List Command} {k : ℕ}
    (hfit : Fits s.maxFrameSize (cs.map Command.frame))
    (h : s.unread = (encodeAll (cs.map Command.frame)).take k) :
    ∃ s', recv s = .error (endError s) s' ∧ s'.unread = [] := by
  by_cases hk : k < (encodeAll (cs.map Command.frame)).length
  · exact recvFrom_cut [] hfit
      (fun f hf => commands_continue f (List.dropLast_subset _ hf)) hk h
  · rw [List.take_of_length_le (by omega),← List.append_nil (encodeAll _)] at h
    obtain ⟨s₁,htook₁,hrun⟩ := recvFrom_all_continue [] hfit commands_continue h
    have hnil := htook₁.unread_eq h
    obtain ⟨s₂,hread,htook₂⟩ := readExact_short (show s₁.unread.length < 1 by simp [hnil])
    refine ⟨s₂,?_,by simpa using htook₂.unread⟩
    rw [recv,hrun,← htook₁.endError]
    exact recvFrom_error _ (bind_error hread)

/-- The first `k` bytes of the encoding of messages, received. -/
theorem recv_encoded {msgs : List Message} {trailing : List Command} {k : ℕ}
    (hfit : Fits s.maxFrameSize (msgs.flatMap Message.frames ++ trailing.map Command.frame))
    (hunread : s.unread = (encodeStream msgs trailing).take k)
    (hclosing : s.socket.incoming.closing = none) :
    ((encodeStream msgs trailing).length ≤ k → complete k msgs = msgs) ∧
    ∃ t t', Receives s ((complete k msgs).map Message.bodies) t ∧
      s.unread = encodeAll ((complete k msgs).flatMap Message.frames) ++ t.unread ∧
      recv t = .error .unexpectedEof t' ∧ t'.unread = [] := by
  induction msgs generalizing s k with
  | nil =>
    have hend : endError s = .unexpectedEof := by rw [endError,hclosing]
    obtain ⟨s',herr,hnil⟩ := recv_trailing hfit hunread
    exact ⟨fun _ => rfl,s,s',rfl,rfl,hend ▸ herr,hnil⟩
  | cons m msgs ih =>
    have hstream : encodeStream (m :: msgs) trailing =
        encodeAll m.frames ++ encodeStream msgs trailing := by
      rw [encodeStream,encodeStream,List.flatMap_cons,List.append_assoc,encodeAll_append]
    rw [List.flatMap_cons,List.append_assoc] at hfit
    have hfit₁ : Fits s.maxFrameSize m.frames := fun f hf => hfit f (List.mem_append_left _ hf)
    rw [hstream] at hunread ⊢
    rw [complete]
    split
    · next hle =>
      rw [List.take_append,List.take_of_length_le hle] at hunread
      obtain ⟨s₁,hrecv,htook⟩ := recv_message hfit₁ hunread
      obtain ⟨hall,t,t',hreceives,hsplit,herr,hnil⟩ := ih
        (fun f hf => htook.maxFrameSize ▸ hfit f (List.mem_append_right _ hf))
        (htook.unread_eq hunread) (htook.closing.trans hclosing)
      refine ⟨?_,t,t',⟨s₁,hrecv,hreceives⟩,?_,herr,hnil⟩
      · intro hk
        rw [List.length_append] at hk
        rw [hall (by omega)]
      · rw [htook.unread,hsplit,List.flatMap_cons,encodeAll_append,List.append_assoc]
    · next hgt =>
      rw [List.take_append_of_le_length (by omega)] at hunread
      have hend : endError s = .unexpectedEof := by rw [endError,hclosing]
      obtain ⟨s',herr,hnil⟩ := recv_cut hfit₁ (by omega) hunread
      refine ⟨?_,s,s',rfl,rfl,hend ▸ herr,hnil⟩
      intro hk
      rw [List.length_append] at hk
      exact absurd (Nat.le_of_add_right_le hk) hgt

/-- Receiving inverts sending, on the first `k` of the bytes that sending any messages with
commands anywhere writes, however the socket cuts them into reads: the complete messages are
returned in order, each taking exactly its bytes, and then the end of the stream is
reported with nothing left unread. -/
theorem recv_inverts_send {msgs : List Message} {trailing : List Command} {k : ℕ}
    (hfit : Fits s.maxFrameSize (msgs.flatMap Message.frames ++ trailing.map Command.frame))
    (hunread : s.unread = (encodeStream msgs trailing).take k)
    (hclosing : s.socket.incoming.closing = none) :
    (∀ peer : Subscriber ε, peer.socket.outcomes = [] →
      sendFrames (msgs.flatMap Message.frames ++ trailing.map Command.frame) peer =
        .ok () { peer with socket := { peer.socket with
          outgoing := peer.socket.outgoing ++ encodeStream msgs trailing } }) ∧
    ((encodeStream msgs trailing).length ≤ k → complete k msgs = msgs) ∧
    ∃ t t', Receives s ((complete k msgs).map Message.bodies) t ∧
      s.unread = encodeAll ((complete k msgs).flatMap Message.frames) ++ t.unread ∧
      recv t = .error .unexpectedEof t' ∧ t'.unread = [] :=
  ⟨fun _ hpeer => sendFrames_writes _ hpeer,recv_encoded hfit hunread hclosing⟩

/-- A ping, then a message of two bodies with a command between them, in uneven reads. -/
def pingAndMessage : Message where
  init := [⟨[⟨4,[4,80,73,78,71],by decide⟩],[7]⟩]
  last := ⟨[⟨4,[],by decide⟩],[8,9]⟩

/-- The stream is cut one byte before its end. -/
theorem recv_inverts_send_cut :
    let s : Subscriber Unit :=
      { socket :=
          { incoming := ⟨[⟨[4,5,4],by decide⟩,⟨[80,73,78,71,1,1,7],by decide⟩,
              ⟨[4,0,0,2,8],by decide⟩],none⟩
            outgoing := []
            outcomes := [] }
        maxFrameSize := 16 }
    ∃ t t', Receives s ((complete 15 [pingAndMessage]).map Message.bodies) t ∧
      s.unread = encodeAll ((complete 15 [pingAndMessage]).flatMap Message.frames) ++ t.unread ∧
      recv t = .error .unexpectedEof t' ∧ t'.unread = [] := by
  intro s
  have hfit : ∀ f ∈ [pingAndMessage].flatMap Message.frames ++ [].map Command.frame,
      f.body.length ≤ (16 : UInt32).toNat := by decide
  exact (recv_inverts_send (s := s) hfit (by decide) rfl).2.2

end NsPixels.Zmq
