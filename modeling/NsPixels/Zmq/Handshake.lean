import NsPixels.Zmq.Message

/-!
# The handshake

A subscriber exists once the peer has sent a greeting and a command. What the
handshake looks at is less than what it stands for: four bytes of the mechanism, the
command flag, and a length reduced to 32 bits.
-/

namespace NsPixels.Zmq

variable {ε α β : Type} {s s' s'' : Subscriber ε}

/-! ### Writing -/

/-- A subscriber after a write that succeeded. -/
def Subscriber.wrote (s : Subscriber ε) (bytes : List UInt8) : Subscriber ε :=
  { s with socket := { s.socket with
    outgoing := s.socket.outgoing ++ bytes, outcomes := s.socket.outcomes.tail } }

@[simp] theorem outcomes_wrote (s : Subscriber ε) (bytes : List UInt8) :
    (s.wrote bytes).socket.outcomes = s.socket.outcomes.tail := rfl

/-- The next `n` writes and flushes succeed. -/
def Writes (s : Subscriber ε) (n : ℕ) : Prop := ∀ i < n, (s.socket.outcomes[i]?).join = none

theorem writes_succ_iff {n : ℕ} (bytes : List UInt8) :
    Writes s (n + 1) ↔ (s.socket.outcomes[0]?).join = none ∧ Writes (s.wrote bytes) n := by
  simp only [Writes,outcomes_wrote,List.getElem?_tail]
  constructor
  · intro h
    exact ⟨h 0 n.succ_pos,fun i hi => h (i + 1) (Nat.succ_lt_succ hi)⟩
  · rintro ⟨hzero,hsucc⟩ i hi
    cases i with
    | zero => exact hzero
    | succ i => exact hsucc i (Nat.lt_of_succ_lt_succ hi)

@[simp] theorem writes_zero (s : Subscriber ε) : Writes s 0 := fun _ hi => absurd hi (Nat.not_lt_zero _)

theorem Took.writes_iff {bytes : List UInt8} {n : ℕ} (h : Took s bytes s') :
    Writes s' n ↔ Writes s n := by
  rw [h.rest]
  rfl

theorem bind_ok_iff {x : Method ε α} {f : α → Method ε β} {b : β} :
    (x >>= f) s = .ok b s'' ↔ ∃ a s', x s = .ok a s' ∧ f a s' = .ok b s'' :=
  ⟨exists_of_bind_ok,fun ⟨_,_,hx,hf⟩ => (bind_ok hx).trans hf⟩

theorem writeAll_ok_iff {bytes : List UInt8} {u : Unit} :
    writeAll bytes s = .ok u s' ↔ (s.socket.outcomes[0]?).join = none ∧ s' = s.wrote bytes := by
  obtain ⟨⟨incoming,outgoing,outcomes⟩,maxFrameSize⟩ := s
  obtain _ | ⟨_ | e,outcomes⟩ := outcomes
  · simp [writeAll,Subscriber.wrote,eq_comm]
  · simp [writeAll,Subscriber.wrote,eq_comm]
  · simp [writeAll]

theorem sendFrame_ok_iff {flags : UInt8} {body : List UInt8} {u : Unit} :
    sendFrame flags body s = .ok u s' ↔
      Writes s 3 ∧ s' = ((s.wrote (frameHeader flags body)).wrote body).wrote [] := by
  rw [writes_succ_iff (frameHeader flags body),writes_succ_iff body,writes_succ_iff []]
  simp only [sendFrame,flush,bind_ok_iff,writeAll_ok_iff,writes_zero,and_true]
  constructor
  · rintro ⟨_,_,⟨hheader,rfl⟩,_,_,⟨hbody,rfl⟩,hflush,rfl⟩
    exact ⟨⟨hheader,hbody,hflush⟩,rfl⟩
  · rintro ⟨⟨hheader,hbody,hflush⟩,rfl⟩
    exact ⟨(),_,⟨hheader,rfl⟩,(),_,⟨hbody,rfl⟩,hflush,rfl⟩

/-! ### What the handshake checks -/

/-- The error that a greeting of 64 bytes causes. -/
def greetingError (peer : List UInt8) : Option (Error ε) :=
  if peer.getD 0 0 ≠ 0xFF ∨ peer.getD 9 0 ≠ 0x7F then some .invalidGreeting
  else if peer.getD 10 0 < 3 then some .invalidGreeting
  else if (peer.take 16).drop 12 ≠ [78,85,76,76] then some .unsupportedMechanism
  else none

/-- The half of the handshake after the greetings. -/
def exchangeReady : Method ε Unit := do
  sendFrame flagCommand buildReadyBody
  let (flags,_) ← recvFrame
  if flags &&& flagCommand = 0 then throw .unexpectedCommand

theorem handshake_eq : (handshake : Method ε Unit) = (do
    writeAll greeting
    flush
    let peer ← readExact 64
    match greetingError peer with
    | some e => throw e
    | none => exchangeReady) := by
  rw [handshake]
  congr 1
  funext _
  congr 1
  funext _
  congr 1
  funext peer
  by_cases hsig : peer.getD 0 0 ≠ 0xFF ∨ peer.getD 9 0 ≠ 0x7F
  · simp only [greetingError,if_pos hsig]
    rfl
  · by_cases hver : peer.getD 10 0 < 3
    · simp only [greetingError,if_neg hsig,if_pos hver]
      rfl
    · by_cases hmech : (peer.take 16).drop 12 ≠ [78,85,76,76]
      · simp only [greetingError,if_neg hsig,if_neg hver,if_pos hmech]
        rfl
      · simp only [greetingError,if_neg hsig,if_neg hver,if_neg hmech]
        rfl

/-- The bytes that the handshake looks at in a greeting. -/
structure PassesGreeting (peer : List UInt8) : Prop where
  length : peer.length = 64
  signature : peer.getD 0 0 = 0xFF ∧ peer.getD 9 0 = 0x7F
  version : 3 ≤ peer.getD 10 0
  mechanism : (peer.take 16).drop 12 = [78,85,76,76]

theorem passesGreeting_iff {peer : List UInt8} :
    PassesGreeting peer ↔ peer.length = 64 ∧ greetingError (ε := ε) peer = none := by
  constructor
  · rintro ⟨hlen,⟨hfirst,hlast⟩,hver,hmech⟩
    refine ⟨hlen,?_⟩
    rw [greetingError,if_neg (not_or.mpr ⟨not_not.mpr hfirst,not_not.mpr hlast⟩),
      if_neg (UInt8.not_lt.mpr hver),if_neg (not_not.mpr hmech)]
  · rintro ⟨hlen,herr⟩
    rw [greetingError] at herr
    split_ifs at herr with hsig hver hmech
    rw [not_or,not_not,not_not] at hsig
    exact ⟨hlen,hsig,UInt8.not_lt.mp hver,not_not.mp hmech⟩

/-- What the handshake demands of the first frame. -/
structure RawFrame.Passes (f : RawFrame) (maxFrameSize : UInt32) : Prop where
  command : f.flags &&& flagCommand ≠ 0
  taken : f.body.length = f.declared % 2 ^ 32
  bound : f.body.length ≤ maxFrameSize.toNat

theorem recvFrame_raw {f : RawFrame} {rest : List UInt8} (hf : f.Passes s.maxFrameSize)
    (h : s.unread = f.bytes ++ rest) :
    ∃ s', recvFrame s = .ok (f.flags,f.body) s' ∧ s'.unread = rest := by
  have hunread : s.unread = f.flags :: (f.lenBytes ++ (f.body ++ rest)) := by
    rw [h,RawFrame.bytes,List.cons_append,List.append_assoc]
  obtain ⟨s₁,_,htail,hframe⟩ := recvFrame_header f.width hunread
  have htaken : BigEndian.ofBytes f.lenBytes % 2 ^ 32 = f.body.length := hf.taken.symm
  rw [htaken,if_neg (Nat.not_lt.mpr hf.bound)] at hframe
  obtain ⟨s₂,hread,htook⟩ := readExact_append htail
  exact ⟨s₂,hframe.trans (bind_ok hread),htook.unread_eq htail⟩

theorem exchangeReady_ok {u : Unit} (h : exchangeReady s = .ok u s') :
    Writes s 3 ∧ ∃ f : RawFrame, f.Passes s.maxFrameSize ∧ s.unread = f.bytes ++ s'.unread := by
  obtain ⟨_,s₁,hsend,h⟩ := exists_of_bind_ok h
  obtain ⟨hwrites,rfl⟩ := sendFrame_ok_iff.mp hsend
  obtain ⟨r,s₂,hrecv,h⟩ := exists_of_bind_ok h
  obtain ⟨f,rfl,htook,htaken,hbound⟩ := recvFrame_ok hrecv
  dsimp only at h
  split at h
  · cases h
  · next hcommand =>
    cases h
    exact ⟨hwrites,f,⟨hcommand,htaken,hbound⟩,htook.unread⟩

theorem exchangeReady_passes {f : RawFrame} {rest : List UInt8} (hwrites : Writes s 3)
    (hf : f.Passes s.maxFrameSize) (h : s.unread = f.bytes ++ rest) :
    ∃ s', exchangeReady s = .ok () s' ∧ s'.unread = rest := by
  have hsend : sendFrame flagCommand buildReadyBody s = .ok () _ :=
    sendFrame_ok_iff.mpr ⟨hwrites,rfl⟩
  obtain ⟨s',hrecv,hrest⟩ := recvFrame_raw
    (s := ((s.wrote (frameHeader flagCommand buildReadyBody)).wrote buildReadyBody).wrote []) hf h
  refine ⟨s',(bind_ok hsend).trans ((bind_ok hrecv).trans ?_),hrest⟩
  dsimp only
  rw [if_neg hf.command]
  rfl

/-- A connection whose stream passes the handshake and goes on with `rest`. -/
structure Passes (socket : Socket ε) (maxFrameSize : UInt32) (peer : List UInt8) (f : RawFrame)
    (rest : List UInt8) : Prop where
  stream : socket.incoming.unread = peer ++ (f.bytes ++ rest)
  writes : Writes ⟨socket,maxFrameSize⟩ 5
  greeting : PassesGreeting peer
  frame : f.Passes maxFrameSize

variable {socket : Socket ε} {maxFrameSize : UInt32} {sub : Subscriber ε}

theorem handshake_ok {u : Unit} (h : handshake s = .ok u s') :
    ∃ peer f, Passes s.socket s.maxFrameSize peer f s'.unread := by
  rw [handshake_eq] at h
  obtain ⟨_,s₁,hgreet,h⟩ := exists_of_bind_ok h
  obtain ⟨hwrite,rfl⟩ := writeAll_ok_iff.mp hgreet
  obtain ⟨_,s₂,hflush,h⟩ := exists_of_bind_ok h
  obtain ⟨hwrite',rfl⟩ := writeAll_ok_iff.mp hflush
  obtain ⟨peer,s₃,hread,h⟩ := exists_of_bind_ok h
  obtain ⟨hlen,htook⟩ := readExact_took hread
  cases herr : greetingError (ε := ε) peer with
  | some e =>
    rw [herr] at h
    cases h
  | none =>
    rw [herr] at h
    obtain ⟨hwrites,f,hf,hunread⟩ := exchangeReady_ok h
    have hstream := htook.unread
    rw [hunread] at hstream
    rw [htook.writes_iff] at hwrites
    rw [htook.maxFrameSize] at hf
    refine ⟨peer,f,hstream,?_,passesGreeting_iff.mpr ⟨hlen,herr⟩,hf⟩
    rw [writes_succ_iff greeting,writes_succ_iff []]
    exact ⟨hwrite,hwrite',hwrites⟩

theorem handshake_passes {peer rest : List UInt8} {f : RawFrame}
    (h : Passes s.socket s.maxFrameSize peer f rest) :
    ∃ s', handshake s = .ok () s' ∧ s'.unread = rest := by
  have hwrites : Writes s 5 := h.writes
  rw [writes_succ_iff greeting,writes_succ_iff []] at hwrites
  obtain ⟨hwrite,hwrite',hwrites⟩ := hwrites
  obtain ⟨hlen,herr⟩ := passesGreeting_iff.mp h.greeting
  have hgreet : writeAll greeting s = .ok () _ := writeAll_ok_iff.mpr ⟨hwrite,rfl⟩
  have hflush : flush (s.wrote greeting) = .ok () _ := writeAll_ok_iff.mpr ⟨hwrite',rfl⟩
  obtain ⟨s₁,hread,htook⟩ := readExact_append (s := (s.wrote greeting).wrote []) h.stream
  rw [hlen] at hread
  obtain ⟨s',hready,hrest⟩ := exchangeReady_passes (htook.writes_iff.mpr hwrites)
    (htook.maxFrameSize ▸ h.frame) (htook.unread_eq h.stream)
  refine ⟨s',?_,hrest⟩
  rw [handshake_eq]
  refine (bind_ok hgreet).trans ((bind_ok hflush).trans ((bind_ok hread).trans ?_))
  rw [herr]
  exact hready

theorem new_ok_iff : Subscriber.new socket maxFrameSize = .ok sub ↔
    handshake ⟨socket,maxFrameSize⟩ = .ok () sub := by
  rw [Subscriber.new]
  cases h : handshake ⟨socket,maxFrameSize⟩ with
  | ok u s => simp
  | error e s => simp

/-! ### What it stands for -/

/-- A greeting of the protocol: signature, version and the mechanism `NULL`, padded with
zeros to 20 bytes. -/
structure IsGreeting (peer : List UInt8) : Prop where
  length : peer.length = 64
  signature : peer.getD 0 0 = 0xFF ∧ peer.getD 9 0 = 0x7F
  version : 3 ≤ peer.getD 10 0
  mechanism : (peer.drop 12).take 20 = [78,85,76,76] ++ List.replicate 16 0

/-- The name `READY`, behind its length. -/
def readyName : List UInt8 := [5,82,69,65,68,89]

/-- A command frame of the declared length whose command is `READY`. -/
structure RawFrame.IsReady (f : RawFrame) : Prop where
  command : f.flags &&& flagCommand ≠ 0
  whole : f.body.length = f.declared
  name : readyName <+: f.body

/-- The stream is a greeting, a `READY` command and `rest`. -/
def OpensReady (stream rest : List UInt8) : Prop :=
  ∃ peer f, IsGreeting peer ∧ RawFrame.IsReady f ∧ stream = peer ++ (f.bytes ++ rest)

/-- What the handshake does not look at: the padding of the mechanism, the name of the
command and the high half of its length. -/
structure Unchecked (peer : List UInt8) (f : RawFrame) : Prop where
  padding : (peer.drop 16).take 16 = List.replicate 16 0
  name : readyName <+: f.body
  length : f.declared < 2 ^ 32

theorem mechanism_iff {peer : List UInt8} (hlen : peer.length = 64) :
    (peer.drop 12).take 20 = [78,85,76,76] ++ List.replicate 16 0 ↔
      (peer.take 16).drop 12 = [78,85,76,76] ∧ (peer.drop 16).take 16 = List.replicate 16 0 := by
  have hsplit : (peer.drop 12).take 20 = (peer.take 16).drop 12 ++ (peer.drop 16).take 16 := by
    rw [show 20 = 4 + 16 from rfl,List.take_add,List.drop_drop,List.drop_take]
  have hfour : ((peer.take 16).drop 12).length = 4 := by simp [hlen]
  rw [hsplit]
  constructor
  · intro h
    exact List.append_inj h hfour
  · rintro ⟨hnull,hpad⟩
    rw [hnull,hpad]

theorem RawFrame.bytes_injective : Function.Injective RawFrame.bytes := by
  rintro ⟨flags,lenBytes,body,width⟩ ⟨flags',lenBytes',body',width'⟩ h
  obtain ⟨rfl,h⟩ := List.cons.inj h
  obtain ⟨rfl,rfl⟩ := List.append_inj h (width.trans width'.symm)
  rfl

variable {peer rest : List UInt8} {f : RawFrame}

/-- What passed the handshake was a greeting and a `READY` command only if the unchecked
bytes were right. -/
theorem Passes.opensReady_iff (h : Passes socket maxFrameSize peer f rest) :
    OpensReady socket.incoming.unread rest ↔ Unchecked peer f := by
  constructor
  · rintro ⟨peer',f',hgreeting,hready,hstream⟩
    rw [h.stream] at hstream
    -- 64 bytes, and then the frame that ends where `rest` begins
    obtain ⟨rfl,hframe⟩ := List.append_inj hstream (h.greeting.length.trans hgreeting.length.symm)
    obtain rfl := RawFrame.bytes_injective (List.append_cancel_right hframe)
    refine ⟨((mechanism_iff hgreeting.length).mp hgreeting.mechanism).2,hready.name,?_⟩
    rw [← hready.whole,h.frame.taken]
    exact Nat.mod_lt _ (by decide)
  · rintro ⟨hpadding,hname,hlength⟩
    refine ⟨peer,f,?_,⟨h.frame.command,?_,hname⟩,h.stream⟩
    · exact ⟨h.greeting.length,h.greeting.signature,h.greeting.version,
        (mechanism_iff h.greeting.length).mpr ⟨h.greeting.mechanism,hpadding⟩⟩
    · rw [h.frame.taken,Nat.mod_eq_of_lt hlength]

/-- A subscriber stands for a greeting and a `READY` command, and for nothing more that
was consumed, exactly on the connections where whatever passes the checks has the
unchecked bytes right as well. -/
theorem new_opensReady_iff (socket : Socket ε) (maxFrameSize : UInt32) :
    (∀ sub, Subscriber.new socket maxFrameSize = .ok sub →
      OpensReady socket.incoming.unread sub.unread) ↔
    ∀ peer f rest, Passes socket maxFrameSize peer f rest → Unchecked peer f := by
  constructor
  · intro h peer f rest hpass
    obtain ⟨sub,hok,rfl⟩ := handshake_passes (s := ⟨socket,maxFrameSize⟩) hpass
    exact hpass.opensReady_iff.mp (h sub (new_ok_iff.mpr hok))
  · intro h sub hok
    obtain ⟨peer,f,hpass⟩ := handshake_ok (new_ok_iff.mp hok)
    exact hpass.opensReady_iff.mpr (h peer f sub.unread hpass)

/-- A peer that greets and then sends an `ERROR` command. -/
def refusingPeer : Socket Unit where
  incoming := ⟨[⟨greeting ++ [4,6,5,69,82,82,79,82],by simp⟩],none⟩
  outgoing := []
  outcomes := []

/-- The peer that refuses is taken for a ready one. -/
theorem not_opensReady_refusingPeer : ∃ sub, Subscriber.new refusingPeer 65536 = .ok sub ∧
    ¬ OpensReady refusingPeer.incoming.unread sub.unread := by
  have hpass : Passes refusingPeer 65536 greeting ⟨4,[6],[5,69,82,82,79,82],rfl⟩ [] :=
    ⟨rfl,by simp [Writes,refusingPeer],⟨rfl,⟨rfl,rfl⟩,by decide,rfl⟩,⟨by decide,rfl,by decide⟩⟩
  obtain ⟨sub,hok,hrest⟩ := handshake_passes (s := ⟨refusingPeer,65536⟩) hpass
  refine ⟨sub,new_ok_iff.mpr hok,?_⟩
  rw [hrest,hpass.opensReady_iff]
  intro hunchecked
  exact absurd hunchecked.name (by decide)

end NsPixels.Zmq
