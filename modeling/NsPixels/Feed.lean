import NsPixels.Decompress.Independence
import NsPixels.Enrichment
import NsPixels.Projection.Wgs84
import NsPixels.XmlParser.Documents
import NsPixels.Zmq.Handshake

/-!
# The feed task

From the bytes of the socket to the trains of each message: receive, inflate, parse and
project. A message that cannot be read is skipped, and leaves no trace in the next one.
-/

namespace NsPixels.Feed

open Zmq Decompress XmlParser Xml

/-- `ZMQ_FRAME_CAP`. -/
def zmqFrameCap : UInt32 := 64 * 1024

/-- `/RIG/NStreinpositiesInterface5` -/
def topic : List UInt8 :=
  [47,82,73,71,47,78,83,116,114,101,105,110,112,111,115,105,116,105,101,115,73,110,116,101,114,102,
    97,99,101,53]

/-- What the task keeps from message to message. -/
structure State (σ ε : Type) where
  sub : Subscriber ε
  decompressor : Decompressor σ

/-- How the task ends: an error of the subscriber is unwrapped, and the others would be
a slice out of range and a loop that does not end. -/
inductive End (ε : Type)
  | recv (e : Zmq.Error ε)
  | outOfRange
  | stuck
deriving DecidableEq

section Task

variable {σ ι ε τ F : Type}

/-- The task up to its loop; the buffer comes with whatever is in it. -/
def start (socket : Socket ε) (state : σ) (buf : List UInt8) : Except (Zmq.Error ε) (State σ ε) :=
  match Subscriber.new socket zmqFrameCap with
  | .error e => .error e
  | .ok sub =>
    match subscribe topic sub with
    | .error e _ => .error e
    | .ok _ sub => .ok ⟨sub,⟨state,buf⟩⟩

variable (inflate : Inflater σ ι) (reset : σ → σ) (tokenizer : String → List (Except τ Token))
  (parseF32 : List Char → Option F) (project : F → F → PixelCoord)

/-- The place of a train on the canvas; `project` is `wgs84_to_canvas` in the arithmetic of the
code. -/
def projected (t : XmlParser.Train F) : Enrichment.Train := ⟨t.number,project t.lat t.lon⟩

/-- The trains of an inflated message, projected. -/
def trainsOf (xml : String) : List Enrichment.Train :=
  (parse tokenizer parseF32 xml).map (projected project)

/-- What the loop makes of the frames of a message: nothing, or its trains. -/
def handle (d : Decompressor σ) (frames : List (List UInt8)) :
    List (List Enrichment.Train) × (Decompressor σ ⊕ End ε) :=
  if frames.length < 2 then ([],.inl d)
  else
    let payload := frames.getD 1 []
    match (inflateGzip inflate reset (fuelFor d payload) d payload).2 with
    | none => ([],.inr .stuck)
    | some (.outOfRange,_) => ([],.inr .outOfRange)
    | some (.returned (.error _),d) => ([],.inl d)
    | some (.returned (.ok xml),d) => ([trainsOf tokenizer parseF32 project xml],.inl d)

/-- One turn of the loop up to the lock. -/
def turn (s : State σ ε) : List (List Enrichment.Train) × (State σ ε ⊕ End ε) :=
  match recv s.sub with
  | .error e _ => ([],.inr (.recv e))
  | .ok frames sub =>
    match handle inflate reset tokenizer parseF32 project s.decompressor frames with
    | (trains,.inl d) => (trains,.inl ⟨sub,d⟩)
    | (trains,.inr e) => (trains,.inr e)

end Task

/-! ### Starting -/

section Start

variable {σ ε α β : Type}

/-- Reads and writes do not break `P`. -/
structure Stable (P : Subscriber ε → Prop) : Prop where
  took : ∀ {s bytes s'}, Took s bytes s' → P s → P s'
  wrote : ∀ {s} bytes, P s → P (s.wrote bytes)

def Keeps (P : Subscriber ε → Prop) (x : Method ε α) : Prop :=
  ∀ s s' a, x s = .ok a s' → P s → P s'

variable {P : Subscriber ε → Prop}

theorem Keeps.bind {x : Method ε α} {f : α → Method ε β} (hx : Keeps P x)
    (hf : ∀ a, Keeps P (f a)) : Keeps P (x >>= f) := by
  intro s s' b h hs
  obtain ⟨a,s₁,ha,hb⟩ := exists_of_bind_ok h
  exact hf a s₁ s' b hb (hx s s₁ a ha hs)

theorem keeps_throw (e : Zmq.Error ε) : Keeps P (throw e : Method ε α) := by
  intro s s' a h
  cases h

namespace Stable

variable (hP : Stable P)
include hP

theorem keeps_writeAll (bytes : List UInt8) : Keeps P (writeAll bytes) := by
  intro s s' u h hs
  obtain ⟨-,rfl⟩ := writeAll_ok_iff.mp h
  exact hP.wrote bytes hs

theorem keeps_readExact (len : ℕ) : Keeps P (readExact len) := by
  intro s s' bytes h hs
  exact hP.took (readExact_took h).2 hs

theorem keeps_recvFrame : Keeps P recvFrame := by
  intro s s' r h hs
  obtain ⟨_,-,htook⟩ := recvFrame_took h
  exact hP.took htook hs

theorem keeps_sendFrame (flags : UInt8) (body : List UInt8) : Keeps P (sendFrame flags body) :=
  (hP.keeps_writeAll _).bind fun _ => (hP.keeps_writeAll _).bind fun _ => hP.keeps_writeAll _

theorem keeps_exchangeReady : Keeps P exchangeReady := by
  refine (hP.keeps_sendFrame _ _).bind fun _ => hP.keeps_recvFrame.bind fun r => ?_
  dsimp only
  split
  · exact keeps_throw _
  · intro s s' u h hs
    cases h
    exact hs

theorem keeps_handshake : Keeps P handshake := by
  rw [handshake_eq]
  refine (hP.keeps_writeAll _).bind fun _ => (hP.keeps_writeAll _).bind fun _ =>
    (hP.keeps_readExact 64).bind fun peer => ?_
  cases greetingError (ε := ε) peer with
  | some e => exact keeps_throw e
  | none => exact hP.keeps_exchangeReady

end Stable

theorem stable_maxFrameSize (n : UInt32) : Stable fun s : Subscriber ε => s.maxFrameSize = n :=
  ⟨fun htook h => htook.maxFrameSize.trans h,fun _ h => h⟩

theorem stable_endError (e : Zmq.Error ε) : Stable fun s : Subscriber ε => endError s = e :=
  ⟨fun htook h => htook.endError.trans h,fun _ h => h⟩

theorem stable_outcomes : Stable fun s : Subscriber ε => s.socket.outcomes = [] :=
  ⟨fun htook h => by rw [htook.rest]; exact h,fun bytes h => by rw [outcomes_wrote,h]; rfl⟩

variable {socket : Socket ε} {state : σ} {buf : List UInt8} {s : State σ ε}

/-- A task that has started bounds its frames by `zmqFrameCap`. -/
theorem start_ok (h : start socket state buf = .ok s) :
    s.sub.maxFrameSize = zmqFrameCap ∧ s.decompressor = ⟨state,buf⟩ ∧
      endError s.sub = endError ⟨socket,zmqFrameCap⟩ := by
  rw [start] at h
  split at h
  · cases h
  next sub hnew =>
  split at h
  · cases h
  next sub' hsub =>
  cases h
  have hkeeps : ∀ {P : Subscriber ε → Prop}, Stable P → P ⟨socket,zmqFrameCap⟩ → P sub' :=
    fun hP h => hP.keeps_sendFrame _ _ _ _ _ hsub (hP.keeps_handshake _ _ _ (new_ok_iff.mp hnew) h)
  exact ⟨hkeeps (stable_maxFrameSize _) rfl,rfl,hkeeps (stable_endError _) rfl⟩

/-- Over a socket whose writes succeed the task starts when the handshake does. -/
theorem start_passes {peer rest : List UInt8} {f : RawFrame} (h : Passes socket zmqFrameCap peer f rest)
    (hwrites : socket.outcomes = []) (state : σ) (buf : List UInt8) :
    ∃ s, start socket state buf = .ok s ∧ s.sub.unread = rest := by
  obtain ⟨sub,hok,hrest⟩ := handshake_passes (s := ⟨socket,zmqFrameCap⟩) h
  have hout := stable_outcomes.keeps_handshake _ _ _ hok hwrites
  obtain ⟨sub',hsub,hunread⟩ : ∃ sub', subscribe topic sub = .ok () sub' ∧ sub'.unread = sub.unread :=
    ⟨_,sendFrame_ok_iff.mpr ⟨fun i _ => by rw [hout]; rfl,rfl⟩,rfl⟩
  refine ⟨⟨sub',⟨state,buf⟩⟩,?_,hunread.trans hrest⟩
  rw [start,new_ok_iff.mpr hok]
  dsimp only
  rw [hsub]

end Start

/-! ### Reading a stream -/

section Reading

variable {σ ι ε τ F : Type} {inflate : Inflater σ ι} {reset : σ → σ} {Same : σ → σ → Prop}
  {tokenizer : String → List (Except τ Token)} {parseF32 : List Char → Option F}
  {project : F → F → PixelCoord}

/-- The text in the frames of a message, as the decompressor `d` reads it. -/
def content (inflate : Inflater σ ι) (reset : σ → σ) (d : Decompressor σ)
    (frames : List (List UInt8)) : Option String :=
  if frames.length < 2 then none
  else
    let payload := frames.getD 1 []
    match (inflateGzip inflate reset (fuelFor d payload) d payload).2 with
    | some (.returned (.ok xml),_) => some xml
    | _ => none

variable (tokenizer parseF32 project) in
/-- A message means what it would mean to any other decompressor with as large a buffer. -/
theorem handle_eq (hl : Lawful inflate) (hf : Forgetful inflate reset Same) {d d₀ : Decompressor σ}
    (hbuf : d.buf.length = d₀.buf.length) (frames : List (List UInt8)) :
    ∃ d', handle (ε := ε) inflate reset tokenizer parseF32 project d frames =
        (((content inflate reset d₀ frames).map (trainsOf tokenizer parseF32 project)).toList,.inl d') ∧
      d'.buf.length = d₀.buf.length := by
  rw [handle,content]
  by_cases hshort : frames.length < 2
  · rw [if_pos hshort,if_pos hshort]
    exact ⟨d,rfl,hbuf⟩
  · rw [if_neg hshort,if_neg hshort]
    dsimp only
    have hfuel : fuelFor d₀ (frames.getD 1 []) = fuelFor d (frames.getD 1 []) := by
      rw [fuelFor,fuelFor,hbuf]
    obtain ⟨r,d',hd⟩ := inflateGzip_returns hl reset d (frames.getD 1 [])
    have hsame := (inflateGzip_forgets hl hf (fuelFor d (frames.getD 1 [])) hbuf
      (frames.getD 1 [])).2
    rw [hfuel]
    rw [hd] at hsame ⊢
    generalize (inflateGzip inflate reset _ d₀ _).2 = left at hsame ⊢
    cases hsame with
    | some h =>
      rename_i left
      obtain ⟨outcome,d₁⟩ := left
      obtain ⟨hout,hlen,-⟩ := h
      obtain rfl : Outcome.returned r = outcome := hout
      refine ⟨d',?_,hlen.trans hbuf⟩
      cases r with
      | error e => rfl
      | ok xml => rfl

theorem turn_ok {s : State σ ε} {frames : List (List UInt8)} {sub : Subscriber ε}
    {trains : List (List Enrichment.Train)} {d' : Decompressor σ} (h : recv s.sub = .ok frames sub)
    (hhandle : handle (ε := ε) inflate reset tokenizer parseF32 project s.decompressor frames =
      (trains,.inl d')) :
    turn inflate reset tokenizer parseF32 project s = (trains,.inl ⟨sub,d'⟩) := by
  rw [turn,h]
  dsimp only
  rw [hhandle]

theorem turn_error {s : State σ ε} {e : Zmq.Error ε} {sub : Subscriber ε}
    (h : recv s.sub = .error e sub) :
    turn inflate reset tokenizer parseF32 project s = ([],.inr (.recv e)) := by
  rw [turn,h]

variable {msgs : List Message} {trailing : List Command} {k fuel : ℕ}

theorem toList_append_filterMap {α β : Type} (f : α → Option β) (a : α) (l : List α) :
    (f a).toList ++ l.filterMap f = (a :: l).filterMap f := by
  rw [List.filterMap_cons]
  cases f a <;> rfl

variable (inflate reset tokenizer parseF32 project ε) in
/-- With a buffer of `n` bytes the message comes to `means`, and leaves such a buffer. -/
def Handles (n : ℕ) (means : Option (List Enrichment.Train)) (m : Message) : Prop :=
  ∀ d : Decompressor σ, d.buf.length = n →
    ∃ d', handle (ε := ε) inflate reset tokenizer parseF32 project d m.bodies = (means.toList,.inl d') ∧
      d'.buf.length = n

/-- The turns over a stream, one for each message that is complete. -/
theorem run_stream {s : State σ ε} {n : ℕ} {means : Message → Option (List Enrichment.Train)}
    (hmeans : ∀ m ∈ msgs, Handles ε inflate reset tokenizer parseF32 project n (means m) m)
    (hbuf : s.decompressor.buf.length = n)
    (hfit : Fits s.sub.maxFrameSize (msgs.flatMap Message.frames ++ trailing.map Command.frame))
    (hunread : s.sub.unread = (encodeStream msgs trailing).take k) (hfuel : msgs.length < fuel) :
    Loop.run (turn inflate reset tokenizer parseF32 project) fuel s =
      ((complete k msgs).filterMap means,some (.recv (endError s.sub))) := by
  induction msgs generalizing s k fuel with
  | nil =>
    obtain ⟨fuel,rfl⟩ := Nat.exists_eq_succ_of_ne_zero (Nat.ne_of_gt (Nat.zero_lt_of_lt hfuel))
    obtain ⟨s',herr,-⟩ := recv_trailing hfit hunread
    rw [Loop.run_of_exit (turn_error herr)]
    rfl
  | cons m msgs ih =>
    obtain ⟨fuel,rfl⟩ := Nat.exists_eq_succ_of_ne_zero (Nat.ne_of_gt (Nat.zero_lt_of_lt hfuel))
    have hstream : encodeStream (m :: msgs) trailing =
        encodeAll m.frames ++ encodeStream msgs trailing := by
      rw [encodeStream,encodeStream,List.flatMap_cons,List.append_assoc,encodeAll_append]
    rw [List.flatMap_cons,List.append_assoc] at hfit
    have hfit₁ : Fits s.sub.maxFrameSize m.frames := fun f hf => hfit f (List.mem_append_left _ hf)
    rw [hstream] at hunread
    rw [complete]
    split
    · next hle =>
      rw [List.take_append,List.take_of_length_le hle] at hunread
      obtain ⟨sub,hrecv,htook⟩ := recv_message hfit₁ hunread
      obtain ⟨d',hhandle,hbuf'⟩ := hmeans m List.mem_cons_self _ hbuf
      have hrest := ih (s := ⟨sub,d'⟩) (fun m hm => hmeans m (List.mem_cons_of_mem _ hm)) hbuf'
        (fun f hf => htook.maxFrameSize ▸ hfit f (List.mem_append_right _ hf))
        (htook.unread_eq hunread) (Nat.lt_of_succ_lt_succ hfuel)
      rw [Loop.run_of_next (turn_ok hrecv hhandle),hrest,show endError sub = _ from htook.endError]
      dsimp only
      rw [toList_append_filterMap]
    · next hgt =>
      rw [List.take_append_of_le_length (by omega)] at hunread
      obtain ⟨s',herr,-⟩ := recv_cut hfit₁ (by omega) hunread
      rw [Loop.run_of_exit (turn_error herr)]
      rfl

variable (parseF32 project) in
/-- The trains of a feed document are projected one by one. -/
theorem trainsOf_document {xml : String} {d : FeedDocument}
    (h : tokenizer xml = d.tokens.map Except.ok) :
    trainsOf tokenizer parseF32 project xml = (d.trains parseF32).map (projected project) := by
  have htokens : (tokenizer xml).filterMap Except.toOption = d.tokens := by
    rw [h,List.filterMap_map]
    exact List.filterMap_some
  obtain ⟨q,hq⟩ := reads_document d
  rw [trainsOf,parse,htokens,show Transducer.run _ _ _ = _ from hq]

variable (tokenizer parseF32 project k fuel) (d₀ : Decompressor σ) in
/-- A task that has started reads a stream, however the socket cuts it into reads, into the
trains of its complete messages, in order and each as if it came first: those that cannot
be read are skipped, and what carries a feed document gives the trains of the document. -/
theorem reads_stream (hl : Lawful inflate) (hf : Forgetful inflate reset Same) {socket : Socket ε}
    {state : σ} {buf : List UInt8} {s : State σ ε} (hstart : start socket state buf = .ok s)
    (hfit : Fits zmqFrameCap (msgs.flatMap Message.frames ++ trailing.map Command.frame))
    (hunread : s.sub.unread = (encodeStream msgs trailing).take k) (hfuel : msgs.length < fuel)
    (hbuf : d₀.buf.length = buf.length) :
    ∃ texts, texts = (complete k msgs).filterMap (fun m => content inflate reset d₀ m.bodies) ∧
      Loop.run (turn inflate reset tokenizer parseF32 project) fuel s =
        (texts.map (trainsOf tokenizer parseF32 project),
          some (.recv (endError ⟨socket,zmqFrameCap⟩))) ∧
      ∀ xml ∈ texts, ∀ d : FeedDocument, tokenizer xml = d.tokens.map Except.ok →
        trainsOf tokenizer parseF32 project xml = (d.trains parseF32).map (projected project) := by
  obtain ⟨hmax,hd,hend⟩ := start_ok hstart
  refine ⟨_,rfl,?_,fun xml _ d h => trainsOf_document parseF32 project h⟩
  have hmeans : ∀ m ∈ msgs, Handles ε inflate reset tokenizer parseF32 project d₀.buf.length
      ((content inflate reset d₀ m.bodies).map (trainsOf tokenizer parseF32 project)) m :=
    fun m _ d hd => handle_eq tokenizer parseF32 project hl hf hd m.bodies
  rw [run_stream hmeans (by rw [hd,hbuf]) (hmax ▸ hfit) hunread hfuel,List.map_filterMap,hend]

end Reading

/-- A message that is not compressed, then one with the text `A`. -/
def twoMessages : List Message := [⟨[⟨[],[7]⟩],⟨[],[0]⟩⟩,⟨[⟨[],topic⟩],⟨[],storedPayload⟩⟩]

/-- A peer that greets, is ready and sends the two messages. -/
def sendingPeer : Socket Unit where
  incoming := ⟨[⟨greeting ++ [4,6,5,82,69],by simp⟩,
    ⟨[65,68,89] ++ encodeStream twoMessages [],by simp⟩],none⟩
  outgoing := []
  outcomes := []

/-- The first message is skipped; in the second the tokenizer finds the sample document. -/
theorem reads_stream_two :
    let tokenizer : String → List (Except Unit Token) := fun xml =>
      if xml = "A" then sampleFeed.tokens.map .ok else []
    ∃ s, start sendingPeer () [7,7] = .ok s ∧
      Loop.run (turn inflateStored id tokenizer (fun _ => some 0) wgs84ToCanvas) 3 s =
        ([[⟨7,wgs84ToCanvas 0 0⟩]],some (.recv .unexpectedEof)) := by
  intro tokenizer
  have hpass : Passes sendingPeer zmqFrameCap greeting ⟨4,[6],[5,82,69,65,68,89],rfl⟩
      (encodeStream twoMessages []) :=
    ⟨by decide,by simp [Writes,sendingPeer],⟨rfl,⟨rfl,rfl⟩,by decide,rfl⟩,⟨by decide,rfl,by decide⟩⟩
  obtain ⟨s,hstart,hunread⟩ := start_passes hpass rfl () [7,7]
  have hfit : Fits zmqFrameCap
      (twoMessages.flatMap Message.frames ++ ([] : List Command).map Command.frame) := by
    unfold Fits
    decide
  have hcontent : (complete (encodeStream twoMessages []).length twoMessages).filterMap
      (fun m => content inflateStored id ⟨(),[1,2]⟩ m.bodies) = ["A"] := by
    decide +kernel
  obtain ⟨texts,htexts,hrun,hdocs⟩ := reads_stream tokenizer (fun _ => some (0 : ℚ))
    wgs84ToCanvas (encodeStream twoMessages []).length 3 ⟨(),[1,2]⟩ lawful_inflateStored
    forgetful_inflateStored hstart hfit (by rw [hunread,List.take_length]) (by decide) rfl
  rw [hcontent] at htexts
  subst htexts
  refine ⟨s,hstart,?_⟩
  rw [hrun,List.map_singleton,hdocs "A" (List.mem_singleton_self _) sampleFeed (if_pos rfl)]
  decide +kernel


end NsPixels.Feed
