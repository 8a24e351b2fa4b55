import NsPixels.Lib.BigEndian
import NsPixels.Lib.ByteStream

/-!
# The ZeroMQ subscriber

Frames, messages and the handshake of `zmq.rs` over a socket whose reads may be cut
anywhere. On the target `usize` has 32 bits.
-/

namespace NsPixels.Zmq

open BigEndian

def flagMore : UInt8 := 0x01

def flagLong : UInt8 := 0x02

def flagCommand : UInt8 := 0x04

/-- Signature, version 3.0 and mechanism `NULL`, padded with zeros. -/
def greeting : List UInt8 :=
  [0xFF] ++ List.replicate 8 0 ++ [0x7F,0x03,0x00] ++ [78,85,76,76] ++ List.replicate 48 0

example : greeting.length = 64 := rfl

inductive Error (ε : Type)
  | io (e : ε)
  | unexpectedEof
  | invalidGreeting
  | unsupportedMechanism
  | unexpectedCommand
  | frameTooLarge
deriving DecidableEq

/-- A connected socket: the bytes to come, the bytes written, and the outcomes of the
writes and flushes to come, which succeed once the list is used up. -/
structure Socket (ε : Type) where
  incoming : ByteStream UInt8 ε
  outgoing : List UInt8
  outcomes : List (Option ε)

structure Subscriber (ε : Type) where
  socket : Socket ε
  maxFrameSize : UInt32

/-- The methods of a subscriber. -/
abbrev Method (ε : Type) := EStateM (Error ε) (Subscriber ε)

variable {ε : Type}

/-- The bytes still to be read. -/
def Subscriber.unread (s : Subscriber ε) : List UInt8 := s.socket.incoming.unread

/-- A subscriber whose socket has been read from. -/
def Subscriber.withIncoming (s : Subscriber ε) (incoming : ByteStream UInt8 ε) : Subscriber ε :=
  { s with socket := { s.socket with incoming := incoming } }

/-! ### Sending -/

/-- One write or flush of the socket. -/
def writeAll (bytes : List UInt8) : Method ε Unit := fun s =>
  match s.socket.outcomes with
  | some e :: _ => .error (.io e) s
  | none :: outcomes =>
    .ok () { s with socket := { s.socket with
      outgoing := s.socket.outgoing ++ bytes, outcomes := outcomes } }
  | [] => .ok () { s with socket := { s.socket with outgoing := s.socket.outgoing ++ bytes } }

def flush : Method ε Unit := writeAll []

/-- The header of a frame: its flags and its length in one byte or in eight. -/
def frameHeader (flags : UInt8) (body : List UInt8) : List UInt8 :=
  if body.length ≤ 255 then [flags &&& ~~~flagLong,UInt8.ofNat body.length]
  else (flags ||| flagLong) :: toBytes 8 body.length

def sendFrame (flags : UInt8) (body : List UInt8) : Method ε Unit := do
  writeAll (frameHeader flags body)
  writeAll body
  flush

/-! ### Receiving -/

/-- Read until `need` more bytes have been appended to `filled`. -/
def fill (need : ℕ) (filled : List UInt8) : Method ε (List UInt8) := fun s =>
  if _hneed : need = 0 then .ok filled s
  else
    match s.socket.incoming.read need with
    | (.error e,incoming) => .error (.io e) (s.withIncoming incoming)
    | (.ok got,incoming) =>
      if _hgot : got = [] then .error .unexpectedEof (s.withIncoming incoming)
      else fill (need - got.length) (filled ++ got) (s.withIncoming incoming)
termination_by need
decreasing_by
  have := List.length_pos_of_ne_nil _hgot
  omega

/-- Fill a buffer of `len` bytes. -/
def readExact (len : ℕ) : Method ε (List UInt8) := fill len []

/-- The length field, eight bytes or one. The cast of the eight-byte length to `usize`
drops its high half. -/
def recvLen (flags : UInt8) : Method ε UInt32 :=
  if flags &&& flagLong ≠ 0 then do
    let buf ← readExact 8
    pure (UInt64.ofNat (ofBytes buf)).toUInt32
  else do
    let buf ← readExact 1
    pure (buf.headD 0).toUInt32

/-- A body of `len` bytes, if the bound admits it. -/
def recvBody (len : UInt32) : Method ε (List UInt8) := fun s =>
  if len > s.maxFrameSize then .error .frameTooLarge s
  else readExact len.toNat s

/-- The flags and the body of the next frame. -/
def recvFrame : Method ε (UInt8 × List UInt8) := do
  let flagByte ← readExact 1
  let flags := flagByte.headD 0
  let len ← recvLen flags
  let body ← recvBody len
  pure (flags,body)

/-! ### The handshake -/

/-- A metadata property: name and value, each behind its length. -/
def pushProperty (out name value : List UInt8) : List UInt8 :=
  out ++ [UInt8.ofNat name.length] ++ name ++ toBytes 4 value.length ++ value

/-- The command `READY` with socket type `SUB`. -/
def buildReadyBody : List UInt8 :=
  pushProperty ([5] ++ [82,69,65,68,89]) [83,111,99,107,101,116,45,84,121,112,101] [83,85,66]

def handshake : Method ε Unit := do
  writeAll greeting
  flush
  let peer ← readExact 64
  if peer.getD 0 0 ≠ 0xFF ∨ peer.getD 9 0 ≠ 0x7F then throw .invalidGreeting
  if peer.getD 10 0 < 3 then throw .invalidGreeting
  if (peer.take 16).drop 12 ≠ [78,85,76,76] then throw .unsupportedMechanism
  sendFrame flagCommand buildReadyBody
  let (flags,_) ← recvFrame
  if flags &&& flagCommand = 0 then throw .unexpectedCommand

/-- A subscriber over a connected socket, once the handshake has succeeded. -/
def Subscriber.new (socket : Socket ε) (maxFrameSize : UInt32) :
    Except (Error ε) (Subscriber ε) :=
  match handshake ⟨socket,maxFrameSize⟩ with
  | .ok _ sub => .ok sub
  | .error e _ => .error e

def sendSubscription (op : UInt8) (topic : List UInt8) : Method ε Unit := sendFrame 0 (op :: topic)

def subscribe (topic : List UInt8) : Method ε Unit := sendSubscription 0x01 topic

def unsubscribe (topic : List UInt8) : Method ε Unit := sendSubscription 0x00 topic

end NsPixels.Zmq
