import NsPixels.Lib.Source
import NsPixels.Lib.Slice
import Mathlib.Data.UInt

/-!
# The HTTP client: errors and the buffering reader

`BufferingReader` hands out the bytes that came in with the response header before it
reads on from the connection. On the target `usize` has 32 bits.
-/

namespace NsPixels.Reqwless

/-- `embedded_io::ErrorKind`. -/
inductive ErrorKind
  | other
  | notFound
  | permissionDenied
  | connectionRefused
  | connectionReset
  | connectionAborted
  | notConnected
  | addrInUse
  | addrNotAvailable
  | brokenPipe
  | alreadyExists
  | invalidInput
  | invalidData
  | timedOut
  | interrupted
  | unsupported
  | outOfMemory
  | writeZero
deriving DecidableEq

/-- The errors of the crate; `panicked` stands for a failed `unwrap`. -/
inductive Error
  | network (kind : ErrorKind)
  | codec
  | bufferTooSmall
  | incorrectBodyWritten
  | connectionAborted
  | panicked
deriving DecidableEq

def Error.kind : Error → ErrorKind
  | network kind => kind
  | connectionAborted => .connectionAborted
  | _ => .other

/-- `From<ReadExactError>`. -/
def Error.ofReadExact : ReadExactError ErrorKind → Error
  | .unexpectedEof => connectionAborted
  | .other e => network e

def newline : List UInt8 := [13,10]

/-- A connection, which may have a buffer of its own to consume from. -/
class TryBufRead (σ : Type) extends Source σ UInt8 ErrorKind where
  tryConsume : ℕ → σ → σ

instance : TryBufRead (ByteStream UInt8 ErrorKind) where
  tryConsume _ s := s

open Source

/-! ### The read buffer -/

/-- A buffer whose first `loaded` bytes have been read but not handed out. -/
@[ext] structure ReadBuffer where
  buffer : List UInt8
  loaded : ℕ
  loaded_le : loaded ≤ buffer.length

namespace ReadBuffer

variable (b : ReadBuffer)

/-- `fill_buf`: the bytes not handed out. -/
def ready : List UInt8 := b.buffer.take b.loaded

/-- Drop the first `n` of the loaded bytes and move the others to the front. -/
def shift (n : ℕ) : ReadBuffer where
  buffer := (Slice.copyWithin b.buffer n b.loaded 0).getD b.buffer
  loaded := b.loaded - n
  loaded_le := by
    have hle := b.loaded_le
    cases h : Slice.copyWithin b.buffer n b.loaded 0 with
    | none => exact (Nat.sub_le _ _).trans hle
    | some buffer =>
      rw [Option.getD_some,Slice.length_of_copyWithin h]
      exact (Nat.sub_le _ _).trans hle

/-- Consume `amt` bytes; the count of those that were not there is returned. -/
def consume (amt : ℕ) : ReadBuffer × ℕ := (b.shift (min amt b.loaded),amt - min amt b.loaded)

def read (cap : ℕ) : List UInt8 × ReadBuffer :=
  let amt := min b.loaded cap
  (b.buffer.take amt,(b.consume amt).1)

/-- The buffer after a read of the connection into it. -/
def load (got : List UInt8) : ReadBuffer where
  buffer := got ++ b.buffer.drop got.length
  loaded := got.length
  loaded_le := by
    rw [List.length_append]
    exact Nat.le_add_right _ _

/-- The buffer with fewer bytes counted as loaded. -/
def keep (n : ℕ) : ReadBuffer where
  buffer := b.buffer
  loaded := min n b.loaded
  loaded_le := (Nat.min_le_right _ _).trans b.loaded_le

variable {b} {amt cap n : ℕ}

theorem length_ready : b.ready.length = b.loaded := List.length_take_of_le b.loaded_le

/-- The move within the buffer is in range. -/
theorem shift_buffer (h : n ≤ b.loaded) :
    (b.shift n).buffer = b.ready.drop n ++ b.buffer.drop (b.loaded - n) := by
  change (Slice.copyWithin b.buffer n b.loaded 0).getD b.buffer = _
  rw [Slice.copyWithin_zero h b.loaded_le]
  rfl

theorem length_shift : (b.shift n).buffer.length = b.buffer.length := by
  change ((Slice.copyWithin b.buffer n b.loaded 0).getD b.buffer).length = _
  cases h : Slice.copyWithin b.buffer n b.loaded 0 with
  | none => rfl
  | some buffer => exact Slice.length_of_copyWithin h

theorem ready_shift : (b.shift n).ready = b.ready.drop n := by
  have hlen : (b.ready.drop n).length = b.loaded - n := by rw [List.length_drop,length_ready]
  rcases Nat.lt_or_ge b.loaded n with h | h
  · have hnone : (b.shift n).loaded = 0 := Nat.sub_eq_zero_of_le (Nat.le_of_lt h)
    rw [ready,hnone,List.take_zero,List.drop_of_length_le (by rw [length_ready]; omega)]
  · rw [ready,shift_buffer h,show (b.shift n).loaded = (b.ready.drop n).length from hlen.symm,
      List.take_left]

theorem shift_zero : b.shift 0 = b := by
  have hbuffer : (b.shift 0).buffer = b.buffer := by
    rw [shift_buffer (Nat.zero_le _),List.drop_zero,Nat.sub_zero,ready,List.take_append_drop]
  exact ReadBuffer.ext hbuffer (Nat.sub_zero _)

theorem read_fst : (b.read cap).1 = b.ready.take cap := by
  rw [read,ready,List.take_take,Nat.min_comm]

theorem ready_read : (b.read cap).2.ready = b.ready.drop cap := by
  rw [read,consume,ready_shift]
  rcases Nat.le_total b.loaded cap with h | h
  · rw [Nat.min_eq_left h,Nat.min_self,List.drop_eq_nil_of_le (Nat.le_of_eq length_ready),
      List.drop_eq_nil_of_le (length_ready.trans_le h)]
  · rw [Nat.min_eq_right h,Nat.min_eq_left h]

theorem length_read : (b.read cap).2.buffer.length = b.buffer.length := length_shift

theorem ready_load {got : List UInt8} : (b.load got).ready = got := List.take_left

theorem length_load {got : List UInt8} (h : got.length ≤ b.buffer.length) :
    (b.load got).buffer.length = b.buffer.length := by
  simp only [load,List.length_append,List.length_drop]
  omega

theorem ready_eq_nil_iff : b.ready = [] ↔ b.loaded = 0 := by
  rw [← List.length_eq_zero_iff,length_ready]

end ReadBuffer

/-! ### The buffering reader -/

structure BufferingReader (σ : Type) where
  buffer : ReadBuffer
  stream : σ

namespace BufferingReader

variable {σ : Type}

section Read

variable [Source σ UInt8 ErrorKind]

def read (cap : ℕ) : EStateM ErrorKind (BufferingReader σ) (List UInt8) := fun r =>
  if r.buffer.loaded ≠ 0 then
    let (got,buffer) := r.buffer.read cap
    .ok got { r with buffer := buffer }
  else
    match Source.read cap r.stream with
    | .ok got stream => .ok got { r with stream := stream }
    | .error e stream => .error e { r with stream := stream }

/-- `fill_buf` of a reader that is told to use its own buffer. -/
def fillBuf : EStateM ErrorKind (BufferingReader σ) (List UInt8) := fun r =>
  if r.buffer.loaded = 0 then
    match Source.read r.buffer.buffer.length r.stream with
    | .ok got stream => .ok (r.buffer.load got).ready { buffer := r.buffer.load got,stream := stream }
    | .error e stream => .error e { r with stream := stream }
  else .ok r.buffer.ready r

variable {r : BufferingReader σ} {cap : ℕ}

/-- The bytes to come: first those in the buffer. -/
def toCome (r : BufferingReader σ) : List UInt8 := r.buffer.ready ++ unread r.stream

theorem read_loaded (h : r.buffer.loaded ≠ 0) :
    read cap r = .ok (r.buffer.ready.take cap) { r with buffer := (r.buffer.read cap).2 } := by
  rw [read,if_pos h,← ReadBuffer.read_fst]

theorem read_stream (h : r.buffer.loaded = 0) : read cap r =
    match Source.read cap r.stream with
    | .ok got stream => .ok got { r with stream := stream }
    | .error e stream => .error e { r with stream := stream } := by
  rw [read,if_neg (not_not_intro h)]

theorem toCome_of_loaded_eq_zero (h : r.buffer.loaded = 0) : r.toCome = unread r.stream := by
  rw [toCome,ReadBuffer.ready_eq_nil_iff.mpr h,List.nil_append]

instance : Source (BufferingReader σ) UInt8 ErrorKind where
  read := read
  unread := toCome
  closing r := closing r.stream
  read_unread {r cap} hcap h := by
    by_cases hload : r.buffer.loaded = 0
    · rw [toCome_of_loaded_eq_zero hload] at h
      obtain ⟨got,s',hread,hne,hlen,hunread,hclosing⟩ := Source.read_unread hcap h
      refine ⟨got,{ r with stream := s' },by rw [read_stream hload,hread],hne,hlen,?_,hclosing⟩
      rw [toCome_of_loaded_eq_zero hload,hunread]
      exact congrArg (got ++ ·) (toCome_of_loaded_eq_zero (r := ⟨r.buffer,s'⟩) hload).symm
    · refine ⟨_,_,read_loaded hload,?_,?_,?_,rfl⟩
      · rw [Ne,List.take_eq_nil_iff,ReadBuffer.ready_eq_nil_iff,not_or]
        exact ⟨Nat.ne_of_gt hcap,hload⟩
      · exact List.length_take_le cap _
      · rw [toCome,toCome,ReadBuffer.ready_read,← List.append_assoc,List.take_append_drop]
  read_end {r cap} h := by
    obtain ⟨hready,hstream⟩ := List.append_eq_nil_iff.mp h
    rw [read_stream (ReadBuffer.ready_eq_nil_iff.mp hready),Source.read_end hstream]
    cases closing r.stream <;> rfl
  read_zero {r} h := by
    by_cases hload : r.buffer.loaded = 0
    · rw [toCome_of_loaded_eq_zero hload] at h
      rw [read_stream hload,Source.read_zero h]
    · rw [read_loaded hload,List.take_zero,ReadBuffer.read,ReadBuffer.consume,Nat.min_zero,
        Nat.zero_min,ReadBuffer.shift_zero]

/-- No read changes the size of the buffer. -/
theorem length_read : (read cap r).state.buffer.buffer.length = r.buffer.buffer.length := by
  by_cases hload : r.buffer.loaded = 0
  · rw [read_stream hload]
    cases Source.read cap r.stream <;> rfl
  · rw [read_loaded hload]
    exact ReadBuffer.length_read

theorem length_of_reached {r' : BufferingReader σ} (h : Reached r r') :
    r'.buffer.buffer.length = r.buffer.buffer.length :=
  h.invariant (P := fun s => s.buffer.buffer.length = r.buffer.buffer.length)
    (fun _ _ hs => length_read.trans hs) rfl

end Read

variable [TryBufRead σ]

/-- What the buffer does not hold is taken from the connection's own. -/
def consume (amt : ℕ) (r : BufferingReader σ) : BufferingReader σ :=
  let (buffer,unconsumed) := r.buffer.consume amt
  { buffer := buffer
    stream := if unconsumed > 0 then TryBufRead.tryConsume unconsumed r.stream else r.stream }

end BufferingReader

end NsPixels.Reqwless
