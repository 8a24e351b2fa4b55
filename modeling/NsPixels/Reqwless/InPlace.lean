import NsPixels.Reqwless.Chunked
import NsPixels.Lib.Loop

/-!
# Reading a chunked body in place

`read_to_end` decodes the body into the buffer that the coded bytes are read into. The
decoded front grows over the part of the buffer whose bytes have been consumed.
-/

namespace NsPixels.Reqwless

open Source

/-! ### Filling the buffer -/

namespace BufferingReader

variable {σ : Type} [Source σ UInt8 ErrorKind] {r r' : BufferingReader σ} {got : List UInt8}

/-- `r'` has the bytes of `r` after `l` to come, in a buffer of the same size. -/
structure Ahead (r : BufferingReader σ) (l : List UInt8) (r' : BufferingReader σ) : Prop where
  toCome : r.toCome = l ++ r'.toCome
  closing : closing r'.stream = closing r.stream
  length : r'.buffer.buffer.length = r.buffer.buffer.length

theorem Ahead.of_took {l : List UInt8} (h : Took r l r') : Ahead r l r' :=
  ⟨h.unread,h.closing,length_of_reached h.reached⟩

theorem Ahead.trans {l l' : List UInt8} {r'' : BufferingReader σ} (h : Ahead r l r')
    (h' : Ahead r' l' r'') : Ahead r (l ++ l') r'' :=
  ⟨by rw [h.toCome,h'.toCome,List.append_assoc],h'.closing.trans h.closing,h'.length.trans h.length⟩

/-- Filling the buffer loses nothing. -/
theorem fillBuf_ok (h : fillBuf r = .ok got r') : got = r'.buffer.ready ∧ Ahead r [] r' := by
  rw [fillBuf] at h
  split at h
  · next hload =>
    split at h
    · next bytes stream hread =>
      obtain ⟨rfl,rfl⟩ := EStateM.Result.ok.inj h
      obtain ⟨hlen,htook⟩ := took_of_read_ok hread
      refine ⟨rfl,?_,htook.closing,ReadBuffer.length_load hlen⟩
      rw [toCome_of_loaded_eq_zero hload,htook.unread,List.nil_append,BufferingReader.toCome,
        ReadBuffer.ready_load]
    · cases h
  · obtain ⟨rfl,rfl⟩ := EStateM.Result.ok.inj h
    exact ⟨rfl,rfl,rfl,rfl⟩

/-- While there are bytes to come and the buffer has room, some are loaded. -/
theorem fillBuf_of_ne_nil (hroom : r.buffer.buffer ≠ []) (h : r.toCome ≠ []) :
    ∃ got r', fillBuf r = .ok got r' ∧ got ≠ [] := by
  rw [fillBuf]
  split
  · next hload =>
    rw [toCome_of_loaded_eq_zero hload] at h
    obtain ⟨got,s',hread,hne,_⟩ := read_unread (List.length_pos_of_ne_nil hroom) h
    exact ⟨_,_,by rw [hread],by rwa [ReadBuffer.ready_load]⟩
  · next hload =>
    refine ⟨_,_,rfl,?_⟩
    rwa [Ne,ReadBuffer.ready_eq_nil_iff]

theorem fillBuf_end (h : r.toCome = []) :
    ∃ r', fillBuf r = (closing r.stream).elim (.ok [] r') fun e => .error e r' := by
  obtain ⟨hready,hstream⟩ := List.append_eq_nil_iff.mp h
  rw [fillBuf,if_pos (ReadBuffer.ready_eq_nil_iff.mp hready),read_end hstream]
  cases closing r.stream with
  | none => exact ⟨_,rfl⟩
  | some e => exact ⟨_,rfl⟩

end BufferingReader

namespace ReadBuffer

variable (b : ReadBuffer)

/-- The buffer from its `n`th byte on. -/
def dropFront (n loaded : ℕ) (h : loaded ≤ b.buffer.length - n) : ReadBuffer where
  buffer := b.buffer.drop n
  loaded := loaded
  loaded_le := by rwa [List.length_drop]

variable {b} {k n : ℕ}

theorem length_consume : (b.consume n).1.buffer.length = b.buffer.length := length_shift

/-- Consuming all bytes still counted leaves the buffer as it stands. -/
theorem consume_keep (h : k ≤ b.loaded) :
    ((b.keep k).consume k).1.buffer = b.buffer ∧ ((b.keep k).consume k).1.loaded = 0 ∧
      ((b.keep k).consume k).2 = 0 := by
  have hkeep : (b.keep k).loaded = k := Nat.min_eq_left h
  have hlen : (b.keep k).ready.length = k := length_ready.trans hkeep
  have hbuffer : ((b.keep k).shift k).buffer = b.buffer := by
    rw [shift_buffer (Nat.le_of_eq hkeep.symm),hkeep,Nat.sub_self,List.drop_zero,
      List.drop_eq_nil_of_le (Nat.le_of_eq hlen),List.nil_append]
    rfl
  rw [consume,hkeep,Nat.min_self,Nat.sub_self]
  refine ⟨hbuffer,?_,rfl⟩
  change (b.keep k).loaded - k = 0
  rw [hkeep,Nat.sub_self]

end ReadBuffer

/-! ### The loop -/

/-- The variables of the loop: the part of the buffer that has been split off, and the
reader over the rest of it. -/
structure InPlace (σ : Type) where
  front : List UInt8
  reader : ChunkedBodyReader (BufferingReader σ)
  len : ℕ

namespace ChunkedBodyReader

variable {σ : Type} [TryBufRead σ] (hex : Hex.Codec)

def fillBuf : Method (BufferingReader σ) (List UInt8) := do
  let remaining ← handleChunkBoundary hex
  if remaining = 0 then return []
  else do
    let buf ← onRawBody .network BufferingReader.fillBuf
    return buf.take remaining

def consume (amt : ℕ) (r : ChunkedBodyReader (BufferingReader σ)) :
    ChunkedBodyReader (BufferingReader σ) :=
  let (chunkRemaining,consumed) := r.chunkRemaining.consume amt
  ⟨r.rawBody.consume consumed,chunkRemaining⟩

/-- A reader with another buffer. -/
def withBuffer (r : ChunkedBodyReader (BufferingReader σ)) (b : ReadBuffer) :
    ChunkedBodyReader (BufferingReader σ) :=
  { r with rawBody := { r.rawBody with buffer := b } }

theorem length_consume (r : ChunkedBodyReader (BufferingReader σ)) (n : ℕ) :
    (consume n (r.withBuffer (r.rawBody.buffer.keep n))).rawBody.buffer.buffer.length =
      r.rawBody.buffer.buffer.length :=
  ReadBuffer.length_consume

/-- After the loop: the whole buffer up to `len`. -/
def finish (t : InPlace σ) :
    EStateM.Result Error (ChunkedBodyReader (BufferingReader σ)) (List UInt8) :=
  if t.reader.isDone then .ok ((t.front ++ t.reader.rawBody.buffer.buffer).take t.len) t.reader
  else .error .bufferTooSmall t.reader

/-- One turn of the loop. -/
def turn (t : InPlace σ) : List Empty × (InPlace σ ⊕
    EStateM.Result Error (ChunkedBodyReader (BufferingReader σ)) (List UInt8)) :=
  if t.reader.rawBody.buffer.buffer = [] then ([],.inr (finish t))
  else
    match fillBuf hex t.reader with
    | .error e r => ([],.inr (.error e r))
    | .ok read r =>
      let b := r.rawBody.buffer
      let r' := consume read.length (r.withBuffer (b.keep read.length))
      if r'.isDone then ([],.inr (finish ⟨t.front,r',t.len + read.length⟩))
      else
        let consumedFromBuffer := (b.keep read.length).loaded - r'.rawBody.buffer.loaded
        -- the bytes loaded beyond the ones consumed are still there
        let rest := r'.rawBody.buffer.dropFront consumedFromBuffer (b.loaded - consumedFromBuffer)
          (Nat.sub_le_sub_right (b.loaded_le.trans_eq (length_consume r read.length).symm) _)
        ([],.inl ⟨t.front ++ r'.rawBody.buffer.buffer.take consumedFromBuffer,r'.withBuffer rest,
          t.len + read.length⟩)

/-- The loop, cut off after `fuel` turns. -/
def readToEnd (fuel : ℕ) (r : ChunkedBodyReader (BufferingReader σ)) :
    Option (EStateM.Result Error (ChunkedBodyReader (BufferingReader σ)) (List UInt8)) :=
  (Loop.run (turn hex) fuel ⟨[],r,0⟩).2

/-! ### One turn -/

section Turn

variable {hex} {r r' : ChunkedBodyReader (BufferingReader σ)} {read body wire tail : List UInt8}
  {n : ℕ} {t : InPlace σ}

/-- Bytes handed out by `fillBuf` are data of the coding, at the front of the buffer. -/
theorem fillBuf_ok (h : fillBuf hex r = .ok read r') : ∃ head n,
    BufferingReader.Ahead r.rawBody head r'.rawBody ∧ r'.chunkRemaining = .ofLen n ∧
      read = r'.rawBody.buffer.ready.take n ∧
      ∀ body wire, Rest hex (.ofLen n) body wire → Rest hex r.chunkRemaining body (head ++ wire) := by
  obtain ⟨n,r₁,hboundary,h⟩ := EStateM.exists_of_bind_eq_ok h
  obtain ⟨head,htook,hstate,hrest⟩ := handleChunkBoundary_ok hboundary
  refine ⟨head,n,?_⟩
  split at h
  · next hn =>
    obtain ⟨rfl,rfl⟩ := EStateM.Result.ok.inj h
    exact ⟨.of_took htook,hstate,by rw [hn,List.take_zero],hrest⟩
  · obtain ⟨got,r₂,hfill,h⟩ := EStateM.exists_of_bind_eq_ok h
    obtain ⟨hfill,hstate'⟩ := of_onRawBody_ok hfill
    obtain ⟨rfl,hahead⟩ := BufferingReader.fillBuf_ok hfill
    obtain ⟨rfl,rfl⟩ := EStateM.Result.ok.inj h
    have hall := (BufferingReader.Ahead.of_took htook).trans hahead
    rw [List.append_nil] at hall
    exact ⟨hall,hstate'.trans hstate,rfl,hrest⟩

/-- On a coded body `fillBuf` hands out some data, until there is none. -/
theorem fillBuf_append (hroom : r.rawBody.buffer.buffer ≠ [])
    (hrest : Rest hex r.chunkRemaining body wire) (h : r.rawBody.toCome = wire ++ tail) :
    ∃ n read r' head wire', fillBuf hex r = .ok read r' ∧ wire = head ++ wire' ∧
      BufferingReader.Ahead r.rawBody head r'.rawBody ∧ r'.chunkRemaining = .ofLen n ∧
      read = r'.rawBody.buffer.ready.take n ∧ Rest hex (.ofLen n) body wire' ∧
      (0 < n → read ≠ []) := by
  obtain ⟨n,r₁,head,wire',hboundary,rfl,htook,hstate,hrest⟩ := handleChunkBoundary_append hrest h
  have hahead := BufferingReader.Ahead.of_took htook
  rw [List.append_assoc] at h
  have hcome : r₁.rawBody.toCome = wire' ++ tail := htook.unread_eq h
  rcases Nat.eq_zero_or_pos n with rfl | hpos
  · refine ⟨0,[],r₁,head,wire',?_,rfl,hahead,hstate,rfl,hrest,fun h => absurd h (Nat.lt_irrefl 0)⟩
    exact (EStateM.bind_of_ok hboundary).trans rfl
  · have hne : r₁.rawBody.toCome ≠ [] := by
      rw [ofLen_of_pos hpos] at hrest
      cases hrest with
      | notEmpty hdata _ =>
        rw [hcome]
        exact List.append_ne_nil_of_left_ne_nil (List.append_ne_nil_of_left_ne_nil
          (List.append_ne_nil_of_left_ne_nil (List.ne_nil_of_length_pos (hdata ▸ hpos)) _) _) _
    have hroom' : r₁.rawBody.buffer.buffer ≠ [] := by
      rw [← List.length_pos_iff,hahead.length,List.length_pos_iff]
      exact hroom
    obtain ⟨got,r₂,hfill,hgot⟩ := BufferingReader.fillBuf_of_ne_nil hroom' hne
    obtain ⟨rfl,hahead'⟩ := BufferingReader.fillBuf_ok hfill
    have hall := hahead.trans hahead'
    rw [List.append_nil] at hall
    refine ⟨n,_,⟨r₂,r₁.chunkRemaining⟩,head,wire',?_,rfl,hall,hstate,rfl,hrest,?_⟩
    · apply (EStateM.bind_of_ok hboundary).trans
      rw [if_neg (Nat.ne_of_gt hpos)]
      exact (EStateM.bind_of_ok (onRawBody_ok hfill)).trans rfl
    · intro _
      rw [Ne,List.take_eq_nil_iff,not_or]
      exact ⟨Nat.ne_of_gt hpos,hgot⟩

theorem turn_full (h : t.reader.rawBody.buffer.buffer = []) : turn hex t = ([],.inr (finish t)) := by
  rw [turn,if_pos h]

theorem turn_error {e : Error} (hroom : t.reader.rawBody.buffer.buffer ≠ [])
    (h : fillBuf hex t.reader = .error e r) : turn hex t = ([],.inr (.error e r)) := by
  rw [turn,if_neg hroom,h]

omit [TryBufRead σ] in
theorem finish_of_done (h : t.reader.isDone = true) (hlen : t.len = t.front.length) :
    finish t = .ok t.front t.reader := by
  rw [finish,if_pos h,hlen,List.take_left]

/-- Past the last chunk the loop is left with what has been split off. -/
theorem turn_done (hroom : t.reader.rawBody.buffer.buffer ≠ [])
    (h : fillBuf hex t.reader = .ok [] r) (hstate : r.chunkRemaining = .empty)
    (hlen : t.len = t.front.length) :
    ∃ r', turn hex t = ([],.inr (.ok t.front r')) ∧ r'.rawBody.stream = r.rawBody.stream := by
  obtain ⟨rawBody,chunkRemaining⟩ := r
  obtain rfl : chunkRemaining = .empty := hstate
  refine ⟨consume 0 (withBuffer ⟨rawBody,.empty⟩ (rawBody.buffer.keep 0)),?_,rfl⟩
  have hfinish := finish_of_done
    (t := ⟨t.front,consume 0 (withBuffer ⟨rawBody,.empty⟩ (rawBody.buffer.keep 0)),t.len⟩) rfl hlen
  rw [turn,if_neg hroom,h]
  exact congrArg (fun x => (([] : List Empty),Sum.inr x)) hfinish

/-- Consuming the data handed out: nothing is moved, and the connection is left alone. -/
theorem consume_notEmpty {k : ℕ} (hstate : r.chunkRemaining = .notEmpty n) (hn : k ≤ n)
    (hk : k ≤ r.rawBody.buffer.loaded) :
    ∃ b : ReadBuffer, b.buffer = r.rawBody.buffer.buffer ∧ b.loaded = 0 ∧
      consume k (r.withBuffer (r.rawBody.buffer.keep k)) =
        ⟨⟨b,r.rawBody.stream⟩,.notEmpty (n - k)⟩ := by
  obtain ⟨hbuffer,hloaded,hunconsumed⟩ := ReadBuffer.consume_keep hk
  refine ⟨_,hbuffer,hloaded,?_⟩
  have hchunk : (withBuffer r (r.rawBody.buffer.keep k)).chunkRemaining.consume k =
      (.notEmpty (n - k),k) := by
    rw [withBuffer,hstate,ChunkState.consume,Nat.min_eq_left hn]
  rw [consume,hchunk]
  simp only [withBuffer,BufferingReader.consume,hunconsumed]
  rw [if_neg (Nat.lt_irrefl 0)]

/-- Within a chunk, what was handed out is split off. -/
theorem turn_next (hroom : t.reader.rawBody.buffer.buffer ≠ [])
    (h : fillBuf hex t.reader = .ok read r) (hstate : r.chunkRemaining = .notEmpty n)
    (hread : read = r.rawBody.buffer.ready.take n) :
    ∃ t', turn hex t = ([],.inl t') ∧ t'.front = t.front ++ read ∧ t'.len = t.len + read.length ∧
      t'.reader.chunkRemaining = .notEmpty (n - read.length) ∧
      r.rawBody.toCome = read ++ t'.reader.rawBody.toCome ∧
      t'.reader.rawBody.stream = r.rawBody.stream ∧
      t'.reader.rawBody.buffer.buffer.length + read.length = r.rawBody.buffer.buffer.length := by
  have hlen : read.length = min n r.rawBody.buffer.loaded := by
    rw [hread,List.length_take,ReadBuffer.length_ready]
  have hle := r.rawBody.buffer.loaded_le
  obtain ⟨b,hbuffer,hloaded,hconsume⟩ := consume_notEmpty (k := read.length) hstate (by omega)
    (by omega)
  have hfront : read = r.rawBody.buffer.buffer.take read.length := by
    rw [hlen]
    rw [hread,ReadBuffer.ready,List.take_take]
  have hkeep : (r.rawBody.buffer.keep read.length).loaded = read.length :=
    Nat.min_eq_left (by omega)
  have hdone : ¬ (consume read.length (r.withBuffer
      (r.rawBody.buffer.keep read.length))).isDone = true := by
    rw [hconsume]
    exact fun h => by cases h
  have hconsumed : (r.rawBody.buffer.keep read.length).loaded -
      (consume read.length (r.withBuffer
        (r.rawBody.buffer.keep read.length))).rawBody.buffer.loaded = read.length := by
    rw [hconsume,hkeep,hloaded,Nat.sub_zero]
  refine ⟨_,(show turn hex t = _ by rw [turn,if_neg hroom,h]; exact if_neg hdone),?_,rfl,?_⟩
  · simp only [hconsumed]
    rw [hconsume,hbuffer,← hfront]
  · simp only [withBuffer] at hconsume hconsumed
    simp only [BufferingReader.toCome,ReadBuffer.ready,ReadBuffer.dropFront,withBuffer,hconsumed]
    rw [hconsume,hbuffer,List.length_drop,← List.drop_take,← List.append_assoc]
    refine ⟨rfl,?_,rfl,by omega⟩
    congr 1
    have htake : read = (r.rawBody.buffer.buffer.take r.rawBody.buffer.loaded).take read.length := by
      rw [List.take_take,Nat.min_eq_left (by omega)]
      exact hfront
    calc r.rawBody.buffer.buffer.take r.rawBody.buffer.loaded
        = (r.rawBody.buffer.buffer.take r.rawBody.buffer.loaded).take read.length ++
            (r.rawBody.buffer.buffer.take r.rawBody.buffer.loaded).drop read.length :=
          (List.take_append_drop _ _).symm
      _ = _ := by rw [← htake]

/-! ### Runs -/

/-- What holds whenever the loop goes on. -/
structure Going (t : InPlace σ) : Prop where
  len : t.len = t.front.length
  notDone : t.reader.chunkRemaining ≠ .empty

/-- What one turn does to the coding: an error, the end of the body, or more data. -/
theorem turn_cases (hgoing : Going t) :
    (∃ e r', turn hex t = ([],.inr (.error e r'))) ∨
    (∃ head lost r', turn hex t = ([],.inr (.ok t.front r')) ∧ t.reader.rawBody.buffer.buffer ≠ [] ∧
      Rest hex t.reader.chunkRemaining [] head ∧
      t.reader.rawBody.toCome = head ++ (lost ++ unread r'.rawBody.stream)) ∨
    ∃ head read t', turn hex t = ([],.inl t') ∧ Going t' ∧ t'.front = t.front ++ read ∧
      t.reader.rawBody.toCome = head ++ (read ++ t'.reader.rawBody.toCome) ∧
      t'.reader.rawBody.buffer.buffer.length + read.length =
        t.reader.rawBody.buffer.buffer.length ∧
      ∀ body wire, Rest hex t'.reader.chunkRemaining body wire →
        Rest hex t.reader.chunkRemaining (read ++ body) (head ++ (read ++ wire)) := by
  by_cases hroom : t.reader.rawBody.buffer.buffer = []
  · refine .inl ⟨.bufferTooSmall,t.reader,?_⟩
    rw [turn_full hroom,finish,if_neg]
    rw [isDone,decide_eq_true_eq]
    exact hgoing.notDone
  · cases hfill : fillBuf hex t.reader with
    | error e r => exact .inl ⟨e,r,turn_error hroom hfill⟩
    | ok read r =>
      obtain ⟨head,n,hahead,hstate,hread,hrest⟩ := fillBuf_ok hfill
      rcases Nat.eq_zero_or_pos n with rfl | hpos
      · obtain rfl : read = [] := hread
        obtain ⟨r',hturn,hstream⟩ := turn_done hroom hfill hstate hgoing.len
        have hrest := hrest [] [] .empty
        rw [List.append_nil] at hrest
        refine .inr (.inl ⟨head,r.rawBody.buffer.ready,r',hturn,hroom,hrest,?_⟩)
        rw [hahead.toCome,hstream]
        rfl
      · rw [ofLen_of_pos hpos] at hstate hrest
        obtain ⟨t',hturn,hfront,hlen,hstate',hcome,_,hroom'⟩ := turn_next hroom hfill hstate hread
        have hle : read.length ≤ n := by
          rw [hread,List.length_take]
          exact Nat.min_le_left _ _
        refine .inr (.inr ⟨head,read,t',hturn,⟨?_,?_⟩,hfront,?_,?_,fun body wire h => ?_⟩)
        · rw [hlen,hfront,List.length_append,hgoing.len]
        · rw [hstate']
          exact fun h => by cases h
        · rw [hahead.toCome,hcome]
        · rw [hroom',hahead.length]
        · rw [hstate'] at h
          exact hrest _ _ (rest_of_consume hle h)

/-- The body that a run returns was coded in the bytes it took. -/
theorem run_ok {fuel : ℕ} (hgoing : Going t)
    (h : (Loop.run (turn hex) fuel t).2 = some (.ok read r')) :
    ∃ body wire lost, read = t.front ++ body ∧ Rest hex t.reader.chunkRemaining body wire ∧
      t.reader.rawBody.toCome = wire ++ (lost ++ unread r'.rawBody.stream) ∧
      body.length < t.reader.rawBody.buffer.buffer.length := by
  induction fuel generalizing t with
  | zero => cases h
  | succ fuel ih =>
    rcases turn_cases hgoing with ⟨e,r,hturn⟩ | ⟨head,lost,r,hturn,hroom,hrest,hcome⟩ |
      ⟨head,got,t',hturn,hgoing',hfront,hcome,hroom,hrest⟩
    · rw [Loop.run_of_exit hturn] at h
      cases h
    · rw [Loop.run_of_exit hturn] at h
      obtain ⟨rfl,rfl⟩ := EStateM.Result.ok.inj (Option.some.inj h)
      exact ⟨[],head,lost,(List.append_nil _).symm,hrest,hcome,List.length_pos_of_ne_nil hroom⟩
    · rw [Loop.run_of_next hturn] at h
      obtain ⟨body,wire,lost,rfl,hbody,htail,hlen⟩ := ih hgoing' h
      refine ⟨got ++ body,head ++ (got ++ wire),lost,?_,hrest body wire hbody,?_,?_⟩
      · rw [hfront,List.append_assoc]
      · rw [hcome,htail]
        simp only [List.append_assoc]
      · rw [List.length_append]
        omega

/-- On a coded body every run with fuel for it ends, with the body if there is room. -/
theorem run_coded {fuel : ℕ} (hgoing : Going t) (hrest : Rest hex t.reader.chunkRemaining body wire)
    (h : t.reader.rawBody.toCome = wire ++ tail) (hfuel : body.length < fuel) :
    (body.length < t.reader.rawBody.buffer.buffer.length →
      ∃ r', (Loop.run (turn hex) fuel t).2 = some (.ok (t.front ++ body) r')) ∧
    (t.reader.rawBody.buffer.buffer.length ≤ body.length →
      ∃ r', (Loop.run (turn hex) fuel t).2 = some (.error .bufferTooSmall r')) := by
  induction fuel generalizing t body wire with
  | zero => omega
  | succ fuel ih =>
    by_cases hroom : t.reader.rawBody.buffer.buffer = []
    · have hfinish : finish t = .error .bufferTooSmall t.reader := by
        rw [finish,if_neg]
        rw [isDone,decide_eq_true_eq]
        exact hgoing.notDone
      refine ⟨fun hlt => by simp [hroom] at hlt,fun _ => ⟨t.reader,?_⟩⟩
      rw [Loop.run_of_exit (turn_full hroom),hfinish]
    · obtain ⟨n,read,r,head,wire',hfill,rfl,hahead,hstate,hread,hrest',hprogress⟩ :=
        fillBuf_append hroom hrest h
      rcases Nat.eq_zero_or_pos n with rfl | hpos
      · obtain rfl : read = [] := hread
        obtain ⟨r',hturn,-⟩ := turn_done hroom hfill hstate hgoing.len
        cases hrest'
        have hpos := List.length_pos_of_ne_nil hroom
        refine ⟨fun _ => ⟨r',?_⟩,fun hle => by rw [List.length_nil] at hle; omega⟩
        rw [Loop.run_of_exit hturn,List.append_nil]
      · rw [ofLen_of_pos hpos] at hstate hrest'
        obtain ⟨t',hturn,hfront,hlen,hstate',hcome,_,hroom'⟩ := turn_next hroom hfill hstate hread
        have hle : read.length ≤ n := by
          rw [hread,List.length_take]
          exact Nat.min_le_left _ _
        have hcome' : wire' ++ tail = read ++ t'.reader.rawBody.toCome := by
          rw [hahead.toCome,List.append_assoc] at h
          rw [← List.append_cancel_left h,hcome]
        obtain ⟨body',wire'',rfl,rfl,hrest''⟩ := exists_rest_of_front hrest' hle hcome'
        rw [List.append_assoc] at hcome'
        have hgoing' : Going t' := by
          refine ⟨by rw [hlen,hfront,List.length_append,hgoing.len],?_⟩
          rw [hstate']
          exact fun h => by cases h
        have hgot := List.length_pos_of_ne_nil (hprogress hpos)
        rw [List.length_append] at hfuel ⊢
        rw [← hahead.length,← hroom']
        obtain ⟨hok,hsmall⟩ := ih hgoing' (hstate' ▸ hrest'') (List.append_cancel_left hcome').symm
          (by omega)
        rw [hfront,List.append_assoc] at hok
        rw [Loop.run_of_next hturn]
        exact ⟨fun hlt => hok (by omega),fun hle => hsmall (by omega)⟩

end Turn

/-! ### Whole bodies -/

section Whole

variable {hex} {r : BufferingReader σ} {r' : ChunkedBodyReader (BufferingReader σ)}
  {body wire tail : List UInt8} {fuel : ℕ}

omit [TryBufRead σ] in
theorem going_start (r : BufferingReader σ) : Going ⟨[],new r,0⟩ := ⟨rfl,fun h => by cases h⟩

theorem readToEnd_coded (hcoded : Coded hex body wire) (h : r.toCome = wire ++ tail)
    (hfuel : body.length < fuel) :
    (body.length < r.buffer.buffer.length → ∃ r', readToEnd hex fuel (new r) = some (.ok body r')) ∧
    (r.buffer.buffer.length ≤ body.length →
      ∃ r', readToEnd hex fuel (new r) = some (.error .bufferTooSmall r')) :=
  run_coded (going_start r) (.noChunk hcoded) h hfuel

theorem readToEnd_ok (h : readToEnd hex fuel (new r) = some (.ok body r')) :
    ∃ wire lost, Coded hex body wire ∧ r.toCome = wire ++ (lost ++ unread r'.rawBody.stream) ∧
      body.length < r.buffer.buffer.length := by
  obtain ⟨body,wire,lost,rfl,hrest,hcome,hlen⟩ := run_ok (going_start r) h
  cases hrest with
  | noChunk hcoded => exact ⟨wire,lost,hcoded,hcome,hlen⟩

/-- The reader in place returns a body exactly when the bytes to come start with a coding
of it and the buffer is longer than it, however the bytes arrive. -/
theorem readToEnd_ok_iff : (∃ fuel r', readToEnd hex fuel (new r) = some (.ok body r')) ↔
    ∃ wire tail, Coded hex body wire ∧ r.toCome = wire ++ tail ∧
      body.length < r.buffer.buffer.length := by
  constructor
  · rintro ⟨fuel,r',h⟩
    obtain ⟨wire,lost,hcoded,hcome,hlen⟩ := readToEnd_ok h
    exact ⟨wire,_,hcoded,hcome,hlen⟩
  · rintro ⟨wire,tail,hcoded,hcome,hlen⟩
    exact ⟨body.length + 1,(readToEnd_coded hcoded hcome (Nat.lt_succ_self _)).1 hlen⟩

end Whole

end ChunkedBodyReader

end NsPixels.Reqwless
