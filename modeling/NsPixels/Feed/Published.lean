import NsPixels.Decompress.Decoding
import NsPixels.Feed

/-!
# What is published is what is read

From a list of feed documents, each deflated into a message of its own, to the trains of
the same documents.
-/

namespace NsPixels.Feed

open Zmq Decompress XmlParser Xml

section Published

variable {σ ι ε τ F : Type} {inflate : Inflater σ ι} {reset : σ → σ}
  {Left : σ → List UInt8 → List UInt8 → Prop} {tokenizer : String → List (Except τ Token)}
  {parseF32 : List Char → Option F} {project : F → F → PixelCoord} {n : ℕ}

variable (reset Left tokenizer n) in
/-- A message whose second frame is a document, deflated into a gzip member, with a text
that leaves room in a buffer of `n` bytes. -/
structure Publication where
  message : Message
  document : FeedDocument
  header : MemberHeader
  stream : List UInt8
  trailer : List UInt8
  text : String
  two : 2 ≤ message.bodies.length
  payload : message.bodies.getD 1 [] = header.bytes ++ (stream ++ trailer)
  deflated : ∀ state, Left (reset state) stream text.toUTF8.data.toList
  trailer_ne : trailer ≠ []
  room : text.toUTF8.data.toList.length < n
  tokens : tokenizer text = document.tokens.map Except.ok

variable (parseF32 project) in
/-- The trains of a document, on the canvas. -/
def published (d : FeedDocument) : List Enrichment.Train := (d.trains parseF32).map (projected project)

variable (ε parseF32 project) in
theorem Publication.handles (hl : Lawful inflate) (hs : Streams inflate Left)
    (p : Publication reset Left tokenizer n) :
    Handles ε inflate reset tokenizer parseF32 project n (some (published parseF32 project p.document))
      p.message := by
  intro d hlen
  obtain ⟨d',hrun,hlen'⟩ := inflateGzip_text hl hs p.deflated p.trailer_ne p.header
    (show _ < d.buf.length from hlen ▸ p.room)
  refine ⟨d',?_,hlen'.trans hlen⟩
  rw [handle,if_neg (Nat.not_lt.mpr p.two),p.payload]
  dsimp only
  rw [hrun]
  dsimp only
  rw [trainsOf_document parseF32 project p.tokens]
  rfl

/-- The complete messages are the first ones. -/
theorem isPrefix_complete (k : ℕ) (msgs : List Message) : complete k msgs <+: msgs := by
  induction msgs generalizing k with
  | nil => exact List.prefix_rfl
  | cons m msgs ih =>
    rw [complete]
    split
    · exact List.prefix_cons_inj m |>.mpr (ih _)
    · exact List.nil_prefix

variable {pubs : List (Publication reset Left tokenizer n)} {trailing : List Command} {k fuel : ℕ}

variable (parseF32 project pubs) in
/-- A task that has started reads published documents, up to any point of the stream and
however the socket cuts it into reads, into the trains of those it has got completely. -/
theorem reads_published (hl : Lawful inflate) (hs : Streams inflate Left) {socket : Socket ε}
    {state : σ} {buf : List UInt8} {s : State σ ε} (hstart : start socket state buf = .ok s)
    (hbuf : buf.length = n)
    (hfit : Fits zmqFrameCap
      (pubs.flatMap (fun p => p.message.frames) ++ trailing.map Command.frame))
    (hunread : s.sub.unread = (encodeStream (pubs.map Publication.message) trailing).take k)
    (hfuel : pubs.length < fuel) :
    Loop.run (turn inflate reset tokenizer parseF32 project) fuel s =
      ((pubs.take (complete k (pubs.map Publication.message)).length).map
          fun p => published parseF32 project p.document,
        some (.recv (endError ⟨socket,zmqFrameCap⟩))) := by
  obtain ⟨hmax,hd,hend⟩ := start_ok hstart
  -- what a message comes to, as one decompressor reads it
  let means (m : Message) : Option (List Enrichment.Train) :=
    (handle (ε := ε) inflate reset tokenizer parseF32 project ⟨state,buf⟩ m.bodies).1.head?
  have hmeans (p : Publication reset Left tokenizer n) :
      means p.message = some (published parseF32 project p.document) := by
    obtain ⟨d',hhandle,-⟩ := p.handles ε parseF32 project hl hs ⟨state,buf⟩ hbuf
    exact congrArg (fun r => r.1.head?) hhandle
  have hhandles : ∀ m ∈ pubs.map Publication.message,
      Handles ε inflate reset tokenizer parseF32 project n (means m) m := by
    intro m hm
    obtain ⟨p,-,rfl⟩ := List.mem_map.mp hm
    rw [hmeans]
    exact p.handles ε parseF32 project hl hs
  have hrun := run_stream hhandles (by rw [hd,hbuf])
    (by rw [hmax,List.flatMap_map]; exact hfit) hunread (by rw [List.length_map]; exact hfuel)
  have htake : complete k (pubs.map Publication.message) =
      (pubs.take (complete k (pubs.map Publication.message)).length).map Publication.message := by
    rw [List.map_take]
    exact List.prefix_iff_eq_take.mp (isPrefix_complete _ _)
  rw [hrun,hend]
  congr 1
  generalize (complete k (pubs.map Publication.message)).length = j at htake
  rw [htake,List.filterMap_map,← List.filterMap_eq_map]
  exact List.filterMap_congr fun p _ => hmeans p

end Published

/-- A tokenizer that knows one text. -/
def sampleTokenizer (xml : String) : List (Except Unit Token) :=
  if xml = "hoi" then sampleFeed.tokens.map .ok else []

/-- The sample document under the text `hoi`, for buffers of four bytes. -/
def samplePublication : Publication (fun _ => none) BlockLeft sampleTokenizer 4 where
  message := ⟨[⟨[],topic⟩],⟨[],plainHeader.bytes ++ (hoiBlock ++ [1,2,3,4,3,0,0,0])⟩⟩
  document := sampleFeed
  header := plainHeader
  stream := hoiBlock
  trailer := [1,2,3,4,3,0,0,0]
  text := "hoi"
  two := le_rfl
  payload := rfl
  deflated := fun _ => ⟨3,0,252,255,by decide +kernel,by decide +kernel⟩
  trailer_ne := List.cons_ne_nil _ _
  room := by decide +kernel
  tokens := if_pos rfl

/-- A peer that greets, is ready and sends two publications, but stops in the second. -/
def publishingPeer : Socket Unit where
  incoming := ⟨[⟨greeting ++ [4,6,5,82,69],List.append_ne_nil_of_right_ne_nil _ (List.cons_ne_nil _ _)⟩,
    ⟨[65,68,89] ++ (encodeStream [samplePublication.message,samplePublication.message] []).take 90,
      List.cons_ne_nil _ _⟩],none⟩
  outgoing := []
  outcomes := []

/-- The trains of the first come out. -/
theorem reads_published_cut :
    ∃ s, start publishingPeer none [7,7,7,7] = .ok s ∧
      Loop.run (turn inflateBlock (fun _ => none) sampleTokenizer (fun _ => some 0) wgs84ToCanvas) 3 s =
        ([[⟨7,wgs84ToCanvas 0 0⟩]],some (.recv .unexpectedEof)) := by
  have hpass : Passes publishingPeer zmqFrameCap greeting ⟨4,[6],[5,82,69,65,68,89],rfl⟩
      ((encodeStream [samplePublication.message,samplePublication.message] []).take 90) :=
    ⟨by decide,by simp [Writes,publishingPeer],⟨rfl,⟨rfl,rfl⟩,by decide,rfl⟩,⟨by decide,rfl,by decide⟩⟩
  obtain ⟨s,hstart,hunread⟩ := start_passes hpass rfl none [7,7,7,7]
  have hfit : Fits zmqFrameCap ([samplePublication,samplePublication].flatMap
      (fun p => p.message.frames) ++ ([] : List Command).map Command.frame) := by
    unfold Fits
    decide
  refine ⟨s,hstart,?_⟩
  rw [reads_published (fun _ => some 0) wgs84ToCanvas [samplePublication,samplePublication]
    lawful_inflateBlock streams_inflateBlock hstart rfl hfit hunread (by decide)]
  decide +kernel

end NsPixels.Feed
