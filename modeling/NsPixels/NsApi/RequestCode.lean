import NsPixels.Lib.PrefixCode
import NsPixels.NsApi.Session

/-!
# The requests on the wire

Nothing but the path differs between two requests of a session, and paths are plain
ASCII without blanks, so the bytes written to the connection determine the calls.
-/

namespace NsPixels.NsApi

open FixedCap PrefixCode Reqwless

/-- A batch as the chunks of an iteration are. -/
def Call.Valid : Call → Prop
  | .types batch => batch ≠ [] ∧ batch.length ≤ batchMax
  | .service _ => True

/-- What the path of every journey request starts with. -/
def servicePrefix : List Char := "/reisinformatie-api/api/v2/journey?train=".toList

/-- ASCII without blanks. -/
def Plain (s : List Char) : Prop := ∀ c ∈ s, c.toNat < 128 ∧ c ≠ ' '

instance (s : List Char) : Decidable (Plain s) := List.decidableBAll _ s

theorem Plain.append {s t : List Char} (hs : Plain s) (ht : Plain t) : Plain (s ++ t) := by
  intro c hc
  obtain h | h := List.mem_append.mp hc
  · exact hs c h
  · exact ht c h

theorem plain_digits (n : UInt32) : Plain (digits n) := by
  intro c hc
  have hdigit := isDigit_of_mem_digits hc
  rw [Char.isDigit,Bool.and_eq_true,decide_eq_true_eq,decide_eq_true_eq] at hdigit
  constructor
  · exact Nat.lt_of_le_of_lt hdigit.2 (by decide)
  · rintro rfl
    exact absurd hdigit.1 (by decide)

/-! ### Paths -/

theorem toList_servicePath (n : UInt32) : (servicePath n).toList = servicePrefix ++ digits n := by
  have hlen := length_digits_le n
  have hstart : (Vec.empty.extendOrDrop servicePrefix : Vec Char 128).toList = servicePrefix :=
    toList_extendOrDrop (by decide)
  have hlength : servicePrefix.length = 41 := by decide
  rw [servicePath,toList_extendOrDrop]
  · exact congrArg (· ++ digits n) hstart
  · change (Vec.empty.extendOrDrop servicePrefix : Vec Char 128).len + _ ≤ 128
    rw [Vec.len,hstart,hlength]
    omega

theorem plain_joined (batch : List UInt32) : Plain (joined batch) := by
  cases batch with
  | nil => exact fun c hc => by simp [joined] at hc
  | cons n batch =>
    rw [joined_cons]
    refine (plain_digits n).append fun c hc => ?_
    obtain ⟨m,_,hm⟩ := List.mem_flatMap.mp hc
    obtain rfl | hm := List.mem_cons.mp hm
    · decide
    · exact plain_digits m c hm

variable {headers : List (String × String)} {call call' : Call}

/-- The path of a call, in full. -/
def Call.path : Call → List Char
  | .types batch => typesPrefix ++ joined batch
  | .service n => servicePrefix ++ digits n

theorem path_request (h : call.Valid) : (call.request headers).path = call.path := by
  cases call with
  | types batch => exact toList_typesPath h.2
  | service n => exact toList_servicePath n

theorem plain_path (call : Call) : Plain call.path := by
  cases call with
  | types batch => exact Plain.append (by decide) (plain_joined batch)
  | service n => exact Plain.append (by decide) (plain_digits n)

theorem head_path (call : Call) : call.path.head? = some '/' := by
  cases call <;> exact List.head?_append

/-- The second characters tell the two kinds of requests apart. -/
theorem typesPrefix_ne_servicePrefix (s t : List Char) : typesPrefix ++ s ≠ servicePrefix ++ t := by
  intro h
  have htake := congrArg (List.take 2) h
  rw [List.take_append_of_le_length (by decide),List.take_append_of_le_length (by decide)] at htake
  exact absurd htake (by decide)

/-- The path determines the call. -/
theorem call_eq_of_path (h : call.Valid) (h' : call'.Valid) (hpath : call.path = call'.path) :
    call = call' := by
  cases call with
  | types batch =>
    cases call' with
    | types batch' =>
      have hdecode := congrArg decodePath hpath
      rw [Call.path,Call.path,decodePath_joined h.1,decodePath_joined h'.1,Option.some.injEq]
        at hdecode
      rw [hdecode]
    | service n => exact absurd hpath (typesPrefix_ne_servicePrefix _ _)
  | service n =>
    cases call' with
    | types batch => exact absurd hpath.symm (typesPrefix_ne_servicePrefix _ _)
    | service n' =>
      have hparse := congrArg parseU32 (List.append_cancel_left hpath)
      rw [parseU32_digits,parseU32_digits,Option.some.injEq] at hparse
      rw [hparse]

/-! ### Bytes -/

theorem asBytes_plain {s : List Char} (h : Plain s) :
    asBytes s = s.map fun c => UInt8.ofNat c.toNat := by
  induction s with
  | nil => rfl
  | cons c s ih =>
    have hc : c.toNat ≤ 127 := Nat.le_of_lt_succ (h c List.mem_cons_self).1
    have hone : String.utf8EncodeChar c = [UInt8.ofNat c.toNat] := by
      rw [String.utf8EncodeChar]
      simp [hc]
    rw [asBytes,List.flatMap_cons,hone]
    exact congrArg (UInt8.ofNat c.toNat :: ·) (ih fun d hd => h d (List.mem_cons_of_mem c hd))

theorem toNat_ofNat {c : Char} (h : c.toNat < 128) : (UInt8.ofNat c.toNat).toNat = c.toNat :=
  UInt8.toNat_ofNat_of_lt' (Nat.lt_trans h (by decide))

theorem eq_of_asBytes {s t : List Char} (hs : Plain s) (ht : Plain t) (h : asBytes s = asBytes t) :
    s = t := by
  rw [asBytes_plain hs,asBytes_plain ht] at h
  have hnat := congrArg (List.map fun b => Char.ofNat b.toNat) h
  have hid : ∀ {u : List Char}, Plain u →
      ((u.map fun c => UInt8.ofNat c.toNat).map fun b => Char.ofNat b.toNat) = u := by
    intro u hu
    rw [List.map_map]
    refine (List.map_congr_left fun c hc => ?_).trans u.map_id
    rw [Function.comp_apply,toNat_ofNat (hu c hc).1,Char.ofNat_toNat,id_eq]
  rwa [hid hs,hid ht] at hnat

theorem blank_notMem_asBytes {s : List Char} (h : Plain s) : 32 ∉ asBytes s := by
  rw [asBytes_plain h]
  intro hmem
  obtain ⟨c,hc,hblank⟩ := List.mem_map.mp hmem
  apply (h c hc).2
  have hnat : c.toNat = 32 := by rw [← toNat_ofNat (h c hc).1,hblank]; rfl
  rw [← Char.ofNat_toNat c,hnat]

section Requests

variable (headers : List (String × String)) (host basePath : List Char)

/-- What stands before and after the path. -/
def beforePath : List UInt8 := asBytes ("GET ".toList ++ trimEndSlashes basePath)

def afterPath : List UInt8 :=
  asBytes ("HTTP/1.1\r\n".toList ++ ((("Host".toList,host) ::
    headers.map fun h => (h.1.toList,h.2.toList)).flatMap line ++ "\r\n".toList))

theorem callBytes_eq (h : call.Valid) : callBytes headers host basePath call =
    beforePath basePath ++ (asBytes call.path ++ 32 :: afterPath headers host) := by
  have hpath : (httpRequest host basePath (call.request headers)).path = call.path := path_request h
  have hbase : (httpRequest host basePath (call.request headers)).base = trimEndSlashes basePath := by
    rw [Request.base,hpath,head_path]
    exact List.append_nil _
  have hfields : (httpRequest host basePath (call.request headers)).headers ++
      (httpRequest host basePath (call.request headers)).extraHeaders.getD [] =
      ("Host".toList,host) :: headers.map fun h => (h.1.toList,h.2.toList) := by
    cases call <;> rfl
  have hafter : ∀ fields, asBytes (" HTTP/1.1\r\n".toList ++ fields) =
      32 :: asBytes ("HTTP/1.1\r\n".toList ++ fields) := fun _ => rfl
  have hbefore : beforePath basePath =
      asBytes "GET".toList ++ (asBytes " ".toList ++ asBytes (trimEndSlashes basePath)) := by
    rw [← asBytes_append,← asBytes_append]
    rfl
  rw [callBytes,Request.text,hbase,hpath,hfields,afterPath,← hafter,hbefore,asBytes_append,
    asBytes_append,asBytes_append,asBytes_append,List.append_assoc,List.append_assoc]
  rfl

theorem prefixFree_callBytes : PrefixFree (callBytes headers host basePath) Call.Valid :=
  PrefixFree.of_field (fun _ h => callBytes_eq headers host basePath h)
    (fun call _ => blank_notMem_asBytes (plain_path call))
    fun _ _ h h' heq => call_eq_of_path h h' (eq_of_asBytes (plain_path _) (plain_path _) heq)

/-- The bytes written in a session determine its calls, in their order. -/
theorem callBytes_flatMap_eq_iff {calls calls' : List Call} (h : ∀ call ∈ calls, call.Valid)
    (h' : ∀ call ∈ calls', call.Valid) :
    calls.flatMap (callBytes headers host basePath) =
      calls'.flatMap (callBytes headers host basePath) ↔ calls = calls' := by
  refine ⟨fun heq => ?_,fun heq => by rw [heq]⟩
  refine (prefixFree_callBytes headers host basePath).eq_of_flatMap (fun call hcall hnil => ?_) h h' heq
  rw [callBytes_eq headers host basePath hcall] at hnil
  simp at hnil

end Requests

/-- The calls of an iteration, type chunks and then journeys, are valid. -/
theorem valid_of_mem_chunks (typeBatch serviceBatch : List UInt32) : ∀ call ∈
    (typeBatch.toChunks batchMax).map Call.types ++ serviceBatch.map Call.service, call.Valid := by
  intro call hcall
  obtain hcall | hcall := List.mem_append.mp hcall
  · obtain ⟨chunk,hchunk,rfl⟩ := List.mem_map.mp hcall
    exact (toChunks_spec (show 0 < batchMax by decide) typeBatch).2 chunk hchunk
  · obtain ⟨n,-,rfl⟩ := List.mem_map.mp hcall
    trivial

/-- Nine trains in two chunks and a journey do not read like ten trains in two chunks. -/
theorem callBytes_flatMap_ne_chunks :
    (([1,2,3,4,5,6,7,8,9].toChunks batchMax).map Call.types ++ [10].map Call.service).flatMap
        (callBytes [] "h".toList "/".toList) ≠
      (([1,2,3,4,5,6,7,8,9,10].toChunks batchMax).map Call.types ++ [].map Call.service).flatMap
        (callBytes [] "h".toList "/".toList) :=
  mt (callBytes_flatMap_eq_iff [] "h".toList "/".toList (valid_of_mem_chunks _ _)
    (valid_of_mem_chunks _ _)).mp (by decide)

end NsPixels.NsApi
