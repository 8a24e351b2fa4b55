import NsPixels.NsApi

/-!
# The paths of the type requests

Every write to a path is dropped when it does not fit, all of it or nothing. The
numbers of one chunk always fit, so a path lists them all and can be read back.
-/

namespace NsPixels.NsApi

open FixedCap

/-! ### Decimal numbers -/

theorem length_digits_le (n : UInt32) : (digits n).length ≤ 10 :=
  (Nat.length_toDigits_le_iff (by decide) (by decide)).mpr (n.toNat_lt.trans (by decide))

theorem isDigit_of_mem_digits {n : UInt32} {c : Char} (h : c ∈ digits n) : c.isDigit = true :=
  Nat.isDigit_of_mem_toDigits (by decide) (by decide) h

theorem comma_notMem_digits (n : UInt32) : ',' ∉ digits n :=
  fun h => absurd (isDigit_of_mem_digits h) (by decide)

theorem decimal_concat (s : List Char) (c : Char) :
    decimal (s ++ [c]) = (decimal s).bind fun n =>
      if '0' ≤ c ∧ c ≤ '9' then some (10 * n + (c.toNat - 48)) else none := by
  rw [decimal,List.foldlM_append]
  cases h : s.foldlM (fun n c =>
      if '0' ≤ c ∧ c ≤ '9' then some (10 * n + (c.toNat - 48)) else none) 0 with
  | none => simp [decimal,h]
  | some n => simp [decimal,h]

theorem digitChar_value : ∀ d < 10, ('0' ≤ d.digitChar ∧ d.digitChar ≤ '9') ∧
    d.digitChar.toNat - 48 = d := by decide

theorem decimal_toDigits (n : ℕ) : decimal (Nat.toDigits 10 n) = some n := by
  induction n using Nat.strongRecOn with
  | ind n ih =>
    rw [Nat.toDigits_eq_if (by decide)]
    split
    · next hlt =>
      obtain ⟨hdigit,hvalue⟩ := digitChar_value n hlt
      apply (decimal_concat [] _).trans
      simp [decimal,hdigit,hvalue]
    · next hge =>
      obtain ⟨hdigit,hvalue⟩ := digitChar_value (n % 10) (Nat.mod_lt n (by decide))
      rw [decimal_concat,ih (n / 10) (by omega),Option.bind_some,if_pos hdigit,hvalue,
        Nat.div_add_mod]

/-- A number is read back from its digits. -/
theorem parseU32_digits (n : UInt32) : parseU32 (digits n) = some n := by
  have hhead : (digits n).head? ≠ some '+' := fun h =>
    absurd (isDigit_of_mem_digits (List.mem_of_mem_head? h)) (by decide)
  have hne : digits n ≠ [] := Nat.toDigits_ne_nil
  rw [parseU32,if_neg hhead]
  simp only [if_neg hne]
  rw [digits,decimal_toDigits,Option.bind_some,if_pos n.toNat_lt,UInt32.ofNat_toNat]

/-! ### Paths -/

/-- What the path of every type request starts with. -/
def typesPrefix : List Char := "/virtual-train-api/v1/trein?ids=".toList

/-- Train numbers as a comma-separated list. -/
def joined (batch : List UInt32) : List Char := [','].intercalate (batch.map digits)

/-- The numbers that a path lists. -/
def decodePath (path : List Char) : Option (List UInt32) :=
  ((path.drop typesPrefix.length).splitOn ',').mapM parseU32

theorem toList_extendOrDrop {α : Type*} {N : ℕ} {v : Vec α N} {l : List α}
    (h : v.len + l.length ≤ N) : (v.extendOrDrop l).toList = v.toList ++ l := by
  rw [Vec.extendOrDrop,Vec.ofList?,dif_pos (by rwa [List.length_append])]
  rfl

/-- One number of the batch: the comma before it, unless it is the first, and its digits. -/
def entry (p : UInt32 × ℕ) : List Char := (if p.2 > 0 then [','] else []) ++ digits p.1

theorem length_entry_le (p : UInt32 × ℕ) : (entry p).length ≤ 11 := by
  have := length_digits_le p.1
  rw [entry,List.length_append]
  split
  · rw [List.length_singleton]
    omega
  · rw [List.length_nil]
    omega

/-- While there is room, every number of the batch is appended in full. -/
theorem toList_foldl_entry (ps : List (UInt32 × ℕ)) (path : Vec Char 160)
    (h : path.len + ps.length * 11 ≤ 160) :
    (ps.foldl (fun path p =>
        (if p.2 > 0 then path.pushOrDrop ',' else path).extendOrDrop (digits p.1)) path).toList =
      path.toList ++ ps.flatMap entry := by
  induction ps generalizing path with
  | nil => simp
  | cons p ps ih =>
    rw [List.length_cons,Nat.succ_mul] at h
    have hle := length_entry_le p
    have hstep : ((if p.2 > 0 then path.pushOrDrop ',' else path).extendOrDrop
        (digits p.1)).toList = path.toList ++ entry p := by
      rw [entry,List.length_append] at hle
      rw [entry]
      split
      · next hp =>
        rw [if_pos hp,List.length_singleton] at hle
        have hcomma : (path.pushOrDrop ',').toList = path.toList ++ [','] := by
          rw [Vec.toList_pushOrDrop,if_pos (by omega)]
        rw [toList_extendOrDrop,hcomma,List.append_assoc]
        rw [Vec.len,hcomma,List.length_append,List.length_singleton]
        rw [Vec.len] at h
        omega
      · exact toList_extendOrDrop (by omega)
    rw [List.foldl_cons,ih _ (by rw [Vec.len,hstep,List.length_append]; rw [Vec.len] at h; omega),
      hstep,List.flatMap_cons,List.append_assoc]

theorem joined_cons (n : UInt32) (batch : List UInt32) :
    joined (n :: batch) = digits n ++ batch.flatMap fun m => ',' :: digits m := by
  induction batch generalizing n with
  | nil => simp [joined]
  | cons m batch ih =>
    have hm := ih m
    rw [joined] at hm
    rw [joined,List.map_cons,List.map_cons,List.intercalate_cons_cons,← List.map_cons,hm,
      List.flatMap_cons,List.append_assoc,List.singleton_append,List.cons_append]

theorem flatMap_entry_zipIdx (batch : List UInt32) :
    batch.zipIdx.flatMap entry = joined batch := by
  have hrest : ∀ (l : List UInt32) (k : ℕ),
      (l.zipIdx (k + 1)).flatMap entry = l.flatMap fun m => ',' :: digits m := by
    intro l
    induction l with
    | nil => exact fun _ => rfl
    | cons m l ih =>
      intro k
      rw [List.zipIdx_cons,List.flatMap_cons,List.flatMap_cons,ih]
      rfl
  cases batch with
  | nil => rfl
  | cons n batch =>
    rw [List.zipIdx_cons,List.flatMap_cons,hrest,joined_cons]
    rfl

/-- The path of a request lists all numbers of its batch. -/
theorem toList_typesPath {batch : List UInt32} (h : batch.length ≤ batchMax) :
    (typesPath batch).toList = typesPrefix ++ joined batch := by
  have hstart : (Vec.empty.extendOrDrop typesPrefix : Vec Char 160).toList = typesPrefix :=
    toList_extendOrDrop (by decide)
  have hlen : typesPrefix.length = 32 := by decide
  rw [typesPath,toList_foldl_entry,flatMap_entry_zipIdx]
  · exact congrArg (· ++ joined batch) hstart
  · change (Vec.empty.extendOrDrop typesPrefix : Vec Char 160).len + _ ≤ 160
    rw [Vec.len,hstart,hlen,List.length_zipIdx]
    rw [show batchMax = 8 from rfl] at h
    omega

theorem mapM_parseU32_digits (batch : List UInt32) :
    (batch.map digits).mapM parseU32 = some batch := by
  induction batch with
  | nil => rfl
  | cons n batch ih => simp [List.mapM_cons,parseU32_digits,ih]

theorem decodePath_joined {batch : List UInt32} (h : batch ≠ []) :
    decodePath (typesPrefix ++ joined batch) = some batch := by
  rw [decodePath,List.drop_left,joined,List.splitOn_intercalate]
  · exact mapM_parseU32_digits batch
  · intro l hl
    obtain ⟨n,_,rfl⟩ := List.mem_map.mp hl
    exact comma_notMem_digits n
  · simpa using h

/-! ### Chunks -/

/-- A filled chunk joins the chunks before it. -/
theorem sized_push {α : Type*} {k : ℕ} {acc : Array α} {done : Array (List α)}
    (hacc : 0 < acc.size ∧ acc.size ≤ k) (hdone : ∀ c ∈ done, c ≠ [] ∧ c.length ≤ k) :
    ∀ c ∈ done.push acc.toList, c ≠ [] ∧ c.length ≤ k := by
  intro c hc
  obtain hc | rfl := Array.mem_push.mp hc
  · exact hdone c hc
  · rwa [← List.length_pos_iff,Array.length_toList]

/-- The loop of `toChunks` keeps its elements in order, in chunks of the right size. -/
theorem toChunks_go_spec {α : Type*} {k : ℕ} (hk : 0 < k) (l : List α) (acc : Array α)
    (done : Array (List α)) (hacc : 0 < acc.size ∧ acc.size ≤ k)
    (hdone : ∀ c ∈ done, c ≠ [] ∧ c.length ≤ k) :
    (List.toChunks.go k l acc done).flatten = done.toList.flatten ++ acc.toList ++ l ∧
      ∀ c ∈ List.toChunks.go k l acc done, c ≠ [] ∧ c.length ≤ k := by
  induction l generalizing acc done with
  | nil =>
    rw [List.toChunks.go]
    exact ⟨by simp,fun c hc => sized_push hacc hdone c (by simpa using hc)⟩
  | cons a l ih =>
    rw [List.toChunks.go]
    split
    · -- the chunk is full
      obtain ⟨hflat,hall⟩ := ih #[a] (done.push acc.toList) ⟨Nat.one_pos,hk⟩ (sized_push hacc hdone)
      exact ⟨hflat.trans (by simp),hall⟩
    · next hne =>
      have hsize : (acc.push a).size = acc.size + 1 := Array.size_push a
      have hlt : acc.size ≠ k := by simpa using hne
      obtain ⟨hflat,hall⟩ := ih (acc.push a) done (by omega) hdone
      exact ⟨by rw [hflat]; simp,hall⟩

theorem toChunks_spec {α : Type*} {k : ℕ} (hk : 0 < k) (l : List α) :
    (l.toChunks k).flatten = l ∧ ∀ c ∈ l.toChunks k, c ≠ [] ∧ c.length ≤ k := by
  obtain ⟨k,rfl⟩ := Nat.exists_eq_succ_of_ne_zero hk.ne'
  cases l with
  | nil => simp [List.toChunks]
  | cons a l =>
    obtain ⟨hflat,hall⟩ := toChunks_go_spec hk l #[a] #[] ⟨Nat.one_pos,hk⟩ (by simp)
    exact ⟨hflat.trans (by simp),hall⟩

/-- The paths of the chunks of a batch list the numbers of the whole batch. -/
theorem decode_chunks (batch : List UInt32) :
    ((batch.toChunks batchMax).map fun chunk => (typesPath chunk).toList) =
        (batch.toChunks batchMax).map (fun chunk => typesPrefix ++ joined chunk) ∧
      ∃ ids, ((batch.toChunks batchMax).map fun chunk => (typesPath chunk).toList).mapM decodePath =
        some ids ∧ ids.flatten = batch := by
  obtain ⟨hflat,hall⟩ := toChunks_spec (show 0 < batchMax by decide) batch
  have hpaths : ((batch.toChunks batchMax).map fun chunk => (typesPath chunk).toList) =
      (batch.toChunks batchMax).map fun chunk => typesPrefix ++ joined chunk :=
    List.map_congr_left fun chunk hchunk => toList_typesPath (hall chunk hchunk).2
  refine ⟨hpaths,batch.toChunks batchMax,?_,hflat⟩
  rw [hpaths]
  generalize batch.toChunks batchMax = chunks at hall
  induction chunks with
  | nil => rfl
  | cons chunk chunks ih =>
    have hrest := ih fun c hc => hall c (List.mem_cons_of_mem _ hc)
    have hfirst := decodePath_joined (hall chunk List.mem_cons_self).1
    rw [List.map_cons,List.mapM_cons,hfirst,hrest]
    rfl

end NsPixels.NsApi
