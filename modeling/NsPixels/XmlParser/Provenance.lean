import NsPixels.Lib.History
import NsPixels.XmlParser

/-!
# Where the values of a train come from

On any tokens, well nested or not, a train is built from texts of one location, and its
coordinates from elements that begin in the first part of that location. What the flags
and options of the loop say about the tokens read since the last location started is
`Traced`; each token keeps it.
-/

namespace NsPixels.XmlParser

open Xml History

variable {F : Type}

namespace Parser

theorem elementStart_inTreinloc (p : Parser F) {name : String} (h : name ≠ "TreinLocation") :
    (p.elementStart name).inTreinloc = p.inTreinloc := by
  dsimp only [elementStart]
  rw [if_neg h]
  split_ifs <;> rfl

theorem text_inTreinloc (parseF32 : List Char → Option F) (p : Parser F) (t : List Char) :
    (p.text parseF32 t).inTreinloc = p.inTreinloc := by
  rw [text]
  split <;> rfl

/-- An end closes a field, the first part or the location, or does nothing. Only the
end of the location emits. -/
theorem elementEnd_cases (p : Parser F) (name : String) :
    p.elementEnd name = ({ p with capture := .none },[]) ∨
    p.elementEnd name = ({ p with inFirstPart := false },[]) ∨
    (p.inTreinloc = true ∧ p.elementEnd name =
      ({ p with
        inTreinloc := false
        inFirstPart := false
        seenFirstPart := false
        capture := .none },p.train?.toList)) ∨
    p.elementEnd name = (p,[]) := by
  rw [elementEnd]
  split
  · exact Or.inl rfl
  · split
    · exact Or.inr (Or.inl rfl)
    · split
      · next h => exact Or.inr (Or.inr (Or.inl ⟨h.2,rfl⟩))
      · exact Or.inr (Or.inr (Or.inr rfl))

theorem of_train?_eq_some {p : Parser F} {t : Train F} (h : p.train? = some t) :
    p.nummer = some t.number ∧ p.lon = some t.lon ∧ p.lat = some t.lat := by
  obtain ⟨n,hn,h⟩ := Option.bind_eq_some_iff.mp h
  obtain ⟨lo,hlo,h⟩ := Option.bind_eq_some_iff.mp h
  obtain ⟨la,hla,h⟩ := Option.bind_eq_some_iff.mp h
  cases h
  exact ⟨hn,hlo,hla⟩

/-- A token emits nothing, unless it is the end of an open location. -/
theorem step_silent_or_closes (parseF32 : List Char → Option F) (p : Parser F) (tok : Token) :
    (p.step parseF32 tok).2 = [] ∨
    (∃ tail, tok = .elementEnd tail) ∧ p.inTreinloc = true ∧
      (p.step parseF32 tok).1.inTreinloc = false ∧
      (p.step parseF32 tok).2 = p.train?.toList := by
  have hend : ∀ name, (p.elementEnd name).2 = [] ∨ p.inTreinloc = true ∧
      (p.elementEnd name).1.inTreinloc = false ∧ (p.elementEnd name).2 = p.train?.toList := by
    intro name
    obtain h | h | ⟨hin,h⟩ | h := p.elementEnd_cases name
    · exact Or.inl (by rw [h])
    · exact Or.inl (by rw [h])
    · exact Or.inr ⟨hin,by rw [h],by rw [h]⟩
    · exact Or.inl (by rw [h])
  match tok with
  | .elementEnd (.close name) => exact (hend name.loc).imp_right fun h => ⟨⟨_,rfl⟩,h⟩
  | .elementEnd .empty => exact (hend p.currentLocal).imp_right fun h => ⟨⟨_,rfl⟩,h⟩
  | .elementEnd .opened | .elementStart _ | .attribute _ | .text _ | .other _ => exact Or.inl rfl

theorem length_step_le_one (parseF32 : List Char → Option F) (p : Parser F) (tok : Token) :
    (p.step parseF32 tok).2.length ≤ 1 := by
  obtain h | ⟨-,-,-,h⟩ := step_silent_or_closes parseF32 p tok
  · rw [h]
    exact Nat.zero_le 1
  · rw [h]
    exact Option.length_toList_le

/-- Only the start of a location opens one. -/
theorem inTreinloc_of_step {parseF32 : List Char → Option F} {p : Parser F} {tok : Token}
    (htok : ¬ tok.IsStart "TreinLocation") (h : (p.step parseF32 tok).1.inTreinloc = true) :
    p.inTreinloc = true := by
  have hend : ∀ name, (p.elementEnd name).1.inTreinloc = true → p.inTreinloc = true := by
    intro name hopen
    obtain h | h | ⟨hin,_⟩ | h := p.elementEnd_cases name
    · rwa [h] at hopen
    · rwa [h] at hopen
    · exact hin
    · rwa [h] at hopen
  match tok with
  | .elementStart q =>
    rwa [step,elementStart_inTreinloc p fun hq => htok ⟨q,rfl,hq⟩] at h
  | .text t => rwa [step,text_inTreinloc] at h
  | .elementEnd (.close name) => exact hend name.loc h
  | .elementEnd .empty => exact hend p.currentLocal h
  | .elementEnd .opened | .attribute _ | .other _ => exact h

end Parser

/-- One of the texts reads as `x`. -/
def TextIn {α : Type} (parse : List Char → Option α) (x : α) (toks : List Token) : Prop :=
  ∃ t, Token.text t ∈ toks ∧ parse (trim t) = some x

/-- `rest` follows a start tag `name` that comes after the first part has started. -/
def AfterField (name : String) (body rest : List Token) : Prop :=
  ∃ part, AfterFirst (Token.IsStart "TreinMaterieelDelen") body part ∧
    After (Token.IsStart name) part rest

/-- All values of the train were read after the last start of a location, the coordinates
in their own elements of its first part. -/
def FromOneLocation (parseF32 : List Char → Option F) (toks : List Token) (train : Train F) :
    Prop :=
  ∃ body, AfterLast (Token.IsStart "TreinLocation") toks body ∧
    TextIn parseU32 train.number body ∧
    (∃ rest, AfterField "Longitude" body rest ∧ TextIn parseF32 train.lon rest) ∧
    (∃ rest, AfterField "Latitude" body rest ∧ TextIn parseF32 train.lat rest)

theorem TextIn.concat {α : Type} {parse : List Char → Option α} {x : α} {toks : List Token}
    (h : TextIn parse x toks) (tok : Token) : TextIn parse x (toks ++ [tok]) := by
  obtain ⟨t,ht,hx⟩ := h
  exact ⟨t,List.mem_append_left _ ht,hx⟩

theorem textIn_concat {α : Type} {parse : List Char → Option α} {x : α} {t : List Char}
    (toks : List Token) (h : parse (trim t) = some x) : TextIn parse x (toks ++ [.text t]) :=
  ⟨t,List.mem_append_right _ (List.mem_singleton_self _),h⟩

theorem AfterField.concat {name : String} {body rest : List Token}
    (h : AfterField name body rest) (tok : Token) :
    AfterField name (body ++ [tok]) (rest ++ [tok]) := by
  obtain ⟨part,hpart,hname⟩ := h
  exact ⟨part ++ [tok],hpart.concat tok,hname.concat tok⟩

/-- What the state says about the tokens since the location started. -/
structure Traced (parseF32 : List Char → Option F) (body : List Token) (p : Parser F) : Prop where
  nummer : ∀ n, p.nummer = some n → TextIn parseU32 n body
  lon : ∀ x, p.lon = some x → ∃ rest, AfterField "Longitude" body rest ∧ TextIn parseF32 x rest
  lat : ∀ x, p.lat = some x → ∃ rest, AfterField "Latitude" body rest ∧ TextIn parseF32 x rest
  unseen : p.seenFirstPart = false → ∀ tok ∈ body, ¬ tok.IsStart "TreinMaterieelDelen"
  part : p.inFirstPart = true → ∃ part, AfterFirst (Token.IsStart "TreinMaterieelDelen") body part
  captureLon : p.capture = .lon → ∃ rest, AfterField "Longitude" body rest
  captureLat : p.capture = .lat → ∃ rest, AfterField "Latitude" body rest

namespace Traced

variable {parseF32 : List Char → Option F} {body : List Token} {p : Parser F}

/-- A token that leaves the state alone. Only the first part may not start there. -/
theorem concat (h : Traced parseF32 body p) (tok : Token)
    (htok : p.seenFirstPart = false → ¬ tok.IsStart "TreinMaterieelDelen") :
    Traced parseF32 (body ++ [tok]) p where
  nummer n hn := (h.nummer n hn).concat tok
  lon x hx := by
    obtain ⟨rest,hrest,htext⟩ := h.lon x hx
    exact ⟨rest ++ [tok],hrest.concat tok,htext.concat tok⟩
  lat x hx := by
    obtain ⟨rest,hrest,htext⟩ := h.lat x hx
    exact ⟨rest ++ [tok],hrest.concat tok,htext.concat tok⟩
  unseen hseen t ht := by
    obtain ht | ht := List.mem_append.mp ht
    · exact h.unseen hseen t ht
    · rw [List.mem_singleton.mp ht]
      exact htok hseen
  part hin := by
    obtain ⟨part,hpart⟩ := h.part hin
    exact ⟨part ++ [tok],hpart.concat tok⟩
  captureLon hcap := by
    obtain ⟨rest,hrest⟩ := h.captureLon hcap
    exact ⟨rest ++ [tok],hrest.concat tok⟩
  captureLat hcap := by
    obtain ⟨rest,hrest⟩ := h.captureLat hcap
    exact ⟨rest ++ [tok],hrest.concat tok⟩

/-- Other tokens than start tags start no part. -/
theorem concat_of_not_start (h : Traced parseF32 body p) {tok : Token}
    (htok : ∀ name, ¬ tok.IsStart name) : Traced parseF32 (body ++ [tok]) p :=
  h.concat tok fun _ => htok _

/-- A field that starts in the first part. -/
theorem afterField (h : Traced parseF32 body p) (hin : p.inFirstPart = true) (q : QName) :
    ∃ rest, AfterField q.loc (body ++ [.elementStart q]) rest := by
  obtain ⟨part,hpart⟩ := h.part hin
  exact ⟨[],part ++ [.elementStart q],hpart.concat _,after_concat part ⟨q,rfl,rfl⟩⟩

/-- At a start tag inside a location. -/
theorem elementStart (h : Traced parseF32 body p) (hloc : p.inTreinloc = true) {q : QName}
    (hq : q.loc ≠ "TreinLocation") :
    Traced parseF32 (body ++ [.elementStart q]) (p.elementStart q.loc) := by
  by_cases hfirst : q.loc = "TreinMaterieelDelen" ∧ p.seenFirstPart = false
  · have hseen : Traced parseF32 body { p with seenFirstPart := true } := { h with unseen := nofun }
    have hstart : p.elementStart q.loc =
        { p with currentLocal := q.loc, inFirstPart := true, seenFirstPart := true } := by
      simp [Parser.elementStart,hfirst.1,hfirst.2,hloc]
    have hpart : AfterFirst (Token.IsStart "TreinMaterieelDelen") (body ++ [.elementStart q]) [] :=
      afterFirst_concat (h.unseen hfirst.2) ⟨q,rfl,hfirst.1⟩
    rw [hstart]
    exact { hseen.concat (.elementStart q) nofun with part := fun _ => ⟨[],hpart⟩ }
  · have hkeep : Traced parseF32 (body ++ [.elementStart q]) p :=
      h.concat _ fun hseen hname => hfirst ⟨Token.isStart_elementStart.mp hname,hseen⟩
    dsimp only [Parser.elementStart]
    split
    · contradiction
    · split
      · exact { hkeep with captureLon := nofun, captureLat := nofun }
      · split
        · next hpart => exact absurd ⟨hpart.1,Bool.eq_false_of_not_eq_true hpart.2.2⟩ hfirst
        · split
          · next hlon =>
            exact { hkeep with
              captureLon := fun _ => hlon.1 ▸ h.afterField hlon.2 q
              captureLat := nofun }
          · split
            · next hlat =>
              exact { hkeep with
                captureLon := nofun
                captureLat := fun _ => hlat.1 ▸ h.afterField hlat.2 q }
            · exact { hkeep with }

/-- At a text, which is read into the field that was started. -/
theorem text (h : Traced parseF32 body p) (t : List Char) :
    Traced parseF32 (body ++ [.text t]) (p.text parseF32 t) := by
  have htok : ∀ name, ¬ (Token.text t).IsStart name := by simp [Token.IsStart]
  have hkeep := h.concat_of_not_start htok
  rw [Parser.text]
  split
  · exact { hkeep with nummer := fun n hn => textIn_concat body hn }
  · next hcap =>
    obtain ⟨rest,hrest⟩ := h.captureLon hcap
    exact { hkeep with
      lon := fun x hx => ⟨rest ++ [.text t],hrest.concat _,textIn_concat rest hx⟩ }
  · next hcap =>
    obtain ⟨rest,hrest⟩ := h.captureLat hcap
    exact { hkeep with
      lat := fun x hx => ⟨rest ++ [.text t],hrest.concat _,textIn_concat rest hx⟩ }
  · exact hkeep

/-- At an end that leaves the location open. -/
theorem elementEnd (h : Traced parseF32 body p) (tail : ElementEnd) {name : String}
    (hopen : (p.elementEnd name).1.inTreinloc = true) :
    Traced parseF32 (body ++ [.elementEnd tail]) (p.elementEnd name).1 := by
  have hend : ∀ name, ¬ (Token.elementEnd tail).IsStart name := by simp [Token.IsStart]
  have hkeep := h.concat_of_not_start hend
  obtain hfield | hpart | ⟨_,hloc⟩ | hsame := p.elementEnd_cases name
  · rw [hfield]
    exact { hkeep with
      captureLon := fun hcap => by cases hcap
      captureLat := fun hcap => by cases hcap }
  · rw [hpart]
    exact { hkeep with part := fun hin => by cases hin }
  · rw [hloc] at hopen
    cases hopen
  · rw [hsame]
    exact hkeep

/-- Any token of a location that stays open. -/
theorem step (h : Traced parseF32 body p) (hloc : p.inTreinloc = true) {tok : Token}
    (htok : ¬ tok.IsStart "TreinLocation") (hopen : (p.step parseF32 tok).1.inTreinloc = true) :
    Traced parseF32 (body ++ [tok]) (p.step parseF32 tok).1 := by
  match tok with
  | .elementStart q => exact h.elementStart hloc fun hq => htok ⟨q,rfl,hq⟩
  | .text t => exact h.text t
  | .elementEnd (.close name) => exact h.elementEnd _ hopen
  | .elementEnd .empty => exact h.elementEnd _ hopen
  | .elementEnd .opened | .attribute _ | .other _ =>
    exact h.concat_of_not_start (by simp [Token.IsStart])

end Traced

/-! ### Runs -/

/-- Inside a location the state is traced since its start. -/
def Inv (parseF32 : List Char → Option F) (toks : List Token) (p : Parser F) : Prop :=
  p.inTreinloc = true →
    ∃ body, AfterLast (Token.IsStart "TreinLocation") toks body ∧ Traced parseF32 body p

variable {parseF32 : List Char → Option F} {p : Parser F} {toks : List Token}

theorem Inv.step (h : Inv parseF32 toks p) (tok : Token) :
    Inv parseF32 (toks ++ [tok]) (p.step parseF32 tok).1 := by
  intro hopen
  by_cases hstart : tok.IsStart "TreinLocation"
  · -- everything is cleared
    obtain ⟨q,rfl,hq⟩ := hstart
    refine ⟨[],afterLast_concat toks ⟨q,rfl,hq⟩,?_⟩
    change Traced parseF32 [] (p.elementStart q.loc)
    rw [hq]
    exact ⟨nofun,nofun,nofun,nofun,nofun,nofun,nofun⟩
  · have hloc := Parser.inTreinloc_of_step hstart hopen
    obtain ⟨body,hlast,htraced⟩ := h hloc
    exact ⟨body ++ [tok],hlast.concat hstart,htraced.step hloc hstart hopen⟩

theorem inv_run (parseF32 : List Char → Option F) (toks : List Token) :
    Inv parseF32 toks (Transducer.run (Parser.step parseF32) Parser.init toks).1 :=
  Transducer.run_induction nofun (fun _ _ tok h => h.step tok) toks

/-- A location pays for one train. -/
theorem length_run_le_one {body : List Token}
    (hbody : ∀ tok ∈ body, ¬ tok.IsStart "TreinLocation") :
    (Transducer.run (Parser.step parseF32) p body).2.length ≤ 1 := by
  have hpaid : ∀ tok ∈ body, ∀ q : Parser F, (q.step parseF32 tok).2.length +
      (q.step parseF32 tok).1.inTreinloc.toNat ≤ q.inTreinloc.toNat := by
    intro tok htok q
    obtain h | ⟨-,hin,hout,-⟩ := q.step_silent_or_closes parseF32 tok
    · rw [h,List.length_nil,Nat.zero_add]
      exact Bool.toNat_le_toNat (Parser.inTreinloc_of_step (hbody tok htok))
    · rw [hin,hout]
      exact q.length_step_le_one parseF32 tok
  exact (Transducer.length_run_le (f := fun q => q.inTreinloc.toNat) hpaid).trans (Bool.toNat_le _)

/-- On any tokens: each call of `on_train` happens at an end and passes values of the
location that started last, and between two starts of locations there is at most one. -/
theorem calls_from_one_location {ε : Type} (tokenizer : String → List (Except ε Token))
    (parseF32 : List Char → Option F) (xml : String) :
    let tokens := (tokenizer xml).filterMap Except.toOption
    let calls (toks : List Token) := (Transducer.run (Parser.step parseF32) Parser.init toks).2
    (∀ out train out', parse tokenizer parseF32 xml = out ++ train :: out' →
      ∃ pre tail post, tokens = pre ++ .elementEnd tail :: post ∧ calls pre = out ∧
        calls (pre ++ [.elementEnd tail]) = out ++ [train] ∧
        FromOneLocation parseF32 pre train) ∧
    (∀ pre start body post, tokens = pre ++ start :: body ++ post →
      start.IsStart "TreinLocation" → (∀ tok ∈ body, ¬ tok.IsStart "TreinLocation") →
      (calls (pre ++ start :: body)).length ≤ (calls (pre ++ [start])).length + 1) := by
  intro tokens calls
  constructor
  · intro out train out' hparse
    obtain ⟨pre,tok,post,htokens,hpre,htok⟩ :=
      Transducer.exists_emitting (Parser.length_step_le_one parseF32) hparse
    obtain h | ⟨⟨tail,rfl⟩,hin,-,h⟩ :=
      Parser.step_silent_or_closes parseF32 (Transducer.run (Parser.step parseF32) .init pre).1 tok
    · rw [h] at htok
      cases htok
    · have htrain := Option.toList_eq_singleton_iff.mp (h.symm.trans htok)
      obtain ⟨hnum,hlon,hlat⟩ := Parser.of_train?_eq_some htrain
      obtain ⟨body,hlast,htraced⟩ := inv_run parseF32 pre hin
      refine ⟨pre,tail,post,htokens,hpre,?_,body,hlast,htraced.nummer _ hnum,htraced.lon _ hlon,
        htraced.lat _ hlat⟩
      dsimp only [calls]
      rw [Transducer.run_concat,htok,hpre]
  · intro pre start body post _ _ hbody
    have hsplit : pre ++ start :: body = pre ++ [start] ++ body := by
      rw [List.append_assoc,List.singleton_append]
    dsimp only [calls]
    rw [hsplit,Transducer.run_append,List.length_append]
    exact Nat.add_le_add_left (length_run_le_one hbody) _

end NsPixels.XmlParser
