import Mathlib.Data.UInt
import Mathlib.Data.List.Basic

/-!
# Hexadecimal digits of bytes

Two digits a byte, the high half first. A codec writes lower case; what it reads in
upper case or in mixed case is left to it.
-/

namespace Hex

/-- An ASCII character that is a hexadecimal digit. -/
def IsDigit (c : UInt8) : Prop := 48 ≤ c ∧ c ≤ 57 ∨ 65 ≤ c ∧ c ≤ 70 ∨ 97 ≤ c ∧ c ≤ 102

instance : DecidablePred IsDigit := fun c => by unfold IsDigit; infer_instance

/-- An encoder and a decoder of bytes that fit together. -/
structure Codec where
  encode : List UInt8 → List UInt8
  decode : List UInt8 → Option (List UInt8)
  length_encode : ∀ bytes, (encode bytes).length = 2 * bytes.length
  decode_encode : ∀ bytes, decode (encode bytes) = some bytes
  length_of_decode : ∀ digits bytes, decode digits = some bytes → digits.length = 2 * bytes.length
  isDigit_of_decode : ∀ digits bytes, decode digits = some bytes → ∀ c ∈ digits, IsDigit c

/-! ### The digits of ASCII -/

def digit (d : ℕ) : UInt8 := UInt8.ofNat (if d < 10 then 48 + d else 87 + d)

def value (c : UInt8) : Option ℕ :=
  if 48 ≤ c ∧ c ≤ 57 then some (c.toNat - 48)
  else if 65 ≤ c ∧ c ≤ 70 then some (c.toNat - 55)
  else if 97 ≤ c ∧ c ≤ 102 then some (c.toNat - 87)
  else none

theorem value_digit : ∀ d < 16, value (digit d) = some d := by decide

theorem isDigit_of_value {c : UInt8} {d : ℕ} (h : value c = some d) : IsDigit c := by
  unfold value at h
  split at h
  · exact .inl ‹_›
  · split at h
    · exact .inr (.inl ‹_›)
    · split at h
      · exact .inr (.inr ‹_›)
      · cases h

def encode (bytes : List UInt8) : List UInt8 :=
  bytes.flatMap fun b => [digit (b.toNat / 16),digit (b.toNat % 16)]

def decode : List UInt8 → Option (List UInt8)
  | [] => some []
  | [_] => none
  | hi :: lo :: rest => do
    let h ← value hi
    let l ← value lo
    let bytes ← decode rest
    pure (UInt8.ofNat (16 * h + l) :: bytes)

theorem decode_cons_cons {hi lo : UInt8} {rest bytes : List UInt8} :
    decode (hi :: lo :: rest) = some bytes ↔ ∃ h l tail, value hi = some h ∧ value lo = some l ∧
      decode rest = some tail ∧ bytes = UInt8.ofNat (16 * h + l) :: tail := by
  simp only [decode,bind,Option.bind_eq_some_iff,pure,Option.some.injEq]
  constructor
  · rintro ⟨h,hh,l,hl,tail,htail,rfl⟩
    exact ⟨h,l,tail,hh,hl,htail,rfl⟩
  · rintro ⟨h,l,tail,hh,hl,htail,rfl⟩
    exact ⟨h,hh,l,hl,tail,htail,rfl⟩

theorem decode_encode (bytes : List UInt8) : decode (encode bytes) = some bytes := by
  induction bytes with
  | nil => rfl
  | cons b bytes ih =>
    have hb := b.toNat_lt
    refine decode_cons_cons.mpr ⟨_,_,_,value_digit _ (by omega),value_digit _ (by omega),ih,?_⟩
    rw [Nat.div_add_mod,UInt8.ofNat_toNat]

theorem spec_of_decode (digits bytes : List UInt8) (h : decode digits = some bytes) :
    digits.length = 2 * bytes.length ∧ ∀ c ∈ digits, IsDigit c := by
  induction digits using decode.induct generalizing bytes with
  | case1 =>
    obtain rfl := Option.some.inj h
    exact ⟨rfl,fun c hc => absurd hc List.not_mem_nil⟩
  | case2 => cases h
  | case3 hi lo rest ih =>
    obtain ⟨x,y,tail,hx,hy,htail,rfl⟩ := decode_cons_cons.mp h
    obtain ⟨hlen,hall⟩ := ih tail htail
    refine ⟨by simp only [List.length_cons]; omega,?_⟩
    intro c hc
    obtain rfl | hc := List.mem_cons.mp hc
    · exact isDigit_of_value hx
    · obtain rfl | hc := List.mem_cons.mp hc
      · exact isDigit_of_value hy
      · exact hall c hc

/-- Lower case out, either case in. -/
def ascii : Codec where
  encode := encode
  decode := decode
  length_encode bytes := (spec_of_decode _ bytes (decode_encode bytes)).1
  decode_encode := decode_encode
  length_of_decode digits bytes h := (spec_of_decode digits bytes h).1
  isDigit_of_decode digits bytes h := (spec_of_decode digits bytes h).2

end Hex
