import Mathlib.Tactic.Common
import Mathlib.Data.UInt
import Mathlib.Tactic.Ring

/-!
# The protobuf wire format

A serialised message is a sequence of fields: a tag (the field number and a wire type, packed
into one varint) and a payload. This module has the two wire types that the messages of a `proto3`
schema without floating-point and fixed-width fields use, varints and length-delimited bytes, at
the level of lists of fields; the schema of a particular message is left to its user.

The main result is the round trip `decodeFields_encodeFields`: a list of fields is recovered from
its encoding. It rests on the same statement for a varint followed by arbitrary bytes, which makes
the format self-delimiting. `readScalars_scalarFields` is the same for a message whose fields are
numbers and strings, numbered consecutively, with default values omitted.
-/

namespace Wire

/-! ### Varints -/

/-- Base-128 digits, least significant first, with the continuation bit on all but the last;
at most `k + 1` bytes. -/
def varintAux : ℕ → ℕ → List UInt8
  | 0, n => [UInt8.ofNat n]
  | k + 1, n =>
      if n < 128 then [UInt8.ofNat n]
      else UInt8.ofNat (n % 128 + 128) :: varintAux k (n / 128)

/-- The varint of a 64-bit number has at most ten bytes. -/
def varint (n : ℕ) : List UInt8 := varintAux 9 n

/-- Reads up to and including the first byte without the continuation bit, which is one of the next
`k + 1`. -/
def decodeVarintAux : ℕ → List UInt8 → Option (ℕ × List UInt8)
  | _, [] => none
  | 0, b :: bs => if b.toNat < 128 then some (b.toNat, bs) else none
  | k + 1, b :: bs =>
      if b.toNat < 128 then some (b.toNat, bs)
      else (decodeVarintAux k bs).map fun p => (b.toNat - 128 + 128 * p.1, p.2)

/-- Reads a varint off the front. -/
def decodeVarint (bs : List UInt8) : Option (ℕ × List UInt8) := decodeVarintAux 9 bs

/-- Digits are read back whatever follows them: the last of them has no continuation bit. -/
theorem decodeVarintAux_varintAux (k : ℕ) {n : ℕ} (h : n < 128 ^ (k + 1)) (rest : List UInt8) :
    decodeVarintAux k (varintAux k n ++ rest) = some (n, rest) := by
  induction k generalizing n with
  | zero =>
    have hn : n < 128 := by simpa using h
    simp only [varintAux, List.singleton_append, decodeVarintAux, UInt8.toNat_ofNat']
    rw [Nat.mod_eq_of_lt (by omega), if_pos hn]
  | succ k ih =>
    by_cases hn : n < 128
    · simp only [varintAux, if_pos hn, List.singleton_append, decodeVarintAux, UInt8.toNat_ofNat']
      rw [Nat.mod_eq_of_lt (by omega), if_pos hn]
    · have hdiv : n / 128 < 128 ^ (k + 1) := by
        rw [Nat.div_lt_iff_lt_mul (by decide), ← pow_succ]
        exact h
      simp only [varintAux, if_neg hn, List.cons_append, decodeVarintAux, UInt8.toNat_ofNat']
      rw [Nat.mod_eq_of_lt (by omega), if_neg (by omega), ih hdiv]
      simp only [Option.map_some, Option.some.injEq, Prod.mk.injEq, and_true]
      omega

/-- A varint is read back whatever follows it. -/
theorem decodeVarint_varint {n : ℕ} (h : n < 2 ^ 64) (rest : List UInt8) :
    decodeVarint (varint n ++ rest) = some (n, rest) :=
  decodeVarintAux_varintAux 9 (lt_of_lt_of_le h (by decide)) rest

theorem varint_ne_nil (n : ℕ) : varint n ≠ [] := by
  rw [varint, varintAux]
  split_ifs <;> simp

/-! ### Lengths of varints -/

theorem length_varintAux_pos (k n : ℕ) : 0 < (varintAux k n).length := by
  cases k with
  | zero => simp [varintAux]
  | succ k => rw [varintAux]; split_ifs <;> simp

theorem length_varintAux_of_lt (k : ℕ) {n : ℕ} (h : n < 128) : (varintAux k n).length = 1 := by
  cases k with
  | zero => rfl
  | succ k => rw [varintAux, if_pos h, List.length_singleton]

theorem length_varintAux_succ_of_le (k : ℕ) {n : ℕ} (h : 128 ≤ n) :
    (varintAux (k + 1) n).length = (varintAux k (n / 128)).length + 1 := by
  rw [varintAux, if_neg (by omega), List.length_cons]

theorem length_varintAux_le (k n : ℕ) : (varintAux k n).length ≤ k + 1 := by
  induction k generalizing n with
  | zero => exact le_rfl
  | succ k ih =>
    rw [varintAux]
    split_ifs
    · rw [List.length_singleton]
      omega
    · rw [List.length_cons]
      exact Nat.succ_le_succ (ih _)

/-- A larger number has no fewer digits. -/
theorem length_varintAux_mono (k : ℕ) {a b : ℕ} (h : a ≤ b) :
    (varintAux k a).length ≤ (varintAux k b).length := by
  induction k generalizing a b with
  | zero => exact le_rfl
  | succ k ih =>
    by_cases ha : a < 128
    · rw [length_varintAux_of_lt _ ha]
      exact length_varintAux_pos _ _
    · rw [length_varintAux_succ_of_le k (by omega), length_varintAux_succ_of_le k (by omega)]
      exact Nat.succ_le_succ (ih (Nat.div_le_div_right h))

/-- The digits of a sum, by induction on their number. A carry adds one digit at most, and both
terms have one then. -/
theorem length_varintAux_add_le (k a b : ℕ) :
    (varintAux k (a + b)).length ≤ (varintAux k a).length + (varintAux k b).length := by
  induction k generalizing a b with
  | zero => exact Nat.le_succ 1
  | succ k ih =>
    have hone : (varintAux k 1).length = 1 := length_varintAux_of_lt k (by decide)
    -- the carry of the lowest digits is at most one
    have hcarry : (varintAux k ((a + b) / 128)).length ≤
        (varintAux k (a / 128 + b / 128)).length + 1 := by
      have hmono := length_varintAux_mono k (a := (a + b) / 128) (b := a / 128 + b / 128 + 1)
        (by omega)
      have hadd := ih (a / 128 + b / 128) 1
      omega
    have hadd := ih (a / 128) (b / 128)
    by_cases hab : a + b < 128
    · rw [length_varintAux_of_lt _ hab]
      have ha := length_varintAux_pos (k + 1) a
      omega
    · rw [length_varintAux_succ_of_le k (by omega)]
      by_cases ha : a < 128
      · rw [length_varintAux_of_lt _ ha]
        by_cases hb : b < 128
        · rw [length_varintAux_of_lt _ hb, length_varintAux_of_lt _ (by omega)]
        · rw [length_varintAux_succ_of_le k (by omega)]
          rw [Nat.div_eq_of_lt ha, zero_add] at hcarry
          omega
      · rw [length_varintAux_succ_of_le k (n := a) (by omega)]
        by_cases hb : b < 128
        · rw [length_varintAux_of_lt _ hb]
          rw [Nat.div_eq_of_lt hb, add_zero] at hcarry
          omega
        · rw [length_varintAux_succ_of_le k (n := b) (by omega)]
          omega

theorem length_varint_pos (n : ℕ) : 0 < (varint n).length := length_varintAux_pos 9 n

theorem length_varint_le (n : ℕ) : (varint n).length ≤ 10 := length_varintAux_le 9 n

theorem length_varint_of_lt {n : ℕ} (h : n < 128) : (varint n).length = 1 :=
  length_varintAux_of_lt 9 h

theorem length_varint_mono {a b : ℕ} (h : a ≤ b) : (varint a).length ≤ (varint b).length :=
  length_varintAux_mono 9 h

/-- The varint of a sum is no longer than those of its terms. -/
theorem length_varint_add_le (a b : ℕ) :
    (varint (a + b)).length ≤ (varint a).length + (varint b).length :=
  length_varintAux_add_le 9 a b

/-- The digits that are read may end in zeros, so there are no fewer of them than are needed. -/
theorem length_varintAux_le_of_decodeVarintAux {k n : ℕ} {bs rest : List UInt8}
    (h : decodeVarintAux k bs = some (n, rest)) :
    (varintAux k n).length + rest.length ≤ bs.length := by
  induction k generalizing bs n rest with
  | zero =>
    cases bs with
    | nil => cases h
    | cons b bs =>
      rw [decodeVarintAux] at h
      split_ifs at h with hb
      cases h
      rw [length_varintAux_of_lt _ hb, List.length_cons]
      omega
  | succ k ih =>
    cases bs with
    | nil => cases h
    | cons b bs =>
      rw [decodeVarintAux] at h
      split_ifs at h with hb
      · cases h
        rw [length_varintAux_of_lt _ hb, List.length_cons]
        omega
      · obtain ⟨⟨m, rest'⟩, hm, heq⟩ := Option.map_eq_some_iff.mp h
        obtain ⟨rfl, rfl⟩ := Prod.ext_iff.mp heq
        dsimp only
        have hlen := ih hm
        rw [List.length_cons]
        by_cases hn : b.toNat - 128 + 128 * m < 128
        · rw [length_varintAux_of_lt _ hn]
          have hpos := length_varintAux_pos k m
          omega
        · rw [length_varintAux_succ_of_le k (by omega)]
          have hmono := length_varintAux_mono k (a := (b.toNat - 128 + 128 * m) / 128) (b := m)
            (by have hlt := b.toNat_lt; omega)
          omega

/-- Reading takes no fewer bytes than the shortest varint of what is read. -/
theorem length_varint_le_of_decodeVarint {n : ℕ} {bs rest : List UInt8}
    (h : decodeVarint bs = some (n, rest)) : (varint n).length + rest.length ≤ bs.length :=
  length_varintAux_le_of_decodeVarintAux h

/-! ### Signed numbers -/

/-- The number that is written for an `int`, which is extended with its sign to 64 bits. -/
def signExtend (v : Int32) : ℕ := (v.toInt % 2 ^ 64).toNat

/-- The lower 32 bits of that number, all that a reader keeps. -/
def lowBits (v : Int32) : ℕ := (v.toInt % 2 ^ 32).toNat

theorem signExtend_lt (v : Int32) : signExtend v < 2 ^ 64 := by
  rw [signExtend]
  omega

/-- An `int` is recovered from its extension. -/
theorem ofInt_signExtend (v : Int32) : Int32.ofInt (signExtend v) = v := by
  have hlow := v.le_toInt
  have hhigh := v.toInt_lt
  rw [← Int32.toInt_inj, Int32.toInt_ofInt, signExtend, Int32.size, Int.bmod_def]
  split_ifs <;> omega

theorem lowBits_ofInt_le (n : ℕ) : lowBits (Int32.ofInt n) ≤ n := by
  have hn : (0 : ℤ) ≤ n := Int.natCast_nonneg n
  rw [lowBits, Int32.toInt_ofInt, Int32.size, Int.bmod_def]
  split_ifs <;> omega

/-- What follows a tag: a number (wire type 0) or as many bytes as are announced (wire type 2). -/
inductive Payload
  | varint (n : ℕ)
  | bytes (data : List UInt8)
  deriving DecidableEq, Repr

/-- A field with its number. -/
structure Field where
  number : ℕ
  payload : Payload
  deriving DecidableEq, Repr

/-- The numbers of the field are in the range of the format. -/
def Field.Bounded (f : Field) : Prop :=
  f.number < 2 ^ 29 ∧ ∀ n, f.payload = .varint n → n < 2 ^ 64

/-- The field fits: its tag, its number and its length are 64-bit numbers. -/
def Field.Fits (f : Field) : Prop :=
  f.number < 2 ^ 29 ∧
    match f.payload with
    | .varint n => n < 2 ^ 64
    | .bytes data => data.length < 2 ^ 64

/-- The bytes of a field. -/
def encodeField (f : Field) : List UInt8 :=
  match f.payload with
  | .varint n => varint (8 * f.number) ++ varint n
  | .bytes data => varint (8 * f.number + 2) ++ (varint data.length ++ data)

/-- The tag of a field: its number and its wire type. -/
def Field.tag (f : Field) : ℕ :=
  match f.payload with
  | .varint _ => 8 * f.number
  | .bytes _ => 8 * f.number + 2

/-- A length and as many bytes. -/
def delimited (data : List UInt8) : List UInt8 := varint data.length ++ data

/-- The bytes that follow the tag. -/
def encodePayload : Payload → List UInt8
  | .varint n => varint n
  | .bytes data => delimited data

/-- A field is its tag and what follows the tag. -/
theorem encodeField_eq (f : Field) : encodeField f = varint f.tag ++ encodePayload f.payload := by
  rw [encodeField, Field.tag]
  split
  next h => rw [h, encodePayload]
  next h => rw [h, encodePayload, delimited]

/-- The bytes of a message. -/
def encodeFields (fs : List Field) : List UInt8 := fs.flatMap encodeField

/-- Reads one field off the front. -/
def decodeField (bs : List UInt8) : Option (Field × List UInt8) :=
  (decodeVarint bs).bind fun (tag, bs) =>
    (decodeVarint bs).bind fun (n, bs) =>
      if tag % 8 = 0 then some (⟨tag / 8, .varint n⟩, bs)
      else if tag % 8 = 2 ∧ n ≤ bs.length then some (⟨tag / 8, .bytes (bs.take n)⟩, bs.drop n)
      else none

/-- Reads fields up to the end, at most `fuel` of them. -/
def decodeFieldsAux : ℕ → List UInt8 → Option (List Field)
  | _, [] => some []
  | 0, _ :: _ => none
  | fuel + 1, bs => (decodeField bs).bind fun (f, bs) => (decodeFieldsAux fuel bs).map (f :: ·)

/-- Reads a message. No field is empty, so there are no more fields than bytes. -/
def decodeFields (bs : List UInt8) : Option (List Field) := decodeFieldsAux bs.length bs

theorem encodeField_ne_nil (f : Field) : encodeField f ≠ [] := by
  rw [encodeField]
  split <;> simp [varint_ne_nil]

@[simp] theorem encodeFields_nil : encodeFields [] = [] := rfl

theorem encodeFields_cons (f : Field) (fs : List Field) :
    encodeFields (f :: fs) = encodeField f ++ encodeFields fs :=
  List.flatMap_cons

theorem encodeFields_append (fs gs : List Field) :
    encodeFields (fs ++ gs) = encodeFields fs ++ encodeFields gs :=
  List.flatMap_append

/-- A field is read back whatever follows it. -/
theorem decodeField_encodeField {f : Field} (hf : f.Fits) (rest : List UInt8) :
    decodeField (encodeField f ++ rest) = some (f, rest) := by
  obtain ⟨number, payload⟩ := f
  obtain ⟨hnum, hpay⟩ := hf
  dsimp only at hnum
  cases payload with
  | varint n =>
    simp only [decodeField, encodeField, List.append_assoc]
    rw [decodeVarint_varint (by omega), Option.bind_some, decodeVarint_varint hpay,
      Option.bind_some, if_pos (by omega), Nat.mul_div_cancel_left _ (by decide)]
  | bytes data =>
    simp only [decodeField, encodeField, List.append_assoc]
    rw [decodeVarint_varint (by omega), Option.bind_some, decodeVarint_varint hpay,
      Option.bind_some, if_neg (by omega), if_pos ⟨by omega, by simp⟩, List.take_left' rfl,
      List.drop_left' rfl]
    congr
    omega

theorem decodeFieldsAux_encodeFields {fs : List Field} (hfs : ∀ f ∈ fs, f.Fits) {fuel : ℕ}
    (hfuel : fs.length ≤ fuel) : decodeFieldsAux fuel (encodeFields fs) = some fs := by
  induction fs generalizing fuel with
  | nil => cases fuel <;> rfl
  | cons f fs ih =>
    obtain ⟨fuel, rfl⟩ : ∃ k, fuel = k + 1 := ⟨fuel - 1, by simp at hfuel; omega⟩
    obtain ⟨b, bs, hb⟩ := List.exists_cons_of_ne_nil (encodeField_ne_nil f)
    have hstep : decodeFieldsAux (fuel + 1) (encodeField f ++ encodeFields fs) =
        (decodeField (encodeField f ++ encodeFields fs)).bind fun (g, bs) =>
          (decodeFieldsAux fuel bs).map (g :: ·) := by
      rw [hb, List.cons_append, decodeFieldsAux]
      exact List.cons_ne_nil _ _
    rw [encodeFields_cons, hstep, decodeField_encodeField (hfs f List.mem_cons_self),
      Option.bind_some]
    dsimp only
    rw [ih (fun g hg => hfs g (List.mem_cons_of_mem f hg)) (by simpa using hfuel), Option.map_some]

/-- Fields of `k` bytes and more take `k` times their number. -/
theorem mul_le_length_encodeFields {k : ℕ} {fs : List Field}
    (h : ∀ f ∈ fs, k ≤ (encodeField f).length) : fs.length * k ≤ (encodeFields fs).length := by
  induction fs with
  | nil => simp
  | cons f fs ih =>
    have hf := h f (List.mem_cons_self ..)
    have hfs := ih fun g hg => h g (List.mem_cons_of_mem _ hg)
    rw [encodeFields_cons, List.length_append, List.length_cons, Nat.succ_mul]
    omega

theorem length_le_length_encodeFields (fs : List Field) : fs.length ≤ (encodeFields fs).length := by
  have h := mul_le_length_encodeFields (k := 1) fun f (_ : f ∈ fs) =>
    List.length_pos_of_ne_nil (encodeField_ne_nil f)
  rwa [mul_one] at h

theorem length_payload_le {f : Field} {data : List UInt8} (h : f.payload = .bytes data) :
    data.length ≤ (encodeField f).length := by
  rw [encodeField, h]
  dsimp only
  simp only [List.length_append]
  omega

/-- A field takes no more bytes than the message it is in. -/
theorem length_encodeField_le {f : Field} {fs : List Field} (h : f ∈ fs) :
    (encodeField f).length ≤ (encodeFields fs).length := by
  obtain ⟨as, bs, rfl⟩ := List.append_of_mem h
  rw [encodeFields, List.flatMap_append, List.flatMap_cons]
  simp only [List.length_append]
  omega

/-- **Round trip.** A list of fields is recovered from its encoding. -/
theorem decodeFields_encodeFields {fs : List Field} (hfs : ∀ f ∈ fs, f.Bounded)
    (hlen : (encodeFields fs).length < 2 ^ 64) : decodeFields (encodeFields fs) = some fs := by
  refine decodeFieldsAux_encodeFields (fun f hf => ⟨(hfs f hf).1, ?_⟩)
    (length_le_length_encodeFields fs)
  match hp : f.payload with
  | .varint n => exact (hfs f hf).2 n hp
  | .bytes data =>
    exact lt_of_le_of_lt ((length_payload_le hp).trans (length_encodeField_le hf)) hlen

/-! ### Records of numbers and strings -/

/-- The bytes of a string. -/
def utf8 (s : String) : List UInt8 := s.toByteArray.data.toList

/-- A string from its bytes; `none` if they are not UTF-8. -/
def decodeUtf8 (data : List UInt8) : Option String := String.fromUTF8? data.toByteArray

theorem decodeUtf8_utf8 (s : String) : decodeUtf8 (utf8 s) = some s := by
  have h : (utf8 s).toByteArray = s.toByteArray := by
    rw [utf8, ByteArray.ext_iff, ← Array.toList_inj, List.toList_data_toByteArray]
  rw [decodeUtf8, h, String.fromUTF8?, dif_pos s.isValidUTF8]
  rfl

theorem utf8_of_decodeUtf8 {data : List UInt8} {s : String} (h : decodeUtf8 data = some s) :
    utf8 s = data := by
  rw [decodeUtf8, String.fromUTF8?] at h
  split_ifs at h
  rw [Option.some.injEq] at h
  rw [← h, utf8]
  exact List.toList_data_toByteArray

/-- The value of a field that is not a message. -/
inductive Scalar
  | uint64 (v : UInt64)
  | string (s : String)

/-- The type of such a field. -/
inductive Kind
  | uint64
  | string

def Scalar.kind : Scalar → Kind
  | .uint64 _ => .uint64
  | .string _ => .string

/-- A scalar field; default values are not written. -/
def Scalar.fields (number : ℕ) : Scalar → List Field
  | .uint64 v => if v = 0 then [] else [⟨number, .varint v.toNat⟩]
  | .string s => if s = "" then [] else [⟨number, .bytes (utf8 s)⟩]

/-- Scalar fields numbered consecutively from `number`. -/
def scalarFields : ℕ → List Scalar → List Field
  | _, [] => []
  | number, v :: vs => v.fields number ++ scalarFields (number + 1) vs

/-- Reads the field `number` of the given kind, if the list starts with it. -/
def readScalar (number : ℕ) : Kind → List Field → Option (Scalar × List Field)
  | .uint64, [] => some (.uint64 0, [])
  | .string, [] => some (.string "", [])
  | .uint64, f :: fs =>
      if f.number = number then
        match f.payload with
        | .varint n => some (.uint64 (UInt64.ofNat n), fs)
        | .bytes _ => none
      else some (.uint64 0, f :: fs)
  | .string, f :: fs =>
      if f.number = number then
        match f.payload with
        | .varint _ => none
        | .bytes data => (decodeUtf8 data).map fun s => (.string s, fs)
      else some (.string "", f :: fs)

/-- Reads fields of the given kinds, numbered consecutively, up to the end. -/
def readScalars : ℕ → List Kind → List Field → Option (List Scalar)
  | _, [], [] => some []
  | _, [], _ :: _ => none
  | number, k :: ks, fs =>
      (readScalar number k fs).bind fun (v, fs) => (readScalars (number + 1) ks fs).map (v :: ·)

/-- Fields are numbered upwards. -/
theorem le_number_of_mem_scalarFields {number : ℕ} {vs : List Scalar} {f : Field}
    (h : f ∈ scalarFields number vs) : number ≤ f.number := by
  induction vs generalizing number with
  | nil => cases h
  | cons v vs ih =>
    rcases List.mem_append.mp h with h | h
    · cases v <;> simp only [Scalar.fields] at h <;> split_ifs at h <;> simp_all
    · exact Nat.le_of_succ_le (ih h)

/-- A string takes no more bytes than the record it is in. -/
theorem length_utf8_le_of_mem {number : ℕ} {vs : List Scalar} {s : String} (h : .string s ∈ vs) :
    (utf8 s).length ≤ (encodeFields (scalarFields number vs)).length := by
  induction vs generalizing number with
  | nil => cases h
  | cons v vs ih =>
    rw [scalarFields, encodeFields_append, List.length_append]
    rcases List.mem_cons.mp h with rfl | h
    · rw [Scalar.fields]
      split_ifs with hs
      · rw [hs]
        exact Nat.zero_le _
      · have hle := length_payload_le (f := ⟨number, .bytes (utf8 s)⟩) rfl
        rw [encodeFields_cons, List.length_append]
        omega
    · have hle : _ ≤ (encodeFields (scalarFields (number + 1) vs)).length := ih h
      omega

/-- A scalar is read back, also one that has not been written because it is the default: the next
field has another number. -/
theorem readScalar_fields (number : ℕ) (v : Scalar) {fs : List Field}
    (hfs : ∀ f ∈ fs, f.number ≠ number) :
    readScalar number v.kind (v.fields number ++ fs) = some (v, fs) := by
  have hskip : ∀ f fs', fs = f :: fs' → f.number ≠ number := fun f fs' h =>
    hfs f (by rw [h]; exact List.mem_cons_self)
  cases v with
  | uint64 v =>
    by_cases hv : v = 0
    · subst hv
      cases fs with
      | nil => rfl
      | cons f fs => exact if_neg (hskip f fs rfl)
    · simp [Scalar.kind, Scalar.fields, hv, readScalar]
  | string s =>
    by_cases hs : s = ""
    · subst hs
      cases fs with
      | nil => rfl
      | cons f fs => exact if_neg (hskip f fs rfl)
    · simp [Scalar.kind, Scalar.fields, hs, readScalar, decodeUtf8_utf8]

/-- **Round trip** for records of numbers and strings. -/
theorem readScalars_scalarFields (number : ℕ) (vs : List Scalar) :
    readScalars number (vs.map Scalar.kind) (scalarFields number vs) = some vs := by
  induction vs generalizing number with
  | nil => rfl
  | cons v vs ih =>
    have hne : ∀ f ∈ scalarFields (number + 1) vs, f.number ≠ number := fun f hf =>
      Nat.ne_of_gt (le_number_of_mem_scalarFields hf)
    rw [List.map_cons, scalarFields, readScalars, readScalar_fields number v hne, Option.bind_some]
    dsimp only
    rw [ih, Option.map_some]

theorem bounded_of_mem_scalarFields {number : ℕ} {vs : List Scalar} {f : Field}
    (hlt : number + vs.length < 2 ^ 29) (h : f ∈ scalarFields number vs) : f.Bounded := by
  induction vs generalizing number with
  | nil => cases h
  | cons v vs ih =>
    rw [List.length_cons] at hlt
    rcases List.mem_append.mp h with h | h
    · cases v with
      | uint64 v =>
        simp only [Scalar.fields] at h
        split_ifs at h
        · cases h
        · rw [List.mem_singleton.mp h]
          refine ⟨by dsimp only; omega, fun n hn => ?_⟩
          cases hn
          exact v.toNat_lt
      | string s =>
        simp only [Scalar.fields] at h
        split_ifs at h
        · cases h
        · rw [List.mem_singleton.mp h]
          exact ⟨by dsimp only; omega, fun n hn => by cases hn⟩
    · exact ih (by omega) h

/-! ### Messages -/

/-- The bytes of a record of numbers and strings. -/
def encodeScalars (vs : List Scalar) : List UInt8 := encodeFields (scalarFields 1 vs)

/-- Reads a record of numbers and strings. -/
def decodeScalars (ks : List Kind) (data : List UInt8) : Option (List Scalar) :=
  (decodeFields data).bind (readScalars 1 ks)

/-- A record is read back. -/
theorem decodeScalars_encodeScalars (vs : List Scalar) (hcount : vs.length < 2 ^ 28)
    (hlen : (encodeScalars vs).length < 2 ^ 64) :
    decodeScalars (vs.map Scalar.kind) (encodeScalars vs) = some vs := by
  rw [decodeScalars, encodeScalars, decodeFields_encodeFields
    (fun f hf => bounded_of_mem_scalarFields (by omega) hf) hlen, Option.bind_some,
    readScalars_scalarFields]

/-- The bytes of a `oneof` of submessages: the number of the case that is set and its bytes. -/
def encodeOneof : Option (ℕ × List UInt8) → List UInt8
  | none => []
  | some (number, data) => encodeFields [⟨number, .bytes data⟩]

/-- Reads a `oneof` of submessages. -/
def decodeOneof (bs : List UInt8) : Option (Option (ℕ × List UInt8)) :=
  (decodeFields bs).bind fun fs =>
    match fs with
    | [] => some none
    | [⟨number, .bytes data⟩] => some (some (number, data))
    | _ => none

/-- The case of a `oneof` is read back. -/
theorem decodeOneof_encodeOneof {number : ℕ} {data : List UInt8} (hnum : number < 2 ^ 29)
    (hlen : (encodeOneof (some (number, data))).length < 2 ^ 64) :
    decodeOneof (encodeOneof (some (number, data))) = some (some (number, data)) := by
  have hb : ∀ f ∈ [(⟨number, .bytes data⟩ : Field)], f.Bounded := by
    intro f hf
    rw [List.mem_singleton.mp hf]
    exact ⟨hnum, fun n hn => by cases hn⟩
  rw [decodeOneof, encodeOneof, decodeFields_encodeFields hb hlen, Option.bind_some]

theorem length_lt_of_encodeOneof {number b : ℕ} {data : List UInt8}
    (h : (encodeOneof (some (number, data))).length < b) : data.length < b :=
  lt_of_le_of_lt ((length_payload_le (f := ⟨number, .bytes data⟩) rfl).trans
    (length_encodeField_le List.mem_cons_self)) h

/-- A small case takes two bytes more than its own. -/
theorem length_encodeOneof_of_lt {number : ℕ} {data : List UInt8} (hnum : number ≤ 15)
    (hdata : data.length < 128) :
    (encodeOneof (some (number, data))).length = 2 + data.length := by
  rw [encodeOneof, encodeFields_cons, encodeFields_nil, List.append_nil, encodeField,
    List.length_append, length_varint_of_lt (by dsimp only; omega), List.length_append,
    length_varint_of_lt hdata, ← Nat.add_assoc]

/-- The bytes of a message whose field 1 is a repeated submessage. -/
def encodeRepeated {M : Type} (encode : M → List UInt8) (ms : List M) : List UInt8 :=
  encodeFields (ms.map fun m => ⟨1, .bytes (encode m)⟩)

/-- Items of `k` bytes and more take `k` times their number. -/
theorem mul_le_length_encodeRepeated {M : Type} {encode : M → List UInt8} {k : ℕ} {ms : List M}
    (h : ∀ m ∈ ms, k ≤ (encode m).length) : ms.length * k ≤ (encodeRepeated encode ms).length := by
  rw [encodeRepeated, ← List.length_map (fun m => (⟨1, .bytes (encode m)⟩ : Field))]
  refine mul_le_length_encodeFields fun f hf => ?_
  obtain ⟨m, hm, rfl⟩ := List.mem_map.mp hf
  exact (h m hm).trans (length_payload_le rfl)

/-- Reads a message whose field 1 is a repeated submessage. -/
def decodeRepeated {M : Type} (decode : List UInt8 → Option M) (bs : List UInt8) :
    Option (List M) :=
  (decodeFields bs).bind fun fs => fs.mapM fun f =>
    match f.payload with
    | .bytes data => decode data
    | .varint _ => none

/-- A repeated field is read back if each of its items is. -/
theorem decodeRepeated_encodeRepeated {M : Type} {encode : M → List UInt8}
    {decode : List UInt8 → Option M}
    (hround : ∀ m, (encode m).length < 2 ^ 64 → decode (encode m) = some m) {ms : List M}
    (hlen : (encodeRepeated encode ms).length < 2 ^ 64) :
    decodeRepeated decode (encodeRepeated encode ms) = some ms := by
  have hb : ∀ f ∈ ms.map fun m => (⟨1, .bytes (encode m)⟩ : Field), f.Bounded := by
    intro f hf
    obtain ⟨m, -, rfl⟩ := List.mem_map.mp hf
    exact ⟨show 1 < 2 ^ 29 by decide, fun n hn => by cases hn⟩
  have hlt : ∀ m ∈ ms, decode (encode m) = some m := by
    intro m hm
    have hle := length_encodeField_le
      (List.mem_map_of_mem (f := fun m => (⟨1, .bytes (encode m)⟩ : Field)) hm)
    refine hround m (lt_of_le_of_lt ?_ hlen)
    exact (length_payload_le (f := ⟨1, .bytes (encode m)⟩) rfl).trans hle
  rw [decodeRepeated, encodeRepeated, decodeFields_encodeFields hb hlen, Option.bind_some,
    List.mapM_map]
  clear hb hlen
  induction ms with
  | nil => rfl
  | cons m ms ih =>
    rw [List.mapM_cons, ih fun x hx => hlt x (List.mem_cons_of_mem m hx)]
    simp only [Function.comp_apply, hlt m List.mem_cons_self]
    rfl

end Wire
