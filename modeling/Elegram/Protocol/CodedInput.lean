import Elegram.Foundation.TagLoop
import Elegram.Foundation.Wire
import Elegram.Protocol.Proto3

/-!
# The readers of the protobuf runtime

The generated parsers read a `CodedInputStream` with the functions of `WireFormatLite`. Both belong
to the protobuf runtime and are a parameter, `CodedInputStream`, with what the wire format says
about them: a reader gives back what the writer wrote, whatever bytes follow, and it never takes
fewer bytes than the writer would have written; of a signed number it may take half as many. Nothing
is said about what a reader does with any other bytes, and nothing about when a shortcut
(`TagLoop.Hints`) is taken.

All inputs are taken to be below the limit on the total number of bytes that a stream reads, 64 MiB
by default in the 3.0 runtime that `messages.pb.h` asks for. Behind the limit a stream has nothing
left to read, and only `ExpectAtEnd` accepts that as the end of the message.

An entry of a generated parser is built from a reader by `primitive`, `string` or `message`; each
of them comes with the step that the parser's loop makes on the field and with a bound on the size
of the message after it.
-/

namespace Elegram

open Wire TagLoop

/-- What is left of the input up to the current limit, and how many more levels of nested messages
may be entered. -/
structure Input where
  bytes : List UInt8
  budget : ℕ
  deriving DecidableEq

/-- `default_recursion_limit_`. -/
def RECURSION_LIMIT : ℕ := 100

/-- `read` gives back what `write` wrote, and it never takes fewer bytes than that. -/
structure Reads {V : Type} (read : List UInt8 → Option (V × List UInt8)) (write : V → List UInt8)
    (Valid : V → Prop) : Prop where
  read_write : ∀ {v}, Valid v → ∀ rest, read (write v ++ rest) = some (v, rest)
  length_le : ∀ {bs v rest}, read bs = some (v, rest) →
    (write v).length + rest.length ≤ bs.length

/-- Lengths are `int`s. That the data stays below the stream's limit on the total number of bytes is
not said here, see above. -/
def Short (data : List UInt8) : Prop := data.length < 2 ^ 31

/-- The functions of `CodedInputStream` and `WireFormatLite` that the generated parsers call, on
inputs below the limit on the total number of bytes. -/
structure CodedInputStream where
  /-- `ReadTag`: the tag, or zero where there is none, and the bytes behind it. -/
  readTag : List UInt8 → ℕ × List UInt8
  /-- `ReadPrimitive<uint64, TYPE_UINT64>`. -/
  readUInt64 : List UInt8 → Option (UInt64 × List UInt8)
  /-- `ReadPrimitive<int, TYPE_ENUM>`. -/
  readEnum : List UInt8 → Option (Int32 × List UInt8)
  /-- `ReadPrimitive<uint64, TYPE_FIXED64>`. -/
  readFixed64 : List UInt8 → Option (UInt64 × List UInt8)
  readString : List UInt8 → Option (List UInt8 × List UInt8)
  /-- `ReadVarint32` and `PushLimit`: the bytes up to the limit and those behind it. -/
  pushLimit : List UInt8 → Option (List UInt8 × List UInt8)
  skipField : ℕ → Input → Option Input
  readTag_nil : readTag [] = (0, [])
  readTag_varint : ∀ {t}, 0 < t → t < 2 ^ 32 → ∀ rest, readTag (varint t ++ rest) = (t, rest)
  length_readTag : ∀ {bs}, (readTag bs).1 ≠ 0 →
    (varint (readTag bs).1).length + (readTag bs).2.length ≤ bs.length
  reads_uint64 : Reads readUInt64 (fun v => varint v.toNat) fun _ => True
  reads_fixed64 : Reads readFixed64 fixed64 fun _ => True
  readEnum_signExtend : ∀ v rest, readEnum (varint (signExtend v) ++ rest) = some (v, rest)
  /-- The upper half of the number that was written need not be there. -/
  length_readEnum : ∀ {bs v rest}, readEnum bs = some (v, rest) →
    (varint (lowBits v)).length + rest.length ≤ bs.length
  reads_string : Reads readString delimited Short
  reads_pushLimit : Reads pushLimit delimited Short
  skipField_payload : ∀ {f : Field}, f.Fits → (∀ data, f.payload = .bytes data → Short data) →
    ∀ rest budget, skipField f.tag ⟨encodePayload f.payload ++ rest, budget⟩ = some ⟨rest, budget⟩
  length_skipField : ∀ {t i i'}, skipField t i = some i' → i'.bytes.length ≤ i.bytes.length

namespace CodedInputStream

variable (rt : CodedInputStream)

/-- The stream as the generated loops see it. -/
def source : Source Input where
  size i := i.bytes.length
  readTag i := ((rt.readTag i.bytes).1, ⟨(rt.readTag i.bytes).2, i.budget⟩)
  atEnd i := i.bytes.isEmpty
  skip := rt.skipField
  readTag_atEnd i h := by
    rw [List.isEmpty_iff.mp h, rt.readTag_nil]
  size_readTag i h := by
    have hlen := rt.length_readTag h
    have hpos := length_varint_pos (rt.readTag i.bytes).1
    dsimp only
    omega
  size_skip := rt.length_skipField

@[simp] theorem source_size (i : Input) : rt.source.size i = i.bytes.length := rfl

@[simp] theorem source_atEnd (i : Input) : rt.source.atEnd i = i.bytes.isEmpty := rfl

theorem source_readTag_varint {t : ℕ} (hpos : 0 < t) (hlt : t < 2 ^ 32) (rest : List UInt8)
    (budget : ℕ) : rt.source.readTag ⟨varint t ++ rest, budget⟩ = (t, ⟨rest, budget⟩) := by
  simp only [source, rt.readTag_varint hpos hlt]

/-! ### Entries -/

section Entries

variable {M V : Type}

/-- `DO_(ReadPrimitive(input, &field))`. -/
def primitive (read : List UInt8 → Option (V × List UInt8))
    (hread : ∀ bs v rest, read bs = some (v, rest) → rest.length ≤ bs.length)
    (number tag : ℕ) (valid : ValidTag number tag) (set : V → M → M) : Entry rt.source M where
  number := number
  tag := tag
  repeated := false
  read m i := (read i.bytes).map fun p => (set p.1 m, ⟨p.2, i.budget⟩)
  valid := valid
  size_read h := by
    obtain ⟨p, hp, heq⟩ := Option.map_eq_some_iff.mp h
    cases heq
    exact hread _ _ _ hp

/-- `optional uint64 .. = number`. -/
def uint64 (number tag : ℕ) (valid : ValidTag number tag) (set : UInt64 → M → M) :
    Entry rt.source M :=
  rt.primitive rt.readUInt64 (fun _ _ _ h => by have hlen := rt.reads_uint64.length_le h; omega)
    number tag valid set

/-- `optional fixed64 .. = number`. -/
def fixed64 (number tag : ℕ) (valid : ValidTag number tag) (set : UInt64 → M → M) :
    Entry rt.source M :=
  rt.primitive rt.readFixed64 (fun _ _ _ h => by have hlen := rt.reads_fixed64.length_le h; omega)
    number tag valid set

/-- A field of an enumeration type; the number is not checked. -/
def enum (number tag : ℕ) (valid : ValidTag number tag) (set : Int32 → M → M) :
    Entry rt.source M :=
  rt.primitive rt.readEnum (fun _ _ _ h => by have hlen := rt.length_readEnum h; omega)
    number tag valid set

/-- `DO_(ReadString(input, mutable_field()))` and `DO_(VerifyUtf8String(..))`. -/
def string (number tag : ℕ) (valid : ValidTag number tag) (set : String → M → M) :
    Entry rt.source M where
  number := number
  tag := tag
  repeated := false
  read m i := (rt.readString i.bytes).bind fun p =>
    (decodeUtf8 p.1).map fun s => (set s m, ⟨p.2, i.budget⟩)
  valid := valid
  size_read h := by
    obtain ⟨p, hp, h⟩ := Option.bind_eq_some_iff.mp h
    obtain ⟨s, -, heq⟩ := Option.map_eq_some_iff.mp h
    cases heq
    have hlen := rt.reads_string.length_le hp
    rw [source_size, source_size]
    dsimp only
    omega

/-- `ReadMessageNoVirtual`: one level is entered, the submessage is merged up to the limit, and its
parser must have stopped there. -/
def readMessage (merge : V → Input → Option (V × Bool)) (sub : V) (i : Input) :
    Option (V × Input) :=
  (rt.pushLimit i.bytes).bind fun p =>
    if i.budget = 0 then none
    else (merge sub ⟨p.1, i.budget - 1⟩).bind fun q =>
      if q.2 then some (q.1, ⟨p.2, i.budget⟩) else none

/-- `DO_(ReadMessageNoVirtual(input, mutable_field()))`. A repeated field enters one level for all
of its items in a row, which comes to the same. -/
def message (repeated : Bool) (number tag : ℕ) (valid : ValidTag number tag) (mutable : M → V)
    (set : V → M → M) (merge : V → Input → Option (V × Bool)) : Entry rt.source M where
  number := number
  tag := tag
  repeated := repeated
  read m i := (rt.readMessage merge (mutable m) i).map fun p => (set p.1 m, p.2)
  valid := valid
  size_read h := by
    obtain ⟨q, hq, heq⟩ := Option.map_eq_some_iff.mp h
    cases heq
    obtain ⟨p, hp, h⟩ := Option.bind_eq_some_iff.mp hq
    split_ifs at h
    obtain ⟨r, -, h⟩ := Option.bind_eq_some_iff.mp h
    split_ifs at h
    cases h
    have hlen := rt.reads_pushLimit.length_le hp
    rw [source_size, source_size]
    dsimp only
    omega

end Entries

/-! ### The steps of a loop -/

section Steps

variable {rt} {M V : Type} {T : Table rt.source M} {number tag : ℕ} {valid : ValidTag number tag}
  {m : M} {rest : List UInt8} {budget : ℕ}

theorem plain_of_entry {e : Entry rt.source M} (he : e ∈ T.entries) {payload : List UInt8}
    {m' : M} (hread : e.read m ⟨payload ++ rest, budget⟩ = some (m', ⟨rest, budget⟩)) :
    plain T m ⟨varint e.tag ++ payload ++ rest, budget⟩ = plain T m' ⟨rest, budget⟩ := by
  have hpos := e.tag_ne_zero
  have hle := e.valid.2.2.1
  rw [List.append_assoc, plain_of_tag he
    (rt.source_readTag_varint (Nat.pos_of_ne_zero hpos) (by omega) _ _), hread, Option.bind_some]

/-- A number is read back by its case. -/
theorem plain_primitive {read : List UInt8 → Option (V × List UInt8)}
    {hread : ∀ bs v rest, read bs = some (v, rest) → rest.length ≤ bs.length} {set : V → M → M}
    (he : rt.primitive read hread number tag valid set ∈ T.entries) {payload : List UInt8}
    {v : V} (hv : read (payload ++ rest) = some (v, rest)) :
    plain T m ⟨varint tag ++ payload ++ rest, budget⟩ =
      plain T (set v m) ⟨rest, budget⟩ :=
  plain_of_entry he (by simp only [primitive, hv, Option.map_some])

/-- A number is read back, and the default value needs no bytes. -/
theorem plain_uint64 {set : UInt64 → M → M} (he : rt.uint64 number tag valid set ∈ T.entries)
    (htag : tag = 8 * number) (v : UInt64) :
    plain T m ⟨encodeFields ((Scalar.uint64 v).fields number) ++ rest, budget⟩ =
      plain T (if v = 0 then m else set v m) ⟨rest, budget⟩ := by
  rw [Scalar.fields]
  split_ifs with hv
  · rw [encodeFields_nil, List.nil_append]
  · rw [encodeFields_cons, encodeFields_nil, List.append_nil, encodeField, ← htag]
    exact plain_primitive he (rt.reads_uint64.read_write trivial rest)

/-- A string is read back by its case; an empty one is not written. -/
theorem plain_string {set : String → M → M} (he : rt.string number tag valid set ∈ T.entries)
    (htag : tag = 8 * number + 2) {s : String} (hs : Short (utf8 s)) :
    plain T m ⟨encodeFields ((Scalar.string s).fields number) ++ rest, budget⟩ =
      plain T (if s = "" then m else set s m) ⟨rest, budget⟩ := by
  rw [Scalar.fields]
  split_ifs with hempty
  · rw [encodeFields_nil, List.nil_append]
  · rw [encodeFields_cons, encodeFields_nil, List.append_nil, encodeField, ← htag]
    refine plain_of_entry he ?_
    have hread := rt.reads_string.read_write hs rest
    rw [delimited] at hread
    simp only [string, hread, Option.bind_some, decodeUtf8_utf8, Option.map_some]

/-- A submessage is read by the parser of its class, which has its bytes alone. -/
theorem plain_message {repeated : Bool} {mutable : M → V} {set : V → M → M}
    {merge : V → Input → Option (V × Bool)}
    (he : rt.message repeated number tag valid mutable set merge ∈ T.entries)
    (htag : tag = 8 * number + 2) {data : List UInt8} (hdata : Short data) {sub : V}
    (hmerge : merge (mutable m) ⟨data, budget⟩ = some (sub, true)) :
    plain T m ⟨encodeFields [⟨number, .bytes data⟩] ++ rest, budget + 1⟩ =
      plain T (set sub m) ⟨rest, budget + 1⟩ := by
  rw [encodeFields_cons, encodeFields_nil, List.append_nil, encodeField, ← htag]
  refine plain_of_entry he ?_
  have hread := rt.reads_pushLimit.read_write hdata rest
  rw [delimited] at hread
  rw [List.append_assoc] at hread ⊢
  simp [message, readMessage, hread, hmerge]

/-- A field that the table does not know, or knows with another wire type, is skipped. -/
theorem plain_unknown {f : Field} (hf : f.Fits) (hnum : 0 < f.number)
    (hdata : ∀ data, f.payload = .bytes data → Short data)
    (hunknown : ∀ e ∈ T.entries, e.tag ≠ f.tag) :
    plain T m ⟨encodeField f ++ rest, budget⟩ = plain T m ⟨rest, budget⟩ := by
  have htag : f.tag = 8 * f.number ∨ f.tag = 8 * f.number + 2 := by
    rw [Field.tag]
    split
    · exact .inl rfl
    · exact .inr rfl
  have hlt := hf.1
  have hopen : ¬ Closes f.tag := by
    rintro (h | h) <;> omega
  rw [encodeField_eq, List.append_assoc, plain_of_unknown
    (rt.source_readTag_varint (by omega) (by omega) _ _) hopen hunknown]
  change (rt.skipField f.tag _).bind _ = _
  rw [rt.skipField_payload hf hdata, Option.bind_some]

/-- The loop stops behind the last byte. -/
theorem plain_end : plain T m ⟨[], budget⟩ = some (m, true) := plain_of_atEnd rfl

end Steps

/-! ### Sizes -/

section Sizes

variable {rt} {M V : Type} {size : M → ℕ} {T : Table rt.source M} {number tag : ℕ}
  {valid : ValidTag number tag}

/-- The message grows by no more than the bytes read, the byte of the tag among them. -/
def Grows (size : M → ℕ) (e : Entry rt.source M) : Prop :=
  ∀ m i m' i', e.read m i = some (m', i') →
    size m' + i'.bytes.length ≤ size m + 1 + i.bytes.length

theorem grows_primitive {read : List UInt8 → Option (V × List UInt8)}
    {hread : ∀ bs v rest, read bs = some (v, rest) → rest.length ≤ bs.length} {set : V → M → M}
    (hset : ∀ bs v rest m, read bs = some (v, rest) →
      size (set v m) + rest.length ≤ size m + 1 + bs.length) :
    Grows size (rt.primitive read hread number tag valid set) := by
  intro m i m' i' h
  obtain ⟨p, hp, heq⟩ := Option.map_eq_some_iff.mp h
  cases heq
  exact hset _ _ _ m hp

theorem grows_uint64 {set : UInt64 → M → M}
    (hset : ∀ v m, size (set v m) ≤ size m + 1 + (varint v.toNat).length) :
    Grows size (rt.uint64 number tag valid set) := by
  refine grows_primitive fun bs v rest m h => ?_
  have hlen := rt.reads_uint64.length_le h
  have hle := hset v m
  omega

theorem grows_enum {set : Int32 → M → M}
    (hset : ∀ v m, size (set v m) ≤ size m + 1 + (varint (lowBits v)).length) :
    Grows size (rt.enum number tag valid set) := by
  refine grows_primitive fun bs v rest m h => ?_
  have hlen := rt.length_readEnum h
  have hle := hset v m
  omega

theorem grows_string {set : String → M → M}
    (hset : ∀ s m, size (set s m) ≤ size m + 1 + (delimited (utf8 s)).length) :
    Grows size (rt.string number tag valid set) := by
  intro m i m' i' h
  obtain ⟨p, hp, h⟩ := Option.bind_eq_some_iff.mp h
  obtain ⟨s, hs, heq⟩ := Option.map_eq_some_iff.mp h
  cases heq
  have hlen := rt.reads_string.length_le hp
  have hle := hset s m
  rw [utf8_of_decodeUtf8 hs] at hle
  dsimp only
  omega

/-- A submessage counts its bytes and their length. -/
theorem grows_message {subsize : V → ℕ} {repeated : Bool} {mutable : M → V} {set : V → M → M}
    {merge : V → Input → Option (V × Bool)}
    (hmerge : ∀ {sub i sub' b}, merge sub i = some (sub', b) →
      subsize sub' ≤ subsize sub + i.bytes.length)
    (hset : ∀ m sub n, subsize sub ≤ subsize (mutable m) + n →
      size (set sub m) ≤ size m + 1 + ((varint n).length + n)) :
    Grows size (rt.message repeated number tag valid mutable set merge) := by
  intro m i m' i' h
  obtain ⟨q, hq, heq⟩ := Option.map_eq_some_iff.mp h
  cases heq
  obtain ⟨p, hp, h⟩ := Option.bind_eq_some_iff.mp hq
  split_ifs at h
  obtain ⟨r, hr, h⟩ := Option.bind_eq_some_iff.mp h
  split_ifs at h
  cases h
  have hlen := rt.reads_pushLimit.length_le hp
  have hle := hset m r.1 p.1.length (hmerge hr)
  rw [delimited, List.length_append] at hlen
  dsimp only
  omega

/-- A generated parser makes no message larger than it was, together with what is read into it. -/
theorem parse_size {hints : Hints rt.source} (hgrows : ∀ e ∈ T.entries, Grows size e) {m m' : M}
    {i : Input} {b : Bool} (h : parse hints T m i = some (m', b)) :
    size m' ≤ size m + i.bytes.length := by
  rw [parse_eq_plain] at h
  have hinv := plain_invariant
    (P := fun x j => size x + j.bytes.length ≤ size m + i.bytes.length)
    (fun e he x j x' j' htag hread hP => ?_) (fun x j j' htag hskip hP => ?_) h le_rfl
  · obtain ⟨j, hj, -⟩ := hinv
    exact (Nat.le_add_right _ _).trans hj
  · have hne : (rt.readTag j.bytes).1 ≠ 0 := by
      change (rt.source.readTag j).1 ≠ 0
      rw [htag]
      exact e.tag_ne_zero
    have hlen := rt.length_readTag hne
    have hpos := length_varint_pos (rt.readTag j.bytes).1
    have hstep : size x' + j'.bytes.length ≤ size x + 1 + (rt.readTag j.bytes).2.length :=
      hgrows e he _ _ _ _ hread
    omega
  · have hlen : _ ≤ j.bytes.length := rt.length_readTag htag
    have hle : j'.bytes.length ≤ (rt.readTag j.bytes).2.length := rt.length_skipField hskip
    omega

end Sizes

end CodedInputStream

/-! ### An implementation -/

/-- The bytes of a length-delimited item and those behind it; an item may also end with the input if
`cut` allows it. -/
def readDelimited (cut : Bool) (bs : List UInt8) : Option (List UInt8 × List UInt8) :=
  (decodeVarint bs).bind fun p =>
    if cut || p.1 ≤ p.2.length then some (p.2.take p.1, p.2.drop p.1) else none

theorem reads_readDelimited (cut : Bool) : Reads (readDelimited cut) delimited Short where
  read_write {data} h rest := by
    have hlt : data.length < 2 ^ 64 := h.trans (by decide)
    rw [readDelimited, delimited, List.append_assoc, decodeVarint_varint hlt]
    simp
  length_le {bs data rest} h := by
    obtain ⟨⟨n, bs'⟩, hp, h⟩ := Option.bind_eq_some_iff.mp h
    split_ifs at h
    cases h
    have hlen := length_varint_le_of_decodeVarint hp
    have hmono := length_varint_mono (a := min n bs'.length) (min_le_left _ _)
    simp only [delimited, List.length_append, List.length_take, List.length_drop]
    omega

theorem length_readDelimited {cut : Bool} {bs data rest : List UInt8}
    (h : readDelimited cut bs = some (data, rest)) : rest.length ≤ bs.length := by
  have hlen := (reads_readDelimited cut).length_le h
  omega

/-- `SkipField`, without groups. -/
def skipPayload (wireType : ℕ) (bs : List UInt8) : Option (List UInt8) :=
  match wireType with
  | 0 => (decodeVarint bs).map Prod.snd
  | 1 => if 8 ≤ bs.length then some (bs.drop 8) else none
  | 2 => (readDelimited false bs).map Prod.snd
  | 5 => if 4 ≤ bs.length then some (bs.drop 4) else none
  | _ => none

theorem length_skipPayload {wireType : ℕ} {bs rest : List UInt8}
    (h : skipPayload wireType bs = some rest) : rest.length ≤ bs.length := by
  rw [skipPayload.eq_def] at h
  split at h
  · obtain ⟨p, hp, rfl⟩ := Option.map_eq_some_iff.mp h
    have hlen := length_varint_le_of_decodeVarint hp
    omega
  · split_ifs at h
    cases h
    simp
  · obtain ⟨p, hp, rfl⟩ := Option.map_eq_some_iff.mp h
    exact length_readDelimited hp
  · split_ifs at h
    cases h
    simp
  · cases h

theorem skipPayload_encodePayload {f : Field} (hf : f.Fits)
    (hdata : ∀ data, f.payload = .bytes data → Short data) (rest : List UInt8) :
    skipPayload (f.tag % 8) (encodePayload f.payload ++ rest) = some rest := by
  obtain ⟨number, payload⟩ := f
  cases payload with
  | varint n =>
    have htag : Field.tag ⟨number, .varint n⟩ % 8 = 0 := Nat.mul_mod_right 8 number
    rw [htag, encodePayload, skipPayload, decodeVarint_varint hf.2, Option.map_some]
  | bytes data =>
    have htag : Field.tag ⟨number, .bytes data⟩ % 8 = 2 := by
      change (8 * number + 2) % 8 = 2
      omega
    rw [htag, encodePayload, skipPayload, (reads_readDelimited false).read_write (hdata data rfl),
      Option.map_some]

theorem length_fixed64 (n : UInt64) : (fixed64 n).length = 8 := rfl

/-- One implementation of the readers. -/
def wireStream : CodedInputStream where
  readTag bs :=
    match decodeVarint bs with
    | some (t, rest) => (t % 2 ^ 32, rest)
    | none => (0, bs)
  readUInt64 bs := (decodeVarint bs).map fun p => (UInt64.ofNat p.1, p.2)
  readEnum bs := (decodeVarint bs).map fun p => (Int32.ofInt p.1, p.2)
  readFixed64 bs :=
    if 8 ≤ bs.length then some (UInt64.ofNat (littleEndian (bs.take 8)), bs.drop 8) else none
  readString := readDelimited false
  pushLimit := readDelimited true
  skipField t i := (skipPayload (t % 8) i.bytes).map fun rest => ⟨rest, i.budget⟩
  readTag_nil := rfl
  readTag_varint {t} _ hlt rest := by
    rw [decodeVarint_varint (hlt.trans (by decide))]
    dsimp only
    rw [Nat.mod_eq_of_lt hlt]
  length_readTag {bs} h := by
    cases hp : decodeVarint bs with
    | none => simp [hp] at h
    | some p =>
      have hlen := length_varint_le_of_decodeVarint hp
      have hmono := length_varint_mono (Nat.mod_le p.1 (2 ^ 32))
      dsimp only
      omega
  reads_uint64 := {
    read_write := fun {v} _ rest => by
      rw [decodeVarint_varint v.toNat_lt, Option.map_some, UInt64.ofNat_toNat]
    length_le := fun {bs v rest} h => by
      obtain ⟨p, hp, heq⟩ := Option.map_eq_some_iff.mp h
      cases heq
      have hlen := length_varint_le_of_decodeVarint hp
      have hmono := length_varint_mono (Nat.mod_le p.1 (2 ^ 64))
      rw [UInt64.toNat_ofNat']
      omega }
  reads_fixed64 := {
    read_write := fun {v} _ rest => by
      rw [if_pos (by rw [List.length_append, length_fixed64]; omega),
        List.take_left' (length_fixed64 v), List.drop_left' (length_fixed64 v),
        littleEndian_fixed64, UInt64.ofNat_toNat]
    length_le := fun {bs v rest} h => by
      split_ifs at h
      cases h
      rw [length_fixed64, List.length_drop]
      omega }
  readEnum_signExtend v rest := by
    rw [decodeVarint_varint (signExtend_lt v), Option.map_some, ofInt_signExtend]
  length_readEnum {bs v rest} h := by
    obtain ⟨p, hp, heq⟩ := Option.map_eq_some_iff.mp h
    cases heq
    have hlen := length_varint_le_of_decodeVarint hp
    have hmono := length_varint_mono (lowBits_ofInt_le p.1)
    omega
  reads_string := reads_readDelimited false
  reads_pushLimit := reads_readDelimited true
  skipField_payload hf hdata rest budget := by
    rw [skipPayload_encodePayload hf hdata, Option.map_some]
  length_skipField {t i i'} h := by
    obtain ⟨rest, hrest, rfl⟩ := Option.map_eq_some_iff.mp h
    exact length_skipPayload hrest

end Elegram
