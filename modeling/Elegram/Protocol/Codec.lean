import Elegram.Protocol.Messages
import Mathlib.Data.UInt

/-!
# Frames and the protobuf runtime

A frame is a `LengthPrefix` followed by the serialised `WrappedMessage` whose length the prefix
announces. The prefix is one `fixed64` field and is written out here; message serialisation and
the two `ParseFromArray` functions belong to the generated code and the protobuf runtime, and
are a parameter: `Protobuf` collects the functions together with what both programs rely on.

`Protobuf.Minimal` is kept apart from the structure, because only the sharp results need it: a
message is never parsed from fewer bytes than its own serialisation has. The generated writers
omit default fields and write every number as its shortest varint, and the parsers never invent
content. There is one exception, the negative results of a `StatusResponse`, which neither program
sends: `WrappedMessage.excess`.
-/

namespace Elegram

/-- `PREFIX_SIZE`: the tag byte and the eight bytes of a `fixed64`. -/
def PREFIX_SIZE : ℕ := 9

/-- Conversion to `int`, the type of sizes in the protobuf runtime. -/
def toInt (n : ℤ) : ℤ := Int.bmod n (2 ^ 32)

theorem toInt_of_lt {n : ℕ} (h : n < 2 ^ 31) : toInt n = n := by
  rw [toInt, Int.bmod_def]
  split_ifs <;> omega

theorem toInt_lt (m : ℤ) : toInt m < 2 ^ 31 := by
  rw [toInt, Int.bmod_def]
  split_ifs <;> omega

/-- The little-endian bytes of a `fixed64`. -/
def fixed64 (n : UInt64) : List UInt8 :=
  [n.toUInt8, (n >>> 8).toUInt8, (n >>> 16).toUInt8, (n >>> 24).toUInt8,
   (n >>> 32).toUInt8, (n >>> 40).toUInt8, (n >>> 48).toUInt8, (n >>> 56).toUInt8]

/-- `LengthPrefix::SerializeToArray`. The value zero is a default, so its field is omitted and
nothing is written. -/
def serializePrefix (n : UInt64) : List UInt8 :=
  if n = 0 then [] else 0x09 :: fixed64 n

theorem length_serializePrefix {n : UInt64} (h : n ≠ 0) :
    (serializePrefix n).length = PREFIX_SIZE := by
  simp [serializePrefix, h, fixed64, PREFIX_SIZE]

/-- Bytes are stored into a buffer, from `offset` on. -/
def store (offset : ℕ) (data buffer : List UInt8) : List UInt8 :=
  buffer.take offset ++ data ++ buffer.drop (offset + data.length)

/-- `SerializeToArray` into a buffer, which fails when `size` is less than the message needs. -/
def serializeInto (offset : ℕ) (size : ℤ) (data buffer : List UInt8) : List UInt8 :=
  if data.length ≤ size then store offset data buffer else buffer

/-- By how many bytes the serialisation of a message may exceed the bytes it was parsed from. The
sign of a negative enumerator fills ten bytes, and a reader needs only five of them. -/
def WrappedMessage.excess : WrappedMessage → ℕ
  | .response (.statusResponse result) => if result.value < 0 then 5 else 0
  | _ => 0

theorem WrappedMessage.excess_le (m : WrappedMessage) : m.excess ≤ 5 := by
  rw [excess.eq_def]
  split
  · split_ifs
    · exact le_rfl
    · exact Nat.zero_le 5
  · exact Nat.zero_le 5

/-- The protobuf runtime with the generated message classes. `parseFromArray data size` is
`WrappedMessage::ParseFromArray` on a buffer holding `data`; its `size` is a C++ `int`, which the
callers compute with a narrowing conversion, so it may be anything. `parsePrefix` is
`LengthPrefix::ParseFromArray` on a buffer that is read to its end. -/
structure Protobuf where
  /-- `SerializeToArray` of a `WrappedMessage`; its length is `ByteSize`. -/
  serialize : WrappedMessage → List UInt8
  parseFromArray : List UInt8 → ℤ → Option WrappedMessage
  parsePrefix : List UInt8 → Option UInt64
  /-- Parsing a serialised message gives it back (messages are smaller than two gigabytes). -/
  parse_serialize : ∀ m, (serialize m).length < 2 ^ 31 →
    parseFromArray (serialize m) (serialize m).length = some m
  /-- Only the first `size` bytes of the buffer are looked at. -/
  parseFromArray_take : ∀ (data : List UInt8) (n : ℕ), n ≤ data.length →
    parseFromArray data n = parseFromArray (data.take n) n
  /-- A serialised prefix is read back. -/
  parsePrefix_serializePrefix : ∀ n, n ≠ 0 → parsePrefix (serializePrefix n) = some n

namespace Protobuf

variable (pb : Protobuf)

/-- Parsing a byte string as a whole. -/
def parse (data : List UInt8) : Option WrappedMessage := pb.parseFromArray data data.length

/-- No message is parsed from fewer bytes than its serialisation has, but for the excess. -/
def Minimal : Prop :=
  ∀ data m, pb.parse data = some m → (pb.serialize m).length ≤ data.length + m.excess

theorem parse_serialize' {m : WrappedMessage} (h : (pb.serialize m).length < 2 ^ 31) :
    pb.parse (pb.serialize m) = some m :=
  pb.parse_serialize m h

/-- `ByteSize` as the `uint64` that both programs store in the prefix. -/
def byteSize (m : WrappedMessage) : UInt64 := UInt64.ofNat (pb.serialize m).length

/-- The bytes of the frame of a message: what both programs write. -/
def frame (m : WrappedMessage) : List UInt8 :=
  serializePrefix (pb.byteSize m) ++ pb.serialize m

variable {pb}

theorem toNat_byteSize {m : WrappedMessage} (h : (pb.serialize m).length < 2 ^ 64) :
    (pb.byteSize m).toNat = (pb.serialize m).length := by
  rw [byteSize, UInt64.toNat_ofNat', Nat.mod_eq_of_lt h]

theorem byteSize_ne {m : WrappedMessage} (h0 : 0 < (pb.serialize m).length)
    (h : (pb.serialize m).length < 2 ^ 64) : pb.byteSize m ≠ 0 := by
  intro hzero
  have hnat := toNat_byteSize h
  rw [hzero] at hnat
  exact absurd hnat h0.ne

theorem length_frame {m : WrappedMessage} (h0 : 0 < (pb.serialize m).length)
    (h : (pb.serialize m).length < 2 ^ 64) :
    (pb.frame m).length = PREFIX_SIZE + (pb.serialize m).length := by
  rw [frame, List.length_append, length_serializePrefix (byteSize_ne h0 h)]

/-- Both programs build a frame in a buffer of its size, whatever the buffer held before: first the
prefix and then the message. -/
theorem serializeInto_frame {m : WrappedMessage} {buffer : List UInt8}
    (h0 : 0 < (pb.serialize m).length) (hlt : (pb.serialize m).length < 2 ^ 31)
    (hlen : buffer.length = PREFIX_SIZE + (pb.serialize m).length) :
    serializeInto PREFIX_SIZE (pb.serialize m).length (pb.serialize m)
      (serializeInto 0 PREFIX_SIZE (serializePrefix (UInt64.ofInt (pb.serialize m).length))
        buffer) = pb.frame m := by
  have hn : UInt64.ofInt (pb.serialize m).length = pb.byteSize m := by
    rw [byteSize, UInt64.ofInt]
    congr 1
    omega
  have hprefix := length_serializePrefix (byteSize_ne h0 (hlt.trans (by decide)))
  have hdrop : buffer.length - PREFIX_SIZE ≤ (pb.serialize m).length := by omega
  simp [serializeInto, hn, hprefix, store, frame, hdrop]

end Protobuf

end Elegram
