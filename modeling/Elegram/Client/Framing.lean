import Elegram.Foundation.Run
import Elegram.Protocol.Codec

/-!
# The client's framing layer

`Session` of the client keeps, next to the socket, one buffer and two numbers: how many bytes of
the current frame have been read (`bytesReaded`) and the length its prefix announced
(`messageSize`). Everything happens in the slot `onReadyRead`, which Qt runs whenever bytes have
arrived.

The conversions of the source are kept: `qint64` and `int` values are integers, and a conversion
wraps around (`toQInt64`, `toInt`). Where the source would leave defined behaviour (a buffer
resized to a negative size, a read past the end of the buffer, a parse of a negative number of
bytes) a function returns `none`.

`callbacks` is not a field of the source: it records the invocations of `m_callback`.
-/

namespace Elegram

/-- Conversion to `qint64`. -/
def toQInt64 (n : ℤ) : ℤ := Int.bmod n (2 ^ 64)

/-- The value `readPrefix` returns for a prefix that does not parse. -/
def PARSE_ERROR : ℤ := -1

/-- What the session uses of `QTcpSocket`: the connection state and the bytes received and not
yet read, oldest first. -/
structure QTcpSocket where
  connected : Bool
  incoming : List UInt8
  deriving DecidableEq, Repr

namespace QTcpSocket

def bytesAvailable (sock : QTcpSocket) : ℤ := sock.incoming.length

/-- `QIODevice::read(buffer.data(), maxSize)`: the number of bytes read (`-1` for a negative
request), the buffer afterwards and the socket. Bytes for which the buffer has no room make the
result undefined. -/
def read (sock : QTcpSocket) (buffer : List UInt8) (maxSize : ℤ) :
    Option (ℤ × List UInt8 × QTcpSocket) :=
  if maxSize < 0 then some (-1, buffer, sock)
  else
    let data := sock.incoming.take maxSize.toNat
    if data.length ≤ buffer.length then
      some (data.length, data ++ buffer.drop data.length,
        { sock with incoming := sock.incoming.drop maxSize.toNat })
    else none

/-- `abort` closes the connection and drops what has not been read. -/
def abort (_ : QTcpSocket) : QTcpSocket := { connected := false, incoming := [] }

end QTcpSocket

/-- `QVector<char>::resize`; a negative size is not allowed. -/
def resize (buffer : List UInt8) (size : ℤ) : Option (List UInt8) :=
  if 0 ≤ size then some (buffer.takeD size.toNat 0) else none

structure Session where
  sock : QTcpSocket
  buffer : List UInt8
  bytesReaded : ℤ
  messageSize : ℤ
  callbacks : List Response
  deriving DecidableEq, Repr

namespace Session

variable (pb : Protobuf)

/-- A freshly constructed session whose socket has just connected. -/
def initial : Session where
  sock := { connected := true, incoming := [] }
  buffer := []
  bytesReaded := 0
  messageSize := 0
  callbacks := []

/-- `Session::readPrefix`: the announced length as a `qint64`, or `PARSE_ERROR`. -/
def readPrefix (s : Session) : Option (ℤ × Session) := do
  let buffer ← resize s.buffer PREFIX_SIZE
  let (readed, buffer, sock) ← s.sock.read buffer PREFIX_SIZE
  let s := { s with buffer := buffer, sock := sock, bytesReaded := readed }
  match pb.parsePrefix (buffer.take readed.toNat) with
  | some length => some (toQInt64 length.toNat, s)
  | none => some (PARSE_ERROR, s)

/-- `Session::readMessage`. The byte count is added as a `quint64`. -/
def readMessage (mesgSize : ℤ) (s : Session) : Option (Option WrappedMessage × Session) := do
  let buffer ← resize s.buffer (toInt mesgSize)
  let (readed, buffer, sock) ← s.sock.read buffer mesgSize
  let s := { s with
    buffer := buffer, sock := sock
    bytesReaded := toQInt64 (s.bytesReaded + readed % 2 ^ 64) }
  if readed < 0 then none
  else some (pb.parseFromArray buffer (toInt readed), s)

/-- `Session::processResponse`: a message without a response is only reported in the log. -/
def processResponse (message : WrappedMessage) (s : Session) : Session :=
  match message with
  | .response mesg => { s with callbacks := s.callbacks ++ [mesg] }
  | _ => s

/-- The lambda `load_mesg` of `onReadyRead`. -/
def loadMesg (s : Session) : Option Session := do
  let (readedMesg, s) ← readMessage pb s.messageSize s
  match readedMesg with
  | some message => some (processResponse message s)
  | none => some { s with sock := s.sock.abort }

/-- `Session::onReadyRead`. -/
def onReadyRead (s : Session) : Option Session :=
  -- try to read the prefix
  if s.bytesReaded < PREFIX_SIZE ∧ s.sock.bytesAvailable ≥ PREFIX_SIZE then do
    let (length, s) ← readPrefix pb { s with bytesReaded := 0 }
    let s := { s with messageSize := length }
    if s.messageSize = PARSE_ERROR then
      some { s with sock := s.sock.abort, bytesReaded := 0 }
    -- try to read the message
    else if s.sock.bytesAvailable = s.messageSize then do
      let s ← loadMesg pb s
      some { s with bytesReaded := 0 }
    else some s
  -- the prefix was already read
  else if s.bytesReaded = PREFIX_SIZE ∧ s.sock.bytesAvailable ≥ s.messageSize then do
    let s ← loadMesg pb s
    some { s with bytesReaded := 0 }
  else
    some { s with bytesReaded := 0 }

/-- Bytes reach the socket. -/
def arrive (chunk : List UInt8) (s : Session) : Session :=
  { s with sock := { s.sock with incoming := s.sock.incoming ++ chunk } }

/-- One `readyRead` event: a chunk arrives and the slot runs once. -/
def readyRead (s : Session) (chunk : List UInt8) : Option Session :=
  onReadyRead pb (s.arrive chunk)

end Session

end Elegram
