import Elegram.Foundation.Run
import Elegram.Protocol.Proto3
import Elegram.Server.Jobs

/-!
# The server's session

A `ClientSession` is driven from two sides: the io thread runs the completion handlers of its
asynchronous reads and writes, and the worker threads run the jobs that were posted for it. Both
kinds of work are kept here in one list, `outstanding`; an event of the machine picks any entry of
the list and runs it, a handler or the parse job as a whole and a request job by one operation.
Whether there is ever more than one entry is not built in, it is a theorem about the handlers.

An exception that leaves a handler or a job, and an assertion that fails, end the server process:
`handle` returns the `Crash`.

`trace` is not a field of the source. It records what the session has started and done, in order.
The requests, bodies and frames inside the entries of `outstanding` are kept for the statements
only as well, apart from the size of the announced message and the program of a job.
-/

namespace Elegram

/-- What the session needs to know about its platform: the protobuf runtime, `max_size()` of a
`std::vector<uint8_t>`, and the largest size for which the allocator finds `memory`. -/
structure Platform where
  pb : Protobuf
  maxSize : ℕ
  memory : ℕ
  prefix_le : PREFIX_SIZE ≤ memory
  memory_le : memory ≤ maxSize
  maxSize_lt : maxSize < 2 ^ 63

/-- The ways in which a handler or a job ends the process. -/
inductive Crash
  /-- `std::length_error`: a buffer was to become larger than `max_size()`. -/
  | lengthError
  /-- `std::bad_alloc`: there is no memory for a buffer. -/
  | badAlloc
  | assertionFailed
  deriving DecidableEq, Repr

/-- The work that is under way for a session. -/
inductive Item
  /-- A pending `async_read` of a prefix. -/
  | readPrefix
  /-- A pending `async_read` of a message of the announced size. -/
  | readMessage (mesgSize : UInt64)
  /-- A posted `ParseCommandJob`, and the message it is to parse. -/
  | parseCommandJob (body : List UInt8)
  /-- A posted or running request job, and the request it answers. -/
  | requestJob (request : Request) (job : JobM Unit)
  /-- A pending `async_write` of a frame. -/
  | write (frame : List UInt8)

/-- What a session has done. -/
inductive Action
  | started
  | readStarted (size : ℕ)
  | jobPosted
  /-- The parse job has posted the job of a request. -/
  | dispatched (request : Request)
  /-- A storage function has been called and has returned or thrown. -/
  | called (c : StorageCall) (result : c.Result)
  /-- A message has been handed to `async_write`, as this frame. -/
  | writeStarted (mesg : WrappedMessage) (frame : List UInt8)
  | stopped

structure ClientSession where
  stopped : Bool
  clientState : Option ClientState
  readBuffer : List UInt8
  outstanding : List Item
  trace : List Action

namespace ClientSession

variable (P : Platform)

/-- A constructed session. -/
def fresh : ClientSession where
  stopped := true
  clientState := none
  readBuffer := []
  outstanding := []
  trace := []

/-! ### Building blocks -/

def log (a : Action) (s : ClientSession) : ClientSession := { s with trace := s.trace ++ [a] }

def add (item : Item) (s : ClientSession) : ClientSession :=
  { s with outstanding := s.outstanding ++ [item] }

def remove (i : ℕ) (s : ClientSession) : ClientSession :=
  { s with outstanding := s.outstanding.eraseIdx i }

/-- `read_buffer_.resize(size)`. Nothing in the server catches what it throws. -/
def resizeBuffer (size : ℕ) (s : ClientSession) : Except Crash ClientSession :=
  if P.maxSize < size then .error .lengthError
  else if P.memory < size then .error .badAlloc
  else .ok { s with readBuffer := s.readBuffer.takeD size 0 }

/-- The bytes that an `async_read` has received are in the buffer. -/
def receive (data : List UInt8) (s : ClientSession) : ClientSession :=
  { s with readBuffer := store 0 data s.readBuffer }

/-! ### Handlers -/

/-- `stop`: only the first call does anything. -/
def stop (s : ClientSession) : ClientSession :=
  if s.stopped then s else { s with stopped := true }.log .stopped

/-- `do_async_read_prefix`: a session that has stopped starts nothing. -/
def doAsyncReadPrefix (s : ClientSession) : Except Crash ClientSession :=
  if s.stopped then .ok s
  else do
    let s ← s.resizeBuffer P PREFIX_SIZE
    .ok ((s.log (.readStarted PREFIX_SIZE)).add .readPrefix)

def start (s : ClientSession) : Except Crash ClientSession :=
  doAsyncReadPrefix P ({ s with stopped := false }.log .started)

def doAsyncReadMessage (mesgSize : UInt64) (s : ClientSession) : Except Crash ClientSession :=
  if s.stopped then .ok s
  else do
    let s ← s.resizeBuffer P mesgSize.toNat
    .ok ((s.log (.readStarted mesgSize.toNat)).add (.readMessage mesgSize))

def onReadPrefix (err : Bool) (bytes : ℕ) (s : ClientSession) : Except Crash ClientSession :=
  let s := if err then s.stop else s
  if s.stopped then .ok s
  else if bytes = PREFIX_SIZE then
    match P.pb.parsePrefix (s.readBuffer.take bytes) with
    | some length => s.doAsyncReadMessage P length
    | none => .ok s.stop
  else .ok s.stop

def onReadMessage (err : Bool) (readedBytes : ℕ) (mesgSize : UInt64) (s : ClientSession) :
    ClientSession :=
  let s := if err then s.stop else s
  if s.stopped then s
  else if readedBytes = mesgSize.toNat then
    (s.log .jobPosted).add (.parseCommandJob s.readBuffer)
  else s.stop

def onWrite (err : Bool) (s : ClientSession) : Except Crash ClientSession :=
  let s := if err then s.stop else s
  if s.stopped then .ok s else s.doAsyncReadPrefix P

/-- `ByteSize() + PREFIX_SIZE` is computed in `uint64_t`. -/
def doAsyncWrite (mesg : WrappedMessage) (s : ClientSession) : Except Crash ClientSession :=
  if s.stopped then .ok s
  else do
    let byteSize := toInt (P.pb.serialize mesg).length
    let s ← s.resizeBuffer P ((byteSize + PREFIX_SIZE) % 2 ^ 64).toNat
    let buffer := serializeInto 0 PREFIX_SIZE (serializePrefix (UInt64.ofInt byteSize)) s.readBuffer
    let buffer := serializeInto PREFIX_SIZE byteSize (P.pb.serialize mesg) buffer
    .ok (({ s with readBuffer := buffer }.log (.writeStarted mesg buffer)).add (.write buffer))

/-! ### Jobs -/

/-- The message that `ParseCommandJob` sees: the size of the buffer is cast to `int`. -/
def parseBuffer (s : ClientSession) : Option WrappedMessage :=
  P.pb.parseFromArray s.readBuffer (toInt s.readBuffer.length)

/-- A job that still has something to do stays outstanding. -/
def post (request : Request) (job : JobM Unit) (s : ClientSession) : ClientSession :=
  match job with
  | .pure _ => s
  | _ => s.add (.requestJob request job)

/-- `ParseCommandJob::operator()`. -/
def parseCommandJob (s : ClientSession) : ClientSession :=
  match s.parseBuffer P with
  | some (.request request) =>
    match requestJob request with
    | some job => (s.log (.dispatched request)).post request job
    | none => s.stop
  | some _ => s.stop
  | none => s.stop

/-- One operation of a request job. Storage calls return what `ret` says. -/
def runJob (request : Request) (job : JobM Unit) (ret : (c : StorageCall) → c.Result)
    (s : ClientSession) : Except Crash ClientSession :=
  match job with
  | .pure _ => .ok s
  | .call c k => .ok ((s.log (.called c (ret c))).post request (k (ret c)))
  | .loggedIn k => .ok (s.post request (k s.clientState.isSome))
  | .state k =>
    match s.clientState with
    | some st => .ok (s.post request (k st))
    | none => .error .assertionFailed
  | .setState st k => .ok ({ s with clientState := some st }.post request k)
  | .write mesg k => do
    let s ← s.doAsyncWrite P mesg
    .ok (s.post request k)

/-! ### The machine -/

/-- What happens to an entry of `outstanding`. -/
inductive Outcome
  /-- An `async_read` completes with these bytes, and with or without an error. -/
  | read (err : Bool) (data : List UInt8)
  /-- A job runs; storage functions return what `ret` says. -/
  | run (ret : (c : StorageCall) → c.Result)
  /-- An `async_write` completes. -/
  | sent (err : Bool)

/-- What can happen to a session. -/
inductive Event
  | start
  | item (i : ℕ) (outcome : Outcome)

/-- The handler or job that deals with an entry, which is no longer outstanding. A read never
stores more bytes than it was asked for. -/
def handleItem (s : ClientSession) : Item → Outcome → Option (Except Crash ClientSession)
  | .readPrefix, .read err data =>
    if data.length ≤ PREFIX_SIZE then some ((s.receive data).onReadPrefix P err data.length)
    else none
  | .readMessage mesgSize, .read err data =>
    if data.length ≤ mesgSize.toNat then
      some (.ok ((s.receive data).onReadMessage err data.length mesgSize))
    else none
  | .parseCommandJob _, .run _ => some (.ok (s.parseCommandJob P))
  | .requestJob request job, .run ret => some (s.runJob P request job ret)
  | .write _, .sent err => some (s.onWrite P err)
  | _, _ => none

/-- What an event runs; `start` is called once. -/
def handle (s : ClientSession) : Event → Option (Except Crash ClientSession)
  | .start => if s.trace.isEmpty then some (s.start P) else none
  | .item i outcome => s.outstanding[i]?.bind fun item => (s.remove i).handleItem P item outcome

/-- The state after an event. -/
def step (s : ClientSession) (e : Event) : Option ClientSession :=
  (s.handle P e).bind Except.toOption

end ClientSession

/-- A platform with the runtime `proto3`, the largest `max_size()` there is and a tebibyte of
memory. -/
def Platform.proto3 : Platform where
  pb := Elegram.proto3
  maxSize := 2 ^ 63 - 1
  memory := 2 ^ 40
  prefix_le := by decide
  memory_le := by decide
  maxSize_lt := by decide

end Elegram
