import CodiusSandbox.Json
import CodiusSandbox.Ptrace
import CodiusSandbox.Lib.LittleEndian
/-!
# Requests and results (`codius-util.c`, `codius-util.h`)

| here | there |
| --- | --- |
| `CodiusRequest`, `CodiusResult` | `codius_request_t`, `codius_result_t` |
| `RpcHeader`                     | `codius_rpc_header_t`: three little-endian words |
| `Process`                       | what the functions work on: the JSON nodes, `next_request_id`, the descriptor, and memory nobody has written |
| `readFrame`, `writeFrame`       | the halves that `codius_read_request` and `codius_read_result`, `codius_write_request` and `codius_write_result` share |
| `codiusReadRequest`, …          | `codius_read_request`, … |

The descriptor is a stream socket: `input` is what the peer has sent, and `reads` and `writes` say how
many bytes the next calls of `read` and `write` transfer. `malloc` never fails.
-/
namespace CodiusSandbox

open TreeHeap Wp LittleEndian

/-! ## Data -/

structure CodiusRequest where
  apiName : Str
  methodName : Str
  data : Option Ptr
  id : Word
  fd : Int

structure CodiusResult where
  success : Int
  data : Option Ptr
  id : Word

structure RpcHeader where
  magicBytes : Word
  callbackId : Word
  size : Word

def CODIUS_MAGIC_BYTES : Word := 0xC0D105FE

def CODIUS_MAX_RESPONSE_SIZE : Nat := 268435456

/-- `sizeof (codius_rpc_header_t)`. -/
def sizeofHeader : Nat := 24

def RpcHeader.bytes (header : RpcHeader) : Str :=
  toBytes 8 header.magicBytes.toNat ++ toBytes 8 header.callbackId.toNat ++ toBytes 8 header.size.toNat

/-- The word at `i` of a buffer. -/
def wordAt (buf : Buffer) (i : Nat) : Word :=
  BitVec.ofNat 64 (ofBytes ((List.range 8).map fun j => buf (i + j)))

def RpcHeader.ofBuffer (buf : Buffer) : RpcHeader := ⟨wordAt buf 0, wordAt buf 8, wordAt buf 16⟩

structure Process where
  heap : Heap
  nextRequestId : Int
  input : Str
  /-- How the next reads go: `none` fails, `some n` transfers `n` bytes if it can. -/
  reads : List (Option Nat)
  output : Str
  writes : List (Option Nat)
  /-- What an automatic variable holds before it is written. -/
  stack : Buffer
  /-- What a block from `malloc` holds. -/
  block : Buffer
  /-- What lies behind a block. -/
  slack : List UInt8

/-- A process that has done nothing but allocate. -/
def Process.idle (h : Heap) : Process := ⟨h, 0, [], [], [], [], fun _ => 0, fun _ => 0, []⟩

abbrev ProcessM := EStateM Fault Process

def onHeap {α : Type} (x : HeapM α) : ProcessM α := fun s =>
  match x s.heap with
  | .ok a h => .ok a { s with heap := h }
  | .error e h => .error e { s with heap := h }

/-! ## The socket -/

/-- What a call that asks for `count` of `available` bytes transfers: at least one if it can. -/
def transferred (plan : Option Nat) (count available : Nat) : Nat :=
  match plan with
  | some n => min (max n 1) (min count available)
  | none => 0

/-- `buf` with `data` written to its start. -/
def overlay (data : Str) (buf : Buffer) : Buffer := fun i => data.getD i (buf i)

/-- `read (fd, buf, count)`. Behind the last plan a read takes all there is. -/
def sysRead (buf : Buffer) (count : Nat) : ProcessM (Int × Buffer) := do
  let s ← get
  let plan := s.reads.headD (some count)
  let n := transferred plan count s.input.length
  set { s with input := s.input.drop n, reads := s.reads.tail }
  if plan = none then return (-1, buf)
  else return (n, overlay (s.input.take n) buf)

/-- `write (fd, data, data.length)`. -/
def sysWrite (data : Str) : ProcessM Int := do
  let s ← get
  let plan := s.writes.headD (some data.length)
  let n := transferred plan data.length data.length
  set { s with output := s.output ++ data.take n, writes := s.writes.tail }
  if plan = none then return -1 else return n

/-! ## Frames -/

/-- `codius_write_request` and `codius_write_result` behind the encoding (`codius-util.c:43-55`). -/
def writeFrame (id : Word) (buf : Str) : ProcessM Int := do
  let body := buf.takeWhile (· ≠ 0)
  let header : RpcHeader := ⟨CODIUS_MAGIC_BYTES, id, BitVec.ofNat 64 body.length⟩
  if (← sysWrite header.bytes) = -1 then return -1
  else if (← sysWrite body) = -1 then return -1
  else return 0

/-- `codius_read_request` and `codius_read_result` up to the decoding (`codius-util.c:66-88`): the id
and the text of a message. Only the former puts a NUL behind the body. -/
def readFrame (terminate : Bool) : ProcessM (Option (Word × Str)) := do
  let (bytesRead, buf) ← sysRead (← get).stack sizeofHeader
  let header := RpcHeader.ofBuffer buf
  if bytesRead = -1 ∨ header.magicBytes ≠ CODIUS_MAGIC_BYTES then return none
  else if header.size.toNat > CODIUS_MAX_RESPONSE_SIZE then throw .abort
  else
    let s ← get
    let (bytesRead, buf) ← sysRead s.block header.size.toNat
    if bytesRead = -1 then return none
    else
      let behind := if terminate then [] else s.slack
      return some (header.callbackId, cString buf header.size.toNat behind)

/-! ## Requests -/

/-- `codius_request_new` (`codius-util.c:201`). -/
def codiusRequestNew (apiName methodName : Str) : ProcessM CodiusRequest := do
  let s ← get
  set { s with nextRequestId := succInt s.nextRequestId }
  return ⟨apiName, methodName, none, toWord s.nextRequestId, 0⟩

/-- The last member (`codius-util.c:24-27`). -/
def appendArguments (req : Ptr) : Option Ptr → HeapM Unit
  | some data => jsonAppendMember req (str "arguments") data
  | none => do jsonAppendMember req (str "arguments") (← jsonMknull)

/-- `codius_request_to_string` (`codius-util.c:11`). -/
def codiusRequestToString (codec : JsonCodec) (request : CodiusRequest) : HeapM Str := do
  let req ← jsonMkobject
  jsonAppendMember req (str "api") (← jsonMkstring request.apiName)
  jsonAppendMember req (str "method") (← jsonMkstring request.methodName)
  appendArguments req request.data
  let buf ← jsonEncode codec (some req)
  jsonDelete (some req)
  return buf

/-- `child->string_`. -/
def nodeString (child : Option Ptr) : HeapM Str := do
  match child with
  | none => throw .nullDeref
  | some child =>
    match (← deref child).contents with
    | .string s => return s
    | _ => throw .wrongTag

/-- `child->tag != JSON_NULL` and then `child`, else null (`codius-util.c:240`). -/
def nodeData (child : Option Ptr) : HeapM (Option Ptr) := do
  match child with
  | none => throw .nullDeref
  | some child =>
    match (← deref child).contents with
    | .null => return none
    | _ => return some child

/-- `codius_request_from_string` (`codius-util.c:222`). -/
def codiusRequestFromString (codec : JsonCodec) (buf : Str) : ProcessM CodiusRequest := do
  let req ← onHeap (jsonDecode codec buf)
  let child ← onHeap (jsonFindMember req (str "api"))
  let apiName ← onHeap (nodeString child)
  let child ← onHeap (jsonFindMember req (str "method"))
  let methodName ← onHeap (nodeString child)
  let child ← onHeap (jsonFindMember req (str "arguments"))
  let ret ← codiusRequestNew apiName methodName
  let data ← onHeap (nodeData child)
  onHeap (jsonDelete req)
  return { ret with data := data }

/-- `codius_write_request` (`codius-util.c:36`). -/
def codiusWriteRequest (codec : JsonCodec) (request : CodiusRequest) : ProcessM Int := do
  let buf ← onHeap (codiusRequestToString codec request)
  writeFrame request.id buf

/-- `codius_read_request` (`codius-util.c:59`). -/
def codiusReadRequest (codec : JsonCodec) (fd : Int) : ProcessM (Option CodiusRequest) := do
  match ← readFrame true with
  | none => return none
  | some (callbackId, buf) =>
    let request ← codiusRequestFromString codec buf
    return some { request with id := callbackId, fd := fd }

/-! ## Results -/

/-- `codius_result_to_string` (`codius-util.c:122`). -/
def codiusResultToString (codec : JsonCodec) (result : CodiusResult) : HeapM Str :=
  match result.data with
  | some data => jsonEncode codec (some data)
  | none => return []

/-- `codius_result_from_string` (`codius-util.c:251`), on the result of `codius_result_new`. -/
def codiusResultFromString (codec : JsonCodec) (buf : Str) : HeapM CodiusResult := do
  return ⟨0, ← jsonDecode codec buf, 0⟩

/-- `codius_write_result` (`codius-util.c:99`). -/
def codiusWriteResult (codec : JsonCodec) (result : CodiusResult) : ProcessM Int := do
  let buf ← onHeap (codiusResultToString codec result)
  writeFrame result.id buf

/-- `codius_read_result` (`codius-util.c:133`). -/
def codiusReadResult (codec : JsonCodec) : ProcessM (Option CodiusResult) := do
  match ← readFrame false with
  | none => return none
  | some (callbackId, buf) =>
    let result ← onHeap (codiusResultFromString codec buf)
    return some { result with id := callbackId }

end CodiusSandbox
