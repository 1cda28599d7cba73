/-
The server at work (`server`): its state, the replies to the requests of a
connection, and the loop that reads one request after the other.

A connection is the bytes its peer sends until it closes its half, and the
bytes that go back; what is sent before a panic is on the wire. The second
level of a query is built in a buffer of the thread, a thread a connection.

The server is built for release, where a panic aborts: that of one worker
ends the process, and with it every connection.
-/
import Dnspir.Dns.ProtocolFacts
import Dnspir.Dns.Server
import Dnspir.Lib.Interleave

namespace Dnspir

open DoublePir PirWrapper

namespace Dns

structure PirState where
  dbs : List (PIRDatabase rank primaryPlainModulus)
  numEntries : ℕ

structure ServerState where
  zoneName : Name
  /-- `none` in dump-only mode. -/
  pir : Option PirState
  dump : Option (List UInt8)
  hashSalt : UInt64

/-! ## Replies -/

def emptyRequest : IoError := ⟨.invalidData, "empty request".toList⟩

def unknownCommand (other : UInt8) : IoError :=
  ⟨.invalidData, "unknown command ".toList ++ showNat other.toNat⟩

/-- What `INFO` says. -/
def ServerState.info (state : ServerState) : InfoResponse where
  flags := (if state.pir.isSome then flagPirAvailable else 0) |||
    (if state.dump.isSome then flagDumpAvailable else 0)
  numEntries := (state.pir.map fun p => UInt32.ofNat p.numEntries).getD 0
  zoneName := state.zoneName
  dumpSize := (state.dump.map fun d => UInt32.ofNat d.length).getD 0
  hashSalt := state.hashSalt

/-- A step of a worker: it can report an error or panic, and its state is the
buffer of the thread. -/
abbrev Worker := ExceptT IoError (StateT (Array CompressedZnx8El) Option)

/-- The payload that answers a request. -/
def ServerState.answer (fm : FeanorMath) (state : ServerState) (req : List UInt8) :
    Worker (List UInt8) :=
  match req with
  | [] => throw emptyRequest
  | cmd :: body =>
    if cmd = cmdInfo then return encodeInfo state.info
    else if cmd = cmdQuery then
      match state.pir with
      | none => return respUnavailable
      | some pir => ExceptT.lift (processQuery fm pir.dbs body)
    else if cmd = cmdDump then return state.dump.getD respUnavailable
    else throw (unknownCommand cmd)

/-! ## The loop -/

/-- How a worker ends. -/
inductive Exit
  /-- `Ok(())`. -/
  | closed
  | failed (e : IoError)
  | panicked
  deriving DecidableEq, Repr

/-- What one round of the loop does: it ends the worker, or sends a frame and
leaves the rest of the stream and the buffer. -/
inductive Round
  | exit (exit : Exit)
  | reply (frame rest : List UInt8) (memory : Array CompressedZnx8El)

/-- What a failed read ends a worker with. -/
def readExit (e : IoError) : Exit := if e.kind = .unexpectedEof then .closed else .failed e

def ServerState.round (fm : FeanorMath) (state : ServerState) (stream : List UInt8)
    (memory : Array CompressedZnx8El) : Round :=
  match readFrame stream with
  | (.error e, _) => .exit (readExit e)
  | (.ok req, rest) =>
    match state.answer fm req memory with
    | none => .exit .panicked
    | some (.error e, _) => .exit (.failed e)
    | some (.ok resp, memory) =>
      match writeFrame resp with
      | .error e => .exit (.failed e)
      | .ok frame => .reply frame rest memory

theorem ServerState.round_rest {fm : FeanorMath} {state : ServerState}
    {stream frame rest : List UInt8} {memory memory' : Array CompressedZnx8El}
    (h : state.round fm stream memory = .reply frame rest memory') :
    rest.length < stream.length := by
  unfold ServerState.round at h
  split at h
  next => cases h
  next req rest' hread =>
    obtain ⟨rfl, -⟩ := readFrame_ok hread
    have hlen := length_frameBytes req
    split at h
    next => cases h
    next => cases h
    next =>
      split at h
      next => cases h
      next =>
        cases h
        rw [List.length_append]
        omega

/-- What is sent, and how the worker ends. -/
def ServerState.handle (fm : FeanorMath) (state : ServerState) (conn : List UInt8)
    (memory : Array CompressedZnx8El) : List UInt8 × Exit :=
  match _h : state.round fm conn memory with
  | .exit exit => ([], exit)
  | .reply frame rest memory =>
    let (sent, exit) := state.handle fm rest memory
    (frame ++ sent, exit)
termination_by conn.length
decreasing_by exact ServerState.round_rest _h

/-! ## The connections of a server -/

/-- A connection and its worker. -/
structure Conn where
  /-- All that has come in. -/
  arrived : List UInt8
  /-- What is not read yet. -/
  pending : List UInt8
  /-- The peer has closed its half. -/
  halfClosed : Bool
  memory : Array CompressedZnx8El
  /-- What `write_frame` has left to write. -/
  outgoing : List UInt8
  sent : List UInt8
  exit : Option Exit

/-- A new thread, whose buffer is empty. -/
def Conn.accepted : Conn := ⟨[], [], false, #[], [], [], none⟩

inductive ConnEvent
  | arrive (bytes : List UInt8)
  | halfClose
  /-- The scheduler runs the worker up to its next write. -/
  | work
  /-- The socket takes this many bytes. -/
  | write (count : ℕ)

/-- The worker blocks in `read_exact`. -/
def Conn.waits (conn : Conn) : Bool :=
  !conn.halfClosed && match (readFrame conn.pending).1 with
    | .ok _ => false
    | .error e => e.kind = .unexpectedEof

def Conn.act (fm : FeanorMath) (state : ServerState) (conn : Conn) : ConnEvent → Conn
  | .arrive bytes =>
    if conn.halfClosed then conn
    else { conn with arrived := conn.arrived ++ bytes, pending := conn.pending ++ bytes }
  | .halfClose => { conn with halfClosed := true }
  | .work =>
    if conn.exit.isSome || !conn.outgoing.isEmpty || conn.waits then conn
    else
      match state.round fm conn.pending conn.memory with
      | .exit exit => { conn with exit := some exit }
      | .reply frame rest memory => { conn with pending := rest, memory := memory, outgoing := frame }
  | .write count =>
    { conn with outgoing := conn.outgoing.drop count, sent := conn.sent ++ conn.outgoing.take count }

def Conn.panicked (conn : Conn) : Bool := conn.exit = some .panicked

/-- The process: a connection a number, until a worker panics. -/
abbrev Process := Interleave.Family ℕ Conn

/-- The accept loop of `run`: a thread a connection, which share the state only. -/
def ServerState.run (fm : FeanorMath) (state : ServerState) (events : List (ℕ × ConnEvent)) : Process :=
  Interleave.Family.run (Conn.act fm state) Conn.panicked ⟨fun _ => .accepted, false⟩ events

/-! ## What a client sees -/

/-- A request and what is read back, on a connection of its own. -/
def ServerState.exchange (fm : FeanorMath) (state : ServerState) (req : List UInt8) :
    Except IoError (List UInt8) := do
  let bytes ← writeFrame req
  (readFrame (state.handle fm bytes #[]).1).1

end Dns

end Dnspir
