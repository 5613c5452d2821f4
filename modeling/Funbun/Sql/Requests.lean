import Mathlib.Data.List.Dedup

/-! The requests of a MySQL connection.

A request is tried when it is issued and waits in the queue if it could not be written. Script runs at fixed places: while a
binding is read, and in the callback of a result. What native code goes on with then is the `Task` of the connection, or one
of its `calls` of `do_run`. A `step` goes from one such place to the next. -/
namespace Funbun.Sql

inductive Status where
  | pending
  | binding
  | running
  | partialResponse
  | success
  | fail
  deriving DecidableEq

/-- The status of a statement. A statement that is parsed is described once its id and all its
parameters have come. -/
inductive StatementStatus where
  | pending
  | parsing (described : Bool)
  | prepared
  | failed
  deriving DecidableEq

def StatementStatus.isParsing : StatementStatus → Bool
  | .parsing _ => true
  | _ => false

/-- The statements of a connection, by signature. -/
abbrev Statements (σ : Type) := σ → Option StatementStatus

def Statements.set [DecidableEq σ] (statements : Statements σ) (signature : σ) (status : StatementStatus) :
    Statements σ :=
  fun s => if s = signature then some status else statements s

def Statements.parsing (statements : Statements σ) (signature : σ) : Bool :=
  match statements signature with
  | some status => status.isParsing
  | none => false

/-- What is written to the server. -/
inductive Command (σ : Type) where
  | query (request : Nat)
  | prepare (signature : σ)
  | execute (request : Nat)
  deriving DecidableEq

/-- A request. The statement that a simple query makes for itself when it is written plays no
part: it is not in the map, and only a pending request is asked for its statement's status. -/
structure Query (σ : Type) where
  id : Nat
  simple : Bool
  /-- What `Signature::generate` makes of its text and its binding. -/
  signature : σ
  statement : Option σ
  status : Status
  pipelined : Bool
  deriving DecidableEq

namespace Query
variable {σ : Type}

def init (id : Nat) (simple : Bool) (signature : σ) : Query σ := ⟨id, simple, signature, none, .pending, false⟩

def isCompleted (q : Query σ) : Bool :=
  match q.status with
  | .success | .fail => true
  | _ => false

def isRunning (q : Query σ) : Bool :=
  match q.status with
  | .running | .binding | .partialResponse => true
  | .success | .fail | .pending => false

def isPending (q : Query σ) : Bool :=
  match q.status with
  | .pending => true
  | _ => false

def isBeingPrepared (statements : Statements σ) (q : Query σ) : Bool :=
  q.isPending && q.statement.any statements.parsing

/-- `result`, and whether the request had not ended before. -/
def result (isLastResult : Bool) (q : Query σ) : Query σ × Bool :=
  if q.isCompleted then (q, false) else ({q with status := if isLastResult then .success else .partialResponse}, true)

def fail (q : Query σ) : Query σ × Bool := if q.isCompleted then (q, false) else ({q with status := .fail}, true)

/-- `mark_as_prepared`, of the statement. -/
def markAsPrepared [DecidableEq σ] (statements : Statements σ) (q : Query σ) : Statements σ :=
  match q.isPending, q.statement with
  | true, some s => if statements s = some (.parsing true) then statements.set s .prepared else statements
  | _, _ => statements

/-- Whether the request has a statement. -/
def hasStatement (q : Query σ) : Bool := if q.simple then !q.isPending else q.statement.isSome

end Query

/-- `MySQLRequestQueue`. The counters are integers: one that underflows is negative here. -/
structure RequestQueue (σ : Type) where
  requests : List (Query σ)
  pipelinedRequests : Int
  nonpipelinableRequests : Int
  waitingToPrepare : Bool
  isReadyForQuery : Bool

namespace RequestQueue
variable {σ : Type}

def init : RequestQueue σ := ⟨[], 0, 0, false, true⟩

def canExecuteQuery (able : Bool) (r : RequestQueue σ) : Bool :=
  able && r.isReadyForQuery && r.nonpipelinableRequests == 0 && r.pipelinedRequests == 0

def canPrepareQuery (able : Bool) (r : RequestQueue σ) : Bool :=
  able && r.isReadyForQuery && !r.waitingToPrepare && r.pipelinedRequests == 0

/-- `can_pipeline`, where `disabled` is `BUN_FEATURE_FLAG_DISABLE_SQL_AUTO_PIPELINING`. -/
def canPipeline (disabled able : Bool) (r : RequestQueue σ) : Bool :=
  !disabled && r.isReadyForQuery && r.nonpipelinableRequests == 0 && !r.waitingToPrepare && able

/-- A running request is counted. -/
def count (q : Query σ) (n : Int) (r : RequestQueue σ) : RequestQueue σ :=
  if q.pipelined then {r with pipelinedRequests := r.pipelinedRequests + n}
  else {r with nonpipelinableRequests := r.nonpipelinableRequests + n}

/-- What `add` and `advance` do for a request that was written. -/
def started (statements : Statements σ) (q : Query σ) (r : RequestQueue σ) : RequestQueue σ :=
  if q.isBeingPrepared statements then {r with isReadyForQuery := false, waitingToPrepare := true}
  else if q.isRunning then {r with isReadyForQuery := false}.count q 1
  else r

def add (statements : Statements σ) (q : Query σ) (r : RequestQueue σ) : RequestQueue σ :=
  {r.started statements q with requests := r.requests ++ [q]}

def discardCompleted (r : RequestQueue σ) : RequestQueue σ :=
  {r with requests := r.requests.dropWhile Query.isCompleted}

end RequestQueue

/-- Where a request runs script: its signature is generated from its binding, or its binding
is bound. -/
inductive Point where
  | signature
  | bind
  deriving DecidableEq

/-- What is done when a callback has returned. -/
inductive Next where
  | nothing
  | flush
  | advance
  deriving DecidableEq

/-- What native code does, apart from calls of `do_run`. -/
inductive Task where
  | idle
  /-- `flush_queue`, when the data is flushed. -/
  | flush
  /-- `advance`, at the test of its loop. -/
  | advance (offset : Nat)
  /-- `advance`, while the request at the offset runs script. -/
  | script (offset : Nat) (point : Point)
  /-- The callback of a request. -/
  | callback (next : Next)
  deriving DecidableEq

/-- How far a request comes before it ends or script runs. -/
inductive Outcome where
  | ok
  | err
  | script (point : Point)
  deriving DecidableEq

/-- A packet, by the branch of `handle_prepared_statement` or `handle_result_set` that it takes. -/
inductive Packet where
  /-- The ok packet of a prepare, or a definition of a parameter or a column, when more are to come. -/
  | definition (described : Bool)
  | prepared
  /-- A part of a result: its header, a column or a row. -/
  | part
  /-- A row that cannot be decoded, or not be turned into a value. -/
  | badRow
  /-- The end of a result, with more results to come. -/
  | more
  | done
  | err
  deriving DecidableEq

/-- Whether a packet may come in the answer to a command. -/
def Packet.answers : Packet → Command σ → Bool
  | .definition _, .prepare _ | .prepared, .prepare _ | .err, _ => true
  | .part, .query _ | .badRow, .query _ | .more, .query _ | .done, .query _ => true
  | .part, .execute _ | .badRow, .execute _ | .more, .execute _ | .done, .execute _ => true
  | _, _ => false

/-- Whether a packet ends the answer. -/
def Packet.isLast : Packet → Bool
  | .prepared | .done | .err => true
  | _ => false

inductive Input (σ : Type) where
  /-- The socket and the write buffer change. -/
  | socket (hasBackpressure writeBufferFull : Bool)
  | doRun (simple : Bool) (signature : σ)
  /-- The script that was called last returns, or throws. -/
  | resume (ok : Bool)
  /-- A turn of `flush_queue` or of the loop of `advance`. -/
  | tick
  | flushQueue
  | advance
  | packet (packet : Packet)
  deriving DecidableEq

def Input.isPacket : Input σ → Bool
  | .packet _ => true
  | _ => false

structure Connection (σ : Type) where
  /-- `BUN_FEATURE_FLAG_DISABLE_SQL_AUTO_PIPELINING` -/
  disabled : Bool
  hasBackpressure : Bool
  writeBufferFull : Bool
  queue : RequestQueue σ
  statements : Statements σ
  /-- The commands written that the server has not answered. -/
  unanswered : List (Command σ)
  nextId : Nat
  task : Task
  /-- The calls of `do_run` that wait for script, the last one first. -/
  calls : List (Point × Query σ)

namespace Connection
variable {σ : Type} [DecidableEq σ]

def init (disabled : Bool) : Connection σ :=
  ⟨disabled, false, false, RequestQueue.init, fun _ => none, [], 0, .idle, []⟩

def isAbleToWrite (c : Connection σ) : Bool := !c.hasBackpressure && !c.writeBufferFull

def canExecuteQuery (c : Connection σ) : Bool := c.queue.canExecuteQuery c.isAbleToWrite

def canPrepareQuery (c : Connection σ) : Bool := c.queue.canPrepareQuery c.isAbleToWrite

def canPipeline (c : Connection σ) : Bool := c.queue.canPipeline c.disabled c.isAbleToWrite

def write (command : Command σ) (c : Connection σ) : Connection σ := {c with unanswered := c.unanswered ++ [command]}

/-! ### Running a request -/

def runSimpleQuery (c : Connection σ) (q : Query σ) : Connection σ × Query σ × Outcome :=
  if q.status ≠ .pending ∨ c.canExecuteQuery = false then (c, q, .ok)
  else (c.write (.query q.id), {q with status := .running}, .ok)

/-- `run_prepared_query`, from the match on the status of the statement on. -/
def runStatement (c : Connection σ) (q : Query σ) (s : σ) : Connection σ × Query σ × Outcome :=
  match c.statements s with
  | some .failed => (c, q, .err)
  | some .prepared => if c.canPipeline then (c, q, .script .bind) else (c, q, .ok)
  | some (.parsing _) => (c, q, .ok)
  | some .pending | none =>
    if c.canPrepareQuery then
      ({c.write (.prepare s) with statements := c.statements.set s (.parsing false)}, q, .ok)
    else (c, q, .ok)

def runQuery (c : Connection σ) (q : Query σ) : Connection σ × Query σ × Outcome :=
  if q.simple then c.runSimpleQuery q
  else match q.statement with
    | none => (c, q, .script .signature)
    | some s => c.runStatement q s

/-- A request that does not run has failed. -/
def guarded : Connection σ × Query σ × Outcome → Connection σ × Query σ × Outcome
  | (c, q, .err) => (c, q.fail.1, .err)
  | r => r

/-- `JSMySQLQuery::run`, up to script or its end. -/
def run (c : Connection σ) (q : Query σ) : Connection σ × Query σ × Outcome :=
  if !q.isPending || q.isBeingPrepared c.statements then (c, q, .ok) else guarded (c.runQuery q)

/-- The signature is looked up: the statement is found or made. -/
def lookUp (c : Connection σ) (q : Query σ) : Connection σ × Query σ × Outcome :=
  match c.statements q.signature with
  | some .failed => (c, q, .err)
  | some _ => c.runStatement {q with statement := some q.signature} q.signature
  | none =>
    {c with statements := c.statements.set q.signature .pending}.runStatement
      {q with statement := some q.signature} q.signature

/-- The rest of `run`, when script returns. -/
def resumeRun (c : Connection σ) (q : Query σ) : Point → Bool → Connection σ × Query σ × Outcome
  | _, false => guarded (c, q, .err)
  | .signature, true => guarded (c.lookUp q)
  | .bind, true => (c.write (.execute q.id), {q with status := .running, pipelined := true}, .ok)

/-! ### `do_run` -/

/-- The rest of `do_run`: the request is added if it did not fail. -/
def finishDoRun : Connection σ × Query σ × Outcome → Connection σ
  | (c, q, .ok) => {c with queue := c.queue.add c.statements q}
  | (c, _, .err) => c
  | (c, q, .script point) => {c with calls := (point, q) :: c.calls}

def doRun (c : Connection σ) (simple : Bool) (signature : σ) : Connection σ :=
  finishDoRun ({c with nextId := c.nextId + 1}.run (Query.init c.nextId simple signature))

/-! ### `advance` -/

/-- The end of `advance`: what has ended at the front is discarded. -/
def finishAdvance (c : Connection σ) : Connection σ := {c with queue := c.queue.discardCompleted, task := .idle}

def setRequest (c : Connection σ) (offset : Nat) (q : Query σ) : Connection σ :=
  {c with queue.requests := c.queue.requests.set offset q}

/-- `advance`, when `run` has returned or waits for script. A request that failed has been marked
so by `run`, and `on_error` finds that it has ended. -/
def afterRun (offset : Nat) : Connection σ × Query σ × Outcome → Connection σ
  | (c, q, .script point) => {c.setRequest offset q with task := .script offset point}
  | (c, q, .err) =>
    if offset = 0 then {c with queue.requests := c.queue.requests.drop 1, task := .advance 1}
    else {c.setRequest offset q with task := .advance (offset + 1)}
  | (c, q, .ok) =>
    let c := {c.setRequest offset q with queue := (c.setRequest offset q).queue.started c.statements q}
    if !q.isBeingPrepared c.statements && q.isRunning && q.pipelined && c.canPipeline then
      {c with task := .advance (offset + 1)}
    else c.finishAdvance

/-- A turn of the loop of `advance`. -/
def turn (c : Connection σ) (offset : Nat) : Connection σ :=
  match c.isAbleToWrite, c.queue.requests[offset]? with
  | true, some q =>
    if q.isCompleted then
      if offset > 0 then {c with task := .advance (offset + 1)}
      else {c with queue.requests := c.queue.requests.drop 1}
    else if q.isBeingPrepared c.statements then {c with queue.waitingToPrepare := true}.finishAdvance
    else if q.isRunning then
      let total := (c.queue.pipelinedRequests + c.queue.nonpipelinableRequests).toNat
      {c with task := .advance (if offset < total then offset + total else offset + 1)}
    else afterRun offset (c.run q)
  | _, _ => c.finishAdvance

/-- `flush_queue`, when the data is flushed. -/
def flushed (c : Connection σ) : Connection σ :=
  if c.hasBackpressure then {c with task := .idle} else {c with task := .advance 0}

/-! ### Packets -/

def goOn (c : Connection σ) : Next → Connection σ
  | .nothing => {c with task := .idle}
  | .flush => {c with task := .flush}
  | .advance => {c with task := .advance 0}

/-- A callback is called, if the request had not ended before. -/
def notify (c : Connection σ) (next : Next) (called : Bool) : Connection σ :=
  if called then {c with task := .callback next} else c.goOn next

def markCurrentRequestAsFinished (c : Connection σ) (item : Query σ) : Connection σ :=
  let c := {c with queue.waitingToPrepare := false}
  if item.isBeingPrepared c.statements then {c with statements := item.markAsPrepared c.statements}
  else if item.isRunning then {c with queue := c.queue.count item (-1)}
  else c

/-- The request at the front is given its result, or is rejected. -/
def resolve (c : Connection σ) (ended : Query σ × Bool) (rest : List (Query σ)) (next : Next) : Connection σ :=
  {c with queue.requests := ended.1 :: rest}.notify next ended.2

def handlePreparedStatement (c : Connection σ) (request : Query σ) (rest : List (Query σ)) (s : σ) :
    Packet → Option (Connection σ)
  | .definition described => some {c with statements := c.statements.set s (.parsing described)}
  | .prepared =>
    let c := {c with statements := c.statements.set s .prepared,
                     queue.isReadyForQuery := true, queue.waitingToPrepare := false}
    some {c with statements := request.markAsPrepared c.statements, task := .advance 0}
  | .err =>
    let c := {c with statements := c.statements.set s .failed, queue.isReadyForQuery := true}
    some ((c.markCurrentRequestAsFinished request).resolve request.fail rest .advance)
  | _ => none

def handleResultSet (c : Connection σ) (request : Query σ) (rest : List (Query σ)) : Packet → Option (Connection σ)
  | .err =>
    let c := {c with queue.isReadyForQuery := true}
    some ((c.markCurrentRequestAsFinished request).resolve request.fail rest .flush)
  | .part => if request.hasStatement then some c else none
  | .badRow =>
    if request.hasStatement then
      some ((c.markCurrentRequestAsFinished request).resolve request.fail rest .nothing)
    else none
  | .more => if request.hasStatement then some (c.resolve (request.result false) rest .flush) else none
  | .done =>
    if request.hasStatement then
      let c := {c with queue.isReadyForQuery := true}
      some ((c.markCurrentRequestAsFinished request).resolve (request.result true) rest .flush)
    else none
  | _ => none

/-- `handle_command`. No connection is left when the packet is unexpected, or is of the other
kind of answer and would be decoded as what it is not. -/
def handleCommand (c : Connection σ) (packet : Packet) : Option (Connection σ) :=
  match c.queue.requests with
  | [] => none
  | request :: rest =>
    if request.simple then c.handleResultSet request rest packet
    else match request.statement with
      | none => some c
      | some s => match c.statements s with
        | some .pending | none => none
        | some (.parsing _) => c.handlePreparedStatement request rest s packet
        | some .prepared => c.handleResultSet request rest packet
        | some .failed =>
          let c := {c with queue.isReadyForQuery := true}
          some ((c.markCurrentRequestAsFinished request).resolve request.fail rest .flush)

/-! ### Steps -/

/-- Whether native code goes on without script. -/
def busy (c : Connection σ) : Bool :=
  match c.task with
  | .flush | .advance _ => true
  | _ => false

/-- Whether the event loop may go on. -/
def isIdle (c : Connection σ) : Bool := c.task = .idle && c.calls.isEmpty

def step (c : Connection σ) : Input σ → Option (Connection σ)
  | .socket hasBackpressure writeBufferFull =>
    some {c with hasBackpressure := hasBackpressure, writeBufferFull := writeBufferFull}
  | .doRun simple signature => if c.busy then none else some (c.doRun simple signature)
  | .resume ok => match c.calls, c.task with
    | (point, q) :: calls, _ => some (finishDoRun ({c with calls := calls}.resumeRun q point ok))
    | [], .script offset point =>
      c.queue.requests[offset]?.map fun q => afterRun offset (c.resumeRun q point ok)
    | [], .callback next => some (c.goOn next)
    | [], _ => none
  | .tick => match c.task with
    | .flush => some c.flushed
    | .advance offset => some (c.turn offset)
    | _ => none
  | .flushQueue => if c.isIdle then some {c with task := .flush} else none
  | .advance => if c.isIdle then some {c with task := .advance 0} else none
  | .packet packet =>
    match c.isIdle, c.unanswered with
    | true, command :: rest =>
      if packet.answers command then
        {c with unanswered := if packet.isLast then rest else command :: rest}.handleCommand packet
      else none
    | _, _ => none

end Connection
end Funbun.Sql
