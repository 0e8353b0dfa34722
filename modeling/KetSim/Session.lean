import KetSim.Channel
import KetSim.Execution
/-!
# Sessions

A session is a client of engine channels. It holds one handle to a channel, perhaps the provider's
side of it, a tolerance for its executions, and executions that wait for their channel; those keep
the channel and the tolerance they started with. Each request is answered at once. On a channel that
a task settles, waiting lets the task run and so always ends; on any other it looks once.
-/
namespace KetSim

inductive BackendSpec (R : Type) where
  | engine (settings : Settings R)
  | fixed (name : String) (amplitudes : Array (Amplitude R)) (tolerance : Option R)
  | failing (name : String) (error : Error R) (tolerance : Option R)

/-- Make a backend. A tolerance that is not given is zero. -/
def BackendSpec.build {R : Type} [Scalar R] : BackendSpec R → Except (Error R) (Backend R)
  | engine settings => ((Engine.create settings).mapError Error.settings).map Engine.backend
  | fixed name amps tolerance => .ok (.fixed name amps (tolerance.getD 0))
  | failing name error tolerance => .ok (.failing name error (tolerance.getD 0))

/-- An execution that was started before its engine was ready. -/
structure Waiter (R : Type) where
  channel : Nat
  tolerance : Option R
  statements : List Statement
  answered : Bool

/-- The state of a client. Channels and waiters are numbered in the order of their making. -/
structure Session (R : Type) where
  channels : Array (Channel R)
  /-- The channel whose provider the client still is. -/
  provides : Option Nat
  /-- The channel of the handle. -/
  handle : Nat
  /-- Waiting on the handle lets the task behind it run. -/
  runsTask : Bool
  tolerance : Option R
  waiters : Array (Waiter R)

inductive Request (R : Type) where
  | openChannel
  | publish (backend : BackendSpec R)
  | fail (reason : String)
  | bootstrap (settings : Settings R)
  | abandon
  | spawn (settings : Settings R)
  | adopt (backend : BackendSpec R)
  | status
  | current
  | setTolerance (value : Option R)
  | ready
  | execute (statements : List Statement)
  | executeWhenReady (statements : List Statement)
  | poll (waiter : Nat)

inductive Reply (R : Type) where
  | done
  | refused (error : Error R)
  /-- The client is no provider. -/
  | notProvider
  | status (status : Status R)
  | backend (name : String)
  | execution (execution : Execution R)
  | pending
  /-- The waiter was answered before. -/
  | finished
  /-- There is no such waiter. -/
  | unknown

namespace Session
variable {R : Type} [Scalar R]

/-- A client with a fresh channel, of which it is the provider. -/
def start : Session R := ⟨#[.fresh], some 0, 0, false, none, #[]⟩

def channel (s : Session R) (n : Nat) : Channel R := s.channels[n]?.getD .fresh

def stopProviding (s : Session R) : Session R :=
  match s.provides with
  | some n => { s with channels := s.channels.modify n Channel.abandon, provides := none }
  | none => s

def turnTo (s : Session R) (c : Channel R) (provides runsTask : Bool) : Session R :=
  let s := s.stopProviding
  { s with
    channels := s.channels.push c
    provides := if provides then some s.channels.size else none
    handle := s.channels.size
    runsTask := runsTask }

/-- Settle the channel of which the client is the provider. -/
def provide (s : Session R) (act : Channel R → Logged R (Channel R × Reply R)) :
    Logged R (Session R × Reply R) := do
  match s.provides with
  | none => return (s, .notProvider)
  | some n =>
    let (c, reply) ← act (s.channel n)
    return ({ s with channels := s.channels.setIfInBounds n c, provides := none }, reply)

def replyOf (x : Report R (Execution R)) : Logged R (Reply R) := do
  match ← x.run with
  | .ok e => return .execution e
  | .error e => return .refused e

/-- Execute on an engine that may not be there. -/
def executeOn (engine : Except (Error R) (Backend R)) (tolerance : Option R)
    (statements : List Statement) : Logged R (Reply R) :=
  match engine with
  | .ok backend => replyOf (backend.execute tolerance statements)
  | .error e => pure (.refused e)

/-- Let the task behind the handle run, if there is one. -/
def settle (s : Session R) : Logged R (Session R) := do
  if s.runsTask then
    let c ← (s.channel s.handle).settle
    return { s with channels := s.channels.setIfInBounds s.handle c }
  else return s

/-- Look whether a waiter can be answered. -/
def pollWaiter (s : Session R) (n : Nat) : Logged R (Session R × Reply R) := do
  match s.waiters[n]? with
  | none => return (s, .unknown)
  | some w =>
    if w.answered then return (s, .finished)
    match (s.channel w.channel).awaited? with
    | none => return (s, .pending)
    | some engine =>
      let reply ← executeOn engine w.tolerance w.statements
      return ({ s with waiters := s.waiters.modify n ({ · with answered := true }) }, reply)

def step (s : Session R) : Request R → Logged R (Session R × Reply R)
  | .openChannel => return (s.turnTo .fresh true false, .done)
  | .publish spec => do
    if s.provides.isNone then return (s, .notProvider)
    match spec.build with
    | .error e => return (s, .refused e)
    | .ok backend => s.provide fun c => do return (← c.publish backend, .done)
  | .fail reason => s.provide fun c => return (c.fail (.stated reason), .done)
  | .bootstrap settings => s.provide fun c => do
    match ← c.bootstrap settings with
    | (c, .ok ()) => return (c, .done)
    | (c, .error e) => return (c, .refused e)
  | .abandon => s.provide fun c => return (c.abandon, .done)
  | .spawn settings => return (s.turnTo (.scheduled settings) false true, .done)
  | .adopt spec =>
    match spec.build with
    | .error e => return (s, .refused e)
    | .ok backend => do return (s.turnTo (← Channel.fresh.publish backend) false false, .done)
  | .status => return (s, .status (s.channel s.handle).status)
  | .current =>
    match (s.channel s.handle).current with
    | .ok backend => return (s, .backend backend.name)
    | .error e => return (s, .refused e)
  | .setTolerance value => return ({ s with tolerance := value }, .done)
  | .ready => do
    let s ← s.settle
    match (s.channel s.handle).awaited? with
    | none => return (s, .pending)
    | some (.ok backend) => return (s, .backend backend.name)
    | some (.error e) => return (s, .refused e)
  | .execute statements => do
    return (s, ← executeOn (s.channel s.handle).current s.tolerance statements)
  | .executeWhenReady statements => do
    let s ← s.settle
    if s.runsTask then
      match (s.channel s.handle).awaited? with
      | none => return (s, .pending)
      | some engine => return (s, ← executeOn engine s.tolerance statements)
    else
      let waiter : Waiter R := ⟨s.handle, s.tolerance, statements, false⟩
      pollWaiter { s with waiters := s.waiters.push waiter } s.waiters.size
  | .poll n => s.pollWaiter n

end Session

end KetSim
