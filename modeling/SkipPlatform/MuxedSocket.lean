import Mathlib.Logic.Function.Basic
import Mathlib.Tactic

set_option autoImplicit false

/-! The streams that share one socket. A callback runs user code, which may call the socket and its
streams again before the method that called it goes on; `Frame` is what such a method has left to
do. -/
namespace SkipPlatform.MuxedSocket

inductive SocketState where
  | idle
  | authSent
  | closing
  | closeWait
  | closed
deriving DecidableEq

inductive StreamState where
  | open
  | closing
  | closeWait
  | closed
deriving DecidableEq

abbrev Payload := List UInt8

inductive Message where
  | auth
  | goaway (lastStream errorCode : ℕ) (msg : String)
  | data (stream : ℕ) (payload : Payload)
  | close (stream : ℕ)
  | reset (stream errorCode : ℕ) (msg : String)
  | ping
  | pong
deriving DecidableEq

/-- What is seen of a socket from outside. `ownClose` and `ownReset` are calls of `close` and
`error` on a stream, and `remoteClosed` is its end by the server, whether or not there is a
callback for it. -/
inductive Event where
  | sent (msg : Message)
  | created (stream : ℕ)
  | ownClose (stream : ℕ)
  | ownReset (stream : ℕ)
  | remoteClosed (stream : ℕ)
  | onClose (stream : ℕ)
  | onError (stream : ℕ)
  | onData (stream : ℕ) (payload : Payload)
deriving DecidableEq

/-- `pendingAuth` are the signatures that are waited for, and `waiting` the streams that are asked
for again after a while. -/
structure Mux where
  state : SocketState
  reauthTimer : Bool
  activeStreams : List ℕ
  streams : ℕ → Option StreamState
  serverStreamWatermark : ℕ
  nextStream : ℕ
  pendingAuth : ℕ
  waiting : ℕ
  log : List Event

inductive Frame where
  | closeStreams (final : SocketState)
  | muxClosed (final : SocketState)
  | errorStreams (errorCode : ℕ) (msg : String)
  | failStreams
  | muxFailed
  | streamData (stream : ℕ) (payload : Payload)
  | removeStream (stream : ℕ)
  | nothing
deriving DecidableEq

namespace Mux

def emit (m : Mux) (e : Event) : Mux := { m with log := m.log ++ [e] }

def send (m : Mux) (msg : Message) : Mux := m.emit (.sent msg)

def setStream (m : Mux) (stream : ℕ) (s : StreamState) : Mux :=
  { m with streams := Function.update m.streams stream (some s) }

def delete (m : Mux) (stream : ℕ) : Mux :=
  { m with activeStreams := m.activeStreams.filter (· ≠ stream) }

def shut (m : Mux) : Mux :=
  { m with activeStreams := [], reauthTimer := false, state := .closed }

def maxStream : ℕ := 2 ^ 24

def create (m : Mux) (stream : ℕ) : Mux :=
  ({ m with
    activeStreams := m.activeStreams ++ [stream]
    streams := Function.update m.streams stream (some .open) }).emit (.created stream)

def streamClose (m : Mux) (stream : ℕ) (nowClosed : Bool) : Mux × Bool :=
  match m.state with
  | .idle | .closing | .closed => (m, false)
  | .authSent | .closeWait =>
    if stream ≥ maxStream then (m, true)
    else
      let m := m.send (.close stream)
      (if nowClosed then m.delete stream else m, false)

def streamError (m : Mux) (stream errorCode : ℕ) (msg : String) : Mux :=
  match m.state with
  | .idle | .closing | .closed => m
  | .authSent | .closeWait =>
    if stream ≥ maxStream then m else (m.send (.reset stream errorCode msg)).delete stream

def streamSend (m : Mux) (stream : ℕ) (data : Payload) : Mux :=
  match m.state with
  | .idle | .closing | .closed => m
  | .authSent | .closeWait => if stream ≥ maxStream then m else m.send (.data stream data)

def close (m : Mux) (stream : ℕ) : Mux × Bool :=
  match m.streams stream with
  | none => (m, false)
  | some .closing | some .closed => (m.emit (.ownClose stream), false)
  | some .open => ((m.emit (.ownClose stream)).setStream stream .closing).streamClose stream false
  | some .closeWait =>
    ((m.emit (.ownClose stream)).setStream stream .closed).streamClose stream true

def error (m : Mux) (stream errorCode : ℕ) (msg : String) : Mux :=
  match m.streams stream with
  | none => m
  | some .closed | some .closing => (m.emit (.ownReset stream)).setStream stream .closed
  | some .open | some .closeWait =>
    ((m.emit (.ownReset stream)).setStream stream .closed).streamError stream errorCode msg

def sendData (m : Mux) (stream : ℕ) (data : Payload) : Mux :=
  match m.streams stream with
  | some .open | some .closeWait => m.streamSend stream data
  | _ => m

/-- The stream after the end by the server, and whether its callback is called. -/
def onStreamClose (m : Mux) (stream : ℕ) : Mux × Bool :=
  let m := m.emit (.remoteClosed stream)
  match m.streams stream with
  | some .open => ((m.setStream stream .closeWait).emit (.onClose stream), true)
  | some .closing => ((m.setStream stream .closed).emit (.onClose stream), true)
  | _ => (m, false)

def onStreamError (m : Mux) (stream : ℕ) : Mux × Bool :=
  let m := m.emit (.remoteClosed stream)
  match m.streams stream with
  | some .closed | none => (m, false)
  | some _ => ((m.setStream stream .closed).emit (.onError stream), true)

def onStreamData (m : Mux) (stream : ℕ) (data : Payload) : Mux × List Frame :=
  match m.streams stream with
  | some .open | some .closing => (m.emit (.onData stream data), [.nothing])
  | _ => (m, [])

def openStream (m : Mux) : Mux :=
  match m.state with
  | .authSent => { m.create m.nextStream with nextStream := m.nextStream + 2 }
  | .idle => { m with waiting := m.waiting + 1 }
  | .closing | .closeWait | .closed => m

def closeAll (m : Mux) : List ℕ → Mux × Bool
  | [] => (m, false)
  | stream :: rest =>
    match m.close stream with
    | (m, true) => (m, true)
    | (m, false) => closeAll m rest

def closeSocket (m : Mux) : Mux :=
  match m.state with
  | .closing | .closed => m
  | .idle => m.shut
  | .closeWait =>
    match m.closeAll m.activeStreams with
    | (m, true) => m
    | (m, false) => m.shut
  | .authSent =>
    match m.closeAll m.activeStreams with
    | (m, true) => m
    | (m, false) => { m with state := .closing }

/-- The next of the streams that is not closed is told; after the last one the socket is closed. -/
def errorStreams (m : Mux) (errorCode : ℕ) (msg : String) : Mux × List Frame :=
  match m.activeStreams.find? (fun stream => (m.onStreamError stream).2) with
  | some stream => ((m.onStreamError stream).1, [.errorStreams errorCode msg])
  | none =>
    let lastStream := max (m.nextStream - 2) m.serverStreamWatermark
    (if lastStream ≥ maxStream then m.shut else m.shut.send (.goaway lastStream errorCode msg), [])

def errorSocket (m : Mux) (errorCode : ℕ) (msg : String) : Mux × List Frame :=
  match m.state with
  | .idle | .closing | .closed => (m.shut, [])
  | .authSent | .closeWait => m.errorStreams errorCode msg

def pingSocket (m : Mux) : Mux :=
  match m.state with
  | .idle | .closing | .closed => m
  | .authSent | .closeWait => m.send .ping

def closeStreams (m : Mux) (final : SocketState) : Mux × List Frame :=
  match m.activeStreams.find? (fun stream => (m.onStreamClose stream).2) with
  | some stream => ((m.onStreamClose stream).1, [.closeStreams final])
  | none => (m, [.muxClosed final])

def onSocketClose (m : Mux) : Mux × List Frame :=
  match m.state with
  | .closeWait | .closed => (m, [])
  | .idle | .authSent => m.closeStreams .closeWait
  | .closing => m.closeStreams .closed

def failStreams (m : Mux) : Mux × List Frame :=
  match m.activeStreams.find? (fun stream => (m.onStreamError stream).2) with
  | some stream => ((m.onStreamError stream).1, [.failStreams])
  | none => (m, [.muxFailed])

def onSocketError (m : Mux) : Mux × List Frame :=
  match m.state with
  | .closed => (m, [])
  | .idle | .authSent | .closing | .closeWait => m.failStreams

def acceptStream (m : Mux) (stream : ℕ) : Mux :=
  { m.create stream with serverStreamWatermark := stream }

def onData (m : Mux) (stream : ℕ) (payload : Payload) : Mux × List Frame :=
  if stream ∈ m.activeStreams then m.onStreamData stream payload
  else if m.state = .closing then (m, [])
  else if stream % 2 = 0 ∧ stream > m.serverStreamWatermark then
    (m.acceptStream stream, [.streamData stream payload])
  else (m, [])

def onClose (m : Mux) (stream : ℕ) : Mux × List Frame :=
  if stream ∈ m.activeStreams then
    match m.streams stream with
    | some .closed => ((m.onStreamClose stream).1.delete stream, [])
    | some .closing => ((m.onStreamClose stream).1, [.removeStream stream])
    | some .open => ((m.onStreamClose stream).1, [.nothing])
    | _ => ((m.onStreamClose stream).1, [])
  else (m, [])

def onReset (m : Mux) (stream : ℕ) : Mux × List Frame :=
  if stream ∈ m.activeStreams then
    match m.onStreamError stream with
    | (m, true) => (m, [.removeStream stream])
    | (m, false) => (m.delete stream, [])
  else (m, [])

inductive ServerMessage where
  | auth
  | goaway
  | data (stream : Fin maxStream) (payload : Payload)
  | close (stream : Fin maxStream)
  | reset (stream : Fin maxStream)
  | ping
  | other

def onSocketMessage (m : Mux) (msg : ServerMessage) : Mux × List Frame :=
  match m.state with
  | .authSent | .closing =>
    match msg with
    | .auth | .other => (m, [])
    | .goaway => m.onSocketError
    | .data stream payload => m.onData stream payload
    | .close stream => m.onClose stream
    | .reset stream => m.onReset stream
    | .ping => (if m.state = .authSent then m.send .pong else m, [])
  | .idle | .closeWait | .closed => (m, [])

theorem onSocketMessage_cases {P : Mux × List Frame → Prop} {m : Mux} (msg : ServerMessage)
    (kept : P (m, [])) (goaway : P m.onSocketError)
    (data : m.state = .authSent ∨ m.state = .closing →
      ∀ stream payload, P (m.onData stream payload))
    (close : ∀ stream, P (m.onClose stream)) (reset : ∀ stream, P (m.onReset stream))
    (ping : m.state = .authSent → P (m.send .pong, [])) : P (m.onSocketMessage msg) := by
  have handled : m.state = .authSent ∨ m.state = .closing → P (match msg with
      | .auth | .other => (m, [])
      | .goaway => m.onSocketError
      | .data stream payload => m.onData stream payload
      | .close stream => m.onClose stream
      | .reset stream => m.onReset stream
      | .ping => (if m.state = SocketState.authSent then m.send .pong else m, [])) := by
    intro hs
    cases msg with
    | auth => exact kept
    | other => exact kept
    | goaway => exact goaway
    | data stream payload => exact data hs stream payload
    | close stream => exact close stream
    | reset stream => exact reset stream
    | ping =>
      dsimp only
      split
      · rename_i hsent
        exact ping hsent
      · exact kept
  unfold onSocketMessage
  cases hs : m.state with
  | authSent => simpa only [hs] using handled (Or.inl hs)
  | closing => simpa only [hs] using handled (Or.inr hs)
  | idle => exact kept
  | closeWait => exact kept
  | closed => exact kept

/-- The signature is asked for; the state is looked at before, and set afterwards. -/
def sendAuth (m : Mux) : Mux :=
  match m.state with
  | .idle | .authSent => { m with pendingAuth := m.pendingAuth + 1 }
  | .closing | .closeWait | .closed => m

def signed (m : Mux) : Mux :=
  if m.pendingAuth = 0 then m
  else { m.send .auth with
    state := .authSent
    reauthTimer := true
    pendingAuth := m.pendingAuth - 1 }

end Mux

inductive Call where
  | openStream
  | closeSocket
  | errorSocket (errorCode : ℕ) (msg : String)
  | pingSocket
  | close (stream : ℕ)
  | error (stream errorCode : ℕ) (msg : String)
  | send (stream : ℕ) (data : Payload)

inductive SocketEvent where
  | message (msg : Mux.ServerMessage)
  | close
  | error
  | reauthTimer
  | signed
  | signFailed
  | openAgain

/-- Calls come at any time, also from a callback; an event comes when no method is left; `ret` is
the end of a callback. -/
inductive Action where
  | call (c : Call)
  | event (e : SocketEvent)
  | ret

structure Config where
  mux : Mux
  stack : List Frame

namespace Call

def run (m : Mux) : Call → Mux × List Frame
  | openStream => (m.openStream, [])
  | closeSocket => (m.closeSocket, [])
  | errorSocket errorCode msg => m.errorSocket errorCode msg
  | pingSocket => (m.pingSocket, [])
  | close stream => ((m.close stream).1, [])
  | error stream errorCode msg => (m.error stream errorCode msg, [])
  | send stream data => (m.sendData stream data, [])

end Call

namespace SocketEvent

def run (m : Mux) : SocketEvent → Mux × List Frame
  | message msg => m.onSocketMessage msg
  | close => m.onSocketClose
  | error => m.onSocketError
  | reauthTimer => (if m.reauthTimer then { m with reauthTimer := false }.sendAuth else m, [])
  | signed => (m.signed, [])
  | signFailed => ({ m with pendingAuth := m.pendingAuth - 1 }, [])
  | openAgain => (if m.waiting = 0 then m else { m with waiting := m.waiting - 1 }.openStream, [])

end SocketEvent

namespace Frame

def resume (m : Mux) : Frame → Mux × List Frame
  | closeStreams final => m.closeStreams final
  | muxClosed .closed => (m.shut, [])
  | muxClosed final => ({ m with state := final }, [])
  | errorStreams errorCode msg => m.errorStreams errorCode msg
  | failStreams => m.failStreams
  | muxFailed => (m.shut, [])
  | streamData stream payload => m.onStreamData stream payload
  | removeStream stream => (m.delete stream, [])
  | nothing => (m, [])

end Frame

namespace Config

def push (result : Mux × List Frame) (stack : List Frame) : Config := ⟨result.1, result.2 ++ stack⟩

def step (c : Config) : Action → Config
  | .call call => push (call.run c.mux) c.stack
  | .event e => if c.stack = [] then push (e.run c.mux) [] else c
  | .ret =>
    match c.stack with
    | [] => c
    | frame :: stack => push (frame.resume c.mux) stack

def run (c : Config) (actions : List Action) : Config := actions.foldl step c

end Config

def connect : Config where
  mux :=
    { state := .idle
      reauthTimer := false
      activeStreams := []
      streams := fun _ => none
      serverStreamWatermark := 0
      nextStream := 1
      pendingAuth := 1
      waiting := 0
      log := [] }
  stack := []

end SkipPlatform.MuxedSocket
