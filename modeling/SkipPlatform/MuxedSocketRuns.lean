import SkipPlatform.MuxedSocket

set_option autoImplicit false

namespace SkipPlatform.MuxedSocket

namespace Event

def isActive : Event → Bool
  | sent _ | created _ => true
  | _ => false

end Event

def activity (log : List Event) : List Event := log.filter Event.isActive

theorem activity_append (log log' : List Event) :
    activity (log ++ log') = activity log ++ activity log' := by
  simp only [activity, List.filter_append]

namespace Frame

/-- The state that a method leaves the socket in is one in which it does not send. -/
@[grind] def Ends : Frame → Prop
  | closeStreams final | muxClosed final => final = .closeWait ∨ final = .closed
  | _ => True

end Frame

namespace SocketState

/-- The states that are not left for `authSent`. -/
def Leaving (s : SocketState) : Prop := s = .closing ∨ s = .closeWait ∨ s = .closed

theorem leaving_iff (s : SocketState) : s.Leaving ↔ s ≠ .idle ∧ s ≠ .authSent := by
  cases s <;> simp [Leaving]

end SocketState

/-- The socket goes from `m` to `m'` and does not come back: it stays closed and does nothing more,
and it stays on its way to the end. -/
structure Later (m m' : Mux) : Prop where
  closed : m.state = .closed → m'.state = .closed ∧ activity m'.log = activity m.log
  leaving : m.state.Leaving → m'.state.Leaving

namespace Later

theorem refl (m : Mux) : Later m m := ⟨fun h => ⟨h, rfl⟩, id⟩

theorem trans {a b c : Mux} (h : Later a b) (h' : Later b c) : Later a c where
  closed := by
    intro ha
    have hb := h.closed ha
    have hc := h'.closed hb.1
    exact ⟨hc.1, hc.2.trans hb.2⟩
  leaving := fun ha => h'.leaving (h.leaving ha)

theorem of_state {m m' : Mux} (hs : m'.state = m.state)
    (hl : m.state = .closed → activity m'.log = activity m.log) : Later m m' where
  closed := fun h => ⟨hs.trans h, hl h⟩
  leaving := fun h => by rw [hs]; exact h

theorem of_quiet {m m' : Mux} (hs : m'.state = m.state) (hl : m'.log = m.log) : Later m m' :=
  of_state hs (fun _ => by rw [hl])

end Later

namespace Mux

variable (m : Mux)

variable (e : Event)

@[simp]
theorem emit_state : (m.emit e).state = m.state := rfl

@[simp]
theorem emit_log : (m.emit e).log = m.log ++ [e] := rfl

@[simp]
theorem emit_streams : (m.emit e).streams = m.streams := rfl

@[simp]
theorem emit_activeStreams : (m.emit e).activeStreams = m.activeStreams := rfl

variable (k : ℕ)

@[simp]
theorem setStream_state (s : StreamState) : (m.setStream k s).state = m.state :=
  rfl

@[simp]
theorem setStream_log (s : StreamState) : (m.setStream k s).log = m.log := rfl

@[simp]
theorem setStream_streams (s : StreamState) :
    (m.setStream k s).streams = Function.update m.streams k (some s) := rfl

@[simp]
theorem setStream_activeStreams (s : StreamState) :
    (m.setStream k s).activeStreams = m.activeStreams := rfl

@[simp]
theorem delete_state : (m.delete k).state = m.state := rfl

@[simp]
theorem delete_log : (m.delete k).log = m.log := rfl

@[simp]
theorem delete_streams : (m.delete k).streams = m.streams := rfl

@[simp]
theorem mem_delete (k i : ℕ) :
    i ∈ (m.delete k).activeStreams ↔ i ∈ m.activeStreams ∧ i ≠ k := by
  simp [delete]

@[simp]
theorem shut_state : m.shut.state = .closed := rfl

@[simp]
theorem shut_log : m.shut.log = m.log := rfl

@[simp]
theorem shut_streams : m.shut.streams = m.streams := rfl

@[simp]
theorem shut_activeStreams : m.shut.activeStreams = [] := rfl

theorem activity_emit_quiet (h : e.isActive = false) :
    activity (m.emit e).log = activity m.log := by
  rw [emit_log, activity_append]
  simp [activity, h]

theorem later_emit (h : e.isActive = false) : Later m (m.emit e) :=
  .of_state rfl (fun _ => m.activity_emit_quiet e h)

theorem later_setStream (s : StreamState) : Later m (m.setStream k s) :=
  .of_quiet rfl rfl

theorem later_delete : Later m (m.delete k) := .of_quiet rfl rfl

theorem later_shut : Later m m.shut where
  closed := fun _ => ⟨rfl, rfl⟩
  leaving := fun _ => .inr (.inr rfl)

theorem later_send (msg : Message) (h : m.state ≠ .closed) : Later m (m.send msg) :=
  .of_state rfl (fun hc => absurd hc h)

theorem later_streamClose (nowClosed : Bool) :
    Later m (m.streamClose k nowClosed).1 := by
  have hsend (h : m.state ≠ .closed) :
      Later m (if k ≥ maxStream then (m, true)
        else (if nowClosed then (m.send (.close k)).delete k else m.send (.close k), false)).1 := by
    have hs := m.later_send (.close k) h
    split
    · exact .refl m
    · split
      · exact hs.trans (later_delete _ k)
      · exact hs
  unfold streamClose
  cases h : m.state with
  | idle => exact .refl m
  | closing => exact .refl m
  | closed => exact .refl m
  | authSent => exact hsend (by simp [h])
  | closeWait => exact hsend (by simp [h])

theorem later_streamError (k errorCode : ℕ) (msg : String) :
    Later m (m.streamError k errorCode msg) := by
  have hsend (h : m.state ≠ .closed) :
      Later m (if k ≥ maxStream then m else (m.send (.reset k errorCode msg)).delete k) := by
    split
    · exact .refl m
    · exact (m.later_send _ h).trans (later_delete _ k)
  unfold streamError
  cases h : m.state with
  | idle => exact .refl m
  | closing => exact .refl m
  | closed => exact .refl m
  | authSent => exact hsend (by simp [h])
  | closeWait => exact hsend (by simp [h])

theorem later_streamSend (data : Payload) : Later m (m.streamSend k data) := by
  have hsend (h : m.state ≠ .closed) :
      Later m (if k ≥ maxStream then m else m.send (.data k data)) := by
    split
    · exact .refl m
    · exact m.later_send _ h
  unfold streamSend
  cases h : m.state with
  | idle => exact .refl m
  | closing => exact .refl m
  | closed => exact .refl m
  | authSent => exact hsend (by simp [h])
  | closeWait => exact hsend (by simp [h])

theorem later_close : Later m (m.close k).1 := by
  have hset (s : StreamState) (nowClosed : Bool) :
      Later m (((m.emit (.ownClose k)).setStream k s).streamClose k nowClosed).1 :=
    ((m.later_emit _ rfl).trans (later_setStream _ k s)).trans (later_streamClose _ k nowClosed)
  unfold close
  split
  · exact .refl m
  · exact m.later_emit _ rfl
  · exact m.later_emit _ rfl
  · exact hset .closing false
  · exact hset .closed true

theorem later_error (k errorCode : ℕ) (msg : String) :
    Later m (m.error k errorCode msg) := by
  have hset : Later m ((m.emit (.ownReset k)).setStream k .closed) :=
    (m.later_emit _ rfl).trans (later_setStream _ k .closed)
  unfold error
  split
  · exact .refl m
  · exact hset
  · exact hset
  · exact hset.trans (later_streamError _ k errorCode msg)
  · exact hset.trans (later_streamError _ k errorCode msg)

theorem later_sendData (data : Payload) : Later m (m.sendData k data) := by
  unfold sendData
  split
  · exact m.later_streamSend k data
  · exact m.later_streamSend k data
  · exact .refl m

theorem later_onStreamClose : Later m (m.onStreamClose k).1 := by
  have hr : Later m (m.emit (.remoteClosed k)) := m.later_emit _ rfl
  have hset (s : StreamState) :
      Later m (((m.emit (.remoteClosed k)).setStream k s).emit (.onClose k)) :=
    (hr.trans (later_setStream _ k s)).trans (later_emit _ _ rfl)
  unfold onStreamClose
  dsimp only
  split
  · exact hset .closeWait
  · exact hset .closed
  · exact hr

theorem later_onStreamError : Later m (m.onStreamError k).1 := by
  have hr : Later m (m.emit (.remoteClosed k)) := m.later_emit _ rfl
  have hset : Later m (((m.emit (.remoteClosed k)).setStream k .closed).emit (.onError k)) :=
    (hr.trans (later_setStream _ k .closed)).trans (later_emit _ _ rfl)
  unfold onStreamError
  dsimp only
  split
  · exact hr
  · exact hr
  · exact hset

theorem later_onStreamData (data : Payload) :
    Later m (m.onStreamData k data).1 := by
  unfold onStreamData
  split
  · exact m.later_emit _ rfl
  · exact m.later_emit _ rfl
  · exact .refl m

theorem later_create (h : m.state ≠ .closed) : Later m (m.create k) :=
  .of_state rfl (fun hc => absurd hc h)

theorem later_openStream : Later m m.openStream := by
  unfold openStream
  cases h : m.state with
  | idle => exact .of_quiet h.symm rfl
  | authSent => exact (m.later_create m.nextStream (by simp [h])).trans (.of_quiet rfl rfl)
  | closing => exact .refl m
  | closeWait => exact .refl m
  | closed => exact .refl m

theorem later_closeAll (streams : List ℕ) (m : Mux) : Later m (m.closeAll streams).1 := by
  induction streams generalizing m with
  | nil => exact .refl m
  | cons k rest ih =>
    have hk := m.later_close k
    unfold closeAll
    cases hc : m.close k with
    | mk m' thrown =>
      rw [hc] at hk
      cases thrown with
      | true => exact hk
      | false => exact hk.trans (ih m')

theorem later_closeSocket : Later m m.closeSocket := by
  have hall := later_closeAll m.activeStreams m
  unfold closeSocket
  cases h : m.state with
  | idle => exact m.later_shut
  | closing => exact .refl m
  | closed => exact .refl m
  | closeWait =>
    cases hc : m.closeAll m.activeStreams with
    | mk m' thrown =>
      rw [hc] at hall
      cases thrown with
      | true => exact hall
      | false => exact hall.trans m'.later_shut
  | authSent =>
    cases hc : m.closeAll m.activeStreams with
    | mk m' thrown =>
      rw [hc] at hall
      cases thrown with
      | true => exact hall
      | false =>
        exact ⟨fun hm => by simp [h] at hm, fun hm => by simp [h, SocketState.Leaving] at hm⟩

theorem later_errorStreams (errorCode : ℕ) (msg : String) (h : m.state ≠ .closed) :
    Later m (m.errorStreams errorCode msg).1 := by
  unfold errorStreams
  split
  · exact m.later_onStreamError _
  · dsimp only
    split
    · exact m.later_shut
    · exact ⟨fun hm => absurd hm h, fun _ => .inr (.inr rfl)⟩

theorem later_errorSocket (errorCode : ℕ) (msg : String) :
    Later m (m.errorSocket errorCode msg).1 := by
  unfold errorSocket
  cases h : m.state with
  | idle => exact m.later_shut
  | closing => exact m.later_shut
  | closed => exact m.later_shut
  | authSent => exact m.later_errorStreams errorCode msg (by simp [h])
  | closeWait => exact m.later_errorStreams errorCode msg (by simp [h])

theorem later_pingSocket : Later m m.pingSocket := by
  unfold pingSocket
  cases h : m.state with
  | idle => exact .refl m
  | closing => exact .refl m
  | closed => exact .refl m
  | authSent => exact m.later_send _ (by simp [h])
  | closeWait => exact m.later_send _ (by simp [h])

theorem later_closeStreams (final : SocketState) :
    Later m (m.closeStreams final).1 := by
  unfold closeStreams
  split
  · exact m.later_onStreamClose _
  · exact .refl m

theorem later_onSocketClose : Later m m.onSocketClose.1 := by
  unfold onSocketClose
  split
  · exact .refl m
  · exact .refl m
  · exact m.later_closeStreams _
  · exact m.later_closeStreams _
  · exact m.later_closeStreams _

theorem later_failStreams : Later m m.failStreams.1 := by
  unfold failStreams
  split
  · exact m.later_onStreamError _
  · exact .refl m

theorem later_onSocketError : Later m m.onSocketError.1 := by
  unfold onSocketError
  split
  · exact .refl m
  · exact m.later_failStreams
  · exact m.later_failStreams
  · exact m.later_failStreams
  · exact m.later_failStreams

theorem later_onData (payload : Payload) (h : m.state ≠ .closed) :
    Later m (m.onData k payload).1 := by
  unfold onData
  split
  · exact m.later_onStreamData k payload
  · split
    · exact .refl m
    · split
      · exact (m.later_create k h).trans (.of_quiet rfl rfl)
      · exact .refl m

theorem later_onClose : Later m (m.onClose k).1 := by
  have hk := m.later_onStreamClose k
  unfold onClose
  split
  · split
    · exact hk.trans (later_delete _ k)
    · exact hk
    · exact hk
    · exact hk
  · exact .refl m

theorem later_onReset : Later m (m.onReset k).1 := by
  have hk := m.later_onStreamError k
  unfold onReset
  split
  · cases hc : m.onStreamError k with
    | mk m' called =>
      rw [hc] at hk
      cases called with
      | true => exact hk
      | false => exact hk.trans (later_delete m' k)
  · exact .refl m

theorem later_onSocketMessage (msg : ServerMessage) :
    Later m (m.onSocketMessage msg).1 := by
  apply onSocketMessage_cases (P := fun result => Later m result.1)
  case kept => exact .refl m
  case goaway => exact m.later_onSocketError
  case data =>
    intro hs stream payload
    apply m.later_onData stream payload
    rcases hs with hs | hs <;> simp [hs]
  case close => exact m.later_onClose
  case reset => exact m.later_onReset
  case ping =>
    intro hs
    apply m.later_send
    simp [hs]

theorem later_sendAuth : Later m m.sendAuth := by
  unfold sendAuth
  split
  · exact .of_quiet rfl rfl
  · exact .of_quiet rfl rfl
  · exact .refl m
  · exact .refl m
  · exact .refl m

theorem later_signed (h : ¬ m.state.Leaving) : Later m m.signed := by
  unfold signed
  split
  · exact .refl m
  · exact ⟨fun hm => absurd (.inr (.inr hm)) h, fun hm => absurd hm h⟩

end Mux

namespace Config

/-- The condition under which a step keeps a socket closed: no signature comes after the end has
begun, and no callback of `onSocketClose` or `errorSocket` has closed the socket meanwhile. -/
def Settled (c : Config) : Action → Prop
  | .event .signed => c.mux.pendingAuth = 0 ∨ c.stack ≠ [] ∨ ¬ c.mux.state.Leaving
  | .ret =>
    c.mux.state = .closed →
      (∀ stack, c.stack ≠ .muxClosed .closeWait :: stack) ∧
      ∀ errorCode msg stack, c.stack ≠ .errorStreams errorCode msg :: stack
  | _ => True

def Along (p : Config → Action → Prop) : Config → List Action → Prop
  | _, [] => True
  | c, a :: actions => p c a ∧ Along p (c.step a) actions

theorem along_append (p : Config → Action → Prop) (c : Config) (pre post : List Action) :
    Along p c (pre ++ post) ↔ Along p c pre ∧ Along p (c.run pre) post := by
  induction pre generalizing c with
  | nil => simp [Along, run]
  | cons a pre ih =>
    rw [List.cons_append, Along, Along, ih (c.step a), and_assoc]
    rfl

def Ends (c : Config) : Prop := ∀ frame ∈ c.stack, frame.Ends

theorem ends_push {result : Mux × List Frame} {stack : List Frame}
    (h : ∀ frame ∈ result.2, frame.Ends) (hs : ∀ frame ∈ stack, frame.Ends) :
    (push result stack).Ends := by
  intro frame hf
  have hm : frame ∈ result.2 ∨ frame ∈ stack := List.mem_append.mp hf
  cases hm with
  | inl hr => exact h frame hr
  | inr hr => exact hs frame hr

end Config

namespace Mux

variable (m : Mux)

theorem ends_closeStreams (final : SocketState)
    (h : final = .closeWait ∨ final = .closed) :
    ∀ frame ∈ (m.closeStreams final).2, frame.Ends := by
  unfold closeStreams
  split <;> simpa [Frame.Ends] using h

theorem ends_errorStreams (errorCode : ℕ) (msg : String) :
    ∀ frame ∈ (m.errorStreams errorCode msg).2, frame.Ends := by
  unfold errorStreams
  split <;> simp [Frame.Ends]

theorem ends_failStreams : ∀ frame ∈ m.failStreams.2, frame.Ends := by
  unfold failStreams
  split <;> simp [Frame.Ends]

theorem ends_onStreamData (k : ℕ) (data : Payload) :
    ∀ frame ∈ (m.onStreamData k data).2, frame.Ends := by
  unfold onStreamData
  split <;> simp [Frame.Ends]

theorem ends_onSocketClose : ∀ frame ∈ m.onSocketClose.2, frame.Ends := by
  unfold onSocketClose
  split
  · simp
  · simp
  · exact m.ends_closeStreams _ (.inl rfl)
  · exact m.ends_closeStreams _ (.inl rfl)
  · exact m.ends_closeStreams _ (.inr rfl)

theorem ends_onSocketError : ∀ frame ∈ m.onSocketError.2, frame.Ends := by
  unfold onSocketError
  split
  · simp
  · exact m.ends_failStreams
  · exact m.ends_failStreams
  · exact m.ends_failStreams
  · exact m.ends_failStreams

theorem ends_onData (k : ℕ) (payload : Payload) :
    ∀ frame ∈ (m.onData k payload).2, frame.Ends := by
  unfold onData
  split
  · exact m.ends_onStreamData k payload
  · split
    · simp
    · split <;> simp [Frame.Ends]

theorem ends_onClose (k : ℕ) : ∀ frame ∈ (m.onClose k).2, frame.Ends := by
  unfold onClose
  split
  · split <;> simp [Frame.Ends]
  · simp

theorem ends_onReset (k : ℕ) : ∀ frame ∈ (m.onReset k).2, frame.Ends := by
  unfold onReset
  split
  · split <;> simp [Frame.Ends]
  · simp

theorem ends_onSocketMessage (msg : ServerMessage) :
    ∀ frame ∈ (m.onSocketMessage msg).2, frame.Ends := by
  apply onSocketMessage_cases (P := fun result => ∀ frame ∈ result.2, frame.Ends)
  case kept => simp
  case goaway => exact m.ends_onSocketError
  case data =>
    intro _ stream payload
    exact m.ends_onData stream payload
  case close => exact m.ends_onClose
  case reset => exact m.ends_onReset
  case ping => simp

end Mux

namespace Call

theorem ends_run (m : Mux) (call : Call) : ∀ frame ∈ (call.run m).2, frame.Ends := by
  cases call with
  | errorSocket errorCode msg =>
    change ∀ frame ∈ (m.errorSocket errorCode msg).2, frame.Ends
    unfold Mux.errorSocket
    split
    · simp
    · simp
    · simp
    · exact m.ends_errorStreams errorCode msg
    · exact m.ends_errorStreams errorCode msg
  | openStream => simp [run]
  | closeSocket => simp [run]
  | pingSocket => simp [run]
  | close stream => simp [run]
  | error stream errorCode msg => simp [run]
  | send stream data => simp [run]

theorem later_run (m : Mux) (call : Call) : Later m (call.run m).1 := by
  cases call with
  | openStream => exact m.later_openStream
  | closeSocket => exact m.later_closeSocket
  | errorSocket errorCode msg => exact m.later_errorSocket errorCode msg
  | pingSocket => exact m.later_pingSocket
  | close stream => exact m.later_close stream
  | error stream errorCode msg => exact m.later_error stream errorCode msg
  | send stream data => exact m.later_sendData stream data

end Call

namespace SocketEvent

theorem ends_run (m : Mux) (e : SocketEvent) : ∀ frame ∈ (e.run m).2, frame.Ends := by
  cases e with
  | message msg => exact m.ends_onSocketMessage msg
  | close => exact m.ends_onSocketClose
  | error => exact m.ends_onSocketError
  | reauthTimer => simp [run]
  | signed => simp [run]
  | signFailed => simp [run]
  | openAgain => simp [run]

theorem later_run (m : Mux) (e : SocketEvent)
    (h : e = .signed → m.pendingAuth = 0 ∨ ¬ m.state.Leaving) : Later m (e.run m).1 := by
  cases e with
  | message msg => exact m.later_onSocketMessage msg
  | close => exact m.later_onSocketClose
  | error => exact m.later_onSocketError
  | reauthTimer =>
    dsimp only [run]
    split
    · have hq : Later m { m with reauthTimer := false } := .of_quiet rfl rfl
      exact hq.trans (Mux.later_sendAuth _)
    · exact .refl m
  | signed =>
    cases h rfl with
    | inl h0 => simpa [run, Mux.signed, h0] using Later.refl m
    | inr hl => exact m.later_signed hl
  | signFailed => exact .of_quiet rfl rfl
  | openAgain =>
    dsimp only [run]
    split
    · exact .refl m
    · have hq : Later m { m with waiting := m.waiting - 1 } := .of_quiet rfl rfl
      exact hq.trans (Mux.later_openStream _)

end SocketEvent

namespace Frame

theorem ends_resume (m : Mux) (frame : Frame) (h : frame.Ends) :
    ∀ frame' ∈ (frame.resume m).2, frame'.Ends := by
  cases frame with
  | closeStreams final => exact m.ends_closeStreams final h
  | muxClosed final =>
    cases h with
    | inl hf => simp [hf, resume]
    | inr hf => simp [hf, resume]
  | errorStreams errorCode msg => exact m.ends_errorStreams errorCode msg
  | failStreams => exact m.ends_failStreams
  | muxFailed => simp [resume]
  | streamData stream payload => exact m.ends_onStreamData stream payload
  | removeStream stream => simp [resume]
  | nothing => simp [resume]

theorem later_resume (m : Mux) (frame : Frame) (h : frame.Ends)
    (hw : m.state = .closed → frame ≠ .muxClosed .closeWait)
    (he : m.state = .closed → ∀ errorCode msg, frame ≠ .errorStreams errorCode msg) :
    Later m (frame.resume m).1 := by
  cases frame with
  | closeStreams final => exact m.later_closeStreams final
  | muxClosed final =>
    cases h with
    | inl hf =>
      subst hf
      exact ⟨fun hc => absurd rfl (hw hc), fun _ => .inr (.inl rfl)⟩
    | inr hf =>
      subst hf
      exact m.later_shut
  | errorStreams errorCode msg =>
    exact m.later_errorStreams errorCode msg (fun hc => he hc errorCode msg rfl)
  | failStreams => exact m.later_failStreams
  | muxFailed => exact m.later_shut
  | streamData stream payload => exact m.later_onStreamData stream payload
  | removeStream stream => exact m.later_delete stream
  | nothing => exact .refl m

end Frame

namespace Config

variable {c : Config}

theorem ends_step (h : c.Ends) (a : Action) : (c.step a).Ends := by
  cases a with
  | call call => exact ends_push (call.ends_run c.mux) h
  | event e =>
    dsimp only [step]
    split
    · exact ends_push (e.ends_run c.mux) (by simp)
    · exact h
  | ret =>
    dsimp only [step]
    split
    · exact h
    · rename_i frame stack hs
      have hf : frame.Ends := h frame (by simp [hs])
      exact ends_push (frame.ends_resume c.mux hf) (fun f hm => h f (by simp [hs, hm]))

theorem ends_run (h : c.Ends) (actions : List Action) : (c.run actions).Ends := by
  induction actions generalizing c with
  | nil => exact h
  | cons a actions ih => exact ih (ends_step h a)

theorem later_step (h : c.Ends) (a : Action) (ha : c.Settled a) :
    Later c.mux (c.step a).mux := by
  cases a with
  | call call => exact call.later_run c.mux
  | event e =>
    dsimp only [step]
    split
    · rename_i hs
      refine e.later_run c.mux ?_
      intro he
      subst he
      have ha' : c.mux.pendingAuth = 0 ∨ c.stack ≠ [] ∨ ¬ c.mux.state.Leaving := ha
      simpa [hs] using ha'
    · exact .refl c.mux
  | ret =>
    dsimp only [step]
    split
    · exact .refl c.mux
    · rename_i frame stack hs
      refine frame.later_resume c.mux (h frame (by simp [hs])) ?_ ?_
      · intro hc hf
        exact (ha hc).1 stack (by rw [hs, hf])
      · intro hc errorCode msg hf
        exact (ha hc).2 errorCode msg stack (by rw [hs, hf])

theorem later_of_along (h : c.Ends) (actions : List Action)
    (ha : Along Settled c actions) : Later c.mux (c.run actions).mux := by
  induction actions generalizing c with
  | nil => exact .refl c.mux
  | cons a actions ih => exact (later_step h a ha.1).trans (ih (ends_step h a) ha.2)

end Config

theorem ends_connect : connect.Ends := by simp [Config.Ends, connect]

/-- A connection stays closed when every signature comes before its end, and when the callbacks of
`onSocketClose` and `errorSocket` do not close it. -/
theorem closed_stays_closed (pre post : List Action)
    (h : Config.Along Config.Settled connect (pre ++ post)) :
    ((connect.run pre).mux.state = .closed →
      (connect.run (pre ++ post)).mux.state = .closed ∧
      activity (connect.run (pre ++ post)).mux.log = activity (connect.run pre).mux.log) ∧
    ((connect.run pre).mux.state = .closing ∨ (connect.run pre).mux.state = .closeWait →
      (connect.run (pre ++ post)).mux.state ≠ .authSent) := by
  have happ : connect.run (pre ++ post) = (connect.run pre).run post := List.foldl_append
  have hends := Config.ends_run ends_connect pre
  have hl := Config.later_of_along hends post ((Config.along_append _ _ _ _).mp h).2
  rw [happ]
  constructor
  · exact hl.closed
  · intro hs
    have hleave : (connect.run pre).mux.state.Leaving :=
      hs.elim (fun h => .inl h) (fun h => .inr (.inl h))
    exact ((SocketState.leaving_iff _).mp (hl.leaving hleave)).2

theorem closed_stays_closed_after_close :
    (connect.run [.event .signed, .call .closeSocket, .event .close, .ret]).mux.state = .closed ∧
    (connect.run ([.event .signed, .call .closeSocket, .event .close, .ret] ++
      [.call .openStream, .event .reauthTimer, .event .signed])).mux.state = .closed := by
  have hpre : (connect.run [.event .signed, .call .closeSocket, .event .close, .ret]).mux.state =
      .closed := rfl
  refine ⟨hpre, ?_⟩
  have hl : ¬ SocketState.idle.Leaving := by simp [SocketState.Leaving]
  have hr : SocketState.closing ≠ .closed := by decide
  have h : Config.Along Config.Settled connect
      ([.event .signed, .call .closeSocket, .event .close, .ret] ++
        [.call .openStream, .event .reauthTimer, .event .signed]) :=
    ⟨.inr (.inr hl), trivial, trivial, fun hc => absurd hc hr, trivial, trivial, .inl rfl, trivial⟩
  exact ((closed_stays_closed _ _ h).1 hpre).1

/-- A socket that fails before its first signature is there is closed, and authenticated
afterwards. -/
theorem closed_then_signed :
    (connect.run [.event .error, .ret]).mux.state = .closed ∧
    (connect.run ([.event .error, .ret] ++ [.event .signed])).mux.state = .authSent ∧
    activity (connect.run ([.event .error, .ret] ++ [.event .signed])).mux.log ≠
      activity (connect.run [.event .error, .ret]).mux.log := by
  refine ⟨rfl, rfl, ?_⟩
  intro h
  have hs : activity (connect.run ([.event .error, .ret] ++ [.event .signed])).mux.log =
      [.sent .auth] := rfl
  have hn : activity (connect.run [.event .error, .ret]).mux.log = [] := rfl
  rw [hs, hn] at h
  exact absurd h (by simp)

end SkipPlatform.MuxedSocket
