import SkipPlatform.MuxedSocketRuns

set_option autoImplicit false

namespace SkipPlatform.MuxedSocket
open List

namespace Event

def stream? : Event → Option ℕ
  | sent (.data stream _) | sent (.close stream) | sent (.reset stream _ _) => some stream
  | sent _ => none
  | created stream | ownClose stream | ownReset stream | remoteClosed stream => some stream
  | onClose stream | onError stream | onData stream _ => some stream

inductive Forbidden : Event → Event → Prop where
  | onClose (stream : ℕ) : Forbidden (.onClose stream) (.onClose stream)
  | onError (stream : ℕ) : Forbidden (.onError stream) (.onError stream)
  | onData (stream : ℕ) (payload : Payload) :
    Forbidden (.remoteClosed stream) (.onData stream payload)
  | sendAfterClose (stream : ℕ) (payload : Payload) :
    Forbidden (.ownClose stream) (.sent (.data stream payload))
  | sendAfterReset (stream : ℕ) (payload : Payload) :
    Forbidden (.ownReset stream) (.sent (.data stream payload))
  | dataAfterClose (stream : ℕ) (payload : Payload) :
    Forbidden (.sent (.close stream)) (.sent (.data stream payload))
  | dataAfterReset (stream errorCode : ℕ) (msg : String) (payload : Payload) :
    Forbidden (.sent (.reset stream errorCode msg)) (.sent (.data stream payload))
  | secondClose (stream : ℕ) : Forbidden (.sent (.close stream)) (.sent (.close stream))
  | closeAfterError (stream : ℕ) : Forbidden (.ownReset stream) (.sent (.close stream))
  | closeAfterReset (stream errorCode : ℕ) (msg : String) :
    Forbidden (.sent (.reset stream errorCode msg)) (.sent (.close stream))
  | created (stream : ℕ) : Forbidden (.created stream) (.created stream)

theorem Forbidden.stream_eq {e e' : Event} (h : Forbidden e e') :
    ∃ k, e.stream? = some k ∧ e'.stream? = some k := by
  cases h <;> exact ⟨_, rfl, rfl⟩

end Event

def Ordered (log : List Event) : Prop := log.Pairwise (fun e e' => ¬ Event.Forbidden e e')

namespace StreamState

def Marked (s : StreamState) : Event → Prop
  | .ownClose _ | .sent (.close _) => s = .closing ∨ s = .closed
  | .remoteClosed _ | .onClose _ => s = .closeWait ∨ s = .closed
  | .ownReset _ | .sent (.reset _ _ _) | .onError _ => s = .closed
  | _ => True

def Permits (s : StreamState) : Event → Prop
  | .onClose _ | .onData _ _ => s = .open ∨ s = .closing
  | .onError _ => s ≠ .closed
  | .sent (.data _ _) | .sent (.close _) => s = .open ∨ s = .closeWait
  | .created _ => False
  | _ => True

def Le (s s' : StreamState) : Prop := s = s' ∨ s = .open ∨ s' = .closed

theorem Le.closed {s s' : StreamState} (h : Le s s') (hs : s = .closed) : s' = .closed := by
  cases h with
  | inl he => exact he ▸ hs
  | inr h =>
    cases h with
    | inl ho => simp [ho] at hs
    | inr hc => exact hc

theorem Marked.mono {s s' : StreamState} {e : Event} (h : Le s s') (hm : s.Marked e) :
    s'.Marked e := by
  cases h with
  | inl he => exact he ▸ hm
  | inr h =>
    cases h with
    | inl ho =>
      subst ho
      cases e with
      | sent msg => cases msg <;> simp_all [Marked]
      | _ => simp_all [Marked]
    | inr hc =>
      subst hc
      cases e with
      | sent msg => cases msg <;> simp [Marked]
      | _ => simp [Marked]

theorem not_forbidden {s : StreamState} {e e' : Event} (h : s.Marked e) (h' : s.Permits e') :
    ¬ Event.Forbidden e e' := by
  intro hf
  cases hf <;> cases s <;> simp_all [Marked, Permits]

end StreamState

/-- The log of a socket and the states of its streams fit together; the streams `done` are closed. -/
structure Sound (done : ℕ → Prop) (m : Mux) : Prop where
  closed : ∀ k, done k → m.streams k = some .closed
  ordered : Ordered m.log
  marked : ∀ e ∈ m.log, ∀ k, e.stream? = some k → ∃ s, m.streams k = some s ∧ s.Marked e
  created : ∀ k s, m.streams k = some s → .created k ∈ m.log
  known : ∀ k ∈ m.activeStreams, ∃ s, m.streams k = some s
  numbered : ∀ k s, m.streams k = some s →
    (k % 2 = 1 ∧ k < m.nextStream) ∨ (k % 2 = 0 ∧ k ≤ m.serverStreamWatermark)
  next : m.nextStream % 2 = 1

/-- A part of a step that leaves the streams alone and sees the events `es`. -/
structure Emits (m m' : Mux) (es : List Event) : Prop where
  streams : m'.streams = m.streams
  nextStream : m'.nextStream = m.nextStream
  watermark : m'.serverStreamWatermark = m.serverStreamWatermark
  active : ∀ k ∈ m'.activeStreams, k ∈ m.activeStreams
  log : m'.log = m.log ++ es

namespace Emits

theorem refl (m : Mux) : Emits m m [] := ⟨rfl, rfl, rfl, fun _ h => h, by simp⟩

theorem emit (m : Mux) (e : Event) : Emits m (m.emit e) [e] :=
  ⟨rfl, rfl, rfl, fun _ h => h, rfl⟩

theorem delete (m : Mux) (k : ℕ) : Emits m (m.delete k) [] :=
  ⟨rfl, rfl, rfl, fun _ h => ((m.mem_delete k _).mp h).1, by simp⟩

theorem trans {a b c : Mux} {es es' : List Event} (h : Emits a b es) (h' : Emits b c es') :
    Emits a c (es ++ es') where
  streams := h'.streams.trans h.streams
  nextStream := h'.nextStream.trans h.nextStream
  watermark := h'.watermark.trans h.watermark
  active := fun k hk => h.active k (h'.active k hk)
  log := by rw [h'.log, h.log, append_assoc]

end Emits

variable {done : ℕ → Prop}

namespace Sound

variable {m m' : Mux} {es : List Event}

theorem plain (h : Sound done m) (he : Emits m m' es)
    (hes : ∀ e ∈ es, e.stream? = none) : Sound done m' where
  closed := by rw [he.streams]; exact h.closed
  ordered := by
    have hfree {e e' : Event} (hm : e' ∈ es) : ¬ Event.Forbidden e e' := by
      intro hf
      have hk := hf.stream_eq
      simp [hes e' hm] at hk
    rw [Ordered, he.log, pairwise_append]
    exact ⟨h.ordered, pairwise_of_forall_mem_list (fun _ _ _ hm => hfree hm),
      fun _ _ _ hm => hfree hm⟩
  marked := by
    intro e hm k hk
    rw [he.log, mem_append] at hm
    rw [he.streams]
    cases hm with
    | inl hm => exact h.marked e hm k hk
    | inr hm => simp [hes e hm] at hk
  created := by
    intro k s hk
    rw [he.streams] at hk
    rw [he.log]
    exact mem_append_left _ (h.created k s hk)
  known := by
    intro k hk
    rw [he.streams]
    exact h.known k (he.active k hk)
  numbered := by
    intro k s hk
    rw [he.streams] at hk
    rw [he.nextStream, he.watermark]
    exact h.numbered k s hk
  next := by rw [he.nextStream]; exact h.next

theorem advance {k : ℕ} {s s' : StreamState} (h : Sound done m)
    (hk : m.streams k = some s) (hle : s.Le s') (he : Emits (m.setStream k s') m' es)
    (hes : ∀ e ∈ es, e.stream? = some k ∧ s.Permits e ∧ s'.Marked e) (ho : Ordered es) :
    Sound done m' where
  closed := by
    intro i hi
    have hc := h.closed i hi
    rw [he.streams, Mux.setStream_streams]
    by_cases hik : i = k
    · subst hik
      have hs : s = .closed := by simpa [hk] using hc
      simp [hle.closed hs]
    · rw [Function.update_of_ne hik]
      exact hc
  ordered := by
    rw [Ordered, he.log, pairwise_append]
    refine ⟨h.ordered, ho, ?_⟩
    intro e hm e' hm' hf
    have hstream := hf.stream_eq
    have hes' := hes e' hm'
    rw [hes'.1] at hstream
    have hek : e.stream? = some k := by simpa [and_comm] using hstream
    have hmark := h.marked e hm k hek
    rw [hk] at hmark
    have hs : s.Marked e := by simpa using hmark
    exact StreamState.not_forbidden hs hes'.2.1 hf
  marked := by
    intro e hm i hi
    rw [he.log, mem_append] at hm
    rw [he.streams, Mux.setStream_streams]
    cases hm with
    | inl hm =>
      have hmark := h.marked e hm i hi
      by_cases hik : i = k
      · subst hik
        rw [hk] at hmark
        have hs : s.Marked e := by simpa using hmark
        exact ⟨s', by simp, hs.mono hle⟩
      · rw [Function.update_of_ne hik]
        exact hmark
    | inr hm =>
      have hes' := hes e hm
      have hik : k = i := by simpa [hes'.1] using hi
      subst hik
      exact ⟨s', by simp, hes'.2.2⟩
  created := by
    intro i t hi
    rw [he.streams, Mux.setStream_streams] at hi
    rw [he.log]
    refine mem_append_left _ ?_
    by_cases hik : i = k
    · subst hik
      exact h.created i s hk
    · rw [Function.update_of_ne hik] at hi
      exact h.created i t hi
  known := by
    intro i hi
    rw [he.streams, Mux.setStream_streams]
    by_cases hik : i = k
    · subst hik
      exact ⟨s', by simp⟩
    · rw [Function.update_of_ne hik]
      exact h.known i (he.active i hi)
  numbered := by
    intro i t hi
    rw [he.streams, Mux.setStream_streams] at hi
    rw [he.nextStream, he.watermark]
    by_cases hik : i = k
    · subst hik
      exact h.numbered i s hk
    · rw [Function.update_of_ne hik] at hi
      exact h.numbered i t hi
  next := by rw [he.nextStream]; exact h.next

theorem remain {k : ℕ} {s : StreamState} (h : Sound done m)
    (hk : m.streams k = some s) (he : Emits m m' es)
    (hes : ∀ e ∈ es, e.stream? = some k ∧ s.Permits e ∧ s.Marked e) (ho : Ordered es) :
    Sound done m' := by
  refine h.advance hk (.inl rfl) ?_ hes ho
  have hset : m.setStream k s = m := by
    have hu : Function.update m.streams k (some s) = m.streams := by rw [← hk]; simp
    simp only [Mux.setStream, hu]
  rw [hset]
  exact he

theorem create {k : ℕ} (h : Sound done m)
    (hstreams : m'.streams = Function.update m.streams k (some .open))
    (hlog : m'.log = m.log ++ [.created k])
    (hactive : m'.activeStreams = m.activeStreams ++ [k]) (hfresh : m.streams k = none)
    (hk : (k % 2 = 1 ∧ k < m'.nextStream) ∨ (k % 2 = 0 ∧ k ≤ m'.serverStreamWatermark))
    (hn : m.nextStream ≤ m'.nextStream) (hodd : m'.nextStream % 2 = 1)
    (hw : m.serverStreamWatermark ≤ m'.serverStreamWatermark) : Sound done m' where
  closed := by
    intro i hi
    have hc := h.closed i hi
    have hik : i ≠ k := by
      intro hik
      simp [hik, hfresh] at hc
    rw [hstreams, Function.update_of_ne hik]
    exact hc
  ordered := by
    rw [Ordered, hlog, pairwise_append]
    refine ⟨h.ordered, by simp, ?_⟩
    intro e hm e' hm' hf
    have he' : e' = .created k := by simpa using hm'
    subst he'
    have hstream := hf.stream_eq
    have hek : e.stream? = some k := by simpa [Event.stream?, and_comm] using hstream
    have hmark := h.marked e hm k hek
    simp [hfresh] at hmark
  marked := by
    intro e hm i hi
    rw [hlog, mem_append] at hm
    rw [hstreams]
    by_cases hik : i = k
    · subst hik
      cases hm with
      | inl hm =>
        have hmark := h.marked e hm i hi
        simp [hfresh] at hmark
      | inr hm =>
        have he : e = .created i := by simpa using hm
        subst he
        exact ⟨.open, by simp, trivial⟩
    · rw [Function.update_of_ne hik]
      cases hm with
      | inl hm => exact h.marked e hm i hi
      | inr hm =>
        have he : e = .created k := by simpa using hm
        subst he
        exact absurd (Option.some.inj hi).symm hik
  created := by
    intro i t hi
    rw [hstreams] at hi
    rw [hlog]
    by_cases hik : i = k
    · subst hik
      simp
    · rw [Function.update_of_ne hik] at hi
      exact mem_append_left _ (h.created i t hi)
  known := by
    intro i hi
    rw [hstreams]
    by_cases hik : i = k
    · subst hik
      exact ⟨.open, by simp⟩
    · rw [Function.update_of_ne hik]
      have hi' : i ∈ m.activeStreams := by simpa [hactive, hik] using hi
      exact h.known i hi'
  numbered := by
    intro i t hi
    rw [hstreams] at hi
    by_cases hik : i = k
    · subst hik
      exact hk
    · rw [Function.update_of_ne hik] at hi
      have hi' := h.numbered i t hi
      omega
  next := hodd

end Sound

namespace Mux

theorem emits_streamClose (m : Mux) (k : ℕ) (nowClosed : Bool) :
    ∃ es, Emits m (m.streamClose k nowClosed).1 es ∧ (es = [] ∨ es = [.sent (.close k)]) := by
  have hsend : ∃ es, Emits m (if k ≥ maxStream then (m, true)
      else (if nowClosed then (m.send (.close k)).delete k else m.send (.close k), false)).1 es ∧
        (es = [] ∨ es = [.sent (.close k)]) := by
    have hs : Emits m (m.send (.close k)) [.sent (.close k)] := .emit m _
    split
    · exact ⟨[], .refl m, .inl rfl⟩
    · refine ⟨[.sent (.close k)], ?_, .inr rfl⟩
      split
      · exact hs.trans (.delete _ k)
      · exact hs
  unfold streamClose
  cases h : m.state with
  | idle => exact ⟨[], .refl m, .inl rfl⟩
  | closing => exact ⟨[], .refl m, .inl rfl⟩
  | closed => exact ⟨[], .refl m, .inl rfl⟩
  | authSent => exact hsend
  | closeWait => exact hsend

theorem emits_streamError (m : Mux) (k errorCode : ℕ) (msg : String) :
    ∃ es, Emits m (m.streamError k errorCode msg) es ∧
      (es = [] ∨ es = [.sent (.reset k errorCode msg)]) := by
  have hsend : ∃ es, Emits m
      (if k ≥ maxStream then m else (m.send (.reset k errorCode msg)).delete k) es ∧
        (es = [] ∨ es = [.sent (.reset k errorCode msg)]) := by
    have hs : Emits m (m.send (.reset k errorCode msg)) [.sent (.reset k errorCode msg)] :=
      .emit m _
    split
    · exact ⟨[], .refl m, .inl rfl⟩
    · exact ⟨_, hs.trans (.delete _ k), .inr rfl⟩
  unfold streamError
  cases h : m.state with
  | idle => exact ⟨[], .refl m, .inl rfl⟩
  | closing => exact ⟨[], .refl m, .inl rfl⟩
  | closed => exact ⟨[], .refl m, .inl rfl⟩
  | authSent => exact hsend
  | closeWait => exact hsend

theorem emits_streamSend (m : Mux) (k : ℕ) (data : Payload) :
    ∃ es, Emits m (m.streamSend k data) es ∧ (es = [] ∨ es = [.sent (.data k data)]) := by
  have hsend : ∃ es, Emits m (if k ≥ maxStream then m else m.send (.data k data)) es ∧
      (es = [] ∨ es = [.sent (.data k data)]) := by
    split
    · exact ⟨[], .refl m, .inl rfl⟩
    · exact ⟨_, .emit m _, .inr rfl⟩
  unfold streamSend
  cases h : m.state with
  | idle => exact ⟨[], .refl m, .inl rfl⟩
  | closing => exact ⟨[], .refl m, .inl rfl⟩
  | closed => exact ⟨[], .refl m, .inl rfl⟩
  | authSent => exact hsend
  | closeWait => exact hsend

variable {s : StreamState}

theorem emits_setStream {m m' : Mux} {e : Event} {es : List Event} {k : ℕ}
    (h : Emits ((m.emit e).setStream k s) m' es) : Emits (m.setStream k s) m' (e :: es) where
  streams := h.streams
  nextStream := h.nextStream
  watermark := h.watermark
  active := h.active
  log := by rw [h.log]; simp

theorem not_forbidden_self_or {es : List Event} {e e' : Event} (h : es = [] ∨ es = [e'])
    (hf : ¬ Event.Forbidden e e') : Ordered (e :: es) := by
  cases h with
  | inl h => simp [h, Ordered]
  | inr h => simp [h, Ordered, hf]

variable {m : Mux}

theorem sound_close (h : Sound done m) (k : ℕ) : Sound done (m.close k).1 := by
  have hset {s s' : StreamState} (nowClosed : Bool) (hk : m.streams k = some s) (hle : s.Le s')
      (hs : s = .open ∨ s = .closeWait) (hs' : s' = .closing ∨ s' = .closed) :
      Sound done (((m.emit (.ownClose k)).setStream k s').streamClose k nowClosed).1 := by
    obtain ⟨es, he, hes⟩ := emits_streamClose ((m.emit (.ownClose k)).setStream k s') k nowClosed
    refine h.advance hk hle (emits_setStream he) ?_ (not_forbidden_self_or hes (by rintro ⟨⟩))
    intro e hm
    have hm' : e = .ownClose k ∨ e = .sent (.close k) := by
      cases hes with
      | inl hn => exact .inl (by simpa [hn] using hm)
      | inr hn => simpa [hn] using hm
    cases hm' with
    | inl he => subst he; exact ⟨rfl, trivial, hs'⟩
    | inr he => subst he; exact ⟨rfl, hs, hs'⟩
  have hstay {s : StreamState} (hk : m.streams k = some s) (hs : s = .closing ∨ s = .closed) :
      Sound done (m.emit (.ownClose k)) :=
    h.remain hk (.emit m _) (by simpa [Event.stream?, StreamState.Permits, StreamState.Marked])
      (by simp [Ordered])
  unfold close
  split
  · exact h
  · exact hstay ‹_› (.inl rfl)
  · exact hstay ‹_› (.inr rfl)
  · exact hset false ‹_› (.inr (.inl rfl)) (.inl rfl) (.inl rfl)
  · exact hset true ‹_› (.inr (.inr rfl)) (.inr rfl) (.inr rfl)

theorem sound_error (h : Sound done m) (k errorCode : ℕ) (msg : String) :
    Sound done (m.error k errorCode msg) := by
  have hset {s : StreamState} {m' : Mux} {es : List Event} (hk : m.streams k = some s)
      (he : Emits ((m.emit (.ownReset k)).setStream k .closed) m' es)
      (hes : es = [] ∨ es = [.sent (.reset k errorCode msg)]) : Sound done m' := by
    refine h.advance hk (.inr (.inr rfl)) (emits_setStream he) ?_
      (not_forbidden_self_or hes (by rintro ⟨⟩))
    intro e hm
    have hm' : e = .ownReset k ∨ e = .sent (.reset k errorCode msg) := by
      cases hes with
      | inl hn => exact .inl (by simpa [hn] using hm)
      | inr hn => simpa [hn] using hm
    cases hm' with
    | inl he => subst he; exact ⟨rfl, trivial, rfl⟩
    | inr he => subst he; exact ⟨rfl, trivial, rfl⟩
  have hsent := emits_streamError ((m.emit (.ownReset k)).setStream k .closed) k errorCode msg
  obtain ⟨es, he, hes⟩ := hsent
  unfold error
  split
  · exact h
  · exact hset ‹_› (.refl _) (.inl rfl)
  · exact hset ‹_› (.refl _) (.inl rfl)
  · exact hset ‹_› he hes
  · exact hset ‹_› he hes

theorem sound_sendData (h : Sound done m) (k : ℕ) (data : Payload) :
    Sound done (m.sendData k data) := by
  have hsend {s : StreamState} (hk : m.streams k = some s) (hs : s = .open ∨ s = .closeWait) :
      Sound done (m.streamSend k data) := by
    obtain ⟨es, he, hes⟩ := m.emits_streamSend k data
    refine h.remain hk he ?_ ?_
    · intro e hm
      have hm' : e = .sent (.data k data) := by
        cases hes with
        | inl hn => simp [hn] at hm
        | inr hn => simpa [hn] using hm
      subst hm'
      exact ⟨rfl, hs, trivial⟩
    · cases hes with
      | inl hn => simp [hn, Ordered]
      | inr hn => simp [hn, Ordered]
  unfold sendData
  split
  · exact hsend ‹_› (.inl rfl)
  · exact hsend ‹_› (.inr rfl)
  · exact h

theorem ordered_remote (k : ℕ) (e : Event) (h : ∀ payload, e ≠ .onData k payload) :
    Ordered [.remoteClosed k, e] := by
  have hf : ¬ Event.Forbidden (.remoteClosed k) e := by
    rintro ⟨⟩
    exact h _ rfl
  simp [Ordered, hf]

theorem emits_remote (m : Mux) (k : ℕ) (s : StreamState) (e : Event) :
    Emits (m.setStream k s) (((m.emit (.remoteClosed k)).setStream k s).emit e)
      [.remoteClosed k, e] where
  streams := rfl
  nextStream := rfl
  watermark := rfl
  active := fun _ h => h
  log := by simp

theorem sound_onStreamClose (h : Sound done m) {k : ℕ}
    (hk : m.streams k = some s) : Sound done (m.onStreamClose k).1 := by
  have hset (s' : StreamState) (hle : s.Le s') (hs : s = .open ∨ s = .closing)
      (hs' : s' = .closeWait ∨ s' = .closed) :
      Sound done (((m.emit (.remoteClosed k)).setStream k s').emit (.onClose k)) := by
    refine h.advance hk hle (m.emits_remote k s' _) ?_ (ordered_remote k _ (by simp))
    simp [Event.stream?, StreamState.Permits, StreamState.Marked, hs, hs']
  have hstay (hs : s = .closeWait ∨ s = .closed) : Sound done (m.emit (.remoteClosed k)) :=
    h.remain hk (.emit m _) (by simpa [Event.stream?, StreamState.Permits, StreamState.Marked])
      (by simp [Ordered])
  unfold onStreamClose
  dsimp only [emit_streams]
  rw [hk]
  cases s with
  | «open» => exact hset .closeWait (.inr (.inl rfl)) (.inl rfl) (.inl rfl)
  | closing => exact hset .closed (.inr (.inr rfl)) (.inr rfl) (.inr rfl)
  | closeWait => exact hstay (.inl rfl)
  | closed => exact hstay (.inr rfl)

theorem sound_onStreamError (h : Sound done m) {k : ℕ}
    (hk : m.streams k = some s) : Sound done (m.onStreamError k).1 := by
  have hset (hs : s ≠ .closed) :
      Sound done (((m.emit (.remoteClosed k)).setStream k .closed).emit (.onError k)) := by
    refine h.advance hk (.inr (.inr rfl)) (m.emits_remote k .closed _) ?_
      (ordered_remote k _ (by simp))
    simp [Event.stream?, StreamState.Permits, StreamState.Marked, hs]
  unfold onStreamError
  dsimp only [emit_streams]
  rw [hk]
  cases s with
  | closed =>
    exact h.remain hk (.emit m _) (by simp [Event.stream?, StreamState.Permits, StreamState.Marked])
      (by simp [Ordered])
  | «open» => exact hset (by simp)
  | closing => exact hset (by simp)
  | closeWait => exact hset (by simp)

theorem sound_onStreamData (h : Sound done m) (k : ℕ) (data : Payload) :
    Sound done (m.onStreamData k data).1 := by
  have hdata {s : StreamState} (hk : m.streams k = some s) (hs : s = .open ∨ s = .closing) :
      Sound done (m.emit (.onData k data)) :=
    h.remain hk (.emit m _) (by simpa [Event.stream?, StreamState.Permits, StreamState.Marked])
      (by simp [Ordered])
  unfold onStreamData
  split
  · exact hdata ‹_› (.inl rfl)
  · exact hdata ‹_› (.inr rfl)
  · exact h

theorem sound_send (h : Sound done m) (msg : Message)
    (hm : (Event.sent msg).stream? = none) : Sound done (m.send msg) :=
  h.plain (.emit m _) (by simpa using hm)

end Mux

namespace Sound

theorem of_eq {m m' : Mux} (h : Sound done m) (hs : m'.streams = m.streams)
    (hn : m'.nextStream = m.nextStream)
    (hw : m'.serverStreamWatermark = m.serverStreamWatermark)
    (ha : m'.activeStreams = m.activeStreams) (hl : m'.log = m.log) : Sound done m' := by
  have he : Emits m m' [] := ⟨hs, hn, hw, fun k hk => ha ▸ hk, by simpa using hl⟩
  exact h.plain he (by simp)

theorem delete {m : Mux} (h : Sound done m) (k : ℕ) : Sound done (m.delete k) :=
  h.plain (.delete m k) (by simp)

theorem shut {m : Mux} (h : Sound done m) : Sound done m.shut := by
  have he : Emits m m.shut [] := ⟨rfl, rfl, rfl, by simp, by simp⟩
  exact h.plain he (by simp)

end Sound

namespace Mux

variable {m : Mux}

theorem sound_openStream (h : Sound done m) : Sound done m.openStream := by
  unfold openStream
  split
  · refine h.create rfl rfl rfl ?_ ?_ ?_ ?_ (le_refl _)
    · by_contra hne
      obtain ⟨s, hs⟩ := Option.ne_none_iff_exists'.mp hne
      have hk := h.numbered _ s hs
      have hodd := h.next
      omega
    · exact .inl ⟨h.next, by simp⟩
    · simp
    · have hodd := h.next
      simp only
      omega
  · exact h.of_eq rfl rfl rfl rfl rfl
  · exact h
  · exact h
  · exact h

theorem sound_closeAll (h : Sound done m) (streams : List ℕ) :
    Sound done (m.closeAll streams).1 := by
  induction streams generalizing m with
  | nil => exact h
  | cons k rest ih =>
    have hk := sound_close h k
    unfold closeAll
    cases hc : m.close k with
    | mk m' thrown =>
      rw [hc] at hk
      cases thrown with
      | true => exact hk
      | false => exact ih hk

theorem sound_closeSocket (h : Sound done m) : Sound done m.closeSocket := by
  have hall := sound_closeAll h m.activeStreams
  unfold closeSocket
  split
  · exact h
  · exact h
  · exact h.shut
  · split
    · rename_i hc
      rwa [hc] at hall
    · rename_i hc
      rw [hc] at hall
      exact hall.shut
  · split
    · rename_i hc
      rwa [hc] at hall
    · rename_i hc
      rw [hc] at hall
      exact hall.of_eq rfl rfl rfl rfl rfl

theorem streams_of_onStreamError {k : ℕ} (h : (m.onStreamError k).2 = true) :
    ∃ s, m.streams k = some s := by
  cases hk : m.streams k with
  | none => simp [onStreamError, hk] at h
  | some s => exact ⟨s, rfl⟩

theorem streams_of_onStreamClose {k : ℕ} (h : (m.onStreamClose k).2 = true) :
    ∃ s, m.streams k = some s := by
  cases hk : m.streams k with
  | none => simp [onStreamClose, hk] at h
  | some s => exact ⟨s, rfl⟩

theorem sound_errorStreams (h : Sound done m) (errorCode : ℕ) (msg : String) :
    Sound done (m.errorStreams errorCode msg).1 := by
  unfold errorStreams
  split
  · rename_i k hk
    have ht : (m.onStreamError k).2 = true := by simpa using List.find?_some hk
    obtain ⟨s, hs⟩ := streams_of_onStreamError ht
    exact sound_onStreamError h hs
  · dsimp only
    split
    · exact h.shut
    · exact sound_send h.shut _ rfl

theorem sound_failStreams (h : Sound done m) : Sound done m.failStreams.1 := by
  unfold failStreams
  split
  · rename_i k hk
    have ht : (m.onStreamError k).2 = true := by simpa using List.find?_some hk
    obtain ⟨s, hs⟩ := streams_of_onStreamError ht
    exact sound_onStreamError h hs
  · exact h

theorem sound_closeStreams (h : Sound done m) (final : SocketState) :
    Sound done (m.closeStreams final).1 := by
  unfold closeStreams
  split
  · rename_i k hk
    have ht : (m.onStreamClose k).2 = true := by simpa using List.find?_some hk
    obtain ⟨s, hs⟩ := streams_of_onStreamClose ht
    exact sound_onStreamClose h hs
  · exact h

theorem sound_onSocketClose (h : Sound done m) : Sound done m.onSocketClose.1 := by
  unfold onSocketClose
  split
  · exact h
  · exact h
  · exact sound_closeStreams h _
  · exact sound_closeStreams h _
  · exact sound_closeStreams h _

theorem sound_onSocketError (h : Sound done m) : Sound done m.onSocketError.1 := by
  unfold onSocketError
  split
  · exact h
  · exact sound_failStreams h
  · exact sound_failStreams h
  · exact sound_failStreams h
  · exact sound_failStreams h

theorem sound_onData (h : Sound done m) (k : ℕ) (payload : Payload) :
    Sound done (m.onData k payload).1 := by
  unfold onData
  split
  · exact sound_onStreamData h k payload
  · split
    · exact h
    · split
      · rename_i hk
        refine h.create rfl rfl rfl ?_ ?_ (le_refl _) h.next hk.2.le
        · by_contra hne
          obtain ⟨s, hs⟩ := Option.ne_none_iff_exists'.mp hne
          have hk' := h.numbered _ s hs
          omega
        · exact .inr ⟨hk.1, le_refl _⟩
      · exact h

theorem sound_onClose (h : Sound done m) (k : ℕ) : Sound done (m.onClose k).1 := by
  unfold onClose
  split
  · rename_i hk
    obtain ⟨s, hs⟩ := h.known k hk
    have hc := sound_onStreamClose h hs
    split
    · exact hc.delete k
    · exact hc
    · exact hc
    · exact hc
  · exact h

theorem sound_onReset (h : Sound done m) (k : ℕ) : Sound done (m.onReset k).1 := by
  unfold onReset
  split
  · rename_i hk
    obtain ⟨s, hs⟩ := h.known k hk
    have hc := sound_onStreamError h hs
    split
    · rename_i he
      rwa [he] at hc
    · rename_i he
      rw [he] at hc
      exact hc.delete k
  · exact h

theorem sound_onSocketMessage (h : Sound done m) (msg : ServerMessage) :
    Sound done (m.onSocketMessage msg).1 := by
  apply onSocketMessage_cases (P := fun result => Sound done result.1)
  case kept => exact h
  case goaway => exact sound_onSocketError h
  case data =>
    intro _ stream payload
    exact sound_onData h stream payload
  case close => exact sound_onClose h
  case reset => exact sound_onReset h
  case ping =>
    intro _
    exact sound_send h _ rfl

theorem sound_sendAuth (h : Sound done m) : Sound done m.sendAuth := by
  unfold sendAuth
  split
  · exact h.of_eq rfl rfl rfl rfl rfl
  · exact h.of_eq rfl rfl rfl rfl rfl
  · exact h
  · exact h
  · exact h

theorem sound_signed (h : Sound done m) : Sound done m.signed := by
  unfold signed
  split
  · exact h
  · exact (sound_send h .auth rfl).of_eq rfl rfl rfl rfl rfl

theorem sound_errorSocket (h : Sound done m) (errorCode : ℕ) (msg : String) :
    Sound done (m.errorSocket errorCode msg).1 := by
  unfold errorSocket
  split
  · exact h.shut
  · exact h.shut
  · exact h.shut
  · exact sound_errorStreams h errorCode msg
  · exact sound_errorStreams h errorCode msg

theorem sound_pingSocket (h : Sound done m) : Sound done m.pingSocket := by
  unfold pingSocket
  split
  · exact h
  · exact h
  · exact h
  · exact sound_send h _ rfl
  · exact sound_send h _ rfl

end Mux

namespace Call

theorem sound_run {m : Mux} (h : Sound done m) (call : Call) : Sound done (call.run m).1 := by
  cases call with
  | openStream => exact Mux.sound_openStream h
  | closeSocket => exact Mux.sound_closeSocket h
  | errorSocket errorCode msg => exact Mux.sound_errorSocket h errorCode msg
  | pingSocket => exact Mux.sound_pingSocket h
  | close stream => exact Mux.sound_close h stream
  | error stream errorCode msg => exact Mux.sound_error h stream errorCode msg
  | send stream data => exact Mux.sound_sendData h stream data

end Call

namespace SocketEvent

theorem sound_run {m : Mux} (h : Sound done m) (e : SocketEvent) : Sound done (e.run m).1 := by
  cases e with
  | message msg => exact Mux.sound_onSocketMessage h msg
  | close => exact Mux.sound_onSocketClose h
  | error => exact Mux.sound_onSocketError h
  | reauthTimer =>
    dsimp only [run]
    split
    · have hq : Sound done { m with reauthTimer := false } := h.of_eq rfl rfl rfl rfl rfl
      exact Mux.sound_sendAuth hq
    · exact h
  | signed => exact Mux.sound_signed h
  | signFailed => exact h.of_eq rfl rfl rfl rfl rfl
  | openAgain =>
    dsimp only [run]
    split
    · exact h
    · have hq : Sound done { m with waiting := m.waiting - 1 } := h.of_eq rfl rfl rfl rfl rfl
      exact Mux.sound_openStream hq

end SocketEvent

namespace Frame

theorem sound_resume {m : Mux} (h : Sound done m) (frame : Frame) : Sound done (frame.resume m).1 := by
  cases frame with
  | closeStreams final => exact Mux.sound_closeStreams h final
  | muxClosed final =>
    cases final with
    | closed => exact h.shut
    | _ => exact h.of_eq rfl rfl rfl rfl rfl
  | errorStreams errorCode msg => exact Mux.sound_errorStreams h errorCode msg
  | failStreams => exact Mux.sound_failStreams h
  | muxFailed => exact h.shut
  | streamData stream payload => exact Mux.sound_onStreamData h stream payload
  | removeStream stream => exact h.delete stream
  | nothing => exact h

end Frame

theorem sound_connect : Sound (fun _ => False) connect.mux where
  closed := fun _ h => h.elim
  ordered := List.Pairwise.nil
  marked := by simp [connect]
  created := by simp [connect]
  known := by simp [connect]
  numbered := by simp [connect]
  next := rfl

end SkipPlatform.MuxedSocket
