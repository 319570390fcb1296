import SkipPlatform.MuxedSocketStreams

set_option autoImplicit false

namespace SkipPlatform.MuxedSocket

namespace Frame

/-- The frames of the methods that leave `authSent` when they are through. -/
def Leaves : Frame → Prop
  | closeStreams _ | muxClosed _ | errorStreams _ _ | failStreams | muxFailed => True
  | _ => False

end Frame

/-- A closed stream that some method is about to remove, or that goes with the whole socket. -/
def Excused (stack : List Frame) (k : ℕ) : Prop :=
  .removeStream k ∈ stack ∨ ∃ frame ∈ stack, frame.Leaves

theorem not_excused_nil (k : ℕ) : ¬ Excused [] k := by simp [Excused]

theorem excused_append (stack stack' : List Frame) (k : ℕ) :
    Excused (stack ++ stack') k ↔ Excused stack k ∨ Excused stack' k := by
  simp only [Excused, List.mem_append, or_and_right, exists_or]
  exact or_or_or_comm

theorem excused_cons (frame : Frame) (stack : List Frame) (k : ℕ) :
    Excused (frame :: stack) k ↔ (frame = .removeStream k ∨ frame.Leaves) ∨ Excused stack k := by
  simp only [Excused, List.mem_cons, exists_eq_or_imp]
  tauto

/-- The streams in `activeStreams` are those that are not closed; `excused` are the closed ones that
may be there. -/
structure Tidy (m : Mux) (excused : ℕ → Prop) : Prop where
  idle : m.state = .idle → ∀ k, m.streams k = none
  present : m.state = .authSent → ∀ k s, m.streams k = some s → s ≠ .closed → k ∈ m.activeStreams
  gone : m.state = .authSent → ∀ k ∈ m.activeStreams, m.streams k = some .closed → excused k

namespace Tidy

theorem mono {m : Mux} {p q : ℕ → Prop} (h : Tidy m p) (hpq : ∀ k, p k → q k) : Tidy m q :=
  ⟨h.idle, h.present, fun hs k hk hc => hpq k (h.gone hs k hk hc)⟩

variable {p : ℕ → Prop}

theorem of_leaving {m : Mux} (h : m.state.Leaving) : Tidy m p := by
  have hs := (SocketState.leaving_iff _).mp h
  exact ⟨fun hi => absurd hi hs.1, fun ha => absurd ha hs.2, fun ha => absurd ha hs.2⟩

theorem of_eq {m m' : Mux} (h : Tidy m p) (hs : m'.state = m.state)
    (ht : m'.streams = m.streams) (ha : m'.activeStreams = m.activeStreams) : Tidy m' p where
  idle := by rw [hs, ht]; exact h.idle
  present := by rw [hs, ht, ha]; exact h.present
  gone := by rw [hs, ht, ha]; exact h.gone

theorem setStream {m : Mux} {p : ℕ → Prop} {k : ℕ} {s : StreamState} (h : Tidy m p)
    (hk : m.streams k = some s) (s' : StreamState) (hs : s = .closed → s' = .closed) :
    Tidy (m.setStream k s') (fun i => p i ∨ i = k ∧ s' = .closed) where
  idle := by
    intro hi
    have hn := h.idle hi k
    simp [hk] at hn
  present := by
    intro ha i t hi ht
    rw [Mux.setStream_streams] at hi
    by_cases hik : i = k
    · subst hik
      have hst : s' = t := by simpa using hi
      exact h.present ha i s hk (fun hc => ht (hst ▸ hs hc))
    · rw [Function.update_of_ne hik] at hi
      exact h.present ha i t hi ht
  gone := by
    intro ha i hi hc
    rw [Mux.setStream_streams] at hc
    by_cases hik : i = k
    · subst hik
      exact .inr ⟨rfl, by simpa using hc⟩
    · rw [Function.update_of_ne hik] at hc
      exact .inl (h.gone ha i hi hc)

theorem delete {m : Mux} {p : ℕ → Prop} {k : ℕ} (h : Tidy m p) (hk : m.streams k = some .closed) :
    Tidy (m.delete k) (fun i => p i ∧ i ≠ k) where
  idle := h.idle
  present := by
    intro ha i s hi hs
    refine (m.mem_delete k i).mpr ⟨h.present ha i s hi hs, ?_⟩
    intro hik
    subst hik
    have hst : s = .closed := by simpa [hk] using hi.symm
    exact hs hst
  gone := by
    intro ha i hi hc
    have hi' := (m.mem_delete k i).mp hi
    exact ⟨h.gone ha i hi'.1 hc, hi'.2⟩

theorem finish {m m' : Mux} {k : ℕ} {s : StreamState} (h : Tidy m p)
    (hk : m.streams k = some s) (hs : m'.state = m.state)
    (ht : m'.streams = (m.setStream k .closed).streams)
    (ha : m.state = .authSent → m'.activeStreams = (m.delete k).activeStreams) : Tidy m' p where
  idle := by
    intro hi
    have hn := h.idle (hs ▸ hi) k
    simp [hk] at hn
  present := by
    intro hi
    have hm : m.state = .authSent := hs ▸ hi
    have hset := (h.setStream hk .closed (fun _ => rfl)).delete (k := k) (by simp)
    rw [ha hm, ht]
    exact hset.present hm
  gone := by
    intro hi i hia hc
    have hm : m.state = .authSent := hs ▸ hi
    have hset := (h.setStream hk .closed (fun _ => rfl)).delete (k := k) (by simp)
    rw [ha hm] at hia
    rw [ht] at hc
    have hp := hset.gone hm i hia hc
    exact hp.1.resolve_right (fun he => hp.2 he.1)

theorem create {m m' : Mux} {k : ℕ} (h : Tidy m p) (hs : m'.state = m.state)
    (hni : m.state ≠ .idle)
    (hstreams : m'.streams = Function.update m.streams k (some .open))
    (hactive : m'.activeStreams = m.activeStreams ++ [k]) : Tidy m' p where
  idle := fun hi => absurd (hs ▸ hi) hni
  present := by
    intro ha i s hi hc
    rw [hactive]
    by_cases hik : i = k
    · simp [hik]
    · rw [hstreams, Function.update_of_ne hik] at hi
      exact List.mem_append_left _ (h.present (hs ▸ ha) i s hi hc)
  gone := by
    intro ha i hi hc
    by_cases hik : i = k
    · simp [hstreams, hik] at hc
    · rw [hstreams, Function.update_of_ne hik] at hc
      have hi' : i ∈ m.activeStreams := by simpa [hactive, hik] using hi
      exact h.gone (hs ▸ ha) i hi' hc

end Tidy

variable {done : ℕ → Prop}

namespace Mux

theorem streamClose_state (m : Mux) (k : ℕ) (nowClosed : Bool) :
    (m.streamClose k nowClosed).1.state = m.state := by
  unfold streamClose
  split
  · rfl
  · rfl
  · rfl
  all_goals
    split
    · rfl
    · cases nowClosed <;> rfl

theorem streamClose_streams (m : Mux) (k : ℕ) (nowClosed : Bool) :
    (m.streamClose k nowClosed).1.streams = m.streams :=
  (m.emits_streamClose k nowClosed).elim (fun _ h => h.1.streams)

theorem streamClose_activeStreams_false (m : Mux) (k : ℕ) :
    (m.streamClose k false).1.activeStreams = m.activeStreams := by
  unfold streamClose
  split
  · rfl
  · rfl
  · rfl
  all_goals
    split
    · rfl
    · rfl

theorem streamClose_activeStreams_true (m : Mux) (k : ℕ) (hs : m.state = .authSent)
    (hk : k < maxStream) :
    (m.streamClose k true).1.activeStreams = (m.delete k).activeStreams := by
  have hn : ¬ k ≥ maxStream := by omega
  simp only [streamClose, hs, hn, if_false, if_true]
  rfl

theorem streamError_state (m : Mux) (k errorCode : ℕ) (msg : String) :
    (m.streamError k errorCode msg).state = m.state := by
  unfold streamError
  split
  · rfl
  · rfl
  · rfl
  all_goals
    split
    · rfl
    · rfl

theorem streamError_streams (m : Mux) (k errorCode : ℕ) (msg : String) :
    (m.streamError k errorCode msg).streams = m.streams :=
  (m.emits_streamError k errorCode msg).elim (fun _ h => h.1.streams)

theorem streamError_activeStreams (m : Mux) (k errorCode : ℕ) (msg : String)
    (hs : m.state = .authSent) (hk : k < maxStream) :
    (m.streamError k errorCode msg).activeStreams = (m.delete k).activeStreams := by
  have hn : ¬ k ≥ maxStream := by omega
  simp only [streamError, hs, hn, if_false]
  rfl

theorem streamSend_eq (m : Mux) (k : ℕ) (data : Payload) :
    (m.streamSend k data).state = m.state ∧
    (m.streamSend k data).activeStreams = m.activeStreams := by
  unfold streamSend
  split
  · exact ⟨rfl, rfl⟩
  · exact ⟨rfl, rfl⟩
  · exact ⟨rfl, rfl⟩
  all_goals
    split
    · exact ⟨rfl, rfl⟩
    · exact ⟨rfl, rfl⟩

variable {m : Mux} {p : ℕ → Prop}

/-- The end of a half closed stream whose number does not fit in a message does not reach the
socket. -/
theorem tidy_close (h : Tidy m p) (k : ℕ)
    (hk : m.state = .authSent → m.streams k = some .closeWait → k < maxStream) :
    Tidy (m.close k).1 p := by
  unfold close
  split
  · exact h
  · exact h.of_eq rfl rfl rfl
  · exact h.of_eq rfl rfl rfl
  · rename_i hs
    have hset := h.setStream hs .closing (by simp)
    have hp : Tidy (m.setStream k .closing) p := hset.mono (by simp)
    exact hp.of_eq (streamClose_state _ k false) (streamClose_streams _ k false)
      (streamClose_activeStreams_false _ k)
  · rename_i hs
    refine h.finish hs (streamClose_state _ k true) (streamClose_streams _ k true) ?_
    intro ha
    exact streamClose_activeStreams_true _ k ha (hk ha hs)

theorem tidy_error (h : Tidy m p) (k errorCode : ℕ) (msg : String)
    (hk : m.state = .authSent → m.streams k ≠ some .closing ∧
      (m.streams k = some .open ∨ m.streams k = some .closeWait → k < maxStream)) :
    Tidy (m.error k errorCode msg) p := by
  have hfinish {s : StreamState} (hs : m.streams k = some s)
      (hopen : s = .open ∨ s = .closeWait) :
      Tidy (((m.emit (.ownReset k)).setStream k .closed).streamError k errorCode msg) p := by
    refine h.finish hs (streamError_state _ k errorCode msg)
      (streamError_streams _ k errorCode msg) ?_
    intro ha
    have hlt : k < maxStream := by
      refine (hk ha).2 ?_
      rw [hs]
      simpa using hopen
    exact streamError_activeStreams _ k errorCode msg ha hlt
  unfold error
  split
  · exact h
  · rename_i hs
    have hu : Function.update m.streams k (some .closed) = m.streams := by rw [← hs]; simp
    exact h.of_eq rfl hu rfl
  · rename_i hs
    refine h.finish hs rfl rfl ?_
    intro ha
    exact absurd hs (hk ha).1
  · exact hfinish ‹_› (.inl rfl)
  · exact hfinish ‹_› (.inr rfl)

theorem tidy_sendData (h : Tidy m p) (k : ℕ) (data : Payload) :
    Tidy (m.sendData k data) p := by
  have hsend : Tidy (m.streamSend k data) p :=
    h.of_eq (m.streamSend_eq k data).1
      ((m.emits_streamSend k data).elim (fun _ h => h.1.streams)) (m.streamSend_eq k data).2
  unfold sendData
  split
  · exact hsend
  · exact hsend
  · exact h

/-- The first of the streams that are not ended by the user, and whose number does not fit in a
message, is not half closed: closing all of them stops there. -/
def Closable (m : Mux) (streams : List ℕ) : Prop :=
  ∀ k, streams.find? (fun k =>
    maxStream ≤ k && (m.streams k = some .open || m.streams k = some .closeWait)) = some k →
    m.streams k ≠ some .closeWait

variable {k : ℕ}

theorem close_thrown (h : (m.close k).2 = false) :
    m.state = .authSent → (m.streams k = some .open ∨ m.streams k = some .closeWait) →
      k < maxStream := by
  intro hs hk
  by_contra hn
  have hge : k ≥ maxStream := by omega
  cases hk with
  | inl hk => simp [close, hk, streamClose, hs, hge] at h
  | inr hk => simp [close, hk, streamClose, hs, hge] at h

theorem close_streams_of_ne {k i : ℕ} (h : i ≠ k) :
    (m.close k).1.streams i = m.streams i := by
  unfold close
  split
  · rfl
  · rfl
  · rfl
  · simp [streamClose_streams, h]
  · simp [streamClose_streams, h]

theorem close_state (m : Mux) (k : ℕ) : (m.close k).1.state = m.state := by
  unfold close
  split
  · rfl
  · rfl
  · rfl
  · exact streamClose_state _ k false
  · exact streamClose_state _ k true

theorem close_streams_closed
    (h : ¬ (m.streams k = some .open ∨ m.streams k = some .closeWait)) :
    (m.close k).1.streams = m.streams := by
  unfold close
  split
  · rfl
  · rfl
  · rfl
  · rename_i hk
    exact absurd (.inl hk) h
  · rename_i hk
    exact absurd (.inr hk) h

theorem close_streams_large (hs : m.state = .authSent)
    (h : (m.close k).2 = false) (i : ℕ) (hi : maxStream ≤ i) :
    (m.close k).1.streams i = m.streams i := by
  by_cases hik : i = k
  · subst hik
    refine congrFun (close_streams_closed ?_) i
    intro hk
    have hlt := close_thrown h hs hk
    omega
  · exact close_streams_of_ne hik

theorem Closable.tail {rest : List ℕ} (h : m.Closable (k :: rest))
    (hs : m.state = .authSent) (hc : (m.close k).2 = false) : (m.close k).1.Closable rest := by
  intro j hj
  have heq : (fun i => decide (maxStream ≤ i) && ((m.close k).1.streams i = some .open ||
      (m.close k).1.streams i = some .closeWait)) = (fun i => decide (maxStream ≤ i) &&
        (m.streams i = some .open || m.streams i = some .closeWait)) := by
    funext i
    by_cases hi : maxStream ≤ i
    · rw [close_streams_large hs hc i hi]
    · simp [hi]
  rw [heq] at hj
  have hlarge : maxStream ≤ j := by
    have hp := List.find?_some hj
    simp only [Bool.and_eq_true, decide_eq_true_eq] at hp
    exact hp.1
  rw [close_streams_large hs hc j hlarge]
  refine h j ?_
  rw [List.find?_cons_of_neg]
  · exact hj
  simp only [Bool.and_eq_true, decide_eq_true_eq, Bool.or_eq_true, not_and]
  intro hk hopen
  have hlt := close_thrown hc hs hopen
  omega

theorem Closable.head {m : Mux} {k : ℕ} {rest : List ℕ} (h : m.Closable (k :: rest))
    (hk : m.streams k = some .closeWait) : k < maxStream := by
  by_contra hn
  have hge : maxStream ≤ k := by omega
  have hf := h k (by simp [hge, hk])
  exact hf hk

theorem tidy_closeAll (h : Tidy m p) (streams : List ℕ)
    (hs : m.state = .authSent) (hc : m.Closable streams) :
    Tidy (m.closeAll streams).1 p := by
  induction streams generalizing m with
  | nil => exact h
  | cons k rest ih =>
    have hk := tidy_close h k (fun _ hw => hc.head hw)
    unfold closeAll
    cases hclose : m.close k with
    | mk m' thrown =>
      rw [hclose] at hk
      cases thrown with
      | true => exact hk
      | false =>
        have hstate := m.close_state k
        have htail := hc.tail hs (by rw [hclose])
        rw [hclose] at hstate htail
        exact ih hk (hstate.trans hs) htail

theorem tidy_closeSocket (h : Tidy m p)
    (hc : m.state = .authSent → m.Closable m.activeStreams) : Tidy m.closeSocket p := by
  cases hs : m.state with
  | authSent =>
    have hall := tidy_closeAll h m.activeStreams hs (hc hs)
    simp only [closeSocket, hs]
    cases he : m.closeAll m.activeStreams with
    | mk m' thrown =>
      rw [he] at hall
      cases thrown with
      | true => exact hall
      | false => exact .of_leaving (.inl rfl)
  | idle =>
    simp only [closeSocket, hs]
    exact .of_leaving (.inr (.inr rfl))
  | closing => exact .of_leaving (m.later_closeSocket.leaving (.inl hs))
  | closeWait => exact .of_leaving (m.later_closeSocket.leaving (.inr (.inl hs)))
  | closed => exact .of_leaving (m.later_closeSocket.leaving (.inr (.inr hs)))

theorem tidy_openStream (h : Tidy m p) : Tidy m.openStream p := by
  unfold openStream
  split
  · rename_i hs
    exact h.create rfl (by simp [hs]) rfl rfl
  · exact h.of_eq rfl rfl rfl
  · exact h
  · exact h
  · exact h

theorem tidy_pingSocket (h : Tidy m p) : Tidy m.pingSocket p := by
  unfold pingSocket
  split
  · exact h
  · exact h
  · exact h
  · exact h.of_eq rfl rfl rfl
  · exact h.of_eq rfl rfl rfl

theorem tidy_onStreamClose (h : Tidy m p) (k : ℕ) :
    Tidy (m.onStreamClose k).1 (fun i => p i ∨ i = k ∧ m.streams k = some .closing) := by
  unfold onStreamClose
  dsimp only [emit_streams]
  split
  · rename_i hk
    have hset := h.setStream hk .closeWait (by simp)
    have hset' := hset.mono (q := fun i => p i ∨ i = k ∧ m.streams k = some .closing)
      (by simp [hk])
    exact hset'.of_eq rfl rfl rfl
  · rename_i hk
    have hset := h.setStream hk .closed (by simp)
    have hset' := hset.mono (q := fun i => p i ∨ i = k ∧ m.streams k = some .closing) (by simp [hk])
    exact hset'.of_eq rfl rfl rfl
  · have hm := h.mono (q := fun i => p i ∨ i = k ∧ m.streams k = some .closing)
      (fun _ hp => .inl hp)
    exact hm.of_eq rfl rfl rfl

theorem tidy_onStreamError (h : Tidy m p) (k : ℕ) :
    Tidy (m.onStreamError k).1 (fun i => p i ∨ i = k ∧ (m.onStreamError k).2 = true) := by
  unfold onStreamError
  dsimp only [emit_streams]
  split
  · exact (h.mono (fun _ hp => .inl hp)).of_eq rfl rfl rfl
  · exact (h.mono (fun _ hp => .inl hp)).of_eq rfl rfl rfl
  · rename_i s _ hk
    have hset := h.setStream hk .closed (fun _ => rfl)
    have hset' := hset.mono (q := fun i => p i ∨ i = k ∧ true = true) (by simp)
    exact hset'.of_eq rfl rfl rfl

theorem tidy_all {p q : ℕ → Prop} (h : Tidy m p) (hq : ∀ k, q k) : Tidy m q :=
  h.mono (fun k _ => hq k)

theorem excused_of_leaves (frame : Frame) (h : frame.Leaves) (stack : List Frame) (k : ℕ) :
    Excused (frame :: stack) k := .inr ⟨frame, by simp, h⟩

theorem tidy_errorStreams (h : Tidy m p) (errorCode : ℕ) (msg : String)
    (stack : List Frame) :
    Tidy (m.errorStreams errorCode msg).1
      (Excused ((m.errorStreams errorCode msg).2 ++ stack)) := by
  unfold errorStreams
  split
  · exact tidy_all (tidy_onStreamError h _)
      (excused_of_leaves (.errorStreams errorCode msg) trivial stack)
  · dsimp only
    split
    · exact .of_leaving (.inr (.inr rfl))
    · exact .of_leaving (.inr (.inr rfl))

theorem tidy_failStreams (h : Tidy m p) (stack : List Frame) :
    Tidy m.failStreams.1 (Excused (m.failStreams.2 ++ stack)) := by
  unfold failStreams
  split
  · exact tidy_all (tidy_onStreamError h _) (excused_of_leaves .failStreams trivial stack)
  · exact tidy_all h (excused_of_leaves .muxFailed trivial stack)

theorem tidy_closeStreams (h : Tidy m p) (final : SocketState)
    (stack : List Frame) :
    Tidy (m.closeStreams final).1 (Excused ((m.closeStreams final).2 ++ stack)) := by
  unfold closeStreams
  split
  · exact tidy_all (tidy_onStreamClose h _)
      (excused_of_leaves (.closeStreams final) trivial stack)
  · exact tidy_all h (excused_of_leaves (.muxClosed final) trivial stack)

theorem tidy_onStreamData (h : Tidy m p) (k : ℕ) (data : Payload) :
    Tidy (m.onStreamData k data).1 p := by
  unfold onStreamData
  split
  · exact h.of_eq rfl rfl rfl
  · exact h.of_eq rfl rfl rfl
  · exact h

theorem tidy_onSocketClose (h : Tidy m (Excused [])) :
    Tidy m.onSocketClose.1 (Excused m.onSocketClose.2) := by
  have hclose (final : SocketState) :
      Tidy (m.closeStreams final).1 (Excused (m.closeStreams final).2) := by
    have ht := tidy_closeStreams h final []
    rwa [List.append_nil] at ht
  unfold onSocketClose
  split
  · exact h
  · exact h
  · exact hclose _
  · exact hclose _
  · exact hclose _

theorem tidy_onSocketError (h : Tidy m (Excused [])) :
    Tidy m.onSocketError.1 (Excused m.onSocketError.2) := by
  have hfail : Tidy m.failStreams.1 (Excused m.failStreams.2) := by
    have ht := tidy_failStreams h []
    rwa [List.append_nil] at ht
  unfold onSocketError
  split
  · exact h
  · exact hfail
  · exact hfail
  · exact hfail
  · exact hfail

theorem tidy_onData (h : Tidy m (Excused [])) (k : ℕ) (payload : Payload)
    (hs : m.state ≠ .idle) :
    Tidy (m.onData k payload).1 (Excused (m.onData k payload).2) := by
  unfold onData
  split
  · exact (tidy_onStreamData h k payload).mono (fun i hi => absurd hi (not_excused_nil i))
  · split
    · exact h
    · split
      · have hm := h.mono (q := Excused [.streamData k payload])
          (fun i hi => absurd hi (not_excused_nil i))
        exact hm.create rfl hs rfl rfl
      · exact h

theorem onStreamClose_streams_closed (h : m.streams k = some .closed) :
    (m.onStreamClose k).1 = m.emit (.remoteClosed k) := by
  simp [onStreamClose, h]

theorem tidy_onClose (h : Tidy m (Excused [])) (k : ℕ) :
    Tidy (m.onClose k).1 (Excused (m.onClose k).2) := by
  have hk := tidy_onStreamClose h k
  unfold onClose
  split
  · split
    · rename_i hs
      rw [onStreamClose_streams_closed hs]
      have he : Tidy (m.emit (.remoteClosed k)) (Excused []) := h.of_eq rfl rfl rfl
      exact (he.delete hs).mono (fun i hi => hi.1)
    · refine hk.mono ?_
      intro i hi
      cases hi with
      | inl hi => exact absurd hi (not_excused_nil i)
      | inr hi => exact .inl (by simp [hi.1])
    · rename_i hs
      exact hk.mono (fun i hi => by simp [hs, not_excused_nil] at hi)
    · rename_i hc hcl ho
      refine hk.mono ?_
      intro i hi
      cases hi with
      | inl hi => exact hi
      | inr hi => exact absurd hi.2 hcl
  · exact h

theorem tidy_onReset (hm : Sound done m) (h : Tidy m (Excused [])) (k : ℕ) :
    Tidy (m.onReset k).1 (Excused (m.onReset k).2) := by
  have hk := tidy_onStreamError h k
  unfold onReset
  split
  · rename_i hmem
    cases he : m.onStreamError k with
    | mk m' called =>
      rw [he] at hk
      cases called with
      | true =>
        refine hk.mono ?_
        intro i hi
        cases hi with
        | inl hi => exact absurd hi (not_excused_nil i)
        | inr hi => exact .inl (by simp [hi.1])
      | false =>
        obtain ⟨s, hs⟩ := hm.known k hmem
        have hclosed : s = .closed := by
          cases s <;> simp_all [onStreamError]
        subst hclosed
        have hm' : m' = m.emit (.remoteClosed k) := by
          simp only [onStreamError, emit_streams, hs] at he
          exact (Prod.mk.inj he).1.symm
        subst hm'
        have he' : Tidy (m.emit (.remoteClosed k)) (Excused []) := h.of_eq rfl rfl rfl
        exact (he'.delete hs).mono (fun i hi => hi.1)
  · exact h

theorem tidy_onSocketMessage (hm : Sound done m) (h : Tidy m (Excused []))
    (msg : ServerMessage) :
    Tidy (m.onSocketMessage msg).1 (Excused (m.onSocketMessage msg).2) := by
  apply onSocketMessage_cases (P := fun result => Tidy result.1 (Excused result.2))
  case kept => exact h
  case goaway => exact tidy_onSocketError h
  case data =>
    intro hs stream payload
    apply tidy_onData h stream payload
    rcases hs with hs | hs <;> simp [hs]
  case close => exact tidy_onClose h
  case reset => exact tidy_onReset hm h
  case ping =>
    intro _
    exact h.of_eq rfl rfl rfl

theorem tidy_sendAuth (h : Tidy m p) : Tidy m.sendAuth p := by
  unfold sendAuth
  split
  · exact h.of_eq rfl rfl rfl
  · exact h.of_eq rfl rfl rfl
  · exact h
  · exact h
  · exact h

theorem tidy_signed (hm : Sound done m) (h : Tidy m p)
    (hs : m.pendingAuth = 0 ∨ ¬ m.state.Leaving) : Tidy m.signed p := by
  unfold signed
  split
  · exact h
  · rename_i hp
    have hstate : m.state = .idle ∨ m.state = .authSent := by
      have hl := hs.resolve_left hp
      rw [SocketState.leaving_iff] at hl
      by_contra hn
      exact hl (not_or.mp hn)
    cases hstate with
    | inl hi =>
      have hnone := h.idle hi
      refine ⟨by simp, ?_, ?_⟩
      · intro _ k s hk
        have hk' : m.streams k = some s := hk
        simp [hnone k] at hk'
      · intro _ k hk
        obtain ⟨s, hk'⟩ := hm.known k hk
        simp [hnone k] at hk'
    | inr ha => exact h.of_eq ha.symm rfl rfl

end Mux

namespace Config

/-- The condition under which a step keeps `activeStreams` exact: `error` is not called on a stream
that its user has closed, a stream that is ended has a number that fits in a message, and no
signature comes after the end has begun. -/
def Exact (c : Config) : Action → Prop
  | .call (.error stream _ _) => c.mux.state = .authSent →
    c.mux.streams stream ≠ some .closing ∧
    (c.mux.streams stream = some .open ∨ c.mux.streams stream = some .closeWait →
      stream < Mux.maxStream)
  | .call (.close stream) => c.mux.state = .authSent →
    c.mux.streams stream = some .closeWait → stream < Mux.maxStream
  | .call .closeSocket => c.mux.state = .authSent → c.mux.Closable c.mux.activeStreams
  | .event .signed => c.mux.pendingAuth = 0 ∨ c.stack ≠ [] ∨ ¬ c.mux.state.Leaving
  | _ => True

theorem tidy_call {c : Config} (h : Tidy c.mux (Excused c.stack)) (call : Call)
    (ha : c.Exact (.call call)) :
    Tidy (call.run c.mux).1 (Excused ((call.run c.mux).2 ++ c.stack)) := by
  cases call with
  | openStream => exact Mux.tidy_openStream h
  | closeSocket => exact Mux.tidy_closeSocket h ha
  | errorSocket errorCode msg =>
    dsimp only [Call.run, Mux.errorSocket]
    split
    · exact .of_leaving (.inr (.inr rfl))
    · exact .of_leaving (.inr (.inr rfl))
    · exact .of_leaving (.inr (.inr rfl))
    · exact Mux.tidy_errorStreams h errorCode msg c.stack
    · exact Mux.tidy_errorStreams h errorCode msg c.stack
  | pingSocket => exact Mux.tidy_pingSocket h
  | close stream => exact Mux.tidy_close h stream ha
  | error stream errorCode msg => exact Mux.tidy_error h stream errorCode msg ha
  | send stream data => exact Mux.tidy_sendData h stream data

theorem tidy_event {m : Mux} (hm : Sound done m) (h : Tidy m (Excused [])) (e : SocketEvent)
    (he : e = .signed → m.pendingAuth = 0 ∨ ¬ m.state.Leaving) :
    Tidy (e.run m).1 (Excused (e.run m).2) := by
  cases e with
  | message msg => exact Mux.tidy_onSocketMessage hm h msg
  | close => exact Mux.tidy_onSocketClose h
  | error => exact Mux.tidy_onSocketError h
  | reauthTimer =>
    dsimp only [SocketEvent.run]
    split
    · have hq : Tidy { m with reauthTimer := false } (Excused []) := h.of_eq rfl rfl rfl
      exact Mux.tidy_sendAuth hq
    · exact h
  | signed => exact Mux.tidy_signed hm h (he rfl)
  | signFailed => exact h.of_eq rfl rfl rfl
  | openAgain =>
    dsimp only [SocketEvent.run]
    split
    · exact h
    · have hq : Tidy { m with waiting := m.waiting - 1 } (Excused []) := h.of_eq rfl rfl rfl
      exact Mux.tidy_openStream hq

theorem tidy_resume {m : Mux} {frame : Frame} {stack : List Frame}
    (h : Tidy m (Excused (frame :: stack))) (hf : frame.Ends)
    (hk : ∀ k, frame = .removeStream k → m.streams k = some .closed) :
    Tidy (frame.resume m).1 (Excused ((frame.resume m).2 ++ stack)) := by
  have hrest (h1 : ∀ k, frame ≠ .removeStream k) (h2 : ¬ frame.Leaves) :
      Tidy m (Excused stack) := by
    refine h.mono ?_
    intro k hk
    have hk' := (excused_cons frame stack k).mp hk
    exact hk'.resolve_left (fun hd => hd.elim (h1 k) h2)
  cases frame with
  | closeStreams final => exact Mux.tidy_closeStreams h final stack
  | muxClosed final =>
    cases hf with
    | inl hf => subst hf; exact .of_leaving (.inr (.inl rfl))
    | inr hf => subst hf; exact .of_leaving (.inr (.inr rfl))
  | errorStreams errorCode msg => exact Mux.tidy_errorStreams h errorCode msg stack
  | failStreams => exact Mux.tidy_failStreams h stack
  | muxFailed => exact .of_leaving (.inr (.inr rfl))
  | streamData k payload =>
    have hr := hrest (by simp) (by simp [Frame.Leaves])
    refine (Mux.tidy_onStreamData hr k payload).mono ?_
    intro i hi
    exact (excused_append _ _ _).mpr (.inr hi)
  | removeStream k =>
    refine (h.delete (hk k rfl)).mono ?_
    intro i hi
    have hi' := (excused_cons _ stack i).mp hi.1
    refine hi'.resolve_left (fun hd => ?_)
    cases hd with
    | inl he => exact hi.2 (Frame.removeStream.inj he).symm
    | inr hl => exact hl
  | nothing => exact hrest (by simp) (by simp [Frame.Leaves])

end Config

namespace Mux

def Removes (result : Mux × List Frame) : Prop :=
  ∀ k, .removeStream k ∈ result.2 → result.1.streams k = some .closed

variable (m : Mux)

theorem removes_closeStreams (final : SocketState) :
    Removes (m.closeStreams final) := by
  unfold closeStreams
  split <;> simp [Removes]

theorem removes_errorStreams (errorCode : ℕ) (msg : String) :
    Removes (m.errorStreams errorCode msg) := by
  unfold errorStreams
  split <;> simp [Removes]

theorem removes_failStreams : Removes m.failStreams := by
  unfold failStreams
  split <;> simp [Removes]

theorem removes_onStreamData (k : ℕ) (data : Payload) :
    Removes (m.onStreamData k data) := by
  unfold onStreamData
  split <;> simp [Removes]

theorem removes_onSocketError : Removes m.onSocketError := by
  unfold onSocketError
  split
  · simp [Removes]
  · exact m.removes_failStreams
  · exact m.removes_failStreams
  · exact m.removes_failStreams
  · exact m.removes_failStreams

theorem removes_onSocketClose : Removes m.onSocketClose := by
  unfold onSocketClose
  split
  · simp [Removes]
  · simp [Removes]
  · exact m.removes_closeStreams _
  · exact m.removes_closeStreams _
  · exact m.removes_closeStreams _

theorem removes_onData (k : ℕ) (payload : Payload) : Removes (m.onData k payload) := by
  unfold onData
  split
  · exact m.removes_onStreamData k payload
  · split
    · simp [Removes]
    · split <;> simp [Removes]

theorem removes_onClose (k : ℕ) : Removes (m.onClose k) := by
  unfold onClose
  split
  · split
    · simp [Removes]
    · rename_i hs
      intro i hi
      have hik : i = k := by simpa using hi
      subst hik
      simp [onStreamClose, hs]
    · simp [Removes]
    · simp [Removes]
  · simp [Removes]

theorem removes_onReset (k : ℕ) : Removes (m.onReset k) := by
  unfold onReset
  split
  · split
    · rename_i m' he
      intro i hi
      have hik : i = k := by simpa using hi
      subst hik
      unfold onStreamError at he
      dsimp only at he
      split at he
      · simp at he
      · simp at he
      · have hm : m' = _ := (Prod.mk.inj he).1.symm
        simp [hm]
    · simp [Removes]
  · simp [Removes]

theorem removes_onSocketMessage (msg : ServerMessage) :
    Removes (m.onSocketMessage msg) := by
  apply onSocketMessage_cases
  case kept => simp [Removes]
  case goaway => exact m.removes_onSocketError
  case data =>
    intro _ stream payload
    exact m.removes_onData stream payload
  case close => exact m.removes_onClose
  case reset => exact m.removes_onReset
  case ping => simp [Removes]

end Mux

namespace Config

theorem removes_call (m : Mux) (call : Call) : Mux.Removes (call.run m) := by
  cases call with
  | errorSocket errorCode msg =>
    dsimp only [Call.run, Mux.errorSocket]
    split
    · simp [Mux.Removes]
    · simp [Mux.Removes]
    · simp [Mux.Removes]
    · exact m.removes_errorStreams errorCode msg
    · exact m.removes_errorStreams errorCode msg
  | _ => simp [Call.run, Mux.Removes]

theorem removes_event (m : Mux) (e : SocketEvent) : Mux.Removes (e.run m) := by
  cases e with
  | message msg => exact m.removes_onSocketMessage msg
  | close => exact m.removes_onSocketClose
  | error => exact m.removes_onSocketError
  | _ => simp [SocketEvent.run, Mux.Removes]

theorem removes_resume (m : Mux) (frame : Frame) : Mux.Removes (frame.resume m) := by
  cases frame with
  | closeStreams final => exact m.removes_closeStreams final
  | muxClosed final => cases final <;> simp [Frame.resume, Mux.Removes]
  | errorStreams errorCode msg => exact m.removes_errorStreams errorCode msg
  | failStreams => exact m.removes_failStreams
  | streamData stream payload => exact m.removes_onStreamData stream payload
  | _ => simp [Frame.resume, Mux.Removes]

/-- What holds of a socket and of the methods that are not through. -/
structure Valid (c : Config) : Prop where
  ends : c.Ends
  sound : Sound (fun k => .removeStream k ∈ c.stack) c.mux

theorem valid_push {result : Mux × List Frame} {stack : List Frame}
    (hs : Sound (fun k => .removeStream k ∈ stack) result.1) (hr : Mux.Removes result)
    (he : (push result stack).Ends) : (push result stack).Valid where
  ends := he
  sound := by
    refine { hs with closed := ?_ }
    intro k hk
    have hm : .removeStream k ∈ result.2 ∨ .removeStream k ∈ stack := List.mem_append.mp hk
    cases hm with
    | inl hm => exact hr k hm
    | inr hm => exact hs.closed k hm

variable {c : Config}

theorem valid_step (h : c.Valid) (a : Action) : (c.step a).Valid := by
  have hends := ends_step h.ends a
  cases a with
  | call call => exact valid_push (call.sound_run h.sound) (removes_call c.mux call) hends
  | event e =>
    dsimp only [step] at hends ⊢
    split
    · rename_i hs
      rw [if_pos hs] at hends
      have hsound := h.sound
      rw [hs] at hsound
      exact valid_push (e.sound_run hsound) (removes_event c.mux e) hends
    · exact h
  | ret =>
    cases hs : c.stack with
    | nil =>
      simp only [step, hs]
      exact h
    | cons frame stack =>
      simp only [step, hs] at hends ⊢
      have hsound : Sound (fun k => .removeStream k ∈ stack) c.mux :=
        { h.sound with closed := fun k hk => h.sound.closed k (by simp [hs, hk]) }
      exact valid_push (Frame.sound_resume hsound frame) (removes_resume c.mux frame) hends

theorem valid_run (h : c.Valid) (actions : List Action) : (c.run actions).Valid := by
  induction actions generalizing c with
  | nil => exact h
  | cons a actions ih => exact ih (valid_step h a)

theorem tidy_step (h : c.Valid) (ht : Tidy c.mux (Excused c.stack)) (a : Action)
    (ha : c.Exact a) : Tidy (c.step a).mux (Excused (c.step a).stack) := by
  cases a with
  | call call => exact tidy_call ht call ha
  | event e =>
    dsimp only [step]
    split
    · rename_i hs
      rw [hs] at ht
      have he := tidy_event h.sound ht e (by
        intro he
        subst he
        have ha' : c.mux.pendingAuth = 0 ∨ c.stack ≠ [] ∨ ¬ c.mux.state.Leaving := ha
        simpa [hs] using ha')
      simpa [push] using he
    · exact ht
  | ret =>
    cases hs : c.stack with
    | nil =>
      simp only [step, hs]
      rwa [hs] at ht
    | cons frame stack =>
      simp only [step, hs]
      rw [hs] at ht
      have hf : frame.Ends := h.ends frame (by simp [hs])
      refine tidy_resume ht hf ?_
      intro k hk
      exact h.sound.closed k (by simp [hs, hk])

theorem tidy_run (h : c.Valid) (ht : Tidy c.mux (Excused c.stack))
    (actions : List Action) (ha : Along Exact c actions) :
    Tidy (c.run actions).mux (Excused (c.run actions).stack) := by
  induction actions generalizing c with
  | nil => exact ht
  | cons a actions ih => exact ih (valid_step h a) (tidy_step h ht a ha.1) ha.2

end Config

theorem valid_connect : connect.Valid := by
  refine ⟨ends_connect, { sound_connect with closed := ?_ }⟩
  simp [connect]

theorem tidy_connect : Tidy connect.mux (Excused connect.stack) :=
  ⟨fun _ _ => rfl, by simp [connect], by simp [connect]⟩

/-- The life of the streams: their events come in order in every run, and `activeStreams` are the
created streams that are not closed when `error` is not called on a stream that its user has
closed. Inside a callback, a stream that is being closed may still be there. -/
theorem stream_lifecycle (actions : List Action) :
    Ordered (connect.run actions).mux.log ∧
    (Config.Along Config.Exact connect actions → (connect.run actions).mux.state = .authSent →
      ((connect.run actions).stack = [] → ∀ k, k ∈ (connect.run actions).mux.activeStreams ↔
        .created k ∈ (connect.run actions).mux.log ∧
        (connect.run actions).mux.streams k ≠ some .closed) ∧
      ∀ k, (.created k ∈ (connect.run actions).mux.log →
          (connect.run actions).mux.streams k ≠ some .closed →
          k ∈ (connect.run actions).mux.activeStreams) ∧
        (k ∈ (connect.run actions).mux.activeStreams →
          .created k ∈ (connect.run actions).mux.log ∧
          ((connect.run actions).mux.streams k ≠ some .closed ∨
            Excused (connect.run actions).stack k))) := by
  have hv := Config.valid_run valid_connect actions
  refine ⟨hv.sound.ordered, ?_⟩
  intro ha hs
  have ht := Config.tidy_run valid_connect tidy_connect actions ha
  have hin (k : ℕ) (hc : .created k ∈ (connect.run actions).mux.log)
      (hk : (connect.run actions).mux.streams k ≠ some .closed) :
      k ∈ (connect.run actions).mux.activeStreams := by
    obtain ⟨s, hks, _⟩ := hv.sound.marked _ hc k rfl
    refine ht.present hs k s hks ?_
    intro he
    exact hk (he ▸ hks)
  have hout (k : ℕ) (hk : k ∈ (connect.run actions).mux.activeStreams) :
      .created k ∈ (connect.run actions).mux.log ∧
      ((connect.run actions).mux.streams k ≠ some .closed ∨
        Excused (connect.run actions).stack k) := by
    obtain ⟨s, hks⟩ := hv.sound.known k hk
    refine ⟨hv.sound.created k s hks, ?_⟩
    by_cases hc : (connect.run actions).mux.streams k = some .closed
    · exact .inr (ht.gone hs k hk hc)
    · exact .inl hc
  refine ⟨?_, fun k => ⟨hin k, hout k⟩⟩
  intro hnil k
  constructor
  · intro hk
    have ho := hout k hk
    rw [hnil] at ho
    exact ⟨ho.1, ho.2.resolve_right (not_excused_nil k)⟩
  · exact fun hk => hin k hk.1 hk.2

theorem stream_lifecycle_closed :
    Ordered (connect.run [.event .signed, .call .openStream, .call (.close 1),
      .event (.message (.close ⟨1, by decide⟩)), .ret]).mux.log ∧
    1 ∉ (connect.run [.event .signed, .call .openStream, .call (.close 1),
      .event (.message (.close ⟨1, by decide⟩)), .ret]).mux.activeStreams := by
  have hl := stream_lifecycle [.event .signed, .call .openStream, .call (.close 1),
    .event (.message (.close ⟨1, by decide⟩)), .ret]
  have hi : ¬ SocketState.idle.Leaving := by simp [SocketState.Leaving]
  have ha : Config.Along Config.Exact connect [.event .signed, .call .openStream, .call (.close 1),
      .event (.message (.close ⟨1, by decide⟩)), .ret] :=
    ⟨.inr (.inr hi), trivial, fun _ _ => by decide, trivial, trivial, trivial⟩
  refine ⟨hl.1, ?_⟩
  intro hm
  exact (((hl.2 ha rfl).1 rfl 1).mp hm).2 rfl

/-- A stream that is closed and then reset by its user stays in `activeStreams`. -/
theorem closed_stream_stays_active :
    let c := connect.run
      [.event .signed, .call .openStream, .call (.close 1), .call (.error 1 0 "")]
    c.mux.state = .authSent ∧ c.stack = [] ∧ c.mux.streams 1 = some .closed ∧
      1 ∈ c.mux.activeStreams := by
  refine ⟨rfl, rfl, rfl, ?_⟩
  decide

/-- Stream numbers: in every run a number is created at most once, odd ones by this side and even
ones by the server, the next number is free, and every event of a stream is of a created one. -/
theorem streams_numbered (actions : List Action) :
    (∀ k, (connect.run actions).mux.log.count (.created k) ≤ 1) ∧
    (∀ k, .created k ∈ (connect.run actions).mux.log →
      (k % 2 = 1 ∧ k < (connect.run actions).mux.nextStream) ∨
      (k % 2 = 0 ∧ k ≤ (connect.run actions).mux.serverStreamWatermark)) ∧
    ∀ e ∈ (connect.run actions).mux.log, ∀ k, e.stream? = some k →
      .created k ∈ (connect.run actions).mux.log := by
  have hsound := (Config.valid_run valid_connect actions).sound
  have hstate : ∀ e ∈ (connect.run actions).mux.log, ∀ k, e.stream? = some k →
      ∃ s, (connect.run actions).mux.streams k = some s := by
    intro e he k hk
    obtain ⟨s, hs, -⟩ := hsound.marked e he k hk
    exact ⟨s, hs⟩
  refine ⟨fun k => ?_, fun k hk => ?_, fun e he k hk => ?_⟩
  · by_contra htwice
    have hsub := List.duplicate_iff_sublist.mp
      (List.duplicate_iff_two_le_count.mpr (Nat.lt_of_not_le htwice))
    have hpair := hsound.ordered.sublist hsub
    exact (List.pairwise_cons.mp hpair).1 _ List.mem_cons_self (.created k)
  · obtain ⟨s, hs⟩ := hstate _ hk k rfl
    exact hsound.numbered k s hs
  · obtain ⟨s, hs⟩ := hstate e he k hk
    exact hsound.created k s hs

end SkipPlatform.MuxedSocket
