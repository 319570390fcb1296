import Mathlib.Logic.Basic

set_option autoImplicit false

/-! Programs that ask queries of their surroundings and may fail: a tree whose branches are
the answers. The same program can be followed against fixed answers or run in a state that
notes what is asked. -/

inductive Inquiry (Q A R : Type) where
  | done (result : R)
  | ask (query : Q) (next : A → Inquiry Q A R)

namespace Inquiry
variable {Q A R E S : Type}

def follow (answer : Q → Except E A) : Inquiry Q A (Except E R) → Except E (R × List Q)
  | done result => result.map fun r => (r, [])
  | ask query next =>
    (answer query).bind fun a => (follow answer (next a)).map fun x => (x.1, query :: x.2)

def interpret (step : S → Q → Except E (A × S)) : S → Inquiry Q A (Except E R) → Except E (R × S)
  | s, done result => result.map fun r => (r, s)
  | s, ask query next => (step s query).bind fun x => interpret step x.2 (next x.1)

variable {answer : Q → Except E A}

/-- A run whose answers do not depend on what was noted is the program followed, and then
the queries noted in order. -/
theorem interpret_eq_follow {step : S → Q → Except E (A × S)}
    {note : S → Q → S} {good : S → Prop}
    (hstep : ∀ s q, good s → step s q = (answer q).map fun a => (a, note s q))
    (hnote : ∀ s q, good s → good (note s q)) (t : Inquiry Q A (Except E R)) (s : S) (hs : good s) :
    interpret step s t = (follow answer t).map fun x => (x.1, x.2.foldl note s) := by
  induction t generalizing s with
  | done result => cases result <;> rfl
  | ask query next ih =>
    unfold interpret follow
    rw [hstep s query hs]
    cases answer query with
    | error e => rfl
    | ok a =>
      change interpret step (note s query) (next a) = _
      rw [ih a (note s query) (hnote s query hs)]
      cases hf : follow answer (next a) with
      | error e => simp [Except.map, Except.bind, hf]
      | ok x => simp [Except.map, Except.bind, hf]

/-- Every query the program can ask is `good`. -/
def Within (good : Q → Prop) : Inquiry Q A R → Prop
  | done _ => True
  | ask query next => good query ∧ ∀ a, (next a).Within good

theorem follow_congr {answer answer' : Q → Except E A} {good : Q → Prop}
    {t : Inquiry Q A (Except E R)} (ht : t.Within good)
    (h : ∀ q, good q → answer q = answer' q) : t.follow answer = t.follow answer' := by
  induction t with
  | done result => rfl
  | ask query next ih =>
    unfold follow
    rw [h query ht.1]
    congr 1
    funext a
    rw [ih a (ht.2 a)]

theorem follow_ask {query : Q} {next : A → Inquiry Q A (Except E R)}
    {x : R × List Q} (h : (ask query next).follow answer = .ok x) :
    ∃ a rest, answer query = .ok a ∧ (next a).follow answer = .ok (x.1, rest) ∧
      x.2 = query :: rest := by
  unfold follow at h
  cases ha : answer query with
  | error e =>
    rw [ha] at h
    cases h
  | ok a =>
    rw [ha] at h
    cases hf : (next a).follow answer with
    | error e =>
      simp only [Except.bind, hf, Except.map] at h
      cases h
    | ok y =>
      simp only [Except.bind, hf, Except.map, Except.ok.injEq] at h
      subst h
      exact ⟨a, y.2, rfl, hf, rfl⟩

theorem follow_asked {good : Q → Prop} {t : Inquiry Q A (Except E R)}
    (ht : t.Within good) {x : R × List Q} (h : t.follow answer = .ok x) :
    ∀ q ∈ x.2, good q ∧ ∃ a, answer q = .ok a := by
  induction t generalizing x with
  | done result =>
    unfold follow at h
    cases result with
    | error e => cases h
    | ok r =>
      cases h
      intro q hq
      cases hq
  | ask query next ih =>
    obtain ⟨a, rest, ha, hrest, hx⟩ := follow_ask h
    intro q hq
    rw [hx] at hq
    rcases List.mem_cons.mp hq with rfl | hq
    · exact ⟨ht.1, a, ha⟩
    · exact ih a (ht.2 a) hrest q hq

end Inquiry
