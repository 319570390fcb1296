import Mathlib.Order.Basic
import Mathlib.Order.Lattice

set_option autoImplicit false

/-! Loops with fuel. `none` is a loop that has used it up, or one that failed. -/
namespace SkipPlatform.Fuel

variable {α β σ : Type}

/-- With enough fuel the result is `a`. -/
def Ends (f : ℕ → Option α) (a : α) : Prop := ∃ n, ∀ fuel, n ≤ fuel → f fuel = some a

namespace Ends

theorem pure (a : α) : Ends (fun _ => some a) a := ⟨0, fun _ _ => rfl⟩

theorem unique {f : ℕ → Option α} {a b : α} (ha : Ends f a) (hb : Ends f b) : a = b := by
  obtain ⟨n, hn⟩ := ha
  obtain ⟨m, hm⟩ := hb
  have h := hn (max n m) (by omega)
  rw [hm (max n m) (by omega)] at h
  exact (Option.some.inj h).symm

theorem bind {f : ℕ → Option α} {g : α → ℕ → Option β} {a : α} {b : β} (hf : Ends f a)
    (hg : Ends (g a) b) : Ends (fun fuel => (f fuel).bind fun x => g x fuel) b := by
  obtain ⟨n, hn⟩ := hf
  obtain ⟨m, hm⟩ := hg
  refine ⟨max n m, ?_⟩
  intro fuel hle
  change (f fuel).bind _ = some b
  rw [hn fuel (by omega)]
  exact hm fuel (by omega)

theorem map {f : ℕ → Option α} {a : α} (hf : Ends f a) (g : α → β) :
    Ends (fun fuel => (f fuel).map g) (g a) := by
  obtain ⟨n, hn⟩ := hf
  refine ⟨n, ?_⟩
  intro fuel hle
  change (f fuel).map g = some (g a)
  rw [hn fuel hle]
  rfl

theorem succ {f g : ℕ → Option α} {a : α} (h : ∀ fuel, f (fuel + 1) = g fuel) (hg : Ends g a) :
    Ends f a := by
  obtain ⟨n, hn⟩ := hg
  refine ⟨n + 1, ?_⟩
  intro fuel hle
  cases fuel with
  | zero => exact absurd hle (by omega)
  | succ fuel =>
    rw [h fuel]
    exact hn fuel (by omega)

theorem foldlM (step : ℕ → σ → α → Option σ) (Inv : List α → σ → Prop) (items : List α)
    (hstep : ∀ before x after s, items = before ++ x :: after → Inv before s →
      ∃ s', Ends (fun fuel => step fuel s x) s' ∧ Inv (before ++ [x]) s')
    {s : σ} (hs : Inv [] s) :
    ∃ s', Ends (fun fuel => items.foldlM (step fuel) s) s' ∧ Inv items s' := by
  have hall : ∀ (rest before : List α) (s : σ), items = before ++ rest → Inv before s →
      ∃ s', Ends (fun fuel => rest.foldlM (step fuel) s) s' ∧ Inv items s' := by
    intro rest
    induction rest with
    | nil =>
      intro before s hitems hinv
      rw [List.append_nil] at hitems
      exact ⟨s, pure s, hitems ▸ hinv⟩
    | cons x rest ih =>
      intro before s hitems hinv
      obtain ⟨s₁, hends, hinv₁⟩ := hstep before x rest s hitems hinv
      obtain ⟨s', hrest, hinv'⟩ := ih (before ++ [x]) s₁ (by simp [hitems]) hinv₁
      refine ⟨s', ?_, hinv'⟩
      exact hends.bind hrest
  exact hall items [] s rfl hs

end Ends

/-! Two runs in step. -/

variable {R : α → α → Prop} {S : β → β → Prop}

theorem rel_bind {x y : Option α} {f g : α → Option β} (h : Option.Rel R x y)
    (hnext : ∀ a b, R a b → Option.Rel S (f a) (g b)) : Option.Rel S (x.bind f) (y.bind g) := by
  cases h with
  | none => exact .none
  | some hab => exact hnext _ _ hab

theorem rel_map {x y : Option α} {f g : α → β} (h : Option.Rel R x y)
    (hnext : ∀ a b, R a b → S (f a) (g b)) : Option.Rel S (x.map f) (y.map g) := by
  cases h with
  | none => exact .none
  | some hab => exact .some (hnext _ _ hab)

theorem rel_foldlM (items : List β) {f g : α → β → Option α}
    (hstep : ∀ x ∈ items, ∀ s t, R s t → Option.Rel R (f s x) (g t x)) {s t : α} (h : R s t) :
    Option.Rel R (items.foldlM f s) (items.foldlM g t) := by
  induction items generalizing s t with
  | nil => exact .some h
  | cons x rest ih =>
    rw [List.foldlM_cons, List.foldlM_cons]
    have hrest : ∀ y ∈ rest, ∀ s t, R s t → Option.Rel R (f s y) (g t y) :=
      fun y hy => hstep y (List.mem_cons_of_mem x hy)
    exact rel_bind (hstep x List.mem_cons_self s t h) fun a b hab => ih hrest hab

theorem Ends.rel {f g : ℕ → Option α} {a b : α} (hf : Ends f a) (hg : Ends g b)
    (h : ∀ fuel, Option.Rel R (f fuel) (g fuel)) : R a b := by
  obtain ⟨n, hn⟩ := hf
  obtain ⟨m, hm⟩ := hg
  have hboth := h (max n m)
  rw [hn (max n m) (by omega), hm (max n m) (by omega)] at hboth
  cases hboth with
  | some hab => exact hab

end SkipPlatform.Fuel
