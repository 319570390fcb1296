import Mathlib.Data.List.Perm.Basic
import SkipPlatform.EagerDirContents
import SkipPlatform.EagerDirSize

set_option autoImplicit false
set_option linter.unusedSectionVars false

/-! The reducers of the store and of the runtime, and what a directory that keeps its
reduced arrays through every write reads. -/
namespace SkipPlatform
open List SortedMerge StoreSourceMap

/-- The two functions of an `IReducer`. -/
abbrev ReducerFns (F : Type) := (List F → List F) × (List F → List F → List F → Option (List F))

structure IntFiles (F : Type) where
  value : F → ℤ
  create : ℤ → F
  value_create : ∀ n, value (create n) = n

def wrap (n : ℤ) : ℤ := Int.bmod n (2 ^ 64)

section Shipped
variable {F : Type} (files : IntFiles F)

/-- A reducer that adds up a weight of each value; `none` is the access to the first
element of an empty state, which the directory never asks for. -/
def weightReducer (weight : F → ℤ) : ReducerFns F :=
  (fun xs => [files.create (xs.foldl (fun total x => wrap (total + weight x)) 0)],
   fun state old new =>
    state.head?.map fun first =>
      let total := old.foldl (fun total x => wrap (total - weight x)) (files.value first)
      [files.create (new.foldl (fun total x => wrap (total + weight x)) total)])

def countReducer : ReducerFns F := weightReducer files fun _ => 1

def sumReducer : ReducerFns F := weightReducer files files.value

def extremumReducer (rank : ℤ → ℤ) : ReducerFns F :=
  (fun xs =>
    match xs.foldl (fun best x =>
        if best.all fun b => decide (rank (files.value x) < rank b) then some (files.value x)
        else best) none with
    | some best => [files.create best]
    | none => [],
   fun state old new =>
    state.head?.bind fun first =>
      let best := new.foldl (fun best x =>
        if rank (files.value x) < rank best then files.value x else best) (files.value first)
      if old.any fun x => decide (rank (files.value x) ≤ rank best) then none
      else some [files.create best])

def minReducer : ReducerFns F := extremumReducer files id

def maxReducer : ReducerFns F := extremumReducer files Neg.neg

end Shipped

structure RuntimeReducer (F V A : Type) where
  getInit : A
  getType : F → V
  accFromFile : F → A
  accToFile : A → F
  add : A → V → A
  remove : A → V → Option A

namespace RuntimeReducer
variable {F V A : Type}

def init (r : RuntimeReducer F V A) (xs : List F) : List F :=
  [r.accToFile (xs.foldl (fun acc x => r.add acc (r.getType x)) r.getInit)]

def update (r : RuntimeReducer F V A) (state old new : List F) : Option (List F) :=
  state.head?.bind fun first =>
    (old.foldlM (fun acc x => r.remove acc (r.getType x)) (r.accFromFile first)).map fun acc =>
      [r.accToFile (new.foldl (fun acc x => r.add acc (r.getType x)) acc)]

/-- A value that is removed leaves what adding the other values gives, in any order. -/
structure Contract (r : RuntimeReducer F V A) : Prop where
  acc : ∀ a, r.accFromFile (r.accToFile a) = a
  add_comm : ∀ a x y, r.add (r.add a x) y = r.add (r.add a y) x
  remove : ∀ (xs ys : List V) v a, xs.Perm (v :: ys) →
    r.remove (xs.foldl r.add r.getInit) v = some a → a = ys.foldl r.add r.getInit

end RuntimeReducer

inductive Shipped {F : Type} (files : IntFiles F) : ReducerFns F → Prop
  | count : Shipped files (countReducer files)
  | sum : Shipped files (sumReducer files)
  | min : Shipped files (minReducer files)
  | max : Shipped files (maxReducer files)
  | runtime {V A : Type} (r : RuntimeReducer F V A) (h : r.Contract) : Shipped files (r.init, r.update)

/-- An update that succeeds gives what the values after it give from scratch. -/
def Lawful {F : Type} (r : ReducerFns F) : Prop :=
  ∀ xs ys old new others state, xs.Perm (old ++ others) → ys.Perm (new ++ others) →
    r.1 xs ≠ [] → r.2 (r.1 xs) old new = some state → state = r.1 ys

section Laws
variable {F : Type} {files : IntFiles F}

theorem wrap_add (n m : ℤ) : wrap (wrap n + m) = wrap (n + m) := Int.bmod_add_bmod

variable (weight : F → ℤ)

theorem foldl_wrap (xs : List F) (n : ℤ) :
    xs.foldl (fun total x => wrap (total + weight x)) (wrap n) = wrap (n +
    (xs.map weight).sum) := by
  induction xs generalizing n with
  | nil => simp
  | cons x xs ih => rw [foldl_cons, wrap_add, ih, map_cons, sum_cons, ← add_assoc]

theorem foldl_wrap_sub (xs : List F) (n : ℤ) :
    xs.foldl (fun total x => wrap (total - weight x)) (wrap n) = wrap (n -
    (xs.map weight).sum) := by
  induction xs generalizing n with
  | nil => simp
  | cons x xs ih =>
    have hsub : wrap (wrap n - weight x) = wrap (n - weight x) := Int.bmod_sub_bmod
    rw [foldl_cons, hsub, ih, map_cons, sum_cons, sub_sub]

theorem lawful_weight : Lawful (weightReducer files weight) := by
  intro xs ys old new others state hxs hys _ hstate
  have hinit : ∀ zs : List F, (weightReducer files weight).1 zs =
      [files.create (wrap (zs.map weight).sum)] := by
    intro zs
    have hzero : (0 : ℤ) = wrap 0 := by decide
    change [files.create (zs.foldl (fun total x => wrap (total + weight x)) 0)] = _
    rw [hzero, foldl_wrap, zero_add]
  have hsumx : (xs.map weight).sum = (old.map weight).sum + (others.map weight).sum := by
    rw [(hxs.map weight).sum_eq, map_append, sum_append]
  have hsumy : (ys.map weight).sum = (new.map weight).sum + (others.map weight).sum := by
    rw [(hys.map weight).sum_eq, map_append, sum_append]
  rw [hinit] at hstate
  change some [files.create (new.foldl (fun total x => wrap (total + weight x))
    (old.foldl (fun total x => wrap (total - weight x))
      (files.value (files.create (wrap (xs.map weight).sum)))))] = some state at hstate
  rw [files.value_create, foldl_wrap_sub, foldl_wrap] at hstate
  rw [← Option.some.inj hstate, hinit, hsumx, hsumy]
  congr 3
  omega

theorem foldl_best (files : IntFiles F) (rank : ℤ → ℤ) (xs : List F) (n : ℤ) :
    let best := xs.foldl (fun best x =>
      if rank (files.value x) < rank best then files.value x else best) n
    (best = n ∨ ∃ x ∈ xs, best = files.value x) ∧ rank best ≤ rank n ∧
      ∀ x ∈ xs, rank best ≤ rank (files.value x) := by
  induction xs generalizing n with
  | nil => exact ⟨Or.inl rfl, le_refl _, fun x hx => absurd hx not_mem_nil⟩
  | cons x xs ih =>
    rw [foldl_cons]
    by_cases hx : rank (files.value x) < rank n
    · rw [if_pos hx]
      obtain ⟨hbest, hle, hall⟩ := ih (files.value x)
      refine ⟨Or.inr ?_, hle.trans hx.le, ?_⟩
      · rcases hbest with hbest | ⟨y, hy, hbest⟩
        · exact ⟨x, mem_cons_self, hbest⟩
        · exact ⟨y, mem_cons_of_mem x hy, hbest⟩
      · intro y hy
        rcases mem_cons.mp hy with hy | hy
        · rw [hy]
          exact hle
        · exact hall y hy
    · rw [if_neg hx]
      obtain ⟨hbest, hle, hall⟩ := ih n
      refine ⟨?_, hle, ?_⟩
      · rcases hbest with hbest | ⟨y, hy, hbest⟩
        · exact Or.inl hbest
        · exact Or.inr ⟨y, mem_cons_of_mem x hy, hbest⟩
      · intro y hy
        rcases mem_cons.mp hy with hy | hy
        · rw [hy]
          exact hle.trans (not_lt.mp hx)
        · exact hall y hy

theorem extremum_init (files : IntFiles F) (rank : ℤ → ℤ) (xs : List F) :
    (extremumReducer files rank).1 xs = [] ∧ xs = [] ∨
      ∃ x ∈ xs, (extremumReducer files rank).1 xs = [files.create (files.value x)] ∧
        ∀ y ∈ xs, rank (files.value x) ≤ rank (files.value y) := by
  cases xs with
  | nil => exact Or.inl ⟨rfl, rfl⟩
  | cons first rest =>
    have hfold : ∀ (zs : List F) n, zs.foldl (fun best x =>
        if best.all fun b => decide (rank (files.value x) < rank b) then some (files.value x)
        else best) (some n) = some (zs.foldl (fun best x =>
          if rank (files.value x) < rank best then files.value x else best) n) := by
      intro zs
      induction zs with
      | nil => exact fun _ => rfl
      | cons z zs ih =>
        intro n
        rw [foldl_cons, foldl_cons]
        by_cases hz : rank (files.value z) < rank n
        · simp only [Option.all_some, decide_eq_true hz, if_true, if_pos hz]
          exact ih _
        · simp only [Option.all_some, decide_eq_false hz, if_neg hz]
          exact ih _
    have hinit : (extremumReducer files rank).1 (first :: rest) =
        [files.create (rest.foldl (fun best x =>
          if rank (files.value x) < rank best then files.value x else best)
            (files.value first))] := by
      unfold extremumReducer
      simp only [foldl_cons, Option.all_none, if_true, hfold]
    obtain ⟨hbest, hle, hall⟩ := foldl_best files rank rest (files.value first)
    right
    rw [hinit]
    rcases hbest with hbest | ⟨x, hx, hbest⟩
    · refine ⟨first, mem_cons_self, by rw [hbest], ?_⟩
      intro y hy
      rcases mem_cons.mp hy with hy | hy
      · rw [hy]
      · rw [hbest] at hall
        exact hall y hy
    · refine ⟨x, mem_cons_of_mem first hx, by rw [hbest], ?_⟩
      intro y hy
      rw [hbest] at hle hall
      rcases mem_cons.mp hy with hy | hy
      · rw [hy]
        exact hle
      · exact hall y hy

theorem extremum_init_eq {rank : ℤ → ℤ} (hrank : Function.Injective rank) {xs : List F} {n : ℤ}
    (hmem : ∃ x ∈ xs, files.value x = n) (hall : ∀ y ∈ xs, rank n ≤ rank (files.value y)) :
    (extremumReducer files rank).1 xs = [files.create n] := by
  obtain ⟨x, hx, hxn⟩ := hmem
  rcases extremum_init files rank xs with ⟨_, hnil⟩ | ⟨z, hz, hinit, hleast⟩
  · rw [hnil] at hx
    cases hx
  · have hle := hleast x hx
    rw [hxn] at hle
    rw [hinit, hrank (le_antisymm hle (hall z hz))]

theorem lawful_extremum {rank : ℤ → ℤ} (hrank : Function.Injective rank) :
    Lawful (extremumReducer files rank) := by
  intro xs ys old new others state hxs hys hne hstate
  rcases extremum_init files rank xs with ⟨hnil, _⟩ | ⟨z, hz, hinit, hleast⟩
  · exact absurd hnil hne
  rw [hinit] at hstate
  set best := new.foldl (fun best x =>
    if rank (files.value x) < rank best then files.value x else best) (files.value z) with hbestdef
  have hupdate : (if old.any fun x => decide (rank (files.value x) ≤ rank best) then none
      else some [files.create best]) = some state := by
    rw [← hstate, hbestdef]
    change _ = (if old.any fun x => decide (rank (files.value x) ≤ rank (new.foldl (fun best x =>
      if rank (files.value x) < rank best then files.value x else best)
        (files.value (files.create (files.value z))))) then none else some _)
    rw [files.value_create]
  by_cases hold : (old.any fun x => decide (rank (files.value x) ≤ rank best)) = true
  · rw [if_pos hold] at hupdate
    cases hupdate
  rw [if_neg hold] at hupdate
  rw [← Option.some.inj hupdate]
  have hkept : ∀ x ∈ old, rank best < rank (files.value x) := by
    intro x hx
    by_contra hcon
    exact hold (any_eq_true.mpr ⟨x, hx, decide_eq_true (not_lt.mp hcon)⟩)
  obtain ⟨hbest, hle, hall⟩ := foldl_best files rank new (files.value z)
  rw [← hbestdef] at hbest hle hall
  have hmem : ∀ y, y ∈ ys ↔ y ∈ new ∨ y ∈ others := by
    intro y
    rw [hys.mem_iff, mem_append]
  symm
  apply extremum_init_eq hrank
  · rcases hbest with hbest | ⟨x, hx, hbest⟩
    · have hzo : z ∈ others := by
        rcases mem_append.mp (hxs.mem_iff.mp hz) with hzold | hzo
        · have := hkept z hzold
          rw [hbest] at this
          exact absurd this (lt_irrefl _)
        · exact hzo
      exact ⟨z, (hmem z).mpr (Or.inr hzo), hbest.symm⟩
    · exact ⟨x, (hmem x).mpr (Or.inl hx), hbest.symm⟩
  · intro y hy
    rcases (hmem y).mp hy with hy | hy
    · exact hall y hy
    · exact hle.trans (hleast y (hxs.mem_iff.mpr (mem_append_right old hy)))

theorem foldl_add_perm {V A : Type} {r : RuntimeReducer F V A} (h : r.Contract) {xs ys : List V}
    (hp : xs.Perm ys) (a : A) : xs.foldl r.add a = ys.foldl r.add a := by
  induction hp generalizing a with
  | nil => rfl
  | cons x _ ih => exact ih (r.add a x)
  | swap x y zs =>
    rw [foldl_cons, foldl_cons, foldl_cons, foldl_cons, h.add_comm]
  | trans _ _ ih ih' => exact (ih a).trans (ih' a)

theorem foldlM_remove {V A : Type} {r : RuntimeReducer F V A} (h : r.Contract)
    (old others xs : List V) (a : A) (hp : xs.Perm (old ++ others))
    (hfold : old.foldlM r.remove (xs.foldl r.add r.getInit) = some a) :
    a = others.foldl r.add r.getInit := by
  induction old generalizing xs with
  | nil =>
    rw [← Option.some.inj hfold]
    exact foldl_add_perm h hp r.getInit
  | cons v old ih =>
    rw [foldlM_cons] at hfold
    obtain ⟨a', hremove, hrest⟩ := Option.bind_eq_some_iff.mp hfold
    have hacc := h.remove xs (old ++ others) v a' hp hremove
    rw [hacc] at hrest
    exact ih (old ++ others) (List.Perm.refl _) hrest

theorem lawful_runtime {V A : Type} {r : RuntimeReducer F V A} (h : r.Contract) :
    Lawful (r.init, r.update) := by
  intro xs ys old new others state hxs hys _ hstate
  have hinit : ∀ zs : List F, r.init zs =
      [r.accToFile ((zs.map r.getType).foldl r.add r.getInit)] := by
    intro zs
    unfold RuntimeReducer.init
    rw [foldl_map]
  change r.update (r.init xs) old new = some state at hstate
  unfold RuntimeReducer.update at hstate
  rw [hinit, List.head?_cons, Option.bind_some, h.acc, ← foldlM_map] at hstate
  obtain ⟨a, hfold, hout⟩ := Option.map_eq_some_iff.mp hstate
  have hperm : (xs.map r.getType).Perm (old.map r.getType ++ others.map r.getType) := by
    rw [← map_append]
    exact hxs.map r.getType
  have ha := foldlM_remove h _ _ _ a hperm hfold
  have hys' : ((others ++ new).map r.getType).Perm (ys.map r.getType) :=
    ((perm_append_comm).trans hys.symm).map r.getType
  rw [← hout, ha]
  change _ = r.init ys
  rw [hinit, ← foldl_add_perm h hys', map_append, foldl_append, ← foldl_map]

theorem Shipped.lawful {r : ReducerFns F} (h : Shipped files r) : Lawful r := by
  cases h with
  | count => exact lawful_weight _
  | sum => exact lawful_weight _
  | min => exact lawful_extremum Function.injective_id
  | max => exact lawful_extremum neg_injective
  | runtime r h => exact lawful_runtime h

end Laws

namespace Reducer
variable {K F : Type} [StoreKey K]

theorem getFixed_of_mem {r : Reducer K F} (hs : r.fixed.Pairwise fun a b => a.1 < b.1) {key : K}
    {values : List F} (h : (key, values) ∈ r.fixed) : r.getFixed key = values := by
  unfold getFixed
  generalize r.fixed = fixed at hs h ⊢
  induction fixed using SortedSearch.bisect_induction with
  | nil => cases h
  | node l x r mid ihl ihr =>
    rw [SortedSearch.bisect_node _ _ l r x mid]
    obtain ⟨hl, hxr, hlx⟩ := pairwise_append.mp hs
    obtain ⟨hx, hr⟩ := pairwise_cons.mp hxr
    rcases mem_append.mp h with hmem | hmem
    · have hlt : key < x.1 := hlx _ hmem x mem_cons_self
      simp only [compare_lt_iff_lt.mpr hlt]
      exact ihl hl hmem
    · rcases mem_cons.mp hmem with heq | hmem
      · simp only [← heq, compare_eq_iff_eq.mpr]
      · have hgt : x.1 < key := hx _ hmem
        simp only [compare_gt_iff_gt.mpr hgt]
        exact ihr hr hmem

end Reducer

namespace EagerDir
variable {D K F : Type} [LinearOrder D] [StoreKey K]

theorem filesOf_written [DecidableEq F] {d : EagerDir D K F} (h : d.Sound)
    {ctx : WriteContext D K} {origSource : Source D K} (writer : Source D K) {k : K}
    {rvalues : List F} (hne : rvalues ≠ d.getArraySourceKey origSource k) :
    ∃ others, (d.filesOf k).Perm
        (d.getArraySourceKey (ctx.sourceOverride.getD origSource) k ++ others) ∧
      ((d.writeEntry ctx origSource writer k rvalues).filesOf k).Perm (rvalues ++ others) := by
  set target := ctx.sourceOverride.getD origSource
  set d' := d.writeEntry ctx origSource writer k rvalues
  have hread : ∀ source, d'.getArraySourceKey source k =
      if source = target then rvalues else d.getArraySourceKey source k := by
    intro source
    rw [getArraySourceKey_written h writer hne]
    by_cases hs : source = target
    · rw [if_pos hs, if_pos ⟨rfl, hs⟩]
    · rw [if_neg hs, if_neg fun hand => hs hand.2]
  obtain ⟨found, hfound⟩ := exists_sources h k
  set sources := (insert target found).sort (· ≤ ·) with hsources
  have hsorted : sources.Pairwise (· < ·) := (insert target found).sortedLT_sort.pairwise
  have hmem : ∀ source, source ∈ sources ↔ source = target ∨ source ∈ found := by
    intro source
    rw [hsources, Finset.mem_sort, Finset.mem_insert]
  have hfiles : d.filesOf k = sources.flatMap fun source => d.getArraySourceKey source k := by
    apply filesOf_sources h k hsorted
    exact fun source hs => (hmem source).mpr (Or.inr (hfound source hs))
  have hfiles' : d'.filesOf k = sources.flatMap fun source => d'.getArraySourceKey source k := by
    apply filesOf_sources (sound_writeEntry h ctx origSource writer k rvalues) k hsorted
    intro source hs
    rw [hread] at hs
    rw [hmem]
    by_cases hst : source = target
    · exact Or.inl hst
    · rw [if_neg hst] at hs
      exact Or.inr (hfound source hs)
  have hperm : sources.Perm (target :: sources.erase target) :=
    perm_cons_erase ((hmem target).mpr (Or.inl rfl))
  have hnodup : sources.Nodup := hsorted.imp fun hlt => hlt.ne
  refine ⟨(sources.erase target).flatMap fun source => d.getArraySourceKey source k, ?_, ?_⟩
  · rw [hfiles]
    exact hperm.flatMap_right _
  · have hsame : ((sources.erase target).flatMap fun source => d'.getArraySourceKey source k) =
        (sources.erase target).flatMap fun source => d.getArraySourceKey source k := by
      apply flatMap_congr
      intro source hs
      rw [hread, if_neg ((List.Nodup.mem_erase_iff hnodup).mp hs).1]
    have htarget : d'.getArraySourceKey target k = rvalues := by
      rw [hread, if_pos rfl]
    rw [hfiles', ← hsame]
    conv_rhs => rw [← htarget]
    exact hperm.flatMap_right _

/-- The reduced array of a touched key is that of its files; the others have none. -/
structure Reduced (r : ReducerFns F) (touched : K → Prop) (d : EagerDir D K F) : Prop where
  fns : ∃ compact, d.reducer = some compact ∧ (compact.init, compact.update) = r
  reduced : ∀ k, touched k → d.getArrayRaw k = r.1 (d.filesOf k)
  untouched : ∀ k, ¬touched k → d.getArrayRaw k = [] ∧ d.filesOf k = []

theorem getArrayRaw_some {d : EagerDir D K F} {compact : Reducer K F}
    (h : d.reducer = some compact) (k : K) : d.getArrayRaw k = compact.getArray k := by
  unfold getArrayRaw
  rw [h]

theorem Reduced.congr {r : ReducerFns F} {touched : K → Prop} {d d' : EagerDir D K F}
    (h : d.Reduced r touched) (hred : d'.reducer = d.reducer)
    (hfiles : ∀ k, d'.filesOf k = d.filesOf k) : d'.Reduced r touched := by
  have hraw : ∀ k, d'.getArrayRaw k = d.getArrayRaw k := by
    obtain ⟨compact, hc, _⟩ := h.fns
    intro k
    rw [getArrayRaw_some hc, getArrayRaw_some (hred.trans hc)]
  constructor
  · rw [hred]
    exact h.fns
  · intro k hk
    rw [hraw, hfiles]
    exact h.reduced k hk
  · intro k hk
    rw [hraw, hfiles]
    exact h.untouched k hk

section Write
variable [DecidableEq F]

theorem Reduced.writeEntry {r : ReducerFns F} (hr : Lawful r) {touched : K → Prop}
    {d : EagerDir D K F} (h : d.Reduced r touched) (hv : d.Sound) {ctx : WriteContext D K}
    {origSource writer : Source D K} {k : K} {rvalues : List F}
    (hne : rvalues ≠ d.getArraySourceKey origSource k)
    (hsame : d.getArraySourceKey (ctx.sourceOverride.getD origSource) k =
      d.getArraySourceKey origSource k) :
    (d.writeEntry ctx origSource writer k rvalues).Reduced r fun k' => k' = k ∨ touched k' := by
  set d' := d.writeEntry ctx origSource writer k rvalues with hd'
  obtain ⟨compact, hc, hfns⟩ := h.fns
  have hred : d'.reducer = some (compact.write k (d.getArraySourceKey origSource k) rvalues
      (d'.filesOf k)) := by
    rw [hd']
    unfold EagerDir.writeEntry
    simp only
    rw [if_neg hne, hc]
    rfl
  have hother : ∀ k', k' ≠ k → d'.filesOf k' = d.filesOf k' := by
    intro k' hk
    apply (sound_writeEntry hv ctx origSource writer k rvalues).filesOf_congr hv
    intro source
    rw [getArraySourceKey_written hv writer hne, if_neg fun hand => hk hand.1]
  have hrawother : ∀ k', k' ≠ k → d'.getArrayRaw k' = d.getArrayRaw k' := by
    intro k' hk
    rw [getArrayRaw_some hred, getArrayRaw_some hc]
    unfold Reducer.getArray Reducer.write
    simp only
    rw [SortedMap.maybeGet_set, if_neg hk]
    rfl
  have hraw : d'.getArrayRaw k = r.1 (d'.filesOf k) := by
    have hwritten : ∃ others, (d.filesOf k).Perm
        (d.getArraySourceKey (ctx.sourceOverride.getD origSource) k ++ others) ∧
          (d'.filesOf k).Perm (rvalues ++ others) := filesOf_written hv writer hne
    obtain ⟨others, hxs, hys⟩ := hwritten
    rw [hsame] at hxs
    have hinit : compact.init = r.1 := congrArg Prod.fst hfns
    have hupdate : compact.update = r.2 := congrArg Prod.snd hfns
    rw [getArrayRaw_some hred]
    unfold Reducer.getArray Reducer.write
    simp only
    rw [SortedMap.maybeGet_set, if_pos rfl]
    change (if (compact.getArray k).isEmpty then _ else _) = r.1 (d'.filesOf k)
    rw [hinit, hupdate, ← getArrayRaw_some hc]
    by_cases hstate : d.getArrayRaw k = []
    · rw [hstate]
      rfl
    · have htouched : touched k := by
        by_contra hno
        exact hstate (h.untouched k hno).1
      have hold := h.reduced k htouched
      rw [if_neg (by simpa using hstate)]
      cases hu : r.2 (d.getArrayRaw k) (d.getArraySourceKey origSource k) rvalues with
      | none => rfl
      | some state =>
        rw [hold] at hu hstate
        exact hr _ _ _ _ _ _ hxs hys hstate hu
  constructor
  · exact ⟨_, hred, hfns⟩
  · intro k' hk'
    by_cases hk : k' = k
    · rw [hk]
      exact hraw
    · rw [hrawother k' hk, hother k' hk]
      exact h.reduced k' (hk'.resolve_left hk)
  · intro k' hk'
    have hk : k' ≠ k := fun he => hk' (Or.inl he)
    rw [hrawother k' hk, hother k' hk]
    exact h.untouched k' fun ht => hk' (Or.inr ht)

variable {r : ReducerFns F} {touched : K → Prop}

theorem Reduced.touched_of_files {d : EagerDir D K F}
    (h : d.Reduced r touched) (hv : d.Sound) {k : K} {source : Source D K}
    (hne : d.getArraySourceKey source k ≠ []) : touched k := by
  by_contra hno
  exact hne (hv.filesOf_eq_nil.mp (h.untouched k hno).2 source)

theorem Reduced.mono {touched touched' : K → Prop} {d : EagerDir D K F}
    (h : d.Reduced r touched) (heq : ∀ k, touched' k ↔ touched k) : d.Reduced r touched' := by
  have hsame : touched' = touched := funext fun k => propext (heq k)
  rw [hsame]
  exact h

theorem Reduced.reset {r : ReducerFns F} (hr : Lawful r) {touched : K → Prop} {d : EagerDir D K F}
    (h : d.Reduced r touched) (hv : d.Sound) {ctx : WriteContext D K} {writer : Source D K}
    {keep : SortedSet K} (hown : Owned ctx.sourceOverride keep d) :
    (d.reset ctx writer keep).Reduced r touched ∧ (d.reset ctx writer keep).Sound := by
  have hall : (d.reset ctx writer keep).Reduced r touched ∧ (d.reset ctx writer keep).Sound ∧
      Owned ctx.sourceOverride keep (d.reset ctx writer keep) := by
    apply reset_induction
      (P := fun d' => d'.Reduced r touched ∧ d'.Sound ∧ Owned ctx.sourceOverride keep d')
    · intro d' source key hkeep hd'
      obtain ⟨hreduced, hsound, howned⟩ := hd'
      by_cases hne : [] = d'.getArraySourceKey source key
      · rw [writeEntry_same hne]
        exact ⟨hreduced, hsound, howned⟩
      · have htarget : ctx.sourceOverride.getD source = source := by
          cases hov : ctx.sourceOverride with
          | none => rfl
          | some owner => exact (howned owner hov key source hkeep (Ne.symm hne)).symm
        refine ⟨?_, sound_writeEntry hsound ctx source writer key [], ?_⟩
        · apply (hreduced.writeEntry hr hsound hne (by rw [htarget])).mono
          intro k
          refine ⟨Or.inr, ?_⟩
          rintro (hk | hk)
          · rw [hk]
            exact hreduced.touched_of_files hsound (Ne.symm hne)
          · exact hk
        · exact howned.writeEntry hsound hne
    · exact ⟨h, hv, hown⟩
  exact ⟨hall.1, hall.2.1⟩

/-- What a step must respect: a write under an override goes to a source with the array
it is compared with, a reset under one clears the rows of that source, and a purge
finds no two rows of one key and source. -/
def Clocked.KeepsReduced (s : Clocked D K F) : Step D K F → Prop
  | .write sourceOverride origSource _ key values =>
    values ≠ s.dir.getArraySourceKey origSource key →
      s.dir.getArraySourceKey (sourceOverride.getD origSource) key =
        s.dir.getArraySourceKey origSource key
  | .reset sourceOverride _ keep => Owned sourceOverride keep s.dir
  | .purge _ => s.dir.fixedData.Distinct
  | _ => True

def Clocked.Writes (s : Clocked D K F) (k : K) : Step D K F → Prop
  | .write _ origSource _ key values =>
    key = k ∧ values ≠ s.dir.getArraySourceKey origSource key
  | _ => False

def Clocked.EverWrites (s : Clocked D K F) (k : K) : List (Step D K F) → Prop
  | [] => False
  | st :: rest => s.Writes k st ∨ ∃ s', s.step st = some s' ∧ s'.EverWrites k rest

structure Clocked.Kept (r : ReducerFns F) (touched : K → Prop) (s : Clocked D K F) : Prop where
  reduced : s.dir.Reduced r touched
  sound : s.dir.Sound
  writable : s.dir.fixedData.Distinct → s.dir.Writable s.now

theorem reset_fixedData (d : EagerDir D K F) (ctx : WriteContext D K) (writer : Source D K)
    (keep : SortedSet K) : (d.reset ctx writer keep).fixedData = d.fixedData := by
  apply reset_induction (P := fun d' => d'.fixedData = d.fixedData)
  · intro d' source key _ hd'
    exact (writeEntry_frame d' ctx source writer key []).1.trans hd'
  · rfl

theorem Clocked.Kept.write {r : ReducerFns F} (hr : Lawful r) {touched : K → Prop}
    {s : Clocked D K F} (h : s.Kept r touched) (sourceOverride : Option (Source D K))
    (origSource writer : Source D K) (key : K) (values : List F)
    (hk : s.KeepsReduced (.write sourceOverride origSource writer key values)) :
    (s.dir.writeEntry ⟨s.now, sourceOverride⟩ origSource writer key values).Reduced r
      fun k => touched k ∨ key = k ∧ values ≠ s.dir.getArraySourceKey origSource key := by
  by_cases hne : values = s.dir.getArraySourceKey origSource key
  · rw [writeEntry_same hne]
    exact h.reduced.mono fun k => or_iff_left fun hw => hw.2 hne
  · have hsame : s.dir.getArraySourceKey
        ((⟨s.now, sourceOverride⟩ : WriteContext D K).sourceOverride.getD origSource) key =
          s.dir.getArraySourceKey origSource key := hk hne
    have hwritten : (s.dir.writeEntry ⟨s.now, sourceOverride⟩ origSource writer key values).Reduced r
        fun k' => k' = key ∨ touched k' := h.reduced.writeEntry hr h.sound hne hsame
    apply hwritten.mono
    intro k
    rw [and_iff_left hne, or_comm, eq_comm]

theorem Clocked.Kept.purge {r : ReducerFns F} {touched : K → Prop} {s s' : Clocked D K F}
    {limit : ℕ} (h : s.Kept r touched) (hk : s.dir.fixedData.Distinct)
    (hs : s.step (.purge limit) = some s') : s'.Kept r touched := by
  have hvalid : s.dir.Valid := (h.writable hk).1
  have hw' : s'.dir.Writable s'.now := writable_step (h.writable hk) hs
  obtain ⟨d', hp, he⟩ := Option.map_eq_some_iff.mp hs
  have hd' : s'.dir = d' := by rw [← he]
  refine ⟨?_, hw'.1.sound, fun _ => hw'⟩
  rw [hd'] at hw' ⊢
  have hred : d'.reducer = s.dir.reducer := by
    rcases purge_cases hp with hsame | ⟨fixedOld, hsame⟩
    · rw [hsame]
    · rw [hsame]
  have hread : ∀ source key, d'.getArraySourceKey source key =
      s.dir.getArraySourceKey source key := getArraySourceKey_purge hvalid hp
  exact h.reduced.congr hred fun k => filesOf_congr hw'.1 hvalid fun source => hread source k

theorem kept_step (hr : Lawful r) {s s' : Clocked D K F}
    {st : Step D K F} (h : s.Kept r touched) (hk : s.KeepsReduced st) (hs : s.step st = some s') :
    s'.Kept r fun k => touched k ∨ s.Writes k st := by
  have hwritable : (s'.dir.fixedData.Distinct → s.dir.fixedData.Distinct) →
      s'.dir.fixedData.Distinct → s'.dir.Writable s'.now :=
    fun hback hd => writable_step (h.writable (hback hd)) hs
  cases st with
  | advance ticks =>
    rw [← Option.some.inj hs] at hwritable ⊢
    exact ⟨h.reduced.mono fun k => or_iff_left id, h.sound, hwritable id⟩
  | write sourceOverride origSource writer key values =>
    rw [← Option.some.inj hs] at hwritable ⊢
    refine ⟨h.write hr sourceOverride origSource writer key values hk,
      sound_writeEntry h.sound _ origSource writer key values, hwritable ?_⟩
    change (s.dir.writeEntry _ origSource writer key values).fixedData.Distinct → _
    rw [(writeEntry_frame s.dir _ origSource writer key values).1]
    exact id
  | record source minfo =>
    rw [← Option.some.inj hs] at hwritable ⊢
    refine ⟨?_, ⟨h.sound.coherent, h.sound.masked⟩, hwritable id⟩
    have hsame : (s.dir.setOld source minfo).Reduced r touched :=
      h.reduced.congr rfl fun _ => rfl
    exact hsame.mono fun k => or_iff_left id
  | reset sourceOverride writer keep =>
    rw [← Option.some.inj hs] at hwritable ⊢
    have hown : Owned (⟨s.now, sourceOverride⟩ : WriteContext D K).sourceOverride keep s.dir := hk
    have hreset : (s.dir.reset ⟨s.now, sourceOverride⟩ writer keep).Reduced r touched ∧
        (s.dir.reset ⟨s.now, sourceOverride⟩ writer keep).Sound :=
      h.reduced.reset hr h.sound hown
    refine ⟨hreset.1.mono fun k => or_iff_left id, hreset.2, hwritable ?_⟩
    change (s.dir.reset _ writer keep).fixedData.Distinct → _
    rw [reset_fixedData]
    exact id
  | purge limit =>
    have hkept := h.purge hk hs
    exact ⟨hkept.reduced.mono fun k => or_iff_left id, hkept.sound, hkept.writable⟩

theorem kept_run (hr : Lawful r) {steps : List (Step D K F)} {s s' : Clocked D K F}
    (h : s.Kept r touched)
    (hk : s.Along Clocked.KeepsReduced steps) (hrun : s.run steps = some s') :
    s'.Kept r fun k => touched k ∨ s.EverWrites k steps := by
  induction steps generalizing s touched with
  | nil =>
    rw [← Option.some.inj hrun]
    exact ⟨h.reduced.mono fun k => or_iff_left id, h.sound, h.writable⟩
  | cons st rest ih =>
    unfold Clocked.run at hrun
    rw [foldlM_cons] at hrun
    obtain ⟨s₁, hs₁, hrest⟩ := Option.bind_eq_some_iff.mp hrun
    have hlast := ih (kept_step hr h hk.1 hs₁) (hk.2 s₁ hs₁) hrest
    refine ⟨hlast.reduced.mono ?_, hlast.sound, hlast.writable⟩
    intro k
    change touched k ∨ (s.Writes k st ∨ ∃ s', s.step st = some s' ∧ s'.EverWrites k rest) ↔ _
    simp only [hs₁, Option.some.injEq, exists_eq_left', or_assoc]

def Creation.HasRow (c : Creation D K F) (k : K) : Prop := ∃ w ∈ c.writes, w.1 = k

theorem reducer_make {c : Creation D K F} {s : Clocked D K F} (hs : c.make = some s) :
    s.dir.reducer =
      c.reducer.map fun r => Reducer.create (FixedDir.create c.acc) r.1 r.2 := by
  unfold Creation.make create at hs
  rw [Option.map_map, Option.map_eq_some_iff] at hs
  obtain ⟨fixedOld, _, rfl⟩ := hs
  rfl

theorem kept_make {c : Creation D K F} (hr : c.reducer = some r)
    {s : Clocked D K F} (hs : c.make = some s) : s.Kept r c.HasRow := by
  have hmade := make_made hs
  have hnone : ∀ k, (s.dir.data.value k).items = [] := by
    intro k
    rw [hmade.data]
    exact DataMap.value_of_none (DataMap.maybeGet_empty k)
  have hreducer : s.dir.reducer = some (Reducer.create (FixedDir.create c.acc) r.1 r.2) := by
    rw [reducer_make hs, hr]
    rfl
  have hrows : ∀ k, c.HasRow k ↔ ∃ row ∈ (FixedDir.create c.acc).rows, row.key = k := by
    intro k
    unfold Creation.HasRow Creation.acc
    simp only [FixedDir.mem_rows_create, mem_map]
    constructor
    · rintro ⟨w, hw, hk⟩
      exact ⟨_, ⟨w, hw, rfl⟩, hk⟩
    · rintro ⟨row, ⟨w, hw, rfl⟩, hk⟩
      exact ⟨w, hw, hk⟩
  have hfiles : ∀ k, s.dir.filesOf k = valuesOf (FixedDir.create c.acc).rows k := by
    intro k
    rw [filesOf_fixed]
    · rw [hmade.fixedData]
      rfl
    · rw [hmade.data]
      exact not_mem_nil
  obtain ⟨hsorted, hgroups⟩ := groupRows_spec (FixedDir.create c.acc).keys_sorted
  set compact := Reducer.create (FixedDir.create c.acc) r.1 r.2 with hcompact
  have hfixed : compact.fixed.Pairwise fun a b => a.1 < b.1 := by
    change (List.map _ _).Pairwise _
    rw [pairwise_map]
    exact hsorted
  have hget : ∀ k, s.dir.getArrayRaw k = compact.getFixed k := fun k => getArrayRaw_some hreducer k
  refine ⟨⟨⟨compact, hreducer, rfl⟩, ?_, ?_⟩, ?_, ?_⟩
  · intro k hk
    rw [hget, hfiles]
    apply Reducer.getFixed_of_mem hfixed
    exact mem_map.mpr ⟨(k, valuesOf _ k), (hgroups _).mpr ⟨(hrows k).mp hk, rfl⟩, rfl⟩
  · intro k hk
    have hno : ∀ row ∈ (FixedDir.create c.acc).rows, row.key ≠ k :=
      fun row hrow he => hk ((hrows k).mpr ⟨row, hrow, he⟩)
    refine ⟨?_, by rw [hfiles, valuesOf_eq_nil hno]⟩
    rw [hget]
    by_contra hne
    obtain ⟨x, hx, hxk⟩ := mem_map.mp (getFixed_mem hne)
    obtain ⟨⟨row, hrow, he⟩, _⟩ := (hgroups x).mp hx
    exact hno row hrow (he.trans (congrArg Prod.fst hxk))
  · constructor
    · intro k
      rw [hmade.data]
      exact DataMapValue.coherent_empty
    · intro k row _ _ e he
      rw [hnone k] at he
      cases he
  · intro hdistinct
    refine ⟨⟨hdistinct, ?_, ?_, ?_⟩, ?_, ?_⟩
    · rw [hmade.data]
      exact DataMap.valid_empty
    · intro k e he
      rw [hnone k] at he
      cases he
    · intro k row _ _ e he
      rw [hnone k] at he
      cases he
    · rw [hmade.fixedData, hmade.now]
      exact creation_until
    · intro k e he
      rw [hnone k] at he
      cases he

/-- After any run, the reduced array of a key is that of a directory made from the final
contents exactly when the key has a value, or nothing reduces to nothing, or the key
never had a row or a write. -/
theorem run_reduced_iff (files : IntFiles F) (r : ReducerFns F) (hship : Shipped files r)
    (c : Creation D K F) (hr : c.reducer = some r) {s s' : Clocked D K F} (hs : c.make = some s)
    (steps : List (Step D K F)) (hk : s.Along Clocked.KeepsReduced steps)
    (hrun : s.run steps = some s') (fresh : Creation D K F) (hfr : fresh.reducer = some r)
    (hvalues : ∀ w ∈ fresh.writes, w.2.1 ≠ []) {f : Clocked D K F} (hf : fresh.make = some f)
    (hsame : ∀ source key, f.dir.getArraySourceKey source key = s'.dir.getArraySourceKey source key)
    (key : K) :
    s'.dir.getArrayRaw key = f.dir.getArrayRaw key ↔
      (∃ source, s'.dir.getArraySourceKey source key ≠ []) ∨ r.1 [] = [] ∨
        (¬c.HasRow key ∧ ¬s.EverWrites key steps) := by
  have hkept := kept_run hship.lawful (kept_make hr hs) hk hrun
  have hfresh := kept_make hfr hf
  have hfiles : f.dir.filesOf key = s'.dir.filesOf key :=
    hfresh.sound.filesOf_congr hkept.sound fun source => hsame source key
  have hnonempty : (∃ source, s'.dir.getArraySourceKey source key ≠ []) ↔
      s'.dir.filesOf key ≠ [] := by
    rw [Ne, hkept.sound.filesOf_eq_nil]
    push Not
    exact Iff.rfl
  have hrow : fresh.HasRow key ↔ s'.dir.filesOf key ≠ [] := by
    rw [← hfiles, Ne, hfresh.sound.filesOf_eq_nil]
    push Not
    constructor
    · rintro ⟨w, hw, hk⟩
      exact ⟨w.2.2, (mem_valued_make hf (key, w.2.2)).mpr ⟨w, hw, by rw [hk], hvalues w hw⟩⟩
    · rintro ⟨source, hne⟩
      obtain ⟨w, hw, hp, _⟩ := (mem_valued_make hf (key, source)).mp hne
      exact ⟨w, hw, congrArg Prod.fst hp⟩
  rw [hnonempty]
  by_cases hnil : s'.dir.filesOf key = []
  · have hfraw := (hfresh.reduced.untouched key fun h => hrow.mp h hnil).1
    rw [hfraw]
    by_cases ht : c.HasRow key ∨ s.EverWrites key steps
    · rw [hkept.reduced.reduced key ht, hnil]
      constructor
      · exact fun h => Or.inr (Or.inl h)
      · rintro (h | h | ⟨h, h'⟩)
        · exact absurd rfl h
        · exact h
        · exact absurd ht (not_or.mpr ⟨h, h'⟩)
    · rw [(hkept.reduced.untouched key ht).1]
      exact iff_of_true rfl (Or.inr (Or.inr (not_or.mp ht)))
  · have ht : c.HasRow key ∨ s.EverWrites key steps := by
      by_contra hno
      exact hnil (hkept.reduced.untouched key hno).2
    rw [hkept.reduced.reduced key ht, hfresh.reduced.reduced key (hrow.mpr hnil), hfiles]
    exact iff_of_true rfl (Or.inl hnil)

end Write

def plainFiles : IntFiles ℤ := ⟨id, id, fun _ => rfl⟩

def counting (writes : List (PlainKey × List ℤ × Source ℕ PlainKey)) : Creation ℕ PlainKey ℤ where
  dirName := 1
  input := true
  tick := 0
  creator := none
  writes := writes
  oldVec := []
  reducer := some (countReducer plainFiles)

def addThenRemove : List (Step ℕ PlainKey ℤ) :=
  [.write none (sampleSource 2) (sampleSource 2) (.iid 1) [6],
    .write none (sampleSource 2) (sampleSource 2) (.iid 1) []]

theorem reads_addThenRemove {writes : List (PlainKey × List ℤ × Source ℕ PlainKey)}
    {s s' : Clocked ℕ PlainKey ℤ} (hs : (counting writes).make = some s)
    (hno : ∀ w ∈ writes, w.2.2 ≠ sampleSource 2) (hrun : s.run addThenRemove = some s')
    (source : Source ℕ PlainKey) (key : PlainKey) :
    s.dir.getArraySourceKey source key = s'.dir.getArraySourceKey source key := by
  have hsound : s.dir.Sound := (kept_make rfl hs).sound
  rw [← Option.some.inj hrun]
  have hfirst := sound_writeEntry hsound ⟨s.now, none⟩ (sampleSource 2) (sampleSource 2)
    (.iid 1) [6]
  change _ = (writeEntry _ ⟨s.now, none⟩ (sampleSource 2) (sampleSource 2) (.iid 1)
    []).getArraySourceKey source key
  rw [getArraySourceKey_writeEntry hfirst rfl, getArraySourceKey_writeEntry hsound rfl]
  by_cases hp : key = .iid 1 ∧ source = sampleSource 2
  · rw [if_pos hp]
    by_contra hne
    obtain ⟨w, hw, he, _⟩ := (mem_valued_make hs (key, source)).mp hne
    exact hno w hw ((congrArg Prod.snd he).trans hp.2)
  · rw [if_neg hp, if_neg hp]

theorem make_counting (writes : List (PlainKey × List ℤ × Source ℕ PlainKey)) :
    ∃ s, (counting writes).make = some s := by
  have hnodup : ((counting writes).oldVec.map Prod.fst).Nodup := nodup_nil
  obtain ⟨m, hm, _⟩ := FixedSourceMap.create_holds hnodup rfl true
  unfold Creation.make create
  rw [hm]
  exact ⟨_, rfl⟩

theorem along_addThenRemove (s : Clocked ℕ PlainKey ℤ) :
    s.Along Clocked.KeepsReduced addThenRemove :=
  ⟨fun _ => rfl, fun _ _ => ⟨fun _ => rfl, fun _ _ => trivial⟩⟩

theorem run_reduced_iff_addThenRemove :
    ∃ s s', (counting [(.iid 1, [5], sampleSource 1)]).make = some s ∧
      s.run addThenRemove = some s' ∧ s'.dir.getArrayRaw (.iid 1) = s.dir.getArrayRaw (.iid 1) := by
  obtain ⟨s, hs⟩ := make_counting [(.iid 1, [5], sampleSource 1)]
  have hsame : ∀ s', s.run addThenRemove = some s' → ∀ source key,
      s.dir.getArraySourceKey source key = s'.dir.getArraySourceKey source key :=
    fun _ hrun => reads_addThenRemove hs (by decide) hrun
  refine ⟨s, _, hs, rfl, ?_⟩
  apply (run_reduced_iff plainFiles _ Shipped.count _ rfl hs addThenRemove
    (along_addThenRemove s) rfl _ rfl (by decide) hs (hsame _ rfl) (.iid 1)).mpr
  left
  refine ⟨sampleSource 1, ?_⟩
  rw [← hsame _ rfl]
  exact (mem_valued_make hs (.iid 1, sampleSource 1)).mpr
    ⟨_, mem_singleton_self _, rfl, by decide⟩

theorem removed_value_counts_zero :
    ∃ s s', (counting []).make = some s ∧ s.run addThenRemove = some s' ∧
      (∀ source key, s.dir.getArraySourceKey source key = s'.dir.getArraySourceKey source key) ∧
        s'.dir.getArrayRaw (.iid 1) = [0] ∧ s.dir.getArrayRaw (.iid 1) = [] := by
  obtain ⟨s, hs⟩ := make_counting []
  have hkept := kept_make rfl hs
  have hnorow : ¬(counting []).HasRow (.iid 1) := by
    rintro ⟨w, hw, _⟩
    cases hw
  have hsame : ∀ s', s.run addThenRemove = some s' → ∀ source key,
      s.dir.getArraySourceKey source key = s'.dir.getArraySourceKey source key :=
    fun _ hrun => reads_addThenRemove hs (by decide) hrun
  obtain ⟨s', hs'⟩ : ∃ s', s.run addThenRemove = some s' := ⟨_, rfl⟩
  have hship : Shipped plainFiles (countReducer plainFiles) := Shipped.count
  have hlast := kept_run hship.lawful hkept (along_addThenRemove s) hs'
  have hnone : s.dir.filesOf (.iid 1) = [] := (hkept.reduced.untouched _ hnorow).2
  have hfiles : s'.dir.filesOf (.iid 1) = [] := by
    rw [← hnone]
    exact hlast.sound.filesOf_congr hkept.sound fun source => (hsame s' hs' source _).symm
  refine ⟨s, s', hs, hs', hsame s' hs', ?_, (hkept.reduced.untouched _ hnorow).1⟩
  have hwrites : s.EverWrites (.iid 1) addThenRemove := by
    left
    refine ⟨rfl, ?_⟩
    rw [hkept.sound.filesOf_eq_nil.mp hnone]
    exact cons_ne_nil _ _
  rw [hlast.reduced.reduced _ (Or.inr hwrites), hfiles]
  rfl

end EagerDir
end SkipPlatform
