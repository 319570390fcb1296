import SkipPlatform.EagerDirImport

set_option autoImplicit false
set_option linter.unusedSectionVars false

/-! The values and the tombstones of one source. They are two maps that every write edits
one after the other; the walks over both rely on their agreement. -/
namespace SkipPlatform
open List SortedMerge StoreSourceMap

namespace SortedMerge
variable {α β γ δ : Type}

theorem map_mergeBy (g : γ → δ) (cmp : α → β → Ordering) (left : α → γ) (right : β → γ)
    (both : α → β → γ) (as : List α) (bs : List β) :
    (mergeBy cmp left right both as bs).map g =
      mergeBy cmp (fun a => g (left a)) (fun b => g (right b)) (fun a b => g (both a b)) as bs := by
  fun_induction mergeBy cmp left right both as bs with
  | case1 bs =>
    rw [mergeBy, map_map]
    rfl
  | case2 as _ =>
    rw [mergeBy_nil, map_map]
    rfl
  | case3 a as b bs hlt ih => rw [mergeBy, hlt, map_cons, ih]
  | case4 a as b bs hgt ih => rw [mergeBy, hgt, map_cons, ih]
  | case5 a as b bs heq ih => rw [mergeBy, heq, map_cons, ih]

end SortedMerge

namespace DataMapValue
variable {S F : Type} [LinearOrder S]

theorem Coherent.agree {v : DataMapValue S F} (h : v.Coherent) {s w w' : S} {fs : List F}
    {t t' : ℕ} (hm : (s, (w, fs), t) ∈ v.map.itemsWithTick)
    (ht : (s, w', t') ∈ v.tombs.itemsWithTick) : t = t' ∧ fs = [] := by
  have he := h.mapEntry_eq hm ht rfl
  constructor
  · exact congrArg Entry.tick he
  · exact congrArg Entry.files he

theorem itemsAfter_sorted {v : DataMapValue S F} (h : v.Coherent) (limit : ℕ) :
    (v.itemsAfter limit).Pairwise fun a b => a.source < b.source := by
  rw [itemsAfter_eq h]
  exact v.items_sorted.filter _

end DataMapValue

namespace DataMap
variable {K S F : Type} [LinearOrder K] [LinearOrder S]

/-- The keys that the walk hands over; `none` is the violated invariant of a key whose
layers have different ticks. -/
def each (m : DataMap K S F) : Option (List K) :=
  (mergeBy (fun x y => compare x.1 y.1) (fun x => some x.1) (fun y => some y.1)
    (fun x y => if x.2.2 = y.2.2 then some x.1 else none)
    m.data.itemsWithTick m.tombs.itemsWithTick).mapM id

def Aligned (m : DataMap K S F) : Prop :=
  ∀ k v t w u, (k, v, t) ∈ m.data.itemsWithTick → (k, w, u) ∈ m.tombs.itemsWithTick → t = u

theorem aligned_empty : (empty : DataMap K S F).Aligned := by
  intro k v t w u hd
  cases hd

theorem aligned_set {m : DataMap K S F} (h : m.Aligned) (tick : ℕ) (key : K)
    (value : DataMapValue S F) : (m.set tick key value).Aligned := by
  intro k v t w u hd ht
  rcases (mem_setLayer m.data tick key value.map value.map.isEmpty _).mp hd with
    ⟨_, hd⟩ | ⟨hne, hd⟩
  · rcases (mem_setLayer m.tombs tick key value.tombs value.tombs.isEmpty _).mp ht with
      ⟨_, ht⟩ | ⟨hne, _⟩
    · have htick : t = tick := (Prod.mk.inj (Prod.mk.inj hd).2).2
      have hutick : u = tick := (Prod.mk.inj (Prod.mk.inj ht).2).2
      exact htick.trans hutick.symm
    · exact absurd (Prod.mk.inj hd).1 hne
  · rcases (mem_setLayer m.tombs tick key value.tombs value.tombs.isEmpty _).mp ht with
      ⟨_, ht⟩ | ⟨_, ht⟩
    · exact absurd (Prod.mk.inj ht).1 hne
    · exact h k v t w u hd ht

theorem mapM_some {α β : Type} (f : α → β) (xs : List α) :
    (xs.map fun x => some (f x)).mapM id = some (xs.map f) := by
  induction xs with
  | nil => rfl
  | cons x xs ih =>
    rw [map_cons, mapM_cons, ih]
    rfl

theorem each_eq {m : DataMap K S F} (h : m.Aligned) : m.each = some (m.items.map Prod.fst) := by
  rw [← mapM_some Prod.fst]
  unfold each items
  rw [map_mergeBy]
  congr 1
  apply mergeBy_congr
  intro x hx y hy
  constructor
  · rfl
  · intro hxy
    have hkey : x.1 = y.1 := compare_eq_iff_eq.mp hxy
    obtain ⟨k, v, t⟩ := x
    obtain ⟨k', w, u⟩ := y
    change k = k' at hkey
    subst hkey
    exact if_pos (h k v t w u hx hy)

end DataMap

namespace EagerDir
variable {D K F : Type} [LinearOrder D] [StoreKey K] [DecidableEq F]

/-- The directories that some order of creations, writes, records, resets, purges and
imports leads to. -/
inductive Reached : EagerDir D K F → Prop where
  | made {c : Creation D K F} {s : Clocked D K F} (hs : c.make = some s) : Reached s.dir
  | write {d : EagerDir D K F} (h : Reached d) (ctx : WriteContext D K)
      (origSource writer : Source D K) (key : K) (values : List F) :
      Reached (d.writeEntry ctx origSource writer key values)
  | record {d : EagerDir D K F} (h : Reached d) (source : Source D K) (minfo : MInfo D K) :
      Reached (d.setOld source minfo)
  | reset {d : EagerDir D K F} (h : Reached d) (ctx : WriteContext D K) (writer : Source D K)
      (keep : SortedSet K) : Reached (d.reset ctx writer keep)
  | purge {d d' : EagerDir D K F} (h : Reached d) {limit : ℕ} (hp : d.purge limit = some d') :
      Reached d'
  | imported {d inputDir : EagerDir D K F} (h : Reached d) (hi : Reached inputDir)
      (ctx : WriteContext D K) (gen : D → Source D K) (tick : ℕ) :
      Reached (d.importInto ctx gen tick inputDir)

variable {d : EagerDir D K F} {P : EagerDir D K F → Prop}

theorem writeBindings_induction
    (hwrite : ∀ d ctx origSource writer key values, P d →
      P (d.writeEntry ctx origSource writer key values))
    (ctx : WriteContext D K) (bindings : List (Binding D K F)) (h : P d) :
    P (writeBindings ctx d bindings) := by
  unfold writeBindings
  induction bindings generalizing d with
  | nil => exact h
  | cons b bindings ih =>
    rw [foldl_cons]
    exact ih (hwrite d ctx b.2.1 b.2.2.1 b.1 b.2.2.2 h)

/-- What holds of every new directory, and is kept by every write, record and purge, holds
of every reached directory. -/
theorem Reached.rule
    (hmade : ∀ (c : Creation D K F) s, c.make = some s → P s.dir)
    (hwrite : ∀ d ctx origSource writer key values, P d →
      P (d.writeEntry ctx origSource writer key values))
    (hrecord : ∀ d source minfo, P d → P (d.setOld source minfo))
    (hpurge : ∀ d d' limit, P d → d.purge limit = some d' → P d')
    (h : Reached d) : P d := by
  have hreset : ∀ d ctx writer keep, P d → P (d.reset ctx writer keep) := by
    intro d ctx writer keep hd
    exact reset_induction (fun d source key _ hd => hwrite d ctx source writer key [] hd) hd
  induction h with
  | made hs => exact hmade _ _ hs
  | write _ ctx origSource writer key values ih =>
    exact hwrite _ ctx origSource writer key values ih
  | record _ source minfo ih => exact hrecord _ source minfo ih
  | reset _ ctx writer keep ih => exact hreset _ ctx writer keep ih
  | purge _ hp ih => exact hpurge _ _ _ ih hp
  | @imported d inputDir _ _ ctx gen tick _ ihi =>
    unfold importInto unsafeWriteArraySourceMany
    have hwritten := writeBindings_induction hwrite ctx
      (d.importEntries tick (d.getChangesAfter tick).2) ihi
    dsimp only
    split
    · exact hwritten
    · exact hreset _ ctx _ _ hwritten

/-- What holds without later writes, and is kept by every write and record, holds of
every reached directory. -/
theorem Reached.induct (hempty : ∀ d, d.data = .empty → P d)
    (hwrite : ∀ d ctx origSource writer key values, P d →
      P (d.writeEntry ctx origSource writer key values))
    (hrecord : ∀ d source minfo, P d → P (d.setOld source minfo))
    (h : Reached d) : P d := by
  apply h.rule (P := P)
  · exact fun c s hs => hempty _ (make_made hs).data
  · exact hwrite
  · exact hrecord
  · intro d d' limit hd hp
    rcases purge_cases hp with heq | ⟨fixedOld, heq⟩
    · rw [heq]
      exact hd
    · rw [heq]
      exact hempty _ rfl

theorem sound_of_empty (h : d.data = .empty) : d.Sound := by
  have hnone : ∀ k, (d.data.value k).items = [] := by
    intro k
    rw [h]
    exact DataMap.value_of_none (DataMap.maybeGet_empty k)
  constructor
  · intro k
    rw [h]
    exact DataMapValue.coherent_empty
  · intro k r _ _ e he
    rw [hnone k] at he
    cases he

theorem Reached.sound (h : Reached d) : d.Sound := by
  apply h.induct (P := Sound)
  · exact fun d hd => sound_of_empty hd
  · exact fun d ctx origSource writer key values hd =>
      sound_writeEntry hd ctx origSource writer key values
  · exact fun d source minfo hd => ⟨hd.coherent, hd.masked⟩

theorem aligned_writeEntry (h : d.data.Aligned) (ctx : WriteContext D K)
    (origSource writer : Source D K) (k : K) (rvalues : List F) :
    (d.writeEntry ctx origSource writer k rvalues).data.Aligned := by
  by_cases hne : rvalues = d.getArraySourceKey origSource k
  · rw [writeEntry_same hne]
    exact h
  · rw [writeEntry_data hne]
    exact DataMap.aligned_set h _ _ _

theorem Reached.aligned (h : Reached d) : d.data.Aligned := by
  apply h.induct (P := fun d => d.data.Aligned)
  · intro d hd
    rw [hd]
    exact DataMap.aligned_empty
  · exact fun d ctx origSource writer key values hd =>
      aligned_writeEntry hd ctx origSource writer key values
  · exact fun d source minfo hd => hd

theorem Reached.coherent {d : EagerDir D K F} (h : Reached d) {key : K}
    {v : DataMapValue (Source D K) F} (hv : d.data.maybeGet key = some v) : v.Coherent := by
  have hvalue : d.data.value key = v := by
    unfold DataMap.value
    rw [hv]
    rfl
  rw [← hvalue]
  exact h.sound.coherent key

/-- In every reached directory the two maps of a key agree on the sources they share, the
walk over the keys does not fail, and the walks over the sources of a key yield every
source once, in order, as a lookup finds it. -/
theorem reached_masked_coherent {d : EagerDir D K F} (h : Reached d) :
    d.data.each = some (d.data.items.map Prod.fst) ∧
      ∀ {key v}, d.data.maybeGet key = some v →
        (∀ {s w fs t w' t'}, (s, (w, fs), t) ∈ v.map.itemsWithTick →
          (s, w', t') ∈ v.tombs.itemsWithTick → t = t' ∧ fs = []) ∧
        (v.items.Pairwise fun a b => a.source < b.source) ∧
        (∀ e, e ∈ v.items ↔ e ∈ v.map.itemsWithTick.map DataMapValue.mapEntry ∨
          e ∈ v.tombs.itemsWithTick.map DataMapValue.tombEntry) ∧
        (∀ limit, (v.itemsAfter limit).Pairwise (fun a b => a.source < b.source) ∧
          v.itemsAfter limit = v.items.filter fun e => decide (limit ≤ e.tick)) ∧
        ∀ source files, v.maybeGet source = some files ↔
          ∃ e ∈ v.items, e.source = source ∧ e.files = files := by
  constructor
  · exact DataMap.each_eq h.aligned
  · intro key v hv
    have hc := h.coherent hv
    refine ⟨hc.agree, v.items_sorted, DataMapValue.mem_items hc, ?_, ?_⟩
    · exact fun limit => ⟨DataMapValue.itemsAfter_sorted hc limit, DataMapValue.itemsAfter_eq hc limit⟩
    · exact fun source files => DataMapValue.maybeGet_eq_some hc

theorem reached_masked_coherent_dropRow : ∃ s, collected.make = some s ∧
    (s.dir.writeEntry ⟨1, none⟩ (sampleSource 1) (sampleSource 1) (.iid 1) []).data.each =
      some ((s.dir.writeEntry ⟨1, none⟩ (sampleSource 1) (sampleSource 1) (.iid 1)
        []).data.items.map Prod.fst) := by
  obtain ⟨s, hs, _⟩ := make_inv (c := collected) ⟨by decide, by decide, rfl⟩
  have hreached := (Reached.made hs).write ⟨1, none⟩ (sampleSource 1) (sampleSource 1) (.iid 1) []
  exact ⟨s, hs, (reached_masked_coherent hreached).1⟩

end EagerDir
end SkipPlatform
