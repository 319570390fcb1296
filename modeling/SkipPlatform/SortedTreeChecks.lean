import SkipPlatform.SortedTreeLevels

set_option autoImplicit false

/-! `checkInvariants` on the results of the operations. `filter` and `mergeWith2` put together
halves of any heights with the one rotation of `balance`. -/
namespace SkipPlatform
open List
namespace SortedTree
variable {K V U W R : Type}

def violationUnless (holds : Bool) (msg : String) : Except String Unit :=
  if holds then .ok () else .error msg

def checkInvariants [LinearOrder K] : SortedTree K V → Except String Unit
  | nil => .ok ()
  | node n h key _ left right => do
    left.checkInvariants
    right.checkInvariants
    violationUnless (n = 1 + left.size + right.size) "Wrong size"
    violationUnless (h = 1 + max left.height right.height) "Wrong height"
    violationUnless (left.items.all fun x => x.1 < key) "Left subtree has key larger than root"
    violationUnless (right.items.all fun x => x.1 > key) "Right subtree has key larger than root"
    violationUnless (left.height ≤ right.height + 2 ∧ right.height ≤ left.height + 2)
      "Unbalanced tree"

theorem violationUnless_eq_ok {holds : Bool} {msg : String} :
    violationUnless holds msg = .ok () ↔ holds = true := by
  cases holds <;> simp [violationUnless]

theorem seq_eq_ok {x y : Except String Unit} :
    (do x; y) = .ok () ↔ x = .ok () ∧ y = .ok () := by
  cases x with
  | error msg => exact iff_of_false nofun fun h => by cases h.1
  | ok u => exact ⟨fun h => ⟨rfl, h⟩, fun h => h.2⟩

def subtrees : SortedTree K V → List (SortedTree K V)
  | nil => [nil]
  | node n h k v l r => node n h k v l r :: (l.subtrees ++ r.subtrees)

/-- One rotation is enough at every node, with what the filter leaves on its two sides. -/
def FilterFits (f : K → V → Bool) : SortedTree K V → Prop
  | nil => True
  | node _ _ k v l r =>
    l.FilterFits f ∧ r.FilterFits f ∧
      if f k v then Fits (l.filter f) (r.filter f) else ConcatFits (l.filter f) (r.filter f)

theorem self_mem_subtrees (t : SortedTree K V) : t ∈ t.subtrees := by
  cases t <;> simp [subtrees]

theorem balanced_filter_node {f : K → V → Bool} {n h : ℕ} {k : K} {v : V} {l r : SortedTree K V}
    (hl : (l.filter f).Balanced) (hr : (r.filter f).Balanced) :
    ((node n h k v l r).filter f).Balanced ↔
      if f k v then Fits (l.filter f) (r.filter f)
      else ConcatFits (l.filter f) (r.filter f) := by
  rw [filter]
  split_ifs
  · have hspec := balance_spec k v hl.exact hr.exact hl.level hr.level
    exact ⟨fun hb => hspec.level.mp hb.level,
      fun hfits => ⟨exact_balance hl.exact hr.exact, hspec.level.mpr hfits⟩⟩
  · exact balanced_concat_iff hl hr

theorem balanced_filter_iff (f : K → V → Bool) (t : SortedTree K V) :
    (∀ s ∈ t.subtrees, (s.filter f).Balanced) ↔ t.FilterFits f := by
  induction t with
  | nil => simp [subtrees, FilterFits, filter, balanced_nil]
  | node n h k v l r ihl ihr =>
    simp only [subtrees, mem_cons, mem_append, or_imp, forall_and,
      ihl, ihr, FilterFits]
    constructor
    · rintro ⟨hnode, hl, hr⟩
      have hbl := ihl.mpr hl l l.self_mem_subtrees
      have hbr := ihr.mpr hr r r.self_mem_subtrees
      exact ⟨hl, hr, (balanced_filter_node hbl hbr).mp (hnode _ rfl)⟩
    · rintro ⟨hl, hr, hfits⟩
      have hbl := ihl.mpr hl l l.self_mem_subtrees
      have hbr := ihr.mpr hr r r.self_mem_subtrees
      refine ⟨?_, hl, hr⟩
      rintro _ rfl
      exact (balanced_filter_node hbl hbr).mpr hfits

theorem balanced_concatOrJoin_iff {k : K} {x : Option V} {l r : SortedTree K V} (hl : l.Balanced)
    (hr : r.Balanced) :
    (concatOrJoin k x l r).Balanced ↔ (x = none → ConcatFits l r) := by
  cases x with
  | none => exact (balanced_concat_iff hl hr).trans ⟨fun h _ => h, fun h => h rfl⟩
  | some v => exact iff_of_true (balanced_mergeImpl hl hr k v) nofun

theorem joinAt_eq_some {f : K → Option V → Option U → Option W → Option R}
    {call : MergeCall K V U W} {left right : Option (List (MergeCall K V U W) × SortedTree K R)}
    {p : List (MergeCall K V U W) × SortedTree K R} (h : joinAt f call left right = some p) :
    ∃ pl pr, left = some pl ∧ right = some pr ∧
      p.2 = concatOrJoin call.1 (f call.1 call.2.1 call.2.2.1 call.2.2.2) pl.2 pr.2 := by
  obtain ⟨pl, hl, h⟩ := Option.bind_eq_some_iff.mp h
  obtain ⟨pr, hr, h⟩ := Option.bind_eq_some_iff.mp h
  cases h
  exact ⟨pl, pr, hl, hr, rfl⟩

section Ordered
variable [LinearOrder K]

/-- What `checkInvariants` looks for. -/
structure Checked (t : SortedTree K V) : Prop extends Balanced t where
  sized : t.Sized
  ordered : t.Ordered

theorem checkInvariants_iff (t : SortedTree K V) : t.checkInvariants = .ok () ↔ t.Checked := by
  induction t with
  | nil => exact iff_of_true rfl ⟨balanced_nil, trivial, List.Pairwise.nil⟩
  | node n h key v l r ihl ihr =>
    simp only [checkInvariants, seq_eq_ok, violationUnless_eq_ok, decide_eq_true_eq,
      all_eq_true, ihl, ihr]
    constructor
    · rintro ⟨hl, hr, hsize, hheight, hleft, hright, hnear⟩
      refine ⟨⟨⟨?_, hl.exact, hr.exact⟩, hnear, hl.level, hr.level⟩, ⟨?_, hl.sized, hr.sized⟩, ?_⟩
      · rw [hheight, Nat.add_comm]
      · rw [hsize]
        omega
      · exact ordered_node.mpr ⟨hl.ordered, hr.ordered, hleft, hright⟩
    · rintro ⟨hb, hsized, hordered⟩
      obtain ⟨hl, hr, hleft, hright⟩ := ordered_node.mp hordered
      refine ⟨⟨hb.left, hsized.2.1, hl⟩, ⟨hb.right, hsized.2.2, hr⟩, ?_, ?_, hleft, hright,
        hb.level.1⟩
      · rw [hsized.1]
        omega
      · rw [hb.exact.1, Nat.add_comm]

inductive MergePart : Maps K V U W → Maps K V U W → Prop where
  | self (m : Maps K V U W) : MergePart m m
  | left {m s left right : Maps K V U W} {call : MergeCall K V U W} :
      mergeRoot m.1 m.2.1 m.2.2 = some (call, left, right) → MergePart left s → MergePart m s
  | right {m s left right : Maps K V U W} {call : MergeCall K V U W} :
      mergeRoot m.1 m.2.1 m.2.2 = some (call, left, right) → MergePart right s → MergePart m s

def MergeFits (f : K → Option V → Option U → Option W → Option R) (m : Maps K V U W) : Prop :=
  ∀ s, MergePart m s → ∀ call left right, mergeRoot s.1 s.2.1 s.2.2 = some (call, left, right) →
    f call.1 call.2.1 call.2.2.1 call.2.2.2 = none →
      ∀ pl pr, mergeWith2 f left.1 left.2.1 left.2.2 = some pl →
        mergeWith2 f right.1 right.2.1 right.2.2 = some pr → ConcatFits pl.2 pr.2

theorem balanced_mergeWith2 {f : K → Option V → Option U → Option W → Option R}
    {t0 : SortedTree K V} {t1 : SortedTree K U} {t2 : SortedTree K W}
    (hfits : MergeFits f (t0, t1, t2)) {p : List (MergeCall K V U W) × SortedTree K R}
    (hp : mergeWith2 f t0 t1 t2 = some p) : p.2.Balanced := by
  induction t0, t1, t2 using mergeWith2.induct generalizing p with
  | case1 =>
    rw [mergeWith2] at hp
    cases hp
    exact balanced_nil
  | case2 t0 t1 t2 hne hnone =>
    obtain ⟨h0, h1, h2⟩ := mergeRoot_eq_none hnone
    exact absurd h2 (hne h0 h1)
  | case3 t0 t1 t2 hne call left right hroot ihl ihr =>
    rw [mergeWith2_of_root hroot] at hp
    obtain ⟨pl, pr, hl, hr, he⟩ := joinAt_eq_some hp
    rw [he, balanced_concatOrJoin_iff]
    · intro hnone
      exact hfits _ (.self _) call left right hroot hnone pl pr hl hr
    · exact ihl (fun s hs => hfits s (.left hroot hs)) hl
    · exact ihr (fun s hs => hfits s (.right hroot hs)) hr

theorem MergePart.trans {m s r : Maps K V U W} (h : MergePart m s) (h' : MergePart s r) :
    MergePart m r := by
  induction h with
  | self => exact h'
  | left hroot _ ih => exact .left hroot (ih h')
  | right hroot _ ih => exact .right hroot (ih h')

theorem balanced_mergeWith2_iff (f : K → Option V → Option U → Option W → Option R)
    (m : Maps K V U W) :
    (∀ s, MergePart m s → ∀ p, mergeWith2 f s.1 s.2.1 s.2.2 = some p → p.2.Balanced) ↔
      MergeFits f m := by
  constructor
  · intro hall s hs call left right hroot hnone pl pr hl hr
    have hpart := hs.trans (.left hroot (.self left))
    have hpart' := hs.trans (.right hroot (.self right))
    have hjoin := hall s hs (call :: (pl.1 ++ pr.1), concat pl.2 pr.2) (by
      rw [mergeWith2_of_root hroot, hl, hr]
      unfold joinAt
      rw [hnone]
      rfl)
    exact (balanced_concat_iff (hall left hpart pl hl) (hall right hpart' pr hr)).mp hjoin
  · intro hfits s hs p hp
    exact balanced_mergeWith2 (fun r hr => hfits r (hs.trans hr)) hp

theorem Checked.of_built {t : SortedTree K V} (hb : t.Balanced) (h : Built t) : t.Checked :=
  ⟨hb, h.ordered_sized.2, h.ordered_sized.1⟩

theorem checked_createFromItems (items : List (K × V)) : (createFromItems items).Checked := by
  have hfold : ∀ t : SortedTree K V, t.Checked →
      (items.foldl (fun m p => m.set p.1 p.2) t).Checked := by
    induction items with
    | nil => exact fun t ht => ht
    | cons x items ih =>
      intro t ht
      apply ih
      exact ⟨(grown_set ht.toBalanced x.1 x.2).toBalanced, sized_set ht.sized x.1 x.2,
        ordered_set ht.ordered x.1 x.2⟩
  exact hfold nil ⟨balanced_nil, trivial, List.Pairwise.nil⟩

theorem Checked.merge {t1 t2 : SortedTree K V} (h1 : t1.Checked) (h2 : t2.Checked) :
    (t1.merge t2).Checked :=
  ⟨balanced_merge h1.toBalanced h2.toBalanced, sized_merge h1.sized h2.sized,
    (merge_spec t1 t2 h1.ordered h2.ordered).ordered⟩

theorem checked_mergeAll {maps : List (SortedTree K V)} (h : ∀ m ∈ maps, m.Checked) :
    (mergeAll maps).Checked := by
  have hfold : ∀ t : SortedTree K V, t.Checked → (maps.foldl SortedTree.merge t).Checked := by
    induction maps with
    | nil => exact fun t ht => ht
    | cons m maps ih =>
      intro t ht
      exact ih (fun s hs => h s (mem_cons_of_mem m hs)) _ (ht.merge (h m mem_cons_self))
  exact hfold nil ⟨balanced_nil, trivial, List.Pairwise.nil⟩

theorem checked_subtrees {t : SortedTree K V} (ht : t.Checked) :
    ∀ s ∈ t.subtrees, s.Checked := by
  induction t with
  | nil =>
    intro s hs
    rw [mem_singleton.mp hs]
    exact ht
  | node n h k v l r ihl ihr =>
    obtain ⟨hl, hr, _⟩ := ordered_node.mp ht.ordered
    intro s hs
    rcases mem_cons.mp hs with rfl | hs
    · exact ht
    · rcases mem_append.mp hs with hs | hs
      · exact ihl ⟨ht.toBalanced.left, ht.sized.2.1, hl⟩ s hs
      · exact ihr ⟨ht.toBalanced.right, ht.sized.2.2, hr⟩ s hs

theorem MergePart.ordered {m s : Maps K V U W} (h : MergePart m s) (h0 : m.1.Ordered)
    (h1 : m.2.1.Ordered) (h2 : m.2.2.Ordered) :
    s.1.Ordered ∧ s.2.1.Ordered ∧ s.2.2.Ordered := by
  induction h with
  | self => exact ⟨h0, h1, h2⟩
  | left hroot _ ih =>
    obtain ⟨s0, s1, s2, _⟩ := mergeRoot_split hroot h0 h1 h2
    exact ih s0.sides.left s1.sides.left s2.sides.left
  | right hroot _ ih =>
    obtain ⟨s0, s1, s2, _⟩ := mergeRoot_split hroot h0 h1 h2
    exact ih s0.sides.right s1.sides.right s2.sides.right

/-- `checkInvariants` on what the operations make of maps. For `filter` and `mergeWith2`, which
call themselves, this is about all the calls they make. -/
structure ChecksOperations (t t' : SortedTree K V) (u : SortedTree K U) (w : SortedTree K W) :
    Prop where
  create : (nil : SortedTree K V).checkInvariants = .ok ()
  singleton : ∀ (k : K) (v : V), (singleton k v).checkInvariants = .ok ()
  createFromItems : ∀ items : List (K × V), (createFromItems items).checkInvariants = .ok ()
  setWith : ∀ k v f s, t.setWith k v f = some s → s.checkInvariants = .ok ()
  remove : ∀ k, (t.remove k).checkInvariants = .ok ()
  removeMin : ∀ k v rest, t.removeMin = some (k, v, rest) → rest.checkInvariants = .ok ()
  split : ∀ k, (t.split k).1.checkInvariants = .ok () ∧ (t.split k).2.2.checkInvariants = .ok ()
  map : ∀ {R : Type} (f : K → V → R), (t.mapValues f).checkInvariants = .ok ()
  mapAcc : ∀ {A R : Type} (f : A → K → V → A × R) (init : A),
    (t.mapAcc f init).2.checkInvariants = .ok ()
  mapItems : ∀ {K2 R : Type} [LinearOrder K2] (s : K → V → K2 × R),
    (t.mapItems s).checkInvariants = .ok ()
  filterNone : ∀ {R : Type} (s : SortedTree K (Option R)), s.filterNone.checkInvariants = .ok ()
  merge : (t.merge t').checkInvariants = .ok ()
  mergeAll : ∀ maps : List (SortedTree K V), (∀ m ∈ maps, m.checkInvariants = .ok ()) →
    (mergeAll maps).checkInvariants = .ok ()
  mergeWith : ∀ {R : Type} (f : K → Option V → Option U → Option R) r,
    mergeWith f t u = some r → r.checkInvariants = .ok ()
  filter : ∀ f, (∀ s ∈ t.subtrees, (s.filter f).checkInvariants = .ok ()) ↔ t.FilterFits f
  mergeWith2 : ∀ {R : Type} (f : K → Option V → Option U → Option W → Option R),
    (∀ s, MergePart (t, u, w) s → ∀ p, mergeWith2 f s.1 s.2.1 s.2.2 = some p →
      p.2.checkInvariants = .ok ()) ↔ MergeFits f (t, u, w)

/-- All operations keep the invariants, but for `filter` and `mergeWith2`, which keep them exactly
when one rotation is enough wherever they put two halves together. -/
theorem checks_operations {t t' : SortedTree K V} {u : SortedTree K U} {w : SortedTree K W}
    (ht : t.checkInvariants = .ok ()) (ht' : t'.checkInvariants = .ok ())
    (hu : u.checkInvariants = .ok ()) (hw : w.checkInvariants = .ok ()) :
    ChecksOperations t t' u w := by
  rw [checkInvariants_iff] at ht ht' hu hw
  constructor
  case create => rfl
  case singleton =>
    intro k v
    rw [checkInvariants_iff]
    exact .of_built (balanced_singleton k v) (.singleton k v)
  case createFromItems =>
    exact fun items => (checkInvariants_iff _).mpr (checked_createFromItems items)
  case setWith =>
    intro k v f s hs
    rw [setWith_eq] at hs
    obtain ⟨new, _, rfl⟩ := Option.map_eq_some_iff.mp hs
    rw [checkInvariants_iff]
    exact ⟨(grown_set ht.toBalanced k new).toBalanced, sized_set ht.sized k new,
      ordered_set ht.ordered k new⟩
  case remove =>
    intro k
    rw [checkInvariants_iff]
    exact ⟨(shrunk_remove ht.toBalanced k).toBalanced, sized_remove ht.sized k,
      ordered_remove ht.ordered k⟩
  case removeMin =>
    intro k v rest hm
    rw [checkInvariants_iff]
    refine ⟨(shrunk_removeMin ht.toBalanced hm).toBalanced, sized_removeMin ht.sized hm, ?_⟩
    have hord := ht.ordered
    unfold Ordered at hord
    rw [items_of_removeMin hm] at hord
    exact (pairwise_cons.mp hord).2
  case split =>
    intro k
    rw [checkInvariants_iff, checkInvariants_iff]
    have hb := balanced_split ht.toBalanced k
    have hs := sized_split ht.sized k
    have ho := (split_spec ht.ordered k).sides
    exact ⟨⟨hb.1, hs.1, ho.left⟩, ⟨hb.2, hs.2, ho.right⟩⟩
  case map =>
    intro R f
    rw [checkInvariants_iff]
    refine ⟨balanced_mapValues f ht.toBalanced, sized_mapValues f ht.sized, ?_⟩
    apply ordered_of_keys ht.ordered
    rw [items_mapValues, map_map]
    rfl
  case mapAcc =>
    intro A R f init
    rw [checkInvariants_iff]
    exact ⟨(balanced_mapAcc f init ht.toBalanced).1, sized_mapAcc f init t,
      ordered_of_keys ht.ordered (keys_mapAcc f init t)⟩
  case mapItems => exact fun s => (checkInvariants_iff _).mpr (checked_createFromItems _)
  case filterNone => exact fun s => (checkInvariants_iff _).mpr (checked_createFromItems _)
  case merge => exact (checkInvariants_iff _).mpr (ht.merge ht')
  case mergeAll =>
    intro maps hmaps
    rw [checkInvariants_iff]
    exact checked_mergeAll fun m hm => (checkInvariants_iff m).mp (hmaps m hm)
  case mergeWith =>
    intro R f r hr
    obtain ⟨r', hr', hord, hsz, _⟩ := mergeWith_spec f ht.ordered hu.ordered
    rw [hr] at hr'
    cases hr'
    exact (checkInvariants_iff r).mpr ⟨balanced_mergeWith hr, hsz, hord⟩
  case filter =>
    intro f
    rw [← balanced_filter_iff]
    apply forall₂_congr
    intro s hs
    have hc := checked_subtrees ht s hs
    rw [checkInvariants_iff]
    exact ⟨fun h => h.toBalanced,
      fun h => ⟨h, sized_filter f hc.sized, ordered_filter f hc.ordered⟩⟩
  case mergeWith2 =>
    intro R f
    rw [← balanced_mergeWith2_iff]
    apply forall₂_congr
    intro s hs
    obtain ⟨h0, h1, h2⟩ := hs.ordered ht.ordered hu.ordered hw.ordered
    apply forall₂_congr
    intro p hp
    obtain ⟨p', hp', hspec⟩ := mergeWith2_spec f s.1 s.2.1 s.2.2 h0 h1 h2
    rw [hp] at hp'
    cases hp'
    rw [checkInvariants_iff]
    exact ⟨fun h => h.toBalanced, fun h => ⟨h, hspec.sized, hspec.ordered⟩⟩

theorem checks_operations_pair :
    ChecksOperations (createFromItems [(1, 'a'), (2, 'b')]) nil (singleton 3 true)
      (nil : SortedTree ℕ ℕ) :=
  checks_operations rfl rfl rfl rfl

/-- Ten keys, of which the two above the root are filtered out. -/
theorem filter_unbalanced :
    ¬ ∀ (t : SortedTree ℕ Unit) (f : ℕ → Unit → Bool), t.checkInvariants = .ok () →
      (t.filter f).checkInvariants = .ok () := by
  intro h
  have hc := h (createFromItems ([8, 4, 9, 3, 7, 10, 2, 6, 1, 5].map fun k => (k, ())))
    (fun k _ => decide (k < 9)) rfl
  cases hc

end Ordered
end SortedTree
end SkipPlatform
