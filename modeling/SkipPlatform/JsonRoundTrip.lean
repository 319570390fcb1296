import SkipPlatform.JsonLeaves

set_option autoImplicit false

/-! The rows of a JSON value in the order of their paths, and the value that is made of them. -/
namespace SkipPlatform.SKJSON
open List SkipPlatform.SqlCsv
variable {F : Type}

theorem prefix_between {h a b c : List Char} (low : h ++ a < b) (high : b < h ++ c) :
    ∃ d, b = h ++ d ∧ a < d ∧ d < c := by
  induction h generalizing b with
  | nil => exact ⟨b, rfl, low, high⟩
  | cons x h ih =>
    cases b with
    | nil => exact absurd low (not_lt_nil _)
    | cons y b =>
      rw [cons_append, cons_lt_cons_iff] at low high
      have same : x = y := by
        rcases low with low | ⟨same, -⟩
        · rcases high with high | ⟨same, -⟩
          · exact absurd (lt_trans low high) (lt_irrefl _)
          · exact same.symm
        · exact same
      subst same
      have low := low.resolve_left (lt_irrefl _)
      have high := high.resolve_left (lt_irrefl _)
      obtain ⟨d, rfl, above, below⟩ := ih low.2 high.2
      exact ⟨d, rfl, above, below⟩

theorem head_between {a b c : List Char} {x y z : Char} (low : x :: a < y :: b)
    (high : y :: b < z :: c) (same : x = z) : y = x := by
  rw [cons_lt_cons_iff] at low high
  subst same
  rcases low with low | ⟨same, -⟩
  · rcases high with high | ⟨same, -⟩
    · exact absurd (lt_trans low high) (lt_irrefl _)
    · exact same
  · exact same.symm

theorem append_lt_append_left {h a b : List Char} (less : h ++ a < h ++ b) : a < b := by
  induction h with
  | nil => exact less
  | cons x h ih =>
    rw [cons_append, cons_append, cons_lt_cons_iff] at less
    exact ih (less.resolve_left (lt_irrefl _)).2

theorem append_separator {s t a b : List Char} {c : Char} (hs : c ∉ s) (ht : c ∉ t)
    (same : s ++ c :: a = t ++ c :: b) : s = t := by
  rcases append_eq_append_iff.mp same with ⟨more, rfl, rest⟩ | ⟨more, rfl, rest⟩
  · cases more with
    | nil => rw [append_nil]
    | cons d more =>
      rw [cons_append] at rest
      rw [(List.cons.inj rest).1] at ht
      exact absurd (mem_append_right _ mem_cons_self) ht
  · cases more with
    | nil => rw [append_nil]
    | cons d more =>
      rw [cons_append] at rest
      rw [(List.cons.inj rest).1] at hs
      exact absurd (mem_append_right _ mem_cons_self) hs

def CJSON.lead : CJSON F → Option Char
  | .CJArray arr => if arr.isEmpty then none else some '['
  | .CJObject cols values => if (cols.zip values).isEmpty then none else some '.'
  | _ => none

theorem CJSON.head_leaves (json : CJSON F) :
    ∀ row ∈ json.leaves, (pathToString row.1).head? = json.lead := by
  intro row member
  by_cases none : json.children = []
  · rw [leaves_leaf none, mem_singleton] at member
    rw [member]
    cases json with
    | CJArray arr =>
      rw [children, map_eq_nil_iff, zipIdx_eq_nil_iff] at none
      rw [lead, none]
      rfl
    | CJObject cols values =>
      rw [children, map_eq_nil_iff] at none
      rw [lead, none]
      rfl
    | _ => rfl
  · rw [leaves_node none, expand, flatMap_map, mem_flatMap] at member
    obtain ⟨child, found, member⟩ := member
    obtain ⟨rest, -, rfl⟩ := mem_map.mp member
    cases json with
    | CJArray arr =>
      obtain ⟨vi, inside, rfl⟩ := mem_map.mp found
      rw [lead, if_neg (by rw [List.isEmpty_iff]; rintro rfl; cases inside)]
      rfl
    | CJObject cols values =>
      obtain ⟨kv, inside, rfl⟩ := mem_map.mp found
      rw [lead, if_neg (by rw [List.isEmpty_iff]; exact ne_nil_of_mem inside)]
      rfl
    | _ => cases found

theorem intToString_bracket {n : BitVec 64} (h : 0 ≤ n.toInt) : ']' ∉ intToString n := by
  intro member
  exact absurd (intToString_digits h ']' member) (by decide)

theorem same_name {v : CJSON F} {name name' : List Char} {a b c : List PathElement}
    {d : List Char} (ha : (pathToString a).head? = v.lead) (hc : (pathToString c).head? = v.lead)
    (plain : PathElement.Plain (.PEField name)) (plain' : PathElement.Plain (.PEField name'))
    (same : name' ++ pathToString b = name ++ d) (low : pathToString a < d)
    (high : d < pathToString c) : name' = name := by
  rcases append_eq_append_iff.mp same with ⟨more, rfl, rest⟩ | ⟨more, rfl, rest⟩
  · cases more with
    | nil => rw [append_nil]
    | cons x more =>
      have next : (pathToString b).head? = some x := by
        rw [rest]
        rfl
      have letter := plain.2 x (mem_append_right _ mem_cons_self)
      rcases head_pathToString b x next with rfl | rfl <;> exact absurd (by decide) letter
  · cases more with
    | nil => rw [append_nil]
    | cons x more =>
      have letter := plain'.2 x (mem_append_right _ mem_cons_self)
      rw [rest, cons_append] at low high
      exfalso
      cases hz : pathToString c with
      | nil =>
        rw [hz] at high
        exact not_lt_nil _ high
      | cons z c' =>
        have lead : some z = v.lead := by rw [← hc, hz]; rfl
        cases hy : pathToString a with
        | nil =>
          rw [hy, ← lead] at ha
          cases ha
        | cons y a' =>
          have begins : y = z := by
            rw [hy, ← lead] at ha
            exact Option.some.inj ha
          rw [hy] at low
          rw [hz] at high
          rw [head_between low high begins] at letter
          rcases head_pathToString a y (by rw [hy]; rfl) with rfl | rfl <;>
            exact absurd (by decide) letter

theorem head_of_between {v : CJSON F} {h h' : PathElement} {a b c : List PathElement}
    (ha : (pathToString a).head? = v.lead) (hc : (pathToString c).head? = v.lead)
    (plain : h.Plain) (plain' : h'.Plain)
    (low : pathToString (h :: a) < pathToString (h' :: b))
    (high : pathToString (h' :: b) < pathToString (h :: c)) : h' = h := by
  obtain ⟨d, same, above, below⟩ := prefix_between low high
  cases h with
  | PEField name =>
    cases h' with
    | PEField name' =>
      have rest := tail_eq_of_cons_eq same
      rw [same_name ha hc plain plain' rest above below]
    | PEIndex n' =>
      exact absurd (head_eq_of_cons_eq same) (by decide)
  | PEIndex n =>
    cases h' with
    | PEField name' => exact absurd (head_eq_of_cons_eq same) (by decide)
    | PEIndex n' =>
      have rest : intToString n' ++ ']' :: pathToString b = intToString n ++ ']' :: d := by
        have rest := tail_eq_of_cons_eq same
        change (intToString n' ++ [']']) ++ pathToString b = (intToString n ++ [']']) ++ d at rest
        rwa [append_assoc, append_assoc] at rest
      have text := append_separator (intToString_bracket plain') (intToString_bracket plain) rest
      have value := toIntOption_intToString n'
      rw [text, toIntOption_intToString] at value
      rw [Option.some.inj value]

section Groups
variable {A : Type}

theorem expand_cons (obj : PathElement × List (List PathElement × A))
    (objects : List (PathElement × List (List PathElement × A))) :
    expand (obj :: objects) = (obj.2.map fun row => (obj.1 :: row.1, row.2)) ++ expand objects :=
  flatMap_cons

variable {objects : List (PathElement × List (List PathElement × A))}

theorem mem_expand
    {row : List PathElement × A} :
    row ∈ expand objects ↔ ∃ obj ∈ objects, ∃ rest ∈ obj.2, (obj.1 :: rest.1, rest.2) = row := by
  simp only [expand, mem_flatMap, mem_map]

def tailOf (h : PathElement) : List PathElement × A → Option (List PathElement × A)
  | ([], _) => none
  | (e :: rest, a) => if e = h then some (rest, a) else none

theorem filterMap_tailOf_self (h : PathElement) (rows : List (List PathElement × A)) :
    (rows.map fun row => (h :: row.1, row.2)).filterMap (tailOf h) = rows := by
  rw [filterMap_map]
  have all : (tailOf h ∘ fun row : List PathElement × A => (h :: row.1, row.2)) = some := by
    funext row
    simp only [Function.comp_apply, tailOf, if_pos]
  rw [all, filterMap_some]

theorem filterMap_tailOf_other {h e : PathElement} (differs : e ≠ h)
    (rows : List (List PathElement × A)) :
    (rows.map fun row => (e :: row.1, row.2)).filterMap (tailOf h) = [] := by
  rw [filterMap_map, filterMap_eq_nil_iff]
  intro row _
  simp only [Function.comp_apply, tailOf, if_neg differs]

theorem filterMap_tailOf_absent {h : PathElement}
    (absent : h ∉ objects.map Prod.fst) : (expand objects).filterMap (tailOf h) = [] := by
  induction objects with
  | nil => rfl
  | cons obj objects ih =>
    rw [map_cons, mem_cons, not_or] at absent
    rw [expand_cons, filterMap_append, filterMap_tailOf_other (Ne.symm absent.1),
      ih absent.2]
    rfl

theorem filterMap_tailOf
    (nodup : (objects.map Prod.fst).Nodup) {obj : PathElement × List (List PathElement × A)}
    (h : obj ∈ objects) : (expand objects).filterMap (tailOf obj.1) = obj.2 := by
  induction objects with
  | nil => cases h
  | cons first objects ih =>
    rw [map_cons, nodup_cons] at nodup
    rw [expand_cons, filterMap_append]
    rcases mem_cons.mp h with rfl | h
    · rw [filterMap_tailOf_self, filterMap_tailOf_absent nodup.1, append_nil]
    · have differs : first.1 ≠ obj.1 := by
        intro same
        exact nodup.1 (same ▸ mem_map_of_mem h)
      rw [filterMap_tailOf_other differs, ih nodup.2 h, nil_append]

theorem heads_nodup {R : List PathElement × A → List PathElement × A → Prop}
    (chain : (objects.map Prod.fst).IsChain (· ≠ ·)) (some : ∀ obj ∈ objects, obj.2 ≠ [])
    (sorted : (expand objects).Pairwise R)
    (between : ∀ (h h' : PathElement) (a b c : List PathElement × A),
      (h :: a.1, a.2) ∈ expand objects → (h' :: b.1, b.2) ∈ expand objects →
      (h :: c.1, c.2) ∈ expand objects → R (h :: a.1, a.2) (h' :: b.1, b.2) →
      R (h' :: b.1, b.2) (h :: c.1, c.2) → h' = h) : (objects.map Prod.fst).Nodup := by
  induction objects with
  | nil => exact nodup_nil
  | cons obj objects ih =>
    rw [expand_cons, pairwise_append] at sorted
    rw [map_cons, nodup_cons]
    have inside : ∀ row ∈ expand objects, row ∈ expand (obj :: objects) := fun row member => by
      rw [expand_cons]
      exact mem_append_right _ member
    refine ⟨fun again => ?_, ih chain.of_cons
      (fun obj member => some obj (mem_cons_of_mem _ member)) sorted.2.1
      fun h h' a b c ha hb hc => between h h' a b c (inside _ ha) (inside _ hb) (inside _ hc)⟩
    cases objects with
    | nil => cases again
    | cons next objects =>
      have differs : obj.1 ≠ next.1 := (isChain_cons_cons.mp chain).1
      obtain ⟨later, found, same⟩ := mem_map.mp again
      have found : later ∈ objects := by
        rcases mem_cons.mp found with rfl | found
        · exact absurd same.symm differs
        · exact found
      obtain ⟨a, ha⟩ := exists_mem_of_ne_nil _ (some obj mem_cons_self)
      obtain ⟨b, hb⟩ := exists_mem_of_ne_nil _
        (some next (mem_cons_of_mem _ mem_cons_self))
      obtain ⟨c, hc⟩ := exists_mem_of_ne_nil _
        (some later (mem_cons_of_mem _ (mem_cons_of_mem _ found)))
      have first : (obj.1 :: a.1, a.2) ∈ obj.2.map fun row => (obj.1 :: row.1, row.2) :=
        mem_map_of_mem ha
      have second : (next.1 :: b.1, b.2) ∈ next.2.map fun row => (next.1 :: row.1, row.2) :=
        mem_map_of_mem hb
      have third : (obj.1 :: c.1, c.2) ∈ expand objects :=
        mem_expand.mpr ⟨later, found, c, hc, by rw [same]⟩
      have rest := sorted.2.1
      rw [expand_cons, pairwise_append] at rest
      have there : (next.1 :: b.1, b.2) ∈ expand (next :: objects) := by
        rw [expand_cons]
        exact mem_append_left _ second
      have there' : (obj.1 :: c.1, c.2) ∈ expand (next :: objects) := by
        rw [expand_cons]
        exact mem_append_right _ third
      have here : (obj.1 :: a.1, a.2) ∈ expand (obj :: next :: objects) := by
        rw [expand_cons]
        exact mem_append_left _ first
      exact differs (between obj.1 next.1 a b c here (inside _ there) (inside _ there')
        (sorted.2.2 _ first _ there) (rest.2.2 _ second _ third)).symm

end Groups

theorem CJSON.leaves_ne_nil (json : CJSON F) : json.leaves ≠ [] := by
  induction json using children_induction with
  | leaf json none =>
    rw [leaves_leaf none]
    exact cons_ne_nil _ _
  | node json some ih =>
    obtain ⟨child, member⟩ := exists_mem_of_ne_nil _ some
    obtain ⟨row, found⟩ := exists_mem_of_ne_nil _ (ih child member)
    rw [leaves_node some]
    exact ne_nil_of_mem (mem_expand.mpr
      ⟨_, mem_map_of_mem member, row, found, rfl⟩)

variable {A B : Type}

theorem mapM_related {R : A → B → Prop} {f : A → Except Exn B} {l : List A}
    (h : ∀ a ∈ l, ∃ b, f a = .ok b ∧ R a b) : ∃ bs, l.mapM f = .ok bs ∧ List.Forall₂ R l bs := by
  induction l with
  | nil => exact ⟨[], rfl, .nil⟩
  | cons a l ih =>
    obtain ⟨b, first, related⟩ := h a mem_cons_self
    obtain ⟨bs, rest, all⟩ := ih fun a member => h a (mem_cons_of_mem _ member)
    refine ⟨b :: bs, ?_, .cons related all⟩
    rw [mapM_cons, first, rest]
    rfl

theorem mapM_ok {f : A → Except Exn B} {l : List A} {bs : List B}
    (h : l.mapM f = .ok bs) : List.Forall₂ (fun a b => f a = .ok b) l bs := by
  induction l generalizing bs with
  | nil =>
    cases h
    exact .nil
  | cons a l ih =>
    rw [mapM_cons] at h
    cases first : f a with
    | error exn =>
      rw [first] at h
      cases h
    | ok b =>
      rw [first] at h
      cases rest : l.mapM f with
      | error exn =>
        rw [rest] at h
        cases h
      | ok bs' =>
        rw [rest] at h
        cases h
        exact .cons first (ih rest)

theorem mergeSort_ordered {A K : Type} [LinearOrder K] (key : A → K) (l : List A) :
    (l.mergeSort fun x y => decide (key x ≤ key y)).Pairwise fun x y => key x ≤ key y := by
  refine (pairwise_mergeSort (fun a b c ab bc => ?_) (fun a b => ?_) l).imp of_decide_eq_true
  · exact decide_eq_true (le_trans (of_decide_eq_true ab) (of_decide_eq_true bc))
  · rw [Bool.or_eq_true, decide_eq_true_iff, decide_eq_true_iff]
    exact le_total (key a) (key b)

theorem mergeSort_key {A K : Type} [LinearOrder K] (key : A → K) {l l' : List A} (same : l.Perm l')
    (sorted : l'.Pairwise fun x y => key x < key y) :
    (l.mergeSort fun x y => decide (key x ≤ key y)) = l' := by
  have ordered := mergeSort_ordered key l
  have moved := (mergeSort_perm l fun x y => decide (key x ≤ key y)).trans same
  have distinct : (l'.map key).Nodup :=
    pairwise_map.mpr (sorted.imp fun less => ne_of_lt less)
  refine List.Perm.eq_of_pairwise ?_ ordered (sorted.imp le_of_lt) moved
  intro a b ha hb ab ba
  exact inj_on_of_nodup_map distinct (moved.mem_iff.mp ha) hb (le_antisymm ab ba)

theorem sortedByName_sorted {A : Type} {l : List (List Char × A)} (nodup : (l.map Prod.fst).Nodup) :
    (sortedByName l).Pairwise fun x y => x.1 < y.1 := by
  have ordered : (sortedByName l).Pairwise fun x y => x.1 ≤ y.1 :=
    mergeSort_ordered (fun x : List Char × A => x.1) l
  have distinct : (sortedByName l).Pairwise fun x y => x.1 ≠ y.1 :=
    pairwise_map.mp (((sortedByName_perm l).map Prod.fst).nodup_iff.mpr nodup)
  exact (ordered.and distinct).imp fun both => lt_of_le_of_ne both.1 both.2

theorem strictlyIncreasing_of_sorted {l : List (List Char)} (sorted : l.Pairwise (· < ·)) :
    strictlyIncreasing l = true := by
  induction l with
  | nil => rfl
  | cons x l ih =>
    cases l with
    | nil => rfl
    | cons y l =>
      rw [strictlyIncreasing, Bool.and_eq_true, decide_eq_true_iff]
      exact ⟨(pairwise_cons.mp sorted).1 y mem_cons_self,
        ih (pairwise_cons.mp sorted).2⟩

theorem checkIndices_zipIdx {A : Type} (arr : List A) (i : ℕ) :
    checkIndices i ((arr.zipIdx i).map fun vi => (BitVec.ofNat 64 vi.2, vi.1)) = .ok () := by
  induction arr generalizing i with
  | nil => rfl
  | cons v arr ih =>
    rw [zipIdx_cons, map_cons, checkIndices, if_neg (by simp), ih]

theorem zipIdx_sorted {A : Type} (arr : List A) (h : arr.length < 2 ^ 63) :
    (arr.zipIdx.map fun vi => (BitVec.ofNat 64 vi.2, vi.1)).Pairwise
      fun x y => x.1.toInt < y.1.toInt := by
  rw [pairwise_map, pairwise_iff_getElem]
  intro i j hi hj less
  rw [length_zipIdx] at hi hj
  simp only [getElem_zipIdx, Nat.zero_add]
  rw [ofNat_toInt (by omega), ofNat_toInt (by omega)]
  exact_mod_cast less

variable {internFieldNames : List (List Char) → List (List Char)}

theorem container_sortFields (intern : ∀ names, internFieldNames names = names) {json : CJSON F}
    (h : json.WellFormed) (some : json.children ≠ []) {elements : List (PathElement × CJSON F)}
    (same : elements.Perm json.sortFields.children) :
    container internFieldNames elements = .ok json.sortFields := by
  cases h with
  | scalar h =>
    cases json with
    | CJArray => cases h
    | CJObject => cases h
    | _ => exact absurd rfl some
  | @array arr length all =>
    have filled : arr.map CJSON.sortFields ≠ [] := by
      intro none
      rw [map_eq_nil_iff.mp none] at some
      exact some rfl
    have bound : (arr.map CJSON.sortFields).length < 2 ^ 63 := by rwa [length_map]
    rw [CJSON.sortFields_array] at same ⊢
    generalize arr.map CJSON.sortFields = arr at same filled bound ⊢
    have array : (elements.filterMap indexed).Perm
        (arr.zipIdx.map fun vi => (BitVec.ofNat 64 vi.2, vi.1)) := by
      have array := same.filterMap indexed
      rw [CJSON.children, filterMap_map] at array
      exact array.trans (List.Perm.of_eq (congrFun filterMap_eq_map _))
    have fields : elements.filterMap named = [] := by
      refine filterMap_eq_nil_iff.mpr fun element member => ?_
      obtain ⟨vi, -, rfl⟩ := mem_map.mp (same.mem_iff.mp member)
      rfl
    have listed : ¬ (elements.filterMap indexed).isEmpty = true := by
      rw [List.isEmpty_iff]
      intro none
      rw [none, nil_perm, map_eq_nil_iff, zipIdx_eq_nil_iff] at array
      exact filled array
    have sorted : sortedByIndex (elements.filterMap indexed) =
        arr.zipIdx.map fun vi => (BitVec.ofNat 64 vi.2, vi.1) :=
      mergeSort_key (fun x : BitVec 64 × CJSON F => x.1.toInt) array (zipIdx_sorted arr bound)
    have values : (arr.zipIdx.map fun vi => (BitVec.ofNat 64 vi.2, vi.1)).map Prod.snd = arr := by
      rw [map_map]
      exact zipIdx_map_fst 0 arr
    simp only [container, if_neg listed, fields, isEmpty_nil, if_true, sorted,
      checkIndices_zipIdx, values]
    rfl
  | @object cols values length nodup names all =>
    rw [CJSON.sortFields_object] at same ⊢
    rw [CJSON.children, zip_map', map_map] at same
    have keys : ((cols.zip values).map Prod.fst).Nodup := by
      rwa [map_fst_zip (Nat.le_of_eq length)]
    have sorted : ((sortedByName (cols.zip values)).map fun kv =>
        (kv.1, kv.2.sortFields)).Pairwise fun x y => x.1 < y.1 :=
      pairwise_map.mpr (sortedByName_sorted keys)
    have fields : (elements.filterMap named).Perm
        ((sortedByName (cols.zip values)).map fun kv => (kv.1, kv.2.sortFields)) := by
      have fields := same.filterMap named
      rw [filterMap_map] at fields
      exact fields.trans (List.Perm.of_eq (congrFun filterMap_eq_map _))
    have array : elements.filterMap indexed = [] := by
      refine filterMap_eq_nil_iff.mpr fun element member => ?_
      obtain ⟨kv, -, rfl⟩ := mem_map.mp (same.mem_iff.mp member)
      rfl
    have twice : sortedByName (sortedByName (elements.filterMap named)) =
        (sortedByName (cols.zip values)).map fun kv => (kv.1, kv.2.sortFields) :=
      mergeSort_key Prod.fst ((sortedByName_perm _).trans fields) sorted
    have increasing := strictlyIncreasing_of_sorted (pairwise_map.mpr sorted)
    have names : ((sortedByName (cols.zip values)).map fun kv =>
        (kv.1, kv.2.sortFields)).map Prod.fst = (sortedByName (cols.zip values)).map Prod.fst := by
      rw [map_map]
      rfl
    have parts : ((sortedByName (cols.zip values)).map fun kv =>
        (kv.1, kv.2.sortFields)).map Prod.snd =
          (sortedByName (cols.zip values)).map fun kv => kv.2.sortFields := by
      rw [map_map]
      rfl
    rw [names] at increasing
    simp only [container, array, isEmpty_nil, if_true, createFields, twice, names, parts,
      increasing, intern]

theorem collectObjects_error {rows : Paths F} {objects : Objects F} {value : CJSON F}
    (h : collectObjects objects rows = .error value) : ([], value) ∈ rows := by
  fun_induction collectObjects objects rows with
  | case1 => cases h
  | case2 =>
    cases h
    exact mem_cons_self
  | case3 objects head tail value rows ih => exact mem_cons_of_mem _ (ih h)

/-- Lists with distinct keys are the same but for the order when one has the pairs of the other, and
a pair for each key. -/
theorem perm_of_keys {A K : Type} {l l' : List (K × A)} (nodup : (l.map Prod.fst).Nodup)
    (nodup' : (l'.map Prod.fst).Nodup) (inside : ∀ x ∈ l, x ∈ l')
    (keys : ∀ x ∈ l', x.1 ∈ l.map Prod.fst) : l.Perm l' := by
  refine (perm_ext_iff_of_nodup nodup.of_map nodup'.of_map).mpr fun x => ⟨inside x, ?_⟩
  intro member
  obtain ⟨y, found, same⟩ := mem_map.mp (keys x member)
  rwa [inj_on_of_nodup_map nodup' (inside y found) member same] at found

theorem exists_of_related {R : A → B → Prop} {l : List A} {l' : List B}
    (h : List.Forall₂ R l l') {b : B} (member : b ∈ l') : ∃ a ∈ l, R a b := by
  induction h with
  | nil => cases member
  | @cons a _ _ _ related _ ih =>
    rcases mem_cons.mp member with rfl | member
    · exact ⟨a, mem_cons_self, related⟩
    · obtain ⟨a, inside, related⟩ := ih member
      exact ⟨a, mem_cons_of_mem _ inside, related⟩

theorem map_fst_of_related {A B C : Type} {l : List (A × B)} {l' : List (A × C)}
    (h : List.Forall₂ (fun a b => b.1 = a.1) l l') : l'.map Prod.fst = l.map Prod.fst := by
  induction h with
  | nil => rfl
  | cons same _ ih => rw [map_cons, map_cons, same, ih]

section Children
variable {json : CJSON F}

variable {objects : Objects F}

theorem leaves_of_head (h : json.WellFormed)
    (nodup : (objects.map Prod.fst).Nodup)
    (same : (expand objects).Perm
      (expand (json.children.map fun child => (child.1, child.2.leaves))))
    {obj : PathElement × Paths F} (member : obj ∈ objects) (some : obj.2 ≠ []) :
    ∃ child ∈ json.children, child.1 = obj.1 ∧ obj.2.Perm child.2.leaves := by
  obtain ⟨row, found⟩ := exists_mem_of_ne_nil _ some
  have there := same.mem_iff.mp (mem_expand.mpr ⟨obj, member, row, found, rfl⟩)
  obtain ⟨obj', member', rest, -, heads⟩ := mem_expand.mp there
  obtain ⟨child, inside, rfl⟩ := mem_map.mp member'
  have head : child.1 = obj.1 := head_eq_of_cons_eq (congrArg Prod.fst heads)
  refine ⟨child, inside, head, ?_⟩
  have rows := same.filterMap (tailOf obj.1)
  rw [filterMap_tailOf nodup member, ← head] at rows
  have keys : ((json.children.map fun child => (child.1, child.2.leaves)).map Prod.fst).Nodup := by
    rw [map_map]
    exact h.heads_nodup
  rwa [filterMap_tailOf keys member'] at rows

theorem head_mem_objects
    (same : (expand objects).Perm
      (expand (json.children.map fun child => (child.1, child.2.leaves))))
    {child : PathElement × CJSON F} (member : child ∈ json.children) :
    child.1 ∈ objects.map Prod.fst := by
  obtain ⟨row, found⟩ := exists_mem_of_ne_nil _ child.2.leaves_ne_nil
  have there := same.mem_iff.mpr
    (mem_expand.mpr ⟨_, mem_map_of_mem member, row, found, rfl⟩)
  obtain ⟨obj, inside, rest, -, heads⟩ := mem_expand.mp there
  have head : obj.1 = child.1 := head_eq_of_cons_eq (congrArg Prod.fst heads)
  rw [← head]
  exact mem_map_of_mem inside

theorem objects_nodup (h : json.WellFormed) (plain : json.PlainNames)
    (chain : (objects.map Prod.fst).IsChain (· ≠ ·)) (some : ∀ obj ∈ objects, obj.2 ≠ [])
    (same : (expand objects).Perm
      (expand (json.children.map fun child => (child.1, child.2.leaves))))
    (sorted : (expand objects).Pairwise fun a b => pathToString a.1 < pathToString b.1) :
    (objects.map Prod.fst).Nodup := by
  have element {h : PathElement} {row : List PathElement × CJSON F}
      (member : (h :: row.1, row.2) ∈ expand objects) :
      ∃ child ∈ json.children, child.1 = h ∧ row ∈ child.2.leaves := by
    obtain ⟨obj, within, rest, found, heads⟩ := mem_expand.mp (same.mem_iff.mp member)
    obtain ⟨child, inside, rfl⟩ := mem_map.mp within
    obtain ⟨paths, values⟩ := Prod.mk.inj heads
    obtain ⟨head, tail⟩ := List.cons.inj paths
    refine ⟨child, inside, head, ?_⟩
    rwa [← show rest = row from Prod.ext tail values]
  refine heads_nodup chain some sorted fun e e' a b c ha hb hc low high => ?_
  obtain ⟨child, inside, head, first⟩ := element ha
  obtain ⟨other, inside', head', -⟩ := element hb
  obtain ⟨again, inside'', head'', last⟩ := element hc
  have one : again = child :=
    inj_on_of_nodup_map h.heads_nodup inside'' inside (head''.trans head.symm)
  rw [one] at last
  have plain' := h.plainNames_iff.mp plain
  exact head_of_between (child.2.head_leaves a first) (child.2.head_leaves c last)
    (head ▸ (plain' child inside).1) (head' ▸ (plain' other inside').1) low high

end Children

theorem reconstructHelper_rows (intern : ∀ names, internFieldNames names = names)
    {json : CJSON F} (h : json.WellFormed) (plain : json.PlainNames) {rows : Paths F}
    (same : rows.Perm json.leaves)
    (sorted : rows.Pairwise fun a b => pathToString a.1 < pathToString b.1) :
    reconstructHelper internFieldNames rows = .ok json.sortFields := by
  induction json using CJSON.children_induction generalizing rows with
  | leaf json none =>
    rw [CJSON.leaves_leaf none, perm_singleton] at same
    rw [CJSON.sortFields_leaf none]
    apply reconstructHelper_value
    rw [same]
    rfl
  | node json some ih =>
    rw [CJSON.leaves_node some] at same
    cases collected : collectObjects [] rows with
    | error value =>
      obtain ⟨obj, -, rest, -, heads⟩ :=
        mem_expand.mp (same.mem_iff.mp (collectObjects_error collected))
      cases congrArg Prod.fst heads
    | ok objects =>
      have filled := collectObjects_some collected (forall_mem_nil _)
      have chain := collectObjects_chain collected List.IsChain.nil
      have whole := collectObjects_expand collected
      rw [show expand ([] : Objects F) = [] from rfl, nil_append] at whole
      rw [← whole] at same sorted
      have nodup := objects_nodup h plain chain filled same sorted
      have made : ∀ obj ∈ objects, ∃ element,
          ((reconstructHelper internFieldNames obj.2).map fun json => (obj.1, json)) =
            .ok element ∧ (element.1 = obj.1 ∧ element ∈ json.children.map
              fun child => (child.1, child.2.sortFields)) := by
        intro obj member
        obtain ⟨child, inside, head, rows⟩ :=
          leaves_of_head h nodup same member (filled obj member)
        have order : obj.2.Pairwise fun a b => pathToString a.1 < pathToString b.1 := by
          have within := (pairwise_flatMap.mp sorted).1 obj member
          exact (pairwise_map.mp within).imp fun less => append_lt_append_left less
        have value := ih child inside (h.child child inside)
          ((h.plainNames_iff.mp plain) child inside).2 rows order
        refine ⟨(obj.1, child.2.sortFields), by rw [value]; rfl, rfl, ?_⟩
        exact mem_map.mpr ⟨child, inside, by rw [head]⟩
      obtain ⟨elements, built, related⟩ := mapM_related made
      have keys := map_fst_of_related (related.imp fun _ _ both => both.1)
      have children : elements.Perm
          (json.children.map fun child => (child.1, child.2.sortFields)) := by
        refine perm_of_keys (by rwa [keys]) ?_ ?_ ?_
        · rw [map_map]
          exact h.heads_nodup
        · intro element member
          obtain ⟨obj, -, both⟩ := exists_of_related related member
          exact both.2
        · intro element member
          obtain ⟨child, within, rfl⟩ := mem_map.mp member
          have key := head_mem_objects same within
          rwa [← keys] at key
      rw [reconstructHelper_eq internFieldNames collected, built]
      exact container_sortFields intern h some
        (children.trans json.children_sortFields.symm)

def rowEntry (row : Row F) : Except Exn (List PathElement × CJSON F) := do
  let path ← parsePath row.path
  let value ← rowValue row
  .ok (path, value)

theorem bind_eq_ok {x : Except Exn A} {f : A → Except Exn B} {b : B}
    (h : x.bind f = .ok b) : ∃ a, x = .ok a ∧ f a = .ok b := by
  cases x with
  | error exn => cases h
  | ok a => exact ⟨a, rfl, h⟩

variable {rows : List (Row F)}

theorem buildPathValueIter_cons {lastRow : Option (Row F)} {row : Row F} {acc kept : Paths F}
    (step : yieldObject lastRow row acc = .ok ([], kept)) :
    buildPathValueIter lastRow acc (row :: rows) = (rowEntry row).bind fun entry =>
      buildPathValueIter (some row) (kept ++ [entry]) rows := by
  simp only [buildPathValueIter, step, rowEntry, bind, Except.bind]
  cases parsePath row.path with
  | error exn => rfl
  | ok path =>
    cases rowValue row with
    | error exn => rfl
    | ok value =>
      dsimp only
      cases buildPathValueIter (some row) (kept ++ [(path, value)]) rows <;> rfl

theorem buildPathValueIter_ok {lrow : Row F} {acc : Paths F}
    {yielded : List (List Char × Paths F)} (ids : ∀ row ∈ rows, row.id = lrow.id)
    (h : buildPathValueIter (some lrow) acc rows = .ok yielded) :
    ∃ entries, rows.mapM rowEntry = .ok entries ∧
      yielded = if (acc ++ entries).isEmpty then [] else [(lrow.id, acc ++ entries)] := by
  induction rows generalizing lrow acc yielded with
  | nil =>
    cases h
    exact ⟨[], rfl, by rw [append_nil]⟩
  | cons row rows ih =>
    have id := ids row mem_cons_self
    have step : yieldObject (some lrow) row acc = .ok ([], acc) := by
      rw [buildPathValueIter] at h
      obtain ⟨⟨early, kept⟩, step, -⟩ := bind_eq_ok h
      rw [yieldObject, id, if_neg (lt_irrefl _), if_pos rfl] at step ⊢
      split_ifs at step ⊢
      rfl
    rw [buildPathValueIter_cons step] at h
    obtain ⟨entry, read, more⟩ := bind_eq_ok h
    obtain ⟨entries, read', rfl⟩ := ih
      (fun other member => (ids other (mem_cons_of_mem _ member)).trans id.symm) more
    refine ⟨entry :: entries, ?_, ?_⟩
    · rw [mapM_cons, read, read']
      rfl
    · rw [append_assoc, id]
      rfl

theorem buildPathValueIter_one {id : List Char}
    {yielded : List (List Char × Paths F)} (some : rows ≠ []) (ids : ∀ row ∈ rows, row.id = id)
    (h : buildPathValueIter none [] rows = .ok yielded) :
    ∃ entries, rows.mapM rowEntry = .ok entries ∧ yielded = [(id, entries)] := by
  cases rows with
  | nil => exact absurd rfl some
  | cons row rows =>
    have first := ids row mem_cons_self
    rw [buildPathValueIter_cons rfl] at h
    obtain ⟨entry, read, more⟩ := bind_eq_ok h
    obtain ⟨entries, read', rfl⟩ := buildPathValueIter_ok
      (fun other member => (ids other (mem_cons_of_mem _ member)).trans first.symm) more
    refine ⟨entry :: entries, ?_, ?_⟩
    · rw [mapM_cons, read, read']
      rfl
    · rw [first]
      rfl

theorem buildPathValueIter_sorted {lrow : Row F} {acc entries : Paths F}
    (ids : ∀ row ∈ rows, row.id = lrow.id) (first : ∀ row ∈ rows, lrow.path < row.path)
    (sorted : rows.Pairwise fun x y => x.path < y.path) (read : rows.mapM rowEntry = .ok entries) :
    buildPathValueIter (some lrow) acc rows =
      .ok (if (acc ++ entries).isEmpty then [] else [(lrow.id, acc ++ entries)]) := by
  induction rows generalizing lrow acc entries with
  | nil =>
    have none : entries = [] := (Except.ok.inj read).symm
    rw [none, append_nil]
    rfl
  | cons row rows ih =>
    have id := ids row mem_cons_self
    have after := first row mem_cons_self
    have step : yieldObject (some lrow) row acc = .ok ([], acc) := by
      rw [yieldObject, id, if_neg (lt_irrefl _), if_pos rfl, if_neg (lt_asymm after),
        if_neg (ne_of_lt after)]
    obtain ⟨entry, one, others⟩ := bind_eq_ok ((mapM_cons (f := rowEntry)).symm.trans read)
    obtain ⟨rest, all, same⟩ := bind_eq_ok others
    cases same
    have rest : buildPathValueIter (some row) (acc ++ [entry]) rows = _ := ih
      (fun other member => (ids other (mem_cons_of_mem _ member)).trans id.symm)
      (pairwise_cons.mp sorted).1 (pairwise_cons.mp sorted).2 all
    rw [buildPathValueIter_cons step, one]
    change buildPathValueIter (some row) (acc ++ [entry]) rows = _
    rw [rest, append_assoc, id]
    rfl

theorem buildPathValueIter_rows {id : List Char} {entries : Paths F}
    (some : rows ≠ []) (ids : ∀ row ∈ rows, row.id = id)
    (sorted : rows.Pairwise fun x y => x.path < y.path) (read : rows.mapM rowEntry = .ok entries) :
    buildPathValueIter none [] rows = .ok [(id, entries)] := by
  cases rows with
  | nil => exact absurd rfl some
  | cons row rows =>
    have first := ids row mem_cons_self
    obtain ⟨entry, one, others⟩ := bind_eq_ok ((mapM_cons (f := rowEntry)).symm.trans read)
    obtain ⟨rest, all, same⟩ := bind_eq_ok others
    cases same
    have rest : buildPathValueIter (Option.some row) [entry] rows = _ :=
      buildPathValueIter_sorted
      (fun other member => (ids other (mem_cons_of_mem _ member)).trans first.symm)
      (pairwise_cons.mp sorted).1 (pairwise_cons.mp sorted).2 all
    rw [buildPathValueIter_cons rfl, one]
    change buildPathValueIter (Option.some row) [entry] rows = _
    rw [rest, first]
    rfl

end SkipPlatform.SKJSON
