import SkipPlatform.DMap

set_option autoImplicit false

/-! Heights in the map used for diffing. Setting a key rebalances every node on its path and
so does extracting a minimum, but removing a key rebuilds the nodes above it as they are. -/
namespace SkipPlatform
namespace DTree
variable {K V : Type}

/-- `balance` with its `invariant_violation` branches. -/
def balanceOrFail (m t : ℕ) (k : K) (v : V) (l r : DTree K V) : Option (DTree K V) :=
  if l.getHeight > r.getHeight + 2 then
    match l with
    | nil => none
    | node lm lt _ lk lv ll lr =>
      if ll.getHeight ≥ lr.getHeight then some (mkNode lm lt lk lv ll (mkNode m t k v lr r))
      else
        match lr with
        | nil => none
        | node lrm lrt _ lrk lrv lrl lrr =>
          some (mkNode lrm lrt lrk lrv (mkNode lm lt lk lv ll lrl) (mkNode m t k v lrr r))
  else if r.getHeight > l.getHeight + 2 then
    match r with
    | nil => none
    | node rm rt _ rk rv rl rr =>
      if rr.getHeight ≥ rl.getHeight then some (mkNode rm rt rk rv (mkNode m t k v l rl) rr)
      else
        match rl with
        | nil => none
        | node rlm rlt _ rlk rlv rll rlr =>
          some (mkNode rlm rlt rlk rlv (mkNode m t k v l rll) (mkNode rm rt rk rv rlr rr))
  else some (mkNode m t k v l r)

def removeMinBindingOrFail : DTree K V → Option ((ℕ × ℕ × K × V) × DTree K V)
  | nil => none
  | node m t _ k v nil r => some ((m, t, k, v), r)
  | node m t _ k v (node lm lt lh lk lv ll lr) r => do
    let (binding, l) ← (node lm lt lh lk lv ll lr).removeMinBindingOrFail
    return (binding, ← balanceOrFail m t k v l r)

def mergeOrFail (t1 t2 : DTree K V) : Option (DTree K V) :=
  match t1, t2 with
  | nil, t => some t
  | t, nil => some t
  | t1, t2 => do
    let ((m, t, k, v), t2) ← t2.removeMinBindingOrFail
    balanceOrFail m t k v t1 t2

section Ordered
variable [LinearOrder K]

def setOrFail (m t : ℕ) (key : K) (value : V) : DTree K V → Option (DTree K V)
  | nil => some (mkNode m t key value nil nil)
  | node m' t' _ k v l r =>
    match compare key k with
    | .lt => do balanceOrFail (max m m') t' k v (← l.setOrFail (max m m') t key value) r
    | .eq => some (mkNode (max m m') t k value l r)
    | .gt => do balanceOrFail (max m m') t' k v l (← r.setOrFail (max m m') t key value)

def removeOrFail (k : K) : DTree K V → Option (DTree K V)
  | nil => some nil
  | node m t _ key value left right =>
    match compare k key with
    | .lt => do return mkNode m t key value (← left.removeOrFail k) right
    | .eq => mergeOrFail left right
    | .gt => do return mkNode m t key value left (← right.removeOrFail k)

end Ordered

theorem balanceOrFail_eq (m t : ℕ) (k : K) (v : V) (l r : DTree K V) :
    balanceOrFail m t k v l r = some (balance m t k v l r) := by
  unfold balanceOrFail balance
  split_ifs with hl hr
  · cases l with
    | nil => exact absurd hl (Nat.not_lt_zero _)
    | node lm lt lh lk lv ll lr =>
      dsimp only
      split_ifs with hh
      · rfl
      · cases lr with
        | nil => exact absurd (Nat.zero_le _) hh
        | node => rfl
  · cases r with
    | nil => exact absurd hr (Nat.not_lt_zero _)
    | node rm rt rh rk rv rl rr =>
      dsimp only
      split_ifs with hh
      · rfl
      · cases rl with
        | nil => exact absurd (Nat.zero_le _) hh
        | node => rfl
  · rfl

theorem removeMinBindingOrFail_eq (t : DTree K V) :
    t.removeMinBindingOrFail = t.removeMinBinding := by
  induction t with
  | nil => rfl
  | node m c h k v l r ihl _ =>
    cases l with
    | nil => rfl
    | node lm lt lh lk lv ll lr =>
      have hrec : ∀ l' : DTree K V, l'.removeMinBindingOrFail = l'.removeMinBinding → l' ≠ nil →
          l'.removeMinBindingOrFail.bind (fun p =>
              (balanceOrFail m c k v p.2 r).bind fun b => some (p.1, b)) =
            (node m c h k v l' r).removeMinBinding := by
        intro l' hl' hne
        rw [hl', removeMinBinding]
        cases hmin : l'.removeMinBinding with
        | none => exact absurd (removeMinBinding_eq_none hmin) hne
        | some p =>
          rw [Option.bind_some, balanceOrFail_eq]
          rfl
      have hne : node lm lt lh lk lv ll lr ≠ nil := by simp
      exact hrec _ ihl hne

theorem mergeOrFail_eq (t1 t2 : DTree K V) : mergeOrFail t1 t2 = some (merge t1 t2) := by
  cases t1 with
  | nil => rfl
  | node m c h k v l r =>
    cases t2 with
    | nil => rfl
    | node m' c' h' k' v' l' r' =>
      change (node m' c' h' k' v' l' r').removeMinBindingOrFail.bind
        (fun p => balanceOrFail p.1.1 p.1.2.1 p.1.2.2.1 p.1.2.2.2 (node m c h k v l r) p.2) = _
      rw [removeMinBindingOrFail_eq, merge]
      cases hmin : (node m' c' h' k' v' l' r').removeMinBinding with
      | none => cases removeMinBinding_eq_none hmin
      | some p => exact balanceOrFail_eq _ _ _ _ _ _

section Ordered
variable [LinearOrder K]

theorem setOrFail_eq (m c : ℕ) (key : K) (value : V) (t : DTree K V) :
    t.setOrFail m c key value = some (t.set m c key value) := by
  induction t generalizing m with
  | nil => rfl
  | node m' c' h k v l r ihl ihr =>
    rw [setOrFail, set]
    cases compare key k with
    | lt =>
      dsimp only
      rw [ihl]
      exact balanceOrFail_eq _ _ _ _ _ _
    | eq => rfl
    | gt =>
      dsimp only
      rw [ihr]
      exact balanceOrFail_eq _ _ _ _ _ _

theorem removeOrFail_eq (k : K) (t : DTree K V) : t.removeOrFail k = some (t.remove k) := by
  induction t with
  | nil => rfl
  | node m c h key v l r ihl ihr =>
    rw [removeOrFail, remove]
    cases compare k key with
    | lt =>
      dsimp only
      rw [ihl]
      rfl
    | eq => exact mergeOrFail_eq l r
    | gt =>
      dsimp only
      rw [ihr]
      rfl

end Ordered

def depth : DTree K V → ℕ
  | nil => 0
  | node _ _ _ _ _ l r => 1 + max l.depth r.depth

def Exact : DTree K V → Prop
  | nil => True
  | node _ _ h _ _ l r => h = 1 + max l.depth r.depth ∧ l.Exact ∧ r.Exact

/-- The heights of the two subtrees of every node differ by at most two. -/
def Level : DTree K V → Prop
  | nil => True
  | node _ _ _ _ _ l r => l.depth ≤ r.depth + 2 ∧ r.depth ≤ l.depth + 2 ∧ l.Level ∧ r.Level

instance decidableLevel : (t : DTree K V) → Decidable t.Level
  | nil => .isTrue trivial
  | node _ _ _ _ _ l r =>
    have := decidableLevel l
    have := decidableLevel r
    inferInstanceAs (Decidable (l.depth ≤ r.depth + 2 ∧ r.depth ≤ l.depth + 2 ∧ l.Level ∧ r.Level))

theorem Exact.getHeight_eq {t : DTree K V} (h : t.Exact) : t.getHeight = t.depth := by
  cases t with
  | nil => rfl
  | node => exact h.1

@[simp] theorem depth_mkNode (m t : ℕ) (k : K) (v : V) (l r : DTree K V) :
    (mkNode m t k v l r).depth = 1 + max l.depth r.depth := rfl

variable {l r : DTree K V} {m t : ℕ} {k : K} {v : V}

theorem exact_mkNode (hl : l.Exact) (hr : r.Exact) :
    (mkNode m t k v l r).Exact := by
  refine ⟨?_, hl, hr⟩
  rw [hl.getHeight_eq, hr.getHeight_eq]

theorem exact_balance (hl : l.Exact)
    (hr : r.Exact) : (balance m t k v l r).Exact := by
  unfold balance
  split_ifs
  · cases l with
    | nil => exact exact_mkNode hl hr
    | node lm lt lh lk lv ll lr =>
      dsimp only
      split_ifs
      · exact exact_mkNode hl.2.1 (exact_mkNode hl.2.2 hr)
      · cases lr with
        | nil => exact exact_mkNode hl hr
        | node =>
          exact exact_mkNode (exact_mkNode hl.2.1 hl.2.2.2.1) (exact_mkNode hl.2.2.2.2 hr)
  · cases r with
    | nil => exact exact_mkNode hl hr
    | node rm rt rh rk rv rl rr =>
      dsimp only
      split_ifs
      · exact exact_mkNode (exact_mkNode hl hr.2.1) hr.2.2
      · cases rl with
        | nil => exact exact_mkNode hl hr
        | node =>
          exact exact_mkNode (exact_mkNode hl hr.2.1.2.1) (exact_mkNode hr.2.1.2.2 hr.2.2)
  · exact exact_mkNode hl hr

theorem exact_removeMinBinding {t rest : DTree K V} {b : ℕ × ℕ × K × V} (ht : t.Exact)
    (h : t.removeMinBinding = some (b, rest)) : rest.Exact := by
  induction t generalizing b rest with
  | nil => cases h
  | node m c h' k v l r ihl _ =>
    rw [removeMinBinding] at h
    split at h
    · cases h
      exact ht.2.2
    · rename_i binding l' hl
      cases h
      exact exact_balance (ihl ht.2.1 hl) ht.2.2

theorem exact_merge {t1 t2 : DTree K V} (h1 : t1.Exact) (h2 : t2.Exact) :
    (merge t1 t2).Exact := by
  cases t1 with
  | nil => exact h2
  | node m c h k v l r =>
    rw [merge]
    split
    · exact h1
    · rename_i hmin
      exact exact_balance h1 (exact_removeMinBinding h2 hmin)

/-- The height a rotation gives to two subtrees three levels apart, `t` the higher one. -/
def rotated : DTree K V → ℕ
  | nil => 1
  | node _ _ _ _ _ l r =>
    if l.depth = r.depth then 2 + max l.depth r.depth else 1 + max l.depth r.depth

theorem rotated_bounds {t : DTree K V} (h : 0 < t.depth) :
    t.depth ≤ t.rotated ∧ t.rotated ≤ t.depth + 1 := by
  cases t with
  | nil => exact absurd h (lt_irrefl 0)
  | node m c h' k v l r =>
    rw [rotated, depth]
    split_ifs <;> omega

theorem balance_left (hl : l.Exact) (hr : r.Exact)
    (hll : l.Level) (hrl : r.Level) (h : l.depth = r.depth + 3) :
    (balance m t k v l r).Level ∧ (balance m t k v l r).depth = l.rotated := by
  unfold balance
  rw [if_pos (by rw [hl.getHeight_eq, hr.getHeight_eq]; omega)]
  cases l with
  | nil => cases h
  | node lm lt lh lk lv ll lr =>
    change 1 + max ll.depth lr.depth = r.depth + 3 at h
    have hdl := hll.1
    have hdr := hll.2.1
    have hlow : (mkNode m t k v lr r).depth = 1 + max lr.depth r.depth := rfl
    dsimp only
    rw [hl.2.1.getHeight_eq, hl.2.2.getHeight_eq]
    by_cases hh : ll.depth ≥ lr.depth
    · rw [if_pos hh, depth_mkNode, hlow, rotated]
      constructor
      · refine ⟨?_, ?_, hll.2.2.1, ⟨?_, ?_, hll.2.2.2, hrl⟩⟩ <;> omega
      · split_ifs <;> omega
    · rw [if_neg hh]
      cases lr with
      | nil => exact absurd (Nat.zero_le _) hh
      | node lrm lrt lrh lrk lrv lrl lrr =>
        change 1 + max ll.depth (1 + max lrl.depth lrr.depth) = r.depth + 3 at h
        change ¬ ll.depth ≥ 1 + max lrl.depth lrr.depth at hh
        change ll.depth ≤ 1 + max lrl.depth lrr.depth + 2 at hdl
        change 1 + max lrl.depth lrr.depth ≤ ll.depth + 2 at hdr
        have hel := hll.2.2.2.1
        have her := hll.2.2.2.2.1
        have hleft : (mkNode lm lt lk lv ll lrl).depth = 1 + max ll.depth lrl.depth := rfl
        have hright : (mkNode m t k v lrr r).depth = 1 + max lrr.depth r.depth := rfl
        constructor
        · refine ⟨?_, ?_, ⟨?_, ?_, hll.2.2.1, hll.2.2.2.2.2.1⟩, ⟨?_, ?_, hll.2.2.2.2.2.2, hrl⟩⟩
          all_goals omega
        · rw [depth_mkNode, hleft, hright, rotated, depth]
          split_ifs <;> omega

theorem balance_right (hl : l.Exact) (hr : r.Exact)
    (hll : l.Level) (hrl : r.Level) (h : r.depth = l.depth + 3) :
    (balance m t k v l r).Level ∧ (balance m t k v l r).depth = r.rotated := by
  unfold balance
  rw [if_neg (by rw [hl.getHeight_eq, hr.getHeight_eq]; omega),
    if_pos (by rw [hl.getHeight_eq, hr.getHeight_eq]; omega)]
  cases r with
  | nil => cases h
  | node rm rt rh rk rv rl rr =>
    change 1 + max rl.depth rr.depth = l.depth + 3 at h
    have hdl := hrl.1
    have hdr := hrl.2.1
    have hlow : (mkNode m t k v l rl).depth = 1 + max l.depth rl.depth := rfl
    dsimp only
    rw [hr.2.1.getHeight_eq, hr.2.2.getHeight_eq]
    by_cases hh : rr.depth ≥ rl.depth
    · rw [if_pos hh, depth_mkNode, hlow, rotated]
      constructor
      · refine ⟨?_, ?_, ⟨?_, ?_, hll, hrl.2.2.1⟩, hrl.2.2.2⟩ <;> omega
      · split_ifs <;> omega
    · rw [if_neg hh]
      cases rl with
      | nil => exact absurd (Nat.zero_le _) hh
      | node rlm rlt rlh rlk rlv rll rlr =>
        change 1 + max (1 + max rll.depth rlr.depth) rr.depth = l.depth + 3 at h
        change ¬ rr.depth ≥ 1 + max rll.depth rlr.depth at hh
        change 1 + max rll.depth rlr.depth ≤ rr.depth + 2 at hdl
        change rr.depth ≤ 1 + max rll.depth rlr.depth + 2 at hdr
        have hel := hrl.2.2.1.1
        have her := hrl.2.2.1.2.1
        have hleft : (mkNode m t k v l rll).depth = 1 + max l.depth rll.depth := rfl
        have hright : (mkNode rm rt rk rv rlr rr).depth = 1 + max rlr.depth rr.depth := rfl
        constructor
        · refine ⟨?_, ?_, ⟨?_, ?_, hll, hrl.2.2.1.2.2.1⟩, ⟨?_, ?_, hrl.2.2.1.2.2.2, hrl.2.2.2⟩⟩
          all_goals omega
        · rw [depth_mkNode, hleft, hright, rotated, depth]
          split_ifs <;> omega

theorem balance_near (hl : l.Exact) (hr : r.Exact)
    (hll : l.Level) (hrl : r.Level) (h1 : l.depth ≤ r.depth + 2) (h2 : r.depth ≤ l.depth + 2) :
    (balance m t k v l r).Level ∧
      (balance m t k v l r).depth = 1 + max l.depth r.depth := by
  unfold balance
  rw [if_neg (by rw [hl.getHeight_eq, hr.getHeight_eq]; omega),
    if_neg (by rw [hl.getHeight_eq, hr.getHeight_eq]; omega)]
  exact ⟨⟨h1, h2, hll, hrl⟩, rfl⟩

/-- Whether a node, rebalanced after the subtree `lost` lost a level, loses one as well. -/
def Sinks (lost other : DTree K V) : Prop :=
  other.depth < lost.depth ∨ other.depth = lost.depth + 2 ∧ other.rotated = other.depth

def MinLowers : DTree K V → Prop
  | nil => False
  | node _ _ _ _ _ nil _ => True
  | node _ _ _ _ _ (node lm lt lh lk lv ll lr) r =>
    (node lm lt lh lk lv ll lr).MinLowers ∧ Sinks (node lm lt lh lk lv ll lr) r

/-- Whether the merge of two subtrees is lower than the node they hung from. -/
def MergeLowers (l r : DTree K V) : Prop :=
  l = nil ∨ r = nil ∨ r.MinLowers ∧ Sinks r l

theorem balance_lost_left {l l' r : DTree K V} (hl : l'.Exact)
    (hr : r.Exact) (hll : l'.Level) (hrl : r.Level) (h1 : l.depth ≤ r.depth + 2)
    (h2 : r.depth ≤ l.depth + 2) (h : l'.depth + 1 = l.depth) :
    (balance m t k v l' r).Level ∧
      (Sinks l r → (balance m t k v l' r).depth + 1 = 1 + max l.depth r.depth) ∧
      (¬ Sinks l r → (balance m t k v l' r).depth = 1 + max l.depth r.depth) := by
  unfold Sinks
  by_cases hfar : r.depth = l.depth + 2
  · have hpos : 0 < r.depth := by omega
    obtain ⟨hlevel, hdepth⟩ := balance_right (m := m) (t := t) (k := k) (v := v) hl hr hll hrl
      (by omega)
    have hb := rotated_bounds hpos
    refine ⟨hlevel, ?_, ?_⟩
    · intro hs
      omega
    · intro hs
      omega
  · obtain ⟨hlevel, hdepth⟩ := balance_near (m := m) (t := t) (k := k) (v := v) hl hr hll hrl
      (by omega) (by omega)
    refine ⟨hlevel, ?_, ?_⟩
    · intro hs
      omega
    · intro hs
      omega

theorem balance_lost_right {l r r' : DTree K V} (hl : l.Exact)
    (hr : r'.Exact) (hll : l.Level) (hrl : r'.Level) (h1 : l.depth ≤ r.depth + 2)
    (h2 : r.depth ≤ l.depth + 2) (h : r'.depth + 1 = r.depth) :
    (balance m t k v l r').Level ∧
      (Sinks r l → (balance m t k v l r').depth + 1 = 1 + max l.depth r.depth) ∧
      (¬ Sinks r l → (balance m t k v l r').depth = 1 + max l.depth r.depth) := by
  unfold Sinks
  by_cases hfar : l.depth = r.depth + 2
  · have hpos : 0 < l.depth := by omega
    obtain ⟨hlevel, hdepth⟩ := balance_left (m := m) (t := t) (k := k) (v := v) hl hr hll hrl
      (by omega)
    have hb := rotated_bounds hpos
    refine ⟨hlevel, ?_, ?_⟩
    · intro hs
      omega
    · intro hs
      omega
  · obtain ⟨hlevel, hdepth⟩ := balance_near (m := m) (t := t) (k := k) (v := v) hl hr hll hrl
      (by omega) (by omega)
    refine ⟨hlevel, ?_, ?_⟩
    · intro hs
      omega
    · intro hs
      omega

theorem level_removeMinBinding {t rest : DTree K V} {b : ℕ × ℕ × K × V} (ht : t.Exact)
    (hlevel : t.Level) (h : t.removeMinBinding = some (b, rest)) :
    rest.Level ∧ (t.MinLowers → rest.depth + 1 = t.depth) ∧
      (¬ t.MinLowers → rest.depth = t.depth) := by
  induction t generalizing b rest with
  | nil => cases h
  | node m c h' k v l r ihl _ =>
    cases l with
    | nil =>
      cases h
      refine ⟨hlevel.2.2.2, fun _ => ?_, fun hno => absurd trivial hno⟩
      change r.depth + 1 = 1 + max 0 r.depth
      omega
    | node lm lt lh lk lv ll lr =>
      rw [removeMinBinding] at h
      split at h
      · rename_i hnone
        cases removeMinBinding_eq_none hnone
      · rename_i binding l' hl
        cases h
        obtain ⟨hl', hyes, hno⟩ := ihl ht.2.1 hlevel.2.2.1 hl
        have hexact := exact_removeMinBinding ht.2.1 hl
        by_cases hmin : (node lm lt lh lk lv ll lr).MinLowers
        · obtain ⟨hb, hsink, hstay⟩ := balance_lost_left (m := m) (t := c) (k := k) (v := v) hexact
            ht.2.2 hl' hlevel.2.2.2 hlevel.1 hlevel.2.1 (hyes hmin)
          refine ⟨hb, fun hs => hsink hs.2, fun hs => hstay fun hs' => hs ⟨hmin, hs'⟩⟩
        · have hsame := hno hmin
          have h1 := hlevel.1
          have h2 := hlevel.2.1
          obtain ⟨hb, hdepth⟩ := balance_near (m := m) (t := c) (k := k) (v := v) hexact ht.2.2 hl'
            hlevel.2.2.2 (by omega) (by omega)
          refine ⟨hb, fun hs => absurd hs.1 hmin, fun _ => ?_⟩
          rw [hdepth, hsame]
          rfl

theorem level_merge (hl : l.Exact) (hr : r.Exact) (hll : l.Level)
    (hrl : r.Level) (h1 : l.depth ≤ r.depth + 2) (h2 : r.depth ≤ l.depth + 2) :
    (merge l r).Level ∧ (MergeLowers l r → (merge l r).depth + 1 = 1 + max l.depth r.depth) ∧
      (¬ MergeLowers l r → (merge l r).depth = 1 + max l.depth r.depth) := by
  unfold MergeLowers
  cases l with
  | nil =>
    refine ⟨hrl, fun _ => ?_, fun hno => absurd (Or.inl rfl) hno⟩
    change r.depth + 1 = 1 + max 0 r.depth
    omega
  | node m c h k v ll lr =>
    rw [merge]
    split
    · rename_i hnone
      have hnil := removeMinBinding_eq_none hnone
      subst hnil
      refine ⟨hll, fun _ => ?_, fun hno => absurd (Or.inr (Or.inl rfl)) hno⟩
      change _ = 1 + max _ 0
      omega
    · rename_i m' c' k' v' rest hmin
      obtain ⟨hrest, hyes, hno⟩ := level_removeMinBinding hr hrl hmin
      have hexact := exact_removeMinBinding hr hmin
      have hne : r ≠ nil := by
        intro hnil
        subst hnil
        cases hmin
      by_cases hlow : r.MinLowers
      · obtain ⟨hb, hsink, hstay⟩ := balance_lost_right (m := m') (t := c') (k := k') (v := v') hl
          hexact hll hrest h1 h2 (hyes hlow)
        refine ⟨hb, ?_, fun hs => hstay fun hs' => hs (Or.inr (Or.inr ⟨hlow, hs'⟩))⟩
        intro hs
        rcases hs with hs | hs | hs
        · cases hs
        · exact absurd hs hne
        · exact hsink hs.2
      · have hsame := hno hlow
        obtain ⟨hb, hdepth⟩ := balance_near (m := m') (t := c') (k := k') (v := v') hl hexact hll
          hrest (by omega) (by omega)
        refine ⟨hb, ?_, fun _ => by rw [hdepth, hsame]⟩
        intro hs
        rcases hs with hs | hs | hs
        · cases hs
        · exact absurd hs hne
        · exact absurd hs.1 hlow

section Ordered
variable [LinearOrder K]

variable {t : DTree K V}

theorem exact_set (h : t.Exact) (m c : ℕ) (key : K) (value : V) :
    (t.set m c key value).Exact := by
  induction t generalizing m with
  | nil => exact exact_mkNode trivial trivial
  | node m' c' h' k v l r ihl ihr =>
    rw [set]
    cases compare key k with
    | lt => exact exact_balance (ihl h.2.1 _) h.2.2
    | eq => exact exact_mkNode h.2.1 h.2.2
    | gt => exact exact_balance h.2.1 (ihr h.2.2 _)

theorem exact_remove (h : t.Exact) (k : K) : (t.remove k).Exact := by
  induction t with
  | nil => trivial
  | node m c h' key v l r ihl ihr =>
    rw [remove]
    cases compare k key with
    | lt => exact exact_mkNode (ihl h.2.1) h.2.2
    | eq => exact exact_merge h.2.1 h.2.2
    | gt => exact exact_mkNode h.2.1 (ihr h.2.2)

theorem level_set (h : t.Exact) (hlevel : t.Level) (m c : ℕ) (key : K)
    (value : V) :
    (t.set m c key value).Level ∧ t.depth ≤ (t.set m c key value).depth ∧
      (t.set m c key value).depth ≤ t.depth + 1 := by
  induction t generalizing m with
  | nil => exact ⟨⟨by omega, by omega, trivial, trivial⟩, Nat.zero_le _, le_rfl⟩
  | node m' c' h' k v l r ihl ihr =>
    have h1 := hlevel.1
    have h2 := hlevel.2.1
    have hdepth : (node m' c' h' k v l r).depth = 1 + max l.depth r.depth := rfl
    rw [set, hdepth]
    cases compare key k with
    | lt =>
      dsimp only
      obtain ⟨hl, hlow, hhigh⟩ := ihl h.2.1 hlevel.2.2.1 (max m m')
      have hexact := exact_set h.2.1 (max m m') c key value
      by_cases hfar : (l.set (max m m') c key value).depth = r.depth + 3
      · obtain ⟨hb, hd⟩ := balance_left (m := max m m') (t := c') (k := k) (v := v) hexact h.2.2 hl
          hlevel.2.2.2 hfar
        have hr := rotated_bounds (t := l.set (max m m') c key value) (by omega)
        exact ⟨hb, by omega, by omega⟩
      · obtain ⟨hb, hd⟩ := balance_near (m := max m m') (t := c') (k := k) (v := v) hexact h.2.2 hl
          hlevel.2.2.2 (by omega) (by omega)
        exact ⟨hb, by omega, by omega⟩
    | eq => exact ⟨⟨h1, h2, hlevel.2.2⟩, le_rfl, Nat.le_succ _⟩
    | gt =>
      dsimp only
      obtain ⟨hr, hlow, hhigh⟩ := ihr h.2.2 hlevel.2.2.2 (max m m')
      have hexact := exact_set h.2.2 (max m m') c key value
      by_cases hfar : (r.set (max m m') c key value).depth = l.depth + 3
      · obtain ⟨hb, hd⟩ := balance_right (m := max m m') (t := c') (k := k) (v := v) h.2.1 hexact
          hlevel.2.2.1 hr hfar
        have hr := rotated_bounds (t := r.set (max m m') c key value) (by omega)
        exact ⟨hb, by omega, by omega⟩
      · obtain ⟨hb, hd⟩ := balance_near (m := max m m') (t := c') (k := k) (v := v) h.2.1 hexact
          hlevel.2.2.1 hr (by omega) (by omega)
        exact ⟨hb, by omega, by omega⟩

/-- Whether removing a key lowers the tree, if every node above it stays level. -/
def Lowers (k : K) : DTree K V → Prop
  | nil => False
  | node _ _ _ key _ l r =>
    match compare k key with
    | .lt => l.Lowers k ∧ r.depth < l.depth
    | .eq => MergeLowers l r
    | .gt => r.Lowers k ∧ l.depth < r.depth

/-- No node above the removed key has a subtree two levels higher than the one the removal
lowers. -/
def RemovalFits (k : K) : DTree K V → Prop
  | nil => True
  | node _ _ _ key _ l r =>
    match compare k key with
    | .lt => l.RemovalFits k ∧ (l.Lowers k → r.depth ≤ l.depth + 1)
    | .eq => True
    | .gt => r.RemovalFits k ∧ (r.Lowers k → l.depth ≤ r.depth + 1)

theorem level_remove (h : t.Exact) (hlevel : t.Level) {k : K}
    (hfits : t.RemovalFits k) :
    (t.remove k).Level ∧ (t.Lowers k → (t.remove k).depth + 1 = t.depth) ∧
      (¬ t.Lowers k → (t.remove k).depth = t.depth) := by
  induction t with
  | nil => exact ⟨trivial, nofun, fun _ => rfl⟩
  | node m c h' key v l r ihl ihr =>
    have h1 := hlevel.1
    have h2 := hlevel.2.1
    have hdepth : (node m c h' key v l r).depth = 1 + max l.depth r.depth := rfl
    rw [RemovalFits] at hfits
    rw [remove, Lowers, hdepth]
    cases hc : compare k key with
    | lt =>
      rw [hc] at hfits
      obtain ⟨hl, hyes, hno⟩ := ihl h.2.1 hlevel.2.2.1 hfits.1
      dsimp only
      rw [depth_mkNode]
      by_cases hlow : l.Lowers k
      · have hlost := hyes hlow
        have hroom := hfits.2 hlow
        refine ⟨⟨by omega, by omega, hl, hlevel.2.2.2⟩, ?_, ?_⟩
        · intro hs
          have := hs.2
          omega
        · intro hs
          have hge : ¬ r.depth < l.depth := fun hlt => hs ⟨hlow, hlt⟩
          omega
      · rw [hno hlow]
        refine ⟨⟨?_, ?_, hl, hlevel.2.2.2⟩, fun hs => absurd hs.1 hlow, fun _ => rfl⟩
        · rw [hno hlow]
          exact h1
        · rw [hno hlow]
          exact h2
    | eq => exact level_merge h.2.1 h.2.2 hlevel.2.2.1 hlevel.2.2.2 h1 h2
    | gt =>
      rw [hc] at hfits
      obtain ⟨hr, hyes, hno⟩ := ihr h.2.2 hlevel.2.2.2 hfits.1
      dsimp only
      rw [depth_mkNode]
      by_cases hlow : r.Lowers k
      · have hlost := hyes hlow
        have hroom := hfits.2 hlow
        refine ⟨⟨by omega, by omega, hlevel.2.2.1, hr⟩, ?_, ?_⟩
        · intro hs
          have := hs.2
          omega
        · intro hs
          have hge : ¬ l.depth < r.depth := fun hlt => hs ⟨hlow, hlt⟩
          omega
      · rw [hno hlow]
        refine ⟨⟨?_, ?_, hlevel.2.2.1, hr⟩, fun hs => absurd hs.1 hlow, fun _ => rfl⟩
        · rw [hno hlow]
          exact h1
        · rw [hno hlow]
          exact h2

theorem fits_of_level_remove (h : t.Exact) (hlevel : t.Level) {k : K}
    (hrem : (t.remove k).Level) : t.RemovalFits k := by
  induction t with
  | nil => trivial
  | node m c h' key v l r ihl ihr =>
    have h1 := hlevel.1
    have h2 := hlevel.2.1
    rw [remove] at hrem
    rw [RemovalFits]
    cases hc : compare k key with
    | lt =>
      rw [hc] at hrem
      have hfits := ihl h.2.1 hlevel.2.2.1 hrem.2.2.1
      refine ⟨hfits, fun hlow => ?_⟩
      have hlost := (level_remove h.2.1 hlevel.2.2.1 hfits).2.1 hlow
      have := hrem.2.1
      omega
    | eq => trivial
    | gt =>
      rw [hc] at hrem
      have hfits := ihr h.2.2 hlevel.2.2.2 hrem.2.2.2
      refine ⟨hfits, fun hlow => ?_⟩
      have hlost := (level_remove h.2.2 hlevel.2.2.2 hfits).2.1 hlow
      have := hrem.1
      omega

end Ordered

inductive MapOp (K V : Type) : Type where
  | set (tick : ℕ) (key : K) (value : V)
  | remove (key : K)

namespace MapOp
variable [LinearOrder K]

def apply (t : DTree K V) : MapOp K V → Option (DTree K V)
  | set tick key value => t.setOrFail tick tick key value
  | remove key => t.removeOrFail key

/-- The tree `apply` makes, which never fails. -/
def result (t : DTree K V) : MapOp K V → DTree K V
  | set tick key value => t.set tick tick key value
  | remove key => t.remove key

def Fits (t : DTree K V) : MapOp K V → Prop
  | set _ _ _ => True
  | remove key => t.RemovalFits key

theorem apply_eq (t : DTree K V) (op : MapOp K V) : op.apply t = some (op.result t) := by
  cases op with
  | set tick key value => exact setOrFail_eq tick tick key value t
  | remove key => exact removeOrFail_eq key t

end MapOp

section Runs
variable [LinearOrder K]

/-- A run from a tree, and nothing when `balance` hits an `invariant_violation`. -/
def run (t : DTree K V) : List (MapOp K V) → Option (DTree K V)
  | [] => some t
  | op :: ops => do run (← op.apply t) ops

def FittingRun (t : DTree K V) : List (MapOp K V) → Prop
  | [] => True
  | op :: ops => op.Fits t ∧ FittingRun (op.result t) ops

structure Balanced (t : DTree K V) : Prop where
  exact : t.Exact
  level : t.Level
  ordered : t.Ordered

theorem run_cons (t : DTree K V) (op : MapOp K V) (ops : List (MapOp K V)) :
    t.run (op :: ops) = (op.result t).run ops := by
  rw [run, MapOp.apply_eq]
  rfl

theorem Balanced.result {t : DTree K V} (h : t.Balanced) {op : MapOp K V} (hf : op.Fits t) :
    (op.result t).Balanced := by
  cases op with
  | set tick key value =>
    exact ⟨exact_set h.exact tick tick key value, (level_set h.exact h.level tick tick key value).1,
      ordered_set h.ordered tick tick key value⟩
  | remove key =>
    exact ⟨exact_remove h.exact key, (level_remove h.exact h.level hf).1,
      ordered_remove h.ordered key⟩

theorem Balanced.fits {t : DTree K V} (h : t.Balanced) {op : MapOp K V}
    (hr : (op.result t).Balanced) : op.Fits t := by
  cases op with
  | set tick key value => trivial
  | remove key => exact fits_of_level_remove h.exact h.level hr.level

theorem run_balanced_from {t : DTree K V} (h : t.Balanced) (ops : List (MapOp K V)) :
    (∀ pre, pre <+: ops → ∃ t', t.run pre = some t' ∧ t'.Balanced) ↔ t.FittingRun ops := by
  induction ops generalizing t with
  | nil =>
    refine iff_of_true ?_ trivial
    intro pre hpre
    rw [List.prefix_nil.mp hpre]
    exact ⟨t, rfl, h⟩
  | cons op ops ih =>
    constructor
    · intro hall
      obtain ⟨t', hrun, hbal⟩ := hall [op] (List.prefix_append [op] ops)
      rw [run_cons] at hrun
      cases hrun
      refine ⟨h.fits hbal, (ih hbal).mp ?_⟩
      intro pre hpre
      have hstep := hall (op :: pre) ((List.prefix_cons_inj op).mpr hpre)
      rw [run_cons] at hstep
      exact hstep
    · intro hfit pre hpre
      cases pre with
      | nil => exact ⟨t, rfl, h⟩
      | cons op' pre =>
        obtain ⟨hop, hpre⟩ := List.cons_prefix_cons.mp hpre
        rw [hop, run_cons]
        exact (ih (h.result hfit.1)).mpr hfit.2 pre hpre

/-- Every tree a run from the empty map passes through is a balanced search tree exactly when
each of its removals fits. -/
theorem run_balanced_iff (ops : List (MapOp K V)) :
    (∀ pre, pre <+: ops → ∃ t, (nil : DTree K V).run pre = some t ∧ t.Balanced) ↔
      (nil : DTree K V).FittingRun ops := by
  have hnil : (nil : DTree K V).Balanced := ⟨trivial, trivial, List.Pairwise.nil⟩
  exact run_balanced_from hnil ops

/-- Removing `1`, all that hangs to the left of `2`, leaves three levels to the right. -/
theorem remove_not_level :
    ¬ ∃ t, (nil : DTree ℕ ℕ).run [.set 1 2 0, .set 1 1 0, .set 1 3 0, .set 1 4 0, .set 1 5 0,
      .remove 1] = some t ∧ t.Level := by
  intro ⟨t, hrun, hlevel⟩
  have hbad : ∀ t' ∈ (nil : DTree ℕ ℕ).run [.set 1 2 0, .set 1 1 0, .set 1 3 0, .set 1 4 0,
      .set 1 5 0, .remove 1], ¬ t'.Level := by
    decide
  exact hbad t hrun hlevel

end Runs
end DTree
end SkipPlatform
