import Mathlib.Tactic
import Mathlib.Data.List.Sort

/-!
Running totals per key: a dictionary updated by `d[k] = d.get(k, 0) + w`.

* `Tally`: the items of such a dictionary in insertion order, no key occurring twice.
* `sumAt`: the total an arbitrary list of weighted keys gives to one key; `sumAt_ofList` says
  that tallying a list keeps it, and `grandTotal_ofList` that it keeps the grand total.
* `Tally.perm_of_sumAt_eq`: a dictionary without zero entries is determined by the totals of its
  keys, up to order.
* `sum_div_le`, `lt_sum_div_add`: the floored proportional shares of an amount never exceed it, and
  fall short of it by less than their number.
-/

namespace P2Pearl

variable {κ M : Type}

/-- The grand total of a list of weighted keys. -/
def grandTotal [AddMonoid M] (l : List (κ × M)) : M := (l.map Prod.snd).sum

/-- A dictionary of running totals. -/
structure Tally (κ M : Type) where
  items : List (κ × M)
  nodup : (items.map Prod.fst).Nodup

/-- The keys, in insertion order. -/
def Tally.keys (t : Tally κ M) : List κ := t.items.map Prod.fst

lemma Tally.items_nodup (t : Tally κ M) : t.items.Nodup := t.nodup.of_map

/-- The empty dictionary. -/
def Tally.empty : Tally κ M := ⟨[], List.nodup_nil⟩

section GrandTotal

variable [AddMonoid M]

@[simp] lemma grandTotal_nil : grandTotal ([] : List (κ × M)) = 0 := rfl

@[simp] lemma grandTotal_cons (p : κ × M) (l : List (κ × M)) :
    grandTotal (p :: l) = p.2 + grandTotal l := by simp [grandTotal]

end GrandTotal

variable [DecidableEq κ]

/-- The total weight a list gives to the key `k`. -/
def sumAt [AddMonoid M] (l : List (κ × M)) (k : κ) : M :=
  ((l.filter fun p => p.1 = k).map Prod.snd).sum

/-- `d[k] = d.get(k, 0) + w`: an old key is updated in place, a new one goes to the end. -/
def bump [Add M] (k : κ) (w : M) : List (κ × M) → List (κ × M)
  | [] => [(k, w)]
  | p :: l => if p.1 = k then (k, p.2 + w) :: l else p :: bump k w l

section Bump

variable [AddCommMonoid M]

@[simp] lemma sumAt_nil (k : κ) : sumAt ([] : List (κ × M)) k = 0 := rfl

lemma sumAt_cons (p : κ × M) (l : List (κ × M)) (k : κ) :
    sumAt (p :: l) k = (if p.1 = k then p.2 else 0) + sumAt l k := by
  by_cases h : p.1 = k <;> simp [sumAt, h]

lemma map_fst_bump (k : κ) (w : M) (l : List (κ × M)) :
    (bump k w l).map Prod.fst
      = if k ∈ l.map Prod.fst then l.map Prod.fst else l.map Prod.fst ++ [k] := by
  induction l with
  | nil => simp [bump]
  | cons p l ih =>
      by_cases h : p.1 = k
      · simp [bump, h]
      · have h' : k ≠ p.1 := fun e => h e.symm
        rw [bump, if_neg h, List.map_cons, ih, List.map_cons]
        by_cases hk : k ∈ l.map Prod.fst
        · rw [if_pos hk, if_pos (List.mem_cons_of_mem _ hk)]
        · rw [if_neg hk, if_neg (by simp [h', hk])]; rfl

lemma sumAt_bump (k : κ) (w : M) (l : List (κ × M)) (j : κ) :
    sumAt (bump k w l) j = sumAt l j + if k = j then w else 0 := by
  induction l with
  | nil => simp [bump, sumAt_cons]
  | cons p l ih =>
      by_cases h : p.1 = k
      · by_cases hj : k = j
        · simp only [bump, h, if_true, sumAt_cons, hj]; abel
        · simp [bump, h, sumAt_cons, hj]
      · rw [bump, if_neg h, sumAt_cons, sumAt_cons, ih, add_assoc]

lemma grandTotal_bump (k : κ) (w : M) (l : List (κ × M)) :
    grandTotal (bump k w l) = grandTotal l + w := by
  induction l with
  | nil => simp [bump]
  | cons p l ih =>
      by_cases h : p.1 = k
      · simp only [bump, h, if_true, grandTotal_cons]; abel
      · simp only [bump, h, if_false, grandTotal_cons, ih]; abel

/-- A total stays positive when nothing negative is added. -/
lemma exists_pos_bump [PartialOrder M] [IsOrderedAddMonoid M] {l : List (κ × M)}
    (h : ∃ p ∈ l, 0 < p.2) (k : κ) {w : M} (hw : 0 ≤ w) : ∃ p ∈ bump k w l, 0 < p.2 := by
  induction l with
  | nil => exact absurd h (by simp)
  | cons q l ih =>
      obtain ⟨p, hp, hpos⟩ := h
      rw [bump]
      split_ifs with hq
      · rcases List.mem_cons.mp hp with rfl | hp
        · exact ⟨_, List.mem_cons_self, add_pos_of_pos_of_nonneg hpos hw⟩
        · exact ⟨p, List.mem_cons_of_mem _ hp, hpos⟩
      · rcases List.mem_cons.mp hp with rfl | hp
        · exact ⟨p, List.mem_cons_self, hpos⟩
        · obtain ⟨r, hr, hrpos⟩ := ih ⟨p, hp, hpos⟩
          exact ⟨r, List.mem_cons_of_mem _ hr, hrpos⟩

end Bump

namespace Tally

/-- `del d[k]`. -/
def erase (t : Tally κ M) (k : κ) : Tally κ M :=
  ⟨t.items.filter fun p => p.1 ≠ k,
    t.nodup.sublist ((List.filter_sublist (p := fun p => decide (p.1 ≠ k))).map Prod.fst)⟩

/-- Deleting the key of an entry takes out that entry and no other. -/
lemma perm_cons_erase (t : Tally κ M) {p : κ × M} (hp : p ∈ t.items) :
    t.items.Perm (p :: (t.erase p.1).items) := by
  have hnotin : p ∉ (t.erase p.1).items := fun h => by simp [erase] at h
  refine (List.perm_ext_iff_of_nodup t.items_nodup
    (List.nodup_cons.mpr ⟨hnotin, (t.erase p.1).items_nodup⟩)).mpr fun q => ?_
  rw [List.mem_cons, erase, List.mem_filter, decide_eq_true_eq]
  constructor
  · intro hq
    by_cases hkey : q.1 = p.1
    · exact Or.inl (List.inj_on_of_nodup_map t.nodup hq hp hkey)
    · exact Or.inr ⟨hq, hkey⟩
  · rintro (rfl | ⟨hq, -⟩)
    · exact hp
    · exact hq

variable [AddCommMonoid M]

/-- `d[k] = d.get(k, 0) + w`. -/
def add (t : Tally κ M) (k : κ) (w : M) : Tally κ M where
  items := bump k w t.items
  nodup := by
    rw [map_fst_bump]
    split_ifs with h
    · exact t.nodup
    · exact List.nodup_append.mpr ⟨t.nodup, List.nodup_singleton k,
        fun a ha b hb e => h (List.mem_singleton.mp hb ▸ e ▸ ha)⟩

/-- The same of a dictionary. -/
lemma exists_pos_add [PartialOrder M] [IsOrderedAddMonoid M] {t : Tally κ M}
    (h : ∃ p ∈ t.items, 0 < p.2) (k : κ) {w : M} (hw : 0 ≤ w) :
    ∃ p ∈ (t.add k w).items, 0 < p.2 := exists_pos_bump h k hw

/-- The tally of a list of weighted keys. -/
def ofList (l : List (κ × M)) : Tally κ M := l.foldl (fun t p => t.add p.1 p.2) empty

lemma mem_keys_add (t : Tally κ M) (k : κ) (w : M) (j : κ) :
    j ∈ (t.add k w).keys ↔ j ∈ t.keys ∨ j = k := by
  rw [keys, add, map_fst_bump]
  split_ifs with h
  · exact ⟨Or.inl, fun h' => h'.elim id fun e => e ▸ h⟩
  · rw [List.mem_append, List.mem_singleton]; rfl

/-- What holds of the empty dictionary and survives one update holds of every tally: the
keys of a list, folded in. -/
lemma mem_keys_foldl (l : List (κ × M)) (t : Tally κ M) (j : κ) :
    j ∈ (l.foldl (fun t p => t.add p.1 p.2) t).keys ↔ j ∈ t.keys ∨ j ∈ l.map Prod.fst := by
  induction l generalizing t with
  | nil => simp
  | cons p l ih => rw [List.foldl_cons, ih, mem_keys_add, List.map_cons, List.mem_cons, or_assoc]

lemma mem_keys_ofList (l : List (κ × M)) (j : κ) :
    j ∈ (ofList l).keys ↔ j ∈ l.map Prod.fst := by
  rw [ofList, mem_keys_foldl]; simp [keys, empty]

lemma sumAt_foldl (l : List (κ × M)) (t : Tally κ M) (k : κ) :
    sumAt (l.foldl (fun t p => t.add p.1 p.2) t).items k = sumAt t.items k + sumAt l k := by
  induction l generalizing t with
  | nil => simp
  | cons p l ih => rw [List.foldl_cons, ih, add, sumAt_bump, sumAt_cons, add_assoc]

/-- Tallying keeps the total of every key. -/
lemma sumAt_ofList (l : List (κ × M)) (k : κ) : sumAt (ofList l).items k = sumAt l k := by
  rw [ofList, sumAt_foldl]; simp [empty]

lemma grandTotal_foldl (l : List (κ × M)) (t : Tally κ M) :
    grandTotal (l.foldl (fun t p => t.add p.1 p.2) t).items
      = grandTotal t.items + grandTotal l := by
  induction l generalizing t with
  | nil => simp
  | cons p l ih => rw [List.foldl_cons, ih, add, grandTotal_bump, grandTotal_cons, add_assoc]

/-- Tallying keeps the grand total. -/
lemma grandTotal_ofList (l : List (κ × M)) : grandTotal (ofList l).items = grandTotal l := by
  rw [ofList, grandTotal_foldl]; simp [empty]

lemma pos_of_mem_bump [PartialOrder M] [IsOrderedAddMonoid M] {l : List (κ × M)} {k : κ} {w : M}
    (hw : 0 < w) (h : ∀ p ∈ l, 0 < p.2) : ∀ p ∈ bump k w l, 0 < p.2 := by
  induction l with
  | nil => simpa [bump] using hw
  | cons q l ih =>
      intro p hp
      have hq : 0 < q.2 := h q List.mem_cons_self
      rw [bump] at hp
      split_ifs at hp
      · rcases List.mem_cons.mp hp with rfl | hp
        · exact add_pos_of_pos_of_nonneg hq hw.le
        · exact h p (List.mem_cons_of_mem _ hp)
      · rcases List.mem_cons.mp hp with rfl | hp
        · exact hq
        · exact ih (fun r hr => h r (List.mem_cons_of_mem _ hr)) p hp

/-- Every entry of a tally of positive weights is positive. -/
lemma pos_of_mem_ofList [PartialOrder M] [IsOrderedAddMonoid M] {l : List (κ × M)}
    (h : ∀ p ∈ l, 0 < p.2) : ∀ p ∈ (ofList l).items, 0 < p.2 := by
  have hfold : ∀ t : Tally κ M, (∀ p ∈ t.items, 0 < p.2) →
      ∀ p ∈ (l.foldl (fun t p => t.add p.1 p.2) t).items, 0 < p.2 := by
    induction l with
    | nil => exact fun t ht => ht
    | cons q l ih =>
        intro t ht
        exact ih (fun p hp => h p (List.mem_cons_of_mem _ hp)) _
          (pos_of_mem_bump (h q List.mem_cons_self) ht)
  exact hfold empty fun p hp => absurd hp List.not_mem_nil

/-! ### A tally is its totals -/

/-- The total of a key is its entry. -/
lemma sumAt_of_mem (t : Tally κ M) {p : κ × M} (hp : p ∈ t.items) : sumAt t.items p.1 = p.2 := by
  have hperm := (t.perm_cons_erase hp).filter fun q => decide (q.1 = p.1)
  have hrest : (t.erase p.1).items.filter (fun q => decide (q.1 = p.1)) = [] := by
    simp [erase, List.filter_filter]
  rw [List.filter_cons_of_pos (by simp), hrest] at hperm
  rw [sumAt, List.perm_singleton.mp hperm]
  simp

/-- A key without an entry has no total. -/
lemma sumAt_of_notMem (t : Tally κ M) {k : κ} (hk : k ∉ t.keys) : sumAt t.items k = 0 := by
  have hnil : t.items.filter (fun p => decide (p.1 = k)) = [] := by
    refine List.filter_eq_nil_iff.mpr fun p hp => ?_
    simpa using fun h : p.1 = k => hk (h ▸ List.mem_map_of_mem hp)
  rw [sumAt, hnil]
  rfl

/-- The entries are the keys with a total, where no entry is zero. -/
lemma mem_items_iff {t : Tally κ M} (ht : ∀ p ∈ t.items, p.2 ≠ 0) {p : κ × M} :
    p ∈ t.items ↔ p.2 ≠ 0 ∧ sumAt t.items p.1 = p.2 := by
  constructor
  · exact fun hp => ⟨ht p hp, t.sumAt_of_mem hp⟩
  · rintro ⟨hne, hsum⟩
    have hk : p.1 ∈ t.keys := by
      by_contra hk
      exact hne (hsum.symm.trans (t.sumAt_of_notMem hk))
    obtain ⟨q, hq, hkey⟩ := List.mem_map.mp hk
    have hval : q.2 = p.2 := by rw [← t.sumAt_of_mem hq, hkey, hsum]
    rwa [show p = q from Prod.ext hkey.symm hval.symm]

/-- Two dictionaries without zero entries that give every key the same total hold the same
entries, in some order. -/
lemma perm_of_sumAt_eq {t u : Tally κ M} (ht : ∀ p ∈ t.items, p.2 ≠ 0)
    (hu : ∀ p ∈ u.items, p.2 ≠ 0) (h : ∀ k, sumAt t.items k = sumAt u.items k) :
    t.items.Perm u.items := by
  refine (List.perm_ext_iff_of_nodup t.items_nodup u.items_nodup).mpr fun p => ?_
  rw [mem_items_iff ht, mem_items_iff hu, h]

end Tally

/-! ### Floored shares -/

/-- The floored shares of `r` in proportion to the weights `l` do not exceed `r`. -/
lemma sum_div_le (r total : ℕ) (l : List ℕ) (h : l.sum ≤ total) :
    (l.map fun w => r * w / total).sum ≤ r := by
  rcases Nat.eq_zero_or_pos total with rfl | ht
  · simp
  · have hmul : (l.map fun w => r * w / total).sum * total ≤ r * l.sum := by
      clear h
      induction l with
      | nil => simp
      | cons w l ih =>
          have hw : r * w / total * total ≤ r * w := Nat.div_mul_le_self _ _
          simp only [List.map_cons, List.sum_cons, add_mul, mul_add]
          omega
    exact Nat.le_of_mul_le_mul_right (hmul.trans (Nat.mul_le_mul_left r h)) ht

/-- The floored shares of `r` in proportion to the weights `l` fall short of `r` by less than
one unit each. -/
lemma lt_sum_div_add {r : ℕ} {l : List ℕ} (h : 0 < l.sum) :
    r < (l.map fun w => r * w / l.sum).sum + l.length := by
  have hmul : ∀ (total : ℕ) (l : List ℕ), 0 < total → l ≠ [] →
      r * l.sum < ((l.map fun w => r * w / total).sum + l.length) * total := by
    intro total l ht hne
    induction l with
    | nil => exact absurd rfl hne
    | cons w l ih =>
        have hw : r * w < (r * w / total + 1) * total := by
          rw [Nat.mul_comm (_ + 1)]
          exact Nat.lt_mul_div_succ _ ht
        rcases eq_or_ne l [] with rfl | hl
        · simpa using hw
        · have := ih hl
          simp only [List.map_cons, List.sum_cons, List.length_cons, mul_add, add_mul] at this hw ⊢
          omega
  have hne : l ≠ [] := by
    rintro rfl
    exact absurd h (lt_irrefl 0)
  exact Nat.lt_of_mul_lt_mul_right (hmul l.sum l h hne)

/-- A larger weight has a larger floored share of `r` beside the same others. -/
lemma div_add_mono (r rest : ℕ) {v w : ℕ} (hv : 0 < v) (h : v ≤ w) :
    r * v / (rest + v) ≤ r * w / (rest + w) := by
  rw [Nat.le_div_iff_mul_le (by omega)]
  have hdiv : r * v / (rest + v) * (rest + v) ≤ r * v := Nat.div_mul_le_self _ _
  have hle : r * v / (rest + v) ≤ r := by
    rw [Nat.div_le_iff_le_mul_add_pred (by omega)]
    nlinarith [Nat.zero_le (rest * r)]
  calc r * v / (rest + v) * (rest + w)
      = r * v / (rest + v) * (rest + v) + r * v / (rest + v) * (w - v) := by
        rw [← Nat.mul_add]
        congr 1
        omega
    _ ≤ r * v + r * (w - v) := Nat.add_le_add hdiv (Nat.mul_le_mul_right _ hle)
    _ = r * w := by
        rw [← Nat.mul_add]
        congr 1
        omega

end P2Pearl
