import Mathlib.Tactic

/-!
Maps that remember the order of insertion, and the queues made of them by dropping the oldest.

* `OrderedMap`: a list of items, oldest first, no two of which have one key.
* `set`, `erase`, `moveToEnd`, `trim`: a new item goes to the end, an old one keeps its place;
  `trim` drops the oldest items beyond a size.
* `get_set`, `get_erase`, `get_moveToEnd`: the operations as maps; `get_of_trim`: what is left
  after a trim was there before, and `size_trim_le`: there is at most so much of it.
* `items_set_of_fresh`, `items_trim`: the operations as lists, where a key is new.
-/

namespace P2Pearl

/-- A list without its first elements, so that at most `n` are left. -/
def dropOldest {α : Type} (n : ℕ) : List α → List α
  | [] => []
  | x :: l => if n < l.length + 1 then dropOldest n l else x :: l

lemma dropOldest_eq {α : Type} (n : ℕ) (l : List α) : dropOldest n l = l.drop (l.length - n) := by
  induction l with
  | nil => rw [dropOldest, List.drop_nil]
  | cons x l ih =>
      rw [dropOldest, List.length_cons]
      split_ifs with h
      · rw [ih, show l.length + 1 - n = l.length - n + 1 by omega, List.drop_succ_cons]
      · rw [show l.length + 1 - n = 0 by omega, List.drop_zero]

/-- A map with its items in the order of insertion. -/
@[ext]
structure OrderedMap (κ ν : Type) where
  items : List (κ × ν)
  nodup : (items.map Prod.fst).Nodup

namespace OrderedMap

variable {κ ν : Type}

/-- No items. -/
def empty : OrderedMap κ ν := ⟨[], List.nodup_nil⟩

/-- The number of items. -/
def size (m : OrderedMap κ ν) : ℕ := m.items.length

@[simp] lemma size_empty : (empty : OrderedMap κ ν).size = 0 := rfl

/-- The oldest items are dropped while there are more than `n`. -/
def trim (m : OrderedMap κ ν) (n : ℕ) : OrderedMap κ ν where
  items := dropOldest n m.items
  nodup := by
    rw [dropOldest_eq]
    exact m.nodup.sublist ((List.drop_sublist _ _).map Prod.fst)

lemma items_trim (m : OrderedMap κ ν) (n : ℕ) : (m.trim n).items = m.items.drop (m.size - n) :=
  dropOldest_eq n m.items

lemma size_trim_le (m : OrderedMap κ ν) (n : ℕ) : (m.trim n).size ≤ n := by
  rw [size, items_trim, List.length_drop, size]
  omega

/-- Nothing is dropped from a map that is small enough. -/
lemma trim_of_size_le {m : OrderedMap κ ν} {n : ℕ} (h : m.size ≤ n) : m.trim n = m :=
  OrderedMap.ext (by rw [items_trim, Nat.sub_eq_zero_of_le h, List.drop_zero])

variable [DecidableEq κ]

/-! ### Looking up -/

/-- The value under a key. -/
def get (m : OrderedMap κ ν) (k : κ) : Option ν := (m.items.find? fun p => p.1 = k).map Prod.snd

lemma get_eq_some_iff {m : OrderedMap κ ν} {k : κ} {v : ν} :
    m.get k = some v ↔ (k, v) ∈ m.items := by
  rw [get, Option.map_eq_some_iff]
  constructor
  · rintro ⟨p, hp, rfl⟩
    have hk : p.1 = k := by simpa using List.find?_some hp
    exact hk ▸ List.mem_of_find?_eq_some hp
  · intro h
    obtain ⟨p, hp⟩ := Option.isSome_iff_exists.mp
      (List.find?_isSome.mpr ⟨(k, v), h, by simp⟩ : (m.items.find? fun p => p.1 = k).isSome)
    have hk : p.1 = k := by simpa using List.find?_some hp
    exact ⟨p, hp, (Prod.mk.inj
      (List.inj_on_of_nodup_map m.nodup (List.mem_of_find?_eq_some hp) h hk)).2⟩

lemma get_eq_none_iff {m : OrderedMap κ ν} {k : κ} : m.get k = none ↔ k ∉ m.items.map Prod.fst := by
  rw [Option.eq_none_iff_forall_ne_some, List.mem_map]
  simp only [ne_eq, get_eq_some_iff]
  constructor
  · rintro h ⟨⟨_, v⟩, hp, rfl⟩
    exact h v hp
  · exact fun h v hv => h ⟨(k, v), hv, rfl⟩

/-- A map is no larger than a list of all its keys. -/
lemma size_le_of_keys {m : OrderedMap κ ν} {keys : List κ} (h : ∀ k, m.get k ≠ none → k ∈ keys) :
    m.size ≤ keys.length := by
  have hsub : m.items.map Prod.fst ⊆ keys := fun k hk =>
    h k fun hnone => get_eq_none_iff.mp hnone hk
  simpa [size] using (m.nodup.subperm hsub).length_le

/-- What is left after a trim was there before. -/
lemma get_of_trim {m : OrderedMap κ ν} {n : ℕ} {k : κ} {v : ν} (h : (m.trim n).get k = some v) :
    m.get k = some v := by
  rw [get_eq_some_iff, items_trim] at h
  exact get_eq_some_iff.mpr (List.mem_of_mem_drop h)

/-! ### Setting -/

/-- The items with a value under a key: in its old place, or at the end. -/
def setItems (k : κ) (v : ν) : List (κ × ν) → List (κ × ν)
  | [] => [(k, v)]
  | p :: l => if p.1 = k then (k, v) :: l else p :: setItems k v l

lemma keys_setItems (k : κ) (v : ν) (l : List (κ × ν)) :
    (setItems k v l).map Prod.fst
      = if k ∈ l.map Prod.fst then l.map Prod.fst else l.map Prod.fst ++ [k] := by
  induction l with
  | nil => rfl
  | cons p l ih =>
      rw [setItems]
      by_cases h : p.1 = k
      · simp [h]
      · simp only [if_neg h, List.map_cons, ih, List.mem_cons, Ne.symm h, false_or]
        split_ifs <;> rfl

lemma setItems_of_fresh {k : κ} {v : ν} {l : List (κ × ν)} (h : k ∉ l.map Prod.fst) :
    setItems k v l = l ++ [(k, v)] := by
  induction l with
  | nil => rfl
  | cons p l ih =>
      rw [List.map_cons, List.mem_cons, not_or] at h
      rw [setItems, if_neg (Ne.symm h.1), ih h.2, List.cons_append]

/-- A value is put under a key. -/
def set (m : OrderedMap κ ν) (k : κ) (v : ν) : OrderedMap κ ν where
  items := setItems k v m.items
  nodup := by
    rw [keys_setItems]
    split_ifs with h
    · exact m.nodup
    · exact List.nodup_append.mpr ⟨m.nodup, List.nodup_singleton k, by
        rintro a ha b hb rfl
        exact h (List.mem_singleton.mp hb ▸ ha)⟩

lemma items_set_of_fresh {m : OrderedMap κ ν} {k : κ} (v : ν) (h : m.get k = none) :
    (m.set k v).items = m.items ++ [(k, v)] := setItems_of_fresh (get_eq_none_iff.mp h)

lemma size_set_of_fresh {m : OrderedMap κ ν} {k : κ} (v : ν) (h : m.get k = none) :
    (m.set k v).size = m.size + 1 := by
  rw [size, items_set_of_fresh v h, List.length_append, List.length_singleton, size]

lemma mem_setItems {k j : κ} {v w : ν} {l : List (κ × ν)} (hn : (l.map Prod.fst).Nodup) :
    (j, w) ∈ setItems k v l ↔ j = k ∧ w = v ∨ j ≠ k ∧ (j, w) ∈ l := by
  induction l with
  | nil => simp [setItems]
  | cons p l ih =>
      obtain ⟨i, x⟩ := p
      rw [List.map_cons, List.nodup_cons] at hn
      rw [setItems]
      by_cases h : i = k
      · subst h
        have hnot : ∀ w, (i, w) ∉ l := fun w hw =>
          hn.1 (List.mem_map.mpr ⟨(i, w), hw, rfl⟩)
        simp only [if_true, List.mem_cons, Prod.mk.injEq]
        by_cases hj : j = i
        · subst hj; simp [hnot]
        · simp [hj]
      · simp only [if_neg h, List.mem_cons, Prod.mk.injEq, ih hn.2]
        by_cases hj : j = k
        · subst hj; simp [Ne.symm h]
        · simp [hj]

lemma get_set (m : OrderedMap κ ν) (k j : κ) (v : ν) :
    (m.set k v).get j = if j = k then some v else m.get j := by
  refine Option.ext fun w => ?_
  rw [get_eq_some_iff, set, mem_setItems m.nodup]
  split_ifs with h
  · simp [h, eq_comm]
  · simp [h, get_eq_some_iff]

/-! ### Removing and moving -/

/-- The item under a key is removed. -/
def erase (m : OrderedMap κ ν) (k : κ) : OrderedMap κ ν where
  items := m.items.filter fun p => p.1 ≠ k
  nodup := m.nodup.sublist (List.filter_sublist.map Prod.fst)

lemma get_erase (m : OrderedMap κ ν) (k j : κ) :
    (m.erase k).get j = if j = k then none else m.get j := by
  refine Option.ext fun w => ?_
  rw [get_eq_some_iff, erase, List.mem_filter]
  split_ifs with h
  · simp [h]
  · simp [h, get_eq_some_iff]

lemma size_erase_le (m : OrderedMap κ ν) (k : κ) : (m.erase k).size ≤ m.size :=
  List.length_filter_le _ _

/-- The item under a key becomes the newest. -/
def moveToEnd (m : OrderedMap κ ν) (k : κ) : OrderedMap κ ν where
  items := (m.items.filter fun p => p.1 ≠ k) ++ m.items.filter fun p => p.1 = k
  nodup := by
    have hperm := List.filter_append_perm (fun p : κ × ν => decide (p.1 ≠ k)) m.items
    simp only [decide_not, Bool.not_not] at hperm ⊢
    exact (hperm.map Prod.fst).nodup_iff.mpr m.nodup

lemma get_moveToEnd (m : OrderedMap κ ν) (k j : κ) : (m.moveToEnd k).get j = m.get j := by
  refine Option.ext fun w => ?_
  rw [get_eq_some_iff, get_eq_some_iff, moveToEnd, List.mem_append, List.mem_filter,
    List.mem_filter]
  by_cases h : j = k <;> simp [h]

lemma size_moveToEnd (m : OrderedMap κ ν) (k : κ) : (m.moveToEnd k).size = m.size := by
  have hperm := List.filter_append_perm (fun p : κ × ν => decide (p.1 ≠ k)) m.items
  simp only [decide_not, Bool.not_not] at hperm
  simpa [size, moveToEnd] using hperm.length_eq

end OrderedMap

end P2Pearl
