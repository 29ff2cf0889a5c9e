import P2Pearl.Data.Trail

/-!
Order independence of a store whose items refer to one another.

* `Intake`: items that are admitted into a map one at a time.  Whether an item is admitted, and
  with which value, depends only on the item's own key and on what its dependencies lead to: a
  closed map may be extended elsewhere without changing the answer (`congr`).
* `put_comm`: two items neither of which refers to the other may be put in either order.
* `foldl_put_perm`: two orders of the same items, both of which put dependencies first, lead to
  the same map.
-/

namespace P2Pearl

variable {ι κ ν : Type}

/-- Every key a stored value refers to is stored. -/
def Closed (refs : ν → List κ) (m : κ → Option ν) : Prop :=
  ∀ k v, m k = some v → ∀ d ∈ refs v, ∃ w, m d = some w

/-- A way of admitting items into a map. -/
structure Intake (ι κ ν : Type) where
  /-- The key an item is stored under, if it has one. -/
  key : ι → Option κ
  /-- The keys an item refers to. -/
  deps : ι → List κ
  /-- The keys a stored value refers to. -/
  refs : ν → List κ
  /-- The value an item is admitted with, if it is. -/
  accept : (κ → Option ν) → ι → Option ν
  fresh : ∀ m x k v, key x = some k → accept m x = some v → m k = none
  refs_eq : ∀ m x v, accept m x = some v → refs v = deps x
  stored : ∀ m x v, accept m x = some v → ∀ d ∈ deps x, ∃ w, m d = some w
  congr : ∀ m m' x, Closed refs m → SubMap m m' → (∀ d ∈ deps x, m' d = m d) →
    (∀ k, key x = some k → m' k = m k) → accept m' x = accept m x

variable [DecidableEq κ]

namespace Intake

variable (I : Intake ι κ ν) {m : κ → Option ν} {x y : ι}

/-- The map after an item has been taken in. -/
def put (m : κ → Option ν) (x : ι) : κ → Option ν :=
  match I.key x, I.accept m x with
  | some k, some v => Function.update m k (some v)
  | _, _ => m

/-- Taking in `x` cannot affect what happens to `y`. -/
def Apart (x y : ι) : Prop := ∀ k, I.key x = some k → I.key y ≠ some k ∧ k ∉ I.deps y

/-- No item refers to a later one. -/
def DepsFirst (l : List ι) : Prop := l.Pairwise fun x y => ∀ k, I.key y = some k → k ∉ I.deps x

/-- No two items have one key. -/
def Distinct (l : List ι) : Prop := l.Pairwise fun x y => ∀ k, I.key x = some k → I.key y ≠ some k

lemma put_of_some {k : κ} {v : ν} (hk : I.key x = some k) (hv : I.accept m x = some v) :
    I.put m x = Function.update m k (some v) := by rw [put, hk, hv]

lemma put_of_none (h : I.key x = none ∨ I.accept m x = none) : I.put m x = m := by
  unfold put
  split
  · rename_i hk hv
    rcases h with h | h
    · rw [h] at hk; cases hk
    · rw [h] at hv; cases hv
  · rfl

/-- An item is stored under its key, or the map stays as it is. -/
lemma put_cases (m : κ → Option ν) (x : ι) :
    (∃ k v, I.key x = some k ∧ I.accept m x = some v ∧ I.put m x = Function.update m k (some v))
      ∨ (I.key x = none ∨ I.accept m x = none) ∧ I.put m x = m := by
  cases hk : I.key x with
  | none => exact Or.inr ⟨Or.inl rfl, I.put_of_none (Or.inl hk)⟩
  | some k =>
      cases hv : I.accept m x with
      | none => exact Or.inr ⟨Or.inr rfl, I.put_of_none (Or.inr hv)⟩
      | some v => exact Or.inl ⟨k, v, rfl, rfl, I.put_of_some hk hv⟩

lemma put_of_ne {d : κ} (h : ∀ k, I.key x = some k → d ≠ k) : I.put m x d = m d := by
  rcases I.put_cases m x with ⟨k, v, hk, -, hput⟩ | ⟨-, hput⟩
  · rw [hput, Function.update_of_ne (h k hk)]
  · rw [hput]

lemma subMap_put : SubMap m (I.put m x) := by
  intro d w hd
  rcases I.put_cases m x with ⟨k, v, hk, hv, hput⟩ | ⟨-, hput⟩
  · have hfresh := I.fresh m x k v hk hv
    rw [hput, Function.update_of_ne (fun h => by rw [h, hfresh] at hd; cases hd), hd]
  · rw [hput, hd]

/-- Taking in an item keeps the map closed. -/
lemma closed_put (hm : Closed I.refs m) : Closed I.refs (I.put m x) := by
  have hsub : ∀ d, (∃ w, m d = some w) → ∃ w, I.put m x d = some w :=
    fun d ⟨w, hw⟩ => ⟨w, I.subMap_put d w hw⟩
  intro j w hw d hd
  rcases I.put_cases m x with ⟨k, v, hk, hv, hput⟩ | ⟨-, hput⟩
  · by_cases hj : j = k
    · rw [hput, hj, Function.update_self] at hw
      cases hw
      rw [I.refs_eq m x w hv] at hd
      exact hsub d (I.stored m x w hv d hd)
    · rw [hput, Function.update_of_ne hj] at hw
      exact hsub d (hm j w hw d hd)
  · rw [hput] at hw
    exact hsub d (hm j w hw d hd)

/-- An item is admitted alike before and after one that is apart from it. -/
lemma accept_put (hm : Closed I.refs m) (h : I.Apart x y) :
    I.accept (I.put m x) y = I.accept m y := by
  refine I.congr m _ y hm I.subMap_put (fun d hd => ?_) fun k hk => ?_
  · exact I.put_of_ne fun k hk e => (h k hk).2 (e ▸ hd)
  · exact I.put_of_ne fun k' hk' e => (h k' hk').1 (e ▸ hk)

/-- Two items that are apart may be put in either order. -/
lemma put_comm (hm : Closed I.refs m) (hxy : I.Apart x y) (hyx : I.Apart y x) :
    I.put (I.put m x) y = I.put (I.put m y) x := by
  have hy := I.accept_put hm hxy
  have hx := I.accept_put hm hyx
  rcases I.put_cases m x with ⟨k, v, hk, hv, hput⟩ | ⟨hnone, hput⟩
  · rcases I.put_cases m y with ⟨j, w, hj, hw, hput'⟩ | ⟨hnone', hput'⟩
    · have hne : j ≠ k := fun e => (hxy k hk).1 (e ▸ hj)
      rw [I.put_of_some hj (hy.trans hw), I.put_of_some hk (hx.trans hv), hput, hput',
        Function.update_comm hne]
    · rw [hput', I.put_of_none (hnone'.imp id hy.trans)]
  · rw [hput, I.put_of_none (hnone.imp id hx.trans)]

/-- An item moves to the front past items it is apart from. -/
lemma foldl_put_move (hm : Closed I.refs m) {a b : List ι}
    (h : ∀ y ∈ a, I.Apart x y ∧ I.Apart y x) :
    (a ++ x :: b).foldl I.put m = (x :: (a ++ b)).foldl I.put m := by
  induction a generalizing m with
  | nil => rfl
  | cons y a ih =>
      obtain ⟨hxy, hyx⟩ := h y List.mem_cons_self
      have hmove := ih (I.closed_put (x := y) hm) fun z hz => h z (List.mem_cons_of_mem _ hz)
      simp only [List.cons_append, List.foldl_cons] at hmove ⊢
      rw [hmove, I.put_comm hm hyx hxy]

/-- **Order independence**: two orders of the same items, both with dependencies first, lead to
the same map. -/
theorem foldl_put_perm (hm : Closed I.refs m) {l l' : List ι} (hperm : l.Perm l')
    (hdistinct : I.Distinct l) (hl : I.DepsFirst l) (hl' : I.DepsFirst l') :
    l.foldl I.put m = l'.foldl I.put m := by
  induction l generalizing m l' with
  | nil => rw [hperm.nil_eq]
  | cons x t ih =>
      obtain ⟨a, b, rfl⟩ := List.append_of_mem (hperm.subset List.mem_cons_self)
      have ht : t.Perm (a ++ b) := (List.perm_cons x).mp (hperm.trans List.perm_middle)
      obtain ⟨hx, hl⟩ := List.pairwise_cons.mp hl
      obtain ⟨hxd, hdistinct⟩ := List.pairwise_cons.mp hdistinct
      obtain ⟨-, hxb, hab⟩ := List.pairwise_append.mp hl'
      have hapart : ∀ y ∈ a, I.Apart x y ∧ I.Apart y x := by
        intro y hy
        have hyt : y ∈ t := ht.symm.subset (List.mem_append_left _ hy)
        refine ⟨fun k hk => ⟨hxd y hyt k hk, hab y hy x List.mem_cons_self k hk⟩,
          fun k hk => ⟨fun hk' => hxd y hyt k hk' hk, hx y hyt k hk⟩⟩
      rw [I.foldl_put_move hm hapart]
      refine ih (I.closed_put hm) ht hdistinct hl (hl'.sublist ?_)
      exact (List.sublist_cons_self x b).append_left a

end Intake

end P2Pearl
