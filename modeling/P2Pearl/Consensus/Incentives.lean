import P2Pearl.Data.Cutoff
import P2Pearl.Consensus.Split

/-!
What a miner can gain by the addresses it mines to.

* `dropDust_upper`: the drop loop drops in the order of weight and address.
* `exists_cutoff`: so the recipients that are kept are a `Cutoff` of the addresses.
* `earned_le_of_gathers`: addresses that move all their work to the last of them earn no less, but
  for fewer grains than there are payouts.
* `splitting_gains_nothing`, `more_work_loses_nothing`: two ways to say so.
-/

namespace P2Pearl

variable {reward minPayout : ℕ} {weights weights' : List (PyStr × ℤ)}

/-! ### The recipients that are kept -/

/-- What the drop loop drops comes before what it leaves. -/
lemma dropDust_upper {n : ℕ} {d : Tally PyStr ℕ} {kv kv' : PyStr × ℕ} (hkv : kv ∈ d.items)
    (hnot : kv ∉ (dropDust reward minPayout n d).items)
    (hkv' : kv' ∈ (dropDust reward minPayout n d).items) :
    (toLex (kv.2, kv.1) : ℕ ×ₗ PyStr) < toLex (kv'.2, kv'.1) := by
  induction n generalizing d with
  | zero => exact absurd hkv hnot
  | succ n ih =>
      have hmem := mem_dropDust hkv'
      rw [dropDust] at hnot hkv'
      split_ifs at hnot hkv' with hlen
      · exact absurd hkv hnot
      · cases hw : worst d.items with
        | none => rw [hw] at hnot; exact absurd hkv hnot
        | some w =>
            rw [hw] at hnot hkv'
            simp only at hnot hkv'
            split_ifs at hnot hkv' with hmin
            · exact absurd hkv hnot
            · by_cases he : kv = w
              · -- the round that drops it
                subst he
                have hne : kv' ≠ kv := fun he => hnot (he ▸ hkv')
                refine lt_of_le_of_ne (key_le_of_worst hw hmem) fun hkey => hne ?_
                have hpair := Prod.ext_iff.mp (toLex_inj.mp hkey)
                exact Prod.ext hpair.2.symm hpair.1.symm
              · have hperm := d.perm_cons_erase (worst_eq_some_iff.mp hw).1
                refine ih ?_ hnot hkv'
                exact (List.mem_cons.mp (hperm.mem_iff.mp hkv)).resolve_left he

lemma sum_keys {k : Tally PyStr ℕ} {w : PyStr → ℕ} (hw : ∀ kv ∈ k.items, w kv.1 = kv.2) :
    ∑ a ∈ k.keys.toFinset, w a = grandTotal k.items := by
  rw [List.sum_toFinset w (show k.keys.Nodup from k.nodup), Tally.keys, List.map_map, grandTotal]
  exact congrArg List.sum (List.map_congr_left fun kv hkv => hw kv hkv)

/-- **The recipients**: they are a cutoff of the addresses by weight, and are paid in
proportion. -/
lemma exists_cutoff (hr : 0 < reward) (minPayout : ℕ) (hne : (survivors weights).items ≠ []) :
    ∃ k : Tally PyStr ℕ, (∀ kv ∈ k.items, positiveWeight weights kv.1 = kv.2)
      ∧ Cutoff reward minPayout (positiveWeight weights) k.keys.toFinset
      ∧ Proportional reward k (computePplnsPayouts reward weights minPayout) := by
  obtain ⟨k, he⟩ : ∃ k, dropDust reward minPayout (survivors weights).items.length
    (survivors weights) = k := ⟨_, rfl⟩
  have hk : Dropped reward minPayout (survivors weights) k :=
    he ▸ dropDust_dropped (survivors_pos weights) le_rfl
  have hkne : k.items ≠ [] := he ▸ dropDust_ne_nil reward minPayout hne
  have hupper : ∀ kv ∈ (survivors weights).items, kv ∉ k.items → ∀ kv' ∈ k.items,
      (toLex (kv.2, kv.1) : ℕ ×ₗ PyStr) < toLex (kv'.2, kv'.1) := by
    rw [← he]
    exact fun kv hkv hnot kv' hkv' => dropDust_upper hkv hnot hkv'
  have hweight : ∀ kv ∈ k.items, positiveWeight weights kv.1 = kv.2 := fun kv hkv => hk.weight hkv
  have hsum := sum_keys hweight
  have hmem : ∀ a ∈ k.keys.toFinset, ∃ kv ∈ k.items, kv.1 = a := fun a ha =>
    List.mem_map.mp (List.mem_toFinset.mp ha)
  -- an address that is left out is a recipient that was dropped
  have hout : ∀ b, 0 < positiveWeight weights b → b ∉ k.keys.toFinset →
      (b, positiveWeight weights b) ∈ (survivors weights).items
        ∧ (b, positiveWeight weights b) ∉ k.items := fun b hb hnot =>
    ⟨mem_survivors_iff.mpr ⟨hb.ne', rfl⟩, fun hin =>
      hnot (List.mem_toFinset.mpr (List.mem_map_of_mem (f := Prod.fst) hin))⟩
  refine ⟨k, hweight, ⟨?_, fun a ha => ?_, fun a ha b hb hnot => ?_, fun b hb hnot => ?_, ?_⟩, ?_⟩
  · obtain ⟨kv, hkv⟩ := List.exists_mem_of_ne_nil _ hkne
    exact ⟨kv.1, List.mem_toFinset.mpr (List.mem_map_of_mem hkv)⟩
  · obtain ⟨kv, hkv, rfl⟩ := hmem a ha
    rw [hweight kv hkv]
    exact survivors_pos weights kv (hk.sub hkv)
  · obtain ⟨kv, hkv, rfl⟩ := hmem a ha
    obtain ⟨hin, hdrop⟩ := hout b hb hnot
    rw [weighKey, weighKey, hweight kv hkv]
    exact hupper _ hin hdrop kv hkv
  · obtain ⟨hin, hdrop⟩ := hout b hb hnot
    rw [hsum]
    exact hk.below _ hin hdrop
  · rw [hsum]
    refine hk.stop.imp (fun hone => ?_) fun hall a ha => ?_
    · rw [List.toFinset_card_of_nodup (show k.keys.Nodup from k.nodup), Tally.keys,
        List.length_map]
      exact hone
    · obtain ⟨kv, hkv, rfl⟩ := hmem a ha
      rw [hweight kv hkv]
      exact hall kv hkv
  · rw [computePplnsPayouts_of_dropDust hr minPayout hne he]
    refine sortPayouts_proportional reward ?_
    obtain ⟨kv, hkv⟩ := List.exists_mem_of_ne_nil _ hkne
    exact (survivors_pos weights kv (hk.sub hkv)).trans_le
      (List.le_sum_of_mem (List.mem_map_of_mem hkv))

/-! ### What a group earns -/

/-- What some addresses are paid together. -/
def earned (A : Finset PyStr) (payouts : List Payout) : ℕ :=
  ((payouts.filter fun p => p.address ∈ A).map Payout.grains).sum

lemma earned_cons (A : Finset PyStr) (p : Payout) (payouts : List Payout) :
    earned A (p :: payouts) = (if p.address ∈ A then p.grains else 0) + earned A payouts := by
  by_cases h : p.address ∈ A
  · simp [earned, h]
  · simp [earned, h]

lemma earned_perm {A : Finset PyStr} {payouts payouts' : List Payout}
    (h : payouts.Perm payouts') : earned A payouts = earned A payouts' :=
  ((h.filter _).map _).sum_eq

lemma le_earned {A : Finset PyStr} {payouts : List Payout} {p : Payout} (hp : p ∈ payouts)
    (hA : p.address ∈ A) : p.grains ≤ earned A payouts :=
  List.le_sum_of_mem (List.mem_map_of_mem (List.mem_filter.mpr ⟨hp, by simpa using hA⟩))

/-- The floored shares of a group are at most the floored share of its sum. -/
lemma earned_floorShare_le (A : Finset PyStr) (total : ℕ) (l : List (PyStr × ℕ)) :
    earned A (l.map (floorShare reward total))
      ≤ reward * (l.map fun kv => if kv.1 ∈ A then kv.2 else 0).sum / total := by
  induction l with
  | nil => simp [earned]
  | cons kv l ih =>
      rw [List.map_cons, earned_cons, List.map_cons, List.sum_cons]
      by_cases hA : kv.1 ∈ A
      · rw [if_pos (show (floorShare reward total kv).address ∈ A from hA), if_pos hA, Nat.mul_add]
        exact (Nat.add_le_add_left ih _).trans Nat.div_add_div_le_add_div
      · rw [if_neg (show ¬(floorShare reward total kv).address ∈ A from hA), if_neg hA, zero_add,
          zero_add]
        exact ih

/-- A group is paid no more than its share of what is kept, and less than one grain a payout. -/
lemma Proportional.earned_le {k : Tally PyStr ℕ} {payouts : List Payout}
    (h : Proportional reward k payouts) (A : Finset PyStr) :
    earned A payouts
      ≤ reward * (k.items.map fun kv => if kv.1 ∈ A then kv.2 else 0).sum / grandTotal k.items
        + (payouts.length - 1) := by
  obtain ⟨init, last, grains, hitems, hpay, -, hlt⟩ := h.exists_last
  have hfloor : earned A ((init ++ [last]).map (floorShare reward (grandTotal k.items))) ≤ _ :=
    earned_floorShare_le A (grandTotal k.items) (init ++ [last])
  rw [(hitems.map _).sum_eq]
  refine le_trans ?_ (Nat.add_le_add_right hfloor _)
  rw [earned_perm hpay, List.map_append, earned, earned, List.filter_append, List.filter_append,
    List.map_append, List.map_append, List.sum_append, List.sum_append, Nat.add_assoc]
  refine Nat.add_le_add_left ?_ _
  by_cases hA : last.1 ∈ A
  · simp [hA, floorShare]
    omega
  · simp [hA, floorShare]

/-- **Gathering earns no less**: addresses that move all their work to the last of them, which may
add some, are paid no less than before, but for fewer grains than there are payouts. -/
lemma earned_le_of_gathers {A : Finset PyStr} {a : PyStr} (reward minPayout : ℕ)
    (h : Gathers (positiveWeight weights) (positiveWeight weights') A a) :
    earned A (computePplnsPayouts reward weights minPayout)
      ≤ earned A (computePplnsPayouts reward weights' minPayout)
        + ((computePplnsPayouts reward weights minPayout).length - 1) := by
  have hnone : computePplnsPayouts reward weights minPayout = [] →
      earned A (computePplnsPayouts reward weights minPayout) = 0 := fun he => by rw [he]; rfl
  rcases Nat.eq_zero_or_pos reward with hr | hr
  · rw [hnone (by rw [computePplnsPayouts, if_pos (Or.inr hr)])]
    exact Nat.zero_le _
  by_cases hne : (survivors weights).items = []
  · rw [hnone (by rw [computePplnsPayouts, if_pos (Or.inl hne)])]
    exact Nat.zero_le _
  obtain ⟨k, hweight, hcut, hpay⟩ := exists_cutoff hr minPayout hne
  refine (hpay.earned_le A).trans (Nat.add_le_add_right ?_ _)
  have hgroup : (k.items.map fun kv => if kv.1 ∈ A then kv.2 else 0).sum
      = ∑ x ∈ k.keys.toFinset ∩ A, positiveWeight weights x := by
    rw [← Finset.sum_ite_mem, List.sum_toFinset _ (show k.keys.Nodup from k.nodup), Tally.keys,
      List.map_map]
    refine congrArg List.sum (List.map_congr_left fun kv hkv => ?_)
    rw [Function.comp_apply, hweight kv hkv]
  rw [hgroup, ← sum_keys hweight]
  rcases (k.keys.toFinset ∩ A).eq_empty_or_nonempty with hempty | hsome
  · rw [hempty, Finset.sum_empty, Nat.mul_zero, Nat.zero_div]
    exact Nat.zero_le _
  -- one of the group is kept, so the address that gathers has weight
  have hpos : 0 < positiveWeight weights' a := by
    obtain ⟨x, hx⟩ := hsome
    exact (hcut.pos x (Finset.mem_inter.mp hx).1).trans_le (h.le (Finset.mem_inter.mp hx).2)
  have hne' : (survivors weights').items ≠ [] :=
    List.ne_nil_of_mem (show (a, positiveWeight weights' a) ∈ (survivors weights').items from
      mem_survivors_iff.mpr ⟨hpos.ne', rfl⟩)
  obtain ⟨k', hweight', hcut', hpay'⟩ := exists_cutoff hr minPayout hne'
  obtain ⟨ha, hshare⟩ := h.share_le hcut hcut' hsome
  obtain ⟨p, hp, haddr⟩ := List.mem_map.mp
    (hpay'.addresses.mem_iff.mpr (List.mem_toFinset.mp ha))
  obtain ⟨kv, hkv, hkva, hfloor⟩ := hpay'.floor_le hp
  rw [← hweight' kv hkv, ← hkva, haddr, ← sum_keys hweight'] at hfloor
  refine (le_trans ?_ hfloor).trans (le_earned hp (haddr ▸ h.mem))
  have hK : 0 < ∑ x ∈ k.keys.toFinset, positiveWeight weights x :=
    Finset.sum_pos hcut.pos hcut.nonempty
  have hK' : 0 < ∑ x ∈ k'.keys.toFinset, positiveWeight weights' x :=
    Finset.sum_pos hcut'.pos hcut'.nonempty
  rw [Nat.le_div_iff_mul_le hK']
  refine Nat.le_of_mul_le_mul_right ?_ hK
  calc reward * (∑ x ∈ k.keys.toFinset ∩ A, positiveWeight weights x)
          / (∑ x ∈ k.keys.toFinset, positiveWeight weights x)
          * (∑ x ∈ k'.keys.toFinset, positiveWeight weights' x)
          * (∑ x ∈ k.keys.toFinset, positiveWeight weights x)
      = reward * (∑ x ∈ k.keys.toFinset ∩ A, positiveWeight weights x)
          / (∑ x ∈ k.keys.toFinset, positiveWeight weights x)
          * (∑ x ∈ k.keys.toFinset, positiveWeight weights x)
          * (∑ x ∈ k'.keys.toFinset, positiveWeight weights' x) := Nat.mul_right_comm _ _ _
    _ ≤ reward * (∑ x ∈ k.keys.toFinset ∩ A, positiveWeight weights x)
          * (∑ x ∈ k'.keys.toFinset, positiveWeight weights' x) :=
        Nat.mul_le_mul_right _ (Nat.div_mul_le_self _ _)
    _ ≤ reward * positiveWeight weights' a
          * (∑ x ∈ k.keys.toFinset, positiveWeight weights x) := by
        rw [Nat.mul_assoc, Nat.mul_assoc]
        exact Nat.mul_le_mul_left _ hshare

/-! ### Splitting and working -/

/-- The work of some addresses, done at one of them. -/
def gathered (A : Finset PyStr) (a : PyStr) (weights : List (PyStr × ℤ)) : List (PyStr × ℤ) :=
  weights.map fun kv => (if kv.1 ∈ A then a else kv.1, kv.2)

lemma positiveWeight_cons (kv : PyStr × ℤ) (b : PyStr) :
    positiveWeight (kv :: weights) b
      = (if kv.1 = b then kv.2.toNat else 0) + positiveWeight weights b := by
  rw [positiveWeight, List.map_cons, sumAt_cons]
  rfl

lemma sum_positiveWeight_cons (kv : PyStr × ℤ) (A : Finset PyStr) :
    ∑ x ∈ A, positiveWeight (kv :: weights) x
      = (if kv.1 ∈ A then kv.2.toNat else 0) + ∑ x ∈ A, positiveWeight weights x := by
  simp only [positiveWeight_cons, Finset.sum_add_distrib, Finset.sum_ite_eq]

lemma gathers_gathered {A : Finset PyStr} {a : PyStr} (ha : a ∈ A)
    (hlast : ∀ kv ∈ weights, kv.1 ∈ A → kv.1 ≤ a) :
    Gathers (positiveWeight weights) (positiveWeight (gathered A a weights)) A a where
  mem := ha
  others b hb := by
    induction weights with
    | nil => rfl
    | cons kv weights ih =>
        have hrest := ih fun kv hkv => hlast kv (List.mem_cons_of_mem _ hkv)
        rw [gathered, List.map_cons, positiveWeight_cons, positiveWeight_cons, ← hrest]
        have hne : a ≠ b := fun he => hb (he ▸ ha)
        by_cases hA : kv.1 ∈ A
        · have hne' : kv.1 ≠ b := fun he => hb (he ▸ hA)
          simp [hA, hne, hne', gathered]
        · simp [hA, gathered]
  rest x hx hne := by
    induction weights with
    | nil => rfl
    | cons kv weights ih =>
        have hrest := ih fun kv hkv => hlast kv (List.mem_cons_of_mem _ hkv)
        rw [gathered] at hrest
        rw [gathered, List.map_cons, positiveWeight_cons, hrest, add_zero]
        by_cases hA : kv.1 ∈ A
        · simp [hA, hne.symm]
        · have hne' : kv.1 ≠ x := fun he => hA (he ▸ hx)
          simp [hA, hne']
  total := by
    refine le_of_eq ?_
    induction weights with
    | nil => simp [gathered, positiveWeight]
    | cons kv weights ih =>
        have hrest := ih fun kv hkv => hlast kv (List.mem_cons_of_mem _ hkv)
        rw [gathered, List.map_cons, positiveWeight_cons, sum_positiveWeight_cons, hrest, gathered]
        by_cases hA : kv.1 ∈ A
        · simp [hA]
        · have hne' : kv.1 ≠ a := fun he => hA (he ▸ ha)
          simp [hA, hne']
  last x hx hpos := by
    have hmem : (x, positiveWeight weights x) ∈ (survivors weights).items :=
      mem_survivors_iff.mpr ⟨hpos.ne', rfl⟩
    obtain ⟨kv, hkv, rfl⟩ := List.mem_map.mp
      (mem_weights_of_mem_survivors (List.mem_map_of_mem (f := Prod.fst) hmem))
    exact hlast kv hkv hx

/-- **Splitting gains nothing**: the addresses of one miner are paid no more together than its work
would earn at the last of them alone, but for fewer grains than there are payouts. -/
theorem splitting_gains_nothing (reward minPayout : ℕ) (weights : List (PyStr × ℤ))
    (A : Finset PyStr) (a : PyStr) (ha : a ∈ A) (hlast : ∀ kv ∈ weights, kv.1 ∈ A → kv.1 ≤ a) :
    earned A (computePplnsPayouts reward weights minPayout)
      ≤ earned A (computePplnsPayouts reward (gathered A a weights) minPayout)
        + ((computePplnsPayouts reward weights minPayout).length - 1) :=
  earned_le_of_gathers reward minPayout (gathers_gathered ha hlast)

/-- Two of three addresses that pool their work for the second of them. -/
theorem splitting_gains_nothing_two :
    earned {['a'], ['b']} (computePplnsPayouts 1000 [(['a'], 5), (['c'], 9), (['b'], 4)] 10)
      ≤ earned {['a'], ['b']} (computePplnsPayouts 1000
            (gathered {['a'], ['b']} ['b'] [(['a'], 5), (['c'], 9), (['b'], 4)]) 10)
        + ((computePplnsPayouts 1000 [(['a'], 5), (['c'], 9), (['b'], 4)] 10).length - 1) :=
  splitting_gains_nothing 1000 10 _ _ ['b'] (by decide) (by decide)

lemma positiveWeight_append (more : List (PyStr × ℤ)) (b : PyStr) :
    positiveWeight (weights ++ more) b = positiveWeight weights b + positiveWeight more b := by
  induction weights with
  | nil => simp [positiveWeight]
  | cons kv weights ih =>
      rw [List.cons_append, positiveWeight_cons, positiveWeight_cons, ih, Nat.add_assoc]

/-- **More work loses nothing**: an address that has done more work, all else being equal, is paid
no less, but for fewer grains than there were payouts. -/
theorem more_work_loses_nothing (reward minPayout : ℕ) (weights more : List (PyStr × ℤ))
    (a : PyStr) (hmore : ∀ kv ∈ more, kv.1 = a) :
    earned {a} (computePplnsPayouts reward weights minPayout)
      ≤ earned {a} (computePplnsPayouts reward (weights ++ more) minPayout)
        + ((computePplnsPayouts reward weights minPayout).length - 1) := by
  have hothers : ∀ b, b ≠ a → positiveWeight more b = 0 := fun b hb => by
    induction more with
    | nil => rfl
    | cons kv more ih =>
        rw [positiveWeight_cons, ih fun kv hkv => hmore kv (List.mem_cons_of_mem _ hkv),
          if_neg fun he => hb (he.symm.trans (hmore kv List.mem_cons_self))]
  refine earned_le_of_gathers reward minPayout ⟨Finset.mem_singleton_self a, fun b hb => ?_,
    fun x hx hne => absurd (Finset.mem_singleton.mp hx) hne, ?_,
    fun x hx _ => (Finset.mem_singleton.mp hx).le⟩
  · rw [positiveWeight_append, hothers b fun he => hb (he ▸ Finset.mem_singleton_self a), add_zero]
  · rw [Finset.sum_singleton, positiveWeight_append]
    exact Nat.le_add_right _ _

/-- An address that adds a share to its work. -/
theorem more_work_loses_nothing_share :
    earned {['a']} (computePplnsPayouts 1000 [(['a'], 5), (['c'], 9)] 10)
      ≤ earned {['a']} (computePplnsPayouts 1000 ([(['a'], 5), (['c'], 9)] ++ [(['a'], 2)]) 10)
        + ((computePplnsPayouts 1000 [(['a'], 5), (['c'], 9)] 10).length - 1) :=
  more_work_loses_nothing 1000 10 _ [(['a'], 2)] ['a'] (by simp)

end P2Pearl
