import P2Pearl.Consensus.Pplns

/-!
What the reward split gives to whom.

* `Dropped`: what the drop loop of `compute_pplns_payouts` leaves, whatever it started from;
  `dropDust_dropped` is its invariant.
* `computePplnsPayouts_eq`: the payouts are the sorted floored shares of the kept recipients, the
  branch for too small a pot included.
* `split_exact_fair`: the payouts are integer-exact, proportional up to one remainder, and reach
  the minimum unless one recipient takes everything.
* `no_needless_drop`: an address left out weighs the least, and would miss the minimum again.
* `computePplnsPayouts_congr`: the split is a function of the total of each address.
-/

namespace P2Pearl

/-- The sum of the positive weights a list gives to an address. -/
def positiveWeight (weights : List (PyStr × ℤ)) (a : PyStr) : ℕ :=
  sumAt (weights.map fun kv => (kv.1, kv.2.toNat)) a

/-! ### Sorting by a key -/

section Key

variable {α β : Type} [LinearOrder β] (f : α → β)

lemma pairwise_insertionSort_key (l : List α) :
    (l.insertionSort fun a b => f a ≤ f b).Pairwise fun a b => f a ≤ f b := by
  have : IsTrans α fun a b => f a ≤ f b := ⟨fun _ _ _ => le_trans⟩
  have : Std.Total fun a b : α => f a ≤ f b := ⟨fun _ _ => le_total _ _⟩
  exact List.pairwise_insertionSort _ l

/-- Sorting by a key that tells the elements apart forgets the order of the list. -/
lemma insertionSort_key_congr (hf : f.Injective) {l l' : List α} (h : l.Perm l') :
    (l.insertionSort fun a b => f a ≤ f b) = l'.insertionSort fun a b => f a ≤ f b := by
  have : Std.Antisymm fun a b : α => f a ≤ f b := ⟨fun _ _ hab hba => hf (le_antisymm hab hba)⟩
  have hperm := (List.perm_insertionSort (fun a b => f a ≤ f b) l).trans
    (h.trans (List.perm_insertionSort (fun a b => f a ≤ f b) l').symm)
  exact hperm.eq_of_pairwise' (pairwise_insertionSort_key f l) (pairwise_insertionSort_key f l')

end Key

lemma sortKey_injective {M : Type} : (sortKey : PyStr × M → Mᵒᵈ ×ₗ PyStr).Injective := by
  intro a b h
  have hpair := Prod.ext_iff.mp (toLex_inj.mp h)
  exact Prod.ext hpair.2 (OrderDual.toDual_inj.mp hpair.1)

lemma sortByWeight_congr {M : Type} [LinearOrder M] {l l' : List (PyStr × M)} (h : l.Perm l') :
    sortByWeight l = sortByWeight l' := insertionSort_key_congr sortKey sortKey_injective h

/-- The payouts are sorted by `(-grains, address)`. -/
lemma sortPayouts_sorted (l : List Payout) :
    (sortPayouts l).Pairwise fun p q =>
      q.grains < p.grains ∨ q.grains = p.grains ∧ p.address ≤ q.address := by
  refine (pairwise_insertionSort_key (fun p : Payout => sortKey (p.address, p.grains)) l).imp ?_
  intro p q h
  rcases Prod.Lex.le_iff.mp h with hlt | ⟨heq, hle⟩
  · exact Or.inl (OrderDual.toDual_lt_toDual.mp hlt)
  · exact Or.inr ⟨(OrderDual.toDual_inj.mp heq).symm, hle⟩

/-! ### The recipients before the drop loop -/

lemma sumAt_survivors (weights : List (PyStr × ℤ)) (a : PyStr) :
    sumAt (survivors weights).items a = positiveWeight weights a := by
  rw [survivors, Tally.sumAt_ofList, positiveWeight]
  induction weights with
  | nil => rfl
  | cons kv weights ih =>
      rw [List.map_cons, sumAt_cons, ← ih]
      by_cases hpos : 0 < kv.2
      · rw [List.filter_cons_of_pos (by simpa using hpos), List.map_cons, sumAt_cons]
      · have hzero : kv.2.toNat = 0 := by omega
        rw [List.filter_cons_of_neg (by simpa using hpos), hzero, ite_self, zero_add]

lemma survivors_pos (weights : List (PyStr × ℤ)) :
    ∀ kv ∈ (survivors weights).items, 0 < kv.2 := by
  refine Tally.pos_of_mem_ofList fun p hp => ?_
  obtain ⟨kv, hkv, rfl⟩ := List.mem_map.mp hp
  have hpos : 0 < kv.2 := by simpa using (List.mem_filter.mp hkv).2
  show 0 < kv.2.toNat
  omega

/-- The recipients are the addresses of positive weight, each with its total. -/
lemma mem_survivors_iff {weights : List (PyStr × ℤ)} {kv : PyStr × ℕ} :
    kv ∈ (survivors weights).items ↔ kv.2 ≠ 0 ∧ positiveWeight weights kv.1 = kv.2 := by
  rw [Tally.mem_items_iff fun p hp => (survivors_pos weights p hp).ne', sumAt_survivors]

/-! ### The drop loop -/

lemma key_le_of_worst {l : List (PyStr × ℕ)} {w kv : PyStr × ℕ} (h : worst l = some w)
    (hkv : kv ∈ l) : (toLex (w.2, w.1) : ℕ ×ₗ PyStr) ≤ toLex (kv.2, kv.1) := by
  have hmin : w ∈ l.argmin fun kv => (toLex (kv.2, kv.1) : ℕ ×ₗ PyStr) := h
  have hle := List.le_of_mem_argmin hkv hmin
  exact hle

/-- The key `(weight, address)` of the smallest recipient tells the recipients apart. -/
lemma worst_eq_some_iff {l : List (PyStr × ℕ)} {w : PyStr × ℕ} :
    worst l = some w ↔ w ∈ l
      ∧ ∀ kv ∈ l, (toLex (w.2, w.1) : ℕ ×ₗ PyStr) ≤ toLex (kv.2, kv.1) := by
  constructor
  · exact fun h => ⟨List.argmin_mem h, fun kv hkv => key_le_of_worst h hkv⟩
  · rintro ⟨hw, hle⟩
    cases hmin : worst l with
    | none => exact absurd hw (List.argmin_eq_none.mp hmin ▸ List.not_mem_nil)
    | some v =>
        have hkey := le_antisymm (hle v (List.argmin_mem hmin)) (key_le_of_worst hmin hw)
        have hpair := Prod.ext_iff.mp (toLex_inj.mp hkey)
        rw [show v = w from Prod.ext hpair.2.symm hpair.1.symm]

/-- The smallest recipient has a smallest weight. -/
lemma worst_le {l : List (PyStr × ℕ)} {w : PyStr × ℕ} (h : worst l = some w) :
    ∀ kv ∈ l, w.2 ≤ kv.2 := by
  intro kv hkv
  rcases Prod.Lex.le_iff.mp (key_le_of_worst h hkv) with hlt | heq
  · exact hlt.le
  · exact heq.1.le

/-- What the drop loop leaves of the recipients `d`: entries of `d`, the ones dropped being
smaller and below the minimum if put back, and it has stopped. -/
structure Dropped (reward minPayout : ℕ) (d k : Tally PyStr ℕ) : Prop where
  sub : k.items ⊆ d.items
  le : ∀ kv ∈ d.items, kv ∉ k.items → ∀ kv' ∈ k.items, kv.2 ≤ kv'.2
  below : ∀ kv ∈ d.items, kv ∉ k.items →
    reward * kv.2 / (grandTotal k.items + kv.2) < minPayout
  stop : k.items.length ≤ 1 ∨ ∀ kv ∈ k.items, minPayout ≤ reward * kv.2 / grandTotal k.items

/-- Nothing is dropped from recipients the loop stops at. -/
lemma Dropped.refl {reward minPayout : ℕ} {d : Tally PyStr ℕ}
    (h : d.items.length ≤ 1 ∨ ∀ kv ∈ d.items, minPayout ≤ reward * kv.2 / grandTotal d.items) :
    Dropped reward minPayout d d :=
  ⟨List.Subset.refl _, fun _ hkv hnot => absurd hkv hnot, fun _ hkv hnot => absurd hkv hnot, h⟩

/-- One round: the smallest recipient goes, and the rest of the loop follows.  Whatever goes
later weighs no less, so its failure beside the kept ones is the failure of this one too. -/
lemma Dropped.cons {reward minPayout : ℕ} {d k : Tally PyStr ℕ} {w : PyStr × ℕ}
    (hpos : ∀ kv ∈ d.items, 0 < kv.2) (hw : worst d.items = some w)
    (hmin : reward * w.2 / grandTotal d.items < minPayout)
    (h : Dropped reward minPayout (d.erase w.1) k) : Dropped reward minPayout d k := by
  have hmem : w ∈ d.items := (worst_eq_some_iff.mp hw).1
  have hperm := d.perm_cons_erase hmem
  have hsub : k.items ⊆ d.items := fun kv hkv =>
    hperm.mem_iff.mpr (List.mem_cons_of_mem _ (h.sub hkv))
  have hrest : ∀ kv ∈ d.items, kv ≠ w → kv ∈ (d.erase w.1).items := fun kv hkv hne =>
    (List.mem_cons.mp (hperm.mem_iff.mp hkv)).resolve_left hne
  -- the round itself: either it was the last one, or a later and larger one failed as well
  have hbelow : reward * w.2 / (grandTotal k.items + w.2) < minPayout := by
    by_cases hall : ∀ kv ∈ (d.erase w.1).items, kv ∈ k.items
    · have hkept : (d.erase w.1).items.Perm k.items :=
        (List.perm_ext_iff_of_nodup (d.erase w.1).items_nodup k.items_nodup).mpr fun kv =>
          ⟨hall kv, fun hkv => h.sub hkv⟩
      have htotal : grandTotal d.items = grandTotal k.items + w.2 := by
        rw [grandTotal, (hperm.map Prod.snd).sum_eq, List.map_cons, List.sum_cons,
          (hkept.map Prod.snd).sum_eq, grandTotal, Nat.add_comm]
      rwa [← htotal]
    · push Not at hall
      obtain ⟨e, he, hdrop⟩ := hall
      have hle : w.2 ≤ e.2 := worst_le hw e (hperm.mem_iff.mpr (List.mem_cons_of_mem _ he))
      exact (div_add_mono reward _ (hpos w hmem) hle).trans_lt (h.below e he hdrop)
  refine ⟨hsub, fun kv hkv hnot => ?_, fun kv hkv hnot => ?_, h.stop⟩
  · by_cases hkw : kv = w
    · exact fun kv' hkv' => hkw ▸ worst_le hw kv' (hsub hkv')
    · exact h.le kv (hrest kv hkv hkw) hnot
  · by_cases hkw : kv = w
    · exact hkw ▸ hbelow
    · exact h.below kv (hrest kv hkv hkw) hnot

/-- **The drop loop**: as many rounds as there are recipients leave a set it stops at. -/
lemma dropDust_dropped {reward minPayout n : ℕ} {d : Tally PyStr ℕ}
    (hpos : ∀ kv ∈ d.items, 0 < kv.2) (hn : d.items.length ≤ n) :
    Dropped reward minPayout d (dropDust reward minPayout n d) := by
  induction n generalizing d with
  | zero => exact Dropped.refl (Or.inl (by omega))
  | succ n ih =>
      rw [dropDust]
      split_ifs with hlen
      · exact Dropped.refl (Or.inl hlen)
      · cases hw : worst d.items with
        | none =>
            have hnil := List.argmin_eq_none.mp hw
            simp [hnil] at hlen
        | some w =>
            simp only
            split_ifs with hmin
            · refine Dropped.refl (Or.inr fun kv hkv => hmin.trans ?_)
              exact Nat.div_le_div_right (Nat.mul_le_mul_left _ (worst_le hw kv hkv))
            · have hperm := d.perm_cons_erase (worst_eq_some_iff.mp hw).1
              have hlength := hperm.length_eq
              rw [List.length_cons] at hlength
              refine Dropped.cons hpos hw (not_le.mp hmin) (ih (fun kv hkv => ?_) (by omega))
              exact hpos kv (hperm.mem_iff.mpr (List.mem_cons_of_mem _ hkv))

/-! ### The shares -/

/-- The floored share of a recipient. -/
def floorShare (reward total : ℕ) (kv : PyStr × ℕ) : Payout := ⟨kv.1, reward * kv.2 / total⟩

/-- All but the last recipient get their floored share, the last one what is left. -/
lemma splitReward_concat (reward total awarded : ℕ) (l : List (PyStr × ℕ)) (kv : PyStr × ℕ) :
    splitReward reward total awarded (l ++ [kv])
      = l.map (floorShare reward total)
        ++ [⟨kv.1, reward - (awarded + (l.map fun kv => reward * kv.2 / total).sum)⟩] := by
  induction l generalizing awarded with
  | nil => simp [splitReward]
  | cons x l ih =>
      have hcons : splitReward reward total awarded (x :: (l ++ [kv]))
          = floorShare reward total x
            :: splitReward reward total (awarded + reward * x.2 / total) (l ++ [kv]) := by
        cases l <;> rfl
      rw [List.cons_append, hcons, ih, List.map_cons, List.map_cons, List.sum_cons, Nat.add_assoc]
      rfl

/-- The remainder is a floored share too, but for less than one grain a recipient. -/
lemma splitReward_eq (reward : ℕ) {ordered : List (PyStr × ℕ)} (hpos : 0 < grandTotal ordered) :
    ∃ init kv grains, ordered = init ++ [kv]
      ∧ splitReward reward (grandTotal ordered) 0 ordered
        = init.map (floorShare reward (grandTotal ordered)) ++ [⟨kv.1, grains⟩]
      ∧ reward * kv.2 / grandTotal ordered ≤ grains
      ∧ grains < reward * kv.2 / grandTotal ordered + ordered.length := by
  rcases List.eq_nil_or_concat ordered with rfl | ⟨init, kv, hordered⟩
  · exact absurd hpos (lt_irrefl 0)
  rw [List.concat_eq_append] at hordered
  have hfits := sum_div_le reward (grandTotal ordered) (ordered.map Prod.snd) le_rfl
  have hshort := lt_sum_div_add (r := reward) (l := ordered.map Prod.snd) hpos
  rw [List.map_map, ← grandTotal, List.length_map] at hshort
  rw [List.map_map] at hfits
  refine ⟨init, kv, reward - (0 + (init.map fun kv => reward * kv.2 / grandTotal ordered).sum),
    hordered, ?_, ?_⟩
  · conv_lhs => rw [hordered, splitReward_concat]
    rw [← hordered]
  · generalize grandTotal ordered = total at hfits hshort ⊢
    subst hordered
    simp only [List.map_append, List.sum_append, List.map_cons, List.map_nil, List.sum_cons,
      List.sum_nil, Function.comp_def] at hfits hshort
    have hlen : (init ++ [kv]).length = init.length + 1 := by simp
    generalize reward * kv.2 / total = share at hfits hshort ⊢
    omega

/-- The payouts are the sorted shares of what the drop loop leaves.  Where the pot is too small for
the largest recipient, the loop has left no other. -/
lemma computePplnsPayouts_of_dropDust {reward : ℕ} (hr : 0 < reward) (minPayout : ℕ)
    {weights : List (PyStr × ℤ)} (hne : (survivors weights).items ≠ []) {k : Tally PyStr ℕ}
    (he : dropDust reward minPayout (survivors weights).items.length (survivors weights) = k) :
    computePplnsPayouts reward weights minPayout
      = sortPayouts (splitReward reward (grandTotal k.items) 0 (sortByWeight k.items)) := by
  have hk : Dropped reward minPayout (survivors weights) k :=
    he ▸ dropDust_dropped (survivors_pos weights) le_rfl
  have hkne : k.items ≠ [] := he ▸ dropDust_ne_nil reward minPayout hne
  rw [computePplnsPayouts, if_neg (by rintro (h | h); exacts [hne h, hr.ne' h]), he]
  have hperm := sortByWeight_perm k.items
  have htotal := grandTotal_sortByWeight k.items
  cases hordered : sortByWeight k.items with
  | nil => exact absurd (hordered ▸ hperm).nil_eq.symm hkne
  | cons top rest =>
      rw [hordered] at hperm htotal
      rw [payOrdered, htotal]
      split_ifs with hpot
      · -- the pot is too small for the largest recipient: the loop has stopped at one
        have hlen : k.items.length ≤ 1 := hk.stop.resolve_right fun hall =>
          absurd (hall top (hperm.mem_iff.mp List.mem_cons_self)) (not_le.mpr hpot)
        have hrest : rest = [] := by
          have := hperm.length_eq
          rw [List.length_cons] at this
          exact List.length_eq_zero_iff.mp (by omega)
        rw [hrest]
        rfl
      · rfl

/-- **The payouts**: the sorted shares of the recipients the drop loop keeps. -/
lemma computePplnsPayouts_eq {reward : ℕ} (hr : 0 < reward) (minPayout : ℕ)
    {weights : List (PyStr × ℤ)} (hne : (survivors weights).items ≠ []) :
    ∃ k, Dropped reward minPayout (survivors weights) k ∧ k.items ≠ []
      ∧ computePplnsPayouts reward weights minPayout
        = sortPayouts (splitReward reward (grandTotal k.items) 0 (sortByWeight k.items)) :=
  ⟨_, dropDust_dropped (survivors_pos weights) le_rfl, dropDust_ne_nil reward minPayout hne,
    computePplnsPayouts_of_dropDust hr minPayout hne rfl⟩

/-! ### Exact and fair -/

/-- The weight of all paid addresses together. -/
def paidWeight (weights : List (PyStr × ℤ)) (payouts : List Payout) : ℕ :=
  (payouts.map fun p => positiveWeight weights p.address).sum

/-- The payouts are an exact and fair split of the reward. -/
structure FairSplit (reward minPayout : ℕ) (weights : List (PyStr × ℤ)) (payouts : List Payout) :
    Prop where
  nodup : (payouts.map Payout.address).Nodup
  mem : ∀ p ∈ payouts, p.address ∈ weights.map Prod.fst ∧ 0 < positiveWeight weights p.address
  sum : (payouts.map Payout.grains).sum = reward
  floor_le : ∀ p ∈ payouts,
    reward * positiveWeight weights p.address / paidWeight weights payouts ≤ p.grains
  remainder : ∃ last ∈ payouts,
    (∀ p ∈ payouts, p ≠ last →
      p.grains = reward * positiveWeight weights p.address / paidWeight weights payouts)
    ∧ last.grains < reward * positiveWeight weights last.address / paidWeight weights payouts
      + payouts.length
  minimum : (∀ p ∈ payouts, minPayout ≤ p.grains)
    ∨ ∃ a, payouts = [⟨a, reward⟩] ∧ ∀ b, positiveWeight weights b ≤ positiveWeight weights a
  sorted : payouts.Pairwise fun p q => q.grains < p.grains ∨ q.grains = p.grains ∧
    p.address ≤ q.address

/-- The kept recipients carry the total weight of their address. -/
lemma Dropped.weight {reward minPayout : ℕ} {weights : List (PyStr × ℤ)} {k : Tally PyStr ℕ}
    (h : Dropped reward minPayout (survivors weights) k) {kv : PyStr × ℕ} (hkv : kv ∈ k.items) :
    positiveWeight weights kv.1 = kv.2 := (mem_survivors_iff.mp (h.sub hkv)).2

/-- The payouts of kept recipients, before they are sorted: the shares of the recipients in
order, the last one with the remainder. -/
structure Proportional (reward : ℕ) (k : Tally PyStr ℕ) (payouts : List Payout) : Prop where
  addresses : (payouts.map Payout.address).Perm k.keys
  exists_last : ∃ init last grains, k.items.Perm (init ++ [last])
    ∧ payouts.Perm (init.map (floorShare reward (grandTotal k.items)) ++ [⟨last.1, grains⟩])
    ∧ reward * last.2 / grandTotal k.items ≤ grains
    ∧ grains < reward * last.2 / grandTotal k.items + payouts.length

lemma sortPayouts_proportional (reward : ℕ) {k : Tally PyStr ℕ} (hpos : 0 < grandTotal k.items) :
    Proportional reward k
      (sortPayouts (splitReward reward (grandTotal k.items) 0 (sortByWeight k.items))) := by
  have hperm := sortByWeight_perm k.items
  have hsort := sortPayouts_perm
    (splitReward reward (grandTotal k.items) 0 (sortByWeight k.items))
  refine ⟨?_, ?_⟩
  · have haddr := hsort.map Payout.address
    rw [map_address_splitReward] at haddr
    exact haddr.trans (hperm.map Prod.fst)
  · have htotal := grandTotal_sortByWeight k.items
    obtain ⟨init, last, grains, hordered, hsplit, hle, hlt⟩ :=
      splitReward_eq reward (htotal.symm ▸ hpos)
    rw [htotal] at hsplit hle hlt
    refine ⟨init, last, grains, (hordered ▸ hperm).symm, hsplit ▸ hsort, hle, ?_⟩
    have hlen := congrArg List.length (map_address_splitReward reward (grandTotal k.items) 0
      (sortByWeight k.items))
    rw [List.length_map, List.length_map] at hlen
    rwa [hsort.length_eq, hlen]

/-- The paid addresses weigh what the kept recipients weigh. -/
lemma Proportional.paidWeight_eq {reward minPayout : ℕ} {weights : List (PyStr × ℤ)}
    {k : Tally PyStr ℕ} {payouts : List Payout}
    (hk : Dropped reward minPayout (survivors weights) k) (h : Proportional reward k payouts) :
    paidWeight weights payouts = grandTotal k.items := by
  have hweights : k.items.map (positiveWeight weights ∘ Prod.fst) = k.items.map Prod.snd :=
    List.map_congr_left fun kv hkv => hk.weight hkv
  calc paidWeight weights payouts
      = ((payouts.map Payout.address).map (positiveWeight weights)).sum := by
        rw [List.map_map]
        rfl
    _ = (k.keys.map (positiveWeight weights)).sum := (h.addresses.map _).sum_eq
    _ = grandTotal k.items := by rw [Tally.keys, List.map_map, hweights, grandTotal]

/-- A payout is a floored share, or the one with the remainder. -/
lemma Proportional.cases {reward : ℕ} {k : Tally PyStr ℕ} {payouts : List Payout}
    (h : Proportional reward k payouts) :
    ∃ last ∈ payouts, (∃ kv ∈ k.items, last.address = kv.1
        ∧ reward * kv.2 / grandTotal k.items ≤ last.grains
        ∧ last.grains < reward * kv.2 / grandTotal k.items + payouts.length)
      ∧ ∀ p ∈ payouts, p ≠ last →
          ∃ kv ∈ k.items, p = floorShare reward (grandTotal k.items) kv := by
  obtain ⟨init, last, grains, hitems, hperm, hle, hlt⟩ := h.exists_last
  have hlast : last ∈ k.items := hitems.mem_iff.mpr (by simp)
  refine ⟨⟨last.1, grains⟩, hperm.mem_iff.mpr (by simp), ⟨last, hlast, rfl, hle, hlt⟩, ?_⟩
  intro p hp hne
  rcases List.mem_append.mp (hperm.mem_iff.mp hp) with hinit | hsingle
  · obtain ⟨kv, hkv, rfl⟩ := List.mem_map.mp hinit
    exact ⟨kv, hitems.mem_iff.mpr (List.mem_append_left _ hkv), rfl⟩
  · exact absurd (List.mem_singleton.mp hsingle) hne

/-- Every payout is at least the floored share of its recipient. -/
lemma Proportional.floor_le {reward : ℕ} {k : Tally PyStr ℕ} {payouts : List Payout}
    (h : Proportional reward k payouts) {p : Payout} (hp : p ∈ payouts) :
    ∃ kv ∈ k.items, p.address = kv.1 ∧ reward * kv.2 / grandTotal k.items ≤ p.grains := by
  obtain ⟨last, -, ⟨kv, hkv, haddr, hle, -⟩, hfloor⟩ := h.cases
  by_cases hlast : p = last
  · exact ⟨kv, hkv, hlast ▸ haddr, hlast ▸ hle⟩
  · obtain ⟨kv, hkv, rfl⟩ := hfloor p hp hlast
    exact ⟨kv, hkv, rfl, le_rfl⟩

/-- A single kept recipient takes the whole reward, and weighs the most. -/
lemma Dropped.top_le {reward minPayout : ℕ} {weights : List (PyStr × ℤ)} {k : Tally PyStr ℕ}
    (hk : Dropped reward minPayout (survivors weights) k) {kv : PyStr × ℕ} (hone : k.items = [kv])
    (b : PyStr) : positiveWeight weights b ≤ positiveWeight weights kv.1 := by
  have hkv : kv ∈ k.items := hone ▸ List.mem_cons_self
  rcases Nat.eq_zero_or_pos (positiveWeight weights b) with hzero | hpos
  · rw [hzero]
    exact Nat.zero_le _
  · have hb : (b, positiveWeight weights b) ∈ (survivors weights).items :=
      mem_survivors_iff.mpr ⟨hpos.ne', rfl⟩
    rw [hk.weight hkv]
    by_cases hkept : (b, positiveWeight weights b) ∈ k.items
    · rw [hone, List.mem_singleton] at hkept
      exact (congrArg Prod.snd hkept).le
    · exact hk.le _ hb hkept kv hkv

/-- The recipients the payouts are for. -/
lemma exists_proportional {reward : ℕ} (hr : 0 < reward) (minPayout : ℕ)
    {weights : List (PyStr × ℤ)} (hsome : (survivors weights).items ≠ []) :
    ∃ k, Dropped reward minPayout (survivors weights) k ∧ k.items ≠ []
      ∧ Proportional reward k (computePplnsPayouts reward weights minPayout) := by
  obtain ⟨k, hk, hne, heq⟩ := computePplnsPayouts_eq hr minPayout hsome
  have hpos : 0 < grandTotal k.items := by
    obtain ⟨kv, hkv⟩ := List.exists_mem_of_ne_nil _ hne
    have hkvpos := survivors_pos weights kv (hk.sub hkv)
    exact hkvpos.trans_le (List.le_sum_of_mem (List.mem_map_of_mem hkv))
  exact ⟨k, hk, hne, heq ▸ sortPayouts_proportional reward hpos⟩

/-- **The split is exact and fair.**  Where there is a reward and an address of positive weight,
distinct addresses of the list are paid, the payouts sum to the reward, each is the floored share
of its address except one, which gets less than one grain a payout more, all of them reach the
minimum unless an address of maximal weight takes everything, and they are sorted by
`(-grains, address)`. -/
theorem split_exact_fair {reward : ℕ} (hr : 0 < reward) (minPayout : ℕ)
    {weights : List (PyStr × ℤ)} (h : ∃ kv ∈ weights, 0 < kv.2) :
    FairSplit reward minPayout weights (computePplnsPayouts reward weights minPayout) := by
  obtain ⟨k, hk, hne, hshares⟩ := exists_proportional hr minPayout (survivors_ne_nil h)
  have htotal := hshares.paidWeight_eq hk
  refine ⟨nodup_addresses reward weights minPayout, ?_, sum_grains_of_pos reward h minPayout,
    ?_, ?_, ?_, ?_⟩
  · intro p hp
    obtain ⟨kv, hkv, haddr, -⟩ := hshares.floor_le hp
    refine ⟨mem_weights_of_mem_payouts hp, ?_⟩
    rw [haddr, hk.weight hkv]
    exact survivors_pos weights kv (hk.sub hkv)
  · intro p hp
    obtain ⟨kv, hkv, haddr, hle⟩ := hshares.floor_le hp
    rwa [htotal, haddr, hk.weight hkv]
  · obtain ⟨last, hlast, ⟨kv, hkv, haddr, -, hlt⟩, hfloor⟩ := hshares.cases
    refine ⟨last, hlast, fun p hp hne => ?_, ?_⟩
    · obtain ⟨kv', hkv', rfl⟩ := hfloor p hp hne
      rw [htotal, floorShare, hk.weight hkv']
    · rwa [htotal, haddr, hk.weight hkv]
  · rcases hk.stop with hlen | hall
    · -- one recipient is left, which takes the whole reward
      right
      obtain ⟨kv, hone⟩ := List.length_eq_one_iff.mp
        (le_antisymm hlen (List.length_pos_iff.mpr hne))
      have haddr := hshares.addresses
      rw [Tally.keys, hone, List.map_cons, List.map_nil, List.perm_singleton] at haddr
      obtain ⟨p, hp⟩ := List.length_eq_one_iff.mp
        (by simpa using congrArg List.length haddr :
          (computePplnsPayouts reward weights minPayout).length = 1)
      have hsum := sum_grains_of_pos reward h minPayout
      rw [hp] at haddr hsum ⊢
      simp only [List.map_cons, List.map_nil, List.cons.injEq, and_true, List.sum_cons,
        List.sum_nil, add_zero] at haddr hsum
      exact ⟨kv.1, by rw [← haddr, ← hsum], hk.top_le hone⟩
    · left
      intro p hp
      obtain ⟨kv, hkv, -, hle⟩ := hshares.floor_le hp
      exact (hall kv hkv).trans hle
  · obtain ⟨k', -, -, heq⟩ := computePplnsPayouts_eq hr minPayout (survivors_ne_nil h)
    rw [heq]
    exact sortPayouts_sorted _

/-- Two addresses of positive weight, one of them given twice, beside one of negative weight. -/
theorem split_exact_fair_three : ∃ payouts,
    payouts = computePplnsPayouts 1000 [(['b'], 1), (['a'], 1), (['c'], -4), (['b'], 1)] 10
      ∧ FairSplit 1000 10 [(['b'], 1), (['a'], 1), (['c'], -4), (['b'], 1)] payouts :=
  ⟨_, rfl, split_exact_fair (by decide) 10 ⟨(['b'], 1), List.mem_cons_self, by decide⟩⟩

/-! ### Nobody is dropped needlessly -/

/-- **Only dust is dropped.**  An address of positive weight that is not paid weighs no more than
any paid one, and beside the paid ones its floored share is below the minimum. -/
theorem no_needless_drop {reward : ℕ} (hr : 0 < reward) (minPayout : ℕ)
    (weights : List (PyStr × ℤ)) {d : PyStr} (hd : 0 < positiveWeight weights d)
    (hnot : d ∉ (computePplnsPayouts reward weights minPayout).map Payout.address) :
    (∀ p ∈ computePplnsPayouts reward weights minPayout,
        positiveWeight weights d ≤ positiveWeight weights p.address)
      ∧ reward * positiveWeight weights d
          / (paidWeight weights (computePplnsPayouts reward weights minPayout)
            + positiveWeight weights d) < minPayout := by
  have hmem : (d, positiveWeight weights d) ∈ (survivors weights).items :=
    mem_survivors_iff.mpr ⟨hd.ne', rfl⟩
  obtain ⟨k, hk, -, hshares⟩ := exists_proportional hr minPayout (List.ne_nil_of_mem hmem)
  have hdropped : (d, positiveWeight weights d) ∉ k.items := fun hkept =>
    hnot (hshares.addresses.mem_iff.mpr (List.mem_map_of_mem hkept))
  constructor
  · intro p hp
    obtain ⟨kv, hkv, haddr, -⟩ := hshares.floor_le hp
    rw [haddr, hk.weight hkv]
    exact hk.le _ hmem hdropped kv hkv
  · rw [hshares.paidWeight_eq hk]
    exact hk.below _ hmem hdropped

/-- An address whose share is below the minimum is dropped. -/
theorem no_needless_drop_dust :
    (['d'] ∉ (computePplnsPayouts 1000 [(['d'], 1), (['a'], 300), (['b'], 200)] 10).map
        Payout.address)
      ∧ 1000 * positiveWeight [(['d'], 1), (['a'], 300), (['b'], 200)] ['d']
          / (paidWeight [(['d'], 1), (['a'], 300), (['b'], 200)]
              (computePplnsPayouts 1000 [(['d'], 1), (['a'], 300), (['b'], 200)] 10)
            + positiveWeight [(['d'], 1), (['a'], 300), (['b'], 200)] ['d']) < 10 := by
  have hnot : ['d'] ∉ (computePplnsPayouts 1000 [(['d'], 1), (['a'], 300), (['b'], 200)] 10).map
      Payout.address := by decide +kernel
  exact ⟨hnot, (no_needless_drop (by decide) 10 _ (by decide +kernel) hnot).2⟩

/-! ### The split is a function of the totals -/

lemma worst_perm {l l' : List (PyStr × ℕ)} (h : l.Perm l') : worst l = worst l' := by
  refine Option.ext fun w => ?_
  rw [worst_eq_some_iff, worst_eq_some_iff, h.mem_iff]
  exact and_congr_right fun _ => forall_congr' fun kv => by rw [h.mem_iff]

lemma grandTotal_perm {l l' : List (PyStr × ℕ)} (h : l.Perm l') : grandTotal l = grandTotal l' :=
  (h.map Prod.snd).sum_eq

/-- The drop loop drops the same recipients from two orders of the same ones. -/
lemma dropDust_perm {reward minPayout : ℕ} (n : ℕ) {d d' : Tally PyStr ℕ}
    (h : d.items.Perm d'.items) :
    (dropDust reward minPayout n d).items.Perm (dropDust reward minPayout n d').items := by
  induction n generalizing d d' with
  | zero => exact h
  | succ n ih =>
      rw [dropDust, dropDust, h.length_eq, worst_perm h, grandTotal_perm h]
      split_ifs with hlen
      · exact h
      · cases worst d'.items with
        | none => exact h
        | some w =>
            simp only
            split_ifs with hmin
            · exact h
            · exact ih (h.filter _)

/-- **The split is a function of the totals**: two lists that give every address the same sum of
positive weights have one split, whatever their order, however an address's weight is split
into entries, and whatever entries without weight they hold. -/
lemma computePplnsPayouts_congr (reward minPayout : ℕ) {weights weights' : List (PyStr × ℤ)}
    (h : ∀ a, positiveWeight weights a = positiveWeight weights' a) :
    computePplnsPayouts reward weights minPayout
      = computePplnsPayouts reward weights' minPayout := by
  have hperm : (survivors weights).items.Perm (survivors weights').items :=
    Tally.perm_of_sumAt_eq (fun p hp => (survivors_pos weights p hp).ne')
      (fun p hp => (survivors_pos weights' p hp).ne')
      fun a => by rw [sumAt_survivors, sumAt_survivors, h]
  have hnil : (survivors weights).items = [] ↔ (survivors weights').items = [] := by
    rw [← List.length_eq_zero_iff, hperm.length_eq, List.length_eq_zero_iff]
  rw [computePplnsPayouts, computePplnsPayouts, hperm.length_eq,
    sortByWeight_congr (dropDust_perm _ hperm), if_congr (or_congr_left hnil) rfl rfl]

end P2Pearl
