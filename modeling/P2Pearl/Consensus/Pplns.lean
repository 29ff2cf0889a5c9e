import P2Pearl.Data.Struct
import P2Pearl.Data.Tally
import Mathlib.Data.List.Lex
import Mathlib.Data.List.MinMax
import Mathlib.Data.Char

/-!
`consensus/pplns.py`: the feeless reward split.

* `sortByWeight`: the order `(-weight, address)` every list of recipients is put in.
* `dropDust`: the loop that drops the smallest recipient while it falls below the minimum.
* `splitReward`: the floored shares, the last recipient absorbing the remainder.
* `computePplnsPayouts`: the coinbase payouts of a weight list.  They sum to the reward or
  are empty (`sum_grains`), they sum to it where a weight is positive (`sum_grains_of_pos`), and
  they pay distinct addresses of the list (`nodup_addresses`, `mem_weights_of_mem_payouts`).
-/

namespace P2Pearl

/-- A coinbase payout, in grains. -/
structure Payout where
  address : PyStr
  grains : ℕ
  deriving DecidableEq

/-- `uncle_weight`: the penalized weight of an uncle share. -/
def uncleWeight (difficulty penaltyPercent : ℕ) : ℤ :=
  difficulty * (100 - penaltyPercent) / 100

/-! ### Order -/

/-- The sort key `(-weight, address)`. -/
def sortKey {M : Type} (kv : PyStr × M) : Mᵒᵈ ×ₗ PyStr := toLex (OrderDual.toDual kv.2, kv.1)

/-- `sorted(items, key=lambda kv: (-kv[1], kv[0]))`. -/
def sortByWeight {M : Type} [LinearOrder M] (l : List (PyStr × M)) : List (PyStr × M) :=
  l.insertionSort fun a b => sortKey a ≤ sortKey b

lemma sortByWeight_perm {M : Type} [LinearOrder M] (l : List (PyStr × M)) :
    (sortByWeight l).Perm l := List.perm_insertionSort _ l

lemma sumAt_sortByWeight {M : Type} [LinearOrder M] [AddCommMonoid M] (l : List (PyStr × M))
    (a : PyStr) : sumAt (sortByWeight l) a = sumAt l a :=
  (((sortByWeight_perm l).filter _).map _).sum_eq

lemma grandTotal_sortByWeight {M : Type} [LinearOrder M] [AddCommMonoid M]
    (l : List (PyStr × M)) : grandTotal (sortByWeight l) = grandTotal l :=
  ((sortByWeight_perm l).map _).sum_eq

/-! ### The split -/

/-- `min(items, key=lambda kv: (kv[1], kv[0]))`. -/
def worst (l : List (PyStr × ℕ)) : Option (PyStr × ℕ) :=
  l.argmin fun kv => (toLex (kv.2, kv.1) : ℕ ×ₗ PyStr)

/-- The drop loop: while more than one recipient is left and the smallest falls below the
minimum, it is dropped.  Each round drops one recipient, so `n` rounds suffice for `n`
recipients. -/
def dropDust (reward minPayout : ℕ) : ℕ → Tally PyStr ℕ → Tally PyStr ℕ
  | 0, d => d
  | n + 1, d =>
      if d.items.length ≤ 1 then d
      else
        match worst d.items with
        | none => d
        | some w =>
            if minPayout ≤ reward * w.2 / grandTotal d.items then d
            else dropDust reward minPayout n (d.erase w.1)

/-- The payouts of the ordered recipients, `awarded` grains being given out already: floored
shares, and the remainder for the last one. -/
def splitReward (reward total : ℕ) : ℕ → List (PyStr × ℕ) → List Payout
  | _, [] => []
  | awarded, [kv] => [⟨kv.1, reward - awarded⟩]
  | awarded, kv :: kv' :: l =>
      ⟨kv.1, reward * kv.2 / total⟩
        :: splitReward reward total (awarded + reward * kv.2 / total) (kv' :: l)

/-- `sorted(payouts, key=lambda p: (-p.grains, p.address))`. -/
def sortPayouts (l : List Payout) : List Payout :=
  l.insertionSort fun p q => sortKey (p.address, p.grains) ≤ sortKey (q.address, q.grains)

/-- The summed positive weights per address. -/
def survivors (weights : List (PyStr × ℤ)) : Tally PyStr ℕ :=
  Tally.ofList ((weights.filter fun kv => 0 < kv.2).map fun kv => (kv.1, kv.2.toNat))

/-- The payouts of the recipients left by the drop loop, in order. -/
def payOrdered (reward minPayout : ℕ) : List (PyStr × ℕ) → List Payout
  | [] => []
  | top :: rest =>
      -- too small a pot for even the largest miner: it takes everything
      if reward * top.2 / grandTotal (top :: rest) < minPayout then [⟨top.1, reward⟩]
      else sortPayouts (splitReward reward (grandTotal (top :: rest)) 0 (top :: rest))

/-- `compute_pplns_payouts`.  The amounts are naturals: the two `ValueError`s are for
negative ones (`computePplnsPayoutsInt`). -/
def computePplnsPayouts (reward : ℕ) (weights : List (PyStr × ℤ)) (minPayout : ℕ) :
    List Payout :=
  if (survivors weights).items = [] ∨ reward = 0 then []
  else payOrdered reward minPayout (sortByWeight
    (dropDust reward minPayout (survivors weights).items.length (survivors weights)).items)

/-- `compute_pplns_payouts` on any integers: its two checks, then the split. -/
def computePplnsPayoutsInt (reward : ℤ) (weights : List (PyStr × ℤ)) (minPayout : ℤ) :
    Except PyError (List Payout) :=
  if reward < 0 then .error (.valueError "block_reward_grains must be non-negative")
  else if minPayout < 0 then .error (.valueError "min_payout_grains must be non-negative")
  else .ok (computePplnsPayouts reward.toNat weights minPayout.toNat)

/-! ### The sum is exact -/

/-- The split gives out what is left of the reward, as long as the floored shares fit. -/
lemma splitReward_sum (reward total awarded : ℕ) (l : List (PyStr × ℕ)) (hne : l ≠ [])
    (h : awarded + (l.map fun kv => reward * kv.2 / total).sum ≤ reward) :
    awarded + ((splitReward reward total awarded l).map Payout.grains).sum = reward := by
  induction l generalizing awarded with
  | nil => exact absurd rfl hne
  | cons kv l ih =>
      cases l with
      | nil =>
          have hle : awarded ≤ reward := (Nat.le_add_right _ _).trans h
          simp only [splitReward, List.map_cons, List.map_nil, List.sum_cons, List.sum_nil]
          omega
      | cons kv' l =>
          have h' := ih (awarded + reward * kv.2 / total) (by simp) (by
            simp only [List.map_cons, List.sum_cons] at h ⊢
            omega)
          simp only [splitReward, List.map_cons, List.sum_cons] at h' ⊢
          omega

lemma map_address_splitReward (reward total awarded : ℕ) (l : List (PyStr × ℕ)) :
    (splitReward reward total awarded l).map Payout.address = l.map Prod.fst := by
  induction l generalizing awarded with
  | nil => rfl
  | cons kv l ih =>
      cases l with
      | nil => rfl
      | cons kv' l => rw [splitReward, List.map_cons, ih]; rfl

lemma sortPayouts_perm (l : List Payout) : (sortPayouts l).Perm l := List.perm_insertionSort _ l

lemma payOrdered_sum (reward minPayout : ℕ) {ordered : List (PyStr × ℕ)} (hne : ordered ≠ []) :
    ((payOrdered reward minPayout ordered).map Payout.grains).sum = reward := by
  cases ordered with
  | nil => exact absurd rfl hne
  | cons top rest =>
      rw [payOrdered]
      split_ifs with hpot
      · simp
      · have hfloor : ((top :: rest).map fun kv =>
            reward * kv.2 / grandTotal (top :: rest)).sum ≤ reward := by
          have := sum_div_le reward (grandTotal (top :: rest)) ((top :: rest).map Prod.snd) le_rfl
          rwa [List.map_map] at this
        rw [((sortPayouts_perm _).map Payout.grains).sum_eq]
        simpa using splitReward_sum reward (grandTotal (top :: rest)) 0 (top :: rest) (by simp)
          (by simpa using hfloor)

/-- The payouts are empty or sum to the reward. -/
theorem sum_grains (reward : ℕ) (weights : List (PyStr × ℤ)) (minPayout : ℕ) :
    computePplnsPayouts reward weights minPayout = []
      ∨ ((computePplnsPayouts reward weights minPayout).map Payout.grains).sum = reward := by
  rw [computePplnsPayouts]
  split_ifs with h
  · exact Or.inl rfl
  · generalize sortByWeight (dropDust reward minPayout _ _).items = ordered
    cases ordered with
    | nil => exact Or.inl rfl
    | cons top rest => exact Or.inr (payOrdered_sum reward minPayout (List.cons_ne_nil _ _))

/-- The drop loop keeps a recipient. -/
lemma dropDust_ne_nil (reward minPayout : ℕ) {n : ℕ} {d : Tally PyStr ℕ} (hne : d.items ≠ []) :
    (dropDust reward minPayout n d).items ≠ [] := by
  induction n generalizing d with
  | zero => exact hne
  | succ n ih =>
      rw [dropDust]
      split_ifs with hlen
      · exact hne
      · cases hw : worst d.items with
        | none => exact hne
        | some w =>
            simp only
            split_ifs with hmin
            · exact hne
            · -- two recipients have two addresses, so one is left when an address is dropped
              refine ih fun hnil => hlen ?_
              have hall : ∀ a ∈ d.items.map Prod.fst, a ∈ [w.1] := by
                intro a ha
                obtain ⟨p, hp, rfl⟩ := List.mem_map.mp ha
                by_contra hne'
                have hmem : p ∈ (d.erase w.1).items :=
                  List.mem_filter.mpr ⟨hp, by simpa using hne'⟩
                rw [hnil] at hmem
                exact absurd hmem List.not_mem_nil
              simpa using (d.nodup.subperm hall).length_le

/-- An address of positive weight survives. -/
lemma survivors_ne_nil {weights : List (PyStr × ℤ)} (h : ∃ kv ∈ weights, 0 < kv.2) :
    (survivors weights).items ≠ [] := by
  obtain ⟨kv, hkv, hpos⟩ := h
  have hkey : kv.1 ∈ (survivors weights).keys := by
    rw [survivors, Tally.mem_keys_ofList, List.map_map]
    exact List.mem_map.mpr ⟨kv, List.mem_filter.mpr ⟨hkv, by simpa using hpos⟩, rfl⟩
  intro hnil
  rw [Tally.keys, hnil] at hkey
  exact absurd hkey List.not_mem_nil

/-- **Integer-exact**: where an address has a positive weight, the payouts sum to the reward. -/
theorem sum_grains_of_pos (reward : ℕ) {weights : List (PyStr × ℤ)}
    (h : ∃ kv ∈ weights, 0 < kv.2) (minPayout : ℕ) :
    ((computePplnsPayouts reward weights minPayout).map Payout.grains).sum = reward := by
  have hne := survivors_ne_nil h
  rw [computePplnsPayouts]
  split_ifs with hnone
  · have hzero := hnone.resolve_left hne
    rw [hzero]
    rfl
  · have hperm := sortByWeight_perm
      (dropDust reward minPayout (survivors weights).items.length (survivors weights)).items
    refine payOrdered_sum reward minPayout fun hnil => ?_
    rw [hnil] at hperm
    exact dropDust_ne_nil reward minPayout hne hperm.nil_eq.symm

/-- No weights, no payouts. -/
@[simp] lemma computePplnsPayouts_nil (reward minPayout : ℕ) :
    computePplnsPayouts reward [] minPayout = [] := if_pos (Or.inl rfl)

/-- The payouts never exceed the reward. -/
lemma sum_grains_le (reward : ℕ) (weights : List (PyStr × ℤ)) (minPayout : ℕ) :
    ((computePplnsPayouts reward weights minPayout).map Payout.grains).sum ≤ reward := by
  rcases sum_grains reward weights minPayout with h | h
  · rw [h]; exact Nat.zero_le _
  · exact h.le

/-- A single weighed address takes the whole reward. -/
lemma computePplnsPayouts_singleton {reward : ℕ} (hr : reward ≠ 0) {a : PyStr} {w : ℤ}
    (hw : 0 < w) (minPayout : ℕ) :
    computePplnsPayouts reward [(a, w)] minPayout = [⟨a, reward⟩] := by
  have hsurvivors : (survivors [(a, w)]).items = [(a, w.toNat)] := by
    simp [survivors, hw, Tally.ofList, Tally.add, Tally.empty, bump]
  have hdrop : (dropDust reward minPayout 1 (survivors [(a, w)])).items = [(a, w.toNat)] := by
    rw [dropDust, if_pos (by simp [hsurvivors]), hsurvivors]
  rw [computePplnsPayouts, if_neg (by simp [hsurvivors, hr]), hsurvivors, List.length_singleton,
    hdrop]
  have hsort : sortByWeight [(a, w.toNat)] = [(a, w.toNat)] := rfl
  rw [hsort, payOrdered]
  split_ifs <;> rfl

/-! ### The recipients -/

lemma mem_dropDust {reward minPayout n : ℕ} {d : Tally PyStr ℕ} {kv : PyStr × ℕ}
    (h : kv ∈ (dropDust reward minPayout n d).items) : kv ∈ d.items := by
  induction n generalizing d with
  | zero => exact h
  | succ n ih =>
      rw [dropDust] at h
      split_ifs at h
      · exact h
      · cases hw : worst d.items with
        | none => rw [hw] at h; exact h
        | some w =>
            rw [hw] at h
            simp only at h
            split_ifs at h
            · exact h
            · exact (List.mem_filter.mp (ih h)).1

lemma mem_weights_of_mem_survivors {weights : List (PyStr × ℤ)} {a : PyStr}
    (h : a ∈ (survivors weights).keys) : a ∈ weights.map Prod.fst := by
  rw [survivors, Tally.mem_keys_ofList, List.map_map] at h
  obtain ⟨kv, hkv, rfl⟩ := List.mem_map.mp h
  exact List.mem_map_of_mem (List.mem_filter.mp hkv).1

lemma payOrdered_addresses (reward minPayout : ℕ) (ordered : List (PyStr × ℕ)) :
    ((payOrdered reward minPayout ordered).map Payout.address).Subperm
      (ordered.map Prod.fst) := by
  cases ordered with
  | nil => exact List.nil_subperm
  | cons top rest =>
      rw [payOrdered]
      split_ifs with hpot
      · exact List.singleton_subperm_iff.mpr (by simp)
      · have hperm := (sortPayouts_perm
          (splitReward reward (grandTotal (top :: rest)) 0 (top :: rest))).map Payout.address
        rw [map_address_splitReward] at hperm
        exact hperm.subperm

/-- The paid addresses are among distinct addresses of the weight list. -/
lemma payouts_addresses (reward : ℕ) (weights : List (PyStr × ℤ)) (minPayout : ℕ) :
    ∃ l : List PyStr, l.Nodup ∧ (∀ a ∈ l, a ∈ weights.map Prod.fst)
      ∧ ((computePplnsPayouts reward weights minPayout).map Payout.address).Subperm l := by
  let kept := dropDust reward minPayout (survivors weights).items.length (survivors weights)
  have hmem : ∀ a ∈ kept.keys, a ∈ weights.map Prod.fst := by
    intro a ha
    obtain ⟨kv, hkv, rfl⟩ := List.mem_map.mp ha
    exact mem_weights_of_mem_survivors (List.mem_map_of_mem (mem_dropDust hkv))
  refine ⟨kept.keys, kept.nodup, hmem, ?_⟩
  rw [computePplnsPayouts]
  split_ifs with h
  · exact List.nil_subperm
  · exact (payOrdered_addresses _ _ _).trans ((sortByWeight_perm kept.items).map Prod.fst).subperm

/-- There are at most as many payouts as weighed addresses. -/
lemma payouts_length_le (reward : ℕ) (weights : List (PyStr × ℤ)) (minPayout : ℕ) :
    (computePplnsPayouts reward weights minPayout).length ≤ weights.length := by
  obtain ⟨l, hnodup, hmem, hsub⟩ := payouts_addresses reward weights minPayout
  simpa using (hsub.trans (hnodup.subperm hmem)).length_le

/-- No address is paid twice. -/
lemma nodup_addresses (reward : ℕ) (weights : List (PyStr × ℤ)) (minPayout : ℕ) :
    ((computePplnsPayouts reward weights minPayout).map Payout.address).Nodup := by
  obtain ⟨l, hl, -, h⟩ := payouts_addresses reward weights minPayout
  obtain ⟨l', hperm, hsub⟩ := h
  exact hperm.nodup_iff.mp (hl.sublist hsub)

/-- Only addresses of the weight list are paid. -/
lemma mem_weights_of_mem_payouts {reward : ℕ} {weights : List (PyStr × ℤ)} {minPayout : ℕ}
    {p : Payout} (hp : p ∈ computePplnsPayouts reward weights minPayout) :
    p.address ∈ weights.map Prod.fst := by
  obtain ⟨l, -, hl, h⟩ := payouts_addresses reward weights minPayout
  exact hl _ (h.subset (List.mem_map_of_mem hp))

end P2Pearl
