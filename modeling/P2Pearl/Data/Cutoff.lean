import P2Pearl.Data.Tally

/-!
Sharing a reward in proportion to weights, where the lightest are dropped that would fall below a
minimum.

* `Cutoff`: who is kept, the order being that of weights, and of names where these are equal.
* `Gathers`: a group of names moves all its weight, and maybe more, to the last of them.
* `Gathers.share_le`: that does not make the share of the group smaller.
-/

namespace P2Pearl

variable {α : Type} [LinearOrder α] {reward minimum : ℕ} {w w' : α → ℕ} {A K K' : Finset α} {a : α}

/-- The order in which names are dropped. -/
def weighKey (w : α → ℕ) (a : α) : ℕ ×ₗ α := toLex (w a, a)

lemma weighKey_le_iff {a b : α} :
    weighKey w a ≤ weighKey w' b ↔ w a < w' b ∨ w a = w' b ∧ a ≤ b := Prod.Lex.le_iff

/-- Who is kept: the dropped ones come before the kept ones, each of them would fall below the
minimum beside these, and no kept one does unless there is no other. -/
structure Cutoff (reward minimum : ℕ) (w : α → ℕ) (K : Finset α) : Prop where
  nonempty : K.Nonempty
  pos : ∀ a ∈ K, 0 < w a
  upper : ∀ a ∈ K, ∀ b, 0 < w b → b ∉ K → weighKey w b < weighKey w a
  below : ∀ b, 0 < w b → b ∉ K → reward * w b / (∑ x ∈ K, w x + w b) < minimum
  stop : K.card ≤ 1 ∨ ∀ a ∈ K, minimum ≤ reward * w a / ∑ x ∈ K, w x

/-- Where two are kept, none of them falls below the minimum. -/
lemma Cutoff.minimum_le (h : Cutoff reward minimum w K) {a b : α} (ha : a ∈ K) (hb : b ∈ K)
    (hne : a ≠ b) : minimum ≤ reward * w a / ∑ x ∈ K, w x := by
  rcases h.stop with hone | hall
  · exact absurd (Finset.card_le_one.mp hone a ha b hb) hne
  · exact hall a ha

/-- The names `A` move all their weight to the last of them, which may gain some. -/
structure Gathers (w w' : α → ℕ) (A : Finset α) (a : α) : Prop where
  mem : a ∈ A
  others : ∀ b ∉ A, w' b = w b
  rest : ∀ x ∈ A, x ≠ a → w' x = 0
  total : ∑ x ∈ A, w x ≤ w' a
  last : ∀ x ∈ A, 0 < w x → x ≤ a

namespace Gathers

variable (h : Gathers w w' A a)

include h

lemma le {x : α} (hx : x ∈ A) : w x ≤ w' a :=
  (Finset.single_le_sum (fun _ _ => Nat.zero_le _) hx).trans h.total

lemma key_le {x : α} (hx : x ∈ A) (hpos : 0 < w x) : weighKey w x ≤ weighKey w' a := by
  rcases (h.le hx).lt_or_eq with hlt | heq
  · exact weighKey_le_iff.mpr (Or.inl hlt)
  · exact weighKey_le_iff.mpr (Or.inr ⟨heq, h.last x hx hpos⟩)

variable (hK : Cutoff reward minimum w K) (hK' : Cutoff reward minimum w' K')

include hK'

/-- Of the group only its last name can be kept afterwards. -/
lemma notMem_of_ne {b : α} (hb : b ∈ K') (hne : b ≠ a) : b ∉ A := fun hA =>
  (hK'.pos b hb).ne' (h.rest b hA hne)

variable [DecidableEq α]

include hK

/-- The last name is kept if one of the group was. -/
lemma mem_kept {x : α} (hx : x ∈ K) (hA : x ∈ A) : a ∈ K' := by
  by_contra hnot
  have hpos := hK.pos x hx
  have hout : ∀ b ∈ K', b ∉ A := fun b hb => h.notMem_of_ne hK' hb fun he => hnot (he ▸ hb)
  have hsame : ∀ b ∈ K', w' b = w b := fun b hb => h.others b (hout b hb)
  have hsub : K' ⊆ K := fun b hb => by
    by_contra hbK
    have hlow := hK.upper x hx b (hsame b hb ▸ hK'.pos b hb) hbK
    have hhigh := hK'.upper b hb a (hpos.trans_le (h.le hA)) hnot
    rw [weighKey, weighKey, hsame b hb] at hhigh
    exact lt_irrefl _ (hlow.trans_le ((h.key_le hA hpos).trans hhigh.le))
  have hxK' : x ∉ K' := fun hin => hout x hin hA
  have hsum : ∑ b ∈ K', w' b + w x ≤ ∑ b ∈ K, w b := by
    rw [Finset.sum_congr rfl hsame, add_comm, ← Finset.sum_insert hxK']
    exact Finset.sum_le_sum_of_subset (Finset.insert_subset hx hsub)
  obtain ⟨b, hb⟩ := hK'.nonempty
  -- what was kept of the group alone had the minimum beside more than is left
  refine absurd (hK'.below a (hpos.trans_le (h.le hA)) hnot) (not_lt.mpr ?_)
  calc minimum
      ≤ reward * w x / ∑ b ∈ K, w b :=
        hK.minimum_le hx (hsub hb) fun he => hxK' (he ▸ hb)
    _ ≤ reward * w x / (∑ b ∈ K', w' b + w x) := Nat.div_le_div_left hsum (by omega)
    _ ≤ reward * w' a / (∑ b ∈ K', w' b + w' a) := div_add_mono reward _ hpos (h.le hA)

/-- Who is kept beside it was kept before. -/
lemma kept_subset (ha : a ∈ K') {b : α} (hb : b ∈ K') (hne : b ≠ a) : b ∈ K := by
  by_contra hbK
  have hbA := h.notMem_of_ne hK' hb hne
  have hsame : w' b = w b := h.others b hbA
  have hbpos : 0 < w b := hsame ▸ hK'.pos b hb
  have hsub : insert b (K \ A) ⊆ K'.erase a := by
    intro c hc
    rcases Finset.mem_insert.mp hc with rfl | hc
    · exact Finset.mem_erase.mpr ⟨hne, hb⟩
    · obtain ⟨hcK, hcA⟩ := Finset.mem_sdiff.mp hc
      refine Finset.mem_erase.mpr ⟨fun he => hcA (he ▸ h.mem), ?_⟩
      by_contra hcK'
      have hlow := hK.upper c hcK b hbpos hbK
      have hhigh := hK'.upper b hb c (h.others c hcA ▸ hK.pos c hcK) hcK'
      rw [weighKey, weighKey, hsame, h.others c hcA] at hhigh
      exact lt_irrefl _ (hlow.trans hhigh)
  have hsum : ∑ x ∈ K, w x + w b ≤ ∑ x ∈ K', w' x := by
    have hgroup : ∑ x ∈ K ∩ A, w x ≤ w' a :=
      (Finset.sum_le_sum_of_subset Finset.inter_subset_right).trans h.total
    have hrest : ∑ x ∈ insert b (K \ A), w x ≤ ∑ x ∈ K'.erase a, w' x :=
      calc ∑ x ∈ insert b (K \ A), w x
          = ∑ x ∈ insert b (K \ A), w' x := Finset.sum_congr rfl fun x hx => by
            rcases Finset.mem_insert.mp hx with rfl | hx
            · exact hsame.symm
            · exact (h.others x (Finset.mem_sdiff.mp hx).2).symm
        _ ≤ _ := Finset.sum_le_sum_of_subset hsub
    rw [Finset.sum_insert fun hin => hbK (Finset.mem_sdiff.mp hin).1] at hrest
    rw [← Finset.sum_inter_add_sum_sdiff K A w, ← Finset.add_sum_erase _ _ ha]
    omega
  refine absurd (hK.below b hbpos hbK) (not_lt.mpr ?_)
  calc minimum
      ≤ reward * w' b / ∑ x ∈ K', w' x := hK'.minimum_le hb ha hne
    _ ≤ reward * w b / (∑ x ∈ K, w x + w b) := by
        rw [hsame]
        exact Nat.div_le_div_left hsum (by omega)

/-- **Gathering does not lower a share**: of what is kept, the group has no larger part than its
last name has afterwards. -/
lemma share_le (hsome : (K ∩ A).Nonempty) :
    a ∈ K' ∧ (∑ x ∈ K ∩ A, w x) * ∑ x ∈ K', w' x ≤ w' a * ∑ x ∈ K, w x := by
  obtain ⟨x, hx⟩ := hsome
  have ha := h.mem_kept hK hK' (Finset.mem_inter.mp hx).1 (Finset.mem_inter.mp hx).2
  refine ⟨ha, ?_⟩
  have hgroup : ∑ x ∈ K ∩ A, w x ≤ w' a :=
    (Finset.sum_le_sum_of_subset Finset.inter_subset_right).trans h.total
  have hrest : ∑ x ∈ K'.erase a, w' x ≤ ∑ x ∈ K \ A, w x := by
    have hout : ∀ b ∈ K'.erase a, b ∈ K \ A := fun b hb => by
      obtain ⟨hne, hb⟩ := Finset.mem_erase.mp hb
      exact Finset.mem_sdiff.mpr ⟨h.kept_subset hK hK' ha hb hne, h.notMem_of_ne hK' hb hne⟩
    calc ∑ x ∈ K'.erase a, w' x
        = ∑ x ∈ K'.erase a, w x :=
          Finset.sum_congr rfl fun b hb => h.others b (Finset.mem_sdiff.mp (hout b hb)).2
      _ ≤ _ := Finset.sum_le_sum_of_subset hout
  rw [← Finset.sum_inter_add_sum_sdiff K A w, ← Finset.add_sum_erase _ _ ha]
  calc (∑ x ∈ K ∩ A, w x) * (w' a + ∑ x ∈ K'.erase a, w' x)
      = w' a * ∑ x ∈ K ∩ A, w x + (∑ x ∈ K ∩ A, w x) * ∑ x ∈ K'.erase a, w' x := by ring
    _ ≤ w' a * ∑ x ∈ K ∩ A, w x + w' a * ∑ x ∈ K \ A, w x :=
        Nat.add_le_add_left (Nat.mul_le_mul hgroup hrest) _
    _ = w' a * (∑ x ∈ K ∩ A, w x + ∑ x ∈ K \ A, w x) := by ring

end Gathers

end P2Pearl
