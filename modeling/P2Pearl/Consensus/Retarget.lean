import P2Pearl.Consensus.TargetLimit

/-!
How the target limit follows the work-rate.

* `retargetTarget_mono`, `retargetTarget_anti`, `retargetTarget_bounds`: the retarget eases with the
  span, hardens with the work, and moves by at most one clamp step.
* `lookBackWindow`: the shares `expected_target` looks back at, newest first; `Harder`: a window
  with some of its shares replaced by ones of higher difficulty.
* `expected_target_bounded`: what follows for the target limit after any share of any sidechain.
* `RateShown`: timestamps that show a constant work-rate; `RateShown.span`: the time between the
  ends of a window is then the work that arrived in it.
* `rate_holds_iff`: the limit of that rate is held exactly where the retarget absorbs that it counts
  the oldest share in the place of the candidate; `rate_drifts`: a mix of difficulties moves it.
-/

namespace P2Pearl

variable {P : Params} {S S' : Shares}

/-! ### The retarget -/

section Retarget

variable {prev work work' : ℕ} {span span' : ℤ} (st : ℕ) {c : ℕ}

/-- A longer span eases the target. -/
lemma retargetTarget_mono (c : ℕ) (h : span ≤ span') :
    retargetTarget prev work span st c ≤ retargetTarget prev work span' st c := by
  rw [retargetTarget, retargetTarget]
  split_ifs
  · exact le_rfl
  · dsimp only
    refine max_le_max_left _ (min_le_min_left _ (Nat.div_le_div_left ?_ ?_))
    · refine max_le_max_left 1 (Nat.div_le_div_left ?_ (by omega))
      exact Int.toNat_le_toNat (max_le_max_left 1 h)
    · exact lt_max_of_lt_left Nat.one_pos

/-- More work hardens it. -/
lemma retargetTarget_anti (c : ℕ) (hwork : 0 < work) (h : work ≤ work') :
    retargetTarget prev work' span st c ≤ retargetTarget prev work span st c := by
  rw [retargetTarget, retargetTarget, if_neg (by omega), if_neg (by omega)]
  dsimp only
  refine max_le_max_left _ (min_le_min_left _ (Nat.div_le_div_left ?_ ?_))
  · exact max_le_max_left 1 (Nat.div_le_div_right (Nat.mul_le_mul_right st h))
  · exact lt_max_of_lt_left Nat.one_pos

/-- The two ends of a clamp step do not cross. -/
lemma clamp_le (hpos : 0 < prev) (hle : prev ≤ maxTarget) (hc : 0 < c) :
    max 1 (prev / c) ≤ min maxTarget (prev * c) := by
  have hdown : prev / c ≤ prev := Nat.div_le_self _ _
  have hup : prev ≤ prev * c := Nat.le_mul_of_pos_right _ hc
  exact max_le (le_min (by omega) (by omega)) (le_min (by omega) (by omega))

/-- The target moves by at most one clamp step. -/
lemma retargetTarget_bounds (hpos : 0 < prev) (hle : prev ≤ maxTarget) (hc : 0 < c)
    (hwork : 0 < work) :
    max 1 (prev / c) ≤ retargetTarget prev work span st c
      ∧ retargetTarget prev work span st c ≤ min maxTarget (prev * c) := by
  rw [retargetTarget, if_neg (by omega)]
  exact ⟨le_max_left _ _, max_le (clamp_le hpos hle hc) (min_le_left _ _)⟩

end Retarget

/-! ### The look-back -/

/-- The shares `expected_target` looks back at from a parent, newest first. -/
def lookBackWindow (P : Params) (S : Shares) (prev : Hash32) : Option (List ShareBlock) :=
  if prev = genesisPrev then none
  else (S prev).bind fun newest =>
    (lookBack S (P.retargetWindow - 1) newest.prevShareId).map (newest :: ·)

/-- The work `expected_target` counts in a window. -/
def work (w : List ShareBlock) : ℕ := (w.map ShareBlock.difficulty).sum

lemma difficulty_le_work {w : List ShareBlock} {s : ShareBlock} (h : s ∈ w) :
    s.difficulty ≤ work w := List.le_sum_of_mem (List.mem_map_of_mem h)

lemma work_cons_pos (s : ShareBlock) (l : List ShareBlock) : 0 < work (s :: l) :=
  s.difficulty_pos.trans_le (difficulty_le_work List.mem_cons_self)

/-- A parent with a derivable target has a window, and the target is a retarget over it. -/
lemma window_of_expectedTarget {prev : Hash32} (hne : prev ≠ genesisPrev)
    {timestamp : Option ℕ} {limit : ℕ} (h : expectedTarget P S prev timestamp = some limit) :
    ∃ newest older, S prev = some newest ∧ lookBackWindow P S prev = some (newest :: older)
      ∧ retargetOver P newest older timestamp = limit := by
  rw [expectedTarget, if_neg hne] at h
  cases hs : S prev with
  | none => rw [hs] at h; cases h
  | some newest =>
      rw [hs] at h
      obtain ⟨older, holder, hlimit⟩ := Option.map_eq_some_iff.mp h
      refine ⟨newest, older, rfl, ?_, hlimit⟩
      rw [lookBackWindow, if_neg hne, hs, Option.bind_some, holder]
      rfl

/-- A parent with a window has a derivable target. -/
lemma expectedTarget_of_window {prev : Hash32} {w : List ShareBlock}
    (h : lookBackWindow P S prev = some w) : ∃ newest older, w = newest :: older
      ∧ S prev = some newest
      ∧ ∀ timestamp, expectedTarget P S prev timestamp
          = some (retargetOver P newest older timestamp) := by
  rw [lookBackWindow] at h
  split_ifs at h with hne
  obtain ⟨newest, hs, h⟩ := Option.bind_eq_some_iff.mp h
  obtain ⟨older, holder, rfl⟩ := Option.map_eq_some_iff.mp h
  refine ⟨newest, older, rfl, hs, fun timestamp => ?_⟩
  rw [expectedTarget, if_neg hne, hs]
  simp only [holder, Option.map_some]

/-- The limit stays within one clamp step of the limit of the parent. -/
lemma retargetOver_bounds (P : Params) (newest : ShareBlock) (older : List ShareBlock)
    (timestamp : Option ℕ) :
    max 1 (newest.targetLimit / retargetClamp) ≤ retargetOver P newest older timestamp
      ∧ retargetOver P newest older timestamp
        ≤ min maxTarget (newest.targetLimit * retargetClamp) := by
  have hpos := newest.targetLimit_pos
  have hle := newest.targetLimit_le
  have hc : 0 < retargetClamp := by norm_num [retargetClamp]
  cases timestamp with
  | some t => exact retargetTarget_bounds _ hpos hle hc (work_cons_pos newest older)
  | none =>
      rw [retargetOver]
      split_ifs with hlen
      · exact ⟨max_le hpos (Nat.div_le_self _ _),
          le_min hle (Nat.le_mul_of_pos_right _ hc)⟩
      · cases older with
        | nil => exact absurd hlen (by simp)
        | cons second rest => exact retargetTarget_bounds _ hpos hle hc (work_cons_pos newest _)

/-! ### Harder windows -/

/-- The window with some of its shares replaced by ones of higher difficulty. -/
structure Harder (w w' : List ShareBlock) : Prop where
  difficulty : List.Forall₂ (fun s s' => s.difficulty ≤ s'.difficulty) w w'
  newest : w'.head?.map (fun s => s.targetLimit) = w.head?.map fun s => s.targetLimit
  oldest : w'.getLast?.map (fun s => s.timestamp) = w.getLast?.map fun s => s.timestamp

lemma Harder.work_le {w w' : List ShareBlock} (h : Harder w w') : work w ≤ work w' := by
  have hmap : List.Forall₂ (· ≤ ·) (w.map ShareBlock.difficulty)
      (w'.map ShareBlock.difficulty) := by
    rw [List.forall₂_map_left_iff, List.forall₂_map_right_iff]
    exact h.difficulty
  exact hmap.sum_le_sum

/-- A harder window hardens the target. -/
lemma Harder.retargetOver_le {newest newest' : ShareBlock} {older older' : List ShareBlock}
    (h : Harder (newest :: older) (newest' :: older')) (t : ℕ) :
    retargetOver P newest' older' (some t) ≤ retargetOver P newest older (some t) := by
  have hlimit : newest'.targetLimit = newest.targetLimit := Option.some.inj h.newest
  have hlast := h.oldest
  rw [List.getLast?_eq_getLast_of_ne_nil (List.cons_ne_nil _ _),
    List.getLast?_eq_getLast_of_ne_nil (List.cons_ne_nil _ _), Option.map_some,
    Option.map_some, Option.some.injEq] at hlast
  rw [retargetOver, retargetOver, hlimit, hlast]
  exact retargetTarget_anti _ _ (work_cons_pos newest older) h.work_le

lemma Harder.expectedTarget_le {prev prev' : Hash32} {w w' : List ShareBlock}
    (h : Harder w w') (hw : lookBackWindow P S prev = some w)
    (hw' : lookBackWindow P S' prev' = some w') {t limit : ℕ}
    (ht : expectedTarget P S prev (some t) = some limit) :
    ∃ limit', expectedTarget P S' prev' (some t) = some limit' ∧ limit' ≤ limit := by
  obtain ⟨newest, older, rfl, -, hlimit⟩ := expectedTarget_of_window hw
  obtain ⟨newest', older', rfl, -, hlimit'⟩ := expectedTarget_of_window hw'
  obtain rfl := Option.some.inj ((hlimit (some t)).symm.trans ht)
  exact ⟨_, hlimit' (some t), h.retargetOver_le t⟩

/-! ### A replaced share -/

section Replace

variable {s s' : ShareBlock}

/-- What stands in a window where `s'` took the place of `s`. -/
def Replaced (s s' a b : ShareBlock) : Prop := b = a ∨ a = s ∧ b = s'

/-- Replacing a share by one with the same predecessor leaves the look-back as long. -/
lemma lookBack_update {j : Hash32} (hs : S j = some s) (hprev : s'.prevShareId = s.prevShareId)
    {n : ℕ} {cur : Hash32} {l : List ShareBlock} (h : lookBack S n cur = some l) :
    ∃ l', lookBack (Function.update S j (some s')) n cur = some l'
      ∧ List.Forall₂ (Replaced s s') l l' := by
  induction n generalizing cur l with
  | zero => cases h; exact ⟨[], rfl, .nil⟩
  | succ n ih =>
      rw [lookBack] at h ⊢
      split_ifs at h ⊢ with hg
      · cases h; exact ⟨[], rfl, .nil⟩
      · cases ha : S cur with
        | none => rw [ha] at h; cases h
        | some a =>
            rw [ha] at h
            obtain ⟨older, holder, rfl⟩ := Option.map_eq_some_iff.mp h
            obtain ⟨older', holder', hall⟩ := ih holder
            by_cases hj : cur = j
            · obtain rfl : a = s := Option.some.inj ((hj ▸ ha).symm.trans hs)
              rw [hj, Function.update_self]
              exact ⟨s' :: older', by simp only [hprev, holder', Option.map_some],
                .cons (.inr ⟨rfl, rfl⟩) hall⟩
            · rw [Function.update_of_ne hj, ha]
              exact ⟨a :: older', by simp only [holder', Option.map_some],
                .cons (.inl rfl) hall⟩

lemma lookBackWindow_update {j : Hash32} (hs : S j = some s)
    (hprev : s'.prevShareId = s.prevShareId) {prev : Hash32} {w : List ShareBlock}
    (h : lookBackWindow P S prev = some w) :
    ∃ w', lookBackWindow P (Function.update S j (some s')) prev = some w'
      ∧ List.Forall₂ (Replaced s s') w w' := by
  rw [lookBackWindow] at h ⊢
  split_ifs at h ⊢ with hne
  obtain ⟨newest, ha, h⟩ := Option.bind_eq_some_iff.mp h
  obtain ⟨older, holder, rfl⟩ := Option.map_eq_some_iff.mp h
  obtain ⟨older', holder', hall⟩ := lookBack_update hs hprev holder
  by_cases hj : prev = j
  · obtain rfl : newest = s := Option.some.inj ((hj ▸ ha).symm.trans hs)
    rw [hj, Function.update_self]
    exact ⟨s' :: older', by simp only [Option.bind_some, hprev, holder', Option.map_some],
      .cons (.inr ⟨rfl, rfl⟩) hall⟩
  · rw [Function.update_of_ne hj, ha]
    exact ⟨newest :: older', by simp only [Option.bind_some, holder', Option.map_some],
      .cons (.inl rfl) hall⟩

/-- What every replacement keeps is kept along the window. -/
lemma map_eq_of_replaced {α : Type*} (f : ShareBlock → α) (hf : f s' = f s)
    {w w' : List ShareBlock} (h : List.Forall₂ (Replaced s s') w w') : w'.map f = w.map f := by
  have hmap : List.Forall₂ Eq (w.map f) (w'.map f) := by
    rw [List.forall₂_map_left_iff, List.forall₂_map_right_iff]
    refine h.imp fun a b hab => ?_
    rcases hab with rfl | ⟨rfl, rfl⟩
    · rfl
    · exact hf.symm
  rw [List.forall₂_eq_eq_eq] at hmap
  exact hmap.symm

/-- A share of higher difficulty in the place of another makes the window harder. -/
lemma harder_of_replaced (hlimit : s'.targetLimit = s.targetLimit)
    (htime : s'.timestamp = s.timestamp) (hd : s.difficulty ≤ s'.difficulty)
    {w w' : List ShareBlock} (h : List.Forall₂ (Replaced s s') w w') : Harder w w' where
  difficulty := h.imp fun a b hab => by
    rcases hab with rfl | ⟨rfl, rfl⟩
    · exact le_rfl
    · exact hd
  newest := by
    rw [← List.head?_map, ← List.head?_map]
    exact congrArg List.head? (map_eq_of_replaced (fun s => s.targetLimit) hlimit h)
  oldest := by
    rw [← List.getLast?_map, ← List.getLast?_map]
    exact congrArg List.getLast? (map_eq_of_replaced (fun s => s.timestamp) htime h)

end Replace

/-- A limit in range is one the constructor accepts. -/
lemma init_of_targetLimit {limit : ℕ} (hle : limit ≤ maxTarget) {d : ShareData}
    (hd : d.targetLimit = limit) (hpos : 0 < d.shareTarget) (htarget : d.shareTarget ≤ limit) :
    ∃ share, ShareBlock.init d = .ok share := by
  subst hd
  exact ⟨⟨d, hpos, htarget, hle⟩, ShareBlock.init_eq_ok_iff.mpr rfl⟩

/-- **The retarget is monotone and bounded along every chain.**  After any share of any reachable
sidechain the limit eases with the timestamp of the candidate; hardens when shares of the look-back
window have higher difficulty, in another store as well as in place; and stays within one clamp
step of the limit of the parent, in the range the constructor of a share accepts. -/
theorem expected_target_bounded (P : Params) (calls : List Call) {p : Hash32}
    {parent : ShareBlock} (hne : p ≠ genesisPrev)
    (hp : (run P calls).chain.entries.get p = some parent) {t limit : ℕ}
    (ht : expectedTarget P (run P calls).chain.entries.get p (some t) = some limit) :
    (∀ t', t ≤ t' → ∃ limit',
        expectedTarget P (run P calls).chain.entries.get p (some t') = some limit'
          ∧ limit ≤ limit')
      ∧ (∀ w, lookBackWindow P (run P calls).chain.entries.get p = some w →
          ∀ S' p' w', lookBackWindow P S' p' = some w' → Harder w w' →
            ∃ limit', expectedTarget P S' p' (some t) = some limit' ∧ limit' ≤ limit)
      ∧ (∀ j s s', (run P calls).chain.entries.get j = some s →
          s'.prevShareId = s.prevShareId → s'.timestamp = s.timestamp →
          s'.targetLimit = s.targetLimit → s.difficulty ≤ s'.difficulty →
            ∃ limit', expectedTarget P
                (Function.update (run P calls).chain.entries.get j (some s')) p (some t)
                = some limit' ∧ limit' ≤ limit)
      ∧ ∀ timestamp bound,
          expectedTarget P (run P calls).chain.entries.get p timestamp = some bound →
          max 1 (parent.targetLimit / retargetClamp) ≤ bound
            ∧ bound ≤ min maxTarget (parent.targetLimit * retargetClamp)
            ∧ ∀ d : ShareData, d.targetLimit = bound → 0 < d.shareTarget →
                d.shareTarget ≤ bound → ∃ share, ShareBlock.init d = .ok share := by
  obtain ⟨newest, older, hnewest, hw, rfl⟩ := window_of_expectedTarget hne ht
  obtain rfl := Option.some.inj (hp.symm.trans hnewest)
  have hall : ∀ timestamp, expectedTarget P (run P calls).chain.entries.get p timestamp
      = some (retargetOver P parent older timestamp) := by
    obtain ⟨_, _, heq, -, hall⟩ := expectedTarget_of_window hw
    obtain ⟨rfl, rfl⟩ := List.cons_eq_cons.mp heq
    exact hall
  refine ⟨fun t' htt => ⟨_, hall (some t'), ?_⟩, fun w hw' S' p' w' hw'' hharder => ?_,
    fun j s s' hs hprev htime hlimit hd => ?_, fun timestamp bound hbound => ?_⟩
  · exact retargetTarget_mono _ _ (sub_le_sub_right (Int.ofNat_le.mpr htt) _)
  · exact hharder.expectedTarget_le hw' hw'' ht
  · obtain ⟨w', hw', hrep⟩ := lookBackWindow_update hs hprev hw
    exact (harder_of_replaced hlimit htime hd hrep).expectedTarget_le hw hw' ht
  · obtain rfl := Option.some.inj ((hall timestamp).symm.trans hbound)
    have hbounds := retargetOver_bounds P parent older timestamp
    exact ⟨hbounds.1, hbounds.2, fun d hd hpos hle =>
      init_of_targetLimit (hbounds.2.trans (min_le_left _ _)) hd hpos hle⟩

/-- A short sidechain of two shares at the pace it aims at. -/
def pacedPair : List Call := [verifiedCall (pacedChain 0), verifiedCall (pacedChain 1)]

/-- The third share of a chain at the pace it aims at gets the limit of the second; one that comes
later no smaller limit. -/
theorem expected_target_bounded_paced : ∃ limit',
    expectedTarget shortParams (run shortParams pacedPair).chain.entries.get
      (doubleSha256 (pacedChain 1).wire) (some 30) = some limit' ∧ maxTarget / 2 ≤ limit' := by
  have hrun : doubleSha256 (pacedChain 1).wire ≠ genesisPrev
      ∧ (run shortParams pacedPair).chain.entries.get (doubleSha256 (pacedChain 1).wire)
        = some (pacedChain 1)
      ∧ expectedTarget shortParams (run shortParams pacedPair).chain.entries.get
          (doubleSha256 (pacedChain 1).wire) (some 20) = some (maxTarget / 2) := by
    decide +kernel
  exact (expected_target_bounded shortParams pacedPair hrun.1 hrun.2.1 hrun.2.2).1 30 (by decide)

/-! ### A constant work-rate -/

/-- The timestamps of the shares, newest first, show the work-rate `D` per `share_time`. -/
def RateShown (P : Params) (D : ℕ) (l : List ShareBlock) : Prop :=
  l.IsChain fun later earlier =>
    ((later.timestamp : ℤ) - earlier.timestamp) * D = later.difficulty * P.shareTime

/-- The time between the ends is the work that arrived in it, at the rate. -/
lemma RateShown.span {D : ℕ} {a : ShareBlock} {l : List ShareBlock}
    (h : RateShown P D (a :: l)) :
    ((a.timestamp : ℤ) - ((a :: l).getLast (List.cons_ne_nil _ _)).timestamp) * D
      = work (a :: l).dropLast * P.shareTime := by
  induction l generalizing a with
  | nil => simp [work]
  | cons b l ih =>
      obtain ⟨hstep, hrest⟩ := List.isChain_cons_cons.mp h
      have hspan := ih hrest
      rw [List.getLast_cons (List.cons_ne_nil _ _), List.dropLast_cons_cons, work, List.map_cons,
        List.sum_cons]
      rw [work] at hspan
      push_cast at hspan ⊢
      linear_combination hstep + hspan

/-- The clamps let exactly the limit through where they do not meet it. -/
lemma clamp_eq_iff {L x : ℕ} (hpos : 0 < L) (hle : L ≤ maxTarget) :
    max (max 1 (L / retargetClamp)) (min (min maxTarget (L * retargetClamp)) x) = L
      ↔ (L ≠ 1 → L ≤ x) ∧ (L ≠ maxTarget → x ≤ L) := by
  rw [retargetClamp]
  generalize maxTarget = M at hle ⊢
  omega

/-- A target reaches the limit exactly for a difficulty up to that of the limit. -/
lemma le_div_max_iff {M L q : ℕ} (hpos : 0 < L) (hle : L ≤ M) :
    L ≤ M / max 1 q ↔ q < M / L + 1 := by
  have hone : 1 ≤ M / L := (Nat.one_le_div_iff hpos).mpr hle
  rw [Nat.le_div_iff_mul_le (lt_max_of_lt_left Nat.one_pos), Nat.mul_comm,
    ← Nat.le_div_iff_mul_le hpos, max_le_iff, Nat.lt_succ_iff]
  exact and_iff_right hone

/-- It stays below the limit exactly for a difficulty above that of the next target. -/
lemma div_max_le_iff {M L q : ℕ} (hlt : L < M) :
    M / max 1 q ≤ L ↔ M / (L + 1) + 1 ≤ q := by
  have hpos : 0 < L + 1 := L.succ_pos
  have hone : 1 ≤ M / (L + 1) := (Nat.one_le_div_iff hpos).mpr hlt
  rw [← Nat.lt_succ_iff, Nat.div_lt_iff_lt_mul (lt_max_of_lt_left Nat.one_pos), Nat.mul_comm,
    ← Nat.div_lt_iff_lt_mul hpos, lt_max_iff, Nat.succ_le_iff]
  exact or_iff_right (by omega)

/-- The retarget keeps the limit `MAX_TARGET // D` where it counts the work `counted` although
`arrived` arrived: the difference is lost in the floor divisions or stopped by an end of the
range. -/
def Absorbed (P : Params) (D counted arrived : ℕ) : Prop :=
  let limit := maxTarget / D
  if P.shareTime = 0 then limit = maxTarget
  else
    (limit ≠ 1 → counted * D < (maxTarget / limit + 1) * arrived)
      ∧ (limit ≠ maxTarget → (maxTarget / (limit + 1) + 1) * arrived ≤ counted * D)

/-- The retarget at a constant work-rate keeps the limit exactly where it absorbs the difference. -/
lemma retargetTarget_eq_iff {D counted arrived : ℕ} {span : ℤ} (hpos : 0 < maxTarget / D)
    (hcounted : 0 < counted) (harrived : 0 < arrived)
    (hspan : span * D = arrived * P.shareTime) :
    retargetTarget (maxTarget / D) counted span P.shareTime retargetClamp = maxTarget / D
      ↔ Absorbed P D counted arrived := by
  have hle : maxTarget / D ≤ maxTarget := Nat.div_le_self _ _
  have hD : 0 < D := Nat.pos_of_ne_zero fun h => by rw [h, Nat.div_zero] at hpos; omega
  rw [retargetTarget, if_neg (by omega), Absorbed]
  dsimp only
  rw [clamp_eq_iff hpos hle]
  by_cases hst : P.shareTime = 0
  · rw [if_pos hst, hst, Nat.mul_zero, Nat.zero_div, Nat.max_zero, Nat.div_one]
    exact ⟨fun h => by by_contra hne; exact absurd (h.2 hne) (by omega),
      fun h => ⟨fun _ => hle, fun hne => absurd h hne⟩⟩
  · have hst' : 0 < P.shareTime := Nat.pos_of_ne_zero hst
    have hspan_pos : 0 < span := by
      refine pos_of_mul_pos_left (b := (D : ℤ)) ?_ (Int.natCast_nonneg D)
      rw [hspan]
      exact_mod_cast Nat.mul_pos harrived hst'
    obtain ⟨n, rfl⟩ := Int.eq_ofNat_of_zero_le hspan_pos.le
    have hn : n * D = arrived * P.shareTime := by exact_mod_cast hspan
    have hquot : counted * P.shareTime / (max 1 (n : ℤ)).toNat = counted * D / arrived := by
      rw [max_eq_right (by omega), Int.toNat_natCast,
        ← Nat.mul_div_mul_right _ n hD, hn, Nat.mul_right_comm, Nat.mul_div_mul_right _ _ hst']
    rw [if_neg hst, hquot, le_div_max_iff hpos hle, Nat.div_lt_iff_lt_mul harrived]
    refine and_congr_right fun _ => imp_congr_right fun hne => ?_
    rw [div_max_le_iff (by omega), Nat.le_div_iff_mul_le harrived]

/-- Counting the work that arrived is absorbed. -/
lemma absorbed_self {D arrived : ℕ} (hst : P.shareTime ≠ 0) (hpos : 0 < maxTarget / D)
    (harrived : 0 < arrived) : Absorbed P D arrived arrived := by
  rw [Absorbed, if_neg hst]
  have hD : 0 < D := Nat.pos_of_ne_zero fun h => by rw [h, Nat.div_zero] at hpos; omega
  have hle : D ≤ maxTarget / (maxTarget / D) :=
    (Nat.le_div_iff_mul_le hpos).mpr (Nat.mul_div_le _ _)
  have hlt : maxTarget / (maxTarget / D + 1) < D :=
    (Nat.div_lt_iff_lt_mul (Nat.succ_pos _)).mpr (Nat.lt_mul_div_succ _ hD)
  refine ⟨fun _ => ?_, fun _ => ?_⟩
  · rw [Nat.mul_comm]
    exact Nat.mul_lt_mul_of_pos_right (by omega) harrived
  · rw [Nat.mul_comm arrived]
    exact Nat.mul_le_mul_right _ hlt

/-- Up to a difficulty of about the square root of the range, the limit and the next target have
the difficulties `D` and `D - 1`. -/
lemma div_limit {M D : ℕ} (hD : 1 < D) (hM : D * (D + 1) ≤ M) :
    M / (M / D) = D ∧ M / (M / D + 1) = D - 1 := by
  have hdiv : D * (M / D) + M % D = M := Nat.div_add_mod M D
  have hmod : M % D < D := Nat.mod_lt _ (by omega)
  have hlarge : D + 1 ≤ M / D := (Nat.le_div_iff_mul_le (by omega)).mpr (by linarith)
  constructor
  · refine Nat.div_eq_of_lt_le (by omega) ?_
    rw [Nat.succ_mul]
    omega
  · obtain ⟨k, rfl⟩ : ∃ k, D = k + 1 := ⟨D - 1, by omega⟩
    rw [Nat.add_sub_cancel]
    refine Nat.div_eq_of_lt_le ?_ ?_
    · rw [Nat.mul_add, Nat.mul_one]
      rw [Nat.add_mul, Nat.one_mul] at hdiv
      omega
    · rw [Nat.mul_add, Nat.mul_one]
      omega

/-- In that range the work counted may exceed the work that arrived by less than one part in
`D`, and may not fall short of it. -/
lemma absorbed_iff {D counted arrived : ℕ} (hst : P.shareTime ≠ 0) (hD : 1 < D)
    (hM : D * (D + 1) ≤ maxTarget) :
    Absorbed P D counted arrived ↔ arrived ≤ counted ∧ (counted - arrived) * D < arrived := by
  have hlarge : D + 1 ≤ maxTarget / D := (Nat.le_div_iff_mul_le (by omega)).mpr (by linarith)
  have hsmall : maxTarget / D < maxTarget :=
    Nat.div_lt_self (lt_of_lt_of_le (by positivity) hM) hD
  obtain ⟨hlimit, hnext⟩ := div_limit hD hM
  rw [Absorbed, if_neg hst, hlimit, hnext, imp_iff_right (by omega), imp_iff_right (by omega),
    Nat.sub_add_cancel hD.le, Nat.mul_comm D arrived]
  constructor
  · rintro ⟨hlt, hle⟩
    have hcounted : arrived ≤ counted := Nat.le_of_mul_le_mul_right hle (by omega)
    refine ⟨hcounted, ?_⟩
    rw [Nat.sub_mul]
    rw [Nat.add_mul, Nat.one_mul, Nat.mul_comm D] at hlt
    omega
  · rintro ⟨hcounted, hlt⟩
    have hle := Nat.mul_le_mul_right D hcounted
    rw [Nat.sub_mul] at hlt
    rw [Nat.add_mul, Nat.one_mul, Nat.mul_comm D]
    omega

/-- The work that arrived between the oldest share of the window and the candidate. -/
def arrivedWork (candidate : ShareBlock) (w : List ShareBlock) : ℕ :=
  work (candidate :: w).dropLast

/-- The retarget counts the oldest share where the candidate arrived. -/
lemma counted_add (candidate : ShareBlock) {w : List ShareBlock} {oldest : ShareBlock}
    (h : w.getLast? = some oldest) :
    work w + candidate.difficulty = arrivedWork candidate w + oldest.difficulty := by
  obtain ⟨init, rfl⟩ := List.getLast?_eq_some_iff.mp h
  rw [arrivedWork, ← List.cons_append, List.dropLast_concat, work, work, List.map_append,
    List.sum_append, List.map_cons, List.sum_cons]
  simp only [List.map_cons, List.map_nil, List.sum_cons, List.sum_nil]
  omega

/-- **Where a constant work-rate holds the target.**  The limit is kept exactly where the retarget
absorbs that it counts the oldest share in the place of the candidate: up to a difficulty of about
the square root of the range, where the candidate is no harder than the oldest share, and easier
by less than one part in `D` of the work that arrived. -/
theorem rate_holds_iff (P : Params) (S : Shares) {p : Hash32} {D : ℕ}
    {newest oldest candidate : ShareBlock} {w : List ShareBlock}
    (hw : lookBackWindow P S p = some w) (hnewest : w.head? = some newest)
    (holdest : w.getLast? = some oldest) (hlimit : newest.targetLimit = maxTarget / D)
    (hrate : RateShown P D (candidate :: w)) :
    (expectedTarget P S p (some candidate.timestamp) = some (maxTarget / D)
        ↔ Absorbed P D (work w) (arrivedWork candidate w))
      ∧ (P.shareTime ≠ 0 → 1 < D → D * (D + 1) ≤ maxTarget →
          (Absorbed P D (work w) (arrivedWork candidate w)
            ↔ candidate.difficulty ≤ oldest.difficulty
              ∧ (oldest.difficulty - candidate.difficulty) * D < arrivedWork candidate w))
      ∧ (P.shareTime ≠ 0 → candidate.difficulty = oldest.difficulty →
          Absorbed P D (work w) (arrivedWork candidate w)) := by
  obtain ⟨_, older, rfl, -, hall⟩ := expectedTarget_of_window hw
  cases hnewest
  have hpos : 0 < maxTarget / D := hlimit ▸ newest.targetLimit_pos
  have hcount := counted_add candidate holdest
  have harrived : 0 < arrivedWork candidate (newest :: older) := by
    rw [arrivedWork, List.dropLast_cons_cons]
    exact work_cons_pos candidate _
  refine ⟨?_, fun hst hD hM => ?_, fun hst heq => ?_⟩
  · have hspan := hrate.span
    rw [List.getLast_cons (List.cons_ne_nil _ _)] at hspan
    rw [hall, Option.some.injEq,
      ← retargetTarget_eq_iff hpos (work_cons_pos newest older) harrived hspan, ← hlimit]
    exact Iff.rfl
  · rw [absorbed_iff hst hD hM]
    have hdiff : work (newest :: older) - arrivedWork candidate (newest :: older)
        = oldest.difficulty - candidate.difficulty := by omega
    rw [hdiff]
    exact and_congr_left fun _ => by omega
  · rw [show work (newest :: older) = arrivedWork candidate (newest :: older) by omega]
    exact absorbed_self hst hpos harrived

/-- A share of some difficulty, with a limit of difficulty two. -/
def mixedShare (height : ℕ) (prevShareId : Hash32) (timestamp difficulty : ℕ)
    (htwo : 2 ≤ difficulty) (hpos : 0 < maxTarget / difficulty) : ShareBlock :=
  { pacedShare height prevShareId (maxTarget / 2) half_maxTarget_pos half_maxTarget_le with
    timestamp := timestamp
    shareTarget := maxTarget / difficulty
    shareTarget_pos := hpos
    shareTarget_le := Nat.div_le_div_left htwo Nat.two_pos }

/-- Three shares of the difficulties four, three and two, at a work-rate of two per `share_time`. -/
def mixedFirst : ShareBlock := mixedShare 0 genesisPrev 0 4 (by decide) (by decide)

/-- The second of them. -/
def mixedSecond : ShareBlock :=
  mixedShare 1 (doubleSha256 mixedFirst.wire) 15 3 (by decide) (by decide)

/-- The third of them. -/
def mixedThird : ShareBlock :=
  mixedShare 2 (doubleSha256 mixedSecond.wire) 25 2 le_rfl half_maxTarget_pos

/-- The limit holds over a window of two difficulties for a candidate of a third. -/
theorem rate_holds_iff_mixed :
    let S := (run shortParams [verifiedCall mixedFirst, verifiedCall mixedSecond]).chain.entries.get
    expectedTarget shortParams S (doubleSha256 mixedSecond.wire) (some mixedThird.timestamp)
      = some (maxTarget / 2) := by
  intro S
  have hw : lookBackWindow shortParams S (doubleSha256 mixedSecond.wire)
      = some [mixedSecond, mixedFirst] := by decide +kernel
  have hrate : RateShown shortParams 2 [mixedThird, mixedSecond, mixedFirst] :=
    List.isChain_cons_cons.mpr ⟨by decide +kernel, List.isChain_pair.mpr (by decide +kernel)⟩
  obtain ⟨hholds, hmixed, -⟩ := rate_holds_iff shortParams S hw rfl rfl rfl hrate
  exact hholds.mpr ((hmixed (by decide) (by decide) (by decide)).mpr
    ⟨by decide +kernel, by decide +kernel⟩)

/-- The first share of a sidechain, mined at twice the difficulty of its limit. -/
def hardShare : ShareBlock :=
  { genesisShare 0 0 [] genesisPrev with
    shareTarget := maxTarget / 2 ^ 51
    shareTarget_pos := by decide +kernel
    shareTarget_le := by decide +kernel }

/-- A candidate one `share_time` behind it, at the difficulty of the limit. -/
def paceCandidate : ShareBlock := { genesisShare 0 0 [] genesisPrev with timestamp := 10 }

/-- The first share has twice the difficulty of its limit, the candidate that of the limit: the
limit halves although the work-rate is constant. -/
theorem rate_drifts : ¬∀ (P : Params) (calls : List Call) (p : Hash32) (D : ℕ)
    (newest candidate : ShareBlock) (w : List ShareBlock), 1 ≤ D →
    lookBackWindow P (run P calls).chain.entries.get p = some w → w.head? = some newest →
    newest.targetLimit = maxTarget / D → RateShown P D (candidate :: w) →
    expectedTarget P (run P calls).chain.entries.get p (some candidate.timestamp)
      = some (maxTarget / D) := by
  intro h
  have hrun : lookBackWindow {} (run {} [⟨hardShare, true, none, 0⟩]).chain.entries.get
        (doubleSha256 hardShare.wire) = some [hardShare]
      ∧ expectedTarget {} (run {} [⟨hardShare, true, none, 0⟩]).chain.entries.get
          (doubleSha256 hardShare.wire) (some 10) = some (maxTarget / 2 ^ 51) := by
    decide +kernel
  have hheld := h {} [⟨hardShare, true, none, 0⟩] (doubleSha256 hardShare.wire) (2 ^ 50)
    hardShare paceCandidate [hardShare] (by norm_num) hrun.1 rfl rfl
    (List.isChain_pair.mpr (by decide +kernel))
  rw [show paceCandidate.timestamp = 10 from rfl, hrun.2] at hheld
  exact absurd hheld (by decide +kernel)

end P2Pearl
