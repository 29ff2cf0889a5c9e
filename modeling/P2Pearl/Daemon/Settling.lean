import P2Pearl.Daemon.Vardiff
import Mathlib.Data.Nat.Log

/-!
The variable difficulty settles: a worker that mines at a steady rate gets its factor moved in one
direction only, a bounded number of times.

* `VardiffState.Steady`: at every factor the measured intervals are in proportion to it, up to a
  quarter.
* `VardiffState.Centred`: the average is in proportion to the factor too, in spite of the rounding.
* `VardiffState.Climbs`, `VardiffState.Descends`: the sides of the target a factor can be on.  A
  share keeps the side, and on a side the factor moves one way only.
* `vardiff_settles`: of all the shares of a steady worker, among those of any others, at most as
  many change its factor as the maximal factor has bits.
-/

namespace P2Pearl

namespace VardiffState

/-! ### Steady workers -/

/-- At a factor `f`, every measured interval is from `a * f` to a quarter above. -/
def Steady (round : ℚ → ℚ) (maxFactor : ℕ+) (hi a : ℚ) : VardiffState → List ℚ → Prop
  | _, [] => True
  | s, now :: times =>
      (∀ last, s.lastShareAt = some last →
        a * s.factor ≤ interval round last now
          ∧ interval round last now ≤ 5 / 4 * (a * s.factor)
          ∧ interval round last now ≤ hi / 4)
      ∧ Steady round maxFactor hi a (s.share round maxFactor now).2 times

/-- The average is in proportion to the factor, with a slack for the rounding. -/
def Centred (a : ℚ) (s : VardiffState) : Prop :=
  ∀ ewma, s.ewmaInterval = some ewma →
    (1 - 1 / 50) * (a * s.factor) ≤ ewma ∧ ewma ≤ (1 + 1 / 50) * (5 / 4 * (a * s.factor))

/-- The factor is too small to be halved. -/
def Climbs (a : ℚ) (s : VardiffState) : Prop := (1 - 1 / 50) * (a * s.factor) < 60

/-- The factor is too large to be doubled. -/
def Descends (a : ℚ) (s : VardiffState) : Prop := 30 ≤ (1 - 1 / 50) * (a * s.factor)

/-- The number of shares that are answered with a change of the factor. -/
def changes (round : ℚ → ℚ) (maxFactor : ℕ+) : VardiffState → List ℚ → ℕ
  | _, [] => 0
  | s, now :: times =>
      (s.share round maxFactor now).1.toNat
        + changes round maxFactor (s.share round maxFactor now).2 times

variable {round : ℚ → ℚ} {maxFactor : ℕ+} {hi a now last : ℚ} {s : VardiffState} {times : List ℚ}

lemma centred_of_none (h : s.ewmaInterval = none) : Centred a s := by
  intro ewma hewma
  rw [h] at hewma
  cases hewma

lemma climbs_or_descends (a : ℚ) (s : VardiffState) : Climbs a s ∨ Descends a s := by
  rw [Climbs, Descends]
  rcases lt_or_ge ((1 - 1 / 50) * (a * s.factor)) 60 with h | h
  · exact .inl h
  · exact .inr (by linarith)

/-- No interval is shorter than a millisecond, as it is rounded. -/
lemma le_interval (hround : Accurate (1 / 1000) (1 / 10000) hi round) (hhi : 1 ≤ hi) :
    (1 - 1 / 1000) * (1 / 1000) ≤ interval round last now :=
  (hround.le_round (by norm_num) (by linarith)).trans (le_max_left _ _)

/-- An average that is in proportion to the factor stays so. -/
lemma average_mem (hround : Accurate (1 / 1000) (1 / 10000) hi round) (hhi : 1 ≤ hi)
    (hs : Centred a s) (hlow : a * s.factor ≤ interval round last now)
    (hhigh : interval round last now ≤ 5 / 4 * (a * s.factor))
    (hbound : interval round last now ≤ hi / 4) :
    (1 - 1 / 50) * (a * s.factor) ≤ s.average round (interval round last now)
      ∧ s.average round (interval round last now)
        ≤ (1 + 1 / 50) * (5 / 4 * (a * s.factor)) := by
  have hms : (1 - 1 / 1000) * (1 / 1000) ≤ interval round last now := le_interval hround hhi
  rw [average]
  split
  · constructor <;> linarith
  · rename_i ewma hewma
    obtain ⟨hle, hge⟩ := hs ewma hewma
    exact hround.smooth_mem_slack (by norm_num) (by norm_num) (by norm_num) (by linarith)
      (by norm_num) (by norm_num) (by linarith) (by norm_num) (by linarith) (by norm_num)
      (by norm_num) (by norm_num) (by linarith) (by linarith) (by linarith) hle hge hlow hhigh

/-- What a share of a steady worker does: the factor is tuned to an average in proportion to it. -/
lemma share_of_steady (hround : Accurate (1 / 1000) (1 / 10000) hi round) (hhi : 1 ≤ hi)
    (hs : Centred a s) (hsteady : Steady round maxFactor hi a s (now :: times)) :
    Centred a (s.share round maxFactor now).2
      ∧ ((s.share round maxFactor now).2.factor = s.factor
        ∨ ∃ ewma, (s.share round maxFactor now).2.factor = retune maxFactor s.factor ewma
          ∧ (1 - 1 / 50) * (a * s.factor) ≤ ewma
          ∧ ewma ≤ (1 + 1 / 50) * (5 / 4 * (a * s.factor))) := by
  cases hlast : s.lastShareAt with
  | none =>
      rw [share_of_first hlast]
      exact ⟨hs, .inl rfl⟩
  | some last =>
      obtain ⟨hlow, hhigh, hbound⟩ := hsteady.1 last hlast
      have hmem := average_mem hround hhi hs hlow hhigh hbound
      by_cases hkept : retune maxFactor s.factor (s.average round (interval round last now))
          = s.factor
      · rw [share_of_kept hlast hkept]
        refine ⟨fun ewma hewma => ?_, .inl rfl⟩
        exact (Option.some.inj hewma) ▸ hmem
      · rw [share_of_changed hlast hkept]
        exact ⟨centred_of_none rfl, .inr ⟨_, rfl, hmem⟩⟩

/-! ### The two sides -/

/-- Below twice the target a factor is kept or doubled, and stays there. -/
lemma retune_of_climbs {ewma : ℚ} (ha : 0 < a) (hs : Climbs a s)
    (hlow : (1 - 1 / 50) * (a * s.factor) ≤ ewma)
    (hhigh : ewma ≤ (1 + 1 / 50) * (5 / 4 * (a * s.factor))) :
    retune maxFactor s.factor ewma = s.factor
      ∨ (retune maxFactor s.factor ewma : ℕ) = min (maxFactor : ℕ) ((s.factor : ℕ) * 2)
        ∧ (1 - 1 / 50) * (a * (retune maxFactor s.factor ewma : ℕ)) < 60 := by
  rw [Climbs] at hs
  by_cases hfast : ewma < vardiffTargetSeconds / 2
  · have hcoe : (retune maxFactor s.factor ewma : ℕ)
        = min (maxFactor : ℕ) ((s.factor : ℕ) * 2) := by rw [coe_retune, if_pos hfast]
    refine .inr ⟨hcoe, ?_⟩
    have hdouble : ((retune maxFactor s.factor ewma : ℕ) : ℚ) ≤ (s.factor : ℕ) * 2 := by
      rw [hcoe]
      exact_mod_cast min_le_right _ _
    have hfast' : ewma < 30 := by
      rw [vardiffTargetSeconds] at hfast
      linarith
    have hmul := mul_le_mul_of_nonneg_left hdouble ha.le
    linarith
  · refine .inl (PNat.coe_injective ?_)
    rw [coe_retune, if_neg hfast, if_neg]
    rw [vardiffTargetSeconds]
    linarith

/-- Above half the target a factor is kept or halved, and stays there. -/
lemma retune_of_descends {ewma : ℚ} (ha : 0 < a) (hs : Descends a s)
    (hlow : (1 - 1 / 50) * (a * s.factor) ≤ ewma)
    (hhigh : ewma ≤ (1 + 1 / 50) * (5 / 4 * (a * s.factor))) :
    retune maxFactor s.factor ewma = s.factor
      ∨ (retune maxFactor s.factor ewma : ℕ) = max 1 ((s.factor : ℕ) / 2)
        ∧ 30 ≤ (1 - 1 / 50) * (a * (retune maxFactor s.factor ewma : ℕ)) := by
  rw [Descends] at hs
  have hnotfast : ¬ ewma < vardiffTargetSeconds / 2 := by
    rw [vardiffTargetSeconds]
    linarith
  by_cases hslow : vardiffTargetSeconds * 2 < ewma
  · have hcoe : (retune maxFactor s.factor ewma : ℕ) = max 1 ((s.factor : ℕ) / 2) := by
      rw [coe_retune, if_neg hnotfast, if_pos hslow]
    refine .inr ⟨hcoe, ?_⟩
    -- an odd factor loses more than half, but never more than two thirds
    have hthird : ((s.factor : ℕ) : ℚ) ≤ 3 * (retune maxFactor s.factor ewma : ℕ) := by
      have : (s.factor : ℕ) ≤ 3 * (retune maxFactor s.factor ewma : ℕ) := by
        have hpos := s.factor.pos
        omega
      exact_mod_cast this
    have hslow' : 120 < ewma := by
      rw [vardiffTargetSeconds] at hslow
      linarith
    have hmul := mul_le_mul_of_nonneg_left hthird ha.le
    linarith
  · refine .inl (PNat.coe_injective ?_)
    rw [coe_retune, if_neg hnotfast, if_neg hslow]

/-- On the lower side a share does not halve the factor; one that changes it doubles it, or makes it
the maximum. -/
lemma share_of_climbs (hround : Accurate (1 / 1000) (1 / 10000) hi round) (hhi : 1 ≤ hi)
    (ha : 0 < a) (hle : s.factor ≤ maxFactor) (hs : Centred a s) (hside : Climbs a s)
    (hsteady : Steady round maxFactor hi a s (now :: times)) :
    Climbs a (s.share round maxFactor now).2
      ∧ s.factor ≤ (s.share round maxFactor now).2.factor
      ∧ ((s.share round maxFactor now).2.factor = s.factor
        ∨ ((s.share round maxFactor now).2.factor : ℕ) = min (maxFactor : ℕ) (s.factor * 2)) := by
  obtain ⟨-, hkept | ⟨ewma, hf, hlow, hhigh⟩⟩ := share_of_steady hround hhi hs hsteady
  · rw [Climbs, hkept]
    exact ⟨hside, le_rfl, .inl rfl⟩
  · rw [Climbs, hf]
    obtain hsame | ⟨hcoe, hstill⟩ : retune maxFactor s.factor ewma = s.factor ∨ _ :=
      retune_of_climbs ha hside hlow hhigh
    · rw [hsame]
      exact ⟨hside, le_rfl, .inl rfl⟩
    · refine ⟨hstill, ?_, .inr hcoe⟩
      have hle' : (s.factor : ℕ) ≤ maxFactor := hle
      rw [← PNat.coe_le_coe, hcoe]
      omega

/-- On the upper side a share does not double the factor; one that changes it halves it. -/
lemma share_of_descends (hround : Accurate (1 / 1000) (1 / 10000) hi round) (hhi : 1 ≤ hi)
    (ha : 0 < a) (hs : Centred a s) (hside : Descends a s)
    (hsteady : Steady round maxFactor hi a s (now :: times)) :
    Descends a (s.share round maxFactor now).2
      ∧ (s.share round maxFactor now).2.factor ≤ s.factor
      ∧ ((s.share round maxFactor now).2.factor = s.factor
        ∨ ((s.share round maxFactor now).2.factor : ℕ) = max 1 ((s.factor : ℕ) / 2)) := by
  obtain ⟨-, hkept | ⟨ewma, hf, hlow, hhigh⟩⟩ := share_of_steady hround hhi hs hsteady
  · rw [Descends, hkept]
    exact ⟨hside, le_rfl, .inl rfl⟩
  · rw [Descends, hf]
    obtain hsame | ⟨hcoe, hstill⟩ : retune maxFactor s.factor ewma = s.factor ∨ _ :=
      retune_of_descends ha hside hlow hhigh
    · rw [hsame]
      exact ⟨hside, le_rfl, .inl rfl⟩
    · refine ⟨hstill, ?_, .inr hcoe⟩
      have hpos := s.factor.pos
      rw [← PNat.coe_le_coe, hcoe]
      omega

/-! ### Sequences of shares -/

/-- What every share does, a sequence of shares does: where the change of a factor uses up one of
the `n` changes that `W n` allows it, there are at most `n` of them. -/
lemma shares_of_share {I : VardiffState → Prop} {R : ℕ+ → ℕ+ → Prop} {W : ℕ → ℕ+ → Prop}
    (hstep : ∀ s now times, I s → Steady round maxFactor hi a s (now :: times) →
      I (s.share round maxFactor now).2
        ∧ R s.factor (s.share round maxFactor now).2.factor
        ∧ ((s.share round maxFactor now).2.factor ≠ s.factor → ∀ n, W n s.factor →
          ∃ m, n = m + 1 ∧ W m (s.share round maxFactor now).2.factor))
    (hs : I s) (hsteady : Steady round maxFactor hi a s times) :
    (∀ past now, past ++ [now] <+: times →
        R (s.shares round maxFactor past).factor
          (s.shares round maxFactor (past ++ [now])).factor)
      ∧ ∀ n, W n s.factor → s.changes round maxFactor times ≤ n := by
  induction times generalizing s with
  | nil => exact ⟨fun past now h => by simp at h, fun n _ => Nat.zero_le n⟩
  | cons t times ih =>
      obtain ⟨hI, hR, hW⟩ := hstep s t times hs hsteady
      obtain ⟨hmono, hcount⟩ := ih hI hsteady.2
      constructor
      · intro past now hpre
        cases past with
        | nil =>
            obtain ⟨rfl, -⟩ := List.cons_prefix_cons.mp hpre
            exact hR
        | cons u past =>
            obtain ⟨rfl, hrest⟩ := List.cons_prefix_cons.mp hpre
            exact hmono past now hrest
      · intro n hn
        rw [changes]
        by_cases hkept : (s.share round maxFactor t).2.factor = s.factor
        · have hfalse : (s.share round maxFactor t).1 = false :=
            Bool.eq_false_iff.mpr fun h => (share_fst s t).mp h hkept
          rw [hfalse, Bool.toNat_false, Nat.zero_add]
          exact hcount n (hkept ▸ hn)
        · obtain ⟨m, rfl, hm⟩ := hW hkept n hn
          rw [(share_fst s t).mpr hkept, Bool.toNat_true, Nat.add_comm 1]
          exact Nat.add_le_add_right (hcount m hm) 1

/-- The shares of a steady worker move its factor one way, a bounded number of times. -/
lemma shares_of_steady (hround : Accurate (1 / 1000) (1 / 10000) hi round) (hhi : 1 ≤ hi)
    (ha : 0 < a) (hle : s.factor ≤ maxFactor) (hs : Centred a s)
    (hsteady : Steady round maxFactor hi a s times) :
    ((∀ past now, past ++ [now] <+: times →
        (s.shares round maxFactor past).factor
          ≤ (s.shares round maxFactor (past ++ [now])).factor)
      ∨ (∀ past now, past ++ [now] <+: times →
        (s.shares round maxFactor (past ++ [now])).factor
          ≤ (s.shares round maxFactor past).factor))
      ∧ s.changes round maxFactor times ≤ Nat.clog 2 maxFactor := by
  have hpos := maxFactor.pos
  rcases climbs_or_descends a s with hside | hside
  · obtain ⟨hmono, hcount⟩ := shares_of_share (s := s) (R := fun f f' => f ≤ f')
      (I := fun s => s.factor ≤ maxFactor ∧ Centred a s ∧ Climbs a s)
      (W := fun n f => (maxFactor : ℕ) ≤ f * 2 ^ n)
      (fun s now times ⟨hle, hs, hside⟩ hsteady => by
        obtain ⟨hside', hmono, hchange⟩ := share_of_climbs hround hhi ha hle hs hside hsteady
        refine ⟨⟨share_factor_le hle, (share_of_steady hround hhi hs hsteady).1, hside'⟩, hmono,
          fun hne n hn => ?_⟩
        have hcoe := hchange.resolve_left hne
        have hlt : (s.factor : ℕ) < (s.share round maxFactor now).2.factor :=
          PNat.coe_lt_coe _ _ |>.mpr (lt_of_le_of_ne hmono (Ne.symm hne))
        cases n with
        | zero => omega
        | succ n =>
            refine ⟨n, rfl, ?_⟩
            rw [hcoe]
            rcases min_choice (maxFactor : ℕ) (s.factor * 2) with h | h <;> rw [h]
            · exact Nat.le_mul_of_pos_right _ (Nat.two_pow_pos n)
            · rwa [Nat.mul_assoc, ← Nat.pow_succ'])
      ⟨hle, hs, hside⟩ hsteady
    refine ⟨.inl hmono, hcount _ ?_⟩
    exact (Nat.le_pow_clog one_lt_two _).trans (Nat.le_mul_of_pos_left _ s.factor.pos)
  · obtain ⟨hmono, hcount⟩ := shares_of_share (s := s) (R := fun f f' => f' ≤ f)
      (I := fun s => s.factor ≤ maxFactor ∧ Centred a s ∧ Descends a s)
      (W := fun n f => (f : ℕ) ≤ 2 ^ n)
      (fun s now times ⟨hle, hs, hside⟩ hsteady => by
        obtain ⟨hside', hmono, hchange⟩ := share_of_descends hround hhi ha hs hside hsteady
        refine ⟨⟨share_factor_le hle, (share_of_steady hround hhi hs hsteady).1, hside'⟩, hmono,
          fun hne n hn => ?_⟩
        have hcoe := hchange.resolve_left hne
        have hlt : ((s.share round maxFactor now).2.factor : ℕ) < s.factor :=
          PNat.coe_lt_coe _ _ |>.mpr (lt_of_le_of_ne hmono hne)
        cases n with
        | zero => omega
        | succ n =>
            refine ⟨n, rfl, ?_⟩
            have htwo := Nat.two_pow_pos n
            rw [Nat.pow_succ] at hn
            omega)
      ⟨hle, hs, hside⟩ hsteady
    exact ⟨.inr hmono, hcount _ ((PNat.coe_le_coe _ _ |>.mpr hle).trans
      (Nat.le_pow_clog one_lt_two _))⟩

end VardiffState

/-! ### The table -/

namespace Vardiff

/-- What `_record_vardiff_share` answers, where the call is a share of the worker. -/
def answer (round : ℚ → ℚ) (k : WorkerKey) (v : Vardiff) : VardiffEvent → Bool
  | .job _ _ => false
  | .share workerAddress workerLabel now =>
      workerKey workerAddress workerLabel = some k
        && (v.recordVardiffShare round workerAddress workerLabel now).1

/-- The number of shares of a worker in a run that ask for new jobs. -/
def changes (round : ℚ → ℚ) (k : WorkerKey) : Vardiff → List VardiffEvent → ℕ
  | _, [] => 0
  | v, e :: es => (v.answer round k e).toNat + changes round k (v.step round e) es

variable {round : ℚ → ℚ} {v : Vardiff} {k : WorkerKey} {e : VardiffEvent} {es : List VardiffEvent}

lemma answer_eq (henabled : v.enabled) :
    v.answer round k e
      = (e.timeOf k).elim false fun now => ((v.stateFor k).share round v.maxFactor now).1 := by
  cases e with
  | job address label => rfl
  | share address label now =>
      rw [answer, VardiffEvent.timeOf, recordVardiffShare, if_pos henabled]
      by_cases h : workerKey address label = some k
      · simp [h]
      · simp [h]

/-- The changes of a factor are those by the shares of the worker. -/
lemma changes_eq (henabled : v.enabled) :
    v.changes round k es = (v.stateFor k).changes round v.maxFactor (shareTimes k es) := by
  induction es generalizing v with
  | nil => rfl
  | cons e es ih =>
      have henabled' : (v.step round e).enabled := by rwa [enabled, targetFactor_step]
      have hmax : (v.step round e).maxFactor = v.maxFactor := by
        rw [maxFactor, targetFactor_step, maxFactor]
      rw [changes, ih henabled', hmax, stateFor_step henabled, answer_eq henabled]
      cases h : e.timeOf k with
      | none => simp [shareTimes_cons_of_none h]
      | some now => rw [shareTimes_cons_of_some h, VardiffState.changes]; rfl

end Vardiff

/-- A worker that mines at a steady rate has its factor moved one way only, however long it mines
and whatever other workers do in between, and at most as many of its shares ask for new jobs as the
maximal factor has bits.
`round` is the rounding of floating point, `a` the interval for each unit of the factor. -/
theorem vardiff_settles {round : ℚ → ℚ} {hi a : ℚ}
    (hround : Accurate (1 / 1000) (1 / 10000) hi round) (hhi : 1 ≤ hi) (ha : 0 < a)
    (v : Vardiff) (henabled : v.enabled) (k : WorkerKey)
    (hfresh : (v.stateFor k).ewmaInterval = none) (es : List VardiffEvent)
    (hsteady : (v.stateFor k).Steady round v.maxFactor hi a (shareTimes k es)) :
    ((∀ past e, past ++ [e] <+: es →
        ((v.run round past).stateFor k).factor
          ≤ ((v.run round (past ++ [e])).stateFor k).factor)
      ∨ (∀ past e, past ++ [e] <+: es →
        ((v.run round (past ++ [e])).stateFor k).factor
          ≤ ((v.run round past).stateFor k).factor))
      ∧ v.changes round k es ≤ Nat.clog 2 v.maxFactor := by
  obtain ⟨hmono, hcount⟩ := VardiffState.shares_of_steady hround hhi ha
    (v.stateFor_factor_le k) (VardiffState.centred_of_none hfresh) hsteady
  have hsplit {past : List VardiffEvent} {e : VardiffEvent} (hpre : past ++ [e] <+: es) :
      shareTimes k (past ++ [e]) = shareTimes k past
        ∨ ∃ now, shareTimes k (past ++ [e]) = shareTimes k past ++ [now]
          ∧ shareTimes k past ++ [now] <+: shareTimes k es := by
    obtain ⟨rest, rfl⟩ := hpre
    cases h : e.timeOf k with
    | none => exact .inl (by simp [shareTimes, h])
    | some now => exact .inr ⟨now, by simp [shareTimes, h], by simp [shareTimes, h]⟩
  refine ⟨hmono.imp (fun hmono past e hpre => ?_) (fun hmono past e hpre => ?_),
    (Vardiff.changes_eq henabled).trans_le hcount⟩
  all_goals
    rw [Vardiff.stateFor_run henabled, Vardiff.stateFor_run henabled]
    obtain h | ⟨now, h, hpre'⟩ := hsplit hpre
    · rw [h]
    · rw [h]
      exact hmono _ now hpre'

/-- A worker twice as fast as it should be, and another one in between. -/
theorem vardiff_settles_rig :
    ((Vardiff.init 8).changes id (['a'], ['r'])
      [.share (some ['a']) ['r'] 1000, .share (some ['b']) [] 1001,
        .share (some ['a']) ['r'] 1010]) ≤ Nat.clog 2 (Vardiff.init 8).maxFactor := by
  have hnone : (Vardiff.init 8).stateFor (['a'], ['r']) = { factor := 8 } := rfl
  have htimes : shareTimes (['a'], ['r']) [.share (some ['a']) ['r'] 1000,
      .share (some ['b']) [] 1001, .share (some ['a']) ['r'] 1010] = [1000, 1010] := rfl
  have hround : Accurate (1 / 1000) (1 / 10000) 1000 id := fun x hlo _ => by
    rw [id, sub_self, abs_zero]
    linarith
  refine (vardiff_settles (a := 5 / 4) hround (by norm_num) (by norm_num) (Vardiff.init 8)
    (by decide) (['a'], ['r']) (by rw [hnone]) _ ?_).2
  rw [htimes, hnone, VardiffState.Steady, VardiffState.Steady]
  refine ⟨fun last h => (Option.some_ne_none last h.symm).elim, fun last h => ?_, trivial⟩
  obtain rfl : 1000 = last := Option.some.inj h
  norm_num [VardiffState.interval, VardiffState.share]

end P2Pearl
