import Mathlib.Tactic

/-!
Walks that follow a link through a partial map.

A map `m` stores values under keys, and `up v` is the key a value links to, if any.

* `trail m up n start`: the entries met from `start` in at most `n` steps; the walk ends early
  where a link ends or its key is not stored.
* `Unbroken`: the walk meets no missing key.  It is inherited by a larger map, which then gives
  the same walk (`trail_eq_of_unbroken`).
* `AgreeAlong`: two maps hold the same at every key the walk asks for, so they give the same walk
  (`trail_eq_of_agreeAlong`).
* `Descending`: the links go down a rank.  Then a walk cut short still contains everything above
  its last entry (`mem_trail_of_rank_le`).
* `unbroken_of_depth`: where the entries within a depth of a ceiling link to stored entries one
  rank lower, a walk that stays within the depth is unbroken.
-/

namespace P2Pearl

variable {κ ν : Type}

/-- Every entry of `m` is an entry of `m'`. -/
def SubMap (m m' : κ → Option ν) : Prop := ∀ k v, m k = some v → m' k = some v

/-- The entries met from `start` on, in at most `n` steps. -/
def trail (m : κ → Option ν) (up : ν → Option κ) : ℕ → Option κ → List (κ × ν)
  | 0, _ => []
  | _ + 1, none => []
  | n + 1, some k =>
      match m k with
      | none => []
      | some v => (k, v) :: trail m up n (up v)

/-- The walk of `n` steps from `start` meets no missing key. -/
def Unbroken (m : κ → Option ν) (up : ν → Option κ) : ℕ → Option κ → Prop
  | 0, _ => True
  | _ + 1, none => True
  | n + 1, some k => ∃ v, m k = some v ∧ Unbroken m up n (up v)

/-- The two maps hold the same at every key the walk of `n` steps from `start` asks for. -/
def AgreeAlong (m m' : κ → Option ν) (up : ν → Option κ) : ℕ → Option κ → Prop
  | 0, _ => True
  | _ + 1, none => True
  | n + 1, some k => m' k = m k ∧ ∀ v, m k = some v → AgreeAlong m m' up n (up v)

instance decidableAgreeAlong [DecidableEq ν] (m m' : κ → Option ν) (up : ν → Option κ) :
    ∀ n start, Decidable (AgreeAlong m m' up n start)
  | 0, _ => isTrue trivial
  | _ + 1, none => isTrue trivial
  | n + 1, some k =>
      match hk : m k with
      | none => decidable_of_iff (m' k = none)
          ⟨fun h => ⟨h.trans hk.symm, fun v hv => by cases hk.symm.trans hv⟩,
            fun h => h.1.trans hk⟩
      | some v =>
          have := decidableAgreeAlong m m' up n (up v)
          decidable_of_iff (m' k = some v ∧ AgreeAlong m m' up n (up v))
            ⟨fun h => ⟨h.1.trans hk.symm, fun w hw => by cases hk.symm.trans hw; exact h.2⟩,
              fun h => ⟨h.1.trans hk, h.2 v hk⟩⟩

variable {m m' : κ → Option ν} {up : ν → Option κ}

lemma SubMap.refl (m : κ → Option ν) : SubMap m m := fun _ _ h => h

lemma SubMap.trans {m'' : κ → Option ν} (h : SubMap m m') (h' : SubMap m' m'') : SubMap m m'' :=
  fun k v hv => h' k v (h k v hv)

@[simp] lemma trail_zero (start : Option κ) : trail m up 0 start = [] := rfl

@[simp] lemma trail_none (n : ℕ) : trail m up n none = [] := by cases n <;> rfl

lemma trail_missing {k : κ} (h : m k = none) (n : ℕ) : trail m up n (some k) = [] := by
  cases n with
  | zero => rfl
  | succ n => rw [trail, h]

lemma trail_succ {k : κ} {v : ν} (h : m k = some v) (n : ℕ) :
    trail m up (n + 1) (some k) = (k, v) :: trail m up n (up v) := by rw [trail, h]

@[simp] lemma unbroken_none (n : ℕ) : Unbroken m up n none := by cases n <;> trivial

/-- What a walk meets is stored. -/
lemma stored_of_mem_trail {n : ℕ} {start : Option κ} {p : κ × ν} (h : p ∈ trail m up n start) :
    m p.1 = some p.2 := by
  induction n generalizing start with
  | zero => exact absurd h List.not_mem_nil
  | succ n ih =>
      cases start with
      | none => exact absurd h List.not_mem_nil
      | some k =>
          cases hk : m k with
          | none => rw [trail_missing hk] at h; exact absurd h List.not_mem_nil
          | some v =>
              rw [trail_succ hk] at h
              rcases List.mem_cons.mp h with rfl | h
              · exact hk
              · exact ih h

/-- A walk begins where it starts. -/
lemma start_of_head_trail {n : ℕ} {start : Option κ} {p : κ × ν}
    (h : p ∈ (trail m up n start).head?) : start = some p.1 := by
  cases n with
  | zero => cases h
  | succ n =>
      cases start with
      | none => cases h
      | some k =>
          cases hk : m k with
          | none => rw [trail_missing hk] at h; cases h
          | some v => rw [trail_succ hk] at h; cases h; rfl

/-- Each item of a walk links to the next. -/
lemma isChain_trail (n : ℕ) (start : Option κ) :
    (trail m up n start).IsChain fun p q => up p.2 = some q.1 := by
  induction n generalizing start with
  | zero => exact List.isChain_nil
  | succ n ih =>
      cases start with
      | none => exact List.isChain_nil
      | some k =>
          cases hk : m k with
          | none => rw [trail_missing hk]; exact List.isChain_nil
          | some v =>
              rw [trail_succ hk]
              exact List.isChain_cons.mpr ⟨fun q hq => start_of_head_trail hq, ih (up v)⟩

lemma isChain_takeWhile_trail (n : ℕ) (start : Option κ) (p : κ × ν → Bool) :
    ((trail m up n start).takeWhile p).IsChain fun p q => up p.2 = some q.1 := by
  have h : (trail m up n start).IsChain fun p q => up p.2 = some q.1 := isChain_trail n start
  rw [← List.takeWhile_append_dropWhile (p := p) (l := trail m up n start)] at h
  exact h.left_of_append

/-- A shorter walk is the beginning of a longer one. -/
lemma trail_prefix_of_le {n N : ℕ} (hn : n ≤ N) (start : Option κ) :
    trail m up n start <+: trail m up N start := by
  induction n generalizing start N with
  | zero => exact List.nil_prefix
  | succ n ih =>
      obtain ⟨N, rfl⟩ : ∃ N', N = N' + 1 := ⟨N - 1, by omega⟩
      cases start with
      | none => exact List.nil_prefix
      | some k =>
          cases hk : m k with
          | none => rw [trail_missing hk]; exact List.nil_prefix
          | some v =>
              rw [trail_succ hk, trail_succ hk]
              exact List.cons_prefix_cons.mpr ⟨rfl, ih (by omega) (up v)⟩

/-! ### Two maps -/

/-- A walk in a smaller map is the beginning of the walk in a larger one. -/
lemma trail_prefix_of_subMap (hsub : SubMap m m') (n : ℕ) (start : Option κ) :
    trail m up n start <+: trail m' up n start := by
  induction n generalizing start with
  | zero => exact List.nil_prefix
  | succ n ih =>
      cases start with
      | none => exact List.nil_prefix
      | some k =>
          cases hk : m k with
          | none => rw [trail_missing hk]; exact List.nil_prefix
          | some v =>
              rw [trail_succ hk, trail_succ (hsub k v hk)]
              exact List.cons_prefix_cons.mpr ⟨rfl, ih (up v)⟩

/-- A larger map gives the same walk where the smaller one gives an unbroken one. -/
lemma trail_eq_of_unbroken (hsub : SubMap m m') {n : ℕ} {start : Option κ}
    (h : Unbroken m up n start) : trail m' up n start = trail m up n start := by
  induction n generalizing start with
  | zero => rfl
  | succ n ih =>
      cases start with
      | none => rfl
      | some k =>
          obtain ⟨v, hv, h⟩ := h
          rw [trail_succ hv, trail_succ (hsub k v hv), ih h]

lemma Unbroken.mono (hsub : SubMap m m') {n : ℕ} {start : Option κ}
    (h : Unbroken m up n start) : Unbroken m' up n start := by
  induction n generalizing start with
  | zero => trivial
  | succ n ih =>
      cases start with
      | none => trivial
      | some k =>
          obtain ⟨v, hv, h⟩ := h
          exact ⟨v, hsub k v hv, ih h⟩

/-- A larger map agrees along an unbroken walk. -/
lemma Unbroken.agreeAlong (hsub : SubMap m m') {n : ℕ} {start : Option κ}
    (h : Unbroken m up n start) : AgreeAlong m m' up n start := by
  induction n generalizing start with
  | zero => trivial
  | succ n ih =>
      cases start with
      | none => trivial
      | some k =>
          obtain ⟨v, hv, h⟩ := h
          refine ⟨by rw [hv, hsub k v hv], fun w hw => ?_⟩
          cases hv.symm.trans hw
          exact ih h

lemma AgreeAlong.of_le {n N : ℕ} (hn : n ≤ N) {start : Option κ}
    (h : AgreeAlong m m' up N start) : AgreeAlong m m' up n start := by
  induction n generalizing start N with
  | zero => trivial
  | succ n ih =>
      obtain ⟨N, rfl⟩ : ∃ N', N = N' + 1 := ⟨N - 1, by omega⟩
      cases start with
      | none => trivial
      | some k => exact ⟨h.1, fun v hv => ih (by omega) (h.2 v hv)⟩

/-- Maps that agree along a walk give the same walk. -/
lemma trail_eq_of_agreeAlong {n : ℕ} {start : Option κ} (h : AgreeAlong m m' up n start) :
    trail m' up n start = trail m up n start := by
  induction n generalizing start with
  | zero => rfl
  | succ n ih =>
      cases start with
      | none => rfl
      | some k =>
          cases hk : m k with
          | none => rw [trail_missing hk, trail_missing (h.1.trans hk)]
          | some v => rw [trail_succ hk, trail_succ (h.1.trans hk), ih (h.2 v hk)]

/-- In a map that stores what its values link to, a walk from a stored key is unbroken. -/
lemma unbroken_of_closed (hclosed : ∀ k v j, m k = some v → up v = some j → ∃ w, m j = some w)
    (n : ℕ) {k : κ} {v : ν} (hv : m k = some v) : Unbroken m up n (some k) := by
  induction n generalizing k v with
  | zero => trivial
  | succ n ih =>
      refine ⟨v, hv, ?_⟩
      cases hup : up v with
      | none => simp
      | some j =>
          obtain ⟨w, hw⟩ := hclosed k v j hv hup
          exact ih hw

/-- A larger map agrees with a closed one along every walk it agrees on the start of. -/
lemma agreeAlong_of_closed (hsub : SubMap m m')
    (hclosed : ∀ k v j, m k = some v → up v = some j → ∃ w, m j = some w) (n : ℕ)
    {start : Option κ} (hstart : ∀ k, start = some k → m' k = m k) :
    AgreeAlong m m' up n start := by
  cases n with
  | zero => trivial
  | succ n =>
      cases start with
      | none => trivial
      | some k =>
          refine ⟨hstart k rfl, fun v hv => ?_⟩
          have h := (unbroken_of_closed hclosed (n + 1) hv).agreeAlong hsub
          exact h.2 v hv

/-! ### Ranks -/

section Ranked

variable {rank : ν → ℕ}

/-- Stored links go down the rank. -/
def Descending (m : κ → Option ν) (up : ν → Option κ) (rank : ν → ℕ) : Prop :=
  ∀ k v j w, m k = some v → up v = some j → m j = some w → rank w < rank v

/-- Beyond an entry, a walk only meets lower ranks. -/
lemma rank_lt_of_mem_trail (hd : Descending m up rank) {n : ℕ} {k : κ} {v : ν}
    (hv : m k = some v) {p : κ × ν} (h : p ∈ trail m up n (up v)) : rank p.2 < rank v := by
  induction n generalizing k v with
  | zero => exact absurd h List.not_mem_nil
  | succ n ih =>
      cases hup : up v with
      | none => rw [hup] at h; exact absurd h List.not_mem_nil
      | some j =>
          rw [hup] at h
          cases hj : m j with
          | none => rw [trail_missing hj] at h; exact absurd h List.not_mem_nil
          | some w =>
              have hlt := hd k v j w hv hup hj
              rw [trail_succ hj] at h
              rcases List.mem_cons.mp h with rfl | h
              · exact hlt
              · exact (ih hj h).trans hlt

/-- A walk cut short contains everything of the full walk down to the rank it reached. -/
lemma mem_trail_of_rank_le (hd : Descending m' up rank) (hsub : SubMap m m') {n N : ℕ}
    {start : Option κ} {p q : κ × ν} (hp : p ∈ trail m' up N start) (hq : q ∈ trail m up n start)
    (hle : rank q.2 ≤ rank p.2) : p ∈ trail m up n start := by
  induction n generalizing start N with
  | zero => exact absurd hq List.not_mem_nil
  | succ n ih =>
      cases start with
      | none => exact absurd hq List.not_mem_nil
      | some k =>
          cases hk : m k with
          | none => rw [trail_missing hk] at hq; exact absurd hq List.not_mem_nil
          | some v =>
              cases N with
              | zero => exact absurd hp List.not_mem_nil
              | succ N =>
                  rw [trail_succ (hsub k v hk)] at hp
                  rw [trail_succ hk] at hq ⊢
                  rcases List.mem_cons.mp hp with rfl | hp
                  · exact List.mem_cons_self
                  · have hlt := rank_lt_of_mem_trail hd (hsub k v hk) hp
                    rcases List.mem_cons.mp hq with rfl | hq
                    · exact absurd hle (not_le.mpr hlt)
                    · exact List.mem_cons_of_mem _ (ih hp hq)

/-- Where every entry that reaches above the ceiling from a given depth links to a stored entry
one rank lower, a walk that stays within the depth is unbroken. -/
lemma unbroken_of_depth (rank : ν → ℕ) {ceiling depth : ℕ}
    (h : ∀ k v j, m k = some v → ceiling < rank v + depth → up v = some j →
      ∃ w, m j = some w ∧ rank v = rank w + 1)
    {n : ℕ} {k : κ} {v : ν} (hv : m k = some v) (hn : ceiling + n ≤ rank v + depth + 1) :
    Unbroken m up n (some k) := by
  induction n generalizing k v with
  | zero => trivial
  | succ n ih =>
      refine ⟨v, hv, ?_⟩
      cases hup : up v with
      | none => simp
      | some j =>
          cases n with
          | zero => trivial
          | succ n =>
              obtain ⟨w, hw, hr⟩ := h k v j hv (by omega) hup
              exact ih hw (by omega)

/-- Such a walk of `n` entries stays within `n` ranks of its first one. -/
lemma rank_le_of_mem_trail (rank : ν → ℕ) {ceiling depth : ℕ}
    (h : ∀ k v j, m k = some v → ceiling < rank v + depth → up v = some j →
      ∃ w, m j = some w ∧ rank v = rank w + 1)
    {n : ℕ} {k : κ} {v : ν} (hv : m k = some v) (hn : ceiling + n ≤ rank v + depth + 1)
    {p : κ × ν} (hp : p ∈ trail m up n (some k)) : rank v + 1 ≤ rank p.2 + n := by
  induction n generalizing k v with
  | zero => exact absurd hp List.not_mem_nil
  | succ n ih =>
      rw [trail_succ hv] at hp
      rcases List.mem_cons.mp hp with rfl | hp
      · simp only; omega
      · cases n with
        | zero => exact absurd hp List.not_mem_nil
        | succ n =>
            cases hup : up v with
            | none => rw [hup] at hp; exact absurd hp List.not_mem_nil
            | some j =>
                obtain ⟨w, hw, hr⟩ := h k v j hv (by omega) hup
                rw [hup] at hp
                have := ih hw (by omega) hp
                omega

end Ranked

end P2Pearl
