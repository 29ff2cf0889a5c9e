import Mathlib.Tactic

/-!
Calls counted by windows of a fixed length, and calls in a row.

* `lastWindow`: a window opens with the first call that finds none open, and stays open for its
  length; `place`: the place of a call in its window.
* `served`: the calls within the limit of their window; `count_window_le`, `count_interval_le`: in
  a window there are no more of them than the limit, and twice as many in any interval no longer
  than a window.
* `InARow`: the last selected items of a list all had a property when they came.
* `InARow.Counter`: a count of these; `Counter.hit`, `Counter.miss`, `Counter.skip`: it grows with
  an item that has the property, starts again with one that has not, and no other item matters.
-/

namespace P2Pearl

/-! ### Windows -/

section Windows

variable {τ : Type*} [LE τ] [DecidableLE τ] [Sub τ]

/-- The window a call falls in, and its place there, given the window open before. -/
def joinWindow (length t : τ) : Option (τ × ℕ) → τ × ℕ
  | none => (t, 1)
  | some (start, n) => if length ≤ t - start then (t, 1) else (start, n + 1)

/-- The window the last of some calls fell in, with the number of calls that did. -/
def lastWindow (length : τ) (calls : List τ) : Option (τ × ℕ) :=
  calls.foldl (fun b t => some (joinWindow length t b)) none

/-- The place of a call in its window, after earlier calls. -/
def place (length : τ) (earlier : List τ) (t : τ) : ℕ :=
  (joinWindow length t (lastWindow length earlier)).2

@[simp] lemma lastWindow_nil (length : τ) : lastWindow length [] = none := rfl

lemma lastWindow_concat (length : τ) (earlier : List τ) (t : τ) :
    lastWindow length (earlier ++ [t]) =
      some (joinWindow length t (lastWindow length earlier)) := by
  simp [lastWindow]

end Windows

/-! ### Served calls -/

/-- The items of a list, each with the items before it. -/
def withEarlier {α : Type*} (older : List α) : List α → List (List α × α)
  | [] => []
  | a :: rest => (older, a) :: withEarlier (older ++ [a]) rest

lemma withEarlier_concat {α : Type*} (older recent : List α) (a : α) :
    withEarlier older (recent ++ [a]) = withEarlier older recent ++ [(older ++ recent, a)] := by
  induction recent generalizing older with
  | nil => simp [withEarlier]
  | cons b recent ih => simp [withEarlier, ih]

section Served

variable {τ : Type*} [AddCommGroup τ] [LinearOrder τ] {length : τ} {limit : ℕ}

/-- The calls within the limit of their window, each with the calls before it. -/
def served (length : τ) (limit : ℕ) (calls : List τ) : List (List τ × τ) :=
  (withEarlier [] calls).filter fun c => place length c.1 c.2 ≤ limit

/-- One more call is served, and counted, or not. -/
lemma countP_served_concat (P : List τ × τ → Bool) (calls : List τ) (t : τ) :
    (served length limit (calls ++ [t])).countP P = (served length limit calls).countP P
      + if place length calls t ≤ limit ∧ P (calls, t) then 1 else 0 := by
  rw [served, withEarlier_concat, List.filter_append, List.countP_append, List.nil_append, served,
    List.filter_singleton]
  by_cases hserved : place length calls t ≤ limit <;> simp [hserved, List.countP_singleton]

lemma joinWindow_pos (t : τ) (b : Option (τ × ℕ)) : 0 < (joinWindow length t b).2 := by
  rcases b with _ | ⟨start, n⟩
  · exact Nat.one_pos
  · rw [joinWindow]
    split_ifs
    · exact Nat.one_pos
    · exact Nat.succ_pos n

/-- What a call does to the window: it opens one, later than the window before by at least its
length, or joins it. -/
lemma lastWindow_cases (length : τ) (calls : List τ) (t : τ) :
    (joinWindow length t (lastWindow length calls) = (t, 1) ∧
        ∀ start n, lastWindow length calls = some (start, n) → length ≤ t - start) ∨
      ∃ start n, lastWindow length calls = some (start, n) ∧
        joinWindow length t (lastWindow length calls) = (start, n + 1) := by
  rcases h : lastWindow length calls with _ | ⟨start, n⟩
  · exact .inl ⟨rfl, fun start n hn => by cases hn⟩
  · rw [joinWindow]
    split_ifs with hlen
    · refine .inl ⟨rfl, fun start' n' hn => ?_⟩
      cases hn
      exact hlen
    · exact .inr ⟨start, n, rfl, rfl⟩

/-- The number of the served calls in the window that opens at `start`, given the last window: this
one has not been opened, is the last one, or is past. -/
inductive InWindow (limit : ℕ) (start : τ) : Option (τ × ℕ) → ℕ → Prop
  | ahead {w : Option (τ × ℕ)} (before : ∀ s n, w = some (s, n) → s < start) :
      InWindow limit start w 0
  | current {c n : ℕ} (le : c ≤ min limit n) : InWindow limit start (some (start, n)) c
  | past {c n : ℕ} {s : τ} (after : start < s) (le : c ≤ limit) :
      InWindow limit start (some (s, n)) c

omit [AddCommGroup τ] in
lemma InWindow.le {start : τ} {w : Option (τ × ℕ)} {c : ℕ} (h : InWindow limit start w c) :
    c ≤ limit := by
  cases h <;> omega

/-- The number `c` of the served calls of an interval no longer than a window.  There are none, or
the first of them came at some time `x`: then they are all of the window of that call, or of this
window and the next one, or a later call is behind the interval. -/
inductive Spread (length : τ) (limit : ℕ) (I : τ → Prop) (calls : List τ) : ℕ → Prop
  | before : Spread length limit I calls 0
  | first {c n : ℕ} {x start : τ} (mem : x ∈ calls) (hx : I x)
      (window : lastWindow length calls = some (start, n)) (le : c ≤ min limit n) :
      Spread length limit I calls c
  | second {c n : ℕ} {x start : τ} (mem : x ∈ calls) (hx : I x)
      (window : lastWindow length calls = some (start, n)) (opened : x ≤ start)
      (le : c ≤ limit + min limit n) : Spread length limit I calls c
  | behind {c : ℕ} {x y : τ} (mem : x ∈ calls) (hx : I x) (hy : y ∈ calls) (far : length ≤ y - x)
      (le : c ≤ 2 * limit) : Spread length limit I calls c

lemma Spread.le {I : τ → Prop} {calls : List τ} {c : ℕ} (h : Spread length limit I calls c) :
    c ≤ 2 * limit := by
  cases h <;> omega

variable [IsOrderedAddMonoid τ]

/-- One more call, in this window or another. -/
lemma InWindow.concat {start : τ} {calls : List τ} {c : ℕ} (hlength : 0 < length)
    (h : InWindow limit start (lastWindow length calls) c) (t : τ) :
    InWindow limit start (lastWindow length (calls ++ [t])) (c + if place length calls t ≤ limit ∧
      (joinWindow length t (lastWindow length calls)).1 = start then 1 else 0) := by
  rw [place, lastWindow_concat]
  rcases lastWindow_cases length calls t with ⟨hj, hopened⟩ | ⟨s, n, hw, hj⟩
  · -- the call opens a window, later than the one before
    have hlater : ∀ s n, lastWindow length calls = some (s, n) → s < t := fun s n hw =>
      sub_pos.mp (hlength.trans_le (hopened s n hw))
    rw [hj]
    generalize lastWindow length calls = w at h hlater
    cases h with
    | ahead =>
        rcases lt_trichotomy t start with hlt | rfl | hgt
        · rw [if_neg fun hserved => hlt.ne hserved.2]
          exact .ahead fun s n hs => by cases hs; exact hlt
        · refine .current ?_
          split_ifs <;> omega
        · exact .past hgt (by rw [if_neg fun hserved => hgt.ne' hserved.2]; exact Nat.zero_le _)
    | current le =>
        have hgt := hlater start _ rfl
        refine .past hgt ?_
        rw [if_neg fun hserved => hgt.ne' hserved.2]
        omega
    | @past _ _ s after le =>
        have hgt := after.trans (hlater s _ rfl)
        refine .past hgt ?_
        rwa [if_neg fun hserved => hgt.ne' hserved.2]
  · rw [hj]
    rw [hw] at h
    cases h with
    | ahead before =>
        have hlt := before s n rfl
        rw [if_neg fun hserved => hlt.ne hserved.2]
        exact .ahead fun s' n' hs => by cases hs; exact hlt
    | current le =>
        refine .current ?_
        split_ifs <;> omega
    | past after le =>
        refine .past after ?_
        rwa [if_neg fun hserved => after.ne' hserved.2]

/-- **In a window** no more calls are served than the limit. -/
lemma count_window_le (hlength : 0 < length) (calls : List τ) (start : τ) :
    (served length limit calls).countP
      (fun c => (joinWindow length c.2 (lastWindow length c.1)).1 = start) ≤ limit := by
  suffices h : InWindow limit start (lastWindow length calls) _ from h.le
  induction calls using List.reverseRecOn with
  | nil => exact .ahead fun s n hs => by cases hs
  | append_singleton calls t ih =>
      rw [countP_served_concat]
      simpa using ih.concat hlength t

/-- One more call, no earlier than those before. -/
lemma Spread.concat {I : τ → Prop} [DecidablePred I] (hI : ∀ x y, I x → I y → y - x < length)
    {calls : List τ} {c : ℕ} {t : τ} (hlimit : 0 < limit) (h : Spread length limit I calls c)
    (ht : ∀ x ∈ calls, x ≤ t) :
    Spread length limit I (calls ++ [t])
      (c + if place length calls t ≤ limit ∧ I t then 1 else 0) := by
  have hlast : t ∈ calls ++ [t] := List.mem_append_right _ (List.mem_singleton_self t)
  have hmem : ∀ {x}, x ∈ calls → x ∈ calls ++ [t] := fun hx => List.mem_append_left _ hx
  have hwindow := lastWindow_concat length calls t
  rw [place]
  cases h with
  | before =>
      split_ifs with hserved
      · exact .first hlast hserved.2 hwindow (le_min hlimit (joinWindow_pos t _))
      · exact .before
  | @first _ n x start mem hx hw le =>
      rcases lastWindow_cases length calls t with ⟨hj, -⟩ | ⟨s, m, hw', hj⟩
      · rw [hj] at hwindow ⊢
        refine .second (hmem mem) hx hwindow (ht x mem) ?_
        split_ifs <;> omega
      · obtain ⟨rfl, rfl⟩ := Prod.mk.inj (Option.some.inj (hw.symm.trans hw'))
        rw [hj] at hwindow ⊢
        refine .first (hmem mem) hx hwindow ?_
        split_ifs <;> omega
  | @second _ n x start mem hx hw opened le =>
      rcases lastWindow_cases length calls t with ⟨hj, hopened⟩ | ⟨s, m, hw', hj⟩
      · have hfar : length ≤ t - x := (hopened start n hw).trans (sub_le_sub_left opened t)
        rw [if_neg fun hserved => (hI x t hx hserved.2).not_ge hfar]
        exact .behind (hmem mem) hx hlast hfar (by omega)
      · obtain ⟨rfl, rfl⟩ := Prod.mk.inj (Option.some.inj (hw.symm.trans hw'))
        rw [hj] at hwindow ⊢
        refine .second (hmem mem) hx hwindow opened ?_
        split_ifs <;> omega
  | @behind _ x y mem hx hy far le =>
      have hfar : length ≤ t - x := far.trans (sub_le_sub_right (ht y hy) x)
      rw [if_neg fun hserved => (hI x t hx hserved.2).not_ge hfar]
      exact .behind (hmem mem) hx (hmem hy) far le

/-- **In an interval** no longer than a window at most twice as many calls are served. -/
lemma count_interval_le {I : τ → Prop} [DecidablePred I]
    (hI : ∀ x y, I x → I y → y - x < length) (hlimit : 0 < limit) {calls : List τ}
    (hcalls : calls.Pairwise (· ≤ ·)) :
    (served length limit calls).countP (fun c => I c.2) ≤ 2 * limit := by
  suffices h : Spread length limit I calls _ from h.le
  induction calls using List.reverseRecOn with
  | nil => exact .before
  | append_singleton calls t ih =>
      obtain ⟨hcalls, -, ht⟩ := List.pairwise_append.mp hcalls
      rw [countP_served_concat]
      simpa using (ih hcalls).concat hI hlimit fun x hx => ht x hx t (List.mem_singleton_self t)

end Served

/-! ### In a row -/

section InARow

variable {α : Type*} {sel : α → Bool} {R : List α → α → Prop}

/-- A property of every item, given the items before it. -/
def AllFrom (R : List α → α → Prop) (older : List α) : List α → Prop
  | [] => True
  | a :: rest => R older a ∧ AllFrom R (older ++ [a]) rest

instance decidableAllFrom [∀ l a, Decidable (R l a)] :
    ∀ older recent, Decidable (AllFrom R older recent)
  | _, [] => isTrue trivial
  | older, a :: rest => @instDecidableAnd _ _ inferInstance
      (decidableAllFrom (older ++ [a]) rest)

lemma allFrom_concat {older recent : List α} {a : α} :
    AllFrom R older (recent ++ [a]) ↔ AllFrom R older recent ∧ R (older ++ recent) a := by
  induction recent generalizing older with
  | nil => simp [AllFrom]
  | cons b recent ih =>
      simp only [List.cons_append, AllFrom, ih, and_assoc, List.append_assoc, List.nil_append]

/-- The last `n` selected items of a list, or more, had a property when they came. -/
def InARow (sel : α → Bool) (R : List α → α → Prop) (n : ℕ) (l : List α) : Prop :=
  ∃ older recent, l = older ++ recent ∧ n ≤ recent.countP sel ∧
    AllFrom (fun earlier a => sel a = true → R earlier a) older recent

lemma inARow_zero (l : List α) : InARow sel R 0 l :=
  ⟨l, [], (List.append_nil l).symm, Nat.zero_le _, trivial⟩

lemma inARow_concat {n : ℕ} {l : List α} {a : α} : InARow sel R n (l ++ [a]) ↔
    n = 0 ∨ ((sel a = true → R l a) ∧ InARow sel R (n - if sel a then 1 else 0) l) := by
  constructor
  · rintro ⟨older, recent, hl, hn, hall⟩
    rcases List.eq_nil_or_concat recent with rfl | ⟨recent, b, rfl⟩
    · exact .inl (Nat.le_zero.mp hn)
    rw [List.concat_eq_append] at hl hn hall
    obtain ⟨rfl, rfl⟩ : l = older ++ recent ∧ a = b := by
      rw [← List.append_assoc] at hl
      exact ⟨List.append_inj_left' hl rfl, by simpa using List.append_inj_right' hl rfl⟩
    rw [allFrom_concat] at hall
    rw [List.countP_append, List.countP_singleton] at hn
    exact .inr ⟨hall.2, older, recent, rfl, by omega, hall.1⟩
  · rintro (rfl | ⟨ha, older, recent, rfl, hn, hall⟩)
    · exact inARow_zero _
    · refine ⟨older, recent ++ [a], List.append_assoc .., ?_, allFrom_concat.mpr ⟨hall, ha⟩⟩
      rw [List.countP_append, List.countP_singleton]
      omega

namespace InARow

/-- A property of the last selected items can be weakened. -/
lemma mono {R' : List α → α → Prop} (h : ∀ earlier a, R earlier a → R' earlier a) {n : ℕ}
    {l : List α} (hl : InARow sel R n l) : InARow sel R' n l := by
  obtain ⟨older, recent, rfl, hn, hall⟩ := hl
  refine ⟨older, recent, rfl, hn, ?_⟩
  clear hn
  induction recent generalizing older with
  | nil => trivial
  | cons a recent ih => exact ⟨fun ha => h _ _ (hall.1 ha), ih _ hall.2⟩

/-- A count of the last selected items that had the property. -/
def Counter (sel : α → Bool) (R : List α → α → Prop) (l : List α) (c : ℕ) : Prop :=
  ∀ n, InARow sel R n l ↔ n ≤ c

namespace Counter

variable {l : List α} {c : ℕ} {a : α}

lemma nil : Counter sel R [] 0 := by
  intro n
  constructor
  · rintro ⟨older, recent, h, hn, -⟩
    obtain ⟨-, rfl⟩ := List.append_eq_nil_iff.mp h.symm
    exact hn
  · intro hn
    rw [Nat.le_zero.mp hn]
    exact inARow_zero _

lemma skip (h : Counter sel R l c) (ha : sel a = false) : Counter sel R (l ++ [a]) c := by
  intro n
  rw [inARow_concat, ha, ← h n]
  constructor
  · rintro (rfl | ⟨-, hn⟩)
    · exact inARow_zero l
    · simpa using hn
  · exact fun hn => .inr ⟨by simp, by simpa using hn⟩

lemma hit (h : Counter sel R l c) (ha : sel a = true) (hR : R l a) :
    Counter sel R (l ++ [a]) (c + 1) := by
  intro n
  rw [inARow_concat, if_pos ha, h]
  constructor
  · rintro (rfl | ⟨-, hn⟩) <;> omega
  · exact fun hn => .inr ⟨fun _ => hR, by omega⟩

lemma miss (ha : sel a = true) (hR : ¬ R l a) : Counter sel R (l ++ [a]) 0 := by
  intro n
  rw [inARow_concat]
  constructor
  · rintro (rfl | ⟨h, -⟩)
    · exact le_rfl
    · exact absurd (h ha) hR
  · exact fun hn => .inl (Nat.le_zero.mp hn)

end Counter

end InARow

end InARow

end P2Pearl
