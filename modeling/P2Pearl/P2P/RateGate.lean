import P2Pearl.Data.FixedWindow
import P2Pearl.P2P.Message

/-!
The rate gate of a connection: `_Peer.allow`, and `_dispatch` up to the handler it calls.

* `Peer.dispatch`: one message: it passes on to its handler, is ignored, or has the peer dropped.
* `OverCap`: a message has a place in its kind's window that is beyond the limit; whatever else
  arrives, these are the messages refused (`refused_iff_overCap`).
* `Peer.Follows`, `follows_after`: the buckets and the strikes, read off the messages that came.
* `served_bounded`: what is served of a kind in any interval of the length of its window.
* `flood_dropped_iff`: a flood of one kind has its peer dropped exactly when no message of another
  kind was let through among the last refused ones.
* `flood_not_dropped`: a peer that says hello between its requests is not dropped.
-/

namespace P2Pearl

/-! ### The gate -/

/-- How many messages are served in a window, and its length in seconds. -/
structure RateLimit where
  limit : ℕ
  window : ℚ

/-- `RATE_LIMITS`. -/
def rateLimits : Kind → Option RateLimit
  | .getshares => some ⟨30, 10⟩
  | .getproof => some ⟨2000, 10⟩
  | .block => some ⟨200, 10⟩
  | .hello => some ⟨10, 10⟩
  | .share | .proof | .shares => none

/-- `HARD_RATE_STRIKES`. -/
def hardRateStrikes : ℕ := 5

/-- What the gate knows of a peer: by kind the start of its window and the count in it, and the
over-limit hits in a row. -/
structure Peer where
  buckets : Kind → Option (ℚ × ℕ) := fun _ => none
  strikes : ℕ := 0

/-- A message by what the gate reads: its kind, none without a handler of the model, and the
clock. -/
structure Arrival where
  kind : Option Kind
  time : ℚ

/-- What `_dispatch` does with a message: it lets it pass to its handler, if there is one, ignores
it, or has the peer dropped. -/
inductive Outcome where
  | passed
  | ignored
  | dropped
  deriving DecidableEq

namespace Peer

/-- A bucket opened by a message. -/
def openBucket (p : Peer) (kind : Kind) (now : ℚ) : Bool × Peer :=
  (true, { buckets := Function.update p.buckets kind (some (now, 1)), strikes := 0 })

/-- `_Peer.allow`, for a kind with a limit. -/
def allow (p : Peer) (kind : Kind) (r : RateLimit) (now : ℚ) : Bool × Peer :=
  match p.buckets kind with
  | none => p.openBucket kind now
  | some (start, count) =>
      if r.window ≤ now - start then p.openBucket kind now
      else if r.limit ≤ count then (false, { p with strikes := p.strikes + 1 })
      else (true, { buckets := Function.update p.buckets kind (some (start, count + 1)),
                    strikes := 0 })

/-- `_dispatch`, up to the handler. -/
def dispatch (p : Peer) (m : Arrival) : Peer × Outcome :=
  match m.kind with
  | none => (p, .passed)
  | some kind =>
      match rateLimits kind with
      | none => (p, .passed)
      | some r =>
          match p.allow kind r m.time with
          | (true, p) => (p, .passed)
          | (false, p) => (p, if hardRateStrikes ≤ p.strikes then .dropped else .ignored)

/-- A connection after some messages. -/
def after (msgs : List Arrival) : Peer := msgs.foldl (fun p m => (p.dispatch m).1) {}

lemma after_concat (msgs : List Arrival) (m : Arrival) :
    after (msgs ++ [m]) = ((after msgs).dispatch m).1 := by
  simp [after]

end Peer

namespace Arrival

/-- Whether a message is of a kind. -/
def ofKind (k : Kind) (m : Arrival) : Bool := m.kind = some k

/-- Whether a message is of a kind with a limit. -/
def limited (m : Arrival) : Bool := (m.kind.bind rateLimits).isSome

lemma limited_iff {m : Arrival} :
    m.limited = true ↔ ∃ k r, m.kind = some k ∧ rateLimits k = some r := by
  rw [limited, Option.isSome_iff_exists]
  simp only [Option.bind_eq_some_iff]
  exact exists_comm.trans (by simp)

end Arrival

/-- A message the gate does not let pass, after those before it. -/
def Refused (earlier : List Arrival) (m : Arrival) : Prop :=
  ((Peer.after earlier).dispatch m).2 ≠ .passed

instance (earlier : List Arrival) (m : Arrival) : Decidable (Refused earlier m) :=
  inferInstanceAs (Decidable (_ ≠ _))

/-! ### The messages over their cap -/

/-- The times of the messages of a kind. -/
def timesOf (k : Kind) (msgs : List Arrival) : List ℚ := (msgs.filter (·.ofKind k)).map (·.time)

lemma timesOf_concat_of_kind {k : Kind} {m : Arrival} (hk : m.kind = some k)
    (msgs : List Arrival) : timesOf k (msgs ++ [m]) = timesOf k msgs ++ [m.time] := by
  simp [timesOf, Arrival.ofKind, hk]

lemma timesOf_concat_of_ne {k : Kind} {m : Arrival} (hk : m.kind ≠ some k)
    (msgs : List Arrival) : timesOf k (msgs ++ [m]) = timesOf k msgs := by
  simp [timesOf, Arrival.ofKind, hk]

/-- A message over its cap: its place in the window of its kind is beyond the limit. -/
def OverCap (earlier : List Arrival) (m : Arrival) : Prop :=
  ∃ k r, m.kind = some k ∧ rateLimits k = some r ∧
    r.limit < place r.window (timesOf k earlier) m.time

lemma OverCap.limited {earlier : List Arrival} {m : Arrival} (h : OverCap earlier m) :
    m.limited = true := by
  obtain ⟨k, r, hk, hr, -⟩ := h
  exact Arrival.limited_iff.mpr ⟨k, r, hk, hr⟩

lemma overCap_iff {earlier : List Arrival} {m : Arrival} {k : Kind} {r : RateLimit}
    (hk : m.kind = some k) (hr : rateLimits k = some r) :
    OverCap earlier m ↔ r.limit < place r.window (timesOf k earlier) m.time := by
  constructor
  · rintro ⟨k', r', hk', hr', h⟩
    obtain rfl := Option.some.inj (hk.symm.trans hk')
    obtain rfl := Option.some.inj (hr.symm.trans hr')
    exact h
  · exact fun h => ⟨k, r, hk, hr, h⟩

/-! ### What the gate knows -/

/-- Every limit lets a message pass, and every window has a length. -/
lemma rateLimits_pos {k : Kind} {r : RateLimit} (hr : rateLimits k = some r) :
    0 < r.limit ∧ 0 < r.window := by
  cases k <;> simp only [rateLimits, Option.some.injEq, reduceCtorEq] at hr
  all_goals
    subst hr
    norm_num

lemma limit_pos {k : Kind} {r : RateLimit} (hr : rateLimits k = some r) : 0 < r.limit :=
  (rateLimits_pos hr).1

/-- The bucket kept of a window: its count stops at the limit. -/
def RateLimit.bucket (r : RateLimit) (b : ℚ × ℕ) : ℚ × ℕ := (b.1, min r.limit b.2)

namespace Peer

variable {p : Peer} {k : Kind} {r : RateLimit}

/-- A message passes by its place in its window; its bucket is kept, and the strikes start again
when it does. -/
lemma allow_eq (hr : 0 < r.limit) {w : Option (ℚ × ℕ)} (hb : p.buckets k = w.map r.bucket)
    {now : ℚ} {j : ℚ × ℕ} (hj : joinWindow r.window now w = j) :
    p.allow k r now = (decide (j.2 ≤ r.limit),
      { buckets := Function.update p.buckets k (some (r.bucket j)),
        strikes := if j.2 ≤ r.limit then 0 else p.strikes + 1 }) := by
  have hpos : 1 ≤ r.limit := hr
  rcases w with _ | ⟨start, n⟩
  · rw [Option.map_none] at hb
    subst hj
    simp [allow, hb, openBucket, joinWindow, RateLimit.bucket, hpos]
  simp only [Option.map_some, RateLimit.bucket] at hb
  simp only [joinWindow] at hj
  simp only [allow, hb]
  by_cases hw : r.window ≤ now - start
  · rw [if_pos hw] at hj ⊢
    subst hj
    simp [openBucket, RateLimit.bucket, hpos]
  rw [if_neg hw] at hj ⊢
  subst hj
  by_cases hn : r.limit ≤ n
  · -- The count stays at the limit, and the bucket as it is.
    have hcap : min r.limit (n + 1) = min r.limit n := by omega
    have hself : Function.update p.buckets k (some (start, min r.limit n)) = p.buckets := by
      rw [← hb, Function.update_eq_self]
    have hplace : ¬ n + 1 ≤ r.limit := by omega
    rw [if_pos (le_min le_rfl hn), RateLimit.bucket, hcap, hself, if_neg hplace,
      decide_eq_false hplace]
  · have hcap : min r.limit n + 1 = min r.limit (n + 1) := by omega
    have hplace : n + 1 ≤ r.limit := by omega
    rw [if_neg (fun h => hn (h.trans (min_le_right _ _))), RateLimit.bucket, hcap,
      if_pos hplace, decide_eq_true hplace]

/-- A message of a kind without a limit passes. -/
lemma dispatch_of_not_limited {m : Arrival} (hm : m.limited = false) (p : Peer) :
    p.dispatch m = (p, .passed) := by
  rw [Arrival.limited, Option.isSome_eq_false_iff, Option.isNone_iff_eq_none] at hm
  cases hk : m.kind with
  | none => rw [dispatch, hk]
  | some k =>
      rw [hk, Option.bind_some] at hm
      simp [dispatch, hk, hm]

lemma dispatch_of_kind {m : Arrival} (hk : m.kind = some k) (hr : rateLimits k = some r)
    (p : Peer) : p.dispatch m = ((p.allow k r m.time).2,
      if (p.allow k r m.time).1 then .passed
      else if hardRateStrikes ≤ (p.allow k r m.time).2.strikes then .dropped else .ignored) := by
  simp only [dispatch, hk, hr]
  rcases p.allow k r m.time with ⟨_ | _, q⟩ <;> simp

/-- What the gate knows after some messages: the window of every kind, and how many of the last
messages with a limit were over their cap. -/
structure Follows (p : Peer) (msgs : List Arrival) : Prop where
  buckets : ∀ k r, rateLimits k = some r →
    p.buckets k = (lastWindow r.window (timesOf k msgs)).map r.bucket
  strikes : InARow.Counter Arrival.limited OverCap msgs p.strikes

namespace Follows

variable {msgs : List Arrival} {m : Arrival}

/-- A message with a limit is refused if it is over its cap. -/
lemma allow_eq (h : p.Follows msgs) (hk : m.kind = some k) (hr : rateLimits k = some r) :
    ((p.allow k r m.time).1 = true ↔ ¬ OverCap msgs m) ∧
    (p.allow k r m.time).2.buckets = Function.update p.buckets k
      (some (r.bucket (joinWindow r.window m.time (lastWindow r.window (timesOf k msgs))))) ∧
    (¬ OverCap msgs m → (p.allow k r m.time).2.strikes = 0) ∧
    (OverCap msgs m → (p.allow k r m.time).2.strikes = p.strikes + 1) := by
  have hover : OverCap msgs m ↔ _ := overCap_iff hk hr
  rw [place] at hover
  rw [Peer.allow_eq (limit_pos hr) (h.buckets k r hr) rfl]
  refine ⟨?_, rfl, fun hn => if_pos ?_, fun hn => if_neg ?_⟩
  · rw [decide_eq_true_iff, hover, not_lt]
  · exact not_lt.mp fun hlt => hn (hover.mpr hlt)
  · exact not_le.mpr (hover.mp hn)

lemma passed_iff (h : p.Follows msgs) : (p.dispatch m).2 = .passed ↔ ¬ OverCap msgs m := by
  cases hm : m.limited with
  | false =>
      rw [dispatch_of_not_limited hm]
      exact iff_of_true rfl fun hover => absurd hover.limited (by simp [hm])
  | true =>
      obtain ⟨k, r, hk, hr⟩ := Arrival.limited_iff.mp hm
      rw [dispatch_of_kind hk hr, ← (h.allow_eq hk hr).1]
      split_ifs <;> simp_all

/-- One message keeps the account. -/
lemma dispatch (h : p.Follows msgs) (m : Arrival) : (p.dispatch m).1.Follows (msgs ++ [m]) := by
  cases hm : m.limited with
  | false =>
      rw [dispatch_of_not_limited hm]
      refine ⟨fun k r hr => ?_, h.strikes.skip hm⟩
      have hk : m.kind ≠ some k := fun hk => by
        rw [Arrival.limited_iff.mpr ⟨k, r, hk, hr⟩] at hm
        exact Bool.noConfusion hm
      rw [timesOf_concat_of_ne hk, h.buckets k r hr]
  | true =>
      obtain ⟨k, r, hk, hr⟩ := Arrival.limited_iff.mp hm
      obtain ⟨-, hbuckets, hpass, hrefuse⟩ := h.allow_eq hk hr
      rw [dispatch_of_kind hk hr]
      refine ⟨fun k' r' hr' => ?_, ?_⟩
      · rw [hbuckets]
        by_cases hkk : k' = k
        · obtain rfl := hkk
          obtain rfl := Option.some.inj (hr.symm.trans hr')
          rw [Function.update_self, timesOf_concat_of_kind hk, lastWindow_concat, Option.map_some]
        · have hne : m.kind ≠ some k' := fun h' => hkk (Option.some.inj (h'.symm.trans hk))
          rw [Function.update_of_ne hkk, timesOf_concat_of_ne hne, h.buckets k' r' hr']
      · by_cases hover : OverCap msgs m
        · rw [hrefuse hover]
          exact h.strikes.hit hm hover
        · rw [hpass hover]
          exact InARow.Counter.miss hm hover

end Follows

/-- The account holds of every connection. -/
lemma follows_after (msgs : List Arrival) : (after msgs).Follows msgs := by
  induction msgs using List.reverseRecOn with
  | nil => exact ⟨fun k r _ => by simp [after, timesOf], InARow.Counter.nil⟩
  | append_singleton msgs m ih =>
      rw [after_concat]
      exact ih.dispatch m

end Peer

/-! ### Served work -/

/-- The calls of `_Peer.allow` for a kind that return true, each with the messages before it. -/
def servedOf (k : Kind) (r : RateLimit) (msgs : List Arrival) : List (List Arrival × Arrival) :=
  (withEarlier [] msgs).filter fun c => c.2.ofKind k && ((Peer.after c.1).allow k r c.2.time).1

/-- The start of the window in which a kind is counted. -/
def Peer.windowStart (p : Peer) (k : Kind) : Option ℚ := (p.buckets k).map Prod.fst

section Served

variable {k : Kind} {r : RateLimit} (hr : rateLimits k = some r)

include hr

/-- A call is allowed by its place among the calls of its kind. -/
lemma allowed_iff (earlier : List Arrival) (now : ℚ) :
    ((Peer.after earlier).allow k r now).1 = true ↔
      place r.window (timesOf k earlier) now ≤ r.limit := by
  rw [Peer.allow_eq (limit_pos hr) ((Peer.follows_after earlier).buckets k r hr) rfl,
    decide_eq_true_iff, place]

/-- The window of a call is that of its place. -/
lemma windowStart_concat {earlier : List Arrival} {m : Arrival} (hk : m.kind = some k) :
    (Peer.after (earlier ++ [m])).windowStart k =
      some (joinWindow r.window m.time (lastWindow r.window (timesOf k earlier))).1 := by
  rw [Peer.windowStart, (Peer.follows_after _).buckets k r hr, timesOf_concat_of_kind hk,
    lastWindow_concat]
  rfl

/-- The calls served of a kind are served by their times. -/
lemma servedOf_eq (msgs : List Arrival) :
    (servedOf k r msgs).map (fun c => (timesOf k c.1, c.2.time)) =
      served r.window r.limit (timesOf k msgs) := by
  induction msgs using List.reverseRecOn with
  | nil => rfl
  | append_singleton msgs m ih =>
      rw [servedOf, withEarlier_concat, List.filter_append, List.map_append, List.nil_append,
        ← servedOf, ih]
      by_cases hk : m.kind = some k
      · rw [timesOf_concat_of_kind hk, served, served, withEarlier_concat, List.filter_append,
          List.nil_append]
        congr 1
        by_cases hplace : place r.window (timesOf k msgs) m.time ≤ r.limit
        · simp [Arrival.ofKind, hk, (allowed_iff hr msgs m.time).mpr hplace, hplace]
        · simp [Arrival.ofKind, hk, mt (allowed_iff hr msgs m.time).mp hplace, hplace]
      · rw [timesOf_concat_of_ne hk]
        simp [Arrival.ofKind, hk]

lemma count_servedOf_le {msgs : List Arrival}
    (hclock : msgs.Pairwise fun a b => a.time ≤ b.time) {I : ℚ → Prop} [DecidablePred I]
    (hI : ∀ x y, I x → I y → y - x < r.window) :
    (servedOf k r msgs).countP (fun c => I c.2.time) ≤ 2 * r.limit := by
  have htimes : (timesOf k msgs).Pairwise (· ≤ ·) :=
    List.pairwise_map.mpr (hclock.sublist List.filter_sublist)
  have hcount := count_interval_le hI (limit_pos hr) htimes
  rwa [← servedOf_eq hr, List.countP_map] at hcount

lemma count_servedOf_window_le (msgs : List Arrival) (start : ℚ) :
    (servedOf k r msgs).countP
      (fun c => (Peer.after (c.1 ++ [c.2])).windowStart k = some start) ≤ r.limit := by
  have hcount : (served r.window r.limit (timesOf k msgs)).countP _ ≤ r.limit :=
    count_window_le (rateLimits_pos hr).2 _ start
  rw [← servedOf_eq hr, List.countP_map] at hcount
  refine (List.countP_congr fun c hc => ?_).trans_le hcount
  have hk : c.2.kind = some k := by
    have hkind := List.of_mem_filter hc
    simp only [Arrival.ofKind, Bool.and_eq_true, decide_eq_true_eq] at hkind
    exact hkind.1
  simp [windowStart_concat hr hk]

end Served

/-- **The gate bounds served work.**  In a sequence of messages whose clock does not run back, in
any half-open interval of the length of the window of a kind at most twice as many calls of the
kind are allowed as its limit, and in a window of the gate at most as many; and whether one is
allowed depends on the earlier calls of the same kind only. -/
theorem served_bounded {k : Kind} {r : RateLimit} (hr : rateLimits k = some r)
    (msgs : List Arrival) (hclock : msgs.Pairwise fun a b => a.time ≤ b.time) :
    (∀ a, (servedOf k r msgs).countP
        (fun c => a ≤ c.2.time ∧ c.2.time < a + r.window) ≤ 2 * r.limit)
      ∧ (∀ a, (servedOf k r msgs).countP
        (fun c => a < c.2.time ∧ c.2.time ≤ a + r.window) ≤ 2 * r.limit)
      ∧ (∀ start, (servedOf k r msgs).countP
        (fun c => (Peer.after (c.1 ++ [c.2])).windowStart k = some start) ≤ r.limit)
      ∧ ∀ earlier earlier', timesOf k earlier = timesOf k earlier' → ∀ now,
        ((Peer.after earlier).allow k r now).1 = ((Peer.after earlier').allow k r now).1 := by
  refine ⟨fun a => ?_, fun a => ?_, count_servedOf_window_le hr msgs,
    fun earlier earlier' htimes now => ?_⟩
  · refine count_servedOf_le hr hclock (I := fun t => a ≤ t ∧ t < a + r.window) fun x y hx hy => ?_
    linarith [hx.1, hy.2]
  · refine count_servedOf_le hr hclock (I := fun t => a < t ∧ t ≤ a + r.window) fun x y hx hy => ?_
    linarith [hx.1, hy.2]
  · rw [Bool.eq_iff_iff, allowed_iff hr, allowed_iff hr, htimes]

/-- Of sixty-one requests for shares at once no more than sixty are served in ten seconds. -/
theorem served_bounded_requests :
    (servedOf .getshares ⟨30, 10⟩ (List.replicate 61 { kind := some .getshares, time := 1 })).countP
      (fun c => (1 : ℚ) ≤ c.2.time ∧ c.2.time < 1 + 10) ≤ 2 * 30 :=
  (served_bounded (k := .getshares) rfl (List.replicate 61 { kind := some .getshares, time := 1 })
    (List.pairwise_replicate.mpr (.inr le_rfl))).1 1

/-! ### Floods -/

/-- The gate refuses the messages over their cap: those of other kinds do not matter. -/
lemma refused_iff_overCap (earlier : List Arrival) (m : Arrival) :
    Refused earlier m ↔ OverCap earlier m := by
  rw [Refused, Ne, (Peer.follows_after earlier).passed_iff, not_not]

/-- A peer is dropped at a message over its cap when the last messages with a limit all were. -/
lemma dropped_iff (msgs : List Arrival) (m : Arrival) :
    ((Peer.after msgs).dispatch m).2 = .dropped ↔ OverCap msgs m ∧
      InARow Arrival.limited OverCap hardRateStrikes (msgs ++ [m]) := by
  have hpassed := (Peer.follows_after msgs).passed_iff (m := m)
  have hstrikes := (Peer.follows_after (msgs ++ [m])).strikes hardRateStrikes
  rw [Peer.after_concat] at hstrikes
  rw [hstrikes]
  cases hm : m.limited with
  | false =>
      rw [Peer.dispatch_of_not_limited hm]
      exact iff_of_false (by simp) fun h => absurd h.1.limited (by simp [hm])
  | true =>
      obtain ⟨k, r, hk, hr⟩ := Arrival.limited_iff.mp hm
      rw [Peer.dispatch_of_kind hk hr] at hpassed ⊢
      split_ifs at hpassed ⊢ with hallow hhard
      · exact iff_of_false (by simp) fun h => hpassed.mp rfl h.1
      · simpa [hhard] using hpassed
      · simp [hhard]

/-- A flood has its peer dropped exactly when the last messages with a limit, of whatever kind,
were all over their cap.  (A message that opens a window passes, so the messages of a flood are of
one window.) -/
theorem flood_dropped_iff (k : Kind) (msgs : List Arrival) (m : Arrival) (hk : m.kind = some k)
    (hflood : InARow (·.ofKind k) Refused hardRateStrikes (msgs ++ [m])) :
    ((Peer.after msgs).dispatch m).2 = .dropped ↔
      InARow Arrival.limited OverCap hardRateStrikes (msgs ++ [m]) := by
  have hrefused : Refused msgs m := by
    rcases inARow_concat.mp hflood with h | ⟨h, -⟩
    · exact absurd h (by decide)
    · exact h (by simp [Arrival.ofKind, hk])
  rw [dropped_iff, ← refused_iff_overCap]
  exact and_iff_right hrefused

/-- Thirty-five requests for shares at once have their peer dropped. -/
theorem flood_dropped_iff_requests :
    let m : Arrival := { kind := some .getshares, time := 0 }
    ((Peer.after (List.replicate 34 m)).dispatch m).2 = .dropped := by
  intro m
  have hsplit : List.replicate 34 m ++ [m] = List.replicate 30 m ++ List.replicate 5 m := rfl
  have hflood : InARow (·.ofKind .getshares) Refused hardRateStrikes
      (List.replicate 34 m ++ [m]) :=
    ⟨_, _, hsplit, by decide +kernel, by decide +kernel⟩
  have hlimited : InARow Arrival.limited Refused hardRateStrikes (List.replicate 34 m ++ [m]) :=
    ⟨_, _, hsplit, by decide +kernel, by decide +kernel⟩
  exact (flood_dropped_iff .getshares (List.replicate 34 m) m rfl hflood).mpr
    (hlimited.mono fun earlier a => (refused_iff_overCap earlier a).mp)

/-- Thirty requests for shares, and then more of them with a hello after each. -/
def interruptedFlood : List Arrival := (List.range 38).map fun i : ℕ =>
  { kind := some (if i < 30 ∨ i % 2 = 0 then .getshares else .hello), time := (i : ℚ) / 10 }

/-- The last five requests for shares are refused, in order and in one window, and the peer is
never dropped: each hello that passes has the strikes start again. -/
theorem flood_not_dropped :
    let m : Arrival := { kind := some .getshares, time := 38 / 10 }
    (interruptedFlood ++ [m]).Pairwise (fun a b => a.time ≤ b.time) ∧
    InARow (·.ofKind .getshares) Refused hardRateStrikes (interruptedFlood ++ [m]) ∧
    AllFrom (fun earlier a => ((Peer.after earlier).dispatch a).2 ≠ .dropped) []
      (interruptedFlood ++ [m]) := by
  intro m
  have hsplit : interruptedFlood ++ [m] =
      interruptedFlood.take 30 ++ (interruptedFlood.drop 30 ++ [m]) := by
    rw [← List.append_assoc, List.take_append_drop]
  exact ⟨by decide +kernel, ⟨_, _, hsplit, by decide +kernel, by decide +kernel⟩,
    by decide +kernel⟩

end P2Pearl
