import P2Pearl.Consensus.Share
import P2Pearl.Consensus.Split

/-!
`serialize_payouts` of `daemon.py`: the encoding of a payout list that a share commits to.

* `serializePayouts_eq_ok_iff`: it succeeds exactly when there are fewer than `2 ^ 32` payouts,
  each to an ASCII address shorter than `2 ^ 16` and of fewer than `2 ^ 64` grains.
* `serializePayouts_inj`: two lists with one encoding are equal, order included.
* `split_of_totals`: the payouts, their encoding and its hash depend on the totals of the
  addresses only.
-/

namespace P2Pearl

/-- The encoding of one payout in `serialize_payouts`. -/
def serializePayout (p : Payout) : Except PyError Bytes := do
  let addr ← encodeAscii p.address
  let addrLen ← pack 2 addr.length
  let grains ← pack 8 p.grains
  return addrLen ++ (addr ++ grains)

/-- `serialize_payouts`. -/
def serializePayouts (payouts : List Payout) : Except PyError Bytes := do
  let count ← pack 4 payouts.length
  let out ← payouts.mapM serializePayout
  return count ++ out.flatten

/-- The widths `serialize_payouts` demands of a payout. -/
structure Payout.Encodable (p : Payout) : Prop where
  ascii : IsAscii p.address
  address : p.address.length < 2 ^ 16
  grains : p.grains < 2 ^ 64

/-- The bytes of an encodable payout. -/
def Payout.wire (p : Payout) : Bytes :=
  leBytes 2 p.address.length ++ ((p.address.map fun c => UInt8.ofNat c.toNat) ++ leBytes 8 p.grains)

lemma serializePayout_eq_ok_iff {p : Payout} {b : Bytes} :
    serializePayout p = .ok b ↔ p.Encodable ∧ p.wire = b := by
  simp only [serializePayout, bind_eq_ok_iff, pack_eq_ok_iff, encodeAscii_eq_ok_iff]
  constructor
  · rintro ⟨_, ⟨h₁, rfl⟩, _, ⟨h₂, rfl⟩, _, ⟨h₃, rfl⟩, h⟩
    rw [List.length_map] at h₂
    refine ⟨⟨h₁, by omega, by omega⟩, ?_⟩
    simpa [Payout.wire, pure, Except.pure] using h
  · rintro ⟨h, rfl⟩
    exact ⟨_, ⟨h.ascii, rfl⟩, _, ⟨by simpa using h.address, rfl⟩, _, ⟨by simpa using h.grains, rfl⟩,
      by simp [Payout.wire, pure, Except.pure]⟩

/-- `serialize_payouts` raises on exactly the lists that are too long or have a payout too wide. -/
lemma serializePayouts_eq_ok_iff {payouts : List Payout} {b : Bytes} :
    serializePayouts payouts = .ok b ↔ payouts.length < 2 ^ 32 ∧ (∀ p ∈ payouts, p.Encodable)
      ∧ leBytes 4 payouts.length ++ payouts.flatMap Payout.wire = b := by
  simp only [serializePayouts, bind_eq_ok_iff, pack_eq_ok_iff]
  have hmap : (∀ p ∈ payouts, p.Encodable) →
      payouts.mapM serializePayout = .ok (payouts.map Payout.wire) := fun h =>
    mapM_eq_ok_map fun p hp => serializePayout_eq_ok_iff.mpr ⟨h p hp, rfl⟩
  constructor
  · rintro ⟨_, ⟨hlen, rfl⟩, bs, hbs, h⟩
    have henc : ∀ p ∈ payouts, p.Encodable := fun p hp => by
      obtain ⟨b, hb⟩ := of_mapM_eq_ok hbs p hp
      exact (serializePayout_eq_ok_iff.mp hb).1
    cases Except.ok.inj ((hmap henc).symm.trans hbs)
    refine ⟨by omega, henc, ?_⟩
    simpa [List.flatMap, pure, Except.pure] using h
  · rintro ⟨hlen, henc, rfl⟩
    exact ⟨_, ⟨by omega, rfl⟩, _, hmap henc, rfl⟩

/-- An encoded payout can be read off the front of any bytes it begins. -/
lemma Payout.wire_append_inj {p q : Payout} (hp : p.Encodable) (hq : q.Encodable) {t u : Bytes}
    (h : p.wire ++ t = q.wire ++ u) : p = q ∧ t = u := by
  have hlen : ∀ a : PyStr, (a.map fun c => UInt8.ofNat c.toNat).length = a.length :=
    fun a => List.length_map _
  rw [Payout.wire, Payout.wire] at h
  simp only [List.append_assoc] at h
  obtain ⟨h₁, h⟩ := List.append_inj h (by simp)
  have hsize := leBytes_inj (by simpa using hp.address) (by simpa using hq.address) h₁
  obtain ⟨h₂, h⟩ := List.append_inj h (by rw [hlen, hlen, hsize])
  obtain ⟨h₃, htail⟩ := List.append_inj h (by simp)
  have haddr : p.address = q.address := by
    have := decodeAscii_encodeAscii hp.ascii
    rw [h₂, decodeAscii_encodeAscii hq.ascii] at this
    exact (Except.ok.inj this).symm
  have hgrains := leBytes_inj (by simpa using hp.grains) (by simpa using hq.grains) h₃
  cases p; cases q
  simp only at haddr hgrains
  exact ⟨by rw [haddr, hgrains], htail⟩

/-- **The encoding binds the list**: two lists with one encoding are equal. -/
lemma serializePayouts_inj {ps qs : List Payout} {b : Bytes} (hp : serializePayouts ps = .ok b)
    (hq : serializePayouts qs = .ok b) : ps = qs := by
  obtain ⟨hlen, henc, rfl⟩ := serializePayouts_eq_ok_iff.mp hp
  obtain ⟨hlen', henc', heq⟩ := serializePayouts_eq_ok_iff.mp hq
  obtain ⟨hcount, hbody⟩ := List.append_inj heq (by simp)
  have hsize := leBytes_inj (by simpa using hlen') (by simpa using hlen) hcount
  clear hp hq heq hcount hlen hlen'
  induction ps generalizing qs with
  | nil => exact (List.length_eq_zero_iff.mp hsize).symm
  | cons p ps ih =>
      cases qs with
      | nil => cases hsize
      | cons q qs =>
          rw [List.flatMap_cons, List.flatMap_cons] at hbody
          obtain ⟨hpq, hrest⟩ := Payout.wire_append_inj (henc' q List.mem_cons_self)
            (henc p List.mem_cons_self) hbody
          rw [hpq, ih (fun x hx => henc x (List.mem_cons_of_mem _ hx))
            (fun x hx => henc' x (List.mem_cons_of_mem _ hx)) hrest (by simpa using hsize)]

/-- **One set of totals, one payout set.**  Two weight lists that give every address the same sum
of positive weights have the same payouts, or the same error, and so the same encoding and the
same `payout_set_hash`. -/
theorem split_of_totals (reward minPayout : ℤ) {weights weights' : List (PyStr × ℤ)}
    (h : ∀ a, positiveWeight weights a = positiveWeight weights' a) :
    computePplnsPayoutsInt reward weights minPayout
        = computePplnsPayoutsInt reward weights' minPayout
      ∧ (computePplnsPayoutsInt reward weights minPayout >>= serializePayouts)
        = (computePplnsPayoutsInt reward weights' minPayout >>= serializePayouts)
      ∧ (computePplnsPayoutsInt reward weights minPayout >>= serializePayouts).map doubleSha256
        = (computePplnsPayoutsInt reward weights' minPayout >>= serializePayouts).map
            doubleSha256 := by
  have heq : computePplnsPayoutsInt reward weights minPayout
      = computePplnsPayoutsInt reward weights' minPayout := by
    rw [computePplnsPayoutsInt, computePplnsPayoutsInt, computePplnsPayouts_congr _ _ h]
  rw [heq]
  exact ⟨rfl, rfl, rfl⟩

/-- Two lists of weights with the same totals. -/
theorem split_of_totals_pair :
    computePplnsPayoutsInt 100 [(['a'], 2), (['b'], 1)] 0
      = computePplnsPayoutsInt 100 [(['b'], 1), (['a'], 1), (['c'], -3), (['a'], 1)] 0 := by
  refine (split_of_totals 100 0 fun x => ?_).1
  simp only [positiveWeight, List.map_cons, List.map_nil, sumAt_cons, sumAt_nil]
  split_ifs <;> rfl

end P2Pearl
