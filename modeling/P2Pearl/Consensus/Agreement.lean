import P2Pearl.Consensus.Selection
import P2Pearl.Consensus.TargetLimit
import P2Pearl.Consensus.Work

/-!
Two sharechains that have admitted shares from one pool in which ids do not collide.

* `Agree`: no id names two shares; `agree_of_pool`: the two records agree.
* `expectedTarget_agree`, `Lawful.ancestry_agree`: where both derive a target it is the same one,
  and a share both hold has one ancestry; so it has the same work (`cumulative_agree`).
* `valid_of_accepted`: a share without uncles that one has accepted, on target, is valid in the
  other as soon as that holds its predecessor.
-/

namespace P2Pearl

variable {P : Params} {S S' : Shares}

/-! ### Agreement -/

/-- No id names different shares in the two sets. -/
def Agree (S S' : Shares) : Prop := ∀ k s s', S k = some s → S' k = some s' → s = s'

lemma Agree.of_subMap {T T' : Shares} (h : Agree S S') (hT : SubMap T S) (hT' : SubMap T' S') :
    Agree T T' :=
  fun k s s' hs hs' => h k s s' (hT k s hs) (hT' k s' hs')

lemma lookBack_agree (h : Agree S S') {n : ℕ} {cur : Hash32} {l l' : List ShareBlock}
    (hl : lookBack S n cur = some l) (hl' : lookBack S' n cur = some l') : l = l' := by
  induction n generalizing cur l l' with
  | zero =>
      cases hl
      cases hl'
      rfl
  | succ n ih =>
      rw [lookBack] at hl hl'
      split_ifs at hl hl' with hg
      · cases hl
        cases hl'
        rfl
      · cases hs : S cur with
        | none => rw [hs] at hl; cases hl
        | some s =>
            cases hs' : S' cur with
            | none => rw [hs'] at hl'; cases hl'
            | some s' =>
                obtain rfl := h cur s s' hs hs'
                rw [hs] at hl
                rw [hs'] at hl'
                obtain ⟨older, holder, rfl⟩ := Option.map_eq_some_iff.mp hl
                obtain ⟨older', holder', rfl⟩ := Option.map_eq_some_iff.mp hl'
                rw [ih holder holder']

/-- Where both sets derive a target, it is the same. -/
lemma expectedTarget_agree (h : Agree S S') {prev : Hash32} {timestamp : Option ℕ} {t t' : ℕ}
    (ht : expectedTarget P S prev timestamp = some t)
    (ht' : expectedTarget P S' prev timestamp = some t') : t = t' := by
  rw [expectedTarget] at ht ht'
  split_ifs at ht ht' with hg
  · exact Option.some.inj (ht.symm.trans ht')
  · cases hs : S prev with
    | none => rw [hs] at ht; cases ht
    | some s =>
        cases hs' : S' prev with
        | none => rw [hs'] at ht'; cases ht'
        | some s' =>
            obtain rfl := h prev s s' hs hs'
            rw [hs] at ht
            rw [hs'] at ht'
            obtain ⟨older, holder, rfl⟩ := Option.map_eq_some_iff.mp ht
            obtain ⟨older', holder', rfl⟩ := Option.map_eq_some_iff.mp ht'
            rw [lookBack_agree h holder holder']

namespace Lawful

variable {k : Hash32} {s : ShareBlock} (hS : Lawful S) (hS' : Lawful S') (h : Agree S S')

include hS hS' h

/-- A share of both sets has the same ancestry in both. -/
lemma ancestry_agree (hs : S k = some s) (hs' : S' k = some s) :
    ancestry S' k s = ancestry S k s := by
  induction hn : s.sidechainHeight generalizing k s with
  | zero =>
      by_cases hg : s.prevShareId = genesisPrev
      · rw [ancestry_of_genesis hs hg, ancestry_of_genesis hs' hg]
      · obtain ⟨p, -, hh⟩ := hS.parent k s hs hg
        omega
  | succ n ih =>
      by_cases hg : s.prevShareId = genesisPrev
      · rw [ancestry_of_genesis hs hg, ancestry_of_genesis hs' hg]
      · obtain ⟨p, hp, hh⟩ := hS.parent k s hs hg
        obtain ⟨p', hp', -⟩ := hS'.parent k s hs' hg
        obtain rfl := h _ p p' hp hp'
        rw [ancestry_of_parent hs hg hh, ancestry_of_parent hs' hg hh, ih hp hp' (by omega)]

/-- And the same work behind it. -/
lemma workOver_agree (hs : S k = some s) (hs' : S' k = some s) :
    workOver S' (ancestry S' k s) = workOver S (ancestry S k s) := by
  have heq := hS.ancestry_agree hS' h hs hs'
  rw [workOver, workOver, heq]
  congr 2
  refine List.map_congr_left fun uid huid => ?_
  obtain ⟨⟨i, t⟩, ht, hu⟩ := mem_uncleRefs.mp huid
  obtain ⟨u, hstored, -⟩ := hS.uncle i t (stored_of_mem_trail ht) uid hu
  obtain ⟨u', hstored', -⟩ := hS'.uncle i t (stored_of_mem_trail (heq ▸ ht)) uid hu
  rw [workAt, workAt, hstored, hstored', h uid u u' hstored hstored']

end Lawful

/-! ### One pool -/

/-- What is on record is stored under its own id, and came with one of the calls. -/
lemma mem_record {calls : List Call} {k : Hash32} {s : ShareBlock}
    (h : (run P calls).record.get k = some s) :
    s.shareId = .ok k ∧ s ∈ calls.map Call.share := by
  obtain ⟨e, he, rfl⟩ := Store.get_eq_some_iff.mp h
  exact mem_accepted calls (mem_of_recordOf he)

section Pool

variable {pool : List ShareBlock} (hpool : CollisionFree pool) {calls calls' : List Call}
  (hcalls : calls.map Call.share ⊆ pool) (hcalls' : calls'.map Call.share ⊆ pool)

include hpool hcalls hcalls'

lemma agree_of_pool : Agree (run P calls).record.get (run P calls').record.get := by
  intro k s s' hs hs'
  obtain ⟨hid, hmem⟩ := mem_record hs
  obtain ⟨hid', hmem'⟩ := mem_record hs'
  exact hpool s (hcalls hmem) s' (hcalls' hmem') k hid hid'

/-- A share on both records has the same cumulative difficulty on both. -/
lemma cumulative_agree {k : Hash32} {e e' : Entry} (he : (run P calls).record k = some e)
    (he' : (run P calls').record k = some e') :
    e'.cumulativeDifficulty = e.cumulativeDifficulty := by
  have hledger := run_ledger (P := P) calls (hpool.mono hcalls)
  have hledger' := run_ledger (P := P) calls' (hpool.mono hcalls')
  have hagree := agree_of_pool (P := P) hpool hcalls hcalls'
  have hshare := hagree k _ _ (Store.get_of_some he) (Store.get_of_some he')
  have hget := Store.get_of_some he'
  rw [← hshare] at hget
  rw [hledger.work k e he, hledger'.work k e' he', ← hshare]
  exact hledger.lawful.workOver_agree hledger'.lawful hagree (Store.get_of_some he) hget

/-- **What one sharechain has accepted, another admits**: a share without uncles that carries the
limit its position demands is valid as soon as its predecessor is stored. -/
lemma valid_of_accepted {k : Hash32} {s : ShareBlock} {now : ℚ}
    (hs : (run P calls').record.get k = some s) (huncles : s.uncleIds = [])
    (htarget : OnTarget P (run P calls') s)
    (hclock : (s.timestamp : ℚ) ≤ now + maxTimestampDriftSeconds)
    (hfresh : (run P calls).chain.entries.get k = none)
    (hlinked : s.prevShareId = genesisPrev
      ∨ ∃ p, (run P calls).chain.entries.get s.prevShareId = some p) :
    Valid P (run P calls).chain.entries.get s now k := by
  obtain ⟨e, he, rfl⟩ := Store.get_eq_some_iff.mp hs
  obtain ⟨past, call, hpre, hadm⟩ := admits_of_accepted calls' (mem_of_recordOf he)
  have hvalid := hadm.valid
  rw [← hadm.share] at hvalid
  refine ⟨hfresh, hvalid.version, hclock, hvalid.coinbase, huncles ▸ List.nodup_nil,
    huncles ▸ List.not_mem_nil, ?_⟩
  rcases hvalid.linked with hf | ⟨p', hx⟩
  · exact Or.inl hf
  · obtain ⟨p, hp⟩ := hlinked.resolve_left hx.prev
    have hpast : past.map Call.share ⊆ pool := fun t ht => hcalls' ((hpre.map Call.share).subset
      (by rw [List.map_append]; exact List.mem_append_left _ ht))
    have hsame : p = p' := agree_of_pool (P := P) hpool hcalls hpast _ p p'
      (Store.subMap_get (subMap_record calls) _ p hp)
      (Store.subMap_get (subMap_record past) _ p' hx.stored)
    subst hsame
    refine Or.inr ⟨p, hx.prev, hp, hx.height, hx.timestamp, hx.parentHeight, fun t ht => ?_,
      fun uid hu => absurd (huncles ▸ hu) List.not_mem_nil⟩
    have hchain := Store.subMap_get (subMap_record (P := P) calls)
    have hagree := (agree_of_pool (P := P) hpool hcalls hcalls').of_subMap hchain (SubMap.refl _)
    exact (expectedTarget_agree hagree ht htarget).symm

end Pool

end P2Pearl
