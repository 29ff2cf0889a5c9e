import P2Pearl.Chain.Coinbase
import P2Pearl.Consensus.Selection
import P2Pearl.Daemon.Job

/-!
Whether the payouts of a reachable chain can be paid.

* `payee_mined`: every payee mined an accepted share, so payees are ASCII.
* `coinbase_builds`: in a run that lets only payable addresses in (`KeepsPayable`), every payout
  list of every state reached is serialized and turned into a coinbase.
* `coinbase_unpayable`: the rules do not look at the address, so one accepted share can stop every
  coinbase.
-/

namespace P2Pearl

variable {P : Params} {B : Bitcoinutils}

/-- An address the payout encoding can length-prefix and the coinbase can pay. -/
def Payable (B : Bitcoinutils) (address : PyStr) : Prop :=
  address.length < 2 ^ 16 ∧ ∃ script, p2trScript B address = .ok script

/-- The payouts can be serialized and, for any share id, turned into the outputs of a coinbase of
the given value and their scripts. -/
def CoinbaseBuilds (B : Bitcoinutils) (payouts : List Payout) (coinbaseValue : ℕ) : Prop :=
  (∃ b, serializePayouts payouts = .ok b)
    ∧ ∀ shareId : Hash32, ∃ outputs scripts,
        buildCoinbaseOutputs payouts shareId.bytes coinbaseValue = .ok outputs
          ∧ coinbaseScripts B outputs = .ok scripts

/-! ### The payees -/

section Payees

variable {calls : List Call} {tipId : Option Hash32} {reward minPayout : ℕ} {p : Payout}
  (hp : p ∈ computePplnsPayouts reward ((run P calls).chain.pplnsWeights P tipId) minPayout)

include hp

/-- Every payee mined an accepted share. -/
lemma payee_mined : ∃ q ∈ (run P calls).accepted, q.2.share.minerAddress = p.address := by
  obtain ⟨k, s, hs, ha⟩ := mem_windowWeights (mem_weights_of_mem_payouts hp)
  obtain ⟨e, he, rfl⟩ := Store.get_eq_some_iff.mp hs
  exact ⟨(k, e), mem_of_recordOf (subMap_record calls k e he), ha⟩

lemma payee_encodable (hreward : reward < 2 ^ 64) (haddr : p.address.length < 2 ^ 16) :
    p.Encodable := by
  refine ⟨?_, haddr, ?_⟩
  · obtain ⟨⟨k, e⟩, hq, ha⟩ := payee_mined hp
    rw [← ha]
    exact (ShareBlock.shareId_eq_ok_iff.mp (mem_accepted calls hq).1).1.ascii
  · have hle : p.grains ≤ ((computePplnsPayouts reward ((run P calls).chain.pplnsWeights P tipId)
        minPayout).map Payout.grains).sum :=
      List.single_le_sum (fun _ _ => Nat.zero_le _) _ (List.mem_map_of_mem hp)
    exact (hle.trans (sum_grains_le _ _ _)).trans_lt hreward

end Payees

/-- There are at most as many weighed addresses as accepted shares. -/
lemma weights_length_le (calls : List Call) (tipId : Option Hash32) :
    ((run P calls).chain.pplnsWeights P tipId).length ≤ (run P calls).accepted.length := by
  have hsub : ((run P calls).chain.pplnsWeights P tipId).map Prod.fst
      ⊆ (run P calls).accepted.map fun q => q.2.share.minerAddress := by
    intro a ha
    obtain ⟨k, s, hs, rfl⟩ := mem_windowWeights ha
    obtain ⟨e, he, rfl⟩ := Store.get_eq_some_iff.mp hs
    exact List.mem_map.mpr ⟨(k, e), mem_of_recordOf (subMap_record calls k e he), rfl⟩
  have hle := ((nodup_windowWeights _).subperm hsub).length_le
  rwa [List.length_map, List.length_map] at hle

/-! ### The coinbase -/

/-- The call does not get a share with an address that is not payable into the chain. -/
def KeepsPayable (B : Bitcoinutils) (P : Params) (C : Sharechain) (call : Call) : Prop :=
  call.verified = true → validate P C.entries.get call.share call.now = .ok none →
    Payable B call.share.minerAddress

/-- Where no call gets another address in, every accepted share has a payable address. -/
lemma accepted_payable (calls : List Call)
    (h : ∀ past call, past ++ [call] <+: calls → KeepsPayable B P (run P past).chain call) :
    ∀ q ∈ (run P calls).accepted, Payable B q.2.share.minerAddress := by
  refine run_induction (motive := fun H => ∀ q ∈ H.accepted, Payable B q.2.share.minerAddress)
    calls (fun _ hq => absurd hq List.not_mem_nil) ?_
  intro past call sid e H' hpre hpast hadm hgrow q hq
  rw [hgrow.accepted] at hq
  rcases List.mem_cons.mp hq with rfl | hq
  · rw [hadm.share]
    exact h past call hpre hadm.verified
      (validate_eq_ok_none_iff.mpr ⟨sid, hadm.id, hadm.valid⟩)
  · exact hpast q hq

/-- **Payable addresses in, coinbase out.**  Let no call of a run get a share with an address that
is not payable into the chain, and let no window have `2 ^ 32` addresses.  In every state the run
reaches, the payouts of any subsidy over the window of any share can be serialized and turned into
a coinbase. -/
theorem coinbase_builds (B : Bitcoinutils) (P : Params) (calls : List Call)
    (hpay : ∀ past call, past ++ [call] <+: calls → KeepsPayable B P (run P past).chain call)
    (hcount : ∀ past, past <+: calls → ∀ tipId,
      ((run P past).chain.pplnsWeights P tipId).length < 2 ^ 32) :
    ∀ past, past <+: calls → ∀ tipId height minPayout,
      CoinbaseBuilds B (computePplnsPayouts (blockSubsidy height)
        ((run P past).chain.pplnsWeights P tipId) minPayout) (blockSubsidy height) := by
  intro past hpast tipId height minPayout
  have haccepted := accepted_payable past fun past' call hpre => hpay past' call (hpre.trans hpast)
  have hpayees : ∀ p ∈ computePplnsPayouts (blockSubsidy height)
      ((run P past).chain.pplnsWeights P tipId) minPayout, Payable B p.address := by
    intro p hp
    obtain ⟨q, hq, ha⟩ := payee_mined hp
    rw [← ha]
    exact haccepted q hq
  refine ⟨⟨_, serializePayouts_eq_ok_iff.mpr ⟨?_, fun p hp => ?_, rfl⟩⟩, fun shareId => ?_⟩
  · exact (payouts_length_le _ _ _).trans_lt (hcount past hpast tipId)
  · exact payee_encodable hp (blockSubsidy_lt height) (hpayees p hp).1
  · obtain ⟨scripts, hs⟩ := scripts_of_payable shareId.bytes fun p hp => (hpayees p hp).2
    exact ⟨_, scripts, buildCoinbaseOutputs_of_le shareId.bytes_length (sum_grains_le _ _ _), hs⟩

/-! ### One genesis share -/

/-- The address of the all-zero taproot program. -/
def zeroAddress : PyStr :=
  ['p', 'r', 'l', '1', 'p'] ++ List.replicate 52 'q' ++ ['e', 'n', '4', 'g', '9', '0']

/-- A `bitcoinutils` that knows this address only. -/
def zeroProgram : Bitcoinutils where
  Script := Bytes
  Tx := Unit
  bech32Decode a :=
    if a = zeroAddress then some (['p', 'r', 'l'], 1 :: List.replicate 52 0, .bech32m) else none
  convertbits data := if data = List.replicate 52 0 then some (List.replicate 32 0) else none
  fromRaw raw := raw
  opReturn data := 0x6a :: data
  transaction _ _ _ _ := .ok ()
  txid _ := List.replicate 32 0

lemma zeroAddress_payable : Payable zeroProgram zeroAddress :=
  ⟨by decide, 0x51 :: 0x20 :: List.replicate 32 0, rfl⟩

/-- The shares of a chain that keeps the pace and pays that address, by height. -/
def paidChain : ℕ → ShareBlock
  | 0 => { pacedChain 0 with minerAddress := zeroAddress }
  | n + 1 => { pacedShare (n + 1) (doubleSha256 (paidChain n).wire) (maxTarget / 2)
      half_maxTarget_pos half_maxTarget_le with minerAddress := zeroAddress }

/-- The weights of a sidechain with one share. -/
lemma pplnsWeights_genesis {call : Call} {sid : Hash32} {e : Entry}
    {accepted : List (Hash32 × Entry)} {peak : ℕ}
    (hrun : run {} [call] = ⟨⟨Store.set (fun _ => none) sid e, some sid⟩, accepted, peak⟩)
    (hup : e.share.up = none) (huncles : e.share.uncleIds = []) :
    (run {} [call]).chain.pplnsWeights {} none
      = [(e.share.minerAddress, (e.share.difficulty : ℤ))] := by
  have hwindow : ({} : Params).window = 999 + 1 := rfl
  rw [hrun, Sharechain.pplnsWeights, windowWeights, hwindow]
  simp only [Option.none_or, creditWindow, Store.get_of_some Store.set_self, huncles, hup,
    creditUncles]
  rfl

/-- The payouts on a first share of a payable miner make a coinbase. -/
theorem coinbase_builds_genesis :
    CoinbaseBuilds zeroProgram (computePplnsPayouts (blockSubsidy 1)
      ((run {} [genesisCall 0 0 zeroAddress genesisPrev]).chain.pplnsWeights {} none)
      minPayoutGrains) (blockSubsidy 1) := by
  obtain ⟨sid, -, hrun⟩ := run_genesisCall 0 0 zeroAddress genesisPrev (by norm_num)
    (by norm_num) (by decide) (by decide)
  refine coinbase_builds zeroProgram {} [genesisCall 0 0 zeroAddress genesisPrev]
    (fun past call hpre _ _ => ?_) (fun past hpast tipId => ?_) _ List.prefix_rfl none 1
    minPayoutGrains
  · have hmem : call ∈ [genesisCall 0 0 zeroAddress genesisPrev] :=
      hpre.subset (List.mem_append_right _ (List.mem_singleton.mpr rfl))
    rw [List.mem_singleton.mp hmem]
    exact zeroAddress_payable
  · refine (weights_length_le past tipId).trans_lt ?_
    rcases List.prefix_cons_iff.mp hpast with rfl | ⟨tail, rfl, htail⟩
    · norm_num [run, History.init]
    · rw [List.prefix_nil.mp htail, hrun]
      norm_num

/-- One accepted share with an address that is none stops every coinbase. -/
theorem coinbase_unpayable : ¬∀ (calls : List Call) (height minPayout : ℕ) (worker : PyStr),
    (∃ script, p2trScript zeroProgram worker = .ok script) →
    CoinbaseBuilds zeroProgram (computePplnsPayouts (blockSubsidy height)
      ((run {} calls).chain.pplnsWeights {} none) minPayout) (blockSubsidy height) := by
  intro h
  obtain ⟨sid, -, hrun⟩ := run_genesisCall 0 0 ['a'] genesisPrev (by norm_num) (by norm_num)
    (by decide) (by norm_num)
  obtain ⟨-, hscripts⟩ := h [genesisCall 0 0 ['a'] genesisPrev] 1 0 zeroAddress
    zeroAddress_payable.2
  have hdiff : 0 < ((genesisShare 0 0 ['a'] genesisPrev).difficulty : ℤ) := by
    exact_mod_cast (genesisShare 0 0 ['a'] genesisPrev).difficulty_pos
  have hpay : computePplnsPayouts (blockSubsidy 1) [(['a'], _)] 0 = [⟨['a'], blockSubsidy 1⟩] :=
    computePplnsPayouts_singleton (by decide) hdiff 0
  rw [pplnsWeights_genesis hrun rfl rfl] at hscripts
  obtain ⟨outputs, scripts, hout, hs⟩ := hscripts genesisPrev
  change buildCoinbaseOutputs (computePplnsPayouts (blockSubsidy 1)
    [(['a'], ((genesisShare 0 0 ['a'] genesisPrev).difficulty : ℤ))] 0) _ _ = _ at hout
  rw [hpay, buildCoinbaseOutputs_of_le genesisPrev.bytes_length (by simp)] at hout
  cases hout
  obtain ⟨script, hscript⟩ := p2trScript_of_scripts hs (List.mem_append_left _
    (List.mem_singleton.mpr rfl)) rfl rfl
  cases hscript

end P2Pearl
