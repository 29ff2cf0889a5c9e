import P2Pearl.Consensus.Pplns
import P2Pearl.Consensus.Share

/-!
`chain/coinbase.py`: the coinbase that pays the PPLNS window and commits to a share.

* `Bitcoinutils`: what the builder uses of the package it imports, an address decoder and a
  transaction constructor among it.
* `buildCoinbaseOutputs`: the ordered outputs, the payouts followed by the commitment.
* `p2trScript`: the script of a payout address; `scripts_of_payable` says that the outputs of
  payouts whose addresses all have one are turned into scripts without an exception.
-/

namespace P2Pearl

/-- The two encodings `bech32_decode` tells apart. -/
inductive Encoding where
  | bech32
  | bech32m
  deriving DecidableEq

/-- What the coinbase builder uses of `bitcoinutils`. -/
structure Bitcoinutils where
  Script : Type
  Tx : Type
  /-- `bech32_decode`: the prefix, the 5-bit data and the encoding of an address. -/
  bech32Decode : PyStr → Option (PyStr × List ℕ × Encoding)
  /-- `convertbits(data, 5, 8, False)`. -/
  convertbits : List ℕ → Option Bytes
  /-- `Script.from_raw`. -/
  fromRaw : Bytes → Script
  /-- `Script(["OP_RETURN", data])`. -/
  opReturn : Bytes → Script
  /-- The rest of `assemble_coinbase_tx`: the transaction with the given outputs, for the parent
  height, the auxiliary flags and the witness commitment. -/
  transaction : List (ℕ × Script) → ℕ → Option Bytes → Option Bytes → Except PyError Tx
  /-- `get_txid`. -/
  txid : Tx → Bytes

/-- `CoinbaseOutput`. -/
structure CoinbaseOutput where
  value : ℕ
  address : Option PyStr := none
  opReturnData : Option Bytes := none
  deriving DecidableEq

/-- `build_coinbase_outputs`: the payouts as given, then the commitment to the share. -/
def buildCoinbaseOutputs (payouts : List Payout) (shareId : Bytes) (coinbaseValue : ℕ) :
    Except PyError (List CoinbaseOutput) :=
  let total := (payouts.map Payout.grains).sum
  if shareId.length ≠ 32 then .error (.valueError "share_id must be 32 bytes")
  else if coinbaseValue < total then
    .error (.valueError ("payouts (" ++ toString total ++ ") exceed coinbase value ("
      ++ toString coinbaseValue ++ ")"))
  else
    .ok ((payouts.map fun p => { value := p.grains, address := some p.address })
      ++ [{ value := 0, opReturnData := some shareId }])

variable (B : Bitcoinutils)

/-- `_p2tr_script`: the script of a bech32m taproot address. -/
def p2trScript (address : PyStr) : Except PyError B.Script :=
  match B.bech32Decode address with
  | none => .error (.valueError "invalid bech32m address")
  | some (_, [], _) => .error (.valueError "invalid bech32m address")
  | some (_, version :: data, encoding) =>
      if version ≠ 1 then .error (.valueError "expected taproot witness version 1")
      else if encoding ≠ .bech32m then .error (.valueError "taproot address must be bech32m")
      else
        match B.convertbits data with
        | none => .error (.valueError "taproot witness program must be 32 bytes")
        | some program =>
            if program.length ≠ 32 then
              .error (.valueError "taproot witness program must be 32 bytes")
            else .ok (B.fromRaw (0x51 :: 0x20 :: program))

/-- `_script_for`. -/
def scriptFor (out : CoinbaseOutput) : Except PyError B.Script :=
  match out.opReturnData, out.address with
  | some data, _ => .ok (B.opReturn data)
  | none, none => .error (.valueError "output has neither address nor op_return_data")
  | none, some address => p2trScript B address

/-- The outputs of a coinbase transaction with their scripts. -/
def coinbaseScripts (outputs : List CoinbaseOutput) : Except PyError (List (ℕ × B.Script)) :=
  outputs.mapM fun o => do
    let script ← scriptFor B o
    return (o.value, script)

/-- `assemble_coinbase_tx`. -/
def assembleCoinbaseTx (outputs : List CoinbaseOutput) (height : ℕ)
    (coinbaseAux defaultWitnessCommitment : Option Bytes) : Except PyError B.Tx := do
  let scripts ← coinbaseScripts B outputs
  B.transaction scripts height coinbaseAux defaultWitnessCommitment

/-- Payouts that fit the coinbase value are turned into outputs. -/
lemma buildCoinbaseOutputs_of_le {payouts : List Payout} {shareId : Bytes} {coinbaseValue : ℕ}
    (hlen : shareId.length = 32) (h : (payouts.map Payout.grains).sum ≤ coinbaseValue) :
    buildCoinbaseOutputs payouts shareId coinbaseValue
      = .ok ((payouts.map fun p => { value := p.grains, address := some p.address })
        ++ [{ value := 0, opReturnData := some shareId }]) := by
  rw [buildCoinbaseOutputs, if_neg (not_not.mpr hlen), if_neg (not_lt.mpr h)]

/-- The outputs give out exactly the payouts. -/
lemma outputs_sum {payouts : List Payout} {shareId : Bytes} {coinbaseValue : ℕ}
    {outputs : List CoinbaseOutput}
    (h : buildCoinbaseOutputs payouts shareId coinbaseValue = .ok outputs) :
    (outputs.map CoinbaseOutput.value).sum = (payouts.map Payout.grains).sum := by
  rw [buildCoinbaseOutputs] at h
  split_ifs at h
  cases h
  rw [List.map_append, List.map_map, List.sum_append]
  exact Nat.add_zero _

variable {B}

/-- Outputs to addresses that all have a script are given their scripts. -/
lemma scripts_of_payable {payouts : List Payout} (shareId : Bytes)
    (h : ∀ p ∈ payouts, ∃ script, p2trScript B p.address = .ok script) :
    ∃ scripts, coinbaseScripts B
      ((payouts.map fun p => { value := p.grains, address := some p.address })
        ++ [{ value := 0, opReturnData := some shareId }]) = .ok scripts := by
  refine mapM_isOk fun o ho => ?_
  rcases List.mem_append.mp ho with ho | ho
  · obtain ⟨p, hp, rfl⟩ := List.mem_map.mp ho
    obtain ⟨script, hs⟩ := h p hp
    exact ⟨(p.grains, script), by simp only [scriptFor, hs]; rfl⟩
  · rw [List.mem_singleton.mp ho]
    exact ⟨(0, B.opReturn shareId), rfl⟩

/-- An output whose address has no script stops the coinbase. -/
lemma p2trScript_of_scripts {outputs : List CoinbaseOutput} {scripts : List (ℕ × B.Script)}
    (h : coinbaseScripts B outputs = .ok scripts) {o : CoinbaseOutput} (ho : o ∈ outputs)
    {address : PyStr} (ha : o.address = some address) (hd : o.opReturnData = none) :
    ∃ script, p2trScript B address = .ok script := by
  obtain ⟨b, hb⟩ := of_mapM_eq_ok h o ho
  obtain ⟨script, hs, -⟩ := bind_eq_ok_iff.mp hb
  rw [scriptFor, hd, ha] at hs
  exact ⟨script, hs⟩

/-- The scripts keep the amounts of their outputs. -/
lemma value_of_scripts {outputs : List CoinbaseOutput} {scripts : List (ℕ × B.Script)}
    (h : coinbaseScripts B outputs = .ok scripts) {s : ℕ × B.Script} (hs : s ∈ scripts) :
    ∃ o ∈ outputs, o.value = s.1 := by
  obtain ⟨o, ho, hbuilt⟩ := mem_of_mapM_eq_ok h s hs
  obtain ⟨script, -, hpair⟩ := bind_eq_ok_iff.mp hbuilt
  cases hpair
  exact ⟨o, ho, rfl⟩

end P2Pearl
