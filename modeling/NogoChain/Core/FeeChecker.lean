import NogoChain.Core.Types

/-!
# Fee rules

The fee a transaction has to carry, as the pool and the miner ask for it: a base fee and a
price for each byte of the JSON text, more if the pool is crowded or the fee is low by
recent standards, and at most ten times as much.
-/

namespace NogoChain

def minFee : UInt64 := 10000

def minFeePerByte : UInt64 := 100

structure FeeChecker where
  minFee : UInt64
  feePerByte : UInt64
  mempoolSize : Int
  historyFees : List UInt64

def newFeeChecker (minFee feePerByte : UInt64) : FeeChecker := ⟨minFee, feePerByte, 0, []⟩

/-- `getTxSize`: the length of the JSON text. Marshalling a transaction does not fail. -/
def getTxSize (tx : Transaction) : UInt64 := UInt64.ofNat tx.json.text.length

namespace FeeChecker

def maxUint64 : UInt64 := UInt64.ofNat (2 ^ 64 - 1)

def average (fees : List UInt64) : UInt64 :=
  if fees = [] then 0 else UInt64.ofNat ((fees.map UInt64.toNat).sum / fees.length)

/-- The numerator of the congestion factor; the denominator is a million. -/
def congestionNum (f : FeeChecker) (tx : Transaction) : UInt64 :=
  let num : UInt64 :=
    if f.mempoolSize > 10000 then UInt64.ofNat f.mempoolSize.toNat * 1000000 / 10000 else 1000000
  if f.historyFees ≠ [] ∧ tx.fee < average f.historyFees * 50 / 100 then num * 1500000 / 1000000
  else num

def calculateRequiredFee (f : FeeChecker) (tx : Transaction) : UInt64 :=
  let sizeFee := getTxSize tx * f.feePerByte
  if f.minFee > maxUint64 - sizeFee then maxUint64
  else
    let fee := (f.minFee + sizeFee).toNat * (f.congestionNum tx).toNat / 1000000
    if fee > maxUint64.toNat then maxUint64 else UInt64.ofNat fee

def validateFee (f : FeeChecker) (tx : Transaction) : Except GoError Unit :=
  let requiredFee := f.calculateRequiredFee tx
  if tx.fee < requiredFee then
    .error (.errorf "fee too low: required=%d, provided=%d"
      [.num requiredFee.toNat, .num tx.fee.toNat])
  else if tx.fee.toNat > requiredFee.toNat * 10 then
    .error (.errorf "fee unusually high: required=%d, provided=%d"
      [.num requiredFee.toNat, .num tx.fee.toNat])
  else .ok ()

end FeeChecker

end NogoChain
