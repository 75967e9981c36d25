import Tfs.Basic

/-! The protobuf messages of a transaction and of a block (`proto/src/transaction.proto`, `sign.proto`,
    `block.proto`), with the fields the models use. Amounts and heights are signed 64-bit in the
    messages. -/

namespace Tfs

structure CSign where
  sign : Str
  pub : Str
  deriving DecidableEq, Repr

structure CTxPrevOutput where
  hash : Str
  n : UInt32
  deriving DecidableEq, Repr

/-- One input; `vinSign` is `none` as long as it was not set. -/
structure CTxInput where
  prevOut : List CTxPrevOutput
  vinSign : Option CSign
  sequence : UInt32
  contractAddr : Str
  deriving DecidableEq, Repr

structure CTxOutput where
  addr : Str
  value : Int64
  deriving DecidableEq

/-- Owners, inputs and outputs; the builders add one owner with every input. -/
structure CTxUtxo where
  owner : List Str
  vin : List CTxInput
  vout : List CTxOutput
  multiSign : List CSign
  deriving DecidableEq

structure CTransaction where
  version : UInt32
  time : UInt64
  identity : Str
  hash : Str
  utxo : CTxUtxo
  type : Str
  consensus : UInt32
  txType : UInt32
  data : Str
  info : Str
  deriving DecidableEq

structure CBlock where
  time : UInt64
  hash : Str
  prevHash : Str
  height : Int64
  txs : List CTransaction
  data : Str
  deriving DecidableEq

/-- A freshly cleared message. -/
def CTxUtxo.cleared : CTxUtxo := ⟨[], [], [], []⟩

/-- `outTx.Clear()`. -/
def CTransaction.cleared : CTransaction := ⟨0, 0, [], [], .cleared, [], 0, 0, [], []⟩

/-- `add_vout` with its two setters. -/
def CTxUtxo.addVout (u : CTxUtxo) (addr : Str) (value : Int64) : CTxUtxo :=
  { u with vout := u.vout ++ [⟨addr, value⟩] }

@[simp] theorem CTxUtxo.addVout_vout (u : CTxUtxo) (addr : Str) (value : Int64) :
    (u.addVout addr value).vout = u.vout ++ [⟨addr, value⟩] := rfl
@[simp] theorem CTxUtxo.addVout_vin (u : CTxUtxo) (addr : Str) (value : Int64) :
    (u.addVout addr value).vin = u.vin := rfl
@[simp] theorem CTxUtxo.addVout_owner (u : CTxUtxo) (addr : Str) (value : Int64) :
    (u.addVout addr value).owner = u.owner := rfl

end Tfs
