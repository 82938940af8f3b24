import Namecoin.Script.Script

/-! # Transactions, coins and name data

The parts of `primitives/transaction.h`, `coins.h`, `names/common.h`,
`consensus/params.h` and `kernel/chainparams.cpp` that the name database
reads. A txid is the number that `uint256` holds; heights are numbers below
`MEMPOOL_HEIGHT`, the largest value the 31-bit `Coin::nHeight` field can take. -/

namespace Namecoin.Names
open Namecoin.Script

/-- `uint256`, as the number its hex string displays. -/
abbrev uint256 := Nat

structure COutPoint where
  hash : uint256
  n : Nat
  deriving DecidableEq, Repr

def NULL_INDEX : Nat := 0xffffffff

def COutPoint.IsNull (o : COutPoint) : Bool := o.hash == 0 && o.n == NULL_INDEX

/-- A transaction input; the name code reads only the spent outpoint. -/
structure CTxIn where
  prevout : COutPoint
  deriving DecidableEq, Repr

structure CTxOut where
  nValue : Int
  scriptPubKey : CScript
  deriving DecidableEq, Repr

/-- A transaction with its hash `GetHash ()`. -/
structure CTransaction where
  hash : uint256
  version : Int
  vin : List CTxIn
  vout : List CTxOut
  deriving DecidableEq, Repr

def NAMECOIN_VERSION : Int := 0x7100

namespace CTransaction

def GetHash (tx : CTransaction) : uint256 := tx.hash

def IsNamecoin (tx : CTransaction) : Bool := tx.version == NAMECOIN_VERSION

def IsCoinBase (tx : CTransaction) : Bool :=
  match tx.vin with
  | [txin] => txin.prevout.IsNull
  | _ => false

end CTransaction

structure Coin where
  out : CTxOut
  nHeight : Nat
  fCoinBase : Bool
  deriving DecidableEq, Repr

/-- `CTxOut::IsNull`: the value -1 of `SetNull`. -/
def CTxOut.IsNull (out : CTxOut) : Bool := out.nValue == -1

theorem CTxOut.IsNull_eq_false {out : CTxOut} (h : 0 ≤ out.nValue) : out.IsNull = false := by
  simp only [CTxOut.IsNull, beq_eq_false_iff_ne, ne_eq]
  omega

/-- `Coin::IsSpent`: a spent coin has a null output. -/
def Coin.IsSpent (coin : Coin) : Bool := coin.out.IsNull

@[simp] theorem Coin.IsSpent_mk (out : CTxOut) (nHeight : Nat) (fCoinBase : Bool) :
    (Coin.mk out nHeight fCoinBase).IsSpent = out.IsNull := rfl

def MEMPOOL_HEIGHT : Nat := 0x7FFFFFFF

def MAX_VALUE_LENGTH : Nat := 1023
def MAX_NAME_LENGTH : Nat := 255
def MIN_FIRSTUPDATE_DEPTH : Nat := 12

structure CNameData where
  value : valtype
  nHeight : Nat
  prevout : COutPoint
  addr : CScript
  deriving DecidableEq, Repr

/-- `CNameData::fromScript (h, out, script)`. -/
def CNameData.fromScript (h : Nat) (out : COutPoint) (script : CNameScript) : CNameData :=
  ⟨script.getOpValue, h, out, script.getAddress⟩

/-! ## Consensus rules -/

def COIN : Int := 100000000

/-- `MAX_MONEY`. -/
def MAX_MONEY : Int := 21000000 * COIN

/-- `MoneyRange (nValue)`. -/
def MoneyRange (nValue : Int) : Bool := 0 ≤ nValue && nValue ≤ MAX_MONEY

/-- `Consensus::ConsensusRules`. -/
structure ConsensusRules where
  NameExpirationDepth : Nat → Nat
  MinNameCoinAmount : Nat → Int

def MainNetConsensus : ConsensusRules where
  NameExpirationDepth nHeight :=
    if nHeight < 24000 then 12000 else if nHeight < 48000 then nHeight - 12000 else 36000
  MinNameCoinAmount nHeight := if nHeight < 212500 then 0 else COIN / 100

def TestNetConsensus : ConsensusRules :=
  { MainNetConsensus with MinNameCoinAmount := fun _ => COIN / 100 }

def RegTestConsensus : ConsensusRules :=
  { TestNetConsensus with NameExpirationDepth := fun _ => 30 }

/-- `isExpired (nPrevHeight, nHeight)`, for heights other than `MEMPOOL_HEIGHT`. -/
def isExpired (rules : ConsensusRules) (nPrevHeight nHeight : Nat) : Bool :=
  if nPrevHeight = MEMPOOL_HEIGHT then false
  else decide (nPrevHeight + rules.NameExpirationDepth nHeight ≤ nHeight)

def CNameData.isExpired (rules : ConsensusRules) (d : CNameData) (h : Nat) : Bool :=
  Names.isExpired rules d.nHeight h

@[simp] theorem CNameData.isExpired_eq (rules : ConsensusRules) (d : CNameData) (h : Nat) :
    d.isExpired rules h = Names.isExpired rules d.nHeight h := rfl

/-! ## Historic bugs -/

inductive BugType where
  | BUG_FULLY_APPLY
  | BUG_IN_UTXO
  | BUG_FULLY_IGNORE
  deriving DecidableEq, Repr

/-- `CChainParams::IsHistoricBug`: the entry of `mapHistoricBugs` for
`(nHeight, txid)`. -/
def IsHistoricBug (bugs : List ((Nat × uint256) × BugType)) (txid : uint256) (nHeight : Nat) :
    Option BugType :=
  bugs.lookup (nHeight, txid)

/-- The historic bugs of the main network. -/
def mainHistoricBugs : List ((Nat × uint256) × BugType) :=
  [((98423, 0xbff3ed6873e5698b97bf0c28c29302b59588590b747787c7d1ef32decdabe0d1), .BUG_FULLY_IGNORE),
   ((98424, 0xe9b211007e5cac471769212ca0f47bb066b81966a8e541d44acf0f8a1bd24976), .BUG_FULLY_IGNORE),
   ((98425, 0x8aa2b0fc7d1033de28e0192526765a72e9df0c635f7305bdc57cb451ed01a4ca), .BUG_FULLY_IGNORE),
   ((98318, 0x0ae5e958ff05ad8e273222656d98d076097def6d36f781a627c584b859f4727b), .BUG_FULLY_IGNORE),
   ((98321, 0xaca8ce46da1bbb9bb8e563880efcd9d6dd18342c446d6f0e3d4b964a990d1c27), .BUG_FULLY_IGNORE),
   ((98424, 0xc29b0d9d478411462a8ac29946bf6fdeca358a77b4be15cd921567eb66852180), .BUG_FULLY_IGNORE),
   ((98425, 0x221719b360f0c83fa5b1c26fb6b67c5e74e4e7c6aa3dce55025da6759f5f7060), .BUG_FULLY_IGNORE),
   ((193518, 0x597370b632efb35d5ed554c634c7af44affa6066f2a87a88046532d4057b46f8), .BUG_FULLY_IGNORE),
   ((195605, 0x0bb8c7807a9756aefe62c271770b313b31dee73151f515b1ac2066c50eaeeb91), .BUG_FULLY_IGNORE),
   ((195639, 0x3181930765b970fc43cd31d53fc6fc1da9439a28257d9067c3b5912d23eab01c), .BUG_FULLY_IGNORE),
   ((195639, 0xe815e7d774937d96a4b265ed4866b7e3dc8d9f2acb8563402e216aba6edd1e9e), .BUG_FULLY_IGNORE),
   ((195639, 0xcdfe6eda068e09fe760a70bec201feb041b8c660d0e98cbc05c8aa4106eae6ab), .BUG_FULLY_IGNORE),
   ((195641, 0x1e29e937b2a9e1f18af500371b8714157cf5ac7c95461913e08ce402de64ae75), .BUG_FULLY_IGNORE),
   ((195648, 0xd44ed6c0fac251931465f9123ada8459ec954cc6c7b648a56c9326ff7b13f552), .BUG_FULLY_IGNORE),
   ((197711, 0xdd77aea50a189935d0ef36a04856805cd74600a53193c539eb90c1e1c0f9ecac), .BUG_FULLY_IGNORE),
   ((204151, 0xf31875dfaf94bd3a93cfbed0e22d405d1f2e49b4d0750cb13812adc5e57f1e47), .BUG_FULLY_IGNORE),
   ((99381, 0x774d4c446cecfc40b1c02fdc5a13be6d2007233f9d91daefab6b3c2e70042f05), .BUG_FULLY_APPLY),
   ((139872, 0x2f034f2499c136a2c5a922ca4be65c1292815c753bbb100a2a26d5ad532c3919), .BUG_IN_UTXO),
   ((139936, 0xc3e76d5384139228221cce60250397d1b87adf7366086bc8d6b5e6eee03c55c7), .BUG_FULLY_IGNORE)]

/-- The network parameters the name code reads. -/
structure CChainParams where
  rules : ConsensusRules
  mapHistoricBugs : List ((Nat × uint256) × BugType)

def mainParams : CChainParams := ⟨MainNetConsensus, mainHistoricBugs⟩

/-! ## Name encodings -/

/-- `IsStringValid (str, NameEncoding::ASCII)`. -/
def IsStringValidAscii (name : valtype) : Bool := name.all fun c => 0x20 ≤ c && c < 0x80

/-- The bytes of `d/postmortem`. -/
def postmortem : valtype := "d/postmortem".toList.map fun c => c.toNat.toUInt8

end Namecoin.Names
