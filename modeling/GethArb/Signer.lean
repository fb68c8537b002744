/-
  **Signers** (`core/types/transaction_signing.go`, `core/types/arbitrum_signer.go`): who sent
  a transaction.

  Which signer a block uses depends on its number, its time and the ArbOS version.  Where the
  outcome does not matter for the state, the code takes the signer of the newest version.

  The hash that is signed and the recovery of a key from a signature are parameters.  The
  cache of the sender in a transaction is left out.
-/
import GethArb.TxCodec

namespace GethArb.Tx

/-! ### Signature values -/

/-- The order of the curve. -/
def secp256k1N : Int := 0xfffffffffffffffffffffffffffffffebaaedce6af48a03bbfd25e8cd0364141

def secp256k1halfN : Int := secp256k1N / 2

def validateSignatureValues (v : BitVec 8) (r s : Int) (homestead : Bool) : Bool :=
  if r < 1 || s < 1 then false
  else if homestead && secp256k1halfN < s then false
  else r < secp256k1N && s < secp256k1N && (v = 0 || v = 1)

/-- `Uint64` of a `*big.Int`: the low bits of its absolute value. -/
def lowUint64 (x : Int) : U64 := BitVec.ofNat 64 x.natAbs

/-- `BitLen() <= 8`. -/
def fitsByte (x : Int) : Bool := x.natAbs < 2 ^ 8

def isProtectedV (v : Int) : Bool :=
  if fitsByte v then
    let v := lowUint64 v
    v ≠ 27 && v ≠ 28 && v ≠ 1 && v ≠ 0
  else true

def deriveChainId (v : Int) : Int :=
  if v.natAbs < 2 ^ 64 then
    let v := lowUint64 v
    if v = 27 || v = 28 then 0 else ((v - 35) / 2).toNat
  else (v - 35) >>> 1

inductive SenderError where
  | txTypeNotSupported
  | invalidChainId (have_ want : Int)
  | invalidSig
  | recovery
deriving DecidableEq, Repr

/-- The hashes that are signed and the recovery of the address from a signature. -/
structure Recovery where
  frontierHash : LegacyTx → Hash
  sigHash : TxData → Int → Hash
  ecrecover : Hash → Int → Int → BitVec 8 → Option Address

def Recovery.recoverPlain (rec : Recovery) (sighash : Hash) (r s vb : Int) (homestead : Bool) :
    Except SenderError Address :=
  if !fitsByte vb then .error .invalidSig
  else
    let v := (lowUint64 vb - 27).setWidth 8
    if !validateSignatureValues v r s homestead then .error .invalidSig
    else
      match rec.ecrecover sighash r s v with
      | none => .error .recovery
      | some addr => .ok addr

/-! ### Signers -/

inductive LegacySigner where
  | frontier
  | homestead
  | eip155 (chainId : Int)
deriving DecidableEq, Repr

/-- The forks that brought a transaction type. -/
inductive Fork where
  | berlin
  | london
  | cancun
  | prague
deriving DecidableEq, Repr

/-- The transaction types a signer of the fork knows. -/
def Fork.txtypes : Fork → List UInt8
  | .berlin => [legacyTxType, accessListTxType]
  | .london => [legacyTxType, accessListTxType, dynamicFeeTxType]
  | .cancun => [legacyTxType, accessListTxType, dynamicFeeTxType, blobTxType]
  | .prague => [legacyTxType, accessListTxType, dynamicFeeTxType, blobTxType, setCodeTxType]

/-- A signer; `modernSigner` hands legacy transactions to the signer of EIP-155. -/
inductive Signer where
  | legacy (s : LegacySigner)
  | modern (chainID : Int) (fork : Fork)
  | arbitrum (s : Signer)
deriving DecidableEq, Repr

section
variable (rec : Recovery)

def homesteadSender (tx : LegacyTx) : Except SenderError Address :=
  rec.recoverPlain (rec.frontierHash tx) (tx.r.getD 0) (tx.s.getD 0) (tx.v.getD 0) true

def frontierSender (tx : LegacyTx) : Except SenderError Address :=
  rec.recoverPlain (rec.frontierHash tx) (tx.r.getD 0) (tx.s.getD 0) (tx.v.getD 0) false

def eip155Sender (chainId : Int) (tx : LegacyTx) : Except SenderError Address :=
  let v := tx.v.getD 0
  if !isProtectedV v then homesteadSender rec tx
  else if deriveChainId v ≠ chainId then .error (.invalidChainId (deriveChainId v) chainId)
  else rec.recoverPlain (rec.sigHash (.legacy tx) chainId) (tx.r.getD 0) (tx.s.getD 0)
    (v - 2 * chainId - 8) true

def LegacySigner.sender : LegacySigner → LegacyTx → Except SenderError Address
  | .frontier, tx => frontierSender rec tx
  | .homestead, tx => homesteadSender rec tx
  | .eip155 chainId, tx => eip155Sender rec chainId tx

/-- A typed transaction: its chain id and the recovery id of its signature are checked. -/
def typedSender (chainID : Int) (tx : TxData)
    (txChainID v r s : Int) : Except SenderError Address :=
  if txChainID ≠ chainID then .error (.invalidChainId txChainID chainID)
  else rec.recoverPlain (rec.sigHash tx chainID) r s (v + 27) true

/-- `*uint256.Int` as a `*big.Int`. -/
def Uint256.toBig (x : Uint256) : Int := (x.getD 0).toNat

def modernSender (chainID : Int) (fork : Fork) (tx : TxData) : Except SenderError Address :=
  if tx.txType ∉ fork.txtypes then .error .txTypeNotSupported
  else
    match tx with
    | .legacy inner => eip155Sender rec chainID inner
    | .accessList inner =>
      typedSender rec chainID tx (inner.chainID.getD 0) (inner.v.getD 0) (inner.r.getD 0)
        (inner.s.getD 0)
    | .dynamicFee inner =>
      typedSender rec chainID tx (inner.chainID.getD 0) (inner.v.getD 0) (inner.r.getD 0)
        (inner.s.getD 0)
    | .blob inner =>
      typedSender rec chainID tx (Uint256.toBig inner.chainID) (Uint256.toBig inner.v)
        (Uint256.toBig inner.r) (Uint256.toBig inner.s)
    | .setCode inner =>
      typedSender rec chainID tx (Uint256.toBig inner.chainID) (Uint256.toBig inner.v)
        (Uint256.toBig inner.r) (Uint256.toBig inner.s)
    | _ => .error .txTypeNotSupported

def arbosAddress : Address := 0xa4b05

def Signer.sender : Signer → TxData → Except SenderError Address
  | .legacy s, .legacy tx => s.sender rec tx
  | .legacy _, _ => .error .txTypeNotSupported
  | .modern chainID fork, tx => modernSender rec chainID fork tx
  | .arbitrum _, .arbitrumUnsigned tx => .ok tx.from_
  | .arbitrum _, .arbitrumContract tx => .ok tx.from_
  | .arbitrum _, .arbitrumDeposit tx => .ok tx.from_
  | .arbitrum _, .arbitrumInternal _ => .ok arbosAddress
  | .arbitrum _, .arbitrumRetry tx => .ok tx.from_
  | .arbitrum _, .arbitrumSubmitRetryable tx => .ok tx.from_
  | .arbitrum s, .arbitrumLegacy tx =>
    match tx.sender with
    | some addr => .ok addr
    | none => s.sender (.legacy tx.legacyTx)
  | .arbitrum s, tx => s.sender tx

end

/-! ### The signer of a block -/

/-- `params.ChainConfig`, the part `MakeSigner` reads. -/
structure SignerConfig where
  chainID : Int
  enableArbOS : Bool
  genesisBlockNum : U64
  homesteadBlock : Option Nat
  eip155Block : Option Nat
  berlinBlock : Option Nat
  londonBlock : Option Nat
  cancunTime : Option U64
  pragueTime : Option U64

def arbosVersion_20 : U64 := 20
def arbosVersion_40 : U64 := 40
def maxArbosVersionSupported : U64 := 61

def isBlockForked (s : Option Nat) (head : Nat) : Bool :=
  match s with
  | none => false
  | some s => s ≤ head

def isTimestampForked (s : Option U64) (head : U64) : Bool :=
  match s with
  | none => false
  | some s => s ≤ head

namespace SignerConfig

variable (config : SignerConfig) (num : Nat) (time arbosVersion : U64)

def isLondon : Bool :=
  if config.enableArbOS then isBlockForked (some config.genesisBlockNum.toNat) num
  else isBlockForked config.londonBlock num

def isCancun : Bool :=
  if config.enableArbOS then arbosVersion_20 ≤ arbosVersion
  else config.isLondon num && isTimestampForked config.cancunTime time

def isPrague : Bool :=
  if config.enableArbOS then arbosVersion_40 ≤ arbosVersion
  else config.isLondon num && isTimestampForked config.pragueTime time

/-- The signer before the one of Arbitrum is put around it. -/
def ethereumSigner : Signer :=
  if config.isPrague num time arbosVersion then .modern config.chainID .prague
  else if config.isCancun num time 0 then .modern config.chainID .cancun
  else if config.isLondon num then .modern config.chainID .london
  else if isBlockForked config.berlinBlock num then .modern config.chainID .berlin
  else if isBlockForked config.eip155Block num then .legacy (.eip155 config.chainID)
  else if isBlockForked config.homesteadBlock num then .legacy .homestead
  else .legacy .frontier

end SignerConfig

def makeSigner (config : SignerConfig) (num : Nat) (time arbosVersion : U64) : Signer :=
  if config.enableArbOS then .arbitrum (config.ethereumSigner num time arbosVersion)
  else config.ethereumSigner num time arbosVersion

end GethArb.Tx
