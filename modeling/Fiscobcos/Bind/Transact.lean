import Fiscobcos.Client.Answers
import Fiscobcos.Types.Sender
import Fiscobcos.Types.TxHash

/-! # Block limits (accounts/abi/bind/base.go, client/channel.go, client/rpcclient.go)

The client computes the last block of a transaction from the height that the node reports. The
height goes from `uint64` through `int64` into a big integer and back. -/

namespace Fiscobcos.Bind

open Numerals JsonTree FlatJson Hexutil Client Client.Answers
open Fiscobcos.Types (Transaction Address Crypto TxArgs NewTransaction SigningError uint64Of
  twoKeys)

/-- `SignerFn`; the error is its text. -/
abbrev SignerFn := Types.Signer → Address → Transaction → Except String Transaction

/-- `Context`, which is only passed on, is left out. -/
structure TransactOpts where
  fromAddr : Address
  randomId : UInt64
  signer : Option SignerFn
  value : Option ℤ
  gasPrice : Option ℤ
  gasLimit : UInt64
  chainId : Int64
  groupId : Int64
  blockLimit : UInt64

def bigUint64 (v : ℤ) : UInt64 := UInt64.ofNat (uint64Of v)

/-- A client with the response that it gets to `getBlockNumber`. -/
inductive Backend where
  | channel (J : Json) (data : Bytes)
  | http (status : ℕ) (body : Bytes)

section Height
variable (T : JsonText)

def Backend.result : Backend → Except CallError Bytes
  | .channel J data => channelClient.call T J data (toText T) "getBlockNumber"
  | .http status body => rpcClient.getFilled T status body (toText T) "getBlockNumber"

def Backend.blockNumber : Backend → Except CallError ℤ
  | .channel J data => channelClient.blockNumber T J data
  | .http status body => rpcClient.blockNumber T status body

def limitFrom (blkNumber : Except CallError ℤ) (opt : TransactOpts) :
    Except CallError Unit × TransactOpts :=
  match blkNumber with
  | .error err => (.error err, opt)
  | .ok blkNumber => (.ok (), { opt with blockLimit := bigUint64 blkNumber + 1000 })

def Backend.updateBlockLimit (b : Backend) (opt : TransactOpts) :
    Except CallError Unit × TransactOpts := limitFrom (b.blockNumber T) opt

end Height

structure BoundContract where
  address : Address
  sendTransaction : Transaction → Except String Unit

inductive TransactError where
  | getBlockNumber (e : CallError)
  | noSigner
  | signer (msg : String)
  | send (msg : String)

def nonceOf (sum : Bytes) : Option ℤ := (decodeBig (Hexutil.encode sum)).toOption

/-- The arguments of `NewTransaction`; a nil value is sent as zero. -/
def TransactOpts.args (opts : TransactOpts) (input : Option Bytes) : TxArgs where
  nonce := opts.randomId
  blockLimit := opts.blockLimit
  amount := some (opts.value.getD 0)
  gasLimit := opts.gasLimit
  gasPrice := opts.gasPrice
  data := input
  chainId := opts.chainId
  groupId := opts.groupId
  extraData := none

def BoundContract.submit (c : BoundContract) (opts : TransactOpts) (rawTx : Transaction) :
    Except TransactError Transaction :=
  match opts.signer with
  | none => .error .noSigner
  | some signer =>
    match signer .homestead opts.fromAddr rawTx with
    | .error msg => .error (.signer msg)
    | .ok signedTx =>
      match c.sendTransaction signedTx with
      | .error msg => .error (.send msg)
      | .ok () => .ok signedTx

/-- `transact` with the options after it. The checksums of the random identifiers are given in the
order in which they are drawn; as long as none of them is a nonce, the loop has not ended. -/
def BoundContract.transact (c : BoundContract) (lmt : Except CallError ℤ) (sums : List Bytes)
    (opts : TransactOpts) (input : Option Bytes) :
    Option (Except TransactError Transaction × TransactOpts) :=
  match lmt with
  | .error err => some (.error (.getBlockNumber err), opts)
  | .ok lmt =>
    match sums.findSome? nonceOf with
    | none => none
    | some nonce =>
      let opts := { opts with blockLimit := bigUint64 lmt + 200, randomId := bigUint64 nonce }
      some (c.submit opts (NewTransaction c.address (opts.args input)), opts)

def keyedSigner {Key : Type} (C : Crypto Key) (key : Key) : SignerFn := fun signer address tx =>
  if address ≠ C.pubkeyToAddress key then .error "not authorized to sign this account"
  else
    match C.sign (signer.hash C tx) key with
    | .error err => .error err
    | .ok signature => (tx.withSignature signer signature).mapError SigningError.message

theorem keyedSigner_signs {Key : Type} (C : Crypto Key) (key : Key) (signer : Types.Signer)
    (tx : Transaction) : ∃ tx', keyedSigner C key signer (C.pubkeyToAddress key) tx = .ok tx' := by
  obtain ⟨r, s, v, hsign, -, hr, -, hs, hv⟩ := C.sign_form (signer.hash C tx) key
  have hN : Types.secp256k1N < 256 ^ 32 := by decide
  have hhalf : Types.secp256k1halfN < Types.secp256k1N := by decide
  have hvalues := Types.signatureValues_sign (r := r) (s := s) (by omega) (by omega) hv signer
  simp only [keyedSigner, ne_eq, not_true_eq_false, if_false, hsign, Transaction.withSignature,
    hvalues]
  exact ⟨_, rfl⟩

def OnlySigns (f : SignerFn) : Prop :=
  ∀ signer address tx tx', f signer address tx = .ok tx' → ∃ r s v, tx' = tx.signed r s v

theorem keyedSigner_onlySigns {Key : Type} (C : Crypto Key) (key : Key) :
    OnlySigns (keyedSigner C key) := by
  intro signer address tx tx' h
  unfold keyedSigner at h
  split_ifs at h
  split at h
  · cases h
  · next signature _ =>
    unfold Transaction.withSignature at h
    cases hvals : signer.signatureValues signature with
    | error e =>
      rw [hvals] at h
      cases h
    | ok vals =>
      rw [hvals] at h
      cases h
      exact ⟨_, _, _, rfl⟩

theorem bigUint64_bigHeight {h : ℕ} (hlt : h < 2 ^ 64) :
    (bigUint64 (bigHeight h)).toNat = if h ≤ 2 ^ 63 then h else 2 ^ 64 - h := by
  have hmod : uint64Of (bigHeight h) < 2 ^ 64 := Nat.mod_lt _ (by norm_num)
  rw [bigUint64, UInt64.toNat_ofNat_of_lt' hmod, uint64Of, bigHeight]
  split_ifs with h1 h2 h2
  · rw [Int.natAbs_natCast, Nat.mod_eq_of_lt hlt]
  · omega
  · omega
  · omega

theorem limit_eq_iff {h d : ℕ} (hlt : h < 2 ^ 64) (hd : d < 2 ^ 63) (k : UInt64)
    (hk : k.toNat = d) : (bigUint64 (bigHeight h) + k).toNat = h + d ↔ h ≤ 2 ^ 63 := by
  rw [UInt64.toNat_add, bigUint64_bigHeight hlt, hk]
  split_ifs with hle
  · rw [Nat.mod_eq_of_lt (by omega)]
    exact iff_of_true rfl hle
  · refine iff_of_false ?_ hle
    have hmod : (2 ^ 64 - h + d) % 2 ^ 64 = 2 ^ 64 - h + d := Nat.mod_eq_of_lt (by omega)
    omega

theorem bigHeight_eq_iff {h : ℕ} : bigHeight h = h ↔ h < 2 ^ 63 := by
  unfold bigHeight
  split_ifs with hlt
  · exact iff_of_true rfl hlt
  · refine iff_of_false ?_ hlt
    omega

theorem Backend.blockNumber_eq (T : JsonText) (b : Backend) {s : Bytes} {h : ℕ}
    (hresult : b.result T = .ok s) (hs : HexQuantity s h) (hlt : h < 2 ^ 64) :
    b.blockNumber T = .ok (bigHeight h) := by
  have hheight : blockHeight s = some (bigHeight h) := by
    rw [blockHeight, (decodeUint64_ok_iff s h).mpr ⟨hs, hlt⟩]
  have hconv : b.blockNumber T = convert blockHeight (b.result T) := by
    cases b <;> rfl
  rw [hconv, hresult, convert, hheight]
  rfl

/-- The limit is 1000 blocks ahead, or there is an error and the options are as before. -/
def LimitRight (h : ℕ) (opt : TransactOpts) : Except CallError Unit × TransactOpts → Prop
  | (.ok (), opt') => opt'.blockLimit.toNat = h + 1000
  | (.error _, opt') => opt' = opt

/-- The signed transaction has a limit 200 blocks ahead, or there is an error and the options are
as before. -/
def TransactRight (h : ℕ) (opts : TransactOpts) :
    Except TransactError Transaction × TransactOpts → Prop
  | (.ok tx, _) => tx.data.blockLimit.toNat = h + 200
  | (.error _, opts') => opts' = opts

theorem submit_blockLimit {c : BoundContract} {opts : TransactOpts}
    (hsigner : ∀ f, opts.signer = some f → OnlySigns f) {rawTx tx : Transaction}
    (h : c.submit opts rawTx = .ok tx) : tx.data.blockLimit = rawTx.data.blockLimit := by
  unfold BoundContract.submit at h
  cases hf : opts.signer with
  | none =>
    rw [hf] at h
    cases h
  | some f =>
    rw [hf] at h
    dsimp only at h
    cases hsigned : f .homestead opts.fromAddr rawTx with
    | error msg =>
      rw [hsigned] at h
      cases h
    | ok signedTx =>
      rw [hsigned] at h
      dsimp only at h
      obtain ⟨r, s, v, rfl⟩ := hsigner f hf _ _ _ _ hsigned
      split at h
      · cases h
      · cases h
        rfl

def TransactOpts.prepared (opts : TransactOpts) (lmt nonce : ℤ) : TransactOpts :=
  { opts with blockLimit := bigUint64 lmt + 200, randomId := bigUint64 nonce }

theorem transactRight_iff {h : ℕ} (hlt : h < 2 ^ 64) (c : BoundContract) {opts : TransactOpts}
    (hsigner : ∀ f, opts.signer = some f → OnlySigns f) {sums : List Bytes} {nonce : ℤ}
    (hnonce : sums.findSome? nonceOf = some nonce) (input : Option Bytes) :
    (∃ res, c.transact (.ok (bigHeight h)) sums opts input = some res ∧ TransactRight h opts res) ↔
      ((∃ tx, c.submit (opts.prepared (bigHeight h) nonce) (NewTransaction c.address
          ((opts.prepared (bigHeight h) nonce).args input)) = .ok tx) ∧ h ≤ 2 ^ 63) ∨
      ((∃ e, c.submit (opts.prepared (bigHeight h) nonce) (NewTransaction c.address
          ((opts.prepared (bigHeight h) nonce).args input)) = .error e) ∧
        opts.prepared (bigHeight h) nonce = opts) := by
  have hres : c.transact (.ok (bigHeight h)) sums opts input =
      some (c.submit (opts.prepared (bigHeight h) nonce) (NewTransaction c.address
        ((opts.prepared (bigHeight h) nonce).args input)), opts.prepared (bigHeight h) nonce) := by
    simp only [BoundContract.transact, hnonce]
    rfl
  have hkeeps : ∀ f, (opts.prepared (bigHeight h) nonce).signer = some f → OnlySigns f := hsigner
  rw [hres]
  simp only [Option.some.injEq, exists_eq_left']
  cases hsubmit : c.submit (opts.prepared (bigHeight h) nonce) (NewTransaction c.address
      ((opts.prepared (bigHeight h) nonce).args input)) with
  | error e =>
    simp only [TransactRight, reduceCtorEq, exists_false, false_and, false_or, Except.error.injEq,
      exists_eq', true_and]
  | ok tx =>
    have hlimit : tx.data.blockLimit = bigUint64 (bigHeight h) + 200 :=
      submit_blockLimit hkeeps hsubmit
    simp only [TransactRight, reduceCtorEq, exists_false, false_and, or_false, Except.ok.injEq,
      exists_eq', true_and, hlimit]
    exact limit_eq_iff hlt (by norm_num) 200 rfl

theorem submit_ok_iff (c : BoundContract) (opts : TransactOpts) (rawTx : Transaction) :
    (∃ tx, c.submit opts rawTx = .ok tx) ↔ ∃ signer tx, opts.signer = some signer ∧
      signer .homestead opts.fromAddr rawTx = .ok tx ∧ c.sendTransaction tx = .ok () := by
  unfold BoundContract.submit
  cases opts.signer with
  | none => simp
  | some signer =>
    cases hsigned : signer .homestead opts.fromAddr rawTx with
    | error msg => simp [hsigned]
    | ok tx => cases hsent : c.sendTransaction tx <;> simp [hsigned, hsent]

/-- For a height below 2^63 everything is right unless `transact` fails after it has changed the
options: without a signer, or if signing or sending fails. -/
theorem block_limit_iff (T : JsonText) (b : Backend) (s : Bytes) (h : ℕ)
    (hresult : b.result T = .ok s) (hs : HexQuantity s h) (hlt : h < 2 ^ 64) (c : BoundContract)
    (opts : TransactOpts) (hsigner : ∀ f, opts.signer = some f → OnlySigns f) (sums : List Bytes)
    (nonce : ℤ) (hnonce : sums.findSome? nonceOf = some nonce) (input : Option Bytes) :
    (b.blockNumber T = .ok (h : ℤ) ∧ LimitRight h opts (b.updateBlockLimit T opts) ∧
      ∃ res, c.transact (b.blockNumber T) sums opts input = some res ∧ TransactRight h opts res) ↔
    h < 2 ^ 63 ∧ ((∃ signer tx, opts.signer = some signer ∧ signer .homestead opts.fromAddr
        (NewTransaction c.address ((opts.prepared h nonce).args input)) = .ok tx ∧
        c.sendTransaction tx = .ok ()) ∨ opts.prepared h nonce = opts) := by
  have hsubmitted := submit_ok_iff c (opts.prepared h nonce) (NewTransaction c.address
    ((opts.prepared h nonce).args input))
  have hnumber := b.blockNumber_eq T hresult hs hlt
  have hkept : b.blockNumber T = .ok (h : ℤ) ↔ h < 2 ^ 63 := by
    rw [hnumber, Except.ok.injEq, bigHeight_eq_iff]
  constructor
  · intro hall
    have hlow := hkept.mp hall.1
    refine ⟨hlow, ?_⟩
    rw [hnumber] at hall
    have hright := (transactRight_iff hlt c hsigner hnonce input).mp hall.2.2
    rw [bigHeight_eq_iff.mpr hlow] at hright
    rcases hright with ⟨hok, -⟩ | ⟨-, hsame⟩
    · exact .inl (hsubmitted.mp hok)
    · exact .inr hsame
  · rintro ⟨hlow, hsubmit⟩
    have hbig := bigHeight_eq_iff.mpr hlow
    refine ⟨hkept.mpr hlow, ?_, ?_⟩
    · unfold Backend.updateBlockLimit
      rw [hnumber]
      exact (limit_eq_iff (d := 1000) hlt (by norm_num) 1000 rfl).mpr (by omega)
    · rw [hnumber, transactRight_iff hlt c hsigner hnonce input, hbig]
      cases hres : c.submit (opts.prepared h nonce) (NewTransaction c.address
          ((opts.prepared h nonce).args input)) with
      | ok tx => exact .inl ⟨⟨tx, rfl⟩, by omega⟩
      | error e =>
        rcases hsubmit with hok | hsame
        · obtain ⟨tx, htx⟩ := hsubmitted.mpr hok
          rw [hres] at htx
          cases htx
        · exact .inr ⟨⟨e, rfl⟩, hsame⟩

def answered (s : Bytes) : Backend := .http 200 (resultText s)

def keyOpts (signed : Bool) : TransactOpts where
  fromAddr := twoKeys.pubkeyToAddress false
  randomId := 0
  signer := if signed then some (keyedSigner twoKeys false) else none
  value := none
  gasPrice := none
  gasLimit := 0
  chainId := 1
  groupId := 1
  blockLimit := 0

def contractSending : BoundContract := ⟨twoKeys.pubkeyToAddress false, fun _ => .ok ()⟩

def firstSum : Bytes := 16 :: List.replicate 15 0

theorem firstSum_nonce : [firstSum].findSome? nonceOf = some (16 * 256 ^ 15) := by decide +kernel

/-- The highest height becomes -1 and the limit 1001, and without a signer `transact` fails with the
options changed. -/
theorem high_block_limit : (answered (ascii "0xffffffffffffffff")).blockNumber flatText = .ok (-1) ∧
    ((answered (ascii "0xffffffffffffffff")).updateBlockLimit flatText
      (keyOpts true)).2.blockLimit = 1001 ∧
    ∃ opts, contractSending.transact ((answered (ascii "0x1")).blockNumber flatText) [firstSum]
        (keyOpts false) none = some (.error .noSigner, opts) ∧
      opts.blockLimit = 201 ∧ (keyOpts false).blockLimit = 0 := by
  have hhigh : (answered (ascii "0xffffffffffffffff")).blockNumber flatText = .ok (-1) :=
    Backend.blockNumber_eq _ _ (h := 2 ^ 64 - 1) (s := ascii "0xffffffffffffffff") rfl
      ((decodeUint64_ok_iff _ _).mp (by decide +kernel)).1 (by norm_num)
  have hone : (answered (ascii "0x1")).blockNumber flatText = .ok 1 :=
    Backend.blockNumber_eq _ _ (h := 1) (s := ascii "0x1") rfl
      ((decodeUint64_ok_iff _ _).mp (by decide +kernel)).1 (by norm_num)
  refine ⟨hhigh, ?_, (keyOpts false).prepared 1 (16 * 256 ^ 15), ?_, ?_, rfl⟩
  · rw [Backend.updateBlockLimit, hhigh]
    decide +kernel
  · rw [hone]
    simp only [BoundContract.transact, firstSum_nonce]
    rfl
  · decide +kernel

theorem block_limit_five :
    LimitRight 5 (keyOpts true) ((answered (ascii "0x5")).updateBlockLimit flatText (keyOpts true)) ∧
    ∃ res, contractSending.transact ((answered (ascii "0x5")).blockNumber flatText) [firstSum]
      (keyOpts true) none = some res ∧ TransactRight 5 (keyOpts true) res := by
  have hsigner : ∀ f, (keyOpts true).signer = some f → OnlySigns f := by
    rintro f ⟨⟩
    exact keyedSigner_onlySigns twoKeys false
  obtain ⟨tx, htx⟩ := keyedSigner_signs twoKeys false .homestead (NewTransaction
    contractSending.address (((keyOpts true).prepared (5 : ℕ) (16 * 256 ^ 15)).args none))
  have hall := (block_limit_iff flatText (answered (ascii "0x5")) (ascii "0x5") 5 rfl
    ((decodeUint64_ok_iff _ _).mp (by decide +kernel)).1 (by norm_num)
    contractSending (keyOpts true) hsigner [firstSum] _ firstSum_nonce none).mpr
    ⟨by norm_num, .inl ⟨_, tx, rfl, htx, rfl⟩⟩
  exact hall.2

end Fiscobcos.Bind
