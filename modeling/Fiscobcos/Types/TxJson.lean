import Fiscobcos.Common.HexJson
import Fiscobcos.Lib.FlatJson
import Fiscobcos.Types.Sender
import Fiscobcos.Types.TxHash

/-! # Transactions in JSON (core/types/gen_tx_json.go, core/types/transaction.go)

The generated codec lacks `BlockLimit`, `ChainId`, `GroupId` and `ExtraData`. -/

namespace Fiscobcos.Types
open Option

open Fiscobcos.Numerals Fiscobcos.Rlp Fiscobcos.JsonTree Fiscobcos.FlatJson Fiscobcos.Hexutil

inductive TxField where
  | randomid | gasPrice | gas | recipient | value | input | v | r | s | hash
deriving DecidableEq

def TxField.all : List TxField :=
  [.randomid, .gasPrice, .gas, .recipient, .value, .input, .v, .r, .s, .hash]

def TxField.name : TxField → Bytes
  | .randomid => ascii "randomid"
  | .gasPrice => ascii "gasPrice"
  | .gas => ascii "gas"
  | .recipient => ascii "to"
  | .value => ascii "value"
  | .input => ascii "input"
  | .v => ascii "v"
  | .r => ascii "r"
  | .s => ascii "s"
  | .hash => ascii "hash"

/-- The field with the name of the member, or else with a name that differs in case only. -/
def TxField.forKey (key : Bytes) : Option TxField :=
  match TxField.all.find? fun f => f.name = key with
  | some f => some f
  | none => TxField.all.find? fun f => foldBytes f.name = foldBytes key

/-- The struct that the generated `UnmarshalJSON` fills: pointers only. -/
structure TxJson where
  randomId : Option UInt64
  price : Option ℤ
  gasLimit : Option UInt64
  recipient : Option Address
  amount : Option ℤ
  payload : Option Bytes
  v : Option ℤ
  r : Option ℤ
  s : Option ℤ
  hash : Option Hash

inductive TxJsonError where
  | syntaxError
  | text (e : TextError)
  | missing (field : String)
  | invalidSig

def TxJsonError.message : TxJsonError → String
  | .missing field => "missing required field '" ++ field ++ "' for txdata"
  | .invalidSig => "invalid transaction v, r, s values"
  | _ => "json"

/-- Into a pointer: `null` is nil, anything else goes to `UnmarshalJSON` of the type. -/
def pointer {α : Type} (text : Bytes → Except TextError α) (raw : Bytes) :
    Except TextError (Option α) :=
  if raw = nullText then .ok none else (unmarshalJSON text raw).map some

def arrayText (n : ℕ) (input : Bytes) : Except TextError (Rlp.ByteArray n) :=
  (fixedText n input).map (fillArray n)

def TxJson.store (d : TxJson) (raw : Bytes) : TxField → Except TextError TxJson
  | .randomid => (pointer uint64Text raw).map fun x => { d with randomId := x }
  | .gasPrice => (pointer bigText raw).map fun x => { d with price := x }
  | .gas => (pointer uint64Text raw).map fun x => { d with gasLimit := x }
  | .recipient => (pointer (arrayText 20) raw).map fun x => { d with recipient := x }
  | .value => (pointer bigText raw).map fun x => { d with amount := x }
  | .input => (pointer bytesText raw).map fun x => { d with payload := x }
  | .v => (pointer bigText raw).map fun x => { d with v := x }
  | .r => (pointer bigText raw).map fun x => { d with r := x }
  | .s => (pointer bigText raw).map fun x => { d with s := x }
  | .hash => (pointer (arrayText 32) raw).map fun x => { d with hash := x }

def TxJson.fill : List (Bytes × Bytes) → TxJson → Except TextError TxJson
  | [], d => .ok d
  | (key, raw) :: ms, d =>
    match TxField.forKey key with
    | none => TxJson.fill ms d
    | some f =>
      match d.store raw f with
      | .error e => .error e
      | .ok d => TxJson.fill ms d

def TxJson.zero : TxJson := ⟨none, none, none, none, none, none, none, none, none, none⟩

def required {α : Type} (field : String) : Option α → Except TxJsonError α
  | none => .error (.missing field)
  | some x => .ok x

/-- The required fields in the order of the checks; what is not listed keeps its zero value. -/
def TxJson.toData (d : TxJson) : Except TxJsonError TxData := do
  let randomId ← required "nonce" d.randomId
  let price ← required "gasPrice" d.price
  let gasLimit ← required "gas" d.gasLimit
  let amount ← required "value" d.amount
  let payload ← required "input" d.payload
  let v ← required "v" d.v
  let r ← required "r" d.r
  let s ← required "s" d.s
  return {
    randomId
    price := some price
    gasLimit
    blockLimit := 0
    recipient := d.recipient
    amount := some amount
    payload := some payload
    chainId := none
    groupId := none
    extraData := none
    v := some v
    r := some r
    s := some s
    hash := d.hash }

def TxData.unmarshalJSON (R : ObjectReader) (input : Bytes) : Except TxJsonError TxData :=
  match R.members input with
  | none => .error .syntaxError
  | some ms =>
    match TxJson.fill ms .zero with
    | .error e => .error (.text e)
    | .ok d => d.toData

def bigMember : Option ℤ → Bytes
  | none => nullText
  | some z => quoted (encodeBig z)

def arrayMember {n : ℕ} : Option (Rlp.ByteArray n) → Bytes
  | none => nullText
  | some a => quoted (Hexutil.encode a.val)

def TxData.jsonMembers (d : TxData) : List (Bytes × Bytes) :=
  [(TxField.randomid.name, quoted (encodeUint64 d.randomId)),
    (TxField.gasPrice.name, bigMember d.price),
    (TxField.gas.name, quoted (encodeUint64 d.gasLimit)),
    (TxField.recipient.name, arrayMember d.recipient),
    (TxField.value.name, bigMember d.amount),
    (TxField.input.name, quoted (Hexutil.encode (d.payload.getD []))),
    (TxField.v.name, bigMember d.v), (TxField.r.name, bigMember d.r),
    (TxField.s.name, bigMember d.s), (TxField.hash.name, arrayMember d.hash)]

def TxData.marshalJSON (d : TxData) : Bytes := objectText d.jsonMembers

def Transaction.getHash (keccak256 : Bytes → Hash) (tx : Transaction) : Hash × Transaction :=
  match tx.hash with
  | some h => (h, tx)
  | none => (keccak256 tx.hashInput, { tx with hash := some (keccak256 tx.hashInput) })

def Transaction.marshalJSON (keccak256 : Bytes → Hash) (tx : Transaction) : Bytes :=
  { tx.data with hash := some (tx.getHash keccak256).1 }.marshalJSON

/-- The recovery id that `UnmarshalJSON` checks, a byte of `uint64` arithmetic. -/
def signatureByte (v : ℤ) : Byte :=
  if isProtectedV v then
    lowByte (sub64 (sub64 (uint64Of v) 35) (2 * uint64Of (deriveChainId v) % 2 ^ 64))
  else lowByte (sub64 (uint64Of v) 27)

/-- The pointers are not nil after `TxData.unmarshalJSON`. -/
def checkSignature (d : TxData) : Bool :=
  let v := d.v.getD 0
  let r := d.r.getD 0
  let s := d.s.getD 0
  if v ≠ 0 ∨ r ≠ 0 ∨ s ≠ 0 then validateSignatureValues (signatureByte v) r s false else true

def Transaction.unmarshalJSON (R : ObjectReader) (input : Bytes) : Except TxJsonError Transaction :=
  match TxData.unmarshalJSON R input with
  | .error e => .error e
  | .ok dec =>
    if checkSignature dec then .ok { data := dec, hash := none, size := none, sender := none }
    else .error .invalidSig

theorem TxField.forKey_name (f : TxField) : TxField.forKey f.name = some f := by
  cases f <;> decide

theorem hexChar_plain {d : ℕ} (h : d < 16) : letterOrDigit (hexChar d) = true := by
  interval_cases d <;> decide

theorem hexUint_plain (n : ℕ) : Plain (hexUint n) := by
  intro b hb
  rw [hexUint_eq] at hb
  obtain ⟨d, hd, rfl⟩ := List.mem_map.mp hb
  exact hexChar_plain (hexDigits_lt hd)

theorem prefix_plain : Plain [48, 120] := by decide

theorem encodeUint64_plain (i : UInt64) : Plain (encodeUint64 i) :=
  prefix_plain.append (hexUint_plain _)

theorem encodeBig_plain {z : ℤ} (h : 0 ≤ z) : Plain (encodeBig z) := by
  unfold encodeBig
  split_ifs with hz hneg
  · decide
  · omega
  · exact prefix_plain.append (hexUint_plain _)

theorem encode_plain (bs : Bytes) : Plain (Hexutil.encode bs) := by
  refine prefix_plain.append fun b hb => ?_
  obtain ⟨c, -, hc⟩ := List.mem_flatMap.mp hb
  have := c.isLt
  simp only [List.mem_cons, List.not_mem_nil, or_false] at hc
  rcases hc with rfl | rfl
  · exact hexChar_plain (by omega)
  · exact hexChar_plain (by omega)

def InBig256 (v : Option ℤ) : Prop := ∀ z, v = some z → 0 ≤ z ∧ z < 2 ^ 256

structure TxData.InBig256 (d : TxData) : Prop where
  price : Types.InBig256 d.price
  amount : Types.InBig256 d.amount
  chainId : Types.InBig256 d.chainId
  groupId : Types.InBig256 d.groupId
  v : Types.InBig256 d.v
  r : Types.InBig256 d.r
  s : Types.InBig256 d.s

theorem TxField.name_plain (f : TxField) : Plain f.name := by
  cases f <;> decide

theorem plainMember_quoted (f : TxField) {s : Bytes} (hs : Plain s) :
    PlainMember (f.name, quoted s) :=
  ⟨f.name_plain, .inr ⟨s, hs, rfl⟩⟩

theorem plainMember_big (f : TxField) {v : Option ℤ} (hv : InBig256 v) :
    PlainMember (f.name, bigMember v) := by
  cases v with
  | none => exact ⟨f.name_plain, .inl rfl⟩
  | some z => exact plainMember_quoted f (encodeBig_plain (hv z rfl).1)

variable {n : ℕ} {d : TxData} {tx : Transaction}

theorem plainMember_array (f : TxField) (a : Option (Rlp.ByteArray n)) :
    PlainMember (f.name, arrayMember a) := by
  cases a with
  | none => exact ⟨f.name_plain, .inl rfl⟩
  | some a => exact plainMember_quoted f (encode_plain _)

theorem jsonMembers_plain (hd : d.InBig256) : ∀ m ∈ d.jsonMembers, PlainMember m := by
  simp only [TxData.jsonMembers, List.forall_mem_cons, List.not_mem_nil, false_implies,
    implies_true, and_true]
  exact ⟨plainMember_quoted _ (encodeUint64_plain _), plainMember_big _ hd.price,
    plainMember_quoted _ (encodeUint64_plain _), plainMember_array _ _, plainMember_big _ hd.amount,
    plainMember_quoted _ (encode_plain _), plainMember_big _ hd.v, plainMember_big _ hd.r,
    plainMember_big _ hd.s, plainMember_array _ _⟩

theorem pointer_quoted {α : Type} (text : Bytes → Except TextError α) {s : Bytes} {x : α}
    (h : text s = .ok x) : pointer text (quoted s) = .ok (some x) := by
  have hne : quoted s ≠ nullText := by
    intro heq
    have hhead : some (34 : Byte) = some 110 := congrArg List.head? heq
    exact absurd hhead (by decide)
  rw [pointer, if_neg hne, quoted, unmarshalJSON_quoted, h]
  rfl

theorem pointer_big {v : Option ℤ} (hv : InBig256 v) : pointer bigText (bigMember v) = .ok v := by
  cases v with
  | none => rfl
  | some z => exact pointer_quoted bigText (read_encodeBig (hv z rfl).1 (hv z rfl).2).2

theorem fillArray_val (a : Rlp.ByteArray n) : fillArray n a.val = a := by
  have hlen := a.property
  apply Subtype.ext
  simp [fillArray, hlen]

theorem pointer_array (a : Option (Rlp.ByteArray n)) :
    pointer (arrayText n) (arrayMember a) = .ok a := by
  cases a with
  | none => rfl
  | some a =>
    have hlen := a.property
    have htext : arrayText n (Hexutil.encode a.val) = .ok a := by
      have hfix := fixedText_encode a.val
      rw [hlen] at hfix
      rw [arrayText, hfix]
      exact congrArg Except.ok (fillArray_val a)
    exact pointer_quoted _ htext

def TxData.json (d : TxData) : TxJson :=
  ⟨some d.randomId, d.price, some d.gasLimit, d.recipient, d.amount, some (d.payload.getD []), d.v,
    d.r, d.s, d.hash⟩

theorem fill_jsonMembers (hd : d.InBig256) : TxJson.fill d.jsonMembers .zero = .ok d.json := by
  have huint : ∀ i, pointer uint64Text (quoted (encodeUint64 i)) = .ok (some i) :=
    fun i => pointer_quoted _ (uint64Text_encodeUint64 i)
  have hbytes : ∀ b, pointer bytesText (quoted (Hexutil.encode b)) = .ok (some b) :=
    fun b => pointer_quoted _ (bytesText_encode b)
  simp only [TxData.jsonMembers, TxJson.fill, TxField.forKey_name, TxJson.store, huint, hbytes,
    pointer_big hd.price, pointer_big hd.amount, pointer_big hd.v, pointer_big hd.r,
    pointer_big hd.s, pointer_array]
  rfl

theorem unmarshalJSON_marshalJSON (R : ObjectReader) (hd : d.InBig256) :
    TxData.unmarshalJSON R d.marshalJSON = d.json.toData := by
  simp only [TxData.unmarshalJSON, TxData.marshalJSON, R.members_text _ (jsonMembers_plain hd),
    fill_jsonMembers hd]

theorem lowByte_parity {w : ℕ} (h : w % 2 = w) : lowByte w = 0 ∨ lowByte w = 1 := by
  have hcases : w = 0 ∨ w = 1 := by omega
  rcases hcases with rfl | rfl
  · exact .inl rfl
  · exact .inr rfl

theorem isProtectedV_nat (n : ℕ) : isProtectedV n = true ↔ n ≠ 27 ∧ n ≠ 28 := by
  unfold isProtectedV uint64Of
  simp only [Int.natAbs_natCast]
  split_ifs with h8
  · have hlt := (bitLen_le n 8).mp h8
    have hmod : n % 2 ^ 64 = n := Nat.mod_eq_of_lt (by omega)
    simp only [hmod, Bool.and_eq_true, decide_eq_true_eq]
  · have hge : ¬ n < 2 ^ 8 := fun hn => h8 ((bitLen_le n 8).mpr hn)
    refine iff_of_true rfl ⟨?_, ?_⟩ <;> omega

theorem uint64Of_deriveChainId (hp : n ≠ 27 ∧ n ≠ 28) : 2 * uint64Of (deriveChainId n) % 2 ^ 64 =
      sub64 (uint64Of n) 35 - sub64 (uint64Of n) 35 % 2 := by
  unfold deriveChainId
  simp only [Int.natAbs_natCast]
  split_ifs with h64 h27
  · have hlt := (bitLen_le n 64).mp h64
    rw [uint64Of, Int.natAbs_natCast, Nat.mod_eq_of_lt hlt] at h27
    omega
  · have hw : sub64 (uint64Of n) 35 < 2 ^ 64 := Nat.mod_lt _ (by norm_num)
    generalize sub64 (uint64Of n) 35 = w at hw
    rw [uint64Of, Int.natAbs_natCast]
    omega
  · have hge : ¬ n < 2 ^ 64 := fun hn => h64 ((bitLen_le n 64).mpr hn)
    have hdiv : ((n : ℤ) - 35) / 2 = ((n - 35) / 2 : ℕ) := by omega
    rw [hdiv, uint64Of, uint64Of, Int.natAbs_natCast, Int.natAbs_natCast, sub64]
    omega

theorem signatureByte_valid {v : ℤ} (h : 0 ≤ v) : signatureByte v = 0 ∨ signatureByte v = 1 := by
  obtain ⟨n, rfl⟩ := Int.eq_ofNat_of_zero_le h
  unfold signatureByte
  split_ifs with hp
  · rw [uint64Of_deriveChainId ((isProtectedV_nat n).mp hp)]
    have hw : sub64 (uint64Of n) 35 < 2 ^ 64 := Nat.mod_lt _ (by norm_num)
    generalize sub64 (uint64Of n) 35 = w at hw
    apply lowByte_parity
    unfold sub64
    omega
  · have hn : n = 27 ∨ n = 28 := by
      by_contra hne
      exact hp ((isProtectedV_nat n).mpr (not_or.mp hne))
    rcases hn with rfl | rfl
    · exact .inl rfl
    · exact .inr rfl

theorem checkSignature_of_range (hv : 0 ≤ d.v.getD 0)
    (hr : 1 ≤ d.r.getD 0 ∧ d.r.getD 0 < secp256k1N) (hs : 1 ≤ d.s.getD 0 ∧ d.s.getD 0 < secp256k1N) :
    checkSignature d = true := by
  have hbyte := signatureByte_valid hv
  have hne : d.v.getD 0 ≠ 0 ∨ d.r.getD 0 ≠ 0 ∨ d.s.getD 0 ≠ 0 := by omega
  have hlow : ¬ (d.r.getD 0 < 1 ∨ d.s.getD 0 < 1) := by omega
  simp only [checkSignature, if_pos hne, validateSignatureValues, if_neg hlow, Bool.false_eq_true,
    false_and, if_false, Bool.and_eq_true, Bool.or_eq_true, decide_eq_true_eq]
  exact ⟨⟨hr.2, hs.2⟩, hbyte⟩

structure TxData.Unsigned (d : TxData) : Prop where
  v : d.v = some 0
  r : d.r = some 0
  s : d.s = some 0

theorem TxData.Unsigned.checkSignature (h : d.Unsigned) : checkSignature d = true := by
  simp [Types.checkSignature, h.v, h.r, h.s]

def Transaction.SignedOrNot {Key : Type} (C : Crypto Key) (tx : Transaction) : Prop :=
  tx.data.Unsigned ∨ ∃ tx₀ σ k, signTx C tx₀ σ k = .ok tx

theorem Transaction.SignedOrNot.values {Key : Type} {C : Crypto Key}
    (h : tx.SignedOrNot C) (hd : tx.data.InBig256) :
    (∃ v r s, tx.data.v = some v ∧ tx.data.r = some r ∧ tx.data.s = some s) ∧
      checkSignature tx.data = true := by
  rcases h with h | ⟨tx₀, σ, k, hsign⟩
  · exact ⟨⟨0, 0, 0, h.v, h.r, h.s⟩, h.checkSignature⟩
  · have hN := secp256k1N_lt
    have hhalf : secp256k1halfN < secp256k1N := by decide
    obtain ⟨r, s, v, hsig, hr, hrN, hs, hsN, hv⟩ := C.sign_form (σ.hash C tx₀) k
    rw [signTx_eq C tx₀ σ k hsig (by omega) (by omega) hv] at hsign
    cases hsign
    have hV := (hd.v (σ.storedV v) rfl).1
    refine ⟨⟨_, _, _, rfl, rfl, rfl⟩, checkSignature_of_range hV ?_ ?_⟩
    · show (1 : ℤ) ≤ r ∧ (r : ℤ) < secp256k1N
      omega
    · show (1 : ℤ) ≤ s ∧ (s : ℤ) < secp256k1N
      omega

/-- The fields that the text leaves out have their zero values, and the required integers are
there. -/
structure TxData.JsonComplete (d : TxData) : Prop where
  price : d.price.isSome
  amount : d.amount.isSome
  blockLimit : d.blockLimit = 0
  chainId : d.chainId.getD 0 = 0
  groupId : d.groupId.getD 0 = 0
  extraData : d.extraData.getD [] = []

def TxData.reread (d : TxData) : TxData :=
  { d with
    blockLimit := 0
    payload := some (d.payload.getD [])
    chainId := none
    groupId := none
    extraData := none }

theorem toData_json {p a v r s : ℤ} (hp : d.price = some p) (ha : d.amount = some a)
    (hv : d.v = some v) (hr : d.r = some r) (hs : d.s = some s) : d.json.toData = .ok d.reread := by
  obtain ⟨_, _, _, _, _, _, _, _, _, _, _, _, _, _⟩ := d
  cases hp
  cases ha
  cases hv
  cases hr
  cases hs
  rfl

theorem toData_json_missing {d d' : TxData} (h : d.json.toData = .ok d') :
    d.price.isSome ∧ d.amount.isSome := by
  obtain ⟨_, price, _, _, _, amount, _, _, _, _, _, _, _, _⟩ := d
  cases price with
  | none => cases h
  | some p =>
    cases amount with
    | none => cases h
    | some a => exact ⟨rfl, rfl⟩

theorem reread_norm_iff (hp : d.price.isSome) (ha : d.amount.isSome) :
    d.reread.norm = d.norm ↔ d.JsonComplete := by
  constructor
  · intro h
    have hlimit := congrArg TxData.blockLimit h
    have hchain := congrArg TxData.chainId h
    have hgroup := congrArg TxData.groupId h
    have hextra := congrArg TxData.extraData h
    exact ⟨hp, ha, hlimit.symm, (some.inj hchain).symm, (some.inj hgroup).symm,
      (some.inj hextra).symm⟩
  · intro h
    simp only [TxData.norm, TxData.reread, h.blockLimit, h.chainId, h.groupId, h.extraData,
      getD_none, getD_some]

theorem writeBigIntPtr_norm (v : Option ℤ) : writeBigIntPtr (some (v.getD 0)) = writeBigIntPtr v := by
  cases v <;> rfl

theorem encodeRLP_congr {tx tx' : Transaction} (h : tx.data.norm = tx'.data.norm) :
    tx.encodeRLP = tx'.encodeRLP := by
  have hnorm : ∀ t : Transaction, t.encodeRLP = txdataInfo.writer t.data.norm.fields := by
    intro t
    simp only [Transaction.encodeRLP, txdataInfo, structInfo, txdataFields, FieldsInfo.field,
      noFields, TxData.fields, TxData.norm, bigIntInfo, writeBigIntPtr_norm]
    rfl
  rw [hnorm, hnorm, h]

def Transaction.hashedData (keccak256 : Bytes → Hash) (tx : Transaction) : TxData :=
  { tx.data with hash := some (tx.getHash keccak256).1 }

theorem hashedData_inBig256 (keccak256 : Bytes → Hash) (hd : tx.data.InBig256) :
    (tx.hashedData keccak256).InBig256 :=
  ⟨hd.price, hd.amount, hd.chainId, hd.groupId, hd.v, hd.r, hd.s⟩

theorem unmarshalJSON_reread (R : ObjectReader) (keccak256 : Bytes → Hash)
    (hd : tx.data.InBig256) {p a v r s : ℤ} (hp : tx.data.price = some p)
    (ha : tx.data.amount = some a) (hv : tx.data.v = some v) (hr : tx.data.r = some r)
    (hs : tx.data.s = some s) (hcheck : checkSignature tx.data = true) :
    Transaction.unmarshalJSON R (tx.marshalJSON keccak256) =
      .ok { data := (tx.hashedData keccak256).reread, hash := none, size := none,
            sender := none } := by
  have hread : TxData.unmarshalJSON R (tx.marshalJSON keccak256) =
      .ok (tx.hashedData keccak256).reread :=
    (unmarshalJSON_marshalJSON R (hashedData_inBig256 keccak256 hd)).trans
      (toData_json hp ha hv hr hs)
  have hsig : checkSignature (tx.hashedData keccak256).reread = true := hcheck
  simp only [Transaction.unmarshalJSON, hread, hsig, if_true]

/-- A transaction comes back from its JSON form with the same fields and the same hash exactly if
the fields that the form leaves out are zero and its price and amount are not nil. -/
theorem json_round_trip_iff {Key : Type} (C : Crypto Key) (R : ObjectReader) (tx : Transaction)
    (hd : tx.data.InBig256) (hs : tx.SignedOrNot C) :
    (∃ tx', Transaction.unmarshalJSON R (tx.marshalJSON C.keccak256) = .ok tx' ∧
        tx'.data.norm = tx.data.norm ∧ tx'.hashInput = tx.hashInput) ↔
      tx.data.JsonComplete := by
  obtain ⟨⟨v, r, s, hv, hr, hss⟩, hcheck⟩ := hs.values hd
  by_cases hreq : tx.data.price.isSome ∧ tx.data.amount.isSome
  · obtain ⟨p, hp⟩ := isSome_iff_exists.mp hreq.1
    obtain ⟨a, ha⟩ := isSome_iff_exists.mp hreq.2
    have hnorm : (tx.hashedData C.keccak256).reread.norm = tx.data.reread.norm := rfl
    rw [unmarshalJSON_reread R C.keccak256 hd hp ha hv hr hss hcheck]
    simp only [Except.ok.injEq, exists_eq_left']
    rw [hnorm, ← reread_norm_iff hreq.1 hreq.2]
    refine and_iff_left_of_imp fun hsame => ?_
    unfold Transaction.hashInput
    rw [encodeRLP_congr (hnorm.trans hsame)]
  · refine iff_of_false ?_ fun h => hreq ⟨h.price, h.amount⟩
    rintro ⟨tx', htx, -⟩
    have hread : TxData.unmarshalJSON R (tx.marshalJSON C.keccak256) =
        (tx.hashedData C.keccak256).json.toData :=
      unmarshalJSON_marshalJSON R (hashedData_inBig256 C.keccak256 hd)
    unfold Transaction.unmarshalJSON at htx
    rw [hread] at htx
    cases hto : (tx.hashedData C.keccak256).json.toData with
    | error e =>
      rw [hto] at htx
      cases htx
    | ok d' =>
      have hthere := toData_json_missing hto
      exact hreq hthere

theorem newTransaction_unsigned (recipient : Option Address) (a : TxArgs) :
    (newTransaction recipient a).data.Unsigned := ⟨rfl, rfl, rfl⟩

theorem newTransaction_inBig256 (recipient : Option Address) {a : TxArgs}
    (hprice : InBig256 a.gasPrice) (hamount : InBig256 a.amount) (hchain : 0 ≤ a.chainId.toInt)
    (hgroup : 0 ≤ a.groupId.toInt) : (newTransaction recipient a).data.InBig256 := by
  have hint : ∀ i : Int64, 0 ≤ i.toInt → InBig256 (some i.toInt) := by
    intro i hi z hz
    cases hz
    have := i.toInt_lt
    omega
  have hzero : InBig256 (some 0) := by
    intro z hz
    cases hz
    decide
  exact ⟨hprice, hamount, hint _ hchain, hint _ hgroup, hzero, hzero, hzero⟩

theorem payment_inBig256 (amount : ℕ) (h : amount < 2 ^ 256) :
    (newTransaction none (payment amount)).data.InBig256 := by
  have hone : 0 ≤ (1 : Int64).toInt := by decide
  refine newTransaction_inBig256 none (fun z hz => ?_) (fun z hz => ?_) hone hone
  · cases hz
    decide
  · cases hz
    omega

def bareArgs : TxArgs := { payment 1 with blockLimit := 0, chainId := 0, groupId := 0 }

/-- A contract creation in group 1 comes back in no group, and with another hash. -/
theorem json_drops_group : (newTransaction none (payment 1)).data.InBig256 ∧
    (newTransaction none (payment 1)).data.Unsigned ∧ ∃ tx', Transaction.unmarshalJSON flatReader
        ((newTransaction none (payment 1)).marshalJSON fun _ => fillArray 32 []) = .ok tx' ∧
      tx'.data.groupId = none ∧ (newTransaction none (payment 1)).data.groupId = some 1 ∧
      tx'.hashInput ≠ (newTransaction none (payment 1)).hashInput := by
  have hbig := payment_inBig256 1 (by norm_num)
  have hunsigned := newTransaction_unsigned none (payment 1)
  have hread := unmarshalJSON_reread flatReader (fun _ => fillArray 32 []) hbig rfl rfl hunsigned.v
    hunsigned.r hunsigned.s hunsigned.checkSignature
  have hnorm : ((newTransaction none (payment 1)).hashedData fun _ => fillArray 32 []).reread.norm =
      (newTransaction none bareArgs).data.norm := rfl
  refine ⟨hbig, hunsigned, _, hread, rfl, rfl, fun h => ?_⟩
  have hn : (newTransaction none (payment 1)).data.NonNeg :=
    (newTransaction_nonNeg none (payment 1)).mpr ⟨by decide, by decide, by decide, by decide⟩
  have hm : (newTransaction none (payment 1)).data.InMemory := by
    unfold TxData.InMemory
    decide
  have hm' : (newTransaction none bareArgs).data.InMemory := by
    unfold TxData.InMemory
    decide
  have hn' : (newTransaction none bareArgs).data.NonNeg :=
    (newTransaction_nonNeg none bareArgs).mpr ⟨by decide, by decide, by decide, by decide⟩
  -- what comes back is encoded like the payment without them
  have hbare := congrArg rlpHashInput
    (@encodeRLP_congr ⟨_, none, none, none⟩ (newTransaction none bareArgs) hnorm)
  have hsame := hashInput_inj hn' hm' hn hm (hbare.symm.trans h)
  have hgroup : some (0 : ℤ) = some 1 := congrArg TxData.groupId hsame
  exact absurd hgroup (by decide)

theorem json_round_trip_bare : ∃ tx', Transaction.unmarshalJSON flatReader
        ((newTransaction none bareArgs).marshalJSON twoKeys.keccak256) = .ok tx' ∧
      tx'.data.norm = (newTransaction none bareArgs).data.norm ∧
      tx'.hashInput = (newTransaction none bareArgs).hashInput := by
  have hbig : (newTransaction none bareArgs).data.InBig256 := by
    refine newTransaction_inBig256 none (fun z hz => ?_) (fun z hz => ?_) (by decide) (by decide)
    · cases hz
      decide
    · cases hz
      decide
  have hcomplete : (newTransaction none bareArgs).data.JsonComplete :=
    ⟨rfl, rfl, rfl, rfl, rfl, rfl⟩
  exact (json_round_trip_iff twoKeys flatReader (newTransaction none bareArgs) hbig
    (.inl (newTransaction_unsigned _ _))).mpr hcomplete

end Fiscobcos.Types
