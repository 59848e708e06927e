import Fiscobcos.Rlp.Decode

/-! # Transactions (core/types/transaction.go)

A nil `*big.Int` or `[]byte` is `none`; the fields are in the order of the encoding. -/

namespace Fiscobcos.Types

open Fiscobcos.Numerals Fiscobcos.RlpFormat Fiscobcos.Rlp

abbrev Address := Rlp.ByteArray 20
abbrev Hash := Rlp.ByteArray 32

structure TxData where
  randomId : UInt64
  price : Option ℤ
  gasLimit : UInt64
  blockLimit : UInt64
  recipient : Option Address
  amount : Option ℤ
  payload : Option Bytes
  chainId : Option ℤ
  groupId : Option ℤ
  extraData : Option Bytes
  v : Option ℤ
  r : Option ℤ
  s : Option ℤ
  hash : Option Hash
deriving DecidableEq

/-- The signers of transaction_signing.go; an EIP155 signer has a chain id. -/
inductive Signer where
  | frontier
  | homestead
  | eip155 (chainId : ℤ)
deriving DecidableEq

structure SigCache where
  signer : Signer
  sender : Address
deriving DecidableEq

structure Transaction where
  data : TxData
  hash : Option Hash
  size : Option ℕ
  sender : Option SigCache
deriving DecidableEq

abbrev TxFields := UInt64 × Option ℤ × UInt64 × UInt64 × Option Address × Option ℤ × Option Bytes ×
  Option ℤ × Option ℤ × Option Bytes × Option ℤ × Option ℤ × Option ℤ × Unit

def TxData.fields (d : TxData) : TxFields :=
  (d.randomId, d.price, d.gasLimit, d.blockLimit, d.recipient, d.amount, d.payload, d.chainId,
    d.groupId, d.extraData, d.v, d.r, d.s, ())

def TxData.ofFields : TxFields → TxData
  | (randomId, price, gasLimit, blockLimit, recipient, amount, payload, chainId, groupId, extraData,
      v, r, s, ()) =>
    { randomId, price, gasLimit, blockLimit, recipient, amount, payload, chainId, groupId, extraData,
      v, r, s, hash := none }

def addressInfo : TypeInfo Address := byteArrayInfo "common.Address" 20

def recipientInfo : TypeInfo (Option Address) := nilPtrInfo "*common.Address" .string addressInfo

def txdataFields : FieldsInfo TxFields :=
  .field "RandomId" uint64Info <| .field "Price" bigIntInfo <| .field "GasLimit" uint64Info <|
  .field "BlockLimit" uint64Info <| .field "Recipient" recipientInfo <|
  .field "Amount" bigIntInfo <| .field "Payload" byteSliceInfo <| .field "ChainId" bigIntInfo <|
  .field "GroupId" bigIntInfo <| .field "ExtraData" byteSliceInfo <| .field "V" bigIntInfo <|
  .field "R" bigIntInfo <| .field "S" bigIntInfo noFields

def txdataInfo : TypeInfo TxFields := structInfo "types.txdata" txdataFields

def listSize (contentSize : ℕ) : ℕ := headsize contentSize + contentSize

def Transaction.encodeRLP (tx : Transaction) : Emit := txdataInfo.writer tx.data.fields

/-- Into a fresh transaction. The error of `Kind` is dropped, `Decode` reports it again. -/
def Transaction.decodeRLP : Decoder Transaction := fun s =>
  let ((_, size, _), s) := s.nextKind
  match decodeValue "types.txdata" txdataInfo.decoder s with
  | (.error e, s) => (.error e, s)
  | (.ok f, s) =>
    (.ok { data := TxData.ofFields f, hash := none, size := some (listSize size), sender := none }, s)

def recipientItem : Option Address → Item
  | none => .str []
  | some a => .str a.val

def bigIntItem (v : Option ℤ) : Item := .str (minBytes (v.getD 0).natAbs)

def TxData.items (d : TxData) : List Item :=
  [.str (minBytes d.randomId.toNat), bigIntItem d.price, .str (minBytes d.gasLimit.toNat),
    .str (minBytes d.blockLimit.toNat), recipientItem d.recipient, bigIntItem d.amount,
    .str (d.payload.getD []), bigIntItem d.chainId, bigIntItem d.groupId,
    .str (d.extraData.getD []), bigIntItem d.v, bigIntItem d.r, bigIntItem d.s]

structure TxData.NonNeg (d : TxData) : Prop where
  price : 0 ≤ d.price.getD 0
  amount : 0 ≤ d.amount.getD 0
  chainId : 0 ≤ d.chainId.getD 0
  groupId : 0 ≤ d.groupId.getD 0
  v : 0 ≤ d.v.getD 0
  r : 0 ≤ d.r.getD 0
  s : 0 ≤ d.s.getD 0

def TxData.InMemory (d : TxData) : Prop := (encodeAll d.items).length < 2 ^ 63

def TxData.norm (d : TxData) : TxData :=
  { d with
    price := some (d.price.getD 0)
    amount := some (d.amount.getD 0)
    payload := some (d.payload.getD [])
    chainId := some (d.chainId.getD 0)
    groupId := some (d.groupId.getD 0)
    extraData := some (d.extraData.getD [])
    v := some (d.v.getD 0)
    r := some (d.r.getD 0)
    s := some (d.s.getD 0)
    hash := none }

def recipientMeaning : Meaning (Option Address) := nilPtrMeaning (byteArrayMeaning 20)

def txdataMeaning : FieldsMeaning TxFields :=
  .field uint64Meaning <| .field bigIntMeaning <| .field uint64Meaning <| .field uint64Meaning <|
  .field recipientMeaning <| .field bigIntMeaning <| .field byteSliceMeaning <|
  .field bigIntMeaning <| .field bigIntMeaning <| .field byteSliceMeaning <|
  .field bigIntMeaning <| .field bigIntMeaning <| .field bigIntMeaning noFieldsMeaning

theorem recipient_implements : Implements recipientInfo recipientMeaning := by
  refine nilPtr_implements (byteArray_implements _ (by norm_num)) fun v _ => ?_
  have hlen : v.val.length = 20 := v.property
  show v.val.length ≠ 0
  omega

theorem txdataFields_implements : ImplementsFields txdataFields txdataMeaning :=
  field_implements uint64_implements <| field_implements bigInt_implements <|
  field_implements uint64_implements <| field_implements uint64_implements <|
  field_implements recipient_implements <| field_implements bigInt_implements <|
  field_implements byteSlice_implements <| field_implements bigInt_implements <|
  field_implements bigInt_implements <| field_implements byteSlice_implements <|
  field_implements bigInt_implements <| field_implements bigInt_implements <|
  field_implements bigInt_implements noFields_implements

theorem txdata_implements : Implements txdataInfo (structMeaning txdataMeaning) :=
  struct_implements txdataFields_implements

theorem txdataMeaning_items (d : TxData) : txdataMeaning.items d.fields = d.items := by
  obtain ⟨_, _, _, _, _ | _, _⟩ := d <;> rfl

theorem txdataMeaning_ok (d : TxData) : txdataMeaning.ok d.fields ↔ d.NonNeg := by
  constructor
  · rintro ⟨-, h1, -, -, -, h2, -, h3, h4, -, h5, h6, h7, -⟩
    exact ⟨h1, h2, h3, h4, h5, h6, h7⟩
  · intro ⟨h1, h2, h3, h4, h5, h6, h7⟩
    have hrec : recipientMeaning.ok d.recipient := by
      cases d.recipient <;> trivial
    exact ⟨trivial, h1, trivial, trivial, hrec, h2, trivial, h3, h4, trivial, h5, h6, h7, trivial⟩

theorem txdataMeaning_norm (d : TxData) : TxData.ofFields (txdataMeaning.norm d.fields) = d.norm := by
  have hid : ∀ o : Option Address, recipientMeaning.norm o = o := by
    intro o
    cases o <;> rfl
  simp only [txdataMeaning, FieldsMeaning.field, TxData.fields, TxData.ofFields, TxData.norm, hid]
  rfl

theorem fields_ofFields (f : TxFields) : (TxData.ofFields f).fields = f := rfl

theorem encodeRLP_emits {tx : Transaction} (hn : tx.data.NonNeg)
    (hfit : (Item.list tx.data.items).Fits) : Emits tx.encodeRLP [.list tx.data.items] := by
  have h := txdata_implements.emits tx.data.fields ((txdataMeaning_ok _).mpr hn)
  simp only [structMeaning, txdataMeaning_items] at h
  exact h hfit

def decoded (size : ℕ) (f : TxFields) : Transaction where
  data := TxData.ofFields f
  hash := none
  size := some (listSize size)
  sender := none

theorem decodeRLP_eq (s : Stream) : Transaction.decodeRLP s =
    ((decodeValue "types.txdata" txdataInfo.decoder s).1.map (decoded s.nextKind.1.2.1),
      (decodeValue "types.txdata" txdataInfo.decoder s).2) := by
  have hpeek : decodeValue "types.txdata" txdataInfo.decoder s.nextKind.2 =
      decodeValue "types.txdata" txdataInfo.decoder s := by
    unfold decodeValue
    rw [txdata_implements.peek s]
  simp only [Transaction.decodeRLP, hpeek]
  rcases decodeValue "types.txdata" txdataInfo.decoder s with ⟨e | f, t⟩ <;> rfl

theorem decodeRLP_decodes : Decodes Transaction.decodeRLP fun x tx =>
    ∃ f, (structMeaning txdataMeaning).Of x f ∧ tx = decoded x.payload f := by
  refine (txdata_implements.decodes.value "types.txdata").made decodeRLP_eq ?_
  rintro x f s ⟨rfl, -, -⟩ hfit hs hhas
  rw [Stream.nextKind_list hs hfit hhas]
  rfl

theorem decodeBytes_encoded {tx : Transaction} (hn : tx.data.NonNeg)
    (hfit : (Item.list tx.data.items).Fits) :
    ∃ tx', decodeBytes "types.Transaction" Transaction.decodeRLP (Item.list tx.data.items).encode =
      .ok tx' ∧ tx'.data = tx.data.norm := by
  have hof := txdata_implements.norm tx.data.fields ((txdataMeaning_ok _).mpr hn)
  simp only [structMeaning, txdataMeaning_items] at hof
  exact ⟨_, (decodeRLP_decodes.decodeBytes_iff _ _ _).mpr ⟨_, ⟨_, hof, rfl⟩, hfit, rfl⟩,
    txdataMeaning_norm tx.data⟩

/-- The wire format loses nothing and accepts nothing but encodings. -/
theorem transaction_wire_format : (∀ tx : Transaction, tx.data.NonNeg → tx.data.InMemory →
      ∃ b tx', encodeToBytes tx.encodeRLP = .ok b ∧
        decodeBytes "types.Transaction" Transaction.decodeRLP b = .ok tx' ∧
        tx'.data = tx.data.norm) ∧ ∀ (b : Bytes) (tx : Transaction),
      decodeBytes "types.Transaction" Transaction.decodeRLP b = .ok tx →
      encodeToBytes tx.encodeRLP = .ok b := by
  refine ⟨fun tx hn hlen => ?_, fun b tx h => ?_⟩
  · have hfit : (Item.list tx.data.items).Fits := by
      show (encodeAll tx.data.items).length < 2 ^ 64
      unfold TxData.InMemory at hlen
      omega
    obtain ⟨tx', hd, hdata⟩ := decodeBytes_encoded hn hfit
    exact ⟨_, tx', encodeToBytes_of_emits (encodeRLP_emits hn hfit), hd, hdata⟩
  · obtain ⟨x, ⟨f, ⟨rfl, hok, -⟩, rfl⟩, hfit, rfl⟩ := (decodeRLP_decodes.decodeBytes_iff _ b tx).mp h
    exact encodeToBytes_of_emits (txdata_implements.emits f hok hfit)

def transfer (groupId : ℤ) : Transaction where
  data :=
    { randomId := 7
      price := some 30000000
      gasLimit := 30000000
      blockLimit := 500
      recipient := some (fillArray 20 [0xAB])
      amount := none
      payload := some [0xA9, 0x05]
      chainId := some 1
      groupId := some groupId
      extraData := none
      v := some 27
      r := some 1
      s := some 1
      hash := none }
  hash := none
  size := none
  sender := none

theorem transfer_nonNeg {groupId : ℤ} (h : 0 ≤ groupId) : (transfer groupId).data.NonNeg := by
  refine ⟨?_, ?_, ?_, h, ?_, ?_, ?_⟩ <;> simp [transfer]

theorem transfer_inMemory : (transfer 1).data.InMemory := by
  unfold TxData.InMemory
  decide

theorem transfer_wire_format : (transfer 1).data.NonNeg ∧ (transfer 1).data.InMemory ∧
    ∃ b tx', encodeToBytes (transfer 1).encodeRLP = .ok b ∧
      decodeBytes "types.Transaction" Transaction.decodeRLP b = .ok tx' ∧
      tx'.data = (transfer 1).data.norm ∧ encodeToBytes tx'.encodeRLP = .ok b := by
  have hn : (transfer 1).data.NonNeg := transfer_nonNeg (by decide)
  obtain ⟨b, tx', henc, hdec, hdata⟩ :=
    transaction_wire_format.1 (transfer 1) hn transfer_inMemory
  exact ⟨hn, transfer_inMemory, b, tx', henc, hdec, hdata, transaction_wire_format.2 b tx' hdec⟩

end Fiscobcos.Types
