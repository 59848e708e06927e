import Fiscobcos.Types.Signing

/-! # The hash of a transaction (core/types/transaction.go, core/types/block.go)

A transaction with a negative integer is not encodable; `rlpHash` drops the error, and all such
transactions hash the empty string. -/

namespace Fiscobcos.Types

open Fiscobcos.Numerals Fiscobcos.RlpFormat Fiscobcos.Rlp

structure TxArgs where
  nonce : UInt64
  blockLimit : UInt64
  amount : Option ℤ
  gasLimit : UInt64
  gasPrice : Option ℤ
  data : Option Bytes
  chainId : Int64
  groupId : Int64
  extraData : Option Bytes

def newTransaction (recipient : Option Address) (a : TxArgs) : Transaction where
  data :=
    { randomId := a.nonce
      price := a.gasPrice
      gasLimit := a.gasLimit
      blockLimit := a.blockLimit
      recipient := recipient
      amount := a.amount
      payload := a.data
      chainId := some a.chainId.toInt
      groupId := some a.groupId.toInt
      extraData := a.extraData
      v := some 0
      r := some 0
      s := some 0
      hash := none }
  hash := none
  size := none
  sender := none

def NewTransaction (recipient : Address) (a : TxArgs) : Transaction :=
  newTransaction (some recipient) a

def NewContractCreation (a : TxArgs) : Transaction := newTransaction none a

def Transaction.hashInput (tx : Transaction) : Bytes := rlpHashInput tx.encodeRLP

theorem hashInput_of_fits {tx : Transaction} (hn : tx.data.NonNeg)
    (hfit : (Item.list tx.data.items).Fits) : tx.hashInput = (Item.list tx.data.items).encode :=
  rlpHashInput_emits (encodeRLP_emits hn hfit)

theorem hashInput_of_nonNeg {tx : Transaction} (hn : tx.data.NonNeg) (hm : tx.data.InMemory) :
    tx.hashInput = (Item.list tx.data.items).encode := by
  refine hashInput_of_fits hn ?_
  show (encodeAll tx.data.items).length < 2 ^ 64
  unfold TxData.InMemory at hm
  omega

theorem hashInput_of_neg {tx : Transaction} (hn : ¬ tx.data.NonNeg) : tx.hashInput = [] := by
  have hall : ∀ e ∈ txdataFields.writers tx.data.fields, Succeeds e ∨ Fails e := by
    have hto : Succeeds (recipientInfo.writer tx.data.recipient) :=
      writeRecipient_succeeds tx.data.recipient
    simp only [txdataFields, FieldsInfo.field, noFields, TxData.fields, List.forall_mem_cons,
      List.not_mem_nil, false_implies, implies_true, and_true]
    exact ⟨.inl (writeUint_succeeds _), writeBigIntPtr_total _, .inl (writeUint_succeeds _),
      .inl (writeUint_succeeds _), .inl hto, writeBigIntPtr_total _, .inl (writeBytes_succeeds _),
      writeBigIntPtr_total _, writeBigIntPtr_total _, .inl (writeBytes_succeeds _),
      writeBigIntPtr_total _, writeBigIntPtr_total _, writeBigIntPtr_total _⟩
  have hone : ∃ e ∈ txdataFields.writers tx.data.fields, Fails e := by
    by_contra hnone
    -- without a failing writer every integer is non-negative
    have hok : ∀ v : Option ℤ, writeBigIntPtr v ∈ txdataFields.writers tx.data.fields →
        0 ≤ v.getD 0 := by
      intro v hv
      by_contra hneg
      exact hnone ⟨_, hv, writeBigIntPtr_fails v (by omega)⟩
    have hmem : ∀ v ∈ [tx.data.price, tx.data.amount, tx.data.chainId, tx.data.groupId, tx.data.v,
        tx.data.r, tx.data.s], writeBigIntPtr v ∈ txdataFields.writers tx.data.fields := by
      intro v hv
      simp only [List.mem_cons, List.not_mem_nil, or_false] at hv
      simp only [txdataFields, FieldsInfo.field, noFields, TxData.fields, bigIntInfo]
      rcases hv with rfl | rfl | rfl | rfl | rfl | rfl | rfl <;> simp
    refine hn ⟨?_, ?_, ?_, ?_, ?_, ?_, ?_⟩ <;> exact hok _ (hmem _ (by simp))
  exact rlpHashInput_fails (writeList_fails (writeElems_fails hall hone))

theorem hashInput_inj {tx tx' : Transaction} (hn : tx.data.NonNeg) (hm : tx.data.InMemory)
    (hn' : tx'.data.NonNeg) (hm' : tx'.data.InMemory) (h : tx.hashInput = tx'.hashInput) :
    tx.data.norm = tx'.data.norm := by
  have hdec : ∀ t : Transaction, t.data.NonNeg → t.data.InMemory → ∃ t',
      decodeBytes "types.Transaction" Transaction.decodeRLP t.hashInput = .ok t' ∧
        t'.data = t.data.norm := by
    intro t htn htm
    rw [hashInput_of_nonNeg htn htm]
    unfold TxData.InMemory at htm
    exact decodeBytes_encoded htn (show (encodeAll t.data.items).length < 2 ^ 64 by omega)
  obtain ⟨t, ht, hdata⟩ := hdec tx hn hm
  obtain ⟨t', ht', hdata'⟩ := hdec tx' hn' hm'
  rw [h, ht'] at ht
  cases ht
  exact hdata.symm.trans hdata'

structure TxArgs.NonNeg (a : TxArgs) : Prop where
  amount : 0 ≤ a.amount.getD 0
  gasPrice : 0 ≤ a.gasPrice.getD 0
  chainId : 0 ≤ a.chainId.toInt
  groupId : 0 ≤ a.groupId.toInt

theorem newTransaction_nonNeg (recipient : Option Address) (a : TxArgs) :
    (newTransaction recipient a).data.NonNeg ↔ a.NonNeg := by
  constructor
  · intro h
    exact ⟨h.amount, h.price, h.chainId, h.groupId⟩
  · intro h
    exact ⟨h.gasPrice, h.amount, h.chainId, h.groupId, le_refl 0, le_refl 0, le_refl 0⟩

/-- The hash tells two new transactions apart unless both have a negative integer. -/
theorem hash_identifies_iff (recipient recipient' : Option Address) (a a' : TxArgs)
    (hm : (newTransaction recipient a).data.InMemory)
    (hm' : (newTransaction recipient' a').data.InMemory) :
    ((newTransaction recipient a).hashInput = (newTransaction recipient' a').hashInput →
        (newTransaction recipient a).data.norm = (newTransaction recipient' a').data.norm) ↔
      a.NonNeg ∨ a'.NonNeg ∨
        (newTransaction recipient a).data.norm = (newTransaction recipient' a').data.norm := by
  rw [← newTransaction_nonNeg recipient a, ← newTransaction_nonNeg recipient' a']
  by_cases hn : (newTransaction recipient a).data.NonNeg
  · refine iff_of_true (fun h => ?_) (.inl hn)
    by_cases hn' : (newTransaction recipient' a').data.NonNeg
    · exact hashInput_inj hn hm hn' hm' h
    · rw [hashInput_of_nonNeg hn hm, hashInput_of_neg hn'] at h
      exact absurd h (Item.encode_ne_nil _)
  · by_cases hn' : (newTransaction recipient' a').data.NonNeg
    · refine iff_of_true (fun h => ?_) (.inr (.inl hn'))
      rw [hashInput_of_nonNeg hn' hm', hashInput_of_neg hn] at h
      exact absurd h.symm (Item.encode_ne_nil _)
    · rw [hashInput_of_neg hn, hashInput_of_neg hn', eq_self, true_imp_iff, or_iff_right hn,
        or_iff_right hn']

def payment (amount : ℤ) : TxArgs where
  nonce := 7
  blockLimit := 500
  amount := some amount
  gasLimit := 30000000
  gasPrice := some 30000000
  data := some [0xA9, 0x05]
  chainId := 1
  groupId := 1
  extraData := none

theorem negative_payments_collide :
    (NewTransaction (fillArray 20 [0xAB]) (payment (-1))).hashInput =
      (NewTransaction (fillArray 20 [0xAB]) (payment (-2))).hashInput ∧
    (NewTransaction (fillArray 20 [0xAB]) (payment (-1))).data.norm ≠
      (NewTransaction (fillArray 20 [0xAB]) (payment (-2))).data.norm :=
  ⟨rfl, by decide⟩

theorem hash_identifies_payments : (newTransaction none (payment 1)).data.InMemory ∧
    (newTransaction none (payment 2)).data.InMemory ∧
    (newTransaction none (payment 1)).hashInput ≠ (newTransaction none (payment 2)).hashInput := by
  have hm : (newTransaction none (payment 1)).data.InMemory := by
    unfold TxData.InMemory
    decide
  have hm' : (newTransaction none (payment 2)).data.InMemory := by
    unfold TxData.InMemory
    decide
  have hargs : (payment 1).NonNeg := ⟨by decide, by decide, by decide, by decide⟩
  refine ⟨hm, hm', fun h => ?_⟩
  have hsame := (hash_identifies_iff none none (payment 1) (payment 2) hm hm').mpr (.inl hargs) h
  exact absurd hsame (by decide)

end Fiscobcos.Types
