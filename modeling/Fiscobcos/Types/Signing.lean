import Fiscobcos.Types.Transaction

/-! # Transaction signing (core/types/transaction_signing.go, crypto/crypto.go)

A signature commits to what the list of fields determines that its signer hashes. -/

namespace Fiscobcos.Types
open Signer

open Fiscobcos.Numerals Fiscobcos.RlpFormat Fiscobcos.Rlp

/-- The bytes that `rlpHash` (block.go) feeds to the hash; the error of `Encode` is dropped and
then nothing has been written. -/
def rlpHashInput (e : Emit) : Bytes :=
  match encode e with
  | .error _ => []
  | .ok ws => ws.flatten

def newEIP155Signer (chainId : Option ℤ) : Signer := .eip155 (chainId.getD 0)

def writeRecipient : Option Address → Emit := makePtrWriter .string fun a => writeByteArray a.val

def Signer.elems : Signer → TxData → List Emit
  | .frontier, d | .homestead, d =>
    [writeUint d.randomId, writeBigIntPtr d.price, writeUint d.gasLimit, writeUint d.blockLimit,
      writeRecipient d.recipient, writeBigIntPtr d.amount, writeBytes (d.payload.getD []),
      writeBigIntPtr d.chainId, writeBigIntPtr d.groupId, writeBytes (d.extraData.getD [])]
  | .eip155 chainId, d =>
    [writeUint d.randomId, writeBigIntPtr d.price, writeUint d.gasLimit,
      writeRecipient d.recipient, writeBigIntPtr d.amount, writeBytes (d.payload.getD []),
      writeBigIntPtr (some chainId), writeUint 0, writeUint 0]

def Signer.hashInput (σ : Signer) (d : TxData) : Bytes :=
  rlpHashInput (makeSliceWriter id (σ.elems d))

def Signer.items : Signer → TxData → List Item
  | .frontier, d | .homestead, d =>
    [.str (minBytes d.randomId.toNat), bigIntItem d.price, .str (minBytes d.gasLimit.toNat),
      .str (minBytes d.blockLimit.toNat), recipientItem d.recipient, bigIntItem d.amount,
      .str (d.payload.getD []), bigIntItem d.chainId, bigIntItem d.groupId,
      .str (d.extraData.getD [])]
  | .eip155 chainId, d =>
    [.str (minBytes d.randomId.toNat), bigIntItem d.price, .str (minBytes d.gasLimit.toNat),
      recipientItem d.recipient, bigIntItem d.amount, .str (d.payload.getD []),
      bigIntItem (some chainId), .str (minBytes 0), .str (minBytes 0)]

def Signer.InMemory (σ : Signer) (d : TxData) : Prop := (encodeAll (σ.items d)).length < 2 ^ 63

theorem bigInt_emits {v : Option ℤ} (h : 0 ≤ v.getD 0) (hfit : (bigIntItem v).Fits) :
    Emits (writeBigIntPtr v) [bigIntItem v] :=
  bigInt_implements.emits v h hfit

theorem recipient_emits (a : Option Address) (hfit : (recipientItem a).Fits) :
    Emits (writeRecipient a) [recipientItem a] := by
  cases a with
  | none => exact recipient_implements.emits none trivial hfit
  | some a => exact recipient_implements.emits (some a) trivial hfit

theorem Signer.elems_emit (σ : Signer) (hσ : ∀ c, σ = .eip155 c → 0 ≤ c) {d : TxData}
    (hd : d.NonNeg) : List.Forall₂ (fun e x => x.Fits → Emits e [x]) (σ.elems d) (σ.items d) := by
  have hfrontier : List.Forall₂ (fun e x => x.Fits → Emits e [x])
      (frontier.elems d) (frontier.items d) :=
    .cons (fun _ => writeUint_emits _) <| .cons (bigInt_emits hd.price) <|
    .cons (fun _ => writeUint_emits _) <| .cons (fun _ => writeUint_emits _) <|
    .cons (recipient_emits _) <| .cons (bigInt_emits hd.amount) <|
    .cons (writeBytes_emits _) <| .cons (bigInt_emits hd.chainId) <|
    .cons (bigInt_emits hd.groupId) <| .cons (writeBytes_emits _) .nil
  cases σ with
  | frontier | homestead => exact hfrontier
  | eip155 c =>
    exact .cons (fun _ => writeUint_emits _) <| .cons (bigInt_emits hd.price) <|
      .cons (fun _ => writeUint_emits _) <| .cons (recipient_emits _) <|
      .cons (bigInt_emits hd.amount) <| .cons (writeBytes_emits _) <|
      .cons (bigInt_emits (hσ c rfl)) <| .cons (fun _ => writeUint_emits _) <|
      .cons (fun _ => writeUint_emits _) .nil

theorem rlpHashInput_fails {e : Emit} (h : Fails e) : rlpHashInput e = [] := by
  obtain ⟨err, herr⟩ := encode_of_fails h
  simp only [rlpHashInput, herr]

theorem rlpHashInput_emits {e : Emit} {x : Item} (h : Emits e [x]) : rlpHashInput e = x.encode := by
  obtain ⟨ws, hws, hflat⟩ := encode_of_emits h
  simp only [rlpHashInput, hws, hflat]

theorem Signer.hashInput_eq (σ : Signer) (hσ : ∀ c, σ = .eip155 c → 0 ≤ c) {d : TxData}
    (hd : d.NonNeg) (hm : σ.InMemory d) : σ.hashInput d = (Item.list (σ.items d)).encode := by
  unfold InMemory at hm
  have hbody := writeElems_emits (σ.elems_emit hσ hd) (by omega)
  have hlist : Emits (makeSliceWriter id (σ.elems d)) [.list (σ.items d)] := by
    unfold makeSliceWriter
    rw [List.map_id]
    exact writeList_emits hbody (by omega)
  exact rlpHashInput_emits hlist

theorem writeUint_succeeds (i : UInt64) : Succeeds (writeUint i) := by
  intro w
  obtain ⟨ps, hps, -⟩ := writeUint_emits i
  exact ⟨_, hps w⟩

theorem writeBytes_succeeds (b : Bytes) : Succeeds (writeBytes b) := fun _ => ⟨_, rfl⟩

theorem writeRecipient_succeeds (a : Option Address) : Succeeds (writeRecipient a) := by
  intro w
  cases a <;> exact ⟨_, rfl⟩

theorem writeBigIntPtr_total (v : Option ℤ) :
    Succeeds (writeBigIntPtr v) ∨ Fails (writeBigIntPtr v) := by
  by_cases h : 0 ≤ v.getD 0
  · exact .inl (writeBigIntPtr_succeeds v h)
  · exact .inr (writeBigIntPtr_fails v (by omega))

theorem Signer.hashInput_neg {c : ℤ} (hc : c < 0) (d : TxData) : (eip155 c).hashInput d = [] := by
  have hall : ∀ e ∈ (eip155 c).elems d, Succeeds e ∨ Fails e := by
    simp only [elems, List.forall_mem_cons, List.not_mem_nil, false_implies, implies_true,
      and_true]
    exact ⟨.inl (writeUint_succeeds _), writeBigIntPtr_total _, .inl (writeUint_succeeds _),
      .inl (writeRecipient_succeeds _), writeBigIntPtr_total _, .inl (writeBytes_succeeds _),
      writeBigIntPtr_total _, .inl (writeUint_succeeds _), .inl (writeUint_succeeds _)⟩
  have hfail : Fails (writeElems ((eip155 c).elems d)) :=
    writeElems_fails hall ⟨_, by simp [elems], writeBigIntPtr_fails (some c) hc⟩
  unfold hashInput makeSliceWriter
  rw [List.map_id]
  exact rlpHashInput_fails (writeList_fails hfail)

/-- The ten fields of the transaction proper, nil integers being zero and nil slices empty. -/
structure TxData.SameFields (d e : TxData) : Prop where
  randomId : d.randomId = e.randomId
  price : d.price.getD 0 = e.price.getD 0
  gasLimit : d.gasLimit = e.gasLimit
  blockLimit : d.blockLimit = e.blockLimit
  recipient : d.recipient = e.recipient
  amount : d.amount.getD 0 = e.amount.getD 0
  payload : d.payload.getD [] = e.payload.getD []
  chainId : d.chainId.getD 0 = e.chainId.getD 0
  groupId : d.groupId.getD 0 = e.groupId.getD 0
  extraData : d.extraData.getD [] = e.extraData.getD []

/-- The six fields that the EIP155 signer hashes. -/
structure TxData.SameCore (d e : TxData) : Prop where
  randomId : d.randomId = e.randomId
  price : d.price.getD 0 = e.price.getD 0
  gasLimit : d.gasLimit = e.gasLimit
  recipient : d.recipient = e.recipient
  amount : d.amount.getD 0 = e.amount.getD 0
  payload : d.payload.getD [] = e.payload.getD []

theorem uintItem_inj {i j : UInt64} (h : Item.str (minBytes i.toNat) = .str (minBytes j.toNat)) :
    i = j :=
  UInt64.toNat_inj.mp (minBytes_inj (Item.str.inj h))

theorem bigIntItem_inj {v w : Option ℤ} (hv : 0 ≤ v.getD 0) (hw : 0 ≤ w.getD 0)
    (h : bigIntItem v = bigIntItem w) : v.getD 0 = w.getD 0 := by
  have := minBytes_inj (Item.str.inj h)
  omega

theorem recipientItem_inj {a b : Option Address} (h : recipientItem a = recipientItem b) :
    a = b := by
  have hlen : ∀ x : Address, x.val ≠ [] := by
    intro x hx
    have := x.property
    rw [hx] at this
    simp at this
  cases a with
  | none =>
    cases b with
    | none => rfl
    | some b => exact absurd (Item.str.inj h).symm (hlen b)
  | some a =>
    cases b with
    | none => exact absurd (Item.str.inj h) (hlen a)
    | some b => rw [Subtype.ext (Item.str.inj h)]

theorem frontier_items_inj {d e : TxData} (hd : d.NonNeg) (he : e.NonNeg)
    (h : frontier.items d = frontier.items e) : d.SameFields e := by
  simp only [items, List.cons.injEq, and_true] at h
  obtain ⟨h1, h2, h3, h4, h5, h6, h7, h8, h9, h10⟩ := h
  exact ⟨uintItem_inj h1, bigIntItem_inj hd.price he.price h2, uintItem_inj h3, uintItem_inj h4,
    recipientItem_inj h5, bigIntItem_inj hd.amount he.amount h6, Item.str.inj h7,
    bigIntItem_inj hd.chainId he.chainId h8, bigIntItem_inj hd.groupId he.groupId h9,
    Item.str.inj h10⟩

theorem eip155_items_iff {d e : TxData} (hd : d.NonNeg) (he : e.NonNeg) (c : ℤ) :
    (eip155 c).items d = (eip155 c).items e ↔ d.SameCore e := by
  constructor
  · intro h
    simp only [items, List.cons.injEq, and_true] at h
    obtain ⟨h1, h2, h3, h4, h5, h6⟩ := h
    exact ⟨uintItem_inj h1, bigIntItem_inj hd.price he.price h2, uintItem_inj h3,
      recipientItem_inj h4, bigIntItem_inj hd.amount he.amount h5, Item.str.inj h6⟩
  · intro ⟨h1, h2, h3, h4, h5, h6⟩
    simp only [items, bigIntItem, h1, h2, h3, h4, h5, h6]

theorem Signer.hashInput_inj (σ : Signer) (hσ : ∀ c, σ = .eip155 c → 0 ≤ c) {d e : TxData}
    (hd : d.NonNeg) (he : e.NonNeg) (hmd : σ.InMemory d) (hme : σ.InMemory e) :
    σ.hashInput d = σ.hashInput e ↔ σ.items d = σ.items e := by
  rw [σ.hashInput_eq hσ hd hmd, σ.hashInput_eq hσ he hme]
  unfold InMemory at hmd hme
  constructor
  · intro h
    have hfd : (Item.list (σ.items d)).Fits := show (encodeAll _).length < 2 ^ 64 by omega
    have hfe : (Item.list (σ.items e)).Fits := show (encodeAll _).length < 2 ^ 64 by omega
    exact Item.list.inj (Item.encode_inj _ _ hfd hfe h)
  · intro h
    rw [h]

/-- A signature commits to all ten fields under the Frontier and Homestead signers; under an
EIP155 signer only where the two transactions differ in one of six. -/
theorem signature_commits_iff (σ : Signer) (tx tx' : Transaction) (hn : tx.data.NonNeg)
    (hn' : tx'.data.NonNeg) (hm : σ.InMemory tx.data) (hm' : σ.InMemory tx'.data) :
    (σ.hashInput tx.data = σ.hashInput tx'.data → tx.data.SameFields tx'.data) ↔
      σ = .frontier ∨ σ = .homestead ∨ tx.data.SameFields tx'.data ∨
        ∃ c, σ = .eip155 c ∧ 0 ≤ c ∧ ¬ tx.data.SameCore tx'.data := by
  have hten : ∀ τ : Signer, (∀ c, τ ≠ .eip155 c) → τ.items tx.data = τ.items tx'.data →
      tx.data.SameFields tx'.data := by
    intro τ hτ h
    cases τ with
    | frontier | homestead => exact frontier_items_inj hn hn' h
    | eip155 c => exact absurd rfl (hτ c)
  cases σ with
  | frontier =>
    simp only [true_or, iff_true]
    intro h
    exact hten .frontier (fun _ => nofun)
      ((hashInput_inj .frontier (fun _ => nofun) hn hn' hm hm').mp h)
  | homestead =>
    simp only [true_or, or_true, iff_true]
    intro h
    exact hten .homestead (fun _ => nofun)
      ((hashInput_inj .homestead (fun _ => nofun) hn hn' hm hm').mp h)
  | eip155 c =>
    by_cases hc : 0 ≤ c
    · have hσ : ∀ b, eip155 c = .eip155 b → 0 ≤ b := by
        rintro b ⟨⟩
        exact hc
      rw [hashInput_inj _ hσ hn hn' hm hm', eip155_items_iff hn hn' c]
      constructor
      · intro h
        by_cases hcore : tx.data.SameCore tx'.data
        · exact .inr (.inr (.inl (h hcore)))
        · exact .inr (.inr (.inr ⟨c, rfl, hc, hcore⟩))
      · rintro (h | h | h | ⟨b, -, -, h⟩) hcore
        · cases h
        · cases h
        · exact h
        · exact absurd hcore h
    · have hneg : c < 0 := by omega
      rw [hashInput_neg hneg, hashInput_neg hneg]
      constructor
      · intro h
        exact .inr (.inr (.inl (h rfl)))
      · rintro (h | h | h | ⟨b, hb, h, -⟩) -
        · cases h
        · cases h
        · exact h
        · cases hb
          exact absurd h hc

/-- The same bytes are signed for two groups. -/
theorem eip155_same_for_two_groups : (transfer 1).data.NonNeg ∧ (transfer 2).data.NonNeg ∧
      (newEIP155Signer (some 1)).hashInput (transfer 1).data =
        (newEIP155Signer (some 1)).hashInput (transfer 2).data ∧
      ¬ (transfer 1).data.SameFields (transfer 2).data := by
  refine ⟨transfer_nonNeg (by decide), transfer_nonNeg (by decide), rfl, fun h => ?_⟩
  have hg : (1 : ℤ) = 2 := h.groupId
  exact absurd hg (by decide)

theorem signature_commits_frontier : (transfer 1).data.NonNeg ∧ (transfer 2).data.NonNeg ∧
      Signer.frontier.InMemory (transfer 1).data ∧ Signer.frontier.InMemory (transfer 2).data ∧
      (Signer.frontier.hashInput (transfer 1).data = Signer.frontier.hashInput (transfer 2).data →
        (transfer 1).data.SameFields (transfer 2).data) := by
  have hn1 : (transfer 1).data.NonNeg := transfer_nonNeg (by decide)
  have hn2 : (transfer 2).data.NonNeg := transfer_nonNeg (by decide)
  have hm1 : frontier.InMemory (transfer 1).data := by
    unfold Signer.InMemory
    decide
  have hm2 : frontier.InMemory (transfer 2).data := by
    unfold Signer.InMemory
    decide
  exact ⟨hn1, hn2, hm1, hm2,
    (signature_commits_iff .frontier (transfer 1) (transfer 2) hn1 hn2 hm1 hm2).mpr (.inl rfl)⟩

end Fiscobcos.Types
