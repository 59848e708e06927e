import Fiscobcos.Lib.Steps
import Fiscobcos.Types.TxJson

/-! # The caches of a transaction (core/types/transaction.go, core/types/transaction_signing.go)

`UnmarshalJSON` and `WithSignature` start from empty caches. `DecodeRLP` sets the size when it
succeeds, and leaves the hash and the sender of the old fields where they are. -/

namespace Fiscobcos.Types
open Transaction

open Fiscobcos.Numerals Fiscobcos.RlpFormat Fiscobcos.Rlp Fiscobcos.FlatJson Fiscobcos.Runs
  Fiscobcos.Steps

/-- The outcome, the variable afterwards and the stream. -/
abbrev Into (α : Type) := α → Stream → Except DecodeError Unit × α × Stream

def storing {α : Type} (dec : Decoder α) : Into α := fun old s =>
  match dec s with
  | (.error e, s) => (.error e, old, s)
  | (.ok v, s) => (.ok (), v, s)

/-- A nil pointer has been replaced when leading zeros are rejected. -/
def intoBigInt : Into (Option ℤ) := fun old s =>
  match s.bytes with
  | (.error e, s) => (.error (wrapStreamError e "*big.Int"), old, s)
  | (.ok b, s) =>
    if b.head? = some 0 then
      (.error (wrapStreamError .canonInt "*big.Int"), some (old.getD 0), s)
    else (.ok (), some (beVal b : ℤ), s)

/-- An existing array keeps what was read when the input ends. -/
def partlyRead (s : Stream) (e : DecodeError) (a : Address) : Address :=
  if e = .stream .unexpectedEOF then fillArray 20 (s.input ++ a.val.drop s.input.length) else a

def intoRecipient : Into (Option Address) := fun old s =>
  match s.nextKind with
  | ((_, _, some e), s) => (.error (wrapStreamError e "*common.Address"), none, s)
  | ((kind, size, none), s) =>
    if kind ≠ .byte ∧ size = 0 then
      if kind ≠ .string then
        (.error (.decode ("wrong kind of empty value (got " ++ kind.toString ++ ", want " ++
          Kind.string.toString ++ ")") "*common.Address" []), old, s)
      else (.ok (), none, { s with kind := none })
    else
      match decodeByteArray "common.Address" 20 s with
      | (.error e, s') => (.error e, old.map (partlyRead s e), s')
      | (.ok a, s') => (.ok (), some a, s')

def onField {α : Type} (into : Into α) (get : TxData → α) (set : α → TxData → TxData) :
    Into TxData := fun d s =>
  match into (get d) s with
  | (r, v, s) => (r, set v d, s)

/-- The fields in order. If price and amount are one `*big.Int`, a write to either is one to
both. -/
def txFields (shared : Bool) : List (String × Into TxData) :=
  [("RandomId", onField (storing decodeUint64) (·.randomId) fun x d => { d with randomId := x }),
    ("Price", onField intoBigInt (·.price) fun x d =>
      { d with price := x, amount := if shared then x else d.amount }),
    ("GasLimit", onField (storing decodeUint64) (·.gasLimit) fun x d => { d with gasLimit := x }),
    ("BlockLimit", onField (storing decodeUint64) (·.blockLimit) fun x d =>
      { d with blockLimit := x }),
    ("Recipient", onField intoRecipient (·.recipient) fun x d => { d with recipient := x }),
    ("Amount", onField intoBigInt (·.amount) fun x d =>
      { d with amount := x, price := if shared then x else d.price }),
    ("Payload", onField (storing decodeByteSlice) (·.payload) fun x d => { d with payload := x }),
    ("ChainId", onField intoBigInt (·.chainId) fun x d => { d with chainId := x }),
    ("GroupId", onField intoBigInt (·.groupId) fun x d => { d with groupId := x }),
    ("ExtraData", onField (storing decodeByteSlice) (·.extraData) fun x d =>
      { d with extraData := x }),
    ("V", onField intoBigInt (·.v) fun x d => { d with v := x }),
    ("R", onField intoBigInt (·.r) fun x d => { d with r := x }),
    ("S", onField intoBigInt (·.s) fun x d => { d with s := x })]

def decodeFieldsInto (typ : String) : List (String × Into TxData) → Into TxData
  | [], d, s => (.ok (), d, s)
  | (name, f) :: fs, d, s =>
    match f d s with
    | (.error e, d, s) =>
      if e = .stream .eol then (.error (.decode "too few elements" typ []), d, s)
      else (.error (addErrorContext e ("." ++ name)), d, s)
    | (.ok _, d, s) => decodeFieldsInto typ fs d s

def decodeTxdataInto (shared : Bool) : Into TxData := fun d s =>
  match s.list with
  | (.error e, s) => (.error (wrapStreamError e "types.txdata"), d, s)
  | (.ok _, s) =>
    match decodeFieldsInto "types.txdata" (txFields shared) d s with
    | (.error e, d, s) => (.error e, d, s)
    | (.ok _, d, s) =>
      match s.listEnd with
      | (.error e, s) => (.error (wrapStreamError e "types.txdata"), d, s)
      | (.ok _, s) => (.ok (), d, s)

structure TxVar where
  tx : Transaction
  shared : Bool

def addTarget : DecodeError → DecodeError
  | .decode msg t (c :: cs) => addErrorContext (.decode msg t (c :: cs)) "(types.txdata)"
  | e => e

def TxVar.decodeRLP (x : TxVar) (s : Stream) : Except DecodeError Unit × TxVar × Stream :=
  let ((_, size, _), s) := s.nextKind
  match decodeTxdataInto x.shared x.tx.data s with
  | (.error e, d, s) => (.error (addTarget e), { x with tx := { x.tx with data := d } }, s)
  | (.ok _, d, s) =>
    (.ok (), { x with tx := { x.tx with data := d, size := some (listSize size) } }, s)

/-- What `rlp.Encode` reports to a `writeCounter`; its error is dropped. -/
def Transaction.countBytes (tx : Transaction) : ℕ :=
  match encode tx.encodeRLP with
  | .error _ => 0
  | .ok ws => (ws.map List.length).sum

def Transaction.getSize (tx : Transaction) : ℕ × Transaction :=
  match tx.size with
  | some n => (n, tx)
  | none => (tx.countBytes, { tx with size := some tx.countBytes })

/-- `DecodeRLP` is called on a stream at a value, whose header may have been read already. -/
inductive CacheOp where
  | hash
  | size
  | sender (σ : Signer)
  | decodeRLP (t : Stream) (ready : t.Ready) (peeked : Bool)
  | unmarshalJSON (input : Bytes)
  | withSignature (σ : Signer) (sig : Bytes)

section

variable {Key : Type} (C : Crypto Key) (R : ObjectReader)

/-- The operations on one value; after `WithSignature` the run goes on with the value itself or
with the copy. -/
inductive CacheStep : TxVar → CacheOp → TxVar → Prop
  | hash (x : TxVar) : CacheStep x .hash { x with tx := (x.tx.getHash C.keccak256).2 }
  | size (x : TxVar) : CacheStep x .size { x with tx := x.tx.getSize.2 }
  | sender (x : TxVar) (σ : Signer) :
    CacheStep x (.sender σ) { x with tx := (sender C σ x.tx).2 }
  | decodeRLP (x : TxVar) (t : Stream) (ready : t.Ready) (peeked : Bool) :
    CacheStep x (.decodeRLP t ready peeked)
      (x.decodeRLP (if peeked then t.nextKind.2 else t)).2.1
  | unmarshalled (x : TxVar) {input : Bytes} {tx : Transaction}
      (h : Transaction.unmarshalJSON R input = .ok tx) :
    CacheStep x (.unmarshalJSON input) ⟨tx, false⟩
  | notUnmarshalled (x : TxVar) {input : Bytes} {e : TxJsonError}
      (h : Transaction.unmarshalJSON R input = .error e) :
    CacheStep x (.unmarshalJSON input) x
  | withSignature (x : TxVar) (σ : Signer) (sig : Bytes) :
    CacheStep x (.withSignature σ sig) x
  | signedCopy (x : TxVar) {σ : Signer} {sig : Bytes} {tx : Transaction}
      (h : x.tx.withSignature σ sig = .ok tx) :
    CacheStep x (.withSignature σ sig) ⟨tx, x.shared⟩

structure Coherent (tx : Transaction) : Prop where
  hash : (tx.getHash C.keccak256).1 = C.keccak256 tx.hashInput
  size : tx.getSize.1 = tx.hashInput.length
  sender : ∀ σ, (sender C σ tx).1 = (deriveSender C σ tx).1

structure CachesOk (tx : Transaction) : Prop where
  hash : ∀ h, tx.hash = some h → h = C.keccak256 tx.hashInput
  size : ∀ n, tx.size = some n → n = tx.hashInput.length
  sender : ∀ sc, tx.sender = some sc → (deriveSender C sc.signer tx).1 = .ok sc.sender

end

structure HoldsTx (t : Stream) (d : TxData) : Prop where
  nonNeg : d.NonNeg
  fits : (Item.list d.items).Fits
  has : t.Has (Item.list d.items).encode

/-- `DecodeRLP` meets no hash and no sender in the caches; no size either if the input is no
transaction; and if price and amount are one integer, the input has one value for both. -/
def TxVar.Decodable (x : TxVar) : CacheOp → Prop
  | .decodeRLP t _ _ =>
    x.tx.hash = none ∧ x.tx.sender = none ∧ (x.tx.size = none ∨ ∃ d, HoldsTx t d) ∧
      (x.shared = true → ∀ d, HoldsTx t d → d.price.getD 0 = d.amount.getD 0)
  | _ => True

/-- Decoding into a variable answers what the decoder answers, and leaves what it returns. -/
def Agrees {α : Type} (into : Into α) (dec : Decoder α) : Prop := ∀ old s, ∃ v,
  into old s = ((dec s).1.map fun _ => (), v, (dec s).2) ∧ ∀ w, (dec s).1 = .ok w → v = w

theorem storing_agrees {α : Type} (dec : Decoder α) : Agrees (storing dec) dec := by
  intro old s
  unfold storing
  generalize dec s = r
  rcases r with ⟨e | v, t⟩
  · exact ⟨old, rfl, nofun⟩
  · exact ⟨v, rfl, fun w hw => Except.ok.inj hw⟩

theorem intoBigInt_agrees : Agrees intoBigInt decodeBigInt := by
  intro old s
  unfold intoBigInt decodeBigInt wrapped
  dsimp only
  generalize s.bytes = r
  rcases r with ⟨e | b, t⟩
  · exact ⟨old, rfl, nofun⟩
  · dsimp only
    split_ifs
    · exact ⟨_, rfl, nofun⟩
    · exact ⟨_, rfl, fun w hw => Except.ok.inj hw⟩

theorem intoRecipient_agrees : Agrees intoRecipient recipientInfo.decoder := by
  intro old s
  simp only [recipientInfo, nilPtrInfo, makeNilPtrDecoder, addressInfo, byteArrayInfo]
  unfold intoRecipient emptyAhead Total.andThen Total.handle
  dsimp only
  generalize s.nextKind = r
  rcases r with ⟨⟨kind, size, _ | e⟩, t⟩
  · dsimp only
    split_ifs
    · exact ⟨_, rfl, nofun⟩
    · exact ⟨_, rfl, fun w hw => Except.ok.inj hw⟩
    · simp only [Bool.false_eq_true, if_false, map_eq]
      generalize decodeByteArray "common.Address" 20 t = r
      rcases r with ⟨e | a, u⟩
      · exact ⟨_, rfl, nofun⟩
      · exact ⟨_, rfl, fun w hw => Except.ok.inj hw⟩
  · exact ⟨_, rfl, nofun⟩

def Fills {β : Type} (typ : String) (fs : List (String × Into TxData)) (dec : Decoder β)
    (put : β → TxData → TxData) : Prop := ∀ d s, ∃ d',
  decodeFieldsInto typ fs d s = ((dec s).1.map fun _ => (), d', (dec s).2) ∧
    ∀ b, (dec s).1 = .ok b → d' = put b d

theorem fills_nil (typ : String) : Fills typ [] (noFields.decoder typ) fun _ d => d :=
  fun d _ => ⟨d, rfl, fun _ _ => rfl⟩

theorem fills_cons {α β : Type} {typ name : String} {t : TypeInfo α} {f : FieldsInfo β}
    {into : Into α} {get : TxData → α} {set : α → TxData → TxData}
    {fs : List (String × Into TxData)} {put : β → TxData → TxData} (hinto : Agrees into t.decoder)
    (hrest : Fills typ fs (f.decoder typ) put) :
    Fills typ ((name, onField into get set) :: fs) ((f.field name t).decoder typ)
      fun b d => put b.2 (set b.1 d) := by
  intro d s
  obtain ⟨v, hv, hval⟩ := hinto (get d) s
  simp only [decodeFieldsInto, onField, hv, FieldsInfo.field, decodeField, Total.handle]
  rcases hfirst : t.decoder s with ⟨e | a, u⟩
  · simp only [elemError, Except.map]
    split_ifs <;> exact ⟨_, rfl, fun _ hb => by cases hb⟩
  · obtain rfl := hval a (by rw [hfirst])
    obtain ⟨d', hd', hput⟩ := hrest (set v d) u
    refine ⟨d', ?_, fun b hb => ?_⟩
    · simp only [Except.map, hd', map_eq]
      rcases f.decoder typ u with ⟨e | b, u'⟩ <;> rfl
    · simp only [map_eq] at hb
      rcases htail : f.decoder typ u with ⟨e | b', u'⟩ <;> rw [htail] at hb <;> cases hb
      exact hput b' (by rw [htail])

def TxData.putInto (d : TxData) (shared : Bool) (old : TxData) : TxData :=
  { d with price := if shared then d.amount else d.price, hash := old.hash }

theorem txFields_fills (shared : Bool) : Fills "types.txdata" (txFields shared)
    (txdataFields.decoder "types.txdata") fun f => (TxData.ofFields f).putInto shared := by
  have huint : Agrees (storing decodeUint64) uint64Info.decoder := storing_agrees decodeUint64
  have hbytes : Agrees (storing decodeByteSlice) byteSliceInfo.decoder :=
    storing_agrees decodeByteSlice
  have hbig : Agrees intoBigInt bigIntInfo.decoder := intoBigInt_agrees
  exact fills_cons huint <| fills_cons hbig <| fills_cons huint <| fills_cons huint <|
    fills_cons intoRecipient_agrees <| fills_cons hbig <| fills_cons hbytes <| fills_cons hbig <|
    fills_cons hbig <| fills_cons hbytes <| fills_cons hbig <| fills_cons hbig <|
    fills_cons hbig <| fills_nil _

theorem Fills.struct {β : Type} {shared : Bool} {fields : Decoder β}
    {put : β → TxData → TxData} (h : Fills "types.txdata" (txFields shared) fields put)
    (d : TxData) (s : Stream) : ∃ d',
    decodeTxdataInto shared d s = ((makeStructDecoder "types.txdata" fields s).1.map fun _ => (),
      d', (makeStructDecoder "types.txdata" fields s).2) ∧
    ∀ b, (makeStructDecoder "types.txdata" fields s).1 = .ok b → d' = put b d := by
  unfold decodeTxdataInto makeStructDecoder openList wrapped Total.andThen Total.handle
  dsimp only
  generalize s.list = r
  rcases r with ⟨e | n, t⟩
  · exact ⟨d, rfl, fun _ hb => by cases hb⟩
  · obtain ⟨d', hd', hput⟩ := h d t
    dsimp only
    rw [hd']
    rcases hf : fields t with ⟨e | b, u⟩
    · exact ⟨d', rfl, fun _ hb => by cases hb⟩
    · obtain rfl := hput b (by rw [hf])
      simp only [Except.map, closeList]
      generalize u.listEnd = r
      rcases r with ⟨e | _, u'⟩
      · exact ⟨_, rfl, fun _ hb => by cases hb⟩
      · exact ⟨_, rfl, fun _ hb => by cases hb; rfl⟩

theorem decodeTxdataInto_eq (shared : Bool) (d : TxData) (s : Stream) : ∃ d',
    decodeTxdataInto shared d s = ((txdataInfo.decoder s).1.map fun _ => (), d',
      (txdataInfo.decoder s).2) ∧
    ∀ f, (txdataInfo.decoder s).1 = .ok f → d' = (TxData.ofFields f).putInto shared d :=
  (txFields_fills shared).struct d s

theorem decodeRLP_peeked (x : TxVar) (t : Stream) (peeked : Bool) :
    x.decodeRLP (if peeked then t.nextKind.2 else t) = x.decodeRLP t := by
  cases peeked with
  | false => rfl
  | true =>
    show x.decodeRLP t.nextKind.2 = x.decodeRLP t
    simp only [TxVar.decodeRLP, Stream.nextKind_nextKind]

variable {t : Stream} {d : TxData}

theorem HoldsTx.decoder (hready : t.Ready) (h : HoldsTx t d) :
    ∃ s', txdataInfo.decoder t = (.ok (txdataMeaning.norm d.fields), s') := by
  have hof := txdata_implements.norm d.fields ((txdataMeaning_ok d).mpr h.nonNeg)
  simp only [structMeaning, txdataMeaning_items] at hof
  obtain ⟨s', hd, -⟩ := txdata_implements.decodes.complete hof h.fits hready h.has
  exact ⟨s', hd⟩

theorem holdsTx_of_decoder {t s' : Stream} {f : TxFields} (hready : t.Ready)
    (h : txdataInfo.decoder t = (.ok f, s')) : HoldsTx t (TxData.ofFields f) := by
  obtain ⟨hok, hfit, hr⟩ := txdata_implements.sound hready h
  rw [← fields_ofFields f] at hok hfit hr
  simp only [structMeaning, txdataMeaning_items] at hok hfit hr
  exact ⟨(txdataMeaning_ok _).mp hok, hfit, hr.1⟩

theorem decodeRLP_holds (x : TxVar) (hready : t.Ready)
    (h : HoldsTx t d) :
    (x.decodeRLP t).2.1 = { x with tx := { x.tx with
      data := d.norm.putInto x.shared x.tx.data
      size := some (Item.list d.items).encode.length } } := by
  obtain ⟨s', hd⟩ := h.decoder hready
  rw [← txdata_implements.peek t] at hd
  have hsize : listSize (encodeAll d.items).length = (Item.list d.items).encode.length := by
    have hhead := puthead_eq_header 0xC0 0xF7 h.fits
    rw [Item.encode, List.length_append, listSize, headsize_eq_length 0xC0 0xF7]
    exact congrArg (fun head => head.length + (encodeAll d.items).length) hhead
  have hkind := @Stream.nextKind_list t (encodeAll d.items) hready h.fits h.has
  obtain ⟨d', hinto, hput⟩ := decodeTxdataInto_eq x.shared x.tx.data t.nextKind.2
  rw [hd] at hinto hput
  simp only [TxVar.decodeRLP, hinto, Except.map, hput _ rfl, txdataMeaning_norm]
  rw [hkind, hsize]

theorem decodeRLP_not_holds (x : TxVar) (hready : t.Ready) (h : ¬ ∃ d, HoldsTx t d) :
    ∃ d, (x.decodeRLP t).2.1 = { x with tx := { x.tx with data := d } } := by
  rcases hd : txdataInfo.decoder t with ⟨e | f, s'⟩
  · rw [← txdata_implements.peek t] at hd
    obtain ⟨d, hinto, -⟩ := decodeTxdataInto_eq x.shared x.tx.data t.nextKind.2
    rw [hd] at hinto
    exact ⟨d, by simp only [TxVar.decodeRLP, hinto, Except.map]⟩
  · exact absurd ⟨_, holdsTx_of_decoder hready hd⟩ h

theorem countBytes_eq (tx : Transaction) : tx.countBytes = tx.hashInput.length := by
  unfold countBytes hashInput rlpHashInput
  cases encode tx.encodeRLP with
  | error e => rfl
  | ok ws => exact List.length_flatten.symm

theorem Signer.eq_of_equal {σ τ : Signer} (h : σ.equal τ = true) : σ = τ := by
  cases σ <;> cases τ <;> simp_all [Signer.equal]

section

variable {Key : Type} {C : Crypto Key} {R : ObjectReader} {tx : Transaction}

theorem senderOf_congr (σ : Signer) {tx' : Transaction} (h : tx'.data = tx.data) (r s v : ℤ) :
    σ.senderOf C tx' r s v = σ.senderOf C tx r s v := by
  cases σ <;> simp only [Signer.senderOf, Signer.hash, h]

theorem deriveSender_congr {σ : Signer} {tx' : Transaction} {r : Except SigningError Address}
    (hr : (deriveSender C σ tx).1 = r) (h : tx'.data = tx.data) : (deriveSender C σ tx').1 = r := by
  rw [← hr]
  unfold deriveSender
  rw [h]
  cases tx.data.v with
  | none => rfl
  | some v =>
    cases tx.data.r with
    | none => rfl
    | some r =>
      cases tx.data.s with
      | none => rfl
      | some s =>
        simp only [senderOf_congr σ h]
        cases σ.senderOf C tx r s v <;> rfl

theorem CachesOk.coherent (h : CachesOk C tx) : Coherent C tx where
  hash := by
    unfold getHash
    cases hc : tx.hash with
    | none => rfl
    | some v => exact h.hash v hc
  size := by
    unfold getSize
    cases hc : tx.size with
    | none => exact countBytes_eq tx
    | some n => exact h.size n hc
  sender σ := by
    unfold Types.sender
    cases hc : tx.sender with
    | none => rfl
    | some sc =>
      dsimp only
      split_ifs with heq
      · rw [← Signer.eq_of_equal heq, h.sender sc hc]
      · rfl

theorem CachesOk.empty (hh : tx.hash = none) (hz : tx.size = none) (hs : tx.sender = none) :
    CachesOk C tx where
  hash v hc := by simp [hh] at hc
  size n hc := by simp [hz] at hc
  sender sc hc := by simp [hs] at hc

theorem CachesOk.getHash (h : CachesOk C tx) : CachesOk C (tx.getHash C.keccak256).2 := by
  unfold Transaction.getHash
  cases tx.hash with
  | some v => exact h
  | none =>
    refine ⟨fun v hv => ?_, h.size, fun sc hsc => deriveSender_congr (h.sender sc hsc) rfl⟩
    cases hv
    rfl

theorem CachesOk.getSize (h : CachesOk C tx) : CachesOk C tx.getSize.2 := by
  unfold Transaction.getSize
  cases tx.size with
  | some n => exact h
  | none =>
    refine ⟨h.hash, fun n hn => ?_, fun sc hsc => deriveSender_congr (h.sender sc hsc) rfl⟩
    cases hn
    exact countBytes_eq tx

theorem CachesOk.deriveSender (h : CachesOk C tx) (σ : Signer) :
    CachesOk C (deriveSender C σ tx).2 := by
  rcases deriveSender_cases C σ tx with ⟨e, he⟩ | ⟨addr, haddr⟩
  · rw [he]
    exact h
  · rw [haddr]
    refine ⟨h.hash, h.size, fun sc hsc => ?_⟩
    cases hsc
    exact deriveSender_congr (congrArg Prod.fst haddr) rfl

theorem CachesOk.senderStep (h : CachesOk C tx) (σ : Signer) :
    CachesOk C (Types.sender C σ tx).2 := by
  unfold Types.sender
  split
  · exact h.deriveSender σ
  · split_ifs with heq
    · exact h
    · exact h.deriveSender σ

theorem hashInput_of_norm {d : TxData} (hnorm : tx.data.norm = d.norm) (hn : d.NonNeg)
    (hfit : (Item.list d.items).Fits) : tx.hashInput = (Item.list d.items).encode := by
  have henc := @encodeRLP_congr tx ⟨d, none, none, none⟩ hnorm
  exact (congrArg rlpHashInput henc).trans (@hashInput_of_fits ⟨d, none, none, none⟩ hn hfit)

theorem putInto_norm {d : TxData} {shared : Bool} (old : TxData)
    (h : shared = true → d.price.getD 0 = d.amount.getD 0) :
    (d.norm.putInto shared old).norm = d.norm := by
  cases shared with
  | false => rfl
  | true =>
    simp only [TxData.putInto, TxData.norm, if_true, Option.getD_some, h rfl]

theorem CachesOk.decodeRLP {x : TxVar} {t : Stream} (hready : t.Ready) (hh : x.tx.hash = none)
    (hs : x.tx.sender = none) (hz : x.tx.size = none ∨ ∃ d, HoldsTx t d)
    (hsame : x.shared = true → ∀ d, HoldsTx t d → d.price.getD 0 = d.amount.getD 0) :
    CachesOk C (x.decodeRLP t).2.1.tx := by
  by_cases hd : ∃ d, HoldsTx t d
  · obtain ⟨d, hd⟩ := hd
    rw [decodeRLP_holds x hready hd]
    refine ⟨fun v hv => ?_, fun n hn => ?_, fun sc hsc => ?_⟩
    · simp [hh] at hv
    · cases hn
      have hnorm := putInto_norm x.tx.data fun hshared => hsame hshared d hd
      rw [hashInput_of_norm hnorm hd.nonNeg hd.fits]
    · simp [hs] at hsc
  · obtain ⟨d, hd'⟩ := decodeRLP_not_holds x hready hd
    rw [hd']
    exact .empty hh (hz.resolve_right hd) hs

theorem CacheStep.cachesOk {x x' : TxVar} {a : CacheOp} (h : CacheStep C R x a x')
    (hx : CachesOk C x.tx) (hok : x.Decodable a) : CachesOk C x'.tx := by
  cases h with
  | hash => exact hx.getHash
  | size => exact hx.getSize
  | sender σ => exact hx.senderStep σ
  | decodeRLP t ready peeked =>
    obtain ⟨hh, hs, hz, hsame⟩ := hok
    rw [decodeRLP_peeked]
    exact .decodeRLP ready hh hs hz hsame
  | unmarshalled h =>
    unfold Transaction.unmarshalJSON at h
    split at h
    · simp at h
    · split_ifs at h
      cases h
      exact .empty rfl rfl rfl
  | notUnmarshalled h => exact hx
  | withSignature σ sig => exact hx
  | signedCopy h =>
    unfold Transaction.withSignature at h
    split at h
    · simp at h
    · cases h
      exact .empty rfl rfl rfl

end

/-- In every run whose decodes meet the condition the three functions agree with the fields. -/
theorem caches_coherent {Key : Type} (C : Crypto Key) (R : ObjectReader) (d : TxData)
    (shared : Bool) {x : TxVar}
    (h : Reach (CacheStep C R) TxVar.Decodable ⟨⟨d, none, none, none⟩, shared⟩ x) :
    Coherent C x.tx := by
  have hinv : CachesOk C x.tx :=
    h.invariant (I := fun y => CachesOk C y.tx) (.empty rfl rfl rfl)
      fun _ _ _ hy hok hstep => hstep.cachesOk hy hok
  exact hinv.coherent

def streamOf (d : TxData) : Stream :=
  .reset (Item.list d.items).encode (Item.list d.items).encode.length

theorem streamOf_ready (d : TxData) : (streamOf d).Ready := reset_ready _ _

theorem streamOf_holds (hn : d.NonNeg) (hm : d.InMemory) : HoldsTx (streamOf d) d := by
  refine ⟨hn, ?_, reset_has _⟩
  show (encodeAll d.items).length < 2 ^ 64
  unfold TxData.InMemory at hm
  omega

theorem transfer_two_inMemory : (transfer 2).data.InMemory := by
  unfold TxData.InMemory
  decide

theorem transfer_two_holds : HoldsTx (streamOf (transfer 2).data) (transfer 2).data :=
  streamOf_holds (transfer_nonNeg (by decide)) transfer_two_inMemory

theorem reach_decodeRLP {Key : Type} {C : Crypto Key} {R : ObjectReader} {ok : TxVar → CacheOp → Prop}
    {x₀ x : TxVar} (h : Reach (CacheStep C R) ok x₀ x) (ready : t.Ready)
    (hd : HoldsTx t d) (hok : ok x (.decodeRLP t ready false)) :
    Reach (CacheStep C R) ok x₀ { x with tx := { x.tx with
      data := d.norm.putInto x.shared x.tx.data
      size := some (Item.list d.items).encode.length } } := by
  have hstep := CacheStep.decodeRLP (C := C) (R := R) x t ready false
  rw [decodeRLP_peeked, decodeRLP_holds x ready hd] at hstep
  exact h.tail hstep hok

/-- The hash of the first transaction stays after the second was decoded into the variable. -/
theorem hash_outlives_decode : ∃ x : TxVar,
      Reach (CacheStep twoKeys flatReader) (fun _ _ => True) ⟨transfer 1, false⟩ x ∧
      x.tx.data = (transfer 2).data.norm ∧
      (x.tx.getHash twoKeys.keccak256).1 ≠ twoKeys.keccak256 x.tx.hashInput := by
  have hhash : Reach (CacheStep twoKeys flatReader) (fun _ _ => True)
      ⟨transfer 1, false⟩ _ := (Reach.refl _).tail (.hash _) trivial
  have hrun := reach_decodeRLP hhash (streamOf_ready _) transfer_two_holds trivial
  refine ⟨_, hrun, rfl, ?_⟩
  show twoKeys.keccak256 (transfer 1).hashInput ≠
    twoKeys.keccak256 (transfer 2).hashInput
  decide +kernel

theorem caches_coherent_reuse :
    ∃ x : TxVar, x.tx.data = (transfer 2).data.norm ∧ x.tx.hash.isSome ∧ x.tx.size.isSome ∧
      Coherent twoKeys x.tx := by
  have hsize : Reach (CacheStep twoKeys flatReader) TxVar.Decodable
      ⟨transfer 1, false⟩ _ := (Reach.refl _).tail (.size _) trivial
  have hdec := reach_decodeRLP hsize (streamOf_ready _) transfer_two_holds
    ⟨rfl, rfl, .inr ⟨_, transfer_two_holds⟩, fun h => by simp at h⟩
  have hrun := hdec.tail (.hash _) trivial
  exact ⟨_, rfl, rfl, rfl, caches_coherent _ _ _ _ hrun⟩

end Fiscobcos.Types
