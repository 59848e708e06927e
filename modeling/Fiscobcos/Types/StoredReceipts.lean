import Fiscobcos.Rlp.RoundTrip
import Fiscobcos.Types.Receipts

/-! # Receipts in the database (core/types/receipt.go, core/types/log.go)

Receipts of three versions, with logs of two layouts, none of them marked: the decoder tries the
versions in order. `StoredReceipt` and `StoredLog` are the values that were written. -/

namespace Fiscobcos.Types
open Option Receipt

open Fiscobcos.Numerals Fiscobcos.RlpFormat Fiscobcos.Rlp

/-- The fields of `legacyRlpStorageLog` after the first three: block number, transaction hash and
index, block hash and log index. -/
abbrev LegacyFields := UInt64 × Hash × UInt64 × Hash × UInt64 × Unit

def decodeLegacyFields (typ : String) : Decoder LegacyFields :=
  decodeField typ "BlockNumber" (decodeUintAs "uint64") <| decodeField typ "TxHash" decodeHash <|
  decodeField typ "TxIndex" (decodeUintAs "uint") <| decodeField typ "BlockHash" decodeHash <|
  decodeField typ "Index" (decodeUintAs "uint") decodeNoFields

def decodeLegacyLog : Decoder (Address × List Hash × Bytes × LegacyFields) :=
  makeStructDecoder "types.legacyRlpStorageLog" <|
    decodeLogFields "types.legacyRlpStorageLog" (decodeLegacyFields "types.legacyRlpStorageLog")

/-- `LogForStorage.DecodeRLP`; the redundant fields of the old layout are dropped. -/
def decodeLogForStorage : Decoder Log := fun s =>
  match s.raw with
  | (.error e, s) => (.error (.stream e), s)
  | (.ok blob, s) =>
    match decodeBytes "types.rlpStorageLog" (decodeRlpLog "types.rlpStorageLog") blob with
    | .ok dec => (.ok dec.toLog, s)
    | .error _ =>
      match decodeBytes "types.legacyRlpStorageLog" decodeLegacyLog blob with
      | .ok dec => (.ok (RlpLog.toLog (dec.1, dec.2.1, dec.2.2.1, ())), s)
      | .error e => (.error e, s)

def decodeStoredLogs : Decoder (List (Option Log)) :=
  decodeListSlice "[]*types.LogForStorage" (makeSimplePtrDecoder decodeLogForStorage)

def decodeStored : Decoder (Bytes × List (Option Log) × Unit) :=
  makeStructDecoder "types.storedReceiptRLP" <|
    decodeField "types.storedReceiptRLP" "PostStateOrStatus" (decodeContents "[]uint8") <|
    decodeField "types.storedReceiptRLP" "Logs" decodeStoredLogs decodeNoFields

/-- The fields that versions 3 and 4 end with. -/
abbrev OldFields := Hash × Address × List (Option Log) × Bytes × Unit

def decodeOldFields (typ : String) : Decoder OldFields :=
  decodeField typ "TxHash" decodeHash <| decodeField typ "ContractAddress" decodeAddress <|
  decodeField typ "Logs" decodeStoredLogs <|
  decodeField typ "GasUsed" (decodeContents "string") decodeNoFields

def decodeV4 : Decoder (Bytes × OldFields) :=
  makeStructDecoder "types.v4StoredReceiptRLP" <|
    decodeField "types.v4StoredReceiptRLP" "PostStateOrStatus" (decodeContents "[]uint8") <|
    decodeOldFields "types.v4StoredReceiptRLP"

def decodeV3 : Decoder (Bytes × Rlp.ByteArray bloomByteLength × OldFields) :=
  makeStructDecoder "types.v3StoredReceiptRLP" <|
    decodeField "types.v3StoredReceiptRLP" "PostStateOrStatus" (decodeContents "[]uint8") <|
    decodeField "types.v3StoredReceiptRLP" "Bloom" decodeBloom <|
    decodeOldFields "types.v3StoredReceiptRLP"

def Log.bloomLog (l : Log) : BloomLog := ⟨l.address.val, l.topics.map Subtype.val⟩

namespace Receipt

section Decoding
variable (hash : Bytes → Vector Byte 32)

/-- `CreateBloom` of one receipt; a nil log panics. -/
def createBloom (r : Receipt) : Option Bloom :=
  match r.logs.mapM id with
  | none => none
  | some logs => Types.createBloom hash [logs.map Log.bloomLog]

/-- `r.Bloom = CreateBloom(Receipts{r})`, the end of two of the decoders. -/
def recomputeBloom (r : Receipt) : Option (Except ReceiptError Unit × Receipt) :=
  (r.createBloom hash).map fun bloom => (.ok (), { r with bloom := bloom })

def decodeStoredReceiptRLP (r : Receipt) (blob : Bytes) :
    Option (Except ReceiptError Unit × Receipt) :=
  match Rlp.decodeBytes "types.storedReceiptRLP" decodeStored blob with
  | .error e => some (.error (.rlp e), r)
  | .ok stored =>
    match r.setStatus stored.1 with
    | .error e => some (.error e, r)
    | .ok r => recomputeBloom hash { r with logs := stored.2.1 }

def setOldFields (r : Receipt) (stored : OldFields) : Receipt :=
  { r with
    txHash := stored.1
    contractAddress := stored.2.1
    logs := stored.2.2.1
    gasUsed := stored.2.2.2.1 }

def decodeV4StoredReceiptRLP (r : Receipt) (blob : Bytes) :
    Option (Except ReceiptError Unit × Receipt) :=
  match Rlp.decodeBytes "types.v4StoredReceiptRLP" decodeV4 blob with
  | .error e => some (.error (.rlp e), r)
  | .ok stored =>
    match r.setStatus stored.1 with
    | .error e => some (.error e, r)
    | .ok r => recomputeBloom hash (r.setOldFields stored.2)

def decodeV3StoredReceiptRLP (r : Receipt) (blob : Bytes) :
    Option (Except ReceiptError Unit × Receipt) :=
  match Rlp.decodeBytes "types.v3StoredReceiptRLP" decodeV3 blob with
  | .error e => some (.error (.rlp e), r)
  | .ok stored =>
    match r.setStatus stored.1 with
    | .error e => some (.error e, r)
    | .ok r =>
      some (.ok (), setOldFields { r with bloom := ⟨stored.2.1.val, stored.2.1.property⟩ } stored.2.2)

/-- `ReceiptForStorage.DecodeRLP`, with the receipt after it; `none` is a panic. -/
def decodeForStorage (r : Receipt) (s : Stream) :
    Option (Except ReceiptError Unit × Receipt × Stream) :=
  match s.raw with
  | (.error e, s) => some (.error (.rlp (.stream e)), r, s)
  | (.ok blob, s) =>
    match r.decodeStoredReceiptRLP hash blob with
    | none => none
    | some (.ok (), r) => some (.ok (), r, s)
    | some (.error _, r) =>
      match r.decodeV3StoredReceiptRLP blob with
      | none => none
      | some (.ok (), r) => some (.ok (), r, s)
      | some (.error _, r) =>
        (r.decodeV4StoredReceiptRLP hash blob).map fun res => (res.1, res.2, s)

end Decoding

end Receipt

inductive StoredLog where
  | current (f : RlpLog)
  | legacy (f : RlpLog) (rest : LegacyFields)

inductive StoredReceipt where
  | stored (status : Bytes) (logs : List StoredLog)
  | v4 (status : Bytes) (txHash : Hash) (contractAddress : Address) (logs : List StoredLog)
      (gasUsed : Bytes)
  | v3 (status : Bytes) (bloom : Bloom) (txHash : Hash) (contractAddress : Address)
      (logs : List StoredLog) (gasUsed : Bytes)

namespace StoredLog

def write : StoredLog → Emit
  | .current f => f.write
  | .legacy f (blockNumber, txHash, txIndex, blockHash, index, ()) =>
    makeStructWriter [writeByteArray f.1.val, writeTopics f.2.1, writeBytes f.2.2.1,
      writeUint blockNumber, writeByteArray txHash.val, writeUint txIndex,
      writeByteArray blockHash.val, writeUint index]

def log : StoredLog → Log
  | .current f => f.toLog
  | .legacy f _ => f.toLog

def legacyItems : LegacyFields → List Item
  | (blockNumber, txHash, txIndex, blockHash, index, ()) =>
    [.str (minBytes blockNumber.toNat), txHash.item, .str (minBytes txIndex.toNat), blockHash.item,
      .str (minBytes index.toNat)]

def item : StoredLog → Item
  | .current f => .list f.items
  | .legacy f rest => .list (f.items ++ legacyItems rest)

theorem write_emits {l : StoredLog} (hfit : l.item.Fits) : Emits l.write [l.item] := by
  cases l with
  | current f => exact RlpLog.write_emits hfit
  | legacy f rest =>
    obtain ⟨blockNumber, txHash, txIndex, blockHash, index, ⟨⟩⟩ := rest
    refine writeList_emits (writeElems_emits ?_ hfit) hfit
    exact .cons (writeByteArray_emits _) <| .cons writeTopics_emits <| .cons (writeBytes_emits _) <|
      .cons (fun _ => writeUint_emits _) <| .cons (writeByteArray_emits _) <|
      .cons (fun _ => writeUint_emits _) <| .cons (writeByteArray_emits _) <|
      .cons (fun _ => writeUint_emits _) .nil

end StoredLog

def writeStoredLogs (logs : List StoredLog) : Emit :=
  writeList (writeElems (logs.map StoredLog.write))

def logsItem (logs : List StoredLog) : Item := .list (logs.map StoredLog.item)

theorem writeStoredLogs_emits {logs : List StoredLog} (hfit : (logsItem logs).Fits) :
    Emits (writeStoredLogs logs) [logsItem logs] := by
  refine writeList_emits (writeElems_emits ?_ hfit) hfit
  rw [List.forall₂_map_left_iff, List.forall₂_map_right_iff, List.forall₂_same]
  intro l _ hl
  exact StoredLog.write_emits hl

namespace StoredReceipt

def write : StoredReceipt → Emit
  | .stored status logs => makeStructWriter [writeBytes status, writeStoredLogs logs]
  | .v4 status txHash contractAddress logs gasUsed =>
    makeStructWriter [writeBytes status, writeByteArray txHash.val,
      writeByteArray contractAddress.val, writeStoredLogs logs, Reflect.writeString gasUsed]
  | .v3 status bloom txHash contractAddress logs gasUsed =>
    makeStructWriter [writeBytes status, writeByteArray bloom.bytes, writeByteArray txHash.val,
      writeByteArray contractAddress.val, writeStoredLogs logs, Reflect.writeString gasUsed]

def item : StoredReceipt → Item
  | .stored status logs => .list [.str status, logsItem logs]
  | .v4 status txHash contractAddress logs gasUsed =>
    .list [.str status, txHash.item, .str contractAddress.val, logsItem logs, .str gasUsed]
  | .v3 status bloom txHash contractAddress logs gasUsed =>
    .list [.str status, .str bloom.bytes, txHash.item, .str contractAddress.val, logsItem logs,
      .str gasUsed]

def status : StoredReceipt → Bytes
  | .stored status _ | .v4 status _ _ _ _ | .v3 status _ _ _ _ _ => status

def logs : StoredReceipt → List StoredLog
  | .stored _ logs | .v4 _ _ _ logs _ | .v3 _ _ _ _ logs _ => logs

def ValidStatus (v : StoredReceipt) : Prop :=
  v.status = receiptStatusSuccessfulRLP ∨ v.status = receiptStatusFailedRLP

def InMemory (v : StoredReceipt) : Prop := v.item.encode.length < 2 ^ 63

def statusText (v : StoredReceipt) : Bytes :=
  if v.status = receiptStatusSuccessfulRLP then receiptStatusSuccessful else receiptStatusFailed

def logPtrs (v : StoredReceipt) : List (Option Log) := v.logs.map fun l => some l.log

def into (v : StoredReceipt) (bloom : Bloom) (r : Receipt) : Receipt :=
  match v with
  | .stored _ _ => { r with status := v.statusText, logs := v.logPtrs, bloom := bloom }
  | .v4 _ txHash contractAddress _ gasUsed =>
    { r with
      status := v.statusText
      logs := v.logPtrs
      bloom := bloom
      txHash := txHash
      contractAddress := contractAddress
      gasUsed := gasUsed }
  | .v3 _ own txHash contractAddress _ gasUsed =>
    { r with
      status := v.statusText
      logs := v.logPtrs
      bloom := own
      txHash := txHash
      contractAddress := contractAddress
      gasUsed := gasUsed }

theorem encodeToBytes_eq {v : StoredReceipt} (hm : v.InMemory) :
    v.item.Fits ∧ encodeToBytes v.write = .ok v.item.encode := by
  have hp := v.item.payload_le
  unfold InMemory at hm
  have hfit : v.item.Fits := by
    unfold Item.Fits
    omega
  refine ⟨hfit, encodeToBytes_of_emits ?_⟩
  cases v with
  | stored status logs =>
    refine writeList_emits (writeElems_emits ?_ hfit) hfit
    exact .cons (writeBytes_emits _) <| .cons writeStoredLogs_emits .nil
  | v4 status txHash contractAddress logs gasUsed =>
    refine writeList_emits (writeElems_emits ?_ hfit) hfit
    exact .cons (writeBytes_emits _) <| .cons (writeByteArray_emits _) <|
      .cons (writeByteArray_emits _) <| .cons writeStoredLogs_emits <|
      .cons (Reflect.writeString_emits _) .nil
  | v3 status bloom txHash contractAddress logs gasUsed =>
    refine writeList_emits (writeElems_emits ?_ hfit) hfit
    exact .cons (writeBytes_emits _) <| .cons (writeByteArray_emits _) <|
      .cons (writeByteArray_emits _) <| .cons (writeByteArray_emits _) <|
      .cons writeStoredLogs_emits <| .cons (Reflect.writeString_emits _) .nil

end StoredReceipt

theorem decodeLegacyFields_decodes (typ : String) :
    DecodesFields (decodeLegacyFields typ) fun xs f => xs = StoredLog.legacyItems f := by
  have hindex := decodeField_decodes (decodeUintAs_decodes "uint") decodeNoFields_decodes typ
    "Index"
  have hblock := decodeField_decodes decodeHash_decodes hindex typ "BlockHash"
  have htxIndex := decodeField_decodes (decodeUintAs_decodes "uint") hblock typ "TxIndex"
  have htx := decodeField_decodes decodeHash_decodes htxIndex typ "TxHash"
  refine (decodeField_decodes (decodeUintAs_decodes "uint64") htx typ "BlockNumber").congr
    fun xs f => ?_
  obtain ⟨blockNumber, txHash, txIndex, blockHash, index, ⟨⟩⟩ := f
  constructor
  · intro hx
    obtain ⟨x₁, _, rfl, rfl, x₂, _, rfl, rfl, x₃, _, rfl, rfl, x₄, _, rfl, rfl, x₅, _, rfl, rfl,
      rfl⟩ := hx
    rfl
  · intro hx
    exact ⟨_, _, hx, rfl, _, _, rfl, rfl, _, _, rfl, rfl, _, _, rfl, rfl, _, _, rfl, rfl, rfl⟩

theorem decodeLegacyLog_decodes :
    Decodes decodeLegacyLog fun x f =>
      x = (StoredLog.legacy (f.1, f.2.1, f.2.2.1, ()) f.2.2.2).item := by
  have hfields := decodeLogFields_decodes (decodeLegacyFields_decodes "types.legacyRlpStorageLog")
    "types.legacyRlpStorageLog"
  refine (makeStructDecoder_decodes hfields "types.legacyRlpStorageLog").congr fun x f => ?_
  constructor
  · intro hx
    obtain ⟨xs, rfl, ys, rfl, rfl⟩ := hx
    rfl
  · intro hx
    exact ⟨_, hx, _, rfl, rfl⟩

theorem legacy_rejected {f : RlpLog} {rest : LegacyFields}
    (hfit : (StoredLog.legacy f rest).item.Fits) :
    ∃ e, decodeBytes "types.rlpStorageLog" (decodeRlpLog "types.rlpStorageLog")
      (StoredLog.legacy f rest).item.encode = .error e := by
  refine (decodeRlpLog_decodes "types.rlpStorageLog").decodeBytes_error _ hfit ?_
  intro g hg
  have hlen := congrArg List.length (Item.list.inj hg)
  simp [RlpLog.items, StoredLog.legacyItems] at hlen

theorem decodeLogForStorage_decodes :
    Decodes decodeLogForStorage fun x l => ∃ v : StoredLog, x = v.item ∧ l = v.log where
  complete {x l s} hx hfit hs hhas := by
    obtain ⟨v, rfl, rfl⟩ := hx
    obtain ⟨s', hraw, hr⟩ := Stream.raw_complete hs hfit hhas
    refine ⟨s', ?_, hr⟩
    cases v with
    | current f =>
      have hok := ((decodeRlpLog_decodes "types.rlpStorageLog").decodeBytes_iff
        "types.rlpStorageLog" _ f).mpr ⟨_, rfl, hfit, rfl⟩
      simp only [decodeLogForStorage, hraw, StoredLog.item, hok, StoredLog.log]
    | legacy f rest =>
      obtain ⟨e, herr⟩ := legacy_rejected hfit
      have hok := (decodeLegacyLog_decodes.decodeBytes_iff "types.legacyRlpStorageLog" _
        (f.1, f.2.1, f.2.2.1, rest)).mpr ⟨_, rfl, hfit, rfl⟩
      simp only [decodeLogForStorage, hraw, herr]
      rw [hok]
      rfl
  sound {l s s'} hs hd := by
    unfold decodeLogForStorage at hd
    cases hraw : s.raw with
    | mk r t =>
      cases r with
      | error e => simp [hraw] at hd
      | ok blob =>
        obtain ⟨-, -, -, -, -, hr⟩ := Stream.raw_inv hs hraw
        simp only [hraw] at hd
        split at hd
        · rename_i f hok
          cases hd
          obtain ⟨x, hx, hfit, rfl⟩ := ((decodeRlpLog_decodes _).decodeBytes_iff _ _ _).mp hok
          exact ⟨x, ⟨.current f, hx, rfl⟩, hfit, hr⟩
        · split at hd
          · rename_i f hok
            cases hd
            obtain ⟨x, hx, hfit, rfl⟩ := (decodeLegacyLog_decodes.decodeBytes_iff _ _ _).mp hok
            exact ⟨x, ⟨.legacy _ _, hx, rfl⟩, hfit, hr⟩
          · cases hd
  eol {s t} := by
    constructor
    · intro hd
      unfold decodeLogForStorage at hd
      split at hd
      · rename_i hraw
        cases hd
        exact (Stream.raw_outcome s).ahead hraw
      · split at hd
        · cases hd
        · split at hd
          · cases hd
          · rename_i hlegacy
            cases hd
            exact absurd hlegacy (decodeBytes_ne_eol decodeLegacyLog_decodes _ _)
    · intro h
      simp only [decodeLogForStorage, h.raw]

theorem storedLogs_iff {xs : List Item} {ps : List (Option Log)} :
    List.Forall₂ (fun x p => ∃ l, (∃ v : StoredLog, x = v.item ∧ l = v.log) ∧ p = some l) xs ps ↔
      ∃ logs : List StoredLog,
        xs = logs.map StoredLog.item ∧ ps = logs.map fun l => some l.log := by
  constructor
  · intro h
    induction h with
    | nil => exact ⟨[], rfl, rfl⟩
    | cons hx _ ih =>
      obtain ⟨l, ⟨v, rfl, rfl⟩, rfl⟩ := hx
      obtain ⟨logs, rfl, rfl⟩ := ih
      exact ⟨v :: logs, rfl, rfl⟩
  · intro h
    obtain ⟨logs, rfl, rfl⟩ := h
    rw [List.forall₂_map_left_iff, List.forall₂_map_right_iff, List.forall₂_same]
    intro v _
    exact ⟨_, ⟨v, rfl, rfl⟩, rfl⟩

theorem decodeStoredLogs_decodes :
    Decodes decodeStoredLogs fun x ps =>
      ∃ logs : List StoredLog, x = logsItem logs ∧ ps = logs.map fun l => some l.log := by
  refine (decodeListSlice_decodes (decodeLogForStorage_decodes.map some)
    "[]*types.LogForStorage").congr fun x ps => ?_
  constructor
  · intro hx
    obtain ⟨xs, rfl, hxs⟩ := hx
    obtain ⟨logs, rfl, hps⟩ := storedLogs_iff.mp hxs
    exact ⟨logs, rfl, hps⟩
  · intro hx
    obtain ⟨logs, rfl, hps⟩ := hx
    exact ⟨_, rfl, storedLogs_iff.mpr ⟨logs, rfl, hps⟩⟩

theorem decodeStored_decodes : Decodes decodeStored fun x v => ∃ logs : List StoredLog,
      x = (StoredReceipt.stored v.1 logs).item ∧ v.2.1 = logs.map fun l => some l.log := by
  have hlogs := decodeField_decodes decodeStoredLogs_decodes decodeNoFields_decodes
    "types.storedReceiptRLP" "Logs"
  have hstatus := decodeField_decodes (decodeContents_decodes "[]uint8") hlogs
    "types.storedReceiptRLP" "PostStateOrStatus"
  refine (makeStructDecoder_decodes hstatus "types.storedReceiptRLP").congr fun x v => ?_
  constructor
  · intro hx
    obtain ⟨_, rfl, x₁, _, rfl, rfl, x₂, _, rfl, ⟨logs, rfl, hps⟩, rfl⟩ := hx
    exact ⟨logs, rfl, hps⟩
  · intro hx
    obtain ⟨logs, rfl, hps⟩ := hx
    exact ⟨_, rfl, _, _, rfl, rfl, _, _, rfl, ⟨logs, rfl, hps⟩, rfl⟩

theorem decodeOldFields_decodes (typ : String) :
    DecodesFields (decodeOldFields typ) fun xs f => ∃ logs : List StoredLog,
      xs = [f.1.item, .str f.2.1.val, logsItem logs, .str f.2.2.2.1] ∧
        f.2.2.1 = logs.map fun l => some l.log := by
  have hgas := decodeField_decodes (decodeContents_decodes "string") decodeNoFields_decodes typ
    "GasUsed"
  have hlogs := decodeField_decodes decodeStoredLogs_decodes hgas typ "Logs"
  have haddress := decodeField_decodes decodeAddress_decodes hlogs typ "ContractAddress"
  refine (decodeField_decodes decodeHash_decodes haddress typ "TxHash").congr fun xs f => ?_
  constructor
  · intro hx
    obtain ⟨x₁, _, rfl, rfl, x₂, _, rfl, rfl, x₃, _, rfl, ⟨logs, rfl, hps⟩, x₄, _, rfl, rfl,
      rfl⟩ := hx
    exact ⟨logs, rfl, hps⟩
  · intro hx
    obtain ⟨logs, rfl, hps⟩ := hx
    exact ⟨_, _, rfl, rfl, _, _, rfl, rfl, _, _, rfl, ⟨logs, rfl, hps⟩, _, _, rfl, rfl, rfl⟩

theorem decodeV4_decodes : Decodes decodeV4 fun x v => ∃ logs : List StoredLog,
      x = (StoredReceipt.v4 v.1 v.2.1 v.2.2.1 logs v.2.2.2.2.1).item ∧
        v.2.2.2.1 = logs.map fun l => some l.log := by
  have hstatus := decodeField_decodes (decodeContents_decodes "[]uint8")
    (decodeOldFields_decodes "types.v4StoredReceiptRLP") "types.v4StoredReceiptRLP"
    "PostStateOrStatus"
  refine (makeStructDecoder_decodes hstatus "types.v4StoredReceiptRLP").congr fun x v => ?_
  constructor
  · intro hx
    obtain ⟨_, rfl, x₁, _, rfl, rfl, logs, rfl, hps⟩ := hx
    exact ⟨logs, rfl, hps⟩
  · intro hx
    obtain ⟨logs, rfl, hps⟩ := hx
    exact ⟨_, rfl, _, _, rfl, rfl, logs, rfl, hps⟩

theorem decodeV3_decodes : Decodes decodeV3 fun x v => ∃ logs : List StoredLog,
      x = (StoredReceipt.v3 v.1 ⟨v.2.1.val, v.2.1.property⟩ v.2.2.1 v.2.2.2.1 logs
        v.2.2.2.2.2.1).item ∧ v.2.2.2.2.1 = logs.map fun l => some l.log := by
  have hbloom := decodeField_decodes decodeBloom_decodes
    (decodeOldFields_decodes "types.v3StoredReceiptRLP") "types.v3StoredReceiptRLP" "Bloom"
  have hstatus := decodeField_decodes (decodeContents_decodes "[]uint8") hbloom
    "types.v3StoredReceiptRLP" "PostStateOrStatus"
  refine (makeStructDecoder_decodes hstatus "types.v3StoredReceiptRLP").congr fun x v => ?_
  constructor
  · intro hx
    obtain ⟨_, rfl, x₁, _, rfl, rfl, x₂, _, rfl, rfl, logs, rfl, hps⟩ := hx
    exact ⟨logs, rfl, hps⟩
  · intro hx
    obtain ⟨logs, rfl, hps⟩ := hx
    exact ⟨_, rfl, _, _, rfl, rfl, _, _, rfl, rfl, logs, rfl, hps⟩

theorem mapM_id_some {α β : Type} (f : α → β) (xs : List α) :
    (xs.map fun x => some (f x)).mapM id = some (xs.map f) := by
  induction xs with
  | nil => rfl
  | cons x xs ih =>
    rw [List.map_cons, List.mapM_cons, ih]
    rfl

theorem StoredReceipt.ValidStatus.setStatus {v : StoredReceipt} (h : v.ValidStatus) (r : Receipt) :
    r.setStatus v.status = .ok { r with status := v.statusText } := by
  unfold Receipt.setStatus StoredReceipt.statusText
  by_cases h1 : v.status = receiptStatusSuccessfulRLP
  · rw [if_pos h1, if_pos h1]
  · rw [if_neg h1, if_neg h1, if_pos (h.resolve_left h1)]

section Versions
variable (hash : Bytes → Vector Byte 32)

theorem recomputeBloom_ok (r : Receipt) (logs : List StoredLog) :
    ∃ bloom, createBloom hash [logs.map fun l => l.log.bloomLog] = some bloom ∧
      Receipt.recomputeBloom hash { r with logs := logs.map fun l => some l.log } =
        some (.ok (), { r with logs := logs.map fun l => some l.log, bloom := bloom }) := by
  obtain ⟨bloom, hbloom, -⟩ := createBloom_testBit hash [logs.map fun l => l.log.bloomLog]
  refine ⟨bloom, hbloom, ?_⟩
  simp only [Receipt.recomputeBloom, Receipt.createBloom, mapM_id_some, List.map_map,
    Function.comp_def, hbloom, Option.map_some]

def KeepsOnError (r : Receipt) (res : Option (Except ReceiptError Unit × Receipt)) : Prop :=
  (∃ e, res = some (.error e, r)) ∨ ∃ r', res = some (.ok (), r')

theorem decodeStoredReceiptRLP_keeps (r : Receipt) (blob : Bytes) :
    KeepsOnError r (r.decodeStoredReceiptRLP hash blob) := by
  unfold decodeStoredReceiptRLP
  cases hd : decodeBytes "types.storedReceiptRLP" decodeStored blob with
  | error e => exact .inl ⟨_, rfl⟩
  | ok v =>
    obtain ⟨x, ⟨logs, -, hlogs⟩, -⟩ := (decodeStored_decodes.decodeBytes_iff _ _ _).mp hd
    cases hs : r.setStatus v.1 with
    | error e =>
      simp only [hs]
      exact .inl ⟨_, rfl⟩
    | ok r₁ =>
      obtain ⟨bloom, -, hok⟩ := recomputeBloom_ok hash r₁ logs
      simp only [hs, hlogs, hok]
      exact .inr ⟨_, rfl⟩

theorem decodeV3StoredReceiptRLP_keeps (r : Receipt) (blob : Bytes) :
    KeepsOnError r (r.decodeV3StoredReceiptRLP blob) := by
  unfold decodeV3StoredReceiptRLP
  cases hd : decodeBytes "types.v3StoredReceiptRLP" decodeV3 blob with
  | error e => exact .inl ⟨_, rfl⟩
  | ok v =>
    cases hs : r.setStatus v.1 with
    | error e =>
      simp only [hs]
      exact .inl ⟨_, rfl⟩
    | ok r₁ =>
      simp only [hs]
      exact .inr ⟨_, rfl⟩

theorem decodeV4StoredReceiptRLP_keeps (r : Receipt) (blob : Bytes) :
    KeepsOnError r (r.decodeV4StoredReceiptRLP hash blob) := by
  unfold decodeV4StoredReceiptRLP
  cases hd : decodeBytes "types.v4StoredReceiptRLP" decodeV4 blob with
  | error e => exact .inl ⟨_, rfl⟩
  | ok v =>
    obtain ⟨x, ⟨logs, -, hlogs⟩, -⟩ := (decodeV4_decodes.decodeBytes_iff _ _ _).mp hd
    cases hs : r.setStatus v.1 with
    | error e =>
      simp only [hs]
      exact .inl ⟨_, rfl⟩
    | ok r₁ =>
      obtain ⟨bloom, -, hok⟩ := recomputeBloom_ok hash (r₁.setOldFields v.2) logs
      have hold : r₁.setOldFields v.2 =
          { r₁.setOldFields v.2 with logs := logs.map fun l => some l.log } := by
        rw [← hlogs]
        rfl
      simp only [hs]
      rw [hold, hok]
      exact .inr ⟨_, rfl⟩

theorem decodeForStorage_keeps (r : Receipt) (s : Stream) :
    (∃ e s', r.decodeForStorage hash s = some (.error e, r, s')) ∨
      ∃ r' s', r.decodeForStorage hash s = some (.ok (), r', s') := by
  unfold decodeForStorage
  cases hraw : s.raw with
  | mk res s' =>
    cases res with
    | error e => exact .inl ⟨_, _, rfl⟩
    | ok blob =>
      rcases decodeStoredReceiptRLP_keeps hash r blob with ⟨e, h⟩ | ⟨r', h⟩
      · rcases decodeV3StoredReceiptRLP_keeps r blob with ⟨e, h3⟩ | ⟨r', h3⟩
        · rcases decodeV4StoredReceiptRLP_keeps hash r blob with ⟨e, h4⟩ | ⟨r', h4⟩
          · exact .inl ⟨e, s', by simp only [h, h3, h4, map_some]⟩
          · exact .inr ⟨r', s', by simp only [h, h3, h4, map_some]⟩
        · exact .inr ⟨r', s', by simp only [h, h3]⟩
      · exact .inr ⟨r', s', by simp only [h]⟩

theorem not_stored {v : StoredReceipt} (hfit : v.item.Fits)
    (hv : ∀ status logs, v ≠ .stored status logs) (r : Receipt) :
    ∃ e, r.decodeStoredReceiptRLP hash v.item.encode = some (.error e, r) := by
  have hshape : ∀ w : Bytes × List (Option Log) × Unit, ¬ ∃ logs : List StoredLog,
      v.item = (StoredReceipt.stored w.1 logs).item ∧ w.2.1 = logs.map fun l => some l.log := by
    intro w h
    obtain ⟨logs, h, -⟩ := h
    cases v with
    | stored status logs => exact hv status logs rfl
    | v4 | v3 =>
      have hlen := congrArg List.length (Item.list.inj h)
      simp only [List.length_cons, List.length_nil] at hlen
      omega
  obtain ⟨e, he⟩ := decodeStored_decodes.decodeBytes_error "types.storedReceiptRLP" hfit hshape
  refine ⟨.rlp e, ?_⟩
  unfold decodeStoredReceiptRLP
  rw [he]

theorem v4_not_v3 {status : Bytes} {txHash : Hash} {contractAddress : Address}
    {logs : List StoredLog} {gasUsed : Bytes}
    (hfit : (StoredReceipt.v4 status txHash contractAddress logs gasUsed).item.Fits) (r : Receipt) :
    ∃ e, r.decodeV3StoredReceiptRLP
      (StoredReceipt.v4 status txHash contractAddress logs gasUsed).item.encode =
        some (.error e, r) := by
  obtain ⟨e, he⟩ := decodeV3_decodes.decodeBytes_error "types.v3StoredReceiptRLP" hfit (by
    intro w h
    obtain ⟨logs, h, -⟩ := h
    have hlen := congrArg List.length (Item.list.inj h)
    simp only [List.length_cons, List.length_nil] at hlen
    omega)
  refine ⟨.rlp e, ?_⟩
  unfold decodeV3StoredReceiptRLP
  rw [he]

theorem decodeForStorage_reads {v : StoredReceipt} (hstatus : v.ValidStatus) (hfit : v.item.Fits)
    (r : Receipt) {s : Stream} (hs : s.Ready) (hhas : s.Has v.item.encode) :
    ∃ bloom s', createBloom hash [v.logs.map fun l => l.log.bloomLog] = some bloom ∧
      r.decodeForStorage hash s = some (.ok (), v.into bloom r, s') ∧
      Stream.Reads s v.item.encode s' := by
  obtain ⟨s', hraw, hr⟩ := Stream.raw_complete hs hfit hhas
  have hset := hstatus.setStatus r
  cases v with
  | stored status logs =>
    have hok := (decodeStored_decodes.decodeBytes_iff "types.storedReceiptRLP" _
      (status, logs.map fun l => some l.log, ())).mpr ⟨_, ⟨logs, rfl, rfl⟩, hfit, rfl⟩
    obtain ⟨bloom, hbloom, hrec⟩ := recomputeBloom_ok hash
      { r with status := (StoredReceipt.stored status logs).statusText } logs
    refine ⟨bloom, s', hbloom, ?_, hr⟩
    have hread : r.decodeStoredReceiptRLP hash (StoredReceipt.stored status logs).item.encode =
        some (.ok (), (StoredReceipt.stored status logs).into bloom r) := by
      unfold decodeStoredReceiptRLP
      rw [hok]
      dsimp only
      rw [show r.setStatus status = _ from hset]
      exact hrec
    simp only [decodeForStorage, hraw, hread]
  | v4 status txHash contractAddress logs gasUsed =>
    obtain ⟨e, hstored⟩ := not_stored hash hfit (by nofun) r
    obtain ⟨e', hv3⟩ := v4_not_v3 hfit r
    have hok := (decodeV4_decodes.decodeBytes_iff "types.v4StoredReceiptRLP" _
      (status, txHash, contractAddress, logs.map fun l => some l.log, gasUsed, ())).mpr
      ⟨_, ⟨logs, rfl, rfl⟩, hfit, rfl⟩
    obtain ⟨bloom, hbloom, hrec⟩ := recomputeBloom_ok hash
      { r with
        status := (StoredReceipt.v4 status txHash contractAddress logs gasUsed).statusText
        txHash := txHash
        contractAddress := contractAddress
        gasUsed := gasUsed } logs
    refine ⟨bloom, s', hbloom, ?_, hr⟩
    have hread : r.decodeV4StoredReceiptRLP hash
        (StoredReceipt.v4 status txHash contractAddress logs gasUsed).item.encode =
        some (.ok (),
          (StoredReceipt.v4 status txHash contractAddress logs gasUsed).into bloom r) := by
      unfold decodeV4StoredReceiptRLP
      rw [hok]
      dsimp only
      rw [show r.setStatus status = _ from hset]
      exact hrec
    simp only [decodeForStorage, hraw, hstored, hv3, hread, map_some]
  | v3 status own txHash contractAddress logs gasUsed =>
    obtain ⟨e, hstored⟩ := not_stored hash hfit (by nofun) r
    have hok := (decodeV3_decodes.decodeBytes_iff "types.v3StoredReceiptRLP" _
      (status, ⟨own.bytes, own.length_bytes⟩, txHash, contractAddress,
        logs.map fun l => some l.log, gasUsed, ())).mpr ⟨_, ⟨logs, rfl, rfl⟩, hfit, rfl⟩
    obtain ⟨bloom, hbloom, -⟩ := recomputeBloom_ok hash r logs
    refine ⟨bloom, s', hbloom, ?_, hr⟩
    have hread : r.decodeV3StoredReceiptRLP
        (StoredReceipt.v3 status own txHash contractAddress logs gasUsed).item.encode =
        some (.ok (),
          (StoredReceipt.v3 status own txHash contractAddress logs gasUsed).into bloom r) := by
      unfold decodeV3StoredReceiptRLP
      rw [hok]
      dsimp only
      rw [show r.setStatus status = _ from hset]
      rfl
    simp only [decodeForStorage, hraw, hstored, hread]

end Versions

/-- Receipts of every version are read as what was written, and a call that fails changes
nothing. -/
theorem stored_receipts_decode (hash : Bytes → Vector Byte 32) :
    (∀ v : StoredReceipt, v.ValidStatus → v.InMemory → ∃ blob, encodeToBytes v.write = .ok blob ∧
        ∀ (r : Receipt) (s : Stream), s.Ready → s.Has blob →
          ∃ bloom s', createBloom hash [v.logs.map fun l => l.log.bloomLog] = some bloom ∧
            r.decodeForStorage hash s = some (.ok (), v.into bloom r, s') ∧
            Stream.Reads s blob s') ∧
      ∀ (r : Receipt) (s : Stream), r.decodeForStorage hash s ≠ none ∧
        ∀ e r' s', r.decodeForStorage hash s = some (.error e, r', s') → r' = r := by
  refine ⟨?_, ?_⟩
  · intro v hstatus hm
    obtain ⟨hfit, hencode⟩ := StoredReceipt.encodeToBytes_eq hm
    exact ⟨_, hencode, fun r s hs hhas => decodeForStorage_reads hash hstatus hfit r hs hhas⟩
  · intro r s
    rcases decodeForStorage_keeps hash r s with ⟨e, s', h⟩ | ⟨r', s', h⟩
    · rw [h]
      refine ⟨some_ne_none _, ?_⟩
      intro e' r' s'' heq
      rw [some.injEq, Prod.mk.injEq, Prod.mk.injEq] at heq
      exact heq.2.1.symm
    · rw [h]
      refine ⟨some_ne_none _, ?_⟩
      intro e' r'' s'' heq
      rw [some.injEq, Prod.mk.injEq] at heq
      cases heq.1

def oldReceipt : StoredReceipt :=
  .v3 [1] .zero (fillArray 32 [7]) (fillArray 20 [9])
    [.current (fillArray 20 [1], [fillArray 32 [2]], [3], ()),
      .legacy (fillArray 20 [4], [], [], ()) (5, fillArray 32 [], 0, fillArray 32 [], 1, ())]
    (JsonTree.ascii "0x5208")

theorem oldReceipt_decodes : oldReceipt.ValidStatus ∧ oldReceipt.InMemory ∧
      ∃ blob bloom s', encodeToBytes oldReceipt.write = .ok blob ∧
        (reportedReceipt []).decodeForStorage Keccak.keccak256 (.reset blob blob.length) =
          some (.ok (), oldReceipt.into bloom (reportedReceipt []), s') := by
  have hstatus : oldReceipt.ValidStatus := .inl rfl
  have hm : oldReceipt.InMemory := by
    unfold StoredReceipt.InMemory
    decide +kernel
  obtain ⟨blob, hencode, hread⟩ := (stored_receipts_decode Keccak.keccak256).1 oldReceipt hstatus hm
  obtain ⟨bloom, s', -, hdecode, -⟩ := hread (reportedReceipt []) (.reset blob blob.length)
    (reset_ready _ _) (reset_has _)
  exact ⟨hstatus, hm, blob, bloom, s', hencode, hdecode⟩

end Fiscobcos.Types
