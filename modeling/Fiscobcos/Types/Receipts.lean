import Fiscobcos.Common.Hexutil
import Fiscobcos.Lib.JsonTree
import Fiscobcos.Rlp.Shapes
import Fiscobcos.Types.Bloom
import Fiscobcos.Types.Transaction

/-! # Receipts and logs (core/types/receipt.go, core/types/log.go)

Strings are byte strings; a nil slice and an empty one are the same value; `Logs` holds pointers,
of which one may be nil. -/

namespace Fiscobcos.Types
open List

open Fiscobcos.Numerals Fiscobcos.RlpFormat Fiscobcos.Rlp

structure Log where
  address : Address
  topics : List Hash
  data : Bytes
  blockNumber : UInt64
  txHash : Hash
  txIndex : UInt64
  blockHash : Hash
  index : UInt64
  removed : Bool

structure Receipt where
  blockHash : Hash
  blockNumber : Bytes
  contractAddress : Address
  fromAddr : Address
  gasUsed : Bytes
  input : Bytes
  logs : List (Option Log)
  bloom : Bloom
  output : Bytes
  status : Bytes
  toAddr : Address
  txHash : Hash
  txIndex : Bytes

def receiptStatusFailedRLP : Bytes := []

def receiptStatusSuccessfulRLP : Bytes := [0x01]

def receiptStatusFailed : Bytes := [1]

def receiptStatusSuccessful : Bytes := [0]

inductive ReceiptError where
  | rlp (e : DecodeError)
  | invalidStatus (postStateOrStatus : Bytes)

def ReceiptError.message : ReceiptError → Bytes
  | .rlp e => JsonTree.ascii e.message
  | .invalidStatus b => JsonTree.ascii "invalid receipt status " ++ Hexutil.hexEncode b

def Receipt.setStatus (r : Receipt) (postStateOrStatus : Bytes) : Except ReceiptError Receipt :=
  if postStateOrStatus = receiptStatusSuccessfulRLP then
    .ok { r with status := receiptStatusSuccessful }
  else if postStateOrStatus = receiptStatusFailedRLP then
    .ok { r with status := receiptStatusFailed }
  else .error (.invalidStatus postStateOrStatus)

def Receipt.statusEncoding (r : Receipt) : Bytes :=
  if r.status = receiptStatusFailed then receiptStatusFailedRLP else receiptStatusSuccessfulRLP

abbrev RlpLog := Address × List Hash × Bytes × Unit

def Log.rlpLog (l : Log) : RlpLog := (l.address, l.topics, l.data, ())

def RlpLog.toLog (f : RlpLog) : Log where
  address := f.1
  topics := f.2.1
  data := f.2.2.1
  blockNumber := 0
  txHash := fillArray 32 []
  txIndex := 0
  blockHash := fillArray 32 []
  index := 0
  removed := false

def writeTopics (topics : List Hash) : Emit :=
  writeList (writeElems (topics.map fun t => writeByteArray t.val))

def RlpLog.write (f : RlpLog) : Emit :=
  makeStructWriter [writeByteArray f.1.val, writeTopics f.2.1, writeBytes f.2.2.1]

def decodeHash : Decoder Hash := decodeByteArray "common.Hash" 32

def decodeAddress : Decoder Address := decodeByteArray "common.Address" 20

def decodeTopics : Decoder (List Hash) := decodeListSlice "[]common.Hash" decodeHash

def decodeLogFields {β : Type} (typ : String) (rest : Decoder β) :
    Decoder (Address × List Hash × Bytes × β) :=
  decodeField typ "Address" decodeAddress <| decodeField typ "Topics" decodeTopics <|
  decodeField typ "Data" (decodeContents "[]uint8") rest

def decodeRlpLog (typ : String) : Decoder RlpLog :=
  makeStructDecoder typ (decodeLogFields typ decodeNoFields)

def Log.encodeRLP (l : Log) : Emit := l.rlpLog.write

def Log.decodeRLP : Decoder Log :=
  .map RlpLog.toLog (decodeValue "types.rlpLog" (decodeRlpLog "types.rlpLog"))

abbrev ReceiptRLP := Bytes × Rlp.ByteArray bloomByteLength × List (Option Log) × Unit

def decodeBloom : Decoder (Rlp.ByteArray bloomByteLength) :=
  decodeByteArray "types.Bloom" bloomByteLength

def decodeReceiptRLP : Decoder ReceiptRLP :=
  makeStructDecoder "types.receiptRLP" <|
    decodeField "types.receiptRLP" "PostStateOrStatus" (decodeContents "[]uint8") <|
    decodeField "types.receiptRLP" "Bloom" decodeBloom <|
    decodeField "types.receiptRLP" "Logs"
      (decodeListSlice "[]*types.Log" (makeSimplePtrDecoder Log.decodeRLP)) decodeNoFields

namespace Receipt

/-- A nil log is written as an empty list. -/
def encodeRLP (r : Receipt) : Emit :=
  makeStructWriter [writeBytes r.statusEncoding, writeByteArray r.bloom.bytes,
    writeList (writeElems (r.logs.map (makePtrWriter .list Log.encodeRLP)))]

/-- With the receipt after it. -/
def decodeRLP (r : Receipt) (s : Stream) : Except ReceiptError Unit × Receipt × Stream :=
  match decodeValue "types.receiptRLP" decodeReceiptRLP s with
  | (.error e, s) => (.error (.rlp e), r, s)
  | (.ok dec, s) =>
    match r.setStatus dec.1 with
    | .error e => (.error e, r, s)
    | .ok r => (.ok (), { r with bloom := ⟨dec.2.1.val, dec.2.1.property⟩, logs := dec.2.2.1 }, s)

def decodeBytes (r : Receipt) (b : Bytes) : Except ReceiptError Unit × Receipt :=
  match r.decodeRLP (.reset b b.length) with
  | (.error e, r, _) => (.error e, r)
  | (.ok _, r, s) =>
    if 0 < s.input.length then (.error (.rlp (.stream .moreThanOneValue)), r) else (.ok (), r)

end Receipt

def Hash.item (h : Hash) : Item := .str h.val

def RlpLog.items (f : RlpLog) : List Item :=
  [.str f.1.val, .list (f.2.1.map Hash.item), .str f.2.2.1]

def logPtrItem : Option Log → Item
  | none => .list []
  | some l => .list l.rlpLog.items

def Receipt.items (r : Receipt) : List Item :=
  [.str r.statusEncoding, .str r.bloom.bytes, .list (r.logs.map logPtrItem)]

/-- The encoding has room in a slice of the machine. -/
def Receipt.InMemory (r : Receipt) : Prop := (Item.list r.items).encode.length < 2 ^ 63

theorem writeTopics_emits {topics : List Hash} (hfit : (Item.list (topics.map Hash.item)).Fits) :
    Emits (writeTopics topics) [.list (topics.map Hash.item)] := by
  refine writeList_emits (writeElems_emits ?_ hfit) hfit
  rw [forall₂_map_left_iff, forall₂_map_right_iff, forall₂_same]
  intro t _ ht
  exact writeByteArray_emits t.val ht

theorem RlpLog.write_emits {f : RlpLog} (hfit : (Item.list f.items).Fits) :
    Emits f.write [.list f.items] := by
  refine writeList_emits (writeElems_emits ?_ hfit) hfit
  exact .cons (writeByteArray_emits _) (.cons writeTopics_emits (.cons (writeBytes_emits _) .nil))

theorem writeLogPtr_emits {p : Option Log} (hfit : (logPtrItem p).Fits) :
    Emits (makePtrWriter .list Log.encodeRLP p) [logPtrItem p] := by
  cases p with
  | none =>
    have hnil : makePtrWriter .list Log.encodeRLP none = writeList (writeElems []) := by
      funext w
      rfl
    rw [hnil]
    exact writeList_emits writeElems_nil_emits hfit
  | some l => exact RlpLog.write_emits hfit

theorem Receipt.encodeToBytes_eq {r : Receipt} (hm : r.InMemory) :
    (Item.list r.items).Fits ∧ encodeToBytes r.encodeRLP = .ok (Item.list r.items).encode := by
  have hp := (Item.list r.items).payload_le
  unfold Receipt.InMemory at hm
  have hfit : (Item.list r.items).Fits := by
    unfold Item.Fits
    omega
  refine ⟨hfit, encodeToBytes_of_emits (writeList_emits (writeElems_emits ?_ hfit) hfit)⟩
  refine .cons (writeBytes_emits _) (.cons (writeByteArray_emits _) (.cons ?_ .nil))
  intro hlogs
  refine writeList_emits (writeElems_emits ?_ hlogs) hlogs
  rw [forall₂_map_left_iff, forall₂_map_right_iff, forall₂_same]
  intro p _ hfitp
  exact writeLogPtr_emits hfitp

theorem decodeHash_decodes : Decodes decodeHash fun x h => x = h.item :=
  decodeByteArray_decodes "common.Hash" (by norm_num)

theorem decodeAddress_decodes : Decodes decodeAddress fun x a => x = .str a.val :=
  decodeByteArray_decodes "common.Address" (by norm_num)

theorem decodeBloom_decodes : Decodes decodeBloom fun x b => x = .str b.val :=
  decodeByteArray_decodes "types.Bloom" (by decide)

theorem forall₂_map_iff {α β : Type} {f : β → α} {xs : List α} {ys : List β} :
    Forall₂ (fun x y => x = f y) xs ys ↔ xs = ys.map f := by
  rw [← forall₂_map_right_iff (R := Eq), forall₂_eq_eq_eq]

theorem exists_of_forall₂ {α β : Type} {R : α → β → Prop} {xs : List α} {ys : List β}
    (h : Forall₂ R xs ys) {x : α} (hx : x ∈ xs) : ∃ y, R x y := by
  induction h with
  | nil => cases hx
  | cons hr _ ih =>
    rcases mem_cons.mp hx with rfl | hx
    · exact ⟨_, hr⟩
    · exact ih hx

theorem decodeTopics_decodes :
    Decodes decodeTopics fun x topics => x = .list (topics.map Hash.item) := by
  refine (decodeListSlice_decodes decodeHash_decodes "[]common.Hash").congr fun x topics => ?_
  constructor
  · intro h
    obtain ⟨xs, rfl, hxs⟩ := h
    rw [forall₂_map_iff.mp hxs]
  · intro h
    exact ⟨_, h, forall₂_map_iff.mpr rfl⟩

theorem decodeLogFields_decodes {β : Type} {rest : Decoder β} {S : List Item → β → Prop}
    (h : DecodesFields rest S) (typ : String) :
    DecodesFields (decodeLogFields typ rest) fun xs f =>
      ∃ ys, xs = RlpLog.items (f.1, f.2.1, f.2.2.1, ()) ++ ys ∧ S ys f.2.2.2 := by
  have hdata := decodeField_decodes (decodeContents_decodes "[]uint8") h typ "Data"
  have htopics := decodeField_decodes decodeTopics_decodes hdata typ "Topics"
  refine (decodeField_decodes decodeAddress_decodes htopics typ "Address").congr fun xs f => ?_
  constructor
  · intro hx
    obtain ⟨x, _, rfl, rfl, y, _, rfl, rfl, z, zs, rfl, rfl, hys⟩ := hx
    exact ⟨zs, rfl, hys⟩
  · intro hx
    obtain ⟨ys, rfl, hys⟩ := hx
    exact ⟨_, _, rfl, rfl, _, _, rfl, rfl, _, _, rfl, rfl, hys⟩

theorem decodeRlpLog_decodes (typ : String) :
    Decodes (decodeRlpLog typ) fun x f => x = .list f.items := by
  have hfields := decodeLogFields_decodes decodeNoFields_decodes typ
  refine (makeStructDecoder_decodes hfields typ).congr fun x f => ?_
  constructor
  · intro hx
    obtain ⟨xs, rfl, ys, rfl, rfl⟩ := hx
    rfl
  · intro hx
    exact ⟨_, hx, [], rfl, rfl⟩

theorem Log.decodeRLP_decodes :
    Decodes Log.decodeRLP fun x l => ∃ f : RlpLog, x = .list f.items ∧ l = f.toLog :=
  ((decodeRlpLog_decodes "types.rlpLog").value "types.rlpLog").map RlpLog.toLog

def ReceiptShape (x : Item) (v : ReceiptRLP) : Prop :=
  ∃ xs, x = .list [.str v.1, .str v.2.1.val, .list xs] ∧
    List.Forall₂ (fun x p => ∃ l, (∃ f : RlpLog, x = .list f.items ∧ l = f.toLog) ∧ p = some l)
      xs v.2.2.1

theorem decodeReceiptRLP_decodes : Decodes decodeReceiptRLP ReceiptShape := by
  have hlogs := decodeField_decodes
    (decodeListSlice_decodes (Log.decodeRLP_decodes.map some) "[]*types.Log")
    decodeNoFields_decodes "types.receiptRLP" "Logs"
  have hbloom := decodeField_decodes decodeBloom_decodes hlogs "types.receiptRLP" "Bloom"
  have hstatus := decodeField_decodes (decodeContents_decodes "[]uint8") hbloom "types.receiptRLP"
    "PostStateOrStatus"
  refine (makeStructDecoder_decodes hstatus "types.receiptRLP").congr fun x v => ?_
  constructor
  · intro hx
    obtain ⟨_, rfl, x₁, _, rfl, rfl, x₂, _, rfl, rfl, x₃, _, rfl, ⟨xs, rfl, hxs⟩, rfl⟩ := hx
    exact ⟨xs, rfl, hxs⟩
  · intro hx
    obtain ⟨xs, rfl, hxs⟩ := hx
    exact ⟨_, rfl, _, _, rfl, rfl, _, _, rfl, rfl, _, _, rfl, ⟨xs, rfl, hxs⟩, rfl⟩

/-- `CheckReceipt` accepts the status, or it is the one of a successful receipt. -/
def Receipt.Successful (r : Receipt) : Prop :=
  r.status = JsonTree.ascii "0x0" ∨ r.status = receiptStatusSuccessful

/-- Decoding what has been encoded keeps filter, consensus fields of the logs and verdict, whatever
was in the receipt that is decoded into. -/
def Receipt.SurvivesRLP (r old : Receipt) : Prop :=
  ∃ b r', encodeToBytes r.encodeRLP = .ok b ∧ old.decodeBytes b = (.ok (), r') ∧
    r'.bloom = r.bloom ∧
    r'.logs.map (Option.map Log.rlpLog) = r.logs.map (Option.map Log.rlpLog) ∧
    (r'.Successful ↔ r.Successful)

theorem receiptStatusFailed_not_successful {r : Receipt} (h : r.status = receiptStatusFailed) :
    ¬ r.Successful := by
  unfold Receipt.Successful
  rw [h]
  decide

/-- The status that is decoded from the encoding: every status but one is successful. -/
def Receipt.statusAfter (r : Receipt) : Bytes :=
  if r.status = receiptStatusFailed then receiptStatusFailed else receiptStatusSuccessful

theorem setStatus_statusEncoding (r old : Receipt) :
    old.setStatus r.statusEncoding = .ok { old with status := r.statusAfter } := by
  unfold Receipt.statusEncoding Receipt.statusAfter
  by_cases h : r.status = receiptStatusFailed
  · rw [if_pos h, if_pos h]
    rfl
  · rw [if_neg h, if_neg h]
    rfl

theorem statusAfter_successful_iff {r r' : Receipt} (hstatus : r'.status = r.statusAfter) :
    r'.Successful ↔ r.status ≠ receiptStatusFailed := by
  unfold Receipt.Successful
  rw [hstatus, Receipt.statusAfter]
  by_cases h : r.status = receiptStatusFailed
  · rw [if_pos h]
    simp only [h, ne_eq, not_true_eq_false, iff_false]
    decide
  · rw [if_neg h]
    simp [h]

theorem logShapes {logs : List (Option Log)} (h : none ∉ logs) :
    Forall₂ (fun x p => ∃ l, (∃ f : RlpLog, x = .list f.items ∧ l = f.toLog) ∧ p = some l)
      (logs.map logPtrItem) (logs.map (Option.map fun l => l.rlpLog.toLog)) := by
  rw [forall₂_map_left_iff, forall₂_map_right_iff, forall₂_same]
  intro p hp
  cases p with
  | none => exact absurd hp h
  | some l => exact ⟨_, ⟨l.rlpLog, rfl, rfl⟩, rfl⟩

theorem Receipt.decodeBytes_encoded {r : Receipt} (hfit : (Item.list r.items).Fits)
    (hlogs : none ∉ r.logs) (old : Receipt) :
    old.decodeBytes (Item.list r.items).encode = (.ok (),
      { old with
        status := r.statusAfter
        bloom := r.bloom
        logs := r.logs.map (Option.map fun l => l.rlpLog.toLog) }) := by
  have hshape : ReceiptShape (.list r.items) (r.statusEncoding,
      ⟨r.bloom.bytes, r.bloom.length_bytes⟩, r.logs.map (Option.map fun l => l.rlpLog.toLog), ()) :=
    ⟨_, rfl, logShapes hlogs⟩
  have hdec := decodeReceiptRLP_decodes.value "types.receiptRLP"
  obtain ⟨s', hd, -⟩ := hdec.complete hshape hfit (reset_ready _ _) (reset_has _)
  have hrest := (hdec.at_start hfit hd).2
  unfold Receipt.decodeBytes Receipt.decodeRLP
  simp only [hd, setStatus_statusEncoding, hrest, length_nil, lt_irrefl, if_false]

theorem Receipt.decodeBytes_nil {r : Receipt} (hfit : (Item.list r.items).Fits)
    (hnil : none ∈ r.logs) (old : Receipt) :
    ∃ e, old.decodeBytes (Item.list r.items).encode = (.error e, old) := by
  have hdec := decodeReceiptRLP_decodes.value "types.receiptRLP"
  cases hd : decodeValue "types.receiptRLP" decodeReceiptRLP
      (.reset (Item.list r.items).encode (Item.list r.items).encode.length) with
  | mk res s' =>
    cases res with
    | error e =>
      unfold Receipt.decodeBytes Receipt.decodeRLP
      rw [hd]
      exact ⟨_, rfl⟩
    | ok v =>
      obtain ⟨⟨xs, hx, hxs⟩, -⟩ := hdec.at_start hfit hd
      simp only [Receipt.items, Item.list.injEq, cons.injEq, and_true] at hx
      obtain ⟨-, -, rfl⟩ := hx
      rw [forall₂_map_left_iff] at hxs
      obtain ⟨p, l, ⟨f, hf, -⟩, -⟩ := exists_of_forall₂ hxs hnil
      cases hf

/-- A receipt survives if its status is one of the three that `setStatus` and `CheckReceipt` know,
and no log is nil. -/
theorem receipt_survives_iff (r old : Receipt) (hm : r.InMemory) :
    r.SurvivesRLP old ↔ (r.status = receiptStatusFailed ∨ r.Successful) ∧ none ∉ r.logs := by
  obtain ⟨hfit, hencode⟩ := Receipt.encodeToBytes_eq hm
  constructor
  · intro h
    obtain ⟨b, r', hb, hdecode, -, -, hverdict⟩ := h
    rw [hencode, Except.ok.injEq] at hb
    subst hb
    have hlogs : none ∉ r.logs := by
      intro hnil
      obtain ⟨e, herr⟩ := Receipt.decodeBytes_nil hfit hnil old
      rw [herr] at hdecode
      cases hdecode
    rw [Receipt.decodeBytes_encoded hfit hlogs, Prod.mk.injEq] at hdecode
    obtain ⟨-, rfl⟩ := hdecode
    refine ⟨?_, hlogs⟩
    by_cases hfailed : r.status = receiptStatusFailed
    · exact .inl hfailed
    · exact .inr (hverdict.mp ((statusAfter_successful_iff rfl).mpr hfailed))
  · intro h
    obtain ⟨hstatus, hlogs⟩ := h
    refine ⟨_, _, hencode, Receipt.decodeBytes_encoded hfit hlogs old, rfl, ?_, ?_⟩
    · rw [map_map]
      apply map_congr_left
      intro p _
      cases p <;> rfl
    · refine (statusAfter_successful_iff rfl).trans ?_
      constructor
      · intro hne
        exact hstatus.resolve_left hne
      · intro hsucc hfailed
        exact receiptStatusFailed_not_successful hfailed hsucc

def reportedReceipt (status : Bytes) : Receipt where
  blockHash := fillArray 32 []
  blockNumber := JsonTree.ascii "0x5"
  contractAddress := fillArray 20 []
  fromAddr := fillArray 20 []
  gasUsed := JsonTree.ascii "0x5208"
  input := []
  logs := []
  bloom := .zero
  output := JsonTree.ascii "0x"
  status := status
  toAddr := fillArray 20 []
  txHash := fillArray 32 []
  txIndex := JsonTree.ascii "0x0"

theorem reportedReceipt_inMemory (status : Bytes) : (reportedReceipt status).InMemory := by
  have hcases : (reportedReceipt status).statusEncoding = [] ∨
      (reportedReceipt status).statusEncoding = [1] := by
    unfold Receipt.statusEncoding
    split_ifs
    · exact .inl rfl
    · exact .inr rfl
  have hfailed : (Item.list [.str [], .str Bloom.zero.bytes, .list []]).encode.length < 2 ^ 63 := by
    decide +kernel
  have hsuccessful :
      (Item.list [.str [1], .str Bloom.zero.bytes, .list []]).encode.length < 2 ^ 63 := by
    decide +kernel
  unfold Receipt.InMemory Receipt.items
  rcases hcases with h | h
  · rw [h]
    exact hfailed
  · rw [h]
    exact hsuccessful

/-- Status 0x16 is a reverted transaction; after a round trip the receipt is successful. -/
theorem reverted_becomes_successful : (reportedReceipt (JsonTree.ascii "0x16")).InMemory ∧
      ¬ (reportedReceipt (JsonTree.ascii "0x16")).Successful ∧
      ∃ b r', encodeToBytes (reportedReceipt (JsonTree.ascii "0x16")).encodeRLP = .ok b ∧
        (reportedReceipt []).decodeBytes b = (.ok (), r') ∧ r'.Successful ∧
        ¬ (reportedReceipt (JsonTree.ascii "0x16")).SurvivesRLP (reportedReceipt []) := by
  have hm := reportedReceipt_inMemory (JsonTree.ascii "0x16")
  have hbad : ¬ (reportedReceipt (JsonTree.ascii "0x16")).Successful := by
    unfold Receipt.Successful
    decide
  obtain ⟨hfit, hencode⟩ := Receipt.encodeToBytes_eq hm
  have hdecode := Receipt.decodeBytes_encoded hfit (not_mem_nil) (reportedReceipt [])
  have hne : (reportedReceipt (JsonTree.ascii "0x16")).status ≠ receiptStatusFailed := by
    decide
  refine ⟨hm, hbad, _, _, hencode, hdecode, (statusAfter_successful_iff rfl).mpr hne, ?_⟩
  intro h
  obtain ⟨b, r', hb, hd, -, -, hverdict⟩ := h
  rw [hencode, Except.ok.injEq] at hb
  subst hb
  rw [hdecode, Prod.mk.injEq] at hd
  obtain ⟨-, rfl⟩ := hd
  exact hbad (hverdict.mp ((statusAfter_successful_iff rfl).mpr hne))

theorem accepted_survives : (reportedReceipt (JsonTree.ascii "0x0")).InMemory ∧
      (reportedReceipt (JsonTree.ascii "0x0")).SurvivesRLP (reportedReceipt []) := by
  have hm := reportedReceipt_inMemory (JsonTree.ascii "0x0")
  refine ⟨hm, (receipt_survives_iff _ _ hm).mpr ⟨.inr (.inl rfl), ?_⟩⟩
  exact not_mem_nil

end Fiscobcos.Types
