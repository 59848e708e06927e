import Fiscobcos.Abi.Pack

/-! # Unpacking (accounts/abi/unpack.go, argument.go)

`toGoType` on an arbitrary buffer. Slice expressions, machine integers and allocations are checked.
-/

namespace Fiscobcos.Abi
open Checked.Outcome

open Fiscobcos.Numerals Fiscobcos.Checked Fiscobcos.HeadTail
open AbiType (throughout throughout_self throughout_slice throughout_array throughout_tuple isSlice
  isArray isAtom)

/-- `reflectIntKindAndType`: the sizes that have a machine type; all others are `*big.Int`. -/
def hasMachineKind (size : ℕ) : Bool := size = 8 || size = 16 || size = 32 || size = 64

def lastBytes (b : Bytes) (n : ℕ) : Bytes := b.drop (b.length - n)

def signed (bits v : ℕ) : ℤ := if v < 2 ^ (bits - 1) then v else v - 2 ^ bits

def readInteger (unsigned : Bool) (size : ℕ) (b : Bytes) : ℤ :=
  match hasMachineKind size, unsigned with
  | true, true => beVal (lastBytes b (size / 8))
  | true, false => signed size (beVal (lastBytes b (size / 8)))
  | false, true => beVal b
  | false, false => signed 256 (beVal b)

def readBool (word : Bytes) : Outcome AbiError Bool :=
  if (word.take 31).any (· ≠ 0) then .err .badBool
  else
    match word.drop 31 with
    | [0] => .ok false
    | [1] => .ok true
    | _ => .err .badBool

def readFunctionType (word : Bytes) : Outcome AbiError Bytes :=
  if beVal (word.drop 24) ≠ 0 then .err (.badFunction word) else .ok (word.take 24)

def readFixedBytes (size : ℕ) (word : Bytes) : Outcome AbiError Bytes := slice word 0 size

def bytesToAddress (word : Bytes) : Bytes := lastBytes word 20

/-- The first check of `ToGoType`. -/
def checkWord (index : ℕ) (output : Bytes) : Outcome AbiError ℕ := do
  let stop ← int64 (index + 32)
  if output.length < stop then .err (.lengthInsufficient output.length stop) else .ok stop

def readWord (index : ℕ) (output : Bytes) : Outcome AbiError Bytes := do
  let stop ← checkWord index output
  slice output index stop

def lengthPrefixPointsTo (index : ℕ) (output : Bytes) : Outcome AbiError (ℕ × ℕ) := do
  let offset ← slice output index (index + 32)
  let offsetEnd := beVal offset + 32
  if output.length < offsetEnd then .err (.offsetOver offsetEnd output.length)
  else if 63 < bitLen offsetEnd then .err (.offsetLarge offsetEnd)
  else
    let lengthBig ← slice output (offsetEnd - 32) offsetEnd
    let totalSize := offsetEnd + beVal lengthBig
    if 63 < bitLen totalSize then .err (.lengthLarge totalSize)
    else if output.length < totalSize then .err (.lengthInsufficient output.length totalSize)
    else .ok (offsetEnd, beVal lengthBig)

def tuplePointsTo (index : ℕ) (output : Bytes) : Outcome AbiError ℕ := do
  let offset ← slice output index (index + 32)
  if output.length < beVal offset then .err (.offsetOver (beVal offset) output.length)
  else if 63 < bitLen (beVal offset) then .err (.offsetLarge (beVal offset))
  else .ok (beVal offset)

/-- Where the elements of an array with dynamic elements are taken from. The last eight bytes of
the word are converted to `int64`, so the offset can be negative; nothing is checked. -/
def arrayPointsTo (word output : Bytes) : Outcome AbiError Bytes :=
  if beVal (lastBytes word 8) < 2 ^ 63 then sliceFrom output (beVal (lastBytes word 8))
  else .fault .bounds

def arraySource (elem : AbiType) (word : Bytes) (index : ℕ) (output : Bytes) :
    Outcome AbiError Bytes :=
  if isDynamicType elem then arrayPointsTo word output else sliceFrom output index

def tupleStart (elems : List AbiType) (index : ℕ) (output : Bytes) : Outcome AbiError ℕ :=
  if anyDynamic elems then tuplePointsTo index output else .ok index

/-- The head word after an argument or field of type `t` in head word `pos`. Static arrays and
tuples take more than one: `index + virtualArgs` of the code, which only grows. -/
def nextHead (t : AbiType) (pos : ℕ) : Outcome AbiError ℕ :=
  match t with
  | .array _ _ | .tuple _ =>
    if isDynamicType t then int64 (pos + 1)
    else do
      let size ← int64 (getTypeSize t)
      int64 (pos + size / 32)
  | _ => int64 (pos + 1)

def unpackElems (element : ℕ → Outcome AbiError Value) (elemSize : ℕ) :
    ℕ → ℕ → Outcome AbiError (List Value)
  | 0, _ => .ok []
  | count + 1, i => do
    let v ← element i
    let next ← int64 (i + elemSize)
    let vs ← unpackElems element elemSize count next
    .ok (v :: vs)

def allocate (size : ℕ) : Outcome AbiError Unit :=
  if size ≤ maxAlloc then .ok () else .fault .memory

/-- Sizes are not negative here, so that check of the code is not needed. -/
def forEachUnpack (elem : AbiType) (element : ℕ → Outcome AbiError Value) (output : Bytes)
    (start size : ℕ) : Outcome AbiError Value := do
  let span ← int64 (32 * size)
  let stop ← int64 (start + span)
  if output.length < stop then .err (.arrayOver output.length stop)
  else
    allocate (size * goSize elem)
    let elemSize ← int64 (getTypeSize elem)
    let vs ← unpackElems element elemSize size start
    .ok (.seq vs)

mutual

def toGoType : AbiType → ℕ → Bytes → Outcome AbiError Value
  | .int n, index, output => do
    let word ← readWord index output
    .ok (.num (readInteger false n word))
  | .uint n, index, output => do
    let word ← readWord index output
    .ok (.num (readInteger true n word))
  | .bool, index, output => do
    let word ← readWord index output
    let b ← readBool word
    .ok (.bool b)
  | .address, index, output => do
    let word ← readWord index output
    .ok (.bytes (bytesToAddress word))
  | .fixedBytes n, index, output => do
    let word ← readWord index output
    let bs ← readFixedBytes n word
    .ok (.bytes bs)
  | .function, index, output => do
    let word ← readWord index output
    let bs ← readFunctionType word
    .ok (.bytes bs)
  | .string, index, output | .bytes, index, output => do
    let _ ← checkWord index output
    let place ← lengthPrefixPointsTo index output
    let stop ← int64 (place.1 + place.2)
    let bs ← slice output place.1 stop
    .ok (.bytes bs)
  | .slice e, index, output => do
    let _ ← checkWord index output
    let place ← lengthPrefixPointsTo index output
    let rest ← sliceFrom output place.1
    forEachUnpack e (fun i => toGoType e i rest) rest 0 place.2
  | .array k e, index, output => do
    let word ← readWord index output
    let rest ← arraySource e word index output
    forEachUnpack e (fun i => toGoType e i rest) rest 0 k
  | .tuple ts, index, output => do
    let _ ← readWord index output
    let start ← tupleStart ts index output
    let rest ← sliceFrom output start
    allocate (goSize (.tuple ts))
    let vs ← unpackAll ts 0 rest
    .ok (.seq vs)

/-- The loop of `forTupleUnpack` and `UnpackValues`. The error is looked at after the next head
word has been computed. -/
def unpackAll : List AbiType → ℕ → Bytes → Outcome AbiError (List Value)
  | [], _, _ => .ok []
  | t :: ts, pos, output => do
    let index ← int64 (pos * 32)
    let marshalled ← (toGoType t index output).attempt
    let next ← nextHead t pos
    let v ← Outcome.ofExcept marshalled
    let vs ← unpackAll ts next output
    .ok (v :: vs)

end

def Arguments.nonIndexed (args : List Argument) : List Argument := args.filter (!·.indexed)

def Arguments.unpackValues (args : List Argument) (data : Bytes) : Outcome AbiError (List Value) :=
  unpackAll ((Arguments.nonIndexed args).map Argument.type) 0 data

variable {index : ℕ} {output : Bytes}

theorem allocate_of_le {size : ℕ} (h : size ≤ maxAlloc) : allocate size = .ok () := if_pos h

theorem allocate_ok {size : ℕ} (h : allocate size = .ok ()) : size ≤ maxAlloc := by
  rw [allocate] at h
  split at h
  · assumption
  · cases h

theorem checkWord_ok {stop : ℕ} (h : checkWord index output = .ok stop) :
    stop = index + 32 ∧ index + 32 ≤ output.length := by
  rw [checkWord] at h
  obtain ⟨m, hm, h⟩ := bind_eq_ok.mp h
  obtain ⟨-, rfl⟩ := int64_eq_ok.mp hm
  split at h
  · cases h
  · cases h
    omega

theorem readWord_ok {w : Bytes} (h : readWord index output = .ok w) :
    w.length = 32 ∧ index + 32 ≤ output.length := by
  rw [readWord] at h
  obtain ⟨stop, hstop, h⟩ := bind_eq_ok.mp h
  obtain ⟨rfl, hle⟩ := checkWord_ok hstop
  exact ⟨by rw [slice_length h]; omega, hle⟩

theorem lengthPrefixPointsTo_ok {place : ℕ × ℕ}
    (h : lengthPrefixPointsTo index output = .ok place) :
    index + 32 ≤ output.length ∧ place.1 = beVal ((output.drop index).take 32) + 32 ∧
      place.2 = beVal ((output.drop (place.1 - 32)).take 32) ∧
      place.1 + place.2 ≤ output.length := by
  rw [lengthPrefixPointsTo] at h
  obtain ⟨offset, hoffset, h⟩ := bind_eq_ok.mp h
  unfold slice at hoffset
  split_ifs at hoffset with hin
  cases hoffset
  rw [List.drop_take, Nat.add_sub_cancel_left] at h
  dsimp only at h
  split_ifs at h with hover hlarge
  obtain ⟨lengthBig, hlength, h⟩ := bind_eq_ok.mp h
  unfold slice at hlength
  split_ifs at hlength with hin'
  cases hlength
  split_ifs at h with hlarge' hover'
  cases h
  refine ⟨hin.2, rfl, ?_, Nat.le_of_not_lt hover'⟩
  dsimp only
  rw [List.drop_take, Nat.sub_sub_self (Nat.le_add_left 32 _)]

theorem nextHead_cases (t : AbiType) (pos : ℕ) :
    (getTypeSize t = 32 ∧ nextHead t pos = int64 (pos + 1)) ∨
      nextHead t pos = (do let size ← int64 (getTypeSize t); int64 (pos + size / 32)) := by
  cases hd : isDynamicType t with
  | true =>
    refine .inl ⟨getTypeSize_dynamic hd, ?_⟩
    cases t <;> simp_all [nextHead, isDynamicType]
  | false =>
    cases t with
    | array k e => exact .inr (by simp [nextHead, hd])
    | tuple ts => exact .inr (by simp [nextHead, hd])
    | _ => exact .inl ⟨rfl, rfl⟩

theorem nextHead_eq {t : AbiType} (h : getTypeSize t < 2 ^ 63) (pos : ℕ) :
    nextHead t pos = int64 (pos + getTypeSize t / 32) := by
  rcases nextHead_cases t pos with ⟨hsize, hnext⟩ | hnext
  · rw [hnext, hsize]
  · rw [hnext, int64_of_lt h, ok_bind]

theorem headWord_mul (t : AbiType) (pos : ℕ) :
    (pos + getTypeSize t / 32) * 32 = pos * 32 + getTypeSize t := by
  rw [Nat.add_mul, Nat.div_mul_cancel (getTypeSize_dvd t)]

theorem nextHead_ok {t : AbiType} {pos next : ℕ} (h : nextHead t pos = .ok next) :
    next * 32 = pos * 32 + getTypeSize t := by
  rw [← headWord_mul]
  rcases nextHead_cases t pos with ⟨hsize, hnext⟩ | hnext
  · rw [hnext] at h
    rw [hsize, ← (int64_eq_ok.mp h).2]
  · rw [hnext] at h
    obtain ⟨size, hsize, h⟩ := bind_eq_ok.mp h
    rw [(int64_eq_ok.mp hsize).2, (int64_eq_ok.mp h).2]

theorem unpackAll_cons {t : AbiType} {pos next : ℕ} {output : Bytes} {v : Value}
    (hpos : pos * 32 < 2 ^ 63) (hv : toGoType t (pos * 32) output = .ok v)
    (hnext : nextHead t pos = .ok next) (ts : List AbiType) : unpackAll (t :: ts) pos output =
      (do let vs ← unpackAll ts next output; .ok (v :: vs)) := by
  rw [unpackAll, int64_of_lt hpos, ok_bind, hv, attempt_ok, ok_bind, hnext]
  rfl

theorem unpackAll_ok_inv {t : AbiType} {ts : List AbiType} {pos : ℕ} {vs : List Value}
    (h : unpackAll (t :: ts) pos output = .ok vs) :
    ∃ v ws next, vs = v :: ws ∧ toGoType t (pos * 32) output = .ok v ∧
      nextHead t pos = .ok next ∧ unpackAll ts next output = .ok ws := by
  rw [unpackAll] at h
  obtain ⟨index, hindex, h⟩ := bind_eq_ok.mp h
  obtain ⟨-, rfl⟩ := int64_eq_ok.mp hindex
  obtain ⟨marshalled, hm, h⟩ := bind_eq_ok.mp h
  obtain ⟨next, hnext, h⟩ := bind_eq_ok.mp h
  obtain ⟨v, hv, h⟩ := bind_eq_ok.mp h
  obtain ⟨ws, hws, h⟩ := bind_eq_ok.mp h
  cases h
  exact ⟨v, ws, next, rfl, by rw [← hv, ← attempt_eq_ok.mp hm], hnext, hws⟩

end Fiscobcos.Abi
