import Fiscobcos.Abi.Unpack

/-! # Unpacking what was packed

A value is read back from its place in any buffer that holds its part (`reads_of_hasType`), if the
sizes that are used for it are the true ones, its integers fit a word and there is memory. -/

namespace Fiscobcos.Abi
open List
open Checked.Outcome

open Fiscobcos.Numerals Fiscobcos.Checked Fiscobcos.HeadTail
open AbiType (throughout throughout_self throughout_slice throughout_array throughout_tuple isSlice
  isArray isAtom)

variable {b bs : Bytes} {z : ℤ} {e t : AbiType} {ts : List AbiType} {v : Value} {vs : List Value}
  {element : ℕ → Outcome AbiError Value}

theorem beVal_lastBytes {n : ℕ} (h : n ≤ b.length) : beVal (lastBytes b n) = beVal b % 256 ^ n := by
  have hlen : (lastBytes b n).length = n := by
    rw [lastBytes, length_drop]
    omega
  have hsplit := beVal_append (b.take (b.length - n)) (lastBytes b n)
  rw [lastBytes, take_append_drop, ← lastBytes, hlen] at hsplit
  have hlt := beVal_lt (lastBytes b n)
  rw [hlen] at hlt
  rw [hsplit, Nat.mul_add_mod', Nat.mod_eq_of_lt hlt]

theorem beVal_packNum (z : ℤ) : (beVal (packNum z) : ℤ) = z % 2 ^ 256 := by
  have hnonneg := Int.emod_nonneg z (show (2 : ℤ) ^ 256 ≠ 0 by norm_num)
  have hlt := Int.emod_lt_of_pos z (show (0 : ℤ) < 2 ^ 256 by norm_num)
  rw [packNum, beVal_word (by omega)]
  omega

theorem signed_of_emod {bits v : ℕ} (hbits : 0 < bits) (hv : (v : ℤ) = z % 2 ^ bits)
    (hlo : -2 ^ (bits - 1) ≤ z) (hhi : z < 2 ^ (bits - 1)) : signed bits v = z := by
  obtain ⟨b, rfl⟩ : ∃ b, bits = b + 1 := ⟨bits - 1, by omega⟩
  rw [Nat.add_sub_cancel] at hlo hhi
  have hpow : (2 : ℤ) ^ (b + 1) = 2 * 2 ^ b := by ring
  have hcast : ((2 ^ b : ℕ) : ℤ) = 2 ^ b := by push_cast; rfl
  rw [signed, Nat.add_sub_cancel, hpow]
  rw [hpow] at hv
  generalize (2 : ℤ) ^ b = p at *
  rcases lt_or_ge z 0 with hz | hz
  · have hmod : z % (2 * p) = z + 2 * p := by
      rw [← Int.add_emod_right, Int.emod_eq_of_lt (by omega) (by omega)]
    rw [if_neg (by omega)]
    omega
  · have hmod : z % (2 * p) = z := Int.emod_eq_of_lt hz (by omega)
    rw [if_pos (by omega)]
    omega

def readBits (size : ℕ) : ℕ := if hasMachineKind size then size else 256

theorem readBits_le (size : ℕ) :
    readBits size ≤ 256 ∧ 0 < readBits size ∧ readBits size % 8 = 0 := by
  unfold readBits hasMachineKind
  split
  · simp only [Bool.or_eq_true, decide_eq_true_eq] at *
    omega
  · omega

theorem readInteger_eq (hb : b.length = 32) (unsigned : Bool) (size : ℕ) :
    readInteger unsigned size b =
      if unsigned then ((beVal b % 2 ^ readBits size : ℕ) : ℤ)
      else signed (readBits size) (beVal b % 2 ^ readBits size) := by
  have hlt := beVal_lt b
  rw [hb] at hlt
  have hpow : (256 : ℕ) ^ (size / 8) = 2 ^ (8 * (size / 8)) := by rw [pow_mul]; norm_num
  obtain ⟨hle, -, h8⟩ := readBits_le size
  unfold readBits at *
  cases hk : hasMachineKind size with
  | true =>
    simp only [hk, if_true] at hle h8 ⊢
    have hlast : beVal (lastBytes b (size / 8)) = beVal b % 2 ^ size := by
      rw [beVal_lastBytes (by omega), hpow, show 8 * (size / 8) = size by omega]
    cases unsigned <;> simp [readInteger, hk, hlast]
  | false =>
    have hmod : beVal b % 2 ^ 256 = beVal b := Nat.mod_eq_of_lt (by norm_num at hlt ⊢; exact hlt)
    simp only [Bool.false_eq_true, if_false, hmod]
    cases unsigned <;> simp [readInteger, hk]

theorem packNum_mod (size : ℕ) (z : ℤ) :
    ((beVal (packNum z) % 2 ^ readBits size : ℕ) : ℤ) = z % 2 ^ readBits size := by
  push_cast
  rw [beVal_packNum, Int.emod_emod_of_dvd z (pow_dvd_pow 2 (readBits_le size).1)]

theorem readInteger_unsigned {size : ℕ} (hlo : 0 ≤ z) (hhi : z < 2 ^ readBits size) :
    readInteger true size (packNum z) = z := by
  rw [readInteger_eq (packNum_length z), if_pos rfl, packNum_mod, Int.emod_eq_of_lt hlo hhi]

theorem readInteger_signed {size : ℕ} (hlo : -2 ^ (readBits size - 1) ≤ z)
    (hhi : z < 2 ^ (readBits size - 1)) : readInteger false size (packNum z) = z := by
  rw [readInteger_eq (packNum_length z), if_neg (by simp)]
  exact signed_of_emod (readBits_le size).2.1 (packNum_mod size z) hlo hhi

theorem readBool_word (b : Bool) : readBool (word (if b then 1 else 0)) = .ok b := by
  cases b <;> rfl

theorem bytesToAddress_leftPad (h : bs.length = 20) : bytesToAddress (leftPadBytes bs 32) = bs := by
  rw [bytesToAddress, lastBytes, leftPadBytes_length (by omega), leftPadBytes, h]
  exact drop_left' (by simp)

theorem readFixedBytes_rightPad (h : bs.length ≤ 32) :
    readFixedBytes bs.length (rightPadBytes bs 32) = .ok bs := by
  rw [readFixedBytes, slice_of_le (by omega) (by rw [rightPadBytes_length h]; exact h)]
  rw [rightPadBytes, take_left' rfl, drop_zero]

theorem readFunctionType_rightPad (h : bs.length = 24) :
    readFunctionType (rightPadBytes bs 32) = .ok bs := by
  have hdrop : (rightPadBytes bs 32).drop 24 = replicate 8 0 := by
    rw [rightPadBytes, drop_left' h, h]
  have htake : (rightPadBytes bs 32).take 24 = bs := by
    rw [rightPadBytes, take_left' h]
  rw [readFunctionType, hdrop, if_neg (by decide), htake]

variable {buf : Bytes} {i o n : ℕ}

theorem checkWord_of_le (hlen : buf.length < 2 ^ 63) (h : i + 32 ≤ buf.length) :
    checkWord i buf = .ok (i + 32) := by
  rw [checkWord, int64_of_lt (by omega), ok_bind, if_neg (by omega)]

theorem readWord_of_sits {w : Bytes} (hlen : buf.length < 2 ^ 63) (h : Sits buf i w)
    (hw : w.length = 32) : readWord i buf = .ok w := by
  have hle := h.le
  have hslice := h.slice (ε := AbiError)
  rw [hw] at hle hslice
  rw [readWord, checkWord_of_le hlen hle, ok_bind, hslice]

theorem readWord_of_le (hlen : buf.length < 2 ^ 63) (h : i + 32 ≤ buf.length) :
    ∃ w, readWord i buf = .ok w := by
  rw [readWord, checkWord_of_le hlen h, ok_bind, slice_of_le (by omega) h]
  exact ⟨_, rfl⟩

theorem lengthPrefixPointsTo_of_sits (hlen : buf.length < 2 ^ 63)
    (hword : Sits buf i (word o)) (h : Sits buf o (word n ++ bs)) (hn : n ≤ bs.length) :
    lengthPrefixPointsTo i buf = .ok (o + 32, n) := by
  have hle := h.le
  have hslice := hword.slice (ε := AbiError)
  have hcount := (sits_append.mp h).1.slice (ε := AbiError)
  simp only [length_append, word_length] at hle hslice hcount
  rw [lengthPrefixPointsTo, hslice, ok_bind, beVal_word (by omega)]
  dsimp only
  rw [if_neg (by omega), if_neg (by rw [not_lt, bitLen_le]; omega), Nat.add_sub_cancel, hcount,
    ok_bind, beVal_word (by omega), if_neg (by rw [not_lt, bitLen_le]; omega),
    if_neg (by omega)]

theorem tuplePointsTo_of_sits (hlen : buf.length < 2 ^ 63) (hword : Sits buf i (word o))
    (ho : o ≤ buf.length) : tuplePointsTo i buf = .ok o := by
  have hslice := hword.slice (ε := AbiError)
  rw [word_length] at hslice
  rw [tuplePointsTo, hslice, ok_bind, beVal_word (by omega), if_neg (by omega),
    if_neg (by rw [not_lt, bitLen_le]; omega)]

theorem arrayPointsTo_word (hlen : buf.length < 2 ^ 63) (ho : o ≤ buf.length) :
    arrayPointsTo (word o) buf = .ok (buf.drop o) := by
  have hlast : beVal (lastBytes (word o) 8) = o := by
    rw [beVal_lastBytes (by simp), beVal_word (by omega), Nat.mod_eq_of_lt (by norm_num; omega)]
  rw [arrayPointsTo, hlast, if_pos (by omega), sliceFrom_of_le ho]

theorem arraySource_of_at (hlen : buf.length < 2 ^ 63)
    (hbs : isDynamicType e = false → 32 ≤ bs.length) (h : At buf i (partOf (isDynamicType e) bs)) :
    ∃ w start, readWord i buf = .ok w ∧ arraySource e w i buf = .ok (buf.drop start) ∧
      Sits buf start bs := by
  unfold arraySource
  cases hd : isDynamicType e with
  | true =>
    rw [hd] at h
    obtain ⟨o, hword, hsits⟩ := h
    have hle := hsits.le
    refine ⟨word o, o, readWord_of_sits hlen hword (word_length o), ?_, hsits⟩
    rw [if_pos rfl, arrayPointsTo_word hlen (by omega)]
  | false =>
    rw [hd] at h
    have hle := Sits.le h
    have h32 := hbs hd
    obtain ⟨w, hw⟩ := readWord_of_le hlen (show i + 32 ≤ buf.length by omega)
    refine ⟨w, i, hw, ?_, h⟩
    rw [if_neg (by simp), sliceFrom_of_le (by omega)]

theorem tupleStart_of_at (hlen : buf.length < 2 ^ 63)
    (hbs : anyDynamic ts = false → 32 ≤ bs.length) (h : At buf i (partOf (anyDynamic ts) bs)) :
    ∃ w start, readWord i buf = .ok w ∧ tupleStart ts i buf = .ok start ∧ Sits buf start bs := by
  unfold tupleStart
  cases hd : anyDynamic ts with
  | true =>
    rw [hd] at h
    obtain ⟨o, hword, hsits⟩ := h
    have hle := hsits.le
    refine ⟨word o, o, readWord_of_sits hlen hword (word_length o), ?_, hsits⟩
    rw [if_pos rfl, tuplePointsTo_of_sits hlen hword (by omega)]
  | false =>
    rw [hd] at h
    have hle := Sits.le h
    have h32 := hbs hd
    obtain ⟨w, hw⟩ := readWord_of_le hlen (show i + 32 ≤ buf.length by omega)
    refine ⟨w, i, hw, ?_, h⟩
    rw [if_neg (by simp)]

def readableAt : AbiType → Value → Bool
  | .int _, .num z => -2 ^ 255 ≤ z && z < 2 ^ 255
  | .uint _, .num z => z < 2 ^ 256
  | .slice e, .seq vs => vs.length * goSize e ≤ maxAlloc
  | _, _ => true

def Reads (t : AbiType) (v : Value) : Prop :=
  ∀ buf i, buf.length < 2 ^ 63 → At buf i (partOf (isDynamicType t) (encoding t v)) →
    toGoType t i buf = .ok v

theorem readInteger_int {n : ℕ} (hv : hasType (.int n) (.num z))
    (hr : readableAt (.int n) (.num z)) : readInteger false n (packNum z) = z := by
  simp only [hasType, readableAt, Bool.and_eq_true, decide_eq_true_eq] at hv hr
  cases hk : hasMachineKind n with
  | true =>
    exact readInteger_signed (by simpa [readBits, hk] using hv.1)
      (by simpa [readBits, hk] using hv.2)
  | false =>
    exact readInteger_signed (by simpa [readBits, hk] using hr.1)
      (by simpa [readBits, hk] using hr.2)

theorem readInteger_uint {n : ℕ} (hv : hasType (.uint n) (.num z))
    (hr : readableAt (.uint n) (.num z)) : readInteger true n (packNum z) = z := by
  simp only [hasType, readableAt, Bool.and_eq_true, decide_eq_true_eq] at hv hr
  cases hk : hasMachineKind n with
  | true => exact readInteger_unsigned hv.1 (by simpa [readBits, hk] using hv.2)
  | false => exact readInteger_unsigned hv.1 (by simpa [readBits, hk] using hr)

theorem reads_bytes (ht : t = .string ∨ t = .bytes) : Reads t (.bytes bs) := by
  intro buf i hlen hat
  have henc : At buf i (.remote (packBytesSlice bs)) := by
    rcases ht with rfl | rfl <;> exact hat
  obtain ⟨o, hword, hbs⟩ := henc
  rw [packBytesSlice, packNum_natCast] at hbs
  have hpad : bs.length ≤ (rightPadBytes bs ((bs.length + 31) / 32 * 32)).length := by
    rw [rightPadBytes_length] <;> omega
  have hplace := lengthPrefixPointsTo_of_sits hlen hword hbs hpad
  have hle := hword.le
  rw [word_length] at hle
  -- the content comes right after the length, before the padding
  have hcontent : Sits buf (o + 32) bs := by
    rw [rightPadBytes, ← append_assoc] at hbs
    have h := (sits_append.mp (sits_append.mp hbs).1).2
    rwa [word_length] at h
  have hstop := hcontent.le
  have hslice := hcontent.slice (ε := AbiError)
  rcases ht with rfl | rfl <;>
    rw [toGoType, checkWord_of_le hlen hle, ok_bind, hplace, ok_bind,
      int64_of_lt (by dsimp only; omega), ok_bind] <;>
    dsimp only <;> rw [hslice, ok_bind]

theorem reads_atom (ha : t.isAtom) (hf : formed t) (hv : hasType t v)
    (hr : readableAt t v) : Reads t v := by
  by_cases hd : isDynamicType t
  · have ht := isDynamicType_atom ha hd
    cases v with
    | bytes bs => exact reads_bytes ht
    | _ => rcases ht with rfl | rfl <;> simp [hasType] at hv
  intro buf i hlen hat
  rw [Bool.not_eq_true] at hd
  rw [hd, encoding_atom ha] at hat
  have hword := readWord_of_sits hlen hat (packElement_length ha hd hf hv)
  cases t <;> cases v <;> simp [isAtom, isDynamicType, hasType] at ha hd hv <;>
    rw [toGoType, hword, ok_bind, packElement]
  case int.num n z => rw [readInteger_int (by simpa [hasType] using hv) hr]
  case uint.num n z => rw [readInteger_uint (by simpa [hasType] using hv) hr]
  case bool.bool b => rw [readBool_word, ok_bind]
  case address.bytes bs => rw [bytesToAddress_leftPad hv]
  case fixedBytes.bytes n bs =>
    simp [formed] at hf
    subst hv
    rw [readFixedBytes_rightPad hf.2, ok_bind]
  case function.bytes bs => rw [readFunctionType_rightPad hv, ok_bind]

theorem unpackElems_eq {part : Value → Part} {step size : ℕ} (hlen : buf.length < 2 ^ 63)
    (hsize : ∀ v ∈ vs, (part v).headLen = size)
    (hread : ∀ v ∈ vs, ∀ j, At buf j (part v) → element j = .ok v)
    (hstep : step = size ∨ step ≤ size ∧ vs.length ≤ 1) (hplaced : Placed buf i (vs.map part))
    (hbuf : i + vs.length * size ≤ buf.length) : unpackElems element step vs.length i = .ok vs := by
  induction vs generalizing i with
  | nil => rfl
  | cons v vs ih =>
    obtain ⟨hv, hvs⟩ := forall_mem_cons.mp hsize
    obtain ⟨rv, rvs⟩ := forall_mem_cons.mp hread
    obtain ⟨hat, hrest⟩ := hplaced
    rw [length_cons, Nat.succ_mul] at hbuf
    rw [length_cons, unpackElems, rv i hat, ok_bind,
      int64_of_lt (by rcases hstep with rfl | ⟨h, -⟩ <;> omega), ok_bind]
    have hloop : unpackElems element step vs.length (i + step) = .ok vs := by
      rcases hstep with rfl | ⟨-, hone⟩
      · rw [hv] at hrest
        exact ih hvs rvs (.inl rfl) hrest (by omega)
      · rw [length_cons] at hone
        obtain rfl : vs = [] := eq_nil_of_length_eq_zero (by omega)
        rfl
    rw [hloop, ok_bind]

theorem forEachUnpack_eq (hf : throughout formed e)
    (hsm : small e) (hal : sized e ∨ vs.length ≤ 1) (hroom : vs.length * goSize e ≤ maxAlloc)
    (hvs : ∀ v ∈ vs, hasType e v) (hread : ∀ v ∈ vs, Reads e v) (hlen : buf.length < 2 ^ 63)
    (hsits : Sits buf 0 (layout (vs.map fun v => partOf (isDynamicType e) (encoding e v)))) :
    forEachUnpack e (fun i => toGoType e i buf) buf 0 vs.length = .ok (.seq vs) := by
  have hheads : ∀ v ∈ vs, (partOf (isDynamicType e) (encoding e v)).headLen = headSize e :=
    fun v hmem => headLen_encoding hf (hvs v hmem)
  have hle := hsits.le
  rw [layout_length, headsLen_map hheads] at hle
  have hge := headSize_ge hf
  have hspan : 32 * vs.length ≤ vs.length * headSize e := by
    rw [Nat.mul_comm]
    exact Nat.mul_le_mul_left _ hge
  have hloop : unpackElems (fun i => toGoType e i buf) (getTypeSize e) vs.length 0 = .ok vs := by
    refine unpackElems_eq hlen hheads (fun v hmem j hat => hread v hmem buf j hlen hat) ?_
      (placed_of_layout hsits) (by omega)
    rcases hal with hal | hone
    · exact .inl (by simpa [sized] using hal)
    · exact .inr ⟨getTypeSize_le hf, hone⟩
  rw [forEachUnpack, int64_of_lt (by omega), ok_bind, int64_of_lt (by omega),
    ok_bind, if_neg (by omega), allocate_of_le hroom, ok_bind, int64_of_lt (small_lt hsm), ok_bind,
    hloop, ok_bind]

theorem unpackAll_eq {pos : ℕ} (hf : ∀ t ∈ ts, throughout formed t) (hsm : ∀ t ∈ ts, small t)
    (hal : ∀ t ∈ ts.dropLast, sized t) (hread : ∀ x ∈ ts.zip vs, Reads x.1 x.2)
    (hvs : hasTypes ts vs) (hlen : buf.length < 2 ^ 63)
    (hplaced : Placed buf (pos * 32) (parts ts vs))
    (hbuf : pos * 32 + totalHeadSize ts ≤ buf.length) : unpackAll ts pos buf = .ok vs := by
  induction ts generalizing vs pos with
  | nil => rw [hasTypes_nil hvs, unpackAll]
  | cons t ts ih =>
    obtain ⟨w, ws, rfl, hw, hws⟩ := hasTypes_cons hvs
    obtain ⟨ft, fts⟩ := forall_mem_cons.mp hf
    obtain ⟨st, sts⟩ := forall_mem_cons.mp hsm
    rw [zip_cons_cons] at hread
    obtain ⟨rt, rts⟩ := forall_mem_cons.mp hread
    rw [parts] at hplaced
    obtain ⟨hat, hrest⟩ := hplaced
    rw [headLen_encoding ft hw] at hrest
    rw [totalHeadSize] at hbuf
    have hsize := getTypeSize_le ft
    have hnext : nextHead t pos = .ok (pos + getTypeSize t / 32) := by
      rw [nextHead_eq (small_lt st), int64_of_lt (by omega)]
    rw [unpackAll_cons (by omega) (rt buf _ hlen hat) hnext]
    cases ts with
    | nil => rw [hasTypes_nil hws, unpackAll, ok_bind]
    | cons t' ts =>
      have htrue : getTypeSize t = headSize t := by
        have h := hal t (by simp)
        simpa [sized] using h
      have hpos : (pos + getTypeSize t / 32) * 32 = pos * 32 + headSize t := by
        rw [headWord_mul, htrue]
      rw [ih fts sts (fun s hs => hal s (by simp [hs])) rts hws (by rw [hpos]; exact hrest)
        (by rw [hpos]; omega), ok_bind]

theorem reads_of_hasType (hf : throughout formed t)
    (hal : along alignedAt t v) (hsm : throughout small t) (hv : hasType t v)
    (hr : along readableAt t v) : Reads t v := by
  induction t using AbiType.induction generalizing v with
  | atom t ha => exact reads_atom ha (throughout_self hf) hv (along_self hr)
  | slice e ih =>
    obtain ⟨vs, rfl, hvs⟩ := hasType_slice hv
    have hread : ∀ v ∈ vs, Reads e v := by
      intro v hmem
      exact ih (throughout_slice hf) ((along_slice.mp hal).2 v hmem) (throughout_slice hsm)
        (hvs v hmem) ((along_slice.mp hr).2 v hmem)
    intro buf i hlen hat
    obtain ⟨o, hword, hsits⟩ := hat
    rw [encoding] at hsits
    have hcount : vs.length ≤
        (layout (vs.map fun v => partOf (isDynamicType e) (encoding e v))).length := by
      rw [layout_length,
        headsLen_map fun v hmem => headLen_encoding (throughout_slice hf) (hvs v hmem)]
      have hge := headSize_ge (throughout_slice hf)
      have hmul := Nat.mul_le_mul_left vs.length hge
      omega
    have hplace := lengthPrefixPointsTo_of_sits hlen hword hsits hcount
    have hle := hsits.le
    have hwordle := hword.le
    simp only [length_append, word_length] at hle hwordle
    have hrest := (sits_append.mp hsits).2
    rw [word_length] at hrest
    rw [toGoType, checkWord_of_le hlen hwordle, ok_bind, hplace, ok_bind,
      sliceFrom_of_le (by dsimp only; omega), ok_bind]
    have hstep : sized e ∨ vs.length ≤ 1 := by
      have h := along_self hal
      rw [alignedAt, Bool.or_eq_true, decide_eq_true_eq] at h
      exact h.symm
    exact forEachUnpack_eq (throughout_slice hf) (throughout_self (throughout_slice hsm)) hstep
      (of_decide_eq_true (along_self hr)) hvs hread (by rw [length_drop]; omega) hrest.drop
  | array k e ih =>
    have hstatic := encoding_length hf hv
    obtain ⟨vs, rfl, rfl, hvs⟩ := hasType_array hv
    have hread : ∀ v ∈ vs, Reads e v := by
      intro v hmem
      exact ih (throughout_array hf) ((along_array.mp hal).2 v hmem) (throughout_array hsm)
        (hvs v hmem) ((along_array.mp hr).2 v hmem)
    have hstep : sized e ∨ vs.length ≤ 1 := by
      have h : aligned (.array vs.length e) := along_self hal
      rw [aligned, Bool.or_eq_true, decide_eq_true_eq] at h
      exact h.symm.imp_right Eq.le
    intro buf i hlen hat
    obtain ⟨w, start, hword, hsource, hsits⟩ := arraySource_of_at (e := e) hlen
      (fun hd => by rw [hstatic hd]; exact headSize_ge hf) hat
    have hle := hsits.le
    rw [toGoType, hword, ok_bind, hsource, ok_bind]
    rw [encoding] at hsits
    exact forEachUnpack_eq (throughout_array hf) (throughout_self (throughout_array hsm)) hstep
      (goSize_le (throughout_self hf) (throughout_self hsm)) hvs hread
      (by rw [length_drop]; omega) hsits.drop
  | tuple ts ih =>
    have hstatic := encoding_length hf hv
    obtain ⟨vs, rfl, hvs⟩ := hasType_tuple hv
    intro buf i hlen hat
    obtain ⟨w, start, hword, hsource, hsits⟩ := tupleStart_of_at hlen
      (fun hd => by rw [hstatic hd]; exact headSize_ge hf) hat
    have hle := hsits.le
    rw [encoding] at hsits hle
    have hrest : Sits (buf.drop start) 0 (layout (parts ts vs)) := hsits.drop
    rw [layout_length, headsLen_parts
      (fun t ht v hv => headLen_encoding (throughout_tuple hf t ht) hv) hvs] at hle
    have hfields : unpackAll ts 0 (buf.drop start) = .ok vs := by
      refine unpackAll_eq (throughout_tuple hf)
        (fun t ht => throughout_self (throughout_tuple hsm t ht)) (sized_dropLast (along_self hal))
        (fun x hx => ?_) hvs ?_ ?_ ?_
      · have ht := (of_mem_zip hx).1
        exact ih x.1 ht (throughout_tuple hf x.1 ht) ((along_tuple.mp hal).2 x hx)
          (throughout_tuple hsm x.1 ht) (hasTypes_mem hvs x hx) ((along_tuple.mp hr).2 x hx)
      · rw [length_drop]
        omega
      · rw [Nat.zero_mul]
        exact placed_of_layout hrest
      · rw [length_drop]
        omega
    rw [toGoType, hword, ok_bind, hsource, ok_bind, sliceFrom_of_le (by omega), ok_bind,
      allocate_of_le (goSize_le (throughout_self hf) (throughout_self hsm)), ok_bind, hfields,
      ok_bind]

theorem signed_range {bits v : ℕ} (hbits : 0 < bits) (hv : v < 2 ^ bits) :
    -2 ^ (bits - 1) ≤ signed bits v ∧ signed bits v < 2 ^ (bits - 1) := by
  obtain ⟨b, rfl⟩ : ∃ b, bits = b + 1 := ⟨bits - 1, by omega⟩
  rw [pow_succ] at hv
  have hcast : ((2 ^ b : ℕ) : ℤ) = 2 ^ b := by push_cast; rfl
  have hpow : (2 : ℤ) ^ (b + 1) = 2 * 2 ^ b := by ring
  rw [signed, Nat.add_sub_cancel, hpow, ← hcast]
  split <;> omega

theorem readInteger_range (hb : b.length = 32) (size : ℕ) : readInteger true size b < 2 ^ 256 ∧
      (-2 ^ 255 ≤ readInteger false size b ∧ readInteger false size b < 2 ^ 255) := by
  obtain ⟨hle, hpos, -⟩ := readBits_le size
  have hmod : beVal b % 2 ^ readBits size < 2 ^ readBits size := Nat.mod_lt _ (by positivity)
  have hsigned := signed_range hpos hmod
  have hmono : (2 : ℤ) ^ (readBits size - 1) ≤ 2 ^ 255 := pow_le_pow_right₀ (by norm_num) (by omega)
  rw [readInteger_eq hb, readInteger_eq hb, if_pos rfl, if_neg (by simp)]
  constructor
  · calc ((beVal b % 2 ^ readBits size : ℕ) : ℤ)
        < ((2 ^ readBits size : ℕ) : ℤ) := by exact_mod_cast hmod
      _ = 2 ^ readBits size := by push_cast; rfl
      _ ≤ 2 ^ 256 := pow_le_pow_right₀ (by norm_num) hle
  · exact ⟨le_trans (neg_le_neg hmono) hsigned.1, lt_of_lt_of_le hsigned.2 hmono⟩

theorem unpackElems_mem {step count : ℕ} (h : unpackElems element step count i = .ok vs) :
    vs.length = count ∧ ∀ v ∈ vs, ∃ j, element j = .ok v := by
  induction count generalizing i vs with
  | zero =>
    cases h
    exact ⟨rfl, forall_mem_nil _⟩
  | succ count ih =>
    rw [unpackElems] at h
    obtain ⟨v, hv, h⟩ := bind_eq_ok.mp h
    obtain ⟨next, -, h⟩ := bind_eq_ok.mp h
    obtain ⟨ws, hws, h⟩ := bind_eq_ok.mp h
    cases h
    obtain ⟨hcount, hmem⟩ := ih hws
    exact ⟨by rw [length_cons, hcount], forall_mem_cons.mpr ⟨⟨i, hv⟩, hmem⟩⟩

theorem forEachUnpack_mem {start size : ℕ} (h : forEachUnpack e element buf start size = .ok v) :
    ∃ vs, v = .seq vs ∧ vs.length * goSize e ≤ maxAlloc ∧ ∀ v ∈ vs, ∃ j, element j = .ok v := by
  rw [forEachUnpack] at h
  obtain ⟨span, -, h⟩ := bind_eq_ok.mp h
  obtain ⟨stop, -, h⟩ := bind_eq_ok.mp h
  split at h
  · cases h
  obtain ⟨_, hroom, h⟩ := bind_eq_ok.mp h
  obtain ⟨step, -, h⟩ := bind_eq_ok.mp h
  obtain ⟨vs, hvs, h⟩ := bind_eq_ok.mp h
  cases h
  obtain ⟨rfl, hmem⟩ := unpackElems_mem hvs
  exact ⟨vs, rfl, allocate_ok hroom, hmem⟩

theorem unpackAll_mem {pos : ℕ} (h : unpackAll ts pos buf = .ok vs) :
    ∀ x ∈ ts.zip vs, ∃ j, toGoType x.1 j buf = .ok x.2 := by
  induction ts generalizing pos vs with
  | nil => simp
  | cons t ts ih =>
    obtain ⟨v, ws, next, rfl, hv, -, hws⟩ := unpackAll_ok_inv h
    rw [zip_cons_cons]
    exact forall_mem_cons.mpr ⟨⟨_, hv⟩, ih hws⟩

def Read (t : AbiType) (v : Value) : Prop := ∃ i buf, toGoType t i buf = .ok v

theorem Read.slice (h : Read (.slice e) v) :
    ∃ vs, v = .seq vs ∧ vs.length * goSize e ≤ maxAlloc ∧ ∀ v ∈ vs, Read e v := by
  obtain ⟨i, buf, h⟩ := h
  rw [toGoType] at h
  obtain ⟨_, -, h⟩ := bind_eq_ok.mp h
  obtain ⟨place, -, h⟩ := bind_eq_ok.mp h
  obtain ⟨rest, -, h⟩ := bind_eq_ok.mp h
  obtain ⟨vs, rfl, hroom, hvs⟩ := forEachUnpack_mem h
  exact ⟨vs, rfl, hroom, fun v hmem => (hvs v hmem).imp fun j hj => ⟨rest, hj⟩⟩

theorem Read.array {k : ℕ} (h : Read (.array k e) (.seq vs)) : ∀ v ∈ vs, Read e v := by
  obtain ⟨i, buf, h⟩ := h
  rw [toGoType] at h
  obtain ⟨w, -, h⟩ := bind_eq_ok.mp h
  obtain ⟨rest, -, h⟩ := bind_eq_ok.mp h
  obtain ⟨vs, ⟨⟩, -, hvs⟩ := forEachUnpack_mem h
  exact fun v hmem => (hvs v hmem).imp fun j hj => ⟨rest, hj⟩

theorem Read.tuple (h : Read (.tuple ts) (.seq vs)) : ∀ x ∈ ts.zip vs, Read x.1 x.2 := by
  obtain ⟨i, buf, h⟩ := h
  rw [toGoType] at h
  obtain ⟨w, -, h⟩ := bind_eq_ok.mp h
  obtain ⟨start, -, h⟩ := bind_eq_ok.mp h
  obtain ⟨rest, -, h⟩ := bind_eq_ok.mp h
  obtain ⟨_, -, h⟩ := bind_eq_ok.mp h
  obtain ⟨vs, hvs, h⟩ := bind_eq_ok.mp h
  cases h
  exact fun x hx => (unpackAll_mem hvs x hx).imp fun j hj => ⟨rest, hj⟩

theorem Read.readableAt (h : Read t v) : readableAt t v := by
  cases t with
  | int n =>
    obtain ⟨i, buf, h⟩ := h
    rw [toGoType] at h
    obtain ⟨w, hw, h⟩ := bind_eq_ok.mp h
    cases h
    simpa [Abi.readableAt] using (readInteger_range (readWord_ok hw).1 n).2
  | uint n =>
    obtain ⟨i, buf, h⟩ := h
    rw [toGoType] at h
    obtain ⟨w, hw, h⟩ := bind_eq_ok.mp h
    cases h
    simpa [Abi.readableAt] using (readInteger_range (readWord_ok hw).1 n).1
  | slice e =>
    obtain ⟨vs, rfl, hroom, -⟩ := h.slice
    exact decide_eq_true hroom
  | _ => rfl

theorem Read.along (h : Read t v) : along Abi.readableAt t v := by
  refine along_of (fun t v => Read.readableAt) ?_ Read.array Read.tuple h
  rintro e vs h
  obtain ⟨vs, ⟨⟩, -, hvs⟩ := h.slice
  exact hvs

end Fiscobcos.Abi
