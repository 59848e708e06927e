import Fiscobcos.Lib.JsonTree
import Fiscobcos.Lib.Panics

/-! # Arguments and struct fields (accounts/abi/reflect.go, argument.go, bind/bind.go)

`mapArgNamesToStructFields` pairs arguments with the fields of a struct, first by tag and then by
name. Names are byte strings; the empty name stands for no entry of a map. -/

namespace Fiscobcos.Abi
open Function List Option

open Fiscobcos.Numerals Fiscobcos.Panics Fiscobcos.JsonTree

abbrev Name := Bytes

/-- `strings.ToUpper` of a string of one byte; a byte that is no character becomes U+FFFD. -/
def upperByte (b : Byte) : Name :=
  if 97 ≤ b.val ∧ b.val ≤ 122 then [lowByte (b.val - 32)]
  else if 128 ≤ b.val then [0xEF, 0xBF, 0xBD]
  else [b]

/-- The parts between underscores with their first bytes in upper case, joined; `start` is set at
the start of a part. -/
def camelFrom (start : Bool) : Name → Name
  | [] => []
  | b :: bs =>
    if b = 95 then camelFrom true bs
    else (if start then upperByte b else [b]) ++ camelFrom false bs

def toCamelCase (input : Name) : Name := camelFrom true input

structure StructField where
  name : Name
  tag : Option Name

def Identifier (n : Name) : Prop :=
  ∃ b ∈ n.head?, 65 ≤ b.val ∧ b.val ≤ 90 ∨ 97 ≤ b.val ∧ b.val ≤ 122 ∨ b = 95

def Exported (n : Name) : Prop := ∃ b ∈ n.head?, 65 ≤ b.val ∧ b.val ≤ 90

/-- Outcomes of `FieldByName`, which panics when it has to go through a nil embedded pointer. -/
inductive Lookup where
  | absent | found | nilEmbedded
deriving DecidableEq

/-- `promoted` are the fields of embedded structs. Only blank fields may have the same name. -/
structure StructType where
  fields : List StructField
  promoted : Name → Lookup
  ident : ∀ f ∈ fields, Identifier f.name
  promoted_ident : ∀ n, promoted n = .found → Identifier n
  distinct : ∀ f ∈ fields, ∀ g ∈ fields, f.name = g.name → f = g ∨ f.name = [95]

def StructType.fieldByName (S : StructType) (n : Name) : Lookup :=
  if ∃ f ∈ S.fields, f.name = n then .found else S.promoted n

inductive MapError where
  | emptyTag (field : Name)
  | alreadyMapped (field : Name)
  | tagNotFound (tag : Name)
  | underscored
  | multipleVariables (arg : Name)
  | multipleOutputs (field : Name)

def MapError.message : MapError → Bytes
  | .emptyTag field => ascii "struct: abi tag in '" ++ field ++ ascii "' is empty"
  | .alreadyMapped field => ascii "struct: abi tag in '" ++ field ++ ascii "' already mapped"
  | .tagNotFound tag => ascii "struct: abi tag '" ++ tag ++ ascii "' defined but not found in abi"
  | .underscored => ascii "abi: purely underscored output cannot unpack to struct"
  | .multipleVariables arg =>
    ascii "abi: multiple variables maps to the same abi field '" ++ arg ++ ascii "'"
  | .multipleOutputs field =>
    ascii "abi: multiple outputs mapping to the same struct field '" ++ field ++ ascii "'"

inductive ReflectPanic where
  | nilPointer | zeroValue | index | elemType | fatal

structure FieldMaps where
  abi2struct : Name → Name
  struct2abi : Name → Name

namespace FieldMaps

def empty : FieldMaps := ⟨fun _ => [], fun _ => []⟩

def pair (m : FieldMaps) (arg field : Name) : FieldMaps :=
  ⟨Function.update m.abi2struct arg field, Function.update m.struct2abi field arg⟩

def annotate (m : FieldMaps) (arg field : Name) : FieldMaps :=
  { m with struct2abi := Function.update m.struct2abi field arg }

end FieldMaps

def pairTag (field tag : Name) : List Name → FieldMaps → Bool → Except MapError (FieldMaps × Bool)
  | [], m, found => .ok (m, found)
  | arg :: args, m, found =>
    if arg = tag then
      if m.abi2struct arg ≠ [] then .error (.alreadyMapped field)
      else pairTag field tag args (m.pair arg field) true
    else pairTag field tag args m found

/-- The check for private fields, `name[:1] != strings.ToUpper(name[:1])`. -/
def startsLower : Name → Bool
  | [] => false
  | b :: _ => upperByte b ≠ [b]

def firstRound (args : List Name) : List StructField → FieldMaps → Except MapError FieldMaps
  | [], m => .ok m
  | f :: fs, m =>
    if startsLower f.name then firstRound args fs m
    else
      match f.tag with
      | none => firstRound args fs m
      | some [] => .error (.emptyTag f.name)
      | some tag =>
        match pairTag f.name tag args m false with
        | .error e => .error e
        | .ok (m, true) => firstRound args fs m
        | .ok (_, false) => .error (.tagNotFound tag)

def secondRound (S : StructType) : List Name → FieldMaps → Run ReflectPanic MapError FieldMaps
  | [], m => pure m
  | arg :: args, m =>
    let field := toCamelCase arg
    if field = [] then throw .underscored
    else if m.abi2struct arg ≠ [] then
      if m.abi2struct arg ≠ field ∧ m.struct2abi field = [] then
        match S.fieldByName field with
        | .found => throw (.multipleVariables arg)
        | .absent => secondRound S args m
        | .nilEmbedded => panics .nilPointer
      else secondRound S args m
    else if m.struct2abi field ≠ [] then throw (.multipleOutputs field)
    else
      match S.fieldByName field with
      | .found => secondRound S args (m.pair arg field)
      | .absent => secondRound S args (m.annotate arg field)
      | .nilEmbedded => panics .nilPointer

def mapArgNamesToStructFields (args : List Name) (S : StructType) :
    Run ReflectPanic MapError (Name → Name) :=
  match firstRound args S.fields .empty with
  | .error e => throw e
  | .ok m => do
    let m ← secondRound S args m
    pure m.abi2struct

def structuredLoop : List Name → List Name → Bool
  | [], _ => true
  | n :: ns, seen =>
    if n = [] then false
    else if toCamelCase n = [] ∨ toCamelCase n ∈ seen then false
    else structuredLoop ns (toCamelCase n :: seen)

def structured (args : List Name) : Bool := 2 ≤ args.length ∧ structuredLoop args []

theorem upperByte_head : ∀ b : Byte, b ≠ 95 →
    (upperByte b).head?.all (fun c => ¬ (97 ≤ c.val ∧ c.val ≤ 122) ∧ c ≠ 95) = true := by
  decide +kernel

theorem upperByte_eq_iff : ∀ b : Byte, 65 ≤ b.val ∧ b.val ≤ 90 ∨ 97 ≤ b.val ∧ b.val ≤ 122 ∨ b = 95 →
      (upperByte b = [b] ↔ 65 ≤ b.val ∧ b.val ≤ 90 ∨ b = 95) := by decide +kernel

theorem upperByte_ne_nil (b : Byte) : upperByte b ≠ [] := by
  unfold upperByte
  split_ifs <;> simp

theorem camelFrom_head (n : Name) {b : Byte} (h : b ∈ (camelFrom true n).head?) :
    ¬ (97 ≤ b.val ∧ b.val ≤ 122) ∧ b ≠ 95 := by
  induction n with
  | nil => cases h
  | cons c cs ih =>
    rw [camelFrom] at h
    by_cases hc : c = 95
    · rw [if_pos hc] at h
      exact ih h
    · rw [if_neg hc, if_pos rfl, head?_append_of_ne_nil _ (upperByte_ne_nil c)] at h
      exact of_decide_eq_true ((all_eq_true _ _).mp (upperByte_head c hc) b h)

theorem exported_camel {arg : Name} (h : Identifier (toCamelCase arg)) :
    Exported (toCamelCase arg) := by
  obtain ⟨b, hb, hident⟩ := h
  obtain ⟨hlow, hunder⟩ := camelFrom_head arg hb
  exact ⟨b, hb, by tauto⟩

theorem startsLower_eq_false {n : Name} (h : Identifier n) :
    startsLower n = false ↔ Exported n ∨ n.head? = some 95 := by
  obtain ⟨b, hb, hident⟩ := h
  cases n with
  | nil => cases hb
  | cons c cs =>
    obtain rfl : c = b := some.inj hb
    have hup := upperByte_eq_iff c hident
    simp only [startsLower, Exported, ne_eq, decide_eq_false_iff_not, not_not, hup,
      head?_cons, mem_some_iff, exists_eq_left', some.injEq]

theorem Identifier.ne_nil {n : Name} (h : Identifier n) : n ≠ [] := by
  rintro rfl
  obtain ⟨b, hb, -⟩ := h
  cases hb

theorem pairTag_ok {field tag : Name} (hfield : field ≠ []) {args : List Name} {m m' : FieldMaps}
    {found b : Bool} (h : pairTag field tag args m found = .ok (m', b)) :
    tag ∉ args ∧ m' = m ∧ b = found ∨ tag ∈ args ∧ m.abi2struct tag = [] ∧ m' = m.pair tag field := by
  induction args generalizing m found with
  | nil =>
    cases h
    exact .inl ⟨not_mem_nil, rfl, rfl⟩
  | cons arg args ih =>
    rw [pairTag] at h
    split_ifs at h with harg hnew
    · subst harg
      rcases ih h with ⟨-, rfl, -⟩ | ⟨-, htwice, -⟩
      · exact .inr ⟨mem_cons_self, not_not.mp hnew, rfl⟩
      · exact absurd htwice (by simpa [FieldMaps.pair] using hfield)
    · rcases ih h with ⟨hnot, hm, hb⟩ | ⟨hmem, hrest⟩
      · exact .inl ⟨by simp [Ne.symm harg, hnot], hm, hb⟩
      · exact .inr ⟨mem_cons_of_mem _ hmem, hrest⟩

structure Tagged (args : List Name) (fs : List StructField) (m : FieldMaps) : Prop where
  from_tag : ∀ a, m.abi2struct a ≠ [] → ∃ f ∈ fs, f.tag = some a ∧ startsLower f.name = false ∧
    m.abi2struct a = f.name
  to_tag : ∀ f ∈ fs, startsLower f.name = false → ∀ t, f.tag = some t →
    t ∈ args ∧ m.abi2struct t = f.name ∧ f.name ≠ []
  used : ∀ a, m.abi2struct a ≠ [] → m.struct2abi (m.abi2struct a) ≠ []

section Rounds

variable {args : List Name} {fs done : List StructField} {m m' : FieldMaps} {f : StructField}

theorem Tagged.skip (h : Tagged args done m) (hf : startsLower f.name = true ∨ f.tag = none) :
    Tagged args (done ++ [f]) m := by
  refine ⟨fun a ha => ?_, fun g hg hlow t ht => ?_, h.used⟩
  · obtain ⟨g, hg, hrest⟩ := h.from_tag a ha
    exact ⟨g, mem_append_left _ hg, hrest⟩
  · rcases mem_append.mp hg with hg | hg
    · exact h.to_tag g hg hlow t ht
    · obtain rfl := mem_singleton.mp hg
      rcases hf with hf | hf
      · rw [hf] at hlow
        cases hlow
      · rw [hf] at ht
        cases ht

theorem Tagged.pair (h : Tagged args done m) (hname : f.name ≠ [])
    (hlow : startsLower f.name = false) {tag : Name} (htag : f.tag = some tag) (hne : tag ≠ [])
    (hmem : tag ∈ args) (hnew : m.abi2struct tag = []) :
    Tagged args (done ++ [f]) (m.pair tag f.name) := by
  refine ⟨fun a ha => ?_, fun g hg hg' t ht => ?_, fun a ha => ?_⟩
  · by_cases hat : a = tag
    · subst hat
      exact ⟨f, by simp, htag, hlow, by simp [FieldMaps.pair]⟩
    · simp only [FieldMaps.pair, update_of_ne hat] at ha ⊢
      obtain ⟨g, hg, hrest⟩ := h.from_tag a ha
      exact ⟨g, mem_append_left _ hg, hrest⟩
  · rcases mem_append.mp hg with hg | hg
    · obtain ⟨hin, hmap, hgne⟩ := h.to_tag g hg hg' t ht
      have htt : t ≠ tag := by
        rintro rfl
        exact hgne (hmap.symm.trans hnew)
      exact ⟨hin, by simpa [FieldMaps.pair, htt] using hmap, hgne⟩
    · obtain rfl := mem_singleton.mp hg
      obtain rfl : tag = t := some.inj (htag.symm.trans ht)
      exact ⟨hmem, by simp [FieldMaps.pair], hname⟩
  · by_cases hat : a = tag
    · subst hat
      simpa [FieldMaps.pair] using hne
    · simp only [FieldMaps.pair, update_of_ne hat] at ha ⊢
      by_cases heq : m.abi2struct a = f.name
      · simpa [heq] using hne
      · rw [update_of_ne heq]
        exact h.used a ha

theorem firstRound_tagged (h : firstRound args fs m = .ok m') (hdone : Tagged args done m)
    (hfs : ∀ f ∈ fs, f.name ≠ []) : Tagged args (done ++ fs) m' := by
  induction fs generalizing done m with
  | nil =>
    cases h
    simpa using hdone
  | cons f fs ih =>
    obtain ⟨hf, hfs⟩ := forall_mem_cons.mp hfs
    rw [show done ++ f :: fs = done ++ [f] ++ fs by simp]
    rw [firstRound] at h
    split_ifs at h with hlow
    · exact ih h (hdone.skip (.inl hlow)) hfs
    · split at h
      · rename_i htag
        exact ih h (hdone.skip (.inr htag)) hfs
      · cases h
      · rename_i tag hne htag
        split at h
        · cases h
        · rename_i m₁ hpair
          rcases pairTag_ok hf hpair with ⟨-, -, hb⟩ | ⟨hmem, hnew, rfl⟩
          · cases hb
          · exact ih h (hdone.pair hf (by simpa using hlow) htag hne hmem hnew) hfs
        · cases h

variable {S : StructType}

structure Mapped (S : StructType) (m₀ m : FieldMaps) : Prop where
  keeps : ∀ a, m₀.abi2struct a ≠ [] → m.abi2struct a = m₀.abi2struct a
  named : ∀ a, m.abi2struct a ≠ [] → m₀.abi2struct a = [] →
    m.abi2struct a = toCamelCase a ∧ S.fieldByName (toCamelCase a) = .found
  used : ∀ a, m.abi2struct a ≠ [] → m.struct2abi (m.abi2struct a) ≠ []
  inj : (∀ a b, m₀.abi2struct a ≠ [] → m₀.abi2struct a = m₀.abi2struct b → a = b) →
    ∀ a b, m.abi2struct a ≠ [] → m.abi2struct a = m.abi2struct b → a = b

theorem Mapped.pair {m₀ : FieldMaps} (h : Mapped S m₀ m) {arg : Name} (hne : arg ≠ [])
    (hnew : m.abi2struct arg = []) (hfree : m.struct2abi (toCamelCase arg) = [])
    (hfound : S.fieldByName (toCamelCase arg) = .found) :
    Mapped S m₀ (m.pair arg (toCamelCase arg)) := by
  have hold : ∀ a, a ≠ arg → (m.pair arg (toCamelCase arg)).abi2struct a = m.abi2struct a :=
    fun a ha => update_of_ne ha _ _
  have harg : (m.pair arg (toCamelCase arg)).abi2struct arg = toCamelCase arg :=
    update_self _ _ _
  have hapart : ∀ a, m.abi2struct a ≠ [] → m.abi2struct a ≠ toCamelCase arg := by
    intro a ha heq
    exact h.used a ha (by rw [heq, hfree])
  refine ⟨fun a ha => ?_, fun a ha h₀ => ?_, fun a ha => ?_, fun h₀ a b ha hab => ?_⟩
  · have haa : a ≠ arg := by
      rintro rfl
      exact ha ((h.keeps a ha).symm.trans hnew)
    rw [hold a haa, h.keeps a ha]
  · by_cases haa : a = arg
    · subst haa
      exact ⟨harg, hfound⟩
    · rw [hold a haa] at ha ⊢
      exact h.named a ha h₀
  · by_cases haa : a = arg
    · subst haa
      rw [harg]
      simpa [FieldMaps.pair] using hne
    · rw [hold a haa] at ha ⊢
      simpa [FieldMaps.pair, hapart a ha] using h.used a ha
  · by_cases haa : a = arg <;> by_cases hbb : b = arg
    · rw [haa, hbb]
    · subst haa
      rw [harg, hold b hbb] at hab
      exact absurd hab.symm (hapart b (by rw [← hab, ← harg]; exact ha))
    · subst hbb
      rw [hold a haa] at ha hab
      exact absurd (hab.trans harg) (hapart a ha)
    · rw [hold a haa] at ha hab
      exact h.inj h₀ a b ha (by rw [hab, hold b hbb])

theorem Mapped.annotate {m₀ : FieldMaps} (h : Mapped S m₀ m) {arg field : Name} (hne : arg ≠ []) :
    Mapped S m₀ (m.annotate arg field) := by
  refine ⟨h.keeps, h.named, fun a ha => ?_, h.inj⟩
  show update m.struct2abi field arg (m.abi2struct a) ≠ []
  by_cases heq : m.abi2struct a = field
  · rwa [heq, update_self]
  · rw [update_of_ne heq]
    exact h.used a ha

theorem ne_nil_of_camel {arg : Name} (h : toCamelCase arg ≠ []) : arg ≠ [] := by
  rintro rfl
  exact h rfl

theorem secondRound_mapped {m₀ : FieldMaps} (h : Returns (secondRound S args m) m')
    (hm : Mapped S m₀ m) : Mapped S m₀ m' := by
  induction args generalizing m with
  | nil =>
    obtain rfl := returns_pure.mp h
    exact hm
  | cons arg args ih =>
    rw [secondRound] at h
    split_ifs at h with hcamel hold hmore hfree
    · exact absurd h not_returns_throw
    · split at h
      · exact absurd h not_returns_throw
      · exact ih h hm
      · exact absurd h not_returns_panics
    · exact ih h hm
    · exact absurd h not_returns_throw
    · have hne := ne_nil_of_camel hcamel
      split at h
      · rename_i hfound
        exact ih h (hm.pair hne (not_not.mp hold) (not_not.mp hfree) hfound)
      · exact ih h (hm.annotate hne)
      · exact absurd h not_returns_panics

end Rounds

structure Faithful (args : List Name) (S : StructType) (map : Name → Name) : Prop where
  distinct : ∀ a ∈ args, ∀ b ∈ args, map a ≠ [] → map a = map b → a = b
  exported : ∀ a ∈ args, map a ≠ [] → Exported (map a) ∧ S.fieldByName (map a) = .found
  tagged : ∀ f ∈ S.fields, Exported f.name → ∀ t, f.tag = some t → t ∈ args ∧ map t = f.name

theorem StructType.fieldByName_field (S : StructType) {f : StructField} (hf : f ∈ S.fields) :
    S.fieldByName f.name = .found := if_pos ⟨f, hf, rfl⟩

theorem StructType.fieldByName_ident (S : StructType) {n : Name} (h : S.fieldByName n = .found) :
    Identifier n := by
  unfold fieldByName at h
  split_ifs at h with hfield
  · obtain ⟨f, hf, rfl⟩ := hfield
    exact S.ident f hf
  · exact S.promoted_ident n h

theorem mapArgNames_inv {args : List Name} {S : StructType} {map : Name → Name}
    (h : Returns (mapArgNamesToStructFields args S) map) :
    ∃ m₀ m, Tagged args S.fields m₀ ∧ Mapped S m₀ m ∧ map = m.abi2struct := by
  unfold mapArgNamesToStructFields at h
  split at h
  · exact absurd h not_returns_throw
  · rename_i m₀ hfirst
    obtain ⟨m, hm, hpure⟩ := returns_bind.mp h
    have htag := @firstRound_tagged _ _ [] _ _ hfirst
      ⟨fun a ha => absurd rfl ha, (fun f hf => by cases hf), fun a ha => absurd rfl ha⟩
      fun f hf => (S.ident f hf).ne_nil
    exact ⟨m₀, m, htag, secondRound_mapped hm ⟨fun _ _ => rfl, fun a ha h₀ => absurd h₀ ha, htag.used,
      fun h => h⟩, (returns_pure.mp hpure).symm⟩

theorem faithful_iff {args : List Name} {S : StructType} {map : Name → Name}
    (h : Returns (mapArgNamesToStructFields args S) map) :
    Faithful args S map ↔ ∀ f ∈ S.fields, f.tag ≠ none → f.name.head? ≠ some 95 := by
  obtain ⟨m₀, m, htag, hmap, rfl⟩ := mapArgNames_inv h
  have hto : ∀ f ∈ S.fields, startsLower f.name = false → ∀ t, f.tag = some t →
      t ∈ args ∧ m.abi2struct t = f.name ∧ f.name ≠ [] := by
    intro f hf hlow t ht
    obtain ⟨hmem, heq, hne⟩ := htag.to_tag f hf hlow t ht
    exact ⟨hmem, by rw [hmap.keeps t (heq ▸ hne), heq], hne⟩
  constructor
  · intro hfaith f hf hsome hhead
    obtain ⟨t, ht⟩ := ne_none_iff_exists'.mp hsome
    obtain ⟨hmem, heq, hne⟩ := hto f hf ((startsLower_eq_false (S.ident f hf)).mpr (.inr hhead)) t ht
    obtain ⟨⟨b, hb, hup⟩, -⟩ := hfaith.exported t hmem (heq ▸ hne)
    rw [heq, hhead] at hb
    obtain rfl : (95 : Byte) = b := some.inj hb
    exact absurd hup (by decide)
  · intro hunder
    -- a pair of the first round comes from an exported field
    have hfrom : ∀ a, m₀.abi2struct a ≠ [] → ∃ f ∈ S.fields, f.tag = some a ∧
        m₀.abi2struct a = f.name ∧ f.name ≠ [95] ∧ Exported f.name := by
      intro a ha
      obtain ⟨f, hf, hta, hlow, heq⟩ := htag.from_tag a ha
      have hnot := hunder f hf (by simp [hta])
      refine ⟨f, hf, hta, heq, fun h95 => hnot (by rw [h95]; rfl), ?_⟩
      exact ((startsLower_eq_false (S.ident f hf)).mp hlow).resolve_right hnot
    have hinj : ∀ a b, m₀.abi2struct a ≠ [] → m₀.abi2struct a = m₀.abi2struct b → a = b := by
      intro a b ha hab
      obtain ⟨f, hf, hta, hfa, hne, -⟩ := hfrom a ha
      obtain ⟨g, hg, htb, hgb, -⟩ := hfrom b (hab ▸ ha)
      rcases S.distinct f hf g hg (by rw [← hfa, ← hgb, hab]) with rfl | hblank
      · exact some.inj (hta.symm.trans htb)
      · exact absurd hblank hne
    refine ⟨fun a _ b _ ha hab => hmap.inj hinj a b ha hab, fun a _ ha => ?_, fun f hf hexp t ht => ?_⟩
    · by_cases h₀ : m₀.abi2struct a = []
      · obtain ⟨heq, hfound⟩ := hmap.named a ha h₀
        rw [heq]
        exact ⟨exported_camel (S.fieldByName_ident hfound), hfound⟩
      · obtain ⟨f, hf, -, heq, -, hexp⟩ := hfrom a h₀
        rw [hmap.keeps a h₀, heq]
        exact ⟨hexp, S.fieldByName_field hf⟩
    · obtain ⟨hmem, heq, -⟩ := hto f hf ((startsLower_eq_false (S.ident f hf)).mpr (.inl hexp)) t ht
      exact ⟨hmem, heq⟩

theorem structuredLoop_fresh {args seen : List Name} (h : structuredLoop args seen = true) :
    (∀ n ∈ args, toCamelCase n ≠ [] ∧ toCamelCase n ∉ seen) ∧ (args.map toCamelCase).Nodup := by
  induction args generalizing seen with
  | nil => simp
  | cons n ns ih =>
    rw [structuredLoop] at h
    split_ifs at h with hnil hbad
    obtain ⟨hall, hnodup⟩ := ih h
    rw [not_or] at hbad
    refine ⟨forall_mem_cons.mpr ⟨hbad, fun k hk => ⟨(hall k hk).1, ?_⟩⟩, ?_⟩
    · exact fun hmem => (hall k hk).2 (mem_cons_of_mem _ hmem)
    · refine nodup_cons.mpr ⟨fun hmem => ?_, hnodup⟩
      obtain ⟨k, hk, heq⟩ := mem_map.mp hmem
      exact (hall k hk).2 (by rw [heq]; exact mem_cons_self)

theorem firstRound_untagged (args : List Name) {fs : List StructField} (h : ∀ f ∈ fs, f.tag = none)
    (m : FieldMaps) : firstRound args fs m = .ok m := by
  induction fs with
  | nil => rfl
  | cons f fs ih =>
    obtain ⟨hf, hfs⟩ := forall_mem_cons.mp h
    rw [firstRound, hf, ih hfs]
    simp

theorem secondRound_named {S : StructType} {args : List Name} {m : FieldMaps}
    (hall : ∀ n ∈ args, toCamelCase n ≠ [] ∧ S.fieldByName (toCamelCase n) = .found ∧
      m.abi2struct n = [] ∧ m.struct2abi (toCamelCase n) = [])
    (hnodup : (args.map toCamelCase).Nodup) :
    ∃ m', Returns (secondRound S args m) m' ∧ (∀ n ∈ args, m'.abi2struct n = toCamelCase n) ∧
      ∀ n, m.abi2struct n ≠ [] → m'.abi2struct n = m.abi2struct n := by
  induction args generalizing m with
  | nil => exact ⟨m, returns_pure.mpr rfl, by simp, fun _ _ => rfl⟩
  | cons arg args ih =>
    obtain ⟨⟨hcamel, hfound, hnew, hfree⟩, hall⟩ := forall_mem_cons.mp hall
    obtain ⟨hnot, hnodup⟩ := nodup_cons.mp hnodup
    have hne : ∀ n ∈ args, toCamelCase n ≠ toCamelCase arg :=
      fun n hn heq => hnot (mem_map.mpr ⟨n, hn, heq⟩)
    obtain ⟨m', hm', hnames, hkeep⟩ := @ih (m.pair arg (toCamelCase arg)) (fun n hn => by
      obtain ⟨h1, h2, h3, h4⟩ := hall n hn
      have hna : n ≠ arg := fun heq => hne n hn (congrArg _ heq)
      simp [FieldMaps.pair, hna, hne n hn, h1, h2, h3, h4]) hnodup
    have harg : m'.abi2struct arg = toCamelCase arg := by
      have := hkeep arg (by simpa [FieldMaps.pair] using hcamel)
      simpa [FieldMaps.pair] using this
    refine ⟨m', ?_, forall_mem_cons.mpr ⟨harg, hnames⟩, fun n hn => ?_⟩
    · rw [secondRound]
      simpa [hcamel, hnew, hfree, hfound] using hm'
    · have hna : n ≠ arg := fun heq => hn (heq ▸ hnew)
      have := hkeep n (by simpa [FieldMaps.pair, hna] using hn)
      simpa [FieldMaps.pair, hna] using this

/-- A mapping is faithful unless a field that starts with an underscore is tagged; and the struct
that is generated for named outputs has a field for each of them. -/
theorem fields_mapped_faithfully_iff (args : List Name) (S : StructType) :
    (∀ map, Returns (mapArgNamesToStructFields args S) map →
      (Faithful args S map ↔ ∀ f ∈ S.fields, f.tag ≠ none → f.name.head? ≠ some 95)) ∧
    (structured args = true → S.fields = args.map (fun n => ⟨toCamelCase n, none⟩) →
      ∃ map, Returns (mapArgNamesToStructFields args S) map ∧ ∀ n ∈ args, map n = toCamelCase n) := by
  refine ⟨fun map h => faithful_iff h, fun hs hfields => ?_⟩
  have hloop : structuredLoop args [] = true := (of_decide_eq_true hs).2
  obtain ⟨hall, hnodup⟩ := structuredLoop_fresh hloop
  have hfound : ∀ n ∈ args, S.fieldByName (toCamelCase n) = .found := fun n hn =>
    S.fieldByName_field (f := ⟨toCamelCase n, none⟩) (by rw [hfields]; exact mem_map_of_mem hn)
  obtain ⟨m, hm, hnames, -⟩ := @secondRound_named S args .empty
    (fun n hn => ⟨(hall n hn).1, hfound n hn, rfl, rfl⟩) hnodup
  refine ⟨m.abi2struct, ?_, hnames⟩
  unfold mapArgNamesToStructFields
  rw [firstRound_untagged args (by rw [hfields]; simp)]
  exact returns_bind.mpr ⟨m, hm, returns_pure.mpr rfl⟩

def blankFields : StructType where
  fields := [⟨[95], some [97]⟩, ⟨[95], some [98]⟩]
  promoted := fun _ => .absent
  ident := by simp [Identifier]
  promoted_ident := by simp
  distinct := by simp

/-- Both arguments are mapped to the blank field. -/
theorem blank_fields_share_a_field :
    ∃ map, Returns (mapArgNamesToStructFields [[97], [98]] blankFields) map ∧
      map [97] = [95] ∧ map [98] = [95] ∧ ¬ Faithful [[97], [98]] blankFields map := by
  have hfirst : firstRound [[97], [98]] blankFields.fields .empty =
      .ok ((FieldMaps.empty.pair [97] [95]).pair [98] [95]) := by
    simp [firstRound, blankFields, pairTag, startsLower, upperByte, FieldMaps.empty, FieldMaps.pair]
  have hsecond : secondRound blankFields [[97], [98]]
      ((FieldMaps.empty.pair [97] [95]).pair [98] [95]) =
      pure ((FieldMaps.empty.pair [97] [95]).pair [98] [95]) := by
    have h₁ : toCamelCase [97] = [65] := by decide
    have h₂ : toCamelCase [98] = [66] := by decide
    simp [secondRound, h₁, h₂, FieldMaps.pair, FieldMaps.empty, StructType.fieldByName, blankFields]
  refine ⟨((FieldMaps.empty.pair [97] [95]).pair [98] [95]).abi2struct, ?_, by decide, by decide,
    fun h => ?_⟩
  · unfold mapArgNamesToStructFields
    rw [hfirst]
    exact returns_bind.mpr ⟨_, hsecond, returns_pure.mpr rfl⟩
  · have := h.distinct [97] (by decide) [98] (by decide) (by decide) (by decide)
    cases this

end Fiscobcos.Abi
