import Noms.Types.NumberUtil
import Noms.Types.Path

/-!
# CSV schema inference and value conversion (`samples/go/csv`)

`GetSchema` reads up to `numSamples` records and keeps, per column, which kinds every sampled
field of that column fits (`typeCanFit`): a `Bool` while `strconv.ParseBool` accepts each field, a
`Number` while `strconv.ParseFloat` does and the value is not above `math.MaxFloat64`. It answers
the most specific kind left. `StringToValue` then converts each field with its column's kind, and
`readFieldsFromRow` fails the import on the first field that does not convert.

A column sees its own fields only (`getElem?_GetSchema`), and its kind says what every sampled
field passed (`boolType_columnTest`, `numberType_columnTest`). So a `Number` column converts, to
the value `ParseFloat` gives (`StringToValue_of_GetSchema_number`). The two acceptance sets of
`Bool` differ: `ParseBool` takes `t`, `T`, `TRUE`, `True` and their `false` spellings, which
`StringToValue` refuses (`GetSchema_bool_spelling`). And `ParseFloat` reads `NaN` and `-Inf`, which
`testNumbers` keeps: such a column is a `Number` column whose values the encoder cannot write
(`GetSchema_nan`).

`ParseFloat` is `special` (Go 1.8's: `[+-]inf`, `[+-]infinity`, `nan`, any case, as the whole
string) and then the number syntax, which is left open (`parseNumber`: the value of a literal,
`none` on a syntax or a range error). A record is its fields as bytes.
-/

namespace Noms.Csv

open Noms.Types

/-! ## The `strconv` parsers -/

/-- `strconv.ParseBool(str)`. -/
def parseBool (str : List UInt8) : Option Bool :=
  if str ∈ [ascii ['1'], ascii ['t'], ascii ['T'], ascii ['T', 'R', 'U', 'E'],
      ascii ['t', 'r', 'u', 'e'], ascii ['T', 'r', 'u', 'e']] then some true
  else if str ∈ [ascii ['0'], ascii ['f'], ascii ['F'], ascii ['F', 'A', 'L', 'S', 'E'],
      ascii ['f', 'a', 'l', 's', 'e'], ascii ['F', 'a', 'l', 's', 'e']] then some false
  else none

/-- The byte of `equalIgnoreCase`: `A-Z` as `a-z`. -/
def lowerByte (c : UInt8) : UInt8 := if 0x41 ≤ c ∧ c ≤ 0x5a then c + 0x20 else c

/-- `equalIgnoreCase(s1, s2)`. -/
def equalIgnoreCase (s1 s2 : List UInt8) : Bool := s1.map lowerByte == s2.map lowerByte

/-- `special(s)`: the special values of `ParseFloat`. -/
def special (s : List UInt8) : Option Float64 :=
  match s with
  | 0x2b :: _ =>
    if equalIgnoreCase s (ascii ['+', 'i', 'n', 'f']) ||
        equalIgnoreCase s (ascii ['+', 'i', 'n', 'f', 'i', 'n', 'i', 't', 'y']) then some .posInf
    else none
  | 0x2d :: _ =>
    if equalIgnoreCase s (ascii ['-', 'i', 'n', 'f']) ||
        equalIgnoreCase s (ascii ['-', 'i', 'n', 'f', 'i', 'n', 'i', 't', 'y']) then some .negInf
    else none
  | 0x6e :: _ | 0x4e :: _ =>
    if equalIgnoreCase s (ascii ['n', 'a', 'n']) then some .nan else none
  | 0x69 :: _ | 0x49 :: _ =>
    if equalIgnoreCase s (ascii ['i', 'n', 'f']) ||
        equalIgnoreCase s (ascii ['i', 'n', 'f', 'i', 'n', 'i', 't', 'y']) then some .posInf
    else none
  | _ => none

variable (parseNumber : List UInt8 → Option Float64)

/-- `strconv.ParseFloat(s, 64)`, `none` where it returns an error. -/
def parseFloat (s : List UInt8) : Option Float64 :=
  match special s with
  | some f => some f
  | none => parseNumber s

/-- `math.MaxFloat64`. -/
def MaxFloat64 : Float64 := .finite ((2 ^ 53 - 1) * 2 ^ 971)

/-! ## Schema inference (`schema.go`) -/

/-- A `typeCanFit`: the kinds a column still fits. -/
structure TypeCanFit where
  boolType : Bool
  numberType : Bool
  stringType : Bool
deriving DecidableEq

namespace TypeCanFit

/-- `tc.testNumbers(value)`. -/
def testNumbers (tc : TypeCanFit) (value : List UInt8) : TypeCanFit :=
  if !tc.numberType then tc
  else
    match parseFloat parseNumber value with
    | none => { tc with numberType := false }
    | some fval => if MaxFloat64.lt fval then { tc with numberType := false } else tc

/-- `tc.testBool(value)`. -/
def testBool (tc : TypeCanFit) (value : List UInt8) : TypeCanFit :=
  if !tc.boolType then tc else { tc with boolType := (parseBool value).isSome }

/-- `tc.Test(value)`. -/
def Test (tc : TypeCanFit) (value : List UInt8) : TypeCanFit :=
  (tc.testNumbers parseNumber value).testBool value

/-- `tc.MostSpecificKind()`. -/
def MostSpecificKind (tc : TypeCanFit) : NomsKind :=
  if tc.boolType then .BoolKind else if tc.numberType then .NumberKind else .StringKind

end TypeCanFit

/-- `newSchemaOptions(fieldCount)`. -/
def newSchemaOptions (fieldCount : Nat) : List TypeCanFit :=
  List.replicate fieldCount ⟨true, true, true⟩

/-- `so.Test(fields)`: each column tests its field, if the record has one. -/
def schemaOptionsTest (so : List TypeCanFit) (fields : List (List UInt8)) : List TypeCanFit :=
  so.mapIdx fun i t =>
    match fields[i]? with
    | some field => t.Test parseNumber field
    | none => t

/-- `GetSchema(r, numSamples, numFields)`, where `rows` are the records `r.Read()` returns before
`io.EOF`. -/
def GetSchema (rows : List (List (List UInt8))) (numSamples numFields : Nat) : List NomsKind :=
  ((rows.take numSamples).foldl (schemaOptionsTest parseNumber) (newSchemaOptions numFields)).map
    TypeCanFit.MostSpecificKind

/-! ## Conversion (`StringToValue`, `readFieldsFromRow`) -/

/-- The errors of `StringToValue`, with what their messages print. -/
inductive ConvError
  /-- `Could not parse '%s' into number (%s)`, with the error of `ParseFloat` -/
  | number (s : List UInt8)
  /-- `Could not parse '%s' into bool` -/
  | bool (s : List UInt8)
  /-- the panic `Invalid column type kind:` -/
  | invalidKind (k : NomsKind)
deriving DecidableEq

/-- `StringToValue(s, k)`. -/
def StringToValue {C : Type} (s : List UInt8) (k : NomsKind) : Except ConvError (Value C) :=
  match k with
  | .NumberKind =>
    if s = [] then .ok (.number (.finite 0))
    else
      match parseFloat parseNumber s with
      | some fval => .ok (.number fval)
      | none => .error (.number s)
  | .BoolKind =>
    if s ∈ [ascii ['t', 'r', 'u', 'e'], ascii ['1'], ascii ['y'], ascii ['Y']] then .ok (.bool true)
    else if s ∈ [ascii ['f', 'a', 'l', 's', 'e'], ascii ['0'], ascii ['n'], ascii ['N'], []] then
      .ok (.bool false)
    else .error (.bool s)
  | .StringKind => .ok (.string s)
  | k => .error (.invalidKind k)

/-- The loop of `readFieldsFromRow(row, headers, fieldOrder, kindMap)` from field `i` on, with
`len(headers)` given: `none` for the `d.Chk.Fail` on a field that does not convert (or an index
out of range). -/
def readFieldsFrom {C : Type} (headersLen : Nat) (fieldOrder : List Nat) (kindMap : List NomsKind) :
    Nat → List (List UInt8) → List (Option (Value C)) → Option (List (Option (Value C)))
  | _, [], fields => some fields
  | i, v :: row, fields =>
    if i < headersLen then
      match fieldOrder[i]? with
      | none => none
      | some fieldOrigIndex =>
        match kindMap[fieldOrigIndex]? with
        | none => none
        | some k =>
          match StringToValue parseNumber v k with
          | .error _ => none
          | .ok val =>
            if fieldOrigIndex < fields.length then
              readFieldsFrom headersLen fieldOrder kindMap (i + 1) row
                (fields.set fieldOrigIndex (some val))
            else none
    else readFieldsFrom headersLen fieldOrder kindMap (i + 1) row fields

/-- `readFieldsFromRow(row, headers, fieldOrder, kindMap)`. -/
def readFieldsFromRow {C : Type} (row headers : List (List UInt8)) (fieldOrder : List Nat)
    (kindMap : List NomsKind) : Option (List (Option (Value C))) :=
  readFieldsFrom parseNumber headers.length fieldOrder kindMap 0 row
    (List.replicate headers.length none)

/-! ## A column sees its own fields -/

/-- Column `i` of the options after the records `rows`: its fields tested in turn. -/
def columnTest (i : Nat) (tc : TypeCanFit) (rows : List (List (List UInt8))) : TypeCanFit :=
  rows.foldl (fun tc fields =>
    match fields[i]? with
    | some field => tc.Test parseNumber field
    | none => tc) tc

/-- A field `ParseFloat` reads to a value not above `math.MaxFloat64`. -/
def fitsNumber (value : List UInt8) : Bool :=
  match parseFloat parseNumber value with
  | some fval => !MaxFloat64.lt fval
  | none => false

theorem getElem?_foldl_schemaOptionsTest (i : Nat) :
    ∀ (rows : List (List (List UInt8))) (so : List TypeCanFit),
      (rows.foldl (schemaOptionsTest parseNumber) so)[i]? =
        so[i]?.map fun t => columnTest parseNumber i t rows
  | [], so => by
    rw [List.foldl_nil]
    cases so[i]? <;> rfl
  | fields :: rows, so => by
    rw [List.foldl_cons, getElem?_foldl_schemaOptionsTest i rows, schemaOptionsTest,
      List.getElem?_mapIdx]
    cases so[i]? <;> rfl

theorem length_GetSchema (rows : List (List (List UInt8))) (numSamples numFields : Nat) :
    (GetSchema parseNumber rows numSamples numFields).length = numFields := by
  have hlen : ∀ (rs : List (List (List UInt8))) (so : List TypeCanFit),
      (rs.foldl (schemaOptionsTest parseNumber) so).length = so.length := by
    intro rs
    induction rs with
    | nil => intro so; rfl
    | cons fields rs ih =>
      intro so
      rw [List.foldl_cons, ih, schemaOptionsTest, List.length_mapIdx]
  rw [GetSchema, List.length_map, hlen, newSchemaOptions, List.length_replicate]

/-- The kind of column `i` is that of its sampled fields alone. -/
theorem getElem?_GetSchema {rows : List (List (List UInt8))} {numSamples numFields i : Nat}
    (hi : i < numFields) :
    (GetSchema parseNumber rows numSamples numFields)[i]? =
      some (columnTest parseNumber i ⟨true, true, true⟩ (rows.take numSamples)).MostSpecificKind := by
  rw [GetSchema, List.getElem?_map, getElem?_foldl_schemaOptionsTest, newSchemaOptions,
    List.getElem?_replicate, if_pos hi]
  rfl

theorem boolType_testNumbers (t : TypeCanFit) (f : List UInt8) :
    (t.testNumbers parseNumber f).boolType = t.boolType := by
  unfold TypeCanFit.testNumbers
  split
  · rfl
  · split
    · rfl
    · split <;> rfl

theorem boolType_testBool (t : TypeCanFit) (f : List UInt8) :
    (t.testBool f).boolType = (t.boolType && (parseBool f).isSome) := by
  unfold TypeCanFit.testBool
  cases h : t.boolType <;> simp [h]

theorem numberType_testBool (t : TypeCanFit) (f : List UInt8) :
    (t.testBool f).numberType = t.numberType := by
  unfold TypeCanFit.testBool
  split <;> rfl

theorem numberType_testNumbers (t : TypeCanFit) (f : List UInt8) :
    (t.testNumbers parseNumber f).numberType = (t.numberType && fitsNumber parseNumber f) := by
  unfold TypeCanFit.testNumbers fitsNumber
  cases h : t.numberType with
  | false => simp [h]
  | true =>
    simp only [Bool.not_true, Bool.false_eq_true, if_false, Bool.true_and]
    cases parseFloat parseNumber f with
    | none => rfl
    | some fval =>
      dsimp only
      cases hlt : MaxFloat64.lt fval
      · rw [if_neg (by simp), h]
        rfl
      · rw [if_pos rfl]
        rfl

theorem boolType_Test (tc : TypeCanFit) (f : List UInt8) :
    (tc.Test parseNumber f).boolType = (tc.boolType && (parseBool f).isSome) := by
  rw [TypeCanFit.Test, boolType_testBool, boolType_testNumbers]

theorem numberType_Test (tc : TypeCanFit) (f : List UInt8) :
    (tc.Test parseNumber f).numberType = (tc.numberType && fitsNumber parseNumber f) := by
  rw [TypeCanFit.Test, numberType_testBool, numberType_testNumbers]

/-- A flag that each test keeps only while its field passes holds after the records exactly when
every field of the column passed. -/
theorem flag_columnTest (flag : TypeCanFit → Bool) (p : List UInt8 → Bool)
    (hstep : ∀ tc f, flag (tc.Test parseNumber f) = (flag tc && p f)) (i : Nat) :
    ∀ (rows : List (List (List UInt8))) (tc : TypeCanFit),
      flag (columnTest parseNumber i tc rows) = true ↔
        flag tc = true ∧ ∀ fields ∈ rows, ∀ f, fields[i]? = some f → p f = true
  | [], tc => by simp [columnTest]
  | fields :: rows, tc => by
    have ih := flag_columnTest flag p hstep i rows
    rw [columnTest, List.foldl_cons, ← columnTest]
    cases hf : fields[i]? with
    | none =>
      dsimp only
      rw [ih]
      simp only [List.mem_cons, forall_eq_or_imp, hf, reduceCtorEq, false_implies, implies_true,
        true_and]
    | some field =>
      dsimp only
      rw [ih, hstep, Bool.and_eq_true]
      simp only [List.mem_cons, forall_eq_or_imp, hf, Option.some.injEq, forall_eq', and_assoc]

theorem boolType_columnTest (i : Nat) (rows : List (List (List UInt8))) (tc : TypeCanFit) :
    (columnTest parseNumber i tc rows).boolType = true ↔
      tc.boolType = true ∧ ∀ fields ∈ rows, ∀ f, fields[i]? = some f → (parseBool f).isSome :=
  flag_columnTest parseNumber TypeCanFit.boolType (fun f => (parseBool f).isSome)
    (boolType_Test parseNumber) i rows tc

theorem numberType_columnTest (i : Nat) (rows : List (List (List UInt8))) (tc : TypeCanFit) :
    (columnTest parseNumber i tc rows).numberType = true ↔
      tc.numberType = true ∧ ∀ fields ∈ rows, ∀ f, fields[i]? = some f →
        fitsNumber parseNumber f = true :=
  flag_columnTest parseNumber TypeCanFit.numberType (fitsNumber parseNumber)
    (numberType_Test parseNumber) i rows tc

theorem MostSpecificKind_eq_bool {tc : TypeCanFit} :
    tc.MostSpecificKind = .BoolKind ↔ tc.boolType = true := by
  unfold TypeCanFit.MostSpecificKind
  cases tc.boolType <;> cases tc.numberType <;> simp

theorem MostSpecificKind_eq_number {tc : TypeCanFit} :
    tc.MostSpecificKind = .NumberKind ↔ tc.boolType = false ∧ tc.numberType = true := by
  unfold TypeCanFit.MostSpecificKind
  cases tc.boolType <;> cases tc.numberType <;> simp

/-! ## What a column's kind says of its fields -/

section Kinds

variable {rows : List (List (List UInt8))} {numSamples numFields i : Nat}

theorem lt_of_GetSchema {k : NomsKind}
    (h : (GetSchema parseNumber rows numSamples numFields)[i]? = some k) : i < numFields := by
  have hlt := (List.getElem?_eq_some_iff.mp h).1
  rwa [length_GetSchema] at hlt

/-- Every sampled field of a `Number` column converts. -/
theorem StringToValue_of_GetSchema_number {C : Type}
    (h : (GetSchema parseNumber rows numSamples numFields)[i]? = some .NumberKind)
    {fields : List (List UInt8)} {f : List UInt8} (hrow : fields ∈ rows.take numSamples)
    (hf : fields[i]? = some f) :
    ∃ x, (StringToValue parseNumber f .NumberKind : Except ConvError (Value C)) = .ok (.number x) := by
  have hi := lt_of_GetSchema parseNumber h
  rw [getElem?_GetSchema parseNumber hi, Option.some.injEq, MostSpecificKind_eq_number] at h
  obtain ⟨-, hall⟩ := (numberType_columnTest parseNumber i _ _).mp h.2
  have hfit := hall fields hrow f hf
  rw [StringToValue]
  by_cases hnil : f = []
  · exact ⟨_, if_pos hnil⟩
  · rw [if_neg hnil]
    -- `testNumbers` passed the field, so `ParseFloat` reads it
    unfold fitsNumber at hfit
    cases hp : parseFloat parseNumber f with
    | none => rw [hp] at hfit; cases hfit
    | some x => exact ⟨x, rfl⟩

/-- The spellings `ParseBool` takes and the `BoolKind` case of `StringToValue` refuses. -/
def boolOnlySpellings : List (List UInt8) :=
  [ascii ['t'], ascii ['T'], ascii ['T', 'R', 'U', 'E'], ascii ['T', 'r', 'u', 'e'], ascii ['f'],
    ascii ['F'], ascii ['F', 'A', 'L', 'S', 'E'], ascii ['F', 'a', 'l', 's', 'e']]

theorem boolOnlySpellings_spec : ∀ f ∈ boolOnlySpellings, (parseBool f).isSome = true ∧
    f ∉ [ascii ['t', 'r', 'u', 'e'], ascii ['1'], ascii ['y'], ascii ['Y']] ∧
    f ∉ [ascii ['f', 'a', 'l', 's', 'e'], ascii ['0'], ascii ['n'], ascii ['N'], []] := by
  decide +kernel

theorem StringToValue_bool_of_boolOnly {C : Type} {f : List UInt8} (h : f ∈ boolOnlySpellings) :
    (StringToValue parseNumber f .BoolKind : Except ConvError (Value C)) = .error (.bool f) := by
  obtain ⟨-, htrue, hfalse⟩ := boolOnlySpellings_spec f h
  rw [StringToValue, if_neg htrue, if_neg hfalse]

/-- A column of `ParseBool` spellings is a `Bool` column, and a field spelt `t`, `TRUE`, `F`, ...
does not convert. -/
theorem GetSchema_bool_spelling {C : Type} (hi : i < numFields)
    (hbool : ∀ fields ∈ rows.take numSamples, ∀ f, fields[i]? = some f → (parseBool f).isSome)
    {f : List UInt8} (hspell : f ∈ boolOnlySpellings) :
    (GetSchema parseNumber rows numSamples numFields)[i]? = some .BoolKind ∧
      (StringToValue parseNumber f .BoolKind : Except ConvError (Value C)) = .error (.bool f) := by
  refine ⟨?_, StringToValue_bool_of_boolOnly parseNumber hspell⟩
  rw [getElem?_GetSchema parseNumber hi, MostSpecificKind_eq_bool.mpr]
  exact (boolType_columnTest parseNumber i _ _).mpr ⟨rfl, hbool⟩

theorem fitsNumber_of_special {f : List UInt8} {x : Float64} (hs : special f = some x)
    (hx : x = .nan ∨ x = .negInf) : fitsNumber parseNumber f = true := by
  rw [fitsNumber, parseFloat, hs]
  rcases hx with rfl | rfl <;> rfl

/-- A column of numbers that is no `Bool` column and holds `NaN` or `-Inf` is a `Number` column
whose value the encoder cannot write: `float64ToIntExp` never ends on it. -/
theorem GetSchema_nan {C : Type} (hi : i < numFields)
    (hfit : ∀ fields ∈ rows.take numSamples, ∀ f, fields[i]? = some f →
      fitsNumber parseNumber f = true)
    (hnb : ∃ fields ∈ rows.take numSamples, ∃ f, fields[i]? = some f ∧ parseBool f = none)
    {f : List UInt8} {x : Float64} (hs : special f = some x) (hx : x = .nan ∨ x = .negInf) :
    (GetSchema parseNumber rows numSamples numFields)[i]? = some .NumberKind ∧
      (StringToValue parseNumber f .NumberKind : Except ConvError (Value C)) = .ok (.number x) ∧
      writeNumber x = none := by
  have hbool : (columnTest parseNumber i ⟨true, true, true⟩ (rows.take numSamples)).boolType =
      false := by
    obtain ⟨fields, hrow, f', hf', hnone⟩ := hnb
    cases hb : (columnTest parseNumber i ⟨true, true, true⟩ (rows.take numSamples)).boolType
    · rfl
    · obtain ⟨-, hall⟩ := (boolType_columnTest parseNumber i _ _).mp hb
      have hsome := hall fields hrow f' hf'
      rw [hnone] at hsome
      cases hsome
  have hnum := (numberType_columnTest parseNumber i (rows.take numSamples) ⟨true, true, true⟩).mpr
    ⟨rfl, hfit⟩
  have hne : f ≠ [] := by
    rintro rfl
    cases hs
  refine ⟨?_, ?_, ?_⟩
  · rw [getElem?_GetSchema parseNumber hi, MostSpecificKind_eq_number.mpr ⟨hbool, hnum⟩]
  · rw [StringToValue, if_neg hne, parseFloat, hs]
  · obtain ⟨hnan, -, hneg⟩ := writeNumber_nonfinite
    rcases hx with rfl | rfl
    · exact hnan
    · exact hneg

end Kinds

/-! ## Importing a record -/

/-- A record fails whatever it read so far once the rest of it fails. -/
theorem readFieldsFrom_cons_eq_none {C : Type} {headersLen : Nat} {fieldOrder : List Nat}
    {kindMap : List NomsKind} {i : Nat} {w : List UInt8} {row : List (List UInt8)}
    (h : ∀ fields : List (Option (Value C)),
      readFieldsFrom parseNumber headersLen fieldOrder kindMap (i + 1) row fields = none)
    (fields : List (Option (Value C))) :
    readFieldsFrom parseNumber headersLen fieldOrder kindMap i (w :: row) fields = none := by
  rw [readFieldsFrom]
  split
  · split
    · rfl
    · split
      · rfl
      · split
        · rfl
        · split
          · exact h _
          · rfl
  · exact h _

theorem readFieldsFrom_eq_none {C : Type} {headersLen : Nat} {fieldOrder : List Nat}
    {kindMap : List NomsKind} {v : List UInt8} {o : Nat} {k : NomsKind} {e : ConvError}
    (hk : kindMap[o]? = some k)
    (herr : (StringToValue parseNumber v k : Except ConvError (Value C)) = .error e) :
    ∀ (row : List (List UInt8)) (i d : Nat) (fields : List (Option (Value C))),
      row[d]? = some v → i + d < headersLen → fieldOrder[i + d]? = some o →
      readFieldsFrom parseNumber headersLen fieldOrder kindMap i row fields = none
  | [], _, _, _, hv, _, _ => by cases hv
  | w :: row, i, 0, fields, hv, hlen, hord => by
    -- the field that does not convert is the next one
    rw [List.getElem?_cons_zero, Option.some.injEq] at hv
    subst hv
    rw [Nat.add_zero] at hlen hord
    rw [readFieldsFrom, if_pos hlen, hord]
    simp only [hk, herr]
  | w :: row, i, d + 1, fields, hv, hlen, hord => by
    rw [List.getElem?_cons_succ] at hv
    have hshift : i + (d + 1) = i + 1 + d := by omega
    rw [hshift] at hlen hord
    exact readFieldsFrom_cons_eq_none parseNumber
      (fun _ => readFieldsFrom_eq_none hk herr row (i + 1) d _ hv hlen hord) fields

/-- A record with a field that does not convert fails the import. -/
theorem readFieldsFromRow_eq_none {C : Type} {row headers : List (List UInt8)}
    {fieldOrder : List Nat} {kindMap : List NomsKind} {i o : Nat} {v : List UInt8} {k : NomsKind}
    {e : ConvError} (hv : row[i]? = some v) (hi : i < headers.length)
    (hord : fieldOrder[i]? = some o) (hk : kindMap[o]? = some k)
    (herr : (StringToValue parseNumber v k : Except ConvError (Value C)) = .error e) :
    (readFieldsFromRow parseNumber row headers fieldOrder kindMap : Option (List (Option (Value C)))) =
      none :=
  readFieldsFrom_eq_none parseNumber hk herr row 0 i _ hv (by omega) (by rwa [Nat.zero_add])

/-! ## Inference against conversion -/

/-- Schema inference and value conversion disagree on two kinds of column. A column of
`ParseBool` spellings is a `Bool` column, yet the import of a record holding `t`, `TRUE`, `F`,
... in it fails. A column of numbers holding `NaN` or `-Inf` is a `Number` column whose value
the encoder cannot write. Every sampled field of a `Number` column does convert. -/
theorem GetSchema_disagrees_with_StringToValue {C : Type} :
    (∀ (rows : List (List (List UInt8))) (numSamples numFields i : Nat), i < numFields →
      (∀ fields ∈ rows.take numSamples, ∀ f, fields[i]? = some f → (parseBool f).isSome) →
      ∀ fields ∈ rows.take numSamples, ∀ f, fields[i]? = some f → f ∈ boolOnlySpellings →
        (GetSchema parseNumber rows numSamples numFields)[i]? = some .BoolKind ∧
        ∀ (headers : List (List UInt8)) (fieldOrder : List Nat) (kindMap : List NomsKind) (o : Nat),
          i < headers.length → fieldOrder[i]? = some o → kindMap[o]? = some .BoolKind →
          (readFieldsFromRow parseNumber fields headers fieldOrder kindMap :
            Option (List (Option (Value C)))) = none) ∧
    (∀ (rows : List (List (List UInt8))) (numSamples numFields i : Nat), i < numFields →
      (∀ fields ∈ rows.take numSamples, ∀ f, fields[i]? = some f →
        fitsNumber parseNumber f = true) →
      (∃ fields ∈ rows.take numSamples, ∃ f, fields[i]? = some f ∧ parseBool f = none) →
      ∀ (f : List UInt8) (x : Float64), special f = some x → (x = .nan ∨ x = .negInf) →
        (GetSchema parseNumber rows numSamples numFields)[i]? = some .NumberKind ∧
        (StringToValue parseNumber f .NumberKind : Except ConvError (Value C)) = .ok (.number x) ∧
        writeNumber x = none) ∧
    (∀ (rows : List (List (List UInt8))) (numSamples numFields i : Nat),
      (GetSchema parseNumber rows numSamples numFields)[i]? = some .NumberKind →
      ∀ fields ∈ rows.take numSamples, ∀ f, fields[i]? = some f →
        ∃ x, (StringToValue parseNumber f .NumberKind : Except ConvError (Value C)) =
          .ok (.number x)) := by
  refine ⟨?_, ?_, ?_⟩
  · intro rows numSamples numFields i hi hbool fields _ f hf hspell
    obtain ⟨hkind, herr⟩ := GetSchema_bool_spelling (C := C) parseNumber hi hbool hspell
    refine ⟨hkind, fun headers fieldOrder kindMap o hlen hord hk => ?_⟩
    exact readFieldsFromRow_eq_none parseNumber hf hlen hord hk herr
  · intro rows numSamples numFields i hi hfit hnb f x hs hx
    exact GetSchema_nan parseNumber hi hfit hnb hs hx
  · intro rows numSamples numFields i h fields hrow f hf
    exact StringToValue_of_GetSchema_number parseNumber h hrow hf

/-- The record `TRUE,NaN` sampled alone: its first column is a `Bool` column whose field fails the
import, its second a `Number` column holding `NaN`. -/
theorem GetSchema_disagrees_with_StringToValue_true_nan :
    let row := [ascii ['T', 'R', 'U', 'E'], ascii ['N', 'a', 'N']]
    (GetSchema (fun _ => none) [row] 1 2)[0]? = some .BoolKind ∧
      (readFieldsFromRow (fun _ => none) row [ascii ['a'], ascii ['b']] [0, 1]
        [.BoolKind, .NumberKind] : Option (List (Option (Value Unit)))) = none ∧
      (GetSchema (fun _ => none) [row] 1 2)[1]? = some .NumberKind ∧
      (StringToValue (fun _ => none) (ascii ['N', 'a', 'N']) .NumberKind :
        Except ConvError (Value Unit)) = .ok (.number .nan) ∧
      writeNumber .nan = none := by
  intro row
  obtain ⟨hbool, hnan, -⟩ := GetSchema_disagrees_with_StringToValue (fun _ => none) (C := Unit)
  have hrow : row ∈ [row].take 1 := List.mem_singleton_self row
  -- the only sampled record is `row` itself
  have hsampled : ∀ fields ∈ [row].take 1, fields = row := fun fields h => List.mem_singleton.mp h
  obtain ⟨hkind, himport⟩ := hbool [row] 1 2 0 (by decide)
    (fun fields h f hf => by
      rw [hsampled fields h] at hf
      rw [← Option.some.inj hf]
      decide +kernel)
    row hrow _ rfl (by decide +kernel)
  obtain ⟨hkind', hconv, hwrite⟩ := hnan [row] 1 2 1 (by decide)
    (fun fields h f hf => by
      rw [hsampled fields h] at hf
      rw [← Option.some.inj hf]
      decide +kernel)
    ⟨row, hrow, _, rfl, by decide +kernel⟩ (ascii ['N', 'a', 'N']) .nan (by decide +kernel)
    (.inl rfl)
  exact ⟨hkind, himport [ascii ['a'], ascii ['b']] [0, 1] _ 0 (by decide) rfl rfl, hkind', hconv,
    hwrite⟩

end Noms.Csv
