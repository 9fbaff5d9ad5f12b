import Noms.Types.NumberUtil
import Noms.Types.ValueOrder
import Noms.Lib.BigEndian

/-!
# The op cache's key order on bytes (`opcache_compare.go`, `encodeKeys` in `opcache.go`)

The op cache keeps its operations in a leveldb under byte keys. `encodeKeys` writes a key as
the collection id, the op's kind, the number of keys and the keys. A key ordered by value
(`Bool`, `Number`, `String`) is its kind, the length of its encoding and the encoding, and any
other key is its kind and hash. `opCacheComparer.Compare` orders these bytes for leveldb. It
compares the collection ids, skips the op's kind, and compares the keys one by one
(`compareEncodedKey`). When one list is a prefix of the other, the shorter comes first.

What it should compute is `keysCompare`: the key lists compared lexicographically under
`Value.Less`. It does, on every list of keys it reads back (`opCacheCompare_encodeKeys`).
A key of each kind must fit its length field, and keys of different kinds must not share a hash.
Numbers are the exception: the comparator decodes them with `readNumber`, which reads every
number whose lowest mantissa bit lies below `2^-1023` as `0`. So any two such numbers compare
equal, though `Less` orders them (`opCacheCompare_underflow`), and leveldb keeps one entry for
both.

A Go slice expression out of range panics; here it is `none`, as is each `d.Panic`. Inputs
that `encodeKeys` never writes are not modelled further: `readNumber` rejects a bad varint
where Go's `binary.Varint` reports it, and `bs[:n]` within a slice's capacity but past its
length is a panic here.
-/

namespace Noms.Types

open Noms.Lib

variable {C : Type} (hashOf : Value C → Hash)

/-- `uint32Size`. -/
def uint32Size : Nat := 4

/-- `uint8(kind)`. -/
def kindByte (k : NomsKind) : UInt8 := UInt8.ofNat k.toNat

/-- `isKindOrderedByValue(NomsKind(b))` on a key's kind byte. -/
def byteOrderedByValue (b : UInt8) : Bool := decide (b.toNat ≤ NomsKind.StringKind.toNat)

/-! ## Writing keys (`opcache.go`) -/

/-- `encToSlice(v)` of a value ordered by value: `appendType` writes the kind byte, then the
value. A number is `none` where `writeNumber` never returns (NaN and the infinities, on which
`writeValue` panics first). The encoding of a collection is not modelled: `encodeGraphKey`
writes a hashed key by its hash. -/
def encToSlice : Value C → Option (List UInt8)
  | .bool b => some (kindByte .BoolKind :: binaryNomsWriter.bytes (.writeBool b))
  | .number x => (writeNumber x).map (kindByte .NumberKind :: ·)
  | .string s => some (kindByte .StringKind :: binaryNomsWriter.bytes (.writeString s))
  | .hashed _ _ => none

/-- `encodeGraphKey(bs, v)`, `encodeForGraph` with `asValue = false`. -/
def encodeGraphKey (v : Value C) : Option (List UInt8) :=
  if isKindOrderedByValue v.kind then
    (encToSlice v).map fun enc => kindByte v.kind :: uint32Bytes (enc.length % 2 ^ 32) ++ enc
  else some (kindByte v.kind :: (hashOf v).bytes)

/-- The ldb key `encodeKeys(bs, colId, opKind, keys)` writes; `byte(len(keys))` wraps. -/
def encodeKeys (colId : Nat) (opKind : NomsKind) (keys : List (Value C)) :
    Option (List UInt8) :=
  (keys.mapM (encodeGraphKey hashOf)).map fun encs =>
    uint32Bytes colId ++ [kindByte opKind, UInt8.ofNat keys.length] ++ encs.flatten

/-! ## Comparing them (`opcache_compare.go`) -/

/-- `compareEmpties(a, b)`: `some res` when a side is empty, `none` (Go's `false`) when
neither is. -/
def compareEmpties : List UInt8 → List UInt8 → Option Ordering
  | [], [] => some .eq
  | [], _ :: _ => some .lt
  | _ :: _, [] => some .gt
  | _ :: _, _ :: _ => none

/-- `compareKinds(aKind, bKind)`. -/
def compareKinds (aKind bKind : UInt8) : Ordering :=
  if aKind < bKind then .lt else if aKind > bKind then .gt else .eq

/-- `compareEncodedNomsValues(a, b)`: two encodings, kind byte first. -/
def compareEncodedNomsValues (a b : List UInt8) : Option Ordering :=
  match compareEmpties a b with
  | some res => some res
  | none => do
    let aKind ← a[0]?
    let bKind ← b[0]?
    if aKind ≠ bKind then none
    else if aKind = kindByte .BoolKind then some (bytesCompare a b)
    else if aKind = kindByte .NumberKind then do
      let (aNum, _) ← readNumber (a.drop 1)
      let (bNum, _) ← readNumber (b.drop 1)
      if aNum.eq bNum then some .eq else if aNum.lt bNum then some .lt else some .gt
    else if aKind = kindByte .StringKind then
      if a.length < 1 + uint32Size ∨ b.length < 1 + uint32Size then none
      else some (bytesCompare (a.drop (1 + uint32Size)) (b.drop (1 + uint32Size)))
    -- "unreachable"
    else none

/-- `compareEncodedKey(a, b)`: one encoded key on each side. -/
def compareEncodedKey (a b : List UInt8) : Option Ordering := do
  let aKind ← a[0]?
  let bKind ← b[0]?
  if !byteOrderedByValue aKind && !byteOrderedByValue bKind then
    if (a.drop 1).length ≠ 20 ∨ (b.drop 1).length ≠ 20 then none
    else
      let res := bytesCompare (a.drop 1) (b.drop 1)
      -- "Values of different kinds with the same hash"
      if res = .eq ∧ aKind ≠ bKind then none else some res
  else
    let res := compareKinds aKind bKind
    if res ≠ .eq then some res
    else if a.length < 1 + uint32Size ∨ b.length < 1 + uint32Size then none
    else
      let lenA := beNat ((a.drop 1).take uint32Size)
      let lenB := beNat ((b.drop 1).take uint32Size)
      if a.length < 1 + uint32Size + lenA ∨ b.length < 1 + uint32Size + lenB then none
      else
        let a1 := (a.drop (1 + uint32Size)).take lenA
        let b1 := (b.drop (1 + uint32Size)).take lenB
        compareEncodedNomsValues a1 b1

/-- `splitAfterFirstKey(bs)`: the first key of `bs` and what follows it. -/
def splitAfterFirstKey (bs : List UInt8) : Option (List UInt8 × List UInt8) := do
  let kind ← bs[0]?
  let keyLen ← if byteOrderedByValue kind then
      if bs.length < 1 + uint32Size then none
      else some (1 + uint32Size + beNat ((bs.drop 1).take uint32Size))
    else some (1 + 20)
  if bs.length < keyLen then none else some (bs.take keyLen, bs.drop keyLen)

/-- The loop of `compareEncodedKeys` over `n` pairs of keys: the first pair that differs
decides. -/
def compareKeysLoop : Nat → List UInt8 → List UInt8 → Option Ordering
  | 0, _, _ => some .eq
  | n + 1, a, b => do
    let (aKey, aRest) ← splitAfterFirstKey a
    let (bKey, bRest) ← splitAfterFirstKey b
    let cres ← compareEncodedKey aKey bKey
    if cres = .eq then compareKeysLoop n aRest bRest else some cres

/-- `compareEncodedKeys(a, b)`: after the op's kind byte and the key counts, the keys in order;
on a tie, fewer keys first. -/
def compareEncodedKeys (a b : List UInt8) : Option Ordering :=
  match compareEmpties a b with
  | some res => some res
  | none => do
    let numA ← a[1]?
    let numB ← b[1]?
    let cres ← compareKeysLoop (min numA numB).toNat (a.drop 2) (b.drop 2)
    if cres = .eq then
      if numA < numB then some .lt else if numA > numB then some .gt else some cres
    else some cres

/-- `opCacheComparer.Compare(a, b)`: the collection ids, then the keys. -/
def opCacheCompare (a b : List UInt8) : Option Ordering :=
  if a.length < uint32Size ∨ b.length < uint32Size then none
  else match bytesCompare (a.take uint32Size) (b.take uint32Size) with
    | .eq => compareEncodedKeys (a.drop uint32Size) (b.drop uint32Size)
    | res => some res

/-! ## The order it stands for -/

/-- `v` before, after or level with `w` under `Less`. -/
def valueCompare (v w : Value C) : Ordering :=
  if v.Less hashOf w then .lt else if w.Less hashOf v then .gt else .eq

/-- Lists compared lexicographically by `cmp`, a proper prefix first. -/
def lexCompare {α : Type} (cmp : α → α → Ordering) : List α → List α → Ordering
  | [], [] => .eq
  | [], _ :: _ => .lt
  | _ :: _, [] => .gt
  | v :: vs, w :: ws =>
    match cmp v w with
    | .eq => lexCompare cmp vs ws
    | res => res

/-- Key lists compared value by value under `Less`, a proper prefix first. -/
def keysCompare (ks1 ks2 : List (Value C)) : Ordering := lexCompare (valueCompare hashOf) ks1 ks2

/-- A key `encodeKeys` writes whole: a finite number, or a string whose encoding fits its
`uint32` length. -/
def KeyFits : Value C → Prop
  | .bool _ => True
  | .number x => ∃ b : Binary64, x = .finite b.val
  | .string s => s.length + 5 < 2 ^ 32
  | .hashed _ _ => True

/-- A number that `readNumber` reads back as written: a finite `float64` whose lowest mantissa
bit is not below `2^-1023`. -/
def Float64.ReadsBack (x : Float64) : Prop :=
  ∃ b : Binary64, x = .finite b.val ∧ ∃ w : ℤ, b.val * 2 ^ (1023 : ℤ) = w

/-- A key the comparator reads back: one that fits, and a number that `readNumber` reads back
as written. -/
def KeyOk : Value C → Prop
  | .bool _ => True
  | .number x => x.ReadsBack
  | .string s => s.length + 5 < 2 ^ 32
  | .hashed _ _ => True

theorem KeyOk.fits {v : Value C} (h : KeyOk v) : KeyFits v := by
  cases v with
  | number x =>
    obtain ⟨b, hb, -⟩ := h
    exact ⟨b, hb⟩
  | _ => exact h

/-! ## Bytes the comparator reads -/

theorem uint32Bytes_eq_beBytes (v : Nat) : uint32Bytes v = beBytes 4 v := by
  simp only [uint32Bytes, beBytes, List.cons.injEq, and_true]
  refine ⟨?_, ?_, ?_, ?_⟩ <;> exact UInt8.ofNat_mod_size'.symm.trans (by norm_num)

theorem beNat_uint32Bytes {v : Nat} (h : v < 2 ^ 32) : beNat (uint32Bytes v) = v := by
  rw [uint32Bytes_eq_beBytes]
  exact beNat_beBytes_of_lt (by simpa using h)

@[simp] theorem length_uint32Bytes (v : Nat) : (uint32Bytes v).length = 4 := rfl

theorem length_putUvarint_le : ∀ fuel x : Nat, (putUvarint fuel x).length ≤ fuel
  | 0, _ => le_rfl
  | fuel + 1, x => by
    unfold putUvarint
    split_ifs
    · simp
    · simpa using length_putUvarint_le fuel (x / 0x80)

theorem length_writeNumber_le {x : Float64} {bytes : List UInt8} (h : writeNumber x = some bytes) :
    bytes.length ≤ 20 := by
  obtain ⟨⟨i, exp⟩, -, rfl⟩ := Option.map_eq_some_iff.mp h
  have hi := length_putUvarint_le 10 (if 0 ≤ i then 2 * i.toNat else 2 * (-i).toNat - 1)
  have he := length_putUvarint_le 10 (if 0 ≤ exp then 2 * exp.toNat else 2 * (-exp).toNat - 1)
  simp only [binaryNomsWriter.bytes, putVarint, List.length_append]
  omega

theorem kindByte_toNat (k : NomsKind) : (kindByte k).toNat = k.toNat := by
  cases k <;> rfl

theorem kindByte_injective {a b : NomsKind} (h : kindByte a = kindByte b) : a = b := by
  cases a <;> cases b <;> first | rfl | exact absurd h (by decide)

theorem byteOrderedByValue_kindByte (k : NomsKind) :
    byteOrderedByValue (kindByte k) = isKindOrderedByValue k := by
  cases k <;> rfl

theorem compareKinds_eq_eq_iff {a b : UInt8} : compareKinds a b = .eq ↔ a = b := by
  unfold compareKinds
  split_ifs with h₁ h₂
  · simp [UInt8.ne_of_lt h₁]
  · simp [(UInt8.ne_of_lt h₂).symm]
  · simp only [true_iff]
    rw [UInt8.lt_iff_toNat_lt] at h₁
    rw [gt_iff_lt, UInt8.lt_iff_toNat_lt] at h₂
    exact UInt8.toNat_inj.mp (by omega)

theorem compareKinds_kindByte (a b : NomsKind) :
    compareKinds (kindByte a) (kindByte b) =
      if a.toNat < b.toNat then .lt else if b.toNat < a.toNat then .gt else .eq := by
  simp [compareKinds, UInt8.lt_iff_toNat_lt, kindByte_toNat]

/-! ## One key -/

/-- A key ordered by value splits off after its length field and encoding. -/
theorem splitAfterFirstKey_byValue {kb : UInt8} (hkb : byteOrderedByValue kb = true)
    {field enc : List UInt8} (hfield : field.length = uint32Size) (hlen : beNat field = enc.length)
    (rest : List UInt8) :
    splitAfterFirstKey (kb :: (field ++ (enc ++ rest))) = some (kb :: (field ++ enc), rest) := by
  have hsplit : kb :: (field ++ (enc ++ rest)) = (kb :: (field ++ enc)) ++ rest := by simp
  have hkey : 1 + uint32Size + enc.length = (kb :: (field ++ enc)).length := by
    simp [hfield]
    omega
  simp only [splitAfterFirstKey, List.getElem?_cons_zero, Option.bind_eq_bind, Option.bind_some,
    hkb, if_true, List.drop_succ_cons, List.drop_zero, List.take_left' hfield, hlen]
  rw [hkey, hsplit, if_neg (by simp [hfield]; omega), if_neg (by simp), List.take_left,
    List.drop_left]

/-- A key ordered by hash splits off after its twenty hash bytes. -/
theorem splitAfterFirstKey_hashed {kb : UInt8} (hkb : byteOrderedByValue kb = false)
    {h : List UInt8} (hlen : h.length = 20) (rest : List UInt8) :
    splitAfterFirstKey (kb :: (h ++ rest)) = some (kb :: h, rest) := by
  have hsplit : kb :: (h ++ rest) = (kb :: h) ++ rest := rfl
  have hkey : 1 + 20 = (kb :: h).length := by simp [hlen]
  simp only [splitAfterFirstKey, List.getElem?_cons_zero, Option.bind_eq_bind, Option.bind_some,
    hkb, Bool.false_eq_true, if_false]
  rw [hkey, hsplit, if_neg (by simp), List.take_left, List.drop_left]

/-- Keys whose kind bytes differ, one of them ordered by value, are ordered by kind. -/
theorem compareEncodedKey_of_kinds {ka kb : UInt8} (hne : ka ≠ kb)
    (hby : byteOrderedByValue ka = true ∨ byteOrderedByValue kb = true) (x y : List UInt8) :
    compareEncodedKey (ka :: x) (kb :: y) = some (compareKinds ka kb) := by
  have hk : compareKinds ka kb ≠ .eq := fun h => hne (compareKinds_eq_eq_iff.mp h)
  rcases hby with h | h <;> simp [compareEncodedKey, h, hk]

/-- Two keys of one kind ordered by value compare by their encodings. -/
theorem compareEncodedKey_byValue {k : UInt8} (hk : byteOrderedByValue k = true)
    {field₁ field₂ e₁ e₂ : List UInt8} (hf₁ : field₁.length = uint32Size)
    (hf₂ : field₂.length = uint32Size) (hl₁ : beNat field₁ = e₁.length)
    (hl₂ : beNat field₂ = e₂.length) :
    compareEncodedKey (k :: (field₁ ++ e₁)) (k :: (field₂ ++ e₂)) =
      compareEncodedNomsValues e₁ e₂ := by
  have hsame : compareKinds k k = .eq := compareKinds_eq_eq_iff.mpr rfl
  have hdrop (f e : List UInt8) (hf : f.length = uint32Size) :
      (k :: (f ++ e)).drop (1 + uint32Size) = e := by
    rw [Nat.add_comm, List.drop_succ_cons]
    exact List.drop_left' hf
  simp only [compareEncodedKey, List.getElem?_cons_zero, Option.bind_eq_bind, Option.bind_some,
    hk, Bool.not_true, Bool.false_and, Bool.false_eq_true, if_false, hsame, ne_eq,
    not_true_eq_false, List.drop_one, List.tail_cons, List.take_left' hf₁, List.take_left' hf₂,
    hl₁, hl₂, hdrop _ _ hf₁, hdrop _ _ hf₂, List.take_length]
  rw [if_neg (by simp [hf₁, hf₂]; omega), if_neg (by simp [hf₁, hf₂]; omega)]

/-- Two keys ordered by hash compare by their hashes, and panic on one hash of two kinds. -/
theorem compareEncodedKey_hashed {ka kb : UInt8} (hka : byteOrderedByValue ka = false)
    (hkb : byteOrderedByValue kb = false) {h₁ h₂ : List UInt8} (hl₁ : h₁.length = 20)
    (hl₂ : h₂.length = 20) :
    compareEncodedKey (ka :: h₁) (kb :: h₂) =
      if bytesCompare h₁ h₂ = .eq ∧ ka ≠ kb then none else some (bytesCompare h₁ h₂) := by
  simp [compareEncodedKey, hka, hkb, hl₁, hl₂]

/-! ## Values the comparator reads back -/

theorem beNat_lengthField {enc : List UInt8} (hlen : enc.length < 2 ^ 32) :
    beNat (uint32Bytes (enc.length % 2 ^ 32)) = enc.length := by
  rw [Nat.mod_eq_of_lt hlen, beNat_uint32Bytes hlen]

theorem isKindOrderedByValue_hashed (k : HashedKind) : isKindOrderedByValue k.kind = false := by
  cases k <;> rfl

theorem encodeGraphKey_byValue {v : Value C} (hby : isKindOrderedByValue v.kind = true)
    {enc : List UInt8} (henc : encToSlice v = some enc) :
    encodeGraphKey hashOf v = some (kindByte v.kind :: (uint32Bytes (enc.length % 2 ^ 32) ++ enc)) := by
  simp [encodeGraphKey, hby, henc]

theorem encodeGraphKey_hashed (k : HashedKind) (c : C) :
    encodeGraphKey hashOf (.hashed k c) = some (kindByte k.kind :: (hashOf (.hashed k c)).bytes) := by
  simp [encodeGraphKey, Value.kind, isKindOrderedByValue_hashed]

theorem encodeGraphKey_head {v : Value C} {e : List UInt8} (he : encodeGraphKey hashOf v = some e) :
    ∃ rest, e = kindByte v.kind :: rest := by
  unfold encodeGraphKey at he
  split_ifs at he
  · obtain ⟨enc, -, rfl⟩ := Option.map_eq_some_iff.mp he
    exact ⟨_, rfl⟩
  · exact ⟨_, (Option.some.inj he).symm⟩

theorem exists_hashed_of_not_byValue {v : Value C} (h : isKindOrderedByValue v.kind = false) :
    ∃ k c, v = .hashed k c := by
  cases v with
  | hashed k c => exact ⟨k, c, rfl⟩
  | bool _ | number _ | string _ => cases h

/-- A key the comparator reads back has an encoding that fits its length field. -/
theorem encToSlice_ok {v : Value C} (hv : KeyFits v) (hby : isKindOrderedByValue v.kind = true) :
    ∃ enc, encToSlice v = some enc ∧ enc.length < 2 ^ 32 := by
  cases v with
  | bool b => exact ⟨_, rfl, by simp [binaryNomsWriter.bytes]⟩
  | number x =>
    obtain ⟨b, rfl⟩ := hv
    obtain ⟨-, -, bytes, -, -, -, hw, -⟩ := readNumber_writeNumber b []
    have := length_writeNumber_le hw
    exact ⟨kindByte .NumberKind :: bytes, by simp [encToSlice, hw], by simp; omega⟩
  | string s =>
    refine ⟨_, rfl, ?_⟩
    simp only [KeyFits] at hv
    simp [binaryNomsWriter.bytes]
    omega
  | hashed k c => simp [isKindOrderedByValue_hashed, Value.kind] at hby

/-- Each key splits off the keys after it. -/
theorem encodeGraphKey_split {v : Value C} (hv : KeyFits v) :
    ∃ e, encodeGraphKey hashOf v = some e ∧ ∀ rest, splitAfterFirstKey (e ++ rest) = some (e, rest) := by
  cases hby : isKindOrderedByValue v.kind
  · obtain ⟨k, c, rfl⟩ := exists_hashed_of_not_byValue hby
    refine ⟨_, encodeGraphKey_hashed hashOf k c, fun rest => ?_⟩
    rw [List.cons_append]
    exact splitAfterFirstKey_hashed (by rw [byteOrderedByValue_kindByte, isKindOrderedByValue_hashed])
      (hashOf _).length_eq rest
  · obtain ⟨enc, henc, hlen⟩ := encToSlice_ok hv hby
    refine ⟨_, encodeGraphKey_byValue hashOf hby henc, fun rest => ?_⟩
    rw [List.cons_append, List.append_assoc]
    exact splitAfterFirstKey_byValue (by rw [byteOrderedByValue_kindByte, hby]) rfl
      (beNat_lengthField hlen) rest

/-! ## One pair of keys -/

theorem isKindOrderedByValue_eq (k : NomsKind) : isKindOrderedByValue k = decide (k.toNat ≤ 2) :=
  rfl

theorem NomsKind.toNat_injective : Function.Injective NomsKind.toNat := by
  intro a b h
  cases a <;> cases b <;> first | rfl | exact absurd h (by decide)

/-- A value ordered by value is below every value of a later kind. -/
theorem less_of_kind_lt {v w : Value C} (hby : isKindOrderedByValue v.kind = true)
    (hlt : v.kind.toNat < w.kind.toNat) : v.Less hashOf w = true := by
  cases v with
  | bool b => cases w <;> simp_all [Value.Less, Value.boolLess, Value.kind, NomsKind.toNat]
  | number x =>
    cases w <;> simp_all [Value.Less, Value.numberLess, Value.kind, NomsKind.toNat, NomsKind.lt_iff]
  | string s =>
    cases w <;> simp_all [Value.Less, Value.stringLess, Value.kind, NomsKind.toNat, NomsKind.lt_iff]
  | hashed k c => simp [isKindOrderedByValue_hashed, Value.kind] at hby

/-- No value is below a value ordered by value of an earlier kind. -/
theorem not_less_of_kind_lt {v w : Value C} (hby : isKindOrderedByValue w.kind = true)
    (hlt : w.kind.toNat < v.kind.toNat) : v.Less hashOf w = false := by
  cases w with
  | hashed k c => simp [isKindOrderedByValue_hashed, Value.kind] at hby
  | bool b =>
    cases v <;> simp_all [Value.Less, Value.numberLess, Value.stringLess, Value.kind,
      NomsKind.toNat, NomsKind.lt_iff]
  | number x =>
    cases v <;> simp_all [Value.Less, Value.stringLess, Value.kind, NomsKind.toNat, NomsKind.lt_iff]
  | string s => cases v <;> simp_all [Value.Less, Value.kind, NomsKind.toNat]

/-- Values of two kinds, one of them ordered by value, are ordered by kind. -/
theorem valueCompare_of_kind_ne {v w : Value C} (hne : v.kind ≠ w.kind)
    (hby : isKindOrderedByValue v.kind = true ∨ isKindOrderedByValue w.kind = true) :
    valueCompare hashOf v w = if v.kind.toNat < w.kind.toNat then .lt else .gt := by
  have hne' : v.kind.toNat ≠ w.kind.toNat := fun h => hne (NomsKind.toNat_injective h)
  rcases Nat.lt_or_gt_of_ne hne' with hlt | hgt
  · -- the earlier kind is ordered by value, as the later one is or as kinds are ranked
    have hv : isKindOrderedByValue v.kind = true := by
      rcases hby with h | h
      · exact h
      · rw [isKindOrderedByValue_eq, decide_eq_true_iff] at h ⊢
        omega
    simp [valueCompare, less_of_kind_lt hashOf hv hlt, hlt]
  · have hw : isKindOrderedByValue w.kind = true := by
      rcases hby with h | h
      · rw [isKindOrderedByValue_eq, decide_eq_true_iff] at h ⊢
        omega
      · exact h
    simp [valueCompare, not_less_of_kind_lt hashOf hw hgt, less_of_kind_lt hashOf hw hgt,
      not_lt.mpr hgt.le]

/-- An order read off a three-way comparison and its swap is that comparison. -/
theorem ordering_of_swap (o : Ordering) :
    (if (o == .lt) = true then Ordering.lt else if (o.swap == .lt) = true then .gt else .eq) = o := by
  cases o <;> rfl

theorem valueCompare_string (s₁ s₂ : List UInt8) :
    valueCompare hashOf (.string s₁) (.string s₂) = bytesCompare s₁ s₂ := by
  simp only [valueCompare, Value.Less, Value.stringLess, bytesCompare_swap s₁ s₂]
  exact ordering_of_swap _

theorem valueCompare_hashed (k₁ k₂ : HashedKind) (c₁ c₂ : C) :
    valueCompare hashOf (.hashed k₁ c₁) (.hashed k₂ c₂) =
      bytesCompare (hashOf (.hashed k₁ c₁)).bytes (hashOf (.hashed k₂ c₂)).bytes := by
  simp only [valueCompare, Value.Less, Value.valueLess_hashed, Hash.Less,
    bytesCompare_swap (hashOf (.hashed k₁ c₁)).bytes]
  exact ordering_of_swap _

theorem readNumber_of_readsBack {x : Float64} (hx : x.ReadsBack) {bx : List UInt8}
    (hbx : writeNumber x = some bx) : readNumber bx = some (x, []) := by
  obtain ⟨b, rfl, hint⟩ := hx
  obtain ⟨i, exp, bytes, -, -, -, hw, hle, -, hdec⟩ := readNumber_writeNumber b []
  rw [hbx, Option.some.injEq] at hw
  subst hw
  simpa using hle (hdec.mpr hint)

theorem compareEncodedNomsValues_bool (b₁ b₂ : Bool) :
    compareEncodedNomsValues (kindByte .BoolKind :: [if b₁ then 1 else 0])
        (kindByte .BoolKind :: [if b₂ then 1 else 0]) =
      some (valueCompare hashOf (.bool b₁) (.bool b₂)) := by
  cases b₁ <;> cases b₂ <;> rfl

/-- Two numbers compare as Go compares the `float64`s `readNumber` gives. -/
theorem compareEncodedNomsValues_readNumber {x y : Float64} {bx bys : List UInt8}
    (hrx : readNumber bx = some (x, [])) (hry : readNumber bys = some (y, [])) :
    compareEncodedNomsValues (kindByte .NumberKind :: bx) (kindByte .NumberKind :: bys) =
      some (if x.eq y then .eq else if x.lt y then .lt else .gt) := by
  simp only [compareEncodedNomsValues, compareEmpties, List.getElem?_cons_zero, Option.bind_eq_bind,
    Option.bind_some, ne_eq, not_true_eq_false, if_false, List.drop_one, List.tail_cons, hrx, hry]
  rw [if_neg (by decide), if_pos trivial]
  split_ifs <;> rfl

/-- Two numbers read back compare as their values do. -/
theorem compareEncodedNomsValues_number {x y : Float64} (hx : x.ReadsBack) (hy : y.ReadsBack)
    {bx bys : List UInt8} (hbx : writeNumber x = some bx) (hby : writeNumber y = some bys) :
    compareEncodedNomsValues (kindByte .NumberKind :: bx) (kindByte .NumberKind :: bys) =
      some (valueCompare hashOf (.number x) (.number y)) := by
  rw [compareEncodedNomsValues_readNumber (readNumber_of_readsBack hx hbx)
    (readNumber_of_readsBack hy hby)]
  obtain ⟨b, rfl, -⟩ := hx
  obtain ⟨b', rfl, -⟩ := hy
  simp only [valueCompare, Value.Less, Value.numberLess, Float64.eq, Float64.lt]
  rcases lt_trichotomy b.val b'.val with h | h | h
  · simp [h, h.ne]
  · simp [h]
  · simp [h, h.ne', not_lt_of_gt h]

theorem compareEncodedNomsValues_string (s₁ s₂ : List UInt8) :
    compareEncodedNomsValues (kindByte .StringKind :: (uint32Bytes (s₁.length % 2 ^ 32) ++ s₁))
        (kindByte .StringKind :: (uint32Bytes (s₂.length % 2 ^ 32) ++ s₂)) =
      some (valueCompare hashOf (.string s₁) (.string s₂)) := by
  have hdrop (s : List UInt8) :
      (kindByte .StringKind :: (uint32Bytes (s.length % 2 ^ 32) ++ s)).drop (1 + uint32Size) = s := by
    rw [Nat.add_comm, List.drop_succ_cons]
    exact List.drop_left' rfl
  simp only [compareEncodedNomsValues, compareEmpties, List.getElem?_cons_zero, Option.bind_eq_bind,
    Option.bind_some, ne_eq, not_true_eq_false, if_false, hdrop, valueCompare_string]
  rw [if_neg (by decide), if_neg (by decide), if_pos trivial, if_neg (by simp [uint32Size])]

theorem writeNumber_of_readsBack {x : Float64} (hx : x.ReadsBack) : ∃ bx, writeNumber x = some bx := by
  obtain ⟨b, rfl, -⟩ := hx
  obtain ⟨-, -, bytes, -, -, -, hw, -⟩ := readNumber_writeNumber b []
  exact ⟨bytes, hw⟩

/-- Keys of different kinds, one ordered by value, compare by kind as their values do. -/
theorem compareEncodedKey_of_kind_ne {v w : Value C} (hne : v.kind ≠ w.kind)
    (hby : isKindOrderedByValue v.kind = true ∨ isKindOrderedByValue w.kind = true)
    {ev ew : List UInt8} (hev : encodeGraphKey hashOf v = some ev)
    (hew : encodeGraphKey hashOf w = some ew) :
    compareEncodedKey ev ew = some (valueCompare hashOf v w) := by
  obtain ⟨rv, rfl⟩ := encodeGraphKey_head hashOf hev
  obtain ⟨rw', rfl⟩ := encodeGraphKey_head hashOf hew
  have hne' : v.kind.toNat ≠ w.kind.toNat := fun h => hne (NomsKind.toNat_injective h)
  rw [compareEncodedKey_of_kinds (fun h => hne (kindByte_injective h))
      (by simpa only [byteOrderedByValue_kindByte] using hby),
    compareKinds_kindByte, valueCompare_of_kind_ne hashOf hne hby]
  by_cases hlt : v.kind.toNat < w.kind.toNat
  · simp [hlt]
  · simp [hlt, show w.kind.toNat < v.kind.toNat by omega]

/-- Keys of one kind ordered by value compare by their encodings. -/
theorem compareEncodedKey_encodeGraphKey_byValue {v w : Value C} (hk : v.kind = w.kind)
    (hby : isKindOrderedByValue v.kind = true) {enc₁ enc₂ : List UInt8}
    (h₁ : encToSlice v = some enc₁) (h₂ : encToSlice w = some enc₂) (hl₁ : enc₁.length < 2 ^ 32)
    (hl₂ : enc₂.length < 2 ^ 32) {ev ew : List UInt8} (hev : encodeGraphKey hashOf v = some ev)
    (hew : encodeGraphKey hashOf w = some ew) :
    compareEncodedKey ev ew = compareEncodedNomsValues enc₁ enc₂ := by
  rw [encodeGraphKey_byValue hashOf hby h₁, Option.some.injEq] at hev
  rw [encodeGraphKey_byValue hashOf (hk ▸ hby) h₂, Option.some.injEq] at hew
  subst hev hew
  rw [← hk]
  exact compareEncodedKey_byValue (by rw [byteOrderedByValue_kindByte, hby]) rfl rfl
    (beNat_lengthField hl₁) (beNat_lengthField hl₂)

/-- Two keys read back compare as their values do under `Less`. -/
theorem compareEncodedKey_encodeGraphKey {v w : Value C} (hv : KeyOk v) (hw : KeyOk w)
    (hsep : hashOf v = hashOf w → v.kind = w.kind) {ev ew : List UInt8}
    (hev : encodeGraphKey hashOf v = some ev) (hew : encodeGraphKey hashOf w = some ew) :
    compareEncodedKey ev ew = some (valueCompare hashOf v w) := by
  cases hbv : isKindOrderedByValue v.kind <;> cases hbw : isKindOrderedByValue w.kind
  · -- two keys ordered by hash: the hashes decide, and they differ across kinds
    obtain ⟨k₁, c₁, rfl⟩ := exists_hashed_of_not_byValue hbv
    obtain ⟨k₂, c₂, rfl⟩ := exists_hashed_of_not_byValue hbw
    rw [encodeGraphKey_hashed, Option.some.injEq] at hev hew
    subst hev hew
    have hk : ∀ k : HashedKind, byteOrderedByValue (kindByte k.kind) = false := fun k => by
      rw [byteOrderedByValue_kindByte, isKindOrderedByValue_hashed]
    rw [compareEncodedKey_hashed (hk k₁) (hk k₂) (hashOf _).length_eq (hashOf _).length_eq,
      valueCompare_hashed, if_neg]
    rintro ⟨heq, hne⟩
    have hbytes := (bytesCompare_eq_eq_iff _ _).mp heq
    exact hne (congrArg kindByte (hsep ((Value.hash_eq_iff _ _).mpr (congrArg byteVals hbytes))))
  · exact compareEncodedKey_of_kind_ne hashOf (by intro h; rw [h, hbw] at hbv; cases hbv)
      (Or.inr hbw) hev hew
  · exact compareEncodedKey_of_kind_ne hashOf (by intro h; rw [h, hbw] at hbv; cases hbv)
      (Or.inl hbv) hev hew
  · by_cases hk : v.kind = w.kind
    · -- one kind ordered by value: the encodings decide
      cases v <;> cases w <;> simp only [Value.kind, isKindOrderedByValue_hashed, reduceCtorEq,
        Bool.false_eq_true] at hk hbv hbw
      · rename_i b₁ b₂
        rw [compareEncodedKey_encodeGraphKey_byValue hashOf (v := .bool b₁) (w := .bool b₂) rfl hbv
          rfl rfl (by simp [binaryNomsWriter.bytes]) (by simp [binaryNomsWriter.bytes]) hev hew]
        exact compareEncodedNomsValues_bool hashOf b₁ b₂
      · rename_i x y
        obtain ⟨bx, hbx⟩ := writeNumber_of_readsBack hv
        obtain ⟨bys, hby⟩ := writeNumber_of_readsBack hw
        have hlx := length_writeNumber_le hbx
        have hly := length_writeNumber_le hby
        have hex : encToSlice (.number x : Value C) = some (kindByte .NumberKind :: bx) := by
          simp [encToSlice, hbx]
        have hey : encToSlice (.number y : Value C) = some (kindByte .NumberKind :: bys) := by
          simp [encToSlice, hby]
        rw [compareEncodedKey_encodeGraphKey_byValue hashOf (v := .number x) (w := .number y) rfl hbv
          hex hey (by simp; omega)
          (by simp; omega) hev hew]
        exact compareEncodedNomsValues_number hashOf hv hw hbx hby
      · rename_i s t
        simp only [KeyOk] at hv hw
        rw [compareEncodedKey_encodeGraphKey_byValue hashOf (v := .string s) (w := .string t) rfl hbv
          rfl rfl (by simp [binaryNomsWriter.bytes]; omega) (by simp [binaryNomsWriter.bytes]; omega) hev hew]
        exact compareEncodedNomsValues_string hashOf s t
    · exact compareEncodedKey_of_kind_ne hashOf hk (Or.inl hbv) hev hew

/-! ## Lists of keys -/

theorem mapM_encodeGraphKey {ks : List (Value C)} (h : ∀ v ∈ ks, KeyFits v) :
    ∃ encs, ks.mapM (encodeGraphKey hashOf) = some encs := by
  induction ks with
  | nil => exact ⟨[], rfl⟩
  | cons v vs ih =>
    obtain ⟨e, he, -⟩ := encodeGraphKey_split hashOf (h v List.mem_cons_self)
    obtain ⟨es, hes⟩ := ih fun w hw => h w (List.mem_cons_of_mem v hw)
    exact ⟨e :: es, by simp [List.mapM_cons, he, hes]⟩

theorem mapM_cons_eq_some {v : Value C} {vs : List (Value C)} {encs : List (List UInt8)}
    (h : (v :: vs).mapM (encodeGraphKey hashOf) = some encs) :
    ∃ e es, encodeGraphKey hashOf v = some e ∧ vs.mapM (encodeGraphKey hashOf) = some es ∧
      encs = e :: es := by
  simp only [List.mapM_cons, Option.bind_eq_bind, Option.bind_eq_some_iff, Option.pure_def,
    Option.some.injEq] at h
  obtain ⟨e, he, es, hes, rfl⟩ := h
  exact ⟨e, es, he, hes, rfl⟩

section Lists

variable (cmp : Value C → Value C → Ordering)

/-- The loop over the keys both lists have stops at the first pair `cmp` tells apart, or gives
`.eq` when one list is a prefix of the other; then the counts decide. Each pair of keys compares
as `cmp` says. -/
theorem compareKeysLoop_encode : ∀ (ks1 ks2 : List (Value C)) (encs1 encs2 : List (List UInt8)),
    (∀ v ∈ ks1, KeyFits v) → (∀ w ∈ ks2, KeyFits w) →
    (∀ v ∈ ks1, ∀ w ∈ ks2, ∀ ev ew, encodeGraphKey hashOf v = some ev →
      encodeGraphKey hashOf w = some ew → compareEncodedKey ev ew = some (cmp v w)) →
    ks1.mapM (encodeGraphKey hashOf) = some encs1 → ks2.mapM (encodeGraphKey hashOf) = some encs2 →
    ∃ c, compareKeysLoop (min ks1.length ks2.length) encs1.flatten encs2.flatten = some c ∧
      (c ≠ .eq → lexCompare cmp ks1 ks2 = c) ∧
      (c = .eq → lexCompare cmp ks1 ks2 = if ks1.length < ks2.length then .lt
        else if ks2.length < ks1.length then .gt else .eq)
  | [], ks2, _, _, _, _, _, _, _ => by
    refine ⟨.eq, by simp [compareKeysLoop], by simp, fun _ => ?_⟩
    cases ks2 <;> simp [lexCompare]
  | _ :: _, [], _, _, _, _, _, _, _ =>
    ⟨.eq, by simp [compareKeysLoop], by simp, fun _ => by simp [lexCompare]⟩
  | v :: vs, w :: ws, encs1, encs2, hfit1, hfit2, hcmp, h1, h2 => by
    obtain ⟨ev, es1, hev, hes1, rfl⟩ := mapM_cons_eq_some hashOf h1
    obtain ⟨ew, es2, hew, hes2, rfl⟩ := mapM_cons_eq_some hashOf h2
    obtain ⟨ev', hev', hsplitv⟩ := encodeGraphKey_split hashOf (hfit1 v List.mem_cons_self)
    obtain ⟨ew', hew', hsplitw⟩ := encodeGraphKey_split hashOf (hfit2 w List.mem_cons_self)
    rw [hev, Option.some.injEq] at hev'
    rw [hew, Option.some.injEq] at hew'
    subst hev' hew'
    have hpair := hcmp v List.mem_cons_self w List.mem_cons_self ev ew hev hew
    simp only [List.length_cons, Nat.succ_min_succ, compareKeysLoop, List.flatten_cons, hsplitv,
      hsplitw, hpair, Option.bind_eq_bind, Option.bind_some]
    by_cases hc : cmp v w = .eq
    · -- the first keys tie: the rest decides
      obtain ⟨c, hloop, hne, heq⟩ := compareKeysLoop_encode vs ws es1 es2
        (fun v hv => hfit1 v (List.mem_cons_of_mem _ hv))
        (fun w hw => hfit2 w (List.mem_cons_of_mem _ hw))
        (fun v hv w hw => hcmp v (List.mem_cons_of_mem _ hv) w (List.mem_cons_of_mem _ hw))
        hes1 hes2
      refine ⟨c, by simp [hc, hloop], fun h => ?_, fun h => ?_⟩
      · simp [lexCompare, hc, hne h]
      · simp [lexCompare, hc, heq h]
    · refine ⟨cmp v w, by simp [hc], fun _ => ?_, fun h => absurd h hc⟩
      simp only [lexCompare]

/-- `compareEncodedKeys` on two key lists each pair of which compares as `cmp` says. -/
theorem compareEncodedKeys_encode {ks1 ks2 : List (Value C)} {encs1 encs2 : List (List UInt8)}
    (k₁ k₂ : UInt8) (hfit1 : ∀ v ∈ ks1, KeyFits v) (hfit2 : ∀ w ∈ ks2, KeyFits w)
    (hlen₁ : ks1.length < 256) (hlen₂ : ks2.length < 256)
    (hcmp : ∀ v ∈ ks1, ∀ w ∈ ks2, ∀ ev ew, encodeGraphKey hashOf v = some ev →
      encodeGraphKey hashOf w = some ew → compareEncodedKey ev ew = some (cmp v w))
    (h1 : ks1.mapM (encodeGraphKey hashOf) = some encs1)
    (h2 : ks2.mapM (encodeGraphKey hashOf) = some encs2) :
    compareEncodedKeys (k₁ :: UInt8.ofNat ks1.length :: encs1.flatten)
        (k₂ :: UInt8.ofNat ks2.length :: encs2.flatten) =
      some (lexCompare cmp ks1 ks2) := by
  obtain ⟨c, hloop, hne, heq⟩ :=
    compareKeysLoop_encode hashOf cmp ks1 ks2 encs1 encs2 hfit1 hfit2 hcmp h1 h2
  have hn (n : Nat) (h : n < 256) : (UInt8.ofNat n).toNat = n := by
    rw [UInt8.toNat_ofNat', Nat.mod_eq_of_lt (by simpa using h)]
  have hmin : (min (UInt8.ofNat ks1.length) (UInt8.ofNat ks2.length)).toNat =
      min ks1.length ks2.length := by
    rw [UInt8.toNat_min, hn _ hlen₁, hn _ hlen₂]
  have hlt (m n : Nat) (hm : m < 256) (hn' : n < 256) : UInt8.ofNat m < UInt8.ofNat n ↔ m < n := by
    rw [UInt8.lt_iff_toNat_lt, hn m hm, hn n hn']
  simp only [compareEncodedKeys, compareEmpties, List.getElem?_cons_succ, List.getElem?_cons_zero,
    Option.bind_eq_bind, Option.bind_some, hmin, List.drop_succ_cons, List.drop_zero, hloop]
  by_cases hc : c = .eq
  · simp only [hc, if_true, heq hc, gt_iff_lt, hlt _ _ hlen₁ hlen₂, hlt _ _ hlen₂ hlen₁]
    split_ifs <;> rfl
  · simp [hc, hne hc]

end Lists

/-! ## The comparator on the keys `encodeKeys` writes -/

/-- `Compare` on the keys of one collection, each pair of which compares as `cmp` says, is the
lexicographic order by `cmp`; the op's kind does not count. -/
theorem opCacheCompare_encodeKeys_of (cmp : Value C → Value C → Ordering) (colId : Nat)
    (opKind₁ opKind₂ : NomsKind) {ks1 ks2 : List (Value C)} (hfit1 : ∀ v ∈ ks1, KeyFits v)
    (hfit2 : ∀ w ∈ ks2, KeyFits w) (hlen₁ : ks1.length < 256) (hlen₂ : ks2.length < 256)
    (hcmp : ∀ v ∈ ks1, ∀ w ∈ ks2, ∀ ev ew, encodeGraphKey hashOf v = some ev →
      encodeGraphKey hashOf w = some ew → compareEncodedKey ev ew = some (cmp v w)) :
    ∃ a b, encodeKeys hashOf colId opKind₁ ks1 = some a ∧ encodeKeys hashOf colId opKind₂ ks2 = some b ∧
      opCacheCompare a b = some (lexCompare cmp ks1 ks2) := by
  obtain ⟨encs1, h1⟩ := mapM_encodeGraphKey hashOf hfit1
  obtain ⟨encs2, h2⟩ := mapM_encodeGraphKey hashOf hfit2
  refine ⟨uint32Bytes colId ++ [kindByte opKind₁, UInt8.ofNat ks1.length] ++ encs1.flatten,
    uint32Bytes colId ++ [kindByte opKind₂, UInt8.ofNat ks2.length] ++ encs2.flatten,
    by simp [encodeKeys, h1], by simp [encodeKeys, h2], ?_⟩
  have hid (k : UInt8) (n : Nat) (rest : List UInt8) :
      (uint32Bytes colId ++ [k, UInt8.ofNat n] ++ rest).take uint32Size = uint32Bytes colId := by
    rw [List.append_assoc]
    exact List.take_left' rfl
  have hkeys (k : UInt8) (n : Nat) (rest : List UInt8) :
      (uint32Bytes colId ++ [k, UInt8.ofNat n] ++ rest).drop uint32Size = k :: UInt8.ofNat n :: rest := by
    rw [List.append_assoc]
    exact List.drop_left' rfl
  simp only [opCacheCompare, hid, hkeys, (bytesCompare_eq_eq_iff _ _).mpr rfl]
  rw [if_neg (by simp [uint32Size])]
  exact compareEncodedKeys_encode hashOf cmp _ _ hfit1 hfit2 hlen₁ hlen₂ hcmp h1 h2

/-- On keys it reads back, `Compare` is the lexicographic order under `Less`: by value within
`Bool`, `Number` and `String`, by kind across kinds, by hash within the hashed kinds. -/
theorem opCacheCompare_encodeKeys (colId : Nat) (opKind₁ opKind₂ : NomsKind)
    (ks1 ks2 : List (Value C)) (hok1 : ∀ v ∈ ks1, KeyOk v) (hok2 : ∀ w ∈ ks2, KeyOk w)
    (hlen₁ : ks1.length < 256) (hlen₂ : ks2.length < 256)
    (hsep : ∀ v ∈ ks1, ∀ w ∈ ks2, hashOf v = hashOf w → v.kind = w.kind) :
    ∃ a b, encodeKeys hashOf colId opKind₁ ks1 = some a ∧ encodeKeys hashOf colId opKind₂ ks2 = some b ∧
      opCacheCompare a b = some (keysCompare hashOf ks1 ks2) :=
  opCacheCompare_encodeKeys_of hashOf (valueCompare hashOf) colId opKind₁ opKind₂
    (fun v hv => (hok1 v hv).fits) (fun w hw => (hok2 w hw).fits) hlen₁ hlen₂
    fun v hv w hw _ _ hev hew =>
      compareEncodedKey_encodeGraphKey hashOf (hok1 v hv) (hok2 w hw) (hsep v hv w hw) hev hew

/-- A map's key list against a set's: `Bool` keys tie, and a `String` comes before any hashed
key. -/
theorem opCacheCompare_encodeKeys_sample :
    ∃ a b, encodeKeys Value.kindHash 1 .MapKind [.bool true, .string [97]] = some a ∧
      encodeKeys Value.kindHash 1 .SetKind [.bool true, .hashed .Blob ()] = some b ∧
      opCacheCompare a b = some (keysCompare Value.kindHash [.bool true, .string [97]]
        [.bool true, .hashed .Blob ()]) :=
  opCacheCompare_encodeKeys Value.kindHash 1 .MapKind .SetKind _ _ (by simp [KeyOk])
    (by simp [KeyOk]) (by decide) (by decide) (by decide)

example : keysCompare Value.kindHash [.bool true, .string [97]] [.bool true, .hashed .Blob ()] =
    .lt := by decide

/-- A number below `2^-1023` in its lowest bit is read back as `0`, so two of them compare
equal. -/
theorem compareEncodedKey_underflow {x y : Binary64} (hx : ¬∃ w : ℤ, x.val * 2 ^ (1023 : ℤ) = w)
    (hy : ¬∃ w : ℤ, y.val * 2 ^ (1023 : ℤ) = w) {ev ew : List UInt8}
    (hev : encodeGraphKey hashOf (.number (.finite x.val)) = some ev)
    (hew : encodeGraphKey hashOf (.number (.finite y.val)) = some ew) :
    compareEncodedKey ev ew = some .eq := by
  obtain ⟨bx, hbx, hrx⟩ := readNumber_writeNumber_of_not_isInt x hx
  obtain ⟨bys, hby, hry⟩ := readNumber_writeNumber_of_not_isInt y hy
  have hex : encToSlice (.number (.finite x.val) : Value C) = some (kindByte .NumberKind :: bx) := by
    simp [encToSlice, hbx]
  have hey : encToSlice (.number (.finite y.val) : Value C) = some (kindByte .NumberKind :: bys) := by
    simp [encToSlice, hby]
  have hlx := length_writeNumber_le hbx
  have hly := length_writeNumber_le hby
  rw [compareEncodedKey_encodeGraphKey_byValue hashOf (v := .number (.finite x.val))
    (w := .number (.finite y.val)) rfl rfl hex hey (by simp; omega) (by simp; omega) hev hew,
    compareEncodedNomsValues_readNumber hrx hry]
  rfl

theorem valueCompare_number (p q : ℚ) :
    valueCompare hashOf (.number (.finite p)) (.number (.finite q)) = compare p q := by
  simp only [valueCompare, Value.Less, Value.numberLess, Float64.lt, decide_eq_true_eq]
  rcases lt_trichotomy p q with h | h | h
  · simp [h, compare_lt_iff_lt.mpr h]
  · simp [h]
  · simp [h, not_lt_of_gt h, compare_gt_iff_gt.mpr h]

/-- Two numbers whose lowest mantissa bit lies below `2^-1023` are one key to `Compare`, which
decodes them as `0`, whichever of them `Less` puts first. -/
theorem opCacheCompare_underflow (colId : Nat) (opKind₁ opKind₂ : NomsKind) (x y : Binary64)
    (hx : ¬∃ w : ℤ, x.val * 2 ^ (1023 : ℤ) = w) (hy : ¬∃ w : ℤ, y.val * 2 ^ (1023 : ℤ) = w) :
    ∃ a b, encodeKeys hashOf colId opKind₁ [.number (.finite x.val)] = some a ∧
      encodeKeys hashOf colId opKind₂ [.number (.finite y.val)] = some b ∧
      opCacheCompare a b = some .eq ∧
      keysCompare hashOf [.number (.finite x.val)] [.number (.finite y.val)] = compare x.val y.val := by
  have hfx : ∀ v ∈ [(.number (.finite x.val) : Value C)], KeyFits v := by simp [KeyFits]
  have hfy : ∀ v ∈ [(.number (.finite y.val) : Value C)], KeyFits v := by simp [KeyFits]
  obtain ⟨a, b, ha, hb, hab⟩ := opCacheCompare_encodeKeys_of hashOf (fun _ _ => .eq) colId
    opKind₁ opKind₂ hfx hfy (by simp) (by simp) (by
      simp only [List.mem_singleton]
      rintro v rfl w rfl ev ew hev hew
      exact compareEncodedKey_underflow hashOf hx hy hev hew)
  refine ⟨a, b, ha, hb, hab, ?_⟩
  simp only [keysCompare, lexCompare, valueCompare_number]
  cases compare x.val y.val <;> rfl

/-- The least subnormal `2^-1074`. -/
def minSubnormal : Binary64 := ⟨1, -1074, by norm_num, le_rfl, by norm_num⟩

/-- `2^-1073`. -/
def twiceMinSubnormal : Binary64 := ⟨1, -1073, by norm_num, by norm_num, by norm_num⟩

theorem not_exists_int_of_pos_of_lt_one {q : ℚ} (h0 : 0 < q) (h1 : q < 1) : ¬∃ w : ℤ, q = w := by
  rintro ⟨w, rfl⟩
  have : (0 : ℤ) < w := by exact_mod_cast h0
  have : w < 1 := by exact_mod_cast h1
  omega

theorem not_exists_int_zpow {k : ℤ} (hk : k < 0) : ¬∃ w : ℤ, (2 : ℚ) ^ k = w :=
  not_exists_int_of_pos_of_lt_one (by positivity) (zpow_lt_one_of_neg₀ one_lt_two hk)

/-- The keys `[2^-1074]` and `[2^-1073]` of one set compare equal, though `2^-1074` is the
smaller. -/
theorem opCacheCompare_underflow_subnormals :
    (¬∃ w : ℤ, minSubnormal.val * 2 ^ (1023 : ℤ) = w) ∧
      (¬∃ w : ℤ, twiceMinSubnormal.val * 2 ^ (1023 : ℤ) = w) ∧
      compare minSubnormal.val twiceMinSubnormal.val = .lt ∧
      ∃ a b, encodeKeys Value.kindHash 0 .SetKind [.number (.finite minSubnormal.val)] = some a ∧
        encodeKeys Value.kindHash 0 .SetKind [.number (.finite twiceMinSubnormal.val)] = some b ∧
        opCacheCompare a b = some .eq ∧
        keysCompare Value.kindHash [.number (.finite minSubnormal.val)]
            [.number (.finite twiceMinSubnormal.val)] =
          compare minSubnormal.val twiceMinSubnormal.val := by
  have hx : ¬∃ w : ℤ, minSubnormal.val * 2 ^ (1023 : ℤ) = w := by
    have h : minSubnormal.val * 2 ^ (1023 : ℤ) = 2 ^ (-51 : ℤ) := by
      simp only [minSubnormal, Binary64.val, Int.cast_one, one_mul, ← zpow_add₀ (two_ne_zero' ℚ)]
      norm_num
    rw [h]
    exact not_exists_int_zpow (by norm_num)
  have hy : ¬∃ w : ℤ, twiceMinSubnormal.val * 2 ^ (1023 : ℤ) = w := by
    have h : twiceMinSubnormal.val * 2 ^ (1023 : ℤ) = 2 ^ (-50 : ℤ) := by
      simp only [twiceMinSubnormal, Binary64.val, Int.cast_one, one_mul,
        ← zpow_add₀ (two_ne_zero' ℚ)]
      norm_num
    rw [h]
    exact not_exists_int_zpow (by norm_num)
  have hlt : compare minSubnormal.val twiceMinSubnormal.val = .lt := by
    rw [compare_lt_iff_lt]
    simp only [minSubnormal, twiceMinSubnormal, Binary64.val, Int.cast_one, one_mul]
    exact zpow_lt_zpow_right₀ one_lt_two (by norm_num)
  exact ⟨hx, hy, hlt, opCacheCompare_underflow Value.kindHash 0 .SetKind .SetKind minSubnormal
    twiceMinSubnormal hx hy⟩

end Noms.Types
