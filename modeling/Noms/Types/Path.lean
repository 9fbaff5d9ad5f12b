import Noms.Types.Value
import Mathlib

/-!
# Paths (`path.go`)

A `Path` is a list of parts: a struct field (`.name`), an index into a list or a map by a
`Bool`, `Number` or `String` value (`[42]`, `["a"]`), an index by hash (`[#h]`), a position
(`@at(n)`), and the type (`@type`); the index and position parts take `@key`. `ParsePath`
reads a path with `constructPath`, a recursive scanner that reads one operator byte and the
part after it. `Path.String` prints a path, each part by its own `String`. A Go string is its
bytes here.

An index is printed by `EncodedIndexValue`, which calls `strconv.FormatBool`,
`strconv.FormatFloat` with format `'f'`, or `strconv.Quote`. `Quote` is modelled byte by byte:
ASCII exactly as Go escapes it, and every byte from `0x80` on copied, as Go copies the UTF-8
encoding of a printable rune. `ParseFloat`, `FormatFloat` and the base32 text of hashes are left
open (`PathText`).

* `parseQuoted_plain`: the scanner of a quoted index reads back a body free of `"` and `\`.
* `parseQuoted_escaped`: it accepts only the escapes `\"` and `\\`, so it refuses the `\n`,
  `\t` or `\x01` that `Quote` writes for a control byte.
* `ParsePath_String_fails`: a `String` index holding a control byte parses from its raw form,
  and its printed form does not parse.
* `ParsePath_nan_not_equals`: an index `[NaN]` parses and prints back to `[NaN]`, yet the path
  does not `Equals` itself, since Go's `!=` compares the `Number`s with `==`.
-/

namespace Noms.Types

/-- The bytes of an ASCII text. -/
def ascii (cs : List Char) : List UInt8 := cs.map Char.toUInt8

/-! ## Paths and their parts -/

/-- An index value: a `Value` that `ValueCanBePathIndex` accepts. -/
inductive IndexValue
  | bool (b : Bool)
  | number (x : Float64)
  | string (s : List UInt8)
deriving DecidableEq

/-- A `PathPart`: `FieldPath`, `IndexPath`, `HashIndexPath`, `AtAnnotation` and
`TypeAnnotation`, with their `IntoKey` flags. -/
inductive PathPart
  | field (name : List UInt8)
  | index (idx : IndexValue) (intoKey : Bool)
  | hashIndex (h : Hash) (intoKey : Bool)
  | at (idx : Int) (intoKey : Bool)
  | type
deriving DecidableEq

/-- `Path`. -/
abbrev Path := List PathPart

/-- `keyIndexable.setIntoKey(true)`; `none` for the parts that are not `keyIndexable`. -/
def PathPart.setIntoKey : PathPart → Option PathPart
  | .index idx _ => some (.index idx true)
  | .hashIndex h _ => some (.hashIndex h true)
  | .at idx _ => some (.at idx true)
  | _ => none

/-- Go's `!=` on two parts, negated: the same kind of part with equal fields, where an index
`Number` compares by `==`. -/
def IndexValue.goEq : IndexValue → IndexValue → Bool
  | .bool a, .bool b => a == b
  | .number x, .number y => x.eq y
  | .string s, .string t => s == t
  | _, _ => false

def PathPart.goEq : PathPart → PathPart → Bool
  | .field a, .field b => a == b
  | .index i k, .index j l => i.goEq j && k == l
  | .hashIndex h k, .hashIndex g l => h == g && k == l
  | .at i k, .at j l => i == j && k == l
  | .type, .type => true
  | _, _ => false

/-- `Path.Equals`: the same length, and no two parts at one position `!=`. -/
def Path.Equals : Path → Path → Bool
  | [], [] => true
  | a :: p, b :: o => a.goEq b && Path.Equals p o
  | _, _ => false

/-- The errors of `ParsePath`. -/
inductive PathError
  /-- `Empty path` -/
  | emptyPath
  /-- `Invalid field: ` and the rest of the path -/
  | invalidField (tail : List UInt8)
  /-- `Path ends in [` -/
  | endsInBracket
  /-- `[ is missing closing ]` -/
  | missingClose
  /-- `Only " and \ can be escaped` -/
  | onlyEscapes
  /-- `Empty index value` -/
  | emptyIndex
  /-- `Invalid hash: ` and the text after `#` -/
  | invalidHash (hashStr : List UInt8)
  /-- `Invalid index: ` and the text of the index -/
  | invalidIndex (idxStr : List UInt8)
  /-- `@at annotation requires a position argument` -/
  | atRequiresPosition
  /-- `Invalid position: ` and the argument -/
  | invalidPosition (arg : List UInt8)
  /-- `@key annotation does not support arguments` -/
  | keyArguments
  /-- `Cannot use @key annotation at beginning of path` -/
  | keyAtBeginning
  /-- `Cannot use @key annotation on: ` and the `String` of the part -/
  | keyOn (part : PathPart)
  /-- `@type annotation does not support arguments` -/
  | typeArguments
  /-- `Unsupported annotation: @` and the annotation -/
  | unsupported (ann : List UInt8)
  /-- `] is missing opening [` -/
  | missingOpen
  /-- `Invalid operator: ` and the operator byte -/
  | invalidOperator (op : UInt8)
deriving DecidableEq

/-- The library conversions of paths that the model leaves open: `strconv.ParseFloat(s, 64)`
(`none` on an error), `strconv.FormatFloat(x, 'f', -1, 64)`, `hash.MaybeParse` (the empty hash
where the text is not a hash) and `Hash.String`. -/
structure PathText where
  parseFloat : List UInt8 → Option Float64
  formatFloat : Float64 → List UInt8
  parseHash : List UInt8 → Hash
  hashString : Hash → List UInt8

variable (tx : PathText)

/-! ## Printing (`PathPart.String`, `EncodedIndexValue`) -/

/-- `lowerhex[n]`, for `n < 16`. -/
def lowerhex (n : UInt8) : UInt8 := if n < 10 then 0x30 + n else 0x61 + (n - 10)

/-- `appendEscapedRune` for one byte, with `quote = '"'`: `"` and `\` backslashed, printable
bytes (and bytes from `0x80` on) as they are, the named escapes, and `\x` with two hex digits
for the other control bytes. -/
def escapeByte (b : UInt8) : List UInt8 :=
  if b = 0x22 ∨ b = 0x5c then [0x5c, b]
  else if (0x20 ≤ b ∧ b < 0x7f) ∨ 0x80 ≤ b then [b]
  else if b = 0x07 then ascii ['\\', 'a']
  else if b = 0x08 then ascii ['\\', 'b']
  else if b = 0x0c then ascii ['\\', 'f']
  else if b = 0x0a then ascii ['\\', 'n']
  else if b = 0x0d then ascii ['\\', 'r']
  else if b = 0x09 then ascii ['\\', 't']
  else if b = 0x0b then ascii ['\\', 'v']
  else ascii ['\\', 'x'] ++ [lowerhex (b >>> 4), lowerhex (b &&& 0xf)]

/-- `strconv.Quote`. -/
def quote (s : List UInt8) : List UInt8 := 0x22 :: s.flatMap escapeByte ++ [0x22]

/-- `%d` of an `int64`. -/
def formatInt (n : Int) : List UInt8 :=
  (if n < 0 then ascii ['-'] else []) ++ ascii (Nat.toDigits 10 n.natAbs)

/-- `"@key"` after a part whose `IntoKey` is set. -/
def keySuffix (intoKey : Bool) : List UInt8 := if intoKey then ascii ['@', 'k', 'e', 'y'] else []

/-- `EncodedIndexValue`: the human-readable text of an index, with numbers in format `'f'`. -/
def EncodedIndexValue : IndexValue → List UInt8
  | .bool b => if b then ascii ['t', 'r', 'u', 'e'] else ascii ['f', 'a', 'l', 's', 'e']
  | .number x => tx.formatFloat x
  | .string s => quote s

/-- `String` of each part. -/
def PathPart.String : PathPart → List UInt8
  | .field name => 0x2e :: name
  | .index idx intoKey => 0x5b :: EncodedIndexValue tx idx ++ 0x5d :: keySuffix intoKey
  | .hashIndex h intoKey => ascii ['[', '#'] ++ tx.hashString h ++ 0x5d :: keySuffix intoKey
  | .at idx intoKey => ascii ['@', 'a', 't', '('] ++ formatInt idx ++ 0x29 :: keySuffix intoKey
  | .type => ascii ['@', 't', 'y', 'p', 'e']

/-- `Path.String`: the parts' texts joined with `""`. -/
def Path.String (p : Path) : List UInt8 := (p.map (PathPart.String tx)).flatten

/-! ## Parsing (`ParsePath`, `constructPath`, `ParsePathIndex`) -/

def isAsciiLetter (c : UInt8) : Bool := (0x41 ≤ c && c ≤ 0x5a) || (0x61 ≤ c && c ≤ 0x7a)

/-- `[a-zA-Z0-9_]`, also the `\w` of a regexp. -/
def isFieldNameByte (c : UInt8) : Bool := isAsciiLetter c || (0x30 ≤ c && c ≤ 0x39) || c == 0x5f

/-- `fieldNameComponentRe.FindIndex`: the end of the longest prefix matching
`^[a-zA-Z][a-zA-Z0-9_]*`, or `none` where nothing matches. -/
def fieldNameEnd : List UInt8 → Option Nat
  | c :: rest => if isAsciiLetter c then some (1 + (rest.takeWhile isFieldNameByte).length) else none
  | [] => none

/-- The loop of `ParsePathIndex` over a quoted index, after the opening quote: the bytes of the
index and the input after the closing quote, or `""` when there is no closing quote. A backslash
before the last byte escapes the byte after it, which must be `\` or `"`. -/
def parseQuoted : List UInt8 → Except PathError (List UInt8 × List UInt8)
  | [] => .ok ([], [])
  | 0x22 :: rest => .ok ([], rest)
  | 0x5c :: e :: rest =>
    if e = 0x5c ∨ e = 0x22 then (parseQuoted rest).map fun (buf, rem) => (e :: buf, rem)
    else .error .onlyEscapes
  | c :: rest => (parseQuoted rest).map fun (buf, rem) => (c :: buf, rem)

/-- What `ParsePathIndex` parsed: an index value (`idx`), or a hash (`h`). -/
inductive IndexOrHash
  | value (v : IndexValue)
  | hash (h : Hash)

/-- The part that `constructPath` appends for an index: `NewIndexPath` or `NewHashIndexPath`. -/
def IndexOrHash.toPathPart : IndexOrHash → PathPart
  | .value v => .index v false
  | .hash h => .hashIndex h false

/-- The unquoted branch of `ParsePathIndex`: the index is the text before the first `]`. -/
def parseUnquoted (str : List UInt8) : Except PathError (IndexOrHash × List UInt8) :=
  let idxStr := str.takeWhile (· != 0x5d)
  let rem := str.dropWhile (· != 0x5d)
  match idxStr with
  | [] => .error .emptyIndex
  | 0x23 :: hashStr =>
    let h := tx.parseHash hashStr
    if h.IsEmpty then .error (.invalidHash hashStr) else .ok (.hash h, rem)
  | _ =>
    if idxStr = ascii ['t', 'r', 'u', 'e'] then .ok (.value (.bool true), rem)
    else if idxStr = ascii ['f', 'a', 'l', 's', 'e'] then .ok (.value (.bool false), rem)
    else match tx.parseFloat idxStr with
      | some x => .ok (.value (.number x), rem)
      | none => .error (.invalidIndex idxStr)

/-- `ParsePathIndex`: the index at the front of `str` and the text after it. -/
def ParsePathIndex (str : List UInt8) : Except PathError (IndexOrHash × List UInt8) :=
  match str with
  | 0x22 :: rest => (parseQuoted rest).map fun (buf, rem) => (.value (.string buf), rem)
  | _ => parseUnquoted tx str

def isLowerByte (c : UInt8) : Bool := 0x61 ≤ c && c ≤ 0x7a

/-- `[\w\-"']`. -/
def isAnnotationArgByte (c : UInt8) : Bool :=
  isFieldNameByte c || c == 0x2d || c == 0x22 || c == 0x27

/-- `getAnnotation`: `annotationRe = ^([a-z]+)(\(([\w\-"']*)\))?` matched at the front of `str`,
giving the annotation, whether the argument group matched, the argument, and the text after the
match; all empty when nothing matches. -/
def getAnnotation (str : List UInt8) : List UInt8 × Bool × List UInt8 × List UInt8 :=
  let ann := str.takeWhile isLowerByte
  if ann = [] then ([], false, [], [])
  else
    let after := str.drop ann.length
    match after with
    | 0x28 :: r =>
      let arg := r.takeWhile isAnnotationArgByte
      match r.drop arg.length with
      | 0x29 :: rem => (ann, true, arg, rem)
      | _ => (ann, false, [], after)
    | _ => (ann, false, [], after)

/-- The decimal value of a nonempty run of digits. -/
def decimalValue (s : List UInt8) : Option Nat :=
  if s ≠ [] ∧ s.all fun c => 0x30 ≤ c && c ≤ 0x39 then
    some (s.foldl (fun n c => 10 * n + (c.toNat - 0x30)) 0)
  else none

/-- `strconv.ParseInt(s, 10, 64)`: an optional sign and decimal digits, within `int64`. -/
def parseInt (s : List UInt8) : Option Int :=
  let (neg, digits) : Bool × List UInt8 := match s with
    | 0x2d :: r => (true, r)
    | 0x2b :: r => (false, r)
    | _ => (false, s)
  (decimalValue digits).bind fun n =>
    let v : Int := if neg then -n else n
    if -2 ^ 63 ≤ v ∧ v < 2 ^ 63 then some v else none

theorem map_eq_ok_iff {ε α β : Type} {f : α → β} {e : Except ε α} {y : β} :
    e.map f = .ok y ↔ ∃ x, e = .ok x ∧ f x = y := by
  cases e <;> simp [Except.map]

/-- The text after a quoted index is a suffix of the input. -/
theorem parseQuoted_suffix {s buf rem : List UInt8} (h : parseQuoted s = .ok (buf, rem)) :
    rem <:+ s := by
  induction s using parseQuoted.induct generalizing buf rem with
  | case1 =>
    simp only [parseQuoted, Except.ok.injEq, Prod.mk.injEq] at h
    obtain ⟨-, rfl⟩ := h
    exact List.nil_suffix
  | case2 rest =>
    simp only [parseQuoted, Except.ok.injEq, Prod.mk.injEq] at h
    obtain ⟨-, rfl⟩ := h
    exact List.suffix_cons _ _
  | case3 e rest hesc ih =>
    rw [parseQuoted.eq_3, if_pos hesc] at h
    obtain ⟨⟨b, r⟩, hq, heq⟩ := map_eq_ok_iff.mp h
    cases heq
    exact (ih hq).trans ((List.suffix_cons _ _).trans (List.suffix_cons _ _))
  | case4 e rest hesc => simp [parseQuoted, if_neg hesc] at h
  | case5 c rest h1 h2 ih =>
    rw [parseQuoted.eq_4 c rest h1 h2] at h
    obtain ⟨⟨b, r⟩, hq, heq⟩ := map_eq_ok_iff.mp h
    cases heq
    exact (ih hq).trans (List.suffix_cons _ _)

/-- So is the text after an unquoted index: the input from its first `]` on. -/
theorem parseUnquoted_rem {str rem : List UInt8} {res : IndexOrHash}
    (h : parseUnquoted tx str = .ok (res, rem)) : rem = str.dropWhile (· != 0x5d) := by
  unfold parseUnquoted at h
  dsimp only at h
  split at h
  · cases h
  · split at h
    · cases h
    · cases h; rfl
  · split_ifs at h
    · cases h; rfl
    · cases h; rfl
    · split at h
      · cases h; rfl
      · cases h

/-- And the text after any index. -/
theorem ParsePathIndex_suffix {str rem : List UInt8} {res : IndexOrHash}
    (h : ParsePathIndex tx str = .ok (res, rem)) : rem <:+ str := by
  unfold ParsePathIndex at h
  split at h
  · obtain ⟨⟨b, r⟩, hq, heq⟩ := map_eq_ok_iff.mp h
    cases heq
    exact (parseQuoted_suffix hq).trans (List.suffix_cons _ _)
  · rw [parseUnquoted_rem tx h]
    exact List.dropWhile_suffix _

/-- And the text after an annotation. -/
theorem getAnnotation_suffix {str ann arg rem : List UInt8} {hasArg : Bool}
    (h : getAnnotation str = (ann, hasArg, arg, rem)) : rem <:+ str := by
  have hrem := congrArg (fun x => x.2.2.2) h
  dsimp only at hrem
  rw [← hrem]
  unfold getAnnotation
  dsimp only
  split
  · exact List.nil_suffix
  · have hdrop : str.drop (str.takeWhile isLowerByte).length <:+ str := List.drop_suffix _ _
    split
    · rename_i r hafter
      split
      · rename_i rem hrem
        have h1 : 0x29 :: rem <:+ r := hrem ▸ List.drop_suffix _ _
        exact ((List.suffix_cons _ _).trans h1).trans ((hafter ▸ List.suffix_cons _ _).trans hdrop)
      · exact hdrop
    · exact hdrop

-- `hidx` is used by the termination proof only
set_option linter.unusedVariables false in
/-- `constructPath`: reads the operator at the front of `str` and the part after it, appends the
part to `p`, and goes on with the rest. -/
def constructPath (p : Path) (str : List UInt8) : Except PathError Path :=
  match str with
  | [] => .ok p
  | op :: tail =>
    if op = 0x2e then
      match fieldNameEnd tail with
      | none => .error (.invalidField tail)
      | some n => constructPath (p ++ [.field (tail.take n)]) (tail.drop n)
    else if op = 0x5b then
      if tail = [] then .error .endsInBracket
      else
        match hidx : ParsePathIndex tx tail with
        | .error e => .error e
        | .ok (res, rem) =>
          match rem with
          | 0x5d :: rem' => constructPath (p ++ [res.toPathPart]) rem'
          | _ => .error .missingClose
    else if op = 0x40 then
      match hg : getAnnotation tail with
      | (ann, hasArg, arg, rem) =>
        if ann = ascii ['a', 't'] then
          if arg = [] then .error .atRequiresPosition
          else match parseInt arg with
            | none => .error (.invalidPosition arg)
            | some idx => constructPath (p ++ [.at idx false]) rem
        else if ann = ascii ['k', 'e', 'y'] then
          if hasArg then .error .keyArguments
          else match p.getLast? with
            | none => .error .keyAtBeginning
            | some last =>
              match last.setIntoKey with
              | some last' => constructPath (p.dropLast ++ [last']) rem
              | none => .error (.keyOn last)
        else if ann = ascii ['t', 'y', 'p', 'e'] then
          if hasArg then .error .typeArguments else constructPath (p ++ [.type]) rem
        else .error (.unsupported ann)
    else if op = 0x5d then .error .missingOpen
    else .error (.invalidOperator op)
termination_by str.length
decreasing_by
  all_goals simp only [List.length_cons]
  · simp only [List.length_drop]
    omega
  · have := (ParsePathIndex_suffix tx hidx).length_le
    simp only [List.length_cons] at this
    omega
  all_goals
    have := (getAnnotation_suffix hg).length_le
    omega

/-- `ParsePath`. -/
def ParsePath (str : List UInt8) : Except PathError Path :=
  if str = [] then .error .emptyPath else constructPath tx [] str

/-! ## One step of `constructPath` per operator -/

/-- An index closed by `]`: its part is appended and the scan goes on after the `]`. -/
theorem constructPath_index {p : Path} {tail rem : List UInt8} {res : IndexOrHash}
    (h : ParsePathIndex tx tail = .ok (res, 0x5d :: rem)) :
    constructPath tx p (0x5b :: tail) = constructPath tx (p ++ [res.toPathPart]) rem := by
  have htail : tail ≠ [] := by rintro rfl; simp [ParsePathIndex, parseUnquoted] at h
  rw [constructPath]
  simp only [show (0x5b : UInt8) ≠ 0x2e by decide, if_false, if_true, htail]
  split
  · simp_all
  · rename_i res' rem' h'
    rw [h] at h'
    cases h'
    rfl

/-- An index that does not parse ends the scan with its error. -/
theorem constructPath_index_error {p : Path} {tail : List UInt8} {e : PathError}
    (htail : tail ≠ []) (h : ParsePathIndex tx tail = .error e) :
    constructPath tx p (0x5b :: tail) = .error e := by
  rw [constructPath]
  simp only [show (0x5b : UInt8) ≠ 0x2e by decide, if_false, if_true, htail]
  split
  · simp_all
  · simp_all

/-- A byte that is not an operator ends the scan. -/
theorem constructPath_invalidOperator {p : Path} {op : UInt8} {tail : List UInt8}
    (hdot : op ≠ 0x2e) (hopen : op ≠ 0x5b) (hat : op ≠ 0x40) (hclose : op ≠ 0x5d) :
    constructPath tx p (op :: tail) = .error (.invalidOperator op) := by
  rw [constructPath]
  simp only [hdot, hopen, hat, hclose, if_false]

/-! ## Quoted indices -/

/-- A quoted body free of `"` and `\` is read back as it is. -/
theorem parseQuoted_plain (rest : List UInt8) :
    ∀ t : List UInt8, (∀ b ∈ t, b ≠ 0x22 ∧ b ≠ 0x5c) →
      parseQuoted (t ++ 0x22 :: rest) = .ok (t, rest)
  | [], _ => by rw [List.nil_append, parseQuoted.eq_2]
  | b :: t, h => by
    obtain ⟨hq, hs⟩ := h b List.mem_cons_self
    rw [List.cons_append, parseQuoted.eq_4 b _ hq (fun _ _ hb _ => hs hb),
      parseQuoted_plain rest t fun c hc => h c (List.mem_cons_of_mem b hc)]
    rfl

/-- `Quote` keeps a byte that is neither a control byte nor `"` nor `\`. -/
theorem escapeByte_of_plain {b : UInt8} (hlo : 0x20 ≤ b) (hdel : b ≠ 0x7f) (hq : b ≠ 0x22)
    (hs : b ≠ 0x5c) : escapeByte b = [b] := by
  have hprint : (0x20 ≤ b ∧ b < 0x7f) ∨ 0x80 ≤ b := by
    simp only [UInt8.le_iff_toNat_le, UInt8.lt_iff_toNat_lt, ne_eq, ← UInt8.toNat_inj,
      UInt8.reduceToNat] at hlo hdel ⊢
    omega
  rw [escapeByte, if_neg (not_or.mpr ⟨hq, hs⟩), if_pos hprint]

/-- `Quote` writes a control byte as a backslash and a byte that is neither `\` nor `"`. -/
theorem escapeByte_of_control {b : UInt8} (hb : b < 0x20 ∨ b = 0x7f) :
    ∃ e r, escapeByte b = 0x5c :: e :: r ∧ ¬(e = 0x5c ∨ e = 0x22) := by
  have hnq : ¬(b = 0x22 ∨ b = 0x5c) := by
    simp only [UInt8.lt_iff_toNat_lt, ← UInt8.toNat_inj, UInt8.reduceToNat] at hb ⊢
    omega
  have hnp : ¬((0x20 ≤ b ∧ b < 0x7f) ∨ 0x80 ≤ b) := by
    simp only [UInt8.le_iff_toNat_le, UInt8.lt_iff_toNat_lt, ← UInt8.toNat_inj,
      UInt8.reduceToNat] at hb ⊢
    omega
  rw [escapeByte, if_neg hnq, if_neg hnp]
  split_ifs <;> exact ⟨_, _, rfl, by decide⟩

/-- The printed body of a string holding a control byte, and no `"` or `\`, does not scan:
its first escape is neither `\"` nor `\\`. -/
theorem parseQuoted_escaped (rest : List UInt8) :
    ∀ t : List UInt8, (∀ b ∈ t, b ≠ 0x22 ∧ b ≠ 0x5c) → (∃ b ∈ t, b < 0x20 ∨ b = 0x7f) →
      parseQuoted (t.flatMap escapeByte ++ rest) = .error .onlyEscapes
  | [], _, ⟨_, hb, _⟩ => absurd hb List.not_mem_nil
  | b :: t, hplain, hctl => by
    obtain ⟨hq, hs⟩ := hplain b List.mem_cons_self
    by_cases hb : b < 0x20 ∨ b = 0x7f
    · -- the first byte is a control byte: its escape stops the scan
      obtain ⟨e, r, hesc, he⟩ := escapeByte_of_control hb
      simp only [List.flatMap_cons, hesc, List.cons_append]
      rw [parseQuoted.eq_3, if_neg he]
    · -- a plain first byte is read as itself, and the control byte comes later
      have hlo : 0x20 ≤ b := by
        simp only [UInt8.le_iff_toNat_le, UInt8.lt_iff_toNat_lt, not_or] at hb ⊢
        omega
      have hctl' : ∃ c ∈ t, c < 0x20 ∨ c = 0x7f := by
        obtain ⟨c, hc, hcc⟩ := hctl
        rcases List.mem_cons.mp hc with rfl | hc
        · exact absurd hcc hb
        · exact ⟨c, hc, hcc⟩
      rw [List.flatMap_cons, escapeByte_of_plain hlo (fun h => hb (Or.inr h)) hq hs,
        List.singleton_append, List.cons_append, parseQuoted.eq_4 b _ hq (fun _ _ h _ => hs h),
        parseQuoted_escaped rest t (fun c hc => hplain c (List.mem_cons_of_mem b hc)) hctl']
      rfl

/-! ## The round trip -/

/-- The printed form of a single `String` index. -/
theorem String_index_string (t : List UInt8) :
    Path.String tx [.index (.string t) false] =
      0x5b :: 0x22 :: (t.flatMap escapeByte ++ [0x22, 0x5d]) := by
  simp [Path.String, PathPart.String, EncodedIndexValue, quote, keySuffix]

/-- A quoted index `["t"]` whose body has no `"` or `\` parses to `[IndexPath(String(t))]`: the
body is read as it is, and `]` closes the index. -/
theorem ParsePath_quoted (t : List UInt8) (hplain : ∀ b ∈ t, b ≠ 0x22 ∧ b ≠ 0x5c) :
    ParsePath tx (0x5b :: 0x22 :: (t ++ [0x22, 0x5d])) = .ok [.index (.string t) false] := by
  have hidx : ParsePathIndex tx (0x22 :: (t ++ [0x22, 0x5d])) =
      .ok (.value (.string t), [0x5d]) := by
    simp only [ParsePathIndex, parseQuoted_plain [0x5d] t hplain]
    rfl
  rw [ParsePath, if_neg (List.cons_ne_nil _ _), constructPath_index tx hidx, constructPath]
  rfl

/-- A `String` index holding a control byte, and no `"` or `\`, breaks the round trip: its raw
form `["t"]` parses to the path `[IndexPath(String(t))]`, and the `String` of that path, where
`Quote` escapes the control byte, does not parse. -/
theorem ParsePath_String_fails (t : List UInt8) (hplain : ∀ b ∈ t, b ≠ 0x22 ∧ b ≠ 0x5c)
    (hctl : ∃ b ∈ t, b < 0x20 ∨ b = 0x7f) :
    ParsePath tx (0x5b :: 0x22 :: (t ++ [0x22, 0x5d])) = .ok [.index (.string t) false] ∧
      ParsePath tx (Path.String tx [.index (.string t) false]) = .error .onlyEscapes := by
  refine ⟨ParsePath_quoted tx t hplain, ?_⟩
  -- the printed body stops at the escape of the control byte
  have hidx : ParsePathIndex tx (0x22 :: (t.flatMap escapeByte ++ [0x22, 0x5d])) =
      .error .onlyEscapes := by
    simp only [ParsePathIndex, parseQuoted_escaped [0x22, 0x5d] t hplain hctl]
    rfl
  rw [String_index_string, ParsePath, if_neg (List.cons_ne_nil _ _),
    constructPath_index_error tx (List.cons_ne_nil _ _) hidx]

/-- A `PathText` that reads no number and no hash. -/
def PathText.blank : PathText := ⟨fun _ => none, fun _ => [], fun _ => Hash.empty, fun _ => []⟩

/-- The index of `TestPathParseSuccess`, `"line\nbreak\rreturn"` with a raw newline and
carriage return, parses, and its printed form does not. -/
theorem ParsePath_String_fails_lineBreak :
    ParsePath .blank (0x5b :: 0x22 :: (ascii ['l', 'i', 'n', 'e', '\n', 'b', 'r', 'e', 'a', 'k',
        '\r', 'r', 'e', 't', 'u', 'r', 'n'] ++ [0x22, 0x5d])) =
      .ok [.index (.string (ascii ['l', 'i', 'n', 'e', '\n', 'b', 'r', 'e', 'a', 'k', '\r', 'r',
        'e', 't', 'u', 'r', 'n'])) false] ∧
    ParsePath .blank (Path.String .blank [.index (.string (ascii ['l', 'i', 'n', 'e', '\n', 'b',
        'r', 'e', 'a', 'k', '\r', 'r', 'e', 't', 'u', 'r', 'n'])) false]) = .error .onlyEscapes :=
  ParsePath_String_fails .blank _ (by decide +kernel) (by decide +kernel)

/-- `[NaN]`: with Go's `ParseFloat("NaN")`, NaN, and `FormatFloat` of NaN, `NaN`, the path
parses and prints back to its text, and it does not `Equals` itself, because `!=` compares the
two `Number(NaN)` with `==`. -/
theorem ParsePath_nan_not_equals (hparse : tx.parseFloat (ascii ['N', 'a', 'N']) = some .nan)
    (hformat : tx.formatFloat .nan = ascii ['N', 'a', 'N']) :
    ParsePath tx (ascii ['[', 'N', 'a', 'N', ']']) = .ok [.index (.number .nan) false] ∧
      Path.String tx [.index (.number .nan) false] = ascii ['[', 'N', 'a', 'N', ']'] ∧
      Path.Equals [.index (.number .nan) false] [.index (.number .nan) false] = false := by
  have hidx : ParsePathIndex tx (ascii ['N', 'a', 'N', ']']) = .ok (.value (.number .nan), [0x5d]) := by
    have hnan : ascii ['N', 'a', 'N'] = [0x4e, 0x61, 0x4e] := rfl
    rw [hnan] at hparse
    rw [show ascii ['N', 'a', 'N', ']'] = [0x4e, 0x61, 0x4e, 0x5d] from rfl]
    simp +decide [ParsePathIndex, parseUnquoted, hparse]
  refine ⟨?_, ?_, rfl⟩
  · rw [show ascii ['[', 'N', 'a', 'N', ']'] = 0x5b :: ascii ['N', 'a', 'N', ']'] from rfl, ParsePath,
      if_neg (List.cons_ne_nil _ _), constructPath_index tx hidx, constructPath]
    rfl
  · simp only [Path.String, List.map_cons, List.map_nil, List.flatten_cons, List.flatten_nil,
      List.append_nil, PathPart.String, EncodedIndexValue, hformat, keySuffix]
    rfl

end Noms.Types
