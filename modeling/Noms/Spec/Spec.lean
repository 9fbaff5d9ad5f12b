import Noms.Types.Path
import Noms.Hash.Base32
import Noms.Lib.LastIndex

/-!
# Spec strings (`go/spec`)

A spec names a database, a dataset in it, or a path to a value: `ldb:/tmp/db::ds.field`.
`parseDatabaseSpec` reads the database part (`mem`, `ldb:` and `nbs:` paths, a bare path, which
is `ldb`, and `http(s)` URLs); `splitDatabaseSpec` cuts a spec at the last `::`; `NewAbsolutePath`
reads what follows, a dataset name or `#` and a hash, then a path of `types.ParsePath`.
`AbsolutePath.String` prints one back, and `Pin` builds the spec of the head of a spec's dataset
by concatenating `Protocol + DatabaseName + "::" + "#" + hash`.

A spec whose path text holds no `::` reads back its database and its path
(`ForPathOpts_of_split`). Two things break the round trip:
* a quoted index may hold `::`, and the last `::` of the spec is then inside the path;
* `Pin` drops the `:` between the protocol and the database name, so `nbs:/tmp/db` becomes
  `nbs/tmp/db`, a bare path, that is the `ldb` database of that name.

Strings are bytes. `url.Parse` is left open, by the host of the URL it returns (`SpecText`);
the database a spec opens is left open by the head it gives each dataset name (`headOf`).
-/

namespace Noms.Spec

open Noms.Lib Noms.Types Noms.Hash

/-- The library calls that the model leaves open: the `Host` of `url.Parse(spec)` (`none` where
it fails), and the conversions of `types.ParsePath`. -/
structure SpecText where
  urlHost : List UInt8 → Option (List UInt8)
  path : PathText

/-- The errors of the spec parsers, with what their messages print. -/
inductive SpecError
  /-- `Empty spec` -/
  | emptySpec
  /-- the error of `url.Parse` -/
  | urlError (spec : List UInt8)
  /-- `%s has empty host` -/
  | emptyHost (spec : List UInt8)
  /-- `In-memory database must be specified as "mem", not "mem:"` -/
  | memWithColon
  /-- `Invalid database protocol %s in %s` -/
  | invalidProtocol (protocol spec : List UInt8)
  /-- `Missing :: after database in %s` -/
  | missingSeparator (spec : List UInt8)
  /-- `Dataset %s must match %s` -/
  | invalidDataset (dsName : List UInt8)
  /-- `Empty path` -/
  | emptyPath
  /-- `Invalid hash: ` and the text -/
  | invalidHash (text : List UInt8)
  /-- `Invalid dataset name: %s` -/
  | invalidDatasetName (str : List UInt8)
  /-- an error of `types.ParsePath` -/
  | path (e : PathError)
deriving DecidableEq

/-- `Separator`, `::`. -/
def Separator : List UInt8 := ascii [':', ':']

def protoMem : List UInt8 := ascii ['m', 'e', 'm']
def protoLdb : List UInt8 := ascii ['l', 'd', 'b']
def protoNbs : List UInt8 := ascii ['n', 'b', 's']
def protoHttp : List UInt8 := ascii ['h', 't', 't', 'p']
def protoHttps : List UInt8 := ascii ['h', 't', 't', 'p', 's']

variable (tt : SpecText)

/-! ## Databases -/

/-- `strings.SplitN(spec, ":", 2)` when it gives two parts: the text before the first `:` and
the text after it. -/
def splitColon (spec : List UInt8) : Option (List UInt8 × List UInt8) :=
  (spec.idxOf? 0x3a).map fun i => (spec.take i, spec.drop (i + 1))

/-- `parseDatabaseSpec(spec)`: the protocol and the database name. The message of an unknown
protocol prints the named result `protocol`, which is still empty there. -/
def parseDatabaseSpec (spec : List UInt8) : Except SpecError (List UInt8 × List UInt8) :=
  if spec = [] then .error .emptySpec
  else
    match splitColon spec with
    | none => if spec = protoMem then .ok (protoMem, []) else .ok (protoLdb, spec)
    | some (proto, name) =>
      if proto = protoLdb ∨ proto = protoNbs then .ok (proto, name)
      else if proto = protoHttp ∨ proto = protoHttps then
        match tt.urlHost spec with
        | none => .error (.urlError spec)
        | some host => if host = [] then .error (.emptyHost spec) else .ok (proto, name)
      else if proto = protoMem then .error .memWithColon
      else .error (.invalidProtocol [] spec)

/-- `splitDatabaseSpec(spec)`: the text before the last `::` and the text after it. -/
def splitDatabaseSpec (spec : List UInt8) : Except SpecError (List UInt8 × List UInt8) :=
  match lastIndex Separator spec with
  | none => .error (.missingSeparator spec)
  | some i => .ok (spec.take i, spec.drop (i + Separator.length))

/-! ## Absolute paths -/

/-- A byte of `DatasetRe`, `[a-zA-Z0-9\-_/]`. -/
def isDatasetByte (c : UInt8) : Bool :=
  isAsciiLetter c || (0x30 ≤ c && c ≤ 0x39) || c == 0x2d || c == 0x5f || c == 0x2f

/-- `datasetRe.MatchString(s)`, for `^[a-zA-Z0-9\-_/]+$`. -/
def datasetMatches (s : List UInt8) : Bool := !s.isEmpty && s.all isDatasetByte

/-- `Hash.String()`, as bytes. -/
def hashText (h : Hash) : List UInt8 := ascii (string h).toList

/-- `hash.MaybeParse(s)` on the bytes `s`. -/
def maybeParseBytes (s : List UInt8) : Option (Hash × Bool) :=
  maybeParse (String.ofList (s.map fun b => Char.ofNat b.toNat))

/-- An `AbsolutePath`: a dataset name or a hash, and a path. -/
structure AbsolutePath where
  dataset : List UInt8
  hash : Hash
  path : Path
deriving DecidableEq

/-- The zero `AbsolutePath`. -/
def AbsolutePath.zero : AbsolutePath := ⟨[], emptyHash, []⟩

/-- `p.IsEmpty()`. -/
def AbsolutePath.IsEmpty (p : AbsolutePath) : Bool := p.dataset.isEmpty && p.hash.IsEmpty

/-- The start of `NewAbsolutePath(str)` on a nonempty `str`: the dataset, the hash, and the path
text after them. A hash that `MaybeParse` refuses (or one it cannot build, which the pattern
rules out) is an `Invalid hash`. -/
def absoluteStart (str : List UInt8) :
    Except SpecError (List UInt8 × Hash × List UInt8) :=
  match str with
  | 0x23 :: tail =>
    if tail.length < StringLen then .error (.invalidHash tail)
    else
      match maybeParseBytes (tail.take StringLen) with
      | some (h, true) => .ok ([], h, tail.drop StringLen)
      | _ => .error (.invalidHash (tail.take StringLen))
  | _ =>
    -- `datasetCapturePrefixRe`, `^([a-zA-Z0-9\-_/]+)`, takes the longest prefix
    let dataset := str.takeWhile isDatasetByte
    if dataset = [] then .error (.invalidDatasetName str)
    else .ok (dataset, emptyHash, str.drop dataset.length)

/-- `NewAbsolutePath(str)`. -/
def NewAbsolutePath (str : List UInt8) : Except SpecError AbsolutePath :=
  if str = [] then .error .emptyPath
  else
    (absoluteStart str).bind fun (dataset, h, pathStr) =>
      if pathStr = [] then .ok ⟨dataset, h, []⟩
      else
        match ParsePath tt.path pathStr with
        | .error e => .error (.path e)
        | .ok path => .ok ⟨dataset, h, path⟩

/-- `p.String()`; `none` for the `panic("Unreachable")` of a path with neither a dataset nor a
hash. -/
def AbsolutePath.String (p : AbsolutePath) : Option (List UInt8) :=
  if p.dataset ≠ [] then some (p.dataset ++ Path.String tt.path p.path)
  else if !p.hash.IsEmpty then some (0x23 :: hashText p.hash ++ Path.String tt.path p.path)
  else none

/-! ## Specs -/

/-- A `Spec`, without its options and its lazily opened database. -/
structure Spec where
  spec : List UInt8
  protocol : List UInt8
  databaseName : List UInt8
  datasetName : List UInt8
  path : AbsolutePath
deriving DecidableEq

/-- `newSpec(spec, dbSpec, opts)`. -/
def newSpec (spec dbSpec : List UInt8) : Except SpecError Spec :=
  (parseDatabaseSpec tt dbSpec).map fun (protocol, dbName) =>
    ⟨spec, protocol, dbName, [], .zero⟩

/-- `ForDatabaseOpts(spec, opts)`. -/
def ForDatabaseOpts (spec : List UInt8) : Except SpecError Spec := newSpec tt spec spec

/-- `ForDatasetOpts(spec, opts)`. -/
def ForDatasetOpts (spec : List UInt8) : Except SpecError Spec := do
  let (dbSpec, dsName) ← splitDatabaseSpec spec
  if !datasetMatches dsName then .error (.invalidDataset dsName)
  else
    let sp ← newSpec tt spec dbSpec
    pure { sp with datasetName := dsName }

/-- `ForPathOpts(spec, opts)`. -/
def ForPathOpts (spec : List UInt8) : Except SpecError Spec := do
  let (dbSpec, pathStr) ← splitDatabaseSpec spec
  let path ← NewAbsolutePath tt pathStr
  let sp ← newSpec tt spec dbSpec
  pure { sp with path := path }

/-- `sp.Pin()`, where the database gives the head commit of each dataset name by `headOf`:
`some (some pinned)` for `(pinned, true)`, `some none` for `(Spec{}, false)`, and `none` for the
panic of `d.PanicIfError` when the pinned spec does not parse. A spec of a database alone has
the zero dataset, which has no head. -/
def Spec.Pin (headOf : List UInt8 → Option Hash) (sp : Spec) : Option (Option Spec) :=
  if !sp.path.IsEmpty && !sp.path.hash.IsEmpty then some (some sp)
  else
    let head :=
      if !sp.path.IsEmpty then headOf sp.path.dataset
      else if sp.datasetName ≠ [] then headOf sp.datasetName
      else none
    match head with
    | none => some none
    | some commit =>
      let spec := sp.protocol ++ sp.databaseName ++ Separator ++ 0x23 :: hashText commit ++
        (if sp.path.path ≠ [] then Path.String tt.path sp.path.path else [])
      match ForPathOpts tt spec with
      | .ok pinned => some (some pinned)
      | .error _ => none

/-! ## Hashes as text -/

theorem ofNat_toUInt8_symbol : ∀ d < 32, Char.ofNat (symbol d).toUInt8.toNat = symbol d := by
  decide

theorem toUInt8_symbol_ne_colon : ∀ d < 32, (symbol d).toUInt8 ≠ 0x3a := by
  decide

theorem hashText_eq (h : Hash) :
    hashText h = (beDigits 32 32 (beNat h.bytes)).map fun d => (symbol d).toUInt8 := by
  rw [hashText, ascii, toList_string, List.map_map]
  rfl

theorem length_hashText (h : Hash) : (hashText h).length = StringLen := by
  rw [hashText_eq, List.length_map, length_beDigits, StringLen]

theorem colon_not_mem_hashText (h : Hash) : (0x3a : UInt8) ∉ hashText h := by
  rw [hashText_eq]
  intro hmem
  obtain ⟨d, hd, heq⟩ := List.mem_map.mp hmem
  exact toUInt8_symbol_ne_colon d (lt_of_mem_digits hd) heq

/-- The text of a hash reads back as that hash. -/
theorem maybeParseBytes_hashText (h : Hash) : maybeParseBytes (hashText h) = some (h, true) := by
  have hchars : (hashText h).map (fun b => Char.ofNat b.toNat) = (string h).toList := by
    rw [hashText_eq, List.map_map, toList_string]
    apply List.map_congr_left
    intro d hd
    exact ofNat_toUInt8_symbol d (lt_of_mem_digits hd)
  rw [maybeParseBytes, hchars, String.ofList_toList, maybeParse_string]

/-- `#` and the text of a hash is the absolute path of that hash. -/
theorem NewAbsolutePath_hash (h : Hash) :
    NewAbsolutePath tt (0x23 :: hashText h) = .ok ⟨[], h, []⟩ := by
  have htake : (hashText h).take StringLen = hashText h :=
    List.take_of_length_le (Nat.le_of_eq (length_hashText h))
  have hdrop : (hashText h).drop StringLen = [] :=
    List.drop_of_length_le (Nat.le_of_eq (length_hashText h))
  have hstart : absoluteStart (0x23 :: hashText h) = .ok ([], h, []) := by
    rw [absoluteStart, if_neg (by rw [length_hashText]; exact Nat.lt_irrefl _), htake,
      maybeParseBytes_hashText, hdrop]
  rw [NewAbsolutePath, if_neg (List.cons_ne_nil _ _), hstart]
  rfl

/-! ## Splitting at the last `::` -/

theorem Separator_eq : Separator = [0x3a, 0x3a] := rfl

/-- A text with no `:` after a `:` holds no `::`. -/
theorem no_separator_after_colon {t : List UInt8} (ht : (0x3a : UInt8) ∉ t) :
    ¬Separator <:+: 0x3a :: t := by
  rw [Separator_eq]
  intro hinf
  rcases List.infix_cons_iff.mp hinf with ⟨r, hr⟩ | hin
  · -- a `::` at the front puts a `:` at the head of `t`
    simp only [List.cons_append, List.nil_append, List.cons.injEq] at hr
    rw [← hr.2] at ht
    exact ht List.mem_cons_self
  · exact ht (hin.subset List.mem_cons_self)

/-- A spec of a database text, `::` and a text with no `::` after a `:` splits at that `::`. -/
theorem splitDatabaseSpec_append {D t : List UInt8} (hsep : ¬Separator <:+: 0x3a :: t) :
    splitDatabaseSpec (D ++ Separator ++ t) = .ok (D, t) := by
  have hlast : lastIndex Separator (Separator ++ t) = some 0 := by
    have hnone : lastIndex Separator (0x3a :: t) = none := lastIndex_eq_none_iff.mpr hsep
    rw [Separator_eq]
    exact lastIndex_cons_of_none (by rwa [Separator_eq] at hnone) ⟨t, rfl⟩
  have hidx := lastIndex_append hlast D
  rw [List.append_assoc, splitDatabaseSpec, hidx]
  dsimp only
  rw [Nat.add_zero, List.take_left, List.drop_length_add_append, List.drop_left]

/-- The round trip where it holds: a spec made of a database text, `::` and the text of an
absolute path with no `::` after a `:` reads back the database and the path. -/
theorem ForPathOpts_of_split {D t proto name : List UInt8} {p : AbsolutePath}
    (hD : parseDatabaseSpec tt D = .ok (proto, name)) (hp : NewAbsolutePath tt t = .ok p)
    (hsep : ¬Separator <:+: 0x3a :: t) :
    ForPathOpts tt (D ++ Separator ++ t) = .ok ⟨D ++ Separator ++ t, proto, name, [], p⟩ := by
  rw [ForPathOpts, splitDatabaseSpec_append hsep]
  simp only [bind, Except.bind, hp, newSpec, hD, Except.map, pure, Except.pure]

theorem ForPathOpts_of_split_mem_ds :
    parseDatabaseSpec ⟨fun _ => none, .blank⟩ protoMem = .ok (protoMem, []) ∧
      NewAbsolutePath ⟨fun _ => none, .blank⟩ (ascii ['d', 's']) =
        .ok ⟨ascii ['d', 's'], emptyHash, []⟩ ∧
      ¬Separator <:+: 0x3a :: ascii ['d', 's'] ∧
      ForPathOpts ⟨fun _ => none, .blank⟩ (protoMem ++ Separator ++ ascii ['d', 's']) =
        .ok ⟨protoMem ++ Separator ++ ascii ['d', 's'], protoMem, [], [],
          ⟨ascii ['d', 's'], emptyHash, []⟩⟩ :=
  ⟨rfl, rfl, no_separator_after_colon (by decide),
    ForPathOpts_of_split ⟨fun _ => none, .blank⟩ rfl rfl (no_separator_after_colon (by decide))⟩

/-! ## Where the round trip breaks -/

theorem NewAbsolutePath_of_start {str dataset pathStr : List UInt8} {h : Hash}
    (hne : str ≠ []) (hs : absoluteStart str = .ok (dataset, h, pathStr)) (hpne : pathStr ≠ []) :
    NewAbsolutePath tt str =
      match ParsePath tt.path pathStr with
      | .error e => .error (.path e)
      | .ok path => .ok ⟨dataset, h, path⟩ := by
  rw [NewAbsolutePath, if_neg hne, hs]
  exact if_neg hpne

/-- `Pin` of a spec of a dataset with a head: the spec of `#` and the head's hash, in the
database text `Protocol + DatabaseName`. -/
theorem Pin_of_head {sp : Spec} {headOf : List UInt8 → Option Hash} {h : Hash}
    (hpath : sp.path = .zero) (hds : sp.datasetName ≠ []) (hhead : headOf sp.datasetName = some h)
    {pinned : Spec}
    (hpin : ForPathOpts tt (sp.protocol ++ sp.databaseName ++ Separator ++ 0x23 :: hashText h) =
      .ok pinned) :
    sp.Pin tt headOf = some (some pinned) := by
  have hzero : AbsolutePath.zero.IsEmpty = true := rfl
  have hnopath : AbsolutePath.zero.path = [] := rfl
  rw [Spec.Pin, hpath]
  simp only [hzero, Bool.not_true, Bool.false_and, Bool.false_eq_true, if_false, ne_eq, hds,
    not_false_eq_true, if_true, hhead, hnopath, not_true_eq_false, List.append_nil, hpin]

/-- Both ways a spec fails to read back. A path whose index holds `::` is accepted and prints to
its own text, and a spec of any database text, `::` and that text cuts at the `::` inside the index
and does not parse. And `Pin` of the dataset `nbs:/tmp/db::ds`, whatever its head, gives a spec of
the `ldb` database `nbs/tmp/db`. -/
theorem spec_roundtrip_and_pin_break (D : List UInt8) {headOf : List UInt8 → Option Hash}
    {h : Hash} (hhead : headOf (ascii ['d', 's']) = some h) :
    NewAbsolutePath tt (ascii ['d', 's', '[', '"', 'a', ':', ':', 'b', '"', ']']) =
        .ok ⟨ascii ['d', 's'], emptyHash, [.index (.string (ascii ['a', ':', ':', 'b'])) false]⟩ ∧
      AbsolutePath.String tt
          ⟨ascii ['d', 's'], emptyHash, [.index (.string (ascii ['a', ':', ':', 'b'])) false]⟩ =
        some (ascii ['d', 's', '[', '"', 'a', ':', ':', 'b', '"', ']']) ∧
      ForPathOpts tt (D ++ Separator ++ ascii ['d', 's', '[', '"', 'a', ':', ':', 'b', '"', ']']) =
        .error (.path (.invalidOperator 0x22)) ∧
      ∃ sp pinned,
        ForDatasetOpts tt (ascii ['n', 'b', 's', ':', '/', 't', 'm', 'p', '/', 'd', 'b', ':', ':',
          'd', 's']) = .ok sp ∧
        sp.protocol = protoNbs ∧ sp.databaseName = ascii ['/', 't', 'm', 'p', '/', 'd', 'b'] ∧
        sp.Pin tt headOf = some (some pinned) ∧
        pinned.protocol = protoLdb ∧
        pinned.databaseName = ascii ['n', 'b', 's', '/', 't', 'm', 'p', '/', 'd', 'b'] := by
  -- the index `["a::b"]` parses, and prints back to its text
  have hquoted := ParsePath_quoted tt.path (ascii ['a', ':', ':', 'b']) (by decide +kernel)
  have hstart : absoluteStart (ascii ['d', 's', '[', '"', 'a', ':', ':', 'b', '"', ']']) =
      .ok (ascii ['d', 's'], emptyHash,
        0x5b :: 0x22 :: (ascii ['a', ':', ':', 'b'] ++ [0x22, 0x5d])) :=
    rfl
  have hread : NewAbsolutePath tt (ascii ['d', 's', '[', '"', 'a', ':', ':', 'b', '"', ']']) =
      .ok ⟨ascii ['d', 's'], emptyHash, [.index (.string (ascii ['a', ':', ':', 'b'])) false]⟩ := by
    rw [NewAbsolutePath_of_start tt (by decide) hstart (List.cons_ne_nil _ _), hquoted]
  have hprint : AbsolutePath.String tt
      ⟨ascii ['d', 's'], emptyHash, [.index (.string (ascii ['a', ':', ':', 'b'])) false]⟩ =
      some (ascii ['d', 's', '[', '"', 'a', ':', ':', 'b', '"', ']']) := by
    rw [AbsolutePath.String, if_pos (by decide), String_index_string]
    rfl
  -- the last `::` of the spec is the one inside the index
  have hsplit : splitDatabaseSpec (D ++ Separator ++
      ascii ['d', 's', '[', '"', 'a', ':', ':', 'b', '"', ']']) =
      .ok ((D ++ Separator ++ ascii ['d', 's', '[', '"', 'a', ':', ':', 'b', '"', ']']).take
        (D.length + 7), ascii ['b', '"', ']']) := by
    have hlast : lastIndex Separator
        (Separator ++ ascii ['d', 's', '[', '"', 'a', ':', ':', 'b', '"', ']']) = some 7 := by
      decide
    rw [splitDatabaseSpec, List.append_assoc, lastIndex_append hlast D]
    dsimp only
    rw [Nat.add_assoc, List.drop_length_add_append]
    rfl
  have hrestStart :
      absoluteStart (ascii ['b', '"', ']']) = .ok (ascii ['b'], emptyHash, [0x22, 0x5d]) :=
    rfl
  have hrest : NewAbsolutePath tt (ascii ['b', '"', ']']) =
      .error (.path (.invalidOperator 0x22)) := by
    rw [NewAbsolutePath_of_start tt (by decide) hrestStart (List.cons_ne_nil _ _), ParsePath,
      if_neg (List.cons_ne_nil _ _),
      constructPath_invalidOperator tt.path (by decide) (by decide) (by decide) (by decide)]
  -- `Pin` writes `nbs/tmp/db`, a bare path
  have hsp : ForDatasetOpts tt (ascii ['n', 'b', 's', ':', '/', 't', 'm', 'p', '/', 'd', 'b',
      ':', ':', 'd', 's']) =
      .ok ⟨ascii ['n', 'b', 's', ':', '/', 't', 'm', 'p', '/', 'd', 'b', ':', ':', 'd', 's'],
        protoNbs, ascii ['/', 't', 'm', 'p', '/', 'd', 'b'], ascii ['d', 's'], .zero⟩ := rfl
  have hpinned := ForPathOpts_of_split tt
    (D := ascii ['n', 'b', 's', '/', 't', 'm', 'p', '/', 'd', 'b']) rfl (NewAbsolutePath_hash tt h)
    (no_separator_after_colon (List.not_mem_cons_of_ne_of_not_mem (by decide)
      (colon_not_mem_hashText h)))
  refine ⟨hread, hprint, ?_, _, _, hsp, rfl, rfl, Pin_of_head tt rfl (List.cons_ne_nil _ _)
    hhead hpinned, rfl, rfl⟩
  rw [ForPathOpts, hsplit]
  simp only [bind, Except.bind, hrest]

theorem spec_roundtrip_and_pin_break_mem :
    (fun _ => some emptyHash : List UInt8 → Option Hash) (ascii ['d', 's']) = some emptyHash ∧
      NewAbsolutePath ⟨fun _ => none, .blank⟩
          (ascii ['d', 's', '[', '"', 'a', ':', ':', 'b', '"', ']']) =
        .ok ⟨ascii ['d', 's'], emptyHash, [.index (.string (ascii ['a', ':', ':', 'b'])) false]⟩ ∧
      ForPathOpts ⟨fun _ => none, .blank⟩
          (protoMem ++ Separator ++ ascii ['d', 's', '[', '"', 'a', ':', ':', 'b', '"', ']']) =
        .error (.path (.invalidOperator 0x22)) :=
  ⟨rfl, (@spec_roundtrip_and_pin_break ⟨fun _ => none, .blank⟩ protoMem (fun _ => some emptyHash)
      emptyHash rfl).1,
    (@spec_roundtrip_and_pin_break ⟨fun _ => none, .blank⟩ protoMem (fun _ => some emptyHash)
      emptyHash rfl).2.2.1⟩

end Noms.Spec
