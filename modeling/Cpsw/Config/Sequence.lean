import Cpsw.Config.Command

namespace Cpsw.Config

/-- What the YAML library does by itself. -/
structure YamlCpp where
  /-- `as<uint64_t>` of a scalar -/
  decode : String → Option ℕ
  /-- The scalar that a `uint64_t` is stored as. -/
  encode : ℕ → String
  decode_lt : ∀ s n, decode s = some n → n < 2 ^ 64
  decode_encode : ∀ n, n < 2 ^ 64 → decode (encode n) = some n

/-- The factories of enums, by the name of their function. -/
structure EnumRegistry where
  has : String → Bool
  has_default : has "?" = true

/-- `Tag()` of a node that has none of its own, when it is read from a text. -/
def noTag : String := "?"

namespace Node

def isSequence : Node → Bool
  | seq _ _ => true
  | _ => false

def size : Node → ℕ
  | seq _ items => items.length
  | map _ entries => (entries.filter fun e ↦ e.2.isDefined).length
  | _ => 0

def badSubscript : CPSWError := ⟨.other "YAML::BadSubscript", "operator[] call on a scalar".toList⟩

/-- `operator[]` with an index; a key of a map is compared as a number. -/
def index (Y : YamlCpp) (i : ℕ) : Node → Except CPSWError Node
  | seq _ items => pure (items.getD i undefined)
  | map _ entries =>
    pure ((entries.find? fun e ↦ Y.decode e.1 = some i).elim undefined Prod.snd)
  | scalar _ _ => throw badSubscript
  | _ => pure undefined

def lookup (key : String) : Node → Except CPSWError Node
  | map _ entries => pure ((entries.find? fun e ↦ e.1 = key).elim undefined Prod.snd)
  | scalar _ _ => throw badSubscript
  | _ => pure undefined

def mustRead (fld : String) (n : Node) : Except CPSWError Node := do
  match ← n.lookup fld with
  | undefined => throw ⟨.notFound, "property '".toList ++ fld.toList ++ ['\'']⟩
  | null => throw ⟨.invalidArg, "property '".toList ++ fld.toList ++ "' is NULL".toList⟩
  | n => pure n

def badConversion : CPSWError := ⟨.other "YAML::BadConversion", "bad conversion".toList⟩

def asString : Node → Except CPSWError (List Char)
  | scalar _ text => pure text.toList
  | _ => throw badConversion

def asUInt64 (Y : YamlCpp) : Node → Except CPSWError ℕ
  | scalar _ text =>
    match Y.decode text with
    | some n => pure n
    | none => throw badConversion
  | _ => throw badConversion

def ofString (s : List Char) : Node := scalar noTag (String.ofList s)

def ofUInt64 (Y : YamlCpp) (n : ℕ) : Node := scalar noTag (Y.encode n)

end Node

abbrev Item := List Char × ℕ

/-- A node with a text and a number, as the items of sequences and of enums are. -/
def readPair (Y : YamlCpp) (key : String) (n : Node) : Except CPSWError Item := do
  let entry ← n.mustRead key
  let entry ← entry.asString
  let value ← n.mustRead "value"
  let value ← value.asUInt64 Y
  pure (entry, value)

def writePair (Y : YamlCpp) (key : String) (item : Item) : Node :=
  .map noTag [(key, .ofString item.1), ("value", .ofUInt64 Y item.2)]

structure CEnumImpl where
  items : List Item
  /-- The name of the transform function. -/
  xfrm : String
  deriving DecidableEq, Repr

/-- What `c_str()` leaves of a name. -/
def cstr (s : List Char) : List Char := s.takeWhile (· ≠ '\x00')

/-- `IMutableEnum::create` from a node -/
def CEnumImpl.create (Y : YamlCpp) (R : EnumRegistry) (node : Node) :
    Except CPSWError CEnumImpl :=
  if R.has node.tag then do
    let items ← (List.range node.size).mapM fun i ↦ do
      let node_item ← node.index Y i
      let item ← readPair Y "name" node_item
      pure (cstr item.1, item.2)
    pure ⟨items, node.tag⟩
  else throw ⟨.notFound, "No factory for '".toList ++ node.tag.toList ++ "' found".toList⟩

/-- `dumpYaml`; the function that does nothing has no tag. -/
def CEnumImpl.dumpYaml (Y : YamlCpp) (e : CEnumImpl) : Node :=
  if e.items = [] then .null else .seq e.xfrm (e.items.map (writePair Y "name"))

structure CSequenceCommandImpl extends SequenceCommandImpl where
  enums : Option CEnumImpl

section Constructor

variable (Y : YamlCpp) (R : EnumRegistry)

/-- `parseItems`, of a node whose items are `nodes`. -/
def parseItems (nodes : List Node) (c : SequenceCommandImpl) :
    Except CPSWError SequenceCommandImpl := do
  let items ← nodes.mapM (readPair Y "entry")
  pure { c with
    items := c.items ++ items
    index := c.index ++ [c.index.getLast?.getD 0 + nodes.length] }

/-- The loop over the items of `all`, from the item `i` on. -/
def parseSequences (all : List Node) : ℕ → List Node → SequenceCommandImpl →
    Except CPSWError SequenceCommandImpl
  | _, [], c => pure c
  | i, .seq _ nodes :: rest, c => do
    let c ← parseItems Y nodes c
    parseSequences all (i + 1) rest c
  | 0, _ :: _, c => parseItems Y all c
  | _ + 1, _ :: _, c => throw ⟨.configuration, c.name ++
      ": YAML node not a sequence of sequences".toList⟩

/-- Without enums a single sequence gets one entry, so that a menu has a text for it. -/
def defaultEnum : CEnumImpl := ⟨[("Execute".toList, 0)], "?"⟩

/-- `enums_` is as it came from the node, when the numbers agree. -/
def checkEnums (name : List Char) (c : SequenceCommandImpl) : Option CEnumImpl →
    Except CPSWError CSequenceCommandImpl
  | some e =>
    if e.items.length ≠ c.index.length - 1 then
      throw ⟨.configuration, name ++
        ": enum must have as many elements as the sequences".toList⟩
    else pure { c with enums := some e }
  | none =>
    pure { c with enums := if c.index.length = SINGLE_SEQ then some defaultEnum else none }

def readEnums (node : Node) : Except CPSWError (Option CEnumImpl) := do
  match ← node.lookup "enums" with
  | .undefined => pure none
  | enum_node => some <$> CEnumImpl.create Y R enum_node

/-- The constructor from a node, after the one of the class above it. -/
def CSequenceCommandImpl.create (name : List Char) (node : Node) :
    Except CPSWError CSequenceCommandImpl := do
  match ← node.lookup "sequence" with
  | .undefined => throw ⟨.configuration, name ++ ": no sequence found".toList⟩
  | .seq _ nodes =>
    let enums ← readEnums Y R node
    if nodes = [] then throw ⟨.configuration, name ++ ": sequence is empty".toList⟩
    else
      let c ← parseSequences Y nodes 0 nodes { name := name, items := [], index := [0] }
      checkEnums name c enums
  | _ => throw ⟨.configuration, name ++ ": YAML node not a sequence".toList⟩

end Constructor

section Dump

variable (Y : YamlCpp)

/-- The nodes of the sequences; `it` goes on over the items. -/
def dumpRanges : List ℕ → List Item → List Node
  | i :: j :: index, it =>
    .seq noTag ((it.take (j - i)).map (writePair Y "entry")) ::
      dumpRanges (j :: index) (it.drop (j - i))
  | _, _ => []

def dumpSequences (c : CSequenceCommandImpl) : List Node :=
  if SINGLE_SEQ < c.index.length then dumpRanges Y c.index c.items
  else c.items.map (writePair Y "entry")

/-- `node[key] = value` -/
def writeNode (key : String) (value : Node) (entries : List (String × Node)) :
    List (String × Node) :=
  if entries.any fun e ↦ e.1 = key then
    entries.map fun e ↦ if e.1 = key then (key, value) else e
  else entries ++ [(key, value)]

/-- The keys of `CEntryImpl`. -/
def CEntryImpl.keys : List String :=
  ["class", "description", "size", "cacheable", "configPrio", "pollSecs", "singleInterfaceOnly"]

/-- What `CCommandImpl::dumpYamlPart` has put into the node. -/
structure BaseNode where
  entries : List (String × Node)
  keys : ∀ e ∈ entries, e.1 ∈ CEntryImpl.keys

def CSequenceCommandImpl.dumpYamlPart (c : CSequenceCommandImpl) (base : BaseNode) : Node :=
  let node := writeNode "sequence" (.seq noTag (dumpSequences Y c)) base.entries
  .map noTag <|
    match c.enums with
    | some e => writeNode "enums" (e.dumpYaml Y) node
    | none => node

end Dump

end Cpsw.Config
