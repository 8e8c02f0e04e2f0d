import CompositionIr.Deltas
import CompositionIr.JsonTexts
import CompositionIr.Layouts

/-!
The manifest of the types that cross the C boundary: a table of names, sizes and offsets
for one target, written line by line as JSON. Sizes and offsets are those of the declared
field order under the alignments of the target.
-/

namespace CompositionIr.Manifests

open Addresses Records DebugText JsonTexts Layouts

/-- The facts about the target that decide every offset. -/
structure TargetAbi where
  pointerWidth : ℕ
  u64Align : ℕ
  endian : String
  deriving DecidableEq

def manifestAbi : TargetAbi := ⟨64, 8, "little"⟩

def manifestFormat : ℕ := 1

def generator : String := "composition-ir-ffi: cargo test -p composition-ir-ffi, UPDATE_ABI=1"

section Names

def allSpaces : List Space :=
  [Space.node, Space.frame, Space.source, Space.origin, Space.destination, Space.resource]

def allResourceRoles : List ResourceRole :=
  [ResourceRole.font, ResourceRole.image, ResourceRole.gradient, ResourceRole.colorProfile]

def spaceName : Space → String
  | .node => "Node"
  | .frame => "Frame"
  | .source => "Source"
  | .origin => "Origin"
  | .destination => "Destination"
  | .resource => "Resource"

def partName : Part → String
  | .structure => "Structure"
  | .text => "Text"
  | .textMap => "TextMap"
  | .shaping => "Shaping"
  | .intrinsicLayout => "IntrinsicLayout"
  | .lineLayout => "LineLayout"
  | .fragmentation => "Fragmentation"
  | .paint => "Paint"
  | .interaction => "Interaction"
  | .sourceLink => "SourceLink"
  | .validation => "Validation"
  | .descendant => "Descendant"

def roleName : ResourceRole → String
  | .font => "Font"
  | .image => "Image"
  | .gradient => "Gradient"
  | .colorProfile => "ColorProfile"

def roleDiscriminant : ResourceRole → ℕ
  | .font => 0
  | .image => 1
  | .gradient => 2
  | .colorProfile => 3

end Names

section Types

variable (abi : TargetAbi)

/-! The size and alignment of each type, its fields in declared order. -/

def u8 : Shape := ⟨1, 1⟩
def u16 : Shape := ⟨2, 2⟩
def u64 : Shape := ⟨8, abi.u64Align⟩
def usize : Shape := ⟨abi.pointerWidth / 8, abi.pointerWidth / 8⟩

def snapshotVersionFields : List Shape := [u64 abi, u64 abi]
def idFields : List Shape := [u64 abi, u64 abi]
def addressFields : List Shape := [u8, aggregate (idFields abi)]
def diffFields : List Shape := [aggregate (addressFields abi), u16]
def rectFields : List Shape := [u64 abi, u64 abi, u64 abi, u64 abi]
def resourceRefFields : List Shape := [u8, aggregate (addressFields abi)]
def viewFields : List Shape := [usize abi, usize abi]
def rgbaFields : List Shape := [u8, u8, u8, u8]

end Types

/-! The writer. -/

structure Json where
  out : List Char
  indent : ℕ

def spaces : ℕ → List Char
  | 0 => []
  | level + 1 => ' ' :: ' ' :: spaces level

namespace Json

def new : Json := ⟨[], 0⟩

def line (j : Json) (s : List Char) : Json :=
  { j with out := j.out ++ spaces j.indent ++ s ++ ['\n'] }

def «open» (j : Json) (s : List Char) : Json :=
  let j := j.line s
  { j with indent := j.indent + 1 }

def close (j : Json) (s : List Char) : Json :=
  let j := { j with indent := j.indent - 1 }
  j.line s

end Json

structure Field where
  name : String
  ty : String
  offset : ℕ
  deriving DecidableEq

/-- The comma behind an item, none behind the last of `total`. -/
def comma (i total : ℕ) : List Char := if i + 1 = total then [] else [',']

def lines {α : Type} (j : Json) (items : List α) (line : α → List Char) : Json :=
  items.zipIdx.foldl (fun j entry => j.line (line entry.1 ++ comma entry.2 items.length)) j

def nameLine (name : String) : List Char := "\"name\": \"".toList ++ name.toList ++ "\",".toList

def sizeLine (size : ℕ) : List Char := "\"size\": ".toList ++ decimal size ++ ",".toList

def alignLine (align : ℕ) : List Char := "\"align\": ".toList ++ decimal align ++ ",".toList

def emitStruct (j : Json) (name : String) (size align : ℕ) (fields : List Field) (last : Bool) :
    Json :=
  let j := j.open "\x7b".toList
  let j := j.line (nameLine name)
  let j := j.line "\"kind\": \"struct\",".toList
  let j := j.line (sizeLine size)
  let j := j.line (alignLine align)
  let j := j.open "\"fields\": [".toList
  let j := lines j fields (fun f =>
    "\x7b \"name\": \"".toList ++ f.name.toList ++ "\", \"type\": \"".toList ++ f.ty.toList ++
      "\", \"offset\": ".toList ++ decimal f.offset ++ " \x7d".toList)
  let j := j.close "]".toList
  j.close (if last then "\x7d".toList else "\x7d,".toList)

def emitScalar (j : Json) (name : String) (size align : ℕ) (repr : String) (nonzero : Bool) :
    Json :=
  let j := j.open "\x7b".toList
  let j := j.line (nameLine name)
  let j := j.line "\"kind\": \"scalar\",".toList
  let j := j.line (sizeLine size)
  let j := j.line (alignLine align)
  let j := j.line ("\"repr\": \"".toList ++ repr.toList ++ "\",".toList)
  let j := j.line ("\"nonzero\": ".toList ++ (if nonzero then "true" else "false").toList)
  j.close "\x7d,".toList

def emitEnum (j : Json) (name : String) (size align : ℕ) (variants : List (String × ℕ)) : Json :=
  let j := j.open "\x7b".toList
  let j := j.line (nameLine name)
  let j := j.line "\"kind\": \"enum\",".toList
  let j := j.line (sizeLine size)
  let j := j.line (alignLine align)
  let j := j.line "\"repr\": \"u8\",".toList
  let j := j.open "\"variants\": [".toList
  let j := lines j variants (fun v =>
    "\x7b \"name\": \"".toList ++ v.1.toList ++ "\", \"value\": ".toList ++ decimal v.2 ++
      " \x7d".toList)
  let j := j.close "]".toList
  j.close "\x7d,".toList

def emitParts (j : Json) (size align : ℕ) (flags : List (String × ℕ)) : Json :=
  let j := j.open "\x7b".toList
  let j := j.line "\"name\": \"Parts\",".toList
  let j := j.line "\"kind\": \"bitset\",".toList
  let j := j.line (sizeLine size)
  let j := j.line (alignLine align)
  let j := j.line "\"repr\": \"u16\",".toList
  let j := j.line "\"of\": \"Part\",".toList
  let j := j.open "\"flags\": [".toList
  let j := lines j flags (fun v =>
    "\x7b \"name\": \"".toList ++ v.1.toList ++ "\", \"bit\": ".toList ++ decimal v.2 ++
      " \x7d".toList)
  let j := j.close "]".toList
  j.close "\x7d,".toList

def emitAggregate (j : Json) (name : String) (shapes : List Shape)
    (fields : List (String × String)) (last : Bool) : Json :=
  emitStruct j name (aggregate shapes).size (aggregate shapes).align
    (fields.zipIdx.map (fun entry => ⟨entry.1.1, entry.1.2, offsetOf shapes entry.2⟩)) last

def emitTypes (j : Json) (abi : TargetAbi) : Json :=
  let j := emitScalar j "Domain" (u64 abi).size (u64 abi).align "u64" true
  let j := emitScalar j "Revision" (u64 abi).size (u64 abi).align "u64" true
  let j := emitEnum j "Space" u8.size u8.align
    (allSpaces.map (fun s => (spaceName s, s.discriminant)))
  let j := emitEnum j "Part" u8.size u8.align
    (allParts.map (fun p => (partName p, p.discriminant)))
  let j := emitEnum j "ResourceRole" u8.size u8.align
    (allResourceRoles.map (fun r => (roleName r, roleDiscriminant r)))
  let j := emitParts j u16.size u16.align
    (allParts.map (fun p => (partName p, (Parts.of p).bits.toNat)))
  let j := emitAggregate j "SnapshotVersion" (snapshotVersionFields abi)
    [("domain", "Domain"), ("revision", "Revision")] false
  let j := emitAggregate j "Id" (idFields abi)
    [("domain", "Domain"), ("ordinal", "NonZeroU64")] false
  let j := emitAggregate j "Address" (addressFields abi) [("space", "Space"), ("id", "Id")] false
  let j := emitAggregate j "Diff" (diffFields abi)
    [("address", "Address"), ("parts", "Parts")] false
  let j := emitAggregate j "Rect" (rectFields abi)
    [("x", "i64"), ("y", "i64"), ("width", "i64"), ("height", "i64")] false
  let j := emitAggregate j "ResourceRef" (resourceRefFields abi)
    [("role", "ResourceRole"), ("address", "Address")] false
  let j := emitAggregate j "CirBytes" (viewFields abi) [("ptr", "u8"), ("len", "usize")] false
  let j := emitAggregate j "CirAddresses" (viewFields abi)
    [("ptr", "Address"), ("len", "usize")] false
  let j := emitAggregate j "CirResources" (viewFields abi)
    [("ptr", "ResourceRef"), ("len", "usize")] false
  let j := emitAggregate j "CirFragments" (viewFields abi)
    [("ptr", "u32"), ("len", "usize")] false
  emitAggregate j "Rgba" rgbaFields [("r", "u8"), ("g", "u8"), ("b", "u8"), ("a", "u8")] true

def manifestJson (abi : TargetAbi) : List Char :=
  let j := Json.new
  let j := j.open "\x7b".toList
  let j := j.line ("\"manifest_format\": ".toList ++ decimal manifestFormat ++ ",".toList)
  let j := j.line ("\"generated_by\": \"".toList ++ generator.toList ++ "\",".toList)
  let j := j.open "\"target\": \x7b".toList
  let j := j.line ("\"pointer_width\": ".toList ++ decimal abi.pointerWidth ++ ",".toList)
  let j := j.line ("\"u64_align\": ".toList ++ decimal abi.u64Align ++ ",".toList)
  let j := j.line ("\"endian\": \"".toList ++ abi.endian.toList ++ "\"".toList)
  let j := j.close "\x7d,".toList
  let j := j.open "\"types\": [".toList
  let j := emitTypes j abi
  let j := j.close "]".toList
  let j := j.close "\x7d".toList
  j.out

/-- The comparison of the build guard, its loop over the characters of the two names. -/
def abiEq (a b : TargetAbi) : Bool :=
  let x := a.endian.toList
  let y := b.endian.toList
  if x.length ≠ y.length then false
  else if (List.range x.length).any (fun i => x[i]? != y[i]?) then false
  else a.pointerWidth == b.pointerWidth && a.u64Align == b.u64Align

end CompositionIr.Manifests
