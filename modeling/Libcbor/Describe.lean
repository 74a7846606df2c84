import Libcbor.Ops
import Mathlib.Algebra.Group.Int

/-! `cbor_describe`, the printer of `CBOR_PRETTY_PRINTER` builds: a marquee with the item's
type, its fields, and its children indented four columns further. The output stream is a
byte list: each `fprintf` appends its text, `fwrite` the bytes of a text string. The
conversions the printer uses (`%*s`, `%*.*s`, `%02x` and the decimal ones) are modelled from
their C definitions. Two values come from outside the model, through `DescribeEnv`: the
`%lf` text of a float, and the code point count a text string's metadata holds.
Beside the code, `Item.describe` prints a tree the same way. -/
namespace Libcbor

/-- `cbor_int_get_width`, as the value of its `cbor_int_width` enumerator. -/
def CborInt.width : CborInt → Int
  | .int8 _ => 0
  | .int16 _ => 1
  | .int32 _ => 2
  | .int64 _ => 3

/-- `cbor_get_int`: the value widened to `uint64_t`. -/
def CborInt.value : CborInt → Nat
  | .int8 v => v.toNat
  | .int16 v => v.toNat
  | .int32 v => v.toNat
  | .int64 v => v.toNat

/-- `cbor_float_get_width`, as the value of its `cbor_float_width` enumerator. -/
def CborFloatCtrl.width : CborFloatCtrl → Int
  | .ctrl _ => 0
  | .float2 _ => 1
  | .float4 _ => 2
  | .float8 _ => 3

/-- The marquee label of a string kind. -/
def StringKind.label : StringKind → String
  | .bytestring => "CBOR_TYPE_BYTESTRING"
  | .string => "CBOR_TYPE_STRING"

end Libcbor

namespace Libcbor.Describe

open Ops

/-- What the printer reads that the model does not compute: `printf`'s `%lf` text of a
float's value, and the code point count stored with a definite text string of given bytes. -/
structure DescribeEnv where
  floatText : CborFloatCtrl → String
  codepoints : List UInt8 → Nat

/-- The loop of `_pow`: `res *= b`, `n` times. -/
def powLoop (b : Int) : Int → Nat → Int
  | res, 0 => res
  | res, n + 1 => powLoop b (res * b) n

/-- `_pow`: `1` for `ex = 0`; otherwise `res = b`, then `res *= b` while `--ex > 0`. -/
def pow (b ex : Int) : Int :=
  if ex = 0 then 1 else powLoop b b (ex - 1).toNat

theorem powLoop_eq (b : Int) : ∀ (res : Int) (n : Nat), powLoop b res n = res * b ^ n
  | _, 0 => (Int.mul_one _).symm
  | res, n + 1 => by rw [powLoop, powLoop_eq b _ n, pow_succ', mul_assoc]

/-- `_pow` computes the power for an exponent that is not negative; a negative one leaves `b`. -/
theorem pow_eq {b ex : Int} (hex : 0 ≤ ex) : pow b ex = b ^ ex.toNat := by
  unfold pow
  split_ifs with h0
  · simp [h0]
  · rw [powLoop_eq, ← pow_succ']
    congr 1
    omega

example : pow 2 3 = 8 := by decide

/-- The bytes `fprintf` writes for ASCII text. -/
def text (s : String) : List UInt8 := s.toList.map fun c => c.toNat.toUInt8

/-- `%*s`: `s` right-justified in a field of `width` characters. -/
def padField (width : Nat) (s : String) : String :=
  ⟨List.replicate (width - s.length) ' '⟩ ++ s

/-- `%*.*s`: at most `precision` characters of `s`, right-justified in `width`. -/
def padFieldPrec (width precision : Nat) (s : String) : String :=
  padField width (s.take precision)

/-- `%d`, `%zu` and `PRIu64` of a value that is not negative. -/
def decimal (n : Nat) : String := toString n

/-- `%02x`: two lower-case hexadecimal digits. -/
def hex02 (b : UInt8) : String :=
  let d := Nat.toDigits 16 b.toNat
  ⟨List.replicate (2 - d.length) '0' ++ d⟩

/-- `_cbor_type_marquee`. -/
def typeMarquee (label : String) (indent : Nat) : List UInt8 :=
  text (padFieldPrec indent indent " " ++ "[" ++ label ++ "] ")

/-- The `CBOR_TYPE_UINT` case. -/
def describeUint (n : CborInt) (indent : Nat) : List UInt8 :=
  typeMarquee "CBOR_TYPE_UINT" indent ++ text ("Width: " ++ toString (pow 2 n.width) ++ "B, ") ++
    text ("Value: " ++ decimal n.value ++ "\n")

/-- The `CBOR_TYPE_NEGINT` case. -/
def describeNegint (n : CborInt) (indent : Nat) : List UInt8 :=
  typeMarquee "CBOR_TYPE_NEGINT" indent ++ text ("Width: " ++ toString (pow 2 n.width) ++ "B, ") ++
    text ("Value: -" ++ decimal n.value ++ " - 1\n")

/-- The definite branch of the string cases, with the metadata's `length` and the bytes
read from the handle: a byte string in `%02x`, a text string by `fwrite`. -/
def describeDefinite (env : DescribeEnv) (k : StringKind) (length : Nat) (data : List UInt8)
    (indent : Nat) : List UInt8 :=
  match k with
  | .bytestring =>
    typeMarquee k.label indent ++ text ("Definite, Length: " ++ decimal length ++ "B, Data:\n") ++
      text (padField (indent + 4) " ") ++ data.flatMap (fun b => text (hex02 b)) ++ text "\n"
  | .string =>
    typeMarquee k.label indent ++ text ("Definite, Length: " ++ decimal length ++
      "B, Codepoints: " ++ decimal (env.codepoints data) ++ ", Data:\n") ++
      text (padField (indent + 4) " ") ++ data ++ text "\n"

/-- The indefinite branch of the string cases, before the chunks. -/
def chunkedHead (k : StringKind) (count indent : Nat) : List UInt8 :=
  typeMarquee k.label indent ++ text ("Indefinite, Chunks: " ++ decimal count ++ ", Chunk data:\n")

/-- The array and map cases, before the entries. -/
def containerHead (label : String) (definite : Bool) (size indent : Nat) : List UInt8 :=
  typeMarquee label indent ++
    if definite then text ("Definite, Size: " ++ decimal size ++ ", Contents:\n")
    else text ("Indefinite, Size: " ++ decimal size ++ ", Contents:\n")

/-- The line before the `i`-th pair of a map. -/
def mapEntryHead (indent i : Nat) : List UInt8 :=
  text (padField (indent + 4) " " ++ "Map entry " ++ decimal i ++ "\n")

/-- The `CBOR_TYPE_TAG` case, before the tagged item. -/
def tagHead (value : UInt64) (indent : Nat) : List UInt8 :=
  typeMarquee "CBOR_TYPE_TAG" indent ++ text ("Value: " ++ decimal value.toNat ++ "\n")

/-- The `CBOR_TYPE_FLOAT_CTRL` case. Modelled from the spec: simple values 20 and 21 are the
booleans (`cbor_is_bool`, `cbor_get_bool`), 22 is `null` and 23 `undefined`. -/
def describeFloatCtrl (env : DescribeEnv) (f : CborFloatCtrl) (indent : Nat) : List UInt8 :=
  typeMarquee "CBOR_TYPE_FLOAT_CTRL" indent ++
    match f with
    | .ctrl v =>
      if v = 20 ∨ v = 21 then text ("Bool: " ++ (if v = 21 then "true" else "false") ++ "\n")
      else if v = 23 then text "Undefined\n"
      else if v = 22 then text "Null\n"
      else text ("Simple value: " ++ decimal v.toNat ++ "\n")
    | _ => text ("Width: " ++ toString (pow 2 f.width) ++ "B, ") ++
      text ("Value: " ++ env.floatText f ++ "\n")

/-- The bytes `data[i]` that the definite string cases read through the handle. -/
def readBuffer (handle : Option Nat) (length : Nat) : Mem (List UInt8) := fun h =>
  match h.bytesAt handle length with
  | some bs => .ok (bs, h)
  | none => .error .outOfBounds

/-- The body of the map loop of `_cbor_nested_describe`, `describe` being the recursive
call: the line of entry `i`, then its key and its value eight columns in. -/
def describeMapEntry (describe : Nat → Nat → Mem (List UInt8)) (indent : Nat) :
    Nat × Nat × Option Nat → Mem (List UInt8)
  | (i, key, value) => do
    let keyText ← describe key (indent + 8)
    match value with
    | none => throw .nullItem
    | some value => return mapEntryHead indent i ++ keyText ++ (← describe value (indent + 8))

/-- `_cbor_nested_describe`, unfolding at most `fuel` levels. Chunks, entries and pairs are
read through the item's own handles; the tagged item through `cbor_tag_item`, whose count
`cbor_move` takes back. A map value still `NULL` reaches `cbor_typeof`. -/
def cborNestedDescribe (env : DescribeEnv) : Nat → Nat → Nat → Mem (List UInt8)
  | 0, _, _ => throw .outOfFuel
  | fuel + 1, item, indent => do
    match ← getItem item with
    | .uint n => return describeUint n indent
    | .negint n => return describeNegint n indent
    | .str k (.definite handle length) =>
      return describeDefinite env k length (← readBuffer handle length) indent
    | .str k (.indefinite chunks) =>
      let parts ← chunks.mapM fun chunk => cborNestedDescribe env fuel chunk (indent + 4)
      return chunkedHead k chunks.length indent ++ parts.flatten
    | .array dst items =>
      let parts ← items.mapM fun entry => cborNestedDescribe env fuel entry (indent + 4)
      return containerHead "CBOR_TYPE_ARRAY" dst.isDefinite items.length indent ++ parts.flatten
    | .map dst pairs =>
      let parts ← pairs.enum.mapM (describeMapEntry (cborNestedDescribe env fuel) indent)
      return containerHead "CBOR_TYPE_MAP" dst.isDefinite pairs.length indent ++ parts.flatten
    | .tag value _ =>
      let child ← cborMove (← cborTagItem item)
      return tagHead value indent ++ (← cborNestedDescribe env fuel child (indent + 4))
    | .floatCtrl f => return describeFloatCtrl env f indent

/-- `cbor_describe`: an acyclic graph is never deeper than the number of addresses handed out. -/
def cborDescribe (env : DescribeEnv) (item : Nat) : Mem (List UInt8) := fun h =>
  cborNestedDescribe env h.next item 0 h

end Libcbor.Describe

namespace Libcbor

open Describe

def Items.length : Items → Nat
  | .nil => 0
  | .cons _ ts => ts.length + 1

def Pairs.length : Pairs → Nat
  | .nil => 0
  | .cons _ _ ps => ps.length + 1

mutual
/-- The printer on a tree: what `_cbor_nested_describe` writes for an item that unfolds to it. -/
def Item.describe (env : DescribeEnv) : Item → Nat → List UInt8
  | .uint n, indent => describeUint n indent
  | .negint n, indent => describeNegint n indent
  | .bytes k bs, indent => describeDefinite env k bs.length bs indent
  | .chunked k chunks, indent => chunkedHead k chunks.length indent ++
    (chunks.map fun bs => describeDefinite env k bs.length bs (indent + 4)).flatten
  | .array b items, indent =>
    containerHead "CBOR_TYPE_ARRAY" b items.length indent ++ items.describe env (indent + 4)
  | .map b pairs, indent =>
    containerHead "CBOR_TYPE_MAP" b pairs.length indent ++ pairs.describe env 0 indent
  | .tag v t, indent => tagHead v indent ++ t.describe env (indent + 4)
  | .floatCtrl f, indent => describeFloatCtrl env f indent
def Items.describe (env : DescribeEnv) : Items → Nat → List UInt8
  | .nil, _ => []
  | .cons t ts, indent => t.describe env indent ++ ts.describe env indent
def Pairs.describe (env : DescribeEnv) : Pairs → Nat → Nat → List UInt8
  | .nil, _, _ => []
  | .cons k v ps, i, indent => mapEntryHead indent i ++ k.describe env (indent + 8) ++
    v.describe env (indent + 8) ++ ps.describe env (i + 1) indent
end

end Libcbor
