import Thunderbolt.Json.Grammar

/-! The JSON writer of the benchmark results.

The writer keeps a stack with an entry for each container that is open, and each call
writes a comma, a line break and the indentation before what it has to say. `print` is the
stream's text for a double, with 17 significant digits.

A `Members` is a document as the interface can express it: the calls of a document are
well nested by construction. -/
namespace Thunderbolt.Bench
open Json

variable {Double : Type}

namespace JsonWriter

/-- A container that is open. -/
structure State where
  /-- False until its first entry is written. -/
  any_written : Bool
  is_array : Bool

end JsonWriter

structure JsonWriter where
  out : List Byte
  /-- The innermost container first. -/
  stack : List JsonWriter.State

namespace JsonWriter

def emit (w : JsonWriter) (text : List Byte) : JsonWriter := {w with out := w.out ++ text}

def newline_indent (w : JsonWriter) : JsonWriter :=
  w.emit (bytes "\n" ++ (List.replicate w.stack.length (bytes "  ")).flatten)

def separate (w : JsonWriter) : JsonWriter :=
  match w.stack with
  | [] => w
  | top :: below =>
    let w := if top.any_written then w.emit (bytes ",") else w
    newline_indent {w with stack := {top with any_written := true} :: below}

/-- `"0123456789abcdef"[i]`. -/
def hexDigits (i : ℕ) : Byte := (bytes "0123456789abcdef").getD i 0

/-- What `write_string` writes for a byte. -/
def escape (c : Byte) : List Byte :=
  if c = ascii '"' then bytes "\\\""
  else if c = ascii '\\' then bytes "\\\\"
  else if c = ascii '\n' then bytes "\\n"
  else if c = ascii '\r' then bytes "\\r"
  else if c = ascii '\t' then bytes "\\t"
  else if c < 0x20 then
    bytes "\\u00" ++ [hexDigits ((c >>> 4) &&& 0xF).toNat, hexDigits (c &&& 0xF).toNat]
  else [c]

def write_string (w : JsonWriter) (value : List Byte) : JsonWriter :=
  w.emit (quote :: (value.flatMap escape ++ [quote]))

def write_key (w : JsonWriter) (key : List Byte) : JsonWriter :=
  (w.separate.write_string key).emit (bytes ": ")

def begin_object (w : JsonWriter) : JsonWriter :=
  let w := w.separate.emit [ascii '{']
  {w with stack := ⟨false, false⟩ :: w.stack}

def begin_object_keyed (w : JsonWriter) (key : List Byte) : JsonWriter :=
  let w := (w.write_key key).emit [ascii '{']
  {w with stack := ⟨false, false⟩ :: w.stack}

/-- The end of a container. -/
def close (w : JsonWriter) (bracket : List Byte) : JsonWriter :=
  let had_entries := w.stack.head?.any State.any_written
  let w := {w with stack := w.stack.tail}
  (if had_entries then w.newline_indent else w).emit bracket

def end_object (w : JsonWriter) : JsonWriter := w.close [ascii '}']

def begin_array (w : JsonWriter) (key : List Byte) : JsonWriter :=
  let w := (w.write_key key).emit (bytes "[")
  {w with stack := ⟨false, true⟩ :: w.stack}

def end_array (w : JsonWriter) : JsonWriter := w.close (bytes "]")

def field_string (w : JsonWriter) (key value : List Byte) : JsonWriter :=
  (w.write_key key).write_string value

def field_bool (w : JsonWriter) (key : List Byte) (value : Bool) : JsonWriter :=
  (w.write_key key).emit (if value then bytes "true" else bytes "false")

def field_uint64 (w : JsonWriter) (key : List Byte) (value : BitVec 64) : JsonWriter :=
  (w.write_key key).emit (decimal value.toNat)

/-- The stream's text for a signed integer. -/
def signed (value : ℤ) : List Byte :=
  if value < 0 then ascii '-' :: decimal value.natAbs else decimal value.natAbs

def field_int64 (w : JsonWriter) (key : List Byte) (value : BitVec 64) : JsonWriter :=
  (w.write_key key).emit (signed value.toInt)

def field_double (print : Double → List Byte) (w : JsonWriter) (key : List Byte) (value : Double) :
    JsonWriter :=
  (w.write_key key).emit (print value)

def value_double (print : Double → List Byte) (w : JsonWriter) (v : Double) : JsonWriter :=
  w.separate.emit (print v)

def value_uint64 (w : JsonWriter) (v : BitVec 64) : JsonWriter := w.separate.emit (decimal v.toNat)

end JsonWriter

inductive Call (Double : Type) where
  | begin_object
  | begin_object_keyed (key : List Byte)
  | end_object
  | begin_array (key : List Byte)
  | end_array
  | field_string (key value : List Byte)
  | field_bool (key : List Byte) (value : Bool)
  | field_uint64 (key : List Byte) (value : BitVec 64)
  | field_int64 (key : List Byte) (value : BitVec 64)
  | field_double (key : List Byte) (value : Double)
  | value_double (v : Double)
  | value_uint64 (v : BitVec 64)

namespace JsonWriter

def call (print : Double → List Byte) (w : JsonWriter) : Call Double → JsonWriter
  | .begin_object => w.begin_object
  | .begin_object_keyed key => w.begin_object_keyed key
  | .end_object => w.end_object
  | .begin_array key => w.begin_array key
  | .end_array => w.end_array
  | .field_string key value => w.field_string key value
  | .field_bool key value => w.field_bool key value
  | .field_uint64 key value => w.field_uint64 key value
  | .field_int64 key value => w.field_int64 key value
  | .field_double key value => w.field_double print key value
  | .value_double v => w.value_double print v
  | .value_uint64 v => w.value_uint64 v

def run (print : Double → List Byte) (w : JsonWriter) (calls : List (Call Double)) : JsonWriter :=
  calls.foldl (call print) w

end JsonWriter

/-! ### Documents -/

mutual

/-- What a member of an object can be. -/
inductive Value (Double : Type) where
  | object (members : Members Double)
  | array (elements : Elements Double)
  | string (s : List Byte)
  | bool (b : Bool)
  | unsigned (n : BitVec 64)
  | signed (n : BitVec 64)
  | double (d : Double)

/-- The members of an object, with their keys. -/
inductive Members (Double : Type) where
  | nil
  | cons (key : List Byte) (value : Value Double) (members : Members Double)

/-- The elements of an array: objects, unsigned integers and doubles. -/
inductive Elements (Double : Type) where
  | nil
  | object (members : Members Double) (elements : Elements Double)
  | unsigned (n : BitVec 64) (elements : Elements Double)
  | double (d : Double) (elements : Elements Double)

end

mutual

/-- The calls that write a member. -/
def Value.calls (key : List Byte) : Value Double → List (Call Double)
  | .object members => .begin_object_keyed key :: (members.calls ++ [.end_object])
  | .array elements => .begin_array key :: (elements.calls ++ [.end_array])
  | .string s => [.field_string key s]
  | .bool b => [.field_bool key b]
  | .unsigned n => [.field_uint64 key n]
  | .signed n => [.field_int64 key n]
  | .double d => [.field_double key d]

def Members.calls : Members Double → List (Call Double)
  | .nil => []
  | .cons key value members => value.calls key ++ members.calls

def Elements.calls : Elements Double → List (Call Double)
  | .nil => []
  | .object members elements => .begin_object :: (members.calls ++ .end_object :: elements.calls)
  | .unsigned n elements => .value_uint64 n :: elements.calls
  | .double d elements => .value_double d :: elements.calls

end

/-- The text of the document whose root has these members. -/
def Members.write (print : Double → List Byte) (root : Members Double) : List Byte :=
  (JsonWriter.run print ⟨[], []⟩ (.begin_object :: (root.calls ++ [.end_object]))).out

/-! ### What a document says -/

mutual

/-- The parser's tree says the same as the document: the same shape, the keys in the same
order, the same bytes, and numbers of the same value, or as the stream printed them. -/
def Value.Same (print : Double → List Byte) : Value Double → Tree → Prop
  | .object members, .object trees => members.Same print trees
  | .array elements, .array trees => elements.Same print trees
  | .string s, .string s' => s = s'
  | .bool b, .bool b' => b = b'
  | .unsigned n, .number token => readInteger token = some (n.toNat : ℤ)
  | .signed n, .number token => readInteger token = some n.toInt
  | .double d, .number token => token = print d
  | _, _ => False

def Members.Same (print : Double → List Byte) : Members Double → List (List Byte × Tree) → Prop
  | .nil, [] => True
  | .cons key value members, (key', tree) :: trees =>
    key = key' ∧ value.Same print tree ∧ members.Same print trees
  | _, _ => False

def Elements.Same (print : Double → List Byte) : Elements Double → List Tree → Prop
  | .nil, [] => True
  | .object members elements, .object trees :: rest => members.Same print trees ∧ elements.Same print rest
  | .unsigned n elements, .number token :: rest =>
    readInteger token = some (n.toNat : ℤ) ∧ elements.Same print rest
  | .double d elements, .number token :: rest => token = print d ∧ elements.Same print rest
  | _, _ => False

end

mutual

/-- Its keys and strings are UTF-8. -/
def Value.Utf8 : Value Double → Prop
  | .object members => members.Utf8
  | .array elements => elements.Utf8
  | .string s => Json.Utf8 s
  | .bool _ | .unsigned _ | .signed _ | .double _ => True

def Members.Utf8 : Members Double → Prop
  | .nil => True
  | .cons key value members => Json.Utf8 key ∧ value.Utf8 ∧ members.Utf8

def Elements.Utf8 : Elements Double → Prop
  | .nil => True
  | .object members elements => members.Utf8 ∧ elements.Utf8
  | .unsigned _ elements => elements.Utf8
  | .double _ elements => elements.Utf8

end

end Thunderbolt.Bench
