import PageStore.Bytes.Utf8
import PageStore.Bytes.Words
import PageStore.Settings

/-!
# Column values and their bytes

A value is a 32-bit integer or a text. Every type takes a fixed number of
bytes: an integer four, most significant first; a text a length word and 128
bytes, of which the text fills the first and zeros the rest.

Results:
* `length_encode`: a value takes exactly the bytes of its type.
* `decode_int`: an integer is read back whatever follows it.
-/
namespace PageStore

/-- The type of a column. -/
inductive FieldType
  | int
  | text
  deriving DecidableEq, Repr, Inhabited

namespace FieldType

/-- Bytes that a value of the type takes. -/
def width : FieldType → Nat
  | int => 4
  | text => 4 + textWidth

def name : FieldType → String
  | int => "Int"
  | text => "Text"

end FieldType

/-- A column value. -/
inductive Field
  | int (n : Int32)
  | text (s : String)
  deriving DecidableEq, Repr, Inhabited

namespace Field

def type : Field → FieldType
  | int _ => .int
  | text _ => .text

/-- The value as it is shown. -/
def display : Field → String
  | int n => toString n.toInt
  | text s => s

/-- Whether the value is stored whole; a text may be too long for that.
mirrors `fits` -/
def fits : Field → Bool
  | int _ => true
  | text s => decide ((Utf8.encode s.toList).length ≤ textWidth)

/-- The part of a text that is stored: whole characters, as many as fit. -/
def stored (s : String) : List UInt8 := Utf8.encode (Utf8.fit textWidth s.toList)

/-- The bytes of the value. A text that does not fit is cut after its last
character that does. -/
def encode : Field → List UInt8
  | int n => Word.big n.toUInt32
  | text s =>
    Word.big (UInt32.ofNat (stored s).length) ++ stored s ++
      List.replicate (textWidth - (stored s).length) 0

/-- The bytes of a text that are written: all, or those before the last
boundary that leaves enough room.
mirrors `truncated` -/
def cut (s : String) : List UInt8 :=
  let bytes := Utf8.encode s.toList
  if bytes.length ≤ textWidth then bytes else bytes.take (Utf8.floorBoundary bytes textWidth)

/-- The buffer at a new length: cut, or filled up with zeros. -/
def resize (out : List UInt8) (length : Nat) : List UInt8 :=
  out.take length ++ List.replicate (length - out.length) 0

/-- The buffer after the value was written to its end.
mirrors `write_to` -/
def write (f : Field) (out : List UInt8) : List UInt8 :=
  match f with
  | int n => out ++ Word.big n.toUInt32
  | text s =>
    let bytes := cut s
    let out := out ++ Word.big (UInt32.ofNat bytes.length) ++ bytes
    resize out (out.length + textWidth - bytes.length)

/-- The text after a length word. -/
def decodeText (bytes : List UInt8) : Except FieldError Field :=
  let length := (Word.ofBig bytes).toNat
  if textWidth < length then .error (.tooLong length textWidth)
  else
    match Utf8.decode ((bytes.drop 4).take length) with
    | .ok s => .ok (.text (String.ofList s))
    | .error e => .error (.notUtf8 e)

/-- The value of the type at the front of the bytes.
mirrors `read_from` -/
def decode (t : FieldType) (bytes : List UInt8) : Except FieldError Field :=
  if bytes.length < t.width then .error (.short t.width bytes.length)
  else
    match t with
    | .int => .ok (.int (Word.ofBig bytes).toInt32)
    | .text => decodeText bytes

theorem length_stored (s : String) : (stored s).length ≤ textWidth := Utf8.length_encode_fit _ _

@[simp] theorem length_encode (f : Field) : f.encode.length = f.type.width := by
  cases f with
  | int n => rfl
  | text s =>
    have := length_stored s
    simp only [encode, type, FieldType.width, List.length_append, List.length_replicate, Word.length_big]
    omega

theorem decode_int (n : Int32) (rest : List UInt8) :
    decode .int ((Field.int n).encode ++ rest) = .ok (.int n) := by
  simp only [decode, encode, Word.ofBig_big]
  rfl

end Field
end PageStore
