import SymbolicRegression.Text.Blank
import SymbolicRegression.Text.Utf8

/-!
# Reading comma-separated values

The records of a file are found in one pass over its bytes. Commas separate the fields of a record,
and a line feed, a carriage return or both end it. A field may stand in quotes; then it may hold
separators and line ends, and two quotes in it stand for one. An empty line holds no record, and a
line that starts with `#` is a comment.

Fields are bytes at first and become text one record at a time, so that a fault in a late record
does not hide the earlier ones, and a byte that is no text is reported with its place.
-/

namespace SymbolicRegression

namespace Csv

/-- A place in a file: its line, and how many records and bytes are before it. -/
structure Position where
  record : Nat := 0
  /-- Lines are counted from one and end at line feeds only. -/
  line : Nat := 1
  byte : Nat := 0

/-- The fields of a record. Its start is where the record before it ended, so that empty lines and
comments before a record count as part of it. -/
structure Record where
  start : Position
  fields : Array (List UInt8)

def comma : UInt8 := 0x2C
def quote : UInt8 := 0x22
def hash : UInt8 := 0x23
def lineFeed : UInt8 := 0x0A
def carriageReturn : UInt8 := 0x0D

def isLineEnd (b : UInt8) : Bool :=
  b == lineFeed || b == carriageReturn

/-- What the next byte may be part of. -/
inductive Place where
  | recordStart
  | comment
  | fieldStart
  | unquoted
  | quoted
  /-- After a quote inside of quotes: they end, unless a second one follows. -/
  | afterQuote

/-- A pass over a file: what was found before the next byte, the last found first. -/
structure Scan where
  place : Place := .recordStart
  here : Position := {}
  start : Position := {}
  field : List UInt8 := []
  fields : List (List UInt8) := []
  records : List Record := []

namespace Scan

def pass (s : Scan) (b : UInt8) : Scan :=
  { s with here := { s.here with
      line := if b = lineFeed then s.here.line + 1 else s.here.line
      byte := s.here.byte + 1 } }

def take (s : Scan) (b : UInt8) (place : Place) : Scan :=
  { s with place, field := b :: s.field }

/-- Ends the field; another one follows. -/
def endField (s : Scan) : Scan :=
  { s with place := .fieldStart, field := [], fields := s.field.reverse :: s.fields }

def endRecord (s : Scan) : Scan :=
  let s := s.endField
  let here := { s.here with record := s.here.record + 1 }
  { place := .recordStart, here, start := here
    records := ⟨s.start, s.fields.reverse.toArray⟩ :: s.records }

def unquoted (s : Scan) (b : UInt8) : Scan :=
  if b = comma then s.endField
  else if isLineEnd b then s.endRecord
  else s.take b .unquoted

/-- Takes the first byte of a field, or the byte after an empty field. -/
def openField (s : Scan) (b : UInt8) : Scan :=
  if b = quote then { s with place := .quoted } else s.unquoted b

def read (s : Scan) (b : UInt8) : Scan :=
  let s := s.pass b
  match s.place with
  | .recordStart =>
    if isLineEnd b then s
    else if b = hash then { s with place := .comment }
    else s.openField b
  | .comment => if b = lineFeed then { s with place := .recordStart } else s
  | .fieldStart => s.openField b
  | .unquoted => s.unquoted b
  | .quoted => if b = quote then { s with place := .afterQuote } else s.take b .quoted
  | .afterQuote => if b = quote then s.take b .quoted else s.unquoted b

/-- The records, in order. A last line without a line end still makes a record, and a comment there
makes one with a single empty field. -/
def finish (s : Scan) : List Record :=
  match s.place with
  | .recordStart => s.records.reverse
  | _ => s.endRecord.records.reverse

end Scan

/-- The records of a file. A byte order mark at its start is passed over. -/
def records : List UInt8 → List Record
  | 0xEF :: 0xBB :: 0xBF :: bytes => (bytes.foldl Scan.read { here := { byte := 3 } }).finish
  | bytes => (bytes.foldl Scan.read {}).finish

inductive Error where
  | unequalLengths (start : Position) (expected found : Nat)
  | notText (start : Position) (field validBytes : Nat)

namespace Error

def message : Error → String
  | unequalLengths start expected found =>
    s!"CSV error: record {start.record} (line: {start.line}, byte: {start.byte}): "
      ++ s!"found record with {found} fields, but the previous record has {expected} fields"
  | notText start field validBytes =>
    s!"CSV parse error: record {start.record} (line {start.line}, field: {field}, "
      ++ s!"byte: {start.byte}): invalid utf-8: invalid UTF-8 in field {field} near byte index "
      ++ s!"{validBytes}"

end Error

def isBlankByte (b : UInt8) : Bool :=
  b == 0x20 || b == 0x09 || b == lineFeed || b == 0x0C || b == carriageReturn

/-- Drops the ASCII white space at both ends. -/
def trimBytes (bytes : List UInt8) : List UInt8 :=
  ((bytes.dropWhile isBlankByte).reverse.dropWhile isBlankByte).reverse

namespace Record

/-- The fields as text, without the white space around them. -/
def texts (r : Record) {n : Nat} (fields : Vector (List UInt8) n) :
    Except Error (Vector String n) :=
  fields.mapFinIdxM fun i field _ =>
    match Text.ofUtf8 field with
    | .ok s => .ok (Text.trim s)
    | .error n => .error (.notText r.start i n)

/-- The texts of the first record, which fixes the number of fields. -/
def header (r : Record) : Except Error (Vector String r.fields.size) :=
  r.texts r.fields.toVector

/-- The texts of another record. A wrong number of fields is found before a byte that is no text,
and such a byte is counted from the first one that is not white space. -/
def row (r : Record) (width : Nat) : Except Error (Vector String width) :=
  if h : r.fields.size = width then
    r.texts ((Vector.mk r.fields h).map trimBytes)
  else .error (.unequalLengths r.start width r.fields.size)

end Record

end Csv

end SymbolicRegression
