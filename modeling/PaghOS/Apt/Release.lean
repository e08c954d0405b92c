import PaghOS.Lib.Text

/-! The parser of a `Release` body, `src/pkg/release_file.rs`. -/

namespace PaghOS.Apt
open Text

def maxReleaseBytes : Nat := 4*1024*1024
def maxReleaseEntries : Nat := 4096

structure ReleaseEntry where
  path : List Char
  sha256 : List UInt8
  size : Nat
  deriving DecidableEq

inductive DateField where
  | absent
  | parsed (t : Int)
  | malformed
  deriving DecidableEq

structure Release where
  suite : List Char := []
  codename : List Char := []
  version : List Char := []
  date : DateField := .absent
  validUntil : DateField := .absent
  acquireByHash : Bool := false
  components : List (List Char) := []
  architectures : List (List Char) := []
  sha256 : List ReleaseEntry := []
  truncated : Bool := false
  deriving DecidableEq

def hexNibble (c : Char) : Option Nat :=
  if '0' ≤ c ∧ c ≤ '9' then some (c.toNat-48)
  else if 'a' ≤ c ∧ c ≤ 'f' then some (c.toNat-97+10)
  else if 'A' ≤ c ∧ c ≤ 'F' then some (c.toNat-65+10)
  else none

def hexBytes : List Char → Option (List UInt8)
  | [] => some []
  | [_] => none
  | a :: b :: rest => do
    let hi ← hexNibble a
    let lo ← hexNibble b
    let bs ← hexBytes rest
    some (UInt8.ofNat (16*hi+lo) :: bs)

def hex32 (s : List Char) : Option (List UInt8) := if s.length = 64 then hexBytes s else none

def daysFromCivil (y : Int) (m d : Nat) : Int :=
  let y := if m ≤ 2 then y-1 else y
  let era := (if 0 ≤ y then y else y-399).tdiv 400
  let yoe := y-era*400
  let mp : Int := (m+9)%12
  let doy := (153*mp+2)/5+d-1
  let doe := yoe*365+yoe/4-yoe/100+doy
  era*146097+doe-719468

def monthNumber (s : List Char) : Option Nat :=
  (["jan","feb","mar","apr","may","jun","jul","aug","sep","oct","nov","dec"].findIdx?
    (fun m => m.toList = s.map asciiLower)).map (· + 1)

def parseTime (s : List Char) : Option (Int × Int × Int) :=
  match s.splitOn ':' with
  | [h,m,s] => do
    let h ← parseI64 h
    let m ← parseI64 m
    let s ← parseI64 s
    if 0 ≤ h ∧ h < 24 ∧ 0 ≤ m ∧ m < 60 ∧ 0 ≤ s ∧ s < 61 then some (h,m,s) else none
  | _ => none

def afterWeekday (value : List Char) : List Char :=
  if ',' ∈ value then trim (value.dropWhile (· ≠ ',')).tail else trim value

def parseParts (parts : List (List Char)) : Option Int :=
  match parts with
  | [day,month,year,time,zone] => do
    let day ← parseUnsigned 0x100000000 day
    let day ← if 1 ≤ day ∧ day ≤ 31 then some day else none
    let month ← monthNumber month
    let year ← parseI64 year
    let year ← if 1970 ≤ year ∧ year ≤ 9999 then some year else none
    let (h,m,s) ← parseTime time
    if eqIgnoreAsciiCase zone "UTC".toList || eqIgnoreAsciiCase zone "GMT".toList then
      some (daysFromCivil year month day*86400+h*3600+m*60+s)
    else none
  | _ => none

def parseDate (value : List Char) : DateField :=
  if trim value = [] then .malformed
  else
    match parseParts (words (afterWeekday value)) with
    | some t => .parsed t
    | none => .malformed

def splitList (value : List Char) : List (List Char) := words value

/-- The digest entry a continuation line carries, if it is a well-formed one. -/
def parseEntry (entry : List Char) : Option ReleaseEntry :=
  match words entry with
  | hash :: size :: path :: _ => do
    let digest ← hex32 hash
    let size ← parseUnsigned 0x10000000000000000 size
    some ⟨path,digest,size⟩
  | _ => none

/-- `in_sha256` is `some true` inside the `SHA256` section and `some false` inside
another digest section. -/
structure Parser where
  out : Release := {}
  inSha256 : Option Bool := none
  deriving DecidableEq

def Parser.continuation (p : Parser) (line : List Char) : Parser :=
  let entry := trim line
  if entry = [] then p
  else if p.inSha256 = some true ∧ p.out.sha256.length < maxReleaseEntries then
    match parseEntry entry with
    | some e => { p with out := { p.out with sha256 := p.out.sha256 ++ [e] } }
    | none => p
  else p

inductive Field where
  | suite | codename | version | date | validUntil | acquireByHash | components | architectures
  deriving DecidableEq

def Release.set (r : Release) (value : List Char) : Field → Release
  | .suite => { r with suite := value }
  | .codename => { r with codename := value }
  | .version => { r with version := value }
  | .date => { r with date := parseDate value }
  | .validUntil => { r with validUntil := parseDate value }
  | .acquireByHash => { r with acquireByHash := eqIgnoreAsciiCase value "yes".toList }
  | .components => { r with components := splitList value }
  | .architectures => { r with architectures := splitList value }

inductive Key where
  | sha256 | otherDigest | field (f : Field) | unknown
  deriving DecidableEq

def Key.ofChars (key : List Char) : Key :=
  if key = "SHA256".toList then .sha256
  else if key = "MD5Sum".toList ∨ key = "SHA1".toList ∨ key = "SHA512".toList then .otherDigest
  else if key = "Suite".toList then .field .suite
  else if key = "Codename".toList then .field .codename
  else if key = "Version".toList then .field .version
  else if key = "Date".toList then .field .date
  else if key = "Valid-Until".toList then .field .validUntil
  else if key = "Acquire-By-Hash".toList then .field .acquireByHash
  else if key = "Components".toList then .field .components
  else if key = "Architectures".toList then .field .architectures
  else .unknown

def Parser.field (p : Parser) (key value : List Char) : Parser :=
  match Key.ofChars key with
  | .sha256 => { p with inSha256 := some true }
  | .otherDigest => { p with inSha256 := some false }
  | .field f => { p with out := p.out.set value f }
  | .unknown => p

def splitColon (line : List Char) : Option (List Char × List Char) :=
  if ':' ∈ line then
    some (trim (line.takeWhile (· ≠ ':')),trim (line.dropWhile (· ≠ ':')).tail)
  else none

def isContinuation (line : List Char) : Bool :=
  line.head? = some ' ' || line.head? = some '\t'

def Parser.line (p : Parser) (line : List Char) : Parser :=
  if isContinuation line then p.continuation line
  else
    let p := { p with inSha256 := none }
    match splitColon line with
    | none => p
    | some (key,value) => p.field key value

def stripCr (line : List Char) : List Char :=
  if line.getLast? = some '\r' then line.dropLast else line

def decodeLine (raw : List UInt8) : List Char := stripCr ((utf8Decode raw).getD [])

def parseLines (lines : List (List UInt8)) : Release :=
  (lines.foldl (fun p raw => Parser.line p (decodeLine raw)) {}).out

def parseRelease (text : List UInt8) : Release :=
  { parseLines ((text.take maxReleaseBytes).splitOn 10) with
    truncated := maxReleaseBytes < text.length }

end PaghOS.Apt
