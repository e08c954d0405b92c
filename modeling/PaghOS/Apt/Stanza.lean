import PaghOS.Apt.Release
import PaghOS.Lib.Utf8

/-!
The `Packages` stanzas (`pkg/apt_index.rs`): fields collected line by line, the
owned record and the borrowed view of a stanza, and the parser fed chunk by chunk.
-/

namespace PaghOS.Apt

open Text

def parseSha256Hex (value : List Char) : Option (List UInt8) := hex32 value

/-- The bare name of a dependency atom: no version constraint, no qualifier. -/
def stripAtom (atom : List Char) : List Char :=
  let trimmed := trim (atom.takeWhile (· ≠ '('))
  trim (trimmed.takeWhile (· ≠ ':'))

structure DepGroup where
  alts : List (List Char)
  deriving DecidableEq

def bareNames (sep : Char) (value : List Char) : List (List Char) :=
  ((value.splitOn sep).map stripAtom).filter (· ≠ [])

def parseDepends (value : List Char) : List DepGroup :=
  (value.splitOn ',').filterMap fun andPart =>
    let alts := bareNames '|' andPart
    if alts = [] then none else some ⟨alts⟩

def parseProvides (value : List Char) : List (List Char) := bareNames ',' value

structure PkgRecord where
  package : List Char
  version : List Char
  arch : List Char
  filename : List Char
  depends : List DepGroup
  provides : List (List Char)
  size : Nat
  sha256 : Option (List UInt8)
  deriving DecidableEq

inductive CurField where
  | none | package | version | arch | filename | depends | preDepends | provides | size | sha256
  deriving DecidableEq

structure StanzaBuilder where
  package : List Char := []
  version : List Char := []
  arch : List Char := []
  filename : List Char := []
  depends : List Char := []
  preDepends : List Char := []
  provides : List Char := []
  size : List Char := []
  sha256 : List Char := []
  cur : CurField := .none
  any : Bool := false
  deriving DecidableEq

namespace StanzaBuilder

variable (b : StanzaBuilder)

def isEmpty : Bool := !b.any

def hasPackage : Bool := trim b.package ≠ []

def slot : CurField → Option (List Char)
  | .package => some b.package
  | .version => some b.version
  | .arch => some b.arch
  | .filename => some b.filename
  | .depends => some b.depends
  | .preDepends => some b.preDepends
  | .provides => some b.provides
  | .size => some b.size
  | .sha256 => some b.sha256
  | .none => Option.none

def setSlot (value : List Char) : CurField → StanzaBuilder
  | .package => { b with package := value }
  | .version => { b with version := value }
  | .arch => { b with arch := value }
  | .filename => { b with filename := value }
  | .depends => { b with depends := value }
  | .preDepends => { b with preDepends := value }
  | .provides => { b with provides := value }
  | .size => { b with size := value }
  | .sha256 => { b with sha256 := value }
  | .none => b

def classify (key : List Char) : CurField :=
  if key = "Package".toList then .package
  else if key = "Version".toList then .version
  else if key = "Architecture".toList then .arch
  else if key = "Filename".toList then .filename
  else if key = "Depends".toList then .depends
  else if key = "Pre-Depends".toList then .preDepends
  else if key = "Provides".toList then .provides
  else if key = "Size".toList then .size
  else if key = "SHA256".toList then .sha256
  else .none

def continuation (cont : List Char) : StanzaBuilder :=
  match b.slot b.cur with
  | none => b
  | some v =>
    if cont = [] then b
    else b.setSlot (if v = [] then cont else v ++ ' ' :: cont) b.cur

def feed (line : List Char) : StanzaBuilder :=
  if isContinuation line then b.continuation (trim line)
  else
    match splitColon line with
    | none => b
    | some (key,value) =>
      if key = [] then b
      -- An unknown key has no slot, so the lines that continue it are dropped.
      else { b with any := true, cur := classify key }.setSlot value (classify key)

def parseSize (value : List Char) : Nat := (parseUnsigned 18446744073709551616 value).getD 0

def buildRecord : Option PkgRecord :=
  let package := trim b.package
  if package = [] then none
  else some {
    package
    version := trim b.version
    arch := trim b.arch
    filename := trim b.filename
    depends :=
      (if b.preDepends = [] then [] else parseDepends b.preDepends) ++
        (if b.depends = [] then [] else parseDepends b.depends)
    provides := if b.provides = [] then [] else parseProvides b.provides
    size := parseSize (trim b.size)
    sha256 := parseSha256Hex (trim b.sha256) }

end StanzaBuilder

structure DepGroupView where
  andPart : List Char
  deriving DecidableEq

def DepGroupView.alts (g : DepGroupView) : List (List Char) := bareNames '|' g.andPart

def DepGroupView.isEmpty (g : DepGroupView) : Bool := g.alts.head?.isNone

/-- A view borrows the parser's buffers; none is made of a stanza without a package. -/
structure StanzaView where
  builder : StanzaBuilder
  named : builder.hasPackage = true
  deriving DecidableEq

namespace StanzaView

variable (v : StanzaView)

def field (key : List Char) : List Char :=
  match v.builder.slot (StanzaBuilder.classify key) with
  | some value => trim value
  | none => []

def package : List Char := v.field "Package".toList
def version : List Char := v.field "Version".toList
def arch : List Char := v.field "Architecture".toList
def filename : List Char := v.field "Filename".toList
def size : Nat := StanzaBuilder.parseSize (v.field "Size".toList)
def sha256 : Option (List UInt8) := parseSha256Hex (v.field "SHA256".toList)

def depends : List DepGroupView :=
  (((v.field "Pre-Depends".toList).splitOn ',' ++ (v.field "Depends".toList).splitOn ',').map
    DepGroupView.mk).filter (fun g => !g.isEmpty)

def provides : List (List Char) := bareNames ',' (v.field "Provides".toList)

def record : PkgRecord where
  package := v.package
  version := v.version
  arch := v.arch
  filename := v.filename
  depends := v.depends.map fun g => ⟨g.alts⟩
  provides := v.provides
  size := v.size
  sha256 := v.sha256

end StanzaView

structure StanzaParser where
  carry : List UInt8 := []
  builder : StanzaBuilder := {}
  deriving DecidableEq

namespace StanzaParser

/-- One trailing carriage return is taken off before the line is decoded. -/
def lineText (rawLine : List UInt8) : List Char :=
  utf8Lossy (if rawLine.getLast? = some 13 then rawLine.dropLast else rawLine)

section Consume

variable {σ : Type} (consume : σ → StanzaBuilder → σ)

def processLine (p : StanzaParser) (rawLine : List UInt8) (s : σ) : StanzaParser × σ :=
  let line := lineText rawLine
  if line = [] then
    if p.builder.isEmpty then (p,s) else ({ p with builder := {} },consume s p.builder)
  else ({ p with builder := p.builder.feed line },s)

/-- The scan of one chunk; `line` is what the chunk holds since the last newline. -/
def pushFrom (p : StanzaParser) (line : List UInt8) : List UInt8 → σ → StanzaParser × σ
  | [], s => ({ p with carry := p.carry ++ line },s)
  | b :: bytes, s =>
    if b = 10 then
      let out := processLine consume { p with carry := [] } (p.carry ++ line) s
      pushFrom out.1 [] bytes out.2
    else pushFrom p (line ++ [b]) bytes s

def pushWith (p : StanzaParser) (bytes : List UInt8) (s : σ) : StanzaParser × σ :=
  pushFrom consume p [] bytes s

def finishWith (p : StanzaParser) (s : σ) : σ :=
  let out := if p.carry = [] then (p,s) else processLine consume { p with carry := [] } p.carry s
  if out.1.builder.isEmpty then out.2 else consume out.2 out.1.builder

def stream (chunks : List (List UInt8)) (s : σ) : σ :=
  let out := chunks.foldl (fun out chunk => pushWith consume out.1 chunk out.2)
    (({} : StanzaParser),s)
  finishWith consume out.1 out.2

end Consume

section Sinks

variable {σ : Type}

def ownedSink (emit : σ → PkgRecord → σ) (s : σ) (b : StanzaBuilder) : σ :=
  match b.buildRecord with
  | some rec => emit s rec
  | none => s

def viewSink (emit : σ → StanzaView → σ) (s : σ) (b : StanzaBuilder) : σ :=
  if h : b.hasPackage = true then emit s ⟨b,h⟩ else s

def streamRecords (emit : σ → PkgRecord → σ) (chunks : List (List UInt8)) (s : σ) : σ :=
  stream (ownedSink emit) chunks s

def streamViews (emit : σ → StanzaView → σ) (chunks : List (List UInt8)) (s : σ) : σ :=
  stream (viewSink emit) chunks s

end Sinks

end StanzaParser

def parsePackages (text : List UInt8) : List PkgRecord :=
  StanzaParser.streamRecords (fun records rec => records ++ [rec]) [text] []

end PaghOS.Apt
