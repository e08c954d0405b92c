import PaghOS.Apt.Resolve
import PaghOS.Apt.Signature
import PaghOS.Pkg.Tar

/-!
A session of `apt update` and `apt install` (`pkg/apt.rs`): the index kept between the
calls, the checks each download passes, and what reaches the installer.
-/

namespace PaghOS.Apt

open Check
open Pkg

inductive Compression where
  | none | gzip | xz | zstd
  deriving DecidableEq

/-- The refusals of the two commands; `metadata` is one of the signed text's fetch. -/
inductive OpError where
  | networkDisabled
  | noNetwork
  | noIndex
  | notFound (name : List Char)
  | download (pkg : List Char)
  | parse (pkg : List Char)
  | indexTooLarge
  | install (pkg : List Char)
  | metadata (e : AptOpError)
  | releaseExpired (detail : String)
  | releaseFuture (detail : String)
  | releaseDateUnreadable (field : String)
  | releaseMalformed (detail : String)
  | releaseSuiteMismatch
  | noIndexEntry (path : List Char)
  | indexMismatch (path : List Char) (cause : String)
  | digestUnavailable (pkg : List Char)
  | digestMismatch (pkg : List Char) (cause : String)
  deriving DecidableEq

structure RepoConfig extends AptConfig where
  component : String
  arch : String

/-- What the commands rest on: the hash, the signature check, the decoders. -/
structure Machinery where
  sha256 : List UInt8 → List UInt8
  verifier : Verifier
  /-- The chunks handed on, and whether the stream ended well. -/
  decompressStream : List UInt8 → Compression → List (List UInt8) × Bool
  /-- `parse_ar`, `locate_members`, `compression_of` and `decompress_data` in turn. -/
  dataTar : List UInt8 → Option (List UInt8)
  /-- The build has the network feature. -/
  network : Bool

def Release.sha256For (release : Release) (path : List Char) : Option ReleaseEntry :=
  release.sha256.find? (·.path = path)

def Release.matchesSuite (release : Release) (suite : List Char) : Bool :=
  if release.suite = [] ∧ release.codename = [] then true
  else release.suite = suite || release.codename = suite

section Policy

variable (cfg : RepoConfig) (release : Release) (now : Int)

def checkDate : Except OpError Unit :=
  match release.date with
  | .parsed date =>
    ensure (¬ date > now+maxSkew) (.releaseFuture "Date is after the current time")
  | .malformed => .error (.releaseDateUnreadable "Date")
  | .absent => .ok ()

def checkValidUntil : Except OpError Unit :=
  match release.validUntil with
  | .parsed untilTime => ensure (¬ now > untilTime) (.releaseExpired "Valid-Until has passed")
  | .malformed => .error (.releaseDateUnreadable "Valid-Until")
  | .absent => .ok ()

def checkReleasePolicy : Except OpError Unit := do
  ensure (release.truncated = false)
    (.releaseMalformed "the body is larger than the accepted parse limit")
  ensure (release.matchesSuite cfg.suite.toList = true) .releaseSuiteMismatch
  ensure (release.architectures = [] ∨
      (release.architectures.any fun a => a = cfg.arch.toList || a = "all".toList) = true)
    (.releaseMalformed "the configured architecture is not listed in Architectures")
  checkDate release now
  checkValidUntil release now

end Policy

section Bodies

variable (m : Machinery)

def verifyIndexBody (path : List Char) (bytes : List UInt8) (entry : ReleaseEntry) :
    Except OpError Unit := do
  ensure (bytes.length = entry.size) (.indexMismatch path "SizeMismatch")
  ensure (m.sha256 bytes = entry.sha256) (.indexMismatch path "HashMismatch")

def verifyPackageBody (pkg : List Char) (bytes expected : List UInt8) (expectedSize : Nat) :
    Except OpError Unit := do
  ensure (bytes.length = expectedSize) (.digestMismatch pkg "SizeMismatch")
  ensure (m.sha256 bytes = expected) (.digestMismatch pkg "HashMismatch")

/-- The chunks go to the parser while they are decoded; the index is only kept if the
stream ends well. -/
def streamParseIndex (bytes : List UInt8) (comp : Compression) : Except OpError PackageIndex :=
  let out := m.decompressStream bytes comp
  if out.2 then .ok (streamIndex out.1) else .error .indexTooLarge

end Bodies

structure Tried where
  listed : Nat := 0
  lastDecodeErr : Option OpError := none
  sawNoNetwork : Bool := false

structure Variant where
  url : String
  path : List Char
  comp : Compression

def RepoConfig.relDir (cfg : RepoConfig) : String := cfg.component ++ "/binary-" ++ cfg.arch

def RepoConfig.candidates (cfg : RepoConfig) : List Variant :=
  let dir := cfg.base ++ "/dists/" ++ cfg.suite ++ "/" ++ cfg.relDir
  [⟨dir ++ "/Packages.gz",(cfg.relDir ++ "/Packages.gz").toList,.gzip⟩,
    ⟨dir ++ "/Packages.xz",(cfg.relDir ++ "/Packages.xz").toList,.xz⟩,
    ⟨dir ++ "/Packages",(cfg.relDir ++ "/Packages").toList,.none⟩]

section Update

variable (m : Machinery) (fetch : String → Except FetchError (List UInt8))

/-- A body that is not the listed one ends the update; one that does not decode only
ends its variant. -/
def tryVariants (release : Release) : Tried → List Variant → Except OpError (PackageIndex ⊕ Tried)
  | tried, [] => .ok (.inr tried)
  | tried, variant :: rest =>
    match release.sha256For variant.path with
    | none => tryVariants release tried rest
    | some entry =>
      let tried := { tried with listed := tried.listed+1 }
      match fetch variant.url with
      | .ok bytes =>
        match verifyIndexBody m variant.path bytes entry with
        | .error e => .error e
        | .ok () =>
          match streamParseIndex m bytes variant.comp with
          | .ok index => .ok (.inl index)
          | .error e => tryVariants release { tried with lastDecodeErr := some e } rest
      | .error .noNetwork => .ok (.inr { tried with sawNoNetwork := true })
      | .error _ => tryVariants release tried rest

def updateVerified (cfg : RepoConfig) (now : Int) : Except OpError PackageIndex := do
  ensure (m.network = true) .networkDisabled
  let signed ← mapErr OpError.metadata
    (fetchSignedRelease m.verifier fetch cfg.toAptConfig now)
  let release := parseRelease signed.text
  checkReleasePolicy cfg release now
  match ← tryVariants m fetch release {} cfg.candidates with
  | .inl index => .ok index
  | .inr tried =>
    if tried.listed = 0 then .error (.noIndexEntry (cfg.relDir ++ "/Packages.gz").toList)
    else
      match tried.lastDecodeErr with
      | some e => .error e
      | none => .error (if tried.sawNoNetwork then .noNetwork else .download "Packages".toList)

end Update

/-- A call of `install_data_tar`: the entries, and the index at that moment. -/
structure Unpacked where
  entries : List TarEntry
  index : Option PackageIndex

structure Session where
  index : Option PackageIndex := none
  installed : List (List Char) := []
  unpacked : List Unpacked := []

section Commands

variable (m : Machinery)

def Session.update (fetch : String → Except FetchError (List UInt8)) (cfg : RepoConfig)
    (now : Int) (s : Session) : Except OpError Nat × Session :=
  match updateVerified m fetch cfg now with
  | .ok index => (.ok index.records.length,{ s with index := some index })
  | .error e => (.error e,{ s with index := none })

structure Target where
  pkg : List Char
  filename : List Char
  sha256 : Option (List UInt8)
  size : Nat

def PkgRef.target (r : PkgRef) : Target := ⟨r.package,r.filename,r.sha256,r.size⟩

def targets (index : PackageIndex) (plan : List (List Char)) : List Target :=
  plan.filterMap fun pkg => ((index.get pkg).or (index.getProvider pkg)).map PkgRef.target

/-- What answers during one `install`: the network and the file system, by step. -/
structure World where
  fetch : Nat → String → Except FetchError (List UInt8)
  installDataTar : Nat → List TarEntry → Bool

def downloadError (pkg : List Char) : FetchError → OpError
  | .noNetwork => .noNetwork
  | _ => .download pkg

def fetchPackage (cfg : RepoConfig) (world : World) (step : Nat) (t : Target) :
    Except OpError (List TarEntry) := do
  ensure (t.filename ≠ []) (.download t.pkg)
  let expected ← demand t.sha256 (.digestUnavailable t.pkg)
  let bytes ← mapErr (downloadError t.pkg)
    (world.fetch step (cfg.base ++ "/" ++ String.ofList t.filename))
  verifyPackageBody m t.pkg bytes expected t.size
  let tarBytes ← demand (m.dataTar bytes) (.parse t.pkg)
  mapErr (fun _ => .parse t.pkg) (readTar tarBytes)

def installLoop (cfg : RepoConfig) (world : World) :
    Nat → List Target → List (List Char) → Session → Except OpError (List (List Char)) × Session
  | _, [], done, s => (.ok done,s)
  | step, t :: rest, done, s =>
    match fetchPackage m cfg world step t with
    | .error e => (.error e,s)
    | .ok entries =>
      let s := { s with unpacked := s.unpacked ++ [⟨entries,s.index⟩] }
      if world.installDataTar step entries then
        installLoop cfg world (step+1) rest (done ++ [t.pkg])
          { s with installed := s.installed ++ [t.pkg] }
      else (.error (.install t.pkg),s)

/-- `install`; without a result while the resolver's loop has too little fuel. -/
def Session.install (cfg : RepoConfig) (world : World) (fuel : Nat) (name : List Char)
    (s : Session) : Option (Except OpError (List (List Char))) × Session :=
  if m.network = false then (some (.error .networkDisabled),s)
  else
    match s.index with
    | none => (some (.error .noIndex),s)
    | some index =>
      match resolveInstall index s.installed fuel name with
      | none => (none,s)
      | some (.error (.notFound n)) => (some (.error (.notFound n)),s)
      | some (.ok plan) =>
        let out := installLoop m cfg world 0 (targets index plan) [] s
        (some out.1,out.2)

inductive Call where
  | update (fetch : String → Except FetchError (List UInt8)) (cfg : RepoConfig) (now : Int)
  | install (cfg : RepoConfig) (world : World) (fuel : Nat) (name : List Char)

def Session.call (s : Session) : Call → Session
  | .update fetch cfg now => (s.update m fetch cfg now).2
  | .install cfg world fuel name => (s.install m cfg world fuel name).2

def session (calls : List Call) : Session := calls.foldl (Session.call m) {}

end Commands

end PaghOS.Apt
