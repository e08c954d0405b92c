import PaghOS.Apt.Clearsign
import PaghOS.Lib.Check

/-!
The check of a signature block against the pinned keyring (`pkg/openpgp.rs`).
The packet layer and the mathematics of the signatures are parameters.
-/

namespace PaghOS.Apt

open Check

inductive CryptoError where
  | keyTooSmall | keyTooLarge | malformedKey | malformedSignature | verifyFailed
  | unsupportedCurve
  deriving DecidableEq

/-- The refusals of the signature layer; `packet` is one of the layer below. -/
inductive SignatureError where
  | packet (cause : String)
  | crypto (e : CryptoError)
  | noSignature
  | tooManySignatures
  | sigTypeMismatch
  | hashHeaderMismatch
  | unsupportedHashAlgo (id : UInt8)
  | algoMismatch
  | noIssuer
  | noTrustedSignature
  | badSignature
  | fingerprintMismatch
  | keyMetadataMismatch
  | uncertifiedKey
  | noSubkeyBinding
  | badSubkeyBinding
  | notASigningKey
  | expired
  | notYetValid
  | revoked
  | futureSignature
  deriving DecidableEq

def maxSignatures : Nat := 16
def maxSkew : Int := 86400
def keyFlagSign : UInt8 := 0x02

def sigBinary : UInt8 := 0x00
def sigGenericCert : UInt8 := 0x10
def sigPositiveCert : UInt8 := 0x13
def sigDirectKey : UInt8 := 0x1F

def algoRsa : UInt8 := 1
def algoRsaSign : UInt8 := 3
def algoEcdsa : UInt8 := 19
def algoEddsa : UInt8 := 22

def HashAlgo.fromId (id : UInt8) : Option HashAlgo :=
  if id = 8 then some .sha256
  else if id = 9 then some .sha384
  else if id = 10 then some .sha512
  else none

inductive Curve where
  | p256 | p384 | p521
  deriving DecidableEq

inductive KeyMaterial where
  | rsa (n e : List UInt8)
  | ed25519 (point : List UInt8)
  | ecdsa (curve : Curve) (point : List UInt8)
  deriving DecidableEq

structure SignaturePacket where
  sigType : UInt8
  pubAlgo : UInt8
  hashAlgo : UInt8
  hashedPortion : List UInt8
  created : Option Nat
  keyExpiry : Option Nat
  issuerKeyid : Option (List UInt8)
  issuerFpr : Option (List UInt8)
  keyFlags : Option UInt8
  left16 : List UInt8
  mpis : List (List UInt8)
  deriving DecidableEq

structure PublicKey where
  created : Nat
  algo : UInt8
  material : KeyMaterial
  body : List UInt8
  deriving DecidableEq

structure Subkey where
  key : PublicKey
  binding : Option SignaturePacket
  revocations : List SignaturePacket
  deriving DecidableEq

structure KeyBlock where
  primary : PublicKey
  uids : List (List UInt8)
  certifications : List SignaturePacket
  subkeys : List Subkey
  revocations : List SignaturePacket
  deriving DecidableEq

structure PinnedKey where
  label : List UInt8
  fingerprint : List UInt8
  algo : UInt8
  bits : Nat
  created : Nat
  expires : Option Nat
  block : List UInt8
  subkeys : List (List UInt8)
  deriving DecidableEq

structure Primitives where
  packets : List UInt8 → List (Except SignatureError (Nat × List UInt8))
  parseSignature : List UInt8 → Except SignatureError SignaturePacket
  parseKeyBlock : List UInt8 → Except SignatureError KeyBlock
  v4Fingerprint : List UInt8 → List UInt8
  v4Digest : HashAlgo → (parts : List (List UInt8)) → (hashed : List UInt8) → List UInt8
  keyDigest : HashAlgo → (key hashed : List UInt8) → List UInt8
  keyPairDigest : HashAlgo → (primary sub hashed : List UInt8) → List UInt8
  certificationDigest : HashAlgo → (key uid hashed : List UInt8) → List UInt8
  verifyRsa : (n e : List UInt8) → HashAlgo → (digest s : List UInt8) → Except CryptoError Unit
  verifyEd25519 : (point digest r s : List UInt8) → Except CryptoError Unit
  verifyEcdsaP256 : (point digest r s : List UInt8) → Except CryptoError Unit
  verifyEcdsaP384 : (point digest r s : List UInt8) → Except CryptoError Unit

def bitLen (bytes : List UInt8) : Nat :=
  match bytes.dropWhile (· = 0) with
  | [] => 0
  | first :: rest => rest.length*8+(first.toNat.log2+1)

def PublicKey.bits (key : PublicKey) : Nat :=
  match key.material with
  | .rsa n _ => bitLen n%65536
  | .ed25519 _ => 255
  | .ecdsa .p256 _ => 256
  | .ecdsa .p384 _ => 384
  | .ecdsa .p521 _ => 521

inductive SignatureMpis where
  | rsa (s : List UInt8)
  | pair (r s : List UInt8)
  deriving DecidableEq

def signatureBytes : KeyMaterial → List (List UInt8) → Except SignatureError SignatureMpis
  | .rsa _ _, [s] => .ok (.rsa s)
  | .ed25519 _, [r,s] => .ok (.pair r s)
  | .ecdsa _ _, [r,s] => .ok (.pair r s)
  | _, _ => .error .algoMismatch

def algOf : KeyMaterial → UInt8
  | .rsa _ _ => algoRsa
  | .ed25519 _ => algoEddsa
  | .ecdsa _ _ => algoEcdsa

def expiryOf (created : Nat) : Option Nat → Option Nat
  | some secs => if secs > 0 then some (min (created+secs) 4294967295) else none
  | none => none

structure PrimaryCert where
  expires : Option Nat
  flags : Option UInt8
  deriving DecidableEq

inductive KeyChoice where
  | primary
  | subkey (j : Nat)
  deriving DecidableEq

def PinnedKey.choose (pinned : PinnedKey) (test : List UInt8 → Bool) : Option KeyChoice :=
  if test pinned.fingerprint then some .primary
  else (pinned.subkeys.findIdx? test).map .subkey

def locateBy (keyring : List PinnedKey) (test : List UInt8 → Bool) : Option (PinnedKey × KeyChoice) :=
  keyring.findSome? (fun pinned => (pinned.choose test).map (fun choice => (pinned,choice)))

/-- A fingerprint decides alone; only a signature without one is found by the
key id, the last eight bytes of a fingerprint. -/
def locate (keyring : List PinnedKey) (sig : SignaturePacket) : Option (PinnedKey × KeyChoice) :=
  match sig.issuerFpr with
  | some fpr => locateBy keyring (fun f => f = fpr)
  | none =>
    match sig.issuerKeyid with
    | some id => locateBy keyring (fun f => f.drop 12 = id)
    | none => none

namespace Primitives

variable (p : Primitives)

def verifyMaterial (material : KeyMaterial) (alg : HashAlgo) (digest : List UInt8)
    (sig : SignatureMpis) : Except SignatureError Unit :=
  match material,sig with
  | .rsa n e,.rsa s => mapErr .crypto (p.verifyRsa n e alg digest s)
  | .ed25519 point,.pair r s => mapErr .crypto (p.verifyEd25519 point digest r s)
  | .ecdsa .p256 point,.pair r s => mapErr .crypto (p.verifyEcdsaP256 point digest r s)
  | .ecdsa .p384 point,.pair r s => mapErr .crypto (p.verifyEcdsaP384 point digest r s)
  | .ecdsa .p521 _,.pair _ _ => .error (.crypto .unsupportedCurve)
  | _,_ => .error .algoMismatch

def fingerprint (key : PublicKey) : List UInt8 := p.v4Fingerprint key.body

def certMatches (block : KeyBlock) (cert : SignaturePacket) (alg : HashAlgo) (mpis : SignatureMpis)
    (digest : List UInt8) : Bool :=
  digest.take 2 = cert.left16 ∧ p.verifyMaterial block.primary.material alg digest mpis = .ok ()

def selfCertifies (block : KeyBlock) (cert : SignaturePacket) : Bool :=
  match HashAlgo.fromId cert.hashAlgo with
  | none => false
  | some alg =>
    match signatureBytes block.primary.material cert.mpis with
    | .error _ => false
    | .ok mpis =>
      if cert.sigType = sigDirectKey then
        p.certMatches block cert alg mpis (p.keyDigest alg block.primary.body cert.hashedPortion)
      else if sigGenericCert ≤ cert.sigType ∧ cert.sigType ≤ sigPositiveCert then
        block.uids.any (fun uid => p.certMatches block cert alg mpis
          (p.certificationDigest alg block.primary.body uid cert.hashedPortion))
      else false

def lowerExpiry : Option Nat → Option Nat → Option Nat
  | some a, some b => some (min a b)
  | some a, none => some a
  | none, b => b

def certify (block : KeyBlock) (best : Option PrimaryCert) (cert : SignaturePacket) :
    Option PrimaryCert :=
  if p.selfCertifies block cert then
    let this : PrimaryCert := ⟨expiryOf block.primary.created cert.keyExpiry,cert.keyFlags⟩
    match best with
    | some prev => some ⟨lowerExpiry prev.expires this.expires,prev.flags.or this.flags⟩
    | none => some this
  else best

def certified (block : KeyBlock) : Except SignatureError PrimaryCert :=
  demand (block.certifications.foldl (p.certify block) none) .uncertifiedKey

def revokes (revoker : PublicKey) (primaryBody : List UInt8) (subkeyBody : Option (List UInt8))
    (rev : SignaturePacket) : Bool :=
  match HashAlgo.fromId rev.hashAlgo with
  | none => false
  | some alg =>
    let digest := match subkeyBody with
      | some sub => p.keyPairDigest alg primaryBody sub rev.hashedPortion
      | none => p.keyDigest alg primaryBody rev.hashedPortion
    match signatureBytes revoker.material rev.mpis with
    | .error _ => false
    | .ok mpis => p.verifyMaterial revoker.material alg digest mpis = .ok ()

def checkRevocations (revocations : List SignaturePacket) (revoker : PublicKey)
    (primaryBody : List UInt8) (subkeyBody : Option (List UInt8)) : Except SignatureError Unit :=
  checkAll (fun rev => ensure (¬ p.revokes revoker primaryBody subkeyBody rev) .revoked) revocations

def findSubkey (block : KeyBlock) (want : List UInt8) : Option Subkey :=
  block.subkeys.find? (fun s => p.fingerprint s.key = want)

def checkSubkey (block : KeyBlock) (want : List UInt8) : Except SignatureError Unit := do
  let sub ← demand (p.findSubkey block want) .fingerprintMismatch
  let binding ← demand sub.binding .noSubkeyBinding
  let alg ← demand (HashAlgo.fromId binding.hashAlgo) (.unsupportedHashAlgo binding.hashAlgo)
  let mpis ← signatureBytes block.primary.material binding.mpis
  mapErr (fun _ => SignatureError.badSubkeyBinding) (p.verifyMaterial block.primary.material alg
    (p.keyPairDigest alg block.primary.body sub.key.body binding.hashedPortion) mpis)
  p.checkRevocations sub.revocations block.primary block.primary.body (some sub.key.body)

def validateBlock (pinned : PinnedKey) (block : KeyBlock) (now : Int) :
    Except SignatureError PrimaryCert := do
  ensure (p.fingerprint block.primary = pinned.fingerprint) .fingerprintMismatch
  ensure (block.primary.created = pinned.created ∧ block.primary.bits = pinned.bits ∧
    block.primary.algo = pinned.algo) .keyMetadataMismatch
  ensure (pinned.label ∈ block.uids) .keyMetadataMismatch
  let primaryCert ← p.certified block
  ensure (pinned.expires = primaryCert.expires) .keyMetadataMismatch
  p.checkRevocations block.revocations block.primary block.primary.body none
  checkAll (p.checkSubkey block) pinned.subkeys
  ensure (¬ now+maxSkew < pinned.created) .notYetValid
  ensure (∀ expires ∈ primaryCert.expires, ¬ now > (expires : Int)) .expired
  .ok primaryCert

/-- The key that signs, with what its certification or binding says of it. -/
structure SigningKey where
  material : KeyMaterial
  fingerprint : List UInt8
  created : Nat
  expires : Option Nat
  flags : Option UInt8
  deriving DecidableEq

def signingKey (pinned : PinnedKey) (block : KeyBlock) (primaryCert : PrimaryCert) :
    KeyChoice → Except SignatureError SigningKey
  | .primary => .ok ⟨block.primary.material,p.fingerprint block.primary,block.primary.created,
      primaryCert.expires,primaryCert.flags⟩
  | .subkey j => do
      let want ← demand pinned.subkeys[j]? .fingerprintMismatch
      let sub ← demand (p.findSubkey block want) .fingerprintMismatch
      let binding ← demand sub.binding .noSubkeyBinding
      .ok ⟨sub.key.material,p.fingerprint sub.key,sub.key.created,
        expiryOf sub.key.created binding.keyExpiry,binding.keyFlags⟩

def checkTimes (key : SigningKey) (sig : SignaturePacket) (now : Int) : Except SignatureError Unit := do
  ensure (key.flags.all fun flags => flags &&& keyFlagSign ≠ 0) .notASigningKey
  ensure (∀ expires ∈ key.expires, ¬ now > (expires : Int)) .expired
  ensure (¬ now+maxSkew < key.created) .notYetValid
  ensure (∀ created ∈ sig.created, ¬ (created : Int) > now+maxSkew) .futureSignature
  ensure (∀ created ∈ sig.created, ¬ (created : Int)+maxSkew < key.created) .futureSignature
  ensure (∀ created ∈ sig.created, ∀ expires ∈ key.expires,
    ¬ (created : Int) > (expires : Int)+maxSkew) .expired

def compatible (material : KeyMaterial) (pubAlgo : UInt8) : Bool :=
  match material with
  | .rsa _ _ => pubAlgo = algoRsa || pubAlgo = algoRsaSign
  | _ => pubAlgo = algOf material

def checkDocument (material : KeyMaterial) (sig : SignaturePacket) (parts : List (List UInt8)) :
    Except SignatureError Unit := do
  ensure (compatible material sig.pubAlgo) .algoMismatch
  let alg ← demand (HashAlgo.fromId sig.hashAlgo) (.unsupportedHashAlgo sig.hashAlgo)
  let digest := p.v4Digest alg parts sig.hashedPortion
  ensure (digest.take 2 = sig.left16) .badSignature
  let mpis ← signatureBytes material sig.mpis
  p.verifyMaterial material alg digest mpis

def verifyWithPinned (located : PinnedKey × KeyChoice) (sig : SignaturePacket)
    (parts : List (List UInt8)) (now : Int) : Except SignatureError Verified := do
  let block ← p.parseKeyBlock located.1.block
  let primaryCert ← p.validateBlock located.1 block now
  let key ← p.signingKey located.1 block primaryCert located.2
  checkTimes key sig now
  p.checkDocument key.material sig parts
  .ok ⟨located.1.fingerprint,key.fingerprint⟩

/-- The hash algorithm is one of those the clear-signed message declares; a
detached signature declares none. -/
def hashDeclared (declared : Option (List HashAlgo)) (sig : SignaturePacket) : Bool :=
  match declared with
  | none => true
  | some declared =>
    match HashAlgo.fromId sig.hashAlgo with
    | some alg => declared.contains alg
    | none => false

section Stream

variable (keyring : List PinnedKey) (parts : List (List UInt8)) (expectedSigType : UInt8)
  (declaredHashes : Option (List HashAlgo)) (now : Int)

def collect (signatures : List SignaturePacket) :
    List (Except SignatureError (Nat × List UInt8)) → Except SignatureError (List SignaturePacket)
  | [] => .ok signatures
  | .error e :: _ => .error e
  | .ok (tag,body) :: items =>
    if tag ≠ 2 then collect signatures items
    else do
      ensure (¬ signatures.length ≥ maxSignatures) .tooManySignatures
      let sig ← p.parseSignature body
      collect (signatures ++ [sig]) items

/-- The loop over the packets: `sawUnidentified` and `winner` are its state. -/
def verifyLoop : Bool → Option Verified → List SignaturePacket → Except SignatureError Verified
  | sawUnidentified, winner, [] =>
    demand winner (if sawUnidentified then .noIssuer else .noTrustedSignature)
  | sawUnidentified, winner, sig :: rest => do
      ensure (sig.sigType = expectedSigType) .sigTypeMismatch
      ensure (hashDeclared declaredHashes sig) .hashHeaderMismatch
      match locate keyring sig with
      | none =>
        verifyLoop (sawUnidentified || (sig.issuerFpr.isNone && sig.issuerKeyid.isNone)) winner rest
      | some located => do
          let verified ← p.verifyWithPinned located sig parts now
          verifyLoop sawUnidentified (winner.or (some verified)) rest

def verifyStream (binary : List UInt8) : Except SignatureError Verified := do
  let signatures ← p.collect [] (p.packets binary)
  ensure (signatures ≠ []) .noSignature
  p.verifyLoop keyring parts expectedSigType declaredHashes now false none signatures

end Stream

end Primitives

end PaghOS.Apt
