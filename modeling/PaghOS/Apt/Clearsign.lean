import PaghOS.Lib.Text

/-!
Clear-signed messages: the armor and cleartext framing of
`src/pkg/openpgp_packet.rs`, `verify_clearsigned` and `verify_detached` of
`src/pkg/openpgp.rs` over an abstract check of signature packets, and
`fetch_signed_release` of `src/pkg/apt.rs` over an abstract network.
-/

namespace PaghOS.Apt
open Text

def bytes (s : String) : List UInt8 := s.toList.map (fun c => UInt8.ofNat c.toNat)

def maxArmorBytes : Nat := 64*1024
def maxArmorLine : Nat := 80
def maxClearsignBytes : Nat := 4*1024*1024

inductive PacketError where
  | tooLarge | armorMissing | armorLineTooLong | armorMalformed | armorBase64 | armorCrc
  | armorTrailingData | clearsignMalformed
  deriving DecidableEq

structure ArmorHeader where
  key : List UInt8
  value : List UInt8
  deriving DecidableEq

def trimAscii (line : List UInt8) : List UInt8 := trimBoth isAsciiWhitespace line

def armorHeader (bad : PacketError) (line : List UInt8) : Except PacketError ArmorHeader :=
  if 58 ∈ line then
    let key := trimAscii (line.takeWhile (· ≠ 58))
    if key = [] then .error bad
    else .ok ⟨key,trimAscii (line.dropWhile (· ≠ 58)).tail⟩
  else .error bad

def crc24Bit (crc : UInt32) : UInt32 :=
  let crc := crc <<< 1
  if crc &&& 0x01000000 ≠ 0 then crc ^^^ 0x01864CFB else crc

def crc24Byte (crc : UInt32) (b : UInt8) : UInt32 :=
  (List.range 8).foldl (fun crc _ => crc24Bit crc) (crc ^^^ (b.toUInt32 <<< 16))

def crc24 (data : List UInt8) : List UInt8 :=
  let v := data.foldl crc24Byte 0x00B704CE &&& 0x00FFFFFF
  [(v >>> 16).toUInt8,(v >>> 8).toUInt8,v.toUInt8]

def b64Value (b : UInt8) : Option Nat :=
  if 65 ≤ b ∧ b ≤ 90 then some (b.toNat-65)
  else if 97 ≤ b ∧ b ≤ 122 then some (b.toNat-97+26)
  else if 48 ≤ b ∧ b ≤ 57 then some (b.toNat-48+52)
  else if b = 43 then some 62
  else if b = 47 then some 63
  else none

/-- The loop of `base64_decode`: `n` characters of the open group are in `acc`. -/
def b64Go (acc n pad : Nat) (out : List UInt8) : List UInt8 → Except PacketError (List UInt8)
  | [] =>
    match n,pad with
    | 0,0 => .ok out
    | 2,2 => .ok (out ++ [UInt8.ofNat (acc/16)])
    | 3,1 => .ok (out ++ [UInt8.ofNat (acc/1024),UInt8.ofNat (acc/4)])
    | _,_ => .error .armorBase64
  | b :: bs =>
    if b = 61 then
      if 2 < pad+1 then .error .armorBase64 else b64Go acc n (pad+1) out bs
    else if 0 < pad then .error .armorBase64
    else
      match b64Value b with
      | none => .error .armorBase64
      | some v =>
        let acc := acc*64+v
        if n+1 = 4 then
          b64Go 0 0 pad (out ++ [UInt8.ofNat (acc/65536),UInt8.ofNat (acc/256),UInt8.ofNat acc]) bs
        else b64Go acc (n+1) pad out bs

def base64Decode (body out : List UInt8) : Except PacketError (List UInt8) := b64Go 0 0 0 out body

inductive ArmorState where
  | seeking | headers | payload | done
  deriving DecidableEq

structure Dearmor where
  state : ArmorState := .seeking
  headers : List ArmorHeader := []
  payload : List UInt8 := []
  crc : Option (List UInt8) := none

def beginSig : List UInt8 := bytes "-----BEGIN PGP SIGNATURE-----"
def endSig : List UInt8 := bytes "-----END PGP SIGNATURE-----"
def beginMsg : List UInt8 := bytes "-----BEGIN PGP SIGNED MESSAGE-----"

/-- A line of the payload section that is not blank and not the end line. -/
def Dearmor.payloadLine (d : Dearmor) (line : List UInt8) : Except PacketError Dearmor :=
  if line.head? = some 61 then
    if d.crc.isSome then .error .armorMalformed
    else if line.length ≠ 5 then .error .armorMalformed
    else do
      let raw ← base64Decode line.tail []
      if raw.length ≠ 3 then .error .armorMalformed else .ok { d with crc := some raw }
  else do
    let payload ← base64Decode line d.payload
    .ok { d with payload := payload }

def Dearmor.line (d : Dearmor) (raw : List UInt8) : Except PacketError Dearmor :=
  if maxArmorLine < raw.length then .error .armorLineTooLong
  else
    let line := trimAscii raw
    match d.state with
    | .seeking =>
      if line = beginSig then .ok { d with state := .headers }
      else if line = [] then .ok d
      else .error .armorMissing
    | .headers =>
      if line = [] then .ok { d with state := .payload }
      else if line = beginSig then .error .armorMalformed
      else do
        let h ← armorHeader .armorMalformed line
        .ok { d with headers := d.headers ++ [h] }
    | .payload =>
      if line = endSig then .ok { d with state := .done }
      else if line = [] then .ok d
      else d.payloadLine line
    | .done => if line = [] then .ok d else .error .armorTrailingData

structure Armored where
  headers : List ArmorHeader
  data : List UInt8
  deriving DecidableEq

def dearmor (input : List UInt8) : Except PacketError Armored :=
  if maxArmorBytes < input.length then .error .tooLarge
  else do
    let d ← (input.splitOn 10).foldlM Dearmor.line {}
    if d.state = .done then
      if d.crc.any (fun crc => crc24 d.payload ≠ crc) then .error .armorCrc
      else .ok ⟨d.headers,d.payload⟩
    else if d.state = .seeking then .error .armorMissing
    else .error .armorMalformed

def dearmorOrBinary (input : List UInt8) : Except PacketError (List UInt8) :=
  match input.find? (fun b => !isAsciiWhitespace b) with
  | none => .error .armorMissing
  | some b =>
    if b &&& 0x80 ≠ 0 then
      if maxArmorBytes < input.length then .error .tooLarge else .ok input
    else do
      let a ← dearmor input
      .ok a.data

structure Clearsigned where
  headers : List ArmorHeader
  text : List UInt8
  signature : List UInt8
  deriving DecidableEq

def dropDashEscape : List UInt8 → List UInt8
  | 45 :: 32 :: rest => rest
  | line => line

def isLineEndSpace (b : UInt8) : Bool := b = 32 || b = 9 || b = 13

def canonicalLine (line : List UInt8) : List UInt8 :=
  (dropDashEscape line).rdropWhile isLineEndSpace

def dropFinalNewline (text : List UInt8) : List UInt8 :=
  if [13,10] <:+ text then text.take (text.length-2)
  else if [10] <:+ text then text.take (text.length-1)
  else text

def Clearsigned.canonicalText (cs : Clearsigned) : List UInt8 :=
  [13,10].intercalate (((dropFinalNewline cs.text).splitOn 10).map canonicalLine)

/-- Leading blank lines, then the message line. The scans of `parse_clearsigned` go
line by line; each returns the lines after the one it stops at. -/
def findMessage : List (List UInt8) → Except PacketError (List (List UInt8))
  | [] => .error .armorMissing
  | l :: ls =>
    if trimAscii l = beginMsg then .ok ls
    else if trimAscii l = [] then findMessage ls
    else .error .armorMissing

def readHeaders (acc : List ArmorHeader) :
    List (List UInt8) → Except PacketError (List ArmorHeader × List (List UInt8))
  | [] => .error .clearsignMalformed
  | l :: ls =>
    if trimAscii l = [] then .ok (acc,ls)
    else do
      let h ← armorHeader .clearsignMalformed (trimAscii l)
      readHeaders (acc ++ [h]) ls

def findSignature : List (List UInt8) →
    Except PacketError (List (List UInt8) × List (List UInt8))
  | [] => .error .clearsignMalformed
  | l :: ls =>
    if trimAscii l = beginSig then .ok ([],l :: ls)
    else do
      let (text,sig) ← findSignature ls
      .ok (l :: text,sig)

def parseClearsigned (input : List UInt8) : Except PacketError Clearsigned :=
  if maxClearsignBytes < input.length then .error .tooLarge
  else do
    let body ← findMessage (input.splitOn 10)
    let (headers,body) ← readHeaders [] body
    let (text,sig) ← findSignature body
    .ok ⟨headers,unlines 10 text,[10].intercalate sig⟩

inductive HashAlgo where
  | sha256 | sha384 | sha512
  deriving DecidableEq

def asciiUpper (b : UInt8) : UInt8 := if 97 ≤ b ∧ b ≤ 122 then b-32 else b

def hashNamed (token : List UInt8) : Option HashAlgo :=
  let token := trimAscii (token.map asciiUpper)
  if token = bytes "SHA256" then some .sha256
  else if token = bytes "SHA384" then some .sha384
  else if token = bytes "SHA512" then some .sha512
  else none

def Clearsigned.declaredHashes (cs : Clearsigned) : List HashAlgo :=
  ((cs.headers.filter (fun h => h.key = bytes "Hash")).flatMap
    (fun h => (h.value.splitOn 44).filterMap hashNamed)).foldl
    (fun out alg => if alg ∈ out then out else out ++ [alg]) []

inductive OpenPgpError where
  | packet (e : PacketError)
  | clockUnset
  | signature (stage cause : String)
  deriving DecidableEq

def clockFloor : Int := 1735689600

structure Verified where
  signer : List UInt8
  key : List UInt8
  deriving DecidableEq

/-- The check of a decoded signature block against the pinned keyring: for a text
signature with the declared hash algorithms, and for a binary one. -/
structure Verifier where
  text : (binary signed : List UInt8) → List HashAlgo → Int → Except OpenPgpError Verified
  binary : (binary signed : List UInt8) → Int → Except OpenPgpError Verified

def packetErr {α : Type} : Except PacketError α → Except OpenPgpError α
  | .ok a => .ok a
  | .error e => .error (.packet e)

def verifyDetached (v : Verifier) (signature data : List UInt8) (now : Int) :
    Except OpenPgpError Verified :=
  if now < clockFloor then .error .clockUnset
  else do
    let binary ← packetErr (dearmorOrBinary signature)
    v.binary binary data now

def verifyClearsigned (v : Verifier) (input : List UInt8) (now : Int) :
    Except OpenPgpError (Clearsigned × Verified) :=
  if now < clockFloor then .error .clockUnset
  else do
    let cs ← packetErr (parseClearsigned input)
    let armored ← packetErr (dearmor cs.signature)
    let verified ← v.text armored.data cs.canonicalText cs.declaredHashes now
    .ok (cs,verified)

inductive FetchError where
  | noNetwork
  | status (code : Nat)
  | other
  deriving DecidableEq

inductive AptOpError where
  | noNetwork
  | unsigned (url : String)
  | download (pkg : String)
  | badSignature (stage cause : String)
  deriving DecidableEq

def PacketError.diagnostic : PacketError → String × String
  | .tooLarge => ("armor","TooLarge")
  | .armorMissing => ("armor","ArmorMissing")
  | .armorLineTooLong => ("armor","ArmorLineTooLong")
  | .armorMalformed => ("armor","MalformedArmor")
  | .armorBase64 => ("armor","BadBase64")
  | .armorCrc => ("armor","CrcMismatch")
  | .armorTrailingData => ("armor","TrailingData")
  | .clearsignMalformed => ("clearsign","Malformed")

def OpenPgpError.diagnostic : OpenPgpError → String × String
  | .packet e => e.diagnostic
  | .clockUnset => ("clock","ClockUnset")
  | .signature stage cause => (stage,cause)

def signatureError (e : OpenPgpError) : AptOpError :=
  .badSignature e.diagnostic.1 e.diagnostic.2

structure AptConfig where
  base : String
  suite : String

inductive Source where
  | inRelease | releaseGpg
  deriving DecidableEq

structure SignedRelease where
  text : List UInt8
  source : Source
  signer : List UInt8
  deriving DecidableEq

def AptConfig.url (cfg : AptConfig) (file : String) : String :=
  cfg.base ++ "/dists/" ++ cfg.suite ++ "/" ++ file

def fetchDetached (v : Verifier) (fetch : String → Except FetchError (List UInt8))
    (cfg : AptConfig) (now : Int) : Except AptOpError SignedRelease := do
  let get (file : String) : Except AptOpError (List UInt8) :=
    match fetch (cfg.url file) with
    | .ok b => .ok b
    | .error (.status 404) => .error (.unsigned (cfg.url file))
    | .error .noNetwork => .error .noNetwork
    | .error _ => .error (.download file)
  let signature ← get "Release.gpg"
  let text ← get "Release"
  match verifyDetached v signature text now with
  | .ok verified => .ok ⟨text,.releaseGpg,verified.signer⟩
  | .error e => .error (signatureError e)

def fetchSignedRelease (v : Verifier) (fetch : String → Except FetchError (List UInt8))
    (cfg : AptConfig) (now : Int) : Except AptOpError SignedRelease :=
  match fetch (cfg.url "InRelease") with
  | .ok bytes =>
    match verifyClearsigned v bytes now with
    | .ok (cs,verified) => .ok ⟨cs.text,.inRelease,verified.signer⟩
    | .error e => .error (signatureError e)
  | .error .noNetwork => .error .noNetwork
  | .error _ => fetchDetached v fetch cfg now

end PaghOS.Apt
