import PaghOS.Apt.Signature

/-!
When a set of signatures is accepted. What it takes for one signature to verify
against its pinned key is stated as a list of conditions; the verifier's chain of
checks passes exactly then.
-/

namespace PaghOS.Apt
open List Option

open Check

namespace Primitives

variable (p : Primitives)
variable {α : Type} {cert : PrimaryCert} {pinned : PinnedKey} {key : SigningKey}
    {parts : List (List UInt8)}

def selfCerts (block : KeyBlock) : List SignaturePacket :=
  block.certifications.filter (p.selfCertifies block)

def certExpires (block : KeyBlock) : Option Nat :=
  ((p.selfCerts block).filterMap (fun cert => expiryOf block.primary.created cert.keyExpiry)).min?

def certFlags (block : KeyBlock) : Option UInt8 := (p.selfCerts block).findSome? (·.keyFlags)

/-- A pinned subkey is in the block, bound by a signature of the primary key that
verifies, and no revocation of it does. -/
def SubkeyValid (block : KeyBlock) (want : List UInt8) : Prop :=
  ∃ sub binding alg mpis, p.findSubkey block want = some sub ∧ sub.binding = some binding ∧
    HashAlgo.fromId binding.hashAlgo = some alg ∧
    signatureBytes block.primary.material binding.mpis = .ok mpis ∧
    p.verifyMaterial block.primary.material alg
      (p.keyPairDigest alg block.primary.body sub.key.body binding.hashedPortion) mpis = .ok () ∧
    ∀ rev ∈ sub.revocations,
      ¬ p.revokes block.primary block.primary.body (some sub.key.body) rev

/-- The block is the one that was pinned, certified by its own key, not revoked
and inside its window. -/
structure BlockValid (pinned : PinnedKey) (block : KeyBlock) (now : Int) : Prop where
  fingerprint : p.fingerprint block.primary = pinned.fingerprint
  created : block.primary.created = pinned.created
  bits : block.primary.bits = pinned.bits
  algo : block.primary.algo = pinned.algo
  label : pinned.label ∈ block.uids
  certified : p.selfCerts block ≠ []
  expires : pinned.expires = p.certExpires block
  unrevoked : ∀ rev ∈ block.revocations, ¬ p.revokes block.primary block.primary.body none rev
  subkeys : ∀ want ∈ pinned.subkeys, p.SubkeyValid block want
  begun : (pinned.created : Int) ≤ now+maxSkew
  lasting : ∀ expires ∈ p.certExpires block, now ≤ (expires : Int)

inductive SigningKeyOf (pinned : PinnedKey) (block : KeyBlock) : KeyChoice → SigningKey → Prop where
  | primary : SigningKeyOf pinned block .primary ⟨block.primary.material,p.fingerprint block.primary,
      block.primary.created,p.certExpires block,p.certFlags block⟩
  | subkey {j : Nat} {want : List UInt8} {sub : Subkey} {binding : SignaturePacket}
      (hwant : pinned.subkeys[j]? = some want) (hsub : p.findSubkey block want = some sub)
      (hbinding : sub.binding = some binding) :
      SigningKeyOf pinned block (.subkey j) ⟨sub.key.material,p.fingerprint sub.key,sub.key.created,
        expiryOf sub.key.created binding.keyExpiry,binding.keyFlags⟩

structure TimesValid (key : SigningKey) (sig : SignaturePacket) (now : Int) : Prop where
  flags : ∀ flags ∈ key.flags, flags &&& keyFlagSign ≠ 0
  lasting : ∀ expires ∈ key.expires, now ≤ (expires : Int)
  begun : (key.created : Int) ≤ now+maxSkew
  notFuture : ∀ created ∈ sig.created, (created : Int) ≤ now+maxSkew
  afterKey : ∀ created ∈ sig.created, (key.created : Int) ≤ created+maxSkew
  beforeEnd : ∀ created ∈ sig.created, ∀ expires ∈ key.expires,
    (created : Int) ≤ expires+maxSkew

/-- The signature is one over the document by a key of this material. -/
def DocumentSigned (material : KeyMaterial) (sig : SignaturePacket) (parts : List (List UInt8)) :
    Prop :=
  compatible material sig.pubAlgo ∧ ∃ alg mpis, HashAlgo.fromId sig.hashAlgo = some alg ∧
    (p.v4Digest alg parts sig.hashedPortion).take 2 = sig.left16 ∧
    signatureBytes material sig.mpis = .ok mpis ∧
    p.verifyMaterial material alg (p.v4Digest alg parts sig.hashedPortion) mpis = .ok ()

/-- The signature verifies fully against the pinned key it was located at. -/
def Verifies (located : PinnedKey × KeyChoice) (sig : SignaturePacket) (parts : List (List UInt8))
    (now : Int) : Prop :=
  ∃ block key, p.parseKeyBlock located.1.block = .ok block ∧ p.BlockValid located.1 block now ∧
    p.SigningKeyOf located.1 block located.2 key ∧ TimesValid key sig now ∧
    p.DocumentSigned key.material sig parts

section Checks

variable {p}
variable {now : Int}

theorem lowerExpiry_assoc (a b c : Option Nat) :
    lowerExpiry (lowerExpiry a b) c = lowerExpiry a (lowerExpiry b c) := by
  cases a <;> cases b <;> cases c <;> simp [lowerExpiry]

theorem min?_filterMap_cons (f : α → Option Nat) (x : α) (xs : List α) :
    ((x :: xs).filterMap f).min? = lowerExpiry (f x) (xs.filterMap f).min? := by
  rw [filterMap_cons]
  cases hx : f x with
  | none => rfl
  | some e =>
    simp only [List.min?_cons]
    cases (xs.filterMap f).min? <;> rfl

theorem foldl_certify (block : KeyBlock) (prev : PrimaryCert) (certs : List SignaturePacket) :
    certs.foldl (p.certify block) (some prev) =
      some ⟨lowerExpiry prev.expires (((certs.filter (p.selfCertifies block)).filterMap
          (fun cert => expiryOf block.primary.created cert.keyExpiry)).min?),
        prev.flags.or ((certs.filter (p.selfCertifies block)).findSome? (·.keyFlags))⟩ := by
  induction certs generalizing prev with
  | nil =>
    cases prev with
    | mk expires flags => cases expires <;> simp [lowerExpiry]
  | cons cert certs ih =>
    rw [foldl_cons,certify]
    by_cases hself : p.selfCertifies block cert
    · rw [if_pos hself,ih,filter_cons_of_pos hself,min?_filterMap_cons,findSome?_cons_or,
        lowerExpiry_assoc,Option.or_assoc]
    · rw [if_neg hself,ih,filter_cons_of_neg hself]

theorem foldl_certify_none (block : KeyBlock) (certs : List SignaturePacket) :
    certs.foldl (p.certify block) none = if certs.filter (p.selfCertifies block) = [] then none
      else some ⟨((certs.filter (p.selfCertifies block)).filterMap
          (fun cert => expiryOf block.primary.created cert.keyExpiry)).min?,
        (certs.filter (p.selfCertifies block)).findSome? (·.keyFlags)⟩ := by
  induction certs with
  | nil => rfl
  | cons cert certs ih =>
    rw [foldl_cons,certify]
    by_cases hself : p.selfCertifies block cert
    · rw [if_pos hself,filter_cons_of_pos hself,if_neg (by simp),min?_filterMap_cons,findSome?_cons_or]
      exact foldl_certify block _ certs
    · rw [if_neg hself,ih,filter_cons_of_neg hself]

variable {block : KeyBlock}

theorem certified_eq_ok : p.certified block = .ok cert ↔
      p.selfCerts block ≠ [] ∧ cert = ⟨p.certExpires block,p.certFlags block⟩ := by
  rw [certified,demand_eq_ok,foldl_certify_none]
  simp only [certExpires,certFlags,selfCerts]
  split
  · rename_i hnil
    simp [hnil]
  · rename_i hne
    simp only [Option.some.injEq,ne_eq,hne,not_false_eq_true,true_and]
    exact eq_comm

variable {u : Unit}

theorem checkRevocations_eq_ok {revs : List SignaturePacket} {key : PublicKey} {body : List UInt8}
    {sub : Option (List UInt8)} :
    p.checkRevocations revs key body sub = .ok u ↔ ∀ rev ∈ revs, ¬ p.revokes key body sub rev := by
  simp [checkRevocations]

theorem checkSubkey_eq_ok {want : List UInt8} : p.checkSubkey block want = .ok u ↔
    p.SubkeyValid block want := by
  simp only [checkSubkey,SubkeyValid,bind_eq_ok,demand_eq_ok,mapErr_eq_ok,checkRevocations_eq_ok,
    exists_and_left]
  constructor
  · rintro ⟨sub,hsub,binding,hbinding,alg,halg,mpis,hmpis,u,hverify,hrev⟩
    exact ⟨sub,hsub,binding,hbinding,alg,halg,mpis,hmpis,hverify,hrev⟩
  · rintro ⟨sub,hsub,binding,hbinding,alg,halg,mpis,hmpis,hverify,hrev⟩
    exact ⟨sub,hsub,binding,hbinding,alg,halg,mpis,hmpis,(),hverify,hrev⟩

theorem validateBlock_eq_ok : p.validateBlock pinned block now = .ok cert ↔
      p.BlockValid pinned block now ∧ cert = ⟨p.certExpires block,p.certFlags block⟩ := by
  simp only [validateBlock,bind_eq_ok,ensure_eq_ok,checkAll_eq_ok,checkRevocations_eq_ok,
    checkSubkey_eq_ok,certified_eq_ok,exists_and_left,exists_const]
  constructor
  · rintro ⟨hfpr,⟨hcreated,hbits,halgo⟩,hlabel,c,⟨hself,rfl⟩,hexpires,hrev,hsub,hbegun,hlasting,hc⟩
    obtain rfl := Except.ok.inj hc
    exact ⟨⟨hfpr,hcreated,hbits,halgo,hlabel,hself,hexpires,hrev,hsub,by omega,
      fun e he => by have := hlasting e he; omega⟩,rfl⟩
  · rintro ⟨h,rfl⟩
    exact ⟨h.fingerprint,⟨h.created,h.bits,h.algo⟩,h.label,_,⟨h.certified,rfl⟩,h.expires,h.unrevoked,
      h.subkeys,by have := h.begun; omega,fun e he => by have := h.lasting e he; omega,rfl⟩

theorem signingKey_eq_ok {choice : KeyChoice} :
    p.signingKey pinned block ⟨p.certExpires block,p.certFlags block⟩ choice = .ok key ↔
      p.SigningKeyOf pinned block choice key := by
  cases choice with
  | primary =>
    simp only [signingKey,Except.ok.injEq]
    constructor
    · rintro rfl
      exact .primary
    · rintro ⟨⟩
      rfl
  | subkey j =>
    simp only [signingKey,bind_eq_ok,demand_eq_ok,Except.ok.injEq]
    constructor
    · rintro ⟨want,hwant,sub,hsub,binding,hbinding,rfl⟩
      exact .subkey hwant hsub hbinding
    · intro h
      cases h with
      | subkey hwant hsub hbinding => exact ⟨_,hwant,_,hsub,_,hbinding,rfl⟩

variable {sig : SignaturePacket}

theorem checkTimes_eq_ok : checkTimes key sig now = .ok u ↔ TimesValid key sig now := by
  simp only [checkTimes,bind_eq_ok,ensure_eq_ok,exists_and_left,exists_const,Int.not_lt,gt_iff_lt,
    Option.all_eq_true,decide_eq_true_eq]
  constructor
  · rintro ⟨hflags,hlasting,hbegun,hfuture,hafter,hend⟩
    exact ⟨hflags,hlasting,hbegun,hfuture,hafter,hend⟩
  · intro h
    exact ⟨h.flags,h.lasting,h.begun,h.notFuture,h.afterKey,h.beforeEnd⟩

theorem checkDocument_eq_ok {material : KeyMaterial} :
    p.checkDocument material sig parts = .ok u ↔ p.DocumentSigned material sig parts := by
  simp [checkDocument,DocumentSigned,bind_eq_ok,ensure_eq_ok,demand_eq_ok]

theorem verifyWithPinned_passes {located : PinnedKey × KeyChoice} :
    Passes (p.verifyWithPinned located sig parts now) ↔ p.Verifies located sig parts now := by
  simp only [Passes,verifyWithPinned,bind_eq_ok,validateBlock_eq_ok,checkTimes_eq_ok,
    checkDocument_eq_ok,exists_const]
  constructor
  · rintro ⟨v,block,hblock,cert,⟨hvalid,rfl⟩,key,hkey,htimes,hdoc,-⟩
    exact ⟨block,key,hblock,hvalid,signingKey_eq_ok.mp hkey,htimes,hdoc⟩
  · rintro ⟨block,key,hblock,hvalid,hkey,htimes,hdoc⟩
    exact ⟨_,block,hblock,_,⟨hvalid,rfl⟩,key,signingKey_eq_ok.mpr hkey,htimes,hdoc,rfl⟩

/-- The blob is a sequence of packets, and its signature packets are `sigs`. -/
def Carries (p : Primitives) (binary : List UInt8) (sigs : List SignaturePacket) : Prop :=
  ∃ pkts : List (Nat × List UInt8), p.packets binary = pkts.map .ok ∧
    (pkts.filter (fun pkt => pkt.1 = 2)).map (fun pkt => p.parseSignature pkt.2) = sigs.map .ok ∧
    sigs.length ≤ maxSignatures

theorem collect_eq (pkts : List (Nat × List UInt8)) (acc sigs : List SignaturePacket)
    (hparse : (pkts.filter (fun pkt => pkt.1 = 2)).map (fun pkt => p.parseSignature pkt.2) =
      sigs.map .ok) (hlen : acc.length+sigs.length ≤ maxSignatures) :
    p.collect acc (pkts.map .ok) = .ok (acc ++ sigs) := by
  induction pkts generalizing acc sigs with
  | nil =>
    obtain rfl : sigs = [] := by simpa using hparse
    simp [collect]
  | cons pkt pkts ih =>
    rw [map_cons,collect]
    by_cases htag : pkt.1 = 2
    · rw [filter_cons_of_pos (by simpa using htag),map_cons] at hparse
      cases sigs with
      | nil => simp at hparse
      | cons sig sigs =>
        obtain ⟨hsig,hrest⟩ := List.cons.inj hparse
        rw [length_cons] at hlen
        have hnext := ih (acc ++ [sig]) sigs hrest (by simp; omega)
        simp only [htag,ne_eq,not_true_eq_false,if_false,bind_eq_ok,ensure_eq_ok,exists_const]
        exact ⟨by omega,sig,hsig,by simpa using hnext⟩
    · rw [filter_cons_of_neg (by simpa using htag)] at hparse
      simpa [htag] using ih acc sigs hparse hlen

/-- The packet has the type and one of the hash algorithms that are expected. -/
def Fits (expectedSigType : UInt8) (declaredHashes : Option (List HashAlgo))
    (sig : SignaturePacket) : Prop :=
  sig.sigType = expectedSigType ∧ ∀ declared ∈ declaredHashes, ∃ alg ∈ declared,
    HashAlgo.fromId sig.hashAlgo = some alg

theorem hashDeclared_iff {declaredHashes : Option (List HashAlgo)} :
    hashDeclared declaredHashes sig ↔ ∀ declared ∈ declaredHashes, ∃ alg ∈ declared,
      HashAlgo.fromId sig.hashAlgo = some alg := by
  cases declaredHashes with
  | none => simp [hashDeclared]
  | some declared =>
    cases halg : HashAlgo.fromId sig.hashAlgo <;> simp [hashDeclared,halg]

section Stream

variable {keyring : List PinnedKey} {parts : List (List UInt8)} {expectedSigType : UInt8}
  {declaredHashes : Option (List HashAlgo)} {now : Int}

theorem verifyLoop_passes (sawUnidentified : Bool) (winner : Option Verified) (sigs : List SignaturePacket) :
    Passes (p.verifyLoop keyring parts expectedSigType declaredHashes now sawUnidentified winner sigs) ↔
    (∀ sig ∈ sigs, Fits expectedSigType declaredHashes sig ∧
      ∀ located, locate keyring sig = some located → p.Verifies located sig parts now) ∧
    (winner.isSome ∨ ∃ sig ∈ sigs, (locate keyring sig).isSome) := by
  induction sigs generalizing sawUnidentified winner with
  | nil => simp [Passes,verifyLoop,isSome_iff_exists]
  | cons sig sigs ih =>
    have hfits : (sig.sigType = expectedSigType ∧ hashDeclared declaredHashes sig) ↔
        Fits expectedSigType declaredHashes sig := by
      rw [hashDeclared_iff,Fits]
    cases hloc : locate keyring sig with
    | none =>
      have hih := ih (sawUnidentified || (sig.issuerFpr.isNone && sig.issuerKeyid.isNone)) winner
      simp only [Passes] at hih
      simp only [Passes,verifyLoop,bind_eq_ok,ensure_eq_ok,exists_and_left,exists_const,hloc,hih,
        mem_cons,forall_eq_or_imp,exists_eq_or_imp,reduceCtorEq,false_implies,implies_true,
        and_true,isSome_none,Bool.false_eq_true,false_or]
      rw [← and_assoc,hfits,and_assoc]
    | some located =>
      have hih : ∀ v, Passes (p.verifyLoop keyring parts expectedSigType declaredHashes now
          sawUnidentified (winner.or (some v)) sigs) ↔ ∀ sig ∈ sigs,
          Fits expectedSigType declaredHashes sig ∧
          ∀ located, locate keyring sig = some located → p.Verifies located sig parts now := by
        intro v
        rw [ih]
        simp
      simp only [Passes] at hih
      simp only [Passes,verifyLoop,bind_eq_ok,ensure_eq_ok,exists_and_left,exists_const,hloc,
        mem_cons,forall_eq_or_imp,exists_eq_or_imp,isSome_some,true_or,or_true,and_true,
        Option.some.injEq,forall_eq']
      rw [← and_assoc,hfits,and_assoc]
      refine and_congr_right fun _ => ?_
      rw [← verifyWithPinned_passes]
      constructor
      · rintro ⟨x,v,hv,hloop⟩
        exact ⟨⟨v,hv⟩,(hih v).mp ⟨x,hloop⟩⟩
      · rintro ⟨⟨v,hv⟩,hall⟩
        obtain ⟨x,hloop⟩ := (hih v).mpr hall
        exact ⟨x,v,hv,hloop⟩

theorem verifyStream_passes {binary : List UInt8} {sigs : List SignaturePacket} (h : p.Carries binary sigs) :
    Passes (p.verifyStream keyring parts expectedSigType declaredHashes now binary) ↔
      sigs ≠ [] ∧ (∀ sig ∈ sigs, Fits expectedSigType declaredHashes sig) ∧
      (∀ sig ∈ sigs, ∀ located, locate keyring sig = some located → p.Verifies located sig parts now) ∧
      ∃ sig ∈ sigs, (locate keyring sig).isSome := by
  obtain ⟨pkts,hpkts,hparse,hlen⟩ := h
  have hcollect : p.collect [] (p.packets binary) = .ok sigs := by
    rw [hpkts]
    exact collect_eq pkts [] sigs hparse (by simpa using hlen)
  have hloop : Passes (p.verifyLoop keyring parts expectedSigType declaredHashes now false none
    sigs) ↔ _ := verifyLoop_passes false none sigs
  simp only [Passes] at hloop
  simp [Passes,verifyStream,bind_eq_ok,ensure_eq_ok,hcollect,hloop,forall_and,and_assoc]

end Stream

end Checks

/-- A set of signatures is accepted exactly when it is not empty, every packet
has the expected type and a declared hash, every packet of a pinned key verifies
fully against it, and there is such a packet. So the order of the packets does
not matter, and one bad signature of a pinned key refuses the set. -/
theorem verifyStream_accepts_iff (p : Primitives) (keyring : List PinnedKey)
    (parts : List (List UInt8)) (expectedSigType : UInt8) (declaredHashes : Option (List HashAlgo))
    (now : Int) {binary : List UInt8} {sigs : List SignaturePacket} (h : p.Carries binary sigs) :
    (Passes (p.verifyStream keyring parts expectedSigType declaredHashes now binary) ↔
      sigs ≠ [] ∧ (∀ sig ∈ sigs, Fits expectedSigType declaredHashes sig) ∧
      (∀ sig ∈ sigs, ∀ located, locate keyring sig = some located → p.Verifies located sig parts now) ∧
      ∃ sig ∈ sigs, (locate keyring sig).isSome) ∧
    (∀ binary' sigs', p.Carries binary' sigs' → sigs'.Perm sigs →
      (Passes (p.verifyStream keyring parts expectedSigType declaredHashes now binary') ↔
        Passes (p.verifyStream keyring parts expectedSigType declaredHashes now binary))) ∧
    (∀ sig ∈ sigs, ∀ located, locate keyring sig = some located → ¬ p.Verifies located sig parts now →
      ¬ Passes (p.verifyStream keyring parts expectedSigType declaredHashes now binary)) := by
  refine ⟨verifyStream_passes h,?_,?_⟩
  · intro binary' sigs' h' hperm
    have hnil : sigs' = [] ↔ sigs = [] := by
      rw [← length_eq_zero_iff,hperm.length_eq,length_eq_zero_iff]
    rw [verifyStream_passes h,verifyStream_passes h']
    simp [hperm.mem_iff,hnil]
  · intro sig hsig located hloc hbad hpass
    exact hbad ((verifyStream_passes h).mp hpass |>.2.2.1 sig hsig located hloc)

def demoBlock : KeyBlock :=
  ⟨⟨0,algoEddsa,.ed25519 [],[]⟩,[[7]],
    [⟨sigDirectKey,algoEddsa,8,[],none,none,none,none,none,[0,0],[[],[]]⟩],[],[]⟩

/-- One key that certifies itself, and packets told apart by their first byte:
1 is by that key, others by a key that is not pinned. -/
def demo : Primitives where
  packets := fun binary => binary.map (fun b => .ok (2,[b]))
  parseSignature := fun body => .ok ⟨sigBinary,algoEddsa,8,[],some 3,none,none,some body,none,[0,0],[[],[]]⟩
  parseKeyBlock := fun _ => .ok demoBlock
  v4Fingerprint := fun _ => [1]
  v4Digest := fun _ _ _ => [0,0]
  keyDigest := fun _ _ _ => [0,0]
  keyPairDigest := fun _ _ _ _ => [0,0]
  certificationDigest := fun _ _ _ _ => [0,0]
  verifyRsa := fun _ _ _ _ _ => .error .verifyFailed
  verifyEd25519 := fun _ _ _ _ => .ok ()
  verifyEcdsaP256 := fun _ _ _ _ => .error .verifyFailed
  verifyEcdsaP384 := fun _ _ _ _ => .error .verifyFailed

def demoPin : PinnedKey := ⟨[7],[1],algoEddsa,255,0,none,[],[]⟩

def demoSig (issuer : UInt8) : SignaturePacket :=
  ⟨sigBinary,algoEddsa,8,[],some 3,none,none,some [issuer],none,[0,0],[[],[]]⟩

theorem demo_accepts : Passes (demo.verifyStream [demoPin] [[]] sigBinary none 5 [2,1]) := by
  have hcarries : demo.Carries [2,1] [demoSig 2,demoSig 1] :=
    ⟨[(2,[2]),(2,[1])],rfl,rfl,by decide⟩
  have hblock : demo.BlockValid demoPin demoBlock 5 :=
    ⟨rfl,rfl,rfl,rfl,by decide,by decide,by decide,by decide,by simp [demoPin],by decide,by decide⟩
  have hexpires : demo.certExpires demoBlock = none := rfl
  have hflags : demo.certFlags demoBlock = none := rfl
  have htimes : TimesValid ⟨.ed25519 [],[1],0,demo.certExpires demoBlock,demo.certFlags demoBlock⟩
      (demoSig 1) 5 := by
    rw [hexpires,hflags]
    exact ⟨by simp,by simp,by simp [maxSkew],by simp [maxSkew,demoSig],by simp [maxSkew,demoSig],
      by simp⟩
  have hsigned : demo.DocumentSigned (.ed25519 []) (demoSig 1) [[]] :=
    ⟨rfl,.sha256,.pair [] [],rfl,rfl,rfl,rfl⟩
  refine (verifyStream_accepts_iff demo [demoPin] [[]] sigBinary none 5 hcarries).1.mpr
    ⟨by simp,?_,?_,demoSig 1,by simp,rfl⟩
  · intro sig hsig
    simp only [mem_cons,not_mem_nil,or_false] at hsig
    rcases hsig with rfl | rfl
    · exact ⟨rfl,by simp⟩
    · exact ⟨rfl,by simp⟩
  intro sig hsig located hloc
  simp only [mem_cons,not_mem_nil,or_false] at hsig
  rcases hsig with rfl | rfl
  · have hnone : locate [demoPin] (demoSig 2) = none := rfl
    rw [hnone] at hloc
    simp at hloc
  · obtain rfl : (demoPin,KeyChoice.primary) = located := Option.some.inj hloc
    exact ⟨demoBlock,_,rfl,hblock,.primary,htimes,hsigned⟩

end Primitives

end PaghOS.Apt
