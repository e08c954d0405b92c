import PaghOS.Lib.Loop
import PaghOS.Lib.Walk
import PaghOS.Tls.X509

/-!
`verify_chain` of `net/tls_chain.rs`: the leaf and the other certificates of a
TLS message are parsed, their validity is checked, and a path is walked from the
leaf to a trust anchor. Signature verification is a parameter.
-/

namespace PaghOS.Tls

open Loop Walk
open List hiding iterate

inductive SigVerifyError where
  | unsupportedAlg
  | keyTypeMismatch
  | malformedKey
  | malformedSignature
  | verifyFailed
deriving DecidableEq

inductive ChainError where
  | noAnchor
  | incompleteChain
  | expired
  | notYetValid
  | clock
  | notCa
  | verify (e : SigVerifyError)
deriving DecidableEq

structure TrustAnchor where
  subject : List UInt8
  key : SpkiKey
deriving DecidableEq

def clockFloor : Int := 1735689600

def derToChain (_ : DerError) : ChainError := .incompleteChain

def checkValidity (cert : Certificate) (now : Int) : Except ChainError Unit :=
  if cert.validity.notAfter < now then .error .expired
  else if now < cert.validity.notBefore then .error .notYetValid
  else .ok ()

def isCa (cert : Certificate) : Except ChainError Bool :=
  match findExtension cert oidExtBasicConstraints with
  | .ok (some octets) => (parseBasicConstraints octets).mapError derToChain
  | .ok none => .ok false
  | .error e => .error (derToChain e)

/-- One round of the parsing loop: the rest of the message and the certificates
read so far. -/
def parseRound : List UInt8 × List Certificate →
    (List UInt8 × List Certificate) ⊕ Except ChainError (List Certificate)
  | (rest,certs) =>
    if rest = [] then .inr (.ok certs)
    else
      match parseCertificate rest with
      | .error e => .inr (.error (derToChain e))
      | .ok (cert,tail) => .inl (tail,certs ++ [cert])

def checkAll (now : Int) : List Certificate → Except ChainError Unit
  | [] => .ok ()
  | cert :: certs =>
    match checkValidity cert now with
    | .error e => .error e
    | .ok () => checkAll now certs

section

variable (verify : List UInt8 → List UInt8 → List UInt8 → SpkiKey → Except SigVerifyError Unit)

/-- How the loop over the candidates of one round ends: at the position of an
issuer, or with the first failure of a certificate of the right name. -/
inductive Scan where
  | advanced (i : Nat) (cand : Certificate)
  | failed (err : Option ChainError)

def tryCandidates (current : Certificate) :
    (i : Nat) → (used : List Bool) → (certs : List Certificate) → Option ChainError → Scan
  | i, u :: used, cand :: certs, err =>
    if u = true ∨ cand.subject ≠ current.issuer then tryCandidates current (i+1) used certs err
    else
      match isCa cand with
      | .error e => tryCandidates current (i+1) used certs (err.or (some e))
      | .ok false => tryCandidates current (i+1) used certs (err.or (some .notCa))
      | .ok true =>
        match verify current.sigAlg current.tbs current.signature cand.spki.key with
        | .ok () => .advanced i cand
        | .error e => tryCandidates current (i+1) used certs (err.or (some (.verify e)))
  | _, _, _, err => .failed err

def tryAnchors (current : Certificate) (nameMatchErr : Option ChainError) :
    List TrustAnchor → Option ChainError → Except ChainError Unit
  | [], anchorErr =>
    match nameMatchErr, anchorErr with
    | some e, _ => .error e
    | none, some e => .error e
    | none, none => .error .noAnchor
  | anchor :: anchors, anchorErr =>
    if anchor.subject ≠ current.issuer then tryAnchors current nameMatchErr anchors anchorErr
    else
      match verify current.sigAlg current.tbs current.signature anchor.key with
      | .ok () => .ok ()
      | .error e => tryAnchors current nameMatchErr anchors (anchorErr.or (some (.verify e)))

/-- One round of the path loop: the certificate reached and the entries consumed. -/
def walkRound (anchors : List TrustAnchor) (certs : List Certificate) :
    Certificate × List Bool → (Certificate × List Bool) ⊕ Except ChainError Unit
  | (current,used) =>
    match tryCandidates verify current 0 used certs none with
    | .advanced i cand => .inl (cand,used.set i true)
    | .failed nameMatchErr => .inr (tryAnchors verify current nameMatchErr anchors none)

/-- `verify_chain` with at most `fuel` rounds of each of its two loops. -/
def verifyChain (fuel : Nat) (anchors : List TrustAnchor) (der : List UInt8) (now : Int) :
    Option (Except ChainError Unit) :=
  if now < clockFloor then some (.error .clock)
  else
    match iterate parseRound fuel (der,[]) with
    | none => none
    | some (.error e) => some (.error e)
    | some (.ok []) => some (.error .incompleteChain)
    | some (.ok (leaf :: rest)) =>
      match checkAll now (leaf :: rest) with
      | .error e => some (.error e)
      | .ok () =>
        let used := (List.replicate (leaf :: rest).length false).set 0 true
        iterate (walkRound verify anchors (leaf :: rest)) fuel (leaf,used)

/-- `cand` may stand above `cert`: the names are byte-equal, `cand` is a CA and
its key verifies the signature of `cert`. -/
def Issues (cert cand : Certificate) : Prop :=
  cand.subject = cert.issuer ∧ isCa cand = .ok true ∧
    verify cert.sigAlg cert.tbs cert.signature cand.spki.key = .ok ()

/-- Some anchor of the right name verifies `cert`. -/
def Anchored (anchors : List TrustAnchor) (cert : Certificate) : Prop :=
  ∃ anchor ∈ anchors, anchor.subject = cert.issuer ∧
    verify cert.sigAlg cert.tbs cert.signature anchor.key = .ok ()

end

def ValidAt (now : Int) (cert : Certificate) : Prop :=
  cert.validity.notBefore ≤ now ∧ now ≤ cert.validity.notAfter

/-- The certificates that a message holds one after the other. -/
inductive Presents : List UInt8 → List Certificate → Prop
  | nil : Presents [] []
  | cons {der tail : List UInt8} {cert : Certificate} {certs : List Certificate}
      (h : parseCertificate der = .ok (cert,tail)) (ht : Presents tail certs) :
      Presents der (cert :: certs)

theorem Presents.ne_nil {der : List UInt8} {cert : Certificate} {certs : List Certificate}
    (h : Presents der (cert :: certs)) : der ≠ [] := by
  cases h with
  | cons h _ =>
    have hlt := parseCertificate_shorter h
    exact ne_nil_of_length_pos (by omega)

theorem Presents.length_le {der : List UInt8} {certs : List Certificate} (h : Presents der certs) :
    certs.length ≤ der.length := by
  induction h with
  | nil => simp
  | cons h _ ih =>
    have hlt := parseCertificate_shorter h
    rw [length_cons]
    omega

theorem Presents.parse {der : List UInt8} {certs : List Certificate} (h : Presents der certs)
    (read : List Certificate) :
    iterate parseRound (certs.length+1) (der,read) = some (.ok (read ++ certs)) := by
  induction h generalizing read with
  | nil => simp [iterate,parseRound]
  | @cons der tail cert certs h ht ih =>
    have hne := (Presents.cons h ht).ne_nil
    have hround : parseRound (der,read) = .inl (tail,read ++ [cert]) := by
      simp [parseRound,hne,h]
    rw [length_cons,iterate,hround]
    simpa using ih (read ++ [cert])

theorem parse_returns (der : List UInt8) {fuel : Nat} (hf : der.length < fuel) :
    Returns (iterate parseRound fuel (der,[])) (fun r => ∀ certs, r = .ok certs → Presents der certs) := by
  refine iterate_returns (I := fun s => ∀ certs, Presents s.1 certs → Presents der (s.2 ++ certs))
    (fun s => s.1.length) ?_ (fun certs h => by simpa using h) hf
  rintro ⟨rest,read⟩ hs
  simp only [parseRound]
  split
  · rename_i hnil
    refine .inr ⟨_,rfl,?_⟩
    rintro certs ⟨⟩
    simpa using hs [] (hnil ▸ .nil)
  split
  · exact .inr ⟨_,rfl,fun _ h => by cases h⟩
  rename_i cert tail hp
  refine .inl ⟨_,rfl,?_,parseCertificate_shorter hp⟩
  intro certs hc
  simpa using hs (cert :: certs) (.cons hp hc)

theorem checkValidity_eq_ok {cert : Certificate} {now : Int} :
    checkValidity cert now = .ok () ↔ ValidAt now cert := by
  unfold checkValidity ValidAt
  split
  · simp
    omega
  split
  · simp
    omega
  · simp
    omega

theorem checkAll_eq_ok {now : Int} {certs : List Certificate} :
    checkAll now certs = .ok () ↔ ∀ cert ∈ certs, ValidAt now cert := by
  induction certs with
  | nil => simp [checkAll]
  | cons cert certs ih =>
    rw [forall_mem_cons,← checkValidity_eq_ok,← ih,checkAll]
    cases h : checkValidity cert now <;> simp

def unused : List Bool → List Certificate → List Certificate
  | false :: used, cert :: certs => cert :: unused used certs
  | true :: used, _ :: certs => unused used certs
  | _, _ => []

section

variable {verify : List UInt8 → List UInt8 → List UInt8 → SpkiKey → Except SigVerifyError Unit}
variable {current cand : Certificate} {used : List Bool} {certs : List Certificate}
variable {anchors : List TrustAnchor}

theorem tryCandidates_issues (h : Issues verify current cand) (i : Nat) (err : Option ChainError) :
    tryCandidates verify current i (false :: used) (cand :: certs) err = .advanced i cand := by
  obtain ⟨hname,hca,hsig⟩ := h
  simp [tryCandidates,hname,hca,hsig]

theorem tryCandidates_skip (h : ¬ Issues verify current cand) (i : Nat) (err : Option ChainError) :
    ∃ err', tryCandidates verify current i (false :: used) (cand :: certs) err =
      tryCandidates verify current (i+1) used certs err' := by
  by_cases hname : cand.subject = current.issuer
  · cases hca : isCa cand with
    | error e => exact ⟨some (err.getD e),by simp [tryCandidates,hname,hca]⟩
    | ok ca =>
      cases ca with
      | false => exact ⟨some (err.getD .notCa),by simp [tryCandidates,hname,hca]⟩
      | true =>
        cases hsig : verify current.sigAlg current.tbs current.signature cand.spki.key with
        | error e => exact ⟨some (err.getD (.verify e)),by simp [tryCandidates,hname,hca,hsig]⟩
        | ok _ => exact absurd ⟨hname,hca,hsig⟩ h
  · exact ⟨err,by simp [tryCandidates,hname]⟩

theorem tryCandidates_cases (i : Nat) (err : Option ChainError) :
    (∃ k cand xs ys, tryCandidates verify current i used certs err = .advanced (i+k) cand ∧
      unused used certs = xs ++ cand :: ys ∧ unused (used.set k true) certs = xs ++ ys ∧
      (∀ c ∈ xs, ¬ Issues verify current c) ∧ Issues verify current cand) ∨
    (∃ e, tryCandidates verify current i used certs err = .failed e) ∧
      ∀ c ∈ unused used certs, ¬ Issues verify current c := by
  fun_induction unused used certs generalizing i err with
  | case1 used c certs ih =>
    by_cases hc : Issues verify current c
    · exact .inl ⟨0,c,[],unused used certs,tryCandidates_issues hc i err,rfl,rfl,by simp,hc⟩
    obtain ⟨err',hskip⟩ := tryCandidates_skip hc i err
    rw [hskip]
    obtain ⟨k,cand,xs,ys,hgo,hsplit,hset,hxs,hcand⟩ | ⟨hgo,hnone⟩ := ih (i+1) err'
    · refine .inl ⟨k+1,cand,c :: xs,ys,by rw [hgo,Nat.add_right_comm]; rfl,?_,?_,?_,hcand⟩
      · rw [hsplit,cons_append]
      · simp [unused,hset]
      · exact forall_mem_cons.mpr ⟨hc,hxs⟩
    · exact .inr ⟨hgo,forall_mem_cons.mpr ⟨hc,hnone⟩⟩
  | case2 used c certs ih =>
    have hskip : tryCandidates verify current i (true :: used) (c :: certs) err =
        tryCandidates verify current (i+1) used certs err := by simp [tryCandidates]
    rw [hskip]
    obtain ⟨k,cand,xs,ys,hgo,hrest⟩ | hfailed := ih (i+1) err
    · exact .inl ⟨k+1,cand,xs,ys,by rw [hgo,Nat.add_right_comm]; rfl,hrest⟩
    · exact .inr hfailed
  | case3 used certs hnot₁ hnot₂ =>
    refine .inr ⟨⟨err,?_⟩,by simp⟩
    cases used with
    | nil => rfl
    | cons u used =>
      cases certs with
      | nil => rfl
      | cons => cases u <;> simp_all

theorem tryAnchors_eq_ok {err err' : Option ChainError} :
    tryAnchors verify current err anchors err' = .ok () ↔ Anchored verify anchors current := by
  induction anchors generalizing err' with
  | nil => cases err <;> cases err' <;> simp [tryAnchors,Anchored]
  | cons a anchors ih =>
    have hcons : Anchored verify (a :: anchors) current ↔
        (a.subject = current.issuer ∧
          verify current.sigAlg current.tbs current.signature a.key = .ok ()) ∨
          Anchored verify anchors current := by simp [Anchored]
    rw [hcons]
    by_cases hname : a.subject = current.issuer
    · cases hsig : verify current.sigAlg current.tbs current.signature a.key with
      | ok _ => simp [tryAnchors,hname,hsig]
      | error e => simp [tryAnchors,hname,hsig,ih]
    · simp [tryAnchors,hname,ih]

theorem walk_returns {fuel : Nat} (hf : (unused used certs).length < fuel) :
    Returns (iterate (walkRound verify anchors certs) fuel (current,used)) (fun r =>
      ∃ z, Greedy (Issues verify) current (unused used certs) z ∧
        (r = .ok () ↔ Anchored verify anchors z)) := by
  refine iterate_returns (I := fun s => ∀ z, Greedy (Issues verify) s.1 (unused s.2 certs) z →
      Greedy (Issues verify) current (unused used certs) z)
    (fun s => (unused s.2 certs).length) ?_ (fun z hz => hz) hf
  rintro ⟨cert,seen⟩ hs
  rw [walkRound]
  obtain ⟨k,cand,xs,ys,hadv,hsplit,hset,hxs,hcand⟩ | ⟨⟨err,hfail⟩,hnone⟩ :=
    @tryCandidates_cases verify cert seen certs 0 none
  · rw [hadv,Nat.zero_add]
    simp only [hsplit] at hs ⊢
    exact .inl ⟨_,rfl,fun z hz => hs z (.step hxs hcand (by simpa only [hset] using hz)),by simp [hset]⟩
  · rw [hfail]
    exact .inr ⟨_,rfl,cert,hs cert (.stop hnone),tryAnchors_eq_ok⟩

end

theorem unused_start (leaf : Certificate) (rest : List Certificate) :
    unused ((List.replicate (leaf :: rest).length false).set 0 true) (leaf :: rest) = rest := by
  have h : ∀ certs : List Certificate, unused (List.replicate certs.length false) certs = certs := by
    intro certs
    induction certs with
    | nil => rfl
    | cons c certs ih => simp [replicate_succ,unused,ih]
  simp [replicate_succ,unused,h]

section

variable {verify : List UInt8 → List UInt8 → List UInt8 → SpkiKey → Except SigVerifyError Unit}

theorem verifyChain_mono {fuel more : Nat} {anchors : List TrustAnchor} {der : List UInt8}
    {now : Int} {r : Except ChainError Unit} (h : verifyChain verify fuel anchors der now = some r)
    (hle : fuel ≤ more) : verifyChain verify more anchors der now = some r := by
  unfold verifyChain at h ⊢
  by_cases hclock : now < clockFloor
  · simpa [hclock] using h
  simp only [hclock,if_false] at h ⊢
  cases hp : iterate parseRound fuel (der,[]) with
  | none => simp [hp] at h
  | some p =>
    rw [iterate_mono hp hle]
    rw [hp] at h
    match p, h with
    | .error e, h => exact h
    | .ok [], h => exact h
    | .ok (leaf :: rest), h =>
      cases hc : checkAll now (leaf :: rest) with
      | error e => simpa [hc] using h
      | ok _ =>
        simp only [hc] at h ⊢
        exact iterate_mono h hle

variable {anchors : List TrustAnchor} {der : List UInt8} {now : Int} {leaf : Certificate}
variable {rest : List Certificate}

theorem verifyChain_presents (hclock : clockFloor ≤ now) (hder : Presents der (leaf :: rest))
    (hvalid : ∀ cert ∈ leaf :: rest, ValidAt now cert) {fuel : Nat} (hf : der.length < fuel) :
    Returns (verifyChain verify fuel anchors der now) (fun r =>
      ∃ z, Greedy (Issues verify) leaf rest z ∧ (r = .ok () ↔ Anchored verify anchors z)) := by
  have hlen := hder.length_le
  have hparse : iterate parseRound fuel (der,[]) = some (.ok (leaf :: rest)) :=
    iterate_mono (hder.parse []) (by omega)
  have hwalk := @walk_returns verify leaf ((List.replicate (leaf :: rest).length false).set 0 true)
    (leaf :: rest) anchors fuel
  rw [unused_start] at hwalk
  simp only [verifyChain,if_neg (Int.not_lt.mpr hclock),hparse,checkAll_eq_ok.mpr hvalid]
  exact hwalk (by rw [length_cons] at hlen; omega)

theorem verifyChain_ok {fuel : Nat} (hf : der.length < fuel)
    (h : verifyChain verify fuel anchors der now = some (.ok ())) :
    clockFloor ≤ now ∧ ∃ leaf rest, Presents der (leaf :: rest) ∧
      ∀ cert ∈ leaf :: rest, ValidAt now cert := by
  unfold verifyChain at h
  by_cases hclock : now < clockFloor
  · simp [hclock] at h
  obtain ⟨p,hp,hread⟩ := parse_returns der hf
  simp only [hclock,if_false,hp] at h
  match p, hread, h with
  | .ok (leaf :: rest), hread, h =>
    refine ⟨by omega,leaf,rest,hread _ rfl,?_⟩
    cases hc : checkAll now (leaf :: rest) with
    | error e => simp [hc] at h
    | ok _ => exact checkAll_eq_ok.mp hc

theorem verifyChain_returns (anchors : List TrustAnchor) (der : List UInt8) (now : Int) {fuel : Nat}
    (hf : der.length < fuel) : Returns (verifyChain verify fuel anchors der now) (fun _ => True) := by
  by_cases hclock : now < clockFloor
  · simp only [verifyChain,if_pos hclock]
    exact .pure trivial
  obtain ⟨p,hp,hread⟩ := parse_returns der hf
  match p, hp, hread with
  | .error e, hp, _ =>
    simp only [verifyChain,if_neg hclock,hp]
    exact .pure trivial
  | .ok [], hp, _ =>
    simp only [verifyChain,if_neg hclock,hp]
    exact .pure trivial
  | .ok (leaf :: rest), hp, hread =>
    cases hc : checkAll now (leaf :: rest) with
    | error e =>
      simp only [verifyChain,if_neg hclock,hp,hc]
      exact .pure trivial
    | ok _ =>
      refine (verifyChain_presents (by omega) (hread _ rfl) ?_ hf).mono fun _ _ => trivial
      exact checkAll_eq_ok.mp hc

variable (verify) in
/-- `path` leads from the leaf through different presented CA certificates to an anchor. -/
structure Trusted (anchors : List TrustAnchor) (leaf : Certificate) (rest path : List Certificate) :
    Prop where
  presented : path ⊆ rest
  distinct : path.Nodup
  trail : (leaf :: path).IsChain (Issues verify)
  anchored : Anchored verify anchors (path.getLastD leaf)

theorem exists_trusted {z : Certificate} (h : Greedy (Issues verify) leaf rest z)
    (hz : Anchored verify anchors z) : ∃ path, Trusted verify anchors leaf rest path ∧ leaf ∉ path := by
  obtain ⟨ps,others,hperm,hstuck,rfl⟩ := h.trail
  obtain ⟨path,htrail,hnodup,hsub,hlast⟩ := exists_nodup_trail hstuck.trail
  obtain ⟨hleaf,hdistinct⟩ := nodup_cons.mp hnodup
  refine ⟨path,⟨?_,hdistinct,htrail,hlast ▸ hz⟩,hleaf⟩
  intro cert hc
  exact hperm.subset (mem_append_left _ (hsub hc))

variable (verify) in
/-- `verify_chain` ends after no more rounds than the message has bytes, and a
message that it accepts holds a path of valid certificates from its leaf to an
anchor. -/
theorem verifyChain_sound (anchors : List TrustAnchor) (der : List UInt8) (now : Int) :
    ∃ r, (∀ fuel, der.length < fuel → verifyChain verify fuel anchors der now = some r) ∧
      (r = .ok () → clockFloor ≤ now ∧ ∃ leaf rest path, Presents der (leaf :: rest) ∧
        Trusted verify anchors leaf rest path ∧ leaf ∉ path ∧
        ∀ cert ∈ leaf :: path, ValidAt now cert) := by
  have hlt := Nat.lt_succ_self der.length
  have hret : Returns (verifyChain verify _ anchors der now) (fun _ => True) :=
    verifyChain_returns anchors der now hlt
  obtain ⟨r,hr,-⟩ := hret
  refine ⟨r,fun fuel hf => verifyChain_mono hr hf,?_⟩
  rintro rfl
  obtain ⟨hclock,leaf,rest,hder,hvalid⟩ := verifyChain_ok hlt hr
  have hends : Returns (verifyChain verify _ anchors der now) _ :=
    verifyChain_presents hclock hder hvalid hlt
  obtain ⟨r,hr',z,hwalk,hz⟩ := hends
  rw [hr,Option.some.injEq] at hr'
  obtain ⟨path,hpath,hleaf⟩ := exists_trusted hwalk (hz.mp hr'.symm)
  refine ⟨hclock,leaf,rest,path,hder,hpath,hleaf,?_⟩
  intro cert hc
  exact hvalid cert (cons_subset_cons leaf hpath.presented hc)

/-- One certificate of a message. -/
structure Entry where
  der : List UInt8
  cert : Certificate
  parses : parseCertificate der = .ok (cert,[])

def message (entries : List Entry) : List UInt8 := entries.flatMap Entry.der

theorem presents_message (entries : List Entry) :
    Presents (message entries) (entries.map Entry.cert) := by
  induction entries with
  | nil => exact .nil
  | cons e entries ih =>
    have h := parseCertificate_append e.parses (message entries)
    exact .cons (by simpa [message] using h) ih

variable (verify) in
/-- Every chain of presented CA certificates that starts at the leaf and cannot be
continued in the message ends next to an anchor. -/
def NoDeadEnd (anchors : List TrustAnchor) (leaf : Certificate) (rest : List Certificate) : Prop :=
  ∀ ps others, (ps ++ others).Perm rest → Stuck (Issues verify) leaf ps others →
    Anchored verify anchors (ps.getLastD leaf)

theorem verifyChain_order {leaf : Entry} {rest order : List Entry} (hclock : clockFloor ≤ now)
    (hvalid : ∀ e ∈ leaf :: rest, ValidAt now e.cert) (hperm : order.Perm rest) {fuel : Nat}
    (hf : (message (leaf :: order)).length < fuel) :
    Returns (verifyChain verify fuel anchors (message (leaf :: order)) now) (fun r =>
      ∃ z, Greedy (Issues verify) leaf.cert (order.map Entry.cert) z ∧
        (r = .ok () ↔ Anchored verify anchors z)) := by
  refine verifyChain_presents hclock (presents_message (leaf :: order)) ?_ hf
  simp only [← map_cons,forall_mem_map]
  exact fun e he => hvalid e ((hperm.cons leaf).subset he)

variable (verify) in
/-- A set of valid certificates with a path to an anchor is accepted in every
order of the intermediates exactly when no chain of them runs into a dead end. -/
theorem verifyChain_complete_iff (anchors : List TrustAnchor) (now : Int) (leaf : Entry)
    (rest : List Entry) (hclock : clockFloor ≤ now) (hvalid : ∀ e ∈ leaf :: rest, ValidAt now e.cert) :
    ((∃ path, Trusted verify anchors leaf.cert (rest.map Entry.cert) path) →
      ∀ order : List Entry, order.Perm rest → ∀ fuel, (message (leaf :: order)).length < fuel →
        verifyChain verify fuel anchors (message (leaf :: order)) now = some (.ok ())) ↔
    ((∃ path, Trusted verify anchors leaf.cert (rest.map Entry.cert) path) →
      NoDeadEnd verify anchors leaf.cert (rest.map Entry.cert)) := by
  refine imp_congr_right fun _ => ⟨?_,?_⟩
  · intro h ps others hperm hstuck
    -- List the certificates of the chain first: the walk follows it to its end.
    obtain ⟨order,hmap,horder⟩ : ∃ order : List Entry,
        ps ++ others = order.map Entry.cert ∧ order.Perm rest := by
      have hcomp := congrFun (congrFun (eq_map_comp_perm Entry.cert) (ps ++ others)) rest
      exact hcomp.mpr hperm
    have hlt := Nat.lt_succ_self (message (leaf :: order)).length
    have hends : Returns (verifyChain verify _ anchors (message (leaf :: order)) now) _ :=
      verifyChain_order hclock hvalid horder hlt
    obtain ⟨r,hr,z,hgreedy,hz⟩ := hends
    rw [h order horder _ hlt,Option.some.injEq] at hr
    have hend := hgreedy.unique (hmap ▸ hstuck.greedy)
    exact hend ▸ hz.mp hr.symm
  · intro h order horder fuel hf
    have hends : Returns (verifyChain verify _ anchors (message (leaf :: order)) now) _ :=
      verifyChain_order hclock hvalid horder hf
    obtain ⟨r,hr,z,hgreedy,hz⟩ := hends
    obtain ⟨ps,others,hperm,hstuck,rfl⟩ := hgreedy.trail
    rw [hr,hz.mpr (h ps others (hperm.trans (horder.map Entry.cert)) hstuck)]

end

/-- A signature scheme in which a signature is the modulus of the key that made it. -/
def byModulus (_sigAlg _tbs signature : List UInt8) : SpkiKey → Except SigVerifyError Unit
  | .rsa n _ => if n = signature then .ok () else .error .verifyFailed
  | _ => .error .keyTypeMismatch

def element (tag : UInt8) (content : List UInt8) : List UInt8 :=
  tag :: UInt8.ofNat content.length :: content

def letter (c : UInt8) : List UInt8 :=
  element 0x30 (element 0x31 (element 0x30 (element 0x06 [0x55,0x04,0x03] ++ element 0x0c [c])))

def algorithm : List UInt8 := element 0x30 (element 0x06 oidEd25519)

def decade : List UInt8 :=
  element 0x30
    (element 0x17 [50,53,48,49,48,49,48,48,48,48,48,48,90] ++
      element 0x17 [51,53,48,49,48,49,48,48,48,48,48,48,90])

def rsaSpki (n : UInt8) : List UInt8 :=
  element 0x30
    (element 0x30 (element 0x06 oidRsaEncryption) ++
      element 0x03 (0x00 :: element 0x30 (element 0x02 [n] ++ element 0x02 [0x03])))

def caExtension : List UInt8 :=
  element 0xa3 (element 0x30 (element 0x30
    (element 0x06 oidExtBasicConstraints ++ element 0x04 (element 0x30 (element 0x01 [0xff])))))

def sampleTbs (serial issuer subject n : UInt8) (extensions : List UInt8) : List UInt8 :=
  element 0x30 (element 0x02 [serial] ++ algorithm ++ letter issuer ++ decade ++ letter subject ++
    rsaSpki n ++ extensions)

def sampleDer (tbs : List UInt8) (signature : UInt8) : List UInt8 :=
  element 0x30 (tbs ++ algorithm ++ element 0x03 [0x00,signature])

def sampleCert (serial issuer subject n : UInt8) (extensions : List UInt8) (signature : UInt8) :
    Certificate where
  tbs := sampleTbs serial issuer subject n extensions
  serial := [serial]
  sigAlgDer := algorithm
  sigAlg := oidEd25519
  issuer := letter issuer
  subject := letter subject
  validity := { notBefore := 1735689600, notAfter := 2051222400 }
  spki := { alg := oidRsaEncryption, key := .rsa [n] [0x03] }
  version := 1
  signature := [signature]

def directLeaf : Entry where
  der := sampleDer (sampleTbs 1 73 76 9 []) 7
  cert := sampleCert 1 73 76 9 [] 7
  parses := by decide +kernel

def crossSigned : Entry where
  der := sampleDer (sampleTbs 2 85 73 7 caExtension) 5
  cert := sampleCert 2 85 73 7 caExtension 5
  parses := by decide +kernel

def anchorI : TrustAnchor where
  subject := letter 73
  key := .rsa [7] [3]

def anchorU : TrustAnchor where
  subject := letter 85
  key := .rsa [5] [3]

theorem directLeaf_anchored (anchors : List TrustAnchor) :
    Trusted byModulus (anchorI :: anchors) directLeaf.cert [crossSigned.cert] [] where
  presented := by simp
  distinct := nodup_nil
  trail := .singleton _
  anchored := ⟨anchorI,by simp,by decide +kernel⟩

theorem directLeaf_valid : ∀ e ∈ [directLeaf,crossSigned], ValidAt clockFloor e.cert := by
  simp [ValidAt,directLeaf,crossSigned,sampleCert,clockFloor]

/-- With both issuers among the anchors the chain through the cross-signed copy
ends next to an anchor too. -/
theorem verifyChain_complete_iff_bothAnchors :
    verifyChain byModulus 300 [anchorI,anchorU] (message [directLeaf,crossSigned]) clockFloor =
      some (.ok ()) := by
  have h := verifyChain_complete_iff byModulus [anchorI,anchorU] clockFloor directLeaf
    [crossSigned] (Int.le_refl _) directLeaf_valid
  refine h.mpr (fun _ => ?_) ⟨[],directLeaf_anchored _⟩ [crossSigned] (.refl _) 300 (by decide +kernel)
  intro ps others hperm hstuck
  have hsplit : ps ++ others = [crossSigned.cert] := perm_singleton.mp hperm
  cases ps with
  | nil => exact ⟨anchorI,by simp,by decide +kernel⟩
  | cons p ps =>
    obtain ⟨rfl,hnil⟩ := List.cons.inj hsplit
    obtain ⟨rfl,-⟩ := append_eq_nil_iff.mp hnil
    exact ⟨anchorU,by simp,by decide +kernel⟩

/-- A copy of the anchor that some other CA has signed hides the anchor itself,
although the anchor has signed the leaf. -/
theorem crossSigned_hides_anchor :
    (∃ path, Trusted byModulus [anchorI] directLeaf.cert ([crossSigned].map Entry.cert) path) ∧
      (∀ e ∈ [directLeaf,crossSigned], ValidAt clockFloor e.cert) ∧
      verifyChain byModulus 300 [anchorI] (message [directLeaf,crossSigned]) clockFloor =
        some (.error .noAnchor) :=
  ⟨⟨[],directLeaf_anchored _⟩,directLeaf_valid,by decide +kernel⟩

end PaghOS.Tls
