import PaghOS.Apt.Session
import PaghOS.Apt.SignedText

/-!
The chain of trust over a whole session: signature, `Release`, index, package. An index
carries the update that built it, and every archive handed to the installer is bound to
the index of its moment.
-/

namespace PaghOS.Apt
open List

open Check
open Pkg

variable {calls : List Call} {cfg : RepoConfig} {s : Session} {index : PackageIndex}
variable {more : List Call} {r : SignedRelease} {release : Release} {t : Target} {world : World}
    {fetch : String → Except FetchError (List UInt8)}

/-- The bytes a signature covers: the canonical text of a message, or a detached text. -/
def SignedAt (v : Verifier) (now : Int) (text : List UInt8) : Prop :=
  (∃ input cs verified, verifyClearsigned v input now = .ok (cs,verified) ∧ text = cs.canonicalText) ∨
  ∃ signature verified, verifyDetached v signature text now = .ok verified

/-- The date policy. -/
structure Release.InDate (release : Release) (now : Int) : Prop where
  date_readable : release.date ≠ .malformed
  date_reached : ∀ date, release.date = .parsed date → date ≤ now+maxSkew
  until_readable : release.validUntil ≠ .malformed
  until_ahead : ∀ untilTime, release.validUntil = .parsed untilTime → now ≤ untilTime

/-- The index is what decoding a body gives, and the release lists that body. -/
def ListedIndex (m : Machinery) (release : Release) (index : PackageIndex) : Prop :=
  ∃ entry ∈ release.sha256, ∃ body comp,
    body.length = entry.size ∧ m.sha256 body = entry.sha256 ∧
      streamParseIndex m body comp = .ok index

/-- An update of the session built the index from a signed release that was in date. -/
def Trusted (m : Machinery) (calls : List Call) (index : PackageIndex) : Prop :=
  ∃ fetch cfg now text, Call.update fetch cfg now ∈ calls ∧ SignedAt m.verifier now text ∧
    (parseRelease text).InDate now ∧ ListedIndex m (parseRelease text) index

/-- The archive was read from bytes that a record of the index describes. -/
def Described (m : Machinery) (index : PackageIndex) (entries : List TarEntry) : Prop :=
  ∃ record ∈ index.records, ∃ body tarBytes,
    record.sha256 = some (m.sha256 body) ∧ record.size = body.length ∧
      m.dataTar body = some tarBytes ∧ readTar tarBytes = .ok entries

/-- The message an update is served has no escapes and no blank indented lines, which the
signature does not cover, and its signed form is within the parser's limit. -/
def Call.Plain (m : Machinery) : Call → Prop
  | .update fetch cfg now =>
    ∀ input cs verified, fetch (cfg.url "InRelease") = .ok input →
      verifyClearsigned m.verifier input now = .ok (cs,verified) →
        cs.canonicalText.length ≤ maxReleaseBytes ∧ PlainLines (cs.text.splitOn 10)
  | .install .. => True

theorem Trusted.mono {m : Machinery}
    (h : Trusted m calls index) (hsub : calls ⊆ more) : Trusted m more index := by
  obtain ⟨fetch,cfg,now,text,hcall,hrest⟩ := h
  exact ⟨fetch,cfg,now,text,hsub hcall,hrest⟩

section Update

variable {m : Machinery} {fetch : String → Except FetchError (List UInt8)} {now : Int}

theorem fetchSignedRelease_cases {cfg : AptConfig} {v : Verifier}
    (h : fetchSignedRelease v fetch cfg now = .ok r) :
    (∃ input cs verified, fetch (cfg.url "InRelease") = .ok input ∧
      verifyClearsigned v input now = .ok (cs,verified) ∧ r.text = cs.text) ∨
    ∃ signature verified, verifyDetached v signature r.text now = .ok verified := by
  unfold fetchSignedRelease at h
  split at h
  case h_1 input hfetch =>
    split at h
    case h_1 cs verified hverify =>
      cases h
      exact .inl ⟨input,cs,verified,hfetch,hverify,rfl⟩
    case h_2 => cases h
  case h_2 => cases h
  case h_3 =>
    simp only [fetchDetached,bind_eq_ok] at h
    obtain ⟨signature,-,text,-,h⟩ := h
    split at h
    case h_1 verified hverify =>
      cases h
      exact .inr ⟨signature,verified,hverify⟩
    case h_2 => cases h

theorem signed_of_fetchSignedRelease (hplain : (Call.update fetch cfg now).Plain m)
    (h : fetchSignedRelease m.verifier fetch cfg.toAptConfig now = .ok r) :
    ∃ text, SignedAt m.verifier now text ∧ parseRelease r.text = parseRelease text := by
  rcases fetchSignedRelease_cases h with ⟨input,cs,verified,hfetch,hverify,htext⟩ |
    ⟨signature,verified,hverify⟩
  · obtain ⟨ls,hls,hnl,hlen⟩ := parseClearsigned_text (verifyClearsigned_parse hverify)
    refine ⟨cs.canonicalText,.inl ⟨input,cs,verified,hverify,rfl⟩,?_⟩
    rw [htext]
    obtain ⟨hlimit,hlines⟩ := hplain input cs verified hfetch hverify
    exact parseRelease_of_plain hnl hls hlen hlimit hlines
  · exact ⟨r.text,.inr ⟨signature,verified,hverify⟩,rfl⟩

theorem inDate_of_checkReleasePolicy
    (h : checkReleasePolicy cfg release now = .ok ()) : release.InDate now := by
  simp only [checkReleasePolicy,bind_eq_ok,ensure_eq_ok] at h
  obtain ⟨_,-,_,-,_,-,_,hdate,huntil⟩ := h
  constructor
  case date_readable =>
    intro hd
    simp [checkDate,hd] at hdate
  case date_reached =>
    intro date hd
    simpa [checkDate,hd] using hdate
  case until_readable =>
    intro hu
    simp [checkValidUntil,hu] at huntil
  case until_ahead =>
    intro untilTime hu
    simpa [checkValidUntil,hu] using huntil

theorem listedIndex_of_tryVariants (variants : List Variant) (tried : Tried)
    (h : tryVariants m fetch release tried variants = .ok (.inl index)) : ListedIndex m release index := by
  induction variants generalizing tried with
  | nil => cases h
  | cons variant rest ih =>
    simp only [tryVariants] at h
    split at h
    · exact ih _ h
    rename_i entry hentry
    split at h
    · rename_i body hbody
      split at h
      · cases h
      rename_i hverify
      split at h
      · rename_i hparse
        cases h
        simp only [verifyIndexBody,bind_eq_ok,ensure_eq_ok] at hverify
        obtain ⟨_,hsize,hhash⟩ := hverify
        exact ⟨entry,mem_of_find?_eq_some hentry,body,variant.comp,hsize,hhash,hparse⟩
      · exact ih _ h
    · cases h
    · exact ih _ h

theorem trusted_of_updateVerified
    (hcall : Call.update fetch cfg now ∈ calls) (hplain : (Call.update fetch cfg now).Plain m)
    (h : updateVerified m fetch cfg now = .ok index) : Trusted m calls index := by
  simp only [updateVerified,bind_eq_ok,ensure_eq_ok,mapErr_eq_ok] at h
  obtain ⟨_,-,signed,hsigned,_,hpolicy,tried,htried,h⟩ := h
  obtain ⟨text,htext,hread⟩ := signed_of_fetchSignedRelease hplain hsigned
  rw [hread] at hpolicy htried
  cases tried with
  | inl index' =>
    cases h
    exact ⟨fetch,cfg,now,text,hcall,htext,inDate_of_checkReleasePolicy hpolicy,
      listedIndex_of_tryVariants _ _ htried⟩
  | inr tried =>
    -- Every way out of the loop without an index is a refusal.
    simp only at h
    split at h
    · cases h
    · split at h <;> cases h

end Update

section Install

variable {m : Machinery}

theorem mem_targets {plan : List (List Char)} (h : t ∈ targets index plan) :
    ∃ record ∈ index.records, t.sha256 = record.sha256 ∧ t.size = record.size := by
  obtain ⟨pkg,-,ht⟩ := mem_filterMap.mp h
  obtain ⟨r,hr,rfl⟩ := Option.map_eq_some_iff.mp ht
  refine ⟨r.record,?_,rfl,rfl⟩
  rcases Option.or_eq_some_iff.mp hr with hget | ⟨-,hprov⟩
  · obtain ⟨ri,-,hri⟩ := Option.bind_eq_some_iff.mp hget
    exact (PackageIndex.of_pkgRef hri).2.1
  · exact (PackageIndex.of_getProvider hprov).2

theorem fetchPackage_ok {step : Nat}
    {entries : List TarEntry} (h : fetchPackage m cfg world step t = .ok entries) :
    ∃ body tarBytes, t.sha256 = some (m.sha256 body) ∧ t.size = body.length ∧
      m.dataTar body = some tarBytes ∧ readTar tarBytes = .ok entries := by
  simp only [fetchPackage,verifyPackageBody,bind_eq_ok,ensure_eq_ok,demand_eq_ok,mapErr_eq_ok] at h
  obtain ⟨_,-,expected,hexpected,body,-,_,⟨_,hsize,hhash⟩,tarBytes,hdata,hread⟩ := h
  exact ⟨body,tarBytes,hhash ▸ hexpected,hsize.symm,hdata,hread⟩

/-- Each archive of the log, and the index, have their justification. -/
structure Kept (m : Machinery) (calls : List Call) (s : Session) : Prop where
  index_trusted : ∀ index, s.index = some index → Trusted m calls index
  unpacked_described : ∀ u ∈ s.unpacked, ∃ index, u.index = some index ∧
    Trusted m calls index ∧ Described m index u.entries

theorem Kept.mono (h : Kept m calls s) (hsub : calls ⊆ more) : Kept m more s where
  index_trusted index hindex := (h.index_trusted index hindex).mono hsub
  unpacked_described u hu := by
    obtain ⟨index,hindex,htrusted,hdesc⟩ := h.unpacked_described u hu
    exact ⟨index,hindex,htrusted.mono hsub,hdesc⟩

theorem Kept.installLoop (todo : List Target) (htargets : ∀ t ∈ todo, ∃ record ∈ index.records,
      t.sha256 = record.sha256 ∧ t.size = record.size)
    (step : Nat) (done : List (List Char)) (h : Kept m calls s)
    (hindex : s.index = some index) : Kept m calls (installLoop m cfg world step todo done s).2 := by
  induction todo generalizing step done s with
  | nil => exact h
  | cons t rest ih =>
    simp only [Apt.installLoop]
    split
    · exact h
    rename_i entries hfetch
    obtain ⟨record,hrecord,hsha,hsize⟩ := htargets t (by simp)
    obtain ⟨body,tarBytes,hbody,hlen,hread⟩ := fetchPackage_ok hfetch
    have hlogged : Kept m calls { s with unpacked := s.unpacked ++ [⟨entries,s.index⟩] } := by
      refine ⟨h.index_trusted,?_⟩
      intro u hu
      rcases mem_append.mp hu with hu | hu
      · exact h.unpacked_described u hu
      · rw [mem_singleton.mp hu]
        exact ⟨index,hindex,h.index_trusted index hindex,
          record,hrecord,body,tarBytes,hsha ▸ hbody,hsize ▸ hlen,hread⟩
    split
    · exact ih (fun t' ht' => htargets t' (by simp [ht'])) _ _
        ⟨hlogged.index_trusted,hlogged.unpacked_described⟩ hindex
    · exact hlogged

theorem Kept.install (h : Kept m calls s) (cfg : RepoConfig)
    (world : World) (fuel : Nat) (name : List Char) : Kept m calls (s.install m cfg world fuel name).2 := by
  unfold Session.install
  split
  · exact h
  split
  · exact h
  rename_i index hindex
  split
  · exact h
  · exact h
  · exact h.installLoop _ (fun t ht => mem_targets ht) _ _ hindex

end Install

section Runs

variable {m : Machinery}

theorem Kept.update (h : Kept m calls s) {now : Int}
    (hcall : Call.update fetch cfg now ∈ calls) (hplain : (Call.update fetch cfg now).Plain m) :
    Kept m calls (s.update m fetch cfg now).2 := by
  unfold Session.update
  split
  · rename_i index hupdate
    refine ⟨?_,h.unpacked_described⟩
    rintro _ ⟨⟩
    exact trusted_of_updateVerified hcall hplain hupdate
  · exact ⟨nofun,h.unpacked_described⟩

theorem Kept.call (h : Kept m calls s) {c : Call}
    (hcall : c ∈ calls) (hplain : c.Plain m) : Kept m calls (s.call m c) := by
  cases c with
  | update fetch cfg now => exact h.update hcall hplain
  | install cfg world fuel name => exact h.install cfg world fuel name

theorem kept_session (calls : List Call) (hplain : ∀ c ∈ calls, c.Plain m) :
    Kept m calls (session m calls) := by
  induction calls using List.reverseRecOn with
  | nil => exact ⟨nofun,by simp [session]⟩
  | append_singleton calls c ih =>
    have hrest := ih (fun c' hc' => hplain c' (by simp [hc']))
    rw [session,foldl_append]
    exact (hrest.mono (by simp)).call (by simp) (hplain c (by simp))

theorem index_of_update_error {now : Int} {e : OpError} (h : (s.update m fetch cfg now).1 = .error e) :
    (s.update m fetch cfg now).2.index = none := by
  unfold Session.update at h ⊢
  split at h
  · cases h
  · rfl

theorem install_without_index (h : s.index = none) (cfg : RepoConfig)
    (world : World) (fuel : Nat) (name : List Char) :
    ∃ e, s.install m cfg world fuel name = (some (.error e),s) := by
  unfold Session.install
  split
  · exact ⟨_,rfl⟩
  · rw [h]
    exact ⟨_,rfl⟩

end Runs

/-- Over every session whose signed messages are plain, whatever the network answers:
archives only come from bytes the index of their moment describes, every index from a body
listed in a signed release that was in date, and a refused update leaves none. -/
theorem trust_chain (m : Machinery) (calls : List Call) (hplain : ∀ c ∈ calls, c.Plain m) :
    (∀ u ∈ (session m calls).unpacked, ∃ index, u.index = some index ∧
      Trusted m calls index ∧ Described m index u.entries) ∧
    (∀ index, (session m calls).index = some index → Trusted m calls index) ∧
    ∀ fetch cfg now e, ((session m calls).update m fetch cfg now).1 = .error e →
      ((session m calls).update m fetch cfg now).2.index = none ∧ ∀ cfg' world fuel name, ∃ e',
        ((session m calls).update m fetch cfg now).2.install m cfg' world fuel name =
          (some (.error e'),((session m calls).update m fetch cfg now).2) := by
  have hkept := kept_session calls hplain
  refine ⟨hkept.unpacked_described,hkept.index_trusted,?_⟩
  intro fetch cfg now e he
  have hnone := index_of_update_error he
  exact ⟨hnone,install_without_index hnone⟩

def mirrorIndex : List UInt8 :=
  bytes "Package: a\nFilename: a.deb\nSize: 3\nSHA256: " ++ List.replicate 64 49

def mirrorRelease (untilLine : List UInt8) : List UInt8 :=
  bytes "Suite: stable\n" ++ untilLine ++ bytes "SHA256:\n " ++ List.replicate 64 48 ++
    bytes " 107 main/binary-amd64/Packages\n"

def validUntilLine : List UInt8 := bytes "Valid-Until: Sat, 12 Sep 2026 07:55:41 UTC\n"

def mirrorSignature : List UInt8 := beginSig ++ [10,10,65,65,65,65,10] ++ endSig

def mirrorMessage (body : List UInt8) : List UInt8 :=
  beginMsg ++ [10,10] ++ body ++ mirrorSignature

def signedRelease : List UInt8 :=
  Clearsigned.canonicalText ⟨[],mirrorRelease validUntilLine,mirrorSignature⟩

def debianAmd64 : RepoConfig := { debianStable with component := "main", arch := "amd64" }

def mirrorMachinery : Machinery where
  sha256 body := List.replicate 32 (if body = mirrorIndex then 0 else 17)
  verifier :=
    { text := fun _ signed _ _ =>
        if signed = signedRelease then .ok ⟨[],[]⟩
        else .error (.signature "signature" "NoTrustedSignature")
      binary := fun _ _ _ => .error (.signature "signature" "NoTrustedSignature") }
  decompressStream body _ := ([body],true)
  dataTar _ := some []
  network := true

def mirrorFetch (untilLine : List UInt8) (url : String) : Except FetchError (List UInt8) :=
  if url = "/debian/dists/stable/InRelease" then .ok (mirrorMessage (mirrorRelease untilLine))
  else if url = "/debian/dists/stable/main/binary-amd64/Packages" then .ok mirrorIndex
  else if url = "/debian/a.deb" then .ok [1,2,3]
  else .error (.status 404)

def mirrorCalls (untilLine : List UInt8) (now : Int) : List Call :=
  [.update (mirrorFetch untilLine) debianAmd64 now,
    .install debianAmd64 ⟨fun _ => mirrorFetch untilLine,fun _ _ => true⟩ 100 ['a']]

theorem signedAt_mirror {now : Int} {text : List UInt8}
    (h : SignedAt mirrorMachinery.verifier now text) : text = signedRelease := by
  rcases h with ⟨input,cs,verified,hverify,rfl⟩ | ⟨signature,verified,hverify⟩
  · unfold verifyClearsigned at hverify
    split at hverify
    · cases hverify
    simp only [bind_eq_ok] at hverify
    obtain ⟨cs',-,armored,-,verified',haccept,heq⟩ := hverify
    cases heq
    by_contra hne
    simp [mirrorMachinery,hne] at haccept
  · unfold verifyDetached at hverify
    split at hverify
    · cases hverify
    · simp [mirrorMachinery] at hverify

theorem plain_mirror {now : Int} (c : Call)
    (hc : c ∈ mirrorCalls validUntilLine now) : c.Plain mirrorMachinery := by
  rcases mem_pair.mp hc with rfl | rfl
  · intro input cs verified hfetch hverify
    have hinput : mirrorFetch validUntilLine (debianAmd64.url "InRelease") =
        .ok (mirrorMessage (mirrorRelease validUntilLine)) := by
      decide +kernel
    cases hinput.symm.trans hfetch
    have hparse : parseClearsigned (mirrorMessage (mirrorRelease validUntilLine)) =
        .ok ⟨[],mirrorRelease validUntilLine,mirrorSignature⟩ := by
      decide +kernel
    cases hparse.symm.trans (verifyClearsigned_parse hverify)
    decide +kernel
  · trivial

theorem trust_chain_mirror :
    (session mirrorMachinery (mirrorCalls validUntilLine 1780000000)).unpacked.length = 1 ∧
    ∀ u ∈ (session mirrorMachinery (mirrorCalls validUntilLine 1780000000)).unpacked,
      ∃ index, u.index = some index ∧ Trusted mirrorMachinery (mirrorCalls validUntilLine 1780000000) index ∧
        Described mirrorMachinery index u.entries :=
  ⟨by decide +kernel,
    (trust_chain mirrorMachinery (mirrorCalls validUntilLine 1780000000) plain_mirror).1⟩

/-- The mirror escapes the expiry of a release it signed long ago: the signature still
verifies, the date policy no longer sees the line, and the package is unpacked. -/
theorem escaped_expiry_unpacks :
    (session mirrorMachinery (mirrorCalls (45 :: 32 :: validUntilLine) 1800000000)).unpacked.length = 1 ∧
    ∀ index, ¬ Trusted mirrorMachinery (mirrorCalls (45 :: 32 :: validUntilLine) 1800000000) index := by
  refine ⟨by decide +kernel,?_⟩
  rintro index ⟨fetch,cfg,now,text,hcall,hsigned,hdate,-⟩
  have hnow : now = 1800000000 := by
    rcases mem_pair.mp hcall with h | h
    · cases h
      rfl
    · cases h
  rw [signedAt_mirror hsigned] at hdate
  have hexpired : (parseRelease signedRelease).validUntil = .parsed 1789199741 := by
    decide +kernel
  have := hdate.until_ahead _ hexpired
  omega

end PaghOS.Apt
