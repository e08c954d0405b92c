import PaghOS.Apt.Clearsign
import PaghOS.Apt.ReleaseSpec

/-!
The text `fetch_signed_release` hands on against the text the signature covers.
The parser reads the lines as armored; the signature covers them without dash
escapes and trailing blanks. A line can differ between the two views in two ways
only: a dash-escaped line is nothing to the parser, and an indented blank line is
a continuation to it but an empty line to the signer.
-/

namespace PaghOS.Apt
open Text List Bool

variable {t w : List Char} {line ws l input : List UInt8} {rest : List (List UInt8)}

def isBlankChar (c : Char) : Bool := c = ' ' || c = '\t' || c = '\r'

variable {c : Char}

theorem isWhitespace_of_blank (h : isBlankChar c = true) : isWhitespace c = true := by
  simp only [isBlankChar,or_eq_true,decide_eq_true_eq] at h
  rcases h with (rfl | rfl) | rfl <;> decide

theorem ne_colon_of_blank (h : isBlankChar c = true) : c ≠ ':' := by
  rintro rfl
  exact absurd h (by decide)

theorem trim_append_blank (hw : ∀ c ∈ w, isBlankChar c = true) : trim (t ++ w) = trim t :=
  trimBoth_append _ fun c hc => isWhitespace_of_blank (hw c hc)

theorem splitColon_append_blank (hw : ∀ c ∈ w, isBlankChar c = true) :
    splitColon (t ++ w) = splitColon t := by
  have hcolon : ':' ∉ w := fun h => ne_colon_of_blank (hw _ h) rfl
  unfold splitColon
  by_cases ht : ':' ∈ t
  · -- The first colon stands in `t`, so only the value part grows.
    have hkey : (t ++ w).takeWhile (· ≠ ':') = t.takeWhile (· ≠ ':') := by
      rw [takeWhile_append]
      split
      · rename_i hall
        have hself := (List.takeWhile_prefix (· ≠ ':')).eq_of_length hall
        have := takeWhile_eq_self_iff.mp hself ':' ht
        simp at this
      · rfl
    have hval : (t ++ w).dropWhile (· ≠ ':') = t.dropWhile (· ≠ ':') ++ w := by
      rw [dropWhile_append]
      split
      · rename_i hall
        have hnil : t.dropWhile (· ≠ ':') = [] := by simpa using hall
        have := dropWhile_eq_nil_iff.mp hnil ':' ht
        simp at this
      · rfl
    have hne : t.dropWhile (· ≠ ':') ≠ [] := by
      intro hnil
      have := dropWhile_eq_nil_iff.mp hnil ':' ht
      simp at this
    rw [hkey,hval,tail_append_of_ne_nil hne,trim_append_blank hw]
    simp [ht]
  · simp [ht,hcolon]

theorem meaning_append_blank (hw : ∀ c ∈ w, isBlankChar c = true)
    (ht : t = [] → isContinuation w = false) : meaning (t ++ w) = meaning t := by
  cases t with
  | nil =>
    have hnone : splitColon w = none := by
      have := splitColon_append_blank (t := []) hw
      simpa [splitColon] using this
    simp only [nil_append,meaning,ht rfl,hnone]
    rfl
  | cons c t =>
    have hcont : isContinuation (c :: t ++ w) = isContinuation (c :: t) := rfl
    unfold meaning
    rw [hcont,trim_append_blank hw,splitColon_append_blank hw]

theorem meaning_stripCr (s : List Char) : meaning (stripCr s) = meaning s := by
  unfold stripCr
  split
  · rename_i hlast
    have hs : s = s.dropLast ++ ['\r'] := by
      have hne : s ≠ [] := by
        rintro rfl
        simp at hlast
      have hget : s.getLast hne = '\r' := by
        rw [List.getLast?_eq_some_getLast hne] at hlast
        exact Option.some.inj hlast
      rw [← hget]
      exact (dropLast_concat_getLast hne).symm
    have h := meaning_append_blank (t := s.dropLast) (w := ['\r'])
      (by simp [isBlankChar]) fun _ => rfl
    rw [← hs] at h
    exact h.symm
  · rfl

theorem blank_asciiChars (h : ∀ b ∈ ws, isLineEndSpace b = true) :
    ∀ c ∈ asciiChars ws, isBlankChar c = true := by
  intro c hc
  simp only [asciiChars,mem_map] at hc
  obtain ⟨b,hb,rfl⟩ := hc
  have hspace := h b hb
  simp only [isLineEndSpace,or_eq_true,decide_eq_true_eq] at hspace
  rcases hspace with (rfl | rfl) | rfl <;> decide

theorem lineEndSpace_ascii {b : UInt8} (h : isLineEndSpace b = true) : b < 0x80 := by
  simp only [isLineEndSpace,or_eq_true,decide_eq_true_eq] at h
  rcases h with (rfl | rfl) | rfl <;> decide

theorem meaning_decode_append (hws : ∀ b ∈ ws, isLineEndSpace b = true)
    (hl : l = [] → isContinuation (asciiChars ws) = false) :
    meaning (decodeLine (l ++ ws)) = meaning (decodeLine l) := by
  unfold decodeLine
  rw [meaning_stripCr,meaning_stripCr,
    utf8Decode_append_ascii l ws fun b hb => lineEndSpace_ascii (hws b hb)]
  cases hd : utf8Decode l with
  | none => rfl
  | some s =>
    simp only [Option.map_some,Option.getD_some]
    apply meaning_append_blank (blank_asciiChars hws)
    rintro rfl
    exact hl (utf8Decode_eq_nil hd)

def isDashEscaped (line : List UInt8) : Bool := [45,32].isPrefixOf line

def isBlankContinuation (line : List UInt8) : Bool :=
  (line.head? = some 32 || line.head? = some 9) && line.all isLineEndSpace

def asSigned (line : List UInt8) : Meaning := meaning (decodeLine (canonicalLine line))

theorem dropDashEscape_of_not (h : isDashEscaped line = false) : dropDashEscape line = line := by
  unfold dropDashEscape
  split
  · simp [isDashEscaped] at h
  · rfl

theorem meaning_eq_asSigned (hdash : isDashEscaped line = false)
    (hblank : isBlankContinuation line = false) : meaning (decodeLine line) = asSigned line := by
  have hsplit : line.rdropWhile isLineEndSpace ++ line.rtakeWhile isLineEndSpace = line :=
    rdropWhile_append_rtakeWhile
  have hws : ∀ b ∈ line.rtakeWhile isLineEndSpace, isLineEndSpace b = true :=
    fun b hb => mem_rtakeWhile_imp hb
  rw [asSigned,canonicalLine,dropDashEscape_of_not hdash]
  have h := meaning_decode_append (l := line.rdropWhile isLineEndSpace) hws (by
    intro hnil
    -- The line is blank all over, so its first character is no indentation.
    rw [hnil,nil_append] at hsplit
    rw [hsplit]
    have hall : line.all isLineEndSpace = true := by
      rw [all_eq_true]
      exact fun b hb => rdropWhile_eq_nil_iff.mp hnil b hb
    simp only [isBlankContinuation,hall,Bool.and_true] at hblank
    cases line with
    | nil => rfl
    | cons b bs =>
      have hb : isLineEndSpace b = true := by
        have := all_eq_true.mp hall b (by simp)
        exact this
      simp only [isLineEndSpace,Bool.or_eq_true,decide_eq_true_eq] at hb
      rcases hb with (rfl | rfl) | rfl
      · simp at hblank
      · simp at hblank
      · rfl)
  rw [hsplit] at h
  exact h

/-- No line is dash-escaped, and none is blank but indented. -/
def PlainLines (lines : List (List UInt8)) : Prop :=
  ∀ l ∈ lines, isDashEscaped l = false ∧ isBlankContinuation l = false

instance (lines : List (List UInt8)) : Decidable (PlainLines lines) :=
  inferInstanceAs (Decidable (∀ l ∈ lines, _ ∧ _))

theorem PlainLines.lineMeanings {lines : List (List UInt8)} (h : PlainLines lines) :
    lineMeanings lines = lines.map asSigned :=
  map_congr_left fun l hl => meaning_eq_asSigned (h l hl).1 (h l hl).2

theorem foldl_apply_snoc_other (p : Parser) (ms : List Meaning) :
    ((ms ++ [Meaning.other]).foldl Parser.apply p).out = (ms.foldl Parser.apply p).out := by
  simp [Parser.apply]

theorem meaning_decode_cr (l : List UInt8) : meaning (decodeLine (l ++ [13])) = meaning (decodeLine l) :=
  meaning_decode_append (l := l) (by simp [isLineEndSpace]) fun _ => rfl

theorem canonicalLine_append_cr (l : List UInt8) : canonicalLine (l ++ [13]) = canonicalLine l := by
  have hdrop : dropDashEscape (l ++ [13]) = dropDashEscape l ++ [13] := by
    match l with
    | [] => rfl
    | [a] =>
      unfold dropDashEscape
      split
      · simp_all
      · split
        · simp_all
        · rfl
    | a :: b :: rest =>
      by_cases h : a = 45 ∧ b = 32
      · obtain ⟨rfl,rfl⟩ := h
        rfl
      have hesc : ∀ tail : List UInt8, isDashEscaped (a :: b :: tail) = false := by
        intro tail
        simp only [isDashEscaped,List.isPrefixOf,and_eq_false_iff]
        by_cases ha : a = 45
        · exact .inr (.inl (by simpa using fun hb => h ⟨ha,hb.symm⟩))
        · exact .inl (by simpa using fun hc => ha hc.symm)
      rw [cons_append,cons_append,dropDashEscape_of_not (hesc _),dropDashEscape_of_not (hesc _)]
      rfl
  unfold canonicalLine
  rw [hdrop]
  exact rdropWhile_append_of_all _ (by simp [isLineEndSpace])

theorem not_mem_canonicalLine (h : 10 ∉ l) : 10 ∉ canonicalLine l := by
  intro hmem
  have hpre : canonicalLine l <+: dropDashEscape l := rdropWhile_prefix _ _
  have hsub : dropDashEscape l <:+ l := by
    unfold dropDashEscape
    split
    · exact ⟨[45,32],rfl⟩
    · exact suffix_rfl
  exact h (hsub.subset (hpre.subset hmem))

variable {ls : List (List UInt8)}

theorem findMessage_suffix (h : findMessage ls = .ok rest) : rest <:+ ls := by
  induction ls with
  | nil => simp [findMessage] at h
  | cons l ls ih =>
    simp only [findMessage] at h
    split at h
    · simp only [Except.ok.injEq] at h
      subst h
      exact suffix_cons l ls
    · split at h
      · exact (ih h).trans (suffix_cons l ls)
      · simp at h

theorem readHeaders_suffix {acc headers : List ArmorHeader}
    (h : readHeaders acc ls = .ok (headers,rest)) : rest <:+ ls := by
  induction ls generalizing acc with
  | nil => simp [readHeaders] at h
  | cons l ls ih =>
    simp only [readHeaders] at h
    split at h
    · simp only [Except.ok.injEq,Prod.mk.injEq] at h
      obtain ⟨-,rfl⟩ := h
      exact suffix_cons l ls
    cases hh : armorHeader .clearsignMalformed (trimAscii l) with
    | error e => simp [hh,bind,Except.bind] at h
    | ok a =>
      simp only [hh,bind,Except.bind] at h
      exact (ih h).trans (suffix_cons l ls)

theorem findSignature_spec {text sig : List (List UInt8)}
    (h : findSignature ls = .ok (text,sig)) : ls = text ++ sig ∧ sig ≠ [] := by
  induction ls generalizing text with
  | nil => simp [findSignature] at h
  | cons l ls ih =>
    simp only [findSignature] at h
    split at h
    · simp only [Except.ok.injEq,Prod.mk.injEq] at h
      obtain ⟨rfl,rfl⟩ := h
      simp
    cases hs : findSignature ls with
    | error e => simp [hs,bind,Except.bind] at h
    | ok res =>
      obtain ⟨t,s⟩ := res
      simp only [hs,bind,Except.bind,Except.ok.injEq,Prod.mk.injEq] at h
      obtain ⟨rfl,rfl⟩ := h
      obtain ⟨rfl,hne⟩ := ih hs
      exact ⟨rfl,hne⟩

variable {cs : Clearsigned}

theorem parseClearsigned_text (h : parseClearsigned input = .ok cs) :
    ∃ ls, cs.text = unlines 10 ls ∧ (∀ l ∈ ls, 10 ∉ l) ∧ cs.text.length ≤ maxClearsignBytes := by
  unfold parseClearsigned at h
  split at h
  · simp at h
  rename_i hlen
  cases hm : findMessage (input.splitOn 10) with
  | error e => simp [hm,bind,Except.bind] at h
  | ok body =>
    cases hh : readHeaders [] body with
    | error e => simp [hm,hh,bind,Except.bind] at h
    | ok res =>
      obtain ⟨headers,body'⟩ := res
      cases hs : findSignature body' with
      | error e => simp [hm,hh,hs,bind,Except.bind] at h
      | ok res =>
        obtain ⟨text,sig⟩ := res
        simp only [hm,hh,hs,bind,Except.bind,Except.ok.injEq] at h
        subst h
        obtain ⟨rfl,hsig⟩ := findSignature_spec hs
        obtain ⟨pre,hpre⟩ := (readHeaders_suffix hh).trans (findMessage_suffix hm)
        refine ⟨text,rfl,?_,?_⟩
        · intro l hl
          have hmem : l ∈ input.splitOn 10 := by
            rw [← hpre]
            simp [hl]
          exact not_mem_of_mem_splitOn hmem
        have hinput : [10].intercalate (input.splitOn 10) = input :=
          intercalate_splitOn 10
        rw [← hpre,intercalate_append_of_ne_nil 10 pre (by simp [hsig]),
          intercalate_append_of_ne_nil 10 text hsig] at hinput
        have hlength := congrArg List.length hinput
        simp only [length_append] at hlength
        dsimp only
        omega

theorem map_canonicalLine_cr (body : List UInt8) :
    ((body ++ [13]).splitOn 10).map canonicalLine = (body.splitOn 10).map canonicalLine := by
  obtain ⟨init,last,hbody,hsnoc⟩ := splitOn_snoc (x := (10 : UInt8)) (c := 13) (by decide) body
  rw [hbody,hsnoc]
  simp [canonicalLine_append_cr]

theorem dropFinalNewline_lines (body : List UInt8) :
    ((dropFinalNewline (body ++ [10])).splitOn 10).map canonicalLine =
      (body.splitOn 10).map canonicalLine := by
  unfold dropFinalNewline
  split
  · rename_i hcr
    obtain ⟨pre,hpre⟩ := hcr
    have hsplit : pre ++ [13] ++ [10] = body ++ [10] := by simpa using hpre
    have hbody : body = pre ++ [13] := (append_cancel_right hsplit).symm
    subst hbody
    simp [map_canonicalLine_cr]
  · simp

theorem canonicalText_eq (hne : ls ≠ []) (hls : ∀ l ∈ ls, 10 ∉ l) (htext : cs.text = unlines 10 ls) :
    cs.canonicalText = [13,10].intercalate (ls.map canonicalLine) := by
  unfold Clearsigned.canonicalText
  rw [htext,unlines_eq_intercalate 10 hne,dropFinalNewline_lines,splitOn_intercalate 10 hls hne]

theorem lineMeanings_canonicalText (hne : ls ≠ []) (hls : ∀ l ∈ ls, 10 ∉ l)
    (htext : cs.text = unlines 10 ls) : lineMeanings (cs.canonicalText.splitOn 10) = ls.map asSigned := by
  have hcanon : ∀ l ∈ ls.map canonicalLine, 10 ∉ l := by
    intro l hl
    obtain ⟨m,hm,rfl⟩ := mem_map.mp hl
    exact not_mem_canonicalLine (hls m hm)
  rw [canonicalText_eq hne hls htext,lineMeanings,← map_splitOn_snoc (by decide) _ meaning_decode_cr,
    splitOn_intercalate_pair (by decide) (by simpa using hne) hcanon]
  simp [asSigned,meaning_decode_cr]

theorem parseLines_canonicalText (hls : ∀ l ∈ ls, 10 ∉ l) (htext : cs.text = unlines 10 ls) :
    parseLines (cs.canonicalText.splitOn 10) =
      (((cs.text.splitOn 10).map asSigned).foldl Parser.apply {}).out := by
  have hlines : cs.text.splitOn 10 = ls ++ [[]] := by rw [htext,splitOn_unlines hls]
  have hempty : asSigned [] = .other := rfl
  rw [parseLines_eq,hlines,map_append,map_singleton,hempty,foldl_apply_snoc_other]
  by_cases hne : ls = []
  · subst hne
    have hcanon : cs.canonicalText = [] := by
      simp [Clearsigned.canonicalText,htext,unlines,dropFinalNewline,canonicalLine,dropDashEscape]
    rw [hcanon]
    rfl
  · rw [lineMeanings_canonicalText hne hls htext]

theorem parseRelease_of_plain (hls : ∀ l ∈ ls, 10 ∉ l) (htext : cs.text = unlines 10 ls)
    (hlen : cs.text.length ≤ maxReleaseBytes) (hcanon : cs.canonicalText.length ≤ maxReleaseBytes)
    (hplain : PlainLines (cs.text.splitOn 10)) : parseRelease cs.text = parseRelease cs.canonicalText := by
  have hwhole : ¬ maxReleaseBytes < cs.text.length := by omega
  have hwhole' : ¬ maxReleaseBytes < cs.canonicalText.length := by omega
  simp only [parseRelease,take_of_length_le hlen,take_of_length_le hcanon,hwhole,hwhole',
    parseLines_canonicalText hls htext]
  rw [parseLines_eq,hplain.lineMeanings]

theorem verifyClearsigned_parse {v : Verifier} {now : Int} {verified : Verified}
    (h : verifyClearsigned v input now = .ok (cs,verified)) : parseClearsigned input = .ok cs := by
  unfold verifyClearsigned at h
  split at h
  · simp at h
  cases hp : parseClearsigned input with
  | error e => simp [hp,packetErr,bind,Except.bind] at h
  | ok cs' =>
    simp only [hp,packetErr,bind,Except.bind] at h
    split at h
    · simp at h
    split at h
    · simp at h
    · simp only [Except.ok.injEq,Prod.mk.injEq] at h
      rw [h.1]

/-- What is parsed is what was signed, for every accepted message of plain lines whose signed
form is within the parser's limit. -/
theorem signedText_of_plain (v : Verifier) (fetch : String → Except FetchError (List UInt8))
    (cfg : AptConfig) (now : Int) {input : List UInt8} {cs : Clearsigned} {verified : Verified}
    (hfetch : fetch (cfg.url "InRelease") = .ok input)
    (h : verifyClearsigned v input now = .ok (cs,verified)) (hplain : PlainLines (cs.text.splitOn 10))
    (hlimit : cs.canonicalText.length ≤ maxReleaseBytes) :
    ∃ r, fetchSignedRelease v fetch cfg now = .ok r ∧
      parseRelease r.text = parseRelease cs.canonicalText := by
  obtain ⟨ls,htext,hls,hlen⟩ := parseClearsigned_text (verifyClearsigned_parse h)
  refine ⟨⟨cs.text,.inRelease,verified.signer⟩,?_,?_⟩
  · simp [fetchSignedRelease,hfetch,h]
  · exact parseRelease_of_plain hls htext hlen hlimit hplain

/-- A check that accepts, as the real one does on a message its signer signed. -/
def acceptAll : Verifier where
  text := fun _ _ _ _ => .ok ⟨[],[]⟩
  binary := fun _ _ _ => .ok ⟨[],[]⟩

def message (body : String) : List UInt8 :=
  bytes "-----BEGIN PGP SIGNED MESSAGE-----\nHash: SHA256\n\n" ++ bytes body ++
    bytes "-----BEGIN PGP SIGNATURE-----\n\nAAAA\n-----END PGP SIGNATURE-----\n"

def serve (body : String) (url : String) : Except FetchError (List UInt8) :=
  if url = "/debian/dists/stable/InRelease" then .ok (message body) else .error (.status 404)

def debianStable : AptConfig := ⟨"/debian","stable"⟩

/-- Blanks at the end of a line, which the signature does not cover either. -/
def datedBody : String := "Suite: stable  \nDate: Sat, 12 Sep 2026 07:55:41 UTC\n"

def parsedAs (body : String) : Clearsigned :=
  ⟨[⟨bytes "Hash",bytes "SHA256"⟩],bytes body,
    bytes "-----BEGIN PGP SIGNATURE-----\n\nAAAA\n-----END PGP SIGNATURE-----\n"⟩

theorem signedText_of_plain_dated : (parsedAs datedBody).text ≠ (parsedAs datedBody).canonicalText ∧
    ∃ r, fetchSignedRelease acceptAll (serve datedBody) debianStable 1800000000 = .ok r ∧
      parseRelease r.text = parseRelease (parsedAs datedBody).canonicalText := by
  have hfetch : serve datedBody (debianStable.url "InRelease") = .ok (message datedBody) := by
    decide +kernel
  have hverify : verifyClearsigned acceptAll (message datedBody) 1800000000 =
      .ok (parsedAs datedBody,⟨[],[]⟩) := by
    decide +kernel
  exact ⟨by decide +kernel,signedText_of_plain acceptAll _ _ _ hfetch hverify
    (by decide +kernel) (by decide +kernel)⟩

/-- The expiry stands behind a dash escape that the signature does not cover. -/
def escapedBody : String :=
  "Suite: stable\n- Valid-Until: Sat, 12 Sep 2026 07:55:41 UTC\n"

/-- A blank inside the section, which the signature does not cover. -/
def blankBody : String :=
  "SHA256:\n \n 00112233445566778899aabbccddeeff00112233445566778899aabbccddeeff 7 main/x\n"

/-- The parser does not see the expiry that was signed, and sees an entry that was
signed as standing in no section. -/
theorem signedText_differs : (verifyClearsigned acceptAll (message escapedBody) 1800000000 =
        .ok (parsedAs escapedBody,⟨[],[]⟩) ∧
      fetchSignedRelease acceptAll (serve escapedBody) debianStable 1800000000 =
        .ok ⟨(parsedAs escapedBody).text,.inRelease,[]⟩ ∧
      (parseRelease (parsedAs escapedBody).text).validUntil = .absent ∧
      (parseRelease (parsedAs escapedBody).canonicalText).validUntil = .parsed 1789199741) ∧
    (verifyClearsigned acceptAll (message blankBody) 1800000000 = .ok (parsedAs blankBody,⟨[],[]⟩) ∧
      (parseRelease (parsedAs blankBody).text).sha256.length = 1 ∧
      (parseRelease (parsedAs blankBody).canonicalText).sha256 = []) := by
  decide +kernel

end PaghOS.Apt
