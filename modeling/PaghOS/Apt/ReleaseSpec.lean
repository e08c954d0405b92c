import PaghOS.Apt.Release

/-!
What a `Release` body says, line by line: each line has a meaning of its own, and a
digest entry counts when the nearest line above it that is not a continuation opens
the `SHA256` section.
-/

namespace PaghOS.Apt
open Text Apt.Parser List

inductive Meaning where
  /-- A continuation line, with the digest entry it holds. -/
  | entry (e : Option ReleaseEntry)
  | field (key value : List Char)
  | other
  deriving DecidableEq

def meaning (line : List Char) : Meaning :=
  if isContinuation line then .entry (parseEntry (trim line))
  else
    match splitColon line with
    | none => .other
    | some (key,value) => .field key value

def Parser.apply (p : Parser) : Meaning → Parser
  | .entry e =>
    if p.inSha256 = some true ∧ p.out.sha256.length < maxReleaseEntries then
      match e with
      | some e => { p with out := { p.out with sha256 := p.out.sha256 ++ [e] } }
      | none => p
    else p
  | .field key value => Parser.field { p with inSha256 := none } key value
  | .other => { p with inSha256 := none }

theorem Parser.line_eq_apply (p : Parser) (line : List Char) : p.line line = p.apply (meaning line) := by
  unfold Parser.line meaning
  by_cases hc : isContinuation line
  · simp only [hc,if_true]
    by_cases hblank : trim line = []
    · simp [Parser.apply,Parser.continuation,hblank,parseEntry,words]
    · exact if_neg hblank
  simp only [hc,Bool.false_eq_true,if_false]
  cases splitColon line with
  | none => rfl
  | some kv => rfl

theorem Parser.field_sha256 (p : Parser) (key value : List Char) :
    (p.field key value).out.sha256 = p.out.sha256 := by
  unfold Parser.field
  cases Key.ofChars key with
  | field g => cases g <;> rfl
  | sha256 | otherDigest | unknown => rfl

theorem Parser.field_inSha256 (p : Parser) (hp : p.inSha256 = none) (key value : List Char) :
    (p.field key value).inSha256 = some true ↔ Key.ofChars key = .sha256 := by
  unfold Parser.field
  cases Key.ofChars key <;> simp [hp]

/-- The entries of continuation lines that stand under the section header; `under`
says whether the text before the first line ends in that section. -/
def entriesUnder (under : Bool) : List Meaning → List ReleaseEntry
  | [] => []
  | .entry e :: ms => (if under then e.toList else []) ++ entriesUnder under ms
  | .field key _ :: ms => entriesUnder (Key.ofChars key = .sha256) ms
  | .other :: ms => entriesUnder false ms

theorem foldl_apply_sha256 (p : Parser) (ms : List Meaning) (hp : p.out.sha256.length ≤ maxReleaseEntries) :
    (ms.foldl Parser.apply p).out.sha256 =
      (p.out.sha256 ++ entriesUnder (p.inSha256 = some true) ms).take maxReleaseEntries := by
  induction ms generalizing p with
  | nil => simp [entriesUnder,take_of_length_le hp]
  | cons m ms ih =>
    cases m with
    | other => simpa [Parser.apply,entriesUnder] using ih { p with inSha256 := none } hp
    | field key value =>
      have hlen : (Parser.field { p with inSha256 := none } key value).out.sha256.length ≤
          maxReleaseEntries := by simpa [field_sha256] using hp
      have hsec := field_inSha256 { p with inSha256 := none } rfl key value
      simpa [Parser.apply,entriesUnder,field_sha256,hsec] using ih _ hlen
    | entry e =>
      simp only [foldl_cons,Parser.apply,entriesUnder]
      by_cases hsec : p.inSha256 = some true
      · by_cases hfull : p.out.sha256.length < maxReleaseEntries
        · cases e with
          | none => simpa [hsec,hfull] using ih p hp
          | some e =>
            have hlen : (p.out.sha256 ++ [e]).length ≤ maxReleaseEntries := by
              simp
              omega
            simpa [hsec,hfull] using
              ih { p with out := { p.out with sha256 := p.out.sha256 ++ [e] } } hlen
        · have heq : p.out.sha256.length = maxReleaseEntries := by omega
          have htake : ∀ l : List ReleaseEntry,
              (p.out.sha256 ++ l).take maxReleaseEntries = p.out.sha256 := by
            intro l
            rw [← heq]
            simp
          simpa [hfull,htake] using ih p hp
      · simpa [hsec] using ih p hp

def lineMeanings (lines : List (List UInt8)) : List Meaning :=
  lines.map (fun raw => meaning (decodeLine raw))

theorem parseLines_eq (lines : List (List UInt8)) :
    parseLines lines = ((lineMeanings lines).foldl Parser.apply {}).out := by
  simp [parseLines,lineMeanings,foldl_map,line_eq_apply]

def HexDigit (c : Char) : Prop := '0' ≤ c ∧ c ≤ '9' ∨ 'a' ≤ c ∧ c ≤ 'f' ∨ 'A' ≤ c ∧ c ≤ 'F'

theorem hexBytes_isSome {s : List Char} (h : s.length%2 = 0) :
    (hexBytes s).isSome = true ↔ ∀ c ∈ s, HexDigit c := by
  have hnibble : ∀ c, HexDigit c ↔ ∃ n, hexNibble c = some n := by
    intro c
    unfold hexNibble HexDigit
    split_ifs <;> simp [*]
  fun_induction hexBytes s with
  | case1 => simp
  | case2 => cases h
  | case3 a b rest ih =>
    simp only [length_cons] at h
    have hrest := ih (by omega)
    simp only [Option.isSome_iff_exists,Option.bind_eq_bind,Option.bind_eq_some_iff] at hrest ⊢
    simp only [forall_mem_cons,hnibble] at hrest ⊢
    simp [← hrest]

/-- The line is a continuation with a digest, a size and a path as its first words. -/
def Holds (line : List Char) (e : ReleaseEntry) : Prop :=
  isContinuation line = true ∧ ∃ hash size rest, words (trim line) = hash :: size :: e.path :: rest ∧
    hash.length = 64 ∧ (∀ c ∈ hash, HexDigit c) ∧ e.sha256 = (hexBytes hash).getD [] ∧
    parseUnsigned 0x10000000000000000 size = some e.size

/-- The last of the lines that is not a continuation has the key `SHA256`. -/
def UnderSha256 (above : List (List Char)) : Prop :=
  ∃ line value, above.reverse.find? (!isContinuation ·) = some line ∧
    splitColon line = some ("SHA256".toList,value)

def Listed (lines : List (List Char)) (i : Nat) (e : ReleaseEntry) : Prop :=
  ∃ line, lines[i]? = some line ∧ Holds line e ∧ UnderSha256 (lines.take i)

variable {under : Bool} {above : List (List Char)} {line : List Char} {e : ReleaseEntry}

theorem holds_iff : Holds line e ↔ isContinuation line = true ∧ parseEntry (trim line) = some e := by
  have hhex : ∀ hash bs, hex32 hash = some bs ↔
      hash.length = 64 ∧ (∀ c ∈ hash, HexDigit c) ∧ bs = (hexBytes hash).getD [] := by
    intro hash bs
    rw [hex32]
    split
    · rename_i hlen
      rw [← hexBytes_isSome (by omega)]
      cases hexBytes hash <;> simp [hlen,eq_comm]
    · simp [*]
  refine and_congr_right fun _ => ⟨?_,fun h => ?_⟩
  · rintro ⟨hash,size,rest,hwords,hlen,hall,hbytes,hsize⟩
    rw [parseEntry,hwords]
    simp [(hhex hash _).2 ⟨hlen,hall,hbytes⟩,hsize]
  · unfold parseEntry at h
    split at h
    · rename_i hash size path rest hwords
      simp only [Option.bind_eq_bind,Option.bind_eq_some_iff,hhex,Option.some.injEq] at h
      obtain ⟨bs,⟨hlen,hall,rfl⟩,n,hsize,rfl⟩ := h
      exact ⟨hash,size,rest,hwords,hlen,hall,rfl,hsize⟩
    · cases h

theorem ofChars_sha256 (key : List Char) : Key.ofChars key = .sha256 ↔ key = "SHA256".toList := by
  unfold Key.ofChars
  split_ifs with h <;> simpa using h

def entryOf (under : Bool) (line : List Char) : Option ReleaseEntry :=
  if under && isContinuation line then parseEntry (trim line) else none

section
variable (hunder : under = true ↔ UnderSha256 above)
include hunder

theorem entriesUnder_cons (line : List Char) (ms : List Meaning) : ∃ under' : Bool,
    (under' = true ↔ UnderSha256 (above ++ [line])) ∧
      entriesUnder under (meaning line :: ms) = (entryOf under line).toList ++ entriesUnder under' ms := by
  unfold meaning entryOf UnderSha256
  rw [reverse_append,reverse_singleton,singleton_append,find?_cons]
  by_cases hline : isContinuation line
  · refine ⟨under,by simpa [hline,UnderSha256] using hunder,?_⟩
    cases under <;> simp [hline,entriesUnder]
  cases hcolon : splitColon line with
  | none => exact ⟨false,by simp [hline,hcolon],by simp [hline,entriesUnder]⟩
  | some kv =>
    refine ⟨Key.ofChars kv.1 = .sha256,?_,by simp [hline,entriesUnder]⟩
    simp [hline,hcolon,ofChars_sha256,Prod.ext_iff]

theorem entriesUnder_listed (below : List (List Char)) :
    ∃ found : List (Nat × ReleaseEntry), found.Pairwise (·.1 < ·.1) ∧
      (∀ i e, (i,e) ∈ found ↔ above.length ≤ i ∧ Listed (above ++ below) i e) ∧
      entriesUnder under (below.map meaning) = found.map (·.2) := by
  induction below generalizing under above with
  | nil => exact ⟨[],.nil,fun i e => by simp +contextual [Listed],rfl⟩
  | cons line below ih =>
    obtain ⟨under',hunder',hcons⟩ := entriesUnder_cons hunder line (below.map meaning)
    obtain ⟨found,hsorted,hmem,heq⟩ := ih hunder'
    have hhere : ∀ e, Listed (above ++ line :: below) above.length e ↔ entryOf under line = some e := by
      intro e
      simp [Listed,entryOf,holds_iff,← hunder,and_comm,and_assoc]
    have hsplit : ∀ i e, above.length ≤ i ∧ Listed (above ++ line :: below) i e ↔
        i = above.length ∧ Listed (above ++ line :: below) above.length e ∨ (i,e) ∈ found := by
      intro i e
      rw [hmem,append_assoc,singleton_append,length_append,length_singleton,
        Nat.le_iff_lt_or_eq,or_and_right,or_comm]
      exact or_congr ⟨fun h => ⟨h.1.symm,h.1 ▸ h.2⟩,fun h => ⟨h.1.symm,h.1 ▸ h.2⟩⟩ Iff.rfl
    rw [map_cons,hcons,heq]
    simp only [hsplit,hhere]
    cases entryOf under line with
    | none => exact ⟨found,hsorted,by simp,rfl⟩
    | some first =>
      refine ⟨(above.length,first) :: found,pairwise_cons.2 ⟨fun d hd => ?_,hsorted⟩,by simp [eq_comm],rfl⟩
      exact lt_of_lt_of_le (by simp) ((hmem d.1 d.2).1 hd).1

end

/-- In the order of the lines, up to the limit; what stands under any other line is no entry. -/
theorem release_entries (text : List UInt8) :
    ∃ found : List (Nat × ReleaseEntry), found.Pairwise (·.1 < ·.1) ∧
      (∀ i e, (i,e) ∈ found ↔ Listed (((text.take maxReleaseBytes).splitOn 10).map decodeLine) i e) ∧
      (parseRelease text).sha256 = (found.map (·.2)).take maxReleaseEntries := by
  have hnone : false = true ↔ UnderSha256 [] := by simp [UnderSha256]
  obtain ⟨found,hsorted,hmem,heq⟩ :=
    entriesUnder_listed hnone (((text.take maxReleaseBytes).splitOn 10).map decodeLine)
  refine ⟨found,hsorted,by simpa using hmem,?_⟩
  have hsha := foldl_apply_sha256 {} (lineMeanings ((text.take maxReleaseBytes).splitOn 10)) (Nat.zero_le _)
  rw [parseRelease,parseLines_eq,hsha,← heq,lineMeanings,map_map]
  rfl

end PaghOS.Apt
