import PaghOS.Net.Fragment
import PaghOS.Lib.Stream
import Mathlib.Data.Nat.Bitwise

/-!
The fragments of a datagram: consecutive non-empty pieces of its payload, each
sent with its offset and the mark whether more follow.
-/

namespace PaghOS.Net
open List

open PaghOS.Stream

inductive Cuts (payload : List UInt8) : Nat → List Chunk → Prop where
  | done : Cuts payload payload.length []
  | cut {off : Nat} {data : List UInt8} {rest : List Chunk} (hne : data ≠ [])
      (hpiece : Piece payload off data) (hrest : Cuts payload (off+data.length) rest) :
      Cuts payload off (⟨off,data⟩ :: rest)

namespace Cuts

variable {payload : List UInt8} {off : Nat} {cs : List Chunk}

section
variable (h : Cuts payload off cs)
include h

theorem piece {c : Chunk} (hc : c ∈ cs) :
    off ≤ c.offset ∧ c.data ≠ [] ∧ Piece payload c.offset c.data := by
  induction h with
  | done => simp at hc
  | @cut off data rest hne hpiece hrest ih =>
    rcases mem_cons.mp hc with rfl | hc
    · exact ⟨le_rfl,hne,hpiece⟩
    · obtain ⟨hle,hrest⟩ := ih hc
      exact ⟨by omega,hrest⟩

theorem ordered : cs.Pairwise (fun c c' => c.offset+c.data.length ≤ c'.offset) := by
  induction h with
  | done => exact List.Pairwise.nil
  | @cut off data rest hne hpiece hrest ih => exact ih.cons (fun c hc => (hrest.piece hc).1)

theorem offset_lt : cs.Pairwise (fun c c' => c.offset < c'.offset) := by
  refine h.ordered.imp_of_mem ?_
  intro c c' hc _ hle
  have hpos := length_pos_iff.mpr (h.piece hc).2.1
  omega

theorem contiguous : Net.contiguous off (cs.map (fun c => (c.offset,c.data))) = some payload.length := by
  induction h with
  | done => rfl
  | cut hne hpiece hrest ih => simpa [Net.contiguous] using ih

theorem flatten : cs.flatMap (·.data) = payload.drop off := by
  induction h with
  | done => simp
  | @cut off data rest hne hpiece hrest ih =>
    rw [flatMap_cons,ih]
    obtain ⟨hle,heq⟩ := hpiece
    have hsplit := take_append_drop data.length (payload.drop off)
    rw [← heq,drop_drop] at hsplit
    exact hsplit

theorem le_length : off ≤ payload.length := by
  cases h with
  | done => exact le_rfl
  | cut hne hpiece hrest =>
    have := hpiece.1
    omega

theorem nil_iff : cs = [] ↔ off = payload.length := by
  induction h with
  | done => simp
  | @cut off data rest hne hpiece hrest ih =>
    have hpos := length_pos_iff.mpr hne
    have := hpiece.1
    simp only [reduceCtorEq,false_iff]
    omega

theorem more_iff {i : Nat} {c : Chunk} (hc : cs[i]? = some c) :
    i+1 < cs.length ↔ c.offset+c.data.length < payload.length := by
  induction h generalizing i with
  | done => simp at hc
  | @cut off data rest hne hpiece hrest ih =>
    cases i with
    | zero =>
      obtain rfl := Option.some.inj hc
      have hnil := hrest.nil_iff
      have hle := hrest.le_length
      have hpos : rest ≠ [] ↔ 0 < rest.length := length_pos_iff.symm
      have hmore : 0 < rest.length ↔ off+data.length ≠ payload.length := by
        rw [← hpos,Ne,hnil]
      simp only [length_cons]
      omega
    | succ i =>
      have hi := ih (i := i) (by simpa using hc)
      simpa using hi

theorem ends (hne : cs ≠ []) : ∃ c ∈ cs, c.offset+c.data.length = payload.length := by
  have hpos := length_pos_iff.mpr hne
  have hget : cs[cs.length-1]? = some (cs.getLast hne) := by
    rw [← List.getLast?_eq_getElem?,List.getLast?_eq_some_getLast hne]
  have hmore := h.more_iff hget
  have hle := (h.piece (getLast_mem hne)).2.2.1
  exact ⟨_,getLast_mem hne,by omega⟩

end

theorem alone (h : Cuts payload 0 cs) {c : Chunk} (hc : c ∈ cs) (hdata : c.data = payload) : cs = [c] := by
  obtain ⟨pre,post,rfl⟩ := append_of_mem hc
  have hle := (h.piece hc).2.2.1
  rw [hdata] at hle
  obtain ⟨-,hpost,hcross⟩ := pairwise_append.mp h.ordered
  have hpre : pre = [] := by
    apply eq_nil_iff_forall_not_mem.mpr
    intro c' hc'
    have hpos := length_pos_iff.mpr (h.piece (mem_append_left _ hc')).2.1
    have hbefore := hcross c' hc' c (by simp)
    omega
  have hnone : post = [] := by
    apply eq_nil_iff_forall_not_mem.mpr
    intro c' hc'
    have hin : c' ∈ pre ++ c :: post := mem_append_right _ (mem_cons_of_mem _ hc')
    have hpos := length_pos_iff.mpr (h.piece hin).2.1
    have hend := (h.piece hin).2.2.1
    have hbehind := (pairwise_cons.mp hpost).1 c' hc'
    rw [hdata] at hbehind
    omega
  rw [hpre,hnone,nil_append]

end Cuts

theorem chunkLoop_cuts {payload : List UInt8} {unit : Nat} (hunit : 0 < unit) (fuel : Nat) {off : Nat}
    (hoff : off ≤ payload.length) (hfuel : payload.length ≤ off+fuel) :
    Cuts payload off (chunkLoop payload unit fuel off) := by
  induction fuel generalizing off with
  | zero =>
    obtain rfl : off = payload.length := by omega
    exact .done
  | succ fuel ih =>
    unfold chunkLoop
    split
    · rename_i hlt
      have hlen : ((payload.drop off).take (min (off+unit) payload.length-off)).length =
          min (off+unit) payload.length-off := by
        rw [length_take,length_drop]
        omega
      apply Cuts.cut
      · apply ne_nil_of_length_pos
        omega
      · exact ⟨by omega,by rw [hlen]⟩
      · rw [hlen,show off+(min (off+unit) payload.length-off) = min (off+unit) payload.length by omega]
        exact ih (by omega) (by omega)
    · obtain rfl : off = payload.length := by omega
      exact .done

theorem chunkLoop_aligned {payload : List UInt8} {unit : Nat} (fuel : Nat) {off : Nat}
    (hoff : unit ∣ off) {c : Chunk} (hc : c ∈ chunkLoop payload unit fuel off) :
    unit ∣ c.offset ∧ c.data.length ≤ unit := by
  induction fuel generalizing off with
  | zero => simp [chunkLoop] at hc
  | succ fuel ih =>
    unfold chunkLoop at hc
    split at hc
    · rcases mem_cons.mp hc with rfl | hc
      · refine ⟨hoff,?_⟩
        rw [length_take]
        omega
      by_cases hfull : off+unit ≤ payload.length
      · rw [Nat.min_eq_left hfull] at hc
        exact ih (Nat.dvd_add hoff (Nat.dvd_refl _)) hc
      -- The payload ends inside this chunk, so it is the last.
      rw [Nat.min_eq_right (by omega)] at hc
      cases fuel with
      | zero | succ fuel => simp [chunkLoop] at hc
    · simp at hc

section Chunks

variable {payload : List UInt8} {maxPayload : Nat}

theorem fragmentChunks_small (h : payload.length ≤ maxPayload) :
    fragmentChunks payload maxPayload = [⟨0,payload⟩] := by
  simp [fragmentChunks,h]

theorem fragmentChunks_cuts (hmax : fragUnit ≤ maxPayload) (h : maxPayload < payload.length) :
    Cuts payload 0 (fragmentChunks payload maxPayload) := by
  have hnot : ¬ payload.length ≤ maxPayload := by omega
  simp only [fragUnit] at hmax
  simp only [fragmentChunks,if_neg hnot]
  exact chunkLoop_cuts (by simp only [fragUnit]; omega) _ (by omega) (by omega)

theorem fragmentChunks_aligned (h : maxPayload < payload.length) {c : Chunk}
    (hc : c ∈ fragmentChunks payload maxPayload) : fragUnit ∣ c.offset ∧ c.data.length ≤ maxPayload := by
  have hnot : ¬ payload.length ≤ maxPayload := by omega
  simp only [fragmentChunks,if_neg hnot] at hc
  obtain ⟨hdvd,hlen⟩ := chunkLoop_aligned _ (Nat.dvd_zero _) hc
  have hunit : fragUnit ∣ maxPayload-maxPayload%fragUnit := Nat.dvd_sub_mod _
  exact ⟨Nat.dvd_trans hunit hdvd,by omega⟩

theorem fragmentChunks_partial (h : maxPayload < payload.length) {c : Chunk}
    (hc : c ∈ fragmentChunks payload maxPayload) :
    c.offset+c.data.length < payload.length ∨ c.offset ≠ 0 := by
  have := (fragmentChunks_aligned h hc).2
  omega

end Chunks

def Datagram.packet (d : Datagram) (c : Chunk) : List UInt8 :=
  ipv4Build d.src d.dst d.proto d.id.toNat
    (flagsFrag c.offset (c.offset+c.data.length < d.payload.length)) 64 c.data

theorem Datagram.packets_eq {maxPayload : Nat} (hmax : fragUnit ≤ maxPayload) (d : Datagram) :
    d.packets maxPayload = (fragmentChunks d.payload maxPayload).map d.packet := by
  have hfst := zipIdx_map_fst 0 (fragmentChunks d.payload maxPayload)
  rw [← hfst,map_map,Datagram.packets]
  apply map_congr_left
  rintro ⟨c,i⟩ hc
  have hget : (fragmentChunks d.payload maxPayload)[i]? = some c := by
    simpa [mem_zipIdx_iff_getElem?] using hc
  unfold Datagram.packet
  by_cases hsmall : d.payload.length ≤ maxPayload
  · rw [fragmentChunks_small hsmall] at hget ⊢
    cases i with
    | zero =>
      obtain rfl := Option.some.inj hget
      simp
    | succ i => simp at hget
  · have hmore := (fragmentChunks_cuts hmax (by omega)).more_iff hget
    simp [decide_eq_decide.mpr hmore]

theorem flagsFrag_spec {offset : Nat} (more : Bool) (haligned : fragUnit ∣ offset)
    (hoffset : offset < 65536) : flagsFrag offset more < 65536 ∧
    (flagsFrag offset more &&& ipv4OffsetMask)*fragUnit = offset ∧
    (decide (flagsFrag offset more &&& ipv4FlagMf ≠ 0)) = more := by
  obtain ⟨k,rfl⟩ := haligned
  have hk : k < 8192 := by
    simp only [fragUnit] at hoffset
    omega
  have hdiv : fragUnit*k/fragUnit%65536 = k := by
    simp only [fragUnit]
    omega
  have hmask : ∀ n : Nat, n &&& ipv4OffsetMask = n%8192 := fun n => Nat.and_two_pow_sub_one_eq_mod n 13
  have hbit : ∀ n : Nat, n &&& ipv4FlagMf = 8192*(n/8192%2) := by
    intro n
    have h := Nat.and_two_pow n 13
    rw [Nat.testBit_eq_decide_div_mod_eq] at h
    rcases Nat.mod_two_eq_zero_or_one (n/8192) with hn | hn
    · simpa [hn,ipv4FlagMf] using h
    · simpa [hn,ipv4FlagMf] using h
  have hor : k ||| ipv4FlagMf = 8192+k := by
    have h := Nat.two_pow_add_eq_or_of_lt (i := 13) hk 1
    rw [Nat.or_comm]
    simpa [ipv4FlagMf] using h.symm
  have hflags : flagsFrag (fragUnit*k) more = if more then 8192+k else k := by
    unfold flagsFrag
    rw [hdiv,hmask,Nat.mod_eq_of_lt hk]
    cases more with
    | false => simp
    | true => simpa using hor
  rw [hflags,hmask,hbit]
  simp only [fragUnit]
  cases more with
  | false =>
    simp only [Bool.false_eq_true,if_false,decide_eq_false_iff_not]
    omega
  | true =>
    simp only [if_true,decide_eq_true_eq]
    omega

def Datagram.key (d : Datagram) : FragKey := ⟨.v4 d.src,.v4 d.dst,d.id.toNat,d.proto⟩

def Datagram.delivery (d : Datagram) : Delivery := ⟨d.src,d.dst,d.proto,d.payload⟩

def maxDatagram : Nat := 65515

section Input

variable {d : Datagram} {maxPayload : Nat} (r : Reassembler) (now : Nat)
variable {c : Chunk}

theorem inputV4_whole (hsize : d.payload.length ≤ maxDatagram) :
    r.inputV4 (d.packet ⟨0,d.payload⟩) now = (r,some d.delivery) := by
  obtain ⟨hlt,hoff,hmf⟩ := flagsFrag_spec false (Nat.dvd_zero fragUnit) (by decide)
  have hid := d.id.toNat_lt
  have hlen : ipv4HdrMin+d.payload.length < 65536 := by
    simp only [maxDatagram] at hsize
    simp only [ipv4HdrMin]
    omega
  have hparse := ipv4Parse_build d.src d.dst d.proto 64 hid hlt hlen
  have hmore : decide (0+d.payload.length < d.payload.length) = false := by simp
  unfold Reassembler.inputV4 Datagram.packet
  simp only [hmore,hparse,hoff,hmf]
  simp [Datagram.delivery]

variable (hlarge : maxPayload < d.payload.length) (hmax : fragUnit ≤ maxPayload)
  (hsize : d.payload.length ≤ maxDatagram)
include hlarge hmax hsize

theorem parse_packet (hc : c ∈ fragmentChunks d.payload maxPayload) :
    ∃ h, ipv4Parse (d.packet c) = some (h,c.data) ∧
      h.src = d.src ∧ h.dst = d.dst ∧ h.proto = d.proto ∧ h.ident = d.id.toNat ∧
      (h.flagsFrag &&& ipv4OffsetMask)*fragUnit = c.offset ∧ decide (h.flagsFrag &&& ipv4FlagMf ≠ 0) =
        decide (c.offset+c.data.length < d.payload.length) := by
  have hpiece := ((fragmentChunks_cuts hmax hlarge).piece hc).2.2.1
  simp only [maxDatagram] at hsize
  obtain ⟨hlt,hoff,hmf⟩ := flagsFrag_spec (decide (c.offset+c.data.length < d.payload.length))
    (fragmentChunks_aligned hlarge hc).1 (by omega)
  have hid := d.id.toNat_lt
  have hlen : ipv4HdrMin+c.data.length < 65536 := by
    simp only [ipv4HdrMin]
    omega
  exact ⟨_,ipv4Parse_build d.src d.dst d.proto 64 hid hlt hlen,rfl,rfl,rfl,rfl,hoff,hmf⟩

theorem inputV4_fragment (hc : c ∈ fragmentChunks d.payload maxPayload) :
    r.inputV4 (d.packet c) now =
      ((r.feed now d.key c.offset (c.offset+c.data.length < d.payload.length) c.data).1,
       (r.feed now d.key c.offset (c.offset+c.data.length < d.payload.length) c.data).2.map
         (fun full => ⟨d.src,d.dst,d.proto,full⟩)) := by
  obtain ⟨h,hparse,hsrc,hdst,hproto,hident,hoff,hmf⟩ := parse_packet hlarge hmax hsize hc
  have hcond : decide (c.offset+c.data.length < d.payload.length) = true ∨ c.offset ≠ 0 := by
    simpa using fragmentChunks_partial hlarge hc
  unfold Reassembler.inputV4
  simp only [hparse,hoff,hmf,if_pos hcond,Datagram.key,hsrc,hdst,hproto,hident]

theorem packet_inj {c' : Chunk} (hc : c ∈ fragmentChunks d.payload maxPayload)
    (hc' : c' ∈ fragmentChunks d.payload maxPayload) (heq : d.packet c = d.packet c') : c = c' := by
  obtain ⟨h,hparse,-,-,-,-,hoff,-⟩ := parse_packet hlarge hmax hsize hc
  obtain ⟨h',hparse',-,-,-,-,hoff',-⟩ := parse_packet hlarge hmax hsize hc'
  rw [heq,hparse'] at hparse
  obtain ⟨hh,hdata⟩ := Prod.mk.inj (Option.some.inj hparse)
  rw [hh,hoff] at hoff'
  cases c
  cases c'
  simp_all

end Input

end PaghOS.Net
