import Mathlib.Data.List.Nodup
import PaghOS.Mm.FramePool

/-!
Which frames the allocator can hand out. After `init` the free bits are the usable
frames above 1 MB that do not hold the bitmap; a free call may add to them the
frame of any address it does not recognise.
-/

namespace PaghOS.Frames
open Loop List WordBits
open Option (bind_eq_bind bind_eq_some_iff bind_some map_eq_some_iff some.injEq some.inj)
open WordBits (bit)

/-! ### Arithmetic of frames -/

variable {a b : Nat}
variable {c : Nat} {addrs : List Nat} {r : FrameRun}
variable {addr count start i : Nat}

theorem addU64_eq_some (h : addU64 a b = some c) : a+b = c ∧ c ≤ u64Max := by
  unfold addU64 at h
  split at h
  · cases h
    exact ⟨rfl,‹_›⟩
  · cases h

theorem usub_eq_some (h : usub a b = some c) : b ≤ a ∧ c = a-b := by
  unfold usub at h
  split at h
  · cases h
    exact ⟨‹_›,rfl⟩
  · cases h

theorem alignDown_le (a : Nat) : alignDown a ≤ a := Nat.div_mul_le_self a frameSize

theorem alignDown_aligned (a : Nat) : alignDown a%frameSize = 0 := Nat.mul_mod_left _ _

theorem alignDown_of_aligned (h : a%frameSize = 0) : alignDown a = a :=
  Nat.div_mul_cancel (Nat.dvd_of_mod_eq_zero h)

theorem alignUp_eq_some (h : alignUp a = some b) : a ≤ b ∧ b%frameSize = 0 ∧ (a%frameSize = 0 → b = a) := by
  simp only [alignUp,bind_eq_bind,bind_eq_some_iff,some.injEq] at h
  obtain ⟨c,hc,rfl⟩ := h
  obtain ⟨rfl,-⟩ := addU64_eq_some hc
  refine ⟨?_,alignDown_aligned _,?_⟩ <;> simp only [alignDown,frameSize] <;> omega

theorem mem_framesBetween {stop : Nat} (hstart : start%frameSize = 0) :
    a ∈ framesBetween start stop ↔ a%frameSize = 0 ∧ start ≤ a ∧ a < stop := by
  simp only [framesBetween,mem_map,mem_range,frameSize] at hstart ⊢
  constructor
  · rintro ⟨k,hk,rfl⟩
    omega
  · rintro ⟨ha,hlo,hhi⟩
    exact ⟨(a-start)/4096,by omega,by omega⟩

theorem framesBetween_nodup (start stop : Nat) : (framesBetween start stop).Nodup := by
  refine List.Nodup.map ?_ nodup_range
  intro j k h
  simp only [frameSize] at h
  omega

/-! ### The layout `init` chooses -/

def Pmm.shape (p : Pmm) : Nat × Nat × Nat × Nat × Nat × List (Nat × Nat) × Nat :=
  (p.totalFrames,p.baseAddr,p.topAddr,p.bitmapPhys,p.bitmapBytes,p.kernelRanges,p.bitmap.length)

def Pmm.index (p : Pmm) (addr : Nat) : Nat := (addr-p.baseAddr)/frameSize

/-- The tracked range is a whole number of frames, with a bit for each. -/
structure Pmm.Ranged (p : Pmm) : Prop where
  base : p.baseAddr%frameSize = 0
  top : p.topAddr = p.baseAddr+p.totalFrames*frameSize
  bits : p.totalFrames ≤ 64*p.bitmap.length

@[simp] theorem Pmm.shape_freed (p : Pmm) (idx : Nat) : (p.freed idx).shape = p.shape := by
  simp [Pmm.shape,Pmm.freed]

variable {p q : Pmm}

theorem Pmm.Ranged.of_shape (hp : p.Ranged) (h : q.shape = p.shape) : q.Ranged := by
  simp only [Pmm.shape,Prod.mk.injEq] at h
  obtain ⟨ht,hb,htop,-,-,-,hlen⟩ := h
  exact ⟨hb ▸ hp.base,by rw [htop,hb,ht]; exact hp.top,by rw [ht,hlen]; exact hp.bits⟩

theorem Pmm.index_of_shape (h : q.shape = p.shape) : q.index = p.index := by
  simp only [Pmm.shape,Prod.mk.injEq] at h
  funext addr
  rw [Pmm.index,h.2.1,Pmm.index]

theorem Pmm.Ranged.index_lt (hp : p.Ranged) (hlo : p.baseAddr ≤ addr)
    (hhi : addr < p.topAddr) : p.index addr < p.totalFrames := by
  have := hp.top
  simp only [Pmm.index,frameSize] at *
  omega

theorem Pmm.Ranged.addr_index (hp : p.Ranged) (hlo : p.baseAddr ≤ addr)
    (ha : addr%frameSize = 0) : p.baseAddr+p.index addr*frameSize = addr := by
  have := hp.base
  simp only [Pmm.index,frameSize] at *
  omega

theorem Pmm.index_addr (p : Pmm) (i : Nat) : p.index (p.baseAddr+i*frameSize) = i := by
  simp [Pmm.index,frameSize]

/-- A frame `init` marks free if a usable region holds it. -/
def Pmm.Eligible (p : Pmm) (addr : Nat) : Prop :=
  lowReserved ≤ addr ∧ ¬ (p.bitmapPhys ≤ addr ∧ addr < p.bitmapPhys+p.bitmapBytes)

/-- The layout is that of `init`, and the count is that of the bits. -/
structure Counted (p₀ p : Pmm) : Prop where
  shape : p.shape = p₀.shape
  count : p.freeCount = WordBits.count p.bitmap

variable {p₀ : Pmm} {X Y : Nat → Prop}

theorem Counted.index_lt (h : Counted p₀ p) (hp : p₀.Ranged) (hlo : p₀.baseAddr ≤ addr)
    (hhi : addr < p₀.topAddr) : p₀.index addr < 64*p.bitmap.length := by
  have hlen : p.bitmap.length = p₀.bitmap.length := congrArg (·.2.2.2.2.2.2) h.shape
  rw [hlen]
  exact lt_of_lt_of_le (hp.index_lt hlo hhi) hp.bits

/-- The free bits become those of `X` as well. -/
structure Frees (p₀ p q : Pmm) (X : Nat → Prop) : Prop where
  counted : Counted p₀ q
  bits : ∀ j, bit q.bitmap j = true ↔ bit p.bitmap j = true ∨ X j

theorem Frees.nothing (h : Counted p₀ p) (hX : ∀ j, ¬ X j) : Frees p₀ p p X :=
  ⟨h,fun j => (or_iff_left (hX j)).symm⟩

theorem Frees.congr (h : Frees p₀ p q X) (hX : ∀ j, X j ↔ Y j) : Frees p₀ p q Y :=
  ⟨h.counted,fun j => (h.bits j).trans (or_congr_right (hX j))⟩

theorem Frees.trans {q' : Pmm} (h : Frees p₀ p q X) (h' : Frees p₀ q q' Y) :
    Frees p₀ p q' fun j => X j ∨ Y j :=
  ⟨h'.counted,fun j => by rw [h'.bits,h.bits,or_assoc]⟩

theorem freed_frees (h : Counted p₀ p) (hi : i < 64*p.bitmap.length)
    (hclear : bit p.bitmap i = false) : Frees p₀ p (p.freed i) (· = i) where
  counted := ⟨(p.shape_freed i).trans h.shape,by simp [Pmm.freed,count_set hi hclear,h.count]⟩
  bits := fun j => by simp [Pmm.freed,bit_set hi,or_comm]

theorem releaseFrame_frees (h : releaseFrame p addr = some q) (hc : Counted p₀ p) (hp : p₀.Ranged)
    (hlo : p₀.baseAddr ≤ addr) (hhi : addr < p₀.topAddr) (hclear : bit p.bitmap (p₀.index addr) = false) :
    Frees p₀ p q fun j => j = p₀.index addr ∧ p₀.Eligible addr := by
  have hlt := hc.index_lt hp hlo hhi
  have hshape := hc.shape
  simp only [Pmm.shape,Prod.mk.injEq] at hshape
  obtain ⟨-,hbase,-,hphys,hbytes,-⟩ := hshape
  unfold releaseFrame at h
  rw [hphys,hbytes,hbase,usub_of_le hlo] at h
  split at h
  · rename_i hlow
    cases h
    exact .nothing hc fun _ he => not_lt.mpr he.2.1 hlow
  rename_i hlow
  split at h
  · rename_i hbm
    cases h
    exact .nothing hc fun _ he => he.2.2 hbm
  rename_i hbm
  simp only [bind_eq_bind,bind_some] at h
  rw [if_pos (by simp only [Pmm.index] at hlt; omega)] at h
  cases h
  exact (freed_frees hc hlt hclear).congr fun _ => (and_iff_left ⟨not_lt.mp hlow,hbm⟩).symm

theorem releaseFrames_frees (h : addrs.foldlM releaseFrame p = some q) (hc : Counted p₀ p)
    (hp : p₀.Ranged) (hnodup : addrs.Nodup)
    (haddrs : ∀ a ∈ addrs, a%frameSize = 0 ∧ p₀.baseAddr ≤ a ∧ a < p₀.topAddr)
    (hclear : ∀ a ∈ addrs, bit p.bitmap (p₀.index a) = false) : Frees p₀ p q fun i =>
      p₀.baseAddr+i*frameSize ∈ addrs ∧ p₀.Eligible (p₀.baseAddr+i*frameSize) := by
  induction addrs generalizing p with
  | nil =>
    cases h
    exact .nothing hc (by simp)
  | cons a addrs ih =>
    simp only [foldlM_cons,bind_eq_bind,bind_eq_some_iff] at h
    obtain ⟨p',hstep,h⟩ := h
    obtain ⟨hnot,hnodup⟩ := nodup_cons.mp hnodup
    obtain ⟨⟨ha,hlo,hhi⟩,haddrs⟩ := forall_mem_cons.mp haddrs
    obtain ⟨hca,hclear⟩ := forall_mem_cons.mp hclear
    have hself : ∀ i, p₀.baseAddr+i*frameSize = a ↔ i = p₀.index a := by
      intro i
      constructor
      · rintro rfl
        exact (p₀.index_addr i).symm
      · rintro rfl
        exact hp.addr_index hlo ha
    have hfirst := releaseFrame_frees hstep hc hp hlo hhi hca
    have hclear' : ∀ b ∈ addrs, bit p'.bitmap (p₀.index b) = false := by
      intro b hb
      have hne : p₀.index b ≠ p₀.index a := by
        intro heq
        obtain ⟨hb',hblo,-⟩ := haddrs b hb
        have : b = a := (hp.addr_index hblo hb').symm.trans ((hself _).mpr heq)
        exact hnot (this ▸ hb)
      rw [Bool.eq_false_iff,ne_eq,hfirst.bits]
      simp [hclear b hb,hne]
    refine (hfirst.trans (ih h hfirst.counted hnodup haddrs hclear')).congr fun i => ?_
    rw [mem_cons,or_and_right,hself]
    exact or_congr_left (and_congr_right fun hi => by rw [(hself i).mpr hi])

def usableFrames (entries : List MemmapEntry) : List Nat :=
  (entries.filter (·.kind = .usable)).flatMap fun e => framesBetween e.base (e.base+e.length)

variable {entries : List MemmapEntry}

section
variable (haligned : ∀ e ∈ entries, e.base%frameSize = 0 ∧ e.length%frameSize = 0)
include haligned

theorem releaseEntries_eq
    (h : entries.foldlM releaseEntry p = some q) : (usableFrames entries).foldlM releaseFrame p = some q := by
  induction entries generalizing p with
  | nil => exact h
  | cons e entries ih =>
    obtain ⟨⟨hbase,hlen⟩,haligned⟩ := forall_mem_cons.mp haligned
    simp only [foldlM_cons,bind_eq_bind,bind_eq_some_iff] at h
    obtain ⟨p',hstep,h⟩ := h
    have hrest := ih haligned h
    unfold releaseEntry at hstep
    by_cases hk : e.kind = .usable
    · simp only [if_pos hk,bind_eq_bind,bind_eq_some_iff] at hstep
      obtain ⟨stop,hstop,start,hstart,hstep⟩ := hstep
      obtain ⟨rfl,-⟩ := addU64_eq_some hstop
      obtain rfl := (alignUp_eq_some hstart).2.2 hbase
      have hend : (e.base+e.length)%frameSize = 0 := by
        simp only [frameSize] at *
        omega
      rw [alignDown_of_aligned hend] at hstep
      simp only [usableFrames,filter_cons,hk,decide_true,if_true,flatMap_cons,foldlM_append,hstep]
      exact hrest
    · rw [if_neg hk] at hstep
      cases hstep
      simp only [usableFrames,filter_cons,hk,decide_false,Bool.false_eq_true,if_false]
      exact hrest

theorem mem_usableFrames :
    a ∈ usableFrames entries ↔ a%frameSize = 0 ∧ ∃ e ∈ entries, e.kind = .usable ∧ e.Holds a := by
  simp only [usableFrames,mem_flatMap,mem_filter,decide_eq_true_eq]
  constructor
  · rintro ⟨e,⟨he,hk⟩,ha⟩
    obtain ⟨ha,hlo,hhi⟩ := (mem_framesBetween (haligned e he).1).mp ha
    exact ⟨ha,e,he,hk,hlo,hhi⟩
  · rintro ⟨ha,e,he,hk,hlo,hhi⟩
    exact ⟨e,⟨he,hk⟩,(mem_framesBetween (haligned e he).1).mpr ⟨ha,hlo,hhi⟩⟩

omit haligned in
theorem BootMap.not_both (map : BootMap) {a b : MemmapEntry} (ha : a ∈ map.entries)
    (hb : b ∈ map.entries) (hne : a ≠ b) : ¬ (a.Holds addr ∧ b.Holds addr) := by
  have : Std.Symm fun a b : MemmapEntry => ∀ addr, ¬ (a.Holds addr ∧ b.Holds addr) :=
    ⟨fun _ _ h addr hboth => h addr hboth.symm⟩
  exact map.disjoint.forall ha hb hne addr

omit haligned in
theorem BootMap.usableFrames_nodup (map : BootMap) : (usableFrames map.entries).Nodup := by
  refine nodup_flatMap.mpr ⟨fun e _ => framesBetween_nodup _ _,?_⟩
  refine (map.disjoint.filter _).imp_of_mem ?_
  intro a b ha hb hdisj f hfa hfb
  obtain ⟨-,halo,hahi⟩ := (mem_framesBetween (map.aligned a (mem_of_mem_filter ha)).1).mp hfa
  obtain ⟨-,hblo,hbhi⟩ := (mem_framesBetween (map.aligned b (mem_of_mem_filter hb)).1).mp hfb
  exact hdisj f ⟨⟨halo,hahi⟩,hblo,hbhi⟩

omit haligned in
theorem survey_spec {s t : Survey} (h : entries.foldlM surveyEntry s = some t) :
    t.base ≤ s.base ∧ s.top ≤ t.top ∧
      ∀ e ∈ entries, e.kind = .usable → t.base ≤ e.base ∧ e.base+e.length ≤ t.top := by
  induction entries generalizing s with
  | nil =>
    cases h
    simp
  | cons e entries ih =>
    simp only [foldlM_cons,bind_eq_bind,bind_eq_some_iff] at h
    obtain ⟨s',hstep,h⟩ := h
    obtain ⟨hbase,htop,hall⟩ := ih h
    have hs : s'.base ≤ s.base ∧ s.top ≤ s'.top ∧
        (e.kind = .usable → s'.base ≤ e.base ∧ e.base+e.length ≤ s'.top) := by
      unfold surveyEntry at hstep
      by_cases hk : e.kind = .usable
      · simp only [if_pos hk,bind_eq_bind,bind_eq_some_iff,some.injEq] at hstep
        obtain ⟨top,hadd,total,-,rfl⟩ := hstep
        obtain ⟨rfl,-⟩ := addU64_eq_some hadd
        dsimp only
        refine ⟨?_,?_,fun _ => ⟨?_,?_⟩⟩ <;> split <;> omega
      · rw [if_neg hk] at hstep
        cases hstep
        exact ⟨le_rfl,le_rfl,fun h => absurd h hk⟩
    refine ⟨le_trans hbase hs.1,le_trans hs.2.1 htop,?_⟩
    refine forall_mem_cons.mpr ⟨fun hk => ?_,hall⟩
    exact ⟨le_trans hbase (hs.2.2 hk).1,le_trans (hs.2.2 hk).2 htop⟩

theorem placeBitmap_spec {bytes phys : Nat}
    (h : placeBitmap bytes entries = some phys) (hphys : phys ≠ 0) :
    phys%frameSize = 0 ∧ ∃ e ∈ entries, e.kind = .usable ∧ e.base ≤ phys ∧ phys+bytes ≤ e.base+e.length := by
  induction entries with
  | nil =>
    cases h
    exact absurd rfl hphys
  | cons e entries ih =>
    obtain ⟨⟨hbase,hlen⟩,haligned⟩ := forall_mem_cons.mp haligned
    have hlater : placeBitmap bytes entries = some phys → phys%frameSize = 0 ∧
        ∃ e' ∈ e :: entries, e'.kind = .usable ∧ e'.base ≤ phys ∧ phys+bytes ≤ e'.base+e'.length := by
      intro h
      obtain ⟨hp,e',he',hin⟩ := ih haligned h
      exact ⟨hp,e',mem_cons_of_mem _ he',hin⟩
    unfold placeBitmap at h
    by_cases hk : e.kind = .usable
    · simp only [if_pos hk,bind_eq_bind,bind_eq_some_iff] at h
      obtain ⟨stop,hstop,h⟩ := h
      obtain ⟨rfl,-⟩ := addU64_eq_some hstop
      split at h
      · rename_i hfits
        simp only [bind_eq_some_iff,some.injEq] at h
        obtain ⟨offset,hoffset,candidateEnd,hend,rfl⟩ := h
        obtain ⟨rfl,-⟩ := addU64_eq_some hoffset
        obtain ⟨rfl,-⟩ := addU64_eq_some hend
        have hcand : e.base ≤ alignDown (e.base+0x200000) := by
          simp only [alignDown,frameSize] at *
          omega
        split
        · exact ⟨alignDown_aligned _,e,mem_cons_self,hk,hcand,‹_›⟩
        · exact ⟨hbase,e,mem_cons_self,hk,le_rfl,by omega⟩
      · exact hlater h
    · rw [if_neg hk] at h
      exact hlater h

theorem captureKernelRanges_spec {room : Nat} {ranges : List (Nat × Nat)}
    (h : captureKernelRanges room entries = some ranges) :
    ranges = ((entries.filter (·.kind = .executableAndModules)).take room).map fun e =>
      (e.base,e.base+e.length) := by
  induction entries generalizing room ranges with
  | nil =>
    cases h
    simp
  | cons e entries ih =>
    obtain ⟨⟨hbase,hlen⟩,haligned⟩ := forall_mem_cons.mp haligned
    unfold captureKernelRanges at h
    by_cases hk : e.kind = .executableAndModules
    · rw [if_pos hk] at h
      cases room with
      | zero =>
        cases h
        simp
      | succ room =>
        simp only [bind_eq_bind,bind_eq_some_iff,some.injEq] at h
        obtain ⟨stop,hstop,stop',hstop',more,hmore,rfl⟩ := h
        obtain ⟨rfl,-⟩ := addU64_eq_some hstop
        have hend : (e.base+e.length)%frameSize = 0 := by
          simp only [frameSize] at *
          omega
        rw [(alignUp_eq_some hstop').2.2 hend,alignDown_of_aligned hbase,ih haligned hmore]
        simp [hk]
    · rw [if_neg hk] at h
      simpa [hk] using ih haligned h

end

theorem reserveFrames_eq (h : addrs.foldlM reserveBitmapFrame p = some q)
    (hclear : ∀ a ∈ addrs, bit p.bitmap (p.index a) = false) : q = p := by
  induction addrs with
  | nil =>
    cases h
    rfl
  | cons a addrs ih =>
    obtain ⟨ha,hclear⟩ := forall_mem_cons.mp hclear
    simp only [foldlM_cons,bind_eq_bind,bind_eq_some_iff] at h
    obtain ⟨p',hstep,h⟩ := h
    simp only [reserveBitmapFrame,bind_eq_bind,bind_eq_some_iff] at hstep
    obtain ⟨off,hoff,hstep⟩ := hstep
    obtain ⟨-,rfl⟩ := usub_eq_some hoff
    rw [if_neg (by simpa [Pmm.index] using fun _ => ha)] at hstep
    cases hstep
    exact ih h hclear

/-- What `init` has set up for a boot map. -/
structure Laid (map : BootMap) (p : Pmm) : Prop where
  ranged : p.Ranged
  usable : ∀ e ∈ map.entries, e.kind = .usable → p.baseAddr ≤ e.base ∧ e.base+e.length ≤ p.topAddr
  bitmap_aligned : p.bitmapPhys%frameSize = 0
  bitmap_usable : ∃ e ∈ map.entries, e.kind = .usable ∧ e.base ≤ p.bitmapPhys ∧
    p.bitmapPhys+p.bitmapBytes ≤ e.base+e.length
  kernel : p.kernelRanges =
    ((map.entries.filter (·.kind = .executableAndModules)).take maxKernelRanges).map fun e =>
      (e.base,e.base+e.length)
  count : p.freeCount = WordBits.count p.bitmap
  free : ∀ i, bit p.bitmap i = true ↔ p.Eligible (p.baseAddr+i*frameSize) ∧
    ∃ e ∈ map.entries, e.kind = .usable ∧ e.Holds (p.baseAddr+i*frameSize)

variable {map : BootMap}

theorem init_laid (h : init map.entries = some (some p)) : Laid map p := by
  simp only [init,bind_eq_bind,bind_eq_some_iff] at h
  obtain ⟨s,hsurvey,h⟩ := h
  split at h
  · simp at h
  simp only [bind_eq_some_iff] at h
  obtain ⟨top,htop,span,hspan,phys,hphys,h⟩ := h
  split at h
  · simp at h
  rename_i hne
  simp only [bind_eq_some_iff,some.injEq] at h
  obtain ⟨ranges,hranges,q,hq,p',hp',rfl⟩ := h
  obtain ⟨-,htop0,hall⟩ := survey_spec hsurvey
  obtain ⟨hle,rfl⟩ := usub_eq_some hspan
  obtain ⟨htopge,htopal,-⟩ := alignUp_eq_some htop
  obtain ⟨hphysal,hin⟩ := placeBitmap_spec map.aligned hphys hne
  set p₀ : Pmm := ⟨List.replicate (((top-alignDown s.base)/frameSize+63)/64) 0#64,
    (top-alignDown s.base)/frameSize,0,alignDown s.base,top,phys,
    ((top-alignDown s.base)/frameSize+63)/64*8,ranges⟩ with hp₀
  have hbaseal := alignDown_aligned s.base
  have hranged : p₀.Ranged := by
    refine ⟨hbaseal,?_,?_⟩
    · simp only [hp₀,frameSize] at *
      omega
    · simp only [hp₀,length_replicate]
      omega
  have husable : ∀ e ∈ map.entries, e.kind = .usable →
      p₀.baseAddr ≤ e.base ∧ e.base+e.length ≤ p₀.topAddr := by
    intro e he hk
    exact ⟨le_trans (alignDown_le _) (hall e he hk).1,le_trans (hall e he hk).2 htopge⟩
  have haddrs : ∀ a ∈ usableFrames map.entries,
      a%frameSize = 0 ∧ p₀.baseAddr ≤ a ∧ a < p₀.topAddr := by
    intro a ha
    obtain ⟨ha,e,he,hk,hlo,hhi⟩ := (mem_usableFrames map.aligned).mp ha
    exact ⟨ha,le_trans (husable e he hk).1 hlo,lt_of_lt_of_le hhi (husable e he hk).2⟩
  obtain ⟨⟨hshape,hcount⟩,hbits⟩ := releaseFrames_frees (releaseEntries_eq map.aligned hq)
    ⟨rfl,(count_zero _).symm⟩ hranged map.usableFrames_nodup haddrs (fun a _ => bit_zero _ _)
  have hfree : ∀ i, bit q.bitmap i = true ↔ p₀.Eligible (p₀.baseAddr+i*frameSize) ∧
      ∃ e ∈ map.entries, e.kind = .usable ∧ e.Holds (p₀.baseAddr+i*frameSize) := by
    intro i
    have hal : (p₀.baseAddr+i*frameSize)%frameSize = 0 := by
      rw [Nat.add_mul_mod_self_right]
      exact hranged.base
    rw [hbits i,mem_usableFrames map.aligned,show bit p₀.bitmap i = false from bit_zero _ _]
    simp [hal,and_comm]
  have hqp : p' = q := by
    refine reserveFrames_eq hp' ?_
    intro a ha
    obtain ⟨haal,hlo,hhi⟩ := (mem_framesBetween hphysal).mp ha
    obtain ⟨e,he,hk,hbase,-⟩ := hin
    have hle : p₀.baseAddr ≤ a := le_trans (husable e he hk).1 (le_trans hbase hlo)
    have haddr := hranged.addr_index hle haal
    rw [Pmm.index_of_shape hshape]
    by_contra hbit
    obtain ⟨helig,-⟩ := (hfree _).mp (by simpa using hbit)
    rw [haddr] at helig
    exact helig.2 ⟨hlo,hhi⟩
  rw [hqp]
  have hranged' := hranged.of_shape hshape
  simp only [Pmm.shape,Prod.mk.injEq] at hshape
  obtain ⟨-,hbase,htopq,hphysq,hbytesq,hrangesq,-⟩ := hshape
  refine ⟨hranged',?_,?_,?_,?_,hcount,?_⟩
  · rw [hbase,htopq]
    exact husable
  · rw [hphysq]
    exact hphysal
  · rw [hphysq,hbytesq]
    exact hin
  · rw [hrangesq]
    exact captureKernelRanges_spec map.aligned hranges
  · intro i
    rw [hfree i,hbase,Pmm.Eligible,Pmm.Eligible,hphysq,hbytesq]

/-! ### One call -/

theorem Pmm.isReserved_of_shape (h : q.shape = p.shape) : q.isReserved = p.isReserved := by
  simp only [Pmm.shape,Prod.mk.injEq] at h
  obtain ⟨-,-,-,hphys,hbytes,hranges,-⟩ := h
  funext addr
  rw [Pmm.isReserved,Pmm.isReserved,hphys,hbytes,hranges]

theorem markFree_frees (h : Counted p₀ p) (hi : i < 64*p.bitmap.length) :
    Frees p₀ p (p.markFree i) (· = i) := by
  unfold Pmm.markFree
  split
  · rename_i hset
    exact ⟨h,fun j => ⟨.inl,(·.elim id (· ▸ hset))⟩⟩
  · rename_i hclear
    exact freed_frees h hi (by simpa using hclear)

/-- An allocation of `count` frames in a row: it fails and changes nothing, or takes free ones. -/
def Took (p q : Pmm) (addr : Option Nat) (count : Nat) : Prop :=
  (addr = none ∧ q = p) ∨ ∃ i, addr = some (p.baseAddr+i*frameSize) ∧
    (∀ k, k < count → bit p.bitmap (i+k) = true) ∧
    ∀ j, bit q.bitmap j = true ↔ bit p.bitmap j = true ∧ ¬ (i ≤ j ∧ j < i+count)

theorem allocFrame_spec {addr : Option Nat} (h : Counted p₀ p) (halloc : allocFrame p = some (q,addr)) :
    Counted p₀ q ∧ Took p q addr 1 := by
  unfold allocFrame at halloc
  split at halloc
  · cases halloc
    exact ⟨h,.inl ⟨rfl,rfl⟩⟩
  rename_i i hfirst
  have hbit := firstSet_some hfirst
  simp only [bind_eq_bind,bind_eq_some_iff,some.injEq,Prod.mk.injEq] at halloc
  obtain ⟨n,hn,rfl,rfl⟩ := halloc
  obtain ⟨-,rfl⟩ := usub_eq_some hn
  refine ⟨⟨?_,?_⟩,.inr ⟨i,rfl,?_,?_⟩⟩
  · simpa [Pmm.shape] using h.shape
  · have := count_clear hbit
    simp only [h.count]
    omega
  · intro k hk
    rwa [show i+k = i by omega]
  · intro j
    rw [bit_clear (lt_of_bit hbit),Bool.and_eq_true,Bool.not_eq_true',decide_eq_false_iff_not,and_comm]
    exact and_congr_right fun _ => by omega

theorem findRun_spec {ws : WordBits.Words} {left idx runStart runLen : Nat}
    (h : findRun ws count left idx runStart runLen = some start)
    (hend : runLen = 0 ∨ runStart+runLen = idx) (hrun : ∀ k, k < runLen → bit ws (runStart+k) = true) :
    ∀ k, k < count → bit ws (start+k) = true := by
  induction left generalizing idx runStart runLen with
  | zero => simp [findRun] at h
  | succ left ih =>
    unfold findRun at h
    split at h
    · rename_i hbit
      set runStart' := if runLen = 0 then idx else runStart with hstart
      have hend' : runStart'+(runLen+1) = idx+1 := by
        rw [hstart]
        split <;> omega
      have hrun' : ∀ k, k < runLen+1 → bit ws (runStart'+k) = true := by
        intro k hk
        by_cases hlast : k = runLen
        · rw [show runStart'+k = idx by omega]
          exact hbit
        · have hpos : runLen ≠ 0 := by omega
          rw [hstart,if_neg hpos]
          exact hrun k (by omega)
      dsimp only at h
      split at h
      · rename_i hcount
        rw [← some.inj h,← hcount]
        exact hrun'
      · exact ih h (.inr hend') hrun'
    · exact ih h (.inl rfl) (by simp)

theorem allocFramesContiguous_spec {addr : Option Nat} (h : Counted p₀ p)
    (halloc : allocFramesContiguous p count = some (q,addr)) : Counted p₀ q ∧ Took p q addr count := by
  unfold allocFramesContiguous at halloc
  split at halloc
  · cases halloc
    exact ⟨h,.inl ⟨rfl,rfl⟩⟩
  split at halloc
  · cases halloc
    exact ⟨h,.inl ⟨rfl,rfl⟩⟩
  rename_i start hfind
  have hrun := findRun_spec hfind (.inl rfl) (by simp)
  obtain ⟨hlen,hcount,hbits⟩ := WordBits.clearRun hrun
  simp only [bind_eq_bind,bind_eq_some_iff,some.injEq,Prod.mk.injEq] at halloc
  obtain ⟨n,hn,rfl,rfl⟩ := halloc
  obtain ⟨-,rfl⟩ := usub_eq_some hn
  refine ⟨⟨?_,?_⟩,.inr ⟨start,rfl,hrun,hbits⟩⟩
  · simpa [Pmm.shape,hlen] using h.shape
  · simp only [h.count]
    omega

theorem freeFrame_spec (h : Counted p₀ p) (hp : p₀.Ranged) (addr : Nat) :
    Frees p₀ p (freeFrame p addr) fun j => p₀.baseAddr ≤ addr ∧ addr < p₀.topAddr ∧
      p₀.isReserved addr = false ∧ j = p₀.index addr := by
  have hbase : p.baseAddr = p₀.baseAddr := congrArg (·.2.1) h.shape
  have htop : p.topAddr = p₀.topAddr := congrArg (·.2.2.1) h.shape
  unfold freeFrame
  rw [Pmm.isReserved_of_shape h.shape,hbase,htop]
  split
  · rename_i hout
    exact .nothing h fun _ ⟨hlo,hhi,_⟩ => by omega
  rename_i hin
  split
  · rename_i hr
    exact .nothing h fun _ ⟨_,_,hfree,_⟩ => by simp [hr] at hfree
  rename_i hr
  have hlo : p₀.baseAddr ≤ addr := by omega
  have hhi : addr < p₀.topAddr := by omega
  have hlt := h.index_lt hp hlo hhi
  rw [Pmm.index] at hlt
  simp only [show (addr-p₀.baseAddr)/frameSize/64 < p.bitmap.length by omega,if_true]
  refine (markFree_frees h hlt).congr fun j => ?_
  simp [hr,hlo,hhi,Pmm.index]

theorem freeRunFrame_frees (h : Counted p₀ p) (hp : p₀.Ranged) (hi : i < p₀.totalFrames) :
    Frees p₀ p (freeRunFrame p i) fun j => j = i ∧ p₀.isReserved (p₀.baseAddr+j*frameSize) = false := by
  have hbase : p.baseAddr = p₀.baseAddr := congrArg (·.2.1) h.shape
  have hlen : p.bitmap.length = p₀.bitmap.length := congrArg (·.2.2.2.2.2.2) h.shape
  have hbits := hp.bits
  unfold freeRunFrame
  rw [Pmm.isReserved_of_shape h.shape,hbase]
  split
  · rename_i hr
    refine .nothing h ?_
    rintro j ⟨rfl,hfree⟩
    simp [hr] at hfree
  · rename_i hr
    refine (markFree_frees h (by omega)).congr fun j => (and_iff_left_of_imp ?_).symm
    rintro rfl
    simpa using hr

theorem freeRun_frees (h : Counted p₀ p) (hp : p₀.Ranged) {n : Nat} (hn : start+n ≤ p₀.totalFrames) :
    Frees p₀ p ((List.range' start n).foldl freeRunFrame p) fun j =>
      start ≤ j ∧ j < start+n ∧ p₀.isReserved (p₀.baseAddr+j*frameSize) = false := by
  induction n generalizing p start with
  | zero => exact .nothing h fun j ⟨hlo,hhi,_⟩ => by omega
  | succ n ih =>
    have hfirst := freeRunFrame_frees h hp (show start < _ by omega)
    rw [List.range'_succ,foldl_cons]
    refine (hfirst.trans (ih hfirst.counted (by omega))).congr fun j => ?_
    rw [← and_assoc,← and_assoc,← or_and_right]
    exact and_congr_left fun _ => by omega

theorem freeFramesContiguous_spec (h : Counted p₀ p) (hp : p₀.Ranged) {base : Nat}
    (hfree : freeFramesContiguous p base count = some q) : Frees p₀ p q fun j => p₀.baseAddr ≤ base ∧
      base < p₀.topAddr ∧ p₀.index base ≤ j ∧ j < p₀.index base+count ∧ j < p₀.totalFrames ∧
      p₀.isReserved (p₀.baseAddr+j*frameSize) = false := by
  have htotal : p.totalFrames = p₀.totalFrames := congrArg (·.1) h.shape
  have hbase : p.baseAddr = p₀.baseAddr := congrArg (·.2.1) h.shape
  have htop : p.topAddr = p₀.topAddr := congrArg (·.2.2.1) h.shape
  unfold freeFramesContiguous at hfree
  rw [htotal,hbase,htop] at hfree
  split at hfree
  · cases hfree
    exact .nothing h fun _ ⟨_,_,hlo,hhi,_⟩ => by omega
  split at hfree
  · cases hfree
    exact .nothing h fun _ ⟨hlo,hhi,_⟩ => by omega
  rename_i hin
  simp only [bind_eq_bind,bind_eq_some_iff,some.injEq] at hfree
  obtain ⟨stop,hstop,rfl⟩ := hfree
  obtain ⟨rfl,-⟩ := addU64_eq_some hstop
  have hstart := hp.index_lt (show p₀.baseAddr ≤ base by omega) (by omega)
  simp only [Pmm.index] at hstart ⊢
  refine (freeRun_frees h hp (by omega)).congr fun j => ?_
  constructor
  · exact fun ⟨hlo,hhi,hr⟩ => ⟨by omega,by omega,hlo,by omega,by omega,hr⟩
  · exact fun ⟨_,_,hlo,hhi,hlt,hr⟩ => ⟨hlo,by omega,hr⟩

/-! ### Whole runs -/

/-- A free call accepts no address whose frame was not allocatable. -/
def Guarded (p₀ : Pmm) : Prop := ∀ addr, p₀.baseAddr ≤ addr → addr < p₀.topAddr →
  p₀.isReserved addr = false → bit p₀.bitmap (p₀.index addr) = true

/-- The frame at an address can be allocated. -/
def Pmm.Allocatable (p : Pmm) (addr : Nat) : Prop :=
  ∃ i, bit p.bitmap i = true ∧ addr = p.baseAddr+i*frameSize

/-- The invariant of a run on a guarded layout. -/
structure Safe (p₀ : Pmm) (r : FrameRun) : Prop where
  pmm : ∃ p, r.pmm = some p ∧ Counted p₀ p ∧ ∀ i, bit p.bitmap i = true → bit p₀.bitmap i = true
  handed : ∀ a ∈ r.handed, p₀.Allocatable a

theorem Safe.took (h : Safe p₀ r) (hpmm : r.pmm = some p) (hq : Counted p₀ q)
    {addr : Option Nat} (htook : Took p q addr count) : Safe p₀ ⟨some q,framesAt addr count ++ r.handed⟩ := by
  obtain ⟨p',hpmm',hcounted,hsub⟩ := h.pmm
  obtain rfl : p' = p := some.inj (hpmm'.symm.trans hpmm)
  have hbase : p'.baseAddr = p₀.baseAddr := congrArg (·.2.1) hcounted.shape
  rcases htook with ⟨rfl,rfl⟩ | ⟨i,rfl,hrun,hbits⟩
  · exact ⟨⟨q,rfl,hq,hsub⟩,by simpa [framesAt] using h.handed⟩
  refine ⟨⟨q,rfl,hq,fun j hj => hsub j ((hbits j).mp hj).1⟩,fun a hmem => ?_⟩
  rcases mem_append.mp hmem with hmem | hmem
  · simp only [framesAt,mem_map,mem_range] at hmem
    obtain ⟨k,hk,rfl⟩ := hmem
    exact ⟨i+k,hsub _ (hrun k hk),by simp only [frameSize,hbase]; omega⟩
  · exact h.handed a hmem

theorem Safe.step {p₀ : Pmm} (hp : p₀.Ranged) (hguard : Guarded p₀) (h : Safe p₀ r)
    (op : FrameOp) : Yields (step r op) (Safe p₀) := by
  intro r' hr'
  obtain ⟨p,hpmm,hcounted,hsub⟩ := h.pmm
  cases op with
  | allocFrame =>
    simp only [Frames.step,hpmm,bind_eq_bind,bind_eq_some_iff,some.injEq] at hr'
    obtain ⟨⟨q,addr⟩,halloc,rfl⟩ := hr'
    obtain ⟨hq,htook⟩ := allocFrame_spec hcounted halloc
    exact h.took hpmm hq htook
  | allocFramesContiguous count =>
    simp only [Frames.step,hpmm,bind_eq_bind,bind_eq_some_iff,some.injEq] at hr'
    obtain ⟨⟨q,addr⟩,halloc,rfl⟩ := hr'
    obtain ⟨hq,htook⟩ := allocFramesContiguous_spec hcounted halloc
    exact h.took hpmm hq htook
  | freeFrame addr =>
    simp only [Frames.step,hpmm,some.injEq] at hr'
    obtain rfl := hr'
    obtain ⟨hq,hbits⟩ := freeFrame_spec hcounted hp addr
    refine ⟨⟨_,rfl,hq,fun i hi => ?_⟩,h.handed⟩
    rcases (hbits i).mp hi with hi | ⟨hlo,hhi,hres,rfl⟩
    · exact hsub i hi
    · exact hguard addr hlo hhi hres
  | freeFramesContiguous base count =>
    simp only [Frames.step,hpmm,bind_eq_bind,bind_eq_some_iff,some.injEq] at hr'
    obtain ⟨q,hfree,rfl⟩ := hr'
    obtain ⟨hq,hbits⟩ := freeFramesContiguous_spec hcounted hp hfree
    refine ⟨⟨q,rfl,hq,fun i hi => ?_⟩,h.handed⟩
    rcases (hbits i).mp hi with hi | ⟨-,-,-,-,hlt,hres⟩
    · exact hsub i hi
    have hin : p₀.baseAddr+i*frameSize < p₀.topAddr := by
      rw [hp.top]
      simp only [frameSize]
      omega
    have := hguard _ (Nat.le_add_right _ _) hin hres
    rwa [p₀.index_addr] at this

theorem allocFrame_reaches (h : Counted p₀ p) (hi : bit p.bitmap i = true)
    (handed : List Nat) : ∃ n r, run step ⟨some p,handed⟩ (List.replicate n .allocFrame) = some r ∧
      p₀.baseAddr+i*frameSize ∈ r.handed := by
  generalize hm : WordBits.count p.bitmap = m
  induction m generalizing p handed with
  | zero =>
    have := count_pos hi
    omega
  | succ m ih =>
    cases hfirst : WordBits.firstSet p.bitmap with
    | none =>
      have := firstSet_none hfirst i
      simp [hi] at this
    | some k =>
      have hk := firstSet_some hfirst
      have hcount := count_clear hk
      have hbase : p.baseAddr = p₀.baseAddr := congrArg (·.2.1) h.shape
      set q : Pmm := { p with bitmap := WordBits.clear p.bitmap k, freeCount := p.freeCount-1 } with hq
      have halloc : allocFrame p = some (q,some (p.baseAddr+k*frameSize)) := by
        have hone : 1 ≤ p.freeCount := by
          rw [h.count]
          omega
        simp [allocFrame,hfirst,usub_of_le hone,hq]
      have hstep : step ⟨some p,handed⟩ .allocFrame =
          some ⟨some q,(p.baseAddr+k*frameSize) :: handed⟩ := by
        simp [Frames.step,halloc,framesAt]
      by_cases hik : i = k
      · exact ⟨1,⟨some q,(p.baseAddr+k*frameSize) :: handed⟩,by simp [hstep],by simp [hik,hbase]⟩
      have hqi : bit q.bitmap i = true := by
        simp [hq,bit_clear (lt_of_bit hk),hik,hi]
      obtain ⟨n,r,hrun,hmem⟩ := ih (allocFrame_spec h halloc).1 hqi ((p.baseAddr+k*frameSize) :: handed)
        (by simp only [hq]; omega)
      exact ⟨n+1,r,by simp [replicate_succ,hstep,hrun],hmem⟩

/-! ### Boot maps -/

/-- Along every run from `init`, only frames that were allocatable right after it are
handed out, and the count is the number of free bits. -/
def FramesSafe (map : BootMap) : Prop :=
  ∀ start, init map.entries = some start → ∀ ops, Yields (run step ⟨start,[]⟩ ops) fun r =>
    (∀ a ∈ r.handed, ∃ p₀ ∈ start, p₀.Allocatable a) ∧
    ∀ p ∈ r.pmm, p.freeCount = WordBits.count p.bitmap

/-- Every address of the tracked range at 1 MB or above is usable memory or in one of
the kernel-image ranges there is room for, and no part of a frame is left behind
the bitmap's last byte. -/
structure Covered (map : BootMap) (p : Pmm) : Prop where
  holes : ∀ addr, p.baseAddr ≤ addr → addr < p.topAddr → lowReserved ≤ addr →
    (∃ e ∈ map.entries, e.kind = .usable ∧ e.Holds addr) ∨
    ∃ e ∈ (map.entries.filter (·.kind = .executableAndModules)).take maxKernelRanges, e.Holds addr
  bitmap_end : p.bitmapBytes%frameSize = 0 ∨ p.bitmapPhys+p.bitmapBytes < lowReserved

theorem Laid.isReserved_eq_false (h : Laid map p) (addr : Nat) :
    p.isReserved addr = false ↔ lowReserved ≤ addr ∧
      ¬ (p.bitmapPhys ≤ addr ∧ addr < p.bitmapPhys+p.bitmapBytes) ∧
      ∀ e ∈ (map.entries.filter (·.kind = .executableAndModules)).take maxKernelRanges, ¬ e.Holds addr := by
  rw [Pmm.isReserved,h.kernel,Bool.or_eq_false_iff,Bool.or_eq_false_iff,any_eq_false]
  simp only [forall_mem_map,decide_eq_false_iff_not,not_lt,Bool.and_eq_false_iff,
    MemmapEntry.Holds,Bool.and_eq_true,decide_eq_true_eq]
  rw [and_assoc]
  refine and_congr_right fun _ => and_congr_left fun _ => ?_
  omega

theorem BootMap.holds_frame (map : BootMap) {e : MemmapEntry} (he : e ∈ map.entries) (addr : Nat) :
    e.Holds (alignDown addr) ↔ e.Holds addr := by
  obtain ⟨hbase,hlen⟩ := map.aligned e he
  simp only [MemmapEntry.Holds,alignDown,frameSize] at *
  omega

theorem Laid.addr_frame (h : Laid map p) (hlo : p.baseAddr ≤ addr) :
    p.baseAddr+p.index addr*frameSize = alignDown addr := by
  have := h.ranged.base
  simp only [Pmm.index,alignDown,frameSize] at *
  omega

theorem Laid.bit_index (h : Laid map p) (hlo : p.baseAddr ≤ addr) :
    bit p.bitmap (p.index addr) = true ↔ p.Eligible (alignDown addr) ∧
      ∃ e ∈ map.entries, e.kind = .usable ∧ e.Holds addr := by
  rw [h.free,h.addr_frame hlo]
  constructor
  · rintro ⟨he,e,hmem,hk,hin⟩
    exact ⟨he,e,hmem,hk,(map.holds_frame hmem addr).mp hin⟩
  · rintro ⟨he,e,hmem,hk,hin⟩
    exact ⟨he,e,hmem,hk,(map.holds_frame hmem addr).mpr hin⟩

theorem Laid.guarded (h : Laid map p) (hcov : Covered map p) : Guarded p := by
  intro addr hlo hhi hres
  obtain ⟨hlow,hbm,hkernel⟩ := (h.isReserved_eq_false addr).mp hres
  refine (h.bit_index hlo).mpr ⟨⟨?_,?_⟩,?_⟩
  · simp only [lowReserved,alignDown,frameSize] at *
    omega
  · intro hin
    have hal := h.bitmap_aligned
    rcases hcov.bitmap_end with hend | hend
    · simp only [alignDown,frameSize] at *
      omega
    · simp only [lowReserved,alignDown,frameSize] at *
      omega
  · rcases hcov.holes addr hlo hhi hlow with hin | ⟨e,he,hin⟩
    · exact hin
    · exact absurd hin (hkernel e he)

theorem stray_free (hp : p.Ranged) (hcount : p.freeCount = WordBits.count p.bitmap)
    (hlo : p.baseAddr ≤ addr) (hhi : addr < p.topAddr) (hres : p.isReserved addr = false)
    (hbit : bit p.bitmap (p.index addr) = false) :
    ∃ ops r, run step ⟨some p,[]⟩ ops = some r ∧ ∃ a ∈ r.handed, ¬ p.Allocatable a := by
  obtain ⟨hcounted,hbits⟩ := freeFrame_spec ⟨rfl,hcount⟩ hp addr
  obtain ⟨n,r,hrun,hmem⟩ := allocFrame_reaches hcounted
    ((hbits (p.index addr)).mpr (.inr ⟨hlo,hhi,hres,rfl⟩)) []
  refine ⟨.freeFrame addr :: List.replicate n .allocFrame,r,?_,_,hmem,?_⟩
  · simpa [Frames.step] using hrun
  rintro ⟨i,hi,heq⟩
  obtain rfl : p.index addr = i := by
    simp only [frameSize] at heq
    omega
  simp [hbit] at hi

theorem Laid.guarded_of_safe (h : Laid map p)
    (hsafe : ∀ ops, Yields (run step ⟨some p,[]⟩ ops) fun r => ∀ a ∈ r.handed, p.Allocatable a) :
    Guarded p := by
  intro addr hlo hhi hres
  by_contra hbit
  obtain ⟨ops,r,hrun,a,ha,hnot⟩ := stray_free h.ranged h.count hlo hhi hres (by simpa using hbit)
  exact hnot (hsafe ops r hrun a ha)

theorem Laid.covered (h : Laid map p) (hguard : Guarded p) : Covered map p := by
  obtain ⟨b,hb,hbk,hblo,hbhi⟩ := h.bitmap_usable
  refine ⟨?_,?_⟩
  · intro addr hlo hhi hlow
    by_contra hno
    obtain ⟨huse,hker⟩ := not_or.mp hno
    have hres : p.isReserved addr = false := by
      refine (h.isReserved_eq_false addr).mpr ⟨hlow,?_,fun e he hin => hker ⟨e,he,hin⟩⟩
      rintro ⟨h₁,h₂⟩
      exact huse ⟨b,hb,hbk,by omega,by omega⟩
    exact huse ((h.bit_index hlo).mp (hguard addr hlo hhi hres)).2
  · by_contra hno
    obtain ⟨hpart,hlow⟩ := not_or.mp hno
    have hal := h.bitmap_aligned
    obtain ⟨hbal,hblen⟩ := map.aligned b hb
    obtain ⟨hub,hut⟩ := h.usable b hb hbk
    have hinside : b.Holds (p.bitmapPhys+p.bitmapBytes) := by
      simp only [MemmapEntry.Holds,frameSize] at *
      omega
    have hlo : p.baseAddr ≤ p.bitmapPhys+p.bitmapBytes := by omega
    have hres : p.isReserved (p.bitmapPhys+p.bitmapBytes) = false := by
      refine (h.isReserved_eq_false _).mpr ⟨by omega,by omega,?_⟩
      intro e he hin
      obtain ⟨he,hek⟩ := mem_filter.mp (mem_of_mem_take he)
      have hne : e ≠ b := by
        rintro rfl
        simp [hbk] at hek
      exact map.not_both he hb hne ⟨hin,hinside⟩
    obtain ⟨⟨-,hclear⟩,-⟩ := (h.bit_index hlo).mp (hguard _ hlo (lt_of_lt_of_le hinside.2 hut) hres)
    refine hclear ?_
    simp only [alignDown,frameSize] at *
    omega

/-- Runs are safe on a map exactly when every address `free` can be given is either
recognised or in a frame that was allocatable. -/
theorem framesSafe_iff (map : BootMap) :
    FramesSafe map ↔ ∀ p, init map.entries = some (some p) → Covered map p := by
  constructor
  · intro h p hp
    have hlaid := init_laid hp
    refine hlaid.covered (hlaid.guarded_of_safe fun ops r hr a ha => ?_)
    obtain ⟨p₀,hp₀,hal⟩ := (h _ hp ops r hr).1 a ha
    cases hp₀
    exact hal
  · intro h start hstart ops
    cases start with
    | none =>
      have hinv : ∀ r op, r = (⟨none,[]⟩ : FrameRun) → True → Yields (step r op) (· = ⟨none,[]⟩) := by
        rintro r op rfl -
        exact .pure rfl
      refine (run_yields _ hinv rfl (fun _ _ _ _ _ => trivial) ops (prefix_refl _)).mono ?_
      rintro r rfl
      simp
    | some p₀ =>
      have hlaid := init_laid hstart
      have hguard := hlaid.guarded (h p₀ hstart)
      have hsafe : Safe p₀ ⟨some p₀,[]⟩ := ⟨⟨p₀,rfl,⟨rfl,hlaid.count⟩,fun _ hi => hi⟩,by simp⟩
      refine (run_yields (fun _ _ => True) (fun r op hr _ => hr.step hlaid.ranged hguard op) hsafe
        (fun _ _ _ _ _ => trivial) ops (prefix_refl _)).mono ?_
      intro r hr
      obtain ⟨p,hpmm,hcounted,-⟩ := hr.pmm
      refine ⟨fun a ha => ⟨p₀,rfl,hr.handed a ha⟩,?_⟩
      intro q hq
      rw [hpmm] at hq
      cases hq
      exact hcounted.count

def holedMap : BootMap where
  entries := [⟨0x100000,0x2000,.usable⟩,⟨0x102000,0x1000,.other⟩,⟨0x103000,0x2000,.usable⟩]
  aligned := by decide
  disjoint := by
    simp only [pairwise_cons,mem_cons,forall_eq_or_imp,MemmapEntry.Holds]
    grind

/-- Its pool: the first frame holds the bitmap, and the third is the reserved one. -/
def holedPool : Pmm := ⟨[0b11010#64],5,3,0x100000,0x105000,0x100000,8,[]⟩

/-- The reserved frame is freed once and handed out by the second allocation. -/
theorem holedMap_unsafe : ¬ FramesSafe holedMap := by
  intro h
  have hinit : init holedMap.entries = some (some holedPool) := by decide +kernel
  have hrun : (run step ⟨some holedPool,[]⟩ [.freeFrame 0x102000,.allocFrame,.allocFrame]).map (·.handed) =
      some [0x102000,0x101000] := by decide +kernel
  obtain ⟨r,hr,hhanded⟩ := map_eq_some_iff.mp hrun
  obtain ⟨p₀,hp₀,i,hbit,haddr⟩ := (h _ hinit _ r hr).1 0x102000 (by simp [hhanded])
  cases hp₀
  obtain rfl : i = 2 := by
    simp only [holedPool,frameSize] at haddr
    omega
  exact absurd hbit (by decide)

end PaghOS.Frames
