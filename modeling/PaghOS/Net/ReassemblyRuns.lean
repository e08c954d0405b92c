import Mathlib.Data.List.Induction
import PaghOS.Net.Reassembly

/-!
Runs of the reassembler over packets of a set of datagrams, in any order and
any number of times, with ticks of the timer in between.
-/

namespace PaghOS.Net
open List Reassembler Option

variable {d : Datagram} {now : Nat} {b b' : FragBuf} {c : Chunk} {pre post : List FragBuf}
    {key : FragKey} {e : Event}

inductive Event where
  | recv (now : Nat) (pkt : List UInt8)
  | tick (now : Nat)
  deriving DecidableEq

def Event.From (maxPayload : Nat) (ds : List Datagram) : Event → Prop
  | .recv _ pkt => ∃ d ∈ ds, pkt ∈ d.packets maxPayload
  | .tick _ => True

namespace Reassembler

def step (r : Reassembler) : Event → Reassembler × Option Delivery
  | .recv now pkt => r.inputV4 pkt now
  | .tick now => (r.onTick now,none)

def run (r : Reassembler) (events : List Event) : Reassembler :=
  events.foldl (fun r e => (r.step e).1) r

theorem run_append (r : Reassembler) (events events' : List Event) :
    r.run (events ++ events') = (r.run events).run events' := by
  simp [run]

end Reassembler

/-- Every buffer gathers one of the datagrams, and no two the same. -/
structure Gathering (maxPayload : Nat) (ds : List Datagram) (r : Reassembler) : Prop where
  keys : (r.bufs.map (·.key)).Nodup
  bufs : ∀ b ∈ r.bufs, b.tryComplete = none ∧ ∃ d ∈ ds, Gathers maxPayload d b

/-- The reassembler holds this chunk of the datagram. -/
def Held (r : Reassembler) (d : Datagram) (c : Chunk) : Prop :=
  ∃ b ∈ r.bufs, b.key = d.key ∧ (c.offset,c.data) ∈ b.frags

/-- Datagrams that are sent at the same time. -/
structure Traffic (maxPayload : Nat) (ds : List Datagram) : Prop where
  unit : fragUnit ≤ maxPayload
  keys : (ds.map Datagram.key).Nodup
  size : ∀ d ∈ ds, d.payload.length ≤ maxDatagram

/-- A chunk of one of the datagrams that need several packets. -/
structure ChunkOf (maxPayload : Nat) (ds : List Datagram) (d : Datagram) (c : Chunk) : Prop where
  mem : d ∈ ds
  large : maxPayload < d.payload.length
  chunk : c ∈ fragmentChunks d.payload maxPayload

section Steps

variable {maxPayload : Nat} {ds : List Datagram} {r : Reassembler}

theorem gathering_new : Gathering maxPayload ds .new where
  keys := by simp [Reassembler.new]
  bufs := by simp [Reassembler.new]

theorem Gathering.onTick (h : Gathering maxPayload ds r) (now : Nat) :
    Gathering maxPayload ds (r.onTick now) where
  keys := h.keys.sublist (filter_sublist.map _)
  bufs := fun b hb => h.bufs b (mem_of_mem_filter hb)

theorem Gathering.unique (h : Gathering maxPayload ds r) (hb : b ∈ r.bufs)
    (hb' : b' ∈ r.bufs) (heq : b.key = b'.key) : b = b' :=
  inj_on_of_nodup_map h.keys hb hb' heq

theorem Around.others (ha : Reassembler.Around r now key pre b post) (hne : b'.key ≠ key) :
    b' ∈ pre ++ post ↔ b' ∈ r.bufs := by
  have hb : b' ≠ b := fun heq => hne (heq ▸ ha.own)
  rcases ha.bufs with hbufs | ⟨hbufs,rfl,-⟩
  · simp [hbufs,hb]
  · simp [hbufs]

theorem Around.subset (ha : Reassembler.Around r now key pre b post) : pre ++ post ⊆ r.bufs := by
  intro b' hb'
  have hne : b'.key ≠ key := by
    rcases mem_append.mp hb' with hb' | hb'
    · exact ha.before b' hb'
    · exact ha.behind b' hb'
  exact (Around.others ha hne).mp hb'

theorem Around.nodup (h : Gathering maxPayload ds r) (ha : Reassembler.Around r now key pre b post)
    (hb' : b'.key = key) :
    ((pre ++ b' :: post).map (·.key)).Nodup ∧ ((pre ++ post).map (·.key)).Nodup := by
  have hrest : ((pre ++ post).map (·.key)).Nodup := by
    refine h.keys.sublist (List.Sublist.map _ ?_)
    rcases ha.bufs with hbufs | ⟨hbufs,rfl,-⟩
    · rw [hbufs]
      exact List.Sublist.append_left (sublist_cons_self _ _) _
    · simp [hbufs]
  refine ⟨?_,hrest⟩
  rw [map_append,map_cons,nodup_middle,← map_append]
  refine nodup_cons.mpr ⟨?_,hrest⟩
  intro hmem
  obtain ⟨o,ho,heq⟩ := mem_map.mp hmem
  rcases mem_append.mp ho with ho | ho
  · exact ha.before o ho (heq.trans hb')
  · exact ha.behind o ho (heq.trans hb')

variable (ht : Traffic maxPayload ds)

include ht

theorem Gathering.gathers (h : Gathering maxPayload ds r) (hd : d ∈ ds)
    (hb : b ∈ r.bufs) (hkey : b.key = d.key) : Gathers maxPayload d b := by
  obtain ⟨-,d',hd',hg⟩ := h.bufs b hb
  obtain rfl := inj_on_of_nodup_map ht.keys hd' hd (hg.key.symm.trans hkey)
  exact hg

theorem Gathering.around (h : Gathering maxPayload ds r) (hc : ChunkOf maxPayload ds d c)
    (ha : Reassembler.Around r now d.key pre b post) : Gathers maxPayload d b := by
  rcases ha.bufs with hbufs | ⟨-,-,rfl⟩
  · exact h.gathers ht hc.mem (by simp [hbufs]) ha.own
  · exact gathers_fresh hc.large now

theorem feed_cases (h : Gathering maxPayload ds r) (hc : ChunkOf maxPayload ds d c) (now : Nat) :
    let fed := r.feed now d.key c.offset (c.offset+c.data.length < d.payload.length) c.data
    (¬ r.Admits d.key c.data.length ∧ fed = (r,none)) ∨
    (r.Admits d.key c.data.length ∧ ∃ pre b post, Reassembler.Around r now d.key pre b post ∧
      ((fed = (⟨pre ++ post⟩,some d.payload)) ∨
       ∃ b', fed = (⟨pre ++ b' :: post⟩,none) ∧ b'.tryComplete = none ∧ Gathers maxPayload d b' ∧
        b.frags ⊆ b'.frags ∧ (c.offset,c.data) ∈ b'.frags)) := by
  intro fed
  by_cases hadm : r.Admits d.key c.data.length
  · obtain ⟨pre,b,post,ha⟩ := around_of_admits hadm h.keys now
    have hg := h.around ht hc ha
    have hadd := hg.add ht.unit hc.chunk now
    refine .inr ⟨hadm,pre,b,post,ha,?_⟩
    have hfed : fed = _ := feed_admitted hadm ha
    cases hcomplete : (b.add now c.offset (c.offset+c.data.length < d.payload.length)
        c.data).tryComplete with
    | some out =>
      obtain rfl := tryComplete_sound ht.unit hadd hcomplete
      rw [hcomplete] at hfed
      exact .inl hfed
    | none =>
      rw [hcomplete] at hfed
      exact .inr ⟨_,hfed,hcomplete,hadd,b.subset_add _ _ _ _,hg.mem_add ht.unit hc.chunk _ _⟩
  · exact .inl ⟨hadm,feed_refused hadm⟩

theorem step_cases (he : e.From maxPayload ds) : (∃ now, e = .tick now) ∨
    (∃ d ∈ ds, d.payload.length ≤ maxPayload ∧ ∃ now, e = .recv now (d.packet ⟨0,d.payload⟩) ∧
      r.step e = (r,some d.delivery)) ∨
    (∃ d c now, ChunkOf maxPayload ds d c ∧ e = .recv now (d.packet c) ∧
      let fed := r.feed now d.key c.offset (c.offset+c.data.length < d.payload.length) c.data
      r.step e = (fed.1,fed.2.map (fun full => ⟨d.src,d.dst,d.proto,full⟩))) := by
  cases e with
  | tick now => exact .inl ⟨now,rfl⟩
  | recv now pkt =>
    obtain ⟨d,hd,hpkt⟩ := he
    rw [d.packets_eq ht.unit] at hpkt
    obtain ⟨c,hc,rfl⟩ := mem_map.mp hpkt
    by_cases hsmall : d.payload.length ≤ maxPayload
    · rw [fragmentChunks_small hsmall,mem_singleton] at hc
      subst hc
      exact .inr (.inl ⟨d,hd,hsmall,now,rfl,inputV4_whole r now (ht.size d hd)⟩)
    · exact .inr (.inr ⟨d,c,now,⟨hd,by omega,hc⟩,rfl,
        inputV4_fragment r now (by omega) ht.unit (ht.size d hd) hc⟩)

theorem Gathering.step (h : Gathering maxPayload ds r) (he : e.From maxPayload ds) :
    Gathering maxPayload ds (r.step e).1 ∧
    ∀ out, (r.step e).2 = some out → ∃ d ∈ ds, out = d.delivery := by
  rcases step_cases ht he (r := r) with ⟨now,rfl⟩ | ⟨d,hd,-,now,-,hstep⟩ | ⟨d,c,now,hc,-,hstep⟩
  · exact ⟨h.onTick now,by simp [Reassembler.step]⟩
  · rw [hstep]
    exact ⟨h,fun out hout => ⟨d,hd,(some.inj hout).symm⟩⟩
  · rcases feed_cases ht h hc now with ⟨-,hfed⟩ |
      ⟨-,pre,b,post,ha,hfed | ⟨b',hfed,hnone,hg,-,-⟩⟩
    · simp only [hfed,map_none] at hstep
      rw [hstep]
      exact ⟨h,by simp⟩
    · simp only [hfed,map_some] at hstep
      rw [hstep]
      refine ⟨⟨(Around.nodup h ha ha.own).2,?_⟩,?_⟩
      · exact fun b' hb' => h.bufs b' (Around.subset ha hb')
      · exact fun out hout => ⟨d,hc.mem,(some.inj hout).symm⟩
    · simp only [hfed,map_none] at hstep
      rw [hstep]
      refine ⟨⟨(Around.nodup h ha hg.key).1,?_⟩,by simp⟩
      intro o ho
      have ho : o = b' ∨ o ∈ pre ++ post := by simpa [or_left_comm] using ho
      rcases ho with rfl | ho
      · exact ⟨hnone,d,hc.mem,hg⟩
      · exact h.bufs o (Around.subset ha ho)

theorem Held.step (h : Gathering maxPayload ds r) (he : e.From maxPayload ds)
    (hheld : Held r d c) (hentry : (r.step e).1.HasEntry d.key) : Held (r.step e).1 d c := by
  obtain ⟨b₀,hb₀,hkey₀,hc₀⟩ := hheld
  rcases step_cases ht he (r := r) with ⟨now,rfl⟩ | ⟨d',hd',-,now,-,hstep⟩ | ⟨d',c',now,hc',-,hstep⟩
  · obtain ⟨b,hb,hkey⟩ := hentry
    obtain rfl := h.unique (mem_of_mem_filter hb) hb₀ (hkey.trans hkey₀.symm)
    exact ⟨b,hb,hkey,hc₀⟩
  · rw [hstep]
    exact ⟨b₀,hb₀,hkey₀,hc₀⟩
  · rcases feed_cases ht h hc' now with ⟨-,hfed⟩ |
      ⟨-,pre,b,post,ha,hfed | ⟨b',hfed,hnone,hg,hsub,-⟩⟩
    · simp only [hfed,map_none] at hstep
      rw [hstep]
      exact ⟨b₀,hb₀,hkey₀,hc₀⟩
    · simp only [hfed,map_some] at hstep
      rw [hstep] at hentry ⊢
      obtain ⟨b,hb,hkey⟩ := hentry
      obtain rfl := h.unique (Around.subset ha hb) hb₀ (hkey.trans hkey₀.symm)
      exact ⟨b,hb,hkey,hc₀⟩
    · simp only [hfed,map_none] at hstep
      rw [hstep]
      by_cases hsame : d.key = d'.key
      · -- The entry itself has grown.
        have hb : b₀ = b := by
          rcases ha.bufs with hbufs | ⟨hbufs,-,-⟩
          · exact h.unique hb₀ (by simp [hbufs]) (hkey₀.trans (hsame.trans ha.own.symm))
          · exact absurd (hkey₀.trans hsame) (ha.before b₀ (hbufs ▸ hb₀))
        exact ⟨b',by simp,hg.key.trans hsame.symm,hsub (hb ▸ hc₀)⟩
      · have hother := (Around.others ha (fun heq => hsame (hkey₀.symm.trans heq))).mpr hb₀
        refine ⟨b₀,?_,hkey₀,hc₀⟩
        simpa [or_left_comm] using Or.inr hother

theorem step_takes (h : Gathering maxPayload ds r) (hc : ChunkOf maxPayload ds d c)
    (hadm : r.Admits d.key c.data.length)
    (hentry : (r.step (.recv now (d.packet c))).1.HasEntry d.key) :
    Held (r.step (.recv now (d.packet c))).1 d c := by
  have hstep := inputV4_fragment r now hc.large ht.unit (ht.size d hc.mem) hc.chunk
  rw [Reassembler.step] at hentry ⊢
  rcases feed_cases ht h hc now with ⟨hnot,-⟩ |
    ⟨-,pre,b,post,ha,hfed | ⟨b',hfed,-,hg,-,hmem⟩⟩
  · exact absurd hadm hnot
  · rw [hstep,hfed] at hentry
    obtain ⟨o,ho,hkey⟩ := hentry
    rcases mem_append.mp ho with ho | ho
    · exact absurd hkey (ha.before o ho)
    · exact absurd hkey (ha.behind o ho)
  · rw [hstep,hfed]
    exact ⟨b',by simp,hg.key,hmem⟩

theorem step_completes (h : Gathering maxPayload ds r) (hc : ChunkOf maxPayload ds d c)
    (hadm : r.Admits d.key c.data.length)
    (hothers : ∀ c' ∈ fragmentChunks d.payload maxPayload, c' = c ∨ Held r d c') :
    (r.step (.recv now (d.packet c))).2 = some d.delivery := by
  have hstep := inputV4_fragment r now hc.large ht.unit (ht.size d hc.mem) hc.chunk
  rw [Reassembler.step,hstep]
  rcases feed_cases ht h hc now with ⟨hnot,-⟩ |
    ⟨-,pre,b,post,ha,hfed | ⟨b',hfed,hnone,hg,hsub,hmem⟩⟩
  · exact absurd hadm hnot
  · rw [hfed]
    rfl
  · -- Otherwise the buffer would have every chunk and not be complete.
    have hall : ∀ c' ∈ fragmentChunks d.payload maxPayload, (c'.offset,c'.data) ∈ b'.frags := by
      intro c' hc'
      rcases hothers c' hc' with rfl | ⟨b₀,hb₀,hkey₀,hc₀⟩
      · exact hmem
      apply hsub
      rcases ha.bufs with hbufs | ⟨hbufs,-,-⟩
      · rw [← h.unique hb₀ (by simp [hbufs]) (hkey₀.trans ha.own.symm)]
        exact hc₀
      · exact absurd hkey₀ (ha.before b₀ (hbufs ▸ hb₀))
    rw [tryComplete_complete ht.unit hg hall] at hnone
    simp at hnone

theorem Gathering.lacks (h : Gathering maxPayload ds r) (hd : d ∈ ds) (hentry : r.HasEntry d.key) :
    ¬ ∀ c ∈ fragmentChunks d.payload maxPayload, Held r d c := by
  intro hall
  obtain ⟨b,hb,hkey⟩ := hentry
  have hg := h.gathers ht hd hb hkey
  have hcomplete : b.tryComplete = some d.payload := by
    apply tryComplete_complete ht.unit hg
    intro c hc
    obtain ⟨b₀,hb₀,hkey₀,hc₀⟩ := hall c hc
    rw [← h.unique hb₀ hb (hkey₀.trans hkey.symm)]
    exact hc₀
  rw [(h.bufs b hb).1] at hcomplete
  simp at hcomplete

theorem Gathering.run {events : List Event} (h : Gathering maxPayload ds r)
    (hev : ∀ e ∈ events, e.From maxPayload ds) : Gathering maxPayload ds (r.run events) := by
  induction events generalizing r with
  | nil => exact h
  | cons e events ih =>
    obtain ⟨he,hev⟩ := forall_mem_cons.mp hev
    exact ih (h.step ht he).1 hev

end Steps

/-- The packet finds room; a datagram in one packet needs none. -/
def Reassembler.Takes (r : Reassembler) (maxPayload : Nat) (d : Datagram) (pkt : List UInt8) : Prop :=
  d.payload.length ≤ maxPayload ∨ r.Admits d.key (pkt.length-ipv4HdrMin)

/-- The entry for `key` has been there since the first of these events. -/
def Reassembler.Keeps (r : Reassembler) (key : FragKey) (events : List Event) : Prop :=
  ∀ n, 0 < n → n ≤ events.length → (r.run (events.take n)).HasEntry key

section Keeps

variable {r : Reassembler} {events : List Event}

theorem Reassembler.Keeps.tail (h : r.Keeps key (e :: events)) :
    (r.step e).1.HasEntry key ∧ (r.step e).1.Keeps key events :=
  ⟨h 1 (by omega) (by simp),fun n _ hle => h (n+1) (by omega) (by simpa using hle)⟩

theorem Reassembler.Keeps.drop {pre : List Event} (h : r.Keeps key (pre ++ events)) :
    (r.run pre).Keeps key events := by
  intro n hn hle
  have hentry := h (pre.length+n) (by omega) (by simpa using hle)
  rwa [take_length_add_append,run_append] at hentry

end Keeps

section Runs

variable {maxPayload : Nat} {ds : List Datagram} {before since : List Event} (ht : Traffic maxPayload ds)

include ht

theorem Held.run {r : Reassembler} {events : List Event} (hheld : Held r d c) (h : Gathering maxPayload ds r)
    (hev : ∀ e ∈ events, e.From maxPayload ds) (hkeeps : r.Keeps d.key events) : Held (r.run events) d c := by
  induction events generalizing r with
  | nil => exact hheld
  | cons e events ih =>
    obtain ⟨he,hev⟩ := forall_mem_cons.mp hev
    obtain ⟨hentry,hkeeps⟩ := hkeeps.tail
    exact ih (Held.step ht h he hheld hentry) (h.step ht he).1 hev hkeeps

theorem held_since (hc : ChunkOf maxPayload ds d c) {pre post : List Event}
    (hev : ∀ e ∈ before ++ (pre ++ .recv now (d.packet c) :: post), e.From maxPayload ds)
    (hadm : (Reassembler.new.run (before ++ pre)).Admits d.key c.data.length)
    (hkeeps : (Reassembler.new.run before).Keeps d.key (pre ++ .recv now (d.packet c) :: post)) :
    Held (Reassembler.new.run (before ++ (pre ++ .recv now (d.packet c) :: post))) d c := by
  obtain ⟨hentry,hkeeps⟩ := hkeeps.drop.tail
  rw [← append_assoc] at hev ⊢
  obtain ⟨hbefore,hev⟩ := forall_mem_append.mp hev
  obtain ⟨he,hev⟩ := forall_mem_cons.mp hev
  have hgather := gathering_new.run ht hbefore
  rw [← run_append] at hentry hkeeps
  rw [run_append]
  exact (step_takes ht hgather hc hadm hentry).run ht (hgather.step ht he).1 hev hkeeps

theorem arrived_held {last : Event} (hev : ∀ e ∈ before ++ since ++ [last], e.From maxPayload ds)
    (hkeeps : (Reassembler.new.run before).Keeps d.key since)
    (hc : ChunkOf maxPayload ds d c) {pre post : List Event}
    (harrive : since ++ [last] = pre ++ .recv now (d.packet c) :: post)
    (hadm : (Reassembler.new.run (before ++ pre)).Admits d.key c.data.length) :
    Held (Reassembler.new.run (before ++ since)) d c ∨ last = .recv now (d.packet c) ∧ pre = since := by
  cases post using List.reverseRecOn with
  | nil =>
    obtain ⟨hpre,hlast⟩ := append_inj' harrive rfl
    exact .inr ⟨singleton_inj.mp hlast,hpre.symm⟩
  | append_singleton post e =>
    have hsplit : since ++ [last] = (pre ++ .recv now (d.packet c) :: post) ++ [e] := by
      simpa using harrive
    obtain ⟨rfl,-⟩ := append_inj' hsplit rfl
    refine .inl (held_since ht hc ?_ hadm hkeeps)
    exact fun e he => hev e (mem_append_left _ he)

end Runs

/-- Reassembly undoes fragmentation. In every run over packets of the datagrams,
each delivery is one of them; and once every packet of a datagram has found room
since its entry was created, the datagram is delivered. -/
theorem fragments_reassemble {maxPayload : Nat} (hmax : fragUnit ≤ maxPayload) {ds : List Datagram}
    (hkeys : (ds.map Datagram.key).Nodup) (hsize : ∀ d ∈ ds, d.payload.length ≤ maxDatagram)
    {events : List Event} (hev : ∀ e ∈ events, e.From maxPayload ds) :
    (∀ before e after out, events = before ++ e :: after →
      ((Reassembler.new.run before).step e).2 = some out → ∃ d ∈ ds, out = d.delivery) ∧
    (∀ d ∈ ds, ∀ before since last after, events = before ++ since ++ last :: after →
      ¬ (Reassembler.new.run before).HasEntry d.key → (Reassembler.new.run before).Keeps d.key since →
      (∀ pkt ∈ d.packets maxPayload, ∃ pre now post, since ++ [last] = pre ++ .recv now pkt :: post ∧
        (Reassembler.new.run (before ++ pre)).Takes maxPayload d pkt) →
      ((Reassembler.new.run (before ++ since)).step last).2 = some d.delivery) := by
  have ht : Traffic maxPayload ds := ⟨hmax,hkeys,hsize⟩
  constructor
  · rintro before e after out rfl hout
    have hbefore := gathering_new.run ht (fun e he => hev e (mem_append_left _ he) : ∀ e ∈ before, _)
    exact (hbefore.step ht (hev e (by simp))).2 out hout
  rintro d hd before since last after rfl hfresh hkeeps harrive
  have hpart : ∀ e ∈ before ++ since ++ [last], e.From maxPayload ds := by
    intro e he
    exact hev e (by simp only [mem_append,mem_cons,not_mem_nil,or_false] at he ⊢; tauto)
  have hgather := gathering_new.run ht
    (fun e he => hpart e (mem_append_left _ he) : ∀ e ∈ before ++ since, _)
  have hentry : since ≠ [] → (Reassembler.new.run (before ++ since)).HasEntry d.key := by
    intro hne
    have h := hkeeps since.length (length_pos_iff.mpr hne) (Nat.le_refl _)
    rwa [take_length,← run_append] at h
  rw [d.packets_eq hmax] at harrive
  by_cases hsmall : d.payload.length ≤ maxPayload
  · rw [fragmentChunks_small hsmall] at harrive
    obtain ⟨pre,now,post,hsplit,-⟩ := harrive (d.packet ⟨0,d.payload⟩) (by simp)
    have hlast : last = .recv now (d.packet ⟨0,d.payload⟩) := by
      cases since with
      | nil =>
        cases pre with
        | nil => exact (List.cons.inj hsplit).1
        | cons e pre => simp at hsplit
      | cons e since =>
        -- An entry under this key would gather a datagram of several packets.
        obtain ⟨b,hb,hkey⟩ := hentry (by simp)
        have := (hgather.gathers ht hd hb hkey).large
        omega
    rw [hlast]
    exact congrArg Prod.snd (inputV4_whole _ now (hsize d hd))
  · have hlarge : maxPayload < d.payload.length := by omega
    have hall : ∀ c ∈ fragmentChunks d.payload maxPayload,
        Held (Reassembler.new.run (before ++ since)) d c ∨
        ∃ now, last = .recv now (d.packet c) ∧
          (Reassembler.new.run (before ++ since)).Admits d.key c.data.length := by
      intro c hc
      obtain ⟨pre,now,post,hsplit,htakes⟩ := harrive _ (mem_map_of_mem hc)
      have hadm : (Reassembler.new.run (before ++ pre)).Admits d.key c.data.length := by
        rcases htakes with htakes | htakes
        · omega
        · rwa [Datagram.packet,length_ipv4Build,Nat.add_sub_cancel_left] at htakes
      rcases arrived_held ht hpart hkeeps ⟨hd,hlarge,hc⟩ hsplit hadm with hheld | ⟨hlast,rfl⟩
      · exact .inl hheld
      · exact .inr ⟨now,hlast,hadm⟩
    by_cases hheld : ∀ c ∈ fragmentChunks d.payload maxPayload,
        Held (Reassembler.new.run (before ++ since)) d c
    · -- All of them held: then the entry would be complete.
      have hne : since ≠ [] := by
        rintro rfl
        obtain ⟨c,hc,-⟩ := (fragmentChunks_cuts hmax hlarge).ends (by
          rw [Ne,(fragmentChunks_cuts hmax hlarge).nil_iff]
          omega)
        obtain ⟨b,hb,hkey,-⟩ := hheld c hc
        rw [append_nil] at hb
        exact hfresh ⟨b,hb,hkey⟩
      exact absurd hheld (hgather.lacks ht hd (hentry hne))
    · obtain ⟨c,hc⟩ := not_forall.mp hheld
      obtain ⟨hc,hnot⟩ := Classical.not_imp.mp hc
      obtain ⟨now,rfl,hadm⟩ := (hall c hc).resolve_left hnot
      refine step_completes ht hgather ⟨hd,hlarge,hc⟩ hadm ?_
      intro c' hc'
      rcases hall c' hc' with hheld' | ⟨now',hlast,-⟩
      · exact .inr hheld'
      · obtain ⟨-,hpkt⟩ := Event.recv.inj hlast
        exact .inl (packet_inj hlarge hmax (hsize d hd) hc' hc hpkt.symm)

def twoPackets : Datagram := ⟨⟨10,0,2,15⟩,⟨10,0,2,2⟩,17,7,[0,1,2,3,4,5,6,7,8,9]⟩

def onePacket : Datagram := ⟨⟨10,0,2,15⟩,⟨10,0,2,2⟩,17,8,[42]⟩

/-- The second packet of the first comes first, then the other datagram, then
the first packet. -/
def crossed : List Event :=
  [.recv 3 (twoPackets.packet ⟨8,[8,9]⟩),.recv 4 (onePacket.packet ⟨0,[42]⟩),
    .recv 5 (twoPackets.packet ⟨0,[0,1,2,3,4,5,6,7]⟩)]

theorem crossed_reassembles : ((Reassembler.new.run (crossed.take 2)).step
      (.recv 5 (twoPackets.packet ⟨0,[0,1,2,3,4,5,6,7]⟩))).2 = some twoPackets.delivery := by
  have hev : ∀ e ∈ crossed, e.From 8 [twoPackets,onePacket] := by
    intro e he
    simp only [crossed,mem_cons,not_mem_nil,or_false] at he
    rcases he with rfl | rfl | rfl
    · exact ⟨twoPackets,by decide,by decide⟩
    · exact ⟨onePacket,by decide,by decide⟩
    · exact ⟨twoPackets,by decide,by decide⟩
  have hkeeps : Reassembler.new.Keeps twoPackets.key (crossed.take 2) := by
    intro n hn hle
    have hn : n = 1 ∨ n = 2 := by
      simp only [crossed,take_succ_cons,take_zero,length_cons,length_nil] at hle
      omega
    rcases hn with rfl | rfl
    · decide
    · decide
  refine (fragments_reassemble (by decide) (by decide) (by decide) hev).2 twoPackets (by decide) []
    (crossed.take 2) _ [] rfl (by decide) hkeeps ?_
  intro pkt hpkt
  have hpkt : pkt = twoPackets.packet ⟨0,[0,1,2,3,4,5,6,7]⟩ ∨ pkt = twoPackets.packet ⟨8,[8,9]⟩ := by
    revert hpkt
    rw [twoPackets.packets_eq (by decide)]
    simp [fragmentChunks,chunkLoop,twoPackets,fragUnit]
  rcases hpkt with rfl | rfl
  · exact ⟨crossed.take 2,5,[],rfl,.inr (by decide)⟩
  · exact ⟨[],3,crossed.drop 1,rfl,.inr (by decide)⟩

end PaghOS.Net
