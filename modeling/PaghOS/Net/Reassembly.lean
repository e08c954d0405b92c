import PaghOS.Net.Cuts

/-!
Runs of the reassembler: whatever the order, the repetition and the mixture of
the fragments that arrive, what comes out are the datagrams that were sent.
-/

namespace PaghOS.Net
open List

open PaghOS.Stream

variable {payload : List UInt8} {c : Chunk} {now off : Nat} {more : Bool} {pre post : List FragBuf}

/-- A buffer that holds fragments of `d` and still lacks some. -/
structure Gathers (maxPayload : Nat) (d : Datagram) (b : FragBuf) : Prop where
  key : b.key = d.key
  large : maxPayload < d.payload.length
  frags : ∀ f ∈ b.frags, (⟨f.1,f.2⟩ : Chunk) ∈ fragmentChunks d.payload maxPayload
  offsets : (b.frags.map (·.1)).Nodup
  total : ∀ total, b.total = some total → total = d.payload.length
  /-- The last fragment leaves the total behind. -/
  final : ∀ f ∈ b.frags, f.1+f.2.length = d.payload.length → b.total.isSome

section Complete

variable {maxPayload : Nat} {d : Datagram} {b : FragBuf}

theorem mem_sorted {f : Nat × List UInt8} : f ∈ b.sorted ↔ f ∈ b.frags :=
  (perm_insertionSort _ _).mem_iff

theorem sorted_pairwise (b : FragBuf) : b.sorted.Pairwise (fun f g => f.1 ≤ g.1) := by
  have : Std.Total (fun f g : Nat × List UInt8 => f.1 ≤ g.1) := ⟨fun f g => le_total f.1 g.1⟩
  have : IsTrans (Nat × List UInt8) (fun f g => f.1 ≤ g.1) := ⟨fun _ _ _ => le_trans⟩
  exact pairwise_insertionSort _ _

theorem contiguous_prefix {front : List UInt8} {frags : List (Nat × List UInt8)} {stop : Nat}
    (hpieces : ∀ f ∈ frags, Piece payload f.1 f.2) (hfront : front <+: payload)
    (h : contiguous front.length frags = some stop) :
    front ++ frags.flatMap (·.2) <+: payload ∧ (front ++ frags.flatMap (·.2)).length = stop := by
  induction frags generalizing front with
  | nil =>
    simp only [contiguous,Option.some.injEq] at h
    simpa [h] using hfront
  | cons f frags ih =>
    simp only [contiguous] at h
    split at h
    · simp at h
    rename_i hoff
    have hoff : f.1 = front.length := by simpa using hoff
    have hpiece : Piece payload front.length f.2 := hoff ▸ hpieces f (by simp)
    have hrest : contiguous (front ++ f.2).length frags = some stop := by simpa using h
    have hnext := ih (fun g hg => hpieces g (mem_cons_of_mem _ hg)) (hpiece.extends hfront)
      hrest
    simpa [append_assoc] using hnext

theorem tryComplete_sound (hmax : fragUnit ≤ maxPayload) (h : Gathers maxPayload d b)
    {out : List UInt8} (hout : b.tryComplete = some out) : out = d.payload := by
  unfold FragBuf.tryComplete at hout
  split at hout
  · simp at hout
  rename_i total htotal
  split at hout
  · rename_i hcontig
    obtain rfl := Option.some.inj hout
    have hpieces : ∀ f ∈ b.sorted, Piece d.payload f.1 f.2 := fun f hf =>
      ((fragmentChunks_cuts hmax h.large).piece (h.frags f (mem_sorted.mp hf))).2.2
    obtain ⟨hfront,hlen⟩ := contiguous_prefix hpieces (List.nil_prefix (l := d.payload)) hcontig
    rw [nil_append] at hfront hlen
    exact hfront.eq_of_length (hlen.trans (h.total total htotal))
  · simp at hout

theorem tryComplete_complete (hmax : fragUnit ≤ maxPayload) (h : Gathers maxPayload d b)
    (hall : ∀ c ∈ fragmentChunks d.payload maxPayload, (c.offset,c.data) ∈ b.frags) :
    b.tryComplete = some d.payload := by
  have hcuts := fragmentChunks_cuts hmax h.large
  let pairs := (fragmentChunks d.payload maxPayload).map (fun c => (c.offset,c.data))
  have hlt : pairs.Pairwise (fun f g => f.1 < g.1) := by
    rw [pairwise_map]
    exact hcuts.offset_lt
  have hnodup : pairs.Nodup := hlt.imp fun hlt heq => by simp [heq] at hlt
  have hperm : b.frags.Perm pairs := by
    rw [perm_ext_iff_of_nodup h.offsets.of_map hnodup]
    intro f
    simp only [pairs,mem_map]
    constructor
    · intro hf
      exact ⟨⟨f.1,f.2⟩,h.frags f hf,rfl⟩
    · rintro ⟨c,hc,rfl⟩
      exact hall c hc
  have hsorted : b.sorted = pairs := by
    have hle : pairs.Pairwise (fun f g => f.1 ≤ g.1) := hlt.imp le_of_lt
    refine List.Perm.eq_of_pairwise ?_ (sorted_pairwise b) hle
      ((perm_insertionSort _ _).trans hperm)
    intro f g hf hg hfg hgf
    exact inj_on_of_nodup_map h.offsets (mem_sorted.mp hf) (hperm.mem_iff.mpr hg) (by omega)
  have hne : fragmentChunks d.payload maxPayload ≠ [] := by
    rw [Ne,hcuts.nil_iff]
    have := h.large
    omega
  have hlast : ∃ f ∈ b.frags, f.1+f.2.length = d.payload.length := by
    obtain ⟨c,hc,hend⟩ := hcuts.ends hne
    exact ⟨_,hall c hc,hend⟩
  obtain ⟨f,hf,hend⟩ := hlast
  obtain ⟨total,htotal⟩ := Option.isSome_iff_exists.mp (h.final f hf hend)
  have hcontig := hcuts.contiguous
  have hflat := hcuts.flatten
  unfold FragBuf.tryComplete
  rw [htotal,hsorted]
  simp only [pairs,hcontig,h.total total htotal,if_true,flatMap_map]
  rw [hflat,drop_zero]

theorem Gathers.add (hmax : fragUnit ≤ maxPayload) (h : Gathers maxPayload d b)
    (hc : c ∈ fragmentChunks d.payload maxPayload) (now : Nat) : Gathers maxPayload d
      (b.add now c.offset (c.offset+c.data.length < d.payload.length) c.data) := by
  have hle := ((fragmentChunks_cuts hmax h.large).piece hc).2.2.1
  refine ⟨h.key,h.large,?_,?_,?_,?_⟩
  · intro f hf
    simp only [FragBuf.add] at hf
    split at hf
    · exact h.frags f hf
    rcases mem_append.mp hf with hf | hf
    · exact h.frags f hf
    · obtain rfl := mem_singleton.mp hf
      exact hc
  · simp only [FragBuf.add]
    split
    · exact h.offsets
    rename_i hnew
    simp only [any_eq_true,decide_eq_true_eq,not_exists,not_and] at hnew
    rw [map_append,nodup_append]
    refine ⟨h.offsets,by simp,?_⟩
    intro off hoff off' hoff' heq
    obtain ⟨f,hf,rfl⟩ := mem_map.mp hoff
    exact hnew f hf (by simpa [heq] using hoff')
  · intro total htotal
    simp only [FragBuf.add,decide_eq_true_eq] at htotal
    split at htotal
    · exact h.total total htotal
    · obtain rfl := Option.some.inj htotal
      omega
  · intro f hf hend
    simp only [FragBuf.add,decide_eq_true_eq]
    split
    · rename_i hmore
      refine h.final f ?_ hend
      simp only [FragBuf.add] at hf
      split at hf
      · exact hf
      rcases mem_append.mp hf with hf | hf
      · exact hf
      · obtain rfl := mem_singleton.mp hf
        simp only at hend
        omega
    · rfl

theorem FragBuf.subset_add (b : FragBuf) (now off : Nat) (more : Bool) (payload : List UInt8) :
    b.frags ⊆ (b.add now off more payload).frags := by
  intro f hf
  simp only [FragBuf.add]
  split
  · exact hf
  · exact mem_append_left _ hf

theorem Gathers.mem_add (h : Gathers maxPayload d b) (hmax : fragUnit ≤ maxPayload)
    (hc : c ∈ fragmentChunks d.payload maxPayload) (now : Nat) (more : Bool) :
    (c.offset,c.data) ∈ (b.add now c.offset more c.data).frags := by
  simp only [FragBuf.add]
  split
  · rename_i hany
    obtain ⟨f,hf,hoff⟩ := any_eq_true.mp hany
    have hoff : f.1 = c.offset := by simpa using hoff
    have hnodup : ((fragmentChunks d.payload maxPayload).map (·.offset)).Nodup := by
      rw [List.Nodup,pairwise_map]
      exact (fragmentChunks_cuts hmax h.large).offset_lt.imp ne_of_lt
    have hsame : (⟨f.1,f.2⟩ : Chunk) = c := inj_on_of_nodup_map hnodup (h.frags f hf) hc hoff
    rw [← hsame]
    exact hf
  · exact mem_append_right _ (by simp)

theorem gathers_fresh (hlarge : maxPayload < d.payload.length) (now : Nat) :
    Gathers maxPayload d ⟨d.key,[],none,now⟩ where
  key := rfl
  large := hlarge
  frags := by simp
  offsets := by simp
  total := by simp
  final := by simp

end Complete

namespace Reassembler

/-- There is room for a fragment of `len` bytes. -/
def Admits (r : Reassembler) (key : FragKey) (len : Nat) : Prop :=
  r.heldTotal+len ≤ reasmTotalCap ∧ ((r.bufFor key).isSome ∨ r.bufs.length < reasmCap)

instance (r : Reassembler) (key : FragKey) (len : Nat) : Decidable (r.Admits key len) :=
  inferInstanceAs (Decidable (_ ∧ _))

def HasEntry (r : Reassembler) (key : FragKey) : Prop := ∃ b ∈ r.bufs, b.key = key

instance (r : Reassembler) (key : FragKey) : Decidable (r.HasEntry key) :=
  inferInstanceAs (Decidable (∃ b ∈ r.bufs, b.key = key))

variable {r : Reassembler} {key : FragKey}

theorem feed_refused
    (h : ¬ r.Admits key payload.length) : r.feed now key off more payload = (r,none) := by
  unfold feed
  split
  · rfl
  rename_i hheld
  have hopen : r.opened now key = none := by
    unfold opened
    have hnot : ¬ ((r.bufFor key).isSome ∨ r.bufs.length < reasmCap) :=
      fun hor => h ⟨by omega,hor⟩
    simp only [not_or] at hnot
    rw [if_neg hnot.1,if_pos (by omega)]
  rw [hopen]

/-- The buffers around the one for `key`, which is opened when it is not there. -/
structure Around (r : Reassembler) (now : Nat) (key : FragKey) (pre : List FragBuf) (b : FragBuf)
    (post : List FragBuf) : Prop where
  own : b.key = key
  before : ∀ b' ∈ pre, b'.key ≠ key
  behind : ∀ b' ∈ post, b'.key ≠ key
  opened : r.opened now key = some (pre ++ b :: post)
  bufs : r.bufs = pre ++ b :: post ∨ r.bufs = pre ∧ post = [] ∧ b = ⟨key,[],none,now⟩

theorem around_of_admits {len : Nat} (h : r.Admits key len) (hkeys : (r.bufs.map (·.key)).Nodup)
    (now : Nat) : ∃ pre b post, Around r now key pre b post := by
  cases hentry : r.bufFor key with
  | some b =>
    obtain ⟨hb,pre,post,hbufs,hpre⟩ := List.find?_eq_some_iff_append.mp hentry
    have hkey : b.key = key := by simpa using hb
    refine ⟨pre,b,post,hkey,by simpa using hpre,?_,?_,.inl hbufs⟩
    · intro b' hb' heq
      rw [hbufs,map_append,map_cons] at hkeys
      have hnodup := (nodup_cons.mp (nodup_append.mp hkeys).2.1).1
      exact hnodup (mem_map.mpr ⟨b',hb',heq.trans hkey.symm⟩)
    · simp [Reassembler.opened,hentry,hbufs]
  | none =>
    have hnone := List.find?_eq_none.mp hentry
    have hroom : ¬ r.bufs.length ≥ reasmCap := by
      have := h.2
      simp only [hentry,Option.isSome_none,Bool.false_eq_true,false_or] at this
      omega
    refine ⟨r.bufs,⟨key,[],none,now⟩,[],rfl,by simpa using hnone,by simp,?_,.inr ⟨rfl,rfl,rfl⟩⟩
    simp [Reassembler.opened,hentry,if_neg hroom]

theorem alterFirst_around {f : FragBuf → FragBuf} {b : FragBuf}
    (hb : b.key = key) (hpre : ∀ b' ∈ pre, b'.key ≠ key) :
    alterFirst key f (pre ++ b :: post) = pre ++ f b :: post := by
  induction pre with
  | nil => simp [alterFirst,hb]
  | cons b' pre ih =>
    have hne := hpre b' (by simp)
    simp [alterFirst,hne,ih fun b hb => hpre b (mem_cons_of_mem _ hb)]

theorem feed_admitted
    {b : FragBuf} (h : r.Admits key payload.length) (ha : Around r now key pre b post) :
    r.feed now key off more payload = ((b.add now off more payload).tryComplete).elim
        (⟨pre ++ b.add now off more payload :: post⟩,none) (fun out => (⟨pre ++ post⟩,some out)) := by
  have hkey : (b.add now off more payload).key = key := ha.own
  have hentry : bufFor ⟨pre ++ b.add now off more payload :: post⟩ key =
      some (b.add now off more payload) := by
    apply List.find?_eq_some_iff_append.mpr
    exact ⟨by simpa using hkey,pre,post,rfl,by simpa using ha.before⟩
  have hfilter : (pre ++ b.add now off more payload :: post).filter (fun b => b.key ≠ key) =
      pre ++ post := by
    rw [filter_append,filter_cons_of_neg (by simpa using hkey)]
    rw [filter_eq_self.mpr (by simpa using ha.before),filter_eq_self.mpr (by simpa using ha.behind)]
  have hroom : ¬ r.heldTotal+payload.length > reasmTotalCap := by
    have := h.1
    omega
  unfold feed
  rw [if_neg hroom,ha.opened]
  simp only [alterFirst_around ha.own ha.before,hentry,Option.bind_some]
  cases (b.add now off more payload).tryComplete with
  | none => rfl
  | some out => simp only [hfilter,Option.elim_some]

end Reassembler

end PaghOS.Net
