import Mathlib.Data.List.Nodup
import PaghOS.Ext2.Dir

/-!
Directory blocks as lists of records. A block that `iter_entries` accepts is a
chain of records that tiles it; inserting and removing an entry are edits of
that chain, whatever happened to the block before.
-/

namespace PaghOS.Ext2
open Text Bytes Page
open List hiding utf8Encode

/-! ### Headers -/

variable {b : Block} {pos recLen nameLen ino i : Nat} {name : Name} {e : DirEntry}

theorem readHeader_writeHeader {inode : Nat}
    (hpos : pos+8 ≤ blockSize) (hinode : inode < 4294967296) (hrec : recLen < 65536) (hname : nameLen < 256) :
    readHeader (writeHeader b pos inode recLen nameLen) pos = ⟨inode,recLen,nameLen⟩ := by
  have h := @Page.fields_putRecord 4096 b pos headerWidths [inode,recLen,nameLen,0] rfl hpos (by
    intro f hf
    simp only [headerWidths,zip_cons_cons,zip_nil_right,mem_cons,
      not_mem_nil,or_false] at hf
    rcases hf with rfl | rfl | rfl | rfl <;> simp [lim] <;> omega)
  simp only [readHeader,writeHeader,h]
  rfl

theorem get_writeHeader_out {inode : Nat}
    (h : i < pos ∨ pos+8 ≤ i) : (writeHeader b pos inode recLen nameLen).get i = b.get i :=
  get_putRecord_out rfl h

variable {c : Block}

theorem readHeader_congr (h : ∀ i, pos ≤ i → i < pos+8 → c.get i = b.get i) :
    readHeader c pos = readHeader b pos := by
  have hf := @Page.fields_congr 4096 b c pos headerWidths h
  simp [readHeader,hf]

theorem readHeader_lt (b : Block) (pos : Nat) :
    (readHeader b pos).inode < 4294967296 ∧ (readHeader b pos).recLen < 65536 ∧
      (readHeader b pos).nameLen < 256 :=
  ⟨b.num_lt pos 4,b.num_lt (pos+4) 2,b.num_lt (pos+4+2) 1⟩

/-! ### Chains of records -/

def entryAt (b : Block) (pos : Nat) : DirEntry :=
  let h := readHeader b pos
  ⟨pos,h.inode,h.recLen,h.nameLen,if h.inode ≠ 0 then utf8Lossy (b.bytes (pos+8) h.nameLen) else []⟩

/-- A record of at least eight bytes, a multiple of four, that holds its name. -/
def DirEntry.Sound (e : DirEntry) : Prop :=
  8 ≤ e.recLen ∧ e.recLen%4 = 0 ∧ (e.inode ≠ 0 → 8+e.nameLen ≤ e.recLen)

def Chain (b : Block) : (pos : Nat) → List DirEntry → (stop : Nat) → Prop
  | pos, [], stop => pos = stop
  | pos, e :: es, stop => e = entryAt b pos ∧ e.Sound ∧ Chain b (pos+e.recLen) es stop

variable {stop : Nat} {es : List DirEntry}

theorem Chain.le (h : Chain b pos es stop) : pos ≤ stop := by
  induction es generalizing pos with
  | nil => exact le_of_eq h
  | cons e es ih =>
    have := ih h.2.2
    omega

theorem chain_append {xs ys : List DirEntry} :
    Chain b pos (xs ++ ys) stop ↔ ∃ mid, Chain b pos xs mid ∧ Chain b mid ys stop := by
  induction xs generalizing pos with
  | nil => simp [Chain]
  | cons e xs ih =>
    simp only [cons_append,Chain,ih]
    constructor
    · rintro ⟨he,hs,mid,h₁,h₂⟩
      exact ⟨mid,⟨he,hs,h₁⟩,h₂⟩
    · rintro ⟨mid,⟨he,hs,h₁⟩,h₂⟩
      exact ⟨he,hs,mid,h₁,h₂⟩

theorem entryAt_congr {c : Block} {n : Nat} (h8 : 8 ≤ n)
    (hname : (entryAt b pos).inode ≠ 0 → 8+(entryAt b pos).nameLen ≤ n)
    (h : ∀ i, pos ≤ i → i < pos+n → c.get i = b.get i) : entryAt c pos = entryAt b pos := by
  have hhead : readHeader c pos = readHeader b pos :=
    readHeader_congr fun i h₁ h₂ => h i h₁ (by omega)
  simp only [entryAt,hhead] at hname ⊢
  by_cases hi : (readHeader b pos).inode = 0
  · simp [hi]
  · have := hname hi
    rw [bytes_congr fun i h₁ h₂ => h i (by omega) (by omega)]

theorem Chain.congr (hc : Chain b pos es stop)
    (h : ∀ i, pos ≤ i → i < stop → c.get i = b.get i) : Chain c pos es stop := by
  induction es generalizing pos with
  | nil => exact hc
  | cons e es ih =>
    obtain ⟨rfl,hs,hc⟩ := hc
    have hle := hc.le
    have hentry : entryAt c pos = entryAt b pos :=
      entryAt_congr hs.1 hs.2.2 fun i h₁ h₂ => h i h₁ (by omega)
    exact ⟨hentry.symm,hs,ih hc fun i h₁ h₂ => h i (by omega) h₂⟩

instance (e : DirEntry) : Decidable e.Sound :=
  inferInstanceAs (Decidable (_ ∧ _))

theorem iterFrom_succ (fuel : Nat) (hpos : pos < blockSize) : iterFrom b (fuel+1) pos =
      if (entryAt b pos).Sound ∧ pos+(entryAt b pos).recLen ≤ blockSize then
        (iterFrom b fuel (pos+(entryAt b pos).recLen)).map (entryAt b pos :: ·)
      else .error (.fs .corrupt) := by
  rw [iterFrom,if_neg (by omega)]
  by_cases hok : (entryAt b pos).Sound ∧ pos+(entryAt b pos).recLen ≤ blockSize
  · rw [if_pos hok]
    obtain ⟨⟨h8,h4,hname⟩,hle⟩ := hok
    simp only [entryAt] at h8 h4 hname hle
    rw [if_neg (by omega)]
    dsimp only
    rw [if_neg (by omega),if_neg (by
      rintro ⟨hi,hlt⟩
      have := hname hi
      omega)]
    simp only [entryAt]
    cases iterFrom b fuel (pos+(readHeader b pos).recLen) <;> rfl
  · rw [if_neg hok]
    simp only [DirEntry.Sound,entryAt] at hok
    split
    · rfl
    dsimp only
    split
    · rfl
    rw [if_pos]
    by_contra hname
    refine hok ⟨⟨by omega,by omega,?_⟩,by omega⟩
    intro hi
    by_contra hlt
    exact hname ⟨hi,by omega⟩

theorem chain_from_iff (hpos : pos < blockSize) {es : List DirEntry} :
    Chain b pos es blockSize ↔ (entryAt b pos).Sound ∧ pos+(entryAt b pos).recLen ≤ blockSize ∧
      ∃ rest, Chain b (pos+(entryAt b pos).recLen) rest blockSize ∧ entryAt b pos :: rest = es := by
  constructor
  · intro h
    cases es with
    | nil => exact absurd h (ne_of_lt hpos)
    | cons e es =>
      obtain ⟨rfl,hs,hc⟩ := h
      exact ⟨hs,hc.le,es,hc,rfl⟩
  · rintro ⟨hs,-,rest,hc,rfl⟩
    exact ⟨rfl,hs,hc⟩

theorem chain_end_iff : Chain b blockSize es blockSize ↔ es = [] := by
  cases es with
  | nil => simp [Chain]
  | cons e es =>
    simp only [reduceCtorEq,iff_false]
    intro h
    have h8 := h.2.1.1
    have := h.2.2.le
    omega

theorem iterFrom_eq_ok {fuel : Nat} (hpos : pos ≤ blockSize) (hfuel : blockSize ≤ pos+8*fuel) :
    iterFrom b fuel pos = .ok es ↔ Chain b pos es blockSize := by
  induction fuel generalizing pos es with
  | zero =>
    obtain rfl : pos = blockSize := by omega
    rw [iterFrom,if_pos rfl,chain_end_iff,Except.ok.injEq,eq_comm]
  | succ fuel ih =>
    by_cases hlast : pos = blockSize
    · subst hlast
      rw [iterFrom,if_pos le_rfl,if_pos rfl,chain_end_iff,Except.ok.injEq,eq_comm]
    have hlt : pos < blockSize := by omega
    rw [iterFrom_succ fuel hlt,chain_from_iff hlt]
    by_cases hok : (entryAt b pos).Sound ∧ pos+(entryAt b pos).recLen ≤ blockSize
    · have h8 := hok.1.1
      have hrest := fun rest => @ih (pos+(entryAt b pos).recLen) rest hok.2 (by omega)
      simp only [hok.1,hok.2,true_and,← hrest]
      cases iterFrom b fuel (pos+(entryAt b pos).recLen) <;> simp [Except.map]
    rw [if_neg hok]
    simp only [reduceCtorEq,false_iff]
    rintro ⟨hs,hle,-⟩
    exact hok ⟨hs,hle⟩

theorem iterEntries_eq_ok :
    iterEntries b = .ok es ↔ Chain b 0 es blockSize := iterFrom_eq_ok (by decide) (by decide)

/-! ### Live entries -/

def DirEntry.rawName (b : Block) (e : DirEntry) : List UInt8 := b.bytes (e.pos+8) e.nameLen

def live (b : Block) (es : List DirEntry) : List (List UInt8 × Nat) :=
  (es.filter (·.inode ≠ 0)).map (fun e => (e.rawName b,e.inode))

theorem live_append (b : Block) (xs ys : List DirEntry) : live b (xs ++ ys) = live b xs ++ live b ys := by
  simp [live]

theorem live_cons (b : Block) (e : DirEntry) (es : List DirEntry) :
    live b (e :: es) = if e.inode = 0 then live b es else (e.rawName b,e.inode) :: live b es := by
  by_cases h : e.inode = 0 <;> simp [live,h]

theorem Chain.live_congr
    (hc : Chain b pos es stop) (h : ∀ i, pos ≤ i → i < stop → c.get i = b.get i) : live c es = live b es := by
  induction es generalizing pos with
  | nil => rfl
  | cons e es ih =>
    obtain ⟨rfl,⟨h8,-,hname⟩,hc⟩ := hc
    rw [live_cons,live_cons,ih hc fun i h₁ h₂ => h i (by omega) h₂]
    split
    · rfl
    rename_i hi
    have hn := hname hi
    have hle := hc.le
    have hraw : (entryAt b pos).rawName c = (entryAt b pos).rawName b := by
      refine bytes_congr fun i h₁ h₂ => h i ?_ ?_
      · exact Nat.le_trans (Nat.le_add_right _ _) h₁
      · exact Nat.lt_of_lt_of_le h₂ (by
          show pos+8+_ ≤ stop
          omega)
    rw [hraw]

theorem Chain.splice {pre old post : List DirEntry} {stop : Nat}
    (h : Chain b 0 (pre ++ (old ++ post)) stop) :
    ∃ lo hi, Chain b lo old hi ∧ hi ≤ stop ∧ ∀ (c : Block) (new : List DirEntry),
      (∀ i, i < lo ∨ hi ≤ i → c.get i = b.get i) → Chain c lo new hi → Chain c 0 (pre ++ (new ++ post)) stop ∧
          live c (pre ++ (new ++ post)) = live b pre ++ (live c new ++ live b post) := by
  obtain ⟨lo,hpre,h⟩ := chain_append.mp h
  obtain ⟨hi,hold,hpost⟩ := chain_append.mp h
  refine ⟨lo,hi,hold,hpost.le,?_⟩
  intro c new hout hnew
  constructor
  · exact chain_append.mpr ⟨lo,hpre.congr fun i _ hi' => hout i (.inl hi'),
      chain_append.mpr ⟨hi,hnew,hpost.congr fun i hi' _ => hout i (.inr hi')⟩⟩
  · rw [live_append,live_append,hpre.live_congr fun i _ hi' => hout i (.inl hi'),
      hpost.live_congr fun i hi' _ => hout i (.inr hi')]

/-! ### Insertion -/

theorem minRecLen_le (h : 8+nameLen ≤ recLen) (h4 : recLen%4 = 0) : minRecLen nameLen ≤ recLen := by
  simp only [minRecLen,align4]
  omega

theorem le_minRecLen (nameLen : Nat) : 8+nameLen ≤ minRecLen nameLen ∧ minRecLen nameLen%4 = 0 := by
  simp only [minRecLen,align4]
  omega

theorem DirEntry.Sound.ideal_le (h : e.Sound) : e.ideal ≤ e.recLen := by
  unfold DirEntry.ideal
  split
  · exact Nat.zero_le _
  · rename_i hi
    exact minRecLen_le (h.2.2 hi) h.2.1

def freshEntry (pos ino recLen : Nat) (name : Name) : DirEntry :=
  ⟨pos,ino,recLen,(utf8Encode name).length,name⟩

def writeRecord (b : Block) (pos ino recLen : Nat) (name : Name) : Block :=
  (writeHeader b pos ino recLen (utf8Encode name).length).put (pos+8) (utf8Encode name)

theorem get_writeRecord_out (h : i < pos ∨ pos+8+(utf8Encode name).length ≤ i) :
    (writeRecord b pos ino recLen name).get i = b.get i := by
  rw [writeRecord,get_put_out (by omega),get_writeHeader_out (by omega)]

theorem chain_writeRecord (hino : 0 < ino) (hino' : ino < 4294967296) (hrec : recLen%4 = 0)
    (hfit : 8+(utf8Encode name).length ≤ recLen) (hname : (utf8Encode name).length < 256)
    (hend : pos+recLen ≤ blockSize) :
    Chain (writeRecord b pos ino recLen name) pos [freshEntry pos ino recLen name] (pos+recLen) ∧
      live (writeRecord b pos ino recLen name) [freshEntry pos ino recLen name] =
        [(utf8Encode name,ino)] := by
  have hbs : blockSize = 4096 := rfl
  have hhead : readHeader (writeRecord b pos ino recLen name) pos =
      ⟨ino,recLen,(utf8Encode name).length⟩ := by
    rw [writeRecord,readHeader_congr fun i _ hi => get_put_out (.inl hi),
      readHeader_writeHeader (by omega) hino' (by omega) hname]
  have hbytes : (writeRecord b pos ino recLen name).bytes (pos+8) (utf8Encode name).length =
      utf8Encode name := bytes_put (by omega)
  have hentry : entryAt (writeRecord b pos ino recLen name) pos = freshEntry pos ino recLen name := by
    simp only [entryAt,hhead,hbytes,utf8Lossy_utf8Encode,freshEntry]
    rw [if_pos (by omega)]
  refine ⟨⟨hentry.symm,⟨?_,hrec,fun _ => hfit⟩,rfl⟩,?_⟩
  · simp only [freshEntry]
    omega
  · simp only [live_cons,DirEntry.rawName,freshEntry,hbytes]
    rw [if_neg (ne_of_gt hino)]
    rfl

def DirEntry.resize (e : DirEntry) (recLen : Nat) : DirEntry := { e with recLen := recLen }

theorem chain_resize {r : Nat} (h : ((entryAt b pos).resize r).Sound) (hend : pos+r ≤ blockSize) :
    Chain (writeHeader b pos (entryAt b pos).inode r (entryAt b pos).nameLen) pos
        [(entryAt b pos).resize r] (pos+r) ∧
      live (writeHeader b pos (entryAt b pos).inode r (entryAt b pos).nameLen)
        [(entryAt b pos).resize r] = live b [entryAt b pos] := by
  have hbs : blockSize = 4096 := rfl
  obtain ⟨hi,-,hn⟩ := readHeader_lt b pos
  have h8 : 8 ≤ r := h.1
  have hhead := @readHeader_writeHeader b pos r _ _ (by omega) hi (by omega) hn
  have hbytes : (writeHeader b pos (readHeader b pos).inode r (readHeader b pos).nameLen).bytes (pos+8)
      (readHeader b pos).nameLen = b.bytes (pos+8) (readHeader b pos).nameLen :=
    bytes_congr fun i h₁ _ => get_writeHeader_out (.inr (by omega))
  constructor
  · refine ⟨?_,h,rfl⟩
    simp [entryAt,hhead,hbytes,DirEntry.resize]
  · simp only [live_cons,DirEntry.rawName,DirEntry.resize,entryAt,hbytes]
    rfl

theorem chain_clear (h8 : 8 ≤ recLen) (h4 : recLen%4 = 0) (hend : pos+recLen ≤ blockSize) :
    Chain (writeHeader b pos 0 recLen 0) pos [⟨pos,0,recLen,0,[]⟩] (pos+recLen) ∧
      live (writeHeader b pos 0 recLen 0) [⟨pos,0,recLen,0,[]⟩] = [] := by
  have hbs : blockSize = 4096 := rfl
  have hhead := @readHeader_writeHeader b pos recLen 0 0 (by omega) (by omega) (by omega) (by omega)
  refine ⟨⟨?_,⟨h8,h4,by simp⟩,rfl⟩,rfl⟩
  simp [entryAt,hhead]

theorem splitEntry_eq
    (he : e = entryAt b e.pos) (hideal : e.inode ≠ 0 → 8 ≤ e.ideal) : splitEntry b e name ino =
      if e.inode = 0 then writeRecord b e.pos ino e.recLen name
      else writeHeader (writeRecord b (e.pos+e.ideal) ino e.slack name) e.pos e.inode e.ideal e.nameLen := by
  unfold splitEntry
  by_cases hi : e.inode = 0
  · simp only [hi,ne_eq,not_true_eq_false,if_false,if_true,DirEntry.ideal,Nat.add_zero,Nat.sub_zero]
    rfl
  have h8 := hideal hi
  let put := writeRecord b (e.pos+e.ideal) ino e.slack name
  have hcur : readHeader put e.pos = readHeader b e.pos :=
    readHeader_congr fun i _ h => get_writeRecord_out (.inl (by omega))
  have hino : (readHeader b e.pos).inode = e.inode := by
    conv_rhs => rw [he]
    rfl
  have hlen : (readHeader b e.pos).nameLen = e.nameLen := by
    conv_rhs => rw [he]
    rfl
  simp only [hi,ne_eq,not_false_eq_true,if_true,if_false]
  show writeHeader put e.pos (readHeader put e.pos).inode e.ideal (readHeader put e.pos).nameLen = _
  rw [hcur,hino,hlen]

theorem splitEntry_edits {b : Block} {e : DirEntry} {name : Name} {ino : Nat} (he : e = entryAt b e.pos)
    (hs : e.Sound) (hend : e.pos+e.recLen ≤ blockSize) (hino : 0 < ino) (hino' : ino < 4294967296)
    (hname : (utf8Encode name).length < 256) (hroom : minRecLen (utf8Encode name).length ≤ e.slack) :
    ∃ new, (∀ i, i < e.pos ∨ e.pos+e.recLen ≤ i → (splitEntry b e name ino).get i = b.get i) ∧
      Chain (splitEntry b e name ino) e.pos new (e.pos+e.recLen) ∧
      (live (splitEntry b e name ino) new).Perm ((utf8Encode name,ino) :: live b [e]) := by
  have hneed := le_minRecLen (utf8Encode name).length
  have hslack : e.ideal+e.slack = e.recLen := by
    have := hs.ideal_le
    simp only [DirEntry.slack]
    omega
  by_cases hi : e.inode = 0
  · have hideal : e.ideal = 0 := if_pos hi
    rw [splitEntry_eq he fun h => absurd hi h,if_pos hi]
    obtain ⟨hchain,hlive⟩ := chain_writeRecord hino hino' hs.2.1 (by omega) hname hend
    refine ⟨_,fun i h => get_writeRecord_out (by omega),hchain,?_⟩
    rw [hlive,live_cons,if_pos hi]
    exact .refl _
  have hideal : e.ideal = minRecLen e.nameLen := if_neg hi
  have hlen := le_minRecLen e.nameLen
  rw [← hideal] at hlen
  have h4 := hs.2.1
  rw [splitEntry_eq he fun _ => by omega,if_neg hi]
  obtain ⟨hnew,hnlive⟩ := @chain_writeRecord b (e.pos+e.ideal) e.slack ino name hino hino' (by omega)
    (by omega) hname (by omega)
  have hbefore : ∀ i, i < e.pos+e.ideal ∨ e.pos+e.recLen ≤ i →
      (writeRecord b (e.pos+e.ideal) ino e.slack name).get i = b.get i :=
    fun i h => get_writeRecord_out (by omega)
  generalize writeRecord b (e.pos+e.ideal) ino e.slack name = c at hnew hnlive hbefore ⊢
  have hafter : ∀ i, e.pos+e.ideal ≤ i →
      (writeHeader c e.pos e.inode e.ideal e.nameLen).get i = c.get i :=
    fun i h => get_writeHeader_out (.inr (by omega))
  have hkept : entryAt c e.pos = e := by
    refine (entryAt_congr (n := e.ideal) (by omega) ?_ ?_).trans he.symm
    · rw [← he]
      exact fun _ => hlen.1
    · exact fun i _ h => hbefore i (.inl h)
  have hraw : live c [e] = live b [e] := by
    have : e.rawName c = e.rawName b := bytes_congr fun i _ h => hbefore i (.inl (by omega))
    rw [live_cons,live_cons,this]
    rfl
  obtain ⟨hdonor,hdlive⟩ := @chain_resize c e.pos e.ideal
    (by rw [hkept]; exact ⟨by simp only [DirEntry.resize]; omega,hlen.2,fun _ => hlen.1⟩) (by omega)
  rw [hkept] at hdonor hdlive
  refine ⟨[e.resize e.ideal] ++ [freshEntry (e.pos+e.ideal) ino e.slack name],?_,?_,?_⟩
  · intro i h
    rw [get_writeHeader_out (by omega),hbefore i (by omega)]
  · refine chain_append.mpr ⟨_,hdonor,?_⟩
    rw [← hslack,← Nat.add_assoc]
    exact hnew.congr fun i h _ => hafter i h
  · rw [live_append,hdlive,hraw,hnew.live_congr fun i h _ => hafter i h,hnlive]
    exact perm_append_singleton _ _

variable {pre post : List DirEntry}

theorem chain_splitEntry
    (h : Chain b 0 (pre ++ e :: post) blockSize) (hino : 0 < ino) (hino' : ino < 4294967296)
    (hname : (utf8Encode name).length < 256) (hroom : minRecLen (utf8Encode name).length ≤ e.slack) :
    ∃ es, Chain (splitEntry b e name ino) 0 es blockSize ∧
      (live (splitEntry b e name ino) es).Perm ((utf8Encode name,ino) :: live b (pre ++ e :: post)) := by
  obtain ⟨lo,hi,⟨he,hs,hlohi⟩,hstop,hsplice⟩ := @Chain.splice b pre [e] post blockSize h
  obtain rfl : lo = e.pos := by rw [he]; rfl
  obtain rfl : e.pos+e.recLen = hi := hlohi
  obtain ⟨new,hout,hnew,hlive⟩ := splitEntry_edits he hs hstop hino hino' hname hroom
  obtain ⟨hchain,heq⟩ := hsplice _ _ hout hnew
  have hold : live b (pre ++ e :: post) = live b pre ++ (live b [e] ++ live b post) := by
    rw [← live_append,← live_append]
    rfl
  refine ⟨_,hchain,?_⟩
  rw [heq,hold]
  exact ((hlive.append_right _).append_left _).trans perm_middle

/-! ### Removal -/

theorem removeFrom_cons (prev : Option Nat) (h : e.isNamed name = false) :
    removeFrom b name prev (e :: es) = removeFrom b name (some e.pos) es := by
  cases prev <;> simp [removeFrom,h]

theorem removeFrom_absent (prev : Option Nat)
    (h : ∀ e ∈ es, e.isNamed name = false) : removeFrom b name prev es = (none,b) := by
  induction es generalizing prev with
  | nil => rfl
  | cons e es ih =>
    rw [removeFrom_cons prev (h e (by simp))]
    exact ih _ fun e' he' => h e' (by simp [he'])

theorem removeFrom_append {q : DirEntry}
    (prev : Option Nat) (h : ∀ e ∈ pre ++ [q], e.isNamed name = false) :
    removeFrom b name prev ((pre ++ [q]) ++ es) = removeFrom b name (some q.pos) es := by
  induction pre generalizing prev with
  | nil => exact removeFrom_cons prev (h q (by simp))
  | cons p pre ih =>
    rw [cons_append,cons_append,removeFrom_cons prev (h p (by simp))]
    exact ih _ fun e he => h e (by simp at he ⊢; exact .inr he)

theorem chain_remove_first
    (h : Chain b 0 (e :: post) blockSize) (he : e.isNamed name = true) (hne : e.inode ≠ 0) :
    ∃ c es, removeFrom b name none (e :: post) = (some e.inode,c) ∧ Chain c 0 es blockSize ∧
      (live b (e :: post)).Perm ((e.rawName b,e.inode) :: live c es) := by
  obtain ⟨lo,hi,⟨hentry,hs,hlohi⟩,hstop,hsplice⟩ := @Chain.splice b [] [e] post blockSize h
  obtain rfl : lo = e.pos := by rw [hentry]; rfl
  obtain rfl : e.pos+e.recLen = hi := hlohi
  have h8 := hs.1
  obtain ⟨hnew,hnlive⟩ := @chain_clear b e.pos _ h8 hs.2.1 hstop
  obtain ⟨hchain,heq⟩ := hsplice _ _ (fun i h => get_writeHeader_out (by omega)) hnew
  refine ⟨_,_,by simp [removeFrom,he],hchain,?_⟩
  rw [heq,hnlive,live_cons,if_neg hne]
  exact .refl _

theorem chain_remove_next {q : DirEntry}
    (h : Chain b 0 (pre ++ ([q,e] ++ post)) blockSize) (he : e.isNamed name = true) (hne : e.inode ≠ 0) :
    ∃ c es, removeFrom b name (some q.pos) (e :: post) = (some e.inode,c) ∧ Chain c 0 es blockSize ∧
      (live b (pre ++ ([q,e] ++ post))).Perm ((e.rawName b,e.inode) :: live c es) := by
  obtain ⟨lo,hi,⟨hq,hqs,hentry,hs,hlohi⟩,hstop,hsplice⟩ := Chain.splice h
  obtain rfl : lo = q.pos := by rw [hq]; rfl
  obtain rfl : q.pos+q.recLen+e.recLen = hi := hlohi
  have h8 := hqs.1
  have hsize : ((entryAt b q.pos).resize (q.recLen+e.recLen)).Sound := by
    rw [← hq]
    have := hqs.2.1
    have := hs.2.1
    refine ⟨by simp only [DirEntry.resize]; omega,by simp only [DirEntry.resize]; omega,?_⟩
    intro hqi
    have := hqs.2.2 hqi
    simp only [DirEntry.resize]
    omega
  obtain ⟨hnew,hnlive⟩ := chain_resize hsize (by omega)
  rw [← hq,← Nat.add_assoc] at hnew
  rw [← hq] at hnlive
  obtain ⟨hchain,heq⟩ := hsplice _ _ (fun i h => get_writeHeader_out (by omega)) hnew
  have hremove : removeFrom b name (some q.pos) (e :: post) =
      (some e.inode,writeHeader b q.pos q.inode (q.recLen+e.recLen) q.nameLen) := by
    have hhead : readHeader b q.pos = ⟨q.inode,q.recLen,q.nameLen⟩ := by
      conv_rhs => rw [hq]
      rfl
    simp [removeFrom,he,hhead]
  refine ⟨_,_,hremove,hchain,?_⟩
  have hold : live b [q,e] = live b [q] ++ [(e.rawName b,e.inode)] := by
    rw [show [q,e] = [q] ++ [e] from rfl,live_append]
    congr 1
    rw [live_cons,if_neg hne]
    rfl
  rw [heq,hnlive,live_append,live_append,hold,append_assoc,singleton_append]
  exact (List.Perm.append_left _ perm_middle).trans perm_middle

theorem chain_removeFrom
    (h : Chain b 0 (pre ++ e :: post) blockSize) (hpre : ∀ e' ∈ pre, e'.isNamed name = false)
    (he : e.isNamed name = true) :
    ∃ c es, removeFrom b name none (pre ++ e :: post) = (some e.inode,c) ∧ Chain c 0 es blockSize ∧
      (live b (pre ++ e :: post)).Perm ((e.rawName b,e.inode) :: live c es) := by
  have hne : e.inode ≠ 0 := by
    simp only [DirEntry.isNamed,Bool.and_eq_true,decide_eq_true_eq] at he
    exact he.1
  rcases eq_nil_or_concat pre with rfl | ⟨pre,q,rfl⟩
  · exact chain_remove_first h he hne
  rw [concat_eq_append] at h hpre ⊢
  rw [removeFrom_append none hpre]
  rw [append_assoc] at h ⊢
  exact chain_remove_next h he hne

/-! ### The algebra of a block -/

/-- A block that is accepted, whose live names are texts, no two the same. -/
structure WellFormed (b : Block) (es : List DirEntry) : Prop where
  accepted : iterEntries b = .ok es
  utf8 : ∀ p ∈ live b es, ∃ s, utf8Encode s = p.1
  distinct : ((live b es).map (·.1)).Nodup

theorem mem_live {p : List UInt8 × Nat} :
    p ∈ live b es ↔ ∃ e ∈ es, e.inode ≠ 0 ∧ p = (e.rawName b,e.inode) := by
  simp only [live,mem_map,mem_filter,decide_eq_true_eq,and_assoc]
  exact exists_congr (fun e => and_congr_right (fun _ => and_congr_right (fun _ => eq_comm)))

theorem Chain.name_eq (h : Chain b pos es stop)
    (he : e ∈ es) (hi : e.inode ≠ 0) : e.name = utf8Lossy (e.rawName b) := by
  induction es generalizing pos with
  | nil => cases he
  | cons a es ih =>
    rcases mem_cons.mp he with rfl | he
    · rw [h.1]
      rw [h.1] at hi
      exact if_pos hi
    · exact ih h.2.2 he

theorem WellFormed.isNamed_iff (h : WellFormed b es) (he : e ∈ es) (name : Name) :
    e.isNamed name = true ↔ e.inode ≠ 0 ∧ e.rawName b = utf8Encode name := by
  simp only [DirEntry.isNamed,Bool.and_eq_true,decide_eq_true_eq]
  refine and_congr_right fun hi => ?_
  obtain ⟨s,hs⟩ : ∃ s, utf8Encode s = e.rawName b := h.utf8 _ (mem_live.mpr ⟨e,he,hi,rfl⟩)
  rw [(iterEntries_eq_ok.mp h.accepted).name_eq he hi,← hs,utf8Lossy_utf8Encode]
  exact ⟨fun h => by rw [h],utf8Encode_injective⟩

theorem insertIntoBlock_cases (h : iterEntries b = .ok es)
    (hlo : 1 ≤ (utf8Encode name).length) (hhi : (utf8Encode name).length ≤ 255)
    (hino : 0 < ino) (hino' : ino < 4294967296) : insertIntoBlock b name ino = .ok (false,b) ∧
        (∀ e ∈ es, e.slack < minRecLen (utf8Encode name).length) ∨
      ∃ c es', insertIntoBlock b name ino = .ok (true,c) ∧ iterEntries c = .ok es' ∧
        (live c es').Perm ((utf8Encode name,ino) :: live b es) := by
  have hne : utf8Encode name ≠ [] := by
    intro h
    simp [h] at hlo
  rw [insertIntoBlock,if_neg (by omega),if_neg hne,h]
  dsimp only
  cases hfind : es.find? (fun e => e.slack ≥ minRecLen (utf8Encode name).length) with
  | none =>
    refine .inl ⟨rfl,fun e he => ?_⟩
    simpa using find?_eq_none.mp hfind e he
  | some e =>
    obtain ⟨hroom,pre,post,rfl,-⟩ := find?_eq_some_iff_append.mp hfind
    obtain ⟨es',hchain,hlive⟩ := chain_splitEntry (iterEntries_eq_ok.mp h) hino hino' (by omega)
      (of_decide_eq_true hroom)
    exact .inr ⟨_,es',rfl,iterEntries_eq_ok.mpr hchain,hlive⟩

theorem WellFormed.remove_present (h : WellFormed b es) (hmem : (utf8Encode name,i) ∈ live b es) :
    ∃ c es', removeFromBlock b name = .ok (some i,c) ∧ iterEntries c = .ok es' ∧
      (live b es).Perm ((utf8Encode name,i) :: live c es') := by
  obtain ⟨e,he,hi,hpair⟩ := mem_live.mp hmem
  have hnamed := (h.isNamed_iff he name).mpr ⟨hi,(Prod.mk.inj hpair).1.symm⟩
  -- The loop takes the first record with the name; there is only one.
  obtain ⟨x,hx⟩ : ∃ x, es.find? (·.isNamed name) = some x :=
    Option.isSome_iff_exists.mp (find?_isSome.mpr ⟨e,he,hnamed⟩)
  obtain ⟨hxn,pre,post,rfl,hpre⟩ := find?_eq_some_iff_append.mp hx
  obtain ⟨c,es',hrem,hchain,hlive⟩ := chain_removeFrom (iterEntries_eq_ok.mp h.accepted)
    (fun e' he' => by simpa using hpre e' he') hxn
  obtain ⟨hxi,hxraw⟩ := (h.isNamed_iff (by simp) name).mp hxn
  have hsame : x.inode = i := by
    have hxmem : (utf8Encode name,x.inode) ∈ live b (pre ++ x :: post) :=
      mem_live.mpr ⟨x,by simp,hxi,by rw [hxraw]⟩
    exact (Prod.mk.inj (inj_on_of_nodup_map h.distinct hxmem hmem rfl)).2
  rw [hxraw,hsame] at hlive
  refine ⟨c,es',?_,iterEntries_eq_ok.mpr hchain,hlive⟩
  rw [removeFromBlock,h.accepted]
  simp [hrem,hsame]

theorem WellFormed.remove_absent (h : WellFormed b es)
    (habs : ∀ p ∈ live b es, p.1 ≠ utf8Encode name) : removeFromBlock b name = .ok (none,b) := by
  rw [removeFromBlock,h.accepted]
  dsimp only
  rw [removeFrom_absent]
  intro e he
  refine Bool.eq_false_iff.mpr fun hn => ?_
  obtain ⟨hi,hraw⟩ := (h.isNamed_iff he name).mp hn
  exact habs _ (mem_live.mpr ⟨e,he,hi,rfl⟩) hraw

/-- Insertion and removal on a well-formed block, for every name of 1 to 255
bytes and every inode number. -/
theorem dirBlock_algebra {b : Block} {es : List DirEntry} (h : WellFormed b es) (name : Name)
    (hlo : 1 ≤ (utf8Encode name).length) (hhi : (utf8Encode name).length ≤ 255) (ino : Nat)
    (hino : 0 < ino) (hino' : ino < 4294967296) : (insertIntoBlock b name ino = .ok (false,b) ∧
          (∀ e ∈ es, e.slack < align4 (8+(utf8Encode name).length)) ∨
        ∃ c es', insertIntoBlock b name ino = .ok (true,c) ∧ iterEntries c = .ok es' ∧
          (live c es').Perm ((utf8Encode name,ino) :: live b es)) ∧ (∀ i, (utf8Encode name,i) ∈ live b es →
        ∃ c es', removeFromBlock b name = .ok (some i,c) ∧ iterEntries c = .ok es' ∧
          (live b es).Perm ((utf8Encode name,i) :: live c es')) ∧
      ((∀ p ∈ live b es, p.1 ≠ utf8Encode name) → removeFromBlock b name = .ok (none,b)) :=
  ⟨insertIntoBlock_cases h.accepted hlo hhi hino hino',fun _ hmem => h.remove_present hmem,h.remove_absent⟩

def dotEntries (selfIno parentIno : Nat) : List DirEntry :=
  [⟨0,selfIno,12,1,['.']⟩,⟨12,parentIno,4084,2,['.','.']⟩]

theorem dotEntries_wellFormed : WellFormed (initDotEntries 12 2) (dotEntries 12 2) where
  accepted := by decide +kernel
  utf8 := by
    have hlive : live (initDotEntries 12 2) (dotEntries 12 2) =
        [(utf8Encode ['.'],12),(utf8Encode ['.','.'],2)] := by decide +kernel
    rw [hlive]
    intro p hp
    simp only [mem_cons,not_mem_nil,or_false] at hp
    rcases hp with rfl | rfl
    · exact ⟨['.'],rfl⟩
    · exact ⟨['.','.'],rfl⟩
  distinct := by decide +kernel

/-- The entry `.` goes, and `..` stays. -/
theorem dotBlock_remove : ∃ c es, removeFromBlock (initDotEntries 12 2) ['.'] = .ok (some 12,c) ∧
    iterEntries c = .ok es ∧ (live (initDotEntries 12 2) (dotEntries 12 2)).Perm
      ((utf8Encode ['.'],12) :: live c es) :=
  (dirBlock_algebra dotEntries_wellFormed ['.'] (by decide) (by decide) 11 (by decide)
    (by decide)).2.1 12 (by decide +kernel)

end PaghOS.Ext2
