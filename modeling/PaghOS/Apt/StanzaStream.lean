import PaghOS.Apt.Stanza

/-!
The stanzas a `Packages` text is cut into do not depend on how its bytes arrive, and
the owned records and the borrowed views of them say the same.
-/

namespace PaghOS.Apt
open List StanzaBuilder

open Text

namespace StanzaParser

section Chunks

variable {σ : Type} (consume : σ → StanzaBuilder → σ)

theorem pushFrom_carry (p : StanzaParser) (line bytes : List UInt8) (s : σ) :
    pushFrom consume p line bytes s = pushFrom consume { p with carry := [] } (p.carry ++ line) bytes s := by
  induction bytes generalizing line with
  | nil => simp [pushFrom]
  | cons b bytes ih =>
    simp only [pushFrom]
    split
    · rfl
    · rw [ih,append_assoc]

theorem pushFrom_append (p : StanzaParser) (line a b : List UInt8) (s : σ) :
    pushFrom consume p line (a ++ b) s =
      pushWith consume (pushFrom consume p line a s).1 b (pushFrom consume p line a s).2 := by
  induction a generalizing p line s with
  | nil =>
    rw [nil_append,pushFrom_carry]
    simp only [pushFrom,pushWith]
    rw [pushFrom_carry consume { p with carry := p.carry ++ line },append_nil]
  | cons c a ih =>
    simp only [cons_append,pushFrom]
    split
    · exact ih _ _ _
    · exact ih _ _ _

theorem foldl_pushWith (chunks : List (List UInt8)) (out : StanzaParser × σ) :
    chunks.foldl (fun out chunk => pushWith consume out.1 chunk out.2) out =
      pushFrom consume out.1 [] chunks.flatten out.2 := by
  induction chunks generalizing out with
  | nil => simp [pushFrom]
  | cons chunk chunks ih =>
    rw [foldl_cons,ih,flatten_cons,pushFrom_append]
    rfl

theorem stream_flatten (chunks : List (List UInt8)) (s : σ) :
    stream consume chunks s = stream consume [chunks.flatten] s := by
  simp only [stream,foldl_pushWith,flatten_singleton]

end Chunks

section Consumers

variable {σ τ : Type} {consume : σ → StanzaBuilder → σ} {consume' : τ → StanzaBuilder → τ}
  {f : σ → τ}

section
variable (hf : ∀ s b, f (consume s b) = consume' (f s) b)
include hf

theorem processLine_map (p : StanzaParser)
    (raw : List UInt8) (s : σ) : processLine consume' p raw (f s) =
      ((processLine consume p raw s).1,f (processLine consume p raw s).2) := by
  simp only [processLine]
  split
  · split
    · rfl
    · rw [hf]
  · rfl

theorem pushFrom_map (p : StanzaParser)
    (line bytes : List UInt8) (s : σ) : pushFrom consume' p line bytes (f s) =
      ((pushFrom consume p line bytes s).1,f (pushFrom consume p line bytes s).2) := by
  induction bytes generalizing p line s with
  | nil => rfl
  | cons b bytes ih =>
    simp only [pushFrom]
    split
    · rw [processLine_map hf,ih]
    · exact ih _ _ _

theorem finishWith_map (p : StanzaParser) (s : σ) :
    finishWith consume' p (f s) = f (finishWith consume p s) := by
  simp only [finishWith]
  by_cases hcarry : p.carry = []
  · simp only [hcarry,if_true]
    split
    · rfl
    · rw [hf]
  simp only [hcarry,if_false,processLine_map hf]
  split
  · rfl
  · rw [hf]

theorem stream_map (chunks : List (List UInt8))
    (s : σ) : stream consume' chunks (f s) = f (stream consume chunks s) := by
  simp [stream,foldl_pushWith,pushFrom_map hf,finishWith_map hf]

end

end Consumers

def flushed (chunks : List (List UInt8)) : List StanzaBuilder :=
  stream (fun bs b => bs ++ [b]) chunks []

theorem stream_eq_foldl {σ : Type} (consume : σ → StanzaBuilder → σ) (chunks : List (List UInt8))
    (s : σ) : stream consume chunks s = (flushed chunks).foldl consume s :=
  stream_map (f := fun bs => bs.foldl consume s) (by simp) chunks []

end StanzaParser

namespace StanzaBuilder

def Trimmed (b : StanzaBuilder) : Prop := ∀ f v, b.slot f = some v → trim v = v

theorem slot_setSlot (b : StanzaBuilder) (v : List Char) (f g : CurField) :
    (b.setSlot v f).slot g = if g = f ∧ f ≠ .none then some v else b.slot g := by
  cases f <;> cases g <;> rfl

theorem trimmed_setSlot {b : StanzaBuilder} (hb : b.Trimmed) {v : List Char} (hv : trim v = v)
    (f : CurField) : (b.setSlot v f).Trimmed := by
  intro g w hw
  rw [slot_setSlot] at hw
  split at hw
  · rw [← Option.some.inj hw]
    exact hv
  · exact hb g w hw

theorem trimmed_new : Trimmed {} := by
  intro f v h
  cases f <;> simp_all [slot,trim,trimBoth]

theorem trimmed_continuation {b : StanzaBuilder} (hb : b.Trimmed) {cont : List Char}
    (hc : trim cont = cont) : (b.continuation cont).Trimmed := by
  simp only [continuation]
  split
  · exact hb
  rename_i v hv
  split
  · exact hb
  rename_i hne
  apply trimmed_setSlot hb
  split
  · exact hc
  · rename_i hvne
    have hjoin := trimBoth_join isWhitespace [' '] (hb _ _ hv) hc hvne hne
    simpa [trim] using hjoin

theorem trimmed_feed {b : StanzaBuilder} (hb : b.Trimmed) (line : List Char) : (b.feed line).Trimmed := by
  simp only [feed]
  split
  · exact trimmed_continuation hb (trimBoth_idem _ _)
  split
  · exact hb
  rename_i key value hsplit
  split
  · exact hb
  apply trimmed_setSlot
  · intro f v hv
    apply hb f v
    cases f <;> exact hv
  simp only [splitColon] at hsplit
  split at hsplit
  · simp only [Option.some.injEq,Prod.mk.injEq] at hsplit
    rw [← hsplit.2]
    exact trimBoth_idem _ _
  · cases hsplit

end StanzaBuilder

namespace StanzaParser

section Invariant

variable {σ : Type} {consume : σ → StanzaBuilder → σ} {P : σ → Prop}
variable {p : StanzaParser} {s : σ}

theorem processLine_trimmed (hP : ∀ s b, b.Trimmed → P s → P (consume s b))
    (hp : p.builder.Trimmed) (raw : List UInt8) (hs : P s) :
    (processLine consume p raw s).1.builder.Trimmed ∧ P (processLine consume p raw s).2 := by
  simp only [processLine]
  split
  · split
    · exact ⟨hp,hs⟩
    · exact ⟨trimmed_new,hP s _ hp hs⟩
  · exact ⟨trimmed_feed hp _,hs⟩

theorem pushFrom_trimmed (hP : ∀ s b, b.Trimmed → P s → P (consume s b))
    (hp : p.builder.Trimmed) (line bytes : List UInt8) (hs : P s) :
    (pushFrom consume p line bytes s).1.builder.Trimmed ∧ P (pushFrom consume p line bytes s).2 := by
  induction bytes generalizing p line s with
  | nil => exact ⟨hp,hs⟩
  | cons b bytes ih =>
    simp only [pushFrom]
    split
    · have hline := processLine_trimmed hP (p := { p with carry := [] }) hp (p.carry ++ line) hs
      exact ih hline.1 _ hline.2
    · exact ih hp _ hs

theorem finishWith_trimmed (hP : ∀ s b, b.Trimmed → P s → P (consume s b))
    (hp : p.builder.Trimmed) (hs : P s) : P (finishWith consume p s) := by
  have hlast : ∀ out : StanzaParser × σ, out.1.builder.Trimmed → P out.2 →
      P (if out.1.builder.isEmpty then out.2 else consume out.2 out.1.builder) := by
    intro out hout hs
    split
    · exact hs
    · exact hP _ _ hout hs
  apply hlast
  · split
    · exact hp
    · exact (processLine_trimmed hP (p := { p with carry := [] }) hp p.carry hs).1
  · split
    · exact hs
    · exact (processLine_trimmed hP (p := { p with carry := [] }) hp p.carry hs).2

end Invariant

theorem flushed_trimmed (chunks : List (List UInt8)) : ∀ b ∈ flushed chunks, b.Trimmed := by
  have hP : ∀ (bs : List StanzaBuilder) (b : StanzaBuilder), b.Trimmed →
      (∀ c ∈ bs, c.Trimmed) → ∀ c ∈ bs ++ [b], c.Trimmed := by
    intro bs b hb hbs c hc
    rcases mem_append.mp hc with h | h
    · exact hbs c h
    · rw [mem_singleton.mp h]
      exact hb
  have hpush := pushFrom_trimmed hP (p := {}) trimmed_new [] chunks.flatten
    (s := []) (by simp)
  simp only [flushed,stream,foldl_pushWith]
  exact finishWith_trimmed hP hpush.1 hpush.2

end StanzaParser

theorem parseDepends_eq (value : List Char) : parseDepends value =
      (((value.splitOn ',').map DepGroupView.mk).filter (fun g => !g.isEmpty)).map fun g => ⟨g.alts⟩ := by
  rw [parseDepends,filter_map,map_map]
  induction value.splitOn ',' with
  | nil => rfl
  | cons part parts ih =>
    rw [filterMap_cons,ih]
    cases h : bareNames '|' part <;> simp [DepGroupView.isEmpty,DepGroupView.alts,h]

theorem parseDepends_nil : parseDepends [] = [] := by decide

theorem parseProvides_nil : parseProvides [] = [] := by decide

theorem guarded_eq {α : Type} {g : List Char → List α} (hg : g [] = []) (value : List Char) :
    (if value = [] then [] else g value) = g value := by
  split
  · simp [*]
  · rfl

namespace StanzaBuilder

def view (b : StanzaBuilder) : Option StanzaView :=
  if h : b.hasPackage = true then some ⟨b,h⟩ else none

theorem buildRecord_eq {b : StanzaBuilder} (hb : b.Trimmed) :
    b.buildRecord = b.view.map StanzaView.record := by
  by_cases hpkg : b.hasPackage = true
  · have hpre : StanzaView.field ⟨b,hpkg⟩ "Pre-Depends".toList = b.preDepends :=
      hb .preDepends _ rfl
    have hdep : StanzaView.field ⟨b,hpkg⟩ "Depends".toList = b.depends := hb .depends _ rfl
    have hprov : StanzaView.field ⟨b,hpkg⟩ "Provides".toList = b.provides := hb .provides _ rfl
    have hgroups : (StanzaView.record ⟨b,hpkg⟩).depends =
        parseDepends b.preDepends ++ parseDepends b.depends := by
      simp only [StanzaView.record,StanzaView.depends,hpre,hdep,parseDepends_eq,map_append,filter_append]
    have hnames : (StanzaView.record ⟨b,hpkg⟩).provides = parseProvides b.provides := by
      simp only [StanzaView.record,StanzaView.provides,hprov,parseProvides]
    have hne : trim b.package ≠ [] := by simpa [hasPackage] using hpkg
    simp only [buildRecord,guarded_eq parseDepends_nil,guarded_eq parseProvides_nil,view,hpkg,
      dif_pos,Option.map_some,if_neg hne]
    rw [← hgroups,← hnames]
    rfl
  · have hnil : trim b.package = [] := by simpa [hasPackage] using hpkg
    simp [buildRecord,view,hpkg,hnil]

end StanzaBuilder

namespace StanzaParser

def views (chunks : List (List UInt8)) : List StanzaView :=
  (flushed chunks).filterMap StanzaBuilder.view

section Sinks

variable {σ : Type} (chunks : List (List UInt8))

theorem viewSink_eq (emit : σ → StanzaView → σ) (s : σ) (b : StanzaBuilder) :
    viewSink emit s b = b.view.elim s (emit s) := by
  simp only [viewSink,StanzaBuilder.view]
  split <;> rfl

theorem foldl_viewSink (emit : σ → StanzaView → σ) (bs : List StanzaBuilder) (s : σ) :
    bs.foldl (viewSink emit) s = (bs.filterMap StanzaBuilder.view).foldl emit s := by
  induction bs generalizing s with
  | nil => rfl
  | cons b bs ih =>
    rw [foldl_cons,ih,viewSink_eq,filterMap_cons]
    cases b.view <;> rfl

theorem streamViews_eq (emit : σ → StanzaView → σ) (s : σ) :
    streamViews emit chunks s = (views chunks).foldl emit s := by
  rw [streamViews,stream_eq_foldl,foldl_viewSink,views]

theorem ownedSink_eq (emit : σ → PkgRecord → σ) {b : StanzaBuilder} (hb : b.Trimmed) (s : σ) :
    ownedSink emit s b = viewSink (fun s v => emit s v.record) s b := by
  rw [ownedSink,buildRecord_eq hb,viewSink_eq]
  cases b.view <;> rfl

theorem foldl_ownedSink (emit : σ → PkgRecord → σ) {bs : List StanzaBuilder}
    (hbs : ∀ b ∈ bs, b.Trimmed) (s : σ) :
    bs.foldl (ownedSink emit) s = bs.foldl (viewSink fun s v => emit s v.record) s := by
  induction bs generalizing s with
  | nil => rfl
  | cons b bs ih =>
    rw [foldl_cons,foldl_cons,ownedSink_eq emit (hbs b (by simp)),ih (fun c hc => hbs c (by simp [hc]))]

theorem streamRecords_eq (emit : σ → PkgRecord → σ) (s : σ) :
    streamRecords emit chunks s = ((views chunks).map StanzaView.record).foldl emit s := by
  rw [streamRecords,stream_eq_foldl,foldl_ownedSink emit (flushed_trimmed chunks),foldl_viewSink,
    views,foldl_map]

end Sinks

theorem flushed_flatten (chunks : List (List UInt8)) : flushed [chunks.flatten] = flushed chunks :=
  (stream_flatten _ chunks []).symm

theorem parsePackages_flatten (chunks : List (List UInt8)) :
    parsePackages chunks.flatten = (views chunks).map StanzaView.record := by
  have hcollect : ∀ records out : List PkgRecord,
      records.foldl (fun out rec => out ++ [rec]) out = out ++ records := by
    intro records
    induction records with
    | nil => simp
    | cons rec records ih => simp [ih]
  rw [parsePackages,streamRecords_eq,hcollect,views,flushed_flatten]
  rfl

/-- However a text is cut into chunks, the record path emits the records of the whole
text, and the view path shows one view for each record, answering what it holds. -/
theorem stream_eq_parsePackages (chunks : List (List UInt8)) :
    (∀ (σ : Type) (emit : σ → PkgRecord → σ) (s : σ),
      streamRecords emit chunks s = (parsePackages chunks.flatten).foldl emit s) ∧
    ∃ shown : List StanzaView, shown.map StanzaView.record = parsePackages chunks.flatten ∧
      ∀ (σ : Type) (emit : σ → StanzaView → σ) (s : σ), streamViews emit chunks s = shown.foldl emit s := by
  rw [parsePackages_flatten]
  refine ⟨?_,views chunks,rfl,?_⟩
  · intro σ emit s
    exact streamRecords_eq chunks emit s
  · intro σ emit s
    exact streamViews_eq chunks emit s

end StanzaParser

end PaghOS.Apt
