import PaghOS.Terminal.Emulator

namespace PaghOS.Terminal
open Loop Option

variable {x y i lo hi row n : Nat} {f b : UInt8} {m : UInt32}

/-- The grid and the cursor as every access of the emulator assumes them. -/
structure Fits (cols rows : Nat) (vt : Vt) : Prop where
  cols_eq : vt.cols = cols
  rows_eq : vt.rows = rows
  cells_length : vt.cells.length = cols*rows
  cx_le : vt.cx ≤ cols
  cy_lt : vt.cy < rows
  savedCx_le : vt.savedCx ≤ cols
  savedCy_lt : vt.savedCy < rows
  scrollTop_le : vt.scrollTop ≤ vt.scrollBot
  scrollBot_lt : vt.scrollBot < rows
  np_le : vt.np ≤ 16

/-- Only cells may differ, and the grid keeps its size. -/
def Redrawn (vt t : Vt) : Prop :=
  ∃ cells : List Cell, cells.length = vt.cells.length ∧ t = { vt with cells := cells }

theorem Redrawn.refl (vt : Vt) : Redrawn vt vt := ⟨vt.cells,rfl,rfl⟩

theorem Redrawn.trans {vt t u : Vt} (h : Redrawn vt t) (k : Redrawn t u) : Redrawn vt u := by
  obtain ⟨cs,hcs,rfl⟩ := h
  obtain ⟨ds,hds,rfl⟩ := k
  exact ⟨ds,hds.trans hcs,rfl⟩

variable {cols rows : Nat} {vt t : Vt}

theorem Fits.redrawn (h : Fits cols rows vt) (k : Redrawn vt t) : Fits cols rows t := by
  obtain ⟨cs,hcs,rfl⟩ := k
  exact { h with cells_length := hcs.trans h.cells_length }

theorem Fits.new (hr : 1 ≤ rows) : Fits cols rows (Vt.new cols rows) := by
  constructor <;> simp [Vt.new] <;> omega

theorem idx_lt (hx : x < cols) (hy : y < rows) : y*cols+x < cols*rows := by
  calc y*cols+x < y*cols+cols := by omega
    _ = (y+1)*cols := by rw [Nat.succ_mul]
    _ ≤ rows*cols := Nat.mul_le_mul_right cols hy
    _ = cols*rows := Nat.mul_comm _ _

theorem Fits.idx_lt (h : Fits cols rows vt) (hx : x < cols) (hy : y < rows) :
    vt.idx x y < vt.cells.length := by
  rw [h.cells_length,Vt.idx,h.cols_eq]
  exact Terminal.idx_lt hx hy

theorem Fits.le_idx (h : Fits cols rows vt) (hi : cols*rows ≤ y*cols+x) :
    vt.cells.length ≤ vt.idx x y := by
  rwa [h.cells_length,Vt.idx,h.cols_eq]

theorem setCell_redraws (c : Cell) (hi : i < vt.cells.length) :
    Returns (vt.setCell i c) (Redrawn vt) := by
  rw [Vt.setCell,if_pos hi]
  exact .pure ⟨_,by simp,rfl⟩

theorem Fits.get_returns (h : Fits cols rows vt) (hx : x < cols) (hy : y < rows) :
    Returns (vt.get x y) (fun _ => True) :=
  ⟨_,List.getElem?_eq_getElem (h.idx_lt hx hy),trivial⟩

theorem setCell_inv {c : Cell} (h : vt.setCell i c = some t) : Redrawn vt t := by
  unfold Vt.setCell at h
  split at h
  · cases h
    exact ⟨_,by simp,rfl⟩
  · cases h

section Rows
variable {f : Nat → Vt → Option Vt} (h : Fits cols rows vt)
  (hf : ∀ i t, lo ≤ i → i < hi → Redrawn vt t → Fits cols rows t → Returns (f i t) (Redrawn t))
include h hf

theorem forRange_redraws : Returns (forRange lo hi f vt) (Redrawn vt) := by
  refine forRange_returns (fun i t h₁ h₂ ht => ?_) (Redrawn.refl vt)
  exact (hf i t h₁ h₂ ht (h.redrawn ht)).mono fun u hu => ht.trans hu

theorem forRangeRev_redraws : Returns (forRangeRev lo hi f vt) (Redrawn vt) := by
  refine forRangeRev_returns (fun i t h₁ h₂ ht => ?_) (Redrawn.refl vt)
  exact (hf i t h₁ h₂ ht (h.redrawn ht)).mono fun u hu => ht.trans hu

end Rows

theorem Returns.redraw_bind {m : Option Vt} {f : Vt → Option Vt}
    (h : Fits cols rows vt) (hm : Returns m (Redrawn vt))
    (hf : ∀ t, Redrawn vt t → Fits cols rows t → Returns (f t) (Redrawn t)) :
    Returns (m >>= f) (Redrawn vt) :=
  Returns.bind hm (fun t ht => (hf t ht (h.redrawn ht)).mono (fun _ hu => ht.trans hu))

section Feed
variable (h : Fits cols rows vt)
include h

theorem blit_redraws (hx : x < cols) (hy : y < rows) : Returns (vt.blit x y) (Redrawn vt) :=
  Returns.bind (h.get_returns hx hy) fun _ _ => .pure (Redrawn.refl vt)

theorem paintAll_redraws : Returns vt.paintAll (Redrawn vt) := by
  refine forRange_redraws h fun row t _ hrow _ ht => ?_
  refine forRange_redraws ht fun col u _ hcol _ hu => ?_
  rw [h.rows_eq] at hrow
  rw [h.cols_eq] at hcol
  exact blit_redraws hu hcol hrow

theorem put_redraws (c : Cell) (hx : x < cols) (hy : y < rows) : Returns (vt.put x y c) (Redrawn vt) :=
  setCell_redraws c (h.idx_lt hx hy)

theorem copyRow_redraws {src : Nat} (hs : src < rows)
    (hr : row < rows) : Returns (vt.copyRow src row) (Redrawn vt) := by
  refine forRange_redraws h fun col t _ hcol _ ht => ?_
  rw [h.cols_eq] at hcol
  exact Returns.bind (ht.get_returns hcol hs) fun c _ => put_redraws ht c hcol hr

theorem blankRow_redraws (hr : row < rows) : Returns (vt.blankRow row) (Redrawn vt) := by
  refine forRange_redraws h fun col t _ hcol _ ht => ?_
  rw [h.cols_eq] at hcol
  exact put_redraws ht _ hcol hr

theorem copyRow_panics (hc : 1 ≤ cols) (row : Nat) : vt.copyRow rows row = none := by
  have hpos : 0 < vt.cols := by rw [h.cols_eq]; omega
  refine forRange_panics (Nat.zero_le 0) hpos (I := Redrawn vt) ?_ ?_ (Redrawn.refl vt)
  · intro col t u ht hu
    simp only [bind_eq_bind,bind_eq_some_iff] at hu
    obtain ⟨c,-,hu⟩ := hu
    exact ht.trans (setCell_inv hu)
  · intro t ht
    have hlen := (h.redrawn ht).le_idx (x := 0) (y := rows) (by rw [Nat.mul_comm]; omega)
    simp [Vt.get,List.getElem?_eq_none hlen]

omit h in
/-- The scroll that reads below the grid: a full-height region shifted by at
least its height, where `bot.saturating_sub(n)` stops at row zero. -/
def OverScroll (vt : Vt) (n : Nat) : Prop :=
  vt.scrollTop = 0 ∧ vt.scrollBot = vt.rows-1 ∧ 1 < vt.rows ∧ vt.rows ≤ n

omit h in
instance (vt : Vt) (n : Nat) : Decidable (OverScroll vt n) := by
  unfold OverScroll
  infer_instance

theorem scrollUp_redraws (hn : ¬ OverScroll vt n) : Returns (vt.scrollUp n) (Redrawn vt) := by
  have hbot := h.scrollBot_lt
  have hrows := h.rows_eq
  unfold OverScroll at hn
  unfold Vt.scrollUp
  dsimp only
  split
  · exact .pure (Redrawn.refl vt)
  rename_i hlt
  simp only [usub_of_le (Nat.le_of_lt (Nat.lt_of_not_ge hlt)),bind_eq_bind,bind_some]
  refine Returns.redraw_bind h (forRange_redraws h (fun row t h₁ h₂ _ ht =>
    copyRow_redraws ht (by omega) (by omega))) fun t _ ht => ?_
  refine Returns.redraw_bind ht (forRange_redraws ht (fun row u h₁ h₂ _ hu =>
    blankRow_redraws hu (by omega))) fun u _ hu => ?_
  exact paintAll_redraws hu

theorem scrollUp_panics (hc : 1 ≤ cols) (hn : OverScroll vt n) : vt.scrollUp n = none := by
  obtain ⟨htop,hbot,hrows,hle⟩ := hn
  have hn : min n (vt.rows-1-0+1) = vt.rows := by omega
  have hsub : vt.rows-1-vt.rows+1 = 1 := by omega
  have hpos : ¬ 0 ≥ vt.rows-1 := by omega
  have hrow := copyRow_panics h hc 0
  rw [← h.rows_eq] at hrow
  have hfirst : forRange 0 1 (fun row t => t.copyRow (row+vt.rows) row) vt = none := by
    simp [forRange,upFrom,hrow]
  simp only [Vt.scrollUp,htop,hbot,hpos,if_false,usub_of_le (Nat.zero_le _),
    bind_eq_bind,bind_some,hn,hsub,hfirst,bind_none]

omit h in
theorem not_overScroll_one : ¬ OverScroll vt 1 := by
  rintro ⟨-,-,h₁,h₂⟩
  omega

theorem scrollDn_redraws (n : Nat) : Returns (vt.scrollDn n) (Redrawn vt) := by
  have hbot := h.scrollBot_lt
  unfold Vt.scrollDn
  dsimp only
  split
  · exact .pure (Redrawn.refl vt)
  rename_i hlt
  simp only [usub_of_le (Nat.le_of_lt (Nat.lt_of_not_ge hlt)),bind_eq_bind,bind_some]
  refine Returns.redraw_bind h (forRangeRev_redraws h fun row t h₁ h₂ _ ht => ?_)
    (fun t _ ht => ?_)
  · rw [usub_of_le (by omega : _ ≤ row)]
    exact copyRow_redraws ht (by omega) (by omega)
  refine Returns.redraw_bind ht (forRange_redraws ht (fun row u h₁ h₂ _ hu =>
    blankRow_redraws hu (by omega))) fun u _ hu => ?_
  exact paintAll_redraws hu

theorem eraseDisp_redraws (m : UInt32) : Returns (vt.eraseDisp m) (Redrawn vt) := by
  unfold Vt.eraseDisp
  refine Returns.redraw_bind h (forRange_redraws h fun i t _ hi ht _ => ?_)
    (fun t _ ht => paintAll_redraws ht)
  obtain ⟨cs,hcs,rfl⟩ := ht
  exact setCell_redraws _ (by simp only; omega)

omit h in
/-- Erasing to the cursor while a wrap is pending on the last row: column
`cols` of that row is no cell. -/
def EraseAtWrap (vt : Vt) (m : UInt32) : Prop := m = 1 ∧ vt.cx = vt.cols ∧ vt.cy = vt.rows-1

omit h in
instance (vt : Vt) (m : UInt32) : Decidable (EraseAtWrap vt m) := by
  unfold EraseAtWrap
  infer_instance

theorem Fits.idx_lt_of_wrap (hc : 1 ≤ cols) (hx : x ≤ cols)
    (hy : y < rows) (hlast : ¬ (x = cols ∧ y = rows-1)) : vt.idx x y < vt.cells.length := by
  by_cases hxc : x < cols
  · exact h.idx_lt hxc hy
  have hxe : x = cols := by omega
  have hnext := h.idx_lt (x := 0) (y := y+1) (by omega) (by omega)
  rw [Vt.idx,h.cols_eq,Nat.succ_mul] at hnext
  rw [Vt.idx,h.cols_eq,hxe]
  omega

theorem eraseLine_redraws (hc : 1 ≤ cols)
    (hm : ¬ EraseAtWrap vt m) : Returns (vt.eraseLine m) (Redrawn vt) := by
  have hcols := h.cols_eq
  have hrows := h.rows_eq
  have hcx := h.cx_le
  unfold EraseAtWrap at hm
  refine forRange_redraws h fun col t _ hcol hrt ht => ?_
  obtain ⟨cs,hcs,rfl⟩ := hrt
  apply setCell_redraws
  refine ht.idx_lt_of_wrap hc (y := vt.cy) ?_ h.cy_lt ?_ <;> split at hcol <;>
    simp only [true_and] at hm hcol ⊢ <;> omega

theorem eraseLine_panics (hm : EraseAtWrap vt m) : vt.eraseLine m = none := by
  obtain ⟨rfl,hcx,hcy⟩ := hm
  refine forRange_panics (Nat.zero_le vt.cx) (Nat.lt_succ_self _) (I := Redrawn vt) ?_ ?_
    (Redrawn.refl vt)
  · intro i s t hs ht
    exact hs.trans (setCell_inv ht)
  intro t ht
  have hlen : t.cells.length ≤ t.idx vt.cx t.cy := by
    have hrow := h.cy_lt
    have hmul : (rows-1+1)*cols = (rows-1)*cols+cols := Nat.succ_mul _ _
    rw [show rows-1+1 = rows by omega] at hmul
    apply (h.redrawn ht).le_idx
    obtain ⟨cs,-,rfl⟩ := ht
    simp only [hcx,hcy,h.cols_eq,h.rows_eq]
    rw [Nat.mul_comm]
    omega
  simp [Vt.put,Vt.setCell,Nat.not_lt.mpr hlen]

theorem newline_returns : Returns vt.newline (fun t => Fits cols rows t ∧ t.cx = vt.cx) := by
  unfold Vt.newline
  split
  · refine (scrollUp_redraws h not_overScroll_one).mono (fun t ht => ⟨h.redrawn ht,?_⟩)
    obtain ⟨cs,-,rfl⟩ := ht
    rfl
  · have hbot := h.scrollBot_lt
    exact .pure ⟨{ h with cy_lt := by simp only; omega },rfl⟩

theorem putChar_returns (hc : 1 ≤ cols) (b : UInt8) : Returns (vt.putChar b) (Fits cols rows) := by
  have hwrap : Returns (if vt.cx ≥ vt.cols then Vt.newline { vt with cx := 0 } else some vt)
      (fun t => Fits cols rows t ∧ t.cx < cols) := by
    split
    · have h₀ : Fits cols rows { vt with cx := 0 } := { h with cx_le := by simp }
      exact (newline_returns h₀).mono fun t ht => ⟨ht.1,by rw [ht.2]; exact hc⟩
    · have hcols := h.cols_eq
      exact .pure ⟨h,by omega⟩
  refine Returns.bind hwrap fun t ht => ?_
  obtain ⟨ht,hcx⟩ := ht
  refine Returns.bind (put_redraws ht _ hcx ht.cy_lt) fun u hu => ?_
  have hfit := ht.redrawn hu
  obtain ⟨cs,-,rfl⟩ := hu
  exact .pure { hfit with cx_le := hcx }

theorem Fits.recolor (fg bg : UInt32) : Fits cols rows { vt with fg := fg, bg := bg } := { h with }

omit h in
theorem params_returns (vt : Vt) (hi : i < 16) :
    ∃ v, vt.params[i]? = some v := ⟨_,Vector.getElem?_eq_getElem hi⟩

theorem extColor_returns (i : Nat) : Returns (vt.extColor i) (fun _ => True) := by
  have hnp := h.np_le
  unfold Vt.extColor
  split
  · split
    · obtain ⟨v,hv⟩ := params_returns vt (i := i+2) (by omega)
      exact ⟨_,by rw [hv]; rfl,trivial⟩
    · exact .pure trivial
  · split
    · obtain ⟨r,hr⟩ := params_returns vt (i := i+2) (by omega)
      obtain ⟨g,hg⟩ := params_returns vt (i := i+3) (by omega)
      obtain ⟨b,hb⟩ := params_returns vt (i := i+4) (by omega)
      exact ⟨_,by rw [hr,hg,hb]; rfl,trivial⟩
    · exact .pure trivial
  · exact .pure trivial

theorem sgrStep_returns (hi : i < 16) : Returns (vt.sgrStep i) (fun r => Fits cols rows r.1) := by
  obtain ⟨v,hv⟩ := params_returns vt hi
  obtain ⟨e,he,-⟩ := extColor_returns h i
  simp only [Vt.sgrStep,hv,he,bind_eq_bind,bind_some]
  repeat' split
  all_goals first | exact .pure h | exact .pure (h.recolor _ _)

theorem sgrLoop_returns (rounds i : Nat) : Returns (Vt.sgrLoop rounds vt i) (Fits cols rows) := by
  induction rounds generalizing vt i with
  | zero => exact .pure h
  | succ rounds ih =>
    have hnp := h.np_le
    rw [Vt.sgrLoop]
    split
    · exact Returns.bind (sgrStep_returns h (by omega)) fun r hr => ih hr r.2
    · exact .pure h

theorem deleteChars_redraws : Returns vt.deleteChars (Redrawn vt) := by
  have hcols := h.cols_eq
  have hcx : vt.cx ≤ vt.cols := by rw [hcols]; exact h.cx_le
  simp only [Vt.deleteChars,usub_of_le hcx,bind_eq_bind,bind_some]
  refine Returns.redraw_bind h (forRange_redraws h fun col t _ hcol hrt ht => ?_)
    (fun t hrt ht => forRange_redraws ht fun col u _ hcol _ hu => ?_)
  · obtain ⟨cs,hcs,rfl⟩ := hrt
    have hput := fun c => put_redraws ht c (hcols ▸ hcol) h.cy_lt
    split
    · rename_i hn
      exact Returns.bind (ht.get_returns (hcols ▸ hn) h.cy_lt) fun c _ => hput c
    · exact hput _
  · exact blit_redraws hu (by rw [← ht.cols_eq]; exact hcol) hu.cy_lt

theorem eraseChars_redraws : Returns vt.eraseChars (Redrawn vt) := by
  have hcols := h.cols_eq
  have hcx : vt.cx ≤ vt.cols := by rw [hcols]; exact h.cx_le
  simp only [Vt.eraseChars,usub_of_le hcx,bind_eq_bind,bind_some]
  exact forRange_redraws h fun col t _ hcol _ ht => put_redraws ht _ (by omega) ht.cy_lt

theorem setScrollRegion_returns (hr : 1 ≤ rows) : Returns vt.setScrollRegion (Fits cols rows) := by
  have hrows : 1 ≤ vt.rows := by rw [h.rows_eq]; exact hr
  have hrows' := h.rows_eq
  simp only [Vt.setScrollRegion,usub_of_le hrows,bind_eq_bind,bind_some]
  split
  · exact .pure { h with
      scrollTop_le := by simp only; omega
      scrollBot_lt := by simp only; omega }
  · exact .pure h

theorem Fits.move {cx cy : Nat} (hx : cx ≤ cols) (hy : cy < rows) :
    Fits cols rows { vt with cx := cx, cy := cy } := { h with cx_le := hx, cy_lt := hy }

omit h in
/-- The control sequences on which the emulator indexes past its cells. -/
def CsiFaults (vt : Vt) (f : UInt8) : Prop :=
  (f = 0x4D ∨ f = 0x53) ∧ OverScroll vt (vt.p 0 1).toNat ∨ f = 0x4B ∧ EraseAtWrap vt (vt.p 0 0)

omit h in
instance (vt : Vt) (f : UInt8) : Decidable (CsiFaults vt f) := by
  unfold CsiFaults
  infer_instance

theorem csi_returns (hc : 1 ≤ cols) (hr : 1 ≤ rows)
    (hf : ¬ CsiFaults vt f) : Returns (vt.csi f) (Fits cols rows) := by
  have hcols := h.cols_eq
  have hrows := h.rows_eq
  have hcx := h.cx_le
  have hcy := h.cy_lt
  have hsub₁ := usub_of_le (hcols ▸ hc)
  have hsub₂ := usub_of_le (hrows ▸ hr)
  have hfit : ∀ {m : Option Vt}, Returns m (Redrawn vt) → Returns m (Fits cols rows) :=
    fun hm => hm.mono fun t ht => h.redrawn ht
  unfold CsiFaults at hf
  simp only [Vt.csi,hsub₁,hsub₂,bind_eq_bind,bind_some]
  split
  case h_10 => exact hfit (eraseDisp_redraws h _)
  case h_11 => exact hfit (eraseLine_redraws h hc fun hm => hf (.inr ⟨rfl,hm⟩))
  case h_12 => exact hfit (scrollDn_redraws h _)
  case h_13 => exact hfit (scrollUp_redraws h fun hn => hf (.inl ⟨.inl rfl,hn⟩))
  case h_14 => exact hfit (deleteChars_redraws h)
  case h_15 => exact hfit (scrollUp_redraws h fun hn => hf (.inl ⟨.inr rfl,hn⟩))
  case h_16 => exact hfit (scrollDn_redraws h _)
  case h_17 => exact hfit (eraseChars_redraws h)
  case h_19 => exact sgrLoop_returns h _ _
  case h_20 => exact setScrollRegion_returns h hr
  case h_21 => exact .pure { h with savedCx_le := hcx, savedCy_lt := hcy }
  case h_22 => exact .pure (h.move h.savedCx_le h.savedCy_lt)
  case h_23 => exact .pure h
  -- what is left only moves the cursor
  all_goals exact .pure (h.move (by omega) (by omega))

theorem csi_panics (hc : 1 ≤ cols) (hf : CsiFaults vt f) : vt.csi f = none := by
  rcases hf with ⟨rfl | rfl,hn⟩ | ⟨rfl,hm⟩
  · exact scrollUp_panics h hc hn
  · exact scrollUp_panics h hc hn
  · exact eraseLine_panics h hm

theorem Fits.respond (bytes : List UInt8) : Fits cols rows (vt.respond bytes) := { h with }

theorem csiFinal_returns (hc : 1 ≤ cols) (hr : 1 ≤ rows)
    (hf : ¬ (vt.inter = 0 ∧ vt.inter2 = 0 ∧ CsiFaults vt f)) : Returns (vt.csiFinal f) (Fits cols rows) := by
  unfold Vt.csiFinal
  dsimp only
  split
  case h_5 =>
    split
    · exact .pure (h.respond _)
    · exact .pure (h.respond _)
    · exact .pure h
  case h_10 hi hi₂ _ _ =>
    exact csi_returns h hc hr fun hk => hf ⟨hi,hi₂,hk⟩
  all_goals first | exact .pure (h.respond _) | exact .pure h

theorem csiFinal_panics (hc : 1 ≤ cols) (hi : vt.inter = 0)
    (hi₂ : vt.inter2 = 0) (hf : CsiFaults vt f) : vt.csiFinal f = none := by
  have hcsi := csi_panics h hc hf
  rcases hf with ⟨rfl | rfl,-⟩ | ⟨rfl,-⟩ <;> simp [Vt.csiFinal,hi,hi₂,hcsi]

theorem Fits.processOsc : Fits cols rows vt.processOsc := by
  unfold Vt.processOsc
  dsimp only
  repeat' split
  all_goals exact { h with }

theorem Fits.parser (state : Es) (inter inter2 : UInt8) (oscBuf : List UInt8) : Fits cols rows
      { vt with state := state, inter := inter, inter2 := inter2, oscBuf := oscBuf } :=
  { h with }

theorem Fits.setParams (params : Vector UInt32 16) {np : Nat}
    (hnp : np ≤ 16) : Fits cols rows { vt with params := params, np := np } :=
  { h with np_le := hnp }

theorem feedNormal_returns (hc : 1 ≤ cols) (b : UInt8) : Returns (vt.feedNormal b) (Fits cols rows) := by
  have hcols := h.cols_eq
  have hcx := h.cx_le
  have hcy := h.cy_lt
  have hzero : Fits cols rows { vt with cx := 0 } := h.move (Nat.zero_le _) hcy
  unfold Vt.feedNormal
  split
  case h_1 => exact .pure h
  case h_2 =>
    split
    · rw [usub_of_le (by omega)]
      exact .pure (h.move (by omega) hcy)
    · exact .pure h
  case h_3 =>
    rw [usub_of_le (by omega)]
    exact .pure (h.move (by omega) hcy)
  case h_7 => exact .pure hzero
  case h_8 => exact .pure (h.parser _ _ _ _)
  case h_9 =>
    split
    · exact putChar_returns h hc b
    · exact .pure h
  all_goals exact (newline_returns hzero).mono fun _ ht => ht.1

theorem feedEsc_returns (b : UInt8) : Returns (vt.feedEsc b) (Fits cols rows) := by
  unfold Vt.feedEsc
  split
  case h_1 => exact .pure ((h.setParams _ (Nat.zero_le _)).parser _ _ _ _)
  case h_7 => exact .pure { h with savedCx_le := h.cx_le, savedCy_lt := h.cy_lt }
  case h_8 => exact .pure ((h.move h.savedCx_le h.savedCy_lt).parser _ _ _ _)
  case h_9 =>
    have hcy := h.cy_lt
    split
    · refine Returns.bind (scrollDn_redraws h 1) (fun t ht => ?_)
      exact .pure ((h.redrawn ht).parser _ _ _ _)
    split
    · rw [usub_of_le (by omega)]
      exact .pure ((h.move h.cx_le (by omega)).parser _ _ _ _)
    · exact .pure (h.parser _ _ _ _)
  all_goals exact .pure (h.parser _ _ _ _)

theorem feedDigit_returns (b : UInt8) : Returns (vt.feedDigit b) (Fits cols rows) := by
  have hnp := h.np_le
  have hsub : (if vt.np = 0 then some 0 else usub vt.np 1) = some (vt.np-1) := by
    split
    · simp [*]
    · exact usub_of_le (by omega)
  obtain ⟨v,hv⟩ := params_returns vt (i := min (vt.np-1) 15) (by omega)
  simp only [Vt.feedDigit,hsub,hv,bind_eq_bind,bind_some]
  exact .pure (h.setParams _ (by split <;> omega))

theorem feedSeparator_returns : Returns vt.feedSeparator (Fits cols rows) := by
  have hnp := h.np_le
  unfold Vt.feedSeparator
  dsimp only
  generalize hk : (if vt.np = 0 then 1 else vt.np) = k
  split
  · obtain ⟨v,hv⟩ := params_returns vt (i := k+1-1) (by omega)
    simp only [usub_of_le (Nat.le_add_left 1 k),hv,bind_eq_bind,bind_some]
    exact .pure (h.setParams _ (by omega))
  · exact .pure (h.setParams _ (by split at hk <;> omega))

theorem feedCsi_returns (hc : 1 ≤ cols) (hr : 1 ≤ rows)
    (hf : ¬ (vt.inter = 0 ∧ vt.inter2 = 0 ∧ CsiFaults vt b)) : Returns (vt.feedCsi b) (Fits cols rows) := by
  unfold Vt.feedCsi
  split
  · exact feedDigit_returns h b
  split
  · exact feedSeparator_returns h
  split
  · exact .pure (h.parser _ _ _ _)
  split
  · exact .pure (h.parser _ _ _ _)
  split
  · exact Returns.bind (csiFinal_returns h hc hr hf) fun t ht => .pure (ht.parser _ _ _ _)
  · exact .pure (h.parser _ _ _ _)

omit h in
/-- The bytes that abort the kernel in state `vt`. -/
def Faults (vt : Vt) (b : UInt8) : Prop :=
  vt.state = .csi ∧ vt.inter = 0 ∧ vt.inter2 = 0 ∧ CsiFaults vt b

omit h in
instance (vt : Vt) (b : UInt8) : Decidable (Faults vt b) := by
  unfold Faults
  infer_instance

theorem feed_returns (hc : 1 ≤ cols) (hr : 1 ≤ rows)
    (hf : ¬ Faults vt b) : Returns (vt.feed b) (Fits cols rows) := by
  unfold Vt.feed
  cases hs : vt.state with
  | normal => exact feedNormal_returns h hc b
  | esc => exact feedEsc_returns h b
  | csi => exact feedCsi_returns h hc hr fun hk => hf ⟨hs,hk⟩
  | osc =>
    dsimp only
    repeat' split
    · exact .pure (h.processOsc.parser _ _ _ _)
    · exact .pure (h.parser _ _ _ _)
    · exact .pure (h.parser _ _ _ _)
    · exact .pure h
  | oscEsc =>
    dsimp only
    split
    · exact .pure (h.processOsc.parser _ _ _ _)
    · exact .pure (h.parser _ _ _ _)
  | dcs =>
    dsimp only
    repeat' split
    · exact .pure (h.parser _ _ _ _)
    · exact .pure (h.parser _ _ _ _)
    · exact .pure h
  | dcsEsc | chs => exact .pure (h.parser _ _ _ _)

theorem feed_panics (hc : 1 ≤ cols) (hf : Faults vt b) : vt.feed b = none := by
  obtain ⟨hs,hi,hi₂,hk⟩ := hf
  have hfin := csiFinal_panics h hc hi hi₂ hk
  simp only [Vt.feed,hs]
  rcases hk with ⟨rfl | rfl,-⟩ | ⟨rfl,-⟩ <;> simp [Vt.feedCsi,hfin]

omit h in
/-- The bounds a reader of the terminal relies on after every byte. -/
def GridOk (cols rows : Nat) (vt : Vt) : Prop :=
  vt.cells.length = cols*rows ∧ vt.cx ≤ cols ∧ vt.cy < rows ∧
    vt.scrollTop ≤ vt.scrollBot ∧ vt.scrollBot < rows

theorem Fits.gridOk : GridOk cols rows vt :=
  ⟨h.cells_length,h.cx_le,h.cy_lt,h.scrollTop_le,h.scrollBot_lt⟩

end Feed

/-- A byte stream is safe on a fresh terminal exactly when no byte of it
completes an over-long scroll or an erase at a pending wrap. -/
theorem feed_safe_iff (hc : 1 ≤ cols) (hr : 1 ≤ rows) (bytes : List UInt8) :
    (∀ p, p <+: bytes → Returns (run Vt.feed (Vt.new cols rows) p) (GridOk cols rows)) ↔
      ∀ p b vt, p ++ [b] <+: bytes → run Vt.feed (Vt.new cols rows) p = some vt → ¬ Faults vt b :=
  run_safe_iff (fun _ _ => True) (fun _ => Fits.gridOk)
    (fun _ _ h _ hf => feed_returns h hc hr hf)
    (fun _ _ h _ hf => by simpa [feed_panics h hc hf] using not_returns_none)
    (Fits.new hr) bytes fun _ _ _ _ _ => trivial

/-- On a two by two grid a line of text, a cursor move and a one-line scroll. -/
theorem feed_safe_iff_scroll : (∀ p, p <+: [0x61,0x1B,0x5B,0x31,0x53] →
        Returns (run Vt.feed (Vt.new 2 2) p) (GridOk 2 2)) ↔
      ∀ p b vt, p ++ [b] <+: [0x61,0x1B,0x5B,0x31,0x53] →
        run Vt.feed (Vt.new 2 2) p = some vt → ¬ Faults vt b :=
  feed_safe_iff (by decide) (by decide) _

/-- `ESC [ 2 S` on two rows reads row two, and `ESC [ 1 K` after a full last row
writes column two of it. -/
theorem feed_out_of_bounds : run Vt.feed (Vt.new 2 2) [0x1B,0x5B,0x32,0x53] = none ∧
    run Vt.feed (Vt.new 2 2) [0x0A,0x61,0x62,0x1B,0x5B,0x31,0x4B] = none := by
  decide

end PaghOS.Terminal
