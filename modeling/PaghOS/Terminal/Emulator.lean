import PaghOS.Lib.Loop

/-!
The ANSI/VT-100 emulator of `src/drivers/vt.rs`. Every array access and every
`usize` subtraction of the source is partial here: `none` is the panic that
aborts the kernel. Glyph drawing only reads cells that were just accessed and
is left out.
-/

namespace PaghOS.Terminal
open Loop

def defaultFg : UInt32 := 0xAAAAAA
def defaultBg : UInt32 := 0x000000

structure Cell where
  ch : UInt8
  fg : UInt32
  bg : UInt32
  deriving DecidableEq

def Cell.blank : Cell := ⟨0x20,defaultFg,defaultBg⟩

inductive Es where
  | normal | esc | csi | osc | oscEsc | dcs | dcsEsc | chs
  deriving DecidableEq

structure Vt where
  cols : Nat
  rows : Nat
  cells : List Cell
  cx : Nat
  cy : Nat
  savedCx : Nat
  savedCy : Nat
  fg : UInt32
  bg : UInt32
  scrollTop : Nat
  scrollBot : Nat
  state : Es
  params : Vector UInt32 16
  np : Nat
  inter : UInt8
  inter2 : UInt8
  oscBuf : List UInt8
  responses : List UInt8
  deriving DecidableEq

def ansi256 (n : UInt32) : UInt32 :=
  match n with
  | 0 => 0x000000
  | 1 => 0xAA0000
  | 2 => 0x00AA00
  | 3 => 0xAA5500
  | 4 => 0x0000AA
  | 5 => 0xAA00AA
  | 6 => 0x00AAAA
  | 7 => 0xAAAAAA
  | 8 => 0x555555
  | 9 => 0xFF5555
  | 10 => 0x55FF55
  | 11 => 0xFFFF55
  | 12 => 0x5555FF
  | 13 => 0xFF55FF
  | 14 => 0x55FFFF
  | 15 => 0xFFFFFF
  | n =>
    if n ≤ 231 then
      let v := n-16
      (v/36*51) <<< 16 ||| (v/6%6*51) <<< 8 ||| v%6*51
    else if n ≤ 255 then
      let v := (n-232)*10+8
      v <<< 16 ||| v <<< 8 ||| v
    else defaultFg

def Vt.new (cols rows : Nat) : Vt where
  cols := cols
  rows := rows
  cells := List.replicate (cols*rows) Cell.blank
  cx := 0
  cy := 0
  savedCx := 0
  savedCy := 0
  fg := defaultFg
  bg := defaultBg
  scrollTop := 0
  scrollBot := rows-1
  state := .normal
  params := Vector.replicate 16 0
  np := 0
  inter := 0
  inter2 := 0
  oscBuf := []
  responses := []

def Vt.idx (vt : Vt) (x y : Nat) : Nat := y*vt.cols+x

def Vt.get (vt : Vt) (x y : Nat) : Option Cell := vt.cells[vt.idx x y]?

def Vt.setCell (vt : Vt) (i : Nat) (c : Cell) : Option Vt :=
  if i < vt.cells.length then some { vt with cells := vt.cells.set i c } else none

def Vt.put (vt : Vt) (x y : Nat) (c : Cell) : Option Vt := vt.setCell (vt.idx x y) c

def Vt.paintAll (vt : Vt) : Option Vt :=
  forRange 0 vt.rows (fun row => forRange 0 vt.cols (fun col vt => do
      let _ ← vt.get col row
      some vt)) vt

def Vt.blit (vt : Vt) (x y : Nat) : Option Vt := do
  let _ ← vt.get x y
  some vt

def Vt.p (vt : Vt) (i : Nat) (dflt : UInt32) : UInt32 :=
  match vt.params[i]? with
  | some v => if i < vt.np ∧ v ≠ 0 then v else dflt
  | none => dflt

def Vt.copyRow (vt : Vt) (src row : Nat) : Option Vt :=
  forRange 0 vt.cols (fun col vt => do
    let c ← vt.get col src
    vt.setCell (vt.idx col row) c) vt

def Vt.blankRow (vt : Vt) (row : Nat) : Option Vt :=
  forRange 0 vt.cols (fun col vt => vt.setCell (vt.idx col row) Cell.blank) vt

def Vt.scrollUp (vt : Vt) (n : Nat) : Option Vt := do
  let top := vt.scrollTop
  let bot := vt.scrollBot
  if top ≥ bot then some vt
  else
    let n := min n ((← usub bot top)+1)
    -- `bot.saturating_sub(n)`, inclusive
    let vt ← forRange top (bot-n+1) (fun row vt => vt.copyRow (row+n) row) vt
    let vt ← forRange (bot+1-n) (bot+1) (fun row vt => vt.blankRow row) vt
    vt.paintAll

def Vt.scrollDn (vt : Vt) (n : Nat) : Option Vt := do
  let top := vt.scrollTop
  let bot := vt.scrollBot
  if top ≥ bot then some vt
  else
    let n := min n ((← usub bot top)+1)
    let vt ← forRangeRev (top+n) (bot+1) (fun row vt => do
      let src ← usub row n
      vt.copyRow src row) vt
    let vt ← forRange top (top+n) (fun row vt => vt.blankRow row) vt
    vt.paintAll

def Vt.eraseDisp (vt : Vt) (m : UInt32) : Option Vt := do
  let (s,e) :=
    match m with
    | 0 => (vt.cy*vt.cols+vt.cx,vt.rows*vt.cols)
    | 1 => (0,vt.cy*vt.cols+vt.cx+1)
    | _ => (0,vt.rows*vt.cols)
  let vt ← forRange s (min e vt.cells.length) (fun i vt => vt.setCell i Cell.blank) vt
  vt.paintAll

def Vt.eraseLine (vt : Vt) (m : UInt32) : Option Vt :=
  let (s,e) :=
    match m with
    | 0 => (vt.cx,vt.cols)
    | 1 => (0,vt.cx+1)
    | _ => (0,vt.cols)
  forRange s e (fun col vt => vt.put col vt.cy Cell.blank) vt

def Vt.newline (vt : Vt) : Option Vt :=
  if vt.cy ≥ vt.scrollBot then vt.scrollUp 1 else some { vt with cy := vt.cy+1 }

def Vt.putChar (vt : Vt) (b : UInt8) : Option Vt := do
  let vt ← (if vt.cx ≥ vt.cols then Vt.newline { vt with cx := 0 } else some vt)
  let vt ← vt.put vt.cx vt.cy ⟨b,vt.fg,vt.bg⟩
  some { vt with cx := vt.cx+1 }

/-- Extended colour of `38`/`48`: the colour and how many parameters it used. -/
def Vt.extColor (vt : Vt) (i : Nat) : Option (Option (UInt32 × Nat)) :=
  match vt.params[i+1]? with
  | some 5 =>
    if i+2 < vt.np then do
      let v ← vt.params[i+2]?
      some (some (ansi256 v,2))
    else some none
  | some 2 =>
    if i+4 < vt.np then do
      let r ← vt.params[i+2]?
      let g ← vt.params[i+3]?
      let b ← vt.params[i+4]?
      some (some (r <<< 16 ||| g <<< 8 ||| b,4))
    else some none
  | _ => some none

def Vt.sgrStep (vt : Vt) (i : Nat) : Option (Vt × Nat) := do
  let v := (vt.params[i]?).getD 0
  if v = 0 then some ({ vt with fg := defaultFg, bg := defaultBg },i+1)
  else if 30 ≤ v ∧ v ≤ 37 then some ({ vt with fg := ansi256 ((← vt.params[i]?)-30) },i+1)
  else if v = 38 then
    match ← vt.extColor i with
    | some (c,k) => some ({ vt with fg := c },i+k+1)
    | none => some (vt,i+1)
  else if v = 39 then some ({ vt with fg := defaultFg },i+1)
  else if 40 ≤ v ∧ v ≤ 47 then some ({ vt with bg := ansi256 ((← vt.params[i]?)-40) },i+1)
  else if v = 48 then
    match ← vt.extColor i with
    | some (c,k) => some ({ vt with bg := c },i+k+1)
    | none => some (vt,i+1)
  else if v = 49 then some ({ vt with bg := defaultBg },i+1)
  else if 90 ≤ v ∧ v ≤ 97 then some ({ vt with fg := ansi256 ((← vt.params[i]?)-90+8) },i+1)
  else if 100 ≤ v ∧ v ≤ 107 then some ({ vt with bg := ansi256 ((← vt.params[i]?)-100+8) },i+1)
  else some (vt,i+1)

/-- `while i < self.np.max(1)`. The index grows in every round, so that
`np.max(1)` rounds are enough. -/
def Vt.sgrLoop : (rounds : Nat) → Vt → Nat → Option Vt
  | 0, vt, _ => some vt
  | rounds+1, vt, i =>
    if i < max vt.np 1 then do
      let (vt,i) ← vt.sgrStep i
      Vt.sgrLoop rounds vt i
    else some vt

def Vt.sgr (vt : Vt) : Option Vt := Vt.sgrLoop (max vt.np 1) vt 0

def Vt.deleteChars (vt : Vt) : Option Vt := do
  let n := min (vt.p 0 1).toNat (← usub vt.cols vt.cx)
  let vt ← forRange vt.cx vt.cols (fun col vt => do
    let c ← if col+n < vt.cols then vt.get (col+n) vt.cy else some Cell.blank
    vt.setCell (vt.idx col vt.cy) c) vt
  forRange vt.cx vt.cols (fun col vt => vt.blit col vt.cy) vt

def Vt.eraseChars (vt : Vt) : Option Vt := do
  let n := min (vt.p 0 1).toNat (← usub vt.cols vt.cx)
  forRange vt.cx (vt.cx+n) (fun col vt => vt.put col vt.cy Cell.blank) vt

def Vt.setScrollRegion (vt : Vt) : Option Vt := do
  let t := (vt.p 0 1).toNat-1
  let b := min ((vt.p 1 (UInt32.ofNat vt.rows)).toNat-1) (← usub vt.rows 1)
  if t < b then some { vt with scrollTop := t, scrollBot := b } else some vt

def Vt.csi (vt : Vt) (f : UInt8) : Option Vt := do
  match f with
  | 0x41 => some { vt with cy := vt.cy-(vt.p 0 1).toNat }
  | 0x42 => some { vt with cy := min (vt.cy+(vt.p 0 1).toNat) (← usub vt.rows 1) }
  | 0x43 => some { vt with cx := min (vt.cx+(vt.p 0 1).toNat) (← usub vt.cols 1) }
  | 0x44 => some { vt with cx := vt.cx-(vt.p 0 1).toNat }
  | 0x45 => some { vt with cy := min (vt.cy+(vt.p 0 1).toNat) (← usub vt.rows 1), cx := 0 }
  | 0x46 => some { vt with cy := vt.cy-(vt.p 0 1).toNat, cx := 0 }
  | 0x47 => some { vt with cx := min ((vt.p 0 1).toNat-1) (← usub vt.cols 1) }
  | 0x48 | 0x66 =>
    let r := min ((vt.p 0 1).toNat-1) (← usub vt.rows 1)
    let c := min ((vt.p 1 1).toNat-1) (← usub vt.cols 1)
    some { vt with cy := r, cx := c }
  | 0x4A => vt.eraseDisp (vt.p 0 0)
  | 0x4B => vt.eraseLine (vt.p 0 0)
  | 0x4C => vt.scrollDn (vt.p 0 1).toNat
  | 0x4D => vt.scrollUp (vt.p 0 1).toNat
  | 0x50 => vt.deleteChars
  | 0x53 => vt.scrollUp (vt.p 0 1).toNat
  | 0x54 => vt.scrollDn (vt.p 0 1).toNat
  | 0x58 => vt.eraseChars
  | 0x64 => some { vt with cy := min ((vt.p 0 1).toNat-1) (← usub vt.rows 1) }
  | 0x6D => vt.sgr
  | 0x72 => vt.setScrollRegion
  | 0x73 => some { vt with savedCx := vt.cx, savedCy := vt.cy }
  | 0x75 => some { vt with cx := vt.savedCx, cy := vt.savedCy }
  | _ => some vt

def ascii (s : String) : List UInt8 := s.toList.map (fun c => UInt8.ofNat c.toNat)

def decimal (n : Nat) : List UInt8 := (Nat.toDigits 10 n).map (fun c => UInt8.ofNat c.toNat)

def Vt.respond (vt : Vt) (bytes : List UInt8) : Vt :=
  { vt with responses := vt.responses ++ bytes }

def Vt.csiFinal (vt : Vt) (f : UInt8) : Option Vt :=
  let p0 := (vt.params[0]).toNat
  match vt.inter,vt.inter2,f with
  | 0x3F,0x24,0x70 => some (vt.respond (ascii "\x1b[?" ++ decimal p0 ++ ascii ";0$y"))
  | 0,0x24,0x70 => some (vt.respond (ascii "\x1b[" ++ decimal p0 ++ ascii ";0$y"))
  | 0x3E,0,0x63 => some (vt.respond (ascii "\x1b[>0;10;1c"))
  | 0,0,0x63 => some (vt.respond (ascii "\x1b[?6c"))
  | 0,0,0x6E =>
    match vt.params[0] with
    | 5 => some (vt.respond (ascii "\x1b[0n"))
    | 6 => some (vt.respond (ascii "\x1b[" ++ decimal (vt.cy+1) ++ ascii ";" ++
        decimal (vt.cx+1) ++ ascii "R"))
    | _ => some vt
  | 0x3E,0,0x71 => some (vt.respond (ascii "\x1bP>|PaghVT 16.3\x1b\\"))
  | 0,0x20,0x71 => some vt
  | 0x3F,0,0x68 | 0x3F,0,0x6C => some vt
  | 0,0,f => vt.csi f
  | _,_,_ => some vt

def Vt.processOsc (vt : Vt) : Vt :=
  let buf := vt.oscBuf
  let vt := { vt with oscBuf := [] }
  if (ascii "10;?").isPrefixOf buf then vt.respond (ascii "\x1b]10;rgb:aaaa/aaaa/aaaa\x1b\\")
  else if (ascii "11;?").isPrefixOf buf then
    vt.respond (ascii "\x1b]11;rgb:0000/0000/0000\x1b\\")
  else vt

def Vt.feedNormal (vt : Vt) (b : UInt8) : Option Vt := do
  match b with
  | 0x07 => some vt
  | 0x08 => if vt.cx > 0 then some { vt with cx := ← usub vt.cx 1 } else some vt
  | 0x09 => some { vt with cx := min ((vt.cx+8)/8*8) (← usub vt.cols 1) }
  | 0x0A | 0x0B | 0x0C => Vt.newline { vt with cx := 0 }
  | 0x0D => some { vt with cx := 0 }
  | 0x1B => some { vt with state := .esc }
  | b => if (0x20 ≤ b ∧ b ≤ 0x7E) ∨ 0x80 ≤ b then vt.putChar b else some vt

def Vt.feedEsc (vt : Vt) (b : UInt8) : Option Vt := do
  match b with
  | 0x5B => some { vt with
      state := .csi, params := Vector.replicate 16 0, np := 0, inter := 0, inter2 := 0 }
  | 0x5D => some { vt with state := .osc, oscBuf := [] }
  | 0x50 | 0x58 | 0x5E | 0x5F => some { vt with state := .dcs }
  | 0x37 => some { vt with savedCx := vt.cx, savedCy := vt.cy, state := .normal }
  | 0x38 => some { vt with cx := vt.savedCx, cy := vt.savedCy, state := .normal }
  | 0x4D =>
    let vt ←
      if vt.cy = vt.scrollTop then vt.scrollDn 1
      else if vt.cy > 0 then some { vt with cy := ← usub vt.cy 1 }
      else some vt
    some { vt with state := .normal }
  | 0x28 | 0x29 | 0x2A | 0x2B => some { vt with state := .chs }
  | _ => some { vt with state := .normal }

def pushDigit (v : UInt32) (d : Nat) : UInt32 :=
  UInt32.ofNat (min (min (v.toNat*10) 0xFFFFFFFF+d) 0xFFFFFFFF)

def Vt.feedDigit (vt : Vt) (b : UInt8) : Option Vt := do
  let i ← (if vt.np = 0 then some 0 else usub vt.np 1)
  let v ← vt.params[min i 15]?
  some { vt with
    np := if vt.np = 0 then 1 else vt.np
    params := vt.params.setIfInBounds (min i 15) (pushDigit v (b-0x30).toNat) }

def Vt.feedSeparator (vt : Vt) : Option Vt := do
  let np := if vt.np = 0 then 1 else vt.np
  if np < 16 then
    let i ← usub (np+1) 1
    let _ ← vt.params[i]?
    some { vt with np := np+1, params := vt.params.setIfInBounds i 0 }
  else some { vt with np := np }

def Vt.feedCsi (vt : Vt) (b : UInt8) : Option Vt := do
  if 0x30 ≤ b ∧ b ≤ 0x39 then vt.feedDigit b
  else if b = 0x3B ∨ b = 0x3A then vt.feedSeparator
  else if 0x3C ≤ b ∧ b ≤ 0x3F then some { vt with inter := b }
  else if 0x20 ≤ b ∧ b ≤ 0x2F then some { vt with inter2 := b }
  else if 0x40 ≤ b ∧ b ≤ 0x7E then
    let vt ← vt.csiFinal b
    some { vt with state := .normal }
  else some { vt with state := .normal }

def Vt.feed (vt : Vt) (b : UInt8) : Option Vt :=
  match vt.state with
  | .normal => vt.feedNormal b
  | .esc => vt.feedEsc b
  | .csi => vt.feedCsi b
  | .osc =>
    if b = 0x07 then some { vt.processOsc with state := .normal }
    else if b = 0x1B then some { vt with state := .oscEsc }
    else if vt.oscBuf.length < 64 then some { vt with oscBuf := vt.oscBuf ++ [b] }
    else some vt
  | .oscEsc =>
    let vt := if b = 0x5C then vt.processOsc else vt
    some { vt with state := .normal }
  | .dcs =>
    if b = 0x07 then some { vt with state := .normal }
    else if b = 0x1B then some { vt with state := .dcsEsc }
    else some vt
  | .chs => some { vt with state := .normal }
  | .dcsEsc => some { vt with state := if b = 0x5C then .normal else .dcs }

end PaghOS.Terminal
