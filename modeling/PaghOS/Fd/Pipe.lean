import Mathlib.Data.List.Basic

/-!
The byte queue of a pipe, or of one direction of a socket pair (`src/task/fd.rs`), under any
interleaving of its readers and writers.
-/

namespace PaghOS.Fd

def pipeCapacity : Nat := 64*1024

structure PipeState where
  bytes : List UInt8
  readers : Nat
  writers : Nat

inductive PipeReadResult where
  | data (got : List UInt8)
  | wouldBlock
  | eof

inductive PipeWriteResult where
  | data (n : Nat)
  | wouldBlock
  | broken

def PipeState.read (p : PipeState) (len : Nat) : PipeReadResult × PipeState :=
  if p.bytes ≠ [] then
    let n := min len p.bytes.length
    (.data (p.bytes.take n),{ p with bytes := p.bytes.drop n })
  else if p.writers = 0 then (.eof,p)
  else (.wouldBlock,p)

def PipeState.write (p : PipeState) (src : List UInt8) : PipeWriteResult × PipeState :=
  if p.readers = 0 then (.broken,p)
  else
    let room := pipeCapacity-p.bytes.length
    if room = 0 then (.wouldBlock,p)
    else
      let n := min room src.length
      (.data n,{ p with bytes := p.bytes ++ src.take n })

def PipeState.recount (p : PipeState) (readEnd : Bool) (f : Nat → Nat) : PipeState :=
  if readEnd then { p with readers := f p.readers } else { p with writers := f p.writers }

/-- Endpoints are cloned by `with_nonblocking` and dropped. -/
inductive PipeOp where
  | read (len : Nat)
  | write (src : List UInt8)
  | clone (readEnd : Bool)
  | drop (readEnd : Bool)

/-- A pipe with what its writers were told is written and what its readers got. -/
structure PipeLog where
  pipe : PipeState
  written : List UInt8
  got : List UInt8

def PipeLog.step (l : PipeLog) : PipeOp → PipeLog
  | .read len =>
    match l.pipe.read len with
    | (.data bs,p) => { l with pipe := p, got := l.got ++ bs }
    | (_,p) => { l with pipe := p }
  | .write src =>
    match l.pipe.write src with
    | (.data n,p) => { l with pipe := p, written := l.written ++ src.take n }
    | (_,p) => { l with pipe := p }
  | .clone readEnd => { l with pipe := l.pipe.recount readEnd (·+1) }
  | .drop readEnd => { l with pipe := l.pipe.recount readEnd (·-1) }

structure PipeLog.Fifo (l : PipeLog) : Prop where
  order : l.written = l.got ++ l.pipe.bytes
  room : l.pipe.bytes.length ≤ pipeCapacity

theorem PipeLog.Fifo.step {l : PipeLog} (h : l.Fifo) (op : PipeOp) : (l.step op).Fifo := by
  have hroom := h.room
  cases op with
  | read len =>
    simp only [PipeLog.step,PipeState.read]
    split_ifs
    · refine ⟨?_,by simp; omega⟩
      rw [List.append_assoc,List.take_append_drop]
      exact h.order
    · exact h
    · exact h
  | write src =>
    simp only [PipeLog.step,PipeState.write]
    split_ifs
    · exact h
    · exact h
    · exact ⟨by simp only [h.order,List.append_assoc],by simp; omega⟩
  | clone readEnd => cases readEnd <;> exact ⟨h.order,hroom⟩
  | drop readEnd => cases readEnd <;> exact ⟨h.order,hroom⟩

/-- Every byte the writers were told is written is read once and in order, whoever reads; the
end of file is reported only when none is left. -/
theorem pipe_fifo (ops : List PipeOp) (len : Nat) :
    let l := ops.foldl PipeLog.step ⟨⟨[],1,1⟩,[],[]⟩
    l.Fifo ∧ ((l.pipe.read len).1 = .eof → l.got = l.written) := by
  intro l
  have hl : l.Fifo := List.foldlRecOn (motive := PipeLog.Fifo) ops _ ⟨rfl,Nat.zero_le _⟩
    fun _ h op _ => h.step op
  refine ⟨hl,fun heof => ?_⟩
  have hempty : l.pipe.bytes = [] := by
    by_contra hne
    simp [PipeState.read,hne] at heof
  rw [hl.order,hempty,List.append_nil]

end PaghOS.Fd
