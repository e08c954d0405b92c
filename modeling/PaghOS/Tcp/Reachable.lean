import PaghOS.Tcp.PassiveOpen

/-!
What holds of every connection, whatever is sent, called or polled: the receive
buffer is within its capacity and our window scale is one RFC 7323 allows.
-/

namespace PaghOS.Tcp
open Loop Serial Option TcpSock

/-- Some run of some opened connection ends here. -/
def Reachable (d : Conn) : Prop := ∃ c events, Starts c ∧ run Conn.step c events = some d

structure Bounded (s : TcpSock) : Prop where
  room : s.rx.length ≤ s.rxCap
  scale : s.rcvScale ≤ 14

section Steps
variable {s t : TcpSock}

theorem bounded_upheld : Upheld Bounded where
  room := fun _ h => h.room
  rests := fun _ _ h k => ⟨k.room h.room,k.rcvScale ▸ h.scale⟩
  data := fun _ _ _ _ _ h _ _ _ _ => ⟨h.room,h.scale⟩
  fin := fun _ _ _ _ h _ _ _ => ⟨h.room,h.scale⟩

theorem Bounded.ackKept (h : Bounded s) (hdr : TcpHeader) : AckKept Bounded s hdr where
  slides := fun _ _ _ k => ⟨k.room h.room,k.rcvScale ▸ h.scale⟩
  fast := fun _ _ _ _ _ k => ⟨k.room h.room,k.rcvScale ▸ h.scale⟩
  window := fun _ _ k => ⟨k.room h.room,k.rcvScale ▸ h.scale⟩

theorem Bounded.resendKept (h : Bounded s) : ResendKept True Bounded s where
  beyond := fun _ _ _ _ => trivial
  fin := fun _ _ _ _ _ => ⟨h.room,h.scale⟩
  hole := fun _ _ _ _ _ _ => ⟨h.room,h.scale⟩
  probe := fun _ _ _ _ _ _ _ _ => ⟨h.room,h.scale⟩

theorem Bounded.inputKept (h : Bounded s) (hdr : TcpHeader) (body : List UInt8) :
    InputKept Bounded s hdr body where
  opens := by
    intro _ _ _ _ rcv hrcv
    have hopened : Bounded (s.opened hdr hdr.offeredScale rcv) := by
      refine ⟨h.room,?_⟩
      rcases hrcv with rfl | rfl
      · exact UInt8.zero_le
      · exact h.scale
    exact ⟨hopened,fun _ u hu => (bounded_upheld.rests _ _ hopened hu.rests).ackKept hdr⟩
  meets := fun _ _ _ => ⟨h.room,h.scale⟩
  joins := fun _ _ _ _ =>
    have hjoined : Bounded s.joined := ⟨h.room,h.scale⟩
    ⟨hjoined,fun _ => hjoined.ackKept hdr⟩
  acks := fun _ _ _ => h.ackKept hdr

theorem Bounded.step {c : Conn} (h : Bounded c.sock) (e : Event) :
    Yields (c.step e) (fun d => Bounded d.sock) := by
  have hc : Bounded { c.sock with out := [] } := ⟨h.room,h.scale⟩
  exact ReturnsUnless.yields (bounded_upheld.step (I := fun _ => Bounded) hc
    (fun _ _ _ _ _ => ⟨h.room,h.scale⟩) (fun _ _ _ _ _ _ _ ht => ht.resendKept)
    fun hdr body _ _ _ _ => hc.inputKept hdr body)

end Steps

theorem offerScaleFrom_le (room cap : Nat) (scale : UInt8) (h : scale.toNat+room ≤ 14) :
    offerScaleFrom room cap scale ≤ 14 := by
  induction room generalizing cap scale with
  | zero => exact UInt8.le_iff_toNat_le.mpr h
  | succ room ih =>
    unfold offerScaleFrom
    split
    · refine ih _ _ ?_
      have hone : (scale+1).toNat ≤ scale.toNat+1 := by
        rw [UInt8.toNat_add]
        exact Nat.mod_le _ _
      omega
    · exact UInt8.le_iff_toNat_le.mpr (Nat.le_trans (Nat.le_add_right _ _) h)

theorem offerScale_le (rxCap : Nat) : offerScale rxCap ≤ 14 := offerScaleFrom_le 14 _ 0 (by decide)

theorem listenerInput_bounded {hdr : TcpHeader} {body : List UInt8} {iss : UInt32} {s : TcpSock}
    (h : listenerInput hdr body iss = some (some s)) : Bounded s := by
  refine ⟨(listenerInput_knocking h).1.room,?_⟩
  have hpart := emit_part _ _ _ _ _ _ s (listenerInput_emits h)
  simp only [peerPart,Prod.mk.injEq] at hpart
  rw [hpart.2.2.1]
  exact offerScale_le 4096

theorem Starts.bounded {c : Conn} (h : Starts c) : Bounded c.sock := by
  cases h with
  | active rxCap txCap iss => exact ⟨Nat.zero_le _,offerScale_le rxCap⟩
  | passive h => exact listenerInput_bounded h

theorem Reachable.bounded {d : Conn} (h : Reachable d) : Bounded d.sock := by
  obtain ⟨c,events,hc,hrun⟩ := h
  exact run_yields (fun _ _ => True) (fun _ e hd _ => Bounded.step hd e) hc.bounded
    (fun _ _ _ _ _ => trivial) events List.prefix_rfl d hrun

end PaghOS.Tcp
