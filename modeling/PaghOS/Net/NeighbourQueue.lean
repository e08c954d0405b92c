import PaghOS.Net.Neighbours
import PaghOS.Lib.Loop

/-!
Both tables as resolvers: a reply or an advertisement releases what waits for its
sender, and so does nothing else that is learned. A request or a solicitation from
an address with parked frames leaves them behind a known address.
-/

namespace PaghOS.Net
open Resolver Loop List

variable {op : LinkOp} {now : Nat} {pkt : List UInt8} {p : NdpPacket} {srcIp : Ipv6Addr}
    {ethSrc : Mac}

structure Log (α φ : Type) where
  parked : List (α × φ)
  released : List (α × φ × List UInt8)
  batch : List (α × φ × List UInt8)

def Log.empty {α φ : Type} : Log α φ := ⟨[],[],[]⟩

def Log.note {α φ : Type} (l : Log α φ) (parked : List (α × φ)) (batch : List (α × φ × List UInt8)) :
    Log α φ :=
  ⟨l.parked ++ parked,l.released ++ batch,batch⟩

def Pending.frame (fr : Pending) : Ipv4Addr × Nat × List UInt8 := (fr.dstIp,fr.ethertype,fr.payload)

def NdpPending.frame (fr : NdpPending) : Ipv6Addr × List UInt8 := (fr.dst,fr.payload)

/-- The frames that come out of the queue, as they went in and as they are sent. -/
def fromQueue {α φ ψ : Type} (frame : ψ → α × φ) (out : List (Tx ψ)) : List (α × φ × List UInt8) :=
  out.filterMap (fun tx => tx.waited.map (fun fr => ((frame fr).1,(frame fr).2,tx.frame)))

def tableLedger {α φ ψ : Type} (frame : ψ → α × φ) (lookup : α → Option Mac) (pending : List ψ)
    (log : Log α φ) : Ledger α Mac φ (List UInt8) :=
  ⟨lookup,pending.map frame,log.parked,log.released,log.batch⟩

/-- The frame an operation parks: its next hop is unknown and the queue has room. -/
def Link.parks4 (st : Link) : LinkOp → List (Ipv4Addr × Nat × List UInt8)
  | .sendV4 nextHop packet now =>
    if !nextHop.isBroadcast && (st.arp.lookup nextHop).isNone &&
        (st.arp.enqueuePending nextHop ethertypeIpv4 packet now).2 then
      [(nextHop,ethertypeIpv4,packet)]
    else []
  | _ => []

def Link.parks6 (st : Link) : LinkOp → List (Ipv6Addr × List UInt8)
  | .sendV6 nextHop packet now =>
    if !dstIsMulticast nextHop && (st.nd.lookup nextHop).isNone &&
        (st.nd.enqueuePending nextHop packet now).2 then
      [(nextHop,packet)]
    else []
  | _ => []

structure TracedLink where
  st : Link
  log4 : Log Ipv4Addr (Nat × List UInt8)
  log6 : Log Ipv6Addr (List UInt8)

namespace TracedLink

def start (mac : Mac) (cidr : Option Ipv4Addr) (llAddr6 : Ipv6Addr) (cidr6 : Option Ipv6Addr) :
    TracedLink :=
  ⟨⟨mac,cidr,llAddr6,cidr6,.new,.new⟩,.empty,.empty⟩

def step (x : TracedLink) (op : LinkOp) : TracedLink where
  st := (x.st.step op).1
  log4 := x.log4.note (x.st.parks4 op) (fromQueue Pending.frame (x.st.step op).2.1)
  log6 := x.log6.note (x.st.parks6 op) (fromQueue NdpPending.frame (x.st.step op).2.2)

theorem step_st (x : TracedLink) (op : LinkOp) : (x.step op).st = (x.st.step op).1 := rfl

def ledger4 (x : TracedLink) : Ledger Ipv4Addr Mac (Nat × List UInt8) (List UInt8) :=
  tableLedger Pending.frame x.st.arp.lookup x.st.arp.pending x.log4

def ledger6 (x : TracedLink) : Ledger Ipv6Addr Mac (List UInt8) (List UInt8) :=
  tableLedger NdpPending.frame x.st.nd.lookup x.st.nd.pending x.log6

end TracedLink

def stamp4 (src dst : Mac) (f : Nat × List UInt8) : List UInt8 := ethFrame dst src f.1 f.2

def stamp6 (src dst : Mac) (payload : List UInt8) : List UInt8 :=
  ethFrame dst src ethertypeIpv6 payload

/-- No frame waits for an address in the cache, and what was sent from each queue
is, for every destination, what was parked for it in that order, none of it twice;
the latest went to the cached link addresses. -/
def QueuesOk (x : TracedLink) : Prop :=
  Disciplined (stamp4 x.st.mac) x.ledger4 ∧ Disciplined (stamp6 x.st.mac) x.ledger6

/-- A request for us, or a solicitation, is learned from while frames wait for its
sender. -/
def SilentLearn (st : Link) : LinkOp → Prop
  | .arp pkt _ => (arpParse pkt).any (fun p => p.operation == arpRequest &&
      st.cidr == some p.targetIp && !p.senderIp.isUnspecified &&
      st.arp.pending.any (fun fr => fr.dstIp == p.senderIp)) = true
  | .ndp p srcIp _ _ => p.isSolicit = true ∧ srcIp.isUnspecified = false ∧ p.llAddr.isSome = true ∧
      st.nd.pending.any (fun fr => fr.dst == srcIp) = true
  | _ => False

section Tables
variable {α φ ψ : Type} [DecidableEq α] {stamp : Mac → φ → List UInt8} {frame : ψ → α × φ}
  {lookup lookup' : α → Option Mac} {pending pending' : List ψ} {log : Log α φ} {parks : List (α × φ)}
  {out : List (Tx ψ)} {a : α}

omit [DecidableEq α] in
theorem fromQueue_own (frame : ψ → α × φ) (h : ∀ tx ∈ out, tx.waited = none) : fromQueue frame out = [] := by
  rw [fromQueue,filterMap_eq_nil_iff]
  intro tx htx
  rw [h tx htx]
  rfl

omit [DecidableEq α] in
theorem ledger_own (hparks : parks = []) (hown : ∀ tx ∈ out, tx.waited = none) :
    tableLedger frame lookup pending (log.note parks (fromQueue frame out)) =
      ⟨lookup,pending.map frame,log.parked,log.released,[]⟩ := by
  rw [fromQueue_own frame hown,hparks,tableLedger,Log.note,append_nil,append_nil]

theorem table_eases (hlookup : ∀ b, (lookup' b).isSome → (lookup b).isSome)
    (hpending : pending'.Sublist pending) (hparks : parks = []) (hown : ∀ tx ∈ out, tx.waited = none) :
    Move stamp (tableLedger frame lookup pending log)
      (tableLedger frame lookup' pending' (log.note parks (fromQueue frame out))) := by
  rw [ledger_own hparks hown]
  exact .ease hlookup (hpending.map _)

/-- A frame for an unknown address is parked, or dropped when the queue is full. -/
theorem table_enqueues (full : Prop) [Decidable full] (fr : ψ) (hunknown : lookup (frame fr).1 = none)
    (hlookup : lookup' = lookup) (hpending : pending' = if full then pending else pending ++ [fr])
    (hparks : parks = if full then [] else [frame fr]) (hown : ∀ tx ∈ out, tx.waited = none) :
    Move stamp (tableLedger frame lookup pending log)
      (tableLedger frame lookup' pending' (log.note parks (fromQueue frame out))) := by
  split at hpending
  · rw [if_pos ‹_›] at hparks
    exact table_eases (by simp [hlookup]) (by rw [hpending]) hparks hown
  rw [if_neg ‹_›] at hparks
  have hwaiting : pending'.map frame = pending.map frame ++ [frame fr] := by
    rw [hpending,map_append]
    rfl
  simp only [tableLedger,Log.note,fromQueue_own frame hown,hlookup,hwaiting,hparks,append_nil]
  exact .park hunknown

/-- Learning an address is a move unless a frame waits for it. -/
theorem table_learns {silent : Prop} (hself : (lookup' a).isSome)
    (hothers : ∀ b, b ≠ a → (lookup' b).isSome → (lookup b).isSome) (hpending : pending' = pending)
    (hsilent : silent ↔ ∃ fr ∈ pending, (frame fr).1 = a) (hparks : parks = [])
    (hown : ∀ tx ∈ out, tx.waited = none) :
    (¬ silent → Move stamp (tableLedger frame lookup pending log)
      (tableLedger frame lookup' pending' (log.note parks (fromQueue frame out)))) ∧
    (silent → ¬ Disciplined stamp
      (tableLedger frame lookup' pending' (log.note parks (fromQueue frame out)))) := by
  rw [ledger_own hparks hown,hpending,hsilent]
  refine ⟨fun hnone => Move.learn hself hothers fun w hw hdst => ?_,?_⟩
  · obtain ⟨fr,hfr,rfl⟩ := mem_map.mp hw
    exact hnone ⟨fr,hfr,hdst⟩
  · rintro ⟨fr,hfr,rfl⟩
    exact not_disciplined_of_learn (mem_map_of_mem hfr) hself

theorem table_flushes (mac : Mac) (hself : lookup' a = some mac)
    (hothers : ∀ b, b ≠ a → (lookup' b).isSome → (lookup b).isSome)
    (hpending : pending' = pending.filter (fun fr => (frame fr).1 ≠ a)) (hparks : parks = [])
    (hout : out = (pending.filter (fun fr => (frame fr).1 = a)).map
      (fun fr => ⟨stamp mac (frame fr).2,some fr⟩)) : Move stamp (tableLedger frame lookup pending log)
      (tableLedger frame lookup' pending' (log.note parks (fromQueue frame out))) := by
  have hkept : pending'.map frame = (pending.map frame).filter (fun w => w.1 ≠ a) := by
    rw [hpending,filter_map]
    rfl
  have hbatch : fromQueue frame out = ((pending.map frame).filter fun w => w.1 = a).map
      (fun w => (w.1,w.2,stamp mac w.2)) := by
    rw [hout,filter_map,map_map,fromQueue,filterMap_map,← filterMap_eq_map]
    rfl
  simp only [tableLedger,Log.note,hkept,hparks,append_nil]
  exact .release hself hothers hbatch

end Tables

theorem Link.sendV4_keeps (st : Link) (nextHop : Ipv4Addr) (packet : List UInt8) (now : Nat) :
    (st.sendV4 nextHop packet now).1.nd = st.nd ∧ (st.sendV4 nextHop packet now).1.mac = st.mac := by
  unfold Link.sendV4
  split
  · exact ⟨rfl,rfl⟩
  · split <;> exact ⟨rfl,rfl⟩

theorem Link.sendV6_keeps (st : Link) (nextHop : Ipv6Addr) (packet : List UInt8) (now : Nat) :
    (st.sendV6 nextHop packet now).1.arp = st.arp ∧ (st.sendV6 nextHop packet now).1.mac = st.mac := by
  unfold Link.sendV6
  split
  · exact ⟨rfl,rfl⟩
  · split <;> exact ⟨rfl,rfl⟩

section Arp
variable {x : TracedLink}

theorem ArpTable.lookup_congr {s t : ArpTable} (h : s.entries = t.entries) : s.lookup = t.lookup := by
  funext ip
  rw [ArpTable.lookup,h]
  rfl

theorem arp_rests (harp : (x.st.step op).1.arp = x.st.arp) (hparks : x.st.parks4 op = [])
    (hown : ∀ tx ∈ (x.st.step op).2.1, tx.waited = none) :
    Move (stamp4 x.st.mac) x.ledger4 (x.step op).ledger4 := by
  refine table_eases (fun b hb => ?_) ?_ hparks hown
  · rwa [TracedLink.step_st,harp] at hb
  · rw [TracedLink.step_st,harp]

theorem arp_sendV4 (nextHop : Ipv4Addr) (packet : List UInt8) (now : Nat) :
    Move (stamp4 x.st.mac) x.ledger4 (x.step (.sendV4 nextHop packet now)).ledger4 := by
  by_cases hcast : nextHop.isBroadcast = true
  · refine arp_rests ?_ ?_ ?_
    all_goals simp [Link.step,Link.sendV4,Link.parks4,hcast]
  cases hknown : x.st.arp.lookup nextHop with
  | some mac =>
    refine arp_rests ?_ ?_ ?_
    all_goals simp [Link.step,Link.sendV4,Link.parks4,hcast,hknown]
  | none =>
    have hstep : x.st.step (.sendV4 nextHop packet now) =
        (let asked := (x.st.arp.enqueuePending nextHop ethertypeIpv4 packet now).1.request x.st.mac
          (x.st.cidr.getD Ipv4Addr.unspecified) nextHop now
        ({ x.st with arp := asked.1 },asked.2,[])) := by
      simp [Link.step,Link.sendV4,hcast,hknown]
    obtain ⟨hentries,hpending,hown⟩ := ArpTable.request_keeps
      (x.st.arp.enqueuePending nextHop ethertypeIpv4 packet now).1 x.st.mac
      (x.st.cidr.getD Ipv4Addr.unspecified) nextHop now
    refine table_enqueues (x.st.arp.pending.length ≥ pendingCap) ⟨nextHop,ethertypeIpv4,packet,now⟩
      hknown ?_ ?_ ?_ (by rw [hstep]; exact hown)
    · rw [TracedLink.step_st,hstep]
      refine ArpTable.lookup_congr (hentries.trans ?_)
      unfold ArpTable.enqueuePending
      split <;> rfl
    · rw [TracedLink.step_st,hstep]
      refine hpending.trans ?_
      unfold ArpTable.enqueuePending
      split <;> rfl
    · simp only [Link.parks4,hcast,hknown,ArpTable.enqueuePending]
      split <;> simp [Pending.frame]

theorem arp_input : (¬ SilentLearn x.st (.arp pkt now) →
      Move (stamp4 x.st.mac) x.ledger4 (x.step (.arp pkt now)).ledger4) ∧
    (SilentLearn x.st (.arp pkt now) → ¬ Disciplined (stamp4 x.st.mac) (x.step (.arp pkt now)).ledger4) := by
  cases hparse : arpParse pkt with
  | none =>
    refine ⟨fun _ => arp_rests ?_ rfl ?_,?_⟩
    all_goals simp [Link.step,ArpTable.input,SilentLearn,hparse]
  | some p =>
    obtain ⟨hself,hothers⟩ := x.st.arp.lookup_insert p.senderIp p.senderMac now
    by_cases hreq : p.operation = arpRequest
    · by_cases hlearn : x.st.cidr = some p.targetIp ∧ p.senderIp.isUnspecified = false
      · obtain ⟨hus,hsender⟩ := hlearn
        have hinput : (x.st.step (.arp pkt now)).1.arp =
            x.st.arp.insert p.senderIp p.senderMac now := by
          simp [Link.step,ArpTable.input,hparse,hreq,hus,hsender]
        refine table_learns (a := p.senderIp) ?_ ?_ ?_ ?_ rfl ?_
        · rw [TracedLink.step_st,hinput,hself]
          rfl
        · rw [TracedLink.step_st,hinput]
          exact hothers
        · rw [TracedLink.step_st,hinput]
          rfl
        · simp [SilentLearn,hparse,hreq,hus,hsender,Pending.frame]
        · simp [Link.step,ArpTable.input,hparse,hreq,hus]
      · refine ⟨fun _ => arp_rests ?_ rfl ?_,?_⟩
        all_goals grind [Link.step,ArpTable.input,SilentLearn]
    refine ⟨fun _ => ?_,fun hsilent => by simp [SilentLearn,hparse,hreq] at hsilent⟩
    by_cases hrep : p.operation = arpReply
    · by_cases hexpected :
          x.st.arp.inflight.any (fun r => r.1 = p.senderIp && !p.senderIp.isUnspecified) = true
      · refine table_flushes (a := p.senderIp) p.senderMac ?_ ?_ ?_ rfl ?_
        all_goals simp only [TracedLink.step_st,Link.step,ArpTable.input,hparse,if_neg hreq,if_pos hrep,
          if_pos hexpected]
        · exact hself
        · exact hothers
        · rfl
        · rfl
      · refine arp_rests ?_ rfl ?_
        all_goals simp only [Link.step,ArpTable.input,hparse,if_neg hreq,if_pos hrep,
          if_neg hexpected,not_mem_nil,false_implies,implies_true]
    · refine arp_rests ?_ rfl ?_
      all_goals simp [Link.step,ArpTable.input,hparse,hreq,hrep]

theorem arp_move (hloud : ¬ SilentLearn x.st op) :
    Move (stamp4 x.st.mac) x.ledger4 (x.step op).ledger4 := by
  cases op with
  | sendV4 nextHop packet now => exact arp_sendV4 nextHop packet now
  | arp pkt now => exact arp_input.1 hloud
  | sendV6 nextHop packet now =>
    have harp := (x.st.sendV6_keeps nextHop packet now).1
    exact arp_rests harp rfl nofun
  | ndp p srcIp ethSrc now => exact arp_rests rfl rfl nofun
  | tick now =>
    exact table_eases (fun _ h => x.st.arp.lookup_onTick now h) filter_sublist rfl nofun
  | configure cidr cidr6 => exact arp_rests rfl rfl nofun

end Arp

section Ndp
variable {x : TracedLink}

theorem NdpTable.lookup_congr {s t : NdpTable} (h : s.entries = t.entries) : s.lookup = t.lookup := by
  funext ip
  rw [NdpTable.lookup,h]
  rfl

theorem nd_rests (hnd : (x.st.step op).1.nd = x.st.nd) (hparks : x.st.parks6 op = [])
    (hown : ∀ tx ∈ (x.st.step op).2.2, tx.waited = none) :
    Move (stamp6 x.st.mac) x.ledger6 (x.step op).ledger6 := by
  refine table_eases (fun b hb => ?_) ?_ hparks hown
  · rwa [TracedLink.step_st,hnd] at hb
  · rw [TracedLink.step_st,hnd]

theorem nd_sendV6 (nextHop : Ipv6Addr) (packet : List UInt8) (now : Nat) :
    Move (stamp6 x.st.mac) x.ledger6 (x.step (.sendV6 nextHop packet now)).ledger6 := by
  by_cases hcast : dstIsMulticast nextHop = true
  · refine nd_rests ?_ ?_ ?_
    all_goals simp [Link.step,Link.sendV6,Link.parks6,hcast]
  cases hknown : x.st.nd.lookup nextHop with
  | some mac =>
    refine nd_rests ?_ ?_ ?_
    all_goals simp [Link.step,Link.sendV6,Link.parks6,hcast,hknown]
  | none =>
    have hstep : x.st.step (.sendV6 nextHop packet now) =
        (let asked := (x.st.nd.enqueuePending nextHop packet now).1.solicit x.st.mac x.st.llAddr6
          nextHop now
        ({ x.st with nd := asked.1 },[],asked.2)) := by
      simp [Link.step,Link.sendV6,hcast,hknown]
    obtain ⟨hentries,hpending,hown⟩ := NdpTable.solicit_keeps
      (x.st.nd.enqueuePending nextHop packet now).1 x.st.mac x.st.llAddr6 nextHop now
    refine table_enqueues (x.st.nd.pending.length ≥ pendingCap) ⟨nextHop,packet,now⟩ hknown ?_ ?_ ?_
      (by rw [hstep]; exact hown)
    · rw [TracedLink.step_st,hstep]
      refine NdpTable.lookup_congr (hentries.trans ?_)
      unfold NdpTable.enqueuePending
      split <;> rfl
    · rw [TracedLink.step_st,hstep]
      refine hpending.trans ?_
      unfold NdpTable.enqueuePending
      split <;> rfl
    · simp only [Link.parks6,hcast,hknown,NdpTable.enqueuePending]
      split <;> simp [NdpPending.frame]

theorem nd_input : (¬ SilentLearn x.st (.ndp p srcIp ethSrc now) →
      Move (stamp6 x.st.mac) x.ledger6 (x.step (.ndp p srcIp ethSrc now)).ledger6) ∧
    (SilentLearn x.st (.ndp p srcIp ethSrc now) →
      ¬ Disciplined (stamp6 x.st.mac) (x.step (.ndp p srcIp ethSrc now)).ledger6) := by
  by_cases hsol : p.isSolicit = true
  · have hown : ∀ tx ∈ (x.st.step (.ndp p srcIp ethSrc now)).2.2, tx.waited = none := by
      simp only [Link.step,NdpTable.input,hsol,if_true]
      split <;> simp
    have hinput : (x.st.step (.ndp p srcIp ethSrc now)).1.nd = if srcIp.isUnspecified then x.st.nd else
        p.llAddr.elim x.st.nd (x.st.nd.insert srcIp · now) := by
      simp only [Link.step,NdpTable.input,hsol,if_true]
      cases p.llAddr <;> split <;> rfl
    by_cases hsender : srcIp.isUnspecified = true
    · rw [if_pos hsender] at hinput
      exact ⟨fun _ => nd_rests hinput rfl hown,by simp [SilentLearn,hsender]⟩
    rw [if_neg hsender] at hinput
    cases hll : p.llAddr with
    | none =>
      rw [hll] at hinput
      exact ⟨fun _ => nd_rests hinput rfl hown,by simp [SilentLearn,hll]⟩
    | some mac =>
      rw [hll,Option.elim_some] at hinput
      obtain ⟨hself,hothers⟩ := x.st.nd.lookup_insert srcIp mac now
      refine table_learns (a := srcIp) ?_ ?_ ?_ ?_ rfl hown
      · rw [TracedLink.step_st,hinput,hself]
        rfl
      · rw [TracedLink.step_st,hinput]
        exact hothers
      · rw [TracedLink.step_st,hinput]
        rfl
      · simp [SilentLearn,hsol,hsender,hll,NdpPending.frame]
  · obtain ⟨hself,hothers⟩ := x.st.nd.lookup_insert p.target (p.llAddr.getD ethSrc) now
    refine ⟨fun _ => ?_,fun hsilent => by simp [SilentLearn,hsol] at hsilent⟩
    refine table_flushes (a := p.target) (p.llAddr.getD ethSrc) ?_ ?_ ?_ rfl ?_
    all_goals simp only [TracedLink.step_st,Link.step,NdpTable.input,if_neg hsol]
    · exact hself
    · exact hothers
    · rfl
    · rfl

theorem nd_move (hloud : ¬ SilentLearn x.st op) :
    Move (stamp6 x.st.mac) x.ledger6 (x.step op).ledger6 := by
  cases op with
  | sendV6 nextHop packet now => exact nd_sendV6 nextHop packet now
  | ndp p srcIp ethSrc now => exact nd_input.1 hloud
  | sendV4 nextHop packet now =>
    have hnd := (x.st.sendV4_keeps nextHop packet now).1
    exact nd_rests hnd rfl nofun
  | arp pkt now => exact nd_rests rfl rfl nofun
  | tick now =>
    exact table_eases (fun _ h => x.st.nd.lookup_onTick now h) filter_sublist rfl nofun
  | configure cidr cidr6 => exact nd_rests rfl rfl nofun

end Ndp

theorem Link.step_mac (st : Link) (op : LinkOp) : (st.step op).1.mac = st.mac := by
  cases op with
  | sendV4 nextHop packet now => exact (st.sendV4_keeps nextHop packet now).2
  | sendV6 nextHop packet now => exact (st.sendV6_keeps nextHop packet now).2
  | _ => rfl

/-- What every run keeps as long as nothing is learned silently. -/
def QueuesInv (x : TracedLink) : Prop :=
  Orderly (stamp4 x.st.mac) x.ledger4 ∧ Orderly (stamp6 x.st.mac) x.ledger6

theorem queuesInv_start (mac : Mac) (cidr : Option Ipv4Addr) (llAddr6 : Ipv6Addr)
    (cidr6 : Option Ipv6Addr) : QueuesInv (.start mac cidr llAddr6 cidr6) :=
  ⟨⟨nofun,fun _ => List.Sublist.refl _,nofun⟩,nofun,fun _ => List.Sublist.refl _,nofun⟩

theorem QueuesInv.step {x : TracedLink} (h : QueuesInv x)
    (hloud : ¬ SilentLearn x.st op) : QueuesInv (x.step op) := by
  unfold QueuesInv
  rw [TracedLink.step_st,Link.step_mac]
  exact ⟨h.1.move (arp_move hloud),h.2.move (nd_move hloud)⟩

theorem not_queuesOk_of_silent {x : TracedLink} (hsilent : SilentLearn x.st op) :
    ¬ QueuesOk (x.step op) := by
  unfold QueuesOk
  rw [TracedLink.step_st,Link.step_mac]
  intro hok
  cases op with
  | arp pkt now => exact arp_input.2 hsilent hok.1
  | ndp p srcIp ethSrc now => exact nd_input.2 hsilent hok.2
  | _ => exact hsilent

/-- From empty tables, whatever our addresses: the queues of both families are in
order after every operation exactly if no request for us and no solicitation is
learned from while frames wait for its sender. -/
theorem queues_ok_iff (mac : Mac) (cidr : Option Ipv4Addr) (llAddr6 : Ipv6Addr)
    (cidr6 : Option Ipv6Addr) (ops : List LinkOp) :
    (∀ p, p <+: ops → QueuesOk (p.foldl TracedLink.step (.start mac cidr llAddr6 cidr6))) ↔
      ∀ p op, p ++ [op] <+: ops →
        ¬ SilentLearn (p.foldl TracedLink.step (.start mac cidr llAddr6 cidr6)).st op :=
  foldl_safe_iff (fun _ _ => True) (fun _ h => ⟨h.1.disciplined,h.2.disciplined⟩)
    (fun _ _ h _ hloud => h.step hloud) (fun _ _ _ _ hsilent => not_queuesOk_of_silent hsilent)
    (queuesInv_start mac cidr llAddr6 cidr6) ops fun _ _ _ => trivial

def ourMac : Mac := ⟨[0x52,0x54,0,0x12,0x34,0x56],rfl⟩

def peerMac : Mac := ⟨[0x52,0x55,10,0,2,2],rfl⟩

def askingLink : Link :=
  (Link.step ⟨ourMac,some ⟨10,0,2,15⟩,
    ⟨[0xFE,0x80,0,0,0,0,0,0,0x50,0x54,0,0xFF,0xFE,0x12,0x34,0x56],rfl⟩,none,.new,.new⟩
    (.sendV4 ⟨10,0,2,2⟩ [1,2,3] 5)).1

def askedLink : Link :=
  (askingLink.step (.arp (arpBuild arpRequest peerMac ⟨10,0,2,2⟩ Mac.zero ⟨10,0,2,15⟩) 6)).1

/-- Its link address is known, and the packet still waits. -/
theorem request_leaves_frame : askedLink.arp.lookup ⟨10,0,2,2⟩ = some peerMac ∧
      askedLink.arp.pending = [⟨⟨10,0,2,2⟩,ethertypeIpv4,[1,2,3],5⟩] := by
  decide +kernel

end PaghOS.Net
