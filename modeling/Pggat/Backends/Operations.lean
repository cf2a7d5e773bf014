import Pggat.Backends.Bouncer

/-! The programs of the bouncer consist of operations on the binding. -/
namespace Pggat.Backends.Bouncer
open Pggat.Base Packets
variable {σ ρ ε α β : Type}

/-- What the bouncer does in one step. -/
inductive Operation (w : World σ ρ ε) : (α : Type) → Action (Fault ε) (ServerToPeerBinding σ ρ ε) α → Prop
  | pure {α : Type} (a : α) : Operation w α (Pure.pure a)
  | throw {α : Type} (e : Fault ε) : Operation w α (Action.throw e)
  | get : Operation w _ fun b => (.ok b,b)
  | modify (f : ServerToPeerBinding σ ρ ε → ServerToPeerBinding σ ρ ε) (hf : ∀ b, (f b).world = b.world) :
    Operation w _ fun b => (.ok (),f b)
  | serverRead : Operation w _ (io w.serverRead)
  | serverWrite : Operation w _ fun b => io (w.serverWrite b.packet) b
  | ready (x : ρ) : Operation w _ (io (w.toReadyForQuery x))
  | peerRead : Operation w _ (readPeer w)
  | peerWrite : Operation w _ (writePeer w)

def Built (w : World σ ρ ε) (m : M σ ρ ε α) : Prop := Prog.Built .hang (Operation w) α m

namespace Built
variable {w : World σ ρ ε}

theorem pure (a : α) : Built w (Pure.pure a) := Prog.Built.lift (.pure a)

theorem throw (e : Fault ε) : Built w (Prog.throw e : M σ ρ ε α) := Prog.Built.lift (.throw e)

theorem bind {m : M σ ρ ε α} {f : α → M σ ρ ε β} (h : Built w m) (hf : ∀ a, Built w (f a)) : Built w (m >>= f) :=
  Prog.Built.bind h hf

theorem ite {c : Prop} [Decidable c] {m m' : M σ ρ ε α} (h : Built w m) (h' : Built w m') :
    Built w (if c then m else m') :=
  Prog.Built.ite h h'

theorem forever {body : M σ ρ ε (Option α)} (h : Built w body) : Built w (forever body) := Prog.Built.loop h

variable (w)

theorem get : Built w (Bouncer.get : M σ ρ ε _) := Prog.Built.lift .get

theorem modify {f : ServerToPeerBinding σ ρ ε → ServerToPeerBinding σ ρ ε} (hf : ∀ b, (f b).world = b.world) :
    Built w (Bouncer.modify f) :=
  Prog.Built.lift (.modify f hf)

theorem setPacket (x : ρ) : Built w (Bouncer.setPacket x) := modify w fun _ => rfl

theorem serverRead : Built w (Bouncer.serverRead w) := .bind (Prog.Built.lift .serverRead) fun x => setPacket w x

theorem serverWrite : Built w (Bouncer.serverWrite w) := Prog.Built.lift .serverWrite

theorem peerRead : Built w (Bouncer.peerRead w) := Prog.Built.lift .peerRead

theorem peerWrite : Built w (Bouncer.peerWrite w) := Prog.Built.lift .peerWrite

theorem packetType : Built w (Bouncer.packetType w) := .bind (get w) fun _ => .pure _

theorem unexpected : Built w (Bouncer.unexpected (α := α) w) := .bind (get w) fun _ => .throw _

theorem peerUnexpected : Built w (Bouncer.peerUnexpected w) := .bind (get w) fun _ => modify w fun _ => rfl

theorem copyInTurn : Built w (Bouncer.copyInTurn w) := by
  refine .bind (peerRead w) fun ok => .ite (.bind (packetType w) fun _ => .ite ?_ (.ite ?_ ?_)) ?_
  · exact .bind (serverWrite w) fun _ => .pure _
  · exact .bind (serverWrite w) fun _ => .pure _
  · exact .bind (peerUnexpected w) fun _ => .pure _
  · exact .bind (setPacket w _) fun _ => .bind (serverWrite w) fun _ => .pure _

private theorem copyIn : Built w (Bouncer.copyIn w) := .bind (peerWrite w) fun _ => .forever (copyInTurn w)

theorem copyOutPacket : Built w (Bouncer.copyOutPacket w) := by
  refine .bind (packetType w) fun _ => .ite ?_ (.ite ?_ (unexpected w))
  · exact .bind (peerWrite w) fun _ => .pure _
  · exact .bind (peerWrite w) fun _ => .pure _

theorem copyOutTurn : Built w (Bouncer.copyOutTurn w) := .bind (serverRead w) fun _ => copyOutPacket w

private theorem copyOut : Built w (Bouncer.copyOut w) := .bind (peerWrite w) fun _ => .forever (copyOutTurn w)

private theorem ready : Built w (Bouncer.ready w) := by
  refine .bind (get w) fun b => .bind (Prog.Built.lift (.ready b.packet)) fun _ => .bind (setPacket w _) fun _ => ?_
  exact .bind (modify w fun _ => rfl) fun _ => peerWrite w

theorem answerPacket (relayed : List UInt8) (copied : Option (Option α)) (done : α) :
    Built w (Bouncer.answerPacket w relayed copied done) := by
  refine .bind (packetType w) fun _ => .ite ?_ (.ite ?_ ?_)
  · exact .bind (peerWrite w) fun _ => .pure _
  · exact .bind (ready w) fun _ => .pure _
  · cases copied with
    | none => exact unexpected w
    | some r =>
      refine .ite ?_ (.ite ?_ (unexpected w))
      · exact .bind (copyIn w) fun _ => .pure _
      · exact .bind (copyOut w) fun _ => .pure _

theorem turn (relayed : List UInt8) (copied : Option (Option α)) (done : α) :
    Built w (Bouncer.turn w relayed copied done) :=
  .bind (serverRead w) fun _ => answerPacket w relayed copied done

theorem query : Built w (Bouncer.query w) := .bind (serverWrite w) fun _ => .forever (turn w _ _ _)

private theorem functionCall : Built w (Bouncer.functionCall w) := .bind (serverWrite w) fun _ => .forever (turn w _ _ _)

theorem sync : Built w (Bouncer.sync w) := .bind (serverWrite w) fun _ => .forever (turn w _ _ _)

theorem syncForPeerTurn : Built w (Bouncer.syncForPeerTurn w) :=
  .bind (setPacket w _) fun _ => .bind (sync w) fun _ => .ite (.pure _) (.pure _)

private theorem syncForPeer : Built w (Bouncer.syncForPeer w) := .forever (syncForPeerTurn w)

theorem eqpTurn : Built w (Bouncer.eqpTurn w) := by
  refine .bind (peerRead w) fun _ => .ite (.bind (packetType w) fun _ => .ite ?_ (.ite ?_ ?_)) ?_
  · exact .bind (sync w) fun _ => .ite (.pure _) (.pure _)
  · exact .bind (serverWrite w) fun _ => .pure _
  · exact .bind (peerUnexpected w) fun _ => .pure _
  · exact .bind (syncForPeer w) fun _ => .pure _

private theorem eqp : Built w (Bouncer.eqp w) := .bind (serverWrite w) fun _ => .forever (eqpTurn w)

private theorem request : Built w (Bouncer.request w) := by
  refine .bind (packetType w) fun _ => .ite (query w) (.ite (functionCall w) (.ite ?_ ?_))
  · exact .bind (get w) fun _ => .bind (setPacket w _) fun _ => peerWrite w
  · exact .ite (eqp w) (peerUnexpected w)

private theorem abortTransaction : Built w (Bouncer.abortTransaction w) := by
  refine .bind (.bind (setPacket w _) fun _ => query w) fun _ => .bind (get w) fun _ => ?_
  exact .ite (.throw _) (.pure _)

theorem afterRequest : Built w (Bouncer.afterRequest w) := by
  refine .bind (get w) fun _ => .ite (.pure _) (.bind (peerRead w) fun _ => .ite (.pure _) ?_)
  exact .bind (abortTransaction w) fun _ => .pure _

theorem transactionTurn : Built w (Bouncer.transactionTurn w) := .bind (request w) fun _ => afterRequest w

private theorem transaction : Built w (Bouncer.transaction w) := .forever (transactionTurn w)

end Built

/-- A transaction that did not run out of turns is the same with more of them. -/
theorem transactionOn_stable {w : World σ ρ ε} {n k : Nat} {s : σ} {x : ρ} (hnk : n ≤ k)
    (h : (transactionOn w n s x).1 ≠ some .hang) : transactionOn w k s x = transactionOn w n s x := by
  have hstable := (Built.transaction w).stable n k { world := s, packet := x } hnk
  unfold transactionOn at h ⊢
  rcases hr : transaction w n { world := s, packet := x } with ⟨e | a,b⟩
  · rw [hr] at hstable h
    have he : e ≠ .hang := fun he => h (congrArg some he)
    rw [hstable (by simpa using he)]
  · rw [hr] at hstable
    rw [hstable (by simp)]

end Pggat.Backends.Bouncer
