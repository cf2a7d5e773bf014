import Pggat.Backends.Operations
import Pggat.Backends.Protocol

/-! What the proofs about the bouncer use of its connections, and the rules for its operations on them. -/
namespace Pggat.Backends
open Pggat.Base Packets

/-- Connections to a server that follows the protocol. `left` bounds what the peer still sends, `Fit` says
that the connections are in order, and `Holds` that writing a packet now delivers that packet to the server. `Excuse` is
history: the server has left a copying of an extended query before it read the `Sync` behind it, or a packet could not
be delivered. -/
structure View {σ ρ ε : Type} (w : World σ ρ ε) where
  server : σ → Server
  left : σ → Nat
  Fit : σ → Prop
  Excuse : σ → Prop
  Holds : ρ → Packet → σ → Prop
  made_type : ∀ p, w.type (w.made p) = p.type
  holds_made : ∀ {p} s, p.Own → Holds (w.made p) p s
  holds_type : ∀ {x p s}, Holds x p s → w.type x = p.type
  on_ready : ∀ state s, w.toReadyForQuery (w.made (readyForQuery state)) s = (.ok state,s)
  on_serverRead : ∀ {s p v}, Fit s → (server s).read = (some p,v) →
    ∃ s', w.serverRead s = (.ok (w.made p),s') ∧ Fit s' ∧ server s' = v ∧ left s' = left s
  on_serverWrite : ∀ {s x p}, Fit s → Holds x p s → Excuse (w.serverWrite x s).2 ∨
    ∃ s', w.serverWrite x s = (.ok (),s') ∧ Fit s' ∧ server s' = (server s).write p ∧ left s' ≤ left s
  on_peerRead : ∀ {s}, Fit s → match w.peerRead s with
    | (.ok x,s') => Fit s' ∧ server s' = server s ∧ left s' < left s ∧ ∃ p, Holds x p s'
    | (.error _,s') => Fit s' ∧ server s' = server s ∧ left s' ≤ left s
  on_peerWrite : ∀ {s} x, Fit s →
    Fit (w.peerWrite x s).2 ∧ server (w.peerWrite x s).2 = server s ∧ left (w.peerWrite x s).2 = left s
  early_excuse : ∀ {s}, (server s).early = true → Excuse s
  serverRead_excuse : ∀ {s}, Excuse s → Excuse (w.serverRead s).2
  serverWrite_excuse : ∀ {s} x, Excuse s → Excuse (w.serverWrite x s).2
  peerRead_excuse : ∀ {s}, Excuse s → Excuse (w.peerRead s).2
  peerWrite_excuse : ∀ {s} x, Excuse s → Excuse (w.peerWrite x s).2
  ready_excuse : ∀ {s} x, Excuse s → Excuse (w.toReadyForQuery x s).2

namespace View
open Bouncer
variable {σ ρ ε α : Type} {w : World σ ρ ε} (v : View w)

def Excused (b : ServerToPeerBinding σ ρ ε) : Prop := v.Excuse b.world

/-- The connections are in order and the server is in `I`. -/
def At (I : Server → Prop) (b : ServerToPeerBinding σ ρ ε) : Prop := v.Fit b.world ∧ I (v.server b.world)

/-- What no operation inside of an answer undoes. -/
structure Follows (b b' : ServerToPeerBinding σ ρ ε) : Prop where
  left : v.left b'.world ≤ v.left b.world
  weight : (v.server b'.world).weight ≤ (v.server b.world).weight
  copyIns : (v.server b'.world).copyIns ≤ (v.server b.world).copyIns
  txState : b'.txState = b.txState

variable {v}

theorem Follows.refl (b : ServerToPeerBinding σ ρ ε) : v.Follows b b := ⟨Nat.le_refl _,Nat.le_refl _,Nat.le_refl _,rfl⟩

variable {a b : ServerToPeerBinding σ ρ ε}

theorem Follows.trans {c : ServerToPeerBinding σ ρ ε} (h : v.Follows a b) (h' : v.Follows b c) : v.Follows a c where
  left := Nat.le_trans h'.left h.left
  weight := Nat.le_trans h'.weight h.weight
  copyIns := Nat.le_trans h'.copyIns h.copyIns
  txState := h'.txState.trans h.txState

theorem Follows.packet (h : v.Follows a b) (x : ρ) :
    v.Follows a { b with packet := x } :=
  ⟨h.left,h.weight,h.copyIns,h.txState⟩

variable (v)

private theorem operation_keeps {m : Action (Fault ε) (ServerToPeerBinding σ ρ ε) α} (hm : Operation w α m)
    (h : v.Excused b) : v.Excused (m b).2 := by
  have hio : ∀ {β : Type} {m : Action ε σ β}, v.Excuse (m b.world).2 → v.Excused (io m b).2 := by
    intro β m hm
    unfold Excused io
    rcases hr : m b.world with ⟨_ | a,s⟩ <;> simpa [hr] using hm
  cases hm with
  | get => exact h
  | throw => exact h
  | pure => exact h
  | modify f hf =>
    unfold Excused
    rw [show (f b).world = b.world from hf b]
    exact h
  | serverRead => exact hio (v.serverRead_excuse h)
  | serverWrite => exact hio (v.serverWrite_excuse _ h)
  | ready x => exact hio (v.ready_excuse x h)
  | peerRead =>
    have := v.peerRead_excuse h
    unfold Excused readPeer
    split
    · rcases hr : w.peerRead b.world with ⟨_ | a,s⟩ <;> simpa [hr,failed] using this
    · exact h
  | peerWrite =>
    have := v.peerWrite_excuse b.packet h
    unfold Excused writePeer
    split
    · rcases hr : w.peerWrite b.packet b.world with ⟨_ | a,s⟩ <;> simpa [hr,failed] using this
    · exact h

theorem keeps {m : M σ ρ ε α} (h : Built w m) : Prog.Keeps v.Excused m :=
  Prog.Built.keeps (fun _ _ hm _ hs => v.operation_keeps hm hs) h

end View
end Pggat.Backends
