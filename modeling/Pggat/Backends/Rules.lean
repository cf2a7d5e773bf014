import Pggat.Backends.View

/-! The rules for the operations of the bouncer. -/
namespace Pggat.Backends.View
open Pggat.Base Packets Bouncer
variable {σ ρ ε α β : Type} {w : World σ ρ ε} {v : View w} {b : ServerToPeerBinding σ ρ ε}
variable {Q : β → ServerToPeerBinding σ ρ ε → Prop} {E : Fault ε → ServerToPeerBinding σ ρ ε → Prop}

/-- The program ends without an error and with `Q`, unless there is an excuse. -/
def Ensures (v : View w) (m : M σ ρ ε β) (b : ServerToPeerBinding σ ρ ε)
    (Q : β → ServerToPeerBinding σ ρ ε → Prop) : Prop :=
  Prog.Ends v.Excused m b Q fun _ _ => False

variable {m : M σ ρ ε α} {f : α → M σ ρ ε β} {P : α → ServerToPeerBinding σ ρ ε → Prop}

theorem Ensures.seq
    (h : v.Ensures m b P) (hf : ∀ a, Built w (f a)) (hk : ∀ a b, P a b → Prog.Ends v.Excused (f a) b Q E) :
    Prog.Ends v.Excused (m >>= f) b Q E :=
  Prog.Ends.seq h (fun a => v.keeps (hf a)) hk

theorem Ensures.after
    (h : Prog.Settles m b P) (hk : ∀ a b, P a b → v.Ensures (f a) b Q) : v.Ensures (m >>= f) b Q :=
  Prog.Ends.after h hk

theorem Ensures.mono {m : M σ ρ ε β} {Q' : β → ServerToPeerBinding σ ρ ε → Prop} (h : v.Ensures m b Q)
    (hQ : ∀ a b, Q a b → Q' a b) : v.Ensures m b Q' :=
  Prog.Ends.mono h hQ fun _ _ => id

theorem Ensures.forever {body : M σ ρ ε (Option β)} (I : ServerToPeerBinding σ ρ ε → Prop)
    (n : ServerToPeerBinding σ ρ ε → Nat) (hk : Built w body)
    (hbody : ∀ b, I b → v.Ensures body b fun r b' => match r with
      | some a => Q a b'
      | none => I b' ∧ n b' < n b) (hI : I b) : v.Ensures (forever body) b Q :=
  Prog.Ends.loop I n (v.keeps hk) hbody hI

theorem ends_packetType {f : UInt8 → M σ ρ ε β} (h : Prog.Ends v.Excused (f (w.type b.packet)) b Q E) :
    Prog.Ends v.Excused (packetType w >>= f) b Q E := h

theorem ends_get {f : ServerToPeerBinding σ ρ ε → M σ ρ ε β} (h : Prog.Ends v.Excused (f b) b Q E) :
    Prog.Ends v.Excused (Bouncer.get >>= f) b Q E := h

variable {x : ρ}

theorem ends_setPacket {m : M σ ρ ε β} (h : Prog.Ends v.Excused m { b with packet := x } Q E) :
    Prog.Ends v.Excused (setPacket x >>= fun _ => m) b Q E := h

variable {s : σ}

theorem serverRead_eq (h : w.serverRead b.world = (.ok x,s)) (n : Nat) :
    serverRead w n b = (.ok (),{ b with world := s, packet := x }) := by
  have hio : io (ρ := ρ) w.serverRead b = (.ok x,{ b with world := s }) := by
    unfold io
    rw [h]
  exact Action.bind_ok hio

/-- What the binding is after a packet of the server was read. -/
structure Received (v : View w) (R : Packet → Server → Prop) (b b' : ServerToPeerBinding σ ρ ε) : Prop where
  fit : v.Fit b'.world
  packet : ∃ p, b'.packet = w.made p ∧ R p (v.server b'.world) ∧
    (p.type = typeCopyInResponse → (v.server b'.world).copyIns < (v.server b.world).copyIns)
  follows : v.Follows b b'
  weight : (v.server b'.world).weight < (v.server b.world).weight

theorem serverRead_ensures {R : Packet → Server → Prop} (hf : v.Fit b.world)
    (h : (v.server b.world).Sends fun p s => s.early = true ∨ R p s) :
    v.Ensures (serverRead w) b fun _ b' => v.Received R b b' := by
  obtain ⟨p,s,hr,hp⟩ := h
  obtain ⟨t,ht,hfit,rfl,hleft⟩ := v.on_serverRead hf hr
  have hspends := Server.read_spends hr
  have hweight := hspends.weight
  rcases hp with hp | hp
  · refine Prog.Ends.escape fun n => ?_
    rw [serverRead_eq ht]
    exact v.early_excuse hp
  · refine .inl ⟨_,⟨0,fun n _ => serverRead_eq ht n⟩,?_⟩
    simp only [Option.toList,List.length_singleton] at hweight
    exact ⟨hfit,⟨p,rfl,hp,hspends.copyIn p rfl⟩,⟨Nat.le_of_eq hleft,Nat.le_of_lt hweight,hspends.copyIns,rfl⟩,hweight⟩

theorem serverWrite_ensures {p : Packet} (hf : v.Fit b.world) (hp : v.Holds b.packet p b.world) :
    v.Ensures (serverWrite w) b fun _ b' => v.Fit b'.world ∧ v.server b'.world = (v.server b.world).write p ∧
      v.left b'.world ≤ v.left b.world ∧ b'.txState = b.txState := by
  rcases v.on_serverWrite hf hp with excuse | ⟨t,ht,hfit,hs,hleft⟩
  · refine Prog.Ends.escape fun n => ?_
    show v.Excuse (io (w.serverWrite b.packet) b).2.world
    unfold io
    rcases hr : w.serverWrite b.packet b.world with ⟨_ | _,s⟩ <;> simpa [hr] using excuse
  · have hio : io (w.serverWrite b.packet) b = (.ok (),{ b with world := t }) := by
      unfold io
      rw [ht]
    exact .inl ⟨_,⟨0,fun _ _ => hio⟩,hfit,hs,hleft,rfl⟩

private theorem peerRead_ok (hok : peerOK b = true) (h : w.peerRead b.world = (.ok x,s)) (n : Nat) :
    peerRead w n b = (.ok true,{ b with world := s, packet := x }) := by
  simp [peerRead,Prog.lift,readPeer,hok,h]

variable {e : ε}

private theorem peerRead_error (hok : peerOK b = true) (h : w.peerRead b.world = (.error e,s)) (n : Nat) :
    peerRead w n b = (.ok false,failed { b with world := s } (.io e)) := by
  simp [peerRead,Prog.lift,readPeer,hok,h]

theorem peerRead_gone (hok : ¬ peerOK b = true) (n : Nat) : peerRead w n b = (.ok false,b) := if_neg hok

theorem peerRead_settles (hf : v.Fit b.world) :
    Prog.Settles (peerRead w) b fun ok b' => v.Fit b'.world ∧ v.server b'.world = v.server b.world ∧
      b'.txState = b.txState ∧ v.left b'.world ≤ v.left b.world ∧
      (ok = true → v.left b'.world < v.left b.world ∧ ∃ p, v.Holds b'.packet p b'.world) := by
  have h := v.on_peerRead hf
  by_cases hok : peerOK b = true
  · rcases hr : w.peerRead b.world with ⟨e | x,s⟩
    · rw [hr] at h
      exact ⟨false,_,⟨0,fun n _ => peerRead_error hok hr n⟩,h.1,h.2.1,rfl,h.2.2,fun h => nomatch h⟩
    · rw [hr] at h
      exact ⟨true,_,⟨0,fun n _ => peerRead_ok hok hr n⟩,h.1,h.2.1,rfl,Nat.le_of_lt h.2.2.1,fun _ => h.2.2⟩
  · exact ⟨false,b,⟨0,fun n _ => peerRead_gone hok n⟩,hf,rfl,rfl,Nat.le_refl _,fun h => nomatch h⟩

private theorem peerWrite_ok {a : Unit} (hok : peerOK b = true) (h : w.peerWrite b.packet b.world = (.ok a,s)) (n : Nat) :
    peerWrite w n b = (.ok (),{ b with world := s }) := by
  simp [peerWrite,Prog.lift,writePeer,hok,h]

private theorem peerWrite_error (hok : peerOK b = true) (h : w.peerWrite b.packet b.world = (.error e,s))
    (n : Nat) : peerWrite w n b = (.ok (),failed { b with world := s } (.io e)) := by
  simp [peerWrite,Prog.lift,writePeer,hok,h]

theorem peerWrite_gone (hok : ¬ peerOK b = true) (n : Nat) : peerWrite w n b = (.ok (),b) := if_neg hok

theorem follows_same {b' : ServerToPeerBinding σ ρ ε} (hs : v.server b'.world = v.server b.world)
    (hl : v.left b'.world ≤ v.left b.world) (ht : b'.txState = b.txState) : v.Follows b b' where
  left := hl
  weight := Nat.le_of_eq (congrArg Server.weight hs)
  copyIns := Nat.le_of_eq (congrArg Server.copyIns hs)
  txState := ht

theorem peerWrite_settles (hf : v.Fit b.world) :
    Prog.Settles (peerWrite w) b fun _ b' =>
      v.Fit b'.world ∧ v.server b'.world = v.server b.world ∧ v.Follows b b' := by
  obtain ⟨hfit,hs,hleft⟩ := v.on_peerWrite b.packet hf
  by_cases hok : peerOK b = true
  · rcases hr : w.peerWrite b.packet b.world with ⟨e | x,s⟩
    · rw [hr] at hfit hs hleft
      exact ⟨(),_,⟨0,fun n _ => peerWrite_error hok hr n⟩,hfit,hs,follows_same hs (Nat.le_of_eq hleft) rfl⟩
    · rw [hr] at hfit hs hleft
      exact ⟨(),_,⟨0,fun n _ => peerWrite_ok hok hr n⟩,hfit,hs,follows_same hs (Nat.le_of_eq hleft) rfl⟩
  · exact ⟨(),b,⟨0,fun n _ => peerWrite_gone hok n⟩,hf,rfl,.refl b⟩

theorem peerUnexpected_settles :
    Prog.Settles (peerUnexpected w) b fun _ b' => b'.world = b.world ∧ b'.txState = b.txState :=
  ⟨(),_,⟨0,fun _ _ => rfl⟩,rfl,rfl⟩

end Pggat.Backends.View
