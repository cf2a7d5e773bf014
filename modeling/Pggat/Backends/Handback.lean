import Pggat.Backends.Transactions

/-! A server is handed back clean. The client is a sequence of packets behind which it disconnects. -/
namespace Pggat.Backends
open Pggat.Base Packets

/-- `blocked` stands for a read that does not return. -/
inductive IoError where
  | eof
  | closed
  | blocked
  deriving DecidableEq, Repr

/-- `client` are the packets that the client still sends, and `takes` says which of the writes to it succeed. -/
structure Session where
  server : Server
  client : List Packet := []
  takes : Nat → Bool := fun _ => true
  written : Nat := 0

namespace Session

def serverRead : Action IoError Session Packet := fun s =>
  match s.server.read with
  | (some p,server) => (.ok p,{ s with server := server })
  | (none,server) => (.error .blocked,{ s with server := server })

def serverWrite (p : Packet) : Action IoError Session Unit := fun s => (.ok (),{ s with server := s.server.write p })

def peerRead : Action IoError Session Packet := fun s =>
  match s.client with
  | p :: client => (.ok p,{ s with client := client })
  | [] => (.error .eof,s)

def peerWrite (_ : Packet) : Action IoError Session Unit := fun s =>
  (if s.takes s.written then .ok () else .error .closed,{ s with written := s.written + 1 })

def toReadyForQuery (p : Packet) : Action IoError Session UInt8 := fun s =>
  match p.payload with
  | state :: _ => (.ok state,s)
  | [] => (.error .eof,s)

theorem serverRead_some {s : Session} {p : Packet} {v : Server} (h : s.server.read = (some p,v)) :
    serverRead s = (.ok p,{ s with server := v }) := by
  unfold serverRead
  rw [h]

theorem serverRead_server (s : Session) : (serverRead s).2.server = s.server.read.2 := by
  unfold serverRead
  rcases s.server.read with ⟨_ | p,v⟩ <;> rfl

theorem peerRead_server (s : Session) : (peerRead s).2.server = s.server := by
  unfold peerRead
  rcases s.client with _ | ⟨p,client⟩ <;> rfl

theorem toReadyForQuery_session (p : Packet) (s : Session) : (toReadyForQuery p s).2 = s := by
  unfold toReadyForQuery
  rcases p.payload with _ | ⟨a,t⟩ <;> rfl

end Session

def session : World Session Packet IoError where
  type := Packet.type
  made := id
  serverRead := Session.serverRead
  serverWrite := Session.serverWrite
  peerRead := Session.peerRead
  peerWrite := Session.peerWrite
  toReadyForQuery := Session.toReadyForQuery

/-- Every packet of a session is whole, and nothing but the server can go wrong. -/
def session.view : View session where
  server := Session.server
  left s := s.client.length
  Fit _ := True
  Excuse s := s.server.early = true
  Holds x p _ := x = p
  made_type _ := rfl
  holds_made _ _ := rfl
  holds_type h := congrArg Packet.type h
  on_ready _ _ := rfl
  on_serverRead _ h := ⟨_,Session.serverRead_some h,trivial,rfl,rfl⟩
  on_serverWrite := by
    intro s x p _ h
    cases h
    exact .inr ⟨_,rfl,trivial,rfl,Nat.le_refl _⟩
  on_peerRead := by
    intro ⟨server,client,takes,written⟩ _
    cases client with
    | nil => exact ⟨trivial,rfl,Nat.le_refl _⟩
    | cons p client => exact ⟨trivial,rfl,Nat.lt_succ_self _,p,rfl⟩
  on_peerWrite _ _ := ⟨trivial,rfl,rfl⟩
  early_excuse := id
  serverRead_excuse := by
    intro s h
    show (Session.serverRead s).2.server.early = true
    rw [Session.serverRead_server]
    exact (Server.read_spends rfl).early h
  serverWrite_excuse _ h := h
  peerRead_excuse := by
    intro s h
    show (Session.peerRead s).2.server.early = true
    rw [Session.peerRead_server]
    exact h
  peerWrite_excuse _ h := h
  ready_excuse := by
    intro s x h
    show (Session.toReadyForQuery x s).2.server.early = true
    rw [Session.toReadyForQuery_session]
    exact h

private theorem Server.Drained.waits {s : Server} (h : s.Drained) : s.read.1 = none := by
  induction hi : s.inbox generalizing s with
  | nil =>
    rw [Server.read_eq]
    unfold Server.Drained at h
    split at h
    · rename_i hm
      simp [Server.step,hm,hi]
    · cases h
  | cons m inbox ih =>
    unfold Server.Drained at h
    split at h
    · rename_i hm
      rw [hi] at h
      have hs : s.step = some (none,{ s with inbox := inbox }) := by
        unfold Server.step
        rw [hm,hi]
        exact congrArg (fun t => some (none,t)) (Server.accept_stray (h m (by simp)))
      rw [Server.read_eq,hs]
      refine ih ?_ rfl
      simp only [Server.Drained,hm]
      exact fun x hx => h x (by simp [hx])
    · cases h

open Bouncer

/-- A transaction that starts on a drained server and returns no server error leaves the server drained, with
`I` as the last state that it sent, if the server never leaves the copying of an extended query before it has
read the `Sync` behind it. -/
theorem transaction_hands_back (s : Session) (initialPacket : Packet) (hs : s.server.Drained)
    (hearly : ∀ n, (transactionOn session n s initialPacket).2.2.server.early = false) :
    ∃ N err peerError t, (∀ n ≥ N, transactionOn session n s initialPacket = (err,peerError,t)) ∧
      (err = none ∧ t.server.Drained ∧ t.server.read.1 = none ∧ t.server.ready.head? = some idle ∨
        err = some .expectedIdle) := by
  obtain ⟨N,err,peerError,t,hN,_,h⟩ := session.view.transactionOn_ends trivial hs rfl fun n h =>
    Bool.false_ne_true ((hearly n).symm.trans h)
  refine ⟨N,err,peerError,t,hN,?_⟩
  rcases h with ⟨he,hd,hr⟩ | ⟨he,_⟩
  · exact .inl ⟨he,hd,hd.waits,hr⟩
  · exact .inr he

def copyingServer (patience : Nat) : Server where
  fates
    | 0 => ⟨fun
      | .extended => [.copyIn rfl [] patience []]
      | _ => [],fun _ => idle⟩
    | _ => ⟨fun _ => [],fun _ => idle⟩

def copyingSession (patience : Nat) : Session where
  server := copyingServer patience
  client := [Packets.sync, ⟨typeCopyDone,[]⟩, Packets.sync]

def execute : Packet := ⟨typeExecute,[]⟩

theorem transaction_hands_back_copying :
    ∃ N err peerError t, (∀ n ≥ N, transactionOn session n (copyingSession 9) execute = (err,peerError,t)) ∧
      (err = none ∧ t.server.Drained ∧ t.server.read.1 = none ∧ t.server.ready.head? = some idle ∨
        err = some .expectedIdle) :=
  transaction_hands_back (copyingSession 9) execute (by simp [copyingSession,copyingServer,Server.Drained]) fun n => by
    rcases Nat.lt_or_ge n 4 with hn | hn
    · have h : ∀ n < 4, (transactionOn session n (copyingSession 9) execute).2.2.server.early = false := by
        decide +kernel
      exact h n hn
    · rw [transactionOn_stable hn (by decide +kernel)]
      decide +kernel

/-- The server raises an error right after its `CopyInResponse`. Both `Sync`s are answered then, the bouncer
reads one answer and hands the server back with the other one outstanding. -/
theorem transaction_leaves_answer :
    (copyingSession 0).server.Drained ∧ ∀ n ≥ 4,
      (transactionOn session n (copyingSession 0) execute).1 = none ∧
      (transactionOn session n (copyingSession 0) execute).2.2.server.read.1 = some (readyForQuery idle) := by
  refine ⟨by simp [copyingSession,copyingServer,Server.Drained],fun n hn => ?_⟩
  rw [transactionOn_stable hn (by decide +kernel)]
  exact ⟨by decide +kernel,by decide +kernel⟩

end Pggat.Backends
