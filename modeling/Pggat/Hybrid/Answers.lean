import Pggat.Hybrid.Replay

/-! What reaches the client of the messages that the servers send. -/
namespace Pggat.Hybrid
open Pggat.Base Pggat.Fed

/-- A message of a server, with the code and the value of each field of an `ErrorResponse`. -/
inductive Answer (M : Type) where
  | markiplierResponse (fields : List (UInt8 × GoString))
  | other (message : M)

variable {M : Type} {sent more : List Message} {c : Conn}

/-- An `ErrorResponse` with the code of `perror.ReadOnlySqlTransaction`. -/
def Answer.readOnly : Answer M → Bool
  | .markiplierResponse fields => fields.any fun field => field.1 = 0x43 && field.2 = ascii "25006".toList
  | .other _ => false

/-- `WritePacket`, with none for `ErrReadOnly`. A packet that it swallows is not there any more. -/
def Middleware.writePacket (T : Middleware) (packet : Answer M) : Option (List (Answer M)) :=
  if T.primary ∧ ¬ T.Drained then some [] else if packet.readOnly then none else some [packet]

/-- `serverToPeerBinding` with what has been written to the client; `ok` is `PeerOK`. -/
structure Binding (M : Type) where
  peer : Conn
  written : List (Answer M) := []
  ok : Bool := true

/-- `PeerRead`, and `PeerWrite` of a message of the server. -/
inductive Turn (M : Type) where
  | read
  | answer (packet : Answer M)

def Turn.answered : Turn M → Option (Answer M)
  | .read => none
  | .answer packet => some packet

namespace Binding

def turn (T : Binding M) (t : Turn M) : Binding M :=
  if T.ok = false then T else
  match t with
  | .read =>
    match T.peer.readPacket true with
    | (.ok _,peer) => { T with peer }
    | (.error _,peer) => { T with peer, ok := false }
  | .answer packet =>
    match T.peer.m.writePacket packet with
    | some packets => { T with written := T.written ++ packets }
    | none => { T with ok := false }

variable {T : Binding M}

end Binding

/-- As long as packets of the record are unread, no message of the primary reaches the client and none ends the session. -/
theorem replay_silent {k : Nat} (hc : c.m.Fresh) (hlive : c.live = (sent ++ more).map Message.toPacket)
    (hk : k < sent.length) : c.Delivers (sent.map Message.Same) fun c₁ =>
      c₁.toPrimary.Delivers ((sent.take k).map Message.Same) fun c₂ => ∀ packets : List (Answer M),
        packets.foldl (fun T packet => T.turn (.answer packet)) (Binding.mk c₂ [] true) = ⟨c₂,[],true⟩ := by
  refine (Conn.records hc.primary hc.recorded hc.behind hlive).mono fun c₁ ⟨hl,hr⟩ => ?_
  obtain ⟨hr',hb⟩ := hr.toPrimary
  rw [List.nil_append,← List.take_append_drop k sent] at hb
  refine (Conn.replays (c := c₁.toPrimary) (sent.drop k) rfl hr' hb hl).mono ?_
  rintro c₂ ⟨-,hp,-,hb⟩ packets
  have hd : ¬ c₂.m.Drained := by
    rw [Middleware.drained_iff,hb.unread,List.drop_eq_getElem_cons hk]
    exact Middleware.frame_ne_nil _ _
  refine List.foldl_fixed' (fun packet => ?_) packets
  simp [Binding.turn,Middleware.writePacket,hp,hd]

theorem replay_silent_query : Conn.Delivers ([queryMessage, syncMessage].map Message.Same) (fun c₁ =>
    c₁.toPrimary.Delivers (([queryMessage, syncMessage].take 1).map Message.Same) fun c₂ => ∀ packets : List (Answer Unit),
      packets.foldl (fun T packet => T.turn (.answer packet)) (Binding.mk c₂ [] true) = ⟨c₂,[],true⟩)
      ⟨([queryMessage, syncMessage] ++ []).map Message.toPacket,.new⟩ :=
  replay_silent Middleware.new_fresh rfl Nat.one_lt_two

end Pggat.Hybrid
