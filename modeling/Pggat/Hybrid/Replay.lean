import Pggat.Hybrid.Recording

/-! What the client sent is read again from the record, packet by packet, and after it what the client sends now. -/
namespace Pggat.Hybrid
open Pggat.Base Pggat.Fed Encoder

def frames (ms : List Message) : List UInt8 := (ms.map Message.frame).flatten

namespace Middleware
variable {T : Middleware}

/-- Nothing is recorded and nothing is left to be read. -/
structure Fresh (T : Middleware) : Prop where
  primary : T.primary = false
  recorded : T.Recorded []
  behind : T.Behind []

theorem new_fresh : new.Fresh := ⟨rfl,⟨rfl,rfl,rfl,rfl⟩,⟨rfl,rfl⟩⟩

variable {bytes : List UInt8}

theorem Recorded.reset (h : T.Recorded bytes) : T.reset.Fresh :=
  ⟨rfl,⟨h.works,rfl,h.balanced,rfl⟩,⟨rfl,rfl⟩⟩

theorem Recorded.toPrimary (h : T.Recorded bytes) :
    T.toPrimary.Recorded bytes ∧ T.toPrimary.Behind bytes :=
  ⟨⟨h.works,h.flushed,h.balanced,h.buf⟩,⟨rfl,h.buf⟩⟩

theorem preRead_none (typed : Bool) (h : T.primary = false ∨ T.unread = []) : preRead typed T = (.ok none,T) := by
  unfold preRead
  split
  · rfl
  · rename_i hp
    rw [if_pos (T.drained_iff.mpr (h.resolve_left hp))]

theorem frame_ne_nil (m : Message) (rest : List UInt8) : m.frame ++ rest ≠ [] := by
  simp [Message.frame,headerBytes,m.typed]

theorem preRead_some {m : Message} {rest : List UInt8} (hp : T.primary = true) (hr : T.Recorded bytes)
    (hb : T.Behind (m.frame ++ rest)) :
    ∃ T', preRead true T = (.ok (some (.pending T'.decoder)),T') ∧ T'.primary = true ∧ T'.Recorded bytes ∧
      T'.Facing m.type m.payload rest := by
  obtain ⟨T',hn,hf,hp',he,hbuf⟩ := next_facing hb
  have htyped : decide (m.type ≠ 0) = true := decide_eq_true m.typed
  rw [htyped] at hn
  have hdrained : ¬ T.Drained := by
    rw [drained_iff,hb.unread]
    exact frame_ne_nil m rest
  refine ⟨T',?_,hp'.trans hp,⟨?_,?_,?_,hbuf.trans hr.buf⟩,hf⟩
  · rw [preRead,if_neg (by simp [hp]),if_neg hdrained,Action.bind_ok hn]
    rfl
  · exact he ▸ hr.works
  · exact he ▸ hr.flushed
  · exact he ▸ hr.balanced

end Middleware

namespace Conn
variable {c : Conn}

structure Consumed (c c' : Conn) : Prop where
  live : c'.live = c.live
  m : c.m.Consumed c'.m

/-- The next packets that `ReadPacket` returns are as described, whatever the readers do that read them to their
ends, and `K` holds of the connection then. -/
def Delivers : List (Packet → Prop) → (Conn → Prop) → Conn → Prop
  | [], K, c => K c
  | P :: Ps, K, c => ∃ p c', readPacket true c = (.ok p,c') ∧ P p ∧ (∃ c'', c'.Consumed c'') ∧
      ∀ c'', c'.Consumed c'' → Delivers Ps K c''

variable {Ps : List (Packet → Prop)} {K : Conn → Prop}

theorem Delivers.append {Qs : List (Packet → Prop)} (h : Delivers Ps (Delivers Qs K) c) :
    Delivers (Ps ++ Qs) K c := by
  induction Ps generalizing c with
  | nil => exact h
  | cons P Ps ih =>
    obtain ⟨p,c',hread,hp,hex,hall⟩ := h
    exact ⟨p,c',hread,hp,hex,fun c'' hc => ih (hall c'' hc)⟩

theorem Delivers.mono {K' : Conn → Prop} (h : Delivers Ps K c) (hK : ∀ c, K c → K' c) :
    Delivers Ps K' c := by
  induction Ps generalizing c with
  | nil => exact hK c h
  | cons P Ps ih =>
    obtain ⟨p,c',hread,hp,hex,hall⟩ := h
    exact ⟨p,c',hread,hp,hex,fun c'' hc => ih (hall c'' hc)⟩

/-- A packet that the record still holds, or that the client sent, is read to its end and `K` holds then. -/
theorem Delivers.facing {P : Packet → Prop} {c' : Conn} {m : Message}
    {rest : List UInt8} (hread : readPacket true c = (.ok (.pending c'.m.decoder),c'))
    (hf : c'.m.Facing m.type m.payload rest) (hP : P (.pending c'.m.decoder))
    (hall : ∀ c'', c'.Consumed c'' → c''.m.Behind rest → Delivers Ps K c'') : Delivers (P :: Ps) K c := by
  refine ⟨_,c',hread,hP,?_,fun c'' hc => hall c'' hc (hf.behind hc.m)⟩
  exact ⟨{ c' with m := c'.m.took (Relay.writeTo ⟨{},c'.m.decoder⟩).2.decoder },⟨rfl,hf.consumed ⟨rfl,by simp⟩⟩⟩

variable {m : Middleware}

theorem onMiddleware_ok {α : Type} {op : MiddlewareM α} {a : α} (h : op c.m = (.ok a,m)) :
    onMiddleware op c = (.ok a,{ c with m }) := by
  simp only [onMiddleware,h]

variable {p : Packet} {live : List Packet}

theorem readPacket_live {q : Packet} (hpre : Middleware.preRead true c.m = (.ok none,c.m))
    (hlive : c.live = p :: live) (hread : Middleware.readPacket p c.m = (.ok q,m)) :
    readPacket true c = (.ok q,⟨live,m⟩) := by
  have hreceive : receive c = (.ok p,{ c with live }) := by simp only [receive,hlive]
  rw [readPacket,Action.bind_ok (onMiddleware_ok hpre)]
  exact (Action.bind_ok hreceive).trans (onMiddleware_ok (c := { c with live }) hread)

private theorem readPacket_replayed (hpre : Middleware.preRead true c.m = (.ok (some p),m))
    (hp : m.primary = true) : readPacket true c = (.ok p,{ c with m }) := by
  have hread : Middleware.readPacket p m = (.ok p,m) := if_pos hp
  rw [readPacket,Action.bind_ok (onMiddleware_ok hpre)]
  exact onMiddleware_ok (c := { c with m }) hread

variable {sent more : List Message} {bytes : List UInt8}

theorem records (hp : c.m.primary = false) (hr : c.m.Recorded bytes)
    (hb : c.m.Behind []) (hlive : c.live = (sent ++ more).map Message.toPacket) :
    c.Delivers (sent.map Message.Same) fun c' =>
      c'.live = more.map Message.toPacket ∧ c'.m.Recorded (bytes ++ frames sent) := by
  induction sent generalizing c bytes with
  | nil =>
    refine ⟨hlive,?_⟩
    rw [frames,List.map_nil,List.flatten_nil,List.append_nil]
    exact hr
  | cons m sent ih =>
    obtain ⟨T,hread,hp',hr',hf⟩ := Middleware.readPacket_records m hp hr hb
    refine .facing (readPacket_live (Middleware.preRead_none true (.inl hp)) hlive hread) hf hf.carries fun c' hc hb' => ?_
    have hrest : bytes ++ frames (m :: sent) = bytes ++ m.frame ++ frames sent := (List.append_assoc _ _ _).symm
    rw [hrest]
    exact ih (hc.m.primary.trans hp') (hr'.consumed hc.m) hb' hc.live

theorem replays (rest : List Message) (hp : c.m.primary = true)
    (hr : c.m.Recorded bytes) (hb : c.m.Behind (frames (sent ++ rest))) (hlive : c.live = live) :
    c.Delivers (sent.map Message.Same) fun c' =>
      c'.live = live ∧ c'.m.primary = true ∧ c'.m.Recorded bytes ∧ c'.m.Behind (frames rest) := by
  induction sent generalizing c with
  | nil => exact ⟨hlive,hp,hr,hb⟩
  | cons m sent ih =>
    obtain ⟨T,hpre,hp',hr',hf⟩ := Middleware.preRead_some hp hr hb
    refine .facing (readPacket_replayed hpre hp') hf hf.carries fun c' hc hb' => ?_
    exact ih (hc.m.primary.trans hp') (hr'.consumed hc.m) hb' (hc.live.trans hlive)

private theorem passes (more : List Message) {new : List Message} (hp : c.m.primary = true) (hr : c.m.Recorded bytes)
    (hb : c.m.Behind []) (hlive : c.live = (new ++ more).map Message.toPacket) :
    c.Delivers (new.map fun m p => p = m.toPacket) fun c' =>
      c'.live = more.map Message.toPacket ∧ c'.m.Recorded bytes := by
  induction new generalizing c with
  | nil => exact ⟨hlive,hr⟩
  | cons m new ih =>
    have hread : Middleware.readPacket m.toPacket c.m = (.ok m.toPacket,c.m) := if_pos hp
    refine ⟨_,_,readPacket_live (Middleware.preRead_none true (.inr hb.unread)) hlive hread,rfl,?_,fun c' hc => ?_⟩
    · refine ⟨_,rfl,⟨rfl,rfl,rfl,hb.balanced,?_⟩⟩
      rw [hb.balanced,Int.sub_self]
      rfl
    · have hb' : c'.m.Behind [] := by
        refine ⟨hc.m.packetPos,?_⟩
        rw [hc.m.unread,hb.unread,List.drop_nil]
      exact ih (hc.m.primary.trans hp) (hr.consumed hc.m) hb' hc.live

/-- The client's packets `sent` are read and, after `Primary`, `sent` is read again and then `more`, the very packets
that the client sends. `after` holds when any number of these have been read. -/
def Replays (sent more : List Message) (after : Nat → Conn → Prop) (c : Conn) : Prop :=
  c.Delivers (sent.map Message.Same) fun c' => ∀ k,
    c'.toPrimary.Delivers ((sent.map Message.Same ++ more.map fun m p => p = m.toPacket).take k) (after k)

private theorem fresh_replays (hc : c.m.Fresh)
    (hlive : c.live = (sent ++ more).map Message.toPacket) :
    c.Replays sent more fun k c' => c'.m.reset.Fresh ∧ c'.live = (more.drop (k - sent.length)).map Message.toPacket := by
  refine (records hc.primary hc.recorded hc.behind hlive).mono fun c' ⟨hlive',hr⟩ k => ?_
  obtain ⟨hr',hb⟩ := hr.toPrimary
  rw [List.nil_append] at hr' hb
  rw [List.take_append,← List.map_take,← List.map_take,List.length_map]
  refine .append ((replays (c := c'.toPrimary) (sent.drop k) rfl hr' ?_ hlive').mono fun c₁ ⟨hl₁,hp₁,hr₁,hb₁⟩ => ?_)
  · rw [List.take_append_drop]
    exact hb
  · rcases Nat.lt_or_ge k sent.length with hk | hk
    · have hzero : k - sent.length = 0 := by omega
      rw [hzero,List.take_zero,List.map_nil]
      refine ⟨hr₁.reset,?_⟩
      rw [hzero]
      exact hl₁
    · rw [List.drop_eq_nil_of_le hk] at hb₁
      refine (passes (more.drop (k - sent.length)) hp₁ hr₁ hb₁ ?_).mono fun c₂ ⟨hl₂,hr₂⟩ => ⟨hr₂.reset,hl₂⟩
      rw [List.take_append_drop]
      exact hl₁

/-- The replay is faithful: after `Primary` the packets that were read before come again, in order and with the same
types and payloads, and then those that the client sends now, unchanged. After a `Reset` at any point only what is
read from then on comes again. -/
theorem replay_faithful {sent more : List Message} (hc : c.m.Fresh)
    (hlive : c.live = (sent ++ more).map Message.toPacket) :
    c.Replays sent more fun k c' => ∀ sent' more', more.drop (k - sent.length) = sent' ++ more' →
      c'.reset.Replays sent' more' fun _ _ => True := by
  refine (fresh_replays hc hlive).mono fun c₁ h k => (h k).mono fun c₂ ⟨hfresh,hlive₂⟩ sent' more' hsplit => ?_
  rw [hsplit] at hlive₂
  exact (fresh_replays (c := c₂.reset) hfresh hlive₂).mono fun _ h j => (h j).mono fun _ _ => trivial

end Conn

def syncMessage : Message where
  type := 0x53
  length := 0
  writeTo := pure ()
  payload := []
  typed := by decide
  fits := by decide
  carries := ⟨rfl,fun e he => ⟨e,rfl,he,by simp,rfl,by simp⟩⟩

def queryMessage : Message where
  type := 0x51
  length := 2
  writeTo := encode (.basic .string) (.str [0x61])
  payload := [0x61, 0]
  typed := by decide
  fits := by decide
  carries := ⟨rfl,fun e he => by
    obtain ⟨e',hm,ha⟩ := Writes.string [0x61] e he
    exact ⟨e',hm,ha.toOpen,ha.emitted,ha.packetLength,ha.packetPos⟩⟩

theorem replay_faithful_query :
    Conn.Replays [queryMessage, syncMessage] [queryMessage] (fun k c' => ∀ sent' more',
      [queryMessage].drop (k - 2) = sent' ++ more' → c'.reset.Replays sent' more' fun _ _ => True)
      ⟨[queryMessage.toPacket, syncMessage.toPacket, queryMessage.toPacket],.new⟩ :=
  Conn.replay_faithful Middleware.new_fresh rfl

end Pggat.Hybrid
