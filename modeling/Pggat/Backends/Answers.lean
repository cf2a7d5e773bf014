import Pggat.Backends.Rules

/-! The loops of the bouncer that relay the answer to one message. -/
namespace Pggat.Backends
open Pggat.Base Packets

/-- What a loop over the packets of an answer meets: the server is in `J` between them, copies out in `O` and
waits for data in `H`, which it has in `T`. -/
structure Exchange (types : List UInt8) (J O H T : Server → Prop) (F : UInt8 → Server → Prop) : Prop where
  sends : ∀ {s}, J s → s.Sends fun p s => s.early = true ∨ Answered types J O H F p s
  copiesOut : ∀ {s}, O s → s.Sends (CopiedOut J O)
  feeds : ∀ {s p}, H s → kindOf p.type = .copyData → H (s.write p)
  ends : ∀ {s p}, H s → kindOf p.type = .copyDone ∨ kindOf p.type = .copyFail → T (s.write p)

theorem Server.Sends.mono {s : Server} {R R' : Packet → Server → Prop} (h : s.Sends R) (hR : ∀ p s, R p s → R' p s) :
    s.Sends R' := by
  obtain ⟨p,s',hr,hp⟩ := h
  exact ⟨p,s',hr,hR p s' hp⟩

theorem request_exchange {c : Context} (state : UInt8) (hc : c ≠ .extended) :
    Exchange c.replies (Server.Asked c state) (Server.AskedOut c state) (Server.AskedIn c state) (Server.Asked c state)
      fun st s => st = state ∧ s.Ended state where
  sends h := (Server.asked_sends hc h).mono fun _ _ => .inr
  copiesOut h := Server.askedOut_sends hc h
  feeds h hk := h.feeds hk
  ends h hk := h.ends hk

theorem batch_exchange :
    Exchange Context.extended.replies Server.Batch Server.BatchOut Server.BatchIn Server.Open Server.Ended where
  sends h := Server.batch_sends h
  copiesOut h := Server.batchOut_sends h
  feeds h hk := h.feeds hk
  ends h hk := h.ends hk

namespace View
open Bouncer
variable {σ ρ ε α : Type} {w : World σ ρ ε} {v : View w} {b : ServerToPeerBinding σ ρ ε}
variable {types : List UInt8} {J O H T : Server → Prop} {F : UInt8 → Server → Prop}

variable {p : Packet}

theorem follows_write {b' : ServerToPeerBinding σ ρ ε} (hk : ∀ c, kindOf p.type ≠ .asks c)
    (hs : v.server b'.world = (v.server b.world).write p) (hl : v.left b'.world ≤ v.left b.world)
    (ht : b'.txState = b.txState) : v.Follows b b' where
  left := hl
  weight := Nat.le_of_eq (by rw [hs,Server.write_weight hk])
  copyIns := Nat.le_of_eq (by rw [hs,Server.write_copyIns fun c hc => absurd hc (hk c)])
  txState := ht

private theorem kindOf_copyData : kindOf typeCopyData = .copyData := by decide

variable {t : UInt8}

private theorem kindOf_copyEnd (h : t = typeCopyDone ∨ t = typeCopyFail) :
    kindOf t = .copyDone ∨ kindOf t = .copyFail := by
  rcases h with rfl | rfl
  · exact .inl (by decide)
  · exact .inr (by decide)

private theorem endCopy_ensures (x : Exchange types J O H T F) (hb : v.At H b) (hp : v.Holds b.packet p b.world)
    (ht : p.type = typeCopyDone ∨ p.type = typeCopyFail) :
    v.Ensures (serverWrite w) b fun _ b' => v.At T b' ∧ v.Follows b b' := by
  have hk := kindOf_copyEnd ht
  refine (serverWrite_ensures hb.1 hp).mono fun _ b' ⟨hf,hs,hl,htx⟩ => ⟨⟨hf,?_⟩,follows_write ?_ hs hl htx⟩
  · rw [hs]
    exact x.ends hb.2 hk
  · intro c hc
    rcases hk with hk | hk <;> rw [hk] at hc <;> cases hc

private theorem copyInTurn_ensures (x : Exchange types J O H T F) (hb : v.At H b) :
    v.Ensures (copyInTurn w) b fun r b' => v.Follows b b' ∧ match r with
      | some _ => v.At T b'
      | none => v.At H b' ∧ v.left b'.world < v.left b.world := by
  refine .after (peerRead_settles hb.1) fun ok b₁ ⟨hf,hs,htx,hl,hok⟩ => ?_
  have hb₁ : v.At H b₁ := ⟨hf,hs ▸ hb.2⟩
  have hf₁ : v.Follows b b₁ := follows_same hs hl htx
  cases ok with
  | false =>
    rw [if_neg Bool.false_ne_true]
    refine ends_setPacket (Ensures.seq (endCopy_ensures x hb₁ (v.holds_made _ (.inr (.inl ⟨_,rfl⟩))) (.inr rfl))
      (fun _ => .pure _) ?_)
    exact fun _ b₂ ⟨hb₂,hf₂⟩ => .pure ⟨(hf₁.packet _).trans hf₂,hb₂⟩
  | true =>
    obtain ⟨hlt,p,hp⟩ := hok rfl
    have ht := v.holds_type hp
    rw [if_pos rfl]
    refine ends_packetType ?_
    rw [ht]
    split
    · rename_i hdata
      have hk : kindOf p.type = .copyData := hdata ▸ kindOf_copyData
      refine (serverWrite_ensures hf hp).seq (fun _ => .pure _) fun _ b₂ ⟨hf₂,hs₂,hl₂,ht₂⟩ => .pure ⟨?_,⟨hf₂,?_⟩,by omega⟩
      · refine hf₁.trans (follows_write (fun c hc => ?_) hs₂ hl₂ ht₂)
        rw [hk] at hc
        cases hc
      · rw [hs₂]
        exact x.feeds hb₁.2 hk
    · split
      · rename_i hend
        exact (endCopy_ensures x hb₁ hp hend).seq (fun _ => .pure _) fun _ b₂ ⟨hb₂,hf₂⟩ => .pure ⟨hf₁.trans hf₂,hb₂⟩
      · refine .after peerUnexpected_settles fun _ b₂ ⟨hw,ht₂⟩ => .pure ⟨?_,?_,?_⟩
        · exact follows_same (by rw [hw,hs]) (by rw [hw]; exact hl) (ht₂.trans htx)
        · unfold At
          rw [hw]
          exact hb₁
        · rw [hw]
          exact hlt

theorem copyIn_ensures (x : Exchange types J O H T F) (hb : v.At H b) :
    v.Ensures (copyIn w) b fun _ b' => v.At T b' ∧ v.Follows b b' := by
  refine .after (peerWrite_settles hb.1) fun _ b₁ ⟨hf,hs,hfollows⟩ => ?_
  refine .forever (fun b' => v.At H b' ∧ v.Follows b b') (fun b => v.left b.world) (.copyInTurn w)
    (fun b' ⟨hb',hf'⟩ => ?_) ⟨⟨hf,hs ▸ hb.2⟩,hfollows⟩
  refine (copyInTurn_ensures x hb').mono fun r b'' ⟨hf'',hr⟩ => ?_
  cases r with
  | some _ => exact ⟨hr,hf'.trans hf''⟩
  | none => exact ⟨⟨hr.1,hf'.trans hf''⟩,hr.2⟩

private theorem copiedOut_relayed (h : t ∈ Context.copied) : t ∈ copyOutRelayed := h

private theorem copyOutTurn_ensures (x : Exchange types J O H T F) (hb : v.At O b) :
    v.Ensures (copyOutTurn w) b fun r b' => v.Follows b b' ∧ (v.server b'.world).weight < (v.server b.world).weight ∧
      match r with
      | some _ => v.At J b'
      | none => v.At O b' := by
  refine (serverRead_ensures hb.1 ((x.copiesOut hb.2).mono fun _ _ => .inr)).seq (fun _ => .copyOutPacket w)
    fun _ b₁ h => ?_
  · obtain ⟨p,hp,hR,_⟩ := h.packet
    have ht : w.type b₁.packet = p.type := hp ▸ v.made_type p
    have hafter := peerWrite_settles (v := v) h.fit
    refine ends_packetType ?_
    rw [ht]
    rcases hR with ⟨hc,hO⟩ | ⟨hc,hJ⟩
    · rw [if_pos (copiedOut_relayed hc)]
      refine .after hafter fun _ b₂ ⟨hf₂,hs₂,hfol₂⟩ => .pure ⟨h.follows.trans hfol₂,?_,hf₂,?_⟩
      · rw [hs₂]
        exact h.weight
      · rw [hs₂]
        exact hO
    · have hn : p.type ∉ copyOutRelayed := by
        rcases hc with hc | hc <;> rw [hc] <;> decide
      rw [if_neg hn,if_pos hc]
      refine .after hafter fun _ b₂ ⟨hf₂,hs₂,hfol₂⟩ => .pure ⟨h.follows.trans hfol₂,?_,hf₂,?_⟩
      · rw [hs₂]
        exact h.weight
      · rw [hs₂]
        exact hJ

private theorem copyOut_ensures (x : Exchange types J O H T F) (hb : v.At O b) :
    v.Ensures (copyOut w) b fun _ b' => v.At J b' ∧ v.Follows b b' := by
  refine .after (peerWrite_settles hb.1) fun _ b₁ ⟨hf,hs,hfollows⟩ => ?_
  refine .forever (fun b' => v.At O b' ∧ v.Follows b b') (fun b => (v.server b.world).weight) (.copyOutTurn w)
    (fun b' ⟨hb',hf'⟩ => ?_) ⟨⟨hf,hs ▸ hb.2⟩,hfollows⟩
  refine (copyOutTurn_ensures x hb').mono fun r b'' ⟨hf'',hw,hr⟩ => ?_
  cases r with
  | some _ => exact ⟨hr,hf'.trans hf''⟩
  | none => exact ⟨⟨hr,hf'.trans hf''⟩,hw⟩

private theorem ready_settles {state : UInt8} (hf : v.Fit b.world) (hp : b.packet = w.made (readyForQuery state)) :
    Prog.Settles (ready w) b fun _ b' => v.Fit b'.world ∧ v.server b'.world = v.server b.world ∧
      v.left b'.world ≤ v.left b.world ∧ b'.txState = state := by
  have hr : w.toReadyForQuery b.packet b.world = (.ok state,b.world) := by
    rw [hp,v.on_ready]
  have hio : io (w.toReadyForQuery b.packet) b = (.ok state,b) := by
    unfold io
    rw [hr]
  obtain ⟨_,b',⟨N,hN⟩,hf',hs',hfol⟩ := peerWrite_settles (v := v) (w := w)
    (b := { b with packet := w.made (readyForQuery state), txState := state }) hf
  refine ⟨(),b',⟨N,fun n hn => ?_⟩,hf',hs',hfol.left,hfol.txState⟩
  exact (Action.bind_ok hio).trans (hN n hn)

/-- What a turn over an answer does: it relays a packet or copied data, ends the answer, or copied data in. -/
def Turned (v : View w) (J T : Server → Prop) (F : UInt8 → Server → Prop) (copied : Option (Option α)) (done : α)
    (b : ServerToPeerBinding σ ρ ε) (r : Option α) (b' : ServerToPeerBinding σ ρ ε) : Prop :=
  r = none ∧ v.At J b' ∧ v.Follows b b' ∧ (v.server b'.world).weight < (v.server b.world).weight ∨
    r = some done ∧ v.At (F b'.txState) b' ∧ v.left b'.world ≤ v.left b.world ∨
    copied = some r ∧ v.At T b' ∧ v.Follows b b' ∧ (v.server b'.world).weight < (v.server b.world).weight ∧
      (v.server b'.world).copyIns < (v.server b.world).copyIns

theorem turn_ensures (x : Exchange types J O H T F) {relayed : List UInt8} {copied : Option (Option α)} {done : α}
    (hrelayed : ∀ t ∈ typeMarkiplierResponse :: types, t ∈ relayed)
    (hothers : ∀ t ∈ [typeReadyForQuery, typeCopyInResponse, typeCopyOutResponse], t ∉ relayed)
    (hcopied : copied = none → ∀ s, ¬ O s ∧ ¬ H s) (hb : v.At J b) :
    v.Ensures (turn w relayed copied done) b (v.Turned J T F copied done b) := by
  refine (serverRead_ensures hb.1 (x.sends hb.2)).seq (fun _ => .answerPacket w _ _ _) fun _ b₁ h => ?_
  · obtain ⟨p,hp,hR,hcopyIns⟩ := h.packet
    have ht : w.type b₁.packet = p.type := hp ▸ v.made_type p
    refine ends_packetType ?_
    rw [ht]
    rcases hR with ⟨hc,hJ⟩ | ⟨hc,hH⟩ | ⟨hc,hO⟩ | ⟨state,rfl,hF⟩
    · rw [if_pos (hrelayed _ hc)]
      refine .after (peerWrite_settles h.fit) fun _ b₂ ⟨hf₂,hs₂,hfol₂⟩ => .pure (.inl ⟨rfl,⟨hf₂,?_⟩,h.follows.trans hfol₂,?_⟩)
      · rw [hs₂]
        exact hJ
      · rw [hs₂]
        exact h.weight
    · rw [hc,if_neg (hothers _ (by simp)),if_neg (by decide)]
      cases copied with
      | none => exact absurd hH (hcopied rfl _).2
      | some r =>
        simp only
        rw [if_pos trivial]
        refine (copyIn_ensures x ⟨h.fit,hH⟩).seq (fun _ => .pure _) fun _ b₂ ⟨hb₂,hfol₂⟩ => .pure (.inr (.inr ?_))
        refine ⟨rfl,hb₂,h.follows.trans hfol₂,Nat.lt_of_le_of_lt hfol₂.weight h.weight,?_⟩
        exact Nat.lt_of_le_of_lt hfol₂.copyIns (hcopyIns hc)
    · rw [hc,if_neg (hothers _ (by simp)),if_neg (by decide)]
      cases copied with
      | none => exact absurd hO (hcopied rfl _).1
      | some r =>
        simp only
        rw [if_neg (by decide),if_pos trivial]
        refine (copyOut_ensures x ⟨h.fit,hO⟩).seq (fun _ => .pure _) fun _ b₂ ⟨hb₂,hfol₂⟩ => .pure (.inl ?_)
        exact ⟨rfl,hb₂,h.follows.trans hfol₂,Nat.lt_of_le_of_lt hfol₂.weight h.weight⟩
    · rw [show (readyForQuery state).type = typeReadyForQuery from rfl,if_neg (hothers _ (by simp)),if_pos rfl]
      refine .after (ready_settles h.fit hp) fun _ b₂ ⟨hf₂,hs₂,hl₂,ht₂⟩ => .pure (.inr (.inl ⟨rfl,⟨hf₂,?_⟩,?_⟩))
      · rw [hs₂,ht₂]
        exact hF
      · exact Nat.le_trans hl₂ h.follows.left

end View
end Pggat.Backends
