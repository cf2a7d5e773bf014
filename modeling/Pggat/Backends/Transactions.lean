import Pggat.Backends.Answers

/-! Requests, batches and whole transactions. A transaction that ends leaves the server drained. -/
namespace Pggat.Backends.View
open Pggat.Base Packets Bouncer
variable {σ ρ ε : Type} {w : World σ ρ ε} {v : View w} {b : ServerToPeerBinding σ ρ ε}

/-- The server has ended its answer with the transaction state of the binding. -/
def Answering (v : View w) (b b' : ServerToPeerBinding σ ρ ε) : Prop :=
  v.At (Server.Ended b'.txState) b' ∧ v.left b'.world ≤ v.left b.world

variable {p : Packet}

theorem ask_ensures {c : Context} (hc : c ≠ .extended) {relayed : List UInt8} {copied : Option (Option Unit)}
    (hrelayed : ∀ t ∈ typeMarkiplierResponse :: c.replies, t ∈ relayed)
    (hothers : ∀ t ∈ [typeReadyForQuery, typeCopyInResponse, typeCopyOutResponse], t ∉ relayed)
    (hcopied : copied = none ∧ c.copies = false ∨ copied = some none)
    (hb : v.At Server.Drained b) (hp : v.Holds b.packet p b.world) (hk : kindOf p.type = .asks c) :
    v.Ensures (serverWrite w >>= fun _ => forever (turn w relayed copied ())) b fun _ b' =>
      v.Answering b b' ∧ ∃ n, b'.txState = ((v.server b.world).fates n).state p := by
  refine (serverWrite_ensures hb.1 hp).seq (fun _ => .forever (.turn w _ _ _)) fun _ b₁ ⟨hf,hs,hl,_⟩ => ?_
  generalize hstate : ((v.server b.world).fates (v.server b.world).turn).state p = state
  have hasked : v.At (Server.Asked c state) b₁ := ⟨hf,by rw [hs,← hstate]; exact hb.2.asks hk⟩
  refine Ensures.forever (fun b' => v.At (Server.Asked c state) b' ∧ v.Follows b₁ b') (fun b => (v.server b.world).weight)
    (.turn w _ _ _) (fun b' ⟨hb',hfol⟩ => ?_) ⟨hasked,.refl b₁⟩
  refine (turn_ensures (request_exchange state hc) hrelayed hothers ?_ hb').mono fun r b'' h => ?_
  · intro hnone s
    obtain ⟨_,hn⟩ := hcopied.resolve_right (by rw [hnone]; simp)
    refine ⟨fun h => ?_,fun h => ?_⟩
    · unfold Server.AskedOut at h
      split at h
      · simp [hn] at h
      · exact h
    · unfold Server.AskedIn at h
      split at h
      · simp [hn] at h
      · exact h
  · rcases h with ⟨rfl,hJ,hfol',hw⟩ | ⟨rfl,⟨hf',hst,hend⟩,hl'⟩ | ⟨hr,hT,hfol',hw,_⟩
    · exact ⟨⟨hJ,hfol.trans hfol'⟩,hw⟩
    · refine ⟨⟨⟨hf',by rw [hst]; exact hend⟩,?_⟩,_,hst.trans hstate.symm⟩
      exact Nat.le_trans hl' (Nat.le_trans hfol.left hl)
    · rcases hcopied with ⟨hn,_⟩ | hn
      · rw [hn] at hr
        cases hr
      · rw [hn] at hr
        cases hr
        exact ⟨⟨hT,hfol.trans hfol'⟩,hw⟩

theorem query_ensures (hb : v.At Server.Drained b) (hp : v.Holds b.packet p b.world)
    (ht : p.type = typeQuery) :
    v.Ensures (query w) b fun _ b' => v.Answering b b' ∧ ∃ n, b'.txState = ((v.server b.world).fates n).state p :=
  ask_ensures (c := .simple) (by decide) (by decide +kernel) (by decide +kernel) (.inr rfl) hb hp (by rw [ht]; decide)

theorem functionCall_ensures (hb : v.At Server.Drained b) (hp : v.Holds b.packet p b.world)
    (ht : p.type = typeFunctionCall) : v.Ensures (functionCall w) b fun _ b' => v.Answering b b' :=
  (ask_ensures (c := .function) (by decide) (by decide +kernel) (by decide +kernel) (.inl ⟨rfl,rfl⟩) hb hp (by rw [ht]; decide)).mono
    fun _ _ h => h.1

/-- What is true after a `Sync`: it was answered, or ignored by a server that copied data in. -/
def Synced (v : View w) (b : ServerToPeerBinding σ ρ ε) (ok : Bool) (b' : ServerToPeerBinding σ ρ ε) : Prop :=
  v.left b'.world ≤ v.left b.world ∧ match ok with
    | true => v.At (Server.Ended b'.txState) b'
    | false => v.At Server.Open b' ∧ (v.server b'.world).copyIns < (v.server b.world).copyIns

theorem sync_ensures (hb : v.At Server.Open b) (hp : v.Holds b.packet p b.world) (ht : p.type = typeSync) :
    v.Ensures (sync w) b (v.Synced b) := by
  have hk : kindOf p.type = .asks .sync := by
    rw [ht]
    decide
  refine (serverWrite_ensures hb.1 hp).seq (fun _ => .forever (.turn w _ _ _)) fun _ b₁ ⟨hf,hs,hl,_⟩ => ?_
  have hcopies : (v.server b₁.world).copyIns = (v.server b.world).copyIns := by
    rw [hs,Server.write_copyIns]
    intro c hc
    rw [hk] at hc
    cases hc
    rfl
  refine Ensures.forever (fun b' => v.At Server.Batch b' ∧ v.Follows b₁ b') (fun b => (v.server b.world).weight)
    (.turn w _ _ _) (fun b' ⟨hb',hfol⟩ => ?_) ⟨⟨hf,by rw [hs]; exact hb.2.syncs hk⟩,.refl b₁⟩
  have hturn : v.Ensures (turn w syncRelayed (some (some false)) true) b'
      (v.Turned Server.Batch Server.Open Server.Ended (some (some false)) true b') :=
    turn_ensures batch_exchange (by decide +kernel) (by decide +kernel) (by simp) hb'
  refine hturn.mono fun r b'' h => ?_
  rcases h with ⟨rfl,hJ,hfol',hw⟩ | ⟨rfl,hend,hl'⟩ | ⟨hr,hT,hfol',hw,hc⟩
  · exact ⟨⟨hJ,hfol.trans hfol'⟩,hw⟩
  · exact ⟨Nat.le_trans hl' (Nat.le_trans hfol.left hl),hend⟩
  · cases hr
    refine ⟨Nat.le_trans hfol'.left (Nat.le_trans hfol.left hl),hT,?_⟩
    have := hfol.copyIns
    omega

private theorem syncForPeer_ensures (hb : v.At Server.Open b) :
    v.Ensures (syncForPeer w) b fun _ b' => v.Answering b b' := by
  refine .forever (fun b' => v.At Server.Open b' ∧ v.left b'.world ≤ v.left b.world)
    (fun b => (v.server b.world).copyIns) (.syncForPeerTurn w) (fun b' ⟨hb',hl⟩ => ?_) ⟨hb,Nat.le_refl _⟩
  refine ends_setPacket ?_
  refine (sync_ensures (b := { b' with packet := w.made Packets.sync }) hb' (v.holds_made _ (.inl rfl)) rfl).seq
    (fun _ => .ite (.pure _) (.pure _)) fun ok b'' ⟨hl',h⟩ => ?_
  cases ok with
  | true => exact .pure ⟨h,Nat.le_trans hl' hl⟩
  | false => exact .pure ⟨⟨h.1,Nat.le_trans hl' hl⟩,h.2⟩

theorem kindOf_forwarded {t : UInt8} (h : t ∈ eqpForwarded) : kindOf t = .asks .extended ∨ kindOf t = .flush := by
  revert t
  decide +kernel

private theorem eqpTurn_ensures (hb : v.At Server.Open b) :
    v.Ensures (eqpTurn w) b fun r b' => match r with
      | some _ => v.Answering b b'
      | none => v.At Server.Open b' ∧ v.left b'.world < v.left b.world := by
  refine .after (peerRead_settles hb.1) fun ok b₁ ⟨hf,hs,_,hl,hok⟩ => ?_
  have hb₁ : v.At Server.Open b₁ := ⟨hf,hs ▸ hb.2⟩
  cases ok with
  | false =>
    rw [if_neg Bool.false_ne_true]
    refine (syncForPeer_ensures hb₁).seq (fun _ => .pure _) fun _ b₂ h => .pure ⟨h.1,Nat.le_trans h.2 hl⟩
  | true =>
    obtain ⟨hlt,p,hp⟩ := hok rfl
    rw [if_pos rfl]
    refine ends_packetType ?_
    rw [v.holds_type hp]
    split
    · rename_i ht
      refine (sync_ensures hb₁ hp ht).seq (fun _ => .ite (.pure _) (.pure _)) fun ok b₂ ⟨hl₂,h⟩ => ?_
      cases ok with
      | true => exact .pure ⟨h,by omega⟩
      | false => exact .pure ⟨h.1,by omega⟩
    · split
      · rename_i ht
        refine (serverWrite_ensures hf hp).seq (fun _ => .pure _) fun _ b₂ ⟨hf₂,hs₂,hl₂,_⟩ => .pure ⟨⟨hf₂,?_⟩,by omega⟩
        rw [hs₂]
        exact hb₁.2.extends (kindOf_forwarded ht)
      · refine .after peerUnexpected_settles fun _ b₂ ⟨hw,_⟩ => .pure ⟨?_,by rw [hw]; exact hlt⟩
        unfold At
        rw [hw]
        exact hb₁

private theorem eqp_ensures (hb : v.At Server.Drained b) (hp : v.Holds b.packet p b.world)
    (ht : p.type ∈ eqpForwarded) : v.Ensures (eqp w) b fun _ b' => v.Answering b b' := by
  refine (serverWrite_ensures hb.1 hp).seq (fun _ => .forever (.eqpTurn w)) fun _ b₁ ⟨hf,hs,hl,_⟩ => ?_
  refine Ensures.forever (fun b' => v.At Server.Open b' ∧ v.left b'.world ≤ v.left b.world) (fun b => v.left b.world)
    (.eqpTurn w) (fun b' ⟨hb',hl'⟩ => ?_) ⟨⟨hf,by rw [hs]; exact hb.2.opens (kindOf_forwarded ht)⟩,hl⟩
  refine (eqpTurn_ensures hb').mono fun r b'' h => ?_
  cases r with
  | some _ => exact ⟨h.1,Nat.le_trans h.2 hl'⟩
  | none => exact ⟨⟨h.1,by omega⟩,h.2⟩

/-- Between requests: the server is drained, and idle when the binding says so. -/
def Between (v : View w) (b : ServerToPeerBinding σ ρ ε) : Prop :=
  v.At Server.Drained b ∧ (b.txState = idle → (v.server b.world).ready.head? = some idle)

variable {b' : ServerToPeerBinding σ ρ ε}

private theorem Answering.between (h : v.Answering b b') : v.Between b' :=
  ⟨⟨h.1.1,h.1.2.1⟩,fun hi => hi ▸ h.1.2.2⟩

theorem between_same (h : v.Between b) (hf : v.Fit b'.world)
    (hs : v.server b'.world = v.server b.world) (ht : b'.txState = b.txState) : v.Between b' := by
  unfold Between At
  rw [hs,ht]
  exact ⟨⟨hf,h.1.2⟩,h.2⟩

private theorem request_ensures (hb : v.Between b) (hp : v.Holds b.packet p b.world) :
    v.Ensures (request w) b fun _ b' => v.Between b' ∧ v.left b'.world ≤ v.left b.world := by
  refine ends_packetType ?_
  rw [v.holds_type hp]
  split
  · rename_i ht
    exact (query_ensures hb.1 hp ht).mono fun _ _ h => ⟨h.1.between,h.1.2⟩
  · split
    · rename_i ht
      exact (functionCall_ensures hb.1 hp ht).mono fun _ _ h => ⟨h.between,h.2⟩
    · split
      · obtain ⟨_,b₁,hc,hf,hs,hfol⟩ := peerWrite_settles (v := v)
          (b := { b with packet := w.made (readyForQuery b.txState) }) hb.1.1
        exact .inl ⟨_,hc,between_same hb hf hs hfol.txState,hfol.left⟩
      · split
        · rename_i ht
          exact (eqp_ensures hb.1 hp ht).mono fun _ _ h => ⟨h.between,h.2⟩
        · obtain ⟨_,b₁,hc,hw,ht⟩ := peerUnexpected_settles (w := w) (b := b)
          refine .inl ⟨_,hc,between_same hb (by rw [hw]; exact hb.1.1) (by rw [hw]) ht,?_⟩
          exact Nat.le_of_eq (by rw [hw])

/-- The server answers an `ABORT` with another state than idle. -/
def Unaborted (v : View w) : Prop := ∃ s n, v.Fit s ∧ ((v.server s).fates n).state (Packets.query abort) ≠ idle

private theorem abortTransaction_ends (hb : v.Between b) :
    Prog.Ends v.Excused (abortTransaction w) b (fun _ b' => v.At (Server.Ended idle) b')
      fun f b' => f = .expectedIdle ∧ v.Fit b'.world ∧ v.Unaborted := by
  have hq : v.Ensures (queryString w abort) b fun _ b' =>
      v.At (Server.Ended b'.txState) b' ∧ ∃ n, b'.txState = ((v.server b.world).fates n).state (Packets.query abort) := by
    refine ends_setPacket ?_
    have h := query_ensures (b := { b with packet := w.made (Packets.query abort) }) hb.1 (v.holds_made _ (.inr (.inr ⟨_,rfl⟩))) rfl
    exact h.mono fun _ _ h => ⟨h.1.1,h.2⟩
  refine hq.seq (fun _ => .bind (.get w) fun _ => .ite (.throw _) (.pure _)) fun _ b₁ ⟨h,n,hn⟩ => ?_
  refine ends_get ?_
  split
  · rename_i hne
    exact .throw ⟨rfl,h.1,b.world,n,hb.1.1,hn ▸ hne⟩
  · rename_i he
    rw [not_not] at he
    exact .pure (he ▸ h)

private theorem transactionTurn_ends (hb : v.Between b) (hp : v.Holds b.packet p b.world) :
    Prog.Ends v.Excused (transactionTurn w) b (fun r b' => match r with
      | some _ => v.At (Server.Ended idle) b'
      | none => (v.Between b' ∧ ∃ p, v.Holds b'.packet p b'.world) ∧ v.left b'.world < v.left b.world)
      fun f b' => f = .expectedIdle ∧ v.Fit b'.world ∧ v.Unaborted := by
  refine (request_ensures hb hp).seq (fun _ => .afterRequest w) fun _ b₁ ⟨hb₁,hl⟩ => ends_get ?_
  · split
    · rename_i hi
      exact .pure ⟨hb₁.1.1,hb₁.1.2,hb₁.2 hi⟩
    · refine .after (peerRead_settles hb₁.1.1) fun ok b₂ ⟨hf₂,hs₂,ht₂,_,hok⟩ => ?_
      have hb₂ : v.Between b₂ := between_same hb₁ hf₂ hs₂ ht₂
      cases ok with
      | true => exact .pure ⟨⟨hb₂,(hok rfl).2⟩,by have := (hok rfl).1; omega⟩
      | false => exact .bind ((abortTransaction_ends hb₂).mono (fun _ _ h => .pure h) fun _ _ h => h) fun _ => v.keeps (.pure _)

/-- A transaction that starts on a drained server ends with the server drained and idle, or with the error of
a server that does not abort. -/
theorem transaction_ends (hb : v.Between b) (hp : v.Holds b.packet p b.world) :
    Prog.Ends v.Excused (transaction w) b (fun _ b' => v.At (Server.Ended idle) b')
      fun f b' => f = .expectedIdle ∧ v.Fit b'.world ∧ v.Unaborted := by
  refine Prog.Ends.loop (fun b => v.Between b ∧ ∃ p, v.Holds b.packet p b.world) (fun b => v.left b.world)
    (v.keeps (.transactionTurn w)) (fun b' ⟨hb',p,hp⟩ => ?_) ⟨hb,p,hp⟩
  refine (transactionTurn_ends hb' hp).mono (fun r b'' h => ?_) fun _ _ h => h
  cases r with
  | some _ => exact h
  | none => exact h

private theorem transactionOn_world (n : Nat) (s : σ) (x : ρ) :
    (transactionOn w n s x).2.2 = (transaction w n { world := s, packet := x }).2.world := by
  unfold transactionOn
  rcases transaction w n { world := s, packet := x } with ⟨_ | _,b⟩ <;> rfl

variable {s : σ} {x : ρ}

private theorem transactionOn_of_converges {r : Except (Fault ε) Unit} {N : Nat}
    (h : ∀ n ≥ N, transaction w n { world := s, packet := x } = (r,b')) (n : Nat) (hn : n ≥ N) :
    transactionOn w n s x = (match r with
      | .ok _ => none
      | .error e => some e,b'.peerError,b'.world) := by
  unfold transactionOn
  rw [h n hn]
  cases r <;> rfl

/-- What `Transaction` does on a drained server where there is no excuse. -/
theorem transactionOn_ends (hf : v.Fit s) (hs : (v.server s).Drained) (hp : v.Holds x p s)
    (hn : ∀ n, ¬ v.Excuse (transactionOn w n s x).2.2) :
    ∃ N err peerError t, (∀ n ≥ N, transactionOn w n s x = (err,peerError,t)) ∧ v.Fit t ∧
      (err = none ∧ (v.server t).Ended idle ∨ err = some .expectedIdle ∧ v.Unaborted) := by
  have hb : v.Between ({ world := s, packet := x } : ServerToPeerBinding σ ρ ε) :=
    ⟨⟨hf,hs⟩,fun h => absurd h (show (0 : UInt8) ≠ idle by decide)⟩
  obtain ⟨⟨r,b'⟩,⟨N,hN⟩,hpost⟩ := (transaction_ends hb hp).converges fun n => by
    have := hn n
    rwa [transactionOn_world] at this
  refine ⟨N,_,_,_,transactionOn_of_converges hN,?_⟩
  cases r with
  | ok _ => exact ⟨hpost.1,.inl ⟨rfl,hpost.2⟩⟩
  | error e =>
    obtain ⟨rfl,hfit,hun⟩ := hpost
    exact ⟨hfit,.inr ⟨rfl,hun⟩⟩

end Pggat.Backends.View
