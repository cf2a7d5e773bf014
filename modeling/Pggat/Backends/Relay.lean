import Pggat.Fed.Forward
import Pggat.Backends.Transactions

/-! The faults of a client are not charged to the server. The client is a stream of bytes, and its packets are
forwarded while they are being read. -/
namespace Pggat.Backends
open Pggat.Base Packets Pggat.Fed

/-- The server's connection has the encoder and the client's the decoder. `cut` is history: a packet of the client was
forwarded that had not arrived as a whole. -/
structure Relay where
  server : Server
  encoder : Encoder := {}
  decoder : Decoder
  takes : Nat → Bool := fun _ => true
  written : Nat := 0
  cut : Bool := false

inductive Frame where
  | made (p : Packet)
  | pending (type : UInt8)

def Frame.type : Frame → UInt8
  | made p => p.type
  | pending type => type

namespace Relay

/-- A packet of the bouncer is empty or one string. -/
def writeMade (p : Packet) : EncodeM Unit := do
  Encoder.next p.type p.payload.length
  if p.payload = [] then pure () else Encoder.string p.payload.dropLast

/-- What the server makes of a packet that was written to it: a frame that is not of the announced length ends
the connection. -/
def receive (s : Server) (type : UInt8) (before after : Encoder) : Server :=
  if after.packetPos = after.packetLength then
    s.write ⟨type,after.emitted.drop (before.emitted ++ Encoder.headerBytes type after.packetLength).length⟩
  else { s with mode := .closed }

def serverRead : Action Failure Relay Frame := fun s =>
  match s.encoder.flush with
  | (.error f,e) => (.error f,{ s with encoder := e })
  | (.ok _,e) =>
    match s.server.read with
    | (some p,server) => (.ok (.made p),{ s with encoder := e, server := server })
    | (none,server) =>
      (.error (match server.mode with
        | .closed => .error .eof
        | _ => .hang),{ s with encoder := e, server := server })

/-- What is left of the client's packet has arrived. -/
def Whole (d : Decoder) : Prop :=
  0 ≤ d.packetLength - d.packetPos ∧ d.packetLength - d.packetPos ≤ d.unread.length

instance (d : Decoder) : Decidable (Whole d) := by unfold Whole; infer_instance

def serverWrite : Frame → Action Failure Relay Unit
  | .made p => fun s =>
    match writeMade p s.encoder with
    | (.error f,e) => (.error f,{ s with encoder := e })
    | (.ok _,e) => (.ok (),{ s with encoder := e, server := receive s.server p.type s.encoder e })
  | .pending type => fun s =>
    let s := { s with cut := s.cut || !decide (Whole s.decoder) }
    match Fed.Relay.writePacket ⟨s.encoder,s.decoder⟩ with
    | (.error f,p) => (.error f,{ s with encoder := p.encoder, decoder := p.decoder })
    | (.ok _,p) => (.ok (),{ s with
        encoder := p.encoder, decoder := p.decoder, server := receive s.server type s.encoder p.encoder })

def peerRead : Action Failure Relay Frame := fun s =>
  match s.decoder.next true with
  | (.error f,d) => (.error f,{ s with decoder := d })
  | (.ok _,d) => (.ok (.pending d.packetType),{ s with decoder := d })

def peerWrite (_ : Frame) : Action Failure Relay Unit := fun s =>
  (if s.takes s.written then .ok () else .error (.error .closed),{ s with written := s.written + 1 })

def toReadyForQuery : Frame → Action Failure Relay UInt8
  | .made p => fun s =>
    match p.payload with
    | state :: _ => (.ok state,s)
    | [] => (.error (.error .eof),s)
  | .pending _ => fun s => (.error (.error .eof),s)

def Aborts (s : Server) : Prop := ∀ n, (s.fates n).state (Packets.query abort) = idle

/-- The encoder is between packets. -/
structure Fit (s : Relay) : Prop where
  works : s.encoder.Open
  balanced : s.encoder.packetPos = s.encoder.packetLength
  aborts : Aborts s.server

def Excuse (s : Relay) : Prop := s.server.early = true ∨ s.cut = true

def Holds (s : Relay) (p : Packet) : Frame → Prop
  | .made q => q = p ∧ p.Own
  | .pending type => type = p.type ∧ s.decoder.packetType = p.type ∧ s.decoder.packetPos = 0 ∧
      p.payload = s.decoder.unread.take s.decoder.packetLength.toNat

theorem receive_balanced {s : Server} {type : UInt8} {before after : Encoder} {payload : List UInt8}
    (hb : after.packetPos = after.packetLength)
    (he : after.emitted = before.emitted ++ (Encoder.headerBytes type after.packetLength ++ payload)) :
    receive s type before after = s.write ⟨type,payload⟩ := by
  unfold receive
  rw [if_pos hb,he,← List.append_assoc,List.drop_left]

variable {p : Packet}

private theorem writeMade_spec (hp : p.Own) {e : Encoder} (he : e.Open) (hb : e.packetPos = e.packetLength) :
    ∃ e', writeMade p e = (.ok (),e') ∧ e'.Open ∧ e'.packetPos = e'.packetLength ∧
      e'.emitted = e.emitted ++ (Encoder.headerBytes p.type e'.packetLength ++ p.payload) := by
  obtain ⟨e₁,hn,hopen,hemit,_,hlen,hpos⟩ := Encoder.next_spec p.type p.payload.length he hb
  have hbody : Encoder.Adds (if p.payload = [] then pure () else Encoder.string p.payload.dropLast) p.payload
      p.payload.length := by
    rcases hp with rfl | ⟨r,rfl⟩ | ⟨q,rfl⟩
    · exact .pure
    · simpa [copyFail] using Encoder.Adds.string r
    · simpa [Packets.query] using Encoder.Adds.string q
  obtain ⟨e₂,hm,ha⟩ := hbody e₁ hopen
  refine ⟨e₂,(Action.bind_ok hn).trans hm,ha.toOpen,?_,?_⟩
  · rw [ha.packetPos,ha.packetLength,hpos,hlen,Int.zero_add]
  · rw [ha.emitted,ha.packetLength,hemit,hlen,List.append_assoc]

variable {s : Relay}

theorem peerRead_spec (h : s.Fit) : match peerRead s with
    | (.ok x,s') => s'.Fit ∧ s'.server = s.server ∧ s'.decoder.unread.length < s.decoder.unread.length ∧
        ∃ p, s'.Holds p x
    | (.error _,s') => s'.Fit ∧ s'.server = s.server ∧ s'.decoder.unread.length ≤ s.decoder.unread.length := by
  have hnext := Decoder.next_spec true s.decoder
  have hfit (d : Decoder) : Fit { s with decoder := d } := ⟨h.works,h.balanced,h.aborts⟩
  by_cases hneg : s.decoder.packetLength - s.decoder.packetPos < 0
  · have hn : s.decoder.next true = (.error (.error .overranReadBuffer),s.decoder) := if_pos hneg
    simp only [peerRead,hn]
    exact ⟨h,trivial,Nat.le_refl _⟩
  have hup : s.decoder.upcoming true =
      Decoder.header true (s.decoder.unread.drop (s.decoder.packetLength - s.decoder.packetPos).toNat) := if_neg hneg
  rw [hup] at hnext
  cases hhead : Decoder.header true (s.decoder.unread.drop (s.decoder.packetLength - s.decoder.packetPos).toNat) with
  | none =>
    rw [hhead] at hnext
    obtain ⟨e,d,hn,hempty⟩ := hnext
    simp only [peerRead,hn]
    exact ⟨hfit d,trivial,by simp [hempty (by omega)]⟩
  | some header =>
    rw [hhead] at hnext
    obtain ⟨d,hn,hunread,-,-,hpos⟩ := hnext
    have := Decoder.header_shortens hhead
    rw [List.length_drop] at this
    simp only [peerRead,hn]
    refine ⟨hfit d,trivial,by simp only [hunread]; omega,⟨d.packetType,d.unread.take d.packetLength.toNat⟩,rfl,rfl,hpos,rfl⟩

theorem serverWrite_spec {x : Frame} (h : s.Fit) (hp : s.Holds p x) : (serverWrite x s).2.Excuse ∨
    ∃ s', serverWrite x s = (.ok (),s') ∧ s'.Fit ∧ s'.server = s.server.write p ∧
      s'.decoder.unread.length ≤ s.decoder.unread.length := by
  cases x with
  | made q =>
    obtain ⟨rfl,hown⟩ := hp
    obtain ⟨e,hw,hopen,hbal,hemit⟩ := writeMade_spec hown h.works h.balanced
    have hr : receive s.server q.type s.encoder e = s.server.write q := receive_balanced hbal hemit
    refine .inr ⟨{ s with encoder := e, server := receive s.server q.type s.encoder e },by simp only [serverWrite,hw],
      ⟨hopen,hbal,?_⟩,hr,Nat.le_refl _⟩
    simp only [hr]
    exact h.aborts
  | pending type =>
    obtain ⟨rfl,htype,h0,hpayload⟩ := hp
    by_cases hwhole : Whole s.decoder
    · obtain ⟨hk,harrived⟩ := hwhole
      rw [h0,Int.sub_zero] at hk harrived
      obtain ⟨q,hw,hopen,-,hbal,hlen,hemit,hunread,-⟩ := (Fed.Relay.writePacket_spec
        (p := ⟨s.encoder,s.decoder⟩) h.works trivial h.balanced h0 (Int.toNat_of_nonneg hk).symm).1
        (show s.decoder.packetLength.toNat ≤ s.decoder.unread.length by omega)
      have hr : receive s.server p.type s.encoder q.encoder = s.server.write p := by
        refine receive_balanced hbal ?_
        rw [hemit,hlen,hpayload,← htype]
        rfl
      refine .inr ⟨{ s with
        cut := s.cut || !decide (Whole s.decoder), encoder := q.encoder, decoder := q.decoder,
        server := receive s.server p.type s.encoder q.encoder },by simp only [serverWrite,hw],⟨hopen,hbal,?_⟩,hr,?_⟩
      · simp only [hr]
        exact h.aborts
      · show q.decoder.unread.length ≤ s.decoder.unread.length
        rw [show q.decoder.unread = s.decoder.unread.drop _ from hunread,List.length_drop]
        exact Nat.sub_le ..
    · refine .inl (.inr ?_)
      simp only [serverWrite]
      rcases Fed.Relay.writePacket ⟨s.encoder,s.decoder⟩ with ⟨_ | _,q⟩ <;> simp [hwhole]

theorem serverRead_spec {v : Server} (h : s.Fit) (hr : s.server.read = (some p,v)) :
    ∃ s', serverRead s = (.ok (.made p),s') ∧ s'.Fit ∧ s'.server = v ∧
      s'.decoder.unread.length = s.decoder.unread.length := by
  obtain ⟨e,hm,ha⟩ := Encoder.Adds.flush s.encoder h.works
  refine ⟨{ s with encoder := e, server := v },by simp only [serverRead,hm,hr],
    ⟨ha.toOpen,?_,?_⟩,rfl,rfl⟩
  · simp only
    rw [ha.packetPos,ha.packetLength,h.balanced]
    simp
  · simp only [Aborts,(Server.read_spends hr).fates]
    exact h.aborts

theorem serverRead_excuse (h : s.Excuse) : (serverRead s).2.Excuse := by
  unfold serverRead
  rcases s.encoder.flush with ⟨f | a,e⟩
  · exact h
  · rcases hr : s.server.read with ⟨_ | p,v⟩ <;> exact h.imp (Server.read_spends hr).early id

private theorem receive_early {s : Server} (h : s.early = true) (type : UInt8) (before after : Encoder) :
    (receive s type before after).early = true := by
  unfold receive
  split <;> exact h

private theorem serverWrite_excuse (x : Frame) (h : s.Excuse) : (serverWrite x s).2.Excuse := by
  cases x with
  | made p =>
    simp only [serverWrite]
    rcases writeMade p s.encoder with ⟨f | a,e⟩
    · exact h
    · exact h.imp (receive_early · _ _ _) id
  | pending type =>
    have still (hc : s.cut = true) : (s.cut || !decide (Whole s.decoder)) = true := by rw [hc]; rfl
    simp only [serverWrite]
    rcases Fed.Relay.writePacket ⟨s.encoder,s.decoder⟩ with ⟨f | a,q⟩
    · exact h.imp id still
    · exact h.imp (receive_early · _ _ _) still

private theorem peerRead_excuse (h : s.Excuse) : (peerRead s).2.Excuse := by
  unfold peerRead
  rcases s.decoder.next true with ⟨f | a,d⟩ <;> exact h

theorem toReadyForQuery_relay (x : Frame) (s : Relay) : (toReadyForQuery x s).2 = s := by
  cases x with
  | made p =>
    simp only [toReadyForQuery]
    rcases p.payload with _ | ⟨a,t⟩ <;> rfl
  | pending type => rfl

end Relay

def relay : World Relay Frame Failure where
  type := Frame.type
  made := .made
  serverRead := Relay.serverRead
  serverWrite := Relay.serverWrite
  peerRead := Relay.peerRead
  peerWrite := Relay.peerWrite
  toReadyForQuery := Relay.toReadyForQuery

def relay.view : View relay where
  server := Relay.server
  left s := s.decoder.unread.length
  Fit := Relay.Fit
  Excuse := Relay.Excuse
  Holds x p s := s.Holds p x
  made_type _ := rfl
  holds_made _ h := ⟨rfl,h⟩
  holds_type := by
    intro x p s h
    cases x with
    | made q => exact congrArg Packet.type h.1
    | pending type => exact h.1
  on_ready _ _ := rfl
  on_serverRead h hr := Relay.serverRead_spec h hr
  on_serverWrite h hp := Relay.serverWrite_spec h hp
  on_peerRead := by
    intro s h
    have hs := Relay.peerRead_spec h
    rcases hr : Relay.peerRead s with ⟨f | x,s'⟩ <;> simpa only [relay,hr] using hs
  on_peerWrite _ h := ⟨⟨h.works,h.balanced,h.aborts⟩,rfl,rfl⟩
  early_excuse := .inl
  serverRead_excuse := Relay.serverRead_excuse
  serverWrite_excuse x h := Relay.serverWrite_excuse x h
  peerRead_excuse := Relay.peerRead_excuse
  peerWrite_excuse _ h := h
  ready_excuse := by
    intro s x h
    show (Relay.toReadyForQuery x s).2.Excuse
    rw [Relay.toReadyForQuery_relay]
    exact h

open Bouncer

/-- When each packet of the client that is forwarded has arrived as a whole, a transaction returns no server error and
leaves the server's encoder balanced, whatever else the client sends and wherever its stream ends. -/
theorem transaction_spares_server (s : Relay) (hs : s.server.Drained) (ha : Relay.Aborts s.server)
    (he : s.encoder.Open) (hb : s.encoder.packetPos = s.encoder.packetLength) (hd : s.decoder.packetPos = 0)
    (hcut : ∀ n, (transactionOn relay n s (.pending s.decoder.packetType)).2.2.cut = false)
    (hearly : ∀ n, (transactionOn relay n s (.pending s.decoder.packetType)).2.2.server.early = false) :
    ∃ N peerError t,
      (∀ n ≥ N, transactionOn relay n s (.pending s.decoder.packetType) = (none,peerError,t)) ∧
      t.encoder.packetPos = t.encoder.packetLength := by
  have hp : s.Holds ⟨s.decoder.packetType,s.decoder.unread.take s.decoder.packetLength.toNat⟩
    (.pending s.decoder.packetType) := ⟨rfl,rfl,hd,rfl⟩
  obtain ⟨N,err,peerError,t,hN,ht,h⟩ :=
    relay.view.transactionOn_ends (s := s) (x := .pending s.decoder.packetType) ⟨he,hb,ha⟩ hs hp fun n h => by
      rcases h with h | h
      · exact Bool.false_ne_true ((hearly n).symm.trans h)
      · exact Bool.false_ne_true ((hcut n).symm.trans h)
  rcases h with ⟨rfl,_⟩ | ⟨_,u,n,hu,hne⟩
  · exact ⟨N,peerError,t,hN,ht.balanced⟩
  · exact absurd (hu.aborts n) hne

/-- A client that sends these bytes, to a server that answers each request only with its end. -/
def streaming (bytes : List UInt8) : Relay where
  server := { fates := fun _ => ⟨fun _ => [],fun _ => idle⟩ }
  decoder := (Decoder.next true { buffer := bytes }).2

def streamed (bytes : List UInt8) (n : Nat) : Option (Fault Failure) × Option (Fault Failure) × Relay :=
  transactionOn relay n (streaming bytes) (.pending (streaming bytes).decoder.packetType)

def cutQuery : List UInt8 := [typeQuery,0,0,0,9,83]

/-- A whole query, and then one that is cut. -/
def laterCut : List UInt8 := [typeQuery,0,0,0,5,0] ++ cutQuery

/-- A stream that ends inside of a header. -/
def cutHeader : List UInt8 := [typeFlush,0,0,0,4,typeSync,0,0]

/-- The loop ends with no error of the server, and the packet that was begun is written. -/
def Spared (bytes : List UInt8) : Prop :=
  ∃ N peerError t, (∀ n ≥ N, streamed bytes n = (none,peerError,t)) ∧ t.encoder.packetPos = t.encoder.packetLength

theorem transaction_spares_server_cut : Spared laterCut ∧ Spared cutHeader := by
  have each : ∀ bytes ∈ [laterCut, cutHeader], Spared bytes := by
    intro bytes hb
    have clean (n : Nat) : (streamed bytes n).2.2.cut = false ∧ (streamed bytes n).2.2.server.early = false := by
      have first : ∀ bytes ∈ [laterCut, cutHeader], ∀ n < 4,
          (streamed bytes n).2.2.cut = false ∧ (streamed bytes n).2.2.server.early = false := by decide +kernel
      have ended : ∀ bytes ∈ [laterCut, cutHeader], (streamed bytes 3).1 ≠ some .hang := by decide +kernel
      rcases Nat.lt_or_ge n 4 with hn | hn
      · exact first bytes hb n hn
      · rw [streamed,transactionOn_stable (Nat.le_of_succ_le hn) (ended bytes hb)]
        exact first bytes hb 3 (by decide)
    refine transaction_spares_server (streaming bytes) (fun _ hm => absurd hm List.not_mem_nil) (fun _ => rfl)
      ⟨rfl,Nat.zero_le _⟩ rfl ?_ (fun n => (clean n).1) fun n => (clean n).2
    clear clean
    revert bytes
    decide +kernel
  exact ⟨each _ (by decide),each _ (by decide)⟩

def shortFlush : List UInt8 := [typeFlush,0,0,0,3]

/-- A query that ends in its payload is an error of the server, and so is a length field below four: the next
packet is refused by the encoder that it left unbalanced. -/
theorem transaction_blames_server :
    (∀ n ≥ 2, (streamed cutQuery n).1 = some (.io (.error .unexpectedEOF)) ∧
      (streamed cutQuery n).2.2.encoder.packetPos ≠ (streamed cutQuery n).2.2.encoder.packetLength) ∧
    ∀ n ≥ 2, (streamed shortFlush n).1 = some (.io (.error .wrongNumberOfBytes)) ∧
      (streamed shortFlush n).2.2.encoder.packetPos ≠ (streamed shortFlush n).2.2.encoder.packetLength := by
  refine ⟨fun n hn => ?_,fun n hn => ?_⟩
  · rw [streamed,transactionOn_stable hn (by decide +kernel)]
    decide +kernel
  · rw [streamed,transactionOn_stable hn (by decide +kernel)]
    decide +kernel

end Pggat.Backends
