import Pggat.Backends.Handback

/-! `Pool.Release`: the reset query runs through the relay loop of the bouncer without a peer. Only an error of
the loop itself removes the server from the pool. -/
namespace Pggat.Spool
open Pggat.Base Backends Backends.Packets

/-- A server that is being reset, and the packets that it sent for it. -/
structure Reset where
  server : Backends.Server
  answer : List Packet := []

namespace Reset

def serverRead : Action IoError Reset Packet := fun s =>
  match s.server.read with
  | (some p,server) => (.ok p,⟨server,s.answer ++ [p]⟩)
  | (none,server) => (.error .blocked,⟨server,s.answer⟩)

def serverWrite (p : Packet) : Action IoError Reset Unit := fun s => (.ok (),{ s with server := s.server.write p })

def toReadyForQuery (p : Packet) : Action IoError Reset UInt8 := fun s =>
  match p.payload with
  | state :: _ => (.ok state,s)
  | [] => (.error .eof,s)

def clean (s : Reset) : Bool := s.answer.all fun p => p.type ≠ typeMarkiplierResponse

end Reset

/-- There is no peer. -/
def reset : World Reset Packet IoError where
  type := Packet.type
  made := id
  serverRead := Reset.serverRead
  serverWrite := Reset.serverWrite
  peerRead := Action.throw .closed
  peerWrite _ := Action.throw .closed
  toReadyForQuery := Reset.toReadyForQuery

open Bouncer

/-- `backends.QueryString` with no peer. -/
def queryString (n : Nat) (q : GoString) (s : Reset) : Option (Fault IoError) × Reset :=
  match Bouncer.queryString reset q n { world := s, peer := false, packet := Packets.query q } with
  | (.ok _,b) => (none,b.world)
  | (.error e,b) => (some e,b.world)

inductive Released where
  | givenBack
  | removed
  deriving DecidableEq, Repr

def release (n : Nat) (resetQuery : GoString) (s : Reset) : Released × Reset :=
  if resetQuery ≠ [] then
    match queryString n resetQuery s with
    | (some _,s) => (.removed,s)
    | (none,s) => (.givenBack,s)
  else (.givenBack,s)

/-- A server is only given back if the reset query went through and left it idle. -/
def Isolates (r : Released × Reset) : Prop :=
  r.1 = .givenBack → r.2.clean = true ∧ r.2.server.ready.head? = some idle

/-- A part of an answer that no error comes of. Nobody provides data for a `COPY FROM STDIN`. -/
def completes : Item .simple → Bool
  | .reply _ => true
  | .error _ => false
  | .copyOut _ _ _ error => error.isNone
  | .copyIn _ _ _ _ => false

/-- What the server makes of its next message, a simple query, is a success that leaves it idle. -/
def Succeeds (s : Backends.Server) (q : GoString) : Prop :=
  ((s.fates s.turn).answer .simple).all completes = true ∧ (s.fates s.turn).state (Packets.query q) = idle

namespace Reset

/-- What is left of an answer; `good` says that the whole of it has no error. -/
inductive Left (good : Bool) (state : UInt8) (s : Reset) : Prop
  | running {items : List (Item .simple)} (hm : s.server.mode = .running .simple ⟨items,state⟩)
    (hi : items ≠ [] → s.server.inbox = []) (hg : (s.clean && items.all completes) = good)
  | failing {patience : Nat} {error : List UInt8} {synced : Bool} {job : Job .simple} {m : Message}
    (hm : s.server.mode = .copyingIn .simple patience error synced job) (hst : job.state = state)
    (hi : s.server.inbox = [m]) (hk : m.kind = .copyFail) (hg : good = false)

/-- What is left of it in the middle of a `COPY TO STDOUT`. -/
inductive LeftOut (good : Bool) (state : UInt8) (s : Reset) : Prop
  | copying {data : List (Reply Context.copied)} {error : Option (List UInt8)} {items : List (Item .simple)}
    (hm : s.server.mode = .copyingOut .simple data error ⟨items,state⟩) (hi : s.server.inbox = [])
    (hg : (s.clean && (error.isNone && items.all completes)) = good)

/-- What is left of it when the server waits for data. -/
inductive LeftIn (good : Bool) (state : UInt8) (s : Reset) : Prop
  | waiting {patience : Nat} {error : List UInt8} {synced : Bool} {job : Job .simple}
    (hm : s.server.mode = .copyingIn .simple patience error synced job) (hst : job.state = state)
    (hi : s.server.inbox = []) (hg : good = false)

def Done (good : Bool) (state : UInt8) (s : Reset) : Prop := s.clean = good ∧ s.server.ready.head? = some state

def Reads (s : Reset) (R : Packet → Reset → Prop) : Prop :=
  ∃ p t, s.server.read = (some p,t) ∧ R p ⟨t,s.answer ++ [p]⟩

def Answer (good : Bool) (state : UInt8) (p : Packet) (s : Reset) : Prop :=
  p.type ∈ queryRelayed ∧ s.Left good state ∨ p = readyForQuery state ∧ s.Done good state ∨
    p.type = typeCopyOutResponse ∧ s.LeftOut good state ∨ p.type = typeCopyInResponse ∧ s.LeftIn good state

def AnswerOut (good : Bool) (state : UInt8) (p : Packet) (s : Reset) : Prop :=
  p.type ∈ copyOutRelayed ∧ s.LeftOut good state ∨
    (p.type = typeCopyDone ∨ p.type = typeMarkiplierResponse) ∧ s.Left good state

variable {s : Reset} {good : Bool} {state : UInt8} {p : Packet} {t : Backends.Server} {R : Packet → Reset → Prop}

theorem clean_append : clean ⟨t,s.answer ++ [p]⟩ = (s.clean && decide (p.type ≠ typeMarkiplierResponse)) := by
  simp [clean]

theorem clean_reply (h : p.type ≠ typeMarkiplierResponse) : clean ⟨t,s.answer ++ [p]⟩ = s.clean := by
  rw [clean_append,decide_eq_true h,Bool.and_true]

variable {error : List UInt8}

private theorem clean_error : clean ⟨t,s.answer ++ [⟨typeMarkiplierResponse,error⟩]⟩ = false := by
  rw [clean_append,decide_eq_false (by simp),Bool.and_false]

theorem reads_of_step (h : s.server.step = some (some p,t)) (hR : R p ⟨t,s.answer ++ [p]⟩) : s.Reads R :=
  ⟨p,t,by rw [Backends.Server.read_eq,h],hR⟩

variable {job : Job .simple}

theorem left_failed (hm : t.mode = .failed job) (hst : job.state = state)
    (hg : good = false) : Left good state ⟨t,s.answer ++ [⟨typeMarkiplierResponse,error⟩]⟩ := by
  have hrest : t.mode = .running .simple ⟨[],state⟩ := by
    rw [hm,Backends.Server.failed_request (by decide),hst]
  refine .running hrest (fun h => absurd rfl h) ?_
  rw [clean_error,hg]
  rfl

private theorem reply_clean (p : Reply Context.simple.replies) : p.val.type ≠ typeMarkiplierResponse := by
  intro h
  have := p.2
  rw [h] at this
  revert this
  decide

theorem copied_clean (p : Reply Context.copied) : p.val.type ≠ typeMarkiplierResponse := by
  intro h
  have := p.2
  rw [h] at this
  revert this
  decide

private theorem reply_relayed (p : Reply Context.simple.replies) : p.val.type ∈ queryRelayed := by
  rcases List.mem_append.mp p.2 with h | h
  · exact List.mem_append_left (typeMarkiplierResponse :: Context.notices) h
  · exact List.mem_append_right [typeCommandComplete, typeRowDescription, typeDataRow, typeEmptyQueryResponse]
      (List.mem_cons_of_mem typeMarkiplierResponse h)

theorem error_relayed : typeMarkiplierResponse ∈ queryRelayed := by decide

theorem reads_running {items : List (Item .simple)} (hm : s.server.mode = .running .simple ⟨items,state⟩)
    (hi : items ≠ [] → s.server.inbox = []) (hg : (s.clean && items.all completes) = good) :
    s.Reads (Answer good state) := by
  cases items with
  | nil =>
    have hs : s.server.step = some (s.server.finish (c := .simple) ⟨[],state⟩) := by
      unfold Backends.Server.step
      rw [hm]
    rw [List.all_nil,Bool.and_true] at hg
    exact reads_of_step hs (.inr (.inl ⟨rfl,(clean_reply (show typeReadyForQuery ≠ typeMarkiplierResponse by decide)).trans hg,rfl⟩))
  | cons i items =>
    have hs : s.server.step = some (s.server.answer (c := .simple) ⟨items,state⟩ i) := by
      unfold Backends.Server.step
      rw [hm]
    have empty := hi (List.cons_ne_nil i items)
    rw [List.all_cons] at hg
    cases i with
    | reply p =>
      refine reads_of_step hs (.inl ⟨reply_relayed p,.running rfl (fun _ => empty) ?_⟩)
      rw [clean_reply (reply_clean p)]
      exact hg
    | error error =>
      refine reads_of_step hs (.inl ⟨error_relayed,left_failed rfl rfl ?_⟩)
      rw [← hg]
      exact Bool.and_false _
    | copyOut may format data error =>
      refine reads_of_step hs (.inr (.inr (.inl ⟨rfl,.copying rfl empty ?_⟩)))
      rw [clean_reply (show typeCopyOutResponse ≠ typeMarkiplierResponse by decide)]
      exact hg
    | copyIn may format patience error =>
      refine reads_of_step hs (.inr (.inr (.inr ⟨rfl,.waiting rfl rfl empty ?_⟩)))
      rw [← hg]
      exact Bool.and_false _

variable {m : Message}

private theorem reads_failing {patience : Nat} {synced : Bool}
    (hm : s.server.mode = .copyingIn .simple patience error synced job) (hst : job.state = state)
    (hi : s.server.inbox = [m]) (hk : m.kind = .copyFail) (hg : good = false) : s.Reads (Answer good state) := by
  cases patience with
  | zero =>
    have hs : s.server.step = some (s.server.failIn error synced job) := by
      unfold Backends.Server.step
      rw [hm]
    exact reads_of_step hs (.inl ⟨error_relayed,left_failed rfl hst hg⟩)
  | succ patience =>
    have hs : s.server.step = some (Backends.Server.failIn { s.server with inbox := [] } error synced job) := by
      unfold Backends.Server.step
      rw [hm,hi]
      exact congrArg some (Backends.Server.copyIn_fails (.inl hk))
    exact reads_of_step hs (.inl ⟨error_relayed,left_failed rfl hst hg⟩)

theorem Left.reads (h : s.Left good state) : s.Reads (Answer good state) := by
  cases h with
  | running hm hi hg => exact reads_running hm hi hg
  | failing hm hst hi hk hg => exact reads_failing hm hst hi hk hg

theorem LeftOut.reads (h : s.LeftOut good state) : s.Reads (AnswerOut good state) := by
  obtain ⟨hm,hi,hg⟩ := h
  rename_i data error items
  have hs : s.server.step = some (s.server.copyOut error ⟨items,state⟩ data) := by
    unfold Backends.Server.step
    rw [hm]
  cases data with
  | cons p data =>
    refine reads_of_step hs (.inl ⟨p.2,.copying rfl hi ?_⟩)
    rw [clean_reply (copied_clean p)]
    exact hg
  | nil =>
    cases error with
    | some error =>
      refine reads_of_step hs (.inr ⟨.inr rfl,left_failed rfl rfl ?_⟩)
      rw [← hg]
      exact Bool.and_false _
    | none =>
      refine reads_of_step hs (.inr ⟨.inl rfl,.running rfl (fun _ => hi) ?_⟩)
      rw [clean_reply (by decide)]
      exact hg

theorem read_query {v : Backends.Server} {inbox : List Message} (hm : v.mode = .ready)
    (hi : v.inbox = inbox ++ [m]) (hstray : ∀ m ∈ inbox, m.Stray) (hk : m.kind = .asks .simple) :
    v.read = Backends.Server.read { v with inbox := [], mode := .running .simple (m.job .simple) } := by
  induction inbox generalizing v with
  | nil =>
    have hs : v.step = some (none,{ v with inbox := [], mode := .running .simple (m.job .simple) }) := by
      unfold Backends.Server.step
      rw [hm,hi]
      exact congrArg (fun t => some (none,t)) (Backends.Server.accept_asks hk)
    rw [Backends.Server.read_eq,hs]
  | cons a inbox ih =>
    have hs : v.step = some (none,{ v with inbox := inbox ++ [m] }) := by
      unfold Backends.Server.step
      rw [hm,hi]
      exact congrArg (fun t => some (none,t)) (Backends.Server.accept_stray (hstray a (by simp)))
    rw [Backends.Server.read_eq,hs]
    exact ih (v := { v with inbox := inbox ++ [m] }) hm rfl fun x hx => hstray x (by simp [hx])

end Reset

section Loops
open Reset
variable {b : ServerToPeerBinding Reset Packet IoError} {good : Bool} {state : UInt8}

theorem gone (h : b.peer = false) : ¬ peerOK b = true := by
  simp [peerOK,h]

theorem serverRead_settles {R : Packet → Reset → Prop} (h : b.world.Reads R) :
    Prog.Settles (Bouncer.serverRead reset) b fun _ b' => b'.peer = b.peer ∧ R b'.packet b'.world ∧
      b'.world.server.weight < b.world.server.weight := by
  obtain ⟨p,t,hr,hR⟩ := h
  have hread : reset.serverRead b.world = (.ok p,⟨t,b.world.answer ++ [p]⟩) := by
    show Reset.serverRead b.world = _
    unfold Reset.serverRead
    rw [hr]
  have hw := (Backends.Server.read_spends hr).weight
  exact ⟨(),_,⟨0,fun n _ => View.serverRead_eq hread n⟩,rfl,hR,Nat.lt_of_succ_le (by simpa using hw)⟩

theorem peerWrite_settles (h : b.peer = false) : Prog.Settles (peerWrite reset) b fun _ b' => b' = b :=
  ⟨(),b,⟨0,fun n _ => View.peerWrite_gone (gone h) n⟩,rfl⟩

theorem settles_packetType {α : Type} {f : UInt8 → M Reset Packet IoError α}
    {Q : α → ServerToPeerBinding Reset Packet IoError → Prop} (h : Prog.Settles (f b.packet.type) b Q) :
    Prog.Settles (packetType reset >>= f) b Q := h

private theorem copyOutTurn_settles (hp : b.peer = false) (h : b.world.LeftOut good state) :
    Prog.Settles (copyOutTurn reset) b fun r b' => b'.peer = false ∧
      b'.world.server.weight < b.world.server.weight ∧ match r with
        | some _ => b'.world.Left good state
        | none => b'.world.LeftOut good state := by
  refine .bind (serverRead_settles h.reads) fun _ b₁ ⟨hp₁,hR,hw⟩ => settles_packetType ?_
  rw [hp] at hp₁
  have written := peerWrite_settles hp₁
  rcases hR with ⟨ht,hO⟩ | ⟨ht,hJ⟩
  · rw [if_pos ht]
    exact .bind written fun _ b₂ same => .pure (same ▸ ⟨hp₁,hw,hO⟩)
  · have hn : b₁.packet.type ∉ copyOutRelayed := by
      rcases ht with ht | ht <;> rw [ht] <;> decide
    rw [if_neg hn,if_pos ht]
    exact .bind written fun _ b₂ same => .pure (same ▸ ⟨hp₁,hw,hJ⟩)

theorem copyOut_settles (hp : b.peer = false) (h : b.world.LeftOut good state) :
    Prog.Settles (copyOut reset) b fun _ b' => b'.peer = false ∧ b'.world.Left good state ∧
      b'.world.server.weight ≤ b.world.server.weight := by
  refine .bind (peerWrite_settles hp) fun _ b₁ same => ?_
  cases same
  refine .loop (fun b' => b'.peer = false ∧ b'.world.LeftOut good state ∧
    b'.world.server.weight ≤ b.world.server.weight) (fun b => b.world.server.weight) (fun b' hb' => ?_)
    ⟨hp,h,Nat.le_refl _⟩
  obtain ⟨hp',h',hw'⟩ := hb'
  obtain ⟨r,b'',hc,hp'',hw'',hr⟩ := copyOutTurn_settles hp' h'
  refine ⟨r,b'',hc,?_⟩
  cases r with
  | some _ => exact ⟨hp'',hr,by omega⟩
  | none => exact ⟨⟨hp'',hr,by omega⟩,hw''⟩

private theorem copyIn_settles (hp : b.peer = false) (h : b.world.LeftIn good state) :
    Prog.Settles (copyIn reset) b fun _ b' => b'.peer = false ∧ b'.world.Left good state ∧
      b'.world.server.weight ≤ b.world.server.weight := by
  obtain ⟨hm,hst,hi,hg⟩ := h
  have hk : kindOf (copyFail peerFailed).type = .copyFail := by decide
  have hw : (b.world.server.write (copyFail peerFailed)).weight = b.world.server.weight := by
    refine Backends.Server.write_weight fun c hc => ?_
    rw [hk] at hc
    cases hc
  have hi : (b.world.server.write (copyFail peerFailed)).inbox =
      [⟨copyFail peerFailed,b.world.server.fates b.world.server.turn⟩] := by
    unfold Backends.Server.write
    rw [hi]
    rfl
  refine .bind (peerWrite_settles hp) fun _ b₁ same => ?_
  cases same
  refine .loop (fun b' => b' = b) (fun _ => 0) (fun b' same => ?_) rfl
  cases same
  let ended := b.world.server.write (copyFail peerFailed)
  exact ⟨some (),{ b with world := { b.world with server := ended }, packet := copyFail peerFailed },
    ⟨0,fun n _ => Action.bind_ok (View.peerRead_gone (gone hp) n)⟩,hp,.failing hm hst hi hk hg,Nat.le_of_eq hw⟩

private theorem ready_settles (hp : b.peer = false) (ht : b.packet = readyForQuery state) :
    Prog.Settles (ready reset) b fun _ b' => b'.world = b.world := by
  have hr : reset.toReadyForQuery b.packet b.world = (.ok state,b.world) := by
    rw [ht]
    rfl
  have hio : io (reset.toReadyForQuery b.packet) b = (.ok state,b) := by
    unfold io
    rw [hr]
  let b' : ServerToPeerBinding Reset Packet IoError := { b with packet := readyForQuery state, txState := state }
  exact ⟨(),b',⟨0,fun n _ => (Action.bind_ok hio).trans (View.peerWrite_gone (b := b') (gone hp) n)⟩,rfl⟩

private theorem turn_settles (hp : b.peer = false) (h : b.world.Reads (Answer good state)) :
    Prog.Settles (turn reset queryRelayed (some none) ()) b fun r b' => match r with
      | some _ => b'.world.Done good state
      | none => (b'.peer = false ∧ b'.world.Reads (Answer good state)) ∧
        b'.world.server.weight < b.world.server.weight := by
  refine .bind (serverRead_settles h) fun _ b₁ ⟨hp₁,hR,hw⟩ => settles_packetType ?_
  rw [hp] at hp₁
  rcases hR with ⟨ht,hJ⟩ | ⟨ht,hd⟩ | ⟨ht,hO⟩ | ⟨ht,hI⟩
  · rw [if_pos ht]
    exact .bind (peerWrite_settles hp₁) fun _ b₂ same => .pure (same ▸ ⟨⟨hp₁,hJ.reads⟩,hw⟩)
  · rw [show b₁.packet.type = typeReadyForQuery from congrArg Packet.type ht,if_neg (by decide),if_pos rfl]
    exact .bind (ready_settles hp₁ ht) fun _ b₂ same => .pure (same ▸ hd)
  · rw [ht,if_neg (by decide),if_neg (by decide)]
    simp only
    rw [if_neg (by decide),if_pos trivial]
    refine .bind (copyOut_settles hp₁ hO) fun _ b₂ ⟨hp₂,hJ,hw₂⟩ => .pure ⟨⟨hp₂,hJ.reads⟩,?_⟩
    exact Nat.lt_of_le_of_lt hw₂ hw
  · rw [ht,if_neg (by decide),if_neg (by decide)]
    simp only
    rw [if_pos trivial]
    refine .bind (copyIn_settles hp₁ hI) fun _ b₂ ⟨hp₂,hJ,hw₂⟩ => .pure ⟨⟨hp₂,hJ.reads⟩,?_⟩
    exact Nat.lt_of_le_of_lt hw₂ hw

variable {v : Backends.Server}

private theorem reads_query (q : GoString) (hv : v.Drained) :
    Reads ⟨v.write (Packets.query q),[]⟩ (Answer (((v.fates v.turn).answer .simple).all completes)
      ((v.fates v.turn).state (Packets.query q))) := by
  unfold Backends.Server.Drained at hv
  split at hv
  · rename_i hm
    have hr := Reset.read_query (v := v.write (Packets.query q)) hm rfl hv (show kindOf typeQuery = _ by decide)
    unfold Reads
    rw [hr]
    exact reads_running (s := ⟨{ v with inbox := [], mode := .running .simple _, turn := v.turn + 1 },[]⟩) rfl
      (fun _ => rfl) rfl
  · cases hv

/-- The reset query is answered in full, and no error of the loop comes of it. -/
theorem queryString_done (q : GoString) (hv : v.Drained) :
    ∃ N s, (∀ n ≥ N, queryString n q ⟨v,[]⟩ = (none,s)) ∧
      s.Done (((v.fates v.turn).answer .simple).all completes) ((v.fates v.turn).state (Packets.query q)) := by
  have first := reads_query q hv
  generalize ((v.fates v.turn).answer .simple).all completes = good at first ⊢
  generalize (v.fates v.turn).state (Packets.query q) = state at first ⊢
  let b : ServerToPeerBinding Reset Packet IoError := ⟨⟨v,[]⟩,false,Packets.query q,none,0⟩
  have written : Prog.Settles (Bouncer.serverWrite reset) b fun _ b' =>
      b' = { b with world := ⟨v.write (Packets.query q),[]⟩ } := ⟨(),_,⟨0,fun _ _ => rfl⟩,rfl⟩
  have ran : Prog.Settles (Bouncer.query reset) b fun _ b' => b'.world.Done good state := by
    refine .bind written fun _ b₁ same => ?_
    cases same
    refine .loop (fun b => b.peer = false ∧ b.world.Reads (Answer good state)) (fun b => b.world.server.weight)
      (fun b' hb' => ?_) ⟨rfl,first⟩
    obtain ⟨r,b'',hc,hr⟩ := turn_settles hb'.1 hb'.2
    refine ⟨r,b'',hc,?_⟩
    cases r with
    | some _ => exact hr
    | none => exact hr
  obtain ⟨_,b',⟨N,hN⟩,hd⟩ := ran
  refine ⟨N,b'.world,fun n hn => ?_,hd⟩
  have hq : Bouncer.queryString reset q n b = (.ok (),b') := hN n hn
  unfold queryString
  rw [hq]

end Loops

theorem release_done {v : Backends.Server} {resetQuery : GoString} (hq : resetQuery ≠ []) (hv : v.Drained) :
    ∃ N s, (∀ n ≥ N, release n resetQuery ⟨v,[]⟩ = (.givenBack,s)) ∧
      s.Done (((v.fates v.turn).answer .simple).all completes) ((v.fates v.turn).state (Packets.query resetQuery)) := by
  obtain ⟨N,s,hN,hd⟩ := queryString_done resetQuery hv
  refine ⟨N,s,fun n hn => ?_,hd⟩
  unfold release
  rw [if_pos hq,hN n hn]

/-- A drained server answers every reset query in full and is given back. This is right just if it made a success
of the query that left it idle. -/
theorem release_isolates_iff {v : Backends.Server} {resetQuery : GoString} (hq : resetQuery ≠ []) (hv : v.Drained) :
    ∃ N r, (∀ n ≥ N, release n resetQuery ⟨v,[]⟩ = r) ∧ (Isolates r ↔ Succeeds v resetQuery) := by
  obtain ⟨N,s,hN,hclean,hready⟩ := release_done hq hv
  refine ⟨N,(.givenBack,s),hN,?_⟩
  unfold Isolates Succeeds
  rw [hclean,hready,Option.some.injEq]
  exact ⟨fun h => h rfl,fun h _ => h⟩

def answering (items : List (Item .simple)) (state : UInt8) : Backends.Server where
  fates _ := ⟨fun
    | .simple => items
    | _ => [],fun _ => state⟩

def discardAll : GoString := ascii ['D', 'I', 'S', 'C', 'A', 'R', 'D', ' ', 'A', 'L', 'L']

theorem release_isolates_discarded :
    ∃ N r, (∀ n ≥ N, release n discardAll ⟨answering [.reply ⟨⟨typeCommandComplete,discardAll⟩,by decide⟩] idle,[]⟩ = r) ∧
      (Isolates r ↔ Succeeds (answering [.reply ⟨⟨typeCommandComplete,discardAll⟩,by decide⟩] idle) discardAll) :=
  release_isolates_iff (by decide) (by simp [answering,Backends.Server.Drained])

/-- A server that rejects the reset query is given back, and so is one that it leaves in a transaction. -/
theorem release_gives_back_unreset :
    (∃ N r, (∀ n ≥ N, release n discardAll ⟨answering [.error []] idle,[]⟩ = r) ∧ r.1 = .givenBack ∧
      r.2.clean = false) ∧
    ∃ N r, (∀ n ≥ N, release n discardAll ⟨answering [] (typeOf 'E'),[]⟩ = r) ∧ r.1 = .givenBack ∧
      r.2.server.ready.head? = some (typeOf 'E') := by
  have drained (items : List (Item .simple)) (state : UInt8) : (answering items state).Drained := by
    simp [answering,Backends.Server.Drained]
  refine ⟨?_,?_⟩
  · obtain ⟨N,s,hN,hclean,_⟩ := release_done (show discardAll ≠ [] by decide) (drained [.error []] idle)
    exact ⟨N,_,hN,rfl,hclean⟩
  · obtain ⟨N,s,hN,_,hready⟩ := release_done (show discardAll ≠ [] by decide) (drained [] (typeOf 'E'))
    exact ⟨N,_,hN,rfl,hready⟩

end Pggat.Spool
