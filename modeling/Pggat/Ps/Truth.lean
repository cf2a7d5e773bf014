import Pggat.Base.Runs
import Pggat.Ps.Settling

/-! What the middleware of a server holds for its parameters, over any sequence of pairings with clients. -/
namespace Pggat.Ps
open Pggat.Base
variable {fold : Fold}

/-- The value that a parameter has after some reports, if any of them is about it. -/
def lastReport : List Status → CIString fold → Option GoString
  | [], _ => none
  | p :: ps, name => (lastReport ps name).or (if makeCIString fold p.key = name then some p.value else none)

def Server.startup (reports : List Status) : Server fold := reports.foldl Server.readStatus {}

/-- A pairing through `Sync` or `SyncMiddleware`. -/
structure Pairing (fold : Fold) where
  both : Bool
  client : Client fold
  tracking : List (CIString fold)
  clients : Range fold
  servers : Range fold
  peers : Peers fold

def Pairing.run (p : Pairing fold) (s : Server fold) : Except Fault Unit × Pair fold :=
  if p.both then syncConn p.peers p.tracking p.clients p.servers ⟨p.client,s,[],[]⟩
  else syncMiddleware p.peers p.tracking p.clients p.servers ⟨p.client,s,[],[]⟩

/-- Between pairings the server reports what it likes. -/
inductive Event (fold : Fold) where
  | pair (p : Pairing fold)
  | report (p : Status)

namespace Server

def step (s : Server fold) : Event fold → Option (Server fold)
  | .pair p => some (p.run s).2.server
  | .report p => some (s.readStatus p)

/-- The middleware holds what the server last reported, for the parameters that it reports. -/
def Truthful (reports : CIString fold → Bool) (s : Server fold) : Prop :=
  ∀ name v, reports name = true → s.parameters.get name = some v → s.reported name = some v

variable {reports : CIString fold → Bool} {s : Server fold}

theorem Truthful.readStatus (h : s.Truthful reports) (p : Status) : (s.readStatus p).Truthful reports := by
  intro name v hn hv
  simp only [Server.readStatus,Map.get_insert] at hv ⊢
  split at hv
  · rename_i he
    subst he
    rw [Function.update_self]
    exact hv
  · rename_i he
    rw [Function.update_of_ne he]
    exact h name v hn hv

theorem Truthful.readAll (h : s.Truthful reports) (ps : List Status) : (ps.foldl Server.readStatus s).Truthful reports := by
  induction ps generalizing s with
  | nil => exact h
  | cons p ps ih => exact ih (h.readStatus p)

theorem reported_readAll (ps : List Status) (name : CIString fold) :
    (ps.foldl readStatus s).reported name = (lastReport ps name).or (s.reported name) := by
  induction ps generalizing s with
  | nil => rfl
  | cons p ps ih =>
    have hp : (s.readStatus p).reported name =
        (if makeCIString fold p.key = name then some p.value else none).or (s.reported name) := by
      by_cases he : makeCIString fold p.key = name
      · simp [readStatus,he]
      · simp [readStatus,he,Function.update_of_ne (Ne.symm he)]
    rw [List.foldl_cons,ih,hp,lastReport,Option.or_assoc]

private theorem Truthful.insert (h : s.Truthful reports) {name : CIString fold} {v : GoString}
    (hv : reports name = true → s.reported name = some v) :
    Truthful reports { s with parameters := s.parameters.insert name v } := by
  intro n w hn hw
  rw [Map.get_insert] at hw
  split at hw
  · rename_i he
    subst he
    cases hw
    exact hv hn
  · exact h n w hn hw

end Server

/-- The server takes over every tracked parameter that it reports with the value it was sent. -/
def Peers.Verbatim (peers : Peers fold) (reports : CIString fold → Bool) (tracking : List (CIString fold)) : Prop :=
  ∀ n, ∀ name ∈ tracking, ∀ value, reports name = true →
    lastReport (peers.react n name value).reports name = some value

def Event.Verbatim (reports : CIString fold → Bool) : Event fold → Prop
  | .pair p => p.peers.Verbatim reports p.tracking
  | .report _ => True

section
variable {peers : Peers fold} {tell : Bool} {tracking : List (CIString fold)} {reports : CIString fold → Bool}
variable {name : CIString fold} {st : Pair fold}

private theorem writeStatus_server (p : Status) : (writeStatus peers p st).2.server = st.server := by
  unfold writeStatus
  split
  · rfl
  · split <;> rfl

private theorem setParameter_server (value : GoString) : (setParameter peers name value st).2.server =
    (peers.react st.sets.length name value).reports.foldl Server.readStatus st.server := by
  unfold setParameter
  dsimp only
  split <;> rfl

theorem sync_truthful (hv : peers.Verbatim reports tracking) (h : st.server.Truthful reports) :
    (sync peers tell tracking name st).2.server.Truthful reports := by
  unfold sync
  simp only
  split
  · split
    · rw [writeStatus_server]
      exact h
    · exact h
  · split
    · rename_i hset
      generalize orEmpty (st.client.parameters.get name) = value
      have hserver : (setParameter peers name value st).2.server = _ := setParameter_server value
      have htruthful : (setParameter peers name value st).2.server.Truthful reports := by
        rw [hserver]
        exact h.readAll _
      have hentry : reports name = true → (setParameter peers name value st).2.server.reported name = some value := by
        intro hn
        rw [hserver,Server.reported_readAll,hv _ name hset.2 value hn]
        rfl
      rcases hr : setParameter peers name value st with ⟨e | u,t⟩
      · rw [hr] at htruthful
        rw [Action.bind_error hr]
        exact htruthful
      · rw [hr] at htruthful hentry
        rw [Action.bind_ok hr,Action.bind_ok (show setEntry name value t = (.ok (),_) from rfl)]
        have hset := htruthful.insert hentry
        split
        · rw [writeStatus_server]
          exact hset
        · exact hset
    · split
      · rw [writeStatus_server]
        exact h
      · exact h

private theorem syncAbsent_truthful (hv : peers.Verbatim reports tracking) (h : st.server.Truthful reports) :
    (syncAbsent peers tell tracking name st).2.server.Truthful reports := by
  unfold syncAbsent
  split
  · exact h
  · exact sync_truthful hv h

private theorem loops_truthful (hv : peers.Verbatim reports tracking) (clients servers : Range fold)
    (h : st.server.Truthful reports) :
    ((clientLoop peers tell tracking clients >>= fun _ => serverLoop peers tell tracking servers) st).2.server.Truthful
      reports :=
  Action.bind_keeps (I := fun st : Pair fold => st.server.Truthful reports)
    (Action.each_keeps (I := fun st : Pair fold => st.server.Truthful reports) (fun _ _ => sync_truthful hv) h)
    fun _ _ ht => Action.each_keeps (I := fun st : Pair fold => st.server.Truthful reports)
      (fun _ _ => syncAbsent_truthful hv) ht

end

private theorem Pairing.run_truthful {p : Pairing fold} {reports : CIString fold → Bool} {s : Server fold}
    (hv : p.peers.Verbatim reports p.tracking) (h : s.Truthful reports) : (p.run s).2.server.Truthful reports := by
  unfold run
  split
  · unfold syncConn
    rw [← Action.bind_assoc]
    exact Action.bind_keeps (I := fun st : Pair fold => st.server.Truthful reports)
      (loops_truthful hv p.clients p.servers h) fun _ _ ht => ht
  · exact loops_truthful hv p.clients p.servers h

/-- Over any sequence of pairings in which the server takes over every tracked parameter as it was sent, the
middleware holds what the server last reported. -/
theorem tracking_truthful {fold : Fold} {reports : CIString fold → Bool} {startup : List Status} {s : Server fold}
    (h : Reachable (Server.startup startup) (fun _ e => e.Verbatim reports) Server.step s) : s.Truthful reports := by
  refine h.invariant ?_ ?_
  · exact Server.Truthful.readAll (fun _ _ _ hv => by cases hv) startup
  · intro s e s' hs ha hstep
    cases e with
    | pair p =>
      cases hstep
      exact p.run_truthful ha hs
    | report p =>
      cases hstep
      exact hs.readStatus p

def gmt : GoString := ascii ['G', 'M', 'T']

def utc : GoString := ascii ['u', 't', 'c']

def zoned (zone : GoString) (peers : Peers lower) : Pairing lower where
  both := true
  client := { parameters := AList.insert timezone zone ∅ }
  tracking := [timezone]
  clients := keysRange
  servers := keysRange
  peers := peers

def started : Server lower := .startup [⟨timezone.val,gmt⟩]

theorem tracking_truthful_zoned : ((zoned utc obedient).run started).2.server.Truthful fun _ => true :=
  tracking_truthful (.next (e := .pair (zoned utc obedient)) .start
    (fun _ name _ value _ => by simp [zoned,obedient,lastReport,makeCIString_val]) rfl)

def rejecting : Peers lower := ⟨fun _ _ _ => {},fun _ => true⟩

def capitals : GoString := ascii ['U', 'T', 'C']

def normalising : Peers lower := ⟨fun _ name _ => { reports := [⟨name.val,capitals⟩] },fun _ => true⟩

/-- The `SET` is rejected or its value normalised, the pairing returns no error and the middleware holds the
client's value. -/
theorem tracking_differs :
    (((zoned utc rejecting).run started).1 = .ok () ∧
      ((zoned utc rejecting).run started).2.server.parameters.get timezone = some utc ∧
      ((zoned utc rejecting).run started).2.server.reported timezone = some gmt) ∧
    ((zoned utc normalising).run started).1 = .ok () ∧
      ((zoned utc normalising).run started).2.server.parameters.get timezone = some utc ∧
      ((zoned utc normalising).run started).2.server.reported timezone = some capitals :=
  ⟨⟨rfl,rfl,rfl⟩,rfl,rfl,rfl⟩

end Pggat.Ps
