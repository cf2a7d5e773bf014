import Pggat.Ps.Sync

/-! A sync with a server that takes over every value it is sent. -/
namespace Pggat.Ps
open Pggat.Base
variable {fold : Fold} {peers : Peers fold} {tracking : List (CIString fold)} {name : CIString fold}
variable {st₀ st st' : Pair fold}

namespace Pair

abbrev ofClient (st : Pair fold) (name : CIString fold) : Option GoString := st.client.parameters.get name

abbrev ofServer (st : Pair fold) (name : CIString fold) : Option GoString := st.server.parameters.get name

/-- The parameter is as it was. -/
structure Untouched (st₀ st : Pair fold) (name : CIString fold) : Prop where
  client : st.ofClient name = st₀.ofClient name
  server : st.ofServer name = st₀.ofServer name
  reported : st.server.reported name = st₀.server.reported name
  synced : st.client.synced = st₀.client.synced

/-- A turn of a loop leaves the other parameters alone. -/
structure Turned (st : Pair fold) (name : CIString fold) (st' : Pair fold) : Prop where
  others : ∀ n ≠ name, st.Untouched st' n
  delivered : ∀ p ∈ st.delivered, p ∈ st'.delivered

/-- A synced client and a server have nothing to tell each other about the parameter. -/
def Idle (tracking : List (CIString fold)) (st : Pair fold) (name : CIString fold) : Prop :=
  orEmpty (st.ofClient name) = orEmpty (st.ofServer name) ∨
    st.ofServer name = none ∧ ¬ ((st.ofClient name).isSome = true ∧ name ∈ tracking)

/-- What a sync makes of a parameter on the server. -/
structure Served (tracking : List (CIString fold)) (st₀ st : Pair fold) (name : CIString fold) : Prop where
  tracked : name ∈ tracking → ∀ v, st₀.ofClient name = some v → orEmpty (st.ofServer name) = v
  untracked : name ∉ tracking → st.ofServer name = st₀.ofServer name ∧
    st.server.reported name = st₀.server.reported name
  truthful : st₀.server.reported name = st₀.ofServer name → st.server.reported name = st.ofServer name
  present : (st₀.ofClient name).isSome = true → (st.ofClient name).isSome = true

/-- What a sync makes of a parameter. -/
structure Settled (tracking : List (CIString fold)) (st₀ st : Pair fold) (name : CIString fold) : Prop
    extends Served tracking st₀ st name where
  agrees : ∀ v, st.ofServer name = some v → orEmpty (st.ofClient name) = v
  told : st₀.client.synced = false → ∀ v, st.ofServer name = some v → ⟨name.val,v⟩ ∈ st.delivered
  idle : st.Idle tracking name

theorem Untouched.refl (st : Pair fold) (name : CIString fold) : st.Untouched st name := ⟨rfl,rfl,rfl,rfl⟩

variable {n : CIString fold}

theorem Untouched.trans (h : st₀.Untouched st n) (h' : st.Untouched st' n) : st₀.Untouched st' n where
  client := h'.client.trans h.client
  server := h'.server.trans h.server
  reported := h'.reported.trans h.reported
  synced := h'.synced.trans h.synced

theorem Settled.frame (h : Settled tracking st₀ st n) (hn : st.Untouched st' n)
    (hd : ∀ p ∈ st.delivered, p ∈ st'.delivered) : Settled tracking st₀ st' n where
  agrees v hv := by
    rw [hn.client]
    exact h.agrees v (hn.server ▸ hv)
  told hs v hv := hd _ (h.told hs v (hn.server ▸ hv))
  tracked ht v hv := by
    rw [hn.server]
    exact h.tracked ht v hv
  untracked ht := by
    rw [hn.server,hn.reported]
    exact h.untracked ht
  truthful ht := by
    rw [hn.server,hn.reported]
    exact h.truthful ht
  present hp := by
    rw [hn.client]
    exact h.present hp
  idle := by
    unfold Idle
    rw [hn.client,hn.server]
    exact h.idle

theorem Untouched.settled (h : st₀.Untouched st name) (hc : st.ofClient name = none) (hs : st.ofServer name = none) :
    Settled tracking st₀ st name where
  agrees v hv := by simp [hs] at hv
  told _ v hv := by simp [hs] at hv
  tracked _ v hv := by simp [← h.client,hc] at hv
  untracked _ := ⟨h.server,h.reported⟩
  truthful ht := by rw [h.reported,h.server,ht]
  present hp := by simp [← h.client,hc] at hp
  idle := .inl (by rw [hc,hs])

def tell (st : Pair fold) (name : CIString fold) (v : GoString) : Pair fold :=
  { st with client := { st.client with parameters := st.client.parameters.insert name v },
            delivered := st.delivered ++ [⟨name.val,v⟩] }

private theorem tell_client (v : GoString) : (st.tell name v).ofClient name = some v := by simp [tell,ofClient]

private theorem tell_server (v : GoString) (n : CIString fold) : (st.tell name v).ofServer n = st.ofServer n := rfl

theorem tell_turned (v : GoString) : st.Turned name (st.tell name v) where
  others n hn := ⟨by simp [tell,ofClient,hn],rfl,rfl,rfl⟩
  delivered p hp := List.mem_append_left _ hp

/-- Once it has the server's value, a client that was not synced is to be told, and a synced one is not. -/
theorem Served.tell {v : GoString} (h : Served tracking st₀ st name) (hv : orEmpty (st.ofServer name) = v) :
    Settled tracking st₀ (st.tell name v) name where
  tracked := h.tracked
  untracked := h.untracked
  truthful := h.truthful
  present _ := by rw [tell_client]; rfl
  agrees w hw := by
    rw [tell_server] at hw
    rw [tell_client,← hv,hw]
    rfl
  told _ w hw := by
    rw [tell_server] at hw
    rw [hw] at hv
    exact hv ▸ List.mem_append_right _ (List.mem_singleton.mpr rfl)
  idle := .inl (by rw [tell_client,tell_server,hv]; rfl)

theorem Served.keep (h : Served tracking st₀ st name) (hs : st₀.client.synced = true)
    (hv : orEmpty (st.ofClient name) = orEmpty (st.ofServer name)) : Settled tracking st₀ st name where
  toServed := h
  agrees w hw := by
    rw [hv,hw]
    rfl
  told hn := by simp [hs] at hn
  idle := .inl hv

/-- The server was left alone, as the client has no value for it or the same one. -/
theorem Untouched.served (h : st₀.Untouched st name)
    (ht : name ∈ tracking → ∀ v, st.ofClient name = some v → orEmpty (st.ofServer name) = v) :
    Served tracking st₀ st name where
  tracked hn v hv := ht hn v (h.client.trans hv)
  untracked _ := ⟨h.server,h.reported⟩
  truthful hr := by rw [h.reported,h.server,hr]
  present hp := by rwa [h.client]

private theorem Turned.trans {st'' : Pair fold} (h : st.Turned name st') (h' : st'.Turned name st'') :
    st.Turned name st'' where
  others n hn := (h.others n hn).trans (h'.others n hn)
  delivered p hp := h'.delivered p (h.delivered p hp)

end Pair
open Pair

variable {v : GoString}

private theorem writeStatus_ok (hnew : ¬ (st.client.synced = true ∧ orEmpty (st.ofClient name) = v))
    (h : writeStatus peers ⟨name.val,v⟩ st = (.ok (),st')) : st' = st.tell name v := by
  unfold writeStatus at h
  rw [makeCIString_val] at h
  split at h
  · rename_i same
    exact absurd same hnew
  · split at h
    · cases h
      rfl
    · cases h

/-- The server accepts each `SET` and reports the parameter with the value. -/
def Peers.Exact (peers : Peers fold) : Prop :=
  ∀ n name value, ∃ key, makeCIString fold key = name ∧ peers.react n name value = { reports := [⟨key,value⟩] }

private theorem set_ok (hx : peers.Exact) {k : Action Fault (Pair fold) Unit}
    (h : (setParameter peers name v >>= fun _ => setEntry name v >>= fun _ => k) st = (.ok (),st')) :
    ∃ t, k t = (.ok (),st') ∧ st.Turned name t ∧ t.ofServer name = some v ∧ t.server.reported name = some v ∧
      t.ofClient name = st.ofClient name ∧ t.client.synced = st.client.synced := by
  obtain ⟨key,hkey,hreact⟩ := hx st.sets.length name v
  have hset : setParameter peers name v st =
      (.ok (),{ st with server := st.server.readStatus ⟨key,v⟩, sets := st.sets ++ [(name,v)] }) := by
    unfold setParameter
    rw [hreact]
    rfl
  rw [Action.bind_ok hset] at h
  refine ⟨_,h,⟨fun n hn => ⟨rfl,?_,?_,rfl⟩,fun _ => id⟩,?_,?_,rfl,rfl⟩
  · simp [ofServer,Server.readStatus,hkey,hn]
  · simp [Server.readStatus,hkey,hn]
  · simp [ofServer]
  · simp [Server.readStatus,hkey]

theorem sync_settles (hx : peers.Exact) (hu : st₀.Untouched st name)
    (h : sync peers true tracking name st = (.ok (),st')) : Settled tracking st₀ st' name ∧ st.Turned name st' := by
  unfold sync at h
  simp only at h
  split at h
  · rename_i equal
    have served : Served tracking st₀ st name := hu.served fun _ v hv => by
      rw [show orEmpty (st.ofServer name) = orEmpty (st.ofClient name) from equal.symm,hv]
      rfl
    split at h
    · rename_i hn
      cases writeStatus_ok (fun hs => absurd hs.1 hn.2) h
      exact ⟨served.tell rfl,tell_turned _⟩
    · rename_i hs
      cases h
      exact ⟨served.keep (by simpa [← hu.synced] using hs) equal,⟨fun n _ => .refl st n,fun _ => id⟩⟩
  · rename_i differ
    split at h
    · rename_i hset
      obtain ⟨v,hv⟩ := Option.isSome_iff_exists.mp hset.1
      rw [hv] at h
      obtain ⟨t,ht,turned,hserver,hreported,hclient,hsynced⟩ := set_ok hx h
      have hv₀ : st₀.ofClient name = some v := hu.client ▸ hv
      have served : Served tracking st₀ t name :=
        { tracked := fun _ w hw => by
            rw [hserver,← Option.some.inj (hv₀.symm.trans hw)]
            rfl
          untracked := fun hn => absurd hset.2 hn
          truthful := fun _ => by rw [hserver,hreported]
          present := fun _ => by rw [hclient,show st.ofClient name = some v from hv]; rfl }
      split at ht
      · rename_i hn
        cases writeStatus_ok (fun hs => absurd (hsynced ▸ hs.1) hn.2) ht
        exact ⟨served.tell (by rw [hserver]; rfl),turned.trans (tell_turned v)⟩
      · rename_i hs
        cases ht
        refine ⟨served.keep (by simpa [← hu.synced] using hs) ?_,turned⟩
        rw [hclient,hserver,show st.ofClient name = some v from hv]
        rfl
    · rename_i hset
      have served : Served tracking st₀ st name := hu.served fun hn v hv => by
        exact absurd ⟨by rw [show st.client.parameters.get name = some v from hv]; rfl,hn⟩ hset
      split at h
      · cases writeStatus_ok (fun hs => differ hs.2) h
        exact ⟨served.tell rfl,tell_turned _⟩
      · rename_i hnone
        cases h
        have absent : st.ofServer name = none := by simpa [ofServer] using hnone
        refine ⟨{ served with agrees := ?_, told := ?_, idle := .inr ⟨absent,hset⟩ },⟨fun n _ => .refl st n,fun _ => id⟩⟩
        · simp [absent]
        · simp [absent]

/-- In the second loop a parameter is settled already and the client has it, or it is as it was. -/
def Open (tracking : List (CIString fold)) (st₀ st : Pair fold) (name : CIString fold) : Prop :=
  Settled tracking st₀ st name ∧ (st.ofClient name).isSome = true ∨ st₀.Untouched st name ∧ st.ofClient name = none

private theorem Open.frame {n : CIString fold} (h : Open tracking st₀ st n) (hn : st.Untouched st' n)
    (hd : ∀ p ∈ st.delivered, p ∈ st'.delivered) : Open tracking st₀ st' n := by
  rcases h with ⟨hs,hc⟩ | ⟨hu,hc⟩
  · exact .inl ⟨hs.frame hn hd,by rwa [hn.client]⟩
  · exact .inr ⟨hu.trans hn,by rwa [hn.client]⟩

private theorem syncAbsent_settles (hx : peers.Exact) (ho : Open tracking st₀ st name)
    (h : syncAbsent peers true tracking name st = (.ok (),st')) :
    Settled tracking st₀ st' name ∧ st.Turned name st' := by
  unfold syncAbsent at h
  split at h
  · rename_i hsome
    cases h
    rcases ho with ⟨hs,_⟩ | ⟨_,hc⟩
    · exact ⟨hs,⟨fun n _ => .refl st n,fun _ => id⟩⟩
    · rw [show st.client.parameters.get name = none from hc] at hsome
      cases hsome
  · rename_i hnone
    rcases ho with ⟨_,hc⟩ | ⟨hu,_⟩
    · exact absurd hc hnone
    · exact sync_settles hx hu h

theorem clientLoop_settles (hx : peers.Exact) (clients : Range fold)
    (h : clientLoop peers true tracking clients st₀ = (.ok (),st)) (name : CIString fold) : Open tracking st₀ st name := by
  have hc := clients.lists st₀.client.parameters
  obtain ⟨settled,kept⟩ := Action.each_settles (U := fun n st => st₀.Untouched st n)
    (P := fun n st => Settled tracking st₀ st n) (fun n _ st t hu ht => by
      obtain ⟨hsettled,turned⟩ := sync_settles hx hu ht
      exact ⟨hsettled,fun b hb => ⟨fun hu => hu.trans (turned.others b hb),
        fun hP => hP.frame (turned.others b hb) turned.delivered⟩⟩)
    hc.nodup (fun n _ => .refl st₀ n) h
  by_cases hn : name ∈ clients.order st₀.client.parameters
  · exact .inl ⟨settled name hn,(settled name hn).present ((hc.mem name).mp hn)⟩
  · have hu := (kept name hn).1 (.refl st₀ name)
    refine .inr ⟨hu,hu.client.trans ?_⟩
    simpa [ofClient] using fun hsome => hn ((hc.mem name).mpr hsome)

private theorem serverLoop_settles (hx : peers.Exact) (servers : Range fold) (ho : ∀ name, Open tracking st₀ st name)
    (h : serverLoop peers true tracking servers st = (.ok (),st')) (name : CIString fold) :
    Settled tracking st₀ st' name := by
  have hs := servers.lists st.server.parameters
  obtain ⟨settled,kept⟩ := Action.each_settles (U := fun n t => Open tracking st₀ t n ∧ t.ofServer n = st.ofServer n)
    (P := fun n t => Settled tracking st₀ t n) (fun n _ st t hu ht => by
      obtain ⟨hsettled,turned⟩ := syncAbsent_settles hx hu.1 ht
      exact ⟨hsettled,fun b hb => ⟨fun hu => ⟨hu.1.frame (turned.others b hb) turned.delivered,
          (turned.others b hb).server.trans hu.2⟩,
        fun hP => hP.frame (turned.others b hb) turned.delivered⟩⟩)
    hs.nodup (fun n _ => ⟨ho n,rfl⟩) h
  by_cases hn : name ∈ servers.order st.server.parameters
  · exact settled name hn
  · obtain ⟨hopen,hserver⟩ := (kept name hn).1 ⟨ho name,rfl⟩
    rcases hopen with ⟨hsettled,_⟩ | ⟨hu,hclient⟩
    · exact hsettled
    · refine hu.settled hclient (hserver.trans ?_)
      simpa [ofServer] using fun hsome => hn ((hs.mem name).mpr hsome)

/-- A synced client and a server that are settled have nothing to tell each other. -/
theorem sync_idle (hs : st.client.synced = true) (hi : st.Idle tracking name) :
    sync peers true tracking name st = (.ok (),st) := by
  unfold sync
  simp only
  split
  · rw [if_neg fun h => h.2 hs]
  · rename_i differ
    obtain ⟨absent,hset⟩ := hi.resolve_left differ
    rw [if_neg hset,if_neg fun h => by simp [show st.server.parameters.get name = none from absent] at h]

private theorem syncConn_idle (hs : st.client.synced = true) (hi : ∀ name, st.Idle tracking name)
    (clients servers : Range fold) :
    syncConn peers tracking clients servers st = (.ok (),st) := by
  have first : clientLoop peers true tracking clients st = (.ok (),st) :=
    Action.each_idle fun name _ => sync_idle hs (hi name)
  have second : serverLoop peers true tracking servers st = (.ok (),st) := Action.each_idle fun name _ => by
    unfold syncAbsent
    split
    · rfl
    · exact sync_idle hs (hi name)
  have marked : markSynced st = (.ok (),st) := by
    unfold markSynced
    rw [← hs]
  unfold syncConn
  rw [Action.bind_ok first,Action.bind_ok second,marked]

/-- After a sync that returns no error the client has the values of the server, and was told them if it was not
synced before. A tracked parameter has the client's value and the others have the server's. Another sync does nothing. -/
theorem sync_converges {peers : Peers fold} (hx : peers.Exact) (tracking : List (CIString fold))
    (clients servers : Range fold) {client : Client fold} {server : Server fold} {st : Pair fold}
    (h : syncConn peers tracking clients servers ⟨client,server,[],[]⟩ = (.ok (),st)) :
    (∀ name v, st.server.parameters.get name = some v → orEmpty (st.client.parameters.get name) = v) ∧
    (client.synced = false → ∀ name v, st.server.parameters.get name = some v → ⟨name.val,v⟩ ∈ st.delivered) ∧
    (∀ name ∈ tracking, ∀ v, client.parameters.get name = some v → orEmpty (st.server.parameters.get name) = v) ∧
    (∀ name ∉ tracking, st.server.parameters.get name = server.parameters.get name ∧
      st.server.reported name = server.reported name) ∧
    (∀ name, server.reported name = server.parameters.get name →
      st.server.reported name = st.server.parameters.get name) ∧
    ∀ peers' clients' servers', syncConn peers' tracking clients' servers' st = (.ok (),st) := by
  obtain ⟨_,st₁,hfirst,h⟩ := Action.bind_ok_inv h
  obtain ⟨_,st₂,hsecond,h⟩ := Action.bind_ok_inv h
  have settled := serverLoop_settles hx servers (clientLoop_settles hx clients hfirst) hsecond
  cases h
  exact ⟨fun name => (settled name).agrees,fun hs name => (settled name).told hs,fun name => (settled name).tracked,
    fun name => (settled name).untracked,fun name => (settled name).truthful,
    fun _ => syncConn_idle rfl fun name => (settled name).idle⟩

def lower : Fold := ⟨id,fun _ => rfl⟩

def timezone : CIString lower := ⟨ascii ['t', 'i', 'm', 'e', 'z', 'o', 'n', 'e'],rfl⟩

def keysRange : Range lower := ⟨AList.keys,Map.lists_keys⟩

/-- A server that reports what it is sent, and a client that reads. -/
def obedient : Peers lower := ⟨fun _ name value => { reports := [⟨name.val,value⟩] },fun _ => true⟩

/-- A client whose time zone is tracked, and a server with another one. -/
theorem sync_converges_timezone :
    ∃ st, syncConn obedient [timezone] keysRange keysRange
        ⟨{ parameters := AList.insert timezone [97] ∅ },{ parameters := AList.insert timezone [98] ∅ },[],[]⟩ = (.ok (),st) ∧
      orEmpty (st.server.parameters.get timezone) = [97] := by
  have h := show syncConn obedient [timezone] keysRange keysRange
    ⟨{ parameters := AList.insert timezone [97] ∅ },{ parameters := AList.insert timezone [98] ∅ },[],[]⟩ = (.ok (),_) from rfl
  obtain ⟨_,_,tracked,_⟩ := sync_converges (fun _ name _ => ⟨name.val,rfl,rfl⟩) [timezone] keysRange keysRange h
  exact ⟨_,h,tracked timezone List.mem_cons_self [97] rfl⟩

end Pggat.Ps
