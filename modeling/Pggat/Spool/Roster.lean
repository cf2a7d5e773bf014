import Pggat.Base.Maps
import Pggat.Kitchen.Chef
import Pggat.Spool.Server

/-! The servers of a pool in its two maps. -/
namespace Pggat.Spool
open Pggat.Base

/-- `serversByID` and `serversByConn` lead to servers, of which each has its id and its connection: `servers` are the
connections of all that were ever made. -/
structure Roster where
  serversByID : Map Uuid Kitchen.Conn := ∅
  serversByConn : Map Kitchen.Conn Uuid := ∅
  servers : Uuid → Kitchen.Conn := fun _ => 0
  created : Nat := 0

namespace Roster

def addServer (s : Roster) (conn : Kitchen.Conn) : Roster where
  serversByID := s.serversByID.insert s.created conn
  serversByConn := s.serversByConn.insert conn s.created
  servers := Function.update s.servers s.created conn
  created := s.created + 1

def deleteServer (s : Roster) (server : Uuid) (conn : Kitchen.Conn) : Roster :=
  { s with serversByID := s.serversByID.erase server, serversByConn := s.serversByConn.erase conn }

def removeServer (s : Roster) (conn : Kitchen.Conn) : Roster :=
  match s.serversByConn.get conn with
  | none => s
  | some server => s.deleteServer server conn

/-- The section of `AddRecipe`, `RemoveRecipe` or `ScaleUp` under the pool's mutex. -/
def settle (s : Roster) (removed added : List Kitchen.Conn) : Roster :=
  added.foldl addServer (removed.foldl removeServer s)

def Made (s : Roster) (conn : Kitchen.Conn) : Prop := ∃ server < s.created, s.servers server = conn

/-- The two maps agree, and each connection has one server. -/
structure Sound (s : Roster) : Prop where
  inverse : s.serversByID.Inverse s.serversByConn
  made : ∀ server conn, s.serversByID.get server = some conn → server < s.created ∧ s.servers server = conn
  single : ∀ server server', server < s.created → server' < s.created → s.servers server = s.servers server' →
    server = server'

namespace Sound
variable {s : Roster} {conn : Kitchen.Conn} {server : Uuid}

theorem initial : Sound {} := ⟨fun _ _ => by simp,nofun,nofun⟩

theorem made_of_get (h : s.Sound) (hc : s.serversByConn.get conn ≠ none) : s.Made conn := by
  obtain ⟨server,hs⟩ := Option.ne_none_iff_exists'.mp hc
  exact ⟨server,h.made server conn ((h.inverse server conn).mpr hs)⟩

theorem deleteServer (h : s.Sound) (hs : server < s.created) (hc : s.servers server = conn) :
    (s.deleteServer server conn).Sound := by
  refine ⟨h.inverse.erase (fun conn' hg => ?_) (fun server' hg => ?_),fun server' conn' hg => ?_,h.single⟩
  · exact (h.made server conn' hg).2.symm.trans hc
  · obtain ⟨lt,same⟩ := h.made server' conn ((h.inverse server' conn).mpr hg)
    exact h.single server' server lt hs (same.trans hc.symm)
  · simp only [Roster.deleteServer,Map.get_erase] at hg
    split at hg
    · cases hg
    · exact h.made server' conn' hg

private theorem removeServer (h : s.Sound) (conn : Kitchen.Conn) :
    (s.removeServer conn).Sound ∧ (s.removeServer conn).servers = s.servers ∧
      (s.removeServer conn).created = s.created ∧
      ∀ c, (s.removeServer conn).serversByConn.get c = if c = conn then none else s.serversByConn.get c := by
  cases hc : s.serversByConn.get conn with
  | none =>
    have same : s.removeServer conn = s := by rw [Roster.removeServer,hc]
    rw [same]
    refine ⟨h,rfl,rfl,fun c => ?_⟩
    split
    · rename_i e
      exact e ▸ hc
    · rfl
  | some server =>
    obtain ⟨lt,same⟩ := h.made server conn ((h.inverse server conn).mpr hc)
    rw [Roster.removeServer,hc]
    exact ⟨h.deleteServer lt same,rfl,rfl,fun c => by simp [Roster.deleteServer]⟩

theorem removeServers (h : s.Sound) (removed : List Kitchen.Conn) :
    (removed.foldl Roster.removeServer s).Sound ∧ (removed.foldl Roster.removeServer s).servers = s.servers ∧
      (removed.foldl Roster.removeServer s).created = s.created ∧
      ∀ c, (removed.foldl Roster.removeServer s).serversByConn.get c =
        if c ∈ removed then none else s.serversByConn.get c := by
  induction removed generalizing s with
  | nil => exact ⟨h,rfl,rfl,fun c => by simp⟩
  | cons conn removed ih =>
    obtain ⟨sound,servers,created,get⟩ := h.removeServer conn
    obtain ⟨sound',servers',created',get'⟩ := ih sound
    refine ⟨sound',servers'.trans servers,created'.trans created,fun c => ?_⟩
    rw [List.foldl_cons,get',get]
    by_cases hc : c ∈ removed
    · simp [hc]
    · by_cases e : c = conn <;> simp [hc,e]

private theorem addServer (h : s.Sound) (fresh : ¬ s.Made conn) : (s.addServer conn).Sound := by
  have absent : s.serversByID.get s.created = none := by
    refine Option.eq_none_iff_forall_ne_some.mpr fun c hc => ?_
    exact absurd (h.made _ c hc).1 (Nat.lt_irrefl _)
  have unknown : s.serversByConn.get conn = none := by
    by_contra hc
    exact fresh (h.made_of_get hc)
  refine ⟨h.inverse.insert absent unknown,fun server c hc => ?_,fun server server' lt lt' same => ?_⟩
  · simp only [Roster.addServer,Map.get_insert] at hc ⊢
    split at hc
    · rename_i e
      cases hc
      exact ⟨e ▸ Nat.lt_succ_self _,by simp [e]⟩
    · obtain ⟨lt,same⟩ := h.made server c hc
      exact ⟨Nat.lt_succ_of_lt lt,by simp [Nat.ne_of_lt lt,same]⟩
  · simp only [Roster.addServer] at lt lt' same
    rcases Nat.lt_succ_iff_lt_or_eq.mp lt with lt | rfl <;> rcases Nat.lt_succ_iff_lt_or_eq.mp lt' with lt' | rfl
    · exact h.single server server' lt lt' (by simpa [Nat.ne_of_lt lt,Nat.ne_of_lt lt'] using same)
    · exact absurd ⟨server,lt,by simpa [Nat.ne_of_lt lt] using same⟩ fresh
    · exact absurd ⟨server',lt',by simpa [Nat.ne_of_lt lt'] using same.symm⟩ fresh
    · rfl

private theorem made_addServer (conn c : Kitchen.Conn) : (s.addServer conn).Made c ↔ s.Made c ∨ c = conn := by
  constructor
  · rintro ⟨server,lt,rfl⟩
    rcases Nat.lt_succ_iff_lt_or_eq.mp lt with lt | rfl
    · exact .inl ⟨server,lt,by simp [Roster.addServer,Nat.ne_of_lt lt]⟩
    · exact .inr (by simp [Roster.addServer])
  · rintro (⟨server,lt,rfl⟩ | rfl)
    · exact ⟨server,Nat.lt_succ_of_lt lt,by simp [Roster.addServer,Nat.ne_of_lt lt]⟩
    · exact ⟨s.created,Nat.lt_succ_self _,by simp [Roster.addServer]⟩

/-- What adding servers for new connections does. -/
structure Extended (s s' : Roster) (added : List Kitchen.Conn) : Prop where
  sound : s'.Sound
  created : s.created ≤ s'.created
  servers : ∀ server < s.created, s'.servers server = s.servers server
  made : ∀ c, s'.Made c ↔ s.Made c ∨ c ∈ added
  get : ∀ c, s'.serversByConn.get c ≠ none ↔ s.serversByConn.get c ≠ none ∨ c ∈ added

theorem addServers (h : s.Sound) {added : List Kitchen.Conn} (distinct : added.Nodup)
    (fresh : ∀ c ∈ added, ¬ s.Made c) : Extended s (added.foldl Roster.addServer s) added := by
  induction added generalizing s with
  | nil => exact ⟨h,Nat.le_refl _,fun _ _ => rfl,fun c => by simp,fun c => by simp⟩
  | cons conn added ih =>
    obtain ⟨new,distinct⟩ := List.nodup_cons.mp distinct
    have rest (c : Kitchen.Conn) (hc : c ∈ added) : ¬ (s.addServer conn).Made c := by
      rw [made_addServer]
      rintro (made | rfl)
      · exact fresh c (List.mem_cons_of_mem conn hc) made
      · exact new hc
    obtain ⟨sound,created,servers,made,get⟩ := ih (h.addServer (fresh conn List.mem_cons_self)) distinct rest
    refine ⟨sound,Nat.le_of_succ_le created,fun server lt => ?_,fun c => ?_,fun c => ?_⟩
    · rw [List.foldl_cons,servers server (Nat.lt_succ_of_lt lt)]
      simp [Roster.addServer,Nat.ne_of_lt lt]
    · rw [List.foldl_cons,made,made_addServer,List.mem_cons,or_assoc]
    · rw [List.foldl_cons,get,List.mem_cons,← or_assoc]
      refine or_congr_left ?_
      by_cases e : c = conn <;> simp [Roster.addServer,e]

end Sound

end Roster

end Pggat.Spool
