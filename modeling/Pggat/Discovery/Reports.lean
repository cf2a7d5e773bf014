import Pggat.Discovery.Clusters

/-! What holds of every pool in every run. It is enough that the statements of reported clusters keep it. -/
namespace Pggat.Discovery
open Pggat.Base

/-- A property of the pool under a key and of the pool of its replica user. -/
structure Slot.Holds (P : Key → PoolAndCredentials → Prop) (q : Key) (slot : Slot) : Prop where
  main : ∀ p, slot.main = some p → P q p
  replica : ∀ p, slot.replica = some p → P (replicaKey q) p

theorem Slot.Holds.only {P : Key → PoolAndCredentials → Prop} {q : Key} {p : PoolAndCredentials} (h : P q p)
    (p' : PoolAndCredentials) (hp : some p = some p') : P q p' := Option.some.inj hp ▸ h

theorem Slot.Holds.getD {P : Key → PoolAndCredentials → Prop} {q : Key} {o : Option PoolAndCredentials}
    (h : ∀ p, o = some p → P q p) {p : PoolAndCredentials} (hp : P q p) : P q (o.getD p) := by
  cases o with
  | none => exact hp
  | some p => exact h p rfl

/-- The statement places nodes of a cluster for a user and a database that reports of this cluster have. -/
structure Statement.Reports (S : Cluster → Prop) (s : Statement) (c : Cluster) (user : User) (database : GoString) :
    Prop where
  about : s.About c user database
  reported : S c
  hasUser : ∃ c', S c' ∧ c'.id = c.id ∧ user ∈ c'.users
  hasDatabase : ∃ c', S c' ∧ c'.id = c.id ∧ database ∈ c'.databases

structure Module.Holds (settings : Settings) (S : Cluster → Prop) (P : Key → PoolAndCredentials → Prop) (m : Module) :
    Prop where
  settings : m.settings = settings
  cached : m.Cached
  pools : ∀ key p, m.pools key = some p → P key p
  clusters : ∀ id c, m.clusters.get id = some c → S c ∧ c.id = id

namespace Module.Holds
variable {settings : Settings} {S : Cluster → Prop} {P : Key → PoolAndCredentials → Prop} {m : Module} {s : Statement}

private theorem run (h : m.Holds settings S P)
    (act : (m.slot s.key).Holds P s.key → (s.act settings (m.slot s.key)).Holds P s.key) :
    (s.run m).Holds settings S P := by
  have acts := s.acts h.cached
  have before : (m.slot s.key).Holds P s.key := by
    refine ⟨h.pools _,fun p hp => ?_⟩
    rw [Module.slot] at hp
    split at hp
    · cases hp
    · exact h.pools _ p hp
  have after := act before
  rw [← h.settings,← acts.slot] at after
  refine ⟨acts.kept.settings.trans h.settings,acts.kept.cached,fun key p hp => ?_,fun id c hc => h.clusters id c ?_⟩
  · by_cases main : key = s.key
    · exact main ▸ after.main p (main ▸ hp)
    by_cases replica : m.settings.replicaPools = false ∧ key = replicaKey s.key
    · refine replica.2 ▸ after.replica p ?_
      rw [Module.slot,acts.kept.settings,replica.1]
      exact replica.2 ▸ hp
    · exact h.pools key p ((acts.pools key main fun hf hk => replica ⟨hf,hk⟩) ▸ hp)
  · exact acts.kept.clusters ▸ hc

private theorem reports (h : m.Holds settings S P) {change : Change} (hn : ∀ c, change = .added c → S c)
    (hs : s ∈ change.statements m) : ∃ c user database, s.Reports S c user database := by
  cases change with
  | added next =>
    have hnext := hn next rfl
    rw [Change.statements] at hs
    split at hs
    · rename_i prev known
      obtain ⟨hprev,same⟩ := h.clusters _ _ known
      obtain ⟨u,d,about,⟨hu,hd⟩ | ⟨hu,hd⟩ | ⟨hu,hd⟩⟩ := mem_updatedStatements hs
      · exact ⟨next,u,d,about,hnext,⟨prev,hprev,same,hu⟩,⟨prev,hprev,same,hd⟩⟩
      · exact ⟨next,u,d,about,hnext,⟨next,hnext,rfl,hu⟩,⟨prev,hprev,same,hd⟩⟩
      · exact ⟨next,u,d,about,hnext,⟨next,hnext,rfl,hu⟩,⟨next,hnext,rfl,hd⟩⟩
    · obtain ⟨u,hu,d,hd,about⟩ := mem_addedStatements hs
      exact ⟨next,u,d,about,hnext,⟨next,hnext,rfl,hu⟩,⟨next,hnext,rfl,hd⟩⟩
  | removed id =>
    rw [Change.statements] at hs
    split at hs
    · rename_i c known
      have hc := (h.clusters id c known).1
      obtain ⟨u,hu,d,hd,about⟩ := mem_removedStatements hs
      exact ⟨c,u,d,about,hc,⟨c,hc,rfl,hu⟩,⟨c,hc,rfl,hd⟩⟩
    · cases hs

section
variable (act : ∀ (s : Statement) c user database, s.Reports S c user database → ∀ slot : Slot,
  slot.Holds P s.key → (s.act settings slot).Holds P s.key)
include act

private theorem apply (h : m.Holds settings S P) {change : Change} (hn : ∀ c, change = .added c → S c) :
    (change.apply m).Holds settings S P := by
  have known (id c) (hc : (change.apply m).clusters.get id = some c) : S c ∧ c.id = id := by
    rcases Change.known_apply h.cached hc with ⟨same,added⟩ | ⟨-,hc⟩
    · exact ⟨hn c added,by rw [same,added]; rfl⟩
    · exact h.clusters id c hc
  rw [change.apply_eq]
  refine foldl_keeps (P := Module.Holds settings S P) (fun s hs m h' => ?_)
    ⟨h.settings,h.cached,h.pools,fun id c hc => known id c ?_⟩
  · obtain ⟨c,user,database,reports⟩ := h.reports hn hs
    exact h'.run (act s c user database reports _)
  · rwa [(change.kept h.cached).clusters]

theorem reachable {allowed : Module → Event → Prop} (hn : ∀ m e, allowed m e → ∀ c, .added c ∈ e.changes → S c)
    (h : Reachable { settings := settings } allowed Module.step m) : m.Holds settings S P := by
  have initial : Module.Holds settings S P { settings := settings } := ⟨rfl,nofun,nofun,nofun⟩
  refine h.invariant initial fun m e m' hm ha hs => ?_
  rw [Module.step_changes hs]
  exact foldl_keeps (fun change hc m h => h.apply act fun c added => hn _ e ha c (added ▸ hc)) hm

end
end Module.Holds
end Pggat.Discovery
