import Pggat.Base.Loops
import Pggat.Discovery.Slots

/-! A change of a cluster as the list of the statements about pools that its handler makes. They concern neither the
settings nor the clusters, nor the pools of other pairs. -/
namespace Pggat.Discovery
open Pggat.Base

def Cluster.names (c : Cluster) : List GoString := c.users.map (·.username)

theorem Cluster.mem_names {c : Cluster} {user : User} (h : user ∈ c.users) : user.username ∈ c.names :=
  List.mem_map.mpr ⟨user,h,rfl⟩

/-- The pair has a pool by this cluster. -/
def Cluster.Has (c : Cluster) (q : Key) : Prop := q.1 ∈ c.names ∧ q.2 ∈ c.databases

def Touched (prev next : Cluster) (q : Key) : Prop := prev.Has q ∨ q.1 ∈ next.names ∧ q.2 ∈ prev.databases ∨ next.Has q

/-- The calls that all handlers come down to. -/
inductive Statement where
  | addPrimaryNode (user : User) (database : GoString) (primary : Node)
  | addReplicaRecipes (user : User) (database : GoString) (replicas : List ((_ : GoString) × Node))
  | removeReplicaNodes (username database : GoString) (replicas : Map GoString Node)
  | removeReplicaNode (username database id : GoString)
  | removePrimaryNode (username database : GoString)

namespace Statement

def run (m : Module) : Statement → Module
  | addPrimaryNode user database primary => m.addPrimaryNode user database primary
  | addReplicaRecipes user database replicas => m.addReplicaRecipes user database replicas
  | removeReplicaNodes username database replicas => m.removeReplicaNodes username database replicas
  | removeReplicaNode username database id => m.removeReplicaNode username database id
  | removePrimaryNode username database => m.removePrimaryNode username database

/-- What it does to the pools of its pair. -/
def act (settings : Settings) : Statement → Slot → Slot
  | addPrimaryNode user database primary => Slot.addPrimary settings user database primary
  | addReplicaRecipes user database replicas => Slot.addReplicas settings user database replicas
  | removeReplicaNodes _ _ replicas => Slot.removeReplicas settings replicas
  | removeReplicaNode _ _ id => Slot.removeReplica settings id
  | removePrimaryNode _ _ => Slot.removePrimary

def key : Statement → Key
  | addPrimaryNode user database _ => (user.username,database)
  | addReplicaRecipes user database _ => (user.username,database)
  | removeReplicaNodes username database _ => (username,database)
  | removeReplicaNode username database _ => (username,database)
  | removePrimaryNode username database => (username,database)

def user : Statement → Option User
  | addPrimaryNode user _ _ => some user
  | addReplicaRecipes user _ _ => some user
  | _ => none

/-- The nodes of its recipes are those of the cluster. -/
def Places (c : Cluster) : Statement → Prop
  | addPrimaryNode _ _ primary => primary = c.primary
  | addReplicaRecipes _ _ replicas => ∀ e ∈ replicas, e ∈ c.replicas.entries
  | _ => True

variable {m : Module} {q : Key}

theorem acts (s : Statement) (h : m.Cached) : Acts s.key (s.act m.settings) m (s.run m) := by
  cases s with
  | addPrimaryNode => exact Module.addPrimaryNode_acts h ..
  | addReplicaRecipes => exact Module.addReplicaRecipes_acts h ..
  | removeReplicaNodes => exact Module.removeReplicaNodes_acts h ..
  | removeReplicaNode => exact Module.removeReplicaNode_acts h ..
  | removePrimaryNode => exact Module.removePrimaryNode_acts h ..

theorem foldl_kept (l : List Statement) (h : m.Cached) : Kept m (l.foldl run m) :=
  foldl_keeps (fun s _ _ kept => kept.trans (s.acts kept.cached).kept) ⟨rfl,rfl,h⟩

theorem foldl_pools {l : List Statement} (h : m.Cached) {k : Key}
    (other : ∀ s ∈ l, k ≠ s.key ∧ (m.settings.replicaPools = false → k ≠ replicaKey s.key)) :
    (l.foldl run m).pools k = m.pools k := by
  induction l generalizing m with
  | nil => rfl
  | cons s l ih =>
    rw [List.forall_mem_cons] at other
    have acts := s.acts h
    exact (ih acts.kept.cached (acts.kept.settings ▸ other.2)).trans (acts.pools k other.1.1 other.1.2)

end Statement

namespace Slot
variable {settings : Settings} {q : Key} {slot : Slot} {l : List Statement}

/-- The pools of the pair `q` after the statements about it. -/
def run (settings : Settings) (q : Key) (slot : Slot) (l : List Statement) : Slot :=
  l.foldl (fun slot s => if s.key = q then s.act settings slot else slot) slot

theorem run_cons (s : Statement) :
    slot.run settings q (s :: l) = (if s.key = q then s.act settings slot else slot).run settings q l := rfl

theorem run_append (l l' : List Statement) :
    slot.run settings q (l ++ l') = (slot.run settings q l).run settings q l' := List.foldl_append ..

theorem run_flatMap {α : Type} (xs : List α) (f : α → List Statement) :
    slot.run settings q (xs.flatMap f) = xs.foldl (fun slot x => slot.run settings q (f x)) slot := List.foldl_flatMap ..

theorem run_miss (h : ∀ s ∈ l, s.key ≠ q) : slot.run settings q l = slot := by
  induction l with
  | nil => rfl
  | cons s l ih =>
    rw [List.forall_mem_cons] at h
    rw [run_cons,if_neg h.1,ih h.2]

end Slot

/-- The statements about other pairs do not matter to a pair with which they do not collide. -/
theorem foldl_slot {m : Module} {q : Key} {l : List Statement} (h : m.Cached)
    (free : ∀ s ∈ l, s.key ≠ q → ¬ Clash m.settings s.key q) :
    (l.foldl Statement.run m).slot q = (m.slot q).run m.settings q l := by
  induction l generalizing m with
  | nil => rfl
  | cons s l ih =>
    rw [List.forall_mem_cons] at free
    have acts := s.acts h
    rw [List.foldl_cons,ih acts.kept.cached (acts.kept.settings ▸ free.2),acts.kept.settings,Slot.run_cons]
    split
    · rename_i hq
      exact congrArg (Slot.run m.settings q · l) (hq ▸ acts.slot)
    · rename_i ne
      exact congrArg (Slot.run m.settings q · l) (acts.frame q (free.1 ne))

def eachPair (users : List User) (databases : List GoString) (body : User → GoString → List Statement) :
    List Statement :=
  (users ×ˢ databases).flatMap fun x => body x.1 x.2

namespace Cluster
variable (c : Cluster)

def addsPair (user : User) (database : GoString) : List Statement :=
  [.addPrimaryNode user database c.primary, .addReplicaRecipes user database c.replicas.entries]

def removesPair (user : User) (database : GoString) : List Statement :=
  [.removeReplicaNodes user.username database c.replicas, .removePrimaryNode user.username database]

def addedStatements : List Statement := eachPair c.users c.databases c.addsPair

def removedStatements : List Statement := c.databases.flatMap fun database => eachPair c.users [database] c.removesPair

end Cluster

section
variable (prev next : Cluster)

local instance lawfulGoString : LawfulBEq GoString := inferInstance

def replicaStatements : List Statement :=
  let each := eachPair prev.users prev.databases
  if prev.replicas.entries ≠ [] ∧ next.replicas.entries = [] then
    each fun user database => [.removeReplicaNodes user.username database prev.replicas]
  else if prev.replicas.entries = [] ∧ next.replicas.entries ≠ [] then
    each fun user database => [.addReplicaRecipes user database next.replicas.entries]
  else
    (next.replicas.entries.flatMap fun e =>
      if prev.replicas.get e.1 ≠ some e.2 then each fun user database => [.addReplicaRecipes user database [e]]
      else []) ++
    prev.replicas.entries.flatMap fun e =>
      if (next.replicas.get e.1).isSome then []
      else each fun user database => [.removeReplicaNode user.username database e.1]

def userStatements (user : User) : List Statement :=
  let adds := eachPair [user] prev.databases next.addsPair
  match prev.users.find? (·.username = user.username) with
  | none => adds
  | some prevUser =>
    if user.password ≠ prevUser.password then eachPair [user] prev.databases next.removesPair ++ adds else []

def endpointStatements : List Statement :=
  (if prev.primary ≠ next.primary then
    eachPair prev.users prev.databases fun user database => [.addPrimaryNode user database next.primary] else []) ++
  replicaStatements prev next

def usersStatements : List Statement :=
  next.users.flatMap (userStatements prev next) ++ prev.users.flatMap fun user =>
    if next.users.any (·.username = user.username) then [] else eachPair [user] prev.databases next.removesPair

def databasesStatements : List Statement :=
  (next.databases.flatMap fun database =>
    if database ∈ prev.databases then [] else eachPair next.users [database] next.addsPair) ++
  prev.databases.flatMap fun database =>
    if database ∈ next.databases then [] else eachPair next.users [database] next.removesPair

def updatedStatements : List Statement :=
  endpointStatements prev next ++ (usersStatements prev next ++ databasesStatements prev next)

end

section
variable {m : Module} {prev next : Cluster}

theorem foldl_eachPair (users : List User) (databases : List GoString) (body : User → GoString → List Statement) :
    (eachPair users databases body).foldl Statement.run m =
      m.forPairs users databases fun user database m => (body user database).foldl Statement.run m := by
  simp only [eachPair,SProd.sprod,List.product,List.foldl_flatMap,List.foldl_map,Module.forPairs]

theorem foldl_if {c : Prop} [Decidable c] (l l' : List Statement) :
    (if c then l else l').foldl Statement.run m =
      if c then l.foldl Statement.run m else l'.foldl Statement.run m :=
  apply_ite ..

private theorem foldl_userStatements (user : User) :
    (userStatements prev next user).foldl Statement.run m = m.updateUser prev next user := by
  rw [Module.updateUser,userStatements]
  cases prev.users.find? (·.username = user.username) with
  | none =>
    simp only [foldl_eachPair]
    rfl
  | some prevUser =>
    simp only [foldl_if,List.foldl_append,foldl_eachPair]
    rfl

theorem updated_eq : m.updated prev next =
    (updatedStatements prev next).foldl Statement.run { m with clusters := m.clusters.insert next.id next } := by
  simp only [updatedStatements,endpointStatements,replicaStatements,usersStatements,databasesStatements,
    List.foldl_append,List.foldl_flatMap,foldl_if,foldl_eachPair,foldl_userStatements]
  rfl

variable {c : Cluster}

theorem added_eq (unknown : m.clusters.get c.id = none) :
    m.added c = c.addedStatements.foldl Statement.run { m with clusters := m.clusters.insert c.id c } := by
  rw [Module.added,unknown,Cluster.addedStatements,foldl_eachPair]
  rfl

theorem removed_eq {id : GoString} (known : m.clusters.get id = some c) :
    m.removed id = c.removedStatements.foldl Statement.run { m with clusters := m.clusters.erase id } := by
  rw [Module.removed,known]
  simp only [Cluster.removedStatements,List.foldl_flatMap,foldl_eachPair]
  rfl

end

/-- A statement of this user and database, with nodes of the cluster. -/
structure Statement.About (c : Cluster) (user : User) (database : GoString) (s : Statement) : Prop where
  key : s.key = (user.username,database)
  user : ∀ u ∈ s.user, u = user
  places : s.Places c

/-- The body of a loop makes statements of the user and database that it is given. -/
def Bodied (c : Cluster) (body : User → GoString → List Statement) : Prop :=
  ∀ user database, ∀ s ∈ body user database, s.About c user database

section
variable {c : Cluster} {prev next : Cluster} {s : Statement} {body : User → GoString → List Statement} {users : List User}
  {databases : List GoString}

theorem bodied_addsPair : Bodied c c.addsPair := by
  intro user database s hs
  simp only [Cluster.addsPair,List.mem_cons,List.not_mem_nil,or_false] at hs
  rcases hs with rfl | rfl
  · exact ⟨rfl,fun _ h => (Option.some.inj h).symm,rfl⟩
  · exact ⟨rfl,fun _ h => (Option.some.inj h).symm,fun _ => id⟩

theorem bodied_removesPair : Bodied c c.removesPair := by
  intro user database s hs
  simp only [Cluster.removesPair,List.mem_cons,List.not_mem_nil,or_false] at hs
  rcases hs with rfl | rfl
  · exact ⟨rfl,nofun,trivial⟩
  · exact ⟨rfl,nofun,trivial⟩

theorem bodied_single {body : User → GoString → Statement} (h : ∀ user database, (body user database).About c user database) :
    Bodied c fun user database => [body user database] :=
  fun user database _ hs => List.mem_singleton.mp hs ▸ h user database

namespace Statement.About
variable {user : User} {database : GoString}

theorem addPrimary : (addPrimaryNode user database c.primary).About c user database :=
  ⟨rfl,fun _ h => (Option.some.inj h).symm,rfl⟩

theorem addReplicas {replicas : List ((_ : GoString) × Node)} (h : ∀ e ∈ replicas, e ∈ c.replicas.entries) :
    (addReplicaRecipes user database replicas).About c user database :=
  ⟨rfl,fun _ h => (Option.some.inj h).symm,h⟩

theorem addReplica {e : (_ : GoString) × Node} (h : e ∈ c.replicas.entries) :
    (addReplicaRecipes user database [e]).About c user database :=
  addReplicas fun _ he => List.mem_singleton.mp he ▸ h

theorem removeReplicas {replicas : Map GoString Node} :
    (removeReplicaNodes user.username database replicas).About c user database := ⟨rfl,nofun,trivial⟩

theorem removeReplica {id : GoString} : (removeReplicaNode user.username database id).About c user database :=
  ⟨rfl,nofun,trivial⟩

end Statement.About

theorem Bodied.mem (hb : Bodied c body) (hs : s ∈ eachPair users databases body) :
    ∃ user ∈ users, ∃ database ∈ databases, s.About c user database := by
  obtain ⟨⟨user,database⟩,hx,hs⟩ := List.mem_flatMap.mp hs
  obtain ⟨hu,hd⟩ := List.pair_mem_product.mp hx
  exact ⟨user,hu,database,hd,hb user database s hs⟩

theorem mem_endpointStatements (hs : s ∈ endpointStatements prev next) :
    ∃ user ∈ prev.users, ∃ database ∈ prev.databases, s.About next user database := by
  rcases List.mem_append.mp hs with hs | hs
  · split at hs
    · exact (bodied_single fun _ _ => .addPrimary).mem hs
    · cases hs
  rw [replicaStatements] at hs
  split at hs
  · exact (bodied_single fun _ _ => .removeReplicas).mem hs
  split at hs
  · exact (bodied_single fun _ _ => .addReplicas fun _ => id).mem hs
  rcases List.mem_append.mp hs with hs | hs
  · obtain ⟨e,he,hs⟩ := List.mem_flatMap.mp hs
    split at hs
    · exact (bodied_single fun _ _ => .addReplica he).mem hs
    · cases hs
  · obtain ⟨e,-,hs⟩ := List.mem_flatMap.mp hs
    split at hs
    · cases hs
    · exact (bodied_single fun _ _ => .removeReplica).mem hs

theorem mem_userStatements {user : User} (hs : s ∈ userStatements prev next user) :
    ∃ database ∈ prev.databases, s.About next user database := by
  have alone {body : User → GoString → List Statement} (hb : Bodied next body)
      (hs : s ∈ eachPair [user] prev.databases body) : ∃ database ∈ prev.databases, s.About next user database := by
    obtain ⟨u,hu,about⟩ := hb.mem hs
    exact List.mem_singleton.mp hu ▸ about
  rw [userStatements] at hs
  split at hs
  · exact alone bodied_addsPair hs
  split at hs
  · exact (List.mem_append.mp hs).elim (alone bodied_removesPair) (alone bodied_addsPair)
  · cases hs

/-- Users are added or renewed if they are of the next cluster, and removed if it has none of their name. -/
theorem mem_usersStatements (hs : s ∈ usersStatements prev next) :
    ∃ user, (user ∈ next.users ∨ user ∈ prev.users ∧ user.username ∉ next.names) ∧
      ∃ database ∈ prev.databases, s.About next user database := by
  rcases List.mem_append.mp hs with hs | hs
  · obtain ⟨user,hu,hs⟩ := List.mem_flatMap.mp hs
    exact ⟨user,.inl hu,mem_userStatements hs⟩
  · obtain ⟨user,hu,hs⟩ := List.mem_flatMap.mp hs
    split at hs
    · cases hs
    · rename_i gone
      obtain ⟨u,hu',about⟩ := bodied_removesPair.mem hs
      cases List.mem_singleton.mp hu'
      refine ⟨user,.inr ⟨hu,fun hn => gone ?_⟩,about⟩
      obtain ⟨u,hu,hn⟩ := List.mem_map.mp hn
      exact List.any_eq_true.mpr ⟨u,hu,decide_eq_true hn⟩

theorem mem_databasesStatements (hs : s ∈ databasesStatements prev next) :
    ∃ user ∈ next.users, ∃ database, (database ∈ next.databases ∧ database ∉ prev.databases ∨
      database ∈ prev.databases ∧ database ∉ next.databases) ∧ s.About next user database := by
  rcases List.mem_append.mp hs with hs | hs
  · obtain ⟨d,hd,hs⟩ := List.mem_flatMap.mp hs
    split at hs
    · cases hs
    · rename_i new
      obtain ⟨user,hu,d',hd',about⟩ := bodied_addsPair.mem hs
      cases List.mem_singleton.mp hd'
      exact ⟨user,hu,d,.inl ⟨hd,new⟩,about⟩
  · obtain ⟨d,hd,hs⟩ := List.mem_flatMap.mp hs
    split at hs
    · cases hs
    · rename_i gone
      obtain ⟨user,hu,d',hd',about⟩ := bodied_removesPair.mem hs
      cases List.mem_singleton.mp hd'
      exact ⟨user,hu,d,.inr ⟨hd,gone⟩,about⟩

/-- A statement of an update is about a user and a database of the clusters, with nodes of the next. -/
theorem mem_updatedStatements (hs : s ∈ updatedStatements prev next) :
    ∃ user database, s.About next user database ∧ (user ∈ prev.users ∧ database ∈ prev.databases ∨
      user ∈ next.users ∧ database ∈ prev.databases ∨ user ∈ next.users ∧ database ∈ next.databases) := by
  simp only [updatedStatements,List.mem_append] at hs
  rcases hs with hs | hs | hs
  · obtain ⟨user,hu,database,hd,about⟩ := mem_endpointStatements hs
    exact ⟨user,database,about,.inl ⟨hu,hd⟩⟩
  · obtain ⟨user,hu | hu,database,hd,about⟩ := mem_usersStatements hs
    · exact ⟨user,database,about,.inr (.inl ⟨hu,hd⟩)⟩
    · exact ⟨user,database,about,.inl ⟨hu.1,hd⟩⟩
  · obtain ⟨user,hu,database,hd | hd,about⟩ := mem_databasesStatements hs
    · exact ⟨user,database,about,.inr (.inr ⟨hu,hd.1⟩)⟩
    · exact ⟨user,database,about,.inr (.inl ⟨hu,hd.1⟩)⟩

theorem touched_of_mem (hs : s ∈ updatedStatements prev next) : Touched prev next s.key := by
  obtain ⟨user,database,about,h⟩ := mem_updatedStatements hs
  rw [about.key]
  exact h.imp (fun h => ⟨Cluster.mem_names h.1,h.2⟩)
    (Or.imp (fun h => ⟨Cluster.mem_names h.1,h.2⟩) fun h => ⟨Cluster.mem_names h.1,h.2⟩)

theorem mem_addedStatements (hs : s ∈ c.addedStatements) :
    ∃ user ∈ c.users, ∃ database ∈ c.databases, s.About c user database := bodied_addsPair.mem hs

theorem mem_removedStatements (hs : s ∈ c.removedStatements) :
    ∃ user ∈ c.users, ∃ database ∈ c.databases, s.About c user database := by
  obtain ⟨d,hd,hs⟩ := List.mem_flatMap.mp hs
  obtain ⟨user,hu,database,hd',about⟩ := bodied_removesPair.mem hs
  cases List.mem_singleton.mp hd'
  exact ⟨user,hu,d,hd,about⟩

end
end Pggat.Discovery
