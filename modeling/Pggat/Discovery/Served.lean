import Pggat.Discovery.Clusters

/-! Whether every known cluster has its pools, with its own primary. -/
namespace Pggat.Discovery
open Pggat.Base Pggat.Auth

private theorem recipes_addReplicaRecipes (l : List ((_ : GoString) × Node)) (d : Node → Recipe) (p : Pool) :
    (l.foldl (fun pool e => pool.addReplicaRecipe e.1 (d e.2)) p).recipes = p.recipes := by
  induction l generalizing p with
  | nil => rfl
  | cons e l ih => exact ih (p.addReplicaRecipe e.1 (d e.2))

theorem recipes_removeReplicaRecipes (l : List ((_ : GoString) × Node)) (p : Pool) :
    (l.foldl (fun pool e => pool.removeReplicaRecipe e.1) p).recipes = p.recipes := by
  induction l generalizing p with
  | nil => rfl
  | cons e l ih => exact ih (p.removeReplicaRecipe e.1)

/-- A pair has a pool whose primary recipe is for this primary and, where replicas have pools of their own and there
is a replica, a replica pool. -/
def Slot.Serves (settings : Settings) (q : Key) (primary : Node) (replicas : GoString → Option Node) (slot : Slot) :
    Prop :=
  (∃ p, slot.main = some p ∧ p.pool.recipes primaryName = some (settings.recipe primary q.1 p.creds q.2)) ∧
    (settings.replicaPools = false → (∃ id, replicas id ≠ none) → slot.replica ≠ none)

variable {settings : Settings} {q : Key}

private theorem Slot.Serves.addReplicas {primary : Node} {replicas : GoString → Option Node}
    {slot : Slot} (h : slot.Serves settings q primary replicas) (user : User)
    (replicas' : List ((_ : GoString) × Node)) :
    (slot.addReplicas settings user q.2 replicas').Serves settings q primary (put replicas replicas') := by
  obtain ⟨⟨p,hp,hrecipe⟩,-⟩ := h
  have hp' : slot.main.getD (fresh user) = p := by rw [hp]; rfl
  cases hs : settings.replicaPools with
  | true =>
    rw [addReplicas_together hs user q.2 replicas' hp']
    refine ⟨⟨_,rfl,?_⟩,fun h => by simp [hs] at h⟩
    exact (congrFun (recipes_addReplicaRecipes replicas' (settings.recipe · user.username p.creds q.2) p.pool) _).trans
      hrecipe
  | false =>
    obtain ⟨rp,e⟩ := addReplicas_separate hs user q.2 replicas' hp'
    exact e ▸ ⟨⟨p,rfl,hrecipe⟩,fun _ _ => Option.some_ne_none rp⟩

/-- Pools that serve, whatever the pools were before they were added. -/
def serving (settings : Settings) (q : Key) : Standard settings q where
  Blank _ := True
  Good _ := Slot.Serves settings q
  addPrimary := by
    rintro user _ _ replicas slot hn ⟨⟨p,hp,-⟩,hr⟩ primary'
    exact ⟨⟨_,rfl,by simp [hp,Pool.addRecipe,hn]⟩,hr⟩
  addReplicas := by
    rintro user _ primary replicas slot - h replicas'
    exact h.addReplicas user replicas'
  removeReplica := by
    rintro _ primary replicas slot ⟨⟨p,hp,hrecipe⟩,hr⟩ id
    cases hs : settings.replicaPools with
    | true => exact Slot.removeReplica_together hs id hp ▸ ⟨⟨_,rfl,hrecipe⟩,fun h => by simp [hs] at h⟩
    | false =>
      refine Slot.removeReplica_separate hs id hp ▸ ⟨⟨p,hp,hrecipe⟩,fun _ => ?_⟩
      rintro ⟨id',hid⟩
      have present : replicas id' ≠ none := by
        intro none
        rcases eq_or_ne id' id with rfl | ne
        · simp at hid
        · simp [ne,none] at hid
      simpa using hr hs ⟨id',present⟩
  removeReplicas := by
    rintro _ primary replicas slot ⟨⟨p,hp,hrecipe⟩,-⟩ replicas' -
    refine ⟨?_,fun _ ⟨_,h⟩ => absurd rfl h⟩
    cases hs : settings.replicaPools with
    | true =>
      rw [Slot.removeReplicas_together hs replicas' hp]
      exact ⟨_,rfl,(congrFun (recipes_removeReplicaRecipes ..) primaryName).trans hrecipe⟩
    | false => exact Slot.removeReplicas_separate hs replicas' hp ▸ ⟨p,hp,hrecipe⟩
  add := by
    rintro user slot hn - primary replicas
    have opened : Slot.Serves settings q primary (fun _ => none) (slot.addPrimary settings user q.2 primary) :=
      ⟨⟨_,rfl,by simp [Pool.addRecipe,hn]⟩,fun _ ⟨_,h⟩ => absurd rfl h⟩
    exact put_none replicas ▸ opened.addReplicas user replicas.entries
  remove _ _ := trivial

theorem serving_loose (settings : Settings) : Orderly.Loose settings (serving settings) := .inr fun _ _ => trivial

theorem serving_tells (settings : Settings) (q : Key) (c : Cluster) : (serving settings q).Tells c :=
  .inr fun _ _ _ _ _ h => h

variable {m : Module}

private theorem served
    (h : Reachable { settings := settings } (fun m e => e.Apart m) Module.step m) :
    Orderly settings (serving settings) m := by
  refine h.invariant (P := Orderly settings (serving settings)) ?_ ?_
  · exact .initial (serving_loose settings) fun _ _ => trivial
  · exact fun m e m' hm apart he => hm.step (serving_loose settings) apart (fun c _ q => serving_tells settings q c) he

private theorem Change.AllApart.frame {l : List Change} (apart : AllApart m l)
    (h : Orderly settings (serving settings) m) {id : GoString} {c : Cluster} (hc : m.clusters.get id = some c)
    (ne : ∀ change ∈ l, id ≠ change.id) (has : c.Has q) : (l.foldl Change.apply m).slot q = m.slot q := by
  induction l generalizing m with
  | nil => rfl
  | cons change l ih =>
    have first := ne change List.mem_cons_self
    have next := h.apply (serving_loose settings) apart.1 fun c _ q => serving_tells settings q c
    rw [List.foldl_cons,ih apart.2 next ((change.get_apply h.cached first).trans hc)
      fun change hl => ne change (List.mem_cons_of_mem _ hl)]
    exact apart.1.frame h.cached hc first has

/-- In every run whose events are apart, each known cluster has the pools that it needs, with its own primary, and
events about other clusters leave them as they are. -/
theorem clusters_served {settings : Settings} {m : Module}
    (h : Reachable { settings := settings } (fun m e => e.Apart m) Module.step m) {id : GoString} {c : Cluster}
    (hc : m.clusters.get id = some c) (user : User) (hu : user ∈ c.users) (database : GoString)
    (hd : database ∈ c.databases) :
    (∃ p recipe, m.pools (user.username,database) = some p ∧ p.pool.recipes primaryName = some recipe ∧
      recipe.address = c.primary.address) ∧
    (settings.replicaPools = false → c.replicas.entries ≠ [] →
      m.pools (toReplicaUsername user.username,database) ≠ none) ∧
    ∀ e m', e.Apart m → m.step e = some m' → (∀ change ∈ e.changes, id ≠ change.id) →
      m'.slot (user.username,database) = m.slot (user.username,database) := by
  have ordered := served h
  obtain ⟨⟨p,hp,hrecipe⟩,hreplica⟩ := ordered.good id c hc user hu database hd
  refine ⟨⟨p,_,hp,hrecipe,rfl⟩, fun separate some => ?_, fun e m' apart he ne => ?_⟩
  · obtain ⟨⟨id',node⟩,hmem⟩ := List.exists_mem_of_ne_nil _ some
    have present : c.replicas.get id' ≠ none := by simp [(Map.mem_entries _ id' node).mp hmem]
    have replica := hreplica separate ⟨id',present⟩
    rwa [Module.slot,ordered.settings,separate] at replica
  · rw [Module.step_changes he]
    exact apart.frame ordered hc ne ⟨Cluster.mem_names hu,hd⟩

def joe : GoString := ascii ['j', 'o', 'e']

def sales : GoString := ascii ['s', 'a', 'l', 'e', 's']

/-- A cluster and, once it is removed, another with its user and database. -/
def succession : List Event :=
  [.added (single [1] [10] joe sales), .added (single [2] [20] (ascii ['a', 'n', 'n']) sales), .removed [1],
    .added (single [3] [30] joe sales)]

theorem clusters_served_succession :
    ∃ m, Reachable { settings := { replicaPools := false } } (fun m e => e.Apart m) Module.step m ∧
      ∃ p recipe, m.pools (joe,sales) = some p ∧ p.pool.recipes primaryName = some recipe ∧
        recipe.address = [30] := by
  have h : Reachable { settings := { replicaPools := false } } (fun m e => e.Apart m) Module.step _ :=
    Reachable.of_run .start (fun _ _ => id) succession rfl
  have served := @clusters_served _ _ h [3] (single [3] [30] joe sales) rfl ⟨joe,ascii ['p']⟩ (.head _) sales (.head _)
  exact ⟨_,h,served.1⟩

/-- A cluster whose successor is reported in its place, with the same user and database. -/
def replacement : List Event := [.added (single [1] [10] joe sales), .reconcile [single [2] [20] joe sales] [[1], [2]]]

/-- A cluster with a user that is named as another's replica user. -/
def namesake : List Event :=
  [.added (single [1] [10] (toReplicaUsername joe) sales), .added (single [2] [20] joe sales), .removed [2]]

/-- The successor of a cluster ends without its pool, and so does a cluster with a user of an unlucky name when
another cluster is removed. -/
theorem cluster_without_pool :
    (∃ m c, Reachable { settings := { replicaPools := true } } (fun _ _ => True) Module.step m ∧
      m.clusters.get [2] = some c ∧ c.names = [joe] ∧ c.databases = [sales] ∧
      m.pools (joe,sales) = none) ∧
    ∃ m c, Reachable { settings := { replicaPools := false } } (fun _ _ => True) Module.step m ∧
      m.clusters.get [1] = some c ∧ c.names = [toReplicaUsername joe] ∧ c.databases = [sales] ∧
      m.pools (toReplicaUsername joe,sales) = none :=
  ⟨⟨_,_,Reachable.of_run .start (fun _ _ => id) replacement rfl,rfl,rfl,rfl,rfl⟩,
    ⟨_,_,Reachable.of_run .start (fun _ _ => id) namesake rfl,rfl,rfl,rfl,rfl⟩⟩

end Pggat.Discovery
