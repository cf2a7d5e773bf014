import Pggat.Discovery.Clusters

/-! Where replicas are in the pools themselves, the pools are those that the known clusters call for, whatever the
events that led there. -/
namespace Pggat.Discovery
open Pggat.Base Pggat.Auth

def wanted (settings : Settings) (q : Key) (password : GoString) (primary : Node)
    (replicas : GoString → Option Node) : PoolAndCredentials where
  creds := fromString q.1 password
  pool := {
    recipes := Function.update (fun _ => none) primaryName
      (some (settings.recipe primary q.1 (fromString q.1 password) q.2))
    replicaRecipes := fun id => (replicas id).map (settings.recipe · q.1 (fromString q.1 password) q.2) }

section Wanted
variable {settings : Settings} {q : Key} {password : GoString} {primary : Node} {replicas : GoString → Option Node}

theorem wanted_addRecipe (primary' : Node) :
    (wanted settings q password primary replicas).pool.addRecipe primaryName
      (settings.recipe primary' q.1 (fromString q.1 password) q.2) =
        (wanted settings q password primary' replicas).pool := by
  simp [wanted,Pool.addRecipe]

theorem map_update {α β : Type} {f : GoString → Option α} (id : GoString) (a : Option α) (g : α → β) :
    Function.update (fun id => (f id).map g) id (a.map g) = fun id' => (Function.update f id a id').map g := by
  funext id'
  rcases eq_or_ne id' id with rfl | ne
  · simp
  · simp [ne]

private theorem wanted_addReplicaRecipe (id : GoString) (replica : Node) :
    (wanted settings q password primary replicas).pool.addReplicaRecipe id
      (settings.recipe replica q.1 (fromString q.1 password) q.2) =
        (wanted settings q password primary (Function.update replicas id (some replica))).pool :=
  congrArg (Pool.mk _) (map_update id (some replica) _)

private theorem wanted_removeReplicaRecipe (id : GoString) :
    (wanted settings q password primary replicas).pool.removeReplicaRecipe id =
      (wanted settings q password primary (Function.update replicas id none)).pool :=
  congrArg (Pool.mk _) (map_update id none (settings.recipe · q.1 (fromString q.1 password) q.2))

private theorem wanted_addReplicas (l : List ((_ : GoString) × Node)) :
    l.foldl (fun pool e => pool.addReplicaRecipe e.1 (settings.recipe e.2 q.1 (fromString q.1 password) q.2))
      (wanted settings q password primary replicas).pool =
        (wanted settings q password primary (put replicas l)).pool := by
  induction l generalizing replicas with
  | nil => rfl
  | cons e l ih => rw [List.foldl_cons,wanted_addReplicaRecipe,ih,put_cons]

theorem wanted_removeReplicas (l : List ((_ : GoString) × Node)) (covers : ∀ id ∉ l.keys, replicas id = none) :
    l.foldl (fun pool e => pool.removeReplicaRecipe e.1) (wanted settings q password primary replicas).pool =
      (wanted settings q password primary fun _ => none).pool := by
  induction l generalizing replicas with
  | nil =>
    have none : replicas = fun _ => none := funext fun id => covers id (List.not_mem_nil)
    rw [none]
    rfl
  | cons e l ih =>
    rw [List.foldl_cons,wanted_removeReplicaRecipe]
    refine ih fun id absent => ?_
    rcases eq_or_ne id e.1 with rfl | ne
    · simp
    · rw [Function.update_of_ne ne]
      exact covers id (by simp [ne,absent])

private theorem slot_addReplicas {user : User} {slot : Slot} (hs : settings.replicaPools = true)
    (hn : user.username = q.1)
    (h : slot.main = some (wanted settings q password primary replicas)) (l : List ((_ : GoString) × Node)) :
    (slot.addReplicas settings user q.2 l).main = some (wanted settings q password primary (put replicas l)) := by
  rw [Slot.addReplicas_together hs user q.2 l (by rw [h, Option.getD_some]),hn]
  exact congrArg some (PoolAndCredentials.ext (wanted_addReplicas l) rfl)

end Wanted

def exactly (settings : Settings) (hs : settings.replicaPools = true) (q : Key) : Standard settings q where
  Blank slot := slot.main = none
  Good password primary replicas slot := slot.main = some (wanted settings q password primary replicas)
  addPrimary := by
    intro user password primary replicas slot hn h primary'
    simp only [Slot.addPrimary,h,Option.getD_some,hn]
    exact congrArg some (PoolAndCredentials.ext (wanted_addRecipe primary') rfl)
  addReplicas := by
    intro user password primary replicas slot hn h replicas'
    exact slot_addReplicas hs hn h replicas'
  removeReplica := by
    intro password primary replicas slot h id
    rw [Slot.removeReplica_together hs id h]
    exact congrArg some (PoolAndCredentials.ext (wanted_removeReplicaRecipe id) rfl)
  removeReplicas := by
    intro password primary replicas slot h replicas' covers
    rw [Slot.removeReplicas_together hs replicas' h]
    refine congrArg some (PoolAndCredentials.ext (wanted_removeReplicas _ fun id absent => covers id ?_) rfl)
    exact (Map.get_eq_none replicas' id).mpr absent
  add := by
    intro user slot hn h primary replicas
    have opened : (slot.addPrimary settings user q.2 primary).main =
        some (wanted settings q user.password primary fun _ => none) := by
      simp only [Slot.addPrimary,h,Option.getD_none,fresh,hn]
      rfl
    exact put_none replicas ▸ slot_addReplicas hs hn opened replicas.entries
  remove _ _ := rfl

/-- The event is apart from other clusters, and no two users of a cluster that it adds have one name. -/
def Event.Proper (m : Module) (e : Event) : Prop :=
  e.Apart m ∧ ∀ change ∈ e.changes, ∀ c, change = .added c → c.names.Nodup

instance (m : Module) (e : Event) : Decidable (e.Proper m) := by
  have named (change : Change) : Decidable (∀ c, change = .added c → c.names.Nodup) :=
    match change with
    | .added c => decidable_of_iff c.names.Nodup ⟨fun h _ e => by cases e; exact h,fun h => h c rfl⟩
    | .removed _ => .isTrue fun _ e => nomatch e
  unfold Event.Proper
  infer_instance

/-- Known clusters go by their ids, name their users apart and share no pair. -/
structure Settled (m : Module) : Prop where
  id : ∀ id c, m.clusters.get id = some c → c.id = id
  names : ∀ id c, m.clusters.get id = some c → c.names.Nodup
  disjoint : ∀ id id' c c' q, m.clusters.get id = some c → m.clusters.get id' = some c' → c.Has q → c'.Has q → id = id'

theorem Settled.apply {m : Module} (h : Settled m) (cached : m.Cached) {change : Change} (apart : change.Apart m)
    (names : ∀ c, change = .added c → c.names.Nodup) : Settled (change.apply m) := by
  have far {id : GoString} {c c' : Cluster} {q : Key} (added : change = .added c) (hc : m.clusters.get id = some c')
      (ne : id ≠ change.id) (has : c.Has q) : ¬ c'.Has q := by
    subst added
    exact fun has' => apart.others hc ne (next_touched m has) has' (clash_refl m.settings q)
  refine ⟨fun id c hc => ?_, fun id c hc => ?_, fun id id' c c' q hc hc' has has' => ?_⟩
  · rcases Change.known_apply cached hc with ⟨rfl,rfl⟩ | ⟨-,hc⟩
    · rfl
    · exact h.id id c hc
  · rcases Change.known_apply cached hc with ⟨-,added⟩ | ⟨-,hc⟩
    · exact names c added
    · exact h.names id c hc
  · rcases Change.known_apply cached hc with ⟨rfl,added⟩ | ⟨ne,hc⟩ <;>
      rcases Change.known_apply cached hc' with ⟨rfl,added'⟩ | ⟨ne',hc'⟩
    · rfl
    · exact absurd has' (far added hc' ne' has)
    · exact absurd has (far added' hc ne has')
    · exact h.disjoint id id' c c' q hc hc' has has'

section Runs
variable {settings : Settings} {hs : settings.replicaPools = true} {m : Module}

theorem exactly_loose (settings : Settings) (hs : settings.replicaPools = true) :
    Orderly.Loose settings (exactly settings hs) := .inl hs

private theorem ordered_settled_changes {l : List Change} (apart : Change.AllApart m l)
    (names : ∀ change ∈ l, ∀ c, change = .added c → c.names.Nodup)
    (h : Orderly settings (exactly settings hs) m ∧ Settled m) :
    Orderly settings (exactly settings hs) (l.foldl Change.apply m) ∧ Settled (l.foldl Change.apply m) := by
  induction l generalizing m with
  | nil => exact h
  | cons change l ih =>
    have here := names change List.mem_cons_self
    refine ih apart.2 (fun change hl => names change (List.mem_cons_of_mem _ hl)) ⟨?_, ?_⟩
    · exact h.1.apply (exactly_loose settings hs) apart.1 fun c e q => .inl (here c e)
    · exact h.2.apply h.1.cached apart.1 here

theorem ordered_settled (hs : settings.replicaPools = true)
    (h : Reachable { settings := settings } (fun m e => e.Proper m) Module.step m) :
    Orderly settings (exactly settings hs) m ∧ Settled m := by
  refine h.invariant (P := fun m => Orderly settings (exactly settings hs) m ∧ Settled m) ?_ ?_
  · refine ⟨.initial (exactly_loose settings hs) fun _ _ => rfl, ?_⟩
    constructor <;> intros <;> contradiction
  · intro m e m' hm proper he
    rw [Module.step_changes he]
    exact ordered_settled_changes proper.1 proper.2 hm

/-- Clusters that are new and share no pair with those known can be added one by one. -/
theorem added_each (hs : settings.replicaPools = true) {l : List Cluster} (names : ∀ c ∈ l, c.names.Nodup)
    (apart : l.Pairwise fun c c' => c.id ≠ c'.id ∧ ∀ q, c.Has q → ¬ c'.Has q)
    (new : ∀ c ∈ l, m.clusters.get c.id = none)
    (far : ∀ c ∈ l, ∀ id c', m.clusters.get id = some c' → ∀ q, c.Has q → ¬ c'.Has q)
    (h : Orderly settings (exactly settings hs) m) :
    Orderly settings (exactly settings hs) (l.foldl Module.added m) ∧
      ∀ id c, (l.foldl Module.added m).clusters.get id = some c ↔ m.clusters.get id = some c ∨ c ∈ l ∧ c.id = id := by
  induction l generalizing m with
  | nil => exact ⟨h,fun id c => by simp⟩
  | cons c l ih =>
    obtain ⟨first,apart⟩ := List.pairwise_cons.mp apart
    have unknown := new c List.mem_cons_self
    have here : (Change.added c).Apart m := by
      refine ⟨fun q _ q' _ ne => ?_, fun e he _ q hq q' hq' => ?_⟩
      · exact h.settings ▸ Orderly.free_of_replicaPools hs ne
      · have hc := (Map.mem_entries _ e.1 e.2).mp he
        have has := (mem_touched_added unknown).mp hq
        refine h.settings ▸ Orderly.free_of_replicaPools hs ?_
        rintro rfl
        exact far c List.mem_cons_self e.1 e.2 hc q has (mem_pairs.mp hq')
    have get (id : GoString) : (m.added c).clusters.get id = if id = c.id then some c else m.clusters.get id := by
      exact (congrArg (Map.get · id) ((Change.added c).kept h.cached).clusters).trans (Map.get_insert ..)
    have next : Orderly settings (exactly settings hs) (m.added c) :=
      h.apply (exactly_loose settings hs) here fun c' e q => by cases e; exact .inl (names c List.mem_cons_self)
    have rest := ih (fun c' hc' => names c' (List.mem_cons_of_mem c hc')) apart ?_ ?_ next
    · refine ⟨rest.1, fun id c' => ?_⟩
      rw [List.foldl_cons,rest.2 id c',get,List.mem_cons]
      rcases eq_or_ne id c.id with rfl | ne
      · rw [if_pos rfl,unknown]
        constructor
        · rintro (e | ⟨hc',e⟩)
          · exact .inr ⟨.inl (Option.some.inj e).symm,congrArg Cluster.id (Option.some.inj e).symm⟩
          · exact .inr ⟨.inr hc',e⟩
        · rintro (e | ⟨rfl | hc',e⟩)
          · cases e
          · exact .inl rfl
          · exact .inr ⟨hc',e⟩
      · rw [if_neg ne]
        refine or_congr_right (and_congr_left fun e => ?_)
        exact (or_iff_right fun same : c' = c => ne (e.symm.trans (congrArg Cluster.id same))).symm
    · intro c' hc'
      rw [get,if_neg (first c' hc').1.symm]
      exact new c' (List.mem_cons_of_mem c hc')
    · intro c' hc' id c'' hget q has has'
      rw [get] at hget
      split at hget
      · cases hget
        exact (first c' hc').2 q has' has
      · exact far c' (List.mem_cons_of_mem c hc') id c'' hget q has has'

/-- The pools depend on the known clusters only: after any run of proper events they are those of a module that was
told of these clusters once, in any order. -/
theorem pools_of_clusters {settings : Settings} (hs : settings.replicaPools = true) {m : Module}
    (h : Reachable { settings := settings } (fun m e => e.Proper m) Module.step m) (order : List Cluster)
    (once : order.Nodup) (all : ∀ c, c ∈ order ↔ ∃ id, m.clusters.get id = some c) :
    m.pools = (order.foldl Module.added { settings := settings }).pools := by
  obtain ⟨ordered,settled⟩ := ordered_settled hs h
  have known {c : Cluster} (hc : c ∈ order) : m.clusters.get c.id = some c := by
    obtain ⟨id,hid⟩ := (all c).mp hc
    rwa [settled.id id c hid]
  have apart : order.Pairwise fun c c' => c.id ≠ c'.id ∧ ∀ q, c.Has q → ¬ c'.Has q := by
    refine once.imp_of_mem fun {c c'} hc hc' ne => ?_
    have ids : c.id ≠ c'.id := fun e => ne (Option.some.inj ((known hc).symm.trans (e ▸ known hc')))
    exact ⟨ids,fun q has has' => ids (settled.disjoint _ _ c c' q (known hc) (known hc') has has')⟩
  obtain ⟨ordered',get⟩ := added_each (m := { settings := settings }) hs
    (fun c hc => settled.names _ c (known hc)) apart (fun _ _ => rfl) (fun _ _ _ _ e => nomatch e)
    (.initial (exactly_loose settings hs) fun _ _ => rfl)
  have same (id : GoString) (c : Cluster) :
      (order.foldl Module.added { settings := settings }).clusters.get id = some c ↔ m.clusters.get id = some c := by
    rw [get]
    constructor
    · rintro (e | ⟨hc,rfl⟩)
      · cases e
      · exact known hc
    · intro hc
      exact .inr ⟨(all c).mpr ⟨id,hc⟩,settled.id id c hc⟩
  funext ⟨name,database⟩
  by_cases had : ∃ id c, m.clusters.get id = some c ∧ c.Has (name,database)
  · obtain ⟨id,c,hc,hn,hd⟩ := had
    obtain ⟨user,hu,rfl⟩ := List.mem_map.mp hn
    exact (ordered.good id c hc user hu database hd).trans
      (ordered'.good id c ((same id c).mpr hc) user hu database hd).symm
  · have none : ∀ id c, m.clusters.get id = some c → ¬ c.Has (name,database) :=
      fun id c hc has => had ⟨id,c,hc,has⟩
    exact (ordered.blank_of_none hs none).trans (ordered'.blank_of_none hs fun id c hc => none id c ((same id c).mp hc)).symm

end Runs

def ann : GoString := ascii ['a', 'n', 'n']

def bob : GoString := ascii ['b', 'o', 'b']

def east : GoString := ascii ['e', 'a', 's', 't']

def west : GoString := ascii ['w', 'e', 's', 't']

/-- Cluster 1 changes its primary and then its user, and cluster 2 comes and goes. -/
def history : List Event :=
  [.added (single [1] [10] ann east), .added (single [2] [20] ann west), .added (single [1] [11] ann east),
    .removed [2], .added (single [1] [11] bob east)]

theorem pools_of_clusters_history :
    ∃ m, Reachable { settings := { replicaPools := true } } (fun m e => e.Proper m) Module.step m ∧
      m.pools = ([single [1] [11] bob east].foldl Module.added { settings := { replicaPools := true } }).pools := by
  have h : Reachable { settings := { replicaPools := true } } (fun m e => e.Proper m) Module.step _ :=
    Reachable.of_run .start (fun _ _ => id) history rfl
  refine ⟨_,h,pools_of_clusters rfl h _ (List.nodup_singleton _) fun c => ?_⟩
  change c ∈ [single [1] [11] bob east] ↔
    ∃ id, Map.get (AList.insert [1] (single [1] [11] bob east) ∅) id = some c
  simp only [List.mem_singleton,Map.get_insert,Map.get_empty]
  constructor
  · rintro rfl
    exact ⟨[1],rfl⟩
  · rintro ⟨id,hid⟩
    split at hid
    · exact (Option.some.inj hid).symm
    · cases hid

/-- Cluster 1 moves from one user and database to others; cluster 2 has the new user and the old database. -/
def crossing : List Event :=
  [.added (single [1] [10] ann east), .added (single [2] [20] bob east), .added (single [1] [10] bob west)]

/-- The clusters never share a pair, and yet the pool of cluster 2 is gone. -/
theorem pool_lost_in_crossing :
    (∀ c ∈ [single [1] [10] ann east, single [1] [10] bob west], ∀ q ∈ pairs c.names c.databases,
      q ∉ pairs (single [2] [20] bob east).names (single [2] [20] bob east).databases) ∧
    ∃ m, Reachable { settings := { replicaPools := true } } (fun _ _ => True) Module.step m ∧
      m.clusters.keys.Perm [[1], [2]] ∧ m.pools (bob,east) = none ∧
      ∃ p, ([single [1] [10] bob west, single [2] [20] bob east].foldl Module.added
        { settings := { replicaPools := true } }).pools (bob,east) = some p :=
  ⟨by decide,_,Reachable.of_run .start (fun _ _ => id) crossing rfl,by decide,rfl,_,rfl⟩

end Pggat.Discovery
