import Pggat.Discovery.Convergence

/-! Where replicas have pools of their own, the replica pool of a pair follows the replicas of its cluster, as long as
no pair is added to a cluster that has none. -/
namespace Pggat.Discovery
open Pggat.Base Pggat.Auth

/-- The replica pool of a pair, from the password of its user and the replicas of its cluster. -/
def following (settings : Settings) (q : Key) (password : GoString) (replicas : GoString → Option Node) : Pool where
  recipes id := (replicas id).map (settings.recipe · q.1 (fromString q.1 password) q.2)

def Slot.replicaPool (slot : Slot) : Pool := (slot.replica.map (·.pool)).getD {}

/-- The main pool is the user's, and there are recipes for these replicas and no others. -/
structure Slot.Follows (settings : Settings) (q : Key) (password : GoString) (replicas : GoString → Option Node)
    (slot : Slot) : Prop where
  main : ∃ p, slot.main = some p ∧ p.creds = fromString q.1 password
  pool : slot.replicaPool = following settings q password replicas

section Following
variable {settings : Settings} {q : Key} {password : GoString} {replicas : GoString → Option Node}

private theorem following_addRecipe (id : GoString) (replica : Node) :
    (following settings q password replicas).addRecipe id
      (settings.recipe replica q.1 (fromString q.1 password) q.2) =
        following settings q password (Function.update replicas id (some replica)) :=
  Pool.ext (map_update id (some replica) _) rfl

private theorem following_removeRecipe (id : GoString) :
    (following settings q password replicas).removeRecipe id =
      following settings q password (Function.update replicas id none) :=
  Pool.ext (map_update id none (settings.recipe · q.1 (fromString q.1 password) q.2)) rfl

private theorem following_addRecipes (l : List ((_ : GoString) × Node)) :
    l.foldl (fun pool e => pool.addRecipe e.1 (settings.recipe e.2 q.1 (fromString q.1 password) q.2))
      (following settings q password replicas) = following settings q password (put replicas l) := by
  induction l generalizing replicas with
  | nil => rfl
  | cons e l ih => rw [List.foldl_cons,following_addRecipe,ih,put_cons]

variable {slot : Slot}

private theorem Slot.Follows.addReplicas (hs : settings.replicaPools = false)
    (h : slot.Follows settings q password replicas)
    {user : User} (hn : user.username = q.1) (l : List ((_ : GoString) × Node)) :
    (slot.addReplicas settings user q.2 l).Follows settings q password (put replicas l) := by
  obtain ⟨p,hp,creds⟩ := h.main
  have opened : (slot.replica.getD (fresh (toReplicaUser user))).pool = following settings q password replicas := by
    rw [← h.pool]
    cases hr : slot.replica <;> simp [Slot.replicaPool,hr,fresh]
  simp only [Slot.addReplicas,hp,Option.getD_some,hs,Bool.false_eq_true,if_false,hn,creds]
  exact ⟨⟨p,rfl,creds⟩,opened ▸ following_addRecipes l⟩

private theorem Slot.Follows.removeReplica (hs : settings.replicaPools = false)
    (h : slot.Follows settings q password replicas) (id : GoString) :
    (slot.removeReplica settings id).Follows settings q password (Function.update replicas id none) := by
  obtain ⟨p,hp,creds⟩ := h.main
  rw [Slot.removeReplica_separate hs id hp]
  refine ⟨⟨p,hp,creds⟩, ?_⟩
  rw [← following_removeRecipe,← h.pool]
  cases hr : slot.replica with
  | some rp => simp [Slot.replicaPool,hr]
  | none => simp [Slot.replicaPool,hr,Pool.removeRecipe]

end Following

def follows (settings : Settings) (hs : settings.replicaPools = false) (q : Key) : Standard settings q where
  Blank slot := slot = ⟨none,none⟩
  Good password _ := Slot.Follows settings q password
  addPrimary := by
    rintro user password _ replicas slot - ⟨⟨p,hp,creds⟩,pool⟩ primary'
    exact ⟨⟨_,rfl,by simpa [hp] using creds⟩,pool⟩
  addReplicas := by
    intro user password _ replicas slot hn h replicas'
    exact h.addReplicas hs hn replicas'
  removeReplica := by
    intro password _ replicas slot h id
    exact h.removeReplica hs id
  removeReplicas := by
    rintro password _ replicas slot ⟨⟨p,hp,creds⟩,-⟩ replicas' -
    rw [Slot.removeReplicas_separate hs replicas' hp]
    exact ⟨⟨p,hp,creds⟩,rfl⟩
  add := by
    rintro user slot hn rfl primary replicas
    have opened : (Slot.addPrimary settings user q.2 primary ⟨none,none⟩).Follows settings q user.password
        fun _ => none := ⟨⟨_,rfl,by simp [fresh,hn]⟩,rfl⟩
    exact put_none replicas ▸ opened.addReplicas hs hn replicas.entries
  remove := by
    rintro slot (rfl | ⟨_,_,_,⟨p,hp,-⟩,-⟩) replicas
    · rfl
    · rw [Slot.removeReplicas_separate hs replicas hp]
      rfl

section Bare
variable {settings : Settings} {q : Key} {prev next : Cluster} {slot : Slot}

/-- A pair has a main pool and, if there are no replicas, no replica pool. -/
def Slot.Bare (replicas : Map GoString Node) (slot : Slot) : Prop :=
  slot.main ≠ none ∧ (replicas.entries = [] → slot.replica = none)

theorem Slot.Bare.endpoints (hs : settings.replicaPools = false) (has : prev.Has q)
    (none : next.replicas.entries = []) (h : slot.Bare prev.replicas) :
    (slot.run settings q (endpointStatements prev next)).replica = Option.none := by
  have primary : (slot.run settings q (if prev.primary ≠ next.primary then eachPair prev.users prev.databases
      fun user database => [.addPrimaryNode user database next.primary] else [])).Bare prev.replicas := by
    split
    · refine single_reaches (c := next) (fun _ _ => .addPrimary) ?_ ?_ has.1 has.2 h <;>
        exact fun _ _ _ bare => ⟨nofun,bare.2⟩
    · exact h
  rw [endpointStatements,Slot.run_append]
  by_cases hp : prev.replicas.entries = []
  · have same : replicaStatements prev next = [] := by simp [replicaStatements,hp,none]
    rw [same]
    exact primary.2 hp
  · have drops (slot : Slot) (main : slot.main ≠ Option.none) :
        (slot.removeReplicas settings prev.replicas).main ≠ Option.none ∧
          (slot.removeReplicas settings prev.replicas).replica = Option.none := by
      obtain ⟨p,hm⟩ := Option.ne_none_iff_exists'.mp main
      rw [Slot.removeReplicas_separate hs prev.replicas hm]
      exact ⟨main,rfl⟩
    have dropped : replicaStatements prev next = eachPair prev.users prev.databases fun user database =>
        [.removeReplicaNodes user.username database prev.replicas] := if_pos ⟨hp,none⟩
    rw [dropped]
    refine (single_reaches (c := prev) (R := fun slot => slot.main ≠ Option.none ∧ slot.replica = Option.none)
      (fun _ _ => .removeReplicas) ?_ ?_ has.1 has.2 primary).2
    · exact fun _ _ slot bare => drops slot bare.1
    · exact fun _ _ slot bare => drops slot bare.1

variable {user : User}

private theorem usersStatements_same (names : prev.names.Nodup) (names' : next.names.Nodup)
    (hu : user ∈ prev.users) (hu' : user ∈ next.users) (hn : user.username = q.1) :
    slot.run settings q (usersStatements prev next) = slot := by
  have found : prev.users.find? (·.username = user.username) = some user := by
    cases found : prev.users.find? (·.username = user.username) with
    | none => simpa using List.find?_eq_none.mp found user hu
    | some u =>
      have same : u.username = user.username := by simpa using List.find?_some found
      rw [List.inj_on_of_nodup_map names (List.mem_of_find?_eq_some found) hu same]
  rw [usersStatements,Slot.run_append,Slot.run_flatMap prev.users,Slot.run_flatMap]
  refine foldl_keeps (P := (· = slot)) (fun u _ _ h => ?_) (foldl_keeps (P := (· = slot)) (fun u hm _ h => ?_) rfl)
  · split
    · exact h
    · rename_i gone
      refine (bodied_removesPair.misses fun hq => gone ?_).trans h
      exact List.any_eq_true.mpr ⟨user,hu',decide_eq_true (hn.trans (List.mem_singleton.mp hq.1))⟩
  · by_cases hun : u.username = q.1
    · obtain rfl := List.inj_on_of_nodup_map names' hm hu' (hun.trans hn.symm)
      have same : userStatements prev next u = [] := by simp [userStatements,found]
      rwa [same]
    · exact (Standard.userStatements_miss hun).trans h

/-- A pair that stays with its password has no replica pool once its cluster has no replicas. -/
theorem Slot.Bare.updated (hs : settings.replicaPools = false) (names : prev.names.Nodup)
    (names' : next.names.Nodup) (hu : user ∈ prev.users) (hu' : user ∈ next.users) (hn : user.username = q.1)
    (hd : q.2 ∈ prev.databases) (hd' : q.2 ∈ next.databases) (none : next.replicas.entries = [])
    (h : slot.Bare prev.replicas) : (slot.run settings q (updatedStatements prev next)).replica = Option.none := by
  rw [updatedStatements,Slot.run_append,Slot.run_append,usersStatements_same names names' hu hu' hn,
    Standard.databasesStatements_miss fun _ => ⟨fun _ => hd,fun _ => hd'⟩]
  exact h.endpoints hs ⟨hn ▸ Cluster.mem_names hu,hd⟩ none

end Bare

def Module.known (m : Module) (id : GoString) : List (User × GoString) :=
  match m.clusters.get id with
  | some c => c.users ×ˢ c.databases
  | none => []

/-- A cluster without replicas has only pairs that it had before, with the same passwords. -/
def Change.Steady (m : Module) : Change → Prop
  | added next => next.replicas.entries = [] → ∀ x ∈ next.users ×ˢ next.databases, x ∈ m.known next.id
  | removed _ => True

instance (m : Module) : ∀ change : Change, Decidable (change.Steady m)
  | .added _ => by unfold Change.Steady; infer_instance
  | .removed _ => .isTrue trivial

def Change.AllSteady (m : Module) : List Change → Prop
  | [] => True
  | change :: rest => change.Steady m ∧ AllSteady (change.apply m) rest

instance decidableAllSteady : ∀ (m : Module) (l : List Change), Decidable (Change.AllSteady m l)
  | _, [] => .isTrue trivial
  | m, change :: rest => @instDecidableAnd _ _ _ (decidableAllSteady (change.apply m) rest)

def Event.Steady (m : Module) (e : Event) : Prop := Change.AllSteady m e.changes

instance (m : Module) (e : Event) : Decidable (e.Steady m) := decidableAllSteady m e.changes

/-- A pool is there for a pair of a known cluster. -/
def Module.Owned (m : Module) (k : Key) : Prop :=
  ∃ id c q, m.clusters.get id = some c ∧ c.Has q ∧ (k = q ∨ k = replicaKey q)

/-- Replica pools follow the replicas, clusters without replicas have none, and every pool is some pair's. -/
structure Followed (settings : Settings) (hs : settings.replicaPools = false) (m : Module) : Prop where
  orderly : Orderly settings (follows settings hs) m
  settled : Settled m
  bare : ∀ id c, m.clusters.get id = some c → ∀ q, c.Has q → (m.slot q).Bare c.replicas
  owned : ∀ k, m.pools k ≠ none → m.Owned k

namespace Followed
variable {settings : Settings} {hs : settings.replicaPools = false} {m : Module} {change : Change}

variable {q : Key}

theorem clear_blank (hset : m.settings = settings) (owned : ∀ k, m.pools k ≠ none → m.Owned k)
    (hs : settings.replicaPools = false) (clear : m.Clear q) : m.slot q = ⟨none,none⟩ := by
  have unowned (k : Key) (hk : k = q ∨ k = replicaKey q) : m.pools k = none := by
    by_contra some
    obtain ⟨id,c,q',hc,has,hk'⟩ := owned k some
    refine clear id c q' hc has ?_
    rw [hset]
    rcases hk with rfl | rfl <;> rcases hk' with e | e
    · exact .inl e.symm
    · exact .inr ⟨hs,.inl e.symm⟩
    · exact .inr ⟨hs,.inr e.symm⟩
    · exact .inl (replicaKey_injective e.symm)
  rw [Module.slot,unowned q (.inl rfl),unowned (replicaKey q) (.inr rfl)]
  simp

theorem tells (names : ∀ c, change = .added c → c.names.Nodup) (c : Cluster) (e : change = .added c) (q : Key) :
    (follows settings hs q).Tells c :=
  .inl (names c e)

theorem owned_apply (h : Followed settings hs m) (apart : change.Apart m)
    (names : ∀ c, change = .added c → c.names.Nodup) {k : Key} (hk : (change.apply m).pools k ≠ none) :
    (change.apply m).Owned k := by
  have cached := h.orderly.cached
  by_cases touched : ∃ q ∈ change.touched m, k = q ∨ k = replicaKey q
  · obtain ⟨q,hq,hkq⟩ := touched
    by_contra unowned
    have blank : (change.apply m).slot q = ⟨none,none⟩ :=
      h.orderly.blank_apply apart (tells names) hq fun c hc has => unowned ⟨_,c,q,hc,has,hkq⟩
    have separate : (change.apply m).settings.replicaPools = false := by
      rw [(change.kept cached).settings]
      exact h.orderly.settings ▸ hs
    obtain ⟨main,replica⟩ := Slot.ext_iff.mp blank
    rcases hkq with rfl | rfl
    · exact hk main
    · exact hk (by simpa [Module.slot,separate] using replica)
  · have same : (change.apply m).pools k = m.pools k := by
      refine Change.pools_stay cached fun q hq => ⟨?_, fun _ => ?_⟩
      · exact fun e => touched ⟨q,hq,.inl e⟩
      · exact fun e => touched ⟨q,hq,.inr e⟩
    obtain ⟨id,c,q,hc,has,hkq⟩ := h.owned k (same ▸ hk)
    have ne : id ≠ change.id := by
      rintro rfl
      exact touched ⟨q,change.mem_touched hc has,hkq⟩
    exact ⟨id,c,q,(change.get_apply cached ne).trans hc,has,hkq⟩

variable {id : GoString} {c : Cluster}

private theorem main_apply (h : Followed settings hs m) (apart : change.Apart m)
    (names : ∀ c, change = .added c → c.names.Nodup)
    (hc : (change.apply m).clusters.get id = some c) (has : c.Has q) :
    ((change.apply m).slot q).main ≠ none := by
  obtain ⟨user,hu,hn⟩ := List.mem_map.mp has.1
  obtain ⟨p,hp,-⟩ := (h.orderly.good_apply apart (tells names) id c hc user hu q.2 has.2).main
  rw [hn] at hp
  exact hp ▸ Option.some_ne_none p

private theorem bare_apply (h : Followed settings hs m) (apart : change.Apart m) (steady : change.Steady m)
    (names : ∀ c, change = .added c → c.names.Nodup)
    (hc : (change.apply m).clusters.get id = some c) (has : c.Has q) (none : c.replicas.entries = []) :
    ((change.apply m).slot q).replica = Option.none := by
  rcases eq_or_ne id change.id with rfl | ne
  · obtain rfl := change.get_apply_self h.orderly.cached hc
    obtain ⟨user,hu,hn⟩ := List.mem_map.mp has.1
    have before := steady none (user,q.2) (List.pair_mem_product.mpr ⟨hu,has.2⟩)
    have touched := next_touched m has
    cases known : m.clusters.get c.id with
    | none => simp [Module.known,known] at before
    | some prev =>
      simp only [Module.known,known] at before
      obtain ⟨hu',hd'⟩ := List.pair_mem_product.mp before
      have bare := h.bare _ prev known q ⟨hn ▸ Cluster.mem_names hu',hd'⟩
      rw [h.orderly.slot_apply apart touched,Change.statements,known]
      exact bare.updated hs (h.settled.names _ prev known) (names c rfl) hu' hu hn hd' has.2 none
  · rw [change.get_apply h.orderly.cached ne] at hc
    rw [apart.frame h.orderly.cached hc ne has]
    exact (h.bare id c hc q has).2 none

private theorem apply (h : Followed settings hs m) (apart : change.Apart m) (steady : change.Steady m)
    (names : ∀ c, change = .added c → c.names.Nodup) : Followed settings hs (change.apply m) := by
  have kept := change.kept h.orderly.cached
  have hset : (change.apply m).settings = settings := kept.settings.trans h.orderly.settings
  have owned := fun k => h.owned_apply (k := k) apart names
  refine ⟨⟨hset, kept.cached, h.orderly.good_apply apart (tells names), fun q => clear_blank hset owned hs⟩, ?_, ?_, owned⟩
  · exact h.settled.apply h.orderly.cached apart names
  · exact fun id c hc q has => ⟨h.main_apply apart names hc has,h.bare_apply apart steady names hc has⟩

private theorem changes {l : List Change} (h : Followed settings hs m) (apart : Change.AllApart m l)
    (steady : Change.AllSteady m l) (names : ∀ change ∈ l, ∀ c, change = .added c → c.names.Nodup) :
    Followed settings hs (l.foldl Change.apply m) := by
  induction l generalizing m with
  | nil => exact h
  | cons change l ih =>
    exact ih (h.apply apart.1 steady.1 (names change List.mem_cons_self)) apart.2 steady.2
      fun change hl => names change (List.mem_cons_of_mem _ hl)

private theorem initial (hs : settings.replicaPools = false) : Followed settings hs { settings := settings } where
  orderly := ⟨rfl,(fun _ _ h => nomatch h),(fun _ _ h => nomatch h),fun q _ => clear_blank rfl (fun _ h => absurd rfl h) hs
    (fun _ _ _ h => nomatch h)⟩
  settled := by constructor <;> intros <;> contradiction
  bare _ _ h := nomatch h
  owned _ h := absurd rfl h

private theorem of_reachable (hs : settings.replicaPools = false)
    (h : Reachable { settings := settings } (fun m e => e.Proper m ∧ e.Steady m) Module.step m) :
    Followed settings hs m := by
  refine h.invariant (initial hs) fun m e m' hm allowed he => ?_
  rw [Module.step_changes he]
  exact hm.changes allowed.1.1 allowed.2 allowed.1.2

end Followed

/-- In every run of proper and steady events, a derived name that is no user's own has a pool exactly when a known
cluster with the pair has a replica, and the recipes of that pool are for the replicas of that cluster. -/
theorem replica_pools_follow {settings : Settings} (hs : settings.replicaPools = false) {m : Module}
    (h : Reachable { settings := settings } (fun m e => e.Proper m ∧ e.Steady m) Module.step m)
    (username database : GoString)
    (derived : ∀ id c, m.clusters.get id = some c → ¬ c.Has (toReplicaUsername username,database)) :
    (m.pools (toReplicaUsername username,database) ≠ none ↔
      ∃ id c, m.clusters.get id = some c ∧ c.Has (username,database) ∧ c.replicas.entries ≠ []) ∧
    ∀ id c user rp, m.clusters.get id = some c → user ∈ c.users → user.username = username → database ∈ c.databases →
      m.pools (toReplicaUsername username,database) = some rp →
      ∀ name, rp.pool.recipes name = (c.replicas.get name).map fun replica =>
        settings.recipe replica username (fromString username user.password) database := by
  have followed := Followed.of_reachable hs h
  have separate : m.settings.replicaPools = false := followed.orderly.settings ▸ hs
  have replica : (m.slot (username,database)).replica = m.pools (toReplicaUsername username,database) := by
    simp [Module.slot,separate,replicaKey]
  refine ⟨⟨fun some => ?_, ?_⟩, ?_⟩
  · obtain ⟨id,c,q,hc,has,own | hq⟩ := followed.owned _ some
    · exact absurd (own ▸ has) (derived id c hc)
    · obtain rfl : (username,database) = q := replicaKey_injective hq
      exact ⟨id,c,hc,has,fun none => some (replica ▸ (followed.bare id c hc _ has).2 none)⟩
  · rintro ⟨id,c,hc,has,some⟩ none
    obtain ⟨user,hu,rfl⟩ := List.mem_map.mp has.1
    have follows := (followed.orderly.good id c hc user hu database has.2).pool
    rw [Slot.replicaPool,replica,none] at follows
    obtain ⟨⟨name,node⟩,hmem⟩ := List.exists_mem_of_ne_nil _ some
    have recipe := congrFun (congrArg Pool.recipes follows) name
    simp [following,(Map.mem_entries _ name node).mp hmem] at recipe
  · rintro id c user rp hc hu rfl hd some name
    have follows := (followed.orderly.good id c hc user hu database hd).pool
    rw [Slot.replicaPool,replica,some] at follows
    exact congrFun (congrArg Pool.recipes follows) name

variable {m : Module}

theorem forall_known {P : Cluster → Prop} (h : ∀ e ∈ m.clusters.entries, P e.2) {id : GoString} {c : Cluster}
    (hc : m.clusters.get id = some c) : P c :=
  h ⟨id,c⟩ ((Map.mem_entries _ id c).mpr hc)

private theorem not_derived (names : ∀ e ∈ m.clusters.entries, e.2.names = [ann]) (id : GoString) (c : Cluster)
    (hc : m.clusters.get id = some c) : ¬ c.Has (toReplicaUsername ann,east) := by
  rintro ⟨hn,-⟩
  have all : c.names = [ann] := forall_known (P := fun c => c.names = [ann]) names hc
  rw [all] at hn
  exact absurd hn (by decide)

def replicated (replicas : Map GoString Node) : Cluster := { single [1] [10] ann east with replicas := replicas }

/-- A replica comes, another comes, the first one goes; then the second one goes too. -/
def turnover : List Event :=
  [.added (replicated (AList.insert [1] ⟨[21],0⟩ ∅)),
    .added (replicated (AList.insert [2] ⟨[22],0⟩ (AList.insert [1] ⟨[21],0⟩ ∅))),
    .added (replicated (AList.insert [2] ⟨[22],0⟩ ∅)), .added (replicated ∅)]

theorem replica_pools_follow_turnover :
    (∃ m, Reachable { settings := { replicaPools := false } } (fun m e => e.Proper m ∧ e.Steady m) Module.step m ∧
      m.pools (toReplicaUsername ann,east) ≠ none) ∧
    ∃ m, Reachable { settings := { replicaPools := false } } (fun m e => e.Proper m ∧ e.Steady m) Module.step m ∧
      m.pools (ann,east) ≠ none ∧ m.pools (toReplicaUsername ann,east) = none := by
  have h : Reachable { settings := { replicaPools := false } } (fun m e => e.Proper m ∧ e.Steady m) Module.step _ :=
    Reachable.of_run .start (fun _ _ => id) (turnover.take 3) rfl
  have h' : Reachable { settings := { replicaPools := false } } (fun m e => e.Proper m ∧ e.Steady m) Module.step _ :=
    Reachable.of_run .start (fun _ _ => id) turnover rfl
  refine ⟨⟨_, h, ?_⟩, _, h', nofun, ?_⟩
  · refine (replica_pools_follow rfl h ann east (not_derived (by decide))).1.mpr ?_
    exact ⟨[1],replicated (AList.insert [2] ⟨[22],0⟩ ∅),rfl,⟨.head _,.head _⟩,nofun⟩
  · by_contra some
    obtain ⟨id,c,hc,-,replicas⟩ := (replica_pools_follow rfl h' ann east (not_derived (by decide))).1.mp some
    exact replicas (forall_known (P := fun c => c.replicas.entries = []) (by decide) hc)

/-- A cluster without replicas is added, and yet there is a replica pool. -/
theorem replica_pool_without_replicas :
    ∃ m, Reachable { settings := { replicaPools := false } } (fun m e => e.Proper m) Module.step m ∧
      (∀ e ∈ m.clusters.entries, e.2.names = [ann] ∧ e.2.replicas.entries = []) ∧
      m.pools (toReplicaUsername ann,east) ≠ none :=
  ⟨_,Reachable.of_run .start (fun _ _ => id) [.added (single [1] [10] ann east)] rfl,by decide,nofun⟩

end Pggat.Discovery
