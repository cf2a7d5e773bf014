import Pggat.Discovery.Updates

/-! `updated`, phase by phase: what becomes of the pools of one pair. -/
namespace Pggat.Discovery
open Pggat.Base Pggat.Auth

variable {settings : Settings} {q : Key} {prev next : Cluster} {slot : Slot}

theorem get_of_entries_nil {nodes : Map GoString Node} (h : nodes.entries = []) : nodes.get = fun _ => none := by
  funext id
  simp [Map.get,AList.lookup,h]

namespace Standard
variable (std : Standard settings q)

theorem replicas_eq {f g : GoString → Option Node}
    (h : std.Good password primary f slot) (he : ∀ id, f id = g id) : std.Good password primary g slot :=
  funext he ▸ h

section Endpoints
variable {password : GoString} {primary : Node} {replicas : GoString → Option Node} (has : prev.Has q)
include has

theorem replacePrimary (h : std.Good password primary replicas slot) :
    std.Good password next.primary replicas (slot.run settings q
      (eachPair prev.users prev.databases fun user database => [.addPrimaryNode user database next.primary])) := by
  refine single_reaches (c := next) (fun _ _ => .addPrimary) ?_ ?_ has.1 has.2 h
  · exact fun _ hn _ h => std.addPrimary hn h next.primary
  · exact fun _ hn _ h => std.addPrimary hn h next.primary

private theorem addReplica {e : (_ : GoString) × Node} (he : e ∈ next.replicas.entries)
    (h : std.Good password primary replicas slot) :
    std.Good password primary (Function.update replicas e.1 (some e.2)) (slot.run settings q
      (eachPair prev.users prev.databases fun user database => [.addReplicaRecipes user database [e]])) := by
  refine single_reaches (fun _ _ => .addReplica he) (fun _ hn _ h => std.addReplicas hn h [e]) ?_ has.1 has.2 h
  intro user hn slot h
  have again := std.addReplicas hn h [e]
  rwa [put,List.foldl_cons,List.foldl_nil,Function.update_idem] at again

theorem removeOneReplica (id : GoString) (h : std.Good password primary replicas slot) :
    std.Good password primary (Function.update replicas id none) (slot.run settings q
      (eachPair prev.users prev.databases fun user database => [.removeReplicaNode user.username database id])) := by
  refine single_reaches (c := prev) (fun _ _ => .removeReplica) (fun _ _ _ h => std.removeReplica h id) ?_ has.1 has.2 h
  intro user _ slot h
  have again := std.removeReplica h id
  rwa [Function.update_idem] at again

theorem addAllReplicas (h : std.Good password primary (fun _ => none) slot) :
    std.Good password primary next.replicas.get (slot.run settings q
      (eachPair prev.users prev.databases fun user database =>
        [.addReplicaRecipes user database next.replicas.entries])) := by
  refine single_reaches (fun _ _ => .addReplicas fun _ => id) ?_ ?_ has.1 has.2 h
  · intro user hn slot h
    have added := std.addReplicas hn h next.replicas.entries
    rwa [put_none] at added
  · intro user hn slot h
    have again := std.addReplicas hn h next.replicas.entries
    rwa [put_get] at again

theorem removeAllReplicas (h : std.Good password primary prev.replicas.get slot) :
    std.Good password primary (fun _ => none) (slot.run settings q
      (eachPair prev.users prev.databases fun user database =>
        [.removeReplicaNodes user.username database prev.replicas])) := by
  refine single_reaches (c := prev) (fun _ _ => .removeReplicas) ?_ ?_ has.1 has.2 h
  · exact fun _ _ _ h => std.removeReplicas h prev.replicas fun _ => id
  · exact fun _ _ _ h => std.removeReplicas h prev.replicas fun _ _ => rfl

private theorem changeReplicas (l : List ((_ : GoString) × Node)) (hl : l.NodupKeys)
    (sub : ∀ e ∈ l, e ∈ next.replicas.entries)
    (same : ∀ e ∈ l, replicas e.1 = prev.replicas.get e.1) (h : std.Good password primary replicas slot) :
    std.Good password primary (put replicas l) (slot.run settings q (l.flatMap fun e =>
      if prev.replicas.get e.1 ≠ some e.2 then
        eachPair prev.users prev.databases fun user database => [.addReplicaRecipes user database [e]]
      else [])) := by
  induction l generalizing slot replicas with
  | nil => exact h
  | cons e l ih =>
    obtain ⟨absent,hl⟩ := List.nodupKeys_cons.mp hl
    rw [List.forall_mem_cons] at sub same
    rw [List.flatMap_cons,Slot.run_append,put_cons]
    refine ih hl sub.2 (fun e' he' => ?_) ?_
    · have ne : e'.1 ≠ e.1 := fun he => absent (he ▸ List.mem_keys_of_mem he')
      rw [Function.update_of_ne ne]
      exact same.2 e' he'
    · split
      · exact std.addReplica has sub.1 h
      · rename_i unchanged
        have known : replicas e.1 = some e.2 := same.1.trans (not_not.mp unchanged)
        rwa [Function.update_eq_self_iff.mpr known.symm]

private theorem dropReplicas (next : Cluster) (l : List ((_ : GoString) × Node))
    (h : std.Good password primary replicas slot) :
    std.Good password primary (fun id => if id ∈ l.keys ∧ next.replicas.get id = none then none else replicas id)
      (slot.run settings q (l.flatMap fun e =>
        if (next.replicas.get e.1).isSome then []
        else eachPair prev.users prev.databases fun user database =>
          [.removeReplicaNode user.username database e.1])) := by
  induction l generalizing slot replicas with
  | nil => exact std.replicas_eq h fun id => by simp
  | cons e l ih =>
    rw [List.flatMap_cons,Slot.run_append]
    split
    · rename_i remains
      refine std.replicas_eq (ih h) fun id => ?_
      rcases eq_or_ne id e.1 with rfl | ne
      · simp [Option.isSome_iff_ne_none.mp remains]
      · simp [ne]
    · rename_i dropped
      refine std.replicas_eq (ih (std.removeOneReplica has e.1 h)) fun id => ?_
      rcases eq_or_ne id e.1 with rfl | ne
      · simp [Option.not_isSome_iff_eq_none.mp dropped]
      · simp [ne]

private theorem updateReplicas (h : std.Good password primary prev.replicas.get slot) :
    std.Good password primary next.replicas.get (slot.run settings q (replicaStatements prev next)) := by
  rw [replicaStatements]
  split
  · rename_i none
    rw [get_of_entries_nil none.2]
    exact std.removeAllReplicas has h
  split
  · rename_i first
    rw [get_of_entries_nil first.1] at h
    exact std.addAllReplicas has h
  · rw [Slot.run_append]
    have changed := std.changeReplicas has next.replicas.entries next.replicas.nodupKeys (fun _ => id)
      (fun _ _ => rfl) h
    refine std.replicas_eq (std.dropReplicas has next prev.replicas.entries changed) fun id => ?_
    rw [put_apply _ next.replicas.nodupKeys]
    change (if _ then none else (next.replicas.get id).or (prev.replicas.get id)) = next.replicas.get id
    cases hn : next.replicas.get id with
    | some node => simp
    | none =>
      by_cases hp : id ∈ prev.replicas.entries.keys
      · simp [hp]
      · have absent : prev.replicas.get id = Option.none := (Map.get_eq_none _ id).mpr hp
        simp [absent]

theorem endpoints (h : std.Good password prev.primary prev.replicas.get slot) :
    std.Good password next.primary next.replicas.get (slot.run settings q (endpointStatements prev next)) := by
  rw [endpointStatements,Slot.run_append]
  refine std.updateReplicas has ?_
  split
  · exact std.replacePrimary has h
  · rename_i same
    exact not_not.mp same ▸ h

end Endpoints

/-- The standard tells apart only passwords that the cluster gives to different users. -/
def Tells (c : Cluster) : Prop :=
  c.names.Nodup ∨ ∀ password password' primary replicas slot,
    std.Good password primary replicas slot → std.Good password' primary replicas slot

variable {std} {c : Cluster} {user user' : User} {password : GoString} {primary : Node}
  {replicas : GoString → Option Node}

theorem Tells.good (tells : std.Tells c) (hu : user ∈ c.users) (hu' : user' ∈ c.users)
    (same : user.username = user'.username) (h : std.Good user.password primary replicas slot) :
    std.Good user'.password primary replicas slot := by
  rcases tells with unique | blind
  · rwa [List.inj_on_of_nodup_map unique hu hu' same] at h
  · exact blind _ _ _ _ _ h

variable {users : List User} {databases : List GoString}

theorem addPairs (tells : std.Tells c) (sub : ∀ u ∈ users, u ∈ c.users)
    (hu : user ∈ users) (hn : user.username = q.1) (hd : q.2 ∈ databases) (h : std.Blank slot) :
    std.Good user.password c.primary c.replicas.get (slot.run settings q (eachPair users databases c.addsPair)) := by
  refine bodied_addsPair.reaches (fun u hu' d hq slot h => ?_) (fun _ _ hq _ h => std.adds_again h hq)
    (List.mem_map.mpr ⟨user,hu,hn⟩) hd h
  exact tells.good (sub u hu') (sub user hu) ((congrArg Prod.fst hq).trans hn.symm) (std.adds h hq)

theorem addPairs_again
    (h : std.Good password c.primary c.replicas.get slot) :
    std.Good password c.primary c.replicas.get (slot.run settings q (eachPair users databases c.addsPair)) :=
  bodied_addsPair.keeps (fun _ _ hq _ h => std.adds_again h hq) h

theorem removePairs (hn : q.1 ∈ users.map (·.username))
    (hd : q.2 ∈ databases) (h : std.Fit slot) :
    std.Blank (slot.run settings q (eachPair users databases c.removesPair)) :=
  bodied_removesPair.reaches (fun _ _ _ hq _ h => std.removes h hq) (fun _ _ hq _ h => std.removes (.inl h) hq) hn hd h

theorem removePairs_again (h : std.Blank slot) :
    std.Blank (slot.run settings q (eachPair users databases c.removesPair)) :=
  bodied_removesPair.keeps (fun _ _ hq _ h => std.removes (.inl h) hq) h

section Users

theorem userStatements_miss (miss : user.username ≠ q.1) :
    slot.run settings q (userStatements prev next user) = slot := by
  refine Slot.run_miss fun s hs hq => miss ?_
  obtain ⟨d,-,about⟩ := mem_userStatements hs
  exact congrArg Prod.fst (about.key.symm.trans hq)

/-- What is known of a pair of `prev.databases` before the users of `updated`. -/
def Before (std : Standard settings q) (prev next : Cluster) (slot : Slot) : Prop :=
  match prev.users.find? (·.username = q.1) with
  | some prevUser => std.Good prevUser.password next.primary next.replicas.get slot
  | none => std.Blank slot

theorem Before.fit (h : std.Before prev next slot) : std.Fit slot := by
  unfold Before at h
  split at h
  · exact .inr ⟨_,_,_,h⟩
  · exact .inl h

variable (tells : std.Tells next) (hu : user ∈ next.users) (hn : user.username = q.1) (hd : q.2 ∈ prev.databases)
include tells hu hn hd

theorem renewUser (h : std.Fit slot) :
    std.Good user.password next.primary next.replicas.get (slot.run settings q
      (eachPair [user] prev.databases next.removesPair ++ eachPair [user] prev.databases next.addsPair)) := by
  rw [Slot.run_append]
  exact addPairs tells (by simpa using hu) List.mem_cons_self hn hd (removePairs (by simp [hn]) hd h)

private theorem updateUser (h : std.Before prev next slot) :
    std.Good user.password next.primary next.replicas.get (slot.run settings q (userStatements prev next user)) := by
  rw [userStatements,hn]
  unfold Before at h
  split at h
  · rename_i prevUser known
    rw [known]
    dsimp only
    split
    · exact renewUser tells hu hn hd (std.fit_of_good h)
    · rename_i same
      exact not_not.mp same ▸ h
  · rename_i unknown
    rw [unknown]
    exact addPairs tells (by simpa using hu) List.mem_cons_self hn hd h

private theorem updateUser_again (hu' : user' ∈ next.users)
    (h : std.Good user.password next.primary next.replicas.get slot) :
    std.Good user.password next.primary next.replicas.get (slot.run settings q (userStatements prev next user')) := by
  by_cases hn' : user'.username = q.1
  · rw [userStatements]
    split
    · exact addPairs_again h
    · split
      · exact tells.good hu' hu (hn'.trans hn.symm) (renewUser tells hu' hn' hd (std.fit_of_good h))
      · exact h
  · rwa [userStatements_miss hn']

theorem updateUsers (h : std.Before prev next slot) :
    std.Good user.password next.primary next.replicas.get (slot.run settings q (usersStatements prev next)) := by
  rw [usersStatements,Slot.run_append,Slot.run_flatMap prev.users,Slot.run_flatMap]
  refine foldl_keeps (fun u _ slot h => ?_) (foldl_reaches (fun u : User => u.username = q.1)
    (fun u hu' hn' slot h => ?_) (fun u _ ne slot h => ?_) (fun u hu' slot h => ?_) ⟨user,hu,hn⟩ h)
  · split
    · exact h
    · rename_i gone
      refine (bodied_removesPair.misses fun hq => gone ?_).symm ▸ h
      exact List.any_eq_true.mpr ⟨user,hu,decide_eq_true (hn.trans (List.mem_singleton.mp hq.1))⟩
  · exact tells.good hu' hu (hn'.trans hn.symm) (updateUser tells hu' hn' hd h)
  · rwa [userStatements_miss ne]
  · exact updateUser_again tells hu hn hd hu' h

end Users

theorem updateUsers_gone (hp : q.1 ∈ prev.names) (hn : q.1 ∉ next.names) (hd : q.2 ∈ prev.databases)
    (h : std.Fit slot) : std.Blank (slot.run settings q (usersStatements prev next)) := by
  obtain ⟨user,hu,name⟩ := List.mem_map.mp hp
  rw [usersStatements,Slot.run_append,Slot.run_flatMap prev.users,Slot.run_flatMap]
  refine foldl_reaches (P := std.Fit) (fun u : User => u.username = q.1) (fun u _ hun slot h => ?_)
    (fun u _ ne slot h => ?_) (fun u _ slot h => ?_) ⟨user,hu,name⟩ (foldl_keeps (fun u hu' slot h => ?_) h)
  · split
    · rename_i stays
      obtain ⟨u',hu',same⟩ := List.any_eq_true.mp stays
      exact absurd (List.mem_map.mpr ⟨u',hu',(of_decide_eq_true same).trans hun⟩) hn
    · exact removePairs (by simp [hun]) hd h
  · split
    · exact h
    · rwa [bodied_removesPair.misses fun hq => ne (List.mem_singleton.mp hq.1).symm]
  · split
    · exact h
    · exact removePairs_again h
  · rwa [userStatements_miss fun hun => hn (hun ▸ Cluster.mem_names hu')]

theorem usersStatements_miss (miss : q.2 ∉ prev.databases ∨ q.1 ∉ next.names ∧ q.1 ∉ prev.names) :
    slot.run settings q (usersStatements prev next) = slot := by
  refine Slot.run_miss fun s hs hq => ?_
  obtain ⟨u,hu,d,hd,about⟩ := mem_usersStatements hs
  obtain ⟨hun,hdn⟩ := Prod.ext_iff.mp (about.key.symm.trans hq)
  rcases miss with absent | absent
  · exact absent (hdn ▸ hd)
  · rcases hu with hu | hu
    · exact absent.1 (hun ▸ Cluster.mem_names hu)
    · exact absent.2 (hun ▸ Cluster.mem_names hu.1)

section Databases

theorem updateDatabases (tells : std.Tells next) (hu : user ∈ next.users) (hn : user.username = q.1)
    (hd : q.2 ∈ next.databases) (new : q.2 ∉ prev.databases) (h : std.Blank slot) :
    std.Good user.password next.primary next.replicas.get
      (slot.run settings q (databasesStatements prev next)) := by
  rw [databasesStatements,Slot.run_append,Slot.run_flatMap prev.databases,Slot.run_flatMap]
  refine foldl_keeps (fun d hd' slot h => ?_) (foldl_reaches (· = q.2) (fun d _ hit slot h => ?_)
    (fun d _ ne slot h => ?_) (fun d _ slot h => ?_) ⟨q.2,hd,rfl⟩ h)
  · split
    · exact h
    · rwa [bodied_removesPair.misses fun hq => new (List.mem_singleton.mp hq.2 ▸ hd')]
  · rw [hit,if_neg new]
    exact addPairs tells (fun _ => id) hu hn List.mem_cons_self h
  · split
    · exact h
    · rwa [bodied_addsPair.misses fun hq => ne (List.mem_singleton.mp hq.2).symm]
  · split
    · exact h
    · exact addPairs_again h

theorem updateDatabases_gone (hn : q.1 ∈ next.names) (hp : q.2 ∈ prev.databases) (gone : q.2 ∉ next.databases)
    (h : std.Fit slot) : std.Blank (slot.run settings q (databasesStatements prev next)) := by
  rw [databasesStatements,Slot.run_append,Slot.run_flatMap prev.databases,Slot.run_flatMap]
  refine foldl_reaches (P := std.Fit) (· = q.2) (fun d _ hit slot h => ?_) (fun d _ ne slot h => ?_)
    (fun d _ slot h => ?_) ⟨q.2,hp,rfl⟩ (foldl_keeps (fun d hd slot h => ?_) h)
  · rw [hit,if_neg gone]
    exact removePairs hn List.mem_cons_self h
  · split
    · exact h
    · rwa [bodied_removesPair.misses fun hq => ne (List.mem_singleton.mp hq.2).symm]
  · split
    · exact h
    · exact removePairs_again h
  · split
    · exact h
    · rwa [bodied_addsPair.misses fun hq => gone (List.mem_singleton.mp hq.2 ▸ hd)]

theorem databasesStatements_miss
    (miss : q.1 ∈ next.names → (q.2 ∈ next.databases → q.2 ∈ prev.databases) ∧ (q.2 ∈ prev.databases → q.2 ∈ next.databases)) :
    slot.run settings q (databasesStatements prev next) = slot := by
  refine Slot.run_miss fun s hs hq => ?_
  obtain ⟨u,hu,d,hd,about⟩ := mem_databasesStatements hs
  obtain ⟨hun,rfl⟩ := Prod.ext_iff.mp (about.key.symm.trans hq)
  have stays := miss (hun ▸ Cluster.mem_names hu)
  rcases hd with ⟨hd,new⟩ | ⟨hd,gone⟩
  · exact new (stays.1 hd)
  · exact gone (stays.2 hd)

end Databases

theorem endpointStatements_miss (hasNot : ¬ prev.Has q) : slot.run settings q (endpointStatements prev next) = slot := by
  refine Slot.run_miss fun s hs hq => hasNot ?_
  obtain ⟨u,hu,d,hd,about⟩ := mem_endpointStatements hs
  obtain ⟨hun,rfl⟩ := Prod.ext_iff.mp (about.key.symm.trans hq)
  exact ⟨hun ▸ Cluster.mem_names hu,hd⟩

section Known
variable (old : prev.Has q → ∀ u ∈ prev.users, u.username = q.1 →
    std.Good u.password prev.primary prev.replicas.get slot) (new : ¬ prev.Has q → std.Blank slot)
include old new

/-- The endpoints of `updated`, for a pair of the previous cluster or a blank one. -/
theorem before_users (hp : q.2 ∈ prev.databases) :
    std.Before prev next (slot.run settings q (endpointStatements prev next)) := by
  unfold Before
  split
  · rename_i prevUser known
    have hprev := List.mem_of_find?_eq_some known
    have hname : prevUser.username = q.1 := by simpa using List.find?_some known
    have has : prev.Has q := ⟨hname ▸ Cluster.mem_names hprev,hp⟩
    exact std.endpoints has (old has prevUser hprev hname)
  · rename_i unknown
    have hasNot : ¬ prev.Has q := by
      rintro ⟨hq,-⟩
      obtain ⟨u,hu,he⟩ := List.mem_map.mp hq
      simpa [he] using List.find?_eq_none.mp unknown u hu
    rw [endpointStatements_miss hasNot]
    exact new hasNot

/-- A pair of the next cluster ends in good order, whether it was one of the previous cluster or blank. -/
theorem updated (tells : std.Tells next) (hu : user ∈ next.users) (hn : user.username = q.1) (hd : q.2 ∈ next.databases) :
    std.Good user.password next.primary next.replicas.get (slot.run settings q (updatedStatements prev next)) := by
  rw [updatedStatements,Slot.run_append,Slot.run_append]
  by_cases hp : q.2 ∈ prev.databases
  · rw [databasesStatements_miss fun _ => ⟨fun _ => hp,fun _ => hd⟩]
    exact updateUsers tells hu hn hp (before_users old new hp)
  · have hasNot : ¬ prev.Has q := fun has => hp has.2
    rw [endpointStatements_miss hasNot,usersStatements_miss (.inl hp)]
    exact updateDatabases tells hu hn hd hp (new hasNot)

/-- A pair that is not of the next cluster ends blank if it was of the previous cluster or blank. -/
theorem updated_blank (tells : std.Tells next) (hasNot : ¬ next.Has q) :
    std.Blank (slot.run settings q (updatedStatements prev next)) := by
  rw [updatedStatements,Slot.run_append,Slot.run_append]
  by_cases hd : q.2 ∈ prev.databases
  · have before : std.Before prev next _ := before_users old new hd
    by_cases hn : q.1 ∈ next.names
    · obtain ⟨u,hu,name⟩ := List.mem_map.mp hn
      exact updateDatabases_gone hn hd (fun hd' => hasNot ⟨hn,hd'⟩)
        (std.fit_of_good (updateUsers tells hu name hd before))
    · rw [databasesStatements_miss fun hn' => absurd hn' hn]
      by_cases hp : q.1 ∈ prev.names
      · exact updateUsers_gone hp hn hd before.fit
      · have hasNot' : ¬ prev.Has q := fun has => hp has.1
        rw [usersStatements_miss (.inr ⟨hn,hp⟩),endpointStatements_miss hasNot']
        exact new hasNot'
  · have hasNot' : ¬ prev.Has q := fun has => hd has.2
    rw [endpointStatements_miss hasNot',usersStatements_miss (.inl hd),databasesStatements_miss fun hn =>
      ⟨fun hd' => absurd ⟨hn,hd'⟩ hasNot,fun hp => absurd hp hd⟩]
    exact new hasNot'

end Known

theorem added (tells : std.Tells c) (hu : user ∈ c.users) (hn : user.username = q.1) (hd : q.2 ∈ c.databases)
    (h : std.Blank slot) :
    std.Good user.password c.primary c.replicas.get (slot.run settings q c.addedStatements) :=
  addPairs tells (fun _ => id) hu hn hd h

theorem removed (has : c.Has q) (h : std.Fit slot) : std.Blank (slot.run settings q c.removedStatements) := by
  rw [Cluster.removedStatements,Slot.run_flatMap]
  refine foldl_reaches (P := std.Fit) (· = q.2) (fun d _ hit slot h => ?_) (fun d _ ne slot h => ?_)
    (fun d _ slot h => removePairs_again h) ⟨q.2,has.2,rfl⟩ h
  · exact removePairs has.1 (List.mem_singleton.mpr hit.symm) h
  · rwa [bodied_removesPair.misses fun hq => ne (List.mem_singleton.mp hq.2).symm]

end Standard
end Pggat.Discovery
