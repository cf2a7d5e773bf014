import Pggat.Discovery.Statements

/-! What statements do to the pools of one pair, for any notion of a pool in good order that they respect. -/
namespace Pggat.Discovery
open Pggat.Base Pggat.Auth

def put (f : GoString → Option Node) (replicas : List ((_ : GoString) × Node)) : GoString → Option Node :=
  replicas.foldl (fun f e => Function.update f e.1 (some e.2)) f

/-- A notion of the pools of a pair being in good order: with this password, this primary and these replicas. -/
structure Standard (settings : Settings) (q : Key) where
  Blank : Slot → Prop
  Good : GoString → Node → (GoString → Option Node) → Slot → Prop
  addPrimary : ∀ {user password primary replicas slot}, user.username = q.1 → Good password primary replicas slot →
    ∀ primary', Good password primary' replicas (slot.addPrimary settings user q.2 primary')
  addReplicas : ∀ {user password primary replicas slot}, user.username = q.1 → Good password primary replicas slot →
    ∀ replicas', Good password primary (put replicas replicas') (slot.addReplicas settings user q.2 replicas')
  removeReplica : ∀ {password primary replicas slot}, Good password primary replicas slot →
    ∀ id, Good password primary (Function.update replicas id none) (slot.removeReplica settings id)
  removeReplicas : ∀ {password primary replicas slot}, Good password primary replicas slot →
    ∀ replicas' : Map GoString Node, (∀ id, replicas'.get id = none → replicas id = none) →
      Good password primary (fun _ => none) (slot.removeReplicas settings replicas')
  add : ∀ {user slot}, user.username = q.1 → Blank slot → ∀ (primary : Node) (replicas : Map GoString Node),
    Good user.password primary replicas.get
      ((slot.addPrimary settings user q.2 primary).addReplicas settings user q.2 replicas.entries)
  remove : ∀ {slot}, Blank slot ∨ (∃ password primary replicas, Good password primary replicas slot) →
    ∀ replicas : Map GoString Node, Blank (slot.removeReplicas settings replicas).removePrimary

def Standard.Fit {settings : Settings} {q : Key} (std : Standard settings q) (slot : Slot) : Prop :=
  std.Blank slot ∨ ∃ password primary replicas, std.Good password primary replicas slot

theorem put_cons (f : GoString → Option Node) (e : (_ : GoString) × Node) (l : List ((_ : GoString) × Node)) :
    put f (e :: l) = put (Function.update f e.1 (some e.2)) l := rfl

theorem put_apply (f : GoString → Option Node) {l : List ((_ : GoString) × Node)} (hl : l.NodupKeys) (id : GoString) :
    put f l id = (l.dlookup id).or (f id) := by
  induction l generalizing f with
  | nil => rfl
  | cons e l ih =>
    obtain ⟨absent,hl⟩ := List.nodupKeys_cons.mp hl
    rw [put_cons,ih _ hl]
    rcases eq_or_ne id e.1 with rfl | ne
    · rw [List.dlookup_eq_none.mpr absent,Function.update_self,List.dlookup_cons_eq]
      rfl
    · rw [Function.update_of_ne ne,List.dlookup_cons_ne _ e ne]

theorem put_none (replicas : Map GoString Node) : put (fun _ => none) replicas.entries = replicas.get := by
  funext id
  rw [put_apply _ replicas.nodupKeys,Option.or_none]
  rfl

theorem put_get (replicas : Map GoString Node) : put replicas.get replicas.entries = replicas.get := by
  funext id
  rw [put_apply _ replicas.nodupKeys]
  exact Option.or_self

section Pairs
variable {settings : Settings} {q : Key} (std : Standard settings q) {slot : Slot} {c : Cluster} {user : User}
  {database password : GoString} {primary : Node} {f : GoString → Option Node}

theorem Standard.fit_of_good (h : std.Good password primary f slot) : std.Fit slot := .inr ⟨_,_,_,h⟩

theorem Slot.run_addsPair : slot.run settings (user.username,database) (c.addsPair user database) =
    (slot.addPrimary settings user database c.primary).addReplicas settings user database c.replicas.entries := by
  simp only [Cluster.addsPair,run_cons,Statement.key,if_true]
  rfl

private theorem Slot.run_removesPair : slot.run settings (user.username,database) (c.removesPair user database) =
    (slot.removeReplicas settings c.replicas).removePrimary := by
  simp only [Cluster.removesPair,run_cons,Statement.key,if_true]
  rfl

theorem Standard.adds (h : std.Blank slot) (hq : (user.username,database) = q) :
    std.Good user.password c.primary c.replicas.get (slot.run settings q (c.addsPair user database)) := by
  subst hq
  rw [Slot.run_addsPair]
  exact std.add rfl h c.primary c.replicas

theorem Standard.adds_again (h : std.Good password c.primary c.replicas.get slot)
    (hq : (user.username,database) = q) :
    std.Good password c.primary c.replicas.get (slot.run settings q (c.addsPair user database)) := by
  subst hq
  rw [Slot.run_addsPair]
  have both := std.addReplicas rfl (std.addPrimary rfl h c.primary) c.replicas.entries
  rwa [put_get] at both

theorem Standard.removes (h : std.Fit slot) (hq : (user.username,database) = q) :
    std.Blank (slot.run settings q (c.removesPair user database)) := by
  subst hq
  rw [Slot.run_removesPair]
  exact std.remove h c.replicas

end Pairs

section Loops
variable {settings : Settings} {q : Key} {P R : Slot → Prop} {slot : Slot} {c : Cluster} {users : List User}
  {databases : List GoString} {body : User → GoString → List Statement}

theorem Bodied.miss (hb : Bodied c body) {user : User} {database : GoString} (ne : (user.username,database) ≠ q) :
    slot.run settings q (body user database) = slot :=
  Slot.run_miss fun s hs => (hb user database s hs).key ▸ ne

theorem Bodied.keeps (hb : Bodied c body)
    (hits : ∀ user database, (user.username,database) = q → ∀ slot, P slot → P (slot.run settings q (body user database)))
    (h : P slot) : P (slot.run settings q (eachPair users databases body)) := by
  rw [eachPair,Slot.run_flatMap]
  refine foldl_keeps (fun x _ slot h => ?_) h
  by_cases hq : (x.1.username,x.2) = q
  · exact hits x.1 x.2 hq slot h
  · rwa [hb.miss hq]

theorem Bodied.reaches (hb : Bodied c body)
    (hits : ∀ user ∈ users, ∀ database, (user.username,database) = q → ∀ slot, P slot →
      R (slot.run settings q (body user database)))
    (again : ∀ user database, (user.username,database) = q → ∀ slot, R slot → R (slot.run settings q (body user database)))
    (name : q.1 ∈ users.map (·.username)) (hd : q.2 ∈ databases) (h : P slot) :
    R (slot.run settings q (eachPair users databases body)) := by
  obtain ⟨user,hu,hn⟩ := List.mem_map.mp name
  rw [eachPair,Slot.run_flatMap]
  refine foldl_reaches (fun x => (x.1.username,x.2) = q) (fun x hx hq => ?_) (fun x _ ne slot h => ?_)
    (fun x _ slot h => ?_) ⟨(user,q.2),List.pair_mem_product.mpr ⟨hu,hd⟩,Prod.ext hn rfl⟩ h
  · exact hits x.1 (List.pair_mem_product.mp hx).1 x.2 hq
  · rwa [hb.miss ne]
  · by_cases hq : (x.1.username,x.2) = q
    · exact again x.1 x.2 hq slot h
    · rwa [hb.miss hq]

theorem Bodied.misses (hb : Bodied c body) (absent : ¬ (q.1 ∈ users.map (·.username) ∧ q.2 ∈ databases)) :
    slot.run settings q (eachPair users databases body) = slot := by
  refine Slot.run_miss fun s hs hq => absent ?_
  obtain ⟨user,hu,database,hd,about⟩ := hb.mem hs
  obtain ⟨hn,hd'⟩ := Prod.ext_iff.mp (about.key.symm.trans hq)
  exact ⟨hn ▸ List.mem_map.mpr ⟨user,hu,rfl⟩,hd' ▸ hd⟩

theorem single_reaches {body : User → GoString → Statement}
    (about : ∀ user database, (body user database).About c user database)
    (hits : ∀ user, user.username = q.1 → ∀ slot, P slot → R ((body user q.2).act settings slot))
    (again : ∀ user, user.username = q.1 → ∀ slot, R slot → R ((body user q.2).act settings slot))
    (name : q.1 ∈ users.map (·.username)) (hd : q.2 ∈ databases) (h : P slot) :
    R (slot.run settings q (eachPair users databases fun user database => [body user database])) := by
  have one {user : User} {database : GoString} (hq : (user.username,database) = q) (slot : Slot) :
      slot.run settings q [body user database] = (body user q.2).act settings slot := by
    subst hq
    rw [Slot.run_cons,if_pos (about user database).key]
    rfl
  refine (bodied_single about).reaches (fun user _ database hq slot h => ?_) (fun user database hq slot h => ?_) name hd h
  · exact one hq slot ▸ hits user (congrArg Prod.fst hq) slot h
  · exact one hq slot ▸ again user (congrArg Prod.fst hq) slot h

end Loops
end Pggat.Discovery
