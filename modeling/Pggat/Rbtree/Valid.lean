import Mathlib.Data.Nat.Basic
import Pggat.Rbtree.Deletion
import Pggat.Rbtree.Insertion

/-! Every sequence of calls leaves a left-leaning red-black tree whose nodes are not in the pool. -/
namespace Pggat.Rbtree
open Pggat.Base
variable {K V : Type}

namespace Tree
variable {n : Tree K V} {c : Color} {h : Nat}

def NoRightRed : Tree K V → Prop
  | .nil => True
  | .node _ _ _ _ l r => r.color = .black ∧ l.NoRightRed ∧ r.NoRightRed

def NoRedRed : Tree K V → Prop
  | .nil => True
  | .node _ c _ _ l r => (c = .red → l.color = .black) ∧ l.NoRedRed ∧ r.NoRedRed

/-- The number of black nodes on each path from the root to a nil. -/
def blacks : Tree K V → List Nat
  | .nil => [0]
  | .node _ c _ _ l r => (l.blacks ++ r.blacks).map (· + if c = .black then 1 else 0)

theorem Balanced.noRightRed (hn : Balanced n c h) : n.NoRightRed := by
  induction hn with
  | nil => trivial
  | red _ hr ihl ihr => exact ⟨hr.color_eq,ihl,ihr⟩
  | black _ hr ihl ihr => exact ⟨hr.color_eq,ihl,ihr⟩

theorem Balanced.noRedRed (hn : Balanced n c h) : n.NoRedRed := by
  induction hn with
  | nil => trivial
  | red hl _ ihl ihr => exact ⟨fun _ => hl.color_eq,ihl,ihr⟩
  | black _ _ ihl ihr => exact ⟨by simp,ihl,ihr⟩

theorem Balanced.blacks_eq (hn : Balanced n c h) : ∀ b ∈ n.blacks, b = h := by
  induction hn with
  | nil => simp [blacks]
  | red _ _ ihl ihr =>
    intro b hb
    simp only [blacks,reduceCtorEq,if_false,Nat.add_zero,List.map_id',List.mem_append] at hb
    exact hb.elim (ihl b) (ihr b)
  | black _ _ ihl ihr =>
    intro b hb
    simp only [blacks,if_true,List.mem_map,List.mem_append] at hb
    obtain ⟨m,hm,rfl⟩ := hb
    rw [hm.elim (ihl m) (ihr m)]

variable {key : K} {value : V}

theorem get_eq_some_iff [LinearOrder K] (ha : Ascending n.pairs) :
    n.get key = some value ↔ (key,value) ∈ n.pairs := by
  induction n with
  | nil => simp [get]
  | node id c k v l r ihl ihr =>
    rw [pairs_node] at ha ⊢
    obtain ⟨hal,har,hl,hr⟩ := Ascending.middle_iff.mp ha
    rw [get,List.mem_append,List.mem_cons,Prod.mk.injEq]
    rcases lt_trichotomy key k with hk | rfl | hk
    · rw [if_neg hk.not_gt,if_pos hk,ihl hal]
      constructor
      · exact .inl
      · rintro (h | ⟨he,-⟩ | h)
        · exact h
        · exact absurd he hk.ne
        · exact absurd (hr _ h) hk.not_gt
    · rw [if_neg (lt_irrefl _),if_neg (lt_irrefl _),Option.some.injEq]
      constructor
      · intro hv
        exact .inr (.inl ⟨rfl,hv.symm⟩)
      · rintro (h | ⟨-,he⟩ | h)
        · exact absurd (hl _ h) (lt_irrefl _)
        · exact he.symm
        · exact absurd (hr _ h) (lt_irrefl _)
    · rw [if_pos hk,ihr har]
      constructor
      · intro h
        exact .inr (.inr h)
      · rintro (h | ⟨he,-⟩ | h)
        · exact absurd (hl _ h) hk.not_gt
        · exact absurd he hk.ne'
        · exact h

theorem mem_keys_of_get [LinearOrder K] (ha : Ascending n.pairs)
    (hg : n.get key = some value) : key ∈ n.keys :=
  List.mem_map.mpr ⟨_,(get_eq_some_iff ha).mp hg,rfl⟩

theorem not_mem_keys_of_get [LinearOrder K] (ha : Ascending n.pairs) (hg : n.get key = none) :
    key ∉ n.keys := by
  intro hk
  obtain ⟨⟨k,v⟩,hp,rfl⟩ := List.mem_map.mp hk
  rw [(get_eq_some_iff ha).mpr hp] at hg
  cases hg

end Tree

/-- The nodes of the tree and the pool are all different and have been made. -/
structure Nodes.Apart (s : Nodes) (ids : List Nat) : Prop where
  nodup : (ids ++ s.pool).Nodup
  made : ∀ id ∈ ids ++ s.pool, id < s.next

namespace Nodes.Apart
variable {s : Nodes} {ids ids' : List Nat}

theorem free {id : Nat} (ha : s.Apart ids) (hp : ids.Perm (id :: ids')) : (s.free id).Apart ids' := by
  have h : (ids' ++ (s.pool ++ [id])).Perm (ids ++ s.pool) := by
    calc ids' ++ (s.pool ++ [id])
      _ = (ids' ++ s.pool) ++ [id] := (List.append_assoc ..).symm
      _ |>.Perm (id :: (ids' ++ s.pool)) := List.perm_append_singleton ..
      _ |>.Perm (ids ++ s.pool) := (hp.append_right _).symm
  exact ⟨h.nodup_iff.mpr ha.nodup,fun x hx => ha.made x (h.mem_iff.mp hx)⟩

theorem alloc (ha : s.Apart ids) (hp : ids'.Perm (s.alloc.1 :: ids)) : s.alloc.2.Apart ids' := by
  unfold Nodes.alloc at hp ⊢
  cases hpool : s.pool.getLast? with
  | some id =>
    simp only [hpool] at hp ⊢
    obtain ⟨pool,hs⟩ := List.getLast?_eq_some_iff.mp hpool
    have h : (ids' ++ pool).Perm (ids ++ s.pool) := by
      rw [hs,← List.append_assoc]
      exact (hp.append_right pool).trans (List.perm_append_singleton id (ids ++ pool)).symm
    have hdrop : s.pool.dropLast = pool := by rw [hs,List.dropLast_concat]
    rw [hdrop]
    exact ⟨h.nodup_iff.mpr ha.nodup,fun x hx => ha.made x (h.mem_iff.mp hx)⟩
  | none =>
    simp only [hpool] at hp ⊢
    have h : (ids' ++ s.pool).Perm (s.next :: (ids ++ s.pool)) := hp.append_right _
    refine ⟨h.nodup_iff.mpr (List.nodup_cons.mpr ⟨fun hm => ?_,ha.nodup⟩),fun x hx => ?_⟩
    · exact absurd (ha.made _ hm) (Nat.lt_irrefl _)
    · rcases List.mem_cons.mp (h.mem_iff.mp hx) with rfl | hx
      · exact Nat.lt_succ_self _
      · exact Nat.lt_succ_of_lt (ha.made x hx)

end Nodes.Apart

namespace RBTree
variable {T T' : RBTree K V} {key : K} {value : V}

theorem blacken_eq (n : Tree K V) : (blacken n).entries = n.entries := by
  cases n with
  | nil => rfl
  | node _ _ _ _ _ _ => rfl

theorem pairs_blacken (n : Tree K V) : (blacken n).pairs = n.pairs := congrArg (List.map Prod.snd) (blacken_eq n)

variable {n : Tree K V} {c : Color} {h : Nat}

private theorem blacken_balanced (hn : n.Balanced c h) :
    ∃ h', (blacken n).Balanced .black h' := by
  cases hn with
  | nil => exact ⟨0,.nil⟩
  | red hl hr => exact ⟨_,.black hl hr⟩
  | black hl hr => exact ⟨_,.black hl hr⟩

/-- The root of a tree that holds the key is loose once it may have become red. -/
theorem redden_loose (hb : n.Balanced .black h) (hk : key ∈ n.keys) :
    ∃ n' c h', redden n = some n' ∧ n'.Loose c h' ∧ n'.entries = n.entries := by
  cases hb with
  | nil => cases hk
  | @black id k v l r c h hl hr =>
    cases c with
    | black => exact ⟨_,_,_,if_pos ⟨hl.color_eq,hr.color_eq⟩,.red hl hr,rfl⟩
    | red => exact ⟨_,_,_,if_neg (by simp [hl.color_eq]),.left hl hr,rfl⟩

theorem represents_empty : Represents (fun _ => none) ({} : RBTree K V).root.pairs := by
  intro k v
  simp

variable [LinearOrder K]

/-- What a tree consists of between the calls. -/
structure Inv (T : RBTree K V) : Prop where
  balanced : ∃ h, T.root.Balanced .black h
  ascending : Ascending T.root.pairs
  apart : T.nodes.Apart T.root.ids

theorem inv_empty : ({} : RBTree K V).Inv where
  balanced := ⟨0,.nil⟩
  ascending := List.Pairwise.nil
  apart := ⟨List.nodup_nil,by simp⟩

theorem Inv.blacken {s : Nodes} (hb : n.Balanced c h) (ha : Ascending n.pairs)
    (hs : s.Apart n.ids) : (⟨RBTree.blacken n,s⟩ : RBTree K V).Inv where
  balanced := blacken_balanced hb
  ascending := (pairs_blacken n).symm ▸ ha
  apart := by
    rw [Tree.ids,blacken_eq]
    exact hs

private theorem Inv.set (hT : T.Inv) (key : K) (value : V) :
    ∃ T', T.set key value = some T' ∧ T'.Inv ∧ T'.root.pairs = setPair key value T.root.pairs := by
  obtain ⟨h,hb⟩ := hT.balanced
  have hgrows : ∃ n s, T.root.put key value T.nodes = some (n,s) ∧ n.Grown .black h := Tree.put_grows T.nodes hb
  obtain ⟨n,s,hput,c,hn⟩ := hgrows
  have hpairs := Tree.pairs_put hput hT.ascending
  have hs : s.Apart n.ids := by
    rcases Tree.ids_put hput with ⟨hids,rfl⟩ | ⟨hp,rfl⟩
    · rw [hids]
      exact hT.apart
    · exact hT.apart.alloc hp
  have hpaint : n.paint .black = some (RBTree.blacken n) := by
    cases n with
    | nil =>
      rw [Tree.pairs_nil,setPair] at hpairs
      simp at hpairs
    | node _ _ _ _ _ _ => rfl
  refine ⟨_,?_,Inv.blacken hn (hpairs ▸ hT.ascending.setPair) hs,?_⟩
  · simp [RBTree.set,hput,hpaint]
  · rw [pairs_blacken,hpairs]

private theorem Inv.delete (hT : T.Inv) (key : K) :
    ∃ T', T.delete key = some T' ∧ T'.Inv ∧ T'.root.pairs = erasePair key T.root.pairs := by
  cases hg : T.get key with
  | none => exact ⟨T,by simp [RBTree.delete,hg],hT,(erasePair_eq_self (Tree.not_mem_keys_of_get hT.ascending hg)).symm⟩
  | some value =>
    have hk := Tree.mem_keys_of_get hT.ascending hg
    obtain ⟨h,hb⟩ := hT.balanced
    obtain ⟨n,c,h',hred,hloose,hent⟩ := redden_loose hb hk
    have hpairs : n.pairs = T.root.pairs := congrArg (List.map Prod.snd) hent
    have hids : n.ids = T.root.ids := congrArg (List.map Prod.fst) hent
    have hkeys : key ∈ n.keys := by rw [Tree.keys,hpairs]; exact hk
    have hcut : Tree.Cut T.nodes n c h' _ (n.delete key n.size T.nodes) :=
      Tree.delete_cuts n.size n c h' (.inl hloose) (hpairs ▸ hT.ascending) hkeys (Nat.le_refl _)
    obtain ⟨n',s',c',hdel,hn',-,hps,id,hp,rfl⟩ := hcut
    rw [hpairs] at hps
    refine ⟨_,?_,Inv.blacken hn' (hps ▸ hT.ascending.erasePair) (hT.apart.free (hids ▸ hp)),?_⟩
    · simp [RBTree.delete,hg,hred,hdel]
    · rw [pairs_blacken,hps]

variable {m : K → Option V}

private theorem Inv.apply (hT : T.Inv) (hm : Represents m T.root.pairs) (op : Op K V) :
    ∃ T', T.apply op = some T' ∧ T'.Inv ∧ Represents (op.change m) T'.root.pairs := by
  cases op with
  | set key value =>
    obtain ⟨T',h,hT',hps⟩ := hT.set key value
    exact ⟨T',h,hT',hps ▸ hm.set⟩
  | delete key =>
    obtain ⟨T',h,hT',hps⟩ := hT.delete key
    exact ⟨T',h,hT',hps ▸ hm.erase⟩

theorem Inv.applyAll (hT : T.Inv) (hm : Represents m T.root.pairs) (ops : List (Op K V)) :
    ∃ T', T.applyAll ops = some T' ∧ T'.Inv ∧ Represents (ops.foldl (fun m op => op.change m) m) T'.root.pairs := by
  induction ops generalizing T m with
  | nil => exact ⟨T,rfl,hT,hm⟩
  | cons op ops ih =>
    obtain ⟨T₁,h₁,hT₁,hm₁⟩ := hT.apply hm op
    obtain ⟨T₂,h₂,hT₂,hm₂⟩ := ih hT₁ hm₁
    exact ⟨T₂,by rw [RBTree.applyAll,h₁,Option.bind_some,h₂],hT₂,hm₂⟩

/-- A left-leaning red-black tree none of whose nodes is in the pool. -/
structure Valid (T : RBTree K V) : Prop where
  ordered : T.root.keys.Pairwise (· < ·)
  noRightRed : T.root.NoRightRed
  noRedRed : T.root.NoRedRed
  sameBlacks : ∃ h, ∀ b ∈ T.root.blacks, b = h
  blackRoot : T.root.color = .black
  pooled : ∀ id ∈ T.nodes.pool, id ∉ T.root.ids

private theorem Inv.valid (hT : T.Inv) : T.Valid := by
  obtain ⟨h,hb⟩ := hT.balanced
  refine ⟨?_,hb.noRightRed,hb.noRedRed,⟨h,hb.blacks_eq⟩,hb.color_eq,fun id hid hmem => ?_⟩
  · exact List.pairwise_map.mpr hT.ascending
  · exact (List.nodup_append.mp hT.apart.nodup).2.2 id hmem id hid rfl

end RBTree

/-- No sequence of calls panics, and each one leaves a valid tree behind. -/
theorem calls_keep_valid [LinearOrder K] (ops : List (Op K V)) :
    ∃ T, ({} : RBTree K V).applyAll ops = some T ∧ T.Valid := by
  obtain ⟨T,h,hT,-⟩ := RBTree.inv_empty.applyAll RBTree.represents_empty ops
  exact ⟨T,h,hT.valid⟩

example : (({} : RBTree Nat Nat).applyAll [.set 1 0,.set 2 0,.set 3 0,.set 4 0,.delete 2,.set 5 0]).map
    (fun T => (T.root.ids,T.root.keys,T.nodes.pool)) = some ([0, 1, 3, 2],[1, 3, 4, 5],[]) := by decide

end Pggat.Rbtree
