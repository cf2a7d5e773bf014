import Pggat.Rbtree.Balance

/-! `put`: it does not panic, sets one pair, takes at most one new node and leaves a tree that is balanced up to its
root. -/
namespace Pggat.Rbtree
open Pggat.Base
namespace Tree
variable {K V : Type} {key : K} {value : V} {n n' : Tree K V} {c : Color} {h : Nat} {s s' : Nodes}

/-- What `put` makes of a balanced tree whose root has a colour. -/
def Grown : Color → Nat → Tree K V → Prop
  | .black, h, n => ∃ c, Balanced n c h
  | .red, h, n => Near n h

variable {id : Nat} {k : K} {v : V} {l r : Tree K V}

theorem relinkLeft_some (hb : balance (node id c k v l r) = some n) :
    relinkLeft id c k v r (l,s) = some (n,s) := by
  simp [relinkLeft,hb]

theorem relinkRight_some (hb : balance (node id c k v l r) = some n) :
    relinkRight id c k v l (r,s) = some (n,s) := by
  simp [relinkRight,hb]

variable {x : Option (Tree K V × Nodes)}

theorem relinkRight_inv
    (hx : x.bind (relinkRight id c k v l) = some (n',s')) :
    ∃ r', x = some (r',s') ∧ n'.entries = (node id c k v l r').entries := by
  obtain ⟨⟨r',s''⟩,rfl,hr⟩ := Option.bind_eq_some_iff.mp hx
  obtain ⟨m,hb,he⟩ := Option.map_eq_some_iff.mp hr
  cases he
  exact ⟨r',rfl,entries_balance hb⟩

theorem relinkLeft_inv
    (hx : x.bind (relinkLeft id c k v r) = some (n',s')) :
    ∃ l', x = some (l',s') ∧ n'.entries = (node id c k v l' r).entries := by
  obtain ⟨⟨l',s''⟩,rfl,hl⟩ := Option.bind_eq_some_iff.mp hx
  obtain ⟨m,hb,he⟩ := Option.map_eq_some_iff.mp hl
  cases he
  exact ⟨l',rfl,entries_balance hb⟩

def Took (s : Nodes) (n : Tree K V) (s' : Nodes) (n' : Tree K V) : Prop :=
  n'.ids = n.ids ∧ s' = s ∨ n'.ids.Perm (s.alloc.1 :: n.ids) ∧ s' = s.alloc.2

theorem Took.right {r' : Tree K V} (ht : Took s r s' r') :
    Took s (node id c k v l r) s' (node id c k v l r') := by
  rcases ht with ⟨hids,hs⟩ | ⟨hp,hs⟩
  · exact .inl ⟨by rw [ids_node,ids_node,hids],hs⟩
  · refine .inr ⟨?_,hs⟩
    rw [ids_node,ids_node]
    calc l.ids ++ id :: r'.ids
      _ |>.Perm (l.ids ++ id :: s.alloc.1 :: r.ids) := (hp.cons id).append_left _
      _ |>.Perm (l.ids ++ s.alloc.1 :: id :: r.ids) := (List.Perm.swap _ id _).append_left _
      _ |>.Perm (s.alloc.1 :: (l.ids ++ id :: r.ids)) := List.perm_middle

theorem Took.left {l' : Tree K V} (ht : Took s l s' l') :
    Took s (node id c k v l r) s' (node id c k v l' r) := by
  rcases ht with ⟨hids,hs⟩ | ⟨hp,hs⟩
  · exact .inl ⟨by rw [ids_node,ids_node,hids],hs⟩
  · refine .inr ⟨?_,hs⟩
    rw [ids_node,ids_node]
    exact hp.append_right _

theorem Took.congr {m : Tree K V} (ht : Took s n s' m) (he : n'.entries = m.entries) : Took s n s' n' := by
  have hids : n'.ids = m.ids := congrArg (List.map Prod.fst) he
  unfold Took at *
  rwa [hids]

variable [LinearOrder K]

theorem put_grows (s : Nodes) (hn : Balanced n c h) : ∃ n' s', put key value s n = some (n',s') ∧ Grown c h n' := by
  induction hn with
  | nil => exact ⟨_,_,rfl,.red,.red .nil .nil⟩
  | @red id k v l r h hl hr ihl ihr =>
    rw [put]
    split
    · obtain ⟨r',s',hput,cr,hr'⟩ := ihr
      obtain ⟨n',hb,hn'⟩ := balance_red hl hr' (.inl rfl)
      exact ⟨n',s',by rw [hput,Option.bind_some,relinkRight_some hb],hn'⟩
    · split
      · obtain ⟨l',s',hput,cl,hl'⟩ := ihl
        obtain ⟨n',hb,hn'⟩ := balance_red hl' hr (.inr rfl)
        exact ⟨n',s',by rw [hput,Option.bind_some,relinkLeft_some hb],hn'⟩
      · exact ⟨_,s,by rw [balance_same hl hr]; rfl,.red hl hr⟩
  | @black id k v l r c h hl hr ihl ihr =>
    rw [put]
    split
    · obtain ⟨r',s',hput,cr,hr'⟩ := ihr
      obtain ⟨n',cn,hb,hn',-⟩ := balance_black hl hr'
      exact ⟨n',s',by rw [hput,Option.bind_some,relinkRight_some hb],cn,hn'⟩
    · split
      · obtain ⟨l',s',hput,hl'⟩ := ihl
        obtain ⟨n',cn,hb,hn'⟩ : ∃ n' cn, balance (node id .black k v l' r) = some n' ∧ Balanced n' cn (h + 1) := by
          cases c with
          | black =>
            obtain ⟨cl,hl'⟩ := hl'
            obtain ⟨n',cn,hb,hn',-⟩ := balance_black hl' hr
            exact ⟨n',cn,hb,hn'⟩
          | red => exact balance_near hl' hr
        exact ⟨n',s',by rw [hput,Option.bind_some,relinkLeft_some hb],cn,hn'⟩
      · exact ⟨_,s,by rw [balance_same hl hr]; rfl,.black,.black hl hr⟩

theorem pairs_put (hput : put key value s n = some (n',s')) (ha : Ascending n.pairs) :
    n'.pairs = setPair key value n.pairs := by
  induction n generalizing n' s' with
  | nil =>
    cases hput
    rfl
  | node id c k v l r ihl ihr =>
    rw [pairs_node] at ha ⊢
    obtain ⟨hl,hr,-,-⟩ := Ascending.middle_iff.mp ha
    rw [put] at hput
    split at hput
    · rename_i hgt
      obtain ⟨r',hput,he⟩ := relinkRight_inv hput
      rw [pairs,he,← pairs,pairs_node,ihr hput hr,setPair_right ha hgt]
    · split at hput
      · rename_i hlt
        obtain ⟨l',hput,he⟩ := relinkLeft_inv hput
        rw [pairs,he,← pairs,pairs_node,ihl hput hl,setPair_left ha hlt]
      · rename_i hgt hlt
        obtain ⟨m,hb,he⟩ := Option.map_eq_some_iff.mp hput
        cases he
        obtain rfl := le_antisymm (not_lt.mp hgt) (not_lt.mp hlt)
        rw [pairs,entries_balance hb,← pairs,pairs_node,setPair_middle ha]

theorem ids_put (hput : put key value s n = some (n',s')) : Took s n s' n' := by
  induction n generalizing n' s' with
  | nil =>
    cases hput
    exact .inr ⟨.refl _,rfl⟩
  | node id c k v l r ihl ihr =>
    rw [put] at hput
    split at hput
    · obtain ⟨r',hput,he⟩ := relinkRight_inv hput
      exact (ihr hput).right.congr he
    · split at hput
      · obtain ⟨l',hput,he⟩ := relinkLeft_inv hput
        exact (ihl hput).left.congr he
      · obtain ⟨m,hb,he⟩ := Option.map_eq_some_iff.mp hput
        cases he
        have hsame : Took s (node id c k v l r) s (node id c k value l r) :=
          .inl ⟨by rw [ids_node,ids_node],rfl⟩
        exact hsame.congr (entries_balance hb)

end Tree
end Pggat.Rbtree
