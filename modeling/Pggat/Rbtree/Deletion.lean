import Pggat.Rbtree.Balance

/-! `deleteMin` and `delete`: from a loose tree they do not panic, take out one pair, free one node and leave a balanced
tree of the same height behind. -/
namespace Pggat.Rbtree
open Pggat.Base
namespace Tree
variable {K V : Type} {id : Nat} {k : K} {v : V} {l l' r r' n n' : Tree K V} {c cl : Color} {h : Nat} {s s' : Nodes}

def Freed (s : Nodes) (n : Tree K V) (s' : Nodes) (n' : Tree K V) : Prop :=
  ∃ id, n.ids.Perm (id :: n'.ids) ∧ s' = s.free id

variable {c' : Color} {k' : K} {v' : V}

private theorem Freed.left (hf : Freed s l s' l') :
    Freed s (node id c k v l r) s' (node id c' k' v' l' r) := by
  obtain ⟨x,hp,hs⟩ := hf
  refine ⟨x,?_,hs⟩
  rw [ids_node,ids_node]
  exact hp.append_right _

private theorem Freed.right (hf : Freed s r s' r') :
    Freed s (node id c k v l r) s' (node id c' k' v' l r') := by
  obtain ⟨x,hp,hs⟩ := hf
  refine ⟨x,?_,hs⟩
  rw [ids_node,ids_node]
  calc l.ids ++ id :: r.ids
    _ |>.Perm (l.ids ++ id :: x :: r'.ids) := (hp.cons id).append_left _
    _ |>.Perm (l.ids ++ x :: id :: r'.ids) := (List.Perm.swap x id _).append_left _
    _ |>.Perm (x :: (l.ids ++ id :: r'.ids)) := List.perm_middle

/-- A deletion that takes a tree of height `h` to one with the pairs `ps`; a black root stays black. -/
def Cut (s : Nodes) (n : Tree K V) (c : Color) (h : Nat) (ps : List (K × V)) (x : Option (Tree K V × Nodes)) : Prop :=
  ∃ n' s' c', x = some (n',s') ∧ Balanced n' c' h ∧ (c = .black → c' = .black) ∧ n'.pairs = ps ∧ Freed s n s' n'

variable {ps : List (K × V)} {x : Option (Tree K V × Nodes)}

theorem Cut.congr {m : Tree K V} (hx : Cut s m c h ps x)
    (he : m.entries = n.entries) : Cut s n c h ps x := by
  obtain ⟨n',s',c',hx,hb,hc,hps,id,hp,hs⟩ := hx
  have hids : m.ids = n.ids := congrArg (List.map Prod.fst) he
  exact ⟨n',s',c',hx,hb,hc,hps,id,hids ▸ hp,hs⟩

theorem OpenLeft.cut (hn : OpenLeft (node id c k v l r) cl h)
    (hx : ∀ c' h', Loose l c' h' → Cut s l c' h' ps x) :
    Cut s (node id c k v l r) cl h (ps ++ (k,v) :: r.pairs) (x.bind (relinkLeft id c k v r)) := by
  obtain ⟨c',h',hl,hclose⟩ := hn.closes
  obtain ⟨l',s',cl',rfl,hb,hc,rfl,hf⟩ := hx c' h' hl
  obtain ⟨n',cn,hbal,hn',hcn⟩ := hclose l' cl' hb hc
  have hent := entries_balance hbal
  have hids : n'.ids = (node id c k v l' r).ids := congrArg (List.map Prod.fst) hent
  have hpairs : n'.pairs = (node id c k v l' r).pairs := congrArg (List.map Prod.snd) hent
  obtain ⟨y,hp,hs⟩ : Freed s (node id c k v l r) s' (node id c k v l' r) := hf.left
  refine ⟨n',s',cn,?_,hn',hcn,by rw [hpairs,pairs_node],y,hids ▸ hp,hs⟩
  simp [relinkLeft,hbal]

variable {k₀ : K}

/-- A deletion in the right child of an opened node, which may get another key and value. -/
theorem OpenRight.cut
    (hn : OpenRight k₀ (node id c k v l r) cl h)
    (hx : ∀ c' h', (Loose r c' h' ∨ c' = .black ∧ Turned k₀ r h') → Cut s r c' h' ps x) :
    Cut s (node id c k v l r) cl h (l.pairs ++ (k',v') :: ps) (x.bind (relinkRight id c k' v' l)) := by
  obtain ⟨c',h',hr,hclose⟩ := hn.closes
  obtain ⟨r',s',cr',rfl,hb,hc,rfl,hf⟩ := hx c' h' hr
  obtain ⟨n',cn,hbal,hn',hcn⟩ := hclose k' v' r' cr' hb hc
  have hent := entries_balance hbal
  have hids : n'.ids = (node id c k' v' l r').ids := congrArg (List.map Prod.fst) hent
  have hpairs : n'.pairs = (node id c k' v' l r').pairs := congrArg (List.map Prod.snd) hent
  obtain ⟨y,hp,hs⟩ : Freed s (node id c k v l r) s' (node id c k' v' l r') := hf.right
  refine ⟨n',s',cn,?_,hn',hcn,by rw [hpairs,pairs_node],y,hids ▸ hp,hs⟩
  simp [relinkRight,hbal]

theorem eq_nil_of_balanced (hn : Balanced n .black 0) : n = nil := by
  cases hn
  rfl

theorem isNil_eq_true : n.isNil = true ↔ n = nil := by
  cases n with
  | nil => simp [isNil]
  | node _ _ _ _ _ _ => simp [isNil]

theorem min_eq_head (n : Tree K V) : n.min = n.pairs.head? := by
  induction n with
  | nil => rfl
  | node id c k v l r ihl ihr =>
    cases l with
    | nil => rfl
    | node lid lc lk lv ll lr =>
      rw [min,ihl,pairs_node,pairs_node]
      simp

theorem size_eq (he : n'.entries = n.entries) : n'.size = n.size := by
  rw [← length_entries,he,length_entries]

theorem cut_leaf : Cut s (node id c k v nil nil) .red 0 [] (some (nil,s.free id)) :=
  ⟨nil,_,.black,rfl,.nil,fun _ => rfl,rfl,id,.refl _,rfl⟩

theorem deleteMin_cuts (depth : Nat) (hn : Loose n c h) (hd : n.size ≤ depth) :
    ∃ p ps, n.pairs = p :: ps ∧ Cut s n c h ps (deleteMin depth s n) := by
  induction depth generalizing n c h with
  | zero =>
    cases hn with
    | red _ _ => cases hd
    | left _ _ => cases hd
  | succ depth ih =>
    cases n with
    | nil => cases hn
    | node id cn k v l r =>
      rw [deleteMin]
      cases hl : l.isNil with
      | true =>
        rw [isNil_eq_true] at hl
        subst hl
        cases hn with
        | red hl hr =>
          cases hl with
          | nil =>
            rw [eq_nil_of_balanced hr,if_pos rfl]
            exact ⟨(k,v),[],rfl,cut_leaf⟩
        | left hl _ => cases hl
      | false =>
        obtain ⟨n',hopen,ho,hleft⟩ := openLeft_opens hn hl
        have hent := entries_openLeft hopen
        rw [if_neg (by simp),hopen]
        cases n' with
        | nil => cases ho
        | node id' c' k' v' l' r' =>
          have hsize : l'.size ≤ depth := by
            have := size_eq hent
            rw [size] at this
            omega
          obtain ⟨cl,hl',hloose,-⟩ := ho.closes
          obtain ⟨p,ps,hps,-⟩ := ih hloose hsize
          have hpairs : (node id cn k v l r).pairs = (node id' c' k' v' l' r').pairs :=
            congrArg (List.map Prod.snd) hent.symm
          refine ⟨p,ps ++ (k',v') :: r'.pairs,?_,Cut.congr (ho.cut fun c'' h'' hloose' => ?_) hent⟩
          · rw [hpairs,pairs_node,hps,List.cons_append]
          · obtain ⟨q,qs,hqs,hcut⟩ := ih hloose' hsize
            rw [hps] at hqs
            cases hqs
            exact hcut

theorem mem_keys_of_turned (hn : Turned k₀ n h) : k₀ ∈ n.keys := by
  cases hn with
  | black _ _ => simp [keys]

theorem isNil_eq_false_of_mem {key : K} (hk : key ∈ n.keys) : n.isNil = false := by
  cases n with
  | nil => cases hk
  | node _ _ _ _ _ _ => rfl

section
variable [LinearOrder K] {key : K}

theorem ascending_node (ha : Ascending (node id c k v l r).pairs) :
    Ascending l.pairs ∧ Ascending r.pairs ∧ (∀ x ∈ l.keys, x < k) ∧ ∀ x ∈ r.keys, k < x := by
  rw [pairs_node] at ha
  obtain ⟨hl,hr,hlt,hgt⟩ := Ascending.middle_iff.mp ha
  refine ⟨hl,hr,fun x hx => ?_,fun x hx => ?_⟩
  · obtain ⟨p,hp,rfl⟩ := List.mem_map.mp hx
    exact hlt p hp
  · obtain ⟨p,hp,rfl⟩ := List.mem_map.mp hx
    exact hgt p hp

variable {k₀ : K}

theorem OpenRight.key_le (hn : OpenRight k₀ (node id c k v l r) cl h)
    (ha : Ascending (node id c k v l r).pairs) : k ≤ k₀ := by
  cases hn with
  | held _ _ => exact le_refl _
  | lent _ _ => exact le_refl _
  | split _ _ => exact le_refl _
  | turned _ hr => exact ((ascending_node ha).2.2.2 k₀ (mem_keys_of_turned hr)).le

theorem leanRight_key {id' : Nat} {c' : Color} {k' : K} {v' : V}
    (hlean : leanRight (node id c k v l r) = some (node id' c' k' v' l' r'))
    (ha : Ascending (node id c k v l r).pairs) : k' ≤ k := by
  rw [leanRight] at hlean
  split at hlean
  · cases l with
    | nil => cases hlean
    | node lid lc lk lv ll lr =>
      cases lc with
      | black => cases hlean
      | red =>
        cases hlean
        exact ((ascending_node ha).2.2.1 k' (by simp [keys])).le
  · cases hlean
    exact le_refl _

/-- What is to be shown of `delete`. -/
def Deletes (V : Type) (key : K) (depth : Nat) (s : Nodes) : Prop :=
  ∀ (n : Tree K V) (c : Color) (h : Nat), (Loose n c h ∨ c = .black ∧ ∃ k₀ ≤ key, Turned k₀ n h) →
    Ascending n.pairs → key ∈ n.keys → n.size ≤ depth → Cut s n c h (erasePair key n.pairs) (delete key depth s n)

variable {depth : Nat}

theorem delete_left (ih : Deletes V key depth s) (hn : Loose (node id c k v l r) cl h)
    (ha : Ascending (node id c k v l r).pairs) (hk : key ∈ (node id c k v l r).keys)
    (hd : (node id c k v l r).size ≤ depth + 1) (hlt : key < k) :
    Cut s (node id c k v l r) cl h (erasePair key (node id c k v l r).pairs)
      (delete key (depth + 1) s (node id c k v l r)) := by
  rw [keys,pairs_node] at hk
  rw [pairs_node] at ha
  have hmem : key ∈ l.keys := mem_left ha hlt hk
  obtain ⟨n',hopen,ho,hleft⟩ := openLeft_opens hn (isNil_eq_false_of_mem hmem)
  have hent := entries_openLeft hopen
  rw [delete,if_pos hlt,hopen]
  cases n' with
  | nil => cases ho
  | node id' c' k' v' l' r' =>
    have hpairs : (node id c k v l r).pairs = (node id' c' k' v' l' r').pairs :=
      congrArg (List.map Prod.snd) hent.symm
    have hsize : l'.size ≤ depth := by
      have := size_eq hent
      rw [size] at this
      omega
    have hmem' : key ∈ l'.keys := by
      obtain ⟨rest,hrest⟩ := hleft
      rw [keys,pairs,hrest,List.map_append,List.map_append]
      exact List.mem_append_left _ hmem
    rw [← pairs_node id c,hpairs] at ha
    obtain ⟨hal,-,hlt',-⟩ := ascending_node ha
    rw [hpairs,pairs_node,erasePair_left (pairs_node id' c' k' v' l' r' ▸ ha) (hlt' key hmem')]
    exact Cut.congr (ho.cut fun c'' h'' hloose => ih l' c'' h'' (.inl hloose) hal hmem' hsize) hent

private theorem Leaned.cut_leaf (hn : Leaned (node id c key v l nil) cl h) :
    Cut s (node id c key v l nil) cl h (erasePair key (node id c key v l nil).pairs) (some (nil,s.free id)) := by
  cases hn with
  | red hl hr =>
    cases hr with
    | nil =>
      rw [eq_nil_of_balanced hl,pairs_node,pairs_nil,List.nil_append,erasePair_cons_self]
      exact Tree.cut_leaf
  | right _ hr => cases hr

private theorem delete_opened (ih : Deletes V key depth s) (ho : OpenRight k₀ (node id c k v l r) cl h)
    (hk₀ : k₀ ≤ key) (ha : Ascending (node id c k v l r).pairs) (hk : key ∈ (node id c k v l r).keys)
    (hd : (node id c k v l r).size ≤ depth + 1) :
    Cut s (node id c k v l r) cl h (erasePair key (node id c k v l r).pairs)
      (if key = k then (min r).bind fun x => (deleteMin depth s r).bind (relinkRight id c x.1 x.2 l)
      else (delete key depth s r).bind (relinkRight id c k v l)) := by
  have hsize : r.size ≤ depth := by
    rw [size] at hd
    omega
  obtain ⟨-,har,-,hgt⟩ := ascending_node ha
  rw [keys,pairs_node] at hk
  rw [pairs_node] at ha ⊢
  by_cases he : key = k
  · subst he
    have hloose : ∀ c' h', (Loose r c' h' ∨ c' = .black ∧ Turned k₀ r h') → Loose r c' h' := by
      rintro c' h' (hr | ⟨-,hr⟩)
      · exact hr
      · exact absurd (hgt k₀ (mem_keys_of_turned hr)) (not_lt.mpr hk₀)
    obtain ⟨c',h',hr,-⟩ := ho.closes
    obtain ⟨p,ps,hps,-⟩ := @deleteMin_cuts K V r c' h' s depth (hloose c' h' hr) hsize
    have hmin : r.min = some p := by rw [min_eq_head,hps,List.head?_cons]
    rw [if_pos rfl,hmin,erasePair_middle ha,hps]
    refine ho.cut fun c'' h'' hr' => ?_
    obtain ⟨q,qs,hqs,hcut⟩ := @deleteMin_cuts K V r c'' h'' s depth (hloose c'' h'' hr') hsize
    rw [hps] at hqs
    cases hqs
    exact hcut
  · have hlt : k < key := lt_of_le_of_ne ((ho.key_le (pairs_node id c k v l r ▸ ha)).trans hk₀) (Ne.symm he)
    rw [if_neg he,erasePair_right ha hlt]
    refine ho.cut fun c' h' hr => ih r c' h' ?_ har (mem_right ha hlt hk) hsize
    rcases hr with hr | ⟨hc,hr⟩
    · exact .inl hr
    · exact .inr ⟨hc,k₀,hk₀,hr⟩

private theorem delete_right (ih : Deletes V key depth s)
    (hn : Loose (node id c k v l r) cl h ∨ cl = .black ∧ Turned k (node id c k v l r) h)
    (ha : Ascending (node id c k v l r).pairs) (hk : key ∈ (node id c k v l r).keys)
    (hd : (node id c k v l r).size ≤ depth + 1) (hge : ¬ key < k) :
    Cut s (node id c k v l r) cl h (erasePair key (node id c k v l r).pairs)
      (delete key (depth + 1) s (node id c k v l r)) := by
  obtain ⟨n₁,hlean,hn₁⟩ := leanRight_leans hn
  have hent₁ := entries_leanRight hlean
  rw [delete,if_neg hge,hlean]
  cases n₁ with
  | nil => cases hn₁
  | node id₁ c₁ k₁ v₁ l₁ r₁ =>
    have hk₁ : k₁ ≤ key := (leanRight_key hlean ha).trans (not_lt.mp hge)
    have hpairs₁ : (node id c k v l r).pairs = (node id₁ c₁ k₁ v₁ l₁ r₁).pairs :=
      congrArg (List.map Prod.snd) hent₁.symm
    rw [keys,hpairs₁] at hk
    rw [hpairs₁] at ha ⊢
    have hd₁ : (node id₁ c₁ k₁ v₁ l₁ r₁).size ≤ depth + 1 := size_eq hent₁ ▸ hd
    refine Cut.congr ?_ hent₁
    by_cases hfree : key = k₁ ∧ r₁.isNil = true
    · obtain ⟨rfl,hr⟩ := hfree
      rw [isNil_eq_true] at hr
      subst hr
      simp only [isNil,and_self,if_true]
      exact hn₁.cut_leaf
    · simp only [if_neg hfree]
      have hr : r₁.isNil = false := by
        by_contra hnil
        have hnil : r₁.isNil = true := by simpa using hnil
        have hlt : k₁ < key := lt_of_le_of_ne hk₁ fun he => hfree ⟨he.symm,hnil⟩
        rw [pairs_node] at ha hk
        rw [isNil_eq_false_of_mem (mem_right ha hlt hk)] at hnil
        cases hnil
      obtain ⟨n₂,hopen,ho⟩ := hn₁.opens hr
      have hent₂ := entries_openRight hopen
      rw [hopen]
      cases n₂ with
      | nil => cases ho
      | node id₂ c₂ k₂ v₂ l₂ r₂ =>
        have hpairs₂ : (node id₁ c₁ k₁ v₁ l₁ r₁).pairs = (node id₂ c₂ k₂ v₂ l₂ r₂).pairs :=
          congrArg (List.map Prod.snd) hent₂.symm
        rw [hpairs₂] at ha hk ⊢
        have hd₂ : (node id₂ c₂ k₂ v₂ l₂ r₂).size ≤ depth + 1 := size_eq hent₂ ▸ hd₁
        exact Cut.congr (delete_opened ih ho hk₁ ha hk hd₂) hent₂

theorem delete_cuts (depth : Nat) : Deletes V key depth s := by
  induction depth with
  | zero =>
    intro n c h hn ha hk hd
    cases n with
    | nil => cases hk
    | node _ _ _ _ _ _ => cases hd
  | succ depth ih =>
    intro n c h hn ha hk hd
    cases n with
    | nil => cases hk
    | node id cn k v l r =>
      by_cases hlt : key < k
      · have hloose : Loose (node id cn k v l r) c h := by
          rcases hn with hn | ⟨-,k₀,hk₀,hn⟩
          · exact hn
          · cases hn with
            | black _ _ => exact absurd hlt (not_lt.mpr hk₀)
        exact delete_left ih hloose ha hk hd hlt
      · refine delete_right ih ?_ ha hk hd hlt
        rcases hn with hn | ⟨hc,k₀,hk₀,hn⟩
        · exact .inl hn
        · cases hn with
          | black hl hr => exact .inr ⟨hc,.black hl hr⟩

end
end Tree
end Pggat.Rbtree
