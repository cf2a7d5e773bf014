import Pggat.Rbtree.Entries

/-! The shape of a left-leaning red-black tree, and how `balance` and the moves of a deletion restore it. -/
namespace Pggat.Rbtree
namespace Tree
variable {K V : Type} {id : Nat} {k : K} {v : V} {l r n : Tree K V} {c cl cr : Color} {h : Nat}

/-- A tree with a root of the given colour and the given number of black nodes on every path. Red nodes have black
children and no right child is red. -/
inductive Balanced : Tree K V → Color → Nat → Prop
  | nil : Balanced .nil .black 0
  | red {id : Nat} {k : K} {v : V} {l r : Tree K V} {h : Nat} :
    Balanced l .black h → Balanced r .black h → Balanced (.node id .red k v l r) .red h
  | black {id : Nat} {k : K} {v : V} {l r : Tree K V} {c : Color} {h : Nat} :
    Balanced l c h → Balanced r .black h → Balanced (.node id .black k v l r) .black (h + 1)

theorem Balanced.color_eq (ht : Balanced n c h) : n.color = c := by
  cases ht with
  | nil => rfl
  | red _ _ => rfl
  | black _ _ => rfl

/-- A red root that may have a red left child, as `put` leaves it behind. -/
inductive Near : Tree K V → Nat → Prop
  | red {id : Nat} {k : K} {v : V} {l r : Tree K V} {c : Color} {h : Nat} :
    Balanced l c h → Balanced r .black h → Near (.node id .red k v l r) h

/-- What a deletion goes down into: a node that is red or has a red left child. -/
inductive Loose : Tree K V → Color → Nat → Prop
  | red {id : Nat} {k : K} {v : V} {l r : Tree K V} {h : Nat} :
    Balanced l .black h → Balanced r .black h → Loose (.node id .red k v l r) .red h
  | left {id : Nat} {k : K} {v : V} {l r : Tree K V} {h : Nat} :
    Balanced l .red h → Balanced r .black h → Loose (.node id .black k v l r) .black (h + 1)

/-- A node with a red right child, which a deletion goes down into on the right. -/
inductive Turned (k : K) : Tree K V → Nat → Prop
  | black {id : Nat} {v : V} {l r : Tree K V} {h : Nat} :
    Balanced l .black h → Balanced r .red h → Turned k (.node id .black k v l r) (h + 1)

theorem Balanced.loose (ht : Balanced n .red h) : Loose n .red h := by
  cases ht with
  | red hl hr => exact .red hl hr

theorem balance_same (hl : Balanced l cl h) (hr : Balanced r .black h) :
    balance (node id c k v l r) = some (node id c k v l r) := by
  have hcr := hr.color_eq
  cases hl with
  | nil => simp [balance,balanceRight,balanceLeft,balanceColors,hcr]
  | red hll _ => simp [balance,balanceRight,balanceLeft,balanceColors,hcr,hll.color_eq]
  | black _ _ => simp [balance,balanceRight,balanceLeft,balanceColors,hcr]

theorem balance_rotates {rid : Nat} {rk : K} {rv : V} {rl rr : Tree K V} (hl : Balanced l .black h)
    (hrr : Balanced rr .black h) :
    balance (node id c k v l (node rid .red rk rv rl rr)) =
      some (node rid c rk rv (node id .red k v l rl) rr) := by
  simp [balance,balanceRight,balanceLeft,balanceColors,rotateLeft,hl.color_eq,hrr.color_eq]

private theorem balance_flips {lid rid : Nat} {lk rk : K} {lv rv : V} {ll lr rl rr : Tree K V}
    (hll : Balanced ll .black h) :
    balance (node id .black k v (node lid .red lk lv ll lr) (node rid .red rk rv rl rr)) =
      some (node id .red k v (node lid .black lk lv ll lr) (node rid .black rk rv rl rr)) := by
  simp [balance,balanceRight,balanceLeft,balanceColors,flipColors,Color.opposite,hll.color_eq]

private theorem balance_lifts {lid mid : Nat} {lk mk : K} {lv mv : V} {a b lr : Tree K V} (hr : Balanced r .black h) :
    balance (node id .black k v (node lid .red lk lv (node mid .red mk mv a b) lr) r) =
      some (node lid .red lk lv (node mid .black mk mv a b) (node id .black k v lr r)) := by
  simp [balance,balanceRight,balanceLeft,balanceColors,rotateRight,flipColors,Color.opposite,hr.color_eq]

theorem balance_black (hl : Balanced l cl h) (hr : Balanced r cr h) :
    ∃ n' c', balance (node id .black k v l r) = some n' ∧ Balanced n' c' (h + 1) ∧
      (cl = .black ∨ cr = .black → c' = .black) := by
  cases cr with
  | black => exact ⟨_,_,balance_same hl hr,.black hl hr,fun _ => rfl⟩
  | red =>
    cases hr with
    | red hrl hrr =>
      cases cl with
      | black => exact ⟨_,_,balance_rotates hl hrr,.black (.red hl hrl) hrr,fun _ => rfl⟩
      | red =>
        cases hl with
        | red hll hlr => exact ⟨_,_,balance_flips hll,.red (.black hll hlr) (.black hrl hrr),by simp⟩

theorem balance_red (hl : Balanced l cl h) (hr : Balanced r cr h) (hc : cl = .black ∨ cr = .black) :
    ∃ n', balance (node id .red k v l r) = some n' ∧ Near n' h := by
  cases cr with
  | black => exact ⟨_,balance_same hl hr,.red hl hr⟩
  | red =>
    obtain rfl : cl = .black := by simpa using hc
    cases hr with
    | red hrl hrr => exact ⟨_,balance_rotates hl hrr,.red (.red hl hrl) hrr⟩

theorem balance_near (hl : Near l h) (hr : Balanced r .black h) :
    ∃ n' c', balance (node id .black k v l r) = some n' ∧ Balanced n' c' (h + 1) := by
  cases hl with
  | @red lid lk lv ll lr c _ hll hlr =>
    cases c with
    | black => exact ⟨_,_,balance_same (.red hll hlr) hr,.black (.red hll hlr) hr⟩
    | red =>
      cases hll with
      | red ha hb => exact ⟨_,_,balance_lifts hr,.red (.black ha hb) (.black hlr hr)⟩

/-- A node that a deletion can go down from on the left: its left child is loose, and it can be rebalanced when the
child has become smaller. -/
inductive OpenLeft : Tree K V → Color → Nat → Prop
  | held {id : Nat} {k : K} {v : V} {l r : Tree K V} {h : Nat} :
    Balanced l .red h → Balanced r .black h → OpenLeft (.node id .black k v l r) .black (h + 1)
  | lent {id : Nat} {k : K} {v : V} {l r : Tree K V} {h : Nat} :
    Loose l .black h → Balanced r .black h → OpenLeft (.node id .red k v l r) .red h
  | split {id : Nat} {k : K} {v : V} {l r : Tree K V} {h : Nat} :
    Balanced l .red h → Balanced r .red h → OpenLeft (.node id .black k v l r) .red (h + 1)

/-- A node that a deletion behind the key `k₀` can go down from on the right. -/
inductive OpenRight (k₀ : K) : Tree K V → Color → Nat → Prop
  | held {id : Nat} {v : V} {l r : Tree K V} {h : Nat} :
    Balanced l .black h → Balanced r .red h → OpenRight k₀ (.node id .black k₀ v l r) .black (h + 1)
  | lent {id : Nat} {v : V} {l r : Tree K V} {h : Nat} :
    Balanced l .black h → Loose r .black h → OpenRight k₀ (.node id .red k₀ v l r) .red h
  | split {id : Nat} {v : V} {l r : Tree K V} {h : Nat} :
    Balanced l .red h → Balanced r .red h → OpenRight k₀ (.node id .black k₀ v l r) .red (h + 1)
  | turned {id : Nat} {k : K} {v : V} {l r : Tree K V} {h : Nat} :
    Balanced l .black h → Turned k₀ r h → OpenRight k₀ (.node id .red k v l r) .red h

/-- The first step to the right: the node is red or its right child is. -/
inductive Leaned : Tree K V → Color → Nat → Prop
  | red {id : Nat} {k : K} {v : V} {l r : Tree K V} {h : Nat} :
    Balanced l .black h → Balanced r .black h → Leaned (.node id .red k v l r) .red h
  | right {id : Nat} {k : K} {v : V} {l r : Tree K V} {h : Nat} :
    Balanced l .black h → Balanced r .red h → Leaned (.node id .black k v l r) .black (h + 1)

/-- The entries of `l` come first in the left child of `n`. -/
def OnLeft (l : Tree K V) : Tree K V → Prop
  | .nil => False
  | .node _ _ _ _ l' _ => ∃ rest, l'.entries = l.entries ++ rest

section
variable {lid rid mid : Nat} {lk rk mk : K} {lv rv mv : V} {ll lr rl rr a b : Tree K V}

private theorem moveRedLeft_splits (hrl : rl.color = .black) :
    moveRedLeft (node id .red k v (node lid .black lk lv ll lr) (node rid .black rk rv rl rr)) =
      some (node id .black k v (node lid .red lk lv ll lr) (node rid .red rk rv rl rr)) := by
  simp [moveRedLeft,flipColors,Color.opposite,hrl]

private theorem moveRedLeft_borrows :
    moveRedLeft (node id .red k v (node lid .black lk lv ll lr)
      (node rid .black rk rv (node mid .red mk mv a b) rr)) =
      some (node mid .red mk mv (node id .black k v (node lid .red lk lv ll lr) a) (node rid .black rk rv b rr)) := by
  simp [moveRedLeft,flipColors,rotateRight,rotateLeft,Color.opposite]

private theorem moveRedRight_splits (hll : ll.color = .black) :
    moveRedRight (node id .red k v (node lid .black lk lv ll lr) (node rid .black rk rv rl rr)) =
      some (node id .black k v (node lid .red lk lv ll lr) (node rid .red rk rv rl rr)) := by
  simp [moveRedRight,flipColors,Color.opposite,hll]

private theorem moveRedRight_borrows :
    moveRedRight (node id .red k v (node lid .black lk lv (node mid .red mk mv a b) lr)
      (node rid .black rk rv rl rr)) =
      some (node lid .red lk lv (node mid .black mk mv a b) (node id .black k v lr (node rid .red rk rv rl rr))) := by
  simp [moveRedRight,flipColors,rotateRight,Color.opposite]

private theorem openLeft_same {lc : Color} (hc : ¬ (lc = .black ∧ ll.color = .black)) :
    openLeft (node id c k v (node lid lc lk lv ll lr) r) = some (node id c k v (node lid lc lk lv ll lr) r) :=
  if_neg hc

private theorem moveRedLeft_opens (hll : Balanced ll .black h) (hlr : Balanced lr .black h) (hrl : Balanced rl c h)
    (hrr : Balanced rr .black h) :
    ∃ n', moveRedLeft (node id .red k v (node lid .black lk lv ll lr) (node rid .black rk rv rl rr)) = some n' ∧
      OpenLeft n' .red (h + 1) ∧ OnLeft (node lid .black lk lv ll lr) n' := by
  cases c with
  | black =>
    exact ⟨_,moveRedLeft_splits hrl.color_eq,.split (.red hll hlr) (.red hrl hrr),[],by simp [entries]⟩
  | red =>
    cases hrl with
    | @red _ mk mv a _ _ ha hb =>
      exact ⟨_,moveRedLeft_borrows,.lent (.left (.red hll hlr) ha) (.black hb hrr),(id,k,v) :: a.entries,
        by simp [entries]⟩

private theorem moveRedRight_opens (hll : Balanced ll c h) (hlr : Balanced lr .black h) (hrl : Balanced rl .black h)
    (hrr : Balanced rr .black h) :
    ∃ n', moveRedRight (node id .red k v (node lid .black lk lv ll lr) (node rid .black rk rv rl rr)) = some n' ∧
      OpenRight k n' .red (h + 1) := by
  cases c with
  | black => exact ⟨_,moveRedRight_splits hll.color_eq,.split (.red hll hlr) (.red hrl hrr)⟩
  | red =>
    cases hll with
    | red ha hb => exact ⟨_,moveRedRight_borrows,.turned (.black ha hb) (.black hlr (.red hrl hrr))⟩

end

theorem openLeft_opens (hn : Loose (node id c k v l r) cl h) (hl : l.isNil = false) :
    ∃ n', openLeft (node id c k v l r) = some n' ∧ OpenLeft n' cl h ∧ OnLeft l n' := by
  cases hn with
  | left hl' hr =>
    cases hl' with
    | red hll hlr => exact ⟨_,openLeft_same (by simp),.held (.red hll hlr) hr,[],by simp⟩
  | red hl' hr =>
    cases hl' with
    | nil => cases hl
    | @black lid lk lv ll lr cll _ hll hlr =>
      cases cll with
      | red => exact ⟨_,openLeft_same (by simp [hll.color_eq]),.lent (.left hll hlr) hr,[],by simp⟩
      | black =>
        cases hr with
        | black hrl hrr =>
          obtain ⟨n',hn',ho⟩ := moveRedLeft_opens hll hlr hrl hrr
          exact ⟨n',(if_pos ⟨rfl,hll.color_eq⟩).trans hn',ho⟩

private theorem openRight_opens (hl : Balanced l .black h) (hr : Balanced r .black h) (hnil : r.isNil = false) :
    ∃ n', openRight (node id .red k v l r) = some n' ∧ OpenRight k n' .red h := by
  cases hr with
  | nil => cases hnil
  | @black rid rk rv rl rr crl _ hrl hrr =>
    cases crl with
    | red => exact ⟨_,if_neg (by simp [hrl.color_eq]),.lent hl (.left hrl hrr)⟩
    | black =>
      cases hl with
      | black hll hlr =>
        obtain ⟨n',hn',ho⟩ := moveRedRight_opens hll hlr hrl hrr
        exact ⟨n',(if_pos ⟨rfl,hrl.color_eq⟩).trans hn',ho⟩

theorem leanRight_leans (hn : Loose (node id c k v l r) cl h ∨ cl = .black ∧ Turned k (node id c k v l r) h) :
    ∃ n', leanRight (node id c k v l r) = some n' ∧ Leaned n' cl h := by
  rcases hn with hn | ⟨rfl,hn⟩
  · cases hn with
    | red hl hr => exact ⟨_,if_neg (by simp [hl.color_eq]),.red hl hr⟩
    | left hl hr =>
      cases hl with
      | red hll hlr => exact ⟨_,rfl,.right hll (.red hlr hr)⟩
  · cases hn with
    | black hl hr => exact ⟨_,if_neg (by simp [hl.color_eq]),.right hl hr⟩

theorem Leaned.opens (hn : Leaned (node id c k v l r) cl h) (hr : r.isNil = false) :
    ∃ n', openRight (node id c k v l r) = some n' ∧ OpenRight k n' cl h := by
  cases hn with
  | red hl hr' => exact openRight_opens hl hr' hr
  | right hl hr' =>
    cases hr' with
    | red hrl hrr => exact ⟨_,rfl,.held hl (.red hrl hrr)⟩

/-- What a deletion in the left child of an opened node needs and leaves behind. -/
theorem OpenLeft.closes (hn : OpenLeft (node id c k v l r) cl h) :
    ∃ c' h', Loose l c' h' ∧ ∀ l' cl', Balanced l' cl' h' → (c' = .black → cl' = .black) →
      ∃ n' cn, balance (node id c k v l' r) = some n' ∧ Balanced n' cn h ∧ (cl = .black → cn = .black) := by
  cases hn with
  | held hl hr =>
    refine ⟨_,_,hl.loose,fun l' cl' hl' _ => ?_⟩
    obtain ⟨n',cn,hb,hn',hc⟩ := balance_black hl' hr
    exact ⟨n',cn,hb,hn',fun _ => hc (.inr rfl)⟩
  | lent hl hr =>
    refine ⟨_,_,hl,fun l' cl' hl' hc => ?_⟩
    obtain rfl := hc rfl
    exact ⟨_,_,balance_same hl' hr,.red hl' hr,by simp⟩
  | split hl hr =>
    refine ⟨_,_,hl.loose,fun l' cl' hl' _ => ?_⟩
    obtain ⟨n',cn,hb,hn',-⟩ := balance_black hl' hr
    exact ⟨n',cn,hb,hn',by simp⟩

theorem OpenRight.closes {k₀ : K} (hn : OpenRight k₀ (node id c k v l r) cl h) :
    ∃ c' h', (Loose r c' h' ∨ c' = .black ∧ Turned k₀ r h') ∧
      ∀ k v r' cr', Balanced r' cr' h' → (c' = .black → cr' = .black) →
        ∃ n' cn, balance (node id c k v l r') = some n' ∧ Balanced n' cn h ∧ (cl = .black → cn = .black) := by
  cases hn with
  | held hl hr =>
    refine ⟨_,_,.inl hr.loose,fun k v r' cr' hr' _ => ?_⟩
    obtain ⟨n',cn,hb,hn',hc⟩ := balance_black hl hr'
    exact ⟨n',cn,hb,hn',fun _ => hc (.inl rfl)⟩
  | lent hl hr =>
    refine ⟨_,_,.inl hr,fun k v r' cr' hr' hc => ?_⟩
    obtain rfl := hc rfl
    exact ⟨_,_,balance_same hl hr',.red hl hr',by simp⟩
  | split hl hr =>
    refine ⟨_,_,.inl hr.loose,fun k v r' cr' hr' _ => ?_⟩
    obtain ⟨n',cn,hb,hn',-⟩ := balance_black hl hr'
    exact ⟨n',cn,hb,hn',by simp⟩
  | turned hl hr =>
    refine ⟨_,_,.inr ⟨rfl,hr⟩,fun k v r' cr' hr' hc => ?_⟩
    obtain rfl := hc rfl
    exact ⟨_,_,balance_same hl hr',.red hl hr',by simp⟩

end Tree
end Pggat.Rbtree
